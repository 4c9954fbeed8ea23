import Ccollections.Chashmap.OpenAddressing

/-!
# Index arithmetic and the probe loops of an open-addressing table
-/

namespace Ccollections.Chashmap
open Lib List Option

theorem nextIndex_eq (k index : Nat) : nextIndex (2 ^ k) index = (index + 1) % 2 ^ k := by
  rw [nextIndex, Nat.and_two_pow_sub_one_eq_mod]

theorem nextIndex_add (k h d : Nat) : nextIndex (2 ^ k) ((h + d) % 2 ^ k) = (h + (d + 1)) % 2 ^ k := by
  rw [nextIndex_eq, Nat.mod_add_mod, Nat.add_assoc]

theorem maskedSub_eq {k h d : Nat} (hk : k ≤ 64) (hh : h < 2 ^ k) (hd : d < 2 ^ k) :
    maskedSub (2 ^ k) ((h + d) % 2 ^ k) h = d := by
  have hdvd : 2 ^ k ∣ 2 ^ 64 := Nat.pow_dvd_pow 2 hk
  have hle : 2 ^ k ≤ 2 ^ 64 := Nat.le_of_dvd (by decide) hdvd
  obtain ⟨q, hq⟩ := hdvd
  have hdist := cyclicDist_eq (h := h) hd
  rw [cyclicDist, Nat.mod_eq_of_lt hh] at hdist
  rw [maskedSub, Nat.and_two_pow_sub_one_eq_mod, Nat.mod_mod_of_dvd _ (Dvd.intro q hq.symm)]
  have hqpos : 1 ≤ q := by
    rcases Nat.eq_zero_or_pos q with rfl | hpos
    · rw [Nat.mul_zero] at hq
      exact absurd hq (by decide)
    · exact hpos
  have hsplit : 2 ^ 64 = 2 ^ k + 2 ^ k * (q - 1) := by
    rw [hq, Nat.mul_sub_one]
    have := Nat.mul_le_mul_left (2 ^ k) hqpos
    omega
  rw [show (h + d) % 2 ^ k + 2 ^ 64 - h = (h + d) % 2 ^ k + (2 ^ k - h) + 2 ^ k * (q - 1) by omega,
    Nat.add_mul_mod_self_left, hdist]

/-! ## Looking for an empty slot -/

section Empty

variable {slots : Nat → Option OaSlot} {k h d : Nat}

theorem fillProbe_spec (hempty : slots ((h + d) % 2 ^ k) = none) (hpath : ∀ i < d, slots ((h + i) % 2 ^ k) ≠ none) :
    (fuel i : Nat) → i ≤ d → d < i + fuel → fillProbe slots (2 ^ k) fuel ((h + i) % 2 ^ k) = some ((h + d) % 2 ^ k)
  | 0, i, hi, hlt => by omega
  | fuel + 1, i, hi, hlt => by
    by_cases heq : i = d
    · subst heq
      simp [fillProbe, hempty]
    · have hsome := isSome_iff_ne_none.mpr (hpath i (by omega))
      rw [fillProbe, if_pos hsome, nextIndex_add]
      exact fillProbe_spec hempty hpath fuel (i + 1) (by omega) (by omega)

theorem insertionSlotLoop_spec {map : OpenAddrMap} (hcap : map.capacity = 2 ^ k) (hh : h < 2 ^ k) (hd : d < 2 ^ k)
    (hempty : map.slots ((h + d) % 2 ^ k) = none) (hpath : ∀ i < d, map.slots ((h + i) % 2 ^ k) ≠ none) :
    (fuel i : Nat) → i ≤ d → d < i + fuel → insertionSlotLoop map h fuel ((h + i) % 2 ^ k) = (h + d) % 2 ^ k
  | 0, i, hi, hlt => by omega
  | fuel + 1, i, hi, hlt => by
    by_cases heq : i = d
    · subst heq
      simp [insertionSlotLoop, hempty]
    · have hnone : ¬(map.slots ((h + i) % 2 ^ k)).isNone := by
        rw [isNone_iff_eq_none]
        exact hpath i (by omega)
      have hne : (h + (i + 1)) % 2 ^ k ≠ h := by
        intro hback
        have h0 : (h + (i + 1)) % 2 ^ k = (h + 0) % 2 ^ k := by rw [hback, Nat.add_zero, Nat.mod_eq_of_lt hh]
        have := probe_inj (by omega) (by omega) h0
        omega
      rw [insertionSlotLoop, if_neg hnone]
      simp only [hcap, nextIndex_add, if_pos hne]
      exact insertionSlotLoop_spec hcap hh hd hempty hpath fuel (i + 1) (by omega) (by omega)

theorem attemptProbe_spec : (left i : Nat) → {index displacement work : Nat} →
    (∀ i' < i, slots ((h + i') % 2 ^ k) ≠ none) →
    (attemptProbe slots (2 ^ k) left ((h + i) % 2 ^ k) i work).1 = some (index, displacement) →
    displacement ≤ i + left ∧ index = (h + displacement) % 2 ^ k ∧ slots index = none ∧
      ∀ i' < displacement, slots ((h + i') % 2 ^ k) ≠ none
  | left, i, index, displacement, work, hpath, hprobe => by
    unfold attemptProbe at hprobe
    by_cases hocc : (slots ((h + i) % 2 ^ k)).isSome
    · rw [if_pos hocc] at hprobe
      cases left with
      | zero => cases hprobe
      | succ left =>
        simp only [nextIndex_add] at hprobe
        have hpath' : ∀ i' < i + 1, slots ((h + i') % 2 ^ k) ≠ none := by
          intro i' hi'
          by_cases heq : i' = i
          · subst heq
            exact isSome_iff_ne_none.mp hocc
          · exact hpath i' (by omega)
        obtain ⟨hle, hrest⟩ := attemptProbe_spec left (i + 1) hpath' hprobe
        exact ⟨by omega, hrest⟩
    · rw [if_neg hocc] at hprobe
      cases hprobe
      exact ⟨Nat.le_add_right _ _, rfl, by simpa using hocc, hpath⟩

theorem first_empty_lt (hempty : slots ((h + d) % 2 ^ k) = none) (hpath : ∀ i < d, slots ((h + i) % 2 ^ k) ≠ none) :
    d < 2 ^ k := by
  by_contra hge
  have hpos : 0 < 2 ^ k := Nat.two_pow_pos k
  refine hpath (d - 2 ^ k) (by omega) ?_
  rw [← hempty, ← Nat.add_mod_right (h + (d - 2 ^ k))]
  congr 2
  omega

end Empty

/-! ## Looking for a key -/

section Key

variable {map : OpenAddrMap} {key : List UInt8} {k h : Nat}

def Misses (map : OpenAddrMap) (key : List UInt8) (h n : Nat) : Prop :=
  ∀ i < n, ∃ slot, map.slots ((h + i) % map.capacity) = some slot ∧ slot.keyData ≠ key

theorem Misses.succ {n : Nat} {slot : OaSlot} (hm : Misses map key h n)
    (hslot : map.slots ((h + n) % map.capacity) = some slot) (hne : slot.keyData ≠ key) : Misses map key h (n + 1) := by
  intro i hi
  by_cases heq : i = n
  · subst heq
    exact ⟨slot, hslot, hne⟩
  · exact hm i (by omega)

inductive ProbeEnd (map : OpenAddrMap) (key : List UInt8) (h limit : Nat) : Probe → Prop
  | hit {d slot} (hd : d < limit) (hslot : map.slots ((h + d) % map.capacity) = some slot) (hkey : slot.keyData = key)
      (hm : Misses map key h d) : ProbeEnd map key h limit (.hit ((h + d) % map.capacity))
  | empty {d} (hd : d < limit) (hslot : map.slots ((h + d) % map.capacity) = none) (hm : Misses map key h d) :
      ProbeEnd map key h limit (.empty ((h + d) % map.capacity))
  | exhausted {index} (hm : Misses map key h limit) : ProbeEnd map key h limit (.exhausted index)

theorem spanProbe_spec (key : List UInt8) (hcap : map.capacity = 2 ^ k) : (left d : Nat) → Misses map key h d →
    ProbeEnd map key h (d + left) (spanProbe map key left ((h + d) % map.capacity))
  | 0, d, hm => .exhausted hm
  | left + 1, d, hm => by
    unfold spanProbe
    cases hslot : map.slots ((h + d) % map.capacity) with
    | none => exact .empty (by omega) hslot hm
    | some slot =>
      simp only
      by_cases hkey : slot.keyData = key
      · rw [if_pos hkey]
        exact .hit (by omega) hslot hkey hm
      · rw [if_neg hkey, hcap, nextIndex_add, ← hcap, show d + (left + 1) = d + 1 + left by omega]
        exact spanProbe_spec key hcap left (d + 1) (hm.succ hslot hkey)

theorem insertProbe_eq (key : List UInt8) (hcap : map.capacity = 2 ^ k) (hh : h < 2 ^ k) : (fuel d : Nat) → d + fuel = 2 ^ k →
    insertProbe map key h fuel ((h + d) % map.capacity) = spanProbe map key fuel ((h + d) % map.capacity)
  | 0, d, _ => rfl
  | fuel + 1, d, hsum => by
    unfold insertProbe spanProbe
    cases hslot : map.slots ((h + d) % map.capacity) with
    | none => rfl
    | some slot =>
      simp only
      by_cases hkey : slot.keyData = key
      · rw [if_pos hkey, if_pos hkey]
      · rw [if_neg hkey, if_neg hkey, hcap, nextIndex_add]
        by_cases hlast : fuel = 0
        · subst hlast
          have hback : (h + (d + 1)) % 2 ^ k = h := by
            rw [show h + (d + 1) = h + 2 ^ k by omega, Nat.add_mod_right, Nat.mod_eq_of_lt hh]
          simp [hback, spanProbe]
        · have hne : (h + (d + 1)) % 2 ^ k ≠ h := by
            intro hback
            have h0 : (h + (d + 1)) % 2 ^ k = (h + 0) % 2 ^ k := by rw [hback, Nat.add_zero, Nat.mod_eq_of_lt hh]
            have := probe_inj (by omega) (by omega) h0
            omega
          rw [if_pos hne]
          have hrec := insertProbe_eq key hcap hh fuel (d + 1) (by omega)
          rwa [hcap] at hrec

theorem findStoredKeyLoop_spec (hcap : map.capacity = 2 ^ k) {d : Nat} {slot : OaSlot}
    (hslot : map.slots ((h + d) % map.capacity) = some slot) (hkey : slot.keyData = key) : (left i : Nat) → i ≤ d →
    d < i + left → ∃ index slot', findStoredKeyLoop map key left ((h + i) % map.capacity) = some index ∧
      index < map.capacity ∧ map.slots index = some slot' ∧ slot'.keyData = key
  | 0, i, hi, hlt => by omega
  | left + 1, i, hi, hlt => by
    unfold findStoredKeyLoop
    have hpos : 0 < map.capacity := hcap ▸ Nat.two_pow_pos k
    cases hcur : map.slots ((h + i) % map.capacity) with
    | none =>
      have hne : i ≠ d := by
        rintro rfl
        rw [hslot] at hcur
        cases hcur
      rw [if_neg (by simp), hcap, nextIndex_add, ← hcap]
      exact findStoredKeyLoop_spec hcap hslot hkey left (i + 1) (by omega) (by omega)
    | some slot' =>
      by_cases hkey' : slot'.keyData = key
      · rw [if_pos (by simp [hkey'])]
        exact ⟨_, slot', rfl, Nat.mod_lt _ hpos, hcur, hkey'⟩
      · have hne : i ≠ d := by
          rintro rfl
          rw [hslot] at hcur
          cases hcur
          exact hkey' hkey
        rw [if_neg (by simp [hkey']), hcap, nextIndex_add, ← hcap]
        exact findStoredKeyLoop_spec hcap hslot hkey left (i + 1) (by omega) (by omega)

end Key

/-!
# The table invariant and the rebuilds
-/

variable {p : OaParams} {k : Nat} {mode : HashMode} {map : OpenAddrMap}

def slotHome (p : OaParams) (mode : HashMode) (capacity : Nat) (slot : OaSlot) : Nat :=
  hashIndexFor (hashKeyData p mode slot.keyData) capacity

def SlotOk (p : OaParams) (slot : OaSlot) : Prop :=
  (∃ key : List UInt8, key.length = p.keySize ∧ slot.keyData = oaWidenKey key) ∧ slot.valData.length = 8

structure TableOk (p : OaParams) (map : OpenAddrMap) : Prop where
  capacity_pow : ∃ k, 4 ≤ k ∧ k ≤ 59 ∧ map.capacity = 2 ^ k
  span_ge : oaMinProbeSpan map.capacity ≤ map.probeSpan
  span_le : map.probeSpan ≤ map.capacity
  count : map.count = map.live.length
  nodup : (map.live.map OaSlot.keyData).Nodup
  reaches : Reaches map.capacity (slotHome p map.hashMode map.capacity) map.slots map.probeSpan
  slots_ok : ∀ slot ∈ map.live, SlotOk p slot

def FastOk (p : OaParams) (map : OpenAddrMap) : Prop :=
  map.hashMode = .fast →
    Within map.capacity (slotHome p .fast map.capacity) map.slots (oaInsertCap map.capacity + 1)

theorem oaInsertCap_ge (hk : 4 ≤ k) : 96 ≤ oaInsertCap (2 ^ k) := by
  simp only [oaInsertCap, chmapLog2Pow2, Nat.log2_two_pow]
  split <;> omega

theorem oaInsertCap_le (capacity : Nat) : oaInsertCap capacity ≤ 288 := by
  simp only [oaInsertCap]
  split <;> omega

theorem slotHome_lt (p : OaParams) (mode : HashMode) (hk : 4 ≤ k) (hk' : k ≤ 59) (slot : OaSlot) :
    slotHome p mode (2 ^ k) slot < 2 ^ k :=
  hashIndexFor_lt (by omega) (by omega)

theorem two_pow_ge (hk : 4 ≤ k) : 16 ≤ 2 ^ k := Nat.pow_le_pow_right Nat.two_pos hk

/-! ## Filling a new table -/

structure Filled (p : OaParams) (mode : HashMode) (k : Nat) (live : List OaSlot) (slots : Nat → Option OaSlot)
    (largest : Nat) : Prop where
  perm : (entries (2 ^ k) slots).Perm live
  reaches : Reaches (2 ^ k) (slotHome p mode (2 ^ k)) slots (largest + 1)
  largest_lt : largest < 2 ^ k

theorem Filled.nil : Filled p mode k [] (fun _ => none) 0 where
  perm := by rw [entries_none]
  reaches := reaches_none
  largest_lt := Nat.two_pow_pos k

theorem Filled.place {k d largest : Nat} {live : List OaSlot} {slots : Nat → Option OaSlot}
    (hf : Filled p mode k live slots largest) (slot : OaSlot)
    (hempty : slots ((slotHome p mode (2 ^ k) slot + d) % 2 ^ k) = none)
    (hpath : ∀ i < d, slots ((slotHome p mode (2 ^ k) slot + i) % 2 ^ k) ≠ none) :
    Filled p mode k (slot :: live) (Function.update slots ((slotHome p mode (2 ^ k) slot + d) % 2 ^ k) (some slot))
      (if d > largest then d else largest) where
  perm := (entries_fill slot (Nat.mod_lt _ (Nat.two_pow_pos k)) hempty).trans (hf.perm.cons slot)
  reaches := by
    refine Reaches.fill (hf.reaches.mono ?_) hpath ?_
    · split <;> omega
    · split <;> omega
  largest_lt := by
    have hd := first_empty_lt hempty hpath
    have hl := hf.largest_lt
    split <;> omega

theorem oaPlaceOne_spec {k largest : Nat} {live : List OaSlot} {slots : Nat → Option OaSlot}
    (hk : 4 ≤ k) (hk' : k ≤ 59) (hf : Filled p mode k live slots largest) (hroom : live.length < 2 ^ k) (slot : OaSlot) :
    ∃ slots' largest', oaPlaceOne p mode (2 ^ k) (slots, largest) slot = some (slots', largest') ∧
      Filled p mode k (slot :: live) slots' largest' := by
  have hh := slotHome_lt p mode hk hk' slot
  obtain ⟨d, hd, hempty, hpath⟩ := exists_first_empty (slotHome p mode (2 ^ k) slot) (hf.perm.length_eq ▸ hroom)
  refine ⟨_, _, ?_, hf.place slot hempty hpath⟩
  have hprobe := fillProbe_spec hempty hpath (2 ^ k) 0 (by omega) (by omega)
  rw [Nat.add_zero, Nat.mod_eq_of_lt hh] at hprobe
  have hprobe' : fillProbe slots (2 ^ k) (2 ^ k) (hashIndexFor (hashKeyData p mode slot.keyData) (2 ^ k)) = _ := hprobe
  simp only [oaPlaceOne, hprobe', bind_eq_bind, bind_some]
  rw [show hashIndexFor (hashKeyData p mode slot.keyData) (2 ^ k) = slotHome p mode (2 ^ k) slot from rfl,
    maskedSub_eq (by omega) hh hd]

theorem foldlM_oaPlaceOne_spec (hk : 4 ≤ k) (hk' : k ≤ 59) :
    (todo : List OaSlot) → {placed : List OaSlot} → {slots : Nat → Option OaSlot} → {largest : Nat} →
    Filled p mode k placed slots largest → todo.length + placed.length ≤ 2 ^ k →
    ∃ slots' largest', todo.foldlM (oaPlaceOne p mode (2 ^ k)) (slots, largest) = some (slots', largest') ∧
      Filled p mode k (todo.reverse ++ placed) slots' largest'
  | [], _, slots, largest, hf, _ => ⟨slots, largest, rfl, hf⟩
  | slot :: todo, placed, slots, largest, hf, hlen => by
    simp only [length_cons] at hlen
    obtain ⟨slots₁, largest₁, hone, hf₁⟩ := oaPlaceOne_spec hk hk' hf (by omega) slot
    obtain ⟨slots₂, largest₂, hall, hf₂⟩ := foldlM_oaPlaceOne_spec hk hk' todo hf₁ (by simp only [length_cons]; omega)
    refine ⟨slots₂, largest₂, ?_, ?_⟩
    · rw [foldlM_cons, hone]
      exact hall
    · rwa [reverse_cons, append_assoc]

theorem oaPlaceAll_spec (mode : HashMode) (hk : 4 ≤ k) (hk' : k ≤ 59) {live : List OaSlot}
    (hroom : live.length ≤ 2 ^ k) :
    ∃ slots largest, oaPlaceAll p mode (2 ^ k) live = some (slots, largest) ∧ Filled p mode k live slots largest := by
  obtain ⟨slots, largest, hall, hf⟩ := foldlM_oaPlaceOne_spec hk hk' live (Filled.nil : Filled p mode k [] _ 0)
    (by simpa using hroom)
  rw [append_nil] at hf
  exact ⟨slots, largest, hall, hf.perm.trans (reverse_perm live), hf.reaches, hf.largest_lt⟩

theorem attemptLoop_spec (cap budget : Nat) (hk : 4 ≤ k) (hk' : k ≤ 59) : (todo : List OaSlot) → {placed : List OaSlot} →
    {slots : Nat → Option OaSlot} → {largest : Nat} → (sum work : Nat) → Filled p .fast k placed slots largest →
    largest ≤ cap →
    (attemptLoop p (2 ^ k) cap budget todo slots largest sum work).1.2 = sizeMax ∨
    (Filled p .fast k (todo.reverse ++ placed) (attemptLoop p (2 ^ k) cap budget todo slots largest sum work).1.1
        (attemptLoop p (2 ^ k) cap budget todo slots largest sum work).1.2 ∧
      (attemptLoop p (2 ^ k) cap budget todo slots largest sum work).1.2 ≤ cap)
  | [], _, _, _, _, _, hf, hle => .inr ⟨hf, hle⟩
  | slot :: todo, placed, slots, largest, sum, work, hf, hle => by
    have hh := slotHome_lt p .fast hk hk' slot
    unfold attemptLoop
    dsimp only
    obtain ⟨found, work', hprobe⟩ : ∃ found work', attemptProbe slots (2 ^ k) cap
        (hashIndexFor (hashKeyData p .fast slot.keyData) (2 ^ k)) 0 work = (found, work') := ⟨_, _, rfl⟩
    rw [hprobe]
    cases found with
    | none => exact .inl rfl
    | some found =>
      obtain ⟨index, d⟩ := found
      have hprobe' :
          (attemptProbe slots (2 ^ k) cap ((slotHome p .fast (2 ^ k) slot + 0) % 2 ^ k) 0 work).1 = some (index, d) := by
        rw [Nat.add_zero, Nat.mod_eq_of_lt hh]
        exact congrArg Prod.fst hprobe
      obtain ⟨hd, hindex, hempty, hpath⟩ := attemptProbe_spec cap 0 (fun i hi => by omega) hprobe'
      subst hindex
      dsimp only
      split
      · exact .inl rfl
      · have hrec := attemptLoop_spec cap budget hk hk' todo (sum + d) work' (hf.place slot hempty hpath) (by split <;> omega)
        rwa [reverse_cons, append_assoc]

theorem oaPlaceAllFastAttempt_spec (hk : 4 ≤ k) (hk' : k ≤ 59) (map : OpenAddrMap) :
    (oaPlaceAllFastAttempt p map (2 ^ k)).2 = sizeMax ∨
    (Filled p .fast k map.live (oaPlaceAllFastAttempt p map (2 ^ k)).1 (oaPlaceAllFastAttempt p map (2 ^ k)).2 ∧
      (oaPlaceAllFastAttempt p map (2 ^ k)).2 ≤ oaInsertCap (2 ^ k)) := by
  rcases attemptLoop_spec (p := p) (oaInsertCap (2 ^ k)) (map.count + 64) hk hk' map.live 0 0 Filled.nil
    (Nat.zero_le _) with h | ⟨hf, hle⟩
  · exact .inl h
  · rw [append_nil] at hf
    exact .inr ⟨⟨hf.perm.trans (reverse_perm _), hf.reaches, hf.largest_lt⟩, hle⟩

/-! ## The rebuild -/

theorem oaAllocBlock_spec (map : OpenAddrMap) (capacity : Nat) :
    ∃ n ok, oaAllocBlock p map capacity = ({ map with allocs := n }, ok) ∧
      (ok = true → capacity ≤ sizeMax / 17) ∧
      ((∀ i, p.fate i = true) → 0 < capacity → capacity ≤ sizeMax / 17 → ok = true) := by
  unfold oaAllocBlock
  by_cases hbad : capacity = 0 ∨ capacity > sizeMax / 17
  · rw [if_pos hbad]
    exact ⟨map.allocs, false, rfl, fun h => (Bool.false_ne_true h).elim, fun _ _ _ => by omega⟩
  · rw [if_neg hbad]
    exact ⟨map.allocs + 1, p.fate map.allocs, rfl, fun _ => by omega, fun h _ _ => h _⟩

/-- The maps agree on everything but their tables' layout, their windows and the allocations made. -/
structure SameEntries (map map' : OpenAddrMap) : Prop where
  perm : map'.live.Perm map.live
  count : map'.count = map.count

theorem oaMinProbeSpan_le {capacity : Nat} : oaMinProbeSpan capacity ≤ capacity := by
  unfold oaMinProbeSpan oaDeepInsert
  split <;> omega

theorem Filled.tableOk {k largest : Nat} {slots : Nat → Option OaSlot}
    (hk : 4 ≤ k) (hk' : k ≤ 59) (hm : TableOk p map) (hf : Filled p mode k map.live slots largest) :
    TableOk p (oaWindowRestart { map with
      slots := slots, capacity := 2 ^ k,
      probeSpan := if largest + 1 > oaMinProbeSpan (2 ^ k) then largest + 1 else oaMinProbeSpan (2 ^ k), hashMode := mode }) where
  capacity_pow := ⟨k, hk, hk', rfl⟩
  span_ge := by
    simp only [oaWindowRestart]
    split <;> omega
  span_le := by
    have hl := hf.largest_lt
    have hmin : oaMinProbeSpan (2 ^ k) ≤ 2 ^ k := oaMinProbeSpan_le
    simp only [oaWindowRestart]
    split <;> omega
  count := hm.count.trans hf.perm.length_eq.symm
  nodup := ((hf.perm.map _).nodup_iff).mpr hm.nodup
  reaches := by
    refine hf.reaches.mono ?_
    simp only [oaWindowRestart]
    split <;> omega
  slots_ok := fun slot hs => hm.slots_ok slot (hf.perm.mem_iff.mp hs)

structure Rebuilt (p : OaParams) (map map' : OpenAddrMap) (mode : HashMode) (k : Nat) (ret : RetVal) : Prop where
  table : TableOk p map'
  same : SameEntries map map'
  failed : ret ≠ .success → ret = .notEnoughMemory ∧ map' = { map with allocs := map'.allocs }
  capacity : ret = .success → map'.capacity = 2 ^ k
  fast : ret = .success → FastOk p map'
  keyed : ret = .success → mode = .keyed → map'.hashMode = .keyed
  never_fails : (∀ i, p.fate i = true) → 2 ^ k ≤ sizeMax / 17 → ret = .success

theorem TableOk.setAllocs (hm : TableOk p map) (n : Nat) : TableOk p { map with allocs := n } :=
  ⟨hm.capacity_pow, hm.span_ge, hm.span_le, hm.count, hm.nodup, hm.reaches, hm.slots_ok⟩

theorem pow_le_of_alloc (h : 2 ^ k ≤ sizeMax / 17) : k ≤ 59 := by
  by_contra hk
  have hpow : 2 ^ 60 ≤ 2 ^ k := Nat.pow_le_pow_right Nat.two_pos (by omega)
  rw [sizeMax_eq] at h
  omega

theorem pow_le_alloc (h : k ≤ 59) : 2 ^ k ≤ sizeMax / 17 := by
  have hpow : 2 ^ k ≤ 2 ^ 59 := Nat.pow_le_pow_right Nat.two_pos h
  rw [sizeMax_eq]
  omega

theorem Filled.rebuilt {mode mode' : HashMode} {k largest : Nat} {slots : Nat → Option OaSlot}
    (hk : 4 ≤ k) (hk' : k ≤ 59) (hm : TableOk p map) (hf : Filled p mode' k map.live slots largest)
    (hcap : mode' = .fast → largest ≤ oaInsertCap (2 ^ k)) (hmode : mode = .keyed → mode' = .keyed) :
    Rebuilt p map (oaWindowRestart { map with
      slots := slots, capacity := 2 ^ k,
      probeSpan := if largest + 1 > oaMinProbeSpan (2 ^ k) then largest + 1 else oaMinProbeSpan (2 ^ k),
      hashMode := mode' }) mode k .success where
  table := hf.tableOk hk hk' hm
  same := ⟨hf.perm, rfl⟩
  failed := fun h => (h rfl).elim
  capacity := fun _ => rfl
  fast := by
    intro _ hfast
    obtain rfl : mode' = .fast := hfast
    exact (hf.reaches.mono (Nat.succ_le_succ (hcap rfl))).within
  keyed := fun _ h => hmode h
  never_fails := fun _ _ => rfl

theorem Rebuilt.of_setAllocs {map map' : OpenAddrMap} {n : Nat} {ret : RetVal}
    (h : Rebuilt p { map with allocs := n } map' mode k ret) : Rebuilt p map map' mode k ret :=
  ⟨h.table, ⟨h.same.perm, h.same.count⟩, h.failed, h.capacity, h.fast, h.keyed, h.never_fails⟩

theorem oaRebuild_spec (mode : HashMode) (hm : TableOk p map) (hk : 4 ≤ k)
    (hroom : map.live.length ≤ 2 ^ k) :
    ∃ map' ret, oaRebuild p map (2 ^ k) mode = some (map', ret) ∧ Rebuilt p map map' mode k ret := by
  unfold oaRebuild
  obtain ⟨n, ok, halloc, hle, hok⟩ := oaAllocBlock_spec (p := p) map (2 ^ k)
  rw [halloc]
  cases ok with
  | false =>
    refine ⟨_, _, rfl, hm.setAllocs n, ⟨.refl _, rfl⟩, fun _ => ⟨rfl, rfl⟩, nofun, nofun, nofun, fun hf h => ?_⟩
    exact (Bool.false_ne_true (hok hf (Nat.two_pow_pos k) h)).elim
  | true =>
    have hk' := pow_le_of_alloc (hle rfl)
    have hm' := hm.setAllocs n
    obtain ⟨kslots, klargest, hkeyed, hkf⟩ := oaPlaceAll_spec (p := p) .keyed hk hk' hroom
    have hkeyed' : oaPlaceAll p .keyed (2 ^ k) ({ map with allocs := n } : OpenAddrMap).live = some (kslots, klargest) := hkeyed
    dsimp only
    by_cases hattempt : mode = .fast ∧ map.hashMode = .keyed
    · rw [if_pos hattempt]
      obtain ⟨rfl, -⟩ := hattempt
      rcases oaPlaceAllFastAttempt_spec (p := p) hk hk' { map with allocs := n } with hgave | ⟨hf, hcap⟩
      · -- The attempt was given up and the same block is filled with the keyed hash.
        have hover : HashMode.fast = .fast ∧ (oaPlaceAllFastAttempt p { map with allocs := n } (2 ^ k)).2 > oaInsertCap (2 ^ k) := by
          have := oaInsertCap_le (2 ^ k)
          rw [hgave, sizeMax_eq]
          exact ⟨rfl, by omega⟩
        rw [bind_eq_bind, bind_some, if_pos hover, hkeyed']
        exact ⟨_, _, rfl, (hkf.rebuilt hk hk' hm' nofun (fun _ => rfl)).of_setAllocs⟩
      · have hunder : ¬(HashMode.fast = .fast ∧ (oaPlaceAllFastAttempt p { map with allocs := n } (2 ^ k)).2 > oaInsertCap (2 ^ k)) := by
          omega
        rw [bind_eq_bind, bind_some, if_neg hunder]
        exact ⟨_, _, rfl, (hf.rebuilt hk hk' hm' (fun _ => hcap) id).of_setAllocs⟩
    · rw [if_neg hattempt]
      obtain ⟨slots, largest, hall, hf⟩ := oaPlaceAll_spec (p := p) mode hk hk' hroom
      have hall' : oaPlaceAll p mode (2 ^ k) ({ map with allocs := n } : OpenAddrMap).live = some (slots, largest) := hall
      simp only [hall', bind_eq_bind, bind_some]
      by_cases hover : mode = .fast ∧ largest > oaInsertCap (2 ^ k)
      · simp only [if_pos hover, hkeyed', bind_some]
        exact ⟨_, _, rfl, (hkf.rebuilt hk hk' hm' nofun (fun _ => rfl)).of_setAllocs⟩
      · simp only [if_neg hover]
        exact ⟨_, _, rfl, (hf.rebuilt hk hk' hm' (fun h => by simp only [h, true_and] at hover; omega) id).of_setAllocs⟩

end Ccollections.Chashmap
