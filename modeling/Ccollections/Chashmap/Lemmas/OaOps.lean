import Ccollections.Chashmap.Lemmas.OaTable

/-!
# The operations of an open-addressing table
-/

namespace Ccollections.Chashmap
open Lib Function List Option

variable {p : OaParams} {map : OpenAddrMap} {key val : List UInt8} {index home d : Nat}

theorem OaParams.sizes (p : OaParams) : 0 < p.keySize ∧ p.keySize ≤ 8 ∧ 0 < p.valSize ∧ p.valSize ≤ 8 ∧
    fixedWidthDataTypeSize p.keyType = p.keySize ∧ fixedWidthDataTypeSize p.valType = p.valSize := by
  have hoa := p.openAddressing
  unfold OaParams.keySize OaParams.valSize
  simp only [shouldUseOpenAddressing, Bool.and_eq_true, decide_eq_true_eq] at hoa
  obtain ⟨⟨⟨hk, hv⟩, hks⟩, hvs⟩ := hoa
  have hfixed : ∀ t, isTypeIntegral t = true → 0 < getTypeSize t ∧ fixedWidthDataTypeSize t = getTypeSize t := by
    intro t ht
    cases t <;> simp_all [isTypeIntegral, getTypeSize, fixedWidthDataTypeSize]
  exact ⟨(hfixed _ hk).1, hks, (hfixed _ hv).1, hvs, (hfixed _ hk).2, (hfixed _ hv).2⟩

theorem oaWidenKey_take {bytes : List UInt8} (h : bytes.length ≤ 8) : (oaWidenKey bytes).take bytes.length = bytes := by
  rw [oaWidenKey, take_of_length_le h, take_left]

theorem oaWidenKey_length {bytes : List UInt8} (h : bytes.length ≤ 8) : (oaWidenKey bytes).length = 8 := by
  simp only [oaWidenKey, length_append, length_take, length_replicate]
  omega

theorem hashKeyData_widen (h : key.length = p.keySize) (mode : HashMode) :
    hashKeyData p mode (oaWidenKey key) = hashKeyData p mode key := by
  have hle := p.sizes.2.1
  rw [hashKeyData, hashKeyData, ← h, oaWidenKey_take (h ▸ hle), take_length]

/-! ## The header fields no invariant reads -/

theorem TableOk.setWindow (hm : TableOk p map) (w b : Nat) (log : List WindowEvent) :
    TableOk p { map with insertWindow := w, windowBound := b, windowLog := log } :=
  ⟨hm.capacity_pow, hm.span_ge, hm.span_le, hm.count, hm.nodup, hm.reaches, hm.slots_ok⟩

/-! ## Probing for a key -/

def Absent (map : OpenAddrMap) (probeKey : List UInt8) : Prop := ∀ slot ∈ map.live, slot.keyData ≠ probeKey

theorem TableOk.reached (hm : TableOk p map) {slot : OaSlot} (hs : slot ∈ map.live) :
    ∃ d < map.probeSpan, map.slots ((slotHome p map.hashMode map.capacity slot + d) % map.capacity) = some slot ∧
      ∀ i < d, map.slots ((slotHome p map.hashMode map.capacity slot + i) % map.capacity) ≠ none := by
  obtain ⟨j, hj, hslot⟩ := mem_entries.mp hs
  obtain ⟨d, hd, -, hat, hpath⟩ := hm.reaches j slot hj hslot
  exact ⟨d, hd, hat, hpath⟩

theorem ProbeEnd.absent (hm : TableOk p map) (hkey : key.length = p.keySize) {limit : Nat} {r : Probe}
    (hend : ProbeEnd map (oaWidenKey key) (hashIndexFor (hashKeyData p map.hashMode key) map.capacity) limit r)
    (hlimit : map.probeSpan ≤ limit) (hr : ∀ index, r ≠ .hit index) : Absent map (oaWidenKey key) := by
  intro slot hs hslot
  obtain ⟨d, hd, hat, hpath⟩ := hm.reached hs
  rw [slotHome, hslot, hashKeyData_widen hkey] at hat hpath
  cases hend with
  | hit => exact hr _ rfl
  | empty hd' hnone hmiss =>
    rename_i d'
    rcases Nat.lt_trichotomy d d' with hlt | rfl | hgt
    · obtain ⟨slot', hslot', hne⟩ := hmiss d hlt
      rw [hat] at hslot'
      cases hslot'
      exact hne hslot
    · rw [hat] at hnone
      cases hnone
    · exact hpath d' hgt hnone
  | exhausted hmiss =>
    obtain ⟨slot', hslot', hne⟩ := hmiss d (by omega)
    rw [hat] at hslot'
    cases hslot'
    exact hne hslot

theorem TableOk.spanProbe (hm : TableOk p map) (key : List UInt8) {h : Nat} (hh : h < map.capacity) (left : Nat) :
    ProbeEnd map key h left (Chashmap.spanProbe map key left h) := by
  obtain ⟨k, -, -, hcap⟩ := hm.capacity_pow
  have hend := spanProbe_spec (h := h) key hcap left 0 (fun i hi => by omega)
  rwa [Nat.zero_add, Nat.add_zero, Nat.mod_eq_of_lt hh] at hend

theorem TableOk.insertProbe (hm : TableOk p map) (key : List UInt8) {h : Nat} (hh : h < map.capacity) :
    ProbeEnd map key h map.capacity (Chashmap.insertProbe map key h map.capacity h) := by
  obtain ⟨k, -, -, hcap⟩ := hm.capacity_pow
  have heq := insertProbe_eq key hcap (hcap ▸ hh) (2 ^ k) 0 (by omega)
  rw [Nat.add_zero, Nat.mod_eq_of_lt hh, ← hcap] at heq
  rw [heq]
  exact hm.spanProbe key hh _

theorem TableOk.hash_lt (hm : TableOk p map) (hashVal : UInt64) : hashIndexFor hashVal map.capacity < map.capacity := by
  obtain ⟨k, hk, hk', hcap⟩ := hm.capacity_pow
  rw [hcap]
  exact hashIndexFor_lt (by omega) (by omega)

theorem TableOk.capacity_pos (hm : TableOk p map) : 0 < map.capacity := by
  obtain ⟨k, -, -, hcap⟩ := hm.capacity_pow
  rw [hcap]
  exact Nat.two_pow_pos k

theorem TableOk.span_pos (hm : TableOk p map) : 0 < map.probeSpan := by
  obtain ⟨k, hk, -, hcap⟩ := hm.capacity_pow
  have hge := hm.span_ge
  have h16 := two_pow_ge hk
  rw [← hcap] at h16
  unfold oaMinProbeSpan oaDeepInsert at hge
  split at hge <;> omega

/-! ## Switching the mode -/

structure Moved (p : OaParams) (map map' : OpenAddrMap) (slot : OaSlot) (index : Nat) : Prop where
  table : TableOk p map'
  same : SameEntries map map'
  lt : index < map'.capacity
  at_index : map'.slots index = some slot

theorem oaFindStoredKey_spec (hm : TableOk p map) {slot : OaSlot} (hs : slot ∈ map.live) :
    ∃ index, oaFindStoredKey p map slot.keyData = some index ∧ index < map.capacity ∧ map.slots index = some slot := by
  obtain ⟨k, hk, hk', hcap⟩ := hm.capacity_pow
  obtain ⟨d, hd, hat, -⟩ := hm.reached hs
  obtain ⟨index, slot', hfind, hlt, hslot', hkey⟩ :=
    findStoredKeyLoop_spec hcap hat rfl map.probeSpan 0 (by omega) (by omega)
  have hh := slotHome_lt p map.hashMode hk hk' slot
  rw [← hcap] at hh
  rw [Nat.add_zero, Nat.mod_eq_of_lt hh] at hfind
  have heq : slot' = slot :=
    inj_on_of_nodup_map hm.nodup (mem_entries.mpr ⟨index, hlt, hslot'⟩) hs hkey
  exact ⟨index, hfind, hlt, heq ▸ hslot'⟩

theorem oaSwitchKeeping_spec (hm : TableOk p map) {slot : OaSlot} {index : Nat} (hlt : index < map.capacity)
    (hslot : map.slots index = some slot) :
    ∃ map' index', oaSwitchKeeping p map index = some (map', index') ∧ Moved p map map' slot index' ∧
      ((∀ i, p.fate i = true) → FastOk p map') := by
  obtain ⟨k, hk, hk', hcap⟩ := hm.capacity_pow
  have hroom : map.live.length ≤ 2 ^ k := hcap ▸ entries_length_le map.capacity map.slots
  obtain ⟨map', ret, hrebuild, hr⟩ := oaRebuild_spec .keyed hm hk hroom
  rw [← hcap] at hrebuild
  simp only [oaSwitchKeeping, hslot, hrebuild, bind_eq_bind, bind_some]
  by_cases hret : ret = .success
  · have hmem : slot ∈ map'.live := hr.same.perm.mem_iff.mpr (mem_entries.mpr ⟨index, hlt, hslot⟩)
    obtain ⟨index', hfind, hlt', hslot'⟩ := oaFindStoredKey_spec hr.table hmem
    rw [if_neg (by simp [hret])]
    simp only [hfind, bind_some]
    exact ⟨map', index', rfl, ⟨hr.table, hr.same, hlt', hslot'⟩, fun _ => hr.fast hret⟩
  · obtain ⟨-, hmap⟩ := hr.failed hret
    rw [if_pos hret]
    refine ⟨map', index, rfl, ⟨hr.table, hr.same, ?_, ?_⟩, fun hfate => ?_⟩
    · rw [hmap]; exact hlt
    · rw [hmap]; exact hslot
    · exact (hret (hr.never_fails hfate (pow_le_alloc hk'))).elim

theorem oaWindowEnd_spec (hm : TableOk p map) {slot : OaSlot} {index : Nat} (hlt : index < map.capacity)
    (hslot : map.slots index = some slot) :
    ∃ map' index', oaWindowEnd p map index = some (map', index') ∧ Moved p map map' slot index' ∧
      ((∀ i, p.fate i = true) → FastOk p map → FastOk p map') := by
  unfold oaWindowEnd
  dsimp only
  have hm' : TableOk p (oaWindowRestart map) := hm.setWindow _ _ _
  split
  · obtain ⟨map', index', hs, hmoved, hfast⟩ := oaSwitchKeeping_spec hm' hlt hslot
    exact ⟨map', index', hs, ⟨hmoved.table, ⟨hmoved.same.perm, hmoved.same.count⟩, hmoved.lt, hmoved.at_index⟩,
      fun hfate _ => hfast hfate⟩
  · exact ⟨_, index, rfl, ⟨hm', ⟨.refl _, rfl⟩, hlt, hslot⟩, fun _ hf => hf⟩

/-! ## Writing a new entry -/

structure FreeSlot (p : OaParams) (map : OpenAddrMap) (key : List UInt8) (index home d : Nat) : Prop where
  home_eq : home = hashIndexFor (hashKeyData p map.hashMode key) map.capacity
  index_eq : index = (home + d) % map.capacity
  empty : map.slots index = none
  path : ∀ i < d, map.slots ((home + i) % map.capacity) ≠ none

theorem FreeSlot.lt (hm : TableOk p map) (hf : FreeSlot p map key index home d) :
    d < map.capacity := by
  obtain ⟨k, -, -, hcap⟩ := hm.capacity_pow
  have hempty := hf.empty
  have hpath := hf.path
  rw [hf.index_eq, hcap] at hempty
  rw [hcap] at hpath ⊢
  exact first_empty_lt hempty hpath

def newSlot (key val : List UInt8) : OaSlot := { keyData := oaWidenKey key, valData := oaWidenKey val }

theorem TableOk.placed (hm : TableOk p map) (hkey : key.length = p.keySize)
    (hval : val.length = p.valSize) (hf : FreeSlot p map key index home d) (habsent : Absent map (oaWidenKey key)) :
    TableOk p { map with
      slots := update map.slots index (some (newSlot key val)), count := map.count + 1,
      probeSpan := if d ≥ map.probeSpan then d + 1 else map.probeSpan } := by
  have hd := hf.lt hm
  have hsizes := p.sizes
  have hhome : slotHome p map.hashMode map.capacity (newSlot key val) = home := by
    rw [slotHome, newSlot, hashKeyData_widen hkey, hf.home_eq]
  have hindex : (slotHome p map.hashMode map.capacity (newSlot key val) + d) % map.capacity = index := by
    rw [hhome, hf.index_eq]
  have hlt : index < map.capacity := by
    rw [hf.index_eq]
    exact Nat.mod_lt _ hm.capacity_pos
  have hperm := entries_fill (newSlot key val) hlt hf.empty
  have hge := hm.span_ge
  have hle := hm.span_le
  refine ⟨hm.capacity_pow, ?_, ?_, ?_, ?_, ?_, ?_⟩
  · show oaMinProbeSpan map.capacity ≤ if d ≥ map.probeSpan then d + 1 else map.probeSpan
    split <;> omega
  · show (if d ≥ map.probeSpan then d + 1 else map.probeSpan) ≤ map.capacity
    split <;> omega
  · show map.count + 1 = _
    rw [hm.count]
    exact hperm.length_eq.symm
  · refine ((hperm.map OaSlot.keyData).nodup_iff).mpr (nodup_cons.mpr ⟨?_, hm.nodup⟩)
    intro hmem
    obtain ⟨slot, hs, heq⟩ := mem_map.mp hmem
    exact habsent slot hs heq
  · show Reaches map.capacity (slotHome p map.hashMode map.capacity) (update map.slots index (some (newSlot key val)))
      (if d ≥ map.probeSpan then d + 1 else map.probeSpan)
    rw [← hindex]
    refine Reaches.fill (hm.reaches.mono ?_) ?_ ?_
    · split <;> omega
    · rw [hhome]
      exact hf.path
    · split <;> omega
  · intro slot hs
    rcases mem_cons.mp (hperm.mem_iff.mp hs) with rfl | hs
    · exact ⟨⟨key, hkey, rfl⟩, oaWidenKey_length (by omega)⟩
    · exact hm.slots_ok slot hs

structure Inserted (p : OaParams) (map map' : OpenAddrMap) (slot : OaSlot) (index : Nat) : Prop where
  table : TableOk p map'
  perm : map'.live.Perm (slot :: map.live)
  at_index : map'.slots index = some slot
  fast : (∀ i, p.fate i = true) → FastOk p map → FastOk p map'

theorem Inserted.moved {map map₁ map₂ : OpenAddrMap} {slot : OaSlot} {i j : Nat} (hi : Inserted p map map₁ slot i)
    (hmv : Moved p map₁ map₂ slot j) (hfast : (∀ i, p.fate i = true) → FastOk p map₁ → FastOk p map₂) :
    Inserted p map map₂ slot j :=
  ⟨hmv.table, hmv.same.perm.trans hi.perm, hmv.at_index, fun hfate hf => hfast hfate (hi.fast hfate hf)⟩

/-- The deep-insert path. A displacement below 32 needs neither of its checks. -/
theorem noteDeepInsert_spec (hm : TableOk p map) (hkey : key.length = p.keySize)
    (hval : val.length = p.valSize) (hf : FreeSlot p map key index home d) (habsent : Absent map (oaWidenKey key)) :
    ∃ map' index',
      (if d ≥ oaDeepInsert then
        oaNoteDeepInsert p { map with
          slots := update map.slots index (some (newSlot key val)), count := map.count + 1 } index d
      else some ({ map with
          slots := update map.slots index (some (newSlot key val)), count := map.count + 1 }, index)) =
        some (map', index') ∧
      Inserted p map map' (newSlot key val) index' ∧ index' < map'.capacity := by
  have hplaced := hm.placed hkey hval hf habsent
  have hlt : index < map.capacity := by
    rw [hf.index_eq]
    exact Nat.mod_lt _ hm.capacity_pos
  have hperm := entries_fill (newSlot key val) hlt hf.empty
  have hd := hf.lt hm
  obtain ⟨k, hk, hk', hcap⟩ := hm.capacity_pow
  have h96 := oaInsertCap_ge hk
  have hhome : slotHome p map.hashMode map.capacity (newSlot key val) = home := by
    rw [slotHome, newSlot, hashKeyData_widen hkey, hf.home_eq]
  -- As long as the new entry is within the cap, a fast table stays one.
  have hkeepFast : d ≤ oaInsertCap map.capacity → FastOk p map → ∀ span, FastOk p { map with
      slots := update map.slots index (some (newSlot key val)), count := map.count + 1, probeSpan := span } := by
    intro hle hfast span hmode
    obtain hmode : map.hashMode = .fast := hmode
    have hw := hfast hmode
    show Within map.capacity _ (update map.slots index (some (newSlot key val))) _
    rw [hf.index_eq, ← hhome, hmode]
    exact hw.fill (by omega)
  by_cases hdeep : d ≥ oaDeepInsert
  · rw [if_pos hdeep]
    unfold oaNoteDeepInsert
    dsimp only
    have hwiden : (if d ≥ map.probeSpan then
          ({ map with
            slots := update map.slots index (some (newSlot key val)), count := map.count + 1,
            probeSpan := d + 1 } : OpenAddrMap)
        else { map with
          slots := update map.slots index (some (newSlot key val)), count := map.count + 1 }) =
        { map with
          slots := update map.slots index (some (newSlot key val)), count := map.count + 1,
          probeSpan := if d ≥ map.probeSpan then d + 1 else map.probeSpan } := by
      split <;> rfl
    rw [hwiden]
    by_cases hswitch : map.hashMode ≠ .keyed ∧ d > oaInsertCap map.capacity
    · rw [if_pos hswitch]
      obtain ⟨map', index', hs, hmoved, hfast⟩ := oaSwitchKeeping_spec hplaced hlt (update_self ..)
      exact ⟨map', index', hs, ⟨hmoved.table, hmoved.same.perm.trans hperm, hmoved.at_index, fun hfate _ => hfast hfate⟩,
        hmoved.lt⟩
    · rw [if_neg hswitch]
      refine ⟨_, _, rfl, ⟨hplaced, hperm, update_self .., fun _ hfast hmode => ?_⟩, hlt⟩
      obtain hmode : map.hashMode = .fast := hmode
      have hle : d ≤ oaInsertCap map.capacity := by
        by_contra hgt
        exact hswitch ⟨by rw [hmode]; decide, by omega⟩
      exact hkeepFast hle hfast _ hmode
  · rw [if_neg hdeep]
    have hge := hm.span_ge
    have hspan : ¬d ≥ map.probeSpan := by
      unfold oaMinProbeSpan at hge
      split at hge <;> omega
    simp only [hspan, ↓reduceIte] at hplaced
    refine ⟨_, _, rfl, ⟨hplaced, hperm, update_self .., fun _ hfast => ?_⟩, hlt⟩
    refine hkeepFast ?_ hfast _
    rw [hcap]
    unfold oaDeepInsert at hdeep
    omega

theorem oaWriteNew_spec (hm : TableOk p map) (hkey : key.length = p.keySize)
    (hval : val.length = p.valSize) (hf : FreeSlot p map key index home d) (habsent : Absent map (oaWidenKey key)) :
    ∃ map' index', oaWriteNew p map key val index home = some (map', index') ∧
      Inserted p map map' (newSlot key val) index' := by
  obtain ⟨map₁, index₁, hnote, hi, hlt⟩ := noteDeepInsert_spec hm hkey hval hf habsent
  have hdisp : maskedSub map.capacity index home = d := by
    obtain ⟨k, hk, hk', hcap⟩ := hm.capacity_pow
    have hd := hf.lt hm
    have hh := hm.hash_lt (hashKeyData p map.hashMode key)
    rw [← hf.home_eq] at hh
    rw [hf.index_eq]
    rw [hcap] at hd hh ⊢
    exact maskedSub_eq (by omega) hh hd
  unfold oaWriteNew
  dsimp only
  rw [hdisp]
  simp only [newSlot] at hnote
  rw [hnote]
  simp only [bind_eq_bind, bind_some]
  have hm₂ : TableOk p { map₁ with
      insertWindow := (chmapWindowAdd map₁.insertWindow d).1
      windowLog := map₁.windowLog ++ [.added map₁.hashMode d (chmapWindowAdd map₁.insertWindow d).1
        (chmapWindowAdd map₁.insertWindow d).2] } :=
    hi.table.setWindow _ map₁.windowBound _
  split
  · obtain ⟨map₂, index₂, hend, hmoved, hfast⟩ := oaWindowEnd_spec hm₂ hlt hi.at_index
    refine ⟨map₂, index₂, hend, hi.moved ⟨hmoved.table, ⟨hmoved.same.perm, hmoved.same.count⟩, hmoved.lt, hmoved.at_index⟩ ?_⟩
    exact hfast
  · exact ⟨_, _, rfl, hm₂, hi.perm, hi.at_index, hi.fast⟩

/-! ## Insert -/

/-- Why a map of `n` entries takes no new key: it holds all it may, or it fills its table, and a larger one is refused
or has more slots than `oa_alloc_block` takes. -/
inductive OaRefused (p : OaParams) (n : Nat) : RetVal → Prop
  | full (hmax : n = ccolMaxElemCount) : OaRefused p n .containerFull
  | noBlock (hfull : ∃ k, 4 ≤ k ∧ n = 2 ^ k) (hblock : (∃ i, p.fate i = false) ∨ sizeMax / 17 < oaRehashCapacityFor (n + 1)) :
      OaRefused p n .notEnoughMemory

inductive InsertOutcome (p : OaParams) (map : OpenAddrMap) (key val : List UInt8) (slotOut : Bool) :
    OpenAddrMap → OaAnswer → Prop
  | found {slot} (hs : slot ∈ map.live) (hkey : slot.keyData = oaWidenKey key) (hout : slotOut = true) :
      InsertOutcome p map key val slotOut map ⟨.keyAlreadyPresent, some (slot.valData.take p.valSize)⟩
  | overwritten {map' slot slot' rest} (hlive : map.live.Perm (slot :: rest)) (hkey : slot.keyData = oaWidenKey key)
      (hout : slotOut = false) (hlive' : map'.live.Perm (slot' :: rest)) (hkey' : slot'.keyData = slot.keyData)
      (hval : slot'.valData.take p.valSize = val) : InsertOutcome p map key val slotOut map' ⟨.keyAlreadyPresent, none⟩
  | inserted {map'} (habsent : Absent map (oaWidenKey key)) (hlive : map'.live.Perm (newSlot key val :: map.live)) :
      InsertOutcome p map key val slotOut map' ⟨.success, if slotOut then some val else none⟩
  | refused {map' ret} (habsent : Absent map (oaWidenKey key)) (hrefused : OaRefused p map.count ret)
      (hlive : map'.live.Perm map.live) : InsertOutcome p map key val slotOut map' ⟨ret, none⟩

structure Kept (p : OaParams) (map map' : OpenAddrMap) : Prop where
  table : TableOk p map'
  fast : (∀ i, p.fate i = true) → FastOk p map → FastOk p map'

theorem Kept.refl (hm : TableOk p map) : Kept p map map := ⟨hm, fun _ h => h⟩

theorem Kept.trans {map₁ map₂ : OpenAddrMap} (h₁ : Kept p map map₁) (h₂ : Kept p map₁ map₂) : Kept p map map₂ :=
  ⟨h₂.table, fun hfate hf => h₂.fast hfate (h₁.fast hfate hf)⟩

theorem Rebuilt.kept {map' : OpenAddrMap} {mode : HashMode} {k : Nat} {ret : RetVal} (h : Rebuilt p map map' mode k ret) :
    Kept p map map' := by
  refine ⟨h.table, fun _ hf => ?_⟩
  by_cases hret : ret = .success
  · exact h.fast hret
  · rw [(h.failed hret).2]
    exact hf

theorem Absent.of_perm {map' : OpenAddrMap} (h : Absent map key) (hp : map'.live.Perm map.live) :
    Absent map' key :=
  fun slot hs => h slot (hp.mem_iff.mp hs)

theorem oaFillValPair_newSlot {index : Nat} (hval : val.length = p.valSize)
    (hslot : map.slots index = some (newSlot key val)) : oaFillValPair p map index = some val := by
  have hle := p.sizes.2.2.2.1
  rw [oaFillValPair, hslot, map_some, newSlot, ← hval, oaWidenKey_take (by omega)]

theorem TableOk.overwrite (hm : TableOk p map) {slot : OaSlot} {index : Nat} {val : List UInt8}
    (hval : val.length = p.valSize) (hlt : index < map.capacity) (hslot : map.slots index = some slot) :
    Kept p map (oaOverwrite map index val) ∧ ∃ rest slot', map.live.Perm (slot :: rest) ∧
      (oaOverwrite map index val).live.Perm (slot' :: rest) ∧ slot'.keyData = slot.keyData ∧
      slot'.valData.take p.valSize = val := by
  have hsizes := p.sizes
  have hmem : slot ∈ map.live := mem_entries.mpr ⟨index, hlt, hslot⟩
  obtain ⟨hkeyok, hlen⟩ := hm.slots_ok slot hmem
  let slot' : OaSlot := { slot with valData := val ++ slot.valData.drop val.length }
  have hmap : oaOverwrite map index val = { map with slots := update map.slots index (some slot') } := by
    rw [oaOverwrite, hslot, map_some]
  have hclear := entries_clear hlt hslot
  have hfill := entries_fill slot' hlt (update_self index none map.slots)
  rw [update_idem] at hfill
  have hkeys : ((oaOverwrite map index val).live.map OaSlot.keyData).Perm (map.live.map OaSlot.keyData) := by
    rw [hmap]
    exact (hfill.map OaSlot.keyData).trans (hclear.map OaSlot.keyData).symm
  obtain ⟨d, hd, hpos, hat, hpath⟩ := hm.reaches index slot hlt hslot
  have hhome : ∀ mode, slotHome p mode map.capacity slot' = slotHome p mode map.capacity slot := fun _ => rfl
  refine ⟨⟨?_, ?_⟩, _, slot', hclear, by rw [hmap]; exact hfill, rfl, ?_⟩
  · refine ⟨by rw [hmap]; exact hm.capacity_pow, by rw [hmap]; exact hm.span_ge, by rw [hmap]; exact hm.span_le, ?_,
      (hkeys.nodup_iff).mpr hm.nodup, ?_, ?_⟩
    · have hlen := hkeys.length_eq
      rw [length_map, length_map] at hlen
      rw [hlen, ← hm.count, hmap]
    · rw [hmap]
      show Reaches map.capacity (slotHome p map.hashMode map.capacity) (update map.slots index (some slot')) _
      rw [← hpos, ← hhome]
      exact Reaches.fill hm.reaches hpath hd
    · intro u hu
      rw [hmap] at hu
      rcases mem_cons.mp (hfill.mem_iff.mp hu) with rfl | hu
      · refine ⟨hkeyok, ?_⟩
        show (val ++ slot.valData.drop val.length).length = 8
        rw [length_append, length_drop]
        omega
      · exact hm.slots_ok u (hclear.mem_iff.mpr (mem_cons_of_mem _ hu))
  · intro _ hfast hmode
    rw [hmap] at hmode ⊢
    obtain hmode : map.hashMode = .fast := hmode
    have hw := hfast hmode
    obtain ⟨d', hd', hpos'⟩ := hw index slot hlt hslot
    show Within map.capacity (slotHome p .fast map.capacity) (update map.slots index (some slot')) _
    rw [← hpos', ← hhome]
    exact hw.fill hd'
  · show (val ++ slot.valData.drop val.length).take p.valSize = val
    rw [← hval, take_left]

theorem oaRehashCapacityFor_spec (n : Nat) : ∃ k, 4 ≤ k ∧ oaRehashCapacityFor n = 2 ^ k ∧ (n ≤ 2 ^ 63 → n ≤ 2 ^ k) := by
  unfold oaRehashCapacityFor
  by_cases hbig : n > ccolMaxPowerOfTwoSizeT / 2
  · rw [if_pos hbig]
    exact ⟨63, by omega, rfl, id⟩
  · rw [if_neg hbig]
    have hmax : ccolMaxPowerOfTwoSizeT / 2 = 2 ^ 62 := by decide
    rw [hmax] at hbig
    obtain ⟨k, -, heq, hle, -⟩ := ccolFindNearestGtePowerOfTwo_spec (n := 2 * n) (by rw [ccolMaxElemCount_eq]; omega)
    dsimp only
    rw [heq]
    unfold minimumAllowedBucketArraySize
    by_cases hsmall : 2 ^ k < 16
    · rw [if_pos hsmall]
      exact ⟨4, by omega, rfl, fun _ => by omega⟩
    · rw [if_neg hsmall]
      refine ⟨k, ?_, rfl, fun _ => by omega⟩
      by_contra hk
      have := Nat.pow_lt_pow_right (a := 2) (by omega) (show k < 4 by omega)
      omega

theorem TableOk.count_le (hm : TableOk p map) : map.count ≤ map.capacity :=
  hm.count ▸ entries_length_le map.capacity map.slots

theorem TableOk.capacity_le (hm : TableOk p map) : map.capacity ≤ 2 ^ 59 := by
  obtain ⟨k, -, hk', hcap⟩ := hm.capacity_pow
  rw [hcap]
  exact Nat.pow_le_pow_right Nat.two_pos hk'

theorem TableOk.count_of_misses (hm : TableOk p map) {key : List UInt8} {h : Nat} (hmiss : Misses map key h map.capacity) :
    map.count = map.capacity := by
  by_contra hne
  have hle := hm.count_le
  have hroom : (entries map.capacity map.slots).length < map.capacity := by
    have hcount : map.count = (entries map.capacity map.slots).length := hm.count
    omega
  obtain ⟨d, hd, hempty, -⟩ := exists_first_empty h hroom
  obtain ⟨slot, hslot, -⟩ := hmiss d hd
  cases hempty.symm.trans hslot

theorem oaFindInsertionSlot_spec (hm : TableOk p map) (key : List UInt8) (hroom : map.count < map.capacity) :
    ∃ d, oaFindInsertionSlot map (hashKeyData p map.hashMode key) < map.capacity ∧
      FreeSlot p map key (oaFindInsertionSlot map (hashKeyData p map.hashMode key))
        (hashIndexFor (hashKeyData p map.hashMode key) map.capacity) d := by
  obtain ⟨k, hk, hk', hcap⟩ := hm.capacity_pow
  have hh := hm.hash_lt (hashKeyData p map.hashMode key)
  rw [hm.count] at hroom
  obtain ⟨d, hd, hempty, hpath⟩ := exists_first_empty (hashIndexFor (hashKeyData p map.hashMode key) map.capacity) hroom
  have hloop : oaFindInsertionSlot map (hashKeyData p map.hashMode key) =
      (hashIndexFor (hashKeyData p map.hashMode key) map.capacity + d) % map.capacity := by
    have hl := insertionSlotLoop_spec hcap (hcap ▸ hh) (hcap ▸ hd) (hcap ▸ hempty) (hcap ▸ hpath) map.capacity 0 (by omega)
      (by omega)
    rw [← hcap, Nat.add_zero, Nat.mod_eq_of_lt hh] at hl
    exact hl
  rw [hloop]
  exact ⟨d, Nat.mod_lt _ hm.capacity_pos, rfl, rfl, hempty, hpath⟩

theorem writeNew_outcome (hm : TableOk p map) {map₀ : OpenAddrMap}
    (slotOut : Bool) (hkey : key.length = p.keySize) (hval : val.length = p.valSize) (hf : FreeSlot p map key index home d)
    (habsent : Absent map₀ (oaWidenKey key)) (hlive : map.live.Perm map₀.live) :
    ∃ map' ans, (do
        let (map, index) ← oaWriteNew p map key val index home
        some (map, (⟨.success, if slotOut then oaFillValPair p map index else none⟩ : OaAnswer))) = some (map', ans) ∧
      Kept p map map' ∧ InsertOutcome p map₀ key val slotOut map' ans := by
  obtain ⟨map', index', hw, hi⟩ := oaWriteNew_spec hm hkey hval hf (habsent.of_perm hlive)
  simp only [hw, bind_eq_bind, bind_some, oaFillValPair_newSlot hval hi.at_index]
  exact ⟨_, _, rfl, ⟨hi.table, hi.fast⟩, .inserted habsent (hi.perm.trans (hlive.cons _))⟩

theorem oaInsertWithGrowth_spec (hm : TableOk p map) {index home : Nat} (slotOut foundEmpty : Bool)
    (hkey : key.length = p.keySize) (hval : val.length = p.valSize) (habsent : Absent map (oaWidenKey key))
    (hf : foundEmpty = true → ∃ d, FreeSlot p map key index home d) (hfull : foundEmpty = false → map.count = map.capacity) :
    ∃ map' ans, oaInsertWithGrowth p map key val slotOut index home foundEmpty = some (map', ans) ∧ Kept p map map' ∧
      InsertOutcome p map key val slotOut map' ans := by
  obtain ⟨k, hk, hcap, hge⟩ := oaRehashCapacityFor_spec (map.count + 1)
  have hle := hm.count_le
  have hle' := hm.capacity_le
  have hge := hge (by omega)
  obtain ⟨map₁, ret, hrebuild, hr⟩ := oaRebuild_spec .fast hm hk (by rw [← hm.count]; omega)
  unfold oaInsertWithGrowth
  rw [hcap]
  simp only [hrebuild, bind_eq_bind, bind_some]
  by_cases hret : ret = .success
  · rw [if_pos hret]
    obtain ⟨d, hlt, hfree⟩ := oaFindInsertionSlot_spec hr.table key (by rw [hr.same.count, hr.capacity hret]; omega)
    rw [if_neg (by omega)]
    obtain ⟨map₂, ans, hw, hkept, hout⟩ := writeNew_outcome hr.table slotOut hkey hval hfree habsent hr.same.perm
    exact ⟨map₂, ans, hw, hr.kept.trans hkept, hout⟩
  · rw [if_neg hret]
    obtain ⟨-, hmap⟩ := hr.failed hret
    cases foundEmpty with
    | false =>
      refine ⟨_, _, rfl, hr.kept, .refused habsent (.noBlock ?_ ?_) hr.same.perm⟩
      · obtain ⟨k, hk, -, hpow⟩ := hm.capacity_pow
        exact ⟨k, hk, (hfull rfl).trans hpow⟩
      · by_contra hnot
        simp only [not_or, not_exists, Bool.not_eq_false, hcap, Nat.not_lt] at hnot
        exact hret (hr.never_fails hnot.1 hnot.2)
    | true =>
      obtain ⟨d, hfree⟩ := hf rfl
      have hfree₁ : FreeSlot p map₁ key index home d := by
        rw [hmap]
        exact ⟨hfree.home_eq, hfree.index_eq, hfree.empty, hfree.path⟩
      obtain ⟨map₂, ans, hw, hkept, hout⟩ := writeNew_outcome hr.table slotOut hkey hval hfree₁ habsent hr.same.perm
      exact ⟨map₂, ans, hw, hr.kept.trans hkept, hout⟩

theorem oaInsertImpl_spec (hm : TableOk p map) (slotOut : Bool) (hkey : key.length = p.keySize)
    (hval : val.length = p.valSize) :
    ∃ map' ans, oaInsertImpl p map key val slotOut = some (map', ans) ∧ Kept p map map' ∧
      InsertOutcome p map key val slotOut map' ans := by
  have hend := hm.insertProbe (oaWidenKey key) (hm.hash_lt (hashKeyData p map.hashMode key))
  have habsent := hend.absent hm hkey hm.span_le
  unfold oaInsertImpl
  dsimp only
  generalize insertProbe map (oaWidenKey key) (hashIndexFor (hashKeyData p map.hashMode key) map.capacity) map.capacity
    (hashIndexFor (hashKeyData p map.hashMode key) map.capacity) = r at hend habsent
  cases hend with
  | hit hd hslot hk hmiss =>
    rename_i d slot
    have hlt := Nat.mod_lt (hashIndexFor (hashKeyData p map.hashMode key) map.capacity + d) hm.capacity_pos
    cases slotOut with
    | true =>
      refine ⟨_, _, rfl, .refl hm, ?_⟩
      rw [oaFillValPair, hslot, map_some]
      exact .found (mem_entries.mpr ⟨_, hlt, hslot⟩) hk rfl
    | false =>
      obtain ⟨hkept, rest, slot', hlive, hlive', hkey', hval'⟩ := hm.overwrite hval hlt hslot
      exact ⟨_, _, rfl, hkept, .overwritten hlive hk rfl hlive' hkey' hval'⟩
  | empty hd hslot hmiss =>
    rename_i d
    have habsent := habsent nofun
    have hfree : FreeSlot p map key ((hashIndexFor (hashKeyData p map.hashMode key) map.capacity + d) % map.capacity)
        (hashIndexFor (hashKeyData p map.hashMode key) map.capacity) d := by
      refine ⟨rfl, rfl, hslot, fun i hi => ?_⟩
      obtain ⟨slot, hs, -⟩ := hmiss i hi
      rw [hs]
      exact some_ne_none slot
    dsimp only
    split
    · rename_i hmax
      exact ⟨_, _, rfl, .refl hm, .refused habsent (.full hmax) (.refl _)⟩
    · split
      · exact oaInsertWithGrowth_spec hm slotOut true hkey hval habsent (fun _ => ⟨d, hfree⟩) nofun
      · exact writeNew_outcome hm slotOut hkey hval hfree habsent (.refl _)
  | exhausted hmiss =>
    have habsent := habsent nofun
    have hfull := hm.count_of_misses hmiss
    dsimp only
    split
    · rename_i hmax
      exact ⟨_, _, rfl, .refl hm, .refused habsent (.full hmax) (.refl _)⟩
    · split
      · exact oaInsertWithGrowth_spec hm slotOut false hkey hval habsent nofun fun _ => hfull
      · -- A full table is above the load at which it grows.
        rename_i hgrow
        have hpos := hm.capacity_pos
        have hle := hm.capacity_le
        refine absurd ⟨?_, Nat.lt_of_le_of_lt hle (by decide)⟩ hgrow
        rw [hfull, oaAboveGrowLoad]
        split
        · exact decide_eq_true (by omega)
        · exact decide_eq_true (by omega)

/-! ## Get -/

theorem oaGet_spec (hm : TableOk p map) (hkey : key.length = p.keySize) :
    (∃ slot ∈ map.live, slot.keyData = oaWidenKey key ∧ oaGet p map key = ⟨.success, some (slot.valData.take p.valSize)⟩) ∨
    (Absent map (oaWidenKey key) ∧ oaGet p map key = ⟨.keyNotFound, none⟩) := by
  have hend := hm.spanProbe (oaWidenKey key) (hm.hash_lt (hashKeyData p map.hashMode key)) map.probeSpan
  have habsent := hend.absent hm hkey (Nat.le_refl _)
  unfold oaGet
  dsimp only
  generalize spanProbe map (oaWidenKey key) map.probeSpan (hashIndexFor (hashKeyData p map.hashMode key) map.capacity) = r
    at hend habsent
  cases hend with
  | hit hd hslot hk hmiss =>
    refine .inl ⟨_, mem_entries.mpr ⟨_, Nat.mod_lt _ hm.capacity_pos, hslot⟩, hk, ?_⟩
    simp only [oaFillValPair, hslot, map_some]
  | empty hd hslot hmiss => exact .inr ⟨habsent nofun, rfl⟩
  | exhausted hmiss => exact .inr ⟨habsent nofun, rfl⟩

end Ccollections.Chashmap
