import Ccollections.Chashmap.Lemmas.OaDelete
import Ccollections.Chashmap.Lemmas.ScDelete

/-!
# Open-addressing maps refine finite maps
-/

namespace Ccollections.Chashmap
open Lib List Option

variable {p : OaParams} {map : OpenAddrMap}

/-! ## The abstract map -/

/-- The answers a call may give on a finite map, and the map it then leaves. A key counts in its canonical
form. -/
inductive OaSpec (p : OaParams) : (List UInt8 → Option (List UInt8)) → OaOp → OaAnswer →
    (List UInt8 → Option (List UInt8)) → Prop
  | inserted {m key val} (hsizes : insertSizesOk p key val = true)
      (habsent : m (canonicalizeKeyPairIfNeeded p.keyType key) = none) :
      OaSpec p m (.insertElem key val) ⟨.success, none⟩
        (Function.update m (canonicalizeKeyPairIfNeeded p.keyType key) (some val))
  | overwritten {m key val old} (hsizes : insertSizesOk p key val = true)
      (hpresent : m (canonicalizeKeyPairIfNeeded p.keyType key) = some old) :
      OaSpec p m (.insertElem key val) ⟨.keyAlreadyPresent, none⟩
        (Function.update m (canonicalizeKeyPairIfNeeded p.keyType key) (some val))
  | refused {m key val n ret} (hsizes : insertSizesOk p key val = true)
      (habsent : m (canonicalizeKeyPairIfNeeded p.keyType key) = none) (hcount : HasCount m n)
      (hrefused : OaRefused p n ret) : OaSpec p m (.insertElem key val) ⟨ret, none⟩ m
  | gotNew {m key val} (hsizes : insertSizesOk p key val = true)
      (habsent : m (canonicalizeKeyPairIfNeeded p.keyType key) = none) :
      OaSpec p m (.insertOrGetElem key val) ⟨.success, some val⟩
        (Function.update m (canonicalizeKeyPairIfNeeded p.keyType key) (some val))
  | gotOld {m key val old} (hsizes : insertSizesOk p key val = true)
      (hpresent : m (canonicalizeKeyPairIfNeeded p.keyType key) = some old) :
      OaSpec p m (.insertOrGetElem key val) ⟨.keyAlreadyPresent, some old⟩ m
  | gotRefused {m key val n ret} (hsizes : insertSizesOk p key val = true)
      (habsent : m (canonicalizeKeyPairIfNeeded p.keyType key) = none) (hcount : HasCount m n)
      (hrefused : OaRefused p n ret) : OaSpec p m (.insertOrGetElem key val) ⟨ret, none⟩ m
  | found {m key val} (hsize : keySizeOk p key = true)
      (hpresent : m (canonicalizeKeyPairIfNeeded p.keyType key) = some val) :
      OaSpec p m (.getElemRef key) ⟨.success, some val⟩ m
  | missed {m key} (hsize : keySizeOk p key = true) (habsent : m (canonicalizeKeyPairIfNeeded p.keyType key) = none) :
      OaSpec p m (.getElemRef key) ⟨.keyNotFound, none⟩ m
  | deleted {m key old} (hsize : keySizeOk p key = true)
      (hpresent : m (canonicalizeKeyPairIfNeeded p.keyType key) = some old) :
      OaSpec p m (.deleteElem key) ⟨.success, none⟩ (Function.update m (canonicalizeKeyPairIfNeeded p.keyType key) none)
  | notDeleted {m key} (hsize : keySizeOk p key = true) (habsent : m (canonicalizeKeyPairIfNeeded p.keyType key) = none) :
      OaSpec p m (.deleteElem key) ⟨.keyNotFound, none⟩ m
  | reset {m n ret} : OaSpec p m (.reset n) ⟨ret, none⟩ fun _ => none
  | badInsert {m key val} (hsizes : insertSizesOk p key val = false) :
      OaSpec p m (.insertElem key val) ⟨.invalidArgs, none⟩ m
  | badInsertOrGet {m key val} (hsizes : insertSizesOk p key val = false) :
      OaSpec p m (.insertOrGetElem key val) ⟨.invalidArgs, none⟩ m
  | badGet {m key} (hsize : keySizeOk p key = false) : OaSpec p m (.getElemRef key) ⟨.invalidArgs, none⟩ m
  | badDelete {m key} (hsize : keySizeOk p key = false) : OaSpec p m (.deleteElem key) ⟨.invalidArgs, none⟩ m

/-! ## The refinement relation -/

/-- The key and the value of an entry, at the widths of the map's types. -/
def slotBinding (p : OaParams) (slot : OaSlot) : List UInt8 × List UInt8 :=
  (slot.keyData.take p.keySize, slot.valData.take p.valSize)

structure OaRefines (p : OaParams) (map : OpenAddrMap) (m : List UInt8 → Option (List UInt8)) : Prop where
  table : TableOk p map
  fast : (∀ i, p.fate i = true) → FastOk p map
  holds : Represents m (map.live.map (slotBinding p))

theorem SlotOk.key_eq {slot : OaSlot} (hs : SlotOk p slot) : slot.keyData = oaWidenKey (slot.keyData.take p.keySize) := by
  obtain ⟨⟨key, hlen, hkey⟩, -⟩ := hs
  have hle := p.sizes.2.1
  rw [hkey, ← hlen, oaWidenKey_take (hlen ▸ hle)]

theorem take_widened {key : List UInt8} (hkey : key.length = p.keySize) : (oaWidenKey key).take p.keySize = key := by
  have hle := p.sizes.2.1
  rw [← hkey, oaWidenKey_take (hkey ▸ hle)]

theorem OaRefines.present {m : List UInt8 → Option (List UInt8)} (hr : OaRefines p map m) {key : List UInt8}
    (hkey : key.length = p.keySize) {slot : OaSlot} (hs : slot ∈ map.live) (hslot : slot.keyData = oaWidenKey key) :
    m key = some (slot.valData.take p.valSize) := by
  refine (hr.holds.mem _ _).mpr (mem_map.mpr ⟨slot, hs, ?_⟩)
  rw [slotBinding, hslot, take_widened hkey]

theorem TableOk.notMem_keys (hm : TableOk p map) {key : List UInt8} (habsent : Absent map (oaWidenKey key)) :
    key ∉ (map.live.map (slotBinding p)).map Prod.fst := by
  intro hmem
  rw [List.map_map] at hmem
  obtain ⟨slot, hs, heq⟩ := List.mem_map.mp hmem
  refine habsent slot hs ?_
  rw [(hm.slots_ok slot hs).key_eq]
  exact congrArg oaWidenKey heq

theorem OaRefines.hasCount {m : List UInt8 → Option (List UInt8)} (hr : OaRefines p map m) : HasCount m map.count := by
  rw [hr.table.count, ← length_map]
  exact hr.holds.hasCount

theorem OaRefines.of_empty (hm : TableOk p map) (hf : FastOk p map) (hlive : map.live = []) :
    OaRefines p map fun _ => none := by
  refine ⟨hm, fun _ => hf, ?_⟩
  rw [hlive]
  exact .empty

theorem canonicalizeKeyPairIfNeeded_length (t : DataType) (key : List UInt8) :
    (canonicalizeKeyPairIfNeeded t key).length = key.length := by
  unfold canonicalizeKeyPairIfNeeded
  split
  · rfl
  · split
    · split
      · rename_i hkey
        have hlen := congrArg List.length hkey
        simp only [length_take, length_cons, length_nil] at hlen
        simp only [length_append, length_drop, length_cons, length_nil]
        omega
      · rfl
    · split
      · rename_i hkey
        rw [hkey]
        rfl
      · rfl
    · rfl

theorem keySizeOk_length {key : List UInt8} (h : keySizeOk p key = true) : key.length = p.keySize := by
  have hsizes := p.sizes
  simp only [keySizeOk, keySizeMatchesTypeIfFixedWidth, Bool.and_eq_true, Bool.or_eq_true, decide_eq_true_eq] at h
  omega

theorem insertSizesOk_lengths {key val : List UInt8} (h : insertSizesOk p key val = true) :
    key.length = p.keySize ∧ val.length = p.valSize := by
  have hsizes := p.sizes
  simp only [insertSizesOk, keySizeMatchesTypeIfFixedWidth, Bool.and_eq_true, Bool.or_eq_true, decide_eq_true_eq] at h
  omega

/-! ## The simulation -/

theorem InsertOutcome.refines {m : List UInt8 → Option (List UInt8)} (hr : OaRefines p map m) {key val : List UInt8}
    {slotOut : Bool} {map' : OpenAddrMap} {ans : OaAnswer} (hkey : key.length = p.keySize) (hval : val.length = p.valSize)
    (hkept : Kept p map map') (hout : InsertOutcome p map key val slotOut map' ans) :
    (m key = none ∧ ans = ⟨.success, if slotOut then some val else none⟩ ∧
      OaRefines p map' (Function.update m key (some val))) ∨
    (∃ old, m key = some old ∧ slotOut = true ∧ ans = ⟨.keyAlreadyPresent, some old⟩ ∧ OaRefines p map' m) ∨
    (∃ old, m key = some old ∧ slotOut = false ∧ ans = ⟨.keyAlreadyPresent, none⟩ ∧
      OaRefines p map' (Function.update m key (some val))) ∨
    (m key = none ∧ (∃ ret, OaRefused p map.count ret ∧ ans = ⟨ret, none⟩) ∧ OaRefines p map' m) := by
  have hfast : (∀ i, p.fate i = true) → FastOk p map' := fun hfate => hkept.fast hfate (hr.fast hfate)
  have hnew : slotBinding p (newSlot key val) = (key, val) := by
    have hle := p.sizes.2.2.2.1
    rw [slotBinding, newSlot, take_widened hkey, ← hval, oaWidenKey_take (by omega)]
  cases hout with
  | found hs hk hslotOut => exact .inr (.inl ⟨_, hr.present hkey hs hk, hslotOut, rfl, hr⟩)
  | overwritten hlive hk hslotOut hlive' hkey' hval' =>
    rename_i slot slot' rest
    have hold : slotBinding p slot = (key, slot.valData.take p.valSize) := by rw [slotBinding, hk, take_widened hkey]
    have hnew' : slotBinding p slot' = (key, val) := by rw [slotBinding, hkey', hk, take_widened hkey, hval']
    have hrest := hr.holds.perm (hlive.map _).symm
    rw [map_cons, hold] at hrest
    have hafter := hrest.replace val
    refine .inr (.inr (.inl ⟨_, hr.present hkey (hlive.mem_iff.mpr mem_cons_self) hk, hslotOut, rfl, hkept.table, hfast, ?_⟩))
    refine hafter.perm ?_
    have hmap := hlive'.map (slotBinding p)
    rwa [map_cons, hnew'] at hmap
  | inserted habsent hlive =>
    have hnot := hr.table.notMem_keys habsent
    refine .inl ⟨hr.holds.eq_none hnot, rfl, hkept.table, hfast, (hr.holds.insert val hnot).perm ?_⟩
    have hmap := hlive.map (slotBinding p)
    rwa [map_cons, hnew] at hmap
  | refused habsent hrefused hlive =>
    exact .inr (.inr (.inr ⟨hr.holds.eq_none (hr.table.notMem_keys habsent), ⟨_, hrefused, rfl⟩, hkept.table, hfast,
      hr.holds.perm (hlive.map _)⟩))

theorem OpenAddrMap.step_simulates (p : OaParams) : Simulation (OpenAddrMap.step p) (OaSpec p) (OaRefines p) := by
  intro map m op hr
  cases op with
  | insertElem key val =>
    simp only [OpenAddrMap.step, chmapInsertElemImpl]
    cases hsizes : insertSizesOk p key val with
    | false => exact ⟨_, _, m, rfl, .badInsert hsizes, hr⟩
    | true =>
      obtain ⟨hkey, hval⟩ := insertSizesOk_lengths hsizes
      rw [← canonicalizeKeyPairIfNeeded_length p.keyType] at hkey
      obtain ⟨map', ans, hins, hkept, hout⟩ := oaInsertImpl_spec hr.table false hkey hval
      simp only [Bool.not_true, Bool.false_eq_true, ↓reduceIte, hins]
      rcases hout.refines hr hkey hval hkept with ⟨hm, rfl, hr'⟩ | ⟨old, hm, hf, -⟩ | ⟨old, hm, -, rfl, hr'⟩ |
        ⟨hm, ⟨ret, hrefused, rfl⟩, hr'⟩
      · exact ⟨_, _, _, rfl, .inserted hsizes hm, hr'⟩
      · cases hf
      · exact ⟨_, _, _, rfl, .overwritten hsizes hm, hr'⟩
      · exact ⟨_, _, _, rfl, .refused hsizes hm hr.hasCount hrefused, hr'⟩
  | insertOrGetElem key val =>
    simp only [OpenAddrMap.step, chmapInsertElemImpl]
    cases hsizes : insertSizesOk p key val with
    | false => exact ⟨_, _, m, rfl, .badInsertOrGet hsizes, hr⟩
    | true =>
      obtain ⟨hkey, hval⟩ := insertSizesOk_lengths hsizes
      rw [← canonicalizeKeyPairIfNeeded_length p.keyType] at hkey
      obtain ⟨map', ans, hins, hkept, hout⟩ := oaInsertImpl_spec hr.table true hkey hval
      simp only [Bool.not_true, Bool.false_eq_true, ↓reduceIte, hins]
      rcases hout.refines hr hkey hval hkept with ⟨hm, rfl, hr'⟩ | ⟨old, hm, -, rfl, hr'⟩ | ⟨old, hm, hf, -⟩ |
        ⟨hm, ⟨ret, hrefused, rfl⟩, hr'⟩
      · exact ⟨_, _, _, rfl, .gotNew hsizes hm, hr'⟩
      · exact ⟨_, _, _, rfl, .gotOld hsizes hm, hr'⟩
      · cases hf
      · exact ⟨_, _, _, rfl, .gotRefused hsizes hm hr.hasCount hrefused, hr'⟩
  | getElemRef key =>
    simp only [OpenAddrMap.step, chashmapGetElemRef]
    cases hsize : keySizeOk p key with
    | false => exact ⟨_, _, m, rfl, .badGet hsize, hr⟩
    | true =>
      have hkey := keySizeOk_length hsize
      rw [← canonicalizeKeyPairIfNeeded_length p.keyType] at hkey
      rcases oaGet_spec hr.table hkey with ⟨slot, hs, hslot, hget⟩ | ⟨habsent, hget⟩
      · simp only [Bool.not_true, Bool.false_eq_true, ↓reduceIte, hget]
        exact ⟨_, _, m, rfl, .found hsize (hr.present hkey hs hslot), hr⟩
      · simp only [Bool.not_true, Bool.false_eq_true, ↓reduceIte, hget]
        exact ⟨_, _, m, rfl, .missed hsize (hr.holds.eq_none (hr.table.notMem_keys habsent)), hr⟩
  | deleteElem key =>
    simp only [OpenAddrMap.step, chashmapDeleteElem]
    cases hsize : keySizeOk p key with
    | false => exact ⟨_, _, m, rfl, .badDelete hsize, hr⟩
    | true =>
      have hkey := keySizeOk_length hsize
      rw [← canonicalizeKeyPairIfNeeded_length p.keyType] at hkey
      obtain ⟨map', ret, hdel, hkept, hout⟩ := oaDelete_spec hr.table hkey
      simp only [Bool.not_true, Bool.false_eq_true, ↓reduceIte, hdel, map_some]
      cases hout with
      | deleted hk hlive =>
        rename_i slot
        refine ⟨_, _, _, rfl, .deleted hsize (hr.present hkey (hlive.mem_iff.mpr mem_cons_self) hk), hkept.table,
          fun hfate => hkept.fast hfate (hr.fast hfate), ?_⟩
        have hrest := hr.holds.perm (hlive.map _).symm
        rw [map_cons, show slotBinding p slot = (canonicalizeKeyPairIfNeeded p.keyType key,
          slot.valData.take p.valSize) by rw [slotBinding, hk, take_widened hkey]] at hrest
        exact hrest.erase
      | missed habsent =>
        exact ⟨_, _, m, rfl, .notDeleted hsize (hr.holds.eq_none (hr.table.notMem_keys habsent)), hr⟩
  | reset n =>
    obtain ⟨hm, hf, hlive⟩ := chashmapReset_spec hr.table n
    exact ⟨_, _, _, rfl, .reset, .of_empty hm hf hlive⟩

/-! ## Main results -/

/-- Every sequence of calls on a map that could be created runs through with the answers of a finite map, and leaves its
bindings. -/
theorem chashmap_open_addressing_refines_map (p : OaParams) (n : UInt64) (blockFate : Bool) (map : OpenAddrMap)
    (h : chmapCreateImpl p n blockFate = some map) (ops : List OaOp) :
    ∃ map' answers m, ∃ keys : List (List UInt8), run (OpenAddrMap.step p) map ops = some (map', answers) ∧
      Allows (OaSpec p) (fun _ => none) ops answers m ∧
      (∀ key val, m key = some val ↔ (key, val) ∈ map'.live.map (slotBinding p)) ∧
      keys.Nodup ∧ (∀ key, key ∈ keys ↔ m key ≠ none) ∧ map'.count = keys.length := by
  obtain ⟨hm, hf, hlive⟩ := chmapCreateImpl_spec h
  obtain ⟨map', answers, m, hrun, hall, hr⟩ := (OpenAddrMap.step_simulates p).run (.of_empty hm hf hlive) ops
  obtain ⟨keys, hnodup, hkeys, hcount⟩ := hr.hasCount
  exact ⟨map', answers, m, keys, hrun, hall, hr.holds.mem, hnodup, hkeys, hcount⟩

def constantHash : OaParams where
  keyType := .int
  valType := .int
  openAddressing := rfl
  hash := fun _ _ => 0
  fate := fun _ => true

theorem chashmap_open_addressing_refines_map_constant_hash :
    ∃ map' answers m, ∃ keys : List (List UInt8),
      run (OpenAddrMap.step constantHash) ((chmapCreateImpl constantHash 16 true).get rfl)
        [.insertElem [1, 0, 0, 0] [7, 0, 0, 0], .insertElem [2, 0, 0, 0] [8, 0, 0, 0], .deleteElem [1, 0, 0, 0]] =
          some (map', answers) ∧
      Allows (OaSpec constantHash) (fun _ => none)
        [.insertElem [1, 0, 0, 0] [7, 0, 0, 0], .insertElem [2, 0, 0, 0] [8, 0, 0, 0], .deleteElem [1, 0, 0, 0]] answers m ∧
      (∀ key val, m key = some val ↔ (key, val) ∈ map'.live.map (slotBinding constantHash)) ∧
      keys.Nodup ∧ (∀ key, key ∈ keys ↔ m key ≠ none) ∧ map'.count = keys.length :=
  chashmap_open_addressing_refines_map constantHash 16 true _ (some_get rfl).symm _

/-- The displacement of the entry in slot `j`, as the code computes it. -/
def oaDisplacement (p : OaParams) (map : OpenAddrMap) (j : Nat) (slot : OaSlot) : Nat :=
  maskedSub map.capacity j (slotHome p map.hashMode map.capacity slot)

theorem TableOk.displacement (hm : TableOk p map) {j d : Nat} {slot : OaSlot} (hd : d < map.capacity)
    (hpos : (slotHome p map.hashMode map.capacity slot + d) % map.capacity = j) : oaDisplacement p map j slot = d := by
  obtain ⟨k, hk, hk', hcap⟩ := hm.capacity_pow
  have hh := slotHome_lt p map.hashMode hk hk' slot
  rw [oaDisplacement, ← hpos]
  rw [hcap] at hd ⊢
  exact maskedSub_eq (by omega) hh hd

/-- The table invariant in every state a map can reach. -/
theorem chashmap_open_addressing_invariant (p : OaParams) (n : UInt64) (blockFate : Bool) (map : OpenAddrMap)
    (h : chmapCreateImpl p n blockFate = some map) (ops : List OaOp) :
    ∃ map' answers, run (OpenAddrMap.step p) map ops = some (map', answers) ∧
      map'.count = ((List.range map'.capacity).filter fun i => (map'.slots i).isSome).length ∧
      (∀ i j slot slot', i < map'.capacity → j < map'.capacity → map'.slots i = some slot → map'.slots j = some slot' →
        slot.keyData = slot'.keyData → i = j) ∧
      (∀ j slot, j < map'.capacity → map'.slots j = some slot → oaDisplacement p map' j slot < map'.probeSpan ∧
        ∀ i < oaDisplacement p map' j slot,
          (map'.slots ((slotHome p map'.hashMode map'.capacity slot + i) % map'.capacity)).isSome) ∧
      (∃ k, map'.capacity = 2 ^ k) ∧ 16 ≤ map'.capacity ∧ min 32 map'.capacity ≤ map'.probeSpan ∧
      map'.probeSpan ≤ map'.capacity ∧
      ((∀ i, p.fate i = true) → map'.hashMode = .fast → ∀ j slot, j < map'.capacity → map'.slots j = some slot →
        oaDisplacement p map' j slot ≤ oaInsertCap map'.capacity) := by
  obtain ⟨hm, hf, hlive⟩ := chmapCreateImpl_spec h
  obtain ⟨map', answers, m, hrun, -, hr⟩ := (OpenAddrMap.step_simulates p).run (.of_empty hm hf hlive) ops
  have ht := hr.table
  have hspan := ht.span_le
  obtain ⟨k, hk, -, hcap⟩ := ht.capacity_pow
  refine ⟨map', answers, hrun, ?_, ?_, ?_, ⟨k, hcap⟩, hcap ▸ two_pow_ge hk, ?_, hspan, ?_⟩
  · rw [ht.count]
    exact entries_length ..
  · intro i j slot slot' hi hj hslot hslot' hkeys
    exact entries_index_inj ht.nodup hi hj hslot hslot' hkeys
  · intro j slot hj hslot
    obtain ⟨d, hd, hpos, -, hpath⟩ := ht.reaches j slot hj hslot
    rw [ht.displacement (by omega) hpos]
    exact ⟨hd, fun i hi => isSome_iff_ne_none.mpr (hpath i hi)⟩
  · have hge := ht.span_ge
    unfold oaMinProbeSpan oaDeepInsert at hge
    split at hge <;> omega
  · intro hfate hmode j slot hj hslot
    obtain ⟨d, hd, hpos⟩ := hr.fast hfate hmode j slot hj hslot
    obtain ⟨d', hd', hpos', -⟩ := ht.reaches j slot hj hslot
    rw [ht.displacement (by omega) hpos']
    rw [hmode] at hpos'
    have hmod : d' % map'.capacity = d % map'.capacity :=
      Nat.ModEq.add_left_cancel' (slotHome p .fast map'.capacity slot) (hpos'.trans hpos.symm)
    rw [Nat.mod_eq_of_lt (by omega)] at hmod
    have := Nat.mod_le d map'.capacity
    omega

theorem chashmap_open_addressing_invariant_constant_hash :
    ∃ map' answers, run (OpenAddrMap.step constantHash) ((chmapCreateImpl constantHash 16 true).get rfl)
        [.insertElem [1, 0, 0, 0] [7, 0, 0, 0], .insertElem [2, 0, 0, 0] [8, 0, 0, 0], .deleteElem [1, 0, 0, 0]] =
          some (map', answers) ∧
      map'.count = ((List.range map'.capacity).filter fun i => (map'.slots i).isSome).length := by
  obtain ⟨map', answers, hrun, hcount, -⟩ := chashmap_open_addressing_invariant constantHash 16 true _
    (some_get rfl).symm
    [.insertElem [1, 0, 0, 0] [7, 0, 0, 0], .insertElem [2, 0, 0, 0] [8, 0, 0, 0], .deleteElem [1, 0, 0, 0]]
  exact ⟨map', answers, hrun, hcount⟩

end Ccollections.Chashmap

/-!
# Separate-chaining maps refine insertion-ordered finite maps
-/

namespace Ccollections.Chashmap.Sc
open Lib List Option

variable {p : ScParams}

/-- The answers a call may give on the bindings of a map, oldest first, and the bindings it then leaves. -/
inductive ScSpec (p : ScParams) : List (List UInt8 × List UInt8) → ScOp → ScAnswer → List (List UInt8 × List UInt8) → Prop
  | inserted {l key val aliased ans l'} (hsizes : insertSizesOk p key val = true)
      (hout : InsertOutcome p l (canonicalizeKeyPairIfNeeded p.keyType key) val .none ans l') :
      ScSpec p l (.insertElem key val aliased) ans l'
  | insertedOrGot {l key val ans l'} (hsizes : insertSizesOk p key val = true)
      (hout : InsertOutcome p l (canonicalizeKeyPairIfNeeded p.keyType key) val .val ans l') :
      ScSpec p l (.insertOrGetElem key val) ans l'
  | insertedOrGotEntry {l key val ans l'} (hsizes : insertSizesOk p key val = true)
      (hout : InsertOutcome p l (canonicalizeKeyPairIfNeeded p.keyType key) val .keyAndVal ans l') :
      ScSpec p l (.insertOrGetEntry key val) ans l'
  | found {l key k v} (hsize : keySizeOk p key = true)
      (hpresent : OrderedMap.lookup p.keysEqual l (canonicalizeKeyPairIfNeeded p.keyType key) = some (k, v)) :
      ScSpec p l (.getElemRef key) ⟨.success, some v, none⟩ l
  | missed {l key} (hsize : keySizeOk p key = true)
      (habsent : OrderedMap.lookup p.keysEqual l (canonicalizeKeyPairIfNeeded p.keyType key) = none) :
      ScSpec p l (.getElemRef key) ⟨.keyNotFound, none, none⟩ l
  | deleted {l key k v} (hsize : keySizeOk p key = true)
      (hpresent : OrderedMap.lookup p.keysEqual l (canonicalizeKeyPairIfNeeded p.keyType key) = some (k, v)) :
      ScSpec p l (.deleteElem key) ⟨.success, none, none⟩
        (OrderedMap.erase p.keysEqual l (canonicalizeKeyPairIfNeeded p.keyType key))
  | notDeleted {l key} (hsize : keySizeOk p key = true)
      (habsent : OrderedMap.lookup p.keysEqual l (canonicalizeKeyPairIfNeeded p.keyType key) = none) :
      ScSpec p l (.deleteElem key) ⟨.keyNotFound, none, none⟩ l
  | reset {l n ret} (hret : ret = .success ∨ ret = .notEnoughMemory) : ScSpec p l (.reset n) ⟨ret, none, none⟩ []
  | badInsert {l key val aliased} (hsizes : insertSizesOk p key val = false) :
      ScSpec p l (.insertElem key val aliased) ⟨.invalidArgs, none, none⟩ l
  | badInsertOrGet {l key val} (hsizes : insertSizesOk p key val = false) :
      ScSpec p l (.insertOrGetElem key val) ⟨.invalidArgs, none, none⟩ l
  | badInsertOrGetEntry {l key val} (hsizes : insertSizesOk p key val = false) :
      ScSpec p l (.insertOrGetEntry key val) ⟨.invalidArgs, none, none⟩ l
  | badGet {l key} (hsize : keySizeOk p key = false) : ScSpec p l (.getElemRef key) ⟨.invalidArgs, none, none⟩ l
  | badDelete {l key} (hsize : keySizeOk p key = false) : ScSpec p l (.deleteElem key) ⟨.invalidArgs, none, none⟩ l

def ScRefines (p : ScParams) (map : SepChainMap) (l : List (List UInt8 × List UInt8)) : Prop :=
  ∃ order, ScOk p map order ∧ bindings map.nodes order = l

theorem chmapInsertElemImpl_refines {map : SepChainMap} {l : List (List UInt8 × List UInt8)} (hr : ScRefines p map l)
    (key val : List UInt8) (slots : Slots) (aliased : Bool) :
    (insertSizesOk p key val = false ∧ chmapInsertElemImpl p map key val slots aliased = some (map, ⟨.invalidArgs, none, none⟩)) ∨
    (insertSizesOk p key val = true ∧ ∃ map' ans l', chmapInsertElemImpl p map key val slots aliased = some (map', ans) ∧
      InsertOutcome p l (canonicalizeKeyPairIfNeeded p.keyType key) val slots ans l' ∧ ScRefines p map' l') := by
  obtain ⟨order, hm, rfl⟩ := hr
  rw [chmapInsertElemImpl]
  cases hsizes : insertSizesOk p key val with
  | false => exact .inl ⟨rfl, rfl⟩
  | true =>
    obtain ⟨map', ans, order', hins, hok, hout, -⟩ :=
      scInsertImpl_spec hm (canonicalizeKeyPairIfNeeded p.keyType key) val slots aliased
    exact .inr ⟨rfl, map', ans, _, hins, hout, order', hok, rfl⟩

theorem SepChainMap.step_simulates (p : ScParams) : Simulation (SepChainMap.step p) (ScSpec p) (ScRefines p) := by
  intro map l op hr
  cases op with
  | insertElem key val aliased =>
    rcases chmapInsertElemImpl_refines hr key val .none aliased with ⟨hsizes, hins⟩ | ⟨hsizes, map', ans, l', hins, hout, hr'⟩
    · exact ⟨_, _, l, hins, .badInsert hsizes, hr⟩
    · exact ⟨_, _, l', hins, .inserted hsizes hout, hr'⟩
  | insertOrGetElem key val =>
    rcases chmapInsertElemImpl_refines hr key val .val false with ⟨hsizes, hins⟩ | ⟨hsizes, map', ans, l', hins, hout, hr'⟩
    · exact ⟨_, _, l, hins, .badInsertOrGet hsizes, hr⟩
    · exact ⟨_, _, l', hins, .insertedOrGot hsizes hout, hr'⟩
  | insertOrGetEntry key val =>
    rcases chmapInsertElemImpl_refines hr key val .keyAndVal false with
      ⟨hsizes, hins⟩ | ⟨hsizes, map', ans, l', hins, hout, hr'⟩
    · exact ⟨_, _, l, hins, .badInsertOrGetEntry hsizes, hr⟩
    · exact ⟨_, _, l', hins, .insertedOrGotEntry hsizes hout, hr'⟩
  | getElemRef key =>
    obtain ⟨order, hm, hl⟩ := hr
    simp only [SepChainMap.step, chashmapGetElemRef]
    cases hsize : keySizeOk p key with
    | false => exact ⟨_, _, l, rfl, .badGet hsize, order, hm, hl⟩
    | true =>
      rcases scGet_spec hm (canonicalizeKeyPairIfNeeded p.keyType key) with ⟨k, v, hlookup, hget⟩ | ⟨hlookup, hget⟩
      · simp only [Bool.not_true, Bool.false_eq_true, ↓reduceIte, hget]
        exact ⟨_, _, l, rfl, .found hsize (hl ▸ hlookup), order, hm, hl⟩
      · simp only [Bool.not_true, Bool.false_eq_true, ↓reduceIte, hget]
        exact ⟨_, _, l, rfl, .missed hsize (hl ▸ hlookup), order, hm, hl⟩
  | deleteElem key =>
    obtain ⟨order, hm, hl⟩ := hr
    simp only [SepChainMap.step, chashmapDeleteElem]
    cases hsize : keySizeOk p key with
    | false => exact ⟨_, _, l, rfl, .badDelete hsize, order, hm, hl⟩
    | true =>
      obtain ⟨map', ret, order', hdel, hok, hcases, -⟩ := scDelete_spec hm (canonicalizeKeyPairIfNeeded p.keyType key)
      simp only [Bool.not_true, Bool.false_eq_true, ↓reduceIte, hdel]
      subst hl
      rcases hcases with ⟨k, v, hlookup, rfl, hbind⟩ | ⟨hlookup, rfl, hbind⟩
      · exact ⟨_, _, _, rfl, .deleted hsize hlookup, order', hok, hbind⟩
      · exact ⟨_, _, _, rfl, .notDeleted hsize hlookup, order', hok, hbind⟩
  | reset n =>
    obtain ⟨order, hm, hl⟩ := hr
    obtain ⟨map', ret, hreset, hret, hok, -⟩ := chashmapReset_spec hm n
    exact ⟨_, _, [], by simp only [SepChainMap.step, hreset]; rfl, .reset hret, [], hok, rfl⟩

/-! ## Main result -/

/-- Every sequence of calls runs through with the answers of an insertion-ordered finite map, whose bindings the list
holds in order and the chains by hash. -/
theorem chashmap_separate_chaining_refines_ordered_map (p : ScParams) (n : UInt64) (map : SepChainMap)
    (h : chashmapCreateFull p n = some map ∨ ccolChmapCreateCompact p = some map) (ops : List ScOp) :
    ∃ map' answers l order, ∃ chains : Nat → List Nat, run (SepChainMap.step p) map ops = some (map', answers) ∧
      Allows (ScSpec p) [] ops answers l ∧
      Seg (prevOf map'.nodes) map'.tail order none ∧ Seg (dllNextOf map'.nodes) map'.head order.reverse none ∧
      order.Nodup ∧ bindings map'.nodes order = l ∧ map'.elemCount = l.length ∧
      l.Pairwise (fun a b => p.keysEqual a.1 b.1 = false) ∧
      (∀ i < map'.bucketArrSize, Seg (nextOf map'.nodes) (map'.bucketArr i) (chains i) none) ∧
      ((List.range map'.bucketArrSize).flatMap chains).Perm order ∧
      (∀ i < map'.bucketArrSize, ∀ id ∈ chains i, ∃ node, map'.nodes id = some node ∧
        hashIndexFor node.hashVal map'.bucketArrSize = i ∧ node.hashVal = p.hash map'.hashMode node.key) := by
  have hstart : ScOk p map [] := by
    rcases h with h | h
    · exact chmapCreateImpl_spec ⟨4, by decide, by decide, rfl⟩ h
    · exact chmapCreateImpl_spec ⟨2, by decide, by decide, rfl⟩ h
  obtain ⟨map', answers, l, hrun, hall, order, hm, hbind⟩ := (SepChainMap.step_simulates p).run ⟨[], hstart, rfl⟩ ops
  obtain ⟨chains, hseg, hperm, hhome⟩ := hm.linked
  refine ⟨map', answers, l, order, chains, hrun, hall, hm.ordered.prev, hm.ordered.next, hm.ordered.nodup, hbind, ?_, ?_, hseg,
    hperm, ?_⟩
  · rw [← hbind, hm.bindings_length]
    exact hm.count
  · exact hbind ▸ hm.distinct
  · intro i hi id hid
    obtain ⟨node, hnode, hindex⟩ := hhome i hi id hid
    exact ⟨node, hnode, hindex, hm.hash id (mem_chain hperm hi hid) node hnode⟩

def constantHash : ScParams where
  keyType := .string
  valType := .string
  customKeyEqualityProc := none
  longDoubleKeysEqual := fun a b => a = b
  hash := fun _ _ => 0
  fate := fun _ => true
  separateChaining := .inr rfl
  refl := by
    intro a
    simp [ScProcs.keysEqual, ScProcs.scCompareKeys]
  symm := by
    intro a b
    simp only [ScProcs.keysEqual, ScProcs.scCompareKeys, reduceCtorEq, ↓reduceIte, Bool.if_false_left, Bool.and_eq_true,
      decide_eq_true_eq]
    exact fun h => ⟨by simp [h.2], h.2.symm⟩
  trans := by
    intro a b c
    simp only [ScProcs.keysEqual, ScProcs.scCompareKeys, reduceCtorEq, ↓reduceIte, Bool.if_false_left, Bool.and_eq_true,
      decide_eq_true_eq]
    exact fun hab hbc => ⟨by simp [hab.2, hbc.2], hab.2.trans hbc.2⟩
  agrees := fun _ _ _ _ => rfl

theorem chashmap_separate_chaining_refines_ordered_map_constant_hash :
    ∃ map' answers l order,
      run (SepChainMap.step constantHash) ((chashmapCreateFull constantHash 16).get rfl)
        [.insertElem [97] [1] false, .insertElem [98] [2] false, .insertElem [97] [3] false, .deleteElem [98]] =
          some (map', answers) ∧
      Allows (ScSpec constantHash) []
        [.insertElem [97] [1] false, .insertElem [98] [2] false, .insertElem [97] [3] false, .deleteElem [98]] answers l ∧
      Seg (prevOf map'.nodes) map'.tail order none ∧ bindings map'.nodes order = l ∧ map'.elemCount = l.length := by
  obtain ⟨map', answers, l, order, -, hrun, hall, hprev, -, -, hbind, hcount, -⟩ :=
    chashmap_separate_chaining_refines_ordered_map constantHash 16 _ (.inl (some_get rfl).symm)
      [.insertElem [97] [1] false, .insertElem [98] [2] false, .insertElem [97] [3] false, .deleteElem [98]]
  exact ⟨map', answers, l, order, hrun, hall, hprev, hbind, hcount⟩

/-!
# In the fast mode the chains are short
-/

variable {p : ScParams} {map map' : SepChainMap} {order : List Nat}

/-- A well-formed map whose chains are short, if it is in the fast mode. -/
def ShortMap (p : ScParams) (map : SepChainMap) : Prop := ∃ order, ScOk p map order ∧ Short p map order

theorem Short.nil : Short p map [] := fun _ _ _ => Nat.zero_le _

theorem chmapInsertElemImpl_short (h : ShortMap p map) (key val : List UInt8) (slots : Slots) (aliased : Bool) :
    ∃ map' ans, chmapInsertElemImpl p map key val slots aliased = some (map', ans) ∧ ShortMap p map' := by
  rw [chmapInsertElemImpl]
  cases insertSizesOk p key val with
  | false => exact ⟨map, _, rfl, h⟩
  | true =>
    obtain ⟨order, hm, hs⟩ := h
    obtain ⟨map', ans, order', hins, hok, -, hshort⟩ :=
      scInsertImpl_spec hm (canonicalizeKeyPairIfNeeded p.keyType key) val slots aliased
    exact ⟨map', ans, hins, order', hok, hshort hs⟩

theorem chashmapDeleteElem_short (h : ShortMap p map) (key : List UInt8) :
    ∃ map' ret, chashmapDeleteElem p map key = some (map', ret) ∧ ShortMap p map' := by
  rw [chashmapDeleteElem]
  cases keySizeOk p key with
  | false => exact ⟨map, _, rfl, h⟩
  | true =>
    obtain ⟨order, hm, hs⟩ := h
    obtain ⟨map', ret, order', hdel, hok, -, hshort⟩ := scDelete_spec hm (canonicalizeKeyPairIfNeeded p.keyType key)
    exact ⟨map', ret, hdel, order', hok, hshort hs⟩

theorem SepChainMap.step_short (h : ShortMap p map) {op : ScOp} {ans : ScAnswer} (hstep : map.step p op = some (map', ans)) :
    ShortMap p map' := by
  cases op with
  | insertElem key val aliased =>
    obtain ⟨_, _, hins, hs⟩ := chmapInsertElemImpl_short h key val .none aliased
    simp only [SepChainMap.step, hins, some.injEq, Prod.mk.injEq] at hstep
    exact hstep.1 ▸ hs
  | insertOrGetElem key val =>
    obtain ⟨_, _, hins, hs⟩ := chmapInsertElemImpl_short h key val .val false
    simp only [SepChainMap.step, hins, some.injEq, Prod.mk.injEq] at hstep
    exact hstep.1 ▸ hs
  | insertOrGetEntry key val =>
    obtain ⟨_, _, hins, hs⟩ := chmapInsertElemImpl_short h key val .keyAndVal false
    simp only [SepChainMap.step, hins, some.injEq, Prod.mk.injEq] at hstep
    exact hstep.1 ▸ hs
  | getElemRef key =>
    simp only [SepChainMap.step, map_eq_some_iff, Prod.mk.injEq] at hstep
    obtain ⟨_, -, rfl, -⟩ := hstep
    exact h
  | deleteElem key =>
    obtain ⟨_, _, hdel, hs⟩ := chashmapDeleteElem_short h key
    simp only [SepChainMap.step, hdel, map_some, some.injEq, Prod.mk.injEq] at hstep
    exact hstep.1 ▸ hs
  | reset n =>
    obtain ⟨order, hm, -⟩ := h
    obtain ⟨_, _, hreset, -, hok, -⟩ := chashmapReset_spec hm n
    simp only [SepChainMap.step, hreset, map_some, some.injEq, Prod.mk.injEq] at hstep
    exact hstep.1 ▸ ⟨[], hok, .nil⟩

def chainLengthAt (map : SepChainMap) (i : Nat) : Option Nat := scChainLength map.nodes map.nextNode (map.bucketArr i) 0

theorem ScOk.chainLengthAt (hm : ScOk p map order) {i : Nat} (hi : i < map.bucketArrSize) :
    Sc.chainLengthAt map i = some (load map.bucketArrSize (keyHashes p map.hashMode map.nodes order) i) := by
  obtain ⟨chains, hseg, hall, hhome⟩ := hm.linked
  have h : ChainOf map order i chains := ⟨hi, hseg, hall, hhome⟩
  rw [Sc.chainLengthAt, scChainLength_spec 0 (hseg i hi) h.live (h.length_le hm), Nat.zero_add,
    chain_length hall hhome hm.hash hi]

theorem scRelink_longest (hm : ScOk p map order) (hgt : map.bucketArrSize > minimumAllowedBucketArraySize) :
    ∃ shrunk longestMerged, scRelink p map (scaledSize map.bucketArrSize false) false = some (shrunk, longestMerged) ∧
      (∀ i < scaledSize map.bucketArrSize false, ∃ length, chainLengthAt shrunk i = some length ∧ length ≤ longestMerged) ∧
      ∃ i < scaledSize map.bucketArrSize false, chainLengthAt shrunk i = some longestMerged := by
  obtain ⟨hsize, -⟩ := hm.size.down hgt
  obtain ⟨nodes', arr', mode', longest, hrelink, hlink, hcases⟩ := scRelink_spec hm hsize false
  rcases hcases with ⟨hup, -⟩ | ⟨rfl, rfl⟩
  · cases hup
  · have hok := hm.relinked hlink hsize (fun h : false = true => by cases h)
    have hkeys : keyHashes p map.hashMode nodes' order = keyHashes p map.hashMode map.nodes order :=
      keyHashes_congr fun id _ => entry_of_core (hlink.core id)
    have hlen := fun i (hi : i < scaledSize map.bucketArrSize false) => hok.chainLengthAt hi
    obtain ⟨hall, i, hi, heq⟩ := measured_down hm hgt
    refine ⟨_, _, hrelink, fun j hj => ⟨_, hlen j hj, ?_⟩, i, hi, (hlen i hi).trans ?_⟩
    · simp only [hkeys]
      exact hall j hj
    · simp only [hkeys, heq]

/-- In every state a program reaches, every chain ends, in the fast mode below `SC_CHAIN_CAP` nodes, and a shrink counts
the longest chain of the array it makes. -/
theorem fast_mode_chains_are_short (p : ScParams) (n : UInt64) (map : SepChainMap)
    (h : chashmapCreateFull p n = some map ∨ ccolChmapCreateCompact p = some map) (ops : List ScOp) :
    ∃ map' answers, run (SepChainMap.step p) map ops = some (map', answers) ∧
      (∀ i < map'.bucketArrSize, ∃ length, chainLengthAt map' i = some length ∧
        (map'.hashMode = .fast → length ≤ scChainCap)) ∧
      (map'.bucketArrSize > minimumAllowedBucketArraySize →
        ∃ shrunk longestMerged, scRelink p map' (scaledSize map'.bucketArrSize false) false = some (shrunk, longestMerged) ∧
          (∀ i < scaledSize map'.bucketArrSize false, ∃ length, chainLengthAt shrunk i = some length ∧ length ≤ longestMerged) ∧
          ∃ i < scaledSize map'.bucketArrSize false, chainLengthAt shrunk i = some longestMerged) := by
  have hstart : ScOk p map [] := by
    rcases h with h | h
    · exact chmapCreateImpl_spec ⟨4, by decide, by decide, rfl⟩ h
    · exact chmapCreateImpl_spec ⟨2, by decide, by decide, rfl⟩ h
  obtain ⟨map', answers, l, hrun, -⟩ := (SepChainMap.step_simulates p).run ⟨[], hstart, rfl⟩ ops
  obtain ⟨order, hm, hs⟩ := run_invariant (P := ShortMap p) (fun _ _ _ _ hs hstep => SepChainMap.step_short hs hstep) ⟨[], hstart, .nil⟩ hrun
  refine ⟨map', answers, hrun, fun i hi => ⟨_, hm.chainLengthAt hi, fun hfast => ?_⟩, scRelink_longest hm⟩
  rw [hfast]
  exact hs hfast i hi

theorem fast_mode_chains_are_short_constant_hash :
    ∃ map' answers,
      run (SepChainMap.step constantHash) ((chashmapCreateFull constantHash 16).get rfl)
        [.insertElem [97] [1] false, .insertElem [98] [2] false, .deleteElem [97]] = some (map', answers) ∧
      ∀ i < map'.bucketArrSize, ∃ length, chainLengthAt map' i = some length ∧
        (map'.hashMode = .fast → length ≤ scChainCap) := by
  obtain ⟨map', answers, hrun, hshort, -⟩ := fast_mode_chains_are_short constantHash 16 _
    (.inl (some_get rfl).symm) [.insertElem [97] [1] false, .insertElem [98] [2] false, .deleteElem [97]]
  exact ⟨map', answers, hrun, hshort⟩

end Ccollections.Chashmap.Sc
