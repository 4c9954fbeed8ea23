import Ccollections.Chashmap.Window
import Ccollections.Chashmap.Lemmas.Window
import Ccollections.Chashmap.Theorems.OpenAddressing

/-!
# The logs of an open-addressing map are logs of a window

With allocations that succeed, a switch happens whenever one is due, so no insert adds a walk above the cap in the fast
mode.
-/

namespace Ccollections.Chashmap
open Lib Window Option

variable {p : OaParams} {map map' : OpenAddrMap} {index index' displacement : Nat} {ret : RetVal}

def Room (map : OpenAddrMap) : Prop := 0 < map.capacity ∧ map.capacity ≤ sizeMax / 17

theorem TableOk.room (hm : TableOk p map) : Room map := by
  obtain ⟨k, -, hk, hcap⟩ := hm.capacity_pow
  exact ⟨hm.capacity_pos, hcap ▸ pow_le_alloc hk⟩

def OpenAddrMap.noted (map : OpenAddrMap) : Noted := ⟨map.hashMode, map.insertWindow, map.windowLog⟩

/-! ## Rebuilding and switching -/

def Restarted (map map' : OpenAddrMap) : Prop :=
  map'.insertWindow = chmapWindowStart ∧ map'.windowLog = map.windowLog ++ [.restart]

theorem oaRebuild_cases {newCapacity : Nat} {mode : HashMode} (h : oaRebuild p map newCapacity mode = some (map', ret)) :
    (ret = .notEnoughMemory ∧ map' = { map with allocs := map'.allocs } ∧
      ((∀ i, p.fate i = true) → 0 < newCapacity → ¬newCapacity ≤ sizeMax / 17)) ∨
    (ret = .success ∧ Restarted map map' ∧ Room map' ∧ map'.capacity = newCapacity ∧
      (mode = .keyed → map'.hashMode = .keyed)) := by
  unfold oaRebuild oaAllocBlock at h
  by_cases hbad : newCapacity = 0 ∨ newCapacity > sizeMax / 17
  · rw [if_pos hbad] at h
    cases h
    exact .inl ⟨rfl, rfl, fun _ _ => by omega⟩
  · rw [if_neg hbad] at h
    cases hfate : p.fate map.allocs with
    | false =>
      rw [hfate] at h
      cases h
      exact .inl ⟨rfl, rfl, fun hall => by rw [hall] at hfate; cases hfate⟩
    | true =>
      have hroom : 0 < newCapacity ∧ newCapacity ≤ sizeMax / 17 := by omega
      have hdone : ∀ slots span mode', (mode = .keyed → mode' = .keyed) →
          some (oaWindowRestart { map with
            slots := slots, capacity := newCapacity, probeSpan := span, hashMode := mode', allocs := map.allocs + 1 },
            RetVal.success) = some (map', ret) →
          ret = .success ∧ Restarted map map' ∧ Room map' ∧ map'.capacity = newCapacity ∧
            (mode = .keyed → map'.hashMode = .keyed) := by
        intro slots span mode' hmode hend
        cases hend
        exact ⟨rfl, ⟨rfl, rfl⟩, hroom, rfl, hmode⟩
      rw [hfate] at h
      simp only [bind_eq_bind] at h
      split at h
      · rename_i hattempt
        rw [bind_some] at h
        split at h
        · simp only [bind_some, bind_eq_some_iff] at h
          obtain ⟨⟨slots, largest⟩, -, h⟩ := h
          exact .inr (hdone _ _ _ (fun _ => rfl) h)
        · exact .inr (hdone _ _ _ id h)
      · simp only [bind_eq_some_iff] at h
        obtain ⟨⟨slots, largest⟩, -, h⟩ := h
        split at h
        · simp only [bind_some, bind_eq_some_iff] at h
          obtain ⟨⟨slots', largest'⟩, -, h⟩ := h
          exact .inr (hdone _ _ _ (fun _ => rfl) h)
        · exact .inr (hdone _ _ _ id h)

theorem oaRebuild_logs {newCapacity : Nat} {mode : HashMode} (h : oaRebuild p map newCapacity mode = some (map', ret)) :
    Logs map.noted map'.noted 0 := by
  rcases oaRebuild_cases h with ⟨-, hmap, -⟩ | ⟨-, ⟨hstart, hlog⟩, -⟩
  · rw [hmap]
    exact .refl rfl
  · exact .restart hlog hstart

theorem oaSwitchKeeping_logs (hfate : ∀ i, p.fate i = true) (hroom : Room map)
    (h : oaSwitchKeeping p map index = some (map', index')) :
    Logs map.noted map'.noted 0 ∧ map'.hashMode = .keyed ∧ Room map' := by
  simp only [oaSwitchKeeping, bind_eq_bind, bind_eq_some_iff] at h
  obtain ⟨slot, -, ⟨map₁, ret⟩, hrebuild, h⟩ := h
  rcases oaRebuild_cases hrebuild with ⟨-, -, hnever⟩ | ⟨rfl, -, hroom', -, hkeyed⟩
  · exact absurd hroom.2 (hnever hfate hroom.1)
  · simp only [ne_eq, not_true_eq_false, ↓reduceIte, bind_eq_some_iff] at h
    obtain ⟨index₁, -, h⟩ := h
    cases h
    exact ⟨oaRebuild_logs hrebuild, hkeyed rfl, hroom'⟩

theorem oaNoteDeepInsert_logs (hfate : ∀ i, p.fate i = true) (hroom : Room map)
    (h : (if displacement ≥ oaDeepInsert then oaNoteDeepInsert p map index displacement else some (map, index)) =
      some (map', index')) :
    Logs map.noted map'.noted 0 ∧ (map'.hashMode = .fast → displacement ≤ windowWalkMax) ∧ Room map' := by
  split at h
  · unfold oaNoteDeepInsert at h
    have hwiden : ∃ span, (if displacement ≥ map.probeSpan then { map with probeSpan := displacement + 1 } else map) =
        { map with probeSpan := span } := by
      split
      · exact ⟨_, rfl⟩
      · exact ⟨map.probeSpan, rfl⟩
    obtain ⟨span, hwiden⟩ := hwiden
    dsimp only at h
    rw [hwiden] at h
    split at h
    · obtain ⟨hlogs, hkeyed, hroom'⟩ := @oaSwitchKeeping_logs p { map with probeSpan := span } _ _ _ hfate hroom h
      refine ⟨hlogs, ?_, hroom'⟩
      intro hfast
      rw [hkeyed] at hfast
      cases hfast
    · rename_i hstay
      cases h
      refine ⟨.refl rfl, ?_, hroom⟩
      intro hfast
      have hle := oaInsertCap_le map.capacity
      have hcap : displacement ≤ oaInsertCap map.capacity := by
        by_contra hgt
        refine hstay ⟨?_, Nat.lt_of_not_le hgt⟩
        rw [hfast]
        decide
      exact Nat.le_trans hcap hle
  · cases h
    have h32 : oaDeepInsert = 32 := rfl
    have h288 : windowWalkMax = 288 := rfl
    exact ⟨.refl rfl, fun _ => by omega, hroom⟩

theorem oaWindowEnd_logs (hfate : ∀ i, p.fate i = true) (hroom : Room map)
    (h : oaWindowEnd p map index = some (map', index')) : Logs (oaWindowRestart map).noted map'.noted 0 := by
  unfold oaWindowEnd at h
  dsimp only at h
  split at h
  · exact (@oaSwitchKeeping_logs p (oaWindowRestart map) _ _ _ hfate hroom h).1
  · cases h
    exact .refl rfl

/-! ## Inserts -/

theorem windowAdd_logs (hfate : ∀ i, p.fate i = true) (hroom : Room map) {walk : Nat}
    (hwalk : map.hashMode = .fast → walk ≤ windowWalkMax) {added : OpenAddrMap}
    (hadded : added = { map with
      insertWindow := (chmapWindowAdd map.insertWindow walk).1
      windowLog := map.windowLog ++ [.added map.hashMode walk (chmapWindowAdd map.insertWindow walk).1
        (chmapWindowAdd map.insertWindow walk).2] })
    (h : (if (chmapWindowAdd map.insertWindow walk).2 then oaWindowEnd p added index else some (added, index)) =
      some (map', index')) : Logs map.noted map'.noted 1 := by
  split at h
  · have hended : Logs map.noted (oaWindowRestart added).noted 1 := .ended hwalk (by rw [hadded]; rfl) rfl
    exact hended.trans (oaWindowEnd_logs hfate (by rw [hadded]; exact hroom) h)
  · rename_i hgoes
    cases h
    rw [hadded]
    exact @Logs.added _ map.noted hwalk (Bool.eq_false_of_not_eq_true hgoes)

theorem oaWriteNew_logs (hfate : ∀ i, p.fate i = true) (hroom : Room map) {key val : List UInt8} {home : Nat}
    (h : oaWriteNew p map key val index home = some (map', index')) : Logs map.noted map'.noted 1 := by
  simp only [oaWriteNew, bind_eq_bind, bind_eq_some_iff] at h
  obtain ⟨⟨map₁, index₁⟩, hnote, h⟩ := h
  obtain ⟨hlogs, hwalk, hroom₁⟩ := @oaNoteDeepInsert_logs p { map with
    slots := Function.update map.slots index (some { keyData := oaWidenKey key, valData := oaWidenKey val })
    count := map.count + 1 } _ _ _ _ hfate hroom hnote
  exact hlogs.before (windowAdd_logs hfate hroom₁ hwalk rfl h)

theorem oaInsertWithGrowth_logs (hfate : ∀ i, p.fate i = true) (hroom : Room map) {key val : List UInt8} {home : Nat}
    {slotOut foundEmpty : Bool} {ans : OaAnswer}
    (h : oaInsertWithGrowth p map key val slotOut index home foundEmpty = some (map', ans)) :
    Logs map.noted map'.noted (if ans.ret = .success then 1 else 0) := by
  simp only [oaInsertWithGrowth, bind_eq_bind, bind_eq_some_iff] at h
  obtain ⟨⟨map₁, ret⟩, hrebuild, h⟩ := h
  have hlogs := oaRebuild_logs hrebuild
  rcases oaRebuild_cases hrebuild with ⟨rfl, hmap, -⟩ | ⟨rfl, -, hroom₁, -, -⟩
  · simp only [reduceCtorEq, ↓reduceIte] at h
    cases foundEmpty with
    | false =>
      cases h
      exact hlogs
    | true =>
      simp only [Bool.not_true, Bool.false_eq_true, ↓reduceIte, bind_eq_some_iff] at h
      obtain ⟨⟨map₂, index₂⟩, hwrite, h⟩ := h
      cases h
      have hroom₁ : Room map₁ := by
        rw [hmap]
        exact hroom
      exact hlogs.before (oaWriteNew_logs hfate hroom₁ hwrite)
  · simp only [↓reduceIte] at h
    split at h
    · cases h
      exact hlogs
    · simp only [bind_eq_some_iff] at h
      obtain ⟨⟨map₂, index₂⟩, hwrite, h⟩ := h
      cases h
      exact hlogs.before (oaWriteNew_logs hfate hroom₁ hwrite)

theorem oaInsertImpl_logs (hfate : ∀ i, p.fate i = true) (hroom : Room map) {key val : List UInt8} {slotOut : Bool}
    {ans : OaAnswer} (h : oaInsertImpl p map key val slotOut = some (map', ans)) :
    Logs map.noted map'.noted (if ans.ret = .success then 1 else 0) := by
  unfold oaInsertImpl at h
  dsimp only at h
  generalize insertProbe map (oaWidenKey key) (hashIndexFor (hashKeyData p map.hashMode key) map.capacity) map.capacity
    (hashIndexFor (hashKeyData p map.hashMode key) map.capacity) = r at h
  cases r with
  | hit index =>
    dsimp only at h
    cases slotOut with
    | true =>
      cases h
      exact .refl rfl
    | false =>
      cases h
      exact .refl rfl
  | empty index =>
    dsimp only at h
    split at h
    · cases h
      exact .refl rfl
    · split at h
      · exact oaInsertWithGrowth_logs hfate hroom h
      · simp only [bind_eq_bind, bind_eq_some_iff] at h
        obtain ⟨⟨map₁, index₁⟩, hwrite, h⟩ := h
        cases h
        exact oaWriteNew_logs hfate hroom hwrite
  | exhausted index =>
    dsimp only at h
    split at h
    · cases h
      exact .refl rfl
    · split at h
      · exact oaInsertWithGrowth_logs hfate hroom h
      · cases h
        exact .refl rfl

/-! ## The other calls -/

theorem oaDelete_logs {key : List UInt8} (h : oaDelete p map key = some (map', ret)) : Logs map.noted map'.noted 0 := by
  unfold oaDelete at h
  dsimp only at h
  generalize spanProbe map (oaWidenKey key) map.probeSpan (hashIndexFor (hashKeyData p map.hashMode key) map.capacity) = r at h
  cases r with
  | empty index =>
    cases h
    exact .refl rfl
  | exhausted index =>
    cases h
    exact .refl rfl
  | hit index =>
    simp only [bind_eq_bind, bind_eq_some_iff] at h
    obtain ⟨map₁, hgap, h⟩ := h
    have hkept : map₁.noted = map.noted := by
      split at hgap
      · simp only [oaBackwardShiftCloseGap, bind_eq_bind, bind_eq_some_iff] at hgap
        obtain ⟨slots, -, hgap⟩ := hgap
        cases hgap
        rfl
      · cases hgap
        rfl
    split at h
    · simp only [bind_eq_some_iff] at h
      obtain ⟨⟨map₂, ret₂⟩, hrebuild, h⟩ := h
      cases h
      have hlogs := oaRebuild_logs hrebuild
      exact hkept ▸ hlogs
    · cases h
      exact .refl hkept

theorem oaReset_restarted (map : OpenAddrMap) (newCapacity : Nat) : Restarted map (oaReset p map newCapacity).1 := by
  unfold oaReset
  split
  · exact ⟨rfl, rfl⟩
  · rename_i hother
    have halloc : ∃ n ok, oaAllocBlock p map newCapacity = ({ map with allocs := n }, ok) := by
      unfold oaAllocBlock
      split
      · exact ⟨map.allocs, false, rfl⟩
      · exact ⟨_, _, rfl⟩
    obtain ⟨n, ok, halloc⟩ := halloc
    rw [halloc]
    cases ok with
    | false => exact ⟨rfl, rfl⟩
    | true => exact ⟨rfl, rfl⟩

theorem chashmapReset_restarted (map : OpenAddrMap) (n : UInt64) : Restarted map (chashmapReset p map n).1 := by
  unfold chashmapReset
  dsimp only
  split
  · exact oaReset_restarted map _
  · split
    · split
      · exact oaReset_restarted (p := p) map 0
      · exact oaReset_restarted map _
    · exact oaReset_restarted map _

theorem OpenAddrMap.step_logs (hfate : ∀ i, p.fate i = true) (hroom : Room map) {op : OaOp} {ans : OaAnswer}
    (h : map.step p op = some (map', ans)) :
    Logs map.noted map'.noted (if op.inserts ∧ ans.ret = .success then 1 else 0) := by
  have hinsert : ∀ key val slotOut, chmapInsertElemImpl p map key val slotOut = some (map', ans) →
      Logs map.noted map'.noted (if ans.ret = .success then 1 else 0) := by
    intro key val slotOut hins
    rw [chmapInsertElemImpl] at hins
    split at hins
    · cases hins
      exact .refl rfl
    · exact oaInsertImpl_logs hfate hroom hins
  cases op with
  | insertElem key val => simpa only [OaOp.inserts, true_and] using hinsert key val false h
  | insertOrGetElem key val => simpa only [OaOp.inserts, true_and] using hinsert key val true h
  | getElemRef key =>
    cases h
    exact .refl rfl
  | deleteElem key =>
    simp only [OpenAddrMap.step, map_eq_some_iff] at h
    obtain ⟨⟨map₁, ret⟩, hdel, h⟩ := h
    cases h
    simp only [OaOp.inserts, Bool.false_eq_true, false_and, ↓reduceIte]
    rw [chashmapDeleteElem] at hdel
    split at hdel
    · cases hdel
      exact .refl rfl
    · exact oaDelete_logs hdel
  | reset n =>
    obtain ⟨hstart, hlog⟩ := chashmapReset_restarted (p := p) map n
    simp only [OpenAddrMap.step, some.injEq, Prod.mk.injEq] at h
    obtain ⟨rfl, -⟩ := h
    exact .restart hlog hstart

end Ccollections.Chashmap
