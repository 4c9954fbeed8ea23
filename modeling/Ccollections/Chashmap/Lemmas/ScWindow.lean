import Ccollections.Chashmap.Window
import Ccollections.Chashmap.Lemmas.Window
import Ccollections.Chashmap.Theorems.OpenAddressing

/-!
# The logs of a separate-chaining map are logs of a window

A switch in place cannot fail, so in the fast mode an insert adds a walk of less than `SC_CHAIN_CAP` nodes.
-/

namespace Ccollections.Chashmap.Sc
open Lib Window Option

variable {p : ScParams} {map map' : SepChainMap} {order : List Nat} {id index walk : Nat}

def SepChainMap.noted (map : SepChainMap) : Noted := ⟨map.hashMode, map.insertWindow, map.windowLog⟩

/-! ## Switching and scaling -/

theorem scSwitchToKeyed_restarted (h : scSwitchToKeyed p map = some map') :
    map'.hashMode = .keyed ∧ Restarted map map' := by
  simp only [scSwitchToKeyed, bind_eq_bind, bind_eq_some_iff] at h
  obtain ⟨⟨nodes, arr⟩, -, h⟩ := h
  cases h
  exact ⟨rfl, rfl, rfl⟩

theorem scSwitchToKeyed_logs (h : scSwitchToKeyed p map = some map') : Logs map.noted map'.noted 0 := by
  obtain ⟨-, hstart, hlog⟩ := scSwitchToKeyed_restarted h
  exact .restart hlog hstart

theorem scNoteLongChain_logs (h : (if walk ≥ scChainCap then scNoteLongChain p map else some map) = some map') :
    Logs map.noted map'.noted 0 ∧ (map'.hashMode = .fast → walk ≤ windowWalkMax) := by
  have hcap : scChainCap = 20 := rfl
  have hmax : windowWalkMax = 288 := rfl
  split at h
  · rw [scNoteLongChain] at h
    split at h
    · refine ⟨scSwitchToKeyed_logs h, fun hmode => ?_⟩
      rw [(scSwitchToKeyed_restarted h).1] at hmode
      cases hmode
    · rename_i hkeyed
      cases h
      refine ⟨.refl rfl, fun hmode => ?_⟩
      rw [hmode] at hkeyed
      exact absurd (by decide) hkeyed
  · cases h
    exact ⟨.refl rfl, fun _ => by omega⟩

theorem scWindowEnd_logs (h : scWindowEnd p map = some map') : Logs (scWindowRestart map).noted map'.noted 0 := by
  unfold scWindowEnd at h
  dsimp only at h
  split at h
  · exact scSwitchToKeyed_logs h
  · cases h
    exact .refl rfl

theorem scRelink_kept {newSize longest : Nat} {up : Bool} (h : scRelink p map newSize up = some (map', longest)) :
    map'.windowLog = map.windowLog := by
  rw [scRelink] at h
  split at h
  · simp only [bind_eq_bind, bind_eq_some_iff] at h
    obtain ⟨⟨nodes, arr, fast⟩, -, h⟩ := h
    cases h
    rfl
  · simp only [bind_eq_bind, bind_eq_some_iff] at h
    obtain ⟨⟨nodes, arr, longest'⟩, -, h⟩ := h
    cases h
    rfl

theorem scScale_logs {up : Bool} (h : scScale p map up = some map') : Logs map.noted map'.noted 0 := by
  unfold scScale at h
  split at h
  · cases h
    exact .refl rfl
  · obtain ⟨n, ok, halloc⟩ := bucketsFor_cases p map (scaledSize map.bucketArrSize up)
    dsimp only at h
    rw [halloc] at h
    cases ok with
    | false =>
      cases h
      exact .refl rfl
    | true =>
      dsimp only at h
      split at h
      · cases h
      · simp only [bind_eq_bind, bind_eq_some_iff] at h
        obtain ⟨⟨map₁, longest⟩, hrelink, h⟩ := h
        have hkept := scRelink_kept hrelink
        dsimp only at h
        generalize hscaled : scWindowRestart (scSetScalingLimits { map₁ with
          bucketArrSize := scaledSize map.bucketArrSize up
          usesInline := decide (scaledSize map.bucketArrSize up = map₁.inlineBuckets) }) = scaled at h
        have hrestart : Logs map.noted scaled.noted 0 := by
          subst hscaled
          exact .restart (congrArg (· ++ [WindowEvent.restart]) hkept) rfl
        split at h
        · exact hrestart.before (scSwitchToKeyed_logs h)
        · cases h
          exact hrestart

/-! ## Inserts -/

theorem windowAdd_logs (hwalk : map.hashMode = .fast → walk ≤ windowWalkMax) {added : SepChainMap}
    (hadded : added = { map with
      insertWindow := (chmapWindowAdd map.insertWindow walk).1
      windowLog := map.windowLog ++ [.added map.hashMode walk (chmapWindowAdd map.insertWindow walk).1
        (chmapWindowAdd map.insertWindow walk).2] })
    (h : (if (chmapWindowAdd map.insertWindow walk).2 then scWindowEnd p added else some added) = some map') :
    Logs map.noted map'.noted 1 := by
  split at h
  · have hended : Logs map.noted (scWindowRestart added).noted 1 := .ended hwalk (by rw [hadded]; rfl) rfl
    exact hended.trans (scWindowEnd_logs h)
  · rename_i hgoes
    cases h
    rw [hadded]
    exact @Logs.added _ map.noted hwalk (Bool.eq_false_of_not_eq_true hgoes)

theorem scLinkNew_logs (h : scLinkNew p map id index walk = some map') : Logs map.noted map'.noted 1 := by
  simp only [scLinkNew, scLinkNewUnscaled, bind_eq_bind, bind_eq_some_iff] at h
  obtain ⟨map₂, ⟨node, hnode, map₁, hnote, hadd⟩, hscale⟩ := h
  obtain ⟨hlogs, hwalk⟩ := scNoteLongChain_logs hnote
  have hlinked : Logs map.noted map₂.noted 1 := hlogs.before (windowAdd_logs hwalk rfl hadd)
  split at hscale
  · exact hlinked.trans (scScale_logs hscale)
  · cases hscale
    exact hlinked

theorem scInsertImpl_logs (hm : ScOk p map order) {key val : List UInt8} {slots : Slots} {aliased : Bool} {ans : ScAnswer}
    (h : scInsertImpl p map key val slots aliased = some (map', ans)) :
    Logs map.noted map'.noted (if ans.ret = .success then 1 else 0) := by
  simp only [scInsertImpl, bind_eq_bind, bind_eq_some_iff] at h
  obtain ⟨⟨existing, walk⟩, hfind, h⟩ := h
  cases existing with
  | some id =>
    have hkept : map'.noted = map.noted ∧ ans.ret ≠ .success := by
      dsimp only at h
      split at h
      · rename_i hslots
        simp only [bind_eq_some_iff] at h
        obtain ⟨⟨map₁, ok⟩, hreset, h⟩ := h
        cases h
        constructor
        · cases hnode : map.nodes id with
          | none => simp [scResetValOfLlistNode, hnode] at hreset
          | some node =>
            obtain ⟨n, ⟨heq, -⟩ | heq⟩ := scResetValOfLlistNode_spec (p := p) hnode val aliased
            · rw [heq] at hreset
              cases hreset
              rfl
            · rw [heq] at hreset
              cases hreset
              rfl
        · cases ok <;> rintro ⟨⟩
      · simp only [bind_eq_some_iff] at h
        obtain ⟨node, -, h⟩ := h
        cases h
        cases slots
        all_goals
          refine ⟨rfl, ?_⟩
          rintro ⟨⟩
    rw [if_neg hkept.2]
    exact .refl hkept.1
  | none =>
    dsimp only at h
    split at h
    · cases h
      exact .refl rfl
    · obtain ⟨n, ⟨hcreate, -⟩ | ⟨nodes', head', tail', node, hcreate, -⟩⟩ :=
        scCreateLlistNode_spec hm (p.hash map.hashMode key) key val
      · simp only [hcreate, bind_some] at h
        cases h
        exact .refl rfl
      · simp only [hcreate, bind_some, bind_eq_some_iff] at h
        obtain ⟨map₁, hlink, node', -, h⟩ := h
        cases h
        have hlogs := scLinkNew_logs hlink
        cases slots <;> exact hlogs

/-! ## The other calls -/

theorem scDelete_logs (hm : ScOk p map order) {key : List UInt8} {ret : RetVal} (h : scDelete p map key = some (map', ret)) :
    Logs map.noted map'.noted 0 := by
  simp only [scDelete, bind_eq_bind, bind_eq_some_iff] at h
  obtain ⟨⟨map₁, head, found⟩, hdel, h⟩ := h
  have hkept : map₁.noted = map.noted := by
    obtain ⟨chains, hchain⟩ := hm.chain key
    rcases scDeleteFromLlist_spec (hits p (p.hash map.hashMode key) key)
        (map.bucketArr (hashIndexFor (p.hash map.hashMode key) map.bucketArrSize)) [] (hchain.seg _ hchain.lt) hchain.live
        (hchain.length_le hm) with
      ⟨hloop, -⟩ | ⟨c₁, id, c₂, node, hsplit, hnode, -, hloop⟩
    · rw [List.getLast?_nil, hdel] at hloop
      cases hloop
      rfl
    · have hmem : id ∈ order := mem_chain hchain.all hchain.lt (hsplit ▸ List.mem_append_right _ List.mem_cons_self)
      obtain ⟨o₁, o₂, horder⟩ := List.append_of_mem hmem
      obtain ⟨nodes', head', tail', newHead, hunlink, -⟩ := scUnlinkAndDestroy_spec hm hchain hsplit horder
      rw [List.getLast?_nil, List.nil_append, hdel, hunlink] at hloop
      cases hloop
      rfl
  cases found with
  | false =>
    cases h
    exact .refl hkept
  | true =>
    simp only [↓reduceIte] at h
    split at h
    · simp only [bind_eq_some_iff] at h
      obtain ⟨map₂, hscale, h⟩ := h
      cases h
      have hlogs := scScale_logs hscale
      exact hkept ▸ hlogs
    · cases h
      exact .refl hkept

theorem SepChainMap.step_logs (hm : ScOk p map order) {op : ScOp} {ans : ScAnswer} (h : map.step p op = some (map', ans)) :
    Logs map.noted map'.noted (if op.inserts ∧ ans.ret = .success then 1 else 0) := by
  have hinsert : ∀ key val slots aliased, chmapInsertElemImpl p map key val slots aliased = some (map', ans) →
      Logs map.noted map'.noted (if ans.ret = .success then 1 else 0) := by
    intro key val slots aliased hins
    rw [chmapInsertElemImpl] at hins
    split at hins
    · cases hins
      exact .refl rfl
    · exact scInsertImpl_logs hm hins
  cases op with
  | insertElem key val aliased => simpa only [ScOp.inserts, true_and] using hinsert key val .none aliased h
  | insertOrGetElem key val => simpa only [ScOp.inserts, true_and] using hinsert key val .val false h
  | insertOrGetEntry key val => simpa only [ScOp.inserts, true_and] using hinsert key val .keyAndVal false h
  | getElemRef key =>
    simp only [SepChainMap.step, map_eq_some_iff] at h
    obtain ⟨ans', -, h⟩ := h
    cases h
    exact .refl rfl
  | deleteElem key =>
    simp only [SepChainMap.step, map_eq_some_iff] at h
    obtain ⟨⟨map₁, ret⟩, hdel, h⟩ := h
    cases h
    simp only [ScOp.inserts, Bool.false_eq_true, false_and, ↓reduceIte]
    rw [chashmapDeleteElem] at hdel
    split at hdel
    · cases hdel
      exact .refl rfl
    · exact scDelete_logs hm hdel
  | reset n =>
    obtain ⟨map₁, ret, hreset, -, -, hstart, hlog⟩ := chashmapReset_spec hm n
    simp only [SepChainMap.step, hreset, map_some, some.injEq, Prod.mk.injEq] at h
    obtain ⟨rfl, -⟩ := h
    exact .restart hlog hstart

end Ccollections.Chashmap.Sc
