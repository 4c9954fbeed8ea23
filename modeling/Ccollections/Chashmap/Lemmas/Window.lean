import Ccollections.Chashmap.Lemmas.OaOps
import Ccollections.Chashmap.Lemmas.ScOps
import Ccollections.Chashmap.Window
import Mathlib.Algebra.Order.BigOperators.Group.List

/-!
# Every log of an abstract window is exact
-/

namespace Ccollections.Chashmap
open Lib List Option

variable {mode mode' mode'' : HashMode} {w w' w'' walk : Nat} {events events' : List WindowEvent}

theorem sinceRestart_restart (log : List WindowEvent) : sinceRestart (log ++ [.restart]) = [] := by
  rw [sinceRestart, foldl_append]
  rfl

theorem sinceRestart_added (log : List WindowEvent) (ended : Bool) :
    sinceRestart (log ++ [.added mode walk w ended]) = sinceRestart log ++ [walk] := by
  rw [sinceRestart, foldl_append]
  rfl

theorem countAdded_append (log log' : List WindowEvent) : countAdded (log ++ log') = countAdded log + countAdded log' :=
  countP_append ..

namespace Window

theorem Moves.refl : Moves mode w [] mode w := .nil

theorem Moves.trans (h : Moves mode w events mode' w') (h' : Moves mode' w' events' mode'' w'') :
    Moves mode w (events ++ events') mode'' w'' := h.append h'

theorem Moves.restart (mode : HashMode) (w : Nat) (mode' : HashMode) : Moves mode w [.restart] mode' chmapWindowStart :=
  .single .restart

theorem Moves.added (hwalk : mode = .fast → walk ≤ windowWalkMax) (hgoes : (chmapWindowAdd w walk).2 = false) :
    Moves mode w [.added mode walk (chmapWindowAdd w walk).1 (chmapWindowAdd w walk).2] mode (chmapWindowAdd w walk).1 := by
  have hstep : Step ⟨mode, w, false⟩ _ _ := .added hwalk
  exact .single (hgoes ▸ hstep : Step _ _ ⟨mode, (chmapWindowAdd w walk).1, false⟩)

theorem Moves.ended (hwalk : mode = .fast → walk ≤ windowWalkMax)
    (hrest : Moves mode' chmapWindowStart events mode'' w'') :
    Moves mode w (.added mode walk (chmapWindowAdd w walk).1 (chmapWindowAdd w walk).2 :: .restart :: events) mode'' w'' :=
  .cons (.added hwalk) (.cons .restart hrest)

/-- What of a map its window is about. -/
structure Noted where
  mode : HashMode
  insertWindow : Nat
  log : List WindowEvent

/-- The log grows from the one to the other by moves of the window, with `n` inserts among them. -/
def Logs (noted noted' : Noted) (n : Nat) : Prop :=
  ∃ events, noted'.log = noted.log ++ events ∧ countAdded events = n ∧
    Moves noted.mode noted.insertWindow events noted'.mode noted'.insertWindow

section Logs

variable {noted noted' noted'' : Noted} {n m : Nat}

theorem Logs.refl (h : noted' = noted) : Logs noted noted' 0 := ⟨[], by rw [h, append_nil], rfl, h ▸ .refl⟩

theorem Logs.trans (h : Logs noted noted' n) (h' : Logs noted' noted'' m) : Logs noted noted'' (n + m) := by
  obtain ⟨events, hlog, hcount, hmoves⟩ := h
  obtain ⟨events', hlog', hcount', hmoves'⟩ := h'
  refine ⟨events ++ events', ?_, ?_, hmoves.trans hmoves'⟩
  · rw [hlog', hlog, append_assoc]
  · rw [countAdded_append, hcount, hcount']

theorem Logs.before (h : Logs noted noted' 0) (h' : Logs noted' noted'' n) : Logs noted noted'' n :=
  Nat.zero_add n ▸ h.trans h'

theorem Logs.restart (hlog : noted'.log = noted.log ++ [.restart]) (hstart : noted'.insertWindow = chmapWindowStart) :
    Logs noted noted' 0 :=
  ⟨[.restart], hlog, rfl, hstart ▸ .restart ..⟩

/-- An insert that ends no window. -/
theorem Logs.added (hwalk : noted.mode = .fast → walk ≤ windowWalkMax)
    (hgoes : (chmapWindowAdd noted.insertWindow walk).2 = false) :
    Logs noted
      ⟨noted.mode, (chmapWindowAdd noted.insertWindow walk).1, noted.log ++
        [.added noted.mode walk (chmapWindowAdd noted.insertWindow walk).1 (chmapWindowAdd noted.insertWindow walk).2]⟩ 1 :=
  ⟨_, rfl, rfl, .added hwalk hgoes⟩

/-- An insert that ends its window, and the restart behind it. -/
theorem Logs.ended (hwalk : noted.mode = .fast → walk ≤ windowWalkMax)
    (hlog : noted'.log = noted.log ++ [.added noted.mode walk (chmapWindowAdd noted.insertWindow walk).1
      (chmapWindowAdd noted.insertWindow walk).2] ++ [.restart])
    (hstart : noted'.insertWindow = chmapWindowStart) : Logs noted noted' 1 :=
  ⟨_, hlog.trans (append_assoc ..), rfl, hstart ▸ .ended hwalk .refl⟩

/-- What the calls of a run log, of which `inserts` says whether they insert and `ret` what they answered. -/
structure LogSpec {ι ο : Type} (inserts : ι → Bool) (ret : ο → RetVal) (noted : Noted) (op : ι)
    (call : ο × List WindowEvent) (noted' : Noted) : Prop where
  count : countAdded call.2 = if inserts op ∧ ret call.1 = .success then 1 else 0
  moves : Moves noted.mode noted.insertWindow call.2 noted'.mode noted'.insertWindow

theorem Logs.spec {ι ο : Type} {inserts : ι → Bool} {ret : ο → RetVal} {op : ι} {ans : ο}
    (h : Logs noted noted' (if inserts op ∧ ret ans = .success then 1 else 0)) :
    LogSpec inserts ret noted op (ans, noted'.log.drop noted.log.length) noted' := by
  obtain ⟨events, hlog, hcount, hmoves⟩ := h
  rw [hlog, drop_left]
  exact ⟨hcount, hmoves⟩

theorem LogSpec.run {ι ο : Type} {inserts : ι → Bool} {ret : ο → RetVal} {ops : List ι} {calls : List (ο × List WindowEvent)}
    (h : Allows (LogSpec inserts ret) noted ops calls noted') :
    Moves noted.mode noted.insertWindow (calls.flatMap Prod.snd) noted'.mode noted'.insertWindow ∧
      List.Forall₂ (fun op call => countAdded call.2 = if inserts op ∧ ret call.1 = .success then 1 else 0) ops calls := by
  induction h with
  | nil => exact ⟨.refl, .nil⟩
  | cons hstep _ ih =>
    obtain ⟨hrest, hcounts⟩ := ih
    exact ⟨hstep.moves.trans hrest, .cons hstep.count hcounts⟩

end Logs

theorem Moves.lastWord (h : Moves mode w (.restart :: events) mode' w') : w' = lastWord (.restart :: events) := by
  cases h with
  | cons hstep hrest =>
    cases hstep
    refine hrest.invariant (P := fun window seen => window.insertWindow = Chashmap.lastWord (.restart :: seen)) rfl ?_
    intro m seen e m' _ hstep
    rw [Chashmap.lastWord, ← cons_append, List.getLast?_concat]
    cases hstep <;> rfl

/-! ## Exactness -/

structure Exact (window : Window) (since : List Nat) : Prop where
  length_le : since.length ≤ chmapWindowInserts
  due : window.due = true ↔ since.length = chmapWindowInserts
  walks : ∀ walk ∈ since, walk ≤ windowWalkMax
  ended : window.due = true → window.insertWindow = since.sum
  counts : window.due = false → window.insertWindow = chmapWindowStart + chmapWindowStep * since.length + since.sum

theorem Exact.restart : Exact ⟨mode, chmapWindowStart, false⟩ [] where
  length_le := Nat.zero_le _
  due := ⟨nofun, nofun⟩
  walks := nofun
  ended := nofun
  counts := fun _ => rfl

/-- 256 short walks add up to less than one step of the counter, so the word carries with the 256th. -/
theorem Exact.add {since : List Nat} (h : Exact ⟨mode, w, false⟩ since) (hwalk : walk ≤ windowWalkMax) :
    Exact ⟨mode, (chmapWindowAdd w walk).1, (chmapWindowAdd w walk).2⟩ (since ++ [walk]) := by
  have hlt : since.length < chmapWindowInserts := by
    apply Nat.lt_of_le_of_ne h.length_le
    intro heq
    exact absurd (h.due.mpr heq) Bool.false_ne_true
  have hw : w = chmapWindowStart + chmapWindowStep * since.length + since.sum := h.counts rfl
  have hsum : since.sum ≤ since.length * windowWalkMax := by
    simpa using sum_le_card_nsmul since windowWalkMax h.walks
  have hinserts : chmapWindowInserts = 256 := rfl
  have hmax : windowWalkMax = 288 := rfl
  have hstart : chmapWindowStart = 2 ^ 31 := rfl
  have hstep : chmapWindowStep = 2 ^ 23 := rfl
  have hadd : (chmapWindowStep + walk % 2 ^ 32) % 2 ^ 32 = chmapWindowStep + walk := by
    rw [Nat.mod_eq_of_lt (by omega : walk < 2 ^ 32), Nat.mod_eq_of_lt (by omega)]
  rw [hstart, hstep] at hw
  rw [hmax] at hsum hwalk
  rw [hinserts] at hlt
  have hcarry : (chmapWindowAdd w walk).2 = true ↔ (since ++ [walk]).length = chmapWindowInserts := by
    simp only [chmapWindowAdd, hadd, decide_eq_true_eq, length_append, length_singleton]
    omega
  refine ⟨?_, hcarry, ?_, ?_, ?_⟩
  · rw [length_append, length_singleton, hinserts]
    omega
  · intro walk' hmem
    rcases mem_append.mp hmem with hmem | hmem
    · exact h.walks walk' hmem
    · rw [mem_singleton.mp hmem, hmax]
      exact hwalk
  · intro hended
    have hlen := hcarry.mp hended
    simp only [length_append, length_singleton] at hlen
    simp only [chmapWindowAdd, hadd, sum_append, sum_singleton]
    omega
  · intro hgoes
    have hlen : ¬(since ++ [walk]).length = chmapWindowInserts := fun heq => by
      rw [hcarry.mpr heq] at hgoes
      cases hgoes
    simp only [length_append, length_singleton] at hlen
    simp only [chmapWindowAdd, hadd, sum_append, sum_singleton, length_append, length_singleton]
    rw [hstart, hstep]
    omega

theorem exact_of_path {window window' : Window} (h : Path Step window (.restart :: events) window') (hfast : window'.mode = .fast) :
    Exact window' (sinceRestart (.restart :: events)) := by
  cases h with
  | cons hstep hrest =>
    cases hstep
    revert hfast
    refine hrest.invariant (P := fun window seen => window.mode = .fast → Exact window (sinceRestart (.restart :: seen)))
      (fun _ => .restart) ?_
    intro m seen e m' hexact hstep hfast
    rw [← cons_append]
    cases hstep with
    | restart =>
      rw [sinceRestart_restart]
      exact .restart
    | added hwalk =>
      rw [sinceRestart_added]
      exact (hexact hfast).add (hwalk hfast)

theorem Moves.windowsExact (h : Moves mode w (.restart :: events) mode' w') : WindowsExact (.restart :: events) := by
  intro before walk insertWindow ended after hlog
  cases before with
  | nil => cases hlog
  | cons e before =>
    obtain rfl : e = .restart := (List.cons.inj hlog).1.symm
    rw [Moves, hlog] at h
    obtain ⟨m, m', hbefore, hstep, -⟩ := h.split
    have hpath := hbefore.append (.single hstep)
    rw [cons_append] at hpath
    cases hstep
    have hexact := exact_of_path hpath rfl
    rw [← cons_append, sinceRestart_added] at hexact
    exact ⟨hexact.length_le, hexact.due, hexact.ended, hexact.counts⟩

end Window

/-!
# What the counters of a fast attempt come to
-/

section OpenAddressing

variable {p : OaParams} {slots : Nat → Option OaSlot} {capacity cap budget n : Nat}

theorem attemptProbe_work : (left index displacement work : Nat) →
    (∀ index' d, (attemptProbe slots capacity left index displacement work).1 = some (index', d) → d ≤ displacement + left ∧
        (attemptProbe slots capacity left index displacement work).2 + displacement = work + d + 1) ∧
      (attemptProbe slots capacity left index displacement work).2 ≤ work + left + 1
  | left, index, displacement, work => by
    unfold attemptProbe
    by_cases hocc : (slots index).isSome
    · simp only [if_pos hocc]
      cases left with
      | zero =>
        refine ⟨?_, Nat.le_refl _⟩
        intro index' d hd
        cases hd
      | succ left =>
        obtain ⟨hfound, hle⟩ := attemptProbe_work left (nextIndex capacity index) (displacement + 1) (work + 1)
        dsimp only
        refine ⟨?_, by omega⟩
        intro index' d hd
        have hstep := hfound index' d hd
        omega
    · simp only [if_neg hocc]
      refine ⟨?_, by omega⟩
      intro index' d hd
      cases hd
      omega

theorem attemptLoop_work : (todo : List OaSlot) → (slots : Nat → Option OaSlot) → (largest sum work : Nat) →
    work + todo.length ≤ n + sum → sum ≤ budget →
    (attemptLoop p capacity cap budget todo slots largest sum work).2 ≤ n + budget + cap
  | [], _, _, sum, work, hwork, hsum => by
    rw [length_nil] at hwork
    unfold attemptLoop
    omega
  | slot :: todo, slots, largest, sum, work, hwork, hsum => by
    obtain ⟨hfound, hle⟩ : _ ∧ (attemptProbe slots capacity cap
      (hashIndexFor (hashKeyData p .fast slot.keyData) capacity) 0 work).2 ≤ work + cap + 1 := attemptProbe_work ..
    rw [length_cons] at hwork
    unfold attemptLoop
    dsimp only
    revert hfound hle
    cases attemptProbe slots capacity cap (hashIndexFor (hashKeyData p .fast slot.keyData) capacity) 0 work with
    | mk found work' =>
      intro hfound hle
      cases found with
      | none =>
        dsimp only at hle ⊢
        omega
      | some found =>
        obtain ⟨index, d⟩ := found
        obtain ⟨hd, hcost⟩ := hfound index d rfl
        dsimp only at hcost ⊢
        split
        · omega
        · exact attemptLoop_work todo _ _ _ _ (by omega) (by omega)

theorem oaPlaceAllFastAttemptWork_le {map : OpenAddrMap} (hm : TableOk p map) (newCapacity : Nat) :
    (oaPlaceAllFastAttemptWork p map newCapacity).2 ≤ map.count + (map.count + 64) + oaInsertCap newCapacity := by
  apply attemptLoop_work map.live _ _ _ _ _ (Nat.zero_le _)
  rw [Nat.zero_add, Nat.add_zero, hm.count]

end OpenAddressing

namespace Sc

variable {p : ScParams} {size budget fuel stop : Nat} {t : Option Nat} {nodes : Nodes} {arr : Buckets} {rest : List Nat}
  {work work' : RetryWork}

theorem attemptChain_le {left chain chain' : Nat} (h : attemptChain nodes left t chain = some chain') : chain' ≤ chain + left := by
  induction left generalizing t chain with
  | zero =>
    cases h
    exact Nat.le_refl _
  | succ left ih =>
    cases t with
    | none =>
      cases h
      exact Nat.le_add_right _ _
    | some id =>
      simp only [attemptChain, bind_eq_bind, bind_eq_some_iff] at h
      obtain ⟨node, -, hrest⟩ := h
      have hle := ih hrest
      omega

theorem prevOf_linkNode (id : Nat) (node : LlistNode) (hnode : prevOf nodes id = node.dllPrev) (b : Nat) :
    prevOf (linkNode size nodes arr id node).1 b = prevOf nodes b := by
  by_cases hb : b = id
  · subst hb
    rw [hnode, prevOf, linkNode]
    simp only [Function.update_self, bind_some]
  · rw [prevOf, linkNode]
    simp only [Function.update_of_ne hb, prevOf]

/-- An attempt hashes each node at most once, and what it walked before its last node is within the budget. -/
theorem attemptLoop_work {nodes' : Nodes} {arr' : Buckets} {stop : Option Nat} (hseg : Seg (prevOf nodes) t rest none)
    (hwalked : work.walked ≤ budget)
    (h : attemptLoop p size budget fuel t nodes arr work = some ((nodes', arr', stop), work')) :
    work'.hashed ≤ work.hashed + rest.length ∧ work'.walked ≤ budget + (scChainCap - 1) ∧ work'.restored = work.restored ∧
      ∀ b, prevOf nodes' b = prevOf nodes b := by
  induction rest generalizing fuel t nodes arr work with
  | nil =>
    cases hseg
    have hend : attemptLoop p size budget fuel none nodes arr work = some ((nodes, arr, none), work) := by
      cases fuel <;> rfl
    rw [hend] at h
    cases h
    exact ⟨Nat.le_refl _, by omega, rfl, fun _ => rfl⟩
  | cons id rest ih =>
    obtain ⟨rfl, hseg⟩ := hseg
    cases fuel with
    | zero => cases h
    | succ fuel =>
      simp only [attemptLoop, bind_eq_bind, bind_eq_some_iff] at h
      obtain ⟨node, hnode, chain, hchain, h⟩ := h
      have hle := attemptChain_le hchain
      have hprev : prevOf nodes id = node.dllPrev := by rw [prevOf, hnode, bind_some]
      split at h
      · cases h
        refine ⟨?_, ?_, rfl, ?_⟩
        · rw [length_cons]
          dsimp only
          omega
        · dsimp only
          omega
        · intro b
          by_cases hb : b = id
          · subst hb
            rw [hprev, prevOf, Function.update_self, bind_some]
          · rw [prevOf, Function.update_of_ne hb, prevOf]
      · rename_i hgoes
        rw [linkNode_update] at h
        rw [hprev] at hseg
        have hkept := @prevOf_linkNode size _ arr id
          { node with hashVal := scHashOfNode p node .fast } hprev
        obtain ⟨hhashed, hwalked', hrestored, hprevs⟩ :=
          ih (hseg.congr fun b _ => hkept b) (by dsimp only; omega) h
        refine ⟨?_, hwalked', hrestored, fun b => (hprevs b).trans (hkept b)⟩
        rw [length_cons]
        dsimp only at hhashed
        omega

theorem restoreLoop_work {nodes' : Nodes} {arr' : Buckets} {holdsFast : Bool} (hseg : Seg (prevOf nodes) t rest none)
    (h : restoreLoop p size stop fuel t holdsFast nodes arr work = some ((nodes', arr'), work')) :
    work'.hashed = work.hashed ∧ work'.walked = work.walked ∧ work'.restored ≤ work.restored + rest.length := by
  induction rest generalizing fuel t nodes arr holdsFast work with
  | nil =>
    cases hseg
    have hend : restoreLoop p size stop fuel none holdsFast nodes arr work = some ((nodes, arr), work) := by
      cases fuel <;> rfl
    rw [hend] at h
    cases h
    exact ⟨rfl, rfl, Nat.le_refl _⟩
  | cons id rest ih =>
    obtain ⟨rfl, hseg⟩ := hseg
    cases fuel with
    | zero => cases h
    | succ fuel =>
      simp only [restoreLoop, bind_eq_bind, bind_eq_some_iff] at h
      obtain ⟨node, hnode, h⟩ := h
      have hprev : prevOf nodes id = node.dllPrev := by rw [prevOf, hnode, bind_some]
      rw [hprev] at hseg
      rw [length_cons]
      cases holdsFast with
      | false =>
        obtain ⟨hhashed, hwalked, hrestored⟩ := ih (hseg.congr fun b _ => prevOf_linkNode id node hprev b) h
        exact ⟨hhashed, hwalked, Nat.le_trans hrestored (Nat.le_succ _)⟩
      | true =>
        obtain ⟨hhashed, hwalked, hrestored⟩ :=
          ih (hseg.congr fun b _ => prevOf_linkNode id { node with hashVal := scHashOfNode p node .keyed } hprev b) h
        refine ⟨hhashed, hwalked, ?_⟩
        simp only [↓reduceIte] at hrestored
        omega

theorem scRelinkFastAttemptWork_le {map : SepChainMap} {order : List Nat} (hm : ScOk p map order) {newSize : Nat}
    {result : Nodes × Buckets × Bool} (h : scRelinkFastAttemptWork p map newSize = some (result, work)) :
    work.hashed ≤ map.elemCount ∧ work.walked ≤ map.elemCount + scAttemptSlack + (scChainCap - 1) ∧
      work.restored ≤ map.elemCount := by
  simp only [scRelinkFastAttemptWork, bind_eq_bind, bind_eq_some_iff] at h
  obtain ⟨⟨⟨nodes, arr, stop⟩, work₁⟩, hattempt, h⟩ := h
  obtain ⟨hhashed, hwalked, hrestored, hprevs⟩ := attemptLoop_work hm.ordered.prev (Nat.zero_le _) hattempt
  rw [hm.count, Nat.zero_add] at *
  cases stop with
  | none =>
    cases h
    exact ⟨hhashed, hwalked, hrestored ▸ Nat.zero_le _⟩
  | some stop =>
    simp only [bind_eq_some_iff] at h
    obtain ⟨⟨⟨nodes', arr'⟩, work₂⟩, hrestore, h⟩ := h
    cases h
    obtain ⟨hhashed', hwalked', hrestored'⟩ :=
      restoreLoop_work (hm.ordered.prev.congr fun b _ => hprevs b) hrestore
    rw [hrestored, Nat.zero_add] at hrestored'
    exact ⟨hhashed' ▸ hhashed, hwalked' ▸ hwalked, hrestored'⟩

end Sc

end Ccollections.Chashmap
