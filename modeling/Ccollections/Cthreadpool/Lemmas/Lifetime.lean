import Ccollections.Cthreadpool.Lemmas.Future

/-!
# The count of the references and the end of a future
-/

namespace Ccollections.Cthreadpool
open Lib Function

variable {α τ : Type} [DecidableEq τ] {o : Origin} {st st' : State τ α} {a : Action τ α}

/-! ## The count -/

def State.callerRef (st : State τ α) : Nat := if st.caller = .freed then 0 else 1

def State.producerRef (st : State τ α) : Nat := if st.future.done then 0 else 1

def Counted (st : State τ α) : Prop :=
  ∃ ws : Finset τ, (∀ t, t ∈ ws ↔ (st.pc t).waits = true) ∧ st.future.refcount = ws.card + st.callerRef + st.producerRef

theorem Counted.frame (h : Counted st) (hwaits : ∀ u, (st'.pc u).waits = (st.pc u).waits)
    (hrefs : st'.future.refcount - st'.callerRef - st'.producerRef = st.future.refcount - st.callerRef - st.producerRef) :
    Counted st' := by
  obtain ⟨ws, hws, hcard⟩ := h
  refine ⟨ws, fun u => ?_, by omega⟩
  rw [hwaits]
  exact hws u

theorem Counted.enter (h : Counted st) {t : τ} (hout : (st.pc t).waits = false) (hin : (st'.pc t).waits = true)
    (hothers : ∀ u, u ≠ t → (st'.pc u).waits = (st.pc u).waits)
    (hrefs : st'.future.refcount - st'.callerRef - st'.producerRef = st.future.refcount - st.callerRef - st.producerRef + 1) :
    Counted st' := by
  obtain ⟨ws, hws, hcard⟩ := h
  have ht : t ∉ ws := by simp [hws, hout]
  refine ⟨insert t ws, fun u => ?_, ?_⟩
  · by_cases hut : u = t
    · simp [hut, hin]
    · simp [hut, hws, hothers u hut]
  · rw [Finset.card_insert_of_notMem ht]
    omega

theorem Counted.leave (h : Counted st) {t : τ} (hin : (st.pc t).waits = true) (hout : (st'.pc t).waits = false)
    (hothers : ∀ u, u ≠ t → (st'.pc u).waits = (st.pc u).waits)
    (hrefs : st'.future.refcount - st'.callerRef - st'.producerRef + 1 = st.future.refcount - st.callerRef - st.producerRef) :
    Counted st' := by
  obtain ⟨ws, hws, hcard⟩ := h
  have ht : t ∈ ws := (hws t).mpr hin
  refine ⟨ws.erase t, fun u => ?_, ?_⟩
  · by_cases hut : u = t
    · simp [hut, hout]
    · simp [hut, hws, hothers u hut]
  · have herase := Finset.card_erase_add_one ht
    omega

theorem Counted.step (h : Counted st) (hfreeing : Freeing st) (hm : Moved o st a st') : Counted st' := by
  cases hm with
  | @call t op hpc hmay =>
    apply h.frame
    · grind [Pc.waits]
    · cases op <;> grind [State.callerRef, State.producerRef, mayCall_other, Op.completion, Op.isFree]
  | sleep hpc hdone =>
    apply h.enter
    · rw [hpc]
      rfl
    · grind [Pc.waits]
    · grind
    · grind [State.callerRef, State.producerRef]
  | got hpc hdone =>
    apply h.leave
    · rw [hpc]
      rfl
    · grind [Pc.waits]
    · grind
    · grind [State.callerRef, State.producerRef]
  | @free t hpc =>
    have hc : st.caller = .freeing t := (hfreeing t).mpr (by rw [hpc]; rfl)
    apply h.frame
    · grind [Pc.waits]
    · grind [State.callerRef, State.producerRef]
  | _ =>
    apply h.frame
    · grind [Pc.waits]
    · grind [State.callerRef, State.producerRef, Future.complete]

theorem Counted.nonneg (h : Counted st) : 0 ≤ st.future.refcount := by
  obtain ⟨ws, -, hcard⟩ := h
  omega

theorem Counted.of_zero (h : Counted st) (hzero : st.future.refcount = 0) :
    st.caller = .freed ∧ st.future.done = true ∧ ∀ u, (st.pc u).waits = false := by
  obtain ⟨ws, hws, hcard⟩ := h
  have hempty : ws = ∅ := Finset.card_eq_zero.mp (by omega)
  refine ⟨?_, ?_, fun u => ?_⟩
  · by_contra hc
    simp only [State.callerRef, hc, ↓reduceIte] at hcard
    omega
  · by_contra hd
    simp only [State.producerRef, hd, ↓reduceIte] at hcard
    omega
  · have hu := hws u
    simpa [hempty] using hu

/-! ## The end -/

inductive Phase (st : State τ α) : Prop
  | alive (hpos : 0 < st.future.refcount) (hnone : st.destroyed = []) (hlast : ∀ t, (st.pc t).last = false)
  | ending (t : τ) (hlast : (st.pc t).last = true) (hzero : st.future.refcount = 0) (hnone : st.destroyed = [])
      (hdrop : st.lastDrop = some t) (hidle : ∀ u, u ≠ t → st.pc u = .idle)
  | ended (t : τ) (hzero : st.future.refcount = 0) (hdestroyed : st.destroyed = [t]) (hdrop : st.lastDrop = some t)
      (hidle : ∀ u, st.pc u = .idle)

structure Shared (o : Origin) (st : State τ α) : Prop where
  exclusive : Exclusive st
  freeing : Freeing st
  promised : Promised o st
  counted : Counted st

theorem Shared.idle_of_zero (h : Shared o st) {t : τ} (hzero : st.future.refcount = 0) (howner : st.owner = some t)
    (hlast : ∀ u, u ≠ t → (st.pc u).last = false) {u : τ} (hu : u ≠ t) : st.pc u = .idle := by
  obtain ⟨hfreed, hdone, hwaits⟩ := h.counted.of_zero hzero
  have hmutex : (st.pc u).holdsMutex = false := by
    have hiff := h.exclusive.owner u
    grind
  have hlast' := hlast u hu
  have hwait := hwaits u
  cases hpc : st.pc u with
  | idle => rfl
  | ready op =>
    rcases h.promised.after (by simp [hfreed]) u op hpc with rfl | ⟨-, hsole⟩
    · have hc := (h.freeing u).mpr (by rw [hpc]; rfl)
      simp [hfreed] at hc
    · exact absurd hdone (by simp [hsole.1])
  | destroying op r => simp [hpc, Pc.last] at hlast'
  | locked op => simp [hpc, Pc.holdsMutex] at hmutex
  | relocked => simp [hpc, Pc.holdsMutex] at hmutex
  | leaving op r remaining => simp [hpc, Pc.holdsMutex] at hmutex
  | asleep => simp [hpc, Pc.waits] at hwait
  | woken => simp [hpc, Pc.waits] at hwait

theorem Phase.of_drop (h : Shared o st) {t : τ} {op : Op α} {r : Ret α}
    (hpc : st.pc t = .leaving op r (some st.future.refcount)) (hnone : st.destroyed = [])
    (hdrop : st.lastDrop = some t) (hlast : ∀ u, u ≠ t → (st.pc u).last = false) : Phase st := by
  have howner : st.owner = some t := (h.exclusive.owner t).mpr (by rw [hpc]; rfl)
  by_cases hzero : st.future.refcount = 0
  · exact .ending t (by simp [hpc, Pc.last, hzero]) hzero hnone hdrop fun u hu => h.idle_of_zero hzero howner hlast hu
  · have hnonneg := h.counted.nonneg
    refine .alive (by omega) hnone fun u => ?_
    by_cases hut : u = t
    · simp [hut, hpc, Pc.last, hzero]
    · exact hlast u hut

theorem Shared.no_call (h : Shared o st) (hzero : st.future.refcount = 0) (op : Op α) : st.mayCall o op = false := by
  obtain ⟨hfreed, hdone, -⟩ := h.counted.of_zero hzero
  have hproduced := h.promised.done hdone
  cases op <;> simp [State.mayCall, hfreed, hproduced]

theorem Phase.step_alive (hpos : 0 < st.future.refcount) (hnone : st.destroyed = []) (hlast : ∀ t, (st.pc t).last = false)
    (hshared' : Shared o st') (hm : Moved o st a st') : Phase st' := by
  cases hm with
  | pass hpc hdone =>
    apply Phase.of_drop hshared'
    · exact update_self ..
    · exact hnone
    · rfl
    · grind
  | got hpc hdone =>
    apply Phase.of_drop hshared'
    · exact update_self ..
    · exact hnone
    · rfl
    · grind
  | free hpc =>
    apply Phase.of_drop hshared'
    · exact update_self ..
    · exact hnone
    · rfl
    · grind
  | complete hpc hdone =>
    apply Phase.of_drop hshared'
    · exact update_self ..
    · exact hnone
    · rfl
    · grind
  | @last t op r hpc =>
    have hcontra := hlast t
    simp [hpc, Pc.last] at hcontra
  | @destroy t op r hpc =>
    have hcontra := hlast t
    simp [hpc, Pc.last] at hcontra
  | sleep hpc hdone =>
    apply Phase.alive
    · exact Int.lt_add_one_of_le (Int.le_of_lt hpos)
    · exact hnone
    · grind [Pc.last]
  | _ =>
    apply Phase.alive
    · exact hpos
    · exact hnone
    · grind [Pc.last]

theorem Phase.step_ending {t : τ} (hlast : (st.pc t).last = true) (hzero : st.future.refcount = 0) (hnone : st.destroyed = [])
    (hdrop : st.lastDrop = some t) (hidle : ∀ u, u ≠ t → st.pc u = .idle) (hshared : Shared o st) (hm : Moved o st a st') :
    Phase st' := by
  have honly : ∀ u, st.pc u ≠ .idle → u = t := fun u hu => by_contra fun hut => hu (hidle u hut)
  cases hm with
  | @call u op hpc hmay => simp [hshared.no_call hzero op] at hmay
  | @last u op r hpc =>
    obtain rfl := honly u (by simp [hpc])
    apply Phase.ending u
    · simp [Pc.last]
    · exact hzero
    · exact hnone
    · exact hdrop
    · grind
  | @destroy u op r hpc =>
    obtain rfl := honly u (by simp [hpc])
    apply Phase.ended u
    · exact hzero
    · simp [hnone]
    · exact hdrop
    · grind
  | _ => grind [Pc.last]

theorem Phase.step (h : Phase st) (hshared : Shared o st) (hshared' : Shared o st') (hm : Moved o st a st') : Phase st' := by
  cases h with
  | alive hpos hnone hlast => exact Phase.step_alive hpos hnone hlast hshared' hm
  | ending t hlast hzero hnone hdrop hidle => exact Phase.step_ending hlast hzero hnone hdrop hidle hshared hm
  | ended t hzero hdestroyed hdrop hidle =>
    cases hm with
    | @call u op hpc hmay => simp [hshared.no_call hzero op] at hmay
    | _ => grind

/-! ## The answers -/

inductive Answered (cs : List (Completion α)) : Op α → Ret α → Prop
  | got (c : Completion α) (h : cs = [c]) : Answered cs .get (.value c.value)
  | done (b : Bool) (h : b = true → cs ≠ []) : Answered cs .done (.flag b)
  | cancelled (b : Bool) (h : b = true → cs = [.discard]) : Answered cs .cancelled (.flag b)
  | freed : Answered cs .free .none
  | completed (c : Completion α) (h : cs = [c]) : Answered cs (.complete c) c.ret
  | refused (result : Option α) (h : cs ≠ []) : Answered cs (.complete (.fulfill result)) (.code .notPermitted)

def Pc.Answers (pc : Pc α) (op : Op α) (r : Ret α) : Prop := (∃ remaining, pc = .leaving op r remaining) ∨ pc = .destroying op r

theorem Pc.answers_leaving {op op' : Op α} {r r' : Ret α} {remaining : Option Int}
    (h : (Pc.leaving op r remaining).Answers op' r') : op' = op ∧ r' = r := by
  rcases h with ⟨_, h⟩ | h
  · cases h
    exact ⟨rfl, rfl⟩
  · cases h

structure Values (st : State τ α) : Prop where
  settled : Settled st.future st.completions
  leaving : ∀ t op r, (st.pc t).Answers op r → Answered st.completions op r
  answered : ∀ t op r, (t, op, r) ∈ st.answers → Answered st.completions op r

theorem Answered.later {cs : List (Completion α)} {op : Op α} {r : Ret α} (h : Answered cs op r) (hnone : cs = [])
    (c : Completion α) : Answered (cs ++ [c]) op r := by
  subst hnone
  cases h with
  | got c' h => cases h
  | done b h => exact .done b fun _ => by simp
  | cancelled b h => exact .cancelled b fun hb => absurd (h hb) (by simp)
  | freed => exact .freed
  | completed c' h => cases h
  | refused result h => exact absurd rfl h

theorem Values.frame (h : Values st) (hsettled : Settled st'.future st'.completions) (hcompletions : st'.completions = st.completions)
    (t : τ) (hothers : ∀ u op r, u ≠ t → (st'.pc u).Answers op r → (st.pc u).Answers op r)
    (ht : ∀ op r, (st'.pc t).Answers op r → Answered st.completions op r)
    (hanswers : ∀ u op r, (u, op, r) ∈ st'.answers → (u, op, r) ∈ st.answers ∨ (st.pc u).Answers op r) : Values st' := by
  refine ⟨hsettled, fun u op r hu => ?_, fun u op r hu => ?_⟩
  · rw [hcompletions]
    by_cases hut : u = t
    · exact ht op r (hut ▸ hu)
    · exact h.leaving u op r (hothers u op r hut hu)
  · rw [hcompletions]
    rcases hanswers u op r hu with hold | hleaving
    · exact h.answered u op r hold
    · exact h.leaving u op r hleaving

/-- A thread goes on, and what it is to answer then holds. -/
theorem Values.goto (h : Values st) (hsettled : Settled st'.future st'.completions) (hcompletions : st'.completions = st.completions)
    (hanswers : st'.answers = st.answers) (t : τ) {pc : Pc α} (hpc : ∀ u, st'.pc u = if u = t then pc else st.pc u)
    (hr : ∀ op r, pc.Answers op r → Answered st.completions op r) : Values st' := by
  apply h.frame hsettled hcompletions t
  · intro u op' r' hut hu
    rwa [hpc, if_neg hut] at hu
  · intro op' r' ht
    rw [hpc, if_pos rfl] at ht
    exact hr op' r' ht
  · exact fun u op' r' hu => .inl (hanswers ▸ hu)

theorem Values.leave (h : Values st) (hsettled : Settled st'.future st'.completions) (hcompletions : st'.completions = st.completions)
    (hanswers : st'.answers = st.answers) (t : τ) {op : Op α} {r : Ret α} {remaining : Option Int}
    (hpc : ∀ u, st'.pc u = if u = t then .leaving op r remaining else st.pc u) (hr : Answered st.completions op r) :
    Values st' := by
  apply h.goto hsettled hcompletions hanswers t hpc
  intro op' r' ht
  obtain ⟨rfl, rfl⟩ := Pc.answers_leaving ht
  exact hr

theorem Values.move (h : Values st) (hsettled : Settled st'.future st'.completions) (hcompletions : st'.completions = st.completions)
    (hanswers : st'.answers = st.answers) (t : τ) {pc : Pc α} (hpc : ∀ u, st'.pc u = if u = t then pc else st.pc u)
    (hr : ∀ op r, ¬ pc.Answers op r) : Values st' :=
  h.goto hsettled hcompletions hanswers t hpc fun op r ht => absurd ht (hr op r)

/-- A call returns with the answer its thread held. -/
theorem Values.returns (h : Values st) (hsettled : Settled st'.future st'.completions) (hcompletions : st'.completions = st.completions)
    (t : τ) {op : Op α} {r : Ret α} (hanswers : st'.answers = st.answers ++ [(t, op, r)])
    (hpc : ∀ u, st'.pc u = if u = t then .idle else st.pc u) (hheld : (st.pc t).Answers op r) : Values st' := by
  apply h.frame hsettled hcompletions t
  · intro u op' r' hut hu
    rwa [hpc, if_neg hut] at hu
  · intro op' r' ht
    rw [hpc, if_pos rfl] at ht
    simp [Pc.Answers] at ht
  · intro u op' r' hu
    rw [hanswers] at hu
    rcases List.mem_append.mp hu with hold | hnew
    · exact .inl hold
    · obtain ⟨rfl, rfl, rfl⟩ : u = t ∧ op' = op ∧ r' = r := by simpa using hnew
      exact .inr hheld

theorem Values.step (h : Values st) (hm : Moved o st a st') : Values st' := by
  have hsettled := h.settled
  cases hm with
  | @read t op r hpc hreads =>
    have hr : Answered st.completions op r := by
      cases hreads with
      | done => exact .done _ hsettled.done_iff.mp
      | cancelled => exact .cancelled _ hsettled.cancelled_iff.mp
      | fulfill result hdone => exact .refused result (hsettled.done_iff.mp hdone)
    exact h.leave hsettled rfl rfl t (fun u => State.setPc_pc ..) hr
  | @pass t hpc hdone =>
    obtain ⟨c, hf, hcs⟩ := hsettled.of_done hdone
    have hr : Answered st.completions .get (.value st.future.result) := by
      rw [hf]
      exact .got c hcs
    exact h.leave hsettled rfl rfl t (fun u => State.dropped_pc ..) hr
  | @got t hpc hdone =>
    obtain ⟨c, hf, hcs⟩ := hsettled.of_done hdone
    have hr : Answered st.completions .get (.value st.future.result) := by
      rw [hf]
      exact .got c hcs
    exact h.leave (hsettled.refcount _) rfl rfl t (fun u => State.dropped_pc ..) hr
  | @free t hpc => exact h.leave (hsettled.refcount _) rfl rfl t (fun u => State.dropped_pc ..) .freed
  | @complete t c hpc hdone =>
    have hnone := (hsettled.of_pending hdone).2
    refine ⟨hsettled.complete hdone c, fun u op r hu => ?_, fun u op r hu => ?_⟩
    · by_cases hut : u = t
      · have hpc' : (.leaving (.complete c) c.ret (some (st.future.refcount - 1)) : Pc α).Answers op r := by
          simpa [hut, Future.complete] using hu
        obtain ⟨rfl, rfl⟩ := Pc.answers_leaving hpc'
        exact .completed c (by simp [hnone])
      · have hold : (st.pc u).Answers op r := by
          simpa [hut, Pc.Answers, Pc.wakeUp_eq_leaving, Pc.wakeUp_eq_destroying] using hu
        exact (h.leaving u op r hold).later hnone c
    · exact (h.answered u op r hu).later hnone c
  | @leave t op r remaining hpc hleft => exact h.returns hsettled rfl t rfl (fun u => State.setPc_pc ..) (.inl ⟨remaining, hpc⟩)
  | @last t op r hpc =>
    refine h.goto hsettled rfl rfl t (fun u => State.setPc_pc ..) ?_
    intro op' r' ht
    obtain ⟨rfl, rfl⟩ : op = op' ∧ r = r' := by simpa [Pc.Answers] using ht
    exact h.leaving t op r (.inl ⟨some 0, hpc⟩)
  | @destroy t op r hpc => exact h.returns hsettled rfl t rfl (fun u => State.setPc_pc ..) (.inr hpc)
  | @call t op hpc hmay => exact h.move hsettled rfl rfl t (fun u => State.setPc_pc ..) (by simp [Pc.Answers])
  | @lock t op hpc howner => exact h.move hsettled rfl rfl t (fun u => State.setPc_pc ..) (by simp [Pc.Answers])
  | @relock t hpc howner => exact h.move hsettled rfl rfl t (fun u => State.setPc_pc ..) (by simp [Pc.Answers])
  | @sleep t hpc hdone =>
    exact h.move (hsettled.refcount _) rfl rfl t (fun u => State.setPc_pc ..) (by simp [Pc.Answers])
  | @resleep t hpc hdone => exact h.move hsettled rfl rfl t (fun u => State.setPc_pc ..) (by simp [Pc.Answers])
  | @wake t hpc => exact h.move hsettled rfl rfl t (fun u => State.setPc_pc ..) (by simp [Pc.Answers])

end Ccollections.Cthreadpool
