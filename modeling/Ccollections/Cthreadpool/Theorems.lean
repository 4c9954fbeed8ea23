import Ccollections.Cthreadpool.Lemmas.Lifetime

/-!
# Futures live until their last participant leaves
-/

namespace Ccollections.Cthreadpool
open Lib Function Option

variable {α τ : Type} {o : Origin} {f : Future α}

/-! ## Creation -/

/-- A future that a submit or `cthrpool_future_create_detached` gives its caller. -/
inductive Made : Origin → Future α → Prop
  | submitted {f : Future α} (env : SubmitEnv) (block : SubmitBlock) (h : (submitFutureGeneric env block).2.1 = some f) :
      Made .submitted f
  | detached {f : Future α} (env : FutureEnv) (h : (cthrpoolFutureCreateDetached env).1 = some f) : Made .detached f

theorem submitFutureAlloc_cases (env : FutureEnv) :
    submitFutureAlloc (α := α) env = (some .fresh, 1) ∨ submitFutureAlloc (α := α) env = (none, 0) := by
  rw [submitFutureAlloc]
  grind

/-- A submit gives a future exactly when it succeeds, and leaves a block only then. -/
theorem submitFutureGeneric_cases (env : SubmitEnv) (block : SubmitBlock) :
    submitFutureGeneric (α := α) env block = (.success, some .fresh, 1) ∨
      ∃ rv, rv ≠ .success ∧ submitFutureGeneric (α := α) env block = (rv, none, 0) := by
  have halloc := submitFutureAlloc_cases (α := α) env.toFutureEnv
  rw [submitFutureGeneric]
  split
  · exact .inr ⟨_, by decide, rfl⟩
  split
  · exact .inr ⟨_, by decide, rfl⟩
  split
  · exact .inr ⟨_, by decide, rfl⟩
  split
  · rename_i hhint
    exact .inr ⟨_, hhint.2, rfl⟩
  rcases halloc with hfresh | hfail
  · rw [hfresh]
    by_cases henqueued : env.enqueued = .success
    · exact .inl (by simp [henqueued])
    · exact .inr ⟨env.enqueued, henqueued, by simp [henqueued]⟩
  · rw [hfail]
    exact .inr ⟨_, by decide, rfl⟩

theorem Made.eq_fresh (h : Made o f) : f = .fresh := by
  cases h with
  | submitted env block h =>
    rcases submitFutureGeneric_cases (α := α) env block with heq | ⟨rv, -, heq⟩
    · rw [heq] at h
      exact (some.inj h).symm
    · rw [heq] at h
      cases h
  | detached env h =>
    rw [cthrpoolFutureCreateDetached] at h
    grind

/-! ## Every run -/

variable [DecidableEq τ] {st st' : State τ α} {acts : List (Action τ α)} {a : Action τ α}

structure Inv (o : Origin) (st : State τ α) : Prop where
  shared : Shared o st
  phase : Phase st
  values : Values st

theorem Inv.start : Inv o (State.start (.fresh : Future α) : State τ α) := by
  refine ⟨⟨⟨fun t => ?_, fun t => ?_⟩, fun t => ?_, ⟨?_, ?_, ?_, ?_, ?_, ?_⟩, ?_⟩, ?_, ⟨?_, ?_, ?_⟩⟩
  · simp [State.start, Pc.holdsMutex]
  · simp [State.start]
  · simp [State.start, Pc.freeing]
  · simp [State.start, Pc.brings]
  · simp [State.start, Pc.brings]
  · simp [State.start, Future.fresh]
  · simp [State.start]
  · simp [State.start, Pc.brings]
  · simp [State.start]
  · exact ⟨∅, fun t => by simp [State.start, Pc.waits], rfl⟩
  · exact .alive (by simp [State.start, Future.fresh]) rfl fun t => rfl
  · exact .pending 2
  · simp [State.start, Pc.Answers]
  · simp [State.start]

omit [DecidableEq τ] in
theorem Promised.again (h : Promised o st) {t : τ} {c : Completion α} (hpc : st.pc t = .locked (.complete c))
    (hdone : st.future.done = true) : ∃ result, c = .fulfill result := by
  have hbrings : (st.pc t).brings = some c := by rw [hpc]; rfl
  have horigin := h.origin t c hbrings
  cases o with
  | submitted => exact absurd hdone (by simp [(h.task rfl t (by simp [hbrings])).1])
  | detached =>
    cases c with
    | fulfill result => exact ⟨result, rfl⟩
    | _ => cases horigin

theorem Inv.moved (h : Inv o st) (hs : st.step o a = some st') : Moved o st a st' :=
  moved_of_step h.values.settled (fun _ _ hpc hdone => h.shared.promised.again hpc hdone) hs

theorem Inv.step (h : Inv o st) (hs : st.Careful o a st') : Inv o st' := by
  have hm := h.moved hs.2
  have hshared : Shared o st' :=
    ⟨h.shared.exclusive.step hm, h.shared.freeing.step hm, h.shared.promised.step h.shared.freeing hs.1 hm,
      h.shared.counted.step h.shared.freeing hm⟩
  exact ⟨hshared, h.phase.step h.shared hshared hm, h.values.step hm⟩

theorem Inv.run (hrun : Path (State.Careful o) (State.start .fresh) acts st) : Inv o st :=
  Path.invariant (P := fun st _ => Inv o st) .start (fun _ _ _ _ hm hs => hm.step hs) hrun

theorem Inv.destroyed (h : Inv o st) (hidle : ∀ u, st.pc u = .idle) (hfree : st.caller ≠ .owns) (hproduced : st.produced = true) :
    ∃ t, st.destroyed = [t] := by
  have hdone : st.future.done = true := by
    rcases h.shared.promised.pending hproduced with hdone | ⟨t, ht⟩
    · exact hdone
    · simp [hidle t, Pc.brings] at ht
  have hfreed : st.caller = .freed := by
    cases hc : st.caller with
    | owns => exact absurd hc hfree
    | freed => rfl
    | freeing t =>
      have ht := (h.shared.freeing t).mp hc
      simp [hidle t, Pc.freeing] at ht
  have hzero : st.future.refcount = 0 := by
    obtain ⟨ws, hws, hcard⟩ := h.shared.counted
    have hempty : ws = ∅ := Finset.eq_empty_of_forall_notMem fun u hu => by simpa [hidle u, Pc.waits] using (hws u).mp hu
    simpa [hempty, State.callerRef, State.producerRef, hfreed, hdone] using hcard
  cases h.phase with
  | alive hpos hnone hlast => omega
  | ending t hlast hz hnone hdrop hothers => simp [hidle t, Pc.last] at hlast
  | ended t hz hdestroyed hdrop hall => exact ⟨t, hdestroyed⟩

theorem Inv.progress (h : Inv o st) (hdone : st.future.done = true) {t : τ} (ht : st.pc t ≠ .idle) :
    ∃ a st', (∀ u op, a ≠ .call u op) ∧ st.step o a = some st' := by
  cases howner : st.owner with
  | some u =>
    have hholds := (h.shared.exclusive.owner u).mp howner
    cases hpc : st.pc u with
    | locked op => exact ⟨.body u, _, by rintro _ _ ⟨⟩, by rw [State.step, State.body, hpc]⟩
    | relocked => exact ⟨.body u, _, by rintro _ _ ⟨⟩, by rw [State.step, State.body, hpc]⟩
    | leaving op r remaining =>
      refine ⟨.unlock u, ?_⟩
      rw [State.step, State.unlock, hpc]
      dsimp only
      split
      · exact ⟨_, by rintro _ _ ⟨⟩, rfl⟩
      · exact ⟨_, by rintro _ _ ⟨⟩, rfl⟩
    | _ => simp [hpc, Pc.holdsMutex] at hholds
  | none =>
    cases hpc : st.pc t with
    | idle => exact absurd hpc ht
    | ready op => exact ⟨.lock t, _, by rintro _ _ ⟨⟩, by rw [State.step, State.lock, hpc, howner]⟩
    | woken => exact ⟨.lock t, _, by rintro _ _ ⟨⟩, by rw [State.step, State.lock, hpc, howner]⟩
    | destroying op r => exact ⟨.destroy t, _, by rintro _ _ ⟨⟩, by rw [State.step, State.destroy, hpc]⟩
    | asleep => exact absurd hdone (by simp [h.shared.exclusive.asleep t hpc])
    | _ =>
      have hcontra := (h.shared.exclusive.owner t).mpr (by rw [hpc]; rfl)
      simp [howner] at hcontra

theorem Inv.done_step (h : Inv o st) (hs : st.step o a = some st') (hdone : st.future.done = true) : st'.future.done = true := by
  cases h.moved hs <;> grind [Future.complete]

structure FutureOk (o : Origin) (st : State τ α) : Prop where
  /-- The block is there, or the thread that dropped the last reference destroyed it and nobody is inside. -/
  destroyed : st.destroyed = [] ∨ ∃ t, st.destroyed = [t] ∧ st.lastDrop = some t ∧ ∀ u, st.pc u = .idle
  /-- Whoever is about to destroy the block is alone and dropped the last reference. -/
  alone : ∀ t op r, st.pc t = .destroying op r → st.destroyed = [] ∧ st.lastDrop = some t ∧ ∀ u, u ≠ t → st.pc u = .idle
  /-- Freed, completed and left by everybody, the block is gone. -/
  gone : (∀ u, st.pc u = .idle) → st.caller ≠ .owns → st.produced = true → ∃ t, st.destroyed = [t]
  /-- Behind the completion no call hangs. -/
  progress : st.future.done = true → ∀ t, st.pc t ≠ .idle → ∃ a st', (∀ u op, a ≠ .call u op) ∧ st.step o a = some st'
  single : st.completions.length ≤ 1
  got : ∀ t r, (t, .get, r) ∈ st.answers → ∃ c, st.completions = [c] ∧ r = .value c.value
  answered : ∀ t op r, (t, op, r) ∈ st.answers → Answered st.completions op r
  done : st.future.done = true ↔ st.completions ≠ []
  cancelled : st.future.cancelled = true ↔ st.completions = [.discard]
  stays : ∀ a st', st.step o a = some st' → st.future.done = true → st'.future.done = true
  again : ∀ t result, st.pc t = .locked (.complete (.fulfill result)) → st.future.done = true →
    st.step o (.body t) = some (st.setPc t (.leaving (.complete (.fulfill result)) (.code .notPermitted) none))

/-- A future of a submit or of a producer, freed when every other call on it has taken the mutex or is its completion. -/
theorem future_lifetime (hmade : Made o f) (hrun : Path (State.Careful o) (State.start f) acts st) : FutureOk o st := by
  rw [hmade.eq_fresh] at hrun
  have h := Inv.run hrun
  constructor
  · cases h.phase with
    | alive hpos hnone hlast => exact .inl hnone
    | ending t hlast hzero hnone hdrop hidle => exact .inl hnone
    | ended t hzero hdestroyed hdrop hidle => exact .inr ⟨t, hdestroyed, hdrop, hidle⟩
  · intro t op r hpc
    have hlast : (st.pc t).last = true := by rw [hpc]; rfl
    cases h.phase with
    | alive hpos hnone hnolast => simp [hnolast t] at hlast
    | ending u hu hzero hnone hdrop hidle =>
      have htu : t = u := by_contra fun htu => by simp [hidle t htu] at hpc
      exact ⟨hnone, htu ▸ hdrop, htu ▸ hidle⟩
    | ended u hzero hdestroyed hdrop hidle => simp [hidle t] at hpc
  · exact h.destroyed
  · exact fun hdone t ht => h.progress hdone ht
  · exact h.values.settled.length_le
  · intro t r hr
    cases h.values.answered t .get r hr with
    | got c hc => exact ⟨c, hc, rfl⟩
  · exact h.values.answered
  · exact h.values.settled.done_iff
  · exact h.values.settled.cancelled_iff
  · exact fun a st' hs => h.done_step hs
  · intro t result hpc hdone
    simp [State.step, State.body, hpc, State.finish, Future.enter, Future.fulfill, hdone, completionOf, Op.isFree, State.setPc]

theorem careful_of_runs (hfree : ∀ t, .call t .free ∉ acts) (h : runs (State.step o) st acts = some st') :
    Path (State.Careful o) st acts st' := by
  induction acts generalizing st with
  | nil =>
    obtain rfl := some.inj h
    exact .nil
  | cons a acts ih =>
    obtain ⟨m, hs, hrest⟩ := bind_eq_some_iff.mp h
    have hp : st.Permitted a := by
      cases a with
      | call t op =>
        cases op with
        | free => exact absurd List.mem_cons_self (hfree t)
        | _ => trivial
      | _ => trivial
    exact .cons ⟨hp, hs⟩ (ih (fun t ht => hfree t (List.mem_cons_of_mem a ht)) hrest)

/-- A worker stores 7 while one thread waits and another has freed the future: the waiter destroys the block. -/
theorem future_lifetime_waiter : ∃ (acts : List (Action Nat Nat)) (st : State Nat Nat),
    Path (State.Careful .submitted) (State.start .fresh) acts st ∧ FutureOk .submitted st ∧ st.destroyed = [1] ∧
      (1, .get, .value (some 7)) ∈ st.answers := by
  have hmade : Made .submitted (.fresh : Future Nat) :=
    .submitted ⟨⟨true, true, true⟩, true, true, true, .success, .success⟩ .wait rfl
  let waiting : State Nat Nat :=
    { (State.start ⟨none, 3, false, false⟩) with
      pc := update (update (update (fun _ => .idle) 1 (.ready .get)) 1 (.locked .get)) 1 .asleep }
  have hwait : Path (State.Careful .submitted) (State.start .fresh) [.call 1 .get, .lock 1, .body 1] waiting :=
    careful_of_runs (by simp) rfl
  have hpermitted : waiting.Permitted (.call 0 .free) := by
    intro t op ht
    by_cases ht1 : t = 1
    · simp [waiting, ht1] at ht
    · simp [waiting, ht1] at ht
  obtain ⟨freeing, hfree⟩ : ∃ st', waiting.step .submitted (.call 0 .free) = some st' := ⟨_, rfl⟩
  have hany : ((waiting.step .submitted (.call 0 .free)).bind (runs (State.step .submitted) ·
      [.lock 0, .body 0, .unlock 0, .call 2 (.complete (.worker (some 7))), .lock 2, .body 2, .unlock 2, .lock 1, .body 1,
        .unlock 1, .destroy 1])).any (fun st => st.destroyed = [1] ∧ (1, .get, .value (some 7)) ∈ st.answers) = true := by
    decide
  rw [hfree, bind_some] at hany
  obtain ⟨st, hst, hend⟩ := (any_eq_true _ _).mp hany
  have hrun := hwait.append (.cons ⟨hpermitted, hfree⟩ (careful_of_runs (by simp) hst))
  have hend := of_decide_eq_true hend
  exact ⟨_, st, hrun, future_lifetime hmade hrun, hend.1, hend.2⟩

/-- A get that started before the free and has not taken the mutex holds no reference: it is about to lock a future that
the completion destroyed. -/
theorem future_destroyed_under_get :
    ¬ ∀ (o : Origin) (f : Future Nat), Made o f → ∀ st : State Nat Nat, Reach (State.step o) (State.start f) st →
      st.destroyed ≠ [] → ∀ t, st.pc t ≠ .ready .get := by
  intro hall
  have hmade : Made .submitted (.fresh : Future Nat) :=
    .submitted ⟨⟨true, true, true⟩, true, true, true, .success, .success⟩ .wait rfl
  have hany : (runs (State.step .submitted) (State.start .fresh : State Nat Nat)
      [.call 1 .get, .call 0 .free, .lock 0, .body 0, .unlock 0, .call 2 (.complete (.worker (some 7))), .lock 2, .body 2,
        .unlock 2, .destroy 2]).any (fun st => st.destroyed = [2] ∧ st.pc 1 = .ready .get) = true := by
    decide
  obtain ⟨st, hreach, hst⟩ := Reach.exists_of_runs _ hany
  have hst := of_decide_eq_true hst
  exact hall _ _ hmade st hreach (by simp [hst.1]) 1 hst.2

end Ccollections.Cthreadpool
