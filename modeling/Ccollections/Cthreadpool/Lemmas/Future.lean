import Ccollections.Cthreadpool.Future
import Mathlib.Data.Finset.Card

/-!
# What one step of the threads of a future does
-/

namespace Ccollections.Cthreadpool
open Lib Option

variable {α τ : Type}

/-! ## The sections -/

inductive Reads (f : Future α) : Op α → Ret α → Prop
  | done : Reads f .done (.flag f.done)
  | cancelled : Reads f .cancelled (.flag f.cancelled)
  | fulfill (result : Option α) (hdone : f.done = true) : Reads f (.complete (.fulfill result)) (.code .notPermitted)

def Completion.isDiscard : Completion α → Bool
  | discard => true
  | _ => false

def Completion.ret : Completion α → Ret α
  | fulfill _ => .code .success
  | _ => .none

def Future.complete (f : Future α) (c : Completion α) : Future α := ⟨c.value, f.refcount - 1, true, c.isDiscard⟩

inductive Settled : Future α → List (Completion α) → Prop
  | pending (n : Int) : Settled ⟨none, n, false, false⟩ []
  | settled (c : Completion α) (n : Int) : Settled ⟨c.value, n, true, c.isDiscard⟩ [c]

variable {f f' : Future α} {cs cs' : List (Completion α)}

theorem Settled.of_pending (h : Settled f cs) (hdone : f.done = false) : f = ⟨none, f.refcount, false, false⟩ ∧ cs = [] := by
  cases h with
  | pending n => exact ⟨rfl, rfl⟩
  | settled c n => cases hdone

theorem Settled.of_done (h : Settled f cs) (hdone : f.done = true) : ∃ c, f = ⟨c.value, f.refcount, true, c.isDiscard⟩ ∧ cs = [c] := by
  cases h with
  | pending n => cases hdone
  | settled c n => exact ⟨c, rfl, rfl⟩

theorem Settled.refcount (h : Settled f cs) (n : Int) : Settled { f with refcount := n } cs := by
  cases h with
  | pending m => exact .pending n
  | settled c m => exact .settled c n

theorem Settled.complete (h : Settled f cs) (hdone : f.done = false) (c : Completion α) : Settled (f.complete c) (cs ++ [c]) := by
  rw [(h.of_pending hdone).2]
  exact .settled c _

theorem Settled.length_le (h : Settled f cs) : cs.length ≤ 1 := by
  cases h with
  | pending n => exact Nat.zero_le 1
  | settled c n => exact Nat.le_refl 1

theorem Settled.done_iff (h : Settled f cs) : f.done = true ↔ cs ≠ [] := by
  cases h with
  | pending n => simp
  | settled c n => simp

theorem Settled.cancelled_iff (h : Settled f cs) : f.cancelled = true ↔ cs = [.discard] := by
  cases h with
  | pending n => simp
  | settled c n => cases c <;> simp [Completion.isDiscard]

theorem enter_complete (h : Settled f cs) (hdone : f.done = false) (c : Completion α) :
    f.enter (.complete c) = .leave (f.complete c) c.ret (some (f.refcount - 1)) true := by
  obtain ⟨hf, -⟩ := h.of_pending hdone
  rw [hf]
  cases c <;> rfl

theorem get_of_done (hdone : f.done = true) : f.get = .leave f (.value f.result) (some f.refcount) false := by
  cases f with
  | mk result refcount done cancelled =>
    cases hdone
    simp [Future.get, Future.getLoop]

/-! ## The steps -/

def State.wakeAll (st : State τ α) : State τ α := { st with pc := fun u => (st.pc u).wakeUp }

section
variable (st : State τ α) (u : τ)

@[simp, grind =] theorem State.wakeAll_pc : st.wakeAll.pc u = (st.pc u).wakeUp := rfl

@[simp, grind =] theorem State.wakeAll_future : st.wakeAll.future = st.future := rfl

@[simp, grind =] theorem State.wakeAll_owner : st.wakeAll.owner = st.owner := rfl

@[simp, grind =] theorem State.wakeAll_caller : st.wakeAll.caller = st.caller := rfl

end

variable [DecidableEq τ] {o : Origin} {st st' : State τ α} {a : Action τ α}

def State.dropped (st : State τ α) (t : τ) (f : Future α) (op : Op α) (r : Ret α) : State τ α :=
  { st.setPc t (.leaving op r (some f.refcount)) with future := f, lastDrop := some t }

namespace State

variable (st : State τ α) (t u : τ)

section
variable (pc : Pc α)

@[simp, grind =] theorem setPc_pc : (st.setPc t pc).pc u = if u = t then pc else st.pc u := Function.update_apply st.pc t pc u

@[simp, grind =] theorem setPc_future : (st.setPc t pc).future = st.future := rfl

@[simp, grind =] theorem setPc_owner : (st.setPc t pc).owner = st.owner := rfl

@[simp, grind =] theorem setPc_caller : (st.setPc t pc).caller = st.caller := rfl

@[simp, grind =] theorem setPc_lastDrop : (st.setPc t pc).lastDrop = st.lastDrop := rfl

end

section
variable (f : Future α) (op : Op α) (r : Ret α)

@[simp, grind =] theorem dropped_pc :
    (st.dropped t f op r).pc u = if u = t then .leaving op r (some f.refcount) else st.pc u :=
  Function.update_apply st.pc t _ u

@[simp, grind =] theorem dropped_future : (st.dropped t f op r).future = f := rfl

@[simp, grind =] theorem dropped_lastDrop : (st.dropped t f op r).lastDrop = some t := rfl

@[simp, grind =] theorem dropped_owner : (st.dropped t f op r).owner = st.owner := rfl

@[simp, grind =] theorem dropped_caller : (st.dropped t f op r).caller = st.caller := rfl

end

end State

inductive Moved (o : Origin) (st : State τ α) : Action τ α → State τ α → Prop
  | call {t : τ} {op : Op α} (hpc : st.pc t = .idle) (hmay : st.mayCall o op = true) :
      Moved o st (.call t op) { st.setPc t (.ready op) with
        caller := if op.isFree then .freeing t else st.caller
        produced := st.produced || op.completion.isSome }
  | lock {t : τ} {op : Op α} (hpc : st.pc t = .ready op) (howner : st.owner = none) :
      Moved o st (.lock t) { st.setPc t (.locked op) with owner := some t }
  | relock {t : τ} (hpc : st.pc t = .woken) (howner : st.owner = none) :
      Moved o st (.lock t) { st.setPc t .relocked with owner := some t }
  | read {t : τ} {op : Op α} {r : Ret α} (hpc : st.pc t = .locked op) (hreads : Reads st.future op r) :
      Moved o st (.body t) (st.setPc t (.leaving op r none))
  | sleep {t : τ} (hpc : st.pc t = .locked .get) (hdone : st.future.done = false) :
      Moved o st (.body t)
        { st.setPc t .asleep with future := { st.future with refcount := st.future.refcount + 1 }, owner := none }
  | resleep {t : τ} (hpc : st.pc t = .relocked) (hdone : st.future.done = false) :
      Moved o st (.body t) { st.setPc t .asleep with owner := none }
  | pass {t : τ} (hpc : st.pc t = .locked .get) (hdone : st.future.done = true) :
      Moved o st (.body t) (st.dropped t st.future .get (.value st.future.result))
  | got {t : τ} (hpc : st.pc t = .relocked) (hdone : st.future.done = true) :
      Moved o st (.body t)
        (st.dropped t { st.future with refcount := st.future.refcount - 1 } .get (.value st.future.result))
  | free {t : τ} (hpc : st.pc t = .locked .free) :
      Moved o st (.body t)
        { st.dropped t { st.future with refcount := st.future.refcount - 1 } .free .none with caller := .freed }
  | complete {t : τ} {c : Completion α} (hpc : st.pc t = .locked (.complete c)) (hdone : st.future.done = false) :
      Moved o st (.body t)
        { st.wakeAll.dropped t (st.future.complete c) (.complete c) c.ret with completions := st.completions ++ [c] }
  | leave {t : τ} {op : Op α} {r : Ret α} {remaining : Option Int} (hpc : st.pc t = .leaving op r remaining)
      (hleft : remaining ≠ some 0) :
      Moved o st (.unlock t) { st.setPc t .idle with owner := none, answers := st.answers ++ [(t, op, r)] }
  | last {t : τ} {op : Op α} {r : Ret α} (hpc : st.pc t = .leaving op r (some 0)) :
      Moved o st (.unlock t) { st.setPc t (.destroying op r) with owner := none }
  | destroy {t : τ} {op : Op α} {r : Ret α} (hpc : st.pc t = .destroying op r) :
      Moved o st (.destroy t)
        { st.setPc t .idle with destroyed := st.destroyed ++ [t], answers := st.answers ++ [(t, op, r)] }
  | wake {t : τ} (hpc : st.pc t = .asleep) : Moved o st (.wake t) (st.setPc t .woken)

theorem moved_body {t : τ} (hvalues : Settled st.future st.completions)
    (htask : ∀ c, st.pc t = .locked (.complete c) → st.future.done = true → ∃ result, c = .fulfill result)
    (hs : st.body t = some st') : Moved o st (.body t) st' := by
  rw [State.body] at hs
  split at hs
  · rename_i op hpc
    obtain rfl := some.inj hs
    cases op with
    | get =>
      cases hdone : st.future.done with
      | false =>
        have hmoved := Moved.sleep (o := o) hpc hdone
        simpa [State.finish, Future.enter, Future.get, Future.getLoop, hdone] using hmoved
      | true =>
        have hmoved := Moved.pass (o := o) hpc hdone
        simpa [State.finish, Future.enter, get_of_done hdone, completionOf, State.dropped, State.setPc, Op.isFree] using hmoved
    | done =>
      have hmoved := Moved.read (o := o) hpc .done
      simpa [State.finish, Future.enter, Future.readDone, completionOf, State.setPc, Op.isFree] using hmoved
    | cancelled =>
      have hmoved := Moved.read (o := o) hpc .cancelled
      simpa [State.finish, Future.enter, Future.readCancelled, completionOf, State.setPc, Op.isFree] using hmoved
    | free =>
      have hmoved := Moved.free (o := o) hpc
      simpa [State.finish, Future.enter, Future.deref, completionOf, State.dropped, State.setPc, Op.isFree] using hmoved
    | complete c =>
      cases hdone : st.future.done with
      | false =>
        have hmoved := Moved.complete (o := o) hpc hdone
        rw [enter_complete hvalues hdone]
        simpa [State.finish, completionOf, State.dropped, State.setPc, State.wakeAll, Future.complete, Op.isFree, Op.completion, hdone] using hmoved
      | true =>
        obtain ⟨result, rfl⟩ := htask c hpc hdone
        have hmoved := Moved.read (o := o) hpc (.fulfill result hdone)
        simpa [State.finish, Future.enter, Future.fulfill, hdone, completionOf, State.setPc, Op.isFree] using hmoved
  · rename_i hpc
    obtain rfl := some.inj hs
    cases hdone : st.future.done with
    | false =>
      have hmoved := Moved.resleep (o := o) hpc hdone
      simpa [State.finish, Future.getLoop, hdone, State.setPc] using hmoved
    | true =>
      have hmoved := Moved.got (o := o) hpc hdone
      simpa [State.finish, Future.getLoop, hdone, completionOf, State.dropped, State.setPc, Op.isFree] using hmoved
  · cases hs

theorem moved_of_step (hvalues : Settled st.future st.completions)
    (htask : ∀ t c, st.pc t = .locked (.complete c) → st.future.done = true → ∃ result, c = .fulfill result)
    (hs : st.step o a = some st') : Moved o st a st' := by
  cases a with
  | call t op =>
    rw [State.step, State.call] at hs
    split at hs
    · rename_i hpc
      split at hs
      · rename_i hmay
        obtain rfl := some.inj hs
        exact .call hpc hmay
      · cases hs
    · cases hs
  | lock t =>
    rw [State.step, State.lock] at hs
    split at hs
    · rename_i hpc howner
      obtain rfl := some.inj hs
      exact .lock hpc howner
    · rename_i hpc howner
      obtain rfl := some.inj hs
      exact .relock hpc howner
    · cases hs
  | body t => exact moved_body hvalues (htask t) hs
  | unlock t =>
    rw [State.step, State.unlock] at hs
    split at hs
    · rename_i op r remaining hpc
      split at hs
      · rename_i hzero
        obtain rfl := some.inj hs
        subst hzero
        exact .last hpc
      · rename_i hleft
        obtain rfl := some.inj hs
        exact .leave hpc hleft
    · cases hs
  | destroy t =>
    rw [State.step, State.destroy] at hs
    split at hs
    · rename_i hpc
      obtain rfl := some.inj hs
      exact .destroy hpc
    · cases hs
  | wake t =>
    rw [State.step, State.wake] at hs
    split at hs
    · rename_i hpc
      obtain rfl := some.inj hs
      exact .wake hpc
    · cases hs

/-!
# The references to a future
-/

variable {α τ : Type}

/-! ## What a thread holds -/

namespace Pc

def holdsMutex : Pc α → Bool
  | locked _ | relocked | leaving _ _ _ => true
  | idle | ready _ | asleep | woken | destroying _ _ => false

def waits : Pc α → Bool
  | asleep | woken | relocked => true
  | idle | ready _ | locked _ | leaving _ _ _ | destroying _ _ => false

def freeing : Pc α → Bool
  | ready op | locked op => op.isFree
  | idle | asleep | woken | relocked | leaving _ _ _ | destroying _ _ => false

def last : Pc α → Bool
  | leaving _ _ remaining => remaining = some 0
  | destroying _ _ => true
  | idle | ready _ | locked _ | asleep | woken | relocked => false

variable (pc : Pc α)

@[simp, grind =] theorem holdsMutex_wakeUp : pc.wakeUp.holdsMutex = pc.holdsMutex := by cases pc <;> rfl

@[simp, grind =] theorem waits_wakeUp : pc.wakeUp.waits = pc.waits := by cases pc <;> rfl

@[simp, grind =] theorem freeing_wakeUp : pc.wakeUp.freeing = pc.freeing := by cases pc <;> rfl

@[simp, grind =] theorem last_wakeUp : pc.wakeUp.last = pc.last := by cases pc <;> rfl

@[simp, grind =] theorem brings_wakeUp : pc.wakeUp.brings = pc.brings := by cases pc <;> rfl

theorem wakeUp_ne_asleep : pc.wakeUp ≠ .asleep := by cases pc <;> simp [wakeUp]

theorem wakeUp_eq_ready {op : Op α} : pc.wakeUp = .ready op ↔ pc = .ready op := by cases pc <;> simp [wakeUp]

theorem wakeUp_eq_leaving {op : Op α} {r : Ret α} {remaining : Option Int} :
    pc.wakeUp = .leaving op r remaining ↔ pc = .leaving op r remaining := by cases pc <;> simp [wakeUp]

theorem wakeUp_eq_destroying {op : Op α} {r : Ret α} : pc.wakeUp = .destroying op r ↔ pc = .destroying op r := by
  cases pc <;> simp [wakeUp]

end Pc

variable [DecidableEq τ] {o : Origin} {st st' : State τ α} {a : Action τ α}

/-! ## The mutex -/

structure Exclusive (st : State τ α) : Prop where
  owner : ∀ t, st.owner = some t ↔ (st.pc t).holdsMutex = true
  asleep : ∀ t, st.pc t = .asleep → st.future.done = false

theorem Exclusive.step (h : Exclusive st) (hm : Moved o st a st') : Exclusive st' := by
  have howner := h.owner
  have hasleep := h.asleep
  cases hm
  all_goals
    constructor
    · intro u
      grind [Pc.holdsMutex]
    · intro u
      grind [Pc.wakeUp_ne_asleep, Future.complete]

/-! ## The caller and the producer -/

theorem mayCall_complete {c : Completion α} (h : st.mayCall o (.complete c) = true) :
    o.completedBy c = true ∧ (st.produced = false ∨ o = .detached ∧ st.caller = .owns) := by
  simpa [State.mayCall] using h

theorem mayCall_other {op : Op α} (h : st.mayCall o op = true) (hop : op.completion = none) : st.caller = .owns := by
  cases op with
  | complete c => cases hop
  | _ => simpa [State.mayCall] using h

def Freeing (st : State τ α) : Prop := ∀ t, st.caller = .freeing t ↔ (st.pc t).freeing = true

theorem Freeing.step (h : Freeing st) (hm : Moved o st a st') : Freeing st' := by
  have hfreeing := fun t => h t
  cases hm with
  | @call t op hpc hmay =>
    intro u
    cases op with
    | free =>
      have howns := mayCall_other hmay rfl
      grind [Pc.freeing, Op.isFree]
    | _ => grind [Pc.freeing, Op.isFree]
  | read hpc hreads =>
    intro u
    cases hreads <;> grind [Pc.freeing, Op.isFree]
  | _ =>
    intro u
    grind [Pc.freeing, Op.isFree]

/-- What the callers keep to. After the free, nobody is about to enter but the completion to come. -/
structure Promised (o : Origin) (st : State τ α) : Prop where
  origin : ∀ t c, (st.pc t).brings = some c → o.completedBy c = true
  produced : ∀ t, (st.pc t).brings ≠ none → st.produced = true
  done : st.future.done = true → st.produced = true
  pending : st.produced = true → st.future.done = true ∨ ∃ t, (st.pc t).brings ≠ none
  task : o = .submitted → ∀ t, (st.pc t).brings ≠ none → st.Sole t
  after : st.caller ≠ .owns → ∀ t op, st.pc t = .ready op → op = .free ∨ (∃ c, op = .complete c) ∧ st.Sole t

omit [DecidableEq τ] in
theorem State.Sole.congr {t : τ} (h : st.Sole t) (hdone : st'.future.done = st.future.done)
    (hbrings : ∀ u, (st'.pc u).brings ≠ none → (st.pc u).brings ≠ none) : st'.Sole t :=
  ⟨hdone.trans h.1, fun u hu => h.2 u (hbrings u hu)⟩

omit [DecidableEq τ] in
theorem Promised.frame (h : Promised o st) (hcaller : st'.caller ≠ .owns → st.caller ≠ .owns)
    (hproduced : st'.produced = st.produced) (hdone : st'.future.done = st.future.done)
    (hbrings : ∀ u, (st'.pc u).brings = (st.pc u).brings ∨ (st'.pc u).brings = none ∧ st.future.done = true)
    (hready : ∀ u op, st'.pc u = .ready op → st.pc u = .ready op) : Promised o st' := by
  have hstill : ∀ u, (st'.pc u).brings ≠ none → (st.pc u).brings ≠ none := fun u hu =>
    (hbrings u).elim (fun heq => heq ▸ hu) fun hnone => absurd hnone.1 hu
  constructor
  · intro t c ht
    rcases hbrings t with heq | ⟨hnone, -⟩
    · exact h.origin t c (heq ▸ ht)
    · rw [hnone] at ht
      cases ht
  · exact fun t ht => hproduced.trans (h.produced t (hstill t ht))
  · exact fun hd => hproduced.trans (h.done (hdone ▸ hd))
  · intro hp
    rw [hdone]
    rcases h.pending (hproduced ▸ hp) with hd | ⟨t, ht⟩
    · exact .inl hd
    · rcases hbrings t with heq | ⟨-, hd⟩
      · exact .inr ⟨t, heq ▸ ht⟩
      · exact .inl hd
  · exact fun ho t ht => (h.task ho t (hstill t ht)).congr hdone hstill
  · intro hc t op ht
    rcases h.after (hcaller hc) t op (hready t op ht) with hfree | ⟨hop, hsole⟩
    · exact .inl hfree
    · exact .inr ⟨hop, hsole.congr hdone hstill⟩

theorem Promised.sole_of_first (h : Promised o st) {t : τ} (hnew : st.produced = false) (hdone : st'.future = st.future)
    (hpcs : ∀ u, u ≠ t → st'.pc u = st.pc u) {u : τ} (hu : (st'.pc u).brings ≠ none) : st'.Sole u := by
  have honly : ∀ v, (st'.pc v).brings ≠ none → v = t := by
    intro v hv
    by_contra hvt
    rw [hpcs v hvt] at hv
    exact absurd (h.produced v hv) (by simp [hnew])
  constructor
  · rw [hdone]
    exact Bool.eq_false_iff.mpr fun hd => absurd (h.done hd) (by simp [hnew])
  · exact fun v hv => (honly v hv).trans (honly u hu).symm

theorem Promised.call (h : Promised o st) {t : τ} {op : Op α} (hp : st.Permitted (.call t op)) (hpc : st.pc t = .idle)
    (hmay : st.mayCall o op = true) (hm : Moved o st (.call t op) st') : Promised o st' := by
  have hidle : (st.pc t).brings = none := by rw [hpc]; rfl
  cases hm
  cases hop : op.completion with
  | none =>
    have howns := mayCall_other hmay hop
    constructor
    · grind [Pc.brings, h.origin]
    · grind [Pc.brings, h.produced]
    · grind [h.done]
    · intro hprod
      rcases h.pending (by simpa [hop] using hprod) with hdone | ⟨w, hw⟩
      · exact .inl hdone
      · exact .inr ⟨w, by grind⟩
    · intro ho u hu
      have hu' : (st.pc u).brings ≠ none := by grind [Pc.brings]
      exact (h.task ho u hu').congr rfl (by grind [Pc.brings])
    · intro hc u op' hu
      cases op with
      | free =>
        by_cases hut : u = t
        · grind
        · have hquiet := hp u op' (by simpa [hut] using hu)
          exact .inr ⟨hquiet.1, hquiet.2.congr rfl (by grind [Pc.brings])⟩
      | complete c => cases hop
      | _ => exact absurd howns hc
  | some c =>
    obtain rfl : op = .complete c := by cases op <;> simp_all [Op.completion]
    obtain ⟨horig, hfirst⟩ := mayCall_complete hmay
    have hpcs : ∀ u, u ≠ t → (st.setPc t (.ready (.complete c))).pc u = st.pc u := by grind
    constructor
    · grind [Pc.brings, h.origin]
    · grind
    · grind
    · exact fun _ => .inr ⟨t, by simp [Pc.brings, hop]⟩
    · intro ho u hu
      have hnew : st.produced = false := hfirst.resolve_right (by simp [ho])
      refine h.sole_of_first hnew ?_ hpcs hu
      rfl
    · intro hc u op' hu
      have hnew : st.produced = false := hfirst.resolve_right fun hcall => hc hcall.2
      by_cases hut : u = t
      · subst hut
        obtain rfl : Op.complete c = op' := by simpa using hu
        refine .inr ⟨⟨c, rfl⟩, h.sole_of_first hnew ?_ hpcs ?_⟩
        · rfl
        · simp [Pc.brings, Op.completion]
      · have hu' : st.pc u = .ready op' := by grind
        rcases h.after hc u op' hu' with hfree | ⟨⟨c', rfl⟩, -⟩
        · exact .inl hfree
        · exact absurd (h.produced u (by simp [hu', Pc.brings, Op.completion])) (by simp [hnew])

theorem Promised.complete (h : Promised o st) {t : τ} {c : Completion α} (hpc : st.pc t = .locked (.complete c)) :
    Promised o { st.wakeAll.dropped t (st.future.complete c) (.complete c) c.ret with completions := st.completions ++ [c] } := by
  have hbrings : (st.pc t).brings ≠ none := by simp [hpc, Pc.brings, Op.completion]
  constructor
  · grind [Pc.brings, h.origin]
  · exact fun _ _ => h.produced t hbrings
  · exact fun _ => h.produced t hbrings
  · exact fun _ => .inl rfl
  · intro ho u hu
    have hut : u ≠ t := by grind [Pc.brings]
    have hu' : (st.pc u).brings ≠ none := by grind
    exact absurd ((h.task ho u hu').2 t hbrings).symm hut
  · intro hc u op hu
    have hut : u ≠ t := by grind
    have hu' : st.pc u = .ready op := by grind [Pc.wakeUp_eq_ready]
    rcases h.after hc u op hu' with hfree | ⟨-, hsole⟩
    · exact .inl hfree
    · exact absurd (hsole.2 t hbrings).symm hut

theorem Promised.step (h : Promised o st) (hfreeing : Freeing st) (hp : st.Permitted a) (hm : Moved o st a st') : Promised o st' := by
  cases hm with
  | call hpc hmay => exact h.call hp hpc hmay (.call hpc hmay)
  | complete hpc hdone => exact h.complete hpc
  | read hpc hreads =>
    refine h.frame ?_ ?_ ?_ ?_ ?_
    · exact id
    · rfl
    · rfl
    · cases hreads <;> grind [Pc.brings, Op.completion]
    · grind
  | @free t hpc =>
    have hc : st.caller = .freeing t := (hfreeing t).mpr (by rw [hpc]; rfl)
    refine h.frame ?_ ?_ ?_ ?_ ?_
    · simp [hc]
    · rfl
    · rfl
    · grind [Pc.brings, Op.completion]
    · grind
  | _ =>
    refine h.frame ?_ ?_ ?_ ?_ ?_
    · exact id
    · rfl
    · rfl
    · grind [Pc.brings, Op.completion]
    · grind

end Ccollections.Cthreadpool
