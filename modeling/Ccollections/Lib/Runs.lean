import Mathlib.Data.List.Basic
import Mathlib.Logic.Basic
import Mathlib.Logic.Relation

/-!
# Runs of a state machine and their simulation

A machine takes an input and either gives a new state and an output, or gets stuck. Being stuck stands
for undefined behaviour, so a simulation has to show that it never happens.
-/

namespace Ccollections.Lib

variable {σ τ ι ο : Type*} {step : σ → ι → Option (σ × ο)}

/-- The outputs of a machine over a list of inputs, and the state it ends in. -/
def run (step : σ → ι → Option (σ × ο)) : σ → List ι → Option (σ × List ο)
  | s, [] => some (s, [])
  | s, i :: is => do
    let (s', o) ← step s i
    let (s'', os) ← run step s' is
    return (s'', o :: os)

/-- The runs a specification allows: each step relates a state, an input and an output to a new state. -/
inductive Allows (spec : τ → ι → ο → τ → Prop) : τ → List ι → List ο → τ → Prop
  | nil {t} : Allows spec t [] [] t
  | cons {t i o t' is os t''} (hstep : spec t i o t') (hrest : Allows spec t' is os t'') :
      Allows spec t (i :: is) (o :: os) t''

/-- `R` is a simulation: the machine is never stuck in a related state, and the specification allows its steps. -/
def Simulation (step : σ → ι → Option (σ × ο)) (spec : τ → ι → ο → τ → Prop) (R : σ → τ → Prop) : Prop :=
  ∀ s t i, R s t → ∃ s' o t', step s i = some (s', o) ∧ spec t i o t' ∧ R s' t'

theorem Simulation.run {spec : τ → ι → ο → τ → Prop} {R : σ → τ → Prop}
    (h : Simulation step spec R) {s : σ} {t : τ} (hR : R s t) (is : List ι) :
    ∃ s' os t', Lib.run step s is = some (s', os) ∧ Allows spec t is os t' ∧ R s' t' := by
  induction is generalizing s t with
  | nil => exact ⟨s, [], t, rfl, .nil, hR⟩
  | cons i is ih =>
    obtain ⟨s', o, t', hs, ht, hR'⟩ := h s t i hR
    obtain ⟨s'', os, t'', hrun, hall, hR''⟩ := ih hR'
    exact ⟨s'', o :: os, t'', by simp [Lib.run, hs, hrun], .cons ht hall, hR''⟩

/-- A machine that puts something beside its outputs runs as the one without it. -/
theorem run_map {ο' : Type*} {step' : σ → ι → Option (σ × ο')} {f : ο' → ο}
    (hstep : ∀ s i s' o, step' s i = some (s', o) → step s i = some (s', f o)) {s s' : σ} {is : List ι} {os : List ο'}
    (h : run step' s is = some (s', os)) : run step s is = some (s', os.map f) := by
  induction is generalizing s os with
  | nil =>
    cases h
    rfl
  | cons i is ih =>
    simp only [run, Option.bind_eq_bind, Option.bind_eq_some_iff] at h
    obtain ⟨⟨s₁, o⟩, hs, ⟨s₂, os'⟩, hrest, h⟩ := h
    cases h
    simp only [run, hstep _ _ _ _ hs, ih hrest, Option.bind_eq_bind, Option.bind_some]
    rfl

/-- A step that agrees with a simulated one in every related state has the same runs. -/
theorem Simulation.run_congr {step step' : σ → ι → Option (σ × ο)} {spec : τ → ι → ο → τ → Prop} {R : σ → τ → Prop}
    (h : Simulation step spec R) (heq : ∀ s t i, R s t → step' s i = step s i) {s : σ} {t : τ} (hR : R s t)
    (is : List ι) : Lib.run step' s is = Lib.run step s is := by
  induction is generalizing s t with
  | nil => rfl
  | cons i is ih =>
    obtain ⟨s', o, t', hs, -, hR'⟩ := h s t i hR
    simp only [Lib.run, heq s t i hR, hs, Option.bind_eq_bind, Option.bind_some, ih hR']

/-- A step that keeps an invariant keeps it over whole runs, and every output is one that such a step makes. -/
theorem run_outputs {P : σ → Prop} {Q : ο → Prop}
    (hstep : ∀ s i s' o, P s → step s i = some (s', o) → P s' ∧ Q o) {s s' : σ} {is : List ι} {os : List ο}
    (hs : P s) (hrun : run step s is = some (s', os)) : P s' ∧ ∀ o ∈ os, Q o := by
  induction is generalizing s os with
  | nil =>
    cases hrun
    exact ⟨hs, fun _ h => nomatch h⟩
  | cons i is ih =>
    simp only [run, Option.bind_eq_bind, Option.bind_eq_some_iff] at hrun
    obtain ⟨⟨m, o⟩, hm, ⟨e, os'⟩, hrest, heq⟩ := hrun
    cases heq
    obtain ⟨hPm, ho⟩ := hstep s i m o hs hm
    obtain ⟨hPe, hos⟩ := ih hPm hrest
    exact ⟨hPe, List.forall_mem_cons.mpr ⟨ho, hos⟩⟩

theorem run_invariant {P : σ → Prop}
    (hstep : ∀ s i s' o, P s → step s i = some (s', o) → P s') {s s' : σ} {is : List ι} {os : List ο}
    (hs : P s) (hrun : run step s is = some (s', os)) : P s' :=
  (run_outputs (Q := fun _ => True) (fun s i m o h hm => ⟨hstep s i m o h hm, trivial⟩) hs hrun).1

/-!
# Labelled paths

A path of a labelled step relation with its trace. A program that logs what it does is related to an abstract machine by
the paths its logs are the traces of.
-/

variable {σ ε : Type*} {step : σ → ε → σ → Prop} {s s' s'' : σ} {es es' : List ε} {e : ε}

inductive Path (step : σ → ε → σ → Prop) : σ → List ε → σ → Prop
  | nil {s : σ} : Path step s [] s
  | cons {s s' s'' : σ} {e : ε} {es : List ε} (hstep : step s e s') (hrest : Path step s' es s'') : Path step s (e :: es) s''

namespace Path

theorem single (h : step s e s') : Path step s [e] s' := .cons h .nil

theorem append (h : Path step s es s') (h' : Path step s' es' s'') : Path step s (es ++ es') s'' := by
  induction h with
  | nil => exact h'
  | cons hstep _ ih => exact .cons hstep (ih h')

theorem split {before after : List ε} (h : Path step s (before ++ e :: after) s'') :
    ∃ m m', Path step s before m ∧ step m e m' ∧ Path step m' after s'' := by
  induction before generalizing s with
  | nil =>
    cases h with
    | cons hstep hrest => exact ⟨_, _, .nil, hstep, hrest⟩
  | cons e' before ih =>
    cases h with
    | cons hstep hrest =>
      obtain ⟨m, m', hbefore, he, hafter⟩ := ih hrest
      exact ⟨m, m', .cons hstep hbefore, he, hafter⟩

/-- The rule of invariants, for a property of the state and of the trace so far. -/
theorem invariant {P : σ → List ε → Prop} (hstart : P s []) (hstep : ∀ m seen e m', P m seen → step m e m' → P m' (seen ++ [e]))
    (h : Path step s es s') : P s' es := by
  have hgen : ∀ seen, P s seen → P s' (seen ++ es) := by
    clear hstart
    induction h with
    | nil =>
      intro seen hp
      rwa [List.append_nil]
    | cons hs _ ih =>
      intro seen hp
      have hrest := ih _ (hstep _ _ _ _ hp hs)
      rwa [List.append_assoc] at hrest
  exact hgen [] hstart

end Path

/-!
# Machines that always halt

A machine steps to another state or halts with a result. Each step makes a measure of the state smaller, so the
machine has a result from every state.
-/

structure Machine (σ ρ : Type*) where
  step : σ → σ ⊕ ρ
  measure : σ → Nat
  decreases : ∀ s s', step s = .inl s' → measure s' < measure s

namespace Machine

variable {σ ρ : Type*} (m : Machine σ ρ)

def run (s : σ) : ρ :=
  match _h : m.step s with
  | .inl s' => run s'
  | .inr r => r
termination_by m.measure s
decreasing_by exact m.decreases s _ _h

def Reaches : σ → σ → Prop := Relation.ReflTransGen fun s s' => m.step s = .inl s'

variable {m}

theorem run_step {s s' : σ} (h : m.step s = .inl s') : m.run s = m.run s' := by
  rw [run]
  split
  · rename_i heq
    rw [h] at heq
    cases heq
    rfl
  · rename_i heq
    rw [h] at heq
    cases heq

theorem run_halt {s : σ} {r : ρ} (h : m.step s = .inr r) : m.run s = r := by
  rw [run]
  split
  · rename_i heq
    rw [h] at heq
    cases heq
  · rename_i heq
    rw [h] at heq
    cases heq
    rfl

theorem run_eq (s : σ) : m.run s = (m.step s).elim m.run id := by
  cases h : m.step s with
  | inl s' => exact run_step h
  | inr r => exact run_halt h

theorem Reaches.run {s s' : σ} (h : m.Reaches s s') : m.run s = m.run s' := by
  induction h with
  | refl => rfl
  | tail _ hstep ih => exact ih.trans (run_step hstep)

/-- An invariant that every step keeps holds where the machine halts. -/
theorem run_invariant {P : σ → Prop} {Q : ρ → Prop} (hstep : ∀ s s', P s → m.step s = .inl s' → P s')
    (hhalt : ∀ s r, P s → m.step s = .inr r → Q r) {s : σ} (hs : P s) : Q (m.run s) := by
  induction hn : m.measure s using Nat.strongRecOn generalizing s with
  | ind n ih =>
    cases h : m.step s with
    | inl s' =>
      rw [run_step h]
      exact ih _ (hn ▸ m.decreases s s' h) (hstep s s' hs h) rfl
    | inr r =>
      rw [run_halt h]
      exact hhalt s r hs h

end Machine

/-!
# Reachable states

A machine takes actions, some of which may not be possible in a state. What holds at the start and is kept by every
action holds in every state a run reaches.
-/

variable {σ ι : Type*}

/-- The states that runs of the machine reach from a state. -/
def Reach (step : σ → ι → Option σ) : σ → σ → Prop := Relation.ReflTransGen fun s s' => ∃ i, step s i = some s'

def runs (step : σ → ι → Option σ) : σ → List ι → Option σ
  | s, [] => some s
  | s, i :: is => (step s i).bind (runs step · is)

namespace Reach

variable {step : σ → ι → Option σ} {start s s' : σ}

theorem refl : Reach step s s := Relation.ReflTransGen.refl

theorem tail {i : ι} (h : Reach step start s) (hs : step s i = some s') : Reach step start s' :=
  Relation.ReflTransGen.tail h ⟨i, hs⟩

theorem single {i : ι} (hs : step s i = some s') : Reach step s s' := Relation.ReflTransGen.single ⟨i, hs⟩

theorem trans {s'' : σ} (h : Reach step s s') (h' : Reach step s' s'') : Reach step s s'' :=
  Relation.ReflTransGen.trans h h'

theorem of_runs {is : List ι} (h : runs step s is = some s') : Reach step s s' := by
  induction is generalizing s with
  | nil =>
    obtain rfl := Option.some.inj h
    exact refl
  | cons i is ih =>
    obtain ⟨r, hr, hrest⟩ := Option.bind_eq_some_iff.mp h
    exact (single hr).trans (ih hrest)

theorem exists_of_runs (is : List ι) {p : σ → Bool} (h : (runs step s is).any p = true) :
    ∃ s', Reach step s s' ∧ p s' = true := by
  cases hs : runs step s is with
  | none => simp [hs] at h
  | some s' => exact ⟨s', of_runs hs, by simpa [hs] using h⟩

theorem invariant {P : σ → Prop} (hstart : P start) (hstep : ∀ s i s', P s → step s i = some s' → P s')
    (h : Reach step start s) : P s := by
  induction h with
  | refl => exact hstart
  | tail _ hs ih =>
    obtain ⟨i, hi⟩ := hs
    exact hstep _ i _ ih hi

end Reach

end Ccollections.Lib
