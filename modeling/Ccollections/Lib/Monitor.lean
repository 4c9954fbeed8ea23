import Mathlib.Data.Finset.Card
import Mathlib.Logic.Function.Basic
import Mathlib.Logic.Relation

/-!
# Monitors with condition variables

Threads call the operations of an object. An operation runs in sections that hold the mutex of the object from
beginning to end: it either goes to sleep on a condition variable, which gives the mutex up, or returns. A woken
thread takes the mutex again and runs its next section.
-/

namespace Ccollections.Lib

open Function

/-- The threads asleep on a condition variable, and those that are awake but have not taken the mutex again. -/
structure CondVar where
  asleep : Finset Nat
  woken : Finset Nat
  deriving DecidableEq

namespace CondVar

def empty : CondVar := ⟨∅, ∅⟩

def sleep (c : CondVar) (t : Nat) : CondVar := { c with asleep := insert t c.asleep }

def wake (c : CondVar) (t : Nat) : CondVar := ⟨c.asleep.erase t, insert t c.woken⟩

def wakeAll (c : CondVar) : CondVar := ⟨∅, c.woken ∪ c.asleep⟩

def leave (c : CondVar) (t : Nat) : CondVar := { c with woken := c.woken.erase t }

/-- The threads that have not come back from their wait. -/
def count (c : CondVar) : Nat := c.asleep.card + c.woken.card

def Split (c : CondVar) : Prop := Disjoint c.asleep c.woken

variable {c : CondVar} {t : Nat}

theorem split_empty : empty.Split := Finset.disjoint_empty_left _

theorem Split.wake (h : c.Split) : (c.wake t).Split := by
  simp only [Split, CondVar.wake, Finset.disjoint_insert_right, Finset.mem_erase, ne_eq, not_true_eq_false, false_and,
    not_false_eq_true, true_and]
  exact h.mono_left (Finset.erase_subset t c.asleep)

theorem Split.sleep (h : c.Split) (ht : t ∉ c.woken) : (c.sleep t).Split := by
  simp only [Split, CondVar.sleep, Finset.disjoint_insert_left]
  exact ⟨ht, h⟩

theorem Split.wakeAll (c : CondVar) : c.wakeAll.Split := Finset.disjoint_empty_left _

theorem card_wake (h : c.Split) (ht : t ∈ c.asleep) :
    (c.wake t).asleep.card + 1 = c.asleep.card ∧ (c.wake t).woken.card = c.woken.card + 1 :=
  ⟨Finset.card_erase_add_one ht, Finset.card_insert_of_notMem (Finset.disjoint_left.mp h ht)⟩

theorem card_wakeAll (h : c.Split) : c.wakeAll.woken.card = c.count := by
  rw [wakeAll, count, Finset.card_union_of_disjoint h.symm, Nat.add_comm]

theorem count_wake (h : c.Split) (ht : t ∈ c.asleep) : (c.wake t).count = c.count := by
  have hcard := card_wake h ht
  simp only [count]
  omega

theorem count_wakeAll (h : c.Split) : c.wakeAll.count = c.count := by
  have hcard := card_wakeAll h
  simp only [count, wakeAll, Finset.card_empty] at hcard ⊢
  omega

theorem count_leave (ht : t ∈ c.woken) : (c.leave t).count + 1 = c.count := by
  have hcard := Finset.card_erase_add_one ht
  simp only [count, leave]
  omega

theorem count_sleep (ht : t ∉ c.asleep) : (c.sleep t).count = c.count + 1 := by
  have hcard := Finset.card_insert_of_notMem ht
  simp only [count, sleep]
  omega

end CondVar

/-- A signal wakes one sleeper, a broadcast all. -/
inductive Notify (κ : Type) where
  | one (c : κ)
  | all (c : κ)

inductive Leave (σ κ ρ : Type) where
  | sleep (s : σ) (c : κ)
  | done (s : σ) (r : ρ) (notify : Option (Notify κ))

/-- The sections of the operations `ο`: the first one, and the ones after a wait. -/
structure Monitor (σ κ ο ι ρ : Type) where
  enter : σ → ο → ι → Leave σ κ ρ
  resume : σ → ο → ι → Leave σ κ ρ

/-- Where a thread is: outside, before its first section, or on a condition variable. -/
inductive Place (κ ο : Type) where
  | idle
  | ready (o : ο)
  | waiting (o : ο) (c : κ)

inductive MonitorEvent (ο ρ : Type) where
  | called (t : Nat) (o : ο)
  | returned (t : Nat) (o : ο) (r : ρ)

structure MonitorState (σ κ ο ρ : Type) where
  obj : σ
  conds : κ → CondVar
  threads : Nat → Place κ ο
  history : List (MonitorEvent ο ρ)

/-- `run` names the thread that a signal wakes; `wake` ends a wait without a signal. -/
inductive MonitorAction (ο ι : Type) where
  | call (t : Nat) (o : ο)
  | run (t : Nat) (i : ι) (wakes : Nat)
  | wake (t : Nat)

namespace Monitor

variable {σ κ ο ι ρ : Type} [DecidableEq κ]

def notify (conds : κ → CondVar) (wakes : Nat) : Option (Notify κ) → Option (κ → CondVar)
  | none => some conds
  | some (.all c) => some (update conds c (conds c).wakeAll)
  | some (.one c) =>
    if (conds c).asleep = ∅ then some conds
    else if wakes ∈ (conds c).asleep then some (update conds c ((conds c).wake wakes))
    else none

def finish (st : MonitorState σ κ ο ρ) (conds : κ → CondVar) (t : Nat) (o : ο) (wakes : Nat) :
    Leave σ κ ρ → Option (MonitorState σ κ ο ρ)
  | .sleep s c => some ⟨s, update conds c ((conds c).sleep t), update st.threads t (.waiting o c), st.history⟩
  | .done s r note =>
    (notify conds wakes note).map fun conds =>
      ⟨s, conds, update st.threads t .idle, st.history ++ [.returned t o r]⟩

def step (m : Monitor σ κ ο ι ρ) (st : MonitorState σ κ ο ρ) : MonitorAction ο ι → Option (MonitorState σ κ ο ρ)
  | .call t o =>
    match st.threads t with
    | .idle => some { st with threads := update st.threads t (.ready o), history := st.history ++ [.called t o] }
    | _ => none
  | .run t i wakes =>
    match st.threads t with
    | .idle => none
    | .ready o => finish st st.conds t o wakes (m.enter st.obj o i)
    | .waiting o c =>
      if t ∈ (st.conds c).woken then
        finish st (update st.conds c ((st.conds c).leave t)) t o wakes (m.resume st.obj o i)
      else none
  | .wake t =>
    match st.threads t with
    | .waiting _ c =>
      if t ∈ (st.conds c).asleep then some { st with conds := update st.conds c ((st.conds c).wake t) } else none
    | _ => none

def initial (s : σ) : MonitorState σ κ ο ρ := ⟨s, fun _ => .empty, fun _ => .idle, []⟩

/-- The states that some interleaving of the sections reaches. -/
inductive Reachable (m : Monitor σ κ ο ι ρ) (s : σ) : MonitorState σ κ ο ρ → Prop
  | initial : Reachable m s (initial s)
  | step {st st' : MonitorState σ κ ο ρ} {a : MonitorAction ο ι} (h : Reachable m s st) (hstep : m.step st a = some st') :
      Reachable m s st'

variable {m : Monitor σ κ ο ι ρ} {s : σ} {st st' : MonitorState σ κ ο ρ} {a : MonitorAction ο ι} {conds conds' : κ → CondVar}
  {c c' : κ} {t u wakes : Nat} {o : ο} {i : ι} {note : Option (Notify κ)}

theorem Reachable.invariant {P : MonitorState σ κ ο ρ → Prop} (hinit : P (Monitor.initial s))
    (hstep : ∀ st a st', P st → m.step st a = some st' → P st') (h : m.Reachable s st) : P st := by
  induction h with
  | initial => exact hinit
  | step _ hs ih => exact hstep _ _ _ ih hs

def steps (m : Monitor σ κ ο ι ρ) (st : MonitorState σ κ ο ρ) : List (MonitorAction ο ι) → Option (MonitorState σ κ ο ρ)
  | [] => some st
  | a :: acts => (m.step st a).bind fun st => m.steps st acts

theorem Reachable.steps {acts : List (MonitorAction ο ι)} (h : m.Reachable s st) (hrun : m.steps st acts = some st') :
    m.Reachable s st' := by
  induction acts generalizing st with
  | nil =>
    cases hrun
    exact h
  | cons a acts ih =>
    obtain ⟨st₁, hstep, hrest⟩ := Option.bind_eq_some_iff.mp hrun
    exact ih (h.step hstep) hrest

/-- A thread takes the mutex and runs a section. -/
inductive Began (m : Monitor σ κ ο ι ρ) (st : MonitorState σ κ ο ρ) (t : Nat) (o : ο) (i : ι) :
    (κ → CondVar) → Leave σ κ ρ → Prop
  | enter (hplace : st.threads t = .ready o) : Began m st t o i st.conds (m.enter st.obj o i)
  | resume {c : κ} (hplace : st.threads t = .waiting o c) (hwoken : t ∈ (st.conds c).woken) :
      Began m st t o i (update st.conds c ((st.conds c).leave t)) (m.resume st.obj o i)

theorem step_cases (h : m.step st a = some st') :
    (∃ t o, st.threads t = .idle ∧
      st' = { st with threads := update st.threads t (.ready o), history := st.history ++ [.called t o] }) ∨
    (∃ t o c, st.threads t = .waiting o c ∧ t ∈ (st.conds c).asleep ∧
      st' = { st with conds := update st.conds c ((st.conds c).wake t) }) ∨
    (∃ t o i conds s c, Began m st t o i conds (.sleep s c) ∧
      st' = ⟨s, update conds c ((conds c).sleep t), update st.threads t (.waiting o c), st.history⟩) ∨
    ∃ t o i wakes conds s r note conds', Began m st t o i conds (.done s r note) ∧ notify conds wakes note = some conds' ∧
      st' = ⟨s, conds', update st.threads t .idle, st.history ++ [.returned t o r]⟩ := by
  have hfinish : ∀ t o i wakes conds leave, Began m st t o i conds leave → finish st conds t o wakes leave = some st' →
      (∃ t o i conds s c, Began m st t o i conds (.sleep s c) ∧
        st' = ⟨s, update conds c ((conds c).sleep t), update st.threads t (.waiting o c), st.history⟩) ∨
      ∃ t o i wakes conds s r note conds', Began m st t o i conds (.done s r note) ∧ notify conds wakes note = some conds' ∧
        st' = ⟨s, conds', update st.threads t .idle, st.history ++ [.returned t o r]⟩ := by
    intro t o i wakes conds leave hbegan hfin
    cases leave with
    | sleep s c =>
      cases hfin
      exact .inl ⟨t, o, i, conds, s, c, hbegan, rfl⟩
    | done s r note =>
      obtain ⟨conds', hnotify, rfl⟩ := Option.map_eq_some_iff.mp hfin
      exact .inr ⟨t, o, i, wakes, conds, s, r, note, conds', hbegan, hnotify, rfl⟩
  cases a with
  | call t o =>
    simp only [step] at h
    split at h
    · rename_i hplace
      cases h
      exact .inl ⟨t, o, hplace, rfl⟩
    · cases h
  | wake t =>
    simp only [step] at h
    split at h
    · rename_i o c hplace
      split at h
      · rename_i hasleep
        cases h
        exact .inr (.inl ⟨t, o, c, hplace, hasleep, rfl⟩)
      · cases h
    · cases h
  | run t i wakes =>
    simp only [step] at h
    split at h
    · cases h
    · rename_i o hplace
      exact .inr (.inr (hfinish t o i wakes _ _ (.enter hplace) h))
    · rename_i o c hplace
      split at h
      · rename_i hwoken
        exact .inr (.inr (hfinish t o i wakes _ _ (.resume hplace hwoken) h))
      · cases h

/-! ## Where the threads of a condition variable are -/

/-- The threads on a condition variable wait on it, and none of them is both asleep and awake. -/
structure Placed (conds : κ → CondVar) (threads : Nat → Place κ ο) : Prop where
  asleep : ∀ c, ∀ t ∈ (conds c).asleep, ∃ o, threads t = .waiting o c
  woken : ∀ c, ∀ t ∈ (conds c).woken, ∃ o, threads t = .waiting o c
  split : ∀ c, (conds c).Split

theorem notify_cases (h : notify conds wakes note = some conds') (c : κ) :
    (note = some (.all c) ∧ conds' c = (conds c).wakeAll) ∨
    (note = some (.one c) ∧ ∃ t ∈ (conds c).asleep, conds' c = (conds c).wake t) ∨
    (conds' c = conds c ∧ note ≠ some (.all c) ∧ (note = some (.one c) → (conds c).asleep = ∅)) := by
  cases note with
  | none =>
    cases h
    exact .inr (.inr ⟨rfl, by simp, by simp⟩)
  | some n =>
    cases n with
    | all d =>
      cases h
      by_cases hd : c = d
      · subst hd
        exact .inl ⟨rfl, by simp⟩
      · exact .inr (.inr ⟨by simp [hd], by simpa using Ne.symm hd, by simp⟩)
    | one d =>
      simp only [notify] at h
      split_ifs at h with hnone hwakes
      · cases h
        refine .inr (.inr ⟨rfl, by simp, ?_⟩)
        intro heq
        cases heq
        exact hnone
      · cases h
        by_cases hd : c = d
        · subst hd
          exact .inr (.inl ⟨rfl, wakes, hwakes, by simp⟩)
        · exact .inr (.inr ⟨by simp [hd], by simp, fun heq => absurd (by simpa using heq) (Ne.symm hd)⟩)

theorem mem_of_notify (h : notify conds wakes note = some conds') {c : κ} (hu : u ∈ (conds' c).asleep ∨ u ∈ (conds' c).woken) :
    u ∈ (conds c).asleep ∨ u ∈ (conds c).woken := by
  obtain ⟨-, heq⟩ | ⟨-, t, ht, heq⟩ | ⟨heq, -⟩ := notify_cases h c
  · rw [heq] at hu
    simpa [CondVar.wakeAll, or_comm] using hu
  · rw [heq] at hu
    simp only [CondVar.wake, Finset.mem_erase, Finset.mem_insert] at hu
    rcases hu with hu | rfl | hu
    · exact .inl hu.2
    · exact .inl ht
    · exact .inr hu
  · rwa [heq] at hu

theorem split_of_notify (h : notify conds wakes note = some conds') (hsplit : ∀ c, (conds c).Split) (c : κ) : (conds' c).Split := by
  obtain ⟨-, heq⟩ | ⟨-, t, ht, heq⟩ | ⟨heq, -⟩ := notify_cases h c
  · rw [heq]
    exact .wakeAll _
  · rw [heq]
    exact (hsplit c).wake
  · rw [heq]
    exact hsplit c

theorem count_of_notify (h : notify conds wakes note = some conds') (hsplit : ∀ c, (conds c).Split) (c : κ) :
    (conds' c).count = (conds c).count := by
  obtain ⟨-, heq⟩ | ⟨-, t, ht, heq⟩ | ⟨heq, -⟩ := notify_cases h c
  · rw [heq, CondVar.count_wakeAll (hsplit c)]
  · rw [heq, CondVar.count_wake (hsplit c) ht]
  · rw [heq]

/-- The running thread is on no condition variable, and the others are where they were. -/
theorem Began.placed {leave : Leave σ κ ρ} (hp : Placed st.conds st.threads) (h : Began m st t o i conds leave) :
    Placed conds st.threads ∧ ∀ c, t ∉ (conds c).asleep ∧ t ∉ (conds c).woken := by
  cases h with
  | enter hplace =>
    refine ⟨hp, fun c => ⟨fun ht => ?_, fun ht => ?_⟩⟩
    · obtain ⟨o', h⟩ := hp.asleep c t ht
      simp [hplace] at h
    · obtain ⟨o', h⟩ := hp.woken c t ht
      simp [hplace] at h
  | @resume d hplace hwoken =>
    have hwhere : ∀ c o', st.threads t = .waiting o' c → c = d := by
      intro c o' h
      rw [hplace] at h
      cases h
      rfl
    have hasleep : ∀ c, ((update st.conds d ((st.conds d).leave t)) c).asleep = (st.conds c).asleep := by
      intro c
      by_cases hc : c = d
      · subst hc
        simp [CondVar.leave]
      · simp [hc]
    have hwokenSub : ∀ c, ((update st.conds d ((st.conds d).leave t)) c).woken = (st.conds c).woken.erase t := by
      intro c
      by_cases hc : c = d
      · subst hc
        simp [CondVar.leave]
      · have hnot : t ∉ (st.conds c).woken := fun h => hc (hwhere c _ (hp.woken c t h).choose_spec)
        simp [hc, Finset.erase_eq_of_notMem hnot]
    refine ⟨⟨?_, ?_, ?_⟩, ?_⟩
    · intro c u hu
      rw [hasleep] at hu
      exact hp.asleep c u hu
    · intro c u hu
      rw [hwokenSub] at hu
      exact hp.woken c u (Finset.mem_of_mem_erase hu)
    · intro c
      rw [CondVar.Split, hasleep, hwokenSub]
      exact (hp.split c).mono_right (Finset.erase_subset t _)
    · intro c
      rw [hasleep, hwokenSub]
      refine ⟨fun h => ?_, Finset.notMem_erase t _⟩
      obtain rfl := hwhere c _ (hp.asleep c t h).choose_spec
      exact Finset.disjoint_left.mp (hp.split c) h hwoken

theorem Placed.step (hp : Placed st.conds st.threads) (h : m.step st a = some st') : Placed st'.conds st'.threads := by
  obtain ⟨t, o, hidle, rfl⟩ | ⟨t, o, d, hplace, hasleep, rfl⟩ | ⟨t, o, i, conds, s, d, hbegan, rfl⟩ |
    ⟨t, o, i, wakes, conds, s, r, note, conds', hbegan, hnotify, rfl⟩ := step_cases h
  · have hne : ∀ u c o', st.threads u = .waiting o' c → u ≠ t := by
      rintro u c o' hwait rfl
      rw [hidle] at hwait
      cases hwait
    dsimp only
    refine ⟨?_, ?_, hp.split⟩
    · intro c u hu
      obtain ⟨o', h⟩ := hp.asleep c u hu
      exact ⟨o', by rw [update_of_ne (hne u c o' h), h]⟩
    · intro c u hu
      obtain ⟨o', h⟩ := hp.woken c u hu
      exact ⟨o', by rw [update_of_ne (hne u c o' h), h]⟩
  · dsimp only
    refine ⟨?_, ?_, ?_⟩
    · intro c u hu
      by_cases hc : c = d
      · subst hc
        rw [update_self] at hu
        exact hp.asleep c u (Finset.mem_of_mem_erase hu)
      · rw [update_of_ne hc] at hu
        exact hp.asleep c u hu
    · intro c u hu
      by_cases hc : c = d
      · subst hc
        rw [update_self] at hu
        rcases Finset.mem_insert.mp hu with rfl | hu
        · exact ⟨o, hplace⟩
        · exact hp.woken c u hu
      · rw [update_of_ne hc] at hu
        exact hp.woken c u hu
    · intro c
      by_cases hc : c = d
      · subst hc
        rw [update_self]
        exact (hp.split c).wake
      · rw [update_of_ne hc]
        exact hp.split c
  · obtain ⟨hp', hout⟩ := hbegan.placed hp
    have hother : ∀ u c o', u ≠ t → st.threads u = .waiting o' c → ∃ o', update st.threads t (.waiting o d) u = .waiting o' c :=
      fun u c o' hu h => ⟨o', by rw [update_of_ne hu, h]⟩
    dsimp only
    refine ⟨?_, ?_, ?_⟩
    · intro c u hu
      by_cases hc : c = d
      · subst hc
        rw [update_self] at hu
        rcases Finset.mem_insert.mp hu with rfl | hu
        · exact ⟨o, by rw [update_self]⟩
        · obtain ⟨o', h⟩ := hp'.asleep c u hu
          exact hother u c o' (fun heq => (hout c).1 (heq ▸ hu)) h
      · rw [update_of_ne hc] at hu
        obtain ⟨o', h⟩ := hp'.asleep c u hu
        exact hother u c o' (fun heq => (hout c).1 (heq ▸ hu)) h
    · intro c u hu
      have hu' : u ∈ (conds c).woken := by
        by_cases hc : c = d
        · subst hc
          rwa [update_self] at hu
        · rwa [update_of_ne hc] at hu
      obtain ⟨o', h⟩ := hp'.woken c u hu'
      exact hother u c o' (fun heq => (hout c).2 (heq ▸ hu')) h
    · intro c
      by_cases hc : c = d
      · subst hc
        rw [update_self]
        exact (hp'.split c).sleep (hout c).2
      · rw [update_of_ne hc]
        exact hp'.split c
  · obtain ⟨hp', hout⟩ := hbegan.placed hp
    have hmem : ∀ c u, u ∈ (conds' c).asleep ∨ u ∈ (conds' c).woken → ∃ o', update st.threads t .idle u = .waiting o' c := by
      intro c u hu
      have hu' := mem_of_notify hnotify hu
      have hne : u ≠ t := by
        rintro rfl
        exact hu'.elim (hout c).1 (hout c).2
      obtain ⟨o', h⟩ := hu'.elim (hp'.asleep c u) (hp'.woken c u)
      exact ⟨o', by rw [update_of_ne hne, h]⟩
    exact ⟨fun c u hu => hmem c u (.inl hu), fun c u hu => hmem c u (.inr hu), split_of_notify hnotify hp'.split⟩

theorem Reachable.placed (h : m.Reachable s st) : Placed st.conds st.threads := by
  apply Reachable.invariant (P := fun st => Placed st.conds st.threads) _ (fun _ _ _ hp hs => hp.step hs) h
  exact ⟨by simp [Monitor.initial, CondVar.empty], by simp [Monitor.initial, CondVar.empty], fun _ => CondVar.split_empty⟩

end Monitor

end Ccollections.Lib
