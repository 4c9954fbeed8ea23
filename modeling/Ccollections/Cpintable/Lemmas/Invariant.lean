import Mathlib.Algebra.BigOperators.Group.Finset.Basic
import Mathlib.Algebra.Order.BigOperators.Group.Finset
import Mathlib.Data.Finset.Card
import Mathlib.Tactic.Linarith
import Ccollections.Cpintable.Cpintable

/-!
# The invariant of the pin table
-/

namespace Ccollections.Cpintable

/-- Whether the access a thread makes next comes after its increment of a counter and before the decrement. -/
def pcToken : Pc → UInt32 → Nat
  | .pinRecheck h, idx => if handleIdx h = idx then 1 else 0
  | .pinBackOut h, idx => if handleIdx h = idx then 1 else 0
  | .pinPtr h, idx => if handleIdx h = idx then 1 else 0
  | .unpinChunk h, idx => if handleIdx h = idx then 1 else 0
  | .unpinStripes h, idx => if handleIdx h = idx then 1 else 0
  | .unpinSub h, idx => if handleIdx h = idx then 1 else 0
  | _, _ => 0

def Thread.tokens (th : Thread) (idx : UInt32) : Nat :=
  th.held.countP (fun pin => handleIdx pin.1 = idx) + pcToken th.pc idx

def Thread.Holds (th : Thread) (idx gen : UInt32) : Prop :=
  (∃ pin ∈ th.held, handleIdx pin.1 = idx ∧ handleGen pin.1 = gen) ∨
    ∃ h, th.pc = .pinPtr h ∧ handleIdx h = idx ∧ handleGen h = gen

theorem Thread.Holds.tokens_pos {th : Thread} {idx gen : UInt32} (h : th.Holds idx gen) : 0 < th.tokens idx := by
  rcases h with ⟨pin, hmem, hidx, -⟩ | ⟨handle, hpc, hidx, -⟩
  · have hpos : 0 < th.held.countP (fun pin => handleIdx pin.1 = idx) :=
      List.countP_pos_iff.mpr ⟨pin, hmem, by simpa using hidx⟩
    exact Nat.lt_of_lt_of_le hpos (Nat.le_add_right _ _)
  · simp [Thread.tokens, hpc, pcToken, hidx]

variable {T : Type}

def Guard (s : State T) (t : T) (idx gen : UInt32) : Prop :=
  s.writer = some t ∧ chunkIdx idx < ccolPinMaxChunks ∧ ∀ q ∈ s.published idx, q.1 ∈ s.drained idx ∧ q.1 ≠ gen

def PcOk (s : State T) (t : T) : Pc → Prop
  | .pinClaim h => (s.slots (handleIdx h)).stripes.isSome ∧ (s.threads t).stripeId = 0
  | .pinAdd h => (s.slots (handleIdx h)).stripes.isSome ∧ (s.threads t).stripeId ≠ 0
  | .pinPtr h => (handleGen h, (s.slots (handleIdx h)).ptr) ∈ s.published (handleIdx h)
  | .publishChunk idx gen _ => Guard s t idx gen
  | .publishStoreChunk idx gen _ => Guard s t idx gen
  | .publishStripes idx gen _ => Guard s t idx gen ∧ s.chunks (chunkIdx idx)
  | .publishStoreStripes idx gen _ => Guard s t idx gen ∧ s.chunks (chunkIdx idx) ∧ (s.slots idx).stripes.isNone
  | .publishPtr idx gen _ => Guard s t idx gen
  | .publishState idx gen ptr => Guard s t idx gen ∧ (s.slots idx).ptr = ptr
  | .retireChunk _ => s.writer = some t
  | .retireLoad _ => s.writer = some t
  | .retireStore idx st => s.writer = some t ∧ (s.slots idx).state = st
  | .pinsChunk idx after => after ⊆ s.retired idx
  | .pinsStripes idx after => after ⊆ s.retired idx
  | .pinsLoad idx i accumulated after =>
    after ⊆ s.retired idx ∧ 0 ≤ accumulated ∧
      (accumulated = 0 → ∀ gen ∈ after, ∀ t', (s.threads t').Holds idx gen → i ≤ (s.threads t').stripe)
  | .pinsReturn idx result after =>
    after ⊆ s.retired idx ∧ (result = 0 → ∀ gen ∈ after, ∀ t', ¬(s.threads t').Holds idx gen)
  | _ => True

def State.load [Fintype T] (s : State T) (idx : UInt32) (stripe : Nat) : Int :=
  ∑ t, if (s.threads t).stripe = stripe then ((s.threads t).tokens idx : Int) else 0

structure Inv [Fintype T] (s : State T) : Prop where
  counts : ∀ idx stripe, s.load idx stripe ≤ s.count idx stripe
  unassigned : ∀ t, (s.threads t).stripeId = 0 → ∀ idx, (s.threads t).tokens idx = 0
  live : ∀ idx gen, (s.slots idx).state = { gen := gen, live := true } →
    (gen, (s.slots idx).ptr) ∈ s.published idx ∧ gen ∉ s.retired idx
  distinct : ∀ idx, ((s.published idx).map Prod.fst).Nodup
  retired_published : ∀ idx gen, gen ∈ s.retired idx → ∃ ptr, (gen, ptr) ∈ s.published idx
  drained_retired : ∀ idx gen, gen ∈ s.drained idx → gen ∈ s.retired idx
  drained_free : ∀ idx gen, gen ∈ s.drained idx → ∀ t, ¬(s.threads t).Holds idx gen
  chunk : ∀ idx, (s.slots idx).stripes.isSome → s.chunks (chunkIdx idx)
  chunk_lt : ∀ c, s.chunks c → c < ccolPinMaxChunks
  pcs : ∀ t, PcOk s t (s.threads t).pc
  held : ∀ t, ∀ pin ∈ (s.threads t).held, (handleGen pin.1, pin.2) ∈ s.published (handleIdx pin.1)

/-! ## Counters and loads -/

theorem slots_addCount (s : State T) (idx : UInt32) (stripe : Nat) (d : Int) (idx' : UInt32) :
    ((s.addCount idx stripe d).slots idx').state = (s.slots idx').state ∧
      ((s.addCount idx stripe d).slots idx').ptr = (s.slots idx').ptr ∧
      ((s.addCount idx stripe d).slots idx').stripes.isSome = (s.slots idx').stripes.isSome := by
  by_cases hidx : idx' = idx
  · subst hidx
    simp [State.addCount, State.setSlot]
  · simp [State.addCount, State.setSlot, Function.update_of_ne hidx]

theorem count_addCount (s : State T) (idx : UInt32) (stripe : Nat) (d : Int) (idx' : UInt32) (stripe' : Nat) :
    (s.addCount idx stripe d).count idx' stripe' =
      s.count idx' stripe' + if idx' = idx ∧ stripe' = stripe ∧ (s.slots idx).stripes.isSome then d else 0 := by
  by_cases hidx : idx' = idx
  · subst hidx
    cases hst : (s.slots idx').stripes with
    | none => simp [State.addCount, State.setSlot, State.count, hst]
    | some count =>
      by_cases hstripe : stripe' = stripe
      · subst hstripe
        simp [State.addCount, State.setSlot, State.count, hst]
      · simp [State.addCount, State.setSlot, State.count, hst, hstripe]
  · simp [State.addCount, State.setSlot, State.count, hidx]

section Load

variable [Fintype T]

theorem load_nonneg (s : State T) (idx : UInt32) (stripe : Nat) : 0 ≤ s.load idx stripe := by
  apply Finset.sum_nonneg
  intro t _
  split
  · exact Int.natCast_nonneg _
  · exact Int.le_refl _

variable [DecidableEq T]

theorem load_setThread (s : State T) (t : T) (th : Thread) (idx : UInt32) (stripe : Nat) :
    (s.setThread t th).load idx stripe = s.load idx stripe -
      (if (s.threads t).stripe = stripe then ((s.threads t).tokens idx : Int) else 0) +
      (if th.stripe = stripe then (th.tokens idx : Int) else 0) := by
  have hmem := Finset.mem_univ t
  have hrest : ∑ t' ∈ Finset.univ.erase t, (if ((s.setThread t th).threads t').stripe = stripe then
        (((s.setThread t th).threads t').tokens idx : Int) else 0) =
      ∑ t' ∈ Finset.univ.erase t, (if (s.threads t').stripe = stripe then ((s.threads t').tokens idx : Int) else 0) := by
    apply Finset.sum_congr rfl
    intro t' ht'
    rw [threads_setThread_of_ne s (Finset.ne_of_mem_erase ht')]
  rw [State.load, State.load, ← Finset.add_sum_erase _ _ hmem, ← Finset.add_sum_erase _ _ hmem, hrest, threads_setThread_self]
  omega

theorem tokens_le_load (s : State T) (t : T) (idx : UInt32) :
    ((s.threads t).tokens idx : Int) ≤ s.load idx (s.threads t).stripe := by
  -- taking the thread's increments away leaves a load
  have hrest := load_nonneg (s.setThread t { stripeId := 0, pc := .idle, held := [] }) idx (s.threads t).stripe
  rw [load_setThread, if_pos rfl] at hrest
  have hnone : Thread.tokens { stripeId := 0, pc := .idle, held := [] } idx = 0 := rfl
  simp only [hnone, Nat.cast_zero, ite_self, add_zero] at hrest
  omega

end Load

/-! ## What a step leaves to the other threads -/

structure Ext (t : T) (s s' : State T) : Prop where
  threads : ∀ t', t' ≠ t → s'.threads t' = s.threads t'
  writer : ∀ t', t' ≠ t → s.writer = some t' → s'.writer = some t'
  stripes : ∀ idx, (s.slots idx).stripes.isSome → (s'.slots idx).stripes.isSome
  chunks : ∀ c, s.chunks c → s'.chunks c
  published : ∀ idx, s.published idx ⊆ s'.published idx
  retired : ∀ idx, s.retired idx ⊆ s'.retired idx
  drained : ∀ idx, s.drained idx ⊆ s'.drained idx
  /-- Only the thread with the writer lock publishes, retires or allocates. -/
  owner : s.writer = some t ∨ ∀ idx, s'.published idx = s.published idx ∧ (s'.slots idx).state = (s.slots idx).state ∧
    (s'.slots idx).ptr = (s.slots idx).ptr ∧ ((s.slots idx).stripes.isNone → (s'.slots idx).stripes.isNone)
  ptr : ∀ idx, (s'.slots idx).ptr = (s.slots idx).ptr ∨ ∀ t' gen, ¬(s.threads t').Holds idx gen
  /-- No thread gets a pin for a retired occupancy. -/
  holds : ∀ idx gen, gen ∈ s.retired idx → (s'.threads t).Holds idx gen → (s.threads t).Holds idx gen
  stripe : (s.threads t).stripeId ≠ 0 → (s'.threads t).stripeId = (s.threads t).stripeId

section Frame

variable {t : T} {s s' : State T}

theorem Ext.holds_any (he : Ext t s s') {idx gen : UInt32} (hret : gen ∈ s.retired idx) {t' : T}
    (h : (s'.threads t').Holds idx gen) : (s.threads t').Holds idx gen := by
  classical
  by_cases htt : t' = t
  · subst htt
    exact he.holds idx gen hret h
  · rwa [he.threads t' htt] at h

theorem Ext.stripe_eq (he : Ext t s s') {t' : T} (h : (s.threads t').stripeId ≠ 0) :
    (s'.threads t').stripe = (s.threads t').stripe := by
  classical
  by_cases htt : t' = t
  · subst htt
    rw [Thread.stripe, he.stripe h, Thread.stripe]
  · rw [he.threads t' htt]

theorem Ext.guard (he : Ext t s s') {t' : T} (hne : t' ≠ t) {idx gen : UInt32} (hg : Guard s t' idx gen) :
    Guard s' t' idx gen := by
  obtain ⟨hw, hlt, hpub⟩ := hg
  refine ⟨he.writer t' hne hw, hlt, fun q hq => ?_⟩
  rcases he.owner with hown | hsame
  · rw [hw] at hown
    exact (hne (Option.some.inj hown)).elim
  · rw [(hsame idx).1] at hq
    exact ⟨he.drained idx (hpub q hq).1, (hpub q hq).2⟩

theorem Ext.same (he : Ext t s s') {t' : T} (hne : t' ≠ t) (hw : s.writer = some t') (idx : UInt32) :
    (s'.slots idx).state = (s.slots idx).state ∧ (s'.slots idx).ptr = (s.slots idx).ptr ∧
      ((s.slots idx).stripes.isNone → (s'.slots idx).stripes.isNone) := by
  rcases he.owner with hown | hsame
  · rw [hw] at hown
    exact (hne (Option.some.inj hown)).elim
  · exact (hsame idx).2

theorem Ext.pcOk [Fintype T] (he : Ext t s s') (hs : Inv s) {t' : T} (hne : t' ≠ t) :
    PcOk s' t' (s'.threads t').pc := by
  have hpc := hs.pcs t'
  have hth := he.threads t' hne
  have hassigned : ∀ {t'' : T} {idx gen : UInt32}, (s.threads t'').Holds idx gen → (s.threads t'').stripeId ≠ 0 := by
    intro t'' idx gen hh hzero
    have hpos := hh.tokens_pos
    rw [hs.unassigned t'' hzero idx] at hpos
    exact absurd hpos (Nat.lt_irrefl 0)
  rw [hth]
  cases hcur : (s.threads t').pc with
  | pinClaim h =>
    rw [hcur] at hpc
    exact ⟨he.stripes _ hpc.1, hth ▸ hpc.2⟩
  | pinAdd h =>
    rw [hcur] at hpc
    exact ⟨he.stripes _ hpc.1, hth ▸ hpc.2⟩
  | pinPtr h =>
    rw [hcur] at hpc
    rcases he.ptr (handleIdx h) with hptr | hfree
    · exact he.published _ (hptr ▸ hpc)
    · exact (hfree t' (handleGen h) (.inr ⟨h, hcur, rfl, rfl⟩)).elim
  | publishChunk idx gen ptr =>
    rw [hcur] at hpc
    exact he.guard hne hpc
  | publishStoreChunk idx gen ptr =>
    rw [hcur] at hpc
    exact he.guard hne hpc
  | publishStripes idx gen ptr =>
    rw [hcur] at hpc
    exact ⟨he.guard hne hpc.1, he.chunks _ hpc.2⟩
  | publishStoreStripes idx gen ptr =>
    rw [hcur] at hpc
    exact ⟨he.guard hne hpc.1, he.chunks _ hpc.2.1, (he.same hne hpc.1.1 idx).2.2 hpc.2.2⟩
  | publishPtr idx gen ptr =>
    rw [hcur] at hpc
    exact he.guard hne hpc
  | publishState idx gen ptr =>
    rw [hcur] at hpc
    exact ⟨he.guard hne hpc.1, (he.same hne hpc.1.1 idx).2.1.trans hpc.2⟩
  | retireChunk idx =>
    rw [hcur] at hpc
    exact he.writer t' hne hpc
  | retireLoad idx =>
    rw [hcur] at hpc
    exact he.writer t' hne hpc
  | retireStore idx st =>
    rw [hcur] at hpc
    exact ⟨he.writer t' hne hpc.1, (he.same hne hpc.1 idx).1.trans hpc.2⟩
  | pinsChunk idx after =>
    rw [hcur] at hpc
    exact fun gen hgen => he.retired idx (hpc hgen)
  | pinsStripes idx after =>
    rw [hcur] at hpc
    exact fun gen hgen => he.retired idx (hpc hgen)
  | pinsLoad idx i accumulated after =>
    rw [hcur] at hpc
    refine ⟨fun gen hgen => he.retired idx (hpc.1 hgen), hpc.2.1, fun hzero gen hgen t'' hh => ?_⟩
    have hold := he.holds_any (hpc.1 hgen) hh
    rw [he.stripe_eq (hassigned hold)]
    exact hpc.2.2 hzero gen hgen t'' hold
  | pinsReturn idx result after =>
    rw [hcur] at hpc
    exact ⟨fun gen hgen => he.retired idx (hpc.1 hgen), fun hzero gen hgen t'' hh =>
      hpc.2 hzero gen hgen t'' (he.holds_any (hpc.1 hgen) hh)⟩
  | _ => exact trivial

end Frame

end Ccollections.Cpintable
