import Ccollections.Cmempool.Lemmas.Exact
import Ccollections.Cmempool.Theorems.Ranged

/-!
# What a pool with thread caches promises
-/

namespace Ccollections.Cmempool
open Lib Option

variable {mp : Mempool} {st st₀ st₁ st₂ : PoolState} {elemCount t : Nat} {fallback singleThreaded keepsCache : Bool}

/-! ## Concrete runs -/

def stepsWhile (P : PoolState → PoolAct → Bool) (st : PoolState) : List PoolAct → Option PoolState
  | [] => some st
  | a :: acts => if P st a then (st.step a).bind fun st => stepsWhile P st acts else none

theorem run_of_stepsWhile {P : PoolState → PoolAct → Bool} {acts : List PoolAct} (h : stepsWhile P st acts = some st₁) :
    PoolState.Run (fun st a => P st a = true) st st₁ := by
  have hrun : ∀ st₀, PoolState.Run (fun st a => P st a = true) st₀ st → PoolState.Run (fun st a => P st a = true) st₀ st₁ := by
    induction acts generalizing st with
    | nil =>
      cases h
      exact fun _ hold => hold
    | cons a acts ih =>
      intro st₀ hold
      rw [stepsWhile] at h
      split at h
      · rename_i hP
        obtain ⟨st₂, hstep, hrest⟩ := bind_eq_some_iff.mp h
        exact ih hrest st₀ (hold.step hP hstep)
      · cases h
  exact hrun st .refl

theorem PoolState.Run.mono {P Q : PoolState → PoolAct → Prop} (h : PoolState.Run P st st₁) (himp : ∀ st a, P st a → Q st a) :
    PoolState.Run Q st st₁ := by
  induction h with
  | refl => exact .refl
  | step _ hP hs ih => exact ih.step (himp _ _ hP) hs

def call (t : Nat) (op : PoolOp) (steps : Nat) : List PoolAct := .call t op :: List.replicate steps (.run t true 0)

def calls (t : Nat) (op : PoolOp) (steps times : Nat) : List PoolAct := (List.replicate times (call t op steps)).flatten

/-- Two threads with magazines hold entries of a pool for 16, and a third one gets two from the reserve. -/
def crowdedRun : List PoolAct :=
  call 1 .allocEntry 6 ++ call 0 .allocEntry 6 ++ calls 0 .allocEntry 1 3 ++ call 0 .allocEntry 3 ++ calls 0 .allocEntry 1 3 ++
    calls 1 .allocEntry 1 3 ++ call 1 .allocEntry 3 ++ calls 2 .allocEntry 5 2

/-- The third thread reads the magazine of thread 0, which then gets three entries, and thread 1 takes three out of its
own. -/
def overtakenRun : List PoolAct :=
  [.run 2 true 0, .run 2 true 0, .run 2 true 0] ++ call 0 (.freeEntry (.slot 4)) 2 ++ call 0 (.freeEntry (.slot 5)) 2 ++
    call 0 (.freeEntry (.slot 6)) 2 ++ calls 1 .allocEntry 1 3 ++ [.run 2 true 0]

/-! ## Every slot in one place -/

/-- Every slot of a pool is in the free list, in one magazine or with one caller, and its status byte says which. -/
theorem cmempool_slots_in_one_place (hcreate : cmempoolCreate elemCount fallback singleThreaded keepsCache = some mp)
    (hrun : PoolState.Run (fun _ _ => True) (.initial mp) st) :
    ∃ freeList magazines : List Nat,
      Seg st.mp.links st.mp.freeInst freeList none ∧
      Seg st.mp.nextOf st.mp.magazines magazines none ∧
      (∀ t, (st.mp.mags t).isSome = true ↔ t ∈ magazines) ∧
      (freeList ++ (st.mp.cached magazines ++ st.heldSlots)).Perm (List.range mp.totalElemCount) ∧
      (∀ i < mp.totalElemCount, st.mp.taken i = true ↔ ∃ t, (.slot i, t) ∈ st.held) ∧
      st.mp.freeElemCount = freeList.length ∧
      (∀ t mag, st.mp.mags t = some mag → mag.slots.length ≤ mag.capacity) ∧
      magazines.Nodup ∧ st.mp.liveMagazines = magazines.length ∧ st.mp.liveMagazines ≤ st.mp.maxMagazines ∧
      ∀ t, st.pcs t ≠ .failed := by
  obtain ⟨F, M, h⟩ := (poolInv_initial hcreate).reached hrun
  have htotal : st.mp.totalElemCount = mp.totalElemCount := congrArg PoolShape.total h.shape
  have hpool := h.pool
  refine ⟨F, M, hpool.free.links, hpool.magazines.next, hpool.magazines.linked, ?_, ?_, hpool.free.count, ?_, hpool.magazines.nodup,
    hpool.magazines.live, ?_, fun t => fail_impossible h⟩
  · rw [← htotal]
    exact hpool.places
  · intro i hi
    rw [← htotal] at hi
    rw [hpool.taken i hi]
    constructor
    · intro hmem
      obtain ⟨⟨e, t⟩, hheld, he⟩ := List.mem_filterMap.mp hmem
      cases e with
      | slot j =>
        cases he
        exact ⟨t, hheld⟩
      | dynamic addr => cases he
    · rintro ⟨t, hheld⟩
      exact mem_heldSlots hheld
  · intro t mag hmag
    exact (hpool.magazines.capacity t mag hmag).2
  · rw [hpool.magazines.live]
    exact hpool.magazines.limit

theorem cmempool_slots_in_one_place_crowded :
    ∃ mp st, cmempoolCreate 16 false false true = some mp ∧ PoolState.Run (fun _ _ => True) (.initial mp) st ∧ st.heldCount = 15 ∧
      ∃ freeList magazines, Seg st.mp.links st.mp.freeInst freeList none ∧
        (freeList ++ (st.mp.cached magazines ++ st.heldSlots)).Perm (List.range mp.totalElemCount) := by
  have hrun : ((cmempoolCreate 16 false false true).bind fun mp => (stepsWhile (fun _ _ => true) (.initial mp) crowdedRun).map PoolState.heldCount) =
      some 15 := by decide +kernel
  obtain ⟨mp, hmp, hsteps⟩ := bind_eq_some_iff.mp hrun
  obtain ⟨st, hst, hheld⟩ := map_eq_some_iff.mp hsteps
  have hreach : PoolState.Run (fun _ _ => True) (.initial mp) st := (run_of_stepsWhile hst).mono fun _ _ _ => trivial
  obtain ⟨F, M, hfree, -, -, hplaces, -⟩ := cmempool_slots_in_one_place hmp hreach
  exact ⟨mp, st, hmp, hreach, hheld, F, M, hfree, hplaces⟩

/-! ## The advertised capacity -/

theorem walkCounts_of_run {s : PoolShape} {F M : List Nat} (h : PoolInv s st F M) (hcounts : WalkCounts s.advertised t st)
    (hrun : PoolState.Run (fun st a => st.heldCount < s.advertised ∧ st.overtakes t a = false) st st₁) :
    (∃ F' M', PoolInv s st₁ F' M') ∧ WalkCounts s.advertised t st₁ := by
  induction hrun with
  | refl => exact ⟨⟨F, M, h⟩, hcounts⟩
  | step _ hP hs ih =>
    obtain ⟨⟨F₁, M₁, hinv⟩, hcounts₁⟩ := ih
    exact ⟨hinv.step hs, WalkCounts.step hinv hcounts₁ hP.1 hP.2 hs⟩

/-- An allocation during which callers hold less than the advertised count returns an entry, if no step takes an entry
ahead of the walk made for the call after one was parked behind it. Its steps end. -/
theorem cmempool_alloc_entry_serves_unless_overtaken
    (hcreate : cmempoolCreate elemCount fallback singleThreaded keepsCache = some mp)
    (hreach : PoolState.Run (fun _ _ => True) (.initial mp) st₀) (hcall : st₀.step (.call t .allocEntry) = some st₁)
    (hrun : PoolState.Run (fun st a => st.heldCount < elemCount ∧ st.overtakes t a = false) st₁ st₂) (hheld : st₂.heldCount < elemCount) :
    (∀ ok addr st₃ r, st₂.step (.run t ok addr) = some st₃ → st₃.history = st₂.history ++ [.returned t .allocEntry r] →
      ∃ e, r = .entry (some e)) ∧
    (0 < st₂.allocSteps t →
      (st₂.blocked t = false → ∀ ok addr, addr ∉ st₂.mp.dynamicEntries →
        ∃ st₃, st₂.step (.run t ok addr) = some st₃ ∧ st₃.allocSteps t < st₂.allocSteps t) ∧
      ∀ a st₃, (∀ ok addr, a ≠ .run t ok addr) → st₂.step a = some st₃ → st₃.allocSteps t = st₂.allocSteps t) := by
  obtain ⟨F₀, M₀, h₀⟩ := (poolInv_initial hcreate).reached hreach
  obtain ⟨F₁, M₁, h₁⟩ := h₀.step hcall
  have hadv : mp.shape.advertised = elemCount := (cmempoolCreate_ok hcreate).2.1
  have hstart : WalkCounts mp.shape.advertised t st₁ := by
    intro mag live hpc
    simp only [PoolState.step] at hcall
    split at hcall
    · cases hcall
      dsimp only at hpc
      rw [Function.update_self] at hpc
      cases hpc
    · cases hcall
  rw [← hadv] at hrun hheld
  obtain ⟨⟨F₂, M₂, h₂⟩, hcounts⟩ := walkCounts_of_run h₁ hstart hrun
  refine ⟨?_, fun hpos => ⟨?_, ?_⟩⟩
  · intro ok addr st₃ r hs hret
    exact h₂.alloc_returns hcounts hheld (run_did hs).2 hret
  · intro hblocked ok addr haddr
    obtain ⟨st₃, hnext⟩ := h₂.alloc_next ok hpos haddr
    have hs : st₂.step (.run t ok addr) = some st₃ := by simpa [PoolState.step, hblocked] using hnext
    exact ⟨st₃, hs, h₂.allocSteps_lt hpos hs⟩
  · intro a st₃ hother hs
    exact h₂.allocSteps_other hpos hs hother

/-- The third thread takes one more entry from the reserve while nobody moves. -/
theorem cmempool_alloc_entry_serves_unless_overtaken_crowded :
    ∃ mp st₀ st₁ st₂ st₃ r, cmempoolCreate 16 false false true = some mp ∧ PoolState.Run (fun _ _ => True) (.initial mp) st₀ ∧
      st₀.step (.call 2 .allocEntry) = some st₁ ∧
      PoolState.Run (fun st a => st.heldCount < 16 ∧ st.overtakes 2 a = false) st₁ st₂ ∧ st₂.heldCount < 16 ∧
      st₂.step (.run 2 true 0) = some st₃ ∧ st₃.history = st₂.history ++ [.returned 2 .allocEntry r] ∧ ∃ e, r = .entry (some e) := by
  have hrun : (do
      let mp ← cmempoolCreate 16 false false true
      let st₀ ← stepsWhile (fun _ _ => true) (.initial mp) crowdedRun
      let st₁ ← st₀.step (.call 2 .allocEntry)
      let st₂ ← stepsWhile (fun st a => st.heldCount < 16 ∧ st.overtakes 2 a = false) st₁ (List.replicate 4 (.run 2 true 0))
      let st₃ ← st₂.step (.run 2 true 0)
      return decide (st₂.heldCount < 16 ∧ st₃.history = st₂.history ++ [.returned 2 .allocEntry (.entry (some (.slot 18)))])) =
      some true := by decide +kernel
  simp only [bind_eq_bind, bind_eq_some_iff, pure_def, some.injEq, decide_eq_true_eq] at hrun
  obtain ⟨mp, hmp, st₀, h₀, st₁, h₁, st₂, h₂, st₃, h₃, hheld, hhist⟩ := hrun
  have hreach : PoolState.Run (fun _ _ => True) (.initial mp) st₀ := (run_of_stepsWhile h₀).mono fun _ _ _ => trivial
  have hbelow : PoolState.Run (fun st a => st.heldCount < 16 ∧ st.overtakes 2 a = false) st₁ st₂ :=
    (run_of_stepsWhile h₂).mono fun _ _ hP => of_decide_eq_true hP
  have hserves := cmempool_alloc_entry_serves_unless_overtaken hmp hreach h₁ hbelow hheld
  exact ⟨mp, st₀, st₁, st₂, st₃, _, hmp, hreach, h₁, hbelow, hheld, h₃, hhist, hserves.1 true 0 st₃ _ h₃ hhist⟩

def overtakenResult : Option Bool := do
  let mp ← cmempoolCreate 16 false false true
  let st₀ ← stepsWhile (fun _ _ => true) (.initial mp) crowdedRun
  let st₁ ← st₀.step (.call 2 .allocEntry)
  let st₂ ← stepsWhile (fun st _ => st.heldCount < 16) st₁ overtakenRun
  let st₃ ← st₂.step (.run 2 true 0)
  return decide (st₂.heldCount < 16 ∧ st₃.history = st₂.history ++ [.returned 2 .allocEntry (.entry none)])

/-- A caller is refused although less than the advertised count was held at every moment of its call. -/
theorem cmempool_alloc_entry_refuses_overtaken :
    ∃ mp st₀ st₁ st₂ st₃, cmempoolCreate 16 false false true = some mp ∧ PoolState.Run (fun _ _ => True) (.initial mp) st₀ ∧
      st₀.step (.call 2 .allocEntry) = some st₁ ∧ PoolState.Run (fun st _ => st.heldCount < 16) st₁ st₂ ∧ st₂.heldCount < 16 ∧
      st₂.step (.run 2 true 0) = some st₃ ∧ st₃.history = st₂.history ++ [.returned 2 .allocEntry (.entry none)] := by
  have hrun : overtakenResult = some true := by decide +kernel
  simp only [overtakenResult, bind_eq_bind, bind_eq_some_iff, pure_def, some.injEq, decide_eq_true_eq] at hrun
  obtain ⟨mp, hmp, st₀, h₀, st₁, h₁, st₂, h₂, st₃, h₃, hheld, hhist⟩ := hrun
  have hreach : PoolState.Run (fun _ _ => True) (.initial mp) st₀ := (run_of_stepsWhile h₀).mono fun _ _ _ => trivial
  have hbelow : PoolState.Run (fun st _ => st.heldCount < 16) st₁ st₂ := (run_of_stepsWhile h₂).mono fun _ _ hlt => of_decide_eq_true hlt
  exact ⟨mp, st₀, st₁, st₂, st₃, hmp, hreach, h₁, hbelow, hheld, h₃, hhist⟩

/-! ## Calls that do not overlap -/

theorem seqInv_of_run {s : PoolShape} {F M : List Nat} (h : PoolInv s st F M) (hseq : SeqInv s.advertised st)
    (hrun : PoolState.Run (fun st a => Alone st a ∧ PopsBelow s.advertised st a) st st₁) :
    (∃ F' M', PoolInv s st₁ F' M') ∧ SeqInv s.advertised st₁ := by
  induction hrun with
  | refl => exact ⟨⟨F, M, h⟩, hseq⟩
  | step _ hP hs ih =>
    obtain ⟨⟨F₁, M₁, hinv⟩, hseq₁⟩ := ih
    exact ⟨hinv.step hs, hseq₁.step hinv hP.1 hP.2 hs⟩

/-- Over calls that do not overlap, callers hold at most the advertised count, if no thread with an entry in its
magazine allocates when they hold it all. -/
theorem cmempool_used_count_bounded_unless_full (hcreate : cmempoolCreate elemCount fallback singleThreaded keepsCache = some mp)
    (hrun : PoolState.Run (fun st a => Alone st a ∧ PopsBelow elemCount st a) (.initial mp) st) :
    st.mp.advertisedElemCount = elemCount ∧ st.heldCount ≤ elemCount ∧
    ∀ t ok addr st₁ c, st.step (.run t ok addr) = some st₁ → st₁.history = st.history ++ [.returned t .usedCount (.count c)] →
      c = st₁.heldCount ∧ c ≤ elemCount := by
  have hadv : mp.shape.advertised = elemCount := (cmempoolCreate_ok hcreate).2.1
  have hstart : SeqInv mp.shape.advertised (.initial mp) := ⟨⟨0, fun _ _ => rfl⟩, Nat.zero_le _, fun _ => trivial⟩
  rw [← hadv] at hrun ⊢
  obtain ⟨⟨F, M, h⟩, hseq⟩ := seqInv_of_run (poolInv_initial hcreate) hstart hrun
  refine ⟨congrArg PoolShape.advertised h.shape, hseq.held, ?_⟩
  intro t ok addr st₁ c hs hret
  have hcount := hseq.count_returns hs hret
  rw [hcount]
  exact ⟨rfl, (hseq.run h hs).held⟩

/-- An action of one of the first `n` threads. A call begins only when all of them are outside. -/
def aloneBelow (n : Nat) (st : PoolState) : PoolAct → Bool
  | .call t _ => t < n && (List.range n).all fun u => st.pcs u = .idle
  | .run t _ _ => t < n
  | _ => true

theorem idle_of_aloneBelow {n : Nat} {a : PoolAct} (hidle : ∀ u, n ≤ u → st.pcs u = .idle) (ha : aloneBelow n st a = true)
    (hs : st.step a = some st₁) : ∀ u, n ≤ u → st₁.pcs u = .idle := by
  intro u hu
  cases a with
  | call t op =>
    simp only [aloneBelow, Bool.and_eq_true, decide_eq_true_eq] at ha
    simp only [PoolState.step] at hs
    split at hs
    · cases hs
      have hne : u ≠ t := Nat.ne_of_gt (Nat.lt_of_lt_of_le ha.1 hu)
      exact (Function.update_of_ne hne _ _).trans (hidle u hu)
    · cases hs
  | run t ok addr =>
    simp only [aloneBelow, decide_eq_true_eq] at ha
    obtain ⟨pc, hm⟩ := (run_did hs).2.moved
    exact (hm.other u (Nat.ne_of_gt (Nat.lt_of_lt_of_le ha hu))).trans (hidle u hu)
  | write t i word =>
    simp only [PoolState.step] at hs
    split at hs
    · cases hs
      exact hidle u hu
    · cases hs
  | give t v e =>
    simp only [PoolState.step] at hs
    split at hs
    · cases hs
      exact hidle u hu
    · cases hs

theorem alone_of_aloneBelow {n : Nat} {a : PoolAct} (hidle : ∀ u, n ≤ u → st.pcs u = .idle) (ha : aloneBelow n st a = true) :
    Alone st a := by
  rintro t op rfl u
  simp only [aloneBelow, Bool.and_eq_true, List.all_eq_true, List.mem_range, decide_eq_true_eq] at ha
  rcases Nat.lt_or_ge u n with hu | hu
  · exact ha.2 u hu
  · exact hidle u hu

theorem run_alone {n : Nat} {Q : PoolState → PoolAct → Prop}
    (hrun : PoolState.Run (fun st a => aloneBelow n st a = true ∧ Q st a) (.initial mp) st) :
    PoolState.Run (fun st a => Alone st a ∧ Q st a) (.initial mp) st := by
  have hboth : (∀ u, n ≤ u → st.pcs u = .idle) ∧ PoolState.Run (fun st a => Alone st a ∧ Q st a) (.initial mp) st := by
    induction hrun with
    | refl => exact ⟨fun _ _ => rfl, .refl⟩
    | step _ hP hs ih => exact ⟨idle_of_aloneBelow ih.1 hP.1 hs, ih.2.step ⟨alone_of_aloneBelow ih.1 hP.1, hP.2⟩ hs⟩
  exact hboth.2

/-- Thread 0 takes an entry, which fills its magazine, and thread 1 gets some from the free list. -/
def reserveRun (served : Nat) : List PoolAct := call 0 .allocEntry 6 ++ calls 1 .allocEntry 4 served

def popsBelow (limit : Nat) (st : PoolState) : PoolAct → Bool
  | .call t .allocEntry => st.mp.slotsOf t = [] || st.heldCount < limit
  | _ => true

theorem popsBelow_imp {limit : Nat} {a : PoolAct} (ha : popsBelow limit st a = true) : PopsBelow limit st a := by
  rintro t rfl hslots
  simpa [popsBelow, hslots] using ha

/-- Thread 1 has seven entries of a pool for 8 and thread 0 has one. -/
theorem cmempool_used_count_bounded_unless_full_reserve :
    ∃ mp st st₁, cmempoolCreate 8 false false true = some mp ∧
      PoolState.Run (fun st a => Alone st a ∧ PopsBelow 8 st a) (.initial mp) st ∧
      st.step (.run 1 true 0) = some st₁ ∧ st₁.history = st.history ++ [.returned 1 .usedCount (.count 8)] ∧
      st.mp.advertisedElemCount = 8 ∧ 8 = st₁.heldCount := by
  have hrun : (do
      let mp ← cmempoolCreate 8 false false true
      let st ← stepsWhile (fun st a => aloneBelow 2 st a && popsBelow 8 st a) (.initial mp) (reserveRun 7 ++ call 1 .usedCount 2)
      let st₁ ← st.step (.run 1 true 0)
      return decide (st₁.history = st.history ++ [.returned 1 .usedCount (.count 8)])) = some true := by decide +kernel
  simp only [bind_eq_bind, bind_eq_some_iff, pure_def, some.injEq, decide_eq_true_eq] at hrun
  obtain ⟨mp, hmp, st, hst, st₁, hst₁, hhist⟩ := hrun
  have hbelow : PoolState.Run (fun st a => Alone st a ∧ PopsBelow 8 st a) (.initial mp) st := by
    refine run_alone (n := 2) ((run_of_stepsWhile hst).mono fun _ _ hP => ?_)
    rw [Bool.and_eq_true] at hP
    exact ⟨hP.1, popsBelow_imp hP.2⟩
  obtain ⟨hadv, -, hcount⟩ := cmempool_used_count_bounded_unless_full hmp hbelow
  exact ⟨mp, st, st₁, hmp, hbelow, hst₁, hhist, hadv, (hcount 1 true 0 st₁ 8 hst₁ hhist).1⟩

/-- Thread 0 then takes what is left in its magazine, and the quiet pool for 8 entries shows eleven. -/
theorem cmempool_used_count_exceeds_capacity :
    ∃ mp st, cmempoolCreate 8 false false true = some mp ∧ PoolState.Run Alone (.initial mp) st ∧
      st.history.getLast? = some (.returned 1 .usedCount (.count 11)) ∧ st.mp.advertisedElemCount = 8 ∧ st.heldCount = 11 := by
  have hrun : (do
      let mp ← cmempoolCreate 8 false false true
      let st ← stepsWhile (aloneBelow 2) (.initial mp) (reserveRun 7 ++ calls 0 .allocEntry 1 3 ++ call 1 .usedCount 3)
      return decide (st.history.getLast? = some (.returned 1 .usedCount (.count 11)) ∧ st.mp.advertisedElemCount = 8 ∧
        st.heldCount = 11)) = some true := by decide +kernel
  simp only [bind_eq_bind, bind_eq_some_iff, pure_def, some.injEq, decide_eq_true_eq] at hrun
  obtain ⟨mp, hmp, st, hst, hlast, hadv, hheld⟩ := hrun
  have halone : PoolState.Run (fun st a => Alone st a ∧ True) (.initial mp) st :=
    run_alone ((run_of_stepsWhile hst).mono fun _ _ hP => ⟨hP, trivial⟩)
  exact ⟨mp, st, hmp, halone.mono fun _ _ hP => hP.1, hlast, hadv, hheld⟩

/-!
# When a pool is full, and how full it gets
-/

open Option

variable {mp : Mempool} {st : PoolState} {elemCount : Nat} {fallback singleThreaded keepsCache : Bool}

/-- Callers hold no more than `elemCount` entries, and an allocation gets one exactly while they hold less. -/
structure ServesExactly (elemCount : Nat) (fallback : Bool) (st : PoolState) : Prop where
  held : st.heldCount ≤ elemCount
  refused : ∀ t ok addr st₁ r, st.step (.run t ok addr) = some st₁ → st₁.history = st.history ++ [.returned t .allocEntry r] →
    fallback = false → (r = .entry none ↔ st.heldCount = elemCount)
  heap : ∀ t ok addr st₁ a, st.step (.run t ok addr) = some st₁ →
    st₁.history = st.history ++ [.returned t .allocEntry (.entry (some (.dynamic a)))] →
    fallback = true ∧ st.heldCount = elemCount
  slot : ∀ t ok addr st₁ i, st.step (.run t ok addr) = some st₁ →
    st₁.history = st.history ++ [.returned t .allocEntry (.entry (some (.slot i)))] → st.heldCount < elemCount

theorem cmempoolCreate_shape (hcreate : cmempoolCreate elemCount fallback singleThreaded keepsCache = some mp) :
    mp.shape.advertised = elemCount ∧ mp.shape.fallback = fallback ∧
      (mp.shape.shouldUseLocks = false → mp.shape.maxMagazines = 0) ∧
      mp.totalElemCount ≤ elemCount + (mempoolCacheGeometry elemCount).reserve := by
  simp only [cmempoolCreate] at hcreate
  split at hcreate
  · cases hcreate
  · cases hcreate
    refine ⟨rfl, rfl, fun hlocks => ?_, ?_⟩
    · have hsingle : singleThreaded = true := by simpa [Mempool.shape] using hlocks
      simp [Mempool.shape, hsingle]
    · dsimp only
      split_ifs
      · exact Nat.le_refl _
      · exact Nat.le_add_right _ _

theorem servesExactly_of_exact {s : PoolShape} {F M : List Nat} (h : PoolInv s st F M) (hexact : ExactInv s.advertised st) :
    ServesExactly s.advertised s.fallback st := by
  have hheld := hexact.held_le h
  refine ⟨hheld, ?_, ?_, ?_⟩
  · intro t ok addr st₁ r hs hret hnone
    have hanswer := h.exact_answer hexact (run_did hs).2 hret
    constructor
    · rintro rfl
      by_contra hne
      obtain ⟨i, hi⟩ := hanswer.served (by omega)
      cases hi
    · intro hfull
      rcases hanswer.full (by omega) with hr | ⟨hfallback, -⟩
      · exact hr
      · rw [hnone] at hfallback
        cases hfallback
  · intro t ok addr st₁ a hs hret
    have hanswer := h.exact_answer hexact (run_did hs).2 hret
    have hfull : ¬st.heldCount < s.advertised := by
      intro hlt
      obtain ⟨i, hi⟩ := hanswer.served hlt
      cases hi
    rcases hanswer.full hfull with hr | ⟨hfallback, -⟩
    · cases hr
    · exact ⟨hfallback, by omega⟩
  · intro t ok addr st₁ i hs hret
    have hanswer := h.exact_answer hexact (run_did hs).2 hret
    by_contra hfull
    rcases hanswer.full hfull with hr | ⟨-, a, hr⟩ <;> cases hr

/-- A pool without a cache, or with one thread, is full exactly when callers hold all its entries. Any pool has a
ceiling. -/
theorem cmempool_exact_and_bounded (hcreate : cmempoolCreate elemCount fallback singleThreaded keepsCache = some mp) :
    (∀ st, PoolState.Run (fun _ _ => True) (.initial mp) st → mp.hasCache = false → ServesExactly elemCount fallback st) ∧
    (∀ t st, PoolState.Run (fun _ a => Only t a) (.initial mp) st → ServesExactly elemCount fallback st) ∧
    (∀ st, PoolState.Run (fun _ _ => True) (.initial mp) st →
      st.heldCount ≤ elemCount + (mempoolCacheGeometry elemCount).reserve) ∧
    (mempoolCacheGeometry elemCount).reserve ≤ elemCount / 2 ∧
    (elemCount ≤ sizeMax → elemCount + (mempoolCacheGeometry elemCount).reserve ≤ sizeMax) ∧
    ∀ layout env elemSize block, cmempoolCreateMp layout env elemCount elemSize fallback singleThreaded = .ok block →
      elemCount ≤ block.totalElemCount ∧ block.totalElemCount ≤ elemCount + (mempoolCacheGeometry elemCount).reserve ∧
        elemCount + (mempoolCacheGeometry elemCount).reserve ≤ sizeMax ∧
        block.totalElemCount * block.extendedElemSize + block.totalElemCount ≤ sizeMax := by
  obtain ⟨hadv, hfb, hlocks, htotal⟩ := cmempoolCreate_shape hcreate
  have hstart := poolInv_initial hcreate
  obtain ⟨hreserve, hwrap⟩ := mempoolCacheGeometry_bounds elemCount
  refine ⟨?_, ?_, ?_, hreserve, hwrap, ?_⟩
  · intro st hrun hcache
    have hmax : mp.shape.maxMagazines = 0 := by
      rw [Mempool.hasCache, decide_eq_false_iff_not, not_not] at hcache
      exact hcache
    obtain ⟨⟨F, M, h⟩, hwalk⟩ := exactInv_of_noCache hstart hmax (fun _ _ _ hpc => by cases hpc) hrun
    have hserves := servesExactly_of_exact h (hwalk.exact h hmax)
    rwa [hadv, hfb] at hserves
  · intro t st hrun
    have hsolo : SoloInv t mp.shape.advertised (.initial mp) := by
      refine ⟨fun _ _ => rfl, fun u _ => hstart.slots_outside List.not_mem_nil, ?_, trivial⟩
      have hcount := hstart.pool.free.count
      rw [List.length_range] at hcount
      change mp.totalElemCount ≤ mp.freeElemCount + _
      have hfree : mp.freeElemCount = mp.totalElemCount := hcount
      omega
    obtain ⟨⟨F, M, h⟩, hsolo₁⟩ := exactInv_of_solo hstart hlocks hsolo hrun
    have hserves := servesExactly_of_exact h hsolo₁.exact
    rwa [hadv, hfb] at hserves
  · intro st hrun
    obtain ⟨F, M, h⟩ := hstart.reached hrun
    have hcount := h.count
    have hsame : st.mp.totalElemCount = mp.totalElemCount := congrArg PoolShape.total h.shape
    omega
  · intro layout env elemSize block hblock
    obtain ⟨geometry, hbuilt, -, hgeometry⟩ := cmempoolCreateMp_ok hblock
    have hsum := hbuilt.total
    have hbytes := hbuilt.bytes
    have hle : geometry.reserve ≤ (mempoolCacheGeometry elemCount).reserve := by
      rcases hgeometry with rfl | ⟨-, rfl⟩
      · exact Nat.zero_le _
      · exact Nat.le_refl _
    have hcount : elemCount ≤ sizeMax := by omega
    exact ⟨by omega, by omega, hwrap hcount, hbytes⟩

/-- Thread 0 takes all eight entries of a pool with a cache and asks for a ninth. -/
def fillRun : List PoolAct :=
  call 0 .allocEntry 6 ++ calls 0 .allocEntry 1 3 ++ call 0 .allocEntry 3 ++ calls 0 .allocEntry 1 3 ++ call 0 .allocEntry 3

theorem cmempool_exact_and_bounded_full :
    ∃ mp st st₁, cmempoolCreate 8 false false true = some mp ∧ PoolState.Run (fun _ a => Only 0 a) (.initial mp) st ∧
      st.step (.run 0 true 0) = some st₁ ∧ st₁.history = st.history ++ [.returned 0 .allocEntry (.entry none)] ∧
      st.heldCount = 8 := by
  have hrun : (do
      let mp ← cmempoolCreate 8 false false true
      let st ← stepsWhile (aloneBelow 1) (.initial mp) fillRun
      let st₁ ← st.step (.run 0 true 0)
      return decide (st₁.history = st.history ++ [.returned 0 .allocEntry (.entry none)])) = some true := by decide +kernel
  simp only [bind_eq_bind, bind_eq_some_iff, pure_def, some.injEq, decide_eq_true_eq] at hrun
  obtain ⟨mp, hmp, st, hst, st₁, hst₁, hret⟩ := hrun
  have honly : PoolState.Run (fun _ a => Only 0 a) (.initial mp) st := by
    apply (run_of_stepsWhile hst).mono
    rintro st a hP u op rfl
    simp only [aloneBelow, Bool.and_eq_true, decide_eq_true_eq, Nat.lt_one_iff] at hP
    exact hP.1
  have hserves := (cmempool_exact_and_bounded hmp).2.1 0 st honly
  exact ⟨mp, st, st₁, hmp, honly, hst₁, hret, (hserves.refused 0 true 0 st₁ _ hst₁ hret rfl).mp rfl⟩

end Ccollections.Cmempool
