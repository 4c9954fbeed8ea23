import Ccollections.Cmempool.Lemmas.Sequential

/-!
# Pools that refuse nothing before they are full

A pool without a cache counts its entries exactly, and so does a pool that only one thread uses: that thread never has
an entry in its magazine when it asks the free list.
-/

namespace Ccollections.Cmempool
open Lib Function List

variable {st st' : PoolState} {mp mp' : Mempool} {F F' M M' : List Nat} {t u i addr limit : Nat} {e : Entry} {pc : Pc}
  {ok : Bool} {s : PoolShape} {a : PoolAct}
variable {st₁ : PoolState}

/-! ## Where entries can be -/

def NothingCached (st : PoolState) : Prop := ∀ u, st.mp.slotsOf u = []

/-- A thread at the free list finds nothing in the magazines, and a walk that is over has what callers hold. -/
def ExactThread (st : PoolState) : Pc → Prop
  | .allocAsk | .allocCreate | .allocClaim | .allocRefill | .allocLocked => NothingCached st
  | .serveWalk mag live => NothingCached st ∧ ExactSum st mag live
  | _ => True

structure ExactInv (limit : Nat) (st : PoolState) : Prop where
  reserve : st.mp.totalElemCount ≤ st.mp.freeElemCount + limit
  threads : ∀ t, ExactThread st (st.pcs t)

theorem NothingCached.cached (h : NothingCached st) (M : List Nat) : st.mp.cached M = [] :=
  flatMap_eq_nil_iff.mpr fun u _ => h u

theorem PoolInv.count (h : PoolInv s st F M) :
    st.mp.freeElemCount + ((st.mp.cached M).length + st.heldCount) = st.mp.totalElemCount := by
  have hlen := h.pool.lengths
  rwa [← h.pool.free.count] at hlen

theorem ExactInv.held_le (h : PoolInv s st F M) (hexact : ExactInv limit st) : st.heldCount ≤ limit := by
  have hcount := h.count
  have hreserve := hexact.reserve
  omega

theorem PoolInv.noMagazines (h : PoolInv s st F M) (hmax : s.maxMagazines = 0) : M = [] := by
  have hlimit := h.pool.magazines.limit
  have hshape : st.mp.maxMagazines = s.maxMagazines := congrArg PoolShape.maxMagazines h.shape
  rw [hshape, hmax] at hlimit
  exact length_eq_zero_iff.mp (Nat.le_zero.mp hlimit)

theorem PoolInv.slots_outside (h : PoolInv s st F M) (hu : u ∉ M) : st.mp.slotsOf u = [] := by
  have hnone : st.mp.mags u = none := by
    cases hmag : st.mp.mags u with
    | none => rfl
    | some mag => exact absurd ((h.pool.magazines.linked u).mp (by rw [hmag]; rfl)) hu
  simp [Mempool.slotsOf, hnone]

theorem PoolInv.nothingCached (h : PoolInv s st F M) (hmax : s.maxMagazines = 0) : NothingCached st := by
  intro u
  apply h.slots_outside
  rw [h.noMagazines hmax]
  exact not_mem_nil

/-! ## Answers -/

structure ExactAnswer (limit held : Nat) (fallback : Bool) (r : PoolResult) : Prop where
  served : held < limit → ∃ i, r = .entry (some (.slot i))
  full : ¬held < limit → r = .entry none ∨ fallback = true ∧ ∃ addr, r = .entry (some (.dynamic addr))

theorem PoolInv.serveEnd_answer {F₁ : List Nat} {canServe : Bool} {r : PoolResult}
    (hpool : MempoolOk st₁.mp F₁ M st₁.heldSlots) (hinst : canServe = true → st₁.mp.freeInst ≠ none)
    (hcan : canServe = true ↔ st₁.heldCount < limit) (hs : st₁.serveEnd t canServe ok addr = some st')
    (hret : st'.history = st₁.history ++ [.returned t .allocEntry r]) :
    ExactAnswer limit st₁.heldCount st₁.mp.fallbackToDynamicMemory r := by
  constructor
  · intro hlt
    have htrue := hcan.mpr hlt
    obtain ⟨mp', i, hserve⟩ := hpool.serveFreeInst (hinst htrue)
    rw [(serveEnd_served hs).2 htrue mp' i hserve] at hret
    exact ⟨i, (returned_inj hret).2.symm⟩
  · intro hnot
    have hfalse : canServe = false := by
      rw [← Bool.not_eq_true, hcan]
      exact hnot
    simp only [PoolState.serveEnd, hfalse, Bool.false_eq_true, if_false] at hs
    split at hs
    · rename_i hfallback
      split at hs
      · cases hs
      · cases hs
        exact .inr ⟨(Bool.and_eq_true_iff.mp hfallback).1, addr, (returned_inj hret).2.symm⟩
    · cases hs
      exact .inl (returned_inj hret).2.symm

theorem PoolInv.exact_answer {r : PoolResult} (h : PoolInv s st F M) (hexact : ExactInv s.advertised st)
    (hdid : Did t ok addr st (st.pcs t) st') (hret : st'.history = st.history ++ [.returned t .allocEntry r]) :
    ExactAnswer s.advertised st.heldCount s.fallback r := by
  have hthread := hexact.threads t
  have hadv : st.mp.advertisedElemCount = s.advertised := congrArg PoolShape.advertised h.shape
  generalize hpc : st.pcs t = pc at hdid hthread
  cases hdid with
  | goes _ => exact absurd hret (append_singleton_ne _ _)
  | @serveBegin _ st₁ _ hserves hs =>
    have hsame : st₁.heldCount = st.heldCount := hserves.heldCount
    rw [← hpc] at hserves
    obtain ⟨⟨F₁, hpool⟩, hhist, hshape, hheld⟩ := h.serves hserves
    have hslots : st₁.heldSlots = st.heldSlots := by rw [PoolState.heldSlots, hheld]; rfl
    have hadv₁ : st₁.mp.advertisedElemCount = s.advertised := congrArg PoolShape.advertised hshape
    have hfallback : st₁.mp.fallbackToDynamicMemory = s.fallback := congrArg PoolShape.fallback hshape
    rcases serveBegin_cases hs with ⟨-, -, rfl⟩ | ⟨hcache, hend⟩
    · exact absurd (hhist.symm.trans hret) (append_singleton_ne _ _)
    · rw [← hhist] at hret
      rw [← hslots] at hpool
      have hiff : st₁.mp.freeInst ≠ none ↔ st₁.heldCount < s.advertised := by
        rw [← hadv₁]
        exact ⟨fun hinst => hpool.held_lt_of_noCache hinst (hcache hinst), fun hlt => hpool.freeInst_ne hlt⟩
      rw [← hsame, ← hfallback]
      exact PoolInv.serveEnd_answer hpool of_decide_eq_true (decide_eq_true_iff.trans hiff) hend hret
  | @serveEnd live _ hs =>
    have hown := h.threads t
    rw [hpc] at hown
    have hlive : live = st.heldCount := ExactSum.end_eq hthread.2
    have hfallback : st.mp.fallbackToDynamicMemory = s.fallback := congrArg PoolShape.fallback h.shape
    rw [← hfallback]
    apply PoolInv.serveEnd_answer h.pool (fun _ => hown.2) _ hs hret
    rw [decide_eq_true_iff, hadv, hlive]
  | walk => exact absurd hret (append_singleton_ne _ _)
  | pop hcall hs =>
    simp only [PoolState.allocPop] at hs
    split at hs
    · cases hs
    next i slots hslots =>
      cases hs
      have hlt : st.heldCount < s.advertised := by
        have hcount := h.count
        have hreserve := hexact.reserve
        have hmem : t ∈ M := by
          by_contra hout
          rw [h.slots_outside hout] at hslots
          cases hslots
        have hperm := (cached_perm st.mp hmem).length_eq
        rw [hslots, length_append, length_cons] at hperm
        omega
      exact ⟨fun _ => ⟨i, (returned_inj hret).2.symm⟩, fun hnot => absurd hlt hnot⟩
  | claimed _ => exact absurd hret (append_singleton_ne _ _)
  | refilled _ _ => exact absurd hret (append_singleton_ne _ _)
  | push _ => cases (returned_inj hret).1
  | body _ =>
    rcases freeBody_history with hsame | hev
    · exact absurd (hsame.symm.trans hret) (append_singleton_ne _ _)
    · cases (returned_inj (hev.symm.trans hret)).1
  | returned =>
    rcases freeReturn_history with hsame | hev
    · exact absurd (hsame.symm.trans hret) (append_singleton_ne _ _)
    · cases (returned_inj (hev.symm.trans hret)).1
  | flushed => exact absurd hret (append_singleton_ne _ _)
  | countBegin => exact absurd hret (append_singleton_ne _ _)
  | countWalk => exact absurd hret (append_singleton_ne _ _)
  | countEnd => cases (returned_inj hret).1
  | drained =>
    simp only [PoolState.drain] at hret
    split at hret <;> cases (returned_inj hret).1
  | failed _ => exact absurd hret (append_singleton_ne _ _)

/-! ## What one thread leaves alone -/

theorem serveFreeInst_some (h : mp.serveFreeInst = some (mp', i)) : mp' = (mp.dropFreeInst i).setTaken i true := by
  simp only [Mempool.serveFreeInst] at h
  split at h
  · cases h
  · split at h
    · cases h
      rfl
    · cases h

theorem freeElemCount_flush (t howMany : Nat) (mp : Mempool) :
    mp.freeElemCount ≤ (Mempool.magazineFlushLocked t howMany mp).freeElemCount := by
  induction howMany generalizing mp with
  | zero => exact Nat.le_refl _
  | succ howMany ih =>
    rw [Mempool.magazineFlushLocked]
    split
    · exact Nat.le_refl _
    next entry slots _ =>
      exact (Nat.le_succ mp.freeElemCount).trans (ih ((mp.setSlots t slots).pushFreeInst entry))

theorem allocStart_locked (hs : st.allocStart t ok addr = some st') (hpc : st'.pcs t = .allocLocked) : st.mp.hasCache = false := by
  have hgoes : ∀ pc, pc ≠ .allocLocked → st' ≠ st.goto t pc := by
    rintro pc hne rfl
    exact hne (((moved_of_update rfl : Moved t st (st.goto t pc) pc).self).symm.trans hpc)
  rw [PoolState.allocStart] at hs
  split at hs
  · rcases serveBegin_moved hs with hm | hm | hm <;> exact absurd (hm.self.symm.trans hpc) (by simp)
  · split at hs
    · simp only [PoolState.allocFromCache] at hs
      split at hs
      · exact absurd (Option.some.inj hs).symm (hgoes .allocAsk (by simp))
      · split at hs
        · exact absurd (Option.some.inj hs).symm (hgoes .allocRefill (by simp))
        · exact absurd ((allocPop_moved hs).self.symm.trans hpc) (by simp)
    · rename_i hcache
      exact Bool.not_eq_true _ ▸ hcache

theorem MempoolOk.lt_of_held {H : List Nat} (h : MempoolOk mp F M H) (hempty : mp.cached M = []) (hlt : H.length < limit) :
    mp.totalElemCount < mp.freeElemCount + limit := by
  have hlen := h.lengths
  rw [hempty, length_nil, ← h.free.count] at hlen
  omega

/-! ## One thread -/

structure SoloInv (t limit : Nat) (st : PoolState) : Prop where
  idle : ∀ u, u ≠ t → st.pcs u = .idle
  apart : ∀ u, u ≠ t → st.mp.slotsOf u = []
  reserve : st.mp.totalElemCount ≤ st.mp.freeElemCount + limit
  thread : ExactThread st (st.pcs t)

theorem SoloInv.exact (h : SoloInv t limit st) : ExactInv limit st := by
  refine ⟨h.reserve, fun u => ?_⟩
  by_cases hu : u = t
  · rw [hu]
    exact h.thread
  · rw [h.idle u hu]
    trivial

theorem SoloInv.nothingCached (h : SoloInv t limit st) (hown : st.mp.slotsOf t = []) : NothingCached st := by
  intro u
  by_cases hu : u = t
  · rw [hu]
    exact hown
  · exact h.apart u hu

theorem SoloInv.settle (h : SoloInv t limit st) (hm : Moved t st st' pc) (hslots : ∀ u, u ≠ t → st'.mp.slotsOf u = st.mp.slotsOf u)
    (hreserve : st'.mp.totalElemCount ≤ st'.mp.freeElemCount + limit) (hpc : ExactThread st' pc) : SoloInv t limit st' := by
  refine ⟨fun u hu => (hm.other u hu).trans (h.idle u hu), fun u hu => (hslots u hu).trans (h.apart u hu), hreserve, ?_⟩
  rw [hm.self]
  exact hpc

theorem SoloInv.serves (h : PoolInv s st F M) (hlocks : s.shouldUseLocks = false → s.maxMagazines = 0)
    (hsolo : SoloInv t s.advertised st) (hserves : Serves t st (st.pcs t) st₁) :
    NothingCached st₁ ∧ st₁.mp.totalElemCount ≤ st₁.mp.freeElemCount + s.advertised := by
  have hthread := hsolo.thread
  have hown := h.threads t
  generalize st.pcs t = pc at hserves hthread hown
  cases hserves with
  | alloc hsingle =>
    have hshape : st.mp.shouldUseLocks = s.shouldUseLocks := congrArg PoolShape.shouldUseLocks h.shape
    exact ⟨h.nothingCached (hlocks (hshape.symm.trans hsingle)), hsolo.reserve⟩
  | ask => exact ⟨hthread, hsolo.reserve⟩
  | locked => exact ⟨hthread, hsolo.reserve⟩
  | @refill mp hrefill hslots =>
    obtain ⟨mp', F', hspec, hpool, hframe, hroom⟩ := magazineRefillLocked_spec h.pool hown
    rw [hspec] at hrefill
    cases hrefill
    constructor
    · intro u
      by_cases hu : u = t
      · rw [hu]
        exact hslots
      · exact (hframe.slots u hu).trans (hsolo.apart u hu)
    · rcases hroom with rfl | hroom
      · exact hsolo.reserve
      · have hadv : st.mp.advertisedElemCount = s.advertised := congrArg PoolShape.advertised h.shape
        have hcount := hpool.free.count
        have htotal := hframe.total
        change mp.totalElemCount ≤ mp.freeElemCount + s.advertised
        omega

theorem SoloInv.served {canServe : Bool} {F₁ : List Nat} (hsolo : SoloInv t limit st) (hpcs : st₁.pcs = st.pcs)
    (hpool : MempoolOk st₁.mp F₁ M st₁.heldSlots) (hempty : NothingCached st₁)
    (hreserve : st₁.mp.totalElemCount ≤ st₁.mp.freeElemCount + limit) (hcan : canServe = true → st₁.heldCount < limit)
    (hs : st₁.serveEnd t canServe ok addr = some st') (hfailed : st'.pcs t ≠ .failed) : SoloInv t limit st' := by
  have hslots₁ : ∀ u, st₁.mp.slotsOf u = [] := hempty
  have hkept : (∀ u, st'.mp.slotsOf u = []) ∧ st'.mp.totalElemCount ≤ st'.mp.freeElemCount + limit := by
    have hserved := (serveEnd_served hs).1
    have hrefused := fun hcan => serveEnd_refused hcan hs
    cases hserved with
    | @slot mp i hserve =>
      have hlt : st₁.heldCount < limit := by
        apply hcan
        by_contra hnot
        exact hrefused (by simpa using hnot) mp i rfl
      have hroom := hpool.lt_of_held (hempty.cached M) hlt
      rw [serveFreeInst_some hserve]
      refine ⟨hslots₁, ?_⟩
      change st₁.mp.totalElemCount ≤ st₁.mp.freeElemCount - 1 + limit
      omega
    | corrupt _ => exact ⟨hslots₁, hreserve⟩
    | dynamic => exact ⟨hslots₁, hreserve⟩
    | refused => exact ⟨hslots₁, hreserve⟩
  rcases (serveEnd_served hs).1.moved with hm | hm
  · have hmoved : Moved t st st' .idle := ⟨hm.self, fun u hu => (hm.other u hu).trans (congrFun hpcs u)⟩
    exact hsolo.settle hmoved (fun u hu => (hkept.1 u).trans (hsolo.apart u hu).symm) hkept.2 trivial
  · exact absurd hm.self hfailed

theorem freeReturn_kept (st : PoolState) (t i : Nat) : (st.freeReturn t i).mp.slotsOf = st.mp.slotsOf ∧
    (st.freeReturn t i).mp.totalElemCount = st.mp.totalElemCount ∧ st.mp.freeElemCount ≤ (st.freeReturn t i).mp.freeElemCount := by
  rw [PoolState.freeReturn]
  split
  · exact ⟨rfl, rfl, Nat.le_refl _⟩
  · rename_i mp hreturn
    rw [Mempool.returnEntry] at hreturn
    split at hreturn
    · cases hreturn
      exact ⟨rfl, rfl, Nat.le_succ _⟩
    · cases hreturn

theorem freeBody_kept (st : PoolState) (t : Nat) (e : Entry) : (st.freeBody t e).mp.slotsOf = st.mp.slotsOf ∧
    (st.freeBody t e).mp.totalElemCount = st.mp.totalElemCount ∧ st.mp.freeElemCount ≤ (st.freeBody t e).mp.freeElemCount := by
  cases e with
  | slot i =>
    simp only [PoolState.freeBody]
    split
    · exact freeReturn_kept st t i
    · exact ⟨rfl, rfl, Nat.le_refl _⟩
  | dynamic addr =>
    simp only [PoolState.freeBody]
    split
    · exact ⟨rfl, rfl, Nat.le_refl _⟩
    · split
      · exact ⟨rfl, rfl, Nat.le_refl _⟩
      · exact ⟨rfl, rfl, Nat.le_refl _⟩

theorem drain_kept (h : PoolInv s st F M) : (∀ u, u ≠ t → (st.drain t).mp.slotsOf u = st.mp.slotsOf u) ∧
    (st.drain t).mp.totalElemCount = st.mp.totalElemCount ∧ st.mp.freeElemCount ≤ (st.drain t).mp.freeElemCount := by
  simp only [PoolState.drain]
  split
  · exact ⟨fun _ _ => rfl, rfl, Nat.le_refl _⟩
  · rename_i mag hmag
    have hin : t ∈ M := (h.pool.magazines.linked t).mp (by rw [hmag]; rfl)
    have hfree := freeElemCount_flush t (st.mp.slotsOf t).length st.mp
    obtain ⟨F', hpool, hframe, -⟩ := magazineFlushLocked_spec (st.mp.slotsOf t).length h.pool hin
    have hboth := hframe.trans (frame_unlink (t := t))
    obtain ⟨mag', hmag'⟩ := Option.isSome_iff_exists.mp ((hpool.magazines.linked t).mpr hin)
    obtain ⟨-, -, -, -, hsame, -⟩ := unlink_fields hmag'
    exact ⟨hboth.slots, hboth.total, hfree.trans hsame.ge⟩

theorem SoloInv.run (h : PoolInv s st F M) (hlocks : s.shouldUseLocks = false → s.maxMagazines = 0)
    (hsolo : SoloInv t s.advertised st) (hs : st.step (.run t ok addr) = some st') : SoloInv t s.advertised st' := by
  obtain ⟨F', M', hinv'⟩ := h.step hs
  have hnext : st.next t ok addr (st.pcs t) = some st' := by
    simp only [PoolState.step] at hs
    split at hs
    · cases hs
    · exact hs
  have hdid := (run_did hs).2
  have hadv : st.mp.advertisedElemCount = s.advertised := congrArg PoolShape.advertised h.shape
  have hfailed : st'.pcs t ≠ .failed := fail_impossible hinv'
  have hown' := hinv'.threads t
  have hown := h.threads t
  have hthread := hsolo.thread
  have hreserve := hsolo.reserve
  generalize hpc : st.pcs t = pc at hdid hthread hown hnext
  have hkeep : ∀ {pc'}, Moved t st st' pc' → st'.mp = st.mp → ExactThread st' pc' → SoloInv t s.advertised st' := by
    intro pc' hm hmp hexact
    exact hsolo.settle hm (fun u _ => by rw [hmp]) (by rw [hmp]; exact hreserve) hexact
  cases hdid with
  | @goes _ pc' hgoes =>
    have hm : Moved t st (st.goto t pc') pc' := moved_of_update rfl
    rw [hm.self] at hown'
    apply hkeep hm rfl
    cases hgoes with
    | ask => exact hsolo.nothingCached (hinv'.slots_outside hown')
    | refill hslots => exact hsolo.nothingCached hslots
    | noCache =>
      have hcache := allocStart_locked hnext hm.self
      have hmax : st.mp.maxMagazines = 0 := by simpa [Mempool.hasCache] using hcache
      have hshape : st.mp.maxMagazines = s.maxMagazines := congrArg PoolShape.maxMagazines h.shape
      exact h.nothingCached (hshape.symm.trans hmax)
    | create => exact hthread
    | claim => exact hthread
    | notCreated => exact hthread
    | notClaimed => exact hthread
    | _ => trivial
  | @serveBegin _ st₁ _ hserves hb =>
    rw [← hpc] at hserves
    obtain ⟨hempty, hreserve₁⟩ := SoloInv.serves h hlocks hsolo hserves
    obtain ⟨⟨F₁, hpool⟩, -, hshape, hheld⟩ := h.serves hserves
    have hslots : st₁.heldSlots = st.heldSlots := by rw [PoolState.heldSlots, hheld]; rfl
    rw [← hslots] at hpool
    rcases serveBegin_cases hb with ⟨-, -, rfl⟩ | ⟨hcache, hend⟩
    · have hmoved : Moved t st { st₁ with
          lock := some t
          pcs := update st₁.pcs t (.serveWalk st₁.mp.magazines (st₁.mp.totalElemCount - st₁.mp.freeElemCount))
          seen := []
          parked := false } (.serveWalk st₁.mp.magazines (st₁.mp.totalElemCount - st₁.mp.freeElemCount)) :=
        ⟨update_self _ _ _, fun u hu => (update_of_ne hu _ _).trans (congrFun hserves.pcs u)⟩
      refine hsolo.settle hmoved ?_ hreserve₁ ⟨hempty, hinv'.exactSum⟩
      intro u hu
      exact (hempty u).trans (hsolo.apart u hu).symm
    · apply hsolo.served hserves.pcs hpool hempty hreserve₁ _ hend hfailed
      intro hcan
      have hinst : st₁.mp.freeInst ≠ none := of_decide_eq_true hcan
      have hadv₁ : st₁.mp.advertisedElemCount = s.advertised := congrArg PoolShape.advertised hshape
      rw [← hadv₁]
      exact hpool.held_lt_of_noCache hinst (hcache hinst)
  | @serveEnd live _ he =>
    have hlive : live = st.heldCount := ExactSum.end_eq hthread.2
    apply hsolo.served rfl h.pool hthread.1 hreserve _ he hfailed
    intro hcan
    rw [← hlive, ← hadv]
    exact of_decide_eq_true hcan
  | walk => exact hkeep (moved_of_update rfl) rfl ⟨hthread.1, ExactSum.read hthread.2⟩
  | pop _ hp =>
    have hm := allocPop_moved hp
    simp only [PoolState.allocPop] at hp
    split at hp
    · cases hp
    next i slots _ =>
      cases hp
      exact hsolo.settle hm (fun u hu => slotsOf_setSlots_of_ne hu) hreserve trivial
  | claimed hcall =>
    have hslots : ∀ u, u ≠ t → (st.mp.linkMagazine t).slotsOf u = st.mp.slotsOf u := (frame_linkMagazine (t := t)).slots
    rcases hcall with ⟨rfl, rfl⟩ | ⟨i, rfl, rfl⟩
    · refine hsolo.settle (moved_of_update rfl) hslots hreserve fun u => ?_
      by_cases hu : u = t
      · rw [hu]
        exact slotsOf_some linkMagazine_mags_self
      · exact (hslots u hu).trans (hsolo.apart u hu)
    · exact hsolo.settle (moved_of_update rfl) hslots hreserve trivial
  | @refilled mp' hrefill hslots =>
    obtain ⟨mp₁, F₁, hspec, hpool, hframe, hroom⟩ := magazineRefillLocked_spec h.pool hown
    rw [hspec] at hrefill
    cases hrefill
    refine hsolo.settle (moved_of_update rfl) hframe.slots ?_ trivial
    rcases hroom with rfl | hroom
    · exact hreserve
    · have hcount := hpool.free.count
      have htotal := hframe.total
      change mp'.totalElemCount ≤ mp'.freeElemCount + s.advertised
      omega
  | push _ => exact hsolo.settle (moved_of_update rfl) (fun u hu => slotsOf_setSlots_of_ne hu) hreserve trivial
  | @body _ e _ =>
    obtain ⟨hslots, htotal, hfree⟩ := freeBody_kept st t e
    rcases freeBody_moved with hm | hm
    · exact hsolo.settle hm (fun u _ => congrFun hslots u) (by omega) trivial
    · exact absurd hm.self hfailed
  | @returned i =>
    obtain ⟨hslots, htotal, hfree⟩ := freeReturn_kept st t i
    rcases freeReturn_moved with hm | hm
    · exact hsolo.settle hm (fun u _ => congrFun hslots u) (by omega) trivial
    · exact absurd hm.self hfailed
  | flushed =>
    have hfree := freeElemCount_flush t (if st.mp.capacityOf t / 2 = 0 then 1 else st.mp.capacityOf t / 2) st.mp
    obtain ⟨F₁, -, hframe, -⟩ :=
      magazineFlushLocked_spec (if st.mp.capacityOf t / 2 = 0 then 1 else st.mp.capacityOf t / 2) h.pool hown.2
    refine hsolo.settle (moved_of_update rfl) hframe.slots ?_ trivial
    exact hframe.total.trans_le (hreserve.trans (Nat.add_le_add_right hfree _))
  | countBegin => exact hkeep (moved_of_update rfl) rfl trivial
  | countWalk => exact hkeep (moved_of_update rfl) rfl trivial
  | countEnd => exact hkeep (moved_of_update rfl) rfl trivial
  | drained =>
    obtain ⟨hslots, htotal, hfree⟩ := drain_kept h (t := t)
    exact hsolo.settle drain_moved hslots (by omega) trivial
  | failed _ => exact absurd (moved_of_update rfl : Moved t st _ .failed).self hfailed

/-- Only one thread calls the pool. Callers may still pass entries around and write to them. -/
def Only (t : Nat) (a : PoolAct) : Prop := ∀ u op, a = .call u op → u = t

theorem ExactThread.kept (h : ExactThread st pc) (hslots : st'.mp.slotsOf = st.mp.slotsOf) (hnext : st'.mp.nextOf = st.mp.nextOf)
    (hcount : st'.heldCount = st.heldCount) : ExactThread st' pc := by
  have hempty : NothingCached st → NothingCached st' := fun hnone u => (congrFun hslots u).trans (hnone u)
  cases pc with
  | allocAsk => exact hempty h
  | allocCreate => exact hempty h
  | allocClaim => exact hempty h
  | allocRefill => exact hempty h
  | allocLocked => exact hempty h
  | serveWalk mag live =>
    obtain ⟨hnone, rest, hseg, hlive⟩ := h
    have hcached : st'.mp.cached rest = st.mp.cached rest := cached_congr fun u _ => congrFun hslots u
    exact ⟨hempty hnone, rest, hnext ▸ hseg, by rw [hcount, hcached]; exact hlive⟩
  | _ => trivial

theorem SoloInv.step (h : PoolInv s st F M) (hlocks : s.shouldUseLocks = false → s.maxMagazines = 0)
    (hsolo : SoloInv t s.advertised st) (honly : Only t a) (hs : st.step a = some st') : SoloInv t s.advertised st' := by
  cases a with
  | run u ok addr =>
    have hu : u = t := by
      by_contra hne
      have hdid := (run_did hs).2
      rw [hsolo.idle u hne] at hdid
      exact hdid.not_idle
    subst hu
    exact SoloInv.run h hlocks hsolo hs
  | call u op =>
    have hu : u = t := honly u op rfl
    subst hu
    simp only [PoolState.step] at hs
    split at hs
    · cases hs
      refine hsolo.settle (moved_of_update rfl) (fun _ _ => rfl) hsolo.reserve ?_
      cases op <;> trivial
    · cases hs
  | write u i word =>
    simp only [PoolState.step] at hs
    split at hs
    · cases hs
      exact ⟨hsolo.idle, hsolo.apart, hsolo.reserve, hsolo.thread.kept rfl rfl rfl⟩
    · cases hs
  | give u v e =>
    simp only [PoolState.step] at hs
    split at hs
    · rename_i hmay
      cases hs
      exact ⟨hsolo.idle, hsolo.apart, hsolo.reserve, hsolo.thread.kept rfl rfl (heldCount_give hmay.2)⟩
    · cases hs

/-! ## Pools without a cache -/

def NoWalk (st : PoolState) : Prop := ∀ t mag live, st.pcs t ≠ .serveWalk mag live

theorem NoWalk.step (h : PoolInv s st F M) (hmax : s.maxMagazines = 0) (hwalk : NoWalk st) (hs : st.step a = some st') :
    NoWalk st' := by
  intro u mag live hpc
  cases a with
  | run t ok addr =>
    have hdid := (run_did hs).2
    by_cases hu : u = t
    · subst hu
      rcases hdid.walk_cases hpc with ⟨-, hcache⟩ | ⟨m, n, hbefore, -⟩
      · obtain ⟨F', M', hinv'⟩ := h.step hs
        have hshape : st'.mp.maxMagazines = s.maxMagazines := congrArg PoolShape.maxMagazines hinv'.shape
        rw [Mempool.hasCache, hshape, hmax] at hcache
        exact absurd hcache (by decide)
      · exact hwalk u _ _ hbefore
    · obtain ⟨pc, hm⟩ := hdid.moved
      exact hwalk u mag live ((hm.other u hu).symm.trans hpc)
  | call t op =>
    simp only [PoolState.step] at hs
    split at hs
    · cases hs
      dsimp only at hpc
      by_cases hu : u = t
      · rw [hu, update_self] at hpc
        cases op <;> cases hpc
      · rw [update_of_ne hu] at hpc
        exact hwalk u mag live hpc
    · cases hs
  | write t i word =>
    simp only [PoolState.step] at hs
    split at hs
    · cases hs
      exact hwalk u mag live hpc
    · cases hs
  | give t v e =>
    simp only [PoolState.step] at hs
    split at hs
    · cases hs
      exact hwalk u mag live hpc
    · cases hs

theorem NoWalk.exact (h : PoolInv s st F M) (hmax : s.maxMagazines = 0) (hwalk : NoWalk st) : ExactInv s.advertised st := by
  have hnone := h.nothingCached hmax
  refine ⟨?_, fun t => ?_⟩
  · have hreserve := h.pool.reserve
    have hshape : st.mp.maxMagazines = s.maxMagazines := congrArg PoolShape.maxMagazines h.shape
    have hadv : st.mp.advertisedElemCount = s.advertised := congrArg PoolShape.advertised h.shape
    rw [hshape, hmax, Nat.zero_mul, hadv] at hreserve
    omega
  · cases hpc : st.pcs t with
    | serveWalk mag live => exact absurd hpc (hwalk t mag live)
    | allocAsk => exact hnone
    | allocCreate => exact hnone
    | allocClaim => exact hnone
    | allocRefill => exact hnone
    | allocLocked => exact hnone
    | _ => trivial

/-! ## Runs -/

theorem exactInv_of_solo (h : PoolInv s st F M) (hlocks : s.shouldUseLocks = false → s.maxMagazines = 0)
    (hsolo : SoloInv t s.advertised st) (hrun : PoolState.Run (fun _ a => Only t a) st st₁) :
    (∃ F' M', PoolInv s st₁ F' M') ∧ SoloInv t s.advertised st₁ := by
  induction hrun with
  | refl => exact ⟨⟨F, M, h⟩, hsolo⟩
  | step _ hP hs ih =>
    obtain ⟨⟨F₁, M₁, hinv⟩, hsolo₁⟩ := ih
    exact ⟨hinv.step hs, hsolo₁.step hinv hlocks hP hs⟩

theorem exactInv_of_noCache {P : PoolState → PoolAct → Prop} (h : PoolInv s st F M) (hmax : s.maxMagazines = 0)
    (hwalk : NoWalk st) (hrun : PoolState.Run P st st₁) : (∃ F' M', PoolInv s st₁ F' M') ∧ NoWalk st₁ := by
  induction hrun with
  | refl => exact ⟨⟨F, M, h⟩, hwalk⟩
  | step _ _ hs ih =>
    obtain ⟨⟨F₁, M₁, hinv⟩, hwalk₁⟩ := ih
    exact ⟨hinv.step hs, hwalk₁.step hinv hmax hs⟩

end Ccollections.Cmempool
