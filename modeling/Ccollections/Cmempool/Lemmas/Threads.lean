import Ccollections.Cmempool.Threads
import Ccollections.Cmempool.Lemmas.Pool

/-!
# The invariant of a pool and of the threads that use it
-/

namespace Ccollections.Cmempool
open Lib Function List Option

variable {st st' : PoolState} {mp mp' : Mempool} {F F' M M' : List Nat} {t u i addr : Nat} {e : Entry} {pc : Pc} {ok : Bool}
  {s : PoolShape}

def Pc.isWalk : Pc → Bool
  | .serveWalk _ _ | .countWalk _ _ => true
  | _ => false

def ThreadOk (st : PoolState) (M : List Nat) (t : Nat) : Pc → Prop
  | .idle | .alloc | .allocLocked | .count | .drain => True
  | .allocAsk | .allocCreate | .allocClaim => t ∉ M
  | .allocRefill => t ∈ M
  | .allocPop => t ∈ M ∧ st.mp.slotsOf t ≠ []
  | .serveWalk mag _ =>
    (st.lock = some t ∧ ∃ rest, Seg st.mp.nextOf mag rest none ∧ M = st.seen.reverse ++ rest) ∧ st.mp.freeInst ≠ none
  | .countWalk mag _ => st.lock = some t ∧ ∃ rest, Seg st.mp.nextOf mag rest none ∧ M = st.seen.reverse ++ rest
  | .free e | .freeLocked e => (e, t) ∈ st.held
  | .freeAsk i | .freeCreate i | .freeClaim i => (.slot i, t) ∈ st.held ∧ t ∉ M
  | .freePark i | .freeFlush i | .freeFlushed i => (.slot i, t) ∈ st.held ∧ t ∈ M
  | .failed => False

structure PoolBut (s : PoolShape) (t : Nat) (st : PoolState) (F M : List Nat) : Prop where
  shape : st.mp.shape = s
  pool : MempoolOk st.mp F M st.heldSlots
  dynamic : st.mp.dynamicEntries.Perm st.heldDynamic
  nodup : st.mp.dynamicEntries.Nodup
  fallback : st.mp.dynamicEntries ≠ [] → st.mp.fallbackToDynamicMemory = true
  threads : ∀ u, u ≠ t → ThreadOk st M u (st.pcs u)
  locked : ∀ u, u ≠ t → st.lock = some u → (st.pcs u).isWalk = true

structure PoolInv (s : PoolShape) (st : PoolState) (F M : List Nat) : Prop where
  shape : st.mp.shape = s
  pool : MempoolOk st.mp F M st.heldSlots
  dynamic : st.mp.dynamicEntries.Perm st.heldDynamic
  nodup : st.mp.dynamicEntries.Nodup
  fallback : st.mp.dynamicEntries ≠ [] → st.mp.fallbackToDynamicMemory = true
  threads : ∀ u, ThreadOk st M u (st.pcs u)
  locked : ∀ u, st.lock = some u → (st.pcs u).isWalk = true

theorem PoolInv.but (h : PoolInv s st F M) (t : Nat) : PoolBut s t st F M :=
  ⟨h.shape, h.pool, h.dynamic, h.nodup, h.fallback, fun u _ => h.threads u, fun u _ => h.locked u⟩

theorem PoolBut.restore (h : PoolBut s t st F M) (hpc : ThreadOk st M t (st.pcs t))
    (hlock : st.lock = some t → (st.pcs t).isWalk = true) : PoolInv s st F M where
  shape := h.shape
  pool := h.pool
  dynamic := h.dynamic
  nodup := h.nodup
  fallback := h.fallback
  threads u := by
    by_cases hu : u = t
    · rw [hu]
      exact hpc
    · exact h.threads u hu
  locked u hlocked := by
    by_cases hu : u = t
    · rw [hu] at hlocked ⊢
      exact hlock hlocked
    · exact h.locked u hu hlocked

theorem ThreadOk.kept (h : ThreadOk st M u pc) (hmem : u ∈ M' ↔ u ∈ M) (hslots : st'.mp.slotsOf u = st.mp.slotsOf u)
    (hheld : ∀ e, (e, u) ∈ st.held → (e, u) ∈ st'.held)
    (hwalk : pc.isWalk = true → st'.lock = st.lock ∧ st'.seen = st.seen ∧ M' = M ∧ st'.mp.nextOf = st.mp.nextOf ∧
      st'.mp.freeInst = st.mp.freeInst) :
    ThreadOk st' M' u pc := by
  cases pc with
  | serveWalk mag live =>
    obtain ⟨hlock, hseen, hM, hnext, hinst⟩ := hwalk rfl
    simp only [ThreadOk, hlock, hseen, hM, hnext, hinst]
    exact h
  | countWalk mag live =>
    obtain ⟨hlock, hseen, hM, hnext, -⟩ := hwalk rfl
    simp only [ThreadOk, hlock, hseen, hM, hnext]
    exact h
  | idle => trivial
  | alloc => trivial
  | allocLocked => trivial
  | count => trivial
  | drain => trivial
  | allocAsk => exact fun hu => h (hmem.mp hu)
  | allocCreate => exact fun hu => h (hmem.mp hu)
  | allocClaim => exact fun hu => h (hmem.mp hu)
  | allocRefill => exact hmem.mpr h
  | allocPop => exact ⟨hmem.mpr h.1, hslots ▸ h.2⟩
  | free e => exact hheld e h
  | freeLocked e => exact hheld e h
  | freeAsk i => exact ⟨hheld _ h.1, fun hu => h.2 (hmem.mp hu)⟩
  | freeCreate i => exact ⟨hheld _ h.1, fun hu => h.2 (hmem.mp hu)⟩
  | freeClaim i => exact ⟨hheld _ h.1, fun hu => h.2 (hmem.mp hu)⟩
  | freePark i => exact ⟨hheld _ h.1, hmem.mpr h.2⟩
  | freeFlush i => exact ⟨hheld _ h.1, hmem.mpr h.2⟩
  | freeFlushed i => exact ⟨hheld _ h.1, hmem.mpr h.2⟩
  | failed => exact h

theorem Pc.isWalk_lock (h : ThreadOk st M u pc) (hwalk : pc.isWalk = true) : st.lock = some u := by
  cases pc with
  | serveWalk mag live => exact h.1.1
  | countWalk mag live => exact h.1
  | _ => cases hwalk

theorem Frame.mem_iff (hframe : Frame t mp mp') (h : MagazinesOk mp M) (h' : MagazinesOk mp' M') (hu : u ≠ t) : u ∈ M' ↔ u ∈ M := by
  rw [← h.linked u, ← h'.linked u, hframe.linked u hu]

/-- Either no other thread holds the lock, or a step leaves alone what its holder walks over. -/
def WalksKept (t : Nat) (st st' : PoolState) (M M' : List Nat) : Prop :=
  (∀ u, u ≠ t → st.lock ≠ some u) ∨ (st'.seen = st.seen ∧ M' = M ∧ st'.mp.nextOf = st.mp.nextOf ∧ st'.mp.freeInst = st.mp.freeInst)

theorem PoolBut.change (h : PoolBut s t st F M) (hpool : MempoolOk st'.mp F' M' st'.heldSlots) (hframe : Frame t st.mp st'.mp)
    (hpcs : st'.pcs = st.pcs) (hlock : st'.lock = st.lock) (hdynamic : st'.heldDynamic.Perm st.heldDynamic)
    (hheld : ∀ e u, u ≠ t → (e, u) ∈ st.held → (e, u) ∈ st'.held) (hwalks : WalksKept t st st' M M') :
    PoolBut s t st' F' M' where
  shape := hframe.shape.trans h.shape
  pool := hpool
  dynamic := by
    rw [hframe.dynamic]
    exact h.dynamic.trans hdynamic.symm
  nodup := by
    rw [hframe.dynamic]
    exact h.nodup
  fallback := by
    rw [hframe.dynamic, hframe.fallback]
    exact h.fallback
  threads u hu := by
    rw [hpcs]
    refine (h.threads u hu).kept (hframe.mem_iff h.pool.magazines hpool.magazines hu) (hframe.slots u hu) (fun e => hheld e u hu) ?_
    intro hwalk
    have hholds := Pc.isWalk_lock (h.threads u hu) hwalk
    rcases hwalks with hnone | ⟨hseen, hM, hnext, hinst⟩
    · exact absurd hholds (hnone u hu)
    · exact ⟨hlock, hseen, hM, hnext, hinst⟩
  locked u hu hlocked := by
    rw [hpcs]
    rw [hlock] at hlocked
    exact h.locked u hu hlocked

theorem PoolBut.withPool (h : PoolBut s t st F M) (hlock : ∀ u, u ≠ t → st.lock ≠ some u) (hpool : MempoolOk mp' F' M' st.heldSlots)
    (hframe : Frame t st.mp mp') : PoolBut s t (st.withPool mp') F' M' :=
  h.change hpool hframe rfl rfl (List.Perm.refl _) (fun _ _ _ hmem => hmem) (.inl hlock)

theorem PoolBut.arrive (h : PoolBut s t st F M) (hmp : st'.mp = st.mp) (hlock : st'.lock = st.lock) (hheld : st'.held = st.held)
    (hseen : st'.seen = st.seen) (hpcs : st'.pcs = update st.pcs t pc) (hpc : ThreadOk st M t pc)
    (hholds : st.lock = some t → pc.isWalk = true) : PoolInv s st' F M := by
  have hother : ∀ u, u ≠ t → st'.pcs u = st.pcs u := fun u hu => by rw [hpcs, update_of_ne hu]
  have hself : st'.pcs t = pc := by rw [hpcs, update_self]
  have hkept : ∀ u p, ThreadOk st M u p → ThreadOk st' M u p := fun u p hp =>
    hp.kept Iff.rfl (by rw [hmp]) (fun _ hmem => hheld ▸ hmem) fun _ => ⟨hlock, hseen, rfl, by rw [hmp], by rw [hmp]⟩
  have hslots : st'.heldSlots = st.heldSlots := by simp only [PoolState.heldSlots, hheld]
  have hdynamic : st'.heldDynamic = st.heldDynamic := by simp only [PoolState.heldDynamic, hheld]
  have hbut : PoolBut s t st' F M := by
    refine ⟨hmp ▸ h.shape, ?_, ?_, hmp ▸ h.nodup, hmp ▸ h.fallback, ?_, ?_⟩
    · rw [hmp, hslots]
      exact h.pool
    · rw [hmp, hdynamic]
      exact h.dynamic
    · intro u hu
      rw [hother u hu]
      exact hkept u _ (h.threads u hu)
    · intro u hu hlocked
      rw [hother u hu]
      exact h.locked u hu (hlock ▸ hlocked)
  refine hbut.restore ?_ ?_
  · rw [hself]
    exact hkept t pc hpc
  · rw [hself, hlock]
    exact hholds

theorem PoolBut.goto (h : PoolBut s t st F M) (hpc : ThreadOk st M t pc) (hlock : st.lock = some t → pc.isWalk = true) :
    PoolInv s (st.goto t pc) F M := h.arrive rfl rfl rfl rfl rfl hpc hlock

theorem PoolBut.finish (h : PoolBut s t st F M) (op : PoolOp) (r : PoolResult) : PoolInv s (st.finish t op r) F M := by
  have hother : ∀ u, u ≠ t → (st.finish t op r).pcs u = st.pcs u := fun u hu => update_of_ne hu _ _
  have hself : (st.finish t op r).pcs t = .idle := update_self t _ st.pcs
  have hlock : ∀ u, u ≠ t → ((st.finish t op r).lock = some u ↔ st.lock = some u) := by
    intro u hu
    simp only [PoolState.finish]
    split
    · rename_i hheld
      simp [hheld, Ne.symm hu]
    · rfl
  have hbut : PoolBut s t (st.finish t op r) F M := by
    refine ⟨h.shape, h.pool, h.dynamic, h.nodup, h.fallback, ?_, ?_⟩
    · intro u hu
      rw [hother u hu]
      refine (h.threads u hu).kept Iff.rfl rfl (fun _ hmem => hmem) fun hwalk => ⟨?_, rfl, rfl, rfl, rfl⟩
      have hholds := Pc.isWalk_lock (h.threads u hu) hwalk
      rw [hholds]
      exact (hlock u hu).mpr hholds
    · intro u hu hlocked
      rw [hother u hu]
      exact h.locked u hu ((hlock u hu).mp hlocked)
  refine hbut.restore ?_ ?_
  · rw [hself]
    trivial
  · intro hheld
    simp only [PoolState.finish] at hheld
    split at hheld
    · cases hheld
    · rename_i hnot
      exact absurd hheld hnot

/-! ## What the callers hold -/

theorem heldSlots_takeBack (h : (.slot i, t) ∈ st.held) : st.heldSlots.Perm (i :: (st.takeBack t (.slot i)).heldSlots) :=
  (perm_cons_erase h).filterMap _

theorem heldDynamic_takeBack (h : (.slot i, t) ∈ st.held) : (st.takeBack t (.slot i)).heldDynamic.Perm st.heldDynamic :=
  List.Perm.symm ((perm_cons_erase h).filterMap _)

theorem mem_takeBack (st : PoolState) (hu : u ≠ t) {e' : Entry} (h : (e', u) ∈ st.held) : (e', u) ∈ (st.takeBack t e).held := by
  refine (mem_erase_of_ne ?_).mpr h
  intro heq
  exact hu (Prod.mk.inj heq).2

theorem mem_heldSlots (h : (.slot i, t) ∈ st.held) : i ∈ st.heldSlots := mem_filterMap.mpr ⟨_, h, rfl⟩

theorem PoolBut.gave (h : PoolBut s t st F M) (hpool : MempoolOk mp' F' M (i :: st.heldSlots)) (hframe : Frame t st.mp mp')
    (hwalks : WalksKept t st (st.withPool mp') M M) : PoolBut s t ((st.withPool mp').handOut t (.slot i)) F' M := by
  refine h.change hpool hframe rfl rfl (List.Perm.refl _) ?_ hwalks
  intro e u _ hmem
  exact mem_cons_of_mem _ hmem

theorem PoolBut.took (h : PoolBut s t st F M) (hheld : (.slot i, t) ∈ st.held)
    (hpool : ∀ H', st.heldSlots.Perm (i :: H') → MempoolOk mp' F' M H') (hframe : Frame t st.mp mp')
    (hwalks : WalksKept t st (st.withPool mp') M M) (parked : Bool) :
    PoolBut s t ({ st with mp := mp', parked := parked }.takeBack t (.slot i)) F' M := by
  refine h.change (hpool _ (heldSlots_takeBack hheld)) hframe rfl rfl (heldDynamic_takeBack hheld) ?_ hwalks
  intro e u hu hmem
  exact mem_takeBack st hu hmem

/-! ## The parts of a call -/

theorem PoolBut.serveEnd (h : PoolBut s t st F M) (hlock : ∀ u, u ≠ t → st.lock ≠ some u) {canServe : Bool} (hfree : canServe = true → st.mp.freeInst ≠ none)
    (hs : st.serveEnd t canServe ok addr = some st') : ∃ F' M', PoolInv s st' F' M' := by
  simp only [PoolState.serveEnd] at hs
  split at hs
  · rename_i hserve
    have hinst := hfree hserve
    cases F with
    | nil => exact absurd h.pool.free.head_eq hinst
    | cons i F =>
      obtain ⟨hentry, hpool⟩ := h.pool.serve
      have hserved : st.mp.serveFreeInst = some ((st.mp.dropFreeInst i).setTaken i true, i) := by
        simp [Mempool.serveFreeInst, h.pool.free.head_eq, hentry]
      rw [hserved] at hs
      cases hs
      have hgave := h.gave hpool (frame_of_mags rfl rfl rfl rfl rfl rfl rfl rfl) (.inl hlock)
      exact ⟨F, M, hgave.finish _ _⟩
  · split at hs
    · rename_i hfallback
      split at hs
      · cases hs
      · rename_i hnew
        cases hs
        have hgave : PoolBut s t ((st.withPool { st.mp with dynamicEntries := addr :: st.mp.dynamicEntries }).handOut t (.dynamic addr)) F M := by
          refine ⟨h.shape, ?_, h.dynamic.cons addr, nodup_cons.mpr ⟨hnew, h.nodup⟩, ?_, ?_, h.locked⟩
          · exact ⟨h.pool.free.congr rfl rfl rfl, h.pool.magazines.congr rfl rfl rfl rfl rfl, h.pool.places, h.pool.taken, h.pool.reserve⟩
          · intro _
            exact (Bool.and_eq_true_iff.mp hfallback).1
          · intro u hu
            refine (h.threads u hu).kept Iff.rfl rfl (fun _ hmem => mem_cons_of_mem _ hmem) ?_
            intro hwalk
            exact absurd (Pc.isWalk_lock (h.threads u hu) hwalk) (hlock u hu)
        exact ⟨F, M, hgave.finish _ _⟩
    · cases hs
      exact ⟨F, M, h.finish _ _⟩

theorem PoolBut.beginWalk (h : PoolBut s t st F M) (hnone : st.lock = none) {pc : Pc}
    (hpc : ThreadOk { st with lock := some t, pcs := update st.pcs t pc, seen := [], parked := false } M t pc)
    (hwalk : pc.isWalk = true) :
    PoolInv s { st with lock := some t, pcs := update st.pcs t pc, seen := [], parked := false } F M := by
  have hbut : PoolBut s t { st with lock := some t, pcs := update st.pcs t pc, seen := [], parked := false } F M := by
    refine ⟨h.shape, h.pool, h.dynamic, h.nodup, h.fallback, ?_, ?_⟩
    · intro u hu
      dsimp only
      rw [update_of_ne hu]
      refine (h.threads u hu).kept Iff.rfl rfl (fun _ hmem => hmem) ?_
      intro hother
      have hholds := Pc.isWalk_lock (h.threads u hu) hother
      rw [hnone] at hholds
      cases hholds
    · intro u hu hlocked
      exact absurd (some.inj hlocked).symm hu
  refine hbut.restore ?_ ?_
  · dsimp only
    rw [update_self]
    exact hpc
  · intro _
    dsimp only
    rw [update_self]
    exact hwalk

theorem PoolBut.serveBegin (h : PoolBut s t st F M) (hnone : st.lock = none) (hs : st.serveBegin t ok addr = some st') :
    ∃ F' M', PoolInv s st' F' M' := by
  have hlock : ∀ u, u ≠ t → st.lock ≠ some u := by
    intro u _
    rw [hnone]
    exact nofun
  simp only [PoolState.serveBegin] at hs
  split at hs
  · rename_i hwalks
    cases hs
    have hinst : st.mp.freeInst ≠ none := by simpa using (Bool.and_eq_true_iff.mp hwalks).1
    exact ⟨F, M, h.beginWalk hnone ⟨⟨rfl, M, h.pool.magazines.next, rfl⟩, hinst⟩ rfl⟩
  · exact h.serveEnd hlock (by simp) hs

theorem PoolBut.allocPop (h : PoolBut s t st F M) (ht : t ∈ M) (hs : st.allocPop t = some st') : ∃ F' M', PoolInv s st' F' M' := by
  simp only [PoolState.allocPop] at hs
  split at hs
  · cases hs
  · rename_i i slots hslots
    cases hs
    obtain ⟨hpool, hframe⟩ := h.pool.pop ht hslots
    have hgave := h.gave hpool hframe (.inr ⟨rfl, rfl, nextOf_setSlots, rfl⟩)
    exact ⟨F, M, hgave.finish _ _⟩

theorem not_other (hnone : st.lock = none) : ∀ u, u ≠ t → st.lock ≠ some u := by
  intro u _
  rw [hnone]
  exact nofun

theorem PoolBut.mem_iff (h : PoolBut s t st F M) (u : Nat) : (st.mp.mags u).isSome = true ↔ u ∈ M := h.pool.magazines.linked u

theorem PoolBut.allocFromCache (h : PoolBut s t st F M) (hlock : st.lock ≠ some t) (hs : st.allocFromCache t = some st') :
    ∃ F' M', PoolInv s st' F' M' := by
  simp only [PoolState.allocFromCache] at hs
  split at hs
  · rename_i hnone
    cases hs
    have hout : t ∉ M := by
      rw [← h.mem_iff, hnone]
      simp
    exact ⟨F, M, h.goto hout fun hheld => absurd hheld hlock⟩
  · rename_i mag hmag
    have hin : t ∈ M := by
      rw [← h.mem_iff, hmag]
      rfl
    split at hs
    · cases hs
      exact ⟨F, M, h.goto hin fun hheld => absurd hheld hlock⟩
    · exact h.allocPop hin hs

theorem PoolBut.claim (h : PoolBut s t st F M) (hnone : st.lock = none) (ht : t ∉ M) (hbudget : st.mp.liveMagazines < st.mp.maxMagazines) :
    PoolBut s t (st.withPool (st.mp.linkMagazine t)) F (t :: M) := by
  rw [h.pool.magazines.live] at hbudget
  exact h.withPool (not_other hnone) (h.pool.link ht hbudget) frame_linkMagazine

theorem PoolBut.allocRefill (h : PoolBut s t st F M) (hnone : st.lock = none) (ht : t ∈ M) (hs : st.allocRefill t ok addr = some st') :
    ∃ F' M', PoolInv s st' F' M' := by
  obtain ⟨mp', F', hrefill, hpool, hframe, -⟩ := magazineRefillLocked_spec h.pool ht
  have hbut := h.withPool (not_other hnone) hpool hframe
  simp only [PoolState.allocRefill, hrefill] at hs
  split at hs
  · rename_i hslots
    cases hs
    exact ⟨F', M, hbut.goto ⟨ht, hslots⟩ fun hheld => nomatch hnone.symm.trans hheld⟩
  · exact hbut.serveBegin hnone hs

theorem PoolBut.walk {mag live : Nat} {resume : Option Nat → Nat → Pc} (h : PoolBut s t st F M) (hlock : st.lock = some t)
    {rest : List Nat} (hrest : Seg st.mp.nextOf (some mag) rest none) (hM : M = st.seen.reverse ++ rest)
    (hresume : ∀ st' next n, st'.mp = st.mp → (st'.lock = some t ∧ ∃ rest, Seg st'.mp.nextOf next rest none ∧ M = st'.seen.reverse ++ rest) →
      ThreadOk st' M t (resume next n)) (hwalk : ∀ next n, (resume next n).isWalk = true) :
    PoolInv s (st.walk t mag live resume) F M := by
  have hother : ∀ u, u ≠ t → (st.walk t mag live resume).pcs u = st.pcs u := fun u hu => update_of_ne hu _ _
  have hself : (st.walk t mag live resume).pcs t = resume (st.mp.nextOf mag) (live - (st.mp.slotsOf mag).length) :=
    update_self t _ st.pcs
  cases rest with
  | nil => cases hrest
  | cons a rest =>
    obtain ⟨ha, hrest⟩ := hrest
    cases ha
    have hbut : PoolBut s t (st.walk t mag live resume) F M := by
      refine ⟨h.shape, h.pool, h.dynamic, h.nodup, h.fallback, ?_, ?_⟩
      · intro u hu
        rw [hother u hu]
        refine (h.threads u hu).kept Iff.rfl rfl (fun _ hmem => hmem) fun hw => ?_
        have hholds := Pc.isWalk_lock (h.threads u hu) hw
        rw [hlock] at hholds
        exact absurd (some.inj hholds).symm hu
      · intro u hu hlocked
        exact absurd (some.inj (hlock.symm.trans hlocked)).symm hu
    refine hbut.restore ?_ ?_
    · rw [hself]
      refine hresume _ _ _ rfl ⟨hlock, rest, hrest, ?_⟩
      rw [hM, PoolState.walk, reverse_cons, append_assoc]
      rfl
    · rw [hself]
      exact fun _ => hwalk _ _

/-! ## The parts of a free -/

theorem PoolBut.freePush (h : PoolBut s t st F M) (hheld : (.slot i, t) ∈ st.held) (ht : t ∈ M)
    (hroom : (st.mp.slotsOf t).length < st.mp.capacityOf t) : PoolInv s (st.freePush t i) F M := by
  have hframe : Frame t st.mp (st.mp.pushSlot t i) := (h.pool.push ht (heldSlots_takeBack hheld) hroom).2
  have htook := h.took hheld (fun H' hperm => (h.pool.push ht hperm hroom).1) hframe (.inr ⟨rfl, rfl, nextOf_setSlots, rfl⟩)
    (st.parked || decide (t ∈ st.seen))
  exact htook.finish _ _

theorem PoolBut.freePark (h : PoolBut s t st F M) (hlock : st.lock ≠ some t) (hheld : (.slot i, t) ∈ st.held) (ht : t ∈ M) :
    PoolInv s (st.freePark t i) F M := by
  rw [PoolState.freePark]
  split
  · exact h.goto hheld fun hlocked => absurd hlocked hlock
  · rename_i hroom
    exact h.freePush hheld ht (Nat.lt_of_not_le hroom)

theorem PoolBut.freeReturn (h : PoolBut s t st F M) (hnone : st.lock = none) (hheld : (.slot i, t) ∈ st.held) :
    ∃ F', PoolInv s (st.freeReturn t i) F' M := by
  have htaken := (h.pool.taken_of_held (mem_heldSlots hheld)).2
  have hreturn : st.mp.returnEntry i = some ((st.mp.setTaken i false).pushFreeInst i) := by simp [Mempool.returnEntry, htaken]
  simp only [PoolState.freeReturn, hreturn]
  have htook := h.took hheld (fun H' hperm => h.pool.returned hperm) (frame_of_mags rfl rfl rfl rfl rfl rfl rfl rfl)
    (.inl (not_other hnone)) st.parked
  exact ⟨i :: F, htook.finish _ _⟩

theorem PoolBut.freeBody (h : PoolBut s t st F M) (hnone : st.lock = none) (hheld : (e, t) ∈ st.held) :
    ∃ F', PoolInv s (st.freeBody t e) F' M := by
  cases e with
  | slot i =>
    have hlt := (h.pool.taken_of_held (mem_heldSlots hheld)).1
    simp only [PoolState.freeBody, Mempool.validMempoolAddr, hlt, decide_true, if_true]
    exact h.freeReturn hnone hheld
  | dynamic addr =>
    have hmem : addr ∈ st.mp.dynamicEntries := by
      rw [h.dynamic.mem_iff]
      exact mem_filterMap.mpr ⟨_, hheld, rfl⟩
    have hsome : st.mp.dynamicEntries ≠ [] := ne_nil_of_mem hmem
    have hpass : (!st.mp.fallbackToDynamicMemory || st.mp.dynamicEntries.isEmpty) = false := by
      simp [h.fallback hsome, hsome]
    simp only [PoolState.freeBody, hpass, hmem, if_true, Bool.false_eq_true, if_false]
    have hperm : st.heldDynamic.Perm (addr :: (st.takeBack t (.dynamic addr)).heldDynamic) :=
      (perm_cons_erase hheld).filterMap _
    have hslots : st.heldSlots.Perm (st.takeBack t (.dynamic addr)).heldSlots :=
      (perm_cons_erase hheld).filterMap _
    have htook : PoolBut s t ((st.withPool { st.mp with dynamicEntries := st.mp.dynamicEntries.erase addr }).takeBack t (.dynamic addr)) F M := by
      have hpool := h.pool.held_perm hslots
      refine ⟨h.shape, ?_, ?_, h.nodup.erase addr, ?_, ?_, h.locked⟩
      · exact ⟨hpool.free.congr rfl rfl rfl, hpool.magazines.congr rfl rfl rfl rfl rfl, hpool.places, hpool.taken, hpool.reserve⟩
      · exact ((perm_cons_erase hmem).symm.trans (h.dynamic.trans hperm)).cons_inv
      · exact fun _ => h.fallback hsome
      · intro u hu
        refine (h.threads u hu).kept Iff.rfl rfl (fun e' hmem' => mem_takeBack st hu hmem') fun hwalk => ?_
        exact absurd (Pc.isWalk_lock (h.threads u hu) hwalk) (not_other hnone u hu)
    exact ⟨F, htook.finish _ _⟩

theorem PoolBut.freeToCache (h : PoolBut s t st F M) (hlock : st.lock ≠ some t) (hheld : (e, t) ∈ st.held) :
    PoolInv s (st.freeToCache t e) F M := by
  cases e with
  | dynamic addr => exact h.goto hheld fun hlocked => absurd hlocked hlock
  | slot i =>
    obtain ⟨hlt, htaken⟩ := h.pool.taken_of_held (mem_heldSlots hheld)
    simp only [PoolState.freeToCache, Mempool.validMempoolAddr, hlt, htaken, decide_true, Bool.not_true, Bool.false_eq_true, if_false]
    split
    · rename_i hnone
      have hout : t ∉ M := by
        rw [← h.mem_iff, hnone]
        simp
      exact h.goto ⟨hheld, hout⟩ fun hlocked => absurd hlocked hlock
    · rename_i mag hmag
      have hin : t ∈ M := by
        rw [← h.mem_iff, hmag]
        rfl
      exact h.goto ⟨hheld, hin⟩ fun hlocked => absurd hlocked hlock

theorem PoolBut.freeFlush (h : PoolBut s t st F M) (hnone : st.lock = none) (hheld : (.slot i, t) ∈ st.held) (ht : t ∈ M) :
    ∃ F', PoolInv s (st.freeFlush t i) F' M := by
  obtain ⟨F', hpool, hframe, -⟩ :=
    magazineFlushLocked_spec (if st.mp.capacityOf t / 2 = 0 then 1 else st.mp.capacityOf t / 2) h.pool ht
  have hbut := h.withPool (not_other hnone) hpool hframe
  exact ⟨F', hbut.goto ⟨hheld, ht⟩ fun hlocked => nomatch hnone.symm.trans hlocked⟩

theorem PoolBut.drain (h : PoolBut s t st F M) (hnone : st.lock = none) : ∃ F' M', PoolInv s (st.drain t) F' M' := by
  simp only [PoolState.drain]
  split
  · exact ⟨F, M, h.finish _ _⟩
  · rename_i mag hmag
    have hin : t ∈ M := by
      rw [← h.mem_iff, hmag]
      rfl
    obtain ⟨F', hpool, hframe, hslots⟩ := magazineFlushLocked_spec (st.mp.slotsOf t).length h.pool hin
    rw [drop_length] at hslots
    have hbut := h.withPool (not_other hnone) (hpool.unlink hin hslots) (hframe.trans frame_unlink)
    exact ⟨F', M.erase t, hbut.finish _ _⟩

/-! ## Steps -/

theorem PoolInv.lock_free (h : PoolInv s st F M) (hrun : st.blocked t = false) (hpc : (st.pcs t).isWalk = false) :
    st.lock ≠ some t ∧ (PoolState.locks (st.pcs t) = true ∨ st.mp.shouldUseLocks = false → st.lock = none) := by
  have hself : st.lock ≠ some t := by
    intro hlock
    rw [h.locked t hlock] at hpc
    cases hpc
  refine ⟨hself, fun hneeds => ?_⟩
  simp only [PoolState.blocked, decide_eq_false_iff_not, not_and] at hrun
  by_contra hlock
  exact hrun hlock hself (by simpa using hneeds)

theorem PoolInv.run (h : PoolInv s st F M) (hs : st.step (.run t ok addr) = some st') : ∃ F' M', PoolInv s st' F' M' := by
  simp only [PoolState.step] at hs
  split at hs
  · cases hs
  rename_i hrun
  rw [Bool.not_eq_true] at hrun
  have hbut := h.but t
  have hown := h.threads t
  have hfree := h.lock_free hrun
  cases hpc : st.pcs t with
  | idle => simp [hpc, PoolState.next] at hs
  | failed => simp [hpc, PoolState.next] at hs
  | alloc =>
    simp only [hpc] at hs hfree
    obtain ⟨hlock, hnone⟩ := hfree rfl
    simp only [PoolState.next, PoolState.allocStart] at hs
    split at hs
    · rename_i hunlocked
      exact hbut.serveBegin (hnone (.inr (by simpa using hunlocked))) hs
    · split at hs
      · exact hbut.allocFromCache hlock hs
      · cases hs
        exact ⟨F, M, hbut.goto trivial fun hheld => absurd hheld hlock⟩
  | allocAsk =>
    simp only [hpc] at hs hfree hown
    obtain ⟨hlock, hnone⟩ := hfree rfl
    simp only [PoolState.next, PoolState.allocAsk] at hs
    split at hs
    · cases hs
      exact ⟨F, M, hbut.goto hown fun hheld => absurd hheld hlock⟩
    · exact hbut.serveBegin (hnone (.inl rfl)) hs
  | allocCreate =>
    simp only [hpc] at hs hfree hown
    obtain ⟨hlock, -⟩ := hfree rfl
    cases hs
    cases ok with
    | true => exact ⟨F, M, hbut.goto hown fun hheld => absurd hheld hlock⟩
    | false => exact ⟨F, M, hbut.goto trivial fun hheld => absurd hheld hlock⟩
  | allocClaim =>
    simp only [hpc] at hs hfree hown
    obtain ⟨hlock, hnone⟩ := hfree rfl
    simp only [PoolState.next, PoolState.allocClaim] at hs
    split at hs
    · rename_i hbudget
      cases hs
      have hclaimed := hbut.claim (hnone (.inl rfl)) hown hbudget
      exact ⟨F, t :: M, hclaimed.goto mem_cons_self fun hheld => absurd hheld hlock⟩
    · cases hs
      exact ⟨F, M, hbut.goto trivial fun hheld => absurd hheld hlock⟩
  | allocRefill =>
    simp only [hpc] at hs hfree hown
    exact hbut.allocRefill ((hfree rfl).2 (.inl rfl)) hown hs
  | allocPop =>
    simp only [hpc] at hs hown
    exact hbut.allocPop hown.1 hs
  | allocLocked =>
    simp only [hpc] at hs hfree
    exact hbut.serveBegin ((hfree rfl).2 (.inl rfl)) hs
  | serveWalk mag live =>
    simp only [hpc] at hs hown
    obtain ⟨⟨hlock, rest, hrest, hM⟩, hinst⟩ := hown
    cases mag with
    | some mag =>
      cases hs
      exact ⟨F, M, hbut.walk hlock hrest hM (fun st'' next n hmp hw => ⟨hw, hmp ▸ hinst⟩) fun _ _ => rfl⟩
    | none =>
      refine hbut.serveEnd (fun u hu heq => hu (some.inj (hlock.symm.trans heq)).symm) (fun _ => hinst) hs
  | free e =>
    simp only [hpc] at hs hfree hown
    obtain ⟨hlock, hnone⟩ := hfree rfl
    cases hs
    simp only [PoolState.freeStart]
    split
    · rename_i hunlocked
      obtain ⟨F', hinv⟩ := hbut.freeBody (hnone (.inr (by simpa using hunlocked))) hown
      exact ⟨F', M, hinv⟩
    · split
      · exact ⟨F, M, hbut.freeToCache hlock hown⟩
      · exact ⟨F, M, hbut.goto hown fun hheld => absurd hheld hlock⟩
  | freeAsk i =>
    simp only [hpc] at hs hfree hown
    obtain ⟨hlock, hnone⟩ := hfree rfl
    cases hs
    simp only [PoolState.freeAsk]
    split
    · exact ⟨F, M, hbut.goto hown fun hheld => absurd hheld hlock⟩
    · obtain ⟨F', hinv⟩ := hbut.freeReturn (hnone (.inl rfl)) hown.1
      exact ⟨F', M, hinv⟩
  | freeCreate i =>
    simp only [hpc] at hs hfree hown
    obtain ⟨hlock, -⟩ := hfree rfl
    cases hs
    cases ok with
    | true => exact ⟨F, M, hbut.goto hown fun hheld => absurd hheld hlock⟩
    | false => exact ⟨F, M, hbut.goto hown.1 fun hheld => absurd hheld hlock⟩
  | freeClaim i =>
    simp only [hpc] at hs hfree hown
    obtain ⟨hlock, hnone⟩ := hfree rfl
    cases hs
    simp only [PoolState.freeClaim]
    split
    · rename_i hbudget
      have hclaimed := hbut.claim (hnone (.inl rfl)) hown.2 hbudget
      exact ⟨F, t :: M, hclaimed.goto ⟨hown.1, mem_cons_self⟩ fun hheld => absurd hheld hlock⟩
    · exact ⟨F, M, hbut.goto hown.1 fun hheld => absurd hheld hlock⟩
  | freePark i =>
    simp only [hpc] at hs hfree hown
    obtain ⟨hlock, -⟩ := hfree rfl
    simp only [PoolState.next] at hs
    split at hs
    · cases hs
      exact ⟨F, M, hbut.goto hown fun hheld => absurd hheld hlock⟩
    · cases hs
      exact ⟨F, M, hbut.freePark hlock hown.1 hown.2⟩
  | freeFlush i =>
    simp only [hpc] at hs hfree hown
    cases hs
    obtain ⟨F', hinv⟩ := hbut.freeFlush ((hfree rfl).2 (.inl rfl)) hown.1 hown.2
    exact ⟨F', M, hinv⟩
  | freeFlushed i =>
    simp only [hpc] at hs hfree hown
    cases hs
    exact ⟨F, M, hbut.freePark (hfree rfl).1 hown.1 hown.2⟩
  | freeLocked e =>
    simp only [hpc] at hs hfree hown
    cases hs
    obtain ⟨F', hinv⟩ := hbut.freeBody ((hfree rfl).2 (.inl rfl)) hown
    exact ⟨F', M, hinv⟩
  | count =>
    simp only [hpc] at hs hfree
    cases hs
    exact ⟨F, M, hbut.beginWalk ((hfree rfl).2 (.inl rfl)) ⟨rfl, M, h.pool.magazines.next, rfl⟩ rfl⟩
  | countWalk mag live =>
    simp only [hpc] at hs hown
    obtain ⟨hlock, rest, hrest, hM⟩ := hown
    cases mag with
    | some mag =>
      cases hs
      exact ⟨F, M, hbut.walk hlock hrest hM (fun _ _ _ _ hw => hw) fun _ _ => rfl⟩
    | none =>
      cases hs
      exact ⟨F, M, hbut.finish _ _⟩
  | drain =>
    simp only [hpc] at hs hfree
    cases hs
    exact hbut.drain ((hfree rfl).2 (.inl rfl))

theorem PoolInv.step {a : PoolAct} (h : PoolInv s st F M) (hs : st.step a = some st') : ∃ F' M', PoolInv s st' F' M' := by
  cases a with
  | run t ok addr => exact h.run hs
  | call t op =>
    simp only [PoolState.step] at hs
    split at hs
    · rename_i hmay
      obtain ⟨hidle, hmay⟩ := hmay
      cases hs
      have hlock : st.lock ≠ some t := by
        intro hlock
        have hwalk := h.locked t hlock
        rw [hidle] at hwalk
        cases hwalk
      refine ⟨F, M, (h.but t).arrive rfl rfl rfl rfl rfl ?_ fun hheld => absurd hheld hlock⟩
      cases op with
      | freeEntry e =>
        have hheld : (e, t) ∈ st.held := by simpa [PoolState.mayCall] using hmay
        exact hheld
      | allocEntry => trivial
      | usedCount => trivial
      | exit => trivial
    · cases hs
  | write t i word =>
    simp only [PoolState.step] at hs
    split at hs
    · rename_i hmay
      obtain ⟨hidle, hheld⟩ := hmay
      cases hs
      have hframe : Frame t st.mp (st.mp.writeEntry i word) := frame_of_mags rfl rfl rfl rfl rfl rfl rfl rfl
      have hwrite : PoolBut s t (st.withPool (st.mp.writeEntry i word)) F M := by
        refine (h.but t).change ?_ hframe rfl rfl (List.Perm.refl _) (fun _ _ _ hmem => hmem) (.inr ⟨rfl, rfl, rfl, rfl⟩)
        exact h.pool.write (mem_heldSlots hheld) word
      refine ⟨F, M, hwrite.restore ?_ ?_⟩
      · have hpcs : (st.withPool (st.mp.writeEntry i word)).pcs t = .idle := hidle
        rw [hpcs]
        trivial
      · exact h.locked t
    · cases hs
  | give t u e =>
    simp only [PoolState.step] at hs
    split at hs
    · rename_i hmay
      obtain ⟨hidle, hheld⟩ := hmay
      cases hs
      have hgive : PoolBut s t { st with held := (e, u) :: st.held.erase (e, t) } F M := by
        have hperm := perm_cons_erase hheld
        have hslots : st.heldSlots.Perm { st with held := (e, u) :: st.held.erase (e, t) }.heldSlots := by
          refine (hperm.filterMap _).trans ?_
          cases e <;> exact List.Perm.refl _
        have hdynamic : { st with held := (e, u) :: st.held.erase (e, t) }.heldDynamic.Perm st.heldDynamic := by
          refine List.Perm.trans ?_ (hperm.filterMap _).symm
          cases e <;> exact List.Perm.refl _
        refine (h.but t).change (h.pool.held_perm hslots) (Frame.refl t st.mp) rfl rfl hdynamic ?_ (.inr ⟨rfl, rfl, rfl, rfl⟩)
        intro e' v hv hmem
        exact mem_cons_of_mem _ (mem_takeBack st hv hmem)
      refine ⟨F, M, hgive.restore ?_ (h.locked t)⟩
      dsimp only
      rw [hidle]
      trivial
    · cases hs

theorem PoolInv.reached {P : PoolState → PoolAct → Prop} (h : PoolInv s st F M) (hrun : PoolState.Run P st st') :
    ∃ F' M', PoolInv s st' F' M' := by
  induction hrun with
  | refl => exact ⟨F, M, h⟩
  | step _ _ hs ih =>
    obtain ⟨F₁, M₁, hinv⟩ := ih
    exact hinv.step hs

theorem poolInv_initial {elemCount : Nat} {fallback singleThreaded keepsCache : Bool}
    (h : cmempoolCreate elemCount fallback singleThreaded keepsCache = some mp) :
    PoolInv mp.shape (PoolState.initial mp) (List.range mp.totalElemCount) [] := by
  obtain ⟨hpool, -, hdynamic, -⟩ := cmempoolCreate_ok h
  refine ⟨rfl, hpool, ?_, ?_, ?_, fun _ => trivial, nofun⟩
  · exact hdynamic ▸ List.Perm.refl _
  · exact hdynamic ▸ nodup_nil
  · intro hsome
    exact absurd hdynamic hsome

end Ccollections.Cmempool
