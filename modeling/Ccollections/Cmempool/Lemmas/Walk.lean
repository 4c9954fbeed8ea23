import Ccollections.Cmempool.Lemmas.Steps
import Ccollections.Cmempool.Lemmas.Threads

/-!
# The sum that a walk over the magazines computes

While a thread walks over the magazines with the lock, other threads only push and pop on their own magazines.
-/

namespace Ccollections.Cmempool
open Lib Function List

variable {st st' : PoolState} {mp mp' : Mempool} {F F' M M' rest : List Nat} {t u w i addr : Nat} {e : Entry} {pc : Pc} {ok : Bool}
  {s : PoolShape} {a : PoolAct}

namespace PoolState

def heldCount (st : PoolState) : Nat := st.heldSlots.length

def takesSlot (st : PoolState) (t : Nat) : Bool :=
  match st.pcs t with
  | .alloc | .allocPop => st.mp.slotsOf t ≠ []
  | _ => false

/-- A magazine that the walk of thread `w` has read got an entry, and the step takes one out of another that it has not.
-/
def overtakes (st : PoolState) (w : Nat) : PoolAct → Bool
  | .run t _ _ =>
    match st.pcs w with
    | .serveWalk _ _ => st.parked && !decide (t ∈ st.seen) && st.takesSlot t
    | _ => false
  | _ => false

end PoolState

/-! ## What other threads do during a walk -/

inductive Aside (u : Nat) (st st' : PoolState) : Prop
  | still (hslots : st'.mp.slotsOf = st.mp.slotsOf) (hheld : st'.heldCount = st.heldCount) (hparked : st'.parked = st.parked)
  | pop {i : Nat} {slots : List Nat} (hbefore : st.mp.slotsOf u = i :: slots)
      (hslots : st'.mp.slotsOf = update st.mp.slotsOf u slots) (hheld : st'.heldCount = st.heldCount + 1)
      (hparked : st'.parked = st.parked) (htakes : st.takesSlot u = true)
  | push {i : Nat} (hslots : st'.mp.slotsOf = update st.mp.slotsOf u (i :: st.mp.slotsOf u))
      (hheld : st'.heldCount + 1 = st.heldCount) (hparked : st'.parked = (st.parked || decide (u ∈ st.seen)))
      (hlinked : (st.mp.mags u).isSome = true)

structure KeptAside (u : Nat) (st st' : PoolState) : Prop where
  lock : st'.lock = st.lock
  seen : st'.seen = st.seen
  next : st'.mp.nextOf = st.mp.nextOf
  linked : ∀ v, (st'.mp.mags v).isSome = (st.mp.mags v).isSome
  live : st'.mp.liveMagazines = st.mp.liveMagazines
  pcs : ∀ v, v ≠ u → st'.pcs v = st.pcs v

theorem slotsOf_setSlots {slots : List Nat} (h : (mp.mags t).isSome = true) :
    (mp.setSlots t slots).slotsOf = update mp.slotsOf t slots := by
  funext v
  by_cases hv : v = t
  · subst hv
    rw [slotsOf_setSlots_self h, update_self]
  · rw [slotsOf_setSlots_of_ne hv, update_of_ne hv]

theorem isSome_of_slotsOf (h : mp.slotsOf t ≠ []) : (mp.mags t).isSome = true := by
  cases hmag : mp.mags t with
  | none => simp [Mempool.slotsOf, hmag] at h
  | some mag => rfl

theorem goto_aside {pc' : Pc} : Aside u st (st.goto u pc') ∧ KeptAside u st (st.goto u pc') :=
  ⟨.still rfl rfl rfl, rfl, rfl, rfl, fun _ => rfl, rfl, fun _ hv => update_of_ne hv _ _⟩

theorem allocPop_aside (hlock : st.lock ≠ some u) (hpc : st.pcs u = .alloc ∨ st.pcs u = .allocPop) (hs : st.allocPop u = some st') :
    Aside u st st' ∧ KeptAside u st st' := by
  simp only [PoolState.allocPop] at hs
  split at hs
  · cases hs
  · rename_i i slots hslots
    cases hs
    have hne : st.mp.slotsOf u ≠ [] := by
      rw [hslots]
      exact cons_ne_nil i slots
    have htakes : st.takesSlot u = true := by
      rcases hpc with hpc | hpc <;> simpa [PoolState.takesSlot, hpc] using hne
    refine ⟨.pop hslots (slotsOf_setSlots (isSome_of_slotsOf hne)) rfl rfl htakes, ?_, rfl, nextOf_setSlots, ?_, rfl, ?_⟩
    · exact if_neg hlock
    · exact isSome_setSlots
    · exact fun _ hv => update_of_ne hv _ _

theorem freePush_aside (hlock : st.lock ≠ some u) (hheld : (.slot i, u) ∈ st.held) (hlinked : (st.mp.mags u).isSome = true) :
    Aside u st (st.freePush u i) ∧ KeptAside u st (st.freePush u i) := by
  refine ⟨.push (slotsOf_setSlots hlinked) ?_ rfl hlinked, ?_, rfl, nextOf_setSlots, ?_, rfl, ?_⟩
  · exact (heldSlots_takeBack hheld).length_eq.symm
  · exact if_neg hlock
  · exact isSome_setSlots
  · exact fun _ hv => update_of_ne hv _ _

theorem freePark_aside (hlock : st.lock ≠ some u) (hheld : (.slot i, u) ∈ st.held) (hlinked : (st.mp.mags u).isSome = true) :
    Aside u st (st.freePark u i) ∧ KeptAside u st (st.freePark u i) := by
  rw [PoolState.freePark]
  split
  · exact goto_aside
  · exact freePush_aside hlock hheld hlinked

theorem fail_impossible (h : PoolInv s st F M) : st.pcs u ≠ .failed := by
  intro hpc
  have hown := h.threads u
  rw [hpc] at hown
  exact hown

theorem PoolInv.aside (h : PoolInv s st F M) (hlock : st.lock = some w) (hu : u ≠ w) (hs : st.step (.run u ok addr) = some st') :
    Aside u st st' ∧ KeptAside u st st' := by
  simp only [PoolState.step] at hs
  split at hs
  · cases hs
  rename_i hrun
  rw [Bool.not_eq_true] at hrun
  have hnot : st.lock ≠ some u := fun heq => hu (Option.some.inj (heq.symm.trans hlock))
  have hown := h.threads u
  -- The step needs no lock, and the pool has one.
  have hfree : PoolState.locks (st.pcs u) = false ∧ st.mp.shouldUseLocks = true := by
    simp only [PoolState.blocked, decide_eq_false_iff_not, not_and] at hrun
    have hneeds := hrun (by rw [hlock]; exact Option.some_ne_none w) hnot
    simpa using hneeds
  obtain ⟨hlocks, huse⟩ := hfree
  have hlinked : u ∈ M → (st.mp.mags u).isSome = true := (h.pool.magazines.linked u).mpr
  cases hpc : st.pcs u with
  | alloc =>
    simp only [hpc, PoolState.next, PoolState.allocStart, huse, Bool.not_true, Bool.false_eq_true, if_false] at hs
    split at hs
    · simp only [PoolState.allocFromCache] at hs
      split at hs
      · cases hs
        exact goto_aside
      · split at hs
        · cases hs
          exact goto_aside
        · exact allocPop_aside hnot (.inl hpc) hs
    · cases hs
      exact goto_aside
  | allocCreate =>
    simp only [hpc] at hs
    cases hs
    exact goto_aside
  | allocPop =>
    simp only [hpc] at hs
    exact allocPop_aside hnot (.inr hpc) hs
  | free e =>
    simp only [hpc] at hs hown
    cases hs
    simp only [PoolState.freeStart, huse, Bool.not_true, Bool.false_eq_true, if_false]
    split
    · cases e with
      | dynamic addr => exact goto_aside
      | slot i =>
        obtain ⟨hlt, htaken⟩ := h.pool.taken_of_held (mem_heldSlots hown)
        simp only [PoolState.freeToCache, Mempool.validMempoolAddr, hlt, htaken, decide_true, Bool.not_true, Bool.false_eq_true,
          if_false]
        split <;> exact goto_aside
    · exact goto_aside
  | freeCreate i =>
    simp only [hpc] at hs
    cases hs
    exact goto_aside
  | freePark i =>
    simp only [hpc] at hs hown
    simp only [PoolState.next] at hs
    split at hs
    · cases hs
      exact goto_aside
    · cases hs
      exact freePark_aside hnot hown.1 (hlinked hown.2)
  | freeFlushed i =>
    simp only [hpc] at hs hown
    cases hs
    exact freePark_aside hnot hown.1 (hlinked hown.2)
  | serveWalk mag live => exact absurd (hpc ▸ hown).1.1 hnot
  | countWalk mag live => exact absurd (hpc ▸ hown).1 hnot
  | idle => simp [hpc, PoolState.next] at hs
  | failed => exact absurd hpc (fail_impossible h)
  | _ =>
    rw [hpc] at hlocks
    cases hlocks

/-! ## The sum -/

/-- Before any entry came into a magazine behind the walk, its count is at most what the callers and the other magazines
hold. -/
structure WalkSum (limit : Nat) (st : PoolState) (mag : Option Nat) (live : Nat) (rest : List Nat) : Prop where
  next : Seg st.mp.nextOf mag rest none
  nodup : (st.seen.reverse ++ rest).Nodup
  all : ∀ u, (st.mp.mags u).isSome = true → u ∈ st.seen ∨ u ∈ rest
  exact : st.parked = false → live ≤ st.heldCount + (st.mp.cached rest).length
  stale : st.parked = true → live < limit + (st.mp.cached rest).length

def WalkCounts (limit w : Nat) (st : PoolState) : Prop :=
  ∀ mag live, st.pcs w = .serveWalk mag live → ∃ rest, WalkSum limit st mag live rest

theorem WalkSum.not_both {limit live : Nat} {mag : Option Nat} (h : WalkSum limit st mag live rest) (hu : u ∈ st.seen) : u ∉ rest := by
  intro hrest
  exact (nodup_append.mp h.nodup).2.2 u (mem_reverse.mpr hu) u hrest rfl

theorem length_cached_update {slots : List Nat} (hnodup : rest.Nodup) (hslots : mp'.slotsOf = update mp.slotsOf u slots) :
    (mp'.cached rest).length + (if u ∈ rest then (mp.slotsOf u).length else 0) =
      (mp.cached rest).length + (if u ∈ rest then slots.length else 0) := by
  induction rest with
  | nil => simp [Mempool.cached]
  | cons v rest ih =>
    obtain ⟨hv, hrest⟩ := nodup_cons.mp hnodup
    have hih := ih hrest
    simp only [Mempool.cached, flatMap_cons, length_append] at hih ⊢
    by_cases huv : u = v
    · subst huv
      simp only [hv, if_false, hslots, update_self, mem_cons, true_or, if_true] at hih ⊢
      omega
    · have hvu : v ≠ u := fun heq => huv heq.symm
      have hsame : mp'.slotsOf v = mp.slotsOf v := by rw [hslots, update_of_ne hvu]
      simp only [mem_cons, huv, false_or, hsame]
      omega

theorem WalkSum.aside {limit live : Nat} {mag : Option Nat} (h : WalkSum limit st mag live rest) (haside : Aside u st st')
    (hkept : KeptAside u st st') (hheld : st.heldCount < limit)
    (htakes : st.takesSlot u = true → st.parked = true → u ∈ st.seen) : WalkSum limit st' mag live rest := by
  have hrest : rest.Nodup := (nodup_append.mp h.nodup).2.1
  have hseen := hkept.seen
  refine ⟨?_, ?_, ?_, ?_, ?_⟩
  · rw [hkept.next]
    exact h.next
  · rw [hseen]
    exact h.nodup
  · intro v hv
    rw [hkept.linked v] at hv
    rw [hseen]
    exact h.all v hv
  · intro hparked
    cases haside with
    | still hslots hcount hpk =>
      rw [hpk] at hparked
      have hcached : st'.mp.cached rest = st.mp.cached rest := cached_congr fun v _ => by rw [hslots]
      rw [hcached, hcount]
      exact h.exact hparked
    | @pop i slots hbefore hslots hcount hpk hpops =>
      rw [hpk] at hparked
      have hlen := length_cached_update hrest hslots
      have hold := h.exact hparked
      rw [hbefore, length_cons] at hlen
      rw [hcount]
      split_ifs at hlen <;> omega
    | @push i hslots hcount hpk hlinked =>
      rw [hpk, Bool.or_eq_false_iff, decide_eq_false_iff_not] at hparked
      have hin : u ∈ rest := (h.all u hlinked).resolve_left hparked.2
      have hlen := length_cached_update hrest hslots
      have hold := h.exact hparked.1
      simp only [hin, if_true, length_cons] at hlen
      omega
  · intro hparked
    cases haside with
    | still hslots hcount hpk =>
      rw [hpk] at hparked
      have hcached : st'.mp.cached rest = st.mp.cached rest := cached_congr fun v _ => by rw [hslots]
      rw [hcached]
      exact h.stale hparked
    | @pop i slots hbefore hslots hcount hpk hpops =>
      rw [hpk] at hparked
      have hout : u ∉ rest := h.not_both (htakes hpops hparked)
      have hlen := length_cached_update hrest hslots
      have hold := h.stale hparked
      simp only [hout, if_false] at hlen
      omega
    | @push i hslots hcount hpk hlinked =>
      have hlen := length_cached_update hrest hslots
      rw [length_cons] at hlen
      cases hbefore : st.parked with
      | true =>
        have hold := h.stale hbefore
        split_ifs at hlen <;> omega
      | false =>
        have hold := h.exact hbefore
        split_ifs at hlen <;> omega

theorem WalkSum.read {limit live mag : Nat} (h : WalkSum limit st (some mag) live rest) (hpos : 0 < limit) :
    ∃ rest', WalkSum limit (st.walk t mag live .serveWalk) (st.mp.nextOf mag) (live - (st.mp.slotsOf mag).length) rest' := by
  cases rest with
  | nil => cases h.next
  | cons v rest =>
    obtain ⟨hv, hnext⟩ := h.next
    cases hv
    have hcached : (st.mp.cached (mag :: rest)).length = (st.mp.slotsOf mag).length + (st.mp.cached rest).length := by
      simp [Mempool.cached]
    refine ⟨rest, hnext, ?_, ?_, ?_, ?_⟩
    · have hnodup := h.nodup
      simpa [PoolState.walk] using hnodup
    · intro u hu
      rcases h.all u hu with hseen | hrest
      · exact .inl (mem_cons_of_mem mag hseen)
      · rcases mem_cons.mp hrest with rfl | hrest
        · exact .inl mem_cons_self
        · exact .inr hrest
    · intro hparked
      have hold := h.exact hparked
      rw [hcached] at hold
      change live - _ ≤ st.heldCount + (st.mp.cached rest).length
      omega
    · intro hparked
      have hold := h.stale hparked
      rw [hcached] at hold
      change live - _ < limit + (st.mp.cached rest).length
      omega

theorem PoolInv.walkSum {limit : Nat} (h : PoolInv s st F M) (hseen : st.seen = []) (hparked : st.parked = false) :
    WalkSum limit st st.mp.magazines (st.mp.totalElemCount - st.mp.freeElemCount) M := by
  refine ⟨h.pool.magazines.next, ?_, ?_, ?_, ?_⟩
  · rw [hseen]
    exact h.pool.magazines.nodup
  · intro u hu
    exact .inr ((h.pool.magazines.linked u).mp hu)
  · intro _
    have hlen := h.pool.lengths
    have hcount := h.pool.free.count
    rw [PoolState.heldCount]
    omega
  · intro hp
    rw [hparked] at hp
    cases hp

/-! ## Steps -/

section Own

variable {mag : Option Nat} {live : Nat}

def BeganWalk (st : PoolState) (mag : Option Nat) (live : Nat) : Prop :=
  mag = st.mp.magazines ∧ live = st.mp.totalElemCount - st.mp.freeElemCount ∧ st.seen = [] ∧ st.parked = false

theorem Moved.not_walk (h : Moved t st st' pc) (hpc : pc.isWalk = false) : st'.pcs t ≠ .serveWalk mag live := by
  intro hwalk
  rw [h.self] at hwalk
  rw [hwalk] at hpc
  cases hpc

theorem Did.walk_cases (h : Did t ok addr st pc st') (hpc : st'.pcs t = .serveWalk mag live) :
    (BeganWalk st' mag live ∧ st'.mp.hasCache = true) ∨ ∃ m n, pc = .serveWalk (some m) n ∧ st' = st.walk t m n .serveWalk ∧ mag = st.mp.nextOf m ∧
      live = n - (st.mp.slotsOf m).length := by
  cases h with
  | @goes _ pc' hgoes =>
    have hm : Moved t st (st.goto t pc') pc' := moved_of_update rfl
    exact absurd hpc (hm.not_walk (by cases hgoes <;> rfl))
  | serveBegin hserves hs =>
    rcases serveBegin_cases hs with ⟨-, hcache, rfl⟩ | ⟨-, hend⟩
    · dsimp only at hpc
      rw [update_self] at hpc
      cases hpc
      exact .inl ⟨⟨rfl, rfl, rfl, rfl⟩, hcache⟩
    · rcases (serveEnd_served hend).1.moved with hm | hm <;> exact absurd hpc (hm.not_walk rfl)
  | serveEnd hs => rcases (serveEnd_served hs).1.moved with hm | hm <;> exact absurd hpc (hm.not_walk rfl)
  | @walk m n =>
    have hm : Moved t st (st.walk t m n .serveWalk) (.serveWalk (st.mp.nextOf m) (n - (st.mp.slotsOf m).length)) := moved_of_update rfl
    rw [hm.self] at hpc
    cases hpc
    exact .inr ⟨m, n, rfl, rfl, rfl, rfl⟩
  | pop _ hs => exact absurd hpc ((allocPop_moved hs).not_walk rfl)
  | claimed hcall =>
    rcases hcall with ⟨-, rfl⟩ | ⟨i, -, rfl⟩
    · exact absurd hpc ((moved_of_update rfl : Moved t st _ .allocRefill).not_walk rfl)
    · exact absurd hpc ((moved_of_update rfl : Moved t st _ (.freePark i)).not_walk rfl)
  | refilled _ _ => exact absurd hpc ((moved_of_update rfl : Moved t st _ .allocPop).not_walk rfl)
  | push _ => exact absurd hpc ((moved_of_update rfl : Moved t st _ .idle).not_walk rfl)
  | body _ => rcases freeBody_moved with hm | hm <;> exact absurd hpc (hm.not_walk rfl)
  | returned => rcases freeReturn_moved with hm | hm <;> exact absurd hpc (hm.not_walk rfl)
  | @flushed i => exact absurd hpc ((moved_of_update rfl : Moved t st _ (.freeFlushed i)).not_walk rfl)
  | countBegin =>
    dsimp only at hpc
    rw [update_self] at hpc
    cases hpc
  | @countWalk m n =>
    have hm : Moved t st (st.walk t m n .countWalk) (.countWalk (st.mp.nextOf m) (n - (st.mp.slotsOf m).length)) := moved_of_update rfl
    rw [hm.self] at hpc
    cases hpc
  | countEnd => exact absurd hpc ((moved_of_update rfl : Moved t st _ .idle).not_walk rfl)
  | drained => exact absurd hpc (drain_moved.not_walk rfl)
  | failed _ => exact absurd hpc ((moved_of_update rfl : Moved t st _ .failed).not_walk rfl)

end Own

theorem run_did (hs : st.step (.run t ok addr) = some st') : st.blocked t = false ∧ Did t ok addr st (st.pcs t) st' := by
  simp only [PoolState.step] at hs
  split at hs
  · cases hs
  · rename_i hrun
    exact ⟨by simpa using hrun, next_did hs⟩

theorem heldCount_give (hheld : (e, t) ∈ st.held) : PoolState.heldCount { st with held := (e, u) :: st.held.erase (e, t) } = st.heldCount := by
  have hperm : st.heldSlots.Perm (PoolState.heldSlots { st with held := (e, t) :: st.held.erase (e, t) }) :=
    (perm_cons_erase hheld).filterMap _
  have hlen := hperm.length_eq
  cases e <;> exact hlen.symm

theorem WalkCounts.step {limit : Nat} (h : PoolInv s st F M) (hcounts : WalkCounts limit w st) (hheld : st.heldCount < limit)
    (hovertakes : st.overtakes w a = false) (hs : st.step a = some st') : WalkCounts limit w st' := by
  obtain ⟨F', M', hinv'⟩ := h.step hs
  intro mag live hpc
  have haside : ∀ u, st.lock = some w → st.pcs w = .serveWalk mag live → Aside u st st' → KeptAside u st st' →
      (st.takesSlot u = true → st.parked = true → u ∈ st.seen) → ∃ rest, WalkSum limit st' mag live rest := by
    intro u _ hwalk haside hkept htakes
    obtain ⟨rest, hsum⟩ := hcounts mag live hwalk
    exact ⟨rest, hsum.aside haside hkept hheld htakes⟩
  have hwalker : st.pcs w = .serveWalk mag live → st.lock = some w := by
    intro hwalk
    have hown := h.threads w
    rw [hwalk] at hown
    exact hown.1.1
  cases a with
  | run u ok addr =>
    by_cases hu : u = w
    · subst hu
      rcases (run_did hs).2.walk_cases hpc with ⟨⟨rfl, rfl, hseen, hparked⟩, -⟩ | ⟨m, n, hbefore, rfl, rfl, rfl⟩
      · exact ⟨M', hinv'.walkSum hseen hparked⟩
      · obtain ⟨rest, hsum⟩ := hcounts (some m) n hbefore
        exact hsum.read (Nat.zero_lt_of_lt hheld)
    · -- The thread that walks holds the lock, so this one only pushes or pops.
      obtain ⟨pc', hmoved⟩ := (run_did hs).2.moved
      rw [hmoved.other w (Ne.symm hu)] at hpc
      have hlock := hwalker hpc
      obtain ⟨hdid, hkept⟩ := h.aside hlock hu hs
      refine haside u hlock hpc hdid hkept ?_
      intro htakes hparked
      simp only [PoolState.overtakes, hpc, hparked, htakes] at hovertakes
      simpa using hovertakes
  | call u op =>
    simp only [PoolState.step] at hs
    split at hs
    · rename_i hmay
      cases hs
      have hu : w ≠ u := by
        rintro rfl
        dsimp only at hpc
        rw [update_self] at hpc
        cases op <;> cases hpc
      dsimp only at hpc
      rw [update_of_ne hu] at hpc
      refine haside u (hwalker hpc) hpc (.still rfl rfl rfl) ⟨rfl, rfl, rfl, fun _ => rfl, rfl, fun _ hv => update_of_ne hv _ _⟩ ?_
      intro htakes
      simp [PoolState.takesSlot, hmay.1] at htakes
    · cases hs
  | write u i word =>
    simp only [PoolState.step] at hs
    split at hs
    · rename_i hmay
      cases hs
      refine haside u (hwalker hpc) hpc (.still rfl rfl rfl) ⟨rfl, rfl, rfl, fun _ => rfl, rfl, fun _ _ => rfl⟩ ?_
      intro htakes
      simp [PoolState.takesSlot, hmay.1] at htakes
    · cases hs
  | give u v e =>
    simp only [PoolState.step] at hs
    split at hs
    · rename_i hmay
      cases hs
      refine haside u (hwalker hpc) hpc (.still rfl (heldCount_give hmay.2) rfl) ⟨rfl, rfl, rfl, fun _ => rfl, rfl, fun _ _ => rfl⟩ ?_
      intro htakes
      simp [PoolState.takesSlot, hmay.1] at htakes
    · cases hs

/-! ## The end of an allocation -/

theorem MempoolOk.freeInst_ne {H : List Nat} (h : MempoolOk mp F M H) (hheld : H.length < mp.advertisedElemCount) : mp.freeInst ≠ none := by
  rw [h.free.head_eq]
  cases F with
  | nil =>
    have hlen := h.lengths
    have hle := h.magazines.cached_le
    have hreserve := h.reserve
    simp only [length_nil] at hlen
    omega
  | cons i F => exact Option.some_ne_none i

theorem MempoolOk.serveFreeInst {H : List Nat} (h : MempoolOk mp F M H) (hinst : mp.freeInst ≠ none) :
    ∃ mp' i, mp.serveFreeInst = some (mp', i) := by
  cases F with
  | nil => exact absurd h.free.head_eq hinst
  | cons i F =>
    refine ⟨(mp.dropFreeInst i).setTaken i true, i, ?_⟩
    simp [Mempool.serveFreeInst, h.free.head_eq, h.serve.1]

theorem PoolInv.serves {st₁ : PoolState} (h : PoolInv s st F M) (hserves : Serves t st (st.pcs t) st₁) :
    (∃ F₁, MempoolOk st₁.mp F₁ M st.heldSlots) ∧ st₁.history = st.history ∧ st₁.mp.shape = s ∧ st₁.held = st.held := by
  have hown := h.threads t
  generalize st.pcs t = pc at hserves hown
  cases hserves with
  | alloc _ => exact ⟨⟨F, h.pool⟩, rfl, h.shape, rfl⟩
  | ask => exact ⟨⟨F, h.pool⟩, rfl, h.shape, rfl⟩
  | locked => exact ⟨⟨F, h.pool⟩, rfl, h.shape, rfl⟩
  | refill hrefill _ =>
    obtain ⟨mp', F', hspec, hpool, hframe, -⟩ := magazineRefillLocked_spec h.pool hown
    rw [hspec] at hrefill
    cases hrefill
    exact ⟨⟨F', hpool⟩, rfl, hframe.shape.trans h.shape, rfl⟩

theorem append_singleton_ne {α : Type} (l : List α) (x : α) : l ≠ l ++ [x] := by
  intro h
  simpa using congrArg List.length h

theorem returned_inj {l : List PoolEvent} {op op' : PoolOp} {r r' : PoolResult}
    (h : l ++ [.returned t op r] = l ++ [.returned t op' r']) : op = op' ∧ r = r' := by
  simpa using h

theorem WalkCounts.live_lt {limit live : Nat} (hcounts : WalkCounts limit t st) (hpc : st.pcs t = .serveWalk none live)
    (hheld : st.heldCount < limit) : live < limit := by
  obtain ⟨rest, hsum⟩ := hcounts none live hpc
  cases rest with
  | cons a rest => cases hsum.next.1
  | nil =>
    cases hparked : st.parked with
    | true =>
      have hstale := hsum.stale hparked
      simpa [Mempool.cached] using hstale
    | false =>
      have hexact := hsum.exact hparked
      simp only [Mempool.cached, flatMap_nil, length_nil, Nat.add_zero] at hexact
      omega

theorem PoolInv.alloc_returns {r : PoolResult} (h : PoolInv s st F M) (hcounts : WalkCounts s.advertised t st)
    (hheld : st.heldCount < s.advertised) (hdid : Did t ok addr st (st.pcs t) st')
    (hret : st'.history = st.history ++ [.returned t .allocEntry r]) : ∃ e, r = .entry (some e) := by
  have hserved : ∀ {st₁ : PoolState} {F₁ : List Nat} {canServe : Bool}, MempoolOk st₁.mp F₁ M st.heldSlots → st₁.history = st.history →
      st₁.mp.freeInst ≠ none → canServe = true → st₁.serveEnd t canServe ok addr = some st' → ∃ e, r = .entry (some e) := by
    intro st₁ F₁ canServe hpool hhist hinst hcan hs
    obtain ⟨mp', i, hserve⟩ := hpool.serveFreeInst hinst
    rw [(serveEnd_served hs).2 hcan mp' i hserve] at hret
    simp only [PoolState.finish, PoolState.handOut, PoolState.withPool, hhist] at hret
    exact ⟨.slot i, (returned_inj hret).2.symm⟩
  generalize hpc : st.pcs t = pc at hdid
  cases hdid with
  | goes _ => exact absurd hret (append_singleton_ne _ _)
  | serveBegin hserves hs =>
    rw [← hpc] at hserves
    obtain ⟨⟨F₁, hpool⟩, hhist, hshape, -⟩ := h.serves hserves
    have hlt : st.heldSlots.length < s.advertised := hheld
    rw [← hshape] at hlt
    have hinst := hpool.freeInst_ne hlt
    rcases serveBegin_cases hs with ⟨-, -, rfl⟩ | ⟨-, hend⟩
    · exact absurd (hhist.symm.trans hret) (append_singleton_ne _ _)
    · exact hserved hpool hhist hinst (by simpa using hinst) hend
  | @serveEnd live _ hs =>
    have hown := h.threads t
    rw [hpc] at hown
    have hlive := hcounts.live_lt hpc hheld
    have hadv : st.mp.advertisedElemCount = s.advertised := congrArg PoolShape.advertised h.shape
    exact hserved h.pool rfl hown.2 (by simpa [hadv] using hlive) hs
  | walk => exact absurd hret (append_singleton_ne _ _)
  | pop _ hs =>
    simp only [PoolState.allocPop] at hs
    split at hs
    · cases hs
    · rename_i i slots _
      cases hs
      exact ⟨.slot i, (returned_inj hret).2.symm⟩
  | claimed _ => exact absurd hret (append_singleton_ne _ _)
  | refilled _ _ => exact absurd hret (append_singleton_ne _ _)
  | push _ => cases (returned_inj hret).1
  | body _ =>
    rcases freeBody_history with hsame | hev
    · exact absurd (hsame.symm.trans hret) (append_singleton_ne _ _)
    · cases (returned_inj (hev.symm.trans hret)).1
  | returned =>
    rcases freeReturn_history with hsame | hev
    · exact absurd (hsame.symm.trans hret) (append_singleton_ne _ _)
    · cases (returned_inj (hev.symm.trans hret)).1
  | flushed => exact absurd hret (append_singleton_ne _ _)
  | countBegin => exact absurd hret (append_singleton_ne _ _)
  | countWalk => exact absurd hret (append_singleton_ne _ _)
  | countEnd => cases (returned_inj hret).1
  | drained =>
    simp only [PoolState.drain] at hret
    split at hret <;> cases (returned_inj hret).1
  | failed _ => exact absurd hret (append_singleton_ne _ _)

/-! ## An allocation comes to its end -/

def Pc.stages : Pc → Nat
  | .alloc => 7
  | .allocAsk => 6
  | .allocCreate => 5
  | .allocClaim => 4
  | .allocRefill => 3
  | .allocLocked => 2
  | .allocPop => 1
  | _ => 0

def PoolState.allocSteps (st : PoolState) (t : Nat) : Nat :=
  match st.pcs t with
  | .serveWalk _ _ => 1 + (st.mp.liveMagazines - st.seen.length)
  | pc => pc.stages * (st.mp.maxMagazines + 2)

theorem allocSteps_of_pc (hpc : st.pcs t = pc) (hwalk : pc.isWalk = false) : st.allocSteps t = pc.stages * (st.mp.maxMagazines + 2) := by
  subst hpc
  rw [PoolState.allocSteps]
  split
  · rename_i hp
    rw [hp] at hwalk
    cases hwalk
  · rfl

theorem allocSteps_of_walk {mag : Option Nat} {live : Nat} (hpc : st.pcs t = .serveWalk mag live) :
    st.allocSteps t = 1 + (st.mp.liveMagazines - st.seen.length) := by
  rw [PoolState.allocSteps, hpc]

theorem serveEnd_some {canServe : Bool} (haddr : addr ∉ st.mp.dynamicEntries) : ∃ st', st.serveEnd t canServe ok addr = some st' := by
  rw [PoolState.serveEnd]
  split
  · split <;> exact ⟨_, rfl⟩
  · split
    · exact ⟨_, rfl⟩
    · exact ⟨_, rfl⟩

theorem serveBegin_some (haddr : addr ∉ st.mp.dynamicEntries) : ∃ st', st.serveBegin t ok addr = some st' := by
  simp only [PoolState.serveBegin]
  split
  · exact ⟨_, rfl⟩
  · exact serveEnd_some haddr

theorem allocPop_some (hslots : st.mp.slotsOf t ≠ []) : ∃ st', st.allocPop t = some st' := by
  rw [PoolState.allocPop]
  split
  · rename_i hnil
    exact absurd hnil hslots
  · exact ⟨_, rfl⟩

theorem PoolInv.alloc_next (h : PoolInv s st F M) (ok : Bool) (hpc : 0 < st.allocSteps t) (haddr : addr ∉ st.mp.dynamicEntries) :
    ∃ st', st.next t ok addr (st.pcs t) = some st' := by
  have hown := h.threads t
  cases hp : st.pcs t with
  | alloc =>
    simp only [PoolState.next, PoolState.allocStart]
    split
    · exact serveBegin_some haddr
    · split
      · simp only [PoolState.allocFromCache]
        split
        · exact ⟨_, rfl⟩
        · rename_i mag hmag
          split
          · exact ⟨_, rfl⟩
          · rename_i hslots
            exact allocPop_some (by simpa [Mempool.slotsOf, hmag] using hslots)
      · exact ⟨_, rfl⟩
  | allocAsk =>
    simp only [PoolState.next, PoolState.allocAsk]
    split
    · exact ⟨_, rfl⟩
    · exact serveBegin_some haddr
  | allocCreate => exact ⟨_, rfl⟩
  | allocClaim =>
    simp only [PoolState.next, PoolState.allocClaim]
    split <;> exact ⟨_, rfl⟩
  | allocRefill =>
    rw [hp] at hown
    obtain ⟨mp', F', hrefill, hpool, hframe, -⟩ := magazineRefillLocked_spec h.pool hown
    simp only [PoolState.next, PoolState.allocRefill, hrefill]
    split
    · exact ⟨_, rfl⟩
    · exact serveBegin_some (hframe.dynamic ▸ haddr)
  | allocPop =>
    rw [hp] at hown
    exact allocPop_some hown.2
  | allocLocked => exact serveBegin_some haddr
  | serveWalk mag live =>
    cases mag with
    | some mag => exact ⟨_, rfl⟩
    | none => exact serveEnd_some haddr
  | countWalk mag live =>
    rw [PoolState.allocSteps, hp] at hpc
    simp [Pc.stages] at hpc
  | _ =>
    rw [allocSteps_of_pc hp rfl] at hpc
    simp [Pc.stages] at hpc

theorem PoolInv.allocSteps_lt (h : PoolInv s st F M) (hpos : 0 < st.allocSteps t) (hs : st.step (.run t ok addr) = some st') :
    st'.allocSteps t < st.allocSteps t := by
  obtain ⟨F', M', hinv'⟩ := h.step hs
  have hmax : st'.mp.maxMagazines = st.mp.maxMagazines := congrArg PoolShape.maxMagazines (hinv'.shape.trans h.shape.symm)
  have hlive : st'.mp.liveMagazines ≤ st.mp.maxMagazines := by
    rw [hinv'.pool.magazines.live, ← hmax]
    exact hinv'.pool.magazines.limit
  have hdid := (run_did hs).2
  have hown := h.threads t
  generalize hpc : st.pcs t = pc at hdid hown
  -- A thread that leaves its call has no steps left.
  have hdone : ∀ pc', Moved t st st' pc' → pc' = .idle ∨ pc' = .failed → st'.allocSteps t < st.allocSteps t := by
    rintro pc' hm (rfl | rfl)
    · rw [allocSteps_of_pc hm.self rfl]
      simpa [Pc.stages] using hpos
    · rw [allocSteps_of_pc hm.self rfl]
      simpa [Pc.stages] using hpos
  have hstage : ∀ pc', st'.pcs t = pc' → pc'.isWalk = false → pc.isWalk = false → pc'.stages < pc.stages →
      st'.allocSteps t < st.allocSteps t := by
    intro pc' hpc' hw' hw hlt
    rw [allocSteps_of_pc hpc' hw', allocSteps_of_pc hpc hw, hmax]
    exact Nat.mul_lt_mul_of_pos_right hlt (by omega)
  have hnone : pc.stages = 0 → pc.isWalk = false → st'.allocSteps t < st.allocSteps t := by
    intro hzero hw
    rw [allocSteps_of_pc hpc hw, hzero] at hpos
    simp at hpos
  cases hdid with
  | @goes _ pc' hgoes =>
    have hm : Moved t st (st.goto t pc') pc' := moved_of_update rfl
    cases hgoes with
    | ask => exact hstage _ hm.self rfl rfl (by decide)
    | refill _ => exact hstage _ hm.self rfl rfl (by decide)
    | noCache => exact hstage _ hm.self rfl rfl (by decide)
    | create => exact hstage _ hm.self rfl rfl (by decide)
    | claim => exact hstage _ hm.self rfl rfl (by decide)
    | notCreated => exact hstage _ hm.self rfl rfl (by decide)
    | notClaimed => exact hstage _ hm.self rfl rfl (by decide)
    | _ => exact hnone rfl rfl
  | serveBegin hserves hb =>
    have hstages : pc.isWalk = false ∧ 2 ≤ pc.stages := by cases hserves <;> exact ⟨rfl, by decide⟩
    rcases serveBegin_moved hb with hm | hm | hm
    · rw [allocSteps_of_walk hm.self, allocSteps_of_pc hpc hstages.1]
      have hle : 2 * (st.mp.maxMagazines + 2) ≤ pc.stages * (st.mp.maxMagazines + 2) := Nat.mul_le_mul_right _ hstages.2
      omega
    · exact hdone _ ⟨hm.self, fun u hu => (hm.other u hu).trans (by rw [hserves.pcs])⟩ (.inl rfl)
    · exact hdone _ ⟨hm.self, fun u hu => (hm.other u hu).trans (by rw [hserves.pcs])⟩ (.inr rfl)
  | serveEnd he =>
    rcases (serveEnd_served he).1.moved with hm | hm
    · exact hdone _ hm (.inl rfl)
    · exact hdone _ hm (.inr rfl)
  | @walk mag live =>
    have hm : Moved t st (st.walk t mag live .serveWalk) (.serveWalk (st.mp.nextOf mag) (live - (st.mp.slotsOf mag).length)) :=
      moved_of_update rfl
    obtain ⟨⟨-, rest, hrest, hM⟩, -⟩ := hown
    have hlen : st.seen.length < st.mp.liveMagazines := by
      rw [h.pool.magazines.live, hM]
      cases rest with
      | nil => cases hrest
      | cons a rest => simp
    rw [allocSteps_of_walk hm.self, allocSteps_of_walk hpc]
    simp only [PoolState.walk, length_cons]
    omega
  | pop _ hp => exact hdone _ (allocPop_moved hp) (.inl rfl)
  | claimed hcall =>
    rcases hcall with ⟨rfl, rfl⟩ | ⟨i, rfl, rfl⟩
    · exact hstage _ ((moved_of_update rfl : Moved t st _ .allocRefill).self) rfl rfl (by decide)
    · exact hnone rfl rfl
  | refilled _ _ => exact hstage _ ((moved_of_update rfl : Moved t st _ .allocPop).self) rfl rfl (by decide)
  | push hcall => rcases hcall with rfl | rfl <;> exact hnone rfl rfl
  | body hcall => rcases hcall with rfl | rfl <;> exact hnone rfl rfl
  | failed hcall =>
    rcases hcall with rfl | ⟨e, rfl⟩
    · exact hdone _ (moved_of_update rfl) (.inr rfl)
    · exact hnone rfl rfl
  | countWalk =>
    rw [PoolState.allocSteps, hpc] at hpos
    simp [Pc.stages] at hpos
  | countEnd =>
    rw [PoolState.allocSteps, hpc] at hpos
    simp [Pc.stages] at hpos
  | _ => exact hnone rfl rfl

theorem PoolInv.allocSteps_other (h : PoolInv s st F M) (hpos : 0 < st.allocSteps t) (hs : st.step a = some st')
    (hother : ∀ ok addr, a ≠ .run t ok addr) : st'.allocSteps t = st.allocSteps t := by
  obtain ⟨F', M', hinv'⟩ := h.step hs
  have hmax : st'.mp.maxMagazines = st.mp.maxMagazines := congrArg PoolShape.maxMagazines (hinv'.shape.trans h.shape.symm)
  have hbusy : st.pcs t ≠ .idle := by
    intro hidle
    rw [allocSteps_of_pc hidle rfl] at hpos
    simp [Pc.stages] at hpos
  have hkept : st'.pcs t = st.pcs t →
      (∀ mag live, st.pcs t = .serveWalk mag live → st'.mp.liveMagazines = st.mp.liveMagazines ∧ st'.seen = st.seen) →
      st'.allocSteps t = st.allocSteps t := by
    intro hpcs hwalk
    cases hw : (st.pcs t).isWalk with
    | false => rw [allocSteps_of_pc hpcs hw, allocSteps_of_pc rfl hw, hmax]
    | true =>
      cases hp : st.pcs t with
      | serveWalk mag live =>
        obtain ⟨hlive, hseen⟩ := hwalk mag live hp
        rw [allocSteps_of_walk (hpcs.trans hp), allocSteps_of_walk hp, hlive, hseen]
      | countWalk mag live => rw [PoolState.allocSteps, PoolState.allocSteps, hpcs, hp, hmax]
      | _ =>
        rw [hp] at hw
        cases hw
  cases a with
  | run u ok addr =>
    have hu : t ≠ u := by
      rintro rfl
      exact hother ok addr rfl
    obtain ⟨pc', hm⟩ := (run_did hs).2.moved
    refine hkept (hm.other t hu) fun mag live hp => ?_
    have hown := h.threads t
    rw [hp] at hown
    obtain ⟨-, hk⟩ := h.aside hown.1.1 (Ne.symm hu) hs
    exact ⟨hk.live, hk.seen⟩
  | call u op =>
    simp only [PoolState.step] at hs
    split at hs
    · rename_i hmay
      cases hs
      have hu : t ≠ u := by
        rintro rfl
        exact hbusy hmay.1
      exact hkept (update_of_ne hu _ _) fun _ _ _ => ⟨rfl, rfl⟩
    · cases hs
  | write u i word =>
    simp only [PoolState.step] at hs
    split at hs
    · cases hs
      exact hkept rfl fun _ _ _ => ⟨rfl, rfl⟩
    · cases hs
  | give u v e =>
    simp only [PoolState.step] at hs
    split at hs
    · cases hs
      exact hkept rfl fun _ _ _ => ⟨rfl, rfl⟩
    · cases hs

end Ccollections.Cmempool
