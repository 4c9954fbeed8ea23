import Ccollections.Cmempool.Lemmas.Walk

/-!
# Calls that do not overlap

While one thread is in a call and the others are outside, a walk counts exactly what the callers hold.
-/

namespace Ccollections.Cmempool
open Lib

variable {st st' : PoolState} {mp mp' : Mempool} {F F' M M' rest : List Nat} {t u w i addr : Nat} {e : Entry} {pc : Pc} {ok : Bool}
  {s : PoolShape} {a : PoolAct}

def Alone (st : PoolState) (a : PoolAct) : Prop := ∀ t op, a = .call t op → ∀ u, st.pcs u = .idle

/-- An allocation of a thread with an entry in its magazine begins only when callers hold less than the limit. -/
def PopsBelow (limit : Nat) (st : PoolState) (a : PoolAct) : Prop :=
  ∀ t, a = .call t .allocEntry → st.mp.slotsOf t ≠ [] → st.heldCount < limit

def ExactSum (st : PoolState) (mag : Option Nat) (live : Nat) : Prop :=
  ∃ rest, Seg st.mp.nextOf mag rest none ∧ live = st.heldCount + (st.mp.cached rest).length

def SeqThread (limit : Nat) (st : PoolState) (t : Nat) : Pc → Prop
  | .alloc => st.mp.slotsOf t ≠ [] → st.heldCount < limit
  | .allocRefill => st.mp.slotsOf t = []
  | .allocPop => st.heldCount < limit
  | .serveWalk mag live | .countWalk mag live => ExactSum st mag live
  | _ => True

structure SeqInv (limit : Nat) (st : PoolState) : Prop where
  alone : ∃ t, ∀ u, u ≠ t → st.pcs u = .idle
  held : st.heldCount ≤ limit
  threads : ∀ t, SeqThread limit st t (st.pcs t)

theorem PoolInv.exactSum (h : PoolInv s st F M) : ExactSum st st.mp.magazines (st.mp.totalElemCount - st.mp.freeElemCount) := by
  refine ⟨M, h.pool.magazines.next, ?_⟩
  have hlen := h.pool.lengths
  have hcount := h.pool.free.count
  rw [PoolState.heldCount]
  omega

theorem ExactSum.read {mag live : Nat} {resume : Option Nat → Nat → Pc} (h : ExactSum st (some mag) live) :
    ExactSum (st.walk t mag live resume) (st.mp.nextOf mag) (live - (st.mp.slotsOf mag).length) := by
  obtain ⟨rest, hseg, hlive⟩ := h
  cases rest with
  | nil => cases hseg
  | cons v rest =>
    obtain ⟨hv, hnext⟩ := hseg
    cases hv
    refine ⟨rest, hnext, ?_⟩
    have hcached : (st.mp.cached (mag :: rest)).length = (st.mp.slotsOf mag).length + (st.mp.cached rest).length := by
      simp [Mempool.cached]
    change live - _ = st.heldCount + (st.mp.cached rest).length
    omega

theorem ExactSum.end_eq {live : Nat} (h : ExactSum st none live) : live = st.heldCount := by
  obtain ⟨rest, hseg, hlive⟩ := h
  cases rest with
  | nil => simpa [Mempool.cached] using hlive
  | cons v rest => cases hseg.1

theorem heldCount_takeBack_le (st : PoolState) (t : Nat) (e : Entry) : (st.takeBack t e).heldCount ≤ st.heldCount :=
  (List.erase_sublist.filterMap _).length_le

/-! ## What a step does to the number of slots that callers hold -/

theorem freeReturn_heldCount : (st.freeReturn t i).heldCount ≤ st.heldCount := by
  rw [PoolState.freeReturn]
  split
  · exact Nat.le_refl _
  · exact heldCount_takeBack_le st t (.slot i)

theorem freeBody_heldCount : (st.freeBody t e).heldCount ≤ st.heldCount := by
  cases e with
  | slot i =>
    simp only [PoolState.freeBody]
    split
    · exact freeReturn_heldCount
    · exact Nat.le_refl _
  | dynamic addr =>
    simp only [PoolState.freeBody]
    split
    · exact Nat.le_refl _
    · split
      · exact heldCount_takeBack_le st t (.dynamic addr)
      · exact Nat.le_refl _

theorem drain_heldCount : (st.drain t).heldCount = st.heldCount := by
  rw [PoolState.drain]
  split <;> rfl

theorem Served.heldCount_le {limit : Nat} (h : Served t st st') (hle : st.heldCount ≤ limit)
    (hslot : ∀ mp i, st' = ((st.withPool mp).handOut t (.slot i)).finish t .allocEntry (.entry (some (.slot i))) → st.heldCount < limit) :
    st'.heldCount ≤ limit := by
  cases h with
  | @slot mp i hserve => exact hslot mp i rfl
  | corrupt _ => exact hle
  | dynamic => exact hle
  | refused => exact hle

theorem MempoolOk.held_lt_of_noCache {H : List Nat} (h : MempoolOk mp F M H) (hinst : mp.freeInst ≠ none) (hcache : mp.hasCache = false) :
    H.length < mp.advertisedElemCount := by
  have hmax : mp.maxMagazines = 0 := by simpa [Mempool.hasCache] using hcache
  have hlen := h.lengths
  have hreserve := h.reserve
  rw [hmax, Nat.zero_mul] at hreserve
  cases F with
  | nil => exact absurd h.free.head_eq hinst
  | cons i F =>
    rw [List.length_cons] at hlen
    omega

theorem MempoolOk.held_lt_of_cached {H : List Nat} (h : MempoolOk mp F M H) (ht : t ∈ M) (hslots : mp.slotsOf t ≠ [])
    (hroom : mp.totalElemCount ≤ F.length + mp.advertisedElemCount) : H.length < mp.advertisedElemCount := by
  have hlen := h.lengths
  have hperm := (cached_perm mp ht).length_eq
  have hpos := List.length_pos_of_ne_nil hslots
  rw [List.length_append] at hperm
  omega

/-! ## Steps -/

theorem SeqInv.settle {limit : Nat} (hidle : ∀ u, u ≠ t → st.pcs u = .idle) (hm : Moved t st st' pc) (hheld : st'.heldCount ≤ limit)
    (hpc : SeqThread limit st' t pc) : SeqInv limit st' := by
  have hothers : ∀ u, u ≠ t → st'.pcs u = .idle := fun u hu => (hm.other u hu).trans (hidle u hu)
  refine ⟨⟨t, hothers⟩, hheld, ?_⟩
  intro u
  by_cases hu : u = t
  · rw [hu, hm.self]
    exact hpc
  · rw [hothers u hu]
    trivial

theorem Serves.heldCount {st₁ : PoolState} (h : Serves t st pc st₁) : st₁.heldCount = st.heldCount := by
  cases h <;> rfl

theorem SeqInv.run (h : PoolInv s st F M) (hseq : SeqInv s.advertised st) (hs : st.step (.run t ok addr) = some st') :
    SeqInv s.advertised st' := by
  obtain ⟨F', M', hinv'⟩ := h.step hs
  have hdid := (run_did hs).2
  have hadv : st.mp.advertisedElemCount = s.advertised := congrArg PoolShape.advertised h.shape
  have hheld := hseq.held
  -- The thread that runs is the one in the call.
  have hidle : ∀ u, u ≠ t → st.pcs u = .idle := by
    obtain ⟨t₀, hothers⟩ := hseq.alone
    have ht : t = t₀ := by
      by_contra hne
      rw [hothers t hne] at hdid
      exact hdid.not_idle
    rw [ht]
    exact hothers
  have hthread := hseq.threads t
  have hown := h.threads t
  generalize hpc : st.pcs t = pc at hdid hthread hown
  have hfailed : st'.pcs t ≠ .failed := fail_impossible hinv'
  cases hdid with
  | @goes _ pc' hgoes =>
    refine SeqInv.settle hidle (moved_of_update rfl) hheld ?_
    cases hgoes with
    | refill hslots => exact hslots
    | _ => trivial
  | @serveBegin _ st₁ _ hserves hb =>
    have hcount : st₁.heldCount = st.heldCount := hserves.heldCount
    rw [← hpc] at hserves
    obtain ⟨⟨F₁, hpool⟩, -, hshape, -⟩ := h.serves hserves
    have hidle₁ : ∀ u, u ≠ t → st₁.pcs u = .idle := by
      rw [hserves.pcs]
      exact hidle
    rcases serveBegin_cases hb with ⟨-, -, rfl⟩ | ⟨hcache, hend⟩
    · exact SeqInv.settle hidle₁ (moved_of_update rfl) (hcount ▸ hheld) hinv'.exactSum
    · have hle : st'.heldCount ≤ s.advertised := by
        refine (serveEnd_served hend).1.heldCount_le (hcount ▸ hheld) fun mp i hst => ?_
        -- Without a cache the free list has only what callers do not hold.
        have hadv₁ : st₁.mp.advertisedElemCount = s.advertised := congrArg PoolShape.advertised hshape
        have hinst : st₁.mp.freeInst ≠ none := by
          intro hnone
          have hserve := serveEnd_refused (by simp [hnone]) hend
          rw [hst] at hserve
          exact hserve mp i rfl
        rw [hcount, PoolState.heldCount, ← hadv₁]
        exact hpool.held_lt_of_noCache hinst (hcache hinst)
      rcases (serveEnd_served hend).1.moved with hm | hm
      · exact SeqInv.settle hidle₁ hm hle trivial
      · exact absurd hm.self hfailed
  | @serveEnd live _ he =>
    have hlive : live = st.heldCount := ExactSum.end_eq hthread
    have hle : st'.heldCount ≤ s.advertised := by
      refine (serveEnd_served he).1.heldCount_le hheld fun mp i hst => ?_
      by_contra hnot
      have hserve := serveEnd_refused (by simpa [hadv, hlive] using hnot) he
      rw [hst] at hserve
      exact hserve mp i rfl
    rcases (serveEnd_served he).1.moved with hm | hm
    · exact SeqInv.settle hidle hm hle trivial
    · exact absurd hm.self hfailed
  | walk => exact SeqInv.settle hidle (moved_of_update rfl) hheld (ExactSum.read hthread)
  | pop hcall hp =>
    have hlt : st.heldCount < s.advertised := by
      rcases hcall with rfl | rfl
      · refine hthread fun hnil => ?_
        simp [PoolState.allocPop, hnil] at hp
      · exact hthread
    have hm := allocPop_moved hp
    simp only [PoolState.allocPop] at hp
    split at hp
    · cases hp
    · cases hp
      exact SeqInv.settle hidle hm hlt trivial
  | claimed hcall =>
    rcases hcall with ⟨rfl, rfl⟩ | ⟨i, rfl, rfl⟩
    · exact SeqInv.settle hidle (moved_of_update rfl) hheld (slotsOf_some linkMagazine_mags_self)
    · exact SeqInv.settle hidle (moved_of_update rfl) hheld trivial
  | @refilled mp' hrefill hslots =>
    obtain ⟨mp₁, F₁, hspec, hpool, hframe, hroom⟩ := magazineRefillLocked_spec h.pool hown
    rw [hspec] at hrefill
    cases hrefill
    refine SeqInv.settle hidle (moved_of_update rfl) hheld ?_
    rcases hroom with rfl | hroom
    · exact absurd hthread hslots
    · have hlt := hpool.held_lt_of_cached hown hslots (by rw [hframe.total, hframe.advertised]; exact hroom)
      rw [hframe.advertised, hadv] at hlt
      exact hlt
  | push _ => exact SeqInv.settle hidle (moved_of_update rfl) ((heldCount_takeBack_le st t _).trans hheld) trivial
  | body _ =>
    rcases freeBody_moved with hm | hm
    · exact SeqInv.settle hidle hm (freeBody_heldCount.trans hheld) trivial
    · exact absurd hm.self hfailed
  | returned =>
    rcases freeReturn_moved with hm | hm
    · exact SeqInv.settle hidle hm (freeReturn_heldCount.trans hheld) trivial
    · exact absurd hm.self hfailed
  | flushed => exact SeqInv.settle hidle (moved_of_update rfl) hheld trivial
  | countBegin => exact SeqInv.settle hidle (moved_of_update rfl) hheld hinv'.exactSum
  | countWalk => exact SeqInv.settle hidle (moved_of_update rfl) hheld (ExactSum.read hthread)
  | countEnd => exact SeqInv.settle hidle (moved_of_update rfl) hheld trivial
  | drained => exact SeqInv.settle hidle drain_moved (drain_heldCount.trans_le hheld) trivial
  | failed _ => exact absurd (moved_of_update rfl : Moved t st _ .failed).self hfailed

theorem SeqThread.kept {limit : Nat} (h : SeqThread limit st t pc) (hslots : st'.mp.slotsOf = st.mp.slotsOf)
    (hnext : st'.mp.nextOf = st.mp.nextOf) (hcount : st'.heldCount = st.heldCount) : SeqThread limit st' t pc := by
  have hsum : ∀ mag live, ExactSum st mag live → ExactSum st' mag live := by
    rintro mag live ⟨rest, hseg, hlive⟩
    have hcached : st'.mp.cached rest = st.mp.cached rest := cached_congr fun u _ => by rw [hslots]
    exact ⟨rest, hnext ▸ hseg, by rw [hcount, hcached]; exact hlive⟩
  cases pc with
  | alloc =>
    simp only [SeqThread, hslots, hcount]
    exact h
  | allocRefill =>
    simp only [SeqThread, hslots]
    exact h
  | allocPop =>
    simp only [SeqThread, hcount]
    exact h
  | serveWalk mag live => exact hsum mag live h
  | countWalk mag live => exact hsum mag live h
  | _ => trivial

theorem SeqInv.step (h : PoolInv s st F M) (hseq : SeqInv s.advertised st) (halone : Alone st a) (hpops : PopsBelow s.advertised st a)
    (hs : st.step a = some st') : SeqInv s.advertised st' := by
  cases a with
  | run t ok addr => exact hseq.run h hs
  | call t op =>
    simp only [PoolState.step] at hs
    split at hs
    · cases hs
      refine SeqInv.settle (fun u _ => halone t op rfl u) (moved_of_update rfl) hseq.held ?_
      cases op with
      | allocEntry => exact hpops t rfl
      | _ => trivial
    · cases hs
  | write t i word =>
    simp only [PoolState.step] at hs
    split at hs
    · cases hs
      exact ⟨hseq.alone, hseq.held, fun u => (hseq.threads u).kept rfl rfl rfl⟩
    · cases hs
  | give t u e =>
    simp only [PoolState.step] at hs
    split at hs
    · rename_i hmay
      cases hs
      have hcount := heldCount_give (u := u) hmay.2
      exact ⟨hseq.alone, hcount.trans_le hseq.held, fun v => (hseq.threads v).kept rfl rfl hcount⟩
    · cases hs

theorem SeqInv.count_returns {limit c : Nat} (hseq : SeqInv limit st) (hs : st.step (.run t ok addr) = some st')
    (hret : st'.history = st.history ++ [.returned t .usedCount (.count c)]) : c = st'.heldCount := by
  have hdid := (run_did hs).2
  have hthread := hseq.threads t
  generalize hpc : st.pcs t = pc at hdid hthread
  have hserved : ∀ {st₁ : PoolState}, st₁.history = st.history → Served t st₁ st' → c = st'.heldCount := by
    intro st₁ hhist hserved
    cases hserved with
    | corrupt _ => exact absurd (hhist.symm.trans hret) (append_singleton_ne _ _)
    | _ =>
      simp only [PoolState.finish, PoolState.handOut, PoolState.withPool, hhist] at hret
      cases (returned_inj hret).1
  cases hdid with
  | countEnd =>
    obtain ⟨-, hcount⟩ := returned_inj hret
    cases hcount
    exact ExactSum.end_eq hthread
  | serveBegin hserves hb =>
    have hhist : ∀ {st₁ : PoolState}, Serves t st pc st₁ → st₁.history = st.history := by
      intro st₁ hsv
      cases hsv <;> rfl
    rcases serveBegin_cases hb with ⟨-, -, rfl⟩ | ⟨-, hend⟩
    · exact absurd ((hhist hserves).symm.trans hret) (append_singleton_ne _ _)
    · exact hserved (hhist hserves) (serveEnd_served hend).1
  | serveEnd he => exact hserved rfl (serveEnd_served he).1
  | pop _ hp =>
    simp only [PoolState.allocPop] at hp
    split at hp
    · cases hp
    · cases hp
      cases (returned_inj hret).1
  | push _ => cases (returned_inj hret).1
  | @body _ e _ =>
    rcases freeBody_history with hsame | hev
    · exact absurd (hsame.symm.trans hret) (append_singleton_ne _ _)
    · cases (returned_inj (hev.symm.trans hret)).1
  | returned =>
    rcases freeReturn_history with hsame | hev
    · exact absurd (hsame.symm.trans hret) (append_singleton_ne _ _)
    · cases (returned_inj (hev.symm.trans hret)).1
  | drained =>
    simp only [PoolState.drain] at hret
    split at hret <;> cases (returned_inj hret).1
  | _ => exact absurd hret (append_singleton_ne _ _)

end Ccollections.Cmempool
