import Ccollections.Cmempool.Threads

/-!
# Everything a thread can do in a step
-/

namespace Ccollections.Cmempool

open Function

variable {st st' : PoolState} {t u i addr : Nat} {e : Entry} {pc : Pc} {ok : Bool}

inductive Served (t : Nat) (st : PoolState) : PoolState → Prop
  | slot {mp : Mempool} {i : Nat} (hserve : st.mp.serveFreeInst = some (mp, i)) :
      Served t st (((st.withPool mp).handOut t (.slot i)).finish t .allocEntry (.entry (some (.slot i))))
  | corrupt (hserve : st.mp.serveFreeInst = none) : Served t st (st.fail t)
  | dynamic {addr : Nat} : Served t st (((st.withPool { st.mp with dynamicEntries := addr :: st.mp.dynamicEntries }).handOut t
      (.dynamic addr)).finish t .allocEntry (.entry (some (.dynamic addr))))
  | refused : Served t st (st.finish t .allocEntry (.entry none))

theorem serveEnd_served {canServe : Bool} (hs : st.serveEnd t canServe ok addr = some st') :
    Served t st st' ∧ (canServe = true → ∀ mp i, st.mp.serveFreeInst = some (mp, i) →
      st' = ((st.withPool mp).handOut t (.slot i)).finish t .allocEntry (.entry (some (.slot i)))) := by
  simp only [PoolState.serveEnd] at hs
  split at hs
  · split at hs
    · rename_i hserve
      cases hs
      refine ⟨.corrupt hserve, fun _ mp i heq => ?_⟩
      rw [hserve] at heq
      cases heq
    · rename_i mp i hserve
      cases hs
      refine ⟨.slot hserve, fun _ mp' i' heq => ?_⟩
      rw [hserve] at heq
      cases heq
      rfl
  · rename_i hnot
    split at hs
    · split at hs
      · cases hs
      · cases hs
        exact ⟨.dynamic, fun hcan => absurd hcan hnot⟩
    · cases hs
      exact ⟨.refused, fun hcan => absurd hcan hnot⟩

theorem serveEnd_refused {canServe : Bool} (hcan : canServe = false) (hs : st.serveEnd t canServe ok addr = some st') :
    ∀ mp i, st' ≠ ((st.withPool mp).handOut t (.slot i)).finish t .allocEntry (.entry (some (.slot i))) := by
  intro mp i heq
  subst heq
  simp only [PoolState.serveEnd, hcan, Bool.false_eq_true, if_false] at hs
  split at hs
  · split at hs
    · cases hs
    · have hheld := congrArg PoolState.held (Option.some.inj hs)
      simp [PoolState.finish, PoolState.handOut, PoolState.withPool] at hheld
  · have hheld := congrArg PoolState.held (Option.some.inj hs)
    simp [PoolState.finish, PoolState.handOut, PoolState.withPool] at hheld

inductive Serves (t : Nat) (st : PoolState) : Pc → PoolState → Prop
  | alloc (hlocks : st.mp.shouldUseLocks = false) : Serves t st .alloc st
  | ask : Serves t st .allocAsk st
  | locked : Serves t st .allocLocked st
  | refill {mp : Mempool} (hrefill : st.mp.magazineRefillLocked t = some mp) (hslots : mp.slotsOf t = []) :
      Serves t st .allocRefill (st.withPool mp)

inductive Goes (t : Nat) (st : PoolState) : Pc → Pc → Prop
  | ask : Goes t st .alloc .allocAsk
  | refill (hslots : st.mp.slotsOf t = []) : Goes t st .alloc .allocRefill
  | noCache : Goes t st .alloc .allocLocked
  | create : Goes t st .allocAsk .allocCreate
  | claim : Goes t st .allocCreate .allocClaim
  | notCreated : Goes t st .allocCreate .allocLocked
  | notClaimed : Goes t st .allocClaim .allocLocked
  | freeLocked {e : Entry} : Goes t st (.free e) (.freeLocked e)
  | freeAsk {i : Nat} : Goes t st (.free (.slot i)) (.freeAsk i)
  | freePark {i : Nat} : Goes t st (.free (.slot i)) (.freePark i)
  | freeCreate {i : Nat} : Goes t st (.freeAsk i) (.freeCreate i)
  | freeClaim {i : Nat} : Goes t st (.freeCreate i) (.freeClaim i)
  | freeNotCreated {i : Nat} : Goes t st (.freeCreate i) (.freeLocked (.slot i))
  | freeNotClaimed {i : Nat} : Goes t st (.freeClaim i) (.freeLocked (.slot i))
  | freeFlush {i : Nat} : Goes t st (.freePark i) (.freeFlush i)
  | freeFull {i : Nat} : Goes t st (.freePark i) (.freeLocked (.slot i))
  | freeStillFull {i : Nat} : Goes t st (.freeFlushed i) (.freeLocked (.slot i))

inductive Did (t : Nat) (ok : Bool) (addr : Nat) (st : PoolState) : Pc → PoolState → Prop
  | goes {pc pc' : Pc} (hgoes : Goes t st pc pc') : Did t ok addr st pc (st.goto t pc')
  | serveBegin {pc : Pc} {st₁ st' : PoolState} (hserves : Serves t st pc st₁) (hs : st₁.serveBegin t ok addr = some st') : Did t ok addr st pc st'
  | serveEnd {live : Nat} {st' : PoolState} (hs : st.serveEnd t (live < st.mp.advertisedElemCount) ok addr = some st') :
      Did t ok addr st (.serveWalk none live) st'
  | walk {mag live : Nat} : Did t ok addr st (.serveWalk (some mag) live) (st.walk t mag live .serveWalk)
  | pop {pc : Pc} {st' : PoolState} (hpc : pc = .alloc ∨ pc = .allocPop) (hs : st.allocPop t = some st') : Did t ok addr st pc st'
  | claimed {pc pc' : Pc} (hpc : (pc = .allocClaim ∧ pc' = .allocRefill) ∨ ∃ i, pc = .freeClaim i ∧ pc' = .freePark i) :
      Did t ok addr st pc ((st.withPool (st.mp.linkMagazine t)).goto t pc')
  | refilled {mp : Mempool} (hrefill : st.mp.magazineRefillLocked t = some mp) (hslots : mp.slotsOf t ≠ []) :
      Did t ok addr st .allocRefill ((st.withPool mp).goto t .allocPop)
  | push {pc : Pc} {i : Nat} (hpc : pc = .freePark i ∨ pc = .freeFlushed i) : Did t ok addr st pc (st.freePush t i)
  | body {pc : Pc} {e : Entry} (hpc : pc = .free e ∨ pc = .freeLocked e) : Did t ok addr st pc (st.freeBody t e)
  | returned {i : Nat} : Did t ok addr st (.freeAsk i) (st.freeReturn t i)
  | flushed {i : Nat} : Did t ok addr st (.freeFlush i) (st.freeFlush t i)
  | countBegin : Did t ok addr st .count
      { st with
        lock := some t
        pcs := update st.pcs t (.countWalk st.mp.magazines (st.mp.totalElemCount - st.mp.freeElemCount))
        seen := []
        parked := false }
  | countWalk {mag live : Nat} : Did t ok addr st (.countWalk (some mag) live) (st.walk t mag live .countWalk)
  | countEnd {live : Nat} : Did t ok addr st (.countWalk none live) (st.finish t .usedCount (.count live))
  | drained : Did t ok addr st .drain (st.drain t)
  | failed {pc : Pc} (hpc : pc = .allocRefill ∨ ∃ e, pc = .free e) : Did t ok addr st pc (st.fail t)

theorem Did.not_idle (h : Did t ok addr st .idle st') : False := by
  cases h with
  | goes hgoes => cases hgoes
  | serveBegin hserves _ => cases hserves
  | pop hpc _ => rcases hpc with hpc | hpc <;> cases hpc
  | claimed hpc => rcases hpc with ⟨hpc, -⟩ | ⟨i, hpc, -⟩ <;> cases hpc
  | push hpc => rcases hpc with hpc | hpc <;> cases hpc
  | body hpc => rcases hpc with hpc | hpc <;> cases hpc
  | failed hpc => rcases hpc with hpc | ⟨e, hpc⟩ <;> cases hpc

theorem next_did (hs : st.next t ok addr pc = some st') : Did t ok addr st pc st' := by
  cases pc with
  | idle => cases hs
  | failed => cases hs
  | alloc =>
    simp only [PoolState.next, PoolState.allocStart] at hs
    split at hs
    · rename_i hlocks
      exact .serveBegin (.alloc (by simpa using hlocks)) hs
    · split at hs
      · simp only [PoolState.allocFromCache] at hs
        split at hs
        · cases hs
          exact .goes .ask
        · rename_i mag hmag
          split at hs
          · rename_i hslots
            cases hs
            exact .goes (.refill (by simpa [Mempool.slotsOf, hmag] using hslots))
          · exact .pop (.inl rfl) hs
      · cases hs
        exact .goes .noCache
  | allocAsk =>
    simp only [PoolState.next, PoolState.allocAsk] at hs
    split at hs
    · cases hs
      exact .goes .create
    · exact .serveBegin .ask hs
  | allocCreate =>
    cases hs
    cases ok with
    | true => exact .goes .claim
    | false => exact .goes .notCreated
  | allocClaim =>
    simp only [PoolState.next, PoolState.allocClaim] at hs
    split at hs
    · cases hs
      exact .claimed (.inl ⟨rfl, rfl⟩)
    · cases hs
      exact .goes .notClaimed
  | allocRefill =>
    simp only [PoolState.next, PoolState.allocRefill] at hs
    split at hs
    · cases hs
      exact .failed (.inl rfl)
    · rename_i mp hrefill
      split at hs
      · rename_i hslots
        cases hs
        exact .refilled hrefill hslots
      · rename_i hslots
        exact .serveBegin (.refill hrefill (by simpa using hslots)) hs
  | allocPop => exact .pop (.inr rfl) hs
  | allocLocked => exact .serveBegin .locked hs
  | serveWalk mag live =>
    cases mag with
    | none => exact .serveEnd hs
    | some mag =>
      cases hs
      exact .walk
  | free e =>
    cases hs
    simp only [PoolState.freeStart]
    split
    · exact .body (.inl rfl)
    · split
      · cases e with
        | dynamic addr => exact .goes .freeLocked
        | slot i =>
          simp only [PoolState.freeToCache]
          split
          · exact .goes .freeLocked
          · split
            · exact .failed (.inr ⟨_, rfl⟩)
            · split
              · exact .goes .freeAsk
              · exact .goes .freePark
      · exact .goes .freeLocked
  | freeAsk i =>
    cases hs
    simp only [PoolState.freeAsk]
    split
    · exact .goes .freeCreate
    · exact .returned
  | freeCreate i =>
    cases hs
    cases ok with
    | true => exact .goes .freeClaim
    | false => exact .goes .freeNotCreated
  | freeClaim i =>
    cases hs
    simp only [PoolState.freeClaim]
    split
    · exact .claimed (.inr ⟨i, rfl, rfl⟩)
    · exact .goes .freeNotClaimed
  | freePark i =>
    simp only [PoolState.next] at hs
    split at hs
    · cases hs
      exact .goes .freeFlush
    · cases hs
      simp only [PoolState.freePark]
      split
      · exact .goes .freeFull
      · exact .push (.inl rfl)
  | freeFlush i =>
    cases hs
    exact .flushed
  | freeFlushed i =>
    cases hs
    simp only [PoolState.freePark]
    split
    · exact .goes .freeStillFull
    · exact .push (.inr rfl)
  | freeLocked e =>
    cases hs
    exact .body (.inr rfl)
  | count =>
    cases hs
    exact .countBegin
  | countWalk mag live =>
    cases mag with
    | none =>
      cases hs
      exact .countEnd
    | some mag =>
      cases hs
      exact .countWalk
  | drain =>
    cases hs
    exact .drained

/-! ## The thread that moves and the others -/

structure Moved (t : Nat) (st st' : PoolState) (pc : Pc) : Prop where
  self : st'.pcs t = pc
  other : ∀ u, u ≠ t → st'.pcs u = st.pcs u

theorem moved_of_update (h : st'.pcs = update st.pcs t pc) : Moved t st st' pc :=
  ⟨by rw [h, update_self], fun u hu => by rw [h, update_of_ne hu]⟩

theorem Served.moved (h : Served t st st') : Moved t st st' .idle ∨ Moved t st st' .failed := by
  cases h with
  | slot _ => exact .inl (moved_of_update rfl)
  | corrupt _ => exact .inr (moved_of_update rfl)
  | dynamic => exact .inl (moved_of_update rfl)
  | refused => exact .inl (moved_of_update rfl)

theorem Serves.pcs {st₁ : PoolState} (h : Serves t st pc st₁) : st₁.pcs = st.pcs := by
  cases h <;> rfl

theorem serveBegin_cases (hs : st.serveBegin t ok addr = some st') :
    (st.mp.freeInst ≠ none ∧ st.mp.hasCache = true ∧ st' = { st with
      lock := some t
      pcs := update st.pcs t (.serveWalk st.mp.magazines (st.mp.totalElemCount - st.mp.freeElemCount))
      seen := []
      parked := false }) ∨
    ((st.mp.freeInst ≠ none → st.mp.hasCache = false) ∧ st.serveEnd t (st.mp.freeInst ≠ none) ok addr = some st') := by
  simp only [PoolState.serveBegin] at hs
  split at hs
  · rename_i hwalk
    cases hs
    obtain ⟨hinst, hcache⟩ := Bool.and_eq_true_iff.mp hwalk
    exact .inl ⟨of_decide_eq_true hinst, hcache, rfl⟩
  · rename_i hnot
    refine .inr ⟨fun hinst => ?_, hs⟩
    simpa [hinst] using hnot

theorem serveBegin_moved (hs : st.serveBegin t ok addr = some st') :
    Moved t st st' (.serveWalk st.mp.magazines (st.mp.totalElemCount - st.mp.freeElemCount)) ∨ Moved t st st' .idle ∨ Moved t st st' .failed := by
  rcases serveBegin_cases hs with ⟨-, -, rfl⟩ | ⟨-, hend⟩
  · exact .inl (moved_of_update rfl)
  · exact .inr (serveEnd_served hend).1.moved

theorem freeReturn_moved : Moved t st (st.freeReturn t i) .idle ∨ Moved t st (st.freeReturn t i) .failed := by
  rw [PoolState.freeReturn]
  split
  · exact .inr (moved_of_update rfl)
  · exact .inl (moved_of_update rfl)

theorem freeBody_moved : Moved t st (st.freeBody t e) .idle ∨ Moved t st (st.freeBody t e) .failed := by
  cases e with
  | slot i =>
    simp only [PoolState.freeBody]
    split
    · exact freeReturn_moved
    · exact .inr (moved_of_update rfl)
  | dynamic addr =>
    simp only [PoolState.freeBody]
    split
    · exact .inr (moved_of_update rfl)
    · split
      · exact .inl (moved_of_update rfl)
      · exact .inr (moved_of_update rfl)

theorem freeReturn_history : (st.freeReturn t i).history = st.history ∨
    (st.freeReturn t i).history = st.history ++ [.returned t (.freeEntry (.slot i)) .done] := by
  rw [PoolState.freeReturn]
  split
  · exact .inl rfl
  · exact .inr rfl

theorem freeBody_history : (st.freeBody t e).history = st.history ∨
    (st.freeBody t e).history = st.history ++ [.returned t (.freeEntry e) .done] := by
  cases e with
  | slot i =>
    simp only [PoolState.freeBody]
    split
    · exact freeReturn_history
    · exact .inl rfl
  | dynamic addr =>
    simp only [PoolState.freeBody]
    split
    · exact .inl rfl
    · split
      · exact .inr rfl
      · exact .inl rfl

theorem allocPop_moved (hs : st.allocPop t = some st') : Moved t st st' .idle := by
  simp only [PoolState.allocPop] at hs
  split at hs
  · cases hs
  · cases hs
    exact moved_of_update rfl

theorem drain_moved : Moved t st (st.drain t) .idle := by
  rw [PoolState.drain]
  split <;> exact moved_of_update rfl

theorem Did.moved (h : Did t ok addr st pc st') : ∃ pc', Moved t st st' pc' := by
  cases h with
  | goes _ => exact ⟨_, moved_of_update rfl⟩
  | serveBegin hserves hs =>
    have hpcs := hserves.pcs
    rcases serveBegin_moved hs with hm | hm | hm <;> exact ⟨_, hm.self, fun u hu => (hm.other u hu).trans (by rw [hpcs])⟩
  | serveEnd hs =>
    rcases (serveEnd_served hs).1.moved with hm | hm <;> exact ⟨_, hm⟩
  | walk => exact ⟨_, moved_of_update rfl⟩
  | pop _ hs => exact ⟨_, allocPop_moved hs⟩
  | claimed _ => exact ⟨_, moved_of_update rfl⟩
  | refilled _ _ => exact ⟨_, moved_of_update rfl⟩
  | push _ => exact ⟨_, moved_of_update rfl⟩
  | body _ => rcases freeBody_moved with hm | hm <;> exact ⟨_, hm⟩
  | returned => rcases freeReturn_moved with hm | hm <;> exact ⟨_, hm⟩
  | flushed => exact ⟨_, moved_of_update rfl⟩
  | countBegin => exact ⟨_, moved_of_update rfl⟩
  | countWalk => exact ⟨_, moved_of_update rfl⟩
  | countEnd => exact ⟨_, moved_of_update rfl⟩
  | drained => exact ⟨_, drain_moved⟩
  | failed _ => exact ⟨_, moved_of_update rfl⟩

end Ccollections.Cmempool
