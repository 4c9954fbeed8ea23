import Ccollections.Cmempool.Cmempool

/-!
# Threads that use a pool

A section that holds the lock of the pool is one step, except that the walk over the magazines reads one count at a
time while other threads push and pop. A push or a pop of a thread on its own magazine is one step too: only the
count in it is ever read by another thread.
-/

namespace Ccollections.Cmempool

open Function

/-- What a pool hands out: an entry of its block, or a block of the allocator. -/
inductive Entry where
  | slot (i : Nat)
  | dynamic (addr : Nat)
  deriving DecidableEq

inductive PoolOp where
  | allocEntry
  | freeEntry (e : Entry)
  | usedCount
  | exit
  deriving DecidableEq

inductive PoolResult where
  | entry (e : Option Entry)
  | count (n : Nat)
  | done
  deriving DecidableEq

inductive PoolEvent where
  | called (t : Nat) (op : PoolOp)
  | returned (t : Nat) (op : PoolOp) (r : PoolResult)
  deriving DecidableEq

/-- Where a thread is. A walk has the next magazine to read and the count so far. -/
inductive Pc where
  | idle
  | alloc
  | allocAsk
  | allocCreate
  | allocClaim
  | allocRefill
  | allocPop
  | allocLocked
  | serveWalk (mag : Option Nat) (live : Nat)
  | free (e : Entry)
  | freeAsk (i : Nat)
  | freeCreate (i : Nat)
  | freeClaim (i : Nat)
  | freePark (i : Nat)
  | freeFlush (i : Nat)
  | freeFlushed (i : Nat)
  | freeLocked (e : Entry)
  | count
  | countWalk (mag : Option Nat) (live : Nat)
  | drain
  | failed
  deriving DecidableEq

/-- A pool and its threads. `held` is with the callers, `seen` has the magazines that the walk has read, and `parked`
says that one of them got an entry since. -/
structure PoolState where
  mp : Mempool
  lock : Option Nat
  pcs : Nat → Pc
  held : List (Entry × Nat)
  seen : List Nat
  parked : Bool
  history : List PoolEvent

/-- `run` says whether an allocation in the step succeeds and where. A caller may write to an entry it holds and pass it
on. -/
inductive PoolAct where
  | call (t : Nat) (op : PoolOp)
  | run (t : Nat) (ok : Bool) (addr : Nat)
  | write (t : Nat) (i : Nat) (word : Option Nat)
  | give (t u : Nat) (e : Entry)
  deriving DecidableEq

namespace PoolState

variable (st : PoolState) (t : Nat)

def goto (pc : Pc) : PoolState := { st with pcs := update st.pcs t pc }

def finish (op : PoolOp) (r : PoolResult) : PoolState :=
  { st with
    lock := if st.lock = some t then none else st.lock
    pcs := update st.pcs t .idle
    history := st.history ++ [.returned t op r] }

def fail : PoolState := { st with lock := if st.lock = some t then none else st.lock, pcs := update st.pcs t .failed }

def withPool (mp : Mempool) : PoolState := { st with mp := mp }

def handOut (e : Entry) : PoolState := { st with held := (e, t) :: st.held }

def takeBack (e : Entry) : PoolState := { st with held := st.held.erase (e, t) }

/-! ## `cmempool_alloc_entry` -/

/-- The second half of `mempool_serve`. -/
def serveEnd (canServe ok : Bool) (addr : Nat) : Option PoolState :=
  if canServe then
    match st.mp.serveFreeInst with
    | none => some (st.fail t)
    | some (mp, i) => some (((st.withPool mp).handOut t (.slot i)).finish t .allocEntry (.entry (some (.slot i))))
  else if st.mp.fallbackToDynamicMemory && ok then
    -- The allocator gives a block that is not in use.
    if addr ∈ st.mp.dynamicEntries then none
    else
      some (((st.withPool { st.mp with dynamicEntries := addr :: st.mp.dynamicEntries }).handOut t (.dynamic addr)).finish t
        .allocEntry (.entry (some (.dynamic addr))))
  else some (st.finish t .allocEntry (.entry none))

/-- The first half of `mempool_serve`, up to the walk of `mempool_live_count_locked`. -/
def serveBegin (ok : Bool) (addr : Nat) : Option PoolState :=
  let canServe := st.mp.freeInst ≠ none
  if canServe && st.mp.hasCache then
    some { st with
      lock := some t
      pcs := update st.pcs t (.serveWalk st.mp.magazines (st.mp.totalElemCount - st.mp.freeElemCount))
      seen := []
      parked := false }
  else st.serveEnd t canServe ok addr

/-- The pop of the fast path and of the end of `mempool_alloc_from_cache_slow`. -/
def allocPop : Option PoolState :=
  match st.mp.slotsOf t with
  | [] => none
  | i :: slots =>
    some (((st.withPool (st.mp.popSlot t i slots)).handOut t (.slot i)).finish t .allocEntry (.entry (some (.slot i))))

/-- `mempool_alloc_from_cache`, up to the first lock. -/
def allocFromCache : Option PoolState :=
  match st.mp.mags t with
  | none => some (st.goto t .allocAsk)
  | some mag => if mag.slots = [] then some (st.goto t .allocRefill) else st.allocPop t

def allocStart (ok : Bool) (addr : Nat) : Option PoolState :=
  if !st.mp.shouldUseLocks then st.serveBegin t ok addr
  else if st.mp.hasCache then st.allocFromCache t
  else some (st.goto t .allocLocked)

def allocAsk (ok : Bool) (addr : Nat) : Option PoolState :=
  if st.mp.liveMagazines < st.mp.maxMagazines then some (st.goto t .allocCreate) else st.serveBegin t ok addr

def allocClaim : Option PoolState :=
  if st.mp.liveMagazines < st.mp.maxMagazines then some ((st.withPool (st.mp.linkMagazine t)).goto t .allocRefill)
  else some (st.goto t .allocLocked)

def allocRefill (ok : Bool) (addr : Nat) : Option PoolState :=
  match st.mp.magazineRefillLocked t with
  | none => some (st.fail t)
  | some mp =>
    if mp.slotsOf t ≠ [] then some ((st.withPool mp).goto t .allocPop) else (st.withPool mp).serveBegin t ok addr

/-- One round of the loop of `mempool_live_count_locked`. -/
def walk (mag : Nat) (live : Nat) (resume : Option Nat → Nat → Pc) : PoolState :=
  { st with
    pcs := update st.pcs t (resume ((st.mp.mags mag).bind (·.nextInPool)) (live - (st.mp.slotsOf mag).length))
    seen := mag :: st.seen }

/-! ## `cmempool_free_entry` -/

def freePush (i : Nat) : PoolState :=
  (({ st with mp := st.mp.pushSlot t i, parked := st.parked || decide (t ∈ st.seen) }).takeBack t (.slot i)).finish t
    (.freeEntry (.slot i)) .done

def freeReturn (i : Nat) : PoolState :=
  match st.mp.returnEntry i with
  | none => st.fail t
  | some mp => ((st.withPool mp).takeBack t (.slot i)).finish t (.freeEntry (.slot i)) .done

def freeBody (e : Entry) : PoolState :=
  match e with
  | .slot i => if st.mp.validMempoolAddr i then st.freeReturn t i else st.fail t
  | .dynamic addr =>
    if !st.mp.fallbackToDynamicMemory || st.mp.dynamicEntries.isEmpty then st.fail t
    else if addr ∈ st.mp.dynamicEntries then
      ((st.withPool { st.mp with dynamicEntries := st.mp.dynamicEntries.erase addr }).takeBack t (.dynamic addr)).finish t
        (.freeEntry (.dynamic addr)) .done
    else st.fail t

/-- The end of `mempool_free_to_cache_slow`. -/
def freePark (i : Nat) : PoolState :=
  if (st.mp.slotsOf t).length ≥ st.mp.capacityOf t then st.goto t (.freeLocked (.slot i)) else st.freePush t i

/-- `mempool_free_to_cache`, up to the first lock. -/
def freeToCache (e : Entry) : PoolState :=
  match e with
  | .dynamic _ => st.goto t (.freeLocked e)
  | .slot i =>
    if !st.mp.validMempoolAddr i then st.goto t (.freeLocked e)
    else if !st.mp.taken i then st.fail t
    else
      match st.mp.mags t with
      | none => st.goto t (.freeAsk i)
      | some _ => st.goto t (.freePark i)

def freeStart (e : Entry) : PoolState :=
  if !st.mp.shouldUseLocks then st.freeBody t e
  else if st.mp.hasCache then st.freeToCache t e
  else st.goto t (.freeLocked e)

def freeAsk (i : Nat) : PoolState :=
  if st.mp.liveMagazines < st.mp.maxMagazines then st.goto t (.freeCreate i) else st.freeReturn t i

def freeClaim (i : Nat) : PoolState :=
  if st.mp.liveMagazines < st.mp.maxMagazines then (st.withPool (st.mp.linkMagazine t)).goto t (.freePark i)
  else st.goto t (.freeLocked (.slot i))

def freeFlush (i : Nat) : PoolState :=
  let half := st.mp.capacityOf t / 2
  let half := if half = 0 then 1 else half
  (st.withPool (Mempool.magazineFlushLocked t half st.mp)).goto t (.freeFlushed i)

/-! ## Thread exit -/

/-- `_mp_tls_drain` for the magazine of this pool. -/
def drain : PoolState :=
  match st.mp.mags t with
  | none => st.finish t .exit .done
  | some _ =>
    (st.withPool ((Mempool.magazineFlushLocked t (st.mp.slotsOf t).length st.mp).magazineUnlinkLocked t)).finish t .exit .done

/-! ## Steps -/

def locks : Pc → Bool
  | .allocAsk | .allocClaim | .allocRefill | .allocLocked | .freeAsk _ | .freeClaim _ | .freeFlush _ | .freeLocked _
  | .count | .drain => true
  | _ => false

/-- Another thread holds the lock that a step needs. The callers of a pool without a lock wait for each other. -/
def blocked : Bool := st.lock ≠ none ∧ st.lock ≠ some t ∧ (locks (st.pcs t) ∨ !st.mp.shouldUseLocks)

def next (ok : Bool) (addr : Nat) : Pc → Option PoolState
  | .idle | .failed => none
  | .alloc => st.allocStart t ok addr
  | .allocAsk => st.allocAsk t ok addr
  | .allocCreate => some (st.goto t (if ok then .allocClaim else .allocLocked))
  | .allocClaim => st.allocClaim t
  | .allocRefill => st.allocRefill t ok addr
  | .allocPop => st.allocPop t
  | .allocLocked => st.serveBegin t ok addr
  | .serveWalk (some mag) live => some (st.walk t mag live .serveWalk)
  | .serveWalk none live => st.serveEnd t (live < st.mp.advertisedElemCount) ok addr
  | .free e => some (st.freeStart t e)
  | .freeAsk i => some (st.freeAsk t i)
  | .freeCreate i => some (st.goto t (if ok then .freeClaim i else .freeLocked (.slot i)))
  | .freeClaim i => some (st.freeClaim t i)
  | .freePark i =>
    if (st.mp.slotsOf t).length = st.mp.capacityOf t then some (st.goto t (.freeFlush i)) else some (st.freePark t i)
  | .freeFlush i => some (st.freeFlush t i)
  | .freeFlushed i => some (st.freePark t i)
  | .freeLocked e => some (st.freeBody t e)
  | .count =>
    some { st with
      lock := some t
      pcs := update st.pcs t (.countWalk st.mp.magazines (st.mp.totalElemCount - st.mp.freeElemCount))
      seen := []
      parked := false }
  | .countWalk (some mag) live => some (st.walk t mag live .countWalk)
  | .countWalk none live => some (st.finish t .usedCount (.count live))
  | .drain => some (st.drain t)

def start : PoolOp → Pc
  | .allocEntry => .alloc
  | .freeEntry e => .free e
  | .usedCount => .count
  | .exit => .drain

def mayCall : PoolOp → Bool
  | .freeEntry e => (e, t) ∈ st.held
  | _ => true

def step (st : PoolState) : PoolAct → Option PoolState
  | .call t op =>
    if st.pcs t = .idle ∧ st.mayCall t op then
      some { st with pcs := update st.pcs t (start op), history := st.history ++ [.called t op] }
    else none
  | .run t ok addr => if st.blocked t then none else st.next t ok addr (st.pcs t)
  | .write t i word =>
    if st.pcs t = .idle ∧ (.slot i, t) ∈ st.held then
      some (st.withPool (st.mp.writeEntry i word))
    else none
  | .give t u e =>
    if st.pcs t = .idle ∧ (e, t) ∈ st.held then some { st with held := (e, u) :: st.held.erase (e, t) } else none

def initial (mp : Mempool) : PoolState := ⟨mp, none, fun _ => .idle, [], [], false, []⟩

/-- The states that steps reach which all meet a condition. -/
inductive Run (P : PoolState → PoolAct → Prop) (st : PoolState) : PoolState → Prop
  | refl : Run P st st
  | step {st₁ st₂ : PoolState} {a : PoolAct} (h : Run P st st₁) (hP : P st₁ a) (hs : st₁.step a = some st₂) : Run P st st₂

def heldSlots : List Nat := st.held.filterMap fun h => match h.1 with
  | .slot i => some i
  | .dynamic _ => none

def heldDynamic : List Nat := st.held.filterMap fun h => match h.1 with
  | .slot _ => none
  | .dynamic addr => some addr

end PoolState

end Ccollections.Cmempool
