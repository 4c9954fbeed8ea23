import Ccollections.Cvector.Cvector
import Ccollections.Lib.Lists
import Ccollections.Lib.Maps

/-!
# chttpclient idle pools

Both pools of a client map an origin key to a vector of idle connections and keep a total beside it. The synchronous
pool holds connections by value, the asynchronous one holds contexts that stay registered with the reactor.
Everything a critical section of the client's lock does is one step.
-/

namespace Ccollections.Chttpclient.IdlePool
open Lib Cvector Function

def chttpMaxIdlePerOrigin : Nat := 4
def chttpMaxIdleTotal : Nat := 32
def chttpMaxIdleOrigins : Nat := 128
def chttpIdleMaxAgeMs : Int := 60000

abbrev OriginKey := List UInt8

/-- `struct timespec`. -/
structure Timespec where
  tvSec : Int
  tvNsec : Int

def nsElapsed (start stop : Timespec) : Int := (stop.tvSec - start.tvSec) * 1000000000 + (stop.tvNsec - start.tvNsec)

def msElapsedFloor (start stop : Timespec) : Int :=
  let ns := nsElapsed start stop
  let ms := ns.tdiv 1000000
  if ns < 0 ∧ ms * 1000000 ≠ ns then ms - 1 else ms

/-! ## The lists of the origins -/

/-- A `cvec`, as its elements and the capacity that says when a push has to allocate. -/
structure Vec (α : Type) where
  elems : List α
  capacity : Nat

namespace Vec

variable {α : Type}

def create (mem : Bool) : Option (Vec α) := if mem then some ⟨[], ccolCvectorMinimumCapacity⟩ else none

def pushBack (v : Vec α) (a : α) (mem : Bool) : Option (Vec α) :=
  if v.elems.length = ccolMaxElemCount then none
  else if v.elems.length < v.capacity then some { v with elems := v.elems ++ [a] }
  else if v.capacity > ccolMaxElemCount / ccolCvectorScalingFactor then none
  else if mem then some ⟨v.elems ++ [a], v.capacity * ccolCvectorScalingFactor⟩
  else none

/-- The capacity after a pop that leaves `count` elements. A shrink that gets no memory keeps the buffer. -/
def capacityAfterPop (v : Vec α) (count : Nat) (mem : Bool) : Nat :=
  if count < v.capacity / shrinkThresholdDivisor ∧ v.capacity ≠ ccolCvectorMinimumCapacity ∧ mem then
    v.capacity / ccolCvectorScalingFactor
  else v.capacity

def popBack (v : Vec α) (mem : Bool) : Option (Vec α × α) :=
  match v.elems.getLast? with
  | none => none
  | some a => some (⟨v.elems.dropLast, v.capacityAfterPop v.elems.dropLast.length mem⟩, a)

/-- A pop whose element takes the place of the one at `i`. -/
def popInto (v : Vec α) (i : Nat) (mem : Bool) : Vec α :=
  ⟨swapRemove v.elems i, v.capacityAfterPop (swapRemove v.elems i).length mem⟩

end Vec

/-- A `chmap` of origin keys to the lists of idle connections. -/
abbrev IdleMap (α : Type) := Buckets OriginKey (Vec α)

/-- Which allocations of an offer succeed: the list of a new origin, its map entry, and a push that has to grow. -/
structure OfferMem where
  list : Bool
  entry : Bool
  push : Bool

def listFor {α : Type} (pools : IdleMap α) (key : OriginKey) (mem : OfferMem) : IdleMap α × Option (Vec α) :=
  match pools.lookup key with
  | some list => (pools, some list)
  | none =>
    if pools.entries.length < chttpMaxIdleOrigins then
      match Vec.create mem.list with
      | none => (pools, none)
      | some list => if mem.entry then (pools.insert key list, some list) else (pools, none)
    else (pools, none)

def putBack {α : Type} (pools : IdleMap α) (key : OriginKey) (list : Vec α) : IdleMap α :=
  if list.elems.length = 0 then pools.erase key else pools.insert key list

def pooled {α : Type} (pools : IdleMap α) : List α := Buckets.members Vec.elems pools

/-! ## The synchronous pool -/

/-- `chttp_conn_t`. The serial number stands for the connection itself. -/
structure Conn where
  serial : Nat
  tls : Bool
  originKey : OriginKey
  lastUsed : Timespec
  tlsGeneration : UInt64

/-- The fields of `struct chttpclient` that the pool reads. -/
structure PoolClient where
  idlePools : IdleMap Conn
  idleTotalCount : Nat
  tlsGeneration : UInt64
  destroying : Bool

/-- The critical section of `_idle_pool_take`: a candidate, and the generation read under the same lock. -/
def idlePoolTakeLocked (cli : PoolClient) (key : OriginKey) (mem : Bool) : PoolClient × Option (Conn × UInt64) :=
  match cli.idlePools.lookup key with
  | none => (cli, none)
  | some list =>
    match list.popBack mem with
    | none => (cli, none)
    | some (list, c) =>
      ({ cli with
          idlePools := putBack cli.idlePools key list
          idleTotalCount := if cli.idleTotalCount > 0 then cli.idleTotalCount - 1 else cli.idleTotalCount },
        some (c, cli.tlsGeneration))

/-- What `_idle_pool_take` checks outside the lock: a read finds an open connection with nothing on it. -/
def idlePoolTakeAlive (c : Conn) (curTlsGeneration : UInt64) (now : Timespec) (probe : Bool) : Bool :=
  let ageMs := msElapsedFloor c.lastUsed now
  let tlsConfigCurrent := !c.tls || c.tlsGeneration = curTlsGeneration
  ageMs ≤ chttpIdleMaxAgeMs && tlsConfigCurrent && probe

/-- `_idle_pool_offer`, with whether the connection was pooled. -/
def idlePoolOffer (cli : PoolClient) (c : Conn) (now : Timespec) (mem : OfferMem) : PoolClient × Bool :=
  if !cli.destroying && cli.idleTotalCount < chttpMaxIdleTotal then
    match listFor cli.idlePools c.originKey mem with
    | (pools, none) => ({ cli with idlePools := pools }, false)
    | (pools, some list) =>
      if list.elems.length < chttpMaxIdlePerOrigin then
        match list.pushBack { c with lastUsed := now } mem.push with
        | none => ({ cli with idlePools := pools }, false)
        | some list =>
          ({ cli with
              idlePools := pools.insert c.originKey list
              idleTotalCount := cli.idleTotalCount + 1 }, true)
      else ({ cli with idlePools := pools }, false)
  else (cli, false)

/-- A running `_idle_pool_take`, with the candidate it has outside the lock. -/
structure Take where
  key : OriginKey
  candidate : Option (Conn × UInt64)

/-- A client, the connections its requests hold, its running takes and the connections torn down so far. -/
structure World where
  cli : PoolClient
  made : Nat
  held : List Conn
  takes : List Take
  tornDown : List Conn

inductive Action where
  | connOpen (key : OriginKey) (tls : Bool) (generation : UInt64) (now : Timespec)
  | offer (i : Nat) (now : Timespec) (mem : OfferMem)
  | teardown (i : Nat)
  | take (key : OriginKey)
  | takeLocked (i : Nat) (mem : Bool)
  | takeJudge (i : Nat) (now : Timespec) (probe : Bool)
  | setTls
  | destroy

namespace World

def judged (takes : List Take) : List Conn := takes.filterMap fun t => t.candidate.map Prod.fst

def step (w : World) : Action → Option World
  | .connOpen key tls generation now =>
    some { w with made := w.made + 1, held := ⟨w.made, tls, key, now, generation⟩ :: w.held }
  | .offer i now mem => do
    let c ← w.held[i]?
    let w := { w with held := w.held.eraseIdx i }
    match idlePoolOffer w.cli c now mem with
    | (cli, true) => some { w with cli := cli }
    | (cli, false) => some { w with cli := cli, tornDown := c :: w.tornDown }
  | .teardown i => do
    let c ← w.held[i]?
    some { w with held := w.held.eraseIdx i, tornDown := c :: w.tornDown }
  | .take key => some { w with takes := ⟨key, none⟩ :: w.takes }
  | .takeLocked i mem =>
    match w.takes[i]? with
    | some ⟨key, none⟩ =>
      match idlePoolTakeLocked w.cli key mem with
      | (cli, none) => some { w with cli := cli, takes := w.takes.eraseIdx i }
      | (cli, some found) => some { w with cli := cli, takes := ⟨key, some found⟩ :: w.takes.eraseIdx i }
    | _ => none
  | .takeJudge i now probe =>
    match w.takes[i]? with
    | some ⟨key, some (c, generation)⟩ =>
      if idlePoolTakeAlive c generation now probe then
        some { w with takes := w.takes.eraseIdx i, held := c :: w.held }
      else some { w with takes := ⟨key, none⟩ :: w.takes.eraseIdx i, tornDown := c :: w.tornDown }
    | _ => none
  | .setTls => some { w with cli := { w.cli with tlsGeneration := w.cli.tlsGeneration + 1 } }
  | .destroy => some { w with cli := { w.cli with destroying := true } }

def start : World := ⟨⟨∅, 0, 0, false⟩, 0, [], [], []⟩

def Step (w w' : World) : Prop := ∃ a, w.step a = some w'

def Reachable : World → Prop := Relation.ReflTransGen Step start

end World

end Ccollections.Chttpclient.IdlePool

/-!
# The asynchronous idle pool

A pooled context stays registered, so a dispatch may find it dead at any time. Only a dispatch frees a pooled context:
it takes the context out of the pool, frees it and gives back its count in three sections. A taker leaves stale
contexts where they are and only shuts their descriptors down.
-/

namespace Ccollections.Chttpclient.AsyncIdlePool
open Lib Chttpclient.IdlePool Function

/-- The fields of `chttp_async_ctx_t` that the pool reads and writes. -/
structure Ctx where
  originKey : OriginKey
  isHttps : Bool
  tlsGeneration : UInt64
  lastUsed : Timespec
  chain : Option Nat
  idle : Bool
  shut : Bool

structure Client where
  idlePoolsAsync : IdleMap Nat
  idleTotalCountAsync : Nat
  tlsGeneration : UInt64
  destroying : Bool

abbrev Ctxs := Nat → Option Ctx

def asyncIdleCountDecLocked (cli : Client) : Client :=
  { cli with
      idleTotalCountAsync := if cli.idleTotalCountAsync > 0 then cli.idleTotalCountAsync - 1 else cli.idleTotalCountAsync }

/-- Takes element `i` out of the list of an origin. -/
def removeAt (cli : Client) (key : OriginKey) (list : Vec Nat) (i : Nat) (mem : Bool) : Client :=
  { cli with idlePoolsAsync := putBack cli.idlePoolsAsync key (list.popInto i mem) }

/-- `_async_idle_remove_locked`, with whether the list of the origin held the target. -/
def asyncIdleRemoveLocked (cli : Client) (target : Nat) (x : Ctx) (mem : Bool) : Client × Bool :=
  match cli.idlePoolsAsync.lookup x.originKey with
  | none => (cli, false)
  | some list =>
    match list.elems.findIdx? (· = target) with
    | none => (cli, false)
    | some i => (removeAt cli x.originKey list i mem, true)

def refused (cli : Client) (now : Timespec) (x : Ctx) : Bool :=
  msElapsedFloor x.lastUsed now > chttpIdleMaxAgeMs || (x.isHttps && x.tlsGeneration ≠ cli.tlsGeneration)

/-- The walk of `_async_idle_pool_take`, from the back. It is stuck on a context that is not live. -/
def takeScan (cli : Client) (now : Timespec) (elems : List Nat) (ctxs : Ctxs) : Nat → Option (Ctxs × Option (Nat × Nat))
  | 0 => some (ctxs, none)
  | idx + 1 => do
    let c ← elems[idx]?
    let x ← ctxs c
    if refused cli now x then
      takeScan cli now elems (update ctxs c (some { x with shut := true })) idx
    else some (ctxs, some (idx, c))

/-- The critical section of `_async_idle_pool_take`. -/
def asyncIdlePoolTake (cli : Client) (ctxs : Ctxs) (key : OriginKey) (now : Timespec) (mem : Bool) :
    Option (Client × Ctxs × Option Nat) :=
  match cli.idlePoolsAsync.lookup key with
  | none => some (cli, ctxs, none)
  | some list => do
    let (ctxs, found) ← takeScan cli now list.elems ctxs list.elems.length
    match found with
    | none => some (cli, ctxs, none)
    | some (idx, c) => some (asyncIdleCountDecLocked (removeAt cli key list idx mem), ctxs, some c)

/-- How an offer ends. -/
inductive Offered where
  | untouched
  | pooled
  | freed
  deriving DecidableEq

def Ctx.reset (x : Ctx) (now : Timespec) : Ctx := { x with chain := none, idle := true, lastUsed := now }

/-- `_async_idle_pool_offer`. The first allocation is the engine reference. -/
def asyncIdlePoolOffer (cli : Client) (ctxs : Ctxs) (c : Nat) (x : Ctx) (now : Timespec) (engine : Bool) (mem : OfferMem) :
    Client × Ctxs × Offered :=
  if !engine then (cli, ctxs, .untouched)
  else if !cli.destroying && cli.idleTotalCountAsync < chttpMaxIdleTotal then
    match listFor cli.idlePoolsAsync x.originKey mem with
    | (pools, none) => ({ cli with idlePoolsAsync := pools }, ctxs, .untouched)
    | (pools, some list) =>
      if list.elems.length < chttpMaxIdlePerOrigin then
        match list.pushBack c mem.push with
        | none => ({ cli with idlePoolsAsync := pools }, update ctxs c none, .freed)
        | some list =>
          ({ cli with
              idlePoolsAsync := pools.insert x.originKey list
              idleTotalCountAsync := cli.idleTotalCountAsync + 1 },
            update ctxs c (some (x.reset now)), .pooled)
      else ({ cli with idlePoolsAsync := pools }, ctxs, .untouched)
  else (cli, ctxs, .untouched)

/-- A dispatch inside `_async_idle_ctx_finish` that removed its context and has not given back the count. -/
structure Eviction where
  ctx : Nat
  freed : Bool

/-- A client with its contexts, its holders, the running evictions and every context evicted so far. -/
structure World where
  cli : Client
  ctxs : Ctxs
  made : Nat
  hops : List Nat
  evictions : List Eviction
  evicted : List Nat
  drained : Bool

inductive Action where
  | connect (key : OriginKey) (isHttps : Bool) (generation : UInt64) (now : Timespec) (chain : Nat)
  | take (key : OriginKey) (now : Timespec) (mem : Bool)
  | adopt (i : Nat) (chain : Nat)
  | offer (i : Nat) (now : Timespec) (engine : Bool) (mem : OfferMem)
  | teardown (i : Nat)
  | evictRemove (c : Nat) (mem : Bool)
  | evictFree (i : Nat)
  | evictCount (i : Nat)
  | setTls
  | destroy
  | destroyShutdown
  | destroyDrained

namespace World

def step (w : World) : Action → Option World
  | .connect key isHttps generation now chain =>
    some { w with
      ctxs := update w.ctxs w.made (some ⟨key, isHttps, generation, now, some chain, false, false⟩)
      made := w.made + 1
      hops := w.made :: w.hops }
  | .take key now mem => do
    let (cli, ctxs, found) ← asyncIdlePoolTake w.cli w.ctxs key now mem
    some { w with cli := cli, ctxs := ctxs, hops := found.toList ++ w.hops }
  -- The fields that a taker sets under the lock of the context.
  | .adopt i chain => do
    let c ← w.hops[i]?
    let x ← w.ctxs c
    some { w with ctxs := update w.ctxs c (some { x with chain := some chain, idle := false }) }
  | .offer i now engine mem => do
    let c ← w.hops[i]?
    let x ← w.ctxs c
    match asyncIdlePoolOffer w.cli w.ctxs c x now engine mem with
    | (cli, ctxs, .untouched) => some { w with cli := cli, ctxs := ctxs }
    | (cli, ctxs, _) => some { w with cli := cli, ctxs := ctxs, hops := w.hops.eraseIdx i }
  | .teardown i => do
    let c ← w.hops[i]?
    some { w with ctxs := update w.ctxs c none, hops := w.hops.eraseIdx i }
  | .evictRemove c mem => do
    let x ← w.ctxs c
    match asyncIdleRemoveLocked w.cli c x mem with
    | (cli, false) => some { w with cli := cli }
    | (cli, true) => some { w with cli := cli, evictions := ⟨c, false⟩ :: w.evictions, evicted := c :: w.evicted }
  | .evictFree i =>
    match w.evictions[i]? with
    | some ⟨c, false⟩ =>
      some { w with
        ctxs := update w.ctxs c none
        evictions := ⟨c, true⟩ :: w.evictions.eraseIdx i }
    | _ => none
  | .evictCount i =>
    match w.evictions[i]? with
    | some ⟨_, true⟩ => some { w with cli := asyncIdleCountDecLocked w.cli, evictions := w.evictions.eraseIdx i }
    | _ => none
  | .setTls => some { w with cli := { w.cli with tlsGeneration := w.cli.tlsGeneration + 1 } }
  | .destroy => some { w with cli := { w.cli with destroying := true } }
  | .destroyShutdown =>
    some { w with
      ctxs := fun c => if c ∈ pooled w.cli.idlePoolsAsync then (w.ctxs c).map ({ · with shut := true }) else w.ctxs c }
  | .destroyDrained =>
    if w.cli.destroying ∧ w.cli.idleTotalCountAsync = 0 then some { w with drained := true } else none

def start : World := ⟨⟨∅, 0, 0, false⟩, fun _ => none, 0, [], [], [], false⟩

def Step (w w' : World) : Prop := ∃ a, w.step a = some w'

def Reachable : World → Prop := Relation.ReflTransGen Step start

end World

end Ccollections.Chttpclient.AsyncIdlePool
