import Ccollections.Chashmap.Hashing
import Ccollections.Lib.Maps
import Ccollections.Lib.Runs

/-!
# The segments of clrucache

One step is one section of code under the lock of a segment, and the calls in progress take their steps in any order. The
map of a segment is a finite map from the keys, as the map counts them, to entries. An entry is a cell of the segment's
heap; a freed cell is `none`, and a step that touches one has no result.
-/

namespace Ccollections.Clrucache

open Chashmap Lib

/-! ## Keys and segments -/

def ccacheMaxShards : Nat := 16

def ccacheMinEntriesPerShard : Nat := 64

def shardCountFor (capacity : Nat) : Nat :=
  let n := capacity / ccacheMinEntriesPerShard
  let n := if n > ccacheMaxShards then ccacheMaxShards else n
  if n = 0 then 1 else n

def ccacheReduce (h : UInt64) (shardCount : Nat) : Nat :=
  let h := h ^^^ (h >>> 33)
  let h := h * 0xff51afd7ed558ccd
  let h := h ^^^ (h >>> 33)
  let h := h * 0xc4ceb9fe1a85ec53
  let h := h ^^^ (h >>> 33)
  h.toNat % shardCount

/-- What a cache is created with: its keys, their comparison and hash, and its remote procedures. -/
structure CacheProcs where
  keyType : DataType
  longDoubleKeysEqual : List UInt8 → List UInt8 → Bool
  hashKey : List UInt8 → UInt64
  remoteGetter : Bool
  remoteSetter : Bool

def CacheProcs.keysEqual (procs : CacheProcs) (a b : List UInt8) : Bool :=
  if a.length ≠ b.length then false
  else if procs.keyType = .longDouble then procs.longDoubleKeysEqual a b
  else canonicalizeKeyPairIfNeeded procs.keyType a = canonicalizeKeyPairIfNeeded procs.keyType b

/-- Long doubles are compared by an equivalence, and the hash agrees with the key identity. -/
structure CacheParams extends CacheProcs where
  refl : ∀ a, longDoubleKeysEqual a a = true
  symm : ∀ a b, longDoubleKeysEqual a b = true → longDoubleKeysEqual b a = true
  trans : ∀ a b c, longDoubleKeysEqual a b = true → longDoubleKeysEqual b c = true → longDoubleKeysEqual a c = true
  agrees : ∀ a b, toCacheProcs.keysEqual a b = true → hashKey a = hashKey b

def CacheProcs.shardFor (procs : CacheProcs) (shardCount : Nat) (key : List UInt8) : Option Nat :=
  if fixedWidthDataTypeSize procs.keyType ≠ 0 ∧ key.length ≠ fixedWidthDataTypeSize procs.keyType then none
  else if shardCount = 1 then some 0
  else some (ccacheReduce (procs.hashKey key) shardCount)

/-- The capacities of the segments `clrucache_create_full` makes. -/
def segmentCapacities (capacity : Nat) : List Nat :=
  let base := capacity / shardCountFor capacity
  let extra := capacity % shardCountFor capacity
  (List.range (shardCountFor capacity)).map fun i => base + (if i < extra then 1 else 0)

/-! ## Entries -/

/-- A `ccache_entry`. It is in the eviction order when the list of its segment has it. -/
structure Entry where
  key : List UInt8
  value : Option (List UInt8)
  fetchInProgress : Bool
  setInProgress : Bool
  evicted : Bool
  fetchSizeMismatch : Bool
  fetchFailed : Bool
  waiters : Nat

structure Shard where
  map : List (List UInt8 × Nat)
  /-- The eviction order, most recently used first. -/
  lru : List Nat
  capacity : Nat
  size : Nat
  entries : Nat → Option Entry
  /-- The cells from here on were never given out. -/
  nextEntry : Nat

def Shard.create (capacity : Nat) : Shard where
  map := []
  lru := []
  capacity := capacity
  size := 0
  entries := fun _ => none
  nextEntry := 0

def Shard.setEntry (sh : Shard) (e : Nat) (entry : Entry) : Shard :=
  { sh with entries := Function.update sh.entries e (some entry) }

def Shard.entryFree (sh : Shard) (e : Nat) : Shard := { sh with entries := Function.update sh.entries e none }

def Shard.releaseEntry (sh : Shard) (e : Nat) (entry : Entry) : Shard :=
  if entry.evicted && entry.waiters = 0 then sh.entryFree e else sh.setEntry e entry

def Shard.deleteElem (procs : CacheProcs) (sh : Shard) (key : List UInt8) : Shard :=
  { sh with map := OrderedMap.erase procs.keysEqual sh.map key }

def Shard.mapLookup (procs : CacheProcs) (sh : Shard) (key : List UInt8) : Option Nat :=
  (OrderedMap.lookup procs.keysEqual sh.map key).map Prod.snd

/-- How an insert into a map fails. -/
inductive UpsertFailure where
  | notEnoughMemory
  | containerFull

def UpsertFailure.retVal : UpsertFailure → RetVal
  | .notEnoughMemory => .notEnoughMemory
  | .containerFull => .containerFull

def Shard.mapUpsert (procs : CacheProcs) (sh : Shard) (key : List UInt8) (e : Nat) (failure : Option UpsertFailure) :
    Shard × RetVal :=
  match failure with
  | some f => (sh, f.retVal)
  | none =>
    if (OrderedMap.lookup procs.keysEqual sh.map key).isSome then
      ({ sh with map := OrderedMap.update procs.keysEqual sh.map key e }, .keyAlreadyPresent)
    else ({ sh with map := sh.map ++ [(key, e)] }, .success)

def Shard.lruMoveToFront (sh : Shard) (e : Nat) : Shard := { sh with lru := e :: sh.lru.erase e }

def Shard.lruInsert (sh : Shard) (e : Nat) : Shard := { sh with lru := e :: sh.lru, size := sh.size + 1 }

def Shard.evictLru (procs : CacheProcs) (sh : Shard) : Option (Shard × Bool) :=
  match sh.lru.getLast? with
  | none => some (sh, false)
  | some victim =>
    (sh.entries victim).map fun entry =>
      let sh := { sh with lru := sh.lru.erase victim, size := sh.size - 1 }
      if entry.setInProgress then (sh.setEntry victim { entry with value := none }, true)
      else ((sh.deleteElem procs entry.key).releaseEntry victim { entry with evicted := true }, true)

/-- The loop of `make_room`, with a bound on its rounds. -/
def Shard.makeRoomLoop (procs : CacheProcs) : Nat → Shard → Option Shard
  | 0, _ => none
  | n + 1, sh =>
    if sh.size ≥ sh.capacity then
      (sh.evictLru procs).bind fun r => if r.2 then Shard.makeRoomLoop procs n r.1 else some r.1
    else some sh

def Shard.makeRoom (procs : CacheProcs) (sh : Shard) : Option Shard := sh.makeRoomLoop procs (sh.lru.length + 1)

/-! ## Calls -/

/-- What a call asks for. `__clrucache_get_into` has the size of its buffer. -/
inductive Request where
  | get (bufSize : Option Nat)
  | set (value : List UInt8)

/-- Where a call in progress is: before its lookup, in the remote procedure of an entry, or waiting on one. -/
inductive Pc where
  | again
  | remote (e : Nat)
  | waiting (e : Nat)

structure Call where
  shard : Nat
  key : List UInt8
  request : Request
  pc : Pc

/-- What the allocations, the map and the remote procedure answer in a section. -/
structure Answers where
  entryAlloc : Bool
  keyAlloc : Bool
  copyAlloc : Bool
  upsert : Option UpsertFailure
  fetched : Option (List UInt8)
  stored : Bool

/-- A section ends with a result and the value that is given back, or the call goes on. -/
inductive Outcome where
  | done (ret : RetVal) (value : Option (List UInt8))
  | goes (pc : Pc)

/-- A new entry in the map, for `entry_alloc`, the copy of the key and `map_upsert`. -/
def Shard.insertEntry (procs : CacheProcs) (sh : Shard) (key : List UInt8) (entry : Entry) (answers : Answers) :
    Except RetVal (Shard × Nat) :=
  if !answers.entryAlloc || !answers.keyAlloc then .error .notEnoughMemory
  else
    let e := sh.nextEntry
    match sh.mapUpsert procs key e answers.upsert with
    | (sh, ret) =>
      if ret ≠ .success ∧ ret ≠ .keyAlreadyPresent then .error ret
      else .ok ({ sh with nextEntry := sh.nextEntry + 1 }.setEntry e entry, e)

def Entry.placeholder (key : List UInt8) (fetchInProgress : Bool) (waiters : Nat) : Entry where
  key := key
  value := none
  fetchInProgress := fetchInProgress
  setInProgress := false
  evicted := false
  fetchSizeMismatch := false
  fetchFailed := false
  waiters := waiters

def Entry.inProgress (entry : Entry) : Bool := entry.fetchInProgress || entry.setInProgress

/-- The end of a get that found a value, in `clrucache_get_full_locked` and `clrucache_get_into_locked`. -/
def Shard.getServe (sh : Shard) (e : Nat) (entry : Entry) (bufSize : Option Nat) (answers : Answers) :
    Option (Shard × Outcome) :=
  entry.value.map fun value =>
    let failure : Option RetVal := match bufSize with
      | none => if answers.copyAlloc then none else some .notEnoughMemory
      | some n => if value.length = n then none else some .unexpectedFailure
    match failure with
    | some ret => (sh.releaseEntry e entry, .done ret none)
    | none =>
      let sh := if entry.evicted then sh else sh.lruMoveToFront e
      (sh.releaseEntry e entry, .done .success (some value))

def Shard.getLocked (procs : CacheProcs) (sh : Shard) (key : List UInt8) (bufSize : Option Nat) (answers : Answers) :
    Option (Shard × Outcome) :=
  match sh.mapLookup procs key with
  | none =>
    if !procs.remoteGetter then some (sh, .done .keyNotFound none)
    else
      match sh.insertEntry procs key (.placeholder key true 1) answers with
      | .error ret => some (sh, .done ret none)
      | .ok (sh, e) => some (sh, .goes (.remote e))
  | some e =>
    (sh.entries e).bind fun entry =>
      if entry.inProgress then some (sh.setEntry e { entry with waiters := entry.waiters + 1 }, .goes (.waiting e))
      else sh.getServe e entry bufSize answers

def Shard.fetchFail (procs : CacheProcs) (sh : Shard) (e : Nat) (entry : Entry) (mismatch : Bool) (ret : RetVal) :
    Shard × Outcome :=
  ((sh.deleteElem procs entry.key).releaseEntry e
    { entry with evicted := true, fetchFailed := true, fetchSizeMismatch := entry.fetchSizeMismatch || mismatch },
    .done ret none)

def Shard.getFetched (procs : CacheProcs) (sh : Shard) (e : Nat) (bufSize : Option Nat) (answers : Answers) :
    Option (Shard × Outcome) :=
  (sh.entries e).bind fun entry =>
    let entry := { entry with waiters := entry.waiters - 1, fetchInProgress := false }
    match answers.fetched with
    | none => some (sh.fetchFail procs e entry false .keyNotFound)
    | some value =>
      if value = [] then some (sh.fetchFail procs e entry false .keyNotFound)
      else if bufSize.any fun n => value.length ≠ n then some (sh.fetchFail procs e entry true .unexpectedFailure)
      else
        ((sh.setEntry e entry).makeRoom procs).bind fun sh =>
          (sh.entries e).map fun entry =>
            let sh := (sh.setEntry e { entry with value := some value }).lruInsert e
            if bufSize.isNone && !answers.copyAlloc then (sh, .done .notEnoughMemory none)
            else (sh, .done .success (some value))

def Shard.getWake (procs : CacheProcs) (sh : Shard) (e : Nat) (key : List UInt8) (bufSize : Option Nat)
    (answers : Answers) : Option (Shard × Outcome) :=
  (sh.entries e).bind fun entry =>
    if entry.inProgress then some (sh, .goes (.waiting e))
    else
      let entry := { entry with waiters := entry.waiters - 1 }
      if entry.value.isSome then sh.getServe e entry bufSize answers
      else if entry.fetchFailed then
        let ret := if entry.fetchSizeMismatch then .unexpectedFailure else .keyNotFound
        some (sh.releaseEntry e entry, .done ret none)
      else if entry.evicted && entry.waiters = 0 then some (sh.entryFree e, .goes .again)
      else (sh.setEntry e entry).getLocked procs key bufSize answers

def Shard.setFinish (procs : CacheProcs) (sh : Shard) (e : Nat) (value : List UInt8) (remoteOk : Bool) :
    Option (Shard × Outcome) :=
  (sh.entries e).bind fun entry =>
    if remoteOk then
      let stored := sh.setEntry e { entry with value := some value }
      let placed := if e ∈ sh.lru then some (stored.lruMoveToFront e) else (stored.makeRoom procs).map fun sh => sh.lruInsert e
      placed.bind fun sh =>
        (sh.entries e).map fun entry => (sh.releaseEntry e { entry with setInProgress := false }, .done .success none)
    else if e ∈ sh.lru then
      some (sh.releaseEntry e { entry with setInProgress := false }, .done .unexpectedFailure none)
    else
      some ((sh.deleteElem procs entry.key).releaseEntry e { entry with evicted := true, setInProgress := false },
        .done .unexpectedFailure none)

def Shard.setOwn (procs : CacheProcs) (sh : Shard) (e : Nat) (entry : Entry) (value : List UInt8) :
    Option (Shard × Outcome) :=
  if procs.remoteSetter then
    some (sh.setEntry e { entry with setInProgress := true, waiters := entry.waiters + 1 }, .goes (.remote e))
  else (sh.setEntry e { entry with setInProgress := true }).setFinish procs e value true

def Shard.setLocked (procs : CacheProcs) (sh : Shard) (key : List UInt8) (value : List UInt8) (answers : Answers) :
    Option (Shard × Outcome) :=
  match sh.mapLookup procs key with
  | none =>
    match sh.insertEntry procs key (.placeholder key false 0) answers with
    | .error ret => some (sh, .done ret none)
    | .ok (sh, e) => (sh.entries e).bind fun entry => sh.setOwn procs e entry value
  | some e =>
    (sh.entries e).bind fun entry =>
      if entry.inProgress then some (sh.setEntry e { entry with waiters := entry.waiters + 1 }, .goes (.waiting e))
      else sh.setOwn procs e entry value

def Shard.setStored (procs : CacheProcs) (sh : Shard) (e : Nat) (value : List UInt8) (answers : Answers) :
    Option (Shard × Outcome) :=
  (sh.entries e).bind fun entry =>
    (sh.setEntry e { entry with waiters := entry.waiters - 1 }).setFinish procs e value answers.stored

def Shard.setWake (procs : CacheProcs) (sh : Shard) (e : Nat) (key : List UInt8) (value : List UInt8) (answers : Answers) :
    Option (Shard × Outcome) :=
  (sh.entries e).bind fun entry =>
    if entry.inProgress then some (sh, .goes (.waiting e))
    else
      let entry := { entry with waiters := entry.waiters - 1 }
      if !entry.evicted then sh.setOwn procs e entry value
      else if entry.waiters = 0 then some (sh.entryFree e, .goes .again)
      else (sh.setEntry e entry).setLocked procs key value answers

def Shard.advance (procs : CacheProcs) (sh : Shard) (call : Call) (answers : Answers) : Option (Shard × Outcome) :=
  match call.request, call.pc with
  | .get bufSize, .again => sh.getLocked procs call.key bufSize answers
  | .get bufSize, .remote e => sh.getFetched procs e bufSize answers
  | .get bufSize, .waiting e => sh.getWake procs e call.key bufSize answers
  | .set value, .again => sh.setLocked procs call.key value answers
  | .set value, .remote e => sh.setStored procs e value answers
  | .set value, .waiting e => sh.setWake procs e call.key value answers

/-! ## The cache -/

structure Cache where
  shards : List Shard
  calls : List Call

/-- `clrucache_create_full`, when every allocation succeeds. -/
def Cache.create (capacity : Nat) : Cache where
  shards := (segmentCapacities capacity).map Shard.create
  calls := []

def Request.argsOk (key : List UInt8) : Request → Bool
  | .get bufSize => key ≠ [] && bufSize ≠ some 0
  | .set value => key ≠ [] && value ≠ []

inductive Act where
  | call (key : List UInt8) (request : Request) (answers : Answers)
  | go (i : Nat) (answers : Answers)

/-- A call takes a section; `rest` are the other calls in progress. -/
def Cache.advance (procs : CacheProcs) (s : Cache) (call : Call) (rest : List Call) (answers : Answers) :
    Option (Cache × Option (RetVal × Option (List UInt8))) := do
  let sh ← s.shards[call.shard]?
  let (sh, outcome) ← sh.advance procs call answers
  let shards := s.shards.set call.shard sh
  match outcome with
  | .done ret value => some ({ shards := shards, calls := rest }, some (ret, value))
  | .goes pc => some ({ shards := shards, calls := { call with pc := pc } :: rest }, none)

def Cache.step (procs : CacheProcs) (s : Cache) : Act → Option (Cache × Option (RetVal × Option (List UInt8)))
  | .call key request answers =>
    if !request.argsOk key then some (s, some (.invalidArgs, none))
    else
      match procs.shardFor s.shards.length key, request with
      | none, _ => some (s, some (.invalidArgs, none))
      | some i, .get bufSize => s.advance procs ⟨i, key, .get bufSize, .again⟩ s.calls answers
      | some i, .set value =>
        -- the copy of the new value is made before the lock is taken
        if !answers.copyAlloc then some (s, some (.notEnoughMemory, none))
        else s.advance procs ⟨i, key, .set value, .again⟩ s.calls answers
  | .go i answers => do
    let call ← s.calls[i]?
    s.advance procs call (s.calls.eraseIdx i) answers

end Ccollections.Clrucache
