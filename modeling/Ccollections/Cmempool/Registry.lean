import Ccollections.Cmempool.Addressing
import Ccollections.Lib.LinearProbe

/-!
# The registry of live dynamic entries

A table of addresses with linear probing. A slot that holds 0 is empty. A loop that is not over after a full turn of
the table never ends, and gives nothing here.
-/

namespace Ccollections.Cmempool

def mpDynamicSetMinCapacity : Nat := 16

def mpAddrBits : Nat := 64

def mpAddrHashMul : Nat := 0x9E3779B97F4A7C15

/-- The block of `dynamic_entries`: the word in front of its first slot, and its slots. -/
structure DynamicTable where
  shift : Nat
  slots : Nat → Nat

namespace DynamicTable

variable (table : DynamicTable)

def home (key : Nat) : Nat := sizeMul key mpAddrHashMul >>> table.shift

def capacity : Nat := 2 ^ (mpAddrBits - table.shift)

def mask : Nat := table.capacity - 1

def setSlot (i key : Nat) : DynamicTable := { table with slots := Function.update table.slots i key }

/-- The loop of `mp_dynamic_set_place`. -/
def placeLoop : Nat → Nat → Option Nat
  | 0, _ => none
  | fuel + 1, i => if table.slots i ≠ 0 then placeLoop fuel ((i + 1) &&& table.mask) else some i

def place (key : Nat) : Option DynamicTable :=
  (table.placeLoop table.capacity (table.home key)).map fun i => table.setSlot i key

/-- The loop of `mp_dynamic_set_find_locked`. -/
def findLoop (key : Nat) : Nat → Nat → Option Nat
  | 0, _ => none
  | fuel + 1, i =>
    let k := table.slots i
    if k = key then some i
    else if k = 0 then some table.capacity
    else findLoop key fuel ((i + 1) &&& table.mask)

/-- The loop of a grown table, which places the entries of the old one from slot `i` on. -/
def placeAll (old : DynamicTable) : Nat → Nat → DynamicTable → Option DynamicTable
  | 0, _, fresh => some fresh
  | left + 1, i, fresh =>
    if old.slots i ≠ 0 then
      match fresh.place (old.slots i) with
      | none => none
      | some fresh => placeAll old left (i + 1) fresh
    else placeAll old left (i + 1) fresh

/-- The loop of the backward shift, with the hole at `i`. -/
def shiftLoop : Nat → Nat → Nat → DynamicTable → Option DynamicTable
  | 0, _, _, _ => none
  | fuel + 1, i, j, table =>
    let k := table.slots j
    if k = 0 then some (table.setSlot i 0)
    else if sizeSub j (table.home k) &&& table.mask ≥ sizeSub j i &&& table.mask then
      shiftLoop fuel j ((j + 1) &&& table.mask) (table.setSlot i k)
    else shiftLoop fuel i ((j + 1) &&& table.mask) table

end DynamicTable

/-- What `struct cmempool` has of the registry. -/
structure Registry where
  dynamicEntries : Option DynamicTable
  activeDynamicMemoryBufferCount : Nat

namespace Registry

variable (mp : Registry)

def empty : Registry := ⟨none, 0⟩

def capacity : Nat :=
  match mp.dynamicEntries with
  | none => 0
  | some table => table.capacity

def findLocked (key : Nat) : Option Nat :=
  match mp.dynamicEntries with
  | none => some 0
  | some table => table.findLoop key table.capacity (table.home key)

def containsLocked (key : Nat) : Option Bool := (mp.findLocked key).map fun i => i ≠ mp.capacity

/-- The grown table of `mp_dynamic_set_insert_locked`, without the new key. -/
def grow : Option DynamicTable :=
  match mp.dynamicEntries with
  | none => some ⟨mpAddrBits - Nat.log2 mpDynamicSetMinCapacity, fun _ => 0⟩
  | some old => old.placeAll old.capacity 0 ⟨old.shift - 1, fun _ => 0⟩

/-- `mp_dynamic_set_insert_locked`. `granted` says whether a larger table can be had. -/
def insertLocked (key : Nat) (granted : Bool) : Option (Registry × Bool) :=
  let live := mp.activeDynamicMemoryBufferCount
  let oldCap := mp.capacity
  if sizeMul (sizeAdd live 1) 2 > oldCap then
    if oldCap > sizeMax / 4 / 8 then some (mp, false)
    else if !granted then some (mp, false)
    else
      match mp.grow with
      | none => none
      | some table =>
        match table.place key with
        | none => none
        | some table => some ({ mp with dynamicEntries := some table }, true)
  else
    match mp.dynamicEntries with
    -- A table of no slots has no room, so there is a table here.
    | none => none
    | some table =>
      match table.place key with
      | none => none
      | some table => some ({ mp with dynamicEntries := some table }, true)

def removeLocked (key : Nat) : Option (Registry × Bool) :=
  match mp.findLocked key with
  | none => none
  | some i =>
    if i = mp.capacity then some (mp, false)
    else
      match mp.dynamicEntries with
      | none => some (mp, false)
      | some table =>
        match table.shiftLoop table.capacity i ((i + 1) &&& table.mask) with
        | none => none
        | some table => some ({ mp with dynamicEntries := some table }, true)

def setCount (count : Nat) : Registry := { mp with activeDynamicMemoryBufferCount := count }

end Registry

/-! ## The callers -/

def dynamicEntryPrefixSize : Nat := cmempoolAlignUp 16

def elemIsNotAPoolMember : Nat := 0xfadefacefadeface

structure DynamicHeader where
  userSize : Nat
  elemStatus : Nat
  deriving DecidableEq

/-- A pool with its dynamic entries. `headers` is what their headers hold, and `headerReads` where a free has read one.
-/
structure DynamicPool where
  block : PoolBlock
  mp : Mempool
  registry : Registry
  headers : Nat → Option DynamicHeader
  headerReads : List Nat

namespace DynamicPool

variable (p : DynamicPool)

/-- `mempool_alloc_dynamic_locked`. The allocator gives the raw block, if it does, and the larger table. -/
def allocDynamicLocked (userSize : Nat) (rawBlock : Option Nat) (granted : Bool) : Option (DynamicPool × Option Nat) :=
  if userSize > sizeMax - dynamicEntryPrefixSize then some (p, none)
  else
    match rawBlock with
    | none => some (p, none)
    | some rawBlock =>
      let result := rawBlock + dynamicEntryPrefixSize
      match p.registry.insertLocked result granted with
      | none => none
      | some (registry, false) => some ({ p with registry := registry }, none)
      | some (registry, true) =>
        some ({ p with
          registry := registry.setCount (sizeAdd registry.activeDynamicMemoryBufferCount 1)
          headers := Function.update p.headers result (some ⟨userSize, elemIsNotAPoolMember⟩) }, some result)

/-- `mempool_release_dynamic_locked`. The header is marked, and its block goes back to the allocator. -/
def releaseDynamicLocked (entry : Nat) : DynamicPool :=
  { p with
    registry := p.registry.setCount (sizeSub p.registry.activeDynamicMemoryBufferCount 1)
    headers := Function.update p.headers entry none
    headerReads := entry :: p.headerReads }

/-- How a free ends. -/
inductive FreeResult where
  | returned (p : DynamicPool)
  | released (p : DynamicPool)
  | asserted (p : DynamicPool)

/-- `mempool_free_body` for an address that is not NULL. -/
def freeBody (cEntry : Nat) : Option FreeResult :=
  if p.block.validMempoolAddr cEntry then
    match p.mp.returnEntry (p.block.entryIndex cEntry) with
    | none => some (.asserted p)
    | some mp => some (.returned { p with mp := mp })
  else if !p.block.fallbackToDynamicMemory || p.registry.activeDynamicMemoryBufferCount = 0 then some (.asserted p)
  else
    match p.registry.removeLocked cEntry with
    | none => none
    | some (registry, false) => some (.asserted { p with registry := registry })
    | some (registry, true) => some (.released (DynamicPool.releaseDynamicLocked { p with registry := registry } cEntry))

end DynamicPool

end Ccollections.Cmempool
