import Ccollections.Common.Basic
import Mathlib.Logic.Function.Basic

/-!
# The pool and its magazines

An entry of the block of a pool stands for its ordinal. A thread has at most one magazine of a pool, so a magazine
stands under the thread that owns it.
-/

namespace Ccollections.Cmempool

open Function

/-- `ccol_mp_magazine`. The slot that was filled last comes first. -/
structure Magazine where
  slots : List Nat
  capacity : Nat
  nextInPool : Option Nat
  prevInPool : Option Nat

/-- `struct cmempool`. `links` is the first word of each entry, `taken` the status array, `dynamicEntries` the live
dynamic entries. -/
structure Mempool where
  maxMagazines : Nat
  magazineCapacity : Nat
  freeInst : Option Nat
  freeElemCount : Nat
  shouldUseLocks : Bool
  fallbackToDynamicMemory : Bool
  advertisedElemCount : Nat
  totalElemCount : Nat
  liveMagazines : Nat
  magazines : Option Nat
  mags : Nat → Option Magazine
  links : Nat → Option Nat
  taken : Nat → Bool
  dynamicEntries : List Nat

/-! ## Construction -/

def ccolMpMagazineLimit : Nat := 16

def ccolMpCapacityMax : Nat := 128

def ccolMpMinCachedPool : Nat := 8

def ccolMpReserveDivisor : Nat := 2

/-- The most magazines a pool hands out, what each of them holds, and what they hold together. -/
structure CacheGeometry where
  maxMagazines : Nat
  capacity : Nat
  reserve : Nat
  deriving DecidableEq

def mempoolCacheGeometry (elemCount : Nat) : CacheGeometry :=
  if elemCount < ccolMpMinCachedPool then ⟨0, 0, 0⟩
  else
    let mags := elemCount / ccolMpMinCachedPool
    let mags := if mags > ccolMpMagazineLimit then ccolMpMagazineLimit else mags
    let mags := if mags = 0 then 1 else mags
    let cap := elemCount / (ccolMpReserveDivisor * mags)
    let cap := if cap > ccolMpCapacityMax then ccolMpCapacityMax else cap
    let cap := if cap = 0 then 1 else cap
    if mags > sizeMax / cap then ⟨0, 0, 0⟩
    else
      let r := mags * cap
      if r > sizeMax - elemCount then ⟨0, 0, 0⟩ else ⟨mags, cap, r⟩

/-- `cmempool_create_mp`, once its arguments and its allocations are fine. -/
def cmempoolCreate (elemCount : Nat) (fallback singleThreaded keepsCache : Bool) : Option Mempool :=
  if elemCount = 0 then none
  else
    let geometry := if !singleThreaded && keepsCache then mempoolCacheGeometry elemCount else ⟨0, 0, 0⟩
    let slotCount := elemCount + geometry.reserve
    some
      { maxMagazines := geometry.maxMagazines
        magazineCapacity := geometry.capacity
        freeInst := some 0
        freeElemCount := slotCount
        shouldUseLocks := !singleThreaded
        fallbackToDynamicMemory := fallback
        advertisedElemCount := elemCount
        totalElemCount := slotCount
        liveMagazines := 0
        magazines := none
        mags := fun _ => none
        links := fun i => if i = slotCount - 1 then none else some (i + 1)
        taken := fun _ => false
        dynamicEntries := [] }

namespace Mempool

variable (mp : Mempool) (t : Nat)

def hasCache : Bool := mp.maxMagazines ≠ 0

/-- `valid_mempool_addr` of an entry that is named by its ordinal. -/
def validMempoolAddr (i : Nat) : Bool := i < mp.totalElemCount

def isFreeEntry (i : Nat) : Bool := mp.validMempoolAddr i && !mp.taken i

def slotsOf : List Nat := ((mp.mags t).map (·.slots)).getD []

def capacityOf : Nat := ((mp.mags t).map (·.capacity)).getD 0

def setMagazine (f : Magazine → Magazine) : Mempool := { mp with mags := update mp.mags t ((mp.mags t).map f) }

def setSlots (slots : List Nat) : Mempool := mp.setMagazine t fun mag => { mag with slots := slots }

def setTaken (i : Nat) (taken : Bool) : Mempool := { mp with taken := update mp.taken i taken }

def writeEntry (i : Nat) (word : Option Nat) : Mempool := { mp with links := update mp.links i word }

def dropFreeInst (entry : Nat) : Mempool :=
  { mp with freeInst := mp.links entry, freeElemCount := mp.freeElemCount - 1 }

def pushFreeInst (entry : Nat) : Mempool :=
  { mp with
    links := update mp.links entry mp.freeInst
    freeInst := some entry
    freeElemCount := mp.freeElemCount + 1 }

/-! ## Magazines -/

/-- The loop of `mempool_magazine_refill_locked`; nothing comes back from a corrupt free list. -/
def refillLoop : Nat → Mempool → Option Mempool
  | 0, mp => some mp
  | budget + 1, mp =>
    if (mp.slotsOf t).length < mp.capacityOf t then
      match mp.freeInst with
      | none => some mp
      | some entry =>
        if mp.isFreeEntry entry then
          refillLoop budget ((mp.dropFreeInst entry).setSlots t (entry :: mp.slotsOf t))
        else none
    else some mp

def magazineRefillLocked : Option Mempool :=
  let reserve := mp.totalElemCount - mp.advertisedElemCount
  if mp.freeElemCount ≤ reserve then some mp else refillLoop t (mp.freeElemCount - reserve) mp

def magazineFlushLocked : Nat → Mempool → Mempool
  | 0, mp => mp
  | howMany + 1, mp =>
    match mp.slotsOf t with
    | [] => mp
    | entry :: slots => magazineFlushLocked howMany ((mp.setSlots t slots).pushFreeInst entry)

/-- The critical section of `mempool_tls_magazine_create` when the pool has a magazine left. -/
def linkMagazine : Mempool :=
  let mags :=
    match mp.magazines with
    | some head => update mp.mags head ((mp.mags head).map fun mag => { mag with prevInPool := some t })
    | none => mp.mags
  { mp with
    liveMagazines := mp.liveMagazines + 1
    mags := update mags t (some ⟨[], mp.magazineCapacity, mp.magazines, none⟩)
    magazines := some t }

/-- `mempool_magazine_unlink_locked` and `mempool_magazine_free`. -/
def magazineUnlinkLocked : Mempool :=
  match mp.mags t with
  | none => mp
  | some mag =>
    let mp₁ :=
      match mag.prevInPool with
      | some prev => mp.setMagazine prev fun m => { m with nextInPool := mag.nextInPool }
      | none => { mp with magazines := mag.nextInPool }
    let mp₂ :=
      match mag.nextInPool with
      | some next => mp₁.setMagazine next fun m => { m with prevInPool := mag.prevInPool }
      | none => mp₁
    { mp₂ with liveMagazines := mp₂.liveMagazines - 1, mags := update mp₂.mags t none }

def popSlot (entry : Nat) (slots : List Nat) : Mempool := (mp.setSlots t slots).setTaken entry true

def pushSlot (entry : Nat) : Mempool := (mp.setTaken entry false).setSlots t (entry :: mp.slotsOf t)

/-! ## The free list -/

/-- The branch of `mempool_serve` that hands out the head of the free list. -/
def serveFreeInst : Option (Mempool × Nat) :=
  match mp.freeInst with
  | none => none
  | some entry => if mp.isFreeEntry entry then some ((mp.dropFreeInst entry).setTaken entry true, entry) else none

def returnEntry (i : Nat) : Option Mempool :=
  if mp.taken i then some ((mp.setTaken i false).pushFreeInst i) else none

end Mempool

end Ccollections.Cmempool
