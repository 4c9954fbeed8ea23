import Ccollections.Cmempool.Cmempool
import Ccollections.Lib.Reciprocal

/-!
# The addresses of a pool

An entry is named by its address here. The entries of a pool and then one status byte for each of them stand in one
block, or in one buffer of the caller.
-/

namespace Ccollections.Cmempool

/-- What `CMEMPOOL_COMPACT_LAYOUT` chooses between: strides that are powers of two, and the least strides. -/
inductive Layout where
  | powerOfTwo
  | compact
  deriving DecidableEq

/-! ## Strides and blocks -/

def cmempoolEntryAlign : Nat := 16

def cmempoolAlignUpFits (x : Nat) : Bool := x ≤ sizeMax - (cmempoolEntryAlign - 1)

def cmempoolAlignUp (x : Nat) : Nat :=
  sizeAdd x (cmempoolEntryAlign - 1) &&& (sizeMax - (cmempoolEntryAlign - 1))

/-- The loop of `mp_stride_for`. A stride has one of 64 bits. -/
def mpStrideLoop (base : Nat) : Nat → Nat → Nat
  | 0, stride => stride
  | fuel + 1, stride =>
    if stride < base then
      if stride > sizeMax / 2 then 0 else mpStrideLoop base fuel (sizeMul stride 2)
    else stride

def mpStrideFor (layout : Layout) (elemSize : Nat) : Nat :=
  let elemSize := if elemSize < 8 then 8 else elemSize
  if !cmempoolAlignUpFits elemSize then 0
  else
    let base := cmempoolAlignUp elemSize
    match layout with
    | .compact => base
    | .powerOfTwo => mpStrideLoop base 64 1

def mpBlockBytes (count stride : Nat) : Option Nat :=
  if count = 0 || stride > (sizeMax - count) / count then none else some (sizeAdd (sizeMul count stride) count)

def reciprocalAgreesAt (stride m s i : Nat) : Bool :=
  let offset := sizeMul i stride
  Lib.mulShift 64 s m offset == i && (i == 0 || Lib.mulShift 64 s m (sizeSub offset 1) == i - 1)

def mpBuildReciprocal (stride count : Nat) : Option (Nat × Nat) :=
  if stride = 0 || count = 0 then none
  else
    (List.range 64).findSome? fun s =>
      let candidate := Lib.reciprocal 64 s stride
      if candidate >>> 64 ≠ 0 then none
      else if (List.range (count + 1)).all (reciprocalAgreesAt stride candidate s) then some (candidate, s)
      else none

/-- The loop of `mp_log2_exact`. -/
def mpLog2Loop (v : Nat) : Nat → Nat → Nat
  | 0, r => r
  | fuel + 1, r => if 2 ^ r < v then mpLog2Loop v fuel (r + 1) else r

def mpLog2Exact (v : Nat) : Nat := mpLog2Loop v 64 0

/-! ## A pool and its addresses -/

/-- The fields of `struct cmempool` that place its entries, and those that a construction sets. -/
structure PoolBlock where
  layout : Layout
  objects : Nat
  isPreallocated : Bool
  shouldUseLocks : Bool
  fallbackToDynamicMemory : Bool
  maxMagazines : Nat
  magazineCapacity : Nat
  advertisedElemCount : Nat
  totalElemCount : Nat
  freeElemCount : Nat
  extendedElemSize : Nat
  entryShift : Nat
  entryIndexMagic : Nat
  entryIndexShift : Nat
  lowerAddrLimit : Nat
  upperAddrLimit : Nat
  deriving DecidableEq

namespace PoolBlock

variable (mp : PoolBlock)

def entryIndex (cEntry : Nat) : Nat :=
  let off := sizeSub cEntry mp.lowerAddrLimit
  match mp.layout with
  | .compact => Lib.mulShift 64 mp.entryIndexShift mp.entryIndexMagic off
  | .powerOfTwo => off >>> mp.entryShift

def validMempoolAddr (cEntry : Nat) : Bool :=
  if cEntry < mp.lowerAddrLimit || cEntry ≥ mp.upperAddrLimit then false
  else
    let off := sizeSub cEntry mp.lowerAddrLimit
    match mp.layout with
    | .compact => sizeMul (mp.entryIndex cEntry) mp.extendedElemSize == off
    | .powerOfTwo => (off &&& (mp.extendedElemSize - 1)) == 0

/-- The fields that `cmempool_init_internal_scalars` sets. It fails only for want of a reciprocal. -/
def initInternalScalars (elemCount extendedElemSize : Nat) (fallbackToDynamicMemory : Bool) : Option PoolBlock :=
  let mp := { mp with extendedElemSize := extendedElemSize }
  let placed (mp : PoolBlock) : PoolBlock :=
    { mp with
      totalElemCount := elemCount
      fallbackToDynamicMemory := fallbackToDynamicMemory
      lowerAddrLimit := mp.objects
      upperAddrLimit := sizeAdd mp.objects (sizeMul extendedElemSize elemCount)
      freeElemCount := elemCount }
  match mp.layout with
  | .compact =>
    match mpBuildReciprocal extendedElemSize elemCount with
    | none => none
    | some (magic, shift) => some (placed { mp with entryShift := 0, entryIndexMagic := magic, entryIndexShift := shift })
  | .powerOfTwo => some (placed { mp with entryShift := mpLog2Exact extendedElemSize })

end PoolBlock

/-! ## Construction -/

/-- What a construction meets outside: the memory procedures, the structure, the lock, the thread caches and the blocks.
-/
structure PoolSurroundings where
  verifyMemmgmtProcs : Option String
  structGranted : Bool
  populateMemMgmtProcs : Option String
  cacheAvailable : Bool
  calloc : Nat → Option Nat
  mutexInit : Bool
  calloc_fits : ∀ bytes base, calloc bytes = some base → base + bytes ≤ 2 ^ 64

def PoolBlock.zeroed (layout : Layout) : PoolBlock :=
  { layout := layout
    objects := 0
    isPreallocated := false
    shouldUseLocks := false
    fallbackToDynamicMemory := false
    maxMagazines := 0
    magazineCapacity := 0
    advertisedElemCount := 0
    totalElemCount := 0
    freeElemCount := 0
    extendedElemSize := 0
    entryShift := 0
    entryIndexMagic := 0
    entryIndexShift := 0
    lowerAddrLimit := 0
    upperAddrLimit := 0 }

/-- The block that `cmempool_create_mp` gets, and the geometry that is left. -/
def mempoolObjects (env : PoolSurroundings) (elemCount extendedElemSize askedBytes : Nat) (geometry : CacheGeometry) :
    Option (Nat × CacheGeometry) :=
  let dropped := (env.calloc askedBytes).map fun base => (base, ⟨0, 0, 0⟩)
  if geometry.reserve > 0 then
    match mpBlockBytes (sizeAdd elemCount geometry.reserve) extendedElemSize with
    | none => dropped
    | some slotBytes =>
      match env.calloc slotBytes with
      | none => dropped
      | some base => some (base, geometry)
  else (env.calloc askedBytes).map fun base => (base, geometry)

def cmempoolCreateMp (layout : Layout) (env : PoolSurroundings) (elemCount elemSize : Nat)
    (fallbackToDynamicMemory singleThreaded : Bool) : Except String PoolBlock :=
  if elemCount = 0 || elemSize = 0 then .error "elem_count or elem_size is zero"
  else if mpStrideFor layout elemSize = 0 then
    .error "elem_size is too large: the stride rounding would overflow size_t"
  else
    let elemSize := if elemSize < 8 then 8 else elemSize
    match env.verifyMemmgmtProcs with
    | some err => .error err
    | none =>
      if !env.structGranted then .error "failed to allocate memory pool struct"
      else
        match env.populateMemMgmtProcs with
        | some err => .error err
        | none =>
          let extendedElemSize := mpStrideFor layout elemSize
          if extendedElemSize = 0 then .error "elem_size is too large for a pool entry"
          else
            match mpBlockBytes elemCount extendedElemSize with
            | none =>
              .error "elem_count and elem_size are too large: the entries and their status bytes would overflow size_t"
            | some askedBytes =>
              let asked := if !singleThreaded && env.cacheAvailable then mempoolCacheGeometry elemCount else ⟨0, 0, 0⟩
              match mempoolObjects env elemCount extendedElemSize askedBytes asked with
              | none => .error "failed to allocate memory pool data area"
              | some (objects, geometry) =>
                if !singleThreaded && !env.mutexInit then .error "failed to initialize the mutex"
                else
                  let mp : PoolBlock :=
                    { PoolBlock.zeroed layout with
                      objects := objects
                      shouldUseLocks := !singleThreaded
                      maxMagazines := geometry.maxMagazines
                      magazineCapacity := geometry.capacity
                      advertisedElemCount := elemCount }
                  match mp.initInternalScalars (sizeAdd elemCount geometry.reserve) extendedElemSize
                      fallbackToDynamicMemory with
                  | none => .error "no verified reciprocal exists for this element size and count"
                  | some mp => .ok mp

def cmempoolCreateFromPreallocatedBufferMp (layout : Layout) (env : PoolSurroundings) (buffer : Option Nat)
    (bufSize elemSize : Nat) (fallbackToDynamicMemory singleThreaded : Bool) : Except String PoolBlock :=
  match buffer with
  | none => .error "buffer is not acceptable"
  | some buffer =>
    if buffer % cmempoolEntryAlign ≠ 0 then .error "buffer must be aligned to at least 16 bytes"
    else if elemSize = 0 then .error "elem_size is zero"
    else if mpStrideFor layout elemSize = 0 then
      .error "elem_size is too large: the stride rounding would overflow size_t"
    else
      let elemSize := if elemSize < 8 then 8 else elemSize
      let extendedElemSize := mpStrideFor layout elemSize
      let elemCount := bufSize / sizeAdd extendedElemSize 1
      if elemCount = 0 then .error "calculated elem_count is zero"
      else
        match env.verifyMemmgmtProcs with
        | some err => .error err
        | none =>
          if !env.structGranted then .error "failed to allocate cmempool struct"
          else
            match env.populateMemMgmtProcs with
            | some err => .error err
            | none =>
              if !singleThreaded && !env.mutexInit then .error "failed to init the rw lock"
              else
                let mp : PoolBlock :=
                  { PoolBlock.zeroed layout with
                    objects := buffer
                    isPreallocated := true
                    shouldUseLocks := !singleThreaded
                    advertisedElemCount := elemCount }
                match mp.initInternalScalars elemCount extendedElemSize fallbackToDynamicMemory with
                | none => .error "no verified reciprocal exists for this element size and count"
                | some mp => .ok mp

/-! ## A ranged pool in a buffer of the caller -/

inductive FallbackPolicy where
  | disabled
  | atFirstExhaustion
  | atLastExhaustion
  deriving DecidableEq

/-- The fields of `struct crmempool` that `assess_r_mempool_create_inputs` fills in. -/
structure RangedShape where
  shouldUseLocks : Bool
  smallestSize : Nat
  largestSize : Nat
  smallestElemCount : Nat
  smallestSizePowerOfTwo : Nat
  numberOfMempools : Nat
  fbPolicy : FallbackPolicy
  deriving DecidableEq

def minAllowedSmallestSize : Nat := 16

def maxAllowedLargestSize : Nat := ccolMaxPowerOfTwoSizeT

def assessRMempoolCreateInputs (smallestSizePowerOfTwo largestSizePowerOfTwo smallestElemCountPowerOfTwo : Nat)
    (fbPolicy : FallbackPolicy) (singleThreaded : Bool) : Except String RangedShape :=
  if smallestSizePowerOfTwo = 0 || largestSizePowerOfTwo = 0 || smallestElemCountPowerOfTwo = 0 then
    .error "zero sizes are not acceptable"
  else if largestSizePowerOfTwo ≥ 64 || smallestSizePowerOfTwo ≥ 64 || smallestElemCountPowerOfTwo ≥ 64 then
    .error "power of two exceeds size_t width"
  else if largestSizePowerOfTwo ≤ smallestSizePowerOfTwo ||
      smallestElemCountPowerOfTwo < largestSizePowerOfTwo - smallestSizePowerOfTwo then
    .error "inconsistent sizes are not acceptable"
  else
    let smallestSize := 2 ^ smallestSizePowerOfTwo
    let largestSize := 2 ^ largestSizePowerOfTwo
    if largestSize > maxAllowedLargestSize || smallestSize < minAllowedSmallestSize then
      .error "sizes beyond limits are not acceptable"
    else
      .ok
        { shouldUseLocks := !singleThreaded
          smallestSize := smallestSize
          largestSize := largestSize
          smallestElemCount := 2 ^ smallestElemCountPowerOfTwo
          smallestSizePowerOfTwo := smallestSizePowerOfTwo
          numberOfMempools := largestSizePowerOfTwo - smallestSizePowerOfTwo + 1
          fbPolicy := fbPolicy }

/-- The first loop of `init_preallocated_r_mempool_internal_pools`, over the tiers that are left. -/
def expectedSizeLoop (layout : Layout) : Nat → Nat → Nat → Nat → Option Nat
  | 0, _, _, expectedSize => some expectedSize
  | tiers + 1, esize, ecount, expectedSize =>
    if mpStrideFor layout esize = 0 then none
    else
      let elemExtendedSize := mpStrideFor layout esize
      if !cmempoolAlignUpFits ecount then none
      else
        let statusBytes := cmempoolAlignUp ecount
        if ecount ≠ 0 && elemExtendedSize > (sizeMax - statusBytes) / ecount then none
        else
          let term := sizeAdd (sizeMul ecount elemExtendedSize) statusBytes
          if expectedSize > sizeMax - term then none
          else expectedSizeLoop layout tiers (sizeMul esize 2) (ecount / 2) (sizeAdd expectedSize term)

def subBufferSize (layout : Layout) (esize ecount : Nat) : Nat :=
  sizeAdd (sizeMul ecount (mpStrideFor layout esize)) (cmempoolAlignUp ecount)

/-- The second loop of `init_preallocated_r_mempool_internal_pools`. The tiers meet `env index`, `env (index + 1)` and
so on. -/
def carveLoop (layout : Layout) (env : Nat → PoolSurroundings) (shape : RangedShape) (buffer : Nat) :
    Nat → Nat → Nat → Nat → Nat → Except String (List PoolBlock)
  | 0, _, _, _, _ => .ok []
  | tiers + 1, index, esize, ecount, cumulativeSize =>
    let size := subBufferSize layout esize ecount
    match cmempoolCreateFromPreallocatedBufferMp layout (env index) (some (sizeAdd buffer cumulativeSize)) size esize
        (shape.fbPolicy == .atFirstExhaustion) (!shape.shouldUseLocks) with
    | .error err => .error err
    | .ok mp =>
      match carveLoop layout env shape buffer tiers (index + 1) (sizeMul esize 2) (ecount / 2)
          (sizeAdd cumulativeSize size) with
      | .error err => .error err
      | .ok mps => .ok (mp :: mps)

/-- What the construction of a ranged pool meets outside. `tier` is what its pools meet. -/
structure RangedSurroundings where
  verifyMemmgmtProcs : Option String
  structGranted : Bool
  populateMemMgmtProcs : Option String
  pseudoMutexInit : Bool
  memPoolsGranted : Bool
  tier : Nat → PoolSurroundings

/-- `init_r_mempool_pseudo_pool` needs a lock of its own for the fallback of the whole ranged pool only. -/
def initRMempoolPseudoPool (env : RangedSurroundings) (shape : RangedShape) : Bool :=
  !(shape.fbPolicy == .atLastExhaustion && shape.shouldUseLocks) || env.pseudoMutexInit

def initPreallocatedRMempoolInternalPools (layout : Layout) (env : RangedSurroundings) (shape : RangedShape)
    (buffer bufSize : Nat) : Except String (List PoolBlock) :=
  if !initRMempoolPseudoPool env shape then .error "failed to initialize the pseudo_pool"
  else
    match expectedSizeLoop layout shape.numberOfMempools shape.smallestSize shape.smallestElemCount 0 with
    | none => .error "requested configuration's buffer size overflows size_t"
    | some expectedSize =>
      if expectedSize ≠ bufSize then .error "buffer sizes differ"
      else if !env.memPoolsGranted then .error "failed to allocate mem_pools array"
      else carveLoop layout env.tier shape buffer shape.numberOfMempools 0 shape.smallestSize shape.smallestElemCount 0

def crmempoolCreateFromPreallocatedBufferMp (layout : Layout) (env : RangedSurroundings) (buffer : Option Nat)
    (bufSize smallestSizePowerOfTwo largestSizePowerOfTwo smallestElemCountPowerOfTwo : Nat)
    (fbPolicy : FallbackPolicy) (singleThreaded : Bool) : Except String (RangedShape × List PoolBlock) :=
  match buffer with
  | none => .error "buffer is NULL"
  | some buffer =>
    if buffer % cmempoolEntryAlign ≠ 0 then .error "buffer must be aligned to at least 16 bytes"
    else
      match env.verifyMemmgmtProcs with
      | some err => .error err
      | none =>
        if !env.structGranted then .error "failed to allocate crmempool struct"
        else
          match env.populateMemMgmtProcs with
          | some err => .error err
          | none =>
            match assessRMempoolCreateInputs smallestSizePowerOfTwo largestSizePowerOfTwo smallestElemCountPowerOfTwo
                fbPolicy singleThreaded with
            | .error err => .error err
            | .ok shape =>
              match initPreallocatedRMempoolInternalPools layout env shape buffer bufSize with
              | .error err => .error err
              | .ok mps => .ok (shape, mps)

end Ccollections.Cmempool
