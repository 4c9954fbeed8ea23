import Ccollections.Common.Basic
import Ccollections.Lib.Heap
import Ccollections.Lib.Runs

/-!
# cvector

Every operation runs on a heap of blocks and is stuck where the source would read or write outside a live
block. Sizes wrap as `size_t` does.
-/

namespace Ccollections.Cvector
open Lib

def ccolCvectorMinimumCapacity : Nat := 4
def ccolCvectorScalingFactor : Nat := 2
def shrinkThresholdDivisor : Nat := 4

/-- `struct cvector`. The allocator procs are the heap's; `dataPtr` is the block of the backing buffer. -/
structure Cvec where
  elemSize : Nat
  elemCount : Nat
  capacity : Nat
  dataPtr : Nat
  deriving DecidableEq

def Cvec.addr (v : Cvec) (off : Nat) : Ptr := { block := v.dataPtr, off := off }

def verifyCvectorCreateInputs (elemSize : Nat) : Bool :=
  if elemSize = 0 then false
  else if elemSize > sizeMax / ccolCvectorMinimumCapacity then false
  else true

/-- `cvector_create_full`. The first request is for the container block, the second for the buffer. -/
def cvectorCreateFull (h : Heap) (elemSize : Nat) : Heap × Option Cvec :=
  if !verifyCvectorCreateInputs elemSize then (h, none)
  else
    match h.malloc 1 with
    | (h, none) => (h, none)
    | (h, some _) =>
      match h.malloc (sizeMul ccolCvectorMinimumCapacity elemSize) with
      | (h, none) => (h, none)
      | (h, some data) =>
        (h, some { elemSize := elemSize, elemCount := 0, capacity := ccolCvectorMinimumCapacity, dataPtr := data })

def scaleTheCvectorSizeUp (h : Heap) (v : Cvec) : Option (Heap × Cvec × RetVal) :=
  if v.capacity > ccolMaxElemCount / ccolCvectorScalingFactor then some (h, v, .containerFull)
  else
    let newCapacity := sizeMul ccolCvectorScalingFactor v.capacity
    if newCapacity > sizeMax / v.elemSize then some (h, v, .containerFull)
    else
      match h.realloc v.dataPtr (sizeMul newCapacity v.elemSize) with
      | none => none
      | some (h, none) => some (h, v, .notEnoughMemory)
      | some (h, some data) =>
        some (h, { v with dataPtr := data, capacity := sizeMul v.capacity ccolCvectorScalingFactor }, .success)

def scaleTheCvectorSizeDown (h : Heap) (v : Cvec) : Option (Heap × Cvec) :=
  if v.capacity = ccolCvectorMinimumCapacity then some (h, v)
  else
    match h.realloc v.dataPtr (sizeMul (v.capacity / ccolCvectorScalingFactor) v.elemSize) with
    | none => none
    | some (h, none) => some (h, v)
    | some (h, some data) =>
      some (h, { v with dataPtr := data, capacity := v.capacity / ccolCvectorScalingFactor })

/-- Whether a pointer is in `[buf_start, buf_end)`. Blocks do not overlap, so it then points into this block. -/
def Cvec.aliases (v : Cvec) (p : Ptr) : Bool :=
  p.block = v.dataPtr ∧ p.off < sizeMul v.capacity v.elemSize

def cvectorPushBack (h : Heap) (v : Cvec) (newElem : Ptr) : Option (Heap × Cvec × RetVal) :=
  if v.elemCount = ccolMaxElemCount then some (h, v, .containerFull)
  else if v.elemCount < v.capacity then
    match h.memcpy (v.addr (sizeMul v.elemCount v.elemSize)) newElem v.elemSize with
    | none => none
    | some h => some (h, { v with elemCount := sizeAdd v.elemCount 1 }, .success)
  else
    match scaleTheCvectorSizeUp h v with
    | none => none
    | some (h, v', .success) =>
      -- The buffer may have moved, so an aliasing element is found again from its offset.
      let newElem := if v.aliases newElem then v'.addr newElem.off else newElem
      match h.memcpy (v'.addr (sizeMul v'.elemCount v'.elemSize)) newElem v'.elemSize with
      | none => none
      | some h => some (h, { v' with elemCount := sizeAdd v'.elemCount 1 }, .success)
    | some (h, v', r) => some (h, v', r)

/-- `cvector_pop_back`, with the bytes copied to the target. -/
def cvectorPopBack (h : Heap) (v : Cvec) : Option (Heap × Cvec × RetVal × Option (List UInt8)) :=
  if v.elemCount > 0 then
    let v := { v with elemCount := v.elemCount - 1 }
    match h.load (v.addr (sizeMul v.elemCount v.elemSize)) v.elemSize with
    | none => none
    | some bytes =>
      let target := window bytes 0 v.elemSize
      if v.elemCount < v.capacity / shrinkThresholdDivisor then
        match scaleTheCvectorSizeDown h v with
        | none => none
        | some (h, v) => some (h, v, .success, some target)
      else some (h, v, .success, some target)
  else some (h, v, .containerEmpty, none)

def cvectorReserve (h : Heap) (v : Cvec) (newCapacityCount : Nat) : Option (Heap × Cvec × Bool) :=
  let refined := ccolFindNearestGtePowerOfTwo newCapacityCount
  let refined := if refined < ccolCvectorMinimumCapacity then ccolCvectorMinimumCapacity else refined
  if refined > ccolMaxElemCount then some (h, v, false)
  else if refined > sizeMax / v.elemSize then some (h, v, false)
  else if refined ≤ v.capacity then some (h, v, true)
  else
    match h.realloc v.dataPtr (sizeMul refined v.elemSize) with
    | none => none
    | some (h, none) => some (h, v, false)
    | some (h, some data) => some (h, { v with dataPtr := data, capacity := refined }, true)

def cvectorCopyIntoTail (h : Heap) (v : Cvec) (src : Ptr) (n : Nat) : Option Heap :=
  let dst := v.addr (sizeMul v.elemCount v.elemSize)
  if Heap.overlap dst src n then h.memmove dst src n else h.memcpy dst src n

def cvectorAppendArray (h : Heap) (v : Cvec) (arrPtr : Ptr) (elemCount : Nat) : Option (Heap × Cvec × Bool) :=
  if elemCount = 0 then some (h, v, true)
  else
    let newElemCount := sizeAdd v.elemCount elemCount
    if newElemCount < v.elemCount ∨ newElemCount > ccolMaxElemCount then some (h, v, false)
    else
      let aliasesSelf := v.aliases arrPtr
      if aliasesSelf ∧ elemCount > (sizeMul v.capacity v.elemSize - arrPtr.off) / v.elemSize then some (h, v, false)
      else if newElemCount ≤ v.capacity then
        match cvectorCopyIntoTail h v arrPtr (sizeMul elemCount v.elemSize) with
        | none => none
        | some h => some (h, { v with elemCount := sizeAdd v.elemCount elemCount }, true)
      else
        match cvectorReserve h v newElemCount with
        | none => none
        | some (h, v', false) => some (h, v', false)
        | some (h, v', true) =>
          let arrPtr := if aliasesSelf then v'.addr arrPtr.off else arrPtr
          match cvectorCopyIntoTail h v' arrPtr (sizeMul elemCount v'.elemSize) with
          | none => none
          | some h => some (h, { v' with elemCount := sizeAdd v'.elemCount elemCount }, true)

/-- `cvector_append_cvector` of a vector to itself, the branch `v_to == v_from`. -/
def cvectorAppendSelf (h : Heap) (v : Cvec) : Option (Heap × Cvec × Bool) :=
  let count := v.elemCount
  let newCount := sizeAdd v.elemCount count
  if newCount < v.elemCount ∨ newCount > ccolMaxElemCount then some (h, v, false)
  else
    match cvectorReserve h v newCount with
    | none => none
    | some (h, v', false) => some (h, v', false)
    | some (h, v', true) => cvectorAppendArray h v' (v'.addr 0) v'.elemCount

/-- `cvector_append_cvector` of another vector. -/
def cvectorAppendOther (h : Heap) (vTo vFrom : Cvec) : Option (Heap × Cvec × Bool) :=
  cvectorAppendArray h vTo (vFrom.addr 0) vFrom.elemCount

def cvectorReset (h : Heap) (v : Cvec) : Option (Heap × Cvec) :=
  if v.capacity ≠ ccolCvectorMinimumCapacity then
    match h.realloc v.dataPtr (sizeMul ccolCvectorMinimumCapacity v.elemSize) with
    | none => none
    | some (h, none) => some (h, { v with elemCount := 0 })
    | some (h, some data) =>
      some (h, { v with dataPtr := data, capacity := ccolCvectorMinimumCapacity, elemCount := 0 })
  else some (h, { v with elemCount := 0 })

/-! ## Programs over vectors -/

/-- Where a caller's elements come from: an array of its own, or live elements of a vector. -/
inductive Source where
  | outside (bytes : Bytes)
  | inside (u : Nat) (first : Nat)

inductive Op where
  | create (elemSize : Nat)
  | pushBack (v : Nat) (src : Source)
  | popBack (v : Nat)
  | reserve (v : Nat) (count : UInt64)
  | appendArray (v : Nat) (src : Source) (count : UInt64)
  | appendCvector (to_ from_ : Nat)
  | reset (v : Nat)

/-- What a call gives back. `notCalled` is a call that no caller can make. -/
inductive Answer where
  | created (ok : Bool)
  | code (r : RetVal)
  | popped (elem : List UInt8)
  | flag (ok : Bool)
  | done
  | notCalled
  deriving DecidableEq

structure World where
  heap : Heap
  vecs : List Cvec

/-- The pointer a caller passes for `count` elements, or `none` when it has no such elements. -/
def World.source (w : World) (elemSize count : Nat) : Source → Option (Heap × Ptr)
  | .outside bytes =>
    let (h, b) := w.heap.give (count * elemSize) bytes
    some (h, { block := b, off := 0 })
  | .inside u first =>
    match w.vecs[u]? with
    | none => none
    | some v =>
      if v.elemSize = elemSize ∧ first + count ≤ v.elemCount then
        some (w.heap, v.addr (sizeMul first v.elemSize))
      else none

/-- Vector `i` after a call, with the answer of the call. -/
def World.put (w : World) (i : Nat) (a : Answer) (r : Heap × Cvec) : World × Answer :=
  ({ heap := r.1, vecs := w.vecs.set i r.2 }, a)

def World.step (w : World) : Op → Option (World × Answer)
  | .create elemSize =>
    match cvectorCreateFull w.heap elemSize with
    | (h, none) => some ({ w with heap := h }, .created false)
    | (h, some v) => some ({ heap := h, vecs := w.vecs ++ [v] }, .created true)
  | .pushBack i src =>
    match w.vecs[i]? with
    | none => some (w, .notCalled)
    | some v =>
      match w.source v.elemSize 1 src with
      | none => some (w, .notCalled)
      | some (h, p) => (cvectorPushBack h v p).map fun (h, v, r) => w.put i (.code r) (h, v)
  | .popBack i =>
    match w.vecs[i]? with
    | none => some (w, .notCalled)
    | some v =>
      (cvectorPopBack w.heap v).map fun (h, v, r, t) =>
        w.put i (match t with | none => .code r | some elem => .popped elem) (h, v)
  | .reserve i count =>
    match w.vecs[i]? with
    | none => some (w, .notCalled)
    | some v => (cvectorReserve w.heap v count.toNat).map fun (h, v, ok) => w.put i (.flag ok) (h, v)
  | .appendArray i src count =>
    match w.vecs[i]? with
    | none => some (w, .notCalled)
    | some v =>
      match w.source v.elemSize count.toNat src with
      | none => some (w, .notCalled)
      | some (h, p) =>
        (cvectorAppendArray h v p count.toNat).map fun (h, v, ok) => w.put i (.flag ok) (h, v)
  | .appendCvector i j =>
    match w.vecs[i]?, w.vecs[j]? with
    | some v, some u =>
      if v.elemSize ≠ u.elemSize then some (w, .notCalled)
      else if i = j then (cvectorAppendSelf w.heap v).map fun (h, v, ok) => w.put i (.flag ok) (h, v)
      else (cvectorAppendOther w.heap v u).map fun (h, v, ok) => w.put i (.flag ok) (h, v)
    | _, _ => some (w, .notCalled)
  | .reset i =>
    match w.vecs[i]? with
    | none => some (w, .notCalled)
    | some v => (cvectorReset w.heap v).map fun (h, v) => w.put i .done (h, v)

def World.start (fate : Nat → Option Bytes) : World := { heap := Heap.empty fate, vecs := [] }

end Ccollections.Cvector
