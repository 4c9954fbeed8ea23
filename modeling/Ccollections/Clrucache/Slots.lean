import Mathlib.Logic.Function.Basic
import Ccollections.Cpintable.Cpintable

/-!
# The handle slot table of clrucache

One step is one section of code under the table's write lock: an acquire, the first or the last section of a destroy, or
the destructor at the end of the process. A cache object is a value of any type `C`, which stands for its identity: a
create brings an object that no live handle has and no destroy is still at.

The fields `live`, `lost`, `issued` and `acquires` of the state are history: no step of the code reads them.
-/

namespace Ccollections.Clrucache.Slots

open Cpintable

def ccolPinMaxSlots : Nat := ccolPinMaxChunks * ccolPinChunkSlots

/-- A `clrucache_slot_t`. -/
structure Slot (C : Type) where
  ptr : Option C
  generation : UInt32
  inUse : Bool
  deriving DecidableEq

structure State (C : Type) where
  /-- Whether the two vectors are destroyed. -/
  released : Bool
  slots : List (Slot C)
  /-- A stack, with its top first. -/
  freeIndices : List Nat
  lostIndices : Nat
  releaseDeferred : Bool
  /-- The field `self_handle` of each cache. -/
  selfHandle : C → UInt64
  /-- The destroys that are between their two locked sections, each with the index and the cache it is at. -/
  destroying : List (Nat × C)
  /-- The handles that were returned and not destroyed since, with their caches. -/
  live : List (UInt64 × C)
  /-- The indices a push onto the free list did not take and no acquire got since. -/
  lost : List Nat
  /-- Every handle that was returned. -/
  issued : List UInt64
  /-- How often the slot of an index was acquired. -/
  acquires : Nat → Nat

def State.init (C : Type) : State C where
  released := false
  slots := []
  freeIndices := []
  lostIndices := 0
  releaseDeferred := false
  selfHandle := fun _ => 0
  destroying := []
  live := []
  lost := []
  issued := []
  acquires := fun _ => 0

/-- Whether a push onto the slots, a publish and a push onto the free list succeed. -/
structure Outcomes where
  slotPush : Bool
  publish : Bool
  freePush : Bool

section Steps

variable {C : Type} [DecidableEq C]

/-- `_clrucache_free_index_release_locked` -/
def State.freeIndexRelease (s : State C) (idx : Nat) (freePush : Bool) : State C :=
  if freePush then { s with freeIndices := idx :: s.freeIndices }
  else { s with lostIndices := s.lostIndices + 1, lost := idx :: s.lost }

/-- `_clrucache_reclaim_lost_index_locked` -/
def State.reclaimLostIndex (s : State C) : Option Nat × State C :=
  match s.slots.findIdx? fun slot => slot.ptr.isNone && !slot.inUse with
  | some idx => (some idx, { s with lostIndices := s.lostIndices - 1, lost := s.lost.erase idx })
  | none => (none, { s with lostIndices := 0 })

def State.growSlots (s : State C) (slotPush : Bool) : Option Nat × State C :=
  if s.slots.length ≥ ccolPinMaxSlots then (none, s)
  else if slotPush then
    let slots := s.slots ++ [{ ptr := none, generation := 0, inUse := false }]
    (some (slots.length - 1), { s with slots := slots })
  else (none, s)

def State.takeIndex (s : State C) (slotPush : Bool) : Option Nat × State C :=
  match s.freeIndices with
  | idx :: rest => (some idx, { s with freeIndices := rest })
  | [] =>
    if 0 < s.lostIndices then
      match s.reclaimLostIndex with
      | (some idx, s') => (some idx, s')
      | (none, s') => s'.growSlots slotPush
    else s.growSlots slotPush

def nextGeneration (generation : UInt32) : UInt32 :=
  if generation + 1 = 0 then generation + 1 + 1 else generation + 1

def makeHandle (idx : Nat) (generation : UInt32) : UInt64 := (UInt64.ofNat idx <<< 32) ||| generation.toUInt64

/-- The slot of an index is claimed for a cache. A slot past the table is not there to be written. -/
def State.claim (s : State C) (cache : C) (idx : Nat) (outcomes : Outcomes) : Option (UInt64 × State C) :=
  s.slots[idx]?.map fun slot =>
    let generation := nextGeneration slot.generation
    let h := makeHandle idx generation
    let s' := { s with
      slots := s.slots.set idx { slot with generation := generation }
      acquires := Function.update s.acquires idx (s.acquires idx + 1) }
    if outcomes.publish then
      (h, { s' with
        slots := s.slots.set idx { ptr := some cache, generation := generation, inUse := true }
        selfHandle := Function.update s.selfHandle cache h
        live := (h, cache) :: s.live
        issued := h :: s.issued })
    else
      (0, { s' with selfHandle := Function.update s.selfHandle cache 0 }.freeIndexRelease idx outcomes.freePush)

/-- `_clrucache_handle_slot_acquire`: the handle and the flag `released`. -/
def State.handleSlotAcquire (s : State C) (cache : C) (outcomes : Outcomes) : Option ((UInt64 × Bool) × State C) :=
  if s.released then some ((0, true), s)
  else
    match s.takeIndex outcomes.slotPush with
    | (none, s') => some ((0, false), s')
    | (some idx, s') => (s'.claim cache idx outcomes).map fun r => ((r.1, false), r.2)

/-- The cache a destroy finds, in `__clrucache_destroy`. -/
def State.find (s : State C) (h : UInt64) : Option C :=
  if s.released then none
  else
    s.slots[(handleIdx h).toNat]?.bind fun slot =>
      if slot.inUse && slot.generation == handleGen h then slot.ptr else none

/-- The first locked section of `__clrucache_destroy`. A stale handle is fatal. -/
def State.destroyBegin (s : State C) (h : UInt64) : Option (State C) :=
  (s.find h).map fun raw =>
    { s with
      slots := s.slots.modify (handleIdx h).toNat fun slot => { slot with inUse := false }
      destroying := ((handleIdx h).toNat, raw) :: s.destroying
      live := s.live.filter fun p => p.1 ≠ h }

/-- `_clrucache_any_slot_live_locked` -/
def State.anySlotLive (s : State C) : Bool := s.slots.any fun slot => slot.ptr.isSome

/-- `_clrucache_release_slot_table_locked` -/
def State.releaseSlotTable (s : State C) : State C :=
  { s with released := true, slots := [], freeIndices := [], lost := [], releaseDeferred := false }

/-- `_clrucache_release_slot_table_if_deferred_locked` -/
def State.releaseSlotTableIfDeferred (s : State C) : State C :=
  if s.releaseDeferred && !s.anySlotLive then s.releaseSlotTable else s

/-- The last locked section of `__clrucache_destroy`, for a destroy in progress. -/
def State.destroyEnd (s : State C) (idx : Nat) (raw : C) (freePush : Bool) : Option (State C) :=
  if (idx, raw) ∈ s.destroying then
    s.slots[idx]?.map fun slot =>
      ({ s with
        slots := s.slots.set idx { slot with ptr := none, generation := slot.generation + 1 }
        destroying := s.destroying.erase (idx, raw) }.freeIndexRelease idx freePush).releaseSlotTableIfDeferred
  else none

/-- `_cleanup_ccache_slot_table`, the destructor. -/
def State.cleanupSlotTable (s : State C) : State C :=
  if s.released then s
  else if s.anySlotLive then { s with releaseDeferred := true }
  else s.releaseSlotTable

inductive Act (C : Type) where
  | create (cache : C) (outcomes : Outcomes)
  | destroyBegin (h : UInt64)
  | destroyEnd (idx : Nat) (raw : C) (freePush : Bool)
  | cleanup

def State.step (s : State C) : Act C → Option (State C)
  | .create cache outcomes =>
    if cache ∈ s.live.map Prod.snd ∨ cache ∈ s.destroying.map Prod.snd then none
    else (s.handleSlotAcquire cache outcomes).map Prod.snd
  | .destroyBegin h => s.destroyBegin h
  | .destroyEnd idx raw freePush => s.destroyEnd idx raw freePush
  | .cleanup => some s.cleanupSlotTable

def State.steps (s : State C) : List (Act C) → Option (State C)
  | [] => some s
  | a :: rest => (s.step a).bind fun s' => s'.steps rest

end Steps

end Ccollections.Clrucache.Slots
