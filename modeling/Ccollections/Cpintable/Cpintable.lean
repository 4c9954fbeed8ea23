import Mathlib.Algebra.Order.Ring.Nat
import Mathlib.Data.Fintype.Basic
import Mathlib.Data.Int.Basic
import Ccollections.Lib.Runs

/-!
# ccol_pintable as a step relation

Every atomic access of the five operations is one step, and the steps of all threads interleave in any order.
The table is never disposed of or reset while it runs. Counters are integers, since far fewer than 2^63 pins
are outstanding at a time.

The fields `published`, `retired` and `drained` of the state, and the list a scan carries, are history: no
step of the code reads them. They say which generations of a slot were published, retired, and then seen
without pins by a scan that started after the retire.
-/

namespace Ccollections.Cpintable

open Function

def ccolPinChunkSlots : Nat := 64

def ccolPinMaxChunks : Nat := 1024

def ccolPinStripes : Nat := 8

/-- The state word of a slot, `(gen << 1) | live`, which is read and written as one. -/
structure PinState where
  gen : UInt32
  live : Bool
  deriving DecidableEq

structure PinSlot where
  state : PinState
  ptr : Nat
  /-- The counters of the stripes, once they are allocated. -/
  stripes : Option (Nat → Int)

def handleIdx (handle : UInt64) : UInt32 := (handle >>> 32).toUInt32

def handleGen (handle : UInt64) : UInt32 := handle.toUInt32

/-- Where a thread is: the atomic access it makes next. -/
inductive Pc where
  | idle
  /-- `ccol_pintable_pin` -/
  | pinChunk (handle : UInt64)
  | pinState (handle : UInt64)
  | pinStripes (handle : UInt64)
  | pinClaim (handle : UInt64)
  | pinAdd (handle : UInt64)
  | pinRecheck (handle : UInt64)
  | pinBackOut (handle : UInt64)
  | pinPtr (handle : UInt64)
  /-- `ccol_pintable_unpin` -/
  | unpinChunk (handle : UInt64)
  | unpinStripes (handle : UInt64)
  | unpinSub (handle : UInt64)
  /-- `ccol_pintable_publish` -/
  | publishChunk (idx gen : UInt32) (ptr : Nat)
  | publishStoreChunk (idx gen : UInt32) (ptr : Nat)
  | publishStripes (idx gen : UInt32) (ptr : Nat)
  | publishStoreStripes (idx gen : UInt32) (ptr : Nat)
  | publishPtr (idx gen : UInt32) (ptr : Nat)
  | publishState (idx gen : UInt32) (ptr : Nat)
  /-- `ccol_pintable_retire` -/
  | retireChunk (idx : UInt32)
  | retireLoad (idx : UInt32)
  | retireStore (idx : UInt32) (st : PinState)
  /-- `ccol_pintable_pins`; `after` are the generations retired when the call started. -/
  | pinsChunk (idx : UInt32) (after : List UInt32)
  | pinsStripes (idx : UInt32) (after : List UInt32)
  | pinsLoad (idx : UInt32) (i : Nat) (accumulated : Int) (after : List UInt32)
  | pinsReturn (idx : UInt32) (result : Nat) (after : List UInt32)

/-- A thread: its `_pin_stripe_id`, where it is, and the pins it holds, each with its pointer. -/
structure Thread where
  stripeId : Nat
  pc : Pc
  held : List (UInt64 × Nat)

structure State (T : Type) where
  chunks : Nat → Bool
  slots : UInt32 → PinSlot
  /-- `_pin_stripe_next` -/
  stripeNext : Nat
  /-- The writer lock of the owning module. -/
  writer : Option T
  threads : T → Thread
  published : UInt32 → List (UInt32 × Nat)
  retired : UInt32 → List UInt32
  drained : UInt32 → List UInt32

def State.init (T : Type) : State T where
  chunks := fun _ => false
  slots := fun _ => { state := { gen := 0, live := false }, ptr := 0, stripes := none }
  stripeNext := 1
  writer := none
  threads := fun _ => { stripeId := 0, pc := .idle, held := [] }
  published := fun _ => []
  retired := fun _ => []
  drained := fun _ => []

/-- `pin_stripe_self`, once the id is assigned. -/
def Thread.stripe (th : Thread) : Nat := (th.stripeId - 1) % ccolPinStripes

def chunkIdx (idx : UInt32) : Nat := idx.toNat / ccolPinChunkSlots

/-- What a thread does next. `ok` is the outcome of the allocation of a step that makes one. -/
inductive Act where
  | lock
  | unlock
  | pin (handle : UInt64)
  | unpin (handle : UInt64)
  | publish (idx gen : UInt32) (ptr : Nat)
  | retire (idx : UInt32)
  | pins (idx : UInt32)
  | go (ok : Bool)

section Steps

variable {T : Type} [DecidableEq T]

def State.setThread (s : State T) (t : T) (th : Thread) : State T := { s with threads := update s.threads t th }

def State.setPc (s : State T) (t : T) (pc : Pc) : State T := s.setThread t { s.threads t with pc := pc }

@[simp] theorem threads_setThread_self (s : State T) (t : T) (th : Thread) : (s.setThread t th).threads t = th :=
  update_self _ _ _

theorem threads_setThread_of_ne (s : State T) {t t' : T} (h : t' ≠ t) (th : Thread) :
    (s.setThread t th).threads t' = s.threads t' :=
  update_of_ne h _ _

@[simp] theorem threads_setPc_self (s : State T) (t : T) (pc : Pc) :
    (s.setPc t pc).threads t = { s.threads t with pc := pc } :=
  update_self _ _ _

theorem threads_setPc_of_ne (s : State T) {t t' : T} (h : t' ≠ t) (pc : Pc) :
    (s.setPc t pc).threads t' = s.threads t' :=
  update_of_ne h _ _

def State.setSlot (s : State T) (idx : UInt32) (slot : PinSlot) : State T :=
  { s with slots := update s.slots idx slot }

def State.count (s : State T) (idx : UInt32) (stripe : Nat) : Int := (s.slots idx).stripes.elim 0 fun count => count stripe

def State.addCount (s : State T) (idx : UInt32) (stripe : Nat) (d : Int) : State T :=
  let slot := s.slots idx
  s.setSlot idx { slot with stripes := slot.stripes.map fun count => update count stripe (count stripe + d) }

/-- The value `ccol_pintable_pins` makes of the sum. -/
def pinsResult (total : Int) : Nat := if total > 0 then total.toNat else 0

/-- A thread with no call in progress makes one. A publish and a retire are made under the writer lock; a publish uses a
new generation, once every occupancy before it was drained. -/
def State.call (s : State T) (t : T) : Act → Option (State T)
  | .lock => if s.writer.isNone then some { s with writer := some t } else none
  | .unlock => if s.writer = some t then some { s with writer := none } else none
  | .pin handle => if handle = 0 then some s else some (s.setPc t (.pinChunk handle))
  | .unpin handle =>
    if handle = 0 then some s
    else if (s.threads t).held.any (fun pin => pin.1 = handle) then
      some (s.setThread t { s.threads t with
        pc := .unpinChunk handle, held := (s.threads t).held.eraseP (fun pin => pin.1 = handle) })
    else none
  | .publish idx gen ptr =>
    if s.writer = some t ∧ (∀ q ∈ s.published idx, q.1 ∈ s.drained idx ∧ q.1 ≠ gen) then
      if gen = 0 then some s
      else if chunkIdx idx ≥ ccolPinMaxChunks then some s
      else some (s.setPc t (.publishChunk idx gen ptr))
    else none
  | .retire idx =>
    if s.writer = some t then
      if chunkIdx idx ≥ ccolPinMaxChunks then some s else some (s.setPc t (.retireChunk idx))
    else none
  | .pins idx =>
    if chunkIdx idx ≥ ccolPinMaxChunks then some (s.setPc t (.pinsReturn idx 0 (s.retired idx)))
    else some (s.setPc t (.pinsChunk idx (s.retired idx)))
  | .go _ => none

def State.go (s : State T) (t : T) (ok : Bool) : Option (State T) :=
  match (s.threads t).pc with
  | .idle => none
  | .pinChunk handle =>
    if chunkIdx (handleIdx handle) ≥ ccolPinMaxChunks then some (s.setPc t .idle)
    else if s.chunks (chunkIdx (handleIdx handle)) then some (s.setPc t (.pinState handle))
    else some (s.setPc t .idle)
  | .pinState handle =>
    if (s.slots (handleIdx handle)).state ≠ { gen := handleGen handle, live := true } then some (s.setPc t .idle)
    else some (s.setPc t (.pinStripes handle))
  | .pinStripes handle =>
    if (s.slots (handleIdx handle)).stripes.isNone then some (s.setPc t .idle)
    else if (s.threads t).stripeId = 0 then some (s.setPc t (.pinClaim handle))
    else some (s.setPc t (.pinAdd handle))
  | .pinClaim handle =>
    let id := if s.stripeNext = 0 then 1 else s.stripeNext
    some { s.setThread t { s.threads t with stripeId := id, pc := .pinAdd handle } with
      stripeNext := (s.stripeNext + 1) % 2 ^ 32 }
  | .pinAdd handle =>
    some ((s.addCount (handleIdx handle) (s.threads t).stripe 1).setPc t (.pinRecheck handle))
  | .pinRecheck handle =>
    if (s.slots (handleIdx handle)).state ≠ { gen := handleGen handle, live := true } then
      some (s.setPc t (.pinBackOut handle))
    else some (s.setPc t (.pinPtr handle))
  | .pinBackOut handle => some ((s.addCount (handleIdx handle) (s.threads t).stripe (-1)).setPc t .idle)
  | .pinPtr handle =>
    some (s.setThread t { s.threads t with
      pc := .idle, held := (handle, (s.slots (handleIdx handle)).ptr) :: (s.threads t).held })
  | .unpinChunk handle =>
    if chunkIdx (handleIdx handle) ≥ ccolPinMaxChunks then some (s.setPc t .idle)
    else if s.chunks (chunkIdx (handleIdx handle)) then some (s.setPc t (.unpinStripes handle))
    else some (s.setPc t .idle)
  | .unpinStripes handle =>
    if (s.slots (handleIdx handle)).stripes.isNone then some (s.setPc t .idle) else some (s.setPc t (.unpinSub handle))
  | .unpinSub handle => some ((s.addCount (handleIdx handle) (s.threads t).stripe (-1)).setPc t .idle)
  | .publishChunk idx gen ptr =>
    if s.chunks (chunkIdx idx) then some (s.setPc t (.publishStripes idx gen ptr))
    else if ok then some (s.setPc t (.publishStoreChunk idx gen ptr))
    else some (s.setPc t .idle)
  | .publishStoreChunk idx gen ptr =>
    some ({ s with chunks := update s.chunks (chunkIdx idx) true }.setPc t (.publishStripes idx gen ptr))
  | .publishStripes idx gen ptr =>
    if (s.slots idx).stripes.isSome then some (s.setPc t (.publishPtr idx gen ptr))
    else if ok then some (s.setPc t (.publishStoreStripes idx gen ptr))
    else some (s.setPc t .idle)
  | .publishStoreStripes idx gen ptr =>
    some ((s.setSlot idx { s.slots idx with stripes := some fun _ => 0 }).setPc t (.publishPtr idx gen ptr))
  | .publishPtr idx gen ptr => some ((s.setSlot idx { s.slots idx with ptr := ptr }).setPc t (.publishState idx gen ptr))
  | .publishState idx gen ptr =>
    some ({ s.setSlot idx { s.slots idx with state := { gen := gen, live := true } } with
      published := update s.published idx ((gen, ptr) :: s.published idx) }.setPc t .idle)
  | .retireChunk idx =>
    if s.chunks (chunkIdx idx) then some (s.setPc t (.retireLoad idx)) else some (s.setPc t .idle)
  | .retireLoad idx => some (s.setPc t (.retireStore idx (s.slots idx).state))
  | .retireStore idx st =>
    some ({ s.setSlot idx { s.slots idx with state := { st with live := false } } with
      retired := update s.retired idx (if st.live then st.gen :: s.retired idx else s.retired idx) }.setPc t .idle)
  | .pinsChunk idx after =>
    if s.chunks (chunkIdx idx) then some (s.setPc t (.pinsStripes idx after)) else some (s.setPc t (.pinsReturn idx 0 after))
  | .pinsStripes idx after =>
    if (s.slots idx).stripes.isSome then some (s.setPc t (.pinsLoad idx 0 0 after))
    else some (s.setPc t (.pinsReturn idx 0 after))
  | .pinsLoad idx i accumulated after =>
    if i < ccolPinStripes then some (s.setPc t (.pinsLoad idx (i + 1) (accumulated + s.count idx i) after))
    else some (s.setPc t (.pinsReturn idx (pinsResult accumulated) after))
  | .pinsReturn idx result after =>
    some ({ s with
      drained := update s.drained idx (if result = 0 then after ++ s.drained idx else s.drained idx) }.setPc t .idle)

def State.step (s : State T) (t : T) (a : Act) : Option (State T) :=
  match a with
  | .go ok => s.go t ok
  | a =>
    match (s.threads t).pc with
    | .idle => s.call t a
    | _ => none

def State.steps (s : State T) : List (T × Act) → Option (State T)
  | [] => some s
  | (t, a) :: rest => (s.step t a).bind fun s' => s'.steps rest

end Steps

end Ccollections.Cpintable
