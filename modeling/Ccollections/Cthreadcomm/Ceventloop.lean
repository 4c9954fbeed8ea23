import Mathlib.Logic.Function.Basic
import Ccollections.Lib.Runs

/-!
# The registrations of an fd and the dispatch of its events

A critical section of an entry's stripe lock is one step, and so is a callback. The sections of the callers, of the
poller and of the dispatch workers interleave in any order. `pool` tells whether the loop has a dispatch pool
(`num_reactor_threads > 1`). `epoll_ctl` on an fd that is watched does not fail.

The entries of one fd follow one another, as an entry goes when its last registration is removed. The `event` of an
item is history: no step of the code reads it.
-/

namespace Ccollections.Cthreadcomm.Ceventloop

/-- `cselect_dir_t`. -/
inductive Dir where
  | read
  | write
  deriving DecidableEq

/-- The bits of an event or of an interest mask. -/
structure Bits where
  pollIn : Bool
  pollOut : Bool
  pollErr : Bool
  pollHup : Bool
  pollRdhup : Bool
  deriving DecidableEq

namespace Bits

def empty : Bits := ⟨false, false, false, false, false⟩

def union (a b : Bits) : Bits :=
  ⟨a.pollIn || b.pollIn, a.pollOut || b.pollOut, a.pollErr || b.pollErr, a.pollHup || b.pollHup,
    a.pollRdhup || b.pollRdhup⟩

def plain (ev : Bits) : Dir → Bool
  | .read => ev.pollIn
  | .write => ev.pollOut

def isErr (ev : Bits) : Bool := ev.pollErr || ev.pollHup

/-- `is_in` and `is_out` -/
def isReady (ev : Bits) : Dir → Bool
  | .read => ev.pollIn || ev.pollRdhup
  | .write => ev.pollOut

def reportable (mask ev : Bits) : Bool :=
  (!ev.pollIn || mask.pollIn) && (!ev.pollOut || mask.pollOut) && (!ev.pollRdhup || mask.pollRdhup)

end Bits

/-- Which handlers of a `ceventloop_handlers_t` are set. -/
structure Handlers where
  onReadable : Bool
  onWritable : Bool
  onError : Bool
  deriving DecidableEq

inductive Callback where
  | onReadable
  | onWritable
  | onError
  deriving DecidableEq

def Handlers.has (h : Handlers) : Callback → Bool
  | .onReadable => h.onReadable
  | .onWritable => h.onWritable
  | .onError => h.onError

def Dir.handler : Dir → Callback
  | .read => .onReadable
  | .write => .onWritable

/-- `_dispatch_item`; `dir` is that of `sel_snapshot`. -/
structure Item where
  reg : Nat
  isError : Bool
  isReadable : Bool
  isWritable : Bool
  dir : Dir
  event : Bits
  deriving DecidableEq

/-- `ceventloop_reg_s` -/
structure Reg where
  owningEntry : Nat
  dir : Dir
  handlers : Handlers
  paused : Bool
  muted : Bool
  removed : Bool

/-- `event_entry`, with what epoll watches for it. Its `refcount` is 1 while it has a job. -/
structure Entry where
  slot : Dir → Option Nat
  armed : Option Bits
  removed : Bool
  job : Option (List Item)

structure State where
  regs : Nat → Reg
  nextReg : Nat
  entries : Nat → Entry
  /-- `fd_generation_counter` -/
  nextEntry : Nat
  /-- The fd's entry in the registry of its stripe. -/
  found : Option Nat
  /-- The event of the poller's batch that is not handled yet. -/
  batch : Option (Nat × Bits)
  /-- The `items` of `_ceventloop_handle_event` whose callbacks have not run. -/
  items : List Item

def Entry.init : Entry := { slot := fun _ => none, armed := none, removed := false, job := none }

def State.init : State where
  regs := fun _ => ⟨0, .read, ⟨false, false, false⟩, false, false, true⟩
  nextReg := 0
  entries := fun _ => .init
  nextEntry := 0
  found := none
  batch := none
  items := []

def interestBits (reg : Option Reg) (dir : Dir) : Bits :=
  match reg with
  | none => .empty
  | some reg =>
    if reg.paused || reg.muted then .empty
    else
      match dir with
      | .read => ⟨reg.handlers.onReadable, false, true, true, true⟩
      | .write => ⟨false, reg.handlers.onWritable, true, true, false⟩

namespace State

variable (s : State)

def setReg (r : Nat) (reg : Reg) : State := { s with regs := Function.update s.regs r reg }

def setEntry (e : Nat) (entry : Entry) : State := { s with entries := Function.update s.entries e entry }

def setSlot (e : Nat) (dir : Dir) (reg : Option Nat) : State :=
  s.setEntry e { s.entries e with slot := Function.update (s.entries e).slot dir reg }

def setArmed (e : Nat) (armed : Option Bits) : State := s.setEntry e { s.entries e with armed := armed }

def setJob (e : Nat) (job : Option (List Item)) : State := s.setEntry e { s.entries e with job := job }

def mask (e : Nat) : Bits :=
  (interestBits (((s.entries e).slot .read).map s.regs) .read).union
    (interestBits (((s.entries e).slot .write).map s.regs) .write)

/-- `_ceventloop_rearm_entry_locked` -/
def rearmEntry (e : Nat) : State :=
  if (s.entries e).removed then s
  else s.setArmed e (if s.mask e = .empty then none else some (s.mask e))

def entryFor : State × Nat :=
  match s.found with
  | some e => (s, e)
  | none =>
    ({ s.setEntry s.nextEntry .init with found := some s.nextEntry, nextEntry := s.nextEntry + 1 }, s.nextEntry)

/-- `_ceventloop_reg_create` and `_ceventloop_add_fd`. -/
def addFd (dir : Dir) (handlers : Handlers) : State :=
  let (s, e) := s.entryFor
  if ((s.entries e).slot dir).isSome then s
  else
    let r := s.nextReg
    let s := { s.setReg r ⟨e, dir, handlers, false, false, false⟩ with nextReg := r + 1 }
    let s := s.setSlot e dir (some r)
    s.setArmed e (some (s.mask e))

def live (r : Nat) : Bool := r < s.nextReg && !(s.regs r).removed

def remove (r : Nat) : State :=
  if s.live r then
    let reg := s.regs r
    let e := reg.owningEntry
    let s := s.setSlot e reg.dir none
    let s :=
      if (s.entries e).slot .read = none ∧ (s.entries e).slot .write = none then
        { s.setEntry e { s.entries e with armed := none, removed := true } with found := none }
      else s.rearmEntry e
    s.setReg r { reg with removed := true }
  else s

def modify (r : Nat) (newDir : Dir) : State :=
  if s.live r then
    let reg := s.regs r
    let e := reg.owningEntry
    if reg.dir = newDir then
      if reg.muted then (s.setReg r { reg with muted := false }).rearmEntry e else s
    else if ((s.entries e).slot newDir).isSome then s
    else
      let s := (s.setSlot e reg.dir none).setReg r { reg with dir := newDir, muted := false }
      (s.setSlot e newDir (some r)).rearmEntry e
  else s

def pause (r : Nat) : State :=
  let reg := s.regs r
  if s.live r && !reg.paused then (s.setReg r { reg with paused := true }).rearmEntry reg.owningEntry else s

def resume (r : Nat) : State :=
  let reg := s.regs r
  if s.live r && (reg.paused || reg.muted) then
    (s.setReg r { reg with paused := false, muted := false }).rearmEntry reg.owningEntry
  else s

end State

inductive Take where
  | none
  | direction
  | error
  deriving DecidableEq

namespace State

variable (s : State)

def muteLocked (e r : Nat) : State := (s.setReg r { s.regs r with muted := true }).rearmEntry e

def takesCondition (e r : Nat) (dir : Dir) : State × Take :=
  if (s.regs r).handlers.onError then (s, .error)
  else if (s.regs r).handlers.has dir.handler then (s, .direction)
  else (s.muteLocked e r, .none)

def takesEvent (e : Nat) (reg : Option Nat) (isErr directionReady : Bool) (dir : Dir) : State × Take :=
  match reg with
  | none => (s, .none)
  | some r =>
    if (s.regs r).removed || !(isErr || directionReady) then (s, .none)
    else if directionReady && (s.regs r).handlers.has dir.handler then (s, .direction)
    else s.takesCondition e r dir

def itemFill (r : Nat) (take : Take) (dir : Dir) (ev : Bits) : Item where
  reg := r
  isError := take ≠ .direction
  isReadable := dir = .read ∧ take = .direction
  isWritable := dir = .write ∧ take = .direction
  dir := (s.regs r).dir
  event := ev

def collect (e : Nat) (ev : Bits) (dir : Dir) : State × List Item :=
  let reg := (s.entries e).slot dir
  let (s, take) := s.takesEvent e reg ev.isErr (ev.isReady dir) dir
  (s, if take = .none then [] else reg.toList.map fun r => s.itemFill r take dir ev)

/-- The collection of `_ceventloop_handle_event`. -/
def handleEvent (e : Nat) (ev : Bits) : State × List Item :=
  let (s, readItems) := s.collect e ev .read
  let (s, writeItems) := s.collect e ev .write
  (s, readItems ++ writeItems)

/-- The collection of `_ceventloop_poller_collect`, which drops an event of an entry whose job is in flight. -/
def pollerCollect (e : Nat) (ev : Bits) : State × List Item :=
  if (s.entries e).job.isSome then (s, [])
  else
    let (s, readItems) := s.collect e ev .read
    let (s, writeItems) := s.collect e ev .write
    (s, readItems ++ writeItems)

end State

def Item.callback (i : Item) : Option Callback :=
  if i.isError then some .onError
  else if i.isReadable then some .onReadable
  else if i.isWritable then some .onWritable
  else none

/-- A call of a registration's callback, with the event it was collected for. -/
structure Call where
  reg : Nat
  callback : Callback
  dir : Dir
  handlers : Handlers
  event : Bits
  deriving DecidableEq

namespace State

variable (s : State)

def call (i : Item) (callback : Callback) : Call := ⟨i.reg, callback, i.dir, (s.regs i.reg).handlers, i.event⟩

def runCallback (i : Item) : List Call :=
  if (s.regs i.reg).removed then []
  else if (s.regs i.reg).paused then []
  else (i.callback.filter (s.regs i.reg).handlers.has).toList.map (s.call i)

end State

inductive Act where
  | add (dir : Dir) (handlers : Handlers)
  | remove (reg : Nat)
  | modify (reg : Nat) (newDir : Dir)
  | pause (reg : Nat)
  | resume (reg : Nat)
  /-- `epoll_wait` reports an event of an entry. -/
  | fetch (entry : Nat) (ev : Bits)
  /-- The poller handles the event; `submitted` is the outcome of `cthrpool_submit`. -/
  | handle (submitted : Bool)
  /-- The next callback of `_ceventloop_handle_event`. -/
  | run
  /-- The next callback of `_ceventloop_dispatch_job_fn`, and its end. -/
  | work (entry : Nat)
  | finish (entry : Nat)

/-- A dispatch pool's entries are watched with `EPOLLONESHOT`. -/
def State.fetch (s : State) (pool : Bool) (e : Nat) (ev : Bits) : Option State :=
  if s.batch.isNone && s.items.isEmpty && (s.entries e).armed.any (·.reportable ev) then
    some { if pool then s.setArmed e none else s with batch := some (e, ev) }
  else none

def State.handle (s : State) (pool submitted : Bool) : Option State :=
  s.batch.map fun (e, ev) =>
    let s := { s with batch := none }
    if pool then
      let (s, items) := s.pollerCollect e ev
      if items.isEmpty then s
      else if submitted then s.setJob e (some items)
      else s.rearmEntry e
    else
      let (s, items) := s.handleEvent e ev
      { s with items := items }

def step (pool : Bool) (s : State) : Act → Option (State × List Call)
  | .add dir handlers => some (s.addFd dir handlers, [])
  | .remove r => some (s.remove r, [])
  | .modify r newDir => some (s.modify r newDir, [])
  | .pause r => some (s.pause r, [])
  | .resume r => some (s.resume r, [])
  | .fetch e ev => (s.fetch pool e ev).map fun s => (s, [])
  | .handle submitted => (s.handle pool submitted).map fun s => (s, [])
  | .run =>
    match s.items with
    | [] => none
    | i :: rest => some ({ s with items := rest }, s.runCallback i)
  | .work e =>
    match (s.entries e).job with
    | some (i :: rest) => some (s.setJob e (some rest), s.runCallback i)
    | _ => none
  | .finish e =>
    match (s.entries e).job with
    | some [] => some ((s.rearmEntry e).setJob e none, [])
    | _ => none

end Ccollections.Cthreadcomm.Ceventloop
