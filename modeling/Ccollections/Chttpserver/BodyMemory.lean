import Ccollections.Chttpserver.StreamQueue
import Ccollections.Common.Basic

/-!
# Body memory

Request bodies reserve memory under one limit, and a request whose body does not fit waits in a list until memory is
given back. A section on `wait_mutex` that loops is one step for each round of the loop, with the mutex held between
them; every other section is one step. A connection is touched by its owner alone.
-/

namespace Ccollections.Chttpserver.BodyMemory
open Lib StreamQueue Function

/-- The body memory fields of a connection. Times are in nanoseconds. -/
structure Conn where
  memCharged : Nat
  memNeed : Nat
  memExempt : Bool
  inMemWait : Bool
  memWaitStart : Int
  memPrev : Option Nat
  memNext : Option Nat

/-- The body memory fields of `struct chttpserver`. -/
structure Server where
  memCap : Nat
  memInUse : Nat
  memHolders : Nat
  memBlocked : Nat
  memWaiting : Nat
  memHead : Option Nat
  memTail : Option Nat
  memExemptActive : Bool
  memAdmissionClosed : Bool
  memAdmitting : Bool
  memAdmitAgain : Bool

/-- Who may touch a connection: a thread, which may just have been refused a reservation, the wait list, or the
admission that took it out of the list. -/
inductive Owner where
  | thread
  | refused (need : Nat)
  | listed
  | admission
  deriving DecidableEq

/-- The section between two rounds of the loop under `wait_mutex`, with the `mem_wait_ms` it read before. -/
inductive Section where
  | free
  | admitting (batch : List Nat)
  | sweep (now : Int) (waitMs : Option Nat) (cursor : Option Nat) (expired : List Nat)
  | flush (batch : List Nat)

/-- A teardown closes the admission and flushes the list; a start sets the limit and opens the admission again. -/
inductive Phase where
  | steady
  | starting
  | draining
  deriving DecidableEq

/-- The server, its connections, and the threads around them. `dispatching` is what an admission has left to dispatch,
`owed` counts the calls of `_mem_admit` still to be made, `asked` is what a connection got since it last gave everything
back, and the numbers of the waits are in one of three lists. -/
structure World where
  srv : Server
  conns : Nat → Conn
  accepted : Nat
  owner : Nat → Owner
  lock : Section
  dispatching : Option (List Nat)
  owed : Nat
  phase : Phase
  asked : Nat → Nat
  ticket : Nat → Nat
  enqueued : Nat
  admitted : List Nat
  swept : List Nat
  flushed : List Nat

inductive Action where
  | accept
  | tryReserve (c need : Nat)
  | enqueue (c : Nat) (now : Int)
  | trim (c keep : Nat)
  | release (c : Nat)
  | admitCall
  | admitRound
  | dispatch
  | admitRelock
  | sweepLock (now : Int) (waitMs : Option Nat)
  | sweepRound
  | admissionClose
  | flushLock
  | flushRound
  | drained
  | startStore (cap : Nat)
  | startReopen

def msSince (now start : Int) : Int := (now - start).tdiv 1000000

def Conn.fresh : Conn := ⟨0, 0, false, false, 0, none, none⟩

/-- `_mem_fits_locked`. -/
def Server.fits (s : Server) (need : Nat) : Bool := s.memInUse ≤ s.memCap ∧ need ≤ s.memCap - s.memInUse

namespace World

def setConn (w : World) (c : Nat) (f : Conn → Conn) : World :=
  { w with conns := update w.conns c (f (w.conns c)) }

def setAt (w : World) (p : Option Nat) (f : Conn → Conn) : World :=
  match p with
  | some c => w.setConn c f
  | none => w

def give (w : World) (c : Nat) (o : Owner) : World := { w with owner := update w.owner c o }

/-- What `_mem_grant_locked` charges for a need. -/
def charge (w : World) (need : Nat) : Nat := min (min need w.srv.memCap) (sizeMax - w.srv.memInUse)

/-- `_mem_grant_locked`. -/
def grant (w : World) (c need : Nat) : World :=
  let n := w.charge need
  if n = 0 then w
  else
    let srv := if (w.conns c).memCharged = 0 then { w.srv with memHolders := w.srv.memHolders + 1 } else w.srv
    { w with srv := { srv with memInUse := sizeAdd srv.memInUse n } }.setConn c
      fun x => { x with memCharged := sizeAdd x.memCharged n }

def askedFor (w : World) (c need : Nat) : World := { w with asked := update w.asked c (w.asked c + need) }

def tryReserve (w : World) (c need : Nat) : World :=
  if (w.conns c).memExempt || (w.srv.memHead.isNone && w.srv.fits need) then
    ((w.grant c need).askedFor c need).give c .thread
  else w.give c (.refused need)

/-- `_mem_wait_enqueue`, behind which its caller owes an admission. -/
def enqueue (w : World) (c need : Nat) (now : Int) : World :=
  let w₁ := w.setConn c fun x => { x with
    memWaitStart := now, memNeed := need, memPrev := w.srv.memTail, memNext := none, inMemWait := true }
  let head := if w.srv.memTail = none then some c else w.srv.memHead
  let blocked := if (w.conns c).memCharged ≠ 0 then w.srv.memBlocked + 1 else w.srv.memBlocked
  { w₁.setAt w.srv.memTail fun x => { x with memNext := some c } with
    srv := { w.srv with memHead := head, memTail := some c, memWaiting := w.srv.memWaiting + 1, memBlocked := blocked }
    owner := update w.owner c .listed
    owed := w.owed + 1
    ticket := update w.ticket c w.enqueued
    enqueued := w.enqueued + 1 }

/-- `_mem_wait_unlink_locked`. -/
def unlink (w : World) (c : Nat) : World :=
  let x := w.conns c
  let w₁ := w.setAt x.memPrev fun y => { y with memNext := x.memNext }
  let w₂ := w₁.setAt x.memNext fun y => { y with memPrev := x.memPrev }
  let head := if w.srv.memHead = some c then x.memNext else w.srv.memHead
  let tail := if w.srv.memTail = some c then x.memPrev else w.srv.memTail
  let blocked := if x.memCharged ≠ 0 then w.srv.memBlocked - 1 else w.srv.memBlocked
  { w₂ with
    srv := { w.srv with memHead := head, memTail := tail, memWaiting := w.srv.memWaiting - 1, memBlocked := blocked } }.setConn c
    fun y => { y with memPrev := none, memNext := none, inMemWait := false }

def owe (w : World) (freed : Bool) : World :=
  if freed && w.srv.memHead.isSome then { w with owed := w.owed + 1 } else w

/-- The locked part of `_mem_release`. -/
def release (w : World) (c : Nat) : World :=
  let x := w.conns c
  let srv := if x.memCharged ≠ 0 then
    { w.srv with memInUse := sizeSub w.srv.memInUse x.memCharged, memHolders := w.srv.memHolders - 1 } else w.srv
  let srv := if x.memExempt then { srv with memExemptActive := false } else srv
  ({ w with srv := srv, asked := update w.asked c 0 }.setConn c
    fun y => { y with memCharged := 0, memExempt := false }).owe true

/-- The locked part of `_mem_trim`. -/
def trim (w : World) (c keep : Nat) : World :=
  let x := w.conns c
  if x.memCharged > keep then
    let holders := if keep = 0 then w.srv.memHolders - 1 else w.srv.memHolders
    ({ w with srv := { w.srv with memInUse := sizeSub w.srv.memInUse (x.memCharged - keep), memHolders := holders } }.setConn c
      fun y => { y with memCharged := keep }).owe true
  else w

/-- The start of `_mem_admit`, which another call may be in. -/
def admitCall (w : World) : World :=
  if w.srv.memAdmitting then { w with srv := { w.srv with memAdmitAgain := true }, owed := w.owed - 1 }
  else
    { w with
      srv := { w.srv with memAdmitting := true, memAdmitAgain := false }
      owed := w.owed - 1
      lock := .admitting [] }

/-- The end of a batch of `_mem_admit`. -/
def admitUnlock (w : World) (batch : List Nat) : World :=
  if batch = [] ∧ !w.srv.memAdmitAgain then
    { w with srv := { w.srv with memAdmitting := false }, lock := .free }
  else { w with lock := .free, dispatching := some batch }

/-- Whether `_mem_admit` lets a waiter that does not fit go ahead. -/
def ahead (w : World) : Bool := !w.srv.memExemptActive && decide (w.srv.memHolders = w.srv.memBlocked)

def admitHead (w : World) (batch : List Nat) (c : Nat) : World :=
  let need := (w.conns c).memNeed
  let fits := w.srv.fits need
  let w₁ := ((w.unlink c).grant c need).askedFor c need
  let w₂ := if fits then w₁
    else { w₁ with srv := { w₁.srv with memExemptActive := true } }.setConn c fun x => { x with memExempt := true }
  { w₂ with
    owner := update w.owner c .admission
    lock := .admitting (batch ++ [c])
    admitted := w.admitted ++ [w.ticket c] }

/-- A round of the inner loop of `_mem_admit`. -/
def admitRound (w : World) (batch : List Nat) : World :=
  match w.srv.memHead with
  | some c =>
    if !w.srv.memAdmissionClosed ∧ batch.length < chttpsvrIdleCloseBatch ∧ (w.srv.fits (w.conns c).memNeed ∨ w.ahead) then
      w.admitHead batch c
    else w.admitUnlock batch
  | none => w.admitUnlock batch

/-- A round of the sweep of `_sweep_parked_waits` over the wait list. -/
def sweepRound (w : World) (now : Int) (waitMs cursor : Option Nat) (expired : List Nat) : World :=
  match cursor, waitMs with
  | some c, some ms =>
    if msSince now (w.conns c).memWaitStart ≥ ms then
      { (w.unlink c).give c .thread with
        lock := .sweep now waitMs (w.conns c).memNext (c :: expired)
        swept := w.swept ++ [w.ticket c] }
    else { w with lock := .sweep now waitMs (w.conns c).memNext expired }
  | _, _ => { w with lock := .free, owed := if expired = [] then w.owed else w.owed + 1 }

/-- A round of a batch of `_mem_wait_flush`. -/
def flushRound (w : World) (batch : List Nat) : World :=
  match w.srv.memHead with
  | some c =>
    if batch.length < chttpsvrIdleCloseBatch then
      { (w.unlink c).give c .thread with
        lock := .flush (batch ++ [c])
        flushed := w.flushed ++ [w.ticket c] }
    else { w with lock := .free }
  | none => { w with lock := .free }

def ownedByThread (w : World) (c : Nat) : Bool :=
  decide (c < w.accepted) && match w.owner c with
    | .thread | .refused _ => true
    | .listed | .admission => false

def step (w : World) : Action → Option World
  | .accept => some { w with accepted := w.accepted + 1 }
  | .tryReserve c need =>
    match w.lock with
    | .free => if w.ownedByThread c then some (w.tryReserve c need) else none
    | _ => none
  | .enqueue c now =>
    match w.lock, w.owner c with
    | .free, .refused need => if c < w.accepted then some (w.enqueue c need now) else none
    | _, _ => none
  | .trim c keep =>
    match w.lock with
    | .free => if w.ownedByThread c then some (w.trim c keep) else none
    | _ => none
  | .release c =>
    match w.lock with
    | .free => if w.ownedByThread c then some (w.release c) else none
    | _ => none
  | .admitCall =>
    match w.lock with
    | .free => if 0 < w.owed then some w.admitCall else none
    | _ => none
  | .admitRound =>
    match w.lock with
    | .admitting batch => some (w.admitRound batch)
    | _ => none
  | .dispatch =>
    match w.dispatching with
    | some (c :: rest) => some { w.give c .thread with dispatching := some rest }
    | _ => none
  | .admitRelock =>
    match w.lock, w.dispatching with
    | .free, some [] =>
      some { w with srv := { w.srv with memAdmitAgain := false }, lock := .admitting [], dispatching := none }
    | _, _ => none
  | .sweepLock now waitMs =>
    match w.lock with
    | .free => some { w with lock := .sweep now waitMs w.srv.memHead [] }
    | _ => none
  | .sweepRound =>
    match w.lock with
    | .sweep now waitMs cursor expired => some (w.sweepRound now waitMs cursor expired)
    | _ => none
  | .admissionClose =>
    match w.lock, w.phase with
    | .free, .steady => some { w with srv := { w.srv with memAdmissionClosed := true }, phase := .draining }
    | _, _ => none
  | .flushLock =>
    match w.lock, w.phase with
    | .free, .draining => some { w with lock := .flush [] }
    | _, _ => none
  | .flushRound =>
    match w.lock with
    | .flush batch => some (w.flushRound batch)
    | _ => none
  | .drained =>
    match w.lock, w.phase with
    | .free, .draining => some { w with phase := .steady }
    | _, _ => none
  | .startStore cap =>
    match w.phase with
    | .steady => some { w with srv := { w.srv with memCap := cap }, phase := .starting }
    | _ => none
  | .startReopen =>
    match w.lock, w.phase with
    | .free, .starting => some { w with srv := { w.srv with memAdmissionClosed := false }, phase := .steady }
    | _, _ => none

def start (cap : Nat) : World where
  srv := ⟨cap, 0, 0, 0, 0, none, none, false, false, false, false⟩
  conns := fun _ => .fresh
  accepted := 0
  owner := fun _ => .thread
  lock := .free
  dispatching := none
  owed := 0
  phase := .steady
  asked := fun _ => 0
  ticket := fun _ => 0
  enqueued := 0
  admitted := []
  swept := []
  flushed := []

def Reachable (w : World) : Prop := ∃ cap, Reach step (start cap) w

def keepsLimit (w : World) : Action → Bool
  | .startStore cap => cap = w.srv.memCap
  | _ => true

def stepFixed (w : World) (a : Action) : Option World := if w.keepsLimit a then w.step a else none

def idle (w : World) : Bool :=
  decide (w.owed = 0) && !w.srv.memAdmitting && match w.lock with
    | .sweep _ _ _ (_ :: _) => false
    | _ => true

/-- The head of the list does not fit, and a connection is exempt or one that holds a reservation is not listed. -/
def heldBack (w : World) : Bool :=
  w.srv.memHead.all fun c => !w.srv.fits (w.conns c).memNeed && (w.srv.memExemptActive ||
    (List.range w.accepted).any fun d => decide (0 < (w.conns d).memCharged) && !(w.conns d).inMemWait)

/-- A start in the step leaves nobody waiting who could go on, unless an admission is on its way. -/
def startsFair (w : World) : Action → Bool
  | .startStore cap =>
    w.srv.memAdmissionClosed || !w.idle || { w with srv := { w.srv with memCap := cap } }.heldBack
  | .startReopen => !w.idle || w.heldBack
  | _ => true

def stepFair (w : World) (a : Action) : Option World := if w.startsFair a then w.step a else none

end World

end Ccollections.Chttpserver.BodyMemory
