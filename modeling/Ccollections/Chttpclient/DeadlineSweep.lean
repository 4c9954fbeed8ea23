import Ccollections.Lib.Runs
import Mathlib.Algebra.Order.Ring.Nat
import Mathlib.Logic.Function.Basic
import Mathlib.Data.List.Basic

/-!
# The deadline sweep

One thread sleeps until the earliest deadline of the asynchronous hops and then walks over all of them. Threads that set
a deadline lower `g_sweep_next_ns` and wake the sweep when it plans to sleep past it. Every access to an atomic is one
step, and so is every critical section under the lock of a stripe or of a context. Instants are nanoseconds on the
monotonic clock, as `_timespec_to_ns` gives them.
-/

namespace Ccollections.Chttpclient.DeadlineSweep
open Lib Function

def uint64Max : Nat := 2 ^ 64 - 1

def chttpDeadlineSweepStripes : Nat := 16

def chttpDeadlineSweepBatch : Nat := 256

/-- `CHTTP_DEADLINE_SWEEP_INTERVAL_MS` in nanoseconds. -/
def sweepIntervalNs : Nat := 100 * 1000000

inductive AsyncState where
  | connecting
  | tlsHandshaking
  | writing
  | awaitingContinue
  | reading
  | idle
  deriving DecidableEq

/-- What the sweep reads and writes of a `chttp_async_ctx_t`. A deadline that is not active is none. -/
structure AsyncCtx where
  state : AsyncState
  hasChain : Bool
  hasFd : Bool
  connectDeadline : Option Nat
  overallDeadline : Option Nat
  continueDeadline : Option Nat
  inactivityUs : Nat
  lastIoNs : Nat
  inSink : Bool
  sinkReturnedNs : Nat
  timedOut : Bool
  abandoned : Bool
  continueDecided : Bool
  continueMsgStarted : Bool

/-- The deadlines that are noted; `attempt` is the start of the next connection attempt of a race. -/
inductive Kind where
  | connect
  | overall
  | window
  | attempt
  deriving DecidableEq

/-! ## The judgement of a context -/

/-- What a tick found out about a context so far. -/
structure Verdict where
  expired : Bool
  next : Nat
  lastIoNs : Nat

/-- `_deadline_remaining_ms`, as whether time is left. -/
def deadlineRemaining (d : Option Nat) (now : Nat) : Bool := d.all (now < ·)

def sweepEarlier (next : Nat) (d : Option Nat) (remaining : Bool) : Nat :=
  match d with
  | some t => if remaining && t < next then t else next
  | none => next

def judgeDeadline (d : Option Nat) (now : Nat) (v : Verdict) : Verdict :=
  let left := deadlineRemaining d now
  { v with expired := !left, next := sweepEarlier v.next d left }

namespace AsyncCtx

def isConnecting (x : AsyncCtx) : Bool := x.state = .connecting || x.state = .tlsHandshaking

def judgeConnect (x : AsyncCtx) (now : Nat) (v : Verdict) : Verdict :=
  if x.isConnecting then judgeDeadline x.connectDeadline now v else v

def judgeOverall (x : AsyncCtx) (now : Nat) (v : Verdict) : Verdict :=
  if !v.expired && x.hasChain then judgeDeadline x.overallDeadline now v else v

def inactivityDue (x : AsyncCtx) (last : Nat) : Nat :=
  let budget := if x.inactivityUs > uint64Max / 1000 then uint64Max else x.inactivityUs * 1000
  if last > uint64Max - budget then uint64Max else last + budget

def judgeInactivity (x : AsyncCtx) (now : Nat) (v : Verdict) : Verdict :=
  if !v.expired && x.hasChain && decide (x.inactivityUs ≠ 0) &&
      (x.state = .writing || x.state = .awaitingContinue || x.state = .reading) && !x.inSink then
    let last := if x.sinkReturnedNs > x.lastIoNs then x.sinkReturnedNs else x.lastIoNs
    let v := if last = 0 then { v with lastIoNs := now } else v
    let due := x.inactivityDue (if last = 0 then now else last)
    if now ≥ due then { v with expired := true }
    else if due < v.next then { v with next := due }
    else v
  else v

/-- Whether the wait for a `100 Continue` is still undecided. -/
def isWaiting (x : AsyncCtx) : Bool := x.state = .awaitingContinue && !x.continueDecided && !x.continueMsgStarted

def judgeWindow (x : AsyncCtx) (now : Nat) (v : Verdict) : Verdict :=
  if !v.expired && x.isWaiting then
    { v with next := sweepEarlier v.next x.continueDeadline (deadlineRemaining x.continueDeadline now) }
  else v

def deadline (x : AsyncCtx) : Kind → Option Nat
  | .connect => x.connectDeadline
  | .overall => x.overallDeadline
  | .window => x.continueDeadline
  | .attempt => none

def applies (x : AsyncCtx) : Kind → Bool
  | .connect => x.isConnecting
  | .overall => x.hasChain
  | .window => x.isWaiting
  | .attempt => false

/-- The section under `deadline_lock` for a context that no earlier tick has timed out. -/
def judge (x : AsyncCtx) (now next : Nat) : Verdict :=
  x.judgeWindow now (x.judgeInactivity now (x.judgeOverall now (x.judgeConnect now ⟨false, next, x.lastIoNs⟩)))

end AsyncCtx

/-! ## The threads -/

/-- Where a thread is in `_client_deadline_note_ns`. -/
inductive NotePc where
  | load
  | cas (cur : Nat)
  | planned
  | signal
  deriving DecidableEq

/-- A thread that notes deadlines of its context. One that opens a `100 Continue` window publishes the state behind
that. -/
structure Noter where
  ctx : Option Nat
  todo : List (Kind × Option Nat)
  pc : NotePc
  publishes : Bool

def Noter.urgent (a : Noter) (planned : Nat) : Bool :=
  match a.pc, a.todo with
  | .signal, _ => true
  | .planned, (_, some t) :: _ => t < planned
  | _, _ => false

def Noter.owes (a : Noter) (k : Kind) : Bool :=
  match a.pc with
  | .planned | .signal => a.todo.tail.any (·.1 = k)
  | .load | .cas _ => a.todo.any (·.1 = k)

/-- The counts of a tick of `_client_deadline_sweep_once`. -/
structure Tick where
  stripe : Nat
  next : Nat
  shutdown : Nat
  abandoned : Nat
  deriving DecidableEq

/-- Where the sweep thread is. From `planning` to `clearing` it holds the mutex of the sweep, but for its wait. -/
inductive SweepPc where
  | off
  | planning
  | publishing (now wake next : Nat)
  | rechecking (now wake next : Nat)
  | waiting (wake : Nat)
  | clearing
  | resetting
  | between (t : Tick)
  | inStripe (t : Tick) (rest : List Nat)
  | noting (next : Nat)
  | lowering (next cur : Nat)
  | ended
  deriving DecidableEq

/-- `next` is `g_sweep_next_ns`, `planned` is `g_sweep_planned_ns`, and `unseen` has the contexts for which a walk began
before the state that makes a window apply was published. -/
structure World where
  next : Nat
  planned : Nat
  signaled : Bool
  stop : Bool
  clock : Nat
  lastWalk : Nat
  sweep : SweepPc
  ctxs : Nat → AsyncCtx
  stripes : Nat → List Nat
  noters : List Noter
  unseen : Nat → Bool

inductive Action where
  | tick (ns : Nat)
  | submit (c : Nat) (connect overall : Option Nat) (inactivityUs : Nat)
  | reuse (c : Nat) (overall : Option Nat) (inactivityUs : Nat)
  | openWindow (c : Nat) (window : Nat)
  | attempt (start : Nat)
  | note (i : Nat) (weak : Bool)
  | moveOn (c : Nat) (state : AsyncState)
  | connected (c : Nat)
  | io (c lastIoNs : Nat) (inSink : Bool) (sinkReturnedNs : Nat)
  | decided (c : Nat)
  | msgStarted (c : Nat)
  | offer (c : Nat)
  | unregister (c : Nat)
  | sweepStart
  | sweepStop
  | wake
  | sweep (race : Option Nat)
  | raceLower (start : Nat)

namespace World

def setCtx (w : World) (c : Nat) (x : AsyncCtx) : World := { w with ctxs := update w.ctxs c x }

def become (w : World) (i : Nat) (a : Noter) : World := { w with noters := w.noters.set i a }

def finish (w : World) (i : Nat) : World := { w with noters := w.noters.eraseIdx i }

/-- A call of `_client_deadline_note` returns. -/
def noted (w : World) (i : Nat) (a : Noter) (rest : List (Kind × Option Nat)) : World :=
  if rest = [] ∧ a.publishes = false then w.finish i else w.become i { a with todo := rest, pc := .load }

def busy (w : World) (c : Nat) : Bool := w.noters.any fun a => a.ctx = some c

def locked (w : World) (s : Nat) : Bool :=
  match w.sweep with
  | .inStripe t _ => t.stripe = s
  | _ => false

def isAsleep (w : World) : Bool :=
  match w.sweep with
  | .waiting _ => true
  | _ => false

def holdsMutex (w : World) : Bool :=
  match w.sweep with
  | .planning | .publishing .. | .rechecking .. | .clearing => true
  | _ => false

section

variable (stripeOf : Nat → Fin 16)

def registered (w : World) (c : Nat) : Prop := c ∈ w.stripes (stripeOf c)

instance (w : World) (c : Nat) : Decidable (w.registered stripeOf c) := inferInstanceAs (Decidable (_ ∈ _))

def submit (w : World) (c : Nat) (connect overall : Option Nat) (inactivityUs : Nat) : World :=
  { w.setCtx c {
      state := .connecting, hasChain := true, hasFd := false, connectDeadline := connect, overallDeadline := overall,
      continueDeadline := none, inactivityUs := inactivityUs, lastIoNs := 0, inSink := false, sinkReturnedNs := 0,
      timedOut := false, abandoned := false, continueDecided := false, continueMsgStarted := false } with
    stripes := update w.stripes (stripeOf c) (c :: w.stripes (stripeOf c))
    noters := ⟨some c, [(.connect, connect), (.overall, overall)], .load, false⟩ :: w.noters }

end

/-- `_async_idle_pool_take` hands an idle connection to a chain. -/
def reuse (w : World) (c : Nat) (overall : Option Nat) (inactivityUs : Nat) : World :=
  { w.setCtx c { w.ctxs c with
      overallDeadline := overall, inactivityUs := inactivityUs, lastIoNs := 0, timedOut := false, hasChain := true, state := .writing } with
    noters := ⟨some c, [(.overall, overall)], .load, false⟩ :: w.noters }

/-- `_deadline_earlier` of the window and the deadline of the request. -/
def windowDeadline (window : Nat) (overall : Option Nat) : Nat :=
  match overall with
  | some t => if window ≤ t then window else t
  | none => window

/-- The header block is out, and a `100 Continue` is awaited: the window is stored and noted before the state is. -/
def openWindow (w : World) (c window : Nat) : World :=
  let d := windowDeadline window (w.ctxs c).overallDeadline
  { w.setCtx c { w.ctxs c with continueDeadline := some d } with
    noters := ⟨some c, [(.window, some d)], .load, true⟩ :: w.noters
    unseen := update w.unseen c false }

def note (w : World) (i : Nat) (a : Noter) (weak : Bool) : Option World :=
  match a.todo with
  | [] =>
    match a.ctx with
    | some c => some ({ w with ctxs := update w.ctxs c { w.ctxs c with state := .awaitingContinue } }.finish i)
    | none => some (w.finish i)
  | (_, none) :: rest => some (w.noted i a rest)
  | (_, some t) :: rest =>
    match a.pc with
    | .load => some (if t < w.next then w.become i { a with pc := .cas w.next } else w.noted i a rest)
    | .cas cur =>
      if w.next = cur ∧ weak = false then some ({ w with next := t }.become i { a with pc := .planned })
      else some (if t < w.next then w.become i { a with pc := .cas w.next } else w.noted i a rest)
    | .planned => some (if t ≥ w.planned then w.noted i a rest else w.become i { a with pc := .signal })
    | .signal => if w.holdsMutex then none else some ({ w with signaled := w.signaled || w.isAsleep }.noted i a rest)

def mayMove (x : AsyncCtx) (state : AsyncState) : Bool :=
  match state with
  | .connecting => x.state = .connecting
  | .tlsHandshaking => x.state = .connecting
  | .writing | .reading => x.state ≠ .idle
  | .awaitingContinue | .idle => false

/-- `_async_idle_pool_offer`. -/
def offered (x : AsyncCtx) : AsyncCtx :=
  { x with
    hasChain := false, state := .idle, timedOut := false, abandoned := false, continueDecided := false,
    continueMsgStarted := false }

def visit (w : World) (t : Tick) (c : Nat) (race : Option Nat) : AsyncCtx × Tick :=
  let x := w.ctxs c
  if x.timedOut then
    if x.hasChain && decide (t.abandoned < chttpDeadlineSweepBatch) && !x.abandoned then
      ({ x with abandoned := true }, { t with shutdown := t.shutdown + 1, abandoned := t.abandoned + 1 })
    else (x, t)
  else
    let v := x.judge w.clock t.next
    let x := { x with timedOut := v.expired, lastIoNs := v.lastIoNs }
    let t := { t with next := v.next }
    let race := if x.state = .connecting then race else none
    if v.expired then
      if !x.hasFd && race.isNone && x.hasChain && decide (x.state = .connecting) &&
          decide (t.abandoned < chttpDeadlineSweepBatch) && !x.abandoned then
        ({ x with abandoned := true }, { t with shutdown := t.shutdown + 1, abandoned := t.abandoned + 1 })
      else (x, { t with shutdown := t.shutdown + 1 })
    else
      match race with
      | some start => (x, { t with next := min start t.next })
      | none => (x, t)

def sweepStep (w : World) (race : Option Nat) : Option World :=
  match w.sweep with
  | .off | .waiting _ => none
  | .planning =>
    if w.stop then some { w with planned := 0, sweep := .off }
    else some { w with sweep := .publishing w.clock (w.lastWalk + sweepIntervalNs) w.next }
  | .publishing now wake next =>
    let plan := min next wake
    some { w with planned := if plan > 0 then plan else 1, sweep := .rechecking now wake next }
  | .rechecking now wake next =>
    if w.next = next then
      let wake := min next wake
      if wake > now then some { w with sweep := .waiting wake, signaled := false } else some { w with sweep := .clearing }
    else some { w with sweep := .publishing now wake w.next }
  | .clearing => some { w with planned := 0, sweep := .resetting }
  | .resetting =>
    some { w with
      next := uint64Max
      sweep := .between ⟨0, uint64Max, 0, 0⟩
      unseen := fun c => w.unseen c || w.noters.any fun a => a.publishes && decide (a.ctx = some c) }
  | .between t =>
    if t.stripe < chttpDeadlineSweepStripes ∧ t.shutdown < chttpDeadlineSweepBatch then
      some { w with sweep := .inStripe t (w.stripes t.stripe) }
    else some { w with sweep := .noting (if t.shutdown ≥ chttpDeadlineSweepBatch then 0 else t.next) }
  | .inStripe t rest =>
    match rest with
    | c :: rest =>
      if t.shutdown < chttpDeadlineSweepBatch then
        let (x, t) := w.visit t c race
        some { w.setCtx c x with sweep := .inStripe t rest }
      else some { w with sweep := .between { t with stripe := t.stripe + 1 } }
    | [] => some { w with sweep := .between { t with stripe := t.stripe + 1 } }
  | .noting next =>
    if next < w.next then some { w with sweep := .lowering next w.next } else some { w with sweep := .ended }
  | .lowering next cur =>
    if w.next = cur then some { w with next := next, sweep := .ended }
    else if next < w.next then some { w with sweep := .lowering next w.next }
    else some { w with sweep := .ended }
  | .ended => some { w with lastWalk := w.clock, sweep := .planning }

section

variable (stripeOf : Nat → Fin 16)

def step (w : World) : Action → Option World
  | .tick ns => some { w with clock := w.clock + ns }
  | .submit c connect overall inactivityUs =>
    if ¬w.registered stripeOf c ∧ w.busy c = false ∧ w.locked (stripeOf c) = false then
      some (w.submit stripeOf c connect overall inactivityUs)
    else none
  | .reuse c overall inactivityUs =>
    if w.registered stripeOf c ∧ w.busy c = false ∧ (w.ctxs c).state = .idle then
      some (w.reuse c overall inactivityUs)
    else none
  | .openWindow c window =>
    if w.registered stripeOf c ∧ w.busy c = false ∧ (w.ctxs c).state = .writing then some (w.openWindow c window) else none
  | .attempt start => some { w with noters := ⟨none, [(.attempt, some start)], .load, false⟩ :: w.noters }
  | .note i weak =>
    match w.noters[i]? with
    | some a => w.note i a weak
    | none => none
  | .moveOn c state =>
    if w.busy c = false ∧ mayMove (w.ctxs c) state = true then some (w.setCtx c { w.ctxs c with state := state }) else none
  | .connected c => some (w.setCtx c { w.ctxs c with hasFd := true })
  | .io c lastIoNs inSink sinkReturnedNs =>
    some (w.setCtx c { w.ctxs c with lastIoNs := lastIoNs, inSink := inSink, sinkReturnedNs := sinkReturnedNs })
  | .decided c => if w.busy c = false then some (w.setCtx c { w.ctxs c with continueDecided := true }) else none
  | .msgStarted c => if w.busy c = false then some (w.setCtx c { w.ctxs c with continueMsgStarted := true }) else none
  | .offer c => if w.busy c = false then some (w.setCtx c (offered (w.ctxs c))) else none
  | .unregister c =>
    if w.registered stripeOf c ∧ w.busy c = false ∧ w.locked (stripeOf c) = false then
      some { w with stripes := update w.stripes (stripeOf c) ((w.stripes (stripeOf c)).erase c) }
    else none
  | .sweepStart =>
    match w.sweep with
    | .off => some { w with stop := false, lastWalk := w.clock, sweep := .planning }
    | _ => none
  | .sweepStop => if w.holdsMutex then none else some { w with stop := true, signaled := w.signaled || w.isAsleep }
  | .wake =>
    match w.sweep with
    | .waiting _ => some { w with signaled := false, sweep := .planning }
    | _ => none
  | .sweep race => w.sweepStep race
  | .raceLower start =>
    match w.sweep with
    | .inStripe _ _ => some { w with next := min start w.next }
    | _ => none

end

def noCtx : AsyncCtx :=
  ⟨.idle, false, false, none, none, none, 0, 0, false, 0, false, false, false, false⟩

def start : World := ⟨uint64Max, 0, false, false, 0, 0, .off, fun _ => noCtx, fun _ => [], [], fun _ => false⟩

/-! ### What a sleeping sweep has to know -/

def wakePending (w : World) : Bool := w.signaled || w.noters.any (·.urgent w.planned)

/-- A thread is in its call that notes this deadline, and before the step with which the call takes effect. -/
def owed (w : World) (c : Nat) (k : Kind) : Prop := ∃ a ∈ w.noters, a.ctx = some c ∧ a.owes k = true

def Reachable (stripeOf : Nat → Fin 16) (w : World) : Prop := Reach (step stripeOf) start w

end World

end Ccollections.Chttpclient.DeadlineSweep
