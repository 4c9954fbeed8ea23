import Ccollections.Clogger.Flush

/-!
# An asynchronous logger with a bounded queue

Threads hand their records to the writer thread through the queue. A thread whose envelope gets no memory, or whose send
is refused, waits for a flush of its own and then writes the record itself. Sends wait for a place in the queue.
-/

namespace Ccollections.Clogger

/-- The messages of the queue: a job, the flush a thread waits for, a wake. -/
inductive Message where
  | job (thread seq : Nat)
  | flush (thread : Nat)
  | wake
deriving DecidableEq

/-- Why a thread writes a record itself. -/
inductive Fallback where
  | noEnvelope
  | sendRefused
deriving DecidableEq

/-- Where a thread stands in `_clog_write_async`. -/
inductive Stage where
  | idle
  | sending
  | asking (f : Fallback)
  | waiting (f : Fallback)
  | writing (f : Fallback)
  | waking
deriving DecidableEq

/-- The target, the queue, the message the writer took, and where every thread stands. -/
structure Logger where
  target : Target
  queue : List Message
  hand : Option Message
  stage : Nat → Stage
  logged : Nat → Nat

namespace Logger

def opened (before : List UInt8) : Logger where
  target := .opened before
  queue := []
  hand := none
  stage := fun _ => .idle
  logged := fun _ => 0

def setStage (l : Logger) (thread : Nat) (s : Stage) : Logger := { l with stage := Function.update l.stage thread s }

def next (l : Logger) (thread : Nat) : Logger := { l with logged := Function.update l.logged thread (l.logged thread + 1) }

def enqueue (l : Logger) (m : Message) : Logger := { l with queue := l.queue ++ [m] }

end Logger

/-- What a call logs. -/
structure Logged where
  level : ClogLevel
  withBacktrace : Bool
  messageLength : Nat

def Logged.call (g : Logged) (thread seq : Nat) : Call := ⟨thread, seq, g.level, g.withBacktrace, g.messageLength⟩

/-- The steps of the threads and of the writer thread, each under one lock at most. -/
inductive Act where
  | log (thread : Nat) (envelope : Bool)
  | send (thread : Nat)
  | refuse (thread : Nat)
  | ask (thread : Nat)
  | write (thread : Nat) (g : Logged) (joined built : Build)
  | wake (thread : Nat)
  | take
  | handle (g : Logged) (first second : Build) (oom : Bool)
  | interval

namespace Logger

/-- Record buffers grow and records fit the batch buffer. -/
def fits (t : Target) (first second : Build) (oom : Bool) : Bool :=
  !t.needsRetry first || !oom && match second with
    | .failed => false
    | _ => true

def handleMessage (c : Config) (e : Env) (l : Logger) (m : Message) (g : Logged) (first second : Build) (oom : Bool) :
    Option Logger :=
  let l := { l with hand := none }
  match m with
  | .job thread seq =>
    if fits l.target first second oom then
      some { l with target := l.target.job c e (g.call thread seq) first second oom }
    else none
  | .flush thread =>
    let l := { l with target := l.target.writerFlushBuffer c e }
    match l.stage thread with
    | .waiting f => some (l.setStage thread (.writing f))
    | _ => some l
  | .wake => some { l with target := l.target.writerFlushBuffer c e }

/-- `_clog_write_sync` for a record without an envelope, the end of `_clog_write_async` for a refused one. -/
def writeDirect (c : Config) (e : Env) (l : Logger) (thread : Nat) (g : Logged) (joined built : Build) (f : Fallback) :
    Option Logger :=
  let k := g.call thread (l.logged thread)
  let l := (l.setStage thread .waking).next thread
  match f, joined with
  | .noEnvelope, _ => some { l with target := l.target.writeSync c e k built }
  | .sendRefused, .record _ => some { l with target := l.target.writeRefused c e k joined built }
  | .sendRefused, _ => none

def step (c : Config) (e : Env) (cap : Nat) (l : Logger) : Act → Option Logger
  | .log thread envelope =>
    if l.stage thread = .idle then
      some (l.setStage thread (if envelope then .sending else .asking .noEnvelope))
    else none
  | .send thread =>
    if l.stage thread = .sending ∧ l.queue.length < cap then
      some (((l.setStage thread .idle).next thread).enqueue (.job thread (l.logged thread)))
    else none
  | .refuse thread => if l.stage thread = .sending then some (l.setStage thread (.asking .sendRefused)) else none
  | .ask thread =>
    match l.stage thread with
    | .asking f =>
      if l.queue.length < cap then some ((l.setStage thread (.waiting f)).enqueue (.flush thread)) else none
    | _ => none
  | .write thread g joined built =>
    match l.stage thread with
    | .writing f => l.writeDirect c e thread g joined built f
    | _ => none
  | .wake thread =>
    if l.stage thread = .waking then
      let l := l.setStage thread .idle
      some (if l.queue.length < cap then l.enqueue .wake else l)
    else none
  | .take =>
    match l.hand, l.queue with
    | none, m :: queue => some { l with hand := some m, queue := queue }
    | _, _ => none
  | .handle g first second oom =>
    match l.hand with
    | some m => l.handleMessage c e m g first second oom
    | none => none
  | .interval => if l.hand = none then some { l with target := l.target.writerFlushBuffer c e } else none

def batchFreeOf (t : Target) (thread : Nat) : Bool :=
  t.asyncBuf.all fun x => x.part.all fun q =>
    match q.unit with
    | .record th _ => th ≠ thread
    | .trailer th _ => th ≠ thread
    | _ => true

/-- Before a thread whose envelope got no memory writes its record, the batch holds no other record of it. -/
def batchFree (c : Config) (e : Env) (l : Logger) : Act → Bool
  | .write thread _ _ _ => l.stage thread ≠ .writing .noEnvelope || batchFreeOf (l.target.settled c e) thread
  | _ => true

def stepFree (c : Config) (e : Env) (cap : Nat) (l : Logger) (a : Act) : Option Logger :=
  if l.batchFree c e a then l.step c e cap a else none

end Logger

end Ccollections.Clogger
