import Ccollections.Lib.Lists
import Ccollections.Lib.Runs

/-!
# The streaming queue

Streaming requests wait in a queue that token tasks of the streaming pool drain. Each section on `wait_mutex` is one
step. What a thread does between two sections is an activity: starting tokens, flushing the queue, or a token task.
A token task belongs to the run of the server that counted it, and a restart leaves it behind.
-/

namespace Ccollections.Chttpserver.StreamQueue
open Lib

def chttpsvrIdleCloseBatch : Nat := 64

/-- A queued request and its deadline. -/
structure Queued where
  conn : Nat
  deadline : Option Nat
  deriving DecidableEq

/-- `_timespec_reached` of the deadline, when there is one. -/
def Queued.expired (q : Queued) (now : Nat) : Bool := q.deadline.any (· ≤ now)

/-- The fields of `struct chttpserver` around the queue. `starting` is the time between the settings and the end of a
`chttpsvr_start`. -/
structure Server where
  queue : List Queued
  sqLen : Nat
  sqTokens : Nat
  sqUnclaimed : Nat
  streamGen : Nat
  streamThreads : Int
  running : Bool
  starting : Bool

inductive Activity where
  /-- `_stream_enqueue`, with a pool and before its section. -/
  | enqueuing
  /-- `_stream_token_start_one`, before it reads `stream_threads`. -/
  | reading
  /-- The same, before its first section, with what it read. -/
  | locking (nthreads : Nat)
  /-- The same, with a token counted and not submitted. -/
  | submitting (gen : Nat)
  /-- The same, before the section that takes the count back. -/
  | undoing (gen : Nat)
  | flushing
  /-- `_stream_token_task`, before its section. -/
  | task (gen : Nat) (first : Bool)
  /-- The same, with a request it took. -/
  | serving (gen : Nat) (conn : Nat)
  deriving DecidableEq

/-- The server, the activities of its threads, and where its requests went. `runThreads` is `stream_threads` at the
start of the run. -/
structure World where
  srv : Server
  acts : List Activity
  runThreads : Nat
  accepted : Nat
  byTask : List Nat
  bySweep : List Nat
  byFlush : List Nat

inductive Action where
  | enqueue
  | enqueueLock (i : Nat) (deadline : Option Nat) (qcap : Option Nat)
  | startRead (i : Nat)
  | startLock (i : Nat)
  | submit (i : Nat) (ok : Bool)
  | undo (i : Nat)
  | flushBatch (i : Nat)
  | taskLock (i : Nat)
  | served (i : Nat)
  | sweep (now : Nat)
  | flush
  | startStore (streamingThreadCount workerThreadCount cpus : Int)
  | startRun
  | startFail
  | startDone
  | retire

/-- The conversion of an `int` to `size_t`. -/
def toSize (n : Int) : Nat := if n < 0 then (n + 2 ^ 64).toNat else n.toNat

/-- The worker count that `chttpsvr_start` resolves. -/
def resolveWorkers (workerThreadCount cpus : Int) : Int :=
  if workerThreadCount ≤ 0 then (if cpus > 0 then cpus else 1) else workerThreadCount

def resolveStreamThreads (streamingThreadCount nthreads : Int) : Int :=
  let st := if streamingThreadCount = 0 then nthreads else streamingThreadCount
  if st < 0 then -1 else st

/-- `_stream_new_run_locked`. -/
def Server.newRun (s : Server) (running : Bool) : Server :=
  { s with sqTokens := 0, sqUnclaimed := 0, streamGen := s.streamGen + 1, running := running }

namespace World

def become (w : World) (i : Nat) (a : Activity) : World := { w with acts := w.acts.set i a }

def finish (w : World) (i : Nat) : World := { w with acts := w.acts.eraseIdx i }

def spawn (w : World) (a : Activity) : World := { w with acts := a :: w.acts }

def newRun (w : World) (running : Bool) : World :=
  { w with srv := w.srv.newRun running, runThreads := toSize w.srv.streamThreads }

/-- `_stream_enqueue` up to its section. A server that is not running has no pool. -/
def enqueue (w : World) : World := if w.srv.running then w.spawn .enqueuing else w

/-- The section of `_stream_enqueue`, and what it goes on to. -/
def enqueueLock (w : World) (i : Nat) (deadline qcap : Option Nat) : World :=
  if qcap.any (· ≤ w.srv.sqLen) then w.finish i
  else
    { w with
      srv := { w.srv with queue := w.srv.queue ++ [⟨w.accepted, deadline⟩], sqLen := w.srv.sqLen + 1 }
      accepted := w.accepted + 1
      acts := w.acts.set i .reading }

/-- The first section of `_stream_token_start_one`. -/
def startLock (w : World) (i nthreads : Nat) : World :=
  if w.srv.queue ≠ [] ∧ w.srv.sqUnclaimed < w.srv.sqLen ∧ w.srv.sqTokens < nthreads then
    { w with
      srv := { w.srv with sqTokens := w.srv.sqTokens + 1, sqUnclaimed := w.srv.sqUnclaimed + 1 }
      acts := w.acts.set i (.submitting w.srv.streamGen) }
  else w.finish i

/-- The last section of `_stream_token_start_one`, and what it goes on to. -/
def undo (w : World) (i gen : Nat) : World :=
  if w.srv.streamGen = gen then
    let srv := { w.srv with sqTokens := w.srv.sqTokens - 1, sqUnclaimed := w.srv.sqUnclaimed - 1 }
    if srv.sqTokens = 0 then { w with srv := srv, acts := w.acts.set i .flushing }
    else { w with srv := srv, acts := w.acts.eraseIdx i }
  else w.become i .reading

/-- One batch of `_stream_queue_flush`. -/
def flushBatch (w : World) (i : Nat) : World :=
  let batch := w.srv.queue.take chttpsvrIdleCloseBatch
  if batch = [] then w.finish i
  else
    { w with
      srv := { w.srv with queue := w.srv.queue.drop batch.length, sqLen := w.srv.sqLen - batch.length }
      byFlush := w.byFlush ++ batch.map Queued.conn }

/-- A section of `_stream_token_task`. -/
def taskLock (w : World) (i gen : Nat) (first : Bool) : World :=
  if w.srv.streamGen ≠ gen then w.become i .reading
  else
    let srv := { w.srv with sqUnclaimed := if first then w.srv.sqUnclaimed - 1 else w.srv.sqUnclaimed }
    match srv.queue with
    | [] => { w with srv := { srv with sqTokens := srv.sqTokens - 1 }, acts := w.acts.eraseIdx i }
    | c :: rest =>
      { w with
        srv := { srv with queue := rest, sqLen := srv.sqLen - 1 }
        acts := w.acts.set i (.serving gen c.conn)
        byTask := w.byTask ++ [c.conn] }

/-- The section of `_sweep_parked_waits` on the queue. -/
def sweep (w : World) (now : Nat) : World :=
  let expired := w.srv.queue.filter (·.expired now)
  { w with
    srv := { w.srv with
      queue := w.srv.queue.filter fun q => !q.expired now
      sqLen := w.srv.sqLen - expired.length }
    bySweep := w.bySweep ++ expired.map Queued.conn }

def step (w : World) : Action → Option World
  | .enqueue => some w.enqueue
  | .enqueueLock i deadline qcap =>
    match w.acts[i]? with
    | some .enqueuing => some (w.enqueueLock i deadline qcap)
    | _ => none
  | .startRead i =>
    match w.acts[i]? with
    | some .reading => some (w.become i (.locking (toSize w.srv.streamThreads)))
    | _ => none
  | .startLock i =>
    match w.acts[i]? with
    | some (.locking nthreads) => some (w.startLock i nthreads)
    | _ => none
  | .submit i ok =>
    match w.acts[i]? with
    | some (.submitting gen) =>
      if ok then some ((w.become i .reading).spawn (.task gen true)) else some (w.become i (.undoing gen))
    | _ => none
  | .undo i =>
    match w.acts[i]? with
    | some (.undoing gen) => some (w.undo i gen)
    | _ => none
  | .flushBatch i =>
    match w.acts[i]? with
    | some .flushing => some (w.flushBatch i)
    | _ => none
  | .taskLock i =>
    match w.acts[i]? with
    | some (.task gen first) => some (w.taskLock i gen first)
    | _ => none
  | .served i =>
    match w.acts[i]? with
    | some (.serving gen _) => some (w.become i (.task gen false))
    | _ => none
  | .sweep now => some (w.sweep now)
  | .flush => some (w.spawn .flushing)
  | .startStore streamingThreadCount workerThreadCount cpus =>
    if w.srv.starting then none
    else
      some { w with srv := { w.srv with
        streamThreads := resolveStreamThreads streamingThreadCount (resolveWorkers workerThreadCount cpus)
        starting := true } }
  | .startRun => if w.srv.starting then some ((w.newRun true).spawn .reading) else none
  | .startFail => if w.srv.starting then some ((w.newRun false).spawn .reading) else none
  | .startDone => if w.srv.starting then some { w with srv := { w.srv with starting := false } } else none
  -- The teardown of a server that is going away starts no tokens. It flushes the queue until no connection is left.
  | .retire => some ((w.newRun false).spawn .flushing)

def start : World := ⟨⟨[], 0, 0, 0, 0, 0, false, false⟩, [], 0, 0, [], [], []⟩

def Reachable : World → Prop := Reach step start

end World

end Ccollections.Chttpserver.StreamQueue
