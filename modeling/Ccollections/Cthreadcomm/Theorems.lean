import Ccollections.Cthreadcomm.Lemmas.Ccircq
import Ccollections.Cthreadcomm.Lemmas.Cdynmq
import Ccollections.Cthreadcomm.Lemmas.Ceventloop

/-!
# What the message queues promise

The states are those that any interleaving of the sections of any number of threads reaches from a new queue.
-/

namespace Ccollections.Cthreadcomm
open Lib

theorem circq_holds {maxSize : Nat} {st : MonitorState Ccircq QueueCond (QueueOp CircqSend) QueueReply}
    (hsize : verifyCircularQueueCreateInputs maxSize = true) (h : circqMonitor.Reachable (ccircqCreate maxSize) st) :
    Holds CircqRep heedsCircq st := by
  have hpos : 0 < maxSize := by
    simp only [verifyCircularQueueCreateInputs, Bool.and_eq_true, decide_eq_true_eq] at hsize
    exact Nat.pos_of_ne_zero hsize.1.1
  exact Holds.reachable circq_implementsQueue (circqRep_create hpos) h

theorem dynmq_holds {st : MonitorState Cdynmq QueueCond (QueueOp DynmqSend) QueueReply} (h : dynmqMonitor.Reachable cdynmqCreate st) :
    Holds DynmqRep heedsDynmq st := Holds.reachable dynmq_implementsQueue dynmqRep_create h

/-- The two queues deliver every message that a send took once and in order. -/
theorem cthreadcomm_queues_deliver_in_order :
    (∀ maxSize st, verifyCircularQueueCreateInputs maxSize = true → circqMonitor.Reachable (ccircqCreate maxSize) st →
      Delivers Ccircq.view Ccircq.msgCount circqMonitor heedsCircq st) ∧
    (∀ st, dynmqMonitor.Reachable cdynmqCreate st → Delivers Cdynmq.view Cdynmq.msgCount dynmqMonitor heedsDynmq st) := by
  constructor
  · intro maxSize st hsize h
    exact (circq_holds hsize h).delivers (fun _ _ => CircqRep.view_eq) circq_implementsQueue
  · intro st h
    exact (dynmq_holds h).delivers (fun _ _ => DynmqRep.view_eq) dynmq_implementsQueue

/-- Two senders wait for room in a queue of one message when a receive takes it. -/
def fullRun : List (MonitorAction (QueueOp CircqSend) QueueInput) :=
  [.call 0 (.send .send (some ⟨some 7, 1⟩)), .run 0 ⟨.ok, true⟩ 0, .call 1 (.send .send (some ⟨some 8, 1⟩)), .run 1 ⟨.ok, true⟩ 0,
    .call 2 (.send (.ownerSend 5) (some ⟨some 9, 1⟩)), .run 2 ⟨.ok, true⟩ 0, .call 3 (.recv .recv true), .run 3 ⟨.ok, true⟩ 1]

def stoppedRun : List (MonitorAction (QueueOp CircqSend) QueueInput) :=
  fullRun ++ [.call 4 .disableSending, .run 4 ⟨.ok, true⟩ 0, .run 1 ⟨.ok, true⟩ 0, .run 2 ⟨.ok, true⟩ 0]

theorem cthreadcomm_queues_deliver_in_order_stopped :
    ∃ st, circqMonitor.steps (Monitor.initial (ccircqCreate 1)) stoppedRun = some st ∧ accepted st.history = [⟨some 7, 1⟩, ⟨some 9, 1⟩] ∧
      received st.history = [⟨some 7, 1⟩] ∧ Delivers Ccircq.view Ccircq.msgCount circqMonitor heedsCircq st := by
  have hrun : (circqMonitor.steps (Monitor.initial (ccircqCreate 1)) stoppedRun).map (fun st => (accepted st.history, received st.history)) =
      some ([⟨some 7, 1⟩, ⟨some 9, 1⟩], [⟨some 7, 1⟩]) := by decide
  obtain ⟨st, hst, hmsgs⟩ := Option.map_eq_some_iff.mp hrun
  obtain ⟨haccepted, hreceived⟩ := Prod.mk.inj hmsgs
  have hreach := (Monitor.Reachable.initial (m := circqMonitor)).steps hst
  exact ⟨st, hst, haccepted, hreceived, cthreadcomm_queues_deliver_in_order.1 1 st (by decide) hreach⟩

/-- No wakeup of a thread that waits on one of the two queues is lost. -/
theorem cthreadcomm_queues_lose_no_wakeup :
    (∀ maxSize st, verifyCircularQueueCreateInputs maxSize = true → circqMonitor.Reachable (ccircqCreate maxSize) st →
      NoLostWakeup Ccircq.view Ccircq.msgCount heedsCircq st) ∧
    (∀ st, dynmqMonitor.Reachable cdynmqCreate st → NoLostWakeup Cdynmq.view Cdynmq.msgCount heedsDynmq st) := by
  constructor
  · intro maxSize st hsize h
    exact (circq_holds hsize h).noLostWakeup fun _ _ => CircqRep.view_eq
  · intro st h
    exact (dynmq_holds h).noLostWakeup fun _ _ => DynmqRep.view_eq

theorem cthreadcomm_queues_lose_no_wakeup_full :
    ∃ st, circqMonitor.steps (Monitor.initial (ccircqCreate 1)) fullRun = some st ∧ (st.conds .write).asleep = {2} ∧
      NoLostWakeup Ccircq.view Ccircq.msgCount heedsCircq st := by
  have hrun : (circqMonitor.steps (Monitor.initial (ccircqCreate 1)) fullRun).map (fun st => (st.conds .write).asleep) = some {2} := by
    decide
  obtain ⟨st, hst, hasleep⟩ := Option.map_eq_some_iff.mp hrun
  have hreach := (Monitor.Reachable.initial (m := circqMonitor)).steps hst
  exact ⟨st, hst, hasleep, cthreadcomm_queues_lose_no_wakeup.1 1 st (by decide) hreach⟩

end Ccollections.Cthreadcomm

/-! ## The event loop -/

namespace Ccollections.Cthreadcomm.Ceventloop
open Lib

/-- Two registrations of one fd, and data is reported for the reader. -/
def dataRun : List Act :=
  [.add .read ⟨true, false, true⟩, .add .write ⟨false, true, true⟩, .fetch 0 ⟨true, false, false, false, false⟩]

/-- A reader whose data is on its way makes room for a registration that waits for errors only. -/
theorem on_error_without_error : ¬∀ pool acts s calls, run (step pool) .init acts = some (s, calls) →
    ∀ c ∈ calls.flatten, c.Justified := by
  intro h
  let acts := dataRun ++ [.remove 0, .add .read ⟨false, false, true⟩, .handle true, .run]
  let c : Call := ⟨2, .onError, .read, ⟨false, false, true⟩, ⟨true, false, false, false, false⟩⟩
  have hrun : (run (step false) .init acts).map (fun p => p.2.flatten) = some [c] := by decide
  obtain ⟨⟨s, calls⟩, hcalls, heq⟩ := Option.map_eq_some_iff.mp hrun
  have hjust := h false acts s calls hcalls c (by rw [heq]; exact .head _)
  rcases hjust.error rfl with herr | ⟨-, -, hrdhup⟩
  · exact Bool.false_ne_true herr
  · exact Bool.false_ne_true hrdhup

/-- In a run in which no registration that waits for errors only takes a slot that ordinary readiness is on its way to,
every callback is one that its event asks for. -/
theorem on_error_means_error (pool : Bool) {acts : List Act} {s : State} {calls : List (List Call)}
    (hrun : run (steadyStep pool) .init acts = some (s, calls)) :
    (∀ c ∈ calls.flatten, c.Justified) ∧
    (∀ e ev dir r, (s.entries e).slot dir = some r → (s.regs r).removed = false → ev.isReady dir →
      (s.regs r).handlers.has dir.handler → ∃ i ∈ (s.handleEvent e ev).2, i.reg = r ∧ i.callback = some dir.handler) ∧
    ∀ e ev, (s.entries e).job = none → s.pollerCollect e ev = s.handleEvent e ev := by
  obtain ⟨hs, hcalls⟩ := run_outputs (fun _ _ _ _ => Inv.steadyStep) .init hrun
  refine ⟨fun c hc => ?_, fun e ev dir r => mem_handleEvent hs, fun e ev => pollerCollect_eq⟩
  obtain ⟨made, hmade, hmem⟩ := List.mem_flatten.mp hc
  exact hcalls made hmade c hmem

theorem on_error_means_error_data : ∃ s calls, run (steadyStep true) .init (dataRun ++ [.handle true, .work 0]) = some (s, calls) ∧
    calls.flatten = [⟨0, .onReadable, .read, ⟨true, false, true⟩, ⟨true, false, false, false, false⟩⟩] ∧
    ∀ c ∈ calls.flatten, c.Justified := by
  have hrun : (run (steadyStep true) .init (dataRun ++ [.handle true, .work 0])).map (fun p => p.2.flatten) =
      some [⟨0, .onReadable, .read, ⟨true, false, true⟩, ⟨true, false, false, false, false⟩⟩] := by decide
  obtain ⟨⟨s, calls⟩, hcalls, heq⟩ := Option.map_eq_some_iff.mp hrun
  exact ⟨s, calls, hcalls, heq, (on_error_means_error true hcalls).1⟩

end Ccollections.Cthreadcomm.Ceventloop
