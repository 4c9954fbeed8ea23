import Ccollections.Common.Basic
import Ccollections.Lib.Monitor

/-!
# Messages and the calls of the queues
-/

namespace Ccollections.Cthreadcomm
open Lib

/-- `cmessage_t`. The data is a pointer, or nothing for the null pointer. -/
structure Cmessage where
  data : Option Nat
  size : Nat
  deriving DecidableEq

inductive RecvKind where
  | recv
  | tryRecv
  | timedRecv (timeoutUs : UInt64)

/-- The calls on a queue with the send functions `α`. A null message and a null target are possible. -/
inductive QueueOp (α : Type) where
  | send (kind : α) (msg : Option Cmessage)
  | recv (kind : RecvKind) (hasTarget : Bool)
  | disableSending
  | enableSending

/-- What a call gives back: its code, and the message of the caller after a send or the one a receive got. -/
structure QueueReply where
  result : RetVal
  msg : Option Cmessage
  deriving DecidableEq

inductive QueueCond where
  | read
  | write
  deriving DecidableEq

/-- What a wait returns; an untimed wait ends with `ok` only. -/
inductive WaitResult where
  | ok
  | timedOut
  | failed
  deriving DecidableEq

/-- What the environment decides in a section: how the wait before it ended, and whether an allocation succeeds. -/
structure QueueInput where
  wait : WaitResult
  alloc : Bool

abbrev QueueLeave (σ : Type) := Leave σ QueueCond QueueReply

abbrev QueueEvent (α : Type) := MonitorEvent (QueueOp α) QueueReply

/-- `verify_circq_send_zc_params` and `verify_dynmq_send_zc_params` on the message. -/
def verifySendZcParams : Option Cmessage → Option Cmessage
  | none => none
  | some msg => if (msg.size = 0 ∧ msg.data ≠ none) ∨ (msg.data = none ∧ msg.size ≠ 0) then none else some msg

def storedMsg (msg : Cmessage) : Cmessage := ⟨msg.data, if msg.data = none then 0 else msg.size⟩

/-! ## What a history says -/

variable {α : Type}

def acceptedMsg : QueueEvent α → Option Cmessage
  | .returned _ (.send _ msg) r => if r.result = .success then msg else none
  | _ => none

def receivedMsg : QueueEvent α → Option Cmessage
  | .returned _ (.recv _ _) r => if r.result = .success then r.msg else none
  | _ => none

def accepted (history : List (QueueEvent α)) : List Cmessage := history.filterMap acceptedMsg

def received (history : List (QueueEvent α)) : List Cmessage := history.filterMap receivedMsg

/-!
# The circular queue

Each function runs in sections that hold the mutex of the queue. A section that waits ends with the state in which
the thread goes to sleep, and the next one begins with what the wait returned.
-/

inductive CircqSend where
  | send
  | trySend
  | timedSend (timeoutUs : UInt64)
  | ownerSend (timeoutUs : UInt64)

/-- `struct ccircq`, without the waiters of `cselect`, which have condition variables of their own. -/
structure Ccircq where
  readersWaiting : Nat
  writersWaiting : Nat
  readIndex : Nat
  writeIndex : Nat
  maxSize : Nat
  msgCount : Nat
  msgArray : Nat → Cmessage
  writingDisabled : Bool

/-- `ccircq_create_mp`, once the size has passed its check. -/
def ccircqCreate (maxSize : Nat) : Ccircq := ⟨0, 0, 0, 0, maxSize, 0, fun _ => ⟨none, 0⟩, false⟩

/-- `sizeof(cmessage_t)`. -/
def sizeofCmessage : Nat := 16

/-- `verify_circular_queue_create_inputs` on the size. -/
def verifyCircularQueueCreateInputs (maxSize : Nat) : Bool :=
  maxSize ≠ 0 && maxSize ≤ ccolMaxElemCount && maxSize ≤ sizeMax / sizeofCmessage

namespace Ccircq

def nextIndex (cq : Ccircq) (i : Nat) : Nat := if i + 1 = cq.maxSize then 0 else i + 1

/-- `_sendto_cq`: the message of the caller loses its data to the queue. -/
def sendtoCq (cq : Ccircq) (msg : Cmessage) : QueueLeave Ccircq :=
  .done
    { cq with
      msgArray := Function.update cq.msgArray cq.writeIndex (storedMsg msg)
      writeIndex := cq.nextIndex cq.writeIndex
      msgCount := cq.msgCount + 1 }
    ⟨.success, some { msg with data := none }⟩
    (if cq.readersWaiting = 0 then none else some (.one .read))

def recvfromCq (cq : Ccircq) : QueueLeave Ccircq :=
  .done { cq with readIndex := cq.nextIndex cq.readIndex, msgCount := cq.msgCount - 1 }
    ⟨.success, some (cq.msgArray cq.readIndex)⟩
    (if cq.writersWaiting = 0 then none else some (.one .write))

def refuse (cq : Ccircq) (result : RetVal) (msg : Option Cmessage) : QueueLeave Ccircq := .done cq ⟨result, msg⟩ none

def waitWrite (cq : Ccircq) : QueueLeave Ccircq := .sleep { cq with writersWaiting := cq.writersWaiting + 1 } .write

def waitRead (cq : Ccircq) : QueueLeave Ccircq := .sleep { cq with readersWaiting := cq.readersWaiting + 1 } .read

def sendUnlessDisabled (cq : Ccircq) (msg : Cmessage) : QueueLeave Ccircq :=
  if cq.writingDisabled then cq.refuse .notPermitted (some msg) else cq.sendtoCq msg

/-! ## Sends -/

/-- The wait loop of `ccircq_send` and of `ccircq_timed_send`. -/
def sendLoop (cq : Ccircq) (msg : Cmessage) : QueueLeave Ccircq :=
  if cq.msgCount = cq.maxSize ∧ !cq.writingDisabled then cq.waitWrite else cq.sendUnlessDisabled msg

def send (cq : Ccircq) (msg : Cmessage) : QueueLeave Ccircq :=
  if cq.writingDisabled then cq.refuse .notPermitted (some msg) else cq.sendLoop msg

def trySend (cq : Ccircq) (msg : Cmessage) : QueueLeave Ccircq :=
  if cq.writingDisabled then cq.refuse .notPermitted (some msg)
  else if cq.msgCount < cq.maxSize then cq.sendtoCq msg
  else cq.refuse .containerFull (some msg)

def timedSend (cq : Ccircq) (msg : Cmessage) (timeoutUs : UInt64) : QueueLeave Ccircq :=
  if timeoutUs = 0 then cq.trySend msg
  else if cq.writingDisabled then cq.refuse .notPermitted (some msg)
  else if cq.msgCount = cq.maxSize then cq.sendLoop msg
  else cq.sendUnlessDisabled msg

/-- After a wait of `ccircq_timed_send`. -/
def timedSendWoken (cq : Ccircq) (msg : Cmessage) (wait : WaitResult) : QueueLeave Ccircq :=
  if wait = .ok then cq.sendLoop msg
  else if cq.msgCount < cq.maxSize ∨ cq.writingDisabled then cq.sendUnlessDisabled msg
  else if wait = .timedOut then cq.refuse .timedOut (some msg)
  else cq.refuse .unexpectedFailure (some msg)

/-- The wait loop of `ccircq_owner_send`. -/
def ownerSendLoop (cq : Ccircq) (msg : Cmessage) : QueueLeave Ccircq :=
  if cq.msgCount = cq.maxSize then cq.waitWrite else cq.sendtoCq msg

def ownerSend (cq : Ccircq) (msg : Cmessage) (timeoutUs : UInt64) : QueueLeave Ccircq :=
  if cq.msgCount = cq.maxSize then
    if timeoutUs = 0 then cq.refuse .containerFull (some msg) else cq.ownerSendLoop msg
  else cq.sendtoCq msg

/-- After a wait of `ccircq_owner_send`. -/
def ownerSendWoken (cq : Ccircq) (msg : Cmessage) (wait : WaitResult) : QueueLeave Ccircq :=
  if wait ≠ .ok ∧ cq.msgCount = cq.maxSize then
    cq.refuse (if wait = .timedOut then .timedOut else .unexpectedFailure) (some msg)
  else cq.ownerSendLoop msg

/-! ## Receives -/

/-- The wait loop of `ccircq_recv` and of `ccircq_timed_recv`. -/
def recvLoop (cq : Ccircq) : QueueLeave Ccircq := if cq.msgCount = 0 then cq.waitRead else cq.recvfromCq

def tryRecv (cq : Ccircq) : QueueLeave Ccircq :=
  if cq.msgCount > 0 then cq.recvfromCq else cq.refuse .containerEmpty none

def timedRecv (cq : Ccircq) (timeoutUs : UInt64) : QueueLeave Ccircq :=
  if timeoutUs = 0 then cq.tryRecv else cq.recvLoop

/-- After a wait of `ccircq_timed_recv`. -/
def timedRecvWoken (cq : Ccircq) (wait : WaitResult) : QueueLeave Ccircq :=
  if wait = .ok then cq.recvLoop
  else if cq.msgCount > 0 then cq.recvfromCq
  else if wait = .timedOut then cq.refuse .timedOut none
  else cq.refuse .unexpectedFailure none

/-! ## The sections -/

def disableSending (cq : Ccircq) : QueueLeave Ccircq :=
  .done { cq with writingDisabled := true } ⟨.success, none⟩ (some (.all .write))

def enableSending (cq : Ccircq) : QueueLeave Ccircq :=
  .done { cq with writingDisabled := false } ⟨.success, none⟩ (some (.all .write))

def sendSection (cq : Ccircq) (kind : CircqSend) (msg : Cmessage) : QueueLeave Ccircq :=
  match kind with
  | .send => cq.send msg
  | .trySend => cq.trySend msg
  | .timedSend timeoutUs => cq.timedSend msg timeoutUs
  | .ownerSend timeoutUs => cq.ownerSend msg timeoutUs

def recvSection (cq : Ccircq) (kind : RecvKind) : QueueLeave Ccircq :=
  match kind with
  | .recv => cq.recvLoop
  | .tryRecv => cq.tryRecv
  | .timedRecv timeoutUs => cq.timedRecv timeoutUs

def enter (cq : Ccircq) (op : QueueOp CircqSend) (_ : QueueInput) : QueueLeave Ccircq :=
  match op with
  | .send kind msg =>
    match verifySendZcParams msg with
    | none => cq.refuse .invalidArgs msg
    | some m => cq.sendSection kind m
  | .recv kind hasTarget => if hasTarget then cq.recvSection kind else cq.refuse .invalidArgs none
  | .disableSending => cq.disableSending
  | .enableSending => cq.enableSending

def sendWoken (cq : Ccircq) (kind : CircqSend) (msg : Cmessage) (wait : WaitResult) : QueueLeave Ccircq :=
  match kind with
  | .send => cq.sendLoop msg
  | .trySend => cq.trySend msg
  | .timedSend _ => cq.timedSendWoken msg wait
  | .ownerSend _ => cq.ownerSendWoken msg wait

def recvWoken (cq : Ccircq) (kind : RecvKind) (wait : WaitResult) : QueueLeave Ccircq :=
  match kind with
  | .recv => cq.recvLoop
  | .tryRecv => cq.tryRecv
  | .timedRecv _ => cq.timedRecvWoken wait

def resume (cq : Ccircq) (op : QueueOp CircqSend) (input : QueueInput) : QueueLeave Ccircq :=
  match op with
  | .send kind msg =>
    let cq := { cq with writersWaiting := cq.writersWaiting - 1 }
    match msg with
    | none => cq.refuse .invalidArgs none
    | some m => cq.sendWoken kind m input.wait
  | .recv kind _ => { cq with readersWaiting := cq.readersWaiting - 1 }.recvWoken kind input.wait
  | .disableSending => cq.disableSending
  | .enableSending => cq.enableSending

end Ccircq

def circqMonitor : Monitor Ccircq QueueCond (QueueOp CircqSend) QueueInput QueueReply := ⟨Ccircq.enter, Ccircq.resume⟩

/-!
# The dynamic queue

A doubly-linked list of messages. A send never waits here, so the queue has no condition variable for writers.
-/

inductive DynmqSend where
  | send
  | ownerSend

structure DllistNode where
  prev : Option Nat
  msg : Cmessage
  next : Option Nat

/-- `struct cdynmq`. The nodes stand under their addresses, and an address is never used again. -/
structure Cdynmq where
  readersWaiting : Nat
  msgCount : Nat
  head : Option Nat
  tail : Option Nat
  nodes : Nat → Option DllistNode
  nextNode : Nat
  writingDisabled : Bool

/-- `cdynmq_create_mp`. -/
def cdynmqCreate : Cdynmq := ⟨0, 0, none, none, fun _ => none, 0, false⟩

namespace Cdynmq

def setNode (nodes : Nat → Option DllistNode) (id : Nat) (f : DllistNode → DllistNode) : Nat → Option DllistNode :=
  Function.update nodes id ((nodes id).map f)

/-- `append_msg_to_dq_tail` with a new node. -/
def appendMsgToDqTail (dq : Cdynmq) (msg : Cmessage) : Cdynmq :=
  let newElem := dq.nextNode
  match dq.head, dq.tail with
  | some _, some tail =>
    let nodes := Function.update dq.nodes newElem (some ⟨some tail, storedMsg msg, none⟩)
    { dq with
      nodes := setNode nodes tail fun n => { n with next := some newElem }
      tail := some newElem
      nextNode := newElem + 1 }
  | _, _ =>
    { dq with
      nodes := Function.update dq.nodes newElem (some ⟨none, storedMsg msg, none⟩)
      head := some newElem
      tail := some newElem
      nextNode := newElem + 1 }

/-- `remove_msg_from_dq_head`: the queue without its first node, and the message of that node. -/
def removeMsgFromDqHead (dq : Cdynmq) : Option (Cdynmq × Cmessage) :=
  match dq.head with
  | none => none
  | some head =>
    match dq.nodes head with
    | none => none
    | some node =>
      let nodes :=
        match node.next with
        | some next => setNode dq.nodes next fun n => { n with prev := none }
        | none => dq.nodes
      some ({ dq with
        head := node.next
        tail := if node.next = none then none else dq.tail
        nodes := Function.update nodes head none }, node.msg)

def refuse (dq : Cdynmq) (result : RetVal) (msg : Option Cmessage) : QueueLeave Cdynmq := .done dq ⟨result, msg⟩ none

def sendtoDq (dq : Cdynmq) (msg : Cmessage) (alloc : Bool) : QueueLeave Cdynmq :=
  if alloc then
    .done { dq.appendMsgToDqTail msg with msgCount := dq.msgCount + 1 } ⟨.success, some { msg with data := none }⟩
      (if dq.readersWaiting = 0 then none else some (.one .read))
  else dq.refuse .notEnoughMemory (some msg)

def recvfromDq (dq : Cdynmq) : QueueLeave Cdynmq :=
  match dq.removeMsgFromDqHead with
  | none => dq.refuse .containerEmpty none
  | some (dq', msg) => .done { dq' with msgCount := dq.msgCount - 1 } ⟨.success, some msg⟩ none

def waitRead (dq : Cdynmq) : QueueLeave Cdynmq := .sleep { dq with readersWaiting := dq.readersWaiting + 1 } .read

def ownerSend (dq : Cdynmq) (msg : Cmessage) (alloc : Bool) : QueueLeave Cdynmq :=
  if dq.msgCount = ccolMaxElemCount then dq.refuse .containerFull (some msg) else dq.sendtoDq msg alloc

def send (dq : Cdynmq) (msg : Cmessage) (alloc : Bool) : QueueLeave Cdynmq :=
  if dq.writingDisabled then dq.refuse .notPermitted (some msg)
  else if dq.msgCount = ccolMaxElemCount then dq.refuse .containerFull (some msg)
  else dq.sendtoDq msg alloc

/-- The wait loop of `cdynmq_recv` and of `cdynmq_timed_recv`. -/
def recvLoop (dq : Cdynmq) : QueueLeave Cdynmq := if dq.msgCount = 0 then dq.waitRead else dq.recvfromDq

def tryRecv (dq : Cdynmq) : QueueLeave Cdynmq :=
  if dq.msgCount > 0 then dq.recvfromDq else dq.refuse .containerEmpty none

def timedRecv (dq : Cdynmq) (timeoutUs : UInt64) : QueueLeave Cdynmq :=
  if timeoutUs = 0 then dq.tryRecv else dq.recvLoop

/-- After a wait of `cdynmq_timed_recv`. -/
def timedRecvWoken (dq : Cdynmq) (wait : WaitResult) : QueueLeave Cdynmq :=
  if wait = .ok then dq.recvLoop
  else if dq.msgCount > 0 then dq.recvfromDq
  else if wait = .timedOut then dq.refuse .timedOut none
  else dq.refuse .unexpectedFailure none

def disableSending (dq : Cdynmq) : QueueLeave Cdynmq := .done { dq with writingDisabled := true } ⟨.success, none⟩ none

def enableSending (dq : Cdynmq) : QueueLeave Cdynmq := .done { dq with writingDisabled := false } ⟨.success, none⟩ none

def sendSection (dq : Cdynmq) (kind : DynmqSend) (msg : Cmessage) (alloc : Bool) : QueueLeave Cdynmq :=
  match kind with
  | .send => dq.send msg alloc
  | .ownerSend => dq.ownerSend msg alloc

def recvSection (dq : Cdynmq) (kind : RecvKind) : QueueLeave Cdynmq :=
  match kind with
  | .recv => dq.recvLoop
  | .tryRecv => dq.tryRecv
  | .timedRecv timeoutUs => dq.timedRecv timeoutUs

def enter (dq : Cdynmq) (op : QueueOp DynmqSend) (input : QueueInput) : QueueLeave Cdynmq :=
  match op with
  | .send kind msg =>
    match verifySendZcParams msg with
    | none => dq.refuse .invalidArgs msg
    | some m => dq.sendSection kind m input.alloc
  | .recv kind hasTarget => if hasTarget then dq.recvSection kind else dq.refuse .invalidArgs none
  | .disableSending => dq.disableSending
  | .enableSending => dq.enableSending

def recvWoken (dq : Cdynmq) (kind : RecvKind) (wait : WaitResult) : QueueLeave Cdynmq :=
  match kind with
  | .recv => dq.recvLoop
  | .tryRecv => dq.tryRecv
  | .timedRecv _ => dq.timedRecvWoken wait

def resume (dq : Cdynmq) (op : QueueOp DynmqSend) (input : QueueInput) : QueueLeave Cdynmq :=
  match op with
  | .recv kind _ => { dq with readersWaiting := dq.readersWaiting - 1 }.recvWoken kind input.wait
  | op => dq.enter op input

end Cdynmq

def dynmqMonitor : Monitor Cdynmq QueueCond (QueueOp DynmqSend) QueueInput QueueReply := ⟨Cdynmq.enter, Cdynmq.resume⟩

/-!
# A bounded message queue

What the two queues are for: the messages in order, a capacity and a flag that stops the senders which heed it. The
numbers of waiting readers and writers decide whether anybody is signalled.
-/

structure QueueView where
  contents : List Cmessage
  capacity : Nat
  disabled : Bool
  readersWaiting : Nat
  writersWaiting : Nat

def QueueView.left (v : QueueView) : QueueCond → QueueView
  | .read => { v with readersWaiting := v.readersWaiting - 1 }
  | .write => { v with writersWaiting := v.writersWaiting - 1 }

def QueueView.waiting (v : QueueView) : QueueCond → Nat
  | .read => v.readersWaiting
  | .write => v.writersWaiting

/-- The calls that wait, and what they wait for. -/
inductive WaitsOn {α : Type} : QueueOp α → QueueCond → Prop
  | send {kind msg} (hvalid : verifySendZcParams (some msg) = some msg) : WaitsOn (.send kind (some msg)) .write
  | recv {kind} : WaitsOn (.recv kind true) .read

/-- Everything a section can do to a queue; `woken` says that the section follows a wait. -/
inductive QueueEffect {α : Type} (heeds : α → Bool) (woken : Bool) (v : QueueView) :
    QueueOp α → QueueLeave QueueView → Prop
  | refuseSend {kind msg result} (hresult : result ≠ .success)
      (hwoken : woken = true → v.contents.length = v.capacity ∨ (heeds kind = true ∧ v.disabled = true)) :
      QueueEffect heeds woken v (.send kind msg) (.done v ⟨result, msg⟩ none)
  | refuseRecv {kind hasTarget result} (hresult : result ≠ .success) (hwoken : woken = true → v.contents = []) :
      QueueEffect heeds woken v (.recv kind hasTarget) (.done v ⟨result, none⟩ none)
  | accept {kind msg} (hroom : v.contents.length < v.capacity) (henabled : heeds kind = true → v.disabled = false) :
      QueueEffect heeds woken v (.send kind (some msg))
        (.done { v with contents := v.contents ++ [msg] } ⟨.success, some { msg with data := none }⟩
          (if v.readersWaiting = 0 then none else some (.one .read)))
  | take {kind msg rest} (hcontents : v.contents = msg :: rest) :
      QueueEffect heeds woken v (.recv kind true)
        (.done { v with contents := rest } ⟨.success, some msg⟩ (if v.writersWaiting = 0 then none else some (.one .write)))
  | waitWrite {kind msg} (hvalid : verifySendZcParams (some msg) = some msg) (hfull : v.contents.length = v.capacity)
      (henabled : heeds kind = true → v.disabled = false) :
      QueueEffect heeds woken v (.send kind (some msg)) (.sleep { v with writersWaiting := v.writersWaiting + 1 } .write)
  | waitRead {kind} (hempty : v.contents = []) :
      QueueEffect heeds woken v (.recv kind true) (.sleep { v with readersWaiting := v.readersWaiting + 1 } .read)
  | disableSending {note} (hnote : note = some (.all .write) ∨ (note = none ∧ v.writersWaiting = 0)) :
      QueueEffect heeds woken v .disableSending (.done { v with disabled := true } ⟨.success, none⟩ note)
  | enableSending {note} (hnote : note = some (.all .write) ∨ (note = none ∧ v.writersWaiting = 0)) :
      QueueEffect heeds woken v .enableSending (.done { v with disabled := false } ⟨.success, none⟩ note)

def Refines {σ : Type} (rep : σ → QueueView → Prop) (allowed : QueueLeave QueueView → Prop) : QueueLeave σ → Prop
  | .sleep s c => ∃ v, allowed (.sleep v c) ∧ rep s v
  | .done s r note => ∃ v, allowed (.done v r note) ∧ rep s v

/-- A monitor that implements a message queue. -/
structure ImplementsQueue {σ α : Type} (m : Monitor σ QueueCond (QueueOp α) QueueInput QueueReply) (heeds : α → Bool)
    (rep : σ → QueueView → Prop) : Prop where
  enter : ∀ s v op i, rep s v → Refines rep (QueueEffect heeds false v op) (m.enter s op i)
  resume : ∀ s v op i c, rep s v → WaitsOn op c → 0 < v.waiting c →
    Refines rep (QueueEffect heeds true (v.left c) op) (m.resume s op i)

/-! ## The history of a queue -/

variable {α : Type}

/-- A send that fails leaves the message of its caller alone, and one that succeeds takes its data. -/
def ReplyOk : QueueEvent α → Prop
  | .returned _ (.send _ msg) r =>
    (r.result ≠ .success → r.msg = msg) ∧
    (r.result = .success → ∃ m, msg = some m ∧ r.msg = some { m with data := none })
  | _ => True

def flagAfter (flag : Bool) : QueueEvent α → Bool
  | .returned _ .disableSending _ => true
  | .returned _ .enableSending _ => false
  | _ => flag

def sendingDisabled (history : List (QueueEvent α)) : Bool := history.foldl flagAfter false

def HeedsFlag (heeds : α → Bool) (history : List (QueueEvent α)) : Prop :=
  ∀ before t kind msg r after, history = before ++ .returned t (.send kind msg) r :: after → heeds kind = true →
    r.result = .success → sendingDisabled before = false

/-- What a queue holds agrees with the calls that returned. -/
structure HistoryOk (heeds : α → Bool) (v : QueueView) (history : List (QueueEvent α)) : Prop where
  fifo : accepted history = received history ++ v.contents
  bounded : v.contents.length ≤ v.capacity
  flag : v.disabled = sendingDisabled history
  heedsFlag : HeedsFlag heeds history
  replies : ∀ e ∈ history, ReplyOk e

/-- The threads that use a queue. `readers` and `writers` are not asleep in their wait. -/
structure ThreadsOk (heeds : α → Bool) (v : QueueView) (conds : QueueCond → CondVar)
    (threads : Nat → Place QueueCond (QueueOp α)) (readers writers : Nat) : Prop where
  waits : ∀ t o c, threads t = .waiting o c → WaitsOn o c
  readersWaiting : v.readersWaiting = (conds .read).count
  writersWaiting : v.writersWaiting = (conds .write).count
  readersAwake : (conds .read).asleep ≠ ∅ → v.contents.length ≤ readers
  writersAwake : (conds .write).asleep ≠ ∅ → v.disabled = false → v.capacity ≤ v.contents.length + writers
  owners : v.disabled = true → ∀ t ∈ (conds .write).asleep, ∃ kind msg, threads t = .waiting (.send kind msg) .write ∧ heeds kind = false

/-- The invariant of a queue and of the threads that use it. -/
structure QueueInv (heeds : α → Bool) (v : QueueView) (conds : QueueCond → CondVar)
    (threads : Nat → Place QueueCond (QueueOp α)) (history : List (QueueEvent α)) : Prop where
  history : HistoryOk heeds v history
  threads : ThreadsOk heeds v conds threads (conds .read).woken.card (conds .write).woken.card

/-! ## What a queue promises -/

section Promises

variable {σ : Type} (view : σ → QueueView) (msgCount : σ → Nat) (m : Monitor σ QueueCond (QueueOp α) QueueInput QueueReply)
  (heeds : α → Bool) (st : MonitorState σ QueueCond (QueueOp α) QueueReply)

/-- Every message that a send took comes out once and in order. -/
structure Delivers : Prop where
  ordered : received st.history <+: accepted st.history
  held : accepted st.history = received st.history ++ (view st.obj).contents
  count : (accepted st.history).length = (received st.history).length + msgCount st.obj
  bounded : msgCount st.obj ≤ (view st.obj).capacity
  replies : ∀ e ∈ st.history, ReplyOk e
  unchanged : ∀ a st', m.step st a = some st' →
    (∀ t o r, st'.history = st.history ++ [.returned t o r] → r.result ≠ .success) →
    (view st'.obj).contents = (view st.obj).contents ∧ (view st'.obj).disabled = (view st.obj).disabled
  stopped : ∀ before d rd during t kind msg r after,
    st.history = before ++ .returned d .disableSending rd :: (during ++ .returned t (.send kind msg) r :: after) →
    (∀ e re, .returned e .enableSending re ∉ during) → heeds kind = true → r.result ≠ .success

/-- No sleeper waits for something that is already there, unless enough others are on their way to take it. -/
structure NoLostWakeup : Prop where
  readers : (st.conds .read).asleep ≠ ∅ → msgCount st.obj ≤ (st.conds .read).woken.card
  writers : (st.conds .write).asleep ≠ ∅ →
    (view st.obj).capacity - msgCount st.obj ≤ (st.conds .write).woken.card ∨
    ((view st.obj).disabled = true ∧ ∀ t ∈ (st.conds .write).asleep, ∃ kind msg,
      st.threads t = .waiting (.send kind msg) .write ∧ heeds kind = false)
  readersWaiting : (view st.obj).readersWaiting = 0 → (st.conds .read).asleep = ∅
  writersWaiting : (view st.obj).writersWaiting = 0 → (st.conds .write).asleep = ∅

end Promises

end Ccollections.Cthreadcomm
