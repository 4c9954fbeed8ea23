import Ccollections.Chttpclient.Request

/-!
# One request on one connection

A round holds what the environment answers in one round of a loop that waits for the connection, and times are
nanoseconds. A run that has no rounds left has not returned.
-/

namespace Ccollections.Chttpclient
open Chttp1

def chttpMaxInterimResponses : Nat := 64

def chttp100ContinueWaitUs : Nat := 1000000

def isInterim (status : Nat) : Bool := status ≥ 100 && status < 200

/-! ## The environment -/

/-- `revents` of a `poll`. -/
structure Revents where
  pollin : Bool
  pollout : Bool
  pollerr : Bool
  pollhup : Bool
  pollnval : Bool
  deriving DecidableEq

/-- What a `poll` ends with. An interrupted one is like one that ran out of time. -/
inductive Poll where
  | failed
  | timedOut
  | ready (revents : Revents)
  deriving DecidableEq

/-- `_conn_read`. -/
inductive ReadAnswer where
  | bytes (c : UInt8) (data : List UInt8)
  | closed
  | wouldBlock
  | failed
  deriving DecidableEq

/-- `_conn_write` takes `n + 1` bytes, or all there are. `gone` are the codes of a peer that does not read any more. -/
inductive WriteAnswer where
  | wrote (n : Nat)
  | closed
  | wouldBlock
  | gone
  | failed
  deriving DecidableEq

/-- The time since the last check of the deadlines, the time the `poll` takes, and the flags of
`ctls_conn_has_pending_input` and `_conn_tls_wants_write`. -/
structure Round where
  elapsed : Nat
  pending : Bool
  waited : Nat
  poll : Poll
  read : ReadAnswer
  write : WriteAnswer
  tlsWantsWrite : Bool
  deriving DecidableEq

/-- The end of a message that the parser holds, with the bytes behind it. -/
structure Ended where
  status : Nat
  keepAlive : Bool
  left : List UInt8
  deriving DecidableEq

/-- Bytes that a write took or that reached the parser, with the message that ends in them, and the end of the stream.
`confirmed` is the `100 Continue` that the body waits for. -/
inductive WireEvent where
  | wrote (bytes : List UInt8)
  | parsed (data : List UInt8) (ended : Option Ended)
  | closed (status : Nat)
  | confirmed (left : List UInt8)
  deriving DecidableEq

/-! ## State -/

/-- What a hop runs in. `tooLarge` and `outOfMemory` are the flags that the callbacks leave in the context. -/
structure HopEnv where
  tls : Bool
  overall : Option Nat
  inactivityUs : Nat
  spillAlloc : Bool
  settings : List WireEvent → Settings
  tooLarge : List WireEvent → Bool
  outOfMemory : List WireEvent → Bool

/-- What does not change on one hop. -/
structure Hop extends HopEnv where
  wire : List UInt8
  bodyLen : Nat
  use100Continue : Bool
  replayable : Bool
  requestClose : Bool
  continue_body : use100Continue = true → 0 < bodyLen ∧ bodyLen ≤ wire.length

/-- `chttp_early_resp_t`. The parser is there while `parser_live` is set. -/
structure EarlyResp where
  parser : Option Parser
  done : Bool
  keepAlive : Bool
  stopSend : Bool
  answeredEarly : Bool
  nDiscarded : Nat
  error : Option HttpRetval

def earlyRespInit : EarlyResp := ⟨none, false, false, false, false, 0, none⟩

/-- What a hop changes: the clock, the answers of the allocator to come, the fields of `chttp_parse_ctx_t`, and the
out-parameters. -/
structure Exchange where
  now : Nat
  inactivityWaited : Nat
  allocs : List Bool
  trace : List WireEvent
  statusCode : Nat
  messageComplete : Bool
  trailingGarbage : Bool
  early : EarlyResp
  sent : Nat
  keepAlive : Bool
  anyBytesRead : Bool
  retryUnsafe : Bool
  leftover : List UInt8

def exchangeStart (now : Nat) (allocs : List Bool) : Exchange where
  now := now
  inactivityWaited := 0
  allocs := allocs
  trace := []
  statusCode := 0
  messageComplete := false
  trailingGarbage := false
  early := earlyRespInit
  sent := 0
  keepAlive := false
  anyBytesRead := false
  retryUnsafe := false
  leftover := []

/-- What a function has come to, with the rounds that are left. -/
inductive Returned where
  | running (x : Exchange)
  | success (x : Exchange) (rounds : List Round)
  | failure (code : HttpRetval) (x : Exchange) (rounds : List Round)

namespace Returned

def andThen : Returned → (Exchange → List Round → Returned) → Returned
  | .success x rounds, f => f x rounds
  | r, _ => r

def after (f : Exchange → Exchange) : Returned → Returned
  | .running x => .running x
  | .success x rounds => .success (f x) rounds
  | .failure code x rounds => .failure code (f x) rounds

def exchange : Returned → Exchange
  | .running x => x
  | .success x _ => x
  | .failure _ x _ => x

end Returned

/-- What a round of a loop ends with, and whether the next one waits, or waits for room to write. -/
structure Waits where
  wantOut : Bool
  readBlocked : Bool
  waitFirst : Bool

inductive Looped where
  | again (w : Waits) (x : Exchange)
  | stop (code : HttpRetval) (x : Exchange)

namespace Exchange

variable (x : Exchange)

def alloc : Bool × Exchange := (x.allocs.headD true, { x with allocs := x.allocs.tail })

def parseCtxResetForContinue : Option HttpRetval × Exchange :=
  let a := x.alloc
  (if a.1 then none else some .notEnoughMemory,
    { a.2 with trailingGarbage := false, messageComplete := false, statusCode := 0 })

def stopSend : Exchange := { x with early := { x.early with stopSend := true } }

def tick (r : Round) : Exchange := { x with now := x.now + r.elapsed }

end Exchange

namespace Hop

variable (h : Hop) (x : Exchange)

/-! ## Deadlines -/

/-- `_deadline_remaining_ms`. -/
def deadlineRemaining (d : Option Nat) : Bool := d.all (x.now < ·)

def inactivityBudget : Nat := if h.inactivityUs > uint64Max / 1000 then uint64Max else h.inactivityUs * 1000

/-- `_conn_inactivity_left_ms`. -/
def inactivityLeft : Bool := h.inactivityUs = 0 || x.inactivityWaited < h.inactivityBudget

/-- `_conn_inactivity_charge`, after a `poll`. -/
def charge (r : Round) : Exchange :=
  { x with
    now := x.now + r.waited
    inactivityWaited := if h.inactivityUs = 0 then x.inactivityWaited else x.inactivityWaited + r.waited }

def deadlineEarlier : Option Nat → Option Nat → Option Nat
  | none, b => b
  | a, none => a
  | some a, some b => some (min a b)

/-! ## Parsing -/

def callbackCode (trace : List WireEvent) : HttpRetval :=
  if h.tooLarge trace then .msgTooLarge else if h.outOfMemory trace then .notEnoughMemory else .transferAborted

def startParser : Parser := parserInit .response ⟨0, 0, 0, true, h.spillAlloc⟩

/-- What `_on_headers_complete` stores of the status. -/
def reportedStatus (log : List Call) : Option Nat :=
  log.findSome? fun c => match c.event with
    | .headersComplete status _ _ => some status
    | _ => none

/-- `_on_message_complete` has been called. -/
def reportedComplete (log : List Call) : Bool := log.any (·.event = .messageComplete)

def noteCalls (p : Parser) : Exchange :=
  { x with
    statusCode := (reportedStatus p.log).getD x.statusCode
    messageComplete := x.messageComplete || reportedComplete p.log }

/-- `chttp1_parser_execute` with the callbacks of the client. -/
def feedParser (p : Parser) (data : List UInt8) : Errno × Parser × Exchange :=
  let r := p.execute (h.settings x.trace) data
  let y := noteCalls x r.2
  let ended := if r.1 = .paused then some ⟨y.statusCode, r.2.shouldKeepAlive, data.drop r.2.consumed⟩ else none
  (r.1, r.2, { y with trace := x.trace ++ [.parsed data ended] })

/-- `chttp1_parser_finish` with the callbacks of the client. -/
def finishParser (p : Parser) : Errno × Exchange :=
  let r := p.finish (h.settings x.trace)
  (r.1, noteCalls x r.2)

/-! ## A response that comes while the request goes out -/

def earlyEnded (p : Parser) (rest : List UInt8) : Exchange :=
  { x with
    early := { x.early with parser := none, done := true, keepAlive := p.shouldKeepAlive && rest = [] }
    trailingGarbage := x.trailingGarbage || rest ≠ [] }

def earlyDropped (early : EarlyResp) (y : Exchange) : Exchange :=
  let reset := y.parseCtxResetForContinue
  { reset.2 with early := { early with parser := none, nDiscarded := early.nDiscarded + 1, error := reset.1 } }

/-- The loop of `_early_resp_feed`. -/
def earlyRespLoop (x : Exchange) (data : List UInt8) : Exchange :=
  if data = [] ∨ x.early.done ∨ x.early.error ≠ none then x
  else
    match h.feedParser x (x.early.parser.getD h.startParser) data with
    | (.paused, p, y) =>
      let rest := data.drop p.consumed
      if isInterim y.statusCode then
        if _hn : x.early.nDiscarded ≥ chttpMaxInterimResponses then
          { y with early := { x.early with parser := none, error := some .transferAborted } }
        else
          earlyRespLoop (earlyDropped x.early y) rest
      else earlyEnded y p rest
    | (.ok, p, y) => { y with early := { x.early with parser := some p } }
    | (.user, p, y) => { y with early := { x.early with parser := some p, error := some (h.callbackCode y.trace) } }
    | (_, p, y) => { y with early := { x.early with parser := some p, error := some .transferAborted } }
termination_by chttpMaxInterimResponses - x.early.nDiscarded
decreasing_by exact Nat.sub_lt_sub_left (Nat.lt_of_not_le _hn) (Nat.lt_succ_self _)

def earlyRespFeed (data : List UInt8) : Exchange :=
  let y := h.earlyRespLoop x data
  if y.early.done || y.early.error ≠ none || y.statusCode ≥ 300 then y.stopSend else y

def earlyRespEof : Exchange :=
  let x := x.stopSend
  match x.early.parser with
  | none => x
  | some p =>
    if x.early.done then x
    else
      let (fe, y) := h.finishParser x p
      if (fe = .ok || fe = .paused) && y.messageComplete && !isInterim y.statusCode then
        { y with
          early := { y.early with parser := none, done := true, keepAlive := false }
          trace := y.trace ++ [.closed y.statusCode] }
      else { y with early := { y.early with parser := none, error := some .transferAborted } }

/-! ## Sending -/

/-- A write took bytes of `data`. -/
def noteWritten (data : List UInt8) (n : Nat) : Exchange :=
  { x with inactivityWaited := 0, trace := x.trace ++ [.wrote (data.take (n + 1))] }

/-- The write of a round of `_chttp_send_all_watch`. -/
def watchWrite (data : List UInt8) (w : Waits) (r : Round) : Looped :=
  match r.write with
  | .wouldBlock => .again { w with wantOut := if h.tls then r.tlsWantsWrite else w.wantOut } x
  | .gone | .closed => .again w x.stopSend
  | .failed => .stop .transferAborted x
  | .wrote n =>
    let y := noteWritten x (data.drop x.sent) n
    .again { w with wantOut := true } { y with sent := x.sent + ((data.drop x.sent).take (n + 1)).length }

/-- The read of a round of `_chttp_send_all_watch`, and the write when nothing was read. -/
def watchReady (data : List UInt8) (w : Waits) (r : Round) (readable writable : Bool) : Looped :=
  if readable then
    match r.read with
    | .bytes c bytes =>
      let y := h.earlyRespFeed { x with inactivityWaited := 0, anyBytesRead := true } (c :: bytes)
      .again { w with readBlocked := false }
        { y with early := { y.early with answeredEarly := y.early.done || y.early.parser.isSome } }
    | .closed => .again { w with readBlocked := false } (h.earlyRespEof x)
    | .failed => .again w x.stopSend
    | .wouldBlock =>
      if writable then h.watchWrite x data { w with readBlocked := true } r else .again { w with readBlocked := true } x
  else h.watchWrite x data w r

/-- A round of `_chttp_send_all_watch`. -/
def watchRound (data : List UInt8) (w : Waits) (r : Round) : Looped :=
  let x := x.tick r
  if !deadlineRemaining x h.overall || !h.inactivityLeft x then .stop .timedOut x
  else if h.tls && !w.readBlocked && r.pending then h.watchReady x data w r true false
  else
    let x := h.charge x r
    match r.poll with
    | .failed => .stop .transferAborted x
    | .timedOut => .again w x
    | .ready e =>
      if e.pollnval then .stop .transferAborted x
      else h.watchReady x data w r e.pollin (e.pollout || e.pollerr || e.pollhup || (e.pollin && !w.wantOut))

/-- The loop of `_chttp_send_all_watch`. -/
def watchLoop (data : List UInt8) (w : Waits) (x : Exchange) : List Round → Returned
  | [] => if x.sent < data.length ∧ !x.early.stopSend then .running x else watchDone x []
  | r :: rounds =>
    if x.sent < data.length ∧ !x.early.stopSend then
      match h.watchRound x data w r with
      | .again w x => watchLoop data w x rounds
      | .stop code x => .failure code x rounds
    else watchDone x (r :: rounds)
where
  /-- The end of `_chttp_send_all_watch`. -/
  watchDone (x : Exchange) (rounds : List Round) : Returned :=
    match x.early.error with
    | some code => .failure code x rounds
    | none => .success x rounds

def chttpSendAllWatch (data : List UInt8) (rounds : List Round) : Returned :=
  h.watchLoop data ⟨true, false, true⟩ { x with sent := 0 } rounds

/-- What a `_conn_wait_io` ends with, unless the connection is ready: an error, or `none` when it ran out of time. -/
def waitIo : Poll → Option (Option HttpRetval)
  | .failed => some (some .transferAborted)
  | .timedOut => some none
  | .ready e => if e.pollerr || e.pollnval then some (some .transferAborted) else none

/-- The write of a round of `_chttp_send_all`, with the bytes that are left. -/
def sendWrite (data : List UInt8) (r : Round) : Except (HttpRetval × Exchange) (List UInt8 × Exchange) :=
  match r.write with
  | .wouldBlock => .ok (data, x)
  | .gone | .closed | .failed => .error (.transferAborted, x)
  | .wrote n => .ok (data.drop (n + 1), noteWritten x data n)

/-- A round of `_chttp_send_all`. -/
def sendRound (data : List UInt8) (r : Round) : Except (HttpRetval × Exchange) (List UInt8 × Exchange) :=
  let x := x.tick r
  if !deadlineRemaining x h.overall || !h.inactivityLeft x then .error (.timedOut, x)
  else
    match waitIo r.poll with
    | some (some code) => .error (code, h.charge x r)
    | some none => .ok (data, h.charge x r)
    | none => sendWrite (h.charge x r) data r

def chttpSendAll (data : List UInt8) (x : Exchange) : List Round → Returned
  | [] => if data = [] then .success x [] else .running x
  | r :: rounds =>
    if data = [] then .success x (r :: rounds)
    else
      match h.sendRound x data r with
      | .error (code, x) => .failure code x rounds
      | .ok (data, x) => chttpSendAll data x rounds

/-! ## Reading -/

/-- What a read does with the bytes it has. -/
inductive Parsed where
  | more (p : Parser) (x : Exchange)
  | done (x : Exchange)
  | failed (code : HttpRetval) (x : Exchange)

def parseBytes (p : Parser) (data : List UInt8) : Parsed :=
  match h.feedParser x p data with
  | (.paused, p, x) =>
    let x := { x with keepAlive := p.shouldKeepAlive }
    let rest := data.drop p.consumed
    if rest = [] then .done x
    else
      let a := x.alloc
      if a.1 then .done { a.2 with leftover := rest } else .failed .notEnoughMemory a.2
  | (.ok, p, x) => .more p x
  | (.user, _, x) => .failed (h.callbackCode x.trace) x
  | (_, _, x) => .failed .transferAborted x

def readEof (p : Parser) : Parsed :=
  let (fe, y) := h.finishParser x p
  if (fe ≠ .ok ∧ fe ≠ .paused) ∨ !y.messageComplete then .failed .transferAborted y
  else .done { y with keepAlive := false, trace := y.trace ++ [.closed y.statusCode] }

/-- What a round of the read ends with. -/
inductive Reading where
  | again (started : Bool) (w : Waits) (p : Parser) (x : Exchange)
  | done (x : Exchange)
  | failed (code : HttpRetval) (x : Exchange)

def Parsed.reading (started : Bool) (w : Waits) : Parsed → Reading
  | .more p x => .again started w p x
  | .done x => .done x
  | .failed code x => .failed code x

/-- The read of a round of `_chttp_read_message_with`. -/
def readReady (started : Bool) (w : Waits) (p : Parser) (r : Round) : Reading :=
  match r.read with
  | .wouldBlock => .again started ⟨if h.tls then r.tlsWantsWrite else w.wantOut, true, true⟩ p x
  | .failed => .failed .transferAborted x
  | .closed => (h.readEof x p).reading started w
  | .bytes c bytes =>
    (h.parseBytes { x with inactivityWaited := 0, anyBytesRead := true } p (c :: bytes)).reading true ⟨false, false, false⟩

def readDeadline (firstByte : Option Nat) (started : Bool) : Option Nat :=
  if started || firstByte = none then h.overall else firstByte

/-- A round of `_chttp_read_message_with`. -/
def readRound (firstByte : Option Nat) (started : Bool) (w : Waits) (p : Parser) (r : Round) : Reading :=
  let x := x.tick r
  let buffered := h.tls && !w.wantOut && !w.readBlocked && r.pending
  if !deadlineRemaining x (h.readDeadline firstByte started) || !h.inactivityLeft x then .failed .timedOut x
  else if w.waitFirst && !buffered then
    match waitIo r.poll with
    | some (some code) => .failed code (h.charge x r)
    | some none => .again started w p (h.charge x r)
    | none => h.readReady (h.charge x r) started w p r
  else h.readReady x started w p r

/-- The loop of `_chttp_read_message_with`. -/
def readLoop (firstByte : Option Nat) (started : Bool) (w : Waits) (p : Parser) (x : Exchange) : List Round → Returned
  | [] => .running x
  | r :: rounds =>
    match h.readRound x firstByte started w p r with
    | .again started w p x => readLoop firstByte started w p x rounds
    | .done x => .success x rounds
    | .failed code x => .failure code x rounds

def chttpReadMessageWith (p : Parser) (firstByte : Option Nat) (carry : List UInt8) (rounds : List Round) : Returned :=
  let x := { x with leftover := [] }
  if carry = [] then h.readLoop firstByte false ⟨false, false, true⟩ p x rounds
  else
    match h.parseBytes { x with anyBytesRead := true } p carry with
    | .more p x => h.readLoop firstByte true ⟨false, false, true⟩ p x rounds
    | .done x => .success x rounds
    | .failed code x => .failure code x rounds

/-- The loop of `_chttp_read_message_loop`. -/
def messageLoop (firstByte : Option Nat) (stopAtStatus nDiscarded : Nat) (carry : List UInt8) (x : Exchange)
    (rounds : List Round) : Returned :=
  (h.chttpReadMessageWith x h.startParser firstByte carry rounds).andThen fun x rounds =>
    if isInterim x.statusCode && x.statusCode ≠ stopAtStatus then
      if _hn : nDiscarded ≥ chttpMaxInterimResponses then .failure .transferAborted x rounds
      else
        match x.parseCtxResetForContinue with
        | (some code, x) => .failure code x rounds
        | (none, x) => messageLoop firstByte stopAtStatus (nDiscarded + 1) x.leftover x rounds
    else .success x rounds
termination_by chttpMaxInterimResponses - nDiscarded

def chttpReadMessageLoop (firstByte : Option Nat) (carry : List UInt8) (stopAtStatus discardedBefore : Nat)
    (rounds : List Round) : Returned :=
  if carry = [] then h.messageLoop firstByte stopAtStatus discardedBefore carry x rounds
  else
    let a := x.alloc
    if a.1 then h.messageLoop firstByte stopAtStatus discardedBefore carry a.2 rounds
    else .failure .notEnoughMemory a.2 rounds

/-! ## The exchange -/

def checkLeftover (x : Exchange) (rounds : List Round) : Returned :=
  if x.leftover = [] then .success x rounds else .success { x with trailingGarbage := true, keepAlive := false } rounds

def earlyMessageEnded (nDiscarded : Nat) (x : Exchange) (rounds : List Round) : Returned :=
  let x := { x with early := { x.early with parser := none } }
  if isInterim x.statusCode then
    if nDiscarded ≥ chttpMaxInterimResponses then .failure .transferAborted x rounds
    else
      match x.parseCtxResetForContinue with
      | (some code, x) => .failure code x rounds
      | (none, x) => h.chttpReadMessageLoop x none x.leftover 0 (nDiscarded + 1) rounds
  else .success x rounds

def chttpEarlyRespFinish (requestComplete : Bool) (x : Exchange) (rounds : List Round) : Returned :=
  let r :=
    if x.early.done then .success { x with keepAlive := x.early.keepAlive } rounds
    else
      match x.early.parser with
      | some p =>
        ((h.chttpReadMessageWith x p none [] rounds).andThen (h.earlyMessageEnded x.early.nDiscarded)).andThen checkLeftover
      | none => (h.chttpReadMessageLoop x none [] 0 x.early.nDiscarded rounds).andThen checkLeftover
  r.andThen fun x rounds => .success (if requestComplete then x else { x with keepAlive := false }) rounds

/-- The send of `data` and the read after it. The early response is not in use before. -/
def sendAndFinish (data : List UInt8) (rounds : List Round) : Returned :=
  ((h.chttpSendAllWatch { x with early := earlyRespInit } data rounds).after fun x =>
    if !h.replayable && x.sent = data.length then { x with retryUnsafe := true } else x).andThen fun x rounds =>
      h.chttpEarlyRespFinish (!x.early.answeredEarly && x.sent = data.length) x rounds

def headerPart : List UInt8 := h.wire.take (h.wire.length - h.bodyLen)

def bodyPart : List UInt8 := h.wire.drop (h.wire.length - h.bodyLen)

/-- The body is about to go out after a `100 Continue`. The bytes behind it are the start of the final response. -/
def confirmContinue : Exchange :=
  let x := { x with
    retryUnsafe := true
    anyBytesRead := x.leftover ≠ []
    early := earlyRespInit
    trace := x.trace ++ [.confirmed x.leftover] }
  if x.leftover = [] then x else h.earlyRespFeed x x.leftover

/-- The body goes out after a `100 Continue`. -/
def sendConfirmedBody (rounds : List Round) : Returned :=
  match x.parseCtxResetForContinue with
  | (some code, x) => .failure code x rounds
  | (none, x) =>
    let x := h.confirmContinue x
    match x.early.error with
    | some code => .failure code x rounds
    | none =>
      (h.chttpSendAllWatch x h.bodyPart rounds).andThen fun x rounds =>
        h.chttpEarlyRespFinish (!x.early.answeredEarly && x.sent = h.bodyPart.length) x rounds

/-- The wait for a `100 Continue` is over. -/
def continueDecided : Returned → Returned
  | .running x => .running x
  | .failure .timedOut x rounds =>
    if !deadlineRemaining x h.overall then .failure .timedOut x rounds else h.sendAndFinish x h.bodyPart rounds
  | .failure code x rounds => .failure code x rounds
  | .success x rounds =>
    if x.statusCode ≠ 100 then
      .success { x with keepAlive := false, trailingGarbage := x.trailingGarbage || x.leftover ≠ [] } rounds
    else h.sendConfirmedBody x rounds

def chttpSendAndRead (rounds : List Round) : Returned :=
  let x := { x with retryUnsafe := false }
  if !h.use100Continue then h.sendAndFinish x h.wire rounds
  else
    (h.chttpSendAll h.headerPart x rounds).andThen fun x rounds =>
      h.continueDecided
        (h.chttpReadMessageLoop x (deadlineEarlier (some (x.now + chttp100ContinueWaitUs * 1000)) h.overall) [] 100 0 rounds)

/-! ## The hop -/

/-- What `chttp_do_internal` does with a hop: its attempts, and whether the last connection goes to the pool. -/
structure HopRun where
  first : Returned
  retry : Option (Except HttpRetval Returned)
  offered : Bool

/-- `reusable`, for an attempt that has ended. -/
def reusable : Returned → Bool
  | .success x _ => x.keepAlive && !x.trailingGarbage && !h.requestClose
  | _ => false

/-- An attempt that `chttp_do_internal` repeats. -/
def retries (reused : Bool) : Returned → Bool
  | .failure _ x _ => reused && !x.anyBytesRead && !x.retryUnsafe
  | _ => false

def retryHop (x : Exchange) (rounds : List Round) : Except HttpRetval Nat → Except HttpRetval Returned
  | .error code => .error code
  | .ok time => .ok (h.chttpSendAndRead { x with now := x.now + time, inactivityWaited := 0, trace := [] } rounds)

/-- The part of `chttp_do_internal` from the first byte of a request on. -/
def chttpDoHop (reused : Bool) (reconnect : Except HttpRetval Nat) (rounds : List Round) : HopRun :=
  let first := h.chttpSendAndRead x rounds
  match first with
  | .failure _ y rest =>
    if retries reused first then
      let retry := h.retryHop y rest reconnect
      ⟨first, some retry, match retry with
        | .ok r => h.reusable r
        | .error _ => false⟩
    else ⟨first, none, false⟩
  | _ => ⟨first, none, h.reusable first⟩

def HopRun.last (run : HopRun) : Returned :=
  match run.retry with
  | some (.ok r) => r
  | _ => run.first

end Hop

/-! ## What a trace tells -/

/-- What has been written, what had been when the first byte of the message that is read arrived, and how that message
ended. -/
structure Seen where
  written : List UInt8
  started : Option (List UInt8)
  ended : Option Ended
  deriving DecidableEq

namespace Seen

def see (s : Seen) : WireEvent → Seen
  | .wrote bytes => { s with written := s.written ++ bytes }
  | .parsed _ none => { s with started := some (s.started.getD s.written), ended := none }
  | .parsed _ (some e) =>
    if isInterim e.status then { s with started := if e.left = [] then none else some s.written, ended := none }
    else { s with started := some (s.started.getD s.written), ended := some e }
  | .closed status => { s with started := if isInterim status then none else s.started, ended := none }
  | .confirmed _ => s

end Seen

def seen (trace : List WireEvent) : Seen := trace.foldl Seen.see ⟨[], none, none⟩

/-- All of `goal` was written before the first byte of the final response arrived, which was read to its end with
nothing behind it and allows another request. -/
def Answered (goal : List UInt8) (trace : List WireEvent) : Prop :=
  (seen trace).written = goal ∧ (seen trace).started = some goal ∧
    ∃ status, (seen trace).ended = some ⟨status, true, []⟩ ∧ isInterim status = false

def readAny (trace : List WireEvent) : Bool :=
  trace.any fun e => match e with
    | .parsed data _ => data ≠ []
    | _ => false

/-! ## The hop of a request -/

/-- `use_100_continue`. -/
def requestUses100Continue (req : Request) : Bool :=
  req.expectContinue && !(scanHeaderPresence req.headers).hasExpect && req.method.bodyCarrying && req.body.bytes ≠ []

theorem serializeRequest_body {req : Request} {url : ChttpUrl} {auth : Option (List UInt8)} {drops : RedirectDrops}
    {wire : List UInt8} (h : serializeRequest req url auth drops = .ok wire) : req.bodyBytes <:+ wire := by
  simp only [serializeRequest] at h
  cases hf : requestFields req url auth drops with
  | error code =>
    rw [hf] at h
    cases h
  | ok fields =>
    rw [hf] at h
    cases h
    exact List.suffix_append _ _

def Hop.ofRequest (env : HopEnv) {req : Request} {url : ChttpUrl} {auth : Option (List UInt8)} {drops : RedirectDrops}
    {wire : List UInt8} (h : serializeRequest req url auth drops = .ok wire) : Hop where
  toHopEnv := env
  wire := wire
  bodyLen := req.body.bytes.length
  use100Continue := requestUses100Continue req
  replayable := requestIsReplayable req.method (scanHeaderPresence req.headers)
  requestClose := (scanHeaderPresence req.headers).requestClose
  continue_body := by
    intro huse
    simp only [requestUses100Continue, Bool.and_eq_true, decide_eq_true_eq] at huse
    have hbody : req.bodyBytes = req.body.bytes := by simp [Request.bodyBytes, huse.1.2]
    exact ⟨List.length_pos_iff.mpr huse.2, hbody ▸ (serializeRequest_body h).length_le⟩

/-!
# Sending a request again

A request whose connection came from the idle pool may be sent once more on a fresh one. Tier 1 decides that in
`chttp_do_internal`, Tiers 2 and 3 in `_async_ctx_finish`.
-/

/-! ## The rule -/

/-- What an attempt that failed has come to. -/
structure AttemptFacts where
  reused : Bool
  readAny : Bool
  timedOut : Bool
  accepted : Nat
  wireLen : Nat
  replayable : Bool
  bodyAfterContinue : Bool
  deriving DecidableEq

def AttemptFacts.mayResend (f : AttemptFacts) : Bool :=
  f.reused && !f.readAny && !f.timedOut && (f.accepted < f.wireLen || (f.replayable && !f.bodyAfterContinue))

/-- Bytes were written after a `100 Continue` had been read. -/
def bodyAfterContinue : List WireEvent → Bool
  | [] => false
  | .parsed (_ :: _) (some e) :: trace =>
    (e.status = 100 && trace.any fun e => match e with
      | .wrote _ => true
      | _ => false) || bodyAfterContinue trace
  | _ :: trace => bodyAfterContinue trace

def attemptFacts (h : Hop) (reused timedOut : Bool) (trace : List WireEvent) : AttemptFacts where
  reused := reused
  readAny := readAny trace
  timedOut := timedOut
  accepted := (seen trace).written.length
  wireLen := h.wire.length
  replayable := h.replayable
  bodyAfterContinue := bodyAfterContinue trace

/-! ## Tiers 2 and 3 -/

/-- The fields of `chttp_async_ctx_t` that the retry reads, and what has gone over its connection. -/
structure RetryCtx where
  wire : List UInt8
  wireLen : Nat
  wireSent : Nat
  headerLen : Nat
  want100Continue : Bool
  continueDecided : Bool
  replayable : Bool
  reused : Bool
  anyBytesRead : Bool
  retryUnsafe : Bool
  timedOut : Bool
  hopCompleted : Bool
  trace : List WireEvent

/-- What a dispatch does to them. `alloc` is whether a retry gets its context and its connection. -/
inductive Dispatch where
  | write (n : Nat)
  | read (c : UInt8) (data : List UInt8) (ended : Option Ended)
  | windowPassed
  | timeOut
  | fulfill
  | finish (alloc : Bool)

namespace RetryCtx

variable (ctx : RetryCtx)

def awaitingContinue : Bool := ctx.want100Continue && !ctx.continueDecided

def targetLen : Nat := if ctx.awaitingContinue then ctx.headerLen else ctx.wireLen

def taken (n : Nat) : List UInt8 := ((ctx.wire.take ctx.targetLen).drop ctx.wireSent).take (n + 1)

def freeSent : RetryCtx :=
  if !ctx.awaitingContinue && ctx.wireSent = ctx.wireLen && !ctx.reused then { ctx with wire := [], wireLen := 0, wireSent := 0 }
  else ctx

/-- A write of `_async_tls_try_write` or `_async_plain_try_write`. -/
def asyncTryWrite (n : Nat) : RetryCtx :=
  freeSent { ctx with wireSent := ctx.wireSent + (ctx.taken n).length, trace := ctx.trace ++ [.wrote (ctx.taken n)] }

/-- Bytes of a response. A `100 Continue` that ends the wait makes a retry unsafe. -/
def asyncRead (data : List UInt8) (ended : Option Ended) : RetryCtx :=
  let confirms := ctx.awaitingContinue && ended.any (·.status = 100)
  { ctx with
    anyBytesRead := true
    continueDecided := ctx.continueDecided || confirms
    retryUnsafe := ctx.retryUnsafe || confirms
    trace := ctx.trace ++ [.parsed data ended] }

/-- The branch of `_async_ctx_finish` that sends the request again. -/
def asyncCtxFinishRetries : Bool :=
  !ctx.hopCompleted && !ctx.timedOut &&
    (ctx.reused && !ctx.anyBytesRead && !ctx.retryUnsafe && (ctx.replayable || ctx.wireSent < ctx.wireLen))

/-- The context that `_async_retry_hop` makes. -/
def asyncRetryHop : RetryCtx :=
  { ctx with
    wireSent := 0
    continueDecided := false
    reused := false
    anyBytesRead := false
    retryUnsafe := false
    timedOut := false
    hopCompleted := false
    trace := [] }

end RetryCtx

/-- One hop: the contexts that have ended, the last one first, and the one that runs. -/
structure AsyncHop where
  ended : List RetryCtx
  current : Option RetryCtx

namespace AsyncHop

def attempts (s : AsyncHop) : List RetryCtx := s.current.toList ++ s.ended

def asyncCtxFinish (s : AsyncHop) (ctx : RetryCtx) (alloc : Bool) : AsyncHop where
  ended := ctx :: s.ended
  current := if ctx.asyncCtxFinishRetries && alloc then some ctx.asyncRetryHop else none

def step (s : AsyncHop) (d : Dispatch) : AsyncHop :=
  match s.current with
  | none => s
  | some ctx =>
    match d with
    | .write n => { s with current := some (ctx.asyncTryWrite n) }
    | .read c data ended => { s with current := some (ctx.asyncRead (c :: data) ended) }
    | .windowPassed => { s with current := some { ctx with continueDecided := true } }
    | .timeOut => { s with current := some { ctx with timedOut := true } }
    | .fulfill => { s with current := some { ctx with hopCompleted := true } }
    | .finish alloc => s.asyncCtxFinish ctx alloc

/-- A hop that `_async_submit_hop` has just submitted. -/
def start (h : Hop) (reused : Bool) : AsyncHop where
  ended := []
  current := some {
    wire := h.wire
    wireLen := h.wire.length
    wireSent := 0
    headerLen := h.wire.length - h.bodyLen
    want100Continue := h.use100Continue
    continueDecided := false
    replayable := h.replayable
    reused := reused
    anyBytesRead := false
    retryUnsafe := false
    timedOut := false
    hopCompleted := false
    trace := [] }

def run (h : Hop) (reused : Bool) (ds : List Dispatch) : AsyncHop := ds.foldl step (start h reused)

end AsyncHop

end Ccollections.Chttpclient
