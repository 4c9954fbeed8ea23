import Ccollections.Chttp1.Parser
import Ccollections.Lib.Runs

/-!
# Feeding bytes to the parser
-/

namespace Ccollections.Chttp1
open Lib

namespace Parser

variable (S : Settings) (p : Parser)

/-! ## Terminal outcomes -/

def fail (reason : String) : Errno × Parser := (.error, { p with reason := some reason, state := .dead })

def failAlreadySet : Errno × Parser := (.error, { p with state := .dead })

def userError : Errno × Parser :=
  (.user, { p with state := .dead, reason := some (p.reason.getD "Callback reported an error") })

/-- `complete_message`, with the number of bytes read so far. -/
def completeMessage (consumed : Nat) : Errno × Parser :=
  let called := p.call S .messageComplete
  if called.1 ≠ 0 then called.2.userError else (.paused, { called.2 with consumed := consumed, state := .messageDone })

/-! ## What a state does with its input -/

/-- A step goes on with the rest of the input, or `chttp1_parser_execute` returns. -/
abbrev Stepped := Parser × List UInt8 ⊕ Errno × Parser

def is11OrLater : Bool := p.httpMajor > 1 || (p.httpMajor = 1 && p.httpMinor ≥ 1)

def parseFirstLine (rest : List UInt8) : Stepped :=
  let next (p : Parser) : Stepped := .inl ({ p with line := [], finishState := .finishUnsafe, state := .headers }, rest)
  match p.type with
  | .request =>
    match p.parseRequestLine S with
    | (.error, p) => .inr p.failAlreadySet
    | (.user, p) => .inr p.userError
    | (.ok, p) => next p
  | .response =>
    match p.parseStatusLine with
    | (false, p) => .inr p.failAlreadySet
    | (true, p) => next p

def firstLineReady (rest : List UInt8) : Stepped :=
  if p.type = .request && p.line = [] then
    let p := { p with leadingBlankLines := p.leadingBlankLines + 1 }
    if p.leadingBlankLines > chttp1MaxLeadingBlankLines then .inr (p.fail "Too many leading blank lines") else .inl (p, rest)
  else
    let contribution := p.line.length + 2
    if sizeAdd p.totalHeaderBytes contribution > p.effectiveMaxTotalHeaderBytes then
      .inr (p.fail (if p.type = .request then "Request line too large" else "Status line too large"))
    else { p with totalHeaderBytes := sizeAdd p.totalHeaderBytes contribution }.parseFirstLine S rest

def requestDefect : Option String :=
  if p.hostCount > 1 then some "Duplicate Host header"
  else if p.hostCount = 0 && p.is11OrLater then some "Missing Host header"
  else if p.flags.transferEncoding && !p.is11OrLater then some "Transfer-Encoding in an HTTP/1.0 request"
  else if p.flags.transferEncoding && !p.flags.chunked then
    some "Transfer-Encoding present but final encoding is not chunked"
  else none

def bodiless (status : Nat) : Bool := (status ≥ 100 && status < 200) || status = 204 || status = 304

def wantDivert (hint : Int) : Bool := hint = headersDivertBody ∧ p.type = .request

def noBody (hint : Int) : Bool := hint = headersNoBody ∨ (p.type = .response ∧ bodiless p.statusCode)

/-- The framing of the message is known. `hint` is what `on_headers_complete` returned. -/
def enterBody (hint : Int) (rest : List UInt8) (consumed : Nat) : Stepped :=
  if !p.noBody hint && p.flags.transferEncoding && !p.flags.chunked && p.flags.contentLength then
    .inr (p.fail "Content-Length can't be present with a non-chunked Transfer-Encoding")
  else if p.noBody hint then .inr ({ p with finishState := .finishSafe }.completeMessage S consumed)
  else if p.flags.chunked then
    let p := { p with state := .bodyChunkSize, finishState := .finishUnsafe }
    if p.wantDivert hint then .inr (.headersOnly, { p with consumed := consumed }) else .inl (p, rest)
  else if p.flags.contentLength then
    if p.contentLength = 0 then .inr ({ p with finishState := .finishSafe }.completeMessage S consumed)
    else
      let p := { p with state := .bodyContentLength, finishState := .finishUnsafe }
      if p.wantDivert hint then .inr (.headersOnly, { p with consumed := consumed }) else .inl (p, rest)
  else if p.type = .request then .inr ({ p with finishState := .finishSafe }.completeMessage S consumed)
  else .inl ({ p with state := .bodyEof, finishState := .finishSafeWithCb }, rest)

/-- `on_headers_complete` has answered. -/
def headersAnswered (hint : Int) (rest : List UInt8) (consumed : Nat) : Stepped :=
  if hint ≠ 0 ∧ hint ≠ headersNoBody ∧ !p.wantDivert hint then .inr p.userError else p.enterBody S hint rest consumed

def reportHeaders (rest : List UInt8) (consumed : Nat) : Stepped :=
  let called := p.call S (.headersComplete p.statusCode p.httpMajor p.httpMinor)
  called.2.headersAnswered S called.1 rest consumed

def headersEnd (rest : List UInt8) (consumed : Nat) : Stepped :=
  match if p.type = .request then p.requestDefect else none with
  | some reason => .inr (p.fail reason)
  | none => { p with flags := { p.flags with headersDone := true } }.reportHeaders S rest consumed

def headerReady (isTrailer : Bool) (rest : List UInt8) : Stepped :=
  match p.processHeaderLine S isTrailer with
  | (.error, p) => .inr p.failAlreadySet
  | (.user, p) => .inr p.userError
  | (.ok, p) => .inl ({ p with line := [] }, rest)

def chunkSizeReady (rest : List UInt8) : Stepped :=
  match p.parseChunkSizeLine with
  | (false, p) => .inr p.failAlreadySet
  | (true, p) =>
    .inl ({ p with line := [], state := if p.contentLength = 0 then .bodyChunkTrailers else .bodyChunkData }, rest)

def lineReady (rest : List UInt8) (consumed : Nat) : Stepped :=
  match p.state with
  | .firstLine => p.firstLineReady S rest
  | .headers => if p.line = [] then p.headersEnd S rest consumed else p.headerReady S false rest
  | .bodyChunkSize => p.chunkSizeReady rest
  | .bodyChunkTrailers =>
    if p.line = [] then .inr ({ p with finishState := .finishSafe }.completeMessage S consumed) else p.headerReady S true rest
  | _ => if p.line = [] then .inl ({ p with state := .bodyChunkSize }, rest) else .inr (p.fail "Expected CRLF after chunk data")

def tooLongReason : String :=
  match p.state with
  | .firstLine => if p.type = .request then "Request line too long" else "Status line too long"
  | .headers => "Header line too long"
  | .bodyChunkSize => "Chunk size line too long"
  | .bodyChunkTrailers => "Trailer line too long"
  | _ => "Expected CRLF after chunk data"

def badEolReason : String :=
  match p.state with
  | .bodyChunkCrlf => "Expected CRLF after chunk data"
  | _ => "Expected CRLF"

/-- The budget that a state gives to `accumulate_line`. -/
def stateSpillBudget : Nat :=
  match p.state with
  | .headers | .bodyChunkTrailers => p.headerSpillBudget
  | _ => 0

def lineStep (len : Nat) (data : List UInt8) : Stepped :=
  match p.accumulateLine p.stateSpillBudget data with
  | (.needMore, p, rest) => .inl (p, rest)
  | (.tooLong, p, _) => .inr (p.fail p.tooLongReason)
  | (.badEol, p, _) => .inr (p.fail p.badEolReason)
  | (.ready, p, rest) => p.lineReady S rest (len - rest.length)

/-- The body bytes in the input. `none` when `on_body` reported an error. -/
def takeBody (data : List UInt8) : Parser ⊕ Errno × Parser :=
  let called := p.call S (.body data)
  if called.1 ≠ 0 then .inr called.2.userError else .inl called.2

def countedEnd (rest : List UInt8) (consumed : Nat) : Stepped :=
  if p.contentLength = 0 then
    if p.state = .bodyChunkData then .inl ({ p with state := .bodyChunkCrlf }, rest)
    else .inr ({ p with finishState := .finishSafe }.completeMessage S consumed)
  else .inl (p, rest)

def countedStep (len : Nat) (data : List UInt8) : Stepped :=
  let take := min data.length p.contentLength
  match if take > 0 then p.takeBody S (data.take take) else .inl p with
  | .inr r => .inr r
  | .inl p => { p with contentLength := p.contentLength - take }.countedEnd S (data.drop take) (len - (data.drop take).length)

/-- One round of the loop of `chttp1_parser_execute`, for a slice of `len` bytes. -/
def step (len : Nat) : Parser × List UInt8 → Stepped
  | (p, []) => .inr (.ok, p)
  | (p, c :: data) =>
    match p.state with
    | .firstLine | .headers | .bodyChunkSize | .bodyChunkCrlf | .bodyChunkTrailers => p.lineStep S len (c :: data)
    | .bodyContentLength | .bodyChunkData => p.countedStep S len (c :: data)
    | .bodyEof =>
      match p.takeBody S (c :: data) with
      | .inr r => .inr r
      | .inl p => .inl (p, [])
    | .messageDone | .dead => .inr (.error, p)

/-! ## The loop -/

theorem accumulateLine_length (budget : Nat) (data : List UInt8) : (p.accumulateLine budget data).2.2.length ≤ data.length := by
  induction data generalizing p with
  | nil => exact Nat.le_refl _
  | cons c data ih =>
    rw [accumulateLine]
    split
    · exact Nat.le_succ_of_le (ih _)
    · exact Nat.zero_le _
    · exact Nat.le_succ _

theorem accumulateLine_cons_length (budget : Nat) (c : UInt8) (data : List UInt8) :
    (p.accumulateLine budget (c :: data)).2.2.length ≤ data.length := by
  rw [accumulateLine]
  split
  · exact accumulateLine_length _ _ _
  · exact Nat.zero_le _
  · exact Nat.le_refl _

def measure (s : Parser × List UInt8) : Nat := 2 * s.2.length + if s.1.state = .bodyChunkData then 1 else 0

variable {S p} {p' : Parser} {len consumed : Nat} {data rest rest' : List UInt8}

/-! A complete line leaves the rest of the input as it is. -/

theorem parseFirstLine_rest (h : p.parseFirstLine S rest = .inl (p', rest')) : rest' = rest := by
  simp only [parseFirstLine] at h
  split at h
  · split at h <;> cases h
    rfl
  · split at h <;> cases h
    rfl

theorem firstLineReady_rest (h : p.firstLineReady S rest = .inl (p', rest')) : rest' = rest := by
  simp only [firstLineReady] at h
  split at h
  · split at h <;> cases h
    rfl
  · split at h
    · cases h
    · exact parseFirstLine_rest h

theorem enterBody_rest {hint : Int} (h : p.enterBody S hint rest consumed = .inl (p', rest')) : rest' = rest := by
  simp only [enterBody] at h
  repeat' split at h
  all_goals cases h
  all_goals rfl

theorem headerReady_rest {isTrailer : Bool} (h : p.headerReady S isTrailer rest = .inl (p', rest')) : rest' = rest := by
  simp only [headerReady] at h
  split at h <;> cases h
  rfl

theorem lineReady_rest (h : p.lineReady S rest consumed = .inl (p', rest')) : rest' = rest := by
  simp only [lineReady] at h
  split at h
  · exact firstLineReady_rest h
  · split at h
    · simp only [headersEnd, reportHeaders, headersAnswered] at h
      split at h
      · cases h
      · split at h
        · cases h
        · exact enterBody_rest h
    · exact headerReady_rest h
  · simp only [chunkSizeReady] at h
    split at h <;> cases h
    rfl
  · split at h
    · cases h
    · exact headerReady_rest h
  · split at h <;> cases h
    rfl

theorem lineStep_length {c : UInt8} (h : p.lineStep S len (c :: data) = .inl (p', rest)) : rest.length ≤ data.length := by
  have hlen := accumulateLine_cons_length p p.stateSpillBudget c data
  rw [lineStep] at h
  split at h
  · rename_i heq
    cases h
    rw [heq] at hlen
    exact hlen
  · cases h
  · cases h
  · rename_i heq
    rw [heq] at hlen
    rw [lineReady_rest h]
    exact hlen

theorem takeBody_state (h : p.takeBody S data = .inl p') : p'.state = p.state ∧ p'.contentLength = p.contentLength := by
  simp only [takeBody] at h
  split at h <;> cases h
  exact ⟨rfl, rfl⟩

theorem countedStep_measure {c : UInt8} (h : p.countedStep S len (c :: data) = .inl (p', rest)) :
    measure (p', rest) < measure (p, c :: data) := by
  simp only [countedStep] at h
  split at h
  · cases h
  · rename_i p₁ htaken
    have hsame : p₁.state = p.state ∧ p₁.contentLength = p.contentLength := by
      split at htaken
      · exact takeBody_state htaken
      · cases htaken
        exact ⟨rfl, rfl⟩
    simp only [countedEnd, hsame.1, hsame.2] at h
    split at h
    · split at h
      · rename_i hchunk
        cases h
        simp only [measure, hchunk, List.length_drop, reduceCtorEq, if_true, if_false]
        omega
      · cases h
    · rename_i hleft
      cases h
      simp only [measure, hsame.1, List.length_drop, List.length_cons] at *
      omega

theorem step_measure (s s' : Parser × List UInt8) (h : step S len s = .inl s') : measure s' < measure s := by
  obtain ⟨p, data⟩ := s
  obtain ⟨p', rest⟩ := s'
  cases data with
  | nil => cases h
  | cons c data =>
    have hline : p.lineStep S len (c :: data) = .inl (p', rest) → measure (p', rest) < measure (p, c :: data) := by
      intro h
      have hlen := lineStep_length h
      simp only [measure, List.length_cons]
      split <;> omega
    simp only [step] at h
    split at h
    · exact hline h
    · exact hline h
    · exact hline h
    · exact hline h
    · exact hline h
    · exact countedStep_measure h
    · exact countedStep_measure h
    · rename_i hstate
      split at h
      · cases h
      · rename_i p₁ htaken
        cases h
        simp [measure, (takeBody_state htaken).1, hstate]
    · cases h
    · cases h

variable (S)

/-- The loop of `chttp1_parser_execute` for a slice of `len` bytes. -/
def loop (len : Nat) : Machine (Parser × List UInt8) (Errno × Parser) where
  step := step S len
  measure := measure
  decreases := step_measure

variable (p)

def execute (data : List UInt8) : Errno × Parser :=
  if p.state = .dead ∨ p.state = .messageDone then (.error, p) else (loop S data.length).run (p, data)

/-! ## End of the stream and accessors -/

def finish : Errno × Parser :=
  if p.state = .dead then (.error, p)
  else if p.state = .messageDone then (.ok, p)
  else
    match p.finishState with
    | .finishSafe => (.ok, p)
    | .finishSafeWithCb =>
      let called := p.call S .messageComplete
      if called.1 ≠ 0 then called.2.userError else (.paused, { called.2 with state := .messageDone })
    | .finishUnsafe => p.fail "Invalid EOF state"

def shouldKeepAlive : Bool :=
  if p.flags.connectionClose then false
  else if !p.is11OrLater && !p.flags.connectionKeepAlive then false
  else if !p.is11OrLater && p.flags.transferEncoding then false
  else p.finishState ≠ .finishSafeWithCb

end Parser

/-!
# A stream in slices
-/

namespace Parser

variable (S : Settings) (p : Parser)

/-- Feeds a slice, again after `CHTTP1_HEADERS_ONLY`. The number is how many bytes a complete message took from it. -/
def feedSlice (data : List UInt8) : Errno × Parser × Nat :=
  let r := p.execute S data
  if r.1 = .headersOnly then
    let body := r.2.execute S (data.drop r.2.consumed)
    (body.1, body.2, r.2.consumed + body.2.consumed)
  else (r.1, r.2, r.2.consumed)

/-- Feeds slices until the parser returns something else than `CHTTP1_OK`, after `total` bytes. -/
def feed (p : Parser) (total : Nat) : List (List UInt8) → Errno × Parser × Nat
  | [] => (.ok, p, total)
  | data :: slices =>
    let r := p.feedSlice S data
    if r.1 = .ok then r.2.1.feed (total + data.length) slices else (r.1, r.2.1, total + r.2.2)

end Parser

/-! ## What the callbacks see -/

def Event.message : Event → Option Event
  | .body _ => none
  | e => some e

def messages (log : List Call) : List Call := log.filter fun c => c.event.message.isSome

/-- The body bytes that `on_body` was called with. -/
def bodyBytes (log : List Call) : List UInt8 := log.flatMap fun c => match c.event with
  | .body bytes => bytes
  | _ => []

/-- The body bytes for which `on_body` reported no error. -/
def acceptedBody (log : List Call) : List UInt8 := bodyBytes (log.filter (·.answer = 0))

def DecidesFromMessages (S : Settings) : Prop :=
  ∀ log log' e e', messages log = messages log' → e.message = e'.message → S.callback log e = S.callback log' e'

def accepting : Settings := ⟨fun _ _ => 0⟩

/-- Two ways to feed a stream that callbacks can only tell apart by where the body bytes are cut. -/
structure SameOutcome (a b : Errno × Parser × Nat) : Prop where
  result : a.1 = b.1
  reason : a.2.1.reason = b.2.1.reason
  messages : messages a.2.1.log = messages b.2.1.log
  body : acceptedBody a.2.1.log = acceptedBody b.2.1.log
  consumed : a.1 = .paused → a.2.2 = b.2.2

end Ccollections.Chttp1
