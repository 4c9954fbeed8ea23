import Ccollections.Chttp1.Lines

/-!
# The HTTP/1 parser and its lines

The parser calls back for what it has parsed. A callback answers from all calls made so far, so the parser keeps them.
-/

namespace Ccollections.Chttp1

def chttp1MaxLineLen : Nat := 8192

def chttp1MaxSpillLineLen : Nat := 64 * 1024

def chttp1MaxHeaderCount : Nat := 100

def chttp1MaxTotalHeaderBytes : Nat := 64 * 1024

def chttp1MaxLeadingBlankLines : Nat := 25

def chttp1MaxChunkOverheadExcess : Nat := 16 * 1024

/-! ## Data -/

inductive ParserType where
  | response
  | request
  deriving DecidableEq

inductive Errno where
  | ok
  | paused
  | user
  | error
  | headersOnly
  deriving DecidableEq

inductive State where
  | firstLine
  | headers
  | bodyContentLength
  | bodyChunkSize
  | bodyChunkData
  | bodyChunkCrlf
  | bodyChunkTrailers
  | bodyEof
  | messageDone
  | dead
  deriving DecidableEq

inductive FinishState where
  | finishSafe
  | finishSafeWithCb
  | finishUnsafe
  deriving DecidableEq

/-- The bits of `flags`. -/
structure Flags where
  chunked : Bool
  contentLength : Bool
  transferEncoding : Bool
  connectionClose : Bool
  connectionKeepAlive : Bool
  expect100Continue : Bool
  chunkTooLarge : Bool
  chunkedApplied : Bool
  otherCoding : Bool
  headersDone : Bool
  deriving DecidableEq

/-- What a callback is called with, and what it can read of the first line. -/
inductive Event where
  | requestLine (method target : List UInt8) (major minor : Nat)
  | header (name value : List UInt8)
  | headersComplete (status major minor : Nat)
  | trailer (name value : List UInt8)
  | body (bytes : List UInt8)
  | messageComplete
  deriving DecidableEq

/-- A call of a callback and what it returned. -/
structure Call where
  event : Event
  answer : Int
  deriving DecidableEq

/-- The callbacks of `chttp1_settings_t`, by the event each one is for. One that is not set returns 0. -/
structure Settings where
  callback : List Call → Event → Int

def headersNoBody : Int := 1

def headersDivertBody : Int := 2

/-- `chttp1_parser_t`. The line is in `line_buf`, or on the heap when `lineSpill` holds, and `spillAlloc` says whether
there is memory for that. -/
structure Parser where
  type : ParserType
  statusCode : Nat
  reason : Option String
  state : State
  finishState : FinishState
  httpMajor : Nat
  httpMinor : Nat
  flags : Flags
  contentLength : Nat
  chunkExcess : Nat
  headerCount : Nat
  totalHeaderBytes : Nat
  leadingBlankLines : Nat
  hostCount : Nat
  lineSpillEnabled : Bool
  spillAlloc : Bool
  maxHeaderCountOverride : Nat
  maxTotalHeaderBytesOverride : Nat
  maxChunkSizeOverride : Nat
  line : List UInt8
  lineSpill : Bool
  consumed : Nat
  log : List Call

/-- What a caller sets before the first byte. -/
structure Config where
  maxHeaderCountOverride : Nat
  maxTotalHeaderBytesOverride : Nat
  maxChunkSizeOverride : Nat
  lineSpillEnabled : Bool
  spillAlloc : Bool

def Flags.none : Flags := ⟨false, false, false, false, false, false, false, false, false, false⟩

/-- `chttp1_parser_init` and `chttp1_parser_init_request`, with the overrides. Only a response parser can spill. -/
def parserInit (type : ParserType) (config : Config) : Parser where
  type := type
  statusCode := 0
  reason := none
  state := .firstLine
  finishState := .finishUnsafe
  httpMajor := 0
  httpMinor := 0
  flags := .none
  contentLength := 0
  chunkExcess := 0
  headerCount := 0
  totalHeaderBytes := 0
  leadingBlankLines := 0
  hostCount := 0
  lineSpillEnabled := config.lineSpillEnabled && type = .response
  spillAlloc := config.spillAlloc
  maxHeaderCountOverride := config.maxHeaderCountOverride
  maxTotalHeaderBytesOverride := config.maxTotalHeaderBytesOverride
  maxChunkSizeOverride := config.maxChunkSizeOverride
  line := []
  lineSpill := false
  consumed := 0
  log := []

namespace Parser

variable (S : Settings) (p : Parser)

def call (e : Event) : Int × Parser := (S.callback p.log e, { p with log := p.log ++ [⟨e, S.callback p.log e⟩] })

def invalid (reason : String) : Parser := { p with reason := some reason }

/-! ## Line accumulation -/

inductive LineResult where
  | needMore
  | ready
  | tooLong
  | badEol
  deriving DecidableEq

def lineSpillGrow (headerBudgetLeft : Nat) : Option Parser :=
  if !p.lineSpillEnabled || p.lineSpill then none
  else if headerBudgetLeft ≤ chttp1MaxLineLen then none
  else if p.spillAlloc then some { p with lineSpill := true }
  else none

def spillCap (spillBudget : Nat) : Nat :=
  if spillBudget ≠ 0 && spillBudget < chttp1MaxSpillLineLen then spillBudget else chttp1MaxSpillLineLen

def lineCap (spillBudget : Nat) : Nat := if p.lineSpill then spillCap spillBudget else chttp1MaxLineLen

def appendByte (c : UInt8) : LineResult × Parser :=
  if c = 0x0A then
    if p.line.getLast? = some 0x0D then (.ready, { p with line := p.line.dropLast })
    else (.badEol, { p with line := p.line ++ [c] })
  else (.needMore, { p with line := p.line ++ [c] })

/-- The rounds of the loop of `accumulate_line` for one byte: one more when the line moves to the heap. -/
def pushByte (spillBudget : Nat) (c : UInt8) : LineResult × Parser :=
  if p.line.length < p.lineCap spillBudget then p.appendByte c
  else if spillBudget = 0 then (.tooLong, p)
  else
    match p.lineSpillGrow spillBudget with
    | none => (.tooLong, p)
    | some p => if p.line.length < p.lineCap spillBudget then p.appendByte c else (.tooLong, p)

/-- `accumulate_line`, with the bytes that are left. -/
def accumulateLine (p : Parser) (spillBudget : Nat) : List UInt8 → LineResult × Parser × List UInt8
  | [] => (.needMore, p, [])
  | c :: data =>
    match p.pushByte spillBudget c with
    | (.needMore, p) => p.accumulateLine spillBudget data
    | (.tooLong, p) => (.tooLong, p, [])
    | (r, p) => (r, p, data)

/-! ## First line -/

/-- `ph_result_t`. -/
inductive PhResult where
  | ok
  | error
  | user
  deriving DecidableEq

def parseHttpVersion (s : List UInt8) : Bool × Parser :=
  if s.length < 8 || s.take 5 ≠ ascii "HTTP/" then (false, p.invalid "Invalid HTTP version")
  else
    let major := s.getD 5 0
    let minor := s.getD 7 0
    if !isDigit major then (false, p.invalid "Invalid HTTP version")
    else
      let p := { p with httpMajor := major.toNat - 0x30 }
      if s.getD 6 0 ≠ 0x2E || !isDigit minor then (false, p.invalid "Invalid HTTP version")
      else (true, { p with httpMinor := minor.toNat - 0x30 })

def parseStatus (s : List UInt8) : Bool × Parser :=
  match s with
  | [] => (false, p.invalid "Invalid HTTP version")
  | c :: s =>
    if c ≠ 0x20 then (false, p.invalid "Invalid HTTP version")
    else if s.length < 3 || !(s.take 3).all isDigit then (false, p.invalid "Invalid status code")
    else
      let digit (i : Nat) := (s.getD i 0).toNat - 0x30
      let p := { p with statusCode := digit 0 * 100 + digit 1 * 10 + digit 2 }
      match s.drop 3 with
      | [] => (true, p)
      | c :: phrase =>
        if c ≠ 0x20 then (false, p.invalid "Invalid status line")
        else if phrase.any isInvalidValueByte then (false, p.invalid "Invalid character in reason phrase")
        else (true, p)

def parseStatusLine : Bool × Parser :=
  match p.parseHttpVersion p.line with
  | (false, p) => (false, p)
  | (true, p) => p.parseStatus (p.line.drop 8)

def parseRequestLine : PhResult × Parser :=
  let method := p.line.takeWhile (· ≠ 0x20)
  let rest := p.line.drop (method.length + 1)
  let target := rest.takeWhile (· ≠ 0x20)
  if method = [] || method.length ≥ p.line.length then (.error, p.invalid "Invalid request line")
  else if !method.all chttp1IsTchar then (.error, p.invalid "Invalid method")
  else if target = [] || target.length ≥ rest.length then (.error, p.invalid "Invalid request line")
  else if target.any isInvalidTargetByte then (.error, p.invalid "Invalid character in request target")
  else
    let version := rest.drop (target.length + 1)
    match p.parseHttpVersion version with
    | (false, p) => (.error, p)
    | (true, p) =>
      if version.length ≠ 8 then (.error, p.invalid "Invalid request line")
      else
        let called := p.call S (.requestLine method target p.httpMajor p.httpMinor)
        (if called.1 = 0 then .ok else .user, called.2)

/-! ## Header and trailer lines -/

def headerNameIs (name : List UInt8) (literal : String) : Bool :=
  name.length = (ascii literal).length && asciiCaseEq name (ascii literal)

def effectiveMaxTotalHeaderBytes : Nat :=
  if p.maxTotalHeaderBytesOverride ≠ 0 then p.maxTotalHeaderBytesOverride else chttp1MaxTotalHeaderBytes

def effectiveMaxHeaderCount : Nat :=
  if p.maxHeaderCountOverride ≠ 0 then p.maxHeaderCountOverride else chttp1MaxHeaderCount

def headerSpillBudget : Nat :=
  if !p.lineSpillEnabled then 0 else p.effectiveMaxTotalHeaderBytes - p.totalHeaderBytes

def splitHeader (line : List UInt8) : Except String (List UInt8 × List UInt8) :=
  let name := line.takeWhile (· ≠ 0x3A)
  if name.length ≥ line.length || name = [] then .error "Invalid header field"
  else if !name.all chttp1IsTchar then .error "Invalid header field char"
  else
    let value := trimOws (line.drop (name.length + 1))
    if value.any isInvalidValueByte then .error "Invalid header value char" else .ok (name, value)

def processContentLength (value : List UInt8) : Option String × Parser :=
  if p.flags.contentLength then (some "Duplicate Content-Length", p)
  else
    match parseUint64Decimal value with
    | none => (some "Invalid Content-Length", p)
    | some v => (none, { p with flags := { p.flags with contentLength := true }, contentLength := v })

def processTransferEncoding (value : List UInt8) : Option String × Parser :=
  let scan := transferEncodingScan value
  let applied := p.flags.chunkedApplied
  let flags := { p.flags with transferEncoding := true, otherCoding := p.flags.otherCoding || scan.namesOtherCoding }
  if scan.chunkedCount > 1 || (scan.chunkedCount > 0 && applied) then
    (some "chunked can't be applied more than once", { p with flags := flags })
  else
    let flags := { flags with chunkedApplied := applied || scan.chunkedCount > 0 }
    if p.type = .request && scan.nonfinalChunked then
      (some "chunked must be the last Transfer-Encoding token", { p with flags := flags })
    else
      (none, { p with
        flags := { flags with
          chunked := if scan.endsWithChunked then true else if scan.namesACoding then false else flags.chunked } })

def processHost (value : List UInt8) : Option String × Parser :=
  let p := { p with hostCount := if p.hostCount < 2 then p.hostCount + 1 else p.hostCount }
  if hostValueIsValid value then (none, p) else (some "Invalid Host header value", p)

/-- One round of the loop of `parse_connection_tokens`. -/
def connectionToken (flags : Flags) (e : List UInt8) : Flags :=
  let tok := trimOws e
  if headerNameIs tok "close" then { flags with connectionClose := true }
  else if headerNameIs tok "keep-alive" then { flags with connectionKeepAlive := true }
  else flags

def parseConnectionTokens (value : List UInt8) : Parser :=
  { p with flags := (commaElements value).foldl connectionToken p.flags }

def processExpect (value : List UInt8) : Parser :=
  if headerNameIs value "100-continue" then { p with flags := { p.flags with expect100Continue := true } } else p

/-- What `process_header_line` does for the names the parser reads. -/
def interpretHeader (name value : List UInt8) : Option String × Parser :=
  if headerNameIs name "content-length" then p.processContentLength value
  else if headerNameIs name "transfer-encoding" then p.processTransferEncoding value
  else if p.type = .request && headerNameIs name "host" then p.processHost value
  else if headerNameIs name "connection" then (none, p.parseConnectionTokens value)
  else if headerNameIs name "expect" then (none, p.processExpect value)
  else (none, p)

def countHeader (contribution : Nat) : Parser :=
  { p with headerCount := sizeAdd p.headerCount 1, totalHeaderBytes := sizeAdd p.totalHeaderBytes contribution }

def reportHeader (e : Event) (contribution : Nat) : PhResult × Parser :=
  let called := p.call S e
  if called.1 = 0 then (.ok, called.2.countHeader contribution) else (.user, called.2)

def processHeaderLine (isTrailer : Bool) : PhResult × Parser :=
  let contribution := p.line.length + 2
  if sizeAdd p.headerCount 1 > p.effectiveMaxHeaderCount then (.error, p.invalid "Too many headers")
  else if sizeAdd p.totalHeaderBytes contribution > p.effectiveMaxTotalHeaderBytes then
    (.error, p.invalid "Header block too large")
  else
    match splitHeader p.line with
    | .error reason => (.error, p.invalid reason)
    | .ok (name, value) =>
      if isTrailer then p.reportHeader S (.trailer name value) contribution
      else
        match p.interpretHeader name value with
        | (some reason, p) => (.error, p.invalid reason)
        | (none, p) =>
          if p.flags.contentLength && p.flags.chunked then
            (.error, p.invalid "Content-Length can't be present with chunked Transfer-Encoding")
          else p.reportHeader S (.header name value) contribution

/-! ## Chunk size line -/

/-- Where the extensions of a chunk size line begin. A response may have white space there and nothing else. -/
def extStart (s : List UInt8) : List UInt8 :=
  if p.type = .response && s.all isOws then [] else s

/-- The framing bytes that a chunk of `v` bytes pays for. -/
def chunkEarned (v : Nat) : Nat := if v > (uint64Max - 16) / 2 then uint64Max else 16 + 2 * v

def parseChunkSizeLine : Bool × Parser :=
  let hex := p.line.takeWhile fun c => c ≠ 0x3B && !isOws c
  match parseUint64Hex hex with
  | none => (false, p.invalid "Invalid chunk size")
  | some v =>
    if !chunkExtIsValid (p.extStart (p.line.drop hex.length)) then (false, p.invalid "Invalid chunk extension")
    else if p.maxChunkSizeOverride ≠ 0 && v > p.maxChunkSizeOverride then
      (false, { p with
        flags := { p.flags with chunkTooLarge := true }
        reason := some "Chunk size exceeds configured maximum" })
    else
      let excess := p.chunkExcess + p.line.length + 4 - chunkEarned v
      if excess > chttp1MaxChunkOverheadExcess then (false, p.invalid "Chunk framing exceeds its data")
      else (true, { p with chunkExcess := excess, contentLength := v })

end Parser

end Ccollections.Chttp1
