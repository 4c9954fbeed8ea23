import Ccollections.Chttp1.Grammar
import Ccollections.Chttp1.Lemmas.Steps

/-!
# What a run of the parser uses

A run makes rounds of the loop of `chttp1_parser_execute` with any input. Beside the parser it keeps the lines that were
accepted and the stores into the line buffer.
-/

namespace Ccollections.Chttp1
open Lib

/-- Stores to the bytes from `first` up to `stop` of a buffer of `size` bytes. -/
structure Store where
  first : Nat
  stop : Nat
  size : Nat

/-- A line that was accepted, and the state that read it. -/
structure Line where
  state : State
  text : List UInt8

namespace Parser

variable (S : Settings) (p : Parser)

/-- The size of the buffer that `line_ptr` gives. -/
def bufferSize : Nat := if p.lineSpill then chttp1MaxSpillLineLen else chttp1MaxLineLen

/-- The store of `appendByte`. -/
def appendStore : Store := ⟨p.line.length, p.line.length + 1, p.bufferSize⟩

/-- The stores of `pushByte`, with the `memcpy` of `line_spill_grow`. -/
def pushStores (spillBudget : Nat) : List Store :=
  if p.line.length < p.lineCap spillBudget then [p.appendStore]
  else if spillBudget = 0 then []
  else
    match p.lineSpillGrow spillBudget with
    | none => []
    | some p =>
      ⟨0, p.line.length, p.bufferSize⟩ :: if p.line.length < p.lineCap spillBudget then [p.appendStore] else []

/-- The stores of `accumulateLine`. -/
def lineStores (p : Parser) (spillBudget : Nat) : List UInt8 → List Store
  | [] => []
  | c :: data =>
    p.pushStores spillBudget ++
      match p.pushByte spillBudget c with
      | (.needMore, p) => p.lineStores spillBudget data
      | _ => []

def accepts : Stepped → Bool
  | .inl _ => true
  | .inr (r, _) => r ≠ .error && r ≠ .user

def stepStores (data : List UInt8) : List Store := if p.state.isLine then p.lineStores p.stateSpillBudget data else []

def stepLines (len : Nat) (data : List UInt8) : List Line :=
  if p.state.isLine then
    match p.accumulateLine p.stateSpillBudget data with
    | (.ready, p, rest) => if accepts (p.lineReady S rest (len - rest.length)) then [⟨p.state, p.line⟩] else []
    | _ => []
  else []

end Parser

/-- A parser and what its run has used. `read` counts the bytes it was given. -/
structure Metered where
  parser : Parser
  read : Nat
  lines : List Line
  stores : List Store

inductive Action where
  | round (len : Nat) (data : List UInt8)
  | finish

namespace Metered

variable (S : Settings) (m : Metered)

def round (len : Nat) (data : List UInt8) : Metered :=
  let out := Parser.step S len (m.parser, data)
  { parser := out.elim Prod.fst Prod.snd
    read := m.read + (data.length - out.elim (fun s => s.2.length) fun _ => 0)
    lines := m.lines ++ m.parser.stepLines S len data
    stores := m.stores ++ m.parser.stepStores data }

def act : Action → Metered
  | .round len data => m.round S len data
  | .finish => { m with parser := (m.parser.finish S).2 }

def start (type : ParserType) (config : Config) : Metered := ⟨parserInit type config, 0, [], []⟩

def Reaches (type : ParserType) (config : Config) : Metered → Prop := Reach (fun m a => some (m.act S a)) (start type config)

end Metered

/-! ## Sums over the accepted lines -/

def Line.headerBytes (l : Line) : Nat :=
  match l.state with
  | .firstLine | .headers | .bodyChunkTrailers => if l.text = [] then 0 else l.text.length + 2
  | _ => 0

/-- The bytes that frame a chunk: its size line, with its line end, and the line end after its data. -/
def Line.framing (l : Line) : Nat := if l.state = .bodyChunkSize then l.text.length + 4 else 0

def Line.chunkSize (l : Line) : Nat := (parseUint64Hex (l.text.takeWhile fun c => c ≠ 0x3B && !isOws c)).getD 0

def Line.allowance (l : Line) : Nat := if l.state = .bodyChunkSize then 16 + 2 * l.chunkSize else 0

def headerBytes (lines : List Line) : Nat := (lines.map Line.headerBytes).sum

def framing (lines : List Line) : Nat := (lines.map Line.framing).sum

def allowance (lines : List Line) : Nat := (lines.map Line.allowance).sum

/-- The calls of `on_header` and `on_trailer`. -/
def fieldEvents (log : List Call) : Nat := log.countP fun c => match c.event with
  | .header _ _ | .trailer _ _ => true
  | _ => false

/-!
# Lines on the heap

A header or trailer line that fills the fixed buffer moves to a buffer on the heap, which later lines of the message use.
-/

def Line.isLong (l : Line) : Bool :=
  (l.state = .headers || l.state = .bodyChunkTrailers) && chttp1MaxLineLen < l.text.length + 2

def spilled (lines : List Line) : Bool := lines.any Line.isLong

def sizeLineLimit (lines : List Line) : Nat := if spilled lines then chttp1MaxSpillLineLen else chttp1MaxLineLen

namespace Parser

/-- The parser refuses a line that does not end within `limit` bytes. -/
def RefusesBeyond (S : Settings) (p : Parser) (limit : Nat) : Prop :=
  p.line.length ≤ limit ∧ ∀ data : List UInt8, limit < p.line.length + data.length → 0x0A ∉ data.take (limit - p.line.length) →
    (p.execute S data).1 = .error

def SameUsage (p p' : Parser) : Prop :=
  p.headerCount = p'.headerCount ∧ p.totalHeaderBytes = p'.totalHeaderBytes ∧ p.chunkExcess = p'.chunkExcess

def Completes (p : Parser) (slices : List (List UInt8)) : Prop := (p.feed accepting 0 slices).1 = .paused

end Parser

end Ccollections.Chttp1
