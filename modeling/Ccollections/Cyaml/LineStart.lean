import Ccollections.Common.Basic
import Mathlib.Data.List.Basic

/-!
# The line starts of a YAML text

The cache grows by one allocation for each new capacity, and `grows` says which of them succeed.
-/

namespace Ccollections.Cyaml

/-- A text. No object is so long that `SIZE_MAX` is an offset in it or just past it. -/
structure Text where
  src : List UInt8
  length_lt : src.length < sizeMax

/-- The fields of the parse context that say where lines start. -/
structure LineCtx where
  pos : Nat
  memoPos : Nat
  memoLineStart : Nat
  firstLineStart : Nat
  lineStarts : List Nat
  lineStartsCap : Nat
  lineScanPos : Nat
  lineCacheDisabled : Bool

/-- The context before a stream that begins at `first`. -/
def LineCtx.start (first : Nat) : LineCtx where
  pos := first
  memoPos := sizeMax
  memoLineStart := 0
  firstLineStart := first
  lineStarts := [first]
  lineStartsCap := 64
  lineScanPos := first
  lineCacheDisabled := false

def isBreak (src : List UInt8) (p : Nat) : Bool := src.getD p 0 = 0x0A || src.getD p 0 = 0x0D

/-- `line_start_pos_backward_scan`, from a position down. -/
def backwardScan (src : List UInt8) (first : Nat) : Nat → Nat
  | 0 => 0
  | p + 1 => if p + 1 > first && !isBreak src p then backwardScan src first p else p + 1

/-- The loop of `line_starts_extend` over `left` bytes from `p` on, and nothing if a growth fails. -/
def extendLoop (src : List UInt8) (grows : Nat → Bool) : Nat → Nat → List Nat → Nat → Option (List Nat × Nat)
  | 0, _, starts, cap => some (starts, cap)
  | left + 1, p, starts, cap =>
    if isBreak src p then
      if starts.length = cap then
        let newCap := if cap ≠ 0 then cap * 2 else 64
        if grows newCap then extendLoop src grows left (p + 1) (starts ++ [p + 1]) newCap else none
      else extendLoop src grows left (p + 1) (starts ++ [p + 1]) cap
    else extendLoop src grows left (p + 1) starts cap

def lineStartsExtend (src : List UInt8) (grows : Nat → Bool) (ctx : LineCtx) (upTo : Nat) : LineCtx :=
  match extendLoop src grows (upTo - ctx.lineScanPos) ctx.lineScanPos ctx.lineStarts ctx.lineStartsCap with
  | some (starts, cap) => { ctx with lineStarts := starts, lineStartsCap := cap, lineScanPos := upTo }
  | none => { ctx with lineStarts := [], lineStartsCap := 0, lineCacheDisabled := true }

/-- The binary search for the last start that is not behind `pos`. -/
def searchLoop (starts : List Nat) (pos lo hi : Nat) : Nat :=
  if lo + 1 < hi then
    let mid := lo + (hi - lo) / 2
    if starts.getD mid 0 ≤ pos then searchLoop starts pos mid hi else searchLoop starts pos lo mid
  else lo
termination_by hi - lo

def lineStartPosUncached (src : List UInt8) (grows : Nat → Bool) (ctx : LineCtx) : Nat × LineCtx :=
  if ctx.lineCacheDisabled then (backwardScan src ctx.firstLineStart ctx.pos, ctx)
  else if ctx.pos > ctx.lineScanPos then
    let ctx := lineStartsExtend src grows ctx ctx.pos
    if ctx.lineCacheDisabled then (backwardScan src ctx.firstLineStart ctx.pos, ctx)
    else (ctx.lineStarts.getD (ctx.lineStarts.length - 1) 0, ctx)
  else (ctx.lineStarts.getD (searchLoop ctx.lineStarts ctx.pos 0 ctx.lineStarts.length) 0, ctx)

def lineStartPos (src : List UInt8) (grows : Nat → Bool) (ctx : LineCtx) : Nat × LineCtx :=
  if ctx.pos = ctx.memoPos then (ctx.memoLineStart, ctx)
  else
    let (result, ctx) := lineStartPosUncached src grows ctx
    (result, { ctx with memoPos := ctx.pos, memoLineStart := result })

def spanCrossesNewline (src : List UInt8) (grows : Nat → Bool) (ctx : LineCtx) (start : Nat) : Bool × LineCtx :=
  let (lineStart, ctx) := lineStartPos src grows ctx
  (lineStart > start, ctx)

def skipDocumentPrefixBom (src : List UInt8) (ctx : LineCtx) : LineCtx :=
  let p := ctx.pos
  if src.length - p < 3 || src.getD p 0 ≠ 0xEF || src.getD (p + 1) 0 ≠ 0xBB || src.getD (p + 2) 0 ≠ 0xBF then ctx
  else if p > ctx.firstLineStart && !isBreak src (p - 1) then ctx
  else
    let p := p + 3
    let ctx := { ctx with pos := p, firstLineStart := p }
    let ctx := if ctx.lineCacheDisabled then ctx else { ctx with lineStarts := [p], lineScanPos := p }
    { ctx with memoPos := sizeMax }

/-! ## Runs -/

/-- What the parser does with the lines of a text. Spans end where it is. -/
inductive LineAction where
  | move (pos : Nat)
  | lineStartPos (grows : Nat → Bool)
  | spanCrossesNewline (grows : Nat → Bool) (start : Nat)
  | skipDocumentPrefixBom

def lineStep (src : List UInt8) (ctx : LineCtx) : LineAction → Option LineCtx
  | .move pos => if ctx.firstLineStart ≤ pos ∧ pos ≤ src.length then some { ctx with pos := pos } else none
  | .lineStartPos grows => some (lineStartPos src grows ctx).2
  | .spanCrossesNewline grows start =>
    if ctx.firstLineStart ≤ start ∧ start ≤ ctx.pos then some (spanCrossesNewline src grows ctx start).2 else none
  | .skipDocumentPrefixBom => some (skipDocumentPrefixBom src ctx)

end Ccollections.Cyaml
