import Ccollections.Cjson.Grammar
import Ccollections.Common.Cutf8

/-!
# The errors of the JSON parser
-/

namespace Ccollections.Cjson

/-- The messages of `parse_err`, with the byte they quote and the position they name. -/
inductive ParseError where
  | nullInput
  | expectedChar (expected : UInt8) (pos : Nat)
  | expectedNull (pos : Nat)
  | expectedBool (pos : Nat)
  | endOfNumber (pos : Nat)
  | leadingZero (pos : Nat)
  | invalidNumber (pos : Nat)
  | expectedFracDigit (pos : Nat)
  | expectedExpDigit (pos : Nat)
  | numberOutOfRange (pos : Nat)
  | incompleteEscape (pos : Nat)
  | invalidHexDigit (c : UInt8) (pos : Nat)
  | invalidUtf8 (pos : Nat) (defect : Utf8Defect)
  | expectedQuote (pos : Nat)
  | unterminatedString (pos : Nat)
  | highSurrogate (cp pos : Nat)
  | lowSurrogate (cp pos : Nat)
  | nulEscape (pos : Nat)
  | unknownEscape (esc : UInt8) (pos : Nat)
  | controlCharacter (c : UInt8) (pos : Nat)
  | unexpectedCharacter (c : UInt8) (pos : Nat)
  | unexpectedEnd (pos : Nat)
  | tooDeep (pos : Nat)
  | unterminatedContainer (isDict : Bool)
  | expectedSeparator (isDict : Bool) (pos : Nat)
  | expectedKey (pos : Nat)
  | trailingGarbage (pos : Nat)
  deriving DecidableEq, Repr

/-!
# Parsing of scalars and strings

The context of a parse is the position and the bytes from there on. Allocations succeed here, so a sub-parser
fails only with a message.
-/

variable {ctx ctx' : ParseCtx}

/-- `parse_ctx_t`. -/
structure ParseCtx where
  pos : Nat
  rest : List UInt8

namespace ParseCtx

def advance (ctx : ParseCtx) (n : Nat) : ParseCtx := ⟨ctx.pos + n, ctx.rest.drop n⟩

end ParseCtx

/-! ## White space and literals -/

def isWsByte (c : UInt8) : Bool := c = 0x20 || c = 0x09 || c = 0x0A || c = 0x0D

def ParseCtx.advanceWhile (ctx : ParseCtx) (p : UInt8 → Bool) : ParseCtx := ctx.advance (ctx.rest.takeWhile p).length

def skipWs (ctx : ParseCtx) : ParseCtx := ctx.advanceWhile isWsByte

def peek (ctx : ParseCtx) : Option UInt8 × ParseCtx := ((skipWs ctx).rest.head?, skipWs ctx)

def expectChar (ctx : ParseCtx) (expected : UInt8) : Except ParseError ParseCtx :=
  let ctx := skipWs ctx
  if ctx.rest.head? = some expected then .ok (ctx.advance 1) else .error (.expectedChar expected ctx.pos)

def parseNull (ctx : ParseCtx) : Except ParseError (Json × ParseCtx) :=
  if ctx.rest.take 4 = [0x6E, 0x75, 0x6C, 0x6C] then .ok (.null, ctx.advance 4) else .error (.expectedNull ctx.pos)

def parseBool (ctx : ParseCtx) : Except ParseError (Json × ParseCtx) :=
  if ctx.rest.take 4 = [0x74, 0x72, 0x75, 0x65] then .ok (.bool true, ctx.advance 4)
  else if ctx.rest.take 5 = [0x66, 0x61, 0x6C, 0x73, 0x65] then .ok (.bool false, ctx.advance 5)
  else .error (.expectedBool ctx.pos)

/-! ## Numbers -/

def isDigitByte (c : UInt8) : Bool := c ≥ 0x30 && c ≤ 0x39

def ParseCtx.atDigit (ctx : ParseCtx) : Bool := ctx.rest.head?.any isDigitByte

def skipDigits (ctx : ParseCtx) : ParseCtx := ctx.advanceWhile isDigitByte

/-- The optional minus sign of `parse_number`. -/
def scanMinus (ctx : ParseCtx) : ParseCtx := if ctx.rest.head? = some 0x2D then ctx.advance 1 else ctx

def scanInt (start : Nat) (ctx : ParseCtx) : Except ParseError ParseCtx :=
  match ctx.rest with
  | [] => .error (.endOfNumber ctx.pos)
  | c :: _ =>
    if c = 0x30 then
      if (ctx.advance 1).atDigit then .error (.leadingZero start) else .ok (ctx.advance 1)
    else if c ≥ 0x31 ∧ c ≤ 0x39 then .ok (skipDigits ctx)
    else .error (.invalidNumber ctx.pos)

def scanFrac (ctx : ParseCtx) : Except ParseError (Bool × ParseCtx) :=
  if ctx.rest.head? = some 0x2E then
    let ctx := ctx.advance 1
    if ctx.atDigit then .ok (true, skipDigits ctx) else .error (.expectedFracDigit ctx.pos)
  else .ok (false, ctx)

def scanSign (ctx : ParseCtx) : ParseCtx :=
  if ctx.rest.head? = some 0x2B ∨ ctx.rest.head? = some 0x2D then ctx.advance 1 else ctx

def scanExp (ctx : ParseCtx) : Except ParseError (Bool × ParseCtx) :=
  if ctx.rest.head? = some 0x65 ∨ ctx.rest.head? = some 0x45 then
    let ctx := scanSign (ctx.advance 1)
    if ctx.atDigit then .ok (true, skipDigits ctx) else .error (.expectedExpDigit ctx.pos)
  else .ok (false, ctx)

/-- What `isspace` accepts in the C locale. -/
def isSpace (c : UInt8) : Bool := c = 0x20 || (c ≥ 0x09 && c ≤ 0x0D)

def llongMin : Int := -2 ^ 63

def llongMax : Int := 2 ^ 63 - 1

/-- The value, what `endptr` points at, and whether `errno` becomes `ERANGE`. -/
def strtoll (nptr : List UInt8) : Int × List UInt8 × Bool :=
  let s := nptr.dropWhile isSpace
  let neg := decide (s.head? = some 0x2D)
  let s := if s.head? = some 0x2D ∨ s.head? = some 0x2B then s.drop 1 else s
  let digits := s.takeWhile isDigitByte
  if digits = [] then (0, nptr, false)
  else
    let v := signed neg (decimalValue digits)
    let endp := s.dropWhile isDigitByte
    if v > llongMax then (llongMax, endp, true) else if v < llongMin then (llongMin, endp, true) else (v, endp, false)

/-- The end of `parse_number`: the node of a token that starts at `start`. -/
def numberNode (strtod : List UInt8 → UInt64) (start : Nat) (tok : List UInt8) (isFloat : Bool) : Except ParseError Json :=
  let float := if isInf (strtod tok) then .error (.numberOutOfRange start) else .ok (.float (strtod tok))
  if isFloat then float
  else
    let (ival, endp, erange) := strtoll tok
    if endp = [] ∧ erange = false then .ok (.integer (Int64.ofInt ival)) else float

def parseNumber (strtod : List UInt8 → UInt64) (ctx : ParseCtx) : Except ParseError (Json × ParseCtx) := do
  let stop ← scanInt ctx.pos (scanMinus ctx)
  let (frac, stop) ← scanFrac stop
  let (exp, stop) ← scanExp stop
  let node ← numberNode strtod ctx.pos (ctx.rest.take (stop.pos - ctx.pos)) (frac || exp)
  return (node, stop)

/-! ## Strings -/

def encodeUtf8 (cp : Nat) : List UInt8 :=
  if cp ≤ 0x7F then [.ofNat cp]
  else if cp ≤ 0x7FF then [.ofNat (0xC0 ||| (cp >>> 6)), .ofNat (0x80 ||| (cp &&& 0x3F))]
  else if cp ≤ 0xFFFF then
    [.ofNat (0xE0 ||| (cp >>> 12)), .ofNat (0x80 ||| ((cp >>> 6) &&& 0x3F)), .ofNat (0x80 ||| (cp &&& 0x3F))]
  else
    [.ofNat (0xF0 ||| (cp >>> 18)), .ofNat (0x80 ||| ((cp >>> 12) &&& 0x3F)), .ofNat (0x80 ||| ((cp >>> 6) &&& 0x3F)),
      .ofNat (0x80 ||| (cp &&& 0x3F))]

def hexDigit (c : UInt8) : Option Nat :=
  if c ≥ 0x30 ∧ c ≤ 0x39 then some (c.toNat - 0x30)
  else if c ≥ 0x61 ∧ c ≤ 0x66 then some (c.toNat - 0x61 + 10)
  else if c ≥ 0x41 ∧ c ≤ 0x46 then some (c.toNat - 0x41 + 10)
  else none

def hexLoop : Nat → Nat → ParseCtx → Except ParseError (Nat × ParseCtx)
  | 0, v, ctx => .ok (v, ctx)
  | left + 1, v, ctx =>
    match ctx.rest with
    | [] => .error (.incompleteEscape ctx.pos)
    | c :: _ =>
      match hexDigit c with
      | none => .error (.invalidHexDigit c ctx.pos)
      | some d => hexLoop left ((v <<< 4) ||| d) (ctx.advance 1)

def parseHex4 (ctx : ParseCtx) : Except ParseError (Nat × ParseCtx) :=
  if ctx.rest.length < 4 then .error (.incompleteEscape ctx.pos) else hexLoop 4 0 ctx

def unicodeChar (escPos cp : Nat) (ctx : ParseCtx) : Except ParseError (List UInt8 × ParseCtx) :=
  if cp = 0 then .error (.nulEscape escPos) else .ok (encodeUtf8 cp, ctx)

def lowSurrogate (ctx : ParseCtx) : Except ParseError (Nat × ParseCtx) :=
  if ctx.rest.take 2 = [0x5C, 0x75] then parseHex4 (ctx.advance 2) else .ok (0, ctx)

/-- A `\u` escape from its digits on. -/
def parseUnicodeEscape (ctx : ParseCtx) : Except ParseError (List UInt8 × ParseCtx) := do
  let (cp, ctx) ← parseHex4 ctx
  let escPos := ctx.pos - 6
  if cp ≥ 0xD800 ∧ cp ≤ 0xDBFF then
    let (low, ctx) ← lowSurrogate ctx
    if low < 0xDC00 ∨ low > 0xDFFF then .error (.highSurrogate cp escPos)
    else unicodeChar escPos (0x10000 + ((cp - 0xD800) <<< 10) + (low - 0xDC00)) ctx
  else if cp ≥ 0xDC00 ∧ cp ≤ 0xDFFF then .error (.lowSurrogate cp escPos)
  else unicodeChar escPos cp ctx

/-- The `switch` on the byte after a backslash: the bytes it stands for. -/
def parseEscape (ctx : ParseCtx) : Except ParseError (List UInt8 × ParseCtx) :=
  match ctx.rest with
  | [] => .error (.unterminatedString ctx.pos)
  | esc :: _ =>
    let ctx := ctx.advance 1
    if esc = 0x22 then .ok ([0x22], ctx)
    else if esc = 0x5C then .ok ([0x5C], ctx)
    else if esc = 0x2F then .ok ([0x2F], ctx)
    else if esc = 0x62 then .ok ([0x08], ctx)
    else if esc = 0x66 then .ok ([0x0C], ctx)
    else if esc = 0x6E then .ok ([0x0A], ctx)
    else if esc = 0x72 then .ok ([0x0D], ctx)
    else if esc = 0x74 then .ok ([0x09], ctx)
    else if esc = 0x75 then parseUnicodeEscape ctx
    else .error (.unknownEscape esc (ctx.pos - 1))

/-- The loop of `parse_string_scan`: the number of bytes before the closing quote, and what is among them. -/
def scanLoop (scan : Nat) (needSlow hasNonAscii : Bool) : List UInt8 → Option (Nat × Bool × Bool)
  | [] => none
  | sc :: rest =>
    if sc = 0x22 then some (scan, needSlow, hasNonAscii)
    else if sc = 0x5C then
      match rest with
      | [] => none
      | _ :: rest => scanLoop (scan + 2) true hasNonAscii rest
    else if sc < 0x20 then scanLoop (scan + 1) true hasNonAscii rest
    else scanLoop (scan + 1) needSlow (hasNonAscii || sc ≥ 0x80) rest

/-- What the first pass finds out about a string. -/
structure StringScan where
  /-- Behind the opening quote. -/
  ctx : ParseCtx
  /-- The number of bytes up to the closing quote. -/
  len : Nat
  needSlow : Bool
  hasNonAscii : Bool

def parseStringScan (ctx : ParseCtx) : Except ParseError StringScan :=
  if ctx.rest.head? = some 0x22 then
    let ctx := ctx.advance 1
    match scanLoop 0 false false ctx.rest with
    | none => .error (.unterminatedString (ctx.pos - 1))
    | some (len, needSlow, hasNonAscii) => .ok ⟨ctx, len, needSlow, hasNonAscii⟩
  else .error (.expectedQuote ctx.pos)

/-- The check of the `n` raw bytes at a position. -/
def stringBytesAreUtf8 (ctx : ParseCtx) (n : Nat) : Except ParseError Unit :=
  let bad := ccolUtf8FirstIllFormed (ctx.rest.take n)
  if bad = n then .ok () else .error (.invalidUtf8 (ctx.pos + bad) (ccolUtf8DescribeIllFormed (ctx.rest.drop bad)))

def isPlainByte (c : UInt8) : Bool := !(c = 0x22 || c = 0x5C || c < 0x20)

def plainRun (hasNonAscii : Bool) (ctx : ParseCtx) : Except ParseError (List UInt8 × ParseCtx) := do
  let run := ctx.rest.takeWhile isPlainByte
  if run ≠ [] ∧ hasNonAscii then stringBytesAreUtf8 ctx run.length
  return (run, ctx.advance run.length)

theorem hexLoop_suffix {left v cp : Nat} (h : hexLoop left v ctx = .ok (cp, ctx')) :
    ctx'.rest <:+ ctx.rest := by
  induction left generalizing v ctx with
  | zero =>
    cases h
    exact List.suffix_rfl
  | succ left ih =>
    rw [hexLoop] at h
    split at h
    · cases h
    · split at h
      · cases h
      · exact (ih h).trans (List.drop_suffix 1 ctx.rest)

theorem parseHex4_suffix {cp : Nat} (h : parseHex4 ctx = .ok (cp, ctx')) : ctx'.rest <:+ ctx.rest := by
  rw [parseHex4] at h
  split at h
  · cases h
  · exact hexLoop_suffix h

theorem unicodeChar_ctx {escPos cp : Nat} {bytes : List UInt8}
    (h : unicodeChar escPos cp ctx = .ok (bytes, ctx')) : ctx' = ctx := by
  rw [unicodeChar] at h
  split at h
  · cases h
  · cases h
    rfl

theorem lowSurrogate_suffix {low : Nat} (h : lowSurrogate ctx = .ok (low, ctx')) :
    ctx'.rest <:+ ctx.rest := by
  rw [lowSurrogate] at h
  split at h
  · exact (parseHex4_suffix h).trans (List.drop_suffix 2 ctx.rest)
  · cases h
    exact List.suffix_rfl

theorem parseUnicodeEscape_suffix {bytes : List UInt8} (h : parseUnicodeEscape ctx = .ok (bytes, ctx')) :
    ctx'.rest <:+ ctx.rest := by
  simp only [parseUnicodeEscape, bind, Except.bind] at h
  cases hhex : parseHex4 ctx with
  | error e => simp [hhex] at h
  | ok r =>
    obtain ⟨cp, ctx₁⟩ := r
    have hsuffix := parseHex4_suffix hhex
    simp only [hhex] at h
    split at h
    · cases hlow : lowSurrogate ctx₁ with
      | error e => simp [hlow] at h
      | ok r =>
        obtain ⟨low, ctx₂⟩ := r
        simp only [hlow] at h
        split at h
        · cases h
        · rw [unicodeChar_ctx h]
          exact (lowSurrogate_suffix hlow).trans hsuffix
    · split at h
      · cases h
      · rw [unicodeChar_ctx h]
        exact hsuffix

theorem parseEscape_suffix {bytes : List UInt8} (h : parseEscape ctx = .ok (bytes, ctx')) :
    ctx'.rest <:+ ctx.rest := by
  rw [parseEscape] at h
  split at h
  · cases h
  · have hdrop : (ctx.advance 1).rest <:+ ctx.rest := List.drop_suffix 1 ctx.rest
    dsimp only at h
    split_ifs at h
    all_goals first
      | exact (parseUnicodeEscape_suffix h).trans hdrop
      | (cases h; exact hdrop)

theorem plainRun_suffix {hasNonAscii : Bool} {run : List UInt8}
    (h : plainRun hasNonAscii ctx = .ok (run, ctx')) : ctx'.rest <:+ ctx.rest := by
  have hctx : ctx' = ctx.advance (ctx.rest.takeWhile isPlainByte).length := by
    simp only [plainRun, bind, Except.bind, pure, Except.pure] at h
    split at h
    · split at h
      · cases h
      · cases h
        rfl
    · cases h
      rfl
  rw [hctx]
  exact List.drop_suffix _ _

/-- The second pass over a string with an escape or a control character; `sb` is what it has decoded. -/
def parseStringSlow (hasNonAscii : Bool) (sb : List UInt8) (ctx : ParseCtx) : Except ParseError (List UInt8 × ParseCtx) :=
  match _hrun : plainRun hasNonAscii ctx with
  | .error e => .error e
  | .ok (run, ctx₁) =>
    match _hrest : ctx₁.rest with
    | [] => .error (.unterminatedString ctx₁.pos)
    | c :: _ =>
      if c = 0x22 then .ok (sb ++ run, ctx₁.advance 1)
      else if c = 0x5C then
        match _hesc : parseEscape (ctx₁.advance 1) with
        | .error e => .error e
        | .ok (bytes, ctx₂) => parseStringSlow hasNonAscii (sb ++ run ++ bytes) ctx₂
      else .error (.controlCharacter c ctx₁.pos)
termination_by ctx.rest.length
decreasing_by
  have hrun := (plainRun_suffix _hrun).length_le
  have hesc := (parseEscape_suffix _hesc).length_le
  simp only [ParseCtx.advance, _hrest, List.length_drop, List.length_cons] at hrun hesc
  omega

/-- What the first pass leaves to do: a string without an escape or a control character is its raw bytes. -/
def StringScan.bytes (scan : StringScan) : Except ParseError (List UInt8 × ParseCtx) := do
  if scan.needSlow then parseStringSlow scan.hasNonAscii [] scan.ctx
  else
    if scan.hasNonAscii then stringBytesAreUtf8 scan.ctx scan.len
    return (scan.ctx.rest.take scan.len, scan.ctx.advance (scan.len + 1))

def parseStringRaw (ctx : ParseCtx) : Except ParseError (List UInt8 × ParseCtx) := do
  let scan ← parseStringScan ctx
  scan.bytes

def parseString (ctx : ParseCtx) : Except ParseError (Json × ParseCtx) := do
  let (s, ctx) ← parseStringRaw ctx
  return (.string s, ctx)

/-- A key is pushed with its terminator; the result has its offset in the key buffer and its length. -/
def parseKey (ctx : ParseCtx) (keys : List UInt8) : Except ParseError (List UInt8 × Nat × Nat × ParseCtx) := do
  let scan ← parseStringScan ctx
  let (bytes, ctx) ← scan.bytes
  return (keys ++ bytes ++ [0], keys.length, bytes.length, ctx)

/-- `c` is the byte at the position. -/
def parseScalarValue (strtod : List UInt8 → UInt64) (ctx : ParseCtx) (c : UInt8) : Except ParseError (Json × ParseCtx) :=
  if c = 0x6E then parseNull ctx
  else if c = 0x74 ∨ c = 0x66 then parseBool ctx
  else if c = 0x22 then parseString ctx
  else if c = 0x2D ∨ isDigitByte c then parseNumber strtod ctx
  else .error (.unexpectedCharacter c ctx.pos)

end Ccollections.Cjson
