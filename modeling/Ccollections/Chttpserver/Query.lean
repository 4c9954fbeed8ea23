import Ccollections.Chttpserver.RouteSearch

/-!
# The query parameters of a request

A query is the bytes before its NUL. The answers of the allocator are a stream, and `none` is `ccol_not_enough_memory`.
-/

namespace Ccollections.Chttpserver.Query
open Chttpserver.RouteSearch

abbrev Pair := List UInt8 × List UInt8

abbrev Alloc := StateT (Nat → Bool) Option

/-- `_ccol_mem_alloc`, whose answer is the next of the stream. -/
def memAlloc : Alloc Unit := fun mem => if mem 0 then some ((), fun n => mem (n + 1)) else none

def sizeMax : Nat := 18446744073709551615

/-- `_decode_url_unsafe`. -/
def decodeUrl (s : List UInt8) : Option (List UInt8) := percentDecode true s

/-- A raw text is copied to the stack, or to the heap if the buffer there is too small, and decoded. -/
def decodeCopy (raw : List UInt8) : Alloc (Option (List UInt8)) := do
  if raw.length + 1 > 512 then memAlloc
  memAlloc
  return decodeUrl raw

/-- The value behind the `=`, if there is one. -/
def decodeValue : List UInt8 → Alloc (Option (List UInt8))
  | [] => do
    memAlloc
    return some []
  | _ :: valRaw => decodeCopy valRaw

/-- A pair that is not empty. A malformed one is `none`. -/
def decodePair (pair : List UInt8) : Alloc (Option Pair) := do
  match ← decodeCopy (pair.takeWhile (· ≠ 0x3D)) with
  | none => return none
  | some key => return (← decodeValue (pair.dropWhile (· ≠ 0x3D))).map (key, ·)

def growPairs (count cap : Nat) : Alloc Nat :=
  if count ≥ cap then
    if cap > (sizeMax - 8) / 2 ∨ cap * 2 + 8 > sizeMax / 8 then failure
    else do
      memAlloc
      memAlloc
      return cap * 2 + 8
  else return cap

/-- The loop of `_parse_qparams`. -/
def parsePairs (qp : List Pair) (cap : Nat) : List UInt8 → Alloc (List Pair)
  | [] => return qp
  | c :: s => do
    let pair := (c :: s).takeWhile (· ≠ 0x26)
    if pair = [] then parsePairs qp cap ((c :: s).drop (pair.length + 1))
    else
      match ← decodePair pair with
      | none => parsePairs qp cap ((c :: s).drop (pair.length + 1))
      | some kv =>
        let cap ← growPairs qp.length cap
        parsePairs (qp ++ [kv]) cap ((c :: s).drop (pair.length + 1))
termination_by p => p.length
decreasing_by all_goals simp only [List.length_drop, List.length_cons]; omega

def parseQparams (rawQuery : List UInt8) : Alloc (List Pair) := do
  memAlloc
  parsePairs [] 0 rawQuery

/-! ## The parameters of a request -/

/-- The fields of `chttpsvr_req_t` for the query. A request without a query has the empty one. -/
structure Req where
  rawQuery : List UInt8
  qparams : Option (List Pair)
  attempted : Bool
  parseOom : Bool
  resultCap : Nat
  resultOom : Bool

def Req.start (rawQuery : List UInt8) : Req :=
  { rawQuery, qparams := none, attempted := false, parseOom := false, resultCap := 0, resultOom := false }

def Req.queryOom (req : Req) : Bool := req.resultOom || req.parseOom

/-- `_ensure_qparams`. `seen` is the stream behind a parse that fails. -/
def ensureQparams (req : Req) (mem seen : Nat → Bool) : Req × (Nat → Bool) :=
  if req.qparams.isSome ∨ req.attempted then (req, mem)
  else
    let req := { req with attempted := true }
    if req.rawQuery = [] then
      if mem 0 then ({ req with qparams := some [] }, fun n => mem (n + 1)) else ({ req with parseOom := true }, fun n => mem (n + 1))
    else
      match parseQparams req.rawQuery mem with
      | some (qp, mem) => ({ req with qparams := some qp }, mem)
      | none =>
        let req := { req with parseOom := true }
        if seen 0 then ({ req with qparams := some [] }, fun n => seen (n + 1)) else (req, fun n => seen (n + 1))

def valuesOf (qp : List Pair) (key : List UInt8) : List (List UInt8) := (qp.filter (·.1 = key)).map Prod.snd

/-- `chttpsvr_req_query`. No values are `NULL`. -/
def reqQuery (req : Req) (key : List UInt8) (mem seen : Nat → Bool) : List (List UInt8) × Req :=
  let (req, mem) := ensureQparams req mem seen
  match req.qparams with
  | none => ([], req)
  | some qp =>
    let values := valuesOf qp key
    if values = [] then ([], req)
    else if values.length + 1 > req.resultCap then
      if mem 0 then (values, { req with resultCap := values.length + 1 }) else ([], { req with resultOom := true })
    else (values, req)

inductive QueryError where
  | notEnoughMemory
  | keyNotFound
  | keyAlreadyPresent
  deriving DecidableEq

def reqQueryOne (req : Req) (key : List UInt8) (mem seen : Nat → Bool) : Except QueryError (List UInt8) × Req :=
  let (req, _) := ensureQparams req mem seen
  match req.qparams with
  | none => (.error .notEnoughMemory, req)
  | some qp =>
    if req.parseOom then (.error .notEnoughMemory, req)
    else
      match valuesOf qp key with
      | [] => (.error .keyNotFound, req)
      | [value] => (.ok value, req)
      | _ => (.error .keyAlreadyPresent, req)

/-- The requests that calls of these functions leave. -/
inductive Req.Reached (rawQuery : List UInt8) : Req → Prop
  | start : Reached rawQuery (.start rawQuery)
  | query {req} (key mem seen) : Reached rawQuery req → Reached rawQuery (reqQuery req key mem seen).2
  | queryOne {req} (key mem seen) : Reached rawQuery req → Reached rawQuery (reqQueryOne req key mem seen).2

/-! ## Form encoding -/

def hexDigit (upper : Bool) (nibble : UInt8) : UInt8 :=
  if nibble < 10 then 0x30 + nibble else if upper then 0x37 + nibble else 0x57 + nibble

/-- A NUL-free text in form encoding. `raw` are the bytes that stand for themselves. -/
inductive Written (raw : UInt8 → Bool) : List UInt8 → List UInt8 → Prop
  | nil : Written raw [] []
  | raw {c t s} : raw c = true → Written raw t s → Written raw (c :: t) (c :: s)
  | escape {c t s} (u v : Bool) : c ≠ 0 → Written raw t s →
      Written raw (c :: t) (0x25 :: hexDigit u (c >>> 4) :: hexDigit v (c &&& 15) :: s)
  | plus {t s} : Written raw t s → Written raw (0x20 :: t) (0x2B :: s)

def valueRaw (c : UInt8) : Bool := c ≠ 0 && c ≠ 0x25 && c ≠ 0x26 && c ≠ 0x2B

def keyRaw (c : UInt8) : Bool := valueRaw c && c ≠ 0x3D

def PairWritten (p : Pair) (s : List UInt8) : Prop :=
  ∃ k v, Written keyRaw p.1 k ∧ Written valueRaw p.2 v ∧ (s = k ++ 0x3D :: v ∨ p.2 = [] ∧ p.1 ≠ [] ∧ s = k)

/-- A text with an escape that is not two digits, or is `%00`. -/
inductive Malformed : List UInt8 → Prop
  | digits {s} : (∀ (c : UInt8) u v t, c ≠ 0 → s ≠ hexDigit u (c >>> 4) :: hexDigit v (c &&& 15) :: t) → Malformed (0x25 :: s)
  | byte {c s} : c ≠ 0x25 → Malformed s → Malformed (c :: s)
  | escape {c : UInt8} {s} (u v : Bool) : c ≠ 0 → Malformed s → Malformed (0x25 :: hexDigit u (c >>> 4) :: hexDigit v (c &&& 15) :: s)

/-- What stands between two `&`: a pair, or a text whose key or value is malformed. -/
inductive Piece : Option Pair → List UInt8 → Prop
  | pair {p s} : PairWritten p s → Piece (some p) s
  | malformed {s} : s ≠ [] → 0x26 ∉ s →
      Malformed (s.takeWhile (· ≠ 0x3D)) ∨ Malformed ((s.dropWhile (· ≠ 0x3D)).drop 1) → Piece none s

/-- Pieces joined by runs of `&`, with any `&` before and behind them. -/
inductive Joined : List (Option Pair) → List UInt8 → Prop
  | ends (n : Nat) : Joined [] (List.replicate n 0x26)
  | piece {p ps s rest} (n : Nat) : Piece p s → rest = [] ∨ rest.head? = some 0x26 → Joined ps rest →
      Joined (p :: ps) (List.replicate n 0x26 ++ s ++ rest)

end Ccollections.Chttpserver.Query
