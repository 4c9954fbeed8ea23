import Ccollections.Common.Basic
import Mathlib.Data.List.DropRight

/-!
# The parts of a line of an HTTP/1 message
-/

namespace Ccollections.Chttp1

/-! ## Characters -/

def isDigit (c : UInt8) : Bool := c ≥ 0x30 && c ≤ 0x39

def isOws (c : UInt8) : Bool := c = 0x20 || c = 0x09

def isAlpha (c : UInt8) : Bool := (c ≥ 0x61 && c ≤ 0x7A) || (c ≥ 0x41 && c ≤ 0x5A)

def chttp1IsTchar (c : UInt8) : Bool := isAlpha c || isDigit c || (ascii "!#$%&'*+-.^_`|~").contains c

def isInvalidValueByte (c : UInt8) : Bool := (c < 0x20 && c ≠ 0x09) || c = 0x7F

def isInvalidTargetByte (c : UInt8) : Bool := c ≤ 0x20 || c = 0x7F

def isHexdig (c : UInt8) : Bool := isDigit c || (c ≥ 0x61 && c ≤ 0x66) || (c ≥ 0x41 && c ≤ 0x46)

def isUnreservedOrSubDelim (c : UInt8) : Bool := isAlpha c || isDigit c || (ascii "-._~!$&'()*+,;=").contains c

def trimOws (s : List UInt8) : List UInt8 := (s.dropWhile isOws).rdropWhile isOws

/-! ## Numbers -/

def uint64Max : Nat := 2 ^ 64 - 1

def decimalDigit (c : UInt8) : Option Nat := if isDigit c then some (c.toNat - 0x30) else none

def hexDigit (c : UInt8) : Option Nat :=
  if c ≥ 0x30 && c ≤ 0x39 then some (c.toNat - 0x30)
  else if c ≥ 0x61 && c ≤ 0x66 then some (c.toNat - 0x61 + 10)
  else if c ≥ 0x41 && c ≤ 0x46 then some (c.toNat - 0x41 + 10)
  else none

/-- The loop of `parse_uint64_decimal` and `parse_uint64_hex`. -/
def parseUint64Loop (radix : Nat) (digit : UInt8 → Option Nat) : Nat → List UInt8 → Option Nat
  | v, [] => some v
  | v, c :: s =>
    match digit c with
    | none => none
    | some d =>
      if v > uint64Max / radix then none
      else if v * radix > uint64Max - d then none
      else parseUint64Loop radix digit (v * radix + d) s

def parseUint64Decimal (s : List UInt8) : Option Nat := if s = [] then none else parseUint64Loop 10 decimalDigit 0 s

def parseUint64Hex (s : List UInt8) : Option Nat := if s = [] then none else parseUint64Loop 16 hexDigit 0 s

/-! ## Host -/

/-- What follows the `v` of an `IPvFuture`. -/
def ipvFutureIsValid (s : List UInt8) : Bool :=
  match s.dropWhile isHexdig with
  | [] => false
  | c :: rest =>
    isHexdig (s.headD 0) && c = 0x2E && !rest.isEmpty && rest.all fun c => isUnreservedOrSubDelim c || c = 0x3A

/-- What is between the brackets of an `IP-literal`. -/
def ipLiteralIsValid (lit : List UInt8) : Bool :=
  match lit with
  | [] => false
  | c :: rest =>
    if c = 0x76 || c = 0x56 then ipvFutureIsValid rest
    else lit.all (fun c => c = 0x3A || isHexdig c || c = 0x2E) && lit.contains 0x3A

/-- The loop over a `reg-name`, up to the colon before a port. -/
def regName : List UInt8 → Option (List UInt8)
  | [] => some []
  | 0x25 :: a :: b :: rest => if isHexdig a && isHexdig b then regName rest else none
  | c :: rest =>
    if c = 0x3A then some (c :: rest) else if isUnreservedOrSubDelim c then regName rest else none

def portIsValid : List UInt8 → Bool
  | [] => true
  | c :: rest => c = 0x3A && rest.all isDigit

def hostValueIsValid (v : List UInt8) : Bool :=
  match v with
  | [] => false
  | c :: rest =>
    if c = 0x5B then
      match rest.dropWhile (· ≠ 0x5D) with
      | [] => false
      | _ :: port => ipLiteralIsValid (rest.takeWhile (· ≠ 0x5D)) && portIsValid port
    else
      match regName v with
      | none => false
      | some port => port.length ≠ v.length && portIsValid port

/-! ## Lists of tokens -/

def commaElements (v : List UInt8) : List (List UInt8) := v.splitOn 0x2C

def isChunked (tok : List UInt8) : Bool := tok.length = 7 && asciiCaseEq tok (ascii "chunked")

/-- What `transfer_encoding_scan` tells about a line. -/
structure CodingScan where
  chunkedCount : Nat
  nonfinalChunked : Bool
  endsWithChunked : Bool
  namesACoding : Bool
  namesOtherCoding : Bool
  deriving DecidableEq

/-- One round of the loop of `transfer_encoding_scan`. -/
def CodingScan.element (scan : CodingScan) (e : List UInt8) : CodingScan :=
  let tok := trimOws e
  if tok = [] then scan
  else
    { chunkedCount := if isChunked tok && scan.chunkedCount < 2 then scan.chunkedCount + 1 else scan.chunkedCount
      nonfinalChunked := scan.nonfinalChunked || scan.endsWithChunked
      endsWithChunked := isChunked tok
      namesACoding := true
      namesOtherCoding := scan.namesOtherCoding || !isChunked tok }

def transferEncodingScan (v : List UInt8) : CodingScan :=
  (commaElements v).foldl CodingScan.element ⟨0, false, false, false, false⟩

/-! ## Chunk extensions -/

def quotedRest : List UInt8 → Option (List UInt8)
  | [] => none
  | c :: s =>
    if c = 0x22 then some s
    else if c = 0x5C then
      match s with
      | [] => none
      | c :: s => if isInvalidValueByte c then none else quotedRest s
    else if isInvalidValueByte c then none
    else quotedRest s

def chunkExtVal (s : List UInt8) : Option (List UInt8) :=
  match s with
  | [] => none
  | c :: rest =>
    if c = 0x22 then quotedRest rest else if chttp1IsTchar c then some (rest.dropWhile chttp1IsTchar) else none

/-- One round of the loop of `chunk_ext_is_valid`. -/
def chunkExt (s : List UInt8) : Option (List UInt8) :=
  match s.dropWhile isOws with
  | [] => none
  | c :: s =>
    if c ≠ 0x3B then none
    else
      match s.dropWhile isOws with
      | [] => none
      | c :: s =>
        if !chttp1IsTchar c then none
        else
          let afterName := s.dropWhile chttp1IsTchar
          match afterName.dropWhile isOws with
          | [] => some afterName
          | c :: s => if c = 0x3D then chunkExtVal (s.dropWhile isOws) else some afterName

theorem length_dropWhile_le (p : UInt8 → Bool) (s : List UInt8) : (s.dropWhile p).length ≤ s.length :=
  (List.dropWhile_suffix p).length_le

theorem quotedRest_length {s rest : List UInt8} (h : quotedRest s = some rest) : rest.length < s.length := by
  fun_induction quotedRest s with
  | case1 => cases h
  | case2 s =>
    cases h
    exact Nat.lt_succ_self _
  | case3 => cases h
  | case4 => cases h
  | case5 c s _ _ ih =>
    have := ih h
    simp only [List.length_cons]
    omega
  | case6 => cases h
  | case7 c s _ _ _ ih => exact Nat.lt_succ_of_lt (ih h)

theorem chunkExtVal_length {s rest : List UInt8} (h : chunkExtVal s = some rest) : rest.length < s.length := by
  cases s with
  | nil => cases h
  | cons c s =>
    simp only [chunkExtVal] at h
    split at h
    · exact Nat.lt_succ_of_lt (quotedRest_length h)
    · split at h
      · cases h
        exact Nat.lt_succ_of_le (length_dropWhile_le _ _)
      · cases h

theorem chunkExt_length {s rest : List UInt8} (h : chunkExt s = some rest) : rest.length < s.length := by
  have hs := length_dropWhile_le isOws s
  rw [chunkExt] at h
  split at h
  · cases h
  · rename_i c s₁ hs₁
    rw [hs₁, List.length_cons] at hs
    have hs₂ := length_dropWhile_le isOws s₁
    split at h
    · cases h
    · split at h
      · cases h
      · rename_i c₂ s₂ heq
        rw [heq, List.length_cons] at hs₂
        have hname := length_dropWhile_le chttp1IsTchar s₂
        have hval := length_dropWhile_le isOws (s₂.dropWhile chttp1IsTchar)
        split at h
        · cases h
        · dsimp only at h
          split at h
          · cases h
            omega
          · rename_i c₃ s₃ heq₃
            rw [heq₃, List.length_cons] at hval
            split at h
            · have hrest := chunkExtVal_length h
              have hows := length_dropWhile_le isOws s₃
              omega
            · cases h
              omega

def chunkExtIsValid (s : List UInt8) : Bool :=
  if s = [] then true
  else
    match _h : chunkExt s with
    | none => false
    | some rest => chunkExtIsValid rest
termination_by s.length
decreasing_by exact chunkExt_length _h

end Ccollections.Chttp1
