import Mathlib.Algebra.Order.Ring.Int
import Mathlib.Data.List.Basic

/-!
# JSON texts and their values

The grammar of RFC 8259 over bytes, with the value each text stands for. The texts are the ones a cjson
document can hold: the strings are UTF-8 without a NUL, and no number is infinite.
-/

namespace Ccollections.Cjson

/-- The value of a node. A double is its bit pattern, and the members of a dictionary stand in the order of insertion.
-/
inductive Json where
  | null
  | bool (b : Bool)
  | integer (i : Int64)
  | float (d : UInt64)
  | string (s : List UInt8)
  | list (elems : List Json)
  | dictionary (members : List (List UInt8 × Json))

def isInf (d : UInt64) : Bool := d &&& 0x7FFFFFFFFFFFFFFF = 0x7FF0000000000000

def isFinite (d : UInt64) : Bool := d &&& 0x7FF0000000000000 ≠ 0x7FF0000000000000

def Ws (w : List UInt8) : Prop := ∀ c ∈ w, c = 0x20 ∨ c = 0x09 ∨ c = 0x0A ∨ c = 0x0D

/-! ## Numbers -/

def Digit (c : UInt8) : Prop := 0x30 ≤ c ∧ c ≤ 0x39

def Digits (ds : List UInt8) : Prop := ds ≠ [] ∧ ∀ c ∈ ds, Digit c

def minus (neg : Bool) : List UInt8 := if neg then [0x2D] else []

inductive IntPart : List UInt8 → Prop
  | zero : IntPart [0x30]
  | digits {d : UInt8} {ds : List UInt8} (hd : 0x31 ≤ d ∧ d ≤ 0x39) (hds : ∀ c ∈ ds, Digit c) : IntPart (d :: ds)

inductive FracPart : List UInt8 → Prop
  | none : FracPart []
  | some {ds : List UInt8} (hds : Digits ds) : FracPart (0x2E :: ds)

inductive ExpPart : List UInt8 → Prop
  | none : ExpPart []
  | some {e : UInt8} {sign ds : List UInt8} (he : e = 0x65 ∨ e = 0x45) (hsign : sign = [] ∨ sign = [0x2B] ∨ sign = [0x2D])
      (hds : Digits ds) : ExpPart (e :: (sign ++ ds))

def decimalValue (ds : List UInt8) : Nat := ds.foldl (fun n d => n * 10 + (d.toNat - 0x30)) 0

def signed (neg : Bool) (n : Nat) : Int := if neg then -n else n

def FitsInt64 (i : Int) : Prop := -2 ^ 63 ≤ i ∧ i < 2 ^ 63

/-- A number is an integer if it has neither a fraction nor an exponent and fits. -/
inductive NumberText (strtod : List UInt8 → UInt64) : List UInt8 → Json → Prop
  | integer {neg : Bool} {ds : List UInt8} (hds : IntPart ds) (hfits : FitsInt64 (signed neg (decimalValue ds))) :
      NumberText strtod (minus neg ++ ds) (.integer (Int64.ofInt (signed neg (decimalValue ds))))
  | float {neg : Bool} {ds frac exp : List UInt8} (hds : IntPart ds) (hfrac : FracPart frac) (hexp : ExpPart exp)
      (hfloat : frac ≠ [] ∨ exp ≠ [] ∨ ¬FitsInt64 (signed neg (decimalValue ds)))
      (hinf : isInf (strtod (minus neg ++ ds ++ frac ++ exp)) = false) :
      NumberText strtod (minus neg ++ ds ++ frac ++ exp) (.float (strtod (minus neg ++ ds ++ frac ++ exp)))

/-! ## Strings -/

def shortEscapes : List (UInt8 × UInt8) :=
  [(0x22, 0x22), (0x5C, 0x5C), (0x2F, 0x2F), (0x62, 0x08), (0x66, 0x0C), (0x6E, 0x0A), (0x72, 0x0D), (0x74, 0x09)]

inductive HexDigit : UInt8 → Nat → Prop
  | digit {c : UInt8} (h : 0x30 ≤ c ∧ c ≤ 0x39) : HexDigit c (c.toNat - 0x30)
  | lower {c : UInt8} (h : 0x61 ≤ c ∧ c ≤ 0x66) : HexDigit c (c.toNat - 0x61 + 10)
  | upper {c : UInt8} (h : 0x41 ≤ c ∧ c ≤ 0x46) : HexDigit c (c.toNat - 0x41 + 10)

/-- `\u` with the hexadecimal digits of a code unit. -/
inductive UnicodeEscape : List UInt8 → Nat → Prop
  | mk {c₀ c₁ c₂ c₃ : UInt8} {d₀ d₁ d₂ d₃ : Nat} (h₀ : HexDigit c₀ d₀) (h₁ : HexDigit c₁ d₁) (h₂ : HexDigit c₂ d₂)
      (h₃ : HexDigit c₃ d₃) :
      UnicodeEscape [0x5C, 0x75, c₀, c₁, c₂, c₃] (((d₀ * 16 + d₁) * 16 + d₂) * 16 + d₃)

/-- The escapes, with the UTF-8 encoding of the character each stands for. -/
inductive EscapeText : List UInt8 → List UInt8 → Prop
  | short {e v : UInt8} (h : (e, v) ∈ shortEscapes) : EscapeText [0x5C, e] [v]
  | unicode {t : List UInt8} {c : Char} (h : UnicodeEscape t c.val.toNat) (hnul : c.val.toNat ≠ 0) :
      EscapeText t (String.utf8EncodeChar c)
  | surrogates {t t' : List UInt8} {high low : Nat} {c : Char} (h : UnicodeEscape t high) (h' : UnicodeEscape t' low)
      (hhigh : 0xD800 ≤ high ∧ high ≤ 0xDBFF) (hlow : 0xDC00 ≤ low ∧ low ≤ 0xDFFF)
      (hc : c.val.toNat = 0x10000 + (high - 0xD800) * 0x400 + (low - 0xDC00)) :
      EscapeText (t ++ t') (String.utf8EncodeChar c)

/-- The texts of one character of a string, with the UTF-8 encoding of that character. -/
inductive CharText : List UInt8 → List UInt8 → Prop
  | unescaped {c : Char} (hcontrol : 0x20 ≤ c.val.toNat) (hquote : c.val.toNat ≠ 0x22) (hbackslash : c.val.toNat ≠ 0x5C) :
      CharText (String.utf8EncodeChar c) (String.utf8EncodeChar c)
  | escaped {t v : List UInt8} (h : EscapeText t v) : CharText t v

/-- What stands between the quotes of a string, and the bytes of the string. -/
inductive CharsText : List UInt8 → List UInt8 → Prop
  | nil : CharsText [] []
  | cons {t v t' v' : List UInt8} (h : CharText t v) (h' : CharsText t' v') : CharsText (t ++ t') (v ++ v')

inductive StringText : List UInt8 → List UInt8 → Prop
  | mk {t s : List UInt8} (h : CharsText t s) : StringText (0x22 :: (t ++ [0x22])) s

/-! ## Values -/

/-- The members of an object as a dictionary: a key stands where it occurs first, with the value it has last. -/
def memberMap (members : List (List UInt8 × Json)) : List (List UInt8 × Json) :=
  (members.map Prod.fst).eraseDups.filterMap fun key => (members.reverse.lookup key).map (key, ·)

/-- An element of an array with the white space around it. -/
structure Element where
  before : List UInt8
  text : List UInt8
  after : List UInt8
  value : Json

def Element.padded (e : Element) : List UInt8 := e.before ++ e.text ++ e.after

/-- A member of an object with the white space around its parts. -/
structure Member extends Element where
  beforeKey : List UInt8
  keyText : List UInt8
  afterKey : List UInt8
  key : List UInt8

def Member.full (m : Member) : List UInt8 := m.beforeKey ++ m.keyText ++ m.afterKey ++ 0x3A :: m.padded

def commaSeparated (parts : List (List UInt8)) : List UInt8 := List.intercalate [0x2C] parts

/-- The values that are neither arrays nor objects. -/
inductive ScalarText (strtod : List UInt8 → UInt64) : List UInt8 → Json → Prop
  | null : ScalarText strtod [0x6E, 0x75, 0x6C, 0x6C] .null
  | true : ScalarText strtod [0x74, 0x72, 0x75, 0x65] (.bool Bool.true)
  | false : ScalarText strtod [0x66, 0x61, 0x6C, 0x73, 0x65] (.bool Bool.false)
  | number {t v} (h : NumberText strtod t v) : ScalarText strtod t v
  | string {t s} (h : StringText t s) : ScalarText strtod t (.string s)

/-- The texts of at most the given number of container levels, and the values they stand for. -/
inductive ValueText (strtod : List UInt8 → UInt64) : Nat → List UInt8 → Json → Prop
  | scalar {n t v} (h : ScalarText strtod t v) : ValueText strtod n t v
  | emptyList {n w} (hw : Ws w) : ValueText strtod (n + 1) (0x5B :: (w ++ [0x5D])) (.list [])
  | list {n} {elems : List Element} (hne : elems ≠ []) (hws : ∀ e ∈ elems, Ws e.before ∧ Ws e.after)
      (h : ∀ e ∈ elems, ValueText strtod n e.text e.value) :
      ValueText strtod (n + 1) (0x5B :: (commaSeparated (elems.map Element.padded) ++ [0x5D])) (.list (elems.map Element.value))
  | emptyDictionary {n w} (hw : Ws w) : ValueText strtod (n + 1) (0x7B :: (w ++ [0x7D])) (.dictionary [])
  | dictionary {n} {members : List Member} (hne : members ≠ [])
      (hws : ∀ m ∈ members, Ws m.beforeKey ∧ Ws m.afterKey ∧ Ws m.before ∧ Ws m.after)
      (hkeys : ∀ m ∈ members, StringText m.keyText m.key) (h : ∀ m ∈ members, ValueText strtod n m.text m.value) :
      ValueText strtod (n + 1) (0x7B :: (commaSeparated (members.map Member.full) ++ [0x7D]))
        (.dictionary (memberMap (members.map fun m => (m.key, m.value))))

def JsonText (strtod : List UInt8 → UInt64) (levels : Nat) (src : List UInt8) (v : Json) : Prop :=
  ∃ w t w', src = w ++ t ++ w' ∧ Ws w ∧ Ws w' ∧ ValueText strtod levels t v

end Ccollections.Cjson
