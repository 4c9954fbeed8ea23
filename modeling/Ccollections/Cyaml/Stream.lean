import Ccollections.Common.Cutf8

/-!
# The characters of a YAML stream

The bytes that are still to be checked are a list, and `i` is the offset of the first of them.
-/

namespace Ccollections.Cyaml

def isRefusedAscii (c : UInt8) : Bool := (c < 0x20 && c ≠ 0x09 && c ≠ 0x0A && c ≠ 0x0D) || c = 0x7F

/-- `cyaml_block_is_printable_ascii`, lane by lane. -/
def blockIsPrintableAscii (block : List UInt8) : Bool :=
  block.all fun v => !((v < 0x20 && v ≠ 0x09 && v ≠ 0x0A && v ≠ 0x0D) || v ≥ 0x7F)

def skipBlocks (i : Nat) (p : List UInt8) : Nat × List UInt8 :=
  if h : 16 ≤ p.length ∧ blockIsPrintableAscii (p.take 16) then skipBlocks (i + 16) (p.drop 16) else (i, p)
termination_by p.length
decreasing_by
  rw [List.length_drop]
  omega

def isRefusedSequence (p : List UInt8) : Bool :=
  (p.getD 0 0 = 0xC2 && p.getD 1 0 ≤ 0x9F && p.getD 1 0 ≠ 0x85) ||
    (p.getD 0 0 = 0xEF && p.getD 1 0 = 0xBF && p.getD 2 0 ≥ 0xBE)

def walkChars (stop i : Nat) (p : List UInt8) : Nat ⊕ (Nat × List UInt8) :=
  if i < stop then
    match p with
    | [] => .inr (i, [])
    | c :: rest =>
      if c < 0x80 then if isRefusedAscii c then .inl i else walkChars stop (i + 1) rest
      else
        let step := ccolUtf8Step (c :: rest)
        if !step.2 || isRefusedSequence (c :: rest) then .inl i
        else walkChars stop (i + step.1) ((c :: rest).drop step.1)
  else .inr (i, p)
termination_by p.length
decreasing_by
  · exact Nat.lt_succ_self _
  · rw [List.length_drop]
    exact Nat.sub_lt (Nat.succ_pos _) (ccolUtf8Step_pos c rest)

def refusedLoop (len : Nat) : Nat → Nat → List UInt8 → Option Nat
  | 0, _, _ => none
  | rounds + 1, i, p =>
    let (i, p) := skipBlocks i p
    let stop := if 16 ≤ p.length then i + 16 else len
    match walkChars stop i p with
    | .inl at' => some at'
    | .inr (i, p) => if i ≥ len then some len else refusedLoop len rounds i p

/-- `cyaml_first_refused_char`. -/
def firstRefusedChar (p : List UInt8) : Option Nat := refusedLoop p.length (p.length + 1) 0 p

end Ccollections.Cyaml
