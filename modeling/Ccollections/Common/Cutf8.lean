import Mathlib.Data.List.Basic

/-!
# The UTF-8 check that cjson and cyaml share

A buffer is the list of the bytes that can be read.
-/

namespace Ccollections

def utf8LeadRange (b0 : UInt8) : Option (Nat × UInt8 × UInt8) :=
  if b0 ≥ 0xC2 ∧ b0 ≤ 0xDF then some (1, 0x80, 0xBF)
  else if b0 = 0xE0 then some (2, 0xA0, 0xBF)
  else if b0 = 0xED then some (2, 0x80, 0x9F)
  else if b0 ≥ 0xE1 ∧ b0 ≤ 0xEF then some (2, 0x80, 0xBF)
  else if b0 = 0xF0 then some (3, 0x90, 0xBF)
  else if b0 = 0xF4 then some (3, 0x80, 0x8F)
  else if b0 ≥ 0xF1 ∧ b0 ≤ 0xF3 then some (3, 0x80, 0xBF)
  else none

/-- The continuation bytes after the first, of which `left` are still needed; the first of them has offset `i`. -/
def utf8TrailLoop : Nat → Nat → List UInt8 → Nat × Bool
  | 0, i, _ => (i, true)
  | left + 1, i, s =>
    match s with
    | [] => (i, false)
    | b :: s => if b < 0x80 ∨ b > 0xBF then (i, false) else utf8TrailLoop left (i + 1) s

/-- The length of the sequence at the start of a buffer, or of its maximal subpart, and whether it is well formed. -/
def ccolUtf8Step : List UInt8 → Nat × Bool
  | [] => (0, false)
  | b0 :: s =>
    if b0 < 0x80 then (1, true)
    else
      match utf8LeadRange b0 with
      | none => (1, false)
      | some (trail, lo, hi) =>
        match s with
        | [] => (1, false)
        | b1 :: s => if b1 < lo ∨ b1 > hi then (1, false) else utf8TrailLoop (trail - 1) 2 s

theorem utf8TrailLoop_pos {left i : Nat} {s : List UInt8} (hi : 0 < i) : 0 < (utf8TrailLoop left i s).1 := by
  induction left generalizing i s with
  | zero => exact hi
  | succ left ih =>
    cases s with
    | nil => exact hi
    | cons b s =>
      rw [utf8TrailLoop]
      split
      · exact hi
      · exact ih (Nat.succ_pos i)

theorem ccolUtf8Step_pos (b0 : UInt8) (s : List UInt8) : 0 < (ccolUtf8Step (b0 :: s)).1 := by
  rw [ccolUtf8Step]
  split
  · decide
  · split
    · decide
    · cases s with
      | nil => exact Nat.one_pos
      | cons b1 s =>
        dsimp only
        split
        · decide
        · exact utf8TrailLoop_pos (by decide)

/-- The loop of `ccol_utf8_first_ill_formed` from offset `i`. -/
def utf8ScanLoop (i : Nat) : List UInt8 → Nat
  | [] => i
  | b :: s =>
    if b < 0x80 then utf8ScanLoop (i + 1) s
    else
      let step := ccolUtf8Step (b :: s)
      if step.2 then utf8ScanLoop (i + step.1) ((b :: s).drop step.1) else i
termination_by s => s.length
decreasing_by
  · exact Nat.lt_succ_self _
  · rw [List.length_drop]
    exact Nat.sub_lt (Nat.succ_pos _) (ccolUtf8Step_pos b s)

def ccolUtf8FirstIllFormed (s : List UInt8) : Nat := utf8ScanLoop 0 s

def ccolUtf8IsValid (s : List UInt8) : Bool :=
  match s with
  | [] => true
  | b :: s =>
    if b < 0x80 then ccolUtf8IsValid s
    else
      let step := ccolUtf8Step (b :: s)
      if step.2 then ccolUtf8IsValid ((b :: s).drop step.1) else false
termination_by s.length
decreasing_by
  · exact Nat.lt_succ_self _
  · rw [List.length_drop]
    exact Nat.sub_lt (Nat.succ_pos _) (ccolUtf8Step_pos b s)

/-- What is wrong with an ill-formed sequence, and the bytes that show it. -/
inductive Utf8Defect where
  | strayContinuation (c : UInt8)
  | overlongLead (c : UInt8)
  | neverInUtf8 (c : UInt8)
  | truncatedByEnd (c : UInt8)
  | surrogate (c c1 : UInt8)
  | aboveMax (c c1 : UInt8)
  | overlong (c c1 : UInt8)
  | truncated (c next : UInt8)
  deriving DecidableEq, Repr

/-- `p` is the buffer from the ill-formed sequence on. -/
def ccolUtf8DescribeIllFormed (p : List UInt8) : Utf8Defect :=
  let c := p.getD 0 0
  let c1 := p.getD 1 0
  let step := (ccolUtf8Step p).1
  if c ≤ 0xBF then .strayContinuation c
  else if c ≤ 0xC1 then .overlongLead c
  else if c ≥ 0xF5 then .neverInUtf8 c
  else if step ≥ p.length then .truncatedByEnd c
  else if step = 1 ∧ c1 ≥ 0x80 ∧ c1 ≤ 0xBF then
    if c = 0xED then .surrogate c c1 else if c = 0xF4 then .aboveMax c c1 else .overlong c c1
  else .truncated c (p.getD step 0)

end Ccollections
