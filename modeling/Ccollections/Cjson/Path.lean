import Ccollections.Cjson.ParseScalar
import Ccollections.Common.Basic

/-!
# Paths

A path names a place in a tree by its components, which stand between dots. A pointer into a path is an offset.
-/

namespace Ccollections.Cjson

def isEscape (c d : UInt8) : Bool := c = 0x5C && (d = 0x2E || d = 0x5C)

def pathFindUnescapedDot : List UInt8 → Option Nat
  | c :: d :: s =>
    if isEscape c d then (pathFindUnescapedDot s).map (· + 2)
    else if c = 0x2E then some 0
    else (pathFindUnescapedDot (d :: s)).map (· + 1)
  | [c] => if c = 0x2E then some 0 else none
  | [] => none

/-- The loop of `path_find_last_unescaped_dot` from the offset `p` on. -/
def findLastFrom (p : Nat) (last : Option Nat) : List UInt8 → Option Nat
  | c :: d :: s =>
    if isEscape c d then findLastFrom (p + 2) last s
    else if c = 0x2E then findLastFrom (p + 1) (some p) (d :: s)
    else findLastFrom (p + 1) last (d :: s)
  | [c] => if c = 0x2E then some p else last
  | [] => last

def pathFindLastUnescapedDot (path : List UInt8) : Option Nat := findLastFrom 0 none path

def pathUnescapeComponent : List UInt8 → List UInt8
  | c :: d :: s => if isEscape c d then d :: pathUnescapeComponent s else c :: pathUnescapeComponent (d :: s)
  | [c] => [c]
  | [] => []

def indexStep (idx d : Nat) : Nat :=
  if idx > (sizeMax - d) / 10 then sizeMax else sizeAdd (sizeMul idx 10) d

def indexLoop (idx : Nat) : List UInt8 → Nat × List UInt8
  | c :: p => if isDigitByte c then indexLoop (indexStep idx (c.toNat - 0x30)) p else (idx, c :: p)
  | [] => (idx, [])

def parseListIndexComponent (digits : List UInt8) : Option Nat :=
  if digits.head?.any isDigitByte then
    match indexLoop 0 digits with
    | (idx, []) => some idx
    | (_, _ :: _) => none
  else none

/-- The components of a path before their escapes are resolved, one a round of the loop of `navigate`. -/
def pathSplit (path : List UInt8) : List (List UInt8) :=
  match h : pathFindUnescapedDot path with
  | none => [path]
  | some dot => path.take dot :: pathSplit (path.drop (dot + 1))
termination_by path.length
decreasing_by
  cases path with
  | nil => cases h
  | cons c s =>
    rw [List.length_drop, List.length_cons]
    omega

def pathComponents (path : List UInt8) : List (List UInt8) := (pathSplit path).map pathUnescapeComponent

/-! ## Building a path -/

def escapeComponent (component : List UInt8) : List UInt8 :=
  component.flatMap fun c => if c = 0x5C || c = 0x2E then [0x5C, c] else [c]

def joinPath (components : List (List UInt8)) : List UInt8 := [0x2E].intercalate (components.map escapeComponent)

end Ccollections.Cjson
