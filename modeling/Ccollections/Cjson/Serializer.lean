import Ccollections.Cjson.ParseValue
import Ccollections.Common.Basic

/-!
# Serialization

`serialize_node` walks the tree with an explicit stack of frames. It is a machine here with a state for each of
its two loops.
-/

namespace Ccollections.Cjson
open Lib

def cjsonMaxSerializeDepth : Nat := 500

/-! ## The output buffer -/

/-- `sbuf_t`. The capacity is left out: an oracle says which requests for room the allocator grants. -/
structure Sbuf where
  bytes : List UInt8
  oom : Bool
  requests : Nat

/-- Whether a request for room is granted, how libc formats a double, and the double it reads from a text. -/
structure SerializeEnv where
  room : Nat → Nat → Bool
  formatG : Nat → UInt64 → List UInt8
  strtod : List UInt8 → UInt64

variable (env : SerializeEnv)

def sbInit : Sbuf := ⟨[], !env.room 0 256, 1⟩

/-- Every operation does nothing once `oom` is set. -/
def sbAppend (sb : Sbuf) (data : List UInt8) : Sbuf :=
  if sb.oom then sb
  else if env.room sb.requests (sb.bytes.length + data.length + 1) then ⟨sb.bytes ++ data, false, sb.requests + 1⟩
  else { sb with oom := true, requests := sb.requests + 1 }

def sbAppendC (sb : Sbuf) (c : UInt8) : Sbuf := sbAppend env sb [c]

def indentLoop (sb : Sbuf) (width : Nat) : Sbuf :=
  if width = 0 then sb
  else indentLoop (sbAppend env sb (List.replicate (min width 128) 0x20)) (width - min width 128)
termination_by width

def sbAppendIndent (sb : Sbuf) (indent : UInt32) (depth : Nat) : Sbuf :=
  if indent = 0 then sb
  else if depth ≠ 0 ∧ indent.toNat > sizeMax / depth then { sb with oom := true }
  else
    let width := depth * indent.toNat
    let chunk := min width 128
    indentLoop env (sbAppend env sb (0x0A :: List.replicate chunk 0x20)) (width - chunk)

/-! ## Strings -/

def isRawByte (c : UInt8) : Bool := !(c = 0x22 || c = 0x5C || c < 0x20)

/-- A digit of `%04x`. -/
def lowerHexDigit (n : UInt8) : UInt8 := if n < 10 then 0x30 + n else 0x61 + (n - 10)

def escapeByte (c : UInt8) : List UInt8 :=
  if c = 0x22 then [0x5C, 0x22]
  else if c = 0x5C then [0x5C, 0x5C]
  else if c = 0x08 then [0x5C, 0x62]
  else if c = 0x0C then [0x5C, 0x66]
  else if c = 0x0A then [0x5C, 0x6E]
  else if c = 0x0D then [0x5C, 0x72]
  else if c = 0x09 then [0x5C, 0x74]
  else [0x5C, 0x75, 0x30, 0x30, lowerHexDigit (c / 16), lowerHexDigit (c % 16)]

def jsonStrLoop (sb : Sbuf) (p : List UInt8) : Sbuf :=
  match p with
  | [] => sb
  | 0 :: _ => sb
  | c :: p =>
    let run := (c :: p).takeWhile fun c => c ≠ 0 && isRawByte c
    let sb := if run = [] then sb else sbAppend env sb run
    match _h : (c :: p).drop run.length with
    | [] => sb
    | d :: rest => if d = 0 then sb else jsonStrLoop (sbAppend env sb (escapeByte d)) rest
termination_by p.length
decreasing_by
  have hlen := congrArg List.length _h
  simp only [List.length_drop, List.length_cons] at hlen
  simp only [List.length_cons]
  omega

def sbAppendJsonStr (sb : Sbuf) (s : List UInt8) : Sbuf := sbAppendC env (jsonStrLoop env (sbAppendC env sb 0x22) s) 0x22

/-! ## Numbers -/

/-- The digits of `_lltoa`, last digit first. -/
def lltoaLoop (u : UInt64) : List UInt8 :=
  let digit := 0x30 + (u % 10).toUInt8
  if u / 10 = 0 then [digit] else digit :: lltoaLoop (u / 10)
termination_by u.toNat
decreasing_by
  rename_i h
  simp only [← UInt64.toNat_inj, UInt64.toNat_div, UInt64.reduceToNat] at h ⊢
  omega

def lltoa (v : Int64) : List UInt8 :=
  let neg := v < 0
  let u : UInt64 := if neg then (-(v + 1)).toUInt64 + 1 else v.toUInt64
  let tmp := lltoaLoop u
  (if neg then tmp ++ [0x2D] else tmp).reverse

/-- `fabs(val) < DBL_MIN` for a value that is not zero. -/
def isSubnormal (d : UInt64) : Bool := d &&& 0x7FFFFFFFFFFFFFFF ≠ 0 && d &&& 0x7FF0000000000000 = 0

def isNan (d : UInt64) : Bool := !isFinite d && !isInf d

/-- `==` on doubles. -/
def doubleEq (a b : UInt64) : Bool :=
  !isNan a && !isNan b && (a = b || (a &&& 0x7FFFFFFFFFFFFFFF = 0 && b &&& 0x7FFFFFFFFFFFFFFF = 0))

/-- `snprintf(buf, cap, "%.*g", prec, val)`. -/
def snprintfG (cap prec : Nat) (d : UInt64) : List UInt8 := (env.formatG prec d).take (cap - 1)

def shortestLoop (cap prec : Nat) (d : UInt64) : List UInt8 :=
  if prec < 17 then
    if doubleEq (env.strtod (snprintfG env cap prec d)) d then snprintfG env cap prec d else shortestLoop cap (prec + 1) d
  else snprintfG env cap 17 d
termination_by 17 - prec

def cjsonFormatShortestC (cap : Nat) (d : UInt64) : List UInt8 := shortestLoop env cap (if isSubnormal d then 1 else 15) d

def formatDouble (cap : Nat) (d : UInt64) : List UInt8 :=
  if !isFinite d then [0x6E, 0x75, 0x6C, 0x6C]
  else
    let buf := cjsonFormatShortestC env cap d
    if 0x2E ∉ buf ∧ 0x65 ∉ buf ∧ 0x45 ∉ buf then
      if buf.length + 2 < cap then buf ++ [0x2E, 0x30] else buf
    else buf

/-! ## Nodes -/

/-- `serialize_frame_t`. A list's count and a dictionary's next member are read off `node` and `emitted`. -/
structure SerializeFrame where
  node : Container
  emitted : Nat
  depth : Nat

/-- `serialize_scalar`, with `none` for a null pointer. -/
def serializeScalar (sb : Sbuf) (n : Option Json) : Sbuf :=
  match n with
  | none => sbAppend env sb [0x6E, 0x75, 0x6C, 0x6C]
  | some (.bool b) => sbAppend env sb (if b then [0x74, 0x72, 0x75, 0x65] else [0x66, 0x61, 0x6C, 0x73, 0x65])
  | some (.integer i) => sbAppend env sb (lltoa i)
  | some (.float d) => sbAppend env sb (formatDouble env 32 d)
  | some (.string s) => sbAppendJsonStr env sb s
  | some .null => sbAppend env sb [0x6E, 0x75, 0x6C, 0x6C]
  | some (.list _) => sbAppend env sb [0x6E, 0x75, 0x6C, 0x6C]
  | some (.dictionary _) => sbAppend env sb [0x6E, 0x75, 0x6C, 0x6C]

/-- The outer loop writes the value at `cur`, the inner loop moves on. -/
inductive SerializeState where
  | value (cur : Option Json) (curDepth : Nat) (frames : List SerializeFrame) (sb : Sbuf)
  | next (frames : List SerializeFrame) (sb : Sbuf)

def openContainer (node : Container) (curDepth : Nat) (frames : List SerializeFrame) (sb : Sbuf) : SerializeState ⊕ Sbuf :=
  if curDepth ≥ cjsonMaxSerializeDepth then .inr { sb with oom := true }
  else
    let sb := sbAppendC env sb (if node.isDict then 0x7B else 0x5B)
    if env.room sb.requests frames.length then .inl (.next (⟨node, 0, curDepth⟩ :: frames) { sb with requests := sb.requests + 1 })
    else .inr { sb with oom := true, requests := sb.requests + 1 }

def serializeValue (cur : Option Json) (curDepth : Nat) (frames : List SerializeFrame) (sb : Sbuf) : SerializeState ⊕ Sbuf :=
  if sb.oom then .inr sb
  else
    match cur with
    | some (.list elems) => openContainer env (.list elems) curDepth frames sb
    | some (.dictionary members) => openContainer env (.dictionary members) curDepth frames sb
    | cur => .inl (.next frames (serializeScalar env sb cur))

def beforeChild (indent : UInt32) (f : SerializeFrame) (sb : Sbuf) : Sbuf :=
  sbAppendIndent env (if f.emitted > 0 then sbAppendC env sb 0x2C else sb) indent (f.depth + 1)

def heldAny (f : SerializeFrame) : Bool :=
  match f.node with
  | .list elems => elems.length > 0
  | .dictionary _ => f.emitted > 0

def closeContainer (indent : UInt32) (f : SerializeFrame) (sb : Sbuf) : Sbuf :=
  sbAppendC env (if heldAny f then sbAppendIndent env sb indent f.depth else sb) (if f.node.isDict then 0x7D else 0x5D)

def serializeNext (indent : UInt32) (frames : List SerializeFrame) (sb : Sbuf) : SerializeState ⊕ Sbuf :=
  match frames with
  | [] => .inr sb
  | f :: frames =>
    match f.node with
    | .list elems =>
      match elems[f.emitted]? with
      | some child =>
        .inl (.value (some child) (f.depth + 1) ({ f with emitted := f.emitted + 1 } :: frames) (beforeChild env indent f sb))
      | none => .inl (.next frames (closeContainer env indent f sb))
    | .dictionary members =>
      match members[f.emitted]? with
      | some (key, child) =>
        let sb := sbAppendC env (sbAppendJsonStr env (beforeChild env indent f sb) key) 0x3A
        let sb := if indent = 0 then sb else sbAppendC env sb 0x20
        .inl (.value (some child) (f.depth + 1) ({ f with emitted := f.emitted + 1 } :: frames) sb)
      | none => .inl (.next frames (closeContainer env indent f sb))

def serializeStep (indent : UInt32) : SerializeState → SerializeState ⊕ Sbuf
  | .value cur curDepth frames sb => serializeValue env cur curDepth frames sb
  | .next frames sb => serializeNext env indent frames sb

/-! ## The machine halts -/

mutual

def nodeCount : Json → Nat
  | .list elems => 1 + elemCount elems
  | .dictionary members => 1 + memberCount members
  | _ => 1

def elemCount : List Json → Nat
  | [] => 0
  | e :: elems => nodeCount e + elemCount elems

def memberCount : List (List UInt8 × Json) → Nat
  | [] => 0
  | (_, v) :: members => nodeCount v + memberCount members

end

def SerializeFrame.left (f : SerializeFrame) : Nat :=
  match f.node with
  | .list elems => elemCount (elems.drop f.emitted)
  | .dictionary members => memberCount (members.drop f.emitted)

def framesMeasure (frames : List SerializeFrame) : Nat := (frames.map fun f => 3 * f.left + 1).sum

def serializeMeasure : SerializeState → Nat
  | .value (some cur) _ frames _ => 3 * nodeCount cur - 1 + framesMeasure frames
  | .value none _ frames _ => 1 + framesMeasure frames
  | .next frames _ => framesMeasure frames

theorem nodeCount_pos (v : Json) : 0 < nodeCount v := by
  cases v <;> simp [nodeCount]

theorem framesMeasure_cons (f : SerializeFrame) (frames : List SerializeFrame) :
    framesMeasure (f :: frames) = 3 * f.left + 1 + framesMeasure frames := by
  simp [framesMeasure]

variable {env : SerializeEnv} {node : Container} {curDepth emitted depth : Nat} {frames : List SerializeFrame} {sb : Sbuf}
  {st : SerializeState}

theorem openContainer_state (h : openContainer env node curDepth frames sb = .inl st) :
    ∃ sb', st = .next (⟨node, 0, curDepth⟩ :: frames) sb' := by
  rw [openContainer] at h
  by_cases hdepth : curDepth ≥ cjsonMaxSerializeDepth
  · rw [if_pos hdepth] at h
    cases h
  · rw [if_neg hdepth] at h
    dsimp only at h
    by_cases hroom : env.room (sbAppendC env sb (if node.isDict then 0x7B else 0x5B)).requests frames.length = true
    · rw [if_pos hroom] at h
      cases h
      exact ⟨_, rfl⟩
    · rw [if_neg hroom] at h
      cases h

theorem left_list {elems : List Json} {child : Json} (h : elems[emitted]? = some child) :
    SerializeFrame.left ⟨.list elems, emitted, depth⟩ =
      nodeCount child + SerializeFrame.left ⟨.list elems, emitted + 1, depth⟩ := by
  obtain ⟨hi, rfl⟩ := List.getElem?_eq_some_iff.mp h
  simp only [SerializeFrame.left]
  rw [List.drop_eq_getElem_cons hi, elemCount]

theorem left_dictionary {members : List (List UInt8 × Json)} {key : List UInt8} {child : Json}
    (h : members[emitted]? = some (key, child)) :
    SerializeFrame.left ⟨.dictionary members, emitted, depth⟩ =
      nodeCount child + SerializeFrame.left ⟨.dictionary members, emitted + 1, depth⟩ := by
  obtain ⟨hi, hget⟩ := List.getElem?_eq_some_iff.mp h
  simp only [SerializeFrame.left]
  rw [List.drop_eq_getElem_cons hi, hget, memberCount]

theorem serializeStep_decreases (env : SerializeEnv) (indent : UInt32) (st st' : SerializeState)
    (h : serializeStep env indent st = .inl st') : serializeMeasure st' < serializeMeasure st := by
  cases st with
  | value cur curDepth frames sb =>
    simp only [serializeStep, serializeValue] at h
    split_ifs at h
    split at h
    · obtain ⟨sb', rfl⟩ := openContainer_state h
      simp [serializeMeasure, framesMeasure_cons, SerializeFrame.left, nodeCount]
      omega
    · obtain ⟨sb', rfl⟩ := openContainer_state h
      simp [serializeMeasure, framesMeasure_cons, SerializeFrame.left, nodeCount]
      omega
    · cases h
      cases cur with
      | none => simp [serializeMeasure]
      | some v =>
        have hpos := nodeCount_pos v
        simp only [serializeMeasure]
        omega
  | next frames sb =>
    cases frames with
    | nil => cases h
    | cons f frames =>
      obtain ⟨node, emitted, depth⟩ := f
      cases node with
      | list elems =>
        simp only [serializeStep, serializeNext] at h
        split at h
        · rename_i child hget
          cases h
          have hpos := nodeCount_pos child
          simp only [serializeMeasure, framesMeasure_cons, left_list hget]
          omega
        · cases h
          simp only [serializeMeasure, framesMeasure_cons]
          omega
      | dictionary members =>
        simp only [serializeStep, serializeNext] at h
        split at h
        · rename_i key child hget
          cases h
          have hpos := nodeCount_pos child
          simp only [serializeMeasure, framesMeasure_cons, left_dictionary hget]
          omega
        · cases h
          simp only [serializeMeasure, framesMeasure_cons]
          omega

def serializeMachine (env : SerializeEnv) (indent : UInt32) : Machine SerializeState Sbuf :=
  ⟨serializeStep env indent, serializeMeasure, serializeStep_decreases env indent⟩

def serializeNode (env : SerializeEnv) (sb : Sbuf) (n : Option Json) (indent : UInt32) (depth : Nat) : Sbuf :=
  (serializeMachine env indent).run (.value n depth [] sb)

def serializeWith (env : SerializeEnv) (node : Option Json) (indent : UInt32) : Option (List UInt8) :=
  let sb := serializeNode env (sbInit env) node indent 0
  if sb.oom then none else some sb.bytes

def cjsonSerialize (env : SerializeEnv) (node : Option Json) : Option (List UInt8) := serializeWith env node 0

def cjsonSerializePretty (env : SerializeEnv) (node : Option Json) (indent : UInt32) : Option (List UInt8) :=
  serializeWith env node (if indent = 0 then 4 else indent)

end Ccollections.Cjson
