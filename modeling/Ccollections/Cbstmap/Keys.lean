import Ccollections.Cbstmap.Cbstmap
import Ccollections.Chashmap.Hashing
import Ccollections.Lib.ThreeWay

/-!
# cbstmap: keys as bytes, and the descents that compare them

A node holds its key pair, whose bytes are those at `key_offset`. The sizes of the C types are those of an LP64 platform
and their bytes are in little-endian order; whether a plain `char` is signed is left to the platform.
-/

namespace Ccollections.Cbstmap.Keyed
open Lib
open Chashmap (DataType fixedWidthDataTypeSize)

/-- `cmap_pair`: the bytes from the pointer on, if it is not null, and the size. -/
structure CmapPair where
  ptr : Option (List UInt8)
  size : Nat

def CmapPair.content (p : CmapPair) : List UInt8 := (p.ptr.getD []).take p.size

/-! ## Comparing bytes -/

/-- `memcmp`, which may not be handed a null pointer and may not read past either buffer. -/
def memcmp (p q : Option (List UInt8)) (n : Nat) : Option Int :=
  match p, q with
  | some p, some q => loop p q n
  | _, _ => none
where
  loop : List UInt8 → List UInt8 → Nat → Option Int
    | _, _, 0 => some 0
    | a :: p, b :: q, n + 1 => if a = b then loop p q n else some (a.toNat - b.toNat)
    | _, _, _ + 1 => none

/-- An integer type of C. -/
structure CType where
  width : Nat
  signed : Bool

def unsignedValue : List UInt8 → Nat
  | [] => 0
  | b :: bytes => b.toNat + 256 * unsignedValue bytes

def CType.value (t : CType) (bytes : List UInt8) : Int :=
  if t.signed ∧ 2 ^ (8 * t.width - 1) ≤ unsignedValue bytes then unsignedValue bytes - 2 ^ (8 * t.width)
  else unsignedValue bytes

/-- A `memcpy` of `sizeof(T)` bytes into an object of the type. -/
def CType.read (t : CType) (ptr : Option (List UInt8)) : Option Int :=
  match ptr with
  | none => none
  | some bytes => if t.width ≤ bytes.length then some (t.value (bytes.take t.width)) else none

def ccolTypedCmp (p q : Option (List UInt8)) (t : CType) : Option Int := do
  let lhs ← t.read p
  let rhs ← t.read q
  some (signCompare lhs rhs)

def cmpSignedSmall (p q : Option (List UInt8)) (size : Nat) : Option Int :=
  match size with
  | 1 => ccolTypedCmp p q { width := 1, signed := true }
  | 2 => ccolTypedCmp p q { width := 2, signed := true }
  | 4 => ccolTypedCmp p q { width := 4, signed := true }
  | 8 => ccolTypedCmp p q { width := 8, signed := true }
  | _ => none

def cmpUnsignedSmall (p q : Option (List UInt8)) (size : Nat) : Option Int :=
  match size with
  | 1 => ccolTypedCmp p q { width := 1, signed := false }
  | 2 => ccolTypedCmp p q { width := 2, signed := false }
  | 4 => ccolTypedCmp p q { width := 4, signed := false }
  | 8 => ccolTypedCmp p q { width := 8, signed := false }
  | n => memcmp p q n

/-! ## Comparison kinds -/

inductive CmpKind where
  | generic
  | char
  | s8 | s16 | s32 | s64
  | u8 | u16 | u32 | u64
  deriving DecidableEq

/-- `cbmap_cmp_kind`; `custom` says whether there is a custom comparison proc. -/
def cbmapCmpKind (keyType : DataType) (custom : Bool) : CmpKind :=
  if custom then .generic
  else
    let width := fixedWidthDataTypeSize keyType
    match keyType with
    | .char => .char
    | .signedChar | .short | .int | .long | .longLong =>
      match width with
      | 1 => .s8
      | 2 => .s16
      | 4 => .s32
      | 8 => .s64
      | _ => .generic
    | .unsignedChar | .unsignedShort | .unsignedInt | .unsignedLong | .unsignedLongLong | .pointer =>
      match width with
      | 1 => .u8
      | 2 => .u16
      | 4 => .u32
      | 8 => .u64
      | _ => .generic
    | _ => .generic

/-- The type each case of the descents instantiates its macro at, `none` for `compare_keys`. -/
def CmpKind.ctype (charSigned : Bool) : CmpKind → Option CType
  | .generic => none
  | .char => some { width := 1, signed := charSigned }
  | .s8 => some { width := 1, signed := true }
  | .s16 => some { width := 2, signed := true }
  | .s32 => some { width := 4, signed := true }
  | .s64 => some { width := 8, signed := true }
  | .u8 => some { width := 1, signed := false }
  | .u16 => some { width := 2, signed := false }
  | .u32 => some { width := 4, signed := false }
  | .u64 => some { width := 8, signed := false }

/-! ## The map -/

/-- What the descents read of `cbstmap`, on a platform. The comparison of floating-point keys is left open. -/
structure Cbmap where
  charSigned : Bool
  cmpFloatSmall : DataType → Option (List UInt8) → Option (List UInt8) → Option Int
  keyType : DataType
  customComparisonProc : Option (Option (List UInt8) → Option (List UInt8) → Int)
  cmpKind : CmpKind
  root : BmapNode CmapPair
  /-- `cbstmap_create_full` sets the kind, and nothing changes it. -/
  kind_eq : cmpKind = cbmapCmpKind keyType customComparisonProc.isSome

def keySizeIsValidForType (keyType : DataType) (keyPair : CmapPair) : Bool :=
  if fixedWidthDataTypeSize keyType ≠ 0 then keyPair.size = fixedWidthDataTypeSize keyType
  else keyPair.size ≠ 0 ∨ keyType ≠ .string

def compareKeys (cbm : Cbmap) (p q : CmapPair) : Option Int :=
  match cbm.customComparisonProc with
  | some proc => some (proc p.ptr q.ptr)
  | none =>
    if p.size ≠ q.size then do
      let minSize := min p.size q.size
      let cmp ← if minSize = 0 then some 0 else memcmp p.ptr q.ptr minSize
      if cmp ≠ 0 then some cmp else some (signCompare p.size q.size)
    else
      match cbm.keyType with
      | .string => memcmp p.ptr q.ptr p.size
      | .char => ccolTypedCmp p.ptr q.ptr { width := 1, signed := cbm.charSigned }
      | .signedChar | .short | .int | .long | .longLong => cmpSignedSmall p.ptr q.ptr p.size
      | .unsignedChar | .unsignedShort | .unsignedInt | .unsignedLong | .unsignedLongLong | .pointer =>
        cmpUnsignedSmall p.ptr q.ptr p.size
      | .float | .double | .longDouble => cbm.cmpFloatSmall cbm.keyType p.ptr q.ptr
      | .otherTypes => if p.size = 0 then some 0 else memcmp p.ptr q.ptr p.size

/-! ## `cbmap_find_node` -/

/-- `CBMAP_FIND_TYPED`, from a node on; the inner `none` is the null pointer. -/
def findTyped (t : CType) (want : Int) : BmapNode CmapPair → Addr → Option (Option Addr)
  | .nil, _ => some none
  | .node key _ _ left right, node => do
    let have_ ← t.read key.ptr
    if want = have_ then some (some node)
    else if want < have_ then findTyped t want left (.left :: node)
    else findTyped t want right (.right :: node)

/-- The loop over `compare_keys`. -/
def findGeneric (cbm : Cbmap) (keyPair : CmapPair) : BmapNode CmapPair → Addr → Option (Option Addr)
  | .nil, _ => some none
  | .node key _ _ left right, tracker => do
    let comparison ← compareKeys cbm keyPair key
    if comparison = 0 then some (some tracker)
    else if comparison < 0 then findGeneric cbm keyPair left (.left :: tracker)
    else findGeneric cbm keyPair right (.right :: tracker)

def cbmapFindNode (cbm : Cbmap) (keyPair : CmapPair) : Option (Option Addr) :=
  match cbm.cmpKind.ctype cbm.charSigned with
  | some t => do
    let want ← t.read keyPair.ptr
    findTyped t want cbm.root []
  | none => findGeneric cbm keyPair cbm.root []

/-! ## `cbmap_descend_with_path` -/

/-- A `bmap_node **`. -/
inductive Link where
  | root
  | child (node : Addr) (d : Dir)

structure NodeStackEntry where
  node : Addr
  parentLink : Link

/-- What a descent gives: the node or null, the path in the order it was recorded, and the link. -/
structure Descent where
  current : Option Addr
  path : List NodeStackEntry
  link : Link

/-- `CBMAP_DESCEND_TYPED`, from a node on. -/
def descendTyped (t : CType) (want : Int) : BmapNode CmapPair → Addr → Link → List NodeStackEntry → Option Descent
  | .nil, _, link, path => some { current := none, path := path, link := link }
  | .node key _ _ left right, current, link, path => do
    let have_ ← t.read key.ptr
    if want = have_ then some { current := some current, path := path, link := link }
    else if path.length < cbmapMaxTreeHeight then
      let path := path ++ [{ node := current, parentLink := link }]
      if want < have_ then descendTyped t want left (.left :: current) (.child current .left) path
      else descendTyped t want right (.right :: current) (.child current .right) path
    else none

/-- The loop over `compare_keys`. -/
def descendGeneric (cbm : Cbmap) (keyPair : CmapPair) :
    BmapNode CmapPair → Addr → Link → List NodeStackEntry → Option Descent
  | .nil, _, link, path => some { current := none, path := path, link := link }
  | .node key _ _ left right, current, link, path => do
    let comparison ← compareKeys cbm keyPair key
    if comparison = 0 then some { current := some current, path := path, link := link }
    else if path.length < cbmapMaxTreeHeight then
      let path := path ++ [{ node := current, parentLink := link }]
      if comparison > 0 then descendGeneric cbm keyPair right (.right :: current) (.child current .right) path
      else descendGeneric cbm keyPair left (.left :: current) (.child current .left) path
    else none

def cbmapDescendWithPath (cbm : Cbmap) (keyPair : CmapPair) : Option Descent :=
  match cbm.cmpKind.ctype cbm.charSigned with
  | some t => do
    let want ← t.read keyPair.ptr
    descendTyped t want cbm.root [] .root []
  | none => descendGeneric cbm keyPair cbm.root [] .root []

end Ccollections.Cbstmap.Keyed
