import Ccollections.Common.Basic
import Ccollections.Lib.Runs
import Mathlib.Order.Defs.LinearOrder

/-!
# cbstmap

The nodes and their links are a tree, and the ancestor path of an insert, a delete or a detach is the
list of the nodes passed, each with the link taken. A result of `none` is a null dereference or a failed
`_ccol_assert`, so a theorem that gives `some` also says that no assertion fires.

Keys are ordered by `LinearOrder`, which is what `compare_keys`, a typed descent and a custom comparison
procedure that is a strict total order all give. A value is its bytes.
-/

namespace Ccollections.Cbstmap
open Lib

def cbmapMaxTreeHeight : Nat := 128

/-- `bmap_node`, with `nil` for a null link. The height is a byte. -/
inductive BmapNode (K : Type) where
  | nil
  | node (key : K) (val : List UInt8) (height : Nat) (left right : BmapNode K)

structure Cbmap (K : Type) where
  elemCount : Nat
  root : BmapNode K

variable {K : Type}

def nodeHeight : BmapNode K → Nat
  | .nil => 0
  | .node _ _ height _ _ => height

def nodeBalance : BmapNode K → Int
  | .nil => 0
  | .node _ _ _ left right => (nodeHeight right : Int) - nodeHeight left

def isNull : BmapNode K → Bool
  | .nil => true
  | .node .. => false

/-- How a computed height becomes the byte of a node; `none` for a cast that is refused. -/
abbrev HeightCast := Nat → Option Nat

def toByte : HeightCast := fun height => some (height % 256)

/-- A cast that refuses to change the value, so that what runs through it has narrowed nothing on the way, not even a
height that a rotation then replaces. -/
def toByteChecked : HeightCast := fun height => if height < 256 then some height else none

variable (cast : HeightCast)

def recalculateNodeHeight (key : K) (val : List UInt8) (left right : BmapNode K) : Option (BmapNode K) := do
  let height ← cast (max (nodeHeight left) (nodeHeight right) + 1)
  some (.node key val height left right)

/-- The rotations of `check_node_balance`, and whether the root of the subtree is then another node. -/
def rotateIfNeeded : BmapNode K → Option (BmapNode K × Bool)
  | .nil => none
  | .node key val _ left right => do
    let parent ← recalculateNodeHeight cast key val left right
    let balance := nodeBalance parent
    if balance > 1 then
      match right with
      | .nil => none
      | .node rkey rval _ rleft rright =>
        if nodeBalance right ≥ 0 ∨ isNull rleft then do
          let parent ← recalculateNodeHeight cast key val left rleft
          let root ← recalculateNodeHeight cast rkey rval parent rright
          some (root, true)
        else
          match rleft with
          | .nil => none
          | .node mkey mval _ rlLeft rlRight => do
            let parent ← recalculateNodeHeight cast key val left rlLeft
            let right ← recalculateNodeHeight cast rkey rval rlRight rright
            let root ← recalculateNodeHeight cast mkey mval parent right
            some (root, true)
    else if balance < -1 then
      match left with
      | .nil => none
      | .node lkey lval _ lleft lright =>
        if nodeBalance left ≤ 0 ∨ isNull lright then do
          let parent ← recalculateNodeHeight cast key val lright right
          let root ← recalculateNodeHeight cast lkey lval lleft parent
          some (root, true)
        else
          match lright with
          | .nil => none
          | .node mkey mval _ lrLeft lrRight => do
            let left ← recalculateNodeHeight cast lkey lval lleft lrLeft
            let parent ← recalculateNodeHeight cast key val lrRight right
            let root ← recalculateNodeHeight cast mkey mval left parent
            some (root, true)
    else some (parent, false)

/-- `check_node_balance`, with its final assertion. -/
def checkNodeBalance (parent : BmapNode K) : Option (BmapNode K × Bool) := do
  let (root, rotated) ← rotateIfNeeded cast parent
  if nodeBalance root > 1 ∨ nodeBalance root < -1 then none else some (root, rotated)

/-! ## Paths -/

inductive Dir where
  | left
  | right
  deriving DecidableEq

/-- `node_stack_entry`: a node of the path without the child the path goes on to. -/
structure PathEntry (K : Type) where
  dir : Dir
  key : K
  val : List UInt8
  height : Nat
  sibling : BmapNode K

/-- The node of a path entry, with `child` at the link the path took. -/
def PathEntry.plug (e : PathEntry K) (child : BmapNode K) : BmapNode K :=
  match e.dir with
  | .left => .node e.key e.val e.height child e.sibling
  | .right => .node e.key e.val e.height e.sibling child

def plugPath : List (PathEntry K) → BmapNode K → BmapNode K
  | [], t => t
  | e :: path, t => plugPath path (e.plug t)

/-- `cbmap_descend_with_path`: the subtree at the link the walk ends at, and the path to it. -/
def cbmapDescendWithPath [LinearOrder K] (key : K) : BmapNode K → List (PathEntry K) →
    Option (BmapNode K × List (PathEntry K))
  | .nil, path => some (.nil, path)
  | .node k v h l r, path =>
    if key = k then some (.node k v h l r, path)
    else if path.length < cbmapMaxTreeHeight then
      if key < k then cbmapDescendWithPath key l ({ dir := .left, key := k, val := v, height := h, sibling := r } :: path)
      else cbmapDescendWithPath key r ({ dir := .right, key := k, val := v, height := h, sibling := l } :: path)
    else none

/-- `cbmap_find_node`, and the value of the node it finds. -/
def cbmapFindNode [LinearOrder K] (key : K) : BmapNode K → Option (List UInt8)
  | .nil => none
  | .node k v _ l r => if key = k then some v else if key < k then cbmapFindNode key l else cbmapFindNode key r

/-! ## Insert -/

/-- The rebalancing walk of `cbstmap_insert_elem`, which stops on a rotation and on an unchanged height. -/
def insertWalk : List (PathEntry K) → BmapNode K → Option (BmapNode K)
  | [], t => some t
  | e :: path, t => do
    let (balanced, rotated) ← checkNodeBalance cast (e.plug t)
    if rotated ∨ nodeHeight balanced = e.height then some (plugPath path balanced)
    else insertWalk path balanced

/-- `update_bmap_node_value`; `alloc` is the outcome of its allocation, when it makes one. -/
def updateBmapNodeValue (old new : List UInt8) (alloc : Bool) : List UInt8 × RetVal :=
  if old.length ≠ new.length then
    if new.length = 0 then (new, .keyAlreadyPresent)
    else if alloc then (new, .keyAlreadyPresent)
    else (old, .notEnoughMemory)
  else (new, .keyAlreadyPresent)

/-- `create_new_node`; `alloc` is the outcome of its allocation, a size past `SIZE_MAX` counting as a failure. -/
def createNewNode (key : K) (val : List UInt8) (alloc : Bool) : Option (BmapNode K) :=
  if alloc then some (.node key val 1 .nil .nil) else none

def cbstmapInsertElem [LinearOrder K] (cbm : Cbmap K) (key : K) (val : List UInt8) (alloc : Bool) :
    Option (Cbmap K × RetVal) :=
  if isNull cbm.root then
    match createNewNode key val alloc with
    | none => some (cbm, .notEnoughMemory)
    | some root => some ({ elemCount := cbm.elemCount + 1, root := root }, .success)
  else
    match cbmapDescendWithPath key cbm.root [] with
    | none => none
    | some (.node k v h l r, path) =>
      let (v, result) := updateBmapNodeValue v val alloc
      some ({ cbm with root := plugPath path (.node k v h l r) }, result)
    | some (.nil, path) =>
      if cbm.elemCount = ccolMaxElemCount then some (cbm, .containerFull)
      else
        match createNewNode key val alloc with
        | none => some (cbm, .notEnoughMemory)
        | some newNode => do
          let root ← insertWalk cast path newNode
          some ({ elemCount := cbm.elemCount + 1, root := root }, .success)

/-! ## Delete -/

/-- The rebalancing loop of `cbmap_detach_extreme_iter`, which goes all the way up. -/
def detachWalk : List (PathEntry K) → BmapNode K → Option (BmapNode K)
  | [], t => some t
  | e :: path, t => do
    let (balanced, _) ← checkNodeBalance cast (e.plug t)
    detachWalk path balanced

/-- `cbmap_detach_extreme_iter`: the extreme node's key and value, the child that replaces it, and its path. -/
def findExtreme (max : Bool) : BmapNode K → List (PathEntry K) →
    Option (K × List UInt8 × BmapNode K × List (PathEntry K))
  | .nil, _ => none
  | .node k v h l r, path =>
    if max then
      if isNull r then some (k, v, l, path)
      else if path.length < cbmapMaxTreeHeight then
        findExtreme max r ({ dir := .right, key := k, val := v, height := h, sibling := l } :: path)
      else none
    else
      if isNull l then some (k, v, r, path)
      else if path.length < cbmapMaxTreeHeight then
        findExtreme max l ({ dir := .left, key := k, val := v, height := h, sibling := r } :: path)
      else none

/-- `cbmap_detach_extreme_iter`: the extreme node's key and value, and what is left of the subtree. -/
def cbmapDetachExtremeIter (root : BmapNode K) (max : Bool) : Option (K × List UInt8 × BmapNode K) := do
  let (k, v, replacement, path) ← findExtreme max root []
  let rest ← detachWalk cast path replacement
  some (k, v, rest)

/-- `perform_element_removal` of a node with these children. -/
def performElementRemoval (left right : BmapNode K) : Option (BmapNode K) :=
  if isNull left then some right
  else if isNull right then some left
  else if nodeHeight right ≥ nodeHeight left then do
    let (k, v, right) ← cbmapDetachExtremeIter cast right false
    recalculateNodeHeight cast k v left right
  else do
    let (k, v, left) ← cbmapDetachExtremeIter cast left true
    recalculateNodeHeight cast k v left right

/-- The rebalancing walk of `cbstmap_delete_elem`, which stops on an unchanged height only. -/
def deleteWalk : List (PathEntry K) → BmapNode K → Option (BmapNode K)
  | [], t => some t
  | e :: path, t => do
    let (balanced, _) ← checkNodeBalance cast (e.plug t)
    if nodeHeight balanced = e.height then some (plugPath path balanced) else deleteWalk path balanced

def cbstmapDeleteElem [LinearOrder K] (cbm : Cbmap K) (key : K) : Option (Cbmap K × RetVal) :=
  if isNull cbm.root then some (cbm, .keyNotFound)
  else
    match cbmapDescendWithPath key cbm.root [] with
    | none => none
    | some (.nil, _) => some (cbm, .keyNotFound)
    | some (.node _ _ _ l r, path) => do
      let replacement ← performElementRemoval cast l r
      let root ← deleteWalk cast path replacement
      some ({ elemCount := cbm.elemCount - 1, root := root }, .success)

/-! ## Reset, lookup and programs -/

def cbstmapReset (_ : Cbmap K) : Cbmap K × RetVal := ({ elemCount := 0, root := .nil }, .success)

def Cbmap.empty : Cbmap K := { elemCount := 0, root := .nil }

inductive Op (K : Type) where
  | insert (key : K) (val : List UInt8) (alloc : Bool)
  | get (key : K)
  | delete (key : K)
  | reset

/-- What a call gives back; only a get fills `val`. -/
structure Answer where
  ret : RetVal
  val : Option (List UInt8)

def Cbmap.stepBy [LinearOrder K] (cbm : Cbmap K) : Op K → Option (Cbmap K × Answer)
  | .insert key val alloc => (cbstmapInsertElem cast cbm key val alloc).map fun (m, r) => (m, { ret := r, val := none })
  | .get key =>
    match cbmapFindNode key cbm.root with
    | none => some (cbm, { ret := .keyNotFound, val := none })
    | some v => some (cbm, { ret := .success, val := some v })
  | .delete key => (cbstmapDeleteElem cast cbm key).map fun (m, r) => (m, { ret := r, val := none })
  | .reset => let (m, r) := cbstmapReset cbm; some (m, { ret := r, val := none })

def Cbmap.step [LinearOrder K] (cbm : Cbmap K) (op : Op K) : Option (Cbmap K × Answer) := cbm.stepBy toByte op

def Cbmap.stepChecked [LinearOrder K] (cbm : Cbmap K) (op : Op K) : Option (Cbmap K × Answer) :=
  cbm.stepBy toByteChecked op

/-!
# Iteration and destruction

Neither walk changes a link before it frees the node, so the heap both read is the tree they start from, and
a pointer is an address in it. A result of `none` is again a failed `_ccol_assert`, or here a read through a
pointer to a freed node.
-/

variable {K : Type}

abbrev Addr := List Dir

def BmapNode.child : BmapNode K → Dir → BmapNode K
  | .nil, _ => .nil
  | .node _ _ _ left _, .left => left
  | .node _ _ _ _ right, .right => right

/-- What a pointer points at; `nil` for an address with no node. -/
def subtreeAt (root : BmapNode K) : Addr → BmapNode K
  | [] => root
  | d :: a => (subtreeAt root a).child d

/-- The pointer in `node->left` or `node->right`. -/
def linkOf (root : BmapNode K) (node : Addr) (d : Dir) : Option Addr :=
  if isNull (subtreeAt root (d :: node)) then none else some (d :: node)

/-! ## The iterator -/

/-- `cbmap_cmap_iterator`, with the last entry of `node_stack` first. -/
structure CmapIterator where
  nodeStack : List Addr
  userIter : Addr

/-- `push_all_lefts_into_iter_stack` for the subtree at an address. -/
def pushAllLeftsIntoIterStack : BmapNode K → Addr → List Addr → Option (List Addr)
  | .nil, _, stack => some stack
  | .node _ _ _ left _, node, stack =>
    if stack.length < cbmapMaxTreeHeight then pushAllLeftsIntoIterStack left (.left :: node) (node :: stack)
    else none

/-- `cmap_real_iter_next`; the inner `none` is the `NULL` that ends the walk. -/
def cmapRealIterNext (root : BmapNode K) : List Addr → Option (Option CmapIterator)
  | [] => some none
  | node :: stack => do
    let stack ← pushAllLeftsIntoIterStack (subtreeAt root (.right :: node)) (.right :: node) stack
    some (some { nodeStack := stack, userIter := node })

/-- `cbstmap_begin_iter`, and the error it stores; `alloc` is the outcome of its allocation. -/
def cbstmapBeginIter (cbm : Cbmap K) (alloc : Bool) : Option (Option CmapIterator × Option String) :=
  if isNull cbm.root then some (none, none)
  else if alloc then do
    let stack ← pushAllLeftsIntoIterStack cbm.root [] []
    let iter ← cmapRealIterNext cbm.root stack
    some (iter, none)
  else some (none, some "Failed to create the iterator buffer")

def cbmapIterNext (cbm : Cbmap K) (iter : CmapIterator) : Option (Option CmapIterator) :=
  cmapRealIterNext cbm.root iter.nodeStack

/-- `cbstmap_begin_iter` and `i` calls to advance. None is made after `NULL`. -/
def iterAt (cbm : Cbmap K) (alloc : Bool) : Nat → Option (Option CmapIterator)
  | 0 => (cbstmapBeginIter cbm alloc).map Prod.fst
  | i + 1 => do
    match ← iterAt cbm alloc i with
    | none => some none
    | some iter => cbmapIterNext cbm iter

/-! ## `_clear_nodes` -/

structure ClearState where
  stack : List Addr
  current : Option Addr
  lastVisited : Option Addr
  /-- The nodes given to `destroy_bmap_node` so far, in that order. -/
  destroyed : List Addr

def ClearState.done (s : ClearState) : Bool := s.stack.isEmpty && s.current.isNone

def clearStep (root : BmapNode K) (s : ClearState) : Option ClearState :=
  match s.current with
  | some node =>
    if s.stack.length < cbmapMaxTreeHeight ∧ node ∉ s.destroyed then
      some { s with stack := node :: s.stack, current := linkOf root node .left }
    else none
  | none =>
    match s.stack with
    | [] => none
    | peek :: stack =>
      if peek ∈ s.destroyed then none
      else if (linkOf root peek .right).isSome ∧ linkOf root peek .right ≠ s.lastVisited then
        some { s with current := linkOf root peek .right }
      else some { s with stack := stack, lastVisited := some peek, destroyed := s.destroyed ++ [peek] }

/-- The loop for up to `n` iterations. -/
def clearLoop (root : BmapNode K) : Nat → ClearState → Option ClearState
  | 0, s => some s
  | n + 1, s =>
    if s.done then some s
    else do
      let s ← clearStep root s
      clearLoop root n s

def clearStart : ClearState := { stack := [], current := some [], lastVisited := none, destroyed := [] }

/-- `_clear_nodes` and the nodes it destroys, when `n` iterations are enough for its loop. -/
def clearNodes (n : Nat) (cbm : Cbmap K) : Option (Cbmap K × List Addr) :=
  if isNull cbm.root then some (cbm, [])
  else
    match clearLoop cbm.root n clearStart with
    | none => none
    | some s => if s.done then some ({ elemCount := 0, root := .nil }, s.destroyed) else none

end Ccollections.Cbstmap
