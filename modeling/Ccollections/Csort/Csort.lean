import Ccollections.Common.Basic
import Ccollections.Lib.Bytes

/-!
# The two merge sort drivers of csort

The array and the temporary buffer are byte regions, and a pointer into either is a byte offset. Every
comparison goes into a trace, so that the order of the comparisons is part of the result.
-/

namespace Ccollections.Csort
open Lib

abbrev Elem := List UInt8

abbrev Trace := List (Elem × Elem)

/-- `ccol_comparison_proc_t`. The answer may depend on every comparison made before. -/
abbrev ComparisonProc := Trace → Elem → Elem → Int

/-- `csort_item_getter_proc_t` of a collection: the offset of the element at an index. -/
abbrev ItemGetterProc := Nat → Nat

def indexingGetter (elemSize : Nat) : ItemGetterProc := fun index => index * elemSize

/-- What a merge reads and writes. -/
structure SortState where
  col : Bytes
  temp : Bytes
  trace : Trace

/-! ## `csort_merge`: both runs copied out -/

/-- The copy loops of `csort_merge`: elements `first ..` of `col` into the buffer from element `at_` on. -/
def copyOut (elemSize : Nat) (getter : ItemGetterProc) (col : Bytes) (first at_ : Nat) : Nat → Bytes → Bytes
  | 0, temp => temp
  | n + 1, temp =>
    copyBytes (copyOut elemSize getter col first at_ n temp) ((at_ + n) * elemSize) col (getter (first + n))
      elemSize

/-- Where the main loop of `csort_merge` stopped. -/
structure MergeCursor where
  i : Nat
  j : Nat
  k : Nat
  col : Bytes
  trace : Trace

/-- The main loop of `csort_merge`. -/
def mergeLoop (elemSize : Nat) (getter : ItemGetterProc) (cmp : ComparisonProc) (temp : Bytes) (n1 n2 : Nat)
    (c : MergeCursor) : MergeCursor :=
  if c.i < n1 ∧ c.j < n1 + n2 then
    let elemI := window temp (c.i * elemSize) elemSize
    let elemJ := window temp (c.j * elemSize) elemSize
    let trace := c.trace ++ [(elemI, elemJ)]
    if cmp c.trace elemI elemJ ≤ 0 then
      mergeLoop elemSize getter cmp temp n1 n2
        { i := c.i + 1, j := c.j, k := c.k + 1, trace := trace
          col := copyBytes c.col (getter c.k) temp (c.i * elemSize) elemSize }
    else
      mergeLoop elemSize getter cmp temp n1 n2
        { i := c.i, j := c.j + 1, k := c.k + 1, trace := trace
          col := copyBytes c.col (getter c.k) temp (c.j * elemSize) elemSize }
  else c
termination_by (n1 - c.i) + (n1 + n2 - c.j)

/-- The two tail loops of `csort_merge`: `n` elements of the buffer from `src` on, to `k` and after. -/
def copyBack (elemSize : Nat) (getter : ItemGetterProc) (temp : Bytes) (src k : Nat) : Nat → Bytes → Bytes
  | 0, col => col
  | n + 1, col =>
    copyBytes (copyBack elemSize getter temp src k n col) (getter (k + n)) temp ((src + n) * elemSize) elemSize

def csortMerge (elemSize : Nat) (getter : ItemGetterProc) (cmp : ComparisonProc) (left mid right : Nat)
    (s : SortState) : SortState :=
  let n1 := mid - left + 1
  let n2 := right - mid
  let temp := copyOut elemSize getter s.col left 0 n1 s.temp
  let temp := copyOut elemSize getter s.col (mid + 1) n1 n2 temp
  let c := mergeLoop elemSize getter cmp temp n1 n2 { i := 0, j := n1, k := left, col := s.col, trace := s.trace }
  let col := copyBack elemSize getter temp c.i c.k (n1 - c.i) c.col
  let col := copyBack elemSize getter temp c.j (c.k + (n1 - c.i)) (n1 + n2 - c.j) col
  { col := col, temp := temp, trace := c.trace }

/-! ## `csort_merge_contiguous`: only the left run copied out -/

/-- The pointers of `csort_merge_contiguous`: `l` into the buffer, `r` and `out` into the array. -/
structure ContiguousCursor where
  l : Nat
  r : Nat
  out : Nat
  col : Bytes
  trace : Trace

/-- The main loop of `csort_merge_contiguous`. The element size is never 0 here, see `csortCheckSortShape`. -/
def mergeContiguousLoop (elemSize : Nat) (hsize : 0 < elemSize) (cmp : ComparisonProc) (temp : Bytes)
    (lEnd rEnd : Nat) (c : ContiguousCursor) : ContiguousCursor :=
  if c.l < lEnd ∧ c.r < rEnd then
    let elemL := window temp c.l elemSize
    let elemR := window c.col c.r elemSize
    let trace := c.trace ++ [(elemL, elemR)]
    if cmp c.trace elemL elemR ≤ 0 then
      mergeContiguousLoop elemSize hsize cmp temp lEnd rEnd
        { l := c.l + elemSize, r := c.r, out := c.out + elemSize, trace := trace
          col := copyBytes c.col c.out temp c.l elemSize }
    else
      mergeContiguousLoop elemSize hsize cmp temp lEnd rEnd
        { l := c.l, r := c.r + elemSize, out := c.out + elemSize, trace := trace
          col := copyBytes c.col c.out c.col c.r elemSize }
  else c
termination_by (lEnd - c.l) + (rEnd - c.r)

def csortMergeContiguous (elemSize : Nat) (hsize : 0 < elemSize) (cmp : ComparisonProc) (left mid right : Nat)
    (s : SortState) : SortState :=
  let leftBytes := (mid - left + 1) * elemSize
  let out := left * elemSize
  let temp := copyBytes s.temp 0 s.col out leftBytes
  let c := mergeContiguousLoop elemSize hsize cmp temp leftBytes ((right + 1) * elemSize)
    { l := 0, r := (mid + 1) * elemSize, out := out, col := s.col, trace := s.trace }
  let col := if c.l < leftBytes then copyBytes c.col c.out temp c.l (leftBytes - c.l) else c.col
  { col := col, temp := temp, trace := c.trace }

/-! ## The bottom-up passes -/

/-- One pass: the runs of `currSize` elements merged in pairs, from `leftStart` on. -/
def mergePass (merge : Nat → Nat → Nat → SortState → SortState) (high currSize : Nat) (hcurr : 0 < currSize)
    (leftStart : Nat) (s : SortState) : SortState :=
  if leftStart ≤ high then
    let mid := leftStart + currSize - 1
    if mid ≥ high then s
    else
      let rightEnd := leftStart + 2 * currSize - 1
      let rightEnd := if rightEnd > high then high else rightEnd
      mergePass merge high currSize hcurr (leftStart + 2 * currSize) (merge leftStart mid rightEnd s)
  else s
termination_by high + 1 - leftStart

/-- All the passes, with runs of `currSize`, `2 * currSize` and so on while they are shorter than the
collection. -/
def mergePasses (merge : Nat → Nat → Nat → SortState → SortState) (low high length currSize : Nat)
    (hcurr : 0 < currSize) (s : SortState) : SortState :=
  if currSize < length then
    mergePasses merge low high length (currSize * 2) (by omega) (mergePass merge high currSize hcurr low s)
  else s
termination_by length - currSize

def csortContiguousPasses (elemSize : Nat) (hsize : 0 < elemSize) (cmp : ComparisonProc) (length : Nat)
    (s : SortState) : SortState :=
  mergePasses (csortMergeContiguous elemSize hsize cmp) 0 (length - 1) length 1 Nat.one_pos s

/-! ## The drivers -/

inductive BufferOutcome where
  | ready
  | notNeeded
  | refused
  deriving DecidableEq, Repr

/-- `csort_check_sort_shape`; `procsOk` is the answer of `_ccol_verify_memmgmt_procs`. -/
def csortCheckSortShape (length elemSize : Nat) (procsOk : Bool) : BufferOutcome :=
  if length > ccolMaxElemCount then .refused
  else if elemSize = 0 then .notNeeded
  else if length > sizeMax / elemSize then .refused
  else if !procsOk then .refused
  else .ready

/-- What a sort leaves behind: its return value, the array and the comparisons it made. -/
structure SortResult where
  ok : Bool
  col : Option Bytes
  trace : Trace

theorem csortCheckSortShape_ready {length elemSize : Nat} {procsOk : Bool}
    (h : csortCheckSortShape length elemSize procsOk = .ready) : 0 < elemSize := by
  unfold csortCheckSortShape at h
  split at h
  · cases h
  · split at h
    · cases h
    · omega

/-- `_csort_merge_sort_contiguous`. `malloc` answers the request for the buffer. -/
def csortMergeSortContiguous (base : Option Bytes) (length elemSize : Nat) (cmp : ComparisonProc)
    (procsOk : Bool) (malloc : Nat → Option Bytes) : SortResult :=
  match base with
  | none => { ok := true, col := none, trace := [] }
  | some col =>
    if length < 2 then { ok := true, col := some col, trace := [] }
    else
      match h : csortCheckSortShape length elemSize procsOk with
      | .notNeeded => { ok := true, col := some col, trace := [] }
      | .refused => { ok := false, col := some col, trace := [] }
      | .ready =>
        match malloc (length * elemSize) with
        | none => { ok := false, col := some col, trace := [] }
        | some temp =>
          let s := csortContiguousPasses elemSize (csortCheckSortShape_ready h) cmp length
            { col := col, temp := temp, trace := [] }
          { ok := true, col := some s.col, trace := s.trace }

def csortMergesortIterative (col : Bytes) (low high elemSize : Nat) (getter : ItemGetterProc)
    (cmp : ComparisonProc) (procsOk : Bool) (malloc : Nat → Option Bytes) : SortResult :=
  if low ≥ high then { ok := true, col := some col, trace := [] }
  else
    let length := high - low + 1
    match csortCheckSortShape length elemSize procsOk with
    | .notNeeded => { ok := true, col := some col, trace := [] }
    | .refused => { ok := false, col := some col, trace := [] }
    | .ready =>
      match malloc (length * elemSize) with
      | none => { ok := false, col := some col, trace := [] }
      | some temp =>
        let s := mergePasses (csortMerge elemSize getter cmp) low high length 1 Nat.one_pos
          { col := col, temp := temp, trace := [] }
        { ok := true, col := some s.col, trace := s.trace }

def csortMergeSort (col : Option Bytes) (length elemSize : Nat) (getter : ItemGetterProc)
    (cmp : ComparisonProc) (procsOk : Bool) (malloc : Nat → Option Bytes) : SortResult :=
  match col with
  | none => { ok := true, col := none, trace := [] }
  | some bytes =>
    if length = 0 ∨ length = 1 then { ok := true, col := some bytes, trace := [] }
    else csortMergesortIterative bytes 0 (length - 1) elemSize getter cmp procsOk malloc

/-!
# The sort in the arithmetic of its index type

The same loops over an arithmetic of `size_t` given as a parameter, with fuel for every loop, and with every element
index and every offset into a buffer looked at before it is used. A run that gives `none` ran out of fuel, left the
range or a buffer, or computed a value the arithmetic refuses.
-/

/-! ## Arithmetics of an index type -/

structure SizeArith where
  add : Nat → Nat → Option Nat
  sub : Nat → Nat → Option Nat
  mul : Nat → Nat → Option Nat

/-- `size_t` as the machine has it: every operation is modulo `2 ^ 64`. -/
def SizeArith.wrapping : SizeArith where
  add a b := some (sizeAdd a b)
  sub a b := some (sizeSub a b)
  mul a b := some (sizeMul a b)

def exactly (computed : Nat) (value : Int) : Option Nat := if (computed : Int) = value then some computed else none

def SizeArith.checked : SizeArith where
  add a b := exactly (sizeAdd a b) (a + b)
  sub a b := exactly (sizeSub a b) (a - b)
  mul a b := exactly (sizeMul a b) (a * b)

/-- What a sort may touch: the elements `low ..= high`, the bytes of the array and those of the buffer. -/
structure SortBounds where
  low : Nat
  high : Nat
  colBytes : Nat
  tempBytes : Nat

def SortBounds.elementAt (bounds : SortBounds) (getter : ItemGetterProc) (index : Nat) : Option Nat :=
  if bounds.low ≤ index ∧ index ≤ bounds.high then some (getter index) else none

/-- `n` bytes of the array. -/
def SortBounds.colAt (bounds : SortBounds) (offset n : Nat) : Option Nat :=
  if offset + n ≤ bounds.colBytes then some offset else none

/-- `n` bytes of the buffer. -/
def SortBounds.tempAt (bounds : SortBounds) (offset n : Nat) : Option Nat :=
  if offset + n ≤ bounds.tempBytes then some offset else none

section

variable (A : SizeArith) (bounds : SortBounds) (elemSize : Nat)

/-! ## `csort_merge` -/

section

variable (getter : ItemGetterProc)

/-- A copy loop of `csort_merge`, at its counter `i`. -/
def copyOutLoop (col : Bytes) (first at_ n : Nat) : Nat → Nat → Bytes → Option Bytes
  | 0, _, _ => none
  | fuel + 1, i, temp =>
    if i < n then do
      let src ← bounds.elementAt getter (← A.add first i)
      let dst ← bounds.tempAt (← A.mul (← A.add at_ i) elemSize) elemSize
      copyOutLoop col first at_ n fuel (← A.add i 1) (copyBytes temp dst col src elemSize)
    else some temp

def mergeLoopIn (cmp : ComparisonProc) (temp : Bytes) (n1 rightEnd : Nat) : Nat → MergeCursor → Option MergeCursor
  | 0, _ => none
  | fuel + 1, c =>
    if c.i < n1 ∧ c.j < rightEnd then do
      let offI ← bounds.tempAt (← A.mul c.i elemSize) elemSize
      let offJ ← bounds.tempAt (← A.mul c.j elemSize) elemSize
      let dst ← bounds.elementAt getter c.k
      let elemI := window temp offI elemSize
      let elemJ := window temp offJ elemSize
      let trace := c.trace ++ [(elemI, elemJ)]
      if cmp c.trace elemI elemJ ≤ 0 then do
        mergeLoopIn cmp temp n1 rightEnd fuel
          { i := ← A.add c.i 1, j := c.j, k := ← A.add c.k 1, trace := trace
            col := copyBytes c.col dst temp offI elemSize }
      else do
        mergeLoopIn cmp temp n1 rightEnd fuel
          { i := c.i, j := ← A.add c.j 1, k := ← A.add c.k 1, trace := trace
            col := copyBytes c.col dst temp offJ elemSize }
    else some c

/-- A tail loop of `csort_merge`, from its counters `i` and `k` on. -/
def copyBackLoop (temp : Bytes) (n : Nat) : Nat → Nat → Nat → Bytes → Option (Nat × Bytes)
  | 0, _, _, _ => none
  | fuel + 1, i, k, col =>
    if i < n then do
      let src ← bounds.tempAt (← A.mul i elemSize) elemSize
      let dst ← bounds.elementAt getter k
      copyBackLoop temp n fuel (← A.add i 1) (← A.add k 1) (copyBytes col dst temp src elemSize)
    else some (k, col)

def csortMergeIn (cmp : ComparisonProc) (fuel left mid right : Nat) (s : SortState) : Option SortState := do
  let n1 ← A.add (← A.sub mid left) 1
  let n2 ← A.sub right mid
  let temp ← copyOutLoop A bounds elemSize getter s.col left 0 n1 fuel 0 s.temp
  let temp ← copyOutLoop A bounds elemSize getter s.col (← A.add mid 1) n1 n2 fuel 0 temp
  let rightEnd ← A.add n1 n2
  let c ← mergeLoopIn A bounds elemSize getter cmp temp n1 rightEnd fuel
    { i := 0, j := n1, k := left, col := s.col, trace := s.trace }
  let (k, col) ← copyBackLoop A bounds elemSize getter temp n1 fuel c.i c.k c.col
  let (_, col) ← copyBackLoop A bounds elemSize getter temp rightEnd fuel c.j k col
  some { col := col, temp := temp, trace := c.trace }

end

/-! ## `csort_merge_contiguous` -/

def mergeContiguousLoopIn (cmp : ComparisonProc) (temp : Bytes) (lEnd rEnd : Nat) :
    Nat → ContiguousCursor → Option ContiguousCursor
  | 0, _ => none
  | fuel + 1, c =>
    if c.l < lEnd ∧ c.r < rEnd then do
      let l ← bounds.tempAt c.l elemSize
      let r ← bounds.colAt c.r elemSize
      let out ← bounds.colAt c.out elemSize
      let elemL := window temp l elemSize
      let elemR := window c.col r elemSize
      let trace := c.trace ++ [(elemL, elemR)]
      if cmp c.trace elemL elemR ≤ 0 then do
        mergeContiguousLoopIn cmp temp lEnd rEnd fuel
          { l := ← A.add c.l elemSize, r := c.r, out := ← A.add c.out elemSize, trace := trace
            col := copyBytes c.col out temp l elemSize }
      else do
        mergeContiguousLoopIn cmp temp lEnd rEnd fuel
          { l := c.l, r := ← A.add c.r elemSize, out := ← A.add c.out elemSize, trace := trace
            col := copyBytes c.col out c.col r elemSize }
    else some c

def csortMergeContiguousIn (cmp : ComparisonProc) (fuel left mid right : Nat) (s : SortState) : Option SortState := do
  let leftBytes ← A.mul (← A.add (← A.sub mid left) 1) elemSize
  let out ← bounds.colAt (← A.mul left elemSize) leftBytes
  let temp := copyBytes s.temp (← bounds.tempAt 0 leftBytes) s.col out leftBytes
  let r ← A.mul (← A.add mid 1) elemSize
  let rEnd ← A.mul (← A.add right 1) elemSize
  let c ← mergeContiguousLoopIn A bounds elemSize cmp temp leftBytes rEnd fuel
    { l := 0, r := r, out := out, col := s.col, trace := s.trace }
  if c.l < leftBytes then do
    let rest ← A.sub leftBytes c.l
    let col := copyBytes c.col (← bounds.colAt c.out rest) temp (← bounds.tempAt c.l rest) rest
    some { col := col, temp := temp, trace := c.trace }
  else some { col := c.col, temp := temp, trace := c.trace }

/-! ## The passes -/

/-- The inner loop of the two drivers, at its counter `left_start`. -/
def mergePassIn (merge : Nat → Nat → Nat → SortState → Option SortState) (high currSize : Nat) :
    Nat → Nat → SortState → Option SortState
  | 0, _, _ => none
  | fuel + 1, leftStart, s =>
    if leftStart ≤ high then do
      let mid ← A.sub (← A.add leftStart currSize) 1
      if mid ≥ high then some s
      else do
        let rightEnd ← A.sub (← A.add leftStart (← A.mul 2 currSize)) 1
        let rightEnd := if rightEnd > high then high else rightEnd
        let s ← merge leftStart mid rightEnd s
        mergePassIn merge high currSize fuel (← A.add leftStart (← A.mul 2 currSize)) s
    else some s

/-- The outer loop of the two drivers, at its counter `curr_size`. Every inner loop has `inner` steps. -/
def mergePassesIn (merge : Nat → Nat → Nat → SortState → Option SortState) (low high length inner : Nat) :
    Nat → Nat → SortState → Option SortState
  | 0, _, _ => none
  | fuel + 1, currSize, s =>
    if currSize < length then do
      let s ← mergePassIn A merge high currSize inner low s
      mergePassesIn merge low high length inner fuel (← A.mul currSize 2) s
    else some s

end

/-! ## The drivers -/

/-- `csort_contiguous_passes`, every loop with `fuel` steps. -/
def csortContiguousPassesIn (A : SizeArith) (elemSize : Nat) (cmp : ComparisonProc) (fuel length : Nat) (s : SortState) :
    Option SortState :=
  -- For an empty array `high` wraps, and no loop looks at it.
  let high := sizeSub length 1
  let bounds := { low := 0, high := high, colBytes := length * elemSize, tempBytes := length * elemSize }
  mergePassesIn A (csortMergeContiguousIn A bounds elemSize cmp fuel) 0 high length fuel fuel 1 s

/-- The passes of `csort_mergesort_iterative` over the elements `low ..= high`, every loop with `fuel` steps. -/
def csortMergesortPassesIn (A : SizeArith) (elemSize : Nat) (getter : ItemGetterProc) (cmp : ComparisonProc)
    (fuel low high : Nat) (s : SortState) : Option SortState := do
  let length ← A.add (← A.sub high low) 1
  let bounds := { low := low, high := high, colBytes := 0, tempBytes := ← A.mul length elemSize }
  mergePassesIn A (csortMergeIn A bounds elemSize getter cmp fuel) low high length fuel fuel 1 s

end Ccollections.Csort
