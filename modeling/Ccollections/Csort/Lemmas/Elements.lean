import Ccollections.Csort.Csort
import Ccollections.Lib.Lists

/-!
# The two merges agree

`csort_merge_contiguous` reads the right run out of the array it writes to. The write position trails the
read position of the right run by the number of left elements not merged yet, so what it reads is still
what the runs held at the start, which is what `csort_merge` copied out.
-/

namespace Ccollections.Csort
open Lib List

/-! ## The copy loops are block copies -/

theorem copyOut_indexing (elemSize : Nat) (col : Bytes) (first at_ n : Nat) (temp : Bytes) :
    copyOut elemSize (indexingGetter elemSize) col first at_ n temp =
      copyBytes temp (at_ * elemSize) col (first * elemSize) (n * elemSize) := by
  induction n with
  | zero => rw [copyOut, Nat.zero_mul, copyBytes_zero]
  | succ n ih =>
    rw [copyOut, ih, indexingGetter, Nat.add_mul, Nat.add_mul, copyBytes_append, Nat.succ_mul]

theorem copyBack_indexing (elemSize : Nat) (temp : Bytes) (src k n : Nat) (col : Bytes) :
    copyBack elemSize (indexingGetter elemSize) temp src k n col =
      copyBytes col (k * elemSize) temp (src * elemSize) (n * elemSize) := by
  induction n with
  | zero => rw [copyBack, Nat.zero_mul, copyBytes_zero]
  | succ n ih =>
    rw [copyBack, ih, indexingGetter, Nat.add_mul, Nat.add_mul, copyBytes_append, Nat.succ_mul]

/-! ## The main loops -/

section MainLoops

variable {elemSize left n1 n2 : Nat} {col₀ : Bytes}

/-- The cursors of the two loops are at the same place. `runs` is the part of the array not read yet. -/
structure SameCursor (elemSize left n1 n2 : Nat) (col₀ : Bytes) (c : MergeCursor) (d : ContiguousCursor) :
    Prop where
  l : d.l = c.i * elemSize
  r : d.r = (left + c.j) * elemSize
  out : d.out = c.k * elemSize
  col : d.col = c.col
  trace : d.trace = c.trace
  -- The write position trails the right run's read position by the left elements still waiting.
  trails : c.k + n1 = left + c.i + c.j
  i_le : c.i ≤ n1
  j_ge : n1 ≤ c.j
  j_le : c.j ≤ n1 + n2
  runs : ∀ a, (left + c.j) * elemSize ≤ a → c.col a = col₀ a

def HoldsRuns (elemSize left n : Nat) (col₀ temp : Bytes) : Prop :=
  ∀ a < n * elemSize, temp a = col₀ (left * elemSize + a)

theorem elem_lt_run {i n elemSize b : Nat} (hi : i < n) (hb : b < elemSize) : i * elemSize + b < n * elemSize := by
  have h : (i + 1) * elemSize ≤ n * elemSize := Nat.mul_le_mul_right _ hi
  rw [Nat.succ_mul] at h
  omega

theorem HoldsRuns.mono {n n' : Nat} {temp : Bytes} (h : HoldsRuns elemSize left n col₀ temp) (hn : n' ≤ n) :
    HoldsRuns elemSize left n' col₀ temp := by
  intro a ha
  exact h a (Nat.lt_of_lt_of_le ha (Nat.mul_le_mul_right _ hn))

theorem left_elem_eq {temp tempC : Bytes} (ht : HoldsRuns elemSize left (n1 + n2) col₀ temp)
    (hc : HoldsRuns elemSize left n1 col₀ tempC) {i b : Nat} (hi : i < n1) (hb : b < elemSize) :
    tempC (i * elemSize + b) = temp (i * elemSize + b) := by
  have hlt := elem_lt_run hi hb
  rw [hc _ hlt, ht.mono (Nat.le_add_right n1 n2) _ hlt]

theorem right_elem_eq {temp col : Bytes} (ht : HoldsRuns elemSize left (n1 + n2) col₀ temp) {j b : Nat}
    (hj : j < n1 + n2) (hruns : ∀ a, (left + j) * elemSize ≤ a → col a = col₀ a) (hb : b < elemSize) :
    col ((left + j) * elemSize + b) = temp (j * elemSize + b) := by
  rw [hruns _ (Nat.le_add_right _ _), ht _ (elem_lt_run hj hb), Nat.add_mul]
  congr 1
  omega

theorem runs_kept {col src : Bytes} {j k s : Nat} (hk : k < left + j)
    (hruns : ∀ a, (left + j) * elemSize ≤ a → col a = col₀ a) :
    ∀ a, (left + j) * elemSize ≤ a → copyBytes col (k * elemSize) src s elemSize a = col₀ a := by
  intro a ha
  have hle : (k + 1) * elemSize ≤ (left + j) * elemSize := Nat.mul_le_mul_right _ hk
  rw [Nat.succ_mul] at hle
  rw [copyBytes_outside (by omega), hruns a ha]

theorem mergeLoop_same (hsize : 0 < elemSize) (cmp : ComparisonProc) {temp tempC : Bytes}
    (ht : HoldsRuns elemSize left (n1 + n2) col₀ temp) (hc : HoldsRuns elemSize left n1 col₀ tempC)
    (c : MergeCursor) (d : ContiguousCursor) (h : SameCursor elemSize left n1 n2 col₀ c d) :
    SameCursor elemSize left n1 n2 col₀
      (mergeLoop elemSize (indexingGetter elemSize) cmp temp n1 n2 c)
      (mergeContiguousLoop elemSize hsize cmp tempC (n1 * elemSize) ((left + (n1 + n2)) * elemSize) d) := by
  rw [mergeLoop, mergeContiguousLoop]
  have hguard : (d.l < n1 * elemSize ∧ d.r < (left + (n1 + n2)) * elemSize) ↔ (c.i < n1 ∧ c.j < n1 + n2) := by
    rw [h.l, h.r, Nat.mul_lt_mul_right hsize, Nat.mul_lt_mul_right hsize]
    omega
  by_cases hg : c.i < n1 ∧ c.j < n1 + n2
  · rw [if_pos hg, if_pos (hguard.mpr hg)]
    have hk : c.k < left + c.j := by
      have := h.trails
      omega
    have hl : window tempC d.l elemSize = window temp (c.i * elemSize) elemSize := by
      rw [h.l]
      exact window_congr fun b hb => left_elem_eq ht hc hg.1 hb
    have hr : window d.col d.r elemSize = window temp (c.j * elemSize) elemSize := by
      rw [h.r, h.col]
      exact window_congr fun b hb => right_elem_eq ht hg.2 h.runs hb
    simp only [hl, hr, h.trace]
    split
    · -- The left element goes out.
      have hcol : copyBytes d.col d.out tempC d.l elemSize =
          copyBytes c.col (indexingGetter elemSize c.k) temp (c.i * elemSize) elemSize := by
        rw [h.col, h.out, h.l]
        exact copyBytes_congr fun b hb => left_elem_eq ht hc hg.1 hb
      refine mergeLoop_same hsize cmp ht hc _ _ ?_
      exact {
        l := by rw [h.l, Nat.succ_mul]
        r := h.r
        out := by rw [h.out, Nat.succ_mul]
        col := hcol
        trace := rfl
        trails := by have := h.trails; simp only; omega
        i_le := hg.1
        j_ge := h.j_ge
        j_le := h.j_le
        runs := runs_kept hk h.runs }
    · -- The right element goes out, so the unread part starts one element later.
      have hcol : copyBytes d.col d.out d.col d.r elemSize =
          copyBytes c.col (indexingGetter elemSize c.k) temp (c.j * elemSize) elemSize := by
        rw [h.col, h.out, h.r]
        exact copyBytes_congr fun b hb => right_elem_eq ht hg.2 h.runs hb
      have hj : (left + c.j) * elemSize ≤ (left + (c.j + 1)) * elemSize := Nat.mul_le_mul_right _ (by omega)
      refine mergeLoop_same hsize cmp ht hc _ _ ?_
      exact {
        l := h.l
        r := by rw [h.r, ← Nat.add_assoc, Nat.succ_mul]
        out := by rw [h.out, Nat.succ_mul]
        col := hcol
        trace := rfl
        trails := by have := h.trails; simp only; omega
        i_le := h.i_le
        j_ge := by have := h.j_ge; simp only; omega
        j_le := hg.2
        runs := fun a ha => runs_kept hk h.runs a (Nat.le_trans hj ha) }
  · rw [if_neg hg, if_neg (fun hd => hg (hguard.mp hd))]
    exact h
termination_by (n1 - c.i) + (n1 + n2 - c.j)

theorem mergeLoop_stops (getter : ItemGetterProc) (cmp : ComparisonProc) (temp : Bytes) (c : MergeCursor) :
    n1 ≤ (mergeLoop elemSize getter cmp temp n1 n2 c).i ∨
      n1 + n2 ≤ (mergeLoop elemSize getter cmp temp n1 n2 c).j := by
  fun_induction mergeLoop elemSize getter cmp temp n1 n2 c with
  | case1 c _ _ _ _ _ ih => exact ih
  | case2 c _ _ _ _ _ ih => exact ih
  | case3 c hg => omega

end MainLoops

/-! ## Whole merges -/

def SameSort (s t : SortState) : Prop := s.col = t.col ∧ s.trace = t.trace

theorem csortMerge_same {elemSize : Nat} (hsize : 0 < elemSize) (cmp : ComparisonProc) {left mid right : Nat}
    (hlm : left ≤ mid) (hmr : mid ≤ right) {s t : SortState} (h : SameSort s t) :
    SameSort (csortMerge elemSize (indexingGetter elemSize) cmp left mid right s)
      (csortMergeContiguous elemSize hsize cmp left mid right t) := by
  obtain ⟨hcol, htrace⟩ := h
  obtain ⟨n1, hn1⟩ : ∃ n1, mid - left + 1 = n1 := ⟨_, rfl⟩
  obtain ⟨n2, hn2⟩ : ∃ n2, right - mid = n2 := ⟨_, rfl⟩
  have hmid : mid + 1 = left + n1 := by omega
  have hright : right + 1 = left + (n1 + n2) := by omega
  simp only [csortMerge, csortMergeContiguous, copyOut_indexing, copyBack_indexing, hn1, hn2, hmid, hright, hcol,
    htrace]
  -- Both buffers hold the runs of the array as it was at the start of the merge.
  have htemp : copyBytes (copyBytes s.temp (0 * elemSize) t.col (left * elemSize) (n1 * elemSize)) (n1 * elemSize)
      t.col ((left + n1) * elemSize) (n2 * elemSize) =
      copyBytes s.temp 0 t.col (left * elemSize) ((n1 + n2) * elemSize) := by
    have := @copyBytes_append s.temp t.col 0 (left * elemSize) (n1 * elemSize) (n2 * elemSize)
    rw [Nat.zero_add] at this
    rw [Nat.zero_mul, Nat.add_mul left n1, this, Nat.add_mul]
  rw [htemp]
  generalize htA : copyBytes s.temp 0 t.col (left * elemSize) ((n1 + n2) * elemSize) = tempA
  generalize htB : copyBytes t.temp 0 t.col (left * elemSize) (n1 * elemSize) = tempB
  have hA : HoldsRuns elemSize left (n1 + n2) t.col tempA := by
    intro a ha
    rw [← htA, copyBytes_inside (Nat.zero_le a) (by omega), Nat.sub_zero]
  have hB : HoldsRuns elemSize left n1 t.col tempB := by
    intro a ha
    rw [← htB, copyBytes_inside (Nat.zero_le a) (by omega), Nat.sub_zero]
  have hstart : SameCursor elemSize left n1 n2 t.col
      { i := 0, j := n1, k := left, col := t.col, trace := t.trace }
      { l := 0, r := (left + n1) * elemSize, out := left * elemSize, col := t.col, trace := t.trace } :=
    { l := by simp, r := rfl, out := rfl, col := rfl, trace := rfl, trails := by simp, i_le := Nat.zero_le _
      j_ge := Nat.le_refl _, j_le := Nat.le_add_right _ _, runs := fun _ _ => rfl }
  have hend := mergeLoop_same hsize cmp hA hB _ _ hstart
  have hstop := @mergeLoop_stops elemSize n1 n2 (indexingGetter elemSize) cmp tempA
    { i := 0, j := n1, k := left, col := t.col, trace := t.trace }
  generalize mergeLoop elemSize (indexingGetter elemSize) cmp tempA n1 n2
    { i := 0, j := n1, k := left, col := t.col, trace := t.trace } = c at hend hstop ⊢
  generalize mergeContiguousLoop elemSize hsize cmp tempB (n1 * elemSize) ((left + (n1 + n2)) * elemSize)
    { l := 0, r := (left + n1) * elemSize, out := left * elemSize, col := t.col, trace := t.trace } = d at hend ⊢
  refine ⟨?_, hend.trace.symm⟩
  simp only [hend.l, hend.out, hend.col, Nat.mul_lt_mul_right hsize]
  have htrails := hend.trails
  have hi := hend.i_le
  by_cases hleft : c.i < n1
  · -- Left elements remain: the right run is used up, and the block copy is the left tail loop.
    have hj : n1 + n2 - c.j = 0 := by omega
    rw [if_pos hleft, hj, Nat.zero_mul, copyBytes_zero, ← Nat.sub_mul]
    refine copyBytes_congr fun b hb => ?_
    have hlt : c.i * elemSize + b < n1 * elemSize := by
      rw [Nat.sub_mul] at hb
      omega
    rw [hB _ hlt, hA.mono (Nat.le_add_right n1 n2) _ hlt]
  · -- The left run is used up: the right tail loop writes what the array already holds there.
    have hin : n1 - c.i = 0 := by omega
    have hk : c.k = left + c.j := by omega
    rw [if_neg hleft, hin, Nat.zero_mul, copyBytes_zero, Nat.add_zero, hk]
    refine copyBytes_self fun b hb => ?_
    have hlt : c.j * elemSize + b < (n1 + n2) * elemSize := by
      have := hend.j_le
      rw [Nat.sub_mul] at hb
      omega
    rw [hA _ hlt, hend.runs _ (Nat.le_add_right _ _), Nat.add_mul]
    congr 1
    omega

/-! ## Passes -/

theorem mergePass_same {elemSize : Nat} (hsize : 0 < elemSize) (cmp : ComparisonProc) (high currSize : Nat)
    (hcurr : 0 < currSize) (leftStart : Nat) {s t : SortState} (h : SameSort s t) :
    SameSort (mergePass (csortMerge elemSize (indexingGetter elemSize) cmp) high currSize hcurr leftStart s)
      (mergePass (csortMergeContiguous elemSize hsize cmp) high currSize hcurr leftStart t) := by
  unfold mergePass
  by_cases hle : leftStart ≤ high
  · rw [if_pos hle, if_pos hle]
    by_cases hmid : leftStart + currSize - 1 ≥ high
    · rw [if_pos hmid, if_pos hmid]
      exact h
    · rw [if_neg hmid, if_neg hmid]
      refine mergePass_same hsize cmp high currSize hcurr (leftStart + 2 * currSize) ?_
      refine csortMerge_same hsize cmp (by omega) ?_ h
      split <;> omega
  · rw [if_neg hle, if_neg hle]
    exact h
termination_by high + 1 - leftStart

theorem mergePasses_same {elemSize : Nat} (hsize : 0 < elemSize) (cmp : ComparisonProc) (low high length currSize : Nat)
    (hcurr : 0 < currSize) {s t : SortState} (h : SameSort s t) :
    SameSort (mergePasses (csortMerge elemSize (indexingGetter elemSize) cmp) low high length currSize hcurr s)
      (mergePasses (csortMergeContiguous elemSize hsize cmp) low high length currSize hcurr t) := by
  unfold mergePasses
  by_cases hlt : currSize < length
  · rw [if_pos hlt, if_pos hlt]
    exact mergePasses_same hsize cmp low high length (currSize * 2) _ (mergePass_same hsize cmp high currSize hcurr low h)
  · rw [if_neg hlt, if_neg hlt]
    exact h
termination_by length - currSize

/-! ## The drivers -/

theorem csortMergeSortContiguous_same (base : Option Bytes) (length elemSize : Nat)
    (cmp : ComparisonProc) (procsOk : Bool) (malloc : Nat → Option Bytes) :
    csortMergeSortContiguous base length elemSize cmp procsOk malloc =
      csortMergeSort base length elemSize (indexingGetter elemSize) cmp procsOk malloc := by
  cases base with
  | none => rfl
  | some col =>
    unfold csortMergeSortContiguous csortMergeSort
    by_cases hlen : length < 2
    · have hlen' : length = 0 ∨ length = 1 := by omega
      simp only [if_pos hlen, if_pos hlen']
    · have hlen' : ¬(length = 0 ∨ length = 1) := by omega
      have hhigh : ¬(0 ≥ length - 1) := by omega
      have hlength : length - 1 - 0 + 1 = length := by omega
      simp only [if_neg hlen, if_neg hlen', csortMergesortIterative, if_neg hhigh, hlength]
      split
      · rename_i hs
        rw [hs]
      · rename_i hs
        rw [hs]
      · rename_i hs
        simp only [hs]
        cases malloc (length * elemSize) with
        | none => rfl
        | some temp =>
          have hsame := mergePasses_same (csortCheckSortShape_ready hs) cmp 0 (length - 1) length 1 Nat.one_pos
            (s := { col := col, temp := temp, trace := [] }) (t := { col := col, temp := temp, trace := [] })
            ⟨rfl, rfl⟩
          simp only [csortContiguousPasses, hsame.1, hsame.2]

/-!
# The sort on lists of elements

A collection whose elements lie apart is the list of its elements, and a copy to one of them sets an entry of
the list. `csort_merge` is then the merge of two stretches of the list.
-/

def Apart (elemSize : Nat) (getter : ItemGetterProc) (length : Nat) : Prop :=
  ∀ i < length, ∀ j < length, i ≠ j → getter i + elemSize ≤ getter j ∨ getter j + elemSize ≤ getter i

def elems (elemSize : Nat) (getter : ItemGetterProc) (col : Bytes) (first n : Nat) : List Elem :=
  (List.range' first n).map fun index => window col (getter index) elemSize

theorem indexing_apart (elemSize : Nat) {i j : Nat} (hne : i ≠ j) :
    i * elemSize + elemSize ≤ j * elemSize ∨ j * elemSize + elemSize ≤ i * elemSize := by
  rcases Nat.lt_or_gt_of_ne hne with hlt | hgt
  · have hle := Nat.mul_le_mul_right elemSize hlt
    rw [Nat.succ_mul] at hle
    exact .inl hle
  · have hle := Nat.mul_le_mul_right elemSize hgt
    rw [Nat.succ_mul] at hle
    exact .inr hle

theorem apart_indexingGetter (elemSize length : Nat) : Apart elemSize (indexingGetter elemSize) length :=
  fun _ _ _ _ hne => indexing_apart elemSize hne

/-! ## Copies of one element -/

theorem window_copyBytes_self (dst src : Bytes) (d s n : Nat) : window (copyBytes dst d src s n) d n = window src s n :=
  window_congr fun b hb => by
    rw [copyBytes_inside (Nat.le_add_right d b) (by omega), Nat.add_sub_cancel_left]

theorem window_copyBytes_apart {dst src : Bytes} {d s n d' : Nat} (h : d + n ≤ d' ∨ d' + n ≤ d) :
    window (copyBytes dst d src s n) d' n = window dst d' n :=
  window_congr fun b hb => copyBytes_outside (by omega)

section

variable {elemSize : Nat} {getter : ItemGetterProc}

@[simp] theorem elems_length (col : Bytes) (first n : Nat) : (elems elemSize getter col first n).length = n := by
  simp [elems]

theorem elems_cons (col : Bytes) (first n : Nat) :
    elems elemSize getter col first (n + 1) = window col (getter first) elemSize :: elems elemSize getter col (first + 1) n := by
  rw [elems, List.range'_succ, map_cons, elems]

theorem elems_concat (col : Bytes) (first n : Nat) :
    elems elemSize getter col first (n + 1) =
      elems elemSize getter col first n ++ [window col (getter (first + n)) elemSize] := by
  rw [elems, List.range'_1_concat, map_append, elems]
  rfl

theorem elems_congr {getter' : ItemGetterProc} {col col' : Bytes} {first first' n : Nat}
    (h : ∀ i < n, window col (getter (first + i)) elemSize = window col' (getter' (first' + i)) elemSize) :
    elems elemSize getter col first n = elems elemSize getter' col' first' n := by
  apply ext_getElem
  · simp
  · intro i hi _
    rw [elems_length] at hi
    simpa [elems] using h i hi

theorem take_drop_elems (col : Bytes) (n a b : Nat) :
    ((elems elemSize getter col 0 n).drop a).take b = elems elemSize getter col a (min b (n - a)) := by
  rw [elems, ← map_drop, ← map_take, drop_range', Nat.mul_one, Nat.zero_add, elems]
  congr 1
  rcases Nat.le_total (n - a) b with hle | hle
  · rw [take_range'_of_length_le hle, Nat.min_eq_right hle]
  · rw [take_range'_of_length_ge hle, Nat.min_eq_left hle]

theorem elems_copyBytes {length : Nat} (hapart : Apart elemSize getter length) (col src : Bytes) (s : Nat) {k : Nat}
    (hk : k < length) :
    elems elemSize getter (copyBytes col (getter k) src s elemSize) 0 length =
      (elems elemSize getter col 0 length).set k (window src s elemSize) := by
  apply ext_getElem
  · simp
  · intro i hi hi'
    simp only [elems_length] at hi
    rw [getElem_set]
    simp only [elems, getElem_map, getElem_range', Nat.zero_add, Nat.one_mul]
    by_cases hik : k = i
    · subst hik
      rw [if_pos rfl, window_copyBytes_self]
    · rw [if_neg hik, window_copyBytes_apart (hapart k hk i hi hik)]

theorem copyOut_window (col : Bytes) (first at_ n : Nat) (temp : Bytes) (i : Nat) :
    window (copyOut elemSize getter col first at_ n temp) (i * elemSize) elemSize =
      if at_ ≤ i ∧ i < at_ + n then window col (getter (first + (i - at_))) elemSize
      else window temp (i * elemSize) elemSize := by
  induction n with
  | zero => rw [copyOut, if_neg (by omega)]
  | succ n ih =>
    rw [copyOut]
    by_cases hi : i = at_ + n
    · subst hi
      rw [window_copyBytes_self, if_pos (by omega), Nat.add_sub_cancel_left]
    · rw [window_copyBytes_apart (indexing_apart elemSize (Ne.symm hi)), ih]
      by_cases hin : at_ ≤ i ∧ i < at_ + n
      · rw [if_pos hin, if_pos (by omega)]
      · rw [if_neg hin, if_neg (by omega)]

theorem copyBack_elems {length : Nat} (hapart : Apart elemSize getter length) (temp : Bytes) (src k n : Nat) (col : Bytes)
    (hk : k + n ≤ length) :
    elems elemSize getter (copyBack elemSize getter temp src k n col) 0 length =
      putFrom (elems elemSize getter col 0 length) k (elems elemSize (indexingGetter elemSize) temp src n) := by
  induction n with
  | zero => rfl
  | succ n ih =>
    rw [copyBack, elems_copyBytes hapart _ _ _ (by omega), ih (by omega), elems_concat, putFrom_append, elems_length]
    rfl

end

/-! ## One merge -/

def leOf (cmp : Elem → Elem → Int) (a b : Elem) : Bool := cmp a b ≤ 0

section Merge

variable {elemSize length : Nat} {getter : ItemGetterProc} (cmp : Elem → Elem → Int)

theorem mergeLoop_elems (hapart : Apart elemSize getter length) (temp : Bytes) (n1 n2 : Nat) (c : MergeCursor)
    (hi : c.i ≤ n1) (hj : n1 ≤ c.j) (hj' : c.j ≤ n1 + n2) (hk : c.k + (n1 - c.i) + (n1 + n2 - c.j) ≤ length) :
    let d := mergeLoop elemSize getter (fun _ => cmp) temp n1 n2 c
    elems elemSize getter (copyBack elemSize getter temp d.j (d.k + (n1 - d.i)) (n1 + n2 - d.j)
        (copyBack elemSize getter temp d.i d.k (n1 - d.i) d.col)) 0 length =
      putFrom (elems elemSize getter c.col 0 length) c.k
        (List.merge (elems elemSize (indexingGetter elemSize) temp c.i (n1 - c.i))
          (elems elemSize (indexingGetter elemSize) temp c.j (n1 + n2 - c.j)) (leOf cmp)) := by
  rw [mergeLoop]
  split
  · rename_i hg
    have hleft : n1 - c.i = n1 - (c.i + 1) + 1 := by omega
    have hright : n1 + n2 - c.j = n1 + n2 - (c.j + 1) + 1 := by omega
    dsimp only
    split
    · rename_i hle
      have hmerge := mergeLoop_elems hapart temp n1 n2
        { i := c.i + 1, j := c.j, k := c.k + 1
          trace := c.trace ++ [(window temp (c.i * elemSize) elemSize, window temp (c.j * elemSize) elemSize)]
          col := copyBytes c.col (getter c.k) temp (c.i * elemSize) elemSize }
        hg.1 hj hj' (by simp only; omega)
      refine hmerge.trans ?_
      dsimp only
      rw [elems_copyBytes hapart _ _ _ (by omega), hleft, elems_cons temp c.i, hright, elems_cons temp c.j,
        cons_merge_cons_pos _ _ _ (decide_eq_true hle)]
      rfl
    · rename_i hgt
      have hmerge := mergeLoop_elems hapart temp n1 n2
        { i := c.i, j := c.j + 1, k := c.k + 1
          trace := c.trace ++ [(window temp (c.i * elemSize) elemSize, window temp (c.j * elemSize) elemSize)]
          col := copyBytes c.col (getter c.k) temp (c.j * elemSize) elemSize }
        hi (Nat.le_succ_of_le hj) hg.2 (by simp only; omega)
      refine hmerge.trans ?_
      dsimp only
      rw [elems_copyBytes hapart _ _ _ (by omega), hleft, elems_cons temp c.i, hright, elems_cons temp c.j,
        cons_merge_cons_neg _ _ _ (fun h => hgt (of_decide_eq_true h))]
      rfl
  · rename_i hg
    -- One run is used up, and the merge with an empty list is the other one.
    dsimp only
    rw [copyBack_elems hapart _ _ _ _ _ (by omega), copyBack_elems hapart _ _ _ _ _ (by omega)]
    have happend := putFrom_append (elems elemSize getter c.col 0 length) c.k
      (elems elemSize (indexingGetter elemSize) temp c.i (n1 - c.i))
      (elems elemSize (indexingGetter elemSize) temp c.j (n1 + n2 - c.j))
    rw [elems_length] at happend
    rw [← happend]
    by_cases hleft : c.i < n1
    · rw [show n1 + n2 - c.j = 0 by omega]
      simp [elems]
    · rw [show n1 - c.i = 0 by omega]
      simp [elems]
termination_by (n1 - c.i) + (n1 + n2 - c.j)

theorem csortMerge_elems (hapart : Apart elemSize getter length) (left mid right : Nat) (hlm : left ≤ mid)
    (hmr : mid ≤ right) (hr : right < length) (s : SortState) :
    elems elemSize getter (csortMerge elemSize getter (fun _ => cmp) left mid right s).col 0 length =
      (elems elemSize getter s.col 0 length).take left ++
        List.merge (elems elemSize getter s.col left (mid - left + 1)) (elems elemSize getter s.col (mid + 1) (right - mid))
          (leOf cmp) ++
        (elems elemSize getter s.col 0 length).drop (right + 1) := by
  obtain ⟨n1, hn1⟩ : ∃ n1, mid - left + 1 = n1 := ⟨_, rfl⟩
  obtain ⟨n2, hn2⟩ : ∃ n2, right - mid = n2 := ⟨_, rfl⟩
  simp only [csortMerge, hn1, hn2]
  generalize htemp : copyOut elemSize getter s.col (mid + 1) n1 n2 (copyOut elemSize getter s.col left 0 n1 s.temp) = temp
  -- The buffer holds both runs.
  have hleft : elems elemSize (indexingGetter elemSize) temp 0 n1 = elems elemSize getter s.col left n1 := by
    refine elems_congr fun i hi => ?_
    rw [← htemp, Nat.zero_add, indexingGetter, copyOut_window, if_neg (by omega), copyOut_window, if_pos (by omega), Nat.sub_zero]
  have hright : elems elemSize (indexingGetter elemSize) temp n1 n2 = elems elemSize getter s.col (mid + 1) n2 := by
    refine elems_congr fun i hi => ?_
    rw [← htemp, indexingGetter, copyOut_window, if_pos (by omega), Nat.add_sub_cancel_left]
  have hmerge := mergeLoop_elems cmp hapart temp n1 n2 { i := 0, j := n1, k := left, col := s.col, trace := s.trace }
    (Nat.zero_le _) (Nat.le_refl _) (Nat.le_add_right _ _) (by simp only; omega)
  refine hmerge.trans ?_
  simp only [Nat.sub_zero, Nat.add_sub_cancel_left, hleft, hright]
  rw [putFrom_eq, length_merge, elems_length, elems_length, show left + (n1 + n2) = right + 1 by omega]
  rw [length_merge, elems_length, elems_length, elems_length]
  omega

/-! ## Passes -/

theorem mergePass_elems (hapart : Apart elemSize getter length) {high : Nat} (hhigh : high + 1 = length) (w : Nat) (hw : 0 < w)
    (leftStart : Nat) (s : SortState) :
    elems elemSize getter (mergePass (csortMerge elemSize getter fun _ => cmp) high w hw leftStart s).col 0 length =
      (elems elemSize getter s.col 0 length).take leftStart ++
        mergePairs (leOf cmp) w hw ((elems elemSize getter s.col 0 length).drop leftStart) := by
  rw [mergePass]
  split
  · dsimp only
    split
    · -- One run is left.
      rw [mergePairs, if_neg (by rw [length_drop, elems_length]; omega), take_append_drop]
    · rename_i hmid
      generalize hend : (if leftStart + 2 * w - 1 > high then high else leftStart + 2 * w - 1) = rightEnd
      have hend' : rightEnd = min high (leftStart + 2 * w - 1) := by
        rw [← hend]
        split <;> omega
      have hmerge := csortMerge_elems cmp hapart leftStart (leftStart + w - 1) rightEnd
        (by omega) (by omega) (by omega) s
      have hX : elems elemSize getter s.col leftStart (leftStart + w - 1 - leftStart + 1) =
          ((elems elemSize getter s.col 0 length).drop leftStart).take w := by
        rw [take_drop_elems, show leftStart + w - 1 - leftStart + 1 = min w (length - leftStart) by omega]
      have hY : elems elemSize getter s.col (leftStart + w - 1 + 1) (rightEnd - (leftStart + w - 1)) =
          (((elems elemSize getter s.col 0 length).drop leftStart).drop w).take w := by
        rw [drop_drop, take_drop_elems, show leftStart + w - 1 + 1 = leftStart + w by omega,
          show rightEnd - (leftStart + w - 1) = min w (length - (leftStart + w)) by omega]
      rw [hX, hY] at hmerge
      rw [mergePass_elems hapart hhigh w hw (leftStart + 2 * w), hmerge]
      rw [mergePairs.eq_def _ _ _ (List.drop leftStart _), if_pos (by rw [length_drop, elems_length]; omega)]
      have hA : (elems elemSize getter s.col 0 length).length = length := elems_length _ _ _
      generalize elems elemSize getter s.col 0 length = A at hA
      have hM : (A.take leftStart ++ List.merge ((A.drop leftStart).take w) (((A.drop leftStart).drop w).take w) (leOf cmp)).length =
          rightEnd + 1 := by
        simp only [length_append, length_merge, length_take, length_drop]
        omega
      by_cases hfull : leftStart + 2 * w ≤ length
      · -- Two whole runs were merged.
        have hend'' : rightEnd + 1 = leftStart + 2 * w := by omega
        rw [hend''] at hM ⊢
        rw [take_left' hM, drop_left' hM, drop_drop, drop_drop, append_assoc,
          show leftStart + w + w = leftStart + 2 * w by omega]
      · -- The second run was the last one.
        have hend'' : rightEnd + 1 ≤ leftStart + 2 * w := by omega
        have hnil : A.drop (rightEnd + 1) = [] := drop_eq_nil_of_le (by omega)
        have hnil' : ((A.drop leftStart).drop w).drop w = [] := drop_eq_nil_of_le (by simp only [length_drop]; omega)
        rw [hnil, hnil', append_nil, take_of_length_le (hM.trans_le hend''), drop_eq_nil_of_le (hM.trans_le hend''),
          append_assoc]
  · rw [drop_eq_nil_of_le (by rw [elems_length]; omega), take_of_length_le (by rw [elems_length]; omega), mergePairs,
      if_neg (by simp), append_nil]
termination_by high + 1 - leftStart

theorem mergePasses_elems (hapart : Apart elemSize getter length) (hlength : 0 < length) (w : Nat) (hw : 0 < w) (s : SortState) :
    elems elemSize getter (mergePasses (csortMerge elemSize getter fun _ => cmp) 0 (length - 1) length w hw s).col 0 length =
      mergeAll (leOf cmp) length w hw (elems elemSize getter s.col 0 length) := by
  rw [mergePasses, mergeAll]
  split
  · rw [mergePasses_elems hapart hlength (w * 2), mergePass_elems cmp hapart (by omega), take_zero, drop_zero,
      nil_append]
  · rfl
termination_by length - w

end Merge

end Ccollections.Csort
