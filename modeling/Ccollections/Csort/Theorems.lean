import Ccollections.Csort.Lemmas.Elements
import Ccollections.Csort.Lemmas.Arithmetic

/-!
# csort: the two drivers are one stable sort
-/

namespace Ccollections.Csort
open Lib

/-- Both drivers return the same value, leave the same bytes and make the same comparisons in the same order, whatever
the comparison procedure and the allocator answer. -/
theorem csortMergeSortContiguous_eq_csortMergeSort (base : Option Bytes) (length elemSize : Nat)
    (cmp : ComparisonProc) (procsOk : Bool) (malloc : Nat → Option Bytes) :
    csortMergeSortContiguous base length elemSize cmp procsOk malloc =
      csortMergeSort base length elemSize (indexingGetter elemSize) cmp procsOk malloc :=
  csortMergeSortContiguous_same base length elemSize cmp procsOk malloc

/-! ## Stable sorting -/

/-- What a stable sort of a collection by a comparison function does to it. -/
structure StablySorted (cmp : Elem → Elem → Int) (before after : List Elem) : Prop where
  perm : after.Perm before
  sorted : after.Pairwise fun a b => cmp a b ≤ 0
  /-- The elements that compare equal to a given one are the same in the same order. -/
  stable : ∀ a, (after.filter fun b => cmp a b ≤ 0 ∧ cmp b a ≤ 0) = before.filter fun b => cmp a b ≤ 0 ∧ cmp b a ≤ 0

theorem StablySorted.of_stableTo {cmp : Elem → Elem → Int} {before after : List Elem}
    (h : StableTo (leOf cmp) before after) (hsorted : after.Pairwise (leOf cmp · ·)) : StablySorted cmp before after where
  perm := h.perm
  sorted := hsorted.imp fun hle => of_decide_eq_true hle
  stable := by
    have hties : ties (leOf cmp) = fun a b => decide (cmp a b ≤ 0 ∧ cmp b a ≤ 0) := by
      funext a b
      rw [ties, leOf, leOf, Bool.decide_and]
    have hstable := h.stable
    rw [hties] at hstable
    exact hstable

/-- The outcome of a driver: sorted and stable when it returns true, and untouched when it does not. -/
def SortsStably (cmp : Elem → Elem → Int) (elemSize : Nat) (getter : ItemGetterProc) (length : Nat) (col : Bytes)
    (r : SortResult) : Prop :=
  (r.ok = true → ∃ col', r.col = some col' ∧
    StablySorted cmp (elems elemSize getter col 0 length) (elems elemSize getter col' 0 length)) ∧
  (r.ok = false → r.col = some col)

section

variable {cmp : Elem → Elem → Int} {elemSize length : Nat} {getter : ItemGetterProc} {col : Bytes}

theorem StablySorted.unmoved (h : (elems elemSize getter col 0 length).Pairwise fun a b => cmp a b ≤ 0) :
    StablySorted cmp (elems elemSize getter col 0 length) (elems elemSize getter col 0 length) := ⟨.refl _, h, fun _ => rfl⟩

/-- A collection with nothing to move is sorted: it has one element at most, or elements of no bytes. -/
theorem sorted_of_trivial (htotal : ∀ a b, cmp a b ≤ 0 ∨ cmp b a ≤ 0) (h : length < 2 ∨ elemSize = 0) :
    (elems elemSize getter col 0 length).Pairwise fun a b => cmp a b ≤ 0 := by
  rcases h with hlength | rfl
  · have hone : length = 0 ∨ length = 1 := by omega
    rcases hone with rfl | rfl
    · exact .nil
    · exact List.pairwise_singleton _ _
  · refine List.pairwise_of_forall_mem_list fun a ha b hb => ?_
    obtain ⟨i, -, rfl⟩ := List.mem_map.mp ha
    obtain ⟨j, -, rfl⟩ := List.mem_map.mp hb
    exact (htotal _ _).elim id id

theorem csortCheckSortShape_cases (length elemSize : Nat) (procsOk : Bool) :
    (csortCheckSortShape length elemSize procsOk = .notNeeded ∧ elemSize = 0) ∨
      csortCheckSortShape length elemSize procsOk = .refused ∨ csortCheckSortShape length elemSize procsOk = .ready := by
  unfold csortCheckSortShape
  split
  · exact .inr (.inl rfl)
  · split
    · exact .inl ⟨rfl, by assumption⟩
    · split
      · exact .inr (.inl rfl)
      · split
        · exact .inr (.inl rfl)
        · exact .inr (.inr rfl)

theorem csortMergeSort_sortsStably (htotal : ∀ a b, cmp a b ≤ 0 ∨ cmp b a ≤ 0)
    (htrans : ∀ a b c, cmp a b ≤ 0 → cmp b c ≤ 0 → cmp a c ≤ 0) (hapart : Apart elemSize getter length) (procsOk : Bool)
    (malloc : Nat → Option Bytes) :
    SortsStably cmp elemSize getter length col
      (csortMergeSort (some col) length elemSize getter (fun _ => cmp) procsOk malloc) := by
  have hstays : length < 2 ∨ elemSize = 0 →
      SortsStably cmp elemSize getter length col { ok := true, col := some col, trace := [] } :=
    fun h => ⟨fun _ => ⟨col, rfl, .unmoved (sorted_of_trivial htotal h)⟩, fun h => by cases h⟩
  have hfails : SortsStably cmp elemSize getter length col { ok := false, col := some col, trace := [] } :=
    ⟨fun h => (by cases h), fun _ => rfl⟩
  unfold csortMergeSort
  by_cases hlen : length = 0 ∨ length = 1
  · simp only [if_pos hlen]
    exact hstays (.inl (by omega))
  · have hhigh : ¬(0 ≥ length - 1) := by omega
    have hlength : length - 1 - 0 + 1 = length := by omega
    simp only [if_neg hlen, csortMergesortIterative, if_neg hhigh, hlength]
    rcases csortCheckSortShape_cases length elemSize procsOk with ⟨hs, hzero⟩ | hs | hs
    · simp only [hs]
      exact hstays (.inr hzero)
    · simp only [hs]
      exact hfails
    · simp only [hs]
      cases malloc (length * elemSize) with
      | none => exact hfails
      | some temp =>
        refine ⟨fun _ => ⟨_, rfl, ?_⟩, fun h => by cases h⟩
        have hpreorder : TotalPreorder (leOf cmp) :=
          { trans := fun a b c hab hbc => decide_eq_true (htrans a b c (of_decide_eq_true hab) (of_decide_eq_true hbc))
            total := fun a b => (htotal a b).imp decide_eq_true decide_eq_true }
        obtain ⟨hstable, hsorted⟩ := mergeAll_spec hpreorder length Nat.one_pos (elems elemSize getter col 0 length)
          (by rw [elems_length]) (runs_one _ _)
        rw [← mergePasses_elems cmp hapart (by omega) 1 Nat.one_pos { col := col, temp := temp, trace := [] }]
          at hstable hsorted
        exact .of_stableTo hstable hsorted

end

/-- Both drivers are a stable sort by every total preorder: when they return true the elements are sorted and equal ones
in their old order, and otherwise the collection is untouched. -/
theorem csort_is_stable_sort (cmp : Elem → Elem → Int) (htotal : ∀ a b, cmp a b ≤ 0 ∨ cmp b a ≤ 0)
    (htrans : ∀ a b c, cmp a b ≤ 0 → cmp b c ≤ 0 → cmp a c ≤ 0) (col : Bytes) (length elemSize : Nat)
    (getter : ItemGetterProc) (hapart : Apart elemSize getter length) (procsOk : Bool) (malloc : Nat → Option Bytes) :
    SortsStably cmp elemSize getter length col
      (csortMergeSort (some col) length elemSize getter (fun _ => cmp) procsOk malloc) ∧
    SortsStably cmp elemSize (indexingGetter elemSize) length col
      (csortMergeSortContiguous (some col) length elemSize (fun _ => cmp) procsOk malloc) := by
  refine ⟨csortMergeSort_sortsStably htotal htrans hapart procsOk malloc, ?_⟩
  rw [csortMergeSortContiguous_same]
  exact csortMergeSort_sortsStably htotal htrans (apart_indexingGetter elemSize length) procsOk malloc

def byFirstByte (a b : Elem) : Int := ((a.headD 0).toNat : Int) - (b.headD 0).toNat

theorem csort_is_stable_sort_by_first_byte :
    SortsStably byFirstByte 2 (indexingGetter 2) 3 (fun a => [2, 0, 1, 1, 1, 2].getD a 0)
      (csortMergeSort (some fun a => [2, 0, 1, 1, 1, 2].getD a 0) 3 2 (indexingGetter 2) (fun _ => byFirstByte) true
        fun _ => some fun _ => 0) :=
  (csort_is_stable_sort byFirstByte (fun _ _ => by unfold byFirstByte; omega) (fun _ _ _ => by unfold byFirstByte; omega) _ 3 2
    (indexingGetter 2) (apart_indexingGetter 2 3) true fun _ => some fun _ => 0).1

/-! ## Index arithmetic -/

/-- No index computation of the sort wraps and no access leaves its bounds, for every length and element size that
`csort_check_sort_shape` lets through, and every loop ends within `length + 1` steps. `csort_mergesort_iterative` is
only called for the range from 0 on. -/
theorem csort_index_arithmetic_never_wraps (elemSize length : Nat) (hsize : 0 < elemSize) (hlength : length ≤ ccolMaxElemCount)
    (hbytes : length ≤ sizeMax / elemSize) (getter : ItemGetterProc) (cmp : ComparisonProc) (s : SortState) (fuel : Nat)
    (hfuel : length < fuel) (A : SizeArith) (hA : A = .wrapping ∨ A = .checked) :
    csortContiguousPassesIn A elemSize cmp fuel length s = some (csortContiguousPasses elemSize hsize cmp length s) ∧
    (0 < length → csortMergesortPassesIn A elemSize getter cmp fuel 0 (length - 1) s =
      some (mergePasses (csortMerge elemSize getter cmp) 0 (length - 1) length 1 Nat.one_pos s)) := by
  have hexact : A.Exact := by
    rcases hA with rfl | rfl
    · exact SizeArith.wrapping_exact
    · exact SizeArith.checked_exact
  refine ⟨csortContiguousPassesIn_eq hexact hsize cmp hlength hbytes fuel hfuel s, fun hpos => ?_⟩
  have hcount : length - 1 - 0 + 1 = length := by omega
  have hpasses := csortMergesortPassesIn_eq hexact hsize getter cmp (Nat.zero_le (length - 1)) (by rw [hcount]; exact hlength)
    (by rw [ccolMaxElemCount_eq] at hlength; rw [sizeMax_eq]; omega) (by rw [hcount]; exact hbytes) fuel (by omega) s
  simp only [hcount] at hpasses
  exact hpasses

def zeroState : SortState := { col := fun _ => 0, temp := fun _ => 0, trace := [] }

theorem csort_index_arithmetic_never_wraps_at_the_limit :
    csortContiguousPassesIn .checked 1 (fun _ _ _ => 0) (ccolMaxElemCount + 1) ccolMaxElemCount zeroState =
      some (csortContiguousPasses 1 Nat.one_pos (fun _ _ _ => 0) ccolMaxElemCount zeroState) :=
  (csort_index_arithmetic_never_wraps 1 ccolMaxElemCount Nat.one_pos (Nat.le_refl _) (by decide) (indexingGetter 1)
    (fun _ _ _ => 0) zeroState (ccolMaxElemCount + 1) (Nat.lt_succ_self _) .checked (.inr rfl)).1

end Ccollections.Csort
