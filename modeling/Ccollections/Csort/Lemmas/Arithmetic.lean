import Ccollections.Csort.Csort

/-!
# The sort never leaves its index type

Over an arithmetic that is exact where nothing wraps, the loops with fuel compute what the loops over the natural
numbers compute, and stay in their bounds.
-/

namespace Ccollections.Csort
open Lib Option

structure SizeArith.Exact (A : SizeArith) : Prop where
  add : ∀ {a b : Nat}, a + b ≤ sizeMax → A.add a b = some (a + b)
  sub : ∀ {a b : Nat}, b ≤ a → a ≤ sizeMax → A.sub a b = some (a - b)
  mul : ∀ {a b : Nat}, a * b ≤ sizeMax → A.mul a b = some (a * b)

theorem SizeArith.wrapping_exact : SizeArith.wrapping.Exact where
  add h := congrArg some (sizeAdd_eq h)
  sub h ha := congrArg some (sizeSub_eq h ha)
  mul h := congrArg some (sizeMul_eq h)

theorem exactly_eq {computed : Nat} {value : Int} (h : (computed : Int) = value) : exactly computed value = some computed :=
  if_pos h

theorem SizeArith.checked_exact : SizeArith.checked.Exact where
  add h := by
    simp only [checked, sizeAdd_eq h]
    exact exactly_eq (Int.natCast_add _ _)
  sub h ha := by
    simp only [checked, sizeSub_eq h ha]
    exact exactly_eq (Int.natCast_sub h)
  mul h := by
    simp only [checked, sizeMul_eq h]
    exact exactly_eq (Int.natCast_mul _ _)

section

variable {A : SizeArith} (hA : A.Exact) {bounds : SortBounds} {elemSize : Nat}

/-! ## Accesses in bounds -/

theorem SortBounds.elementAt_eq {getter : ItemGetterProc} {index : Nat} (hlow : bounds.low ≤ index) (hhigh : index ≤ bounds.high) :
    bounds.elementAt getter index = some (getter index) := if_pos ⟨hlow, hhigh⟩

theorem mul_le_of_lt {i n bytes : Nat} (hi : i < n) (hn : n * elemSize ≤ bytes) : i * elemSize + elemSize ≤ bytes := by
  rw [← Nat.succ_mul]
  exact Nat.le_trans (Nat.mul_le_mul_right elemSize hi) hn

theorem SortBounds.tempAt_eq {i n : Nat} (hi : i < n) (hn : n * elemSize ≤ bounds.tempBytes) :
    bounds.tempAt (i * elemSize) elemSize = some (i * elemSize) := if_pos (mul_le_of_lt hi hn)

theorem SortBounds.colAt_eq {i n : Nat} (hi : i < n) (hn : n * elemSize ≤ bounds.colBytes) :
    bounds.colAt (i * elemSize) elemSize = some (i * elemSize) := if_pos (mul_le_of_lt hi hn)

include hA

theorem tempOffset_eq {i n : Nat} (hi : i < n) (hn : n * elemSize ≤ bounds.tempBytes) (hmax : bounds.tempBytes ≤ sizeMax) :
    (A.mul i elemSize >>= fun offset => bounds.tempAt offset elemSize) = some (i * elemSize) := by
  have hle := mul_le_of_lt hi hn
  rw [hA.mul (by omega)]
  exact SortBounds.tempAt_eq hi hn

/-! ## `csort_merge` -/

section

variable {getter : ItemGetterProc}

theorem copyOutLoop_eq {col : Bytes} {first at_ n : Nat} {temp : Bytes} (hlow : bounds.low ≤ first)
    (hhigh : first + n ≤ bounds.high + 1) (hfirst : first + n ≤ sizeMax) (hat : at_ + n ≤ sizeMax)
    (htemp : (at_ + n) * elemSize ≤ bounds.tempBytes) (hmax : bounds.tempBytes ≤ sizeMax) (fuel i : Nat) (hi : i ≤ n)
    (hfuel : n - i < fuel) :
    copyOutLoop A bounds elemSize getter col first at_ n fuel i (copyOut elemSize getter col first at_ i temp) =
      some (copyOut elemSize getter col first at_ n temp) := by
  induction fuel generalizing i with
  | zero => omega
  | succ fuel ih =>
    rw [copyOutLoop]
    by_cases hin : i < n
    · have hoffset := tempOffset_eq hA (show at_ + i < at_ + n by omega) htemp hmax
      rw [if_pos hin, hA.add (by omega), hA.add (by omega), hA.add (by omega)]
      simp only [bind_eq_bind, bind_some] at hoffset ⊢
      rw [SortBounds.elementAt_eq (by omega) (by omega), bind_some, ← bind_assoc, hoffset, bind_some]
      exact ih (i + 1) hin (by omega)
    · obtain rfl : i = n := by omega
      rw [if_neg hin]

structure CursorIn (left n1 n2 : Nat) (c : MergeCursor) : Prop where
  i_le : c.i ≤ n1
  j_ge : n1 ≤ c.j
  j_le : c.j ≤ n1 + n2
  k_eq : c.k + n1 = left + c.i + c.j

omit hA in
theorem CursorIn.mergeLoop (cmp : ComparisonProc) (temp : Bytes) {left n1 n2 : Nat} (c : MergeCursor)
    (h : CursorIn left n1 n2 c) : CursorIn left n1 n2 (mergeLoop elemSize getter cmp temp n1 n2 c) := by
  obtain ⟨hi, hge, hle, hk⟩ := h
  rw [Csort.mergeLoop]
  by_cases hg : c.i < n1 ∧ c.j < n1 + n2
  · rw [if_pos hg]
    simp only
    split
    · exact CursorIn.mergeLoop cmp temp _ ⟨by simp only; omega, by simp only; omega, by simp only; omega, by simp only; omega⟩
    · exact CursorIn.mergeLoop cmp temp _ ⟨by simp only; omega, by simp only; omega, by simp only; omega, by simp only; omega⟩
  · rw [if_neg hg]
    exact ⟨hi, hge, hle, hk⟩
termination_by (n1 - c.i) + (n1 + n2 - c.j)

theorem mergeLoopIn_eq (cmp : ComparisonProc) (temp : Bytes) {left n1 n2 : Nat} (hlow : bounds.low ≤ left)
    (hhigh : left + n1 + n2 ≤ bounds.high + 1) (hleft : left + n1 + n2 ≤ sizeMax)
    (htemp : (n1 + n2) * elemSize ≤ bounds.tempBytes) (hmax : bounds.tempBytes ≤ sizeMax) (fuel : Nat) (c : MergeCursor)
    (hc : CursorIn left n1 n2 c) (hfuel : (n1 - c.i) + (n1 + n2 - c.j) < fuel) :
    mergeLoopIn A bounds elemSize getter cmp temp n1 (n1 + n2) fuel c = some (mergeLoop elemSize getter cmp temp n1 n2 c) := by
  induction fuel generalizing c with
  | zero => omega
  | succ fuel ih =>
    obtain ⟨hi, hge, hle, hk⟩ := hc
    rw [mergeLoopIn, mergeLoop]
    by_cases hg : c.i < n1 ∧ c.j < n1 + n2
    · have hI := tempOffset_eq hA (show c.i < n1 + n2 by omega) htemp hmax
      have hJ := tempOffset_eq hA hg.2 htemp hmax
      rw [if_pos hg, if_pos hg, hA.add (show c.i + 1 ≤ sizeMax by omega), hA.add (show c.j + 1 ≤ sizeMax by omega),
        hA.add (show c.k + 1 ≤ sizeMax by omega), SortBounds.elementAt_eq (by omega) (by omega)]
      simp only [bind_eq_bind, bind_some] at hI hJ ⊢
      rw [← bind_assoc, hI, bind_some, ← bind_assoc, hJ, bind_some]
      split
      · exact ih _ ⟨by simp only; omega, by simp only; omega, by simp only; omega, by simp only; omega⟩ (by simp only; omega)
      · exact ih _ ⟨by simp only; omega, by simp only; omega, by simp only; omega, by simp only; omega⟩ (by simp only; omega)
    · rw [if_neg hg, if_neg hg]

theorem copyBackLoop_eq (getter : ItemGetterProc) (temp : Bytes) (src k n : Nat) (col : Bytes) (hlow : bounds.low ≤ k)
    (hhigh : k + n ≤ bounds.high + 1) (hk : k + n ≤ sizeMax) (hsrc : src + n ≤ sizeMax)
    (htemp : (src + n) * elemSize ≤ bounds.tempBytes) (hmax : bounds.tempBytes ≤ sizeMax) (fuel m : Nat) (hm : m ≤ n)
    (hfuel : n - m < fuel) :
    copyBackLoop A bounds elemSize getter temp (src + n) fuel (src + m) (k + m) (copyBack elemSize getter temp src k m col) =
      some (k + n, copyBack elemSize getter temp src k n col) := by
  induction fuel generalizing m with
  | zero => omega
  | succ fuel ih =>
    rw [copyBackLoop]
    by_cases hmn : m < n
    · have hoffset := tempOffset_eq hA (show src + m < src + n by omega) htemp hmax
      rw [if_pos (by omega), hA.add (by omega), hA.add (by omega), SortBounds.elementAt_eq (by omega) (by omega)]
      simp only [bind_eq_bind, bind_some] at hoffset ⊢
      rw [← bind_assoc, hoffset, bind_some]
      exact ih (m + 1) hmn (by omega)
    · obtain rfl : m = n := by omega
      rw [if_neg (by omega)]

theorem csortMergeIn_eq (cmp : ComparisonProc) {left mid right : Nat} (hlow : bounds.low ≤ left) (hmid : left ≤ mid)
    (hright : mid < right) (hhigh : right ≤ bounds.high) (hsize : right < sizeMax)
    (htemp : (right - left + 1) * elemSize ≤ bounds.tempBytes) (hmax : bounds.tempBytes ≤ sizeMax) (fuel : Nat)
    (hfuel : right - left + 1 < fuel) (s : SortState) :
    csortMergeIn A bounds elemSize getter cmp fuel left mid right s =
      some (csortMerge elemSize getter cmp left mid right s) := by
  -- The sizes of the two runs.
  obtain ⟨n1, hn1⟩ : ∃ n1, n1 = mid - left + 1 := ⟨_, rfl⟩
  obtain ⟨n2, hn2⟩ : ∃ n2, n2 = right - mid := ⟨_, rfl⟩
  have hn : right - left + 1 = n1 + n2 := by omega
  rw [hn] at htemp hfuel
  have hbuf : ∀ n ≤ n1 + n2, n * elemSize ≤ bounds.tempBytes :=
    fun n hle => Nat.le_trans (Nat.mul_le_mul_right elemSize hle) htemp
  have hleftRun : ∀ temp, copyOutLoop A bounds elemSize getter s.col left 0 n1 fuel 0 temp =
      some (copyOut elemSize getter s.col left 0 n1 temp) := fun temp =>
    copyOutLoop_eq hA hlow (by omega) (by omega) (by omega) (hbuf _ (by omega)) hmax fuel 0 (Nat.zero_le _) (by omega)
  have hrightRun : ∀ temp, copyOutLoop A bounds elemSize getter s.col (mid + 1) n1 n2 fuel 0 temp =
      some (copyOut elemSize getter s.col (mid + 1) n1 n2 temp) := fun temp =>
    copyOutLoop_eq hA (by omega) (by omega) (by omega) (by omega) (hbuf _ (by omega)) hmax fuel 0 (Nat.zero_le _) (by omega)
  have hloop : ∀ temp, mergeLoopIn A bounds elemSize getter cmp temp n1 (n1 + n2) fuel
      { i := 0, j := n1, k := left, col := s.col, trace := s.trace } =
      some (mergeLoop elemSize getter cmp temp n1 n2 { i := 0, j := n1, k := left, col := s.col, trace := s.trace }) :=
    fun temp => mergeLoopIn_eq hA cmp temp hlow (by omega) (by omega) htemp hmax fuel _
      ⟨Nat.zero_le _, Nat.le_refl _, Nat.le_add_right _ _, rfl⟩ (by simp only; omega)
  simp only [csortMergeIn, csortMerge, bind_eq_bind, hA.sub hmid (by omega), bind_some, ← hn2,
    hA.add (show mid - left + 1 ≤ sizeMax by omega), ← hn1, hA.sub (Nat.le_of_lt hright) (by omega), hleftRun,
    hA.add (show mid + 1 ≤ sizeMax by omega), hrightRun, hA.add (show n1 + n2 ≤ sizeMax by omega), hloop]
  generalize copyOut elemSize getter s.col (mid + 1) n1 n2 (copyOut elemSize getter s.col left 0 n1 s.temp) = temp
  have hc : CursorIn left n1 n2 (mergeLoop elemSize getter cmp temp n1 n2
      { i := 0, j := n1, k := left, col := s.col, trace := s.trace }) :=
    .mergeLoop cmp temp _ ⟨Nat.zero_le _, Nat.le_refl _, Nat.le_add_right _ _, rfl⟩
  generalize mergeLoop elemSize getter cmp temp n1 n2 { i := 0, j := n1, k := left, col := s.col, trace := s.trace } = c at hc
  obtain ⟨hi, hge, hle, hk⟩ := hc
  -- The rest of the left run, then the rest of the right run.
  have hleftTail := copyBackLoop_eq hA getter temp c.i c.k (n1 - c.i) c.col (by omega) (by omega) (by omega) (by omega) (hbuf _ (by omega)) hmax fuel 0 (Nat.zero_le _) (by omega)
  have hrightTail := copyBackLoop_eq hA getter temp c.j (c.k + (n1 - c.i)) (n1 + n2 - c.j)
    (copyBack elemSize getter temp c.i c.k (n1 - c.i) c.col) (by omega) (by omega) (by omega) (by omega) (hbuf _ (by omega)) hmax fuel 0 (Nat.zero_le _) (by omega)
  rw [Nat.add_sub_cancel' hi] at hleftTail
  rw [Nat.add_sub_cancel' hle] at hrightTail
  simp only [Nat.add_zero, copyBack] at hleftTail hrightTail
  rw [hleftTail, bind_some]
  simp only [hrightTail, bind_some]

end

/-! ## `csort_merge_contiguous` -/

structure AtElements (elemSize left n1 n2 : Nat) (c : ContiguousCursor) (i j : Nat) : Prop where
  l : c.l = i * elemSize
  r : c.r = (left + j) * elemSize
  out : c.out = (left + i + j - n1) * elemSize
  i_le : i ≤ n1
  j_ge : n1 ≤ j
  j_le : j ≤ n1 + n2

theorem mergeContiguousLoopIn_eq (hsize : 0 < elemSize) (cmp : ComparisonProc) (temp : Bytes) {left n1 n2 : Nat}
    (hcol : (left + n1 + n2) * elemSize ≤ bounds.colBytes) (hcolMax : bounds.colBytes ≤ sizeMax)
    (htemp : n1 * elemSize ≤ bounds.tempBytes) (hmax : bounds.tempBytes ≤ sizeMax) (fuel : Nat) (c : ContiguousCursor)
    {i j : Nat} (hc : AtElements elemSize left n1 n2 c i j) (hfuel : (n1 - i) + (n1 + n2 - j) < fuel) :
    mergeContiguousLoopIn A bounds elemSize cmp temp (n1 * elemSize) ((left + n1 + n2) * elemSize) fuel c =
        some (mergeContiguousLoop elemSize hsize cmp temp (n1 * elemSize) ((left + n1 + n2) * elemSize) c) ∧
      ∃ i' j', AtElements elemSize left n1 n2
        (mergeContiguousLoop elemSize hsize cmp temp (n1 * elemSize) ((left + n1 + n2) * elemSize) c) i' j' := by
  induction fuel generalizing c i j with
  | zero => omega
  | succ fuel ih =>
    rw [mergeContiguousLoopIn, mergeContiguousLoop]
    obtain ⟨hl, hr, hout, hi, hge, hle⟩ := hc
    by_cases hg : c.l < n1 * elemSize ∧ c.r < (left + n1 + n2) * elemSize
    · have hin : i < n1 := Nat.lt_of_mul_lt_mul_right (by rw [← hl]; exact hg.1)
      have hjn : left + j < left + n1 + n2 := Nat.lt_of_mul_lt_mul_right (by rw [← hr]; exact hg.2)
      have hadd := mul_le_of_lt hin htemp
      have hradd := mul_le_of_lt hjn hcol
      have houtadd := mul_le_of_lt (show left + i + j - n1 < left + n1 + n2 by omega) hcol
      have hnext : ∀ a, (a + 1) * elemSize = a * elemSize + elemSize := fun a => Nat.succ_mul a elemSize
      rw [if_pos hg, if_pos hg, hl, hr, hout, SortBounds.tempAt_eq hin htemp, SortBounds.colAt_eq hjn hcol,
        SortBounds.colAt_eq (show left + i + j - n1 < left + n1 + n2 by omega) hcol, hA.add (by omega), hA.add (by omega),
        hA.add (by omega)]
      simp only [bind_eq_bind, bind_some]
      split
      · exact ih _ (i := i + 1) (j := j)
          { l := (hnext i).symm
            r := rfl
            out := (hnext _).symm.trans (congrArg (· * elemSize) (by omega))
            i_le := hin
            j_ge := hge
            j_le := hle } (by omega)
      · exact ih _ (i := i) (j := j + 1)
          { l := rfl
            r := (hnext _).symm
            out := (hnext _).symm.trans (congrArg (· * elemSize) (by omega))
            i_le := hi
            j_ge := by omega
            j_le := by omega } (by omega)
    · rw [if_neg hg, if_neg hg]
      exact ⟨rfl, i, j, hl, hr, hout, hi, hge, hle⟩

theorem csortMergeContiguousIn_eq (hsize : 0 < elemSize) (cmp : ComparisonProc) {left mid right : Nat} (hmid : left ≤ mid)
    (hright : mid < right) (hcol : (right + 1) * elemSize ≤ bounds.colBytes) (hcolMax : bounds.colBytes ≤ sizeMax)
    (htemp : (mid - left + 1) * elemSize ≤ bounds.tempBytes) (hmax : bounds.tempBytes ≤ sizeMax) (fuel : Nat)
    (hfuel : right - left + 1 < fuel) (s : SortState) :
    csortMergeContiguousIn A bounds elemSize cmp fuel left mid right s =
      some (csortMergeContiguous elemSize hsize cmp left mid right s) := by
  obtain ⟨n1, hn1⟩ : ∃ n1, n1 = mid - left + 1 := ⟨_, rfl⟩
  obtain ⟨n2, hn2⟩ : ∃ n2, n2 = right - mid := ⟨_, rfl⟩
  rw [← hn1] at htemp
  have hend : right + 1 = left + n1 + n2 := by omega
  have hr : mid + 1 = left + n1 := by omega
  rw [hend] at hcol
  have hbuf : ∀ n ≤ left + n1 + n2, n * elemSize ≤ bounds.colBytes :=
    fun n hle => Nat.le_trans (Nat.mul_le_mul_right elemSize hle) hcol
  -- An index is no larger than its offset.
  have hindex : left + n1 + n2 ≤ (left + n1 + n2) * elemSize := Nat.le_mul_of_pos_right _ hsize
  have hleftEnd := hbuf (left + n1) (by omega)
  have hrun : left * elemSize + n1 * elemSize ≤ bounds.colBytes := by rw [← Nat.add_mul]; exact hleftEnd
  have hstart : AtElements elemSize left n1 n2
      { l := 0, r := (left + n1) * elemSize, out := left * elemSize, col := s.col, trace := s.trace } 0 n1 :=
    { l := (Nat.zero_mul _).symm
      r := rfl
      out := congrArg (· * elemSize) (by omega)
      i_le := Nat.zero_le _
      j_ge := Nat.le_refl _
      j_le := Nat.le_add_right _ _ }
  obtain ⟨hloop, i, j, hc⟩ := mergeContiguousLoopIn_eq hA hsize cmp (copyBytes s.temp 0 s.col (left * elemSize) (n1 * elemSize))
    hcol hcolMax htemp hmax fuel _ hstart (by omega)
  simp only [csortMergeContiguousIn, csortMergeContiguous, bind_eq_bind, hA.sub hmid (by omega), bind_some,
    hA.add (show mid - left + 1 ≤ sizeMax by omega), ← hn1, hA.mul (show n1 * elemSize ≤ sizeMax by omega),
    hA.mul (show left * elemSize ≤ sizeMax by omega), hA.add (show mid + 1 ≤ sizeMax by omega),
    hA.add (show right + 1 ≤ sizeMax by omega), hend, hr, hA.mul (show (left + n1) * elemSize ≤ sizeMax by omega),
    hA.mul (show (left + n1 + n2) * elemSize ≤ sizeMax by omega), SortBounds.colAt, SortBounds.tempAt, if_pos hrun,
    Nat.zero_add, if_pos htemp, hloop]
  generalize mergeContiguousLoop elemSize hsize cmp (copyBytes s.temp 0 s.col (left * elemSize) (n1 * elemSize))
    (n1 * elemSize) ((left + n1 + n2) * elemSize)
    { l := 0, r := (left + n1) * elemSize, out := left * elemSize, col := s.col, trace := s.trace } = c at hc
  by_cases hrest : c.l < n1 * elemSize
  · -- What is left of the left run goes to the elements from `c.out` on.
    have hsum : c.out + (n1 * elemSize - c.l) ≤ (left + n1 + n2) * elemSize := by
      rw [hc.out, hc.l, ← Nat.sub_mul, ← Nat.add_mul]
      have := hc.i_le
      have := hc.j_ge
      have := hc.j_le
      exact Nat.mul_le_mul_right elemSize (by omega)
    rw [if_pos hrest, if_pos hrest, hA.sub (Nat.le_of_lt hrest) (by omega)]
    simp only [bind_some]
    rw [if_pos (by omega), if_pos (by omega)]
    rfl
  · rw [if_neg hrest, if_neg hrest]

/-! ## The passes -/

section

variable {mergeIn : Nat → Nat → Nat → SortState → Option SortState} {merge : Nat → Nat → Nat → SortState → SortState}
variable {low high : Nat}
variable (hmerge : ∀ left mid right s, low ≤ left → left ≤ mid → mid < right → right ≤ high →
  mergeIn left mid right s = some (merge left mid right s))

include hmerge

theorem mergePassIn_eq {currSize : Nat} (hcurr : 0 < currSize) (hmax : high + currSize ≤ sizeMax)
    (hdouble : 2 * currSize ≤ sizeMax) (fuel leftStart : Nat) (hlow : low ≤ leftStart) (hfuel : high + 1 - leftStart < fuel)
    (s : SortState) :
    mergePassIn A mergeIn high currSize fuel leftStart s = some (mergePass merge high currSize hcurr leftStart s) := by
  induction fuel generalizing leftStart s with
  | zero => omega
  | succ fuel ih =>
    rw [mergePassIn, mergePass]
    by_cases hstart : leftStart ≤ high
    · rw [if_pos hstart, if_pos hstart, hA.add (by omega), bind_eq_bind, bind_some, hA.sub (by omega) (by omega)]
      simp only [bind_some]
      by_cases hmid : leftStart + currSize - 1 ≥ high
      · rw [if_pos hmid, if_pos hmid]
      · have hnext : leftStart + 2 * currSize ≤ sizeMax := by omega
        have hend : ∀ e, e = (if leftStart + 2 * currSize - 1 > high then high else leftStart + 2 * currSize - 1) →
            leftStart + currSize - 1 < e ∧ e ≤ high := by
          intro e he
          rw [he]
          split <;> omega
        obtain ⟨hlt, hle⟩ := hend _ rfl
        rw [if_neg hmid, if_neg hmid, hA.mul hdouble]
        simp only [bind_eq_bind, bind_some, hA.add hnext, hA.sub (show 1 ≤ leftStart + 2 * currSize by omega) hnext,
          hmerge leftStart _ _ s hlow (by omega) hlt hle]
        exact ih (leftStart + 2 * currSize) (by omega) (by omega) _
    · rw [if_neg hstart, if_neg hstart]

theorem mergePassesIn_eq {length inner : Nat} (hlength : length ≤ ccolMaxElemCount) (hmax : high + length ≤ sizeMax + 1)
    (hinner : high + 1 - low < inner) (fuel currSize : Nat) (hcurr : 0 < currSize) (hfuel : length - currSize < fuel)
    (s : SortState) :
    mergePassesIn A mergeIn low high length inner fuel currSize s =
      some (mergePasses merge low high length currSize hcurr s) := by
  induction fuel generalizing currSize s with
  | zero => omega
  | succ fuel ih =>
    rw [mergePassesIn, mergePasses]
    by_cases hlt : currSize < length
    · rw [ccolMaxElemCount_eq] at hlength
      have hdouble : 2 * currSize ≤ sizeMax := by
        rw [sizeMax_eq]
        omega
      rw [if_pos hlt, if_pos hlt,
        mergePassIn_eq hA hmerge hcurr (by omega) hdouble inner low (Nat.le_refl _) hinner s, bind_eq_bind,
        bind_some, hA.mul (by omega)]
      exact ih (currSize * 2) (by omega) (by omega) _
    · rw [if_neg hlt, if_neg hlt]

end

/-! ## The drivers -/

theorem csortContiguousPassesIn_eq (hsize : 0 < elemSize) (cmp : ComparisonProc) {length : Nat}
    (hlength : length ≤ ccolMaxElemCount) (hbytes : length ≤ sizeMax / elemSize) (fuel : Nat) (hfuel : length < fuel)
    (s : SortState) :
    csortContiguousPassesIn A elemSize cmp fuel length s = some (csortContiguousPasses elemSize hsize cmp length s) := by
  have hmul : length * elemSize ≤ sizeMax := (Nat.le_div_iff_mul_le hsize).mp hbytes
  rw [ccolMaxElemCount_eq] at hlength
  rcases Nat.eq_zero_or_pos length with rfl | hpos
  · -- Neither outer loop runs.
    obtain ⟨fuel, rfl⟩ : ∃ n, fuel = n + 1 := ⟨fuel - 1, by omega⟩
    rw [csortContiguousPassesIn, csortContiguousPasses, mergePassesIn, mergePasses]
    rfl
  · have hsub : sizeSub length 1 = length - 1 := sizeSub_eq hpos (by rw [sizeMax_eq]; omega)
    rw [csortContiguousPassesIn, csortContiguousPasses, hsub]
    apply mergePassesIn_eq hA
    · intro left mid right s' _ hmid hright hhigh
      apply csortMergeContiguousIn_eq hA hsize cmp hmid hright
      · exact Nat.mul_le_mul_right elemSize (by omega)
      · exact hmul
      · exact Nat.mul_le_mul_right elemSize (by omega)
      · exact hmul
      · omega
    · rw [ccolMaxElemCount_eq]
      exact hlength
    · rw [sizeMax_eq]
      omega
    · omega
    · omega

theorem csortMergesortPassesIn_eq (hsize : 0 < elemSize) (getter : ItemGetterProc) (cmp : ComparisonProc) {low high : Nat}
    (hrange : low ≤ high) (hlength : high - low + 1 ≤ ccolMaxElemCount) (hmax : high + (high - low + 1) ≤ sizeMax + 1)
    (hbytes : high - low + 1 ≤ sizeMax / elemSize) (fuel : Nat) (hfuel : high - low + 1 < fuel) (s : SortState) :
    csortMergesortPassesIn A elemSize getter cmp fuel low high s =
      some (mergePasses (csortMerge elemSize getter cmp) low high (high - low + 1) 1 Nat.one_pos s) := by
  have hmul : (high - low + 1) * elemSize ≤ sizeMax := (Nat.le_div_iff_mul_le hsize).mp hbytes
  simp only [csortMergesortPassesIn, hA.sub hrange (by omega), bind_eq_bind, bind_some,
    hA.add (show high - low + 1 ≤ sizeMax by rw [ccolMaxElemCount_eq] at hlength; rw [sizeMax_eq]; omega), hA.mul hmul]
  apply mergePassesIn_eq hA
  · intro left mid right s' hlow hmid hright hhigh
    apply csortMergeIn_eq hA cmp hlow hmid hright hhigh
    · omega
    · exact Nat.mul_le_mul_right elemSize (by omega)
    · exact hmul
    · omega
  · exact hlength
  · exact hmax
  · omega
  · omega

end

end Ccollections.Csort
