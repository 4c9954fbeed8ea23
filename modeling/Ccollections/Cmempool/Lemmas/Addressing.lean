import Ccollections.Cmempool.Addressing
import Mathlib.Order.Bounds.Defs

/-!
# Strides, blocks and reciprocals
-/

namespace Ccollections.Cmempool

open List

variable {layout : Layout} {elemSize count stride m s i : Nat}

/-! ## Strides -/

/-- A multiple of the alignment that holds an element, and a power of two unless the layout is compact. -/
structure Admissible (layout : Layout) (elemSize stride : Nat) : Prop where
  pos : 0 < stride
  aligned : cmempoolEntryAlign ∣ stride
  holds : elemSize ≤ stride
  power : layout = .powerOfTwo → ∃ k, stride = 2 ^ k

theorem cmempoolAlignUp_eq {x : Nat} (h : cmempoolAlignUpFits x = true) : cmempoolAlignUp x = (x + 15) / 16 * 16 := by
  have hx : x ≤ sizeMax - 15 := of_decide_eq_true h
  have hmask : sizeMax - (cmempoolEntryAlign - 1) = (2 ^ 60 - 1) * 2 ^ 4 := by decide
  rw [cmempoolAlignUp, hmask, cmempoolEntryAlign, sizeAdd_eq (by rw [sizeMax_eq] at *; omega)]
  rw [sizeMax_eq] at hx
  generalize hy : x + (16 - 1) = y
  have hand : y &&& (2 ^ 60 - 1) * 2 ^ 4 = y / 2 ^ 4 % 2 ^ 60 * 2 ^ 4 := by
    rw [← Nat.and_two_pow_sub_one_eq_mod]
    apply Nat.eq_of_testBit_eq
    intro j
    simp only [Nat.testBit_and, Nat.testBit_mul_two_pow, Nat.testBit_div_two_pow]
    by_cases hj : 4 ≤ j
    · simp [hj]
    · simp [hj]
  rw [hand, Nat.mod_eq_of_lt (by omega : y / 2 ^ 4 < 2 ^ 60)]
  rfl

theorem mpStrideLoop_eq {base fuel k : Nat} (hfuel : fuel + k = 64) (hk : k ≤ 63) (hbase : k ≤ Nat.clog 2 base) :
    mpStrideLoop base fuel (2 ^ k) = if base ≤ 2 ^ 63 then 2 ^ Nat.clog 2 base else 0 := by
  induction fuel generalizing k with
  | zero => omega
  | succ fuel ih =>
    rw [mpStrideLoop]
    by_cases hlt : 2 ^ k < base
    · rw [if_pos hlt]
      have hnext : k + 1 ≤ Nat.clog 2 base := (Nat.lt_clog_iff_pow_lt (by omega)).mpr hlt
      by_cases hlast : k = 63
      · subst hlast
        rw [if_pos (by decide), if_neg (by omega)]
      · have hpow : 2 ^ k ≤ 2 ^ 62 := Nat.pow_le_pow_right (by omega) (by omega)
        rw [if_neg (by rw [sizeMax_eq]; omega), sizeMul_eq (by rw [sizeMax_eq]; omega), ← pow_succ]
        exact ih (by omega) (by omega) hnext
    · rw [if_neg hlt]
      have hclog : Nat.clog 2 base ≤ k := Nat.clog_le_of_le_pow (by omega)
      have heq : Nat.clog 2 base = k := Nat.le_antisymm hclog hbase
      have hpow : 2 ^ k ≤ 2 ^ 63 := Nat.pow_le_pow_right (by omega) hk
      rw [if_pos (by omega), heq]

def alignedSize (elemSize : Nat) : Nat := (max elemSize 8 + 15) / 16 * 16

theorem mpStrideFor_eq (layout : Layout) (elemSize : Nat) :
    mpStrideFor layout elemSize =
      if sizeMax - 15 < max elemSize 8 then 0
      else
        match layout with
        | .compact => alignedSize elemSize
        | .powerOfTwo => if alignedSize elemSize ≤ 2 ^ 63 then 2 ^ Nat.clog 2 (alignedSize elemSize) else 0 := by
  have hraise : (if elemSize < 8 then 8 else elemSize) = max elemSize 8 := by
    split_ifs <;> omega
  rw [mpStrideFor]
  dsimp only
  rw [hraise]
  by_cases hfits : cmempoolAlignUpFits (max elemSize 8) = true
  · have hle : max elemSize 8 ≤ sizeMax - 15 := of_decide_eq_true hfits
    rw [hfits, if_neg (by simp), if_neg (by omega), cmempoolAlignUp_eq hfits]
    cases layout with
    | compact => rfl
    | powerOfTwo => exact mpStrideLoop_eq (k := 0) rfl (by omega) (Nat.zero_le _)
  · have hlt : sizeMax - 15 < max elemSize 8 := by
      rw [cmempoolAlignUpFits, decide_eq_true_eq, Nat.not_le] at hfits
      exact hfits
    rw [Bool.not_eq_true] at hfits
    rw [hfits, if_pos (by simp), if_pos hlt]

theorem Admissible.alignedSize_le (h : Admissible layout elemSize stride) : alignedSize elemSize ≤ stride := by
  obtain ⟨q, rfl⟩ := h.aligned
  have hpos := h.pos
  have hholds := h.holds
  unfold cmempoolEntryAlign at hpos hholds ⊢
  unfold alignedSize
  omega

theorem admissible_aligned (h : 16 ∣ stride) (hle : alignedSize elemSize ≤ stride)
    (hpower : layout = .powerOfTwo → ∃ k, stride = 2 ^ k) : Admissible layout elemSize stride := by
  have hmax : max elemSize 8 ≤ alignedSize elemSize := by
    unfold alignedSize
    omega
  exact ⟨by omega, h, by omega, hpower⟩

theorem sixteen_dvd_pow {k : Nat} (h : 16 ≤ 2 ^ k) : 16 ∣ 2 ^ k := by
  have hk : 4 ≤ k := (Nat.pow_le_pow_iff_right (by omega : 1 < 2)).mp (by omega : 2 ^ 4 ≤ 2 ^ k)
  exact pow_dvd_pow 2 hk

/-- A stride is the least admissible one, and none is given exactly when none fits a `size_t`. -/
theorem mpStrideFor_spec (layout : Layout) (elemSize : Nat) :
    (mpStrideFor layout elemSize = 0 ∧ ∀ stride, Admissible layout elemSize stride → sizeMax < stride) ∨
      (IsLeast {stride | Admissible layout elemSize stride} (mpStrideFor layout elemSize) ∧
        mpStrideFor layout elemSize ≤ sizeMax) := by
  have haligned : 16 ∣ alignedSize elemSize := Nat.dvd_mul_left 16 _
  have hsmall : 16 ≤ alignedSize elemSize := by
    unfold alignedSize
    omega
  rw [mpStrideFor_eq]
  rw [sizeMax_eq] at *
  by_cases hfits : 18446744073709551615 - 15 < max elemSize 8
  · rw [if_pos hfits]
    apply Or.inl
    refine ⟨rfl, fun stride hstride => ?_⟩
    have hle := hstride.alignedSize_le
    unfold alignedSize at hle
    omega
  · rw [if_neg hfits]
    have hbound : alignedSize elemSize ≤ 18446744073709551600 := by
      unfold alignedSize
      omega
    cases layout with
    | compact =>
      apply Or.inr
      refine ⟨⟨admissible_aligned haligned le_rfl (fun hl => by cases hl), fun stride hstride => hstride.alignedSize_le⟩, ?_⟩
      dsimp only
      omega
    | powerOfTwo =>
      dsimp only
      split_ifs with hhalf
      · apply Or.inr
        have hle : alignedSize elemSize ≤ 2 ^ Nat.clog 2 (alignedSize elemSize) := Nat.le_pow_clog (by omega) _
        refine ⟨⟨admissible_aligned (sixteen_dvd_pow (hsmall.trans hle)) hle (fun _ => ⟨_, rfl⟩), ?_⟩, ?_⟩
        · intro stride hstride
          obtain ⟨k, rfl⟩ := hstride.power rfl
          exact Nat.pow_le_pow_right (by omega) (Nat.clog_le_of_le_pow hstride.alignedSize_le)
        · have hclog : Nat.clog 2 (alignedSize elemSize) ≤ 63 := Nat.clog_le_of_le_pow hhalf
          have hpow : 2 ^ Nat.clog 2 (alignedSize elemSize) ≤ 2 ^ 63 := Nat.pow_le_pow_right (by omega) hclog
          omega
      · apply Or.inl
        refine ⟨rfl, fun stride hstride => ?_⟩
        obtain ⟨k, rfl⟩ := hstride.power rfl
        have hle := hstride.alignedSize_le
        have hk : 63 < k := (Nat.pow_lt_pow_iff_right (by omega : 1 < 2)).mp (by omega : 2 ^ 63 < 2 ^ k)
        have hpow : 2 ^ 64 ≤ 2 ^ k := Nat.pow_le_pow_right (by omega) hk
        omega

theorem mpStrideFor_pos (h : mpStrideFor layout elemSize ≠ 0) :
    Admissible layout elemSize (mpStrideFor layout elemSize) ∧ mpStrideFor layout elemSize ≤ sizeMax := by
  rcases mpStrideFor_spec layout elemSize with ⟨hzero, -⟩ | ⟨hleast, hle⟩
  · exact absurd hzero h
  · exact ⟨hleast.1, hle⟩

theorem mpStrideFor_self (h : Admissible layout elemSize elemSize) (hsize : elemSize ≤ sizeMax) :
    mpStrideFor layout elemSize = elemSize := by
  rcases mpStrideFor_spec layout elemSize with ⟨-, hnone⟩ | ⟨hleast, -⟩
  · have := hnone elemSize h
    omega
  · exact Nat.le_antisymm (hleast.2 h) hleast.1.holds

/-! ## Blocks -/

theorem count_le_of_mpBlockBytes {bytes : Nat} (hstride : 0 < stride) (h : mpBlockBytes count stride = some bytes) :
    0 < count ∧ count * stride + count ≤ sizeMax := by
  rw [mpBlockBytes] at h
  split_ifs at h with hfail
  simp only [Bool.or_eq_true, decide_eq_true_eq, not_or, Nat.not_lt] at hfail
  have hpos : 0 < count := Nat.pos_of_ne_zero hfail.1
  have hmul : stride * count ≤ sizeMax - count := (Nat.le_div_iff_mul_le hpos).mp hfail.2
  have hprod : 0 < stride * count := Nat.mul_pos hstride hpos
  rw [Nat.mul_comm count stride]
  exact ⟨hpos, by omega⟩

theorem mpBlockBytes_some {bytes : Nat} (hstride : 0 < stride) (h : mpBlockBytes count stride = some bytes) :
    0 < count ∧ bytes = count * stride + count ∧ bytes ≤ sizeMax := by
  obtain ⟨hpos, hle⟩ := count_le_of_mpBlockBytes hstride h
  rw [mpBlockBytes] at h
  split_ifs at h
  have hprod : sizeMul count stride = count * stride := sizeMul_eq (by omega)
  rw [hprod, sizeAdd_eq hle] at h
  cases h
  exact ⟨hpos, rfl, hle⟩

theorem mpBlockBytes_none (hstride : 0 < stride) :
    mpBlockBytes count stride = none ↔ count = 0 ∨ sizeMax < count * stride + count := by
  rw [mpBlockBytes]
  by_cases hzero : count = 0
  · simp [hzero]
  · have hpos : 0 < count := Nat.pos_of_ne_zero hzero
    have hprod : 0 < stride * count := Nat.mul_pos hstride hpos
    have hdiv : stride > (sizeMax - count) / count ↔ sizeMax < count * stride + count := by
      rw [gt_iff_lt, Nat.div_lt_iff_lt_mul hpos, Nat.mul_comm count stride]
      omega
    simp [hzero, hdiv]

/-! ## Shifts -/

theorem mpLog2Loop_pow {k fuel r : Nat} (hr : r ≤ k) (hfuel : k ≤ fuel + r) : mpLog2Loop (2 ^ k) fuel r = k := by
  induction fuel generalizing r with
  | zero =>
    rw [mpLog2Loop]
    omega
  | succ fuel ih =>
    rw [mpLog2Loop]
    by_cases hlt : r < k
    · rw [if_pos (Nat.pow_lt_pow_right (by omega) hlt)]
      exact ih hlt (by omega)
    · have heq : r = k := by omega
      rw [if_neg (by rw [heq]; omega), heq]

theorem mpLog2Exact_pow {k : Nat} (h : 2 ^ k ≤ sizeMax) : mpLog2Exact (2 ^ k) = k := by
  have hk : k < 64 := (Nat.pow_lt_pow_iff_right (by omega : 1 < 2)).mp (by rw [sizeMax_eq] at h; omega : 2 ^ k < 2 ^ 64)
  exact mpLog2Loop_pow (Nat.zero_le _) (by omega)

/-! ## Reciprocals -/

theorem reciprocalAgreesAt_iff (h : i * stride ≤ sizeMax) :
    reciprocalAgreesAt stride m s i = true ↔
      Lib.mulShift 64 s m (i * stride) = i ∧ (i ≠ 0 → Lib.mulShift 64 s m (sizeSub (i * stride) 1) = i - 1) := by
  rw [reciprocalAgreesAt, sizeMul_eq h, Bool.and_eq_true, Bool.or_eq_true, beq_iff_eq, beq_iff_eq, beq_iff_eq, or_iff_not_imp_left]

theorem reciprocal_agrees_fits (hstride : 2 ≤ stride) (hsize : stride ≤ sizeMax) (hagree : ∀ i ≤ count, reciprocalAgreesAt stride m s i = true) :
    count * stride ≤ sizeMax := by
  induction count with
  | zero => simp
  | succ count ih =>
    have hprev : count * stride ≤ sizeMax := ih fun i hi => hagree i (by omega)
    by_contra hwrap
    have hsum : (count + 1) * stride = count * stride + stride := Nat.succ_mul count stride
    have hoffset : sizeMul (count + 1) stride ≤ count * stride := by
      unfold sizeMul
      rw [sizeMax_eq] at *
      omega
    have hlast := (reciprocalAgreesAt_iff hprev).mp (hagree count (by omega))
    have hthis := hagree (count + 1) le_rfl
    rw [reciprocalAgreesAt] at hthis
    simp only [Bool.and_eq_true, beq_iff_eq] at hthis
    have hmono := Lib.mulShift_mono 64 s m hoffset
    rw [hthis.1, hlast.1] at hmono
    omega

theorem mpBuildReciprocal_some {magic shift : Nat} (h : mpBuildReciprocal stride count = some (magic, shift)) :
    stride ≠ 0 ∧ count ≠ 0 ∧ magic = Lib.reciprocal 64 shift stride ∧ magic < 2 ^ 64 ∧ shift < 64 ∧
      ∀ i ≤ count, reciprocalAgreesAt stride magic shift i = true := by
  rw [mpBuildReciprocal] at h
  split_ifs at h with hzero
  simp only [Bool.or_eq_true, decide_eq_true_eq, not_or] at hzero
  obtain ⟨s, hs, hfound⟩ := exists_of_findSome?_eq_some h
  dsimp only at hfound
  split_ifs at hfound with hwide hall
  cases hfound
  rw [mem_range] at hs
  rw [ne_eq, not_not, Nat.shiftRight_eq_div_pow, Nat.div_eq_zero_iff] at hwide
  refine ⟨hzero.1, hzero.2, rfl, ?_, hs, ?_⟩
  · exact hwide.resolve_left (by decide)
  · intro i hi
    exact all_eq_true.mp hall i (mem_range.mpr (by omega))

theorem two_le_of_reciprocal (hstride : stride ≠ 0) (h : Lib.reciprocal 64 s stride < 2 ^ 64) : 2 ≤ stride := by
  by_contra hlt
  have hone : stride = 1 := by omega
  subst hone
  have hpow : 2 ^ 64 ≤ 2 ^ (64 + s) := Nat.pow_le_pow_right (by omega) (by omega)
  rw [Lib.reciprocal, Nat.div_one] at h
  omega

theorem mpBuildReciprocal_exact {magic shift : Nat} (hsize : stride ≤ sizeMax)
    (h : mpBuildReciprocal stride count = some (magic, shift)) :
    count * stride ≤ sizeMax ∧ ∀ off < count * stride, Lib.mulShift 64 shift magic off = off / stride := by
  obtain ⟨hstride, -, hmagic, hword, -, hagree⟩ := mpBuildReciprocal_some h
  have htwo : 2 ≤ stride := two_le_of_reciprocal hstride (hmagic ▸ hword)
  have hfits : count * stride ≤ sizeMax := reciprocal_agrees_fits htwo hsize hagree
  have hat : ∀ i ≤ count, i * stride ≤ sizeMax := fun i hi => (Nat.mul_le_mul_right stride hi).trans hfits
  refine ⟨hfits, fun off hoff => Lib.eq_div_of_agree (Lib.mulShift_mono 64 shift magic) (by omega) ?_ ?_ hoff⟩
  · intro i hi
    exact ((reciprocalAgreesAt_iff (hat i hi)).mp (hagree i hi)).1
  · intro i hi
    have hbelow := ((reciprocalAgreesAt_iff (hat (i + 1) hi)).mp (hagree (i + 1) hi)).2 (by omega)
    have hpos : 1 ≤ (i + 1) * stride := Nat.mul_pos (by omega) (by omega)
    rw [sizeSub_eq hpos (hat (i + 1) hi)] at hbelow
    exact hbelow

theorem mpBuildReciprocal_isSome (hstride : 2 ≤ stride) (hcount : count ≠ 0) (hbound : count * stride < 2 ^ 63) :
    (mpBuildReciprocal stride count).isSome = true := by
  have hle : stride ≤ count * stride := Nat.le_mul_of_pos_left stride (Nat.pos_of_ne_zero hcount)
  obtain ⟨s, hs, hword, hexact⟩ := Lib.reciprocal_exists (w := 63) hstride (by omega)
  have hagree : ∀ i ≤ count, reciprocalAgreesAt stride (Lib.reciprocal 64 s stride) s i = true := by
    intro i hi
    have hat : i * stride ≤ count * stride := Nat.mul_le_mul_right stride hi
    rw [reciprocalAgreesAt_iff (by rw [sizeMax_eq]; omega)]
    refine ⟨?_, fun hne => ?_⟩
    · rw [hexact _ (by omega), Nat.mul_div_cancel i (by omega)]
    · have hpos : 1 ≤ i * stride := Nat.mul_pos (Nat.pos_of_ne_zero hne) (by omega)
      rw [sizeSub_eq hpos (by rw [sizeMax_eq]; omega), hexact _ (by omega)]
      obtain ⟨j, rfl⟩ := Nat.exists_eq_succ_of_ne_zero hne
      have hsplit : (j + 1) * stride - 1 = stride - 1 + j * stride := by
        rw [Nat.succ_mul]
        omega
      rw [Nat.succ_eq_add_one, hsplit, Nat.add_mul_div_right _ _ (by omega), Nat.div_eq_of_lt (by omega)]
      omega
  rw [mpBuildReciprocal, if_neg (by simp; omega), List.findSome?_isSome_iff]
  refine ⟨s, mem_range.mpr (by omega), ?_⟩
  have hnarrow : Lib.reciprocal 64 s stride >>> 64 = 0 := by
    rw [Nat.shiftRight_eq_div_pow]
    exact Nat.div_eq_of_lt hword
  have hall : (List.range (count + 1)).all (reciprocalAgreesAt stride (Lib.reciprocal 64 s stride) s) = true := by
    rw [all_eq_true]
    intro i hi
    exact hagree i (Nat.lt_succ_iff.mp (mem_range.mp hi))
  dsimp only
  rw [if_neg (by rw [hnarrow]; simp), if_pos hall]
  rfl

end Ccollections.Cmempool
