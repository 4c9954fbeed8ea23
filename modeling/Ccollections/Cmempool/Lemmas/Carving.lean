import Ccollections.Cmempool.Lemmas.Blocks

/-!
# The segments of a ranged pool
-/

namespace Ccollections.Cmempool

variable {layout : Layout} {tiers esize ecount k : Nat}

def segmentSize (esize ecount : Nat) : Nat := ecount * esize + (ecount + 15) / 16 * 16

def segmentsSize : Nat → Nat → Nat → Nat
  | 0, _, _ => 0
  | tiers + 1, esize, ecount => segmentSize esize ecount + segmentsSize tiers (esize * 2) (ecount / 2)

/-- The tiers of a ranged pool have powers of two as sizes, all of which fit, and entries in every tier. -/
structure Tiers (k tiers ecount : Nat) : Prop where
  aligned : 4 ≤ k
  top : k + tiers ≤ 64
  entries : tiers ≠ 0 → 2 ^ (tiers - 1) ≤ ecount

theorem Tiers.tail (h : Tiers k (tiers + 1) ecount) : Tiers (k + 1) tiers (ecount / 2) := by
  have haligned := h.aligned
  have htop := h.top
  refine ⟨by omega, by omega, fun hne => ?_⟩
  obtain ⟨n, rfl⟩ := Nat.exists_eq_succ_of_ne_zero hne
  have hpow : 2 ^ (n + 1) ≤ ecount := h.entries (by omega)
  rw [pow_succ] at hpow
  rw [Nat.succ_eq_add_one, Nat.add_sub_cancel]
  omega

theorem Tiers.ecount_pos (h : Tiers k (tiers + 1) ecount) : 0 < ecount :=
  (Nat.two_pow_pos _).trans_le (h.entries (by omega))

theorem Tiers.stride (h : Tiers k (tiers + 1) ecount) (layout : Layout) :
    mpStrideFor layout (2 ^ k) = 2 ^ k ∧ 16 ≤ 2 ^ k ∧ 2 ^ k ≤ 2 ^ 63 := by
  have htop := h.top
  have hlow : 2 ^ 4 ≤ 2 ^ k := Nat.pow_le_pow_right (by omega) h.aligned
  have hhigh : 2 ^ k ≤ 2 ^ 63 := Nat.pow_le_pow_right (by omega) (by omega)
  have hadmissible : Admissible layout (2 ^ k) (2 ^ k) :=
    ⟨by omega, sixteen_dvd_pow (by omega), le_rfl, fun _ => ⟨k, rfl⟩⟩
  exact ⟨mpStrideFor_self hadmissible (by rw [sizeMax_eq]; omega), by omega, hhigh⟩

theorem Tiers.next (h : Tiers k (tiers + 1) ecount) (hne : tiers ≠ 0) : sizeMul (2 ^ k) 2 = 2 ^ (k + 1) := by
  have htop := h.top
  have hpow : 2 ^ (k + 1) ≤ 2 ^ 63 := Nat.pow_le_pow_right (by omega) (by omega)
  rw [sizeMul_eq (by rw [← pow_succ, sizeMax_eq]; omega), pow_succ]

theorem segment_term (h : Tiers k (tiers + 1) ecount) (hfits : segmentSize (2 ^ k) ecount ≤ sizeMax) :
    cmempoolAlignUpFits ecount = true ∧
      sizeAdd (sizeMul ecount (2 ^ k)) ((ecount + 15) / 16 * 16) = segmentSize (2 ^ k) ecount := by
  obtain ⟨-, hlow, -⟩ := h.stride .compact
  unfold segmentSize at hfits ⊢
  have hpos := h.ecount_pos
  have hmul : ecount * 16 ≤ ecount * 2 ^ k := Nat.mul_le_mul_left ecount hlow
  constructor
  · apply decide_eq_true
    unfold cmempoolEntryAlign
    rw [sizeMax_eq] at *
    omega
  · rw [sizeMul_eq (by omega), sizeAdd_eq hfits]

theorem expectedSizeLoop_some (h : Tiers k tiers ecount) {sum expected : Nat} (hsum : sum ≤ sizeMax)
    (hloop : expectedSizeLoop layout tiers (2 ^ k) ecount sum = some expected) :
    expected = sum + segmentsSize tiers (2 ^ k) ecount ∧ expected ≤ sizeMax := by
  induction tiers generalizing k ecount sum with
  | zero =>
    cases hloop
    exact ⟨rfl, hsum⟩
  | succ tiers ih =>
    obtain ⟨hstride, hlow, -⟩ := h.stride layout
    rw [expectedSizeLoop, hstride] at hloop
    dsimp only at hloop
    rw [if_neg (by omega)] at hloop
    split at hloop
    · cases hloop
    next hfits =>
    rw [Bool.not_eq_true', Bool.not_eq_false] at hfits
    rw [cmempoolAlignUp_eq hfits] at hloop
    split at hloop
    · cases hloop
    next hmul =>
    split at hloop
    · cases hloop
    next hadd =>
    have hpos := h.ecount_pos
    have hlimit : ecount ≤ sizeMax - 15 := of_decide_eq_true hfits
    have hstatus : (ecount + 15) / 16 * 16 ≤ sizeMax := by
      rw [sizeMax_eq] at *
      omega
    have hprod : 2 ^ k * ecount ≤ sizeMax - (ecount + 15) / 16 * 16 := by
      rw [← Nat.le_div_iff_mul_le hpos]
      simp only [Bool.and_eq_true, decide_eq_true_eq, not_and, Nat.not_lt, gt_iff_lt] at hmul
      exact hmul (by omega)
    rw [Nat.mul_comm] at hprod
    have hterm : sizeAdd (sizeMul ecount (2 ^ k)) ((ecount + 15) / 16 * 16) = segmentSize (2 ^ k) ecount := by
      rw [sizeMul_eq (by omega), sizeAdd_eq (by omega), segmentSize]
    rw [hterm] at hloop hadd
    have hsegment : segmentSize (2 ^ k) ecount ≤ sizeMax := by
      unfold segmentSize
      omega
    rw [sizeAdd_eq (by omega)] at hloop
    rw [segmentsSize, ← Nat.add_assoc]
    cases tiers with
    | zero =>
      cases hloop
      exact ⟨rfl, by omega⟩
    | succ tiers =>
      rw [h.next (by omega)] at hloop
      rw [← pow_succ]
      exact ih h.tail (by omega) hloop

theorem expectedSizeLoop_eq (h : Tiers k tiers ecount) {sum : Nat} (hfits : sum + segmentsSize tiers (2 ^ k) ecount ≤ sizeMax) :
    expectedSizeLoop layout tiers (2 ^ k) ecount sum = some (sum + segmentsSize tiers (2 ^ k) ecount) := by
  induction tiers generalizing k ecount sum with
  | zero => rfl
  | succ tiers ih =>
    obtain ⟨hstride, hlow, -⟩ := h.stride layout
    rw [segmentsSize] at hfits ⊢
    have hsegment : segmentSize (2 ^ k) ecount ≤ sizeMax := by omega
    obtain ⟨halign, hterm⟩ := segment_term h hsegment
    have hpos := h.ecount_pos
    have hwide : ¬2 ^ k > (sizeMax - (ecount + 15) / 16 * 16) / ecount := by
      rw [gt_iff_lt, Nat.not_lt, Nat.le_div_iff_mul_le hpos, Nat.mul_comm]
      unfold segmentSize at hsegment
      omega
    rw [expectedSizeLoop, hstride, if_neg (by omega), cmempoolAlignUp_eq halign, halign]
    simp only [hwide, Bool.not_true, Bool.false_eq_true, ↓reduceIte, decide_false, Bool.and_false]
    rw [hterm, if_neg (by omega), sizeAdd_eq (by omega), ← Nat.add_assoc]
    cases tiers with
    | zero => rfl
    | succ tiers =>
      rw [h.next (by omega), ← pow_succ]
      exact ih h.tail (by rw [← pow_succ] at hfits; omega)

theorem segment_elemCount (hsize : 16 ≤ esize) : segmentSize esize ecount / (esize + 1) = ecount := by
  have hlow : ecount * (esize + 1) = ecount * esize + ecount := Nat.mul_succ ecount esize
  have hhigh : (ecount + 1) * (esize + 1) = ecount * esize + ecount + (esize + 1) := by ring
  unfold segmentSize
  apply Nat.div_eq_of_lt_le
  · omega
  · omega

theorem subBufferSize_eq (h : Tiers k (tiers + 1) ecount) (hfits : segmentSize (2 ^ k) ecount ≤ sizeMax) :
    subBufferSize layout (2 ^ k) ecount = segmentSize (2 ^ k) ecount := by
  obtain ⟨hstride, -, -⟩ := h.stride layout
  obtain ⟨halign, hterm⟩ := segment_term h hfits
  rw [subBufferSize, hstride, cmempoolAlignUp_eq halign, hterm]

section
variable {env : Nat → PoolSurroundings} {shape : RangedShape} {buffer index cumulative : Nat} {mps : List PoolBlock}

structure InSegment (layout : Layout) (shape : RangedShape) (esize ecount start : Nat) (mp : PoolBlock) : Prop where
  built : mp.Built layout esize ecount ⟨0, 0, 0⟩ (!shape.shouldUseLocks)
  stride : mp.extendedElemSize = esize
  count : mp.totalElemCount = ecount
  start_eq : mp.lowerAddrLimit = start
  inside : mp.upperAddrLimit + mp.totalElemCount ≤ start + segmentSize esize ecount
  fallback : mp.fallbackToDynamicMemory = (shape.fbPolicy == .atFirstExhaustion)

theorem carveLoop_ok (h : Tiers k tiers ecount) (hsize : cumulative + segmentsSize tiers (2 ^ k) ecount ≤ sizeMax)
    (hbuffer : buffer + (cumulative + segmentsSize tiers (2 ^ k) ecount) ≤ 2 ^ 64)
    (hcarve : carveLoop layout env shape buffer tiers index (2 ^ k) ecount cumulative = .ok mps) :
    mps.length = tiers ∧ ∀ i mp, mps[i]? = some mp →
      InSegment layout shape (2 ^ k * 2 ^ i) (ecount / 2 ^ i) (buffer + (cumulative + segmentsSize i (2 ^ k) ecount)) mp := by
  induction tiers generalizing k ecount index cumulative mps with
  | zero =>
    cases hcarve
    exact ⟨rfl, fun i mp hget => by cases hget⟩
  | succ tiers ih =>
    obtain ⟨hstride, hlow, -⟩ := h.stride layout
    have hpos := h.ecount_pos
    rw [segmentsSize] at hsize hbuffer
    have hsegment : 16 ≤ segmentSize (2 ^ k) ecount := by
      have hmul : 1 * 2 ^ k ≤ ecount * 2 ^ k := Nat.mul_le_mul_right _ hpos
      unfold segmentSize
      omega
    rw [carveLoop] at hcarve
    rw [subBufferSize_eq h (by omega), sizeAdd_eq (by rw [sizeMax_eq]; omega), sizeAdd_eq (by omega)] at hcarve
    split at hcarve
    · cases hcarve
    next mp hmp =>
    split at hcarve
    · cases hcarve
    next rest hrest =>
    cases hcarve
    obtain ⟨hbuilt, hfallback, hlower, hinside⟩ :=
      cmempoolCreateFromPreallocatedBufferMp_ok (by omega) (by omega) hmp
    rw [hstride, segment_elemCount hlow] at hbuilt
    have hfirst : InSegment layout shape (2 ^ k * 2 ^ 0) (ecount / 2 ^ 0)
        (buffer + (cumulative + segmentsSize 0 (2 ^ k) ecount)) mp := by
      rw [pow_zero, Nat.mul_one, Nat.div_one]
      exact ⟨hbuilt, hbuilt.stride.trans hstride, hbuilt.total, hlower, hinside, hfallback⟩
    cases tiers with
    | zero =>
      cases hrest
      refine ⟨rfl, fun i mp' hget => ?_⟩
      cases i with
      | zero =>
        cases hget
        exact hfirst
      | succ i => cases hget
    | succ tiers =>
      rw [h.next (by omega)] at hrest
      rw [← pow_succ] at hsize hbuffer
      obtain ⟨hlen, hall⟩ := ih h.tail (by omega) (by omega) hrest
      refine ⟨congrArg (· + 1) hlen, fun i mp' hget => ?_⟩
      cases i with
      | zero =>
        cases hget
        exact hfirst
      | succ i =>
        have hin := hall i mp' hget
        rw [segmentsSize, ← pow_succ, ← Nat.add_assoc cumulative]
        have hpow : 2 ^ (k + 1) * 2 ^ i = 2 ^ k * 2 ^ (i + 1) := by ring
        rw [hpow, Nat.div_div_eq_div_mul, ← pow_succ'] at hin
        exact hin

theorem sixteen_dvd_segmentSize (h : 4 ≤ k) : 16 ∣ segmentSize (2 ^ k) ecount := by
  have hpow : 16 ∣ 2 ^ k := pow_dvd_pow 2 h
  exact Nat.dvd_add (Nat.dvd_mul_left_of_dvd hpow _) (Nat.dvd_mul_left 16 _)

theorem carveLoop_isOk (h : Tiers k tiers ecount) (hsize : cumulative + segmentsSize tiers (2 ^ k) ecount ≤ sizeMax)
    (hbuffer : buffer + (cumulative + segmentsSize tiers (2 ^ k) ecount) ≤ 2 ^ 64) (halign : 16 ∣ buffer + cumulative)
    (hgrants : ∀ i, (env i).Grants) (hhalf : layout = .compact → cumulative + segmentsSize tiers (2 ^ k) ecount ≤ 2 ^ 63) :
    ∃ mps, carveLoop layout env shape buffer tiers index (2 ^ k) ecount cumulative = .ok mps := by
  induction tiers generalizing k ecount index cumulative with
  | zero => exact ⟨[], rfl⟩
  | succ tiers ih =>
    obtain ⟨hstride, hlow, hhigh⟩ := h.stride layout
    have hpos := h.ecount_pos
    have hsegment : ecount * 2 ^ k + 16 ≤ segmentSize (2 ^ k) ecount := by
      unfold segmentSize
      omega
    rw [segmentsSize] at hsize hbuffer hhalf
    have hplus : sizeAdd (2 ^ k) 1 = 2 ^ k + 1 := sizeAdd_eq (by rw [sizeMax_eq]; omega)
    have hcreate : ∃ mp, cmempoolCreateFromPreallocatedBufferMp layout (env index) (some (buffer + cumulative))
        (segmentSize (2 ^ k) ecount) (2 ^ k) (shape.fbPolicy == .atFirstExhaustion) (!shape.shouldUseLocks) = .ok mp := by
      apply cmempoolCreateFromPreallocatedBufferMp_isOk (hgrants index) halign (by omega) (by omega)
      · rw [hstride, hplus, segment_elemCount hlow]
        omega
      · intro hcompact
        have hbound := hhalf hcompact
        rw [hstride, hplus, segment_elemCount hlow]
        exact mpBuildReciprocal_isSome (by omega) (by omega) (by omega)
    obtain ⟨mp, hmp⟩ := hcreate
    rw [carveLoop, subBufferSize_eq h (by omega), sizeAdd_eq (by rw [sizeMax_eq]; omega), sizeAdd_eq (by omega), hmp]
    dsimp only
    cases tiers with
    | zero => exact ⟨[mp], rfl⟩
    | succ tiers =>
      rw [h.next (by omega)]
      rw [← pow_succ, ← Nat.add_assoc] at hsize hbuffer hhalf
      have hnext : 16 ∣ buffer + (cumulative + segmentSize (2 ^ k) ecount) := by
        rw [← Nat.add_assoc]
        exact Nat.dvd_add halign (sixteen_dvd_segmentSize h.aligned)
      obtain ⟨rest, hrest⟩ := ih h.tail hsize (by omega) hnext hhalf
      rw [hrest]
      exact ⟨mp :: rest, rfl⟩

end

/-! ## The whole buffer -/

theorem segmentsSize_succ (tiers esize ecount : Nat) :
    segmentsSize (tiers + 1) esize ecount = segmentsSize tiers esize ecount + segmentSize (esize * 2 ^ tiers) (ecount / 2 ^ tiers) := by
  induction tiers generalizing esize ecount with
  | zero => simp [segmentsSize]
  | succ tiers ih =>
    rw [segmentsSize, ih, segmentsSize, Nat.add_assoc, Nat.mul_assoc, ← pow_succ', Nat.div_div_eq_div_mul, ← pow_succ']

theorem segmentsSize_le (esize ecount : Nat) {i j : Nat} (h : i < j) :
    segmentsSize i esize ecount + segmentSize (esize * 2 ^ i) (ecount / 2 ^ i) ≤ segmentsSize j esize ecount := by
  obtain ⟨n, rfl⟩ := Nat.exists_eq_add_of_lt h
  induction n with
  | zero => exact (segmentsSize_succ i esize ecount).ge
  | succ n ih =>
    rw [segmentsSize_succ (i + (n + 1))]
    exact (ih (by omega)).trans (Nat.le_add_right _ _)

theorem assessRMempoolCreateInputs_ok {smallest largest count : Nat} {fbPolicy : FallbackPolicy} {singleThreaded : Bool}
    {shape : RangedShape} (h : assessRMempoolCreateInputs smallest largest count fbPolicy singleThreaded = .ok shape) :
    Tiers smallest shape.numberOfMempools shape.smallestElemCount ∧ shape.smallestSize = 2 ^ smallest ∧
      shape.largestSize = 2 ^ largest ∧ shape.smallestElemCount = 2 ^ count ∧ shape.smallestSizePowerOfTwo = smallest ∧
      smallest + shape.numberOfMempools = largest + 1 ∧ shape.fbPolicy = fbPolicy ∧ shape.shouldUseLocks = !singleThreaded := by
  rw [assessRMempoolCreateInputs] at h
  dsimp only at h
  split at h
  · cases h
  split at h
  · cases h
  next hwidth =>
  split at h
  · cases h
  next horder =>
  split at h
  · cases h
  next hlimit =>
  cases h
  simp only [Bool.or_eq_true, decide_eq_true_eq, not_or, Nat.not_le, Nat.not_lt, ge_iff_le, gt_iff_lt] at hwidth horder hlimit
  have hfour : 4 ≤ smallest := by
    apply (Nat.pow_le_pow_iff_right (by omega : 1 < 2)).mp
    exact hlimit.2
  refine ⟨⟨hfour, by dsimp only; omega, fun _ => ?_⟩, rfl, rfl, rfl, rfl, by dsimp only; omega, rfl, rfl⟩
  exact Nat.pow_le_pow_right (by omega) horder.2

end Ccollections.Cmempool
