import Ccollections.Cmempool.Lemmas.Addressing

/-!
# Where the entries of a pool are
-/

namespace Ccollections.Cmempool

/-! ## The reserve -/

theorem mempoolCacheGeometry_bounds (elemCount : Nat) :
    (mempoolCacheGeometry elemCount).reserve ≤ elemCount / 2 ∧
      (elemCount ≤ sizeMax → elemCount + (mempoolCacheGeometry elemCount).reserve ≤ sizeMax) := by
  rw [mempoolCacheGeometry]
  by_cases hsmall : elemCount < ccolMpMinCachedPool
  · rw [if_pos hsmall]
    exact ⟨Nat.zero_le _, id⟩
  · rw [if_neg hsmall]
    unfold ccolMpMinCachedPool at hsmall ⊢
    unfold ccolMpMagazineLimit ccolMpReserveDivisor ccolMpCapacityMax
    dsimp only
    generalize hmags : (if (if elemCount / 8 > 16 then 16 else elemCount / 8) = 0 then 1
      else if elemCount / 8 > 16 then 16 else elemCount / 8) = mags
    have hpos : 0 < mags ∧ mags ≤ elemCount / 8 := by
      split_ifs at hmags <;> omega
    generalize hcap : elemCount / (2 * mags) = cap
    have hmul : mags * (cap * 2) ≤ elemCount := by
      calc mags * (cap * 2) = 2 * mags * (elemCount / (2 * mags)) := by rw [hcap]; ring
        _ ≤ elemCount := Nat.mul_div_le elemCount (2 * mags)
    have hcapPos : 0 < cap := by
      rw [← hcap]
      exact Nat.div_pos (by omega) (by omega)
    generalize hclamp : (if (if cap > 128 then 128 else cap) = 0 then 1 else if cap > 128 then 128 else cap) = kept
    have hle : kept ≤ cap := by
      split_ifs at hclamp <;> omega
    have hreserve : mags * kept ≤ elemCount / 2 := by
      rw [Nat.le_div_iff_mul_le (by omega), Nat.mul_assoc]
      exact (Nat.mul_le_mul_left mags (Nat.mul_le_mul_right 2 hle)).trans hmul
    split_ifs with hwide hwrap
    · exact ⟨Nat.zero_le _, id⟩
    · exact ⟨Nat.zero_le _, id⟩
    · exact ⟨hreserve, fun h => by dsimp only; omega⟩

/-! ## Placed pools -/

/-- The entries of a pool do not wrap around the address space, and its index arithmetic is exact. -/
structure PoolBlock.Placed (mp : PoolBlock) : Prop where
  stride_pos : 0 < mp.extendedElemSize
  count_pos : 0 < mp.totalElemCount
  upper : mp.upperAddrLimit = mp.lowerAddrLimit + mp.totalElemCount * mp.extendedElemSize
  fits : mp.upperAddrLimit + mp.totalElemCount ≤ 2 ^ 64
  power : mp.layout = .powerOfTwo → mp.extendedElemSize = 2 ^ mp.entryShift
  exact_index : mp.layout = .compact → ∀ off < mp.totalElemCount * mp.extendedElemSize,
    Lib.mulShift 64 mp.entryIndexShift mp.entryIndexMagic off = off / mp.extendedElemSize

namespace PoolBlock.Placed

variable {mp : PoolBlock} {addr i off : Nat}

theorem off_eq (h : mp.Placed) (hoff : off < mp.totalElemCount * mp.extendedElemSize) :
    sizeSub (mp.lowerAddrLimit + off) mp.lowerAddrLimit = off := by
  have hupper := h.upper
  have hfits := h.fits
  have hcount := h.count_pos
  rw [sizeSub_eq (Nat.le_add_right _ _) (by rw [sizeMax_eq]; omega), Nat.add_sub_cancel_left]

theorem entryIndex_add (h : mp.Placed) (hoff : off < mp.totalElemCount * mp.extendedElemSize) :
    mp.entryIndex (mp.lowerAddrLimit + off) = off / mp.extendedElemSize := by
  rw [entryIndex, h.off_eq hoff]
  cases hl : mp.layout with
  | compact => exact h.exact_index hl off hoff
  | powerOfTwo =>
    dsimp only
    rw [h.power hl, Nat.shiftRight_eq_div_pow]

theorem validMempoolAddr_add (h : mp.Placed) (hoff : off < mp.totalElemCount * mp.extendedElemSize) :
    mp.validMempoolAddr (mp.lowerAddrLimit + off) = true ↔ mp.extendedElemSize ∣ off := by
  have hupper := h.upper
  have hfits := h.fits
  have hin : (mp.lowerAddrLimit + off < mp.lowerAddrLimit || mp.lowerAddrLimit + off ≥ mp.upperAddrLimit) = false := by
    simp only [Bool.or_eq_false_iff, decide_eq_false_iff_not]
    omega
  rw [validMempoolAddr, hin, if_neg Bool.false_ne_true, h.off_eq hoff]
  cases hl : mp.layout with
  | compact =>
    dsimp only
    have hle : off / mp.extendedElemSize * mp.extendedElemSize ≤ off := Nat.div_mul_le_self _ _
    have hcount := h.count_pos
    rw [h.entryIndex_add hoff, sizeMul_eq (by rw [sizeMax_eq]; omega), beq_iff_eq]
    exact ⟨fun heq => Dvd.intro_left _ heq, Nat.div_mul_cancel⟩
  | powerOfTwo =>
    dsimp only
    rw [h.power hl, Nat.and_two_pow_sub_one_eq_mod, beq_iff_eq, ← Nat.dvd_iff_mod_eq_zero]

theorem validMempoolAddr_iff (h : mp.Placed) :
    mp.validMempoolAddr addr = true ↔ ∃ i < mp.totalElemCount, addr = mp.lowerAddrLimit + i * mp.extendedElemSize := by
  have hpos := h.stride_pos
  constructor
  · intro hvalid
    have hin : mp.lowerAddrLimit ≤ addr ∧ addr < mp.upperAddrLimit := by
      rw [validMempoolAddr] at hvalid
      split_ifs at hvalid with hout
      simpa using hout
    obtain ⟨off, rfl⟩ := Nat.exists_eq_add_of_le hin.1
    have hoff : off < mp.totalElemCount * mp.extendedElemSize := by
      have hupper := h.upper
      omega
    obtain ⟨i, rfl⟩ := (h.validMempoolAddr_add hoff).mp hvalid
    rw [Nat.mul_comm] at hoff ⊢
    exact ⟨i, Nat.lt_of_mul_lt_mul_right hoff, rfl⟩
  · rintro ⟨i, hi, rfl⟩
    exact (h.validMempoolAddr_add (Nat.mul_lt_mul_of_pos_right hi hpos)).mpr (Nat.dvd_mul_left _ _)

theorem entryIndex_eq (h : mp.Placed) (hi : i < mp.totalElemCount) :
    mp.entryIndex (mp.lowerAddrLimit + i * mp.extendedElemSize) = i := by
  have hpos := h.stride_pos
  rw [h.entryIndex_add (Nat.mul_lt_mul_of_pos_right hi hpos), Nat.mul_div_cancel i hpos]

end PoolBlock.Placed

/-! ## Construction -/

variable {layout : Layout} {env : PoolSurroundings} {elemCount elemSize stride : Nat} {fallback singleThreaded : Bool}
  {mp mp' : PoolBlock}

theorem initInternalScalars_some (h : mp.initInternalScalars elemCount stride fallback = some mp')
    (hadmissible : Admissible mp.layout elemSize stride) (hcount : 0 < elemCount)
    (hfits : mp.objects + (elemCount * stride + elemCount) ≤ 2 ^ 64) :
    mp'.Placed ∧ mp'.layout = mp.layout ∧ mp'.lowerAddrLimit = mp.objects ∧ mp'.extendedElemSize = stride ∧
      mp'.totalElemCount = elemCount ∧ mp'.advertisedElemCount = mp.advertisedElemCount ∧
      mp'.maxMagazines = mp.maxMagazines ∧ mp'.magazineCapacity = mp.magazineCapacity ∧ mp'.freeElemCount = elemCount ∧
      mp'.fallbackToDynamicMemory = fallback ∧ mp'.shouldUseLocks = mp.shouldUseLocks := by
  have hpos := hadmissible.pos
  have hstride : stride ≤ sizeMax := by
    have hle : stride ≤ elemCount * stride := Nat.le_mul_of_pos_left stride hcount
    rw [sizeMax_eq]
    omega
  have hupper : sizeAdd mp.objects (sizeMul stride elemCount) = mp.objects + elemCount * stride := by
    rw [Nat.mul_comm elemCount stride] at hfits ⊢
    rw [sizeMul_eq (by rw [sizeMax_eq]; omega), sizeAdd_eq (by rw [sizeMax_eq]; omega)]
  rw [PoolBlock.initInternalScalars] at h
  cases hl : mp.layout with
  | compact =>
    simp only [hl] at h
    split at h
    · cases h
    next magic shift hbuild =>
      cases h
      have hexact := (mpBuildReciprocal_exact hstride hbuild).2
      refine ⟨⟨hpos, hcount, hupper, ?_, fun hpower => ?_, fun _ => hexact⟩, rfl, rfl, rfl, rfl, rfl, rfl, rfl, rfl, rfl, rfl⟩
      · dsimp only
        rw [hupper]
        omega
      · cases hpower
  | powerOfTwo =>
    simp only [hl] at h
    cases h
    obtain ⟨k, rfl⟩ := hadmissible.power hl
    refine ⟨⟨hpos, hcount, hupper, ?_, fun _ => ?_, fun hcompact => ?_⟩, rfl, rfl, rfl, rfl, rfl, rfl, rfl, rfl, rfl, rfl⟩
    · dsimp only
      rw [hupper]
      omega
    · dsimp only
      rw [mpLog2Exact_pow hstride]
    · cases hcompact

theorem mpStrideFor_raised (layout : Layout) (elemSize : Nat) :
    mpStrideFor layout (if elemSize < 8 then 8 else elemSize) = mpStrideFor layout elemSize := by
  have hmax : max (if elemSize < 8 then 8 else elemSize) 8 = max elemSize 8 := by
    split_ifs <;> omega
  rw [mpStrideFor_eq, mpStrideFor_eq, alignedSize, alignedSize, hmax]

theorem mempoolObjects_some {askedBytes base : Nat} {asked geometry : CacheGeometry} (hstride : 0 < stride)
    (hasked : mpBlockBytes elemCount stride = some askedBytes)
    (hcarry : elemCount ≤ sizeMax → elemCount + asked.reserve ≤ sizeMax)
    (h : mempoolObjects env elemCount stride askedBytes asked = some (base, geometry)) :
    (geometry = asked ∨ geometry = ⟨0, 0, 0⟩) ∧ 0 < elemCount ∧
      sizeAdd elemCount geometry.reserve = elemCount + geometry.reserve ∧
      base + ((elemCount + geometry.reserve) * stride + (elemCount + geometry.reserve)) ≤ 2 ^ 64 ∧
      (elemCount + geometry.reserve) * stride + (elemCount + geometry.reserve) ≤ sizeMax := by
  obtain ⟨hpos, hbytes, hle⟩ := mpBlockBytes_some hstride hasked
  have hcount : elemCount ≤ sizeMax := by omega
  have hbare : ∀ {b}, env.calloc askedBytes = some b →
      b + ((elemCount + 0) * stride + (elemCount + 0)) ≤ 2 ^ 64 ∧ (elemCount + 0) * stride + (elemCount + 0) ≤ sizeMax := by
    intro b hb
    have hfit := env.calloc_fits _ _ hb
    rw [hbytes] at hfit hle
    exact ⟨hfit, hle⟩
  have hdropped : (env.calloc askedBytes).map (fun b => (b, (⟨0, 0, 0⟩ : CacheGeometry))) = some (base, geometry) →
      (geometry = asked ∨ geometry = ⟨0, 0, 0⟩) ∧ 0 < elemCount ∧
        sizeAdd elemCount geometry.reserve = elemCount + geometry.reserve ∧
        base + ((elemCount + geometry.reserve) * stride + (elemCount + geometry.reserve)) ≤ 2 ^ 64 ∧
        (elemCount + geometry.reserve) * stride + (elemCount + geometry.reserve) ≤ sizeMax := by
    intro hmap
    obtain ⟨b, hb, heq⟩ := Option.map_eq_some_iff.mp hmap
    cases heq
    exact ⟨.inr rfl, hpos, sizeAdd_eq hcount, hbare hb⟩
  rw [mempoolObjects] at h
  by_cases hreserve : asked.reserve > 0
  · rw [if_pos hreserve, sizeAdd_eq (hcarry hcount)] at h
    cases hslot : mpBlockBytes (elemCount + asked.reserve) stride with
    | none =>
      rw [hslot] at h
      exact hdropped h
    | some slotBytes =>
      rw [hslot] at h
      dsimp only at h
      cases hgot : env.calloc slotBytes with
      | none =>
        rw [hgot] at h
        exact hdropped h
      | some b =>
        rw [hgot] at h
        cases h
        obtain ⟨-, hslotBytes, hslotLe⟩ := mpBlockBytes_some hstride hslot
        have hfit := env.calloc_fits _ _ hgot
        rw [hslotBytes] at hfit hslotLe
        exact ⟨.inl rfl, hpos, sizeAdd_eq (hcarry hcount), hfit, hslotLe⟩
  · rw [if_neg hreserve] at h
    obtain ⟨b, hb, heq⟩ := Option.map_eq_some_iff.mp h
    cases heq
    have hzero : asked.reserve = 0 := by omega
    rw [hzero]
    exact ⟨.inl rfl, hpos, sizeAdd_eq hcount, hbare hb⟩

/-- What every construction leaves: exact addresses, the least stride, and a block whose size does not wrap. -/
structure PoolBlock.Built (layout : Layout) (elemSize elemCount : Nat) (geometry : CacheGeometry) (singleThreaded : Bool)
    (mp : PoolBlock) : Prop where
  placed : mp.Placed
  layout_eq : mp.layout = layout
  stride : mp.extendedElemSize = mpStrideFor layout elemSize
  admissible : Admissible layout elemSize mp.extendedElemSize
  advertised : mp.advertisedElemCount = elemCount
  total : mp.totalElemCount = elemCount + geometry.reserve
  free : mp.freeElemCount = mp.totalElemCount
  magazines : mp.maxMagazines = geometry.maxMagazines
  capacity : mp.magazineCapacity = geometry.capacity
  locks : mp.shouldUseLocks = !singleThreaded
  bytes : mp.totalElemCount * mp.extendedElemSize + mp.totalElemCount ≤ sizeMax

theorem cmempoolCreateMp_ok (h : cmempoolCreateMp layout env elemCount elemSize fallback singleThreaded = .ok mp) :
    ∃ geometry : CacheGeometry, mp.Built layout elemSize elemCount geometry singleThreaded ∧
      mp.fallbackToDynamicMemory = fallback ∧
      (geometry = ⟨0, 0, 0⟩ ∨ singleThreaded = false ∧ geometry = mempoolCacheGeometry elemCount) := by
  rw [cmempoolCreateMp] at h
  dsimp only at h
  rw [mpStrideFor_raised] at h
  split at h
  · cases h
  split at h
  · cases h
  next hnone =>
  obtain ⟨hadmissible, -⟩ := mpStrideFor_pos hnone
  split at h
  · cases h
  split at h
  · cases h
  split at h
  · cases h
  split at h
  · cases h
  next askedBytes hasked =>
    split at h
    · cases h
    next objects geometry hobjects =>
      split at h
      · cases h
      split at h
      · cases h
      next mp' hinit =>
        cases h
        have hcarry : elemCount ≤ sizeMax →
            elemCount + (if (!singleThreaded && env.cacheAvailable) = true then mempoolCacheGeometry elemCount
              else ⟨0, 0, 0⟩ : CacheGeometry).reserve ≤ sizeMax := by
          intro hle
          split_ifs
          · exact (mempoolCacheGeometry_bounds elemCount).2 hle
          · exact hle
        obtain ⟨hgeometry, hpos, hsum, hfit, hbytes⟩ := mempoolObjects_some hadmissible.pos hasked hcarry hobjects
        rw [hsum] at hinit
        obtain ⟨hplaced, hlay, -, hstride, htotal, hadv, hmags, hcap, hfree, hfb, hlocks⟩ :=
          initInternalScalars_some hinit hadmissible (by omega) hfit
        refine ⟨geometry, ⟨hplaced, hlay, hstride, ?_, hadv, htotal, hfree.trans htotal.symm, hmags, hcap, hlocks, ?_⟩, hfb, ?_⟩
        · rw [hstride]
          exact hadmissible
        · rw [htotal, hstride]
          exact hbytes
        · rcases hgeometry with rfl | rfl
          · split_ifs with hcache
            · rw [Bool.and_eq_true, Bool.not_eq_true'] at hcache
              exact .inr ⟨hcache.1, rfl⟩
            · exact .inl rfl
          · exact .inl rfl

theorem cmempoolCreateFromPreallocatedBufferMp_ok {buffer bufSize : Nat} (hsize : bufSize ≤ sizeMax)
    (hbuffer : buffer + bufSize ≤ 2 ^ 64)
    (h : cmempoolCreateFromPreallocatedBufferMp layout env (some buffer) bufSize elemSize fallback singleThreaded = .ok mp) :
    mp.Built layout elemSize (bufSize / (mpStrideFor layout elemSize + 1)) ⟨0, 0, 0⟩ singleThreaded ∧
      mp.fallbackToDynamicMemory = fallback ∧ mp.lowerAddrLimit = buffer ∧
      mp.upperAddrLimit + mp.totalElemCount ≤ buffer + bufSize := by
  rw [cmempoolCreateFromPreallocatedBufferMp] at h
  dsimp only at h
  rw [mpStrideFor_raised] at h
  split at h
  · cases h
  split at h
  · cases h
  split at h
  · cases h
  next hnone =>
  obtain ⟨hadmissible, hstrideLe⟩ := mpStrideFor_pos hnone
  have hsum : sizeAdd (mpStrideFor layout elemSize) 1 = mpStrideFor layout elemSize + 1 := by
    obtain ⟨q, hq⟩ := hadmissible.aligned
    unfold cmempoolEntryAlign at hq
    apply sizeAdd_eq
    rw [sizeMax_eq] at *
    omega
  rw [hsum] at h
  generalize hcount : bufSize / (mpStrideFor layout elemSize + 1) = count at h ⊢
  have hused : count * mpStrideFor layout elemSize + count ≤ bufSize := by
    rw [← hcount, ← Nat.mul_succ]
    exact Nat.div_mul_le_self _ _
  split at h
  · cases h
  next hempty =>
  split at h
  · cases h
  split at h
  · cases h
  split at h
  · cases h
  split at h
  · cases h
  split at h
  · cases h
  next mp' hinit =>
    cases h
    obtain ⟨hplaced, hlay, hlower, hstride, htotal, hadv, hmags, hcap, hfree, hfb, hlocks⟩ :=
      initInternalScalars_some hinit hadmissible (Nat.pos_of_ne_zero hempty) (by dsimp only; omega)
    refine ⟨⟨hplaced, hlay, hstride, ?_, hadv, htotal, hfree.trans htotal.symm, hmags, hcap, hlocks, ?_⟩, hfb, hlower, ?_⟩
    · rw [hstride]
      exact hadmissible
    · rw [htotal, hstride]
      exact hused.trans hsize
    · rw [hplaced.upper, hlower, htotal, hstride]
      dsimp only
      omega

structure PoolSurroundings.Grants (env : PoolSurroundings) : Prop where
  verify : env.verifyMemmgmtProcs = none
  struct : env.structGranted = true
  populate : env.populateMemMgmtProcs = none
  mutex : env.mutexInit = true

theorem cmempoolCreateFromPreallocatedBufferMp_isOk {buffer bufSize : Nat} (hgrants : env.Grants)
    (halign : 16 ∣ buffer) (hsize : elemSize ≠ 0) (hstride : mpStrideFor layout elemSize ≠ 0)
    (hcount : bufSize / sizeAdd (mpStrideFor layout elemSize) 1 ≠ 0)
    (hreciprocal : layout = .compact →
      (mpBuildReciprocal (mpStrideFor layout elemSize) (bufSize / sizeAdd (mpStrideFor layout elemSize) 1)).isSome = true) :
    ∃ mp, cmempoolCreateFromPreallocatedBufferMp layout env (some buffer) bufSize elemSize fallback singleThreaded = .ok mp := by
  have hmod : buffer % cmempoolEntryAlign = 0 := Nat.mod_eq_zero_of_dvd halign
  rw [cmempoolCreateFromPreallocatedBufferMp]
  dsimp only
  rw [mpStrideFor_raised, if_neg (not_not_intro hmod), if_neg hsize, if_neg hstride, if_neg hcount, hgrants.verify,
    hgrants.struct, hgrants.populate, hgrants.mutex]
  simp only [Bool.not_true, Bool.false_eq_true, ↓reduceIte, Bool.and_false]
  cases layout with
  | powerOfTwo => exact ⟨_, rfl⟩
  | compact =>
    obtain ⟨⟨magic, shift⟩, hbuild⟩ := Option.isSome_iff_exists.mp (hreciprocal rfl)
    simp only [PoolBlock.initInternalScalars, PoolBlock.zeroed, hbuild]
    exact ⟨_, rfl⟩

end Ccollections.Cmempool
