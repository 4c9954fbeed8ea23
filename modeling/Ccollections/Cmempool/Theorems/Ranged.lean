import Ccollections.Cmempool.Lemmas.Carving
import Ccollections.Cmempool.Lemmas.Registry

/-!
# The address arithmetic of pools
-/

namespace Ccollections.Cmempool

open List

variable {layout : Layout} {env : PoolSurroundings} {elemCount elemSize : Nat} {fallback singleThreaded : Bool} {mp : PoolBlock}

/-- The addresses that a pool takes for its entries are those of its entries, and each has its own ordinal. -/
structure PoolBlock.Exact (mp : PoolBlock) : Prop where
  bytes : mp.totalElemCount * mp.extendedElemSize + mp.totalElemCount ≤ sizeMax
  valid : ∀ addr, mp.validMempoolAddr addr = true ↔ ∃ i < mp.totalElemCount, addr = mp.lowerAddrLimit + i * mp.extendedElemSize
  index : ∀ i < mp.totalElemCount, mp.entryIndex (mp.lowerAddrLimit + i * mp.extendedElemSize) = i
  status : mp.lowerAddrLimit + (mp.totalElemCount * mp.extendedElemSize + mp.totalElemCount) ≤ 2 ^ 64

theorem PoolBlock.Built.exact {geometry : CacheGeometry} (h : mp.Built layout elemSize elemCount geometry singleThreaded) :
    mp.Exact := by
  have hfits := h.placed.fits
  rw [h.placed.upper] at hfits
  exact ⟨h.bytes, fun _ => h.placed.validMempoolAddr_iff, fun _ hi => h.placed.entryIndex_eq hi, by omega⟩

/-- A pool that names its entries by their ordinals stands for a pool in memory. -/
theorem cmempoolCreateMp_refines (h : cmempoolCreateMp layout env elemCount elemSize fallback singleThreaded = .ok mp) :
    ∃ keepsCache m, cmempoolCreate elemCount fallback singleThreaded keepsCache = some m ∧
      m.advertisedElemCount = mp.advertisedElemCount ∧ m.totalElemCount = mp.totalElemCount ∧
      m.freeElemCount = mp.freeElemCount ∧ m.maxMagazines = mp.maxMagazines ∧ m.magazineCapacity = mp.magazineCapacity ∧
      m.shouldUseLocks = mp.shouldUseLocks ∧ m.fallbackToDynamicMemory = mp.fallbackToDynamicMemory ∧
      ∀ i, m.validMempoolAddr i = mp.validMempoolAddr (mp.lowerAddrLimit + i * mp.extendedElemSize) := by
  obtain ⟨geometry, hbuilt, hfallback, hgeometry⟩ := cmempoolCreateMp_ok h
  have hcount : elemCount ≠ 0 := by
    have hpos := hbuilt.placed.count_pos
    rintro rfl
    rw [hbuilt.total] at hpos
    rcases hgeometry with rfl | ⟨-, rfl⟩
    · exact absurd hpos (by decide)
    · exact absurd hpos (by decide)
  have hkeeps : ∃ keepsCache, (if (!singleThreaded && keepsCache) = true then mempoolCacheGeometry elemCount else ⟨0, 0, 0⟩) =
      geometry := by
    rcases hgeometry with rfl | ⟨rfl, rfl⟩
    · exact ⟨false, by simp⟩
    · exact ⟨true, by simp⟩
  obtain ⟨keepsCache, hkeeps⟩ := hkeeps
  refine ⟨keepsCache, _, if_neg hcount, ?_⟩
  rw [hkeeps]
  refine ⟨hbuilt.advertised.symm, hbuilt.total.symm, (hbuilt.free.trans hbuilt.total).symm, hbuilt.magazines.symm,
    hbuilt.capacity.symm, hbuilt.locks.symm, hfallback.symm, fun i => ?_⟩
  rw [Bool.eq_iff_iff, hbuilt.placed.validMempoolAddr_iff, Mempool.validMempoolAddr, decide_eq_true_iff]
  dsimp only
  rw [← hbuilt.total]
  constructor
  · intro hi
    exact ⟨i, hi, rfl⟩
  · rintro ⟨j, hj, heq⟩
    have hsame : i = j := Nat.eq_of_mul_eq_mul_right hbuilt.placed.stride_pos (by omega)
    rwa [hsame]

/-- A ranged pool in a buffer of the expected size has all the entries of each tier, and its tiers do not meet. -/
structure Carved (layout : Layout) (shape : RangedShape) (buffer bufSize : Nat) (mps : List PoolBlock) : Prop where
  tiers : mps.length = shape.numberOfMempools
  size : bufSize = segmentsSize shape.numberOfMempools shape.smallestSize shape.smallestElemCount
  segment : ∀ i mp, mps[i]? = some mp →
    InSegment layout shape (shape.smallestSize * 2 ^ i) (shape.smallestElemCount / 2 ^ i)
      (buffer + segmentsSize i shape.smallestSize shape.smallestElemCount) mp
  apart : ∀ (i j : Nat) (mp mp' : PoolBlock), i < j → mps[i]? = some mp → mps[j]? = some mp' →
    mp.upperAddrLimit + mp.totalElemCount ≤ mp'.lowerAddrLimit
  inside : ∀ mp ∈ mps, buffer ≤ mp.lowerAddrLimit ∧ mp.upperAddrLimit + mp.totalElemCount ≤ buffer + bufSize

theorem carved_of_ok {env : RangedSurroundings} {buffer bufSize smallest largest count : Nat} {fbPolicy : FallbackPolicy}
    {shape : RangedShape} {mps : List PoolBlock} (hsize : bufSize ≤ sizeMax) (hbuffer : buffer + bufSize ≤ 2 ^ 64)
    (h : crmempoolCreateFromPreallocatedBufferMp layout env (some buffer) bufSize smallest largest count fbPolicy
      singleThreaded = .ok (shape, mps)) :
    Carved layout shape buffer bufSize mps := by
  rw [crmempoolCreateFromPreallocatedBufferMp] at h
  split at h
  · cases h
  split at h
  · cases h
  split at h
  · cases h
  split at h
  · cases h
  split at h
  · cases h
  next shape' hassess =>
  split at h
  · cases h
  next mps' hinit =>
  cases h
  obtain ⟨htiers, hsmallest, -⟩ := assessRMempoolCreateInputs_ok hassess
  rw [initPreallocatedRMempoolInternalPools] at hinit
  split at hinit
  · cases hinit
  split at hinit
  · cases hinit
  next expectedSize hexpected =>
  split at hinit
  · cases hinit
  next heq =>
  rw [ne_eq, not_not] at heq
  split at hinit
  · cases hinit
  rw [hsmallest] at hexpected hinit
  obtain ⟨htotal, -⟩ := expectedSizeLoop_some htiers (Nat.zero_le _) hexpected
  rw [Nat.zero_add, heq] at htotal
  obtain ⟨hlen, hall⟩ := carveLoop_ok htiers (by rw [Nat.zero_add, ← htotal]; exact hsize)
    (by rw [Nat.zero_add, ← htotal]; exact hbuffer) hinit
  have hsegment : ∀ i mp, mps[i]? = some mp →
      InSegment layout shape (shape.smallestSize * 2 ^ i) (shape.smallestElemCount / 2 ^ i)
        (buffer + segmentsSize i shape.smallestSize shape.smallestElemCount) mp := by
    intro i mp hget
    rw [hsmallest, ← Nat.zero_add (segmentsSize i _ _)]
    exact hall i mp hget
  refine ⟨hlen, by rw [hsmallest]; exact htotal, hsegment, ?_, ?_⟩
  · intro i j mp mp' hlt hi hj
    have hend := (hsegment i mp hi).inside
    rw [(hsegment j mp' hj).start_eq]
    have hle := segmentsSize_le shape.smallestSize shape.smallestElemCount hlt
    omega
  · intro mp hmem
    obtain ⟨i, hget⟩ := mem_iff_getElem?.mp hmem
    have hin := hsegment i mp hget
    have hlt : i < shape.numberOfMempools := by
      rw [← hlen]
      exact (List.getElem?_eq_some_iff.mp hget).1
    have hle := segmentsSize_le shape.smallestSize shape.smallestElemCount hlt
    have hend := hin.inside
    rw [hin.start_eq, htotal, ← hsmallest]
    omega

/-- Nothing outside stands in the way of the construction of a ranged pool. -/
structure RangedSurroundings.Grants (env : RangedSurroundings) : Prop where
  verify : env.verifyMemmgmtProcs = none
  struct : env.structGranted = true
  populate : env.populateMemMgmtProcs = none
  pseudoMutex : env.pseudoMutexInit = true
  memPools : env.memPoolsGranted = true
  tier : ∀ i, (env.tier i).Grants

/-- With everything granted, a buffer of the expected size is carved, for the compact layout one of at most half the
address space. -/
theorem crmempoolCreate_isOk {env : RangedSurroundings} {buffer bufSize smallest largest count : Nat}
    {fbPolicy : FallbackPolicy} {shape : RangedShape} (hgrants : env.Grants) (halign : 16 ∣ buffer)
    (hshape : assessRMempoolCreateInputs smallest largest count fbPolicy singleThreaded = .ok shape)
    (hsize : bufSize ≤ sizeMax) (hbuffer : buffer + bufSize ≤ 2 ^ 64)
    (hexpected : bufSize = segmentsSize shape.numberOfMempools shape.smallestSize shape.smallestElemCount)
    (hhalf : layout = .compact → bufSize ≤ 2 ^ 63) :
    ∃ mps, crmempoolCreateFromPreallocatedBufferMp layout env (some buffer) bufSize smallest largest count fbPolicy
      singleThreaded = .ok (shape, mps) := by
  obtain ⟨htiers, hsmallest, -⟩ := assessRMempoolCreateInputs_ok hshape
  have hmod : buffer % cmempoolEntryAlign = 0 := Nat.mod_eq_zero_of_dvd halign
  have hpseudo : initRMempoolPseudoPool env shape = true := by
    rw [initRMempoolPseudoPool, hgrants.pseudoMutex, Bool.or_true]
  have htotal : 0 + segmentsSize shape.numberOfMempools (2 ^ smallest) shape.smallestElemCount = bufSize := by
    rw [hexpected, hsmallest, Nat.zero_add]
  rw [← htotal] at hsize hbuffer hhalf
  have hloop : expectedSizeLoop layout shape.numberOfMempools (2 ^ smallest) shape.smallestElemCount 0 = some bufSize := by
    rw [expectedSizeLoop_eq htiers hsize, htotal]
  have hcarve : ∃ mps, carveLoop layout env.tier shape buffer shape.numberOfMempools 0 (2 ^ smallest)
      shape.smallestElemCount 0 = .ok mps := carveLoop_isOk htiers hsize hbuffer halign hgrants.tier hhalf
  obtain ⟨mps, hmps⟩ := hcarve
  refine ⟨mps, ?_⟩
  rw [crmempoolCreateFromPreallocatedBufferMp]
  rw [if_neg (not_not_intro hmod), hgrants.verify, hgrants.struct, hgrants.populate, hshape]
  rw [if_neg (by decide : ¬(!true) = true)]
  dsimp only
  rw [initPreallocatedRMempoolInternalPools, hpseudo, hsmallest, hloop, hgrants.memPools]
  simp only [Bool.not_true, Bool.false_eq_true, ↓reduceIte, ne_eq, not_true_eq_false, hmps]

/-- The arithmetic of strides, blocks, indices and segments has no rounding and no wrap, in both layouts. -/
theorem cmempool_addresses_exact (layout : Layout) :
    (∀ elemSize,
      (mpStrideFor layout elemSize = 0 ↔ ∀ stride, Admissible layout elemSize stride → sizeMax < stride) ∧
      (mpStrideFor layout elemSize ≠ 0 → mpStrideFor layout elemSize ≤ sizeMax ∧
        IsLeast {stride | Admissible layout elemSize stride} (mpStrideFor layout elemSize))) ∧
    (∀ count stride, 0 < stride →
      (mpBlockBytes count stride = none ↔ count = 0 ∨ sizeMax < count * stride + count) ∧
      ∀ bytes, mpBlockBytes count stride = some bytes → bytes = count * stride + count ∧ bytes ≤ sizeMax) ∧
    (∀ env elemCount elemSize fallback singleThreaded mp,
      cmempoolCreateMp layout env elemCount elemSize fallback singleThreaded = .ok mp →
        mp.Exact ∧ mp.extendedElemSize = mpStrideFor layout elemSize) ∧
    (∀ env buffer bufSize elemSize fallback singleThreaded mp, bufSize ≤ sizeMax → buffer + bufSize ≤ 2 ^ 64 →
      cmempoolCreateFromPreallocatedBufferMp layout env (some buffer) bufSize elemSize fallback singleThreaded = .ok mp →
        mp.Exact ∧ mp.extendedElemSize = mpStrideFor layout elemSize ∧ mp.lowerAddrLimit = buffer ∧
          mp.upperAddrLimit + mp.totalElemCount ≤ buffer + bufSize) ∧
    (∀ stride count magic shift, stride ≤ sizeMax → mpBuildReciprocal stride count = some (magic, shift) →
      ∀ off < count * stride, Lib.mulShift 64 shift magic off = off / stride) ∧
    (∀ stride count, 2 ≤ stride → count ≠ 0 → count * stride < 2 ^ 63 → (mpBuildReciprocal stride count).isSome = true) ∧
    (∀ env buffer bufSize smallest largest count fbPolicy singleThreaded shape mps, bufSize ≤ sizeMax →
      buffer + bufSize ≤ 2 ^ 64 →
      crmempoolCreateFromPreallocatedBufferMp layout env (some buffer) bufSize smallest largest count fbPolicy
        singleThreaded = .ok (shape, mps) →
        Carved layout shape buffer bufSize mps ∧ ∀ mp ∈ mps, mp.Exact) ∧
    (∀ (env : RangedSurroundings) buffer bufSize smallest largest count fbPolicy singleThreaded shape, env.Grants →
      16 ∣ buffer → assessRMempoolCreateInputs smallest largest count fbPolicy singleThreaded = .ok shape →
      bufSize ≤ sizeMax → buffer + bufSize ≤ 2 ^ 64 →
      bufSize = segmentsSize shape.numberOfMempools shape.smallestSize shape.smallestElemCount →
      (layout = .compact → bufSize ≤ 2 ^ 63) →
        ∃ mps, crmempoolCreateFromPreallocatedBufferMp layout env (some buffer) bufSize smallest largest count fbPolicy
          singleThreaded = .ok (shape, mps)) := by
  refine ⟨fun elemSize => ?_, fun count stride hstride => ⟨mpBlockBytes_none hstride, ?_⟩, ?_, ?_, ?_, ?_, ?_, ?_⟩
  · rcases mpStrideFor_spec layout elemSize with ⟨hzero, hnone⟩ | ⟨hleast, hle⟩
    · exact ⟨⟨fun _ => hnone, fun _ => hzero⟩, fun hne => absurd hzero hne⟩
    · refine ⟨⟨fun hzero => ?_, fun hnone => ?_⟩, fun _ => ⟨hle, hleast⟩⟩
      · have hpos := hleast.1.pos
        omega
      · have hlt := hnone _ hleast.1
        omega
  · intro bytes hbytes
    exact (mpBlockBytes_some hstride hbytes).2
  · intro env elemCount elemSize fallback singleThreaded mp hcreate
    obtain ⟨geometry, hbuilt, -⟩ := cmempoolCreateMp_ok hcreate
    exact ⟨hbuilt.exact, hbuilt.stride⟩
  · intro env buffer bufSize elemSize fallback singleThreaded mp hsize hbuffer hcreate
    obtain ⟨hbuilt, -, hlower, hinside⟩ := cmempoolCreateFromPreallocatedBufferMp_ok hsize hbuffer hcreate
    exact ⟨hbuilt.exact, hbuilt.stride, hlower, hinside⟩
  · intro stride count magic shift hstride hbuild
    exact (mpBuildReciprocal_exact hstride hbuild).2
  · intro stride count hstride hcount hbound
    exact mpBuildReciprocal_isSome hstride hcount hbound
  · intro env buffer bufSize smallest largest count fbPolicy singleThreaded shape mps hsize hbuffer hcreate
    have hcarved := carved_of_ok hsize hbuffer hcreate
    refine ⟨hcarved, fun mp hmem => ?_⟩
    obtain ⟨i, hget⟩ := mem_iff_getElem?.mp hmem
    exact (hcarved.segment i mp hget).built.exact
  · intro env buffer bufSize smallest largest count fbPolicy singleThreaded shape hgrants halign hshape hsize hbuffer
      hexpected hhalf
    exact crmempoolCreate_isOk hgrants halign hshape hsize hbuffer hexpected hhalf

/-- Everything is granted, and a block of the allocator stands at 4096. -/
def roomySurroundings : PoolSurroundings :=
  { verifyMemmgmtProcs := none
    structGranted := true
    populateMemMgmtProcs := none
    cacheAvailable := true
    calloc := fun bytes => if bytes ≤ 2 ^ 20 then some 4096 else none
    mutexInit := true
    calloc_fits := by
      intro bytes base h
      split_ifs at h with hle
      cases h
      omega }

/-- A compact pool of five entries of 24 bytes takes the address of its third entry and not the one a byte below. -/
theorem cmempool_addresses_exact_compact :
    ∃ mp, cmempoolCreateMp .compact roomySurroundings 5 24 false true = .ok mp ∧ mp.Exact ∧
      mp.validMempoolAddr 4160 = true ∧ mp.entryIndex 4160 = 2 ∧ mp.validMempoolAddr 4159 = false := by
  have hrun : (match cmempoolCreateMp .compact roomySurroundings 5 24 false true with
      | .ok mp => mp.validMempoolAddr 4160 && mp.entryIndex 4160 == 2 && !mp.validMempoolAddr 4159
      | .error _ => false) = true := by decide +kernel
  split at hrun
  next mp hmp =>
    simp only [Bool.and_eq_true, beq_iff_eq, Bool.not_eq_true'] at hrun
    have hexact := ((cmempool_addresses_exact .compact).2.2.1 roomySurroundings 5 24 false true mp hmp).1
    exact ⟨mp, hmp, hexact, hrun.1.1, hrun.1.2, hrun.2⟩
  · cases hrun

/-!
# The registry is the set of live dynamic entries
-/

open Lib

variable {mp mp' : Registry} {keys : List Nat} {key : Nat}

/-! ## Runs of the set -/

/-- An operation on the set. `granted` says whether a larger table can be had. -/
inductive SetOp where
  | insert (key : Nat) (granted : Bool)
  | remove (key : Nat)
  | contains (key : Nat)

def Registry.apply (mp : Registry) : SetOp → Option (Registry × Bool)
  | .insert key granted =>
    (mp.insertLocked key granted).map fun (mp, inserted) =>
      (if inserted then mp.setCount (sizeAdd mp.activeDynamicMemoryBufferCount 1) else mp, inserted)
  | .remove key =>
    (mp.removeLocked key).map fun (mp, removed) =>
      (if removed then mp.setCount (sizeSub mp.activeDynamicMemoryBufferCount 1) else mp, removed)
  | .contains key => (mp.containsLocked key).map fun found => (mp, found)

def SetOp.record (answer : Bool) (keys : List Nat) : SetOp → List Nat
  | .insert key _ => if answer then key :: keys else keys
  | .remove key => keys.erase key
  | .contains _ => keys

/-- Only addresses that are not NULL and not in the set are inserted. -/
def SetOp.Fresh (keys : List Nat) : SetOp → Prop
  | .insert key _ => key ≠ 0 ∧ key ∉ keys
  | _ => True

def SetOp.address : SetOp → Nat
  | .insert key _ => key
  | .remove key => key
  | .contains key => key

inductive Registry.Reached (P : SetOp → Prop) : Registry → List Nat → Prop
  | empty : Reached P .empty []
  | step {mp mp' : Registry} {keys : List Nat} {op : SetOp} {answer : Bool} (h : Reached P mp keys) (hfresh : op.Fresh keys)
      (hP : P op) (hs : mp.apply op = some (mp', answer)) : Reached P mp' (op.record answer keys)

theorem RegistryOk.apply (h : RegistryOk mp keys) (op : SetOp) (hfresh : op.Fresh keys) (hkey : op.address ≠ 0) :
    ∃ mp' answer, mp.apply op = some (mp', answer) ∧ RegistryOk mp' (op.record answer keys) := by
  cases op with
  | insert key granted =>
    rcases h.insert hfresh.1 hfresh.2 granted with ⟨hfail, -⟩ | ⟨mp', hinsert, -, hok⟩
    · exact ⟨mp, false, by rw [Registry.apply, hfail]; rfl, h⟩
    · exact ⟨_, true, by rw [Registry.apply, hinsert]; rfl, hok⟩
  | remove key =>
    by_cases hmem : key ∈ keys
    · obtain ⟨mp', hremove, -, hok⟩ := h.remove_mem hmem
      exact ⟨_, true, by rw [Registry.apply, hremove]; rfl, hok⟩
    · have hzero : key ≠ 0 := hkey
      refine ⟨mp, false, by rw [Registry.apply, h.remove_not_mem hzero hmem]; rfl, ?_⟩
      rw [SetOp.record, erase_of_not_mem hmem]
      exact h
  | contains key =>
    have hzero : key ≠ 0 := hkey
    exact ⟨mp, decide (key ∈ keys), by rw [Registry.apply, h.contains hzero]; rfl, h⟩

theorem registryOk_of_reached (h : mp.Reached (fun op => op.address ≠ 0) keys) : RegistryOk mp keys := by
  induction h with
  | empty => exact registryOk_empty
  | step _ hfresh hkey hs ih =>
    obtain ⟨mp', answer, happly, hok⟩ := ih.apply _ hfresh hkey
    rw [hs] at happly
    cases happly
    exact hok

/-! ## Frees of dynamic entries -/

/-- What happens to a pool and its live dynamic entries. Only a pool with the fallback asks for one. -/
inductive DynamicPool.Step : DynamicPool × List Nat → DynamicPool × List Nat → Prop
  | alloc {p p' : DynamicPool} {keys : List Nat} {userSize rawBlock entry : Nat} {granted : Bool}
      (hfallback : p.block.fallbackToDynamicMemory = true) (hnew : rawBlock + dynamicEntryPrefixSize ∉ keys)
      (hs : p.allocDynamicLocked userSize (some rawBlock) granted = some (p', some entry)) : Step (p, keys) (p', entry :: keys)
  | refused {p p' : DynamicPool} {keys : List Nat} {userSize : Nat} {rawBlock : Option Nat} {granted : Bool}
      (hnew : ∀ block, rawBlock = some block → block + dynamicEntryPrefixSize ∉ keys)
      (hs : p.allocDynamicLocked userSize rawBlock granted = some (p', none)) : Step (p, keys) (p', keys)
  | returned {p p' : DynamicPool} {keys : List Nat} {cEntry : Nat} (hs : p.freeBody cEntry = some (.returned p')) :
      Step (p, keys) (p', keys)
  | released {p p' : DynamicPool} {keys : List Nat} {cEntry : Nat} (hentry : cEntry ≠ 0)
      (hs : p.freeBody cEntry = some (.released p')) : Step (p, keys) (p', keys.erase cEntry)
  | entries {p : DynamicPool} {keys : List Nat} (mp : Mempool) : Step (p, keys) ({ p with mp := mp }, keys)

/-- The registry has the live dynamic entries, each of which has its header. -/
structure DynamicPool.Ok (p : DynamicPool) (keys : List Nat) : Prop where
  registry : RegistryOk p.registry keys
  fallback : keys ≠ [] → p.block.fallbackToDynamicMemory = true
  headers : ∀ key ∈ keys, ∃ userSize, p.headers key = some ⟨userSize, elemIsNotAPoolMember⟩

theorem entry_ne_zero (rawBlock : Nat) : rawBlock + dynamicEntryPrefixSize ≠ 0 := by
  have hsize : dynamicEntryPrefixSize = 16 := by decide
  omega

theorem DynamicPool.Ok.freeBody {p : DynamicPool} {cEntry : Nat} (h : p.Ok keys) (hentry : cEntry ≠ 0)
    (hout : p.block.validMempoolAddr cEntry = false) :
    (cEntry ∈ keys ∧ ∃ p', p.freeBody cEntry = some (.released p') ∧ p'.Ok (keys.erase cEntry) ∧ p'.block = p.block ∧
      p'.headerReads = cEntry :: p.headerReads) ∨
    (cEntry ∉ keys ∧ p.freeBody cEntry = some (.asserted p)) := by
  rw [DynamicPool.freeBody, hout, if_neg Bool.false_ne_true]
  by_cases hmem : cEntry ∈ keys
  · apply Or.inl
    obtain ⟨registry, hremove, -, hok⟩ := h.registry.remove_mem hmem
    have hcount : p.registry.activeDynamicMemoryBufferCount ≠ 0 := by
      have hpos := length_pos_of_mem hmem
      rw [h.registry.count]
      omega
    have hfallback := h.fallback (ne_nil_of_mem hmem)
    refine ⟨hmem, DynamicPool.releaseDynamicLocked { p with registry := registry } cEntry, ?_,
      ⟨hok, fun _ => hfallback, ?_⟩, rfl, rfl⟩
    · rw [hfallback, hremove]
      simp [hcount]
    · intro key hkey
      have hne : key ≠ cEntry := ((h.registry.nodup.mem_erase_iff).mp hkey).1
      obtain ⟨userSize, hheader⟩ := h.headers key (mem_of_mem_erase hkey)
      exact ⟨userSize, (Function.update_of_ne hne _ _).trans hheader⟩
  · apply Or.inr
    refine ⟨hmem, ?_⟩
    split
    · rfl
    · rw [h.registry.remove_not_mem hentry hmem]

theorem DynamicPool.Ok.alloc {p p' : DynamicPool} {userSize : Nat} {rawBlock result : Option Nat} {granted : Bool}
    (h : p.Ok keys) (hnew : ∀ block, rawBlock = some block → block + dynamicEntryPrefixSize ∉ keys)
    (hs : p.allocDynamicLocked userSize rawBlock granted = some (p', result)) :
    p'.block = p.block ∧ (result = none → p' = p) ∧
      ∀ entry, result = some entry → p.block.fallbackToDynamicMemory = true → p'.Ok (entry :: keys) := by
  unfold DynamicPool.allocDynamicLocked at hs
  split at hs
  · cases hs
    exact ⟨rfl, fun _ => rfl, nofun⟩
  · cases rawBlock with
    | none =>
      cases hs
      exact ⟨rfl, fun _ => rfl, nofun⟩
    | some rawBlock =>
      dsimp only at hs
      have hfresh := hnew rawBlock rfl
      rcases h.registry.insert (entry_ne_zero rawBlock) hfresh granted with ⟨hfail, -⟩ | ⟨registry, hinsert, -, hok⟩
      · rw [hfail] at hs
        cases hs
        exact ⟨rfl, fun _ => rfl, nofun⟩
      · rw [hinsert] at hs
        cases hs
        refine ⟨rfl, nofun, ?_⟩
        rintro entry ⟨⟩ hfallback
        refine ⟨hok, fun _ => hfallback, ?_⟩
        intro key hkey
        rcases mem_cons.mp hkey with rfl | hkey
        · exact ⟨userSize, Function.update_self _ _ _⟩
        · have hne : key ≠ rawBlock + dynamicEntryPrefixSize := by
            rintro rfl
            exact hfresh hkey
          obtain ⟨size, hheader⟩ := h.headers key hkey
          exact ⟨size, (Function.update_of_ne hne _ _).trans hheader⟩

theorem DynamicPool.Ok.step {q q' : DynamicPool × List Nat} (h : q.1.Ok q.2) (hs : DynamicPool.Step q q') :
    q'.1.Ok q'.2 ∧ q'.1.block = q.1.block := by
  cases hs with
  | @alloc p p' keys userSize rawBlock entry granted hfallback hnew hs =>
    obtain ⟨hblock, -, hok⟩ := h.alloc (by rintro block ⟨⟩; exact hnew) hs
    exact ⟨hok entry rfl hfallback, hblock⟩
  | refused hnew hs =>
    obtain ⟨-, hsame, -⟩ := h.alloc hnew hs
    rw [hsame rfl]
    exact ⟨h, rfl⟩
  | @returned p p' keys cEntry hs =>
    rw [DynamicPool.freeBody] at hs
    split at hs
    · split at hs
      · cases hs
      · cases hs
        exact ⟨⟨h.registry, h.fallback, h.headers⟩, rfl⟩
    · split at hs
      · cases hs
      · split at hs <;> cases hs
  | @released p p' keys cEntry hentry hs =>
    have hout : p.block.validMempoolAddr cEntry = false := by
      cases hvalid : p.block.validMempoolAddr cEntry with
      | false => rfl
      | true =>
        rw [DynamicPool.freeBody, hvalid, if_pos rfl] at hs
        split at hs <;> cases hs
    rcases h.freeBody hentry hout with ⟨-, p₁, hfree, hok, hblock, -⟩ | ⟨-, hassert⟩
    · rw [hs] at hfree
      cases hfree
      exact ⟨hok, hblock⟩
    · rw [hs] at hassert
      cases hassert
  | entries mp => exact ⟨⟨h.registry, h.fallback, h.headers⟩, rfl⟩

theorem DynamicPool.ok_of_steps {q q' : DynamicPool × List Nat} (h : q.1.Ok q.2)
    (hsteps : Relation.ReflTransGen DynamicPool.Step q q') : q'.1.Ok q'.2 ∧ q'.1.block = q.1.block := by
  induction hsteps with
  | refl => exact ⟨h, rfl⟩
  | tail _ hs ih =>
    obtain ⟨hok, hblock⟩ := ih.1.step hs
    exact ⟨hok, hblock.trans ih.2⟩

/-- A free of an entry that is gone is caught, until the allocator gives its address out again. -/
theorem DynamicPool.Ok.caught {q q' : DynamicPool × List Nat} {cEntry : Nat} (h : q.1.Ok q.2) (hentry : cEntry ≠ 0)
    (hout : q.1.block.validMempoolAddr cEntry = false) (hgone : cEntry ∉ q.2)
    (hsteps : Relation.ReflTransGen (fun a b => DynamicPool.Step a b ∧ cEntry ∉ b.2) q q') :
    q'.1.freeBody cEntry = some (.asserted q'.1) := by
  have hend : q'.1.Ok q'.2 ∧ q'.1.block = q.1.block ∧ cEntry ∉ q'.2 := by
    induction hsteps with
    | refl => exact ⟨h, rfl, hgone⟩
    | tail _ hs ih =>
      obtain ⟨hok, hblock⟩ := ih.1.step hs.1
      exact ⟨hok, hblock.trans ih.2.1, hs.2⟩
  obtain ⟨hok, hblock, hnot⟩ := hend
  rcases hok.freeBody hentry (by rw [hblock]; exact hout) with ⟨hmem, -⟩ | ⟨-, hassert⟩
  · exact absurd hmem hnot
  · exact hassert

theorem insertLocked_false {granted : Bool} (h : mp.insertLocked key granted = some (mp', false)) : mp' = mp := by
  simp only [Registry.insertLocked] at h
  split at h
  · split at h
    · cases h
      rfl
    · split at h
      · cases h
        rfl
      · split at h
        · cases h
        · split at h <;> cases h
  · split at h
    · cases h
    · split at h <;> cases h

/-- After any operations the registry answers for exactly the addresses in it, at most half of its slots are occupied, a
free reads the headers of live dynamic entries only, and a second free is caught. -/
theorem mp_dynamic_set_exact :
    (∀ mp keys, Registry.Reached (fun op => op.address ≠ 0) mp keys →
      (∀ key, key ≠ 0 → mp.containsLocked key = some (decide (key ∈ keys))) ∧
      (∀ op : SetOp, op.Fresh keys → op.address ≠ 0 → ∃ mp' answer, mp.apply op = some (mp', answer)) ∧
      (∀ key granted mp', mp.insertLocked key granted = some (mp', false) → mp' = mp) ∧
      (∀ key granted, key ≠ 0 → key ∉ keys →
        ((∃ mp', mp.insertLocked key granted = some (mp', true)) ↔ mp.CanInsert keys.length granted)) ∧
      ∀ table, mp.dynamicEntries = some table →
        2 * (entries table.capacity (slotView table.slots)).length ≤ table.capacity) ∧
    ∀ (p₀ p : DynamicPool) (keys : List Nat), p₀.registry = .empty → Relation.ReflTransGen DynamicPool.Step (p₀, []) (p, keys) →
      ∀ cEntry, cEntry ≠ 0 → p.block.validMempoolAddr cEntry = false →
        (cEntry ∉ keys → p.freeBody cEntry = some (.asserted p)) ∧
        (cEntry ∈ keys → ∃ p', p.freeBody cEntry = some (.released p') ∧ p'.headerReads = cEntry :: p.headerReads ∧
          (∃ userSize, p.headers cEntry = some ⟨userSize, elemIsNotAPoolMember⟩) ∧
          ∀ q, Relation.ReflTransGen (fun a b => DynamicPool.Step a b ∧ cEntry ∉ b.2) (p', keys.erase cEntry) q →
            q.1.freeBody cEntry = some (.asserted q.1)) := by
  constructor
  · intro mp keys hreach
    have hok := registryOk_of_reached hreach
    refine ⟨fun key hzero => hok.contains hzero, ?_, fun _ _ _ h => insertLocked_false h, ?_, ?_⟩
    · intro op hfresh hzero
      obtain ⟨mp', answer, happly, -⟩ := hok.apply op hfresh hzero
      exact ⟨mp', answer, happly⟩
    · intro key granted hzero hnew
      rcases hok.insert hzero hnew granted with ⟨hfail, hcannot⟩ | ⟨mp', hinsert, hcan, -⟩
      · exact iff_of_false (by rintro ⟨mp', hinsert⟩; rw [hfail] at hinsert; cases hinsert) hcannot
      · exact iff_of_true ⟨mp', hinsert⟩ hcan
    · intro table htable
      have hload := hok.load
      rw [Registry.capacity, htable, ← (hok.table table htable).holds.length_eq] at hload
      exact hload
  · intro p₀ p keys hempty hsteps cEntry hentry hout
    have hstart : p₀.Ok [] := ⟨by rw [hempty]; exact registryOk_empty, fun hne => absurd rfl hne, by rintro _ ⟨⟩⟩
    have hok : p.Ok keys := (DynamicPool.ok_of_steps hstart hsteps).1
    rcases hok.freeBody hentry hout with ⟨hmem, p', hfree, hok', hblock, hreads⟩ | ⟨hnot, hassert⟩
    · refine ⟨fun hnot => absurd hmem hnot, fun _ => ⟨p', hfree, hreads, hok.headers cEntry hmem, fun q hq => ?_⟩⟩
      have hgone : cEntry ∉ keys.erase cEntry := fun hstill => ((hok.registry.nodup.mem_erase_iff).mp hstill).1 rfl
      exact DynamicPool.Ok.caught hok' hentry (by rw [hblock]; exact hout) hgone hq
    · exact ⟨fun _ => hassert, fun hmem => absurd hmem hnot⟩

/-- A registry that has one address finds NULL in its first empty slot. -/
theorem mp_dynamic_set_contains_null :
    ∃ mp keys, Registry.Reached (fun _ => True) mp keys ∧ 0 ∉ keys ∧ mp.containsLocked 0 = some true := by
  have hrun : ((Registry.empty.apply (.insert 16 true)).bind fun r => if r.2 then r.1.containsLocked 0 else none) = some true := by
    decide +kernel
  obtain ⟨⟨mp, answer⟩, happly, hnull⟩ := Option.bind_eq_some_iff.mp hrun
  cases answer with
  | false => cases hnull
  | true =>
    have hfresh : (SetOp.insert 16 true).Fresh [] := ⟨by decide, not_mem_nil⟩
    have hreach : Registry.Reached (fun _ => True) mp [16] := Registry.Reached.step .empty hfresh trivial happly
    exact ⟨mp, [16], hreach, by decide, hnull⟩

/-- The set has 32 left after 64 came and went. -/
theorem mp_dynamic_set_exact_removed :
    ∃ mp, Registry.Reached (fun op => op.address ≠ 0) mp [32] ∧ mp.containsLocked 32 = some true ∧
      mp.containsLocked 64 = some false := by
  have hrun : ((Registry.empty.apply (.insert 32 true)).bind fun r => (r.1.apply (.insert 64 true)).bind fun r' =>
      (r'.1.apply (.remove 64)).map fun r'' => r.2 && r'.2 && r''.2) = some true := by decide +kernel
  obtain ⟨⟨mp₁, answer₁⟩, h₁, hrest⟩ := Option.bind_eq_some_iff.mp hrun
  obtain ⟨⟨mp₂, answer₂⟩, h₂, hrest⟩ := Option.bind_eq_some_iff.mp hrest
  obtain ⟨⟨mp₃, answer₃⟩, h₃, hrest⟩ := Option.map_eq_some_iff.mp hrest
  simp only [Bool.and_eq_true] at hrest
  obtain ⟨⟨rfl, rfl⟩, rfl⟩ := hrest
  have hfresh₁ : (SetOp.insert 32 true).Fresh [] := ⟨by decide, not_mem_nil⟩
  have hfresh₂ : (SetOp.insert 64 true).Fresh [32] := ⟨by decide, by decide⟩
  have hfresh₃ : (SetOp.remove 64).Fresh [64, 32] := trivial
  have hreach₁ : Registry.Reached (fun op => op.address ≠ 0) mp₁ [32] := Registry.Reached.step .empty hfresh₁ (by decide) h₁
  have hreach₂ : Registry.Reached (fun op => op.address ≠ 0) mp₂ [64, 32] := Registry.Reached.step hreach₁ hfresh₂ (by decide) h₂
  have hreach₃ : Registry.Reached (fun op => op.address ≠ 0) mp₃ [32] := Registry.Reached.step hreach₂ hfresh₃ (by decide) h₃
  have hcontains := (mp_dynamic_set_exact.1 mp₃ [32] hreach₃).1
  exact ⟨mp₃, hreach₃, hcontains 32 (by decide), hcontains 64 (by decide)⟩

end Ccollections.Cmempool
