import Ccollections.Cvector.Cvector

/-!
# The list a vector stands for
-/

namespace Ccollections.Cvector
open Lib Function List

abbrev Elem := List UInt8

variable {v : Cvec} {h : Heap} {xs ys : List Elem} {n : Nat}

def elems (elemSize n : Nat) (bytes : Bytes) : List Elem :=
  (List.range n).map fun i => window bytes (i * elemSize) elemSize

structure Rep (h : Heap) (v : Cvec) (xs : List Elem) : Prop where
  elemSize_pos : 0 < v.elemSize
  capacity_pow : ∃ k, 2 ≤ k ∧ k ≤ 63 ∧ v.capacity = 2 ^ k
  fits : v.capacity * v.elemSize ≤ sizeMax
  count_le : v.elemCount ≤ v.capacity
  data : ∃ b, h.blocks v.dataPtr = some b ∧ b.size = v.capacity * v.elemSize ∧ xs = elems v.elemSize v.elemCount b.bytes
  lt_next : v.dataPtr < h.next

/-- The list `xs'` is in the vector, every other block is kept, and the buffer may move to a new block. -/
structure Effect (h : Heap) (v : Cvec) (h' : Heap) (v' : Cvec) (xs' : List Elem) : Prop where
  rep : Rep h' v' xs'
  elemSize : v'.elemSize = v.elemSize
  frame : ∀ b, b ≠ v.dataPtr → b < h.next → h'.blocks b = h.blocks b
  next_le : h.next ≤ h'.next
  moved : v'.dataPtr = v.dataPtr ∨ h.next ≤ v'.dataPtr
  fate : h'.fate = h.fate
  requests_le : h.requests ≤ h'.requests

/-- No vector of elements of this size holds `n` of them: the count is past the maximum, or a buffer of a power of two
of them that has room for all is. -/
def TooLarge (elemSize n : Nat) : Prop := ccolMaxElemCount < n ∨ ∀ k, n ≤ 2 ^ k → sizeMax < 2 ^ k * elemSize

theorem Effect.trans {h h₁ h₂ : Heap} {v v₁ v₂ : Cvec} {xs₁ xs₂ : List Elem}
    (e₁ : Effect h v h₁ v₁ xs₁) (e₂ : Effect h₁ v₁ h₂ v₂ xs₂) : Effect h v h₂ v₂ xs₂ where
  rep := e₂.rep
  elemSize := e₂.elemSize.trans e₁.elemSize
  frame := by
    intro b hb hbn
    have hv₁ : b ≠ v₁.dataPtr := by
      rcases e₁.moved with he | hge
      · rw [he]; exact hb
      · omega
    rw [e₂.frame b hv₁ (Nat.lt_of_lt_of_le hbn e₁.next_le), e₁.frame b hb hbn]
  next_le := Nat.le_trans e₁.next_le e₂.next_le
  moved := by
    have h₁ := e₁.next_le
    rcases e₂.moved with he | hge
    · rw [he]; exact e₁.moved
    · exact .inr (Nat.le_trans h₁ hge)
  fate := e₂.fate.trans e₁.fate
  requests_le := Nat.le_trans e₁.requests_le e₂.requests_le

theorem Effect.refused {h h₁ h' : Heap} {v v₁ : Cvec} (he : Effect h v h₁ v₁ xs) (hr : h₁.Refused h') : h.Refused h' :=
  hr.of_right he.fate he.requests_le

theorem Rep.effect_refl (hr : Rep h v xs) : Effect h v h v xs :=
  ⟨hr, rfl, fun _ _ _ => rfl, Nat.le_refl _, .inl rfl, rfl, Nat.le_refl _⟩

theorem Rep.capacity_le (hr : Rep h v xs) : v.capacity ≤ ccolMaxElemCount := by
  obtain ⟨k, _, hk, hcap⟩ := hr.capacity_pow
  rw [hcap]
  exact Nat.pow_le_pow_right Nat.two_pos hk

theorem Rep.capacity_ge (hr : Rep h v xs) : 4 ≤ v.capacity := by
  obtain ⟨k, hk, _, hcap⟩ := hr.capacity_pow
  rw [hcap]
  exact Nat.pow_le_pow_right Nat.two_pos hk

theorem Rep.mul_eq (hr : Rep h v xs) (hn : n ≤ v.capacity) :
    sizeMul n v.elemSize = n * v.elemSize :=
  sizeMul_eq (Nat.le_trans (Nat.mul_le_mul_right _ hn) hr.fits)

theorem Rep.length (hr : Rep h v xs) : xs.length = v.elemCount := by
  obtain ⟨b, _, _, rfl⟩ := hr.data
  simp [elems]

/-! ## Elements of a region -/

theorem elems_length (elemSize n : Nat) (bytes : Bytes) : (elems elemSize n bytes).length = n := by
  simp [elems]

theorem elems_congr {elemSize n : Nat} {bytes bytes' : Bytes} (h : ∀ a < n * elemSize, bytes a = bytes' a) :
    elems elemSize n bytes = elems elemSize n bytes' := by
  apply map_congr_left
  intro i hi
  refine window_congr fun b hb => h _ ?_
  have hle : (i + 1) * elemSize ≤ n * elemSize := Nat.mul_le_mul_right _ (mem_range.mp hi)
  rw [Nat.succ_mul] at hle
  omega

theorem elems_add (elemSize n m : Nat) (bytes : Bytes) :
    elems elemSize (n + m) bytes =
      elems elemSize n bytes ++ elems elemSize m fun a => bytes (n * elemSize + a) := by
  unfold elems
  rw [range_add, map_append, map_map]
  congr 1
  apply map_congr_left
  intro i _
  refine window_congr fun b _ => ?_
  rw [Nat.add_mul, Nat.add_assoc]

theorem elems_take {elemSize n m : Nat} (hn : m ≤ n) (bytes : Bytes) :
    (elems elemSize n bytes).take m = elems elemSize m bytes := by
  obtain ⟨k, rfl⟩ := Nat.exists_eq_add_of_le hn
  have hlen := elems_length elemSize m bytes
  rw [elems_add, take_left' hlen]

theorem elems_range {elemSize n first count : Nat} (hle : first + count ≤ n) (bytes : Bytes) :
    ((elems elemSize n bytes).drop first).take count =
      elems elemSize count fun a => bytes (first * elemSize + a) := by
  obtain ⟨k, rfl⟩ := Nat.exists_eq_add_of_le hle
  rw [Nat.add_assoc, elems_add, drop_left' (elems_length _ _ _), elems_take (Nat.le_add_right _ _)]

/-! ## Resizing the buffer -/

theorem Rep.realloc (hr : Rep h v xs) {c : Nat}
    (hpow : ∃ k, 2 ≤ k ∧ k ≤ 63 ∧ c = 2 ^ k) (hfits : c * v.elemSize ≤ sizeMax) (hcount : v.elemCount ≤ c) :
    (∃ h', h.realloc v.dataPtr (c * v.elemSize) = some (h', none) ∧ h.Refused h' ∧ Effect h v h' v xs) ∨
    ∃ h' d, h.realloc v.dataPtr (c * v.elemSize) = some (h', some d) ∧
      Effect h v h' { v with dataPtr := d, capacity := c } xs := by
  obtain ⟨b, hb, hsize, hxs⟩ := hr.data
  have hlt := hr.lt_next
  rcases Heap.realloc_cases hb (c * v.elemSize) with ⟨hfate, hfail⟩ | ⟨junk, hok⟩
  · refine .inl ⟨_, hfail, .request hfate (Nat.lt_succ_self _), ?_⟩
    exact {
      rep := ⟨hr.elemSize_pos, hr.capacity_pow, hr.fits, hr.count_le, ⟨b, hb, hsize, hxs⟩, hlt⟩
      elemSize := rfl
      frame := fun _ _ _ => rfl
      next_le := Nat.le_refl _
      moved := .inl rfl
      fate := rfl
      requests_le := Nat.le_succ _ }
  · refine .inr ⟨_, _, hok, ?_⟩
    have hkeep : elems v.elemSize v.elemCount (Heap.resized b (c * v.elemSize) junk).bytes = xs := by
      rw [hxs]
      refine elems_congr fun a ha => ?_
      have hc : v.elemCount * v.elemSize ≤ c * v.elemSize := Nat.mul_le_mul_right _ hcount
      have hv : v.elemCount * v.elemSize ≤ v.capacity * v.elemSize := Nat.mul_le_mul_right _ hr.count_le
      simp only [Heap.resized, hsize]
      rw [if_pos (by omega)]
    exact {
      rep := ⟨hr.elemSize_pos, hpow, hfits, hcount, ⟨_, by simp, rfl, hkeep.symm⟩, Nat.lt_succ_self _⟩
      elemSize := rfl
      frame := by
        intro a ha han
        have hne : a ≠ h.next := by omega
        simp [update_of_ne hne, update_of_ne ha]
      next_le := Nat.le_succ _
      moved := .inr (Nat.le_refl _)
      fate := rfl
      requests_le := Nat.le_succ _ }

theorem Rep.shorten (hr : Rep h v xs) (hn : n ≤ v.elemCount) :
    Effect h v h { v with elemCount := n } (xs.take n) := by
  obtain ⟨b, hb, hsize, hxs⟩ := hr.data
  refine ⟨⟨hr.elemSize_pos, hr.capacity_pow, hr.fits, Nat.le_trans hn hr.count_le, ⟨b, hb, hsize, ?_⟩, hr.lt_next⟩,
    rfl, fun _ _ _ => rfl, Nat.le_refl _, .inl rfl, rfl, Nat.le_refl _⟩
  rw [hxs, elems_take hn]

/-! ## Sources of elements -/

/-- `p` points at `n` elements `ys` that a caller may pass: live elements of `v` itself, or another block's. -/
inductive SrcOk (h : Heap) (v : Cvec) (xs : List Elem) (p : Ptr) (n : Nat) (ys : List Elem) : Prop
  | own (first : Nat) (hp : p = v.addr (first * v.elemSize)) (hle : first + n ≤ v.elemCount)
      (hys : ys = (xs.drop first).take n)
  | other (c : Block) (hne : p.block ≠ v.dataPtr) (hc : h.blocks p.block = some c) (hlt : p.block < h.next)
      (hle : p.off + n * v.elemSize ≤ c.size) (hys : ys = elems v.elemSize n fun a => c.bytes (p.off + a))

theorem SrcOk.resolve {p : Ptr} (hr : Rep h v xs)
    (hs : SrcOk h v xs p n ys) :
    ∃ c, h.blocks p.block = some c ∧ p.off + n * v.elemSize ≤ c.size ∧
      ys = elems v.elemSize n (fun a => c.bytes (p.off + a)) ∧
      Heap.overlap (v.addr (v.elemCount * v.elemSize)) p (n * v.elemSize) = false := by
  cases hs with
  | own first hp hle hys =>
    obtain ⟨b, hb, hsize, hxs⟩ := hr.data
    have hcount : (first + n) * v.elemSize ≤ v.elemCount * v.elemSize := Nat.mul_le_mul_right _ hle
    have hcap : v.elemCount * v.elemSize ≤ v.capacity * v.elemSize := Nat.mul_le_mul_right _ hr.count_le
    rw [Nat.add_mul] at hcount
    subst hp
    refine ⟨b, hb, by simp only [Cvec.addr]; omega, ?_, ?_⟩
    · rw [hys, hxs, elems_range hle]
      rfl
    · simp only [Heap.overlap, Cvec.addr, decide_eq_false_iff_not]
      omega
  | other c hne hc hlt hle hys =>
    refine ⟨c, hc, hle, hys, ?_⟩
    refine decide_eq_false fun ho => ?_
    exact hne ho.1.symm

theorem SrcOk.moved {h h' : Heap} {v v' : Cvec} {p : Ptr} (hn : 0 < n)
    (hr : Rep h v xs) (hs : SrcOk h v xs p n ys) (he : Effect h v h' v' xs) :
    SrcOk h' v' xs (if v.aliases p then v'.addr p.off else p) n ys := by
  have hcount : v'.elemCount = v.elemCount := by rw [← he.rep.length, hr.length]
  cases hs with
  | own first hp hle hys =>
    have hpos := hr.elemSize_pos
    have hlt : first < v.capacity := by have := hr.count_le; omega
    have hal : v.aliases p = true := by
      subst hp
      simp only [Cvec.aliases, Cvec.addr, hr.mul_eq (Nat.le_refl _), true_and, decide_eq_true_eq]
      exact Nat.mul_lt_mul_of_pos_right hlt hpos
    rw [if_pos hal]
    refine .own first ?_ (by omega) hys
    rw [hp, he.elemSize]
    rfl
  | other c hne hc hlt hle hys =>
    have hal : v.aliases p = false := by simp [Cvec.aliases, hne]
    rw [if_neg (by simp [hal])]
    refine .other c ?_ ?_ (Nat.lt_of_lt_of_le hlt he.next_le) (by rwa [he.elemSize]) (by rwa [he.elemSize])
    · rcases he.moved with hv | hge
      · rw [hv]; exact hne
      · omega
    · rw [he.frame _ hne hlt, hc]

theorem SrcOk.aliases_bound {p : Ptr} (hr : Rep h v xs)
    (hs : SrcOk h v xs p n ys) (hal : v.aliases p = true) :
    n ≤ (sizeMul v.capacity v.elemSize - p.off) / v.elemSize := by
  cases hs with
  | own first hp hle hys =>
    subst hp
    rw [Nat.le_div_iff_mul_le hr.elemSize_pos, hr.mul_eq (Nat.le_refl _)]
    have hle' : (first + n) * v.elemSize ≤ v.capacity * v.elemSize :=
      Nat.mul_le_mul_right _ (Nat.le_trans hle hr.count_le)
    rw [Nat.add_mul] at hle'
    simp only [Cvec.addr]
    omega
  | other c hne hc hlt hle hys => simp [Cvec.aliases, hne] at hal

/-! ## Writing the tail -/

theorem Rep.tail_written {p : Ptr} {b c : Block}
    (hr : Rep h v xs) (hb : h.blocks v.dataPtr = some b) (hroom : v.elemCount + n ≤ v.capacity)
    (hys : ys = elems v.elemSize n fun a => c.bytes (p.off + a)) :
    Effect h v
      { h with blocks := update h.blocks v.dataPtr (some { b with
          bytes := copyBytes b.bytes (v.elemCount * v.elemSize) c.bytes p.off (n * v.elemSize) }) }
      { v with elemCount := v.elemCount + n } (xs ++ ys) := by
  obtain ⟨b', hb', hsize, hxs⟩ := hr.data
  obtain rfl : b' = b := by rw [hb] at hb'; exact (Option.some.inj hb').symm
  have hlist : xs ++ ys = elems v.elemSize (v.elemCount + n)
      (copyBytes b'.bytes (v.elemCount * v.elemSize) c.bytes p.off (n * v.elemSize)) := by
    rw [elems_add, hxs, hys]
    congr 1
    · exact elems_congr fun a ha => (copyBytes_outside (.inl ha)).symm
    · refine elems_congr fun a ha => ?_
      rw [copyBytes_inside (Nat.le_add_right _ _) (by omega)]
      congr 1
      omega
  exact {
    rep := ⟨hr.elemSize_pos, hr.capacity_pow, hr.fits, hroom, ⟨_, update_self .., hsize, hlist⟩, hr.lt_next⟩
    elemSize := rfl
    frame := fun a ha _ => by simp [update_of_ne ha]
    next_le := Nat.le_refl _
    moved := .inl rfl
    fate := rfl
    requests_le := Nat.le_refl _ }

theorem cvectorCopyIntoTail_spec {p : Ptr} (hr : Rep h v xs)
    (hs : SrcOk h v xs p n ys) (hroom : v.elemCount + n ≤ v.capacity) :
    ∃ h', cvectorCopyIntoTail h v p (sizeMul n v.elemSize) = some h' ∧
      Effect h v h' { v with elemCount := v.elemCount + n } (xs ++ ys) := by
  obtain ⟨c, hc, hle, hys, hno⟩ := hs.resolve hr
  obtain ⟨b, hb, hsize, -⟩ := hr.data
  have hdst : v.elemCount * v.elemSize + n * v.elemSize ≤ b.size := by
    rw [hsize, ← Nat.add_mul]
    exact Nat.mul_le_mul_right _ hroom
  have hmul := hr.mul_eq (n := n) (by omega)
  refine ⟨_, ?_, hr.tail_written hb hroom hys⟩
  simp only [cvectorCopyIntoTail, hmul, hr.mul_eq hr.count_le, hno]
  exact @Heap.memcpy_eq h (v.addr _) p _ b c hb hc hdst hle hno

/-!
# What each operation does to the list of a vector

One lemma per operation. None of them is ever stuck, a success changes the list as the list operation
does, and a failure leaves the list as it was.
-/

variable {h : Heap} {v : Cvec} {xs ys : List Elem} {p : Ptr} {n : Nat}

theorem pow_half {c : Nat} (hpow : ∃ k, 2 ≤ k ∧ k ≤ 63 ∧ c = 2 ^ k) (hne : c ≠ 4) :
    ∃ k, 2 ≤ k ∧ k ≤ 63 ∧ c / 2 = 2 ^ k := by
  obtain ⟨k, hk, hk', rfl⟩ := hpow
  have h2 : k ≠ 2 := by rintro rfl; exact hne rfl
  obtain ⟨j, rfl⟩ : ∃ j, k = j + 1 := ⟨k - 1, by omega⟩
  refine ⟨j, by omega, by omega, ?_⟩
  rw [pow_succ, Nat.mul_div_cancel _ Nat.two_pos]

theorem pow_double {c : Nat} (hpow : ∃ k, 2 ≤ k ∧ k ≤ 63 ∧ c = 2 ^ k) (hle : c ≤ ccolMaxElemCount / 2) :
    ∃ k, 2 ≤ k ∧ k ≤ 63 ∧ 2 * c = 2 ^ k := by
  obtain ⟨k, hk, hk', rfl⟩ := hpow
  have hlt : k < 63 := by
    by_contra hge
    obtain rfl : k = 63 := by omega
    revert hle
    decide
  exact ⟨k + 1, by omega, by omega, by rw [pow_succ, Nat.mul_comm]⟩

theorem mul_le_of_le_div {c e : Nat} (he : 0 < e) (hle : ¬c > sizeMax / e) : c * e ≤ sizeMax :=
  (Nat.le_div_iff_mul_le he).mp (Nat.not_lt.mp hle)

theorem scaleTheCvectorSizeUp_spec (hr : Rep h v xs) (hfull : v.elemCount = v.capacity) :
    (∃ h' v', scaleTheCvectorSizeUp h v = some (h', v', .success) ∧ Effect h v h' v' xs ∧ v'.elemCount < v'.capacity) ∨
    ∃ h' r, scaleTheCvectorSizeUp h v = some (h', v, r) ∧ r ≠ .success ∧ Effect h v h' v xs ∧
      (r = .containerFull ∧ TooLarge v.elemSize (v.elemCount + 1) ∨ r = .notEnoughMemory ∧ h.Refused h') := by
  obtain ⟨j, -, hj, hcapj⟩ := hr.capacity_pow
  unfold scaleTheCvectorSizeUp
  split
  · rename_i hmax
    refine .inr ⟨h, .containerFull, rfl, by decide, hr.effect_refl, .inl ⟨rfl, .inl ?_⟩⟩
    -- The next power of two past the half of the maximum is the maximum itself.
    have hlast : ¬j < 63 := by
      intro hlt
      have hpow : 2 ^ j ≤ 2 ^ 62 := Nat.pow_le_pow_right Nat.two_pos (by omega)
      rw [hcapj, ccolMaxElemCount_eq, ccolCvectorScalingFactor] at hmax
      omega
    obtain rfl : j = 63 := by omega
    rw [hfull, hcapj, ccolMaxElemCount_eq]
    omega
  · rename_i hmax
    have hle : v.capacity ≤ ccolMaxElemCount / 2 := Nat.not_lt.mp hmax
    have hcap : sizeMul ccolCvectorScalingFactor v.capacity = 2 * v.capacity := by
      refine sizeMul_eq ?_
      rw [ccolMaxElemCount_eq] at hle
      rw [sizeMax_eq, ccolCvectorScalingFactor]
      omega
    have hcap' : sizeMul v.capacity ccolCvectorScalingFactor = 2 * v.capacity := by
      rw [← hcap, sizeMul, sizeMul, Nat.mul_comm]
    simp only [hcap, hcap']
    split
    · rename_i hbytes
      refine .inr ⟨h, .containerFull, rfl, by decide, hr.effect_refl, .inl ⟨rfl, .inr fun k hk => ?_⟩⟩
      have hjk : j < k := (Nat.pow_lt_pow_iff_right Nat.one_lt_two).mp (by omega)
      have hdouble : 2 * v.capacity ≤ 2 ^ k := by
        rw [hcapj, Nat.mul_comm, ← pow_succ]
        exact Nat.pow_le_pow_right Nat.two_pos hjk
      exact Nat.lt_of_lt_of_le ((Nat.div_lt_iff_lt_mul hr.elemSize_pos).mp hbytes) (Nat.mul_le_mul_right _ hdouble)
    · rename_i hbytes
      have hfits := mul_le_of_le_div hr.elemSize_pos hbytes
      rw [sizeMul_eq hfits]
      rcases hr.realloc (pow_double hr.capacity_pow hle) hfits (by omega) with ⟨h', he, href, heff⟩ | ⟨h', d, he, heff⟩
      · rw [he]
        exact .inr ⟨h', .notEnoughMemory, rfl, by decide, heff, .inr ⟨rfl, href⟩⟩
      · rw [he]
        refine .inl ⟨h', _, rfl, heff, ?_⟩
        have := hr.capacity_ge
        simp only
        omega

theorem scaleTheCvectorSizeDown_spec (hr : Rep h v xs) (hcount : v.elemCount ≤ v.capacity / 2) :
    ∃ h' v', scaleTheCvectorSizeDown h v = some (h', v') ∧ Effect h v h' v' xs := by
  unfold scaleTheCvectorSizeDown
  split
  · exact ⟨h, v, rfl, hr.effect_refl⟩
  · rename_i hne
    have hfits : v.capacity / 2 * v.elemSize ≤ sizeMax :=
      Nat.le_trans (Nat.mul_le_mul_right _ (Nat.div_le_self _ _)) hr.fits
    simp only [ccolCvectorScalingFactor, sizeMul_eq hfits]
    rcases hr.realloc (pow_half hr.capacity_pow hne) hfits hcount with ⟨h', he, -, heff⟩ | ⟨h', d, he, heff⟩
    · rw [he]; exact ⟨h', v, rfl, heff⟩
    · rw [he]; exact ⟨h', _, rfl, heff⟩

theorem ccolFindNearestGtePowerOfTwo_le {k : Nat} (hn : n ≤ ccolMaxElemCount) (hk : n ≤ 2 ^ k) :
    ccolFindNearestGtePowerOfTwo n ≤ 2 ^ k := by
  by_cases h1 : n ≤ 1
  · rw [ccolFindNearestGtePowerOfTwo, if_pos h1]
    exact Nat.one_le_two_pow
  · obtain ⟨j, -, hpow, -, hlt⟩ := ccolFindNearestGtePowerOfTwo_spec hn
    have hjk : j < k + 1 := by
      have hsucc := pow_succ 2 k
      exact (Nat.pow_lt_pow_iff_right Nat.one_lt_two).mp (Nat.lt_of_lt_of_le (hlt (Nat.not_le.mp h1)) (by omega))
    rw [hpow]
    exact Nat.pow_le_pow_right Nat.two_pos (Nat.le_of_lt_succ hjk)

theorem Rep.not_tooLarge {n : Nat} (hr : Rep h v xs) (hn : n ≤ v.capacity) : ¬TooLarge v.elemSize n := by
  obtain ⟨k, -, -, hpow⟩ := hr.capacity_pow
  rintro (hmax | hbytes)
  · exact absurd (Nat.le_trans hn hr.capacity_le) (Nat.not_le.mpr hmax)
  · have hover := hbytes k (hpow ▸ hn)
    rw [← hpow] at hover
    exact absurd hr.fits (Nat.not_le.mpr hover)

theorem cvectorReserve_spec (hr : Rep h v xs) (n : Nat) :
    ∃ h' v' ok, cvectorReserve h v n = some (h', v', ok) ∧ Effect h v h' v' xs ∧ (ok = true → n ≤ v'.capacity) ∧
      (ok = false → TooLarge v.elemSize n ∨ h.Refused h') := by
  unfold cvectorReserve
  by_cases hmax : n ≤ ccolMaxElemCount
  · obtain ⟨k, hk, hpow, hle, -⟩ := ccolFindNearestGtePowerOfTwo_spec hmax
    -- The rounded request is a power of two of at least the minimum capacity.
    obtain ⟨c, hc, hcpow, hnc, hleast⟩ : ∃ c, (if ccolFindNearestGtePowerOfTwo n < ccolCvectorMinimumCapacity
        then ccolCvectorMinimumCapacity else ccolFindNearestGtePowerOfTwo n) = c ∧
        (∃ k, 2 ≤ k ∧ k ≤ 63 ∧ c = 2 ^ k) ∧ n ≤ c ∧ (c = 4 ∨ c = ccolFindNearestGtePowerOfTwo n) := by
      rw [hpow]
      split
      · rename_i hlt
        exact ⟨4, rfl, ⟨2, by omega, by omega, rfl⟩, by rw [ccolCvectorMinimumCapacity] at hlt; omega, .inl rfl⟩
      · rename_i hge
        refine ⟨_, rfl, ⟨k, ?_, hk, rfl⟩, hle, .inr rfl⟩
        by_contra hlt
        have : 2 ^ k ≤ 2 ^ 1 := Nat.pow_le_pow_right Nat.two_pos (by omega)
        rw [ccolCvectorMinimumCapacity] at hge
        omega
    simp only [hc]
    split
    · rename_i hlarge
      obtain ⟨j, -, hj, hcj⟩ := hcpow
      rw [hcj] at hlarge
      exact absurd (Nat.pow_le_pow_right Nat.two_pos hj) (Nat.not_le.mpr hlarge)
    · split
      · rename_i hbytes
        refine ⟨h, v, false, rfl, hr.effect_refl, by simp, fun _ => .inl (.inr fun j hj => ?_)⟩
        have hlt : sizeMax < c * v.elemSize := (Nat.div_lt_iff_lt_mul hr.elemSize_pos).mp hbytes
        rcases hleast with rfl | hleast
        · have hfour : 4 * v.elemSize ≤ sizeMax := Nat.le_trans (Nat.mul_le_mul_right _ hr.capacity_ge) hr.fits
          exact absurd hfour (Nat.not_le.mpr hlt)
        · rw [hleast] at hlt
          exact Nat.lt_of_lt_of_le hlt (Nat.mul_le_mul_right _ (ccolFindNearestGtePowerOfTwo_le hmax hj))
      · rename_i hbytes
        split
        · rename_i hcap
          exact ⟨h, v, true, rfl, hr.effect_refl, fun _ => Nat.le_trans hnc hcap, by simp⟩
        · rename_i hcap
          have hfits := mul_le_of_le_div hr.elemSize_pos hbytes
          have hcount := hr.count_le
          rw [sizeMul_eq hfits]
          rcases hr.realloc hcpow hfits (by omega) with ⟨h', he, href, heff⟩ | ⟨h', d, he, heff⟩
          · rw [he]; exact ⟨h', v, false, rfl, heff, by simp, fun _ => .inr href⟩
          · rw [he]; exact ⟨h', _, true, rfl, heff, fun _ => hnc, by simp⟩
  · have hinv := ccolFindNearestGtePowerOfTwo_invalid (Nat.not_le.mp hmax)
    have h1 : ¬ccolInvalidSize < ccolCvectorMinimumCapacity := by decide
    have h2 : ccolInvalidSize > ccolMaxElemCount := by decide
    simp only [hinv, if_neg h1, if_pos h2]
    exact ⟨h, v, false, rfl, hr.effect_refl, by simp, fun _ => .inl (.inl (Nat.not_le.mp hmax))⟩

theorem sizeAdd_one (hr : Rep h v xs) (hlt : v.elemCount < v.capacity) : sizeAdd v.elemCount 1 = v.elemCount + 1 := by
  have hcap := hr.capacity_le
  refine sizeAdd_eq ?_
  rw [ccolMaxElemCount_eq] at hcap
  rw [sizeMax_eq]
  omega

theorem memcpy_tail_spec (hr : Rep h v xs) (hs : SrcOk h v xs p 1 ys) (hlt : v.elemCount < v.capacity) :
    ∃ h', h.memcpy (v.addr (sizeMul v.elemCount v.elemSize)) p v.elemSize = some h' ∧
      Effect h v h' { v with elemCount := sizeAdd v.elemCount 1 } (xs ++ ys) := by
  obtain ⟨c, hc, hle, hys, hno⟩ := hs.resolve hr
  obtain ⟨b, hb, hsize, -⟩ := hr.data
  rw [Nat.one_mul] at hle hno
  have hdst : v.elemCount * v.elemSize + v.elemSize ≤ b.size := by
    rw [hsize, ← Nat.succ_mul]
    exact Nat.mul_le_mul_right _ hlt
  rw [sizeAdd_one hr hlt, hr.mul_eq hr.count_le]
  refine ⟨_, @Heap.memcpy_eq h (v.addr _) p _ b c hb hc hdst hle hno, ?_⟩
  have htail := hr.tail_written hb hlt hys
  rw [Nat.one_mul] at htail
  exact htail

theorem cvectorPushBack_spec (hr : Rep h v xs) (hs : SrcOk h v xs p 1 ys) :
    ∃ h' v' r, cvectorPushBack h v p = some (h', v', r) ∧
      Effect h v h' v' (if r = .success then xs ++ ys else xs) ∧
      (r = .success ∨ r = .containerFull ∧ TooLarge v.elemSize (xs.length + 1) ∨
        r = .notEnoughMemory ∧ h.Refused h') := by
  rw [hr.length]
  unfold cvectorPushBack
  split
  · rename_i hmax
    exact ⟨h, v, .containerFull, rfl, by simpa using hr.effect_refl, .inr (.inl ⟨rfl, .inl (by omega)⟩)⟩
  · split
    · rename_i hlt
      obtain ⟨h', hm, heff⟩ := memcpy_tail_spec hr hs hlt
      rw [hm]
      exact ⟨h', _, .success, rfl, by simpa using heff, .inl rfl⟩
    · rename_i hge
      have hfull : v.elemCount = v.capacity := Nat.le_antisymm hr.count_le (Nat.not_lt.mp hge)
      rcases scaleTheCvectorSizeUp_spec hr hfull with ⟨h₁, v₁, he, heff, hlt⟩ | ⟨h₁, r, he, hne, heff, hwhy⟩
      · obtain ⟨h', hm, heff'⟩ := memcpy_tail_spec heff.rep (hs.moved Nat.one_pos hr heff) hlt
        simp only [he, hm]
        exact ⟨h', _, .success, rfl, by simpa using heff.trans heff', .inl rfl⟩
      · rw [he]
        refine ⟨h₁, v, r, ?_, by simpa [hne] using heff, .inr hwhy⟩
        cases r <;> first | rfl | exact absurd rfl hne

theorem cvectorPopBack_spec (hr : Rep h v xs) :
    (xs = [] ∧ cvectorPopBack h v = some (h, v, .containerEmpty, none)) ∨
    ∃ h' v' x, xs.getLast? = some x ∧ cvectorPopBack h v = some (h', v', .success, some x) ∧
      Effect h v h' v' xs.dropLast := by
  have hlen := hr.length
  unfold cvectorPopBack
  by_cases hpos : v.elemCount > 0
  · rw [if_pos hpos]
    refine .inr ?_
    obtain ⟨m, hm⟩ : ∃ m, v.elemCount = m + 1 := ⟨v.elemCount - 1, by omega⟩
    obtain ⟨b, hb, hsize, hxs⟩ := hr.data
    have hcount := hr.count_le
    have hm' : v.elemCount - 1 = m := by omega
    have hshort := hr.shorten (n := m) (by omega)
    have hlast : xs.getLast? = some (window b.bytes (m * v.elemSize) v.elemSize) := by
      simp [hxs, hm, elems, range_succ]
    have hdrop : xs.take m = xs.dropLast := by
      rw [dropLast_eq_take, hlen, hm']
    rw [hdrop] at hshort
    have hle : m * v.elemSize + v.elemSize ≤ b.size := by
      rw [hsize, ← Nat.succ_mul]
      exact Nat.mul_le_mul_right _ (by omega)
    have hmul : sizeMul m v.elemSize = m * v.elemSize := hr.mul_eq (by omega)
    have hload : h.load ({ v with elemCount := m }.addr (m * v.elemSize)) v.elemSize =
        some fun a => b.bytes (m * v.elemSize + a) := @Heap.load_eq h ⟨v.dataPtr, m * v.elemSize⟩ _ b hb hle
    have hwin : window (fun a => b.bytes (m * v.elemSize + a)) 0 v.elemSize =
        window b.bytes (m * v.elemSize) v.elemSize := window_congr fun a _ => by simp only [Nat.zero_add]
    simp only [hm', hmul, hload, hwin]
    by_cases hshrink : m < v.capacity / shrinkThresholdDivisor
    · rw [if_pos hshrink]
      have hhalf : m ≤ v.capacity / 2 := by
        rw [shrinkThresholdDivisor] at hshrink
        omega
      obtain ⟨h', v', he, heff⟩ := scaleTheCvectorSizeDown_spec hshort.rep hhalf
      rw [he]
      exact ⟨h', v', _, hlast, rfl, hshort.trans heff⟩
    · rw [if_neg hshrink]
      exact ⟨h, _, _, hlast, rfl, hshort⟩
  · rw [if_neg hpos]
    refine .inl ⟨?_, rfl⟩
    exact length_eq_zero_iff.mp (by omega)

theorem sum_large {count : Nat} (hcount : count ≤ sizeMax) (hn : n ≤ sizeMax)
    (hsum : sizeAdd count n < count ∨ sizeAdd count n > ccolMaxElemCount) : ccolMaxElemCount < count + n := by
  rcases hsum with hwrap | hlarge
  · have hover := (sizeAdd_lt_iff hcount hn).mp hwrap
    rw [sizeMax_eq] at hover
    rw [ccolMaxElemCount_eq]
    omega
  · exact Nat.lt_of_lt_of_le hlarge (Nat.mod_le _ _)

theorem cvectorAppendArray_spec (hr : Rep h v xs) (hs : SrcOk h v xs p n ys) (hn : n ≤ sizeMax) :
    ∃ h' v' ok, cvectorAppendArray h v p n = some (h', v', ok) ∧
      Effect h v h' v' (if ok = true then xs ++ ys else xs) ∧
      (ok = false → TooLarge v.elemSize (xs.length + n) ∨ h.Refused h') := by
  rw [hr.length]
  unfold cvectorAppendArray
  by_cases hzero : n = 0
  · rw [if_pos hzero]
    have hys : ys = [] := by
      cases hs with
      | own first hp hle hys => rw [hys, hzero, take_zero]
      | other c hne hc hlt hle hys => rw [hys, hzero]; rfl
    exact ⟨h, v, true, rfl, by simpa [hys] using hr.effect_refl, by simp⟩
  · rw [if_neg hzero]
    have hcap := hr.capacity_le
    have hcount := hr.count_le
    have hcountMax : v.elemCount ≤ sizeMax := by
      rw [ccolMaxElemCount_eq] at hcap
      rw [sizeMax_eq]
      omega
    dsimp only
    split
    · rename_i hsum
      exact ⟨h, v, false, rfl, by simpa using hr.effect_refl, fun _ => .inl (.inl (sum_large hcountMax hn hsum))⟩
    · rename_i hsum
      have hnowrap : v.elemCount + n ≤ sizeMax := by
        have := (sizeAdd_lt_iff hcountMax hn).not.mp (fun hlt => hsum (.inl hlt))
        omega
      rw [sizeAdd_eq hnowrap] at hsum ⊢
      split
      · -- A range of live elements never runs past the reservation.
        rename_i hbound
        exact absurd (hs.aliases_bound hr hbound.1) (Nat.not_le.mpr hbound.2)
      · split
        · rename_i hroom
          obtain ⟨h', he, heff⟩ := cvectorCopyIntoTail_spec hr hs hroom
          rw [he]
          exact ⟨h', _, true, rfl, by simpa using heff, by simp⟩
        · obtain ⟨h₁, v₁, ok, he, heff, hcap₁, hwhy⟩ := cvectorReserve_spec hr _
          rw [he]
          cases ok with
          | false => exact ⟨h₁, v₁, false, rfl, by simpa using heff, hwhy⟩
          | true =>
            have hcount₁ : v₁.elemCount = v.elemCount := by rw [← heff.rep.length, hr.length]
            have hs₁ := hs.moved (Nat.pos_of_ne_zero hzero) hr heff
            obtain ⟨h', hcopy, heff'⟩ := cvectorCopyIntoTail_spec heff.rep hs₁ (by rw [hcount₁]; exact hcap₁ rfl)
            have hadd : sizeAdd v₁.elemCount n = v₁.elemCount + n := sizeAdd_eq (by rw [hcount₁]; exact hnowrap)
            simp only [hcopy, hadd]
            exact ⟨h', _, true, rfl, by simpa using heff.trans heff', by simp⟩

theorem Rep.source_self (hr : Rep h v xs) : SrcOk h v xs (v.addr 0) v.elemCount xs := by
  refine .own 0 (by rw [Nat.zero_mul]) (by omega) ?_
  rw [drop_zero, ← hr.length, take_length]

theorem cvectorAppendSelf_spec (hr : Rep h v xs) :
    ∃ h' v' ok, cvectorAppendSelf h v = some (h', v', ok) ∧
      Effect h v h' v' (if ok = true then xs ++ xs else xs) ∧
      (ok = false → TooLarge v.elemSize (xs.length + xs.length) ∨ h.Refused h') := by
  rw [hr.length]
  unfold cvectorAppendSelf
  have hmax : ∀ {v : Cvec} {h : Heap}, Rep h v xs → v.elemCount ≤ sizeMax := by
    intro v h hr
    have hcap := hr.capacity_le
    have hcount := hr.count_le
    rw [ccolMaxElemCount_eq] at hcap
    rw [sizeMax_eq]
    omega
  dsimp only
  split
  · rename_i hsum
    exact ⟨h, v, false, rfl, by simpa using hr.effect_refl, fun _ => .inl (.inl (sum_large (hmax hr) (hmax hr) hsum))⟩
  · rename_i hsum
    have hnowrap : v.elemCount + v.elemCount ≤ sizeMax := by
      have := (sizeAdd_lt_iff (hmax hr) (hmax hr)).not.mp (fun hlt => hsum (.inl hlt))
      omega
    rw [sizeAdd_eq hnowrap]
    obtain ⟨h₁, v₁, ok, he, heff, -, hwhy⟩ := cvectorReserve_spec hr _
    rw [he]
    cases ok with
    | false => exact ⟨h₁, v₁, false, rfl, by simpa using heff, hwhy⟩
    | true =>
      obtain ⟨h', v', ok, he', heff', hwhy'⟩ := cvectorAppendArray_spec heff.rep heff.rep.source_self (hmax heff.rep)
      refine ⟨h', v', ok, he', heff.trans heff', fun hok => ?_⟩
      rcases hwhy' hok with hlarge | href
      · rw [heff.elemSize, hr.length, ← heff.rep.length, hr.length] at hlarge
        exact .inl hlarge
      · exact .inr (heff.refused href)

theorem cvectorReset_spec (hr : Rep h v xs) :
    ∃ h' v', cvectorReset h v = some (h', v') ∧ Effect h v h' v' [] := by
  have hshort := hr.shorten (Nat.zero_le _)
  rw [take_zero] at hshort
  unfold cvectorReset
  split
  · rename_i hne
    have hfits : 4 * v.elemSize ≤ sizeMax := Nat.le_trans (Nat.mul_le_mul_right _ hr.capacity_ge) hr.fits
    simp only [ccolCvectorMinimumCapacity, sizeMul_eq hfits]
    have hre := hshort.rep.realloc (c := 4) ⟨2, by omega, by omega, rfl⟩ hfits (Nat.zero_le _)
    rcases hre with ⟨h', he, -, heff⟩ | ⟨h', d, he, heff⟩
    · rw [he]; exact ⟨h', _, rfl, hshort.trans heff⟩
    · rw [he]; exact ⟨h', _, rfl, hshort.trans heff⟩
  · exact ⟨h, _, rfl, hshort⟩

end Ccollections.Cvector
