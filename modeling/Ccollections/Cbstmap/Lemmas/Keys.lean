import Ccollections.Cbstmap.Keys
import Ccollections.Cbstmap.Lemmas.Ops

/-!
# The order `compare_keys` computes
-/

namespace Ccollections.Cbstmap.Keyed
open Lib List Option
open Chashmap (DataType fixedWidthDataTypeSize)

variable {cbm : Cbmap}

/-! ## Keys a caller may hand in -/

structure Admitted (cbm : Cbmap) (p : CmapPair) : Prop where
  valid : keySizeIsValidForType cbm.keyType p = true
  readable : p.size ≤ (p.ptr.getD []).length

theorem Admitted.content_length {p : CmapPair} (hp : Admitted cbm p) : p.content.length = p.size :=
  length_take_of_le hp.readable

theorem Admitted.ptr_eq {p : CmapPair} (hp : Admitted cbm p) (h0 : p.size ≠ 0) :
    ∃ bytes, p.ptr = some bytes ∧ p.size ≤ bytes.length ∧ p.content = bytes.take p.size := by
  have hr := hp.readable
  unfold CmapPair.content
  cases hptr : p.ptr with
  | none =>
    rw [hptr] at hr
    exact absurd (Nat.le_zero.mp hr) h0
  | some bytes =>
    rw [hptr] at hr
    exact ⟨bytes, rfl, hr, rfl⟩

theorem Admitted.size_eq {p : CmapPair} (hp : Admitted cbm p)
    (hw : fixedWidthDataTypeSize cbm.keyType ≠ 0) : p.size = fixedWidthDataTypeSize cbm.keyType := by
  have hv := hp.valid
  rw [keySizeIsValidForType, if_pos hw] at hv
  exact of_decide_eq_true hv

/-! ## Values of integer objects -/

theorem unsignedValue_lt : (bytes : List UInt8) → unsignedValue bytes < 2 ^ (8 * bytes.length)
  | [] => by simp [unsignedValue]
  | b :: bytes => by
    have ih := unsignedValue_lt bytes
    have hb := b.toNat_lt
    rw [unsignedValue, length_cons, Nat.mul_succ, Nat.pow_add]
    omega

theorem unsignedValue_injective {as bs : List UInt8} (hlen : as.length = bs.length)
    (h : unsignedValue as = unsignedValue bs) : as = bs := by
  induction as generalizing bs with
  | nil => exact (length_eq_zero_iff.mp hlen.symm).symm
  | cons a as ih =>
    cases bs with
    | nil => cases hlen
    | cons b bs =>
      have ha := a.toNat_lt
      have hb := b.toNat_lt
      rw [unsignedValue, unsignedValue] at h
      rw [UInt8.toNat_inj.mp (show a.toNat = b.toNat by omega), ih (Nat.succ.inj hlen) (by omega)]

theorem CType.value_injective {t : CType} {as bs : List UInt8} (ha : as.length = t.width) (hb : bs.length = t.width)
    (h : t.value as = t.value bs) : as = bs := by
  apply unsignedValue_injective (ha.trans hb.symm)
  have hla := unsignedValue_lt as
  have hlb := unsignedValue_lt bs
  rw [ha] at hla
  rw [hb] at hlb
  unfold CType.value at h
  -- A negative value is the unsigned one less the modulus, so the two ranges do not meet.
  generalize hm : 2 ^ (8 * t.width) = m at *
  have hmi : (2 : Int) ^ (8 * t.width) = m := by rw [← hm]; push_cast; rfl
  rw [hmi] at h
  split at h <;> split at h <;> omega

theorem CType.read_eq {p : CmapPair} (hp : Admitted cbm p) {t : CType} (hsize : p.size = t.width)
    (h0 : t.width ≠ 0) : t.read p.ptr = some (t.value p.content) := by
  obtain ⟨bytes, hptr, hle, hc⟩ := hp.ptr_eq (hsize ▸ h0)
  rw [hptr, hc, hsize]
  exact if_pos (hsize ▸ hle)

/-! ## Keys compared as bytes -/

def byteValues (bytes : List UInt8) : List Nat := bytes.map UInt8.toNat

theorem byteValues_injective {as bs : List UInt8} (h : byteValues as = byteValues bs) : as = bs :=
  (List.map_inj_right fun _ _ h => UInt8.toNat_inj.mp h).mp h

theorem memcmp_loop_sign (p q : List UInt8) (n : Nat) (hp : n ≤ p.length) (hq : n ≤ q.length) :
    ∃ c, memcmp.loop p q n = some c ∧ c.sign = lexCompare (byteValues (p.take n)) (byteValues (q.take n)) := by
  induction n generalizing p q with
  | zero => exact ⟨0, by simp [memcmp.loop], rfl⟩
  | succ n ih =>
    cases p with
    | nil => simp at hp
    | cons a p =>
      cases q with
      | nil => simp at hq
      | cons b q =>
        rw [memcmp.loop, take_succ_cons, take_succ_cons, byteValues, byteValues, map_cons,
          map_cons, lexCompare_cons_cons]
        by_cases hab : a = b
        · rw [if_pos hab, if_pos (congrArg _ hab)]
          exact ih p q (Nat.le_of_succ_le_succ hp) (Nat.le_of_succ_le_succ hq)
        · rw [if_neg hab, if_neg (mt UInt8.toNat_inj.mp hab)]
          refine ⟨_, rfl, ?_⟩
          rcases signCompare_cases a.toNat b.toNat with ⟨h, he⟩ | ⟨h, -⟩ | ⟨h, he⟩
          · rw [he, Int.sign_eq_neg_one_iff_neg]
            omega
          · exact absurd (UInt8.toNat_inj.mp h) hab
          · rw [he, Int.sign_eq_one_iff_pos]
            omega

theorem memcmp_sign {p q : CmapPair} (hp : Admitted cbm p) (hq : Admitted cbm q) {n : Nat} (h0 : n ≠ 0)
    (hnp : n ≤ p.size) (hnq : n ≤ q.size) :
    ∃ c, memcmp p.ptr q.ptr n = some c ∧
      c.sign = lexCompare (byteValues (p.content.take n)) (byteValues (q.content.take n)) := by
  obtain ⟨ps, hps, hlp, hcp⟩ := hp.ptr_eq (by omega)
  obtain ⟨qs, hqs, hlq, hcq⟩ := hq.ptr_eq (by omega)
  rw [hps, hqs, hcp, hcq, take_take, take_take, Nat.min_eq_left hnp, Nat.min_eq_left hnq]
  exact memcmp_loop_sign ps qs n (by omega) (by omega)

theorem lexCompare_content {p q : CmapPair} (hp : Admitted cbm p) (hq : Admitted cbm q) {n : Nat}
    (hn : n = min p.size q.size) :
    lexCompare (byteValues p.content) (byteValues q.content) =
      if lexCompare (byteValues (p.content.take n)) (byteValues (q.content.take n)) = 0 then signCompare p.size q.size
      else lexCompare (byteValues (p.content.take n)) (byteValues (q.content.take n)) := by
  have hlp := hp.content_length
  have hlq := hq.content_length
  have hlen : (byteValues (p.content.take n)).length = (byteValues (q.content.take n)).length := by
    simp only [byteValues, length_map, length_take]
    omega
  have happ : ∀ r : CmapPair, byteValues r.content = byteValues (r.content.take n) ++ byteValues (r.content.drop n) := by
    intro r
    rw [byteValues, byteValues, byteValues, ← map_append, take_append_drop]
  have hrest : lexCompare (byteValues (p.content.drop n)) (byteValues (q.content.drop n)) = signCompare p.size q.size := by
    rcases Nat.le_total p.size q.size with hle | hle
    · have hnil : p.content.drop n = [] := drop_eq_nil_of_le (by omega)
      rw [hnil, byteValues, map_nil, lexCompare_nil_left]
      simp only [byteValues, length_map, length_drop, hlq, signCompare]
      congr 2 <;> apply propext <;> omega
    · have hnil : q.content.drop n = [] := drop_eq_nil_of_le (by omega)
      rw [hnil, byteValues, byteValues, map_nil, lexCompare_nil_right]
      simp only [length_map, length_drop, hlp, signCompare]
      congr 2 <;> apply propext <;> omega
  rw [happ p, happ q, lexCompare_append hlen, hrest]

theorem compareKeys_bytes (hcustom : cbm.customComparisonProc = none)
    (hkind : cbm.keyType = .string ∨ cbm.keyType = .otherTypes) {p q : CmapPair} (hp : Admitted cbm p)
    (hq : Admitted cbm q) :
    ∃ c, compareKeys cbm p q = some c ∧ c.sign = lexCompare (byteValues p.content) (byteValues q.content) := by
  have hcontent := lexCompare_content hp hq rfl
  simp only [compareKeys, hcustom]
  by_cases hsize : p.size ≠ q.size
  · rw [if_pos hsize]
    by_cases hmin : min p.size q.size = 0
    · refine ⟨signCompare p.size q.size, by simp [hmin], ?_⟩
      rw [hcontent, hmin, take_zero, take_zero]
      exact signCompare_sign _ _
    · obtain ⟨c, hc, hsign⟩ := memcmp_sign hp hq hmin (Nat.min_le_left _ _) (Nat.min_le_right _ _)
      rw [← hsign] at hcontent
      simp only [if_neg hmin, hc, bind_eq_bind, bind_some]
      by_cases hc0 : c = 0
      · refine ⟨signCompare p.size q.size, by simp [hc0], ?_⟩
        rw [hcontent, if_pos (Int.sign_eq_zero_iff_zero.mpr hc0), signCompare_sign]
      · refine ⟨c, by simp [hc0], ?_⟩
        rw [hcontent, if_neg (mt Int.sign_eq_zero_iff_zero.mp hc0)]
  · rw [if_neg hsize]
    have heq := not_not.mp hsize
    have hfull : ∀ r : CmapPair, Admitted cbm r → r.size = p.size → r.content.take p.size = r.content := by
      intro r hr he
      rw [← he, ← hr.content_length, take_length]
    have hmem : p.size ≠ 0 → ∃ c, memcmp p.ptr q.ptr p.size = some c ∧
        c.sign = lexCompare (byteValues p.content) (byteValues q.content) := by
      intro h0
      obtain ⟨c, hc, hsign⟩ := memcmp_sign hp hq h0 (Nat.le_refl _) (Nat.le_of_eq heq)
      rw [hfull p hp rfl, hfull q hq heq.symm] at hsign
      exact ⟨c, hc, hsign⟩
    rcases hkind with hk | hk
    · rw [hk]
      apply hmem
      have hv := hp.valid
      simpa [keySizeIsValidForType, hk, fixedWidthDataTypeSize] using hv
    · rw [hk]
      by_cases h0 : p.size = 0
      · have hnil : p.content = [] := length_eq_zero_iff.mp (hp.content_length.trans h0)
        have hnil' : q.content = [] := length_eq_zero_iff.mp (hq.content_length.trans (heq.symm.trans h0))
        refine ⟨0, by simp [h0], ?_⟩
        rw [hnil, hnil']
        rfl
      · simp only [if_neg h0]
        exact hmem h0

/-! ## Keys compared as objects of their type -/

theorem ctype_spec {t : CType} (ht : cbm.cmpKind.ctype cbm.charSigned = some t) :
    cbm.customComparisonProc = none ∧ t.width = fixedWidthDataTypeSize cbm.keyType ∧ t.width ≠ 0 ∧
      ∀ p q : CmapPair, p.size = t.width → q.size = t.width → compareKeys cbm p q = ccolTypedCmp p.ptr q.ptr t := by
  rw [cbm.kind_eq] at ht
  have hcustom : cbm.customComparisonProc = none := by
    cases h : cbm.customComparisonProc with
    | none => rfl
    | some proc => simp [h, cbmapCmpKind, CmpKind.ctype] at ht
  simp only [hcustom, isSome_none, cbmapCmpKind] at ht
  simp only [compareKeys, hcustom]
  cases hk : cbm.keyType <;> simp [hk, fixedWidthDataTypeSize, CmpKind.ctype] at ht
  all_goals
    subst ht
    simp +contextual [fixedWidthDataTypeSize, cmpSignedSmall, cmpUnsignedSmall]

theorem compareKeys_typed {t : CType} (ht : cbm.cmpKind.ctype cbm.charSigned = some t) {p q : CmapPair}
    (hp : Admitted cbm p) (hq : Admitted cbm q) :
    compareKeys cbm p q = some (signCompare (t.value p.content) (t.value q.content)) := by
  obtain ⟨-, hwidth, h0, hcmp⟩ := ctype_spec ht
  have hsp := (hp.size_eq (hwidth ▸ h0)).trans hwidth.symm
  have hsq := (hq.size_eq (hwidth ▸ h0)).trans hwidth.symm
  simp only [hcmp p q hsp hsq, ccolTypedCmp, CType.read_eq hp hsp h0, CType.read_eq hq hsq h0, bind_eq_bind,
    bind_some]

/-! ## A total order -/

/-- `compare_keys` is defined on the admitted keys, and its sign is a total order of their bytes. -/
structure OrdersKeys (cbm : Cbmap) : Prop where
  defined : ∀ p q, Admitted cbm p → Admitted cbm q → (compareKeys cbm p q).isSome
  swap : ∀ p q c d, Admitted cbm p → Admitted cbm q → compareKeys cbm p q = some c → compareKeys cbm q p = some d →
    d.sign = -c.sign
  trans : ∀ p q r c d e, Admitted cbm p → Admitted cbm q → Admitted cbm r → compareKeys cbm p q = some c →
    compareKeys cbm q r = some d → compareKeys cbm p r = some e → c ≤ 0 → d ≤ 0 → e ≤ 0
  eq_zero : ∀ p q c, Admitted cbm p → Admitted cbm q → compareKeys cbm p q = some c → (c = 0 ↔ p.content = q.content)

theorem OrdersKeys.of_rank {R : Type} {cmp : R → R → Int} (hcmp : ThreeWay cmp)
    (rank : List UInt8 → R)
    (hrank : ∀ p q, Admitted cbm p → Admitted cbm q → rank p.content = rank q.content → p.content = q.content)
    (h : ∀ p q, Admitted cbm p → Admitted cbm q →
      ∃ c, compareKeys cbm p q = some c ∧ c.sign = (cmp (rank p.content) (rank q.content)).sign) : OrdersKeys cbm := by
  have hsign : ∀ p q c, Admitted cbm p → Admitted cbm q → compareKeys cbm p q = some c →
      c.sign = (cmp (rank p.content) (rank q.content)).sign := by
    intro p q c hp hq hc
    obtain ⟨c', hc', hs⟩ := h p q hp hq
    rw [hc] at hc'
    cases hc'
    exact hs
  constructor
  · intro p q hp hq
    obtain ⟨c, hc, -⟩ := h p q hp hq
    rw [hc]
    rfl
  · intro p q c d hp hq hc hd
    rw [hsign p q c hp hq hc, hsign q p d hq hp hd]
    exact hcmp.swap _ _
  · intro p q r c d e hp hq hr hc hd he hc0 hd0
    rw [← Int.sign_nonpos_iff, hsign p q c hp hq hc, Int.sign_nonpos_iff] at hc0
    rw [← Int.sign_nonpos_iff, hsign q r d hq hr hd, Int.sign_nonpos_iff] at hd0
    rw [← Int.sign_nonpos_iff, hsign p r e hp hr he, Int.sign_nonpos_iff]
    exact hcmp.trans _ _ _ hc0 hd0
  · intro p q c hp hq hc
    rw [← Int.sign_eq_zero_iff_zero, hsign p q c hp hq hc, Int.sign_eq_zero_iff_zero, hcmp.eq_zero]
    exact ⟨hrank p q hp hq, congrArg rank⟩

end Ccollections.Cbstmap.Keyed
