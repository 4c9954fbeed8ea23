import Ccollections.Common.Cutf8
import Mathlib.Logic.Function.Iterate

/-!
# Well-formed UTF-8 is a sequence of encoded characters
-/

namespace Ccollections

open List

variable {t : List UInt8} {s : List UInt8}

def IsContinuation (b : UInt8) : Prop := 0x80 ≤ b.toNat ∧ b.toNat ≤ 0xBF

inductive Utf8Sequence : List UInt8 → Prop
  | one {b0 : UInt8} (h0 : b0.toNat < 0x80) : Utf8Sequence [b0]
  | two {b0 b1 : UInt8} (h0 : 0xC2 ≤ b0.toNat ∧ b0.toNat ≤ 0xDF) (h1 : IsContinuation b1) : Utf8Sequence [b0, b1]
  | three {b0 b1 b2 : UInt8} (h0 : 0xE0 ≤ b0.toNat ∧ b0.toNat ≤ 0xEF) (h1 : IsContinuation b1) (h2 : IsContinuation b2)
      (hoverlong : b0.toNat = 0xE0 → 0xA0 ≤ b1.toNat) (hsurrogate : b0.toNat = 0xED → b1.toNat ≤ 0x9F) :
      Utf8Sequence [b0, b1, b2]
  | four {b0 b1 b2 b3 : UInt8} (h0 : 0xF0 ≤ b0.toNat ∧ b0.toNat ≤ 0xF4) (h1 : IsContinuation b1) (h2 : IsContinuation b2)
      (h3 : IsContinuation b3) (hoverlong : b0.toNat = 0xF0 → 0x90 ≤ b1.toNat) (hmax : b0.toNat = 0xF4 → b1.toNat ≤ 0x8F) :
      Utf8Sequence [b0, b1, b2, b3]

theorem Utf8Sequence.length_pos (h : Utf8Sequence t) : 0 < t.length := by
  cases h <;> exact Nat.succ_pos _

theorem Utf8Sequence.ascii_or (h : Utf8Sequence t) :
    (∃ b : UInt8, t = [b] ∧ b.toNat < 0x80) ∨ ∀ b ∈ t, 0x80 ≤ b.toNat := by
  cases h with
  | one h0 => exact .inl ⟨_, rfl, h0⟩
  | two h0 h1 =>
    have := h1.1
    right
    simp only [mem_cons, not_mem_nil, or_false, forall_eq_or_imp, forall_eq]
    omega
  | three h0 h1 h2 _ _ =>
    have := h1.1
    have := h2.1
    right
    simp only [mem_cons, not_mem_nil, or_false, forall_eq_or_imp, forall_eq]
    omega
  | four h0 h1 h2 h3 _ _ =>
    have := h1.1
    have := h2.1
    have := h3.1
    right
    simp only [mem_cons, not_mem_nil, or_false, forall_eq_or_imp, forall_eq]
    omega

/-! ## The code points of sequences -/

theorem toNat_ofNat_of_lt {n : Nat} (h : n < 256) : (UInt8.ofNat n).toNat = n := by
  rw [UInt8.toNat_ofNat']
  exact Nat.mod_eq_of_lt h

theorem ofNat_eq_of_toNat {n : Nat} {b : UInt8} (h : n = b.toNat) : UInt8.ofNat n = b := by
  rw [h, UInt8.ofNat_toNat]

theorem exists_char {v : Nat} (hlt : v < 0x110000) (hsurr : v < 0xD800 ∨ 0xDFFF < v) : ∃ c : Char, c.val.toNat = v := by
  have hvalid : v.isValidChar := by
    unfold Nat.isValidChar
    omega
  exact ⟨Char.ofNatAux v hvalid, rfl⟩

theorem Utf8Sequence.exists_encode (h : Utf8Sequence t) : ∃ c : Char, t = String.utf8EncodeChar c := by
  cases h with
  | @one b0 h0 =>
    obtain ⟨c, hc⟩ := exists_char (v := b0.toNat) (by omega) (by omega)
    refine ⟨c, ?_⟩
    simp only [String.utf8EncodeChar, hc]
    rw [if_pos (by omega), UInt8.ofNat_toNat]
  | @two b0 b1 h0 h1 =>
    obtain ⟨h1, h1'⟩ := h1
    obtain ⟨c, hc⟩ := exists_char (v := (b0.toNat - 0xC0) * 64 + (b1.toNat - 0x80)) (by omega) (by omega)
    refine ⟨c, ?_⟩
    simp only [String.utf8EncodeChar, hc]
    rw [if_neg (by omega), if_pos (by omega), ofNat_eq_of_toNat (b := b0) (by omega), ofNat_eq_of_toNat (b := b1) (by omega)]
  | @three b0 b1 b2 h0 h1 h2 hoverlong hsurrogate =>
    obtain ⟨h1, h1'⟩ := h1
    obtain ⟨h2, h2'⟩ := h2
    obtain ⟨c, hc⟩ := exists_char
      (v := (b0.toNat - 0xE0) * 4096 + (b1.toNat - 0x80) * 64 + (b2.toNat - 0x80)) (by omega) (by omega)
    refine ⟨c, ?_⟩
    simp only [String.utf8EncodeChar, hc]
    rw [if_neg (by omega), if_neg (by omega), if_pos (by omega), ofNat_eq_of_toNat (b := b0) (by omega),
      ofNat_eq_of_toNat (b := b1) (by omega), ofNat_eq_of_toNat (b := b2) (by omega)]
  | @four b0 b1 b2 b3 h0 h1 h2 h3 hoverlong hmax =>
    obtain ⟨h1, h1'⟩ := h1
    obtain ⟨h2, h2'⟩ := h2
    obtain ⟨h3, h3'⟩ := h3
    obtain ⟨c, hc⟩ := exists_char
      (v := (b0.toNat - 0xF0) * 262144 + (b1.toNat - 0x80) * 4096 + (b2.toNat - 0x80) * 64 + (b3.toNat - 0x80))
      (by omega) (by omega)
    refine ⟨c, ?_⟩
    simp only [String.utf8EncodeChar, hc]
    rw [if_neg (by omega), if_neg (by omega), if_neg (by omega), ofNat_eq_of_toNat (b := b0) (by omega),
      ofNat_eq_of_toNat (b := b1) (by omega), ofNat_eq_of_toNat (b := b2) (by omega),
      ofNat_eq_of_toNat (b := b3) (by omega)]

theorem char_bounds (c : Char) : c.val.toNat < 0x110000 ∧ (c.val.toNat < 0xD800 ∨ 0xDFFF < c.val.toNat) := by
  have hvalid : c.val.toNat.isValidChar := c.valid
  unfold Nat.isValidChar at hvalid
  omega

theorem isContinuation_ofNat {n : Nat} (h : n < 64) : IsContinuation (UInt8.ofNat (n + 128)) := by
  rw [IsContinuation, toNat_ofNat_of_lt (by omega)]
  omega

theorem utf8Sequence_encode (c : Char) : Utf8Sequence (String.utf8EncodeChar c) := by
  obtain ⟨hmax, hsurr⟩ := char_bounds c
  simp only [String.utf8EncodeChar]
  generalize c.val.toNat = v at hmax hsurr
  have hcont : ∀ n, IsContinuation (UInt8.ofNat (n % 64 + 128)) := fun n => isContinuation_ofNat (Nat.mod_lt n (by decide))
  have hnat : ∀ n, (UInt8.ofNat (n % 64 + 128)).toNat = n % 64 + 128 := fun n => toNat_ofNat_of_lt (by omega)
  by_cases h1 : v ≤ 127
  · rw [if_pos h1]
    refine .one ?_
    rw [toNat_ofNat_of_lt (by omega)]
    omega
  · rw [if_neg h1]
    by_cases h2 : v ≤ 2047
    · rw [if_pos h2]
      refine .two ?_ (hcont v)
      rw [toNat_ofNat_of_lt (by omega)]
      omega
    · rw [if_neg h2]
      by_cases h3 : v ≤ 65535
      · rw [if_pos h3]
        have h0 : (UInt8.ofNat (v / 4096 % 16 + 224)).toNat = v / 4096 + 224 := by
          rw [toNat_ofNat_of_lt (by omega)]
          omega
        refine .three ?_ (hcont _) (hcont _) ?_ ?_
        · rw [h0]
          omega
        · rw [h0, hnat]
          omega
        · rw [h0, hnat]
          omega
      · rw [if_neg h3]
        have h0 : (UInt8.ofNat (v / 262144 % 8 + 240)).toNat = v / 262144 + 240 := by
          rw [toNat_ofNat_of_lt (by omega)]
          omega
        refine .four ?_ (hcont _) (hcont _) (hcont _) ?_ ?_
        · rw [h0]
          omega
        · rw [h0, hnat]
          omega
        · rw [h0, hnat]
          omega

/-! ## The check -/

theorem utf8LeadRange_eq (b0 : UInt8) :
    utf8LeadRange b0 =
      if 0xC2 ≤ b0.toNat ∧ b0.toNat ≤ 0xDF then some (1, 0x80, 0xBF)
      else if b0.toNat = 0xE0 then some (2, 0xA0, 0xBF)
      else if b0.toNat = 0xED then some (2, 0x80, 0x9F)
      else if 0xE1 ≤ b0.toNat ∧ b0.toNat ≤ 0xEF then some (2, 0x80, 0xBF)
      else if b0.toNat = 0xF0 then some (3, 0x90, 0xBF)
      else if b0.toNat = 0xF4 then some (3, 0x80, 0x8F)
      else if 0xF1 ≤ b0.toNat ∧ b0.toNat ≤ 0xF3 then some (3, 0x80, 0xBF)
      else none := by
  simp [utf8LeadRange, UInt8.le_iff_toNat_le, ← UInt8.toNat_inj]

theorem outside_iff {b lo hi : UInt8} : (b < lo ∨ b > hi) ↔ ¬(lo.toNat ≤ b.toNat ∧ b.toNat ≤ hi.toNat) := by
  rw [gt_iff_lt, UInt8.lt_iff_toNat_lt, UInt8.lt_iff_toNat_lt]
  omega

theorem utf8TrailLoop_one {i : Nat} {b : UInt8} (h : IsContinuation b) : utf8TrailLoop 1 i (b :: s) = (i + 1, true) := by
  simp only [utf8TrailLoop]
  rw [if_neg (by rw [outside_iff]; exact not_not.mpr h)]

theorem utf8TrailLoop_two {i : Nat} {b b' : UInt8} (h : IsContinuation b) (h' : IsContinuation b') :
    utf8TrailLoop 2 i (b :: b' :: s) = (i + 2, true) := by
  simp only [utf8TrailLoop]
  rw [if_neg (by rw [outside_iff]; exact not_not.mpr h), if_neg (by rw [outside_iff]; exact not_not.mpr h')]

theorem ccolUtf8Step_lead {b0 b1 lo hi : UInt8} {trail : Nat} (s : List UInt8) (hascii : ¬b0.toNat < 0x80)
    (hlead : utf8LeadRange b0 = some (trail, lo, hi)) (h1 : lo.toNat ≤ b1.toNat ∧ b1.toNat ≤ hi.toNat) :
    ccolUtf8Step (b0 :: b1 :: s) = utf8TrailLoop (trail - 1) 2 s := by
  have hascii' : ¬b0 < 0x80 := hascii
  have hrange : ¬(b1 < lo ∨ b1 > hi) := by
    rw [outside_iff]
    exact not_not.mpr h1
  simp only [ccolUtf8Step, hlead, if_neg hascii', if_neg hrange]

theorem utf8LeadRange_three {b0 b1 : UInt8} (h0 : 0xE0 ≤ b0.toNat ∧ b0.toNat ≤ 0xEF) (h1 : IsContinuation b1)
    (hoverlong : b0.toNat = 0xE0 → 0xA0 ≤ b1.toNat) (hsurrogate : b0.toNat = 0xED → b1.toNat ≤ 0x9F) :
    ∃ lo hi, utf8LeadRange b0 = some (2, lo, hi) ∧ lo.toNat ≤ b1.toNat ∧ b1.toNat ≤ hi.toNat := by
  rw [utf8LeadRange_eq, if_neg (by omega)]
  by_cases he0 : b0.toNat = 0xE0
  · rw [if_pos he0]
    exact ⟨_, _, rfl, hoverlong he0, h1.2⟩
  · rw [if_neg he0]
    by_cases hed : b0.toNat = 0xED
    · rw [if_pos hed]
      exact ⟨_, _, rfl, h1.1, hsurrogate hed⟩
    · rw [if_neg hed, if_pos (by omega)]
      exact ⟨_, _, rfl, h1⟩

theorem utf8LeadRange_four {b0 b1 : UInt8} (h0 : 0xF0 ≤ b0.toNat ∧ b0.toNat ≤ 0xF4) (h1 : IsContinuation b1)
    (hoverlong : b0.toNat = 0xF0 → 0x90 ≤ b1.toNat) (hmax : b0.toNat = 0xF4 → b1.toNat ≤ 0x8F) :
    ∃ lo hi, utf8LeadRange b0 = some (3, lo, hi) ∧ lo.toNat ≤ b1.toNat ∧ b1.toNat ≤ hi.toNat := by
  rw [utf8LeadRange_eq, if_neg (by omega), if_neg (by omega), if_neg (by omega), if_neg (by omega)]
  by_cases hf0 : b0.toNat = 0xF0
  · rw [if_pos hf0]
    exact ⟨_, _, rfl, hoverlong hf0, h1.2⟩
  · rw [if_neg hf0]
    by_cases hf4 : b0.toNat = 0xF4
    · rw [if_pos hf4]
      exact ⟨_, _, rfl, h1.1, hmax hf4⟩
    · rw [if_neg hf4, if_pos (by omega)]
      exact ⟨_, _, rfl, h1⟩

theorem ccolUtf8Step_sequence (h : Utf8Sequence t) (s : List UInt8) :
    ccolUtf8Step (t ++ s) = (t.length, true) := by
  cases h with
  | @one b0 h0 =>
    have hascii : b0 < 0x80 := h0
    simp only [cons_append, ccolUtf8Step, if_pos hascii]
    rfl
  | @two b0 b1 h0 h1 =>
    have hlead : utf8LeadRange b0 = some (1, 0x80, 0xBF) := by rw [utf8LeadRange_eq, if_pos h0]
    exact ccolUtf8Step_lead s (by omega) hlead h1
  | three h0 h1 h2 hoverlong hsurrogate =>
    obtain ⟨lo, hi, hlead, hrange⟩ := utf8LeadRange_three h0 h1 hoverlong hsurrogate
    exact (ccolUtf8Step_lead _ (by omega) hlead hrange).trans (utf8TrailLoop_one h2)
  | four h0 h1 h2 h3 hoverlong hmax =>
    obtain ⟨lo, hi, hlead, hrange⟩ := utf8LeadRange_four h0 h1 hoverlong hmax
    exact (ccolUtf8Step_lead _ (by omega) hlead hrange).trans (utf8TrailLoop_two h2 h3)

theorem utf8TrailLoop_spec (left i : Nat) (s : List UInt8) :
    ∃ t s', s = t ++ s' ∧ (∀ b ∈ t, IsContinuation b) ∧ t.length ≤ left ∧
      utf8TrailLoop left i s = (i + t.length, decide (t.length = left)) ∧
      (t.length < left → ∀ b u, s' = b :: u → ¬IsContinuation b) := by
  induction left generalizing i s with
  | zero => exact ⟨[], s, rfl, by simp, Nat.le_refl 0, rfl, by simp⟩
  | succ left ih =>
    cases s with
    | nil => exact ⟨[], [], rfl, by simp, Nat.zero_le _, by simp [utf8TrailLoop], by simp⟩
    | cons b s =>
      rw [utf8TrailLoop]
      by_cases hb : IsContinuation b
      · rw [if_neg (by rw [outside_iff]; exact not_not.mpr hb)]
        obtain ⟨t, s', rfl, hcont, hle, hloop, hnext⟩ := ih (i + 1) s
        refine ⟨b :: t, s', rfl, by simpa using ⟨hb, hcont⟩, Nat.succ_le_succ hle, ?_, fun hlt => hnext (Nat.lt_of_succ_lt_succ hlt)⟩
        rw [hloop]
        simp [Nat.add_assoc, Nat.add_comm 1]
      · rw [if_pos (by rw [outside_iff]; exact hb)]
        refine ⟨[], b :: s, rfl, by simp, Nat.zero_le _, by simp, ?_⟩
        rintro - b' u ⟨⟩
        exact hb

theorem utf8LeadRange_cases {b0 lo hi : UInt8} {trail : Nat} (h : utf8LeadRange b0 = some (trail, lo, hi)) :
    (trail = 1 ∧ (0xC2 ≤ b0.toNat ∧ b0.toNat ≤ 0xDF) ∧ lo = 0x80 ∧ hi = 0xBF) ∨
    (trail = 2 ∧ (0xE0 ≤ b0.toNat ∧ b0.toNat ≤ 0xEF) ∧ 0x80 ≤ lo.toNat ∧ hi.toNat ≤ 0xBF ∧
      (b0.toNat = 0xE0 → 0xA0 ≤ lo.toNat) ∧ (b0.toNat = 0xED → hi.toNat ≤ 0x9F)) ∨
    (trail = 3 ∧ (0xF0 ≤ b0.toNat ∧ b0.toNat ≤ 0xF4) ∧ 0x80 ≤ lo.toNat ∧ hi.toNat ≤ 0xBF ∧
      (b0.toNat = 0xF0 → 0x90 ≤ lo.toNat) ∧ (b0.toNat = 0xF4 → hi.toNat ≤ 0x8F)) := by
  rw [utf8LeadRange_eq] at h
  split_ifs at h <;> cases h <;> simp <;> omega

theorem utf8Sequence_lead_iff {b0 b1 : UInt8} :
    Utf8Sequence (b0 :: b1 :: t) ↔
      ∃ trail lo hi, utf8LeadRange b0 = some (trail, lo, hi) ∧ (lo.toNat ≤ b1.toNat ∧ b1.toNat ≤ hi.toNat) ∧
        t.length = trail - 1 ∧ ∀ b ∈ t, IsContinuation b := by
  constructor
  · intro h
    cases h with
    | two h0 h1 => exact ⟨1, 0x80, 0xBF, by rw [utf8LeadRange_eq, if_pos h0], h1, rfl, by simp⟩
    | three h0 h1 h2 hoverlong hsurrogate =>
      obtain ⟨lo, hi, hlead, hrange⟩ := utf8LeadRange_three h0 h1 hoverlong hsurrogate
      exact ⟨2, lo, hi, hlead, hrange, rfl, by simpa using h2⟩
    | four h0 h1 h2 h3 hoverlong hmax =>
      obtain ⟨lo, hi, hlead, hrange⟩ := utf8LeadRange_four h0 h1 hoverlong hmax
      exact ⟨3, lo, hi, hlead, hrange, rfl, by simpa using ⟨h2, h3⟩⟩
  · rintro ⟨trail, lo, hi, hlead, hrange, hlen, hcont⟩
    rcases utf8LeadRange_cases hlead with ⟨rfl, h0, rfl, rfl⟩ | ⟨rfl, h0, hlo, hhi, hover, hsurr⟩ |
      ⟨rfl, h0, hlo, hhi, hover, hmax⟩
    · rw [length_eq_zero_iff.mp hlen]
      exact .two h0 hrange
    · obtain ⟨b2, rfl⟩ := length_eq_one_iff.mp hlen
      exact .three h0 ⟨by omega, by omega⟩ (hcont b2 (by simp)) (fun he => by have := hover he; omega)
        (fun he => by have := hsurr he; omega)
    · obtain ⟨b2, b3, rfl⟩ := length_eq_two.mp hlen
      exact .four h0 ⟨by omega, by omega⟩ (hcont b2 (by simp)) (hcont b3 (by simp))
        (fun he => by have := hover he; omega) (fun he => by have := hmax he; omega)

/-! ## The subparts of an ill-formed sequence -/

/-- Some encoding starts with these bytes. -/
def StartsEncoding (t : List UInt8) : Prop := ∃ c, t <+: String.utf8EncodeChar c

theorem startsEncoding_lead {b0 b1 : UInt8} (h : StartsEncoding (b0 :: b1 :: t)) :
    ∃ trail lo hi, utf8LeadRange b0 = some (trail, lo, hi) ∧ (lo.toNat ≤ b1.toNat ∧ b1.toNat ≤ hi.toNat) ∧
      ∀ b ∈ t, IsContinuation b := by
  obtain ⟨c, u, hu⟩ := h
  have hseq : Utf8Sequence (b0 :: b1 :: (t ++ u)) := by
    rw [← cons_append, ← cons_append, hu]
    exact utf8Sequence_encode c
  obtain ⟨trail, lo, hi, hlead, hrange, -, hcont⟩ := utf8Sequence_lead_iff.mp hseq
  exact ⟨trail, lo, hi, hlead, hrange, fun b hb => hcont b (mem_append_left u hb)⟩

/-- The continuation bytes that a sequence lacks can be added. -/
theorem startsEncoding_of_lead {b0 b1 lo hi : UInt8} {trail : Nat} (hlead : utf8LeadRange b0 = some (trail, lo, hi))
    (hrange : lo.toNat ≤ b1.toNat ∧ b1.toNat ≤ hi.toNat) (hlen : t.length ≤ trail - 1) (hcont : ∀ b ∈ t, IsContinuation b) :
    StartsEncoding (b0 :: b1 :: t) := by
  let u : List UInt8 := List.replicate (trail - 1 - t.length) 0x80
  have hu : ∀ b ∈ t ++ u, IsContinuation b := by
    intro b hb
    rcases mem_append.mp hb with hb | hb
    · exact hcont b hb
    · rw [eq_of_mem_replicate hb]
      exact ⟨by decide, by decide⟩
  have hseq : Utf8Sequence (b0 :: b1 :: (t ++ u)) :=
    utf8Sequence_lead_iff.mpr ⟨trail, lo, hi, hlead, hrange, by simp [u]; omega, hu⟩
  obtain ⟨c, hc⟩ := hseq.exists_encode
  exact ⟨c, u, hc⟩

/-- The step over bytes that no encoding is a prefix of: one byte, or the longest start of an encoding. -/
def MaximalSubpart (n : Nat) (s : List UInt8) : Prop :=
  0 < n ∧ n ≤ s.length ∧ (n = 1 ∨ StartsEncoding (s.take n)) ∧ ∀ m, n < m → m ≤ s.length → ¬StartsEncoding (s.take m)

theorem maximalSubpart_one {b0 : UInt8}
    (h : ∀ b1 t, s = b1 :: t → ∀ u, ¬StartsEncoding (b0 :: b1 :: u)) : MaximalSubpart 1 (b0 :: s) := by
  refine ⟨Nat.one_pos, Nat.succ_pos _, .inl rfl, ?_⟩
  rintro (- | - | m) hm hlen
  · omega
  · omega
  · cases s with
    | nil => simp at hlen
    | cons b1 t => exact h b1 t rfl _

theorem ccolUtf8Step_cases (b0 : UInt8) (s : List UInt8) :
    (∃ t s', b0 :: s = t ++ s' ∧ Utf8Sequence t ∧ ccolUtf8Step (b0 :: s) = (t.length, true)) ∨
      ∃ n, MaximalSubpart n (b0 :: s) ∧ ccolUtf8Step (b0 :: s) = (n, false) := by
  by_cases hascii : b0 < 0x80
  · exact .inl ⟨[b0], s, rfl, .one hascii, by simp [ccolUtf8Step, hascii]⟩
  · simp only [ccolUtf8Step, if_neg hascii]
    cases hlead : utf8LeadRange b0 with
    | none =>
      refine .inr ⟨1, maximalSubpart_one fun b1 t _ u hu => ?_, rfl⟩
      obtain ⟨_, _, _, hlead', -⟩ := startsEncoding_lead hu
      cases hlead.symm.trans hlead'
    | some range =>
      obtain ⟨trail, lo, hi⟩ := range
      cases s with
      | nil => exact .inr ⟨1, maximalSubpart_one (by simp), rfl⟩
      | cons b1 s =>
        dsimp only
        by_cases hrange : b1 < lo ∨ b1 > hi
        · rw [if_pos hrange]
          refine .inr ⟨1, maximalSubpart_one ?_, rfl⟩
          rintro _ _ ⟨⟩ u hu
          obtain ⟨_, _, _, hlead', hrange', -⟩ := startsEncoding_lead hu
          cases hlead.symm.trans hlead'
          exact outside_iff.mp hrange hrange'
        · rw [if_neg hrange]
          rw [outside_iff, not_not] at hrange
          obtain ⟨t, s', rfl, hcont, hle, hloop, hnext⟩ := utf8TrailLoop_spec (trail - 1) 2 s
          by_cases hlen : t.length = trail - 1
          · refine .inl ⟨b0 :: b1 :: t, s', rfl, utf8Sequence_lead_iff.mpr ⟨trail, lo, hi, hlead, hrange, hlen, hcont⟩, ?_⟩
            rw [hloop, decide_eq_true hlen, Nat.add_comm]
            rfl
          · refine .inr ⟨2 + t.length, ⟨by omega, by simp; omega, .inr ?_, ?_⟩, by rw [hloop, decide_eq_false hlen]⟩
            · rw [Nat.add_comm, take_succ_cons, take_succ_cons, take_left]
              exact startsEncoding_of_lead hlead hrange hle hcont
            · rintro m hm hmlen hstart
              obtain ⟨k, rfl⟩ : ∃ k, m = t.length + (k + 1) + 1 + 1 := ⟨m - t.length - 3, by omega⟩
              rw [take_succ_cons, take_succ_cons, take_length_add_append] at hstart
              obtain ⟨-, -, -, -, -, hall⟩ := startsEncoding_lead hstart
              cases s' with
              | nil =>
                simp only [append_nil, length_cons] at hmlen
                omega
              | cons b u => exact hnext (by omega) b u rfl (hall b (by simp))

theorem ccolUtf8Step_ok (h : (ccolUtf8Step s).2 = true) :
    ∃ t s', s = t ++ s' ∧ Utf8Sequence t ∧ (ccolUtf8Step s).1 = t.length := by
  cases s with
  | nil => cases h
  | cons b0 s =>
    obtain ⟨t, s', hs, ht, hstep⟩ | ⟨n, -, hstep⟩ := ccolUtf8Step_cases b0 s
    · exact ⟨t, s', hs, ht, by rw [hstep]⟩
    · rw [hstep] at h
      cases h

theorem ccolUtf8Step_le_length (s : List UInt8) : (ccolUtf8Step s).1 ≤ s.length := by
  cases s with
  | nil => exact Nat.le_refl 0
  | cons b0 s =>
    obtain ⟨t, s', hs, -, hstep⟩ | ⟨n, hn, hstep⟩ := ccolUtf8Step_cases b0 s
    · rw [hstep, hs, length_append]
      exact Nat.le_add_right _ _
    · rw [hstep]
      exact hn.2.1

/-- Stepping ends at the end of the buffer. -/
theorem ccolUtf8Step_iterate (s : List UInt8) : ∃ k ≤ s.length, (fun u : List UInt8 => u.drop (ccolUtf8Step u).1)^[k] s = [] := by
  induction hn : s.length using Nat.strongRecOn generalizing s with
  | ind n ih =>
    cases s with
    | nil => exact ⟨0, Nat.zero_le n, rfl⟩
    | cons b s =>
      have hpos := ccolUtf8Step_pos b s
      have hle := ccolUtf8Step_le_length (b :: s)
      have hlt : ((b :: s).drop (ccolUtf8Step (b :: s)).1).length < n := by
        rw [length_drop]
        omega
      obtain ⟨k, hk, hend⟩ := ih _ hlt _ rfl
      exact ⟨k + 1, by omega, hend⟩

/-! ## Whole buffers -/

def WellFormedUtf8 (s : List UInt8) : Prop := ∃ cs : List Char, s = cs.flatMap String.utf8EncodeChar

theorem wellFormedUtf8_nil : WellFormedUtf8 [] := ⟨[], rfl⟩

theorem wellFormedUtf8_cons_iff {b : UInt8} :
    WellFormedUtf8 (b :: s) ↔
      (ccolUtf8Step (b :: s)).2 = true ∧ WellFormedUtf8 ((b :: s).drop (ccolUtf8Step (b :: s)).1) := by
  constructor
  · rintro ⟨cs, hcs⟩
    cases cs with
    | nil => cases hcs
    | cons c cs =>
      rw [hcs, flatMap_cons, ccolUtf8Step_sequence (utf8Sequence_encode c)]
      exact ⟨rfl, cs, drop_left⟩
  · rintro ⟨hok, cs, hcs⟩
    obtain ⟨t, s', hs, ht, hlen⟩ := ccolUtf8Step_ok hok
    obtain ⟨c, rfl⟩ := ht.exists_encode
    rw [hs] at hlen hcs ⊢
    rw [hlen, drop_left] at hcs
    exact ⟨c :: cs, by rw [hcs, flatMap_cons]⟩

theorem ccolUtf8Step_ascii {b : UInt8} (h : b < 0x80) (s : List UInt8) : ccolUtf8Step (b :: s) = (1, true) := by
  simp [ccolUtf8Step, h]

theorem wellFormedUtf8_of_ascii (h : ∀ b ∈ t, ¬b ≥ 0x80) : WellFormedUtf8 t := by
  induction t with
  | nil => exact wellFormedUtf8_nil
  | cons b t ih =>
    have hb : b < 0x80 := UInt8.not_le.mp (h b mem_cons_self)
    rw [wellFormedUtf8_cons_iff, ccolUtf8Step_ascii hb]
    exact ⟨rfl, ih fun c hc => h c (mem_cons_of_mem b hc)⟩

theorem WellFormedUtf8.append {t t' : List UInt8} (h : WellFormedUtf8 t) (h' : WellFormedUtf8 t') : WellFormedUtf8 (t ++ t') := by
  obtain ⟨cs, rfl⟩ := h
  obtain ⟨cs', rfl⟩ := h'
  exact ⟨cs ++ cs', flatMap_append.symm⟩

theorem utf8ScanLoop_cons (i : Nat) (b : UInt8) (s : List UInt8) :
    utf8ScanLoop i (b :: s) =
      if (ccolUtf8Step (b :: s)).2 then
        utf8ScanLoop (i + (ccolUtf8Step (b :: s)).1) ((b :: s).drop (ccolUtf8Step (b :: s)).1)
      else i := by
  rw [utf8ScanLoop]
  split
  · rename_i hascii
    rw [ccolUtf8Step_ascii hascii]
    rfl
  · rfl

theorem utf8ScanLoop_eq_iff (i : Nat) (s : List UInt8) : utf8ScanLoop i s = i + s.length ↔ WellFormedUtf8 s := by
  induction hn : s.length using Nat.strongRecOn generalizing i s with
  | ind n ih =>
    cases s with
    | nil =>
      subst hn
      simp [utf8ScanLoop, wellFormedUtf8_nil]
    | cons b s =>
      rw [utf8ScanLoop_cons, wellFormedUtf8_cons_iff]
      cases hok : (ccolUtf8Step (b :: s)).2 with
      | false => simp [← hn]
      | true =>
        obtain ⟨t, s', hs, ht, hlen⟩ := ccolUtf8Step_ok hok
        have hpos := ht.length_pos
        rw [hs] at hlen hn ⊢
        rw [length_append] at hn
        rw [hlen, drop_left, if_pos rfl, ← hn, ← Nat.add_assoc, ih s'.length (by omega) (i + t.length) s' rfl]
        simp

theorem ccolUtf8IsValid_iff (s : List UInt8) : ccolUtf8IsValid s = true ↔ WellFormedUtf8 s := by
  induction hn : s.length using Nat.strongRecOn generalizing s with
  | ind n ih =>
    cases s with
    | nil => simp [ccolUtf8IsValid, wellFormedUtf8_nil]
    | cons b s =>
      have hpos := ccolUtf8Step_pos b s
      have hlt : ((b :: s).drop (ccolUtf8Step (b :: s)).1).length < n := by
        rw [length_drop]
        simp at hn
        simp
        omega
      rw [wellFormedUtf8_cons_iff, ← ih _ hlt _ rfl, ccolUtf8IsValid]
      by_cases hascii : b < 0x80
      · simp [hascii, ccolUtf8Step_ascii hascii]
      · simp [hascii]

theorem ccolUtf8FirstIllFormed_eq_length_iff (s : List UInt8) : ccolUtf8FirstIllFormed s = s.length ↔ WellFormedUtf8 s := by
  rw [← utf8ScanLoop_eq_iff 0 s, Nat.zero_add, ccolUtf8FirstIllFormed]

end Ccollections
