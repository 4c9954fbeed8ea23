import Ccollections.Cyaml.Stream
import Ccollections.Common.Lemmas.Cutf8

/-!
# The check of a stream accepts printable characters
-/

namespace Ccollections.Cyaml

open List

/-- `c-printable` of YAML 1.2. -/
def CPrintable (c : Char) : Prop :=
  let v := c.val.toNat
  v = 0x9 ∨ v = 0xA ∨ v = 0xD ∨ (0x20 ≤ v ∧ v ≤ 0x7E) ∨ v = 0x85 ∨ (0xA0 ≤ v ∧ v ≤ 0xD7FF) ∨ (0xE000 ≤ v ∧ v ≤ 0xFFFD) ∨
    0x10000 ≤ v

variable {p s : List UInt8} {i n stop len : Nat} {b : UInt8}

theorem isRefusedAscii_eq_false_iff (hb : b.toNat < 0x80) : isRefusedAscii b = false ↔
    b.toNat = 0x9 ∨ b.toNat = 0xA ∨ b.toNat = 0xD ∨ (0x20 ≤ b.toNat ∧ b.toNat ≤ 0x7E) := by
  simp only [isRefusedAscii, UInt8.lt_iff_toNat_lt, ne_eq, ← UInt8.toNat_inj, UInt8.reduceToNat, decide_not,
    Bool.or_eq_false_iff, Bool.and_eq_false_iff, decide_eq_false_iff_not, Bool.not_eq_false', decide_eq_true_eq]
  omega

theorem encode_ascii {c : Char} (h : c.val.toNat ≤ 0x7F) : String.utf8EncodeChar c = [UInt8.ofNat c.val.toNat] := by
  rw [String.utf8EncodeChar]
  exact if_pos h

/-- The second test refuses the characters outside `c-printable` from U+0080 on. -/
theorem isRefusedSequence_encode {c : Char} (h : 0x7F < c.val.toNat) (s : List UInt8) :
    isRefusedSequence (String.utf8EncodeChar c ++ s) = false ↔ CPrintable c := by
  obtain ⟨hmax, hsurr⟩ := char_bounds c
  have hnat : ∀ n, (UInt8.ofNat (n % 64 + 128)).toNat = n % 64 + 128 := fun n => toNat_ofNat_of_lt (by omega)
  simp only [String.utf8EncodeChar, CPrintable]
  generalize c.val.toNat = v at h hmax hsurr
  rw [if_neg (by omega)]
  by_cases h2 : v ≤ 2047
  · have h0 : (UInt8.ofNat (v / 64 % 32 + 192)).toNat = v / 64 + 192 := by
      rw [toNat_ofNat_of_lt (by omega)]
      omega
    simp only [if_pos h2, isRefusedSequence, cons_append, getD_cons_zero, getD_cons_succ, ← UInt8.toNat_inj, h0,
      hnat, UInt8.le_iff_toNat_le, ne_eq, UInt8.reduceToNat, decide_not, Bool.or_eq_false_iff, Bool.and_eq_false_iff,
      decide_eq_false_iff_not, Bool.not_eq_false', decide_eq_true_eq]
    omega
  · rw [if_neg h2]
    by_cases h3 : v ≤ 65535
    · have h0 : (UInt8.ofNat (v / 4096 % 16 + 224)).toNat = v / 4096 + 224 := by
        rw [toNat_ofNat_of_lt (by omega)]
        omega
      simp only [if_pos h3, isRefusedSequence, cons_append, getD_cons_zero, getD_cons_succ, ← UInt8.toNat_inj, h0,
        hnat, UInt8.le_iff_toNat_le, ge_iff_le, ne_eq, UInt8.reduceToNat, decide_not, Bool.or_eq_false_iff, Bool.and_eq_false_iff,
        decide_eq_false_iff_not, Bool.not_eq_false', decide_eq_true_eq]
      omega
    · have h0 : (UInt8.ofNat (v / 262144 % 8 + 240)).toNat = v / 262144 + 240 := by
        rw [toNat_ofNat_of_lt (by omega)]
        omega
      simp only [if_neg h3, isRefusedSequence, cons_append, getD_cons_zero, ← UInt8.toNat_inj, h0, UInt8.reduceToNat,
        Bool.or_eq_false_iff, Bool.and_eq_false_iff, decide_eq_false_iff_not]
      omega

theorem lead_ge {c : Char} (h : 0x7F < c.val.toNat) : ∃ b t, String.utf8EncodeChar c = b :: t ∧ ¬b < 0x80 := by
  rcases (utf8Sequence_encode c).ascii_or with ⟨b, ht, hb⟩ | hall
  · obtain ⟨hmax, -⟩ := char_bounds c
    rw [String.utf8EncodeChar, if_neg (by omega)] at ht
    split at ht
    · cases ht
    · split at ht <;> cases ht
  · cases ht : String.utf8EncodeChar c with
    | nil => exact absurd (congrArg List.length ht) (Nat.ne_of_gt (utf8Sequence_encode c).length_pos)
    | cons b t =>
      rw [ht] at hall
      exact ⟨b, t, rfl, Nat.not_lt.mpr (hall b mem_cons_self)⟩

/-- What the walk tests of the character at the start. -/
def Accepted (p : List UInt8) : Prop :=
  if p.getD 0 0 < 0x80 then isRefusedAscii (p.getD 0 0) = false
  else (ccolUtf8Step p).2 = true ∧ isRefusedSequence p = false

theorem Accepted.exists_char (h : Accepted (b :: s)) :
    ∃ c, CPrintable c ∧ (ccolUtf8Step (b :: s)).1 = (String.utf8EncodeChar c).length ∧
      b :: s = String.utf8EncodeChar c ++ (b :: s).drop (ccolUtf8Step (b :: s)).1 := by
  rw [Accepted, getD_cons_zero] at h
  split at h
  · rename_i hb
    have hlt : b.toNat < 0x80 := hb
    obtain ⟨c, hc⟩ := Ccollections.exists_char (v := b.toNat) (by omega) (by omega)
    have henc : String.utf8EncodeChar c = [b] := by rw [encode_ascii (by omega), hc, UInt8.ofNat_toNat]
    refine ⟨c, ?_, by rw [henc, ccolUtf8Step_ascii hb]; rfl, by rw [henc, ccolUtf8Step_ascii hb]; rfl⟩
    rw [isRefusedAscii_eq_false_iff hb, ← hc] at h
    rw [CPrintable]
    omega
  · rename_i hb
    obtain ⟨t, s', hs, ht, hlen⟩ := ccolUtf8Step_ok h.1
    obtain ⟨c, rfl⟩ := ht.exists_encode
    have hdrop : (b :: s).drop (ccolUtf8Step (b :: s)).1 = s' := by rw [hlen, hs, drop_left]
    have hv : 0x7F < c.val.toNat := by
      refine Nat.lt_of_not_le fun hle => hb ?_
      rw [encode_ascii hle] at hs
      rw [(List.cons.inj hs).1]
      exact UInt8.lt_iff_toNat_lt.mpr (by rw [toNat_ofNat_of_lt (by omega)]; exact Nat.lt_succ_of_le hle)
    exact ⟨c, (isRefusedSequence_encode hv s').mp (hs ▸ h.2), hlen, hdrop.symm ▸ hs⟩

theorem accepted_encode {c : Char} (hc : CPrintable c) (s : List UInt8) : Accepted (String.utf8EncodeChar c ++ s) := by
  by_cases hv : c.val.toNat ≤ 0x7F
  · have hb : (UInt8.ofNat c.val.toNat).toNat = c.val.toNat := toNat_ofNat_of_lt (by omega)
    have hlt : UInt8.ofNat c.val.toNat < 0x80 := UInt8.lt_iff_toNat_lt.mpr (by rw [hb]; exact Nat.lt_succ_of_le hv)
    rw [encode_ascii hv, Accepted, cons_append, getD_cons_zero, if_pos hlt, isRefusedAscii_eq_false_iff hlt, hb]
    rw [CPrintable] at hc
    omega
  · obtain ⟨b, t, ht, hb⟩ := lead_ge (Nat.lt_of_not_le hv)
    have hseq := (isRefusedSequence_encode (Nat.lt_of_not_le hv) s).mpr hc
    have hstep := ccolUtf8Step_sequence (utf8Sequence_encode c) s
    rw [ht] at hseq hstep ⊢
    rw [Accepted, cons_append, getD_cons_zero, if_neg hb]
    exact ⟨congrArg Prod.snd hstep, hseq⟩

/-- A character that the stream may not hold, or no character, is at the start. -/
def StartsRefused (p : List UInt8) : Prop :=
  p ≠ [] ∧ ((∀ c, ¬String.utf8EncodeChar c <+: p) ∨ ∃ c, ¬CPrintable c ∧ String.utf8EncodeChar c <+: p)

theorem startsRefused_of_not (hp : p ≠ []) (h : ¬Accepted p) : StartsRefused p := by
  refine ⟨hp, ?_⟩
  by_cases hchar : ∃ c, String.utf8EncodeChar c <+: p
  · obtain ⟨c, s, rfl⟩ := hchar
    exact .inr ⟨c, fun hc => h (accepted_encode hc s), s, rfl⟩
  · exact .inl fun c hc => hchar ⟨c, hc⟩

/-! ## The loops -/

/-- The bytes from offset `i` up to offset `n` are printable characters, and `s` comes behind them. -/
structure Passed (i : Nat) (p : List UInt8) (n : Nat) (s : List UInt8) : Prop where
  printable : ∃ cs : List Char, (∀ c ∈ cs, CPrintable c) ∧ p = cs.flatMap String.utf8EncodeChar ++ s
  offset : n + s.length = i + p.length

theorem Passed.refl (i : Nat) (p : List UInt8) : Passed i p i p := ⟨⟨[], by simp, rfl⟩, rfl⟩

theorem Passed.trans {m : Nat} {t : List UInt8} (h : Passed i p m t) (h' : Passed m t n s) : Passed i p n s := by
  obtain ⟨⟨cs, hcs, rfl⟩, hm⟩ := h
  obtain ⟨⟨cs', hcs', rfl⟩, hn⟩ := h'
  refine ⟨⟨cs ++ cs', fun c hc => (mem_append.mp hc).elim (hcs c) (hcs' c), ?_⟩, hn.trans hm⟩
  rw [flatMap_append, append_assoc]

theorem Passed.length_le (h : Passed i p n s) : s.length ≤ p.length := by
  obtain ⟨⟨cs, -, rfl⟩, -⟩ := h
  rw [length_append]
  exact Nat.le_add_left _ _

theorem Passed.step (h : Accepted (b :: s)) :
    Passed i (b :: s) (i + (ccolUtf8Step (b :: s)).1) ((b :: s).drop (ccolUtf8Step (b :: s)).1) := by
  obtain ⟨c, hc, hstep, heq⟩ := h.exists_char
  refine ⟨⟨[c], by simpa using hc, by simpa using heq⟩, ?_⟩
  have hlen := congrArg List.length heq
  rw [length_append, length_drop] at hlen
  rw [length_drop]
  omega

theorem passed_ascii (block : List UInt8) (hblock : blockIsPrintableAscii block) (s : List UInt8) :
    Passed i (block ++ s) (i + block.length) s := by
  induction block generalizing i with
  | nil => exact .refl i s
  | cons b block ih =>
    rw [blockIsPrintableAscii, all_cons, Bool.and_eq_true] at hblock
    obtain ⟨hb, hrest⟩ := hblock
    simp only [Bool.not_eq_true', Bool.or_eq_false_iff, decide_eq_false_iff_not, ge_iff_le, UInt8.not_le] at hb
    have hb0 : b < 0x80 := UInt8.lt_trans hb.2 (by decide)
    have hne : b ≠ 0x7F := fun heq => UInt8.lt_irrefl b (heq ▸ hb.2)
    have haccepted : Accepted (b :: (block ++ s)) := by
      rw [Accepted, getD_cons_zero, if_pos hb0, isRefusedAscii, hb.1, decide_eq_false hne]
      rfl
    have hstep := Passed.step (i := i) haccepted
    rw [ccolUtf8Step_ascii hb0] at hstep
    have hrest' := ih (i := i + 1) hrest
    rw [length_cons, ← Nat.add_assoc, Nat.add_right_comm]
    exact hstep.trans hrest'

theorem skipBlocks_passed (i : Nat) (p : List UInt8) : Passed i p (skipBlocks i p).1 (skipBlocks i p).2 := by
  induction hn : p.length using Nat.strongRecOn generalizing i p with
  | ind n ih =>
    rw [skipBlocks]
    split
    · rename_i h
      have hblock := passed_ascii (i := i) (p.take 16) h.2 (p.drop 16)
      rw [take_append_drop, length_take, Nat.min_eq_left h.1] at hblock
      exact hblock.trans (ih _ (by rw [length_drop]; omega) _ _ rfl)
    · exact .refl i p

theorem walkChars_spec (stop i : Nat) (p : List UInt8) :
    (∃ n s, walkChars stop i p = .inl n ∧ Passed i p n s ∧ StartsRefused s) ∨
      ∃ n s, walkChars stop i p = .inr (n, s) ∧ Passed i p n s ∧ (stop ≤ n ∨ s = []) := by
  induction hn : p.length using Nat.strongRecOn generalizing i p with
  | ind n ih =>
    cases p with
    | nil =>
      refine .inr ⟨i, [], ?_, .refl i [], .inr rfl⟩
      rw [walkChars]
      split <;> rfl
    | cons c rest =>
      by_cases hi : i < stop
      · by_cases haccepted : Accepted (c :: rest)
        · have hpassed := Passed.step (i := i) haccepted
          have hpos := ccolUtf8Step_pos c rest
          have hstep : walkChars stop i (c :: rest) = walkChars stop (i + (ccolUtf8Step (c :: rest)).1)
              ((c :: rest).drop (ccolUtf8Step (c :: rest)).1) := by
            rw [Accepted, getD_cons_zero] at haccepted
            rw [walkChars, if_pos hi]
            split at haccepted
            · rename_i hc
              rw [if_pos hc, haccepted, ccolUtf8Step_ascii hc]
              rfl
            · rename_i hc
              simp [if_neg hc, haccepted]
          rw [hstep]
          rcases ih _ (by rw [← hn, length_drop]; exact Nat.sub_lt (Nat.succ_pos _) hpos) _ _ rfl with
            ⟨m, s, heq, hm, hs⟩ | ⟨m, s, heq, hm, hs⟩
          · exact .inl ⟨m, s, heq, hpassed.trans hm, hs⟩
          · exact .inr ⟨m, s, heq, hpassed.trans hm, hs⟩
        · refine .inl ⟨i, c :: rest, ?_, .refl i _, startsRefused_of_not (cons_ne_nil c rest) haccepted⟩
          rw [Accepted, getD_cons_zero] at haccepted
          rw [walkChars, if_pos hi]
          split at haccepted
          · rename_i hc
            rw [if_pos hc, if_pos (Bool.not_eq_false _ ▸ haccepted)]
          · rename_i hc
            rw [if_neg hc]
            have hrefused : (!(ccolUtf8Step (c :: rest)).2 || isRefusedSequence (c :: rest)) = true := by
              cases hok : (ccolUtf8Step (c :: rest)).2 <;> simp_all
            exact if_pos hrefused
      · refine .inr ⟨i, c :: rest, ?_, .refl i _, .inl (Nat.not_lt.mp hi)⟩
        rw [walkChars, if_neg hi]

theorem refusedLoop_spec (rounds : Nat) (hrounds : p.length < rounds) (hlen : i + p.length = len) :
    ∃ n s, refusedLoop len rounds i p = some n ∧ Passed i p n s ∧ (s = [] ∨ StartsRefused s) := by
  induction rounds generalizing i p with
  | zero => omega
  | succ rounds ih =>
    have hskip := skipBlocks_passed i p
    have hoffset := hskip.offset
    rw [refusedLoop]
    generalize hp : skipBlocks i p = q at hskip hoffset
    obtain ⟨j, t⟩ := q
    simp only at hskip hoffset ⊢
    rcases walkChars_spec (if 16 ≤ t.length then j + 16 else len) j t with ⟨n, s, heq, hn, hs⟩ | ⟨n, s, heq, hn, hs⟩
    · rw [heq]
      exact ⟨n, s, rfl, hskip.trans hn, .inr hs⟩
    · have hn' := hn.offset
      rw [heq]
      simp only
      split
      · have hs0 : s = [] := length_eq_zero_iff.mp (by omega)
        have hnlen : n = len := by rw [hs0, length_nil] at hn'; omega
        exact ⟨len, [], rfl, hnlen ▸ hs0 ▸ hskip.trans hn, .inl rfl⟩
      · have hle := hskip.length_le
        have hless : s.length < p.length := by
          rcases hs with hs | rfl
          · split at hs <;> omega
          · rw [length_nil] at hn'
            omega
        obtain ⟨m, u, hloop, hm, hu⟩ := ih (by omega) (by omega : n + s.length = len)
        exact ⟨m, u, hloop, (hskip.trans hn).trans hm, hu⟩

end Ccollections.Cyaml
