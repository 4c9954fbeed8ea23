import Ccollections.Cjson.Lemmas.ParseNumber
import Ccollections.Common.Lemmas.Cutf8

/-!
# Strings are read by all three paths alike
-/

namespace Ccollections.Cjson

open List

variable {ctx ctx' ctx'' : ParseCtx} {t t' rest s bytes : List UInt8} {pos cp v : Nat}

/-! ## Escapes -/

theorem or_eq_add {a b n : Nat} (h : b < 2 ^ n) : 2 ^ n * a ||| b = 2 ^ n * a + b := (Nat.two_pow_add_eq_or_of_lt h a).symm

theorem continuation_eq (v : Nat) : 0x80 ||| (v &&& 0x3F) = v % 64 + 128 := by
  have hmod : v &&& 0x3F = v % 64 := Nat.and_two_pow_sub_one_eq_mod v 6
  have hor : 2 ^ 6 * 2 ||| v % 64 = 2 ^ 6 * 2 + v % 64 := or_eq_add (Nat.mod_lt v (by decide))
  rw [hmod]
  exact hor.trans (Nat.add_comm _ _)

theorem encodeUtf8_eq (c : Char) : encodeUtf8 c.val.toNat = String.utf8EncodeChar c := by
  obtain ⟨hmax, -⟩ := char_bounds c
  simp only [encodeUtf8, String.utf8EncodeChar, continuation_eq, Nat.shiftRight_eq_div_pow]
  generalize c.val.toNat = v at hmax ⊢
  split_ifs with h1 h2 h3
  · rfl
  · rw [show (0xC0 : Nat) = 2 ^ 6 * 3 from rfl, or_eq_add (by omega), Nat.mod_eq_of_lt (b := 32) (by omega), Nat.add_comm]
  · rw [show (0xE0 : Nat) = 2 ^ 5 * 7 from rfl, or_eq_add (by omega), Nat.mod_eq_of_lt (b := 16) (by omega), Nat.add_comm]
  · rw [show (0xF0 : Nat) = 2 ^ 4 * 15 from rfl, or_eq_add (by omega), Nat.mod_eq_of_lt (b := 8) (by omega), Nat.add_comm]

theorem hexDigit_iff {c : UInt8} {d : Nat} : hexDigit c = some d ↔ HexDigit c d := by
  constructor
  · intro h
    rw [hexDigit] at h
    split_ifs at h with hdigit hlower hupper
    · cases h
      exact .digit hdigit
    · cases h
      exact .lower hlower
    · cases h
      exact .upper hupper
  · intro h
    cases h with
    | digit h => rw [hexDigit, if_pos h]
    | lower h =>
      have hnot : ¬(c ≥ 0x30 ∧ c ≤ 0x39) := fun hdigit => absurd (UInt8.le_trans h.1 hdigit.2) (by decide)
      rw [hexDigit, if_neg hnot, if_pos h]
    | upper h =>
      have hnot : ¬(c ≥ 0x30 ∧ c ≤ 0x39) := fun hdigit => absurd (UInt8.le_trans h.1 hdigit.2) (by decide)
      have hnot' : ¬(c ≥ 0x61 ∧ c ≤ 0x66) := fun hlower => absurd (UInt8.le_trans hlower.1 h.2) (by decide)
      rw [hexDigit, if_neg hnot, if_neg hnot', if_pos h]

theorem HexDigit.bounds {c : UInt8} {d : Nat} (h : HexDigit c d) : d < 16 ∧ 0x30 ≤ c.toNat ∧ c.toNat ≤ 0x66 ∧ c.toNat ≠ 0x5C := by
  cases h <;> rename_i h <;> obtain ⟨hlo, hhi⟩ := h <;>
    simp only [UInt8.le_iff_toNat_le, UInt8.reduceToNat] at hlo hhi <;> omega

theorem hexLoop_cons {left : Nat} {c : UInt8} {d : Nat} (h : HexDigit c d) :
    hexLoop (left + 1) v ⟨pos, c :: rest⟩ = hexLoop left (v * 16 + d) ⟨pos + 1, rest⟩ := by
  have hv : v <<< 4 ||| d = v * 16 + d := by
    rw [Nat.shiftLeft_eq, Nat.mul_comm, or_eq_add h.bounds.1, Nat.mul_comm]
  simp only [hexLoop, hexDigit_iff.mpr h, hv, advance_cons]

theorem parseHex4_complete (h : UnicodeEscape (0x5C :: 0x75 :: t) cp) :
    parseHex4 ⟨pos, t ++ rest⟩ = .ok (cp, ⟨pos + t.length, rest⟩) := by
  cases h with
  | mk h₀ h₁ h₂ h₃ =>
    rw [parseHex4, if_neg (by simp)]
    simp only [cons_append, nil_append, hexLoop_cons h₀, hexLoop_cons h₁, hexLoop_cons h₂, hexLoop_cons h₃]
    simp [hexLoop]

theorem hexLoop_sound {left : Nat} (h : hexLoop (left + 1) v ctx = .ok (cp, ctx')) :
    ∃ c d, HexDigit c d ∧ ctx.Takes [c] (ctx.advance 1) ∧ hexLoop left (v * 16 + d) (ctx.advance 1) = .ok (cp, ctx') := by
  cases hrest : ctx.rest with
  | nil => simp [hexLoop, hrest] at h
  | cons c rest =>
    cases hdigit : hexDigit c with
    | none => simp [hexLoop, hrest, hdigit] at h
    | some d =>
      have hd := hexDigit_iff.mp hdigit
      obtain ⟨p, r⟩ := ctx
      subst hrest
      rw [hexLoop_cons hd] at h
      exact ⟨c, d, hd, takes_advance_head rfl, h⟩

theorem parseHex4_sound (h : parseHex4 ctx = .ok (cp, ctx')) :
    ∃ t, UnicodeEscape (0x5C :: 0x75 :: t) cp ∧ ctx.Takes t ctx' := by
  rw [parseHex4] at h
  split at h
  · cases h
  · obtain ⟨c₀, d₀, h₀, ht₀, h⟩ := hexLoop_sound h
    obtain ⟨c₁, d₁, h₁, ht₁, h⟩ := hexLoop_sound h
    obtain ⟨c₂, d₂, h₂, ht₂, h⟩ := hexLoop_sound h
    obtain ⟨c₃, d₃, h₃, ht₃, h⟩ := hexLoop_sound h
    cases h
    refine ⟨[c₀, c₁, c₂, c₃], ?_, ht₀.trans (ht₁.trans (ht₂.trans ht₃))⟩
    rw [Nat.zero_mul, Nat.zero_add]
    exact .mk h₀ h₁ h₂ h₃

theorem UnicodeEscape.text (h : UnicodeEscape t cp) : ∃ t', t = 0x5C :: 0x75 :: t' := by
  cases h
  exact ⟨_, rfl⟩

theorem UnicodeEscape.lt (h : UnicodeEscape t cp) : cp < 0x10000 := by
  cases h with
  | mk h₀ h₁ h₂ h₃ =>
    have := h₀.bounds
    have := h₁.bounds
    have := h₂.bounds
    have := h₃.bounds
    omega

theorem unicodeChar_char {escPos : Nat} {c : Char} (hnul : c.val.toNat ≠ 0) :
    unicodeChar escPos c.val.toNat ctx = .ok (String.utf8EncodeChar c, ctx) := by
  rw [unicodeChar, if_neg hnul, encodeUtf8_eq]

theorem parseUnicodeEscape_sound (h : parseUnicodeEscape ctx = .ok (bytes, ctx')) :
    ∃ t, EscapeText (0x5C :: 0x75 :: t) bytes ∧ ctx.Takes t ctx' := by
  simp only [parseUnicodeEscape, bind, Except.bind] at h
  cases hhex : parseHex4 ctx with
  | error e => simp [hhex] at h
  | ok r =>
    obtain ⟨cp, ctx₁⟩ := r
    obtain ⟨t, ht, htakes⟩ := parseHex4_sound hhex
    simp only [hhex] at h
    have hcp := ht.lt
    have hfinish : ∀ {v : Nat} {escPos : Nat} {ctx₂ : ParseCtx}, v < 0x110000 → (v < 0xD800 ∨ 0xDFFF < v) →
        unicodeChar escPos v ctx₂ = .ok (bytes, ctx') →
        ∃ c : Char, c.val.toNat = v ∧ v ≠ 0 ∧ bytes = String.utf8EncodeChar c ∧ ctx' = ctx₂ := by
      intro v escPos ctx₂ hmax hsurr hchar
      obtain ⟨c, rfl⟩ := exists_char hmax hsurr
      by_cases hnul : c.val.toNat = 0
      · rw [unicodeChar, if_pos hnul] at hchar
        cases hchar
      · rw [unicodeChar_char hnul] at hchar
        cases hchar
        exact ⟨c, rfl, hnul, rfl, rfl⟩
    split_ifs at h with hhigh hlow
    · cases hls : lowSurrogate ctx₁ with
      | error e => simp [hls] at h
      | ok r =>
        obtain ⟨low, ctx₂⟩ := r
        simp only [hls] at h
        split_ifs at h with hrange
        rw [not_or, Nat.not_lt, gt_iff_lt, Nat.not_lt] at hrange
        rw [lowSurrogate] at hls
        split_ifs at hls with hnext
        · obtain ⟨t', ht', htakes'⟩ := parseHex4_sound hls
          have hpair : ctx₁.Takes (0x5C :: 0x75 :: t') ctx₂ := (takes_advance hnext rfl).trans htakes'
          obtain ⟨c, hc, -, rfl, rfl⟩ := hfinish (by rw [Nat.shiftLeft_eq]; omega) (by rw [Nat.shiftLeft_eq]; omega) h
          refine ⟨t ++ 0x5C :: 0x75 :: t', ?_, htakes.trans hpair⟩
          exact .surrogates ht ht' hhigh hrange (by rw [hc, Nat.shiftLeft_eq])
        · cases hls
          omega
    · obtain ⟨c, rfl, hnul, rfl, rfl⟩ := hfinish (by omega) (by omega) h
      exact ⟨t, .unicode ht hnul, htakes⟩

theorem parseUnicodeEscape_complete (h : EscapeText (0x5C :: 0x75 :: t) bytes) :
    parseUnicodeEscape ⟨pos, t ++ rest⟩ = .ok (bytes, ⟨pos + t.length, rest⟩) := by
  generalize htext : 0x5C :: 0x75 :: t = text at h
  cases h with
  | short h =>
    cases htext
    simp [shortEscapes] at h
  | @unicode text c h hnul =>
    subst htext
    have hc := char_bounds c
    simp only [parseUnicodeEscape, parseHex4_complete h, bind, Except.bind]
    rw [if_neg (by omega), if_neg (by omega), unicodeChar_char hnul]
  | @surrogates t₁ t₂ high low c h h' hhigh hlow hc =>
    obtain ⟨u₁, rfl⟩ := h.text
    obtain ⟨u₂, rfl⟩ := h'.text
    simp only [cons_append, List.cons.injEq, true_and] at htext
    subst htext
    have hcode : 0x10000 + ((high - 0xD800) <<< 10) + (low - 0xDC00) = c.val.toNat := by
      rw [hc, Nat.shiftLeft_eq]
    have hls : lowSurrogate ⟨pos + u₁.length, 0x5C :: 0x75 :: (u₂ ++ rest)⟩ =
        .ok (low, ⟨pos + u₁.length + 2 + u₂.length, rest⟩) := by
      have hnext : (0x5C :: 0x75 :: (u₂ ++ rest)).take 2 = [0x5C, 0x75] := rfl
      simp only [lowSurrogate, hnext, ↓reduceIte]
      exact parseHex4_complete h'
    simp only [parseUnicodeEscape, append_assoc, parseHex4_complete h, bind, Except.bind, cons_append, hls]
    rw [if_pos hhigh, if_neg (by omega), hcode, unicodeChar_char (by omega)]
    simp [Nat.add_assoc, Nat.add_comm 2]

theorem EscapeText.text (h : EscapeText t bytes) : ∃ e t', t = 0x5C :: e :: t' := by
  cases h with
  | short _ => exact ⟨_, _, rfl⟩
  | unicode h _ =>
    obtain ⟨t', rfl⟩ := h.text
    exact ⟨_, _, rfl⟩
  | surrogates h _ _ _ _ =>
    obtain ⟨t', rfl⟩ := h.text
    exact ⟨_, _, rfl⟩

theorem parseEscape_sound (h : parseEscape ctx = .ok (bytes, ctx')) : ∃ t, EscapeText (0x5C :: t) bytes ∧ ctx.Takes t ctx' := by
  rw [parseEscape] at h
  split at h
  · cases h
  · rename_i esc rest hrest
    have htakes : ctx.Takes [esc] (ctx.advance 1) := takes_advance_head (by rw [hrest]; rfl)
    have hshort : ∀ v : UInt8, (esc, v) ∈ shortEscapes → (Except.ok ([v], ctx.advance 1) : Except ParseError _) = .ok (bytes, ctx') →
        ∃ t, EscapeText (0x5C :: t) bytes ∧ ctx.Takes t ctx' := by
      intro v hv heq
      cases heq
      exact ⟨[esc], .short hv, htakes⟩
    dsimp only at h
    split_ifs at h with h₁ h₂ h₃ h₄ h₅ h₆ h₇ h₈ h₉
    · exact hshort _ (by subst h₁; decide) h
    · exact hshort _ (by subst h₂; decide) h
    · exact hshort _ (by subst h₃; decide) h
    · exact hshort _ (by subst h₄; decide) h
    · exact hshort _ (by subst h₅; decide) h
    · exact hshort _ (by subst h₆; decide) h
    · exact hshort _ (by subst h₇; decide) h
    · exact hshort _ (by subst h₈; decide) h
    · subst h₉
      obtain ⟨t, ht, htakes'⟩ := parseUnicodeEscape_sound h
      exact ⟨0x75 :: t, ht, htakes.trans htakes'⟩

theorem parseEscape_complete (h : EscapeText (0x5C :: t) bytes) :
    parseEscape ⟨pos, t ++ rest⟩ = .ok (bytes, ⟨pos + t.length, rest⟩) := by
  have hunicode : ∀ t', t = 0x75 :: t' → parseEscape ⟨pos, t ++ rest⟩ = .ok (bytes, ⟨pos + t.length, rest⟩) := by
    rintro t' rfl
    simp [parseEscape, parseUnicodeEscape_complete h, Nat.add_assoc, Nat.add_comm 1]
  generalize htext : 0x5C :: t = text at h
  cases h with
  | @short e v h =>
    cases htext
    simp only [shortEscapes, mem_cons, Prod.mk.injEq, not_mem_nil, or_false] at h
    rcases h with ⟨rfl, rfl⟩ | ⟨rfl, rfl⟩ | ⟨rfl, rfl⟩ | ⟨rfl, rfl⟩ | ⟨rfl, rfl⟩ | ⟨rfl, rfl⟩ | ⟨rfl, rfl⟩ | ⟨rfl, rfl⟩ <;> rfl
  | unicode h _ =>
    obtain ⟨t', rfl⟩ := h.text
    exact hunicode t' (List.cons.inj htext).2
  | surrogates h _ _ _ _ =>
    obtain ⟨t', rfl⟩ := h.text
    exact hunicode _ (List.cons.inj htext).2

/-! ## The first pass -/

variable {scan : Nat} {slow nonAscii : Bool}

theorem isPlainByte_iff {c : UInt8} : isPlainByte c = true ↔ c ≠ 0x22 ∧ c ≠ 0x5C ∧ ¬c < 0x20 := by
  simp [isPlainByte, and_assoc]

theorem scanLoop_quote : scanLoop scan slow nonAscii (0x22 :: rest) = some (scan, slow, nonAscii) := by
  rw [scanLoop.eq_def]
  rfl

theorem scanLoop_backslash {c : UInt8} :
    scanLoop scan slow nonAscii (0x5C :: c :: rest) = scanLoop (scan + 2) true nonAscii rest := by
  rw [scanLoop.eq_def]
  rfl

theorem scanLoop_plainByte {c : UInt8} (h : isPlainByte c = true) :
    scanLoop scan slow nonAscii (c :: rest) = scanLoop (scan + 1) slow (nonAscii || decide (c ≥ 0x80)) rest := by
  obtain ⟨hquote, hbackslash, hcontrol⟩ := isPlainByte_iff.mp h
  rw [scanLoop.eq_def]
  simp only [if_neg hquote, if_neg hbackslash, if_neg hcontrol]

theorem scanLoop_plain (h : ∀ c ∈ t, isPlainByte c = true) :
    scanLoop scan slow nonAscii (t ++ rest) =
      scanLoop (scan + t.length) slow (nonAscii || t.any fun c => decide (c ≥ 0x80)) rest := by
  induction t generalizing scan nonAscii with
  | nil => simp
  | cons c t ih =>
    rw [cons_append, scanLoop_plainByte (h c mem_cons_self), ih fun d hd => h d (mem_cons_of_mem c hd)]
    simp [Bool.or_assoc, Nat.add_assoc, Nat.add_comm 1]

theorem HexDigit.plain {c : UInt8} {d : Nat} (h : HexDigit c d) : isPlainByte c = true ∧ decide (c ≥ 0x80) = false := by
  obtain ⟨-, hlo, hhi, hne⟩ := h.bounds
  rw [isPlainByte_iff, decide_eq_false_iff_not]
  simp only [ge_iff_le, ne_eq, ← UInt8.toNat_inj, UInt8.lt_iff_toNat_lt, UInt8.le_iff_toNat_le, UInt8.reduceToNat]
  omega

theorem scanLoop_unicode (h : UnicodeEscape t cp) :
    scanLoop scan slow nonAscii (t ++ rest) = scanLoop (scan + t.length) true nonAscii rest := by
  cases h with
  | @mk c₀ c₁ c₂ c₃ _ _ _ _ h₀ h₁ h₂ h₃ =>
    have hplain : ∀ c ∈ [c₀, c₁, c₂, c₃], isPlainByte c = true := by
      simp [h₀.plain, h₁.plain, h₂.plain, h₃.plain]
    simp only [cons_append, nil_append]
    rw [scanLoop_backslash]
    refine (scanLoop_plain hplain).trans ?_
    simp [h₀.plain.2, h₁.plain.2, h₂.plain.2, h₃.plain.2]

theorem scanLoop_escape (h : EscapeText t bytes) :
    scanLoop scan slow nonAscii (t ++ rest) = scanLoop (scan + t.length) true nonAscii rest := by
  cases h with
  | short _ => exact scanLoop_backslash
  | unicode h _ => exact scanLoop_unicode h
  | surrogates h h' _ _ _ =>
    rw [append_assoc, scanLoop_unicode h, scanLoop_unicode h', length_append, Nat.add_assoc]

/-! ## Plain characters -/

theorem CharsText.append {s' : List UInt8} (h : CharsText t s) (h' : CharsText t' s') : CharsText (t ++ t') (s ++ s') := by
  induction h with
  | nil => exact h'
  | cons hc _ ih =>
    rw [append_assoc, append_assoc]
    exact .cons hc ih

theorem isPlainByte_of_nonAscii {b : UInt8} (h : 0x80 ≤ b.toNat) : isPlainByte b = true := by
  rw [isPlainByte_iff]
  simp only [ne_eq, ← UInt8.toNat_inj, UInt8.lt_iff_toNat_lt, UInt8.reduceToNat]
  omega

theorem encode_plain_iff (c : Char) :
    (∀ b ∈ String.utf8EncodeChar c, isPlainByte b = true) ↔
      0x20 ≤ c.val.toNat ∧ c.val.toNat ≠ 0x22 ∧ c.val.toNat ≠ 0x5C := by
  by_cases hascii : c.val.toNat ≤ 127
  · have henc : String.utf8EncodeChar c = [UInt8.ofNat c.val.toNat] := by simp only [String.utf8EncodeChar, if_pos hascii]
    have hbyte : (UInt8.ofNat c.val.toNat).toNat = c.val.toNat := toNat_ofNat_of_lt (by omega)
    rw [henc, forall_mem_singleton, isPlainByte_iff]
    simp only [ne_eq, ← UInt8.toNat_inj, UInt8.lt_iff_toNat_lt, UInt8.reduceToNat, hbyte]
    omega
  · have hplain : ∀ b ∈ String.utf8EncodeChar c, isPlainByte b = true := by
      rcases (utf8Sequence_encode c).ascii_or with ⟨b, hb, -⟩ | hall
      · have hlen := congrArg List.length hb
        simp only [String.utf8EncodeChar, if_neg hascii] at hlen
        split_ifs at hlen <;> cases hlen
      · exact fun b hb => isPlainByte_of_nonAscii (hall b hb)
    exact ⟨fun _ => by omega, fun _ => hplain⟩

theorem charsText_of_utf8 (h : WellFormedUtf8 t) (hplain : ∀ b ∈ t, isPlainByte b = true) : CharsText t t := by
  obtain ⟨cs, rfl⟩ := h
  induction cs with
  | nil => exact .nil
  | cons c cs ih =>
    rw [flatMap_cons] at hplain ⊢
    obtain ⟨hcontrol, hquote, hbackslash⟩ :=
      (encode_plain_iff c).mp fun b hb => hplain b (mem_append_left _ hb)
    exact .cons (.unescaped hcontrol hquote hbackslash) (ih fun b hb => hplain b (mem_append_right _ hb))

theorem stringBytesAreUtf8_iff {n : Nat} (hn : n ≤ ctx.rest.length) :
    stringBytesAreUtf8 ctx n = .ok () ↔ WellFormedUtf8 (ctx.rest.take n) := by
  have hlen : (ctx.rest.take n).length = n := by rw [length_take, Nat.min_eq_left hn]
  rw [← ccolUtf8FirstIllFormed_eq_length_iff, hlen, stringBytesAreUtf8]
  split
  · simpa using ‹_›
  · simpa using ‹_›

theorem wellFormedUtf8_of_checked {n : Nat} (hn : n ≤ ctx.rest.length)
    (hcheck : nonAscii = true → stringBytesAreUtf8 ctx n = .ok ())
    (hascii : nonAscii = false → ∀ b ∈ ctx.rest.take n, ¬b ≥ 0x80) : WellFormedUtf8 (ctx.rest.take n) := by
  cases nonAscii with
  | true => exact (stringBytesAreUtf8_iff hn).mp (hcheck rfl)
  | false => exact wellFormedUtf8_of_ascii (hascii rfl)

/-! ## The slow path -/

theorem takeWhile_eq_take (p : UInt8 → Bool) (l : List UInt8) : l.take (l.takeWhile p).length = l.takeWhile p := by
  calc l.take (l.takeWhile p).length
      = (l.takeWhile p ++ l.dropWhile p).take (l.takeWhile p).length := by rw [takeWhile_append_dropWhile]
    _ = l.takeWhile p := take_left

theorem length_takeWhile_le (p : UInt8 → Bool) (l : List UInt8) : (l.takeWhile p).length ≤ l.length :=
  (takeWhile_sublist p).length_le

theorem plainRun_sound {run : List UInt8} (h : plainRun nonAscii ctx = .ok (run, ctx'))
    (hascii : nonAscii = false → ∀ b ∈ ctx.rest.takeWhile isPlainByte, ¬b ≥ 0x80) :
    run = ctx.rest.takeWhile isPlainByte ∧ ctx' = ctx.advanceWhile isPlainByte ∧ CharsText run run := by
  have hle := length_takeWhile_le isPlainByte ctx.rest
  have htake := takeWhile_eq_take isPlainByte ctx.rest
  have hfinal : (nonAscii = true → stringBytesAreUtf8 ctx (ctx.rest.takeWhile isPlainByte).length = .ok ()) →
      CharsText (ctx.rest.takeWhile isPlainByte) (ctx.rest.takeWhile isPlainByte) := by
    intro hcheck
    refine charsText_of_utf8 ?_ fun b hb => mem_takeWhile_imp hb
    rw [← htake]
    exact wellFormedUtf8_of_checked hle hcheck fun hna => htake.symm ▸ hascii hna
  simp only [plainRun, bind, Except.bind, pure, Except.pure] at h
  split_ifs at h with hcond
  · split at h
    · cases h
    · rename_i hcheck
      cases h
      exact ⟨rfl, rfl, hfinal fun _ => hcheck⟩
  · cases h
    refine ⟨rfl, rfl, hfinal ?_⟩
    rintro rfl
    have hnil : ctx.rest.takeWhile isPlainByte = [] := by simpa using hcond
    rw [stringBytesAreUtf8_iff hle, htake, hnil]
    exact wellFormedUtf8_nil

theorem plainRun_complete {run : List UInt8} (hplain : ∀ b ∈ run, isPlainByte b = true) (hutf8 : WellFormedUtf8 run)
    (hstop : ∀ c ∈ rest.head?, isPlainByte c = false) :
    plainRun nonAscii ⟨pos, run ++ rest⟩ = .ok (run, ⟨pos + run.length, rest⟩) := by
  have hrun : (run ++ rest).takeWhile isPlainByte = run := by
    rw [takeWhile_append_of_pos hplain]
    cases rest with
    | nil => simp
    | cons c rest => simp [hstop c rfl]
  have hcheck : stringBytesAreUtf8 ⟨pos, run ++ rest⟩ run.length = .ok () := by
    rw [stringBytesAreUtf8_iff (by simp), take_left]
    exact hutf8
  simp only [plainRun, hrun, hcheck, bind, Except.bind, pure, Except.pure, advance_append]
  split <;> rfl

theorem parseStringSlow_eq (sb : List UInt8) :
    parseStringSlow nonAscii sb ctx =
      match plainRun nonAscii ctx with
      | .error e => .error e
      | .ok (run, ctx₁) =>
        match ctx₁.rest with
        | [] => .error (.unterminatedString ctx₁.pos)
        | c :: _ =>
          if c = 0x22 then .ok (sb ++ run, ctx₁.advance 1)
          else if c = 0x5C then
            match parseEscape (ctx₁.advance 1) with
            | .error e => .error e
            | .ok (bytes, ctx₂) => parseStringSlow nonAscii (sb ++ run ++ bytes) ctx₂
          else .error (.controlCharacter c ctx₁.pos) := by
  rw [parseStringSlow]
  split
  · simp only [*]
  · rename_i hrun
    simp only [hrun]
    split
    · simp only [*]
    · rename_i hrest
      simp only [hrest]
      split
      · rfl
      · split
        · split <;> simp only [*]
        · rfl

def Quiet (rest : List UInt8) : Prop := ∃ k b k' b', scanLoop k b false rest = some (k', b', false)

theorem scanLoop_nonAscii {k' : Nat} {b' : Bool} {l : List UInt8} (h : scanLoop scan slow true l = some (k', b', nonAscii)) :
    nonAscii = true := by
  induction hn : l.length using Nat.strongRecOn generalizing l scan slow with
  | ind n ih =>
    subst hn
    rw [scanLoop.eq_def] at h
    cases l with
    | nil => cases h
    | cons c l =>
      simp only [Bool.true_or] at h
      split_ifs at h
      · cases h
        rfl
      · cases l with
        | nil => cases h
        | cons d l => exact ih l.length (by simp only [length_cons]; omega) h rfl
      · exact ih l.length (by simp) h rfl
      · exact ih l.length (by simp) h rfl

theorem Quiet.plain (h : Quiet (t ++ rest)) (hplain : ∀ c ∈ t, isPlainByte c = true) :
    (∀ b ∈ t, ¬b ≥ 0x80) ∧ Quiet rest := by
  obtain ⟨k, b, k', b', hscan⟩ := h
  rw [scanLoop_plain hplain, Bool.false_or] at hscan
  cases hany : t.any fun c => decide (c ≥ 0x80) with
  | true =>
    rw [hany] at hscan
    exact absurd (scanLoop_nonAscii hscan) (by decide)
  | false =>
    rw [hany] at hscan
    exact ⟨by simpa using hany, _, _, _, _, hscan⟩

theorem Quiet.escape (h : Quiet (t ++ rest)) (hesc : EscapeText t bytes) : Quiet rest := by
  obtain ⟨k, b, k', b', hscan⟩ := h
  rw [scanLoop_escape hesc] at hscan
  exact ⟨_, _, _, _, hscan⟩

theorem parseStringSlow_sound {sb : List UInt8} (h : parseStringSlow nonAscii sb ctx = .ok (s, ctx'))
    (hquiet : nonAscii = false → Quiet ctx.rest) :
    ∃ t s', s = sb ++ s' ∧ CharsText t s' ∧ ctx.Takes (t ++ [0x22]) ctx' := by
  induction hn : ctx.rest.length using Nat.strongRecOn generalizing ctx sb with
  | ind n ih =>
    rw [parseStringSlow_eq] at h
    have hplain : ∀ b ∈ ctx.rest.takeWhile isPlainByte, isPlainByte b = true := fun b hb => mem_takeWhile_imp hb
    have hsplit := takeWhile_append_dropWhile (p := isPlainByte) (l := ctx.rest)
    have hquiet' : nonAscii = false → (∀ b ∈ ctx.rest.takeWhile isPlainByte, ¬b ≥ 0x80) ∧
        Quiet (ctx.rest.dropWhile isPlainByte) := fun hna => (hsplit.symm ▸ hquiet hna).plain hplain
    cases hrun : plainRun nonAscii ctx with
    | error e => simp [hrun] at h
    | ok r =>
      obtain ⟨run, ctx₁⟩ := r
      obtain ⟨hruneq, rfl, hchars⟩ := plainRun_sound hrun fun hna => (hquiet' hna).1
      have htakes : ctx.Takes run (ctx.advanceWhile isPlainByte) := hruneq ▸ advanceWhile_takes
      simp only [hrun] at h
      split at h
      · cases h
      · rename_i c rest hrest
        split_ifs at h with hquote hbackslash
        · cases h
          subst hquote
          exact ⟨run, run, rfl, hchars, htakes.trans (takes_advance_head (by rw [hrest]; rfl))⟩
        · subst hbackslash
          have hback : (ctx.advanceWhile isPlainByte).Takes [0x5C] ((ctx.advanceWhile isPlainByte).advance 1) :=
            takes_advance_head (by rw [hrest]; rfl)
          cases hesc : parseEscape ((ctx.advanceWhile isPlainByte).advance 1) with
          | error e => simp [hesc] at h
          | ok r =>
            obtain ⟨bytes, ctx₂⟩ := r
            simp only [hesc] at h
            obtain ⟨u, hu, hutakes⟩ := parseEscape_sound hesc
            have hescape : (ctx.advanceWhile isPlainByte).Takes (0x5C :: u) ctx₂ := hback.trans hutakes
            have hlen : ctx₂.rest.length < n := by
              rw [← hn, (htakes.trans hescape).1]
              simp
              omega
            have hquiet₂ : nonAscii = false → Quiet ctx₂.rest := by
              intro hna
              have hq := (hquiet' hna).2
              rw [← advanceWhile_rest, hescape.1] at hq
              exact hq.escape hu
            obtain ⟨t, s', rfl, ht, htakes₂⟩ := ih _ hlen h hquiet₂ rfl
            refine ⟨run ++ (0x5C :: u ++ t), run ++ (bytes ++ s'), by simp, hchars.append (.cons (.escaped hu) ht), ?_⟩
            have hall := htakes.trans (hescape.trans htakes₂)
            simpa only [append_assoc] using hall

theorem CharsText.split (h : CharsText t s) :
    ∃ run t' s', t = run ++ t' ∧ s = run ++ s' ∧ (∀ b ∈ run, isPlainByte b = true) ∧ WellFormedUtf8 run ∧
      (t' = [] ∧ s' = [] ∨ ∃ e v t'' s'', t' = e ++ t'' ∧ s' = v ++ s'' ∧ EscapeText e v ∧ CharsText t'' s'') := by
  induction h with
  | nil => exact ⟨[], [], [], rfl, rfl, by simp, wellFormedUtf8_nil, .inl ⟨rfl, rfl⟩⟩
  | @cons t v t' v' hc h ih =>
    cases hc with
    | @unescaped c hcontrol hquote hbackslash =>
      obtain ⟨run, t'', s'', rfl, rfl, hplain, hutf8, htail⟩ := ih
      refine ⟨String.utf8EncodeChar c ++ run, t'', s'', by simp, by simp, ?_, ?_, htail⟩
      · intro b hb
        rcases mem_append.mp hb with hb | hb
        · exact (encode_plain_iff c).mpr ⟨hcontrol, hquote, hbackslash⟩ b hb
        · exact hplain b hb
      · exact WellFormedUtf8.append ⟨[c], by simp⟩ hutf8
    | escaped hesc =>
      exact ⟨[], t ++ t', v ++ v', rfl, rfl, by simp, wellFormedUtf8_nil, .inr ⟨t, v, t', v', rfl, rfl, hesc, h⟩⟩

theorem parseStringSlow_complete (h : CharsText t s) (sb : List UInt8) :
    parseStringSlow nonAscii sb ⟨pos, t ++ 0x22 :: rest⟩ = .ok (sb ++ s, ⟨pos + t.length + 1, rest⟩) := by
  induction hn : t.length using Nat.strongRecOn generalizing t s sb pos with
  | ind n ih =>
    subst hn
    obtain ⟨run, t', s', rfl, rfl, hplain, hutf8, ⟨rfl, rfl⟩ | ⟨e, v, t'', s'', rfl, rfl, hesc, hchars⟩⟩ := h.split
    · rw [parseStringSlow_eq]
      simp only [append_nil]
      rw [plainRun_complete hplain hutf8 (by simp [isPlainByte])]
      simp
    · obtain ⟨c, u, rfl⟩ := hesc.text
      have hstop : ∀ b ∈ (0x5C :: c :: u ++ t'' ++ 0x22 :: rest).head?, isPlainByte b = false := by simp [isPlainByte]
      have htail : parseEscape ⟨pos + run.length + 1, (c :: u) ++ (t'' ++ 0x22 :: rest)⟩ =
          .ok (v, ⟨pos + run.length + 1 + (c :: u).length, t'' ++ 0x22 :: rest⟩) := parseEscape_complete hesc
      rw [parseStringSlow_eq, append_assoc run, plainRun_complete hplain hutf8 hstop]
      simp only [cons_append, append_assoc, advance_cons] at htail ⊢
      rw [if_neg (by decide), if_pos trivial, htail]
      dsimp only
      rw [ih t''.length (by simp; omega) hchars _ rfl]
      simp
      omega

/-! ## Whole strings -/

theorem scanLoop_fast {l : List UInt8} {n : Nat} {nonAscii' : Bool}
    (h : scanLoop scan slow nonAscii l = some (n, false, nonAscii')) :
    slow = false ∧ ∃ t rest, l = t ++ 0x22 :: rest ∧ ∀ c ∈ t, isPlainByte c = true := by
  induction hn : l.length using Nat.strongRecOn generalizing l scan slow nonAscii with
  | ind _ ih =>
    subst hn
    rw [scanLoop.eq_def] at h
    cases l with
    | nil => cases h
    | cons c l =>
      dsimp only at h
      split_ifs at h with hquote hbackslash hcontrol
      · cases h
        subst hquote
        exact ⟨rfl, [], l, rfl, by simp⟩
      · cases l with
        | nil => cases h
        | cons d l => exact absurd (ih l.length (by simp only [length_cons]; omega) h rfl).1 (by decide)
      · exact absurd (ih l.length (by simp) h rfl).1 (by decide)
      · obtain ⟨hslow, t, rest, rfl, hplain⟩ := ih l.length (by simp) h rfl
        refine ⟨hslow, c :: t, rest, rfl, ?_⟩
        intro b hb
        rcases mem_cons.mp hb with rfl | hb
        · exact isPlainByte_iff.mpr ⟨hquote, hbackslash, hcontrol⟩
        · exact hplain b hb

theorem scanBytes_sound {scanned : StringScan} (h : scanned.bytes = .ok (s, ctx'))
    (hscan : scanLoop 0 false false scanned.ctx.rest = some (scanned.len, scanned.needSlow, scanned.hasNonAscii)) :
    ∃ t, CharsText t s ∧ scanned.ctx.Takes (t ++ [0x22]) ctx' := by
  obtain ⟨ctx, len, needSlow, hasNonAscii⟩ := scanned
  dsimp only at hscan
  cases needSlow with
  | true =>
    rw [StringScan.bytes, if_pos rfl] at h
    have hquiet : hasNonAscii = false → Quiet ctx.rest := by
      rintro rfl
      exact ⟨_, _, _, _, hscan⟩
    obtain ⟨t, s', hs, ht, htakes⟩ := parseStringSlow_sound h hquiet
    rw [nil_append] at hs
    exact ⟨t, hs ▸ ht, htakes⟩
  | false =>
    obtain ⟨-, t, rest, hrest, hplain⟩ := scanLoop_fast hscan
    rw [hrest, scanLoop_plain hplain, scanLoop_quote, Nat.zero_add, Bool.false_or] at hscan
    simp only [Option.some.injEq, Prod.mk.injEq, true_and] at hscan
    obtain ⟨rfl, hany⟩ := hscan
    have htake : ctx.rest.take t.length = t := by rw [hrest, take_left]
    have hle : t.length ≤ ctx.rest.length := by simp [hrest]
    have hascii : hasNonAscii = false → ∀ b ∈ ctx.rest.take t.length, ¬b ≥ 0x80 := by
      rintro rfl
      rw [htake]
      simpa using hany
    have hresult : (hasNonAscii = true → stringBytesAreUtf8 ctx t.length = .ok ()) ∧ s = t ∧ ctx' = ctx.advance (t.length + 1) := by
      simp only [StringScan.bytes, htake, bind, Except.bind, pure, Except.pure, Bool.false_eq_true, ↓reduceIte] at h
      split_ifs at h with hcond
      · split at h
        · cases h
        · rename_i hcheck
          cases h
          exact ⟨fun _ => hcheck, rfl, rfl⟩
      · cases h
        exact ⟨fun hna => absurd hna hcond, rfl, rfl⟩
    obtain ⟨hcheck, rfl, rfl⟩ := hresult
    refine ⟨s, charsText_of_utf8 ?_ hplain, ?_⟩
    · rw [← htake]
      exact wellFormedUtf8_of_checked hle hcheck hascii
    · apply takes_advance
      · rw [hrest, take_append, take_of_length_le (Nat.le_succ _)]
        simp
      · simp

theorem parseStringScan_sound {scanned : StringScan} (h : parseStringScan ctx = .ok scanned) :
    ctx.Takes [0x22] scanned.ctx ∧
      scanLoop 0 false false scanned.ctx.rest = some (scanned.len, scanned.needSlow, scanned.hasNonAscii) := by
  rw [parseStringScan] at h
  split_ifs at h with hquote
  dsimp only at h
  split at h
  · cases h
  · rename_i hscan
    cases h
    exact ⟨takes_advance_head hquote, hscan⟩

theorem parseStringRaw_sound (h : parseStringRaw ctx = .ok (s, ctx')) : ∃ t, StringText t s ∧ ctx.Takes t ctx' := by
  simp only [parseStringRaw, bind, Except.bind] at h
  split at h
  · cases h
  · rename_i hscan
    obtain ⟨hquote, hloop⟩ := parseStringScan_sound hscan
    obtain ⟨t, ht, htakes⟩ := scanBytes_sound h hloop
    exact ⟨_, .mk ht, hquote.trans htakes⟩

theorem scanLoop_complete (scan : Nat) (slow nonAscii : Bool) (rest : List UInt8) (h : CharsText t s) :
    ∃ slow' nonAscii', scanLoop scan slow nonAscii (t ++ 0x22 :: rest) = some (scan + t.length, slow', nonAscii') ∧
      (slow' = false → slow = false ∧ t = s ∧ WellFormedUtf8 t) := by
  induction hn : t.length using Nat.strongRecOn generalizing t s scan slow nonAscii with
  | ind _ ih =>
    subst hn
    obtain ⟨run, t', s', rfl, rfl, hplain, hutf8, ⟨rfl, rfl⟩ | ⟨e, v, t'', s'', rfl, rfl, hesc, hchars⟩⟩ := h.split
    · rw [append_nil, scanLoop_plain hplain, scanLoop_quote]
      exact ⟨slow, _, rfl, fun hslow => ⟨hslow, by simp, hutf8⟩⟩
    · obtain ⟨c, u, htext⟩ := hesc.text
      obtain ⟨slow', nonAscii', hscan, hslow⟩ := ih t''.length (by simp [htext]; omega) _ _ _ hchars rfl
      rw [append_assoc, append_assoc, scanLoop_plain hplain, scanLoop_escape hesc, hscan]
      refine ⟨slow', nonAscii', by simp [Nat.add_assoc], fun hfalse => absurd (hslow hfalse).1 (by decide)⟩

theorem parseStringRaw_complete (h : StringText t s) :
    parseStringRaw ⟨pos, t ++ rest⟩ = .ok (s, ⟨pos + t.length, rest⟩) := by
  cases h with
  | @mk t s h =>
    obtain ⟨slow, nonAscii, hscan, hfast⟩ := scanLoop_complete 0 false false rest h
    have hfirst : parseStringScan ⟨pos, 0x22 :: (t ++ [0x22]) ++ rest⟩ =
        .ok ⟨⟨pos + 1, t ++ 0x22 :: rest⟩, t.length, slow, nonAscii⟩ := by
      simp [parseStringScan, hscan]
    simp only [parseStringRaw, hfirst, bind, Except.bind, StringScan.bytes]
    cases slow with
    | true =>
      rw [if_pos rfl, parseStringSlow_complete h]
      simp [Nat.add_assoc, Nat.add_comm 1]
    | false =>
      obtain ⟨-, rfl, hutf8⟩ := hfast rfl
      have hcheck : stringBytesAreUtf8 ⟨pos + 1, t ++ 0x22 :: rest⟩ t.length = .ok () := by
        rw [stringBytesAreUtf8_iff (by simp), take_left]
        exact hutf8
      have hstop : (⟨pos + 1, t ++ 0x22 :: rest⟩ : ParseCtx).advance (t.length + 1) =
          ⟨pos + (0x22 :: (t ++ [0x22])).length, rest⟩ := by
        simp [ParseCtx.advance, drop_append, Nat.add_assoc, Nat.add_comm 1]
      simp only [hcheck, hstop, take_left, pure, Except.pure, Bool.false_eq_true, ↓reduceIte]
      split <;> rfl

/-!
# Scalars are read exactly
-/

open List

variable {strtod : List UInt8 → UInt64} {ctx ctx' : ParseCtx} {t rest : List UInt8} {v : Json} {pos : Nat} {c : UInt8}

theorem parseNull_sound (h : parseNull ctx = .ok (v, ctx')) : ∃ t, ScalarText strtod t v ∧ ctx.Takes t ctx' := by
  rw [parseNull] at h
  split at h
  · rename_i htake
    cases h
    exact ⟨_, .null, takes_advance htake rfl⟩
  · cases h

theorem parseBool_sound (h : parseBool ctx = .ok (v, ctx')) : ∃ t, ScalarText strtod t v ∧ ctx.Takes t ctx' := by
  rw [parseBool] at h
  split_ifs at h with htrue hfalse
  · cases h
    exact ⟨_, .true, takes_advance htrue rfl⟩
  · cases h
    exact ⟨_, .false, takes_advance hfalse rfl⟩

theorem parseString_sound (h : parseString ctx = .ok (v, ctx')) : ∃ t, ScalarText strtod t v ∧ ctx.Takes t ctx' := by
  simp only [parseString, bind, Except.bind, pure, Except.pure] at h
  split at h
  · cases h
  · rename_i hraw
    cases h
    obtain ⟨t, ht, htakes⟩ := parseStringRaw_sound hraw
    exact ⟨t, .string ht, htakes⟩

theorem parseScalarValue_sound (h : parseScalarValue strtod ctx c = .ok (v, ctx')) :
    ∃ t, ScalarText strtod t v ∧ ctx.Takes t ctx' := by
  rw [parseScalarValue] at h
  split_ifs at h
  · exact parseNull_sound h
  · exact parseBool_sound h
  · exact parseString_sound h
  · obtain ⟨t, ht, htakes⟩ := parseNumber_sound h
    exact ⟨t, .number ht, htakes⟩

theorem NumberText.head (h : NumberText strtod t v) : ∃ c t', t = c :: t' ∧ (c = 0x2D ∨ isDigitByte c = true) := by
  have hparts : ∃ neg ds r, t = minus neg ++ ds ++ r ∧ IntPart ds := by
    cases h with
    | @integer neg ds hds _ => exact ⟨neg, ds, [], by simp, hds⟩
    | @float neg ds frac exp hds _ _ _ _ => exact ⟨neg, ds, frac ++ exp, by simp, hds⟩
  obtain ⟨neg, ds, r, rfl, hds⟩ := hparts
  obtain ⟨d, ds', rfl, hd, -⟩ := hds.head
  cases neg with
  | true => exact ⟨0x2D, d :: ds' ++ r, rfl, .inl rfl⟩
  | false => exact ⟨d, ds' ++ r, rfl, .inr (isDigitByte_iff.mpr hd)⟩

theorem scalarText_head (h : ScalarText strtod t v) :
    ∃ c t', t = c :: t' ∧ isWsByte c = false ∧ c ≠ 0x5B ∧ c ≠ 0x7B ∧ c ≠ 0x5D ∧ c ≠ 0x7D ∧ c ≠ 0x2C := by
  cases h with
  | null => exact ⟨_, _, rfl, by decide⟩
  | true => exact ⟨_, _, rfl, by decide⟩
  | false => exact ⟨_, _, rfl, by decide⟩
  | number h =>
    obtain ⟨c, t', rfl, hc⟩ := h.head
    refine ⟨c, t', rfl, ?_⟩
    rcases hc with rfl | hc
    · decide
    · rw [isDigitByte_iff] at hc
      obtain ⟨hlo, hhi⟩ := hc
      simp only [isWsByte, Bool.or_eq_false_iff, decide_eq_false_iff_not, ne_eq, ← UInt8.toNat_inj, UInt8.le_iff_toNat_le,
        UInt8.reduceToNat] at hlo hhi ⊢
      omega
  | string h =>
    cases h
    exact ⟨_, _, rfl, by decide⟩

theorem parseScalarValue_complete (h : ScalarText strtod t v) (hrest : NumberEnd rest) (hc : (t ++ rest).head? = some c) :
    parseScalarValue strtod ⟨pos, t ++ rest⟩ c = .ok (v, ⟨pos + t.length, rest⟩) := by
  cases h with
  | null =>
    cases hc
    rfl
  | true =>
    cases hc
    rfl
  | false =>
    cases hc
    rfl
  | number h =>
    obtain ⟨d, t', rfl, hd⟩ := h.head
    cases hc
    have hne : c ≠ 0x6E ∧ ¬(c = 0x74 ∨ c = 0x66) ∧ c ≠ 0x22 := by
      rcases hd with rfl | hd
      · decide
      · rw [isDigitByte_iff] at hd
        obtain ⟨hlo, hhi⟩ := hd
        simp only [ne_eq, ← UInt8.toNat_inj, UInt8.le_iff_toNat_le, UInt8.reduceToNat] at hlo hhi ⊢
        omega
    rw [parseScalarValue, if_neg hne.1, if_neg hne.2.1, if_neg hne.2.2, if_pos hd, parseNumber_complete h hrest]
  | string h =>
    have hquote : c = 0x22 := by
      cases h
      cases hc
      rfl
    subst hquote
    rw [parseScalarValue, if_neg (by decide), if_neg (by decide), if_pos rfl, parseString]
    simp only [parseStringRaw_complete h, bind, Except.bind, pure, Except.pure]

end Ccollections.Cjson
