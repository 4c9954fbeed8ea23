import Ccollections.Cjson.Lemmas.ParseString
import Ccollections.Cjson.Serializer

/-!
# What the serializer writes for a scalar
-/

namespace Ccollections.Cjson

open List

variable {env : SerializeEnv} {sb sb' sb'' : Sbuf} {t t' s : List UInt8}

/-! ## Appending -/

def Wrote (env : SerializeEnv) (sb : Sbuf) (t : List UInt8) (sb' : Sbuf) : Prop :=
  (sb'.oom = false → sb.oom = false ∧ sb'.bytes = sb.bytes ++ t) ∧
  ((∀ i n, env.room i n = true) → sb.oom = false → sb'.oom = false)

theorem Wrote.refl (sb : Sbuf) : Wrote env sb [] sb := by simp [Wrote]

theorem Wrote.trans (h : Wrote env sb t sb') (h' : Wrote env sb' t' sb'') : Wrote env sb (t ++ t') sb'' := by
  constructor
  · intro hoom
    obtain ⟨hoom', hbytes'⟩ := h'.1 hoom
    obtain ⟨hoom'', hbytes⟩ := h.1 hoom'
    exact ⟨hoom'', by rw [hbytes', hbytes, append_assoc]⟩
  · intro hroom hoom
    exact h'.2 hroom (h.2 hroom hoom)

theorem wrote_sbAppend (sb : Sbuf) (t : List UInt8) : Wrote env sb t (sbAppend env sb t) := by
  rw [sbAppend]
  cases hoom : sb.oom with
  | true => simp [Wrote, hoom]
  | false =>
    cases hroom : env.room sb.requests (sb.bytes.length + t.length + 1) with
    | true => simp [Wrote, hoom]
    | false =>
      have hsome : ¬∀ i n, env.room i n = true := fun h => by simp [h] at hroom
      simp [Wrote, hsome]

theorem wrote_if (c : Prop) [Decidable c] (h : Wrote env sb t sb') :
    Wrote env sb (if c then t else []) (if c then sb' else sb) := by
  split
  · exact h
  · exact .refl sb

theorem wrote_indentLoop (sb : Sbuf) (width : Nat) : Wrote env sb (List.replicate width 0x20) (indentLoop env sb width) := by
  induction width using Nat.strongRecOn generalizing sb with
  | ind width ih =>
    rw [indentLoop]
    by_cases hzero : width = 0
    · rw [if_pos hzero, hzero]
      exact .refl sb
    · rw [if_neg hzero]
      have hsplit : List.replicate width (0x20 : UInt8) =
          List.replicate (min width 128) 0x20 ++ List.replicate (width - min width 128) 0x20 := by
        rw [replicate_append_replicate, Nat.add_sub_cancel' (Nat.min_le_left width 128)]
      rw [hsplit]
      exact (wrote_sbAppend sb _).trans (ih _ (by omega) _)

def indentText (indent : UInt32) (depth : Nat) : List UInt8 :=
  if indent = 0 then [] else 0x0A :: List.replicate (depth * indent.toNat) 0x20

theorem ws_indentText (indent : UInt32) (depth : Nat) : Ws (indentText indent depth) := by
  rw [indentText]
  split
  · simp [Ws]
  · intro c hc
    rcases mem_cons.mp hc with rfl | hc
    · exact .inr (.inr (.inl rfl))
    · exact .inl (eq_of_mem_replicate hc)

theorem indent_fits (indent : UInt32) {depth : Nat} (hdepth : depth ≤ cjsonMaxSerializeDepth) :
    ¬(depth ≠ 0 ∧ indent.toNat > sizeMax / depth) := by
  rintro ⟨hne, hover⟩
  have hmul : sizeMax < indent.toNat * depth := (Nat.div_lt_iff_lt_mul (Nat.pos_of_ne_zero hne)).mp hover
  have hlt : indent.toNat < 2 ^ 32 := indent.toNat_lt
  have hle : indent.toNat * depth ≤ 2 ^ 32 * 500 := Nat.mul_le_mul hlt.le hdepth
  rw [sizeMax_eq] at hmul
  omega

theorem wrote_sbAppendIndent (sb : Sbuf) (indent : UInt32) {depth : Nat} (hdepth : depth ≤ cjsonMaxSerializeDepth) :
    Wrote env sb (indentText indent depth) (sbAppendIndent env sb indent depth) := by
  rw [sbAppendIndent, indentText]
  by_cases hzero : indent = 0
  · rw [if_pos hzero, if_pos hzero]
    exact .refl sb
  · rw [if_neg hzero, if_neg hzero, if_neg (indent_fits indent hdepth)]
    have hsplit : (0x0A :: List.replicate (depth * indent.toNat) 0x20 : List UInt8) =
        (0x0A :: List.replicate (min (depth * indent.toNat) 128) 0x20) ++
          List.replicate (depth * indent.toNat - min (depth * indent.toNat) 128) 0x20 := by
      rw [cons_append, replicate_append_replicate, Nat.add_sub_cancel' (Nat.min_le_left _ 128)]
    rw [hsplit]
    exact (wrote_sbAppend sb _).trans (wrote_indentLoop _ _)

/-! ## Strings -/

def jsonByte (c : UInt8) : List UInt8 := if isRawByte c then [c] else escapeByte c

theorem flatMap_jsonByte_raw (h : ∀ c ∈ t, isRawByte c = true) : t.flatMap jsonByte = t := by
  induction t with
  | nil => rfl
  | cons c t ih =>
    obtain ⟨hc, ht⟩ := forall_mem_cons.mp h
    rw [flatMap_cons, ih ht, jsonByte, if_pos hc]
    rfl

theorem drop_takeWhile (p : UInt8 → Bool) (l : List UInt8) : l.drop (l.takeWhile p).length = l.dropWhile p := by
  calc l.drop (l.takeWhile p).length
      = (l.takeWhile p ++ l.dropWhile p).drop (l.takeWhile p).length := by rw [takeWhile_append_dropWhile]
    _ = l.dropWhile p := drop_left

theorem wrote_run (sb : Sbuf) (p : List UInt8) :
    Wrote env sb ((p.takeWhile fun c => c ≠ 0 && isRawByte c).flatMap jsonByte)
      (if (p.takeWhile fun c => c ≠ 0 && isRawByte c) = [] then sb
       else sbAppend env sb (p.takeWhile fun c => c ≠ 0 && isRawByte c)) := by
  rw [flatMap_jsonByte_raw]
  · split
    · rename_i hnil
      rw [hnil]
      exact .refl sb
    · exact wrote_sbAppend sb _
  · intro d hd
    have hboth := mem_takeWhile_imp hd
    simp only [Bool.and_eq_true] at hboth
    exact hboth.2

theorem wrote_jsonStrLoop (sb : Sbuf) (hnul : 0 ∉ s) : Wrote env sb (s.flatMap jsonByte) (jsonStrLoop env sb s) := by
  induction hn : s.length using Nat.strongRecOn generalizing s sb with
  | ind n ih =>
    rw [jsonStrLoop.eq_def]
    split
    · exact .refl sb
    · exact absurd mem_cons_self hnul
    · rename_i c p hc
      have hsplit := takeWhile_append_dropWhile (p := fun c => c ≠ 0 && isRawByte c) (l := c :: p)
      have hstop := List.head?_dropWhile_not (fun c => c ≠ 0 && isRawByte c) (c :: p)
      have hdrop := drop_takeWhile (fun c => c ≠ 0 && isRawByte c) (c :: p)
      have hflat : (c :: p).flatMap jsonByte = ((c :: p).takeWhile fun c => c ≠ 0 && isRawByte c).flatMap jsonByte ++
          ((c :: p).dropWhile fun c => c ≠ 0 && isRawByte c).flatMap jsonByte := by rw [← flatMap_append, hsplit]
      rw [hflat]
      dsimp only
      split
      · rename_i hrest
        rw [hdrop] at hrest
        rw [hrest, flatMap_nil, append_nil]
        exact wrote_run sb (c :: p)
      · rename_i d rest hrest
        rw [hdrop] at hrest
        rw [hrest] at hsplit hstop
        have hmem : ∀ b ∈ d :: rest, b ∈ c :: p := by
          intro b hb
          rw [← hsplit]
          exact mem_append_right _ hb
        have hd : d ≠ 0 := fun h => hnul (h ▸ hmem d mem_cons_self)
        have hraw : jsonByte d = escapeByte d := by
          have hraw : isRawByte d = false := by simpa [hd] using hstop
          rw [jsonByte, hraw, if_neg (by decide)]
        have hlen := congrArg List.length hsplit
        rw [hrest, flatMap_cons, hraw, if_neg hd]
        have hless : rest.length < n := by
          rw [length_append, length_cons] at hlen
          omega
        have hrec : ∀ sb, Wrote env sb (rest.flatMap jsonByte) (jsonStrLoop env sb rest) := fun sb =>
          ih rest.length hless sb (fun h => hnul (hmem 0 (mem_cons_of_mem d h))) rfl
        exact (wrote_run sb (c :: p)).trans ((wrote_sbAppend _ _).trans (hrec _))

theorem wrote_sbAppendJsonStr (sb : Sbuf) (hnul : 0 ∉ s) :
    Wrote env sb (0x22 :: (s.flatMap jsonByte ++ [0x22])) (sbAppendJsonStr env sb s) :=
  (wrote_sbAppend sb [0x22]).trans ((wrote_jsonStrLoop _ hnul).trans (wrote_sbAppend _ [0x22]))

theorem toNat_add_of_le {a b : UInt8} (h : a.toNat + b.toNat < 256) : (a + b).toNat = a.toNat + b.toNat := by
  rw [UInt8.toNat_add, Nat.mod_eq_of_lt h]

theorem hexDigit_lower {n : UInt8} (h : n.toNat < 16) : HexDigit (lowerHexDigit n) n.toNat := by
  rw [lowerHexDigit]
  by_cases hdigit : n < 10
  · rw [if_pos hdigit]
    rw [UInt8.lt_iff_toNat_lt] at hdigit
    have hsum : (0x30 + n).toNat = 0x30 + n.toNat := toNat_add_of_le (by simp; omega)
    have hvalue : n.toNat = (0x30 + n).toNat - 0x30 := by omega
    rw [hvalue]
    apply HexDigit.digit
    simp only [UInt8.le_iff_toNat_le, hsum, UInt8.reduceToNat] at hdigit ⊢
    omega
  · rw [if_neg hdigit]
    simp only [UInt8.lt_iff_toNat_lt, UInt8.reduceToNat] at hdigit
    have hle : (10 : UInt8) ≤ n := by
      simp only [UInt8.le_iff_toNat_le, UInt8.reduceToNat]
      omega
    have hsub : (n - 10).toNat = n.toNat - 10 := UInt8.toNat_sub_of_le n 10 hle
    have hsum : (0x61 + (n - 10)).toNat = 0x61 + (n.toNat - 10) := by
      rw [toNat_add_of_le (by simp [hsub]; omega), hsub]
      rfl
    have hvalue : n.toNat = (0x61 + (n - 10)).toNat - 0x61 + 10 := by omega
    rw [hvalue]
    apply HexDigit.lower
    simp only [UInt8.le_iff_toNat_le, hsum, UInt8.reduceToNat]
    omega

theorem escapeText_escapeByte {c : Char} {b : UInt8} (hb : String.utf8EncodeChar c = [b]) (hval : c.val.toNat = b.toNat) (hnul : b ≠ 0)
    (hraw : isRawByte b = false) : EscapeText (escapeByte b) [b] := by
  rw [escapeByte]
  split_ifs with h1 h2 h3 h4 h5 h6 h7
  · exact .short (by subst h1; decide)
  · exact .short (by subst h2; decide)
  · exact .short (by subst h3; decide)
  · exact .short (by subst h4; decide)
  · exact .short (by subst h5; decide)
  · exact .short (by subst h6; decide)
  · exact .short (by subst h7; decide)
  · have hcontrol : b.toNat < 32 := by simpa [isRawByte, h1, h2, UInt8.lt_iff_toNat_lt] using hraw
    have hvalue : c.val.toNat = ((0 * 16 + 0) * 16 + (b / 16).toNat) * 16 + (b % 16).toNat := by
      simp only [UInt8.toNat_div, UInt8.toNat_mod, UInt8.reduceToNat]
      omega
    have hzero : HexDigit 0x30 0 := .digit (by decide)
    rw [← hb]
    apply EscapeText.unicode
    · rw [hvalue]
      refine .mk hzero hzero (hexDigit_lower ?_) (hexDigit_lower ?_)
      · simp only [UInt8.toNat_div, UInt8.reduceToNat]
        omega
      · simp only [UInt8.toNat_mod, UInt8.reduceToNat]
        omega
    · rw [hval]
      exact fun h => hnul (UInt8.toNat_inj.mp h)

theorem stringText_jsonBytes (hutf8 : WellFormedUtf8 s) (hnul : 0 ∉ s) :
    StringText (0x22 :: (s.flatMap jsonByte ++ [0x22])) s := by
  obtain ⟨cs, rfl⟩ := hutf8
  apply StringText.mk
  induction cs with
  | nil => exact .nil
  | cons c cs ih =>
    rw [flatMap_cons] at hnul ⊢
    rw [flatMap_append]
    refine .cons ?_ (ih fun h => hnul (mem_append_right _ h))
    by_cases hplain : ∀ b ∈ String.utf8EncodeChar c, isPlainByte b = true
    · rw [flatMap_jsonByte_raw hplain]
      obtain ⟨hcontrol, hquote, hbackslash⟩ := (encode_plain_iff c).mp hplain
      exact .unescaped hcontrol hquote hbackslash
    · -- A character with a byte that is not raw is a single ASCII byte.
      have hascii : c.val.toNat ≤ 127 := by
        have := mt (encode_plain_iff c).mpr hplain
        omega
      have henc : String.utf8EncodeChar c = [UInt8.ofNat c.val.toNat] := by simp only [String.utf8EncodeChar, if_pos hascii]
      have hbyte : (UInt8.ofNat c.val.toNat).toNat = c.val.toNat := toNat_ofNat_of_lt (by omega)
      rw [henc] at hnul hplain ⊢
      rw [forall_mem_singleton, Bool.not_eq_true] at hplain
      have hraw : isRawByte (UInt8.ofNat c.val.toNat) = false := hplain
      have hne : UInt8.ofNat c.val.toNat ≠ 0 := fun h => hnul (h ▸ mem_cons_self)
      rw [flatMap_singleton, jsonByte, hraw, if_neg (by decide)]
      exact .escaped (escapeText_escapeByte henc hbyte.symm hne hraw)

/-! ## Integers -/

theorem digit_toNat {u : UInt64} : (0x30 + (u % 10).toUInt8).toNat = 0x30 + u.toNat % 10 := by
  have hlt : u.toNat % 10 < 10 := Nat.mod_lt _ (by decide)
  have hmod : (u % 10).toUInt8.toNat = u.toNat % 10 := by
    rw [UInt64.toNat_toUInt8, UInt64.toNat_mod]
    simp only [UInt64.reduceToNat]
    omega
  rw [toNat_add_of_le (by rw [hmod]; simp only [UInt8.reduceToNat]; omega), hmod]
  rfl

theorem decimalValue_snoc (ds : List UInt8) (d : UInt8) :
    decimalValue (ds ++ [d]) = decimalValue ds * 10 + (d.toNat - 0x30) := by
  simp [decimalValue]

theorem lltoaLoop_eq (u : UInt64) :
    (lltoaLoop u).reverse = if u / 10 = 0 then [0x30 + (u % 10).toUInt8] else (lltoaLoop (u / 10)).reverse ++ [0x30 + (u % 10).toUInt8] := by
  rw [lltoaLoop]
  split <;> simp_all

theorem lltoaLoop_value (u : UInt64) : decimalValue (lltoaLoop u).reverse = u.toNat := by
  induction hn : u.toNat using Nat.strongRecOn generalizing u with
  | ind n ih =>
    have hdigit : (0x30 + (u % 10).toUInt8).toNat = 0x30 + u.toNat % 10 := digit_toNat
    have hdiv : (u / 10).toNat = u.toNat / 10 := by
      rw [UInt64.toNat_div]
      rfl
    rw [lltoaLoop_eq]
    split
    · rename_i hzero
      rw [← UInt64.toNat_inj, hdiv] at hzero
      simp only [UInt64.reduceToNat] at hzero
      simp only [decimalValue, foldl_cons, foldl_nil, hdigit]
      omega
    · rename_i hzero
      rw [← UInt64.toNat_inj, hdiv] at hzero
      simp only [UInt64.reduceToNat] at hzero
      rw [decimalValue_snoc, ih (u / 10).toNat (by omega) (u / 10) rfl, hdigit, hdiv]
      omega

theorem digit_digit {u : UInt64} : Digit (0x30 + (u % 10).toUInt8) := by
  have hlt : u.toNat % 10 < 10 := Nat.mod_lt _ (by decide)
  simp only [Digit, UInt8.le_iff_toNat_le, digit_toNat, UInt8.reduceToNat]
  omega

theorem lltoaLoop_head (u : UInt64) (hne : u ≠ 0) :
    ∃ d ds, (lltoaLoop u).reverse = d :: ds ∧ (0x31 ≤ d ∧ d ≤ 0x39) ∧ ∀ c ∈ ds, Digit c := by
  induction hn : u.toNat using Nat.strongRecOn generalizing u with
  | ind n ih =>
    have hpos : u.toNat ≠ 0 := fun h => hne (UInt64.toNat_inj.mp h)
    have hdiv : (u / 10).toNat = u.toNat / 10 := by
      rw [UInt64.toNat_div]
      rfl
    rw [lltoaLoop_eq]
    split
    · rename_i hzero
      rw [← UInt64.toNat_inj, hdiv] at hzero
      refine ⟨_, [], rfl, ?_, by simp⟩
      simp only [UInt8.le_iff_toNat_le, digit_toNat, UInt8.reduceToNat, UInt64.reduceToNat] at hzero ⊢
      omega
    · rename_i hzero
      obtain ⟨d, ds, heq, hd, hds⟩ := ih (u / 10).toNat (by omega) (u / 10) hzero rfl
      refine ⟨d, ds ++ [0x30 + (u % 10).toUInt8], by rw [heq]; rfl, hd, ?_⟩
      intro c hc
      rcases mem_append.mp hc with hc | hc
      · exact hds c hc
      · rw [mem_singleton.mp hc]
        exact digit_digit

theorem intPart_lltoaLoop (u : UInt64) : IntPart (lltoaLoop u).reverse := by
  by_cases hzero : u = 0
  · rw [hzero, lltoaLoop_eq, if_pos (by decide)]
    exact .zero
  · obtain ⟨d, ds, heq, hd, hds⟩ := lltoaLoop_head u hzero
    rw [heq]
    exact .digits hd hds

theorem int64_toInt (v : Int64) : v.toInt = if 2 * v.toUInt64.toNat < 2 ^ 64 then (v.toUInt64.toNat : Int) else v.toUInt64.toNat - 2 ^ 64 :=
  BitVec.toInt_eq_toNat_cond v.toBitVec

theorem numberText_signed (strtod : List UInt8 → UInt64) {neg : Bool} {u : UInt64} {v : Int64}
    (h : signed neg u.toNat = v.toInt) : NumberText strtod (minus neg ++ (lltoaLoop u).reverse) (.integer v) := by
  have hvalue : signed neg (decimalValue (lltoaLoop u).reverse) = v.toInt := by rw [lltoaLoop_value, h]
  have hfits : FitsInt64 (signed neg (decimalValue (lltoaLoop u).reverse)) := by
    rw [hvalue]
    exact ⟨v.le_toInt, v.toInt_lt⟩
  have hnumber : NumberText strtod _ _ := .integer (intPart_lltoaLoop u) hfits
  rwa [hvalue, Int64.ofInt_toInt] at hnumber

theorem numberText_lltoa (strtod : List UInt8 → UInt64) (v : Int64) : NumberText strtod (lltoa v) (.integer v) := by
  have hval := int64_toInt v
  have hlt := v.toUInt64.toNat_lt
  rw [lltoa]
  by_cases hneg : v < 0
  · have habs : (-(v + 1)).toUInt64 + 1 = 0 - v.toUInt64 := by
      rw [Int64.toUInt64_neg, Int64.toUInt64_add, Int64.toUInt64_ofNat]
      grind
    have hnat : (0 - v.toUInt64).toNat = (2 ^ 64 - v.toUInt64.toNat) % 2 ^ 64 := by
      rw [UInt64.toNat_sub]
      simp
    have hsigned : signed true (0 - v.toUInt64).toNat = v.toInt := by
      rw [Int64.lt_iff_toInt_lt, Int64.toInt_zero] at hneg
      rw [hnat, signed, if_pos rfl]
      split_ifs at hval <;> omega
    simp only [hneg, ↓reduceIte, reverse_append, reverse_singleton, habs]
    exact numberText_signed strtod hsigned
  · have hsigned : signed false v.toUInt64.toNat = v.toInt := by
      rw [Int64.lt_iff_toInt_lt, Int64.toInt_zero] at hneg
      rw [signed, if_neg (by decide)]
      split_ifs at hval <;> omega
    simp only [hneg, ↓reduceIte]
    exact numberText_signed strtod hsigned

/-! ## Doubles -/

def DecimalText (t : List UInt8) : Prop :=
  t.length ≤ 24 ∧ ∃ neg ds frac exp, t = minus neg ++ ds ++ frac ++ exp ∧ IntPart ds ∧ FracPart frac ∧ ExpPart exp

/-- `%.*g` writes a decimal number, `strtod` reads back the double, and `.0` after a whole number changes nothing. -/
structure LibcReadsBack (env : SerializeEnv) (d : UInt64) : Prop where
  decimal : ∀ prec, 1 ≤ prec → prec ≤ 17 → DecimalText (env.formatG prec d)
  readsBack : env.strtod (cjsonFormatShortestC env 32 d) = d
  wholeNumber : 0x2E ∉ cjsonFormatShortestC env 32 d → 0x65 ∉ cjsonFormatShortestC env 32 d →
    0x45 ∉ cjsonFormatShortestC env 32 d →
    env.strtod (cjsonFormatShortestC env 32 d ++ [0x2E, 0x30]) = env.strtod (cjsonFormatShortestC env 32 d)

theorem isInf_of_isFinite {d : UInt64} (h : isFinite d = true) : isInf d = false := by
  simp only [isFinite, isInf, ne_eq, decide_eq_true_eq, decide_eq_false_iff_not] at h ⊢
  intro hinf
  apply h
  have hmask : (0x7FF0000000000000 : UInt64) = 0x7FFFFFFFFFFFFFFF &&& 0x7FF0000000000000 := by decide
  calc d &&& 0x7FF0000000000000 = d &&& 0x7FFFFFFFFFFFFFFF &&& 0x7FF0000000000000 := by rw [UInt64.and_assoc, ← hmask]
    _ = 0x7FF0000000000000 := by rw [hinf]; decide

theorem decimalText_shortestLoop {d : UInt64} {prec : Nat} (h : ∀ prec, 1 ≤ prec → prec ≤ 17 → DecimalText (env.formatG prec d))
    (hpos : 1 ≤ prec) : DecimalText (shortestLoop env 32 prec d) := by
  have htake : ∀ prec, 1 ≤ prec → prec ≤ 17 → DecimalText (snprintfG env 32 prec d) := by
    intro prec hlo hhi
    have hformat := h prec hlo hhi
    rwa [snprintfG, take_of_length_le (Nat.le_trans hformat.1 (by decide))]
  induction hn : 17 - prec generalizing prec with
  | zero =>
    rw [shortestLoop, if_neg (by omega)]
    exact htake 17 (by decide) (by decide)
  | succ n ih =>
    rw [shortestLoop, if_pos (by omega)]
    split
    · exact htake prec hpos (by omega)
    · exact ih (by omega) (by omega)

theorem digits_no_mark {ds : List UInt8} {c : UInt8} (hds : ∀ x ∈ ds, Digit x) (hc : c = 0x2E ∨ c = 0x65 ∨ c = 0x45) : c ∉ ds := by
  intro hmem
  obtain ⟨hlo, hhi⟩ := hds c hmem
  rcases hc with rfl | rfl | rfl
  · exact absurd hlo (by decide)
  · exact absurd hhi (by decide)
  · exact absurd hhi (by decide)

theorem no_mark {neg : Bool} {ds : List UInt8} {c : UInt8} (hds : IntPart ds) (hc : c = 0x2E ∨ c = 0x65 ∨ c = 0x45) :
    c ∉ minus neg ++ ds := by
  obtain ⟨e, ds', rfl, he, hds'⟩ := hds.head
  have hdigits : c ∉ e :: ds' := digits_no_mark (forall_mem_cons.mpr ⟨he, hds'⟩) hc
  have hminus : c ∉ minus neg := by
    rcases hc with rfl | rfl | rfl <;> cases neg <;> decide
  rw [mem_append]
  exact fun h => h.elim hminus hdigits

theorem has_mark (neg : Bool) (ds : List UInt8) {frac exp : List UInt8} (hfrac : FracPart frac) (hexp : ExpPart exp)
    (hne : frac ≠ [] ∨ exp ≠ []) :
    ∃ c ∈ minus neg ++ ds ++ frac ++ exp, c = 0x2E ∨ c = 0x65 ∨ c = 0x45 := by
  cases hfrac with
  | some hds => exact ⟨0x2E, by simp, .inl rfl⟩
  | none =>
    cases hexp with
    | none => simp at hne
    | some he hsign hds => exact ⟨_, by simp, .inr he⟩

theorem numberText_formatDouble {d : UInt64} (hfinite : isFinite d = true) (h : LibcReadsBack env d) :
    NumberText env.strtod (formatDouble env 32 d) (.float d) := by
  have hinf := isInf_of_isFinite hfinite
  have hstart : 1 ≤ if isSubnormal d then 1 else 15 := by split <;> decide
  obtain ⟨hlen, neg, ds, frac, exp, htext, hds, hfrac, hexp⟩ := decimalText_shortestLoop h.decimal hstart
  change cjsonFormatShortestC env 32 d = _ at htext
  change (cjsonFormatShortestC env 32 d).length ≤ 24 at hlen
  have hreads := h.readsBack
  have hwhole := h.wholeNumber
  simp only [formatDouble, hfinite, Bool.not_true, Bool.false_eq_true, ↓reduceIte]
  by_cases hne : frac ≠ [] ∨ exp ≠ []
  · obtain ⟨c, hmem, hc⟩ := has_mark neg ds hfrac hexp hne
    have hmark : ¬(0x2E ∉ cjsonFormatShortestC env 32 d ∧ 0x65 ∉ cjsonFormatShortestC env 32 d ∧
        0x45 ∉ cjsonFormatShortestC env 32 d) := by
      rw [← htext] at hmem
      rcases hc with rfl | rfl | rfl <;> simp [hmem]
    rw [if_neg hmark]
    rw [htext] at hreads ⊢
    have hnumber : NumberText env.strtod _ _ := .float hds hfrac hexp (by rw [← or_assoc]; exact .inl hne) (by rw [hreads]; exact hinf)
    rwa [hreads] at hnumber
  · obtain ⟨rfl, rfl⟩ : frac = [] ∧ exp = [] := by simpa using hne
    rw [append_nil, append_nil] at htext
    rw [htext] at hlen hreads hwhole ⊢
    have hdot : 0x2E ∉ minus neg ++ ds := no_mark hds (.inl rfl)
    have he : 0x65 ∉ minus neg ++ ds := no_mark hds (.inr (.inl rfl))
    have hE : 0x45 ∉ minus neg ++ ds := no_mark hds (.inr (.inr rfl))
    rw [if_pos ⟨hdot, he, hE⟩, if_pos (by omega)]
    have hstrtod : env.strtod (minus neg ++ ds ++ [0x2E, 0x30] ++ []) = d := by
      rw [append_nil, hwhole hdot he hE, hreads]
    have hzero : FracPart [0x2E, 0x30] := .some ⟨by decide, by simp [Digit]⟩
    have hnumber : NumberText env.strtod _ _ := .float hds hzero .none (.inl (by decide)) (by rw [hstrtod]; exact hinf)
    rwa [hstrtod, append_nil] at hnumber

end Ccollections.Cjson
