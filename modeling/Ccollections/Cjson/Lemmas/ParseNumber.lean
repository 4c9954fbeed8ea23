import Ccollections.Cjson.ParseScalar
import Mathlib.Data.List.TakeWhile

/-!
# What the parser takes off the input: white space and numbers
-/

namespace Ccollections.Cjson

open List

variable {strtod : List UInt8 → UInt64} {ctx ctx' ctx'' : ParseCtx} {t t' rest : List UInt8} {p : UInt8 → Bool} {pos : Nat}

def ParseCtx.Takes (ctx : ParseCtx) (t : List UInt8) (ctx' : ParseCtx) : Prop :=
  ctx.rest = t ++ ctx'.rest ∧ ctx'.pos = ctx.pos + t.length

theorem ParseCtx.Takes.refl : ctx.Takes [] ctx := ⟨rfl, rfl⟩

theorem ParseCtx.Takes.trans (h : ctx.Takes t ctx') (h' : ctx'.Takes t' ctx'') : ctx.Takes (t ++ t') ctx'' := by
  constructor
  · rw [h.1, h'.1, append_assoc]
  · rw [h'.2, h.2, length_append, Nat.add_assoc]

theorem ParseCtx.Takes.take_eq (h : ctx.Takes t ctx') : ctx.rest.take (ctx'.pos - ctx.pos) = t := by
  rw [h.2, h.1, Nat.add_sub_cancel_left, take_left]

@[simp] theorem advance_append : (⟨pos, t ++ rest⟩ : ParseCtx).advance t.length = ⟨pos + t.length, rest⟩ := by
  simp [ParseCtx.advance]

@[simp] theorem advance_cons {c : UInt8} : (⟨pos, c :: rest⟩ : ParseCtx).advance 1 = ⟨pos + 1, rest⟩ := rfl

theorem takes_advance {n : Nat} (h : ctx.rest.take n = t) (hlen : t.length = n) : ctx.Takes t (ctx.advance n) := by
  constructor
  · rw [← h]
    exact (take_append_drop n ctx.rest).symm
  · rw [hlen]
    rfl

theorem takes_advance_head {c : UInt8} (h : ctx.rest.head? = some c) : ctx.Takes [c] (ctx.advance 1) := by
  apply takes_advance _ rfl
  cases hrest : ctx.rest with
  | nil => simp [hrest] at h
  | cons d rest =>
    rw [hrest, List.head?_cons, Option.some.injEq] at h
    simp [h]

/-! ## Runs of bytes -/

theorem advanceWhile_rest : (ctx.advanceWhile p).rest = ctx.rest.dropWhile p := by
  calc (ctx.advanceWhile p).rest
      = (ctx.rest.takeWhile p ++ ctx.rest.dropWhile p).drop (ctx.rest.takeWhile p).length := by
        rw [takeWhile_append_dropWhile]
        rfl
    _ = ctx.rest.dropWhile p := drop_left

theorem advanceWhile_takes : ctx.Takes (ctx.rest.takeWhile p) (ctx.advanceWhile p) := by
  refine ⟨?_, rfl⟩
  rw [advanceWhile_rest, takeWhile_append_dropWhile]

theorem advanceWhile_append (ht : ∀ c ∈ t, p c = true) (hstop : ∀ c ∈ rest.head?, p c = false) :
    (⟨pos, t ++ rest⟩ : ParseCtx).advanceWhile p = ⟨pos + t.length, rest⟩ := by
  have hrun : (t ++ rest).takeWhile p = t := by
    rw [takeWhile_append_of_pos ht]
    cases rest with
    | nil => simp
    | cons c rest => simp [hstop c (by simp)]
  rw [ParseCtx.advanceWhile, hrun, advance_append]

theorem isWsByte_iff {c : UInt8} : isWsByte c = true ↔ c = 0x20 ∨ c = 0x09 ∨ c = 0x0A ∨ c = 0x0D := by
  simp [isWsByte, or_assoc]

theorem skipWs_takes (ctx : ParseCtx) : ∃ w, Ws w ∧ ctx.Takes w (skipWs ctx) := by
  refine ⟨_, ?_, advanceWhile_takes⟩
  intro c hc
  exact isWsByte_iff.mp (mem_takeWhile_imp hc)

def NoWs (rest : List UInt8) : Prop := ∀ c ∈ rest.head?, isWsByte c = false

theorem skipWs_append (ht : Ws t) (hrest : NoWs rest) : skipWs ⟨pos, t ++ rest⟩ = ⟨pos + t.length, rest⟩ :=
  advanceWhile_append (fun c hc => isWsByte_iff.mpr (ht c hc)) hrest

/-! ## The parts of a number -/

theorem isDigitByte_iff {c : UInt8} : isDigitByte c = true ↔ Digit c := by
  simp [isDigitByte, Digit]

theorem skipDigits_takes (h : ctx.atDigit = true) : ∃ ds, Digits ds ∧ ctx.Takes ds (skipDigits ctx) := by
  refine ⟨_, ⟨?_, ?_⟩, advanceWhile_takes⟩
  · cases hrest : ctx.rest with
    | nil => simp [ParseCtx.atDigit, hrest] at h
    | cons c rest =>
      simp only [ParseCtx.atDigit, hrest, List.head?_cons, Option.any_some] at h
      simp [h]
  · intro c hc
    exact isDigitByte_iff.mp (mem_takeWhile_imp hc)

def NoDigit (rest : List UInt8) : Prop := ∀ c ∈ rest.head?, isDigitByte c = false

theorem skipDigits_append (ht : ∀ c ∈ t, Digit c) (hrest : NoDigit rest) :
    skipDigits ⟨pos, t ++ rest⟩ = ⟨pos + t.length, rest⟩ :=
  advanceWhile_append (fun c hc => isDigitByte_iff.mpr (ht c hc)) hrest

theorem scanMinus_takes (ctx : ParseCtx) : ∃ neg, ctx.Takes (minus neg) (scanMinus ctx) := by
  rw [scanMinus]
  split
  · exact ⟨true, takes_advance_head (by assumption)⟩
  · exact ⟨false, .refl⟩

theorem scanInt_sound {start : Nat} (h : scanInt start ctx = .ok ctx') : ∃ ds, IntPart ds ∧ ctx.Takes ds ctx' := by
  rw [scanInt] at h
  split at h
  · cases h
  · rename_i c rest hrest
    split_ifs at h with hzero hdigit hlead
    · cases h
      subst hzero
      exact ⟨_, .zero, takes_advance_head (by simp [hrest])⟩
    · cases h
      obtain ⟨hlo, hhi⟩ := hlead
      have hc : isDigitByte c = true := by
        rw [isDigitByte_iff]
        exact ⟨UInt8.le_trans (b := 0x31) (by decide) hlo, hhi⟩
      refine ⟨c :: rest.takeWhile isDigitByte, .digits ⟨hlo, hhi⟩ ?_, ?_⟩
      · intro d hd
        exact isDigitByte_iff.mp (mem_takeWhile_imp hd)
      · have htakes : ctx.Takes (ctx.rest.takeWhile isDigitByte) (skipDigits ctx) := advanceWhile_takes
        rwa [hrest, takeWhile_cons_of_pos hc] at htakes

theorem scanFrac_sound {b : Bool} (h : scanFrac ctx = .ok (b, ctx')) :
    ∃ frac, FracPart frac ∧ ctx.Takes frac ctx' ∧ (b = true ↔ frac ≠ []) := by
  rw [scanFrac] at h
  dsimp only at h
  split_ifs at h with hdot hdigit
  · cases h
    obtain ⟨ds, hds, htakes⟩ := skipDigits_takes hdigit
    exact ⟨_, .some hds, (takes_advance_head hdot).trans htakes, by simp⟩
  · cases h
    exact ⟨[], .none, .refl, by simp⟩

theorem scanSign_takes (ctx : ParseCtx) :
    ∃ sign : List UInt8, (sign = [] ∨ sign = [0x2B] ∨ sign = [0x2D]) ∧ ctx.Takes sign (scanSign ctx) := by
  rw [scanSign]
  split
  · rename_i hsign
    rcases hsign with hsign | hsign
    · exact ⟨_, .inr (.inl rfl), takes_advance_head hsign⟩
    · exact ⟨_, .inr (.inr rfl), takes_advance_head hsign⟩
  · exact ⟨[], .inl rfl, .refl⟩

theorem scanExp_sound {b : Bool} (h : scanExp ctx = .ok (b, ctx')) :
    ∃ exp, ExpPart exp ∧ ctx.Takes exp ctx' ∧ (b = true ↔ exp ≠ []) := by
  rw [scanExp] at h
  dsimp only at h
  split_ifs at h with hexp hdigit
  · cases h
    obtain ⟨e, he, hhead⟩ : ∃ e : UInt8, (e = 0x65 ∨ e = 0x45) ∧ ctx.rest.head? = some e := by
      rcases hexp with hexp | hexp
      · exact ⟨_, .inl rfl, hexp⟩
      · exact ⟨_, .inr rfl, hexp⟩
    obtain ⟨sign, hsign, hsigned⟩ := scanSign_takes (ctx.advance 1)
    obtain ⟨ds, hds, htakes⟩ := skipDigits_takes hdigit
    exact ⟨_, .some he hsign hds, (takes_advance_head hhead).trans (hsigned.trans htakes), by simp⟩
  · cases h
    exact ⟨[], .none, .refl, by simp⟩

/-! ## The value of a number -/

variable {neg : Bool} {ds frac exp : List UInt8} {v : Json} {start : Nat}

theorem IntPart.head (h : IntPart ds) : ∃ d ds', ds = d :: ds' ∧ Digit d ∧ ∀ c ∈ ds', Digit c := by
  cases h with
  | zero => exact ⟨_, [], rfl, ⟨by decide, by decide⟩, by simp⟩
  | digits hd hds => exact ⟨_, _, rfl, ⟨UInt8.le_trans (b := 0x31) (by decide) hd.1, hd.2⟩, hds⟩

theorem Digit.not_space {d : UInt8} (h : Digit d) : isSpace d = false := by
  obtain ⟨hlo, -⟩ := h
  simp only [isSpace, Bool.or_eq_false_iff, decide_eq_false_iff_not, Bool.and_eq_false_iff, ge_iff_le, UInt8.le_iff_toNat_le,
    ← UInt8.toNat_inj] at hlo ⊢
  simp only [UInt8.reduceToNat] at hlo ⊢
  omega

theorem Digit.ne_sign {d : UInt8} (h : Digit d) : d ≠ 0x2D ∧ d ≠ 0x2B := by
  constructor
  · rintro rfl
    exact absurd h.1 (by decide)
  · rintro rfl
    exact absurd h.1 (by decide)

theorem FitsInt64.iff_bounds {i : Int} : FitsInt64 i ↔ ¬i > llongMax ∧ ¬i < llongMin := by
  unfold FitsInt64 llongMax llongMin
  omega

theorem strtoll_number (h : IntPart ds) :
    (FitsInt64 (signed neg (decimalValue ds)) → strtoll (minus neg ++ ds) = (signed neg (decimalValue ds), [], false)) ∧
    (¬FitsInt64 (signed neg (decimalValue ds)) → (strtoll (minus neg ++ ds)).2 = ([], true)) := by
  obtain ⟨d, ds', rfl, hd, hds⟩ := h.head
  have hdigits : (d :: ds').takeWhile isDigitByte = d :: ds' := by
    rw [takeWhile_eq_self_iff]
    intro c hc
    rw [isDigitByte_iff]
    rcases mem_cons.mp hc with rfl | hc
    · exact hd
    · exact hds c hc
  have hend : (d :: ds').dropWhile isDigitByte = [] := by
    have happend := takeWhile_append_dropWhile (p := isDigitByte) (l := d :: ds')
    rwa [hdigits, append_right_eq_self] at happend
  -- Behind the white space and the sign stand the digits.
  have hstrtoll : strtoll (minus neg ++ d :: ds') =
      if signed neg (decimalValue (d :: ds')) > llongMax then (llongMax, [], true)
      else if signed neg (decimalValue (d :: ds')) < llongMin then (llongMin, [], true)
      else (signed neg (decimalValue (d :: ds')), [], false) := by
    cases neg with
    | false =>
      have hspace : (d :: ds').dropWhile isSpace = d :: ds' := by simp [hd.not_space]
      simp [strtoll, minus, hspace, hdigits, hend, hd.ne_sign]
    | true =>
      have hspace : (0x2D :: d :: ds').dropWhile isSpace = 0x2D :: d :: ds' := by simp [isSpace]
      simp [strtoll, minus, hspace, hdigits, hend]
  rw [hstrtoll, FitsInt64.iff_bounds]
  constructor
  · rintro ⟨hmax, hmin⟩
    rw [if_neg hmax, if_neg hmin]
  · intro hnot
    split
    · rfl
    · split
      · rfl
      · rename_i hmax hmin
        exact absurd ⟨hmax, hmin⟩ hnot

theorem numberNode_sound {isFloat : Bool} (hds : IntPart ds) (hfrac : FracPart frac) (hexp : ExpPart exp)
    (hfloat : isFloat = true ↔ frac ≠ [] ∨ exp ≠ [])
    (h : numberNode strtod start (minus neg ++ ds ++ frac ++ exp) isFloat = .ok v) :
    NumberText strtod (minus neg ++ ds ++ frac ++ exp) v := by
  have hfloatNode : (frac ≠ [] ∨ exp ≠ [] ∨ ¬FitsInt64 (signed neg (decimalValue ds))) →
      (if isInf (strtod (minus neg ++ ds ++ frac ++ exp)) then Except.error (ParseError.numberOutOfRange start)
        else Except.ok (Json.float (strtod (minus neg ++ ds ++ frac ++ exp)))) = .ok v →
      NumberText strtod (minus neg ++ ds ++ frac ++ exp) v := by
    intro hnot hnode
    split at hnode
    · cases hnode
    · rename_i hinf
      cases hnode
      exact .float hds hfrac hexp hnot (Bool.not_eq_true _ ▸ hinf)
  simp only [numberNode] at h
  cases isFloat with
  | true =>
    rcases hfloat.mp rfl with hne | hne
    · exact hfloatNode (.inl hne) h
    · exact hfloatNode (.inr (.inl hne)) h
  | false =>
    have hnone : frac = [] ∧ exp = [] := by simpa using hfloat
    obtain ⟨rfl, rfl⟩ := hnone
    simp only [append_nil] at h hfloatNode ⊢
    by_cases hfits : FitsInt64 (signed neg (decimalValue ds))
    · rw [(strtoll_number hds).1 hfits] at h
      cases h
      exact .integer hds hfits
    · have herange := (strtoll_number hds).2 hfits
      rw [Prod.ext_iff] at herange
      simp only [herange.1, herange.2, Bool.false_eq_true, ↓reduceIte] at h
      exact hfloatNode (.inr (.inr hfits)) h

theorem parseNumber_sound (h : parseNumber strtod ctx = .ok (v, ctx')) : ∃ t, NumberText strtod t v ∧ ctx.Takes t ctx' := by
  simp only [parseNumber, bind, Except.bind, pure, Except.pure] at h
  obtain ⟨neg, hneg⟩ := scanMinus_takes ctx
  cases hint : scanInt ctx.pos (scanMinus ctx) with
  | error e => simp [hint] at h
  | ok ctx₁ =>
    obtain ⟨ds, hds, hds'⟩ := scanInt_sound hint
    simp only [hint] at h
    cases hfrac : scanFrac ctx₁ with
    | error e => simp [hfrac] at h
    | ok r =>
      obtain ⟨b, ctx₂⟩ := r
      obtain ⟨frac, hfrac', hfracTakes, hb⟩ := scanFrac_sound hfrac
      simp only [hfrac] at h
      cases hexp : scanExp ctx₂ with
      | error e => simp [hexp] at h
      | ok r =>
        obtain ⟨b', ctx₃⟩ := r
        obtain ⟨exp, hexp', hexpTakes, hb'⟩ := scanExp_sound hexp
        have htakes : ctx.Takes (minus neg ++ ds ++ frac ++ exp) ctx₃ :=
          ((hneg.trans hds').trans hfracTakes).trans hexpTakes
        simp only [hexp, htakes.take_eq] at h
        split at h
        · cases h
        · rename_i hnode
          cases h
          exact ⟨_, numberNode_sound hds hfrac' hexp' (by rw [Bool.or_eq_true, hb, hb']) hnode, htakes⟩

/-! ## Every number is read -/

theorem scanMinus_append {d : UInt8} (hd : Digit d) :
    scanMinus ⟨pos, minus neg ++ d :: rest⟩ = ⟨pos + (minus neg).length, d :: rest⟩ := by
  cases neg with
  | false => simp [scanMinus, minus, hd.ne_sign]
  | true => simp [scanMinus, minus]

theorem scanInt_append (h : IntPart ds) (hrest : NoDigit rest) :
    scanInt start ⟨pos, ds ++ rest⟩ = .ok ⟨pos + ds.length, rest⟩ := by
  cases h with
  | zero =>
    have hstop : (⟨pos + 1, rest⟩ : ParseCtx).atDigit = false := by
      cases rest with
      | nil => rfl
      | cons c rest => exact hrest c rfl
    simp [scanInt, hstop]
  | @digits d ds hd hds =>
    have hne : d ≠ 0x30 := by
      rintro rfl
      exact absurd hd.1 (by decide)
    have hall : ∀ c ∈ d :: ds, Digit c := by
      intro c hc
      rcases mem_cons.mp hc with rfl | hc
      · exact ⟨UInt8.le_trans (b := 0x31) (by decide) hd.1, hd.2⟩
      · exact hds c hc
    have hskip : skipDigits ⟨pos, d :: (ds ++ rest)⟩ = ⟨pos + (d :: ds).length, rest⟩ := skipDigits_append hall hrest
    simp [scanInt, hne, hd, hskip]

theorem Digits.atDigit (h : Digits ds) : (⟨pos, ds ++ rest⟩ : ParseCtx).atDigit = true := by
  obtain ⟨hne, hall⟩ := h
  cases ds with
  | nil => exact absurd rfl hne
  | cons d ds => exact isDigitByte_iff.mpr (hall d mem_cons_self)

theorem scanFrac_append (h : FracPart frac) (hrest : NoDigit rest) (hdot : rest.head? ≠ some 0x2E) :
    scanFrac ⟨pos, frac ++ rest⟩ = .ok (decide (frac ≠ []), ⟨pos + frac.length, rest⟩) := by
  cases h with
  | none => simp [scanFrac, hdot]
  | some hds => simp [scanFrac, hds.atDigit, skipDigits_append hds.2 hrest, Nat.add_comm, Nat.add_left_comm]

theorem Digits.head_ne_sign (h : Digits ds) (rest : List UInt8) : ¬((ds ++ rest).head? = some 0x2B ∨ (ds ++ rest).head? = some 0x2D) := by
  obtain ⟨hne, hall⟩ := h
  cases ds with
  | nil => exact absurd rfl hne
  | cons d ds =>
    have hsign := (hall d mem_cons_self).ne_sign
    simp [hsign]

theorem scanSign_append {sign : List UInt8} (hsign : sign = [] ∨ sign = [0x2B] ∨ sign = [0x2D]) (h : Digits ds) :
    scanSign ⟨pos, sign ++ ds ++ rest⟩ = ⟨pos + sign.length, ds ++ rest⟩ := by
  rcases hsign with rfl | rfl | rfl
  · have hsign := h.head_ne_sign rest
    simp only [scanSign, nil_append, if_neg hsign]
    rfl
  · rfl
  · rfl

theorem scanExp_append (h : ExpPart exp) (hrest : NoDigit rest)
    (he : ¬(rest.head? = some 0x65 ∨ rest.head? = some 0x45)) :
    scanExp ⟨pos, exp ++ rest⟩ = .ok (decide (exp ≠ []), ⟨pos + exp.length, rest⟩) := by
  cases h with
  | none => simp [scanExp, he]
  | @some e sign ds he hsign hds =>
    have hhead : (e :: (sign ++ ds) ++ rest).head? = some 0x65 ∨ (e :: (sign ++ ds) ++ rest).head? = some 0x45 := by
      simpa using he
    rw [scanExp, if_pos hhead]
    simp only [cons_append, advance_cons, scanSign_append hsign hds]
    rw [if_pos hds.atDigit, skipDigits_append hds.2 hrest]
    simp [Nat.add_assoc, Nat.add_comm 1]

def NumberEnd (rest : List UInt8) : Prop :=
  ∀ c ∈ rest.head?, isDigitByte c = false ∧ c ≠ 0x2E ∧ c ≠ 0x65 ∧ c ≠ 0x45

theorem numberNode_complete (start : Nat) (h : NumberText strtod t v) :
    ∃ neg ds frac exp, t = minus neg ++ ds ++ frac ++ exp ∧ IntPart ds ∧ FracPart frac ∧ ExpPart exp ∧
      numberNode strtod start t (decide (frac ≠ []) || decide (exp ≠ [])) = .ok v := by
  cases h with
  | @integer neg ds hds hfits =>
    refine ⟨neg, ds, [], [], by simp, hds, .none, .none, ?_⟩
    simp [numberNode, (strtoll_number hds).1 hfits]
  | @float neg ds frac exp hds hfrac hexp hfloat hinf =>
    refine ⟨neg, ds, frac, exp, rfl, hds, hfrac, hexp, ?_⟩
    by_cases hnone : frac = [] ∧ exp = []
    · obtain ⟨rfl, rfl⟩ := hnone
      have hfits : ¬FitsInt64 (signed neg (decimalValue ds)) := by simpa using hfloat
      have herange := (strtoll_number hds).2 hfits
      rw [Prod.ext_iff] at herange
      simp only [append_nil] at hinf ⊢
      simp [numberNode, herange, hinf]
    · have hsome : (decide (frac ≠ []) || decide (exp ≠ [])) = true := by
        rw [Bool.or_eq_true, decide_eq_true_eq, decide_eq_true_eq]
        exact not_and_or.mp hnone
      rw [hsome, numberNode, if_pos rfl, if_neg (by rw [hinf]; decide)]

theorem FracPart.noDigit (h : FracPart frac) (hrest : NoDigit rest) : NoDigit (frac ++ rest) := by
  cases h with
  | none => exact hrest
  | some _ =>
    intro c hc
    cases hc
    rfl

theorem ExpPart.noDigit (h : ExpPart exp) (hrest : NoDigit rest) : NoDigit (exp ++ rest) := by
  cases h with
  | none => exact hrest
  | some he _ _ =>
    intro c hc
    cases hc
    rcases he with rfl | rfl <;> rfl

theorem no_dot_exp (h : ExpPart exp) (hrest : rest.head? ≠ some 0x2E) : (exp ++ rest).head? ≠ some 0x2E := by
  cases h with
  | none => exact hrest
  | some he _ _ => rcases he with rfl | rfl <;> simp

theorem parseNumber_complete (h : NumberText strtod t v) (hrest : NumberEnd rest) :
    parseNumber strtod ⟨pos, t ++ rest⟩ = .ok (v, ⟨pos + t.length, rest⟩) := by
  obtain ⟨neg, ds, frac, exp, rfl, hds, hfrac, hexp, hnode⟩ := numberNode_complete pos h
  obtain ⟨d, ds', rfl, hd, -⟩ := hds.head
  have hdigit : NoDigit rest := fun c hc => (hrest c hc).1
  have hdot : rest.head? ≠ some 0x2E := by
    intro hhead
    exact (hrest _ hhead).2.1 rfl
  have he : ¬(rest.head? = some 0x65 ∨ rest.head? = some 0x45) := by
    rintro (hhead | hhead)
    · exact (hrest _ hhead).2.2.1 rfl
    · exact (hrest _ hhead).2.2.2 rfl
  have hafterExp := hexp.noDigit hdigit
  have hmin : scanMinus ⟨pos, minus neg ++ (d :: ds') ++ frac ++ exp ++ rest⟩ =
      ⟨pos + (minus neg).length, (d :: ds') ++ (frac ++ (exp ++ rest))⟩ := by
    simp only [append_assoc, cons_append]
    exact scanMinus_append hd
  have htake : (minus neg ++ (d :: ds') ++ frac ++ exp ++ rest).take
      (pos + (minus neg).length + (d :: ds').length + frac.length + exp.length - pos) = minus neg ++ (d :: ds') ++ frac ++ exp := by
    have hlen : pos + (minus neg).length + (d :: ds').length + frac.length + exp.length - pos =
        (minus neg ++ (d :: ds') ++ frac ++ exp).length := by
      simp only [length_append]
      omega
    rw [hlen, take_left]
  simp only [parseNumber, hmin, scanInt_append hds (hfrac.noDigit hafterExp), bind, Except.bind,
    scanFrac_append hfrac hafterExp (no_dot_exp hexp hdot), scanExp_append hexp hdigit he, htake, hnode, pure, Except.pure]
  simp only [length_append, Nat.add_assoc]

end Ccollections.Cjson
