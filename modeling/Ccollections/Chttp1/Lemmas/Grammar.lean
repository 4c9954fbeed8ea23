import Ccollections.Chttp1.Grammar

/-!
# The scanners and their grammars
-/

namespace Ccollections.Chttp1
open Lib Computability Grammar List

variable {s rest v : List UInt8} {c : UInt8}

/-! ## Characters -/

theorem isTextChar_eq (c : UInt8) : isTextChar c = !isInvalidValueByte c := by
  rw [Bool.eq_iff_iff]
  simp only [isTextChar, isInvalidValueByte, Bool.or_eq_true, Bool.and_eq_true, Bool.not_eq_true', Bool.or_eq_false_iff,
    Bool.and_eq_false_iff, decide_eq_true_eq, decide_eq_false_iff_not, UInt8.le_iff_toNat_le, UInt8.lt_iff_toNat_lt,
    ← UInt8.toNat_inj, ne_eq, not_not]
  simp only [UInt8.reduceToNat]
  have := c.toNat_lt
  omega

theorem isQdtext_eq (c : UInt8) : isQdtext c = (!isInvalidValueByte c && c ≠ 0x22 && c ≠ 0x5C) := by
  rw [Bool.eq_iff_iff]
  simp only [isQdtext, isInvalidValueByte, Bool.or_eq_true, Bool.and_eq_true, Bool.not_eq_true', Bool.or_eq_false_iff,
    Bool.and_eq_false_iff, decide_eq_true_eq, decide_eq_false_iff_not, UInt8.le_iff_toNat_le, UInt8.lt_iff_toNat_lt,
    ← UInt8.toNat_inj, ne_eq, not_not]
  simp only [UInt8.reduceToNat]
  have := c.toNat_lt
  omega

theorem isTargetChar_eq (c : UInt8) : isTargetChar c = !isInvalidTargetByte c := by
  rw [Bool.eq_iff_iff]
  simp only [isTargetChar, isInvalidTargetByte, Bool.or_eq_true, Bool.and_eq_true, Bool.not_eq_true', Bool.or_eq_false_iff,
    decide_eq_true_eq, decide_eq_false_iff_not, UInt8.le_iff_toNat_le, ← UInt8.toNat_inj]
  simp only [UInt8.reduceToNat]
  have := c.toNat_lt
  omega

theorem not_tchar_of_ows (h : isOws c = true) : chttp1IsTchar c = false := by
  simp only [isOws, Bool.or_eq_true, decide_eq_true_eq] at h
  rcases h with rfl | rfl <;> decide

/-! ## Chunk extensions -/

theorem mem_token : s ∈ token ↔ ∃ c r, s = c :: r ∧ chttp1IsTchar c = true ∧ ∀ c ∈ r, chttp1IsTchar c = true := by
  rw [token, mem_chars_mul]
  simp only [mem_chars_kstar]

theorem quotedRest_cons (c : UInt8) (s : List UInt8) : quotedRest (c :: s) =
    if c = 0x22 then some s
    else if c = 0x5C then
      match s with
      | [] => none
      | c :: s => if isInvalidValueByte c then none else quotedRest s
    else if isInvalidValueByte c then none
    else quotedRest s := quotedRest.eq_def (c :: s)

theorem quotedRest_append (h : s ∈ quotedChar∗) (rest : List UInt8) : quotedRest (s ++ 0x22 :: rest) = some rest := by
  refine kstar_induction (motive := fun s => quotedRest (s ++ 0x22 :: rest) = some rest) ?_ ?_ h
  · rw [nil_append, quotedRest_cons, if_pos rfl]
  · intro w t hw _ ih
    rw [quotedChar, Language.mem_add, mem_chars, mem_text_mul] at hw
    rcases hw with ⟨c, hc, rfl⟩ | ⟨-, rfl, c, hc, rfl⟩
    · simp only [isQdtext_eq, Bool.and_eq_true, Bool.not_eq_true', ne_eq, decide_eq_true_eq] at hc
      obtain ⟨⟨hvalue, hquote⟩, hslash⟩ := hc
      rw [singleton_append, cons_append, quotedRest_cons, if_neg hquote, if_neg hslash, hvalue]
      exact ih
    · rw [isTextChar_eq, Bool.not_eq_true'] at hc
      rw [cons_append, nil_append, cons_append, cons_append, quotedRest_cons, if_neg (by decide), if_pos rfl]
      show (if isInvalidValueByte c then none else quotedRest (t ++ 0x22 :: rest)) = some rest
      rw [hc]
      exact ih

theorem quotedRest_some (h : quotedRest s = some rest) : ∃ body, s = body ++ 0x22 :: rest ∧ body ∈ quotedChar∗ := by
  fun_induction quotedRest s with
  | case1 => cases h
  | case2 s =>
    cases h
    exact ⟨[], rfl, Language.nil_mem_kstar _⟩
  | case3 => cases h
  | case4 => cases h
  | case5 c s hvalue _ ih =>
    obtain ⟨body, rfl, hbody⟩ := ih h
    refine ⟨[0x5C, c] ++ body, rfl, append_mem_kstar ?_ hbody⟩
    rw [quotedChar, Language.mem_add, mem_text_mul]
    refine .inr ⟨[c], rfl, c, ?_, rfl⟩
    rw [isTextChar_eq, Bool.not_eq_true']
    exact Bool.eq_false_of_not_eq_true hvalue
  | case6 => cases h
  | case7 c s hquote hslash hvalue ih =>
    obtain ⟨body, rfl, hbody⟩ := ih h
    refine ⟨[c] ++ body, rfl, append_mem_kstar ?_ hbody⟩
    rw [quotedChar, Language.mem_add]
    refine .inl ⟨c, ?_, rfl⟩
    rw [isQdtext_eq, Bool.eq_false_of_not_eq_true hvalue]
    simp [hquote, hslash]

def ExtEnd (s : List UInt8) : Prop := s = [] ∨ ∃ ws r, s = ws ++ 0x3B :: r ∧ ∀ c ∈ ws, isOws c = true

theorem ExtEnd.not_tchar (h : ExtEnd s) : ∀ c ∈ s.head?, chttp1IsTchar c = false := by
  rcases h with rfl | ⟨ws, r, rfl, hws⟩
  · exact fun _ h => nomatch h
  · intro c hc
    cases ws with
    | nil =>
      cases hc
      decide
    | cons c' ws =>
      cases hc
      exact not_tchar_of_ows (hws c mem_cons_self)

theorem chunkExtVal_append (h : s ∈ Grammar.chunkExtVal) (hend : ExtEnd rest) : chunkExtVal (s ++ rest) = some rest := by
  rw [Grammar.chunkExtVal, Language.mem_add, mem_token, quotedString, mem_text_mul] at h
  rcases h with ⟨c, r, rfl, hc, hr⟩ | ⟨r, rfl, hr⟩
  · have hquote : c ≠ 0x22 := by
      rintro rfl
      exact absurd hc (by decide)
    simp only [cons_append, chunkExtVal, if_neg hquote, if_pos hc, dropWhile_run hr hend.not_tchar]
  · obtain ⟨body, rfl, hbody⟩ := mem_mul_text.mp hr
    simp only [cons_append, nil_append, append_assoc, chunkExtVal, ↓reduceIte]
    exact quotedRest_append hbody rest

theorem chunkExtVal_some (h : chunkExtVal s = some rest) : ∃ val, s = val ++ rest ∧ val ∈ Grammar.chunkExtVal := by
  cases s with
  | nil => cases h
  | cons c s =>
    simp only [chunkExtVal] at h
    rw [Grammar.chunkExtVal]
    split at h
    · rename_i hquote
      subst hquote
      obtain ⟨body, rfl, hbody⟩ := quotedRest_some h
      refine ⟨0x22 :: (body ++ [0x22]), by simp, (Language.mem_add ..).mpr (.inr ?_)⟩
      exact mem_text_mul.mpr ⟨_, rfl, mem_mul_text.mpr ⟨body, rfl, hbody⟩⟩
    · split at h
      · rename_i hc
        cases h
        obtain ⟨run, hsplit, hrun, -⟩ := run_split chttp1IsTchar s
        exact ⟨c :: run, congrArg (c :: ·) hsplit, (Language.mem_add ..).mpr (.inl (mem_token.mpr ⟨c, run, rfl, hc, hrun⟩))⟩
      · cases h

theorem mem_extension : s ∈ extension ↔ ∃ w₁ w₂ c name tail, s = w₁ ++ 0x3B :: (w₂ ++ c :: (name ++ tail)) ∧
    (∀ c ∈ w₁, isOws c = true) ∧ (∀ c ∈ w₂, isOws c = true) ∧ chttp1IsTchar c = true ∧ (∀ c ∈ name, chttp1IsTchar c = true) ∧
    (tail = [] ∨ ∃ w₃ w₄ val, tail = w₃ ++ 0x3D :: (w₄ ++ val) ∧ (∀ c ∈ w₃, isOws c = true) ∧ (∀ c ∈ w₄, isOws c = true) ∧
      val ∈ Grammar.chunkExtVal) := by
  rw [extension, bws, mem_run_mul]
  constructor
  · rintro ⟨w₁, r, rfl, hw₁, hr⟩
    obtain ⟨r₁, rfl, hr₁⟩ := mem_text_mul.mp hr
    obtain ⟨w₂, r₂, rfl, hw₂, hr₂⟩ := mem_run_mul.mp hr₁
    obtain ⟨name, hname, tail, htail, rfl⟩ := Language.mem_mul.mp hr₂
    obtain ⟨c, name, rfl, hc, hname⟩ := mem_token.mp hname
    refine ⟨w₁, w₂, c, name, tail, rfl, hw₁, hw₂, hc, hname, ?_⟩
    rcases (Language.mem_add ..).mp htail with htail | htail
    · exact .inl ((Language.mem_one _).mp htail)
    · obtain ⟨w₃, r₃, rfl, hw₃, hr₃⟩ := mem_run_mul.mp htail
      obtain ⟨r₄, rfl, hr₄⟩ := mem_text_mul.mp hr₃
      obtain ⟨w₄, val, rfl, hw₄, hval⟩ := mem_run_mul.mp hr₄
      exact .inr ⟨w₃, w₄, val, rfl, hw₃, hw₄, hval⟩
  · rintro ⟨w₁, w₂, c, name, tail, rfl, hw₁, hw₂, hc, hname, htail⟩
    refine ⟨w₁, _, rfl, hw₁, mem_text_mul.mpr ⟨_, rfl, mem_run_mul.mpr ⟨w₂, _, rfl, hw₂, ?_⟩⟩⟩
    refine Language.mem_mul.mpr ⟨c :: name, mem_token.mpr ⟨c, name, rfl, hc, hname⟩, tail, ?_, rfl⟩
    rw [Language.mem_add, Language.mem_one]
    rcases htail with rfl | ⟨w₃, w₄, val, rfl, hw₃, hw₄, hval⟩
    · exact .inl rfl
    · refine .inr (mem_run_mul.mpr ⟨w₃, _, rfl, hw₃, mem_text_mul.mpr ⟨_, rfl, ?_⟩⟩)
      exact mem_run_mul.mpr ⟨w₄, val, rfl, hw₄, hval⟩

theorem ExtEnd.of_mem (h : s ∈ Grammar.chunkExt) : ExtEnd s := by
  refine kstar_induction (motive := ExtEnd) (.inl rfl) ?_ h
  intro w t hw _ _
  obtain ⟨w₁, w₂, c, name, tail, rfl, hw₁, -⟩ := mem_extension.mp hw
  exact .inr ⟨w₁, _, by rw [append_assoc, cons_append], hw₁⟩

theorem chunkExt_append (h : s ∈ extension) (hend : ExtEnd rest) : chunkExt (s ++ rest) = some rest := by
  obtain ⟨w₁, w₂, c, name, tail, rfl, hw₁, hw₂, hc, hname, htail⟩ := mem_extension.mp h
  have hcows : isOws c = false := by
    by_contra hows
    rw [not_tchar_of_ows (Bool.eq_true_of_not_eq_false hows)] at hc
    cases hc
  have hsemi : (w₁ ++ 0x3B :: (w₂ ++ c :: (name ++ tail)) ++ rest).dropWhile isOws = 0x3B :: (w₂ ++ c :: (name ++ (tail ++ rest))) := by
    rw [append_assoc, dropWhile_run hw₁ (by rintro _ ⟨⟩; decide)]
    simp only [cons_append, append_assoc]
  have hname₁ : (w₂ ++ c :: (name ++ (tail ++ rest))).dropWhile isOws = c :: (name ++ (tail ++ rest)) :=
    dropWhile_run hw₂ (by rintro _ ⟨⟩; exact hcows)
  rw [chunkExt, hsemi]
  simp only [ne_eq, not_true_eq_false, ↓reduceIte, hname₁, hc, Bool.not_true, Bool.false_eq_true]
  rcases htail with rfl | ⟨w₃, w₄, val, rfl, hw₃, hw₄, hval⟩
  · rw [nil_append, dropWhile_run hname hend.not_tchar]
    rcases hend with rfl | ⟨ws, r, rfl, hws⟩
    · rfl
    · rw [dropWhile_run hws (by rintro _ ⟨⟩; decide)]
      exact if_neg (by decide)
  · have hafter : (name ++ (w₃ ++ 0x3D :: (w₄ ++ val) ++ rest)).dropWhile chttp1IsTchar = w₃ ++ 0x3D :: (w₄ ++ (val ++ rest)) := by
      rw [dropWhile_run hname]
      · simp only [cons_append, append_assoc]
      · intro c hc
        cases w₃ with
        | nil =>
          cases hc
          decide
        | cons c' w₃ =>
          cases hc
          exact not_tchar_of_ows (hw₃ c mem_cons_self)
    have hvalue : (w₄ ++ (val ++ rest)).dropWhile isOws = val ++ rest := by
      apply dropWhile_run hw₄
      intro c hc
      rw [Grammar.chunkExtVal, Language.mem_add, mem_token, quotedString, mem_text_mul] at hval
      rcases hval with ⟨c', r, rfl, hc', -⟩ | ⟨r, rfl, -⟩
      · cases hc
        by_contra hows
        rw [not_tchar_of_ows (Bool.eq_true_of_not_eq_false hows)] at hc'
        cases hc'
      · cases hc
        decide
    rw [hafter, dropWhile_run hw₃ (by rintro _ ⟨⟩; decide)]
    simp only [↓reduceIte, hvalue]
    exact chunkExtVal_append hval hend

theorem chunkExt_some (h : chunkExt s = some rest) : ∃ ext, s = ext ++ rest ∧ ext ∈ extension := by
  obtain ⟨w₁, hs, hw₁, -⟩ := run_split isOws s
  rw [chunkExt] at h
  split at h
  · cases h
  · rename_i c₁ s₁ heq₁
    split at h
    · cases h
    · rename_i hsemi
      obtain rfl : c₁ = 0x3B := not_not.mp hsemi
      obtain ⟨w₂, hs₁, hw₂, -⟩ := run_split isOws s₁
      split at h
      · cases h
      · rename_i c₂ s₂ heq₂
        obtain ⟨name, hs₂, hname, -⟩ := run_split chttp1IsTchar s₂
        split at h
        · cases h
        · rename_i hc
          rw [Bool.not_eq_true', Bool.not_eq_false] at hc
          rw [heq₁, hs₁, heq₂, hs₂] at hs
          have hhead : s = w₁ ++ 0x3B :: (w₂ ++ c₂ :: (name ++ s₂.dropWhile chttp1IsTchar)) := hs
          have hbare : ∃ ext, s = ext ++ s₂.dropWhile chttp1IsTchar ∧ ext ∈ extension := by
            refine ⟨_, ?_, mem_extension.mpr ⟨w₁, w₂, c₂, name, [], rfl, hw₁, hw₂, hc, hname, .inl rfl⟩⟩
            rw [hhead]
            simp only [append_nil, cons_append, append_assoc]
          dsimp only at h
          split at h
          · cases h
            exact hbare
          · rename_i c₃ s₃ heq₃
            split at h
            · rename_i heqs
              subst heqs
              obtain ⟨w₃, hs₃, hw₃, -⟩ := run_split isOws (s₂.dropWhile chttp1IsTchar)
              obtain ⟨w₄, hs₄, hw₄, -⟩ := run_split isOws s₃
              obtain ⟨val, hval, hmem⟩ := chunkExtVal_some h
              refine ⟨_, ?_, mem_extension.mpr ⟨w₁, w₂, c₂, name, w₃ ++ 0x3D :: (w₄ ++ val), rfl, hw₁, hw₂, hc, hname,
                .inr ⟨w₃, w₄, val, rfl, hw₃, hw₄, hmem⟩⟩⟩
              rw [hhead, hs₃, heq₃, hs₄, hval]
              simp only [cons_append, append_assoc]
            · cases h
              exact hbare

theorem chunkExtIsValid_iff (s : List UInt8) : chunkExtIsValid s = true ↔ s ∈ Grammar.chunkExt := by
  constructor
  · intro h
    fun_induction chunkExtIsValid s with
    | case1 => exact Language.nil_mem_kstar _
    | case2 => cases h
    | case3 s _ rest hrest ih =>
      obtain ⟨ext, rfl, hext⟩ := chunkExt_some hrest
      exact append_mem_kstar hext (ih h)
  · refine kstar_induction (motive := fun s => chunkExtIsValid s = true) ?_ ?_
    · rw [chunkExtIsValid, if_pos rfl]
    · intro w t hw ht ih
      have hround := chunkExt_append hw (ExtEnd.of_mem ht)
      have hne : w ++ t ≠ [] := by
        rintro heq
        rw [heq] at hround
        cases hround
      rw [chunkExtIsValid, if_neg hne]
      split
      · rename_i hnone
        rw [hround] at hnone
        cases hnone
      · rename_i rest hrest
        rw [hround] at hrest
        cases hrest
        exact ih

/-! ## Host -/

theorem mem_port : s ∈ 1 + text [0x3A] * (chars isDigit)∗ ↔ portIsValid s = true := by
  rw [Language.mem_add, Language.mem_one, mem_text_mul]
  cases s with
  | nil => exact ⟨fun _ => rfl, fun _ => .inl rfl⟩
  | cons c s =>
    simp only [portIsValid, Bool.and_eq_true, decide_eq_true_eq, all_eq_true, mem_chars_kstar]
    constructor
    · rintro (h | ⟨r, heq, hr⟩)
      · cases h
      · cases heq
        exact ⟨rfl, hr⟩
    · rintro ⟨rfl, hr⟩
      exact .inr ⟨s, rfl, hr⟩

theorem mem_ipv6Address : s ∈ ipv6Address ↔ (∀ c ∈ s, (isHexdig c || c = 0x3A || c = 0x2E) = true) ∧ 0x3A ∈ s := by
  rw [ipv6Address, mem_run_mul]
  constructor
  · rintro ⟨a, r, rfl, ha, hr⟩
    obtain ⟨b, rfl, hb⟩ := mem_text_mul.mp hr
    rw [mem_chars_kstar] at hb
    refine ⟨?_, by simp⟩
    intro c hc
    simp only [mem_append, mem_cons, cons_append, nil_append] at hc
    rcases hc with hc | rfl | hc
    · exact ha c hc
    · rfl
    · exact hb c hc
  · rintro ⟨hall, hcolon⟩
    obtain ⟨a, b, rfl⟩ := append_of_mem hcolon
    refine ⟨a, 0x3A :: b, rfl, fun c hc => hall c (mem_append_left _ hc), mem_text_mul.mpr ⟨b, rfl, ?_⟩⟩
    exact mem_chars_kstar.mpr fun c hc => hall c (mem_append_right _ (mem_cons_of_mem _ hc))

theorem mem_ipvFuture : s ∈ ipvFuture ↔ ∃ c r, s = c :: r ∧ (c = 0x76 ∨ c = 0x56) ∧ ipvFutureIsValid r = true := by
  have hv : ∀ {t : List UInt8}, t ∈ (text [0x76] + text [0x56] : Language UInt8) ↔ t = [0x76] ∨ t = [0x56] := by
    intro t
    rw [Language.mem_add]
    rfl
  have hvalid : ∀ r, r ∈ chars isHexdig * ((chars isHexdig)∗ * (text [0x2E] *
      (chars (fun c => isUnreservedOrSubDelim c || c = 0x3A) * (chars fun c => isUnreservedOrSubDelim c || c = 0x3A)∗))) ↔
      ipvFutureIsValid r = true := by
    intro r
    rw [mem_chars_mul, ipvFutureIsValid]
    constructor
    · rintro ⟨d, r, rfl, hd, hr⟩
      obtain ⟨hex, r₁, rfl, hhex, hr₁⟩ := mem_run_mul.mp hr
      obtain ⟨r₂, rfl, hr₂⟩ := mem_text_mul.mp hr₁
      obtain ⟨e, r₃, rfl, he, hr₃⟩ := mem_chars_mul.mp hr₂
      rw [mem_chars_kstar] at hr₃
      have hdrop : (d :: (hex ++ ([0x2E] ++ e :: r₃))).dropWhile isHexdig = 0x2E :: e :: r₃ := by
        refine dropWhile_run (show ∀ c ∈ d :: hex, isHexdig c = true from ?_) ?_
        · intro c hc
          rcases mem_cons.mp hc with rfl | hc
          · exact hd
          · exact hhex c hc
        · rintro _ ⟨⟩
          decide
      rw [hdrop]
      simp only [headD_cons, hd, decide_true, isEmpty_cons, Bool.not_false, all_cons, he, Bool.true_and,
        all_eq_true]
      exact hr₃
    · intro h
      obtain ⟨hex, hsplit, hhex, -⟩ := run_split isHexdig r
      split at h
      · cases h
      · rename_i c rest heq
        simp only [Bool.and_eq_true, decide_eq_true_eq, Bool.not_eq_true', isEmpty_eq_false_iff, all_eq_true] at h
        obtain ⟨⟨⟨hhead, rfl⟩, hne⟩, hall⟩ := h
        rw [heq] at hsplit
        cases hex with
        | nil =>
          rw [hsplit, nil_append, headD_cons] at hhead
          exact absurd hhead (by decide)
        | cons d hex =>
          obtain ⟨e, rest, rfl⟩ := exists_cons_of_ne_nil hne
          refine ⟨d, _, hsplit, hhex d mem_cons_self, mem_run_mul.mpr ⟨hex, _, rfl, fun c hc => hhex c (mem_cons_of_mem _ hc), ?_⟩⟩
          refine mem_text_mul.mpr ⟨_, rfl, mem_chars_mul.mpr ⟨e, rest, rfl, hall e mem_cons_self, ?_⟩⟩
          exact mem_chars_kstar.mpr fun c hc => hall c (mem_cons_of_mem _ hc)
  rw [ipvFuture, Language.mem_mul]
  constructor
  · rintro ⟨t, ht, r, hr, rfl⟩
    rcases hv.mp ht with rfl | rfl
    · exact ⟨_, r, rfl, .inl rfl, (hvalid r).mp hr⟩
    · exact ⟨_, r, rfl, .inr rfl, (hvalid r).mp hr⟩
  · rintro ⟨c, r, rfl, rfl | rfl, hr⟩
    · exact ⟨_, hv.mpr (.inl rfl), r, (hvalid r).mpr hr, rfl⟩
    · exact ⟨_, hv.mpr (.inr rfl), r, (hvalid r).mpr hr, rfl⟩

theorem ipLiteralIsValid_iff (lit : List UInt8) : ipLiteralIsValid lit = true ↔ lit ∈ ipv6Address + ipvFuture := by
  rw [Language.mem_add, mem_ipv6Address, mem_ipvFuture]
  cases lit with
  | nil =>
    constructor
    · nofun
    · rintro (⟨-, h⟩ | ⟨c, r, h, -⟩) <;> cases h
  | cons c rest =>
    rw [ipLiteralIsValid]
    by_cases hv : (c = 0x76 || c = 0x56) = true
    · rw [if_pos hv]
      simp only [Bool.or_eq_true, decide_eq_true_eq] at hv
      constructor
      · exact fun h => .inr ⟨c, rest, rfl, hv, h⟩
      · rintro (⟨hall, -⟩ | ⟨c', r, heq, -, h⟩)
        · have hc := hall c mem_cons_self
          rcases hv with rfl | rfl <;> exact absurd hc (by decide)
        · cases heq
          exact h
    · rw [if_neg hv]
      simp only [Bool.or_eq_true, decide_eq_true_eq] at hv
      have hclass : ∀ c : UInt8, (c = 0x3A || isHexdig c || c = 0x2E) = (isHexdig c || c = 0x3A || c = 0x2E) :=
        fun c => by rw [Bool.or_comm (decide (c = 0x3A))]
      simp only [Bool.and_eq_true, all_eq_true, contains_iff_mem, hclass]
      constructor
      · exact fun h => .inl h
      · rintro (h | ⟨c', r, heq, hc, -⟩)
        · exact h
        · cases heq
          exact absurd hc hv

theorem not_bracket_of_literal (h : s ∈ ipv6Address + ipvFuture) : ∀ c ∈ s, c ≠ 0x5D := by
  rintro - hc rfl
  rw [Language.mem_add, mem_ipv6Address, mem_ipvFuture] at h
  rcases h with ⟨hall, -⟩ | ⟨v, r, rfl, hv, hvalid⟩
  · exact absurd (hall _ hc) (by decide)
  · obtain ⟨hex, hsplit, hhex, -⟩ := run_split isHexdig r
    rw [ipvFutureIsValid] at hvalid
    split at hvalid
    · cases hvalid
    · rename_i c rest heq
      simp only [Bool.and_eq_true, decide_eq_true_eq, all_eq_true] at hvalid
      obtain ⟨⟨-, rfl⟩, -⟩ := hvalid.1
      rw [hsplit, heq] at hc
      rcases mem_cons.mp hc with rfl | hc
      · rcases hv with h | h <;> exact absurd h (by decide)
      · rcases mem_append.mp hc with hc | hc
        · exact absurd (hhex _ hc) (by decide)
        · rcases mem_cons.mp hc with h | hc
          · exact absurd h (by decide)
          · exact absurd (hvalid.2 _ hc) (by decide)

theorem regName_cons (hc : c ≠ 0x25) (s : List UInt8) : Chttp1.regName (c :: s) =
    if c = 0x3A then some (c :: s) else if isUnreservedOrSubDelim c then Chttp1.regName s else none := by
  rw [Chttp1.regName]
  intro a b r h
  exact absurd h hc

theorem regName_append (h : s ∈ regNameChar∗) (hrest : rest = [] ∨ rest.head? = some 0x3A) :
    Chttp1.regName (s ++ rest) = some rest := by
  refine kstar_induction (motive := fun s => Chttp1.regName (s ++ rest) = some rest) ?_ ?_ h
  · rcases hrest with rfl | hcolon
    · rfl
    · obtain ⟨r, rfl⟩ := List.head?_eq_some_iff.mp hcolon
      rw [nil_append, regName_cons (by decide), if_pos rfl]
  · intro w t hw _ ih
    rw [regNameChar, Language.mem_add, mem_chars, mem_text_mul] at hw
    rcases hw with ⟨c, hc, rfl⟩ | ⟨r, rfl, hr⟩
    · have hpct : c ≠ 0x25 := by
        rintro rfl
        exact absurd hc (by decide)
      have hcolon : c ≠ 0x3A := by
        rintro rfl
        exact absurd hc (by decide)
      rw [singleton_append, cons_append, regName_cons hpct, if_neg hcolon, if_pos hc]
      exact ih
    · obtain ⟨a, r, rfl, ha, hr⟩ := mem_chars_mul.mp hr
      obtain ⟨b, hb, rfl⟩ := mem_chars.mp hr
      show Chttp1.regName (0x25 :: a :: b :: (t ++ rest)) = some rest
      rw [Chttp1.regName, ha, hb]
      exact ih

theorem regName_some (h : Chttp1.regName s = some rest) :
    (∃ name, s = name ++ rest ∧ name ∈ regNameChar∗) ∧ (rest = [] ∨ rest.head? = some 0x3A) := by
  fun_induction Chttp1.regName s with
  | case1 =>
    cases h
    exact ⟨⟨[], rfl, Language.nil_mem_kstar _⟩, .inl rfl⟩
  | case2 a b r hhex ih =>
    obtain ⟨⟨name, rfl, hname⟩, hrest⟩ := ih h
    rw [Bool.and_eq_true] at hhex
    refine ⟨⟨[0x25, a, b] ++ name, rfl, append_mem_kstar ?_ hname⟩, hrest⟩
    rw [regNameChar, Language.mem_add, mem_text_mul]
    exact .inr ⟨[a, b], rfl, mem_chars_mul.mpr ⟨a, [b], rfl, hhex.1, b, hhex.2, rfl⟩⟩
  | case3 => cases h
  | case4 =>
    cases h
    exact ⟨⟨[], rfl, Language.nil_mem_kstar _⟩, .inr rfl⟩
  | case5 c r _ _ hc ih =>
    obtain ⟨⟨name, rfl, hname⟩, hrest⟩ := ih h
    refine ⟨⟨[c] ++ name, rfl, append_mem_kstar ?_ hname⟩, hrest⟩
    rw [regNameChar, Language.mem_add]
    exact .inl ⟨c, hc, rfl⟩
  | case6 => cases h

theorem mem_regName : s ∈ Grammar.regName ↔ s ≠ [] ∧ s ∈ regNameChar∗ := by
  have hword : ∀ {w : List UInt8}, w ∈ regNameChar → w ≠ [] := by
    rintro w hw rfl
    rw [regNameChar, Language.mem_add, mem_chars, mem_text_mul] at hw
    rcases hw with ⟨c, -, h⟩ | ⟨r, h, -⟩ <;> cases h
  rw [Grammar.regName, Language.mem_mul]
  constructor
  · rintro ⟨w, hw, t, ht, rfl⟩
    exact ⟨by simp [hword hw], append_mem_kstar hw ht⟩
  · rintro ⟨hne, hs⟩
    revert hne
    refine kstar_induction (motive := fun s => s ≠ [] → ∃ a ∈ regNameChar, ∃ b ∈ regNameChar∗, a ++ b = s) (fun h => absurd rfl h) ?_ hs
    intro w t hw ht _ _
    exact ⟨w, hw, t, ht, rfl⟩

theorem hostValueIsValid_iff (v : List UInt8) : hostValueIsValid v = true ↔ v ∈ host := by
  have hport : ∀ {port : List UInt8}, portIsValid port = true → port = [] ∨ port.head? = some 0x3A := by
    intro port hport
    cases port with
    | nil => exact .inl rfl
    | cons c port =>
      simp only [portIsValid, Bool.and_eq_true, decide_eq_true_eq] at hport
      exact .inr (congrArg some hport.1)
  rw [host, Language.mem_mul]
  cases v with
  | nil =>
    constructor
    · rintro ⟨⟩
    · rintro ⟨a, ha, b, -, heq⟩
      obtain ⟨rfl, -⟩ := append_eq_nil_iff.mp heq
      rw [Language.mem_add, ipLiteral, mem_text_mul, mem_regName] at ha
      rcases ha with ⟨r, h, -⟩ | ⟨h, -⟩
      · cases h
      · exact absurd rfl h
  | cons c rest =>
    by_cases hc : c = 0x5B
    · subst hc
      simp only [hostValueIsValid, ↓reduceIte]
      obtain ⟨lit, hsplit, hlit, hhead⟩ := run_split (fun c : UInt8 => decide (c ≠ 0x5D)) rest
      have htake : rest.takeWhile (fun c => decide (c ≠ 0x5D)) = lit := by
        conv_lhs => rw [hsplit]
        exact takeWhile_run hlit hhead
      constructor
      · intro h
        split at h
        · cases h
        · rename_i c' port heq
          rw [htake, Bool.and_eq_true, ipLiteralIsValid_iff] at h
          rw [heq] at hsplit hhead
          have hc' : c' = 0x5D := by simpa using hhead c' rfl
          refine ⟨[0x5B] ++ (lit ++ [0x5D]), ?_, port, mem_port.mpr h.2, ?_⟩
          · rw [Language.mem_add, ipLiteral, mem_text_mul]
            exact .inl ⟨_, rfl, mem_mul_text.mpr ⟨lit, rfl, h.1⟩⟩
          · rw [hsplit, hc']
            simp only [cons_append, nil_append, append_assoc]
      · rintro ⟨a, ha, port, hmem, heq⟩
        rw [Language.mem_add, ipLiteral, mem_text_mul, mem_regName] at ha
        rcases ha with ⟨r, rfl, hr⟩ | ⟨hne, hname⟩
        · obtain ⟨lit', rfl, hlit'⟩ := mem_mul_text.mp hr
          have hnot : ∀ c ∈ lit', decide (c ≠ 0x5D) = true := fun c hc => decide_eq_true (not_bracket_of_literal hlit' c hc)
          have hrest : rest = lit' ++ 0x5D :: port := by
            simp only [cons_append, nil_append, append_assoc, List.cons.injEq, true_and] at heq
            exact heq.symm
          have hhead' : ∀ c ∈ (0x5D :: port).head?, decide (c ≠ 0x5D) = false := by
            rintro _ ⟨⟩
            rfl
          rw [hrest, dropWhile_run hnot hhead', takeWhile_run hnot hhead']
          simp only [(ipLiteralIsValid_iff lit').mpr hlit', mem_port.mp hmem, Bool.and_self]
        · exfalso
          have hscan := regName_append hname (hport (mem_port.mp hmem))
          rw [heq, regName_cons (by decide), if_neg (by decide), if_neg (by decide)] at hscan
          cases hscan
    · simp only [hostValueIsValid, if_neg hc]
      constructor
      · intro h
        split at h
        · cases h
        · rename_i port hscan
          rw [Bool.and_eq_true, decide_eq_true_eq] at h
          obtain ⟨⟨name, hsplit, hname⟩, -⟩ := regName_some hscan
          refine ⟨name, ?_, port, mem_port.mpr h.2, hsplit.symm⟩
          rw [Language.mem_add, mem_regName]
          refine .inr ⟨?_, hname⟩
          rintro rfl
          exact h.1 (congrArg List.length hsplit).symm
      · rintro ⟨a, ha, port, hmem, heq⟩
        rw [Language.mem_add, ipLiteral, mem_text_mul, mem_regName] at ha
        rcases ha with ⟨r, rfl, -⟩ | ⟨hne, hname⟩
        · cases heq
          exact absurd rfl hc
        · have hscan := regName_append hname (hport (mem_port.mp hmem))
          rw [heq] at hscan
          rw [hscan]
          have hlen := congrArg List.length heq
          have hpos := length_pos_of_ne_nil hne
          rw [length_append] at hlen
          simp only [mem_port.mp hmem, Bool.and_true, decide_eq_true_eq, ne_eq]
          omega

end Ccollections.Chttp1
