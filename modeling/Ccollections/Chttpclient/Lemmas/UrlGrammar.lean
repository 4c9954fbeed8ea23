import Ccollections.Chttpclient.Lemmas.Url
import Ccollections.Chttpclient.Url
import Ccollections.Lib.Languages

/-!
# The parser of URLs and its grammar
-/

namespace Ccollections.Chttpclient
open Chttp1 Lib List

variable {c : UInt8} {s t : List UInt8} {url : List UInt8} {text : Option (List UInt8)}

/-! ## Escapes -/

theorem percentDecodeComponent_byte (hpct : c ≠ 0x25) :
    percentDecodeComponent (c :: s) = (percentDecodeComponent s).map (c :: ·) := by
  conv_lhs => rw [percentDecodeComponent.eq_def]
  simp only [hpct, ↓reduceIte]

theorem encodeTarget_byte (hpct : c ≠ 0x25) :
    encodeTarget (c :: s) =
      if isTargetLiteralByte c then (encodeTarget s).map (c :: ·) else (encodeTarget s).map (percentEncodeByte c ++ ·) := by
  conv_lhs => rw [encodeTarget.eq_def]
  simp only [hpct, ↓reduceIte]

theorem escapesAreValid_byte (hpct : c ≠ 0x25) :
    uriRegNameIsValid.escapesAreValid (c :: s) =
      (uriUnreservedOrSubDelim c && uriRegNameIsValid.escapesAreValid s) := by
  conv_lhs => rw [uriRegNameIsValid.escapesAreValid.eq_def]
  simp only [hpct, ↓reduceIte]

theorem decodes_of_ok {s t : List UInt8} (h : percentDecodeComponent s = .ok t) : Decodes s t := by
  match s with
  | [] =>
    cases h
    exact .nil
  | c :: s =>
    by_cases hpct : c = 0x25
    · subst hpct
      match s with
      | a :: b :: s =>
        simp only [percentDecodeComponent, ↓reduceIte] at h
        split at h
        · rename_i hhex
          simp only [Bool.and_eq_true, decide_eq_true_eq] at hhex
          obtain ⟨t', ht', rfl⟩ := except_map_ok h
          exact .escape hhex.1.1 hhex.1.2 hhex.2 (decodes_of_ok ht')
        · cases h
      | [a] => cases h
      | [] => cases h
    · rw [percentDecodeComponent_byte hpct] at h
      obtain ⟨t', ht', rfl⟩ := except_map_ok h
      exact .byte hpct (decodes_of_ok ht')

theorem percentDecodeComponent_iff : percentDecodeComponent s = .ok t ↔ Decodes s t := by
  refine ⟨decodes_of_ok, fun h => ?_⟩
  induction h with
  | nil => rfl
  | byte hpct _ ih =>
    rw [percentDecodeComponent_byte hpct, ih]
    rfl
  | escape ha hb hnul _ ih =>
    simp only [percentDecodeComponent, ha, hb, ih]
    simp [hnul, Except.map]

theorem encodes_of_ok {s t : List UInt8} (h : encodeTarget s = .ok t) : Encodes s t := by
  match s with
  | [] =>
    cases h
    exact .nil
  | c :: s =>
    by_cases hpct : c = 0x25
    · subst hpct
      match s with
      | a :: b :: s =>
        simp only [encodeTarget, ↓reduceIte] at h
        split at h
        · rename_i hhex
          rw [Bool.and_eq_true] at hhex
          obtain ⟨t', ht', rfl⟩ := except_map_ok h
          exact .escape hhex.1 hhex.2 (encodes_of_ok ht')
        · cases h
      | [a] => cases h
      | [] => cases h
    · rw [encodeTarget_byte hpct] at h
      split at h
      · rename_i hc
        obtain ⟨t', ht', rfl⟩ := except_map_ok h
        exact .keep hc hpct (encodes_of_ok ht')
      · rename_i hc
        obtain ⟨t', ht', rfl⟩ := except_map_ok h
        exact .encode (Bool.eq_false_iff.mpr hc) hpct (encodes_of_ok ht')

theorem encodeTarget_iff : encodeTarget s = .ok t ↔ Encodes s t := by
  refine ⟨encodes_of_ok, fun h => ?_⟩
  induction h with
  | nil => rfl
  | keep hc hpct _ ih =>
    rw [encodeTarget_byte hpct, if_pos hc, ih]
    rfl
  | escape ha hb _ ih =>
    simp only [encodeTarget, ha, hb, ih]
    rfl
  | encode hc hpct _ ih =>
    rw [encodeTarget_byte hpct, hc, if_neg Bool.false_ne_true, ih]
    rfl

theorem Encodes.escaped (h : Encodes s t) : Escaped (· ≠ 0x25) s := by
  induction h with
  | nil => exact .nil
  | keep _ hpct _ ih => exact .byte (by simpa using hpct) hpct ih
  | escape ha hb _ ih => exact .escape ha hb ih
  | encode _ hpct _ ih => exact .byte (by simpa using hpct) hpct ih

theorem Escaped.encodes (h : Escaped (· ≠ 0x25) s) : ∃ t, Encodes s t := by
  induction h with
  | nil => exact ⟨[], .nil⟩
  | @byte c s _ hpct _ ih =>
    obtain ⟨t, ht⟩ := ih
    cases hc : isTargetLiteralByte c with
    | true => exact ⟨_, .keep hc hpct ht⟩
    | false => exact ⟨_, .encode hc hpct ht⟩
  | escape ha hb _ ih =>
    obtain ⟨t, ht⟩ := ih
    exact ⟨_, .escape ha hb ht⟩

theorem Encodes.valid (h : Encodes s t) : Escaped isTargetLiteralByte t := by
  induction h with
  | nil => exact .nil
  | keep hc hpct _ ih => exact .byte hc hpct ih
  | escape ha hb _ ih => exact .escape ha hb ih
  | @encode c _ _ _ _ _ ih =>
    have hc := c.toNat_lt
    exact .escape (uriHexdig_hexUpper (by omega)) (uriHexdig_hexUpper (by omega)) ih

theorem escaped_of_valid {s : List UInt8} (h : uriRegNameIsValid.escapesAreValid s = true) : Escaped uriUnreservedOrSubDelim s := by
  match s with
  | [] => exact .nil
  | c :: s =>
    by_cases hpct : c = 0x25
    · subst hpct
      match s with
      | a :: b :: s =>
        simp only [uriRegNameIsValid.escapesAreValid, ↓reduceIte, Bool.and_eq_true] at h
        exact .escape h.1.1 h.1.2 (escaped_of_valid h.2)
      | [a] => cases h
      | [] => cases h
    · rw [escapesAreValid_byte hpct, Bool.and_eq_true] at h
      exact .byte h.1 hpct (escaped_of_valid h.2)

theorem uriRegNameIsValid_iff : uriRegNameIsValid s = true ↔ RegName s := by
  have hescapes : uriRegNameIsValid.escapesAreValid s = true ↔ Escaped uriUnreservedOrSubDelim s := by
    refine ⟨escaped_of_valid, fun h => ?_⟩
    induction h with
    | nil => rfl
    | byte hc hpct _ ih => rw [escapesAreValid_byte hpct, hc, ih, Bool.true_and]
    | escape ha hb _ ih => simp [uriRegNameIsValid.escapesAreValid, ha, hb, ih]
  simp [uriRegNameIsValid, RegName, hescapes]

/-! ## Literals of addresses -/

theorem uriIpvFutureIsValid_iff {v : UInt8} (hv : v = 0x76 ∨ v = 0x56) :
    uriIpvFutureIsValid s = true ↔ IpvFuture (v :: s) := by
  constructor
  · intro h
    have hsplit := takeWhile_append_dropWhile (p := uriHexdig) (l := s)
    rw [uriIpvFutureIsValid] at h
    cases hdrop : s.dropWhile uriHexdig with
    | nil => simp [hdrop] at h
    | cons c rest =>
      simp only [hdrop, Bool.and_eq_true, decide_eq_true_eq, Bool.not_eq_true', isEmpty_eq_false_iff, all_eq_true,
        Bool.or_eq_true] at h
      obtain ⟨⟨⟨hhead, rfl⟩, hrest⟩, hchars⟩ := h
      rw [hdrop] at hsplit
      have hversion : s.takeWhile uriHexdig ≠ [] := by
        cases s with
        | nil => simp at hdrop
        | cons d s =>
          rw [headD_cons] at hhead
          simp [hhead]
      have hmk := IpvFuture.mk hv hversion (fun d hd => mem_takeWhile_imp hd) hrest hchars
      rwa [cons_append, hsplit] at hmk
  · intro h
    generalize hs : v :: s = text at h
    cases h with
    | @mk v' version rest hv' hversion hhex hrest hchars =>
      obtain ⟨rfl, rfl⟩ := List.cons.inj hs
      have hdot : uriHexdig 0x2E = false := by decide
      have hdrop : (version ++ 0x2E :: rest).dropWhile uriHexdig = 0x2E :: rest := by
        rw [dropWhile_append_of_pos hhex, dropWhile_cons_of_neg (by simp [hdot])]
      have hhead : uriHexdig ((version ++ 0x2E :: rest).headD 0) = true := by
        cases version with
        | nil => exact absurd rfl hversion
        | cons d version => exact hhex d mem_cons_self
      have hall : rest.all (fun c => uriUnreservedOrSubDelim c || c = 0x3A) = true := by
        simpa [all_eq_true] using hchars
      change uriIpvFutureIsValid (version ++ 0x2E :: rest) = true
      rw [uriIpvFutureIsValid, hdrop]
      simp only [hhead, hall, Bool.and_true, Bool.true_and, decide_true, Bool.not_eq_true', isEmpty_eq_false_iff]
      exact hrest

theorem foldl_digits_ge (s : List UInt8) (v : Nat) : v * 10 ^ s.length ≤ s.foldl (fun v d => v * 10 + (d.toNat - 0x30)) v := by
  induction s generalizing v with
  | nil => simp
  | cons c s ih =>
    have hstep := ih (v * 10 + (c.toNat - 0x30))
    have hmono : v * 10 * 10 ^ s.length ≤ (v * 10 + (c.toNat - 0x30)) * 10 ^ s.length := Nat.mul_le_mul_right _ (Nat.le_add_right _ _)
    calc v * 10 ^ (s.length + 1) = v * 10 * 10 ^ s.length := by ring
      _ ≤ _ := hmono.trans hstep

theorem quadPart_length {rest : List UInt8} (hdigit : isDigit c = true) (hzero : rest = [] ∨ c ≠ 0x30)
    (hvalue : (c :: rest).foldl (fun v d => v * 10 + (d.toNat - 0x30)) 0 ≤ 255) : rest.length ≤ 2 := by
  rcases hzero with rfl | hzero
  · exact Nat.zero_le 2
  · by_contra hlong
    have hge := foldl_digits_ge rest (0 * 10 + (c.toNat - 0x30))
    rw [foldl_cons] at hvalue
    have hfirst : 1 ≤ c.toNat - 0x30 := by
      simp only [isDigit, ge_iff_le, Bool.and_eq_true, decide_eq_true_eq, UInt8.le_iff_toNat_le] at hdigit
      have hne : c.toNat ≠ 0x30 := fun h => hzero (UInt8.toNat_inj.mp h)
      have hlow : 0x30 ≤ c.toNat := hdigit.1
      omega
    have hpow : 10 ^ 3 ≤ 10 ^ rest.length := Nat.pow_le_pow_right (by decide) (by omega)
    have hmul : 1 * 10 ^ rest.length ≤ (0 * 10 + (c.toNat - 0x30)) * 10 ^ rest.length :=
      Nat.mul_le_mul_right _ (by omega)
    omega

def quadPart (part : List UInt8) : Bool :=
  match part with
  | [] => false
  | c :: rest =>
    (c :: rest).all isDigit && (rest = [] || c ≠ 0x30) &&
      (c :: rest).foldl (fun v d => v * 10 + (d.toNat - 0x30)) 0 ≤ 255

theorem quadPart_text {part : List UInt8} (h : quadPart part = true) : part.length ≤ 3 ∧ ∀ c ∈ part, isDigit c = true := by
  cases part with
  | nil => cases h
  | cons c rest =>
    simp only [quadPart, Bool.and_eq_true, Bool.or_eq_true, decide_eq_true_eq] at h
    obtain ⟨⟨hdigits, hzero⟩, hvalue⟩ := h
    have hall := all_eq_true.mp hdigits
    have hlen := quadPart_length (hall c mem_cons_self) hzero hvalue
    exact ⟨Nat.succ_le_succ hlen, hall⟩

theorem inetPton4_text (h : inetPton4 s = true) : s.length ≤ 15 ∧ ∀ c ∈ s, isDigit c = true ∨ c = 0x2E := by
  have hjoin : [0x2E].intercalate (s.splitOn 0x2E) = s := intercalate_splitOn 0x2E
  have hparts : (s.splitOn 0x2E).length = 4 ∧ ∀ part ∈ s.splitOn 0x2E, quadPart part = true := by
    rw [inetPton4, Bool.and_eq_true, decide_eq_true_eq, all_eq_true] at h
    exact h
  generalize s.splitOn 0x2E = parts at hjoin hparts
  match parts, hparts with
  | [a, b, c, d], ⟨_, hall⟩ =>
    have ha := quadPart_text (hall a (by simp))
    have hb := quadPart_text (hall b (by simp))
    have hc := quadPart_text (hall c (by simp))
    have hd := quadPart_text (hall d (by simp))
    have hs : s = a ++ 0x2E :: (b ++ 0x2E :: (c ++ 0x2E :: d)) := by
      rw [← hjoin]
      simp [List.intercalate, List.intersperse]
    constructor
    · simp only [hs, length_append, length_cons]
      omega
    · intro e he
      simp only [hs, mem_append, mem_cons] at he
      rcases he with he | rfl | he | rfl | he | rfl | he
      · exact .inl (ha.2 e he)
      · exact .inr rfl
      · exact .inl (hb.2 e he)
      · exact .inr rfl
      · exact .inl (hc.2 e he)
      · exact .inr rfl
      · exact .inl (hd.2 e he)

def isAddressByte (c : UInt8) : Bool := uriHexdig c || c = 0x3A || c = 0x2E

theorem isAddressByte_of_digit (h : isDigit c = true) : isAddressByte c = true := by
  simp [isAddressByte, uriHexdig, h]

theorem inetPton6Loop_text {tok s : List UInt8} {digits m : Nat} {gap : Bool}
    (h : inetPton6Loop tok digits (16 - 2 * m) gap s = true) (hm : m ≤ 8) (hdigits : digits ≤ 4)
    (htok : tok.length = digits + s.length) (hsuffix : s <:+ tok) :
    s.length + digits + (if gap then 5 else 0) ≤ 5 * m + 5 ∧ ∀ c ∈ s, isAddressByte c = true := by
  induction s generalizing tok digits m gap with
  | nil =>
    rw [inetPton6Loop] at h
    refine ⟨?_, nofun⟩
    cases gap with
    | false =>
      simp only [length_nil, Bool.false_eq_true, ↓reduceIte]
      omega
    | true =>
      simp only [length_nil, ↓reduceIte]
      split at h
      · simp at h
        omega
      · omega
  | cons c s ih =>
    rw [inetPton6Loop] at h
    have hrest : s <:+ tok := (suffix_cons c s).trans hsuffix
    split at h
    · rename_i hhex
      rw [Bool.and_eq_true, decide_eq_true_eq] at h
      obtain ⟨hlen, hchars⟩ := ih h.2 hm (by omega) (by rw [htok, length_cons]; omega) hrest
      refine ⟨?_, forall_mem_cons.mpr ⟨?_, hchars⟩⟩
      · rw [length_cons]
        omega
      · have huri : uriHexdig c = true := hhex
        simp [isAddressByte, huri]
    · split at h
      · rename_i hcolon
        subst hcolon
        split at h
        · rename_i hzero
          subst hzero
          rw [Bool.and_eq_true, Bool.not_eq_true'] at h
          obtain ⟨hgap, hloop⟩ := h
          obtain ⟨hlen, hchars⟩ := ih hloop hm (by omega) (by simp) (suffix_refl s)
          refine ⟨?_, forall_mem_cons.mpr ⟨by decide, hchars⟩⟩
          simp only [hgap, length_cons, Bool.false_eq_true, ↓reduceIte] at hlen ⊢
          omega
        · simp only [Bool.and_eq_true, decide_eq_true_eq] at h
          obtain ⟨⟨-, hbytes⟩, hloop⟩ := h
          have hleft : 16 - 2 * m + 2 = 16 - 2 * (m - 1) := by omega
          rw [hleft] at hloop
          obtain ⟨hlen, hchars⟩ := ih hloop (by omega) (by omega) (by simp) (suffix_refl s)
          refine ⟨?_, forall_mem_cons.mpr ⟨by decide, hchars⟩⟩
          rw [length_cons]
          omega
      · simp only [Bool.and_eq_true, decide_eq_true_eq] at h
        obtain ⟨⟨⟨rfl, hbytes⟩, hquad⟩, hend⟩ := h
        obtain ⟨hlen, hchars⟩ := inetPton4_text hquad
        refine ⟨?_, fun d hd => ?_⟩
        · cases gap with
          | false =>
            simp only [Bool.false_eq_true, ↓reduceIte]
            omega
          | true =>
            simp only [↓reduceIte, decide_eq_true_eq] at hend ⊢
            omega
        · rcases hchars d (hsuffix.subset hd) with hdigit | rfl
          · exact isAddressByte_of_digit hdigit
          · decide

theorem inetPton6_text (h : inetPton6 s = true) : s.length < inet6Addrstrlen ∧ ∀ c ∈ s, isAddressByte c = true := by
  have hsize : inet6Addrstrlen = 46 := rfl
  unfold inetPton6 at h
  split at h
  · rename_i rest
    rw [Bool.and_eq_true, decide_eq_true_eq] at h
    obtain ⟨hhead, hloop⟩ := h
    cases rest with
    | nil => cases hhead
    | cons c rest =>
      obtain rfl : c = 0x3A := by simpa using hhead
      -- The second colon opens the gap.
      have hgap : inetPton6Loop rest 0 (16 - 2 * 8) true rest = true := by
        have hhex : isHexdig 0x3A = false := by decide
        rw [inetPton6Loop, hhex] at hloop
        simpa using hloop
      obtain ⟨hlen, hchars⟩ := inetPton6Loop_text hgap (by omega) (by omega) (by simp) (suffix_refl rest)
      have hcolon : isAddressByte 0x3A = true := by decide
      refine ⟨?_, forall_mem_cons.mpr ⟨hcolon, forall_mem_cons.mpr ⟨hcolon, hchars⟩⟩⟩
      simp only [↓reduceIte] at hlen
      simp only [length_cons, hsize]
      omega
  · obtain ⟨hlen, hchars⟩ := inetPton6Loop_text (m := 8) h (by omega) (by omega) (by simp) (suffix_refl s)
    refine ⟨?_, hchars⟩
    simp only [Bool.false_eq_true, ↓reduceIte] at hlen
    omega

theorem IpvFuture.head (h : IpvFuture s) : s.head? = some 0x76 ∨ s.head? = some 0x56 := by
  cases h with
  | mk hv =>
    rcases hv with rfl | rfl
    · exact .inl rfl
    · exact .inr rfl

theorem uriIpLiteralIsValid_iff : uriIpLiteralIsValid s = true ↔ IpLiteral s := by
  cases s with
  | nil =>
    refine ⟨nofun, fun h => ?_⟩
    rcases h with h | h
    · cases h
    · rcases h.head with hhead | hhead <;> cases hhead
  | cons c rest =>
    by_cases hv : c = 0x76 ∨ c = 0x56
    · have hnot : inetPton6 (c :: rest) = true → False := by
        intro h
        have hbyte := (inetPton6_text h).2 c mem_cons_self
        rcases hv with rfl | rfl
        · exact absurd hbyte (by decide)
        · exact absurd hbyte (by decide)
      have hbool : (decide (c = 0x76) || decide (c = 0x56)) = true := by simpa using hv
      rw [uriIpLiteralIsValid, if_pos hbool, uriIpvFutureIsValid_iff hv]
      exact ⟨.inr, fun h => h.resolve_left hnot⟩
    · have hbool : ¬(decide (c = 0x76) || decide (c = 0x56)) = true := by simpa using hv
      rw [uriIpLiteralIsValid, if_neg hbool, Bool.and_eq_true, Bool.and_eq_true, decide_eq_true_eq]
      constructor
      · exact fun h => .inl h.2
      · rintro (h | h)
        · obtain ⟨hlen, hchars⟩ := inetPton6_text h
          exact ⟨⟨hlen, all_eq_true.mpr hchars⟩, h⟩
        · rcases h.head with hhead | hhead
          · exact absurd (.inl (by simpa using hhead)) hv
          · exact absurd (.inr (by simpa using hhead)) hv

/-! ## The parts of an authority -/

theorem splitUserinfo_none {authority : List UInt8} : splitUserinfo authority = none ↔ 0x40 ∉ authority := by
  simp [splitUserinfo]

theorem splitUserinfo_some {authority raw : List UInt8} :
    splitUserinfo authority = some raw ↔ ∃ rest, authority = raw ++ 0x40 :: rest ∧ 0x40 ∉ rest := by
  constructor
  · intro h
    have hmem : 0x40 ∈ authority := by
      by_contra hnot
      rw [splitUserinfo_none.mpr hnot] at h
      cases h
    obtain ⟨pre, rest, hsplit, hrest⟩ := eq_append_cons_of_mem (mem_reverse.mpr hmem)
    have hauth : authority = rest.reverse ++ 0x40 :: pre.reverse := by
      have hrev := congrArg List.reverse hsplit
      simpa using hrev
    have hpre : 0x40 ∉ pre.reverse := by simpa using hrest
    refine ⟨pre.reverse, ?_, hpre⟩
    rw [splitUserinfo, if_pos (by simpa using hmem), hauth, rdropWhile_append_cons hpre, dropLast_concat] at h
    obtain rfl := Option.some.inj h
    exact hauth
  · rintro ⟨rest, rfl, hrest⟩
    rw [splitUserinfo, if_pos (by simp), rdropWhile_append_cons hrest, dropLast_concat]

theorem unreserved_inside (h : uriUnreservedOrSubDelim c = true) :
    endsAuthority c = false ∧ c ≠ 0x3A ∧ c ≠ 0x40 ∧ c ≠ 0x5B ∧ c ≠ 0x5D ∧ c ≠ 0x25 := by
  refine ⟨?_, ?_, ?_, ?_, ?_, ?_⟩
  · rw [endsAuthority]
    by_contra hends
    simp only [Bool.or_eq_true, decide_eq_true_eq, Bool.not_eq_false] at hends
    rcases hends with (rfl | rfl) | rfl <;> exact absurd h (by decide)
  all_goals
    rintro rfl
    exact absurd h (by decide)

theorem RegName.inside (h : RegName s) (hc : c ∈ s) : endsAuthority c = false ∧ c ≠ 0x3A ∧ c ≠ 0x40 ∧ c ≠ 0x5B := by
  have hvalid := uriRegNameIsValid_iff.mpr h
  simp only [uriRegNameIsValid, Bool.and_eq_true] at hvalid
  rcases regName_bytes hvalid.2 c hc with rfl | hbyte
  · decide
  · have hin := unreserved_inside hbyte
    exact ⟨hin.1, hin.2.1, hin.2.2.1, hin.2.2.2.1⟩

theorem IpLiteral.inside (h : IpLiteral s) (hc : c ∈ s) : endsAuthority c = false ∧ c ≠ 0x40 ∧ c ≠ 0x5D := by
  have hname : uriUnreservedOrSubDelim c = true ∨ c = 0x3A := by
    rcases h with h | h
    · have hbyte := (inetPton6_text h).2 c hc
      simp only [isAddressByte, Bool.or_eq_true, decide_eq_true_eq] at hbyte
      rcases hbyte with (hhex | hcolon) | rfl
      · exact .inl (uriHexdig_unreserved hhex)
      · exact .inr hcolon
      · exact .inl (by decide)
    · cases h with
      | mk hv hversion hhex hrest hchars =>
        simp only [cons_append, mem_cons, mem_append] at hc
        rcases hc with rfl | hc | rfl | hc
        · rcases hv with rfl | rfl <;> exact .inl (by decide)
        · exact .inl (uriHexdig_unreserved (hhex c hc))
        · exact .inl (by decide)
        · exact hchars c hc
  rcases hname with hname | rfl
  · have hin := unreserved_inside hname
    exact ⟨hin.1, hin.2.2.1, hin.2.2.2.2.1⟩
  · decide

def endsHost (c : UInt8) : Bool := c = 0x3A || endsAuthority c

theorem endsHost_head {q : List UInt8} (h : ¬(q ≠ [] && !(q.headD 0 = 0x3A || endsAuthority (q.headD 0))) = true) :
    ∀ c ∈ q.head?, endsHost c = true := by
  intro c hc
  cases q with
  | nil => cases hc
  | cons d q =>
    obtain rfl : d = c := by simpa using hc
    simpa [endsHost, or_iff_not_imp_left] using h

theorem splitHost_ok {isIpv6 : Bool} {host q : List UInt8}
    (h : splitHost s (s.takeWhile (!endsAuthority ·)) = .ok (isIpv6, host, q)) :
    s = formatBracketedHost host isIpv6 ++ q ∧ (if isIpv6 then IpLiteral host else RegName host) ∧
      ∀ c ∈ q.head?, endsHost c = true := by
  simp only [splitHost] at h
  split at h
  · rename_i hbracket
    obtain ⟨s', rfl⟩ : ∃ s', s = 0x5B :: s' := by
      cases s with
      | nil => cases hbracket
      | cons c s => exact ⟨s, by simpa using hbracket⟩
    have hauth : (0x5B :: s').takeWhile (!endsAuthority ·) = 0x5B :: s'.takeWhile (!endsAuthority ·) :=
      takeWhile_cons_of_pos (by decide)
    rw [hauth] at h
    simp only [drop_succ_cons, drop_zero, length_cons] at h
    have hwhole := takeWhile_append_dropWhile (p := fun c => !endsAuthority c) (l := s')
    have hinner := takeWhile_append_dropWhile (p := fun c => decide (c ≠ 0x5D)) (l := s'.takeWhile (!endsAuthority ·))
    generalize s'.dropWhile (!endsAuthority ·) = behind at hwhole
    generalize s'.takeWhile (!endsAuthority ·) = authority at h hwhole hinner
    generalize authority.takeWhile (· ≠ 0x5D) = literal at h hinner
    split at h
    · cases h
    · rename_i hclosed
      split at h
      · cases h
      · rename_i hafter
        split at h
        · rename_i hvalid
          have hclose : ∃ r, authority.dropWhile (· ≠ 0x5D) = 0x5D :: r := by
            cases hdrop : authority.dropWhile (· ≠ 0x5D) with
            | nil =>
              rw [hdrop, append_nil] at hinner
              rw [hinner] at hclosed
              omega
            | cons c r =>
              have hc := List.head?_dropWhile_not (fun c => decide (c ≠ 0x5D)) authority
              rw [hdrop] at hc
              have hc' : c = 0x5D := by simpa using hc
              exact ⟨r, by rw [hc']⟩
          obtain ⟨r, hr⟩ := hclose
          rw [hr] at hinner
          have hs : (0x5B :: s') = 0x5B :: (literal ++ [0x5D]) ++ (r ++ behind) := by
            rw [← hwhole, ← hinner]
            simp
          have hq : (0x5B :: s').drop (literal.length + 2) = r ++ behind := by
            rw [hs]
            exact drop_left' (by simp)
          rw [← drop_succ_cons (a := 0x5B), hq] at hafter h
          obtain ⟨rfl, rfl, rfl⟩ := Prod.mk.inj (Except.ok.inj h) |>.imp_right Prod.mk.inj
          exact ⟨hs, uriIpLiteralIsValid_iff.mp hvalid, endsHost_head hafter⟩
        · cases h
  · rename_i hbracket
    split at h
    · rename_i hvalid
      obtain ⟨rfl, rfl, rfl⟩ := Prod.mk.inj (Except.ok.inj h) |>.imp_right Prod.mk.inj
      have hsplit := takeWhile_append_dropWhile (p := fun c => !(decide (c = 0x3A) || endsAuthority c)) (l := s)
      rw [drop_run]
      refine ⟨hsplit.symm, uriRegNameIsValid_iff.mp hvalid, fun c hc => ?_⟩
      have hhead := List.head?_dropWhile_not (fun c => !(decide (c = 0x3A) || endsAuthority c)) s
      rw [Option.mem_def.mp hc] at hhead
      simpa [endsHost, or_iff_not_imp_left] using hhead
    · cases h

theorem endsAuthority_inside {q : List UInt8} (hin : ∀ c ∈ s, endsAuthority c = false) :
    (s ++ q).takeWhile (!endsAuthority ·) = s ++ q.takeWhile (!endsAuthority ·) :=
  takeWhile_append_of_pos fun c hc => by simp [hin c hc]

theorem splitHost_eq {isIpv6 : Bool} {host q : List UInt8} (hhost : if isIpv6 then IpLiteral host else RegName host)
    (hq : ∀ c ∈ q.head?, endsHost c = true) :
    splitHost (formatBracketedHost host isIpv6 ++ q) ((formatBracketedHost host isIpv6 ++ q).takeWhile (!endsAuthority ·)) =
      .ok (isIpv6, host, q) := by
  cases isIpv6 with
  | true =>
    have hlit : IpLiteral host := hhost
    have htext : formatBracketedHost host true ++ q = (0x5B :: host ++ [0x5D]) ++ q := rfl
    have hauth : ((0x5B :: host ++ [0x5D]) ++ q).takeWhile (!endsAuthority ·) =
        0x5B :: (host ++ 0x5D :: q.takeWhile (!endsAuthority ·)) := by
      rw [endsAuthority_inside]
      · simp
      · intro c hc
        simp only [cons_append, mem_cons, mem_append] at hc
        rcases hc with rfl | hc | hc
        · decide
        · exact (hlit.inside hc).1
        · rcases hc with rfl | hc
          · decide
          · cases hc
    have hliteral : (host ++ 0x5D :: q.takeWhile (!endsAuthority ·)).takeWhile (· ≠ 0x5D) = host :=
      takeWhile_run (fun c hc => by simpa using (hlit.inside hc).2.2) (by simp)
    have hdrop : ((0x5B :: host ++ [0x5D]) ++ q).drop (host.length + 2) = q := drop_left' (by simp)
    have hshort : ¬host.length + 1 ≥ (0x5B :: (host ++ 0x5D :: q.takeWhile (!endsAuthority ·))).length := by
      simp
    have hafter : ¬(q ≠ [] && !(q.headD 0 = 0x3A || endsAuthority (q.headD 0))) = true := by
      cases q with
      | nil => simp
      | cons c q =>
        have hc := hq c rfl
        simpa [endsHost, or_iff_not_imp_left] using hc
    have hhead : ((0x5B :: host ++ [0x5D]) ++ q).head? = some 0x5B := rfl
    rw [htext, splitHost, hauth, if_pos hhead]
    simp only [drop_succ_cons, drop_zero, hliteral]
    rw [if_neg hshort, hdrop, if_neg hafter, if_pos (uriIpLiteralIsValid_iff.mpr hlit)]
  | false =>
    have hname : RegName host := hhost
    have htext : formatBracketedHost host false ++ q = host ++ q := rfl
    have hhead : ¬(host ++ q).head? = some 0x5B := by
      cases host with
      | nil => exact absurd rfl hname.1
      | cons c host =>
        have hc := (hname.inside mem_cons_self).2.2.2
        simpa using hc
    have hhost' : (host ++ q).takeWhile (fun c => !(decide (c = 0x3A) || endsAuthority c)) = host := by
      apply takeWhile_run
      · intro c hc
        have hin := hname.inside hc
        simp [hin.1, hin.2.1]
      · intro c hc
        have hends := hq c hc
        simpa [endsHost, or_iff_not_imp_left] using hends
    rw [htext, splitHost, if_neg hhead]
    simp only [hhost']
    rw [if_pos (uriRegNameIsValid_iff.mpr hname), drop_left]

/-! ## Ports -/

def digitsFrom (v : Nat) (digits : List UInt8) : Nat := digits.foldl (fun v d => v * 10 + (d.toNat - 0x30)) v

theorem digitsFrom_ge (digits : List UInt8) (v : Nat) : v ≤ digitsFrom v digits :=
  (Nat.le_mul_of_pos_right v (Nat.pow_pos (by decide))).trans (foldl_digits_ge digits v)

theorem portDigits_iff {digits : List UInt8} {v w : Nat} (hv : v ≤ 65535) :
    portDigits v digits = some w ↔ w = digitsFrom v digits ∧ digitsFrom v digits ≤ 65535 := by
  induction digits generalizing v with
  | nil =>
    simp only [portDigits, digitsFrom, foldl_nil, Option.some.injEq]
    exact ⟨fun h => ⟨h.symm, hv⟩, fun h => h.1.symm⟩
  | cons c digits ih =>
    have hcons : digitsFrom v (c :: digits) = digitsFrom (v * 10 + (c.toNat - 0x30)) digits := rfl
    rw [portDigits, hcons]
    by_cases hbig : v * 10 + (c.toNat - 0x30) > 65535
    · rw [if_pos hbig]
      have hge := digitsFrom_ge digits (v * 10 + (c.toNat - 0x30))
      exact ⟨nofun, fun h => by omega⟩
    · rw [if_neg hbig]
      exact ih (by omega)

def portOf (https : Bool) : Option (List UInt8) → Nat
  | none | some [] => if https then 443 else 80
  | some digits => digitsFrom 0 digits

theorem splitPort_ok {https : Bool} {q rest : List UInt8} {port : Nat} (hq : ∀ c ∈ q.head?, endsHost c = true)
    (h : splitPort https q = .ok (port, rest)) :
    ∃ text, q = text.elim [] (0x3A :: ·) ++ rest ∧ (∀ digits, text = some digits → PortDigits digits) ∧ port = portOf https text ∧
      ∀ c ∈ rest.head?, endsAuthority c = true := by
  cases q with
  | nil =>
    cases h
    exact ⟨none, rfl, nofun, rfl, nofun⟩
  | cons c s =>
    simp only [splitPort] at h
    split at h
    · rename_i hcolon
      cases h
      refine ⟨none, rfl, nofun, rfl, fun d hd => ?_⟩
      obtain rfl : c = d := by simpa using hd
      have hc := hq c rfl
      simpa [endsHost, hcolon] using hc
    · rename_i hcolon
      obtain rfl : c = 0x3A := by simpa using hcolon
      have hwhole := takeWhile_append_dropWhile (p := isDigit) (l := s)
      have hdigits : ∀ c ∈ s.takeWhile isDigit, isDigit c = true := fun c hc => mem_takeWhile_imp hc
      rw [drop_run] at h
      generalize s.takeWhile isDigit = digits at h hwhole hdigits
      generalize s.dropWhile isDigit = behind at h hwhole
      cases hvalue : portDigits 0 digits with
      | none => simp [hvalue] at h
      | some v =>
        simp only [hvalue] at h
        obtain ⟨rfl, hmax⟩ := (portDigits_iff (Nat.zero_le _)).mp hvalue
        split at h
        · cases h
        · rename_i hzero
          split at h
          · cases h
          · rename_i hends
            have hbehind : ∀ c ∈ behind.head?, endsAuthority c = true := by
              intro c hc
              cases behind with
              | nil => cases hc
              | cons d behind =>
                obtain rfl : d = c := by simpa using hc
                simpa using hends
            obtain ⟨hport, rfl⟩ := Prod.mk.inj (Except.ok.inj h)
            refine ⟨some digits, ?_, ?_, ?_, hbehind⟩
            · rw [← hwhole]
              rfl
            · rintro d ⟨⟩
              refine ⟨hdigits, fun hne => ⟨?_, hmax⟩⟩
              have hpos : digitsFrom 0 digits ≠ 0 := by simpa [hne] using hzero
              exact Nat.one_le_iff_ne_zero.mpr hpos
            · rw [← hport]
              cases digits with
              | nil => rfl
              | cons d digits => simp [portOf]

theorem splitPort_eq {https : Bool} {rest : List UInt8}
    (htext : ∀ digits, text = some digits → PortDigits digits) (hrest : ∀ c ∈ rest.head?, endsAuthority c = true) :
    splitPort https (text.elim [] (0x3A :: ·) ++ rest) = .ok (portOf https text, rest) := by
  cases text with
  | none =>
    cases rest with
    | nil => rfl
    | cons c rest =>
      have hc : c ≠ 0x3A := by
        rintro rfl
        exact absurd (hrest 0x3A rfl) (by decide)
      change splitPort https (c :: rest) = _
      rw [splitPort]
      simp only [hc, ne_eq, not_false_eq_true, ↓reduceIte]
      rfl
  | some digits =>
    have hok := htext digits rfl
    have hstop : ∀ c ∈ rest.head?, isDigit c = false := by
      intro c hc
      have hends := hrest c hc
      simp only [endsAuthority, Bool.or_eq_true, decide_eq_true_eq] at hends
      rcases hends with (rfl | rfl) | rfl <;> rfl
    have hmax : digitsFrom 0 digits ≤ 65535 := by
      cases digits with
      | nil => exact Nat.zero_le _
      | cons d digits => exact (hok.value (cons_ne_nil _ _)).2
    have hvalue := (portDigits_iff (Nat.zero_le _)).mpr ⟨rfl, hmax⟩
    have hzero : ¬(digits ≠ [] && digitsFrom 0 digits = 0) = true := by
      cases digits with
      | nil => simp
      | cons d digits =>
        have hone : 1 ≤ digitsFrom 0 (d :: digits) := (hok.value (cons_ne_nil _ _)).1
        have hne : digitsFrom 0 (d :: digits) ≠ 0 := by omega
        simp [hne]
    have hends : ¬(rest ≠ [] && !endsAuthority (rest.headD 0)) = true := by
      cases rest with
      | nil => simp
      | cons c rest => simp [hrest c rfl]
    change splitPort https (0x3A :: (digits ++ rest)) = _
    rw [splitPort]
    simp only [ne_eq, not_true_eq_false, ↓reduceIte, takeWhile_run hok.chars hstop, hvalue]
    rw [if_neg (by simpa using hzero), if_neg (by simpa using hends)]
    cases digits with
    | nil => rfl
    | cons d digits => simp [portOf]

/-! ## Targets -/

theorem slashed_iff {pq : List UInt8} : buildRequestTarget pq = .ok t ↔ Encodes (slashed pq) t := by
  rw [← encodeTarget_iff, buildRequestTarget, slashed]
  by_cases hslash : pq.head? = some 0x2F
  · simp only [hslash, if_true]
    cases encodeTarget pq <;> simp [Except.map]
  · have hbyte : encodeTarget (0x2F :: pq) = (encodeTarget pq).map (0x2F :: ·) := by
      rw [encodeTarget_byte (by decide), if_pos (by decide)]
    simp only [hslash, if_false, hbyte]

theorem requestTarget_bare {tail : List UInt8} (h : (tail.isEmpty || tail.head? = some 0x23) = true) :
    requestTarget tail = buildRequestTarget [0x2F] := by
  have hslash : ascii "/" = [0x2F] := rfl
  simp only [requestTarget, h, if_true, hslash]
  rfl

theorem encodes_slash (h : Encodes (slashed []) t) : t = [0x2F] := by
  have hok := encodeTarget_iff.mpr h
  exact (Except.ok.inj hok).symm

theorem tail_nil {fragment : List UInt8} (h : fragment = [] ∨ fragment.head? = some 0x23) : Tail [] fragment :=
  ⟨.inl rfl, .nil, not_mem_nil, not_mem_nil, not_mem_nil, h⟩

theorem Encodes.unslash {pq : List UInt8} (h : Encodes (slashed pq) t) : Escaped (· ≠ 0x25) pq := by
  have hescaped := h.escaped
  rw [slashed] at hescaped
  split at hescaped
  · exact hescaped
  · generalize hs : 0x2F :: pq = s at hescaped
    cases hescaped with
    | nil => cases hs
    | byte hc hpct hrest =>
      obtain ⟨-, rfl⟩ := List.cons.inj hs
      exact hrest
    | escape ha hb hrest =>
      have hbad := (List.cons.inj hs).1
      exact absurd hbad (by decide)

theorem requestTarget_ok {tail : List UInt8} (htail : ∀ c ∈ tail.head?, endsAuthority c = true) (h : requestTarget tail = .ok t) :
    ∃ pq fragment, tail = pq ++ fragment ∧ Tail pq fragment ∧ Encodes (slashed pq) t := by
  by_cases hbare : (tail.isEmpty || tail.head? = some 0x23) = true
  · rw [requestTarget_bare hbare] at h
    have hfragment : tail = [] ∨ tail.head? = some 0x23 := by simpa using hbare
    exact ⟨[], tail, rfl, tail_nil hfragment, slashed_iff.mp h⟩
  · have hwhole := takeWhile_append_dropWhile (p := fun c => decide (c ≠ 0x23)) (l := tail)
    have hhash : 0x23 ∉ tail.takeWhile (· ≠ 0x23) := fun hmem => by simpa using mem_takeWhile_imp hmem
    have hfragment : tail.dropWhile (· ≠ 0x23) = [] ∨ (tail.dropWhile (· ≠ 0x23)).head? = some 0x23 := by
      have hhead := List.head?_dropWhile_not (fun c => decide (c ≠ 0x23)) tail
      cases hdrop : tail.dropWhile (· ≠ 0x23) with
      | nil => exact .inl rfl
      | cons c r =>
        rw [hdrop] at hhead
        have hc : c = 0x23 := by simpa using hhead
        exact .inr (by simp [hc])
    have hstart : (tail.takeWhile (· ≠ 0x23)).head? = some 0x2F ∨ (tail.takeWhile (· ≠ 0x23)).head? = some 0x3F := by
      cases tail with
      | nil => simp at hbare
      | cons c r =>
        have hc := htail c rfl
        have hne : c ≠ 0x23 := by simpa using hbare
        simp only [endsAuthority, Bool.or_eq_true, decide_eq_true_eq, hne, or_false] at hc
        rw [takeWhile_cons_of_pos (by simpa using hne)]
        simpa using hc
    simp only [requestTarget, hbare] at h
    simp only [Bool.false_eq_true, ↓reduceIte] at h
    split at h
    · cases h
    · rename_i hlines
      have hcrlf : 0x0D ∉ tail.takeWhile (· ≠ 0x23) ∧ 0x0A ∉ tail.takeWhile (· ≠ 0x23) := by simpa using hlines
      have hencodes := slashed_iff.mp h
      exact ⟨_, _, hwhole.symm, ⟨.inr hstart, hencodes.unslash, hhash, hcrlf.1, hcrlf.2, hfragment⟩, hencodes⟩

theorem requestTarget_eq {pq fragment : List UInt8} (h : Tail pq fragment) (ht : Encodes (slashed pq) t) :
    requestTarget (pq ++ fragment) = .ok t := by
  by_cases hpq : pq = []
  · subst hpq
    have hbare : (fragment.isEmpty || fragment.head? = some 0x23) = true := by simpa using h.fragment
    rw [nil_append, requestTarget_bare hbare, encodes_slash ht]
    rfl
  · have hhash : ∀ c ∈ pq, decide (c ≠ 0x23) = true := fun c hc => decide_eq_true fun heq => h.noHash (heq ▸ hc)
    have hstop : ∀ c ∈ fragment.head?, decide (c ≠ 0x23) = false := by
      intro c hc
      rcases h.fragment with rfl | hhead
      · cases hc
      · rw [hhead] at hc
        simpa using (Option.some.inj hc).symm
    have hbare : ¬((pq ++ fragment).isEmpty || (pq ++ fragment).head? = some 0x23) = true := by
      cases pq with
      | nil => exact absurd rfl hpq
      | cons c pq =>
        have hc := hhash c mem_cons_self
        simpa using hc
    have htake : (pq ++ fragment).takeWhile (· ≠ 0x23) = pq := takeWhile_run hhash hstop
    have hlines : ¬(pq.contains 0x0D || pq.contains 0x0A) = true := by simpa using ⟨h.noCr, h.noLf⟩
    simp only [requestTarget, hbare]
    simp only [Bool.false_eq_true, ↓reduceIte, htake]
    rw [if_neg hlines]
    exact slashed_iff.mpr ht

/-! ## Credentials -/

theorem chttpHasCtl_iff : chttpHasCtl s = false ↔ NoCtl s := by
  simp only [chttpHasCtl, NoCtl, any_eq_false, Bool.or_eq_true, decide_eq_true_eq, not_or, UInt8.not_lt]

theorem userinfoAuthorization_ok {raw auth : List UInt8} (h : userinfoAuthorization raw = .ok auth) :
    ∃ user pass, Userinfo raw user pass ∧ NoCtl user ∧ NoCtl pass ∧
      auth = ascii "Basic " ++ chttpBase64Encode (user ++ 0x3A :: pass) := by
  rw [userinfoAuthorization] at h
  split at h
  · cases h
  · rename_i hvalid
    obtain ⟨user, huser, h⟩ := except_bind_ok h
    obtain ⟨pass, hpass, h⟩ := except_bind_ok h
    split at h
    · cases h
    · rename_i hcolon
      split at h
      · rename_i auth' hauth
        obtain rfl := Except.ok.inj h
        rw [chttpBasicAuth] at hauth
        split at hauth
        · cases hauth
        · rename_i hclean
          simp only [Bool.or_eq_true, not_or, Bool.not_eq_true] at hclean
          refine ⟨user, pass, ⟨?_, percentDecodeComponent_iff.mp huser, percentDecodeComponent_iff.mp hpass, ?_⟩,
            chttpHasCtl_iff.mp hclean.1.2, chttpHasCtl_iff.mp hclean.2, (Option.some.inj hauth).symm⟩
          · intro c hc
            have hall : uriUserinfoIsValid raw = true := by simpa using hvalid
            have hbyte := all_eq_true.mp hall c hc
            simp only [Bool.or_eq_true, decide_eq_true_eq, or_assoc] at hbyte
            exact hbyte
          · simpa using hcolon
      · cases h

theorem userinfoAuthorization_eq {raw user pass : List UInt8} (h : Userinfo raw user pass) (huser : NoCtl user) (hpass : NoCtl pass) :
    userinfoAuthorization raw = .ok (ascii "Basic " ++ chttpBase64Encode (user ++ 0x3A :: pass)) := by
  have hvalid : uriUserinfoIsValid raw = true := by
    refine all_eq_true.mpr fun c hc => ?_
    have hbyte := h.chars c hc
    simpa only [Bool.or_eq_true, decide_eq_true_eq, or_assoc] using hbyte
  have hcolon : ¬user.contains 0x3A = true := by simpa using h.colon
  have hclean : ¬(user.contains 0x3A || chttpHasCtl user || chttpHasCtl pass) = true := by
    simp [h.colon, chttpHasCtl_iff.mpr huser, chttpHasCtl_iff.mpr hpass]
  rw [userinfoAuthorization, hvalid, percentDecodeComponent_iff.mpr h.userDecodes, percentDecodeComponent_iff.mpr h.passDecodes]
  simp only [Bool.not_true, Bool.false_eq_true, ↓reduceIte, bind, Except.bind, chttpBasicAuth]
  rw [if_neg hcolon, if_neg hclean]

/-! ## Whole URLs -/

variable {u : ChttpUrl} {user pass : List UInt8}

theorem Userinfo.inside {raw : List UInt8} (h : Userinfo raw user pass) : ∀ c ∈ raw ++ [0x40], endsAuthority c = false := by
  intro c hc
  rcases mem_append.mp hc with hc | hc
  · rcases h.chars c hc with hbyte | rfl | rfl | rfl
    · exact (unreserved_inside hbyte).1
    all_goals decide
  · obtain rfl := mem_singleton.mp hc
    decide

theorem portOf_eq (t : NetworkParts) : portOf t.https t.port = t.portValue := by
  cases t with
  | mk https userinfo isIpv6 host port pq fragment =>
    cases port with
    | none => rfl
    | some digits => cases digits <;> rfl

theorem parseNetworkUrl_rest {https isIpv6 : Bool} {host p q q' target : List UInt8} {port : Nat}
    (hhost : splitHost p (p.takeWhile (!endsAuthority ·)) = .ok (isIpv6, host, q)) (hport : splitPort https q = .ok (port, q'))
    (htarget : requestTarget q' = .ok target) :
    ∃ text pq fragment, p = formatBracketedHost host isIpv6 ++ (text.elim [] (0x3A :: ·) ++ (pq ++ fragment)) ∧
      (if isIpv6 then IpLiteral host else RegName host) ∧ (∀ digits, text = some digits → PortDigits digits) ∧
      port = portOf https text ∧ Tail pq fragment ∧ Encodes (slashed pq) target := by
  obtain ⟨hp, hvalid, hq⟩ := splitHost_ok hhost
  obtain ⟨text, hq', hdigits, hvalue, hends⟩ := splitPort_ok hq hport
  obtain ⟨pq, fragment, htail, hok, hencodes⟩ := requestTarget_ok hends htarget
  exact ⟨text, pq, fragment, by rw [hp, hq', htail], hvalid, hdigits, hvalue, hok, hencodes⟩

theorem parseNetworkUrl_ok {https : Bool} {p : List UInt8} (h : parseNetworkUrl https p = .ok u) :
    ∃ (t : NetworkParts) (user pass : List UInt8), t.text = p ∧ t.https = https ∧ t.Ok user pass ∧ t.Gives user pass u := by
  rw [parseNetworkUrl] at h
  obtain ⟨auth, hauth, h⟩ := except_bind_ok h
  obtain ⟨⟨isIpv6, host, q⟩, hhost, h⟩ := except_bind_ok h
  obtain ⟨⟨port, q'⟩, hport, h⟩ := except_bind_ok h
  obtain ⟨target, htarget, h⟩ := except_bind_ok h
  cases h
  cases hinfo : splitUserinfo (p.takeWhile (!endsAuthority ·)) with
  | none =>
    rw [hinfo] at hhost hauth
    simp only [Option.map_none, Option.getD_none, drop_zero] at hhost
    obtain rfl := Except.ok.inj hauth
    obtain ⟨text, pq, fragment, hp, hvalid, hdigits, hvalue, htail, hencodes⟩ := parseNetworkUrl_rest hhost hport htarget
    refine ⟨⟨https, none, isIpv6, host, text, pq, fragment⟩, [], [], ?_, rfl,
      ⟨by rintro _ ⟨⟩, hvalid, hdigits, htail⟩, ?_⟩
    · simp [NetworkParts.text, hp]
    · have hport' : port = NetworkParts.portValue ⟨https, none, isIpv6, host, text, pq, fragment⟩ :=
        hvalue.trans (portOf_eq ⟨https, none, isIpv6, host, text, pq, fragment⟩)
      exact ⟨rfl, rfl, rfl, rfl, rfl, hport', hencodes, by rw [hport'], rfl⟩
  | some raw =>
    rw [hinfo] at hhost hauth
    obtain ⟨auth', hauth', rfl⟩ := except_map_ok hauth
    obtain ⟨user, pass, huserinfo, huser, hpass, rfl⟩ := userinfoAuthorization_ok hauth'
    obtain ⟨rest, hsplit, -⟩ := splitUserinfo_some.mp hinfo
    have hwhole := takeWhile_append_dropWhile (p := fun c => !endsAuthority c) (l := p)
    rw [hsplit] at hwhole hhost
    have hin := huserinfo.inside
    have hp : p = raw ++ [0x40] ++ (rest ++ p.dropWhile (!endsAuthority ·)) := by
      conv_lhs => rw [← hwhole]
      simp
    generalize p.dropWhile (!endsAuthority ·) = behind at hp
    have hdrop : p.drop (raw.length + 1) = rest ++ behind := by
      rw [hp]
      exact drop_left' (by simp)
    have hdrop' : (raw ++ 0x40 :: rest).drop (raw.length + 1) = rest := by
      rw [append_cons]
      exact drop_left' (by simp)
    have hrest : (rest ++ behind).takeWhile (!endsAuthority ·) = rest := by
      rw [hp, endsAuthority_inside hin] at hsplit
      simpa using hsplit
    simp only [Option.map_some, Option.getD_some, hdrop, hdrop'] at hhost
    have hhost' : splitHost (rest ++ behind) ((rest ++ behind).takeWhile (!endsAuthority ·)) = .ok (isIpv6, host, q) := by
      rw [hrest]
      exact hhost
    obtain ⟨text, pq, fragment, hrest', hvalid, hdigits, hvalue, htail, hencodes⟩ := parseNetworkUrl_rest hhost' hport htarget
    refine ⟨⟨https, some raw, isIpv6, host, text, pq, fragment⟩, user, pass, ?_, rfl, ⟨?_, hvalid, hdigits, htail⟩, ?_⟩
    · simp [NetworkParts.text, hp, hrest']
    · rintro raw' ⟨⟩
      exact ⟨huserinfo, huser, hpass⟩
    · have hport' : port = NetworkParts.portValue ⟨https, some raw, isIpv6, host, text, pq, fragment⟩ :=
        hvalue.trans (portOf_eq ⟨https, some raw, isIpv6, host, text, pq, fragment⟩)
      exact ⟨rfl, rfl, rfl, rfl, rfl, hport', hencodes, by rw [hport'], rfl⟩

theorem Tail.ends {pq fragment : List UInt8} (h : Tail pq fragment) : ∀ c ∈ (pq ++ fragment).head?, endsAuthority c = true := by
  intro c hc
  have hcases : c = 0x2F ∨ c = 0x3F ∨ c = 0x23 := by
    cases pq with
    | nil =>
      rcases h.fragment with rfl | hhead
      · cases hc
      · rw [nil_append, hhead] at hc
        exact .inr (.inr (by simpa using hc.symm))
    | cons d pq =>
      obtain rfl : d = c := by simpa using hc
      rcases h.start with hnil | hhead | hhead
      · cases hnil
      · exact .inl (by simpa using hhead)
      · exact .inr (.inl (by simpa using hhead))
  rcases hcases with rfl | rfl | rfl <;> rfl

theorem hostPort_inside {isIpv6 : Bool} {host : List UInt8}
    (hhost : if isIpv6 then IpLiteral host else RegName host) (htext : ∀ digits, text = some digits → PortDigits digits) :
    ∀ c ∈ formatBracketedHost host isIpv6 ++ text.elim [] (0x3A :: ·), endsAuthority c = false ∧ c ≠ 0x40 := by
  intro c hc
  rcases mem_append.mp hc with hc | hc
  · cases isIpv6 with
    | false =>
      have hin := RegName.inside hhost hc
      exact ⟨hin.1, hin.2.2.1⟩
    | true =>
      simp only [formatBracketedHost, if_true, cons_append, mem_cons, mem_append] at hc
      rcases hc with rfl | hc | hc
      · decide
      · have hin := IpLiteral.inside hhost hc
        exact ⟨hin.1, hin.2.1⟩
      · rcases hc with rfl | hc
        · decide
        · cases hc
  · cases text with
    | none => cases hc
    | some digits =>
      rcases mem_cons.mp hc with rfl | hc
      · decide
      · have hdigit := (htext digits rfl).chars c hc
        refine ⟨?_, ?_⟩
        · rw [endsAuthority]
          by_contra hends
          simp only [Bool.or_eq_true, decide_eq_true_eq, Bool.not_eq_false] at hends
          rcases hends with (rfl | rfl) | rfl <;> exact absurd hdigit (by decide)
        · rintro rfl
          exact absurd hdigit (by decide)

structure AuthoritySplit (https isIpv6 : Bool) (host : List UInt8) (text : Option (List UInt8)) (q : List UInt8) : Prop where
  authority : (formatBracketedHost host isIpv6 ++ (text.elim [] (0x3A :: ·) ++ q)).takeWhile (!endsAuthority ·) =
    formatBracketedHost host isIpv6 ++ text.elim [] (0x3A :: ·)
  noAt : 0x40 ∉ formatBracketedHost host isIpv6 ++ text.elim [] (0x3A :: ·)
  host : splitHost (formatBracketedHost host isIpv6 ++ (text.elim [] (0x3A :: ·) ++ q))
    ((formatBracketedHost host isIpv6 ++ (text.elim [] (0x3A :: ·) ++ q)).takeWhile (!endsAuthority ·)) =
      .ok (isIpv6, host, text.elim [] (0x3A :: ·) ++ q)
  port : splitPort https (text.elim [] (0x3A :: ·) ++ q) = .ok (portOf https text, q)

theorem authoritySplit {https isIpv6 : Bool} {host : List UInt8} {q : List UInt8}
    (hhost : if isIpv6 then IpLiteral host else RegName host) (htext : ∀ digits, text = some digits → PortDigits digits)
    (hends : ∀ c ∈ q.head?, endsAuthority c = true) : AuthoritySplit https isIpv6 host text q := by
  have hinside := hostPort_inside hhost htext
  have hhostPort : ∀ c ∈ (text.elim [] (0x3A :: ·) ++ q).head?, endsHost c = true := by
    intro c hc
    cases text with
    | none =>
      have hc' := hends c hc
      simp [endsHost, hc']
    | some digits =>
      obtain rfl : 0x3A = c := by simpa using hc
      rfl
  refine ⟨?_, fun hmem => (hinside _ hmem).2 rfl, splitHost_eq hhost hhostPort, splitPort_eq htext hends⟩
  rw [← append_assoc]
  exact takeWhile_run (fun c hc => by simp [(hinside c hc).1]) (fun c hc => by simp [hends c hc])

theorem parseNetworkUrl_plain {https isIpv6 : Bool} {host : List UInt8} {q : List UInt8}
    (hhost : if isIpv6 then IpLiteral host else RegName host) (htext : ∀ digits, text = some digits → PortDigits digits)
    (hends : ∀ c ∈ q.head?, endsAuthority c = true) :
    parseNetworkUrl https (formatBracketedHost host isIpv6 ++ (text.elim [] (0x3A :: ·) ++ q)) =
      (requestTarget q).map fun target => ⟨https, isIpv6, false, [], host, portOf https text, target,
        originKeyOf https isIpv6 host (portOf https text), none⟩ := by
  have hsplit : AuthoritySplit https isIpv6 host text q := authoritySplit hhost htext hends
  have hinfo := splitUserinfo_none.mpr hsplit.noAt
  rw [← hsplit.authority] at hinfo
  simp only [parseNetworkUrl, hinfo, urlAuthorization, Option.map_none, Option.getD_none, drop_zero, hsplit.host, hsplit.port, bind,
    Except.bind]
  cases requestTarget q <;> rfl

theorem parseNetworkUrl_of {t : NetworkParts} (hgives : t.Gives user pass u) {p p' : List UInt8} {info : Option (List UInt8)}
    {q q' : List UInt8} (hinfo : splitUserinfo (p.takeWhile (!endsAuthority ·)) = info)
    (hauth : urlAuthorization info = .ok u.userinfoAuthorization)
    (hp' : p.drop ((info.map (·.length + 1)).getD 0) = p')
    (hauthority : (p.takeWhile (!endsAuthority ·)).drop ((info.map (·.length + 1)).getD 0) = p'.takeWhile (!endsAuthority ·))
    (hhost : splitHost p' (p'.takeWhile (!endsAuthority ·)) = .ok (t.isIpv6, t.host, q))
    (hport : splitPort t.https q = .ok (t.portValue, q')) (htarget : requestTarget q' = .ok u.pathAndQuery) :
    parseNetworkUrl t.https p = .ok u := by
  have hu : u = ⟨t.https, t.isIpv6, false, [], t.host, t.portValue, u.pathAndQuery,
      originKeyOf t.https t.isIpv6 t.host t.portValue, u.userinfoAuthorization⟩ := by
    cases u
    rw [ChttpUrl.mk.injEq]
    exact ⟨hgives.isHttps, hgives.isIpv6, hgives.isUnix, hgives.unixSocketPath, hgives.host, hgives.port, rfl, hgives.originKey, rfl⟩
  rw [parseNetworkUrl]
  simp only [hinfo, hauth, hp', hauthority, hhost, hport, htarget, bind, Except.bind]
  exact congrArg Except.ok hu.symm

theorem parseNetworkUrl_eq {t : NetworkParts} (hok : t.Ok user pass) (hgives : t.Gives user pass u) :
    parseNetworkUrl t.https t.text = .ok u := by
  obtain ⟨hauthority, hat, hhost, hport⟩ : AuthoritySplit t.https t.isIpv6 t.host t.port (t.pq ++ t.fragment) :=
    authoritySplit hok.host hok.port hok.tail.ends
  rw [portOf_eq] at hport
  have htarget := requestTarget_eq hok.tail hgives.pathAndQuery
  cases hinfo : t.userinfo with
  | none =>
    have htext : t.text = formatBracketedHost t.host t.isIpv6 ++ (t.port.elim [] (0x3A :: ·) ++ (t.pq ++ t.fragment)) := by
      simp [NetworkParts.text, hinfo]
    have hauth : u.userinfoAuthorization = none := by rw [hgives.authorization, hinfo]; rfl
    have hsplit := splitUserinfo_none.mpr hat
    rw [← hauthority] at hsplit
    rw [htext]
    refine parseNetworkUrl_of hgives hsplit ?_ rfl rfl hhost hport htarget
    rw [hauth]
    rfl
  | some raw =>
    obtain ⟨huserinfo, huser, hpass⟩ := hok.userinfo raw hinfo
    have htext : t.text = raw ++ [0x40] ++
        (formatBracketedHost t.host t.isIpv6 ++ (t.port.elim [] (0x3A :: ·) ++ (t.pq ++ t.fragment))) := by
      simp [NetworkParts.text, hinfo]
    have hauth : u.userinfoAuthorization = some (ascii "Basic " ++ chttpBase64Encode (user ++ 0x3A :: pass)) := by
      rw [hgives.authorization, hinfo]
      rfl
    have hin := huserinfo.inside
    have hsplit : splitUserinfo ((raw ++ [0x40] ++ (formatBracketedHost t.host t.isIpv6 ++
        (t.port.elim [] (0x3A :: ·) ++ (t.pq ++ t.fragment)))).takeWhile (!endsAuthority ·)) = some raw := by
      rw [endsAuthority_inside hin, hauthority]
      exact splitUserinfo_some.mpr ⟨_, by simp, hat⟩
    rw [htext]
    refine parseNetworkUrl_of hgives hsplit ?_ ?_ ?_ hhost hport htarget
    · rw [hauth, urlAuthorization, userinfoAuthorization_eq huserinfo huser hpass]
      rfl
    · exact drop_left' (by simp)
    · rw [endsAuthority_inside hin]
      exact drop_left' (by simp)

theorem parseChttpUnixUrl_ok {p : List UInt8} (h : parseChttpUnixUrl p = .ok u) :
    ∃ (t : UnixParts) (socket : List UInt8), t.text = p ∧ t.Ok socket ∧ t.Gives socket u := by
  simp only [parseChttpUnixUrl] at h
  split at h
  · cases h
  · rename_i hempty
    obtain ⟨path, hpath, h⟩ := except_bind_ok h
    obtain ⟨target, htarget, h⟩ := except_bind_ok h
    cases h
    have hwhole := takeWhile_append_dropWhile (p := fun c => !endsAuthority c) (l := p)
    have hends : ∀ c ∈ (p.dropWhile (!endsAuthority ·)).head?, endsAuthority c = true := by
      intro c hc
      have hhead := List.head?_dropWhile_not (fun c => !endsAuthority c) p
      rw [Option.mem_def.mp hc] at hhead
      simpa using hhead
    rw [drop_run] at htarget
    obtain ⟨pq, fragment, htail, hok, hencodes⟩ := requestTarget_ok hends htarget
    refine ⟨⟨p.takeWhile (!endsAuthority ·), pq, fragment⟩, path, ?_, ⟨hempty, ?_, percentDecodeComponent_iff.mp hpath, hok⟩,
      ⟨rfl, rfl, rfl, rfl, rfl, rfl, hencodes, rfl, rfl⟩⟩
    · rw [UnixParts.text, ← htail]
      exact hwhole
    · intro c hc
      simpa using mem_takeWhile_imp hc

theorem parseChttpUnixUrl_plain {path socket q : List UInt8} (hne : path ≠ []) (hinside : ∀ c ∈ path, endsAuthority c = false)
    (hsocket : Decodes path socket) (hends : ∀ c ∈ q.head?, endsAuthority c = true) :
    parseChttpUnixUrl (path ++ q) =
      (requestTarget q).map fun target => ⟨false, false, true, socket, [], 0, target, ascii "unix://" ++ socket, none⟩ := by
  have htake : (path ++ q).takeWhile (!endsAuthority ·) = path :=
    takeWhile_run (fun c hc => by simp [hinside c hc]) (fun c hc => by simp [hends c hc])
  simp only [parseChttpUnixUrl, htake, hne, ↓reduceIte, drop_left, percentDecodeComponent_iff.mpr hsocket, bind, Except.bind]
  cases requestTarget q <;> rfl

theorem parseChttpUnixUrl_eq {t : UnixParts} {socket : List UInt8} (hok : t.Ok socket) (hgives : t.Gives socket u) :
    parseChttpUnixUrl t.text = .ok u := by
  have hu : u = ⟨false, false, true, socket, [], 0, u.pathAndQuery, ascii "unix://" ++ socket, none⟩ := by
    cases u
    rw [ChttpUrl.mk.injEq]
    exact ⟨hgives.isHttps, hgives.isIpv6, hgives.isUnix, hgives.unixSocketPath, hgives.host, hgives.port, rfl, hgives.originKey,
      hgives.authorization⟩
  rw [UnixParts.text, parseChttpUnixUrl_plain hok.path hok.inside hok.socket hok.tail.ends,
    requestTarget_eq hok.tail hgives.pathAndQuery]
  exact congrArg Except.ok hu.symm

theorem hasScheme_iff {scheme : String} {url rest : List UInt8} (hlower : (ascii scheme).map ccolAsciiTolower = ascii scheme) :
    HasScheme scheme url rest ↔ startsWithCase url scheme = true ∧ rest = url.drop (ascii scheme).length := by
  rw [startsWithCase, asciiCaseEq_iff, hlower]
  constructor
  · rintro ⟨start, rfl, hstart⟩
    have hlen : start.length = (ascii scheme).length := by rw [← hstart, length_map]
    rw [← hlen, take_left, drop_left]
    exact ⟨hstart, rfl⟩
  · rintro ⟨htake, rfl⟩
    exact ⟨url.take (ascii scheme).length, (take_append_drop _ url).symm, htake⟩

theorem startsWithCase_false {scheme scheme' : String} (h : startsWithCase url scheme = true)
    (hne : ∀ n, n = min (ascii scheme).length (ascii scheme').length →
      ((ascii scheme).map ccolAsciiTolower).take n ≠ ((ascii scheme').map ccolAsciiTolower).take n) :
    startsWithCase url scheme' = false := by
  refine Bool.eq_false_iff.mpr fun h' => ?_
  rw [startsWithCase, asciiCaseEq_iff] at h h'
  refine hne _ rfl ?_
  rw [← h, ← h', ← map_take, ← map_take, take_take, take_take]
  congr 2
  omega

theorem accepts_of_ok (h : parseChttpUrl url = .ok u) : Accepts url u := by
  simp only [parseChttpUrl] at h
  split at h
  · rename_i hscheme
    obtain ⟨t, socket, htext, hok, hgives⟩ := parseChttpUnixUrl_ok h
    exact .unix t ((hasScheme_iff rfl).mpr ⟨hscheme, htext⟩) hok hgives
  · split at h
    · rename_i hscheme
      obtain ⟨t, user, pass, htext, hhttps, hok, hgives⟩ := parseNetworkUrl_ok h
      exact .http t ((hasScheme_iff rfl).mpr ⟨hscheme, htext⟩) hhttps hok hgives
    · split at h
      · rename_i hscheme
        obtain ⟨t, user, pass, htext, hhttps, hok, hgives⟩ := parseNetworkUrl_ok h
        exact .https t ((hasScheme_iff rfl).mpr ⟨hscheme, htext⟩) hhttps hok hgives
      · cases h

theorem ok_of_accepts (h : Accepts url u) : parseChttpUrl url = .ok u := by
  cases h with
  | unix t hscheme hok hgives =>
    obtain ⟨hstarts, htext⟩ := (hasScheme_iff rfl).mp hscheme
    have hparse := parseChttpUnixUrl_eq hok hgives
    rw [htext] at hparse
    rw [parseChttpUrl, if_pos hstarts]
    exact hparse
  | http t hscheme hhttps hok hgives =>
    obtain ⟨hstarts, htext⟩ := (hasScheme_iff rfl).mp hscheme
    have hunix : startsWithCase url "http+unix://" = false := startsWithCase_false hstarts (by rintro n rfl; decide)
    have hparse := parseNetworkUrl_eq hok hgives
    rw [htext, hhttps] at hparse
    rw [parseChttpUrl, hunix, if_neg Bool.false_ne_true, if_pos hstarts]
    exact hparse
  | https t hscheme hhttps hok hgives =>
    obtain ⟨hstarts, htext⟩ := (hasScheme_iff rfl).mp hscheme
    have hunix : startsWithCase url "http+unix://" = false := startsWithCase_false hstarts (by rintro n rfl; decide)
    have hhttp : startsWithCase url "http://" = false := startsWithCase_false hstarts (by rintro n rfl; decide)
    have hparse := parseNetworkUrl_eq hok hgives
    rw [htext, hhttps] at hparse
    rw [parseChttpUrl, hunix, if_neg Bool.false_ne_true, hhttp, if_neg Bool.false_ne_true, if_pos hstarts]
    exact hparse

theorem parseChttpUrl_iff : parseChttpUrl url = .ok u ↔ Accepts url u := ⟨accepts_of_ok, ok_of_accepts⟩

/-! ## What an accepted URL has -/

theorem slashed_escaped {pq : List UInt8} (h : Escaped (· ≠ 0x25) pq) : Escaped (· ≠ 0x25) (slashed pq) := by
  rw [slashed]
  split
  · exact h
  · exact .byte (by decide) (by decide) h

theorem Accepts.inGrammar (h : Accepts url u) : InGrammar url := by
  cases h with
  | http t hscheme hhttps hok _ => exact .http t hscheme hhttps hok
  | https t hscheme hhttps hok _ => exact .https t hscheme hhttps hok
  | unix t hscheme hok _ => exact .unix t hscheme hok

theorem InGrammar.accepts (h : InGrammar url) : ∃ u, Accepts url u := by
  have hnetwork (t : NetworkParts) (user pass : List UInt8) (htail : Tail t.pq t.fragment) : ∃ u, t.Gives user pass u := by
    obtain ⟨target, htarget⟩ := (slashed_escaped htail.escapes).encodes
    exact ⟨⟨t.https, t.isIpv6, false, [], t.host, t.portValue, target, originKeyOf t.https t.isIpv6 t.host t.portValue,
      t.userinfo.map fun _ => ascii "Basic " ++ chttpBase64Encode (user ++ 0x3A :: pass)⟩, rfl, rfl, rfl, rfl, rfl, rfl, htarget, rfl, rfl⟩
  cases h with
  | http t hscheme hhttps hok =>
    obtain ⟨u, hgives⟩ := hnetwork t _ _ hok.tail
    exact ⟨u, .http t hscheme hhttps hok hgives⟩
  | https t hscheme hhttps hok =>
    obtain ⟨u, hgives⟩ := hnetwork t _ _ hok.tail
    exact ⟨u, .https t hscheme hhttps hok hgives⟩
  | unix t hscheme hok =>
    rename_i socket
    obtain ⟨target, htarget⟩ := (slashed_escaped hok.tail.escapes).encodes
    exact ⟨⟨false, false, true, socket, [], 0, target, ascii "unix://" ++ socket, none⟩,
      .unix t hscheme hok ⟨rfl, rfl, rfl, rfl, rfl, rfl, htarget, rfl, rfl⟩⟩

theorem Encodes.originForm {pq : List UInt8} (h : Encodes (slashed pq) t) : OriginForm t := by
  refine ⟨?_, h.valid⟩
  obtain ⟨rest, hrest⟩ : ∃ rest, slashed pq = 0x2F :: rest := by
    rw [slashed]
    split
    · rename_i hslash
      cases pq with
      | nil => cases hslash
      | cons c pq =>
        cases hslash
        exact ⟨pq, rfl⟩
    · exact ⟨pq, rfl⟩
  rw [hrest] at h
  cases h with
  | keep => rfl
  | encode hc => exact absurd hc (by decide)

theorem Escaped.visible (h : Escaped isTargetLiteralByte s) : ∀ c ∈ s, 0x21 ≤ c ∧ c ≤ 0x7E := by
  induction h with
  | nil => nofun
  | byte hc _ _ ih =>
    intro c hmem
    cases hmem with
    | head => exact isTargetLiteralByte_visible hc
    | tail _ hmem => exact ih c hmem
  | escape ha hb _ ih =>
    intro c hmem
    simp only [mem_cons] at hmem
    obtain rfl | rfl | rfl | hmem := hmem
    · decide
    · exact uriHexdig_visible ha
    · exact uriHexdig_visible hb
    · exact ih c hmem

theorem Decodes.nonempty (h : Decodes s t) (hs : s ≠ []) : t ≠ [] := by
  cases h with
  | nil => exact absurd rfl hs
  | byte => exact cons_ne_nil _ _
  | escape => exact cons_ne_nil _ _

theorem NetworkParts.portValue_range (t : NetworkParts) (h : ∀ digits, t.port = some digits → PortDigits digits) :
    1 ≤ t.portValue ∧ t.portValue ≤ 65535 := by
  rw [NetworkParts.portValue]
  split
  · split <;> decide
  · split <;> decide
  · rename_i digits hne hport
    rw [hport] at h
    exact (h digits rfl).value hne

theorem NetworkParts.checked {t : NetworkParts} {user pass : List UInt8} (hok : t.Ok user pass) (hgives : t.Gives user pass u) : Checked u := by
  refine ⟨?_, hgives.pathAndQuery.originForm, hgives.pathAndQuery.valid.visible⟩
  rw [hgives.isUnix, hgives.isIpv6, hgives.host, hgives.port]
  exact ⟨hok.host, t.portValue_range hok.port⟩

theorem Accepts.checked (h : Accepts url u) : Checked u := by
  cases h with
  | http t _ _ hok hgives => exact NetworkParts.checked hok hgives
  | https t _ _ hok hgives => exact NetworkParts.checked hok hgives
  | unix t hscheme hok hgives =>
    refine ⟨?_, hgives.pathAndQuery.originForm, hgives.pathAndQuery.valid.visible⟩
    rw [hgives.isUnix, hgives.unixSocketPath]
    exact hok.socket.nonempty hok.path

theorem Parsed.originKey_iff {v : ChttpUrl} (hu : Parsed u) (hv : Parsed v) : u.originKey = v.originKey ↔ SameOrigin u v := by
  refine ⟨hu.sameOrigin hv, ?_⟩
  rintro ⟨⟨hunix, hpath, hipv6, hhost⟩, hhttps, hport⟩
  cases hu with
  | network =>
    cases hv with
    | network =>
      dsimp only at *
      rw [originKeyOf_eq, originKeyOf_eq, hhost, hipv6, hhttps, hport]
    | unix => cases hunix
  | unix =>
    cases hv with
    | network => cases hunix
    | unix =>
      dsimp only at hpath
      rw [hpath]

end Ccollections.Chttpclient
