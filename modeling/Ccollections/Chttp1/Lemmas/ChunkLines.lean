import Ccollections.Chttp1.Lemmas.Grammar
import Ccollections.Chttp1.Lemmas.Lines
import Ccollections.Chttp1.Lemmas.LineRoom

/-!
# What the lines of a chunked body say
-/

namespace Ccollections.Chttp1
open Lib Computability Grammar List

variable {type : ParserType} {s line text rest : List UInt8} {v : Nat}

/-! ## Sizes -/

theorem hexDigit_lt {c : UInt8} {d : Nat} (h : hexDigit c = some d) : d < 16 := by
  have hc := c.toNat_lt
  simp only [hexDigit, Bool.and_eq_true, decide_eq_true_eq, ge_iff_le, UInt8.le_iff_toNat_le] at h
  simp only [UInt8.reduceToNat] at h
  split at h
  · cases h
    omega
  · split at h
    · cases h
      omega
    · split at h
      · cases h
        omega
      · cases h

theorem horner_le (digits : List Nat) (a : Nat) : a ≤ digits.foldl (fun v d => d + 16 * v) a := by
  induction digits generalizing a with
  | nil => exact Nat.le_refl _
  | cons d digits ih => exact Nat.le_trans (by omega) (ih (d + 16 * a))

theorem parseUint64Loop_hex {a : Nat} (ha : a ≤ uint64Max) : parseUint64Loop 16 hexDigit a s = some v ↔
    v ≤ uint64Max ∧ ∃ digits, List.Forall₂ (fun c d => hexDigit c = some d) s digits ∧ v = digits.foldl (fun v d => d + 16 * v) a := by
  induction s generalizing a with
  | nil =>
    constructor
    · intro h
      cases h
      exact ⟨ha, [], .nil, rfl⟩
    · rintro ⟨-, digits, hdigits, rfl⟩
      cases hdigits
      rfl
  | cons c s ih =>
    rw [parseUint64Loop]
    cases hc : hexDigit c with
    | none =>
      constructor
      · nofun
      · rintro ⟨-, digits, hdigits, -⟩
        cases hdigits with
        | cons hd _ => rw [hc] at hd; cases hd
    | some d =>
      have hd := hexDigit_lt hc
      have hstep : a * 16 + d = d + 16 * a := by omega
      by_cases hfits : d + 16 * a ≤ uint64Max
      · have hsmall : ¬a > uint64Max / 16 := by
          rw [Nat.not_lt, Nat.le_div_iff_mul_le (by decide)]
          omega
        dsimp only
        rw [if_neg hsmall, if_neg (by omega), hstep, ih hfits]
        constructor
        · rintro ⟨hv, digits, hdigits, rfl⟩
          exact ⟨hv, d :: digits, .cons hc hdigits, rfl⟩
        · rintro ⟨hv, digits, hdigits, rfl⟩
          cases hdigits with
          | cons hd' hrest =>
            obtain rfl := Option.some.inj (hc.symm.trans hd')
            exact ⟨hv, _, hrest, rfl⟩
      · constructor
        · intro h
          dsimp only at h
          split at h
          · cases h
          · split at h
            · cases h
            · rw [uint64Max] at *
              omega
        · rintro ⟨hv, digits, hdigits, rfl⟩
          cases hdigits with
          | cons hd' _ =>
            obtain rfl := Option.some.inj (hc.symm.trans hd')
            exact absurd (Nat.le_trans (horner_le _ (d + 16 * a)) hv) hfits

theorem parseUint64Hex_iff : parseUint64Hex s = some v ↔ Spells s v ∧ v ≤ uint64Max := by
  have hdigits : ∀ digits : List Nat, Nat.ofDigits 16 digits.reverse = digits.foldl (fun v d => d + 16 * v) 0 := by
    intro digits
    rw [Nat.ofDigits_eq_foldr, foldr_reverse]
    rfl
  rw [parseUint64Hex, Spells]
  by_cases hs : s = []
  · rw [if_pos hs]
    exact ⟨nofun, fun h => absurd hs h.1.1⟩
  · rw [if_neg hs, parseUint64Loop_hex (Nat.zero_le _)]
    constructor
    · rintro ⟨hv, digits, hall, rfl⟩
      exact ⟨⟨hs, digits, hall, (hdigits digits).symm⟩, hv⟩
    · rintro ⟨⟨-, digits, hall, rfl⟩, hv⟩
      exact ⟨hv, digits, hall, hdigits digits⟩

theorem Spells.digits (h : Spells s v) : ∀ c ∈ s, ∃ d, hexDigit c = some d := by
  obtain ⟨-, digits, hall, -⟩ := h
  induction hall with
  | nil => nofun
  | cons hd _ ih =>
    intro c hc
    rcases mem_cons.mp hc with rfl | hc
    · exact ⟨_, hd⟩
    · exact ih c hc

theorem Spells.zeros (h : Spells s v) (k : Nat) : Spells (List.replicate k 0x30 ++ s) v := by
  obtain ⟨hs, digits, hall, rfl⟩ := h
  have hzeros : List.Forall₂ (fun c d => hexDigit c = some d) (List.replicate k 0x30) (List.replicate k 0) := by
    induction k with
    | zero => exact .nil
    | succ k ih => exact .cons rfl ih
  refine ⟨fun hnil => hs (append_eq_nil_iff.mp hnil).2, List.replicate k 0 ++ digits, rel_append hzeros hall, ?_⟩
  rw [reverse_append, reverse_replicate, Nat.ofDigits_append_replicate_zero]

def inSize (c : UInt8) : Bool := c ≠ 0x3B && !isOws c

theorem inSize_of_digit {c : UInt8} {d : Nat} (h : hexDigit c = some d) : inSize c = true ∧ c ≠ 0x0A := by
  by_contra hno
  have hcase : c = 0x3B ∨ c = 0x20 ∨ c = 0x09 ∨ c = 0x0A := by
    by_contra hall
    simp only [not_or] at hall
    exact hno ⟨by simp [inSize, isOws, hall.1, hall.2.1, hall.2.2.1], hall.2.2.2⟩
  rcases hcase with rfl | rfl | rfl | rfl <;> cases h

theorem mem_bws : s ∈ bws ↔ ∀ c ∈ s, isOws c = true := mem_chars_kstar

theorem inSize_of_ows {c : UInt8} (h : isOws c = true) : inSize c = false := by
  rw [inSize, h]
  simp

theorem ExtFor.head (h : ExtFor type s) : ∀ c ∈ s.head?, inSize c = false := by
  intro c hc
  rcases h with h | ⟨-, h⟩
  · rcases ExtEnd.of_mem h with rfl | ⟨ws, r, rfl, hws⟩
    · cases hc
    · cases ws with
      | nil =>
        cases hc
        rfl
      | cons w ws =>
        cases hc
        exact inSize_of_ows (hws _ mem_cons_self)
  · cases s with
    | nil => cases hc
    | cons w s =>
      cases hc
      exact inSize_of_ows (mem_bws.mp h _ mem_cons_self)

theorem extFor_iff (p : Parser) : ExtFor p.type s ↔ chunkExtIsValid (p.extStart s) = true := by
  rw [ExtFor, mem_bws, Parser.extStart, ← chunkExtIsValid_iff]
  by_cases hows : (p.type = .response && s.all isOws) = true
  · have hnil : chunkExtIsValid [] = true := by rw [chunkExtIsValid, if_pos rfl]
    rw [if_pos hows, hnil]
    simp only [Bool.and_eq_true, decide_eq_true_eq, all_eq_true] at hows
    exact ⟨fun _ => rfl, fun _ => .inr hows⟩
  · rw [if_neg hows]
    simp only [Bool.and_eq_true, decide_eq_true_eq, all_eq_true] at hows
    exact ⟨fun h => h.resolve_right hows, .inl⟩

/-! ## Bytes that end no line -/

theorem avoids_bws : Avoids 0x0A bws := (avoids_chars rfl).kstar

theorem avoids_token : Avoids 0x0A token := (avoids_chars (by decide)).mul (avoids_chars (by decide)).kstar

theorem avoids_chunkExt : Avoids 0x0A Grammar.chunkExt := by
  have hquoted : Avoids 0x0A quotedString :=
    (avoids_text (by decide)).mul
      (((avoids_chars (by decide)).add ((avoids_text (by decide)).mul (avoids_chars (by decide)))).kstar.mul (avoids_text (by decide)))
  have hval : Avoids 0x0A (bws * (text [0x3D] * (bws * Grammar.chunkExtVal))) :=
    avoids_bws.mul ((avoids_text (by decide)).mul (avoids_bws.mul (avoids_token.add hquoted)))
  exact (avoids_bws.mul ((avoids_text (by decide)).mul (avoids_bws.mul (avoids_token.mul (avoids_one.add hval))))).kstar

theorem SizeLine.avoids (l : SizeLine type v) : 0x0A ∉ l.text := by
  intro hmem
  rcases mem_append.mp hmem with hmem | hmem
  · obtain ⟨d, hd⟩ := l.spells.digits _ hmem
    exact (inSize_of_digit hd).2 rfl
  · rcases l.valid with h | ⟨-, h⟩
    · exact avoids_chunkExt _ h hmem
    · exact avoids_bws _ h hmem

theorem TrailerField.avoids (f : TrailerField) : 0x0A ∉ f.text := by
  have hvalue : 0x0A ∉ f.value := fun hmem => absurd (f.chars _ hmem) (by decide)
  simp only [TrailerField.text, mem_append, mem_cons, not_or]
  exact ⟨avoids_token _ f.token, by decide, ⟨avoids_bws _ f.before, hvalue⟩, avoids_bws _ f.behind⟩

/-! ## Size lines -/

namespace Parser

variable {S : Settings} {p q : Parser} {rest' : List UInt8}

theorem takeWhile_size {l : SizeLine type v} : l.text.takeWhile inSize = l.size := by
  refine takeWhile_run (fun c hc => ?_) l.valid.head
  obtain ⟨d, hd⟩ := l.spells.digits c hc
  exact (inSize_of_digit hd).1

theorem chunkSizeReady_ok (hline : p.line = []) (htype : p.type = type) (l : SizeLine type v) (hwithin : p.SizeWithin l.text v) :
    chunkSizeReady { p with line := l.text } rest = .inl (p.readSize l.text v, rest) := by
  subst htype
  have htake : l.text.takeWhile (fun c => c ≠ 0x3B && !isOws c) = l.size := takeWhile_size
  have hdrop : l.text.drop l.size.length = l.ext := drop_left
  have hsize : parseUint64Hex l.size = some v := parseUint64Hex_iff.mpr ⟨l.spells, hwithin.size⟩
  have hext : chunkExtIsValid (extStart { p with line := l.text } l.ext) = true := (extFor_iff p).mp l.valid
  have hoverride : ¬(p.maxChunkSizeOverride ≠ 0 ∧ v > p.maxChunkSizeOverride) := by
    rintro ⟨hne, hgt⟩
    rcases hwithin.override with h | h
    · exact hne h
    · exact absurd h (Nat.not_le.mpr hgt)
  have hexcess : ¬p.chunkExcess + l.text.length + 4 - chunkEarned v > chttp1MaxChunkOverheadExcess := Nat.not_lt.mpr hwithin.excess
  have hparse : parseChunkSizeLine { p with line := l.text } =
      (true, { p with line := l.text, chunkExcess := p.chunkExcess + l.text.length + 4 - chunkEarned v, contentLength := v }) := by
    simp only [parseChunkSizeLine, htake, hsize, hdrop, hext, Bool.not_true, Bool.false_eq_true, if_false]
    rw [if_neg (by simpa using hoverride), if_neg hexcess]
  rw [chunkSizeReady, hparse]
  simp only [readSize, hline]

theorem sizeLine_of_ready (hline : p.line = []) (h : chunkSizeReady { p with line := text } rest = .inl (q, rest')) :
    ∃ v, ∃ l : SizeLine p.type v, l.text = text ∧
      (v ≤ uint64Max ∧ (p.maxChunkSizeOverride = 0 ∨ v ≤ p.maxChunkSizeOverride) ∧
        p.chunkExcess + text.length + 4 - chunkEarned v ≤ chttp1MaxChunkOverheadExcess) ∧ q = p.readSize text v ∧ rest' = rest := by
  simp only [chunkSizeReady, parseChunkSizeLine] at h
  split at h
  · cases h
  · rename_i p₁ hparse
    split at hparse
    · cases hparse
    · rename_i v hsize
      split at hparse
      · cases hparse
      · rename_i hext
        split at hparse
        · cases hparse
        · rename_i hoverride
          split at hparse
          · cases hparse
          · rename_i hexcess
            cases hparse
            cases h
            obtain ⟨hspells, hv⟩ := parseUint64Hex_iff.mp hsize
            rw [Bool.not_eq_true', Bool.not_eq_false] at hext
            have hvalid : ExtFor p.type _ := (extFor_iff p).mpr hext
            refine ⟨v, ⟨_, _, hspells, hvalid⟩, ?_, ⟨hv, ?_, Nat.not_lt.mp hexcess⟩, ?_, rfl⟩
            · exact prefix_iff_eq_append.mp ( takeWhile_prefix _)
            · simp only [Bool.and_eq_true, decide_eq_true_eq, not_and, Nat.not_lt] at hoverride
              by_cases hzero : p.maxChunkSizeOverride = 0
              · exact .inl hzero
              · exact .inr (hoverride hzero)
            · simp only [readSize, hline]

/-! ## Trailer lines -/

theorem trimOws_field {lead value trail : List UInt8} (hlead : ∀ c ∈ lead, isOws c = true) (htrail : ∀ c ∈ trail, isOws c = true)
    (hfirst : ∀ c ∈ value.head?, isOws c = false) (hfinal : ∀ c ∈ value.getLast?, isOws c = false) :
    trimOws (lead ++ value ++ trail) = value := by
  have hback : (value ++ trail).rdropWhile isOws = value := by
    rw [List.rdropWhile, reverse_append, dropWhile_run, reverse_reverse]
    · intro c hc
      exact htrail c (mem_reverse.mp hc)
    · rw [List.head?_reverse]
      exact hfinal
  rw [trimOws, append_assoc]
  cases value with
  | nil =>
    have hnone : (lead ++ ([] ++ trail)).dropWhile isOws = [] := by
      rw [dropWhile_eq_nil_iff]
      intro c hc
      rcases mem_append.mp hc with hc | hc
      · exact hlead c hc
      · exact htrail c hc
    rw [hnone]
    rfl
  | cons c value =>
    rw [@dropWhile_run _ _ _ (c :: value ++ trail) hlead hfirst]
    exact hback

theorem trimOws_split (r : List UInt8) : ∃ lead trail, r = lead ++ trimOws r ++ trail ∧ (∀ c ∈ lead, isOws c = true) ∧
    (∀ c ∈ trail, isOws c = true) ∧ (∀ c ∈ (trimOws r).head?, isOws c = false) ∧ ∀ c ∈ (trimOws r).getLast?, isOws c = false := by
  obtain ⟨lead, hr, hlead, hfirst⟩ := run_split isOws r
  obtain ⟨trail, hs, htrail, hfinal⟩ := run_split isOws (r.dropWhile isOws).reverse
  have hback : r.dropWhile isOws = trimOws r ++ trail.reverse := by
    have hsame := congrArg List.reverse hs
    rw [reverse_reverse, reverse_append] at hsame
    exact hsame
  refine ⟨lead, trail.reverse, ?_, hlead, fun c hc => htrail c (mem_reverse.mp hc), ?_, ?_⟩
  · rw [append_assoc, ← hback]
    exact hr
  · intro c hc
    refine hfirst c ?_
    rw [hback, List.head?_append, Option.mem_def.mp hc]
    rfl
  · intro c hc
    refine hfinal c ?_
    rw [trimOws, List.rdropWhile, List.getLast?_reverse] at hc
    exact hc

theorem splitHeader_field (f : TrailerField) : splitHeader f.text = .ok (f.name, f.value) := by
  obtain ⟨c, r, hname, hc, hr⟩ := mem_token.mp f.token
  have htchars : f.name.all chttp1IsTchar = true := by
    rw [all_eq_true, hname]
    intro c' hc'
    rcases mem_cons.mp hc' with rfl | hc'
    · exact hc
    · exact hr _ hc'
  have hcolon : 0x3A ∉ f.name := by
    intro hmem
    have htchar := all_eq_true.mp htchars _ hmem
    revert htchar
    decide
  have hne : f.name ≠ [] := by
    rw [hname]
    exact cons_ne_nil _ _
  have hlen : ¬f.name.length ≥ f.text.length := by
    rw [TrailerField.text, length_append, length_cons]
    omega
  have hvalid : f.value.any isInvalidValueByte = false := by
    rw [any_eq_false]
    intro c hc
    have htext := f.chars c hc
    rw [isTextChar_eq] at htext
    simpa using htext
  have htake : f.text.takeWhile (· ≠ 0x3A) = f.name := takeWhile_until hcolon
  have hdrop : f.text.drop (f.name.length + 1) = f.lead ++ f.value ++ f.trail := drop_until
  have htrim := trimOws_field (mem_bws.mp f.before) (mem_bws.mp f.behind) f.first f.final
  simp only [splitHeader, htake, hdrop, htrim, hlen, hne, htchars, hvalid, decide_false, Bool.or_false, Bool.false_eq_true, if_false,
    Bool.not_true]

theorem field_of_split {name value : List UInt8} (h : splitHeader line = .ok (name, value)) :
    ∃ f : TrailerField, f.text = line ∧ f.name = name ∧ f.value = value := by
  simp only [splitHeader] at h
  split at h
  · cases h
  · rename_i hshort
    split at h
    · cases h
    · rename_i htchars
      split at h
      · cases h
      · rename_i hvalid
        cases h
        simp only [Bool.or_eq_true, decide_eq_true_eq, not_or, Nat.not_le] at hshort
        rw [Bool.not_eq_true', Bool.not_eq_false] at htchars
        have hsplit : line = line.takeWhile (· ≠ 0x3A) ++ 0x3A :: line.drop ((line.takeWhile (· ≠ 0x3A)).length + 1) := by
          have hwhole := takeWhile_append_dropWhile (p := (· ≠ 0x3A)) (l := line)
          cases hrest : line.dropWhile (· ≠ 0x3A) with
          | nil =>
            rw [hrest, append_nil] at hwhole
            exact absurd hshort.1 (by rw [hwhole]; exact Nat.lt_irrefl _)
          | cons c r =>
            have hc := List.head?_dropWhile_not (· ≠ 0x3A) line
            rw [hrest] at hc hwhole
            have hcolon : c = 0x3A := by simpa using hc
            rw [hcolon] at hwhole
            have hdrop : line.drop ((line.takeWhile (· ≠ 0x3A)).length + 1) = r := by
              have hafter := @drop_until 0x3A (line.takeWhile (· ≠ 0x3A)) r
              rw [hwhole] at hafter
              exact hafter
            rw [hdrop]
            exact hwhole.symm
        obtain ⟨lead, trail, hrest, hlead, htrail, hfirst, hfinal⟩ :=
          trimOws_split (line.drop ((line.takeWhile (· ≠ 0x3A)).length + 1))
        have htoken : line.takeWhile (· ≠ 0x3A) ∈ token := by
          obtain ⟨c, r, hname⟩ := exists_cons_of_ne_nil hshort.2
          rw [hname, all_cons, Bool.and_eq_true, all_eq_true] at htchars
          exact mem_token.mpr ⟨c, r, hname, htchars⟩
        refine ⟨⟨_, lead, _, trail, htoken, mem_bws.mpr hlead, ?_, hfirst, hfinal, mem_bws.mpr htrail⟩, ?_, rfl, rfl⟩
        · intro c hc
          rw [isTextChar_eq, Bool.not_eq_true']
          rw [Bool.not_eq_true, any_eq_false] at hvalid
          exact Bool.eq_false_of_not_eq_true (hvalid c hc)
        · rw [TrailerField.text, ← hrest]
          exact hsplit.symm

theorem trailerReady_ok (hline : p.line = []) {f : TrailerField} (hwithin : p.TrailerWithin f.text) :
    headerReady accepting (p.holding f.text) true rest = .inl (p.readTrailer f, rest) := by
  have hcount : ¬sizeAdd (p.holding f.text).headerCount 1 > (p.holding f.text).effectiveMaxHeaderCount := Nat.not_lt.mpr hwithin.count
  have htotal : ¬sizeAdd (p.holding f.text).totalHeaderBytes (f.text.length + 2) > (p.holding f.text).effectiveMaxTotalHeaderBytes :=
    Nat.not_lt.mpr hwithin.total
  have hprocess : processHeaderLine accepting (p.holding f.text) true =
      (p.holding f.text).reportHeader accepting (.trailer f.name f.value) (f.text.length + 2) := by
    have htext : (p.holding f.text).line = f.text := rfl
    rw [processHeaderLine, htext, if_neg hcount, if_neg htotal, splitHeader_field]
    rfl
  rw [headerReady, hprocess, readTrailer, hline]
  rfl

theorem trailer_of_ready (hline : p.line = []) (h : headerReady accepting (p.holding text) true rest = .inl (q, rest')) :
    ∃ f : TrailerField, f.text = text ∧ (sizeAdd p.headerCount 1 ≤ p.effectiveMaxHeaderCount ∧
      sizeAdd p.totalHeaderBytes (text.length + 2) ≤ p.effectiveMaxTotalHeaderBytes) ∧ q = p.readTrailer f ∧ rest' = rest := by
  have htext : (p.holding text).line = text := rfl
  rw [headerReady, processHeaderLine, htext] at h
  by_cases hcount : sizeAdd (p.holding text).headerCount 1 > (p.holding text).effectiveMaxHeaderCount
  · rw [if_pos hcount] at h
    cases h
  · rw [if_neg hcount] at h
    by_cases htotal : sizeAdd (p.holding text).totalHeaderBytes (text.length + 2) > (p.holding text).effectiveMaxTotalHeaderBytes
    · rw [if_pos htotal] at h
      cases h
    · rw [if_neg htotal] at h
      cases hsplit : splitHeader text with
      | error reason =>
        rw [hsplit] at h
        cases h
      | ok field =>
        obtain ⟨name, value⟩ := field
        obtain ⟨f, rfl, rfl, rfl⟩ := field_of_split hsplit
        rw [hsplit] at h
        cases h
        refine ⟨f, rfl, ⟨Nat.not_lt.mp hcount, Nat.not_lt.mp htotal⟩, ?_, rfl⟩
        rw [readTrailer, hline]
        rfl

end Parser

end Ccollections.Chttp1
