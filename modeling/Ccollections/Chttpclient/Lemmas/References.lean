import Ccollections.Chttpclient.Lemmas.UrlGrammar
import Ccollections.Lib.Uri

/-!
# Redirect targets against RFC 3986
-/

namespace Ccollections.Chttpclient
open Chttp1 Lib List Option

variable {p out out' s t : List UInt8} {c : UInt8}

/-! ## Dot segments -/

theorem popSegment_slash {last : List UInt8} (hlast : 0x2F ∉ last) : popSegment (out ++ 0x2F :: last) = out := by
  rw [popSegment, rdropWhile_append_cons hlast]
  exact dropLast_concat

theorem popSegment_bare (hout : 0x2F ∉ out) : popSegment out = [] := by
  rw [popSegment, rdropWhile_eq_nil_iff.mpr]
  · rfl
  · intro c hc
    have hne : c ≠ 0x2F := fun heq => hout (heq ▸ hc)
    simpa using hne

theorem popSegment_eq (h : LastSegmentRemoved out out') : popSegment out = out' := by
  cases h with
  | slash hlast => exact popSegment_slash hlast
  | bare hlast => exact popSegment_bare hlast

theorem popSegment_removed (out : List UInt8) : LastSegmentRemoved out (popSegment out) := by
  by_cases hslash : 0x2F ∈ out
  · obtain ⟨last, start, hout, hlast⟩ := eq_append_cons_of_mem (mem_reverse.mpr hslash)
    obtain rfl : out = start.reverse ++ 0x2F :: last.reverse := by
      rw [← reverse_reverse out, hout]
      simp
    have hlast' : 0x2F ∉ last.reverse := fun hmem => hlast (mem_reverse.mp hmem)
    rw [popSegment_slash hlast']
    exact .slash hlast'
  · rw [popSegment_bare hslash]
    exact .bare hslash

theorem dotTexts : ascii "../" = [0x2E, 0x2E, 0x2F] ∧ ascii "./" = [0x2E, 0x2F] ∧ ascii "/./" = [0x2F, 0x2E, 0x2F] ∧
    ascii "/." = [0x2F, 0x2E] ∧ ascii "/../" = [0x2F, 0x2E, 0x2E, 0x2F] ∧ ascii "/.." = [0x2F, 0x2E, 0x2E] ∧
    ascii "." = [0x2E] ∧ ascii ".." = [0x2E, 0x2E] ∧ ascii "/" = [0x2F] := by decide

structure PlainFirst (p : List UInt8) : Prop where
  parentFirst : ¬ascii "../" <+: p
  hereFirst : ¬ascii "./" <+: p
  here : ¬ascii "/./" <+: p
  hereLast : p ≠ ascii "/."
  parent : ¬ascii "/../" <+: p
  parentLast : p ≠ ascii "/.."
  hereOnly : p ≠ ascii "."
  parentOnly : p ≠ ascii ".."

theorem takeWhile_slash_iff {name : List UInt8} (hname : 0x2F ∉ name) :
    p.takeWhile (· ≠ 0x2F) = name ↔ p = name ∨ name ++ [0x2F] <+: p := by
  have hrun : ∀ c ∈ name, decide (c ≠ 0x2F) = true := by
    intro c hc
    have hne : c ≠ 0x2F := fun heq => hname (heq ▸ hc)
    simpa using hne
  constructor
  · rintro rfl
    have hwhole := takeWhile_append_dropWhile (p := fun c : UInt8 => decide (c ≠ 0x2F)) (l := p)
    cases hrest : p.dropWhile (· ≠ 0x2F) with
    | nil =>
      rw [hrest, append_nil] at hwhole
      exact .inl hwhole.symm
    | cons c rest =>
      have hhead := List.head?_dropWhile_not (fun c : UInt8 => decide (c ≠ 0x2F)) p
      rw [hrest] at hhead
      obtain rfl : c = 0x2F := by simpa using hhead
      rw [hrest] at hwhole
      exact .inr ⟨rest, by rw [← append_cons, hwhole]⟩
  · rintro (rfl | ⟨rest, rfl⟩)
    · exact takeWhile_eq_self_iff.mpr hrun
    · rw [← append_cons]
      exact takeWhile_run hrun (by simp)

theorem plainFirst_slash : PlainFirst (0x2F :: p) ↔ p.takeWhile (· ≠ 0x2F) ≠ [0x2E] ∧ p.takeWhile (· ≠ 0x2F) ≠ [0x2E, 0x2E] := by
  obtain ⟨hparentFirst, hhereFirst, hhere, hhereLast, hparent, hparentLast, hhereOnly, hparentOnly, -⟩ := dotTexts
  rw [ne_eq, ne_eq, takeWhile_slash_iff (by decide), takeWhile_slash_iff (by decide), not_or, not_or]
  constructor
  · intro h
    have hhere' := h.here
    have hhereLast' := h.hereLast
    have hparent' := h.parent
    have hparentLast' := h.parentLast
    rw [hhere, cons_prefix_cons] at hhere'
    rw [hhereLast] at hhereLast'
    rw [hparent, cons_prefix_cons] at hparent'
    rw [hparentLast] at hparentLast'
    exact ⟨⟨by simpa using hhereLast', by simpa using hhere'⟩, ⟨by simpa using hparentLast', by simpa using hparent'⟩⟩
  · rintro ⟨⟨hhereLast', hhere'⟩, ⟨hparentLast', hparent'⟩⟩
    constructor
    all_goals simp_all [cons_prefix_cons]

theorem plainFirst_bare (hhead : p.head? ≠ some 0x2F) :
    PlainFirst p ↔ p.takeWhile (· ≠ 0x2F) ≠ [0x2E] ∧ p.takeWhile (· ≠ 0x2F) ≠ [0x2E, 0x2E] := by
  obtain ⟨hparentFirst, hhereFirst, hhere, hhereLast, hparent, hparentLast, hhereOnly, hparentOnly, -⟩ := dotTexts
  rw [ne_eq, ne_eq, takeWhile_slash_iff (by decide), takeWhile_slash_iff (by decide), not_or, not_or]
  have hslash {rest : List UInt8} : ¬0x2F :: rest <+: p := by
    rintro ⟨t, rfl⟩
    exact hhead rfl
  have hslash' {rest : List UInt8} : p ≠ 0x2F :: rest := by
    rintro rfl
    exact hhead rfl
  constructor
  · intro h
    exact ⟨⟨fun heq => h.hereOnly (heq.trans hhereOnly.symm), fun hp => h.hereFirst (hhereFirst.symm ▸ hp)⟩,
      ⟨fun heq => h.parentOnly (heq.trans hparentOnly.symm), fun hp => h.parentFirst (hparentFirst.symm ▸ hp)⟩⟩
  · rintro ⟨⟨hhereOnly', hhereFirst'⟩, ⟨hparentOnly', hparentFirst'⟩⟩
    refine ⟨hparentFirst ▸ hparentFirst', hhereFirst ▸ hhereFirst', hhere ▸ hslash, hhereLast ▸ hslash', hparent ▸ hslash,
      hparentLast ▸ hslash', hhereOnly ▸ hhereOnly', hparentOnly ▸ hparentOnly'⟩

theorem slash_not_mem_name (p : List UInt8) : 0x2F ∉ p.takeWhile (· ≠ 0x2F) := fun hmem => by
  simpa using mem_takeWhile_imp hmem

theorem slash_behind_name (p : List UInt8) : p.dropWhile (· ≠ 0x2F) = [] ∨ (p.dropWhile (· ≠ 0x2F)).head? = some 0x2F := by
  have hhead := List.head?_dropWhile_not (fun c : UInt8 => decide (c ≠ 0x2F)) p
  cases hrest : p.dropWhile (· ≠ 0x2F) with
  | nil => exact .inl rfl
  | cons c rest =>
    rw [hrest] at hhead
    exact .inr (by simpa using hhead)

theorem PlainFirst.segment (h : PlainFirst p) (hp : p ≠ []) {segment : List UInt8}
    (hsegment : p.take 1 ++ (p.drop 1).takeWhile (· ≠ 0x2F) = segment)
    (hrest : DotSegmentsRemoved (p.drop segment.length) (out ++ segment) t) : DotSegmentsRemoved p out t := by
  cases p with
  | nil => exact absurd rfl hp
  | cons c q =>
    have hwhole := takeWhile_append_dropWhile (p := fun c : UInt8 => decide (c ≠ 0x2F)) (l := q)
    have hsegment' : c :: q.takeWhile (· ≠ 0x2F) = segment := hsegment
    have hdrop : (c :: q).drop segment.length = q.dropWhile (· ≠ 0x2F) := by
      rw [← hsegment', length_cons, drop_succ_cons, drop_run]
    rw [hdrop] at hrest
    by_cases hc : c = 0x2F
    · subst hc
      obtain ⟨hhere, hparent⟩ := plainFirst_slash.mp h
      have hall := DotSegmentsRemoved.segment (.inr rfl) (cons_ne_nil 0x2F _) (slash_not_mem_name q) hhere hparent
        (slash_behind_name q) (hsegment' ▸ hrest)
      rwa [append_assoc, hwhole] at hall
    · have hname : (c :: q).takeWhile (· ≠ 0x2F) = segment := by
        rw [takeWhile_cons_of_pos (by simpa using hc)]
        exact hsegment'
      obtain ⟨hhere, hparent⟩ := (plainFirst_bare (by simpa using hc)).mp h
      rw [hname] at hhere hparent
      have hne : [] ++ segment ≠ [] := by
        rw [← hsegment']
        exact cons_ne_nil _ _
      have hall := DotSegmentsRemoved.segment (.inl rfl) hne (hname ▸ slash_not_mem_name (c :: q)) hhere hparent
        (slash_behind_name q) hrest
      rwa [nil_append, ← hsegment', cons_append, hwhole] at hall

theorem removeDotLoop_removed (out p : List UInt8) : DotSegmentsRemoved p out (removeDotLoop out p) := by
  obtain ⟨hparentFirst, hhereFirst, hhere, hhereLast, hparent, hparentLast, hhereOnly, hparentOnly, hslash⟩ := dotTexts
  fun_induction removeDotLoop out p with
  | case1 out => exact .done
  | case2 out p _ hdots ih =>
    obtain ⟨rest, rfl⟩ := isPrefixOf_iff_prefix.mp hdots
    rw [hparentFirst] at ih ⊢
    exact .parentFirst ih
  | case3 out p _ _ hdots ih =>
    obtain ⟨rest, rfl⟩ := isPrefixOf_iff_prefix.mp hdots
    rw [hhereFirst] at ih ⊢
    exact .hereFirst ih
  | case4 out p _ _ _ hdots ih =>
    obtain ⟨rest, rfl⟩ := isPrefixOf_iff_prefix.mp hdots
    rw [hhere] at ih ⊢
    exact .here ih
  | case5 out =>
    rename_i ih
    rw [hslash] at ih ⊢
    rw [hhereLast]
    exact .hereLast ih
  | case6 out p _ _ _ _ _ hdots ih =>
    obtain ⟨rest, rfl⟩ := isPrefixOf_iff_prefix.mp hdots
    rw [hparent] at ih ⊢
    exact .parent (popSegment_removed out) ih
  | case7 out =>
    rename_i ih
    rw [hslash] at ih ⊢
    rw [hparentLast]
    exact .parentLast (popSegment_removed out) ih
  | case8 out p _ _ _ _ _ _ _ hdots =>
    simp only [Bool.or_eq_true, decide_eq_true_eq] at hdots
    rcases hdots with rfl | rfl
    · rw [hhereOnly]
      exact .hereOnly .done
    · rw [hparentOnly]
      exact .parentOnly .done
  | case9 out p hp hparentFirst' hhereFirst' hhere' hhereLast' hparent' hparentLast' honly segment ih =>
    rw [ isPrefixOf_iff_prefix] at hparentFirst' hhereFirst' hhere' hparent'
    simp only [Bool.or_eq_true, decide_eq_true_eq, not_or] at honly
    have hplain : PlainFirst p :=
      ⟨hparentFirst', hhereFirst', hhere', hhereLast', hparent', hparentLast', honly.1, honly.2⟩
    exact hplain.segment hp rfl ih

theorem removeDotLoop_segment (h : PlainFirst p) (hp : p ≠ []) {segment : List UInt8}
    (hsegment : p.take 1 ++ (p.drop 1).takeWhile (· ≠ 0x2F) = segment) :
    removeDotLoop out p = removeDotLoop (out ++ segment) (p.drop segment.length) := by
  subst hsegment
  conv_lhs => rw [removeDotLoop]
  rw [if_neg hp, if_neg (mt isPrefixOf_iff_prefix.mp h.parentFirst), if_neg (mt isPrefixOf_iff_prefix.mp h.hereFirst),
    if_neg (mt isPrefixOf_iff_prefix.mp h.here), if_neg h.hereLast, if_neg (mt isPrefixOf_iff_prefix.mp h.parent),
    if_neg h.parentLast, if_neg (by simp [h.hereOnly, h.parentOnly])]

theorem removeDotLoop_eq (h : DotSegmentsRemoved p out t) : removeDotLoop out p = t := by
  obtain ⟨hparentFirst, hhereFirst, hhere, hhereLast, hparent, hparentLast, hhereOnly, hparentOnly, hslash⟩ := dotTexts
  induction h with
  | done => rw [removeDotLoop, if_pos rfl]
  | @segment slash name p out t hslash' hne hname hhere' hparent' hp _ ih =>
    have hend : ∀ c ∈ p.head?, decide (c ≠ 0x2F) = false := by
      intro c hc
      rcases hp with rfl | hp
      · cases hc
      · obtain rfl : 0x2F = c := by simpa [hp] using hc
        rfl
    have hrun : ∀ c ∈ name, decide (c ≠ 0x2F) = true := by
      intro c hc
      have hc' : c ≠ 0x2F := fun heq => hname (heq ▸ hc)
      simpa using hc'
    have htake := takeWhile_run hrun hend
    rcases hslash' with rfl | rfl
    · cases name with
      | nil => exact absurd rfl hne
      | cons c name =>
        have hc := hrun c mem_cons_self
        have hplain : PlainFirst (c :: name ++ p) := by
          rw [plainFirst_bare (by simpa using hc), htake]
          exact ⟨hhere', hparent'⟩
        have hsegment : (c :: name ++ p).take 1 ++ ((c :: name ++ p).drop 1).takeWhile (· ≠ 0x2F) = c :: name := by
          have hcons : (c :: (name ++ p)).takeWhile (· ≠ 0x2F) = c :: (name ++ p).takeWhile (· ≠ 0x2F) :=
            takeWhile_cons_of_pos hc
          exact hcons.symm.trans htake
        change removeDotLoop out (c :: name ++ p) = t
        rw [removeDotLoop_segment hplain (cons_ne_nil _ _) hsegment, drop_left]
        exact ih
    · have hplain : PlainFirst (0x2F :: (name ++ p)) := by
        rw [plainFirst_slash, htake]
        exact ⟨hhere', hparent'⟩
      have hsegment : (0x2F :: (name ++ p)).take 1 ++ ((0x2F :: (name ++ p)).drop 1).takeWhile (· ≠ 0x2F) = 0x2F :: name :=
        congrArg (0x2F :: ·) htake
      change removeDotLoop out (0x2F :: (name ++ p)) = t
      rw [removeDotLoop_segment hplain (cons_ne_nil _ _) hsegment, length_cons, drop_succ_cons, drop_left]
      exact ih
  | parent hpop _ ih | parentLast hpop _ ih =>
    rw [removeDotLoop]
    simp [hparentFirst, hhereFirst, hhere, hhereLast, hparent, hparentLast, hslash, popSegment_eq hpop, ih]
  | hereOnly _ ih | parentOnly _ ih =>
    rw [removeDotLoop, if_pos rfl] at ih
    rw [removeDotLoop]
    simp [hparentFirst, hhereFirst, hhere, hhereLast, hparent, hparentLast, hhereOnly, hparentOnly, ih]
  | _ =>
    rename_i ih
    rw [removeDotLoop]
    simp [hparentFirst, hhereFirst, hhere, hhereLast, hslash, ih]

theorem removeDotSegments_removed (path : List UInt8) : DotSegmentsRemoved path [] (removeDotSegments path) :=
  removeDotLoop_removed [] path

/-! ## Schemes -/

open UriReference

theorem tolower_alpha (c : UInt8) : alpha (ccolAsciiTolower c) = alpha c := by
  simp only [alpha, ccolAsciiTolower, ge_iff_le, Bool.and_eq_true, decide_eq_true_eq]
  grind

theorem tolower_schemeChar (c : UInt8) : schemeChar (ccolAsciiTolower c) = schemeChar c := by
  simp only [schemeChar, alpha, ccolAsciiTolower, ge_iff_le, Bool.and_eq_true, decide_eq_true_eq]
  grind

theorem tolower_delimiter (c : UInt8) (h : ccolAsciiTolower c = 0x3A ∨ ccolAsciiTolower c = 0x2F) : ccolAsciiTolower c = c := by
  simp only [ccolAsciiTolower, ge_iff_le, Bool.and_eq_true, decide_eq_true_eq] at h ⊢
  grind

structure SchemeText (scheme : List UInt8) : Prop where
  first : ∀ c ∈ scheme.head?, alpha c = true
  ne : scheme ≠ []
  chars : ∀ c ∈ scheme, schemeChar c = true

theorem SchemeText.of_lower {scheme name : List UInt8} (h : SchemeText name) (hlower : scheme.map ccolAsciiTolower = name) :
    SchemeText scheme := by
  subst hlower
  constructor
  · intro c hc
    have hfirst := h.first (ccolAsciiTolower c) (by rw [List.head?_map, hc]; rfl)
    rwa [tolower_alpha] at hfirst
  · intro hnil
    exact h.ne (by rw [hnil]; rfl)
  · intro c hc
    have hchar := h.chars _ (mem_map_of_mem hc)
    rwa [tolower_schemeChar] at hchar

theorem schemeOf_append {scheme rest : List UInt8} (h : SchemeText scheme) : schemeOf (scheme ++ 0x3A :: rest) = some scheme := by
  cases scheme with
  | nil => exact absurd rfl h.ne
  | cons c scheme =>
    have hchars : ∀ d ∈ scheme, schemeChar d = true := fun d hd => h.chars d (mem_cons_of_mem _ hd)
    have hcolon : ∀ d ∈ (0x3A :: rest : List UInt8).head?, schemeChar d = false := by
      intro d hd
      obtain rfl : 0x3A = d := by simpa using hd
      rfl
    have halpha : alpha c = true := h.first c rfl
    rw [cons_append, schemeOf, dropWhile_run hchars hcolon, takeWhile_run hchars hcolon, if_pos (by simp [halpha])]

theorem schemeOf_scheme {s scheme : List UInt8} (h : schemeOf s = some scheme) : SchemeText scheme := by
  cases s with
  | nil => cases h
  | cons c s =>
    rw [schemeOf] at h
    split at h
    · rename_i hcolon
      cases h
      simp only [Bool.and_eq_true] at hcolon
      have halpha : schemeChar c = true := by simp [schemeChar, hcolon.1]
      refine ⟨by simpa using hcolon.1, cons_ne_nil _ _, ?_⟩
      intro d hd
      rcases mem_cons.mp hd with rfl | hd
      · exact halpha
      · exact mem_takeWhile_imp hd
    · cases h

theorem SchemeText.noSlash {scheme : List UInt8} (h : SchemeText scheme) : 0x2F ∉ scheme := fun hmem =>
  absurd (h.chars _ hmem) (by decide)

theorem locationHasScheme_iff : locationHasScheme s = (schemeOf s).isSome := by
  cases s with
  | nil => rfl
  | cons c s =>
    have hchar : (fun c : UInt8 => isAlpha c || isDigit c || c = 0x2B || c = 0x2D || c = 0x2E) = schemeChar := rfl
    have halpha : isAlpha c = alpha c := rfl
    rw [locationHasScheme, schemeOf, hchar, halpha]
    split
    · rename_i h
      simp [h]
    · rename_i h
      simpa using h

theorem startsWithCase_iff (full name : String) (hfull : ascii full = ascii name ++ [0x3A, 0x2F, 0x2F])
    (hlower : (ascii name).map ccolAsciiTolower = ascii name) (hname : SchemeText (ascii name)) :
    startsWithCase s full = true ↔
      ∃ scheme rest, s = scheme ++ 0x3A :: 0x2F :: 0x2F :: rest ∧ schemeOf s = some scheme ∧ scheme.map ccolAsciiTolower = ascii name := by
  have hlower' : (ascii full).map ccolAsciiTolower = ascii full := by
    rw [hfull, map_append, hlower]
    rfl
  constructor
  · intro h
    obtain ⟨start, hs, hstart⟩ := (hasScheme_iff hlower').mpr ⟨h, rfl⟩
    rw [hfull] at hstart
    obtain ⟨scheme, tail, rfl, hscheme, htail⟩ := map_eq_append_iff.mp hstart
    obtain ⟨a, tail, rfl, ha, htail⟩ := map_eq_cons_iff.mp htail
    obtain ⟨b, tail, rfl, hb, htail⟩ := map_eq_cons_iff.mp htail
    obtain ⟨c, tail, rfl, hc, htail⟩ := map_eq_cons_iff.mp htail
    obtain rfl := map_eq_nil_iff.mp htail
    rw [tolower_delimiter a (.inl ha)] at ha
    rw [tolower_delimiter b (.inr hb)] at hb
    rw [tolower_delimiter c (.inr hc)] at hc
    subst ha hb hc
    have htext : s = scheme ++ 0x3A :: 0x2F :: 0x2F :: s.drop (ascii full).length := by
      conv_lhs => rw [hs]
      simp
    refine ⟨scheme, _, htext, ?_, hscheme⟩
    rw [htext]
    exact schemeOf_append (hname.of_lower hscheme)
  · rintro ⟨scheme, rest, rfl, -, hscheme⟩
    have hstart : HasScheme full (scheme ++ 0x3A :: 0x2F :: 0x2F :: rest) rest := by
      refine ⟨scheme ++ [0x3A, 0x2F, 0x2F], by simp, ?_⟩
      rw [map_append, hscheme, hfull]
      rfl
    exact ((hasScheme_iff hlower').mp hstart).1

theorem schemeText_http : SchemeText (ascii "http") ∧ SchemeText (ascii "https") ∧ SchemeText (ascii "http+unix") := by
  refine ⟨⟨?_, by decide, all_eq_true.mp (by decide)⟩, ⟨?_, by decide, all_eq_true.mp (by decide)⟩,
    ⟨?_, by decide, all_eq_true.mp (by decide)⟩⟩
  all_goals
    rintro c ⟨⟩
    decide

theorem known_iff : (startsWithCase s "http://" || startsWithCase s "https://" || startsWithCase s "http+unix://") = true ↔
    ∃ scheme rest, s = scheme ++ 0x3A :: 0x2F :: 0x2F :: rest ∧ schemeOf s = some scheme ∧ KnownScheme scheme := by
  obtain ⟨hhttp, hhttps, hunix⟩ := schemeText_http
  rw [Bool.or_eq_true, Bool.or_eq_true, startsWithCase_iff "http://" "http" rfl rfl hhttp,
    startsWithCase_iff "https://" "https" rfl rfl hhttps, startsWithCase_iff "http+unix://" "http+unix" rfl rfl hunix]
  constructor
  · rintro ((⟨scheme, rest, hs, hscheme, hname⟩ | ⟨scheme, rest, hs, hscheme, hname⟩) | ⟨scheme, rest, hs, hscheme, hname⟩)
    · exact ⟨scheme, rest, hs, hscheme, .inl hname⟩
    · exact ⟨scheme, rest, hs, hscheme, .inr (.inl hname)⟩
    · exact ⟨scheme, rest, hs, hscheme, .inr (.inr hname)⟩
  · rintro ⟨scheme, rest, hs, hscheme, hname | hname | hname⟩
    · exact .inl (.inl ⟨scheme, rest, hs, hscheme, hname⟩)
    · exact .inl (.inr ⟨scheme, rest, hs, hscheme, hname⟩)
    · exact .inr ⟨scheme, rest, hs, hscheme, hname⟩

/-! ## References with an authority -/

theorem afterSlashes_append {start : List UInt8} (h : 0x2F ∉ start) : afterSlashes (start ++ 0x2F :: 0x2F :: s) = some s := by
  induction start with
  | nil => rw [nil_append, afterSlashes]
  | cons c start ih =>
    simp only [mem_cons, not_or] at h
    rw [cons_append, afterSlashes]
    · exact ih h.2
    · rintro s' rfl
      exact absurd rfl h.1

theorem normalizeAuthorityRef_eq {start : List UInt8} (h : 0x2F ∉ start) :
    normalizeAuthorityRef (start ++ 0x2F :: 0x2F :: s) =
      start ++ 0x2F :: 0x2F :: (s.takeWhile authorityChar ++
        (removeDotSegments ((s.dropWhile authorityChar).takeWhile pathChar) ++ (s.dropWhile authorityChar).dropWhile pathChar)) := by
  have hauthority : (fun c : UInt8 => !endsAuthority c) = authorityChar := by
    funext c
    simp [endsAuthority, authorityChar]
  have hpath : (fun c : UInt8 => !(decide (c = 0x3F) || decide (c = 0x23))) = pathChar := by
    funext c
    simp [pathChar]
  have hwhole := takeWhile_append_dropWhile (p := authorityChar) (l := s)
  have hpathWhole := takeWhile_append_dropWhile (p := pathChar) (l := s.dropWhile authorityChar)
  rw [normalizeAuthorityRef, afterSlashes_append h]
  dsimp only
  rw [hauthority, hpath, drop_run]
  split
  · rename_i hnil
    rw [hnil] at hpathWhole
    rw [hnil, removeDotSegments, removeDotLoop, if_pos rfl, hpathWhole, hwhole]
  · have htake : (start ++ 0x2F :: 0x2F :: s).take
        ((start ++ 0x2F :: 0x2F :: s).length - (s.dropWhile authorityChar).length) = start ++ 0x2F :: 0x2F :: s.takeWhile authorityChar := by
      have htext : start ++ 0x2F :: 0x2F :: s =
          (start ++ 0x2F :: 0x2F :: s.takeWhile authorityChar) ++ s.dropWhile authorityChar := by
        conv_lhs => rw [← hwhole]
        simp
      rw [htext, length_append, Nat.add_sub_cancel, take_left]
    rw [htake]
    simp

theorem ofText_known {scheme rest : List UInt8} (h : SchemeText scheme) :
    ofText (scheme ++ 0x3A :: 0x2F :: 0x2F :: rest) =
      { ofTail (rest.dropWhile authorityChar) with scheme := some scheme, authority := some (rest.takeWhile authorityChar) } := by
  have hdrop : (scheme ++ 0x3A :: 0x2F :: 0x2F :: rest).drop (scheme.length + 1) = 0x2F :: 0x2F :: rest := by
    rw [append_cons]
    exact drop_left' (by simp)
  rw [ofText, schemeOf_append h]
  dsimp only
  rw [hdrop]
  rfl

theorem normalizeAuthorityRef_text (start : Option (List UInt8)) (h : ∀ scheme, start = some scheme → SchemeText scheme) (s : List UInt8) :
    normalizeAuthorityRef (start.elim [] (· ++ [0x3A]) ++ 0x2F :: 0x2F :: s) =
      UriReference.text { ofTail (s.dropWhile authorityChar) with
        scheme := start
        authority := some (s.takeWhile authorityChar)
        path := removeDotSegments ((s.dropWhile authorityChar).takeWhile pathChar) } := by
  have hbehind := ofTail_behind (s.dropWhile authorityChar)
  have hslash : 0x2F ∉ start.elim [] (· ++ [0x3A]) := by
    cases start with
    | none => exact not_mem_nil
    | some scheme =>
      have hno := (h scheme rfl).noSlash
      simpa using hno
  rw [normalizeAuthorityRef_eq hslash, ← hbehind]
  simp [UriReference.text]

/-! ## Relative references -/

variable {u : ChttpUrl} {location : List UInt8}

theorem withoutFragment_eq (s : List UInt8) :
    s.takeWhile (· ≠ 0x23) = (ofTail s).path ++ (ofTail s).query.elim [] (0x3F :: ·) := by
  have hpath : ∀ c ∈ s.takeWhile pathChar, decide (c ≠ 0x23) = true := by
    intro c hc
    have hchar : pathChar c = true := mem_takeWhile_imp hc
    simp only [pathChar, Bool.and_eq_true] at hchar
    exact hchar.2
  conv_lhs => rw [← takeWhile_append_dropWhile (p := pathChar) (l := s), takeWhile_append_of_pos hpath]
  exact congrArg (s.takeWhile pathChar ++ ·) (queryOf_text s).symm

theorem splitQuery (s : List UInt8) :
    (s.takeWhile (· ≠ 0x23)).takeWhile (· ≠ 0x3F) = (ofTail s).path ∧
    (s.takeWhile (· ≠ 0x23)).dropWhile (· ≠ 0x3F) = (ofTail s).query.elim [] (0x3F :: ·) := by
  have hpath : ∀ c ∈ (ofTail s).path, decide (c ≠ 0x3F) = true := by
    intro c hc
    have hchar : pathChar c = true := mem_takeWhile_imp hc
    simp only [pathChar, Bool.and_eq_true] at hchar
    exact hchar.1
  have hquery : ∀ c ∈ ((ofTail s).query.elim [] (0x3F :: ·)).head?, decide (c ≠ 0x3F) = false := by
    intro c hc
    cases hq : (ofTail s).query with
    | none => simp [hq] at hc
    | some query =>
      obtain rfl : 0x3F = c := by simpa [hq] using hc
      rfl
  rw [withoutFragment_eq]
  exact ⟨takeWhile_run hpath hquery, dropWhile_run hpath hquery⟩

theorem Escaped.mem {q : UInt8 → Bool} (h : Escaped q s) (hc : c ∈ s) : q c = true ∨ c = 0x25 ∨ uriHexdig c = true := by
  induction h with
  | nil => cases hc
  | byte hbyte _ _ ih =>
    cases hc with
    | head => exact .inl hbyte
    | tail _ hc => exact ih hc
  | escape ha hb _ ih =>
    simp only [mem_cons] at hc
    obtain rfl | rfl | rfl | hc := hc
    · exact .inr (.inl rfl)
    · exact .inr (.inr ha)
    · exact .inr (.inr hb)
    · exact ih hc

theorem OriginForm.noHash (h : OriginForm t) : 0x23 ∉ t := by
  intro hmem
  rcases h.2.mem hmem with hbad | hbad | hbad
  all_goals exact absurd hbad (by decide)

theorem withoutFragment_self (h : 0x23 ∉ s) : s.takeWhile (· ≠ 0x23) = s := by
  apply takeWhile_eq_self_iff.mpr
  intro c hc
  have hne : c ≠ 0x23 := fun heq => h (heq ▸ hc)
  simpa using hne

theorem basePath_eq (h : OriginForm u.pathAndQuery) : u.pathAndQuery.takeWhile (· ≠ 0x3F) = (baseReference u).path := by
  have hsplit := (splitQuery u.pathAndQuery).1
  rw [withoutFragment_self h.noHash] at hsplit
  exact hsplit

theorem basePath_head (h : OriginForm u.pathAndQuery) : ∃ rest, (baseReference u).path = 0x2F :: rest := by
  obtain ⟨rest, hrest⟩ := List.head?_eq_some_iff.mp h.1
  refine ⟨rest.takeWhile pathChar, ?_⟩
  change u.pathAndQuery.takeWhile pathChar = _
  rw [hrest]
  exact takeWhile_cons_of_pos rfl

theorem mergeRefPath_eq {refPath : List UInt8} (h : OriginForm u.pathAndQuery) (hne : refPath ≠ []) :
    mergeRefPath u.pathAndQuery refPath = (baseReference u).mergePath refPath := by
  obtain ⟨rest, hrest⟩ := basePath_head h
  have hpath : (baseReference u).path ≠ [] := by simp [hrest]
  simp only [mergeRefPath, mergePath, basePath_eq h, if_neg hne]
  rw [if_neg (by simp [hpath])]

theorem mergeRefPath_nil (h : OriginForm u.pathAndQuery) : mergeRefPath u.pathAndQuery [] = (baseReference u).path := by
  simp only [mergeRefPath, basePath_eq h, if_true]

theorem mergePath_head {path : List UInt8} (h : OriginForm u.pathAndQuery) : ((baseReference u).mergePath path).head? = some 0x2F := by
  obtain ⟨rest, hrest⟩ := basePath_head h
  have hpath : (baseReference u).path ≠ [] := by simp [hrest]
  rw [mergePath, if_neg (by simp [hpath]), hrest]
  obtain ⟨last, start, hsplit, hlast⟩ := eq_append_cons_of_mem (mem_reverse.mpr (mem_cons_self (a := 0x2F) (l := rest)))
  have hwhole : (0x2F :: rest : List UInt8) = start.reverse ++ 0x2F :: last.reverse := by
    rw [← reverse_reverse (0x2F :: rest), hsplit]
    simp
  have hlast' : 0x2F ∉ last.reverse := fun hmem => hlast (mem_reverse.mp hmem)
  rw [hwhole, rdropWhile_append_cons hlast']
  cases hstart : start.reverse with
  | nil => rfl
  | cons c start' =>
    rw [hstart] at hwhole
    obtain ⟨rfl, -⟩ := List.cons.inj hwhole
    rfl

theorem mem_mergePath {path : List UInt8} (hc : c ∈ (baseReference u).mergePath path) :
    c ∈ (baseReference u).path ∨ c ∈ path ∨ c = 0x2F := by
  rw [mergePath] at hc
  split at hc
  · rcases mem_cons.mp hc with rfl | hc
    · exact .inr (.inr rfl)
    · exact .inr (.inl hc)
  · rcases mem_append.mp hc with hc | hc
    · exact .inl (List.IsPrefix.subset ( rdropWhile_prefix _ _) hc)
    · exact .inr (.inl hc)

theorem urlPrefix_eq (s : List UInt8) :
    urlPrefix u ++ s = (if u.isUnix then ascii "http+unix" else schemeText u.isHttps) ++ 0x3A :: 0x2F :: 0x2F :: (authorityText u ++ s) := by
  have hsep : ascii "://" = [0x3A, 0x2F, 0x2F] := rfl
  have hunix : ascii "http+unix://" = ascii "http+unix" ++ [0x3A, 0x2F, 0x2F] := rfl
  cases hkind : u.isUnix with
  | false => simp [urlPrefix, authorityText, hkind, hsep]
  | true => simp [urlPrefix, authorityText, hkind, hunix]

theorem placed_text {t : UriReference} (hscheme : t.scheme = (baseReference u).scheme) (hauthority : t.authority = (baseReference u).authority) :
    { t with fragment := none }.text = urlPrefix u ++ (t.path ++ t.query.elim [] (0x3F :: ·)) := by
  rw [urlPrefix_eq]
  simp [UriReference.text, hscheme, hauthority, baseReference]

theorem ofTail_noHash (s : List UInt8) : 0x23 ∉ (ofTail s).path ++ (ofTail s).query.elim [] (0x3F :: ·) := by
  rw [← withoutFragment_eq]
  intro hmem
  simpa using mem_takeWhile_imp hmem

theorem removed_noHash {path path' query : List UInt8} (hpath : 0x23 ∉ path) (hremoved : DotSegmentsRemoved path [] path') (hquery : 0x23 ∉ query) :
    0x23 ∉ path' ++ query := by
  intro hmem
  rcases mem_append.mp hmem with hmem | hmem
  · rcases hremoved.mem hmem with hmem | hmem
    · exact hpath hmem
    · cases hmem
  · exact hquery hmem

theorem resolveRedirectUrl_relative (h : OriginForm u.pathAndQuery) (hne : location ≠ []) (hscheme : schemeOf location = none)
    (hslashes : ¬ascii "//" <+: location) :
    ∃ t, Resolves (baseReference u) (ofTail location) t ∧ t.scheme = (baseReference u).scheme ∧
      t.authority = (baseReference u).authority ∧ t.path.head? = some 0x2F ∧ 0x23 ∉ t.path ++ t.query.elim [] (0x3F :: ·) ∧
      resolveRedirectUrl u location = .ok (urlPrefix u ++ (t.path ++ t.query.elim [] (0x3F :: ·))) := by
  have hknown : ¬(startsWithCase location "http://" || startsWithCase location "https://" || startsWithCase location "http+unix://") = true := by
    intro hstarts
    obtain ⟨scheme, rest, -, hsome, -⟩ := known_iff.mp hstarts
    rw [hscheme] at hsome
    cases hsome
  have hhas : ¬locationHasScheme location = true := by
    rw [locationHasScheme_iff, hscheme]
    nofun
  have hslashes' : ¬(ascii "//").isPrefixOf location = true := mt isPrefixOf_iff_prefix.mp hslashes
  have hquery := splitQuery location
  have hrefQuery : (location.takeWhile (· ≠ 0x23)).drop ((location.takeWhile (· ≠ 0x23)).takeWhile (· ≠ 0x3F)).length =
      (ofTail location).query.elim [] (0x3F :: ·) := by rw [drop_run, hquery.2]
  have hnoHash := ofTail_noHash location
  simp only [mem_append, not_or] at hnoHash
  have hbase := ofTail_noHash u.pathAndQuery
  simp only [mem_append, not_or] at hbase
  rw [resolveRedirectUrl, if_neg hne, if_neg hknown, if_neg hhas, if_neg hslashes']
  dsimp only
  rw [hrefQuery, hquery.1]
  by_cases hempty : (ofTail location).path = []
  · rw [withoutFragment_eq, hempty, nil_append, if_pos rfl]
    refine ⟨_, .same rfl rfl hempty, rfl, rfl, ?_, ?_, ?_⟩
    · obtain ⟨rest, hrest⟩ := basePath_head h
      exact congrArg List.head? hrest
    · cases hq : (ofTail location).query with
      | none => exact ofTail_noHash u.pathAndQuery
      | some query =>
        rw [hq] at hnoHash
        simp only [mem_append, not_or]
        exact ⟨hbase.1, hnoHash.2⟩
    · cases hq : (ofTail location).query with
      | none =>
        have hwhole := withoutFragment_eq u.pathAndQuery
        rw [withoutFragment_self h.noHash] at hwhole
        rw [elim_none, if_pos rfl]
        exact congrArg (fun target => Except.ok (urlPrefix u ++ target)) hwhole
      | some query =>
        rw [mergeRefPath_nil h]
        simp
  · have hne' : (location.takeWhile (· ≠ 0x23)) ≠ [] := by
      rw [withoutFragment_eq]
      simp [hempty]
    have hhead : (location.takeWhile (· ≠ 0x23)).head? = (ofTail location).path.head? := by
      rw [withoutFragment_eq]
      exact List.head?_append_of_ne_nil _ hempty
    rw [if_neg hne', hhead]
    by_cases hslash : (ofTail location).path.head? = some 0x2F
    · have hremoved := removeDotSegments_removed (ofTail location).path
      rw [if_pos hslash]
      refine ⟨_, .absolute rfl rfl hslash hremoved, rfl, rfl, hremoved.head (.inl ⟨hslash, .inl rfl⟩),
        removed_noHash hnoHash.1 hremoved hnoHash.2, ?_⟩
      rw [append_assoc]
    · have hremoved := removeDotSegments_removed ((baseReference u).mergePath (ofTail location).path)
      have hmerged : 0x23 ∉ (baseReference u).mergePath (ofTail location).path := by
        intro hmem
        rcases mem_mergePath hmem with hmem | hmem | hmem
        · exact hbase.1 hmem
        · exact hnoHash.1 hmem
        · cases hmem
      rw [if_neg hslash, if_neg hempty, mergeRefPath_eq h hempty]
      refine ⟨_, .relative rfl rfl hempty hslash hremoved, rfl, rfl, hremoved.head (.inl ⟨mergePath_head h, .inl rfl⟩),
        removed_noHash hmerged hremoved hnoHash.2, ?_⟩
      rw [append_assoc]

/-! ## Reading a target back -/

theorem except_map_error {α β ε : Type} {x : Except ε α} {f : α → β} {e : ε} (h : x.map f = .error e) : x = .error e := by
  cases x with
  | error e' =>
    cases h
    rfl
  | ok a => cases h

theorem encodeTarget_error {e : HttpRetval} (h : encodeTarget s = .error e) : e = .invalidUrl := by
  fun_induction encodeTarget s generalizing e with
  | case1 => cases h
  | case2 a b s _ ih => exact ih (except_map_error h)
  | case3 | case4 =>
    cases h
    rfl
  | case5 c s _ _ ih | case6 c s _ _ ih => exact ih (except_map_error h)

theorem requestTarget_error {e : HttpRetval} (h : requestTarget s = .error e) : e = .invalidUrl := by
  simp only [requestTarget] at h
  generalize List.takeWhile _ _ = pq at h
  split at h
  · cases h
    rfl
  · exact encodeTarget_error (except_map_error h)

theorem requestTarget_fit {pq : List UInt8} (hhead : pq.head? = some 0x2F) (hhash : 0x23 ∉ pq) :
    (FitTarget pq → ∃ target, requestTarget pq = .ok target) ∧ (¬FitTarget pq → requestTarget pq = .error .invalidUrl) := by
  constructor
  · intro h
    have htail : Tail pq [] := ⟨.inr (.inl hhead), h.escapes, hhash, h.noCr, h.noLf, .inl rfl⟩
    obtain ⟨target, htarget⟩ := (slashed_escaped h.escapes).encodes
    have hok := requestTarget_eq htail htarget
    rw [append_nil] at hok
    exact ⟨target, hok⟩
  · intro h
    cases htarget : requestTarget pq with
    | error e => rw [requestTarget_error htarget]
    | ok target =>
      have hends : ∀ c ∈ pq.head?, endsAuthority c = true := by
        intro c hc
        obtain rfl : 0x2F = c := by simpa [hhead] using hc
        rfl
      obtain ⟨pq', fragment, rfl, htail, -⟩ := requestTarget_ok hends htarget
      have hfragment : fragment = [] := by
        rcases htail.fragment with hnil | hstart
        · exact hnil
        · exact absurd (mem_append_right pq' (mem_of_mem_head? hstart)) hhash
      subst hfragment
      rw [append_nil] at h
      exact absurd ⟨htail.escapes, htail.noCr, htail.noLf⟩ h

theorem escapeValue_hexUpper (c : UInt8) : escapeValue (hexUpper (c.toNat / 16)) (hexUpper (c.toNat % 16)) = c.toNat := by
  have hdigit : ∀ n < 16, (hexDigit (hexUpper n)).getD 0 = n := by decide
  have hlt := c.toNat_lt
  rw [escapeValue, hdigit _ (by omega), hdigit _ (Nat.mod_lt _ (by decide))]
  omega

theorem percentEncodeByte_decodes (hc : c ≠ 0) (h : Decodes s t) : Decodes (percentEncodeByte c ++ s) (c :: t) := by
  have hvalue := escapeValue_hexUpper c
  have hnul : escapeValue (hexUpper (c.toNat / 16)) (hexUpper (c.toNat % 16)) ≠ 0 := by
    rw [hvalue]
    intro hzero
    exact hc (UInt8.toNat_inj.mp hzero)
  have hlt := c.toNat_lt
  have hescape := Decodes.escape (uriHexdig_hexUpper (by omega)) (uriHexdig_hexUpper (Nat.mod_lt _ (by decide))) hnul h
  rw [hvalue] at hescape
  simpa [percentEncodeByte] using hescape

theorem unreserved_plain (h : (isAlpha c || isDigit c || (ascii "-._~").contains c) = true) : c ≠ 0x25 ∧ endsAuthority c = false := by
  have hmarks : ascii "-._~" = [0x2D, 0x2E, 0x5F, 0x7E] := rfl
  simp only [isAlpha, isDigit, hmarks, contains_cons, contains_nil, endsAuthority] at h ⊢
  grind

theorem percentEncodeByte_inside (c : UInt8) : ∀ d ∈ percentEncodeByte c, endsAuthority d = false := by
  have hhex : ∀ d, uriHexdig d = true → endsAuthority d = false := by
    intro d h
    simp only [uriHexdig, isDigit, endsAuthority, ge_iff_le] at h ⊢
    grind
  have hlt := c.toNat_lt
  simp only [percentEncodeByte, forall_mem_cons]
  exact ⟨rfl, hhex _ (uriHexdig_hexUpper (by omega)), hhex _ (uriHexdig_hexUpper (Nat.mod_lt _ (by decide))), forall_mem_nil _⟩

theorem percentEncodeUnixPath_decodes {path : List UInt8} (h : 0 ∉ path) : Decodes (percentEncodeUnixPath path) path := by
  induction path with
  | nil => exact .nil
  | cons c path ih =>
    simp only [mem_cons, not_or] at h
    have hrest := ih h.2
    rw [percentEncodeUnixPath, flatMap_cons]
    split
    · rename_i hplain
      exact .byte (unreserved_plain hplain).1 hrest
    · exact percentEncodeByte_decodes (fun heq => h.1 heq.symm) hrest

theorem percentEncodeUnixPath_inside (path : List UInt8) : ∀ c ∈ percentEncodeUnixPath path, endsAuthority c = false := by
  intro c hc
  obtain ⟨d, -, hd⟩ := mem_flatMap.mp hc
  split at hd
  · rename_i hplain
    obtain rfl := mem_singleton.mp hd
    exact (unreserved_plain hplain).2
  · exact percentEncodeByte_inside d c hd

theorem portDigits_decimal {port : Nat} (https : Bool) (h : 1 ≤ port ∧ port ≤ 65535) :
    PortDigits (decimal port) ∧ portOf https (some (decimal port)) = port := by
  have hvalue : digitsFrom 0 (decimal port) = port := digitsValue_decimal port
  refine ⟨⟨fun c hc => decimal_isDigit hc, fun _ => ?_⟩, ?_⟩
  · change 1 ≤ digitsFrom 0 (decimal port) ∧ digitsFrom 0 (decimal port) ≤ 65535
    rw [hvalue]
    exact h
  · cases hdigits : decimal port with
    | nil => exact absurd hdigits (decimal_ne_nil port)
    | cons d digits =>
      rw [hdigits] at hvalue
      exact hvalue

theorem parseChttpUrl_scheme (https : Bool) (rest : List UInt8) :
    parseChttpUrl (schemeText https ++ 0x3A :: 0x2F :: 0x2F :: rest) = parseNetworkUrl https rest := by
  cases https
  · rfl
  · rfl

theorem parseChttpUrl_unixScheme (rest : List UInt8) :
    parseChttpUrl (ascii "http+unix" ++ 0x3A :: 0x2F :: 0x2F :: rest) = parseChttpUnixUrl rest := by
  rfl

theorem escapeValue_lt (a b : UInt8) : escapeValue a b < 256 := by
  have hdigit (c : UInt8) : (hexDigit c).getD 0 < 16 := by
    simp only [hexDigit, ge_iff_le, Bool.and_eq_true, decide_eq_true_eq, UInt8.le_iff_toNat_le]
    grind
  have ha := hdigit a
  have hb := hdigit b
  rw [escapeValue]
  omega

theorem Decodes.noNul (h : Decodes s t) (hs : 0 ∉ s) : 0 ∉ t := by
  induction h with
  | nil => exact hs
  | byte _ _ ih =>
    simp only [mem_cons, not_or] at hs ⊢
    exact ⟨hs.1, ih hs.2⟩
  | @escape a b s t ha hb hnul _ ih =>
    simp only [mem_cons, not_or] at hs ⊢
    refine ⟨fun hzero => hnul ?_, ih hs.2.2.2⟩
    have hlt := escapeValue_lt a b
    have hmod : 0 = escapeValue a b % 256 := congrArg UInt8.toNat hzero
    omega

theorem NetworkParts.reparse {parts : NetworkParts} {user pass pq : List UInt8} (hok : parts.Ok user pass) (hgives : parts.Gives user pass u)
    (hhead : pq.head? = some 0x2F) :
    parseChttpUrl (urlPrefix u ++ pq) =
      (requestTarget pq).map fun target => { u with pathAndQuery := target, userinfoAuthorization := none } := by
  have hends : ∀ c ∈ pq.head?, endsAuthority c = true := by
    intro c hc
    obtain rfl : 0x2F = c := by simpa [hhead] using hc
    rfl
  have hrange := parts.portValue_range hok.port
  have hplaced (target : List UInt8) : { u with pathAndQuery := target, userinfoAuthorization := none } =
      (⟨parts.https, parts.isIpv6, false, [], parts.host, parts.portValue, target,
        originKeyOf parts.https parts.isIpv6 parts.host parts.portValue, none⟩ : ChttpUrl) := by
    rw [ChttpUrl.mk.injEq]
    exact ⟨hgives.isHttps, hgives.isIpv6, hgives.isUnix, hgives.unixSocketPath, hgives.host, hgives.port, rfl, hgives.originKey, rfl⟩
  rw [funext hplaced, urlPrefix_eq, hgives.isUnix, if_neg Bool.false_ne_true, authorityText, hgives.isUnix, if_neg Bool.false_ne_true, hgives.host,
    hgives.isIpv6, hgives.isHttps, hgives.port, parseChttpUrl_scheme, append_assoc]
  split
  · rename_i hdefault
    have hport : portOf parts.https none = parts.portValue := by
      simp only [Bool.or_eq_true, Bool.and_eq_true, Bool.not_eq_true', decide_eq_true_eq] at hdefault
      rcases hdefault with ⟨hhttps, hport⟩ | ⟨hhttps, hport⟩ <;> rw [hhttps, hport] <;> rfl
    rw [← hport]
    exact @parseNetworkUrl_plain none parts.https parts.isIpv6 parts.host pq hok.host nofun hends
  · obtain ⟨hdigits, hport⟩ := portDigits_decimal parts.https hrange
    have hplain := @parseNetworkUrl_plain (some (decimal parts.portValue)) parts.https parts.isIpv6 parts.host pq hok.host
      (by rintro digits ⟨⟩; exact hdigits) hends
    rw [hport] at hplain
    exact hplain

theorem UnixParts.reparse {parts : UnixParts} {socket pq : List UInt8} (hok : parts.Ok socket) (hgives : parts.Gives socket u)
    (hnul : 0 ∉ parts.path) (hhead : pq.head? = some 0x2F) :
    parseChttpUrl (urlPrefix u ++ pq) =
      (requestTarget pq).map fun target => { u with pathAndQuery := target, userinfoAuthorization := none } := by
  have hends : ∀ c ∈ pq.head?, endsAuthority c = true := by
    intro c hc
    obtain rfl : 0x2F = c := by simpa [hhead] using hc
    rfl
  have hplaced (target : List UInt8) : { u with pathAndQuery := target, userinfoAuthorization := none } =
      (⟨false, false, true, socket, [], 0, target, ascii "unix://" ++ socket, none⟩ : ChttpUrl) := by
    rw [ChttpUrl.mk.injEq]
    exact ⟨hgives.isHttps, hgives.isIpv6, hgives.isUnix, hgives.unixSocketPath, hgives.host, hgives.port, rfl, hgives.originKey, rfl⟩
  have hdecodes := percentEncodeUnixPath_decodes (hok.socket.noNul hnul)
  have hne : percentEncodeUnixPath socket ≠ [] := by
    intro hnil
    rw [hnil] at hdecodes
    cases hdecodes
    exact hok.socket.nonempty hok.path rfl
  rw [funext hplaced, urlPrefix_eq, hgives.isUnix, if_pos rfl, authorityText, hgives.isUnix, if_pos rfl, hgives.unixSocketPath, parseChttpUrl_unixScheme,
    parseChttpUnixUrl_plain hne (percentEncodeUnixPath_inside socket) hdecodes hends]

theorem parseChttpUrl_urlPrefix {url pq : List UInt8} (h : parseChttpUrl url = .ok u) (hnul : 0 ∉ url) (hhead : pq.head? = some 0x2F) :
    parseChttpUrl (urlPrefix u ++ pq) =
      (requestTarget pq).map fun target => { u with pathAndQuery := target, userinfoAuthorization := none } := by
  cases accepts_of_ok h with
  | http parts _ _ hok hgives => exact NetworkParts.reparse hok hgives hhead
  | https parts _ _ hok hgives => exact NetworkParts.reparse hok hgives hhead
  | unix parts hscheme hok hgives =>
    obtain ⟨start, rfl, -⟩ := hscheme
    refine UnixParts.reparse hok hgives (fun hmem => hnul ?_) hhead
    exact mem_append_right _ (mem_append_left _ hmem)

/-! ## Redirects -/

theorem dotSegmentsRemoved_iff {path : List UInt8} : DotSegmentsRemoved path [] t ↔ t = removeDotSegments path := by
  constructor
  · intro h
    exact (removeDotLoop_eq h).symm
  · rintro rfl
    exact removeDotSegments_removed path

theorem removeDotSegments_noDotSegment (path : List UInt8) : NoDotSegment (removeDotSegments path) :=
  (removeDotSegments_removed path).noDotSegment noDotSegment_nil (.inl rfl)

theorem ofText_scheme {scheme : List UInt8} (h : schemeOf s = some scheme) :
    ofText s = { ofHierarchy (s.drop (scheme.length + 1)) with scheme := some scheme } := by
  rw [ofText, h]

theorem ofText_noScheme (h : schemeOf s = none) : ofText s = ofHierarchy s := by
  rw [ofText, h]

theorem ofText_scheme_eq : (ofText s).scheme = schemeOf s := by
  cases h : schemeOf s with
  | none => rw [ofText_noScheme h, ofHierarchy_scheme]
  | some scheme => rw [ofText_scheme h]

theorem ofHierarchy_authority (h : (ofHierarchy s).authority.isSome = true) : ∃ rest, s = 0x2F :: 0x2F :: rest := by
  rw [ofHierarchy.eq_def] at h
  split at h
  · exact ⟨_, rfl⟩
  · cases h

theorem redirect_known (hknown : (startsWithCase location "http://" || startsWithCase location "https://" ||
    startsWithCase location "http+unix://") = true) :
    RedirectsTo u location (normalizeAuthorityRef location) := by
  obtain ⟨scheme, rest, rfl, hscheme, hname⟩ := known_iff.mp hknown
  have hchars := schemeOf_scheme hscheme
  have hof := @ofText_known scheme rest hchars
  have hnormal := normalizeAuthorityRef_text (some scheme) (fun _ h => by cases h; exact hchars) rest
  have hlocation : scheme ++ 0x3A :: 0x2F :: 0x2F :: rest = (some scheme).elim [] (· ++ [0x3A]) ++ 0x2F :: 0x2F :: rest := by simp
  constructor
  · intro scheme' authority hscheme' _ _
    refine ⟨_, .scheme hscheme' (removeDotSegments_removed _), ?_⟩
    rw [hof, hlocation]
    exact hnormal
  · intro scheme' hscheme' hforeign
    rw [hof] at hscheme' hforeign
    obtain rfl : scheme = scheme' := some.inj hscheme'
    exact absurd ⟨hname, rfl⟩ hforeign
  · intro authority hnone
    rw [hof] at hnone
    cases hnone
  · intro hnone
    rw [hof] at hnone
    cases hnone

theorem redirect_foreign {scheme : List UInt8} (hscheme : schemeOf location = some scheme)
    (hknown : ¬(startsWithCase location "http://" || startsWithCase location "https://" ||
      startsWithCase location "http+unix://") = true) :
    RedirectsTo u location location := by
  have hsome : (ofText location).scheme = some scheme := ofText_scheme_eq.trans hscheme
  constructor
  · intro scheme' authority hscheme' hname hauthority
    obtain rfl : scheme = scheme' := some.inj (hsome.symm.trans hscheme')
    rw [ofText_scheme hscheme] at hauthority
    obtain ⟨rest, hrest⟩ := ofHierarchy_authority (isSome_iff_exists.mpr ⟨authority, hauthority⟩)
    have htext := schemeOf_text hscheme
    rw [hrest] at htext
    exact absurd (known_iff.mpr ⟨scheme, rest, htext, hscheme, hname⟩) hknown
  · intro _ _ _
    rfl
  · intro authority hnone
    rw [hsome] at hnone
    cases hnone
  · intro hnone
    rw [hsome] at hnone
    cases hnone

theorem redirect_network (hscheme : schemeOf location = none) (hslashes : ascii "//" <+: location) :
    RedirectsTo u location (normalizeAuthorityRef (schemeText u.isHttps ++ 0x3A :: location)) := by
  obtain ⟨rest, rfl⟩ := hslashes
  have htext : ascii "//" ++ rest = 0x2F :: 0x2F :: rest := rfl
  rw [htext] at hscheme ⊢
  have hof : ofText (0x2F :: 0x2F :: rest) =
      { ofTail (rest.dropWhile authorityChar) with authority := some (rest.takeWhile authorityChar) } := by
    rw [ofText_noScheme hscheme, ofHierarchy]
  have hchars : SchemeText (schemeText u.isHttps) := by
    cases u.isHttps
    · exact schemeText_http.1
    · exact schemeText_http.2.1
  have hnormal := normalizeAuthorityRef_text (some (schemeText u.isHttps)) (fun _ h => by cases h; exact hchars) rest
  have hlocation : schemeText u.isHttps ++ 0x3A :: 0x2F :: 0x2F :: rest =
      (some (schemeText u.isHttps)).elim [] (· ++ [0x3A]) ++ 0x2F :: 0x2F :: rest := by simp
  constructor
  · intro scheme authority hsome
    rw [hof] at hsome
    cases hsome
  · intro scheme hsome
    rw [hof] at hsome
    cases hsome
  · intro authority hnone hauthority
    refine ⟨_, .authority hnone hauthority (removeDotSegments_removed _), ?_⟩
    rw [hof, hlocation]
    exact hnormal
  · intro _ hauthority
    rw [hof] at hauthority
    cases hauthority

theorem redirect_relative {url : List UInt8} (hu : parseChttpUrl url = .ok u) (hnul : 0 ∉ url) (hne : location ≠ [])
    (hscheme : schemeOf location = none) (hslashes : ¬ascii "//" <+: location) :
    ∃ result, resolveRedirectUrl u location = .ok result ∧ RedirectsTo u location result := by
  have hof : ofText location = ofTail location := by
    rw [ofText_noScheme hscheme, ofHierarchy.eq_def]
    split
    · rename_i rest
      exact absurd ⟨rest, rfl⟩ hslashes
    · rfl
  obtain ⟨t, hresolves, htscheme, htauthority, hhead, hhash, hresult⟩ :=
    resolveRedirectUrl_relative (accepts_of_ok hu).checked.pathAndQuery hne hscheme hslashes
  have hstart : (t.path ++ t.query.elim [] (0x3F :: ·)).head? = some 0x2F := by
    rw [List.head?_append, hhead]
    rfl
  have hparse := parseChttpUrl_urlPrefix hu hnul hstart
  obtain ⟨hfit, hunfit⟩ := requestTarget_fit hstart hhash
  refine ⟨_, hresult, ?_, ?_, ?_, ?_⟩
  · intro scheme authority hsome
    rw [hof] at hsome
    cases hsome
  · intro scheme hsome
    rw [hof] at hsome
    cases hsome
  · intro authority _ hsome
    rw [hof] at hsome
    cases hsome
  · intro _ _
    rw [hof]
    refine ⟨t, hresolves, (placed_text htscheme htauthority).symm, fun h => ?_, fun h => ?_⟩
    · obtain ⟨target, htarget⟩ := hfit h
      rw [htarget] at hparse
      exact ⟨_, hparse, rfl, ⟨rfl, rfl, rfl, rfl⟩, rfl, rfl⟩
    · rw [hunfit h] at hparse
      exact hparse

theorem resolveRedirectUrl_redirectsTo {url : List UInt8} (hu : parseChttpUrl url = .ok u) (hnul : 0 ∉ url) (hne : location ≠ []) :
    ∃ result, resolveRedirectUrl u location = .ok result ∧ RedirectsTo u location result := by
  by_cases hknown : (startsWithCase location "http://" || startsWithCase location "https://" ||
      startsWithCase location "http+unix://") = true
  · refine ⟨_, ?_, redirect_known hknown⟩
    rw [resolveRedirectUrl, if_neg hne, if_pos hknown]
  · cases hscheme : schemeOf location with
    | some scheme =>
      have hhas : locationHasScheme location = true := by
        rw [locationHasScheme_iff, hscheme]
        rfl
      refine ⟨_, ?_, redirect_foreign hscheme hknown⟩
      rw [resolveRedirectUrl, if_neg hne, if_neg hknown, if_pos hhas]
    | none =>
      have hhas : ¬locationHasScheme location = true := by
        rw [locationHasScheme_iff, hscheme]
        nofun
      by_cases hslashes : ascii "//" <+: location
      · refine ⟨_, ?_, redirect_network hscheme hslashes⟩
        rw [resolveRedirectUrl, if_neg hne, if_neg hknown, if_neg hhas, if_pos ( isPrefixOf_iff_prefix.mpr hslashes)]
      · exact redirect_relative hu hnul hne hscheme hslashes

end Ccollections.Chttpclient
