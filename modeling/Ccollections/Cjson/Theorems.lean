import Ccollections.Cjson.Lemmas.Path
import Ccollections.Cjson.Lemmas.Serialize

/-!
# The language of the parser
-/

namespace Ccollections.Cjson

open List

/-- A document is accepted exactly if it is a JSON text of at most `CJSON_MAX_PARSE_DEPTH` levels, and the result is its
value. -/
theorem cjsonParse_accepts_exactly (strtod : List UInt8 → UInt64) (src : List UInt8) (v : Json) :
    (cjsonParseN strtod (some src) = .ok v ↔ JsonText strtod cjsonMaxParseDepth src v) ∧
    (cjsonParse strtod (some src) = .ok v ↔ JsonText strtod cjsonMaxParseDepth (src.takeWhile (· ≠ 0)) v) :=
  ⟨⟨parseCommon_sound, parseCommon_complete⟩, ⟨parseCommon_sound, parseCommon_complete⟩⟩

/-!
# Paths and their components
-/

open List

/-- A path made of components has these components, the last dot divides it, and an index is what its digits say or the
largest `size_t`. -/
theorem path_components_agree :
    (∀ components : List (List UInt8), components ≠ [] → pathComponents (joinPath components) = components) ∧
    (∀ path : List UInt8,
      match pathFindLastUnescapedDot path with
      | none => pathSplit path = [path]
      | some dot => pathSplit (path.take dot) = (pathSplit path).dropLast ∧
          (pathSplit path).getLast? = some (path.drop (dot + 1)) ∧
          pathComponents (path.take dot) = (pathComponents path).dropLast ∧
          (pathComponents path).getLast? = some (pathUnescapeComponent (path.drop (dot + 1)))) ∧
    ∀ digits : List UInt8, parseListIndexComponent digits =
      if digits ≠ [] ∧ digits.all isDigitByte = true then some (min (decimalValue digits) sizeMax) else none := by
  refine ⟨?_, ?_, parseListIndexComponent_eq⟩
  · intro components hne
    cases components with
    | nil => exact absurd rfl hne
    | cons component rest => exact pathComponents_join component rest
  · intro path
    obtain ⟨hnone, hsome⟩ := pathSplit_last path
    cases hlast : pathFindLastUnescapedDot path with
    | none => exact hnone hlast
    | some dot =>
      obtain ⟨u, v, hpath, hlen, hsplit⟩ := hsome dot hlast
      have htake : path.take dot = u := by rw [hpath, ← hlen, take_left]
      have hdrop : path.drop (dot + 1) = v := by
        rw [hpath, ← hlen, ← drop_drop, drop_left]
        rfl
      dsimp only
      rw [pathComponents, pathComponents, htake, hdrop, hsplit]
      simp

/-- No path has no components. -/
theorem pathComponents_join_nil : pathComponents (joinPath []) ≠ [] := by
  have hjoin : joinPath [] = [] := rfl
  rw [hjoin, pathComponents, pathSplit_none rfl]
  exact cons_ne_nil _ _

/-!
# The parser reads back what the serializer writes
-/

open List

variable {strtod : List UInt8 → UInt64} {n : Nat} {t s : List UInt8} {v : Json}

/-! ## A text holds no NUL -/

theorem hexDigit_ne_nul {c : UInt8} (h : HexDigit c n) : c ≠ 0 := by
  rintro rfl
  cases h with
  | digit h => exact absurd h.1 (by decide)
  | lower h => exact absurd h.1 (by decide)
  | upper h => exact absurd h.1 (by decide)

theorem unicodeEscape_no_nul (h : UnicodeEscape t n) : 0 ∉ t := by
  cases h with
  | mk h₀ h₁ h₂ h₃ =>
    simp [(hexDigit_ne_nul h₀).symm, (hexDigit_ne_nul h₁).symm, (hexDigit_ne_nul h₂).symm, (hexDigit_ne_nul h₃).symm]

theorem charText_no_nul (h : CharText t s) : 0 ∉ t := by
  cases h with
  | @unescaped c hcontrol hquote hbackslash =>
    intro hmem
    have hplain := (encode_plain_iff c).mpr ⟨hcontrol, hquote, hbackslash⟩ 0 hmem
    exact absurd hplain (by decide)
  | escaped h =>
    cases h with
    | @short e v h =>
      intro hmem
      have he : 0 = e := by simpa using (mem_cons.mp hmem).resolve_left (by decide)
      subst he
      exact absurd h (by simp [shortEscapes])
    | unicode h => exact unicodeEscape_no_nul h
    | surrogates h h' => simp [unicodeEscape_no_nul h, unicodeEscape_no_nul h']

theorem stringText_no_nul (h : StringText t s) : 0 ∉ t := by
  obtain ⟨h⟩ := h
  have hchars : ∀ {t s}, CharsText t s → 0 ∉ t := by
    intro t s h
    induction h with
    | nil => simp
    | cons h _ ih => simp [charText_no_nul h, ih]
  simp [hchars h]

theorem digits_no_nul {ds : List UInt8} (h : ∀ c ∈ ds, Digit c) : 0 ∉ ds :=
  fun hmem => absurd (h 0 hmem).1 (by decide)

theorem numberText_no_nul (h : NumberText strtod t v) : 0 ∉ t := by
  have hminus : ∀ neg, 0 ∉ minus neg := by decide
  have hint : ∀ {ds}, IntPart ds → 0 ∉ ds := by
    intro ds hds
    obtain ⟨d, ds', rfl, hd, hds'⟩ := hds.head
    exact digits_no_nul (forall_mem_cons.mpr ⟨hd, hds'⟩)
  cases h with
  | integer hds _ => simp [hminus, hint hds]
  | @float neg ds frac exp hds hfrac hexp _ _ =>
    have hfrac0 : 0 ∉ frac := by
      cases hfrac with
      | none => simp
      | some h => simp [digits_no_nul h.2]
    have hexp0 : 0 ∉ exp := by
      cases hexp with
      | none => simp
      | some he hsign h =>
        have hsign0 : ∀ sign : List UInt8, sign = [] ∨ sign = [0x2B] ∨ sign = [0x2D] → 0 ∉ sign := by
          rintro sign (rfl | rfl | rfl) <;> decide
        rcases he with rfl | rfl <;> simp [digits_no_nul h.2, hsign0 _ hsign]
    simp [hminus, hint hds, hfrac0, hexp0]

theorem ws_no_nul {w : List UInt8} (h : Ws w) : 0 ∉ w := fun hmem => absurd (h 0 hmem) (by decide)

theorem commaSeparated_no_nul {parts : List (List UInt8)} (h : ∀ p ∈ parts, 0 ∉ p) : 0 ∉ commaSeparated parts := by
  cases parts with
  | nil => simp [commaSeparated]
  | cons p ps =>
    rw [commaSeparated_cons]
    simpa using h

theorem valueText_no_nul (h : ValueText strtod n t v) : 0 ∉ t := by
  induction h with
  | scalar h =>
    cases h with
    | null => decide
    | true => decide
    | false => decide
    | number h => exact numberText_no_nul h
    | string h => exact stringText_no_nul h
  | emptyList hw => simp [ws_no_nul hw]
  | @list n elems _ hws _ ih =>
    have hparts : 0 ∉ commaSeparated (elems.map Element.padded) := commaSeparated_no_nul fun p hp => by
      obtain ⟨e, he, rfl⟩ := mem_map.mp hp
      simp [Element.padded, ws_no_nul (hws e he).1, ws_no_nul (hws e he).2, ih e he]
    simp [hparts]
  | emptyDictionary hw => simp [ws_no_nul hw]
  | @dictionary n members _ hws hkeys _ ih =>
    have hparts : 0 ∉ commaSeparated (members.map Member.full) := commaSeparated_no_nul fun p hp => by
      obtain ⟨m, hm, rfl⟩ := mem_map.mp hp
      obtain ⟨hbeforeKey, hafterKey, hbefore, hafter⟩ := hws m hm
      simp [Member.full, Element.padded, ws_no_nul hbeforeKey, ws_no_nul hafterKey, ws_no_nul hbefore, ws_no_nul hafter,
        stringText_no_nul (hkeys m hm), ih m hm]
    simp [hparts]

/-! ## The round trip -/

variable {env : SerializeEnv}

theorem parse_serializeWith {indent : UInt32} (h : Tree cjsonMaxSerializeDepth v)
    (hlibc : ∀ d, HoldsDouble d v → LibcReadsBack env d) (hs : serializeWith env (some v) indent = some s) :
    cjsonParse env.strtod (some s) = .ok v ∧ cjsonParseN env.strtod (some s) = .ok v := by
  have htext := serializeWith_jsonText h hlibc hs
  have hdoc : JsonText env.strtod cjsonMaxParseDepth s v := ⟨[], s, [], by simp, Ws.nil, Ws.nil, htext⟩
  have hnul : s.takeWhile (· ≠ 0) = s := by
    rw [takeWhile_eq_self_iff]
    intro c hc
    have hne : c ≠ 0 := fun h => valueText_no_nul htext (h ▸ hc)
    simpa using hne
  have hparse := parseCommon_complete hdoc
  refine ⟨?_, hparse⟩
  rw [cjsonParse, Option.map_some, hnul]
  exact hparse

/-- What `cjson_serialize` and `cjson_serialize_pretty` return for a tree parses to that tree, and they return a text
when every request is granted. -/
theorem cjsonSerialize_round_trip (env : SerializeEnv) (v : Json) (htree : Tree cjsonMaxSerializeDepth v)
    (hlibc : ∀ d, HoldsDouble d v → LibcReadsBack env d) :
    (∀ s, cjsonSerialize env (some v) = some s →
      cjsonParse env.strtod (some s) = .ok v ∧ cjsonParseN env.strtod (some s) = .ok v) ∧
    (∀ indent s, cjsonSerializePretty env (some v) indent = some s →
      cjsonParse env.strtod (some s) = .ok v ∧ cjsonParseN env.strtod (some s) = .ok v) ∧
    ((∀ i n, env.room i n = true) →
      (cjsonSerialize env (some v)).isSome ∧ ∀ indent, (cjsonSerializePretty env (some v) indent).isSome) := by
  refine ⟨fun s hs => parse_serializeWith htree hlibc hs, fun indent s hs => parse_serializeWith htree hlibc hs, ?_⟩
  intro hroom
  exact ⟨serializeWith_isSome htree hlibc hroom, fun indent => serializeWith_isSome htree hlibc hroom⟩

def oneAndHalf : SerializeEnv where
  room _ _ := true
  formatG _ d := if d = 0x3FF0000000000000 then [0x31] else [0x30, 0x2E, 0x35]
  strtod t := if t = [0x31] ∨ t = [0x31, 0x2E, 0x30] then 0x3FF0000000000000 else 0x3FE0000000000000

def sampleTree : Json :=
  .dictionary [([0x61, 0x0A], .list [.float 0x3FF0000000000000, .float 0x3FE0000000000000, .integer (-7)]), ([], .dictionary [])]

theorem sampleTree_tree : Tree cjsonMaxSerializeDepth sampleTree := by
  have hutf8 : WellFormedUtf8 [0x61, 0x0A] := by
    refine wellFormedUtf8_of_ascii ?_
    simp only [forall_mem_cons]
    exact ⟨by decide, by decide, nofun⟩
  refine .dictionary (by decide) ?_ ?_
  · simp only [forall_mem_cons]
    exact ⟨⟨hutf8, by decide⟩, ⟨wellFormedUtf8_nil, by decide⟩, nofun⟩
  · simp only [forall_mem_cons]
    refine ⟨.list ?_, .dictionary (by decide) nofun nofun, nofun⟩
    simp only [forall_mem_cons]
    exact ⟨.float (by decide), .float (by decide), .integer, nofun⟩

theorem oneAndHalf_readsBack (d : UInt64) (h : d = 0x3FF0000000000000 ∨ d = 0x3FE0000000000000) : LibcReadsBack oneAndHalf d := by
  rcases h with rfl | rfl
  · have hchosen : cjsonFormatShortestC oneAndHalf 32 0x3FF0000000000000 = [0x31] := by
      rw [cjsonFormatShortestC, if_neg (by decide), shortestLoop, if_pos (by decide), if_pos (by decide)]
      decide
    refine ⟨fun prec _ _ => ⟨by simp [oneAndHalf], false, [0x31], [], [], by simp [oneAndHalf, minus], .digits (by decide) (by simp), .none, .none⟩, ?_, ?_⟩
    · rw [hchosen]
      decide
    · rw [hchosen]
      decide
  · have hchosen : cjsonFormatShortestC oneAndHalf 32 0x3FE0000000000000 = [0x30, 0x2E, 0x35] := by
      rw [cjsonFormatShortestC, if_neg (by decide), shortestLoop, if_pos (by decide), if_pos (by decide)]
      decide
    refine ⟨fun prec _ _ => ⟨by simp [oneAndHalf], false, [0x30], [0x2E, 0x35], [], by simp [oneAndHalf, minus], .zero,
       .some ⟨by decide, by simp [Digit]⟩, .none⟩,
      ?_, ?_⟩
    · rw [hchosen]
      decide
    · rw [hchosen]
      decide

theorem cjsonSerialize_round_trip_sample : Tree cjsonMaxSerializeDepth sampleTree ∧
    (∀ s, cjsonSerialize oneAndHalf (some sampleTree) = some s → cjsonParse oneAndHalf.strtod (some s) = .ok sampleTree) ∧
    (cjsonSerialize oneAndHalf (some sampleTree)).isSome := by
  have hdoubles : ∀ d, HoldsDouble d sampleTree → LibcReadsBack oneAndHalf d := by
    intro d hd
    apply oneAndHalf_readsBack
    cases hd with
    | dictionary hm hd =>
      simp only [mem_cons, not_mem_nil, or_false] at hm
      rcases hm with rfl | rfl
      · cases hd with
        | list he hd =>
          simp only [mem_cons, not_mem_nil, or_false] at he
          rcases he with rfl | rfl | rfl
          · cases hd
            exact .inl rfl
          · cases hd
            exact .inr rfl
          · cases hd
      · cases hd with
        | dictionary hm _ => cases hm
  have h := cjsonSerialize_round_trip oneAndHalf sampleTree sampleTree_tree hdoubles
  exact ⟨sampleTree_tree, fun s hs => (h.1 s hs).1, (h.2.2 fun _ _ => rfl).1⟩

/-!
# The encoding of strings
-/

open List

/-- The check, the encoder and the surrogate pairs follow the encodings of scalar values, and a step covers a whole
encoding or a maximal ill-formed subpart. -/
theorem utf8_exact :
    (∀ s, ccolUtf8IsValid s = true ↔ ∃ cs : List Char, s = cs.flatMap String.utf8EncodeChar) ∧
    (∀ c : Char, encodeUtf8 c.val.toNat = String.utf8EncodeChar c) ∧
    (∀ t t' high low pos rest, UnicodeEscape (0x5C :: 0x75 :: t) high → UnicodeEscape t' low →
      (0xD800 ≤ high ∧ high ≤ 0xDBFF) → (0xDC00 ≤ low ∧ low ≤ 0xDFFF) →
      ∃ c : Char, c.val.toNat = 0x10000 + (high - 0xD800) * 0x400 + (low - 0xDC00) ∧
        parseUnicodeEscape ⟨pos, t ++ t' ++ rest⟩ =
          .ok (String.utf8EncodeChar c, ⟨pos + (t ++ t').length, rest⟩)) ∧
    (∀ c s, ccolUtf8Step (String.utf8EncodeChar c ++ s) = ((String.utf8EncodeChar c).length, true)) ∧
    (∀ s, s ≠ [] → (¬∃ c, String.utf8EncodeChar c <+: s) →
      (ccolUtf8Step s).2 = false ∧ MaximalSubpart (ccolUtf8Step s).1 s) ∧
    (∀ s, s ≠ [] → 0 < (ccolUtf8Step s).1 ∧ (ccolUtf8Step s).1 ≤ s.length) ∧
    ∀ s, ∃ k ≤ s.length, (fun u : List UInt8 => u.drop (ccolUtf8Step u).1)^[k] s = [] := by
  refine ⟨ccolUtf8IsValid_iff, encodeUtf8_eq, ?_, fun c => ccolUtf8Step_sequence (utf8Sequence_encode c), ?_, ?_,
    ccolUtf8Step_iterate⟩
  · intro t t' high low pos rest h h' hhigh hlow
    obtain ⟨c, hc⟩ := exists_char (v := 0x10000 + (high - 0xD800) * 0x400 + (low - 0xDC00)) (by omega) (by omega)
    exact ⟨c, hc, parseUnicodeEscape_complete (.surrogates h h' hhigh hlow hc)⟩
  · intro s hne hnone
    cases s with
    | nil => exact absurd rfl hne
    | cons b0 s =>
      obtain ⟨t, s', hs, ht, -⟩ | ⟨n, hn, hstep⟩ := ccolUtf8Step_cases b0 s
      · obtain ⟨c, rfl⟩ := ht.exists_encode
        exact absurd ⟨c, s', hs.symm⟩ hnone
      · rw [hstep]
        exact ⟨rfl, hn⟩
  · intro s hne
    cases s with
    | nil => exact absurd rfl hne
    | cons b0 s => exact ⟨ccolUtf8Step_pos b0 s, ccolUtf8Step_le_length _⟩

end Ccollections.Cjson
