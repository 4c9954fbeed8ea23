import Ccollections.Cjson.Lemmas.ParseString
import Ccollections.Lib.Runs
import Ccollections.Lib.Maps

/-!
# Parsing of whole documents

`parse_value` walks the nesting with an explicit stack of frames. It is a machine here whose states are the
labels of the source.
-/

namespace Ccollections.Cjson
open Lib List

def cjsonMaxParseDepth : Nat := 500

/-- A list or a dictionary that is being filled. -/
inductive Container where
  | list (elems : List Json)
  | dictionary (members : List (List UInt8 × Json))

def Container.isDict : Container → Bool
  | .list _ => false
  | .dictionary _ => true

def Container.toJson : Container → Json
  | .list elems => .list elems
  | .dictionary members => .dictionary members

/-- `ccol_chmap_insert_or_get_elem`, and `dict_slot_replace_child` for a key that is already there. -/
def dictPut (members : List (List UInt8 × Json)) (key : List UInt8) (child : Json) : List (List UInt8 × Json) :=
  match OrderedMap.lookup (· == ·) members key with
  | none => members ++ [(key, child)]
  | some _ => OrderedMap.update (· == ·) members key child

/-- `parse_frame_t`; the kind of the container is that of `node`. -/
structure ParseFrame where
  node : Container
  keyOff : Nat
  keyLen : Nat
  started : Bool

/-- The labels of `parse_value`, with the frames around the one a label works on, innermost first. -/
inductive ParseState where
  | valueStep (ctx : ParseCtx) (frames : List ParseFrame) (keys : List UInt8)
  | deliverStep (pending : Json) (ctx : ParseCtx) (frames : List ParseFrame) (keys : List UInt8)
  | nextStep (f : ParseFrame) (ctx : ParseCtx) (frames : List ParseFrame) (keys : List UInt8)
  | keyStep (f : ParseFrame) (ctx : ParseCtx) (frames : List ParseFrame) (keys : List UInt8)

abbrev ParseResult := Except ParseError (Json × ParseCtx)

def valueStep (strtod : List UInt8 → UInt64) (ctx : ParseCtx) (frames : List ParseFrame) (keys : List UInt8) :
    ParseState ⊕ ParseResult :=
  match peek ctx with
  | (none, ctx) => .inr (.error (.unexpectedEnd ctx.pos))
  | (some c, ctx) =>
    if c = 0x5B ∨ c = 0x7B then
      if frames.length ≥ cjsonMaxParseDepth then .inr (.error (.tooDeep ctx.pos))
      else .inl (.nextStep ⟨if c = 0x7B then .dictionary [] else .list [], 0, 0, false⟩ (ctx.advance 1) frames keys)
    else
      match parseScalarValue strtod ctx c with
      | .error e => .inr (.error e)
      | .ok (pending, ctx) => .inl (.deliverStep pending ctx frames keys)

def deliverStep (pending : Json) (ctx : ParseCtx) (frames : List ParseFrame) (keys : List UInt8) : ParseState ⊕ ParseResult :=
  match frames with
  | [] => .inr (.ok (pending, ctx))
  | f :: frames =>
    match f.node with
    | .dictionary members =>
      let key := (keys.drop f.keyOff).take f.keyLen
      .inl (.nextStep { f with node := .dictionary (dictPut members key pending) } ctx frames (keys.take f.keyOff))
    | .list elems => .inl (.nextStep { f with node := .list (elems ++ [pending]) } ctx frames keys)

def nextStep (f : ParseFrame) (ctx : ParseCtx) (frames : List ParseFrame) (keys : List UInt8) : ParseState ⊕ ParseResult :=
  match peek ctx with
  | (none, _) => .inr (.error (.unterminatedContainer f.node.isDict))
  | (some c, ctx) =>
    if c = (if f.node.isDict then 0x7D else 0x5D) then .inl (.deliverStep f.node.toJson (ctx.advance 1) frames keys)
    else if f.started ∧ c ≠ 0x2C then .inr (.error (.expectedSeparator f.node.isDict ctx.pos))
    else
      let ctx := if f.started then ctx.advance 1 else ctx
      let f := { f with started := true }
      .inl (if f.node.isDict then .keyStep f ctx frames keys else .valueStep (skipWs ctx) (f :: frames) keys)

def keyStep (f : ParseFrame) (ctx : ParseCtx) (frames : List ParseFrame) (keys : List UInt8) : ParseState ⊕ ParseResult :=
  let ctx := skipWs ctx
  if ctx.rest.head? = some 0x22 then
    match parseKey ctx keys with
    | .error e => .inr (.error e)
    | .ok (keys, keyOff, keyLen, ctx) =>
      match expectChar ctx 0x3A with
      | .error e => .inr (.error e)
      | .ok ctx => .inl (.valueStep (skipWs ctx) ({ f with keyOff := keyOff, keyLen := keyLen } :: frames) keys)
  else .inr (.error (.expectedKey ctx.pos))

def parseStep (strtod : List UInt8 → UInt64) : ParseState → ParseState ⊕ ParseResult
  | .valueStep ctx frames keys => valueStep strtod ctx frames keys
  | .deliverStep pending ctx frames keys => deliverStep pending ctx frames keys
  | .nextStep f ctx frames keys => nextStep f ctx frames keys
  | .keyStep f ctx frames keys => keyStep f ctx frames keys

/-! ## What each step takes off the input -/

variable {strtod : List UInt8 → UInt64} {ctx ctx' : ParseCtx} {frames : List ParseFrame} {keys : List UInt8} {st : ParseState}
  {f : ParseFrame} {c : UInt8}

theorem peek_some (h : peek ctx = (some c, ctx')) :
    ctx' = skipWs ctx ∧ ∃ w, Ws w ∧ ctx.Takes w ctx' ∧ ctx.Takes (w ++ [c]) (ctx'.advance 1) := by
  rw [peek, Prod.mk.injEq] at h
  obtain ⟨hhead, rfl⟩ := h
  obtain ⟨w, hw, htakes⟩ := skipWs_takes ctx
  exact ⟨rfl, w, hw, htakes, htakes.trans (takes_advance_head hhead)⟩

theorem valueStep_cases (h : valueStep strtod ctx frames keys = .inl st) : ∃ w, Ws w ∧
    ((∃ ctx', ctx.Takes (w ++ [0x5B]) ctx' ∧ frames.length < cjsonMaxParseDepth ∧
        st = .nextStep ⟨.list [], 0, 0, false⟩ ctx' frames keys) ∨
     (∃ ctx', ctx.Takes (w ++ [0x7B]) ctx' ∧ frames.length < cjsonMaxParseDepth ∧
        st = .nextStep ⟨.dictionary [], 0, 0, false⟩ ctx' frames keys) ∨
     ∃ t v ctx', ScalarText strtod t v ∧ ctx.Takes (w ++ t) ctx' ∧ st = .deliverStep v ctx' frames keys) := by
  rw [valueStep] at h
  split at h
  · cases h
  · rename_i c ctx₁ hpeek
    obtain ⟨rfl, w, hw, htakes, hnext⟩ := peek_some hpeek
    refine ⟨w, hw, ?_⟩
    by_cases hbracket : c = 0x5B ∨ c = 0x7B
    · rw [if_pos hbracket] at h
      split_ifs at h with hdepth hdict
      · cases h
        subst hdict
        exact .inr (.inl ⟨_, hnext, Nat.lt_of_not_le hdepth, rfl⟩)
      · cases h
        have hc : c = 0x5B := hbracket.resolve_right hdict
        subst hc
        exact .inl ⟨_, hnext, Nat.lt_of_not_le hdepth, rfl⟩
    · rw [if_neg hbracket] at h
      split at h
      · cases h
      · rename_i hscalar
        cases h
        obtain ⟨t, ht, htakes'⟩ := parseScalarValue_sound hscalar
        exact .inr (.inr ⟨t, _, _, ht, htakes.trans htakes', rfl⟩)

theorem nextStep_cases (h : nextStep f ctx frames keys = .inl st) : ∃ w, Ws w ∧
    ((∃ ctx', ctx.Takes (w ++ [if f.node.isDict then 0x7D else 0x5D]) ctx' ∧
        st = .deliverStep f.node.toJson ctx' frames keys) ∨
     (f.node.isDict = true ∧ ∃ ctx', ctx.Takes (w ++ if f.started then [0x2C] else []) ctx' ∧
        st = .keyStep { f with started := true } ctx' frames keys) ∨
     f.node.isDict = false ∧ ∃ w' ctx', Ws w' ∧ ctx.Takes (w ++ (if f.started then [0x2C] else []) ++ w') ctx' ∧
        st = .valueStep ctx' ({ f with started := true } :: frames) keys) := by
  rw [nextStep] at h
  split at h
  · cases h
  · rename_i c ctx₁ hpeek
    obtain ⟨rfl, w, hw, htakes, hnext⟩ := peek_some hpeek
    refine ⟨w, hw, ?_⟩
    by_cases hclose : c = (if f.node.isDict then 0x7D else 0x5D)
    · rw [if_pos hclose] at h
      cases h
      exact .inl ⟨_, hclose ▸ hnext, rfl⟩
    · rw [if_neg hclose] at h
      by_cases hsep : f.started = true ∧ c ≠ 0x2C
      · rw [if_pos hsep] at h
        cases h
      · rw [if_neg hsep] at h
        right
        have hstart : ctx.Takes (w ++ if f.started then [0x2C] else []) (if f.started then (skipWs ctx).advance 1 else skipWs ctx) := by
          cases hstarted : f.started with
          | true =>
            have hc : c = 0x2C := by simpa [hstarted] using hsep
            rw [if_pos rfl, if_pos rfl, ← hc]
            exact hnext
          | false => simpa using htakes
        cases hdict : f.node.isDict with
        | true =>
          simp only [hdict, ↓reduceIte] at h
          cases h
          exact .inl ⟨rfl, _, hstart, rfl⟩
        | false =>
          simp only [hdict, Bool.false_eq_true, ↓reduceIte] at h
          cases h
          obtain ⟨w', hw', htakes'⟩ := skipWs_takes (if f.started then (skipWs ctx).advance 1 else skipWs ctx)
          exact .inr ⟨rfl, w', _, hw', hstart.trans htakes', rfl⟩

theorem expectChar_sound (h : expectChar ctx c = .ok ctx') : ∃ w, Ws w ∧ ctx.Takes (w ++ [c]) ctx' := by
  rw [expectChar] at h
  split_ifs at h with hhead
  cases h
  obtain ⟨w, hw, htakes⟩ := skipWs_takes ctx
  exact ⟨w, hw, htakes.trans (takes_advance_head hhead)⟩

theorem parseKey_eq : parseKey ctx keys =
    (parseStringRaw ctx).map fun (bytes, ctx') => (keys ++ bytes ++ [0], keys.length, bytes.length, ctx') := by
  simp only [parseKey, parseStringRaw, bind, Except.bind, pure, Except.pure]
  cases parseStringScan ctx with
  | error e => rfl
  | ok scan =>
    dsimp only
    cases scan.bytes with
    | error e => rfl
    | ok r => rfl

theorem keyStep_cases (h : keyStep f ctx frames keys = .inl st) :
    ∃ w keyText key w' w'' ctx', Ws w ∧ StringText keyText key ∧ Ws w' ∧ Ws w'' ∧
      ctx.Takes (w ++ keyText ++ (w' ++ [0x3A]) ++ w'') ctx' ∧
      st = .valueStep ctx' ({ f with keyOff := keys.length, keyLen := key.length } :: frames) (keys ++ key ++ [0]) := by
  rw [keyStep] at h
  obtain ⟨w, hw, htakes⟩ := skipWs_takes ctx
  rw [parseKey_eq] at h
  split_ifs at h with hquote
  cases hraw : parseStringRaw (skipWs ctx) with
  | error e => simp [hraw, Except.map] at h
  | ok r =>
    obtain ⟨key, ctx₁⟩ := r
    obtain ⟨keyText, hkey, hkeyTakes⟩ := parseStringRaw_sound hraw
    simp only [hraw, Except.map] at h
    split at h
    · cases h
    · rename_i ctx₂ hcolon
      cases h
      obtain ⟨w', hw', hcolonTakes⟩ := expectChar_sound hcolon
      obtain ⟨w'', hw'', hlast⟩ := skipWs_takes ctx₂
      exact ⟨w, keyText, key, w', w'', _, hw, hkey, hw', hw'', ((htakes.trans hkeyTakes).trans hcolonTakes).trans hlast, rfl⟩

/-! ## The machine halts -/

def parseMeasure : ParseState → Nat
  | .valueStep ctx _ _ => 3 * ctx.rest.length
  | .deliverStep _ ctx _ _ => 3 * ctx.rest.length + 2
  | .nextStep _ ctx _ _ => 3 * ctx.rest.length + 1
  | .keyStep _ ctx _ _ => 3 * ctx.rest.length

theorem ParseCtx.Takes.length_eq {t : List UInt8} (h : ctx.Takes t ctx') :
    ctx.rest.length = t.length + ctx'.rest.length := by
  rw [h.1, length_append]

theorem parseStep_decreases (strtod : List UInt8 → UInt64) (st st' : ParseState) (h : parseStep strtod st = .inl st') :
    parseMeasure st' < parseMeasure st := by
  cases st with
  | valueStep ctx frames keys =>
    obtain ⟨w, -, ⟨ctx', htakes, -, rfl⟩ | ⟨ctx', htakes, -, rfl⟩ | ⟨t, v, ctx', ht, htakes, rfl⟩⟩ := valueStep_cases h
    · have := htakes.length_eq
      simp only [parseMeasure, length_append, length_singleton] at this ⊢
      omega
    · have := htakes.length_eq
      simp only [parseMeasure, length_append, length_singleton] at this ⊢
      omega
    · obtain ⟨d, t', rfl, -⟩ := scalarText_head ht
      have := htakes.length_eq
      simp only [parseMeasure, length_append, length_cons] at this ⊢
      omega
  | deliverStep pending ctx frames keys =>
    cases frames with
    | nil => cases h
    | cons f frames =>
      simp only [parseStep, deliverStep] at h
      split at h <;> cases h <;> exact Nat.lt_succ_self _
  | nextStep f ctx frames keys =>
    obtain ⟨w, -, ⟨ctx', htakes, rfl⟩ | ⟨-, ctx', htakes, rfl⟩ | ⟨-, w', ctx', -, htakes, rfl⟩⟩ := nextStep_cases h
    · have := htakes.length_eq
      simp only [parseMeasure, length_append, length_singleton] at this ⊢
      omega
    · have := htakes.length_eq
      simp only [parseMeasure]
      omega
    · have := htakes.length_eq
      simp only [parseMeasure]
      omega
  | keyStep f ctx frames keys =>
    obtain ⟨w, keyText, key, w', w'', ctx', -, -, -, -, htakes, rfl⟩ := keyStep_cases h
    have := htakes.length_eq
    simp only [parseMeasure, length_append, length_singleton] at this ⊢
    omega

def parseMachine (strtod : List UInt8 → UInt64) : Machine ParseState ParseResult :=
  ⟨parseStep strtod, parseMeasure, parseStep_decreases strtod⟩

def parseValue (strtod : List UInt8 → UInt64) (ctx : ParseCtx) : ParseResult :=
  (parseMachine strtod).run (.valueStep ctx [] [])

/-- `src` is `none` for a null pointer. -/
def parseCommon (strtod : List UInt8 → UInt64) (src : Option (List UInt8)) : Except ParseError Json :=
  match src with
  | none => .error .nullInput
  | some src =>
    match parseValue strtod ⟨0, src⟩ with
    | .error e => .error e
    | .ok (root, ctx) =>
      let ctx := skipWs ctx
      if ctx.rest = [] then .ok root else .error (.trailingGarbage ctx.pos)

def cjsonParseN (strtod : List UInt8 → UInt64) (jsonStr : Option (List UInt8)) : Except ParseError Json :=
  parseCommon strtod jsonStr

def cjsonParse (strtod : List UInt8 → UInt64) (jsonStr : Option (List UInt8)) : Except ParseError Json :=
  parseCommon strtod (jsonStr.map fun s => s.takeWhile (· ≠ 0))

end Ccollections.Cjson
