import Ccollections.Chttpserver.Lemmas.RouteSearch
import Ccollections.Chttpserver.Query

/-!
# Form encoding and its inverse
-/

namespace Ccollections.Chttpserver.Query
open Chttpserver.RouteSearch List Option

/-! ## Escapes -/

variable {raw : UInt8 → Bool} {t s key value : List UInt8} {c a b : UInt8} {n : Nat}

theorem byte_cases {P : UInt8 → Prop} (h : ∀ k : Fin 256, P (UInt8.ofNat k)) (c : UInt8) : P c := by
  have hc := h ⟨c.toNat, c.toNat_lt⟩
  rwa [UInt8.ofNat_toNat] at hc

theorem join_nibbles (c : UInt8) : (c >>> 4) <<< 4 ||| (c &&& 15) = c := by
  revert c
  exact byte_cases (by decide +kernel)

theorem nibbles_lt (c : UInt8) : c >>> 4 < 16 ∧ c &&& 15 < 16 := by
  constructor
  · rw [UInt8.lt_iff_toNat_lt, UInt8.toNat_shiftRight, Nat.shiftRight_eq_div_pow]
    exact Nat.div_lt_of_lt_mul c.toNat_lt
  · rw [UInt8.lt_iff_toNat_lt, UInt8.toNat_and]
    exact Nat.and_lt_two_pow _ (by decide : 15 < 2 ^ 4)

theorem hexNibble_hexDigit (u : Bool) {n : UInt8} (h : n < 16) : hexNibble (hexDigit u n) = some n := by
  simp only [hexDigit, hexNibble, ge_iff_le, Bool.and_eq_true, decide_eq_true_eq]
  grind

theorem hexDigit_nibbles (u v : Bool) (c : UInt8) :
    hexNibble (hexDigit u (c >>> 4)) = some (c >>> 4) ∧ hexNibble (hexDigit v (c &&& 15)) = some (c &&& 15) ∧
      (c >>> 4) <<< 4 ||| (c &&& 15) = c :=
  ⟨hexNibble_hexDigit u (nibbles_lt c).1, hexNibble_hexDigit v (nibbles_lt c).2, join_nibbles c⟩

theorem hexDigit_ne (u : Bool) {n : UInt8} (h : n < 16) : hexDigit u n ≠ 0x26 ∧ hexDigit u n ≠ 0x3D := by
  simp only [hexDigit]
  grind

theorem hexNibble_some {n : UInt8} (h : hexNibble a = some n) : n < 16 ∧ ∃ u, a = hexDigit u n := by
  have hdigit : n < 16 ∧ (a = hexDigit false n ∨ a = hexDigit true n) := by
    simp only [hexNibble, Bool.and_eq_true, decide_eq_true_eq] at h
    simp only [hexDigit, Bool.false_eq_true, if_true, if_false]
    grind
  exact ⟨hdigit.1, hdigit.2.elim (⟨false, ·⟩) (⟨true, ·⟩)⟩

theorem nibbles_of_byte {hi lo : UInt8} (hhi : hi < 16) (hlo : lo < 16) :
    (hi <<< 4 ||| lo) >>> 4 = hi ∧ (hi <<< 4 ||| lo) &&& 15 = lo := by
  have hall : ∀ k l : Fin 16, (UInt8.ofNat k <<< 4 ||| UInt8.ofNat l) >>> 4 = UInt8.ofNat k ∧
      (UInt8.ofNat k <<< 4 ||| UInt8.ofNat l) &&& 15 = UInt8.ofNat l := by decide +kernel
  simpa only [UInt8.ofNat_toNat] using hall ⟨hi.toNat, UInt8.lt_iff_toNat_lt.mp hhi⟩ ⟨lo.toNat, UInt8.lt_iff_toNat_lt.mp hlo⟩

theorem decodeUrl_escape (u v : Bool) (hc : c ≠ 0) :
    decodeUrl (0x25 :: hexDigit u (c >>> 4) :: hexDigit v (c &&& 15) :: s) = (decodeUrl s).map (c :: ·) := by
  obtain ⟨hhi, hlo, hbyte⟩ := hexDigit_nibbles u v c
  simp [decodeUrl, percentDecode, hhi, hlo, hbyte, hc]

theorem decodeUrl_byte (h : c ≠ 0x25) : decodeUrl (c :: s) = (decodeUrl s).map ((if c = 0x2B then 0x20 else c) :: ·) := by
  rw [decodeUrl, percentDecode.eq_def]
  by_cases hplus : c = 0x2B <;> simp [h, hplus, decodeUrl]

theorem Written.decode (hraw : ∀ c, raw c = true → c ≠ 0x25 ∧ c ≠ 0x2B) (h : Written raw t s) : decodeUrl s = some t := by
  induction h with
  | nil => rfl
  | raw hc _ ih =>
    obtain ⟨hpct, hplus⟩ := hraw _ hc
    rw [decodeUrl_byte hpct, ih, if_neg hplus, map_some]
  | escape u v hc _ ih => rw [decodeUrl_escape u v hc, ih, map_some]
  | plus _ ih => rw [decodeUrl_byte (by decide), ih, if_pos rfl, map_some]

theorem Written.delimiter (hb : b = 0x26 ∨ b = 0x3D) (hraw : raw b = false) (h : Written raw t s) : b ∉ s := by
  have hne : ∀ (u : Bool) (c : UInt8), b ≠ hexDigit u (c >>> 4) ∧ b ≠ hexDigit u (c &&& 15) ∧ b ≠ 0x25 ∧ b ≠ 0x2B := by
    intro u c
    have hdigit := hexDigit_ne u (nibbles_lt c).1
    have hdigit' := hexDigit_ne u (nibbles_lt c).2
    rcases hb with rfl | rfl
    · exact ⟨hdigit.1.symm, hdigit'.1.symm, by decide, by decide⟩
    · exact ⟨hdigit.2.symm, hdigit'.2.symm, by decide, by decide⟩
  induction h with
  | nil => exact not_mem_nil
  | @raw c _ _ hc _ ih =>
    have hcne : b ≠ c := fun heq => by rw [heq, hc] at hraw; cases hraw
    simp [hcne, ih]
  | @escape c _ _ u v hc _ ih =>
    obtain ⟨h₁, -, h₂, -⟩ := hne u c
    simp [h₁, h₂, (hne v c).2.1, ih]
  | plus _ ih => simp [(hne true 0).2.2.2, ih]

theorem Malformed.decode (h : Malformed s) : decodeUrl s = none := by
  induction h with
  | @digits s hs =>
    rw [decodeUrl, percentDecode.eq_def]
    match s with
    | [] => rfl
    | [_] => rfl
    | a :: b :: rest =>
      simp only [if_true]
      cases ha : hexNibble a with
      | none => rfl
      | some hi =>
        cases hb : hexNibble b with
        | none => rfl
        | some lo =>
          obtain ⟨hhi, u, rfl⟩ := hexNibble_some ha
          obtain ⟨hlo, v, rfl⟩ := hexNibble_some hb
          obtain ⟨hup, hdown⟩ := nibbles_of_byte hhi hlo
          refine if_pos (Classical.byContradiction fun hne => hs (hi <<< 4 ||| lo) u v rest hne ?_)
          rw [hup, hdown]
  | byte hc _ ih => rw [decodeUrl_byte hc, ih, map_none]
  | escape u v hc _ ih => rw [decodeUrl_escape u v hc, ih, map_none]

/-! ## Pairs -/

def pairOf (s : List UInt8) : Option Pair :=
  if s = [] then none
  else
    (decodeUrl (s.takeWhile (· ≠ 0x3D))).bind fun key => (decodeUrl ((s.dropWhile (· ≠ 0x3D)).drop 1)).map (key, ·)

def queryPairs (rawQuery : List UInt8) : List Pair := (rawQuery.splitOn 0x26).filterMap pairOf

theorem Piece.pairOf {p : Option Pair} (h : Piece p s) : s ≠ [] ∧ 0x26 ∉ s ∧ pairOf s = p := by
  cases h with
  | malformed hne hamp hbad =>
    refine ⟨hne, hamp, ?_⟩
    rw [Query.pairOf, if_neg hne]
    rcases hbad with hkey | hvalue
    · rw [hkey.decode, bind_none]
    · rw [hvalue.decode]
      cases decodeUrl (s.takeWhile fun c => decide (c ≠ 0x3D)) <;> rfl
  | @pair p _ hpair =>
    obtain ⟨key, value⟩ := p
    obtain ⟨k, v, hk, hv, hs⟩ := hpair
    dsimp only at hk hv hs
    have hkey : decodeUrl k = some key := hk.decode fun c hc => by
      simp only [keyRaw, valueRaw, Bool.and_eq_true, decide_eq_true_eq] at hc
      exact ⟨hc.1.1.1.2, hc.1.2⟩
    have hvalue : decodeUrl v = some value := hv.decode fun c hc => by
      simp only [valueRaw, Bool.and_eq_true, decide_eq_true_eq] at hc
      exact ⟨hc.1.1.2, hc.2⟩
    have hkeyAmp : 0x26 ∉ k := hk.delimiter (.inl rfl) rfl
    have hkeyEq : ∀ c ∈ k, decide (c ≠ 0x3D) = true := by
      intro c hc
      have hnot := hk.delimiter (.inr rfl) rfl
      rw [decide_eq_true_eq]
      rintro rfl
      exact hnot hc
    have hvalueAmp : 0x26 ∉ v := hv.delimiter (.inl rfl) rfl
    rcases hs with rfl | ⟨hempty, hne, hsame⟩
    · refine ⟨by simp, by simp [hkeyAmp, hvalueAmp], ?_⟩
      rw [Query.pairOf, if_neg (by simp), takeWhile_append_of_pos hkeyEq, dropWhile_append_of_pos hkeyEq]
      simp [hkey, hvalue]
    · rw [hsame]
      have htake : k.takeWhile (fun c => decide (c ≠ 0x3D)) = k := takeWhile_eq_self_iff.mpr hkeyEq
      have hdrop : k.dropWhile (fun c => decide (c ≠ 0x3D)) = [] := dropWhile_eq_nil_iff.mpr hkeyEq
      have hkne : k ≠ [] := by
        rintro rfl
        cases hk
        exact hne rfl
      refine ⟨hkne, hkeyAmp, ?_⟩
      rw [Query.pairOf, if_neg hkne, htake, hdrop, hkey, bind_some]
      change some (key, []) = _
      rw [← hempty]

theorem queryPairs_amp (s : List UInt8) : queryPairs (0x26 :: s) = queryPairs s := by
  have hsplit := splitOn_append_cons_self_of_not_mem (not_mem_nil (a := (0x26 : UInt8))) s
  rw [nil_append] at hsplit
  rw [queryPairs, hsplit]
  rfl

theorem queryPairs_piece {rest : List UInt8} (hs : 0x26 ∉ s) (hrest : rest = [] ∨ rest.head? = some 0x26) :
    queryPairs (s ++ rest) = (pairOf s).toList ++ queryPairs rest := by
  rcases hrest with rfl | hhead
  · rw [append_nil, queryPairs, splitOn_eq_singleton hs, filterMap_cons]
    cases pairOf s <;> rfl
  · obtain ⟨rest, rfl⟩ : ∃ tail, rest = 0x26 :: tail := by
      cases rest with
      | nil => cases hhead
      | cons b tail =>
        cases some.inj hhead
        exact ⟨tail, rfl⟩
    rw [queryPairs_amp, queryPairs, splitOn_append_cons_self_of_not_mem hs, filterMap_cons]
    cases pairOf s <;> rfl

theorem Joined.queryPairs {ps : List (Option Pair)} (h : Joined ps s) : queryPairs s = ps.filterMap id := by
  have hamps : ∀ (n : Nat) (s : List UInt8), Query.queryPairs (List.replicate n 0x26 ++ s) = Query.queryPairs s := by
    intro n s
    induction n with
    | zero => rfl
    | succ n ih => rw [replicate_succ, cons_append, queryPairs_amp, ih]
  induction h with
  | ends n => rw [← append_nil (List.replicate n 0x26), hamps]; rfl
  | @piece p ps s rest n hpiece hrest _ ih =>
    obtain ⟨-, hamp, hpair⟩ := hpiece.pairOf
    rw [append_assoc, hamps, queryPairs_piece hamp hrest, hpair, ih]
    cases p <;> rfl

/-! ## Memory -/

def Gives {α : Type} (huge : Prop) (m : Alloc α) (v : α) : Prop :=
  ∀ mem, m mem = none ∧ (huge ∨ ∃ n, mem n = false) ∨ ∃ k, m mem = some (v, fun n => mem (n + k))

variable {α β : Type} {huge : Prop}

theorem Gives.pure (v : α) : Gives huge (pure v) v := fun _ => .inr ⟨0, rfl⟩

theorem Gives.memAlloc : Gives huge memAlloc () := by
  intro mem
  cases h : mem 0 with
  | true => exact .inr ⟨1, if_pos h⟩
  | false => exact .inl ⟨if_neg (by simp [h]), .inr ⟨0, h⟩⟩

theorem Gives.bind {m : Alloc α} {f : α → Alloc β} {v : α} {w : β} (h : Gives huge m v) (hf : Gives huge (f v) w) :
    Gives huge (m >>= f) w := by
  intro mem
  change (Option.bind (m mem) fun r => f r.1 r.2) = none ∧ _ ∨ ∃ k, (Option.bind (m mem) fun r => f r.1 r.2) = _
  rcases h mem with ⟨hm, hend⟩ | ⟨k, hm⟩
  · exact .inl ⟨by rw [hm]; rfl, hend⟩
  · rw [hm, bind_some]
    rcases hf fun n => mem (n + k) with ⟨hw, hend⟩ | ⟨l, hw⟩
    · exact .inl ⟨hw, hend.imp id fun ⟨n, hn⟩ => ⟨n + k, hn⟩⟩
    · exact .inr ⟨l + k, by rw [hw]; simp only [Nat.add_assoc]⟩

theorem decodeCopy_gives (s : List UInt8) : Gives huge (decodeCopy s) (decodeUrl s) := by
  rw [decodeCopy]
  split
  · exact Gives.memAlloc.bind (Gives.memAlloc.bind (Gives.pure _))
  · exact Gives.memAlloc.bind (Gives.pure _)

theorem decodePair_gives (hne : s ≠ []) : Gives huge (decodePair s) (pairOf s) := by
  refine (decodeCopy_gives _).bind ?_
  rw [pairOf, if_neg hne]
  cases decodeUrl (s.takeWhile fun c => decide (c ≠ 0x3D)) with
  | none => exact Gives.pure _
  | some key =>
    refine @Gives.bind _ _ _ _ _ (decodeUrl ((s.dropWhile fun c => decide (c ≠ 0x3D)).drop 1)) _ ?_ (Gives.pure _)
    cases s.dropWhile fun c => decide (c ≠ 0x3D) with
    | nil => exact Gives.memAlloc.bind (Gives.pure _)
    | cons c rest => exact decodeCopy_gives rest

def queryMax : Nat := 1152921504606846972

theorem growPairs_gives {count cap : Nat} (h : count ≤ n) : ∃ cap', Gives (queryMax ≤ n) (growPairs count cap) cap' := by
  rw [growPairs]
  by_cases hfull : count ≥ cap
  · rw [if_pos hfull]
    by_cases hhuge : cap > (sizeMax - 8) / 2 ∨ cap * 2 + 8 > sizeMax / 8
    · rw [if_pos hhuge]
      refine ⟨0, fun mem => .inl ⟨rfl, .inl ?_⟩⟩
      simp only [sizeMax, queryMax] at hhuge ⊢
      omega
    · rw [if_neg hhuge]
      exact ⟨_, Gives.memAlloc.bind (Gives.memAlloc.bind (Gives.pure _))⟩
  · rw [if_neg hfull]
    exact ⟨_, Gives.pure _⟩

theorem drop_behind {first rest : List UInt8} (h : first ++ rest = s) : s.drop (first.length + 1) = rest.drop 1 := by
  rw [← h, ← drop_drop, drop_left]

theorem queryPairs_cons (c : UInt8) (s : List UInt8) :
    queryPairs (c :: s) = (pairOf ((c :: s).takeWhile (· ≠ 0x26))).toList ++
      queryPairs ((c :: s).drop (((c :: s).takeWhile (· ≠ 0x26)).length + 1)) := by
  have hsplit := takeWhile_append_dropWhile (p := fun c : UInt8 => decide (c ≠ 0x26)) (l := c :: s)
  have hnot : 0x26 ∉ (c :: s).takeWhile (· ≠ 0x26) := fun hmem => by simpa using mem_takeWhile_imp hmem
  have hdrop := drop_behind hsplit
  have hhead : (c :: s).dropWhile (· ≠ 0x26) = [] ∨ ((c :: s).dropWhile (· ≠ 0x26)).head? = some 0x26 := by
    cases hrest : (c :: s).dropWhile (· ≠ 0x26) with
    | nil => exact .inl rfl
    | cons b rest =>
      have hamp := head_dropWhile_not (fun c : UInt8 => decide (c ≠ 0x26)) (l := c :: s) (by simp only [hrest]; simp)
      simp only [hrest, head_cons, decide_eq_false_iff_not, ne_eq, not_not] at hamp
      exact .inr (by rw [hamp]; rfl)
  rw [hdrop]
  conv_lhs => rw [← hsplit, queryPairs_piece hnot hhead]
  rcases hhead with hnil | hhead
  · rw [hnil]
    rfl
  · cases hrest : (c :: s).dropWhile (· ≠ 0x26) with
    | nil => rfl
    | cons b rest =>
      rw [hrest] at hhead
      cases some.inj hhead
      rw [queryPairs_amp]
      rfl

theorem parsePairs_gives (qp : List Pair) (cap : Nat) (p : List UInt8) (hlen : qp.length + p.length ≤ n) :
    Gives (queryMax ≤ n) (parsePairs qp cap p) (qp ++ queryPairs p) := by
  generalize hm : p.length = m
  induction m using Nat.strongRecOn generalizing qp cap p with
  | ind m ih =>
    cases p with
    | nil =>
      rw [parsePairs, queryPairs]
      simpa [pairOf] using Gives.pure qp
    | cons c s =>
      have hshort : ((c :: s).drop (((c :: s).takeWhile (· ≠ 0x26)).length + 1)).length < m := by
        rw [← hm, length_drop, length_cons]
        omega
      rw [parsePairs, queryPairs_cons]
      by_cases hempty : (c :: s).takeWhile (· ≠ 0x26) = []
      · rw [if_pos hempty]
        have hnone : pairOf ((c :: s).takeWhile (· ≠ 0x26)) = none := by rw [hempty]; rfl
        rw [hnone]
        exact ih _ hshort _ _ _ (by omega) rfl
      · rw [if_neg hempty]
        refine (decodePair_gives hempty).bind ?_
        cases pairOf ((c :: s).takeWhile (· ≠ 0x26)) with
        | none => exact ih _ hshort _ _ _ (by omega) rfl
        | some kv =>
          obtain ⟨cap', hgrow⟩ := @growPairs_gives n qp.length cap (by omega)
          refine hgrow.bind ?_
          have hrest := ih _ hshort (qp ++ [kv]) cap' _ (by simp only [length_append, length_singleton]; omega) rfl
          rwa [append_assoc] at hrest

theorem parseQparams_gives (rawQuery : List UInt8) :
    Gives (queryMax ≤ rawQuery.length) (parseQparams rawQuery) (queryPairs rawQuery) :=
  Gives.memAlloc.bind (parsePairs_gives [] 0 rawQuery (Nat.le_of_eq (Nat.zero_add _)))

/-! ## Requests -/

structure Req.Sound (rawQuery : List UInt8) (req : Req) : Prop where
  query : req.rawQuery = rawQuery
  unread : req.attempted = false → req.qparams = none ∧ req.parseOom = false
  read : req.attempted = true → req.parseOom = false → req.qparams = some (queryPairs rawQuery)
  lost : req.parseOom = true → req.qparams = none ∨ req.qparams = some []

theorem queryPairs_nil : queryPairs [] = [] := by simp [queryPairs, pairOf]

variable {rawQuery : List UInt8} {req : Req}

theorem Req.Sound.ensureQparams (h : req.Sound rawQuery) (mem seen : Nat → Bool) :
    (ensureQparams req mem seen).1.Sound rawQuery ∧ (ensureQparams req mem seen).1.attempted = true ∧
      (ensureQparams req mem seen).1.resultOom = req.resultOom ∧
      ((∀ n, mem n = true) → rawQuery.length < queryMax →
        (Query.ensureQparams req mem seen).1.parseOom = req.parseOom ∧ ∀ n, (Query.ensureQparams req mem seen).2 n = true) := by
  rw [Query.ensureQparams]
  by_cases hdone : req.qparams.isSome ∨ req.attempted
  · rw [if_pos hdone]
    refine ⟨h, ?_, rfl, fun hmem _ => ⟨rfl, hmem⟩⟩
    rcases hdone with hsome | hattempted
    · refine Bool.eq_false_imp_eq_true.mp fun hfalse => ?_
      rw [(h.unread hfalse).1] at hsome
      cases hsome
    · exact hattempted
  · rw [if_neg hdone]
    have hfresh : req.parseOom = false := (h.unread (by simpa using fun hattempted => hdone (.inr hattempted))).2
    simp only
    by_cases hraw : req.rawQuery = []
    · have hnone : queryPairs rawQuery = [] := by rw [← h.query, hraw, queryPairs_nil]
      rw [if_pos hraw]
      split
      · exact ⟨⟨h.query, nofun, fun _ _ => by rw [hnone], fun hlost => .inr rfl⟩, rfl, rfl, fun hmem _ => ⟨rfl, fun n => hmem _⟩⟩
      · refine ⟨⟨h.query, nofun, nofun, fun _ => .inl ?_⟩, rfl, rfl, fun hmem _ => absurd (hmem 0) ‹_›⟩
        exact not_isSome_iff_eq_none.mp fun hsome => hdone (.inl hsome)
    · rw [if_neg hraw]
      rcases parseQparams_gives req.rawQuery mem with ⟨hparse, hend⟩ | ⟨k, hparse⟩
      · rw [hparse]
        have habsurd : (∀ n, mem n = true) → rawQuery.length < queryMax → False := by
          intro hmem hlen
          rcases hend with hhuge | ⟨n, hn⟩
          · rw [h.query] at hhuge
            omega
          · rw [hmem n] at hn
            cases hn
        simp only
        split
        · exact ⟨⟨h.query, nofun, nofun, fun _ => .inr rfl⟩, rfl, rfl, fun hmem hlen => (habsurd hmem hlen).elim⟩
        · refine ⟨⟨h.query, nofun, nofun, fun _ => .inl ?_⟩, rfl, rfl, fun hmem hlen => (habsurd hmem hlen).elim⟩
          exact not_isSome_iff_eq_none.mp fun hsome => hdone (.inl hsome)
      · rw [hparse]
        refine ⟨⟨h.query, nofun, fun _ _ => by rw [h.query], fun hlost => ?_⟩, rfl, rfl, fun hmem _ => ⟨rfl, fun n => hmem _⟩⟩
        rw [hfresh] at hlost
        cases hlost

structure QueryAnswers (rawQuery key : List UInt8) (req : Req) (mem : Nat → Bool) (answer : List (List UInt8) × Req) : Prop where
  values : answer.1 = valuesOf (queryPairs rawQuery) key ∨ answer.1 = [] ∧ answer.2.queryOom = true
  enough : (∀ n, mem n = true) → rawQuery.length < queryMax → answer.2.queryOom = req.queryOom

structure OneAnswers (rawQuery key : List UInt8) (req : Req) (mem : Nat → Bool) (answer : Except QueryError (List UInt8) × Req) :
    Prop where
  one : ∀ value, answer.1 = .ok value → valuesOf (queryPairs rawQuery) key = [value]
  succeeds : ∀ value, valuesOf (queryPairs rawQuery) key = [value] →
    answer.1 = .ok value ∨ answer.1 = .error .notEnoughMemory ∧ answer.2.queryOom = true
  enough : (∀ n, mem n = true) → rawQuery.length < queryMax → answer.2.queryOom = req.queryOom

theorem Req.Sound.reqQuery (h : req.Sound rawQuery) (key : List UInt8) (mem seen : Nat → Bool) :
    (reqQuery req key mem seen).2.Sound rawQuery ∧ QueryAnswers rawQuery key req mem (Query.reqQuery req key mem seen) := by
  obtain ⟨hsound, hattempted, hresult, henough⟩ := h.ensureQparams mem seen
  rw [Query.reqQuery]
  generalize Query.ensureQparams req mem seen = r at hsound hattempted hresult henough
  obtain ⟨⟨raw, qparams, attempted, parseOom, resultCap, resultOom⟩, mem'⟩ := r
  cases hattempted
  cases hresult
  have hkept : (∀ n, mem n = true) → rawQuery.length < queryMax → (req.resultOom || parseOom) = req.queryOom :=
    fun hmem hlen => congrArg (req.resultOom || ·) (henough hmem hlen).1
  cases parseOom with
  | true =>
    rcases hsound.lost rfl with hnone | hnil
    · cases hnone
      exact ⟨hsound, .inr ⟨rfl, Bool.or_true _⟩, hkept⟩
    · cases hnil
      exact ⟨hsound, .inr ⟨rfl, Bool.or_true _⟩, hkept⟩
  | false =>
    cases hsound.read rfl rfl
    simp only
    by_cases hnone : valuesOf (queryPairs rawQuery) key = []
    · rw [if_pos hnone]
      exact ⟨hsound, .inl hnone.symm, hkept⟩
    · rw [if_neg hnone]
      split
      · split
        · exact ⟨⟨hsound.query, hsound.unread, hsound.read, hsound.lost⟩, .inl rfl, hkept⟩
        · refine ⟨⟨hsound.query, hsound.unread, hsound.read, hsound.lost⟩, .inr ⟨rfl, rfl⟩, fun hmem hlen => ?_⟩
          exact absurd ((henough hmem hlen).2 0) ‹_›
      · exact ⟨hsound, .inl rfl, hkept⟩

theorem Req.Sound.reqQueryOne (h : req.Sound rawQuery) (key : List UInt8) (mem seen : Nat → Bool) :
    (reqQueryOne req key mem seen).2.Sound rawQuery ∧ OneAnswers rawQuery key req mem (Query.reqQueryOne req key mem seen) := by
  obtain ⟨hsound, hattempted, hresult, henough⟩ := h.ensureQparams mem seen
  rw [Query.reqQueryOne]
  generalize Query.ensureQparams req mem seen = r at hsound hattempted hresult henough
  obtain ⟨⟨raw, qparams, attempted, parseOom, resultCap, resultOom⟩, mem'⟩ := r
  cases hattempted
  cases hresult
  have hkept : (∀ n, mem n = true) → rawQuery.length < queryMax → (req.resultOom || parseOom) = req.queryOom :=
    fun hmem hlen => congrArg (req.resultOom || ·) (henough hmem hlen).1
  cases parseOom with
  | true =>
    cases qparams with
    | none => exact ⟨hsound, nofun, fun _ _ => .inr ⟨rfl, Bool.or_true _⟩, hkept⟩
    | some qp => exact ⟨hsound, nofun, fun _ _ => .inr ⟨rfl, Bool.or_true _⟩, hkept⟩
  | false =>
    cases hsound.read rfl rfl
    simp only [Bool.false_eq_true, if_false]
    cases hvalues : valuesOf (queryPairs rawQuery) key with
    | nil => exact ⟨hsound, nofun, fun _ hone => (by rw [hvalues] at hone; cases hone), hkept⟩
    | cons value rest =>
      cases rest with
      | nil =>
        refine ⟨hsound, fun _ hok => ?_, fun _ hone => .inl ?_, hkept⟩
        · cases hok
          exact hvalues
        · rw [hvalues] at hone
          cases hone
          rfl
      | cons => exact ⟨hsound, nofun, fun _ hone => (by rw [hvalues] at hone; cases hone), hkept⟩

theorem Req.Reached.sound (h : Req.Reached rawQuery req) : req.Sound rawQuery := by
  induction h with
  | start => exact ⟨rfl, fun _ => ⟨rfl, rfl⟩, nofun, nofun⟩
  | query key mem seen _ ih => exact (ih.reqQuery key mem seen).1
  | queryOne key mem seen _ ih => exact (ih.reqQueryOne key mem seen).1

end Ccollections.Chttpserver.Query
