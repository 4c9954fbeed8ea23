import Ccollections.Cjson.Path
import Mathlib.Data.List.TakeWhile

/-!
# The components of a path
-/

namespace Ccollections.Cjson

open List Option

variable {c d : UInt8} {s u v path component : List UInt8} {i : Nat}

/-! ## One step of a scan -/

theorem isEscape_iff : isEscape c d = true ↔ c = 0x5C ∧ (d = 0x2E ∨ d = 0x5C) := by
  simp only [isEscape, Bool.and_eq_true, Bool.or_eq_true, decide_eq_true_eq]

theorem find_escape (h : isEscape c d = true) (s : List UInt8) :
    pathFindUnescapedDot (c :: d :: s) = (pathFindUnescapedDot s).map (· + 2) := by
  rw [pathFindUnescapedDot, if_pos h]

theorem find_dot (s : List UInt8) : pathFindUnescapedDot (0x2E :: s) = some 0 := by
  cases s with
  | nil => rfl
  | cons d s => rw [pathFindUnescapedDot, if_neg (by simp [isEscape]), if_pos rfl]

theorem find_cons (hesc : ∀ d ∈ s.head?, isEscape c d = false) (hdot : c ≠ 0x2E) :
    pathFindUnescapedDot (c :: s) = (pathFindUnescapedDot s).map (· + 1) := by
  cases s with
  | nil => rw [pathFindUnescapedDot, if_neg hdot]; rfl
  | cons d s => rw [pathFindUnescapedDot, if_neg (by rw [hesc d rfl]; exact Bool.false_ne_true), if_neg hdot]

theorem unescape_cons (hesc : ∀ d ∈ s.head?, isEscape c d = false) :
    pathUnescapeComponent (c :: s) = c :: pathUnescapeComponent s := by
  cases s with
  | nil => rfl
  | cons d s => rw [pathUnescapeComponent, if_neg (by rw [hesc d rfl]; exact Bool.false_ne_true)]

theorem not_isEscape (h : c ≠ 0x5C) (d : UInt8) : isEscape c d = false := by simp [isEscape, h]

/-! ## Escaped components -/

theorem escapeComponent_cons (c : UInt8) (component : List UInt8) : escapeComponent (c :: component) =
    (if c = 0x5C || c = 0x2E then [0x5C, c] else [c]) ++ escapeComponent component := flatMap_cons

theorem find_escapeComponent (component rest : List UInt8) (hrest : rest = [] ∨ rest.head? = some 0x2E) :
    pathFindUnescapedDot (escapeComponent component ++ rest) =
      if rest = [] then none else some (escapeComponent component).length := by
  induction component with
  | nil =>
    rcases hrest with rfl | hdot
    · rfl
    · obtain ⟨t, rfl⟩ := List.head?_eq_some_iff.mp hdot
      exact find_dot t
  | cons c component ih =>
    rw [escapeComponent_cons]
    by_cases hc : c = 0x5C ∨ c = 0x2E
    · have hesc : isEscape 0x5C c = true := isEscape_iff.mpr ⟨rfl, hc.symm⟩
      have hstep : pathFindUnescapedDot ([0x5C, c] ++ escapeComponent component ++ rest) =
          (pathFindUnescapedDot (escapeComponent component ++ rest)).map (· + 2) := find_escape hesc _
      rw [if_pos (by simpa using hc), hstep, ih]
      split <;> rfl
    · have hplain := not_or.mp hc
      rw [if_neg (by simpa using hplain), singleton_append, cons_append,
        find_cons (fun d _ => not_isEscape hplain.1 d) hplain.2, ih]
      split <;> rfl

theorem unescape_escapeComponent (component : List UInt8) : pathUnescapeComponent (escapeComponent component) = component := by
  induction component with
  | nil => rfl
  | cons c component ih =>
    rw [escapeComponent_cons]
    by_cases hc : c = 0x5C ∨ c = 0x2E
    · have hesc : isEscape 0x5C c = true := isEscape_iff.mpr ⟨rfl, hc.symm⟩
      have hstep : pathUnescapeComponent ([0x5C, c] ++ escapeComponent component) =
          c :: pathUnescapeComponent (escapeComponent component) := if_pos hesc
      rw [if_pos (by simpa using hc), hstep, ih]
    · have hplain := not_or.mp hc
      rw [if_neg (by simpa using hplain), singleton_append, unescape_cons (fun d _ => not_isEscape hplain.1 d), ih]

theorem pathSplit_none (h : pathFindUnescapedDot path = none) : pathSplit path = [path] := by
  rw [pathSplit]
  split
  · rfl
  · rename_i heq
    rw [h] at heq
    cases heq

theorem pathSplit_some (h : pathFindUnescapedDot path = some i) :
    pathSplit path = path.take i :: pathSplit (path.drop (i + 1)) := by
  rw [pathSplit]
  split
  · rename_i heq
    rw [h] at heq
    cases heq
  · rename_i heq
    rw [h] at heq
    rw [some.inj heq]

theorem joinPath_cons (component next : List UInt8) (rest : List (List UInt8)) :
    joinPath (component :: next :: rest) = escapeComponent component ++ 0x2E :: joinPath (next :: rest) := by
  simp [joinPath, List.intercalate]

theorem pathComponents_join (component : List UInt8) (rest : List (List UInt8)) :
    pathComponents (joinPath (component :: rest)) = component :: rest := by
  induction rest generalizing component with
  | nil =>
    have hjoin : joinPath [component] = escapeComponent component := by simp [joinPath, List.intercalate]
    have hfind := find_escapeComponent component [] (.inl rfl)
    rw [append_nil, if_pos rfl] at hfind
    rw [hjoin, pathComponents, pathSplit_none hfind, map_singleton, unescape_escapeComponent]
  | cons next rest ih =>
    have hfind := find_escapeComponent component (0x2E :: joinPath (next :: rest)) (.inr rfl)
    rw [if_neg (cons_ne_nil _ _)] at hfind
    have hdrop : (escapeComponent component ++ 0x2E :: joinPath (next :: rest)).drop ((escapeComponent component).length + 1) =
        joinPath (next :: rest) := by
      rw [← drop_drop, drop_left]
      rfl
    rw [joinPath_cons, pathComponents, pathSplit_some hfind, take_left, hdrop, map_cons, unescape_escapeComponent]
    exact congrArg _ (ih next)

/-! ## The last dot -/

theorem find_some (h : pathFindUnescapedDot s = some i) :
    ∃ u v, s = u ++ 0x2E :: v ∧ u.length = i ∧ pathFindUnescapedDot u = none ∧
      ∀ w, pathFindUnescapedDot (u ++ 0x2E :: w) = some i := by
  fun_induction pathFindUnescapedDot s generalizing i with
  | case1 c d s hesc ih =>
    obtain ⟨j, hj, rfl⟩ := map_eq_some_iff.mp h
    obtain ⟨u, v, rfl, rfl, hnone, hfind⟩ := ih hj
    refine ⟨c :: d :: u, v, rfl, rfl, by rw [find_escape hesc, hnone]; rfl, fun w => ?_⟩
    rw [cons_append, cons_append, find_escape hesc, hfind]
    rfl
  | case2 d s =>
    cases h
    exact ⟨[], d :: s, rfl, rfl, rfl, fun w => find_dot w⟩
  | case3 c d s hesc hdot ih =>
    obtain ⟨j, hj, rfl⟩ := map_eq_some_iff.mp h
    obtain ⟨u, v, hsplit, rfl, hnone, hfind⟩ := ih hj
    have hhead : ∀ w, ∀ e ∈ (u ++ 0x2E :: w).head?, isEscape c e = false := by
      intro w e he
      have hd : (u ++ 0x2E :: w).head? = some d := by
        cases u with
        | nil => rw [(List.cons.inj hsplit).1]; rfl
        | cons _ _ => rw [(List.cons.inj hsplit).1]; rfl
      rw [hd] at he
      rw [← some.inj he]
      exact Bool.eq_false_iff.mpr hesc
    have hplain : ∀ e ∈ u.head?, isEscape c e = false := by
      cases u with
      | nil => nofun
      | cons e u => exact hhead []
    refine ⟨c :: u, v, by rw [hsplit, cons_append], rfl, by rw [find_cons hplain hdot, hnone]; rfl, fun w => ?_⟩
    rw [cons_append, find_cons (hhead w) hdot, hfind]
    rfl
  | case4 =>
    cases h
    exact ⟨[], [], rfl, rfl, rfl, fun w => find_dot w⟩
  | case5 => cases h
  | case6 => cases h

theorem findLastFrom_eq (p : Nat) (last : Option Nat) (s : List UInt8) : findLastFrom p last s =
    match pathFindUnescapedDot s with
    | none => last
    | some i => findLastFrom (p + (i + 1)) (some (p + i)) (s.drop (i + 1)) := by
  fun_induction findLastFrom p last s with
  | case1 p last c d s hesc ih =>
    rw [ih, find_escape hesc]
    cases pathFindUnescapedDot s with
    | none => rfl
    | some i =>
      dsimp only [map_some]
      rw [show p + 2 + (i + 1) = p + (i + 2 + 1) by omega, show p + 2 + i = p + (i + 2) by omega]
      rfl
  | case2 p last d s => rw [find_dot]; rfl
  | case3 p last c d s hesc hdot ih =>
    have hhead : ∀ e ∈ (d :: s).head?, isEscape c e = false := by
      rintro _ ⟨⟩
      exact Bool.eq_false_iff.mpr hesc
    rw [ih, find_cons hhead hdot]
    cases pathFindUnescapedDot (d :: s) with
    | none => rfl
    | some i =>
      dsimp only [map_some]
      rw [show p + 1 + (i + 1) = p + (i + 1 + 1) by omega, show p + 1 + i = p + (i + 1) by omega]
      rfl
  | case4 => rfl
  | case5 p last c hdot => rw [pathFindUnescapedDot, if_neg hdot]
  | case6 => rfl

theorem findLastFrom_shift (p : Nat) (last : Option Nat) (s : List UInt8) :
    findLastFrom p last s = ((pathFindLastUnescapedDot s).map (p + ·)).or last := by
  rw [pathFindLastUnescapedDot]
  induction s using pathSplit.induct generalizing p last with
  | case1 s h => rw [findLastFrom_eq, findLastFrom_eq 0 none, h]; rfl
  | case2 s i h ih =>
    rw [findLastFrom_eq, findLastFrom_eq 0 none, h]
    dsimp only
    rw [ih (p + (i + 1)), ih (0 + (i + 1))]
    cases findLastFrom 0 none (s.drop (i + 1)) with
    | none => simp
    | some j =>
      simp
      omega

theorem findLast_none (h : pathFindUnescapedDot s = none) : pathFindLastUnescapedDot s = none := by
  rw [pathFindLastUnescapedDot, findLastFrom_eq, h]

theorem findLast_some (h : pathFindUnescapedDot s = some i) : pathFindLastUnescapedDot s =
    some (match pathFindLastUnescapedDot (s.drop (i + 1)) with
      | none => i
      | some j => i + 1 + j) := by
  rw [pathFindLastUnescapedDot, findLastFrom_eq, h]
  dsimp only
  rw [findLastFrom_shift]
  cases pathFindLastUnescapedDot (s.drop (i + 1)) with
  | none => simp
  | some j => simp

theorem pathSplit_last (path : List UInt8) :
    (pathFindLastUnescapedDot path = none → pathSplit path = [path]) ∧
    ∀ k, pathFindLastUnescapedDot path = some k →
      ∃ u v, path = u ++ 0x2E :: v ∧ u.length = k ∧ pathSplit path = pathSplit u ++ [v] := by
  induction path using pathSplit.induct with
  | case1 path h =>
    refine ⟨fun _ => pathSplit_none h, fun k hk => ?_⟩
    rw [findLast_none h] at hk
    cases hk
  | case2 path i h ih =>
    have hlast := findLast_some h
    refine ⟨fun hnone => ?_, fun k hk => ?_⟩
    · rw [hlast] at hnone
      cases hnone
    · obtain ⟨u, v, hsplit, hlen, hnone, hfind⟩ := find_some h
      have hdrop : path.drop (i + 1) = v := by
        rw [hsplit, ← hlen, ← drop_drop, drop_left]
        rfl
      have htake : path.take i = u := by rw [hsplit, ← hlen, take_left]
      rw [hdrop] at ih hlast
      rw [pathSplit_some h, htake, hdrop]
      rw [hlast] at hk
      obtain rfl := some.inj hk
      cases hv : pathFindLastUnescapedDot v with
      | none =>
        rw [ih.1 hv]
        exact ⟨u, v, hsplit, hlen, by rw [pathSplit_none hnone]; rfl⟩
      | some j =>
        obtain ⟨u', v', hv', hlen', hrest⟩ := ih.2 j hv
        refine ⟨u ++ 0x2E :: u', v', by rw [hsplit, hv', append_assoc]; rfl, ?_, ?_⟩
        · show _ = i + 1 + j
          rw [length_append, length_cons, hlen, hlen']
          omega
        · have hinner : (u ++ 0x2E :: u').drop (i + 1) = u' := by
            rw [← hlen, ← drop_drop, drop_left]
            rfl
          rw [hrest, pathSplit_some (hfind u'), hinner, ← hlen, take_left]
          rfl

/-! ## List indices -/

theorem indexStep_eq {idx d : Nat} (hidx : idx ≤ sizeMax) (hd : d < 10) : indexStep idx d = min (idx * 10 + d) sizeMax := by
  rw [indexStep]
  rw [sizeMax_eq] at *
  split
  · omega
  · rw [sizeMul_eq (by rw [sizeMax_eq]; omega), sizeAdd_eq (by rw [sizeMax_eq]; omega)]
    omega

theorem digit_lt (h : isDigitByte c = true) : c.toNat - 0x30 < 10 := by
  simp only [isDigitByte, Bool.and_eq_true, decide_eq_true_eq, ge_iff_le, UInt8.le_iff_toNat_le] at h
  have hle : c.toNat ≤ 0x39 := h.2
  omega

theorem indexLoop_eq (n : Nat) (s : List UInt8) : indexLoop (min n sizeMax) s =
    (min ((s.takeWhile isDigitByte).foldl (fun n d => n * 10 + (d.toNat - 0x30)) n) sizeMax, s.dropWhile isDigitByte) := by
  induction s generalizing n with
  | nil => rfl
  | cons c p ih =>
    rw [indexLoop]
    by_cases hc : isDigitByte c = true
    · have hstep : indexStep (min n sizeMax) (c.toNat - 0x30) = min (n * 10 + (c.toNat - 0x30)) sizeMax := by
        rw [indexStep_eq (Nat.min_le_right n sizeMax) (digit_lt hc)]
        rw [sizeMax_eq]
        omega
      rw [if_pos hc, hstep, ih, takeWhile_cons_of_pos hc, dropWhile_cons_of_pos hc, foldl_cons]
    · rw [if_neg hc, takeWhile_cons_of_neg hc, dropWhile_cons_of_neg hc]
      rfl

theorem parseListIndexComponent_eq (digits : List UInt8) : parseListIndexComponent digits =
    if digits ≠ [] ∧ digits.all isDigitByte = true then some (min (decimalValue digits) sizeMax) else none := by
  have hloop : indexLoop 0 digits = _ := indexLoop_eq 0 digits
  cases digits with
  | nil => rfl
  | cons c p =>
    have hhead : (c :: p).head?.any isDigitByte = isDigitByte c := rfl
    rw [parseListIndexComponent, hhead, hloop]
    by_cases hall : (c :: p).all isDigitByte = true
    · have htake : (c :: p).takeWhile isDigitByte = c :: p := takeWhile_eq_self_iff.mpr (all_eq_true.mp hall)
      have hdrop : (c :: p).dropWhile isDigitByte = [] := dropWhile_eq_nil_iff.mpr (all_eq_true.mp hall)
      have hc : isDigitByte c = true := all_eq_true.mp hall c mem_cons_self
      rw [htake, hdrop, if_pos hc, if_pos ⟨cons_ne_nil c p, hall⟩]
      rfl
    · have hdrop : (c :: p).dropWhile isDigitByte ≠ [] := fun h => hall (all_eq_true.mpr (dropWhile_eq_nil_iff.mp h))
      have hnot : ¬(c :: p ≠ [] ∧ (c :: p).all isDigitByte = true) := fun h => hall h.2
      obtain ⟨d, q, hrest⟩ := exists_cons_of_ne_nil hdrop
      rw [if_neg hnot, hrest]
      exact ite_self none

end Ccollections.Cjson
