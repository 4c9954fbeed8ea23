import Ccollections.Chttpserver.RouteSearch
import Mathlib.Data.List.Infix

/-!
# The caches of the route search agree with the path
-/

namespace Ccollections.Chttpserver.RouteSearch
open List Option
open Chttpclient (Method)

variable {path s pp P Q : List UInt8} {raws ds segs : List (List UInt8)} {cap i n : Nat} {cache : List SegCacheEntry} {method : Method}

/-! ## Segments -/

theorem eq_slash {c : UInt8} {rest : List UInt8} (h : s.dropWhile (· ≠ 0x2F) = c :: rest) : c = 0x2F := by
  have hhead := head_dropWhile_not (fun c : UInt8 => decide (c ≠ 0x2F)) (l := s) (by simp only [h]; simp)
  simpa only [h, head_cons, decide_eq_false_iff_not, ne_eq, not_not] using hhead

theorem splitOn_eq_cons (s : List UInt8) :
    s.splitOn 0x2F = s.takeWhile (· ≠ 0x2F) :: match s.dropWhile (· ≠ 0x2F) with
      | [] => []
      | _ :: rest => rest.splitOn 0x2F := by
  have hnot : (0x2F : UInt8) ∉ s.takeWhile (· ≠ 0x2F) := by
    intro hmem
    simpa using mem_takeWhile_imp hmem
  have hsplit := takeWhile_append_dropWhile (p := fun c : UInt8 => decide (c ≠ 0x2F)) (l := s)
  cases hrest : s.dropWhile (· ≠ 0x2F) with
  | nil =>
    rw [hrest, append_nil] at hsplit
    rw [hsplit] at hnot ⊢
    exact splitOn_eq_singleton hnot
  | cons c rest =>
    rw [hrest, eq_slash hrest] at hsplit
    dsimp only
    conv_lhs => rw [← hsplit]
    exact splitOn_append_cons_self_of_not_mem hnot _

def behind (raws : List (List UInt8)) : List UInt8 := if raws = [] then [] else 0x2F :: joined raws

structure Cached (raws : List (List UInt8)) (cap : Nat) (cache : List SegCacheEntry) : Prop where
  length : cache.length = min cap raws.length
  entry : ∀ i e, cache[i]? = some e → raws[i]? = some e.raw ∧ e.after = behind (raws.drop (i + 1)) ∧
    ∀ decoded, e.memo = some decoded → decoded = decodeSeg e.raw

theorem Cached.cons {raw : List UInt8} (h : Cached raws n cache) :
    Cached (raw :: raws) (n + 1) (⟨raw, behind raws, none⟩ :: cache) where
  length := by
    simp only [length_cons, h.length]
    omega
  entry := by
    intro i e hi
    cases i with
    | zero =>
      obtain rfl := some.inj hi
      exact ⟨rfl, rfl, by simp⟩
    | succ i => exact h.entry i e hi

theorem Cached.nil (raws : List (List UInt8)) (h : min n raws.length = 0) : Cached raws n [] := ⟨h.symm, by simp⟩

theorem cached_fillSegs (cap : Nat) (s : List UInt8) : Cached (s.splitOn 0x2F) cap (fillSegs (countSegs cap s) s) := by
  induction cap generalizing s with
  | zero => exact Cached.nil _ (by simp)
  | succ n ih =>
    rw [splitOn_eq_cons, countSegs]
    cases hrest : s.dropWhile (· ≠ 0x2F) with
    | nil =>
      dsimp only
      rw [fillSegs, hrest]
      exact (Cached.nil [] (by simp)).cons
    | cons c rest =>
      have hafter : c :: rest = behind (rest.splitOn 0x2F) := by
        rw [behind, if_neg (splitOn_ne_nil _ _), joined, intercalate_splitOn, eq_slash hrest]
      dsimp only
      rw [fillSegs, hrest]
      dsimp only
      rw [hafter]
      exact (ih rest).cons

theorem cached_segCacheBuild (path : List UInt8) (cap : Nat) : Cached (rawSegs path) cap (segCacheBuild path cap) := by
  unfold rawSegs segCacheBuild
  cases skipSlash path with
  | nil => exact Cached.nil [] (by simp)
  | cons c p => exact cached_fillSegs cap _

theorem segCacheGet_spec (h : Cached raws cap cache) (hi : i < cap) :
    (segCacheGet cache i).1 = raws[i]?.bind decodeSeg ∧ Cached raws cap (segCacheGet cache i).2 := by
  unfold segCacheGet
  split
  · rename_i hout
    have hlen := List.getElem?_eq_none_iff.mp hout
    rw [h.length] at hlen
    have hnone : raws[i]? = none := List.getElem?_eq_none_iff.mpr (by omega)
    exact ⟨by simp [hnone], h⟩
  · rename_i e he
    obtain ⟨hraw, hafter, hmemo⟩ := h.entry i e he
    split
    · rename_i decoded hm
      exact ⟨by simp [hraw, hmemo decoded hm], h⟩
    · refine ⟨by simp [hraw, decodeSeg], ⟨by simpa using h.length, ?_⟩⟩
      intro j e' hj
      rw [List.getElem?_set] at hj
      split at hj
      · rename_i heq
        subst heq
        split at hj
        · obtain rfl := some.inj hj
          refine ⟨hraw, hafter, ?_⟩
          intro decoded hd
          exact (some.inj hd).symm
        · cases hj
      · exact h.entry j e' hj

/-! ## Routes -/

theorem matchSegs_spec {wanted : Bool} {pv : List (List UInt8)} (h : Cached raws cap cache) (hlen : i + segs.length = raws.length)
    (hcap : raws.length ≤ cap) :
    (matchSegs wanted segs i cache pv).1 = (routeValues segs (raws.drop i)).map (fun values => if wanted then pv ++ values else pv) ∧
      Cached raws cap (matchSegs wanted segs i cache pv).2 := by
  induction segs generalizing i cache pv with
  | nil =>
    have hdrop : raws.drop i = [] := List.drop_eq_nil_of_le (by simpa using hlen.ge)
    simp [matchSegs, hdrop, routeValues, h]
  | cons seg segs ih =>
    rw [List.length_cons] at hlen
    have hi : i < raws.length := by omega
    obtain ⟨hget, hcached⟩ := segCacheGet_spec (i := i) h (Nat.lt_of_lt_of_le hi hcap)
    rw [List.getElem?_eq_getElem hi] at hget
    rw [List.drop_eq_getElem_cons hi]
    unfold matchSegs routeValues
    generalize segCacheGet cache i = r at hget hcached ⊢
    obtain ⟨o, cache'⟩ := r
    simp only [Option.bind_some] at hget
    rw [← hget]
    cases o with
    | none => exact ⟨rfl, hcached⟩
    | some decoded =>
      dsimp only
      split
      · obtain ⟨hvalues, hkept⟩ := ih (i := i + 1) hcached (by omega)
        refine ⟨?_, hkept⟩
        rw [hvalues, Option.map_map]
        congr 1
        funext values
        cases wanted <;> simp
      · split
        · exact ih (i := i + 1) hcached (by omega)
        · exact ⟨rfl, hcached⟩

theorem routeValues_length {values : List (List UInt8)} (h : routeValues segs raws = some values) : segs.length = raws.length := by
  induction segs generalizing raws values with
  | nil =>
    cases raws with
    | nil => rfl
    | cons raw raws => cases h
  | cons seg segs ih =>
    cases raws with
    | nil => cases h
    | cons raw raws =>
      simp only [routeValues] at h
      simp only [length_cons, Nat.add_right_cancel_iff]
      split at h
      · cases h
      · split at h
        · obtain ⟨values', hv, _⟩ := map_eq_some_iff.mp h
          exact ih hv
        · split at h
          · exact ih h
          · cases h

theorem matchRouteCached_spec {wanted : Bool} {rt : Route} (h : Cached raws cap cache) (hcap : rt.segs.length < cap) :
    (matchRouteCached cache rt wanted).1 = (routeValues rt.segs raws).map (fun values => if wanted then values else []) ∧
      Cached raws cap (matchRouteCached cache rt wanted).2 := by
  unfold matchRouteCached
  split
  · rename_i hne
    have hnone : routeValues rt.segs raws = none := by
      cases hv : routeValues rt.segs raws with
      | none => rfl
      | some values =>
        have hlen := routeValues_length hv
        rw [h.length] at hne
        omega
    exact ⟨by simp [hnone], h⟩
  · rename_i heq
    rw [h.length] at heq
    have hlen : 0 + rt.segs.length = raws.length := by omega
    have hspec : (matchSegs wanted rt.segs 0 cache []).1 = _ ∧ Cached raws cap _ := matchSegs_spec h hlen (by omega)
    simpa using hspec

/-!
# Which mount owns a path
-/

open List Option

variable {pp qq P Q rest : List UInt8} {raws ds es : List (List UInt8)} {cap i n : Nat} {cache : List SegCacheEntry}

/-! ## The walk of a prefix along the whole path -/

def walk : List (List UInt8) → List UInt8 → PrefixMatch
  | [], _ => .no
  | raw :: raws, pp =>
    match decodeSeg raw with
    | none => .no
    | some decoded =>
      if decoded.length < pp.length then
        if decoded = pp.take decoded.length && pp[decoded.length]? = some 0x2F then walk raws (pp.drop (decoded.length + 1))
        else .no
      else if decoded.take pp.length ≠ pp then .no
      else if decoded.length = pp.length then .boundary (0x2F :: joined raws)
      else if decoded[pp.length]? = some 0x2F then .inside
      else .no

theorem concat_prefix_iff {α : Type} {l m : List α} {a : α} : l ++ [a] <+: m ↔ l = m.take l.length ∧ m[l.length]? = some a := by
  constructor
  · rintro ⟨t, rfl⟩
    simp
  · rintro ⟨htake, hget⟩
    obtain ⟨hlt, hget⟩ := List.getElem?_eq_some_iff.mp hget
    have hsplit := take_append_drop l.length m
    rw [← htake, drop_eq_getElem_cons hlt, hget] at hsplit
    exact ⟨m.drop (l.length + 1), by simpa using hsplit⟩

theorem count_drop_lt (h : pp[n]? = some 0x2F) : (pp.drop (n + 1)).count 0x2F + 1 ≤ pp.count 0x2F := by
  obtain ⟨hlt, hget⟩ := List.getElem?_eq_some_iff.mp h
  have hle := (drop_sublist n pp).count_le 0x2F
  rw [drop_eq_getElem_cons hlt, hget, count_cons_self] at hle
  exact hle

theorem prefixLoop_spec (h : Cached raws cap cache) (hn : i + n = cache.length) (hcap : i + pp.count 0x2F + 1 < cap) :
    (prefixLoop n cache i pp).1 = walk (raws.drop i) pp ∧ Cached raws cap (prefixLoop n cache i pp).2 := by
  induction n generalizing i pp cache with
  | zero =>
    rw [h.length] at hn
    rw [drop_eq_nil_of_le (by omega)]
    exact ⟨rfl, h⟩
  | succ n ih =>
    have hlen := h.length
    have hi : i < raws.length := by omega
    obtain ⟨hget, hcached⟩ := segCacheGet_spec (i := i) h (by omega)
    rw [List.getElem?_eq_getElem hi] at hget
    rw [drop_eq_getElem_cons hi]
    unfold prefixLoop walk
    generalize segCacheGet cache i = r at hget hcached ⊢
    obtain ⟨o, cache'⟩ := r
    simp only [bind_some] at hget
    rw [← hget]
    cases o with
    | none => exact ⟨rfl, hcached⟩
    | some decoded =>
      have hlen' := hcached.length
      dsimp only at hcached hlen' ⊢
      split
      · split
        · rename_i hstep
          simp only [Bool.and_eq_true, decide_eq_true_eq] at hstep
          have hcount := count_drop_lt hstep.2
          exact ih hcached (by omega) (by omega)
        · exact ⟨rfl, hcached⟩
      · split
        · exact ⟨rfl, hcached⟩
        · split
          · obtain ⟨e, he⟩ : ∃ e, cache'[i]? = some e := ⟨_, List.getElem?_eq_getElem (by omega)⟩
            have hafter := (hcached.entry i e he).2.1
            rw [he, map_some, getD_some, hafter, behind]
            by_cases hend : raws.drop (i + 1) = []
            · rw [if_pos hend, hend]
              exact ⟨rfl, hcached⟩
            · rw [if_neg hend]
              exact ⟨rfl, hcached⟩
          · split
            · exact ⟨rfl, hcached⟩
            · exact ⟨rfl, hcached⟩

/-! ## Leading segments -/

theorem leads_cons {raw d : List UInt8} : Leads (d :: ds) (raw :: raws) ↔ decodeSeg raw = some d ∧ (ds = [] ∨ Leads ds raws) := by
  simp only [Leads, map_cons, cons_prefix_cons, ne_eq, reduceCtorEq, not_false_eq_true, true_and, eq_comm (a := some d)]
  by_cases hds : ds = []
  · simp [hds]
  · simp [hds]

theorem not_leads_nil : ¬Leads ds [] := by
  rintro ⟨hne, hpre⟩
  simp [hne] at hpre

def tagged (ds : List (List UInt8)) : List UInt8 := ds.flatMap (· ++ [0x2F])

theorem tagged_cons {d : List UInt8} : tagged (d :: ds) = d ++ [0x2F] ++ tagged ds := by simp [tagged]

theorem joined_cons {d : List UInt8} (h : ds ≠ []) : joined (d :: ds) = d ++ [0x2F] ++ joined ds := by
  simp [joined, intercalate_cons_of_ne_nil h]

theorem joined_concat (h : ds ≠ []) : joined ds ++ [0x2F] = tagged ds := by
  induction ds with
  | nil => exact absurd rfl h
  | cons d ds ih =>
    by_cases hds : ds = []
    · simp [hds, joined, tagged]
    · rw [joined_cons hds, tagged_cons, append_assoc, ih hds]

theorem covers_iff (h : ds ≠ []) : (joined ds = pp ∨ pp ++ [0x2F] <+: joined ds) ↔ pp ++ [0x2F] <+: tagged ds := by
  rw [← joined_concat h, prefix_concat_iff, append_left_inj, eq_comm]

theorem Leads.tagged_prefix (h : Leads ds raws) (h' : Leads es raws) : tagged ds <+: tagged es ∨ tagged es <+: tagged ds := by
  have hflat : ∀ {l m : List (List UInt8)}, l.map some <+: m.map some → tagged l <+: tagged m := by
    intro l m hlm
    have hpre : l <+: m := by
      have hred := hlm.filterMap id
      simpa using hred
    obtain ⟨t, rfl⟩ := hpre
    exact ⟨tagged t, by simp [tagged]⟩
  exact ( prefix_or_prefix_of_prefix h.2 h'.2).imp hflat hflat

/-! ## What the walk finds -/

theorem walk_ne_no : walk raws pp ≠ .no ↔ ∃ ds, Leads ds raws ∧ pp ++ [0x2F] <+: tagged ds := by
  induction raws generalizing pp with
  | nil => simp [walk, not_leads_nil]
  | cons raw raws ih =>
    unfold walk
    cases hdec : decodeSeg raw with
    | none =>
      simp only [ne_eq, not_true_eq_false, false_iff, not_exists, not_and]
      rintro (_ | ⟨d, ds⟩) hleads
      · exact absurd rfl hleads.1
      · simp [leads_cons, hdec] at hleads
    | some d =>
      dsimp only
      have hleads : ∀ {ds}, Leads (d :: ds) (raw :: raws) ↔ ds = [] ∨ Leads ds raws := by
        simp [leads_cons, hdec]
      have hhead : ∀ {ds}, Leads ds (raw :: raws) → ∃ es, ds = d :: es ∧ (es = [] ∨ Leads es raws) := by
        rintro (_ | ⟨e, es⟩) h
        · exact absurd rfl h.1
        · obtain ⟨he, hes⟩ := leads_cons.mp h
          obtain rfl := some.inj (hdec.symm.trans he)
          exact ⟨es, rfl, hes⟩
      split
      · rename_i hlt
        simp only [Bool.and_eq_true, decide_eq_true_eq, ← concat_prefix_iff]
        split
        · rename_i hstep
          obtain ⟨pp', rfl⟩ := hstep
          have hdrop : (d ++ [0x2F] ++ pp').drop (d.length + 1) = pp' := drop_left' (by simp)
          rw [hdrop, ih]
          constructor
          · rintro ⟨ds, hds, hcov⟩
            refine ⟨d :: ds, hleads.mpr (.inr hds), ?_⟩
            rw [tagged_cons, append_assoc _ pp']
            exact (prefix_append_right_inj _).mpr hcov
          · rintro ⟨ds, hds, hcov⟩
            obtain ⟨es, rfl, hes⟩ := hhead hds
            rw [tagged_cons, append_assoc _ pp', prefix_append_right_inj] at hcov
            refine ⟨es, hes.resolve_left ?_, hcov⟩
            rintro rfl
            simp [tagged] at hcov
        · rename_i hstop
          simp only [ne_eq, not_true_eq_false, false_iff, not_exists, not_and]
          intro ds hds hcov
          obtain ⟨es, rfl, _⟩ := hhead hds
          rw [tagged_cons] at hcov
          have hshort := prefix_of_prefix_length_le (prefix_append _ _) hcov (by simp; omega)
          exact hstop (prefix_of_prefix_length_le hshort (prefix_append pp _) (by simp; omega))
      · rename_i hge
        have hlen : pp.length ≤ d.length := Nat.le_of_not_lt hge
        have hiff : (∃ ds, Leads ds (raw :: raws) ∧ pp ++ [0x2F] <+: tagged ds) ↔ pp = d ∨ pp ++ [0x2F] <+: d := by
          have hconcat : pp = d ∨ pp ++ [0x2F] <+: d ↔ pp ++ [0x2F] <+: d ++ [0x2F] := by
            rw [prefix_concat_iff, append_left_inj]
          rw [hconcat]
          constructor
          · rintro ⟨ds, hds, hcov⟩
            obtain ⟨es, rfl, _⟩ := hhead hds
            rw [tagged_cons] at hcov
            exact prefix_of_prefix_length_le hcov (prefix_append _ _) (by simpa using hlen)
          · intro hcov
            exact ⟨[d], hleads.mpr (.inl rfl), by simpa [tagged] using hcov⟩
        rw [hiff]
        split
        · rename_i hne
          simp only [ne_eq, not_true_eq_false, false_iff, not_or]
          refine ⟨?_, ?_⟩
          · rintro rfl
            simp at hne
          · intro hpre
            exact hne (prefix_iff_eq_take.mp ((prefix_append _ _).trans hpre)).symm
        · rename_i htake
          rw [not_not] at htake
          split
          · rename_i heq
            rw [← heq, take_length] at htake
            simp [htake]
          · rename_i hne
            split
            · rename_i hslash
              simp [concat_prefix_iff, htake, hslash]
            · rename_i hslash
              simp only [ne_eq, not_true_eq_false, false_iff, not_or]
              refine ⟨?_, ?_⟩
              · rintro rfl
                exact hne rfl
              · intro hpre
                exact hslash (concat_prefix_iff.mp hpre).2

theorem walk_boundary (hne : pp ≠ []) (hlast : pp.getLast? ≠ some 0x2F) :
    walk raws pp = .boundary rest ↔ ∃ ds, Leads ds raws ∧ joined ds = pp ∧ rest = 0x2F :: joined (raws.drop ds.length) := by
  induction raws generalizing pp with
  | nil => simp [walk, not_leads_nil]
  | cons raw raws ih =>
    unfold walk
    cases hdec : decodeSeg raw with
    | none =>
      simp only [reduceCtorEq, false_iff, not_exists, not_and]
      rintro (_ | ⟨d, ds⟩) hleads
      · exact absurd rfl hleads.1
      · simp [leads_cons, hdec] at hleads
    | some d =>
      dsimp only
      have hcons : (∃ ds, Leads ds (raw :: raws) ∧ joined ds = pp ∧ rest = 0x2F :: joined ((raw :: raws).drop ds.length)) ↔
          (d = pp ∧ rest = 0x2F :: joined raws) ∨
            ∃ es, Leads es raws ∧ d ++ [0x2F] ++ joined es = pp ∧ rest = 0x2F :: joined (raws.drop es.length) := by
        constructor
        · rintro ⟨_ | ⟨e, es⟩, hleads, hjoin, hrest⟩
          · exact absurd rfl hleads.1
          · obtain ⟨he, hes⟩ := leads_cons.mp hleads
            obtain rfl := some.inj (hdec.symm.trans he)
            obtain rfl | hes := hes
            · exact .inl ⟨by simpa [joined] using hjoin, by simpa using hrest⟩
            · exact .inr ⟨es, hes, by rw [← joined_cons hes.1, hjoin], by simpa using hrest⟩
        · rintro (⟨rfl, hrest⟩ | ⟨es, hes, hjoin, hrest⟩)
          · exact ⟨[d], leads_cons.mpr ⟨hdec, .inl rfl⟩, by simp [joined], by simpa using hrest⟩
          · exact ⟨d :: es, leads_cons.mpr ⟨hdec, .inr hes⟩, by rw [joined_cons hes.1, hjoin], by simpa using hrest⟩
      rw [hcons]
      split
      · rename_i hlt
        have hd : d ≠ pp := by
          rintro rfl
          exact Nat.lt_irrefl _ hlt
        simp only [hd, false_and, false_or, Bool.and_eq_true, decide_eq_true_eq, ← concat_prefix_iff]
        split
        · rename_i hstep
          obtain ⟨pp', rfl⟩ := hstep
          have hdrop : (d ++ [0x2F] ++ pp').drop (d.length + 1) = pp' := drop_left' (by simp)
          have hne' : pp' ≠ [] := by
            rintro rfl
            simp at hlast
          have hlast' : pp'.getLast? ≠ some 0x2F := by
            rw [List.getLast?_append_of_ne_nil _ hne'] at hlast
            exact hlast
          rw [hdrop, ih hne' hlast']
          simp only [append_cancel_left_eq]
        · rename_i hstop
          simp only [reduceCtorEq, false_iff, not_exists, not_and]
          rintro es _ rfl
          exact absurd (prefix_append _ _) hstop
      · rename_i hge
        have hmore : ¬∃ es, Leads es raws ∧ d ++ [0x2F] ++ joined es = pp ∧ rest = 0x2F :: joined (raws.drop es.length) := by
          rintro ⟨es, _, rfl, _⟩
          simp at hge
        simp only [hmore, or_false]
        split
        · rename_i htake
          simp only [reduceCtorEq, false_iff, not_and]
          rintro rfl
          simp at htake
        · rename_i htake
          rw [not_not] at htake
          split
          · rename_i heq
            rw [← heq, take_length] at htake
            simp [htake, eq_comm]
          · rename_i hlen
            have hd : d ≠ pp := by
              rintro rfl
              exact hlen rfl
            split <;> simp [hd]

/-! ## Mounts -/

structure MountOk (P : List UInt8) : Prop where
  slash : P.head? = some 0x2F
  last : P = [0x2F] ∨ P.getLast? ≠ some 0x2F

theorem MountOk.length_ne_zero (h : MountOk P) : P.length ≠ 0 := by
  intro hzero
  have hslash := h.slash
  rw [length_eq_zero_iff.mp hzero] at hslash
  cases hslash

def matchPrefix (P : List UInt8) (raws : List (List UInt8)) : PrefixMatch :=
  match P.drop 1 with
  | [] => if raws = [] then .boundary [0x2F] else .no
  | c :: pp => walk raws (c :: pp)

theorem MountOk.cases (h : MountOk P) : P = [0x2F] ∨ ∃ pp, P = 0x2F :: pp ∧ pp ≠ [] ∧ pp.getLast? ≠ some 0x2F := by
  obtain ⟨hslash, hlast⟩ := h
  cases P with
  | nil => cases hslash
  | cons c pp =>
    obtain rfl := some.inj hslash
    cases pp with
    | nil => exact .inl rfl
    | cons e pp =>
      refine .inr ⟨e :: pp, rfl, by simp, ?_⟩
      simpa [List.getLast?_cons_cons] using hlast

theorem owns_iff (hne : pp ≠ []) : Owns (0x2F :: pp) raws ↔ ∃ ds, Leads ds raws ∧ pp ++ [0x2F] <+: tagged ds := by
  rw [Owns, if_neg (by simpa using hne)]
  refine exists_congr fun ds => and_congr_right fun hleads => ?_
  rw [← covers_iff hleads.1, cons_append, cons_prefix_cons]
  simp

theorem matchPrefix_ne_no (h : MountOk P) : matchPrefix P raws ≠ .no ↔ Owns P raws := by
  obtain rfl | ⟨pp, rfl, hne, _⟩ := h.cases
  · by_cases hr : raws = [] <;> simp [matchPrefix, Owns, hr]
  · rw [owns_iff hne, ← walk_ne_no]
    cases pp with
    | nil => exact absurd rfl hne
    | cons c pp => rfl

theorem matchPrefix_boundary (h : MountOk P) : matchPrefix P raws = .boundary rest ↔ EndsAt P raws rest := by
  obtain rfl | ⟨pp, rfl, hne, hlast⟩ := h.cases
  · by_cases hr : raws = [] <;> simp [matchPrefix, EndsAt, hr, eq_comm]
  · rw [EndsAt, if_neg (by simpa using hne)]
    simp only [List.cons.injEq, true_and]
    rw [← walk_boundary hne hlast]
    cases pp with
    | nil => exact absurd rfl hne
    | cons c pp => rfl

theorem Owns.eq_or_lt (h : Owns P raws) (h' : Owns Q raws) (hP : MountOk P) (hQ : MountOk Q) (hlen : P.length ≤ Q.length) :
    P = Q ∨ countPrefixSegments P < countPrefixSegments Q := by
  obtain rfl | ⟨pp, rfl, hpp, _⟩ := hP.cases
  · obtain rfl | ⟨qq, rfl, hqq, _⟩ := hQ.cases
    · exact .inl rfl
    · obtain ⟨ds, hds, _⟩ := (owns_iff hqq).mp h'
      simp only [Owns, if_true] at h
      exact absurd (h ▸ hds) not_leads_nil
  · obtain rfl | ⟨qq, rfl, hqq, _⟩ := hQ.cases
    · simp at hlen
      exact absurd hlen hpp
    · obtain ⟨ds, hds, hcov⟩ := (owns_iff hpp).mp h
      obtain ⟨es, hes, hcov'⟩ := (owns_iff hqq).mp h'
      have hlen' : (pp ++ [0x2F]).length ≤ (qq ++ [0x2F]).length := by simpa using hlen
      have hpre : pp ++ [0x2F] <+: qq ++ [0x2F] := by
        obtain hle | hle := hds.tagged_prefix hes
        · exact prefix_of_prefix_length_le (hcov.trans hle) hcov' hlen'
        · exact prefix_of_prefix_length_le hcov (hcov'.trans hle) hlen'
      obtain heq | hlt := prefix_concat_iff.mp hpre
      · exact .inl (by rw [append_left_inj] at heq; rw [heq])
      · right
        have hcount := hlt.count_le 0x2F
        rw [count_append, count_singleton_self] at hcount
        simp only [countPrefixSegments, length_cons]
        have hp := length_pos_iff.mpr hpp
        have hq := length_pos_iff.mpr hqq
        rw [if_neg (by omega), if_neg (by omega)]
        simp
        omega

theorem prefixMatches_spec {r : Router} (h : Cached raws cap cache) (hP : MountOk r.routerPrefix)
    (hcap : countPrefixSegments r.routerPrefix < cap) :
    (prefixMatches cache r).1 = matchPrefix r.routerPrefix raws ∧ Cached raws cap (prefixMatches cache r).2 := by
  unfold prefixMatches matchPrefix
  obtain hroot | ⟨pp, hpp, hne, _⟩ := hP.cases
  · rw [hroot]
    have hlen := h.length
    have hiff : cache.length ≠ 0 ↔ raws ≠ [] := by
      rw [← length_pos_iff, hlen]
      omega
    simp only [drop_one, tail_cons, hiff]
    by_cases hr : raws = []
    · simpa [hr] using hr ▸ h
    · simpa [hr] using h
  · cases pp with
    | nil => exact absurd rfl hne
    | cons c pp =>
      rw [hpp] at hcap ⊢
      have hcount : 0 + (c :: pp).count 0x2F + 1 < cap := by
        rw [countPrefixSegments, if_neg (by simp), count_cons_self] at hcap
        omega
      simpa using prefixLoop_spec (i := 0) h (Nat.zero_add _) hcount

end Ccollections.Chttpserver.RouteSearch
