import Mathlib.Data.List.DropRight
import Mathlib.Data.List.TakeWhile

/-!
# References of RFC 3986

A reference by its components (section 3), its resolution against a base (section 5.2) and its text (section 5.3).
-/

namespace Ccollections.Lib

open List

/-! ## Dot segments -/

/-- The last segment of an output buffer goes, with the slash before it if there is one. -/
inductive LastSegmentRemoved : List UInt8 → List UInt8 → Prop
  | slash {out last : List UInt8} (hlast : 0x2F ∉ last) : LastSegmentRemoved (out ++ 0x2F :: last) out
  | bare {last : List UInt8} (hlast : 0x2F ∉ last) : LastSegmentRemoved last []

/-- Section 5.2.4 from an input buffer and an output buffer to the result. -/
inductive DotSegmentsRemoved : List UInt8 → List UInt8 → List UInt8 → Prop
  | done {out : List UInt8} : DotSegmentsRemoved [] out out
  -- rule A
  | parentFirst {p out t : List UInt8} (h : DotSegmentsRemoved p out t) : DotSegmentsRemoved (0x2E :: 0x2E :: 0x2F :: p) out t
  | hereFirst {p out t : List UInt8} (h : DotSegmentsRemoved p out t) : DotSegmentsRemoved (0x2E :: 0x2F :: p) out t
  -- rule B
  | here {p out t : List UInt8} (h : DotSegmentsRemoved (0x2F :: p) out t) : DotSegmentsRemoved (0x2F :: 0x2E :: 0x2F :: p) out t
  | hereLast {out t : List UInt8} (h : DotSegmentsRemoved [0x2F] out t) : DotSegmentsRemoved [0x2F, 0x2E] out t
  -- rule C
  | parent {p out out' t : List UInt8} (hout : LastSegmentRemoved out out') (h : DotSegmentsRemoved (0x2F :: p) out' t) :
      DotSegmentsRemoved (0x2F :: 0x2E :: 0x2E :: 0x2F :: p) out t
  | parentLast {out out' t : List UInt8} (hout : LastSegmentRemoved out out') (h : DotSegmentsRemoved [0x2F] out' t) :
      DotSegmentsRemoved [0x2F, 0x2E, 0x2E] out t
  -- rule D
  | hereOnly {out t : List UInt8} (h : DotSegmentsRemoved [] out t) : DotSegmentsRemoved [0x2E] out t
  | parentOnly {out t : List UInt8} (h : DotSegmentsRemoved [] out t) : DotSegmentsRemoved [0x2E, 0x2E] out t
  -- rule E
  | segment {slash name p out t : List UInt8} (hslash : slash = [] ∨ slash = [0x2F]) (hne : slash ++ name ≠ [])
      (hname : 0x2F ∉ name) (hhere : name ≠ [0x2E]) (hparent : name ≠ [0x2E, 0x2E]) (hp : p = [] ∨ p.head? = some 0x2F)
      (h : DotSegmentsRemoved p (out ++ (slash ++ name)) t) : DotSegmentsRemoved (slash ++ name ++ p) out t

def NoDotSegment (path : List UInt8) : Prop := ∀ name ∈ path.splitOn 0x2F, name ≠ [0x2E] ∧ name ≠ [0x2E, 0x2E]

variable {p out out' t last : List UInt8} {c : UInt8}

theorem noDotSegment_nil : NoDotSegment [] := by
  intro name hname
  rw [splitOn_nil, mem_singleton] at hname
  subst hname
  exact ⟨nofun, nofun⟩

theorem noDotSegment_single (hlast : 0x2F ∉ last) : NoDotSegment last ↔ last ≠ [0x2E] ∧ last ≠ [0x2E, 0x2E] := by
  rw [NoDotSegment, splitOn_eq_singleton hlast]
  exact forall_mem_singleton

theorem noDotSegment_append : NoDotSegment (out ++ 0x2F :: last) ↔ NoDotSegment out ∧ NoDotSegment last := by
  rw [NoDotSegment, splitOn_append_cons_self, forall_mem_append]
  rfl

theorem LastSegmentRemoved.noDotSegment (h : LastSegmentRemoved out out') (hout : NoDotSegment out) : NoDotSegment out' := by
  cases h with
  | slash => exact (noDotSegment_append.mp hout).1
  | bare => exact noDotSegment_nil

theorem LastSegmentRemoved.mem (h : LastSegmentRemoved out out') (hc : c ∈ out') : c ∈ out := by
  cases h with
  | slash => exact mem_append_left _ hc
  | bare => cases hc

theorem LastSegmentRemoved.head (h : LastSegmentRemoved out out') (hout : out = [] ∨ out.head? = some 0x2F) :
    out' = [] ∨ out'.head? = some 0x2F := by
  cases h with
  | bare => exact .inl rfl
  | slash hlast =>
    cases out' with
    | nil => exact .inl rfl
    | cons c out' =>
      cases hout with
      | inl hnil => cases hnil
      | inr hhead => exact .inr hhead

/-- The result has no dot segment. Only the first segment of a path can lack its slash. -/
theorem DotSegmentsRemoved.noDotSegment (h : DotSegmentsRemoved p out t) (hout : NoDotSegment out)
    (hfirst : out = [] ∨ p = [] ∨ p.head? = some 0x2F) : NoDotSegment t := by
  induction h with
  | done => exact hout
  | parentFirst _ ih => exact ih hout (.inl (by simpa using hfirst))
  | hereFirst _ ih => exact ih hout (.inl (by simpa using hfirst))
  | here _ ih => exact ih hout (.inr (.inr rfl))
  | hereLast _ ih => exact ih hout (.inr (.inr rfl))
  | parent hpop _ ih => exact ih (hpop.noDotSegment hout) (.inr (.inr rfl))
  | parentLast hpop _ ih => exact ih (hpop.noDotSegment hout) (.inr (.inr rfl))
  | hereOnly _ ih => exact ih hout (.inr (.inl rfl))
  | parentOnly _ ih => exact ih hout (.inr (.inl rfl))
  | @segment slash name p out t hslash hne hname hhere hparent hp _ ih =>
    apply ih _ (.inr hp)
    have hclean : NoDotSegment name := (noDotSegment_single hname).mpr ⟨hhere, hparent⟩
    cases hslash with
    | inl hnil =>
      subst hnil
      have hempty : out = [] := by
        rcases hfirst with hempty | hnil | hhead
        · exact hempty
        · simp_all
        · cases name with
          | nil => exact absurd rfl hne
          | cons c name =>
            obtain rfl : c = 0x2F := by simpa using hhead
            exact absurd mem_cons_self hname
      subst hempty
      exact hclean
    | inr hslash =>
      subst hslash
      exact noDotSegment_append.mpr ⟨hout, hclean⟩

theorem DotSegmentsRemoved.head (h : DotSegmentsRemoved p out t)
    (hstart : p.head? = some 0x2F ∧ (out = [] ∨ out.head? = some 0x2F) ∨ p = [] ∧ out.head? = some 0x2F) : t.head? = some 0x2F := by
  induction h with
  | done => simpa using hstart
  | parentFirst => simp at hstart
  | hereFirst => simp at hstart
  | here _ ih => exact ih (.inl ⟨rfl, by simpa using hstart⟩)
  | hereLast _ ih => exact ih (.inl ⟨rfl, by simpa using hstart⟩)
  | parent hpop _ ih => exact ih (.inl ⟨rfl, hpop.head (by simpa using hstart)⟩)
  | parentLast hpop _ ih => exact ih (.inl ⟨rfl, hpop.head (by simpa using hstart)⟩)
  | hereOnly => simp at hstart
  | parentOnly => simp at hstart
  | @segment slash name p out t hslash hne hname _ _ hp _ ih =>
    have hnext : (out ++ (slash ++ name)).head? = some 0x2F := by
      rcases hstart with ⟨hhead, hout⟩ | ⟨hnil, -⟩
      · rw [List.head?_append_of_ne_nil _ hne] at hhead
        rcases hout with rfl | hout
        · exact hhead
        · rw [List.head?_append, hout]
          rfl
      · simp_all
    rcases hp with rfl | hp
    · exact ih (.inr ⟨rfl, hnext⟩)
    · exact ih (.inl ⟨hp, .inr hnext⟩)

theorem DotSegmentsRemoved.mem (h : DotSegmentsRemoved p out t) (hc : c ∈ t) : c ∈ p ∨ c ∈ out := by
  induction h with
  | done => exact .inr hc
  | parent hpop _ ih =>
    rcases ih hc with hp | hout
    · exact .inl (by simp at hp ⊢; tauto)
    · exact .inr (hpop.mem hout)
  | parentLast hpop _ ih =>
    rcases ih hc with hp | hout
    · exact .inl (by simp at hp ⊢; tauto)
    · exact .inr (hpop.mem hout)
  | segment _ _ _ _ _ _ _ ih =>
    have hmem := ih hc
    simp only [mem_append] at hmem ⊢
    tauto
  | _ =>
    rename_i ih
    have hmem := ih hc
    simp only [mem_cons] at hmem ⊢
    tauto

/-! ## References -/

structure UriReference where
  scheme : Option (List UInt8)
  authority : Option (List UInt8)
  path : List UInt8
  query : Option (List UInt8)
  fragment : Option (List UInt8)

namespace UriReference

def alpha (c : UInt8) : Bool := (c ≥ 0x61 && c ≤ 0x7A) || (c ≥ 0x41 && c ≤ 0x5A)

def schemeChar (c : UInt8) : Bool := alpha c || (c ≥ 0x30 && c ≤ 0x39) || c = 0x2B || c = 0x2D || c = 0x2E

def authorityChar (c : UInt8) : Bool := c ≠ 0x2F && c ≠ 0x3F && c ≠ 0x23

def pathChar (c : UInt8) : Bool := c ≠ 0x3F && c ≠ 0x23

def text (r : UriReference) : List UInt8 :=
  r.scheme.elim [] (· ++ [0x3A]) ++ r.authority.elim [] ([0x2F, 0x2F] ++ ·) ++ r.path ++ r.query.elim [] (0x3F :: ·) ++
    r.fragment.elim [] (0x23 :: ·)

def schemeOf : List UInt8 → Option (List UInt8)
  | [] => none
  | c :: s => if alpha c && (s.dropWhile schemeChar).head? = some 0x3A then some (c :: s.takeWhile schemeChar) else none

def fragmentOf : List UInt8 → Option (List UInt8)
  | [] => none
  | _ :: s => some s

def queryOf (s : List UInt8) : Option (List UInt8) :=
  match s.takeWhile (· ≠ 0x23) with
  | [] => none
  | _ :: s => some s

def ofTail (s : List UInt8) : UriReference where
  scheme := none
  authority := none
  path := s.takeWhile pathChar
  query := queryOf (s.dropWhile pathChar)
  fragment := fragmentOf (s.dropWhile (· ≠ 0x23))

def ofHierarchy : List UInt8 → UriReference
  | 0x2F :: 0x2F :: s => { ofTail (s.dropWhile authorityChar) with authority := some (s.takeWhile authorityChar) }
  | s => ofTail s

def ofText (s : List UInt8) : UriReference :=
  match schemeOf s with
  | some scheme => { ofHierarchy (s.drop (scheme.length + 1)) with scheme := some scheme }
  | none => ofHierarchy s

def mergePath (base : UriReference) (path : List UInt8) : List UInt8 :=
  if base.authority.isSome && base.path = [] then 0x2F :: path else base.path.rdropWhile (· ≠ 0x2F) ++ path

/-- Section 5.2.2: the target of a reference against a base. -/
inductive Resolves (base r : UriReference) : UriReference → Prop
  | scheme {scheme path : List UInt8} (hscheme : r.scheme = some scheme) (hpath : DotSegmentsRemoved r.path [] path) :
      Resolves base r { r with path := path }
  | authority {authority path : List UInt8} (hscheme : r.scheme = none) (hauthority : r.authority = some authority)
      (hpath : DotSegmentsRemoved r.path [] path) : Resolves base r { r with scheme := base.scheme, path := path }
  | same (hscheme : r.scheme = none) (hauthority : r.authority = none) (hpath : r.path = []) :
      Resolves base r { base with query := r.query.or base.query, fragment := r.fragment }
  | absolute {path : List UInt8} (hscheme : r.scheme = none) (hauthority : r.authority = none)
      (hslash : r.path.head? = some 0x2F) (hpath : DotSegmentsRemoved r.path [] path) :
      Resolves base r { base with path := path, query := r.query, fragment := r.fragment }
  | relative {path : List UInt8} (hscheme : r.scheme = none) (hauthority : r.authority = none) (hne : r.path ≠ [])
      (hslash : r.path.head? ≠ some 0x2F) (hpath : DotSegmentsRemoved (base.mergePath r.path) [] path) :
      Resolves base r { base with path := path, query := r.query, fragment := r.fragment }

/-! ## Texts -/

theorem dropWhile_pathChar (s : List UInt8) : (s.dropWhile pathChar).dropWhile (· ≠ 0x23) = s.dropWhile (· ≠ 0x23) := by
  induction s with
  | nil => rfl
  | cons c s ih =>
    rw [dropWhile_cons]
    split
    · rename_i hc
      have hne : c ≠ 0x23 := by
        rintro rfl
        cases hc
      rw [ih, dropWhile_cons_of_pos (by simpa using hne)]
    · rfl

theorem head_dropWhile_pathChar {s rest : List UInt8} {c : UInt8} (h : s.dropWhile pathChar = c :: rest) : c = 0x3F ∨ c = 0x23 := by
  have hhead := List.head?_dropWhile_not pathChar s
  rw [h] at hhead
  simpa [pathChar, or_iff_not_imp_left] using hhead

theorem queryOf_text (s : List UInt8) :
    (queryOf (s.dropWhile pathChar)).elim [] (0x3F :: ·) = (s.dropWhile pathChar).takeWhile (· ≠ 0x23) := by
  rw [queryOf]
  cases hquery : (s.dropWhile pathChar).takeWhile (· ≠ 0x23) with
  | nil => rfl
  | cons c query =>
    cases hrest : s.dropWhile pathChar with
    | nil =>
      rw [hrest] at hquery
      cases hquery
    | cons d rest =>
      rw [hrest, takeWhile_cons] at hquery
      split at hquery
      · rename_i hne
        obtain ⟨rfl, -⟩ := List.cons.inj hquery
        rcases head_dropWhile_pathChar hrest with rfl | rfl
        · rfl
        · cases hne
      · cases hquery

theorem fragmentOf_text (s : List UInt8) : (fragmentOf (s.dropWhile (· ≠ 0x23))).elim [] (0x23 :: ·) = s.dropWhile (· ≠ 0x23) := by
  cases hrest : s.dropWhile (· ≠ 0x23) with
  | nil => rfl
  | cons c rest =>
    have hhead := List.head?_dropWhile_not (fun c => decide (c ≠ 0x23)) s
    rw [hrest] at hhead
    obtain rfl : c = 0x23 := by simpa using hhead
    rfl

/-- The query and the fragment of a text are what follows its path. -/
theorem ofTail_behind (s : List UInt8) :
    (ofTail s).query.elim [] (0x3F :: ·) ++ (ofTail s).fragment.elim [] (0x23 :: ·) = s.dropWhile pathChar := by
  change (queryOf (s.dropWhile pathChar)).elim [] (0x3F :: ·) ++ (fragmentOf (s.dropWhile (· ≠ 0x23))).elim [] (0x23 :: ·) = _
  rw [queryOf_text, fragmentOf_text, ← dropWhile_pathChar, takeWhile_append_dropWhile]

theorem ofHierarchy_scheme (s : List UInt8) : (ofHierarchy s).scheme = none := by
  rw [ofHierarchy.eq_def]
  split <;> rfl

theorem schemeOf_text {s scheme : List UInt8} (h : schemeOf s = some scheme) : s = scheme ++ 0x3A :: s.drop (scheme.length + 1) := by
  cases s with
  | nil => cases h
  | cons c s =>
    rw [schemeOf] at h
    split at h
    · rename_i hcolon
      cases h
      simp only [Bool.and_eq_true, decide_eq_true_eq] at hcolon
      obtain ⟨rest, hrest⟩ := List.head?_eq_some_iff.mp hcolon.2
      have hwhole := takeWhile_append_dropWhile (p := schemeChar) (l := s)
      rw [hrest] at hwhole
      generalize s.takeWhile schemeChar = run at hwhole
      subst hwhole
      simp
    · cases h

end UriReference
end Ccollections.Lib
