import Ccollections.Cstring.Lemmas.Edits
import Ccollections.Cstring.Lemmas.Rfind
import Ccollections.Cstring.Lemmas.Split

/-!
# cstring: the edits have value semantics
-/

namespace Ccollections.Cstring
open Lib Option

/-- Each edit writes what it would write with a copy of its source made before the call. A failed edit leaves every
block as it was. -/
theorem edits_have_value_semantics (stays : Nat → Bool) (h : Heap) (s : Cstr) (text src : List UInt8) (str : Ptr)
    (hs : Holds h s text) (hsrc : Source h s text str src) :
    (∀ pos ≤ text.length, Edits h s (text.take pos ++ src ++ text.drop pos) (cstringInsert stays h s pos (some str))) ∧
    Edits h s (src ++ text) (cstringPrepend stays h s (some str)) ∧
    Edits h s (text ++ src) (cstringAppend stays h s (some str)) ∧
    Edits h s src (cstringSet stays h s (some str)) :=
  ⟨fun _ hpos => cstringInsert_spec stays hs hsrc hpos, cstringPrepend_spec stays hs hsrc, cstringAppend_spec stays hs hsrc,
    cstringSet_spec stays hs hsrc⟩

def abcHeap : Heap :=
  { blocks := fun b => if b = 0 then some { size := 4, bytes := fun a => [97, 98, 99].getD a 0 } else none
    next := 1
    fate := fun _ => some fun _ => 255
    requests := 0 }

def abc : Cstr := { container := 1, data := 0, length := 3, capacity := 4 }

theorem abc_holds : Holds abcHeap abc [97, 98, 99] where
  noNul := by decide
  length := rfl
  fits := by decide
  capacity_le := by decide
  lt_next := by decide
  data := ⟨_, rfl, rfl, rfl⟩

/-- `abc` with its own end `bc` inserted at 2, over a buffer that moves. -/
theorem edits_have_value_semantics_own_end :
    Edits abcHeap abc [97, 98, 98, 99, 99] (cstringInsert (fun _ => false) abcHeap abc 2 (some (abc.addr 1))) :=
  (edits_have_value_semantics (fun _ => false) abcHeap abc [97, 98, 99] [98, 99] (abc.addr 1) abc_holds
    (.inr ⟨1, by decide, rfl, rfl⟩)).1 2 (by decide)

/-!
# cstring: replacement is the leftmost non-overlapping one
-/

/-- `cstring_replace` replaces every occurrence from the left, within its buffer, and the length it computes is that of
the result or is refused. A failed replacement leaves every block as it was. -/
theorem cstring_replace_is_leftmost_replacement (h : Heap) (s : Cstr) (text nd repl : List UInt8) (needle replacement : Ptr)
    (hs : Holds h s text) (hneedle : h.StringAt needle nd) (hne : nd ≠ []) (hrepl : h.StringAt replacement repl)
    (hmax : repl.length ≤ sizeMax) :
    Replaces h s (replaceAll nd repl text) (cstringReplace h s (some needle) (some replacement)) ∧
    countLoop h needle nd.length (s.length + 1) (s.addr 0) 0 = some (countAll nd text) ∧
    (0 < countAll nd text →
      computeReplaceNewLength s.length nd.length repl.length (countAll nd text) =
        if (replaceAll nd repl text).length < sizeMax then .ok (replaceAll nd repl text).length else .error .containerFull) := by
  have hlt := hs.length_lt
  rw [ccolMaxElemCount_eq] at hlt
  have hlen : text.length ≤ sizeMax := by
    rw [sizeMax_eq]
    omega
  refine ⟨cstringReplace_spec hs hneedle hrepl hne hmax, ?_, fun hcount => ?_⟩
  · have hscan := countLoop_eq hneedle hne (s.length + 1) hs.stringAt 0 (by rw [hs.length]; omega) (by omega)
    rwa [Nat.zero_add] at hscan
  · rw [hs.length]
    exact computeReplaceNewLength_eq hcount (countAll_mul_le hne text) hlen hmax (replaceAll_length repl hne text)

/-- In `abc`, the end `c` replaced by the end `bc`. -/
theorem cstring_replace_is_leftmost_replacement_own_ends :
    Replaces abcHeap abc (replaceAll [99] [98, 99] [97, 98, 99])
      (cstringReplace abcHeap abc (some (abc.addr 2)) (some (abc.addr 1))) :=
  (cstring_replace_is_leftmost_replacement abcHeap abc [97, 98, 99] [99] [98, 99] (abc.addr 2) (abc.addr 1) abc_holds
    (abc_holds.stringAt.drop (i := 2) (by decide)) (by decide) (abc_holds.stringAt.drop (i := 1) (by decide)) (by decide)).1

/-!
# The search for the last occurrence
-/

section

variable {s needle : List UInt8}

theorem memrchr_answers (s : List UInt8) (c : UInt8) :
    ∃ found, cstringMemrchr s c s.length = some found ∧ Answers [c] s (offsetOf found) := by
  obtain ⟨found, hfound, hspec⟩ := cstringMemrchr_spec c s.length (Nat.le_refl _)
  refine ⟨found, hfound, ?_⟩
  cases found with
  | none =>
    refine .inr ⟨rfl, fun i hi => ?_⟩
    have hget := occursAt_singleton.mp hi
    obtain ⟨hlt, -⟩ := List.getElem?_eq_some_iff.mp hget
    exact hspec i hlt hget
  | some p =>
    obtain ⟨-, hp, hafter⟩ := hspec
    refine .inl ⟨occursAt_singleton.mpr hp, fun i hi => ?_⟩
    have hget := occursAt_singleton.mp hi
    obtain ⟨hlt, -⟩ := List.getElem?_eq_some_iff.mp hget
    by_contra hgt
    exact hafter i (by simpa [offsetOf] using hgt) hlt hget

theorem answers_nil : Answers [] s s.length :=
  .inl ⟨occursAt_nil.mpr (Nat.le_refl _), fun _ hi => occursAt_nil.mp hi⟩

theorem cstringRfindBackward_spec (hn : 0 ∉ needle) (hfits : s.length ≤ sizeMax) (grants : Nat → Bool) :
    ∃ r, cstringRfindBackward s needle grants = some r ∧ Answers needle s r := by
  have hpattern := stringFrom_eq hn (Nat.zero_le _)
  rw [List.drop_zero] at hpattern
  simp only [cstringRfindBackward, hpattern, bind_eq_bind, bind_some]
  by_cases h0 : needle.length = 0
  · rw [if_pos h0, List.length_eq_zero_iff.mp h0]
    exact ⟨s.length, rfl, answers_nil⟩
  rw [if_neg h0]
  by_cases hlong : needle.length > s.length
  · rw [if_pos hlong]
    refine ⟨ccolInvalidSize, rfl, .inr ⟨rfl, fun i hi => ?_⟩⟩
    have hle := hi.length_le
    omega
  rw [if_neg hlong]
  obtain ⟨first, hfirst, hgetFirst⟩ := charAt_some (show 0 < needle.length by omega)
  obtain ⟨last, hlast, hgetLast⟩ := charAt_some (show needle.length - 1 < needle.length by omega)
  simp only [hfirst, hlast, bind_some]
  by_cases h1 : needle.length = 1
  · rw [if_pos h1]
    obtain ⟨c, rfl⟩ := List.length_eq_one_iff.mp h1
    cases hgetFirst
    obtain ⟨found, hfound, hspec⟩ := memrchr_answers s first
    rw [hfound, bind_some]
    exact ⟨_, rfl, hspec⟩
  · rw [if_neg h1]
    have hne : needle ≠ [] := fun h => h0 (congrArg List.length h)
    have habove := noneFrom_end s hne
    rw [show s.length + 1 - needle.length = s.length - (needle.length - 1) by omega] at habove
    exact scanBlocks_spec (by omega) hfits hgetFirst hgetLast grants _ _ (by omega) habove

theorem cstringRfind_spec (hs : 0 ∉ s) (hn : 0 ∉ needle) (hfits : s.length ≤ sizeMax) (grants : Nat → Bool) :
    ∃ r, cstringRfind s (some needle) grants = some r ∧ Answers needle s r := by
  simp only [cstringRfind]
  split
  · exact cstringRfindBackward_spec hn hfits grants
  · cases needle with
    | nil =>
      have hnul : charAt [] 0 = some 0 := rfl
      rw [hnul, bind_eq_bind, bind_some, if_pos rfl]
      exact ⟨s.length, rfl, answers_nil⟩
    | cons c rest =>
      have hc : charAt (c :: rest) 0 = some c := rfl
      rw [List.mem_cons, not_or] at hn
      simp only [hc, bind_eq_bind, bind_some, if_neg (Ne.symm hn.1)]
      cases rest with
      | nil =>
        have hnul : charAt [c] 1 = some 0 := rfl
        obtain ⟨found, hfound, hspec⟩ := memrchr_answers s c
        simp only [hnul, hfound, bind_some, if_pos]
        exact ⟨_, rfl, hspec⟩
      | cons d rest =>
        have hd : charAt (c :: d :: rest) 1 = some d := rfl
        have hdn : d ≠ 0 := fun h => hn.2 (h ▸ List.mem_cons_self)
        have hnoNul : (0 : UInt8) ∉ c :: d :: rest := by
          rw [List.mem_cons, not_or]
          exact hn
        simp only [hd, bind_some, if_neg hdn]
        exact lastForward_spec hs hnoNul (by simp) (s.length + 1) 0 ccolInvalidSize (Nat.zero_le _) (by omega)
          (.inr ⟨rfl, rfl⟩)

end

/-- The search ends without a read outside the string, the needle or the table, and it gives the last place of the
needle. -/
theorem cstring_rfind_is_last_occurrence (s needle : List UInt8) (hs : 0 ∉ s) (hn : 0 ∉ needle)
    (hfits : s.length < ccolInvalidSize) (grants : Nat → Bool) :
    ∃ r, cstringRfind s (some needle) grants = some r ∧
      (needle = [] → r = s.length) ∧
      (r = ccolInvalidSize ↔ ∀ i, ¬OccursAt needle s i) ∧
      (r ≠ ccolInvalidSize → LastAt needle s r) := by
  obtain ⟨r, hr, hanswers⟩ := cstringRfind_spec hs hn (Nat.le_of_lt hfits) grants
  refine ⟨r, hr, ?_⟩
  rcases hanswers with hlast | ⟨rfl, hnone⟩
  · have hle := hlast.occurs.length_le
    have hne : r ≠ ccolInvalidSize := by omega
    refine ⟨?_, ⟨fun h => absurd h hne, fun h => absurd hlast.occurs (h r)⟩, fun _ => hlast⟩
    rintro rfl
    exact Nat.le_antisymm (occursAt_nil.mp hlast.occurs) (hlast.le _ (occursAt_nil.mpr (Nat.le_refl _)))
  · refine ⟨?_, ⟨fun _ => hnone, fun _ => rfl⟩, fun h => absurd rfl h⟩
    rintro rfl
    exact absurd (occursAt_nil.mpr (Nat.zero_le _)) (hnone 0)

/-- A needle that is too long for the table on the stack, in a text whose every position passes the filter. -/
def lateMismatch : List UInt8 := List.replicate 100 97 ++ [98] ++ List.replicate 100 97

theorem noNul_replicate (n : Nat) : (0 : UInt8) ∉ List.replicate n 97 := fun h =>
  absurd (List.eq_of_mem_replicate h) (by decide)

theorem noNul_lateMismatch : 0 ∉ lateMismatch := by
  rw [lateMismatch, List.mem_append, List.mem_append, not_or, not_or]
  exact ⟨⟨noNul_replicate _, by decide⟩, noNul_replicate _⟩

theorem cstring_rfind_is_last_occurrence_lateMismatch :
    ∃ r, cstringRfind (List.replicate 1000 97) (some lateMismatch) (fun _ => false) = some r ∧
      (lateMismatch = [] → r = (List.replicate 1000 (97 : UInt8)).length) ∧
      (r = ccolInvalidSize ↔ ∀ i, ¬OccursAt lateMismatch (List.replicate 1000 97) i) ∧
      (r ≠ ccolInvalidSize → LastAt lateMismatch (List.replicate 1000 97) r) :=
  cstring_rfind_is_last_occurrence (List.replicate 1000 97) lateMismatch (noNul_replicate _) noNul_lateMismatch
    (by rw [List.length_replicate]; decide) fun _ => false

/-!
# cstring: splitting inverts joining
-/

/-- A split that succeeds gives the text cut at every leftmost non-overlapping occurrence of the delimiter. When a
request fails, every block the split asked for was given back once. -/
theorem cstring_split_inverts_joining (stays : Nat → Bool) (h : Heap) (s : Cstr) (text d : List UInt8) (delimiter : Ptr)
    (hsound : h.Sound) (hs : Holds h s text) (hd : h.StringAt delimiter d) (hne : d ≠ []) :
    Splits h text d (cstringSplit stays h s (some delimiter)) :=
  cstringSplit_spec stays hsound hs hd hne

/-- `abc` split at its own end `bc`. -/
theorem cstring_split_inverts_joining_own_end :
    Splits abcHeap [97, 98, 99] [98, 99] (cstringSplit (fun _ => true) abcHeap abc (some (abc.addr 1))) :=
  cstring_split_inverts_joining (fun _ => true) abcHeap abc [97, 98, 99] [98, 99] (abc.addr 1)
    (fun _ hc => if_neg (Nat.ne_of_gt hc)) abc_holds (abc_holds.stringAt.drop (i := 1) (by decide)) (by decide)

end Ccollections.Cstring
