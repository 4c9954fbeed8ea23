import Mathlib.Data.List.Basic
import Mathlib.Data.List.Infix

/-!
# Occurrences of a list in a list

Where a needle occurs, the first and the last place, and the occurrences a scan from the left finds when it goes on
after the end of each.
-/

namespace Ccollections.Lib

open List Option

variable {α : Type}

/-- The needle lies in `hay` from index `i` on. -/
def OccursAt (needle hay : List α) (i : Nat) : Prop := i ≤ hay.length ∧ needle <+: hay.drop i

section

variable {needle hay : List α} {i : Nat}

theorem OccursAt.length_le (h : OccursAt needle hay i) : i + needle.length ≤ hay.length := by
  have hle := h.2.length_le
  rw [length_drop] at hle
  have := h.1
  omega

theorem OccursAt.split (h : OccursAt needle hay i) : hay = hay.take i ++ needle ++ hay.drop (i + needle.length) := by
  obtain ⟨rest, hrest⟩ := h.2
  rw [← drop_drop, ← hrest, drop_left, append_assoc, hrest, take_append_drop]

theorem occursAt_iff_append : OccursAt needle hay i ↔ ∃ a b, hay = a ++ needle ++ b ∧ a.length = i := by
  constructor
  · intro h
    exact ⟨_, _, h.split, length_take_of_le h.1⟩
  · rintro ⟨a, b, rfl, rfl⟩
    refine ⟨by simp, ?_⟩
    rw [append_assoc, drop_left]
    exact prefix_append needle b

theorem occursAt_zero : OccursAt needle hay 0 ↔ needle <+: hay := by
  simp [OccursAt]

theorem occursAt_cons_succ {c : α} : OccursAt needle (c :: hay) (i + 1) ↔ OccursAt needle hay i := by
  simp [OccursAt]

theorem occursAt_iff_getElem? :
    OccursAt needle hay i ↔ i + needle.length ≤ hay.length ∧ ∀ k < needle.length, hay[i + k]? = needle[k]? := by
  constructor
  · intro h
    refine ⟨h.length_le, fun k hk => ?_⟩
    obtain ⟨rest, hrest⟩ := h.2
    rw [← List.getElem?_drop, ← hrest, List.getElem?_append_left hk]
  · rintro ⟨hle, hget⟩
    refine ⟨by omega, prefix_iff_eq_take.mpr (ext_getElem? fun k => ?_)⟩
    rw [List.getElem?_take]
    split
    · rw [List.getElem?_drop, hget k (by assumption)]
    · rw [List.getElem?_eq_none (by omega)]

theorem occursAt_drop {n : Nat} (hn : n ≤ hay.length) : OccursAt needle (hay.drop n) i ↔ OccursAt needle hay (n + i) := by
  simp only [OccursAt, length_drop, drop_drop]
  exact and_congr_left fun _ => by omega

theorem occursAt_take {n : Nat} (hn : n ≤ hay.length) :
    OccursAt needle (hay.take n) i ↔ OccursAt needle hay i ∧ i + needle.length ≤ n := by
  rw [occursAt_iff_getElem?, occursAt_iff_getElem?, length_take_of_le hn]
  constructor
  · rintro ⟨hle, hget⟩
    refine ⟨⟨by omega, fun k hk => ?_⟩, hle⟩
    rw [← hget k hk, List.getElem?_take_of_lt (by omega)]
  · rintro ⟨⟨-, hget⟩, hle⟩
    refine ⟨hle, fun k hk => ?_⟩
    rw [List.getElem?_take_of_lt (by omega), hget k hk]

theorem occursAt_nil : OccursAt [] hay i ↔ i ≤ hay.length := by
  simp [OccursAt]

theorem occursAt_singleton {c : α} : OccursAt [c] hay i ↔ hay[i]? = some c := by
  rw [occursAt_iff_getElem?]
  constructor
  · rintro ⟨-, hget⟩
    exact hget 0 Nat.one_pos
  · intro hget
    obtain ⟨hlt, -⟩ := List.getElem?_eq_some_iff.mp hget
    refine ⟨hlt, fun k hk => ?_⟩
    obtain rfl : k = 0 := Nat.lt_one_iff.mp hk
    exact hget

structure LastAt (needle hay : List α) (i : Nat) : Prop where
  occurs : OccursAt needle hay i
  le : ∀ j, OccursAt needle hay j → j ≤ i

theorem isInfix_iff_occursAt : needle <:+: hay ↔ ∃ i, OccursAt needle hay i := by
  constructor
  · rintro ⟨a, b, rfl⟩
    exact ⟨a.length, occursAt_iff_append.mpr ⟨a, b, rfl, rfl⟩⟩
  · rintro ⟨i, h⟩
    obtain ⟨a, b, rfl, -⟩ := occursAt_iff_append.mp h
    exact ⟨a, b, rfl⟩

theorem drop_cons_pred (hne : needle ≠ []) (c : α) (hay : List α) :
    hay.drop (needle.length - 1) = (c :: hay).drop needle.length := by
  obtain ⟨n, hn⟩ : ∃ n, needle.length = n + 1 := ⟨needle.length - 1, by have := length_pos_iff.mpr hne; omega⟩
  rw [hn, drop_succ_cons, Nat.add_sub_cancel]

end

variable [DecidableEq α]

instance (needle hay : List α) (i : Nat) : Decidable (OccursAt needle hay i) := inferInstanceAs (Decidable (_ ∧ _))

def firstOccurrence (needle : List α) : List α → Option Nat
  | [] => if needle = [] then some 0 else none
  | c :: hay => if needle <+: c :: hay then some 0 else (firstOccurrence needle hay).map (· + 1)

/-- The number of occurrences a scan from the left finds, each after the end of the one before. -/
def countAll (needle : List α) : List α → Nat
  | [] => 0
  | c :: hay => if needle <+: c :: hay then countAll needle (hay.drop (needle.length - 1)) + 1 else countAll needle hay
termination_by hay => hay.length
decreasing_by all_goals simp; try omega

/-- The list with every occurrence such a scan finds replaced. -/
def replaceAll (needle replacement : List α) : List α → List α
  | [] => []
  | c :: hay =>
    if needle <+: c :: hay then replacement ++ replaceAll needle replacement (hay.drop (needle.length - 1))
    else c :: replaceAll needle replacement hay
termination_by hay => hay.length
decreasing_by all_goals simp; try omega

section

variable {needle hay : List α} {i : Nat}

/-! ## The first occurrence -/

theorem firstOccurrence_some (h : firstOccurrence needle hay = some i) :
    OccursAt needle hay i ∧ ∀ j < i, ¬OccursAt needle hay j := by
  induction hay generalizing i with
  | nil =>
    rw [firstOccurrence] at h
    split at h
    · cases h
      rename_i hnil
      subst hnil
      exact ⟨by simp [OccursAt], by simp⟩
    · cases h
  | cons c hay ih =>
    rw [firstOccurrence] at h
    split at h
    · cases h
      exact ⟨occursAt_zero.mpr (by assumption), by simp⟩
    · rename_i hno
      obtain ⟨i', hi', rfl⟩ := map_eq_some_iff.mp h
      obtain ⟨hat, hfirst⟩ := ih hi'
      refine ⟨occursAt_cons_succ.mpr hat, fun j hj hj' => ?_⟩
      cases j with
      | zero => exact hno (occursAt_zero.mp hj')
      | succ j => exact hfirst j (by omega) (occursAt_cons_succ.mp hj')

theorem firstOccurrence_none (h : firstOccurrence needle hay = none) (j : Nat) : ¬OccursAt needle hay j := by
  induction hay generalizing j with
  | nil =>
    rw [firstOccurrence] at h
    split at h
    · cases h
    · rename_i hne
      intro hj
      obtain ⟨-, hnil⟩ : j = 0 ∧ needle = [] := by simpa using hj.length_le
      exact hne hnil
  | cons c hay ih =>
    rw [firstOccurrence] at h
    split at h
    · cases h
    · rename_i hno
      intro hj
      cases j with
      | zero => exact hno (occursAt_zero.mp hj)
      | succ j => exact ih (map_eq_none_iff.mp h) j (occursAt_cons_succ.mp hj)

/-- What lies before the first occurrence does not contain the needle. -/
theorem not_infix_take_first (hne : needle ≠ []) (h : firstOccurrence needle hay = some i) : ¬needle <:+: hay.take i := by
  intro hinfix
  obtain ⟨j, hj⟩ := isInfix_iff_occursAt.mp hinfix
  have hle := hj.length_le
  have hpos := length_pos_iff.mpr hne
  rw [length_take] at hle
  obtain ⟨a, b, hab, ha⟩ := occursAt_iff_append.mp hj
  refine (firstOccurrence_some h).2 j (by omega) (occursAt_iff_append.mpr ⟨a, b ++ hay.drop i, ?_, ha⟩)
  rw [← append_assoc, ← hab, take_append_drop]

theorem not_infix_of_none (h : firstOccurrence needle hay = none) : ¬needle <:+: hay := by
  intro hinfix
  obtain ⟨j, hj⟩ := isInfix_iff_occursAt.mp hinfix
  exact firstOccurrence_none h j hj

/-! ## What the scan finds -/

theorem countAll_first (hne : needle ≠ []) (h : firstOccurrence needle hay = some i) :
    countAll needle hay = countAll needle (hay.drop (i + needle.length)) + 1 := by
  induction hay generalizing i with
  | nil =>
    rw [firstOccurrence, if_neg hne] at h
    cases h
  | cons c hay ih =>
    rw [firstOccurrence] at h
    rw [countAll]
    split at h
    · cases h
      rw [if_pos (by assumption), drop_cons_pred hne c, Nat.zero_add]
    · obtain ⟨i', hi', rfl⟩ := map_eq_some_iff.mp h
      rw [if_neg (by assumption), ih hi', Nat.add_right_comm, drop_succ_cons]

theorem countAll_none (h : firstOccurrence needle hay = none) : countAll needle hay = 0 := by
  induction hay with
  | nil => rw [countAll]
  | cons c hay ih =>
    rw [firstOccurrence] at h
    split at h
    · cases h
    · rw [countAll, if_neg (by assumption), ih (map_eq_none_iff.mp h)]

theorem replaceAll_first (replacement : List α) (hne : needle ≠ []) (h : firstOccurrence needle hay = some i) :
    replaceAll needle replacement hay =
      hay.take i ++ replacement ++ replaceAll needle replacement (hay.drop (i + needle.length)) := by
  induction hay generalizing i with
  | nil =>
    rw [firstOccurrence, if_neg hne] at h
    cases h
  | cons c hay ih =>
    rw [firstOccurrence] at h
    rw [replaceAll]
    split at h
    · cases h
      rw [if_pos (by assumption), drop_cons_pred hne c, Nat.zero_add, take_zero, nil_append]
    · obtain ⟨i', hi', rfl⟩ := map_eq_some_iff.mp h
      rw [if_neg (by assumption), ih hi', Nat.add_right_comm, drop_succ_cons, take_succ_cons, cons_append,
        cons_append]

theorem replaceAll_none (replacement : List α) (h : firstOccurrence needle hay = none) :
    replaceAll needle replacement hay = hay := by
  induction hay with
  | nil => rw [replaceAll]
  | cons c hay ih =>
    rw [firstOccurrence] at h
    split at h
    · cases h
    · rw [replaceAll, if_neg (by assumption), ih (map_eq_none_iff.mp h)]

/-- Induction on a scan: from the list after the first occurrence to the list. -/
theorem scan_induction (hne : needle ≠ []) {motive : List α → Prop}
    (stop : ∀ hay, firstOccurrence needle hay = none → motive hay)
    (found : ∀ hay i, firstOccurrence needle hay = some i → motive (hay.drop (i + needle.length)) → motive hay)
    (hay : List α) : motive hay := by
  induction hlen : hay.length using Nat.strong_induction_on generalizing hay with
  | h n ih =>
    cases hfirst : firstOccurrence needle hay with
    | none => exact stop hay hfirst
    | some i =>
      have hle := (firstOccurrence_some hfirst).1.length_le
      have hpos := length_pos_iff.mpr hne
      exact found hay i hfirst (ih _ (by rw [length_drop]; omega) _ rfl)

/-- Every occurrence the scan finds takes the needle's length, and the replacement's in the result. -/
theorem replaceAll_length (replacement : List α) (hne : needle ≠ []) (hay : List α) :
    (replaceAll needle replacement hay).length + countAll needle hay * needle.length =
      hay.length + countAll needle hay * replacement.length := by
  induction hay using scan_induction hne with
  | stop hay h => rw [replaceAll_none replacement h, countAll_none h, Nat.zero_mul, Nat.zero_mul]
  | found hay i h ih =>
    have hle := (firstOccurrence_some h).1.length_le
    rw [length_drop] at ih
    rw [replaceAll_first replacement hne h, countAll_first hne h, Nat.succ_mul, Nat.succ_mul, length_append,
      length_append, length_take_of_le (by omega)]
    omega

theorem mem_replaceAll {replacement : List α} (hne : needle ≠ []) {x : α} (h : x ∈ replaceAll needle replacement hay) :
    x ∈ replacement ∨ x ∈ hay := by
  induction hay using scan_induction hne with
  | stop hay hfirst =>
    rw [replaceAll_none replacement hfirst] at h
    exact .inr h
  | found hay i hfirst ih =>
    rw [replaceAll_first replacement hne hfirst, mem_append, mem_append] at h
    rcases h with (h | h) | h
    · exact .inr (mem_of_mem_take h)
    · exact .inl h
    · exact (ih h).imp_right mem_of_mem_drop

theorem countAll_mul_le (hne : needle ≠ []) (hay : List α) : countAll needle hay * needle.length ≤ hay.length := by
  induction hay using scan_induction hne with
  | stop hay h => rw [countAll_none h, Nat.zero_mul]; exact Nat.zero_le _
  | found hay i h ih =>
    have hle := (firstOccurrence_some h).1.length_le
    rw [length_drop] at ih
    rw [countAll_first hne h, Nat.succ_mul]
    omega

end

/-!
# Prefixes of a pattern that end a text

The longest prefix of a pattern that is a suffix of the text read so far, and what a failure table has to say for it to
be kept up as the text grows.
-/

open List Option

variable {α : Type}

/-- The first `j` elements of the pattern end the text. -/
def Matched (pattern text : List α) (j : Nat) : Prop := j ≤ pattern.length ∧ pattern.take j <:+ text

structure Longest (pattern text : List α) (j : Nat) : Prop where
  matched : Matched pattern text j
  le : ∀ k, Matched pattern text k → k ≤ j

/-- `f` is the length of the longest proper border of the first `j` elements of the pattern. -/
def Border (pattern : List α) (j f : Nat) : Prop := Longest pattern ((pattern.drop 1).take (j - 1)) f

variable {pattern text : List α} {c : α} {j k f : Nat}

theorem matched_zero (pattern text : List α) : Matched pattern text 0 := ⟨Nat.zero_le _, by simp⟩

theorem Matched.le_text (h : Matched pattern text j) : j ≤ text.length := by
  have hle := h.2.length_le
  rwa [length_take_of_le h.1] at hle

theorem longest_nil (pattern : List α) : Longest pattern [] 0 :=
  ⟨matched_zero _ _, fun _ hk => hk.le_text⟩

theorem matched_length : Matched pattern text pattern.length ↔ pattern <:+ text := by
  simp [Matched]

/-- The whole pattern ends the text exactly when all of it is the longest match. -/
theorem Longest.full (h : Longest pattern text j) : pattern <:+ text ↔ j = pattern.length := by
  rw [← matched_length]
  constructor
  · intro hall
    exact Nat.le_antisymm h.matched.1 (h.le _ hall)
  · rintro rfl
    exact h.matched

theorem matched_snoc : Matched pattern (text ++ [c]) (k + 1) ↔ Matched pattern text k ∧ pattern[k]? = some c := by
  constructor
  · rintro ⟨hle, hsuffix⟩
    have hlt : k < pattern.length := hle
    rw [take_add_one, List.getElem?_eq_getElem hlt, toList_some] at hsuffix
    obtain ⟨front, hfront⟩ := hsuffix
    rw [← append_assoc, append_singleton_inj] at hfront
    exact ⟨⟨Nat.le_of_lt hlt, front, hfront.1⟩, by rw [List.getElem?_eq_getElem hlt, hfront.2]⟩
  · rintro ⟨⟨-, front, hfront⟩, hc⟩
    obtain ⟨hlt, -⟩ := List.getElem?_eq_some_iff.mp hc
    refine ⟨hlt, front, ?_⟩
    rw [take_add_one, hc, toList_some, ← append_assoc, hfront]

theorem Matched.inside (hk : Matched pattern text k) (hj : Matched pattern text j) (hle : k ≤ j) :
    Matched pattern (pattern.take j) k := by
  refine ⟨hk.1, suffix_of_suffix_length_le hk.2 hj.2 ?_⟩
  rw [length_take_of_le hk.1, length_take_of_le hj.1]
  exact hle

theorem Matched.trans (hj : Matched pattern text j) (hk : Matched pattern (pattern.take j) k) : Matched pattern text k :=
  ⟨hk.1, hk.2.trans hj.2⟩

theorem take_eq_cons_take (h0 : 0 < j) (hj : j ≤ pattern.length) :
    ∃ a, pattern.take j = a :: (pattern.drop 1).take (j - 1) := by
  obtain ⟨j, rfl⟩ : ∃ i, j = i + 1 := ⟨j - 1, by omega⟩
  cases pattern with
  | nil => simp at hj
  | cons a pattern => exact ⟨a, by simp⟩

/-- A proper border is a prefix that ends what follows the first element. -/
theorem matched_border (h0 : 0 < j) (hj : j ≤ pattern.length) :
    Matched pattern ((pattern.drop 1).take (j - 1)) k ↔ Matched pattern (pattern.take j) k ∧ k < j := by
  obtain ⟨a, ha⟩ := take_eq_cons_take h0 hj
  constructor
  · intro hk
    refine ⟨⟨hk.1, ?_⟩, ?_⟩
    · rw [ha]
      exact hk.2.trans (suffix_cons _ _)
    · have hle := hk.le_text
      rw [length_take] at hle
      omega
  · rintro ⟨hk, hlt⟩
    refine ⟨hk.1, ?_⟩
    have hsuffix := hk.2
    rw [ha, suffix_cons_iff] at hsuffix
    rcases hsuffix with heq | hsuffix
    · have hlen := congrArg List.length (heq.trans ha.symm)
      rw [length_take_of_le hk.1, length_take_of_le hj] at hlen
      omega
    · exact hsuffix

theorem Border.lt (h : Border pattern j f) (h0 : 0 < j) (hj : j ≤ pattern.length) : f < j :=
  ((matched_border h0 hj).mp h.matched).2

/-- A search for the longest prefix that `c` extends, down from the longest one matched. -/
structure Falling (pattern text : List α) (c : α) (j : Nat) : Prop where
  matched : Matched pattern text j
  le : ∀ k, Matched pattern text k → pattern[k]? = some c → k ≤ j

theorem Longest.falling (h : Longest pattern text j) (c : α) : Falling pattern text c j :=
  ⟨h.matched, fun k hk _ => h.le k hk⟩

/-- A prefix that `c` does not extend gives way to its longest proper border. -/
theorem Falling.fall (h : Falling pattern text c j) (h0 : 0 < j) (hc : pattern[j]? ≠ some c) (hf : Border pattern j f) :
    Falling pattern text c f := by
  have hj := h.matched.1
  refine ⟨h.matched.trans ((matched_border h0 hj).mp hf.matched).1, fun k hk hkc => ?_⟩
  have hle := h.le k hk hkc
  have hne : k ≠ j := by
    rintro rfl
    exact hc hkc
  exact hf.le k ((matched_border h0 hj).mpr ⟨hk.inside h.matched hle, by omega⟩)

theorem Falling.extend (h : Falling pattern text c j) (hc : pattern[j]? = some c) : Longest pattern (text ++ [c]) (j + 1) := by
  refine ⟨matched_snoc.mpr ⟨h.matched, hc⟩, fun k hk => ?_⟩
  cases k with
  | zero => exact Nat.zero_le _
  | succ k =>
    obtain ⟨hk, hkc⟩ := matched_snoc.mp hk
    exact Nat.succ_le_succ (h.le k hk hkc)

theorem Falling.restart (h : Falling pattern text c 0) (hc : pattern[0]? ≠ some c) : Longest pattern (text ++ [c]) 0 := by
  refine ⟨matched_zero _ _, fun k hk => ?_⟩
  cases k with
  | zero => exact Nat.le_refl _
  | succ k =>
    obtain ⟨hk, hkc⟩ := matched_snoc.mp hk
    obtain rfl : k = 0 := Nat.le_zero.mp (h.le k hk hkc)
    exact absurd hkc hc

/-- The border of one element more is the match of the text that has one element more. -/
theorem border_succ (h0 : 0 < j) (hc : pattern[j]? = some c) :
    Border pattern (j + 1) f ↔ Longest pattern ((pattern.drop 1).take (j - 1) ++ [c]) f := by
  obtain ⟨j, rfl⟩ : ∃ i, j = i + 1 := ⟨j - 1, by omega⟩
  have hget : (pattern.drop 1)[j]? = some c := by
    rw [List.getElem?_drop, Nat.add_comm]
    exact hc
  rw [Border, Nat.add_sub_cancel, Nat.add_sub_cancel, take_add_one, hget]
  rfl

theorem border_one (pattern : List α) : Border pattern 1 0 := by
  rw [Border, Nat.sub_self, take_zero]
  exact longest_nil pattern

end Ccollections.Lib
