import Mathlib.Computability.Language

/-!
# Languages for scanners

A scanner takes runs of characters of one class and compares single characters. These are the languages of its parts, and
what it leaves of a text that begins with one.
-/

namespace Ccollections.Lib
open Computability List

variable {α : Type*} {p : α → Bool} {L M : Language α} {s t run rest : List α} {c : α}

def chars (p : α → Bool) : Language α := {s | ∃ c, p c = true ∧ s = [c]}

def text (t : List α) : Language α := {s | s = t}

theorem mem_chars : s ∈ chars p ↔ ∃ c, p c = true ∧ s = [c] := Iff.rfl

theorem mem_text : s ∈ text t ↔ s = t := Iff.rfl

theorem mem_chars_mul : s ∈ chars p * L ↔ ∃ c r, s = c :: r ∧ p c = true ∧ r ∈ L := by
  rw [Language.mem_mul]
  constructor
  · rintro ⟨-, ⟨c, hc, rfl⟩, r, hr, rfl⟩
    exact ⟨c, r, rfl, hc, hr⟩
  · rintro ⟨c, r, rfl, hc, hr⟩
    exact ⟨[c], ⟨c, hc, rfl⟩, r, hr, rfl⟩

theorem mem_text_mul : s ∈ text t * L ↔ ∃ r, s = t ++ r ∧ r ∈ L := by
  rw [Language.mem_mul]
  constructor
  · rintro ⟨-, rfl, r, hr, rfl⟩
    exact ⟨r, rfl, hr⟩
  · rintro ⟨r, rfl, hr⟩
    exact ⟨t, rfl, r, hr, rfl⟩

theorem mem_mul_text : s ∈ L * text t ↔ ∃ r, s = r ++ t ∧ r ∈ L := by
  rw [Language.mem_mul]
  constructor
  · rintro ⟨r, hr, -, rfl, rfl⟩
    exact ⟨r, rfl, hr⟩
  · rintro ⟨r, rfl, hr⟩
    exact ⟨r, hr, t, rfl, rfl⟩

/-! ## The star -/

theorem append_mem_kstar (h : s ∈ L) (h' : t ∈ L∗) : s ++ t ∈ L∗ := by
  obtain ⟨parts, rfl, hparts⟩ := Language.mem_kstar.mp h'
  refine Language.mem_kstar.mpr ⟨s :: parts, rfl, ?_⟩
  intro y hy
  rcases mem_cons.mp hy with rfl | hy
  · exact h
  · exact hparts y hy

theorem kstar_induction {motive : List α → Prop} (hnil : motive []) (hword : ∀ s t, s ∈ L → t ∈ L∗ → motive t → motive (s ++ t))
    (h : s ∈ L∗) : motive s := by
  obtain ⟨parts, rfl, hparts⟩ := Language.mem_kstar.mp h
  clear h
  induction parts with
  | nil => exact hnil
  | cons w parts ih =>
    have hrest := fun y hy => hparts y (mem_cons_of_mem w hy)
    exact hword w _ (hparts w mem_cons_self) (Language.join_mem_kstar hrest) (ih hrest)

theorem mem_chars_kstar : s ∈ (chars p)∗ ↔ ∀ c ∈ s, p c = true := by
  constructor
  · refine kstar_induction (motive := fun s => ∀ c ∈ s, p c = true) (fun _ h => nomatch h) ?_
    rintro - t ⟨c, hc, rfl⟩ - ih c' hc'
    rcases mem_cons.mp hc' with rfl | hc'
    · exact hc
    · exact ih c' hc'
  · intro h
    induction s with
    | nil => exact Language.nil_mem_kstar _
    | cons c s ih =>
      exact append_mem_kstar (s := [c]) ⟨c, h c mem_cons_self, rfl⟩ (ih fun c' hc' => h c' (mem_cons_of_mem c hc'))

theorem mem_run_mul : s ∈ (chars p)∗ * L ↔ ∃ run r, s = run ++ r ∧ (∀ c ∈ run, p c = true) ∧ r ∈ L := by
  rw [Language.mem_mul]
  constructor
  · rintro ⟨run, hrun, r, hr, rfl⟩
    exact ⟨run, r, rfl, mem_chars_kstar.mp hrun, hr⟩
  · rintro ⟨run, r, rfl, hrun, hr⟩
    exact ⟨run, mem_chars_kstar.mpr hrun, r, hr, rfl⟩

/-! ## Characters that do not occur -/

def Avoids (c : α) (L : Language α) : Prop := ∀ s ∈ L, c ∉ s

theorem avoids_chars (h : p c = false) : Avoids c (chars p) := by
  rintro - ⟨c', hc', rfl⟩ hmem
  obtain rfl := mem_singleton.mp hmem
  rw [hc'] at h
  cases h

theorem avoids_text (h : c ∉ t) : Avoids c (text t) := by
  intro s hs
  rw [mem_text.mp hs]
  exact h

theorem avoids_one : Avoids c (1 : Language α) := by
  intro s hs
  rw [(Language.mem_one s).mp hs]
  exact not_mem_nil

theorem Avoids.add (hL : Avoids c L) (hM : Avoids c M) : Avoids c (L + M) := by
  intro s hs
  rcases (Language.mem_add L M s).mp hs with hs | hs
  · exact hL s hs
  · exact hM s hs

theorem Avoids.mul (hL : Avoids c L) (hM : Avoids c M) : Avoids c (L * M) := by
  intro s hs
  obtain ⟨a, ha, b, hb, rfl⟩ := Language.mem_mul.mp hs
  intro hmem
  rcases mem_append.mp hmem with hmem | hmem
  · exact hL a ha hmem
  · exact hM b hb hmem

theorem Avoids.kstar (hL : Avoids c L) : Avoids c (L∗) := by
  intro s hs
  obtain ⟨parts, rfl, hparts⟩ := Language.mem_kstar.mp hs
  intro hmem
  obtain ⟨w, hw, hc⟩ := mem_flatten.mp hmem
  exact hL w (hparts w hw) hc

/-! ## Scanning a run -/

/-- A scan past a run stops where a character of another class follows. -/
theorem dropWhile_run (hrun : ∀ c ∈ run, p c = true) (hrest : ∀ c ∈ rest.head?, p c = false) :
    (run ++ rest).dropWhile p = rest := by
  induction run with
  | nil =>
    cases rest with
    | nil => rfl
    | cons c rest => exact dropWhile_cons_of_neg (by simp [hrest c rfl])
  | cons c run ih =>
    rw [cons_append, dropWhile_cons_of_pos (hrun c mem_cons_self)]
    exact ih fun c' hc' => hrun c' (mem_cons_of_mem c hc')

theorem takeWhile_run (hrun : ∀ c ∈ run, p c = true) (hrest : ∀ c ∈ rest.head?, p c = false) :
    (run ++ rest).takeWhile p = run := by
  have h := takeWhile_append_dropWhile (p := p) (l := run ++ rest)
  rw [dropWhile_run hrun hrest] at h
  exact append_cancel_right h

theorem drop_run (p : α → Bool) (s : List α) : s.drop (s.takeWhile p).length = s.dropWhile p := by
  have h : (s.takeWhile p ++ s.dropWhile p).drop (s.takeWhile p).length = s.dropWhile p := drop_left
  rwa [takeWhile_append_dropWhile] at h

theorem run_split (p : α → Bool) (s : List α) :
    ∃ run, s = run ++ s.dropWhile p ∧ (∀ c ∈ run, p c = true) ∧ ∀ c ∈ (s.dropWhile p).head?, p c = false := by
  refine ⟨s.takeWhile p, takeWhile_append_dropWhile.symm, fun c hc => all_eq_true.mp all_takeWhile c hc, fun c hc => ?_⟩
  have h := List.head?_dropWhile_not p s
  rw [Option.mem_def.mp hc] at h
  simpa using h

end Ccollections.Lib
