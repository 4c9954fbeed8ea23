import Mathlib.Data.List.Nodup
import Mathlib.Data.List.Induction

/-!
# Linked lists

A cell is a value of any type and `next` is the pointer each cell stores. A doubly-linked list is two such
lists over the same cells, one in each order.
-/

namespace Ccollections.Lib

open List

variable {α : Type*} {next next' : α → Option α} {p p' q q' : Option α} {l l₁ l₂ : List α} {a : α}

/-- Following the pointers from `p` meets exactly the cells of the list and ends at `q`. -/
def Seg (next : α → Option α) : Option α → List α → Option α → Prop
  | p, [], q => p = q
  | p, a :: l, q => p = some a ∧ Seg next (next a) l q

theorem Seg.append : Seg next p (l₁ ++ l₂) q ↔ ∃ m, Seg next p l₁ m ∧ Seg next m l₂ q := by
  induction l₁ generalizing p with
  | nil => simp [Seg]
  | cons a l₁ ih => simp [Seg, ih, and_assoc]

theorem Seg.congr (h : Seg next p l q) (hsame : ∀ a ∈ l, next' a = next a) : Seg next' p l q := by
  induction l generalizing p with
  | nil => exact h
  | cons a l ih =>
    refine ⟨h.1, ?_⟩
    rw [hsame a mem_cons_self]
    exact ih h.2 fun b hb => hsame b (mem_cons_of_mem a hb)

theorem Seg.head_eq (h : Seg next p l none) : p = l.head? := by
  cases l with
  | nil => exact h
  | cons a l => exact h.1

theorem Seg.push (h : Seg next p l q) (hnew : next' a = p) (hsame : ∀ b ∈ l, next' b = next b) :
    Seg next' (some a) (a :: l) q :=
  ⟨rfl, hnew ▸ h.congr hsame⟩

/-- The pointer that ends the list is the one the last cell stores, or the first pointer of an empty list. -/
theorem Seg.redirect (h : Seg next p l q) (hnd : l.Nodup)
    (hlast : ∀ z ∈ l.getLast?, p' = p ∧ next' z = q') (hnil : l = [] → p' = q')
    (hsame : ∀ b ∈ l, l.getLast? ≠ some b → next' b = next b) : Seg next' p' l q' := by
  cases l using List.reverseRecOn with
  | nil => exact hnil rfl
  | append_singleton l z =>
    rw [List.getLast?_concat] at hlast hsame
    obtain ⟨rfl, hz⟩ := hlast z rfl
    obtain ⟨m, hl, hend⟩ := Seg.append.mp h
    have hnot : ∀ b ∈ l, some z ≠ some b := by
      rintro b hb heq
      cases heq
      exact (nodup_append.mp hnd).2.2 z hb z (mem_singleton.mpr rfl) rfl
    refine Seg.append.mpr ⟨m, hl.congr fun b hb => hsame b (mem_append_left _ hb) (hnot b hb), hend.1, hz⟩

theorem Seg.push_back (h : Seg next p l none) (hnd : l.Nodup) (hnew : next' a = none)
    (hlast : ∀ z ∈ l.getLast?, p' = p ∧ next' z = some a) (hnil : l = [] → p' = some a)
    (hsame : ∀ b ∈ l, l.getLast? ≠ some b → next' b = next b) : Seg next' p' (l ++ [a]) none :=
  Seg.append.mpr ⟨some a, h.redirect hnd hlast hnil hsame, rfl, hnew⟩

/-- A cell taken out: the cell before it, or the first pointer, gets its pointer. -/
theorem Seg.unlink (h : Seg next p (l₁ ++ a :: l₂) q) (hnd : (l₁ ++ a :: l₂).Nodup)
    (hlast : ∀ z ∈ l₁.getLast?, p' = p ∧ next' z = next a) (hnil : l₁ = [] → p' = next a)
    (hsame : ∀ b ∈ l₁ ++ l₂, l₁.getLast? ≠ some b → next' b = next b) : Seg next' p' (l₁ ++ l₂) q := by
  obtain ⟨m, hl₁, hm, hl₂⟩ := Seg.append.mp h
  have hnd' := nodup_append.mp hnd
  refine Seg.append.mpr ⟨next a, ?_, ?_⟩
  · exact hl₁.redirect hnd'.1 hlast hnil fun b hb => hsame b (mem_append_left _ hb)
  · refine hl₂.congr fun b hb => hsame b (mem_append_right _ hb) fun hz => ?_
    exact hnd'.2.2 b (mem_of_getLast? hz) b (mem_cons_of_mem a hb) rfl

/-! ## Doubly-linked lists -/

section

variable {prev prev' : α → Option α} {head head' tail tail' : Option α}

/-- The cells of a list with pointers both ways and its two ends. -/
structure Dll (next prev : α → Option α) (head tail : Option α) (l : List α) : Prop where
  next : Seg next head l none
  prev : Seg prev tail l.reverse none
  nodup : l.Nodup

theorem Dll.empty : Dll next prev none none [] := ⟨rfl, rfl, nodup_nil⟩

theorem Dll.head_eq (h : Dll next prev head tail l) : head = l.head? := h.next.head_eq

theorem Dll.tail_eq (h : Dll next prev head tail l) : tail = l.getLast? := by
  rw [h.prev.head_eq, List.head?_reverse]

theorem Dll.congr (h : Dll next prev head tail l) (hnext : ∀ b ∈ l, next' b = next b) (hprev : ∀ b ∈ l, prev' b = prev b) :
    Dll next' prev' head tail l :=
  ⟨h.next.congr hnext, h.prev.congr fun b hb => hprev b (mem_reverse.mp hb), h.nodup⟩

theorem Dll.next_eq (h : Dll next prev head tail (l₁ ++ a :: l₂)) : next a = l₂.head? := by
  obtain ⟨m, -, hm⟩ := Seg.append.mp h.next
  exact hm.2.head_eq

theorem Dll.prev_eq (h : Dll next prev head tail (l₁ ++ a :: l₂)) : prev a = l₁.getLast? := by
  have hprev := h.prev
  rw [reverse_append, reverse_cons, append_assoc, singleton_append] at hprev
  obtain ⟨m, -, hm⟩ := Seg.append.mp hprev
  rw [hm.2.head_eq, List.head?_reverse]

variable [DecidableEq α]

theorem Dll.push_back (h : Dll next prev head tail l) (ha : a ∉ l)
    (hnext : ∀ b, next' b = if b = a then none else if tail = some b then some a else next b)
    (hprev : ∀ b, prev' b = if b = a then tail else prev b) (hhead : head' = if tail = none then some a else head) :
    Dll next' prev' head' (some a) (l ++ [a]) := by
  have hne : ∀ b ∈ l, b ≠ a := by
    rintro b hb rfl
    exact ha hb
  constructor
  · apply h.next.push_back h.nodup
    · simp [hnext]
    · intro z hz
      have htail : tail = some z := h.tail_eq.trans hz
      simp [hhead, hnext, htail, hne z (mem_of_getLast? hz)]
    · rintro rfl
      simp [hhead, h.tail_eq]
    · intro b hb hlast
      rw [← h.tail_eq] at hlast
      rw [hnext, if_neg (hne b hb), if_neg hlast]
  · rw [reverse_append]
    apply h.prev.push
    · simp [hprev]
    · intro b hb
      rw [hprev, if_neg (hne b (mem_reverse.mp hb))]
  · simpa using h.nodup.concat ha

theorem Dll.unlink (h : Dll next prev head tail (l₁ ++ a :: l₂))
    (hnext : ∀ b ≠ a, next' b = if prev a = some b then next a else next b)
    (hprev : ∀ b ≠ a, prev' b = if next a = some b then prev a else prev b)
    (hhead : head' = if head = some a then next a else head) (htail : tail' = if tail = some a then prev a else tail) :
    Dll next' prev' head' tail' (l₁ ++ l₂) := by
  have hnd := h.nodup
  have hmem := (nodup_middle.mp hnd)
  have hnot : a ∉ l₁ ++ l₂ := (nodup_cons.mp hmem).1
  have hne : ∀ b ∈ l₁ ++ l₂, b ≠ a := by
    rintro b hb rfl
    exact hnot hb
  have hdisj := nodup_append.mp (nodup_cons.mp hmem).2
  constructor
  · apply h.next.unlink hnd
    · intro z hz
      have hz₁ : z ∈ l₁ := mem_of_getLast? hz
      have hfirst : head ≠ some a := by
        rw [h.head_eq]
        cases l₁ with
        | nil => cases hz₁
        | cons b l₁ => simpa using hne b (by simp)
      have hza : prev a = some z := h.prev_eq.trans hz
      simp [hhead, hfirst, hnext z (hne z (mem_append_left _ hz₁)), hza]
    · rintro rfl
      have hfirst : head = some a := h.head_eq
      rw [hhead, if_pos hfirst]
    · intro b hb hlast
      rw [← h.prev_eq] at hlast
      rw [hnext b (hne b hb), if_neg hlast.symm.symm]
  · have hback := h.prev
    have hndr := nodup_reverse.mpr hnd
    rw [reverse_append, reverse_cons, append_assoc, singleton_append] at hback hndr
    rw [reverse_append]
    apply hback.unlink hndr
    · intro z hz
      rw [List.getLast?_reverse] at hz
      have hz₂ : z ∈ l₂ := mem_of_mem_head? hz
      have hlast : tail ≠ some a := by
        rw [h.tail_eq, append_cons, List.getLast?_append_of_ne_nil _ (ne_nil_of_mem hz₂)]
        intro heq
        exact hne a (mem_append_right _ (mem_of_getLast? heq)) rfl
      have hza : next a = some z := h.next_eq.trans hz
      simp [htail, hlast, hprev z (hne z (mem_append_right _ hz₂)), hza]
    · intro hnil
      obtain rfl : l₂ = [] := reverse_eq_nil_iff.mp hnil
      have hlast : tail = some a := by
        rw [h.tail_eq, List.getLast?_concat]
      rw [htail, if_pos hlast]
    · intro b hb hlast
      rw [List.getLast?_reverse, ← h.next_eq] at hlast
      have hb' : b ∈ l₁ ++ l₂ := by simpa [or_comm] using hb
      rw [hprev b (hne b hb'), if_neg hlast]
  · exact (nodup_cons.mp hmem).2

end

end Ccollections.Lib
