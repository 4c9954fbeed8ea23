import Mathlib.Algebra.BigOperators.Group.Finset.Basic
import Mathlib.Algebra.Order.BigOperators.Group.Finset
import Mathlib.Data.List.Basic
import Mathlib.Data.List.Perm.Basic

/-!
# Taking elements out of lists
-/

namespace Ccollections.Lib

open List

/-- Takes out the element at an index and puts the last element in its place. -/
def swapRemove {α : Type*} (l : List α) (i : Nat) : List α :=
  match l.getLast? with
  | none => l
  | some last => if i < l.dropLast.length then l.dropLast.set i last else l.dropLast

/-- Taking out an element of a list and writing another in its place. -/
theorem cons_perm_set {α : Type*} {l : List α} {i : Nat} (hi : i < l.length) (a : α) : (a :: l).Perm (l[i] :: l.set i a) :=
  calc (a :: l).Perm (a :: l[i] :: l.eraseIdx i) := (getElem_cons_eraseIdx_perm hi).symm.cons a
    _ |>.Perm (l[i] :: a :: l.eraseIdx i) := List.Perm.swap _ _ _
    _ |>.Perm (l[i] :: l.set i a) := (set_perm_cons_eraseIdx hi a).symm.cons _

theorem perm_swapRemove {α : Type*} {l : List α} {i : Nat} {a : α} (h : l[i]? = some a) : l.Perm (a :: swapRemove l i) := by
  obtain ⟨hi, rfl⟩ := List.getElem?_eq_some_iff.mp h
  have hne : l ≠ [] := ne_nil_of_length_pos (by omega)
  have hlast : l.getLast? = some (l.getLast hne) := List.getLast?_eq_some_getLast hne
  have hlen : l.dropLast.length = l.length - 1 := length_dropLast
  have hperm : l.Perm (l.getLast hne :: l.dropLast) := by
    conv_lhs => rw [← dropLast_append_getLast hne]
    exact perm_append_singleton _ _
  simp only [swapRemove, hlast]
  split
  · rename_i hlt
    have hget : l[i] = l.dropLast[i] := (getElem_dropLast hlt).symm
    rw [hget]
    exact hperm.trans (cons_perm_set hlt _)
  · rename_i hge
    obtain rfl : i = l.length - 1 := by omega
    rwa [← getLast_eq_getElem hne]

theorem perm_eraseIdx {α : Type*} {l : List α} {i : Nat} {a : α} (h : l[i]? = some a) : l.Perm (a :: l.eraseIdx i) := by
  obtain ⟨hi, rfl⟩ := List.getElem?_eq_some_iff.mp h
  exact (getElem_cons_eraseIdx_perm hi).symm

theorem count_eraseIdx {α : Type*} [DecidableEq α] {l : List α} {i : Nat} {a : α} (h : l[i]? = some a) (b : α) :
    (l.eraseIdx i).count b = l.count b - (if a = b then 1 else 0) := by
  have hcount := (perm_eraseIdx h).count_eq b
  rw [count_cons] at hcount
  simp only [beq_iff_eq] at hcount
  omega

/-! ## Counting -/

section

variable {α : Type*} {l : List α} {i : Nat} {a b : α} (p : α → Bool)

theorem countP_eraseIdx (h : l[i]? = some a) : (l.eraseIdx i).countP p + (if p a then 1 else 0) = l.countP p := by
  rw [(perm_eraseIdx h).countP_eq p, countP_cons]

theorem perm_set (h : l[i]? = some a) (b : α) : (l.set i b).Perm (b :: l.eraseIdx i) := by
  obtain ⟨hi, -⟩ := List.getElem?_eq_some_iff.mp h
  exact set_perm_cons_eraseIdx hi b

theorem countP_set (h : l[i]? = some a) :
    (l.set i b).countP p + (if p a then 1 else 0) = l.countP p + (if p b then 1 else 0) := by
  rw [(perm_set h b).countP_eq p, countP_cons, ← countP_eraseIdx p h]
  omega

theorem mem_set_of_mem {x : α} (h : l[i]? = some a) (hx : x ∈ l) (hne : x ≠ a) : x ∈ l.set i b :=
  (perm_set h b).mem_iff.mpr
    (mem_cons_of_mem b (mem_of_ne_of_mem hne ((perm_eraseIdx h).mem_iff.mp hx)))

theorem mem_eraseIdx_of_mem {x : α} (h : l[i]? = some a) (hx : x ∈ l) (hne : x ≠ a) : x ∈ l.eraseIdx i :=
  mem_of_ne_of_mem hne ((perm_eraseIdx h).mem_iff.mp hx)

theorem mem_set_self_of_getElem (h : l[i]? = some a) (b : α) : b ∈ l.set i b :=
  (perm_set h b).mem_iff.mpr mem_cons_self

end

/-! ## Overwriting from a position on -/

/-- The elements of `xs` written into `l` from position `k` on, one after the other. -/
def putFrom {α : Type*} (l : List α) (k : Nat) : List α → List α
  | [] => l
  | x :: xs => putFrom (l.set k x) (k + 1) xs

theorem putFrom_append {α : Type*} (l : List α) (k : Nat) (xs ys : List α) :
    putFrom l k (xs ++ ys) = putFrom (putFrom l k xs) (k + xs.length) ys := by
  induction xs generalizing l k with
  | nil => rfl
  | cons x xs ih =>
    rw [cons_append, putFrom, putFrom, ih, length_cons]
    congr 1
    omega

theorem putFrom_eq {α : Type*} (l : List α) (k : Nat) (xs : List α) (h : k + xs.length ≤ l.length) :
    putFrom l k xs = l.take k ++ xs ++ l.drop (k + xs.length) := by
  induction xs generalizing l k with
  | nil => simp [putFrom]
  | cons x xs ih =>
    rw [length_cons] at h ⊢
    have hset : l.set k x = (l.take k ++ [x]) ++ l.drop (k + 1) := by
      rw [set_eq_take_append_cons_drop, if_pos (by omega), append_assoc]
      rfl
    have hlen : (l.take k ++ [x]).length = k + 1 := by
      rw [length_append, length_take_of_le (by omega), length_singleton]
    rw [putFrom, ih _ _ (by rw [length_set]; omega), hset, take_left' hlen, ← drop_drop,
      drop_left' hlen, drop_drop, show k + 1 + xs.length = k + (xs.length + 1) by omega]
    simp

/-!
# Sums over a family
-/

open List

variable {ι α : Type*} [DecidableEq ι] {s : Finset ι} {g : ι → α} {i : ι}

theorem sum_update (f : α → Nat) (hi : i ∈ s) (a : α) :
    (∑ j ∈ s, f (Function.update g i a j)) + f (g i) = (∑ j ∈ s, f (g j)) + f a := by
  have hrest : ∑ j ∈ s.erase i, f (Function.update g i a j) = ∑ j ∈ s.erase i, f (g j) :=
    Finset.sum_congr rfl fun j hj => by rw [Function.update_of_ne (Finset.ne_of_mem_erase hj)]
  rw [← Finset.add_sum_erase _ _ hi, ← Finset.add_sum_erase _ (fun j => f (g j)) hi, hrest, Function.update_self]
  omega

omit [DecidableEq ι] in
theorem le_sum (f : α → Nat) (hi : i ∈ s) : f (g i) ≤ ∑ j ∈ s, f (g j) :=
  Finset.single_le_sum (f := fun j => f (g j)) (fun _ _ => Nat.zero_le _) hi

/-!
# Stable sorting by bottom-up merging

A total preorder is a boolean relation. Two elements tie when each is below the other, and a rearrangement of
a list is stable when it leaves the elements that tie with any given one in the order they had.
-/

open List

variable {α : Type*}

structure TotalPreorder (le : α → α → Bool) : Prop where
  trans : ∀ a b c, le a b = true → le b c = true → le a c = true
  total : ∀ a b, le a b = true ∨ le b a = true

def ties (le : α → α → Bool) (a b : α) : Bool := le a b && le b a

/-- A rearrangement of `l` that keeps ties in order. -/
structure StableTo (le : α → α → Bool) (l l' : List α) : Prop where
  perm : l'.Perm l
  stable : ∀ a, l'.filter (ties le a) = l.filter (ties le a)

variable {le : α → α → Bool} {l l' l₁ l₂ m₁ m₂ : List α} {w : Nat}

theorem StableTo.refl (le : α → α → Bool) (l : List α) : StableTo le l l := ⟨.refl l, fun _ => rfl⟩

theorem StableTo.trans {l'' : List α} (h : StableTo le l l') (h' : StableTo le l' l'') : StableTo le l l'' :=
  ⟨h'.perm.trans h.perm, fun a => (h'.stable a).trans (h.stable a)⟩

theorem StableTo.append (h₁ : StableTo le l₁ m₁) (h₂ : StableTo le l₂ m₂) : StableTo le (l₁ ++ l₂) (m₁ ++ m₂) :=
  ⟨h₁.perm.append h₂.perm, fun a => by rw [filter_append, filter_append, h₁.stable, h₂.stable]⟩

/-! ## One merge -/

/-- What goes out before a waiting element of the first list is strictly below it. -/
theorem filter_ties_merge (h : TotalPreorder le) (a : α) (xs ys : List α) (hxs : xs.Pairwise (le · ·)) :
    (List.merge xs ys le).filter (ties le a) = xs.filter (ties le a) ++ ys.filter (ties le a) := by
  induction xs generalizing ys with
  | nil => simp
  | cons x xs ihx =>
    induction ys with
    | nil => simp
    | cons y ys ihy =>
      obtain ⟨hx, hxs'⟩ := pairwise_cons.mp hxs
      cases hle : le x y with
      | true =>
        rw [cons_merge_cons_pos le xs ys hle]
        by_cases htie : ties le a x = true
        · rw [filter_cons_of_pos htie, ihx _ hxs', filter_cons_of_pos htie]
          rfl
        · rw [filter_cons_of_neg htie, ihx _ hxs', filter_cons_of_neg htie]
      | false =>
        rw [cons_merge_cons_neg le xs ys (by simp [hle])]
        by_cases htie : ties le a y = true
        · -- An element that ties with `y` as well would put `x` below `y`.
          have hnone : (x :: xs).filter (ties le a) = [] := by
            rw [filter_eq_nil_iff]
            intro z hz htz
            simp only [ties, Bool.and_eq_true] at htie htz
            have hzy := h.trans z a y htz.2 htie.1
            rcases mem_cons.mp hz with rfl | hz
            · simp [hle] at hzy
            · have hxy := h.trans x z y (hx z hz) hzy
              simp [hle] at hxy
          rw [filter_cons_of_pos htie, ihy, hnone, filter_cons_of_pos htie]
          rfl
        · rw [filter_cons_of_neg htie, ihy, filter_cons_of_neg htie]

theorem StableTo.merge (h : TotalPreorder le) (hl₁ : l₁.Pairwise (le · ·)) :
    StableTo le (l₁ ++ l₂) (List.merge l₁ l₂ le) :=
  ⟨merge_perm_append le, fun a => by rw [filter_ties_merge h a l₁ l₂ hl₁, filter_append]⟩

/-! ## Runs -/

def Runs (le : α → α → Bool) (w : Nat) (l : List α) : Prop := ∀ c, ((l.drop (c * w)).take w).Pairwise (le · ·)

theorem Runs.first (h : Runs le w l) : (l.take w).Pairwise (le · ·) := by
  have h0 := h 0
  rwa [Nat.zero_mul, drop_zero] at h0

theorem Runs.drop (h : Runs le w l) : Runs le w (l.drop w) := by
  intro c
  have hc := h (c + 1)
  rwa [Nat.succ_mul, Nat.add_comm, ← drop_drop] at hc

theorem Runs.cons {run rest : List α} (hrun : run.Pairwise (le · ·)) (hrest : Runs le w rest)
    (hlen : run.length = w ∨ run.length ≤ w ∧ rest = []) : Runs le w (run ++ rest) := by
  rcases hlen with hlen | ⟨hlen, rfl⟩
  · intro c
    cases c with
    | zero => rwa [Nat.zero_mul, drop_zero, take_left' hlen]
    | succ c =>
      rw [Nat.succ_mul, Nat.add_comm, ← drop_drop, drop_left' hlen]
      exact hrest c
  · intro c
    rw [append_nil]
    exact hrun.sublist ((take_sublist _ _).trans (drop_sublist _ _))

theorem runs_one (le : α → α → Bool) (l : List α) : Runs le 1 l := by
  intro c
  rw [Nat.mul_one]
  cases hd : l.drop c with
  | nil => simp
  | cons x xs => simp

theorem Runs.sorted (h : Runs le w l) (hlen : l.length ≤ w) : l.Pairwise (le · ·) := by
  have hfirst := h.first
  rwa [take_of_length_le hlen] at hfirst

/-! ## Passes -/

/-- One pass: the runs of `w` merged in pairs, the last one alone left as it is. -/
def mergePairs (le : α → α → Bool) (w : Nat) (hw : 0 < w) (l : List α) : List α :=
  if w < l.length then
    List.merge (l.take w) ((l.drop w).take w) le ++ mergePairs le w hw ((l.drop w).drop w)
  else l
termination_by l.length
decreasing_by rw [length_drop, length_drop]; omega

theorem mergePairs_stable (h : TotalPreorder le) (hw : 0 < w) (l : List α) (hruns : Runs le w l) :
    StableTo le l (mergePairs le w hw l) := by
  rw [mergePairs]
  split
  · have hrest := mergePairs_stable h hw ((l.drop w).drop w) hruns.drop.drop
    have hmerge : StableTo le (l.take w ++ (l.drop w).take w) _ := .merge h hruns.first
    have hall := hmerge.append hrest
    rwa [append_assoc, take_append_drop, take_append_drop] at hall
  · exact .refl le l
termination_by l.length
decreasing_by rw [length_drop, length_drop]; omega

theorem Runs.mergePairs (h : TotalPreorder le) (hw : 0 < w) (l : List α) (hruns : Runs le w l) :
    Runs le (w * 2) (mergePairs le w hw l) := by
  rw [Lib.mergePairs]
  split
  · have hrest := Runs.mergePairs h hw ((l.drop w).drop w) hruns.drop.drop
    refine Runs.cons (pairwise_merge h.trans (fun a b => by simpa using h.total a b) _ _ hruns.first hruns.drop.first) hrest ?_
    rw [length_merge, length_take, length_take, length_drop]
    by_cases hlen : w * 2 ≤ l.length
    · exact .inl (by omega)
    · refine .inr ⟨by omega, ?_⟩
      have hnil : (l.drop w).drop w = [] := drop_eq_nil_of_le (by rw [length_drop]; omega)
      rw [hnil, Lib.mergePairs, if_neg (by simp)]
  · -- One run is left, so the list is that run.
    have hsorted := hruns.sorted (by omega)
    intro c
    exact hsorted.sublist ((take_sublist _ _).trans (drop_sublist _ _))
termination_by l.length
decreasing_by rw [length_drop, length_drop]; omega

/-- Passes with runs of `w`, `2 * w` and so on, while they are shorter than the list. -/
def mergeAll (le : α → α → Bool) (length w : Nat) (hw : 0 < w) (l : List α) : List α :=
  if w < length then mergeAll le length (w * 2) (Nat.mul_pos hw Nat.two_pos) (mergePairs le w hw l) else l
termination_by length - w

theorem mergeAll_spec (h : TotalPreorder le) (length : Nat) {w : Nat} (hw : 0 < w) (l : List α) (hlen : l.length ≤ length)
    (hruns : Runs le w l) :
    StableTo le l (mergeAll le length w hw l) ∧ (mergeAll le length w hw l).Pairwise (le · ·) := by
  rw [mergeAll]
  split
  · have hpass := mergePairs_stable h hw l hruns
    obtain ⟨hstable, hsorted⟩ := mergeAll_spec h length (Nat.mul_pos hw Nat.two_pos) (Lib.mergePairs le w hw l)
      (by rwa [hpass.perm.length_eq]) (hruns.mergePairs h hw l)
    exact ⟨hpass.trans hstable, hsorted⟩
  · exact ⟨.refl le l, hruns.sorted (by omega)⟩
termination_by length - w

end Ccollections.Lib
