import Mathlib.Data.Int.Init
import Mathlib.Data.Nat.Basic
import Mathlib.Order.Lattice

/-!
# Three-way comparisons

A comparison function whose sign is a total order, and the two ways such functions are built: the difference of two
tests on a linear order, and the lexicographic comparison of lists.
-/

namespace Ccollections.Lib

structure ThreeWay {α : Type} (cmp : α → α → Int) : Prop where
  swap : ∀ a b, (cmp b a).sign = -(cmp a b).sign
  trans : ∀ a b c, cmp a b ≤ 0 → cmp b c ≤ 0 → cmp a c ≤ 0
  eq_zero : ∀ a b, cmp a b = 0 ↔ a = b

def signCompare {α : Type} [LinearOrder α] (a b : α) : Int := (if a > b then 1 else 0) - (if a < b then 1 else 0)

section

variable {α : Type} [LinearOrder α]

theorem signCompare_cases (a b : α) :
    (a < b ∧ signCompare a b = -1) ∨ (a = b ∧ signCompare a b = 0) ∨ (b < a ∧ signCompare a b = 1) := by
  rcases lt_trichotomy a b with h | h | h
  · exact .inl ⟨h, by simp [signCompare, h, not_lt_of_gt h]⟩
  · exact .inr (.inl ⟨h, by simp [signCompare, h]⟩)
  · exact .inr (.inr ⟨h, by simp [signCompare, h, not_lt_of_gt h]⟩)

theorem signCompare_lt {a b : α} : signCompare a b < 0 ↔ a < b := by
  rcases signCompare_cases a b with ⟨h, he⟩ | ⟨rfl, he⟩ | ⟨h, he⟩
  · simp [he, h]
  · simp [he]
  · simp [he, le_of_lt h]

theorem signCompare_eq {a b : α} : signCompare a b = 0 ↔ a = b := by
  rcases signCompare_cases a b with ⟨h, he⟩ | ⟨rfl, he⟩ | ⟨h, he⟩
  · simp [he, ne_of_lt h]
  · simp [he]
  · simp [he, ne_of_gt h]

theorem signCompare_swap (a b : α) : signCompare b a = -signCompare a b := by
  unfold signCompare
  exact (Int.neg_sub _ _).symm

theorem signCompare_sign (a b : α) : (signCompare a b).sign = signCompare a b := by
  rcases signCompare_cases a b with ⟨-, he⟩ | ⟨-, he⟩ | ⟨-, he⟩
  · rw [he]; rfl
  · rw [he]; rfl
  · rw [he]; rfl

theorem signCompare_threeWay : ThreeWay (signCompare (α := α)) where
  swap a b := by rw [signCompare_swap, Int.sign_neg]
  trans a b c hab hbc := by
    have hba : ¬ b < a := mt (fun h => signCompare_lt.mpr h) (by have := signCompare_swap a b; omega)
    have hcb : ¬ c < b := mt (fun h => signCompare_lt.mpr h) (by have := signCompare_swap b c; omega)
    have hca : ¬ c < a := not_lt_of_ge (le_trans (le_of_not_gt hba) (le_of_not_gt hcb))
    have := mt signCompare_lt.mp hca
    rw [signCompare_swap] at this
    omega
  eq_zero _ _ := signCompare_eq

/-- Lists compared at the first place where they differ, a list before its extensions. -/
def lexCompare : List α → List α → Int
  | [], [] => 0
  | [], _ :: _ => -1
  | _ :: _, [] => 1
  | a :: as, b :: bs => if a = b then lexCompare as bs else signCompare a b

section

variable (a b : α) (as bs : List α)

@[simp] theorem lexCompare_nil_nil : lexCompare ([] : List α) [] = 0 := rfl

@[simp] theorem lexCompare_nil_cons : lexCompare [] (b :: bs) = -1 := rfl

@[simp] theorem lexCompare_cons_nil : lexCompare (a :: as) [] = 1 := rfl

theorem lexCompare_cons_cons : lexCompare (a :: as) (b :: bs) = if a = b then lexCompare as bs else signCompare a b := rfl

end

theorem lexCompare_sign (as bs : List α) : (lexCompare as bs).sign = lexCompare as bs := by
  induction as generalizing bs with
  | nil => cases bs <;> rfl
  | cons a as ih =>
    cases bs with
    | nil => rfl
    | cons b bs =>
      rw [lexCompare_cons_cons]
      split
      · exact ih bs
      · exact signCompare_sign a b

theorem lexCompare_append {as bs : List α} (h : as.length = bs.length) (cs ds : List α) :
    lexCompare (as ++ cs) (bs ++ ds) = if lexCompare as bs = 0 then lexCompare cs ds else lexCompare as bs := by
  induction as generalizing bs with
  | nil => simp [List.length_eq_zero_iff.mp h.symm]
  | cons a as ih =>
    cases bs with
    | nil => cases h
    | cons b bs =>
      rw [List.cons_append, List.cons_append, lexCompare_cons_cons, lexCompare_cons_cons]
      by_cases hab : a = b
      · rw [if_pos hab, if_pos hab]
        exact ih (Nat.succ.inj h)
      · rw [if_neg hab, if_neg hab, if_neg (mt signCompare_eq.mp hab)]

theorem lexCompare_nil_left (bs : List α) : lexCompare [] bs = signCompare 0 bs.length := by
  cases bs with
  | nil => rfl
  | cons b bs => simp [signCompare]

theorem lexCompare_nil_right (as : List α) : lexCompare as [] = signCompare as.length 0 := by
  cases as with
  | nil => rfl
  | cons a as => simp [signCompare]

theorem lexCompare_swap (as bs : List α) : lexCompare bs as = -lexCompare as bs := by
  induction as generalizing bs with
  | nil => cases bs <;> rfl
  | cons a as ih =>
    cases bs with
    | nil => rfl
    | cons b bs =>
      rw [lexCompare_cons_cons, lexCompare_cons_cons]
      by_cases h : a = b
      · rw [if_pos h, if_pos h.symm, ih]
      · rw [if_neg h, if_neg (Ne.symm h), signCompare_swap]

theorem lexCompare_eq_zero (as bs : List α) : lexCompare as bs = 0 ↔ as = bs := by
  induction as generalizing bs with
  | nil => cases bs <;> simp
  | cons a as ih =>
    cases bs with
    | nil => simp
    | cons b bs =>
      rw [lexCompare_cons_cons, List.cons.injEq]
      by_cases h : a = b
      · rw [if_pos h, ih]
        exact (and_iff_right h).symm
      · rw [if_neg h, signCompare_eq]
        exact ⟨fun he => absurd he h, fun he => absurd he.1 h⟩

theorem lexCompare_trans (as bs cs : List α) (hab : lexCompare as bs ≤ 0) (hbc : lexCompare bs cs ≤ 0) :
    lexCompare as cs ≤ 0 := by
  induction as generalizing bs cs with
  | nil => cases cs <;> simp
  | cons a as ih =>
    cases bs with
    | nil => simp at hab
    | cons b bs =>
      cases cs with
      | nil => simp at hbc
      | cons c cs =>
        rw [lexCompare_cons_cons] at hab hbc ⊢
        -- The first elements decide, unless all three are the same.
        by_cases h₁ : a = b
        · subst h₁
          rw [if_pos rfl] at hab
          by_cases h₂ : a = c
          · rw [if_pos h₂] at hbc ⊢
            exact ih bs cs hab hbc
          · rwa [if_neg h₂] at hbc ⊢
        · rw [if_neg h₁] at hab
          have hne := mt signCompare_eq.mp h₁
          have hlt : a < b := signCompare_lt.mp (by omega)
          by_cases h₂ : b = c
          · subst h₂
            rw [if_neg h₁]
            exact hab
          · rw [if_neg h₂] at hbc
            have hne' := mt signCompare_eq.mp h₂
            have hac : a < c := lt_trans hlt (signCompare_lt.mp (by omega))
            have hneg := signCompare_lt.mpr hac
            rw [if_neg (ne_of_lt hac)]
            omega

theorem lexCompare_threeWay : ThreeWay (lexCompare (α := α)) where
  swap as bs := by rw [lexCompare_swap, Int.sign_neg]
  trans := lexCompare_trans
  eq_zero := lexCompare_eq_zero

end

end Ccollections.Lib
