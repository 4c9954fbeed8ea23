import Mathlib.Data.Nat.Log
import Mathlib.Order.Monotone.Basic
import Mathlib.Tactic.Linarith
import Mathlib.Tactic.Ring

/-!
# Division by a multiplication and a shift

On words of `w` bits, `mulShift w s m x` keeps the high word of the product `x * m` and shifts it by `s`. For some
divisors and ranges it is `x / d`, when `m` is one more than the quotient of `2 ^ (w + s)` by `d`.
-/

namespace Ccollections.Lib

variable {w s m d x n : Nat}

def mulShift (w s m x : Nat) : Nat := (x * m) >>> w >>> s

def reciprocal (w s d : Nat) : Nat := 2 ^ (w + s) / d + 1

theorem mulShift_eq : mulShift w s m x = x * m / 2 ^ (w + s) := by
  rw [mulShift, Nat.shiftRight_eq_div_pow, Nat.shiftRight_eq_div_pow, Nat.div_div_eq_div_mul, ← pow_add]

theorem mulShift_mono (w s m : Nat) : Monotone (mulShift w s m) := by
  intro x y hxy
  rw [mulShift_eq, mulShift_eq]
  exact Nat.div_le_div_right (Nat.mul_le_mul_right m hxy)

/-- A function that never goes down is the division by `d` when it is at every multiple of `d` and right below it. -/
theorem eq_div_of_agree {f : Nat → Nat} (hmono : Monotone f) (hd : 0 < d) (hat : ∀ i ≤ n, f (i * d) = i)
    (hbelow : ∀ i < n, f ((i + 1) * d - 1) = i) (hx : x < n * d) : f x = x / d := by
  have hlt : x / d < n := Nat.div_lt_of_lt_mul (by rwa [Nat.mul_comm])
  apply Nat.le_antisymm
  · have hle : x ≤ (x / d + 1) * d - 1 := Nat.le_sub_one_of_lt (by
      rw [Nat.mul_comm]
      exact Nat.lt_mul_div_succ x hd)
    calc f x ≤ f ((x / d + 1) * d - 1) := hmono hle
      _ = x / d := hbelow _ hlt
  · calc x / d = f (x / d * d) := (hat _ hlt.le).symm
      _ ≤ f x := hmono (Nat.div_mul_le_self x d)

/-! ## The error of a reciprocal -/

/-- What a reciprocal adds to the exact quotient is at most the divisor. -/
theorem reciprocal_error (hd : 0 < d) : ∃ e, e ≤ d ∧ reciprocal w s d * d = 2 ^ (w + s) + e := by
  have hdiv := Nat.div_add_mod (2 ^ (w + s)) d
  have hmod := Nat.mod_lt (2 ^ (w + s)) hd
  refine ⟨d - 2 ^ (w + s) % d, Nat.sub_le _ _, ?_⟩
  rw [reciprocal, Nat.add_mul, Nat.one_mul, Nat.mul_comm (2 ^ (w + s) / d) d]
  omega

theorem mulShift_eq_div (hd : 0 < d) {e : Nat} (herr : m * d = 2 ^ (w + s) + e) (hx : x * e < 2 ^ (w + s)) :
    mulShift w s m x = x / d := by
  rw [mulShift_eq]
  have hq : d * (x / d) + x % d = x := Nat.div_add_mod x d
  have hr : x % d < d := Nat.mod_lt x hd
  have hexact : x * m * d = x * 2 ^ (w + s) + x * e := by
    rw [Nat.mul_assoc, herr, Nat.mul_add]
  apply Nat.div_eq_of_lt_le
  · have hle : x / d * 2 ^ (w + s) * d ≤ x * m * d := by
      calc x / d * 2 ^ (w + s) * d = d * (x / d) * 2 ^ (w + s) := by ring
        _ ≤ x * 2 ^ (w + s) := Nat.mul_le_mul_right _ (Nat.mul_div_le x d)
        _ ≤ x * m * d := by omega
    exact Nat.le_of_mul_le_mul_right hle hd
  · have hlt : x * m * d < (x / d + 1) * 2 ^ (w + s) * d := by
      calc x * m * d < (x + 1) * 2 ^ (w + s) := by
            rw [hexact, Nat.add_mul, Nat.one_mul]
            omega
        _ ≤ (d * (x / d + 1)) * 2 ^ (w + s) := Nat.mul_le_mul_right _ (Nat.lt_mul_div_succ x hd)
        _ = (x / d + 1) * 2 ^ (w + s) * d := by ring
    exact Nat.lt_of_mul_lt_mul_right hlt

/-- The shift below the bit length of `d - 1` gives a one-word reciprocal for every number below half a word. -/
theorem reciprocal_exists (hd : 2 ≤ d) (hw : d < 2 ^ (w + 1)) :
    ∃ s ≤ w, reciprocal (w + 1) s d < 2 ^ (w + 1) ∧
      ∀ x < 2 ^ w, mulShift (w + 1) s (reciprocal (w + 1) s d) x = x / d := by
  have hne : d - 1 ≠ 0 := by omega
  have hlow : 2 ^ Nat.log2 (d - 1) ≤ d - 1 := Nat.log2_self_le hne
  have hhigh : d - 1 < 2 ^ (Nat.log2 (d - 1) + 1) := Nat.lt_log2_self
  generalize Nat.log2 (d - 1) = s at hlow hhigh
  have hs : s < w + 1 := (Nat.pow_lt_pow_iff_right (by omega)).mp (by omega : 2 ^ s < 2 ^ (w + 1))
  refine ⟨s, by omega, ?_, fun x hx => ?_⟩
  · have hquot : 2 ^ (w + 1 + s) / d < 2 ^ (w + 1) - 1 := by
      rw [Nat.div_lt_iff_lt_mul (by omega)]
      have hstep : 2 ^ (w + 1) * (2 ^ s + 1) ≤ 2 ^ (w + 1) * d := Nat.mul_le_mul_left _ (by omega)
      rw [Nat.mul_add, Nat.mul_one, ← pow_add] at hstep
      rw [Nat.sub_mul, Nat.one_mul]
      omega
    rw [reciprocal]
    omega
  · obtain ⟨e, he, herr⟩ := reciprocal_error (w := w + 1) (s := s) (d := d) (by omega)
    apply mulShift_eq_div (by omega) herr
    have hpow : 2 ^ (w + 1 + s) = 2 ^ w * 2 ^ (s + 1) := by ring
    rw [hpow]
    calc x * e ≤ x * 2 ^ (s + 1) := Nat.mul_le_mul_left x (by omega)
      _ < 2 ^ w * 2 ^ (s + 1) := Nat.mul_lt_mul_of_pos_right hx (by positivity)

end Ccollections.Lib
