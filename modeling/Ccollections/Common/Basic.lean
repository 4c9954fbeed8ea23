import Mathlib.Algebra.Order.Ring.Nat
import Mathlib.Data.List.Basic
import Mathlib.Data.Nat.Log
import Mathlib.Tactic.Ring

/-!
# Sizes and return codes shared by the containers

`size_t` is 64 bits wide, as on the LP64 targets of the library.
-/

namespace Ccollections

def sizeMax : Nat := 2 ^ 64 - 1

/-- `ccol_invalid_size`, the largest `size_t`. -/
def ccolInvalidSize : Nat := sizeMax

def ccolMaxPowerOfTwoSizeT : Nat := 2 ^ 63

def ccolMaxElemCount : Nat := ccolMaxPowerOfTwoSizeT

/-! ## `size_t` arithmetic, which wraps -/

def sizeAdd (a b : Nat) : Nat := (a + b) % 2 ^ 64

def sizeSub (a b : Nat) : Nat := (a + 2 ^ 64 - b) % 2 ^ 64

def sizeMul (a b : Nat) : Nat := a * b % 2 ^ 64

/-- The codes of `ccol_retval_t` that the container operations return. -/
inductive RetVal where
  | unexpectedFailure
  | msgTooLarge
  | containerEmpty
  | containerFull
  | timedOut
  | notPermitted
  | invalidArgs
  | keyNotFound
  | keyAlreadyPresent
  | notEnoughMemory
  | success
  deriving DecidableEq, Repr

/-- `_ccol_find_nearest_gte_power_of_two`: the bit length of `input - 1` is the exponent. -/
def ccolFindNearestGtePowerOfTwo (input : Nat) : Nat :=
  if input ≤ 1 then 1
  else
    let bits := Nat.log2 (input - 1) + 1
    if bits ≥ 64 then ccolInvalidSize else 2 ^ bits

theorem sizeMax_eq : sizeMax = 18446744073709551615 := by decide

theorem ccolMaxElemCount_eq : ccolMaxElemCount = 9223372036854775808 := by decide

theorem sizeAdd_eq {a b : Nat} (h : a + b ≤ sizeMax) : sizeAdd a b = a + b := by
  rw [sizeMax_eq] at h
  exact Nat.mod_eq_of_lt (by omega)

theorem sizeSub_eq {a b : Nat} (h : b ≤ a) (ha : a ≤ sizeMax) : sizeSub a b = a - b := by
  rw [sizeMax_eq] at ha
  simp only [sizeSub]
  omega

theorem sizeMul_eq {a b : Nat} (h : a * b ≤ sizeMax) : sizeMul a b = a * b := by
  rw [sizeMax_eq] at h
  exact Nat.mod_eq_of_lt (by omega)

theorem sizeAdd_lt_iff {a b : Nat} (ha : a ≤ sizeMax) (hb : b ≤ sizeMax) : sizeAdd a b < a ↔ sizeMax < a + b := by
  rw [sizeMax_eq] at *
  unfold sizeAdd
  omega

theorem ccolFindNearestGtePowerOfTwo_spec {n : Nat} (h : n ≤ ccolMaxElemCount) :
    ∃ k, k ≤ 63 ∧ ccolFindNearestGtePowerOfTwo n = 2 ^ k ∧ n ≤ 2 ^ k ∧ (1 < n → 2 ^ k < 2 * n) := by
  unfold ccolFindNearestGtePowerOfTwo
  by_cases h1 : n ≤ 1
  · exact ⟨0, by omega, by simp [h1], by omega, by omega⟩
  · have hne : n - 1 ≠ 0 := by omega
    have hlt : n - 1 < 2 ^ (Nat.log2 (n - 1) + 1) := Nat.lt_log2_self
    have hle : 2 ^ Nat.log2 (n - 1) ≤ n - 1 := Nat.log2_self_le hne
    have hb : Nat.log2 (n - 1) < 63 := by
      rw [Nat.log2_lt hne]
      rw [ccolMaxElemCount_eq] at h
      omega
    refine ⟨Nat.log2 (n - 1) + 1, by omega, ?_, by omega, fun _ => ?_⟩
    · simp only [h1, ↓reduceIte, ge_iff_le, ite_eq_right_iff]
      omega
    · rw [pow_succ]
      omega

theorem ccolFindNearestGtePowerOfTwo_invalid {n : Nat} (h : ccolMaxElemCount < n) :
    ccolFindNearestGtePowerOfTwo n = ccolInvalidSize := by
  rw [ccolMaxElemCount_eq] at h
  have hne : n - 1 ≠ 0 := by omega
  have hb : 63 ≤ Nat.log2 (n - 1) := by
    rw [Nat.le_log2 hne]
    omega
  unfold ccolFindNearestGtePowerOfTwo
  rw [if_neg (by omega), if_pos (by omega)]

/-!
# ASCII text, independent of the locale
-/

def ascii (s : String) : List UInt8 := s.toList.map fun c => c.toNat.toUInt8

def ccolAsciiTolower (c : UInt8) : UInt8 := if c ≥ 0x41 && c ≤ 0x5A then c + 0x20 else c

/-- `ccol_ascii_ncasecmp(a, b, n) == 0` for two texts of `n` bytes. -/
def asciiCaseEq (a b : List UInt8) : Bool := a.map ccolAsciiTolower = b.map ccolAsciiTolower

end Ccollections
