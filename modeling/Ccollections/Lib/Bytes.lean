import Mathlib.Logic.Function.Basic

/-!
# Regions of memory, byte by byte

A region is a function from offsets to bytes. Copies are total: a copy reads the source as it was before
the copy, which is what `memmove` does and what `memcpy` does between ranges that do not overlap.
-/

namespace Ccollections.Lib

open List

variable {dst src : Bytes} {xs : List UInt8}

abbrev Bytes := Nat → UInt8

/-- `n` bytes of `src` from `s` on, copied into `dst` from `d` on. -/
def copyBytes (dst : Bytes) (d : Nat) (src : Bytes) (s n : Nat) : Bytes :=
  fun a => if d ≤ a ∧ a < d + n then src (s + (a - d)) else dst a

def window (m : Bytes) (s n : Nat) : List UInt8 :=
  (List.range n).map fun b => m (s + b)

@[simp] theorem window_length (m : Bytes) (s n : Nat) : (window m s n).length = n := by
  simp [window]

theorem window_congr {m m' : Bytes} {s s' n : Nat} (h : ∀ b < n, m (s + b) = m' (s' + b)) :
    window m s n = window m' s' n := by
  apply map_congr_left
  intro b hb
  exact h b (mem_range.mp hb)

theorem window_succ (m : Bytes) (s n : Nat) : window m s (n + 1) = m s :: window m (s + 1) n := by
  simp only [window, range_succ_eq_map, map_cons, map_map, Nat.add_zero]
  congr 1
  apply map_congr_left
  intro b _
  simp only [Function.comp_apply, Nat.succ_eq_add_one]
  congr 1
  omega

theorem window_add (m : Bytes) (s n k : Nat) : window m s (n + k) = window m s n ++ window m (s + n) k := by
  simp only [window, range_add, map_append, map_map]
  congr 1
  apply map_congr_left
  intro b _
  simp only [Function.comp_apply]
  rw [Nat.add_assoc]

/-- The bytes of a list lie in a region from an offset on. -/
def Reads (m : Bytes) (s : Nat) (xs : List UInt8) : Prop := window m s xs.length = xs

theorem reads_nil (m : Bytes) (s : Nat) : Reads m s [] := rfl

theorem reads_append {m : Bytes} {s : Nat} {xs ys : List UInt8} :
    Reads m s (xs ++ ys) ↔ Reads m s xs ∧ Reads m (s + xs.length) ys := by
  unfold Reads
  rw [length_append, window_add]
  constructor
  · intro h
    exact append_inj h (window_length m s _)
  · rintro ⟨hxs, hys⟩
    rw [hxs, hys]

theorem reads_cons {m : Bytes} {s : Nat} {x : UInt8} :
    Reads m s (x :: xs) ↔ m s = x ∧ Reads m (s + 1) xs := by
  unfold Reads
  rw [length_cons, window_succ, List.cons.injEq]

theorem Reads.congr {m m' : Bytes} {s s' : Nat} (hr : Reads m s xs)
    (h : ∀ a < xs.length, m' (s' + a) = m (s + a)) : Reads m' s' xs := (window_congr h).trans hr

theorem reads_drop {bytes : Bytes} {d : Nat} (hr : Reads bytes d xs) {i : Nat} (hi : i ≤ xs.length) :
    Reads bytes (d + i) (xs.drop i) := by
  rw [← take_append_drop i xs] at hr
  have hrest := (reads_append.mp hr).2
  rwa [length_take_of_le hi] at hrest

theorem copyBytes_inside {d s n a : Nat} (h₁ : d ≤ a) (h₂ : a < d + n) :
    copyBytes dst d src s n a = src (s + (a - d)) := by
  simp [copyBytes, h₁, h₂]

theorem copyBytes_outside {d s n a : Nat} (h : a < d ∨ d + n ≤ a) :
    copyBytes dst d src s n a = dst a := by
  unfold copyBytes
  rw [if_neg (by omega)]

theorem copyBytes_congr {dst src src' : Bytes} {d s s' n : Nat}
    (h : ∀ b < n, src (s + b) = src' (s' + b)) :
    copyBytes dst d src s n = copyBytes dst d src' s' n := by
  funext a
  unfold copyBytes
  by_cases ha : d ≤ a ∧ a < d + n
  · rw [if_pos ha, if_pos ha]
    exact h (a - d) (by omega)
  · rw [if_neg ha, if_neg ha]

/-- Writing a range with the bytes it already holds changes nothing. -/
theorem copyBytes_self {d s n : Nat} (h : ∀ b < n, src (s + b) = dst (d + b)) :
    copyBytes dst d src s n = dst := by
  funext a
  unfold copyBytes
  by_cases ha : d ≤ a ∧ a < d + n
  · rw [if_pos ha, h (a - d) (by omega)]
    congr 1
    omega
  · rw [if_neg ha]

theorem copyBytes_append (d s n k : Nat) :
    copyBytes (copyBytes dst d src s n) (d + n) src (s + n) k = copyBytes dst d src s (n + k) := by
  funext a
  unfold copyBytes
  by_cases h₁ : d + n ≤ a ∧ a < d + n + k
  · rw [if_pos h₁, if_pos (by omega)]
    congr 1
    omega
  · rw [if_neg h₁]
    by_cases h₂ : d ≤ a ∧ a < d + n
    · rw [if_pos h₂, if_pos (by omega)]
    · rw [if_neg h₂, if_neg (by omega)]

/-- A copied range reads as the source did, and every range outside it as before. -/
theorem reads_copyBytes {d s : Nat} (hr : Reads src s xs) :
    Reads (copyBytes dst d src s xs.length) d xs :=
  hr.congr fun a ha => by rw [copyBytes_inside (Nat.le_add_right d a) (by omega), Nat.add_sub_cancel_left]

theorem Reads.copyBytes_apart {d s n e : Nat} (hr : Reads dst e xs)
    (h : e + xs.length ≤ d ∨ d + n ≤ e) : Reads (copyBytes dst d src s n) e xs :=
  hr.congr fun a ha => copyBytes_outside (by omega)

theorem copyBytes_zero (dst src : Bytes) (d s : Nat) : copyBytes dst d src s 0 = dst :=
  copyBytes_self (by omega)

end Ccollections.Lib
