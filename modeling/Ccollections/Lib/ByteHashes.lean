import Mathlib.Data.Nat.Digits.Lemmas
import Mathlib.Logic.Function.Iterate

/-!
# Little-endian words, and two hashes of byte strings

SipHash-c-d and XXH64 are what their specifications say on the bytes of a message.
-/

namespace Ccollections.Lib

open List

variable {s t : List UInt8}

/-! ## Little-endian words -/

def leNat (s : List UInt8) : Nat := Nat.ofDigits 256 (s.map UInt8.toNat)

def leWord (s : List UInt8) : UInt64 := .ofNat (leNat s)

/-- The whole words of a message. The bytes after the last of them are left out. -/
def leWords : List UInt8 → List UInt64
  | b0 :: b1 :: b2 :: b3 :: b4 :: b5 :: b6 :: b7 :: s => leWord [b0, b1, b2, b3, b4, b5, b6, b7] :: leWords s
  | _ => []

theorem leNat_lt (s : List UInt8) : leNat s < 2 ^ (8 * s.length) := by
  have h : Nat.ofDigits 256 (s.map UInt8.toNat) < 256 ^ (s.map UInt8.toNat).length := by
    refine Nat.ofDigits_lt_base_pow_length (by decide) fun d hd => ?_
    obtain ⟨b, -, rfl⟩ := mem_map.mp hd
    exact b.toNat_lt
  rwa [length_map, show 256 = 2 ^ 8 from rfl, ← Nat.pow_mul] at h

theorem leNat_append (s t : List UInt8) : leNat (s ++ t) = leNat s ||| leNat t <<< (8 * s.length) := by
  rw [Nat.or_comm, ← Nat.shiftLeft_add_eq_or_of_lt (leNat_lt s), leNat, map_append, Nat.ofDigits_append,
    length_map, Nat.shiftLeft_eq, Nat.pow_mul, Nat.add_comm, Nat.mul_comm]
  rfl

theorem leNat_cons (b : UInt8) (s : List UInt8) : leNat (b :: s) = b.toNat ||| leNat s <<< 8 := by
  have h := leNat_append [b] s
  simpa [leNat] using h

/-- Two parts that cover a byte sequence make it up, also where they overlap. -/
theorem leNat_overlap {k m : Nat} (h : k ≤ m) : leNat (s.take m) ||| leNat (s.drop k) <<< (8 * k) = leNat s := by
  induction k generalizing m s with
  | zero =>
    have hsplit := leNat_append (s.take m) (s.drop m)
    rw [take_append_drop] at hsplit
    rw [drop_zero, Nat.mul_zero, Nat.shiftLeft_zero, hsplit, ← Nat.or_assoc, Nat.or_self]
  | succ k ih =>
    obtain ⟨m, rfl⟩ : ∃ m', m = m' + 1 := ⟨m - 1, by omega⟩
    cases s with
    | nil => simp [leNat]
    | cons b s =>
      have hrest := ih (s := s) (Nat.le_of_succ_le_succ h)
      rw [take_succ_cons, drop_succ_cons, leNat_cons, leNat_cons, ← hrest, Nat.shiftLeft_or_distrib, Nat.or_assoc,
        ← Nat.shiftLeft_add]
      rfl

theorem toNat_leWord (h : s.length ≤ 8) : (leWord s).toNat = leNat s := by
  have hlt : leNat s < 2 ^ 64 := (leNat_lt s).trans_le (Nat.pow_le_pow_right (by decide) (by omega))
  rw [leWord, UInt64.toNat_ofNat', Nat.mod_eq_of_lt hlt]

theorem toNat_leWord_shiftLeft {k : Nat} (hk : k < 8) (h : k + s.length ≤ 8) :
    (leWord s <<< UInt64.ofNat (8 * k)).toNat = leNat s <<< (8 * k) := by
  have hlt : leNat s <<< (8 * k) < 2 ^ 64 := by
    rw [Nat.shiftLeft_eq]
    calc leNat s * 2 ^ (8 * k) < 2 ^ (8 * s.length) * 2 ^ (8 * k) := Nat.mul_lt_mul_of_pos_right (leNat_lt s) (Nat.two_pow_pos _)
      _ = 2 ^ (8 * s.length + 8 * k) := (Nat.pow_add ..).symm
      _ ≤ 2 ^ 64 := Nat.pow_le_pow_right (by decide) (by omega)
  rw [UInt64.toNat_shiftLeft, toNat_leWord (by omega), UInt64.toNat_ofNat']
  rw [Nat.mod_eq_of_lt (a := 8 * k) (by omega), Nat.mod_eq_of_lt (a := 8 * k) (by omega), Nat.mod_eq_of_lt hlt]

theorem leWord_overlap {k m : Nat} (hk : k < 8) (hkm : k ≤ m) (h : s.length ≤ 8) :
    leWord (s.take m) ||| leWord (s.drop k) <<< UInt64.ofNat (8 * k) = leWord s := by
  rw [← UInt64.toNat_inj, UInt64.toNat_or, toNat_leWord (by rw [length_take]; omega), toNat_leWord h,
    toNat_leWord_shiftLeft hk (by rw [length_drop]; omega), leNat_overlap hkm]

theorem leWords_of_le (h : 8 ≤ s.length) : leWords s = leWord (s.take 8) :: leWords (s.drop 8) := by
  match s, h with
  | b0 :: b1 :: b2 :: b3 :: b4 :: b5 :: b6 :: b7 :: s, _ => rfl

theorem leWords_of_lt (h : s.length < 8) : leWords s = [] := by
  rw [leWords]
  rintro b0 b1 b2 b3 b4 b5 b6 b7 t rfl
  simp at h
  omega

theorem leWords_one (h : s.length = 8) : leWords s = [leWord s] := by
  rw [leWords_of_le (Nat.le_of_eq h.symm), take_of_length_le (Nat.le_of_eq h), drop_of_length_le (Nat.le_of_eq h)]
  rfl

theorem length_leWords (s : List UInt8) : (leWords s).length = s.length / 8 := by
  induction hn : s.length using Nat.strongRecOn generalizing s with
  | ind n ih =>
    subst hn
    by_cases hle : 8 ≤ s.length
    · rw [leWords_of_le hle, length_cons, ih _ (by rw [length_drop]; omega) _ rfl, length_drop]
      omega
    · rw [leWords_of_lt (by omega), Nat.div_eq_of_lt (by omega)]
      rfl

/-- What is left after the whole words of a message goes on in the next word. -/
theorem leWords_append (s t : List UInt8) :
    leWords (s ++ t) = leWords s ++ leWords (s.drop (8 * (s.length / 8)) ++ t) := by
  fun_induction leWords s with
  | case1 b0 b1 b2 b3 b4 b5 b6 b7 s ih =>
    have hdrop : (b0 :: b1 :: b2 :: b3 :: b4 :: b5 :: b6 :: b7 :: s).drop (8 * ((s.length + 8) / 8)) = s.drop (8 * (s.length / 8)) := by
      rw [Nat.add_div_right _ (by decide), Nat.mul_succ]
      rfl
    simp only [cons_append, leWords, length_cons, ih]
    rw [hdrop]
  | case2 s h =>
    have hlt : s.length < 8 := by
      by_contra hle
      match s, Nat.le_of_not_lt hle with
      | b0 :: b1 :: b2 :: b3 :: b4 :: b5 :: b6 :: b7 :: s, _ => exact h b0 b1 b2 b3 b4 b5 b6 b7 s rfl
    rw [Nat.div_eq_of_lt hlt]
    rfl

/-! ## SipHash -/

structure SipState where
  v0 : UInt64
  v1 : UInt64
  v2 : UInt64
  v3 : UInt64

def rotl (x : UInt64) (n : Nat) : UInt64 := ⟨x.toBitVec.rotateLeft n⟩

/-- Half of a round: two additions, and the rotations of the words they change. -/
def sipHalfRound (a b : Nat) (v : SipState) : SipState :=
  ⟨rotl (v.v0 + v.v1) 32, rotl v.v1 a ^^^ (v.v0 + v.v1), v.v2 + v.v3, rotl v.v3 b ^^^ (v.v2 + v.v3)⟩

/-- The state with its even words exchanged. -/
def SipState.swap (v : SipState) : SipState := ⟨v.v2, v.v1, v.v0, v.v3⟩

def sipRound (v : SipState) : SipState := (sipHalfRound 17 21 (sipHalfRound 13 16 v).swap).swap

/-- The state of a 128-bit key, from the bytes of `somepseudorandomlygeneratedbytes`. -/
def sipInit (k0 k1 : UInt64) : SipState :=
  ⟨k0 ^^^ 0x736F6D6570736575, k1 ^^^ 0x646F72616E646F6D, k0 ^^^ 0x6C7967656E657261, k1 ^^^ 0x7465646279746573⟩

def sipAbsorb (c : Nat) (v : SipState) (m : UInt64) : SipState :=
  let v := sipRound^[c] { v with v3 := v.v3 ^^^ m }
  { v with v0 := v.v0 ^^^ m }

/-- The message, zero bytes, and as the last byte of the last word its length modulo 256. -/
def sipPadded (m : List UInt8) : List UInt8 := m ++ (List.replicate (7 - m.length % 8) 0 ++ [.ofNat m.length])

/-- SipHash with `c` rounds for each word and `d` at the end. -/
def sipHash (c d : Nat) (k0 k1 : UInt64) (m : List UInt8) : UInt64 :=
  let v := (leWords (sipPadded m)).foldl (sipAbsorb c) (sipInit k0 k1)
  let v := sipRound^[d] { v with v2 := v.v2 ^^^ 0xFF }
  v.v0 ^^^ v.v1 ^^^ v.v2 ^^^ v.v3

/-- The last word of a padded message holds the bytes after the last whole word, and the length. -/
theorem leWords_sipPadded (m : List UInt8) :
    leWords (sipPadded m) = leWords m ++ [UInt64.ofNat m.length <<< 56 ||| leWord (m.drop (8 * (m.length / 8)))] := by
  rw [sipPadded, leWords_append]
  generalize htail : m.drop (8 * (m.length / 8)) = tail
  have hlen : tail.length = m.length % 8 := by
    rw [← htail, length_drop]
    omega
  have hzeros : leNat (tail ++ List.replicate (7 - m.length % 8) 0) = leNat tail := by
    have hzero : ∀ n, leNat (List.replicate n 0) = 0 := by
      intro n
      induction n with
      | zero => rfl
      | succ n ih => simp [replicate_succ, leNat_cons, ih]
    rw [leNat_append, hzero, Nat.zero_shiftLeft, Nat.or_zero]
  have hseven : (tail ++ List.replicate (7 - m.length % 8) 0).length = 7 := by
    rw [length_append, length_replicate]
    omega
  have hlast : leWord [UInt8.ofNat m.length] <<< UInt64.ofNat (8 * 7) = UInt64.ofNat m.length <<< 56 := by
    rw [← UInt64.toNat_inj, toNat_leWord_shiftLeft (by decide) (by simp)]
    simp [leNat, Nat.shiftLeft_eq]
    omega
  rw [← append_assoc]
  generalize htail : tail ++ List.replicate (7 - m.length % 8) 0 = head at hzeros hseven
  have hword := leWord_overlap (s := head ++ [UInt8.ofNat m.length]) (k := 7) (m := 7) (by decide) (Nat.le_refl 7) (by simp [hseven])
  rw [take_left' hseven, drop_left' hseven, hlast, UInt64.or_comm, leWord, hzeros] at hword
  rw [leWords_one (s := head ++ [UInt8.ofNat m.length]) (by simp [hseven]), ← hword]
  rfl

/-! ## XXH64 -/

def xxhPrime1 : UInt64 := 11400714785074694791
def xxhPrime2 : UInt64 := 14029467366897019727
def xxhPrime3 : UInt64 := 1609587929392839161
def xxhPrime4 : UInt64 := 9650029242287828579
def xxhPrime5 : UInt64 := 2870177450012600261

structure XxhLanes where
  v1 : UInt64
  v2 : UInt64
  v3 : UInt64
  v4 : UInt64

def xxh64Round (acc lane : UInt64) : UInt64 := rotl (acc + lane * xxhPrime2) 31 * xxhPrime1

def xxh64Stripes : XxhLanes → List UInt64 → XxhLanes
  | v, w1 :: w2 :: w3 :: w4 :: ws =>
    xxh64Stripes ⟨xxh64Round v.v1 w1, xxh64Round v.v2 w2, xxh64Round v.v3 w3, xxh64Round v.v4 w4⟩ ws
  | v, _ => v

theorem xxh64Stripes_of_lt {ws : List UInt64} (h : ws.length < 4) (v : XxhLanes) : xxh64Stripes v ws = v := by
  rw [xxh64Stripes]
  rintro w1 w2 w3 w4 ws rfl
  simp at h
  omega

def xxh64Merge (acc lane : UInt64) : UInt64 := (acc ^^^ xxh64Round 0 lane) * xxhPrime1 + xxhPrime4

def xxh64Converge (v : XxhLanes) : UInt64 :=
  [v.v1, v.v2, v.v3, v.v4].foldl xxh64Merge (rotl v.v1 1 + rotl v.v2 7 + rotl v.v3 12 + rotl v.v4 18)

def xxh64Word (acc lane : UInt64) : UInt64 := rotl (acc ^^^ xxh64Round 0 lane) 27 * xxhPrime1 + xxhPrime4

def xxh64HalfWord (acc lane : UInt64) : UInt64 := rotl (acc ^^^ lane * xxhPrime1) 23 * xxhPrime2 + xxhPrime3

def xxh64Byte (acc : UInt64) (b : UInt8) : UInt64 := rotl (acc ^^^ b.toUInt64 * xxhPrime5) 11 * xxhPrime1

def xxh64Avalanche (acc : UInt64) : UInt64 :=
  let acc := (acc ^^^ acc >>> 33) * xxhPrime2
  let acc := (acc ^^^ acc >>> 29) * xxhPrime3
  acc ^^^ acc >>> 32

/-- What the bytes after the last stripe add: whole words, half a word, and single bytes. -/
def xxh64Rest (acc : UInt64) (s : List UInt8) : UInt64 :=
  let acc := (leWords s).foldl xxh64Word acc
  let s := s.drop (8 * (s.length / 8))
  if 4 ≤ s.length then (s.drop 4).foldl xxh64Byte (xxh64HalfWord acc (leWord (s.take 4))) else s.foldl xxh64Byte acc

def xxh64Hash (seed : UInt64) (m : List UInt8) : UInt64 :=
  let acc :=
    if m.length < 32 then seed + xxhPrime5
    else xxh64Converge (xxh64Stripes ⟨seed + xxhPrime1 + xxhPrime2, seed + xxhPrime2, seed, seed - xxhPrime1⟩ (leWords m))
  xxh64Avalanche (xxh64Rest (acc + .ofNat m.length) (m.drop (32 * (m.length / 32))))

end Ccollections.Lib
