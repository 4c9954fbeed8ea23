import Ccollections.Chashmap.ByteHash
import Mathlib.Data.List.TakeDrop

/-!
# The byte hashes are SipHash-1-3 and XXH64
-/

namespace Ccollections.Chashmap

open Lib List Option

variable {input s : List UInt8} {p n : Nat}

/-! ## Loads and rotations -/

theorem load_eq (hs : input.drop p = s) (hpos : 0 < n) (hn : n ≤ s.length) : load input p n = some (leWord (s.take n)) := by
  have hlen : s.length = input.length - p := by rw [← hs, length_drop]
  rw [load, if_pos (by omega), hs]

theorem loadByte_eq {i : Nat} {b : UInt8} {t : List UInt8} (hs : input.drop p = s) (hi : s.drop i = b :: t) :
    loadByte input (p + i) = some b.toUInt64 := by
  rw [loadByte, load_eq (s := b :: t) (by rw [← drop_drop, hs, hi]) Nat.one_pos (by simp)]
  simp [leWord, leNat]

theorem sipRotl_eq {x b : UInt64} (h : 0 < b.toNat ∧ b.toNat < 64) : sipRotl x b = rotl x b.toNat := by
  rw [sipRotl, rotl, ← UInt64.toBitVec_inj, BitVec.rotateLeft_def, UInt64.toBitVec_or, UInt64.toBitVec_shiftLeft,
    UInt64.toBitVec_shiftRight, BitVec.shiftLeft_eq', BitVec.ushiftRight_eq']
  have hb : (b.toBitVec % 64).toNat = b.toNat % 64 := rfl
  have hrest : ((64 - b).toBitVec % 64).toNat = 64 - b.toNat % 64 := by
    have hsub : (64 - b).toNat = 64 - b.toNat := UInt64.toNat_sub_of_le 64 b (UInt64.le_iff_toNat_le.mpr (by simp; omega))
    calc ((64 - b).toBitVec % 64).toNat = (64 - b).toNat % 64 := rfl
      _ = 64 - b.toNat % 64 := by rw [hsub]; omega
  rw [hb, hrest]

/-! ## SipHash-1-3 -/

theorem chmapSipround_eq (v : SipState) : chmapSipround v = sipRound v := by
  simp (disch := decide) only [chmapSipround, sipRotl_eq]
  rfl

theorem sipLoadTail_eq (hs : input.drop p = s) (hlt : s.length < 8) : sipLoadTail input p s.length = some (leWord s) := by
  by_cases hfour : s.length ≥ 4
  · have hlast : (s.drop (s.length - 4)).length = 4 := by
      rw [length_drop]
      omega
    have hdrop : input.drop (p + s.length - 4) = s.drop (s.length - 4) := by
      rw [← hs, drop_drop, Nat.add_sub_assoc (by rw [hs]; exact hfour)]
    rw [sipLoadTail, if_pos hfour, sipLoad32, sipLoad32, load_eq hs (by decide) hfour, load_eq hdrop (by decide) hlast.ge,
      take_of_length_le hlast.le]
    exact congrArg some (leWord_overlap (by omega) (by omega) hlt.le)
  · rw [sipLoadTail, if_neg hfour]
    have hword : ∀ b : UInt8, b.toUInt64 = leWord [b] := fun b => by simp [leWord, leNat]
    rcases s with - | ⟨a, - | ⟨b, - | ⟨c, - | ⟨d, s⟩⟩⟩⟩
    · rfl
    · have ha : loadByte input p = some a.toUInt64 := loadByte_eq (i := 0) hs rfl
      simp [ha, hword]
    · have ha : loadByte input p = some a.toUInt64 := loadByte_eq (i := 0) hs rfl
      have hb : loadByte input (p + 1) = some b.toUInt64 := loadByte_eq (i := 1) hs rfl
      have hover := leWord_overlap (s := [a, b]) (k := 1) (m := 1) (by decide) (by decide) (by simp)
      simp at hover
      simp [ha, hb, hword, UInt64.or_assoc, hover]
    · have ha : loadByte input p = some a.toUInt64 := loadByte_eq (i := 0) hs rfl
      have hb : loadByte input (p + 1) = some b.toUInt64 := loadByte_eq (i := 1) hs rfl
      have hc : loadByte input (p + 2) = some c.toUInt64 := loadByte_eq (i := 2) hs rfl
      have hover := leWord_overlap (s := [a, b]) (k := 1) (m := 1) (by decide) (by decide) (by simp)
      have hover' := leWord_overlap (s := [a, b, c]) (k := 2) (m := 2) (by decide) (by decide) (by simp)
      simp at hover hover'
      simp [ha, hb, hc, hword, hover, hover']
    · exact absurd (by simp) hfour

theorem sipBlocks_eq {blocks : Nat} (hs : input.drop p = s) (hp : s.length / 8 = blocks) (v : SipState) :
    sipBlocks input blocks p v = some (p + 8 * blocks, (leWords s).foldl (sipAbsorb 1) v) := by
  induction blocks generalizing p s v with
  | zero => rw [leWords_of_lt (by omega)]; rfl
  | succ blocks ih =>
    have hrest := ih (p := p + 8) (s := s.drop 8) (by rw [← hs, drop_drop]) (by rw [length_drop]; omega)
    rw [leWords_of_le (by omega), sipBlocks, sipLoad64, load_eq hs (by decide) (by omega)]
    simp only [bind_eq_bind, bind_some, chmapSipround_eq, hrest, foldl_cons]
    rw [Nat.mul_succ, Nat.add_assoc, Nat.add_comm 8]
    rfl

theorem siphash13_eq (k0 k1 : UInt64) (input : List UInt8) :
    siphash13 (chmapSipStateFromKey k0 k1) input = some (sipHash 1 3 k0 k1 input) := by
  have htail : input.drop (0 + 8 * (input.length / 8)) = input.drop (8 * (input.length / 8)) := by rw [Nat.zero_add]
  have hleft : input.length &&& 7 = (input.drop (8 * (input.length / 8))).length := by
    rw [length_drop, Nat.and_two_pow_sub_one_eq_mod input.length 3]
    omega
  rw [siphash13, Nat.shiftRight_eq_div_pow, sipBlocks_eq (s := input) (p := 0) rfl rfl]
  simp only [bind_eq_bind, bind_some]
  rw [hleft, sipLoadTail_eq htail (by rw [length_drop]; omega), sipHash, leWords_sipPadded, foldl_append]
  simp only [bind_some, chmapSipround_eq]
  rfl

/-! ## XXH64 -/

theorem xxhRound_eq (acc lane : UInt64) : xxhRound acc lane = xxh64Round acc lane := by
  simp (disch := decide) only [xxhRound, sipRotl_eq]
  rfl

theorem sipLoad64_eq {i : Nat} (hs : input.drop p = s) (h : i + 8 ≤ s.length) :
    sipLoad64 input (p + i) = some (leWord ((s.drop i).take 8)) :=
  load_eq (by rw [← drop_drop, hs]) (by decide) (by rw [length_drop]; omega)

theorem xxhStripes_eq (hs : input.drop p = s) (h : 32 ≤ s.length) (v : XxhLanes) :
    xxhStripes input (input.length - 32) p v = some (p + 32 * (s.length / 32), xxh64Stripes v (leWords s)) := by
  induction hn : s.length using Nat.strongRecOn generalizing p s v with
  | ind n ih =>
    subst hn
    have hlen : s.length = input.length - p := by rw [← hs, length_drop]
    have hrest : input.drop (p + 32) = s.drop 32 := by rw [← hs, drop_drop]
    have hnext : (s.drop 32).length = s.length - 32 := length_drop
    rw [xxhStripes, ← Nat.add_zero p, sipLoad64_eq hs (by omega)]
    simp only [Nat.add_zero, sipLoad64_eq hs (i := 8) (by omega), sipLoad64_eq hs (i := 16) (by omega),
      sipLoad64_eq hs (i := 24) (by omega), bind_eq_bind, bind_some, xxhRound_eq]
    rw [leWords_of_le (by omega), leWords_of_le (s := s.drop 8) (by rw [length_drop]; omega), drop_drop,
      leWords_of_le (s := s.drop 16) (by rw [length_drop]; omega), drop_drop,
      leWords_of_le (s := s.drop 24) (by rw [length_drop]; omega), drop_drop, xxh64Stripes]
    by_cases hmore : p + 32 ≤ input.length - 32
    · rw [if_pos hmore, ih _ (by omega) hrest (by omega) _ rfl, hnext]
      congr 2
      omega
    · rw [if_neg hmore, xxh64Stripes_of_lt (by rw [length_leWords, length_drop]; omega)]
      congr 2
      omega

theorem xxhStart_eq (input : List UInt8) (seed : UInt64) :
    xxhStart input seed = some (32 * (input.length / 32),
      if input.length < 32 then seed + xxhPrime5
      else xxh64Converge (xxh64Stripes ⟨seed + xxhPrime1 + xxhPrime2, seed + xxhPrime2, seed, seed - xxhPrime1⟩ (leWords input))) := by
  rw [xxhStart]
  by_cases hlong : input.length ≥ 32
  · rw [if_pos hlong, if_neg (by omega), xxhStripes_eq (s := input) rfl hlong]
    simp (disch := decide) only [bind_eq_bind, bind_some, Nat.zero_add, xxhMergeRound, xxhRound_eq, sipRotl_eq]
    rfl
  · rw [if_neg hlong, if_pos (by omega), Nat.div_eq_of_lt (by omega)]
    rfl

theorem xxh64Word_eq (h lane : UInt64) : sipRotl (h ^^^ xxhRound 0 lane) 27 * xxhP1 + xxhP4 = xxh64Word h lane := by
  rw [sipRotl_eq (by decide), xxhRound_eq]
  rfl

theorem xxhWords_eq (hs : input.drop p = s) (h : UInt64) :
    xxhWords input s.length p h = some (s.length % 8, p + 8 * (s.length / 8), (leWords s).foldl xxh64Word h) := by
  induction hn : s.length using Nat.strongRecOn generalizing p s h with
  | ind n ih =>
    subst hn
    rw [xxhWords]
    by_cases hmore : s.length ≥ 8
    · have hrest : input.drop (p + 8) = s.drop 8 := by rw [← hs, drop_drop]
      have hnext := fun h => ih (s.length - 8) (by omega) hrest h length_drop
      have hmod : (s.length - 8) % 8 = s.length % 8 := by omega
      have hdiv : p + 8 + 8 * ((s.length - 8) / 8) = p + 8 * (s.length / 8) := by omega
      rw [if_pos hmore, sipLoad64, load_eq hs (by decide) hmore, leWords_of_le hmore]
      simp only [bind_eq_bind, bind_some, hnext, xxh64Word_eq, hmod, hdiv, foldl_cons]
    · rw [if_neg hmore, leWords_of_lt (by omega), Nat.mod_eq_of_lt (by omega), Nat.div_eq_of_lt (by omega)]
      rfl

theorem xxhBytes_eq (hs : input.drop p = s) (h : UInt64) : xxhBytes input s.length p h = some (s.foldl xxh64Byte h) := by
  induction s generalizing p h with
  | nil => rfl
  | cons b s ih =>
    have hb : loadByte input p = some b.toUInt64 := loadByte_eq (i := 0) hs rfl
    have hrest : input.drop (p + 1) = s := by rw [← drop_drop, hs]; rfl
    simp (disch := decide) only [length_cons, xxhBytes, hb, bind_eq_bind, bind_some, ih hrest, sipRotl_eq]
    rfl

theorem xxh64_eq (seed : UInt64) (input : List UInt8) : xxh64 input seed = some (xxh64Hash seed input) := by
  rw [xxh64, xxhStart_eq, xxh64Hash]
  generalize 32 * (input.length / 32) = p
  generalize (if input.length < 32 then _ else _ : UInt64) = h
  generalize hs : input.drop p = s
  have hleft : input.length - p = s.length := by rw [← hs, List.length_drop]
  generalize ht : s.drop (8 * (s.length / 8)) = t
  have htail : input.drop (p + 8 * (s.length / 8)) = t := by rw [← List.drop_drop, hs, ht]
  have hlen : s.length % 8 = t.length := by
    rw [← ht, List.length_drop]
    omega
  simp only [Option.bind_eq_bind, Option.bind_some, hleft, xxhWords_eq hs, xxh64Rest, ht, hlen, xxhHalfWord]
  by_cases hfour : 4 ≤ t.length
  · have hrest : input.drop (p + 8 * (s.length / 8) + 4) = t.drop 4 := by rw [← List.drop_drop, htail]
    have hbytes := xxhBytes_eq hrest
    rw [List.length_drop] at hbytes
    rw [if_pos hfour, if_pos hfour, sipLoad32, load_eq htail (by decide) hfour]
    simp (disch := decide) only [Option.pure_def, Option.bind_some, hbytes, sipRotl_eq]
    rfl
  · rw [if_neg hfour, if_neg hfour]
    simp only [Option.bind_some, xxhBytes_eq htail]
    rfl

end Ccollections.Chashmap
