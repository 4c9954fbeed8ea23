import Ccollections.Cstring.Cstring
import Mathlib.Data.List.TakeWhile

/-!
# Reads of a string, and the search by a failure table
-/

namespace Ccollections.Cstring
open Lib List Option

/-! ## Reads -/

section

variable {text : List UInt8}

theorem charAt_eq {i : Nat} (h : i < text.length) : charAt text i = text[i]? :=
  List.getElem?_append_left h

theorem charAt_some {i : Nat} (h : i < text.length) : ∃ c, charAt text i = some c ∧ text[i]? = some c :=
  ⟨text[i], by rw [charAt_eq h, List.getElem?_eq_getElem h], List.getElem?_eq_getElem h⟩

theorem charsAt_eq {off n : Nat} (h : off + n ≤ text.length) : charsAt text off n = some ((text.drop off).take n) := by
  rw [charsAt, if_pos (by omega), drop_append_of_le_length (by omega), take_append_of_le_length]
  rw [length_drop]
  omega

theorem stringFrom_eq (hnoNul : 0 ∉ text) {off : Nat} (h : off ≤ text.length) : stringFrom text off = some (text.drop off) := by
  rw [stringFrom, if_pos h]
  refine congrArg some (takeWhile_eq_self_iff.mpr fun c hc => ?_)
  have hne : c ≠ 0 := by
    rintro rfl
    exact hnoNul (mem_of_mem_drop hc)
  simpa using hne

theorem cstringMemrchr_spec (c : UInt8) (n : Nat) (h : n ≤ text.length) :
    ∃ found, cstringMemrchr text c n = some found ∧
      match found with
      | some p => p < n ∧ text[p]? = some c ∧ ∀ q, p < q → q < n → text[q]? ≠ some c
      | none => ∀ q < n, text[q]? ≠ some c := by
  induction n with
  | zero => exact ⟨none, rfl, by simp⟩
  | succ n ih =>
    obtain ⟨b, hb, hget⟩ := charAt_some h
    rw [cstringMemrchr, hb, bind_eq_bind, bind_some]
    by_cases hbc : b = c
    · rw [if_pos hbc]
      exact ⟨some n, rfl, Nat.lt_succ_self n, hbc ▸ hget, fun q hq hq' => by omega⟩
    · rw [if_neg hbc]
      obtain ⟨found, hfound, hspec⟩ := ih (by omega)
      have hn : text[n]? ≠ some c := by
        rw [hget]
        simpa using hbc
      refine ⟨found, hfound, ?_⟩
      cases found with
      | none =>
        intro q hq
        rcases Nat.lt_succ_iff_lt_or_eq.mp hq with hlt | rfl
        · exact hspec q hlt
        · exact hn
      | some p =>
        obtain ⟨hp, hpc, hafter⟩ := hspec
        refine ⟨by omega, hpc, fun q hq hq' => ?_⟩
        rcases Nat.lt_succ_iff_lt_or_eq.mp hq' with hlt | rfl
        · exact hafter q hq hlt
        · exact hn

end

/-- What the search answers: the last place of the needle, or `ccol_invalid_size` where it does not occur. -/
def Answers (needle hay : List UInt8) (r : Nat) : Prop :=
  LastAt needle hay r ∨ (r = ccolInvalidSize ∧ ∀ i, ¬OccursAt needle hay i)

/-! ## The failure table -/

def TableOk (pattern : List UInt8) (fail : List Nat) : Prop := ∀ i f, fail[i]? = some f → Border pattern (i + 1) f

theorem TableOk.snoc {pattern : List UInt8} {fail : List Nat} {k : Nat} (h : TableOk pattern fail)
    (hk : Border pattern (fail.length + 1) k) : TableOk pattern (fail ++ [k]) := by
  intro i f hget
  rcases Nat.lt_or_ge i fail.length with hlt | hge
  · rw [List.getElem?_append_left hlt] at hget
    exact h i f hget
  · obtain ⟨hi, -⟩ := List.getElem?_eq_some_iff.mp hget
    obtain rfl : i = fail.length := by
      simp only [length_append, length_singleton] at hi
      omega
    rw [List.getElem?_append_right (Nat.le_refl _), Nat.sub_self] at hget
    cases hget
    exact hk

theorem reverse_drop_eq {text : List UInt8} {i : Nat} {c : UInt8} (hc : text[i]? = some c) :
    (text.drop i).reverse = (text.drop (i + 1)).reverse ++ [c] := by
  obtain ⟨hlt, rfl⟩ := List.getElem?_eq_some_iff.mp hc
  rw [drop_eq_getElem_cons hlt, reverse_cons]

section

variable {needle : List UInt8} (hfits : needle.length ≤ sizeMax)
include hfits

theorem patternByte {j : Nat} (hj : j < needle.length) :
    ∃ b, charAt needle (sizeSub (sizeSub needle.length 1) j) = some b ∧ needle.reverse[j]? = some b := by
  rw [sizeSub_eq (by omega) hfits, sizeSub_eq (by omega) (by omega)]
  obtain ⟨b, hb, hget⟩ := charAt_some (show needle.length - 1 - j < needle.length by omega)
  exact ⟨b, hb, by rw [List.getElem?_reverse hj, hget]⟩

theorem fallBack_spec {fail : List Nat} (hfail : TableOk needle.reverse fail) {text : List UInt8} {c : UInt8}
    (rounds j : Nat) (hf : Falling needle.reverse text c j) (hj : j < needle.length) (hlen : j ≤ fail.length)
    (hrounds : j < rounds) :
    ∃ j', fallBack needle needle.length fail c rounds j = some j' ∧ j' < needle.length ∧
      Falling needle.reverse text c j' ∧ (j' = 0 ∨ needle.reverse[j']? = some c) := by
  induction rounds generalizing j with
  | zero => omega
  | succ rounds ih =>
    rw [fallBack]
    by_cases h0 : 0 < j
    · obtain ⟨b, hb, hget⟩ := patternByte hfits hj
      simp only [if_pos h0, hb, bind_eq_bind, bind_some]
      by_cases hcb : c = b
      · rw [if_neg (not_not.mpr hcb)]
        exact ⟨j, rfl, hj, hf, .inr (hcb ▸ hget)⟩
      · rw [if_pos hcb]
        have hentry : fail[j - 1]? = some fail[j - 1] := List.getElem?_eq_getElem (by omega)
        have hborder := hfail (j - 1) _ hentry
        rw [Nat.sub_add_cancel h0] at hborder
        have hlt := hborder.lt h0 hf.matched.1
        have hne : needle.reverse[j]? ≠ some c := by
          rw [hget]
          simpa using fun h => hcb h.symm
        rw [hentry, bind_some]
        exact ih _ (hf.fall h0 hne hborder) (by omega) (by omega) (by omega)
    · rw [if_neg h0]
      exact ⟨j, rfl, hj, hf, .inl (by omega)⟩

theorem matchChar_spec {fail : List Nat} (hfail : TableOk needle.reverse fail) {text : List UInt8} (c : UInt8) {j : Nat}
    (hmatch : Longest needle.reverse text j) (hj : j < needle.length) (hlen : j ≤ fail.length) :
    ∃ j', matchChar needle needle.length fail c j = some j' ∧ Longest needle.reverse (text ++ [c]) j' := by
  obtain ⟨j', hfall, hj', hf, hstop⟩ := fallBack_spec hfits hfail (j + 1) j (hmatch.falling c) hj hlen (Nat.lt_succ_self j)
  obtain ⟨b, hb, hget⟩ := patternByte hfits hj'
  simp only [matchChar, hfall, hb, bind_eq_bind, bind_some]
  by_cases hcb : c = b
  · rw [if_pos hcb]
    exact ⟨_, rfl, hf.extend (hcb ▸ hget)⟩
  · rw [if_neg hcb]
    have hne : needle.reverse[j']? ≠ some c := by
      rw [hget]
      simpa using fun h => hcb h.symm
    rcases hstop with rfl | heq
    · exact ⟨0, rfl, hf.restart hne⟩
    · exact absurd heq hne

theorem fillFail_spec {room q k : Nat} {fail : List Nat} (hroom : needle.length ≤ room) (hfail : TableOk needle.reverse fail)
    (hlen : fail.length = q) (hq : 1 ≤ q) (hqn : q ≤ needle.length) (hk : Border needle.reverse q k) :
    ∃ fail', fillFail needle needle.length room q k fail = some fail' ∧ TableOk needle.reverse fail' ∧
      fail'.length = needle.length := by
  induction hd : needle.length - q generalizing q k fail with
  | zero =>
    rw [fillFail, if_neg (by omega)]
    exact ⟨fail, rfl, hfail, by omega⟩
  | succ d ih =>
    have hlt : q < needle.length := by omega
    have hkq : k < q := hk.lt hq (by rw [length_reverse]; omega)
    obtain ⟨c, hc, hget⟩ := patternByte hfits hlt
    obtain ⟨k', hmatch, hlongest⟩ := matchChar_spec hfits hfail c hk (by omega) (by omega)
    have hborder := (border_succ hq hget).mpr hlongest
    rw [fillFail]
    simp only [if_pos hlt, hc, hmatch, failStore, hlen, if_pos (Nat.lt_of_lt_of_le hlt hroom), bind_eq_bind,
      bind_some]
    exact ih (hfail.snoc (hlen ▸ hborder)) (by simp [hlen]) (by omega) hlt hborder (by omega)


/-! ## The scan -/

theorem scanLinear_spec {fail : List Nat} (hfail : TableOk needle.reverse fail) (hlen : fail.length = needle.length)
    {hay : List UInt8} {limit : Nat} (hlimit : limit ≤ hay.length) (i j : Nat) (hi : i ≤ limit) (hj : j < needle.length)
    (hmatch : Longest needle.reverse ((hay.take limit).drop i).reverse j)
    (hnone : ∀ k, i ≤ k → ¬OccursAt needle (hay.take limit) k) :
    ∃ found, scanLinear needle needle.length hay fail i j = some found ∧
      match found with
      | some r => LastAt needle (hay.take limit) r
      | none => ∀ k, ¬OccursAt needle (hay.take limit) k := by
  induction i generalizing j with
  | zero => exact ⟨none, rfl, fun k => hnone k (Nat.zero_le k)⟩
  | succ i ih =>
    obtain ⟨c, hc, hget⟩ := charAt_some (show i < hay.length by omega)
    have htake : (hay.take limit)[i]? = some c := by rw [List.getElem?_take_of_lt (by omega), hget]
    obtain ⟨j', hmatchChar, hlongest⟩ := matchChar_spec hfits hfail c hmatch hj (by omega)
    rw [← reverse_drop_eq htake] at hlongest
    have hoccurs : OccursAt needle (hay.take limit) i ↔ j' = needle.length := by
      have hi' : i ≤ (hay.take limit).length := by
        rw [length_take_of_le hlimit]
        omega
      rw [OccursAt, and_iff_right hi', ← reverse_suffix, hlongest.full, length_reverse]
    simp only [scanLinear, hc, hmatchChar, bind_eq_bind, bind_some]
    by_cases hfull : j' = needle.length
    · rw [if_pos hfull]
      refine ⟨some i, rfl, hoccurs.mpr hfull, fun k hk => ?_⟩
      by_contra hlt
      exact hnone k (by omega) hk
    · rw [if_neg hfull]
      have hle := hlongest.matched.1
      rw [length_reverse] at hle
      refine ih j' (by omega) (by omega) hlongest fun k hk hoccurs' => ?_
      rcases Nat.eq_or_lt_of_le hk with rfl | hlt
      · exact hfull (hoccurs.mp hoccurs')
      · exact hnone k hlt hoccurs'

theorem cstringRfindLinear_spec (h0 : 1 ≤ needle.length) {hay : List UInt8} {limit : Nat} (hlimit : limit ≤ hay.length)
    (granted : Bool) :
    ∃ r tableOk, cstringRfindLinear needle needle.length hay limit granted = some (r, tableOk) ∧
      (tableOk = true → Answers needle (hay.take limit) r) := by
  rw [cstringRfindLinear]
  split
  · have hroom : needle.length ≤ if needle.length ≤ cstringRfindStackTableLen then cstringRfindStackTableLen else needle.length := by
      split
      · assumption
      · exact Nat.le_refl _
    generalize (if needle.length ≤ cstringRfindStackTableLen then cstringRfindStackTableLen else needle.length) = room at hroom ⊢
    have hfirst : TableOk needle.reverse [0] := by
      intro i f hget
      obtain ⟨hi, hf⟩ := List.getElem?_eq_some_iff.mp hget
      obtain rfl : i = 0 := Nat.lt_one_iff.mp hi
      cases hf
      exact border_one _
    obtain ⟨fail, hfill, hfail, hlen⟩ := fillFail_spec hfits hroom hfirst length_singleton (Nat.le_refl 1) h0 (border_one _)
    have hlast : ((hay.take limit).drop limit).reverse = [] := by simp
    obtain ⟨found, hscan, hspec⟩ := scanLinear_spec hfits hfail hlen hlimit limit 0 (Nat.le_refl _) h0
      (hlast ▸ longest_nil _) fun k hk hoccurs => by
        have hle := hoccurs.length_le
        rw [length_take_of_le hlimit] at hle
        omega
    have hstore : failStore room [] 0 = some [0] := if_pos (Nat.lt_of_lt_of_le h0 hroom)
    simp only [hstore, hfill, hscan, bind_eq_bind, bind_some]
    refine ⟨_, true, rfl, fun _ => ?_⟩
    cases found with
    | none => exact .inr ⟨rfl, hspec⟩
    | some r => exact .inl hspec
  · exact ⟨_, false, rfl, by simp⟩

end

/-!
# The backward scan, and the search from the left
-/

def NoneFrom (needle hay : List UInt8) (pos : Nat) : Prop := ∀ i, pos ≤ i → ¬OccursAt needle hay i

/-- What a part of the scan that goes down to `pos` leaves behind: the answer, or the positions below `pos`. -/
def Settles (needle hay : List UInt8) (pos : Nat) : Option Nat → Prop
  | some r => Answers needle hay r
  | none => NoneFrom needle hay pos

/-- What the filter lets through: the first and the last byte of the needle at their places. -/
def Passes (hay : List UInt8) (nlen : Nat) (first last : UInt8) (st : Nat) : Prop :=
  hay[st]? = some first ∧ hay[st + (nlen - 1)]? = some last

section

variable {needle hay : List UInt8}

theorem NoneFrom.pred {st : Nat} (h : NoneFrom needle hay (st + 1)) (hst : ¬OccursAt needle hay st) : NoneFrom needle hay st := by
  intro i hi
  rcases Nat.eq_or_lt_of_le hi with rfl | hlt
  · exact hst
  · exact h i hlt

theorem noneFrom_end (hay : List UInt8) (h0 : needle ≠ []) : NoneFrom needle hay (hay.length + 1 - needle.length) := by
  intro i hi hoccurs
  have hle := hoccurs.length_le
  have hpos := length_pos_iff.mpr h0
  omega

theorem Answers.of_take {limit r : Nat} (h : Answers needle (hay.take limit) r) (hlimit : limit ≤ hay.length)
    (habove : NoneFrom needle hay (limit + 1 - needle.length)) : Answers needle hay r := by
  have hbelow : ∀ i, OccursAt needle hay i → OccursAt needle (hay.take limit) i := by
    intro i hi
    refine (occursAt_take hlimit).mpr ⟨hi, ?_⟩
    by_contra hgt
    exact habove i (by omega) hi
  rcases h with hlast | ⟨rfl, hnone⟩
  · exact .inl ⟨((occursAt_take hlimit).mp hlast.occurs).1, fun i hi => hlast.le i (hbelow i hi)⟩
  · exact .inr ⟨rfl, fun i hi => hnone i (hbelow i hi)⟩

variable {first last : UInt8} (h2 : 2 ≤ needle.length) (hfits : hay.length ≤ sizeMax) (hfirst : needle[0]? = some first)
  (hlast : needle[needle.length - 1]? = some last)

include hfirst hlast in
theorem OccursAt.passes {st : Nat} (hst : OccursAt needle hay st) (h2 : 2 ≤ needle.length) :
    Passes hay needle.length first last st := by
  obtain ⟨-, hget⟩ := occursAt_iff_getElem?.mp hst
  exact ⟨(hget 0 (by omega)).trans hfirst, (hget _ (by omega)).trans hlast⟩

include hfirst hlast h2 in
theorem occursAt_iff_middle {st : Nat} (hpasses : Passes hay needle.length first last st) :
    OccursAt needle hay st ↔ (hay.drop (st + 1)).take (needle.length - 2) = (needle.drop 1).take (needle.length - 2) := by
  have hmiddle : ∀ xs : List UInt8, ∀ off k, k < needle.length - 2 → ((xs.drop off).take (needle.length - 2))[k]? = xs[off + k]? := by
    intro xs off k hk
    rw [List.getElem?_take_of_lt hk, List.getElem?_drop]
  rw [occursAt_iff_getElem?]
  constructor
  · rintro ⟨-, hget⟩
    refine ext_getElem? fun k => ?_
    rcases Nat.lt_or_ge k (needle.length - 2) with hk | hk
    · rw [hmiddle hay _ _ hk, hmiddle needle _ _ hk, Nat.add_assoc]
      exact hget _ (by omega)
    · rw [List.getElem?_take_eq_none hk, List.getElem?_take_eq_none hk]
  · intro heq
    obtain ⟨hlt, -⟩ := List.getElem?_eq_some_iff.mp hpasses.2
    refine ⟨by omega, fun k hk => ?_⟩
    rcases Nat.eq_zero_or_pos k with rfl | h0
    · rw [hfirst]
      exact hpasses.1
    · rcases Nat.eq_or_lt_of_le (Nat.le_sub_one_of_lt hk) with rfl | hk'
      · rw [hlast]
        exact hpasses.2
      · have h := congrArg (·[k - 1]?) heq
        simp only [hmiddle hay (st + 1) (k - 1) (by omega), hmiddle needle 1 (k - 1) (by omega)] at h
        rwa [show st + 1 + (k - 1) = st + k by omega, show 1 + (k - 1) = k by omega] at h

include h2 in
theorem Passes.le_length {st : Nat} (hpasses : Passes hay needle.length first last st) : st + needle.length ≤ hay.length := by
  obtain ⟨hlt, -⟩ := List.getElem?_eq_some_iff.mp hpasses.2
  omega

/-! ## The filter -/

def Lanes (hay : List UInt8) (nlen : Nat) (first last : UInt8) (b : Nat) (hit : List Bool) : Prop :=
  ∀ k < 16, ∃ lane, hit[k]? = some lane ∧ (lane = true ↔ Passes hay nlen first last (b + k))

theorem filterLanes_spec (nlen : Nat) (first last : UInt8) {b : Nat} (hb : b + (nlen - 1) + 16 ≤ hay.length) :
    ∃ hit, filterLanes hay nlen first last b = some hit ∧ Lanes hay nlen first last b hit := by
  have hf := charsAt_eq (show b + 16 ≤ hay.length by omega)
  have hl := charsAt_eq hb
  simp only [filterLanes, hf, hl, bind_eq_bind, bind_some]
  refine ⟨_, rfl, fun k hk => ?_⟩
  have hx : hay[b + k]? = some hay[b + k] := List.getElem?_eq_getElem (by omega)
  have hy : hay[b + (nlen - 1) + k]? = some hay[b + (nlen - 1) + k] := List.getElem?_eq_getElem (by omega)
  rw [Passes, show b + k + (nlen - 1) = b + (nlen - 1) + k by omega, List.getElem?_zipWith, List.getElem?_take_of_lt hk,
    List.getElem?_take_of_lt hk, List.getElem?_drop, List.getElem?_drop, hx, hy]
  exact ⟨_, rfl, by simp⟩

theorem Lanes.not_passes {nlen b : Nat} {hit : List Bool} (h : Lanes hay nlen first last b hit) (hany : hit.any id = false)
    {st : Nat} (hb : b ≤ st) (hst : st < b + 16) : ¬Passes hay nlen first last st := by
  obtain ⟨lane, hlane, hpasses⟩ := h (st - b) (by omega)
  rw [Nat.add_sub_cancel' hb] at hpasses
  rw [← hpasses]
  exact any_eq_false.mp hany lane (mem_of_getElem? hlane)

theorem wideMiss_spec (nlen : Nat) (first last : UInt8) {pos : Nat} (hpos : pos + (nlen - 1) ≤ hay.length) :
    ∃ miss, wideMiss hay nlen first last pos = some miss ∧
      (miss = true → 64 ≤ pos ∧ ∀ st, pos - 64 ≤ st → st < pos → ¬Passes hay nlen first last st) := by
  rw [wideMiss]
  split
  · rename_i h64
    obtain ⟨l0, h0, hlanes0⟩ := filterLanes_spec nlen first last (show pos - 64 + (nlen - 1) + 16 ≤ hay.length by omega)
    obtain ⟨l1, h1, hlanes1⟩ := filterLanes_spec nlen first last (show pos - 64 + 16 + (nlen - 1) + 16 ≤ hay.length by omega)
    obtain ⟨l2, h2, hlanes2⟩ := filterLanes_spec nlen first last (show pos - 64 + 32 + (nlen - 1) + 16 ≤ hay.length by omega)
    obtain ⟨l3, h3, hlanes3⟩ := filterLanes_spec nlen first last (show pos - 64 + 48 + (nlen - 1) + 16 ≤ hay.length by omega)
    simp only [h0, h1, h2, h3, bind_eq_bind, bind_some]
    refine ⟨_, rfl, fun hmiss => ⟨h64, fun st hst hst' => ?_⟩⟩
    simp only [Bool.not_eq_true', Bool.or_eq_false_iff] at hmiss
    obtain ⟨⟨⟨hany0, hany1⟩, hany2⟩, hany3⟩ := hmiss
    rcases Nat.lt_or_ge st (pos - 64 + 16) with hlt | hge
    · exact hlanes0.not_passes hany0 hst hlt
    · rcases Nat.lt_or_ge st (pos - 64 + 32) with hlt | hge'
      · exact hlanes1.not_passes hany1 hge (by omega)
      · rcases Nat.lt_or_ge st (pos - 64 + 48) with hlt | hge''
        · exact hlanes2.not_passes hany2 hge' (by omega)
        · exact hlanes3.not_passes hany3 hge'' (by omega)
  · exact ⟨false, rfl, by simp⟩

/-! ## A candidate -/

variable (grants : Nat → Bool)

include h2 hfits hfirst hlast

theorem cstringRfindCandidate_spec (sc : RfindScan) {st : Nat} (hpasses : Passes hay needle.length first last st)
    (habove : NoneFrom needle hay (st + 1)) :
    ∃ sc' settled, cstringRfindCandidate hay needle needle.length grants sc st = some (sc', settled) ∧
      Settles needle hay st settled := by
  have hle := Passes.le_length h2 hpasses
  have hthere := charsAt_eq (show st + 1 + (needle.length - 2) ≤ hay.length by omega)
  have hwanted := charsAt_eq (show 1 + (needle.length - 2) ≤ needle.length by omega)
  have hmiddle := occursAt_iff_middle h2 hfirst hlast hpasses
  simp only [cstringRfindCandidate, hthere, hwanted, bind_eq_bind, bind_some, ← hmiddle]
  split
  · rename_i hoccurs
    refine ⟨_, some st, rfl, .inl ⟨hoccurs, fun i hi => ?_⟩⟩
    by_contra hlt
    exact habove i (by omega) hi
  · rename_i hno
    have hfrom := habove.pred hno
    split
    · -- The budget is used up. The table search answers for every start below `st`.
      have hlimit : st + needle.length - 1 ≤ hay.length := by omega
      obtain ⟨r, tableOk, hlinear, hspec⟩ := cstringRfindLinear_spec (show needle.length ≤ sizeMax by omega) (by omega) hlimit (grants sc.requests)
      rw [hlinear, bind_some]
      cases tableOk with
      | true =>
        refine ⟨_, some r, rfl, (hspec rfl).of_take hlimit ?_⟩
        rwa [show st + needle.length - 1 + 1 - needle.length = st by omega]
      | false => exact ⟨_, none, rfl, hfrom⟩
    · exact ⟨_, none, rfl, hfrom⟩

/-! ## The blocks -/

theorem cstringRfindBlock_spec {hit : List Bool} {b : Nat} (hhit : Lanes hay needle.length first last b hit) (k : Nat)
    (hk : k ≤ 16) (sc : RfindScan) (habove : NoneFrom needle hay (b + k)) :
    ∃ sc' settled, cstringRfindBlock hay needle needle.length grants hit b k sc = some (sc', settled) ∧
      Settles needle hay b settled := by
  induction k generalizing sc with
  | zero => exact ⟨sc, none, rfl, habove⟩
  | succ k ih =>
    obtain ⟨lane, hlane, hpasses⟩ := hhit k hk
    simp only [cstringRfindBlock, hlane, bind_eq_bind, bind_some]
    cases lane with
    | true =>
      obtain ⟨sc', settled, hcand, hspec⟩ :=
        cstringRfindCandidate_spec h2 hfits hfirst hlast grants sc (hpasses.mp rfl) habove
      rw [if_pos rfl, hcand, bind_some]
      cases settled with
      | some r => exact ⟨sc', some r, rfl, hspec⟩
      | none => exact ih (by omega) sc' hspec
    | false =>
      rw [if_neg Bool.false_ne_true]
      refine ih (by omega) sc (NoneFrom.pred habove fun hoccurs => ?_)
      exact Bool.false_ne_true (hpasses.mpr (OccursAt.passes hfirst hlast hoccurs h2))

theorem narrowBlock_spec (sc : RfindScan) {b : Nat} (hb : b + (needle.length - 1) + 16 ≤ hay.length)
    (habove : NoneFrom needle hay (b + 16)) :
    ∃ sc' settled, narrowBlock hay needle needle.length grants first last sc b = some (sc', settled) ∧
      Settles needle hay b settled := by
  obtain ⟨hit, hfilter, hlanes⟩ := filterLanes_spec needle.length first last hb
  simp only [narrowBlock, hfilter, bind_eq_bind, bind_some]
  split
  · exact cstringRfindBlock_spec h2 hfits hfirst hlast grants hlanes 16 (Nat.le_refl _) sc habove
  · rename_i hany
    refine ⟨sc, none, rfl, fun i hi hoccurs => ?_⟩
    rcases Nat.lt_or_ge i (b + 16) with hlt | hge
    · exact hlanes.not_passes (Bool.eq_false_iff.mpr hany) hi hlt (OccursAt.passes hfirst hlast hoccurs h2)
    · exact habove i hge hoccurs

theorem scanTail_spec (pos : Nat) (sc : RfindScan) (hpos : pos + (needle.length - 1) ≤ hay.length)
    (habove : NoneFrom needle hay pos) :
    ∃ r, scanTail hay needle needle.length grants first last pos sc = some r ∧ Answers needle hay r := by
  induction pos generalizing sc with
  | zero => exact ⟨ccolInvalidSize, rfl, .inr ⟨rfl, fun i => habove i (Nat.zero_le i)⟩⟩
  | succ pos ih =>
    obtain ⟨f, hf, hgetf⟩ := charAt_some (show pos < hay.length by omega)
    obtain ⟨l, hl, hgetl⟩ := charAt_some (show pos + (needle.length - 1) < hay.length by omega)
    simp only [scanTail, hf, hl, bind_eq_bind, bind_some]
    have hskip : ¬(f = first ∧ l = last) → NoneFrom needle hay pos := by
      intro hne
      refine NoneFrom.pred habove fun hoccurs => hne ?_
      obtain ⟨hpf, hpl⟩ := OccursAt.passes hfirst hlast hoccurs h2
      exact ⟨some.inj (hgetf.symm.trans hpf), some.inj (hgetl.symm.trans hpl)⟩
    by_cases hff : f = first
    · rw [if_pos hff]
      by_cases hll : l = last
      · rw [if_pos hll]
        obtain ⟨sc', settled, hcand, hspec⟩ :=
          cstringRfindCandidate_spec h2 hfits hfirst hlast grants sc ⟨hff ▸ hgetf, hll ▸ hgetl⟩ habove
        rw [hcand, bind_some]
        cases settled with
        | some r => exact ⟨r, rfl, hspec⟩
        | none => exact ih sc' (by omega) hspec
      · rw [if_neg hll]
        exact ih sc (by omega) (hskip fun h => hll h.2)
    · rw [if_neg hff]
      exact ih sc (by omega) (hskip fun h => hff h.1)

theorem scanBlocks_spec (pos : Nat) (sc : RfindScan) (hpos : pos + (needle.length - 1) ≤ hay.length)
    (habove : NoneFrom needle hay pos) :
    ∃ r, scanBlocks hay needle needle.length grants first last pos sc = some r ∧ Answers needle hay r := by
  induction pos using Nat.strongRecOn generalizing sc with
  | ind pos ih =>
    rw [scanBlocks]
    split
    · rename_i h16
      obtain ⟨miss, hmiss, hspec⟩ := wideMiss_spec needle.length first last hpos
      simp only [hmiss, bind_eq_bind, bind_some]
      cases miss with
      | true =>
        rw [if_pos rfl]
        obtain ⟨h64, hnone⟩ := hspec rfl
        refine ih (pos - 64) (by omega) sc (by omega) fun i hi hoccurs => ?_
        rcases Nat.lt_or_ge i pos with hlt | hge
        · exact hnone i hi hlt (OccursAt.passes hfirst hlast hoccurs h2)
        · exact habove i hge hoccurs
      | false =>
        rw [if_neg Bool.false_ne_true]
        obtain ⟨sc', settled, hblock, hsettles⟩ :=
          narrowBlock_spec h2 hfits hfirst hlast grants sc (show pos - 16 + (needle.length - 1) + 16 ≤ hay.length by omega)
            (by rwa [Nat.sub_add_cancel h16])
        rw [hblock, bind_some]
        cases settled with
        | some r => exact ⟨r, rfl, hsettles⟩
        | none => exact ih (pos - 16) (by omega) sc' (by omega) hsettles
    · exact scanTail_spec h2 hfits hfirst hlast grants pos sc hpos habove

end

/-! ## The search from the left -/

theorem lastForward_spec {s needle : List UInt8} (hs : 0 ∉ s) (hn : 0 ∉ needle) (h0 : needle ≠ []) (rounds ptr last : Nat)
    (hptr : ptr ≤ s.length) (hrounds : s.length - ptr < rounds)
    (hlast : (OccursAt needle s last ∧ ptr = last + 1) ∨ (last = ccolInvalidSize ∧ ptr = 0)) :
    ∃ r, lastForward s needle rounds ptr last = some r ∧ Answers needle s r := by
  induction rounds generalizing ptr last with
  | zero => omega
  | succ rounds ih =>
    have htext := stringFrom_eq hs hptr
    have hpattern := stringFrom_eq hn (Nat.zero_le _)
    rw [drop_zero] at hpattern
    simp only [lastForward, htext, hpattern, bind_eq_bind, bind_some]
    cases hfirst : firstOccurrence needle (s.drop ptr) with
    | none =>
      have hrest : ∀ i, ptr ≤ i → ¬OccursAt needle s i := by
        intro i hi hoccurs
        rw [← Nat.add_sub_cancel' hi] at hoccurs
        exact firstOccurrence_none hfirst (i - ptr) ((occursAt_drop hptr).mpr hoccurs)
      refine ⟨last, rfl, ?_⟩
      rcases hlast with ⟨hat, rfl⟩ | ⟨rfl, rfl⟩
      · refine .inl ⟨hat, fun i hi => ?_⟩
        by_contra hgt
        exact hrest i (by omega) hi
      · exact .inr ⟨rfl, fun i => hrest i (Nat.zero_le i)⟩
    | some i =>
      have hat := (occursAt_drop hptr).mp (firstOccurrence_some hfirst).1
      have hle := hat.length_le
      have hpos := length_pos_iff.mpr h0
      exact ih (ptr + i + 1) (ptr + i) (by omega) (by omega) (.inl ⟨hat, rfl⟩)

end Ccollections.Cstring
