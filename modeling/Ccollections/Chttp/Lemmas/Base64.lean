import Ccollections.Chttp.Base64

/-!
# The coders and the text of a byte string
-/

namespace Ccollections.Chttp
open List Option
open Chttpclient (base64Digit chttpBase64Encode)

variable {out : Out} {c : UInt8} {s rest bytes : List UInt8}

/-! ## Memory -/

def Out.append (o : Out) (s : List UInt8) : Out := { o with written := o.written ++ s }

@[simp] theorem Out.append_nil (o : Out) : o.append [] = o := by rw [Out.append, List.append_nil]

@[simp] theorem Out.append_append (o : Out) (s t : List UInt8) : (o.append s).append t = o.append (s ++ t) := by
  simp only [Out.append, append_assoc]

@[simp] theorem Out.size_append (o : Out) (s : List UInt8) : (o.append s).size = o.size := rfl

@[simp] theorem Out.length_append (o : Out) (s : List UInt8) : (o.append s).written.length = o.written.length + s.length :=
  List.length_append

theorem Out.put_eq (h : out.written.length < out.size) (c : UInt8) : out.put c = .ok (out.append [c]) := if_pos h

theorem Out.put_bind {f : Out → Except Stop Out} (h : out.written.length < out.size) (c : UInt8) :
    (out.put c >>= f) = f (out.append [c]) := by rw [put_eq h]; rfl

/-! ## Digits -/

theorem digit_eq (n : Nat) : digit n = base64Digit n := by
  rw [digit, base64Digit, show 0x3F = 2 ^ 6 - 1 from rfl, Nat.and_two_pow_sub_one_eq_mod]
  rfl

theorem digit_mod (n : Nat) : digit (n % 64) = digit n := by rw [digit_eq, digit_eq, base64Digit, base64Digit, Nat.mod_mod]

theorem digit_table {n : Nat} (h : n < 64) : gChttpBase64DecodeTable (digit n) = some n ∧ digit n ≠ 0x3D ∧ digit n ≠ 0 := by
  have hall : ((range 64).all fun n => gChttpBase64DecodeTable (digit n) == some n && digit n != 0x3D && digit n != 0) = true := rfl
  simpa [and_assoc] using all_eq_true.mp hall n (mem_range.mpr h)

theorem digit_ne_pad (n : Nat) : digit n ≠ 0x3D := by
  rw [← digit_mod]
  exact (digit_table (Nat.mod_lt n (by decide))).2.1

theorem digit_ne_nul (n : Nat) : digit n ≠ 0 := by
  rw [← digit_mod]
  exact (digit_table (Nat.mod_lt n (by decide))).2.2

set_option maxRecDepth 2000 in
theorem eq_digit_of_table {v : Nat} (h : gChttpBase64DecodeTable c = some v) : v < 64 ∧ c = digit v := by
  have hall : ((range 256).all fun n => (gChttpBase64DecodeTable (.ofNat n)).all fun v => v < 64 && UInt8.ofNat n == digit v) = true := rfl
  have hc := all_eq_true.mp hall c.toNat (mem_range.mpr c.toNat_lt)
  simpa [h] using hc

/-! ## The bits of a group -/

theorem bits_bytes {a b c : Nat} (hb : b < 256) (hc : c < 256) : a <<< 16 ||| b <<< 8 ||| c = a * 65536 + b * 256 + c := by
  have hlow : b <<< 8 < 2 ^ 16 := by
    rw [Nat.shiftLeft_eq]
    omega
  rw [← Nat.shiftLeft_add_eq_or_of_lt hlow, Nat.shiftLeft_eq, Nat.shiftLeft_eq]
  rw [show a * 2 ^ 16 + b * 2 ^ 8 = (a * 2 ^ 8 + b) <<< 8 by rw [Nat.shiftLeft_eq]; ring, ← Nat.shiftLeft_add_eq_or_of_lt hc,
    Nat.shiftLeft_eq]
  ring

theorem bits_digits {a b c d : Nat} (hb : b < 64) (hc : c < 64) (hd : d < 64) :
    a <<< 18 ||| b <<< 12 ||| c <<< 6 ||| d = a * 262144 + b * 4096 + c * 64 + d := by
  have hb' : b <<< 12 < 2 ^ 18 := by
    rw [Nat.shiftLeft_eq]
    omega
  have hc' : c <<< 6 < 2 ^ 12 := by
    rw [Nat.shiftLeft_eq]
    omega
  rw [← Nat.shiftLeft_add_eq_or_of_lt hb', Nat.shiftLeft_eq, Nat.shiftLeft_eq,
    show a * 2 ^ 18 + b * 2 ^ 12 = (a * 2 ^ 6 + b) <<< 12 by rw [Nat.shiftLeft_eq]; ring,
    ← Nat.shiftLeft_add_eq_or_of_lt hc', Nat.shiftLeft_eq, Nat.shiftLeft_eq,
    show (a * 2 ^ 6 + b) * 2 ^ 12 + c * 2 ^ 6 = (a * 2 ^ 12 + b * 2 ^ 6 + c) <<< 6 by rw [Nat.shiftLeft_eq]; ring,
    ← Nat.shiftLeft_add_eq_or_of_lt hd, Nat.shiftLeft_eq]
  ring

/-! ## Encoding -/

theorem length_encode (b : List UInt8) : (chttpBase64Encode b).length = (b.length + 2) / 3 * 4 := by
  fun_induction chttpBase64Encode b with
  | case1 a b c s n ih =>
    simp only [length_cons, ih]
    omega
  | case2 => simp
  | case3 => simp
  | case4 => rfl

theorem encode_append (h : bytes.length = 3) (b : List UInt8) :
    chttpBase64Encode (bytes ++ b) = chttpBase64Encode bytes ++ chttpBase64Encode b := by
  match bytes, h with
  | [x, y, z], _ => rfl

theorem encode_ne_nul (b : List UInt8) : 0 ∉ chttpBase64Encode b := by
  have hdigit : ∀ n, (0 : UInt8) ≠ base64Digit n := fun n h => digit_ne_nul n ((digit_eq n).trans h.symm)
  fun_induction chttpBase64Encode b with
  | case1 a b c s n ih => simp [hdigit, ih]
  | case2 => simp [hdigit]
  | case3 => simp [hdigit]
  | case4 => simp

theorem encodeGroups_eq (out : Out) (b : List UInt8) (hroom : out.written.length + (chttpBase64Encode b).length ≤ out.size) :
    encodeGroups out b = .ok (out.append (chttpBase64Encode b)) := by
  have hshift : ∀ n k, digit (n >>> k) = base64Digit (n / 2 ^ k) := fun n k => by rw [digit_eq, Nat.shiftRight_eq_div_pow]
  match b with
  | a :: b :: c :: p =>
    simp only [chttpBase64Encode, length_cons] at hroom
    rw [encodeGroups, Out.put_bind (by omega), Out.put_bind (by simp; omega), Out.put_bind (by simp; omega),
      Out.put_bind (by simp; omega), encodeGroups_eq _ p (by simp; omega), bits_bytes b.toNat_lt c.toNat_lt]
    simp only [Out.append_append, hshift, digit_eq, Nat.reducePow, append_assoc]
    rfl
  | [a, b] =>
    have hbits := bits_bytes (a := a.toNat) b.toNat_lt (show 0 < 256 by decide)
    rw [Nat.or_zero, Nat.add_zero] at hbits
    simp only [chttpBase64Encode, length_cons, length_nil] at hroom
    rw [encodeGroups, Out.put_bind (by omega), Out.put_bind (by simp; omega), Out.put_bind (by simp; omega),
      Out.put_eq (by simp; omega), hbits]
    simp only [Out.append_append, hshift, Nat.reducePow, append_assoc]
    rfl
  | [a] =>
    simp only [chttpBase64Encode, length_cons, length_nil] at hroom
    rw [encodeGroups, Out.put_bind (by omega), Out.put_bind (by simp; omega), Out.put_bind (by simp; omega),
      Out.put_eq (by simp; omega), Nat.shiftLeft_eq]
    simp only [Out.append_append, hshift, Nat.reducePow, append_assoc]
    rfl
  | [] => simp [encodeGroups, chttpBase64Encode]

/-! ## Decoding a group -/

theorem spareBits_none {v : Nat} (w : Option Nat) : spareBitsAreZero v none w = decide (v % 16 = 0) := by
  rw [spareBitsAreZero, show 0x0F = 2 ^ 4 - 1 from rfl, Nat.and_two_pow_sub_one_eq_mod]

theorem spareBits_some {v w : Nat} : spareBitsAreZero v (some w) none = decide (w % 4 = 0) := by
  rw [spareBitsAreZero, show 0x03 = 2 ^ 2 - 1 from rfl, Nat.and_two_pow_sub_one_eq_mod]

def bitsOf (v₀ v₁ : Nat) (v₂ v₃ : Option Nat) : Nat := v₀ * 262144 + v₁ * 4096 + v₂.getD 0 * 64 + v₃.getD 0

def bytesOf (v₀ v₁ : Nat) (v₂ v₃ : Option Nat) : List UInt8 :=
  (bitsOf v₀ v₁ v₂ v₃ / 65536).toUInt8 :: ((if v₂.isSome then [(bitsOf v₀ v₁ v₂ v₃ / 256).toUInt8] else []) ++
    if v₃.isSome then [(bitsOf v₀ v₁ v₂ v₃).toUInt8] else [])

variable {lastGroup : Bool} {chunk : List UInt8} {v₀ v₁ : Nat} {v₂ v₃ : Option Nat}

theorem decodeGroup_vals (hvals : groupVals lastGroup 0 false chunk = .ok [some v₀, some v₁, v₂, v₃])
    (hspare : spareBitsAreZero v₁ v₂ v₃ = true) (h₁ : v₁ < 64) (h₂ : ∀ v ∈ v₂, v < 64) (h₃ : ∀ v ∈ v₃, v < 64)
    (hroom : out.written.length + (bytesOf v₀ v₁ v₂ v₃).length ≤ out.size) :
    decodeGroup out lastGroup chunk = .ok (out.append (bytesOf v₀ v₁ v₂ v₃)) := by
  have hlow : ∀ {v : Option Nat}, (∀ w ∈ v, w < 64) → v.getD 0 < 64 := by
    intro v h
    cases v with
    | none => exact Nat.zero_lt_succ 63
    | some w => exact h w rfl
  have hbits : v₀ <<< 18 ||| v₁ <<< 12 ||| v₂.getD 0 <<< 6 ||| v₃.getD 0 = bitsOf v₀ v₁ v₂ v₃ :=
    bits_digits h₁ (hlow h₂) (hlow h₃)
  have hbyte : ∀ n : Nat, (n &&& 0xFF).toUInt8 = n.toUInt8 := fun n => by
    rw [show 0xFF = 2 ^ 8 - 1 from rfl, Nat.and_two_pow_sub_one_eq_mod, ← UInt8.toNat_inj]
    simp
  simp only [bytesOf, length_cons, length_append] at hroom
  simp only [decodeGroup, hvals, bind, Except.bind, getD_cons_zero, getD_cons_succ, getD_some, hspare,
    Bool.not_true, Bool.false_eq_true, if_false, hbits, hbyte, Nat.shiftRight_eq_div_pow]
  rw [Out.put_eq (by omega)]
  cases v₂ with
  | none =>
    cases v₃ with
    | none => rfl
    | some v₃ =>
      simp only [isSome_none, isSome_some, if_true, Bool.false_eq_true, if_false, length_nil, length_cons] at hroom ⊢
      rw [Out.put_eq (by simp; omega), Out.append_append]
      rfl
  | some v₂ =>
    cases v₃ with
    | none =>
      simp only [isSome_none, isSome_some, if_true, Bool.false_eq_true, if_false, length_nil, length_cons] at hroom ⊢
      rw [Out.put_eq (by simp; omega), Out.append_append]
      rfl
    | some v₃ =>
      simp only [isSome_some, if_true, length_nil, length_cons] at hroom ⊢
      rw [Out.put_eq (by simp; omega)]
      dsimp only
      rw [Out.put_eq (by simp; omega), Out.append_append, Out.append_append]
      rfl

/-- A group of characters and its bytes. A padded one is the last of a text and has no bits that no byte holds. -/
inductive Group : Bool → List UInt8 → List UInt8 → Prop
  | full {lastGroup : Bool} {a b c d : Nat} (ha : a < 64) (hb : b < 64) (hc : c < 64) (hd : d < 64) :
      Group lastGroup [digit a, digit b, digit c, digit d] (bytesOf a b (some c) (some d))
  | pad {a b c : Nat} (ha : a < 64) (hb : b < 64) (hc : c < 64) (hzero : c % 4 = 0) :
      Group true [digit a, digit b, digit c, 0x3D] (bytesOf a b (some c) none)
  | padPad {a b : Nat} (ha : a < 64) (hb : b < 64) (hzero : b % 16 = 0) :
      Group true [digit a, digit b, 0x3D, 0x3D] (bytesOf a b none none)

/-! ### One character -/

theorem char_cases (c : UInt8) : c = 0x3D ∨ (∃ v < 64, c = digit v) ∨ c ≠ 0x3D ∧ gChttpBase64DecodeTable c = none := by
  by_cases hc : c = 0x3D
  · exact .inl hc
  · cases hv : gChttpBase64DecodeTable c with
    | none => exact .inr (.inr ⟨hc, rfl⟩)
    | some v =>
      obtain ⟨hlt, heq⟩ := eq_digit_of_table hv
      exact .inr (.inl ⟨v, hlt, heq⟩)

theorem groupVals_digit {v : Nat} (hv : v < 64) (k : Nat) (chunk : List UInt8) :
    groupVals lastGroup k false (digit v :: chunk) = (groupVals lastGroup (k + 1) false chunk).map (some v :: ·) := by
  rw [groupVals, if_neg (digit_ne_pad v), if_neg Bool.false_ne_true, (digit_table hv).1]

theorem groupVals_pad (k : Nat) (seenPad : Bool) (chunk : List UInt8) : groupVals lastGroup k seenPad (0x3D :: chunk) =
    if !lastGroup || k < 2 then .error .null else (groupVals lastGroup (k + 1) true chunk).map (none :: ·) := if_pos rfl

theorem groupVals_seen (hc : c ≠ 0x3D) (k : Nat) (chunk : List UInt8) :
    groupVals lastGroup k true (c :: chunk) = .error .null := by rw [groupVals, if_neg hc, if_pos rfl]

theorem groupVals_other (hc : c ≠ 0x3D ∧ gChttpBase64DecodeTable c = none) (k : Nat) (seenPad : Bool) (chunk : List UInt8) :
    groupVals lastGroup k seenPad (c :: chunk) = .error .null := by
  cases seenPad with
  | true => exact groupVals_seen hc.1 k chunk
  | false => rw [groupVals, if_neg hc.1, if_neg Bool.false_ne_true, hc.2]

/-! ### Four characters -/

theorem decodeGroup_of (h : Group lastGroup chunk bytes) (hroom : out.written.length + bytes.length ≤ out.size) :
    decodeGroup out lastGroup chunk = .ok (out.append bytes) := by
  cases h with
  | full ha hb hc hd =>
    refine decodeGroup_vals ?_ rfl hb (by rintro _ ⟨⟩; exact hc) (by rintro _ ⟨⟩; exact hd) hroom
    rw [groupVals_digit ha, groupVals_digit hb, groupVals_digit hc, groupVals_digit hd]
    rfl
  | pad ha hb hc hzero =>
    refine decodeGroup_vals ?_ (by rw [spareBits_some, hzero]; rfl) hb (by rintro _ ⟨⟩; exact hc) nofun hroom
    rw [groupVals_digit ha, groupVals_digit hb, groupVals_digit hc, groupVals_pad]
    rfl
  | padPad ha hb hzero =>
    refine decodeGroup_vals ?_ (by rw [spareBits_none, hzero]; rfl) hb nofun nofun hroom
    rw [groupVals_digit ha, groupVals_digit hb, groupVals_pad, if_neg (by decide), groupVals_pad]
    rfl

theorem decodeGroup_null (h : groupVals lastGroup 0 false chunk = .error .null) :
    decodeGroup out lastGroup chunk = .error .null := by
  rw [decodeGroup, h]
  rfl

theorem decodeGroup_spare (hvals : groupVals lastGroup 0 false chunk = .ok [some v₀, some v₁, v₂, v₃])
    (hspare : spareBitsAreZero v₁ v₂ v₃ = false) : decodeGroup out lastGroup chunk = .error .null := by
  simp only [decodeGroup, hvals, bind, Except.bind, getD_cons_zero, getD_cons_succ, getD_some, hspare,
    Bool.not_false, if_true]

theorem decodeGroup_cases (lastGroup : Bool) (a b c d : UInt8) :
    (∃ bytes, Group lastGroup [a, b, c, d] bytes) ∨ ∀ out, decodeGroup out lastGroup [a, b, c, d] = .error .null := by
  rcases char_cases a with rfl | ⟨a, ha, rfl⟩ | hother
  · refine .inr fun out => decodeGroup_null ?_
    rw [groupVals_pad, if_pos (by simp)]
  · rcases char_cases b with rfl | ⟨b, hb, rfl⟩ | hother
    · refine .inr fun out => decodeGroup_null ?_
      rw [groupVals_digit ha, groupVals_pad, if_pos (by simp)]
      rfl
    · rcases char_cases c with rfl | ⟨c, hc, rfl⟩ | hother
      · cases lastGroup with
        | false =>
          refine .inr fun out => decodeGroup_null ?_
          rw [groupVals_digit ha, groupVals_digit hb, groupVals_pad]
          rfl
        | true =>
          by_cases hd : d = 0x3D
          · subst hd
            by_cases hzero : b % 16 = 0
            · exact .inl ⟨_, .padPad ha hb hzero⟩
            · refine .inr fun out => @decodeGroup_spare _ _ _ a b none none ?_ ?_
              · rw [groupVals_digit ha, groupVals_digit hb, groupVals_pad, if_neg (by decide), groupVals_pad]
                rfl
              · rw [spareBits_none, decide_eq_false hzero]
          · refine .inr fun out => decodeGroup_null ?_
            rw [groupVals_digit ha, groupVals_digit hb, groupVals_pad, if_neg (by decide), groupVals_seen hd]
            rfl
      · rcases char_cases d with rfl | ⟨d, hd, rfl⟩ | hother
        · cases lastGroup with
          | false =>
            refine .inr fun out => decodeGroup_null ?_
            rw [groupVals_digit ha, groupVals_digit hb, groupVals_digit hc, groupVals_pad]
            rfl
          | true =>
            by_cases hzero : c % 4 = 0
            · exact .inl ⟨_, .pad ha hb hc hzero⟩
            · refine .inr fun out => @decodeGroup_spare _ _ _ a b (some c) none ?_ ?_
              · rw [groupVals_digit ha, groupVals_digit hb, groupVals_digit hc, groupVals_pad]
                rfl
              · rw [spareBits_some, decide_eq_false hzero]
        · exact .inl ⟨_, .full ha hb hc hd⟩
        · refine .inr fun out => decodeGroup_null ?_
          rw [groupVals_digit ha, groupVals_digit hb, groupVals_digit hc, groupVals_other hother]
          rfl
      · refine .inr fun out => decodeGroup_null ?_
        rw [groupVals_digit ha, groupVals_digit hb, groupVals_other hother]
        rfl
    · refine .inr fun out => decodeGroup_null ?_
      rw [groupVals_digit ha, groupVals_other hother]
      rfl
  · exact .inr fun out => decodeGroup_null (groupVals_other hother 0 false _)

/-! ### The text of the bytes -/

theorem Group.eq_encode (h : Group lastGroup chunk bytes) :
    chunk = chttpBase64Encode bytes ∧ (bytes.length = 3 ∨ lastGroup = true ∧ 0 < bytes.length ∧ bytes.length < 3) := by
  have hdigit : ∀ {n v : Nat}, n % 64 = v → digit v = base64Digit n := by
    rintro n _ rfl
    rw [digit_mod, digit_eq]
  cases h with
  | @full _ a b c d ha hb hc hd =>
    refine ⟨?_, .inl rfl⟩
    have hnum : bitsOf a b (some c) (some d) = a * 262144 + b * 4096 + c * 64 + d := rfl
    generalize hbytes : bytesOf a b (some c) (some d) = bytes
    simp only [bytesOf, isSome_some, if_true, cons_append, nil_append] at hbytes
    subst hbytes
    simp only [chttpBase64Encode, UInt8.toNat_ofNat', Nat.toUInt8]
    rw [← hdigit (v := a), ← hdigit (v := b), ← hdigit (v := c), ← hdigit (v := d)] <;> omega
  | @pad a b c ha hb hc hzero =>
    refine ⟨?_, .inr ⟨rfl, by simp [bytesOf], by simp [bytesOf]⟩⟩
    have hnum : bitsOf a b (some c) none = a * 262144 + b * 4096 + c * 64 := by simp [bitsOf]
    generalize hbytes : bytesOf a b (some c) none = bytes
    simp only [bytesOf, isSome_some, isSome_none, if_true, Bool.false_eq_true, if_false, cons_append,
      nil_append] at hbytes
    subst hbytes
    simp only [chttpBase64Encode, UInt8.toNat_ofNat', Nat.toUInt8]
    rw [← hdigit (v := a), ← hdigit (v := b), ← hdigit (v := c)] <;> omega
  | @padPad a b ha hb hzero =>
    refine ⟨?_, .inr ⟨rfl, by simp [bytesOf], by simp [bytesOf]⟩⟩
    have hnum : bitsOf a b none none = a * 262144 + b * 4096 := by simp [bitsOf]
    generalize hbytes : bytesOf a b none none = bytes
    simp only [bytesOf, isSome_none, Bool.false_eq_true, if_false, append_nil] at hbytes
    subst hbytes
    simp only [chttpBase64Encode, UInt8.toNat_ofNat', Nat.toUInt8]
    rw [← hdigit (v := a), ← hdigit (v := b)] <;> omega

theorem group_of_bytes (h : bytes.length = 3 ∨ lastGroup = true ∧ 0 < bytes.length ∧ bytes.length < 3) :
    Group lastGroup (chttpBase64Encode bytes) bytes := by
  have hbyte : ∀ {n : Nat} {x : UInt8}, n % 256 = x.toNat → n.toUInt8 = x := by
    intro n x hn
    rw [← UInt8.toNat_inj, ← hn]
    exact UInt8.toNat_ofNat'
  have hdigit : ∀ n, base64Digit n = digit (n % 64) := fun n => by rw [digit_mod, digit_eq]
  match bytes with
  | [x] =>
    have hx := x.toNat_lt
    have hlast : lastGroup = true := by simpa using h
    have hnum : bitsOf (x.toNat * 65536 / 262144 % 64) (x.toNat * 65536 / 4096 % 64) none none = x.toNat * 65536 := by
      simp only [bitsOf, getD_none]
      omega
    have hgroup := Group.padPad (a := x.toNat * 65536 / 262144 % 64) (b := x.toNat * 65536 / 4096 % 64)
      (Nat.mod_lt _ (by decide)) (Nat.mod_lt _ (by decide)) (by omega)
    rw [bytesOf, hnum, hbyte (x := x) (by omega), ← hdigit, ← hdigit] at hgroup
    rw [hlast]
    exact hgroup
  | [x, y] =>
    have hx := x.toNat_lt
    have hy := y.toNat_lt
    have hlast : lastGroup = true := by simpa using h
    obtain ⟨n, hn⟩ : ∃ n, n = x.toNat * 65536 + y.toNat * 256 := ⟨_, rfl⟩
    have hnum : bitsOf (n / 262144 % 64) (n / 4096 % 64) (some (n / 64 % 64)) none = n := by
      simp only [bitsOf, getD_some, getD_none]
      omega
    have hgroup := Group.pad (a := n / 262144 % 64) (b := n / 4096 % 64) (c := n / 64 % 64)
      (Nat.mod_lt _ (by decide)) (Nat.mod_lt _ (by decide)) (Nat.mod_lt _ (by decide)) (by omega)
    rw [bytesOf, hnum, hbyte (n := n / 65536) (x := x) (by omega), hbyte (n := n / 256) (x := y) (by omega), ← hdigit,
      ← hdigit, ← hdigit, hn] at hgroup
    rw [hlast]
    exact hgroup
  | [x, y, z] =>
    have hx := x.toNat_lt
    have hy := y.toNat_lt
    have hz := z.toNat_lt
    obtain ⟨n, hn⟩ : ∃ n, n = x.toNat * 65536 + y.toNat * 256 + z.toNat := ⟨_, rfl⟩
    have hnum : bitsOf (n / 262144 % 64) (n / 4096 % 64) (some (n / 64 % 64)) (some (n % 64)) = n := by
      simp only [bitsOf, getD_some]
      omega
    have hgroup := @Group.full lastGroup (n / 262144 % 64) (n / 4096 % 64) (n / 64 % 64) (n % 64)
      (Nat.mod_lt _ (by decide)) (Nat.mod_lt _ (by decide)) (Nat.mod_lt _ (by decide)) (Nat.mod_lt _ (by decide))
    rw [bytesOf, hnum, hbyte (n := n / 65536) (x := x) (by omega), hbyte (n := n / 256) (x := y) (by omega),
      hbyte (n := n) (x := z) (by omega), ← hdigit, ← hdigit, ← hdigit, ← hdigit, hn] at hgroup
    exact hgroup
  | [] => simp at h
  | _ :: _ :: _ :: _ :: _ =>
    simp only [length_cons] at h
    omega

/-! ## Decoding a text -/

theorem padOf_append (pre : List UInt8) (h : 2 ≤ rest.length) : padOf (pre ++ rest) = padOf rest := by
  have hright : ∀ n, pre.length ≤ n → (pre ++ rest).getD n 0 = rest.getD (n - pre.length) 0 := by
    intro n hn
    rw [getD_eq_getElem?_getD, getD_eq_getElem?_getD, List.getElem?_append_right hn]
  rw [padOf, padOf, hright _ (by rw [length_append]; omega), hright _ (by rw [length_append]; omega)]
  have hlast : (pre ++ rest).length - 1 - pre.length = rest.length - 1 := by
    rw [length_append]
    omega
  have hprev : (pre ++ rest).length - 2 - pre.length = rest.length - 2 := by
    rw [length_append]
    omega
  have hlong : 2 ≤ (pre ++ rest).length := by
    rw [length_append]
    omega
  simp only [hlast, hprev, ge_iff_le, hlong, h]

theorem Group.length_eq (h : Group lastGroup chunk bytes) : chunk.length = 4 := by
  cases h <;> rfl

theorem Group.padOf (h : Group lastGroup chunk bytes) : Chttp.padOf chunk + bytes.length = 3 := by
  cases h with
  | full => simp [Chttp.padOf, bytesOf, digit_ne_pad]
  | pad => simp [Chttp.padOf, bytesOf, digit_ne_pad]
  | padPad => simp [Chttp.padOf, bytesOf]

def roomFor (s : List UInt8) : Nat := s.length / 4 * 3 - padOf s

theorem padOf_le (s : List UInt8) : padOf s ≤ 2 := by
  rw [padOf]
  split
  · split <;> decide
  · decide

theorem Group.roomFor (h : Group lastGroup chunk bytes) (hlast : lastGroup = rest.isEmpty) (hmod : rest.length % 4 = 0) :
    Chttp.roomFor (chunk ++ rest) = bytes.length + Chttp.roomFor rest := by
  have hlen := h.length_eq
  have hpad := h.padOf
  have hshape := h.eq_encode.2
  rw [Chttp.roomFor, Chttp.roomFor, length_append, hlen]
  cases rest with
  | nil =>
    rw [append_nil]
    simp only [length_nil]
    omega
  | cons c rest =>
    rw [padOf_append chunk (by simp only [length_cons] at *; omega)]
    have hle := padOf_le (c :: rest)
    have hlong : 4 ≤ (c :: rest).length := by
      simp only [length_cons] at *
      omega
    rcases hshape with hthree | ⟨htrue, -⟩
    · omega
    · rw [hlast] at htrue
      cases htrue

theorem decodeGroups_cons (h : Group rest.isEmpty chunk bytes) (hroom : out.written.length + bytes.length ≤ out.size) :
    decodeGroups out (chunk ++ rest) = decodeGroups (out.append bytes) rest := by
  match chunk, h.length_eq with
  | [a, b, c, d], _ =>
    show (decodeGroup out rest.isEmpty [a, b, c, d] >>= fun out => decodeGroups out rest) = _
    rw [decodeGroup_of h hroom]
    rfl

/-- A text that the loop over its groups accepts is the text of the bytes it gives, and they fit. -/
theorem decodeGroups_cases (out : Out) (s : List UInt8) (hmod : s.length % 4 = 0)
    (hroom : out.written.length + roomFor s ≤ out.size) :
    (∃ b, s = chttpBase64Encode b ∧ b.length = roomFor s ∧ decodeGroups out s = .ok (out.append b)) ∨
    decodeGroups out s = .error .null := by
  match s with
  | [] => exact .inl ⟨[], rfl, rfl, by rw [decodeGroups, Out.append_nil]; simp⟩
  | [_] | [_, _] | [_, _, _] => simp at hmod
  | a :: b :: c :: d :: rest =>
    have hmod' : rest.length % 4 = 0 := by
      simp only [List.length_cons] at hmod
      omega
    rcases decodeGroup_cases rest.isEmpty a b c d with ⟨bytes, hgroup⟩ | hnull
    · have hsum := hgroup.roomFor rfl hmod'
      have hstep := @decodeGroups_cons out _ _ _ hgroup (by simp only [List.cons_append, List.nil_append] at hsum; omega)
      simp only [List.cons_append, List.nil_append] at hsum hstep
      obtain ⟨hchunk, hlen⟩ := hgroup.eq_encode
      rw [hstep]
      rcases decodeGroups_cases (out.append bytes) rest hmod' (by rw [Out.length_append, Out.size_append]; omega) with
        ⟨b', hrest, hlen', hok⟩ | hnull
      · refine .inl ⟨bytes ++ b', ?_, by rw [List.length_append, hsum, hlen'], by rw [hok, Out.append_append]⟩
        rcases hlen with hthree | ⟨hlast, -⟩
        · rw [encode_append hthree, ← hchunk, ← hrest]
          rfl
        · rw [List.isEmpty_iff] at hlast
          subst hlast
          rw [show b' = [] from List.length_eq_zero_iff.mp hlen', List.append_nil]
          exact hchunk
      · exact .inr hnull
    · right
      show (decodeGroup out rest.isEmpty [a, b, c, d] >>= fun out => decodeGroups out rest) = _
      rw [hnull]
      rfl

theorem decodeGroups_encode (out : Out) (b : List UInt8) (hroom : out.written.length + b.length ≤ out.size) :
    decodeGroups out (chttpBase64Encode b) = .ok (out.append b) := by
  match b with
  | [] => rw [Out.append_nil, chttpBase64Encode, decodeGroups]; simp
  | [x] =>
    have hstep := @decodeGroups_cons out [] _ _ (@group_of_bytes [x] _ (.inr ⟨rfl, by simp, by simp⟩)) hroom
    rw [append_nil] at hstep
    rw [hstep, decodeGroups]
    simp
  | [x, y] =>
    have hstep := @decodeGroups_cons out [] _ _ (@group_of_bytes [x, y] _ (.inr ⟨rfl, by simp, by simp⟩)) hroom
    rw [append_nil] at hstep
    rw [hstep, decodeGroups]
    simp
  | x :: y :: z :: b =>
    have hthree : [x, y, z].length = 3 := rfl
    have hlen : (x :: y :: z :: b).length = 3 + b.length := by
      simp only [length_cons]
      omega
    rw [show x :: y :: z :: b = [x, y, z] ++ b from rfl, encode_append hthree,
      decodeGroups_cons (group_of_bytes (.inl hthree)) (by omega),
      decodeGroups_encode _ b (by rw [Out.length_append, Out.size_append]; omega), Out.append_append]

theorem roomFor_encode (b : List UInt8) : roomFor (chttpBase64Encode b) = b.length := by
  have hlen := length_encode b
  rcases decodeGroups_cases ⟨roomFor (chttpBase64Encode b) + b.length, []⟩ (chttpBase64Encode b) (by omega) (by simp) with
    ⟨b', -, hroom, hok⟩ | hnull
  · rw [decodeGroups_encode _ b (by simp)] at hok
    rw [← hroom, append_cancel_left (congrArg Out.written (Except.ok.inj hok))]
  · rw [decodeGroups_encode _ b (by simp)] at hnull
    cases hnull

/-! ## The functions -/

theorem encodeMax_eq : encodeMax = 13835058055282163705 := by decide

def encoded (b : List UInt8) : Result := ⟨⟨(chttpBase64Encode b).length + 1, chttpBase64Encode b ++ [0]⟩, (chttpBase64Encode b).length⟩

def decoded (b : List UInt8) : Result := ⟨⟨b.length + 1, b ++ [0]⟩, b.length⟩

theorem encode_bytes {b : List UInt8} (h : b.length ≤ encodeMax) : chttpBase64EncodeMp true (.bytes b) = .ok (encoded b) := by
  have hlen := length_encode b
  rw [encodeMax_eq] at h
  have hsum : sizeAdd b.length 2 = b.length + 2 := sizeAdd_eq (by rw [sizeMax_eq]; omega)
  have hmul : sizeMul ((b.length + 2) / 3) 4 = (chttpBase64Encode b).length := by
    rw [hlen]
    exact sizeMul_eq (by rw [sizeMax_eq]; omega)
  have hsize : sizeAdd (chttpBase64Encode b).length 1 = (chttpBase64Encode b).length + 1 := sizeAdd_eq (by rw [sizeMax_eq]; omega)
  have hgroups := encodeGroups_eq ⟨(chttpBase64Encode b).length + 1, []⟩ b (by simp)
  have hput := @Out.put_eq (Out.append ⟨(chttpBase64Encode b).length + 1, []⟩ (chttpBase64Encode b)) (by simp) 0
  rw [chttpBase64EncodeMp]
  · simp only [Data.len, Data.content, encodeMax_eq, gt_iff_lt, Nat.not_lt.mpr h, if_false, hsum, hmul, hsize, Out.alloc, if_true,
      bind, Except.bind, hgroups, hput, encoded]
    rw [Out.append_append, Out.append, nil_append]
  · nofun

theorem encode_cases (memory : Bool) (data : Data) :
    chttpBase64EncodeMp memory data = .error .null ∨
    memory = true ∧ data.content.length ≤ encodeMax ∧ chttpBase64EncodeMp memory data = .ok (encoded data.content) := by
  have hbytes : ∀ b : List UInt8, chttpBase64EncodeMp memory (.bytes b) = .error .null ∨
      memory = true ∧ b.length ≤ encodeMax ∧ chttpBase64EncodeMp memory (.bytes b) = .ok (encoded b) := by
    intro b
    by_cases hlen : b.length ≤ encodeMax
    · cases memory with
      | true => exact .inr ⟨rfl, hlen, encode_bytes hlen⟩
      | false =>
        left
        simp [chttpBase64EncodeMp, Data.len, Nat.not_lt.mpr hlen, Out.alloc, bind, Except.bind]
    · left
      simp [chttpBase64EncodeMp, Data.len, Nat.not_le.mp hlen]
  match data with
  | .null 0 => exact hbytes []
  | .null (len + 1) => exact .inl rfl
  | .bytes b => exact hbytes b

theorem decode_cases (memory : Bool) (s : CString) :
    (∃ b, memory = true ∧ s.bytes = chttpBase64Encode b ∧ chttpBase64DecodeMp memory (some s) = .ok (decoded b)) ∨
    (memory = true → ∀ b, s.bytes ≠ chttpBase64Encode b) ∧ chttpBase64DecodeMp memory (some s) = .error .null := by
  have hfits := s.fits
  rw [sizeMax_eq] at hfits
  cases memory with
  | false =>
    refine .inr ⟨nofun, ?_⟩
    simp only [chttpBase64DecodeMp, Out.alloc, bind, Except.bind, Bool.false_eq_true, if_false]
    split
    · rfl
    · split <;> rfl
  | true =>
    by_cases hzero : s.bytes.length = 0
    · refine .inl ⟨[], rfl, length_eq_zero_iff.mp hzero, ?_⟩
      simp only [chttpBase64DecodeMp, hzero, if_true]
      rfl
    · by_cases hmod : s.bytes.length % 4 = 0
      · have hpad := padOf_le s.bytes
        have hroom : sizeSub (sizeMul (s.bytes.length / 4) 3) (padOf s.bytes) = roomFor s.bytes := by
          rw [sizeMul_eq (by rw [sizeMax_eq]; omega)]
          exact sizeSub_eq (by omega) (by rw [sizeMax_eq]; omega)
        have hsize : sizeAdd (roomFor s.bytes) 1 = roomFor s.bytes + 1 := by
          refine sizeAdd_eq ?_
          rw [sizeMax_eq, roomFor]
          omega
        rcases decodeGroups_cases ⟨roomFor s.bytes + 1, []⟩ s.bytes hmod (by simp) with ⟨b, htext, hlen, hok⟩ | hnull
        · have hput := @Out.put_eq (Out.append ⟨roomFor s.bytes + 1, []⟩ b) (by simp [hlen]) 0
          refine .inl ⟨b, rfl, htext, ?_⟩
          simp only [chttpBase64DecodeMp, hzero, hmod, ne_eq, not_true_eq_false, if_false, hroom, hsize, Out.alloc, if_true, bind,
            Except.bind, hok, hput, decoded]
          rw [Out.append_append, Out.append, Out.append, nil_append, nil_append, hlen]
        · refine .inr ⟨?_, ?_⟩
          · rintro - b htext
            rw [htext, decodeGroups_encode _ b (by simp [roomFor_encode])] at hnull
            cases hnull
          · simp only [chttpBase64DecodeMp, hzero, hmod, ne_eq, not_true_eq_false, if_false, hroom, hsize, Out.alloc, if_true,
              bind, Except.bind, hnull]
      · refine .inr ⟨?_, ?_⟩
        · rintro - b htext
          rw [htext, length_encode] at hmod
          omega
        · simp only [chttpBase64DecodeMp, hzero, hmod, ne_eq, not_false_eq_true, if_false, if_true]

theorem encode_injective {b b' : List UInt8} (h : chttpBase64Encode b = chttpBase64Encode b') : b = b' := by
  have hlen : b.length = b'.length := by rw [← roomFor_encode, h, roomFor_encode]
  have hok := decodeGroups_encode ⟨b.length, []⟩ b (by simp)
  rw [h, decodeGroups_encode ⟨b.length, []⟩ b' (by simp [hlen])] at hok
  exact (congrArg Out.written (Except.ok.inj hok)).symm

theorem Group.canonical (h : Group rest.isEmpty chunk bytes) (hrest : Canonical rest) : Canonical (chunk ++ rest) := by
  generalize hlast : rest.isEmpty = lastGroup at h
  cases h with
  | full ha hb hc hd => exact .group ha hb hc hd hrest
  | pad ha hb hc hzero =>
    rw [isEmpty_iff.mp hlast]
    exact .pad ha hb hc hzero
  | padPad ha hb hzero =>
    rw [isEmpty_iff.mp hlast]
    exact .padPad ha hb hzero

theorem canonical_encode (b : List UInt8) : Canonical (chttpBase64Encode b) := by
  match b with
  | [] => exact .nil
  | [x] =>
    have hlast : Group true (chttpBase64Encode [x]) [x] := group_of_bytes (.inr ⟨rfl, by simp, by simp⟩)
    have hgroup := @Group.canonical [] _ _ hlast .nil
    rwa [append_nil] at hgroup
  | [x, y] =>
    have hlast : Group true (chttpBase64Encode [x, y]) [x, y] := group_of_bytes (.inr ⟨rfl, by simp, by simp⟩)
    have hgroup := @Group.canonical [] _ _ hlast .nil
    rwa [append_nil] at hgroup
  | x :: y :: z :: b => exact Group.canonical (@group_of_bytes [x, y, z] _ (.inl rfl)) (canonical_encode b)

theorem canonical_iff (s : List UInt8) : Canonical s ↔ ∃ b, s = chttpBase64Encode b := by
  constructor
  · intro h
    induction h with
    | nil => exact ⟨[], rfl⟩
    | @group a b c d rest ha hb hc hd _ ih =>
      obtain ⟨b', rfl⟩ := ih
      obtain ⟨hchunk, -⟩ := (@Group.full false _ _ _ _ ha hb hc hd).eq_encode
      refine ⟨bytesOf a b (some c) (some d) ++ b', ?_⟩
      rw [encode_append rfl, ← hchunk]
      rfl
    | pad ha hb hc hzero => exact ⟨_, (Group.pad ha hb hc hzero).eq_encode.1⟩
    | padPad ha hb hzero => exact ⟨_, (Group.padPad ha hb hzero).eq_encode.1⟩
  · rintro ⟨b, rfl⟩
    exact canonical_encode b

/-! ## Basic credentials -/

def userPass (username password : CString) : List UInt8 := username.bytes ++ 0x3A :: password.bytes

def credentials (username password : CString) : Out :=
  ⟨6 + (chttpBase64Encode (userPass username password)).length + 1,
    ascii "Basic " ++ chttpBase64Encode (userPass username password) ++ [0]⟩

theorem Out.snprintf_eq {size : Nat} {text : List UInt8} (hsize : size = text.length + 1) (hroom : out.size = size) :
    out.snprintf size text = .ok { out with written := text ++ [0] } := by
  rw [Out.snprintf, if_pos hroom.ge, hsize, Nat.add_sub_cancel, take_length]

theorem basicAuthLen_cases (mp : Memory) (username password : CString) :
    chttpBasicAuthLen mp username password = .error .null ∧
      ¬(mp.combined = true ∧ mp.b64 = true ∧ mp.out = true ∧ (userPass username password).length ≤ encodeMax) ∨
    chttpBasicAuthLen mp username password = .ok (credentials username password) := by
  have huser := username.fits
  have hpass := password.fits
  have htext : (userPass username password).length = username.bytes.length + 1 + password.bytes.length := by
    simp only [userPass, length_append, length_cons]
    omega
  rw [sizeMax_eq] at huser hpass
  have hsub : sizeSub sizeMax username.bytes.length = sizeMax - username.bytes.length :=
    sizeSub_eq (by rw [sizeMax_eq]; omega) (Nat.le_refl _)
  by_cases hguard : password.bytes.length > sizeMax - username.bytes.length ∨
      sizeAdd username.bytes.length password.bytes.length > sizeMax - 2
  · refine .inl ⟨?_, ?_⟩
    · simp only [chttpBasicAuthLen, hsub, Bool.or_eq_true, decide_eq_true_eq, hguard, if_true]
    · rintro ⟨-, -, -, hlen⟩
      rw [sizeMax_eq, sizeAdd] at hguard
      rw [encodeMax_eq] at hlen
      omega
  · have hsum : username.bytes.length + password.bytes.length ≤ 18446744073709551613 := by
      rw [sizeMax_eq, sizeAdd] at hguard
      omega
    have hone : sizeAdd username.bytes.length 1 = username.bytes.length + 1 := sizeAdd_eq (by rw [sizeMax_eq]; omega)
    have hcombined : sizeAdd (sizeAdd username.bytes.length 1) password.bytes.length = (userPass username password).length := by
      rw [hone, htext]
      exact sizeAdd_eq (by rw [sizeMax_eq]; omega)
    have hsize : sizeAdd (userPass username password).length 1 = (userPass username password).length + 1 :=
      sizeAdd_eq (by rw [sizeMax_eq]; omega)
    simp only [chttpBasicAuthLen, hsub, Bool.or_eq_true, decide_eq_true_eq, hguard, if_false, hcombined, hsize]
    cases hmem : mp.combined with
    | false => exact .inl ⟨rfl, fun h => Bool.noConfusion h.1⟩
    | true =>
      have hprint := @Out.snprintf_eq ⟨(userPass username password).length + 1, []⟩ _ (userPass username password) rfl rfl
      simp only [Out.alloc, if_true, bind, Except.bind]
      rw [show username.bytes ++ 0x3A :: password.bytes = userPass username password from rfl, hprint]
      dsimp only
      rw [take_left]
      rcases encode_cases mp.b64 (.bytes (userPass username password)) with hnull | ⟨hb64, hlen, hok⟩
      · refine .inl ⟨by rw [hnull], ?_⟩
        rintro ⟨-, hb64, -, hlen⟩
        rw [hb64, encode_bytes hlen] at hnull
        cases hnull
      · rw [hok]
        have htextLen := length_encode (userPass username password)
        have hnul : (chttpBase64Encode (userPass username password) ++ [0]).takeWhile (· ≠ 0) =
            chttpBase64Encode (userPass username password) := by
          have hne : ∀ c ∈ chttpBase64Encode (userPass username password), decide (c ≠ 0) = true := fun c hc =>
            decide_eq_true fun heq => encode_ne_nul (userPass username password) (heq ▸ hc)
          rw [takeWhile_append_of_pos hne]
          simp
        dsimp only [Data.content] at hlen
        rw [encodeMax_eq] at hlen
        have hauth : sizeAdd 6 (chttpBase64Encode (userPass username password)).length =
            6 + (chttpBase64Encode (userPass username password)).length := sizeAdd_eq (by rw [sizeMax_eq]; omega)
        have hauthSize : sizeAdd (6 + (chttpBase64Encode (userPass username password)).length) 1 =
            6 + (chttpBase64Encode (userPass username password)).length + 1 := sizeAdd_eq (by rw [sizeMax_eq]; omega)
        dsimp only [Data.content, encoded]
        rw [hauth, hauthSize, hnul]
        cases hout : mp.out with
        | false => exact .inl ⟨rfl, fun h => Bool.noConfusion h.2.2.1⟩
        | true =>
          right
          rw [if_pos rfl]
          dsimp only
          rw [Out.snprintf_eq (by rw [length_append]; rfl) rfl]
          rfl

theorem basicAuth_cases (mp : Memory) (username password : CString) :
    chttpBasicAuthMp mp (some username) (some password) = .error .null ∨
    Chttpclient.chttpBasicAuth username.bytes password.bytes =
        some (ascii "Basic " ++ chttpBase64Encode (userPass username password)) ∧
      chttpBasicAuthMp mp (some username) (some password) = .ok (credentials username password) := by
  simp only [chttpBasicAuthMp, Chttpclient.chttpBasicAuth, Bool.or_assoc, Bool.or_eq_true]
  by_cases hcolon : username.bytes.contains 0x3A = true
  · exact .inl (if_pos hcolon)
  · rw [if_neg hcolon]
    by_cases hctl : Chttpclient.chttpHasCtl username.bytes = true ∨ Chttpclient.chttpHasCtl password.bytes = true
    · exact .inl (if_pos hctl)
    · rw [if_neg hctl, if_neg (not_or.mpr ⟨hcolon, hctl⟩)]
      rcases basicAuthLen_cases mp username password with ⟨hnull, -⟩ | hok
      · exact .inl hnull
      · exact .inr ⟨rfl, hok⟩

theorem credentials_injective {u u' p p' : CString} (hu : 0x3A ∉ u.bytes) (hu' : 0x3A ∉ u'.bytes)
    (h : (credentials u p).written = (credentials u' p').written) : u = u' ∧ p = p' := by
  have htext : userPass u p = userPass u' p' := by
    have hcred := append_cancel_right h
    exact encode_injective (append_cancel_left hcred)
  have hstr : ∀ {s t : CString}, s.bytes = t.bytes → s = t := by
    rintro ⟨s, _, _⟩ ⟨t, _, _⟩ rfl
    rfl
  have huser : u.bytes = u'.bytes := by
    have htake : ∀ {v q : CString}, 0x3A ∉ v.bytes → (userPass v q).takeWhile (· ≠ 0x3A) = v.bytes := by
      intro v q hv
      have hne : ∀ c ∈ v.bytes, decide (c ≠ 0x3A) = true := fun c hc => decide_eq_true fun heq => hv (heq ▸ hc)
      rw [userPass, takeWhile_append_of_pos hne]
      simp
    rw [← htake hu, htext, htake hu']
  rw [userPass, userPass, huser] at htext
  exact ⟨hstr huser, hstr (List.cons.inj (append_cancel_left htext)).2⟩

end Ccollections.Chttp
