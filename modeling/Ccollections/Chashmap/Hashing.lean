import Ccollections.Common.Basic

/-!
# The types and the adaptive hashing both backends of chashmap share

`size_t` has 64 bits, and the sizes of the C types are those of an LP64 platform.
-/

namespace Ccollections.Chashmap

inductive DataType where
  | char | short | int | long | longLong
  | unsignedChar | unsignedShort | unsignedInt | unsignedLong | unsignedLongLong
  | float | double | longDouble | pointer | string | otherTypes | signedChar
  deriving DecidableEq

def isTypeIntegral : DataType → Bool
  | .longDouble | .string | .otherTypes => false
  | _ => true

def getTypeSize : DataType → Nat
  | .char | .signedChar | .unsignedChar => 1
  | .short | .unsignedShort => 2
  | .int | .unsignedInt => 4
  | .long | .unsignedLong => 8
  | .longLong | .unsignedLongLong => 8
  | .pointer => 8
  | .float => 4
  | .double => 8
  | .longDouble => 16
  | _ => 8

def fixedWidthDataTypeSize : DataType → Nat
  | .char | .signedChar | .unsignedChar => 1
  | .short | .unsignedShort => 2
  | .int | .unsignedInt => 4
  | .long | .unsignedLong => 8
  | .longLong | .unsignedLongLong => 8
  | .float => 4
  | .double => 8
  | .longDouble => 16
  | .pointer => 8
  | .string | .otherTypes => 0

def shouldUseOpenAddressing (keyType valType : DataType) : Bool :=
  isTypeIntegral keyType && isTypeIntegral valType && decide (getTypeSize keyType ≤ 8) && decide (getTypeSize valType ≤ 8)

def keySizeMatchesTypeIfFixedWidth (keyType : DataType) (keySize : Nat) : Bool :=
  fixedWidthDataTypeSize keyType = 0 || keySize = fixedWidthDataTypeSize keyType

def valSizeMatchesTypeIfFixedWidth (valType : DataType) (valSize : Nat) : Bool :=
  fixedWidthDataTypeSize valType = 0 || valSize = fixedWidthDataTypeSize valType

/-- `canonicalize_key_pair_if_needed`: a negative zero becomes a positive one. Bytes are in little-endian order. -/
def canonicalizeKeyPairIfNeeded (keyType : DataType) (key : List UInt8) : List UInt8 :=
  if key.length > 8 then key
  else
    match keyType with
    | .float => if key.take 4 = [0, 0, 0, 0x80] then [0, 0, 0, 0] ++ key.drop 4 else key
    | .double => if key = [0, 0, 0, 0, 0, 0, 0, 0x80] then [0, 0, 0, 0, 0, 0, 0, 0] else key
    | _ => key

/-! ## Adaptive hashing -/

inductive HashMode where
  | fast
  | keyed
  deriving DecidableEq

def minimumAllowedBucketArraySize : Nat := 16

def chmapWindowStart : Nat := 0x80000000

def chmapWindowStep : Nat := 0x00800000

def chmapWindowInserts : Nat := 256

/-- `chmap_window_add`: the new window and whether the 32-bit sum carried. -/
def chmapWindowAdd (insertWindow walk : Nat) : Nat × Bool :=
  let sum := insertWindow + (chmapWindowStep + walk % 2 ^ 32) % 2 ^ 32
  (sum % 2 ^ 32, decide (2 ^ 32 ≤ sum))

/-- What a map notes of its insert window. -/
inductive WindowEvent where
  | restart
  /-- An insert of a new key in this mode, with its walk: the word after `chmap_window_add`, and its report. -/
  | added (mode : HashMode) (walk insertWindow : Nat) (ended : Bool)
  deriving DecidableEq

/-- `chmap_log2_pow2`, the trailing zeros of a power of two. -/
def chmapLog2Pow2 (capacity : Nat) : Nat := Nat.log2 capacity

def chmapLoadQ16 (count capacity : Nat) : Nat :=
  let k := chmapLog2Pow2 capacity
  if 16 ≤ k then count >>> (k - 16) else (count <<< (16 - k)) % 2 ^ 64

/-- `hash_index_for`; a capacity has `63 - log2 capacity` leading zeros. -/
def hashIndexFor (hashVal : UInt64) (capacity : Nat) : Nat := hashVal.toNat >>> (63 - Nat.log2 capacity + 1)

theorem hashIndexFor_lt {hashVal : UInt64} {k : Nat} (hk : 1 ≤ k) (hk' : k ≤ 63) : hashIndexFor hashVal (2 ^ k) < 2 ^ k := by
  have hlog : Nat.log2 (2 ^ k) = k := Nat.log2_two_pow
  rw [hashIndexFor, hlog, Nat.shiftRight_eq_div_pow]
  apply Nat.div_lt_of_lt_mul
  rw [← Nat.pow_add, show 63 - k + 1 + k = 64 by omega]
  exact hashVal.toNat_lt

end Ccollections.Chashmap
