import Ccollections.Lib.ByteHashes

/-!
# The byte hashes of chashmap

A read at a position gives nothing unless the input holds all its bytes.
-/

namespace Ccollections.Chashmap

open Lib

def load (input : List UInt8) (p n : Nat) : Option UInt64 :=
  if p + n ≤ input.length then some (leWord ((input.drop p).take n)) else none

def sipLoad64 (input : List UInt8) (p : Nat) : Option UInt64 := load input p 8

def sipLoad32 (input : List UInt8) (p : Nat) : Option UInt64 := load input p 4

def loadByte (input : List UInt8) (p : Nat) : Option UInt64 := load input p 1

def sipRotl (x b : UInt64) : UInt64 := x <<< b ||| x >>> (64 - b)

/-! ## SipHash-1-3 -/

def chmapSipround (v : SipState) : SipState :=
  let v0 := v.v0 + v.v1
  let v1 := sipRotl v.v1 13
  let v1 := v1 ^^^ v0
  let v0 := sipRotl v0 32
  let v2 := v.v2 + v.v3
  let v3 := sipRotl v.v3 16
  let v3 := v3 ^^^ v2
  let v0 := v0 + v3
  let v3 := sipRotl v3 21
  let v3 := v3 ^^^ v0
  let v2 := v2 + v1
  let v1 := sipRotl v1 17
  let v1 := v1 ^^^ v2
  let v2 := sipRotl v2 32
  ⟨v0, v1, v2, v3⟩

def chmapSipStateFromKey (k0 k1 : UInt64) : SipState :=
  ⟨k0 ^^^ 0x736F6D6570736575, k1 ^^^ 0x646F72616E646F6D, k0 ^^^ 0x6C7967656E657261, k1 ^^^ 0x7465646279746573⟩

def sipLoadTail (input : List UInt8) (p left : Nat) : Option UInt64 :=
  if left ≥ 4 then do
    return (← sipLoad32 input p) ||| (← sipLoad32 input (p + left - 4)) <<< UInt64.ofNat (8 * (left - 4))
  else if left = 0 then some 0
  else do
    return (← loadByte input p) ||| (← loadByte input (p + left >>> 1)) <<< UInt64.ofNat (8 * (left >>> 1)) |||
      (← loadByte input (p + left - 1)) <<< UInt64.ofNat (8 * (left - 1))

/-- The loop over the `blocks` words from `p` on. -/
def sipBlocks (input : List UInt8) : Nat → Nat → SipState → Option (Nat × SipState)
  | 0, p, v => some (p, v)
  | blocks + 1, p, v => do
    let m ← sipLoad64 input p
    let v := chmapSipround { v with v3 := v.v3 ^^^ m }
    sipBlocks input blocks (p + 8) { v with v0 := v.v0 ^^^ m }

def siphash13 (sipV : SipState) (input : List UInt8) : Option UInt64 := do
  let (p, v) ← sipBlocks input (input.length >>> 3) 0 sipV
  let b := UInt64.ofNat input.length <<< 56 ||| (← sipLoadTail input p (input.length &&& 7))
  let v := chmapSipround { v with v3 := v.v3 ^^^ b }
  let v := { v with v0 := v.v0 ^^^ b, v2 := v.v2 ^^^ 0xFF }
  let v := chmapSipround (chmapSipround (chmapSipround v))
  return v.v0 ^^^ v.v1 ^^^ v.v2 ^^^ v.v3

/-! ## XXH64 -/

def xxhP1 : UInt64 := 0x9E3779B185EBCA87
def xxhP2 : UInt64 := 0xC2B2AE3D27D4EB4F
def xxhP3 : UInt64 := 0x165667B19E3779F9
def xxhP4 : UInt64 := 0x85EBCA77C2B2AE63
def xxhP5 : UInt64 := 0x27D4EB2F165667C5

def xxhRound (acc input : UInt64) : UInt64 := sipRotl (acc + input * xxhP2) 31 * xxhP1

def xxhMergeRound (h v : UInt64) : UInt64 := (h ^^^ xxhRound 0 v) * xxhP1 + xxhP4

/-- The `do` loop over the stripes of 32 bytes from `p` on. -/
def xxhStripes (input : List UInt8) (limit p : Nat) (v : XxhLanes) : Option (Nat × XxhLanes) := do
  let v1 := xxhRound v.v1 (← sipLoad64 input p)
  let v2 := xxhRound v.v2 (← sipLoad64 input (p + 8))
  let v3 := xxhRound v.v3 (← sipLoad64 input (p + 16))
  let v4 := xxhRound v.v4 (← sipLoad64 input (p + 24))
  if p + 32 ≤ limit then xxhStripes input limit (p + 32) ⟨v1, v2, v3, v4⟩ else some (p + 32, ⟨v1, v2, v3, v4⟩)
termination_by limit - p

/-- The branch on the length at the start of `xxh64`. -/
def xxhStart (input : List UInt8) (seed : UInt64) : Option (Nat × UInt64) :=
  if input.length ≥ 32 then do
    let (p, v) ← xxhStripes input (input.length - 32) 0 ⟨seed + xxhP1 + xxhP2, seed + xxhP2, seed, seed - xxhP1⟩
    let h := sipRotl v.v1 1 + sipRotl v.v2 7 + sipRotl v.v3 12 + sipRotl v.v4 18
    return (p, xxhMergeRound (xxhMergeRound (xxhMergeRound (xxhMergeRound h v.v1) v.v2) v.v3) v.v4)
  else some (0, seed + xxhP5)

def xxhWords (input : List UInt8) (left p : Nat) (h : UInt64) : Option (Nat × Nat × UInt64) :=
  if left ≥ 8 then do
    let h := h ^^^ xxhRound 0 (← sipLoad64 input p)
    xxhWords input (left - 8) (p + 8) (sipRotl h 27 * xxhP1 + xxhP4)
  else some (left, p, h)
termination_by left

def xxhHalfWord (input : List UInt8) (left p : Nat) (h : UInt64) : Option (Nat × Nat × UInt64) :=
  if left ≥ 4 then do
    let h := h ^^^ (← sipLoad32 input p) * xxhP1
    return (left - 4, p + 4, sipRotl h 23 * xxhP2 + xxhP3)
  else some (left, p, h)

def xxhBytes (input : List UInt8) : Nat → Nat → UInt64 → Option UInt64
  | 0, _, h => some h
  | left + 1, p, h => do
    let h := h ^^^ (← loadByte input p) * xxhP5
    xxhBytes input left (p + 1) (sipRotl h 11 * xxhP1)

def xxh64 (input : List UInt8) (seed : UInt64) : Option UInt64 := do
  let (p, h) ← xxhStart input seed
  let (left, p, h) ← xxhWords input (input.length - p) p (h + UInt64.ofNat input.length)
  let (left, p, h) ← xxhHalfWord input left p h
  let h ← xxhBytes input left p h
  let h := h ^^^ h >>> 33
  let h := h * xxhP2
  let h := h ^^^ h >>> 29
  let h := h * xxhP3
  return h ^^^ h >>> 32

end Ccollections.Chashmap
