import Ccollections.Chttpclient.Url
import Ccollections.Common.Basic

/-!
# Base64 and Basic credentials

The functions as they fill the memory they allocate. `Chttpclient.chttpBase64Encode` says which text a byte string has.
-/

namespace Ccollections.Chttp

/-! ## Memory -/

/-- Why a function stops: it returns `NULL`, or it has stored past the end of what it allocated. -/
inductive Stop where
  | null
  | outOfBounds
  deriving DecidableEq

/-- An allocation of `size` bytes, and what is written to it from its start on. -/
structure Out where
  size : Nat
  written : List UInt8
  deriving DecidableEq

/-- `_ccol_mem_alloc`, which may have no memory. -/
def Out.alloc (memory : Bool) (size : Nat) : Except Stop Out := if memory then .ok ⟨size, []⟩ else .error .null

/-- `out[oi++] = c`. -/
def Out.put (o : Out) (c : UInt8) : Except Stop Out :=
  if o.written.length < o.size then .ok { o with written := o.written ++ [c] } else .error .outOfBounds

/-- `snprintf(out, n, ...)` for a text of bytes other than NUL. -/
def Out.snprintf (o : Out) (n : Nat) (text : List UInt8) : Except Stop Out :=
  if n ≤ o.size then .ok { o with written := text.take (n - 1) ++ [0] } else .error .outOfBounds

/-- A string that ends with a NUL, up to that NUL. -/
structure CString where
  bytes : List UInt8
  noNul : 0 ∉ bytes
  fits : bytes.length < sizeMax

/-- What a caller passes as `data` and `len`. -/
inductive Data where
  | null (len : Nat)
  | bytes (b : List UInt8)

def Data.len : Data → Nat
  | .null len => len
  | .bytes b => b.length

def Data.content : Data → List UInt8
  | .null _ => []
  | .bytes b => b

/-- The memory a function returns and what it stores in `*out_len`. -/
structure Result where
  out : Out
  outLen : Nat
  deriving DecidableEq

/-! ## Encoding -/

def gChttpBase64Alphabet : List UInt8 := ascii "ABCDEFGHIJKLMNOPQRSTUVWXYZabcdefghijklmnopqrstuvwxyz0123456789+/"

def digit (n : Nat) : UInt8 := gChttpBase64Alphabet.getD (n &&& 0x3F) 0

def encodeGroups (out : Out) : List UInt8 → Except Stop Out
  | a :: b :: c :: p => do
    let n := a.toNat <<< 16 ||| b.toNat <<< 8 ||| c.toNat
    let out ← out.put (digit (n >>> 18))
    let out ← out.put (digit (n >>> 12))
    let out ← out.put (digit (n >>> 6))
    let out ← out.put (digit n)
    encodeGroups out p
  | [a] => do
    let n := a.toNat <<< 16
    let out ← out.put (digit (n >>> 18))
    let out ← out.put (digit (n >>> 12))
    let out ← out.put 0x3D
    out.put 0x3D
  | [a, b] => do
    let n := a.toNat <<< 16 ||| b.toNat <<< 8
    let out ← out.put (digit (n >>> 18))
    let out ← out.put (digit (n >>> 12))
    let out ← out.put (digit (n >>> 6))
    out.put 0x3D
  | [] => .ok out

/-- The longest input that `chttp_base64_encode_mp` takes. -/
def encodeMax : Nat := sizeMax / 4 * 3 - 4

def chttpBase64EncodeMp (memory : Bool) (data : Data) : Except Stop Result :=
  match data with
  | .null (_ + 1) => .error .null
  | data => do
    if data.len > encodeMax then .error .null
    else
      let encLen := sizeMul (sizeAdd data.len 2 / 3) 4
      let out ← Out.alloc memory (sizeAdd encLen 1)
      let out ← encodeGroups out data.content
      let out ← out.put 0
      .ok ⟨out, encLen⟩

/-! ## Decoding -/

/-- The table `g_chttp_base64_decode_table`, where the bytes with -1 have no value. -/
def gChttpBase64DecodeTable (c : UInt8) : Option Nat :=
  if 0x41 ≤ c && c ≤ 0x5A then some (c.toNat - 0x41)
  else if 0x61 ≤ c && c ≤ 0x7A then some (26 + (c.toNat - 0x61))
  else if 0x30 ≤ c && c ≤ 0x39 then some (52 + (c.toNat - 0x30))
  else if c = 0x2B then some 62
  else if c = 0x2F then some 63
  else none

/-- The loop over the characters of a group from the one with index `k` on. Padding has no value. -/
def groupVals (lastGroup : Bool) (k : Nat) (seenPad : Bool) : List UInt8 → Except Stop (List (Option Nat))
  | [] => .ok []
  | c :: chunk =>
    if c = 0x3D then
      if !lastGroup || k < 2 then .error .null
      else (groupVals lastGroup (k + 1) true chunk).map (none :: ·)
    else if seenPad then .error .null
    else
      match gChttpBase64DecodeTable c with
      | none => .error .null
      | some v => (groupVals lastGroup (k + 1) false chunk).map (some v :: ·)

def spareBitsAreZero (v₁ : Nat) (v₂ v₃ : Option Nat) : Bool :=
  match v₂, v₃ with
  | none, _ => v₁ &&& 0x0F = 0
  | some v₂, none => v₂ &&& 0x03 = 0
  | some _, some _ => true

def decodeGroup (out : Out) (lastGroup : Bool) (chunk : List UInt8) : Except Stop Out := do
  let vals ← groupVals lastGroup 0 false chunk
  let v₀ := (vals.getD 0 none).getD 0
  let v₁ := (vals.getD 1 none).getD 0
  let v₂ := vals.getD 2 none
  let v₃ := vals.getD 3 none
  if !spareBitsAreZero v₁ v₂ v₃ then .error .null
  else
    let n := v₀ <<< 18 ||| v₁ <<< 12 ||| v₂.getD 0 <<< 6 ||| v₃.getD 0
    let out ← out.put (n >>> 16 &&& 0xFF).toUInt8
    let out ← if v₂.isSome then out.put (n >>> 8 &&& 0xFF).toUInt8 else .ok out
    if v₃.isSome then out.put (n &&& 0xFF).toUInt8 else .ok out

/-- The loop over the groups, of which `g == groups - 1` is the last one. -/
def decodeGroups (out : Out) : List UInt8 → Except Stop Out
  | a :: b :: c :: d :: input => do
    let out ← decodeGroup out input.isEmpty [a, b, c, d]
    decodeGroups out input
  | _ => .ok out

def padOf (input : List UInt8) : Nat :=
  if input.getD (input.length - 1) 0 = 0x3D then
    if input.length ≥ 2 && input.getD (input.length - 2) 0 = 0x3D then 2 else 1
  else 0

def chttpBase64DecodeMp (memory : Bool) (b64Input : Option CString) : Except Stop Result :=
  match b64Input with
  | none => .error .null
  | some input => do
    let inLen := input.bytes.length
    if inLen = 0 then
      let out ← Out.alloc memory 1
      let out ← out.put 0
      .ok ⟨out, 0⟩
    else if inLen % 4 ≠ 0 then .error .null
    else
      let decLen := sizeSub (sizeMul (inLen / 4) 3) (padOf input.bytes)
      let out ← Out.alloc memory (sizeAdd decLen 1)
      let out ← decodeGroups out input.bytes
      let oi := out.written.length
      let out ← out.put 0
      .ok ⟨out, oi⟩

/-! ## Basic credentials -/

/-- What the allocator has for the three requests of `_chttp_basic_auth_len`. -/
structure Memory where
  combined : Bool
  b64 : Bool
  out : Bool

/-- `_chttp_basic_auth_len` with the lengths of its strings. -/
def chttpBasicAuthLen (mp : Memory) (username password : CString) : Except Stop Out := do
  let userLen := username.bytes.length
  let passLen := password.bytes.length
  if passLen > sizeSub sizeMax userLen || sizeAdd userLen passLen > sizeMax - 2 then .error .null
  else
    let combinedLen := sizeAdd (sizeAdd userLen 1) passLen
    let combined ← Out.alloc mp.combined (sizeAdd combinedLen 1)
    let combined ← combined.snprintf (sizeAdd combinedLen 1) (username.bytes ++ 0x3A :: password.bytes)
    let b64 ← chttpBase64EncodeMp mp.b64 (.bytes (combined.written.take combinedLen))
    let authLen := sizeAdd 6 b64.outLen
    let out ← Out.alloc mp.out (sizeAdd authLen 1)
    out.snprintf (sizeAdd authLen 1) (ascii "Basic " ++ b64.out.written.takeWhile (· ≠ 0))

def chttpBasicAuthMp (mp : Memory) (username password : Option CString) : Except Stop Out :=
  match username, password with
  | some username, some password =>
    if username.bytes.contains 0x3A then .error .null
    else if Chttpclient.chttpHasCtl username.bytes || Chttpclient.chttpHasCtl password.bytes then .error .null
    else chttpBasicAuthLen mp username password
  | _, _ => .error .null

/-! ## Canonical texts -/

/-- The texts of RFC 4648 with padding, where the bits that no byte holds are zero. -/
inductive Canonical : List UInt8 → Prop
  | nil : Canonical []
  | group {a b c d : Nat} {rest : List UInt8} (ha : a < 64) (hb : b < 64) (hc : c < 64) (hd : d < 64) (hrest : Canonical rest) :
      Canonical (digit a :: digit b :: digit c :: digit d :: rest)
  | pad {a b c : Nat} (ha : a < 64) (hb : b < 64) (hc : c < 64) (hzero : c % 4 = 0) :
      Canonical [digit a, digit b, digit c, 0x3D]
  | padPad {a b : Nat} (ha : a < 64) (hb : b < 64) (hzero : b % 16 = 0) : Canonical [digit a, digit b, 0x3D, 0x3D]

end Ccollections.Chttp
