import Ccollections.Cvector.Cvector
import Ccollections.Lib.CStrings

/-!
# cstring: the buffer and the edits

Every operation runs on a heap of blocks and is stuck where the source would read or write outside a live block.
A `realloc` that succeeds leaves the buffer where it is or moves it, as `stays` says of each request.
-/

namespace Ccollections.Cstring
open Lib

def cstringMinimumCapacity : Nat := 16

/-- `struct cstring`. `container` is the block of the struct and `data` that of the character buffer. -/
structure Cstr where
  container : Nat
  data : Nat
  length : Nat
  capacity : Nat

def Cstr.addr (s : Cstr) (off : Nat) : Ptr := { block := s.data, off := off }

def cstringLengthFitsWithTerminator (length : Nat) : Bool := length ≠ ccolInvalidSize

/-- The capacity of a buffer for `needed` bytes, or `none` when no `size_t` can hold it. -/
def roundedCapacity (needed : Nat) : Option Nat :=
  let newCap := ccolFindNearestGtePowerOfTwo needed
  if newCap = ccolInvalidSize then none
  else if newCap < cstringMinimumCapacity then some cstringMinimumCapacity
  else some newCap

section

variable (stays : Nat → Bool) (h : Heap) (s : Cstr)

def cstringGrowTo (neededCapacity : Nat) : Option (Heap × Cstr × Bool) :=
  if neededCapacity ≤ s.capacity then some (h, s, true)
  else
    match roundedCapacity neededCapacity with
    | none => some (h, s, false)
    | some newCap =>
      match h.resize stays s.data newCap with
      | none => none
      | some (h, none) => some (h, s, false)
      | some (h, some data) => some (h, { s with data := data, capacity := newCap }, true)

/-- The offset of a pointer into the buffer, `alias_off` where it is not negative. -/
def Cstr.aliasOff (str : Ptr) : Option Nat :=
  if str.block = s.data ∧ str.off < s.capacity then some str.off else none

/-- What the edits do before they write: the buffer grows, and an alias is found again from its offset. -/
def growKeepingSource (str : Ptr) (neededCapacity : Nat) : Option (Heap × Cstr × Option Nat × Ptr × Bool) :=
  let aliasOff := s.aliasOff str
  match cstringGrowTo stays h s neededCapacity with
  | none => none
  | some (h, s, ok) => some (h, s, aliasOff, (match aliasOff with | some off => s.addr off | none => str), ok)

/-- The source after the bytes from `pos` on were moved right by `str_len`: an alias past `pos` went with them. -/
def shiftedSource (aliasOff : Option Nat) (pos strLen : Nat) (str : Ptr) : Ptr :=
  match aliasOff with
  | some off => if off > pos then s.addr (off + strLen) else str
  | none => str

def storeByte (off : Nat) (c : UInt8) : Option Heap := h.store (s.addr off) (fun _ => c) 1

def cstringAppend (str : Option Ptr) : Option (Heap × Cstr × RetVal) :=
  match str with
  | none => some (h, s, .invalidArgs)
  | some str => do
    let strLen ← h.strlen str
    if strLen = 0 then some (h, s, .success)
    else
      let newLen := sizeAdd s.length strLen
      if newLen < s.length ∨ !cstringLengthFitsWithTerminator newLen then some (h, s, .containerFull)
      else do
        let (h, s, _, str, ok) ← growKeepingSource stays h s str (sizeAdd newLen 1)
        if !ok then some (h, s, .notEnoughMemory)
        else do
          let h ← h.memcpy (s.addr s.length) str strLen
          let s := { s with length := newLen }
          let h ← storeByte h s s.length 0
          some (h, s, .success)

def cstringPrepend (str : Option Ptr) : Option (Heap × Cstr × RetVal) :=
  match str with
  | none => some (h, s, .invalidArgs)
  | some str => do
    let strLen ← h.strlen str
    if strLen = 0 then some (h, s, .success)
    else
      let newLen := sizeAdd s.length strLen
      if newLen < s.length ∨ !cstringLengthFitsWithTerminator newLen then some (h, s, .containerFull)
      else do
        let (h, s, aliasOff, str, ok) ← growKeepingSource stays h s str (sizeAdd newLen 1)
        if !ok then some (h, s, .notEnoughMemory)
        else do
          let h ← h.memmove (s.addr strLen) (s.addr 0) (sizeAdd s.length 1)
          let h ← h.memmove (s.addr 0) (shiftedSource s aliasOff 0 strLen str) strLen
          some (h, { s with length := newLen }, .success)

def cstringInsert (pos : Nat) (str : Option Ptr) : Option (Heap × Cstr × RetVal) :=
  match str with
  | none => some (h, s, .invalidArgs)
  | some str =>
    if pos > s.length then some (h, s, .invalidArgs)
    else do
      let strLen ← h.strlen str
      if strLen = 0 then some (h, s, .success)
      else
        let newLen := sizeAdd s.length strLen
        if newLen < s.length ∨ !cstringLengthFitsWithTerminator newLen then some (h, s, .containerFull)
        else do
          let (h, s, aliasOff, str, ok) ← growKeepingSource stays h s str (sizeAdd newLen 1)
          if !ok then some (h, s, .notEnoughMemory)
          else do
            let h ← h.memmove (s.addr (pos + strLen)) (s.addr pos) (sizeAdd (sizeSub s.length pos) 1)
            let h ← h.memmove (s.addr pos) (shiftedSource s aliasOff pos strLen str) strLen
            some (h, { s with length := newLen }, .success)

def cstringSet (str : Option Ptr) : Option (Heap × Cstr × RetVal) :=
  match str with
  | none => some (h, s, .invalidArgs)
  | some str => do
    let strLen ← h.strlen str
    if !cstringLengthFitsWithTerminator strLen then some (h, s, .containerFull)
    else do
      let (h, s, _, str, ok) ← growKeepingSource stays h s str (sizeAdd strLen 1)
      if !ok then some (h, s, .notEnoughMemory)
      else do
        let h ← h.memmove (s.addr 0) str (sizeAdd strLen 1)
        some (h, { s with length := strLen }, .success)

end

/-!
# cstring: replacement

One scan counts the occurrences, the length of the result is computed from the count, and a second scan writes the
result into a buffer of that length.
-/

/-- `compute_replace_new_length`; the source asserts that `count` is not 0. -/
def computeReplaceNewLength (origLength nlen rlen count : Nat) : Except RetVal Nat :=
  if rlen ≥ nlen then
    let added := sizeMul (sizeSub rlen nlen) count
    if added / count ≠ sizeSub rlen nlen then .error .containerFull
    else
      let newLen := sizeAdd origLength added
      if newLen < origLength ∨ !cstringLengthFitsWithTerminator newLen then .error .containerFull
      else .ok newLen
  else .ok (sizeSub origLength (sizeMul (sizeSub nlen rlen) count))

/-- The counting loop of `cstring_replace`. -/
def countLoop (h : Heap) (needle : Ptr) (nlen : Nat) : Nat → Ptr → Nat → Option Nat
  | 0, _, _ => none
  | fuel + 1, ptr, count => do
    match ← h.strstr ptr needle with
    | none => some count
    | some found => countLoop h needle nlen fuel { found with off := found.off + nlen } (sizeAdd count 1)

/-- The building loop of `cstring_replace`, with where it stopped in both buffers. -/
def buildLoop (needle replacement : Ptr) (nlen rlen : Nat) : Nat → Heap → Ptr → Ptr → Option (Heap × Ptr × Ptr)
  | 0, _, _, _ => none
  | fuel + 1, h, src, dst => do
    match ← h.strstr src needle with
    | none => some (h, src, dst)
    | some found => do
      let before := found.off - src.off
      let h ← h.memcpy dst src before
      let dst := { dst with off := dst.off + before }
      let h ← h.memcpy dst replacement rlen
      let dst := { dst with off := dst.off + rlen }
      buildLoop needle replacement nlen rlen fuel h { found with off := found.off + nlen } dst

/-- `cstring_replace`. Each scan finds at most one occurrence for every byte of the string. -/
def cstringReplace (h : Heap) (s : Cstr) : Option Ptr → Option Ptr → Option (Heap × Cstr × RetVal)
  | some needle, some replacement => do
    let first ← h.load needle 1
    if first 0 = 0 then some (h, s, .invalidArgs)
    else do
      let nlen ← h.strlen needle
      let rlen ← h.strlen replacement
      let count ← countLoop h needle nlen (s.length + 1) (s.addr 0) 0
      if count = 0 then some (h, s, .success)
      else
        match computeReplaceNewLength s.length nlen rlen count with
        | .error rv => some (h, s, rv)
        | .ok newLen =>
          match roundedCapacity (sizeAdd newLen 1) with
          | none => some (h, s, .containerFull)
          | some newCap =>
            match h.malloc newCap with
            | (h, none) => some (h, s, .notEnoughMemory)
            | (h, some newBuf) => do
              let (h, src, dst) ←
                buildLoop needle replacement nlen rlen (s.length + 1) h (s.addr 0) { block := newBuf, off := 0 }
              let tail ← h.strlen src
              let h ← h.memcpy dst src (sizeAdd tail 1)
              let h ← h.free s.data
              some (h, { s with data := newBuf, length := newLen, capacity := newCap }, .success)
  | _, _ => some (h, s, .invalidArgs)

/-!
# cstring: the search for the last occurrence

A string is the list of its bytes, which a null byte follows. Every read is looked at: a run that gives `none` read
outside a string or an entry of the failure table that was not written. `grants` gives the allocator's answer to each
request for a table.
-/

/-! ## Reads -/

def charAt (text : List UInt8) (i : Nat) : Option UInt8 := (text ++ [0])[i]?

/-- `n` bytes from an offset on. -/
def charsAt (text : List UInt8) (off n : Nat) : Option (List UInt8) :=
  if off + n ≤ text.length + 1 then some (((text ++ [0]).drop off).take n) else none

/-- The bytes from an offset on up to the first null byte, which `strlen` and `strstr` go through. -/
def stringFrom (text : List UInt8) (off : Nat) : Option (List UInt8) :=
  if off ≤ text.length then some ((text.drop off).takeWhile (· ≠ 0)) else none

/-- `_cstring_memrchr` over the first `n` bytes. -/
def cstringMemrchr (text : List UInt8) (c : UInt8) : Nat → Option (Option Nat)
  | 0 => some none
  | p + 1 => do
    let b ← charAt text p
    if b = c then some (some p) else cstringMemrchr text c p

/-! ## `cstring_rfind_linear` -/

def cstringRfindStackTableLen : Nat := 128

def sizeofSizeT : Nat := 8

def asksForTable (nlen : Nat) : Bool := cstringRfindStackTableLen < nlen && nlen ≤ sizeMax / sizeofSizeT

/-- The next entry of the table, which has room for `room` of them. -/
def failStore (room : Nat) (fail : List Nat) (k : Nat) : Option (List Nat) :=
  if fail.length < room then some (fail ++ [k]) else none

section

variable (needle : List UInt8) (nlen : Nat)

/-- The loop that falls back from a pattern byte other than `c`; its first argument bounds the rounds. -/
def fallBack (fail : List Nat) (c : UInt8) : Nat → Nat → Option Nat
  | 0, _ => none
  | rounds + 1, j =>
    if 0 < j then do
      let b ← charAt needle (sizeSub (sizeSub nlen 1) j)
      if c ≠ b then do
        let j ← fail[j - 1]?
        fallBack fail c rounds j
      else some j
    else some j

/-- The pattern bytes matched after `c`, of `j` matched before. -/
def matchChar (fail : List Nat) (c : UInt8) (j : Nat) : Option Nat := do
  let j ← fallBack needle nlen fail c (j + 1) j
  let b ← charAt needle (sizeSub (sizeSub nlen 1) j)
  some (if c = b then j + 1 else j)

/-- The loop that fills the table, from entry `q` on. -/
def fillFail (room q k : Nat) (fail : List Nat) : Option (List Nat) :=
  if q < nlen then do
    let c ← charAt needle (sizeSub (sizeSub nlen 1) q)
    let k ← matchChar needle nlen fail c k
    let fail ← failStore room fail k
    fillFail room (q + 1) k fail
  else some fail
termination_by nlen - q

def scanLinear (hay : List UInt8) (fail : List Nat) : Nat → Nat → Option (Option Nat)
  | 0, _ => some none
  | i + 1, j => do
    let c ← charAt hay i
    let j ← matchChar needle nlen fail c j
    if j = nlen then some (some i) else scanLinear hay fail i j

/-- The result and `table_ok`. -/
def cstringRfindLinear (hay : List UInt8) (limit : Nat) (granted : Bool) : Option (Nat × Bool) :=
  if nlen ≤ cstringRfindStackTableLen ∨ (asksForTable nlen ∧ granted) then do
    let room := if nlen ≤ cstringRfindStackTableLen then cstringRfindStackTableLen else nlen
    let fail ← failStore room [] 0
    let fail ← fillFail needle nlen room 1 0 fail
    let found ← scanLinear needle nlen hay fail limit 0
    some (found.getD ccolInvalidSize, true)
  else some (ccolInvalidSize, false)

end

/-! ## The backward scan -/

/-- What changes in `cstring_rfind_scan`, and the number of requests for a table so far. -/
structure RfindScan where
  charged : Nat
  budget : Bool
  requests : Nat

section

variable (hay needle : List UInt8) (nlen : Nat) (grants : Nat → Bool)

def cstringRfindCandidate (sc : RfindScan) (st : Nat) : Option (RfindScan × Option Nat) := do
  let there ← charsAt hay (st + 1) (nlen - 2)
  let wanted ← charsAt needle 1 (nlen - 2)
  if there = wanted then some (sc, some st)
  else
    let charged := sizeAdd sc.charged nlen
    if sc.budget ∧ charged > sizeMul 4 (sizeSub hay.length st) then do
      let requests := if asksForTable nlen then sc.requests + 1 else sc.requests
      let (r, tableOk) ← cstringRfindLinear needle nlen hay (st + nlen - 1) (grants sc.requests)
      if tableOk then some ({ sc with charged := charged, requests := requests }, some r)
      else some ({ charged := charged, budget := false, requests := requests }, none)
    else some ({ sc with charged := charged }, none)

/-- The lanes of `hit` below `k`, from the highest one down. -/
def cstringRfindBlock (hit : List Bool) (b : Nat) : Nat → RfindScan → Option (RfindScan × Option Nat)
  | 0, sc => some (sc, none)
  | k + 1, sc => do
    let lane ← hit[k]?
    if lane then do
      let (sc, settled) ← cstringRfindCandidate hay needle nlen grants sc (b + k)
      match settled with
      | some r => some (sc, some r)
      | none => cstringRfindBlock hit b k sc
    else cstringRfindBlock hit b k sc

/-- One compare of 16 lanes with the first byte and one, `tail` further on, with the last. -/
def filterLanes (first last : UInt8) (b : Nat) : Option (List Bool) := do
  let f ← charsAt hay b 16
  let l ← charsAt hay (b + (nlen - 1)) 16
  some (List.zipWith (fun x y => x = first && y = last) f l)

/-- Whether there are 64 positions below `pos` and none of them passes. -/
def wideMiss (first last : UInt8) (pos : Nat) : Option Bool :=
  if 64 ≤ pos then do
    let l0 ← filterLanes hay nlen first last (pos - 64)
    let l1 ← filterLanes hay nlen first last (pos - 64 + 16)
    let l2 ← filterLanes hay nlen first last (pos - 64 + 32)
    let l3 ← filterLanes hay nlen first last (pos - 64 + 48)
    some (!(l0.any id || l1.any id || l2.any id || l3.any id))
  else some false

/-- The 16 positions from `b` on. -/
def narrowBlock (first last : UInt8) (sc : RfindScan) (b : Nat) : Option (RfindScan × Option Nat) := do
  let hit ← filterLanes hay nlen first last b
  if hit.any id then cstringRfindBlock hay needle nlen grants hit b 16 sc else some (sc, none)

/-- The scalar loop over the positions below `pos`. -/
def scanTail (first last : UInt8) : Nat → RfindScan → Option Nat
  | 0, _ => some ccolInvalidSize
  | pos + 1, sc => do
    let f ← charAt hay pos
    if f = first then do
      let l ← charAt hay (pos + (nlen - 1))
      if l = last then do
        let (sc, settled) ← cstringRfindCandidate hay needle nlen grants sc pos
        match settled with
        | some r => some r
        | none => scanTail first last pos sc
      else scanTail first last pos sc
    else scanTail first last pos sc

/-- The main loop: every start position below `pos` is still untested. -/
def scanBlocks (first last : UInt8) (pos : Nat) (sc : RfindScan) : Option Nat :=
  if 16 ≤ pos then do
    let miss ← wideMiss hay nlen first last pos
    if miss then scanBlocks first last (pos - 64) sc
    else do
      let (sc, settled) ← narrowBlock hay needle nlen grants first last sc (pos - 16)
      match settled with
      | some r => some r
      | none => scanBlocks first last (pos - 16) sc
  else scanTail hay needle nlen grants first last pos sc
termination_by pos

end

/-! ## `cstring_rfind` -/

def cstringRfindShort : Nat := 256

/-- The offset of a pointer into the string, `ccol_invalid_size` for a null pointer. -/
def offsetOf (found : Option Nat) : Nat := found.getD ccolInvalidSize

section

variable (s needle : List UInt8) (grants : Nat → Bool)

def cstringRfindBackward : Option Nat := do
  let pattern ← stringFrom needle 0
  let nlen := pattern.length
  if nlen = 0 then some s.length
  else if nlen > s.length then some ccolInvalidSize
  else if nlen = 1 then do
    let c ← charAt needle 0
    let found ← cstringMemrchr s c s.length
    some (offsetOf found)
  else do
    let first ← charAt needle 0
    let last ← charAt needle (nlen - 1)
    scanBlocks s needle nlen grants first last (s.length - (nlen - 1)) { charged := 0, budget := true, requests := 0 }

/-- The loop over `strstr`; its first argument bounds the rounds. -/
def lastForward : Nat → Nat → Nat → Option Nat
  | 0, _, _ => none
  | rounds + 1, ptr, last => do
    let text ← stringFrom s ptr
    let pattern ← stringFrom needle 0
    match firstOccurrence pattern text with
    | none => some last
    | some i => lastForward rounds (ptr + i + 1) (ptr + i)

end

def cstringRfind (s : List UInt8) (needle : Option (List UInt8)) (grants : Nat → Bool) : Option Nat :=
  match needle with
  | none => some ccolInvalidSize
  | some needle =>
    if s.length ≥ cstringRfindShort then cstringRfindBackward s needle grants
    else do
      let c ← charAt needle 0
      if c = 0 then some s.length
      else do
        let c' ← charAt needle 1
        if c' = 0 then do
          let found ← cstringMemrchr s c s.length
          some (offsetOf found)
        else lastForward s needle (s.length + 1) 0 ccolInvalidSize

/-!
# cstring: creation, destruction and splitting

The tokens of a split are kept in a vector of handles: the blocks of the vector are those of the heap, and the handles
its buffer holds are kept as a list beside them.
-/

/-- `__cstring_destroy`; the buffer may still be a null pointer. -/
def cstringDestroy (h : Heap) (container : Nat) : Option Nat → Option Heap
  | none => h.free container
  | some data => do
    let h ← h.free data
    h.free container

/-- `cstring_create_from_span`. The procs of a string passed their check when the string was made. -/
def cstringCreateFromSpan (h : Heap) (initial : Ptr) (initLen : Nat) : Option (Heap × Except String Cstr) :=
  match h.malloc 1 with
  | (h, none) => some (h, .error "failed to allocate cstring container")
  | (h, some container) =>
    if !cstringLengthFitsWithTerminator initLen then do
      let h ← cstringDestroy h container none
      some (h, .error "initial string too large")
    else
      match roundedCapacity (sizeAdd initLen 1) with
      | none => do
        let h ← cstringDestroy h container none
        some (h, .error "initial string too large")
      | some initCap =>
        match h.malloc initCap with
        | (h, none) => do
          let h ← cstringDestroy h container none
          some (h, .error "failed to allocate cstring data buffer")
        | (h, some data) => do
          let s : Cstr := { container := container, data := data, length := initLen, capacity := initCap }
          let copied := if initLen > 0 then h.memcpy (s.addr 0) initial initLen else some h
          let h ← copied
          let h ← storeByte h s initLen 0
          some (h, .ok s)

/-! ## The vector of tokens -/

/-- `sizeof(cstr)`. -/
def sizeofCstr : Nat := 8

/-- A `cvec` of cstr handles. -/
structure CstrVector where
  container : Nat
  data : Nat
  capacity : Nat
  parts : List Cstr

/-- `cvector_create_full` for an element of `sizeof(cstr)` bytes. -/
def CstrVector.createFull (h : Heap) : Option (Heap × Except String CstrVector) :=
  match h.malloc 1 with
  | (h, none) => some (h, .error "failed to allocate vector container")
  | (h, some container) =>
    match h.malloc (sizeMul Cvector.ccolCvectorMinimumCapacity sizeofCstr) with
    | (h, none) => do
      let h ← h.free container
      some (h, .error "failed to allocate data container")
    | (h, some data) =>
      some (h, .ok { container := container, data := data, capacity := Cvector.ccolCvectorMinimumCapacity, parts := [] })

/-- `scale_the_cvector_size_up` for an element of `sizeof(cstr)` bytes. -/
def CstrVector.scaleUp (stays : Nat → Bool) (h : Heap) (v : CstrVector) : Option (Heap × CstrVector × RetVal) :=
  if v.capacity > ccolMaxElemCount / Cvector.ccolCvectorScalingFactor then some (h, v, .containerFull)
  else
    let newCapacity := sizeMul Cvector.ccolCvectorScalingFactor v.capacity
    if newCapacity > sizeMax / sizeofCstr then some (h, v, .containerFull)
    else
      match h.resize stays v.data (sizeMul newCapacity sizeofCstr) with
      | none => none
      | some (h, none) => some (h, v, .notEnoughMemory)
      | some (h, some data) => some (h, { v with data := data, capacity := newCapacity }, .success)

def CstrVector.pushBack (stays : Nat → Bool) (h : Heap) (v : CstrVector) (part : Cstr) : Option (Heap × CstrVector × RetVal) :=
  if v.parts.length = ccolMaxElemCount then some (h, v, .containerFull)
  else if v.parts.length < v.capacity then some (h, { v with parts := v.parts ++ [part] }, .success)
  else do
    match ← v.scaleUp stays h with
    | (h, v, .success) => some (h, { v with parts := v.parts ++ [part] }, .success)
    | (h, v, r) => some (h, v, r)

/-- The loop of `destroy_cstr_vector` over the tokens. -/
def destroyParts (h : Heap) : List Cstr → Option Heap
  | [] => some h
  | part :: parts => do
    let h ← cstringDestroy h part.container (some part.data)
    destroyParts h parts

def destroyCstrVector (h : Heap) (v : CstrVector) : Option Heap := do
  let h ← destroyParts h v.parts
  let h ← h.free v.data
  h.free v.container

/-! ## Splitting -/

section

variable (stays : Nat → Bool)

/-- One token made of the `len` bytes from `current` on and pushed, with everything destroyed where that fails. -/
def splitPart (h : Heap) (result : CstrVector) (current : Ptr) (len : Nat) (pushError : String) :
    Option (Heap × Except String CstrVector) := do
  match ← cstringCreateFromSpan h current len with
  | (h, .error e) => do
    let h ← destroyCstrVector h result
    some (h, .error e)
  | (h, .ok part) => do
    match ← result.pushBack stays h part with
    | (h, result, .success) => some (h, .ok result)
    | (h, result, _) => do
      let h ← cstringDestroy h part.container (some part.data)
      let h ← destroyCstrVector h result
      some (h, .error pushError)

/-- The loop of `cstring_split`: the vector it leaves and where the last token starts. -/
def splitLoop (delimiter : Ptr) (dlen : Nat) : Nat → Heap → CstrVector → Ptr → Option (Heap × Except String (CstrVector × Ptr))
  | 0, _, _, _ => none
  | fuel + 1, h, result, current => do
    match ← h.strstr current delimiter with
    | none => some (h, .ok (result, current))
    | some found => do
      match ← splitPart stays h result current (found.off - current.off)
        "failed to push split token into result vector" with
      | (h, .error e) => some (h, .error e)
      | (h, .ok result) => splitLoop delimiter dlen fuel h result { found with off := found.off + dlen }

/-- `cstring_split`; `.error` is a null pointer and the text it leaves in `*err`. -/
def cstringSplit (h : Heap) (s : Cstr) : Option Ptr → Option (Heap × Except String CstrVector)
  | none => some (h, .error "delimiter must be a non-empty string")
  | some delimiter => do
    let first ← h.load delimiter 1
    if first 0 = 0 then some (h, .error "delimiter must be a non-empty string")
    else do
      match ← CstrVector.createFull h with
      | (h, .error e) => some (h, .error e)
      | (h, .ok result) => do
        let dlen ← h.strlen delimiter
        match ← splitLoop stays delimiter dlen (s.length + 1) h result (s.addr 0) with
        | (h, .error e) => some (h, .error e)
        | (h, .ok (result, current)) =>
          splitPart stays h result current (sizeSub s.length current.off)
            "failed to push last split token into result vector"

end

end Ccollections.Cstring
