import Ccollections.Chashmap.Hashing
import Ccollections.Lib.LinearProbe
import Ccollections.Lib.Runs

/-!
# The open-addressing backend of chashmap

A table is a function from slot indices; a slot without `SLOT_OCCUPIED` is `none`. A result of `none` of a
whole operation is a failed assertion or a fill that never ends. Keys and values come by value: every path of
the source copies the bytes of its arguments before it overwrites a slot they may point into.
-/

namespace Ccollections.Chashmap
open Lib Function

/-- `oa_slot`: two words of eight bytes. -/
structure OaSlot where
  keyData : List UInt8
  valData : List UInt8
  deriving DecidableEq

/-- What a map is created with: its types, its hashes, and the outcome of the `n`-th allocation of a table. -/
structure OaParams where
  keyType : DataType
  valType : DataType
  openAddressing : shouldUseOpenAddressing keyType valType = true
  hash : HashMode → List UInt8 → UInt64
  fate : Nat → Bool

/-- `open_addr_map` with the mode and the window of its `struct chashmap`, and the number of allocations so far. -/
structure OpenAddrMap where
  slots : Nat → Option OaSlot
  capacity : Nat
  probeSpan : Nat
  count : Nat
  hashMode : HashMode
  windowBound : Nat
  insertWindow : Nat
  allocs : Nat
  /-- A ghost, which no call reads: the restarts of the window and what `chmap_window_add` gave. -/
  windowLog : List WindowEvent

variable (p : OaParams)

def OaParams.keySize : Nat := getTypeSize p.keyType

def OaParams.valSize : Nat := getTypeSize p.valType

/-- `hash_key_data`, which reads `key_size` bytes. -/
def hashKeyData (mode : HashMode) (key : List UInt8) : UInt64 := p.hash mode (key.take p.keySize)

/-- `oa_widen_key`, and the bytes of a slot's word after a `memset` and a copy into it. -/
def oaWidenKey (bytes : List UInt8) : List UInt8 := bytes.take 8 ++ List.replicate (8 - bytes.length) 0

/-- `(index + 1) & (capacity - 1)`. -/
def nextIndex (capacity index : Nat) : Nat := (index + 1) &&& (capacity - 1)

/-- `(a - b) & (capacity - 1)` on `size_t`. -/
def maskedSub (capacity a b : Nat) : Nat := ((a + 2 ^ 64 - b) % 2 ^ 64) &&& (capacity - 1)

/-! ## Blocks, caps and the insert window -/

def oaDeepInsert : Nat := 32

/-- `oa_alloc_block`: whether there is a zeroed block of this many slots. -/
def oaAllocBlock (map : OpenAddrMap) (capacity : Nat) : OpenAddrMap × Bool :=
  if capacity = 0 ∨ capacity > sizeMax / 17 then (map, false)
  else ({ map with allocs := map.allocs + 1 }, p.fate map.allocs)

def oaMinProbeSpan (capacity : Nat) : Nat := if capacity < oaDeepInsert then capacity else oaDeepInsert

def oaInsertCap (capacity : Nat) : Nat :=
  let k := chmapLog2Pow2 capacity
  24 * if k < 12 then k else 12

def oaMaxCount (capacity : Nat) : Nat := (capacity / 10) * 7 + ((capacity % 10) * 7) / 10 + 1

def oaWindowBound (startCount capacity : Nat) : Nat :=
  let limit := oaMaxCount capacity
  let judged :=
    if startCount < limit ∧ limit - startCount > chmapWindowInserts then startCount + chmapWindowInserts else limit
  let a := chmapLoadQ16 judged capacity
  let a := if a > 65535 then 65535 else a
  let d := 65536 - a
  let d2 := d * d
  let mul := if capacity ≥ 4096 then 640 else 768
  let bound := mul * (2 ^ 32 - d2) / d2 + 128
  if bound > 65535 then 65535 else bound

def oaWindowRestart (map : OpenAddrMap) : OpenAddrMap :=
  { map with
    insertWindow := chmapWindowStart
    windowBound := if map.hashMode = .keyed then 65535 else oaWindowBound map.count map.capacity
    windowLog := map.windowLog ++ [.restart] }

/-! ## Rebuilding -/

def OpenAddrMap.live (map : OpenAddrMap) : List OaSlot := entries map.capacity map.slots

/-- The probe of a fill, which has no bound of its own: `none` when it comes around. -/
def fillProbe (slots : Nat → Option OaSlot) (capacity : Nat) : Nat → Nat → Option Nat
  | 0, _ => none
  | fuel + 1, index =>
    if (slots index).isSome then fillProbe slots capacity fuel (nextIndex capacity index) else some index

/-- One entry of `oa_place_all`: the table and the largest displacement so far. -/
def oaPlaceOne (mode : HashMode) (newCapacity : Nat) (acc : (Nat → Option OaSlot) × Nat) (slot : OaSlot) :
    Option ((Nat → Option OaSlot) × Nat) := do
  let home := hashIndexFor (hashKeyData p mode slot.keyData) newCapacity
  let index ← fillProbe acc.1 newCapacity newCapacity home
  let displacement := maskedSub newCapacity index home
  some (update acc.1 index (some slot), if displacement > acc.2 then displacement else acc.2)

/-- `oa_place_all` into a zeroed table. -/
def oaPlaceAll (mode : HashMode) (newCapacity : Nat) (live : List OaSlot) : Option ((Nat → Option OaSlot) × Nat) :=
  live.foldlM (oaPlaceOne p mode newCapacity) (fun _ => none, 0)

/-- The probe of a fast attempt; `work` counts the slots it looks at. -/
def attemptProbe (slots : Nat → Option OaSlot) (capacity : Nat) : Nat → Nat → Nat → Nat → Option (Nat × Nat) × Nat
  | left, index, displacement, work =>
    if (slots index).isSome then
      match left with
      | 0 => (none, work + 1)
      | left + 1 => attemptProbe slots capacity left (nextIndex capacity index) (displacement + 1) (work + 1)
    else (some (index, displacement), work + 1)

/-- The loop of `oa_place_all_fast_attempt`, with its work. -/
def attemptLoop (newCapacity cap budget : Nat) : List OaSlot → (Nat → Option OaSlot) → Nat → Nat → Nat →
    ((Nat → Option OaSlot) × Nat) × Nat
  | [], slots, largest, _, work => ((slots, largest), work)
  | slot :: live, slots, largest, sum, work =>
    let home := hashIndexFor (hashKeyData p .fast slot.keyData) newCapacity
    match attemptProbe slots newCapacity cap home 0 work with
    | (none, work) => ((slots, sizeMax), work)
    | (some (index, displacement), work) =>
      let slots := update slots index (some slot)
      let largest := if displacement > largest then displacement else largest
      let sum := sum + displacement
      if sum > budget then ((slots, sizeMax), work)
      else attemptLoop newCapacity cap budget live slots largest sum work

/-- `oa_place_all_fast_attempt` with the counter of `CHMAP_RETRY_WORK`; a largest displacement of `SIZE_MAX` says the
attempt was given up. -/
def oaPlaceAllFastAttemptWork (map : OpenAddrMap) (newCapacity : Nat) : ((Nat → Option OaSlot) × Nat) × Nat :=
  attemptLoop p newCapacity (oaInsertCap newCapacity) (map.count + 64) map.live (fun _ => none) 0 0 0

def oaPlaceAllFastAttempt (map : OpenAddrMap) (newCapacity : Nat) : (Nat → Option OaSlot) × Nat :=
  (oaPlaceAllFastAttemptWork p map newCapacity).1

def oaRebuild (map : OpenAddrMap) (newCapacity : Nat) (mode : HashMode) : Option (OpenAddrMap × RetVal) :=
  match oaAllocBlock p map newCapacity with
  | (map, false) => some (map, .notEnoughMemory)
  | (map, true) => do
    let (slots, largest) ←
      if mode = .fast ∧ map.hashMode = .keyed then some (oaPlaceAllFastAttempt p map newCapacity)
      else oaPlaceAll p mode newCapacity map.live
    let (slots, largest, mode) ←
      if mode = .fast ∧ largest > oaInsertCap newCapacity then do
        let (slots, largest) ← oaPlaceAll p .keyed newCapacity map.live
        some (slots, largest, HashMode.keyed)
      else some (slots, largest, mode)
    let span := oaMinProbeSpan newCapacity
    let map := { map with
      slots := slots
      capacity := newCapacity
      probeSpan := if largest + 1 > span then largest + 1 else span
      hashMode := mode }
    some (oaWindowRestart map, .success)

def oaRehashCapacityFor (liveAfterInsert : Nat) : Nat :=
  if liveAfterInsert > ccolMaxPowerOfTwoSizeT / 2 then ccolMaxPowerOfTwoSizeT
  else
    let wanted := ccolFindNearestGtePowerOfTwo (2 * liveAfterInsert)
    if wanted < minimumAllowedBucketArraySize then minimumAllowedBucketArraySize else wanted

def oaAboveGrowLoad (count capacity : Nat) : Bool :=
  if capacity ≤ sizeMax / 10 then count * 10 > capacity * 7
  else count > (capacity / 10) * 7 + ((capacity % 10) * 7) / 10

/-! ## Switching to the keyed mode -/

/-- The loop of `oa_find_stored_key`; running out of slots is its assertion. -/
def findStoredKeyLoop (map : OpenAddrMap) (key : List UInt8) : Nat → Nat → Option Nat
  | 0, _ => none
  | left + 1, index =>
    if (map.slots index).any (fun slot => slot.keyData = key) then some index
    else findStoredKeyLoop map key left (nextIndex map.capacity index)

def oaFindStoredKey (map : OpenAddrMap) (key : List UInt8) : Option Nat :=
  findStoredKeyLoop map key map.probeSpan (hashIndexFor (hashKeyData p map.hashMode key) map.capacity)

/-- `oa_switch_keeping`: the map and the new slot of the key that slot `index` held. -/
def oaSwitchKeeping (map : OpenAddrMap) (index : Nat) : Option (OpenAddrMap × Nat) := do
  let slot ← map.slots index
  let (map, ret) ← oaRebuild p map map.capacity .keyed
  if ret ≠ .success then some (map, index)
  else do
    let index ← oaFindStoredKey p map slot.keyData
    some (map, index)

def oaNoteDeepInsert (map : OpenAddrMap) (index displacement : Nat) : Option (OpenAddrMap × Nat) :=
  let map := if displacement ≥ map.probeSpan then { map with probeSpan := displacement + 1 } else map
  if map.hashMode ≠ .keyed ∧ displacement > oaInsertCap map.capacity then oaSwitchKeeping p map index
  else some (map, index)

def oaWindowEnd (map : OpenAddrMap) (index : Nat) : Option (OpenAddrMap × Nat) :=
  let switchNow := map.hashMode = .fast ∧ map.insertWindow > map.windowBound
  let map := oaWindowRestart map
  if switchNow then oaSwitchKeeping p map index else some (map, index)

/-! ## Insert -/

inductive Probe where
  /-- An empty slot ended the probe. -/
  | empty (index : Nat)
  /-- The key is in this slot. -/
  | hit (index : Nat)
  | exhausted (index : Nat)
  deriving DecidableEq

/-- The probe of `oa_insert_impl`, which ends when it is back at `startIndex`. -/
def insertProbe (map : OpenAddrMap) (probeKey : List UInt8) (startIndex : Nat) : Nat → Nat → Probe
  | 0, index => .exhausted index
  | fuel + 1, index =>
    match map.slots index with
    | none => .empty index
    | some slot =>
      if slot.keyData = probeKey then .hit index
      else
        let index := nextIndex map.capacity index
        if index ≠ startIndex then insertProbe map probeKey startIndex fuel index else .exhausted index

/-- The loop of `oa_find_insertion_slot`. -/
def insertionSlotLoop (map : OpenAddrMap) (startIndex : Nat) : Nat → Nat → Nat
  | 0, _ => map.capacity
  | fuel + 1, index =>
    if (map.slots index).isNone then index
    else
      let index := nextIndex map.capacity index
      if index ≠ startIndex then insertionSlotLoop map startIndex fuel index else map.capacity

def oaFindInsertionSlot (map : OpenAddrMap) (hashVal : UInt64) : Nat :=
  let index := hashIndexFor hashVal map.capacity
  insertionSlotLoop map index map.capacity index

/-- What the inserts do with the empty slot they found: the entry, and its displacement to the detection. -/
def oaWriteNew (map : OpenAddrMap) (key val : List UInt8) (index home : Nat) : Option (OpenAddrMap × Nat) := do
  let map := { map with
    slots := update map.slots index (some { keyData := oaWidenKey key, valData := oaWidenKey val })
    count := map.count + 1 }
  let displacement := maskedSub map.capacity index home
  let (map, index) ← (if displacement ≥ oaDeepInsert then oaNoteDeepInsert p map index displacement else some (map, index))
  let (window, ended) := chmapWindowAdd map.insertWindow displacement
  let map := { map with
    insertWindow := window
    windowLog := map.windowLog ++ [.added map.hashMode displacement window ended] }
  if ended then oaWindowEnd p map index else some (map, index)

/-- The bytes `oa_fill_val_pair` points the caller at. -/
def oaFillValPair (map : OpenAddrMap) (index : Nat) : Option (List UInt8) :=
  (map.slots index).map fun slot => slot.valData.take p.valSize

/-- What a call gives back; a get and an insert-or-get fill `val`. -/
structure OaAnswer where
  ret : RetVal
  val : Option (List UInt8)

def oaInsertWithGrowth (map : OpenAddrMap) (key val : List UInt8) (slotOut : Bool) (index home : Nat)
    (foundEmpty : Bool) : Option (OpenAddrMap × OaAnswer) := do
  let (map, ret) ← oaRebuild p map (oaRehashCapacityFor (map.count + 1)) .fast
  if ret = .success then
    let hashVal := hashKeyData p map.hashMode key
    let home := hashIndexFor hashVal map.capacity
    let index := oaFindInsertionSlot map hashVal
    if index ≥ map.capacity then some (map, ⟨.containerFull, none⟩)
    else do
      let (map, index) ← oaWriteNew p map key val index home
      some (map, ⟨.success, if slotOut then oaFillValPair p map index else none⟩)
  else if !foundEmpty then some (map, ⟨.notEnoughMemory, none⟩)
  else do
    let (map, index) ← oaWriteNew p map key val index home
    some (map, ⟨.success, if slotOut then oaFillValPair p map index else none⟩)

def oaOverwrite (map : OpenAddrMap) (index : Nat) (val : List UInt8) : OpenAddrMap :=
  { map with
    slots := update map.slots index
      ((map.slots index).map fun slot => { slot with valData := val ++ slot.valData.drop val.length }) }

/-- `oa_insert_impl`; `slotOut` is whether it got a pair to fill. -/
def oaInsertImpl (map : OpenAddrMap) (key val : List UInt8) (slotOut : Bool) : Option (OpenAddrMap × OaAnswer) :=
  let startIndex := hashIndexFor (hashKeyData p map.hashMode key) map.capacity
  match insertProbe map (oaWidenKey key) startIndex map.capacity startIndex with
  | .hit index =>
    if slotOut then some (map, ⟨.keyAlreadyPresent, oaFillValPair p map index⟩)
    else some (oaOverwrite map index val, ⟨.keyAlreadyPresent, none⟩)
  | .empty index =>
    if map.count = ccolMaxElemCount then some (map, ⟨.containerFull, none⟩)
    else if oaAboveGrowLoad map.count map.capacity ∧ map.capacity < ccolMaxPowerOfTwoSizeT then
      oaInsertWithGrowth p map key val slotOut index startIndex true
    else do
      let (map, index) ← oaWriteNew p map key val index startIndex
      some (map, ⟨.success, if slotOut then oaFillValPair p map index else none⟩)
  | .exhausted index =>
    if map.count = ccolMaxElemCount then some (map, ⟨.containerFull, none⟩)
    else if oaAboveGrowLoad map.count map.capacity ∧ map.capacity < ccolMaxPowerOfTwoSizeT then
      oaInsertWithGrowth p map key val slotOut index startIndex false
    else some (map, ⟨.containerFull, none⟩)

/-! ## Get and delete -/

/-- The probe of `oa_get` and `oa_delete`, which looks at `left` slots at most. -/
def spanProbe (map : OpenAddrMap) (probeKey : List UInt8) : Nat → Nat → Probe
  | 0, index => .exhausted index
  | left + 1, index =>
    match map.slots index with
    | none => .empty index
    | some slot =>
      if slot.keyData = probeKey then .hit index else spanProbe map probeKey left (nextIndex map.capacity index)

def oaGet (map : OpenAddrMap) (key : List UInt8) : OaAnswer :=
  let index := hashIndexFor (hashKeyData p map.hashMode key) map.capacity
  match spanProbe map (oaWidenKey key) map.probeSpan index with
  | .hit index => ⟨.success, oaFillValPair p map index⟩
  | .empty _ => ⟨.keyNotFound, none⟩
  | .exhausted _ => ⟨.keyNotFound, none⟩

/-- `oa_backward_shift_walk`, `none` when the fuel does not last. -/
def oaBackwardShiftWalk (capacity : Nat) (mode : HashMode) (span : Nat) :
    Nat → (Nat → Option OaSlot) → Nat → Nat → Option (Nat → Option OaSlot)
  | 0, _, _, _ => none
  | fuel + 1, slots, hole, j =>
    let j := nextIndex capacity j
    match slots j with
    | none => some slots
    | some slot =>
      let gap := maskedSub capacity j hole
      if gap ≥ span then some slots
      else
        let home := hashIndexFor (hashKeyData p mode slot.keyData) capacity
        if maskedSub capacity j home ≥ gap then
          oaBackwardShiftWalk capacity mode span fuel
            (update (update slots hole (some slot)) j none) j j
        else oaBackwardShiftWalk capacity mode span fuel slots hole j

def shiftFuel (capacity : Nat) : Nat := (capacity * capacity + 1) * capacity + 1

def oaBackwardShiftCloseGap (map : OpenAddrMap) (hole : Nat) : Option OpenAddrMap := do
  let slots ← oaBackwardShiftWalk p map.capacity map.hashMode map.probeSpan (shiftFuel map.capacity) map.slots hole hole
  some { map with slots := slots }

def oaDelete (map : OpenAddrMap) (key : List UInt8) : Option (OpenAddrMap × RetVal) :=
  let index := hashIndexFor (hashKeyData p map.hashMode key) map.capacity
  match spanProbe map (oaWidenKey key) map.probeSpan index with
  | .empty _ => some (map, .keyNotFound)
  | .exhausted _ => some (map, .keyNotFound)
  | .hit index => do
    let map := { map with slots := update map.slots index none }
    let map ← (if (map.slots (nextIndex map.capacity index)).isSome then oaBackwardShiftCloseGap p map index else some map)
    let map := { map with count := map.count - 1 }
    if map.count < map.capacity >>> 2 ∧ map.capacity > minimumAllowedBucketArraySize then do
      let (map, _) ← oaRebuild p map (map.capacity / 2) map.hashMode
      some (map, .success)
    else some (map, .success)

/-! ## Reset -/

def oaClearInPlace (map : OpenAddrMap) : OpenAddrMap :=
  oaWindowRestart { map with slots := fun _ => none, count := 0, probeSpan := oaMinProbeSpan map.capacity }

def oaReset (map : OpenAddrMap) (newCapacity : Nat) : OpenAddrMap × RetVal :=
  if newCapacity = 0 ∨ newCapacity = map.capacity then (oaClearInPlace map, .success)
  else
    match oaAllocBlock p map newCapacity with
    | (map, false) => (oaClearInPlace map, .notEnoughMemory)
    | (map, true) =>
      (oaWindowRestart { map with
        slots := fun _ => none, capacity := newCapacity, count := 0, probeSpan := oaMinProbeSpan newCapacity }, .success)

/-! ## The public calls on an open-addressing map -/

/-- `chmap_create_impl` of an open-addressing map; `blockFate` is the outcome of the map's own allocation. -/
def chmapCreateImpl (initialBucketArraySize : UInt64) (blockFate : Bool) : Option OpenAddrMap :=
  if initialBucketArraySize = 0 then none
  else
    let size :=
      if initialBucketArraySize.toNat ≤ minimumAllowedBucketArraySize then minimumAllowedBucketArraySize
      else ccolFindNearestGtePowerOfTwo initialBucketArraySize.toNat
    if size > ccolMaxElemCount then none
    else if !blockFate then none
    else
      let map : OpenAddrMap :=
        { slots := fun _ => none, capacity := size, probeSpan := oaMinProbeSpan size, count := 0, hashMode := .fast,
          windowBound := 65535, insertWindow := chmapWindowStart, allocs := 0, windowLog := [] }
      match oaAllocBlock p map size with
      | (_, false) => none
      | (map, true) => some (oaWindowRestart map)

/-- The size checks of `chmap_insert_elem_impl`. -/
def insertSizesOk (key val : List UInt8) : Bool :=
  key.length ≠ 0 && val.length ≠ 0 && keySizeMatchesTypeIfFixedWidth p.keyType key.length &&
    valSizeMatchesTypeIfFixedWidth p.valType val.length && val.length = p.valSize

def keySizeOk (key : List UInt8) : Bool := key.length ≠ 0 && keySizeMatchesTypeIfFixedWidth p.keyType key.length

def chmapInsertElemImpl (map : OpenAddrMap) (key val : List UInt8) (slotOut : Bool) : Option (OpenAddrMap × OaAnswer) :=
  if !insertSizesOk p key val then some (map, ⟨.invalidArgs, none⟩)
  else oaInsertImpl p map (canonicalizeKeyPairIfNeeded p.keyType key) val slotOut

def chashmapGetElemRef (map : OpenAddrMap) (key : List UInt8) : OaAnswer :=
  if !keySizeOk p key then ⟨.invalidArgs, none⟩ else oaGet p map (canonicalizeKeyPairIfNeeded p.keyType key)

def chashmapDeleteElem (map : OpenAddrMap) (key : List UInt8) : Option (OpenAddrMap × RetVal) :=
  if !keySizeOk p key then some (map, .invalidArgs) else oaDelete p map (canonicalizeKeyPairIfNeeded p.keyType key)

def chashmapReset (map : OpenAddrMap) (newBucketArraySize : UInt64) : OpenAddrMap × RetVal :=
  let n := newBucketArraySize.toNat
  if n > 0 ∧ n < minimumAllowedBucketArraySize then oaReset p map minimumAllowedBucketArraySize
  else if n > 0 then
    let size := ccolFindNearestGtePowerOfTwo n
    if size > ccolMaxElemCount then
      let (map, _) := oaReset p map 0
      (map, .notEnoughMemory)
    else oaReset p map size
  else oaReset p map n

inductive OaOp where
  | insertElem (key val : List UInt8)
  | insertOrGetElem (key val : List UInt8)
  | getElemRef (key : List UInt8)
  | deleteElem (key : List UInt8)
  | reset (newBucketArraySize : UInt64)

def OpenAddrMap.step (map : OpenAddrMap) : OaOp → Option (OpenAddrMap × OaAnswer)
  | .insertElem key val => chmapInsertElemImpl p map key val false
  | .insertOrGetElem key val => chmapInsertElemImpl p map key val true
  | .getElemRef key => some (map, chashmapGetElemRef p map key)
  | .deleteElem key => (chashmapDeleteElem p map key).map fun (map, ret) => (map, ⟨ret, none⟩)
  | .reset n => let (map, ret) := chashmapReset p map n; some (map, ⟨ret, none⟩)

end Ccollections.Chashmap
