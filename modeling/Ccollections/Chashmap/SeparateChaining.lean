import Ccollections.Chashmap.Hashing
import Ccollections.Lib.Links
import Ccollections.Lib.Runs

/-!
# The separate-chaining backend of chashmap

Nodes are cells of a heap, named by numbers; a freed cell is `none`, and every pointer of the source is a
pointer here. A result of `none` of a whole operation is an access to a freed node, a walk that never ends, or
the in-block bucket array relinked into itself. Keys and values come by value; `aliased` says whether the
bytes of a value overlap the stored value they replace, which costs a snapshot.
-/

namespace Ccollections.Chashmap.Sc
open Lib Function

def inlineStorageThreshold : Nat := 23

def compactBucketArraySize : Nat := 4

def scaleFactor : Nat := 4

def scChainCap : Nat := 20

def scAttemptSlack : Nat := 64

structure LlistNode where
  hashVal : UInt64
  key : List UInt8
  val : List UInt8
  next : Option Nat
  /-- `dllist_refs.prev`. -/
  dllPrev : Option Nat
  /-- `dllist_refs.next`. -/
  dllNext : Option Nat
  deriving DecidableEq

abbrev Nodes := Nat → Option LlistNode

abbrev Buckets := Nat → Option Nat

/-- What a map is created with: its types, its procedures, its hashes, and the outcome of the `n`-th allocation. -/
structure ScProcs where
  keyType : DataType
  valType : DataType
  customKeyEqualityProc : Option (List UInt8 → List UInt8 → Bool)
  longDoubleKeysEqual : List UInt8 → List UInt8 → Bool
  hash : HashMode → List UInt8 → UInt64
  fate : Nat → Bool

def ScProcs.scCompareKeys (procs : ScProcs) (nodeKey key : List UInt8) : Bool :=
  if nodeKey.length ≠ key.length then false
  else if procs.keyType = .longDouble then procs.longDoubleKeysEqual nodeKey key
  else nodeKey = key

def ScProcs.keysEqual (procs : ScProcs) (nodeKey key : List UInt8) : Bool :=
  match procs.customKeyEqualityProc with
  | some customEq => customEq nodeKey key
  | none => procs.scCompareKeys nodeKey key

/-- The key equality is one, and it agrees with the hash. -/
structure ScParams extends ScProcs where
  separateChaining : customKeyEqualityProc.isSome ∨ shouldUseOpenAddressing keyType valType = false
  refl : ∀ a, toScProcs.keysEqual a a = true
  symm : ∀ a b, toScProcs.keysEqual a b = true → toScProcs.keysEqual b a = true
  trans : ∀ a b c, toScProcs.keysEqual a b = true → toScProcs.keysEqual b c = true → toScProcs.keysEqual a c = true
  agrees : ∀ mode a b, toScProcs.keysEqual a b = true → hash mode a = hash mode b

/-- `sep_chain_map` with the mode and the insert window of its `struct chashmap`, and the heap its nodes are in. -/
structure SepChainMap where
  nodes : Nodes
  /-- The cells from here on were never given out. -/
  nextNode : Nat
  bucketArr : Buckets
  bucketArrSize : Nat
  inlineBuckets : Nat
  /-- Whether `bucket_arr` is the array in the map's block. -/
  usesInline : Bool
  elemCount : Nat
  elemCountToScaleUp : Nat
  elemCountToScaleDown : Nat
  /-- `all_elems`. -/
  head : Option Nat
  tail : Option Nat
  hashMode : HashMode
  windowBound : Nat
  insertWindow : Nat
  allocs : Nat
  /-- A ghost, which no call reads: the restarts of the window and what `chmap_window_add` gave. -/
  windowLog : List WindowEvent

variable (p : ScParams)

def alloc (map : SepChainMap) : SepChainMap × Bool := ({ map with allocs := map.allocs + 1 }, p.fate map.allocs)

/-- `calloc` of a bucket array, which checks the product. -/
def callocBuckets (map : SepChainMap) (size : Nat) : SepChainMap × Bool :=
  if size * 8 > sizeMax then (map, false) else alloc p map

/-! ## The insertion-order list -/

def setNode (map : SepChainMap) (id : Nat) (node : LlistNode) : SepChainMap :=
  { map with nodes := update map.nodes id (some node) }

def attachNodeToDllist (map : SepChainMap) (id : Nat) : Option SepChainMap := do
  let node ← map.nodes id
  match map.head with
  | none => some { setNode map id { node with dllPrev := none, dllNext := none } with head := some id, tail := some id }
  | some head => do
    let map := setNode map id { node with dllPrev := none, dllNext := some head }
    let headNode ← map.nodes head
    some { setNode map head { headNode with dllPrev := some id } with head := some id }

/-- `next->prev = prev`, or the tail when there is no `next`. -/
def setPrev (map : SepChainMap) (next prev : Option Nat) : Option SepChainMap :=
  match next with
  | some next => (map.nodes next).map fun nextNode => setNode map next { nextNode with dllPrev := prev }
  | none => some { map with tail := prev }

/-- `prev->next = next`, or the head when there is no `prev`. -/
def setNext (map : SepChainMap) (prev next : Option Nat) : Option SepChainMap :=
  match prev with
  | some prev => (map.nodes prev).map fun prevNode => setNode map prev { prevNode with dllNext := next }
  | none => some { map with head := next }

def detachNodeFromDllist (map : SepChainMap) (id : Nat) : Option SepChainMap := do
  let node ← map.nodes id
  let map ← setPrev map node.dllNext node.dllPrev
  setNext map node.dllPrev node.dllNext

/-- `sc_destroy_llist_node` of a node on the list. -/
def scDestroyLlistNode (map : SepChainMap) (id : Nat) : Option SepChainMap := do
  let map ← detachNodeFromDllist map id
  some { map with nodes := update map.nodes id none }

/-- The allocations of `sc_create_llist_node`: the node, and buffers for what is not stored inline. -/
def scAllocNode (map : SepChainMap) (key val : List UInt8) : SepChainMap × Bool :=
  match alloc p map with
  | (map, false) => (map, false)
  | (map, true) =>
    match if key.length ≤ inlineStorageThreshold then (map, true) else alloc p map with
    | (map, false) => (map, false)
    | (map, true) => if val.length ≤ inlineStorageThreshold then (map, true) else alloc p map

def scCreateLlistNode (map : SepChainMap) (hashVal : UInt64) (key val : List UInt8) :
    Option (SepChainMap × Option Nat) :=
  match scAllocNode p map key val with
  | (map, false) => some (map, none)
  | (map, true) => do
    let id := map.nextNode
    let node : LlistNode :=
      { hashVal := hashVal, key := key, val := val, next := none, dllPrev := none, dllNext := none }
    let map ← attachNodeToDllist { setNode map id node with nextNode := id + 1 } id
    some (map, some id)

/-! ## Chains -/

def findLoop (nodes : Nodes) (hit : LlistNode → Bool) : Nat → Option Nat → Nat → Option (Option Nat × Nat)
  | _, none, met => some (none, met)
  | 0, some _, _ => none
  | fuel + 1, some id, met => do
    let node ← nodes id
    if hit node then some (some id, met) else findLoop nodes hit fuel node.next (met + 1)

def scChainLength (nodes : Nodes) : Nat → Option Nat → Nat → Option Nat
  | _, none, length => some length
  | 0, some _, _ => none
  | fuel + 1, some id, length => do
    let node ← nodes id
    scChainLength nodes fuel node.next (length + 1)

def hits (hashVal : UInt64) (key : List UInt8) (node : LlistNode) : Bool :=
  node.hashVal = hashVal && p.keysEqual node.key key

/-- `sc_find_in_llist`: the node, and the length of the chain when there is none. -/
def scFindInLlist (map : SepChainMap) (head : Option Nat) (hashVal : UInt64) (key : List UInt8) :
    Option (Option Nat × Nat) :=
  match p.customKeyEqualityProc with
  | some _ => do
    let (found, _) ← findLoop map.nodes (hits p hashVal key) map.nextNode head 0
    match found with
    | some id => some (some id, 0)
    | none => do
      let length ← scChainLength map.nodes map.nextNode head 0
      some (none, length)
  | none => findLoop map.nodes (hits p hashVal key) map.nextNode head 0

/-- `sc_reset_val_of_llist_node`: whether the value was stored. -/
def scResetValOfLlistNode (map : SepChainMap) (id : Nat) (val : List UInt8) (aliased : Bool) :
    Option (SepChainMap × Bool) := do
  let node ← map.nodes id
  match if aliased ∧ val.length > inlineStorageThreshold + 1 then alloc p map else (map, true) with
  | (map, false) => some (map, false)
  | (map, true) =>
    if val.length = node.val.length ∨ val.length ≤ inlineStorageThreshold then
      some (setNode map id { node with val := val }, true)
    else
      match alloc p map with
      | (map, false) => some (map, false)
      | (map, true) => some (setNode map id { node with val := val }, true)

/-- `sc_unlink_and_destroy`: the map and the new head of the chain. -/
def scUnlinkAndDestroy (map : SepChainMap) (head previous : Option Nat) (id : Nat) :
    Option (SepChainMap × Option Nat) := do
  let node ← map.nodes id
  match previous with
  | none => do
    let map ← scDestroyLlistNode map id
    some (map, node.next)
  | some previous => do
    let previousNode ← map.nodes previous
    let map ← scDestroyLlistNode (setNode map previous { previousNode with next := node.next }) id
    some (map, head)

/-- The walk of `sc_delete_from_llist`: the map, the new head and whether the key was found. -/
def scDeleteFromLlist (map : SepChainMap) (hit : LlistNode → Bool) (head : Option Nat) :
    Nat → Option Nat → Option Nat → Option (SepChainMap × Option Nat × Bool)
  | _, _, none => some (map, head, false)
  | 0, _, some _ => none
  | fuel + 1, previous, some id => do
    let node ← map.nodes id
    if hit node then do
      let (map, head) ← scUnlinkAndDestroy map head previous id
      some (map, head, true)
    else scDeleteFromLlist map hit head fuel (some id) node.next

def scDestroyTheWholeLlist : Nat → SepChainMap → Option Nat → Option SepChainMap
  | _, map, none => some map
  | 0, _, some _ => none
  | fuel + 1, map, some id => do
    let node ← map.nodes id
    let map ← scDestroyLlistNode map id
    scDestroyTheWholeLlist fuel map node.next

/-! ## Scaling limits and the insert window -/

def scSetScalingLimits (map : SepChainMap) : SepChainMap :=
  { map with
    elemCountToScaleUp := map.bucketArrSize + map.bucketArrSize / 2 + if map.bucketArrSize % 2 = 0 then 1 else 2
    elemCountToScaleDown := (map.bucketArrSize + 1) / 8 }

def scWindowBound (startCount scaleUp bucketCount : Nat) : Nat :=
  let judged :=
    if startCount < scaleUp ∧ scaleUp - startCount > chmapWindowInserts then startCount + chmapWindowInserts else scaleUp
  let lambda := chmapLoadQ16 judged bucketCount
  let bound := (1152 * lambda % 2 ^ 64) >>> 16 + 128
  if bound > 65535 then 65535 else bound

def scWindowRestart (map : SepChainMap) : SepChainMap :=
  { map with
    insertWindow := chmapWindowStart
    windowBound :=
      if map.hashMode = .keyed then 65535 else scWindowBound map.elemCount map.elemCountToScaleUp map.bucketArrSize
    windowLog := map.windowLog ++ [.restart] }

/-! ## Relinking -/

def scHashOfNode (node : LlistNode) (mode : HashMode) : UInt64 := p.hash mode node.key

def linkNode (size : Nat) (nodes : Nodes) (arr : Buckets) (id : Nat) (node : LlistNode) : Nodes × Buckets :=
  let index := hashIndexFor node.hashVal size
  (update nodes id (some { node with next := arr index }), update arr index (some id))

/-- The loop of `sc_switch_to_keyed`, from the oldest node on. -/
def switchLoop (size : Nat) : Nat → Option Nat → Nodes → Buckets → Option (Nodes × Buckets)
  | _, none, nodes, arr => some (nodes, arr)
  | 0, some _, _, _ => none
  | fuel + 1, some id, nodes, arr => do
    let node ← nodes id
    let (nodes, arr) := linkNode size nodes arr id { node with hashVal := scHashOfNode p node .keyed }
    switchLoop size fuel node.dllPrev nodes arr

def scSwitchToKeyed (map : SepChainMap) : Option SepChainMap := do
  let map := { map with hashMode := .keyed }
  let (nodes, arr) ← switchLoop p map.bucketArrSize map.nextNode map.tail map.nodes fun _ => none
  some (scWindowRestart { map with nodes := nodes, bucketArr := arr })

def scNoteLongChain (map : SepChainMap) : Option SepChainMap :=
  if map.hashMode ≠ .keyed then scSwitchToKeyed p map else some map

def scWindowEnd (map : SepChainMap) : Option SepChainMap :=
  let switchNow := map.hashMode = .fast ∧ map.insertWindow > map.windowBound
  let map := scWindowRestart map
  if switchNow then scSwitchToKeyed p map else some map

/-- The chain a fast attempt walks, up to `left` nodes of it. -/
def attemptChain (nodes : Nodes) : Nat → Option Nat → Nat → Option Nat
  | 0, _, chain => some chain
  | _ + 1, none, chain => some chain
  | left + 1, some id, chain => do
    let node ← nodes id
    attemptChain nodes left node.next (chain + 1)

/-- The counters of `CHMAP_RETRY_WORK`: the nodes an attempt hashed, the chain nodes it walked, and the nodes that got the
keyed hash back. Only `walked` decides anything, as it does in every build. -/
structure RetryWork where
  hashed : Nat
  walked : Nat
  restored : Nat

/-- The first loop of `sc_relink_fast_attempt`; the last value beside the work is the node it stopped at. -/
def attemptLoop (size budget : Nat) : Nat → Option Nat → Nodes → Buckets → RetryWork →
    Option ((Nodes × Buckets × Option Nat) × RetryWork)
  | _, none, nodes, arr, work => some ((nodes, arr, none), work)
  | 0, some _, _, _, _ => none
  | fuel + 1, some id, nodes, arr, work => do
    let node ← nodes id
    let node := { node with hashVal := scHashOfNode p node .fast }
    let nodes := update nodes id (some node)
    let chain ← attemptChain nodes (scChainCap - 1) (arr (hashIndexFor node.hashVal size)) 0
    let work := { work with hashed := work.hashed + 1, walked := work.walked + chain }
    if chain = scChainCap - 1 ∨ work.walked > budget then some ((nodes, arr, some id), work)
    else
      let (nodes, arr) := linkNode size nodes arr id node
      attemptLoop size budget fuel node.dllPrev nodes arr work

/-- The second loop of `sc_relink_fast_attempt`: the nodes up to `stop` get the keyed hash back. -/
def restoreLoop (size stop : Nat) : Nat → Option Nat → Bool → Nodes → Buckets → RetryWork →
    Option ((Nodes × Buckets) × RetryWork)
  | _, none, _, nodes, arr, work => some ((nodes, arr), work)
  | 0, some _, _, _, _, _ => none
  | fuel + 1, some id, holdsFast, nodes, arr, work => do
    let node ← nodes id
    let work := if holdsFast then { work with restored := work.restored + 1 } else work
    let node := if holdsFast then { node with hashVal := scHashOfNode p node .keyed } else node
    let holdsFast := if id = stop then false else holdsFast
    let (nodes, arr) := linkNode size nodes arr id node
    restoreLoop size stop fuel node.dllPrev holdsFast nodes arr work

/-- `sc_relink_fast_attempt` into a zeroed array, and whether the attempt held, with its counters. -/
def scRelinkFastAttemptWork (map : SepChainMap) (newSize : Nat) : Option ((Nodes × Buckets × Bool) × RetryWork) := do
  let ((nodes, arr, stop), work) ← attemptLoop p newSize (map.elemCount + scAttemptSlack) map.nextNode map.tail map.nodes
    (fun _ => none) ⟨0, 0, 0⟩
  match stop with
  | none => some ((nodes, arr, true), work)
  | some stop => do
    let ((nodes, arr), work) ← restoreLoop p newSize stop map.nextNode map.tail true nodes (fun _ => none) work
    some ((nodes, arr, false), work)

def scRelinkFastAttempt (map : SepChainMap) (newSize : Nat) : Option (Nodes × Buckets × Bool) :=
  (scRelinkFastAttemptWork p map newSize).map Prod.fst

/-- One old chain of `sc_scale`, with the nodes counted. -/
def relinkChain (newSize : Nat) : Nat → Option Nat → Nodes → Buckets → Nat → Option (Nodes × Buckets × Nat)
  | _, none, nodes, arr, merged => some (nodes, arr, merged)
  | 0, some _, _, _, _ => none
  | fuel + 1, some id, nodes, arr, merged => do
    let node ← nodes id
    let (nodes, arr) := linkNode newSize nodes arr id node
    relinkChain newSize fuel node.next nodes arr (merged + 1)

/-- The old chains of `sc_scale` from bucket `i` on, `left` of them, and the longest of the merged groups. -/
def relinkBuckets (newSize ratioMask : Nat) (old : Buckets) (fuel : Nat) :
    Nat → Nat → Nodes → Buckets → Nat → Nat → Option (Nodes × Buckets × Nat)
  | 0, _, nodes, arr, _, longest => some (nodes, arr, longest)
  | left + 1, i, nodes, arr, merged, longest => do
    let merged := if i &&& ratioMask = 0 then 0 else merged
    let (nodes, arr, merged) ← relinkChain newSize fuel (old i) nodes arr merged
    relinkBuckets newSize ratioMask old fuel left (i + 1) nodes arr merged (if merged > longest then merged else longest)

/-- The relink of `sc_scale` into its new array. -/
def scRelink (map : SepChainMap) (newSize : Nat) (up : Bool) : Option (SepChainMap × Nat) :=
  if up ∧ map.hashMode = .keyed then do
    let (nodes, arr, fast) ← scRelinkFastAttempt p map newSize
    some ({ map with nodes := nodes, bucketArr := arr, hashMode := if fast then .fast else map.hashMode }, 0)
  else do
    let ratioMask := if up then 0 else map.bucketArrSize / newSize - 1
    let (nodes, arr, longest) ←
      relinkBuckets newSize ratioMask map.bucketArr map.nextNode map.bucketArrSize 0 map.nodes (fun _ => none) 0 0
    some ({ map with nodes := nodes, bucketArr := arr }, longest)

/-- The size `sc_scale` goes to. -/
def scaledSize (bucketArrSize : Nat) (up : Bool) : Nat :=
  if up then bucketArrSize * scaleFactor
  else if bucketArrSize / scaleFactor < minimumAllowedBucketArraySize then minimumAllowedBucketArraySize
  else bucketArrSize / scaleFactor

def scScale (map : SepChainMap) (up : Bool) : Option SepChainMap :=
  if up ∧ map.bucketArrSize > ccolMaxPowerOfTwoSizeT / scaleFactor then some map
  else
    let newSize := scaledSize map.bucketArrSize up
    match if newSize = map.inlineBuckets then (map, true) else callocBuckets p map newSize with
    | (map, false) => some map
    | (map, true) =>
      if newSize = map.inlineBuckets ∧ map.usesInline then none
      else do
        let (map, longestMerged) ← scRelink p map newSize up
        let map := { map with bucketArrSize := newSize, usesInline := decide (newSize = map.inlineBuckets) }
        let map := scWindowRestart (scSetScalingLimits map)
        if !up ∧ longestMerged ≥ scChainCap ∧ map.hashMode ≠ .keyed then scSwitchToKeyed p map else some map

/-! ## Insert, get and delete -/

/-- What a call gives back: the value pair it fills, and the key pair for an insert-or-get-entry. -/
structure ScAnswer where
  ret : RetVal
  val : Option (List UInt8)
  key : Option (List UInt8)

/-- Which out parameters an insert has. -/
inductive Slots where
  | none
  | val
  | keyAndVal
  deriving DecidableEq

def fillSlots (slots : Slots) (ret : RetVal) (key val : List UInt8) : ScAnswer :=
  match slots with
  | .none => ⟨ret, none, none⟩
  | .val => ⟨ret, some val, none⟩
  | .keyAndVal => ⟨ret, some val, some key⟩

/-- What `sc_insert_impl` does once the new node is made, up to its look at the load. -/
def scLinkNewUnscaled (map : SepChainMap) (id index walk : Nat) : Option SepChainMap := do
  let node ← map.nodes id
  let map := setNode map id { node with next := map.bucketArr index }
  let map := { map with bucketArr := update map.bucketArr index (some id), elemCount := map.elemCount + 1 }
  let map ← (if walk ≥ scChainCap then scNoteLongChain p map else some map)
  let (window, ended) := chmapWindowAdd map.insertWindow walk
  let map := { map with
    insertWindow := window
    windowLog := map.windowLog ++ [.added map.hashMode walk window ended] }
  if ended then scWindowEnd p map else some map

def scLinkNew (map : SepChainMap) (id index walk : Nat) : Option SepChainMap := do
  let map ← scLinkNewUnscaled p map id index walk
  if map.elemCount ≥ map.elemCountToScaleUp then scScale p map true else some map

def scInsertImpl (map : SepChainMap) (key val : List UInt8) (slots : Slots) (aliased : Bool) :
    Option (SepChainMap × ScAnswer) := do
  let hashVal := p.hash map.hashMode key
  let index := hashIndexFor hashVal map.bucketArrSize
  let (existing, walk) ← scFindInLlist p map (map.bucketArr index) hashVal key
  match existing with
  | some id =>
    if slots = .none then do
      let (map, ok) ← scResetValOfLlistNode p map id val aliased
      some (map, ⟨if ok then .keyAlreadyPresent else .notEnoughMemory, none, none⟩)
    else do
      let node ← map.nodes id
      some (map, fillSlots slots .keyAlreadyPresent node.key node.val)
  | none =>
    if map.elemCount = ccolMaxElemCount then some (map, ⟨.containerFull, none, none⟩)
    else do
      let (map, newNode) ← scCreateLlistNode p map hashVal key val
      match newNode with
      | none => some (map, ⟨.notEnoughMemory, none, none⟩)
      | some id => do
        let map ← scLinkNew p map id index walk
        let node ← map.nodes id
        some (map, fillSlots slots .success node.key node.val)

def scInsertLinked (map : SepChainMap) (key val : List UInt8) : Option SepChainMap := do
  let hashVal := p.hash map.hashMode key
  let index := hashIndexFor hashVal map.bucketArrSize
  let (existing, walk) ← scFindInLlist p map (map.bucketArr index) hashVal key
  if existing.isSome ∨ map.elemCount = ccolMaxElemCount then none
  else do
    let (map, newNode) ← scCreateLlistNode p map hashVal key val
    let id ← newNode
    scLinkNewUnscaled p map id index walk

def scGet (map : SepChainMap) (key : List UInt8) : Option ScAnswer := do
  let hashVal := p.hash map.hashMode key
  let index := hashIndexFor hashVal map.bucketArrSize
  let (found, _) ← scFindInLlist p map (map.bucketArr index) hashVal key
  match found with
  | some id => do
    let node ← map.nodes id
    some ⟨.success, some node.val, none⟩
  | none => some ⟨.keyNotFound, none, none⟩

def scDelete (map : SepChainMap) (key : List UInt8) : Option (SepChainMap × RetVal) := do
  let hashVal := p.hash map.hashMode key
  let index := hashIndexFor hashVal map.bucketArrSize
  let (map, head, found) ←
    scDeleteFromLlist map (hits p hashVal key) (map.bucketArr index) map.nextNode none (map.bucketArr index)
  let map := { map with bucketArr := update map.bucketArr index head }
  if found then
    let map := { map with elemCount := map.elemCount - 1 }
    if map.elemCount < map.elemCountToScaleDown ∧ map.bucketArrSize > minimumAllowedBucketArraySize then do
      let map ← scScale p map false
      some (map, .success)
    else some (map, .success)
  else some (map, .keyNotFound)

/-! ## Reset -/

/-- The chains `sc_reset` destroys, `left` of them from bucket `i` on. -/
def destroyBuckets : Nat → Nat → SepChainMap → Option SepChainMap
  | 0, _, map => some map
  | left + 1, i, map => do
    let map ← scDestroyTheWholeLlist map.nextNode map (map.bucketArr i)
    destroyBuckets left (i + 1) { map with bucketArr := update map.bucketArr i none }

/-- The last lines of `sc_reset`, on both of its ways out. -/
def scCleared (map : SepChainMap) : SepChainMap :=
  scWindowRestart (scSetScalingLimits { map with bucketArr := fun _ => none, elemCount := 0 })

def scReset (map : SepChainMap) (newBucketArraySize : Nat) : Option (SepChainMap × RetVal) := do
  let map ← destroyBuckets map.bucketArrSize 0 map
  if newBucketArraySize > 0 ∧ newBucketArraySize ≠ map.bucketArrSize then
    if newBucketArraySize > sizeMax / 8 then some (scCleared map, .notEnoughMemory)
    else
      match if newBucketArraySize = map.inlineBuckets then (map, true) else alloc p map with
      | (map, false) => some (scCleared map, .notEnoughMemory)
      | (map, true) =>
        if newBucketArraySize = map.inlineBuckets ∧ map.usesInline then none
        else
          some (scCleared { map with
            bucketArrSize := newBucketArraySize, usesInline := decide (newBucketArraySize = map.inlineBuckets) }, .success)
  else some (scCleared map, .success)

/-! ## The public calls on a separate-chaining map -/

/-- `sc_init`, with the map's block just made. -/
def scInit (map : SepChainMap) (bucketArrSize : Nat) : Option SepChainMap :=
  match if bucketArrSize = map.inlineBuckets then (map, true) else callocBuckets p map bucketArrSize with
  | (_, false) => none
  | (map, true) =>
    some (scWindowRestart (scSetScalingLimits { map with
      bucketArr := fun _ => none, bucketArrSize := bucketArrSize,
      usesInline := decide (bucketArrSize = map.inlineBuckets), elemCount := 0, head := none, tail := none }))

/-- `chmap_create_impl` of a separate-chaining map; the floor `scMinBuckets` is 16, or 4 for a compact map. -/
def chmapCreateImpl (initialBucketArraySize : UInt64) (scMinBuckets : Nat) : Option SepChainMap :=
  if initialBucketArraySize = 0 then none
  else
    let size :=
      if initialBucketArraySize.toNat ≤ scMinBuckets then scMinBuckets
      else ccolFindNearestGtePowerOfTwo initialBucketArraySize.toNat
    if size > ccolMaxElemCount then none
    else
      let inlineBuckets := if size ≤ minimumAllowedBucketArraySize then size else 0
      let map : SepChainMap :=
        { nodes := fun _ => none, nextNode := 0, bucketArr := fun _ => none, bucketArrSize := 0,
          inlineBuckets := inlineBuckets, usesInline := false, elemCount := 0, elemCountToScaleUp := 0,
          elemCountToScaleDown := 0, head := none, tail := none, hashMode := .fast, windowBound := 65535,
          insertWindow := chmapWindowStart, allocs := 0, windowLog := [] }
      match alloc p map with
      | (_, false) => none
      | (map, true) => scInit p map size

def chashmapCreateFull (initialBucketArraySize : UInt64) : Option SepChainMap :=
  chmapCreateImpl p initialBucketArraySize minimumAllowedBucketArraySize

def ccolChmapCreateCompact : Option SepChainMap := chmapCreateImpl p 4 compactBucketArraySize

/-- The size checks of `chmap_insert_elem_impl`. -/
def insertSizesOk (key val : List UInt8) : Bool :=
  key.length ≠ 0 && val.length ≠ 0 && keySizeMatchesTypeIfFixedWidth p.keyType key.length &&
    valSizeMatchesTypeIfFixedWidth p.valType val.length

def keySizeOk (key : List UInt8) : Bool := key.length ≠ 0 && keySizeMatchesTypeIfFixedWidth p.keyType key.length

def chmapInsertElemImpl (map : SepChainMap) (key val : List UInt8) (slots : Slots) (aliased : Bool) :
    Option (SepChainMap × ScAnswer) :=
  if !insertSizesOk p key val then some (map, ⟨.invalidArgs, none, none⟩)
  else scInsertImpl p map (canonicalizeKeyPairIfNeeded p.keyType key) val slots aliased

def chashmapGetElemRef (map : SepChainMap) (key : List UInt8) : Option ScAnswer :=
  if !keySizeOk p key then some ⟨.invalidArgs, none, none⟩ else scGet p map (canonicalizeKeyPairIfNeeded p.keyType key)

def chashmapDeleteElem (map : SepChainMap) (key : List UInt8) : Option (SepChainMap × RetVal) :=
  if !keySizeOk p key then some (map, .invalidArgs) else scDelete p map (canonicalizeKeyPairIfNeeded p.keyType key)

def chashmapReset (map : SepChainMap) (newBucketArraySize : UInt64) : Option (SepChainMap × RetVal) :=
  let n := newBucketArraySize.toNat
  if n > 0 ∧ n < minimumAllowedBucketArraySize then scReset p map minimumAllowedBucketArraySize
  else if n > 0 then
    let size := ccolFindNearestGtePowerOfTwo n
    if size > ccolMaxElemCount then (scReset p map 0).map fun (map, _) => (map, .notEnoughMemory)
    else scReset p map size
  else scReset p map n

inductive ScOp where
  | insertElem (key val : List UInt8) (aliased : Bool)
  | insertOrGetElem (key val : List UInt8)
  | insertOrGetEntry (key val : List UInt8)
  | getElemRef (key : List UInt8)
  | deleteElem (key : List UInt8)
  | reset (newBucketArraySize : UInt64)

def SepChainMap.step (map : SepChainMap) : ScOp → Option (SepChainMap × ScAnswer)
  | .insertElem key val aliased => chmapInsertElemImpl p map key val .none aliased
  | .insertOrGetElem key val => chmapInsertElemImpl p map key val .val false
  | .insertOrGetEntry key val => chmapInsertElemImpl p map key val .keyAndVal false
  | .getElemRef key => (chashmapGetElemRef p map key).map fun ans => (map, ans)
  | .deleteElem key => (chashmapDeleteElem p map key).map fun (map, ret) => (map, ⟨ret, none, none⟩)
  | .reset n => (chashmapReset p map n).map fun (map, ret) => (map, ⟨ret, none, none⟩)

end Ccollections.Chashmap.Sc
