import Mathlib.Algebra.Order.Ring.Nat
import Mathlib.Logic.Function.Basic

/-!
# The expansion of merge keys

A mapping is the list of its members in insertion order, and a pointer to an entry is the entry's key. There is memory for what a
merge brings in.
-/

namespace Ccollections.Cyaml

variable {κ ν : Type} [DecidableEq κ]

abbrev Members (κ ν : Type) := List (κ × ν)

/-- The value of a merge entry: a mapping, a sequence, of mappings and of nodes that are none, or another node. -/
inductive MergeVal (κ ν : Type) where
  | mapping (members : Members κ ν)
  | sequence (elems : List (Option (Members κ ν)))
  | other

/-- `_cyaml_merge_entry_t`. -/
structure MergeEntry (κ ν : Type) where
  val : MergeVal κ ν
  pos : Nat

/-- `merge_source_count` and `merge_source_at`. -/
def MergeVal.sources : MergeVal κ ν → List (Option (Members κ ν))
  | .mapping members => [some members]
  | .sequence elems => elems
  | .other => [none]

def holds (map : Members κ ν) (key : κ) : Bool := (map.lookup key).isSome

def mergeOneSourceInto (target source : Members κ ν) : Members κ ν :=
  source.foldl (fun target e => if holds target e.1 then target else target ++ [e]) target

/-! ## The order of the members -/

def nextEntry : Members κ ν → κ → Option κ
  | [], _ => none
  | (k, _) :: map, key => if k = key then map.head?.map Prod.fst else nextEntry map key

def mergeMoveToEnd : Nat → Option κ → Members κ ν → Members κ ν
  | count + 1, some key, map =>
    match map.lookup key with
    | some child => mergeMoveToEnd count (nextEntry map key) (map.filter (·.1 ≠ key) ++ [(key, child)])
    | none => map
  | _, _, map => map

/-- `_cyaml_merge_seg_t`. -/
structure MergeSeg (κ : Type) where
  explicitFirst : Option κ
  mergedFirst : Option κ
  mergedCount : Nat

/-- Where entry `i` stands, or the end behind the last one. -/
def posAt (entries : List (MergeEntry κ ν)) (explicitCount i : Nat) : Nat := (entries[i]?.map MergeEntry.pos).getD explicitCount

/-- The first entry with explicit members behind it, from `k` on. -/
def firstMoving (entries : List (MergeEntry κ ν)) (explicitCount : Nat) : Nat → Nat → Nat
  | 0, k => k
  | fuel + 1, k =>
    if posAt entries explicitCount (k + 1) > posAt entries explicitCount k then k
    else firstMoving entries explicitCount fuel (k + 1)

/-- The inner loops of the walk at index `idx`, whose entry is `key`. -/
def noteExplicit (pos : Nat → Nat) (n idx : Nat) (key : κ) : Nat → (Nat → MergeSeg κ) → Nat → (Nat → MergeSeg κ) × Nat
  | 0, seg, ei => (seg, ei)
  | fuel + 1, seg, ei =>
    if ei < n ∧ pos ei = idx then
      noteExplicit pos n idx key fuel (Function.update seg ei { seg ei with explicitFirst := some key }) (ei + 1)
    else (seg, ei)

def noteMerged (n idx : Nat) (key : κ) : Nat → (Nat → MergeSeg κ) → Nat → Nat → (Nat → MergeSeg κ) × Nat × Nat
  | 0, seg, mi, mergedAt => (seg, mi, mergedAt)
  | fuel + 1, seg, mi, mergedAt =>
    if mi < n ∧ mergedAt = idx then
      noteMerged n idx key fuel (Function.update seg mi { seg mi with mergedFirst := some key }) (mi + 1)
        (mergedAt + (seg mi).mergedCount)
    else (seg, mi, mergedAt)

def findSegs (pos : Nat → Nat) (n : Nat) : Members κ ν → Nat → (Nat → MergeSeg κ) → Nat → Nat → Nat → Nat → MergeSeg κ
  | [], _, seg, _, _, _ => seg
  | (key, _) :: map, idx, seg, ei, mi, mergedAt =>
    let (seg, ei) := noteExplicit pos n idx key n seg ei
    let (seg, mi, mergedAt) := noteMerged n idx key n seg mi mergedAt
    findSegs pos n map (idx + 1) seg ei mi mergedAt

/-- The moves of the segments from `i` on. -/
def moveSegs (pos : Nat → Nat) (seg : Nat → MergeSeg κ) (k : Nat) : Nat → Nat → Members κ ν → Members κ ν
  | 0, _, map => map
  | fuel + 1, i, map =>
    let map := if i > k then mergeMoveToEnd (seg i).mergedCount (seg i).mergedFirst map else map
    moveSegs pos seg k fuel (i + 1) (mergeMoveToEnd (pos (i + 1) - pos i) (seg i).explicitFirst map)

def mergeReorder (map : Members κ ν) (entries : List (MergeEntry κ ν)) (counts : List Nat) (explicitCount : Nat) : Members κ ν :=
  let n := entries.length
  let pos := posAt entries explicitCount
  let k := firstMoving entries explicitCount n 0
  if k = n then map
  else
    let seg := findSegs pos n map 0 (fun i => ⟨none, none, counts.getD i 0⟩) k (k + 1) (explicitCount + (counts.take (k + 1)).sum)
    moveSegs pos seg k (n - k) k map

/-! ## The members of the merge entries -/

def MergeEntry.members (e : MergeEntry κ ν) : Members κ ν := (e.val.sources.filterMap id).flatten

/-- The first pass over a source: a value for each key that has none yet and is no explicit member's. -/
def chooseWinners (map : Members κ ν) (winners : Members κ (Option ν)) (source : Members κ ν) : Members κ (Option ν) :=
  source.foldl (fun winners e => if holds map e.1 || holds winners e.1 then winners else winners ++ [(e.1, some e.2)]) winners

def placeMember (s : Members κ ν × Members κ (Option ν)) (e : κ × ν) : Members κ ν × Members κ (Option ν) :=
  match s.2.lookup e.1 with
  | none => (s.1, s.2 ++ [(e.1, none)])
  | some none => s
  | some (some win) => (s.1 ++ [(e.1, win)], s.2.map fun w => if w.1 = e.1 then (e.1, none) else w)

def placeEntries : List (MergeEntry κ ν) → Members κ ν × Members κ (Option ν) → Members κ ν × List Nat
  | [], s => (s.1, [])
  | e :: entries, s =>
    let s' := e.members.foldl placeMember s
    let (map, counts) := placeEntries entries s'
    (map, (s'.1.length - s.1.length) :: counts)

/-- The path of `merge_apply` for several entries. -/
def mergeSeveral (map : Members κ ν) (entries : List (MergeEntry κ ν)) : Members κ ν :=
  let winners := entries.reverse.foldl (fun winners e => chooseWinners map winners e.members) []
  let (placed, counts) := placeEntries entries (map, winners)
  mergeReorder placed entries counts map.length

/-- The path of `merge_apply` for one entry. -/
def mergeOne (map : Members κ ν) (e : MergeEntry κ ν) : Members κ ν :=
  let placed := (e.val.sources.filterMap id).foldl mergeOneSourceInto map
  mergeReorder placed [e] [placed.length - map.length] map.length

/-- `merge_apply`. `none` is a source that is no mapping. -/
def mergeApply (map : Members κ ν) (entries : List (MergeEntry κ ν)) : Option (Members κ ν) :=
  if entries.any fun e => e.val.sources.any Option.isNone then none
  else
    match entries with
    | [e] => some (mergeOne map e)
    | _ => some (mergeSeveral map entries)

/-! ## The entries of a mapping -/

/-- An entry as it is written. -/
inductive Entry (κ ν : Type) where
  | member (key : κ) (value : ν)
  | merge (val : MergeVal κ ν)

/-- `dictionary_set_impl`. -/
def dictionarySet (map : Members κ ν) (key : κ) (value : ν) : Members κ ν :=
  if holds map key then map.map fun e => if e.1 = key then (key, value) else e else map ++ [(key, value)]

def takeEntry (f : Members κ ν × List (MergeEntry κ ν)) : Entry κ ν → Members κ ν × List (MergeEntry κ ν)
  | .member key value => (dictionarySet f.1 key value, f.2)
  | .merge val => (f.1, f.2 ++ [⟨val, f.1.length⟩])

def readMapping (entries : List (Entry κ ν)) : Option (Members κ ν) :=
  let (map, merges) := entries.foldl takeEntry ([], [])
  if merges.isEmpty then some map else mergeApply map merges

/-! ## The mapping that is meant -/

def keys (map : Members κ ν) : List κ := map.map Prod.fst

/-- The value that a key gets from the entries: the later entry's, and in an entry the earlier source's. -/
def winner (entries : List (MergeEntry κ ν)) (key : κ) : Option ν := (entries.reverse.flatMap MergeEntry.members).lookup key

def placedBy (win : κ → Option ν) : List κ → List κ → Members κ ν
  | _, [] => []
  | seen, key :: rest =>
    if key ∈ seen then placedBy win seen rest else (win key).toList.map (key, ·) ++ placedBy win (seen ++ [key]) rest

def placedLists (win : κ → Option ν) : List κ → List (MergeEntry κ ν) → List (Members κ ν)
  | _, [] => []
  | seen, e :: entries =>
    let placed := placedBy win seen (keys e.members)
    placed :: placedLists win (seen ++ keys placed) entries

/-- The explicit members between entry `i` and the next one. -/
def between (map : Members κ ν) (pos : Nat → Nat) (i : Nat) : Members κ ν := (map.drop (pos i)).take (pos (i + 1) - pos i)

def expanded (map : Members κ ν) (entries : List (MergeEntry κ ν)) : Members κ ν :=
  let pos := posAt entries map.length
  let placed := placedLists (winner entries) (keys map) entries
  map.take (pos 0) ++ (List.range entries.length).flatMap fun i => placed.getD i [] ++ between map pos i

end Ccollections.Cyaml
