import Mathlib.Data.List.Perm.Subperm
import Ccollections.Chashmap.Lemmas.ScRelink
import Ccollections.Lib.Maps

/-!
# The operations of a separate-chaining map
-/

namespace Ccollections.Chashmap.Sc
open Lib Function List Option

variable {p : ScParams} {map map' : SepChainMap} {order : List Nat}
variable {node : LlistNode} {id : Nat} {order' : List Nat} {key : List UInt8}

def bindings (nodes : Nodes) (order : List Nat) : List (List UInt8 × List UInt8) :=
  order.filterMap fun id => (nodes id).map LlistNode.entry

theorem bindings_congr {nodes nodes' : Nodes}
    (h : ∀ id ∈ order, (nodes' id).map LlistNode.entry = (nodes id).map LlistNode.entry) :
    bindings nodes' order = bindings nodes order :=
  filterMap_congr h

theorem bindings_append (nodes : Nodes) (o₁ o₂ : List Nat) : bindings nodes (o₁ ++ o₂) = bindings nodes o₁ ++ bindings nodes o₂ :=
  filterMap_append

theorem bindings_cons {nodes : Nodes} (hnode : nodes id = some node) (order : List Nat) :
    bindings nodes (id :: order) = (node.key, node.val) :: bindings nodes order := by
  rw [bindings, filterMap_cons, hnode]
  rfl

theorem mem_bindings {nodes : Nodes} {e : List UInt8 × List UInt8} (h : e ∈ bindings nodes order) :
    ∃ id ∈ order, ∃ node, nodes id = some node ∧ e = (node.key, node.val) := by
  obtain ⟨id, hid, heq⟩ := mem_filterMap.mp h
  obtain ⟨node, hnode, rfl⟩ := map_eq_some_iff.mp heq
  exact ⟨id, hid, node, hnode, rfl⟩

structure ScOk (p : ScParams) (map : SepChainMap) (order : List Nat) : Prop where
  ordered : Ordered map.nodes map.head map.tail order
  linked : Linked map.nodes map.bucketArr map.bucketArrSize order
  alive : ∀ id, (map.nodes id).isSome → id ∈ order
  hash : ∀ id ∈ order, ∀ node, map.nodes id = some node → node.hashVal = p.hash map.hashMode node.key
  distinct : OrderedMap.Distinct p.keysEqual (bindings map.nodes order)
  count : map.elemCount = order.length
  fresh : ∀ id ∈ order, id < map.nextNode
  size : SizeOk map.bucketArrSize
  inline : map.usesInline = true → map.bucketArrSize = map.inlineBuckets

theorem ScOk.length_le (hm : ScOk p map order) : order.length ≤ map.nextNode := by
  have hsub : order ⊆ List.range map.nextNode := fun id hid => mem_range.mpr (hm.fresh id hid)
  have hle := (subperm_of_subset hm.ordered.nodup hsub).length_le
  rwa [length_range] at hle

theorem ScOk.bindings_length (hm : ScOk p map order) : (bindings map.nodes order).length = order.length := by
  rw [bindings, filterMap_length_eq_length]
  intro id hid
  rw [isSome_map]
  exact hm.ordered.live id hid

theorem ScOk.windowRestart (hm : ScOk p map order) : ScOk p (scWindowRestart map) order :=
  ⟨hm.ordered, hm.linked, hm.alive, hm.hash, hm.distinct, hm.count, hm.fresh, hm.size, hm.inline⟩

theorem ScOk.scalingLimits (hm : ScOk p map order) : ScOk p (scSetScalingLimits map) order :=
  ⟨hm.ordered, hm.linked, hm.alive, hm.hash, hm.distinct, hm.count, hm.fresh, hm.size, hm.inline⟩

theorem ScOk.setWindow (hm : ScOk p map order) (w : Nat) (log : List WindowEvent) :
    ScOk p { map with insertWindow := w, windowLog := log } order :=
  ⟨hm.ordered, hm.linked, hm.alive, hm.hash, hm.distinct, hm.count, hm.fresh, hm.size, hm.inline⟩

/-- The window is a new one, and the log says so. -/
def Restarted (map map' : SepChainMap) : Prop :=
  map'.insertWindow = chmapWindowStart ∧ map'.windowLog = map.windowLog ++ [.restart]

theorem ScOk.setAllocs (hm : ScOk p map order) (n : Nat) : ScOk p { map with allocs := n } order :=
  ⟨hm.ordered, hm.linked, hm.alive, hm.hash, hm.distinct, hm.count, hm.fresh, hm.size, hm.inline⟩

theorem ScOk.relinked (hm : ScOk p map order) {mode : HashMode} {size : Nat} {nodes' : Nodes} {arr' : Buckets}
    (h : Relinked p mode size map.nodes nodes' arr' order) (hsize : SizeOk size) {usesInline : Bool}
    (hinline : usesInline = true → size = map.inlineBuckets) :
    ScOk p { map with nodes := nodes', bucketArr := arr', bucketArrSize := size, hashMode := mode, usesInline := usesInline }
      order where
  ordered := hm.ordered.congr fun id _ => place_of_core (h.core id)
  linked := h.linked
  alive := fun id hid => hm.alive id (isSome_of_map (h.core id) ▸ hid)
  hash := h.hash
  distinct := bindings_congr (fun id _ => entry_of_core (h.core id)) ▸ hm.distinct
  count := hm.count
  fresh := hm.fresh
  size := hsize
  inline := hinline

theorem keyHashes_eq_map (p : ScParams) (mode : HashMode) (nodes : Nodes) (order : List Nat) :
    keyHashes p mode nodes order = ((bindings nodes order).map Prod.fst).map (p.hash mode) := by
  rw [keyHashes, bindings, map_filterMap, map_filterMap]
  congr 1
  funext id
  cases nodes id <;> rfl

def Short (p : ScParams) (map : SepChainMap) (order : List Nat) : Prop :=
  map.hashMode = .fast → ∀ i < map.bucketArrSize, load map.bucketArrSize (keyHashes p .fast map.nodes order) i ≤ scChainCap

theorem Short.of_keyed (h : map.hashMode = .keyed) : Short p map order := by
  intro hfast
  rw [h] at hfast
  cases hfast

theorem Short.of_sublist (h : Short p map order) (hmode : map'.hashMode = map.hashMode)
    (hsize : map'.bucketArrSize = map.bucketArrSize)
    (hsub : ((bindings map'.nodes order').map Prod.fst).Sublist ((bindings map.nodes order).map Prod.fst)) :
    Short p map' order' := by
  intro hfast i hi
  rw [hmode] at hfast
  rw [hsize] at hi ⊢
  refine Nat.le_trans ?_ (h hfast i hi)
  rw [keyHashes_eq_map, keyHashes_eq_map]
  exact (hsub.map _).countP_le

/-- The same nodes in the same order with the same keys and values; chains that were short still are. -/
structure Kept (p : ScParams) (map map' : SepChainMap) (order : List Nat) : Prop where
  ok : ScOk p map' order
  core : ∀ id, (map'.nodes id).map LlistNode.core = (map.nodes id).map LlistNode.core
  short : Short p map order → Short p map' order

theorem Kept.refl (hm : ScOk p map order) : Kept p map map order := ⟨hm, fun _ => rfl, id⟩

theorem Kept.trans {map'' : SepChainMap} (h : Kept p map map' order) (h' : Kept p map' map'' order) : Kept p map map'' order :=
  ⟨h'.ok, fun id => (h'.core id).trans (h.core id), h'.short ∘ h.short⟩

/-! ## Switching and scaling -/

theorem scSwitchToKeyed_spec (hm : ScOk p map order) :
    ∃ map', scSwitchToKeyed p map = some map' ∧ Kept p map map' order ∧ map'.hashMode = .keyed := by
  obtain ⟨nodes', arr', hloop, hlink⟩ := switchLoop_spec hm.size (Linking.start p .keyed map.bucketArrSize map.nodes)
    hm.ordered.prev hm.ordered.live (by simpa using hm.ordered.nodup) hm.length_le
  rw [append_nil] at hlink
  refine ⟨_, by simp only [scSwitchToKeyed, hloop, bind_eq_bind, bind_some]; rfl, ⟨?_, hlink.core, fun _ => .of_keyed rfl⟩, rfl⟩
  exact (hm.relinked hlink.toRelinked hm.size hm.inline).windowRestart

theorem scNoteLongChain_spec (hm : ScOk p map order) :
    ∃ map', scNoteLongChain p map = some map' ∧ Kept p map map' order ∧ map'.hashMode = .keyed := by
  rw [scNoteLongChain]
  split
  · exact scSwitchToKeyed_spec hm
  · rename_i hkeyed
    exact ⟨map, rfl, .refl hm, not_not.mp hkeyed⟩

theorem scWindowEnd_spec (hm : ScOk p map order) : ∃ map', scWindowEnd p map = some map' ∧ Kept p map map' order := by
  simp only [scWindowEnd]
  split
  · obtain ⟨map', hswitch, hkept, -⟩ := scSwitchToKeyed_spec hm.windowRestart
    exact ⟨map', hswitch, hkept.ok, hkept.core, hkept.short⟩
  · exact ⟨_, rfl, hm.windowRestart, fun _ => rfl, id⟩

theorem scRelinkFastAttempt_spec (hm : ScOk p map order) (hmode : map.hashMode = .keyed) {newSize : Nat} (hsize : SizeOk newSize) :
    ∃ nodes' arr' fast, scRelinkFastAttempt p map newSize = some (nodes', arr', fast) ∧
      Relinked p (if fast then .fast else .keyed) newSize map.nodes nodes' arr' order ∧
      (fast = true → ∀ i, load newSize (keyHashes p .fast map.nodes order) i ≤ scChainCap) := by
  obtain ⟨nodes₁, arr₁, stop, work, hattempt, hend⟩ := attemptLoop_spec hsize (map.elemCount + scAttemptSlack) ⟨0, 0, 0⟩
    (Linking.start p .fast newSize map.nodes) hm.ordered.prev hm.ordered.live (by simpa using hm.ordered.nodup) hm.length_le
    (fun _ => by simp [load, keyHashes, scChainCap])
  simp only [scRelinkFastAttempt, scRelinkFastAttemptWork, hattempt, bind_eq_bind, bind_some]
  rcases hend with ⟨rfl, hlink, hload⟩ | ⟨r₁, id, r₂, rfl, hsplit, hcore, hframe⟩
  · rw [append_nil] at hlink hload
    exact ⟨nodes₁, arr₁, true, rfl, hlink.toRelinked, fun _ i => Nat.le_of_lt (hload i)⟩
  · -- the nodes the attempt did not reach still hold the keyed hash
    have hord := hm.ordered.congr fun id _ => place_of_core (hcore id)
    have hlen := hm.length_le
    have hhash : ∀ b ∈ r₂, ∀ node, nodes₁ b = some node → node.hashVal = p.hash .keyed node.key := by
      intro b hb node hnode
      rw [hframe b hb] at hnode
      rw [← hmode]
      exact hm.hash b (hsplit ▸ mem_append_right _ (mem_cons_of_mem _ hb)) node hnode
    rw [hsplit] at hord hlen
    obtain ⟨nodes', arr', work', hrestore, hlink⟩ := restoreLoop_spec hsize work (Linking.start p .keyed newSize nodes₁) hord.prev hord.live
      (by simpa using hord.nodup) hhash hlen
    rw [append_nil, ← hsplit] at hlink
    refine ⟨nodes', arr', false, by simp only [hrestore, bind_some, map_some], ⟨fun b => (hlink.core b).trans (hcore b), ?_, ?_⟩,
      fun h => by cases h⟩
    · exact hlink.linked
    · exact hlink.hash

def measured (p : ScParams) (map : SepChainMap) (order : List Nat) (newSize : Nat) (up : Bool) : Nat :=
  longestOf (if up then 0 else map.bucketArrSize / newSize - 1)
    (load map.bucketArrSize (keyHashes p map.hashMode map.nodes order)) map.bucketArrSize 0 0 0

theorem scRelink_spec (hm : ScOk p map order) {newSize : Nat} (hsize : SizeOk newSize) (up : Bool) :
    ∃ nodes' arr' mode' longest,
      scRelink p map newSize up = some ({ map with nodes := nodes', bucketArr := arr', hashMode := mode' }, longest) ∧
      Relinked p mode' newSize map.nodes nodes' arr' order ∧
      ((up = true ∧ (mode' = .fast → ∀ i, load newSize (keyHashes p .fast map.nodes order) i ≤ scChainCap)) ∨
        (mode' = map.hashMode ∧ longest = measured p map order newSize up)) := by
  rw [scRelink]
  split
  · rename_i hup
    obtain ⟨nodes', arr', fast, hattempt, hlink, hload⟩ := scRelinkFastAttempt_spec hm hup.2 hsize
    simp only [hattempt, bind_eq_bind, bind_some]
    refine ⟨nodes', arr', if fast then .fast else map.hashMode, 0, rfl, by rwa [hup.2], .inl ⟨hup.1, ?_⟩⟩
    cases fast with
    | true => exact fun _ => hload rfl
    | false =>
      rw [hup.2]
      exact fun h => by cases h
  · obtain ⟨chains, hseg, hall, hhome⟩ := hm.linked
    have hlen := fun j (hj : j < map.bucketArrSize) => chain_length hall hhome hm.hash hj
    rw [range_eq_range'] at hall
    obtain ⟨nodes', arr', hloop, hlink⟩ := relinkBuckets_spec hsize
      (if up then 0 else map.bucketArrSize / newSize - 1) map.bucketArrSize 0 0 0
      (Linking.start p map.hashMode newSize map.nodes)
      (fun j hj => hseg j (by simpa using hj))
      (fun b hb => hm.ordered.live b (hall.mem_iff.mp hb)) (by simpa using hall.nodup_iff.mpr hm.ordered.nodup)
      (fun b hb => hm.hash b (hall.mem_iff.mp hb)) (hall.length_eq ▸ hm.length_le)
    rw [longestOf_congr 0 0 fun j _ hj => hlen j (by omega)] at hloop
    simp only [hloop, bind_eq_bind, bind_some]
    refine ⟨nodes', arr', map.hashMode, _, rfl, ?_, .inr ⟨rfl, rfl⟩⟩
    rw [append_nil] at hlink
    exact (hlink.perm hall).toRelinked

theorem SizeOk.up {size : Nat} (h : SizeOk size) (hle : ¬size > ccolMaxPowerOfTwoSizeT / scaleFactor) :
    SizeOk (scaledSize size true) ∧ scaledSize size true ≠ size := by
  obtain ⟨k, hk, hk', rfl⟩ := h
  have hk61 : k ≤ 61 := by
    by_contra hgt
    have hpow : 2 ^ 62 ≤ 2 ^ k := Nat.pow_le_pow_right (by decide) (by omega)
    simp only [ccolMaxPowerOfTwoSizeT, scaleFactor] at hle
    omega
  have hpos : 0 < 2 ^ k := Nat.two_pow_pos k
  refine ⟨⟨k + 2, by omega, by omega, ?_⟩, ?_⟩
  · simp only [scaledSize, scaleFactor, if_true]
    rw [Nat.pow_add]
  · simp only [scaledSize, scaleFactor, if_true]
    omega

theorem SizeOk.down {size : Nat} (h : SizeOk size) (hgt : size > minimumAllowedBucketArraySize) :
    SizeOk (scaledSize size false) ∧ scaledSize size false ≠ size := by
  obtain ⟨k, hk, hk', rfl⟩ := h
  have hpos : 0 < 2 ^ k := Nat.two_pow_pos k
  have hmin : minimumAllowedBucketArraySize = 16 := rfl
  have hdiv : 2 ^ k / scaleFactor = 2 ^ (k - 2) := by
    have hsplit : 2 ^ k = 2 ^ (k - 2) * 4 := by rw [show 4 = 2 ^ 2 from rfl, ← Nat.pow_add, Nat.sub_add_cancel hk]
    rw [hsplit, scaleFactor, Nat.mul_div_cancel _ (by decide)]
  simp only [scaledSize, Bool.false_eq_true, if_false]
  split
  · exact ⟨⟨4, by decide, by decide, rfl⟩, by omega⟩
  · rename_i hge
    rw [hdiv] at hge ⊢
    have hk4 : 4 ≤ k - 2 := by
      by_contra hlt
      have hpow : 2 ^ (k - 2) ≤ 2 ^ 3 := Nat.pow_le_pow_right (by decide) (by omega)
      omega
    refine ⟨⟨k - 2, by omega, by omega, rfl⟩, ?_⟩
    have hpow : 2 ^ (k - 2) < 2 ^ k := Nat.pow_lt_pow_right (by decide) (by omega)
    omega

theorem SizeOk.groups {size : Nat} (h : SizeOk size) (hgt : size > minimumAllowedBucketArraySize) :
    ∃ k s, size = 2 ^ k * 2 ^ s ∧ scaledSize size false = 2 ^ k ∧ k + s ≤ 63 := by
  obtain ⟨⟨k, -, -, hk⟩, -⟩ := h.down hgt
  obtain ⟨n, -, hn, rfl⟩ := h
  have hle : scaledSize (2 ^ n) false ≤ 2 ^ n := by
    simp only [scaledSize, Bool.false_eq_true, if_false]
    split
    · exact Nat.le_of_lt hgt
    · exact Nat.div_le_self _ _
  rw [hk, Nat.pow_le_pow_iff_right (by decide)] at hle
  refine ⟨k, n - k, ?_, hk, by omega⟩
  rw [← Nat.pow_add, Nat.add_sub_cancel' hle]

theorem measured_down (hm : ScOk p map order) (hgt : map.bucketArrSize > minimumAllowedBucketArraySize) :
    (∀ i < scaledSize map.bucketArrSize false, load (scaledSize map.bucketArrSize false)
        (keyHashes p map.hashMode map.nodes order) i ≤ measured p map order (scaledSize map.bucketArrSize false) false) ∧
      ∃ i < scaledSize map.bucketArrSize false, load (scaledSize map.bucketArrSize false)
        (keyHashes p map.hashMode map.nodes order) i = measured p map order (scaledSize map.bucketArrSize false) false := by
  obtain ⟨k, s, hsize, hnew, hk⟩ := hm.size.groups hgt
  rw [measured, hnew, hsize]
  exact longestOf_load _ hk

theorem relink_short (hm : ScOk p map order) {up : Bool} {mode' : HashMode} {longest : Nat}
    (hup : up = true → ¬map.bucketArrSize > ccolMaxPowerOfTwoSizeT / scaleFactor)
    (hdown : up = false → map.bucketArrSize > minimumAllowedBucketArraySize)
    (h : (up = true ∧ (mode' = .fast → ∀ i, load (scaledSize map.bucketArrSize up) (keyHashes p .fast map.nodes order) i ≤
        scChainCap)) ∨ (mode' = map.hashMode ∧ longest = measured p map order (scaledSize map.bucketArrSize up) up))
    (hs : Short p map order) (hfast : mode' = .fast) (hlongest : up = false → longest < scChainCap) :
    ∀ i < scaledSize map.bucketArrSize up, load (scaledSize map.bucketArrSize up) (keyHashes p .fast map.nodes order) i ≤
      scChainCap := by
  intro i hi
  rcases h with ⟨-, h⟩ | ⟨rfl, rfl⟩
  · exact h hfast i
  · cases up with
    | true =>
      obtain ⟨⟨k, -, hk, hnew⟩, -⟩ := hm.size.up (hup rfl)
      obtain ⟨n, -, -, hn⟩ := hm.size
      have hk' : n + 2 ≤ 63 := by
        rw [scaledSize, if_pos rfl, hn, scaleFactor, show 4 = 2 ^ 2 from rfl, ← Nat.pow_add] at hnew
        rw [Nat.pow_right_injective (Nat.le_refl 2) hnew]
        exact hk
      have hsize : scaledSize map.bucketArrSize true = 2 ^ n * 2 ^ 2 := by rw [scaledSize, if_pos rfl, hn]; rfl
      rw [hsize] at hi ⊢
      refine Nat.le_trans (load_grow _ hk' i) ?_
      have hlt : i / 2 ^ 2 < 2 ^ n := Nat.div_lt_of_lt_mul (by rwa [Nat.mul_comm])
      have hold := hs hfast (i / 2 ^ 2) (hn ▸ hlt)
      rwa [hn] at hold
    | false =>
      have hmeasured := (measured_down hm (hdown rfl)).1 i hi
      have hshort := hlongest rfl
      rw [hfast] at hmeasured
      omega

theorem bucketsFor_cases (p : ScParams) (map : SepChainMap) (size : Nat) :
    ∃ n ok, (if size = map.inlineBuckets then (map, true) else callocBuckets p map size) = ({ map with allocs := n }, ok) := by
  split
  · exact ⟨map.allocs, true, rfl⟩
  · rw [callocBuckets]
    split
    · exact ⟨map.allocs, false, rfl⟩
    · exact ⟨map.allocs + 1, p.fate map.allocs, rfl⟩

theorem scScale_spec (hm : ScOk p map order) (up : Bool) (hdown : up = false → map.bucketArrSize > minimumAllowedBucketArraySize) :
    ∃ map', scScale p map up = some map' ∧ Kept p map map' order := by
  rw [scScale]
  split
  · exact ⟨map, rfl, .refl hm⟩
  · rename_i hlimit
    have hnew : SizeOk (scaledSize map.bucketArrSize up) ∧ scaledSize map.bucketArrSize up ≠ map.bucketArrSize := by
      cases up with
      | true => exact hm.size.up fun hgt => hlimit ⟨rfl, hgt⟩
      | false => exact hm.size.down (hdown rfl)
    obtain ⟨n, ok, halloc⟩ := bucketsFor_cases p map (scaledSize map.bucketArrSize up)
    simp only [halloc]
    cases ok with
    | false => exact ⟨_, rfl, hm.setAllocs n, fun _ => rfl, id⟩
    | true =>
      obtain ⟨nodes', arr', mode', longest, hrelink, hlink, hloads⟩ := scRelink_spec (hm.setAllocs n) hnew.1 up
      have hok := ((hm.setAllocs n).relinked hlink hnew.1
        (of_decide_eq_true (p := scaledSize map.bucketArrSize up = map.inlineBuckets))).scalingLimits.windowRestart
      have hinline : ¬(scaledSize map.bucketArrSize up = map.inlineBuckets ∧ map.usesInline = true) :=
        fun h => hnew.2 (h.1.trans (hm.inline h.2).symm)
      simp only [if_neg hinline, hrelink, bind_eq_bind, bind_some]
      split
      · obtain ⟨map', hswitch, hkept, hkeyed⟩ := scSwitchToKeyed_spec hok
        exact ⟨map', hswitch, hkept.ok, fun id => (hkept.core id).trans (hlink.core id), fun _ => .of_keyed hkeyed⟩
      · rename_i hstay
        refine ⟨_, rfl, hok, hlink.core, fun hs hfast i hi => ?_⟩
        have hlongest : up = false → longest < scChainCap := by
          intro hup
          by_contra hge
          exact hstay ⟨by simp [hup], Nat.le_of_not_lt hge, fun hkeyed => by
            have hmode : mode' = .fast := hfast
            have hmode' : mode' = .keyed := hkeyed
            rw [hmode] at hmode'
            cases hmode'⟩
        have hload := relink_short (hm.setAllocs n) (fun hup hgt => hlimit ⟨hup, hgt⟩) hdown hloads hs hfast hlongest i hi
        rw [← keyHashes_congr fun id _ => entry_of_core (hlink.core id)] at hload
        exact hload

/-! ## Search -/

section Search

variable {nodes : Nodes} {l : List Nat} {t : Option Nat} {fuel : Nat}

theorem findLoop_spec (hit : LlistNode → Bool) (met : Nat) (hseg : Seg (nextOf nodes) t l none)
    (hlive : ∀ b ∈ l, (nodes b).isSome) (hfuel : l.length ≤ fuel) :
    (findLoop nodes hit fuel t met = some (none, met + l.length) ∧
      ∀ b ∈ l, ∀ node, nodes b = some node → hit node = false) ∨
    ∃ id ∈ l, ∃ node met', nodes id = some node ∧ hit node = true ∧ findLoop nodes hit fuel t met = some (some id, met') := by
  induction l generalizing fuel t met with
  | nil =>
    cases hseg
    exact .inl ⟨by cases fuel <;> rfl, fun _ h => nomatch h⟩
  | cons id l ih =>
    obtain ⟨rfl, hseg⟩ := hseg
    obtain ⟨node, hnode⟩ := isSome_iff_exists.mp (hlive id mem_cons_self)
    cases fuel with
    | zero => simp at hfuel
    | succ fuel =>
      rw [nextOf, hnode, bind_some] at hseg
      simp only [findLoop, hnode, bind_eq_bind, bind_some]
      cases hhit : hit node with
      | true => exact .inr ⟨id, mem_cons_self, node, met, hnode, hhit, rfl⟩
      | false =>
        rw [if_neg Bool.false_ne_true]
        rcases ih (met + 1) hseg (fun b hb => hlive b (mem_cons_of_mem _ hb)) (by simpa using hfuel) with
          ⟨hloop, hmiss⟩ | ⟨b, hb, bNode, met', hbNode, hbHit, hloop⟩
        · refine .inl ⟨?_, ?_⟩
          · rw [hloop, length_cons, Nat.add_assoc, Nat.add_comm 1]
          · intro b hb bNode hbNode
            rcases mem_cons.mp hb with rfl | hb
            · rw [hnode] at hbNode
              cases hbNode
              exact hhit
            · exact hmiss b hb bNode hbNode
        · exact .inr ⟨b, mem_cons_of_mem _ hb, bNode, met', hbNode, hbHit, hloop⟩

theorem scChainLength_spec (length : Nat) (hseg : Seg (nextOf nodes) t l none) (hlive : ∀ b ∈ l, (nodes b).isSome)
    (hfuel : l.length ≤ fuel) : scChainLength nodes fuel t length = some (length + l.length) := by
  induction l generalizing fuel t length with
  | nil =>
    cases hseg
    cases fuel <;> rfl
  | cons id l ih =>
    obtain ⟨rfl, hseg⟩ := hseg
    obtain ⟨node, hnode⟩ := isSome_iff_exists.mp (hlive id mem_cons_self)
    cases fuel with
    | zero => simp at hfuel
    | succ fuel =>
      rw [nextOf, hnode, bind_some] at hseg
      simp only [scChainLength, hnode, bind_eq_bind, bind_some]
      rw [ih (length + 1) hseg (fun b hb => hlive b (mem_cons_of_mem _ hb)) (by simpa using hfuel), length_cons,
        Nat.add_assoc, Nat.add_comm 1]

end Search

def Absent (p : ScParams) (map : SepChainMap) (order : List Nat) (key : List UInt8) : Prop :=
  ∀ id ∈ order, ∀ node, map.nodes id = some node → p.keysEqual node.key key = false

structure ChainOf (map : SepChainMap) (order : List Nat) (index : Nat) (chains : Nat → List Nat) : Prop where
  lt : index < map.bucketArrSize
  seg : ∀ i < map.bucketArrSize, Seg (nextOf map.nodes) (map.bucketArr i) (chains i) none
  all : ((List.range map.bucketArrSize).flatMap chains).Perm order
  home : ∀ i < map.bucketArrSize, ∀ id ∈ chains i, ∃ node, map.nodes id = some node ∧ hashIndexFor node.hashVal map.bucketArrSize = i

theorem ScOk.chain (hm : ScOk p map order) (key : List UInt8) :
    ∃ chains, ChainOf map order (hashIndexFor (p.hash map.hashMode key) map.bucketArrSize) chains := by
  obtain ⟨chains, hseg, hall, hhome⟩ := hm.linked
  exact ⟨chains, hm.size.index_lt _, hseg, hall, hhome⟩

theorem ChainOf.live {index : Nat} {chains : Nat → List Nat} (h : ChainOf map order index chains) :
    ∀ b ∈ chains index, (map.nodes b).isSome := by
  intro b hb
  obtain ⟨node, hnode, -⟩ := h.home index h.lt b hb
  rw [hnode]
  rfl

theorem ChainOf.length_le {index : Nat} {chains : Nat → List Nat} (h : ChainOf map order index chains) (hm : ScOk p map order) :
    (chains index).length ≤ map.nextNode := by
  have hlen := ((range_flatMap_perm h.lt chains).symm.trans h.all).length_eq
  have hle := hm.length_le
  rw [length_append] at hlen
  omega

theorem ScOk.absent (hm : ScOk p map order) {chains : Nat → List Nat}
    (h : ChainOf map order (hashIndexFor (p.hash map.hashMode key) map.bucketArrSize) chains)
    (hmiss : ∀ b ∈ chains (hashIndexFor (p.hash map.hashMode key) map.bucketArrSize), ∀ node, map.nodes b = some node →
      hits p (p.hash map.hashMode key) key node = false) : Absent p map order key := by
  intro id hid node hnode
  cases heq : p.keysEqual node.key key with
  | false => rfl
  | true =>
    obtain ⟨i, hi, hmem⟩ := mem_flatMap.mp (h.all.mem_iff.mpr hid)
    obtain ⟨node', hnode', hhome⟩ := h.home i (mem_range.mp hi) id hmem
    rw [hnode] at hnode'
    cases hnode'
    have hhash : node.hashVal = p.hash map.hashMode key := (hm.hash id hid node hnode).trans (p.agrees _ _ _ heq)
    rw [hhash] at hhome
    subst hhome
    have hhit := hmiss id hmem node hnode
    simp [hits, hhash, heq] at hhit

theorem scFindInLlist_spec (hm : ScOk p map order) (key : List UInt8) :
    ∃ found walk, scFindInLlist p map (map.bucketArr (hashIndexFor (p.hash map.hashMode key) map.bucketArrSize))
        (p.hash map.hashMode key) key = some (found, walk) ∧
      ((found = none ∧ Absent p map order key ∧ walk = load map.bucketArrSize (keyHashes p map.hashMode map.nodes order)
          (hashIndexFor (p.hash map.hashMode key) map.bucketArrSize)) ∨
        ∃ id ∈ order, ∃ node, found = some id ∧ map.nodes id = some node ∧ p.keysEqual node.key key = true) := by
  obtain ⟨chains, h⟩ := hm.chain key
  have hlen := h.length_le hm
  rcases findLoop_spec (hits p (p.hash map.hashMode key) key) 0 (h.seg _ h.lt) h.live hlen with
    ⟨hloop, hmiss⟩ | ⟨id, hid, node, met, hnode, hhit, hloop⟩
  · have habsent := hm.absent h hmiss
    have hwalk := (Nat.zero_add _).trans (chain_length h.all h.home hm.hash h.lt)
    cases hcustom : p.customKeyEqualityProc with
    | none => exact ⟨none, _, by simp only [scFindInLlist, hcustom]; exact hloop, .inl ⟨rfl, habsent, hwalk⟩⟩
    | some customEq =>
      have hlength := scChainLength_spec 0 (h.seg _ h.lt) h.live hlen
      refine ⟨none, 0 + (chains (hashIndexFor (p.hash map.hashMode key) map.bucketArrSize)).length, ?_,
        .inl ⟨rfl, habsent, hwalk⟩⟩
      simp only [scFindInLlist, hcustom, hloop, hlength, bind_eq_bind, bind_some]
  · have hmem : id ∈ order := mem_chain h.all h.lt hid
    rw [hits, Bool.and_eq_true] at hhit
    cases hcustom : p.customKeyEqualityProc with
    | none => exact ⟨some id, met, by simp only [scFindInLlist, hcustom]; exact hloop, .inr ⟨id, hmem, node, rfl, hnode, hhit.2⟩⟩
    | some customEq =>
      exact ⟨some id, 0, by simp only [scFindInLlist, hcustom, hloop, bind_eq_bind, bind_some],
        .inr ⟨id, hmem, node, rfl, hnode, hhit.2⟩⟩

/-! ## Insert -/

theorem scAllocNode_cases (p : ScParams) (map : SepChainMap) (key val : List UInt8) :
    ∃ n ok, scAllocNode p map key val = ({ map with allocs := n }, ok) ∧ (ok = false → ∃ i, p.fate i = false) := by
  simp only [scAllocNode, alloc]
  cases hnode : p.fate map.allocs with
  | false => exact ⟨_, _, rfl, fun _ => ⟨_, hnode⟩⟩
  | true =>
    by_cases hkey : key.length ≤ inlineStorageThreshold
    · simp only [hkey, if_true]
      split
      · exact ⟨_, true, rfl, fun h => nomatch h⟩
      · exact ⟨_, _, rfl, fun h => ⟨_, h⟩⟩
    · simp only [hkey, if_false]
      cases hbuf : p.fate (map.allocs + 1) with
      | false => exact ⟨_, _, rfl, fun _ => ⟨_, hbuf⟩⟩
      | true =>
        dsimp only
        split
        · exact ⟨_, true, rfl, fun h => nomatch h⟩
        · exact ⟨_, _, rfl, fun h => ⟨_, h⟩⟩

theorem ScOk.nextNode_free (hm : ScOk p map order) : map.nodes map.nextNode = none ∧ map.nextNode ∉ order := by
  have hnot : map.nextNode ∉ order := fun hid => Nat.lt_irrefl _ (hm.fresh _ hid)
  refine ⟨?_, hnot⟩
  cases hnode : map.nodes map.nextNode with
  | none => rfl
  | some node => exact (hnot (hm.alive _ (by rw [hnode]; rfl))).elim

theorem scCreateLlistNode_spec (hm : ScOk p map order) (hashVal : UInt64) (key val : List UInt8) :
    ∃ n, (scCreateLlistNode p map hashVal key val = some ({ map with allocs := n }, none) ∧ ∃ i, p.fate i = false) ∨
      ∃ nodes' head' tail' node, scCreateLlistNode p map hashVal key val =
          some ({ map with nodes := nodes', nextNode := map.nextNode + 1, head := head', tail := tail', allocs := n },
            some map.nextNode) ∧
        Ordered nodes' head' tail' (order ++ [map.nextNode]) ∧
        nodes' map.nextNode = some node ∧ node.hashVal = hashVal ∧ node.key = key ∧ node.val = val ∧
        ∀ b, b ≠ map.nextNode → (nodes' b).map LlistNode.body = (map.nodes b).map LlistNode.body := by
  obtain ⟨n, ok, halloc, hfate⟩ := scAllocNode_cases p map key val
  refine ⟨n, ?_⟩
  simp only [scCreateLlistNode, halloc]
  cases ok with
  | false => exact .inl ⟨rfl, hfate rfl⟩
  | true =>
    obtain ⟨-, hnot⟩ := hm.nextNode_free
    have hsame : ∀ b, b ≠ map.nextNode → ∀ node, update map.nodes map.nextNode node b = map.nodes b :=
      fun b hb node => update_of_ne hb _ _
    have hne : ∀ b ∈ order, b ≠ map.nextNode := fun b hb heq => hnot (heq ▸ hb)
    have hord : Ordered (update map.nodes map.nextNode (some
        { hashVal := hashVal, key := key, val := val, next := none, dllPrev := none, dllNext := none })) map.head map.tail order :=
      hm.ordered.congr fun b hb => by rw [hsame b (hne b hb)]
    obtain ⟨nodes', head', tail', hattach, hord', hbody⟩ := attachNodeToDllist_spec
      { setNode { map with allocs := n } map.nextNode
        { hashVal := hashVal, key := key, val := val, next := none, dllPrev := none, dllNext := none } with
        nextNode := map.nextNode + 1 } hord (update_self _ _ _) hnot
    have hnew := hbody map.nextNode
    rw [nodes_setNode, update_self, map_some, map_eq_some_iff] at hnew
    obtain ⟨node, hnode, heq⟩ := hnew
    have hfields := body_eq_iff.mp heq
    refine .inr ⟨nodes', head', tail', node, ?_, hord', hnode, hfields.1, hfields.2.1, hfields.2.2.1, ?_⟩
    · simp only [hattach, bind_eq_bind, bind_some]
      rfl
    · intro b hb
      rw [hbody b, nodes_setNode, hsame b hb]

theorem Absent.distinct (hm : ScOk p map order) (h : Absent p map order key) (val : List UInt8) :
    OrderedMap.Distinct p.keysEqual (bindings map.nodes order ++ [(key, val)]) := by
  rw [OrderedMap.Distinct, pairwise_append]
  refine ⟨hm.distinct, pairwise_singleton _ _, ?_⟩
  intro e he e' he'
  rw [mem_singleton] at he'
  subst he'
  obtain ⟨id, hid, node, hnode, rfl⟩ := mem_bindings he
  exact h id hid node hnode

theorem ScOk.linkNew (hm : ScOk p map order) {key val : List UInt8} (habsent : Absent p map order key) {nodes' : Nodes}
    {head' tail' : Option Nat} (hord : Ordered nodes' head' tail' (order ++ [map.nextNode]))
    (hnode : nodes' map.nextNode = some node) (hhash : node.hashVal = p.hash map.hashMode key) (hkey : node.key = key)
    (hval : node.val = val) (hbody : ∀ b, b ≠ map.nextNode → (nodes' b).map LlistNode.body = (map.nodes b).map LlistNode.body)
    (n : Nat) :
    ScOk p { map with
      nodes := (linkNode map.bucketArrSize nodes' map.bucketArr map.nextNode node).1
      nextNode := map.nextNode + 1, head := head', tail := tail', allocs := n
      bucketArr := (linkNode map.bucketArrSize nodes' map.bucketArr map.nextNode node).2
      elemCount := map.elemCount + 1 } (order ++ [map.nextNode]) ∧
    bindings (linkNode map.bucketArrSize nodes' map.bucketArr map.nextNode node).1 (order ++ [map.nextNode]) =
      bindings map.nodes order ++ [(key, val)] := by
  obtain ⟨-, hnot⟩ := hm.nextNode_free
  have hne : ∀ b ∈ order, b ≠ map.nextNode := fun b hb heq => hnot (heq ▸ hb)
  have hstart : Linking p map.hashMode map.bucketArrSize nodes' nodes' map.bucketArr order := by
    refine ⟨⟨fun _ => rfl, hm.linked.congr fun b hb => link_of_body (hbody b (hne b hb)), ?_⟩, fun _ _ => rfl⟩
    intro b hb bNode hbNode
    obtain ⟨old, hold, heq⟩ := exists_of_map (hbody b (hne b hb)).symm hbNode
    have hfields := body_eq_iff.mp heq
    rw [← hfields.1, ← hfields.2.1]
    exact hm.hash b hb old hold
  have hlink := hstart.link hm.size hnot node hnode rfl (hkey ▸ hhash)
  have hbind : bindings (linkNode map.bucketArrSize nodes' map.bucketArr map.nextNode node).1 (order ++ [map.nextNode]) =
      bindings map.nodes order ++ [(key, val)] := by
    rw [bindings_congr fun id _ => entry_of_core (hlink.core id), bindings_append, bindings_cons hnode, hkey, hval]
    rw [bindings_congr fun id hid => entry_of_body (hbody id (hne id hid))]
    rfl
  refine ⟨⟨hord.congr fun id _ => place_of_core (hlink.core id), ?_, ?_, ?_, ?_, ?_, ?_, hm.size, hm.inline⟩, hbind⟩
  · exact hlink.linked.perm (perm_append_singleton _ _).symm
  · intro id hid
    rw [isSome_of_map (hlink.core id)] at hid
    by_cases heq : id = map.nextNode
    · exact mem_append_right _ (mem_singleton.mpr heq)
    · rw [isSome_of_map (hbody id heq)] at hid
      exact mem_append_left _ (hm.alive id hid)
  · intro id hid
    exact hlink.hash id ((perm_append_singleton _ _).mem_iff.mp hid)
  · rw [hbind]
    exact habsent.distinct hm val
  · rw [length_append, hm.count]
    rfl
  · intro id hid
    rcases mem_append.mp hid with hid | hid
    · exact Nat.lt_succ_of_lt (hm.fresh id hid)
    · rw [mem_singleton] at hid
      exact hid ▸ Nat.lt_succ_self _

theorem scLinkNewUnscaled_spec (map : SepChainMap) (walk : Nat) {id index : Nat}
    (hnode : map.nodes id = some node) (hindex : index = hashIndexFor node.hashVal map.bucketArrSize)
    (hok : ScOk p { map with
      nodes := (linkNode map.bucketArrSize map.nodes map.bucketArr id node).1
      bucketArr := (linkNode map.bucketArrSize map.nodes map.bucketArr id node).2
      elemCount := map.elemCount + 1 } order') :
    ∃ map', scLinkNewUnscaled p map id index walk = some map' ∧ ScOk p map' order' ∧
      (∀ b, (map'.nodes b).map LlistNode.core =
        ((linkNode map.bucketArrSize map.nodes map.bucketArr id node).1 b).map LlistNode.core) ∧
      ((walk < scChainCap → Short p { map with
        nodes := (linkNode map.bucketArrSize map.nodes map.bucketArr id node).1
        bucketArr := (linkNode map.bucketArrSize map.nodes map.bucketArr id node).2
        elemCount := map.elemCount + 1 } order') → Short p map' order') := by
  have hlong : ∀ {m : SepChainMap}, ScOk p m order' →
      ∃ m', (if walk ≥ scChainCap then scNoteLongChain p m else some m) = some m' ∧ Kept p m m' order' ∧
        ((walk < scChainCap → Short p m order') → Short p m' order') := by
    intro m hm
    split
    · obtain ⟨m', hnote, hkept, hkeyed⟩ := scNoteLongChain_spec hm
      exact ⟨m', hnote, hkept, fun _ => .of_keyed hkeyed⟩
    · rename_i hlt
      exact ⟨m, rfl, .refl hm, fun hs => hs (Nat.lt_of_not_le hlt)⟩
  obtain ⟨m₁, h₁, hk₁, hs₁⟩ := hlong hok
  have hwin : ∃ m', (if (chmapWindowAdd m₁.insertWindow walk).2 then
      scWindowEnd p { m₁ with
        insertWindow := (chmapWindowAdd m₁.insertWindow walk).1
        windowLog := m₁.windowLog ++ [.added m₁.hashMode walk (chmapWindowAdd m₁.insertWindow walk).1
          (chmapWindowAdd m₁.insertWindow walk).2] } else
      some { m₁ with
        insertWindow := (chmapWindowAdd m₁.insertWindow walk).1
        windowLog := m₁.windowLog ++ [.added m₁.hashMode walk (chmapWindowAdd m₁.insertWindow walk).1
          (chmapWindowAdd m₁.insertWindow walk).2] }) = some m' ∧ Kept p m₁ m' order' := by
    split
    · obtain ⟨m', h', hk'⟩ := scWindowEnd_spec (hk₁.ok.setWindow _ _)
      exact ⟨m', h', hk'.ok, hk'.core, hk'.short⟩
    · exact ⟨_, rfl, hk₁.ok.setWindow _ _, fun _ => rfl, fun hs => hs⟩
  obtain ⟨m₂, h₂, hk₂⟩ := hwin
  have hkept := hk₁.trans hk₂
  refine ⟨m₂, ?_, hkept.ok, hkept.core, fun hs => hk₂.short (hs₁ hs)⟩
  subst hindex
  simp only [scLinkNewUnscaled, hnode, bind_eq_bind, bind_some]
  simp only [linkNode] at h₁
  simp only [setNode, h₁, bind_some, h₂]

theorem scLinkNew_spec (map : SepChainMap) (walk : Nat) {id index : Nat} (hnode : map.nodes id = some node)
    (hindex : index = hashIndexFor node.hashVal map.bucketArrSize)
    (hok : ScOk p { map with
      nodes := (linkNode map.bucketArrSize map.nodes map.bucketArr id node).1
      bucketArr := (linkNode map.bucketArrSize map.nodes map.bucketArr id node).2
      elemCount := map.elemCount + 1 } order') :
    ∃ map', scLinkNew p map id index walk = some map' ∧ ScOk p map' order' ∧
      (∀ b, (map'.nodes b).map LlistNode.core =
        ((linkNode map.bucketArrSize map.nodes map.bucketArr id node).1 b).map LlistNode.core) ∧
      ((walk < scChainCap → Short p { map with
        nodes := (linkNode map.bucketArrSize map.nodes map.bucketArr id node).1
        bucketArr := (linkNode map.bucketArrSize map.nodes map.bucketArr id node).2
        elemCount := map.elemCount + 1 } order') → Short p map' order') := by
  obtain ⟨m₁, h₁, hok₁, hcore₁, hs₁⟩ := scLinkNewUnscaled_spec map walk hnode hindex hok
  have hscale : ∃ m', (if m₁.elemCount ≥ m₁.elemCountToScaleUp then scScale p m₁ true else some m₁) = some m' ∧
      Kept p m₁ m' order' := by
    split
    · exact scScale_spec hok₁ true fun h => nomatch h
    · exact ⟨m₁, rfl, .refl hok₁⟩
  obtain ⟨m₂, h₂, hk₂⟩ := hscale
  refine ⟨m₂, ?_, hk₂.ok, fun b => (hk₂.core b).trans (hcore₁ b), fun hs => hk₂.short (hs₁ hs)⟩
  simp only [scLinkNew, h₁, bind_eq_bind, bind_some, h₂]

theorem scInsertLinked_spec (hm : ScOk p map order) {key val : List UInt8} {linked : SepChainMap}
    (h : scInsertLinked p map key val = some linked) : ∃ order', ScOk p linked order' := by
  obtain ⟨found, walk, hfind, hcases⟩ := scFindInLlist_spec hm key
  simp only [scInsertLinked, hfind, bind_eq_bind, bind_some] at h
  split at h
  · cases h
  · rename_i hnew
    rcases hcases with ⟨rfl, habsent, -⟩ | ⟨id, -, -, rfl, -⟩
    · obtain ⟨n, ⟨hfail, -⟩ | ⟨nodes', head', tail', node, hcreate, hord, hnode, hhash, hkey, hval, hbody⟩⟩ :=
        scCreateLlistNode_spec hm (p.hash map.hashMode key) key val
      · rw [hfail, bind_some, bind_none] at h
        cases h
      · obtain ⟨hok, -⟩ := hm.linkNew habsent hord hnode hhash hkey hval hbody n
        obtain ⟨map', hlink, hok', -⟩ := scLinkNewUnscaled_spec
          { map with nodes := nodes', nextNode := map.nextNode + 1, head := head', tail := tail', allocs := n } walk hnode
          (congrArg (fun h => hashIndexFor h map.bucketArrSize) hhash.symm) hok
        rw [hcreate, bind_some, bind_some, hlink] at h
        cases h
        exact ⟨_, hok'⟩
    · exact absurd (.inl rfl) hnew

theorem ScOk.setVal (hm : ScOk p map order) {o₁ o₂ : List Nat} (horder : order = o₁ ++ id :: o₂)
    (hnode : map.nodes id = some node) (val : List UInt8) :
    ScOk p (setNode map id { node with val := val }) order ∧
      bindings (setNode map id { node with val := val }).nodes order =
        bindings map.nodes o₁ ++ (node.key, val) :: bindings map.nodes o₂ := by
  have hself : (setNode map id { node with val := val }).nodes id = some { node with val := val } := update_self _ _ _
  have hother : ∀ b, b ≠ id → (setNode map id { node with val := val }).nodes b = map.nodes b :=
    fun b hb => update_of_ne hb _ _
  have hnodup := hm.ordered.nodup
  rw [horder, nodup_middle, nodup_cons] at hnodup
  have hne : ∀ b ∈ o₁ ++ o₂, b ≠ id := fun b hb heq => hnodup.1 (heq ▸ hb)
  have hbind : bindings (setNode map id { node with val := val }).nodes order =
      bindings map.nodes o₁ ++ (node.key, val) :: bindings map.nodes o₂ := by
    have hsame : ∀ o, o ⊆ o₁ ++ o₂ → bindings (setNode map id { node with val := val }).nodes o = bindings map.nodes o :=
      fun o ho => bindings_congr fun b hb => by rw [hother b (hne b (ho hb))]
    rw [horder, bindings_append, bindings_cons hself, hsame o₁ (subset_append_left _ _),
      hsame o₂ (subset_append_right _ _)]
  have hpart : ∀ {β : Type} (f : LlistNode → β), f { node with val := val } = f node → ∀ b,
      ((setNode map id { node with val := val }).nodes b).map f = (map.nodes b).map f :=
    fun f hf b => map_setNode f hnode _ hf b
  refine ⟨⟨hm.ordered.congr fun b _ => hpart _ rfl b, hm.linked.congr fun b _ => hpart _ rfl b, ?_, ?_, ?_, hm.count, hm.fresh,
    hm.size, hm.inline⟩, hbind⟩
  · intro b hb
    exact hm.alive b (isSome_of_map (hpart LlistNode.link rfl b) ▸ hb)
  · intro b hb bNode hbNode
    obtain ⟨old, hold, heq⟩ := exists_of_map (hpart (fun n => (n.hashVal, n.key)) rfl b).symm hbNode
    have hhash : old.hashVal = bNode.hashVal := congrArg Prod.fst heq
    have hkey : old.key = bNode.key := congrArg Prod.snd heq
    rw [← hhash, ← hkey]
    exact hm.hash b hb old hold
  · have hd := hm.distinct
    rw [hbind]
    rw [horder, bindings_append, bindings_cons hnode] at hd
    rw [OrderedMap.Distinct, pairwise_append, pairwise_cons] at hd ⊢
    refine ⟨hd.1, hd.2.1, fun e he e' he' => ?_⟩
    rcases mem_cons.mp he' with rfl | he'
    · exact hd.2.2 e he (node.key, node.val) mem_cons_self
    · exact hd.2.2 e he e' (mem_cons_of_mem _ he')

theorem scResetValOfLlistNode_spec (hnode : map.nodes id = some node) (val : List UInt8)
    (aliased : Bool) :
    ∃ n, (scResetValOfLlistNode p map id val aliased = some ({ map with allocs := n }, false) ∧ ∃ i, p.fate i = false) ∨
      scResetValOfLlistNode p map id val aliased = some ({ setNode map id { node with val := val } with allocs := n }, true) := by
  have hsnap : ∃ n ok, (if aliased ∧ val.length > inlineStorageThreshold + 1 then alloc p map else (map, true)) =
      ({ map with allocs := n }, ok) ∧ (ok = false → ∃ i, p.fate i = false) := by
    split
    · exact ⟨map.allocs + 1, _, rfl, fun h => ⟨_, h⟩⟩
    · exact ⟨map.allocs, true, rfl, fun h => nomatch h⟩
  obtain ⟨n, ok, halloc, hfate⟩ := hsnap
  simp only [scResetValOfLlistNode, hnode, bind_eq_bind, bind_some, halloc]
  cases ok with
  | false => exact ⟨n, .inl ⟨rfl, hfate rfl⟩⟩
  | true =>
    dsimp only
    split
    · exact ⟨n, .inr rfl⟩
    · simp only [alloc]
      cases hbuf : p.fate n with
      | false => exact ⟨n + 1, .inl ⟨rfl, n, hbuf⟩⟩
      | true => exact ⟨n + 1, .inr rfl⟩

inductive InsertOutcome (p : ScParams) (l : List (List UInt8 × List UInt8)) (key val : List UInt8) (slots : Slots) :
    ScAnswer → List (List UInt8 × List UInt8) → Prop
  | inserted (habsent : OrderedMap.lookup p.keysEqual l key = none) :
      InsertOutcome p l key val slots (fillSlots slots .success key val) (l ++ [(key, val)])
  | full (habsent : OrderedMap.lookup p.keysEqual l key = none) (hfull : l.length = ccolMaxElemCount) :
      InsertOutcome p l key val slots ⟨.containerFull, none, none⟩ l
  | refused (habsent : OrderedMap.lookup p.keysEqual l key = none) (hfate : ∃ i, p.fate i = false) :
      InsertOutcome p l key val slots ⟨.notEnoughMemory, none, none⟩ l
  | present {k v} (hpresent : OrderedMap.lookup p.keysEqual l key = some (k, v)) (hslots : slots ≠ .none) :
      InsertOutcome p l key val slots (fillSlots slots .keyAlreadyPresent k v) l
  | updated {k v} (hpresent : OrderedMap.lookup p.keysEqual l key = some (k, v)) (hslots : slots = .none) :
      InsertOutcome p l key val slots ⟨.keyAlreadyPresent, none, none⟩ (OrderedMap.update p.keysEqual l key val)
  | notUpdated {k v} (hpresent : OrderedMap.lookup p.keysEqual l key = some (k, v)) (hslots : slots = .none)
      (hfate : ∃ i, p.fate i = false) :
      InsertOutcome p l key val slots ⟨.notEnoughMemory, none, none⟩ l

theorem Absent.lookup (h : Absent p map order key) :
    OrderedMap.lookup p.keysEqual (bindings map.nodes order) key = none := by
  rw [OrderedMap.lookup_eq_none_iff]
  intro e he
  obtain ⟨id, hid, node, hnode, rfl⟩ := mem_bindings he
  exact h id hid node hnode

theorem ScOk.around (hm : ScOk p map order) (hid : id ∈ order) (hnode : map.nodes id = some node) :
    ∃ o₁ o₂, order = o₁ ++ id :: o₂ ∧
      bindings map.nodes order = bindings map.nodes o₁ ++ (node.key, node.val) :: bindings map.nodes o₂ ∧
      OrderedMap.Distinct p.keysEqual (bindings map.nodes o₁ ++ (node.key, node.val) :: bindings map.nodes o₂) := by
  obtain ⟨o₁, o₂, horder⟩ := append_of_mem hid
  have hbind : bindings map.nodes order = bindings map.nodes o₁ ++ (node.key, node.val) :: bindings map.nodes o₂ := by
    rw [horder, bindings_append, bindings_cons hnode]
  exact ⟨o₁, o₂, horder, hbind, hbind ▸ hm.distinct⟩

theorem ScOk.present (hm : ScOk p map order) (hid : id ∈ order) (hnode : map.nodes id = some node)
    (hkey : p.keysEqual node.key key = true) :
    OrderedMap.lookup p.keysEqual (bindings map.nodes order) key = some (node.key, node.val) := by
  obtain ⟨o₁, o₂, -, hbind, hd⟩ := hm.around hid hnode
  rw [hbind]
  exact hd.lookup_split p.symm p.trans hkey

theorem short_linked {map' : SepChainMap} {key val : List UInt8} {walk : Nat}
    (hbind : bindings map'.nodes order' = bindings map.nodes order ++ [(key, val)]) (hs : Short p map order)
    (hwalk : walk = load map.bucketArrSize (keyHashes p map.hashMode map.nodes order)
      (hashIndexFor (p.hash map.hashMode key) map.bucketArrSize)) (hlt : walk < scChainCap)
    (hmode : map'.hashMode = map.hashMode) (hsize : map'.bucketArrSize = map.bucketArrSize) :
    Short p map' order' := by
  intro hfast i hi
  rw [hmode] at hfast
  rw [hsize] at hi ⊢
  rw [hfast] at hwalk
  rw [keyHashes_eq_map, hbind, map_append, map_append, ← keyHashes_eq_map, load_append]
  have hone : load map.bucketArrSize (((([(key, val)] : List (List UInt8 × List UInt8)).map Prod.fst)).map (p.hash .fast)) i =
      if hashIndexFor (p.hash .fast key) map.bucketArrSize = i then 1 else 0 := by
    simp [load, countP_cons]
  rw [hone]
  split
  · rename_i hi'
    rw [hi'] at hwalk
    omega
  · exact hs hfast i hi

theorem scInsertImpl_spec (hm : ScOk p map order) (key val : List UInt8) (slots : Slots) (aliased : Bool) :
    ∃ map' ans order', scInsertImpl p map key val slots aliased = some (map', ans) ∧ ScOk p map' order' ∧
      InsertOutcome p (bindings map.nodes order) key val slots ans (bindings map'.nodes order') ∧
      (Short p map order → Short p map' order') := by
  obtain ⟨found, walk, hfind, hcases⟩ := scFindInLlist_spec hm key
  simp only [scInsertImpl, hfind, bind_eq_bind, bind_some]
  rcases hcases with ⟨rfl, habsent, hwalk⟩ | ⟨id, hid, node, rfl, hnode, hkey⟩
  · dsimp only
    split
    · rename_i hfull
      exact ⟨map, _, order, rfl, hm, .full habsent.lookup (hm.bindings_length.trans (hm.count.symm.trans hfull)), id⟩
    · obtain ⟨n, ⟨hfail, hfate⟩ | ⟨nodes', head', tail', node, hcreate, hord, hnode, hhash, hkey, hval, hbody⟩⟩ :=
        scCreateLlistNode_spec hm (p.hash map.hashMode key) key val
      · refine ⟨{ map with allocs := n }, _, order, ?_, hm.setAllocs n, .refused habsent.lookup hfate, id⟩
        simp only [hfail, bind_some]
      · obtain ⟨hok, hbind⟩ := hm.linkNew habsent hord hnode hhash hkey hval hbody n
        obtain ⟨map', hlink, hok', hcore, hshort⟩ := scLinkNew_spec
          { map with nodes := nodes', nextNode := map.nextNode + 1, head := head', tail := tail', allocs := n } walk hnode
          (congrArg (fun h => hashIndexFor h map.bucketArrSize) hhash.symm) hok
        obtain ⟨node', hnode', heq⟩ := exists_of_map (hcore map.nextNode) (update_self _ _ _)
        obtain ⟨hkey', hval', -⟩ := core_eq_iff.mp heq
        refine ⟨map', fillSlots slots .success key val, order ++ [map.nextNode], ?_, hok', ?_, fun hs => hshort fun hlt => ?_⟩
        · simp only [hcreate, bind_some, hlink, hnode', hkey', hval', hkey, hval]
        · rw [bindings_congr fun id _ => entry_of_core (hcore id), hbind]
          exact .inserted habsent.lookup
        · exact short_linked hbind hs hwalk hlt rfl rfl
  · have hpresent := hm.present hid hnode hkey
    dsimp only
    split
    · rename_i hslots
      obtain ⟨n, ⟨hfail, hfate⟩ | hset⟩ := scResetValOfLlistNode_spec (p := p) hnode val aliased
      · refine ⟨{ map with allocs := n }, _, order, ?_, hm.setAllocs n, .notUpdated hpresent hslots hfate,
          fun hs => hs⟩
        simp only [hfail, bind_some]
        rfl
      · obtain ⟨o₁, o₂, horder, hbind, hd⟩ := hm.around hid hnode
        obtain ⟨hok, hbind'⟩ := hm.setVal horder hnode val
        refine ⟨{ setNode map id { node with val := val } with allocs := n }, ⟨.keyAlreadyPresent, none, none⟩, order, ?_,
          hok.setAllocs n, ?_, fun hs => hs.of_sublist rfl rfl ?_⟩
        · simp only [hset, bind_some]
          rfl
        · have hupdate := hd.update_split p.symm p.trans hkey val
          rw [← hbind] at hupdate
          rw [hbind', ← hupdate]
          exact .updated hpresent hslots
        · rw [show bindings _ order = _ from hbind', hbind]
          simp
    · rename_i hslots
      refine ⟨map, _, order, ?_, hm, .present hpresent hslots, fun hs => hs⟩
      simp only [hnode, bind_some]

theorem scGet_spec (hm : ScOk p map order) (key : List UInt8) :
    (∃ k v, OrderedMap.lookup p.keysEqual (bindings map.nodes order) key = some (k, v) ∧
      scGet p map key = some ⟨.success, some v, none⟩) ∨
    (OrderedMap.lookup p.keysEqual (bindings map.nodes order) key = none ∧ scGet p map key = some ⟨.keyNotFound, none, none⟩) := by
  obtain ⟨found, walk, hfind, hcases⟩ := scFindInLlist_spec hm key
  simp only [scGet, hfind, bind_eq_bind, bind_some]
  rcases hcases with ⟨rfl, habsent, -⟩ | ⟨id, hid, node, rfl, hnode, hkey⟩
  · exact .inr ⟨habsent.lookup, rfl⟩
  · refine .inl ⟨node.key, node.val, hm.present hid hnode hkey, ?_⟩
    simp only [hnode, bind_some]

end Ccollections.Chashmap.Sc
