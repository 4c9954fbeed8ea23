import Ccollections.Chashmap.SeparateChaining

/-!
# The insertion-order list and the chains of a separate-chaining map
-/

namespace Ccollections.Chashmap.Sc
open Lib Function List Option

def nextOf (nodes : Nodes) (id : Nat) : Option Nat := (nodes id).bind LlistNode.next

def prevOf (nodes : Nodes) (id : Nat) : Option Nat := (nodes id).bind LlistNode.dllPrev

def dllNextOf (nodes : Nodes) (id : Nat) : Option Nat := (nodes id).bind LlistNode.dllNext

def LlistNode.body (node : LlistNode) : LlistNode := { node with dllPrev := none, dllNext := none }

def LlistNode.core (node : LlistNode) : LlistNode := { node with hashVal := 0, next := none }

/-- The insertion-order list: these nodes from the tail through `prev`, and backwards from the head through `next`. -/
structure Ordered (nodes : Nodes) (head tail : Option Nat) (order : List Nat) : Prop where
  prev : Seg (prevOf nodes) tail order none
  next : Seg (dllNextOf nodes) head order.reverse none
  nodup : order.Nodup
  live : ∀ id ∈ order, (nodes id).isSome

variable {nodes nodes' : Nodes} {head tail : Option Nat} {order : List Nat} {map : SepChainMap} {id : Nat}

theorem Ordered.tail_eq (h : Ordered nodes head tail order) : tail = order.head? := h.prev.head_eq

theorem Ordered.head_eq (h : Ordered nodes head tail order) : head = order.getLast? := by
  rw [h.next.head_eq, List.head?_reverse]

theorem body_eq_iff {node node' : LlistNode} : node'.body = node.body ↔
    node'.hashVal = node.hashVal ∧ node'.key = node.key ∧ node'.val = node.val ∧ node'.next = node.next := by
  simp [LlistNode.body]

theorem core_eq_iff {node node' : LlistNode} : node'.core = node.core ↔
    node'.key = node.key ∧ node'.val = node.val ∧ node'.dllPrev = node.dllPrev ∧ node'.dllNext = node.dllNext := by
  simp [LlistNode.core]

def LlistNode.place (node : LlistNode) : Option Nat × Option Nat := (node.dllPrev, node.dllNext)

def LlistNode.link (node : LlistNode) : UInt64 × Option Nat := (node.hashVal, node.next)

def LlistNode.entry (node : LlistNode) : List UInt8 × List UInt8 := (node.key, node.val)

section Parts

variable {β γ : Type} {f : LlistNode → β} {g : LlistNode → γ}

theorem isSome_of_map (h : (nodes' id).map f = (nodes id).map f) : (nodes' id).isSome = (nodes id).isSome := by
  rw [← isSome_map, h, isSome_map]

theorem exists_of_map (h : (nodes' id).map f = (nodes id).map f) {node : LlistNode} (hnode : nodes id = some node) :
    ∃ node', nodes' id = some node' ∧ f node' = f node := by
  rw [hnode, map_some, map_eq_some_iff] at h
  exact h

theorem eq_none_of_map (h : (nodes' id).map f = (nodes id).map f) (hnode : nodes id = none) : nodes' id = none := by
  rwa [hnode, map_none, map_eq_none_iff] at h

theorem map_of_map (hg : ∀ node node', f node' = f node → g node' = g node) (h : (nodes' id).map f = (nodes id).map f) :
    (nodes' id).map g = (nodes id).map g := by
  cases hn : nodes id with
  | none =>
    rw [hn, map_none, map_eq_none_iff] at h
    rw [h]
  | some node =>
    obtain ⟨node', hn', heq⟩ := exists_of_map h hn
    rw [hn', map_some, map_some, hg node node' heq]

end Parts

theorem place_of_core (h : (nodes' id).map LlistNode.core = (nodes id).map LlistNode.core) :
    (nodes' id).map LlistNode.place = (nodes id).map LlistNode.place :=
  map_of_map (fun _ _ heq => by simp [LlistNode.place, core_eq_iff.mp heq]) h

theorem entry_of_core (h : (nodes' id).map LlistNode.core = (nodes id).map LlistNode.core) :
    (nodes' id).map LlistNode.entry = (nodes id).map LlistNode.entry :=
  map_of_map (fun _ _ heq => by simp [LlistNode.entry, core_eq_iff.mp heq]) h

theorem link_of_body (h : (nodes' id).map LlistNode.body = (nodes id).map LlistNode.body) :
    (nodes' id).map LlistNode.link = (nodes id).map LlistNode.link :=
  map_of_map (fun _ _ heq => by simp [LlistNode.link, body_eq_iff.mp heq]) h

theorem entry_of_body (h : (nodes' id).map LlistNode.body = (nodes id).map LlistNode.body) :
    (nodes' id).map LlistNode.entry = (nodes id).map LlistNode.entry :=
  map_of_map (fun _ _ heq => by simp [LlistNode.entry, body_eq_iff.mp heq]) h

theorem nextOf_eq (nodes : Nodes) (id : Nat) : nextOf nodes id = ((nodes id).map LlistNode.link).bind Prod.snd := by
  rw [bind_map]
  rfl

theorem prevOf_eq (nodes : Nodes) (id : Nat) : prevOf nodes id = ((nodes id).map LlistNode.place).bind Prod.fst := by
  rw [bind_map]
  rfl

theorem dllNextOf_eq (nodes : Nodes) (id : Nat) : dllNextOf nodes id = ((nodes id).map LlistNode.place).bind Prod.snd := by
  rw [bind_map]
  rfl

theorem Ordered.congr (h : Ordered nodes head tail order)
    (hplace : ∀ id ∈ order, (nodes' id).map LlistNode.place = (nodes id).map LlistNode.place) :
    Ordered nodes' head tail order where
  prev := h.prev.congr fun a ha => by rw [prevOf_eq, hplace a ha, prevOf_eq]
  next := h.next.congr fun a ha => by rw [dllNextOf_eq, hplace a (mem_reverse.mp ha), dllNextOf_eq]
  nodup := h.nodup
  live := fun a ha => isSome_of_map (hplace a ha) ▸ h.live a ha

/-! ## Attach and detach -/

theorem nodes_setNode (map : SepChainMap) (id : Nat) (node : LlistNode) :
    (setNode map id node).nodes = update map.nodes id (some node) := rfl

theorem map_setNode {β : Type} (f : LlistNode → β) {node : LlistNode} (hnode : map.nodes id = some node) (node' : LlistNode)
    (hf : f node' = f node) (b : Nat) : ((setNode map id node').nodes b).map f = (map.nodes b).map f := by
  rw [nodes_setNode]
  by_cases hb : b = id
  · subst hb
    rw [update_self, hnode, map_some, map_some, hf]
  · rw [update_of_ne hb]

theorem attachNodeToDllist_spec (map : SepChainMap) {node : LlistNode} (h : Ordered map.nodes map.head map.tail order) (hnode : map.nodes id = some node)
    (hid : id ∉ order) :
    ∃ nodes' head' tail', attachNodeToDllist map id = some { map with nodes := nodes', head := head', tail := tail' } ∧
      Ordered nodes' head' tail' (order ++ [id]) ∧
      ∀ b, (nodes' b).map LlistNode.body = (map.nodes b).map LlistNode.body := by
  have hnodup : (order ++ [id]).Nodup := by
    rw [nodup_append]
    refine ⟨h.nodup, nodup_singleton id, ?_⟩
    intro a ha b hb heq
    rw [mem_singleton] at hb
    exact hid (hb ▸ heq ▸ ha)
  have hhead := h.head_eq
  cases hcase : map.head with
  | none =>
    rw [hcase, eq_comm, List.getLast?_eq_none_iff] at hhead
    subst hhead
    refine ⟨_, _, _, by simp only [attachNodeToDllist, hnode, hcase]; rfl, ?_, ?_⟩
    · refine ⟨⟨rfl, ?_⟩, ⟨rfl, ?_⟩, hnodup, ?_⟩
      · simp [prevOf, nodes_setNode, Seg]
      · simp [dllNextOf, nodes_setNode, Seg]
      · simp [nodes_setNode]
    · intro b
      by_cases hb : b = id
      · subst hb
        simp [nodes_setNode, hnode, LlistNode.body]
      · simp [nodes_setNode, update_of_ne hb]
  | some first =>
    rw [hcase] at hhead
    have hfirst : first ∈ order := mem_of_getLast? hhead.symm
    have hne : first ≠ id := fun heq => hid (heq ▸ hfirst)
    obtain ⟨firstNode, hfirstNode⟩ := isSome_iff_exists.mp (h.live first hfirst)
    refine ⟨update (update map.nodes id (some { node with dllPrev := none, dllNext := some first })) first
      (some { firstNode with dllPrev := some id }), some id, map.tail, ?_, ?_, ?_⟩
    · simp [attachNodeToDllist, hnode, hcase, setNode, update_of_ne hne, hfirstNode]
    · refine ⟨?_, ?_, hnodup, ?_⟩
      · refine h.prev.push_back h.nodup ?_ ?_ ?_ ?_
        · simp [prevOf, update_of_ne (Ne.symm hne)]
        · intro z hz
          rw [← hhead] at hz
          cases hz
          simp [prevOf]
        · intro hnil
          rw [hnil] at hhead
          cases hhead
        · intro b hb hlast
          rw [← hhead] at hlast
          have hb1 : b ≠ first := fun heq => hlast (heq ▸ rfl)
          have hb2 : b ≠ id := fun heq => hid (heq ▸ hb)
          simp [prevOf, update_of_ne hb1, update_of_ne hb2]
      · rw [reverse_append, reverse_singleton, singleton_append]
        refine h.next.push ?_ ?_
        · simp [dllNextOf, update_of_ne (Ne.symm hne), hcase]
        · intro b hb
          rw [mem_reverse] at hb
          have hb2 : b ≠ id := fun heq => hid (heq ▸ hb)
          by_cases hb1 : b = first
          · subst hb1
            simp [dllNextOf, hfirstNode]
          · simp [dllNextOf, update_of_ne hb1, update_of_ne hb2]
      · intro b hb
        by_cases hb1 : b = first
        · simp [hb1]
        · by_cases hb2 : b = id
          · simp [hb2, update_of_ne (Ne.symm hne)]
          · rw [update_of_ne hb1, update_of_ne hb2]
            rw [mem_append, mem_singleton] at hb
            exact h.live b (hb.resolve_right hb2)
    · intro b
      by_cases hb1 : b = first
      · simp [hb1, hfirstNode, LlistNode.body]
      · by_cases hb2 : b = id
        · simp [hb2, update_of_ne (Ne.symm hne), hnode, LlistNode.body]
        · rw [update_of_ne hb1, update_of_ne hb2]

theorem setPrev_spec (map : SepChainMap) {o₁ o₂ : List Nat} {prev next : Option Nat}
    (hseg : Seg (prevOf map.nodes) map.tail (o₁ ++ id :: o₂) none) (hnodup : (o₁ ++ id :: o₂).Nodup)
    (hlive : ∀ b ∈ o₁, (map.nodes b).isSome) (hprev : prevOf map.nodes id = prev) (hlast : next = o₁.getLast?) :
    ∃ nodes' tail', setPrev map next prev = some { map with nodes := nodes', tail := tail' } ∧
      Seg (prevOf nodes') tail' (o₁ ++ o₂) none ∧ (∀ b, dllNextOf nodes' b = dllNextOf map.nodes b) ∧
      ∀ b, (nodes' b).map LlistNode.body = (map.nodes b).map LlistNode.body := by
  cases hz : o₁.getLast? with
  | none =>
    rw [hlast, hz]
    rw [List.getLast?_eq_none_iff] at hz
    subst hz
    exact ⟨map.nodes, prev, rfl, hprev ▸ hseg.2, fun _ => rfl, fun _ => rfl⟩
  | some z =>
    rw [hlast, hz]
    obtain ⟨zNode, hzNode⟩ := isSome_iff_exists.mp (hlive z (mem_of_getLast? hz))
    refine ⟨update map.nodes z (some { zNode with dllPrev := prev }), map.tail, ?_, ?_, ?_, ?_⟩
    · simp only [setPrev, hzNode, map_some, setNode]
    · refine hseg.unlink hnodup ?_ ?_ ?_
      · intro y hy
        rw [hz] at hy
        cases hy
        exact ⟨rfl, by simp [prevOf, ← hprev]⟩
      · intro hnil
        rw [hnil] at hz
        cases hz
      · intro b _ hb
        have hbz : b ≠ z := fun heq => hb (heq ▸ hz)
        simp [prevOf, update_of_ne hbz]
    · intro b
      by_cases hbz : b = z
      · subst hbz
        simp [dllNextOf, hzNode]
      · simp [dllNextOf, update_of_ne hbz]
    · intro b
      by_cases hbz : b = z
      · subst hbz
        simp [hzNode, LlistNode.body]
      · rw [update_of_ne hbz]

theorem setNext_spec (map : SepChainMap) {o₁ o₂ : List Nat} {prev next : Option Nat}
    (hseg : Seg (dllNextOf map.nodes) map.head (o₂ ++ id :: o₁) none) (hnodup : (o₂ ++ id :: o₁).Nodup)
    (hlive : ∀ b ∈ o₂, (map.nodes b).isSome) (hnext : dllNextOf map.nodes id = next) (hlast : prev = o₂.getLast?) :
    ∃ nodes' head', setNext map prev next = some { map with nodes := nodes', head := head' } ∧
      Seg (dllNextOf nodes') head' (o₂ ++ o₁) none ∧ (∀ b, prevOf nodes' b = prevOf map.nodes b) ∧
      ∀ b, (nodes' b).map LlistNode.body = (map.nodes b).map LlistNode.body := by
  cases hz : o₂.getLast? with
  | none =>
    rw [hlast, hz]
    rw [List.getLast?_eq_none_iff] at hz
    subst hz
    exact ⟨map.nodes, next, rfl, hnext ▸ hseg.2, fun _ => rfl, fun _ => rfl⟩
  | some z =>
    rw [hlast, hz]
    obtain ⟨zNode, hzNode⟩ := isSome_iff_exists.mp (hlive z (mem_of_getLast? hz))
    refine ⟨update map.nodes z (some { zNode with dllNext := next }), map.head, ?_, ?_, ?_, ?_⟩
    · simp only [setNext, hzNode, map_some, setNode]
    · refine hseg.unlink hnodup ?_ ?_ ?_
      · intro y hy
        rw [hz] at hy
        cases hy
        exact ⟨rfl, by simp [dllNextOf, ← hnext]⟩
      · intro hnil
        rw [hnil] at hz
        cases hz
      · intro b _ hb
        have hbz : b ≠ z := fun heq => hb (heq ▸ hz)
        simp [dllNextOf, update_of_ne hbz]
    · intro b
      by_cases hbz : b = z
      · subst hbz
        simp [prevOf, hzNode]
      · simp [prevOf, update_of_ne hbz]
    · intro b
      by_cases hbz : b = z
      · subst hbz
        simp [hzNode, LlistNode.body]
      · rw [update_of_ne hbz]

theorem detachNodeFromDllist_spec {o₁ o₂ : List Nat} (h : Ordered map.nodes map.head map.tail (o₁ ++ id :: o₂)) :
    ∃ nodes' head' tail', detachNodeFromDllist map id = some { map with nodes := nodes', head := head', tail := tail' } ∧
      Ordered nodes' head' tail' (o₁ ++ o₂) ∧
      ∀ b, (nodes' b).map LlistNode.body = (map.nodes b).map LlistNode.body := by
  obtain ⟨node, hnode⟩ := isSome_iff_exists.mp (h.live id (mem_append_right _ mem_cons_self))
  have hrev : (o₁ ++ id :: o₂).reverse = o₂.reverse ++ id :: o₁.reverse := by simp
  have hnext := h.next
  rw [hrev] at hnext
  have hprevEnd : node.dllPrev = o₂.reverse.getLast? := by
    obtain ⟨_, -, -, hrest⟩ := Seg.append.mp h.prev
    have hhead := hrest.head_eq
    rw [prevOf, hnode, bind_some] at hhead
    rw [List.getLast?_reverse, hhead]
  have hnextEnd : node.dllNext = o₁.getLast? := by
    obtain ⟨_, -, -, hrest⟩ := Seg.append.mp hnext
    have hhead := hrest.head_eq
    rw [dllNextOf, hnode, bind_some] at hhead
    rw [hhead, List.head?_reverse]
  obtain ⟨nodes₁, tail', hstep₁, hseg₁, hdll₁, hbody₁⟩ := setPrev_spec map h.prev h.nodup
    (fun b hb => h.live b (mem_append_left _ hb)) (by rw [prevOf, hnode, bind_some]) hnextEnd
  have hlive₁ : ∀ b ∈ o₁ ++ id :: o₂, (nodes₁ b).isSome := fun b hb => isSome_of_map (hbody₁ b) ▸ h.live b hb
  obtain ⟨nodes₂, head', hstep₂, hseg₂, hprev₂, hbody₂⟩ :=
    setNext_spec { map with nodes := nodes₁, tail := tail' } (hnext.congr fun b _ => hdll₁ b) (hrev ▸ nodup_reverse.mpr h.nodup)
      (fun b hb => hlive₁ b (mem_append_right _ (mem_cons_of_mem _ (mem_reverse.mp hb))))
      (by rw [hdll₁, dllNextOf, hnode, bind_some]) hprevEnd
  refine ⟨nodes₂, head', tail', ?_, ⟨hseg₁.congr fun b _ => hprev₂ b, ?_, ?_, ?_⟩, fun b => (hbody₂ b).trans (hbody₁ b)⟩
  · simp only [detachNodeFromDllist, hnode, bind_eq_bind, bind_some, hstep₁, hstep₂]
  · rw [reverse_append]
    exact hseg₂
  · exact List.Nodup.sublist ((sublist_cons_self id o₂).append_left o₁) h.nodup
  · intro b hb
    rw [isSome_of_map (hbody₂ b)]
    rcases mem_append.mp hb with hb | hb
    · exact hlive₁ b (mem_append_left _ hb)
    · exact hlive₁ b (mem_append_right _ (mem_cons_of_mem _ hb))

theorem scDestroyLlistNode_spec (map : SepChainMap) {o₁ o₂ : List Nat} (h : Ordered map.nodes map.head map.tail (o₁ ++ id :: o₂)) :
    ∃ nodes' head' tail', scDestroyLlistNode map id = some { map with nodes := nodes', head := head', tail := tail' } ∧
      Ordered nodes' head' tail' (o₁ ++ o₂) ∧ nodes' id = none ∧
      ∀ b, b ≠ id → (nodes' b).map LlistNode.body = (map.nodes b).map LlistNode.body := by
  obtain ⟨nodes₁, head', tail', hdetach, hord, hbody⟩ := detachNodeFromDllist_spec h
  have hid : id ∉ o₁ ++ o₂ := by
    have hnodup := h.nodup
    rw [nodup_middle, nodup_cons] at hnodup
    exact hnodup.1
  have hsame : ∀ b ∈ o₁ ++ o₂, update nodes₁ id none b = nodes₁ b :=
    fun b hb => update_of_ne (fun heq : b = id => hid (heq ▸ hb)) _ _
  refine ⟨update nodes₁ id none, head', tail', ?_, ⟨?_, ?_, hord.nodup, ?_⟩, update_self _ _ _, ?_⟩
  · simp only [scDestroyLlistNode, hdetach, bind_eq_bind, bind_some]
  · exact hord.prev.congr fun b hb => by rw [prevOf, hsame b hb, prevOf]
  · exact hord.next.congr fun b hb => by rw [dllNextOf, hsame b (mem_reverse.mp hb), dllNextOf]
  · exact fun b hb => by rw [hsame b hb]; exact hord.live b hb
  · intro b hb
    rw [update_of_ne hb]
    exact hbody b

/-! ## Chains -/

/-- The chains of the buckets hold exactly the nodes of `done`, each once, in the bucket its hash picks. -/
def Linked (nodes : Nodes) (arr : Buckets) (size : Nat) (done : List Nat) : Prop :=
  ∃ chains : Nat → List Nat, (∀ i < size, Seg (nextOf nodes) (arr i) (chains i) none) ∧
    ((List.range size).flatMap chains).Perm done ∧
    ∀ i < size, ∀ id ∈ chains i, ∃ node, nodes id = some node ∧ hashIndexFor node.hashVal size = i

theorem range_flatMap_perm {size i : Nat} (hi : i < size) (chains : Nat → List Nat) :
    ((List.range size).flatMap chains).Perm (chains i ++ ((List.range size).erase i).flatMap chains) := by
  have hperm := perm_cons_erase (mem_range.mpr hi)
  exact hperm.flatMap_right chains

theorem erase_flatMap_update {size i : Nat} (chains : Nat → List Nat) (l : List Nat) :
    ((List.range size).erase i).flatMap (update chains i l) = ((List.range size).erase i).flatMap chains := by
  apply flatMap_congr
  intro j hj
  rw [nodup_range.mem_erase_iff] at hj
  exact update_of_ne hj.1 _ _

theorem range_flatMap_update_perm {size i : Nat} (hi : i < size) (chains : Nat → List Nat) (l : List Nat) :
    ((List.range size).flatMap (update chains i l)).Perm (l ++ ((List.range size).erase i).flatMap chains) := by
  have hperm := range_flatMap_perm hi (update chains i l)
  rwa [update_self, erase_flatMap_update] at hperm

theorem mem_chain {size : Nat} {chains : Nat → List Nat} {done : List Nat} (h : ((List.range size).flatMap chains).Perm done)
    {i : Nat} (hi : i < size) {a : Nat} (ha : a ∈ chains i) : a ∈ done :=
  h.mem_iff.mp (mem_flatMap.mpr ⟨i, mem_range.mpr hi, ha⟩)

theorem Linked.perm {arr : Buckets} {size : Nat} {done done' : List Nat} (h : Linked nodes arr size done)
    (hperm : done.Perm done') : Linked nodes arr size done' := by
  obtain ⟨chains, hseg, hall, hhome⟩ := h
  exact ⟨chains, hseg, hall.trans hperm, hhome⟩

theorem Linked.congr {arr : Buckets} {size : Nat} {done : List Nat} (h : Linked nodes arr size done)
    (hlink : ∀ id ∈ done, (nodes' id).map LlistNode.link = (nodes id).map LlistNode.link) : Linked nodes' arr size done := by
  obtain ⟨chains, hseg, hall, hhome⟩ := h
  refine ⟨chains, fun i hi => (hseg i hi).congr fun a ha => ?_, hall, fun i hi a ha => ?_⟩
  · rw [nextOf_eq, hlink a (mem_chain hall hi ha), nextOf_eq]
  · obtain ⟨node, hnode, hindex⟩ := hhome i hi a ha
    obtain ⟨node', hnode', heq⟩ := exists_of_map (hlink a (mem_chain hall hi ha)) hnode
    have hhash : node'.hashVal = node.hashVal := congrArg Prod.fst heq
    exact ⟨node', hnode', hhash ▸ hindex⟩

theorem Linked.empty (nodes : Nodes) (size : Nat) : Linked nodes (fun _ => none) size [] := by
  refine ⟨fun _ => [], fun _ _ => rfl, ?_, fun _ _ _ h => nomatch h⟩
  simp

/-!
# How many nodes each bucket gets

A node's bucket is its hash's, so the length of a chain is the number of hashes that pick its bucket, whatever
order the nodes were linked in.
-/

variable {p : ScParams} {mode : HashMode} {nodes nodes' : Nodes} {ids ids' : List Nat} {id : Nat}

def keyHashes (p : ScParams) (mode : HashMode) (nodes : Nodes) (ids : List Nat) : List UInt64 :=
  ids.filterMap fun id => (nodes id).map fun node => p.hash mode node.key

def load (size : Nat) (hashes : List UInt64) (i : Nat) : Nat := hashes.countP fun hashVal => hashIndexFor hashVal size = i

theorem keyHashes_congr (h : ∀ id ∈ ids, (nodes' id).map LlistNode.entry = (nodes id).map LlistNode.entry) :
    keyHashes p mode nodes' ids = keyHashes p mode nodes ids :=
  filterMap_congr fun id hid => map_of_map (fun _ _ heq => congrArg (p.hash mode ·.1) heq) (h id hid)

theorem keyHashes_cons {node : LlistNode} (hnode : nodes id = some node) (ids : List Nat) :
    keyHashes p mode nodes (id :: ids) = p.hash mode node.key :: keyHashes p mode nodes ids := by
  rw [keyHashes, filterMap_cons, hnode]
  rfl

theorem keyHashes_append (nodes : Nodes) (ids ids' : List Nat) :
    keyHashes p mode nodes (ids ++ ids') = keyHashes p mode nodes ids ++ keyHashes p mode nodes ids' :=
  filterMap_append

theorem load_keyHashes_perm (h : ids.Perm ids') (size i : Nat) :
    load size (keyHashes p mode nodes ids) i = load size (keyHashes p mode nodes ids') i :=
  (h.filterMap _).countP_eq _

theorem load_cons (size : Nat) (hashVal : UInt64) (hashes : List UInt64) (i : Nat) :
    load size (hashVal :: hashes) i = load size hashes i + if hashIndexFor hashVal size = i then 1 else 0 := by
  simp [load, countP_cons]

theorem load_append (size : Nat) (hashes hashes' : List UInt64) (i : Nat) :
    load size (hashes ++ hashes') i = load size hashes i + load size hashes' i := countP_append

theorem chain_length {size : Nat} {chains : Nat → List Nat}
    (hall : ((List.range size).flatMap chains).Perm ids)
    (hhome : ∀ i < size, ∀ id ∈ chains i, ∃ node, nodes id = some node ∧ hashIndexFor node.hashVal size = i)
    (hhash : ∀ id ∈ ids, ∀ node, nodes id = some node → node.hashVal = p.hash mode node.key) {i : Nat} (hi : i < size) :
    (chains i).length = load size (keyHashes p mode nodes ids) i := by
  have hindex : ∀ j < size, ∀ l, l ⊆ chains j →
      load size (keyHashes p mode nodes l) i = if j = i then l.length else 0 := by
    intro j hj l hl
    induction l with
    | nil => simp [load, keyHashes]
    | cons id l ih =>
      have hid := hl mem_cons_self
      obtain ⟨node, hnode, hat⟩ := hhome j hj id hid
      rw [hhash id (mem_chain hall hj hid) node hnode] at hat
      rw [keyHashes_cons hnode, load_cons, hat, ih fun b hb => hl (mem_cons_of_mem _ hb)]
      split <;> simp
  have hrest : ∀ js : List Nat, (∀ j ∈ js, j < size ∧ j ≠ i) → load size (keyHashes p mode nodes (js.flatMap chains)) i = 0 := by
    intro js hjs
    induction js with
    | nil => simp [load, keyHashes]
    | cons j js ih =>
      obtain ⟨hj, hne⟩ := hjs j mem_cons_self
      rw [flatMap_cons, keyHashes_append, load_append, hindex j hj _ (List.Subset.refl _), if_neg hne,
        ih fun b hb => hjs b (mem_cons_of_mem _ hb)]
  rw [← load_keyHashes_perm hall, load_keyHashes_perm (range_flatMap_perm hi chains), keyHashes_append, load_append,
    hindex i hi _ (List.Subset.refl _), if_pos rfl, hrest]
  · rfl
  · intro j hj
    rw [nodup_range.mem_erase_iff, mem_range] at hj
    exact ⟨hj.2, hj.1⟩

/-! ## Arrays of different sizes -/

theorem hashIndexFor_div (hashVal : UInt64) {k s : Nat} (hk : k + s ≤ 63) :
    hashIndexFor hashVal (2 ^ k * 2 ^ s) / 2 ^ s = hashIndexFor hashVal (2 ^ k) := by
  rw [← Nat.pow_add]
  simp only [hashIndexFor, Nat.log2_two_pow, Nat.shiftRight_eq_div_pow, Nat.div_div_eq_div_mul, ← Nat.pow_add]
  rw [show 63 - (k + s) + 1 + s = 63 - k + 1 by omega]

theorem load_le_of_index {size size' : Nat} (hashes : List UInt64) {i j : Nat}
    (h : ∀ hashVal, hashIndexFor hashVal size' = i → hashIndexFor hashVal size = j) :
    load size' hashes i ≤ load size hashes j :=
  countP_mono_left fun hashVal _ => by simpa using h hashVal

theorem load_grow (hashes : List UInt64) {k s : Nat} (hk : k + s ≤ 63) (i : Nat) :
    load (2 ^ k * 2 ^ s) hashes i ≤ load (2 ^ k) hashes (i / 2 ^ s) :=
  load_le_of_index hashes fun hashVal h => by rw [← h, hashIndexFor_div hashVal hk]

def groupLoad (len : Nat → Nat) (ratio g n : Nat) : Nat := ((List.range n).map fun t => len (g * ratio + t)).sum

theorem groupLoad_succ (len : Nat → Nat) (ratio g n : Nat) :
    groupLoad len ratio g (n + 1) = groupLoad len ratio g n + len (g * ratio + n) := by
  simp [groupLoad, range_succ]

theorem groupLoad_mono (len : Nat → Nat) (ratio g : Nat) {n m : Nat} (h : n ≤ m) :
    groupLoad len ratio g n ≤ groupLoad len ratio g m := by
  induction h with
  | refl => exact Nat.le_refl _
  | step _ ih => exact Nat.le_trans ih (by rw [groupLoad_succ]; exact Nat.le_add_right _ _)

theorem groupLoad_eq_countP (size ratio g : Nat) (hashes : List UInt64) (n : Nat) :
    groupLoad (load size hashes) ratio g n = hashes.countP fun hashVal =>
      g * ratio ≤ hashIndexFor hashVal size ∧ hashIndexFor hashVal size < g * ratio + n := by
  induction n with
  | zero =>
    rw [eq_comm]
    refine countP_eq_zero.mpr fun hashVal _ => ?_
    rw [decide_eq_true_eq]
    omega
  | succ n ih =>
    rw [groupLoad_succ, ih, load]
    clear ih
    induction hashes with
    | nil => rfl
    | cons hashVal hashes ih =>
      simp only [countP_cons, decide_eq_true_eq] at ih ⊢
      rw [← ih]
      split <;> split <;> split <;> omega

theorem load_shrink (hashes : List UInt64) {k s : Nat} (hk : k + s ≤ 63) (g : Nat) :
    load (2 ^ k) hashes g = groupLoad (load (2 ^ k * 2 ^ s) hashes) (2 ^ s) g (2 ^ s) := by
  rw [groupLoad_eq_countP, load]
  refine countP_congr fun hashVal _ => ?_
  have hpos : 0 < 2 ^ s := Nat.two_pow_pos s
  rw [decide_eq_true_eq, decide_eq_true_eq, ← hashIndexFor_div hashVal hk, ← Nat.succ_mul, Nat.div_eq_iff hpos]
  constructor
  · rintro ⟨hle, hlt⟩
    rw [Nat.succ_mul]
    omega
  · rintro ⟨hle, hlt⟩
    rw [Nat.succ_mul] at hlt
    omega

/-! ## The longest merged chain of a shrink -/

def longestOf (ratioMask : Nat) (len : Nat → Nat) : Nat → Nat → Nat → Nat → Nat
  | 0, _, _, longest => longest
  | left + 1, i, merged, longest =>
    let merged := (if i &&& ratioMask = 0 then 0 else merged) + len i
    longestOf ratioMask len left (i + 1) merged (if merged > longest then merged else longest)

theorem longestOf_group_from (len : Nat → Nat) (s g longest left : Nat) {d n : Nat} (hn : 0 < n) (hd : n + d = 2 ^ s) :
    longestOf (2 ^ s - 1) len (d + left) (g * 2 ^ s + n) (groupLoad len (2 ^ s) g n)
        (max longest (groupLoad len (2 ^ s) g n)) =
      longestOf (2 ^ s - 1) len left ((g + 1) * 2 ^ s) (groupLoad len (2 ^ s) g (2 ^ s))
        (max longest (groupLoad len (2 ^ s) g (2 ^ s))) := by
  induction d generalizing n with
  | zero =>
    obtain rfl : n = 2 ^ s := hd
    rw [Nat.zero_add, Nat.succ_mul]
  | succ d ih =>
    have hmask : (g * 2 ^ s + n) &&& (2 ^ s - 1) ≠ 0 := by
      rw [Nat.and_two_pow_sub_one_eq_mod, Nat.mul_add_mod_self_right, Nat.mod_eq_of_lt (by omega)]
      omega
    have hmono := groupLoad_mono len (2 ^ s) g (Nat.le_add_right n 1)
    rw [Nat.succ_add, longestOf, if_neg hmask, ← groupLoad_succ, ← ih (n := n + 1) (Nat.succ_pos n) (by omega)]
    congr 1
    split <;> omega

theorem longestOf_group (len : Nat → Nat) (s g merged longest left : Nat) :
    longestOf (2 ^ s - 1) len (2 ^ s + left) (g * 2 ^ s) merged longest =
      longestOf (2 ^ s - 1) len left ((g + 1) * 2 ^ s) (groupLoad len (2 ^ s) g (2 ^ s))
        (max longest (groupLoad len (2 ^ s) g (2 ^ s))) := by
  have hpos : 0 < 2 ^ s := Nat.two_pow_pos s
  have hmask : (g * 2 ^ s) &&& (2 ^ s - 1) = 0 := by
    rw [Nat.and_two_pow_sub_one_eq_mod, Nat.mul_mod_left]
  have hfirst : groupLoad len (2 ^ s) g 1 = 0 + len (g * 2 ^ s) := by
    rw [groupLoad_succ]
    rfl
  rw [← longestOf_group_from len s g longest left Nat.one_pos (d := 2 ^ s - 1) (by omega),
    show 2 ^ s + left = (2 ^ s - 1 + left) + 1 by omega, longestOf, if_pos hmask, ← hfirst]
  congr 1
  split <;> omega

theorem longestOf_groups (len : Nat → Nat) (s n g merged longest : Nat) :
    longest ≤ longestOf (2 ^ s - 1) len (n * 2 ^ s) (g * 2 ^ s) merged longest ∧
    (∀ t < n, groupLoad len (2 ^ s) (g + t) (2 ^ s) ≤ longestOf (2 ^ s - 1) len (n * 2 ^ s) (g * 2 ^ s) merged longest) ∧
    (longestOf (2 ^ s - 1) len (n * 2 ^ s) (g * 2 ^ s) merged longest = longest ∨
      ∃ t < n, longestOf (2 ^ s - 1) len (n * 2 ^ s) (g * 2 ^ s) merged longest = groupLoad len (2 ^ s) (g + t) (2 ^ s)) := by
  induction n generalizing g merged longest with
  | zero =>
    rw [Nat.zero_mul]
    exact ⟨Nat.le_refl _, fun _ h => absurd h (Nat.not_lt_zero _), .inl rfl⟩
  | succ n ih =>
    rw [Nat.succ_mul, Nat.add_comm (n * 2 ^ s), longestOf_group]
    obtain ⟨hle, hall, hend⟩ := ih (g + 1) (groupLoad len (2 ^ s) g (2 ^ s)) (max longest (groupLoad len (2 ^ s) g (2 ^ s)))
    refine ⟨Nat.le_trans (Nat.le_max_left _ _) hle, ?_, ?_⟩
    · intro t ht
      cases t with
      | zero => exact Nat.le_trans (Nat.le_max_right _ _) hle
      | succ t =>
        have hstep := hall t (Nat.lt_of_succ_lt_succ ht)
        rwa [Nat.add_right_comm] at hstep
    · rcases hend with heq | ⟨t, ht, heq⟩
      · rcases Nat.le_total (groupLoad len (2 ^ s) g (2 ^ s)) longest with hle | hle
        · exact .inl (by rw [heq, Nat.max_eq_left hle])
        · exact .inr ⟨0, Nat.succ_pos n, by rw [heq, Nat.max_eq_right hle, Nat.add_zero]⟩
      · exact .inr ⟨t + 1, Nat.succ_lt_succ ht, by rw [heq, Nat.add_right_comm, Nat.add_assoc]⟩

theorem longestOf_congr {ratioMask : Nat} {len len' : Nat → Nat} {left i : Nat} (merged longest : Nat)
    (h : ∀ j, i ≤ j → j < i + left → len j = len' j) :
    longestOf ratioMask len left i merged longest = longestOf ratioMask len' left i merged longest := by
  induction left generalizing i merged longest with
  | zero => rfl
  | succ left ih =>
    simp only [longestOf, h i (Nat.le_refl _) (by omega)]
    exact ih _ _ fun j hij hj => h j (by omega) (by omega)

theorem longestOf_load (hashes : List UInt64) {k s : Nat} (hk : k + s ≤ 63) :
    (∀ i < 2 ^ k, load (2 ^ k) hashes i ≤
      longestOf (2 ^ k * 2 ^ s / 2 ^ k - 1) (load (2 ^ k * 2 ^ s) hashes) (2 ^ k * 2 ^ s) 0 0 0) ∧
    ∃ i < 2 ^ k, load (2 ^ k) hashes i =
      longestOf (2 ^ k * 2 ^ s / 2 ^ k - 1) (load (2 ^ k * 2 ^ s) hashes) (2 ^ k * 2 ^ s) 0 0 0 := by
  obtain ⟨-, hall, hend⟩ := longestOf_groups (load (2 ^ k * 2 ^ s) hashes) s (2 ^ k) 0 0 0
  rw [Nat.zero_mul] at hall hend
  simp only [Nat.zero_add] at hall hend
  simp only [Nat.mul_div_cancel_left _ (Nat.two_pow_pos k), load_shrink hashes hk]
  refine ⟨hall, ?_⟩
  rcases hend with hzero | ⟨t, ht, heq⟩
  · exact ⟨0, Nat.two_pow_pos k, Nat.le_antisymm (hall 0 (Nat.two_pow_pos k)) (by rw [hzero]; exact Nat.zero_le _)⟩
  · exact ⟨t, ht, heq.symm⟩

end Ccollections.Chashmap.Sc
