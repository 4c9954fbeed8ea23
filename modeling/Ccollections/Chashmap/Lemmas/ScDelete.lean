import Ccollections.Chashmap.Lemmas.ScOps

/-!
# Delete and reset of a separate-chaining map
-/

namespace Ccollections.Chashmap.Sc
open Lib Function List Option

variable {p : ScParams} {map : SepChainMap} {order : List Nat}

/-! ## Delete -/

theorem scDeleteFromLlist_spec (hit : LlistNode → Bool) (head : Option Nat) (c₁ : List Nat) {rest : List Nat} {t : Option Nat}
    {fuel : Nat} (hseg : Seg (nextOf map.nodes) t rest none) (hlive : ∀ b ∈ rest, (map.nodes b).isSome)
    (hfuel : rest.length ≤ fuel) :
    (scDeleteFromLlist map hit head fuel c₁.getLast? t = some (map, head, false) ∧
      ∀ b ∈ rest, ∀ node, map.nodes b = some node → hit node = false) ∨
    ∃ r₁ id r₂ node, rest = r₁ ++ id :: r₂ ∧ map.nodes id = some node ∧ hit node = true ∧
      scDeleteFromLlist map hit head fuel c₁.getLast? t =
        (scUnlinkAndDestroy map head (c₁ ++ r₁).getLast? id).map fun r => (r.1, r.2, true) := by
  induction rest generalizing fuel t c₁ with
  | nil =>
    cases hseg
    exact .inl ⟨by cases fuel <;> rfl, fun _ h => nomatch h⟩
  | cons id rest ih =>
    obtain ⟨rfl, hseg⟩ := hseg
    obtain ⟨node, hnode⟩ := isSome_iff_exists.mp (hlive id mem_cons_self)
    cases fuel with
    | zero => simp at hfuel
    | succ fuel =>
      rw [nextOf, hnode, bind_some] at hseg
      simp only [scDeleteFromLlist, hnode, bind_eq_bind, bind_some]
      cases hhit : hit node with
      | true =>
        refine .inr ⟨[], id, rest, node, rfl, hnode, hhit, ?_⟩
        rw [if_pos rfl, append_nil, map_eq_bind]
        rfl
      | false =>
        have hlast : (c₁ ++ [id]).getLast? = some id := List.getLast?_concat
        rw [if_neg Bool.false_ne_true]
        rcases ih (c₁ ++ [id]) hseg (fun b hb => hlive b (mem_cons_of_mem _ hb)) (by simpa using hfuel) with
          ⟨hloop, hmiss⟩ | ⟨r₁, z, r₂, zNode, rfl, hzNode, hzHit, hloop⟩
        · rw [hlast] at hloop
          refine .inl ⟨hloop, ?_⟩
          intro b hb bNode hbNode
          rcases mem_cons.mp hb with rfl | hb
          · rw [hnode] at hbNode
            cases hbNode
            exact hhit
          · exact hmiss b hb bNode hbNode
        · rw [hlast, append_assoc, singleton_append] at hloop
          exact .inr ⟨id :: r₁, z, r₂, zNode, rfl, hzNode, hzHit, hloop⟩

theorem ChainOf.unlink {index : Nat} {chains : Nat → List Nat} (h : ChainOf map order index chains) (hnodup : order.Nodup)
    {c₁ c₂ : List Nat} {id : Nat} (hchain : chains index = c₁ ++ id :: c₂) {nodes' : Nodes} {newHead : Option Nat}
    (hlast : ∀ z ∈ c₁.getLast?, newHead = map.bucketArr index ∧ nextOf nodes' z = nextOf map.nodes id)
    (hnil : c₁ = [] → newHead = nextOf map.nodes id)
    (hsame : ∀ b, b ≠ id → c₁.getLast? ≠ some b → nextOf nodes' b = nextOf map.nodes b)
    (hhash : ∀ b, b ≠ id → (nodes' b).map LlistNode.hashVal = (map.nodes b).map LlistNode.hashVal) {rest : List Nat}
    (hrest : order.Perm (id :: rest)) :
    Linked nodes' (update map.bucketArr index newHead) map.bucketArrSize rest := by
  have hparts := (range_flatMap_perm h.lt chains).symm.trans h.all
  have hindex : (chains index).Nodup := (nodup_append.mp (hparts.nodup_iff.mpr hnodup)).1
  rw [hchain] at hindex
  have hid : id ∉ c₁ ++ c₂ := by
    rw [nodup_middle, nodup_cons] at hindex
    exact hindex.1
  -- a node of another bucket hashes elsewhere
  have hother : ∀ i < map.bucketArrSize, i ≠ index → ∀ b ∈ chains i, b ∉ chains index := by
    intro i hi hne b hb hb'
    obtain ⟨node, hnode, hhome⟩ := h.home i hi b hb
    obtain ⟨node', hnode', hhome'⟩ := h.home index h.lt b hb'
    rw [hnode] at hnode'
    cases hnode'
    exact hne (hhome.symm.trans hhome')
  refine ⟨update chains index (c₁ ++ c₂), ?_, ?_, ?_⟩
  · intro i hi
    by_cases heq : i = index
    · subst heq
      rw [update_self, update_self]
      have hseg := h.seg i hi
      rw [hchain] at hseg
      refine hseg.unlink hindex hlast hnil fun b hb hb' => hsame b (fun heq => hid (heq ▸ hb)) hb'
    · rw [update_of_ne heq, update_of_ne heq]
      refine (h.seg i hi).congr fun b hb => hsame b ?_ ?_
      · rintro rfl
        exact hother i hi heq b hb (by simp [hchain])
      · intro hlast'
        exact hother i hi heq b hb (by simp [hchain, mem_of_getLast? hlast'])
  · have hperm : (id :: (c₁ ++ c₂ ++ ((List.range map.bucketArrSize).erase index).flatMap chains)).Perm (id :: rest) := by
      rw [hchain] at hparts
      refine List.Perm.trans ?_ (hparts.trans hrest)
      rw [← cons_append]
      exact List.Perm.append_right _ perm_middle.symm
    exact (range_flatMap_update_perm h.lt chains _).trans hperm.cons_inv
  · intro i hi b hb
    have hb' : b ∈ chains i ∧ b ≠ id := by
      by_cases heq : i = index
      · subst heq
        rw [update_self] at hb
        refine ⟨?_, fun heq => hid (heq ▸ hb)⟩
        rw [hchain]
        rcases mem_append.mp hb with hb | hb
        · exact mem_append_left _ hb
        · exact mem_append_right _ (mem_cons_of_mem _ hb)
      · rw [update_of_ne heq] at hb
        refine ⟨hb, ?_⟩
        rintro rfl
        exact hother i hi heq b hb (by simp [hchain])
    obtain ⟨node, hnode, hhome⟩ := h.home i hi b hb'.1
    obtain ⟨node', hnode', heq⟩ := exists_of_map (hhash b hb'.2) hnode
    exact ⟨node', hnode', heq ▸ hhome⟩

theorem scUnlinkAndDestroy_spec (hm : ScOk p map order) {index : Nat} {chains : Nat → List Nat} (h : ChainOf map order index chains)
    {c₁ c₂ o₁ o₂ : List Nat} {id : Nat} (hchain : chains index = c₁ ++ id :: c₂) (horder : order = o₁ ++ id :: o₂) :
    ∃ nodes' head' tail' newHead, scUnlinkAndDestroy map (map.bucketArr index) c₁.getLast? id =
        some ({ map with nodes := nodes', head := head', tail := tail' }, newHead) ∧
      Ordered nodes' head' tail' (o₁ ++ o₂) ∧ nodes' id = none ∧
      Linked nodes' (update map.bucketArr index newHead) map.bucketArrSize (o₁ ++ o₂) ∧
      ∀ b, b ≠ id → (nodes' b).map (fun node => (node.hashVal, node.entry)) =
        (map.nodes b).map fun node => (node.hashVal, node.entry) := by
  have hlive := h.live
  rw [hchain] at hlive
  obtain ⟨node, hnode⟩ := isSome_iff_exists.mp (hlive id (by simp))
  have hnext : nextOf map.nodes id = node.next := by rw [nextOf, hnode, bind_some]
  have hperm : order.Perm (id :: (o₁ ++ o₂)) := horder ▸ perm_middle
  have hord := hm.ordered
  rw [horder] at hord
  simp only [scUnlinkAndDestroy, hnode, bind_eq_bind, bind_some]
  cases hz : c₁.getLast? with
  | none =>
    have hc₁ : c₁ = [] := List.getLast?_eq_none_iff.mp hz
    obtain ⟨nodes', head', tail', hdestroy, hord', hnone, hbody⟩ := scDestroyLlistNode_spec map hord
    refine ⟨nodes', head', tail', node.next, by simp only [hdestroy, bind_some], hord', hnone, ?_, ?_⟩
    · refine h.unlink hm.ordered.nodup hchain ?_ (fun _ => hnext.symm) ?_ ?_ hperm
      · intro z hz'
        rw [hz] at hz'
        cases hz'
      · intro b hb _
        rw [nextOf_eq, link_of_body (hbody b hb), nextOf_eq]
      · exact fun b hb => map_of_map (fun _ _ heq => (body_eq_iff.mp heq).1) (hbody b hb)
    · exact fun b hb => map_of_map (fun _ _ heq => by simp [LlistNode.entry, body_eq_iff.mp heq]) (hbody b hb)
  | some z =>
    have hzmem : z ∈ c₁ := mem_of_getLast? hz
    obtain ⟨zNode, hzNode⟩ := isSome_iff_exists.mp (hlive z (mem_append_left _ hzmem))
    have hself : (setNode map z { zNode with next := node.next }).nodes z = some { zNode with next := node.next } :=
      update_self _ _ _
    have hother : ∀ b, b ≠ z → (setNode map z { zNode with next := node.next }).nodes b = map.nodes b :=
      fun b hb => update_of_ne hb _ _
    have hzid : z ≠ id := by
      rintro rfl
      have hindex := (nodup_append.mp (((range_flatMap_perm h.lt chains).symm.trans h.all).nodup_iff.mpr hm.ordered.nodup)).1
      rw [hchain, nodup_middle, nodup_cons] at hindex
      exact hindex.1 (mem_append_left _ hzmem)
    obtain ⟨nodes', head', tail', hdestroy, hord', hnone, hbody⟩ := scDestroyLlistNode_spec
      (setNode map z { zNode with next := node.next }) (hord.congr fun b _ => map_setNode LlistNode.place hzNode { zNode with next := node.next } rfl b)
    refine ⟨nodes', head', tail', map.bucketArr index, ?_, hord', hnone, ?_, ?_⟩
    · simp only [hzNode, hdestroy, bind_some]
      rfl
    · refine h.unlink hm.ordered.nodup hchain ?_ ?_ ?_ ?_ hperm
      · intro y hy
        rw [hz] at hy
        cases hy
        refine ⟨rfl, ?_⟩
        rw [nextOf_eq, link_of_body (hbody z hzid), ← nextOf_eq, nextOf, hself, hnext]
        rfl
      · intro hnil
        rw [hnil] at hzmem
        cases hzmem
      · intro b hb hb'
        have hbz : b ≠ z := fun heq => hb' (heq ▸ hz)
        rw [nextOf_eq, link_of_body (hbody b hb), ← nextOf_eq, nextOf, hother b hbz, nextOf]
      · intro b hb
        rw [map_of_map (fun _ _ heq => (body_eq_iff.mp heq).1) (hbody b hb), map_setNode LlistNode.hashVal hzNode { zNode with next := node.next } rfl b]
    · intro b hb
      rw [map_of_map (fun _ _ heq => by simp [LlistNode.entry, body_eq_iff.mp heq]) (hbody b hb),
        map_setNode (fun node => (node.hashVal, node.entry)) hzNode { zNode with next := node.next } rfl b]

theorem ScOk.removed (hm : ScOk p map order) {o₁ o₂ : List Nat} {id : Nat} (horder : order = o₁ ++ id :: o₂) {nodes' : Nodes}
    {head' tail' : Option Nat} {arr' : Buckets} (hord : Ordered nodes' head' tail' (o₁ ++ o₂)) (hnone : nodes' id = none)
    (hlink : Linked nodes' arr' map.bucketArrSize (o₁ ++ o₂))
    (hsame : ∀ b, b ≠ id → (nodes' b).map (fun node => (node.hashVal, node.entry)) =
      (map.nodes b).map fun node => (node.hashVal, node.entry)) :
    ScOk p { map with nodes := nodes', head := head', tail := tail', bucketArr := arr', elemCount := map.elemCount - 1 } (o₁ ++ o₂) ∧
      bindings nodes' (o₁ ++ o₂) = bindings map.nodes o₁ ++ bindings map.nodes o₂ := by
  have hnodup := hm.ordered.nodup
  rw [horder, nodup_middle, nodup_cons] at hnodup
  have hne : ∀ b ∈ o₁ ++ o₂, b ≠ id := fun b hb heq => hnodup.1 (heq ▸ hb)
  have hmem : ∀ b, b ∈ order ↔ b = id ∨ b ∈ o₁ ++ o₂ := by
    intro b
    rw [horder, perm_middle.mem_iff, mem_cons]
  have hbind : bindings nodes' (o₁ ++ o₂) = bindings map.nodes o₁ ++ bindings map.nodes o₂ := by
    rw [← bindings_append]
    exact bindings_congr fun b hb => map_of_map (fun _ _ heq => congrArg Prod.snd heq) (hsame b (hne b hb))
  refine ⟨⟨hord, hlink, ?_, ?_, ?_, ?_, ?_, hm.size, hm.inline⟩, hbind⟩
  · intro b hb
    have hbid : b ≠ id := by
      rintro rfl
      exact absurd hb (by simp [hnone])
    have hold : (map.nodes b).isSome := isSome_of_map (hsame b hbid) ▸ hb
    exact ((hmem b).mp (hm.alive b hold)).resolve_left hbid
  · intro b hb bNode hbNode
    obtain ⟨old, hold, heq⟩ := exists_of_map (hsame b (hne b hb)).symm hbNode
    simp only [LlistNode.entry, Prod.mk.injEq] at heq
    rw [← heq.1, ← heq.2.1]
    exact hm.hash b ((hmem b).mpr (.inr hb)) old hold
  · have hd := hm.distinct
    rw [hbind, ← bindings_append]
    rw [horder] at hd
    exact hd.sublist (((sublist_cons_self id o₂).append_left o₁).filterMap _)
  · have hcount := hm.count
    rw [horder, length_append, length_cons] at hcount
    simp only [length_append]
    omega
  · exact fun b hb => hm.fresh b ((hmem b).mpr (.inr hb))

theorem scDelete_spec (hm : ScOk p map order) (key : List UInt8) :
    ∃ map' ret order', scDelete p map key = some (map', ret) ∧ ScOk p map' order' ∧
      ((∃ k v, OrderedMap.lookup p.keysEqual (bindings map.nodes order) key = some (k, v) ∧ ret = .success ∧
        bindings map'.nodes order' = OrderedMap.erase p.keysEqual (bindings map.nodes order) key) ∨
      (OrderedMap.lookup p.keysEqual (bindings map.nodes order) key = none ∧ ret = .keyNotFound ∧
        bindings map'.nodes order' = bindings map.nodes order)) ∧ (Short p map order → Short p map' order') := by
  obtain ⟨chains, h⟩ := hm.chain key
  rcases scDeleteFromLlist_spec (hits p (p.hash map.hashMode key) key)
      (map.bucketArr (hashIndexFor (p.hash map.hashMode key) map.bucketArrSize)) [] (h.seg _ h.lt) h.live (h.length_le hm) with
    ⟨hloop, hmiss⟩ | ⟨c₁, id, c₂, node, hchain, hnode, hhit, hloop⟩
  · have habsent := hm.absent h hmiss
    rw [List.getLast?_nil] at hloop
    refine ⟨map, .keyNotFound, order, ?_, hm, .inr ⟨habsent.lookup, rfl, rfl⟩, fun hs => hs⟩
    simp only [scDelete, hloop, bind_eq_bind, bind_some, update_eq_self]
    rfl
  · have hid : id ∈ order := mem_chain h.all h.lt (by simp [hchain])
    rw [hits, Bool.and_eq_true] at hhit
    obtain ⟨o₁, o₂, horder, hbind, hd⟩ := hm.around hid hnode
    obtain ⟨nodes', head', tail', newHead, hunlink, hord, hnone, hlink, hsame⟩ := scUnlinkAndDestroy_spec hm h hchain horder
    obtain ⟨hok, hbind'⟩ := hm.removed horder hord hnone hlink hsame
    have herase : bindings nodes' (o₁ ++ o₂) = OrderedMap.erase p.keysEqual (bindings map.nodes order) key := by
      rw [hbind', hbind, hd.erase_split p.symm p.trans hhit.2]
    have hsub : ((bindings nodes' (o₁ ++ o₂)).map Prod.fst).Sublist ((bindings map.nodes order).map Prod.fst) := by
      rw [hbind', hbind]
      exact ((sublist_cons_self _ _).append_left _).map _
    rw [nil_append, hunlink, List.getLast?_nil] at hloop
    simp only [scDelete, hloop, bind_eq_bind, bind_some, map_some, if_true]
    split
    · rename_i hdown
      obtain ⟨map', hscale, hkept⟩ := scScale_spec hok false fun _ => hdown.2
      refine ⟨map', .success, o₁ ++ o₂, ?_, hkept.ok, .inl ⟨node.key, node.val, hm.present hid hnode hhit.2, rfl, ?_⟩,
        fun hs => hkept.short (hs.of_sublist rfl rfl hsub)⟩
      · simp only [hscale, bind_some]
      · rw [bindings_congr fun b _ => entry_of_core (hkept.core b), herase]
    · exact ⟨_, .success, o₁ ++ o₂, rfl, hok, .inl ⟨node.key, node.val, hm.present hid hnode hhit.2, rfl, herase⟩,
        fun hs => hs.of_sublist rfl rfl hsub⟩

/-! ## Reset -/

theorem scDestroyTheWholeLlist_spec (map : SepChainMap) {rest : List Nat} {t : Option Nat} {fuel : Nat}
    (hseg : Seg (nextOf map.nodes) t rest none) (hord : Ordered map.nodes map.head map.tail order) (hsub : rest ⊆ order)
    (hnodup : rest.Nodup) (hfuel : rest.length ≤ fuel) :
    ∃ nodes' head' tail' order', scDestroyTheWholeLlist fuel map t = some { map with nodes := nodes', head := head', tail := tail' } ∧
      Ordered nodes' head' tail' order' ∧ order.Perm (rest ++ order') ∧ (∀ b ∈ rest, nodes' b = none) ∧
      ∀ b, b ∉ rest → (nodes' b).map LlistNode.body = (map.nodes b).map LlistNode.body := by
  induction rest generalizing map order t fuel with
  | nil =>
    cases hseg
    refine ⟨map.nodes, map.head, map.tail, order, by cases fuel <;> rfl, hord, .refl _, by simp, fun _ _ => rfl⟩
  | cons id rest ih =>
    obtain ⟨rfl, hseg⟩ := hseg
    have hid : id ∈ order := hsub mem_cons_self
    obtain ⟨node, hnode⟩ := isSome_iff_exists.mp (hord.live id hid)
    obtain ⟨o₁, o₂, rfl⟩ := append_of_mem hid
    rw [nodup_cons] at hnodup
    have hne : ∀ b ∈ rest, b ≠ id := fun b hb heq => hnodup.1 (heq ▸ hb)
    obtain ⟨nodes₁, head₁, tail₁, hdestroy, hord₁, hnone₁, hbody₁⟩ := scDestroyLlistNode_spec map hord
    cases fuel with
    | zero => simp at hfuel
    | succ fuel =>
      rw [nextOf, hnode, bind_some] at hseg
      have hsub₁ : rest ⊆ o₁ ++ o₂ := by
        intro b hb
        have hmem := perm_middle.mem_iff.mp (hsub (mem_cons_of_mem _ hb))
        exact (mem_cons.mp hmem).resolve_left (hne b hb)
      obtain ⟨nodes', head', tail', order', hloop, hord', hperm, hnone, hbody⟩ := ih
        { map with nodes := nodes₁, head := head₁, tail := tail₁ }
        (hseg.congr fun b hb => by rw [nextOf_eq, link_of_body (hbody₁ b (hne b hb)), nextOf_eq]) hord₁ hsub₁ hnodup.2
        (by simpa using hfuel)
      refine ⟨nodes', head', tail', order', ?_, hord', perm_middle.trans (hperm.cons id), ?_, ?_⟩
      · simp only [scDestroyTheWholeLlist, hnode, hdestroy, bind_eq_bind, bind_some]
        exact hloop
      · intro b hb
        rcases mem_cons.mp hb with rfl | hb
        · exact eq_none_of_map (hbody b hnodup.1) hnone₁
        · exact hnone b hb
      · intro b hb
        rw [mem_cons, not_or] at hb
        exact (hbody b hb.2).trans (hbody₁ b hb.1)

theorem destroyBuckets_spec (map : SepChainMap) (left i : Nat) {chains : Nat → List Nat}
    (hseg : ∀ j ∈ List.range' i left, Seg (nextOf map.nodes) (map.bucketArr j) (chains j) none)
    (hord : Ordered map.nodes map.head map.tail order) (hall : order.Perm ((List.range' i left).flatMap chains))
    (hlen : order.length ≤ map.nextNode) :
    ∃ nodes' arr', destroyBuckets left i map = some { map with nodes := nodes', bucketArr := arr', head := none, tail := none } ∧
      (∀ b ∈ order, nodes' b = none) ∧ ∀ b, b ∉ order → (nodes' b).map LlistNode.body = (map.nodes b).map LlistNode.body := by
  induction left generalizing map order i with
  | zero =>
    obtain rfl : order = [] := perm_nil.mp hall
    have hhead := hord.head_eq
    have htail := hord.tail_eq
    refine ⟨map.nodes, map.bucketArr, ?_, by simp, fun _ _ => rfl⟩
    rw [List.getLast?_nil] at hhead
    rw [List.head?_nil] at htail
    obtain ⟨⟩ := map
    simp only at hhead htail
    subst hhead htail
    rfl
  | succ left ih =>
    rw [List.range'_succ] at hseg
    rw [List.range'_succ, flatMap_cons] at hall
    have hparts := nodup_append.mp (hall.nodup_iff.mp hord.nodup)
    have hlen' := hall.length_eq
    rw [length_append] at hlen'
    have hfuel : (chains i).length ≤ map.nextNode := by omega
    obtain ⟨nodes₁, head₁, tail₁, order₁, hdestroy, hord₁, hperm₁, hnone₁, hbody₁⟩ := scDestroyTheWholeLlist_spec map
      (hseg i mem_cons_self) hord (fun b hb => hall.mem_iff.mpr (mem_append_left _ hb)) hparts.1 hfuel
    have hrest : order₁.Perm ((List.range' (i + 1) left).flatMap chains) :=
      (perm_append_left_iff _).mp (hperm₁.symm.trans hall)
    have hlen₁ := hperm₁.length_eq
    rw [length_append] at hlen₁
    obtain ⟨nodes', arr', hloop, hnone, hbody⟩ := ih
      { map with nodes := nodes₁, head := head₁, tail := tail₁, bucketArr := update map.bucketArr i none } (i + 1)
      (by
        intro j hj
        have hji : j ≠ i := by
          rw [mem_range'_1] at hj
          omega
        have hold := hseg j (mem_cons_of_mem _ hj)
        rw [← update_of_ne hji none map.bucketArr] at hold
        refine hold.congr fun b hb => ?_
        have hnot : b ∉ chains i := fun hb' => hparts.2.2 b hb' b (mem_flatMap.mpr ⟨j, hj, hb⟩) rfl
        rw [nextOf_eq, link_of_body (hbody₁ b hnot), nextOf_eq])
      hord₁ hrest (by simp only; omega)
    refine ⟨nodes', arr', ?_, ?_, ?_⟩
    · simp only [destroyBuckets, hdestroy, bind_eq_bind, bind_some]
      exact hloop
    · intro b hb
      by_cases hb' : b ∈ order₁
      · exact hnone b hb'
      · have hmem := (mem_append.mp (hperm₁.mem_iff.mp hb)).resolve_right hb'
        exact eq_none_of_map (hbody b hb') (hnone₁ b hmem)
    · intro b hb
      have hb' : b ∉ chains i ++ order₁ := fun hmem => hb (hperm₁.mem_iff.mpr hmem)
      rw [mem_append, not_or] at hb'
      exact (hbody b hb'.2).trans (hbody₁ b hb'.1)

theorem ScOk.cleared (map : SepChainMap) (hnodes : ∀ id, map.nodes id = none) (hhead : map.head = none) (htail : map.tail = none)
    (hsize : SizeOk map.bucketArrSize) (hinline : map.usesInline = true → map.bucketArrSize = map.inlineBuckets) :
    ScOk p (scCleared map) [] where
  ordered := ⟨htail, hhead, nodup_nil, by simp⟩
  linked := .empty _ _
  alive := by
    intro id hid
    have hlive : (map.nodes id).isSome := hid
    rw [hnodes id] at hlive
    cases hlive
  hash := by simp
  distinct := List.Pairwise.nil
  count := rfl
  fresh := by simp
  size := hsize
  inline := hinline

theorem scReset_spec (hm : ScOk p map order) {n : Nat} (hn : n = 0 ∨ SizeOk n) :
    ∃ map' ret, scReset p map n = some (map', ret) ∧ (ret = .success ∨ ret = .notEnoughMemory) ∧ ScOk p map' [] ∧
      Restarted map map' := by
  obtain ⟨chains, hseg, hall, -⟩ := hm.linked
  rw [range_eq_range'] at hall
  obtain ⟨nodes', arr', hdestroy, hgone, hbody⟩ := destroyBuckets_spec map map.bucketArrSize 0
    (fun j hj => hseg j (by simpa using hj)) hm.ordered hall.symm hm.length_le
  have hnodes : ∀ id, nodes' id = none := by
    intro id
    by_cases hid : id ∈ order
    · exact hgone id hid
    · refine eq_none_of_map (hbody id hid) ?_
      rw [← not_isSome_iff_eq_none]
      exact fun hlive => hid (hm.alive id hlive)
  simp only [scReset, hdestroy, bind_eq_bind, bind_some]
  split
  · rename_i hnew
    split
    · exact ⟨_, _, rfl, .inr rfl, ScOk.cleared _ hnodes rfl rfl hm.size hm.inline, rfl, rfl⟩
    · have halloc : ∃ a ok, (if n = map.inlineBuckets then
          ({ map with nodes := nodes', bucketArr := arr', head := none, tail := none }, true)
          else alloc p { map with nodes := nodes', bucketArr := arr', head := none, tail := none }) =
          ({ map with nodes := nodes', bucketArr := arr', head := none, tail := none, allocs := a }, ok) := by
        split
        · exact ⟨map.allocs, true, rfl⟩
        · exact ⟨map.allocs + 1, _, rfl⟩
      obtain ⟨a, ok, halloc⟩ := halloc
      simp only [halloc]
      cases ok with
      | false => exact ⟨_, _, rfl, .inr rfl, ScOk.cleared _ hnodes rfl rfl hm.size hm.inline, rfl, rfl⟩
      | true =>
        have hinline : ¬(n = map.inlineBuckets ∧ map.usesInline = true) := fun h => hnew.2 (h.1.trans (hm.inline h.2).symm)
        have hsize : SizeOk n := hn.resolve_left fun h0 => Nat.lt_irrefl 0 (h0 ▸ hnew.1)
        simp only [if_neg hinline]
        exact ⟨_, _, rfl, .inl rfl, ScOk.cleared _ hnodes rfl rfl hsize of_decide_eq_true, rfl, rfl⟩
  · exact ⟨_, _, rfl, .inl rfl, ScOk.cleared _ hnodes rfl rfl hm.size hm.inline, rfl, rfl⟩

theorem SizeOk.rounded {n : Nat} (h4 : 4 ≤ n) (hle : ccolFindNearestGtePowerOfTwo n ≤ ccolMaxElemCount) :
    SizeOk (ccolFindNearestGtePowerOfTwo n) := by
  have hn : n ≤ ccolMaxElemCount := by
    by_contra hgt
    rw [ccolFindNearestGtePowerOfTwo_invalid (Nat.lt_of_not_le hgt)] at hle
    exact absurd hle (by decide)
  obtain ⟨k, hk, heq, hge, -⟩ := ccolFindNearestGtePowerOfTwo_spec hn
  refine ⟨k, ?_, hk, heq⟩
  by_contra hlt
  have hpow : 2 ^ k ≤ 2 ^ 1 := Nat.pow_le_pow_right (by decide) (by omega)
  omega

theorem chashmapReset_spec (hm : ScOk p map order) (n : UInt64) :
    ∃ map' ret, chashmapReset p map n = some (map', ret) ∧ (ret = .success ∨ ret = .notEnoughMemory) ∧
      ScOk p map' [] ∧ Restarted map map' := by
  simp only [chashmapReset]
  split
  · exact scReset_spec hm (.inr ⟨4, by decide, by decide, rfl⟩)
  · rename_i hsmall
    split
    · split
      · obtain ⟨map', ret, hreset, -, hcleared⟩ := scReset_spec hm (.inl rfl)
        exact ⟨map', .notEnoughMemory, by rw [hreset]; rfl, .inr rfl, hcleared⟩
      · rename_i hpos hle
        have hmin : minimumAllowedBucketArraySize = 16 := rfl
        exact scReset_spec hm (.inr (.rounded (by omega) (Nat.le_of_not_lt hle)))
    · rename_i hzero
      exact scReset_spec hm (.inl (Nat.eq_zero_of_not_pos hzero))

theorem scInit_spec {map map' : SepChainMap} {size : Nat} (hnodes : ∀ id, map.nodes id = none) (hsize : SizeOk size)
    (h : scInit p map size = some map') : ScOk p map' [] := by
  obtain ⟨a, ok, halloc⟩ := bucketsFor_cases p map size
  simp only [scInit, halloc] at h
  cases ok with
  | false => cases h
  | true =>
    cases h
    exact ScOk.cleared { map with
      bucketArr := fun _ => none, bucketArrSize := size, usesInline := decide (size = map.inlineBuckets), elemCount := 0,
      head := none, tail := none, allocs := a } hnodes rfl rfl hsize of_decide_eq_true

theorem chmapCreateImpl_spec {n : UInt64} {scMinBuckets : Nat} (hmin : SizeOk scMinBuckets)
    (h : chmapCreateImpl p n scMinBuckets = some map) : ScOk p map [] := by
  unfold chmapCreateImpl at h
  split at h
  · cases h
  · dsimp only at h
    generalize hround : (if n.toNat ≤ scMinBuckets then scMinBuckets else ccolFindNearestGtePowerOfTwo n.toNat) = size at h
    by_cases hbig : size > ccolMaxElemCount
    · rw [if_pos hbig] at h
      cases h
    · rw [if_neg hbig] at h
      have hsize : SizeOk size := by
        subst hround
        split
        · exact hmin
        · rename_i hgt
          rw [if_neg hgt] at hbig
          obtain ⟨k, hk, -, rfl⟩ := hmin
          have hpow : 2 ^ 2 ≤ 2 ^ k := Nat.pow_le_pow_right (by decide) hk
          exact .rounded (by omega) (Nat.le_of_not_lt hbig)
      simp only [alloc] at h
      split at h
      · cases h
      · rename_i heq
        simp only [Prod.mk.injEq] at heq
        obtain ⟨rfl, -⟩ := heq
        exact scInit_spec (fun _ => rfl) hsize h

end Ccollections.Chashmap.Sc
