import Ccollections.Chashmap.Lemmas.ScLists

/-!
# Relinking the nodes of a separate-chaining map

Each loop takes nodes from a list and puts them into new chains. What it has done so far is `Linking`; the
nodes it has not come to are as they were.
-/

namespace Ccollections.Chashmap.Sc
open Lib Function List Option

variable {p : ScParams} {mode : HashMode} {size : Nat} {nodes nodes₁ : Nodes} {arr : Buckets} {done rest : List Nat} {id : Nat}

def SizeOk (size : Nat) : Prop := ∃ k, 2 ≤ k ∧ k ≤ 63 ∧ size = 2 ^ k

theorem SizeOk.index_lt (h : SizeOk size) (hashVal : UInt64) : hashIndexFor hashVal size < size := by
  obtain ⟨k, hk, hk', rfl⟩ := h
  exact hashIndexFor_lt (by omega) hk'

structure Relinked (p : ScParams) (mode : HashMode) (size : Nat) (nodes nodes₁ : Nodes) (arr : Buckets) (done : List Nat) :
    Prop where
  core : ∀ id, (nodes₁ id).map LlistNode.core = (nodes id).map LlistNode.core
  linked : Linked nodes₁ arr size done
  hash : ∀ id ∈ done, ∀ node, nodes₁ id = some node → node.hashVal = p.hash mode node.key

structure Linking (p : ScParams) (mode : HashMode) (size : Nat) (nodes nodes₁ : Nodes) (arr : Buckets) (done : List Nat) :
    Prop extends Relinked p mode size nodes nodes₁ arr done where
  frame : ∀ id, id ∉ done → nodes₁ id = nodes id

theorem Linking.start (p : ScParams) (mode : HashMode) (size : Nat) (nodes : Nodes) :
    Linking p mode size nodes nodes (fun _ => none) [] where
  core := fun _ => rfl
  linked := .empty nodes size
  hash := fun _ h => nomatch h
  frame := fun _ _ => rfl

theorem Linking.perm {done' : List Nat} (h : Linking p mode size nodes nodes₁ arr done) (hperm : done.Perm done') :
    Linking p mode size nodes nodes₁ arr done' where
  core := h.core
  linked := h.linked.perm hperm
  hash := fun id hid => h.hash id (hperm.mem_iff.mpr hid)
  frame := fun id hid => h.frame id fun hmem => hid (hperm.mem_iff.mp hmem)

theorem Linking.link (h : Linking p mode size nodes nodes₁ arr done) (hsize : SizeOk size) (hid : id ∉ done)
    {node : LlistNode} (node' : LlistNode) (hnode : nodes id = some node) (hcore : node'.core = node.core)
    (hhash : node'.hashVal = p.hash mode node'.key) :
    Linking p mode size nodes (linkNode size nodes₁ arr id node').1 (linkNode size nodes₁ arr id node').2 (id :: done) := by
  obtain ⟨chains, hseg, hall, hhome⟩ := h.linked
  have hindex : hashIndexFor node'.hashVal size < size := hsize.index_lt _
  have hother : ∀ b, b ≠ id → (linkNode size nodes₁ arr id node').1 b = nodes₁ b := fun b hb => update_of_ne hb _ _
  have hself : (linkNode size nodes₁ arr id node').1 id = some { node' with next := arr (hashIndexFor node'.hashVal size) } :=
    update_self _ _ _
  have hnext : ∀ b ∈ done, nextOf (linkNode size nodes₁ arr id node').1 b = nextOf nodes₁ b := by
    intro b hb
    rw [nextOf, hother b fun heq => hid (heq ▸ hb), nextOf]
  refine ⟨⟨?_, ?_, ?_⟩, ?_⟩
  · intro b
    by_cases hb : b = id
    · subst hb
      rw [hself, hnode, map_some, map_some, ← hcore]
      rfl
    · rw [hother b hb]
      exact h.core b
  · refine ⟨update chains (hashIndexFor node'.hashVal size) (id :: chains (hashIndexFor node'.hashVal size)), ?_, ?_, ?_⟩
    · intro i hi
      by_cases heq : i = hashIndexFor node'.hashVal size
      · subst heq
        rw [update_self]
        have hfirst : (linkNode size nodes₁ arr id node').2 (hashIndexFor node'.hashVal size) = some id :=
          update_self _ _ _
        rw [hfirst]
        refine (hseg _ hi).push ?_ fun b hb => hnext b (mem_chain hall hi hb)
        rw [nextOf, hself, bind_some]
      · have hsame : (linkNode size nodes₁ arr id node').2 i = arr i := update_of_ne heq _ _
        rw [hsame, update_of_ne heq]
        exact (hseg i hi).congr fun b hb => hnext b (mem_chain hall hi hb)
    · refine (range_flatMap_update_perm hindex chains _).trans ?_
      rw [cons_append]
      exact ((range_flatMap_perm hindex chains).symm.trans hall).cons id
    · intro i hi b hb
      by_cases heq : b = id
      · subst heq
        refine ⟨_, hself, ?_⟩
        by_contra hne
        rw [update_of_ne (Ne.symm hne)] at hb
        exact hid (mem_chain hall hi hb)
      · rw [hother b heq]
        refine hhome i hi b ?_
        by_cases hi' : i = hashIndexFor node'.hashVal size
        · subst hi'
          rw [update_self] at hb
          exact (mem_cons.mp hb).resolve_left heq
        · rwa [update_of_ne hi'] at hb
  · intro b hb node₁ hnode₁
    by_cases heq : b = id
    · subst heq
      rw [hself] at hnode₁
      cases hnode₁
      exact hhash
    · rw [hother b heq] at hnode₁
      exact h.hash b ((mem_cons.mp hb).resolve_left heq) node₁ hnode₁
  · intro b hb
    rw [mem_cons, not_or] at hb
    rw [hother b hb.1]
    exact h.frame b hb.2

theorem linkNode_update (size : Nat) (nodes : Nodes) (arr : Buckets) (id : Nat) (node : LlistNode) (v : Option LlistNode) :
    linkNode size (update nodes id v) arr id node = linkNode size nodes arr id node := by
  simp only [linkNode, update_idem]

/-! ## The loops -/

section Loops

variable {fuel : Nat} {t : Option Nat}

theorem Linking.next_node (h : Linking p mode size nodes nodes₁ arr done) (hlive : ∀ b ∈ id :: rest, (nodes b).isSome)
    (hnodup : (id :: rest ++ done).Nodup) :
    ∃ node, nodes id = some node ∧ nodes₁ id = some node ∧ id ∉ done ∧ (rest ++ id :: done).Nodup := by
  obtain ⟨node, hnode⟩ := isSome_iff_exists.mp (hlive id mem_cons_self)
  rw [cons_append] at hnodup
  have hid : id ∉ done := fun hmem => (nodup_cons.mp hnodup).1 (mem_append_right _ hmem)
  exact ⟨node, hnode, (h.frame id hid).trans hnode, hid, nodup_middle.mpr hnodup⟩

theorem switchLoop_spec (hsize : SizeOk size) (h : Linking p .keyed size nodes nodes₁ arr done)
    (hseg : Seg (prevOf nodes) t rest none) (hlive : ∀ b ∈ rest, (nodes b).isSome) (hnodup : (rest ++ done).Nodup)
    (hfuel : rest.length ≤ fuel) :
    ∃ nodes' arr', switchLoop p size fuel t nodes₁ arr = some (nodes', arr') ∧
      Linking p .keyed size nodes nodes' arr' (rest ++ done) := by
  induction rest generalizing fuel t nodes₁ arr done with
  | nil =>
    cases hseg
    cases fuel <;> exact ⟨nodes₁, arr, rfl, h⟩
  | cons id rest ih =>
    obtain ⟨rfl, hseg⟩ := hseg
    obtain ⟨node, hnode, hnode₁, hid, hnodup'⟩ := h.next_node hlive hnodup
    cases fuel with
    | zero => simp at hfuel
    | succ fuel =>
      have hlink := h.link hsize hid { node with hashVal := scHashOfNode p node .keyed } hnode rfl rfl
      rw [prevOf, hnode, bind_some] at hseg
      obtain ⟨nodes', arr', hloop, hdone⟩ := ih hlink hseg (fun b hb => hlive b (mem_cons_of_mem _ hb)) hnodup'
        (by simpa using hfuel)
      refine ⟨nodes', arr', ?_, hdone.perm perm_middle⟩
      simp only [switchLoop, hnode₁, bind_eq_bind, bind_some]
      exact hloop

theorem attemptChain_spec (chain left : Nat) {l : List Nat} (hseg : Seg (nextOf nodes) t l none)
    (hlive : ∀ b ∈ l, (nodes b).isSome) : attemptChain nodes left t chain = some (chain + min left l.length) := by
  induction l generalizing left t chain with
  | nil =>
    cases hseg
    rw [length_nil, Nat.min_zero]
    cases left <;> rfl
  | cons id l ih =>
    obtain ⟨rfl, hseg⟩ := hseg
    obtain ⟨node, hnode⟩ := isSome_iff_exists.mp (hlive id mem_cons_self)
    cases left with
    | zero => rw [Nat.zero_min]; rfl
    | succ left =>
      rw [nextOf, hnode, bind_some] at hseg
      simp only [attemptChain, hnode, bind_eq_bind, bind_some]
      rw [ih _ _ hseg fun b hb => hlive b (mem_cons_of_mem _ hb), length_cons, Nat.succ_min_succ]
      congr 1
      omega

theorem Relinked.chain_length (h : Relinked p mode size nodes nodes₁ arr done) {chains : Nat → List Nat}
    (hall : ((List.range size).flatMap chains).Perm done)
    (hhome : ∀ i < size, ∀ id ∈ chains i, ∃ node, nodes₁ id = some node ∧ hashIndexFor node.hashVal size = i) {i : Nat}
    (hi : i < size) : (chains i).length = load size (keyHashes p mode nodes done) i := by
  rw [Sc.chain_length hall hhome h.hash hi, keyHashes_congr fun id _ => entry_of_core (h.core id)]

/-- A fast attempt links every node into short chains, or it stops at a full one and has touched no node behind it. -/
theorem attemptLoop_spec (hsize : SizeOk size) (budget : Nat) (work : RetryWork) (h : Linking p .fast size nodes nodes₁ arr done)
    (hseg : Seg (prevOf nodes) t rest none) (hlive : ∀ b ∈ rest, (nodes b).isSome) (hnodup : (rest ++ done).Nodup)
    (hfuel : rest.length ≤ fuel) (hload : ∀ i, load size (keyHashes p .fast nodes done) i < scChainCap) :
    ∃ nodes' arr' stop work', attemptLoop p size budget fuel t nodes₁ arr work = some ((nodes', arr', stop), work') ∧
      ((stop = none ∧ Linking p .fast size nodes nodes' arr' (rest ++ done) ∧
        ∀ i, load size (keyHashes p .fast nodes (rest ++ done)) i < scChainCap) ∨
        ∃ r₁ id r₂, stop = some id ∧ rest = r₁ ++ id :: r₂ ∧
          (∀ b, (nodes' b).map LlistNode.core = (nodes b).map LlistNode.core) ∧ ∀ b ∈ r₂, nodes' b = nodes b) := by
  induction rest generalizing fuel t nodes₁ arr done work with
  | nil =>
    cases hseg
    cases fuel <;> exact ⟨nodes₁, arr, none, work, rfl, .inl ⟨rfl, h, hload⟩⟩
  | cons id rest ih =>
    obtain ⟨rfl, hseg⟩ := hseg
    obtain ⟨node, hnode, hnode₁, hid, hnodup'⟩ := h.next_node hlive hnodup
    cases fuel with
    | zero => simp at hfuel
    | succ fuel =>
      obtain ⟨chains, hchain, hall, hhome⟩ := h.linked
      have hupdate : ∀ b ∈ done, update nodes₁ id (some { node with hashVal := scHashOfNode p node .fast }) b =
          nodes₁ b := fun b hb => update_of_ne (fun heq : b = id => hid (heq ▸ hb)) _ _
      have hindex := hsize.index_lt (scHashOfNode p node .fast)
      have hseg' : Seg (nextOf (update nodes₁ id (some { node with hashVal := scHashOfNode p node .fast })))
          (arr (hashIndexFor (scHashOfNode p node .fast) size)) (chains (hashIndexFor (scHashOfNode p node .fast) size))
          none :=
        (hchain _ hindex).congr fun b hb => by rw [nextOf, hupdate b (mem_chain hall hindex hb), nextOf]
      have hlive' : ∀ b ∈ chains (hashIndexFor (scHashOfNode p node .fast) size),
          (update nodes₁ id (some { node with hashVal := scHashOfNode p node .fast }) b).isSome := by
        intro b hb
        obtain ⟨bNode, hbNode, -⟩ := hhome _ hindex b hb
        rw [hupdate b (mem_chain hall hindex hb), hbNode]
        rfl
      have hmet := attemptChain_spec 0 (scChainCap - 1) hseg' hlive'
      have hlength := h.chain_length hall hhome hindex
      simp only [attemptLoop, hnode₁, bind_eq_bind, bind_some, hmet]
      split
      · refine ⟨_, _, _, _, rfl, .inr ⟨[], id, rest, rfl, rfl, ?_, ?_⟩⟩
        · intro b
          by_cases hb : b = id
          · subst hb
            rw [update_self, hnode]
            rfl
          · rw [update_of_ne hb]
            exact h.core b
        · intro b hb
          rw [nodup_append, nodup_cons] at hnodup
          have hne : b ≠ id := fun heq => hnodup.1.1 (heq ▸ hb)
          rw [update_of_ne hne]
          exact h.frame b fun hmem => hnodup.2.2 b (mem_cons_of_mem _ hb) b hmem rfl
      · rename_i hgoes
        have hlink := h.link hsize hid { node with hashVal := scHashOfNode p node .fast } hnode rfl rfl
        rw [prevOf, hnode, bind_some] at hseg
        have hload' : ∀ i, load size (keyHashes p .fast nodes (id :: done)) i < scChainCap := by
          intro i
          have hi := hload i
          rw [keyHashes_cons hnode, load_cons]
          split
          · rename_i heq
            subst heq
            have hshort := (not_or.mp hgoes).1
            rw [hlength, scHashOfNode] at hshort
            omega
          · exact hi
        obtain ⟨nodes', arr', stop, work', hloop, hend⟩ := ih _ hlink hseg (fun b hb => hlive b (mem_cons_of_mem _ hb)) hnodup'
          (by simpa using hfuel) hload'
        refine ⟨nodes', arr', stop, work', ?_, ?_⟩
        · rw [linkNode_update]
          exact hloop
        · rcases hend with ⟨rfl, hdone, hloads⟩ | ⟨r₁, z, r₂, rfl, rfl, hcore, hframe⟩
          · exact .inl ⟨rfl, hdone.perm perm_middle, fun i => load_keyHashes_perm perm_middle size i ▸ hloads i⟩
          · exact .inr ⟨id :: r₁, z, r₂, rfl, rfl, hcore, hframe⟩

theorem restoreLoop_keyed (hsize : SizeOk size) (stop : Nat) (work : RetryWork) (h : Linking p .keyed size nodes nodes₁ arr done)
    (hseg : Seg (prevOf nodes) t rest none) (hlive : ∀ b ∈ rest, (nodes b).isSome) (hnodup : (rest ++ done).Nodup)
    (hhash : ∀ b ∈ rest, ∀ node, nodes b = some node → node.hashVal = p.hash .keyed node.key) (hfuel : rest.length ≤ fuel) :
    ∃ nodes' arr' work', restoreLoop p size stop fuel t false nodes₁ arr work = some ((nodes', arr'), work') ∧
      Linking p .keyed size nodes nodes' arr' (rest ++ done) := by
  induction rest generalizing fuel t nodes₁ arr done work with
  | nil =>
    cases hseg
    cases fuel <;> exact ⟨nodes₁, arr, work, rfl, h⟩
  | cons id rest ih =>
    obtain ⟨rfl, hseg⟩ := hseg
    obtain ⟨node, hnode, hnode₁, hid, hnodup'⟩ := h.next_node hlive hnodup
    cases fuel with
    | zero => simp at hfuel
    | succ fuel =>
      have hlink := h.link hsize hid node hnode rfl (hhash id mem_cons_self node hnode)
      rw [prevOf, hnode, bind_some] at hseg
      obtain ⟨nodes', arr', work', hloop, hdone⟩ := ih _ hlink hseg (fun b hb => hlive b (mem_cons_of_mem _ hb)) hnodup'
        (fun b hb => hhash b (mem_cons_of_mem _ hb)) (by simpa using hfuel)
      refine ⟨nodes', arr', work', ?_, hdone.perm perm_middle⟩
      simp only [restoreLoop, hnode₁, bind_eq_bind, bind_some, Bool.false_eq_true, ↓reduceIte, ite_self]
      exact hloop

theorem restoreLoop_spec (hsize : SizeOk size) {stop : Nat} (work : RetryWork) {r₁ r₂ : List Nat} (h : Linking p .keyed size nodes nodes₁ arr done)
    (hseg : Seg (prevOf nodes) t (r₁ ++ stop :: r₂) none) (hlive : ∀ b ∈ r₁ ++ stop :: r₂, (nodes b).isSome)
    (hnodup : (r₁ ++ stop :: r₂ ++ done).Nodup)
    (hhash : ∀ b ∈ r₂, ∀ node, nodes b = some node → node.hashVal = p.hash .keyed node.key)
    (hfuel : (r₁ ++ stop :: r₂).length ≤ fuel) :
    ∃ nodes' arr' work', restoreLoop p size stop fuel t true nodes₁ arr work = some ((nodes', arr'), work') ∧
      Linking p .keyed size nodes nodes' arr' (r₁ ++ stop :: r₂ ++ done) := by
  induction r₁ generalizing fuel t nodes₁ arr done work with
  | nil =>
    rw [nil_append] at hseg hlive hnodup hfuel
    obtain ⟨rfl, hseg⟩ := hseg
    obtain ⟨node, hnode, hnode₁, hid, hnodup'⟩ := h.next_node hlive hnodup
    cases fuel with
    | zero => simp at hfuel
    | succ fuel =>
      have hlink := h.link hsize hid { node with hashVal := scHashOfNode p node .keyed } hnode rfl rfl
      rw [prevOf, hnode, bind_some] at hseg
      have hfuel' : r₂.length ≤ fuel := by simpa using hfuel
      obtain ⟨nodes', arr', work', hloop, hdone⟩ := restoreLoop_keyed hsize stop _ hlink hseg
        (fun b hb => hlive b (mem_cons_of_mem _ hb)) hnodup' hhash hfuel'
      refine ⟨nodes', arr', work', ?_, hdone.perm perm_middle⟩
      simp only [restoreLoop, hnode₁, bind_eq_bind, bind_some, ↓reduceIte]
      exact hloop
  | cons id r₁ ih =>
    obtain ⟨rfl, hseg⟩ := hseg
    obtain ⟨node, hnode, hnode₁, hid, hnodup'⟩ := h.next_node hlive hnodup
    have hne : id ≠ stop := by
      rintro rfl
      rw [cons_append, cons_append, nodup_cons] at hnodup
      exact hnodup.1 (by simp)
    cases fuel with
    | zero => simp at hfuel
    | succ fuel =>
      have hlink := h.link hsize hid { node with hashVal := scHashOfNode p node .keyed } hnode rfl rfl
      rw [prevOf, hnode, bind_some] at hseg
      obtain ⟨nodes', arr', work', hloop, hdone⟩ := ih _ hlink hseg (fun b hb => hlive b (mem_cons_of_mem _ hb)) hnodup'
        (by simpa using hfuel)
      refine ⟨nodes', arr', work', ?_, hdone.perm perm_middle⟩
      simp only [restoreLoop, hnode₁, bind_eq_bind, bind_some, ↓reduceIte, if_neg hne]
      exact hloop

theorem relinkChain_spec (hsize : SizeOk size) (merged : Nat) (h : Linking p mode size nodes nodes₁ arr done)
    (hseg : Seg (nextOf nodes) t rest none) (hlive : ∀ b ∈ rest, (nodes b).isSome) (hnodup : (rest ++ done).Nodup)
    (hhash : ∀ b ∈ rest, ∀ node, nodes b = some node → node.hashVal = p.hash mode node.key) (hfuel : rest.length ≤ fuel) :
    ∃ nodes' arr', relinkChain size fuel t nodes₁ arr merged = some (nodes', arr', merged + rest.length) ∧
      Linking p mode size nodes nodes' arr' (rest ++ done) := by
  induction rest generalizing fuel t nodes₁ arr done merged with
  | nil =>
    cases hseg
    cases fuel <;> exact ⟨nodes₁, arr, rfl, h⟩
  | cons id rest ih =>
    obtain ⟨rfl, hseg⟩ := hseg
    obtain ⟨node, hnode, hnode₁, hid, hnodup'⟩ := h.next_node hlive hnodup
    cases fuel with
    | zero => simp at hfuel
    | succ fuel =>
      have hlink := h.link hsize hid node hnode rfl (hhash id mem_cons_self node hnode)
      rw [nextOf, hnode, bind_some] at hseg
      obtain ⟨nodes', arr', hloop, hdone⟩ := ih (merged + 1) hlink hseg (fun b hb => hlive b (mem_cons_of_mem _ hb)) hnodup'
        (fun b hb => hhash b (mem_cons_of_mem _ hb)) (by simpa using hfuel)
      refine ⟨nodes', arr', ?_, hdone.perm perm_middle⟩
      simp only [relinkChain, hnode₁, bind_eq_bind, bind_some]
      rw [hloop, length_cons, Nat.add_assoc, Nat.add_comm 1]

theorem relinkBuckets_spec (hsize : SizeOk size) (ratioMask left i merged longest : Nat) {old : Buckets} {chains : Nat → List Nat}
    (h : Linking p mode size nodes nodes₁ arr done)
    (hseg : ∀ j ∈ List.range' i left, Seg (nextOf nodes) (old j) (chains j) none)
    (hlive : ∀ b ∈ (List.range' i left).flatMap chains, (nodes b).isSome)
    (hnodup : ((List.range' i left).flatMap chains ++ done).Nodup)
    (hhash : ∀ b ∈ (List.range' i left).flatMap chains, ∀ node, nodes b = some node → node.hashVal = p.hash mode node.key)
    (hfuel : ((List.range' i left).flatMap chains).length ≤ fuel) :
    ∃ nodes' arr', relinkBuckets size ratioMask old fuel left i nodes₁ arr merged longest =
        some (nodes', arr', longestOf ratioMask (fun j => (chains j).length) left i merged longest) ∧
      Linking p mode size nodes nodes' arr' ((List.range' i left).flatMap chains ++ done) := by
  induction left generalizing i nodes₁ arr done merged longest with
  | zero => exact ⟨nodes₁, arr, rfl, h⟩
  | succ left ih =>
    rw [List.range'_succ, flatMap_cons] at hlive hnodup hhash hfuel ⊢
    rw [List.range'_succ] at hseg
    rw [append_assoc] at hnodup
    have hparts := nodup_append.mp hnodup
    have hfirst : (chains i ++ done).Nodup :=
      List.Nodup.sublist ((sublist_append_right _ done).append_left (chains i)) hnodup
    rw [length_append] at hfuel
    obtain ⟨nodes₂, arr₂, hchain, hlink⟩ := relinkChain_spec hsize (if i &&& ratioMask = 0 then 0 else merged) h
      (hseg i mem_cons_self) (fun b hb => hlive b (mem_append_left _ hb)) hfirst
      (fun b hb => hhash b (mem_append_left _ hb)) (Nat.le_trans (Nat.le_add_right _ _) hfuel)
    have hperm : (chains i ++ ((List.range' (i + 1) left).flatMap chains ++ done)).Perm
        ((List.range' (i + 1) left).flatMap chains ++ (chains i ++ done)) := by
      rw [← append_assoc, ← append_assoc]
      exact perm_append_comm.append_right done
    obtain ⟨nodes', arr', hloop, hdone⟩ := ih (i + 1) _ _ hlink (fun j hj => hseg j (mem_cons_of_mem _ hj))
      (fun b hb => hlive b (mem_append_right _ hb)) (hperm.nodup_iff.mp hnodup)
      (fun b hb => hhash b (mem_append_right _ hb)) (Nat.le_trans (Nat.le_add_left _ _) hfuel)
    refine ⟨nodes', arr', ?_, ?_⟩
    · simp only [relinkBuckets, hchain, bind_eq_bind, bind_some]
      exact hloop
    · rw [append_assoc]
      exact hdone.perm hperm.symm

end Loops

end Ccollections.Chashmap.Sc
