import Ccollections.Cbstmap.Lemmas.Keys
import Ccollections.Cbstmap.Lemmas.Walks
import Ccollections.Lib.Maps
import Mathlib.Logic.Function.Basic

/-!
# cbstmap is a balanced ordered map
-/

namespace Ccollections.Cbstmap
open Lib Function List Option

variable {K : Type} [LinearOrder K] {path : List (PathEntry K)} {pre post : List (K × List UInt8)} {key : K}
  {v : List UInt8} {cbm : Cbmap K}

/-! ## The abstract map -/

/-- The answers a call may give on a finite map, and the map it then leaves. -/
inductive MapSpec : (K → Option (List UInt8)) → Op K → Answer → (K → Option (List UInt8)) → Prop
  | inserted {m key val} (habsent : m key = none) :
      MapSpec m (.insert key val true) ⟨.success, none⟩ (update m key (some val))
  | overwritten {m key val alloc old} (hpresent : m key = some old) :
      MapSpec m (.insert key val alloc) ⟨.keyAlreadyPresent, none⟩ (update m key (some val))
  | noMemory {m key val} : MapSpec m (.insert key val false) ⟨.notEnoughMemory, none⟩ m
  | full {m key val alloc} (habsent : m key = none) (hcount : HasCount m ccolMaxElemCount) :
      MapSpec m (.insert key val alloc) ⟨.containerFull, none⟩ m
  | found {m key val} (hpresent : m key = some val) : MapSpec m (.get key) ⟨.success, some val⟩ m
  | missed {m key} (habsent : m key = none) : MapSpec m (.get key) ⟨.keyNotFound, none⟩ m
  | deleted {m key old} (hpresent : m key = some old) :
      MapSpec m (.delete key) ⟨.success, none⟩ (update m key none)
  | notDeleted {m key} (habsent : m key = none) : MapSpec m (.delete key) ⟨.keyNotFound, none⟩ m
  | reset {m} : MapSpec m .reset ⟨.success, none⟩ fun _ => none

/-! ## The refinement relation -/

/-- The tree is an ordered balanced tree that holds exactly the bindings of `m`. -/
structure Refines (cbm : Cbmap K) (m : K → Option (List UInt8)) : Prop where
  sorted : SortedKeys (toList cbm.root)
  avl : Avl cbm.root
  count : cbm.elemCount = size cbm.root
  room : cbm.elemCount ≤ ccolMaxElemCount
  bindings : ∀ (k : K) (v : List UInt8), m k = some v ↔ (k, v) ∈ toList cbm.root

theorem Refines.hasCount {m : K → Option (List UInt8)} (hr : Refines cbm m) : HasCount m cbm.elemCount := by
  rw [hr.count]
  exact Represents.hasCount ⟨pairwise_map.mpr (hr.sorted.imp ne_of_lt), hr.bindings⟩

theorem Refines.height_le {m : K → Option (List UInt8)} (hr : Refines cbm m) : nodeHeight cbm.root ≤ 90 :=
  hr.avl.height_le (hr.count ▸ hr.room)

structure Gap (key : K) (pre post : List (K × List UInt8)) : Prop where
  pre_sorted : SortedKeys pre
  post_sorted : SortedKeys post
  lt_key : ∀ b ∈ pre, b.1 < key
  key_lt : ∀ b ∈ post, key < b.1

theorem Descent.gap {root : BmapNode K} (hd : Descent key root .nil path)
    (hs : SortedKeys (toList root)) : Gap key (before path) (after path) := by
  rw [hd.list] at hs
  unfold SortedKeys at hs
  rw [pairwise_append, pairwise_append] at hs
  exact ⟨hs.1.1, hs.2.1, hd.lt_key, hd.key_lt⟩

theorem Descent.gap_node {h : Nat} {root l r : BmapNode K}
    (hd : Descent key root (.node key v h l r) path) (hs : SortedKeys (toList root)) :
    Gap key (before path ++ toList l) (toList r ++ after path) := by
  rw [hd.list, toList, ← append_assoc, append_assoc, cons_append] at hs
  unfold SortedKeys at hs
  rw [pairwise_append, pairwise_cons] at hs
  obtain ⟨hpre, ⟨hkey, hpost⟩, hcross⟩ := hs
  exact ⟨hpre, hpost, fun b hb => hcross b hb (key, v) mem_cons_self, hkey⟩

theorem Gap.sorted_filled {val : List UInt8} (hg : Gap key pre post) :
    SortedKeys (pre ++ [(key, val)] ++ post) := by
  unfold SortedKeys
  rw [append_assoc, pairwise_append]
  refine ⟨hg.pre_sorted, pairwise_cons.mpr ⟨hg.key_lt, hg.post_sorted⟩, ?_⟩
  intro a ha b hb
  rcases mem_cons.mp hb with rfl | hb
  · exact hg.lt_key a ha
  · exact lt_trans (hg.lt_key a ha) (hg.key_lt b hb)

theorem Gap.sorted_empty (hg : Gap key pre post) : SortedKeys (pre ++ post) := by
  unfold SortedKeys
  rw [pairwise_append]
  exact ⟨hg.pre_sorted, hg.post_sorted, fun a ha b hb => lt_trans (hg.lt_key a ha) (hg.key_lt b hb)⟩

theorem Gap.not_mem (hg : Gap key pre post) :
    (key, v) ∉ pre ++ post := by
  intro hmem
  rcases mem_append.mp hmem with hmem | hmem
  · exact lt_irrefl _ (hg.lt_key _ hmem)
  · exact lt_irrefl _ (hg.key_lt _ hmem)

theorem Gap.bindings {old : Option (List UInt8)}
    {m : K → Option (List UInt8)} (new : Option (List UInt8)) (hg : Gap key pre post)
    (hm : ∀ k v, m k = some v ↔ (k, v) ∈ pre ++ (old.map (key, ·)).toList ++ post) (k : K) (v : List UInt8) :
    update m key new k = some v ↔ (k, v) ∈ pre ++ (new.map (key, ·)).toList ++ post := by
  have hout : (key, v) ∉ pre ++ post := hg.not_mem
  rw [mem_append, not_or] at hout
  by_cases hk : k = key
  · subst hk
    rw [update_self]
    cases new <;> simp [hout.1, hout.2, eq_comm]
  · rw [update_of_ne hk, hm]
    cases old <;> cases new <;> simp [hk]

theorem Gap.lookup (old : Option (List UInt8))
    {m : K → Option (List UInt8)} (hg : Gap key pre post)
    (hm : ∀ k v, m k = some v ↔ (k, v) ∈ pre ++ (old.map (key, ·)).toList ++ post) : m key = old := by
  have hback := fun v => hg.bindings old hm key v
  simp only [← hm, update_self] at hback
  exact (Option.ext fun v => hback v).symm

/-! ## The operations -/

/-- Where the descent for a key ends, and what the in-order list and the map are around it. -/
theorem Refines.descend {m : K → Option (List UInt8)} (hr : Refines cbm m) (key : K) :
    ∃ sub path, cbmapDescendWithPath key cbm.root [] = some (sub, path) ∧ Descent key cbm.root sub path ∧
      (sub = .nil ∨ ∃ v h l r, sub = .node key v h l r) :=
  cbmapDescendWithPath_spec hr.height_le cbm.root [] hr.sorted (.start key hr.avl)

omit [LinearOrder K] in
theorem createNewNode_spec (key : K) (val : List UInt8) (alloc : Bool) :
    (createNewNode key val alloc = none ∧ alloc = false) ∨
    (createNewNode key val alloc = some (.node key val 1 .nil .nil) ∧ alloc = true) := by
  cases alloc with
  | false => exact .inl ⟨rfl, rfl⟩
  | true => exact .inr ⟨rfl, rfl⟩

theorem updateBmapNodeValue_spec (old new : List UInt8) (alloc : Bool) :
    updateBmapNodeValue old new alloc = (new, .keyAlreadyPresent) ∨
    (updateBmapNodeValue old new alloc = (old, .notEnoughMemory) ∧ alloc = false) := by
  unfold updateBmapNodeValue
  cases alloc <;> split <;> try split
  all_goals simp

theorem Gap.refines {root : BmapNode K} {m : K → Option (List UInt8)}
    (old new : Option (List UInt8)) (hg : Gap key pre post)
    (hm : ∀ k v, m k = some v ↔ (k, v) ∈ pre ++ (old.map (key, ·)).toList ++ post) (havl : Avl root)
    (hlist : toList root = pre ++ (new.map (key, ·)).toList ++ post) (hroom : size root ≤ ccolMaxElemCount) :
    Refines { elemCount := size root, root := root } (update m key new) where
  sorted := by
    rw [hlist]
    cases new with
    | none => simpa using hg.sorted_empty
    | some val => exact hg.sorted_filled
  avl := havl
  count := rfl
  room := hroom
  bindings := by
    rw [hlist]
    exact hg.bindings new hm

omit [LinearOrder K] in
theorem size_eq {root : BmapNode K} {pre mid post : List (K × List UInt8)} (h : toList root = pre ++ mid ++ post) :
    size root = pre.length + mid.length + post.length := by
  rw [size, h, length_append, length_append]

theorem Descent.pathHeight_le {root sub : BmapNode K}
    (hd : Descent key root sub path) (htop : nodeHeight root ≤ 90) : pathHeight path (nodeHeight sub) ≤ 90 := by
  rwa [← nodeHeight_plugPath, hd.plug]

theorem insert_new_spec {m : K → Option (List UInt8)} (hr : Refines cbm m) (val : List UInt8)
    (hd : Descent key cbm.root .nil path) (hroom : cbm.elemCount < ccolMaxElemCount) :
    ∃ root, Yields (insertWalk · path (.node key val 1 .nil .nil)) root ∧
      Refines { elemCount := cbm.elemCount + 1, root := root } (update m key (some val)) := by
  have hbind := hr.bindings
  have hcount := hr.count
  rw [hd.list] at hbind
  rw [size_eq hd.list] at hcount
  have htop := hd.pathHeight_le hr.height_le
  obtain ⟨root, hw, havl, hlist⟩ := insertWalk_spec path (t := .node key val 1 .nil .nil) (n := 0)
    ⟨trivial, trivial, rfl, by simp, by simp⟩ rfl (.inl rfl) hd.frames (Nat.le_trans htop (by omega))
  rw [toList_plugPath] at hlist
  have hsize : size root = cbm.elemCount + 1 := by
    rw [size_eq hlist, hcount]
    simp only [toList, nil_append, length_cons, length_nil]
    omega
  have hout := (hd.gap hr.sorted).refines none (some val) hbind havl hlist (by omega)
  rw [hsize] at hout
  exact ⟨root, hw, hout⟩

theorem Refines.absent {m : K → Option (List UInt8)} (hr : Refines cbm m)
    (hd : Descent key cbm.root .nil path) : m key = none := by
  have hbind := hr.bindings
  rw [hd.list] at hbind
  exact (hd.gap hr.sorted).lookup none hbind

theorem Refines.around {m : K → Option (List UInt8)} (hr : Refines cbm m)
    {h : Nat} {l r : BmapNode K} (hd : Descent key cbm.root (.node key v h l r) path) (k : K)
    (u : List UInt8) :
    m k = some u ↔ (k, u) ∈ before path ++ toList l ++ ((some v).map (key, ·)).toList ++ (toList r ++ after path) := by
  rw [hr.bindings, hd.list, toList]
  simp

theorem Refines.present {m : K → Option (List UInt8)} (hr : Refines cbm m)
    {h : Nat} {l r : BmapNode K} (hd : Descent key cbm.root (.node key v h l r) path) :
    m key = some v :=
  (hd.gap_node hr.sorted).lookup (some v) (hr.around hd)

theorem overwrite_spec {m : K → Option (List UInt8)} (hr : Refines cbm m)
    {h : Nat} {l r : BmapNode K} (hd : Descent key cbm.root (.node key v h l r) path)
    (val : List UInt8) :
    Refines { cbm with root := plugPath path (.node key val h l r) } (update m key (some val)) := by
  have havl : Avl (plugPath path (.node key val h l r)) := Avl.plugPath path hd.avl hd.frames
  have hlist : toList (plugPath path (.node key val h l r)) =
      before path ++ toList l ++ ((some val).map (key, ·)).toList ++ (toList r ++ after path) := by
    rw [toList_plugPath, toList]
    simp
  have hsize : size (plugPath path (.node key val h l r)) = cbm.elemCount := by
    rw [hr.count, size, size, toList_plugPath, hd.list]
    simp [toList]
  have hout := (hd.gap_node hr.sorted).refines (some v) (some val) (hr.around hd) havl hlist (hsize ▸ hr.room)
  rwa [hsize] at hout

/-- Insert takes the map to what the specification says, in every case of its outcome. -/
theorem cbstmapInsertElem_spec {m : K → Option (List UInt8)} (hr : Refines cbm m) (key : K)
    (val : List UInt8) (alloc : Bool) :
    ∃ cbm' r m', Yields (cbstmapInsertElem · cbm key val alloc) (cbm', r) ∧
      MapSpec m (.insert key val alloc) ⟨r, none⟩ m' ∧ Refines cbm' m' := by
  obtain ⟨sub, path, hw, hd, hend⟩ := hr.descend key
  cases hnull : isNull cbm.root with
  | true =>
    -- An empty tree: its root is the empty link, and there is room.
    have hnil : cbm.root = .nil := by cases hroot : cbm.root <;> simp_all
    have hd : Descent key cbm.root .nil [] := by
      have hstart := Descent.start key hr.avl
      rwa [hnil] at hstart ⊢
    have hroom : cbm.elemCount < ccolMaxElemCount := by
      rw [hr.count, hnil, size_nil]
      decide
    rcases createNewNode_spec key val alloc with ⟨hc, rfl⟩ | ⟨hc, rfl⟩
    · refine ⟨cbm, .notEnoughMemory, m, fun cast _ => ?_, .noMemory, hr⟩
      simp only [cbstmapInsertElem, hnull, ↓reduceIte, hc]
    · obtain ⟨root, hwalk, hout⟩ := insert_new_spec hr val hd hroom
      obtain rfl := some.inj (hwalk toByte toByte_keepsBytes)
      refine ⟨_, .success, _, fun cast _ => ?_, .inserted (hr.absent hd), hout⟩
      simp only [cbstmapInsertElem, hnull, ↓reduceIte, hc]
  | false =>
    rcases hend with rfl | ⟨v, h, l, r, rfl⟩
    · by_cases hfull : cbm.elemCount = ccolMaxElemCount
      · refine ⟨cbm, .containerFull, m, fun cast _ => ?_, .full (hr.absent hd) (hfull ▸ hr.hasCount), hr⟩
        simp only [cbstmapInsertElem, hnull, Bool.false_eq_true, ↓reduceIte, hw, hfull]
      · rcases createNewNode_spec key val alloc with ⟨hc, rfl⟩ | ⟨hc, rfl⟩
        · refine ⟨cbm, .notEnoughMemory, m, fun cast _ => ?_, .noMemory, hr⟩
          simp only [cbstmapInsertElem, hnull, Bool.false_eq_true, ↓reduceIte, hw, hfull, hc]
        · obtain ⟨root, hwalk, hout⟩ := insert_new_spec hr val hd (Nat.lt_of_le_of_ne hr.room hfull)
          refine ⟨_, .success, _, fun cast hcast => ?_, .inserted (hr.absent hd), hout⟩
          simp only [cbstmapInsertElem, hnull, Bool.false_eq_true, ↓reduceIte, hw, hfull, hc, hwalk cast hcast,
            bind_eq_bind, bind_some]
    · rcases updateBmapNodeValue_spec v val alloc with hu | ⟨hu, rfl⟩
      · refine ⟨_, .keyAlreadyPresent, _, fun cast _ => ?_, .overwritten (hr.present hd), overwrite_spec hr hd val⟩
        simp only [cbstmapInsertElem, hnull, Bool.false_eq_true, ↓reduceIte, hw, hu]
      · refine ⟨cbm, .notEnoughMemory, m, fun cast _ => ?_, .noMemory, hr⟩
        simp only [cbstmapInsertElem, hnull, Bool.false_eq_true, ↓reduceIte, hw, hu, hd.plug]

theorem cbstmapDeleteElem_spec {m : K → Option (List UInt8)} (hr : Refines cbm m) (key : K) :
    ∃ cbm' r m', Yields (cbstmapDeleteElem · cbm key) (cbm', r) ∧ MapSpec m (.delete key) ⟨r, none⟩ m' ∧ Refines cbm' m' := by
  obtain ⟨sub, path, hw, hd, hend⟩ := hr.descend key
  cases hnull : isNull cbm.root with
  | true =>
    have hnil : cbm.root = .nil := by cases hroot : cbm.root <;> simp_all
    have hd : Descent key cbm.root .nil [] := by
      have hstart := Descent.start key hr.avl
      rwa [hnil] at hstart ⊢
    refine ⟨cbm, .keyNotFound, m, fun cast _ => ?_, .notDeleted (hr.absent hd), hr⟩
    simp only [cbstmapDeleteElem, hnull, ↓reduceIte]
  | false =>
    rcases hend with rfl | ⟨v, h, l, r, rfl⟩
    · refine ⟨cbm, .keyNotFound, m, fun cast _ => ?_, .notDeleted (hr.absent hd), hr⟩
      simp only [cbstmapDeleteElem, hnull, Bool.false_eq_true, ↓reduceIte, hw]
    · have htop := hd.pathHeight_le hr.height_le
      have hle := hd.frames.le_pathHeight
      rw [nodeHeight_node] at htop hle
      obtain ⟨t, hremove, htavl, htlist, htheight⟩ := performElementRemoval_spec hd.avl (Nat.le_trans hle htop)
      obtain ⟨root, hwalk, havl, hlist⟩ := deleteWalk_spec path htavl htheight hd.frames (Nat.le_trans htop (by omega))
      have hlist' : toList root =
          before path ++ toList l ++ ((none : Option (List UInt8)).map (key, ·)).toList ++ (toList r ++ after path) := by
        rw [hlist, toList_plugPath, htlist]
        simp
      have hsize : size root = cbm.elemCount - 1 := by
        rw [hr.count, size, size, hlist', hd.list]
        simp [toList]
        omega
      have hroom := hr.room
      have hout := (hd.gap_node hr.sorted).refines (some v) none (hr.around hd) havl hlist' (by omega)
      rw [hsize] at hout
      refine ⟨_, .success, _, fun cast hcast => ?_, .deleted (hr.present hd), hout⟩
      simp only [cbstmapDeleteElem, hnull, Bool.false_eq_true, ↓reduceIte, hw, hremove cast hcast, hwalk cast hcast,
        bind_eq_bind, bind_some]

theorem Refines.empty : Refines (Cbmap.empty : Cbmap K) fun _ => none where
  sorted := .nil
  avl := trivial
  count := rfl
  room := Nat.zero_le _
  bindings := fun k v => by simp [Cbmap.empty, toList]

/-- One call, with either cast: the same step, and one that the specification allows. -/
theorem Cbmap.stepBy_spec {m : K → Option (List UInt8)} (hr : Refines cbm m) (op : Op K) :
    ∃ cbm' answer m', Yields (Cbmap.stepBy · cbm op) (cbm', answer) ∧ MapSpec m op answer m' ∧ Refines cbm' m' := by
  cases op with
  | insert key val alloc =>
    obtain ⟨cbm', r, m', hs, hspec, hr'⟩ := cbstmapInsertElem_spec hr key val alloc
    refine ⟨cbm', _, m', fun cast hcast => ?_, hspec, hr'⟩
    simp only [Cbmap.stepBy, hs cast hcast, map_some]
  | get key =>
    have hfind : ∀ v, cbmapFindNode key cbm.root = some v ↔ _ := fun v => cbmapFindNode_eq_some cbm.root hr.sorted
    simp only [← hr.bindings] at hfind
    have heq : cbmapFindNode key cbm.root = m key := Option.ext hfind
    cases hm : m key with
    | none => exact ⟨_, _, m, fun cast _ => by simp only [Cbmap.stepBy, heq, hm], .missed hm, hr⟩
    | some v => exact ⟨_, _, m, fun cast _ => by simp only [Cbmap.stepBy, heq, hm], .found hm, hr⟩
  | delete key =>
    obtain ⟨cbm', r, m', hs, hspec, hr'⟩ := cbstmapDeleteElem_spec hr key
    refine ⟨cbm', _, m', fun cast hcast => ?_, hspec, hr'⟩
    simp only [Cbmap.stepBy, hs cast hcast, map_some]
  | reset => exact ⟨_, _, _, fun _ _ => rfl, .reset, .empty⟩

theorem Cbmap.step_simulates : Simulation (Cbmap.step (K := K)) MapSpec Refines := by
  intro cbm m op hr
  obtain ⟨cbm', answer, m', hs, hspec, hr'⟩ := Cbmap.stepBy_spec hr op
  exact ⟨cbm', answer, m', hs toByte toByte_keepsBytes, hspec, hr'⟩

/-- Every program runs without a failed assertion, answers like a finite map, and leaves an AVL tree of its bindings. -/
theorem cbstmap_refines_ordered_map (ops : List (Op K)) :
    ∃ cbm answers m, run Cbmap.step (Cbmap.empty : Cbmap K) ops = some (cbm, answers) ∧
      Allows MapSpec (fun _ => none) ops answers m ∧ SortedKeys (toList cbm.root) ∧ Avl cbm.root ∧
      cbm.elemCount = (toList cbm.root).length ∧ ∀ (k : K) (v : List UInt8), m k = some v ↔ (k, v) ∈ toList cbm.root := by
  obtain ⟨cbm, answers, m, hrun, hall, hr⟩ := Cbmap.step_simulates.run Refines.empty ops
  exact ⟨cbm, answers, m, hrun, hall, hr.sorted, hr.avl, hr.count, hr.bindings⟩

/-!
# Fixed stacks and the walks over them
-/

variable {K : Type} [LinearOrder K] {cbm : Cbmap K}

/-! ## Casts along the operations -/

theorem Cbmap.stepChecked_eq {m : K → Option (List UInt8)} (hr : Refines cbm m) (op : Op K) :
    cbm.stepChecked op = cbm.step op := by
  obtain ⟨cbm', answer, -, hs, -, -⟩ := Cbmap.stepBy_spec hr op
  exact (hs toByteChecked toByteChecked_keepsBytes).trans (hs toByte toByte_keepsBytes).symm

/-! ## Reachable maps -/

theorem Refines.exists_run (ops : List (Op K)) :
    ∃ cbm answers m, run Cbmap.step (Cbmap.empty : Cbmap K) ops = some (cbm, answers) ∧ Refines cbm m := by
  obtain ⟨cbm, answers, m, hrun, -, hr⟩ := Cbmap.step_simulates.run Refines.empty ops
  exact ⟨cbm, answers, m, hrun, hr⟩

theorem iterAt_isSome {m : K → Option (List UInt8)} (hr : Refines cbm m) (alloc : Bool) (i : Nat) :
    (iterAt cbm alloc i).isSome := by
  cases alloc with
  | false => rw [iterAt_of_alloc_failed]; rfl
  | true =>
    obtain ⟨iter, hat, -⟩ := iterAt_spec hr.avl hr.height_le i
    rw [hat]
    rfl

/-- No push of a change or of a walk runs past its array, and no height is cut by its cast, in any run. -/
theorem fixed_stacks_suffice (ops : List (Op K)) :
    ∃ cbm answers, run Cbmap.step (Cbmap.empty : Cbmap K) ops = some (cbm, answers) ∧
      run Cbmap.stepChecked (Cbmap.empty : Cbmap K) ops = some (cbm, answers) ∧
      cbm.elemCount ≤ ccolMaxElemCount ∧
      (∀ op, cbm.stepChecked op = cbm.step op ∧ (cbm.stepChecked op).isSome) ∧
      (∀ alloc i, (iterAt cbm alloc i).isSome) ∧
      (isNull cbm.root = false → ∀ n, (clearLoop cbm.root n clearStart).isSome) := by
  obtain ⟨cbm, answers, m, hrun, hr⟩ := Refines.exists_run ops
  have hchecked := Cbmap.step_simulates.run_congr (fun s t op h => Cbmap.stepChecked_eq h op) Refines.empty ops
  refine ⟨cbm, answers, hrun, hchecked.trans hrun, hr.count ▸ hr.room, ?_, iterAt_isSome hr, ?_⟩
  · intro op
    have heq := Cbmap.stepChecked_eq hr op
    obtain ⟨cbm', answer, -, hstep, -, -⟩ := Cbmap.step_simulates cbm m op hr
    exact ⟨heq, by rw [heq, hstep]; rfl⟩
  · intro hnull n
    exact clearLoop_isSome hr.avl hr.height_le (by intro hnil; simp [hnil] at hnull) n

omit [LinearOrder K] in
theorem idxOf_child_lt (t : BmapNode K) {a : Addr} {d : Dir} (hchild : d :: a ∈ postorder t []) (ha : a ∈ postorder t []) :
    (postorder t []).idxOf (d :: a) < (postorder t []).idxOf a := by
  rcases Nat.lt_trichotomy ((postorder t []).idxOf (d :: a)) ((postorder t []).idxOf a) with hlt | heq | hgt
  · exact hlt
  · have hsame := (idxOf_inj hchild).mp heq
    simp at hsame
  · have hpair := pairwise_iff_getElem.mp (postorder_pairwise t []) _ _ (idxOf_lt_length_of_mem ha)
      (idxOf_lt_length_of_mem hchild) hgt
    rw [getElem_idxOf, getElem_idxOf] at hpair
    exact absurd (suffix_cons d a) hpair

theorem clearNodes_spec {m : K → Option (List UInt8)} (hr : Refines cbm m) {n : Nat}
    (hn : 3 * cbm.elemCount ≤ n) :
    clearNodes n cbm = some (Cbmap.empty, postorder cbm.root []) ∧
      (isNull cbm.root = false → ∃ s, clearLoop cbm.root n clearStart = some s ∧ s.stack = [] ∧ s.current = none ∧
        s.destroyed = postorder cbm.root []) := by
  unfold clearNodes
  cases hnull : isNull cbm.root with
  | true =>
    have hnil : cbm.root = .nil := by cases hroot : cbm.root <;> simp_all
    have hzero : cbm.elemCount = 0 := by rw [hr.count, hnil, size_nil]
    have hempty : cbm = Cbmap.empty := by
      rw [Cbmap.empty, ← hzero, ← hnil]
    simp only [↓reduceIte, hnil, Bool.true_eq_false, false_implies, and_true]
    rw [hempty]
    rfl
  | false =>
    rw [hr.count] at hn
    obtain ⟨s, hs, hdone, hdes⟩ := clearLoop_root hr.avl hr.height_le (by intro hnil; simp [hnil] at hnull) hn
    simp only [Bool.false_eq_true, ↓reduceIte, hs, hdone, hdes]
    simp only [ClearState.done, Bool.and_eq_true, List.isEmpty_iff, Option.isNone_iff_eq_none] at hdone
    exact ⟨rfl, fun _ => ⟨s, rfl, hdone.1, hdone.2, hdes⟩⟩

/-- An iterator shows the nodes of a reachable map by ascending key and ends; `_clear_nodes` frees each node once,
behind its children. -/
theorem walks_visit_every_node_once (ops : List (Op K)) :
    ∃ cbm answers, run Cbmap.step (Cbmap.empty : Cbmap K) ops = some (cbm, answers) ∧
      (∀ i, ∃ iter, iterAt cbm true i = some iter ∧
        iter.map CmapIterator.userIter = (inorder cbm.root [])[i]?) ∧
      (∀ i, iterAt cbm false i = some none) ∧ SortedKeys (toList cbm.root) ∧
      (inorder cbm.root []).map (pairsAt cbm.root) = (toList cbm.root).map some ∧
      (∀ a, a ∈ inorder cbm.root [] ↔ subtreeAt cbm.root a ≠ .nil) ∧
      ∀ n, 3 * cbm.elemCount ≤ n → ∃ destroyed, clearNodes n cbm = some (Cbmap.empty, destroyed) ∧
        (isNull cbm.root = false → ∃ s, clearLoop cbm.root n clearStart = some s ∧ s.stack = [] ∧ s.current = none ∧
          s.destroyed = destroyed) ∧
        destroyed.Nodup ∧ (∀ a, a ∈ destroyed ↔ subtreeAt cbm.root a ≠ .nil) ∧
        ∀ a d, d :: a ∈ destroyed → destroyed.idxOf (d :: a) < destroyed.idxOf a := by
  obtain ⟨cbm, answers, m, hrun, hr⟩ := Refines.exists_run ops
  have hmem : ∀ a, a ∈ postorder cbm.root [] ↔ subtreeAt cbm.root a ≠ .nil := by
    intro a
    rw [mem_postorder cbm.root rfl]
    exact and_iff_right (nil_suffix)
  refine ⟨cbm, answers, hrun, ?_, iterAt_of_alloc_failed cbm, hr.sorted, inorder_pairs cbm.root [] rfl, ?_, ?_⟩
  · intro i
    obtain ⟨iter, hat, hshow⟩ := iterAt_spec hr.avl hr.height_le i
    exact ⟨iter, hat, by rw [hshow.userIter, List.head?_drop]⟩
  · intro a
    rw [mem_inorder_iff, hmem]
  · intro n hn
    obtain ⟨hclear, hloop⟩ := clearNodes_spec hr hn
    refine ⟨postorder cbm.root [], hclear, hloop, postorder_nodup _ _, hmem, ?_⟩
    intro a d hchild
    exact idxOf_child_lt cbm.root hchild ((hmem a).mpr (subtreeAt_ne_nil_of_cons ((hmem _).mp hchild)))

end Ccollections.Cbstmap

/-!
# The typed descents and `compare_keys`
-/

namespace Ccollections.Cbstmap.Keyed
open Lib Function List Option
open Chashmap (DataType fixedWidthDataTypeSize)

/-! ## The built-in order -/

/-- The types of the cases of `compare_keys` other than the floating-point one. -/
def exactTypes : List DataType :=
  [.char, .signedChar, .unsignedChar, .short, .unsignedShort, .int, .unsignedInt, .long, .unsignedLong, .longLong,
    .unsignedLongLong, .pointer, .string, .otherTypes]

/-- Without a custom proc, a type either has a kind of its own or compares its bytes. -/
theorem exactTypes_cases {cbm : Cbmap} (hcustom : cbm.customComparisonProc = none) (hexact : cbm.keyType ∈ exactTypes) :
    (∃ t, cbm.cmpKind.ctype cbm.charSigned = some t) ∨ cbm.keyType = .string ∨ cbm.keyType = .otherTypes := by
  rw [cbm.kind_eq, hcustom]
  cases hk : cbm.keyType <;> simp [hk, exactTypes] at hexact ⊢
  all_goals exact ⟨_, rfl⟩

theorem ordersKeys {cbm : Cbmap} (hcustom : cbm.customComparisonProc = none) (hexact : cbm.keyType ∈ exactTypes) :
    OrdersKeys cbm := by
  rcases exactTypes_cases hcustom hexact with ⟨t, ht⟩ | hbytes
  · apply OrdersKeys.of_rank signCompare_threeWay t.value
    · intro p q hp hq heq
      obtain ⟨-, hwidth, h0, -⟩ := ctype_spec ht
      have hlen : ∀ r, Admitted cbm r → r.content.length = t.width := fun r hr =>
        hr.content_length.trans ((hr.size_eq (hwidth ▸ h0)).trans hwidth.symm)
      exact CType.value_injective (hlen p hp) (hlen q hq) heq
    · intro p q hp hq
      exact ⟨_, compareKeys_typed ht hp hq, rfl⟩
  · apply OrdersKeys.of_rank lexCompare_threeWay byteValues
    · intro p q _ _ heq
      exact byteValues_injective heq
    · intro p q hp hq
      obtain ⟨c, hc, hsign⟩ := compareKeys_bytes hcustom hbytes hp hq
      exact ⟨c, hc, hsign.trans (lexCompare_sign _ _).symm⟩

/-! ## The descents -/

def depth : BmapNode CmapPair → Nat
  | .nil => 0
  | .node _ _ _ left right => max (depth left) (depth right) + 1

def AdmittedKeys (cbm : Cbmap) (tree : BmapNode CmapPair) : Prop := ∀ b ∈ toList tree, Admitted cbm b.1

theorem AdmittedKeys.node {cbm : Cbmap} {key : CmapPair} {val : List UInt8} {height : Nat}
    {left right : BmapNode CmapPair} (h : AdmittedKeys cbm (.node key val height left right)) :
    Admitted cbm key ∧ AdmittedKeys cbm left ∧ AdmittedKeys cbm right := by
  refine ⟨h (key, val) ?_, fun b hb => h b ?_, fun b hb => h b ?_⟩
  · simp [toList]
  · simp [toList, hb]
  · simp [toList, hb]

section

variable {cbm : Cbmap} {t : CType} {key : CmapPair}

theorem findTyped_eq (ht : cbm.cmpKind.ctype cbm.charSigned = some t) (hkey : Admitted cbm key)
    (tree : BmapNode CmapPair) (node : Addr) (htree : AdmittedKeys cbm tree) :
    findTyped t (t.value key.content) tree node = findGeneric cbm key tree node ∧
      (findGeneric cbm key tree node).isSome := by
  induction tree generalizing node with
  | nil => exact ⟨rfl, rfl⟩
  | node have_ val height left right ihl ihr =>
    obtain ⟨hnode, hleft, hright⟩ := htree.node
    obtain ⟨-, hwidth, h0, -⟩ := ctype_spec ht
    have hread := CType.read_eq hnode ((hnode.size_eq (hwidth ▸ h0)).trans hwidth.symm) h0
    simp only [findTyped, findGeneric, hread, compareKeys_typed ht hkey hnode, bind_eq_bind, bind_some,
      signCompare_eq, signCompare_lt]
    split
    · exact ⟨rfl, rfl⟩
    · split
      · exact ihl _ hleft
      · exact ihr _ hright

theorem descendTyped_eq (ht : cbm.cmpKind.ctype cbm.charSigned = some t) (hkey : Admitted cbm key)
    (tree : BmapNode CmapPair) (current : Addr) (link : Link) (path : List NodeStackEntry)
    (htree : AdmittedKeys cbm tree) :
    descendTyped t (t.value key.content) tree current link path = descendGeneric cbm key tree current link path ∧
      (path.length + depth tree ≤ cbmapMaxTreeHeight → (descendGeneric cbm key tree current link path).isSome) := by
  induction tree generalizing current link path with
  | nil => exact ⟨rfl, fun _ => rfl⟩
  | node have_ val height left right ihl ihr =>
    obtain ⟨hnode, hleft, hright⟩ := htree.node
    obtain ⟨-, hwidth, h0, -⟩ := ctype_spec ht
    have hread := CType.read_eq hnode ((hnode.size_eq (hwidth ▸ h0)).trans hwidth.symm) h0
    have hgt : signCompare (t.value key.content) (t.value have_.content) > 0 ↔
        t.value have_.content < t.value key.content := by
      rw [← signCompare_lt, signCompare_swap]
      omega
    simp only [descendTyped, descendGeneric, hread, compareKeys_typed ht hkey hnode, bind_eq_bind,
      bind_some, signCompare_eq, hgt, depth]
    by_cases heq : t.value key.content = t.value have_.content
    · rw [if_pos heq, if_pos heq]
      exact ⟨rfl, fun _ => rfl⟩
    · rw [if_neg heq, if_neg heq]
      by_cases hlen : path.length < cbmapMaxTreeHeight
      · rw [if_pos hlen, if_pos hlen]
        -- The two loops test the sides in opposite orders.
        rcases lt_or_gt_of_ne heq with hlt | hgt
        · rw [if_pos hlt, if_neg (not_lt_of_gt hlt)]
          obtain ⟨he, hs⟩ := ihl (.left :: current) (.child current .left)
            (path ++ [{ node := current, parentLink := link }]) hleft
          refine ⟨he, fun hle => hs ?_⟩
          rw [length_append, length_singleton]
          omega
        · rw [if_neg (not_lt_of_gt hgt), if_pos hgt]
          obtain ⟨he, hs⟩ := ihr (.right :: current) (.child current .right)
            (path ++ [{ node := current, parentLink := link }]) hright
          refine ⟨he, fun hle => hs ?_⟩
          rw [length_append, length_singleton]
          omega
      · rw [if_neg hlen, if_neg hlen]
        exact ⟨rfl, fun hle => absurd hle (by omega)⟩

end

/-- Where a map has a typed kind, its two descents are those over `compare_keys`, and they are defined. -/
structure DescentsAgree (cbm : Cbmap) (key : CmapPair) : Prop where
  find : cbmapFindNode cbm key = findGeneric cbm key cbm.root []
  descend : cbmapDescendWithPath cbm key = descendGeneric cbm key cbm.root [] .root []
  find_defined : cbm.cmpKind ≠ .generic → (cbmapFindNode cbm key).isSome
  descend_defined : cbm.cmpKind ≠ .generic → depth cbm.root ≤ cbmapMaxTreeHeight →
    (cbmapDescendWithPath cbm key).isSome

theorem descentsAgree {cbm : Cbmap} {key : CmapPair} (hkey : Admitted cbm key) (htree : AdmittedKeys cbm cbm.root) :
    DescentsAgree cbm key := by
  cases ht : cbm.cmpKind.ctype cbm.charSigned with
  | none =>
    have hgeneric : cbm.cmpKind = .generic := by
      cases hk : cbm.cmpKind <;> simp [hk, CmpKind.ctype] at ht ⊢
    constructor
    · simp only [cbmapFindNode, ht]
    · simp only [cbmapDescendWithPath, ht]
    · exact fun h => absurd hgeneric h
    · exact fun h => absurd hgeneric h
  | some t =>
    obtain ⟨-, hwidth, h0, -⟩ := ctype_spec ht
    have hread := CType.read_eq hkey ((hkey.size_eq (hwidth ▸ h0)).trans hwidth.symm) h0
    obtain ⟨hfind, hfound⟩ := findTyped_eq ht hkey cbm.root [] htree
    obtain ⟨hdescend, hdescended⟩ := descendTyped_eq ht hkey cbm.root [] .root [] htree
    have hf : cbmapFindNode cbm key = findGeneric cbm key cbm.root [] := by
      simp only [cbmapFindNode, ht, hread, bind_eq_bind, bind_some, hfind]
    have hd : cbmapDescendWithPath cbm key = descendGeneric cbm key cbm.root [] .root [] := by
      simp only [cbmapDescendWithPath, ht, hread, bind_eq_bind, bind_some, hdescend]
    exact ⟨hf, hd, fun _ => hf ▸ hfound, fun _ hle => hd ▸ hdescended (by simpa using hle)⟩

/-- `compare_keys` is a total order for every built-in type but the floating-point ones, and the typed descents follow
it. -/
theorem typed_descents_follow_compare_keys (cbm : Cbmap) :
    (cbm.customComparisonProc = none → cbm.keyType ∈ exactTypes → OrdersKeys cbm) ∧
      ∀ key, Admitted cbm key → AdmittedKeys cbm cbm.root → DescentsAgree cbm key :=
  ⟨ordersKeys, fun _ => descentsAgree⟩

/-- A map of two `int` keys, `-1` at the root and `1` to its right. -/
def twoInts : Cbmap where
  charSigned := true
  cmpFloatSmall := fun _ _ _ => none
  keyType := .int
  customComparisonProc := none
  cmpKind := .s32
  root :=
    .node { ptr := some [255, 255, 255, 255], size := 4 } [] 2 .nil
      (.node { ptr := some [1, 0, 0, 0], size := 4 } [] 1 .nil .nil)
  kind_eq := rfl

theorem typed_descents_follow_compare_keys_twoInts :
    OrdersKeys twoInts ∧ DescentsAgree twoInts { ptr := some [0, 0, 0, 0], size := 4 } := by
  obtain ⟨horder, hdescents⟩ := typed_descents_follow_compare_keys twoInts
  refine ⟨horder rfl (by simp [twoInts, exactTypes]), hdescents _ ⟨rfl, by simp⟩ ?_⟩
  intro b hb
  simp only [twoInts, toList, nil_append, mem_cons, not_mem_nil, or_false] at hb
  rcases hb with rfl | rfl
  · exact ⟨rfl, by simp⟩
  · exact ⟨rfl, by simp⟩

end Ccollections.Cbstmap.Keyed
