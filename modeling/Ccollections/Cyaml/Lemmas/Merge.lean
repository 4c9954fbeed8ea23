import Ccollections.Cyaml.Merge
import Mathlib.Data.List.Nodup
import Mathlib.Data.List.Range
import Mathlib.Data.List.Perm.Basic

/-!
# The expansion of merge keys puts every member in its place
-/

namespace Ccollections.Cyaml

open Function List Option

variable {κ ν : Type}

/-! ## Members -/

@[simp] theorem keys_append (a b : Members κ ν) : keys (a ++ b) = keys a ++ keys b := map_append

@[simp] theorem keys_cons (e : κ × ν) (a : Members κ ν) : keys (e :: a) = e.1 :: keys a := rfl

@[simp] theorem keys_nil : keys ([] : Members κ ν) = [] := rfl

/-! ## The walk over the segments -/

section Walk

variable {map full : Members κ ν} {key : κ} {pos start counts : Nat → Nat} {n k idx ei mi : Nat} {seg : Nat → MergeSeg κ}

structure Walked (full : Members κ ν) (pos start counts : Nat → Nat) (k : Nat) (seg : Nat → MergeSeg κ) (ei mi : Nat) : Prop where
  explicit : ∀ j, k ≤ j → j < ei → (seg j).explicitFirst = full[pos j]?.map Prod.fst
  merged : ∀ j, k < j → j < mi → (seg j).mergedFirst = full[start j]?.map Prod.fst
  counts : ∀ j, (seg j).mergedCount = counts j

theorem update_seg {β : Type} {s : MergeSeg κ} {i j : Nat} (f : MergeSeg κ → β) (h : f s = f (seg i)) :
    f (update seg i s j) = f (seg j) := by
  by_cases heq : j = i
  · rw [heq, update_self, h]
  · rw [update_of_ne heq]

theorem noteExplicit_walked (fuel : Nat) (hkey : full[idx]?.map Prod.fst = some key) (hmono : ∀ i j, i ≤ j → pos i ≤ pos j)
    (h : Walked full pos start counts k seg ei mi) (hei : idx ≤ pos ei) (hfuel : n - ei ≤ fuel) :
    Walked full pos start counts k (noteExplicit pos n idx key fuel seg ei).1 (noteExplicit pos n idx key fuel seg ei).2 mi ∧
      ((noteExplicit pos n idx key fuel seg ei).2 < n → idx + 1 ≤ pos (noteExplicit pos n idx key fuel seg ei).2) := by
  induction fuel generalizing seg ei with
  | zero => exact ⟨h, fun hlt => absurd hlt (by simp only [noteExplicit]; omega)⟩
  | succ fuel ih =>
    rw [noteExplicit]
    split
    · rename_i hgo
      refine ih ⟨fun j hk hj => ?_, fun j hk hj => ?_, fun j => ?_⟩ (hei.trans (hmono _ _ (Nat.le_succ ei))) (by omega)
      · by_cases heq : j = ei
        · subst heq
          rw [update_self, hgo.2, hkey]
        · rw [update_of_ne heq]
          exact h.explicit j hk (by omega)
      · exact (update_seg MergeSeg.mergedFirst (by rfl)).trans (h.merged j hk hj)
      · exact (update_seg MergeSeg.mergedCount (by rfl)).trans (h.counts j)
    · refine ⟨h, fun hlt => ?_⟩
      simp only at hlt ⊢
      omega

theorem noteMerged_walked (fuel : Nat) (hkey : full[idx]?.map Prod.fst = some key) (hstart : ∀ i, start (i + 1) = start i + counts i)
    (h : Walked full pos start counts k seg ei mi) (hmi : idx ≤ start mi) (hfuel : n - mi ≤ fuel) :
    ∃ seg' mi', noteMerged n idx key fuel seg mi (start mi) = (seg', mi', start mi') ∧ Walked full pos start counts k seg' ei mi' ∧
      (mi' < n → idx + 1 ≤ start mi') := by
  induction fuel generalizing seg mi with
  | zero => exact ⟨seg, mi, rfl, h, fun hlt => absurd hlt (by omega)⟩
  | succ fuel ih =>
    rw [noteMerged]
    split
    · rename_i hgo
      rw [h.counts, ← hstart]
      refine ih ⟨fun j hk hj => ?_, fun j hk hj => ?_, fun j => ?_⟩ (by rw [hstart]; omega) (by omega)
      · exact (update_seg MergeSeg.explicitFirst (by rfl)).trans (h.explicit j hk hj)
      · by_cases heq : j = mi
        · subst heq
          rw [update_self, hgo.2, hkey]
        · rw [update_of_ne heq]
          exact h.merged j hk (by omega)
      · exact (update_seg MergeSeg.mergedCount (by rfl)).trans (h.counts j)
    · exact ⟨seg, mi, rfl, h, fun hlt => by omega⟩

theorem findSegs_walked (hmono : ∀ i j, i ≤ j → pos i ≤ pos j) (hstart : ∀ i, start (i + 1) = start i + counts i)
    (h : Walked full pos start counts k seg ei mi) (hei : ei < n → idx ≤ pos ei) (hmi : mi < n → idx ≤ start mi)
    (hmap : full.drop idx = map) :
    (∀ j, k ≤ j → j < n → pos j < full.length → (findSegs pos n map idx seg ei mi (start mi) j).explicitFirst = full[pos j]?.map Prod.fst) ∧
    (∀ j, k < j → j < n → start j < full.length →
      (findSegs pos n map idx seg ei mi (start mi) j).mergedFirst = full[start j]?.map Prod.fst) ∧
    ∀ j, (findSegs pos n map idx seg ei mi (start mi) j).mergedCount = counts j := by
  have hstartMono : ∀ i j, i ≤ j → start i ≤ start j := fun i j hij => by
    induction hij with
    | refl => exact Nat.le_refl _
    | step _ ih => exact ih.trans (by rw [hstart]; exact Nat.le_add_right _ _)
  induction map generalizing idx seg ei mi with
  | nil =>
    have hlen : full.length ≤ idx := drop_eq_nil_iff.mp hmap
    refine ⟨fun j hk hj hlt => h.explicit j hk ?_, fun j hk hj hlt => h.merged j hk ?_, h.counts⟩
    · by_contra hge
      have := hmono ei j (by omega)
      have := hei (by omega)
      omega
    · by_contra hge
      have := hstartMono mi j (by omega)
      have := hmi (by omega)
      omega
  | cons e map ih =>
    obtain ⟨key, value⟩ := e
    have hkey : full[idx]?.map Prod.fst = some key := by
      rw [← List.head?_drop, hmap]
      rfl
    have hrest : full.drop (idx + 1) = map := by rw [← tail_drop, hmap, tail_cons]
    have hexplicit : Walked full pos start counts k (noteExplicit pos n idx key n seg ei).1 (noteExplicit pos n idx key n seg ei).2 mi ∧
        ((noteExplicit pos n idx key n seg ei).2 < n → idx + 1 ≤ pos (noteExplicit pos n idx key n seg ei).2) := by
      by_cases hlt : ei < n
      · exact noteExplicit_walked n hkey hmono h (hei hlt) (Nat.sub_le n ei)
      · have hstop : noteExplicit pos n idx key n seg ei = (seg, ei) := by
          cases n with
          | zero => rfl
          | succ n => rw [noteExplicit, if_neg fun hgo => hlt hgo.1]
        rw [hstop]
        exact ⟨h, fun hlt' => absurd hlt' hlt⟩
    obtain ⟨hwalked, hei'⟩ := hexplicit
    have hmerged : ∃ seg' mi', noteMerged n idx key n (noteExplicit pos n idx key n seg ei).1 mi (start mi) = (seg', mi', start mi') ∧
        Walked full pos start counts k seg' (noteExplicit pos n idx key n seg ei).2 mi' ∧ (mi' < n → idx + 1 ≤ start mi') := by
      by_cases hlt : mi < n
      · exact noteMerged_walked n hkey hstart hwalked (hmi hlt) (Nat.sub_le n mi)
      · refine ⟨_, mi, ?_, hwalked, fun hlt' => absurd hlt' hlt⟩
        cases n with
        | zero => rfl
        | succ n => rw [noteMerged, if_neg fun hgo => hlt hgo.1]
    obtain ⟨seg', mi', hnote, hwalked', hmi'⟩ := hmerged
    rw [findSegs]
    simp only [hnote]
    exact ih hwalked' hei' hmi' hrest

end Walk

section Plain

variable {E : Members κ ν} {M : Nat → Members κ ν} {pos : Nat → Nat} {seg : Nat → MergeSeg κ} {k n : Nat}

theorem drop_between (hmono : ∀ i j, i ≤ j → pos i ≤ pos j) (i : Nat) :
    E.drop (pos i) = between E pos i ++ E.drop (pos (i + 1)) := by
  have hle := hmono i (i + 1) (Nat.le_succ i)
  rw [between]
  conv_lhs => rw [← take_append_drop (pos (i + 1) - pos i) (E.drop (pos i)), drop_drop]
  rw [Nat.add_sub_cancel' hle]

theorem length_between (hend : pos (n + 1) ≤ E.length) : (between E pos n).length = pos (n + 1) - pos n := by
  rw [between, length_take, length_drop]
  omega

structure Found (E : Members κ ν) (M : Nat → Members κ ν) (pos : Nat → Nat) (seg : Nat → MergeSeg κ) (k n : Nat) : Prop where
  mono : ∀ i j, i ≤ j → pos i ≤ pos j
  ends : pos n = E.length
  count : ∀ j, j < n → (seg j).mergedCount = (M j).length
  merged : ∀ j, k < j → j < n → M j ≠ [] → (seg j).mergedFirst = (M j).head?.map Prod.fst
  explicit : ∀ j, k ≤ j → j < n → between E pos j ≠ [] → (seg j).explicitFirst = (between E pos j).head?.map Prod.fst

theorem Found.le_length (h : Found E M pos seg k n) {i : Nat} (hi : i < n) : pos (i + 1) ≤ E.length :=
  h.ends ▸ h.mono _ _ hi

theorem flatMap_getD (placed : List (Members κ ν)) : ((List.range placed.length).flatMap fun i => placed.getD i []) = placed.flatten := by
  induction placed using List.reverseRecOn with
  | nil => rfl
  | append_singleton placed last ih =>
    rw [length_append, length_singleton, range_succ, flatMap_append, flatten_concat, ← ih]
    congr 1
    · refine flatMap_congr fun i hi => ?_
      simp only [getD_eq_getElem?_getD, List.getElem?_append_left (mem_range.mp hi)]
    · simp

theorem take_between (hmono : ∀ i j, i ≤ j → pos i ≤ pos j) (n : Nat) :
    E.take (pos 0) ++ (List.range n).flatMap (between E pos) = E.take (pos n) := by
  induction n with
  | zero => simp
  | succ n ih =>
    rw [range_succ, flatMap_append, ← append_assoc, ih]
    have hsum := Nat.add_sub_cancel' (hmono n (n + 1) (Nat.le_succ n))
    conv_rhs => rw [← hsum, take_add]
    simp [between]

theorem firstMoving_spec (entries : List (MergeEntry κ ν)) (explicitCount fuel k : Nat) :
    k ≤ firstMoving entries explicitCount fuel k ∧ firstMoving entries explicitCount fuel k ≤ k + fuel ∧
      ∀ i, k ≤ i → i < firstMoving entries explicitCount fuel k → posAt entries explicitCount (i + 1) ≤ posAt entries explicitCount i := by
  induction fuel generalizing k with
  | zero => exact ⟨Nat.le_refl _, Nat.le_refl _, fun i hi hlt => absurd hlt (Nat.not_lt.mpr hi)⟩
  | succ fuel ih =>
    rw [firstMoving]
    split
    · exact ⟨Nat.le_refl _, Nat.le_add_right _ _, fun i hi hlt => absurd hlt (Nat.not_lt.mpr hi)⟩
    · obtain ⟨hle, hge, hsame⟩ := ih (k + 1)
      refine ⟨Nat.le_of_succ_le hle, by omega, fun i hi hlt => ?_⟩
      rcases Nat.lt_or_eq_of_le hi with hlt' | rfl
      · exact hsame i hlt' hlt
      · omega

theorem flatMap_before (hmono : ∀ i j, i ≤ j → pos i ≤ pos j) (hsame : ∀ i < k, pos (i + 1) ≤ pos i) :
    pos k = pos 0 ∧ ((List.range k).flatMap fun i => M i ++ between E pos i) = (List.range k).flatMap M := by
  induction k with
  | zero => exact ⟨rfl, rfl⟩
  | succ k ih =>
    obtain ⟨hpos, hflat⟩ := ih fun i hi => hsame i (Nat.lt_succ_of_lt hi)
    have heq := Nat.le_antisymm (hsame k (Nat.lt_succ_self k)) (hmono k (k + 1) (Nat.le_succ k))
    have hnone : between E pos k = [] := by rw [between, heq, Nat.sub_self, take_zero]
    refine ⟨heq.trans hpos, ?_⟩
    rw [range_succ, flatMap_append, flatMap_append, hflat]
    simp [hnone]

end Plain

/-! ## The frame -/

structure FrameOk (f : Members κ ν × List (MergeEntry κ ν)) : Prop where
  nodup : (keys f.1).Nodup
  sorted : f.2.Pairwise fun e e' => e.pos ≤ e'.pos
  inside : ∀ e ∈ f.2, e.pos ≤ f.1.length

theorem FrameOk.mono {f : Members κ ν × List (MergeEntry κ ν)} (h : FrameOk f) (i j : Nat) (hij : i ≤ j) :
    posAt f.2 f.1.length i ≤ posAt f.2 f.1.length j := by
  rw [posAt, posAt]
  by_cases hj : j < f.2.length
  · rw [List.getElem?_eq_getElem hj, List.getElem?_eq_getElem (Nat.lt_of_le_of_lt hij hj)]
    rcases Nat.lt_or_eq_of_le hij with hlt | rfl
    · exact pairwise_iff_getElem.mp h.sorted i j _ hj hlt
    · exact Nat.le_refl _
  · rw [List.getElem?_eq_none (Nat.not_lt.mp hj)]
    by_cases hi : i < f.2.length
    · rw [List.getElem?_eq_getElem hi]
      exact h.inside _ (getElem_mem hi)
    · rw [List.getElem?_eq_none (Nat.not_lt.mp hi)]

/-! ## Keys -/

variable [DecidableEq κ] {map source : Members κ ν} {key : κ} {value : ν} {entries : List (MergeEntry κ ν)}

theorem holds_iff : holds map key = true ↔ key ∈ keys map := by
  simp [holds, keys, lookup_isSome_iff]

theorem lookup_append (a b : Members κ ν) (key : κ) : (a ++ b).lookup key = (a.lookup key).or (b.lookup key) := by
  induction a with
  | nil => rfl
  | cons e a ih =>
    rw [cons_append, lookup_cons, lookup_cons, ih]
    cases key == e.1 <;> rfl

theorem lookup_cons_if {β : Type} (e : κ × β) (a : Members κ β) (key : κ) :
    (e :: a).lookup key = if key = e.1 then some e.2 else a.lookup key := by
  rw [lookup_cons]
  by_cases h : key = e.1
  · rw [if_pos h, beq_iff_eq.mpr h]
  · rw [if_neg h, beq_eq_false_iff_ne.mpr h]

theorem lookup_of_notMem (h : key ∉ keys map) : map.lookup key = none := by
  rw [← not_isSome_iff_eq_none]
  exact fun hsome => h (holds_iff.mp hsome)

/-! ## Moves -/

theorem nextEntry_behind {p : Members κ ν} (hp : key ∉ keys p) (s : Members κ ν) :
    nextEntry (p ++ (key, value) :: s) key = s.head?.map Prod.fst := by
  induction p with
  | nil => simp [nextEntry]
  | cons e p ih =>
    simp only [keys_cons, mem_cons, not_or] at hp
    rw [cons_append, nextEntry, if_neg (Ne.symm hp.1), ih hp.2]

theorem mergeMoveToEnd_append (p s q : Members κ ν) (first : Option κ) (hnodup : (keys (p ++ s ++ q)).Nodup)
    (hfirst : s ≠ [] → first = s.head?.map Prod.fst) : mergeMoveToEnd s.length first (p ++ s ++ q) = p ++ q ++ s := by
  induction s generalizing q first with
  | nil => cases first <;> simp [mergeMoveToEnd]
  | cons e s ih =>
    obtain ⟨key, child⟩ := e
    cases hfirst (cons_ne_nil _ _)
    have hparts : (keys p ++ key :: (keys s ++ keys q)).Nodup := by simpa using hnodup
    obtain ⟨-, htail, hapart⟩ := nodup_append.mp hparts
    have hp : key ∉ keys p := fun hmem => hapart _ hmem _ mem_cons_self rfl
    have hsq : key ∉ keys (s ++ q) := by simpa using (nodup_cons.mp htail).1
    have hlookup : (p ++ (key, child) :: s ++ q).lookup key = some child := by
      rw [append_assoc, lookup_append, lookup_of_notMem hp]
      simp
    have hdelete : (p ++ (key, child) :: s ++ q).filter (·.1 ≠ key) = p ++ s ++ q := by
      have hkept : ∀ l : Members κ ν, key ∉ keys l → l.filter (fun e => decide (e.1 ≠ key)) = l := fun l hl =>
        filter_eq_self.mpr fun e he => decide_eq_true fun heq => hl (heq ▸ mem_map_of_mem he)
      rw [append_assoc, filter_append, hkept p hp, cons_append, filter_cons_of_neg (by simp), hkept _ hsq,
        append_assoc]
    simp only [length_cons, List.head?_cons, map_some, mergeMoveToEnd, hlookup, hdelete]
    have hnext : s ≠ [] → nextEntry (p ++ (key, child) :: s ++ q) key = s.head?.map Prod.fst := by
      intro hne
      rw [append_assoc, cons_append, nextEntry_behind hp]
      cases s with
      | nil => exact absurd rfl hne
      | cons => rfl
    have hrest := ih (q ++ [(key, child)]) _ ?_ hnext
    · simpa using hrest
    · refine (List.Perm.nodup_iff ?_).mp hparts
      simp only [keys_append, keys_cons, keys_nil, append_assoc]
      refine List.Perm.append_left _ ?_
      rw [← append_assoc]
      exact (perm_append_singleton key _).symm

/-! ## The final order -/

theorem mergeMoveToEnd_segment {p s q : Members κ ν} {first : Option κ} {count : Nat} (hmap : map = p ++ s ++ q)
    (hnodup : (keys map).Nodup) (hcount : count = s.length) (hfirst : s ≠ [] → first = s.head?.map Prod.fst) :
    mergeMoveToEnd count first map = p ++ q ++ s ∧ (keys (p ++ q ++ s)).Nodup := by
  subst hmap hcount
  refine ⟨mergeMoveToEnd_append p s q first hnodup hfirst, ?_⟩
  refine (List.Perm.nodup_iff (List.Perm.map _ ?_)).mp hnodup
  rw [append_assoc, append_assoc]
  exact perm_append_comm.append_left p

section Reorder

variable {E : Members κ ν} {M : Nat → Members κ ν} {pos : Nat → Nat} {seg : Nat → MergeSeg κ} {k n : Nat}

theorem Found.move (h : Found E M pos seg k n) {i : Nat} (hk : k ≤ i) (hi : i < n) {a b : Members κ ν}
    (hmap : map = a ++ E.drop (pos i) ++ b) (hnodup : (keys map).Nodup) :
    mergeMoveToEnd (pos (i + 1) - pos i) (seg i).explicitFirst map = a ++ E.drop (pos (i + 1)) ++ (b ++ between E pos i) ∧
      (keys (a ++ E.drop (pos (i + 1)) ++ (b ++ between E pos i))).Nodup := by
  rw [drop_between h.mono i] at hmap
  have hmoved := mergeMoveToEnd_segment (p := a) (s := between E pos i) (q := E.drop (pos (i + 1)) ++ b)
    (hmap.trans (by simp only [append_assoc])) hnodup (length_between (h.le_length hi)).symm (h.explicit i hk hi)
  simpa only [append_assoc] using hmoved

theorem Found.moveSegs (h : Found E M pos seg k n) (fuel i : Nat) (hn : i + fuel = n) (hk : k < i) (a b d : Members κ ν)
    (hmap : map = a ++ E.drop (pos i) ++ (b ++ (List.range' i fuel).flatMap M ++ d)) (hnodup : (keys map).Nodup) :
    moveSegs pos seg k fuel i map = a ++ b ++ d ++ (List.range' i fuel).flatMap fun j => M j ++ between E pos j := by
  induction fuel generalizing i map d with
  | zero =>
    have hnone : E.drop (pos i) = [] := drop_eq_nil_iff.mpr (by rw [← h.ends, ← hn]; exact Nat.le_refl _)
    rw [Cyaml.moveSegs, hmap, hnone]
    simp
  | succ fuel ih =>
    rw [List.range'_succ, flatMap_cons] at hmap
    obtain ⟨hmerged, hnodup'⟩ := mergeMoveToEnd_segment (p := a ++ E.drop (pos i) ++ b) (s := M i)
      (q := (List.range' (i + 1) fuel).flatMap M ++ d) (hmap.trans (by simp only [append_assoc])) hnodup
      (h.count i (by omega)) (h.merged i hk (by omega))
    obtain ⟨hmoved, hnodup''⟩ := h.move (a := a) (b := b ++ (List.range' (i + 1) fuel).flatMap M ++ d ++ M i) (Nat.le_of_lt hk)
      (by omega) (by simp only [append_assoc]) hnodup'
    rw [Cyaml.moveSegs]
    simp only [gt_iff_lt, hk, if_true]
    rw [hmerged, hmoved, ih (i + 1) (by omega) (Nat.lt_succ_of_lt hk) (d ++ M i ++ between E pos i) (by simp only [append_assoc])
      hnodup'', List.range'_succ, flatMap_cons]
    simp only [append_assoc]

theorem getElem?_behind {α : Type} (p s : List α) : (p ++ s)[p.length]? = s.head? := by
  rw [List.getElem?_append_right (Nat.le_refl _), Nat.sub_self, List.head?_eq_getElem?]

theorem range_split {n j : Nat} (hj : j < n) : List.range n = List.range j ++ j :: List.range' (j + 1) (n - (j + 1)) := by
  have happend := @List.range'_append_1 0 j (n - (j + 1) + 1)
  rw [Nat.zero_add, List.range'_succ, show j + (n - (j + 1) + 1) = n by omega] at happend
  rw [range_eq_range', range_eq_range', happend]

theorem mergeReorder_eq (counts : List Nat) (hlen : counts.length = entries.length)
    (hcounts : ∀ j < entries.length, counts.getD j 0 = (M j).length)
    (hmono : ∀ i j, i ≤ j → posAt entries E.length i ≤ posAt entries E.length j)
    (hnodup : (keys (E ++ (List.range entries.length).flatMap M)).Nodup) :
    mergeReorder (E ++ (List.range entries.length).flatMap M) entries counts E.length =
      E.take (posAt entries E.length 0) ++
        (List.range entries.length).flatMap fun i => M i ++ between E (posAt entries E.length) i := by
  obtain ⟨-, hk, hsame⟩ := firstMoving_spec entries E.length entries.length 0
  rw [Nat.zero_add] at hk
  obtain ⟨hfirst, hbefore⟩ := flatMap_before (M := M) (E := E) hmono fun i hi => hsame i (Nat.zero_le i) hi
  have hends : posAt entries E.length entries.length = E.length := by simp [posAt]
  rw [mergeReorder]
  generalize firstMoving entries E.length entries.length 0 = k at hk hfirst hbefore hsame
  generalize posAt entries E.length = pos at hmono hfirst hbefore hends
  generalize entries.length = n at hlen hcounts hnodup hk hends ⊢
  simp only
  by_cases hkn : k = n
  · subst hkn
    rw [if_pos rfl, hbefore, ← hfirst, hends, take_length]
  · rw [if_neg hkn]
    have hlt : k < n := by omega
    have hsplit := range_split hlt
    obtain ⟨start, hstart⟩ : ∃ start : Nat → Nat, start = fun j => E.length + (counts.take j).sum := ⟨_, rfl⟩
    have hnext : ∀ j, start (j + 1) = start j + counts.getD j 0 := by
      intro j
      rw [hstart]
      simp only [take_add_one, sum_append, getD_eq_getElem?_getD]
      cases counts[j]? <;> simp [Nat.add_assoc]
    have hlength : ∀ j ≤ n, (E ++ (List.range j).flatMap M).length = start j := by
      intro j hj
      induction j with
      | zero => simp [hstart]
      | succ j ih =>
        rw [hnext, ← ih (Nat.le_of_succ_le hj), hcounts j hj, range_succ]
        simp [Nat.add_assoc]
    have hinit : Walked (E ++ (List.range n).flatMap M) pos start (fun j => counts.getD j 0) k
        (fun i => ⟨none, none, counts.getD i 0⟩) k (k + 1) :=
      ⟨fun j hj hj' => absurd hj' (Nat.not_lt.mpr hj), fun j hj hj' => absurd hj' (by omega), fun _ => rfl⟩
    have hsum : E.length + (counts.take (k + 1)).sum = start (k + 1) := by rw [hstart]
    obtain ⟨hexplicit, hmerged, hcount⟩ :=
      findSegs_walked (n := n) hmono hnext hinit (fun _ => Nat.zero_le _) (fun _ => Nat.zero_le _) drop_zero
    rw [hsum]
    generalize findSegs pos n (E ++ (List.range n).flatMap M) 0 (fun i => ⟨none, none, counts.getD i 0⟩) k (k + 1) (start (k + 1)) = seg
      at hexplicit hmerged hcount
    have hfound : Found E M pos seg k n := by
      refine ⟨hmono, hends, fun j hj => (hcount j).trans (hcounts j hj), fun j hj hj' hne => ?_, fun j hj hj' hne => ?_⟩
      · have hat : (E ++ (List.range n).flatMap M)[start j]? = (M j).head? := by
          rw [range_split hj', ← hlength j (Nat.le_of_lt hj'), flatMap_append, ← append_assoc, getElem?_behind]
          cases hM : M j with
          | nil => exact absurd hM hne
          | cons => simp [hM]
        rw [hmerged j hj hj' ?_, hat]
        refine Nat.lt_of_not_le fun hge => hne ?_
        rw [List.getElem?_eq_none hge] at hat
        exact List.head?_eq_none_iff.mp hat.symm
      · have hpos : pos j < E.length := by
          refine Nat.lt_of_not_le fun hge => hne ?_
          rw [between, drop_eq_nil_iff.mpr hge, take_nil]
        have hhead : (between E pos j).head? = E[pos j]? := by
          have hdrop := congrArg List.head? (drop_between (E := E) hmono j)
          rw [List.head?_drop] at hdrop
          rw [hdrop]
          cases hb : between E pos j with
          | nil => exact absurd hb hne
          | cons => rfl
        rw [hexplicit j hj hj' (by rw [length_append]; omega), hhead, List.getElem?_append_left hpos]
    obtain ⟨fuel, hfuel⟩ : ∃ fuel, n - k = fuel + 1 := ⟨n - k - 1, by omega⟩
    have hrest : n - (k + 1) = fuel := by omega
    rw [hrest] at hsplit
    have hmap : E ++ (List.range n).flatMap M =
        E.take (pos k) ++ E.drop (pos k) ++ ((List.range k).flatMap M ++ M k ++ (List.range' (k + 1) fuel).flatMap M) := by
      rw [take_append_drop, hsplit]
      simp
    obtain ⟨hmoved, hnodup'⟩ := hfound.move (Nat.le_refl k) hlt hmap hnodup
    rw [hfuel, moveSegs]
    simp only [gt_iff_lt, Nat.lt_irrefl, if_false]
    rw [hmoved, hfound.moveSegs fuel (k + 1) (by omega) (Nat.lt_succ_self k) (E.take (pos k)) ((List.range k).flatMap M ++ M k)
      (between E pos k) (by simp only [append_assoc]) hnodup', hsplit, flatMap_append, hbefore, hfirst]
    simp

end Reorder

/-! ## Winners and places -/

section Passes

variable {win : κ → Option ν} {seen : List κ} {winners : Members κ (Option ν)} {e : κ × ν}

theorem placedBy_nodup (win : κ → Option ν) (rest : List κ) (h : seen.Nodup) : (seen ++ keys (placedBy win seen rest)).Nodup := by
  induction rest generalizing seen with
  | nil => simpa [placedBy] using h
  | cons key rest ih =>
    rw [placedBy]
    split
    · exact ih h
    · have hnew := ih (nodup_append.mpr ⟨h, nodup_singleton key, fun a ha b hb heq => by simp_all⟩)
      cases win key with
      | none =>
        refine hnew.sublist ?_
        simp
      | some value => simpa using hnew

theorem placedLists_nodup (win : κ → Option ν) (entries : List (MergeEntry κ ν)) (h : seen.Nodup) :
    (seen ++ keys (placedLists win seen entries).flatten).Nodup := by
  induction entries generalizing seen with
  | nil => simpa [placedLists] using h
  | cons e entries ih =>
    have hrest := ih (placedBy_nodup win (keys e.members) h)
    simpa [placedLists] using hrest

theorem length_placedLists (win : κ → Option ν) (seen : List κ) (entries : List (MergeEntry κ ν)) : (placedLists win seen entries).length = entries.length := by
  induction entries generalizing seen with
  | nil => rfl
  | cons e entries ih => simp [placedLists, ih]

theorem mem_placedBy {rest : List κ} {value : ν} (hwin : ∀ k ∈ rest, (win k).isSome) :
    (key, value) ∈ placedBy win seen rest ↔ key ∉ seen ∧ key ∈ rest ∧ win key = some value := by
  induction rest generalizing seen with
  | nil => simp [placedBy]
  | cons k rest ih =>
    have ih' := fun {seen : List κ} => @ih seen fun k' hk' => hwin k' (mem_cons_of_mem k hk')
    obtain ⟨v, hv⟩ := isSome_iff_exists.mp (hwin k mem_cons_self)
    rw [placedBy]
    split
    · rw [ih']
      constructor
      · exact fun ⟨hnew, hmem, hval⟩ => ⟨hnew, mem_cons_of_mem k hmem, hval⟩
      · rintro ⟨hnew, hmem, hval⟩
        refine ⟨hnew, (mem_cons.mp hmem).resolve_left ?_, hval⟩
        rintro rfl
        exact hnew ‹_›
    · simp only [hv, toList_some, map_cons, map_nil, singleton_append, mem_cons, ih', mem_append,
        not_or, Prod.mk.injEq, not_mem_nil, or_false]
      by_cases hk : key = k
      · rw [hk, hv]
        simp [‹k ∉ seen›, eq_comm]
      · simp [hk]

theorem mem_placedLists (entries : List (MergeEntry κ ν)) (hwin : ∀ e ∈ entries, ∀ k ∈ keys e.members, (win k).isSome) :
    (key, value) ∈ (placedLists win seen entries).flatten ↔
      key ∉ seen ∧ (∃ e ∈ entries, key ∈ keys e.members) ∧ win key = some value := by
  induction entries generalizing seen with
  | nil => simp [placedLists]
  | cons e entries ih =>
    have hplaced : ∀ k, k ∈ keys (placedBy win seen (keys e.members)) ↔ k ∉ seen ∧ k ∈ keys e.members := by
      intro k
      simp only [keys, List.mem_map, Prod.exists, exists_and_right, exists_eq_right]
      constructor
      · rintro ⟨v, hv⟩
        obtain ⟨hnew, hmem, -⟩ := (mem_placedBy (hwin e mem_cons_self)).mp hv
        exact ⟨hnew, by simpa [keys] using hmem⟩
      · rintro ⟨hnew, hmem⟩
        have hmem' : k ∈ keys e.members := by simpa [keys] using hmem
        obtain ⟨v, hv⟩ := isSome_iff_exists.mp (hwin e mem_cons_self k hmem')
        exact ⟨v, (mem_placedBy (hwin e mem_cons_self)).mpr ⟨hnew, hmem', hv⟩⟩
    simp only [placedLists, flatten_cons, mem_append, mem_placedBy (hwin e mem_cons_self),
      ih fun e' he' => hwin e' (mem_cons_of_mem e he'), hplaced, mem_cons, exists_eq_or_imp]
    by_cases hseen : key ∈ seen <;> by_cases hhere : key ∈ keys e.members <;> simp [hseen, hhere]

/-- Between the passes a key that is placed or explicit has no value left, every other one the winning value. -/
def Waiting (win : κ → Option ν) (map : Members κ ν) (winners : Members κ (Option ν)) : Prop :=
  ∀ k, (k ∈ keys map → winners.lookup k = none ∨ winners.lookup k = some none) ∧
    (k ∉ keys map → winners.lookup k = (win k).map some)

theorem lookup_replace (winners : Members κ (Option ν)) (key k : κ) (h : (winners.lookup key).isSome) :
    (winners.map fun w => if w.1 = key then (key, none) else w).lookup k = if k = key then some none else winners.lookup k := by
  have hother : ∀ l : Members κ (Option ν), k ≠ key →
      (l.map fun w => if w.1 = key then (key, none) else w).lookup k = l.lookup k := by
    intro l hk
    induction l with
    | nil => rfl
    | cons w l ih =>
      rw [map_cons, lookup_cons_if, lookup_cons_if, ih]
      by_cases hw : w.1 = key
      · rw [if_pos hw, if_neg hk, if_neg fun heq => hk (heq.trans hw)]
      · rw [if_neg hw]
  by_cases hk : k = key
  · subst hk
    rw [if_pos rfl]
    induction winners with
    | nil => cases h
    | cons w winners ih =>
      rw [map_cons, lookup_cons_if]
      by_cases hw : w.1 = k
      · rw [if_pos hw, if_pos rfl]
      · rw [lookup_cons_if, if_neg (Ne.symm hw)] at h
        rw [if_neg hw, if_neg (Ne.symm hw), ih h]
  · rw [if_neg hk, hother winners hk]

theorem placeMember_eq (h : Waiting win map winners) (he : (win e.1).isSome) :
    ∃ winners', placeMember (map, winners) e = (map ++ placedBy win (keys map) [e.1], winners') ∧
      Waiting win (map ++ placedBy win (keys map) [e.1]) winners' := by
  obtain ⟨key, value⟩ := e
  simp only at he ⊢
  rw [placeMember, placedBy, placedBy]
  by_cases hmem : key ∈ keys map
  · rw [if_pos hmem, append_nil]
    rcases (h key).1 hmem with hnone | hplaced
    · rw [hnone]
      refine ⟨_, rfl, fun k => ?_⟩
      rw [lookup_append, lookup_cons_if]
      by_cases hk : k = key
      · subst hk
        rw [hnone, if_pos rfl]
        exact ⟨fun _ => .inr rfl, fun hnot => absurd hmem hnot⟩
      · rw [if_neg hk, lookup_nil, or_none]
        exact h k
    · rw [hplaced]
      exact ⟨_, rfl, h⟩
  · obtain ⟨v, hv⟩ := isSome_iff_exists.mp he
    have hwaits : winners.lookup key = some (some v) := by rw [(h key).2 hmem, hv, map_some]
    rw [if_neg hmem, hwaits, hv]
    refine ⟨_, rfl, fun k => ?_⟩
    simp only
    rw [lookup_replace _ _ _ (by rw [hwaits]; rfl)]
    by_cases hk : k = key
    · subst hk
      rw [if_pos rfl]
      exact ⟨fun _ => .inr rfl, fun hnot => absurd (by simp) hnot⟩
    · rw [if_neg hk]
      refine ⟨fun hmem' => (h k).1 ?_, fun hnot => (h k).2 fun hmem' => hnot ?_⟩
      · simpa [placedBy, hk] using hmem'
      · rw [keys_append]
        exact mem_append_left _ hmem'

theorem placeMembers_eq (l : Members κ ν) (h : Waiting win map winners) (hl : ∀ k ∈ keys l, (win k).isSome) :
    ∃ winners', l.foldl placeMember (map, winners) = (map ++ placedBy win (keys map) (keys l), winners') ∧
      Waiting win (map ++ placedBy win (keys map) (keys l)) winners' := by
  induction l generalizing map winners with
  | nil => exact ⟨winners, by simp [placedBy], by simpa [placedBy] using h⟩
  | cons e l ih =>
    obtain ⟨winners', hstep, hwaits⟩ := placeMember_eq (e := e) h (hl e.1 mem_cons_self)
    obtain ⟨winners'', hrest, hwaits'⟩ := ih hwaits fun k hk => hl k (mem_cons_of_mem _ hk)
    have hcons : map ++ placedBy win (keys map) [e.1] ++ placedBy win (keys (map ++ placedBy win (keys map) [e.1])) (keys l) =
        map ++ placedBy win (keys map) (keys (e :: l)) := by
      obtain ⟨v, hv⟩ := isSome_iff_exists.mp (hl e.1 mem_cons_self)
      rw [keys_cons, append_assoc]
      by_cases hmem : e.1 ∈ keys map <;> simp [placedBy, hmem, hv]
    rw [hcons] at hrest hwaits'
    exact ⟨winners'', by rw [foldl_cons, hstep, hrest], hwaits'⟩

theorem placeEntries_eq (entries : List (MergeEntry κ ν)) (h : Waiting win map winners)
    (hwin : ∀ e ∈ entries, ∀ k ∈ keys e.members, (win k).isSome) :
    placeEntries entries (map, winners) =
      (map ++ (placedLists win (keys map) entries).flatten, (placedLists win (keys map) entries).map List.length) := by
  induction entries generalizing map winners with
  | nil => simp [placeEntries, placedLists]
  | cons e entries ih =>
    obtain ⟨winners', hplaced, hwaits⟩ := placeMembers_eq e.members h (hwin e mem_cons_self)
    rw [placeEntries]
    simp only [hplaced, ih hwaits fun e' he' => hwin e' (mem_cons_of_mem e he')]
    simp [placedLists]

theorem chooseWinners_lookup (source : Members κ ν) (winners : Members κ (Option ν)) (k : κ) :
    (chooseWinners map winners source).lookup k =
      (winners.lookup k).or (if k ∈ keys map then none else (source.lookup k).map some) := by
  rw [chooseWinners]
  induction source generalizing winners with
  | nil => rw [foldl_nil, lookup_nil, map_none, ite_self, or_none]
  | cons e source ih =>
    rw [foldl_cons, ih, lookup_cons_if]
    by_cases hk : k = e.1
    · subst hk
      rw [if_pos rfl]
      by_cases hmap : e.1 ∈ keys map
      · rw [if_pos hmap, if_pos (by rw [holds_iff.mpr hmap]; rfl), if_pos hmap]
      · have hfalse : holds map e.1 = false := Bool.eq_false_iff.mpr fun hholds => hmap (holds_iff.mp hholds)
        rw [if_neg hmap, if_neg hmap, hfalse, Bool.false_or, holds]
        cases hwinner : winners.lookup e.1 with
        | none =>
          rw [if_neg (by simp), lookup_append, hwinner, lookup_cons_if, if_pos rfl]
          rfl
        | some v =>
          rw [isSome_some, if_pos rfl, hwinner]
          rfl
    · rw [if_neg hk]
      split
      · rfl
      · rw [lookup_append, lookup_cons_if, if_neg hk, lookup_nil, or_none]

theorem chooseWinners_waiting (map : Members κ ν) (entries : List (MergeEntry κ ν)) :
    Waiting (winner entries) map (entries.reverse.foldl (fun winners e => chooseWinners map winners e.members) []) := by
  have hlookup : ∀ (l : List (MergeEntry κ ν)) (winners : Members κ (Option ν)) (k : κ),
      (l.foldl (fun winners e => chooseWinners map winners e.members) winners).lookup k =
        (winners.lookup k).or (if k ∈ keys map then none else ((l.flatMap MergeEntry.members).lookup k).map some) := by
    intro l
    induction l with
    | nil => simp
    | cons e l ih =>
      intro winners k
      rw [List.foldl_cons, ih, chooseWinners_lookup, List.flatMap_cons, lookup_append]
      by_cases hk : k ∈ keys map
      · simp [hk]
      · simp only [hk, if_false, Option.or_assoc]
        cases e.members.lookup k <;> simp
  intro k
  rw [hlookup]
  exact ⟨fun hk => .inl (by simp [hk]), fun hk => by simp [hk, winner]⟩

theorem winner_isSome {e : MergeEntry κ ν} (he : e ∈ entries) {k : κ} (hk : k ∈ keys e.members) : (winner entries k).isSome := by
  refine holds_iff.mpr ?_
  simp only [keys, List.mem_map, mem_flatMap] at hk ⊢
  obtain ⟨m, hm, rfl⟩ := hk
  exact ⟨m, ⟨e, mem_reverse.mpr he, hm⟩, rfl⟩

end Passes

/-! ## Both paths -/

section Paths

variable {E : Members κ ν}

theorem mergeReorder_expanded (hE : (keys E).Nodup) (hmono : ∀ i j, i ≤ j → posAt entries E.length i ≤ posAt entries E.length j) :
    mergeReorder (E ++ (placedLists (winner entries) (keys E) entries).flatten) entries
      ((placedLists (winner entries) (keys E) entries).map List.length) E.length = expanded E entries := by
  have hlen := length_placedLists (winner entries) (keys E) entries
  have hflat := flatMap_getD (placedLists (winner entries) (keys E) entries)
  rw [hlen] at hflat
  have hreorder := mergeReorder_eq (E := E) (M := fun i => (placedLists (winner entries) (keys E) entries).getD i [])
    ((placedLists (winner entries) (keys E) entries).map List.length) (by rw [length_map, hlen])
    (fun j hj => by simp [List.getElem?_eq_getElem (hlen.symm ▸ hj)]) hmono
    (by rw [hflat, keys_append]; exact placedLists_nodup _ entries hE)
  rw [hflat] at hreorder
  exact hreorder

theorem mergeSeveral_eq (hE : (keys E).Nodup) (hmono : ∀ i j, i ≤ j → posAt entries E.length i ≤ posAt entries E.length j) :
    mergeSeveral E entries = expanded E entries := by
  rw [mergeSeveral]
  simp only [placeEntries_eq entries (chooseWinners_waiting E entries) fun e he k hk => winner_isSome he hk]
  exact mergeReorder_expanded hE hmono

theorem mergeSource_eq (l : Members κ ν) (win : κ → Option ν) (hwin : ∀ k, k ∉ keys map → win k = l.lookup k) :
    mergeOneSourceInto map l = map ++ placedBy win (keys map) (keys l) := by
  rw [mergeOneSourceInto]
  induction l generalizing map with
  | nil => simp [placedBy]
  | cons e l ih =>
    rw [foldl_cons, keys_cons, placedBy]
    by_cases hmem : e.1 ∈ keys map
    · rw [if_pos (holds_iff.mpr hmem), if_pos hmem]
      refine ih fun k hk => ?_
      rw [hwin k hk, lookup_cons_if, if_neg fun heq => hk (by rw [heq]; exact hmem)]
    · have hv : win e.1 = some e.2 := by rw [hwin e.1 hmem, lookup_cons_if, if_pos rfl]
      rw [if_neg fun hholds => hmem (holds_iff.mp hholds), if_neg hmem, hv, ih fun k hk => ?_]
      · simp
      · simp only [keys_append, keys_cons, keys_nil, mem_append, mem_singleton, not_or] at hk
        rw [hwin k hk.1, lookup_cons_if, if_neg hk.2]

theorem mergeOne_eq {e : MergeEntry κ ν} (hE : (keys E).Nodup) (hpos : e.pos ≤ E.length) :
    mergeOne E e = expanded E [e] ∧ mergeSeveral E [e] = expanded E [e] := by
  have hmono : ∀ i j, i ≤ j → posAt [e] E.length i ≤ posAt [e] E.length j := by
    intro i j hij
    match i, j with
    | 0, 0 => exact Nat.le_refl _
    | 0, _ + 1 => exact hpos
    | _ + 1, _ + 1 => exact Nat.le_refl _
  have hplaced : (e.val.sources.filterMap id).foldl mergeOneSourceInto E = E ++ placedBy (winner [e]) (keys E) (keys e.members) := by
    rw [← mergeSource_eq e.members (winner [e]) fun k _ => by simp [winner]]
    rw [MergeEntry.members, mergeOneSourceInto, foldl_flatten]
    rfl
  refine ⟨?_, mergeSeveral_eq hE hmono⟩
  have hexpanded := mergeReorder_expanded hE hmono
  rw [mergeOne, hplaced]
  simpa [placedLists] using hexpanded

end Paths

theorem FrameOk.takeEntry {f : Members κ ν × List (MergeEntry κ ν)} (h : FrameOk f) (entry : Entry κ ν) : FrameOk (takeEntry f entry) := by
  cases entry with
  | merge val =>
    refine ⟨h.nodup, List.pairwise_append.mpr ⟨h.sorted, List.pairwise_singleton _ _, fun e he e' he' => ?_⟩, fun e he => ?_⟩
    · rw [List.mem_singleton.mp he']
      exact h.inside e he
    · rcases List.mem_append.mp he with hold | hnew
      · exact h.inside e hold
      · rw [List.mem_singleton.mp hnew]
        exact Nat.le_refl _
  | member key value =>
    simp only [Cyaml.takeEntry, dictionarySet]
    split
    · have hkeys : keys (f.1.map fun e => if e.1 = key then (key, value) else e) = keys f.1 := by
        simp only [keys, List.map_map]
        refine List.map_congr_left fun e _ => ?_
        by_cases he : e.1 = key <;> simp [he]
      exact ⟨hkeys ▸ h.nodup, h.sorted, fun e he => by rw [List.length_map]; exact h.inside e he⟩
    · rename_i hnew
      refine ⟨?_, h.sorted, fun e he => (h.inside e he).trans (by simp)⟩
      rw [keys_append]
      refine List.nodup_append.mpr ⟨h.nodup, List.nodup_singleton key, fun a ha b hb heq => hnew ?_⟩
      rw [List.mem_singleton.mp hb] at heq
      exact holds_iff.mpr (by rwa [heq] at ha)

theorem frame_ok (entries : List (Entry κ ν)) : FrameOk (entries.foldl takeEntry (([], []) : Members κ ν × List (MergeEntry κ ν))) := by
  have hrun : ∀ (f : Members κ ν × List (MergeEntry κ ν)), FrameOk f → FrameOk (entries.foldl takeEntry f) := by
    induction entries with
    | nil => exact fun f h => h
    | cons e entries ih => exact fun f h => ih _ (h.takeEntry e)
  exact hrun _ ⟨nodup_nil, .nil, nofun⟩

/-! ## What the mapping holds -/

section Holds

variable {E : Members κ ν}

theorem lookup_eq_some {l : Members κ ν} (h : (keys l).Nodup) : l.lookup key = some value ↔ (key, value) ∈ l := by
  induction l with
  | nil => simp
  | cons e l ih =>
    obtain ⟨hnew, hrest⟩ := nodup_cons.mp h
    rw [lookup_cons_if, mem_cons]
    by_cases hk : key = e.1
    · rw [if_pos hk, some.injEq]
      constructor
      · rintro rfl
        exact .inl (by rw [hk])
      · rintro (rfl | hmem)
        · rfl
        · exact absurd (mem_map_of_mem hmem) (hk ▸ hnew)
    · rw [if_neg hk, ih hrest]
      exact ⟨.inr, fun hor => hor.resolve_left fun heq => hk (by rw [← heq])⟩

theorem expanded_perm (hmono : ∀ i j, i ≤ j → posAt entries E.length i ≤ posAt entries E.length j) :
    (expanded E entries).Perm (E ++ (placedLists (winner entries) (keys E) entries).flatten) := by
  have hlen := length_placedLists (winner entries) (keys E) entries
  have hends : posAt entries E.length entries.length = E.length := by simp [posAt]
  have hflat := flatMap_getD (placedLists (winner entries) (keys E) entries)
  have htake := take_between (E := E) hmono entries.length
  rw [hends, take_length] at htake
  rw [hlen] at hflat
  have hperm := ((perm_append_comm.trans (flatMap_append_perm (List.range entries.length)
    (fun i => (placedLists (winner entries) (keys E) entries).getD i []) (between E (posAt entries E.length)))).symm).append_left
      (E.take (posAt entries E.length 0))
  rwa [← append_assoc, htake, hflat] at hperm

theorem expanded_nodup (hE : (keys E).Nodup) (hmono : ∀ i j, i ≤ j → posAt entries E.length i ≤ posAt entries E.length j) :
    (keys (expanded E entries)).Nodup := by
  have hplaced := placedLists_nodup (winner entries) entries hE
  rw [← keys_append] at hplaced
  exact ((expanded_perm hmono).map _).nodup_iff.mpr hplaced

theorem expanded_lookup (hE : (keys E).Nodup) (hmono : ∀ i j, i ≤ j → posAt entries E.length i ≤ posAt entries E.length j) (key : κ) :
    (expanded E entries).lookup key = (E.lookup key).or (winner entries key) := by
  refine Option.ext fun value => ?_
  rw [lookup_eq_some (expanded_nodup hE hmono), (expanded_perm hmono).mem_iff, mem_append, ← lookup_eq_some hE,
    mem_placedLists entries fun e he k hk => winner_isSome he hk]
  by_cases hmem : key ∈ keys E
  · obtain ⟨v, hv⟩ := isSome_iff_exists.mp (holds_iff.mpr hmem)
    simp [hmem, hv]
  · rw [lookup_of_notMem hmem, none_or]
    have hsource : winner entries key = some value → ∃ e ∈ entries, key ∈ keys e.members := by
      intro hwin
      have hin := holds_iff.mp (isSome_of_eq_some hwin)
      simp only [keys, List.mem_map, mem_flatMap, mem_reverse] at hin ⊢
      obtain ⟨m, ⟨e, he, hm⟩, hkey⟩ := hin
      exact ⟨e, he, m, hm, hkey⟩
    simp only [reduceCtorEq, false_or]
    exact ⟨fun h => h.2.2, fun h => ⟨hmem, hsource h, h⟩⟩

theorem expanded_keys (hE : (keys E).Nodup) (hmono : ∀ i j, i ≤ j → posAt entries E.length i ≤ posAt entries E.length j) (key : κ) :
    key ∈ keys (expanded E entries) ↔ key ∈ keys E ∨ ∃ e ∈ entries, key ∈ keys e.members := by
  rw [← holds_iff, holds, expanded_lookup hE hmono, isSome_or, Bool.or_eq_true, ← holds, holds_iff]
  refine or_congr_right ⟨fun hwin => ?_, fun ⟨e, he, hk⟩ => winner_isSome he hk⟩
  have hin := holds_iff.mp hwin
  simp only [keys, List.mem_map, mem_flatMap, mem_reverse] at hin ⊢
  obtain ⟨m, ⟨e, he, hm⟩, hkey⟩ := hin
  exact ⟨e, he, m, hm, hkey⟩

end Holds

end Ccollections.Cyaml
