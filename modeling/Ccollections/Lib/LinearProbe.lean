import Mathlib.Algebra.BigOperators.Group.Finset.Basic
import Mathlib.Algebra.Order.BigOperators.Group.Finset
import Mathlib.Data.List.Perm.Basic
import Mathlib.Data.Nat.ModEq

/-!
# Cyclic tables with linear probing

A table of `cap` slots is a function of the slot index; only the indices below `cap` count. An entry has
a home slot and sits some slots after it, cyclically, with no empty slot in between. Deleting an entry leaves
a hole, and the backward shift moves the hole until no entry needs it.
-/

namespace Ccollections.Lib

open Function List Option

variable {E : Type*} {cap : Nat} {home : E → Nat}

/-! ## Cyclic positions -/

theorem add_mod_cancel_right {cap a b c : Nat} (h : (a + c) % cap = (b + c) % cap) : a % cap = b % cap :=
  Nat.ModEq.add_right_cancel' c h

theorem probe_inj {cap h i j : Nat} (hi : i < cap) (hj : j < cap) (he : (h + i) % cap = (h + j) % cap) : i = j := by
  have hmod : i % cap = j % cap := Nat.ModEq.add_left_cancel' h he
  rwa [Nat.mod_eq_of_lt hi, Nat.mod_eq_of_lt hj] at hmod

def cyclicDist (cap a b : Nat) : Nat := (b + (cap - a % cap)) % cap

theorem cyclicDist_eq {cap h d : Nat} (hd : d < cap) : cyclicDist cap h ((h + d) % cap) = d := by
  have hcap : 0 < cap := by omega
  have hlt := Nat.mod_lt h hcap
  rw [cyclicDist, Nat.mod_add_mod, show h + d + (cap - h % cap) = d + cap * (h / cap + 1) by
    have hdiv := Nat.div_add_mod h cap
    rw [Nat.mul_add, Nat.mul_one]
    omega, Nat.add_mul_mod_self_left, Nat.mod_eq_of_lt hd]

theorem add_cyclicDist {cap h j : Nat} (hj : j < cap) : (h + cyclicDist cap h j) % cap = j := by
  have hcap : 0 < cap := by omega
  have hlt := Nat.mod_lt h hcap
  have hdiv := Nat.div_add_mod h cap
  rw [cyclicDist, Nat.add_mod_mod, show h + (j + (cap - h % cap)) = j + cap * (h / cap + 1) by
    rw [Nat.mul_add, Nat.mul_one]; omega, Nat.add_mul_mod_self_left, Nat.mod_eq_of_lt hj]

theorem cyclicDist_lt {cap a b : Nat} (hcap : 0 < cap) : cyclicDist cap a b < cap := Nat.mod_lt _ hcap

/-! ## The entries of a table -/

/-- The entries of a table, in the order of their slots. -/
def entries (cap : Nat) (t : Nat → Option E) : List E := (List.range cap).filterMap t

theorem mem_entries {t : Nat → Option E} {e : E} : e ∈ entries cap t ↔ ∃ j < cap, t j = some e := by
  simp [entries, mem_filterMap]

theorem entries_none (cap : Nat) : entries cap (fun _ => (none : Option E)) = [] := by
  simp [entries]

theorem entries_length_le (cap : Nat) (t : Nat → Option E) : (entries cap t).length ≤ cap := by
  have h := length_filterMap_le t (List.range cap)
  rwa [length_range] at h

theorem filterMap_update_notMem {t : Nat → Option E} {i : Nat} {x : Option E} {l : List Nat} (h : i ∉ l) :
    l.filterMap (update t i x) = l.filterMap t := by
  apply filterMap_congr
  intro j hj
  have hne : j ≠ i := by
    rintro rfl
    exact h hj
  rw [update_of_ne hne]

theorem entries_fill {t : Nat → Option E} {i : Nat} (e : E) (hi : i < cap) (ht : t i = none) :
    (entries cap (update t i (some e))).Perm (e :: entries cap t) := by
  obtain ⟨l, r, hsplit⟩ := append_of_mem (mem_range.mpr hi)
  have hnodup := nodup_range (n := cap)
  rw [hsplit, nodup_middle, nodup_cons] at hnodup
  obtain ⟨hl, hr⟩ := not_or.mp (fun h => hnodup.1 (mem_append.mpr h))
  rw [entries, entries, hsplit, filterMap_append, filterMap_append, filterMap_cons,
    filterMap_cons, update_self, ht, filterMap_update_notMem hl, filterMap_update_notMem hr]
  exact perm_middle

theorem entries_clear {t : Nat → Option E} {i : Nat} {e : E} (hi : i < cap) (ht : t i = some e) :
    (entries cap t).Perm (e :: entries cap (update t i none)) := by
  have hfill := entries_fill e hi (update_self i none t)
  rwa [update_idem, ← ht, update_eq_self] at hfill

theorem entries_index_inj {γ : Type*} {t : Nat → Option E} {f : E → γ} (h : ((entries cap t).map f).Nodup)
    {i j : Nat} {a b : E} (hi : i < cap) (hj : j < cap) (ha : t i = some a) (hb : t j = some b) (hf : f a = f b) : i = j := by
  by_contra hij
  have hnodup := (((entries_clear hi ha).map f).nodup_iff).mp h
  refine (nodup_cons.mp hnodup).1 (mem_map.mpr ⟨b, mem_entries.mpr ⟨j, hj, ?_⟩, hf.symm⟩)
  rw [update_of_ne (fun hji => hij hji.symm), hb]

theorem entries_length (cap : Nat) (t : Nat → Option E) :
    (entries cap t).length = ((List.range cap).filter fun i => (t i).isSome).length := by
  rw [entries, length_filterMap_eq_countP, countP_eq_length_filter]

theorem exists_empty {t : Nat → Option E} (h : (entries cap t).length < cap) : ∃ j < cap, t j = none := by
  by_contra hfull
  have hall : ∀ j ∈ List.range cap, (t j).isSome := by
    intro j hj
    cases hj' : t j with
    | none => exact (hfull ⟨j, mem_range.mp hj, hj'⟩).elim
    | some e => rfl
  have hlen := filterMap_length_eq_length.mpr hall
  rw [length_range] at hlen
  exact absurd hlen (Nat.ne_of_lt h)

/-- The walk from a slot of a table that is not full comes to an empty slot within one turn. -/
theorem exists_first_empty {t : Nat → Option E} (home : Nat) (h : (entries cap t).length < cap) :
    ∃ d < cap, t ((home + d) % cap) = none ∧ ∀ i < d, t ((home + i) % cap) ≠ none := by
  obtain ⟨j, hj, hnone⟩ := exists_empty h
  have hex : ∃ d, d < cap ∧ t ((home + d) % cap) = none :=
    ⟨cyclicDist cap home j, cyclicDist_lt (by omega), by rwa [add_cyclicDist hj]⟩
  classical
  obtain ⟨hd, hempty⟩ := Nat.find_spec hex
  refine ⟨Nat.find hex, hd, hempty, fun i hi hi' => ?_⟩
  exact Nat.find_min hex hi ⟨by omega, hi'⟩

/-! ## Reaching every entry from its home slot -/

/-- The entry at a slot sits `d` slots after its home slot, with no empty slot in between. -/
def ReachedAt (cap : Nat) (home : E → Nat) (t : Nat → Option E) (e : E) (d : Nat) : Prop :=
  t ((home e + d) % cap) = some e ∧ ∀ i < d, t ((home e + i) % cap) ≠ none

/-- Every entry is reached less than `span` slots after its home slot. -/
def Reaches (cap : Nat) (home : E → Nat) (t : Nat → Option E) (span : Nat) : Prop :=
  ∀ (j : Nat) (e : E), j < cap → t j = some e → ∃ d < span, (home e + d) % cap = j ∧ ReachedAt cap home t e d

theorem reaches_none {span : Nat} : Reaches cap home (fun _ => none) span := by
  intro j e _ he
  cases he

theorem Reaches.mono {t : Nat → Option E} {span span' : Nat} (h : Reaches cap home t span)
    (hle : span ≤ span') : Reaches cap home t span' := by
  intro j e hj he
  obtain ⟨d, hd, hpos, hr⟩ := h j e hj he
  exact ⟨d, Nat.lt_of_lt_of_le hd hle, hpos, hr⟩

/-- Filling the first empty slot after the home slot of a new entry. -/
theorem Reaches.fill {t : Nat → Option E} {span d : Nat} {e : E} (h : Reaches cap home t span)
    (hpath : ∀ i < d, t ((home e + i) % cap) ≠ none) (hd : d < span) :
    Reaches cap home (update t ((home e + d) % cap) (some e)) span := by
  have hkeep : ∀ x, t x ≠ none → update t ((home e + d) % cap) (some e) x ≠ none := by
    intro x hx
    by_cases hxe : x = (home e + d) % cap
    · rw [hxe, update_self]
      exact some_ne_none e
    · rwa [update_of_ne hxe]
  intro j u hj hu
  by_cases hjd : j = (home e + d) % cap
  · rw [hjd, update_self] at hu
    cases hu
    exact ⟨d, hd, hjd.symm, update_self .., fun i hi => hkeep _ (hpath i hi)⟩
  · rw [update_of_ne hjd] at hu
    obtain ⟨d', hd', hpos, hat, hbetween⟩ := h j u hj hu
    refine ⟨d', hd', hpos, ?_, fun i hi => hkeep _ (hbetween i hi)⟩
    rw [hpos, update_of_ne hjd, hu]

/-- Every entry sits less than `bound` slots after its home slot. -/
def Within (cap : Nat) (home : E → Nat) (t : Nat → Option E) (bound : Nat) : Prop :=
  ∀ (j : Nat) (e : E), j < cap → t j = some e → ∃ d < bound, (home e + d) % cap = j

theorem Reaches.within {t : Nat → Option E} {span : Nat} (h : Reaches cap home t span) :
    Within cap home t span := by
  intro j e hj he
  obtain ⟨d, hd, hpos, -⟩ := h j e hj he
  exact ⟨d, hd, hpos⟩

theorem Within.fill {t : Nat → Option E} {bound d : Nat} {e : E}
    (h : Within cap home t bound) (hd : d < bound) :
    Within cap home (update t ((home e + d) % cap) (some e)) bound := by
  intro j u hj hu
  by_cases hjd : j = (home e + d) % cap
  · rw [hjd, update_self] at hu
    cases hu
    exact ⟨d, hd, hjd.symm⟩
  · rw [update_of_ne hjd] at hu
    exact h j u hj hu

theorem Within.clear {t : Nat → Option E} {bound i : Nat} (h : Within cap home t bound) :
    Within cap home (update t i none) bound := by
  intro j u hj hu
  by_cases hji : j = i
  · rw [hji, update_self] at hu
    cases hu
  · rw [update_of_ne hji] at hu
    exact h j u hj hu

/-! ## The backward shift -/

/-- A table with one hole, `m` slots into the backward shift. A path of the `m` entries behind the hole does not cross
it. -/
structure Shifting (cap : Nat) (home : E → Nat) (span : Nat) (t : Nat → Option E) (hole m : Nat) : Prop where
  empty : t hole = none
  lt : hole < cap
  reach : ∀ (j : Nat) (e : E), j < cap → t j = some e → ∃ d < span, (home e + d) % cap = j ∧
    ∀ i < d, t ((home e + i) % cap) ≠ none ∨ (home e + i) % cap = hole
  seen : ∀ g, 1 ≤ g → g ≤ m → ∃ e d, t ((hole + g) % cap) = some e ∧ (home e + d) % cap = (hole + g) % cap ∧ d < g
  within : m < span

section Shift

variable {span : Nat} {t : Nat → Option E} {hole m : Nat}

theorem Reaches.shifting (h : Reaches cap home t span) (hlt : hole < cap) (hspan : 0 < span) :
    Shifting cap home span (update t hole none) hole 0 where
  empty := update_self ..
  lt := hlt
  reach := by
    intro j e hj he
    have hne : j ≠ hole := by
      rintro rfl
      rw [update_self] at he
      cases he
    rw [update_of_ne hne] at he
    obtain ⟨d, hd, hpos, -, hpath⟩ := h j e hj he
    refine ⟨d, hd, hpos, fun i hi => ?_⟩
    by_cases hi' : (home e + i) % cap = hole
    · exact .inr hi'
    · rw [update_of_ne hi']
      exact .inl (hpath i hi)
  seen := fun g h₁ h₂ => by omega
  within := hspan

/-- An entry whose path crosses the hole sits at most `span - 1` slots after it, past every slot seen. -/
theorem Shifting.crossing (h : Shifting cap home span t hole m) (hspan : span ≤ cap) {j : Nat} {e : E} {d i : Nat}
    (hd : d < span) (hpos : (home e + d) % cap = j) (he : t j = some e) (hi : i < d) (hcross : (home e + i) % cap = hole) :
    m < d - i ∧ (hole + (d - i)) % cap = j := by
  have hj : (hole + (d - i)) % cap = j := by
    rw [← hcross, Nat.mod_add_mod, show home e + i + (d - i) = home e + d by omega, hpos]
  refine ⟨?_, hj⟩
  by_contra hle
  obtain ⟨u, d', hu, hpos', hd'⟩ := h.seen (d - i) (by omega) (by omega)
  rw [hj, he] at hu
  cases hu
  have := probe_inj (by omega) (by omega) (hpos'.trans (hj.trans hpos.symm))
  omega

/-- The walk ends at an empty slot or `span` slots after the hole: no path crosses the hole any more. -/
theorem Shifting.done (h : Shifting cap home span t hole m) (hspan : span ≤ cap)
    (hend : t ((hole + (m + 1)) % cap) = none ∨ span ≤ m + 1) : Reaches cap home t span := by
  intro j e hj he
  obtain ⟨d, hd, hpos, hpath⟩ := h.reach j e hj he
  refine ⟨d, hd, hpos, by rw [hpos, he], fun i hi => ?_⟩
  rcases hpath i hi with hocc | hcross
  · exact hocc
  · obtain ⟨hm, hj'⟩ := h.crossing hspan hd hpos he hi hcross
    rcases hend with hempty | hle
    · -- The slot after the last one seen is empty, so it is before `j` on the path, or it is `j`.
      by_cases hlast : d - i = m + 1
      · rw [← hlast, hj', he] at hempty
        cases hempty
      · have hon : (home e + (i + (m + 1))) % cap = (hole + (m + 1)) % cap := by
          rw [← hcross, Nat.mod_add_mod, Nat.add_assoc]
        rcases hpath (i + (m + 1)) (by omega) with hocc | hback
        · rw [hon] at hocc
          exact absurd hempty hocc
        · rw [← hcross] at hback
          have := probe_inj (by omega) (by omega) hback
          omega
    · omega

/-- An entry that is nearer to its home slot than to the hole stays. -/
theorem Shifting.stay (h : Shifting cap home span t hole m) {e : E} {d : Nat} (he : t ((hole + (m + 1)) % cap) = some e)
    (hpos : (home e + d) % cap = (hole + (m + 1)) % cap) (hd : d < m + 1) (hspan : m + 1 < span) :
    Shifting cap home span t hole (m + 1) where
  empty := h.empty
  lt := h.lt
  reach := h.reach
  seen := by
    intro g h₁ h₂
    by_cases hg : g = m + 1
    · subst hg
      exact ⟨e, d, he, hpos, hd⟩
    · exact h.seen g h₁ (by omega)
  within := hspan

theorem Shifting.move_home (h : Shifting cap home span t hole m) {e : E} {d : Nat}
    (hpos : (home e + d) % cap = (hole + (m + 1)) % cap) (hd : m + 1 ≤ d) : (home e + (d - (m + 1))) % cap = hole := by
  have hsum : (home e + (d - (m + 1)) + (m + 1)) % cap = (hole + (m + 1)) % cap := by
    rw [← hpos]
    congr 1
    omega
  have hmod := add_mod_cancel_right hsum
  rwa [Nat.mod_eq_of_lt h.lt] at hmod

/-- Any other entry moves into the hole, and its old slot is the new hole. -/
theorem Shifting.move (h : Shifting cap home span t hole m) (hspan : span ≤ cap) {e : E} {d : Nat}
    (he : t ((hole + (m + 1)) % cap) = some e) (hpos : (home e + d) % cap = (hole + (m + 1)) % cap) (hd : m + 1 ≤ d)
    (hdspan : d < span) :
    Shifting cap home span
      (update (update t hole (some e)) ((hole + (m + 1)) % cap) none) ((hole + (m + 1)) % cap) 0 := by
  have hwithin := h.within
  have hlt := h.lt
  have hcap : 0 < cap := by omega
  have hne : hole ≠ (hole + (m + 1)) % cap := by
    intro heq
    rw [← heq, h.empty] at he
    cases he
  have hback := h.move_home hpos hd
  have hkeep : ∀ x, t x ≠ none ∨ x = hole →
      update (update t hole (some e)) ((hole + (m + 1)) % cap) none x ≠ none ∨
        x = (hole + (m + 1)) % cap := by
    intro x hx
    by_cases hxj : x = (hole + (m + 1)) % cap
    · exact .inr hxj
    · rw [update_of_ne hxj]
      by_cases hxh : x = hole
      · rw [hxh, update_self]
        exact .inl (some_ne_none e)
      · rw [update_of_ne hxh]
        exact .inl (hx.resolve_right hxh)
  refine ⟨update_self .., Nat.mod_lt _ hcap, ?_, fun g h₁ h₂ => by omega, by omega⟩
  intro j u hj hu
  have hjne : j ≠ (hole + (m + 1)) % cap := by
    intro hj'
    rw [hj', update_self] at hu
    cases hu
  rw [update_of_ne hjne] at hu
  by_cases hjh : j = hole
  · -- The moved entry keeps the first part of its path.
    rw [hjh, update_self] at hu
    cases hu
    obtain ⟨d', hd', hpos', hpath⟩ := h.reach _ e (Nat.mod_lt _ hcap) he
    have hdd : d' = d := probe_inj (by omega) (by omega) (hpos'.trans hpos.symm)
    subst hdd
    exact ⟨d' - (m + 1), by omega, hback.trans hjh.symm, fun i hi => hkeep _ (hpath i (by omega))⟩
  · rw [update_of_ne hjh] at hu
    obtain ⟨d', hd', hpos', hpath⟩ := h.reach j u hj hu
    exact ⟨d', hd', hpos', fun i hi => hkeep _ (hpath i hi)⟩

theorem Shifting.move_within (h : Shifting cap home span t hole m) {e : E} {d bound : Nat} (hw : Within cap home t bound)
    (he : t ((hole + (m + 1)) % cap) = some e) (hpos : (home e + d) % cap = (hole + (m + 1)) % cap) (hd : m + 1 ≤ d)
    (hdcap : d < cap) :
    Within cap home (update (update t hole (some e)) ((hole + (m + 1)) % cap) none) bound := by
  have hlt := h.lt
  obtain ⟨d', hd', hpos'⟩ := hw _ e (Nat.mod_lt _ (by omega)) he
  have hle : d ≤ d' := by
    have hmod : d' % cap = d % cap := Nat.ModEq.add_left_cancel' (home e) (hpos'.trans hpos.symm)
    rw [Nat.mod_eq_of_lt hdcap] at hmod
    rw [← hmod]
    exact Nat.mod_le _ _
  rw [← h.move_home hpos hd]
  exact (hw.fill (by omega)).clear

theorem entries_move {e : E} {j : Nat} (hj : j < cap) (hhole : hole < cap) (he : t j = some e) (hempty : t hole = none) :
    (entries cap (update (update t hole (some e)) j none)).Perm (entries cap t) := by
  have hne : j ≠ hole := by
    rintro rfl
    rw [hempty] at he
    cases he
  have hclear := entries_clear hj he
  have hfill := entries_fill e hhole (t := update t j none) (by rw [update_of_ne hne.symm, hempty])
  rw [update_comm hne.symm]
  exact hfill.trans hclear.symm

end Shift

/-! ## The sum of the displacements -/

section Displacement

variable (cap : Nat) (home : E → Nat)

/-- How far the entry of a slot is from its home slot, 0 for an empty slot. -/
def displacementAt (t : Nat → Option E) (j : Nat) : Nat := (t j).elim 0 fun e => cyclicDist cap (home e) j

/-- The sum of the displacements, which every move of the backward shift lowers. -/
def totalDisplacement (t : Nat → Option E) : Nat := ∑ j ∈ Finset.range cap, displacementAt cap home t j

variable {cap home}

theorem totalDisplacement_fill {t : Nat → Option E} {i : Nat} (e : E) (hi : i < cap) (ht : t i = none) :
    totalDisplacement cap home (update t i (some e)) = totalDisplacement cap home t + cyclicDist cap (home e) i := by
  have hmem := Finset.mem_range.mpr hi
  rw [totalDisplacement, totalDisplacement, ← Finset.add_sum_erase _ _ hmem, ← Finset.add_sum_erase _ _ hmem]
  have hrest : ∑ j ∈ (Finset.range cap).erase i, displacementAt cap home (update t i (some e)) j =
      ∑ j ∈ (Finset.range cap).erase i, displacementAt cap home t j := by
    refine Finset.sum_congr rfl fun j hj => ?_
    rw [displacementAt, displacementAt, update_of_ne (Finset.ne_of_mem_erase hj)]
  rw [hrest]
  simp only [displacementAt, update_self, ht, elim_some, elim_none]
  omega

theorem totalDisplacement_clear {t : Nat → Option E} {i : Nat} {e : E} (hi : i < cap) (ht : t i = some e) :
    totalDisplacement cap home t = totalDisplacement cap home (update t i none) + cyclicDist cap (home e) i := by
  have hfill := @totalDisplacement_fill _ cap home _ i e hi (update_self i none t)
  rwa [update_idem, ← ht, update_eq_self] at hfill

theorem totalDisplacement_move {t : Nat → Option E} {hole j : Nat} {e : E} (hj : j < cap) (hhole : hole < cap)
    (he : t j = some e) (hempty : t hole = none) :
    totalDisplacement cap home (update (update t hole (some e)) j none) + cyclicDist cap (home e) j =
      totalDisplacement cap home t + cyclicDist cap (home e) hole := by
  have hne : j ≠ hole := by
    rintro rfl
    rw [hempty] at he
    cases he
  have hclear := @totalDisplacement_clear _ cap home _ j e hj he
  have hfill := @totalDisplacement_fill _ cap home (update t j none) hole e hhole
    (by rw [update_of_ne hne.symm, hempty])
  rw [update_comm hne.symm]
  omega

theorem totalDisplacement_le (t : Nat → Option E) : totalDisplacement cap home t ≤ cap * cap := by
  have hle : ∀ j ∈ Finset.range cap, displacementAt cap home t j ≤ cap := by
    intro j hj
    have hcap : 0 < cap := by
      have := Finset.mem_range.mp hj
      omega
    cases hj' : t j with
    | none => simp [displacementAt, hj']
    | some e =>
      simp only [displacementAt, hj', elim_some]
      exact Nat.le_of_lt (cyclicDist_lt hcap)
  have hsum := Finset.sum_le_card_nsmul (Finset.range cap) (displacementAt cap home t) cap hle
  rwa [Finset.card_range] at hsum

end Displacement

end Ccollections.Lib
