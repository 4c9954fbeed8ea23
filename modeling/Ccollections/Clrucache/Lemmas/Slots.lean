import Mathlib.Data.List.Nodup
import Mathlib.Data.List.Perm.Basic
import Mathlib.Tactic.Ring
import Ccollections.Clrucache.Slots

/-!
# Who has the slots of the handle table

A section of code may have taken some indices, `held`, between two of its steps. Every index of the table then belongs to
a live cache, a destroy in progress, the free list, the lost indices or `held`, and to one of them once.
-/

namespace Ccollections.Clrucache.Slots

open Cpintable Function List

variable {C : Type}
variable {idx : Nat}

def State.owners (s : State C) : List Nat :=
  s.live.map (fun p => (handleIdx p.1).toNat) ++ s.destroying.map Prod.fst ++ s.freeIndices ++ s.lost

structure Owned (held : List Nat) (s : State C) : Prop where
  owners : (held ++ s.owners).Perm (List.range s.slots.length)
  small : s.slots.length ≤ ccolPinMaxSlots
  count : s.released = false → s.lostIndices = s.lost.length
  gone : s.released = true → s.slots = []
  live : ∀ p ∈ s.live, s.slots[(handleIdx p.1).toNat]? = some { ptr := some p.2, generation := handleGen p.1, inUse := true }
  destroying : ∀ p ∈ s.destroying, ∃ g, s.slots[p.1]? = some { ptr := some p.2, generation := g, inUse := false }
  idle : ∀ idx ∈ held ++ s.freeIndices ++ s.lost, ∃ g, s.slots[idx]? = some { ptr := none, generation := g, inUse := false }
  selfHandle : ∀ p ∈ s.live, s.selfHandle p.2 = p.1

/-! ## Handles -/

theorem toNat_makeHandle (hidx : idx < 2 ^ 32) (generation : UInt32) :
    (makeHandle idx generation).toNat = idx * 2 ^ 32 + generation.toNat := by
  have hgen : generation.toNat < 2 ^ 32 := generation.toNat_lt
  have hshift : (UInt64.ofNat idx <<< 32).toNat = idx <<< 32 := by
    have hlt : idx <<< 32 < 2 ^ 64 := by
      rw [Nat.shiftLeft_eq]
      omega
    rw [UInt64.toNat_shiftLeft, UInt64.toNat_ofNat_of_lt' (Nat.lt_of_lt_of_le hidx (by decide))]
    exact Nat.mod_eq_of_lt hlt
  rw [makeHandle, UInt64.toNat_or, hshift, UInt32.toNat_toUInt64, ← Nat.shiftLeft_add_eq_or_of_lt hgen, Nat.shiftLeft_eq]

theorem handleIdx_makeHandle (hidx : idx < 2 ^ 32) (generation : UInt32) :
    (handleIdx (makeHandle idx generation)).toNat = idx := by
  have hgen : generation.toNat < 2 ^ 32 := generation.toNat_lt
  rw [handleIdx, UInt64.toNat_toUInt32, UInt64.toNat_shiftRight, toNat_makeHandle hidx]
  have hshift : (idx * 2 ^ 32 + generation.toNat) >>> (UInt64.toNat 32 % 64) = idx := by
    rw [show UInt64.toNat 32 % 64 = 32 from rfl, Nat.shiftRight_eq_div_pow]
    omega
  rw [hshift]
  exact Nat.mod_eq_of_lt hidx

theorem handleGen_makeHandle (hidx : idx < 2 ^ 32) (generation : UInt32) :
    handleGen (makeHandle idx generation) = generation := by
  apply UInt32.toNat_inj.mp
  rw [handleGen, UInt64.toNat_toUInt32, toNat_makeHandle hidx, Nat.mul_add_mod_self_right]
  exact Nat.mod_eq_of_lt generation.toNat_lt

theorem nextGeneration_ne_zero (generation : UInt32) : nextGeneration generation ≠ 0 := by
  unfold nextGeneration
  split
  case isTrue h =>
    rw [h]
    decide
  case isFalse h => exact h

theorem makeHandle_ne_zero (hidx : idx < 2 ^ 32) {generation : UInt32} (h : generation ≠ 0) :
    makeHandle idx generation ≠ 0 := by
  intro hzero
  apply h
  rw [← handleGen_makeHandle hidx generation, hzero]
  rfl

theorem handle_ext {h h' : UInt64} (hidx : (handleIdx h).toNat = (handleIdx h').toNat) (hgen : handleGen h = handleGen h') :
    h = h' := by
  have hhigh : h.toNat / 2 ^ 32 % 2 ^ 32 = h'.toNat / 2 ^ 32 % 2 ^ 32 := by
    simpa [handleIdx, Nat.shiftRight_eq_div_pow] using hidx
  have hlow : h.toNat % 2 ^ 32 = h'.toNat % 2 ^ 32 := by
    simpa [handleGen] using congrArg UInt32.toNat hgen
  apply UInt64.toNat_inj.mp
  have hlt := h.toNat_lt
  have hlt' := h'.toNat_lt
  omega

/-! ## The steps on an index -/

structure SameCaches (s s' : State C) : Prop where
  released : s'.released = s.released
  releaseDeferred : s'.releaseDeferred = s.releaseDeferred
  selfHandle : s'.selfHandle = s.selfHandle
  destroying : s'.destroying = s.destroying
  live : s'.live = s.live
  issued : s'.issued = s.issued
  acquires : s'.acquires = s.acquires

variable {held : List Nat} {s s' : State C}

theorem Owned.nodup (h : Owned held s) : (held ++ s.owners).Nodup := h.owners.nodup_iff.mpr nodup_range

theorem Owned.lt (h : Owned held s) (hidx : idx ∈ held ++ s.owners) : idx < s.slots.length :=
  mem_range.mp (h.owners.mem_iff.mp hidx)

theorem Owned.lt_two_pow (h : Owned held s) (hidx : idx < s.slots.length) : idx < 2 ^ 32 := by
  have hsmall : s.slots.length ≤ 65536 := h.small
  omega

theorem mem_owners_live {p : UInt64 × C} (hp : p ∈ s.live) : (handleIdx p.1).toNat ∈ s.owners := by
  simp only [State.owners, mem_append, mem_map]
  exact .inl (.inl (.inl ⟨p, hp, rfl⟩))

theorem mem_owners_destroying {p : Nat × C} (hp : p ∈ s.destroying) : p.1 ∈ s.owners := by
  simp only [State.owners, mem_append, mem_map]
  exact .inl (.inl (.inr ⟨p, hp, rfl⟩))

theorem mem_owners_idle (hidx : idx ∈ s.freeIndices ++ s.lost) : idx ∈ s.owners := by
  rw [State.owners, append_assoc]
  exact mem_append_right _ hidx

theorem Owned.growSlots (h : Owned [] s) (hreleased : s.released = false) (hfree : s.freeIndices = []) (hlost : s.lost = [])
    (slotPush : Bool) :
    Owned (s.growSlots slotPush).1.toList (s.growSlots slotPush).2 ∧ SameCaches s (s.growSlots slotPush).2 ∧
      ((s.growSlots slotPush).2.slots = s.slots ∨
        (s.growSlots slotPush).2.slots = s.slots ++ [{ ptr := none, generation := 0, inUse := false }]) := by
  have hsame : SameCaches s s := ⟨rfl, rfl, rfl, rfl, rfl, rfl, rfl⟩
  unfold State.growSlots
  split
  case isTrue => exact ⟨h, hsame, .inl rfl⟩
  case isFalse hroom =>
    cases slotPush with
    | false => exact ⟨h, hsame, .inl rfl⟩
    | true =>
      have hold : ∀ idx : Nat, idx ∈ s.owners →
          (s.slots ++ [{ ptr := none, generation := 0, inUse := false }])[idx]? = s.slots[idx]? := fun idx hidx =>
        List.getElem?_append_left (h.lt (mem_append_right _ hidx))
      refine ⟨?_, ⟨rfl, rfl, rfl, rfl, rfl, rfl, rfl⟩, .inr rfl⟩
      constructor
      case owners =>
        have howners := h.owners
        simp only [↓reduceIte, length_append, length_singleton, Nat.add_sub_cancel, Option.toList_some]
        rw [range_succ]
        exact (perm_append_comm).trans (howners.append_right _)
      case small =>
        simp only [↓reduceIte, length_append, length_singleton]
        omega
      case count => exact h.count
      case gone => exact fun hgone => absurd hgone (by simp [hreleased])
      case live =>
        intro p hp
        exact (hold _ (mem_owners_live hp)).trans (h.live p hp)
      case destroying =>
        intro p hp
        obtain ⟨g, hg⟩ := h.destroying p hp
        exact ⟨g, (hold _ (mem_owners_destroying hp)).trans hg⟩
      case idle =>
        intro idx hidx
        simp only [↓reduceIte, length_append, length_singleton, Nat.add_sub_cancel, Option.toList_some, hfree,
          hlost, append_nil, mem_singleton] at hidx
        subst hidx
        exact ⟨0, by simp⟩
      case selfHandle => exact h.selfHandle

theorem Owned.lost_of_idle (h : Owned [] s) (hfree : s.freeIndices = []) {slot : Slot C}
    (hslot : s.slots[idx]? = some slot) (hptr : slot.ptr = none) : idx ∈ s.lost := by
  have hlt : idx < s.slots.length := (List.getElem?_eq_some_iff.mp hslot).1
  have hmem : idx ∈ s.owners := h.owners.mem_iff.mpr (mem_range.mpr hlt)
  simp only [State.owners, hfree, append_nil, mem_append, mem_map] at hmem
  rcases hmem with (⟨p, hp, rfl⟩ | ⟨p, hp, rfl⟩) | hlost
  · have hlive := h.live p hp
    rw [hslot] at hlive
    cases hlive
    cases hptr
  · obtain ⟨g, hg⟩ := h.destroying p hp
    rw [hslot] at hg
    cases hg
    cases hptr
  · exact hlost

theorem Owned.reclaimLostIndex (h : Owned [] s) (hreleased : s.released = false) (hfree : s.freeIndices = [])
    (hlost : 0 < s.lostIndices) : ∃ idx, s.reclaimLostIndex.1 = some idx ∧ Owned [idx] s.reclaimLostIndex.2 ∧
      SameCaches s s.reclaimLostIndex.2 ∧ s.reclaimLostIndex.2.slots = s.slots := by
  have hcount := h.count hreleased
  obtain ⟨idle, hidle⟩ : ∃ idx, idx ∈ s.lost := exists_mem_of_length_pos (hcount ▸ hlost)
  cases hfind : s.slots.findIdx? fun slot => slot.ptr.isNone && !slot.inUse with
  | none =>
    obtain ⟨g, hg⟩ := h.idle idle (mem_append_right _ hidle)
    have hnone := List.findIdx?_eq_none_iff.mp hfind _ (mem_of_getElem? hg)
    simp at hnone
  | some idx =>
    obtain ⟨hlt, hslot, -⟩ := List.findIdx?_eq_some_iff_getElem.mp hfind
    simp only [Bool.and_eq_true, Option.isNone_iff_eq_none, Bool.not_eq_eq_eq_not, Bool.not_true] at hslot
    have hmem : idx ∈ s.lost := h.lost_of_idle hfree (List.getElem?_eq_getElem hlt) hslot.1
    have herase : s.lost.Perm (idx :: s.lost.erase idx) := perm_cons_erase hmem
    have hstate : s.reclaimLostIndex = (some idx, { s with lostIndices := s.lostIndices - 1, lost := s.lost.erase idx }) := by
      simp only [State.reclaimLostIndex, hfind]
    rw [hstate]
    refine ⟨idx, rfl, ?_, ⟨rfl, rfl, rfl, rfl, rfl, rfl, rfl⟩, rfl⟩
    constructor
    case owners =>
      have howners := h.owners
      simp only [State.owners, hfree, append_nil, nil_append] at howners ⊢
      exact (perm_middle.symm.trans (herase.symm.append_left _)).trans howners
    case small => exact h.small
    case count =>
      intro _
      rw [length_erase_of_mem hmem, hcount]
    case gone => exact h.gone
    case live => exact h.live
    case destroying => exact h.destroying
    case idle =>
      intro i hi
      apply h.idle
      simp only [singleton_append, hfree, append_nil, nil_append, mem_cons] at hi ⊢
      cases hi with
      | inl heq => exact heq ▸ hmem
      | inr hrest => exact mem_of_mem_erase hrest
    case selfHandle => exact h.selfHandle

theorem Owned.takeIndex (h : Owned [] s) (hreleased : s.released = false) (slotPush : Bool) :
    Owned (s.takeIndex slotPush).1.toList (s.takeIndex slotPush).2 ∧ SameCaches s (s.takeIndex slotPush).2 ∧
      ((s.takeIndex slotPush).2.slots = s.slots ∨ s.freeIndices = [] ∧ s.lost = [] ∧
        (s.takeIndex slotPush).2.slots = s.slots ++ [{ ptr := none, generation := 0, inUse := false }]) := by
  cases hfree : s.freeIndices with
  | cons idx rest =>
    simp only [State.takeIndex, hfree]
    refine ⟨?_, ⟨rfl, rfl, rfl, rfl, rfl, rfl, rfl⟩, .inl trivial⟩
    constructor
    case owners =>
      have howners := h.owners
      simp only [State.owners, hfree, append_assoc, nil_append, Option.toList_some, cons_append] at howners ⊢
      exact ((perm_middle.append_left _).trans perm_middle).symm.trans howners
    case small => exact h.small
    case count => exact h.count
    case gone => exact h.gone
    case live => exact h.live
    case destroying => exact h.destroying
    case idle =>
      intro i hi
      apply h.idle
      simpa only [hfree, Option.toList_some, cons_append, nil_append] using hi
    case selfHandle => exact h.selfHandle
  | nil =>
    by_cases hcount : 0 < s.lostIndices
    · obtain ⟨idx, hidx, howned, hsame, hslots⟩ := h.reclaimLostIndex hreleased hfree hcount
      have htake : s.takeIndex slotPush = (some idx, s.reclaimLostIndex.2) := by
        simp only [State.takeIndex, hfree, if_pos hcount]
        cases hreclaim : s.reclaimLostIndex with
        | mk out state =>
          rw [hreclaim] at hidx
          subst hidx
          rfl
      rw [htake]
      exact ⟨howned, hsame, .inl hslots⟩
    · have hlost : s.lost = [] := by
        apply length_eq_zero_iff.mp
        have := h.count hreleased
        omega
      simp only [State.takeIndex, hfree, if_neg hcount]
      obtain ⟨howned, hsame, hslots⟩ := h.growSlots hreleased hfree hlost slotPush
      exact ⟨howned, hsame, hslots.imp_right fun hgrown => ⟨trivial, hlost, hgrown⟩⟩

theorem Owned.freeIndexRelease (h : Owned [idx] s) (freePush : Bool) :
    Owned [] (s.freeIndexRelease idx freePush) := by
  have howners := h.owners
  have hidle : ∀ i, i = idx ∨ i ∈ s.freeIndices ∨ i ∈ s.lost →
      ∃ g, s.slots[i]? = some { ptr := none, generation := g, inUse := false } := fun i hi =>
    h.idle i (by simpa [or_assoc] using hi)
  simp only [State.owners, append_assoc, singleton_append] at howners
  cases freePush with
  | true =>
    constructor
    case owners =>
      simp only [State.freeIndexRelease, State.owners, ↓reduceIte, append_assoc, nil_append, cons_append]
      exact ((perm_middle.append_left _).trans perm_middle).trans howners
    case small => exact h.small
    case count => exact h.count
    case gone => exact h.gone
    case live => exact h.live
    case destroying => exact h.destroying
    case idle =>
      intro i hi
      apply hidle
      simpa [State.freeIndexRelease, or_assoc] using hi
    case selfHandle => exact h.selfHandle
  | false =>
    constructor
    case owners =>
      simp only [State.freeIndexRelease, State.owners, Bool.false_eq_true, ↓reduceIte, append_assoc, nil_append]
      exact ((((perm_middle.append_left _).trans perm_middle).append_left _).trans perm_middle).trans howners
    case small => exact h.small
    case count =>
      intro hreleased
      simp only [State.freeIndexRelease, Bool.false_eq_true, ↓reduceIte, length_cons, h.count hreleased]
    case gone => exact h.gone
    case live => exact h.live
    case destroying => exact h.destroying
    case idle =>
      intro i hi
      apply hidle
      simp only [State.freeIndexRelease, Bool.false_eq_true, ↓reduceIte, nil_append, mem_append,
        mem_cons] at hi
      rcases hi with hfree | heq | hlost
      · exact .inr (.inl hfree)
      · exact .inl heq
      · exact .inr (.inr hlost)
    case selfHandle => exact h.selfHandle

theorem Owned.set_ne {idx i : Nat} (h : Owned [idx] s) (slot : Slot C) (hi : i ∈ s.owners) :
    (s.slots.set idx slot)[i]? = s.slots[i]? := by
  have hnodup := h.nodup
  rw [singleton_append, nodup_cons] at hnodup
  exact List.getElem?_set_ne fun heq : idx = i => hnodup.1 (heq ▸ hi)

theorem Owned.publish (h : Owned [idx] s) (hreleased : s.released = false) {cache : C} [DecidableEq C]
    (hfresh : cache ∉ s.live.map Prod.snd) (generation : UInt32) (acquires : Nat → Nat) :
    Owned [] { s with
      slots := s.slots.set idx { ptr := some cache, generation := generation, inUse := true }
      acquires := acquires
      selfHandle := update s.selfHandle cache (makeHandle idx generation)
      live := (makeHandle idx generation, cache) :: s.live
      issued := makeHandle idx generation :: s.issued } := by
  have hlt : idx < s.slots.length := h.lt (mem_append_left _ (mem_singleton_self idx))
  have hidx := handleIdx_makeHandle (h.lt_two_pow hlt) generation
  have hgen := handleGen_makeHandle (h.lt_two_pow hlt) generation
  constructor
  case owners =>
    have howners := h.owners
    simp only [State.owners, map_cons, hidx, append_assoc, nil_append, cons_append, length_set]
      at howners ⊢
    exact howners
  case small => exact (length_set ..).trans_le h.small
  case count => exact h.count
  case gone => exact fun hgone => absurd hgone (by simp [hreleased])
  case live =>
    intro p hp
    cases mem_cons.mp hp with
    | inl heq =>
      subst heq
      rw [hidx, hgen]
      exact List.getElem?_set_self hlt
    | inr hold => exact (h.set_ne _ (mem_owners_live hold)).trans (h.live p hold)
  case destroying =>
    intro p hp
    obtain ⟨g, hg⟩ := h.destroying p hp
    exact ⟨g, (h.set_ne _ (mem_owners_destroying hp)).trans hg⟩
  case idle =>
    intro i hi
    obtain ⟨g, hg⟩ := h.idle i (by simpa using Or.inr (mem_append.mp hi))
    exact ⟨g, (h.set_ne _ (mem_owners_idle hi)).trans hg⟩
  case selfHandle =>
    intro p hp
    cases mem_cons.mp hp with
    | inl heq =>
      subst heq
      exact update_self _ _ _
    | inr hold =>
      have hne : p.2 ≠ cache := fun heq => hfresh (heq ▸ mem_map_of_mem hold)
      exact (update_of_ne hne _ _).trans (h.selfHandle p hold)

theorem Owned.unpublished (h : Owned [idx] s) {cache : C} [DecidableEq C]
    (hfresh : cache ∉ s.live.map Prod.snd) {generation : UInt32} (acquires : Nat → Nat) :
    Owned [idx] { s with
      slots := s.slots.set idx { ptr := none, generation := generation, inUse := false }
      acquires := acquires
      selfHandle := update s.selfHandle cache 0 } := by
  have hlt : idx < s.slots.length := h.lt (mem_append_left _ (mem_singleton_self idx))
  constructor
  case owners => simpa only [State.owners, length_set] using h.owners
  case small => exact (length_set ..).trans_le h.small
  case count => exact h.count
  case gone =>
    intro hgone
    rw [h.gone hgone]
    rfl
  case live => exact fun p hp => (h.set_ne _ (mem_owners_live hp)).trans (h.live p hp)
  case destroying =>
    intro p hp
    obtain ⟨g, hg⟩ := h.destroying p hp
    exact ⟨g, (h.set_ne _ (mem_owners_destroying hp)).trans hg⟩
  case idle =>
    intro i hi
    rw [append_assoc, singleton_append, mem_cons] at hi
    cases hi with
    | inl heq => exact ⟨generation, by rw [heq]; exact List.getElem?_set_self hlt⟩
    | inr hold =>
      obtain ⟨g, hg⟩ := h.idle i (by simpa using Or.inr (mem_append.mp hold))
      exact ⟨g, (h.set_ne _ (mem_owners_idle hold)).trans hg⟩
  case selfHandle =>
    intro p hp
    have hne : p.2 ≠ cache := fun heq => hfresh (heq ▸ mem_map_of_mem hp)
    exact (update_of_ne hne _ _).trans (h.selfHandle p hp)

theorem Owned.find (h : Owned [] s) {handle : UInt64} {raw : C} (hfind : s.find handle = some raw) :
    (handle, raw) ∈ s.live := by
  unfold State.find at hfind
  split at hfind
  case isTrue => cases hfind
  case isFalse =>
    obtain ⟨slot, hslot, hraw⟩ := Option.bind_eq_some_iff.mp hfind
    split at hraw
    case isFalse => cases hraw
    case isTrue hmatch =>
      simp only [Bool.and_eq_true, beq_iff_eq] at hmatch
      have hlt : (handleIdx handle).toNat < s.slots.length := (List.getElem?_eq_some_iff.mp hslot).1
      have hmem : (handleIdx handle).toNat ∈ s.owners := h.owners.mem_iff.mpr (mem_range.mpr hlt)
      simp only [State.owners, append_assoc, mem_append, mem_map] at hmem
      rcases hmem with ⟨p, hp, hidx⟩ | ⟨p, hp, hidx⟩ | hidle
      · have hlive := h.live p hp
        rw [hidx, hslot] at hlive
        cases hlive
        cases hraw
        have heq : handle = p.1 := handle_ext hidx.symm hmatch.2.symm
        exact heq ▸ hp
      · obtain ⟨g, hg⟩ := h.destroying p hp
        rw [hidx, hslot] at hg
        cases hg
        cases hmatch.1
      · obtain ⟨g, hg⟩ := h.idle _ (by simpa using hidle)
        rw [hslot] at hg
        cases hg
        cases hraw

theorem Owned.destroyBegin [DecidableEq C] (h : Owned [] s) {handle : UInt64} (hstep : s.destroyBegin handle = some s') :
    Owned [] s' := by
  obtain ⟨raw, hfind, rfl⟩ := Option.map_eq_some_iff.mp hstep
  have hmem : (handle, raw) ∈ s.live := h.find hfind
  have hnodup : (s.live.map fun p => (handleIdx p.1).toNat).Nodup := by
    have hall := h.nodup
    simp only [State.owners, nil_append, append_assoc] at hall
    exact hall.of_append_left
  have hinj : ∀ p ∈ s.live, (handleIdx p.1).toNat = (handleIdx handle).toNat → p = (handle, raw) := fun p hp heq =>
    inj_on_of_nodup_map hnodup hp hmem heq
  have hfilter : s.live.filter (fun p => p.1 ≠ handle) = s.live.erase (handle, raw) := by
    rw [hnodup.of_map.erase_eq_filter]
    apply filter_congr
    intro p hp
    by_cases hp1 : p.1 = handle
    · simp [hinj p hp (by rw [hp1])]
    · have hne : p ≠ (handle, raw) := fun heq => hp1 (by rw [heq])
      simp [hp1, hne]
  have hother : ∀ i, i ≠ (handleIdx handle).toNat →
      (s.slots.modify (handleIdx handle).toNat fun slot => { slot with inUse := false })[i]? = s.slots[i]? := fun i hi => by
    rw [List.getElem?_modify_ne _ _ (Ne.symm hi)]
  constructor
  case owners =>
    have howners := h.owners
    have herase := (perm_cons_erase hmem).map fun p => (handleIdx p.1).toNat
    simp only [State.owners, hfilter, length_modify, append_assoc, nil_append, map_cons,
      cons_append] at howners herase ⊢
    have hmove := perm_middle.trans (herase.symm.append_right (s.destroying.map Prod.fst ++ (s.freeIndices ++ s.lost)))
    exact hmove.trans howners
  case small => exact (length_modify ..).trans_le h.small
  case count => exact h.count
  case gone =>
    intro hgone
    have hlive := h.live _ hmem
    rw [h.gone hgone] at hlive
    cases hlive
  case live =>
    intro p hp
    obtain ⟨hp, hne⟩ := mem_filter.mp hp
    have hidx : (handleIdx p.1).toNat ≠ (handleIdx handle).toNat := fun heq => by
      have hpeq := hinj p hp heq
      simp [hpeq] at hne
    exact (hother _ hidx).trans (h.live p hp)
  case destroying =>
    intro p hp
    cases mem_cons.mp hp with
    | inl heq =>
      subst heq
      refine ⟨handleGen handle, ?_⟩
      rw [List.getElem?_modify_eq, h.live _ hmem]
      rfl
    | inr hold =>
      obtain ⟨g, hg⟩ := h.destroying p hold
      have hidx : p.1 ≠ (handleIdx handle).toNat := fun heq => by
        rw [heq, h.live _ hmem] at hg
        cases hg
      exact ⟨g, (hother _ hidx).trans hg⟩
  case idle =>
    intro i hi
    obtain ⟨g, hg⟩ := h.idle i hi
    have hidx : i ≠ (handleIdx handle).toNat := fun heq => by
      rw [heq, h.live _ hmem] at hg
      cases hg
    exact ⟨g, (hother _ hidx).trans hg⟩
  case selfHandle => exact fun p hp => h.selfHandle p (mem_of_mem_filter hp)

theorem Owned.clear [DecidableEq C] (h : Owned [] s) {raw : C} (hmem : (idx, raw) ∈ s.destroying)
    (generation : UInt32) :
    Owned [idx] { s with
      slots := s.slots.set idx { ptr := none, generation := generation, inUse := false }
      destroying := s.destroying.erase (idx, raw) } := by
  have hlt : idx < s.slots.length := h.lt (mem_owners_destroying hmem)
  have herase := (perm_cons_erase hmem).map Prod.fst
  have howners : ([idx] ++ State.owners { s with
      slots := s.slots.set idx { ptr := none, generation := generation, inUse := false }
      destroying := s.destroying.erase (idx, raw) }).Perm (List.range s.slots.length) := by
    have howners := h.owners
    simp only [State.owners, append_assoc, nil_append, map_cons, singleton_append] at howners herase ⊢
    exact (perm_middle.symm.trans ((herase.symm.append_right (s.freeIndices ++ s.lost)).append_left _)).trans howners
  have hnodup : ([idx] ++ State.owners { s with
      slots := s.slots.set idx { ptr := none, generation := generation, inUse := false }
      destroying := s.destroying.erase (idx, raw) }).Nodup := howners.nodup_iff.mpr nodup_range
  have hother : ∀ i, i ∈ State.owners { s with
      slots := s.slots.set idx { ptr := none, generation := generation, inUse := false }
      destroying := s.destroying.erase (idx, raw) } →
      (s.slots.set idx { ptr := none, generation := generation, inUse := false })[i]? = s.slots[i]? := fun i hi => by
    rw [singleton_append, nodup_cons] at hnodup
    exact List.getElem?_set_ne fun heq : idx = i => hnodup.1 (heq ▸ hi)
  constructor
  case owners => simpa only [length_set] using howners
  case small => exact (length_set ..).trans_le h.small
  case count => exact h.count
  case gone =>
    intro hgone
    rw [h.gone hgone]
    rfl
  case live => exact fun p hp => (hother _ (mem_owners_live hp)).trans (h.live p hp)
  case destroying =>
    intro p hp
    obtain ⟨g, hg⟩ := h.destroying p (mem_of_mem_erase hp)
    exact ⟨g, (hother _ (mem_owners_destroying hp)).trans hg⟩
  case idle =>
    intro i hi
    rw [append_assoc, singleton_append, mem_cons] at hi
    cases hi with
    | inl heq => exact ⟨generation, by rw [heq]; exact List.getElem?_set_self hlt⟩
    | inr hold =>
      obtain ⟨g, hg⟩ := h.idle i hold
      exact ⟨g, (hother _ (mem_owners_idle hold)).trans hg⟩
  case selfHandle => exact h.selfHandle

theorem Owned.releaseSlotTable (h : Owned [] s) (hlive : s.anySlotLive = false) : Owned [] s.releaseSlotTable := by
  have hnone : ∀ slot ∈ s.slots, slot.ptr = none := by
    intro slot hslot
    have := any_eq_false.mp hlive slot hslot
    simpa using this
  have hl : s.live = [] := by
    apply eq_nil_iff_forall_not_mem.mpr
    intro p hp
    cases hnone _ (mem_of_getElem? (h.live p hp))
  have hd : s.destroying = [] := by
    apply eq_nil_iff_forall_not_mem.mpr
    intro p hp
    obtain ⟨g, hg⟩ := h.destroying p hp
    cases hnone _ (mem_of_getElem? hg)
  constructor
  case owners => simp [State.owners, State.releaseSlotTable, hl, hd]
  case small => exact Nat.zero_le _
  case count => exact fun hreleased => absurd hreleased (by simp [State.releaseSlotTable])
  case gone => exact fun _ => rfl
  case live => exact fun p hp => absurd hp (by simp [State.releaseSlotTable, hl])
  case destroying => exact fun p hp => absurd hp (by simp [State.releaseSlotTable, hd])
  case idle => exact fun i hi => absurd hi (by simp [State.releaseSlotTable])
  case selfHandle => exact h.selfHandle

/-! ## Generations -/

/-- The generation of a slot never goes past twice the number of its acquires, and a handle keeps the one its slot had.
-/
structure Counted (s : State C) : Prop where
  bounds : ∀ idx slot, s.slots[idx]? = some slot → s.acquires idx < 2 ^ 31 →
    slot.generation.toNat + (if slot.ptr.isSome then 1 else 0) ≤ 2 * s.acquires idx
  issued : s.released = false → ∀ h ∈ s.issued, s.acquires (handleIdx h).toNat < 2 ^ 31 →
    ∃ slot, s.slots[(handleIdx h).toNat]? = some slot ∧ (handleGen h).toNat ≤ slot.generation.toNat
  distinct : ∀ idx, s.acquires idx < 2 ^ 31 → (s.issued.filter fun h => (handleIdx h).toNat = idx).Nodup
  nonzero : 0 ∉ s.issued

theorem Counted.update (h : Counted s) (hacquires : s'.acquires = s.acquires) (hissued : s'.issued = s.issued)
    (hreleased : s'.released = s.released)
    (hold : ∀ idx slot, s.slots[idx]? = some slot → s.acquires idx < 2 ^ 31 →
      ∃ slot', s'.slots[idx]? = some slot' ∧ slot.generation.toNat ≤ slot'.generation.toNat)
    (hbounds : ∀ idx slot', s'.slots[idx]? = some slot' → s.acquires idx < 2 ^ 31 →
      slot'.generation.toNat + (if slot'.ptr.isSome then 1 else 0) ≤ 2 * s.acquires idx) : Counted s' := by
  constructor
  case bounds =>
    rw [hacquires]
    exact hbounds
  case issued =>
    rw [hreleased, hissued, hacquires]
    intro hrel handle hmem hacq
    obtain ⟨slot, hslot, hgen⟩ := h.issued hrel handle hmem hacq
    obtain ⟨slot', hslot', hle⟩ := hold _ slot hslot hacq
    exact ⟨slot', hslot', hgen.trans hle⟩
  case distinct =>
    rw [hissued, hacquires]
    exact h.distinct
  case nonzero =>
    rw [hissued]
    exact h.nonzero

theorem Counted.congr (h : Counted s) (hslots : s'.slots = s.slots) (hacquires : s'.acquires = s.acquires)
    (hissued : s'.issued = s.issued) (hreleased : s'.released = s.released) : Counted s' := by
  apply h.update hacquires hissued hreleased
  · intro idx slot hslot _
    exact ⟨slot, hslots ▸ hslot, Nat.le_refl _⟩
  · intro idx slot' hslot' hacq
    exact h.bounds idx slot' (hslots ▸ hslot') hacq

theorem Counted.freeIndexRelease (h : Counted s) (idx : Nat) (freePush : Bool) :
    Counted (s.freeIndexRelease idx freePush) := by
  cases freePush <;> exact h.congr rfl rfl rfl rfl

theorem Counted.grow (h : Counted s) (hsame : SameCaches s s')
    (hslots : s'.slots = s.slots ∨ s'.slots = s.slots ++ [{ ptr := none, generation := 0, inUse := false }]) :
    Counted s' := by
  cases hslots with
  | inl heq => exact h.congr heq hsame.acquires hsame.issued hsame.released
  | inr hgrown =>
    apply h.update hsame.acquires hsame.issued hsame.released
    · intro idx slot hslot _
      have hlt : idx < s.slots.length := (List.getElem?_eq_some_iff.mp hslot).1
      refine ⟨slot, ?_, Nat.le_refl _⟩
      rw [hgrown, List.getElem?_append_left hlt, hslot]
    · intro idx slot' hslot' hacq
      rw [hgrown] at hslot'
      by_cases hlt : idx < s.slots.length
      · rw [List.getElem?_append_left hlt] at hslot'
        exact h.bounds idx slot' hslot' hacq
      · rw [List.getElem?_append_right (Nat.le_of_not_lt hlt)] at hslot'
        have hmem := mem_singleton.mp (mem_of_getElem? hslot')
        subst hmem
        exact Nat.zero_le _

theorem toNat_nextGeneration {generation : UInt32} (h : generation.toNat + 1 < 2 ^ 32) :
    (nextGeneration generation).toNat = generation.toNat + 1 := by
  have hadd : (generation + 1).toNat = generation.toNat + 1 := by
    rw [UInt32.toNat_add]
    exact Nat.mod_eq_of_lt h
  unfold nextGeneration
  split
  case isTrue hzero =>
    rw [hzero] at hadd
    exact absurd hadd (Nat.succ_ne_zero _).symm
  case isFalse => exact hadd

theorem Counted.occupy (h : Counted s) {slot : Slot C} (hslot : s.slots[idx]? = some slot)
    (hptr : slot.ptr = none) {slot' : Slot C} (hgen : slot'.generation = nextGeneration slot.generation)
    (hslots : s'.slots = s.slots.set idx slot')
    (hacquires : s'.acquires = Function.update s.acquires idx (s.acquires idx + 1)) (hreleased : s'.released = s.released)
    (hissued : s'.issued = s.issued ∨ s.released = false ∧ idx < 2 ^ 32 ∧
      s'.issued = makeHandle idx slot'.generation :: s.issued) : Counted s' := by
  have hlt : idx < s.slots.length := (List.getElem?_eq_some_iff.mp hslot).1
  -- while the slot was acquired rarely enough, its generation is one up
  have hup : s'.acquires idx < 2 ^ 31 → slot.generation.toNat ≤ 2 * s.acquires idx ∧
      slot'.generation.toNat = slot.generation.toNat + 1 := by
    intro hacq
    rw [hacquires, Function.update_self] at hacq
    have hbound := h.bounds idx slot hslot (by omega)
    simp only [hptr, Option.isSome_none, Bool.false_eq_true, ↓reduceIte, Nat.add_zero] at hbound
    exact ⟨hbound, by rw [hgen]; exact toNat_nextGeneration (by omega)⟩
  have hself : s'.slots[idx]? = some slot' := by
    rw [hslots]
    exact List.getElem?_set_self hlt
  have hother : ∀ i, i ≠ idx → s'.slots[i]? = s.slots[i]? ∧ s'.acquires i = s.acquires i := by
    intro i hi
    rw [hslots, hacquires]
    exact ⟨List.getElem?_set_ne (Ne.symm hi), Function.update_of_ne hi _ _⟩
  have hbefore : s'.acquires idx < 2 ^ 31 → s.acquires idx < 2 ^ 31 := by
    intro hacq
    rw [hacquires, Function.update_self] at hacq
    omega
  -- a handle of an earlier occupancy has an earlier generation
  have hearlier : s.released = false → s'.acquires idx < 2 ^ 31 → ∀ handle ∈ s.issued, (handleIdx handle).toNat = idx →
      (handleGen handle).toNat < slot'.generation.toNat := by
    intro hrel hacq handle hmem hidx
    obtain ⟨old, hold, hle⟩ := h.issued hrel handle hmem (by rw [hidx]; exact hbefore hacq)
    rw [hidx, hslot] at hold
    cases hold
    have := (hup hacq).2
    omega
  constructor
  case bounds =>
    intro i entry hentry hacq
    by_cases hi : i = idx
    · subst hi
      rw [hself] at hentry
      cases hentry
      have hnext := hup hacq
      rw [hacquires, Function.update_self]
      split <;> omega
    · rw [(hother i hi).1] at hentry
      rw [(hother i hi).2] at hacq ⊢
      exact h.bounds i entry hentry hacq
  case issued =>
    intro hrel handle hmem hacq
    rw [hreleased] at hrel
    by_cases hi : (handleIdx handle).toNat = idx
    · rw [hi] at hacq ⊢
      refine ⟨slot', hself, ?_⟩
      have hcases : handle ∈ s.issued ∨ idx < 2 ^ 32 ∧ handle = makeHandle idx slot'.generation := by
        cases hissued with
        | inl heq => exact .inl (heq ▸ hmem)
        | inr hnew =>
          rw [hnew.2.2] at hmem
          exact (List.mem_cons.mp hmem).symm.imp_right fun heq => ⟨hnew.2.1, heq⟩
      cases hcases with
      | inl hold => exact (hearlier hrel hacq handle hold hi).le
      | inr hnew => rw [hnew.2, handleGen_makeHandle hnew.1]
    · rw [(hother _ hi).2] at hacq
      have hold : handle ∈ s.issued := by
        cases hissued with
        | inl heq => exact heq ▸ hmem
        | inr hnew =>
          rw [hnew.2.2] at hmem
          cases List.mem_cons.mp hmem with
          | inl heq => exact absurd (by rw [heq]; exact handleIdx_makeHandle hnew.2.1 _) hi
          | inr hold => exact hold
      obtain ⟨entry, hentry, hle⟩ := h.issued hrel handle hold hacq
      exact ⟨entry, by rw [(hother _ hi).1]; exact hentry, hle⟩
  case distinct =>
    intro i hacq
    cases hissued with
    | inl heq =>
      rw [heq]
      apply h.distinct
      by_cases hi : i = idx
      · subst hi
        exact hbefore hacq
      · rw [← (hother i hi).2]
        exact hacq
    | inr hnew =>
      obtain ⟨hrel, hidx, heq⟩ := hnew
      have hindex := handleIdx_makeHandle hidx slot'.generation
      rw [heq]
      by_cases hi : i = idx
      · subst hi
        rw [List.filter_cons_of_pos (by simpa using hindex)]
        refine List.nodup_cons.mpr ⟨fun hmem => ?_, h.distinct i (hbefore hacq)⟩
        obtain ⟨hmem, -⟩ := List.mem_filter.mp hmem
        have hlt' := hearlier hrel hacq _ hmem hindex
        rw [handleGen_makeHandle hidx] at hlt'
        exact Nat.lt_irrefl _ hlt'
      · rw [List.filter_cons_of_neg (by simpa [hindex] using fun heq => hi heq.symm)]
        apply h.distinct
        rw [← (hother i hi).2]
        exact hacq
  case nonzero =>
    cases hissued with
    | inl heq => exact heq ▸ h.nonzero
    | inr hnew =>
      rw [hnew.2.2]
      intro hmem
      cases List.mem_cons.mp hmem with
      | inl heq => exact makeHandle_ne_zero hnew.2.1 (hgen ▸ nextGeneration_ne_zero _) heq.symm
      | inr hold => exact h.nonzero hold

theorem Counted.releaseSlotTable (h : Counted s) : Counted s.releaseSlotTable := by
  constructor
  case bounds => exact fun idx slot hslot => by cases hslot
  case issued => exact fun hreleased => by cases hreleased
  case distinct => exact h.distinct
  case nonzero => exact h.nonzero

/-! ## Runs -/

structure Inv (s : State C) : Prop where
  owned : Owned [] s
  counted : Counted s

theorem Inv.init : Inv (State.init C) := by
  constructor
  case owned =>
    constructor
    case owners => exact List.Perm.refl _
    case small => exact Nat.zero_le _
    case count => exact fun _ => rfl
    case gone => exact fun _ => rfl
    case live => exact fun p hp => by cases hp
    case destroying => exact fun p hp => by cases hp
    case idle => exact fun i hi => by cases hi
    case selfHandle => exact fun p hp => by cases hp
  case counted =>
    constructor
    case bounds => exact fun idx slot hslot => by cases hslot
    case issued => exact fun _ handle hmem => by cases hmem
    case distinct => exact fun _ _ => nodup_nil
    case nonzero => exact not_mem_nil

theorem slots_freeIndexRelease (s : State C) (idx : Nat) (freePush : Bool) :
    (s.freeIndexRelease idx freePush).slots = s.slots := by
  cases freePush <;> rfl

theorem Inv.cleanupSlotTable (h : Inv s) : Inv s.cleanupSlotTable := by
  unfold State.cleanupSlotTable
  split
  case isTrue => exact h
  case isFalse =>
    split
    case isTrue =>
      constructor
      case owned =>
        have ho := h.owned
        exact ⟨ho.owners, ho.small, ho.count, ho.gone, ho.live, ho.destroying, ho.idle, ho.selfHandle⟩
      case counted => exact h.counted.congr rfl rfl rfl rfl
    case isFalse hlive =>
      rw [Bool.not_eq_true] at hlive
      exact ⟨h.owned.releaseSlotTable hlive, h.counted.releaseSlotTable⟩

variable [DecidableEq C]

theorem Inv.handleSlotAcquire (h : Inv s) {cache : C} (hfresh : cache ∉ s.live.map Prod.snd) (outcomes : Outcomes) :
    ∃ r s', s.handleSlotAcquire cache outcomes = some (r, s') ∧ Inv s' ∧
      (s'.slots.length = s.slots.length ∨ s.freeIndices = [] ∧ s.lost = []) := by
  unfold State.handleSlotAcquire
  split
  case isTrue => exact ⟨_, _, rfl, h, .inl rfl⟩
  case isFalse hreleased =>
    rw [Bool.not_eq_true] at hreleased
    obtain ⟨howned, hsame, hslots⟩ := h.owned.takeIndex hreleased outcomes.slotPush
    have hcounted := h.counted.grow hsame (hslots.imp_right fun hgrown => hgrown.2.2)
    have hlength : (s.takeIndex outcomes.slotPush).2.slots.length = s.slots.length ∨
        s.freeIndices = [] ∧ s.lost = [] := by
      cases hslots with
      | inl heq => exact .inl (congrArg List.length heq)
      | inr hgrown => exact .inr ⟨hgrown.1, hgrown.2.1⟩
    cases htake : s.takeIndex outcomes.slotPush with
    | mk taken s₁ =>
      rw [htake] at howned hsame hcounted hlength
      cases taken with
      | none => exact ⟨_, _, rfl, ⟨howned, hcounted⟩, hlength⟩
      | some idx =>
        have hreleased₁ : s₁.released = false := hsame.released.trans hreleased
        have hfresh₁ : cache ∉ s₁.live.map Prod.snd := hsame.live ▸ hfresh
        obtain ⟨g, hg⟩ := howned.idle idx (List.mem_append_left _ (List.mem_append_left _ (List.mem_singleton_self idx)))
        have hidx : idx < 2 ^ 32 := howned.lt_two_pow (List.getElem?_eq_some_iff.mp hg).1
        simp only [State.claim, hg, Option.map_some]
        split
        case isTrue =>
          refine ⟨_, _, rfl, ⟨howned.publish hreleased₁ hfresh₁ _ _, ?_⟩, ?_⟩
          · exact hcounted.occupy hg rfl rfl rfl rfl rfl (.inr ⟨hreleased₁, hidx, rfl⟩)
          · rwa [List.length_set]
        case isFalse =>
          refine ⟨_, _, rfl, ⟨(howned.unpublished hfresh₁ _).freeIndexRelease _, ?_⟩, ?_⟩
          · refine Counted.freeIndexRelease ?_ _ _
            exact hcounted.occupy hg rfl rfl rfl rfl rfl (.inl rfl)
          · rw [slots_freeIndexRelease]
            rwa [List.length_set]

theorem Inv.destroyBegin (h : Inv s) {handle : UInt64} (hstep : s.destroyBegin handle = some s') : Inv s' := by
  constructor
  case owned => exact h.owned.destroyBegin hstep
  case counted =>
    obtain ⟨raw, hfind, rfl⟩ := Option.map_eq_some_iff.mp hstep
    have hlive := h.owned.live _ (h.owned.find hfind)
    refine h.counted.update rfl rfl rfl ?_ ?_
    · intro idx slot hslot _
      by_cases hidx : (handleIdx handle).toNat = idx
      · subst hidx
        refine ⟨{ slot with inUse := false }, ?_, Nat.le_refl _⟩
        rw [List.getElem?_modify_eq, hslot]
        rfl
      · exact ⟨slot, (List.getElem?_modify_ne _ _ hidx).trans hslot, Nat.le_refl _⟩
    · intro idx slot' hslot' hacq
      by_cases hidx : (handleIdx handle).toNat = idx
      · subst hidx
        simp only [List.getElem?_modify_eq, hlive] at hslot'
        cases hslot'
        have hbound := h.counted.bounds _ _ hlive hacq
        exact hbound
      · simp only [List.getElem?_modify_ne _ _ hidx] at hslot'
        exact h.counted.bounds idx slot' hslot' hacq

theorem Inv.destroyEnd (h : Inv s) {raw : C} (hmem : (idx, raw) ∈ s.destroying) (freePush : Bool) :
    ∃ s', s.destroyEnd idx raw freePush = some s' ∧ Inv s' := by
  obtain ⟨g, hg⟩ := h.owned.destroying _ hmem
  have hlt : idx < s.slots.length := (List.getElem?_eq_some_iff.mp hg).1
  have hcounted : Counted { s with
      slots := s.slots.set idx { ptr := none, generation := g + 1, inUse := false }
      destroying := s.destroying.erase (idx, raw) } := by
    have hgen : s.acquires idx < 2 ^ 31 → g.toNat + 1 ≤ 2 * s.acquires idx ∧ (g + 1).toNat = g.toNat + 1 := by
      intro hacq
      have hbound : g.toNat + 1 ≤ 2 * s.acquires idx := h.counted.bounds idx _ hg hacq
      refine ⟨hbound, ?_⟩
      rw [UInt32.toNat_add]
      exact Nat.mod_eq_of_lt (by simp only [UInt32.reduceToNat]; omega)
    refine h.counted.update rfl rfl rfl ?_ ?_
    · intro i slot hslot hacq
      by_cases hi : idx = i
      · subst hi
        rw [hg] at hslot
        cases hslot
        exact ⟨_, List.getElem?_set_self hlt, by rw [(hgen hacq).2]; exact Nat.le_succ _⟩
      · exact ⟨slot, (List.getElem?_set_ne hi).trans hslot, Nat.le_refl _⟩
    · intro i slot' hslot' hacq
      by_cases hi : idx = i
      · subst hi
        simp only [List.getElem?_set_self hlt, Option.some.injEq] at hslot'
        subst hslot'
        rw [(hgen hacq).2]
        exact (hgen hacq).1
      · simp only [List.getElem?_set_ne hi] at hslot'
        exact h.counted.bounds i slot' hslot' hacq
  have hinv := Inv.mk ((h.owned.clear hmem (g + 1)).freeIndexRelease freePush) (hcounted.freeIndexRelease idx freePush)
  simp only [State.destroyEnd, if_pos hmem, hg, Option.map_some]
  refine ⟨_, rfl, ?_⟩
  unfold State.releaseSlotTableIfDeferred
  split
  case isTrue hfree =>
    simp only [Bool.and_eq_true, Bool.not_eq_eq_eq_not, Bool.not_true] at hfree
    exact ⟨hinv.owned.releaseSlotTable hfree.2, hinv.counted.releaseSlotTable⟩
  case isFalse => exact hinv

theorem Inv.step (h : Inv s) {a : Act C} (hstep : s.step a = some s') : Inv s' := by
  cases a with
  | create cache outcomes =>
    simp only [State.step] at hstep
    split at hstep
    case isTrue => cases hstep
    case isFalse hfresh =>
      obtain ⟨r, s₁, hacquire, hinv, -⟩ := h.handleSlotAcquire (fun hmem => hfresh (.inl hmem)) outcomes
      rw [hacquire] at hstep
      cases hstep
      exact hinv
  | destroyBegin handle => exact h.destroyBegin hstep
  | destroyEnd idx raw freePush =>
    by_cases hmem : (idx, raw) ∈ s.destroying
    · obtain ⟨s₁, hend, hinv⟩ := h.destroyEnd hmem freePush
      rw [State.step, hend] at hstep
      cases hstep
      exact hinv
    · simp only [State.step, State.destroyEnd, if_neg hmem] at hstep
      cases hstep
  | cleanup =>
    cases hstep
    exact h.cleanupSlotTable

theorem Inv.steps (h : Inv s) {acts : List (Act C)} (hsteps : s.steps acts = some s') : Inv s' := by
  induction acts generalizing s with
  | nil =>
    cases hsteps
    exact h
  | cons a rest ih =>
    obtain ⟨s₁, hstep, hrest⟩ := Option.bind_eq_some_iff.mp hsteps
    exact ih (h.step hstep) hrest

end Ccollections.Clrucache.Slots
