import Ccollections.Cmempool.Cmempool
import Ccollections.Lib.Links
import Mathlib.Data.List.Perm.Basic

/-!
# Every slot is in one place

The free list, the magazines and the hands of the callers share the slots of a pool. Each operation moves slots from
one of them to another.
-/

namespace Ccollections.Cmempool
open Lib Function List Option

variable {mp mp' : Mempool} {F F' M M' H H' slots : List Nat} {t u i : Nat}

namespace Mempool

def nextOf (mp : Mempool) (t : Nat) : Option Nat := (mp.mags t).bind (·.nextInPool)

def prevOf (mp : Mempool) (t : Nat) : Option Nat := (mp.mags t).bind (·.prevInPool)

def cached (mp : Mempool) (M : List Nat) : List Nat := M.flatMap mp.slotsOf

end Mempool

structure FreeListOk (mp : Mempool) (F : List Nat) : Prop where
  links : Seg mp.links mp.freeInst F none
  count : mp.freeElemCount = F.length

structure MagazinesOk (mp : Mempool) (M : List Nat) : Prop where
  next : Seg mp.nextOf mp.magazines M none
  prev : Seg mp.prevOf M.getLast? M.reverse none
  linked : ∀ t, (mp.mags t).isSome = true ↔ t ∈ M
  nodup : M.Nodup
  live : mp.liveMagazines = M.length
  limit : M.length ≤ mp.maxMagazines
  capacity : ∀ t mag, mp.mags t = some mag → mag.capacity = mp.magazineCapacity ∧ mag.slots.length ≤ mag.capacity

structure MempoolOk (mp : Mempool) (F M H : List Nat) : Prop where
  free : FreeListOk mp F
  magazines : MagazinesOk mp M
  places : (F ++ (mp.cached M ++ H)).Perm (List.range mp.totalElemCount)
  taken : ∀ i < mp.totalElemCount, mp.taken i = true ↔ i ∈ H
  reserve : mp.totalElemCount = mp.advertisedElemCount + mp.maxMagazines * mp.magazineCapacity

/-! ## The fields of a pool -/

section Fields

@[simp] theorem slotsOf_setSlots_of_ne (h : u ≠ t) : (mp.setSlots t slots).slotsOf u = mp.slotsOf u := by
  simp [Mempool.slotsOf, Mempool.setSlots, Mempool.setMagazine, h]

theorem slotsOf_setSlots_self (h : (mp.mags t).isSome = true) : (mp.setSlots t slots).slotsOf t = slots := by
  obtain ⟨mag, hmag⟩ := isSome_iff_exists.mp h
  simp [Mempool.slotsOf, Mempool.setSlots, Mempool.setMagazine, hmag]

theorem slotsOf_some {mag : Magazine} (h : mp.mags t = some mag) : mp.slotsOf t = mag.slots := by simp [Mempool.slotsOf, h]

theorem capacityOf_some {mag : Magazine} (h : mp.mags t = some mag) : mp.capacityOf t = mag.capacity := by
  simp [Mempool.capacityOf, h]

theorem isSome_setMagazine (f : Magazine → Magazine) (u : Nat) : ((mp.setMagazine t f).mags u).isSome = (mp.mags u).isSome := by
  by_cases hu : u = t
  · subst hu
    simp [Mempool.setMagazine]
  · simp [Mempool.setMagazine, hu]

@[simp] theorem isSome_setSlots (u : Nat) : ((mp.setSlots t slots).mags u).isSome = (mp.mags u).isSome := isSome_setMagazine _ u

@[simp] theorem nextOf_setSlots : (mp.setSlots t slots).nextOf = mp.nextOf := by
  funext u
  by_cases hu : u = t
  · subst hu
    simp only [Mempool.nextOf, Mempool.setSlots, Mempool.setMagazine, update_self]
    cases mp.mags u <;> rfl
  · simp [Mempool.nextOf, Mempool.setSlots, Mempool.setMagazine, hu]

@[simp] theorem prevOf_setSlots : (mp.setSlots t slots).prevOf = mp.prevOf := by
  funext u
  by_cases hu : u = t
  · subst hu
    simp only [Mempool.prevOf, Mempool.setSlots, Mempool.setMagazine, update_self]
    cases mp.mags u <;> rfl
  · simp [Mempool.prevOf, Mempool.setSlots, Mempool.setMagazine, hu]

end Fields

/-! ## What an operation of a thread leaves alone -/

structure PoolShape where
  maxMagazines : Nat
  magazineCapacity : Nat
  shouldUseLocks : Bool
  fallback : Bool
  advertised : Nat
  total : Nat

def Mempool.shape (mp : Mempool) : PoolShape :=
  ⟨mp.maxMagazines, mp.magazineCapacity, mp.shouldUseLocks, mp.fallbackToDynamicMemory, mp.advertisedElemCount, mp.totalElemCount⟩

/-- An operation of `t` changes neither the shape of the pool nor what other threads have in their magazines. -/
structure Frame (t : Nat) (mp mp' : Mempool) : Prop where
  maxMagazines : mp'.maxMagazines = mp.maxMagazines
  magazineCapacity : mp'.magazineCapacity = mp.magazineCapacity
  shouldUseLocks : mp'.shouldUseLocks = mp.shouldUseLocks
  fallback : mp'.fallbackToDynamicMemory = mp.fallbackToDynamicMemory
  advertised : mp'.advertisedElemCount = mp.advertisedElemCount
  total : mp'.totalElemCount = mp.totalElemCount
  dynamic : mp'.dynamicEntries = mp.dynamicEntries
  linked : ∀ u, u ≠ t → (mp'.mags u).isSome = (mp.mags u).isSome
  slots : ∀ u, u ≠ t → mp'.slotsOf u = mp.slotsOf u

theorem Frame.refl (t : Nat) (mp : Mempool) : Frame t mp mp := ⟨rfl, rfl, rfl, rfl, rfl, rfl, rfl, fun _ _ => rfl, fun _ _ => rfl⟩

theorem Frame.trans {mp'' : Mempool} (h : Frame t mp mp') (h' : Frame t mp' mp'') : Frame t mp mp'' where
  maxMagazines := h'.maxMagazines.trans h.maxMagazines
  magazineCapacity := h'.magazineCapacity.trans h.magazineCapacity
  shouldUseLocks := h'.shouldUseLocks.trans h.shouldUseLocks
  fallback := h'.fallback.trans h.fallback
  advertised := h'.advertised.trans h.advertised
  total := h'.total.trans h.total
  dynamic := h'.dynamic.trans h.dynamic
  linked u hu := (h'.linked u hu).trans (h.linked u hu)
  slots u hu := (h'.slots u hu).trans (h.slots u hu)

theorem Frame.shape (h : Frame t mp mp') : mp'.shape = mp.shape := by
  simp only [Mempool.shape, h.maxMagazines, h.magazineCapacity, h.shouldUseLocks, h.fallback, h.advertised, h.total]

theorem frame_setSlots : Frame t mp (mp.setSlots t slots) :=
  ⟨rfl, rfl, rfl, rfl, rfl, rfl, rfl, fun u _ => isSome_setSlots u, fun _ hu => slotsOf_setSlots_of_ne hu⟩

theorem frame_of_mags (hmags : mp'.mags = mp.mags) (hmax : mp'.maxMagazines = mp.maxMagazines)
    (hcap : mp'.magazineCapacity = mp.magazineCapacity) (hlocks : mp'.shouldUseLocks = mp.shouldUseLocks)
    (hfallback : mp'.fallbackToDynamicMemory = mp.fallbackToDynamicMemory)
    (hadv : mp'.advertisedElemCount = mp.advertisedElemCount) (htotal : mp'.totalElemCount = mp.totalElemCount)
    (hdyn : mp'.dynamicEntries = mp.dynamicEntries) : Frame t mp mp' :=
  ⟨hmax, hcap, hlocks, hfallback, hadv, htotal, hdyn, fun u _ => by rw [hmags], fun u _ => by
    simp only [Mempool.slotsOf, hmags]⟩

/-! ## The slots of one magazine among all -/

theorem cached_perm (mp : Mempool) (ht : t ∈ M) : (mp.cached M).Perm (mp.slotsOf t ++ mp.cached (M.erase t)) := by
  have hperm := List.Perm.flatMap_right mp.slotsOf (perm_cons_erase ht)
  simpa [Mempool.cached] using hperm

theorem cached_congr (h : ∀ u ∈ M, mp'.slotsOf u = mp.slotsOf u) : mp'.cached M = mp.cached M :=
  flatMap_congr h

theorem Frame.cached_perm (hframe : Frame t mp mp') (hnodup : M.Nodup) (ht : t ∈ M) :
    (mp'.cached M).Perm (mp'.slotsOf t ++ mp.cached (M.erase t)) := by
  have hother : mp'.cached (M.erase t) = mp.cached (M.erase t) := by
    refine cached_congr fun u hu => hframe.slots u ?_
    rintro rfl
    exact hnodup.not_mem_erase hu
  rw [← hother]
  exact Cmempool.cached_perm mp' ht

theorem MempoolOk.lengths (h : MempoolOk mp F M H) : F.length + ((mp.cached M).length + H.length) = mp.totalElemCount := by
  have hlen := h.places.length_eq
  simpa using hlen

theorem MempoolOk.disjoint (h : MempoolOk mp F M H) : (F ++ (mp.cached M ++ H)).Nodup := h.places.nodup_iff.mpr nodup_range

theorem MempoolOk.lt_total (h : MempoolOk mp F M H) (hi : i ∈ F ++ (mp.cached M ++ H)) : i < mp.totalElemCount :=
  mem_range.mp (h.places.mem_iff.mp hi)

/-! ## Steps of the free list -/

theorem FreeListOk.head_eq (h : FreeListOk mp F) : mp.freeInst = F.head? := h.links.head_eq

theorem FreeListOk.drop (h : FreeListOk mp (i :: F)) : FreeListOk (mp.dropFreeInst i) F where
  links := h.links.2
  count := by simp [Mempool.dropFreeInst, h.count]

theorem FreeListOk.push (h : FreeListOk mp F) (hi : i ∉ F) : FreeListOk (mp.pushFreeInst i) (i :: F) where
  links := h.links.push (by simp [Mempool.pushFreeInst]) fun b hb => by
    have hne : b ≠ i := fun heq => hi (heq ▸ hb)
    simp [Mempool.pushFreeInst, hne]
  count := by simp [Mempool.pushFreeInst, h.count]

theorem FreeListOk.congr (h : FreeListOk mp F) (hlinks : mp'.links = mp.links) (hinst : mp'.freeInst = mp.freeInst)
    (hcount : mp'.freeElemCount = mp.freeElemCount) : FreeListOk mp' F :=
  ⟨by rw [hlinks, hinst]; exact h.links, by rw [hcount]; exact h.count⟩

/-! ## Steps of the magazines -/

theorem MagazinesOk.congr (h : MagazinesOk mp M) (hmags : mp'.mags = mp.mags) (hmagazines : mp'.magazines = mp.magazines)
    (hlive : mp'.liveMagazines = mp.liveMagazines) (hmax : mp'.maxMagazines = mp.maxMagazines)
    (hcap : mp'.magazineCapacity = mp.magazineCapacity) : MagazinesOk mp' M := by
  have hnext : mp'.nextOf = mp.nextOf := by
    funext u
    simp only [Mempool.nextOf, hmags]
  have hprev : mp'.prevOf = mp.prevOf := by
    funext u
    simp only [Mempool.prevOf, hmags]
  refine ⟨?_, ?_, ?_, h.nodup, hlive.trans h.live, ?_, ?_⟩
  · rw [hnext, hmagazines]
    exact h.next
  · rw [hprev]
    exact h.prev
  · rw [hmags]
    exact h.linked
  · rw [hmax]
    exact h.limit
  · rw [hmags, hcap]
    exact h.capacity

theorem MagazinesOk.setSlots (h : MagazinesOk mp M) (hlen : slots.length ≤ mp.capacityOf t) : MagazinesOk (mp.setSlots t slots) M where
  next := by
    rw [nextOf_setSlots]
    exact h.next
  prev := by
    rw [prevOf_setSlots]
    exact h.prev
  linked u := by
    rw [isSome_setSlots]
    exact h.linked u
  nodup := h.nodup
  live := h.live
  limit := h.limit
  capacity := by
    intro u mag hmag
    by_cases hu : u = t
    · subst hu
      simp only [Mempool.setSlots, Mempool.setMagazine, update_self, map_eq_some_iff] at hmag
      obtain ⟨old, hold, rfl⟩ := hmag
      rw [capacityOf_some hold] at hlen
      exact ⟨(h.capacity u old hold).1, hlen⟩
    · simp only [Mempool.setSlots, Mempool.setMagazine, update_of_ne hu] at hmag
      exact h.capacity u mag hmag

theorem MagazinesOk.exists_mag (h : MagazinesOk mp M) (ht : t ∈ M) :
    ∃ mag, mp.mags t = some mag ∧ mp.slotsOf t = mag.slots ∧ mp.capacityOf t = mag.capacity ∧ mag.capacity = mp.magazineCapacity ∧
      mag.slots.length ≤ mag.capacity := by
  obtain ⟨mag, hmag⟩ := isSome_iff_exists.mp ((h.linked t).mpr ht)
  exact ⟨mag, hmag, slotsOf_some hmag, capacityOf_some hmag, (h.capacity t mag hmag).1, (h.capacity t mag hmag).2⟩

theorem MagazinesOk.length_le (h : MagazinesOk mp M) (ht : t ∈ M) : (mp.slotsOf t).length ≤ mp.capacityOf t := by
  obtain ⟨mag, -, hslots, hcap, -, hle⟩ := h.exists_mag ht
  rw [hslots, hcap]
  exact hle

theorem MagazinesOk.cached_le (h : MagazinesOk mp M) : (mp.cached M).length ≤ mp.maxMagazines * mp.magazineCapacity := by
  have hall : ∀ t ∈ M, (mp.slotsOf t).length ≤ mp.magazineCapacity := by
    intro t ht
    obtain ⟨mag, -, hslots, -, hcap, hle⟩ := h.exists_mag ht
    rw [hslots, ← hcap]
    exact hle
  have hsum : ∀ L : List Nat, (∀ t ∈ L, (mp.slotsOf t).length ≤ mp.magazineCapacity) →
      (mp.cached L).length ≤ L.length * mp.magazineCapacity := by
    intro L hL
    induction L with
    | nil => simp [Mempool.cached]
    | cons t L ih =>
      have hrest := ih fun u hu => hL u (mem_cons_of_mem t hu)
      have hfirst := hL t mem_cons_self
      simp only [Mempool.cached, flatMap_cons, length_append, length_cons, Nat.succ_mul] at hrest ⊢
      omega
  exact (hsum M hall).trans (Nat.mul_le_mul_right _ h.limit)

/-! ## Moves -/

theorem MempoolOk.held_perm (h : MempoolOk mp F M H) (hperm : H.Perm H') : MempoolOk mp F M H' where
  free := h.free
  magazines := h.magazines
  places := ((hperm.append_left _).append_left _).symm.trans h.places
  taken i hi := (h.taken i hi).trans hperm.mem_iff
  reserve := h.reserve

/-- Slots that change places between the free list, the callers and one magazine. -/
theorem MempoolOk.exchanged (h : MempoolOk mp F M H) (ht : t ∈ M) (hframe : Frame t mp mp')
    (hcount : ∀ a, (F' ++ (mp'.slotsOf t ++ H')).count a = (F ++ (mp.slotsOf t ++ H)).count a) :
    (F' ++ (mp'.cached M ++ H')).Perm (range mp.totalElemCount) := by
  refine perm_iff_count.mpr fun a => ?_
  have hold := h.places.count_eq a
  have hbefore := (Cmempool.cached_perm mp ht).count_eq a
  have hafter := (hframe.cached_perm h.magazines.nodup ht).count_eq a
  have hmoved := hcount a
  simp only [count_append] at hold hbefore hafter hmoved ⊢
  exact (by omega : _ = _).trans hold

theorem MempoolOk.refill_one (h : MempoolOk mp (i :: F) M H) (ht : t ∈ M) (hroom : (mp.slotsOf t).length < mp.capacityOf t) :
    MempoolOk ((mp.dropFreeInst i).setSlots t (i :: mp.slotsOf t)) F M H ∧
      Frame t mp ((mp.dropFreeInst i).setSlots t (i :: mp.slotsOf t)) := by
  have hdrop : Frame t mp (mp.dropFreeInst i) := frame_of_mags rfl rfl rfl rfl rfl rfl rfl rfl
  have hframe : Frame t mp ((mp.dropFreeInst i).setSlots t (i :: mp.slotsOf t)) := hdrop.trans frame_setSlots
  have hmags : MagazinesOk (mp.dropFreeInst i) M := h.magazines.congr rfl rfl rfl rfl rfl
  have hself : ((mp.dropFreeInst i).setSlots t (i :: mp.slotsOf t)).slotsOf t = i :: mp.slotsOf t :=
    slotsOf_setSlots_self ((h.magazines.linked t).mpr ht)
  refine ⟨⟨h.free.drop.congr rfl rfl rfl, hmags.setSlots hroom, ?_, h.taken, h.reserve⟩, hframe⟩
  refine h.exchanged ht hframe fun a => ?_
  simp only [hself, count_append, count_cons]
  omega

theorem MempoolOk.flush_one (h : MempoolOk mp F M H) (ht : t ∈ M) (hslots : mp.slotsOf t = i :: slots) :
    MempoolOk ((mp.setSlots t slots).pushFreeInst i) (i :: F) M H ∧ Frame t mp ((mp.setSlots t slots).pushFreeInst i) := by
  have hpush : Frame t (mp.setSlots t slots) ((mp.setSlots t slots).pushFreeInst i) := frame_of_mags rfl rfl rfl rfl rfl rfl rfl rfl
  have hframe : Frame t mp ((mp.setSlots t slots).pushFreeInst i) := frame_setSlots.trans hpush
  have hle : slots.length ≤ mp.capacityOf t := by
    have hlen := h.magazines.length_le ht
    rw [hslots] at hlen
    exact Nat.le_of_succ_le hlen
  have hself : ((mp.setSlots t slots).pushFreeInst i).slotsOf t = slots :=
    slotsOf_setSlots_self ((h.magazines.linked t).mpr ht)
  have hcached : i ∈ mp.cached M := (Cmempool.cached_perm mp ht).mem_iff.mpr (by simp [hslots])
  have hfree : i ∉ F := fun hi =>
    (nodup_append.mp h.disjoint).2.2 i hi i (mem_append_left H hcached) rfl
  have hmags : MagazinesOk (mp.setSlots t slots) M := h.magazines.setSlots hle
  have hlist : FreeListOk (mp.setSlots t slots) F := h.free.congr rfl rfl rfl
  refine ⟨⟨hlist.push hfree, hmags.congr rfl rfl rfl rfl rfl, ?_, h.taken, h.reserve⟩, hframe⟩
  refine h.exchanged ht hframe fun a => ?_
  simp only [hself, hslots, count_append, count_cons]
  omega

theorem MempoolOk.pop (h : MempoolOk mp F M H) (ht : t ∈ M) (hslots : mp.slotsOf t = i :: slots) :
    MempoolOk (mp.popSlot t i slots) F M (i :: H) ∧ Frame t mp (mp.popSlot t i slots) := by
  have htaken : Frame t (mp.setSlots t slots) (mp.popSlot t i slots) := frame_of_mags rfl rfl rfl rfl rfl rfl rfl rfl
  have hframe : Frame t mp (mp.popSlot t i slots) := frame_setSlots.trans htaken
  have hle : slots.length ≤ mp.capacityOf t := by
    have hlen := h.magazines.length_le ht
    rw [hslots] at hlen
    exact Nat.le_of_succ_le hlen
  have hself : (mp.popSlot t i slots).slotsOf t = slots := slotsOf_setSlots_self ((h.magazines.linked t).mpr ht)
  have hmags : MagazinesOk (mp.setSlots t slots) M := h.magazines.setSlots hle
  refine ⟨⟨h.free.congr rfl rfl rfl, hmags.congr rfl rfl rfl rfl rfl, ?_, ?_, h.reserve⟩, hframe⟩
  · refine h.exchanged ht hframe fun a => ?_
    simp only [hself, hslots, count_append, count_cons]
    omega
  · intro j hj
    by_cases hji : j = i
    · simp [hji, Mempool.popSlot, Mempool.setTaken]
    · simpa [hji, Mempool.popSlot, Mempool.setTaken, Mempool.setSlots, Mempool.setMagazine] using h.taken j hj

theorem MempoolOk.not_mem_of_perm (h : MempoolOk mp F M H) (hperm : H.Perm (i :: H')) :
    i < mp.totalElemCount ∧ i ∉ F ∧ i ∉ H' := by
  have hmem : i ∈ H := hperm.mem_iff.mpr mem_cons_self
  have hnodup := nodup_append.mp h.disjoint
  refine ⟨h.lt_total (mem_append_right F (mem_append_right _ hmem)), ?_, ?_⟩
  · intro hi
    exact hnodup.2.2 i hi i (mem_append_right _ hmem) rfl
  · have hheld : H.Nodup := (nodup_append.mp hnodup.2.1).2.1
    exact (nodup_cons.mp (hperm.nodup_iff.mp hheld)).1

theorem MempoolOk.taken_of_held (h : MempoolOk mp F M H) (hi : i ∈ H) : i < mp.totalElemCount ∧ mp.taken i = true := by
  have hlt : i < mp.totalElemCount := h.lt_total (mem_append_right F (mem_append_right _ hi))
  exact ⟨hlt, (h.taken i hlt).mpr hi⟩

theorem taken_release (h : MempoolOk mp F M H) (hperm : H.Perm (i :: H')) :
    ∀ j < mp.totalElemCount, (mp.setTaken i false).taken j = true ↔ j ∈ H' := by
  intro j hj
  by_cases hji : j = i
  · subst hji
    simp [Mempool.setTaken, (h.not_mem_of_perm hperm).2.2]
  · have hold := h.taken j hj
    rw [hperm.mem_iff, mem_cons] at hold
    simpa [Mempool.setTaken, hji] using hold

theorem MempoolOk.push (h : MempoolOk mp F M H) (ht : t ∈ M) (hperm : H.Perm (i :: H'))
    (hroom : (mp.slotsOf t).length < mp.capacityOf t) :
    MempoolOk (mp.pushSlot t i) F M H' ∧ Frame t mp (mp.pushSlot t i) := by
  have htaken : Frame t mp (mp.setTaken i false) := frame_of_mags rfl rfl rfl rfl rfl rfl rfl rfl
  have hframe : Frame t mp (mp.pushSlot t i) := htaken.trans frame_setSlots
  have hself : (mp.pushSlot t i).slotsOf t = i :: mp.slotsOf t := slotsOf_setSlots_self ((h.magazines.linked t).mpr ht)
  have hmags : MagazinesOk (mp.setTaken i false) M := h.magazines.congr rfl rfl rfl rfl rfl
  refine ⟨⟨h.free.congr rfl rfl rfl, hmags.setSlots hroom, ?_, taken_release h hperm, h.reserve⟩, hframe⟩
  refine h.exchanged ht hframe fun a => ?_
  have hheld := hperm.count_eq a
  simp only [hself, count_append, count_cons] at hheld ⊢
  omega

theorem MempoolOk.serve (h : MempoolOk mp (i :: F) M H) :
    mp.isFreeEntry i = true ∧ MempoolOk ((mp.dropFreeInst i).setTaken i true) F M (i :: H) := by
  have hlt : i < mp.totalElemCount := h.lt_total (by simp)
  have hheld : i ∉ H := fun hi =>
    (nodup_append.mp h.disjoint).2.2 i mem_cons_self i (mem_append_right _ hi) rfl
  refine ⟨?_, h.free.drop.congr rfl rfl rfl, h.magazines.congr rfl rfl rfl rfl rfl, ?_, ?_, h.reserve⟩
  · have hfree : mp.taken i = false := by
      rw [← Bool.not_eq_true, h.taken i hlt]
      exact hheld
    simp [Mempool.isFreeEntry, Mempool.validMempoolAddr, hlt, hfree]
  · refine perm_iff_count.mpr fun a => ?_
    have hold := h.places.count_eq a
    have hsame : ((mp.dropFreeInst i).setTaken i true).cached M = mp.cached M := rfl
    simp only [count_append, count_cons, hsame] at hold ⊢
    exact (by omega : _ = _).trans hold
  · intro j hj
    by_cases hji : j = i
    · simp [hji, Mempool.setTaken]
    · simpa [hji, Mempool.setTaken, Mempool.dropFreeInst] using h.taken j hj

theorem MempoolOk.returned (h : MempoolOk mp F M H) (hperm : H.Perm (i :: H')) :
    MempoolOk ((mp.setTaken i false).pushFreeInst i) (i :: F) M H' := by
  have hlist : FreeListOk (mp.setTaken i false) F := h.free.congr rfl rfl rfl
  refine ⟨hlist.push (h.not_mem_of_perm hperm).2.1, h.magazines.congr rfl rfl rfl rfl rfl, ?_, taken_release h hperm, h.reserve⟩
  refine perm_iff_count.mpr fun a => ?_
  have hold := h.places.count_eq a
  have hheld := hperm.count_eq a
  have hsame : (((mp.setTaken i false).pushFreeInst i).cached M) = mp.cached M := rfl
  simp only [count_append, count_cons, hsame] at hold hheld ⊢
  exact (by omega : _ = _).trans hold

theorem MempoolOk.write (h : MempoolOk mp F M H) (hi : i ∈ H) (word : Option Nat) :
    MempoolOk (mp.writeEntry i word) F M H := by
  have hfree : i ∉ F := fun hmem =>
    (nodup_append.mp h.disjoint).2.2 i hmem i (mem_append_right _ hi) rfl
  refine ⟨⟨?_, h.free.count⟩, h.magazines.congr rfl rfl rfl rfl rfl, h.places, h.taken, h.reserve⟩
  refine h.free.links.congr fun b hb => ?_
  have hne : b ≠ i := fun heq => hfree (heq ▸ hb)
  simp [Mempool.writeEntry, hne]

/-! ## Magazines come and go -/

section Links

theorem linkMagazine_mags_self : (mp.linkMagazine t).mags t = some ⟨[], mp.magazineCapacity, mp.magazines, none⟩ := by
  simp [Mempool.linkMagazine]

theorem linkMagazine_mags_of_ne (hu : u ≠ t) : (mp.linkMagazine t).mags u =
    if mp.magazines = some u then (mp.mags u).map (fun mag => { mag with prevInPool := some t }) else mp.mags u := by
  cases hhead : mp.magazines with
  | none => simp [Mempool.linkMagazine, hhead, hu]
  | some head =>
    by_cases hhu : head = u
    · subst hhu
      simp [Mempool.linkMagazine, hhead, hu]
    · have hne : u ≠ head := fun heq => hhu heq.symm
      simp [Mempool.linkMagazine, hhead, hu, hhu, hne]

theorem linkMagazine_nextOf (hu : u ≠ t) : (mp.linkMagazine t).nextOf u = mp.nextOf u := by
  rw [Mempool.nextOf, linkMagazine_mags_of_ne hu]
  split
  · cases h : mp.mags u <;> simp [Mempool.nextOf, h]
  · rfl

theorem linkMagazine_prevOf (hu : u ≠ t) (hhead : mp.magazines ≠ some u) : (mp.linkMagazine t).prevOf u = mp.prevOf u := by
  rw [Mempool.prevOf, linkMagazine_mags_of_ne hu, if_neg hhead]
  rfl

theorem frame_linkMagazine : Frame t mp (mp.linkMagazine t) := by
  refine ⟨rfl, rfl, rfl, rfl, rfl, rfl, rfl, ?_, ?_⟩
  · intro u hu
    rw [linkMagazine_mags_of_ne hu]
    split <;> simp
  · intro u hu
    rw [Mempool.slotsOf, linkMagazine_mags_of_ne hu]
    split
    · cases h : mp.mags u <;> simp [Mempool.slotsOf, h]
    · rfl

theorem MagazinesOk.link (h : MagazinesOk mp M) (ht : t ∉ M) (hroom : M.length < mp.maxMagazines) :
    MagazinesOk (mp.linkMagazine t) (t :: M) := by
  have hne : ∀ u ∈ M, u ≠ t := fun u hu heq => ht (heq ▸ hu)
  have hhead : mp.magazines = M.head? := h.next.head_eq
  refine ⟨?_, ?_, ?_, nodup_cons.mpr ⟨ht, h.nodup⟩, ?_, hroom, ?_⟩
  · refine h.next.push ?_ fun u hu => linkMagazine_nextOf (hne u hu)
    simp [Mempool.nextOf, linkMagazine_mags_self]
  · rw [reverse_cons]
    have hlast : ∀ z ∈ M.reverse.getLast?, (t :: M).getLast? = M.getLast? ∧ (mp.linkMagazine t).prevOf z = some t := by
      intro z hz
      rw [List.getLast?_reverse] at hz
      cases M with
      | nil => cases hz
      | cons a rest =>
        obtain rfl : a = z := some.inj hz
        obtain ⟨mag, hmag⟩ := isSome_iff_exists.mp ((h.linked a).mpr mem_cons_self)
        have hhead' : mp.magazines = some a := hhead
        refine ⟨List.getLast?_cons_cons, ?_⟩
        rw [Mempool.prevOf, linkMagazine_mags_of_ne (hne a mem_cons_self), if_pos hhead', hmag]
        rfl
    refine h.prev.push_back (nodup_reverse.mpr h.nodup) ?_ hlast ?_ ?_
    · simp [Mempool.prevOf, linkMagazine_mags_self]
    · intro hnil
      rw [reverse_eq_nil_iff.mp hnil]
      rfl
    · intro b hb hbl
      rw [mem_reverse] at hb
      rw [List.getLast?_reverse, ← hhead] at hbl
      exact linkMagazine_prevOf (hne b hb) hbl
  · intro u
    by_cases hu : u = t
    · simp [hu, linkMagazine_mags_self]
    · rw [frame_linkMagazine.linked u hu, h.linked u]
      simp [hu]
  · simp [Mempool.linkMagazine, h.live]
  · intro u mag hmag
    by_cases hu : u = t
    · subst hu
      rw [linkMagazine_mags_self] at hmag
      cases hmag
      exact ⟨rfl, Nat.zero_le _⟩
    · rw [linkMagazine_mags_of_ne hu] at hmag
      split at hmag
      · obtain ⟨old, hold, rfl⟩ := map_eq_some_iff.mp hmag
        exact h.capacity u old hold
      · exact h.capacity u mag hmag

theorem MempoolOk.link (h : MempoolOk mp F M H) (ht : t ∉ M) (hroom : M.length < mp.maxMagazines) :
    MempoolOk (mp.linkMagazine t) F (t :: M) H := by
  refine ⟨h.free.congr rfl rfl rfl, h.magazines.link ht hroom, ?_, h.taken, h.reserve⟩
  have hself : (mp.linkMagazine t).slotsOf t = [] := slotsOf_some linkMagazine_mags_self
  have hother : (mp.linkMagazine t).cached M = mp.cached M :=
    cached_congr fun u hu => frame_linkMagazine.slots u fun heq => ht (heq ▸ hu)
  have hcached : (mp.linkMagazine t).cached (t :: M) = mp.cached M := by
    rw [← hother]
    simp [Mempool.cached, hself]
  rw [hcached]
  exact h.places

theorem unlink_mags_of_ne {mag : Magazine} (hmag : mp.mags t = some mag) (hu : u ≠ t) : (mp.magazineUnlinkLocked t).mags u =
    (mp.mags u).map fun m =>
      { m with
        nextInPool := if mag.prevInPool = some u then mag.nextInPool else m.nextInPool
        prevInPool := if mag.nextInPool = some u then mag.prevInPool else m.prevInPool } := by
  cases hprev : mag.prevInPool with
  | none =>
    cases hnext : mag.nextInPool with
    | none => simp [Mempool.magazineUnlinkLocked, hmag, hprev, hnext, hu]
    | some next =>
      by_cases hun : u = next
      · subst hun
        simp [Mempool.magazineUnlinkLocked, hmag, hprev, hnext, hu, Mempool.setMagazine]
      · have hne : next ≠ u := fun heq => hun heq.symm
        simp [Mempool.magazineUnlinkLocked, hmag, hprev, hnext, hu, Mempool.setMagazine, hun, hne]
  | some prev =>
    by_cases hup : u = prev
    · subst hup
      cases hnext : mag.nextInPool with
      | none => simp [Mempool.magazineUnlinkLocked, hmag, hprev, hnext, hu, Mempool.setMagazine]
      | some next =>
        by_cases hun : u = next
        · subst hun
          simp [Mempool.magazineUnlinkLocked, hmag, hprev, hnext, hu, Mempool.setMagazine, Option.map_map, Function.comp_def]
        · have hne : next ≠ u := fun heq => hun heq.symm
          simp [Mempool.magazineUnlinkLocked, hmag, hprev, hnext, hu, Mempool.setMagazine, hun, hne]
    · have hne : prev ≠ u := fun heq => hup heq.symm
      cases hnext : mag.nextInPool with
      | none => simp [Mempool.magazineUnlinkLocked, hmag, hprev, hnext, hu, Mempool.setMagazine, hup, hne]
      | some next =>
        by_cases hun : u = next
        · subst hun
          simp [Mempool.magazineUnlinkLocked, hmag, hprev, hnext, hu, Mempool.setMagazine, hup, hne]
        · have hne' : next ≠ u := fun heq => hun heq.symm
          simp [Mempool.magazineUnlinkLocked, hmag, hprev, hnext, hu, Mempool.setMagazine, hup, hne, hun, hne']

theorem unlink_mags_self {mag : Magazine} (hmag : mp.mags t = some mag) : (mp.magazineUnlinkLocked t).mags t = none := by
  simp [Mempool.magazineUnlinkLocked, hmag]

theorem unlink_nextOf {mag : Magazine} (hmag : mp.mags t = some mag) (hu : u ≠ t) (hsome : (mp.mags u).isSome = true) :
    (mp.magazineUnlinkLocked t).nextOf u = if mag.prevInPool = some u then mag.nextInPool else mp.nextOf u := by
  obtain ⟨m, hm⟩ := isSome_iff_exists.mp hsome
  simp [Mempool.nextOf, unlink_mags_of_ne hmag hu, hm]

theorem unlink_prevOf {mag : Magazine} (hmag : mp.mags t = some mag) (hu : u ≠ t) (hsome : (mp.mags u).isSome = true) :
    (mp.magazineUnlinkLocked t).prevOf u = if mag.nextInPool = some u then mag.prevInPool else mp.prevOf u := by
  obtain ⟨m, hm⟩ := isSome_iff_exists.mp hsome
  simp [Mempool.prevOf, unlink_mags_of_ne hmag hu, hm]

theorem unlink_fields {mag : Magazine} (hmag : mp.mags t = some mag) :
    (mp.magazineUnlinkLocked t).magazines = (if mag.prevInPool = none then mag.nextInPool else mp.magazines) ∧
    (mp.magazineUnlinkLocked t).liveMagazines = mp.liveMagazines - 1 ∧
    (mp.magazineUnlinkLocked t).links = mp.links ∧ (mp.magazineUnlinkLocked t).freeInst = mp.freeInst ∧
    (mp.magazineUnlinkLocked t).freeElemCount = mp.freeElemCount ∧ (mp.magazineUnlinkLocked t).taken = mp.taken := by
  cases hprev : mag.prevInPool <;> cases hnext : mag.nextInPool <;>
    simp [Mempool.magazineUnlinkLocked, hmag, hprev, hnext, Mempool.setMagazine]

theorem frame_unlink : Frame t mp (mp.magazineUnlinkLocked t) := by
  cases hmag : mp.mags t with
  | none =>
    have hsame : mp.magazineUnlinkLocked t = mp := by simp [Mempool.magazineUnlinkLocked, hmag]
    rw [hsame]
    exact Frame.refl t mp
  | some mag =>
    have hshape : ∀ m : Mempool, mp.magazineUnlinkLocked t = m → m.maxMagazines = mp.maxMagazines ∧
        m.magazineCapacity = mp.magazineCapacity ∧ m.shouldUseLocks = mp.shouldUseLocks ∧
        m.fallbackToDynamicMemory = mp.fallbackToDynamicMemory ∧ m.advertisedElemCount = mp.advertisedElemCount ∧
        m.totalElemCount = mp.totalElemCount ∧ m.dynamicEntries = mp.dynamicEntries := by
      rintro m rfl
      cases hprev : mag.prevInPool <;> cases hnext : mag.nextInPool <;>
        simp [Mempool.magazineUnlinkLocked, hmag, hprev, hnext, Mempool.setMagazine]
    obtain ⟨h₁, h₂, h₃, h₄, h₅, h₆, h₇⟩ := hshape _ rfl
    refine ⟨h₁, h₂, h₃, h₄, h₅, h₆, h₇, ?_, ?_⟩
    · intro u hu
      simp [unlink_mags_of_ne hmag hu]
    · intro u hu
      rw [Mempool.slotsOf, unlink_mags_of_ne hmag hu]
      cases hm : mp.mags u <;> simp [Mempool.slotsOf, hm]

theorem MagazinesOk.unlink (h : MagazinesOk mp M) (ht : t ∈ M) : MagazinesOk (mp.magazineUnlinkLocked t) (M.erase t) := by
  obtain ⟨l₁, l₂, rfl⟩ := append_of_mem ht
  obtain ⟨mag, hmag⟩ := isSome_iff_exists.mp ((h.linked t).mpr ht)
  obtain ⟨hmagazines, hlive, -⟩ := unlink_fields hmag
  have hnd := h.nodup
  have hl₁ : t ∉ l₁ := fun hmem => (nodup_append.mp hnd).2.2 t hmem t mem_cons_self rfl
  have herase : (l₁ ++ t :: l₂).erase t = l₁ ++ l₂ := by
    rw [erase_append_right _ hl₁, erase_cons_head]
  have hne : ∀ u ∈ l₁ ++ l₂, u ≠ t := by
    rintro u hu rfl
    rw [← herase] at hu
    exact hnd.not_mem_erase hu
  have hsome : ∀ u ∈ l₁ ++ l₂, (mp.mags u).isSome = true := by
    intro u hu
    rw [h.linked u]
    simp only [mem_append, mem_cons] at hu ⊢
    exact hu.imp id .inr
  -- The pointers of the magazine name its neighbours.
  have hnext : mag.nextInPool = l₂.head? := by
    obtain ⟨p, -, -, hrest⟩ := Seg.append.mp h.next
    simpa [Mempool.nextOf, hmag] using hrest.head_eq
  have hrev : (l₁ ++ t :: l₂).reverse = l₂.reverse ++ t :: l₁.reverse := by simp
  have hprevs := h.prev
  rw [hrev] at hprevs
  have hprev : mag.prevInPool = l₁.getLast? := by
    obtain ⟨p, -, -, hrest⟩ := Seg.append.mp hprevs
    simpa [Mempool.prevOf, hmag] using hrest.head_eq
  have hnd' : (l₂.reverse ++ t :: l₁.reverse).Nodup := by
    rw [← hrev]
    exact nodup_reverse.mpr hnd
  rw [herase]
  refine ⟨?_, ?_, ?_, ?_, ?_, ?_, ?_⟩
  · refine h.next.unlink hnd ?_ ?_ ?_
    · intro z hz
      have hz' : z ∈ l₁ ++ l₂ := mem_append_left l₂ (mem_of_getLast? hz)
      have hzp : mag.prevInPool = some z := hprev.trans hz
      refine ⟨?_, ?_⟩
      · rw [hmagazines, if_neg (by rw [hzp]; exact some_ne_none z)]
      · rw [unlink_nextOf hmag (hne z hz') (hsome z hz'), if_pos hzp]
        simp [Mempool.nextOf, hmag]
    · rintro rfl
      have hfirst : mag.prevInPool = none := hprev
      rw [hmagazines, if_pos hfirst]
      simp [Mempool.nextOf, hmag]
    · intro b hb hbl
      rw [unlink_nextOf hmag (hne b hb) (hsome b hb), if_neg (by rw [hprev]; exact hbl)]
  · rw [reverse_append]
    refine hprevs.unlink hnd' ?_ ?_ ?_
    · intro z hz
      rw [List.getLast?_reverse] at hz
      have hz' : z ∈ l₁ ++ l₂ := mem_append_right l₁ (mem_of_head? hz)
      have hzn : mag.nextInPool = some z := hnext.trans hz
      refine ⟨?_, ?_⟩
      · cases l₂ with
        | nil => cases hz
        | cons b rest => simp
      · rw [unlink_prevOf hmag (hne z hz') (hsome z hz'), if_pos hzn]
        simp [Mempool.prevOf, hmag]
    · intro hnil
      rw [reverse_eq_nil_iff.mp hnil, append_nil]
      simp [Mempool.prevOf, hmag, hprev]
    · intro b hb hbl
      rw [List.getLast?_reverse] at hbl
      have hb' : b ∈ l₁ ++ l₂ := by
        simp only [mem_append, mem_reverse] at hb ⊢
        exact hb.symm
      rw [unlink_prevOf hmag (hne b hb') (hsome b hb'), if_neg (by rw [hnext]; exact hbl)]
  · intro u
    by_cases hu : u = t
    · subst hu
      rw [unlink_mags_self hmag]
      simpa using fun hmem => hne u (mem_append.mpr hmem) rfl
    · rw [frame_unlink.linked u hu, h.linked u]
      simp [hu]
  · rw [← herase]
    exact hnd.erase t
  · rw [hlive, h.live]
    simp only [length_append, length_cons]
    omega
  · have hlimit := h.limit
    rw [frame_unlink.maxMagazines]
    simp only [length_append, length_cons] at hlimit ⊢
    omega
  · intro u m hm
    by_cases hu : u = t
    · subst hu
      rw [unlink_mags_self hmag] at hm
      cases hm
    · rw [unlink_mags_of_ne hmag hu] at hm
      obtain ⟨old, hold, rfl⟩ := map_eq_some_iff.mp hm
      rw [frame_unlink.magazineCapacity]
      exact h.capacity u old hold

theorem MempoolOk.unlink (h : MempoolOk mp F M H) (ht : t ∈ M) (hempty : mp.slotsOf t = []) :
    MempoolOk (mp.magazineUnlinkLocked t) F (M.erase t) H := by
  obtain ⟨mag, hmag⟩ := isSome_iff_exists.mp ((h.magazines.linked t).mpr ht)
  obtain ⟨-, -, hlinks, hinst, hcount, htaken⟩ := unlink_fields hmag
  have hcached : (mp.magazineUnlinkLocked t).cached (M.erase t) = mp.cached (M.erase t) := by
    refine cached_congr fun u hu => frame_unlink.slots u ?_
    rintro rfl
    exact h.magazines.nodup.not_mem_erase hu
  refine ⟨h.free.congr hlinks hinst hcount, h.magazines.unlink ht, ?_, ?_, ?_⟩
  · rw [hcached, frame_unlink.total]
    refine List.Perm.trans ?_ h.places
    have hperm := Cmempool.cached_perm mp ht
    rw [hempty, nil_append] at hperm
    exact (hperm.symm.append_right H).append_left F
  · rw [htaken, frame_unlink.total]
    exact h.taken
  · rw [frame_unlink.total, frame_unlink.advertised, frame_unlink.maxMagazines, frame_unlink.magazineCapacity]
    exact h.reserve

end Links

/-! ## Refills and flushes -/

theorem refillLoop_spec (budget : Nat) (h : MempoolOk mp F M H) (ht : t ∈ M) :
    ∃ mp' F', Mempool.refillLoop t budget mp = some mp' ∧ MempoolOk mp' F' M H ∧ Frame t mp mp' ∧ F.length ≤ F'.length + budget := by
  induction budget generalizing mp F with
  | zero => exact ⟨mp, F, rfl, h, Frame.refl t mp, Nat.le_refl _⟩
  | succ budget ih =>
    rw [Mempool.refillLoop]
    split
    · rename_i hroom
      cases F with
      | nil =>
        rw [h.free.head_eq]
        exact ⟨mp, [], rfl, h, Frame.refl t mp, Nat.zero_le _⟩
      | cons i F =>
        obtain ⟨hok, hframe⟩ := h.refill_one ht hroom
        obtain ⟨mp', F', hloop, hok', hframe', hle⟩ := ih hok
        refine ⟨mp', F', ?_, hok', hframe.trans hframe', ?_⟩
        · rw [h.free.head_eq]
          simp [h.serve.1, hloop]
        · rw [length_cons]
          omega
    · exact ⟨mp, F, rfl, h, Frame.refl t mp, Nat.le_add_right _ _⟩

theorem magazineRefillLocked_spec (h : MempoolOk mp F M H) (ht : t ∈ M) :
    ∃ mp' F', mp.magazineRefillLocked t = some mp' ∧ MempoolOk mp' F' M H ∧ Frame t mp mp' ∧
      (mp' = mp ∨ mp.totalElemCount ≤ F'.length + mp.advertisedElemCount) := by
  rw [Mempool.magazineRefillLocked]
  split
  · exact ⟨mp, F, rfl, h, Frame.refl t mp, .inl rfl⟩
  · rename_i hbudget
    obtain ⟨mp', F', hloop, hok, hframe, hle⟩ :=
      refillLoop_spec (mp.freeElemCount - (mp.totalElemCount - mp.advertisedElemCount)) h ht
    refine ⟨mp', F', hloop, hok, hframe, .inr ?_⟩
    have hcount := h.free.count
    omega

theorem magazineFlushLocked_spec (howMany : Nat) (h : MempoolOk mp F M H) (ht : t ∈ M) :
    ∃ F', MempoolOk (Mempool.magazineFlushLocked t howMany mp) F' M H ∧ Frame t mp (Mempool.magazineFlushLocked t howMany mp) ∧
      (Mempool.magazineFlushLocked t howMany mp).slotsOf t = (mp.slotsOf t).drop howMany := by
  induction howMany generalizing mp F with
  | zero => exact ⟨F, h, Frame.refl t mp, rfl⟩
  | succ howMany ih =>
    rw [Mempool.magazineFlushLocked]
    cases hslots : mp.slotsOf t with
    | nil => exact ⟨F, h, Frame.refl t mp, by rw [hslots, drop_nil]⟩
    | cons i slots =>
      obtain ⟨hok, hframe⟩ := h.flush_one ht hslots
      obtain ⟨F', hok', hframe', hdrop⟩ := ih hok
      have hself : ((mp.setSlots t slots).pushFreeInst i).slotsOf t = slots :=
        slotsOf_setSlots_self ((h.magazines.linked t).mpr ht)
      rw [hself] at hdrop
      exact ⟨F', hok', hframe.trans hframe', hdrop⟩

/-! ## A new pool -/

theorem seg_range (n k : Nat) : Seg (fun i => if i = n + k then none else some (i + 1)) (some n) (List.range' n (k + 1)) none := by
  induction k generalizing n with
  | zero => simp [Seg, List.range']
  | succ k ih =>
    rw [List.range'_succ]
    refine ⟨rfl, ?_⟩
    have hrest := ih (n + 1)
    rw [show n + 1 + k = n + (k + 1) by omega] at hrest
    have hnot : ¬n = n + (k + 1) := by omega
    simpa only [if_neg hnot] using hrest

theorem geometry_reserve (n : Nat) :
    (mempoolCacheGeometry n).reserve = (mempoolCacheGeometry n).maxMagazines * (mempoolCacheGeometry n).capacity := by
  have hcase : ∀ mags cap : Nat, ∀ g : CacheGeometry,
      g = (if mags > sizeMax / cap then ⟨0, 0, 0⟩ else if mags * cap > sizeMax - n then ⟨0, 0, 0⟩ else ⟨mags, cap, mags * cap⟩) →
      g.reserve = g.maxMagazines * g.capacity := by
    rintro mags cap g rfl
    split_ifs <;> rfl
  rw [mempoolCacheGeometry]
  split
  · rfl
  · exact hcase _ _ _ rfl

theorem cmempoolCreate_ok {elemCount : Nat} {fallback singleThreaded keepsCache : Bool}
    (h : cmempoolCreate elemCount fallback singleThreaded keepsCache = some mp) :
    MempoolOk mp (List.range mp.totalElemCount) [] [] ∧ mp.advertisedElemCount = elemCount ∧ mp.dynamicEntries = [] ∧
      mp.fallbackToDynamicMemory = fallback := by
  simp only [cmempoolCreate] at h
  split at h
  · cases h
  · rename_i hpos
    generalize hgeometry : (if (!singleThreaded && keepsCache) = true then mempoolCacheGeometry elemCount else ⟨0, 0, 0⟩) = g at h
    have hreserve : g.reserve = g.maxMagazines * g.capacity := by
      rw [← hgeometry]
      split
      · exact geometry_reserve elemCount
      · rfl
    cases h
    refine ⟨⟨⟨?_, by simp⟩, ⟨rfl, rfl, by simp, nodup_nil, rfl, Nat.zero_le _, nofun⟩, ?_, by simp, by simp [hreserve]⟩,
      rfl, rfl, rfl⟩
    · have hseg := seg_range 0 (elemCount + g.reserve - 1)
      rw [Nat.sub_add_cancel (by omega : 1 ≤ elemCount + g.reserve), Nat.zero_add, ← range_eq_range'] at hseg
      exact hseg
    · simp [Mempool.cached]

end Ccollections.Cmempool
