import Ccollections.Cmempool.Registry

/-!
# The table of the registry
-/

namespace Ccollections.Cmempool
open Lib Function List

variable {table table' : DynamicTable} {keys keys' : List Nat} {key i j d n fuel hole m : Nat}

/-! ## Slots and homes -/

def slotView (slots : Nat → Nat) (j : Nat) : Option Nat := if slots j = 0 then none else some (slots j)

theorem slotView_none {slots : Nat → Nat} : slotView slots j = none ↔ slots j = 0 := by
  rw [slotView]
  split_ifs with h
  · exact iff_of_true rfl h
  · exact iff_of_false (by simp) h

theorem slotView_some {slots : Nat → Nat} : slotView slots j = some key ↔ slots j = key ∧ key ≠ 0 := by
  rw [slotView]
  split_ifs with h
  · exact iff_of_false (by simp) (by rintro ⟨rfl, hne⟩; exact hne h)
  · rw [Option.some.injEq]
    exact ⟨fun heq => ⟨heq, heq ▸ h⟩, fun heq => heq.1⟩

theorem slotView_setSlot (hkey : key ≠ 0) : slotView (table.setSlot i key).slots = update (slotView table.slots) i (some key) := by
  funext x
  by_cases hx : x = i
  · subst hx
    simp [slotView, DynamicTable.setSlot, hkey]
  · simp [slotView, DynamicTable.setSlot, hx]

theorem slotView_clearSlot : slotView (table.setSlot i 0).slots = update (slotView table.slots) i none := by
  funext x
  by_cases hx : x = i
  · subst hx
    simp [slotView, DynamicTable.setSlot]
  · simp [slotView, DynamicTable.setSlot, hx]

structure ShapeOk (table : DynamicTable) : Prop where
  low : 5 ≤ table.shift
  high : table.shift ≤ 60

namespace ShapeOk

theorem capacity_pos (h : ShapeOk table) : 16 ≤ table.capacity := by
  have hpow : 2 ^ 4 ≤ 2 ^ (64 - table.shift) := Nat.pow_le_pow_right (by omega) (by have := h.high; omega)
  exact hpow

theorem capacity_dvd (h : ShapeOk table) : table.capacity * 2 ^ table.shift = 2 ^ 64 := by
  have hhigh := h.high
  rw [DynamicTable.capacity, mpAddrBits, ← pow_add]
  congr 1
  omega

theorem home_lt (h : ShapeOk table) (key : Nat) : table.home key < table.capacity := by
  have hlt : sizeMul key mpAddrHashMul < 2 ^ 64 := Nat.mod_lt _ (by decide)
  rw [DynamicTable.home, Nat.shiftRight_eq_div_pow, Nat.div_lt_iff_lt_mul (Nat.two_pow_pos _), h.capacity_dvd]
  exact hlt

theorem and_mask (table : DynamicTable) (i : Nat) : i &&& table.mask = i % table.capacity := Nat.and_two_pow_sub_one_eq_mod _ _

theorem sub_and_mask (h : ShapeOk table) (hi : i < table.capacity) :
    sizeSub j i &&& table.mask = cyclicDist table.capacity i j := by
  have hdvd := h.capacity_dvd
  obtain ⟨q, hq⟩ : ∃ q, 2 ^ table.shift = q + 1 := Nat.exists_eq_succ_of_ne_zero (by positivity)
  rw [hq, Nat.mul_succ] at hdvd
  rw [and_mask, sizeSub, cyclicDist, Nat.mod_eq_of_lt hi, ← hdvd, ← Nat.mul_succ,
    Nat.mod_mod_of_dvd _ (Nat.dvd_mul_right _ _)]
  have hsplit : j + table.capacity * (q + 1) - i = j + (table.capacity - i) + table.capacity * q := by
    rw [Nat.mul_succ]
    omega
  rw [hsplit, Nat.add_mul_mod_self_left]

end ShapeOk

/-! ## What a table holds -/

structure TableOk (table : DynamicTable) (keys : List Nat) : Prop where
  shape : ShapeOk table
  holds : (entries table.capacity (slotView table.slots)).Perm keys
  nodup : keys.Nodup
  reach : Reaches table.capacity table.home (slotView table.slots) table.capacity

namespace TableOk

theorem perm (h : TableOk table keys) (hperm : keys.Perm keys') : TableOk table keys' :=
  ⟨h.shape, h.holds.trans hperm, hperm.nodup_iff.mp h.nodup, h.reach⟩

theorem mem_iff (h : TableOk table keys) : key ∈ keys ↔ ∃ j < table.capacity, slotView table.slots j = some key := by
  rw [← h.holds.mem_iff]
  exact mem_entries

theorem ne_zero (h : TableOk table keys) (hkey : key ∈ keys) : key ≠ 0 := by
  obtain ⟨j, -, hj⟩ := h.mem_iff.mp hkey
  exact (slotView_some.mp hj).2

theorem fresh {shift : Nat} (hlow : 5 ≤ shift) (hhigh : shift ≤ 60) : TableOk ⟨shift, fun _ => 0⟩ [] := by
  have hview : slotView (fun _ => 0) = fun _ => none := by
    funext j
    exact slotView_none.mpr rfl
  refine ⟨⟨hlow, hhigh⟩, ?_, nodup_nil, ?_⟩
  · rw [hview, entries_none]
  · rw [hview]
    exact reaches_none

theorem first_empty (h : TableOk table keys) (hroom : keys.length < table.capacity) (key : Nat) :
    ∃ d < table.capacity, table.slots ((table.home key + d) % table.capacity) = 0 ∧
      ∀ i < d, slotView table.slots ((table.home key + i) % table.capacity) ≠ none := by
  rw [← h.holds.length_eq] at hroom
  obtain ⟨d, hd, hempty, hpath⟩ := exists_first_empty (table.home key) hroom
  exact ⟨d, hd, slotView_none.mp hempty, hpath⟩

end TableOk

/-! ## Places -/

theorem next_slot (table : DynamicTable) (n : Nat) :
    ((table.home key + n) % table.capacity + 1) &&& table.mask = (table.home key + (n + 1)) % table.capacity := by
  rw [ShapeOk.and_mask, Nat.mod_add_mod]
  rfl

theorem placeLoop_eq (hpath : ∀ i < d, slotView table.slots ((table.home key + i) % table.capacity) ≠ none)
    (hempty : table.slots ((table.home key + d) % table.capacity) = 0) (hn : n ≤ d) (hfuel : d < n + fuel) :
    table.placeLoop fuel ((table.home key + n) % table.capacity) = some ((table.home key + d) % table.capacity) := by
  induction fuel generalizing n with
  | zero => omega
  | succ fuel ih =>
    rw [DynamicTable.placeLoop]
    by_cases hlast : n = d
    · rw [hlast, if_neg (by simpa using hempty)]
    · have hoccupied : table.slots ((table.home key + n) % table.capacity) ≠ 0 :=
        fun hzero => hpath n (by omega) (slotView_none.mpr hzero)
      rw [if_pos hoccupied, next_slot]
      exact ih (by omega) (by omega)

theorem TableOk.place (h : TableOk table keys) (hkey : key ≠ 0) (hnew : key ∉ keys) (hroom : keys.length < table.capacity) :
    ∃ table', table.place key = some table' ∧ TableOk table' (key :: keys) ∧ table'.shift = table.shift := by
  obtain ⟨d, hd, hempty, hpath⟩ := h.first_empty hroom key
  have hloop : table.placeLoop table.capacity (table.home key) = some ((table.home key + d) % table.capacity) := by
    have hstart := placeLoop_eq hpath hempty (Nat.zero_le d) (by omega : d < 0 + table.capacity)
    rwa [Nat.add_zero, Nat.mod_eq_of_lt (h.shape.home_lt key)] at hstart
  have hlt : (table.home key + d) % table.capacity < table.capacity := Nat.mod_lt _ (by omega)
  refine ⟨table.setSlot ((table.home key + d) % table.capacity) key, ?_, ⟨⟨h.shape.low, h.shape.high⟩, ?_, ?_, ?_⟩, rfl⟩
  · rw [DynamicTable.place, hloop]
    rfl
  · rw [slotView_setSlot hkey]
    exact (entries_fill key hlt (slotView_none.mpr hempty)).trans (h.holds.cons key)
  · exact nodup_cons.mpr ⟨hnew, h.nodup⟩
  · rw [slotView_setSlot hkey]
    exact h.reach.fill hpath hd

/-! ## Searches -/

theorem findLoop_eq (hpath : ∀ i < d, table.slots ((table.home key + i) % table.capacity) ≠ key ∧
      table.slots ((table.home key + i) % table.capacity) ≠ 0) (hn : n ≤ d) (hfuel : d < n + fuel) :
    table.findLoop key fuel ((table.home key + n) % table.capacity) =
      table.findLoop key (n + fuel - d) ((table.home key + d) % table.capacity) := by
  induction fuel generalizing n with
  | zero => omega
  | succ fuel ih =>
    by_cases hlast : n = d
    · rw [hlast, Nat.add_sub_cancel_left]
    · obtain ⟨hother, hoccupied⟩ := hpath n (by omega)
      rw [DynamicTable.findLoop, if_neg hother, if_neg hoccupied, next_slot, ih (by omega) (by omega)]
      congr 1
      omega

theorem TableOk.find_mem (h : TableOk table keys) (hkey : key ∈ keys) :
    ∃ j < table.capacity, table.findLoop key table.capacity (table.home key) = some j ∧ slotView table.slots j = some key := by
  obtain ⟨j, hj, hslot⟩ := h.mem_iff.mp hkey
  obtain ⟨d, hd, hpos, hat, hpath⟩ := h.reach j key hj hslot
  have hother : ∀ i < d, table.slots ((table.home key + i) % table.capacity) ≠ key ∧
      table.slots ((table.home key + i) % table.capacity) ≠ 0 := by
    intro i hi
    have hoccupied : table.slots ((table.home key + i) % table.capacity) ≠ 0 := fun hzero => hpath i hi (slotView_none.mpr hzero)
    refine ⟨fun hsame => ?_, hoccupied⟩
    have hcap : 0 < table.capacity := by omega
    have hnodup : ((entries table.capacity (slotView table.slots)).map id).Nodup := by
      rw [map_id, h.holds.nodup_iff]
      exact h.nodup
    have hindex := entries_index_inj hnodup (Nat.mod_lt _ hcap) hj (slotView_some.mpr ⟨hsame, h.ne_zero hkey⟩) hslot rfl
    have hdist := probe_inj (by omega) (by omega) (hindex.trans hpos.symm)
    omega
  refine ⟨j, hj, ?_, hslot⟩
  have hwalk := findLoop_eq hother (Nat.zero_le d) (by omega : d < 0 + table.capacity)
  rw [Nat.add_zero, Nat.mod_eq_of_lt (h.shape.home_lt key), hpos] at hwalk
  rw [hwalk]
  obtain ⟨left, hleft⟩ : ∃ left, 0 + table.capacity - d = left + 1 := Nat.exists_eq_succ_of_ne_zero (by omega)
  rw [hleft, DynamicTable.findLoop, if_pos (slotView_some.mp hslot).1]

theorem TableOk.find_not_mem (h : TableOk table keys) (hzero : key ≠ 0) (hroom : keys.length < table.capacity) (hkey : key ∉ keys) :
    table.findLoop key table.capacity (table.home key) = some table.capacity := by
  obtain ⟨d, hd, hempty, hpath⟩ := h.first_empty hroom key
  have hcap : 0 < table.capacity := by omega
  have hother : ∀ i < d, table.slots ((table.home key + i) % table.capacity) ≠ key ∧
      table.slots ((table.home key + i) % table.capacity) ≠ 0 := by
    intro i hi
    refine ⟨fun hsame => hkey (h.mem_iff.mpr ⟨_, Nat.mod_lt _ hcap, slotView_some.mpr ⟨hsame, hzero⟩⟩), ?_⟩
    exact fun hnone => hpath i hi (slotView_none.mpr hnone)
  have hwalk := findLoop_eq hother (Nat.zero_le d) (by omega : d < 0 + table.capacity)
  rw [Nat.add_zero, Nat.mod_eq_of_lt (h.shape.home_lt key)] at hwalk
  rw [hwalk]
  obtain ⟨left, hleft⟩ : ∃ left, 0 + table.capacity - d = left + 1 := Nat.exists_eq_succ_of_ne_zero (by omega)
  rw [hleft, DynamicTable.findLoop, hempty, if_neg hzero.symm, if_pos rfl]

/-! ## The backward shift -/

/-- The backward shift comes to the next empty slot with every key still in reach. -/
theorem shiftLoop_spec {gap : Nat} (hshape : ShapeOk table)
    (hshift : Shifting table.capacity table.home table.capacity (update (slotView table.slots) hole none) hole m)
    (hgap : table.slots ((hole + gap) % table.capacity) = 0) (hm : m + 1 ≤ gap) (hturn : gap < table.capacity)
    (hfuel : gap < m + 1 + fuel) :
    ∃ table', table.shiftLoop fuel hole ((hole + (m + 1)) % table.capacity) = some table' ∧ table'.shift = table.shift ∧
      Reaches table.capacity table.home (slotView table'.slots) table.capacity ∧
      (entries table.capacity (slotView table'.slots)).Perm
        (entries table.capacity (update (slotView table.slots) hole none)) := by
  induction fuel generalizing table hole m gap with
  | zero => omega
  | succ fuel ih =>
    have hlt := hshift.lt
    have hne : (hole + (m + 1)) % table.capacity ≠ hole := by
      intro heq
      have hsame : (hole + (m + 1)) % table.capacity = (hole + 0) % table.capacity := by
        rw [heq, Nat.add_zero, Nat.mod_eq_of_lt hlt]
      have hdist := probe_inj (by omega) (by omega) hsame
      omega
    have hview : update (slotView table.slots) hole none ((hole + (m + 1)) % table.capacity) =
        slotView table.slots ((hole + (m + 1)) % table.capacity) := update_of_ne hne _ _
    rw [DynamicTable.shiftLoop]
    by_cases hend : table.slots ((hole + (m + 1)) % table.capacity) = 0
    · rw [if_pos hend]
      refine ⟨_, rfl, rfl, ?_, ?_⟩
      · rw [slotView_clearSlot]
        exact hshift.done le_rfl (.inl (hview.trans (slotView_none.mpr hend)))
      · rw [slotView_clearSlot]
    · rw [if_neg hend]
      -- The walk has not come to the empty slot yet.
      have hbefore : m + 1 < gap := by
        by_contra hnot
        have heq : gap = m + 1 := by omega
        rw [heq] at hgap
        exact hend hgap
      have hentry : update (slotView table.slots) hole none ((hole + (m + 1)) % table.capacity) =
          some (table.slots ((hole + (m + 1)) % table.capacity)) := hview.trans (slotView_some.mpr ⟨rfl, hend⟩)
      generalize table.slots ((hole + (m + 1)) % table.capacity) = k at hend hentry ⊢
      have hcap : 0 < table.capacity := by omega
      obtain ⟨d, hd, hpos, -⟩ := hshift.reach _ _ (Nat.mod_lt _ hcap) hentry
      have hdist : sizeSub ((hole + (m + 1)) % table.capacity) (table.home k) &&& table.mask = d := by
        rw [hshape.sub_and_mask (hshape.home_lt _), ← hpos, cyclicDist_eq hd]
      have hspan : sizeSub ((hole + (m + 1)) % table.capacity) hole &&& table.mask = m + 1 := by
        rw [hshape.sub_and_mask hlt, cyclicDist_eq (by omega)]
      rw [hdist, hspan]
      have hnext : ((hole + (m + 1)) % table.capacity + 1) &&& table.mask = (hole + (m + 1 + 1)) % table.capacity := by
        rw [ShapeOk.and_mask, Nat.mod_add_mod]
        rfl
      by_cases hfill : d ≥ m + 1
      · rw [if_pos hfill]
        have hmove := hshift.move le_rfl hentry hpos hfill hd
        have hsame : update (slotView (table.setSlot hole k).slots) ((hole + (m + 1)) % table.capacity) none =
            update (update (update (slotView table.slots) hole none) hole (some k))
              ((hole + (m + 1)) % table.capacity) none := by
          rw [slotView_setSlot hend, update_idem]
        rw [← hsame] at hmove
        have hstart : ((hole + (m + 1)) % table.capacity + 1) &&& table.mask =
            ((hole + (m + 1)) % table.capacity + (0 + 1)) % table.capacity := ShapeOk.and_mask table _
        have hempty : (table.setSlot hole k).slots (((hole + (m + 1)) % table.capacity + (gap - (m + 1))) % table.capacity) = 0 := by
          have hto : ((hole + (m + 1)) % table.capacity + (gap - (m + 1))) % table.capacity = (hole + gap) % table.capacity := by
            rw [Nat.mod_add_mod]
            congr 1
            omega
          have hother : (hole + gap) % table.capacity ≠ hole := by
            intro heq
            have hturned : (hole + gap) % table.capacity = (hole + 0) % table.capacity := by
              rw [heq, Nat.add_zero, Nat.mod_eq_of_lt hlt]
            have hzero := probe_inj hturn (by omega) hturned
            omega
          rw [hto]
          exact (update_of_ne hother _ _).trans hgap
        rw [hstart]
        obtain ⟨table', hloop, hshift', hreach, hperm⟩ :=
          @ih (table.setSlot hole k) _ 0 _ ⟨hshape.low, hshape.high⟩ hmove hempty (by omega)
            (by change gap - (m + 1) < table.capacity; omega) (by omega)
        refine ⟨table', hloop, hshift', hreach, hperm.trans ?_⟩
        rw [hsame]
        exact entries_move (Nat.mod_lt _ hcap) hlt hentry hshift.empty
      · rw [if_neg hfill, hnext]
        have hstay := hshift.stay hentry hpos (by omega) (by omega)
        exact ih hshape hstay hgap (by omega) hturn (by omega)

theorem TableOk.remove (h : TableOk table keys) (hkey : key ∈ keys) (hroom : keys.length < table.capacity) :
    ∃ j table', table.findLoop key table.capacity (table.home key) = some j ∧ j < table.capacity ∧
      table.shiftLoop table.capacity j ((j + 1) &&& table.mask) = some table' ∧ TableOk table' (keys.erase key) ∧
      table'.shift = table.shift := by
  obtain ⟨j, hj, hfind, hslot⟩ := h.find_mem hkey
  have hcap : 0 < table.capacity := by omega
  rw [← h.holds.length_eq] at hroom
  obtain ⟨gap, hturn, hempty, -⟩ := exists_first_empty j hroom
  have hpos : 1 ≤ gap := by
    by_contra hzero
    have hgap : gap = 0 := by omega
    rw [hgap, Nat.add_zero, Nat.mod_eq_of_lt hj, hslot] at hempty
    cases hempty
  have hstart := h.reach.shifting hj hcap
  obtain ⟨table', hloop, hshift, hreach, hperm⟩ :=
    shiftLoop_spec h.shape hstart (slotView_none.mp hempty) hpos hturn (by omega : gap < 0 + 1 + table.capacity)
  have hnext : (j + 1) &&& table.mask = (j + (0 + 1)) % table.capacity := ShapeOk.and_mask table _
  have hsame : table'.capacity = table.capacity := by rw [DynamicTable.capacity, hshift]; rfl
  have hhome : table'.home = table.home := by
    funext k
    rw [DynamicTable.home, hshift]
    rfl
  refine ⟨j, table', hfind, hj, by rw [hnext]; exact hloop, ⟨⟨by rw [hshift]; exact h.shape.low, by rw [hshift]; exact h.shape.high⟩, ?_, h.nodup.erase key, ?_⟩, hshift⟩
  · rw [hsame]
    apply hperm.trans
    have hsplit := (entries_clear hj hslot).symm.trans h.holds
    exact cons_perm_iff_perm_erase.mp hsplit |>.2
  · rw [hsame, hhome]
    exact hreach

/-! ## Growth -/

def entriesFrom (old : DynamicTable) (left i : Nat) : List Nat := (List.range' i left).filterMap (slotView old.slots)

theorem placeAll_spec {old fresh : DynamicTable} {left : Nat} (h : TableOk fresh keys)
    (hnodup : (keys ++ entriesFrom old left i).Nodup) (hroom : keys.length + left ≤ fresh.capacity) :
    ∃ table', old.placeAll left i fresh = some table' ∧ TableOk table' (keys ++ entriesFrom old left i) ∧
      table'.shift = fresh.shift := by
  induction left generalizing keys i fresh with
  | zero => exact ⟨fresh, rfl, by simpa [entriesFrom] using h, rfl⟩
  | succ left ih =>
    rw [DynamicTable.placeAll]
    by_cases hslot : old.slots i = 0
    · have hskip : entriesFrom old (left + 1) i = entriesFrom old left (i + 1) := by
        simp [entriesFrom, List.range'_succ, slotView_none.mpr hslot]
      rw [hskip] at hnodup ⊢
      rw [if_neg (not_not_intro hslot)]
      exact ih h hnodup (by omega)
    · have htake : entriesFrom old (left + 1) i = old.slots i :: entriesFrom old left (i + 1) := by
        simp [entriesFrom, List.range'_succ, slotView_some.mpr ⟨rfl, hslot⟩]
      rw [htake] at hnodup ⊢
      have hperm : (keys ++ old.slots i :: entriesFrom old left (i + 1)).Perm
          (old.slots i :: keys ++ entriesFrom old left (i + 1)) := perm_middle
      have hnew : old.slots i ∉ keys := by
        intro hmem
        exact (nodup_append.mp hnodup).2.2 _ hmem _ mem_cons_self rfl
      obtain ⟨placed, hplace, hok, hshift⟩ := h.place hslot hnew (by omega)
      rw [if_pos hslot, hplace]
      have hcap : placed.capacity = fresh.capacity := by rw [DynamicTable.capacity, hshift]; rfl
      obtain ⟨table', hall, hok', hshift'⟩ := ih hok (hperm.nodup_iff.mp hnodup) (by rw [length_cons, hcap]; omega)
      exact ⟨table', hall, hok'.perm hperm.symm, hshift'.trans hshift⟩

/-! ## The registry -/

structure RegistryOk (mp : Registry) (keys : List Nat) : Prop where
  table : ∀ table, mp.dynamicEntries = some table → TableOk table keys
  none : mp.dynamicEntries = none → keys = []
  count : mp.activeDynamicMemoryBufferCount = keys.length
  load : 2 * keys.length ≤ mp.capacity
  nodup : keys.Nodup

variable {mp mp' : Registry}

theorem registryOk_empty : RegistryOk Registry.empty [] :=
  ⟨nofun, fun _ => rfl, rfl, Nat.le_refl _, nodup_nil⟩

theorem RegistryOk.room (h : RegistryOk mp keys) (htable : mp.dynamicEntries = some table) : keys.length < table.capacity := by
  have hload := h.load
  have hpos := (h.table table htable).shape.capacity_pos
  rw [Registry.capacity, htable] at hload
  dsimp only at hload
  omega

theorem RegistryOk.contains (h : RegistryOk mp keys) (hzero : key ≠ 0) : mp.containsLocked key = some (decide (key ∈ keys)) := by
  rw [Registry.containsLocked, Registry.findLocked, Registry.capacity]
  cases htable : mp.dynamicEntries with
  | none =>
    rw [h.none htable]
    simp
  | some table =>
    have hok := h.table table htable
    dsimp only
    by_cases hkey : key ∈ keys
    · obtain ⟨j, hj, hfind, -⟩ := hok.find_mem hkey
      rw [hfind, Option.map_some, decide_eq_true hkey, decide_eq_true (Nat.ne_of_lt hj)]
    · rw [hok.find_not_mem hzero (h.room htable) hkey, Option.map_some, decide_eq_false hkey, decide_eq_false (not_not_intro rfl)]

theorem RegistryOk.remove_mem (h : RegistryOk mp keys) (hkey : key ∈ keys) :
    ∃ mp', mp.removeLocked key = some (mp', true) ∧ mp'.activeDynamicMemoryBufferCount = mp.activeDynamicMemoryBufferCount ∧
      RegistryOk (mp'.setCount (sizeSub mp'.activeDynamicMemoryBufferCount 1)) (keys.erase key) := by
  cases htable : mp.dynamicEntries with
  | none =>
    rw [h.none htable] at hkey
    cases hkey
  | some table =>
    obtain ⟨j, table', hfind, hj, hshift, hok, hsame⟩ := (h.table table htable).remove hkey (h.room htable)
    have hcap : table'.capacity = table.capacity := by rw [DynamicTable.capacity, hsame]; rfl
    have hload := h.load
    rw [Registry.capacity, htable] at hload
    have hlen := length_erase_of_mem hkey
    have hpos : 1 ≤ keys.length := length_pos_of_mem hkey
    refine ⟨{ mp with dynamicEntries := some table' }, ?_, rfl, ⟨?_, nofun, ?_, ?_, h.nodup.erase key⟩⟩
    · rw [Registry.removeLocked, Registry.findLocked, Registry.capacity, htable]
      dsimp only
      rw [hfind]
      dsimp only
      rw [if_neg (Nat.ne_of_lt hj), hshift]
    · rintro t ht
      cases ht
      exact hok
    · have hbound : keys.length ≤ sizeMax := by
        have hdvd := (h.table table htable).shape.capacity_dvd
        have hle : table.capacity ≤ 2 ^ 64 := by
          rw [← hdvd]
          exact Nat.le_mul_of_pos_right _ (Nat.two_pow_pos _)
        rw [sizeMax_eq]
        dsimp only at hload
        omega
      change sizeSub mp.activeDynamicMemoryBufferCount 1 = _
      rw [h.count, sizeSub_eq hpos hbound, hlen]
    · change 2 * (keys.erase key).length ≤ table'.capacity
      rw [hcap]
      dsimp only at hload
      omega

theorem RegistryOk.remove_not_mem (h : RegistryOk mp keys) (hzero : key ≠ 0) (hkey : key ∉ keys) :
    mp.removeLocked key = some (mp, false) := by
  rw [Registry.removeLocked, Registry.findLocked]
  cases htable : mp.dynamicEntries with
  | none =>
    dsimp only
    rw [Registry.capacity, htable, if_pos rfl]
  | some table =>
    dsimp only
    rw [(h.table table htable).find_not_mem hzero (h.room htable) hkey]
    dsimp only
    rw [Registry.capacity, htable, if_pos rfl]

theorem registryOk_placed {count : Nat} (hok : TableOk table (key :: keys)) (hcount : count = keys.length)
    (hload : 2 * (keys.length + 1) ≤ table.capacity) :
    RegistryOk (Registry.setCount ⟨some table, count⟩ (sizeAdd count 1)) (key :: keys) := by
  have hle : table.capacity ≤ 2 ^ 64 := by
    rw [← hok.shape.capacity_dvd]
    exact Nat.le_mul_of_pos_right _ (Nat.two_pow_pos _)
  refine ⟨?_, nofun, ?_, hload, hok.nodup⟩
  · rintro t ht
    cases ht
    exact hok
  · change sizeAdd count 1 = keys.length + 1
    rw [sizeAdd_eq (by rw [sizeMax_eq]; omega), hcount]

theorem RegistryOk.grow (h : RegistryOk mp keys) (hsmall : ¬mp.capacity > sizeMax / 4 / 8) :
    ∃ table, mp.grow = some table ∧ TableOk table keys ∧ 2 * (keys.length + 1) ≤ table.capacity := by
  have hload := h.load
  rw [Registry.capacity] at hload hsmall
  rw [Registry.grow]
  cases htable : mp.dynamicEntries with
  | none =>
    have hnil := h.none htable
    subst hnil
    exact ⟨_, rfl, TableOk.fresh (by decide) (by decide), by decide⟩
  | some old =>
    rw [htable] at hload hsmall
    dsimp only at hload hsmall ⊢
    have hok := h.table old htable
    have hhigh := hok.shape.high
    have hlow : 6 ≤ old.shift := by
      by_contra hnot
      have hpow : 2 ^ 59 ≤ 2 ^ (64 - old.shift) := Nat.pow_le_pow_right (by omega) (by omega)
      change ¬2 ^ (64 - old.shift) > sizeMax / 4 / 8 at hsmall
      rw [sizeMax_eq] at hsmall
      omega
    have hfrom : entriesFrom old old.capacity 0 = entries old.capacity (slotView old.slots) := by
      rw [entriesFrom, entries, range_eq_range']
    have hdouble : (⟨old.shift - 1, fun _ => 0⟩ : DynamicTable).capacity = 2 * old.capacity := by
      have hexp : mpAddrBits - (old.shift - 1) = mpAddrBits - old.shift + 1 := by
        unfold mpAddrBits
        omega
      rw [DynamicTable.capacity, DynamicTable.capacity, hexp, pow_succ, Nat.mul_comm]
    have hpos := hok.shape.capacity_pos
    obtain ⟨table, hall, hok', hshift⟩ := placeAll_spec (TableOk.fresh (by omega : 5 ≤ old.shift - 1) (by omega))
      (by rw [nil_append, hfrom, hok.holds.nodup_iff]; exact hok.nodup) (by rw [hdouble, length_nil]; omega)
    rw [nil_append, hfrom] at hok'
    have hcap : table.capacity = 2 * old.capacity := by
      rw [← hdouble, DynamicTable.capacity, hshift]
      rfl
    exact ⟨table, hall, hok'.perm hok.holds, by omega⟩

/-- An insert beside `n` addresses has room: in the table, or in a larger one that is granted and not past the check on
the size. -/
def Registry.CanInsert (mp : Registry) (n : Nat) (granted : Bool) : Prop :=
  2 * (n + 1) ≤ mp.capacity ∨ granted = true ∧ mp.capacity ≤ sizeMax / 4 / 8

theorem RegistryOk.insert (h : RegistryOk mp keys) (hzero : key ≠ 0) (hnew : key ∉ keys) (granted : Bool) :
    (mp.insertLocked key granted = some (mp, false) ∧ ¬mp.CanInsert keys.length granted) ∨
      ∃ mp', mp.insertLocked key granted = some (mp', true) ∧ mp.CanInsert keys.length granted ∧
        RegistryOk (mp'.setCount (sizeAdd mp'.activeDynamicMemoryBufferCount 1)) (key :: keys) := by
  have hload := h.load
  have hcount := h.count
  have hcapacity : mp.capacity ≤ 2 ^ 59 := by
    rw [Registry.capacity]
    cases htable : mp.dynamicEntries with
    | none => exact Nat.zero_le _
    | some table =>
      have hlow := (h.table table htable).shape.low
      exact Nat.pow_le_pow_right (by omega) (by unfold mpAddrBits; omega)
  have hneed : sizeMul (sizeAdd mp.activeDynamicMemoryBufferCount 1) 2 = 2 * (keys.length + 1) := by
    rw [hcount, sizeAdd_eq (by rw [sizeMax_eq]; omega), sizeMul_eq (by rw [sizeMax_eq]; omega), Nat.mul_comm]
  rw [Registry.insertLocked, hneed]
  by_cases hfull : 2 * (keys.length + 1) > mp.capacity
  · rw [if_pos hfull]
    by_cases hlarge : mp.capacity > sizeMax / 4 / 8
    · rw [if_pos hlarge]
      refine .inl ⟨rfl, ?_⟩
      rintro (hroom | ⟨-, hsmall⟩)
      · omega
      · exact absurd hsmall (Nat.not_le.mpr hlarge)
    · rw [if_neg hlarge]
      cases granted with
      | false =>
        refine .inl ⟨rfl, ?_⟩
        rintro (hroom | ⟨hgranted, -⟩)
        · omega
        · cases hgranted
      | true =>
        obtain ⟨table, hgrow, hok, hroom⟩ := h.grow hlarge
        obtain ⟨table', hplace, hok', hshift⟩ := hok.place hzero hnew (by omega)
        have hcap : table'.capacity = table.capacity := by rw [DynamicTable.capacity, hshift]; rfl
        rw [if_neg (by decide), hgrow]
        dsimp only
        rw [hplace]
        exact .inr ⟨_, rfl, .inr ⟨rfl, Nat.not_lt.mp hlarge⟩, registryOk_placed hok' hcount (by omega)⟩
  · rw [if_neg hfull]
    have hroom : 2 * (keys.length + 1) ≤ mp.capacity := Nat.not_lt.mp hfull
    cases htable : mp.dynamicEntries with
    | none =>
      rw [Registry.capacity, htable] at hfull
      exact absurd (Nat.succ_pos _) hfull
    | some table =>
      rw [Registry.capacity, htable] at hfull
      obtain ⟨table', hplace, hok', hshift⟩ := (h.table table htable).place hzero hnew (h.room htable)
      have hcap : table'.capacity = table.capacity := by rw [DynamicTable.capacity, hshift]; rfl
      dsimp only at hfull ⊢
      rw [hplace]
      exact .inr ⟨_, rfl, .inl hroom, registryOk_placed hok' hcount (by omega)⟩

end Ccollections.Cmempool
