import Mathlib.Data.List.Nodup
import Mathlib.Tactic.Ring
import Ccollections.Clrucache.Segments

/-!
# The map, the heap and the eviction order of a segment
-/

namespace Ccollections.Clrucache

open Chashmap Lib Function List

/-! ## Keys -/

namespace CacheParams

variable (p : CacheParams)

theorem keysEqual_refl (a : List UInt8) : p.keysEqual a a = true := by
  unfold CacheProcs.keysEqual
  split
  case isTrue h => exact absurd rfl h
  case isFalse =>
    split
    case isTrue => exact p.refl a
    case isFalse => exact decide_eq_true rfl

theorem length_of_keysEqual {a b : List UInt8} (h : p.keysEqual a b = true) : a.length = b.length := by
  unfold CacheProcs.keysEqual at h
  split at h
  case isTrue => cases h
  case isFalse hlen => exact not_not.mp hlen

theorem keysEqual_symm (a b : List UInt8) (h : p.keysEqual a b = true) : p.keysEqual b a = true := by
  have hlen := p.length_of_keysEqual h
  unfold CacheProcs.keysEqual at h ⊢
  rw [if_neg (not_not.mpr hlen)] at h
  rw [if_neg (not_not.mpr hlen.symm)]
  split at h
  case isTrue htype =>
    rw [if_pos htype]
    exact p.symm a b h
  case isFalse htype =>
    rw [if_neg htype]
    exact decide_eq_true (of_decide_eq_true h).symm

theorem keysEqual_trans (a b c : List UInt8) (hab : p.keysEqual a b = true) (hbc : p.keysEqual b c = true) :
    p.keysEqual a c = true := by
  have hlen := p.length_of_keysEqual hab
  have hlen' := p.length_of_keysEqual hbc
  unfold CacheProcs.keysEqual at hab hbc ⊢
  rw [if_neg (not_not.mpr hlen)] at hab
  rw [if_neg (not_not.mpr hlen')] at hbc
  rw [if_neg (not_not.mpr (hlen.trans hlen'))]
  split at hab
  case isTrue htype =>
    rw [if_pos htype] at hbc ⊢
    exact p.trans a b c hab hbc
  case isFalse htype =>
    rw [if_neg htype] at hbc ⊢
    exact decide_eq_true ((of_decide_eq_true hab).trans (of_decide_eq_true hbc))

theorem keysEqual_false_symm {a b : List UInt8} (h : p.keysEqual a b = false) : p.keysEqual b a = false := by
  cases hba : p.keysEqual b a with
  | false => rfl
  | true =>
    rw [p.keysEqual_symm b a hba] at h
    exact h

end CacheParams

/-! ## The parts of a segment together -/

/-- The map has the entries that are not evicted, and the eviction order has those with a value. -/
structure Shaped (p : CacheParams) (sh : Shard) : Prop where
  distinct : OrderedMap.Distinct p.keysEqual sh.map
  bound : ∀ b ∈ sh.map, ∃ entry, sh.entries b.2 = some entry ∧ entry.key = b.1 ∧ entry.evicted = false
  complete : ∀ e entry, sh.entries e = some entry → entry.evicted = false → (entry.key, e) ∈ sh.map
  nodup : sh.lru.Nodup
  lru : ∀ e, e ∈ sh.lru ↔ ∃ entry, sh.entries e = some entry ∧ entry.evicted = false ∧ entry.value.isSome
  size : sh.size = sh.lru.length
  room : sh.size ≤ sh.capacity
  capacity : 0 < sh.capacity
  fresh : ∀ e, sh.nextEntry ≤ e → sh.entries e = none

variable {p : CacheParams} {sh sh' : Shard} {e : Nat} {entry entry' : Entry}

theorem Shaped.create {capacity : Nat} (h : 0 < capacity) : Shaped p (Shard.create capacity) where
  distinct := List.Pairwise.nil
  bound := fun b hb => by cases hb
  complete := fun e entry hentry => by cases hentry
  nodup := nodup_nil
  lru := by
    intro e
    constructor
    · intro he
      cases he
    · rintro ⟨entry, hentry, -⟩
      cases hentry
  size := rfl
  room := Nat.zero_le _
  capacity := h
  fresh := fun _ _ => rfl

theorem Shaped.keys_ne (h : Shaped p sh) {e' : Nat} {k k' : List UInt8} (hmem : (k, e) ∈ sh.map) (hmem' : (k', e') ∈ sh.map)
    (hne : e' ≠ e) : p.keysEqual k' k = false := by
  have hsymm : Std.Symm fun a b : List UInt8 × Nat => p.keysEqual a.1 b.1 = false :=
    ⟨fun _ _ => p.keysEqual_false_symm⟩
  exact h.distinct.forall hmem' hmem fun heq => hne (congrArg Prod.snd heq)

structure Relisted (sh sh' : Shard) (e : Nat) : Prop where
  nodup : sh'.lru.Nodup
  others : ∀ e', e' ≠ e → (e' ∈ sh'.lru ↔ e' ∈ sh.lru)
  size : sh'.size = sh'.lru.length
  room : sh'.size ≤ sh'.capacity
  capacity : sh'.capacity = sh.capacity
  nextEntry : sh'.nextEntry = sh.nextEntry

theorem Shaped.relisted (h : Shaped p sh) (map : List (List UInt8 × Nat)) (entries : Nat → Option Entry) :
    Relisted sh { sh with map := map, entries := entries } e where
  nodup := h.nodup
  others := fun _ _ => Iff.rfl
  size := h.size
  room := h.room
  capacity := rfl
  nextEntry := rfl

theorem Shaped.lt_nextEntry (h : Shaped p sh) (hentry : sh.entries e = some entry) : e < sh.nextEntry := by
  by_contra hle
  rw [h.fresh e (Nat.le_of_not_lt hle)] at hentry
  cases hentry

theorem Shaped.mem_map_iff (h : Shaped p sh) {k : List UInt8} :
    (k, e) ∈ sh.map ↔ ∃ entry, sh.entries e = some entry ∧ entry.key = k ∧ entry.evicted = false := by
  constructor
  · exact h.bound (k, e)
  · rintro ⟨entry, hentry, rfl, hev⟩
    exact h.complete e entry hentry hev

/-- A change of one entry, if the map and the list follow it. -/
theorem Shaped.setEntry (h : Shaped p sh) (hentry : sh.entries e = some entry) {cell : Option Entry}
    (hentries : sh'.entries = update sh.entries e cell) (hdistinct : OrderedMap.Distinct p.keysEqual sh'.map)
    (hself : ∀ k, (k, e) ∈ sh'.map ↔ ∃ new, cell = some new ∧ new.key = k ∧ new.evicted = false)
    (hother : ∀ k e', e' ≠ e → ((k, e') ∈ sh'.map ↔ (k, e') ∈ sh.map)) (hlist : Relisted sh sh' e)
    (hlru : e ∈ sh'.lru ↔ ∃ new, cell = some new ∧ new.evicted = false ∧ new.value.isSome) : Shaped p sh' := by
  have hcell : sh'.entries e = cell := by
    rw [hentries]
    exact update_self _ _ _
  have hrest : ∀ e', e' ≠ e → sh'.entries e' = sh.entries e' := by
    intro e' he'
    rw [hentries]
    exact update_of_ne he' _ _
  have hiff : ∀ k e', (k, e') ∈ sh'.map ↔ ∃ new, sh'.entries e' = some new ∧ new.key = k ∧ new.evicted = false := by
    intro k e'
    by_cases he' : e' = e
    · rw [he', hself, hcell]
    · rw [hother k e' he', hrest e' he', h.mem_map_iff]
  constructor
  case distinct => exact hdistinct
  case bound => exact fun b hb => (hiff b.1 b.2).mp hb
  case complete => exact fun e' new hnew hev => (hiff _ e').mpr ⟨new, hnew, rfl, hev⟩
  case nodup => exact hlist.nodup
  case lru =>
    intro e'
    by_cases he' : e' = e
    · rw [he', hlru, hcell]
    · rw [hlist.others e' he', h.lru e', hrest e' he']
  case size => exact hlist.size
  case room => exact hlist.room
  case capacity =>
    rw [hlist.capacity]
    exact h.capacity
  case fresh =>
    intro e' he'
    rw [hlist.nextEntry] at he'
    have hlt := h.lt_nextEntry hentry
    rw [hrest e' (by omega)]
    exact h.fresh e' he'

theorem Shaped.keep (h : Shaped p sh) (hentry : sh.entries e = some entry)
    (hentries : sh'.entries = update sh.entries e (some entry')) (hkey : entry'.key = entry.key)
    (hevicted : entry'.evicted = entry.evicted) (hmap : sh'.map = sh.map) (hlist : Relisted sh sh' e)
    (hlru : e ∈ sh'.lru ↔ entry.evicted = false ∧ entry'.value.isSome) : Shaped p sh' := by
  refine h.setEntry hentry hentries (hmap ▸ h.distinct) (fun k => ?_) (fun k e' _ => by rw [hmap]) hlist ?_
  · rw [hmap, h.mem_map_iff]
    simp [hentry, hkey, hevicted]
  · simp [hlru, hevicted]

theorem Shaped.drop (h : Shaped p sh) (hentry : sh.entries e = some entry) (hevicted : entry.evicted = false)
    {cell : Option Entry} (hentries : sh'.entries = update sh.entries e cell)
    (hcell : ∀ entry', cell = some entry' → entry'.evicted = true)
    (hmap : sh'.map = OrderedMap.erase p.keysEqual sh.map entry.key) (hlist : Relisted sh sh' e) (hlru : e ∉ sh'.lru) :
    Shaped p sh' := by
  have hmem := h.complete e entry hentry hevicted
  have hgone : ∀ q : Entry → Prop, ¬∃ new, cell = some new ∧ q new ∧ new.evicted = false := by
    rintro q ⟨new, hnew, -, hev⟩
    rw [hcell new hnew] at hev
    cases hev
  refine h.setEntry hentry hentries (hmap ▸ h.distinct.filter _) (fun k => ?_) (fun k e' he' => ?_) hlist ?_
  · rw [hmap]
    refine iff_of_false (fun hin => ?_) (hgone _)
    obtain ⟨hin, hne⟩ := mem_filter.mp hin
    obtain ⟨old, hold, rfl, -⟩ := h.mem_map_iff.mp hin
    rw [hentry] at hold
    cases hold
    rw [p.keysEqual_refl] at hne
    cases hne
  · rw [hmap]
    exact ⟨fun hin => (mem_filter.mp hin).1, fun hin => mem_filter.mpr ⟨hin, by rw [h.keys_ne hmem hin he']; rfl⟩⟩
  · refine iff_of_false hlru ?_
    rintro ⟨new, hnew, hev, -⟩
    exact hgone (fun _ => True) ⟨new, hnew, trivial, hev⟩

theorem Shaped.evicted (h : Shaped p sh) (hentry : sh.entries e = some entry) (hevicted : entry.evicted = true)
    {cell : Option Entry} (hcell : ∀ entry', cell = some entry' → entry'.evicted = true) :
    Shaped p { sh with entries := update sh.entries e cell } := by
  refine h.setEntry hentry rfl h.distinct (fun k => ?_) (fun _ _ _ => Iff.rfl) (h.relisted sh.map _) ?_
  · rw [h.mem_map_iff]
    simp +contextual [hentry, hevicted, hcell]
  · rw [h.lru e]
    simp +contextual [hentry, hevicted, hcell]

theorem Shaped.mapLookup (h : Shaped p sh) {key : List UInt8} (hlookup : sh.mapLookup p.toCacheProcs key = some e) :
    ∃ entry, sh.entries e = some entry ∧ entry.evicted = false ∧ p.keysEqual entry.key key = true := by
  obtain ⟨b, hfind, rfl⟩ := Option.map_eq_some_iff.mp hlookup
  rw [OrderedMap.lookup] at hfind
  obtain ⟨entry, hentry, hk, hev⟩ := h.bound b (mem_of_find?_eq_some hfind)
  have hfound := List.find?_some hfind
  exact ⟨entry, hentry, hev, by rw [hk]; exact hfound⟩

/-! ## Who refers to an entry -/

/-- Why a call refers to an entry: it runs its remote getter, or its remote setter, or waits on it. -/
inductive Role where
  | fetch
  | set
  | wait
  deriving DecidableEq

def Request.role : Request → Role
  | .get _ => .fetch
  | .set _ => .set

def Pc.holds (request : Request) : Pc → List (Role × Nat)
  | .again => []
  | .remote e => [(request.role, e)]
  | .waiting e => [(.wait, e)]

def Outcome.holds (request : Request) : Outcome → List (Role × Nat)
  | .done _ _ => []
  | .goes pc => pc.holds request

/-- An entry counts the calls that refer to it, and its flags say which remote procedure runs for it. -/
structure EntryOk (holds : List (Role × Nat)) (e : Nat) (entry : Entry) : Prop where
  waiters : entry.waiters = holds.countP fun h => h.2 = e
  fetching : holds.count (.fetch, e) = if entry.fetchInProgress then 1 else 0
  setting : holds.count (.set, e) = if entry.setInProgress then 1 else 0
  held : entry.inProgress = true → entry.evicted = false
  fetch : entry.fetchInProgress = true → entry.value = none ∧ entry.setInProgress = false
  settled : entry.evicted = false → entry.inProgress = false → entry.value.isSome

def CellOk (holds : List (Role × Nat)) (e : Nat) : Option Entry → Prop
  | none => ∀ h ∈ holds, h.2 ≠ e
  | some entry => EntryOk holds e entry

structure ShardOk (p : CacheParams) (sh : Shard) (holds : List (Role × Nat)) : Prop where
  shaped : Shaped p sh
  cells : ∀ e, CellOk holds e (sh.entries e)

variable {holds holds' : List (Role × Nat)} {role : Role}

theorem CellOk.perm {cell : Option Entry} (h : CellOk holds e cell) (hperm : holds'.Perm holds) : CellOk holds' e cell := by
  cases cell with
  | none => exact fun hold hmem => h hold (hperm.mem_iff.mp hmem)
  | some entry =>
    constructor
    case waiters => exact h.waiters.trans (hperm.countP_eq _).symm
    case fetching => exact (hperm.count_eq _).trans h.fetching
    case setting => exact (hperm.count_eq _).trans h.setting
    case held => exact h.held
    case fetch => exact h.fetch
    case settled => exact h.settled

theorem ShardOk.perm (h : ShardOk p sh holds) (hperm : holds'.Perm holds) : ShardOk p sh holds' :=
  ⟨h.shaped, fun e => (h.cells e).perm hperm⟩

theorem cellOk_cons_of_ne {e' : Nat} (hne : e' ≠ e) {cell : Option Entry} :
    CellOk ((role, e) :: holds) e' cell ↔ CellOk holds e' cell := by
  have hne' : e ≠ e' := Ne.symm hne
  cases cell with
  | none => simp [CellOk, hne']
  | some entry =>
    constructor
    · intro h
      constructor
      case waiters => simpa [hne'] using h.waiters
      case fetching => simpa [hne'] using h.fetching
      case setting => simpa [hne'] using h.setting
      case held => exact h.held
      case fetch => exact h.fetch
      case settled => exact h.settled
    · intro h
      constructor
      case waiters => simpa [hne'] using h.waiters
      case fetching => simpa [hne'] using h.fetching
      case setting => simpa [hne'] using h.setting
      case held => exact h.held
      case fetch => exact h.fetch
      case settled => exact h.settled

theorem ShardOk.cell_some (h : ShardOk p sh ((role, e) :: holds)) :
    ∃ entry, sh.entries e = some entry ∧ EntryOk ((role, e) :: holds) e entry := by
  have hcell := h.cells e
  cases hentry : sh.entries e with
  | none =>
    rw [hentry] at hcell
    exact absurd rfl (hcell _ mem_cons_self)
  | some entry =>
    rw [hentry] at hcell
    exact ⟨entry, rfl, hcell⟩

/-- What a section keeps of a segment: its capacity, and the keys of its map but for the one of the call. -/
structure Kept (sh sh' : Shard) (key : List UInt8) : Prop where
  capacity : sh'.capacity = sh.capacity
  map : ∀ b ∈ sh'.map, b ∈ sh.map ∨ b.1 = key

theorem Kept.refl (sh : Shard) (key : List UInt8) : Kept sh sh key := ⟨rfl, fun _ hb => .inl hb⟩

theorem Kept.trans {sh'' : Shard} {key : List UInt8} (h : Kept sh sh' key) (h' : Kept sh' sh'' key) : Kept sh sh'' key where
  capacity := h'.capacity.trans h.capacity
  map := by
    intro b hb
    cases h'.map b hb with
    | inl hmem => exact h.map b hmem
    | inr hkey => exact .inr hkey

/-! ## Eviction -/

theorem Shaped.evictLru (h : Shaped p sh) (hcells : ∀ v ∈ sh.lru, CellOk holds v (sh.entries v)) (hlru : sh.lru ≠ [])
    (key : List UInt8) :
    ∃ sh', sh.evictLru p.toCacheProcs = some (sh', true) ∧ Shaped p sh' ∧ sh'.lru.length + 1 = sh.lru.length ∧
      Kept sh sh' key ∧ ∃ v ∈ sh.lru, (∀ e, e ∈ sh'.lru → e ∈ sh.lru) ∧ CellOk holds v (sh'.entries v) ∧
      ∀ e, e ≠ v → sh'.entries e = sh.entries e := by
  obtain ⟨v, hlast⟩ : ∃ v, sh.lru.getLast? = some v := by
    cases hl : sh.lru.getLast? with
    | none => exact absurd (List.getLast?_eq_none_iff.mp hl) hlru
    | some v => exact ⟨v, rfl⟩
  have hv : v ∈ sh.lru := mem_of_getLast? hlast
  obtain ⟨entry, hentry, hevicted, hvalue⟩ := (h.lru v).mp hv
  have hok : EntryOk holds v entry := by
    have hcell := hcells v hv
    rw [hentry] at hcell
    exact hcell
  have hlength : (sh.lru.erase v).length + 1 = sh.lru.length := by
    rw [length_erase_of_mem hv]
    have := length_pos_of_mem hv
    omega
  have hnot : v ∉ sh.lru.erase v := fun hin => (h.nodup.mem_erase_iff.mp hin).1 rfl
  have hlist : ∀ (map : List (List UInt8 × Nat)) (entries : Nat → Option Entry),
      Relisted sh { sh with lru := sh.lru.erase v, size := sh.size - 1, map := map, entries := entries } v := by
    intro map entries
    constructor
    case nodup => exact h.nodup.erase v
    case others => exact fun e' he' => h.nodup.mem_erase_iff.trans (and_iff_right he')
    case size =>
      have := h.size
      dsimp only
      omega
    case room => exact (Nat.sub_le _ _).trans h.room
    case capacity => rfl
    case nextEntry => rfl
  have hsub : ∀ e, e ∈ sh.lru.erase v → e ∈ sh.lru := fun e he => mem_of_mem_erase he
  simp only [Shard.evictLru, hlast, hentry, Option.map_some]
  by_cases hset : entry.setInProgress = true
  · rw [if_pos hset]
    refine ⟨_, rfl, ?_, hlength, ⟨rfl, fun b hb => .inl hb⟩, v, hv, hsub, ?_, fun e he => update_of_ne he _ _⟩
    · refine h.keep hentry rfl rfl rfl rfl (hlist _ _) ⟨fun hin => absurd hin hnot, fun hin => ?_⟩
      exact absurd hin.2 Bool.false_ne_true
    · have hfetch : ¬entry.fetchInProgress = true := fun hf => by
        rw [(hok.fetch hf).2] at hset
        cases hset
      simp only [Shard.setEntry, update_self]
      constructor
      case waiters => exact hok.waiters
      case fetching => exact hok.fetching
      case setting => exact hok.setting
      case held => exact hok.held
      case fetch => exact fun hf => absurd hf hfetch
      case settled => exact fun _ hrest => absurd hrest (by simp [Entry.inProgress, hset])
  · have hfetch : ¬entry.fetchInProgress = true := fun hf => by
      rw [(hok.fetch hf).1] at hvalue
      cases hvalue
    rw [if_neg hset]
    simp only [Shard.releaseEntry, Bool.true_and, decide_eq_true_eq]
    split
    case isTrue hwaiters =>
      refine ⟨_, rfl, ?_, hlength, ⟨rfl, fun b hb => .inl (mem_of_mem_filter hb)⟩, v, hv, hsub, ?_,
        fun e he => update_of_ne he _ _⟩
      · exact h.drop hentry hevicted rfl (fun _ hcell => by cases hcell) rfl (hlist _ _) hnot
      · simp only [Shard.entryFree, update_self]
        have hzero := hok.waiters.symm.trans hwaiters
        intro hold hmem heq
        exact countP_eq_zero.mp hzero hold hmem (by simpa using heq)
    case isFalse =>
      refine ⟨_, rfl, ?_, hlength, ⟨rfl, fun b hb => .inl (mem_of_mem_filter hb)⟩, v, hv, hsub, ?_,
        fun e he => update_of_ne he _ _⟩
      · exact h.drop hentry hevicted rfl (fun _ hcell => by cases hcell; rfl) rfl (hlist _ _) hnot
      · simp only [Shard.setEntry, update_self]
        constructor
        case waiters => exact hok.waiters
        case fetching => exact hok.fetching
        case setting => exact hok.setting
        case held => exact fun hin => absurd hin (by simp [Entry.inProgress, hset, hfetch])
        case fetch => exact hok.fetch
        case settled => exact fun hev => by cases hev

theorem Shaped.makeRoomLoop (h : Shaped p sh) (he : e ∉ sh.lru)
    (hcells : ∀ e', e' ≠ e → CellOk holds e' (sh.entries e')) (key : List UInt8) {n : Nat} (hn : sh.lru.length < n) :
    ∃ sh', sh.makeRoomLoop p.toCacheProcs n = some sh' ∧ Shaped p sh' ∧ sh'.size < sh'.capacity ∧ Kept sh sh' key ∧
      e ∉ sh'.lru ∧ sh'.entries e = sh.entries e ∧ ∀ e', e' ≠ e → CellOk holds e' (sh'.entries e') := by
  induction n generalizing sh with
  | zero => exact absurd hn (Nat.not_lt_zero _)
  | succ n ih =>
    unfold Shard.makeRoomLoop
    split
    case isFalse hroom => exact ⟨sh, rfl, h, Nat.lt_of_not_le hroom, .refl _ _, he, rfl, hcells⟩
    case isTrue hfull =>
      have hlru : sh.lru ≠ [] := by
        intro hnil
        have hsize := h.size
        have hcap := h.capacity
        rw [hnil, length_nil] at hsize
        omega
      obtain ⟨sh₁, hevict, hshaped, hlength, hkept, v, hv, hsub, hvictim, hother⟩ :=
        h.evictLru (fun v hv => hcells v fun heq => he (heq ▸ hv)) hlru key
      have hne : e ≠ v := fun heq => he (heq ▸ hv)
      have hcells₁ : ∀ e', e' ≠ e → CellOk holds e' (sh₁.entries e') := by
        intro e' he'
        by_cases hev : e' = v
        · exact hev ▸ hvictim
        · rw [hother e' hev]
          exact hcells e' he'
      obtain ⟨sh₂, hloop, hshaped₂, hroom, hkept₂, he₂, hentry₂, hcells₂⟩ :=
        ih hshaped (fun hin => he (hsub e hin)) hcells₁ (by omega)
      simp only [hevict, Option.bind_some, ↓reduceIte]
      exact ⟨sh₂, hloop, hshaped₂, hroom, hkept.trans hkept₂, he₂, hentry₂.trans (hother e hne), hcells₂⟩

end Ccollections.Clrucache
