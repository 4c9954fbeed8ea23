import Ccollections.Clrucache.Lemmas.Segments

/-!
# The sections of a call under a segment's lock
-/

namespace Ccollections.Clrucache

open Chashmap Lib Function List Option

variable {p : CacheParams} {sh sh' : Shard} {e : Nat} {entry entry' : Entry} {holds : List (Role × Nat)}

/-! ## Tallies -/

structure Tallied (holds : List (Role × Nat)) (e : Nat) (entry : Entry) : Prop where
  waiters : entry.waiters = holds.countP fun h => h.2 = e
  fetching : holds.count (.fetch, e) = if entry.fetchInProgress then 1 else 0
  setting : holds.count (.set, e) = if entry.setInProgress then 1 else 0

theorem EntryOk.tallied (h : EntryOk holds e entry) : Tallied holds e entry := ⟨h.waiters, h.fetching, h.setting⟩

namespace Tallied

theorem ok (h : Tallied holds e entry) (held : entry.inProgress = true → entry.evicted = false)
    (fetch : entry.fetchInProgress = true → entry.value = none ∧ entry.setInProgress = false)
    (settled : entry.evicted = false → entry.inProgress = false → entry.value.isSome) : EntryOk holds e entry :=
  ⟨h.waiters, h.fetching, h.setting, held, fetch, settled⟩

theorem fetchDone (h : Tallied ((.fetch, e) :: holds) e entry) : entry.fetchInProgress = true ∧
    Tallied holds e { entry with waiters := entry.waiters - 1, fetchInProgress := false } := by
  have hfetch : entry.fetchInProgress = true := by
    have hcount := h.fetching
    rw [count_cons_self] at hcount
    split at hcount
    case isTrue ht => exact ht
    case isFalse => exact absurd hcount (Nat.succ_ne_zero _)
  refine ⟨hfetch, ?_, ?_, ?_⟩
  · simp [h.waiters]
  · have hcount := h.fetching
    rw [count_cons_self, if_pos hfetch] at hcount
    exact Nat.succ.inj hcount
  · simpa using h.setting

theorem setDone (h : Tallied ((.set, e) :: holds) e entry) : entry.setInProgress = true ∧
    Tallied holds e { entry with waiters := entry.waiters - 1, setInProgress := false } := by
  have hset : entry.setInProgress = true := by
    have hcount := h.setting
    rw [count_cons_self] at hcount
    split at hcount
    case isTrue ht => exact ht
    case isFalse => exact absurd hcount (Nat.succ_ne_zero _)
  refine ⟨hset, ?_, ?_, ?_⟩
  · simp [h.waiters]
  · simpa using h.fetching
  · have hcount := h.setting
    rw [count_cons_self, if_pos hset] at hcount
    exact Nat.succ.inj hcount

theorem waitDone (h : Tallied ((.wait, e) :: holds) e entry) :
    Tallied holds e { entry with waiters := entry.waiters - 1 } := by
  refine ⟨?_, ?_, ?_⟩
  · simp [h.waiters]
  · simpa using h.fetching
  · simpa using h.setting

theorem wait (h : Tallied holds e entry) :
    Tallied ((.wait, e) :: holds) e { entry with waiters := entry.waiters + 1 } := by
  refine ⟨?_, ?_, ?_⟩
  · simp [h.waiters]
  · simpa using h.fetching
  · simpa using h.setting

theorem set (h : Tallied holds e entry) (hset : entry.setInProgress = false) :
    Tallied ((.set, e) :: holds) e { entry with waiters := entry.waiters + 1, setInProgress := true } := by
  have hzero : holds.count (.set, e) = 0 := by simpa [hset] using h.setting
  refine ⟨?_, ?_, ?_⟩
  · simp [h.waiters]
  · simpa using h.fetching
  · simp [hzero]

end Tallied

/-! ## Writes to the entry of a section -/

/-- The state of a segment in a section that works on one entry, whose other entries are in order. -/
structure InHand (p : CacheParams) (sh : Shard) (holds : List (Role × Nat)) (e : Nat) (entry : Entry) : Prop where
  shaped : Shaped p sh
  cell : sh.entries e = some entry
  others : ∀ e', e' ≠ e → CellOk holds e' (sh.entries e')

namespace InHand

theorem of_cons {role : Role} (h : ShardOk p sh ((role, e) :: holds)) :
    ∃ entry, InHand p sh holds e entry ∧ EntryOk ((role, e) :: holds) e entry := by
  obtain ⟨entry, hentry, hok⟩ := h.cell_some
  exact ⟨entry, ⟨h.shaped, hentry, fun e' he' => (cellOk_cons_of_ne he').mp (h.cells e')⟩, hok⟩

theorem mem_lru (h : InHand p sh holds e entry) : e ∈ sh.lru ↔ entry.evicted = false ∧ entry.value.isSome := by
  rw [h.shaped.lru e, h.cell]
  constructor
  · rintro ⟨old, hold, hev, hval⟩
    cases hold
    exact ⟨hev, hval⟩
  · exact fun hx => ⟨entry, rfl, hx⟩

theorem others_setEntry (h : InHand p sh holds e entry) (cell : Option Entry) {e' : Nat} (he' : e' ≠ e) :
    CellOk holds e' (update sh.entries e cell e') := by
  rw [update_of_ne he']
  exact h.others e' he'

theorem write (h : InHand p sh holds e entry) (entry' : Entry) (hkey : entry'.key = entry.key)
    (hevicted : entry'.evicted = entry.evicted) (hvalue : entry'.value.isSome = entry.value.isSome) :
    InHand p (sh.setEntry e entry') holds e entry' where
  shaped := by
    refine h.shaped.keep h.cell rfl hkey hevicted rfl (h.shaped.relisted sh.map _) ?_
    rw [hvalue]
    exact h.mem_lru
  cell := update_self _ _ _
  others := fun _ he' => h.others_setEntry _ he'

theorem done (h : InHand p sh holds e entry) (hok : EntryOk holds e entry) : ShardOk p sh holds := by
  refine ⟨h.shaped, fun e' => ?_⟩
  by_cases he' : e' = e
  · subst he'
    rw [h.cell]
    exact hok
  · exact h.others e' he'

theorem goes {role : Role} (h : InHand p sh holds e entry) (hok : EntryOk ((role, e) :: holds) e entry) :
    ShardOk p sh ((role, e) :: holds) := by
  refine ⟨h.shaped, fun e' => ?_⟩
  by_cases he' : e' = e
  · subst he'
    rw [h.cell]
    exact hok
  · exact (cellOk_cons_of_ne he').mpr (h.others e' he')

theorem free (h : InHand p sh holds e entry) (hevicted : entry.evicted = true) (hwaiters : holds.countP (fun h => h.2 = e) = 0) :
    ShardOk p (sh.entryFree e) holds := by
  refine ⟨h.shaped.evicted h.cell hevicted (fun _ hcell => by cases hcell), fun e' => ?_⟩
  by_cases he' : e' = e
  · subst he'
    simp only [Shard.entryFree, update_self]
    intro hold hmem heq
    exact countP_eq_zero.mp hwaiters hold hmem (by simpa using heq)
  · exact h.others_setEntry _ he'

theorem entryFree_setEntry (sh : Shard) (e : Nat) (entry : Entry) : (sh.setEntry e entry).entryFree e = sh.entryFree e := by
  simp only [Shard.entryFree, Shard.setEntry, update_idem]

theorem release (h : InHand p sh holds e entry) (hok : EntryOk holds e entry') (hkey : entry'.key = entry.key)
    (hevicted : entry'.evicted = entry.evicted) (hvalue : entry'.value.isSome = entry.value.isSome) :
    ShardOk p (sh.releaseEntry e entry') holds := by
  have hwritten := h.write entry' hkey hevicted hvalue
  unfold Shard.releaseEntry
  split
  case isTrue hfree =>
    simp only [Bool.and_eq_true, decide_eq_true_eq] at hfree
    rw [← entryFree_setEntry sh e entry']
    exact hwritten.free hfree.1 (hok.waiters.symm.trans hfree.2)
  case isFalse => exact hwritten.done hok

theorem delete (h : InHand p sh holds e entry) (hevicted : entry.evicted = false) (hvalue : entry.value = none)
    (hev : entry'.evicted = true) (hok : EntryOk holds e entry') {key : List UInt8} (hkey : key = entry.key) :
    ShardOk p ((sh.deleteElem p.toCacheProcs key).releaseEntry e entry') holds := by
  have hlru : e ∉ sh.lru := by
    rw [h.mem_lru, hvalue]
    exact fun hx => by cases hx.2
  have hdropped : InHand p ((sh.deleteElem p.toCacheProcs key).setEntry e entry') holds e entry' := by
    constructor
    case shaped =>
      refine h.shaped.drop h.cell hevicted rfl (fun _ hcell => ?_) (by rw [hkey]; rfl) (h.shaped.relisted _ _) hlru
      cases hcell
      exact hev
    case cell => exact update_self _ _ _
    case others => exact fun _ he' => h.others_setEntry _ he'
  unfold Shard.releaseEntry
  split
  case isTrue hfree =>
    simp only [Bool.and_eq_true, decide_eq_true_eq] at hfree
    rw [← entryFree_setEntry _ e entry']
    exact hdropped.free hfree.1 (hok.waiters.symm.trans hfree.2)
  case isFalse => exact hdropped.done hok

theorem moveToFront (h : InHand p sh holds e entry) (hlru : e ∈ sh.lru) :
    InHand p (sh.lruMoveToFront e) holds e entry where
  shaped := by
    have hentries : sh.entries = update sh.entries e (some entry) := by
      rw [← h.cell, update_eq_self]
    have hnot : e ∉ sh.lru.erase e := fun hin => (h.shaped.nodup.mem_erase_iff.mp hin).1 rfl
    have hlength : (e :: sh.lru.erase e).length = sh.lru.length := by
      rw [length_cons, length_erase_of_mem hlru]
      have := length_pos_of_mem hlru
      omega
    refine h.shaped.keep h.cell hentries rfl rfl rfl ?_ ⟨fun _ => h.mem_lru.mp hlru, fun _ => mem_cons_self⟩
    constructor
    case nodup => exact nodup_cons.mpr ⟨hnot, h.shaped.nodup.erase e⟩
    case others =>
      intro e' he'
      simp only [Shard.lruMoveToFront, mem_cons, he', false_or, h.shaped.nodup.mem_erase_iff, ne_eq, not_false_eq_true,
        true_and]
    case size => exact h.shaped.size.trans hlength.symm
    case room => exact h.shaped.room
    case capacity => rfl
    case nextEntry => rfl
  cell := h.cell
  others := h.others

theorem insert (h : InHand p sh holds e entry) (hevicted : entry.evicted = false) (hvalue : entry.value = none)
    (hroom : sh.size < sh.capacity) (hkey : entry'.key = entry.key) (hev : entry'.evicted = false)
    (hval : entry'.value.isSome) : InHand p ((sh.setEntry e entry').lruInsert e) holds e entry' where
  shaped := by
    have hlru : e ∉ sh.lru := by
      rw [h.mem_lru, hvalue]
      exact fun hx => by cases hx.2
    refine h.shaped.keep h.cell rfl hkey (hev.trans hevicted.symm) rfl ?_ ⟨fun _ => ⟨hevicted, hval⟩, fun _ => mem_cons_self⟩
    constructor
    case nodup => exact nodup_cons.mpr ⟨hlru, h.shaped.nodup⟩
    case others =>
      intro e' he'
      simp only [Shard.lruInsert, Shard.setEntry, mem_cons, he', false_or]
    case size => exact congrArg Nat.succ h.shaped.size
    case room => exact hroom
    case capacity => rfl
    case nextEntry => rfl
  cell := update_self _ _ _
  others := fun _ he' => h.others_setEntry _ he'

theorem makeRoom (h : InHand p sh holds e entry) (hvalue : entry.value = none) (key : List UInt8) :
    ∃ sh', sh.makeRoom p.toCacheProcs = some sh' ∧ InHand p sh' holds e entry ∧ sh'.size < sh'.capacity ∧
      Kept sh sh' key := by
  have hlru : e ∉ sh.lru := by
    rw [h.mem_lru, hvalue]
    exact fun hx => by cases hx.2
  obtain ⟨sh', hloop, hshaped, hroom, hkept, -, hcell, hothers⟩ :=
    h.shaped.makeRoomLoop hlru h.others key (Nat.lt_succ_self _)
  exact ⟨sh', hloop, ⟨hshaped, hcell.trans h.cell, hothers⟩, hroom, hkept⟩

end InHand

/-! ## A value written before there is room for it -/

theorem evictLru_setEntry (procs : CacheProcs) (hlru : e ∉ sh.lru) (entry : Entry) :
    (sh.setEntry e entry).evictLru procs = (sh.evictLru procs).map fun r => (r.1.setEntry e entry, r.2) := by
  cases hlast : sh.lru.getLast? with
  | none => simp only [Shard.evictLru, Shard.setEntry, hlast, Option.map_some]
  | some v =>
    have hne : v ≠ e := fun heq => hlru (heq ▸ List.mem_of_getLast? hlast)
    have hcell : Function.update sh.entries e (some entry) v = sh.entries v := Function.update_of_ne hne _ _
    simp only [Shard.evictLru, Shard.setEntry, hlast, hcell, Option.map_map]
    congr 1
    funext victim
    simp only [Function.comp_apply, Shard.releaseEntry, Shard.entryFree, Shard.setEntry, Shard.deleteElem]
    split
    case isTrue => rw [Function.update_comm hne.symm]
    case isFalse => split <;> rw [Function.update_comm hne.symm]

theorem lru_evictLru {procs : CacheProcs} {r : Shard × Bool} (h : sh.evictLru procs = some r) (hlru : e ∉ sh.lru) :
    e ∉ r.1.lru := by
  unfold Shard.evictLru at h
  split at h
  case h_1 =>
    cases h
    exact hlru
  case h_2 v hlast =>
    obtain ⟨victim, -, rfl⟩ := map_eq_some_iff.mp h
    have herase : e ∉ sh.lru.erase v := fun hin => hlru (mem_of_mem_erase hin)
    dsimp only
    split
    case isTrue => exact herase
    case isFalse =>
      unfold Shard.releaseEntry
      split <;> exact herase

theorem makeRoomLoop_setEntry (procs : CacheProcs) (hlru : e ∉ sh.lru) (entry : Entry) (n : Nat) :
    (sh.setEntry e entry).makeRoomLoop procs n = (sh.makeRoomLoop procs n).map fun sh => sh.setEntry e entry := by
  induction n generalizing sh with
  | zero => rfl
  | succ n ih =>
    unfold Shard.makeRoomLoop
    rw [evictLru_setEntry procs hlru]
    have hsize : (sh.setEntry e entry).size ≥ (sh.setEntry e entry).capacity ↔ sh.size ≥ sh.capacity := Iff.rfl
    simp only [hsize]
    split
    case isFalse => rfl
    case isTrue =>
      cases hevict : sh.evictLru procs with
      | none => rfl
      | some r =>
        have hr := lru_evictLru hevict hlru
        simp only [map_some, bind_some]
        split
        case isTrue => exact ih hr
        case isFalse => rfl

/-! ## The ends of a section -/

def Lands (p : CacheParams) (sh : Shard) (holds : List (Role × Nat)) (request : Request) (key : List UInt8)
    (result : Option (Shard × Outcome)) : Prop :=
  ∃ sh' out, result = some (sh', out) ∧ ShardOk p sh' (out.holds request ++ holds) ∧ Kept sh sh' key

variable {request : Request} {key : List UInt8}

theorem map_releaseEntry (sh : Shard) (e : Nat) (entry : Entry) : (sh.releaseEntry e entry).map = sh.map := by
  unfold Shard.releaseEntry
  split <;> rfl

theorem capacity_releaseEntry (sh : Shard) (e : Nat) (entry : Entry) :
    (sh.releaseEntry e entry).capacity = sh.capacity := by
  unfold Shard.releaseEntry
  split <;> rfl

theorem Kept.setEntry (sh : Shard) (e : Nat) (entry : Entry) (key : List UInt8) : Kept sh (sh.setEntry e entry) key :=
  ⟨rfl, fun _ hb => .inl hb⟩

theorem Kept.release (h : Kept sh sh' key) (e : Nat) (entry : Entry) : Kept sh (sh'.releaseEntry e entry) key where
  capacity := (capacity_releaseEntry sh' e entry).trans h.capacity
  map := by
    rw [map_releaseEntry]
    exact h.map

theorem Kept.delete (h : Kept sh sh' key) (procs : CacheProcs) (k : List UInt8) : Kept sh (sh'.deleteElem procs k) key where
  capacity := h.capacity
  map := fun b hb => h.map b (mem_of_mem_filter hb)

theorem Lands.trans {result : Option (Shard × Outcome)} (hkept : Kept sh sh' key) (h : Lands p sh' holds request key result) :
    Lands p sh holds request key result := by
  obtain ⟨sh'', out, hresult, hok, hkept'⟩ := h
  exact ⟨sh'', out, hresult, hok, hkept.trans hkept'⟩

/-! ## Gets -/

theorem InHand.getServe (h : InHand p sh holds e entry) (hok : EntryOk holds e entry') (hkey : entry'.key = entry.key)
    (hevicted : entry'.evicted = entry.evicted) (hvalue : entry'.value = entry.value) (hsome : entry'.value.isSome) (bufSize : Option Nat) (answers : Answers) :
    Lands p sh holds request key (sh.getServe e entry' bufSize answers) := by
  obtain ⟨value, hval⟩ := isSome_iff_exists.mp hsome
  simp only [Shard.getServe, hval, map_some]
  split
  case h_1 => exact ⟨_, _, rfl, h.release hok hkey hevicted (congrArg Option.isSome hvalue), (Kept.refl sh key).release _ _⟩
  case h_2 =>
    cases hev : entry'.evicted with
    | true => exact ⟨_, _, rfl, h.release hok hkey hevicted (congrArg Option.isSome hvalue), (Kept.refl sh key).release _ _⟩
    | false =>
      have hlru : e ∈ sh.lru := h.mem_lru.mpr ⟨hevicted ▸ hev, hvalue ▸ hsome⟩
      have hkept : Kept sh (sh.lruMoveToFront e) key := ⟨rfl, fun b hb => .inl hb⟩
      exact ⟨_, _, rfl, (h.moveToFront hlru).release hok hkey hevicted (congrArg Option.isSome hvalue), hkept.release _ _⟩

theorem ShardOk.insertEntry (h : ShardOk p sh holds) (habsent : sh.mapLookup p.toCacheProcs key = none) {fetch : Bool}
    {waiters : Nat} (answers : Answers) :
    (∃ ret, sh.insertEntry p.toCacheProcs key (.placeholder key fetch waiters) answers = .error ret) ∨
    ∃ sh' e, sh.insertEntry p.toCacheProcs key (.placeholder key fetch waiters) answers = .ok (sh', e) ∧
      InHand p sh' holds e (.placeholder key fetch waiters) ∧ Tallied holds e (.placeholder key false 0) ∧ Kept sh sh' key := by
  have hlookup : OrderedMap.lookup p.keysEqual sh.map key = none := map_eq_none_iff.mp habsent
  unfold Shard.insertEntry
  split
  case isTrue => exact .inl ⟨_, rfl⟩
  case isFalse =>
    cases hupsert : answers.upsert with
    | some f =>
      have hfailed : f.retVal ≠ .success ∧ f.retVal ≠ .keyAlreadyPresent := by
        cases f <;> exact ⟨nofun, nofun⟩
      exact .inl ⟨f.retVal, if_pos hfailed⟩
    | none =>
      have hok : ¬(RetVal.success ≠ .success ∧ RetVal.success ≠ .keyAlreadyPresent) := fun hx => hx.1 rfl
      simp only [Shard.mapUpsert, hlookup, isSome_none, Bool.false_eq_true, ↓reduceIte, if_neg hok]
      have hfresh := h.shaped.fresh sh.nextEntry (Nat.le_refl _)
      have hcell : ∀ r : Role, holds.count (r, sh.nextEntry) = 0 := by
        intro r
        have hnone := h.cells sh.nextEntry
        rw [hfresh] at hnone
        exact count_eq_zero.mpr fun hmem => hnone _ hmem rfl
      have hzero : holds.countP (fun h => h.2 = sh.nextEntry) = 0 := by
        have hnone := h.cells sh.nextEntry
        rw [hfresh] at hnone
        exact countP_eq_zero.mpr fun hold hmem => by simpa using hnone hold hmem
      have hother : ∀ e', e' ≠ sh.nextEntry →
          update sh.entries sh.nextEntry (some (.placeholder key fetch waiters)) e' = sh.entries e' :=
        fun e' he' => update_of_ne he' _ _
      have hself : update sh.entries sh.nextEntry (some (.placeholder key fetch waiters)) sh.nextEntry =
          some (.placeholder key fetch waiters) := update_self _ _ _
      refine .inr ⟨_, _, rfl, ?_, ⟨hzero.symm, hcell _, hcell _⟩, ⟨rfl, ?_⟩⟩
      · constructor
        case cell => exact hself
        case others =>
          intro e' he'
          simp only [Shard.setEntry, hother e' he']
          exact h.cells e'
        case shaped =>
          constructor
          case distinct =>
            refine pairwise_append.mpr ⟨h.shaped.distinct, pairwise_singleton _ _, ?_⟩
            intro a ha b hb
            rw [mem_singleton] at hb
            rw [hb]
            exact OrderedMap.lookup_eq_none_iff.mp hlookup a ha
          case bound =>
            intro b hb
            simp only [Shard.setEntry, mem_append, mem_singleton] at hb
            cases hb with
            | inl hold =>
              obtain ⟨old, hentry, hk, hev⟩ := h.shaped.bound b hold
              have hne : b.2 ≠ sh.nextEntry := Nat.ne_of_lt (h.shaped.lt_nextEntry hentry)
              exact ⟨old, (hother _ hne).trans hentry, hk, hev⟩
            | inr hnew =>
              rw [hnew]
              exact ⟨_, hself, rfl, rfl⟩
          case complete =>
            intro e' new hnew hev
            simp only [Shard.setEntry, mem_append, mem_singleton] at hnew ⊢
            by_cases he' : e' = sh.nextEntry
            · subst he'
              rw [hself] at hnew
              cases hnew
              exact .inr rfl
            · rw [hother e' he'] at hnew
              exact .inl (h.shaped.complete e' new hnew hev)
          case nodup => exact h.shaped.nodup
          case lru =>
            intro e'
            simp only [Shard.setEntry]
            by_cases he' : e' = sh.nextEntry
            · subst he'
              constructor
              · intro hin
                obtain ⟨old, hold, -⟩ := (h.shaped.lru _).mp hin
                rw [hfresh] at hold
                cases hold
              · rintro ⟨new, hnew, -, hval⟩
                rw [hself] at hnew
                cases hnew
                cases hval
            · rw [hother e' he']
              exact h.shaped.lru e'
          case size => exact h.shaped.size
          case room => exact h.shaped.room
          case capacity => exact h.shaped.capacity
          case fresh =>
            intro e' he'
            have hlt : sh.nextEntry < e' := he'
            exact (hother e' (Nat.ne_of_gt hlt)).trans (h.shaped.fresh e' hlt.le)
      · intro b hb
        simp only [Shard.setEntry, mem_append, mem_singleton] at hb
        exact hb.imp_right fun hnew => by rw [hnew]

theorem ShardOk.mapLookup (h : ShardOk p sh holds) (hlookup : sh.mapLookup p.toCacheProcs key = some e) :
    ∃ entry, InHand p sh holds e entry ∧ entry.evicted = false ∧ EntryOk holds e entry := by
  obtain ⟨entry, hentry, hev, -⟩ := h.shaped.mapLookup hlookup
  have hok := h.cells e
  rw [hentry] at hok
  exact ⟨entry, ⟨h.shaped, hentry, fun e' _ => h.cells e'⟩, hev, hok⟩

theorem InHand.wait (h : InHand p sh holds e entry) (hok : EntryOk holds e entry) :
    ShardOk p (sh.setEntry e { entry with waiters := entry.waiters + 1 }) ((.wait, e) :: holds) :=
  InHand.goes (h.write { entry with waiters := entry.waiters + 1 } rfl rfl rfl)
    (hok.tallied.wait.ok hok.held hok.fetch hok.settled)

theorem ShardOk.getLocked (h : ShardOk p sh holds) (bufSize : Option Nat) (answers : Answers) :
    Lands p sh holds (.get bufSize) key (sh.getLocked p.toCacheProcs key bufSize answers) := by
  unfold Shard.getLocked
  cases hlookup : sh.mapLookup p.toCacheProcs key with
  | none =>
    dsimp only
    split
    case isTrue => exact ⟨sh, _, rfl, h, .refl _ _⟩
    case isFalse =>
      obtain ⟨ret, herror⟩ | ⟨sh', e, hinsert, hhand, htally, hkept⟩ := h.insertEntry hlookup answers
      · rw [herror]
        exact ⟨sh, _, rfl, h, .refl _ _⟩
      · rw [hinsert]
        have htally' : Tallied ((.fetch, e) :: holds) e (.placeholder key true 1) := by
          have hcount := htally.fetching
          have hset := htally.setting
          have hwait := htally.waiters
          refine ⟨?_, ?_, ?_⟩
          · simp only [Entry.placeholder] at hwait ⊢
            rw [countP_cons_of_pos (by simp), ← hwait]
          · rw [count_cons_self, hcount]
            rfl
          · rw [count_cons_of_ne (by simp), hset]
            rfl
        refine ⟨sh', _, rfl, hhand.goes (htally'.ok (fun _ => rfl) (fun _ => ⟨rfl, rfl⟩) ?_), hkept⟩
        exact fun _ hrest => by cases hrest
  | some e =>
    obtain ⟨entry, hhand, hev, hok⟩ := h.mapLookup hlookup
    simp only [hhand.cell, bind_some]
    split
    case isTrue => exact ⟨_, _, rfl, hhand.wait hok, ⟨rfl, fun b hb => .inl hb⟩⟩
    case isFalse hrest =>
      rw [Bool.not_eq_true] at hrest
      exact hhand.getServe hok rfl rfl rfl (hok.settled hev hrest) bufSize answers

theorem ShardOk.getFetched (h : ShardOk p sh ((.fetch, e) :: holds)) (bufSize : Option Nat) (answers : Answers) :
    Lands p sh holds (.get bufSize) key (sh.getFetched p.toCacheProcs e bufSize answers) := by
  obtain ⟨entry, hhand, hok⟩ := InHand.of_cons h
  obtain ⟨hfetch, htally⟩ := hok.tallied.fetchDone
  obtain ⟨hvalue, hset⟩ := hok.fetch hfetch
  have hprogress : entry.inProgress = true := by rw [Entry.inProgress, hfetch, Bool.true_or]
  have hev : entry.evicted = false := hok.held hprogress
  have hfail : ∀ mismatch ret, Lands p sh holds (.get bufSize) key (some (sh.fetchFail p.toCacheProcs e
      { entry with waiters := entry.waiters - 1, fetchInProgress := false } mismatch ret)) := by
    intro mismatch ret
    refine ⟨_, _, rfl, hhand.delete hev hvalue rfl ?_ rfl, ((Kept.refl sh key).delete _ _).release _ _⟩
    refine Tallied.ok ⟨htally.waiters, htally.fetching, htally.setting⟩ (fun hp => ?_) (by rintro ⟨⟩) (by rintro ⟨⟩)
    simp [Entry.inProgress, hset] at hp
  simp only [Shard.getFetched, hhand.cell, bind_some]
  cases hfetched : answers.fetched with
  | none => exact hfail false .keyNotFound
  | some value =>
    dsimp only
    split
    case isTrue => exact hfail false .keyNotFound
    case isFalse =>
      split
      case isTrue => exact hfail true .unexpectedFailure
      case isFalse =>
        have hwritten : InHand p (sh.setEntry e { entry with waiters := entry.waiters - 1, fetchInProgress := false }) holds e
            { entry with waiters := entry.waiters - 1, fetchInProgress := false } := hhand.write _ rfl rfl rfl
        obtain ⟨sh', hroom, hhand', hlt, hkept⟩ := hwritten.makeRoom hvalue key
        have hdone : ShardOk p ((sh'.setEntry e { entry with
            waiters := entry.waiters - 1, fetchInProgress := false, value := some value }).lruInsert e) holds := by
          refine InHand.done (hhand'.insert hev hvalue hlt rfl hev rfl) ?_
          refine Tallied.ok ⟨htally.waiters, htally.fetching, htally.setting⟩ (fun _ => hev) (by rintro ⟨⟩) (fun _ _ => rfl)
        have hkept' : Kept sh sh' key := (Kept.setEntry sh e _ key).trans hkept
        simp only [hroom, bind_some, hhand'.cell, map_some]
        split
        case isTrue => exact ⟨_, _, rfl, hdone, hkept'.capacity, hkept'.map⟩
        case isFalse => exact ⟨_, _, rfl, hdone, hkept'.capacity, hkept'.map⟩

theorem ShardOk.getWake (h : ShardOk p sh ((.wait, e) :: holds)) (bufSize : Option Nat) (answers : Answers) :
    Lands p sh holds (.get bufSize) key (sh.getWake p.toCacheProcs e key bufSize answers) := by
  obtain ⟨entry, hhand, hok⟩ := InHand.of_cons h
  simp only [Shard.getWake, hhand.cell, bind_some]
  split
  case isTrue => exact ⟨sh, _, rfl, h, .refl _ _⟩
  case isFalse hrest =>
    have hok' : EntryOk holds e { entry with waiters := entry.waiters - 1 } :=
      hok.tallied.waitDone.ok hok.held hok.fetch hok.settled
    split
    case isTrue hsome => exact hhand.getServe hok' rfl rfl rfl hsome bufSize answers
    case isFalse =>
      split
      case isTrue => exact ⟨_, _, rfl, hhand.release hok' rfl rfl rfl, (Kept.refl sh key).release _ _⟩
      case isFalse =>
        split
        case isTrue hfree =>
          simp only [Bool.and_eq_true, decide_eq_true_eq] at hfree
          exact ⟨_, _, rfl, hhand.free hfree.1 (hok'.waiters.symm.trans hfree.2), rfl, fun b hb => .inl hb⟩
        case isFalse =>
          have hwritten := InHand.done (hhand.write { entry with waiters := entry.waiters - 1 } rfl rfl rfl) hok'
          exact Lands.trans (Kept.setEntry sh e _ key) (hwritten.getLocked bufSize answers)

/-! ## Sets -/

variable {value : List UInt8}

theorem InHand.setFinish (h : InHand p sh holds e entry) (hev : entry.evicted = false)
    (hfetch : entry.fetchInProgress = false) (htally : Tallied holds e { entry with setInProgress := false })
    (value : List UInt8) (remoteOk : Bool) :
    Lands p sh holds request key (sh.setFinish p.toCacheProcs e value remoteOk) := by
  have hidle : ∀ entry : Entry, entry.fetchInProgress = false → entry.setInProgress = false → ¬entry.inProgress = true := by
    intro entry hf hs hp
    simp [Entry.inProgress, hf, hs] at hp
  have hok : ∀ stored : Option (List UInt8), stored.isSome →
      EntryOk holds e { entry with value := stored, setInProgress := false } := by
    intro stored hstored
    refine Tallied.ok ⟨htally.waiters, htally.fetching, htally.setting⟩ (fun hp => absurd hp (hidle _ hfetch rfl))
      (fun hf => ?_) (fun _ _ => hstored)
    rw [hfetch] at hf
    cases hf
  simp only [Shard.setFinish, h.cell, bind_some]
  split
  case isTrue =>
    split
    case isTrue hlru =>
      have hsome := (h.mem_lru.mp hlru).2
      have hstored := h.write { entry with value := some value } rfl rfl hsome.symm
      have hfront := hstored.moveToFront hlru
      simp only [bind_some, hfront.cell, map_some]
      have hkept : Kept sh ((sh.setEntry e { entry with value := some value }).lruMoveToFront e) key :=
        ⟨rfl, fun b hb => .inl hb⟩
      exact ⟨_, _, rfl, hfront.release (hok (some value) rfl) rfl rfl rfl, hkept.release _ _⟩
    case isFalse hlru =>
      have hvalue : entry.value = none := by
        cases hval : entry.value with
        | none => rfl
        | some old => exact absurd (h.mem_lru.mpr ⟨hev, by rw [hval]; rfl⟩) hlru
      obtain ⟨sh', hroom, hhand, hlt, hkept⟩ := h.makeRoom hvalue key
      have hstored : (sh.setEntry e { entry with value := some value }).makeRoom p.toCacheProcs =
          some (sh'.setEntry e { entry with value := some value }) := by
        have hloop := makeRoomLoop_setEntry p.toCacheProcs hlru { entry with value := some value } (sh.lru.length + 1)
        rw [Shard.makeRoom] at hroom
        rw [hroom] at hloop
        exact hloop
      have hinsert : InHand p ((sh'.setEntry e { entry with value := some value }).lruInsert e) holds e
          { entry with value := some value } := hhand.insert hev hvalue hlt rfl hev rfl
      simp only [hstored, map_some, bind_some, hinsert.cell]
      have hkept' : Kept sh ((sh'.setEntry e { entry with value := some value }).lruInsert e) key :=
        ⟨hkept.capacity, hkept.map⟩
      exact ⟨_, _, rfl, hinsert.release (hok (some value) rfl) rfl rfl rfl, hkept'.release _ _⟩
  case isFalse =>
    split
    case isTrue hlru =>
      have hsome := (h.mem_lru.mp hlru).2
      exact ⟨_, _, rfl, h.release (hok entry.value hsome) rfl rfl rfl, (Kept.refl sh key).release _ _⟩
    case isFalse hlru =>
      have hvalue : entry.value = none := by
        cases hval : entry.value with
        | none => rfl
        | some old => exact absurd (h.mem_lru.mpr ⟨hev, by rw [hval]; rfl⟩) hlru
      refine ⟨_, _, rfl, h.delete hev hvalue rfl ?_ rfl, ((Kept.refl sh key).delete _ _).release _ _⟩
      refine Tallied.ok ⟨htally.waiters, htally.fetching, htally.setting⟩ (fun hp => absurd hp (hidle _ hfetch rfl))
        (fun hf => ?_) (by rintro ⟨⟩)
      rw [hfetch] at hf
      cases hf

theorem InHand.setOwn (h : InHand p sh holds e entry) (htally : Tallied holds e entry') (hkey : entry'.key = entry.key)
    (hvalue : entry'.value = entry.value) (hevicted : entry'.evicted = entry.evicted) (hev : entry.evicted = false)
    (hrest : entry'.inProgress = false) (value : List UInt8) :
    Lands p sh holds (.set value) key (sh.setOwn p.toCacheProcs e entry' value) := by
  rw [Entry.inProgress, Bool.or_eq_false_iff] at hrest
  unfold Shard.setOwn
  split
  case isTrue =>
    refine ⟨_, _, rfl, ?_, Kept.setEntry sh e _ key⟩
    refine InHand.goes (h.write { entry' with setInProgress := true, waiters := entry'.waiters + 1 } hkey hevicted
      (congrArg Option.isSome hvalue)) ?_
    refine (htally.set hrest.2).ok (fun _ => hevicted.trans hev) (fun hf => ?_) (fun _ hp => ?_)
    · rw [hrest.1] at hf
      cases hf
    · simp [Entry.inProgress] at hp
  case isFalse =>
    have hwritten := h.write { entry' with setInProgress := true } hkey hevicted (congrArg Option.isSome hvalue)
    refine Lands.trans (Kept.setEntry sh e _ key) (hwritten.setFinish (hevicted.trans hev) hrest.1 ?_ value true)
    exact ⟨htally.waiters, htally.fetching, by simpa [hrest.2] using htally.setting⟩

theorem ShardOk.setLocked (h : ShardOk p sh holds) (value : List UInt8) (answers : Answers) :
    Lands p sh holds (.set value) key (sh.setLocked p.toCacheProcs key value answers) := by
  unfold Shard.setLocked
  cases hlookup : sh.mapLookup p.toCacheProcs key with
  | none =>
    dsimp only
    obtain ⟨ret, herror⟩ | ⟨sh', e, hinsert, hhand, htally, hkept⟩ := h.insertEntry hlookup answers
    · rw [herror]
      exact ⟨sh, _, rfl, h, .refl _ _⟩
    · rw [hinsert]
      simp only [hhand.cell, bind_some]
      exact Lands.trans hkept (hhand.setOwn htally rfl rfl rfl rfl rfl value)
  | some e =>
    obtain ⟨entry, hhand, hev, hok⟩ := h.mapLookup hlookup
    simp only [hhand.cell, bind_some]
    split
    case isTrue => exact ⟨_, _, rfl, hhand.wait hok, Kept.setEntry sh e _ key⟩
    case isFalse hrest =>
      rw [Bool.not_eq_true] at hrest
      exact hhand.setOwn hok.tallied rfl rfl rfl hev hrest value

theorem ShardOk.setStored (h : ShardOk p sh ((.set, e) :: holds)) (value : List UInt8) (answers : Answers) :
    Lands p sh holds (.set value) key (sh.setStored p.toCacheProcs e value answers) := by
  obtain ⟨entry, hhand, hok⟩ := InHand.of_cons h
  obtain ⟨hset, htally⟩ := hok.tallied.setDone
  have hprogress : entry.inProgress = true := by rw [Entry.inProgress, hset, Bool.or_true]
  have hfetch : entry.fetchInProgress = false := by
    cases hf : entry.fetchInProgress with
    | false => rfl
    | true =>
      rw [(hok.fetch hf).2] at hset
      cases hset
  simp only [Shard.setStored, hhand.cell, bind_some]
  have hwritten := hhand.write { entry with waiters := entry.waiters - 1 } rfl rfl rfl
  exact Lands.trans (Kept.setEntry sh e _ key) (hwritten.setFinish (hok.held hprogress) hfetch htally value answers.stored)

theorem ShardOk.setWake (h : ShardOk p sh ((.wait, e) :: holds)) (value : List UInt8) (answers : Answers) :
    Lands p sh holds (.set value) key (sh.setWake p.toCacheProcs e key value answers) := by
  obtain ⟨entry, hhand, hok⟩ := InHand.of_cons h
  have htally := hok.tallied.waitDone
  simp only [Shard.setWake, hhand.cell, bind_some]
  split
  case isTrue => exact ⟨sh, _, rfl, h, .refl _ _⟩
  case isFalse hrest =>
    rw [Bool.not_eq_true] at hrest
    split
    case isTrue hev =>
      rw [Bool.not_eq_eq_eq_not, Bool.not_true] at hev
      exact hhand.setOwn htally rfl rfl rfl hev hrest value
    case isFalse hev =>
      have hevicted : entry.evicted = true := by simpa using hev
      have hok' : EntryOk holds e { entry with waiters := entry.waiters - 1 } :=
        htally.ok hok.held hok.fetch hok.settled
      split
      case isTrue hfree =>
        exact ⟨_, _, rfl, hhand.free hevicted (htally.waiters.symm.trans hfree), rfl, fun b hb => .inl hb⟩
      case isFalse =>
        have hwritten := InHand.done (hhand.write { entry with waiters := entry.waiters - 1 } rfl rfl rfl) hok'
        exact Lands.trans (Kept.setEntry sh e _ key) (hwritten.setLocked value answers)

theorem ShardOk.advance {call : Call} (h : ShardOk p sh (call.pc.holds call.request ++ holds)) (answers : Answers) :
    Lands p sh holds call.request call.key (sh.advance p.toCacheProcs call answers) := by
  obtain ⟨shard, key, request, pc⟩ := call
  cases request with
  | get bufSize =>
    cases pc with
    | again => exact h.getLocked bufSize answers
    | remote e => exact h.getFetched bufSize answers
    | waiting e => exact h.getWake bufSize answers
  | set value =>
    cases pc with
    | again => exact h.setLocked value answers
    | remote e => exact h.setStored value answers
    | waiting e => exact h.setWake value answers

end Ccollections.Clrucache
