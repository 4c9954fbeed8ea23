import Ccollections.Clrucache.Lemmas.Caches
import Ccollections.Clrucache.Lemmas.Slots

/-!
# Segments and handle slots of clrucache
-/

namespace Ccollections.Clrucache

open Chashmap Lib Option

/-! ## Segments -/

/-- The capacities of the segments add up to the capacity, a key has one segment, and after any calls a key has one
entry at most and no more entries are live than the capacity. -/
theorem clrucache_segments_exact (p : CacheParams) {capacity : Nat} (hcapacity : 0 < capacity) :
    (∀ c ∈ segmentCapacities capacity, 1 ≤ c) ∧ (segmentCapacities capacity).sum = capacity ∧
    (∀ key, fixedWidthDataTypeSize p.keyType = 0 ∨ key.length = fixedWidthDataTypeSize p.keyType →
      ∃ i < (segmentCapacities capacity).length, p.shardFor (segmentCapacities capacity).length key = some i) ∧
    (∀ a b, p.keysEqual a b = true →
      p.shardFor (segmentCapacities capacity).length a = p.shardFor (segmentCapacities capacity).length b) ∧
    ∀ acts s outs, run (Cache.step p.toCacheProcs) (Cache.create capacity) acts = some (s, outs) →
      s.shards.map Shard.capacity = segmentCapacities capacity ∧
      (∀ key, (s.shards.flatMap Shard.map).countP (fun b => p.keysEqual b.1 key) ≤ 1) ∧
      (s.shards.map Shard.liveCount).sum ≤ capacity := by
  have hcount : 0 < (segmentCapacities capacity).length := by
    rw [length_segmentCapacities]
    exact shardCountFor_pos capacity
  refine ⟨segmentCapacities_pos hcapacity, sum_segmentCapacities capacity, fun key => exists_shardFor hcount,
    fun a b => shardFor_congr, ?_⟩
  intro acts s outs hrun
  have hok : CacheOk p capacity s.shards s.calls :=
    run_invariant (fun _ _ _ _ h hstep => CacheOk.step h hstep) (CacheOk.create hcapacity) hrun
  exact ⟨hok.capacities, hok.distinct.countP_le_one p.keysEqual_symm p.keysEqual_trans, hok.sum_liveCount_le⟩

/-- No section of a call works on a freed entry or runs out of rounds: every call takes its next section. -/
theorem clrucache_sections_work (p : CacheParams) {capacity : Nat} (hcapacity : 0 < capacity) {acts : List Act} {s : Cache}
    {outs : List (Option (RetVal × Option (List UInt8)))}
    (hrun : run (Cache.step p.toCacheProcs) (Cache.create capacity) acts = some (s, outs)) :
    (∀ key request answers, (s.step p.toCacheProcs (.call key request answers)).isSome) ∧
    ∀ i < s.calls.length, ∀ answers, (s.step p.toCacheProcs (.go i answers)).isSome := by
  have hok : CacheOk p capacity s.shards s.calls :=
    run_invariant (fun _ _ _ _ h hstep => CacheOk.step h hstep) (CacheOk.create hcapacity) hrun
  constructor
  · intro key request answers
    unfold Cache.step
    dsimp only
    split
    case isTrue => rfl
    case isFalse =>
      split
      case h_1 => rfl
      case h_2 hshard _ =>
        obtain ⟨s', ret, hadvance, -⟩ := (hok.enter (.get _) hshard).advance answers
        exact isSome_of_mem hadvance
      case h_3 hshard _ =>
        split
        case isTrue => rfl
        case isFalse =>
          obtain ⟨s', ret, hadvance, -⟩ := (hok.enter (.set _) hshard).advance answers
          exact isSome_of_mem hadvance
  · intro i hi answers
    have hcall : s.calls[i]? = some s.calls[i] := List.getElem?_eq_getElem hi
    have hperm : (s.calls[i] :: s.calls.eraseIdx i).Perm s.calls := List.getElem_cons_eraseIdx_perm hi
    obtain ⟨s', ret, hadvance, -⟩ := (hok.perm hperm).advance answers
    simp only [Cache.step, hcall, bind_eq_bind, bind_some]
    exact isSome_of_mem hadvance

/-- A cache of keys of 4 bytes that hashes a key by its first byte and has remote procedures. -/
def wordCache : CacheParams where
  keyType := .unsignedInt
  longDoubleKeysEqual := fun a b => a = b
  hashKey := fun key => (key.headD 0).toUInt64
  remoteGetter := true
  remoteSetter := true
  refl := fun a => decide_eq_true rfl
  symm := fun a b h => decide_eq_true (of_decide_eq_true h).symm
  trans := fun a b c h h' => decide_eq_true ((of_decide_eq_true h).trans (of_decide_eq_true h'))
  agrees := by
    intro a b h
    unfold CacheProcs.keysEqual at h
    split at h
    case isTrue => cases h
    case isFalse =>
      have heq : canonicalizeKeyPairIfNeeded .unsignedInt a = canonicalizeKeyPairIfNeeded .unsignedInt b :=
        of_decide_eq_true h
      have hid : ∀ key, canonicalizeKeyPairIfNeeded .unsignedInt key = key := fun key => by
        unfold canonicalizeKeyPairIfNeeded
        split <;> rfl
      rw [hid a, hid b] at heq
      rw [heq]

/-- A get runs its remote getter while a set of the key waits for it; then the remote setter runs beside another set. -/
def wordRun : List Act :=
  let answers : Answers := { entryAlloc := true, keyAlloc := true, copyAlloc := true, upsert := none, fetched := some [9],
                             stored := true }
  [.call [1, 0, 0, 0] (.get none) answers, .call [1, 0, 0, 0] (.set [7]) answers, .go 1 answers, .go 0 answers,
    .go 0 answers, .call [2, 0, 0, 0] (.set [8]) answers, .go 0 answers]

theorem clrucache_segments_exact_two :
    segmentCapacities 130 = [65, 65] ∧ (segmentCapacities 130).sum = 130 ∧
    ∃ s outs, run (Cache.step wordCache.toCacheProcs) (Cache.create 130) wordRun = some (s, outs) ∧
      (s.shards.map Shard.liveCount).sum = 2 ∧
      (s.shards.flatMap Shard.map).countP (fun b => wordCache.keysEqual b.1 [1, 0, 0, 0]) ≤ 1 ∧
      (s.shards.map Shard.liveCount).sum ≤ 130 := by
  have hexact := clrucache_segments_exact wordCache (show 0 < 130 by decide)
  have hlive : (run (Cache.step wordCache.toCacheProcs) (Cache.create 130) wordRun).map
      (fun r => (r.1.shards.map Shard.liveCount).sum) = some 2 := by decide
  obtain ⟨⟨s, outs⟩, hrun, hsum⟩ := map_eq_some_iff.mp hlive
  have hend := hexact.2.2.2.2 _ s outs hrun
  exact ⟨by decide, hexact.2.1, s, outs, hrun, hsum, hend.2.1 [1, 0, 0, 0], hend.2.2⟩

end Ccollections.Clrucache

/-! ## The handle slot table -/

namespace Ccollections.Clrucache.Slots

open Cpintable Option

/-- In every state each index of the table belongs once to a live cache, a destroy, the free list or the lost indices, a
create extends the table only when none is free or lost, and a slot gives no handle twice in 2^31 acquires. -/
theorem clrucache_handle_slots_exact {C : Type} [DecidableEq C] {acts : List (Act C)} {s : State C}
    (hrun : (State.init C).steps acts = some s) :
    (s.live.map (fun p => (handleIdx p.1).toNat) ++ s.destroying.map Prod.fst ++ s.freeIndices ++ s.lost).Perm
      (List.range s.slots.length) ∧
    (∀ p ∈ s.live, s.slots[(handleIdx p.1).toNat]? =
      some { ptr := some p.2, generation := handleGen p.1, inUse := true }) ∧
    (∀ p ∈ s.destroying, ∃ g, s.slots[p.1]? = some { ptr := some p.2, generation := g, inUse := false }) ∧
    (∀ idx ∈ s.freeIndices ++ s.lost, ∃ g, s.slots[idx]? = some { ptr := none, generation := g, inUse := false }) ∧
    (s.released = false → s.lostIndices = s.lost.length) ∧
    (∀ cache outcomes s', s.step (.create cache outcomes) = some s' → s.slots.length < s'.slots.length →
      s.freeIndices = [] ∧ s.lost = []) ∧
    (s.live.map fun p => (handleIdx p.1).toNat).Nodup ∧
    (∀ h, s.acquires (handleIdx h).toNat < 2 ^ 31 → s.issued.count h ≤ 1) ∧ 0 ∉ s.issued := by
  have hinv : Inv s := Inv.init.steps hrun
  have howned := hinv.owned
  refine ⟨howned.owners, howned.live, howned.destroying, howned.idle, howned.count, ?_, ?_, ?_, hinv.counted.nonzero⟩
  · intro cache outcomes s' hstep hgrown
    simp only [State.step] at hstep
    split at hstep
    case isTrue => cases hstep
    case isFalse hfresh =>
      obtain ⟨r, s₁, hacquire, -, hlength⟩ := hinv.handleSlotAcquire (fun hmem => hfresh (.inl hmem)) outcomes
      rw [hacquire] at hstep
      cases hstep
      exact hlength.resolve_left (Nat.ne_of_gt hgrown)
  · have hnodup := howned.nodup
    simp only [State.owners, List.nil_append, List.append_assoc] at hnodup
    exact hnodup.of_append_left
  · intro h hacq
    have hdistinct := List.nodup_iff_count_le_one.mp (hinv.counted.distinct _ hacq) h
    rwa [List.count_filter (by simp)] at hdistinct

/-- A second create loses its index, a third one recovers it, and the first cache goes while a fourth extends the table.
-/
def slotRun : List (Act Nat) :=
  [.create 1 ⟨true, true, true⟩, .create 2 ⟨true, false, false⟩, .create 3 ⟨true, true, true⟩, .destroyBegin 1,
    .create 4 ⟨true, true, true⟩, .destroyEnd 0 1 false]

theorem clrucache_handle_slots_exact_run :
    ∃ s : State Nat, (State.init Nat).steps slotRun = some s ∧ s.slots.length = 3 ∧ s.lost = [0] ∧
      s.lostIndices = s.lost.length ∧
      (s.live.map (fun p => (handleIdx p.1).toNat) ++ s.destroying.map Prod.fst ++ s.freeIndices ++ s.lost).Perm
        (List.range s.slots.length) := by
  have hfields : ((State.init Nat).steps slotRun).map (fun s => (s.slots.length, s.lost, s.released)) =
      some (3, [0], false) := by decide
  obtain ⟨s, hrun, hs⟩ := map_eq_some_iff.mp hfields
  have hexact := clrucache_handle_slots_exact hrun
  simp only [Prod.mk.injEq] at hs
  exact ⟨s, hrun, hs.1, hs.2.1, hexact.2.2.2.2.1 hs.2.2, hexact.1⟩

theorem clrucache_handle_slots_found {C : Type} [DecidableEq C] {acts : List (Act C)} {s : State C}
    (hrun : (State.init C).steps acts = some s) :
    (∀ cache outcomes, cache ∉ s.live.map Prod.snd → (s.handleSlotAcquire cache outcomes).isSome) ∧
    (∀ p ∈ s.live, (s.destroyBegin p.1).isSome) ∧
    ∀ p ∈ s.destroying, ∀ freePush, (s.destroyEnd p.1 p.2 freePush).isSome := by
  have hinv : Inv s := Inv.init.steps hrun
  refine ⟨?_, ?_, ?_⟩
  · intro cache outcomes hfresh
    obtain ⟨r, s', hacquire, -⟩ := hinv.handleSlotAcquire hfresh outcomes
    exact isSome_of_mem hacquire
  · intro p hp
    have hlive := hinv.owned.live p hp
    have hreleased : s.released = false := by
      cases hrel : s.released with
      | false => rfl
      | true =>
        rw [hinv.owned.gone hrel] at hlive
        cases hlive
    simp [State.destroyBegin, State.find, hreleased, hlive]
  · intro p hp freePush
    obtain ⟨s', hend, -⟩ := hinv.destroyEnd hp freePush
    exact isSome_of_mem hend

end Ccollections.Clrucache.Slots
