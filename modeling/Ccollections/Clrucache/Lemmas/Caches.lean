import Mathlib.Algebra.BigOperators.Group.List.Basic
import Mathlib.Algebra.Order.BigOperators.Group.List
import Mathlib.Tactic.SplitIfs
import Ccollections.Clrucache.Lemmas.Sections

/-!
# The segments of a cache together
-/

namespace Ccollections.Clrucache

open Chashmap Lib List Option

/-! ## The split of the capacity -/

theorem shardCountFor_pos (capacity : Nat) : 0 < shardCountFor capacity := by
  unfold shardCountFor ccacheMaxShards ccacheMinEntriesPerShard
  dsimp only
  split_ifs <;> omega

theorem shardCountFor_le {capacity : Nat} (h : 0 < capacity) : shardCountFor capacity ≤ capacity := by
  unfold shardCountFor ccacheMaxShards ccacheMinEntriesPerShard
  dsimp only
  split_ifs <;> omega

theorem length_segmentCapacities (capacity : Nat) : (segmentCapacities capacity).length = shardCountFor capacity := by
  simp [segmentCapacities]

theorem segmentCapacities_pos {capacity : Nat} (h : 0 < capacity) : ∀ c ∈ segmentCapacities capacity, 1 ≤ c := by
  intro c hc
  obtain ⟨i, -, rfl⟩ := mem_map.mp hc
  have hbase : 0 < capacity / shardCountFor capacity := Nat.div_pos (shardCountFor_le h) (shardCountFor_pos capacity)
  omega

theorem sum_split (base extra n : Nat) :
    ((List.range n).map fun i => base + (if i < extra then 1 else 0)).sum = n * base + min n extra := by
  induction n with
  | zero => simp
  | succ n ih =>
    rw [range_succ, map_append, sum_append, ih, map_singleton, sum_singleton, Nat.succ_mul]
    split <;> omega

theorem sum_segmentCapacities (capacity : Nat) : (segmentCapacities capacity).sum = capacity := by
  have hlt : capacity % shardCountFor capacity < shardCountFor capacity := Nat.mod_lt _ (shardCountFor_pos capacity)
  have hdiv := Nat.div_add_mod capacity (shardCountFor capacity)
  rw [segmentCapacities, sum_split, Nat.min_eq_right hlt.le]
  exact hdiv

/-! ## The segment of a key -/

variable {p : CacheParams} {n i : Nat} {key : List UInt8}

theorem shardFor_lt (hn : 0 < n) (h : p.shardFor n key = some i) : i < n := by
  unfold CacheProcs.shardFor at h
  split at h
  case isTrue => cases h
  case isFalse =>
    split at h
    case isTrue hone =>
      cases h
      exact hn
    case isFalse =>
      cases h
      exact Nat.mod_lt _ hn

theorem exists_shardFor (hn : 0 < n)
    (hsize : fixedWidthDataTypeSize p.keyType = 0 ∨ key.length = fixedWidthDataTypeSize p.keyType) :
    ∃ i < n, p.shardFor n key = some i := by
  have hfits : ¬(fixedWidthDataTypeSize p.keyType ≠ 0 ∧ key.length ≠ fixedWidthDataTypeSize p.keyType) := by
    rintro ⟨hwidth, hlen⟩
    cases hsize with
    | inl hzero => exact hwidth hzero
    | inr heq => exact hlen heq
  cases hshard : p.shardFor n key with
  | none =>
    rw [CacheProcs.shardFor, if_neg hfits] at hshard
    split at hshard <;> cases hshard
  | some i => exact ⟨i, shardFor_lt hn hshard, rfl⟩

theorem shardFor_congr {a b : List UInt8} (h : p.keysEqual a b = true) : p.shardFor n a = p.shardFor n b := by
  unfold CacheProcs.shardFor
  rw [p.length_of_keysEqual h, p.agrees a b h]

/-! ## Calls -/

def holdsAt (calls : List Call) (i : Nat) : List (Role × Nat) :=
  (calls.filter fun c => c.shard = i).flatMap fun c => c.pc.holds c.request

theorem holdsAt_cons (c : Call) (calls : List Call) (i : Nat) :
    holdsAt (c :: calls) i = (if c.shard = i then c.pc.holds c.request else []) ++ holdsAt calls i := by
  unfold holdsAt
  by_cases h : c.shard = i
  · rw [filter_cons_of_pos (by simpa using h), flatMap_cons, if_pos h]
  · rw [filter_cons_of_neg (by simpa using h), if_neg h, nil_append]

theorem holdsAt_perm {calls calls' : List Call} (h : calls'.Perm calls) (i : Nat) :
    (holdsAt calls' i).Perm (holdsAt calls i) := (h.filter _).flatMap_right _

/-- Each segment has its capacity, is in order and has keys of its own, and the calls work on the segments of their
keys. -/
structure CacheOk (p : CacheParams) (capacity : Nat) (shards : List Shard) (calls : List Call) : Prop where
  capacities : shards.map Shard.capacity = segmentCapacities capacity
  segments : ∀ i sh, shards[i]? = some sh → ShardOk p sh (holdsAt calls i)
  routed : ∀ i sh, shards[i]? = some sh → ∀ b ∈ sh.map, p.shardFor shards.length b.1 = some i
  working : ∀ c ∈ calls, p.shardFor shards.length c.key = some c.shard

variable {capacity : Nat} {shards : List Shard} {calls calls' : List Call}

theorem CacheOk.perm (h : CacheOk p capacity shards calls) (hperm : calls'.Perm calls) : CacheOk p capacity shards calls' where
  capacities := h.capacities
  segments := fun i sh hsh => (h.segments i sh hsh).perm (holdsAt_perm hperm i)
  routed := h.routed
  working := fun c hc => h.working c (hperm.mem_iff.mp hc)

theorem CacheOk.length_pos (h : CacheOk p capacity shards calls) : 0 < shards.length := by
  rw [← length_map Shard.capacity, h.capacities, length_segmentCapacities]
  exact shardCountFor_pos capacity

theorem CacheOk.create (hcapacity : 0 < capacity) :
    CacheOk p capacity (Cache.create capacity).shards (Cache.create capacity).calls where
  capacities := by
    have hid : Shard.capacity ∘ Shard.create = id := rfl
    rw [Cache.create, List.map_map, hid, List.map_id]
  segments := by
    intro i sh hsh
    obtain ⟨c, hc, rfl⟩ := List.mem_map.mp (List.mem_of_getElem? hsh)
    exact ⟨Shaped.create (segmentCapacities_pos hcapacity c hc), fun e h hmem => by cases hmem⟩
  routed := by
    intro i sh hsh b hb
    obtain ⟨c, hc, rfl⟩ := List.mem_map.mp (List.mem_of_getElem? hsh)
    cases hb
  working := fun c hc => by cases hc

theorem CacheOk.enter (h : CacheOk p capacity shards calls) (request : Request)
    (hshard : p.shardFor shards.length key = some i) :
    CacheOk p capacity shards ({ shard := i, key := key, request := request, pc := .again } :: calls) where
  capacities := h.capacities
  segments := by
    intro j sh hsh
    rw [holdsAt_cons]
    split <;> exact h.segments j sh hsh
  routed := h.routed
  working := by
    intro c hc
    cases mem_cons.mp hc with
    | inl heq => exact heq ▸ hshard
    | inr hold => exact h.working c hold

theorem CacheOk.advance {call : Call} {rest : List Call} {s : Cache} (h : CacheOk p capacity s.shards (call :: rest))
    (answers : Answers) :
    ∃ s' ret, s.advance p.toCacheProcs call rest answers = some (s', ret) ∧ CacheOk p capacity s'.shards s'.calls := by
  have hrouted := h.working call mem_cons_self
  have hlt : call.shard < s.shards.length := shardFor_lt h.length_pos hrouted
  have hsh : s.shards[call.shard]? = some s.shards[call.shard] := List.getElem?_eq_getElem hlt
  have hok := h.segments _ _ hsh
  rw [holdsAt_cons, if_pos rfl] at hok
  obtain ⟨sh', out, hadvance, hok', hkept⟩ := hok.advance answers
  have hself : (s.shards.set call.shard sh')[call.shard]? = some sh' := List.getElem?_set_self hlt
  have hother : ∀ j, j ≠ call.shard → (s.shards.set call.shard sh')[j]? = s.shards[j]? := fun j hj =>
    List.getElem?_set_ne (Ne.symm hj)
  have hcapacities : (s.shards.set call.shard sh').map Shard.capacity = segmentCapacities capacity := by
    rw [map_set, hkept.capacity, ← h.capacities]
    have hmapped : call.shard < (s.shards.map Shard.capacity).length := by rwa [length_map]
    have hget : (s.shards.map Shard.capacity)[call.shard] = s.shards[call.shard].capacity := by
      rw [getElem_map]
    rw [← hget, set_getElem_self]
  have hroutes : ∀ j sh, (s.shards.set call.shard sh')[j]? = some sh → ∀ b ∈ sh.map,
      p.shardFor (s.shards.set call.shard sh').length b.1 = some j := by
    intro j sh hj b hb
    rw [length_set]
    by_cases heq : j = call.shard
    · subst heq
      rw [hself] at hj
      cases hj
      cases hkept.map b hb with
      | inl hold => exact h.routed _ _ hsh b hold
      | inr hkey => exact hkey ▸ hrouted
    · rw [hother j heq] at hj
      exact h.routed j sh hj b hb
  -- the calls after the section, with the references they have
  have hshards : ∀ calls : List Call, (∀ j, holdsAt calls j =
      (if call.shard = j then out.holds call.request else []) ++ holdsAt rest j) →
      ∀ j sh, (s.shards.set call.shard sh')[j]? = some sh → ShardOk p sh (holdsAt calls j) := by
    intro calls hcalls j sh hj
    rw [hcalls j]
    by_cases heq : j = call.shard
    · subst heq
      rw [hself] at hj
      cases hj
      rw [if_pos rfl]
      exact hok'
    · rw [hother j heq] at hj
      rw [if_neg (Ne.symm heq), nil_append]
      have hold := h.segments j sh hj
      rwa [holdsAt_cons, if_neg (Ne.symm heq), nil_append] at hold
  have hrest : ∀ c ∈ rest, p.shardFor (s.shards.set call.shard sh').length c.key = some c.shard := by
    intro c hc
    rw [length_set]
    exact h.working c (mem_cons_of_mem _ hc)
  simp only [Cache.advance, hsh, bind_eq_bind, bind_some, hadvance]
  cases out with
  | done ret value =>
    refine ⟨_, _, rfl, hcapacities, hshards rest fun j => ?_, hroutes, hrest⟩
    split <;> rfl
  | goes pc =>
    refine ⟨_, _, rfl, hcapacities, hshards _ fun j => holdsAt_cons _ _ _, hroutes, fun c hc => ?_⟩
    cases mem_cons.mp hc with
    | inl heq =>
      rw [heq, length_set]
      exact hrouted
    | inr hold => exact hrest c hold

theorem CacheOk.step {s s' : Cache} {a : Act} {ret : Option (RetVal × Option (List UInt8))}
    (h : CacheOk p capacity s.shards s.calls) (hstep : s.step p.toCacheProcs a = some (s', ret)) :
    CacheOk p capacity s'.shards s'.calls := by
  cases a with
  | call key request answers =>
    simp only [Cache.step] at hstep
    split at hstep
    case isTrue =>
      cases hstep
      exact h
    case isFalse =>
      split at hstep
      case h_1 =>
        cases hstep
        exact h
      case h_2 i bufSize hshard _ =>
        obtain ⟨s₁, r, hadvance, hok⟩ := (h.enter (.get bufSize) hshard).advance answers
        rw [hadvance] at hstep
        cases hstep
        exact hok
      case h_3 i value hshard _ =>
        split at hstep
        case isTrue =>
          cases hstep
          exact h
        case isFalse =>
          obtain ⟨s₁, r, hadvance, hok⟩ := (h.enter (.set value) hshard).advance answers
          rw [hadvance] at hstep
          cases hstep
          exact hok
  | go j answers =>
    simp only [Cache.step, bind_eq_bind] at hstep
    obtain ⟨call, hcall, hadvance⟩ := bind_eq_some_iff.mp hstep
    have hperm : (call :: s.calls.eraseIdx j).Perm s.calls := by
      obtain ⟨hlt, heq⟩ := List.getElem?_eq_some_iff.mp hcall
      exact heq ▸ getElem_cons_eraseIdx_perm hlt
    obtain ⟨s₁, r, hadvance', hok⟩ := (h.perm hperm).advance answers
    rw [hadvance'] at hadvance
    cases hadvance
    exact hok

/-! ## Keys and live entries of the whole cache -/

theorem CacheOk.distinct (h : CacheOk p capacity shards calls) :
    OrderedMap.Distinct p.keysEqual (shards.flatMap Shard.map) := by
  refine pairwise_flatMap.mpr ⟨?_, ?_⟩
  · intro sh hsh
    obtain ⟨i, hi⟩ := List.getElem?_of_mem hsh
    exact (h.segments i sh hi).shaped.distinct
  · apply pairwise_iff_getElem.mpr
    intro i j hi hj hlt a ha b hb
    have hra := h.routed i _ (List.getElem?_eq_getElem hi) a ha
    have hrb := h.routed j _ (List.getElem?_eq_getElem hj) b hb
    cases heq : p.keysEqual a.1 b.1 with
    | false => rfl
    | true =>
      rw [shardFor_congr heq, hrb] at hra
      cases hra
      exact absurd hlt (Nat.lt_irrefl _)

def Shard.liveCount (sh : Shard) : Nat := sh.map.countP fun b => (sh.entries b.2).any fun entry => entry.value.isSome

theorem Shaped.liveCount_le {sh : Shard} (h : Shaped p sh) : sh.liveCount ≤ sh.capacity := by
  have hids : ((sh.map.filter fun b => (sh.entries b.2).any fun entry => entry.value.isSome).map Prod.snd).Nodup := by
    apply List.Nodup.map_on
    · intro a ha b hb hab
      obtain ⟨ea, hea, hka, -⟩ := h.bound a (mem_of_mem_filter ha)
      obtain ⟨eb, heb, hkb, -⟩ := h.bound b (mem_of_mem_filter hb)
      rw [hab, heb] at hea
      cases hea
      exact Prod.ext (hka.symm.trans hkb) hab
    · refine List.Nodup.filter _ (List.Pairwise.imp ?_ h.distinct)
      intro a b hab heq
      rw [heq, p.keysEqual_refl] at hab
      cases hab
  have hsub : (sh.map.filter fun b => (sh.entries b.2).any fun entry => entry.value.isSome).map Prod.snd ⊆ sh.lru := by
    intro e he
    obtain ⟨b, hb, rfl⟩ := mem_map.mp he
    obtain ⟨hb, hlive⟩ := mem_filter.mp hb
    obtain ⟨entry, hentry, -, hev⟩ := h.bound b hb
    rw [hentry] at hlive
    exact (h.lru b.2).mpr ⟨entry, hentry, hev, hlive⟩
  have hle := (subperm_of_subset hids hsub).length_le
  rw [length_map, ← countP_eq_length_filter, ← h.size] at hle
  exact hle.trans h.room

theorem CacheOk.sum_liveCount_le (h : CacheOk p capacity shards calls) : (shards.map Shard.liveCount).sum ≤ capacity := by
  calc (shards.map Shard.liveCount).sum
    _ ≤ (shards.map Shard.capacity).sum := by
        apply sum_le_sum
        intro sh hsh
        obtain ⟨i, hi⟩ := List.getElem?_of_mem hsh
        exact (h.segments i sh hi).shaped.liveCount_le
    _ = capacity := by rw [h.capacities, sum_segmentCapacities]

end Ccollections.Clrucache
