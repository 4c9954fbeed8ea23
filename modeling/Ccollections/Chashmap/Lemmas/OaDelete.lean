import Ccollections.Chashmap.Lemmas.OaOps

/-!
# Delete, reset and creation of an open-addressing table
-/

namespace Ccollections.Chashmap
open Lib Function List Option

variable {p : OaParams} {map : OpenAddrMap}

/-! ## The backward shift -/

/-- What the backward shift leaves: every entry still there, reached without a hole, no further from home. -/
structure Closed (p : OaParams) (mode : HashMode) (k span : Nat) (slots slots' : Nat → Option OaSlot) : Prop where
  reaches : Reaches (2 ^ k) (slotHome p mode (2 ^ k)) slots' span
  perm : (entries (2 ^ k) slots').Perm (entries (2 ^ k) slots)
  within : ∀ bound, Within (2 ^ k) (slotHome p mode (2 ^ k)) slots bound →
    Within (2 ^ k) (slotHome p mode (2 ^ k)) slots' bound

/-- A step without a move comes nearer to the hole, and a move lowers the sum of the displacements. -/
theorem oaBackwardShiftWalk_spec {mode : HashMode} {k span : Nat} (hk : 4 ≤ k) (hk' : k ≤ 59) (hspan : span ≤ 2 ^ k) :
    (fuel : Nat) → {slots : Nat → Option OaSlot} → {hole m : Nat} →
    Shifting (2 ^ k) (slotHome p mode (2 ^ k)) span slots hole m →
    totalDisplacement (2 ^ k) (slotHome p mode (2 ^ k)) slots * 2 ^ k + (2 ^ k - m) ≤ fuel →
    ∃ slots', oaBackwardShiftWalk p (2 ^ k) mode span fuel slots hole ((hole + m) % 2 ^ k) = some slots' ∧
      Closed p mode k span slots slots'
  | 0, slots, hole, m, hs, hfuel => by
    have := hs.within
    omega
  | fuel + 1, slots, hole, m, hs, hfuel => by
    have hwithin := hs.within
    have hpos := Nat.two_pow_pos k
    unfold oaBackwardShiftWalk
    dsimp only
    rw [nextIndex_add]
    cases hslot : slots ((hole + (m + 1)) % 2 ^ k) with
    | none => exact ⟨slots, rfl, hs.done hspan (.inl hslot), .refl _, fun _ hw => hw⟩
    | some slot =>
      -- The hole is empty, so the walk is not back at it.
      have hm : m + 1 < 2 ^ k := by
        by_contra hge
        rw [show m + 1 = 2 ^ k by omega, Nat.add_mod_right, Nat.mod_eq_of_lt hs.lt, hs.empty] at hslot
        cases hslot
      have hh := slotHome_lt p mode hk hk' slot
      obtain ⟨d, hd, hat, -⟩ := hs.reach _ slot (Nat.mod_lt _ hpos) hslot
      have hdisp : maskedSub (2 ^ k) ((hole + (m + 1)) % 2 ^ k) (hashIndexFor (hashKeyData p mode slot.keyData) (2 ^ k)) = d := by
        rw [← hat]
        exact maskedSub_eq (by omega) hh (by omega)
      dsimp only
      rw [maskedSub_eq (by omega) hs.lt hm, hdisp]
      by_cases hend : m + 1 ≥ span
      · rw [if_pos hend]
        exact ⟨slots, rfl, hs.done hspan (.inr hend), .refl _, fun _ hw => hw⟩
      · rw [if_neg hend]
        by_cases hmove : d ≥ m + 1
        · rw [if_pos hmove]
          have hlt := Nat.mod_lt (hole + (m + 1)) hpos
          have hsum := @totalDisplacement_move _ _ (slotHome p mode (2 ^ k)) _ _ _ _ hlt hs.lt hslot hs.empty
          have hto := cyclicDist_eq (h := slotHome p mode (2 ^ k) slot) (show d - (m + 1) < 2 ^ k by omega)
          have hfrom := cyclicDist_eq (h := slotHome p mode (2 ^ k) slot) (show d < 2 ^ k by omega)
          rw [hat] at hfrom
          rw [hs.move_home hat hmove] at hto
          rw [hto, hfrom] at hsum
          obtain ⟨slots', hwalk, hc⟩ := oaBackwardShiftWalk_spec hk hk' hspan fuel
            (hs.move hspan hslot hat hmove hd) (by
              have hmul := congrArg (· * 2 ^ k) hsum
              simp only [Nat.add_mul, Nat.sub_mul] at hmul
              have hle : (m + 1) * 2 ^ k ≤ d * 2 ^ k := Nat.mul_le_mul_right _ hmove
              have hone : (m + 1) * 1 ≤ (m + 1) * 2 ^ k := Nat.mul_le_mul_left _ hpos
              omega)
          simp only [Nat.add_zero, Nat.mod_mod] at hwalk
          refine ⟨slots', hwalk, hc.reaches, hc.perm.trans (entries_move hlt hs.lt hslot hs.empty), fun bound hw => ?_⟩
          exact hc.within bound (hs.move_within hw hslot hat hmove (by omega))
        · rw [if_neg hmove]
          exact oaBackwardShiftWalk_spec hk hk' hspan fuel (hs.stay hslot hat (by omega) (by omega)) (by omega)

theorem closeGap_spec (hm : TableOk p map) {index : Nat} (hlt : index < map.capacity) :
    ∃ map', (if (update map.slots index none (nextIndex map.capacity index)).isSome then
        oaBackwardShiftCloseGap p { map with slots := update map.slots index none } index
      else some { map with slots := update map.slots index none }) = some map' ∧
      (∃ slots', map' = { map with slots := slots' }) ∧
      Reaches map.capacity (slotHome p map.hashMode map.capacity) map'.slots map.probeSpan ∧
      (entries map.capacity map'.slots).Perm (entries map.capacity (update map.slots index none)) ∧
      (FastOk p map → FastOk p map') := by
  obtain ⟨k, hk, hk', hcap⟩ := hm.capacity_pow
  have hs := hm.reaches.shifting hlt hm.span_pos
  by_cases hnext : (update map.slots index none (nextIndex map.capacity index)).isSome
  · rw [if_pos hnext]
    have hspan := hm.span_le
    rw [hcap] at hs hspan hlt
    have htotal := @totalDisplacement_le _ (2 ^ k) (slotHome p map.hashMode (2 ^ k)) (update map.slots index none)
    obtain ⟨slots', hwalk, hc⟩ := oaBackwardShiftWalk_spec hk hk' hspan (shiftFuel (2 ^ k)) hs (by
      have hmul := Nat.mul_le_mul_right (2 ^ k) htotal
      rw [shiftFuel, Nat.add_mul]
      omega)
    rw [Nat.add_zero, Nat.mod_eq_of_lt hlt, ← hcap] at hwalk
    simp only [oaBackwardShiftCloseGap, hwalk, bind_eq_bind, bind_some]
    refine ⟨_, rfl, ⟨slots', rfl⟩, by rw [hcap]; exact hc.reaches, by rw [hcap]; exact hc.perm, fun hfast hmode => ?_⟩
    obtain hmode : map.hashMode = .fast := hmode
    have hw := (hfast hmode).clear (i := index)
    rw [hmode] at hc
    rw [hcap] at hw
    show Within map.capacity _ slots' (oaInsertCap map.capacity + 1)
    rw [hcap]
    exact hc.within _ hw
  · rw [if_neg hnext]
    refine ⟨_, rfl, ⟨_, rfl⟩, ?_, .refl _, fun hfast hmode => (hfast hmode).clear⟩
    refine hs.done hm.span_le (.inl ?_)
    rw [hcap, nextIndex_eq, ← hcap] at hnext
    exact not_isSome_iff_eq_none.mp hnext

/-! ## Delete -/

inductive DeleteOutcome (map : OpenAddrMap) (key : List UInt8) : OpenAddrMap → RetVal → Prop
  | deleted {map' slot} (hkey : slot.keyData = oaWidenKey key) (hlive : map.live.Perm (slot :: map'.live)) :
      DeleteOutcome map key map' .success
  | missed (habsent : Absent map (oaWidenKey key)) : DeleteOutcome map key map .keyNotFound

theorem TableOk.removed (hm : TableOk p map) {index : Nat} {slot : OaSlot} {slots' : Nat → Option OaSlot}
    (hlt : index < map.capacity) (hslot : map.slots index = some slot)
    (hreach : Reaches map.capacity (slotHome p map.hashMode map.capacity) slots' map.probeSpan)
    (hperm : (entries map.capacity slots').Perm (entries map.capacity (update map.slots index none))) :
    TableOk p { map with slots := slots', count := map.count - 1 } ∧ map.live.Perm (slot :: entries map.capacity slots') := by
  have hlive : map.live.Perm (slot :: entries map.capacity slots') := (entries_clear hlt hslot).trans (hperm.symm.cons slot)
  refine ⟨⟨hm.capacity_pow, hm.span_ge, hm.span_le, ?_, ?_, hreach, ?_⟩, hlive⟩
  · have hlen := hlive.length_eq
    rw [length_cons] at hlen
    show map.count - 1 = (entries map.capacity slots').length
    rw [hm.count, hlen, Nat.add_sub_cancel]
  · have hnodup := ((hlive.map OaSlot.keyData).nodup_iff).mp hm.nodup
    exact (nodup_cons.mp hnodup).2
  · exact fun u hu => hm.slots_ok u (hlive.mem_iff.mpr (mem_cons_of_mem _ hu))

theorem oaDelete_spec (hm : TableOk p map) {key : List UInt8} (hkey : key.length = p.keySize) :
    ∃ map' ret, oaDelete p map key = some (map', ret) ∧ Kept p map map' ∧ DeleteOutcome map key map' ret := by
  have hend := hm.spanProbe (oaWidenKey key) (hm.hash_lt (hashKeyData p map.hashMode key)) map.probeSpan
  have habsent := hend.absent hm hkey (Nat.le_refl _)
  unfold oaDelete
  dsimp only
  generalize spanProbe map (oaWidenKey key) map.probeSpan (hashIndexFor (hashKeyData p map.hashMode key) map.capacity) = r
    at hend habsent
  cases hend with
  | empty hd hslot hmiss => exact ⟨_, _, rfl, .refl hm, .missed (habsent nofun)⟩
  | exhausted hmiss => exact ⟨_, _, rfl, .refl hm, .missed (habsent nofun)⟩
  | hit hd hslot hk hmiss =>
    rename_i d slot
    have hlt := Nat.mod_lt (hashIndexFor (hashKeyData p map.hashMode key) map.capacity + d) hm.capacity_pos
    obtain ⟨map₁, hgap, ⟨slots', rfl⟩, hreach, hperm, hfast⟩ := closeGap_spec hm hlt
    obtain ⟨htable, hlive⟩ := hm.removed hlt hslot hreach hperm
    dsimp only
    rw [hgap]
    simp only [bind_eq_bind, bind_some]
    have hkept : Kept p map { map with slots := slots', count := map.count - 1 } := ⟨htable, fun _ hf => hfast hf⟩
    by_cases hshrink : map.count - 1 < map.capacity >>> 2 ∧ map.capacity > minimumAllowedBucketArraySize
    · rw [if_pos hshrink]
      obtain ⟨k, hk4, hk', hcap⟩ := hm.capacity_pow
      have hk5 : 5 ≤ k := by
        by_contra hk5
        obtain rfl : k = 4 := by omega
        rw [hcap, minimumAllowedBucketArraySize] at hshrink
        omega
      have hhalf : map.capacity / 2 = 2 ^ (k - 1) := by
        rw [hcap, ← Nat.pow_div (by omega) Nat.two_pos, Nat.pow_one]
      have hroom : ({ map with slots := slots', count := map.count - 1 } : OpenAddrMap).live.length ≤ 2 ^ (k - 1) := by
        rw [← htable.count, ← hhalf]
        have hs := hshrink.1
        rw [Nat.shiftRight_eq_div_pow] at hs
        show map.count - 1 ≤ map.capacity / 2
        omega
      obtain ⟨map₂, ret, hrebuild, hr⟩ := oaRebuild_spec map.hashMode htable (by omega) hroom
      rw [hhalf, hrebuild]
      simp only [bind_some]
      exact ⟨map₂, .success, rfl, hkept.trans hr.kept, .deleted hk (hlive.trans (hr.same.perm.symm.cons slot))⟩
    · rw [if_neg hshrink]
      exact ⟨_, _, rfl, hkept, .deleted hk hlive⟩

/-! ## Reset and creation -/

theorem tableOk_empty {k : Nat} (hk : 4 ≤ k) (hk' : k ≤ 59) (hcap : map.capacity = 2 ^ k) (hslots : map.slots = fun _ => none)
    (hspan : map.probeSpan = oaMinProbeSpan map.capacity) (hcount : map.count = 0) :
    TableOk p map ∧ FastOk p map ∧ map.live = [] := by
  have hlive : map.live = [] := by rw [OpenAddrMap.live, hslots, entries_none]
  refine ⟨⟨⟨k, hk, hk', hcap⟩, Nat.le_of_eq hspan.symm, hspan ▸ oaMinProbeSpan_le, ?_, ?_, ?_, ?_⟩, ?_, hlive⟩
  · rw [hcount, hlive, length_nil]
  · rw [hlive]
    exact nodup_nil
  · rw [hslots]
    exact reaches_none
  · rw [hlive]
    exact fun _ h => absurd h not_mem_nil
  · intro _
    rw [hslots]
    exact reaches_none.within

theorem oaReset_spec (hm : TableOk p map) {newCapacity : Nat} (hcap : newCapacity = 0 ∨ ∃ k, 4 ≤ k ∧ newCapacity = 2 ^ k) :
    TableOk p (oaReset p map newCapacity).1 ∧ FastOk p (oaReset p map newCapacity).1 ∧ (oaReset p map newCapacity).1.live = [] := by
  obtain ⟨k₀, hk₀, hk₀', hcap₀⟩ := hm.capacity_pow
  unfold oaReset
  split
  · exact tableOk_empty hk₀ hk₀' hcap₀ rfl rfl rfl
  · rename_i hne
    obtain ⟨k, hk, rfl⟩ := hcap.resolve_left (fun h => hne (.inl h))
    obtain ⟨n, ok, halloc, hle, -⟩ := oaAllocBlock_spec (p := p) map (2 ^ k)
    rw [halloc]
    cases ok with
    | false => exact tableOk_empty hk₀ hk₀' hcap₀ rfl rfl rfl
    | true => exact tableOk_empty hk (pow_le_of_alloc (hle rfl)) rfl rfl rfl rfl

theorem rounded_size {n : Nat} (h16 : 16 ≤ n) (hle : ccolFindNearestGtePowerOfTwo n ≤ ccolMaxElemCount) :
    ∃ k, 4 ≤ k ∧ ccolFindNearestGtePowerOfTwo n = 2 ^ k := by
  have hn : n ≤ ccolMaxElemCount := by
    by_contra hgt
    rw [ccolFindNearestGtePowerOfTwo_invalid (by omega)] at hle
    exact absurd hle (by decide)
  obtain ⟨k, -, heq, hge, -⟩ := ccolFindNearestGtePowerOfTwo_spec hn
  refine ⟨k, ?_, heq⟩
  by_contra hk
  have := Nat.pow_lt_pow_right (a := 2) (by omega) (show k < 4 by omega)
  omega

theorem chashmapReset_spec (hm : TableOk p map) (n : UInt64) :
    TableOk p (chashmapReset p map n).1 ∧ FastOk p (chashmapReset p map n).1 ∧ (chashmapReset p map n).1.live = [] := by
  unfold chashmapReset
  dsimp only
  split
  · exact oaReset_spec hm (.inr ⟨4, by omega, rfl⟩)
  · rename_i hsmall
    split
    · rename_i hpos
      split
      · exact oaReset_spec hm (.inl rfl)
      · rename_i hle
        exact oaReset_spec hm (.inr (rounded_size (by unfold minimumAllowedBucketArraySize at hsmall; omega) (by omega)))
    · exact oaReset_spec hm (.inl (by omega))

theorem chmapCreateImpl_spec {n : UInt64} {fate : Bool} (h : chmapCreateImpl p n fate = some map) :
    TableOk p map ∧ FastOk p map ∧ map.live = [] := by
  unfold chmapCreateImpl at h
  split at h
  · cases h
  · dsimp only at h
    generalize hsize : (if n.toNat ≤ minimumAllowedBucketArraySize then minimumAllowedBucketArraySize
      else ccolFindNearestGtePowerOfTwo n.toNat) = size at h
    by_cases hbig : size > ccolMaxElemCount
    · rw [if_pos hbig] at h
      cases h
    · rw [if_neg hbig] at h
      have hpow : ∃ k, 4 ≤ k ∧ size = 2 ^ k := by
        split at hsize
        · exact ⟨4, by omega, hsize.symm⟩
        · rename_i hmin
          subst hsize
          exact rounded_size (by unfold minimumAllowedBucketArraySize at hmin; omega) (Nat.not_lt.mp hbig)
      obtain ⟨k, hk, rfl⟩ := hpow
      obtain ⟨a, ok, halloc, hle, -⟩ := oaAllocBlock_spec (p := p)
        { slots := fun _ => none, capacity := 2 ^ k, probeSpan := oaMinProbeSpan (2 ^ k), count := 0, hashMode := .fast,
          windowBound := 65535, insertWindow := chmapWindowStart, allocs := 0, windowLog := [] } (2 ^ k)
      rw [halloc] at h
      cases fate with
      | false => cases h
      | true =>
        cases ok with
        | false => cases h
        | true =>
          cases h
          exact tableOk_empty hk (pow_le_of_alloc (hle rfl)) rfl rfl rfl rfl

end Ccollections.Chashmap
