import Ccollections.Chttpserver.SlowClient

/-!
# The limits on slow clients are exact
-/

namespace Ccollections.Chttpserver.SlowClient

/-! ## Clocks -/

variable {now nowSlow before limit : Timespec}

theorem nsBetween_eq (later earlier : Timespec) : nsBetween later earlier = later.ns - earlier.ns := by
  simp only [nsBetween, Timespec.ns]
  omega

theorem timespecAddMs_ns (t : Timespec) (ms : Nat) : (timespecAddMs t ms).ns = t.ns + ms * 1000000 := by
  simp only [timespecAddMs]
  split <;> simp only [Timespec.ns] <;> omega

theorem timespecAddMs_normal {t : Timespec} (h : t.Normal) (ms : Nat) : (timespecAddMs t ms).Normal := by
  obtain ⟨hlow, hhigh⟩ := h
  simp only [timespecAddMs]
  split <;> simp only [Timespec.Normal] <;> omega

theorem timespecReached_iff (hnow : now.Normal) (hlimit : limit.Normal) : timespecReached now limit = true ↔ limit.ns ≤ now.ns := by
  obtain ⟨hlow, hhigh⟩ := hnow
  obtain ⟨hlow', hhigh'⟩ := hlimit
  simp only [timespecReached, Timespec.ns, Bool.or_eq_true, Bool.and_eq_true, decide_eq_true_eq]
  omega

theorem tdiv_bounds (x : Int) :
    (0 ≤ x → 1000000 * x.tdiv 1000000 ≤ x ∧ x < 1000000 * x.tdiv 1000000 + 1000000) ∧
      (x ≤ 0 → x ≤ 1000000 * x.tdiv 1000000 ∧ 1000000 * x.tdiv 1000000 < x + 1000000) := by
  constructor
  · intro h
    rw [Int.tdiv_eq_ediv_of_nonneg h]
    omega
  · intro h
    have hneg : x.tdiv 1000000 = -(-x / 1000000) := by
      rw [← Int.tdiv_eq_ediv_of_nonneg (by omega), Int.neg_tdiv, Int.neg_neg]
    rw [hneg]
    omega

theorem msSinceCeil_le (now before : Timespec) : now.ns - before.ns ≤ msSinceCeil now before * 1000000 := by
  simp only [msSinceCeil, msCeilOfNs, nsBetween_eq]
  have hup := tdiv_bounds (now.ns - before.ns + 999999)
  have hdown := tdiv_bounds (now.ns - before.ns)
  split <;> omega

theorem msSinceCeil_lt (h : before.ns < now.ns) : msSinceCeil now before * 1000000 < now.ns - before.ns + 1000000 := by
  simp only [msSinceCeil, msCeilOfNs, nsBetween_eq]
  rw [if_pos (by omega)]
  have hup := tdiv_bounds (now.ns - before.ns + 999999)
  omega

theorem msSinceCeil_pos (h : before.ns < now.ns) : 0 < msSinceCeil now before := by
  have hle := msSinceCeil_le now before
  omega

theorem msSince_add (h : before.ns ≤ now.ns) (ms : Nat) : msSince (timespecAddMs now ms) before = msSince now before + ms := by
  simp only [msSince, nsBetween_eq, timespecAddMs_ns]
  have hold := tdiv_bounds (now.ns - before.ns)
  have hnew := tdiv_bounds (now.ns + ms * 1000000 - before.ns)
  omega

theorem msSince_le {later before' : Timespec} {ms : Int} (hms : 0 ≤ ms) (h : later.ns - now.ns ≤ (before'.ns - before.ns) + ms * 1000000) :
    msSince later before' - ms ≤ msSince now before := by
  simp only [msSince, nsBetween_eq]
  have hold := tdiv_bounds (now.ns - before.ns)
  have hnew := tdiv_bounds (later.ns - before'.ns)
  omega

/-! ## The rate floor -/

variable {srv : Settings} {conn : Conn} {k : Kernel}

theorem rateBelowFloor_iff (hon : rateOn srv conn = true) (hbytes : conn.rateBytes ≤ uint64Max) :
    rateBelowFloor srv conn now 0 = true ↔ floorRoom srv conn now < 0 := by
  have hmod : (conn.rateBytes + 0) % (uint64Max + 1) = conn.rateBytes := Nat.mod_eq_of_lt (Nat.lt_succ_of_le hbytes)
  simp only [rateBelowFloor, hon, hmod, floorRoom, Bool.true_and, decide_eq_true_eq]
  omega

theorem floorRoom_add (h : conn.rateStart.ns ≤ now.ns) (ms : Nat) :
    floorRoom srv conn (timespecAddMs now ms) = floorRoom srv conn now - ms := by
  simp only [floorRoom, rateElapsedMs, msSince_add h]
  omega

theorem checked_eq_some {x y : Int} (h : checked x = some y) : y = x := by
  rw [checked] at h
  split at h
  · exact (Option.some.inj h).symm
  · cases h

/-- Where nothing overflows, `left` is the time left and the millisecond that crosses the floor. -/
theorem floorLeft_eq {left : Int} (h : floorLeft srv conn now = some left) : left = floorRoom srv conn now + 1 := by
  simp only [floorLeft, rateElapsedChecked, nsBetweenChecked, Option.bind_eq_bind, Option.bind_eq_some_iff] at h
  obtain ⟨elapsed, ⟨ns, ⟨sec, hsec, ns', hns', nsec, hnsec, hns⟩, helapsed⟩, room, hroom, hleft⟩ := h
  rw [checked_eq_some hleft, checked_eq_some hroom, checked_eq_some helapsed, checked_eq_some hns, checked_eq_some hns',
    checked_eq_some hsec, checked_eq_some hnsec]
  rfl

/-- `_rate_floor_shrink` refuses below the floor. Otherwise its wait ends when the floor would be crossed, or after the
longest wait. -/
structure ShrinksToFloor (srv : Settings) (now : Timespec) (timeoutMs : Nat) (answer : Bool × Conn × Nat) : Prop where
  refuses : answer.1 = false ↔ rateBelowFloor srv answer.2.1 now 0 = true
  allows : answer.1 = true → answer.2.2 = timeoutMs ∧ srv.minRateBps = uintMax ∨
    ∃ left, 0 < left ∧ answer.2.2 = (if timeoutMs = 0 ∨ min left uintMax < timeoutMs then min left uintMax else timeoutMs) ∧
      rateBelowFloor srv answer.2.1 (timespecAddMs now left) 0 = true ∧
      ∀ ms < left, rateBelowFloor srv answer.2.1 (timespecAddMs now ms) 0 = false

theorem rateFloorShrink_exact {start : Timespec} {timeoutMs : Nat} {answer : Bool × Conn × Nat}
    (hbytes : conn.rateBytes ≤ uint64Max) (hnow : (floorPhase srv conn start).rateStart.ns ≤ now.ns)
    (h : rateFloorShrink srv conn start now timeoutMs = some answer) : ShrinksToFloor srv now timeoutMs answer := by
  have hsmall : (floorPhase srv conn start).rateBytes ≤ uint64Max := by
    rw [floorPhase]
    split
    · exact hbytes
    · exact Nat.zero_le _
  by_cases hoff : srv.minRateBps = uintMax
  · rw [rateFloorShrink, if_pos hoff] at h
    cases h
    refine ⟨?_, fun _ => .inl ⟨rfl, hoff⟩⟩
    simp [rateBelowFloor, rateOn, hoff]
  · have hon : rateOn srv (floorPhase srv conn start) = true := by
      have hactive : (floorPhase srv conn start).rateActive = true := by
        rw [floorPhase]
        split
        · exact (‹_ ∨ _›).resolve_left hoff
        · rfl
      simp [rateOn, hoff, hactive]
    have hbelow : ∀ ms : Nat, rateBelowFloor srv (floorPhase srv conn start) (timespecAddMs now ms) 0 = true ↔
        floorRoom srv (floorPhase srv conn start) now < ms := by
      intro ms
      rw [rateBelowFloor_iff hon hsmall, floorRoom_add hnow]
      omega
    rw [rateFloorShrink, if_neg hoff] at h
    cases hleft : floorLeft srv (floorPhase srv conn start) now with
    | none => simp [hleft] at h
    | some left =>
      simp only [hleft] at h
      have heq := floorLeft_eq hleft
      by_cases hzero : left ≤ 0
      · rw [if_pos hzero] at h
        cases h
        exact ⟨iff_of_true rfl ((rateBelowFloor_iff hon hsmall).mpr (by omega)), nofun⟩
      · rw [if_neg hzero] at h
        cases h
        have hkept : ¬rateBelowFloor srv (floorPhase srv conn start) now 0 = true :=
          (rateBelowFloor_iff hon hsmall).not.mpr (by omega)
        refine ⟨iff_of_false (by simp) hkept, fun _ => .inr ?_⟩
        refine ⟨left.toNat, by omega, rfl, (hbelow _).mpr (by omega), fun ms hms => ?_⟩
        exact Bool.eq_false_iff.mpr fun hms' => absurd ((hbelow ms).mp hms') (by omega)

def Reading (t : Timespec) : Prop := t.Normal ∧ 0 ≤ t.sec ∧ t.sec < 8589934592

theorem rateAllowedMs_range (rate grace bytes : Nat) (hgrace : grace ≤ uintMax) :
    0 ≤ rateAllowedMs rate grace bytes ∧ rateAllowedMs rate grace bytes ≤ llongMax := by
  simp only [rateAllowedMs, llongMax, uintMax] at hgrace ⊢
  split <;> omega

theorem checked_of_fits {x : Int} (h : Fits x) : checked x = some x := if_pos h

theorem rateElapsedChecked_eq (hnow : Reading now) (hstart : Reading conn.rateStart)
    (hpaused : 0 ≤ conn.ratePausedMs ∧ conn.ratePausedMs ≤ 4611686018427387904) :
    rateElapsedChecked conn now = some (rateElapsedMs conn now) ∧ -9223372036854775808 ≤ rateElapsedMs conn now ∧
      rateElapsedMs conn now ≤ 8589934592000 := by
  obtain ⟨⟨hn₁, hn₂⟩, hs₁, hs₂⟩ := hnow
  obtain ⟨⟨hn₃, hn₄⟩, hs₃, hs₄⟩ := hstart
  have hms := tdiv_bounds (nsBetween now conn.rateStart)
  simp only [nsBetween] at hms
  have hsec := checked_of_fits (x := now.sec - conn.rateStart.sec) (by simp only [Fits, llongMax]; omega)
  have hns := checked_of_fits (x := (now.sec - conn.rateStart.sec) * 1000000000) (by simp only [Fits, llongMax]; omega)
  have hnsec := checked_of_fits (x := now.nsec - conn.rateStart.nsec) (by simp only [Fits, llongMax]; omega)
  have hsum := checked_of_fits (x := (now.sec - conn.rateStart.sec) * 1000000000 + (now.nsec - conn.rateStart.nsec))
    (by simp only [Fits, llongMax]; omega)
  simp only [rateElapsedChecked, nsBetweenChecked, hsec, hns, hnsec, hsum, Option.bind_eq_bind, Option.bind_some]
  simp only [rateElapsedMs, msSince, nsBetween]
  exact ⟨checked_of_fits (by simp only [Fits, llongMax]; omega), by omega, by omega⟩

theorem floorLeft_some (hnow : Reading now) (hstart : Reading conn.rateStart)
    (hpaused : 0 ≤ conn.ratePausedMs ∧ conn.ratePausedMs ≤ 4611686018427387904) (hroom : floorRoom srv conn now < llongMax) :
    floorLeft srv conn now = some (floorRoom srv conn now + 1) := by
  obtain ⟨helapsed, hlow, hhigh⟩ := rateElapsedChecked_eq hnow hstart hpaused
  obtain ⟨hallowed₁, hallowed₂⟩ := rateAllowedMs_range srv.minRateBps srv.rateGraceMs conn.rateBytes srv.grace_le
  simp only [floorLeft, helapsed, floorRoom, Option.bind_eq_bind, Option.bind_some] at hroom ⊢
  rw [checked_of_fits (by simp only [Fits, llongMax] at *; omega), Option.bind_some,
    checked_of_fits (by simp only [Fits, llongMax] at *; omega)]

/-! ## Total limits -/

/-- `_shrink_timeout_at` fails at the deadline. Otherwise its wait ends within a millisecond behind the deadline, or is
the longest. -/
structure ShrinksToDeadline (now : Timespec) (timeoutMs : Nat) (answer : Bool × Timespec × Nat) : Prop where
  refuses : answer.1 = false ↔ timespecReached now answer.2.1 = true
  within : answer.1 = true → 0 < answer.2.2 ∧ (timeoutMs = 0 ∨ answer.2.2 ≤ timeoutMs) ∧
    now.ns + answer.2.2 * 1000000 < answer.2.1.ns + 1000000
  reaches : answer.1 = true → (timeoutMs = 0 ∨ answer.2.2 < timeoutMs) → answer.2.2 < uintMax →
    answer.2.1.ns ≤ now.ns + answer.2.2 * 1000000

theorem shrunk_timeout (left timeoutMs : Nat) (hleft : 0 < left) :
    0 < (if timeoutMs = 0 ∨ left < timeoutMs then left else timeoutMs) ∧
      (if timeoutMs = 0 ∨ left < timeoutMs then left else timeoutMs) ≤ left ∧
      (timeoutMs = 0 ∨ (if timeoutMs = 0 ∨ left < timeoutMs then left else timeoutMs) ≤ timeoutMs) ∧
      (timeoutMs = 0 ∨ (if timeoutMs = 0 ∨ left < timeoutMs then left else timeoutMs) < timeoutMs →
        (if timeoutMs = 0 ∨ left < timeoutMs then left else timeoutMs) = left) := by
  split <;> omega

theorem shrinkTimeoutAt_exact (deadline : Option Timespec) (maxDur : Nat) (timeoutMs : Nat) (hnow : now.Normal)
    (hdeadline : ∀ d, deadline = some d → d.Normal) :
    ShrinksToDeadline now timeoutMs (shrinkTimeoutAt deadline maxDur now timeoutMs) := by
  obtain ⟨d, hd⟩ : ∃ d, d = deadline.getD (timespecAddMs now maxDur) := ⟨_, rfl⟩
  have hnormal : d.Normal := by
    rw [hd]
    cases deadline with
    | none => exact timespecAddMs_normal hnow maxDur
    | some d => exact hdeadline d rfl
  rw [shrinkTimeoutAt, ← hd]
  have hreached := timespecReached_iff hnow hnormal
  by_cases hleft : nsBetween d now ≤ 0
  · rw [if_pos hleft]
    rw [nsBetween_eq] at hleft
    exact ⟨iff_of_true rfl (hreached.mpr (by omega)), nofun, nofun⟩
  · rw [if_neg hleft]
    rw [nsBetween_eq] at hleft
    have hle := msSinceCeil_le d now
    have hlt := @msSinceCeil_lt d now (by omega)
    have hpos := @msSinceCeil_pos d now (by omega)
    obtain ⟨ms, hms⟩ : ∃ ms : Nat, msSinceCeil d now = ms := ⟨(msSinceCeil d now).toNat, by omega⟩
    rw [hms] at hle hlt hpos
    rw [← msSinceCeil, hms, Int.toNat_natCast]
    obtain ⟨hwait, hwithin, hbound, heq⟩ := shrunk_timeout (min ms uintMax) timeoutMs (Nat.lt_min.mpr ⟨by omega, by decide⟩)
    refine ⟨iff_of_false nofun fun h => ?_, fun _ => ⟨hwait, hbound, ?_⟩, fun _ hfree hmax => ?_⟩
    · have hpast := hreached.mp h
      omega
    · simp only
      omega
    · simp only at hfree hmax ⊢
      rw [heq hfree] at hmax ⊢
      omega

/-! ## Parked connections -/

theorem parked_needs_no_query (now nowSlow : Timespec) (h : parkedNeedsKernelQuery srv conn now nowSlow = false) (k : Kernel) :
    (parkedExpired srv conn now nowSlow k).2.2 = false := by
  rw [parkedNeedsKernelQuery] at h
  rw [parkedExpired]
  cases hpark : conn.park with
  | body =>
    rw [hpark] at h
    simp only at h ⊢
    by_cases htotal : totalReached conn now = true
    · rw [if_pos htotal]
    · rw [if_neg htotal] at h ⊢
      by_cases hmark : conn.rcvlowat ≤ 1
      · rw [if_neg (by simp [Nat.not_lt.mpr hmark])]
      · rw [if_neg hmark] at h
        rw [h, if_neg (by simp)]
  | write =>
    rw [hpark] at h
    simp only at h ⊢
    by_cases htotal : totalReached conn now = true
    · rw [if_pos htotal]
    · rw [if_neg htotal, Bool.or_eq_false_iff] at h
      rw [if_neg htotal, parkedWriteExpired, h.1, h.2]
      rfl
  | none => rfl
  | linger => rfl
  | memBody => rfl

/-- Below the rate floor, by the bytes that have come or by those that have left the send queue. -/
def rateHit (srv : Settings) (conn : Conn) (nowSlow : Timespec) (k : Kernel) : Bool :=
  if conn.park = .body then rateBelowFloor srv conn nowSlow conn.rateQueued
  else rateOn srv conn &&
    match k.sendQueue with
    | none => rateBelowFloor srv conn nowSlow 0
    | some outq =>
      if srv.isUnixSocket then rateBelowFloor srv conn nowSlow 0
      else rateElapsedMs conn nowSlow > rateAllowedMs srv.minRateBps srv.rateGraceMs (conn.rateBytes - outq)

structure Fine (srv : Settings) (conn : Conn) (now nowSlow : Timespec) (k : Kernel) : Prop where
  total : totalReached conn now = false
  gap : gapHit srv conn nowSlow = false
  rate : rateHit srv conn nowSlow k = false

theorem gapHit_now (h : conn.lastProgress = nowSlow) : gapHit srv conn nowSlow = false := by
  have hzero : msSince nowSlow nowSlow = 0 := by simp [msSince, nsBetween]
  simp only [gapHit, h, hzero, Bool.and_eq_false_iff, decide_eq_false_iff_not]
  omega

theorem fine_of_not_expired (hpark : conn.park = .body ∨ conn.park = .write)
    (h : (parkedExpired srv conn now nowSlow k).1 = false) : Fine srv (parkedExpired srv conn now nowSlow k).2.1 now nowSlow k := by
  rw [parkedExpired] at h ⊢
  rcases hpark with hpark | hpark
  · simp only [hpark] at h ⊢
    cases htotal : totalReached conn now with
    | true => simp [htotal] at h
    | false =>
      simp only [htotal, Bool.false_eq_true, if_false] at h ⊢
      split at h
      · rename_i hquery
        rw [if_pos hquery]
        cases hunread : k.unread with
        | none => simp [hunread] at h
        | some queued =>
          simp only [hunread] at h ⊢
          split at h
          · rw [if_pos ‹_›]
            refine ⟨?_, gapHit_now rfl, ?_⟩
            · simpa [totalReached, totalDeadline, hpark] using htotal
            · simpa [rateHit, hpark] using h
          · cases h
      · rename_i hquery
        rw [if_neg hquery]
        simp only [Bool.or_eq_false_iff] at h
        exact ⟨htotal, h.1, by simpa [rateHit, hpark] using h.2⟩
  · simp only [hpark] at h ⊢
    cases htotal : totalReached conn now with
    | true => simp [htotal] at h
    | false =>
      simp only [htotal, Bool.false_eq_true, if_false, parkedWriteExpired] at h ⊢
      split at h
      · rename_i hquery
        simp only [Bool.and_eq_true, Bool.not_eq_true'] at hquery
        rw [if_pos (by simp [hquery])]
        exact ⟨htotal, hquery.1, by simp [rateHit, hpark, hquery.2]⟩
      · rename_i hquery
        rw [if_neg hquery]
        cases hqueue : k.sendQueue with
        | none =>
          simp only [hqueue, Bool.or_eq_false_iff] at h ⊢
          exact ⟨htotal, h.1, by simp [rateHit, hpark, hqueue, h.2]⟩
        | some outq =>
          simp only [hqueue] at h ⊢
          by_cases hshrunk : outq < conn.wpOutq
          · simp only [hshrunk, decide_true, if_true, Bool.not_true, Bool.and_false] at h ⊢
            have hkept : totalReached { conn with wpOutq := outq, lastProgress := nowSlow } now = false := by
              simpa [totalReached, totalDeadline, hpark] using htotal
            split at h
            · rw [if_pos ‹_›]
              exact ⟨hkept, gapHit_now rfl, by simp_all [rateHit]⟩
            · rw [if_neg ‹_›]
              split at h
              · rw [if_pos ‹_›]
                exact ⟨hkept, gapHit_now rfl, by simp_all [rateHit]⟩
              · rw [if_neg ‹_›]
                exact ⟨hkept, gapHit_now rfl, by simp_all [rateHit]⟩
          · simp only [hshrunk, decide_false, Bool.false_eq_true, if_false, Bool.not_false, Bool.and_true] at h ⊢
            split at h
            · rw [if_pos ‹_›]
              exact ⟨htotal, h, by simp_all⟩
            · rw [if_neg ‹_›]
              split at h
              · rw [if_pos ‹_›]
                exact ⟨htotal, by simp_all, by simp_all [rateHit]⟩
              · rw [if_neg ‹_›]
                exact ⟨htotal, by simp_all, by simp_all [rateHit]⟩

theorem Fine.not_expired (hpark : conn.park = .body ∨ conn.park = .write) (h : Fine srv conn now nowSlow k) :
    (parkedExpired srv conn now nowSlow k).1 = false := by
  obtain ⟨htotal, hgap, hrate⟩ := h
  rw [parkedExpired]
  rcases hpark with hpark | hpark
  · rw [rateHit, if_pos hpark] at hrate
    simp [hpark, htotal, hgap, hrate]
  · rw [rateHit, if_neg (by simp [hpark])] at hrate
    simp only [hpark, htotal, Bool.false_eq_true, if_false, hgap, parkedWriteExpired, Bool.not_false, Bool.true_and]
    cases hon : rateOn srv conn with
    | false => rfl
    | true =>
      rw [hon, Bool.true_and] at hrate
      cases hqueue : k.sendQueue with
      | none => simpa [hqueue] using hrate
      | some outq =>
        have hkept : ∀ later : Timespec, rateOn srv { conn with wpOutq := outq, lastProgress := later } = true := fun _ => hon
        rw [hqueue] at hrate
        by_cases hshrunk : outq < conn.wpOutq
        · simp only [hshrunk, decide_true, if_true]
          cases hunix : srv.isUnixSocket <;> simp_all [rateBelowFloor, rateElapsedMs]
        · simp only [hshrunk, decide_false, Bool.false_eq_true, if_false]
          cases hunix : srv.isUnixSocket <;> simp_all [rateBelowFloor, rateElapsedMs]

/-! ## Waits -/

/-- A connection whose limits all moved by at least a wait, of `slow` and `mono` nanoseconds on the two clocks. -/
structure Moved (conn conn' : Conn) (slow mono : Int) : Prop where
  same : conn'.park = conn.park ∧ conn'.rateActive = conn.rateActive ∧ conn'.rateStart = conn.rateStart ∧
    conn'.rateBytes = conn.rateBytes ∧ conn'.rateQueued = conn.rateQueued
  rate : ∃ ms, 0 ≤ ms ∧ conn'.ratePausedMs = conn.ratePausedMs + ms ∧ slow ≤ ms * 1000000
  gap : conn.lastProgress.ns + slow ≤ conn'.lastProgress.ns
  total : ∀ d', totalDeadline conn' = some d' → ∃ d, totalDeadline conn = some d ∧ d.ns + mono ≤ d'.ns ∧ (d.Normal → d'.Normal)

def Conn.Normal (conn : Conn) : Prop := ∀ d, totalDeadline conn = some d → d.Normal

theorem Moved.fine {conn' : Conn} {now' nowSlow' : Timespec} (hnormal : conn.Normal) (hnow : now.Normal) (hnow' : now'.Normal)
    (h : Moved conn conn' (nowSlow'.ns - nowSlow.ns) (now'.ns - now.ns)) (hfine : Fine srv conn now nowSlow k) :
    Fine srv conn' now' nowSlow' k := by
  obtain ⟨hpark, hactive, hstart, hbytes, hqueued⟩ := h.same
  obtain ⟨ms, hms, hpaused, hslow⟩ := h.rate
  have hon : rateOn srv conn' = rateOn srv conn := by simp only [rateOn, hactive]
  have helapsed : rateElapsedMs conn' nowSlow' ≤ rateElapsedMs conn nowSlow := by
    have hsince : msSince nowSlow' conn.rateStart - ms ≤ msSince nowSlow conn.rateStart := msSince_le hms (by omega)
    simp only [rateElapsedMs, hstart, hpaused]
    omega
  have hbelow : ∀ extra, rateBelowFloor srv conn nowSlow extra = false → rateBelowFloor srv conn' nowSlow' extra = false := by
    intro extra hbelow
    simp only [rateBelowFloor, hon, hbytes, Bool.and_eq_false_iff, decide_eq_false_iff_not] at hbelow ⊢
    exact hbelow.imp_right fun hkept => by omega
  refine ⟨?_, ?_, ?_⟩
  · have htotal := hfine.total
    simp only [totalReached] at htotal ⊢
    cases hdeadline : totalDeadline conn' with
    | none => rfl
    | some d' =>
      obtain ⟨d, hd, hmoved, hkeeps⟩ := h.total d' hdeadline
      rw [hd, Option.any_some, Bool.eq_false_iff, ne_eq, timespecReached_iff hnow (hnormal d hd)] at htotal
      rw [Option.any_some, Bool.eq_false_iff, ne_eq, timespecReached_iff hnow' (hkeeps (hnormal d hd))]
      omega
  · have hgap := hfine.gap
    have hlimit : gapLimit srv conn' = gapLimit srv conn := by simp only [gapLimit, hpark]
    simp only [gapHit, hlimit, Bool.and_eq_false_iff, decide_eq_false_iff_not] at hgap ⊢
    have hmoved := h.gap
    have hsince : msSince nowSlow' conn'.lastProgress - 0 ≤ msSince nowSlow conn.lastProgress :=
      msSince_le (Int.le_refl 0) (by omega)
    exact hgap.imp_right fun hkept => by omega
  · have hrate := hfine.rate
    simp only [rateHit, hpark, hqueued, hon, hbytes] at hrate ⊢
    split
    · rw [if_pos ‹_›] at hrate
      exact hbelow _ hrate
    · rw [if_neg ‹_›] at hrate
      cases honv : rateOn srv conn with
      | false => rfl
      | true =>
        rw [honv, Bool.true_and] at hrate
        rw [Bool.true_and]
        cases hqueue : k.sendQueue with
        | none =>
          rw [hqueue] at hrate
          exact hbelow _ hrate
        | some outq =>
          rw [hqueue] at hrate
          simp only at hrate ⊢
          split
          · rw [if_pos ‹_›] at hrate
            exact hbelow _ hrate
          · rw [if_neg ‹_›, decide_eq_false_iff_not] at hrate
            rw [decide_eq_false_iff_not]
            omega

def longestWait : Int := (uintMax : Int) * 1000000

theorem msSinceCeil_max (h : now.ns - before.ns ≤ longestWait) : msSinceCeil now before ≤ uintMax := by
  rw [longestWait] at h
  simp only [uintMax] at h ⊢
  simp only [msSinceCeil, msCeilOfNs, nsBetween_eq]
  have hup := tdiv_bounds (now.ns - before.ns + 999999)
  have hdown := tdiv_bounds (now.ns - before.ns)
  split <;> omega

theorem msSinceCeil_clamp (h : now.ns - before.ns ≤ longestWait) :
    now.ns - before.ns ≤ (min (msSinceCeil now before).toNat uintMax : Nat) * 1000000 := by
  have hle := msSinceCeil_le now before
  have hmax := msSinceCeil_max h
  omega

theorem totalDeadline_map {conn' : Conn} {ms : Nat} {mono : Int} (hpark : conn'.park = conn.park)
    (hread : conn'.readDeadline = conn.readDeadline.map (timespecAddMs · ms))
    (hwrite : conn.park = .write → conn'.writeDeadline = conn.writeDeadline.map (timespecAddMs · ms)) (hmono : mono ≤ ms * 1000000) :
    ∀ d', totalDeadline conn' = some d' → ∃ d, totalDeadline conn = some d ∧ d.ns + mono ≤ d'.ns ∧ (d.Normal → d'.Normal) := by
  have hmap : totalDeadline conn' = (totalDeadline conn).map (timespecAddMs · ms) := by
    simp only [totalDeadline, hpark, hread]
    cases h : conn.park with
    | write => exact hwrite h
    | body => rfl
    | none => rfl
    | linger => rfl
    | memBody => rfl
  intro d' hd'
  rw [hmap, Option.map_eq_some_iff] at hd'
  obtain ⟨d, hd, rfl⟩ := hd'
  refine ⟨d, hd, ?_, fun hnormal => timespecAddMs_normal hnormal ms⟩
  rw [timespecAddMs_ns]
  omega

theorem connUnchargeQueueWait_moved (hslow : nowSlow.ns - conn.claimSlow.ns ≤ longestWait) (hmono : now.ns - conn.claimMono.ns ≤ longestWait) :
    Moved conn (connUnchargeQueueWait conn now nowSlow) (nowSlow.ns - conn.claimSlow.ns) (now.ns - conn.claimMono.ns) := by
  have hslowLe := msSinceCeil_le nowSlow conn.claimSlow
  have hslowClamp := msSinceCeil_clamp hslow
  have hmonoLe := msSinceCeil_le now conn.claimMono
  have hmonoClamp := msSinceCeil_clamp hmono
  have hkeep : ∀ (c : Conn) {mono : Int}, mono ≤ 0 → ∀ d', totalDeadline c = some d' →
      ∃ d, totalDeadline c = some d ∧ d.ns + mono ≤ d'.ns ∧ (d.Normal → d'.Normal) :=
    fun c mono h d' hd' => ⟨d', hd', by omega, id⟩
  rw [connUnchargeQueueWait]
  by_cases hwaited : msSinceCeil nowSlow conn.claimSlow > 0 <;> by_cases hwaitedMono : msSinceCeil now conn.claimMono > 0
  · simp only [hwaited, hwaitedMono, if_true]
    refine ⟨⟨rfl, rfl, rfl, rfl, rfl⟩, ⟨_, by omega, rfl, hslowLe⟩, ?_, totalDeadline_map rfl rfl (fun _ => rfl) hmonoClamp⟩
    simp only [timespecAddMs_ns]
    omega
  · simp only [hwaited, hwaitedMono, if_true, if_false]
    refine ⟨⟨rfl, rfl, rfl, rfl, rfl⟩, ⟨_, by omega, rfl, hslowLe⟩, ?_, hkeep conn (by omega)⟩
    simp only [timespecAddMs_ns]
    omega
  · simp only [hwaited, hwaitedMono, if_true, if_false]
    exact ⟨⟨rfl, rfl, rfl, rfl, rfl⟩, ⟨0, by omega, (Int.add_zero _).symm, by omega⟩, by simp only; omega,
      totalDeadline_map rfl rfl (fun _ => rfl) hmonoClamp⟩
  · simp only [hwaited, hwaitedMono, if_false]
    exact ⟨⟨rfl, rfl, rfl, rfl, rfl⟩, ⟨0, by omega, (Int.add_zero _).symm, by omega⟩, by omega, hkeep conn (by omega)⟩

theorem memDispatch_moved {mono : Int} (hslow : nowSlow.ns - conn.memWaitStart.ns ≤ longestWait)
    (hstart : conn.lastProgress.ns ≤ conn.memWaitStart.ns) (hmono : mono ≤ nowSlow.ns - conn.memWaitStart.ns) :
    Moved { conn with park := .body } (memDispatch conn nowSlow) (nowSlow.ns - conn.memWaitStart.ns) mono := by
  have hle := msSinceCeil_le nowSlow conn.memWaitStart
  have hclamp := msSinceCeil_clamp hslow
  rw [memDispatch]
  refine ⟨⟨rfl, rfl, rfl, rfl, rfl⟩, ⟨_, Int.natCast_nonneg _, rfl, by omega⟩, ?_, totalDeadline_map rfl rfl nofun (by omega)⟩
  simp only
  omega

def Noted (conn : Conn) (nowSlow : Timespec) (conn' : Conn) : Prop :=
  ∃ queued outq progress, conn' = { conn with rateQueued := queued, wpOutq := outq, lastProgress := progress } ∧
    (progress = conn.lastProgress ∨ progress = nowSlow)

theorem parkedWriteExpired_noted (srv : Settings) (conn : Conn) (nowSlow : Timespec) (gap : Bool) (k : Kernel) :
    Noted conn nowSlow (parkedWriteExpired srv conn nowSlow gap k).2.1 := by
  have hkeep : Noted conn nowSlow conn := ⟨_, _, _, rfl, .inl rfl⟩
  rw [parkedWriteExpired]
  split
  · exact hkeep
  · split
    · exact hkeep
    · rename_i outq _
      by_cases hshrunk : outq < conn.wpOutq
      · have hnoted : Noted conn nowSlow { conn with wpOutq := outq, lastProgress := nowSlow } := ⟨_, _, _, rfl, .inr rfl⟩
        simp only [hshrunk, decide_true, if_true]
        split
        · exact hnoted
        · split <;> exact hnoted
      · simp only [hshrunk, decide_false, Bool.false_eq_true, if_false]
        split
        · exact hkeep
        · split <;> exact hkeep

theorem parkedExpired_noted (srv : Settings) (conn : Conn) (now nowSlow : Timespec) (k : Kernel) :
    Noted conn nowSlow (parkedExpired srv conn now nowSlow k).2.1 := by
  have hkeep : Noted conn nowSlow conn := ⟨_, _, _, rfl, .inl rfl⟩
  rw [parkedExpired]
  cases hpark : conn.park with
  | body =>
    simp only
    split
    · exact hkeep
    · split
      · split
        · rename_i queued _
          split
          · exact ⟨queued, conn.wpOutq, nowSlow, by rw [← hpark], .inr rfl⟩
          · exact hkeep
        · exact hkeep
      · exact hkeep
  | write =>
    simp only
    split
    · exact hkeep
    · exact parkedWriteExpired_noted srv conn nowSlow _ k
  | none => exact hkeep
  | linger => exact hkeep
  | memBody => exact hkeep

end Ccollections.Chttpserver.SlowClient
