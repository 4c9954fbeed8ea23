import Ccollections.Chttpserver.Engine
import Ccollections.Lib.Lists

/-!
# Phases of the server engine
-/

namespace Ccollections.Chttpserver.Engine
open Lib Function List Option

variable {w w' : World}

def TearsDown (r : Nat) (destroyed : List Nat) : ReaperPc → Prop
  | .starting => r ∉ destroyed
  | .tearing loop => loop = some r ∧ r ∉ destroyed
  | .torn => r ∈ destroyed
  | .past => False

inductive Phase (e : SrvEngine) (owed : Nat) (reapers : List Reaper) (destroyed : List Nat) : Prop
  | idle (hreactor : e.reactor = none) (hstopping : e.stopping = false) (howed : owed = 0) (hreapers : reapers = [])
      (hjoinable : e.reaperJoinable = false)
  | finished (hreactor : e.reactor = none) (hstopping : e.stopping = false) (howed : owed = 0)
      (hreapers : reapers = [⟨some e.reaperThread, .past⟩]) (hjoinable : e.reaperJoinable = true)
  | running (r : Nat) (hreactor : e.reactor = some r) (hstopping : e.stopping = false) (howed : owed = 0)
      (hreapers : reapers = []) (hjoinable : e.reaperJoinable = false) (hlive : r ∉ destroyed)
  | requested (r : Nat) (hreactor : e.reactor = some r) (hstopping : e.stopping = true) (howed : owed = 1)
      (hreapers : reapers = []) (hjoinable : e.reaperJoinable = false) (hlive : r ∉ destroyed)
  | reaping (r : Nat) (x : Reaper) (hreactor : e.reactor = some r) (hstopping : e.stopping = true) (howed : owed = 0)
      (hreapers : reapers = [x]) (hjoinable : e.reaperJoinable = x.thread.isSome)
      (hthread : ∀ t, x.thread = some t → e.reaperThread = t) (hpc : TearsDown r destroyed x.pc)

/-- What is known of the generation and the count while a reactor is there, and while none is. -/
structure Counted (e : SrvEngine) (held stopped : List Nat) (reactors : Nat) (generationOf : Nat → Nat) : Prop where
  none_ : e.reactor = none → e.generation = 0 ∧ e.reactorRefs = 0
  some_ : ∀ r, e.reactor = some r → r < reactors ∧ 0 < e.generation ∧ e.generation = e.genCounter ∧
    generationOf r = e.generation
  unique : ∀ r < reactors, generationOf r ≤ e.genCounter ∧
    (generationOf r = e.generation → 0 < e.generation → e.reactor = some r)
  holders : ∀ g ∈ held, 0 < g ∧ g ≤ e.genCounter
  forced : ∀ g ∈ stopped, 0 < g ∧ g ≤ e.genCounter
  unforced : ∀ r, e.reactor = some r → e.stopping = false → e.generation ∉ stopped
  refs : e.reactorRefs = held.count e.generation ∨ (e.generation ∈ stopped ∧ e.reactorRefs = 0)
  stopping : e.stopping = true → e.reactorRefs = 0

namespace World

structure Inv (w : World) : Prop where
  phase : Phase w.engine w.owed w.reapers w.destroyed
  counted : Counted w.engine w.holders w.forced w.reactors w.generationOf
  once : w.destroyed.Nodup
  known : ∀ r ∈ w.destroyed, r < w.reactors
  accounted : ∀ r < w.reactors, r ∈ w.destroyed ∨ w.engine.reactor = some r
  reason : ∀ r ∈ w.destroyed, w.generationOf r ∈ w.forced ∨ w.holders.count (w.generationOf r) = 0
  joinedOnce : w.joined.Nodup
  joined : ∀ t ∈ w.joined, t < w.threads
  unjoined : ∀ x ∈ w.reapers, ∀ t, x.thread = some t → t < w.threads ∧ t ∉ w.joined

theorem Inv.start : Inv start where
  phase := .idle rfl rfl rfl rfl rfl
  counted := {
    none_ := fun _ => ⟨rfl, rfl⟩
    some_ := by simp [World.start]
    unique := by simp [World.start]
    holders := by simp [World.start]
    forced := by simp [World.start]
    unforced := by simp [World.start]
    refs := .inl rfl
    stopping := by simp [World.start] }
  once := nodup_nil
  known := by simp [World.start]
  accounted := by simp [World.start]
  reason := by simp [World.start]
  joinedOnce := nodup_nil
  joined := by simp [World.start]
  unjoined := by simp [World.start]

/-! ## Joining -/

theorem Inv.join (h : w.Inv) (hs : w.engine.stopping = false) :
    ∃ w', w.joinReaperIfNeededLocked = some w' ∧ w'.Inv ∧ w'.engine.reaperJoinable = false ∧
      w'.engine.stopping = false ∧ w'.engine.reactor = w.engine.reactor ∧ w'.holders = w.holders := by
  cases h.phase with
  | idle hreactor _ _ _ hjoinable =>
    exact ⟨w, by simp [joinReaperIfNeededLocked, hjoinable], h, hjoinable, hs, rfl, rfl⟩
  | running r hreactor _ _ _ hjoinable _ =>
    exact ⟨w, by simp [joinReaperIfNeededLocked, hjoinable], h, hjoinable, hs, rfl, rfl⟩
  | requested r _ hstopping => simp [hstopping] at hs
  | reaping r x _ hstopping => simp [hstopping] at hs
  | finished hreactor hstopping howed hreapers hjoinable =>
    have hthread := h.unjoined ⟨some w.engine.reaperThread, .past⟩ (by simp [hreapers]) _ rfl
    have hjoin : w.joinReaperIfNeededLocked = some { w with
        engine := { w.engine with reaperJoinable := false }
        reapers := []
        joined := w.engine.reaperThread :: w.joined } := by
      simp [joinReaperIfNeededLocked, hjoinable, hreapers, List.findIdx?_cons]
    refine ⟨_, hjoin, ?_, rfl, hs, rfl, rfl⟩
    exact {
      phase := .idle hreactor hstopping howed rfl rfl
      counted := { h.counted with }
      once := h.once
      known := h.known
      accounted := h.accounted
      reason := h.reason
      joinedOnce := nodup_cons.mpr ⟨hthread.2, h.joinedOnce⟩
      joined := by
        intro t ht
        obtain rfl | ht := mem_cons.mp ht
        · exact hthread.1
        · exact h.joined t ht
      unjoined := by simp }

/-! ## Acquiring -/

theorem Inv.not_destroyed (h : w.Inv) {r : Nat} (hr : w.engine.reactor = some r)
    (hs : w.engine.stopping = false) : r ∉ w.destroyed := by
  cases h.phase with
  | idle hreactor => simp [hreactor] at hr
  | finished hreactor => simp [hreactor] at hr
  | running r' hreactor _ _ _ _ hlive =>
    obtain rfl : r' = r := by simpa [hreactor] using hr
    exact hlive
  | requested r' _ hstopping => simp [hstopping] at hs
  | reaping r' x _ hstopping => simp [hstopping] at hs

theorem Inv.addRef (h : w.Inv) {r : Nat} (hr : w.engine.reactor = some r) (hs : w.engine.stopping = false) :
    w.addRef.Inv := by
  obtain ⟨hlt, hpos, hcounter, hgen⟩ := h.counted.some_ r hr
  have hunforced := h.counted.unforced r hr hs
  have hlive := h.not_destroyed hr hs
  exact {
    phase := by
      cases h.phase with
      | idle hreactor => simp [hreactor] at hr
      | finished hreactor => simp [hreactor] at hr
      | running r' hreactor hstopping howed hreapers hjoinable hlive =>
        exact .running r' hreactor hstopping howed hreapers hjoinable hlive
      | requested r' _ hstopping => simp [hstopping] at hs
      | reaping r' x _ hstopping => simp [hstopping] at hs
    counted := { h.counted with
      none_ := by
        intro hnone
        simp [World.addRef, hr] at hnone
      holders := by
        intro g hg
        obtain rfl | hg := mem_cons.mp hg
        · exact ⟨hpos, Nat.le_of_eq hcounter⟩
        · exact h.counted.holders g hg
      refs := by
        obtain heq | ⟨hforced, -⟩ := h.counted.refs
        · exact .inl (by simp [World.addRef, heq])
        · exact (hunforced hforced).elim
      stopping := by
        intro hstop
        simp [World.addRef, hs] at hstop }
    once := h.once
    known := h.known
    accounted := h.accounted
    reason := by
      intro r' hr'
      obtain hforced | hzero := h.reason r' hr'
      · exact .inl hforced
      · refine .inr ?_
        have hne : w.engine.generation ≠ w.generationOf r' := by
          intro heq
          have hsame := (h.counted.unique r' (h.known r' hr')).2 heq.symm hpos
          rw [hr] at hsame
          exact hlive (some.inj hsame ▸ hr')
        simpa [World.addRef, count_cons, hne] using hzero
    joinedOnce := h.joinedOnce
    joined := h.joined
    unjoined := h.unjoined }

theorem update_of_lt {f : Nat → Nat} {n r v : Nat} (h : r < n) : update f n v r = f r :=
  update_of_ne (Nat.ne_of_lt h) v f

theorem Inv.idle_of (h : w.Inv) (hr : w.engine.reactor = none) (hj : w.engine.reaperJoinable = false) :
    w.owed = 0 ∧ w.reapers = [] ∧ w.engine.stopping = false := by
  cases h.phase with
  | idle _ hstopping howed hreapers _ => exact ⟨howed, hreapers, hstopping⟩
  | finished _ _ _ _ hjoinable => simp [hj] at hjoinable
  | running r hreactor => simp [hr] at hreactor
  | requested r hreactor => simp [hr] at hreactor
  | reaping r x hreactor => simp [hr] at hreactor

theorem Inv.rollBack (h : w.Inv) (hr : w.engine.reactor = none) (hj : w.engine.reaperJoinable = false) :
    w.rollBack.Inv := by
  obtain ⟨howed, hreapers, hs⟩ := h.idle_of hr hj
  have hnew : w.reactors ∉ w.destroyed := fun hmem => Nat.lt_irrefl _ (h.known _ hmem)
  exact {
    phase := .idle hr hs howed hreapers hj
    counted := { h.counted with
      some_ := by simp [World.rollBack, hr]
      unique := by
        intro r hlt
        obtain rfl | hlt := Nat.eq_or_lt_of_le (Nat.le_of_lt_succ hlt)
        · simp only [World.rollBack, update_self]
          exact ⟨Nat.zero_le _, fun heq hpos => (Nat.ne_of_gt hpos heq.symm).elim⟩
        · simp only [World.rollBack, update_of_lt hlt]
          exact h.counted.unique r hlt }
    once := nodup_cons.mpr ⟨hnew, h.once⟩
    known := by
      intro r hmem
      obtain rfl | hmem := mem_cons.mp hmem
      · exact Nat.lt_succ_self _
      · exact Nat.lt_succ_of_lt (h.known r hmem)
    accounted := by
      intro r hlt
      obtain rfl | hlt := Nat.eq_or_lt_of_le (Nat.le_of_lt_succ hlt)
      · exact .inl mem_cons_self
      · exact (h.accounted r hlt).imp_left (mem_cons_of_mem _)
    reason := by
      intro r hmem
      obtain rfl | hmem := mem_cons.mp hmem
      · refine .inr ?_
        simp only [World.rollBack, update_self]
        exact count_eq_zero.mpr fun hzero => Nat.lt_irrefl 0 (h.counted.holders 0 hzero).1
      · simp only [World.rollBack, update_of_lt (h.known r hmem)]
        exact h.reason r hmem
    joinedOnce := h.joinedOnce
    joined := h.joined
    unjoined := h.unjoined }

theorem Inv.newGeneration (h : w.Inv) (hr : w.engine.reactor = none) (hj : w.engine.reaperJoinable = false) :
    w.newGeneration.Inv := by
  obtain ⟨howed, hreapers, hs⟩ := h.idle_of hr hj
  have hrefs := (h.counted.none_ hr).2
  have hnew : w.reactors ∉ w.destroyed := fun hmem => Nat.lt_irrefl _ (h.known _ hmem)
  have hfresh : w.engine.genCounter + 1 ∉ w.holders := fun hmem => absurd (h.counted.holders _ hmem).2 (by omega)
  exact {
    phase := .running w.reactors rfl hs howed hreapers hj hnew
    counted := {
      none_ := by simp [World.newGeneration]
      some_ := by
        rintro r heq
        obtain rfl : w.reactors = r := some.inj heq
        exact ⟨Nat.lt_succ_self _, Nat.succ_pos _, rfl, by simp [World.newGeneration]⟩
      unique := by
        intro r hlt
        obtain rfl | hlt := Nat.eq_or_lt_of_le (Nat.le_of_lt_succ hlt)
        · simp [World.newGeneration]
        · have hle := (h.counted.unique r hlt).1
          simp only [World.newGeneration, update_of_lt hlt]
          exact ⟨by omega, fun heq _ => absurd heq (by omega)⟩
      holders := fun g hg => ⟨(h.counted.holders g hg).1, Nat.le_succ_of_le (h.counted.holders g hg).2⟩
      forced := fun g hg => ⟨(h.counted.forced g hg).1, Nat.le_succ_of_le (h.counted.forced g hg).2⟩
      unforced := fun r _ _ hmem => absurd (h.counted.forced _ hmem).2 (by simp [World.newGeneration])
      refs := .inl (by simpa [World.newGeneration, hrefs] using (count_eq_zero.mpr hfresh).symm)
      stopping := by
        intro hstop
        simp [World.newGeneration, hs] at hstop }
    once := h.once
    known := fun r hmem => Nat.lt_succ_of_lt (h.known r hmem)
    accounted := by
      intro r hlt
      obtain rfl | hlt := Nat.eq_or_lt_of_le (Nat.le_of_lt_succ hlt)
      · exact .inr rfl
      · obtain hd | hsome := h.accounted r hlt
        · exact .inl hd
        · simp [hr] at hsome
    reason := by
      intro r hmem
      simp only [World.newGeneration, update_of_lt (h.known r hmem)]
      exact h.reason r hmem
    joinedOnce := h.joinedOnce
    joined := h.joined
    unjoined := h.unjoined }

theorem Inv.acquire {watcher reactorMem logMem : Bool} (h : w.Inv)
    (hs : w.engineAcquire watcher reactorMem logMem = some w') :
    w'.Inv ∧ (w'.holders = w.holders ∨ (w'.holders = w'.engine.generation :: w.holders ∧ w'.engine.stopping = false ∧
      w'.owed = 0 ∧ w'.reapers = [] ∧ ∃ r, w'.engine.reactor = some r ∧ r ∉ w'.destroyed)) := by
  unfold engineAcquire at hs
  split at hs
  · obtain rfl := some.inj hs
    exact ⟨h, .inl rfl⟩
  split at hs
  · obtain rfl := some.inj hs
    exact ⟨h, .inl rfl⟩
  rename_i hstop
  have hstop : w.engine.stopping = false := by simpa using hstop
  obtain ⟨w₁, hjoin, hinv, hjoinable, hstop₁, hreactor, hholders⟩ := h.join hstop
  simp only [hjoin, bind_eq_bind, bind_some] at hs
  cases hr : w₁.engine.reactor with
  | some r =>
    simp only [hr] at hs
    obtain rfl := some.inj hs
    refine ⟨hinv.addRef hr hstop₁, .inr ⟨by simp [World.addRef, hholders], hstop₁, ?_⟩⟩
    cases hinv.phase with
    | idle hnone => simp [hr] at hnone
    | finished hnone => simp [hr] at hnone
    | running r' hreactor' _ howed hreapers _ hlive => exact ⟨howed, hreapers, r', hreactor', hlive⟩
    | requested r' _ hstopping => simp [hstop₁] at hstopping
    | reaping r' x _ hstopping => simp [hstop₁] at hstopping
  | none =>
    simp only [hr] at hs
    split at hs
    · obtain rfl := some.inj hs
      exact ⟨hinv, .inl hholders⟩
    split at hs
    · obtain rfl := some.inj hs
      exact ⟨hinv.rollBack hr hjoinable, .inl hholders⟩
    · obtain rfl := some.inj hs
      obtain ⟨howed, hreapers, -⟩ := hinv.idle_of hr hjoinable
      have hnew : w₁.reactors ∉ w₁.destroyed := fun hmem => Nat.lt_irrefl _ (hinv.known _ hmem)
      refine ⟨(hinv.newGeneration hr hjoinable).addRef rfl hstop₁, .inr ⟨?_, hstop₁, howed, hreapers, _, rfl, hnew⟩⟩
      simp [World.addRef, World.newGeneration, hholders]

/-! ## Releasing and stopping -/

theorem count_pos_of_getElem {l : List Nat} {i g : Nat} (h : l[i]? = some g) : 0 < l.count g :=
  count_pos_iff.mpr (mem_of_getElem? h)

theorem Inv.drop (h : w.Inv) {i g : Nat} (hi : w.holders[i]? = some g) (e : SrvEngine) (owed : Nat)
    (hphase : Phase e owed w.reapers w.destroyed) (hreactor : e.reactor = w.engine.reactor)
    (hcounted : Counted e (w.holders.eraseIdx i) w.forced w.reactors w.generationOf) :
    ({ w with engine := e, owed := owed, holders := w.holders.eraseIdx i } : World).Inv where
  phase := hphase
  counted := hcounted
  once := h.once
  known := h.known
  accounted := by
    intro r hr
    dsimp only
    rw [hreactor]
    exact h.accounted r hr
  reason := by
    intro r hr
    obtain hforced | hzero := h.reason r hr
    · exact .inl hforced
    · refine .inr ?_
      rw [count_eraseIdx hi, hzero, Nat.zero_sub]
  joinedOnce := h.joinedOnce
  joined := h.joined
  unjoined := h.unjoined

theorem Inv.release {i : Nat} (h : w.Inv) (hs : w.step (.release i) = some w') : w'.Inv := by
  simp only [World.step, bind_eq_bind, bind_eq_some_iff] at hs
  obtain ⟨g, hg, hs⟩ := hs
  have hmem := mem_of_getElem? hg
  have hsub : ∀ a ∈ w.holders.eraseIdx i, a ∈ w.holders := fun a ha => (eraseIdx_sublist _ _).mem ha
  have hcount := count_eraseIdx hg w.engine.generation
  obtain rfl := some.inj hs
  unfold engineReleaseBegin
  split
  · rename_i hother
    have hne : g ≠ w.engine.generation := by
      obtain hzero | hne := hother
      · exact absurd (h.counted.holders g hmem).1 (by omega)
      · exact hne
    rw [if_neg hne, Nat.sub_zero] at hcount
    exact h.drop hg w.engine w.owed h.phase rfl { h.counted with
      holders := fun a ha => h.counted.holders a (hsub a ha)
      refs := by
        rw [hcount]
        exact h.counted.refs }
  · rename_i hsame
    obtain rfl : g = w.engine.generation := by
      by_contra hne
      exact hsame (.inr hne)
    rw [if_pos rfl] at hcount
    have hpos := count_pos_of_getElem hg
    have hrefs : (if w.engine.reactorRefs > 0 then w.engine.reactorRefs - 1 else w.engine.reactorRefs) =
        w.engine.reactorRefs - 1 := by
      by_cases hp : w.engine.reactorRefs > 0
      · rw [if_pos hp]
      · rw [if_neg hp]
        omega
    have hrefs' : w.engine.reactorRefs - 1 = (w.holders.eraseIdx i).count w.engine.generation ∨
        (w.engine.generation ∈ w.forced ∧ w.engine.reactorRefs - 1 = 0) := by
      obtain heq | ⟨hforced, hzero⟩ := h.counted.refs
      · exact .inl (by omega)
      · exact .inr ⟨hforced, by omega⟩
    simp only [dropRef, hrefs]
    split
    · rename_i hlast
      obtain ⟨hzero, hsome, hstop⟩ := hlast
      have hstop : w.engine.stopping = false := by simpa using hstop
      obtain ⟨r, hr⟩ := isSome_iff_exists.mp hsome
      refine h.drop hg _ _ ?_ rfl { h.counted with
        none_ := fun hnone => absurd (hnone.symm.trans hr) (by simp)
        holders := fun a ha => h.counted.holders a (hsub a ha)
        unforced := by simp
        refs := hrefs'
        stopping := fun _ => hzero }
      cases h.phase with
      | idle hreactor => simp [hreactor] at hr
      | finished hreactor => simp [hreactor] at hr
      | running r' hreactor _ howed hreapers hjoinable hlive =>
        exact .requested r' hreactor rfl (by simp [howed]) hreapers hjoinable hlive
      | requested r' _ hstopping => simp [hstop] at hstopping
      | reaping r' x _ hstopping => simp [hstop] at hstopping
    · refine h.drop hg _ _ ?_ rfl { h.counted with
        none_ := by
          intro hnone
          obtain ⟨hgen, hzero⟩ := h.counted.none_ hnone
          exact ⟨hgen, by simp [hzero]⟩
        holders := fun a ha => h.counted.holders a (hsub a ha)
        refs := hrefs'
        stopping := by
          intro hstop
          have hzero := h.counted.stopping hstop
          dsimp only
          omega }
      cases h.phase with
      | idle hreactor hstopping howed hreapers hjoinable => exact .idle hreactor hstopping howed hreapers hjoinable
      | finished hreactor hstopping howed hreapers hjoinable => exact .finished hreactor hstopping howed hreapers hjoinable
      | running r' hreactor hstopping howed hreapers hjoinable hlive =>
        exact .running r' hreactor hstopping howed hreapers hjoinable hlive
      | requested r' hreactor hstopping howed hreapers hjoinable hlive =>
        exact .requested r' hreactor hstopping howed hreapers hjoinable hlive
      | reaping r' x hreactor hstopping howed hreapers hjoinable hthread hpc =>
        exact .reaping r' x hreactor hstopping howed hreapers hjoinable hthread hpc

theorem Inv.forceStop (h : w.Inv) (gen : Nat) : (w.engineForceStopNow gen).Inv := by
  unfold engineForceStopNow
  split
  · rename_i hstop
    obtain ⟨hsome, hnot, rfl⟩ := hstop
    have hnot : w.engine.stopping = false := by simpa using hnot
    obtain ⟨r, hr⟩ := isSome_iff_exists.mp hsome
    obtain ⟨-, hpos, hcounter, -⟩ := h.counted.some_ r hr
    exact {
      phase := by
        cases h.phase with
        | idle hreactor => simp [hreactor] at hr
        | finished hreactor => simp [hreactor] at hr
        | running r' hreactor _ howed hreapers hjoinable hlive =>
          exact .requested r' hreactor rfl (by simp [howed]) hreapers hjoinable hlive
        | requested r' _ hstopping => simp [hnot] at hstopping
        | reaping r' x _ hstopping => simp [hnot] at hstopping
      counted := { h.counted with
        none_ := fun hnone => absurd (hnone.symm.trans hr) (by simp)
        forced := by
          intro g hg
          obtain rfl | hg := mem_cons.mp hg
          · exact ⟨hpos, Nat.le_of_eq hcounter⟩
          · exact h.counted.forced g hg
        unforced := by simp
        refs := .inr ⟨mem_cons_self, rfl⟩
        stopping := fun _ => rfl }
      once := h.once
      known := h.known
      accounted := h.accounted
      reason := fun r hr => (h.reason r hr).imp_left (mem_cons_of_mem _)
      joinedOnce := h.joinedOnce
      joined := h.joined
      unjoined := h.unjoined }
  · exact h

/-! ## Reaping -/

theorem Inv.spawn (h : w.Inv) (howed : w.owed ≠ 0) (threadMem : Bool) : (w.spawnReaper threadMem).Inv := by
  cases h.phase with
  | idle _ _ hzero => exact (howed hzero).elim
  | finished _ _ hzero => exact (howed hzero).elim
  | running r _ _ hzero => exact (howed hzero).elim
  | reaping r x _ _ hzero => exact (howed hzero).elim
  | requested r hreactor hstopping hone hreapers hjoinable hlive =>
    have hfresh : w.threads ∉ w.joined := fun hmem => Nat.lt_irrefl _ (h.joined _ hmem)
    unfold spawnReaper
    split
    · exact {
        phase := .reaping r ⟨some w.threads, .starting⟩ hreactor hstopping (by simp [hone]) (by simp [hreapers]) rfl
          (fun t ht => some.inj ht) hlive
        counted := { h.counted with }
        once := h.once
        known := h.known
        accounted := h.accounted
        reason := h.reason
        joinedOnce := h.joinedOnce
        joined := fun t ht => Nat.lt_succ_of_lt (h.joined t ht)
        unjoined := by
          intro x hx t ht
          simp only [hreapers, mem_singleton] at hx
          subst hx
          obtain rfl := some.inj ht
          exact ⟨Nat.lt_succ_self _, hfresh⟩ }
    · exact { h with
        phase := .reaping r ⟨none, .starting⟩ hreactor hstopping (by simp [hone]) (by simp [hreapers]) hjoinable
          (by simp) hlive
        unjoined := by
          intro x hx t ht
          simp only [hreapers, mem_singleton] at hx
          subst hx
          cases ht }

theorem Inv.reaper (h : w.Inv) {i : Nat} {x : Reaper} (hx : w.reapers[i]? = some x) (hpc : x.pc ≠ .past) :
    ∃ r, i = 0 ∧ w.reapers = [x] ∧ w.engine.reactor = some r ∧ w.engine.stopping = true ∧ w.owed = 0 ∧
      w.engine.reaperJoinable = x.thread.isSome ∧ (∀ t, x.thread = some t → w.engine.reaperThread = t) ∧
      TearsDown r w.destroyed x.pc := by
  cases h.phase with
  | idle _ _ _ hreapers => simp [hreapers] at hx
  | finished _ _ _ hreapers =>
    simp only [hreapers, List.getElem?_singleton, ite_none_right_eq_some, some.injEq] at hx
    exact (hpc (by rw [← hx.2])).elim
  | running r _ _ _ hreapers => simp [hreapers] at hx
  | requested r _ _ _ hreapers => simp [hreapers] at hx
  | reaping r y hreactor hstopping howed hreapers hjoinable hthread hpc' =>
    simp only [hreapers, List.getElem?_singleton, ite_none_right_eq_some, some.injEq] at hx
    obtain ⟨hi, rfl⟩ := hx
    exact ⟨r, hi, hreapers, hreactor, hstopping, howed, hjoinable, hthread, hpc'⟩

theorem Inv.reaperRead {i : Nat} (h : w.Inv) (hs : w.step (.reaperRead i) = some w') : w'.Inv := by
  simp only [World.step] at hs
  split at hs
  · rename_i thread hx
    obtain rfl := some.inj hs
    obtain ⟨r, rfl, hreapers, hreactor, hstopping, howed, hjoinable, hthread, hpc⟩ := h.reaper hx (by simp)
    have hset : w.reapers.set 0 ⟨thread, .tearing w.engine.reactor⟩ = [⟨thread, .tearing w.engine.reactor⟩] := by
      simp [hreapers]
    rw [hset]
    exact { h with
      phase := .reaping r _ hreactor hstopping howed rfl hjoinable hthread ⟨hreactor, hpc⟩
      unjoined := by
        intro y hy t ht
        obtain rfl := mem_singleton.mp hy
        exact h.unjoined ⟨thread, .starting⟩ (by simp [hreapers]) t ht }
  · cases hs

theorem Inv.reaperDestroy {i : Nat} (h : w.Inv) (hs : w.step (.reaperDestroy i) = some w') : w'.Inv := by
  simp only [World.step] at hs
  split at hs
  · rename_i thread loop hx
    obtain rfl := some.inj hs
    obtain ⟨r, rfl, hreapers, hreactor, hstopping, howed, hjoinable, hthread, rfl, hlive⟩ := h.reaper hx (by simp)
    obtain ⟨hlt, -, -, hgen⟩ := h.counted.some_ r hreactor
    have hset : w.reapers.set 0 ⟨thread, .torn⟩ = [⟨thread, .torn⟩] := by simp [hreapers]
    rw [hset]
    exact {
      phase := .reaping r _ hreactor hstopping howed rfl hjoinable hthread mem_cons_self
      counted := h.counted
      once := nodup_cons.mpr ⟨hlive, h.once⟩
      known := by
        intro r' hr'
        obtain rfl | hr' := mem_cons.mp hr'
        · exact hlt
        · exact h.known r' hr'
      accounted := fun r' hr' => (h.accounted r' hr').imp_left (mem_cons_of_mem _)
      reason := by
        intro r' hr'
        obtain rfl | hr' := mem_cons.mp hr'
        · rw [hgen]
          obtain heq | ⟨hforced, -⟩ := h.counted.refs
          · exact .inr (heq.symm.trans (h.counted.stopping hstopping))
          · exact .inl hforced
        · exact h.reason r' hr'
      joinedOnce := h.joinedOnce
      joined := h.joined
      unjoined := by
        intro y hy t ht
        obtain rfl := mem_singleton.mp hy
        exact h.unjoined ⟨thread, .tearing (some r)⟩ (by simp [hreapers]) t ht }
  · cases hs

theorem Inv.finish (h : w.Inv) {r : Nat} {reapers : List Reaper} (hreactor : w.engine.reactor = some r)
    (hstopping : w.engine.stopping = true) (hdead : r ∈ w.destroyed)
    (hphase : Phase (reaperFinishLocked w.engine) w.owed reapers w.destroyed)
    (hunjoined : ∀ x ∈ reapers, ∀ t, x.thread = some t → t < w.threads ∧ t ∉ w.joined) :
    ({ w with engine := reaperFinishLocked w.engine, reapers := reapers } : World).Inv where
  phase := hphase
  counted := {
    none_ := fun _ => ⟨rfl, h.counted.stopping hstopping⟩
    some_ := by simp [reaperFinishLocked]
    unique := by
      intro r' hr'
      refine ⟨(h.counted.unique r' hr').1, fun _ hpos => ?_⟩
      exact absurd hpos (Nat.lt_irrefl 0)
    holders := h.counted.holders
    forced := h.counted.forced
    unforced := by simp [reaperFinishLocked]
    refs := by
      have hzero : w.holders.count 0 = 0 :=
        count_eq_zero.mpr fun hmem => Nat.lt_irrefl 0 (h.counted.holders 0 hmem).1
      exact .inl ((h.counted.stopping hstopping).trans hzero.symm)
    stopping := by simp [reaperFinishLocked] }
  once := h.once
  known := h.known
  accounted := by
    intro r' hr'
    obtain hd | hsome := h.accounted r' hr'
    · exact .inl hd
    · rw [hreactor, some.injEq] at hsome
      exact .inl (hsome ▸ hdead)
  reason := h.reason
  joinedOnce := h.joinedOnce
  joined := h.joined
  unjoined := hunjoined

theorem Inv.reaperFinish {i : Nat} (h : w.Inv) (hs : w.step (.reaperFinish i) = some w') : w'.Inv := by
  simp only [World.step] at hs
  split at hs
  · rename_i hx
    obtain rfl := some.inj hs
    obtain ⟨r, rfl, hreapers, hreactor, hstopping, howed, hjoinable, -, hdead⟩ := h.reaper hx (by simp)
    have hrest : w.reapers.eraseIdx 0 = [] := by simp [hreapers]
    rw [hrest]
    exact h.finish hreactor hstopping hdead (.idle rfl rfl howed rfl hjoinable) (by simp)
  · rename_i t hx
    obtain rfl := some.inj hs
    obtain ⟨r, rfl, hreapers, hreactor, hstopping, howed, hjoinable, hthread, hdead⟩ := h.reaper hx (by simp)
    obtain rfl := hthread t rfl
    have hrest : w.reapers.set 0 ⟨some w.engine.reaperThread, .past⟩ = [⟨some w.engine.reaperThread, .past⟩] := by
      simp [hreapers]
    rw [hrest]
    refine h.finish hreactor hstopping hdead (.finished rfl rfl howed rfl hjoinable) ?_
    intro y hy t ht
    obtain rfl := mem_singleton.mp hy
    exact h.unjoined ⟨some w.engine.reaperThread, .torn⟩ (by simp [hreapers]) t ht
  · cases hs

theorem Inv.step {a : Action} (h : w.Inv) (hs : w.step a = some w') : w'.Inv := by
  cases a with
  | acquire watcher reactorMem logMem => exact (h.acquire hs).1
  | release i => exact h.release hs
  | forceStop gen => exact some.inj hs ▸ h.forceStop gen
  | spawnReaper threadMem =>
    simp only [World.step] at hs
    split at hs
    · cases hs
    · rename_i howed
      exact some.inj hs ▸ h.spawn howed threadMem
  | reaperRead i => exact h.reaperRead hs
  | reaperDestroy i => exact h.reaperDestroy hs
  | reaperFinish i => exact h.reaperFinish hs
  | joinFinished =>
    simp only [World.step] at hs
    split at hs
    · exact some.inj hs ▸ h
    · rename_i hstop
      obtain ⟨w₁, hjoin, hinv, -⟩ := h.join (by simpa using hstop)
      rw [hjoin] at hs
      exact some.inj hs ▸ hinv
  | waitUntilStopped =>
    simp only [World.step] at hs
    split at hs
    · cases hs
    · rename_i hwait
      obtain ⟨w₁, hjoin, hinv, -⟩ := h.join (by simpa using fun hstop => hwait (.inr hstop))
      rw [hjoin] at hs
      exact some.inj hs ▸ hinv

theorem Reachable.inv (h : w.Reachable) : w.Inv :=
  Reach.invariant Inv.start (fun _ _ _ hinv hs => hinv.step hs) h

end World

end Ccollections.Chttpserver.Engine
