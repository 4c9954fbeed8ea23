import Ccollections.Chttpserver.Lemmas.BodyMemoryRuns
import Ccollections.Chttpserver.Lemmas.Engine
import Ccollections.Chttpserver.Lemmas.Query
import Ccollections.Chttpserver.Lemmas.RouteRegistry
import Ccollections.Chttpserver.Lemmas.SlowClient
import Ccollections.Chttpserver.Lemmas.StreamQueue
import Mathlib.Data.Set.Finite.Lemmas
import Mathlib.Data.Set.Finite.List

/-!
# Body memory stays within its limit, and its waiters are served
-/

namespace Ccollections.Chttpserver.BodyMemory
open Lib Option

variable {w w' : World} {cap : Nat}

namespace World

structure MemoryKept (w : World) (cap : Nat) : Prop where
  inUse : w.srv.memInUse = ∑ c ∈ Finset.range w.accepted, (w.conns c).memCharged
  noWrap : w.srv.memInUse ≤ sizeMax
  holders : w.srv.memHolders = ((Finset.range w.accepted).filter fun c => 0 < (w.conns c).memCharged).card
  blocked : w.srv.memBlocked =
    ((Finset.range w.accepted).filter fun c => 0 < (w.conns c).memCharged ∧ (w.conns c).inMemWait = true).card
  exempt : w.srv.memExemptActive = true ↔ ∃! c, (w.conns c).memExempt = true
  /-- The links run through the waiting connections by age, and every wait is in the list or ended once. -/
  listed : ∃ l, Dll (fun c => (w.conns c).memNext) (fun c => (w.conns c).memPrev) w.srv.memHead w.srv.memTail l ∧
    (∀ c, c ∈ l ↔ (w.conns c).inMemWait = true) ∧ w.srv.memWaiting = l.length ∧ (l.map w.ticket).Pairwise (· < ·) ∧
    (w.admitted ++ w.swept ++ w.flushed ++ l.map w.ticket).Perm (List.range w.enqueued)
  limit : (∀ c, (w.conns c).memExempt = false) → w.srv.memInUse ≤ cap
  exceeds : ∀ c B, (w.conns c).memExempt = true → w.asked c ≤ B → w.srv.memInUse ≤ cap + B

theorem Inv.memoryKept {l : List Nat} {e : Option Nat} (h : w.Inv l e) (hbounded : w.Bounded cap) : w.MemoryKept cap where
  inUse := h.books.sum
  noWrap := h.books.room
  holders := by
    rw [h.books.held, Finset.card_filter]
    simp only [Nat.pos_iff_ne_zero]
  blocked := by
    rw [h.books.waits, List.countP_eq_length_filter, ← List.toFinset_card_of_nodup (h.listing.dll.nodup.filter _)]
    congr 1
    ext c
    have hin := h.listing.inMemWait c
    simp only [List.mem_toFinset, List.mem_filter, decide_eq_true_eq, Finset.mem_filter, Finset.mem_range, Nat.pos_iff_ne_zero,
      ← hin]
    constructor
    · intro ⟨hmem, hne⟩
      exact ⟨h.lt_accepted (by simp [(h.listing.listed c).mp hmem]), hne, hmem⟩
    · intro ⟨_, hne, hmem⟩
      exact ⟨hmem, hne⟩
  exempt := by
    rw [h.exempted.flag, isSome_iff_exists]
    simp only [h.exempted.marked]
    constructor
    · rintro ⟨c, rfl⟩
      exact ⟨c, rfl, fun d hd => (some.inj hd).symm⟩
    · rintro ⟨c, hc, _⟩
      exact ⟨c, hc⟩
  listed := ⟨l, h.listing.dll, h.listing.inMemWait, h.listing.len, (List.pairwise_append.mp h.tickets.order).2.1, h.tickets.once⟩
  limit := by
    intro hcalm
    exact hbounded.limit ▸ hbounded.calm hcalm
  exceeds := by
    intro c B hc hB
    have hle := hbounded.exempt c hc
    have hasked := h.asked c
    rw [hbounded.limit] at hle
    omega

/-- A reservation of a connection that is not exempt is refused while anybody waits, and the admissions went in the
order of the waits. -/
structure TurnsKept (w : World) : Prop where
  refused : ∀ c need w', w.srv.memHead ≠ none → (w.conns c).memExempt = false → w.step (.tryReserve c need) = some w' →
    w'.srv = w.srv ∧ w'.conns = w.conns
  order : ∃ l, Dll (fun c => (w.conns c).memNext) (fun c => (w.conns c).memPrev) w.srv.memHead w.srv.memTail l ∧
    (w.admitted ++ l.map w.ticket).Pairwise (· < ·)

theorem Inv.turnsKept {l : List Nat} {e : Option Nat} (h : w.Inv l e) : w.TurnsKept where
  refused := by
    intro c need w' hhead hexempt hs
    simp only [World.step] at hs
    split at hs
    · split at hs
      · obtain rfl := some.inj hs
        have hno : ((w.conns c).memExempt || (w.srv.memHead.isNone && w.srv.fits need)) = false := by
          simp [hexempt, hhead]
        simp [World.tryReserve, hno, give]
      · cases hs
    · cases hs
  order := ⟨l, h.listing.dll, h.tickets.order⟩

end World

/-- The body memory is accounted for and bounded in every run that keeps the limit. -/
theorem body_memory_bounded (h : Reach World.stepFixed (.start cap) w) : w.MemoryKept cap := by
  obtain ⟨⟨l, e, hinv⟩, hbounded⟩ := World.bounded_of_fixed h
  exact hinv.memoryKept hbounded

/-- A connection with 60 of 100 bytes waits for 50 more before two others. It goes ahead, and its later reservations
exceed the limit. -/
theorem body_memory_bounded_exempt : ∃ w : World, Reach World.stepFixed (.start 100) w ∧ w.srv.memInUse = 210 ∧
    w.srv.memWaiting = 2 ∧ (w.conns 0).memExempt = true ∧ w.MemoryKept 100 := by
  have hrun : Reach World.stepFixed (.start 100) _ :=
    ((((((((((((((((Reach.refl.tail (i := Action.accept) rfl).tail (i := .accept) rfl).tail (i := .accept) rfl).tail
      (i := .tryReserve 0 60) rfl).tail (i := .tryReserve 0 50) rfl).tail (i := .enqueue 0 0) rfl).tail
      (i := .tryReserve 1 10) rfl).tail (i := .enqueue 1 0) rfl).tail (i := .tryReserve 2 10) rfl).tail
      (i := .enqueue 2 1) rfl).tail (i := .admitCall) rfl).tail (i := .admitRound) rfl).tail (i := .admitRound) rfl).tail
      (i := .dispatch) rfl).tail (i := .admitRelock) rfl).tail (i := .admitRound) rfl).tail (i := .tryReserve 0 1000) rfl
  exact ⟨_, hrun, rfl, rfl, rfl, body_memory_bounded hrun⟩

/-- Who waits for body memory waits for good reason in every run whose starts are fair, and a start that is not leaves a
waiter behind. -/
theorem body_memory_waiters_served (h : w.Reachable) : w.TurnsKept ∧
    (∀ cap, Reach World.stepFair (.start cap) w → w.Settled) ∧
    ∀ a w', w.startsFair a = false → w.step a = some w' → ¬w'.Settled := by
  obtain ⟨l, e, hinv⟩ := h.inv
  refine ⟨hinv.turnsKept, fun cap => World.settled_of_fair, ?_⟩
  intro a w' hunfair hs hsettled
  cases a with
  | startStore cap =>
    simp only [World.startsFair, Bool.or_eq_false_iff, Bool.not_eq_false'] at hunfair
    simp only [World.step] at hs
    split at hs
    · obtain rfl := some.inj hs
      have hheld := hsettled hunfair.1.1 hunfair.1.2
      exact absurd (hunfair.2.symm.trans hheld) (by simp)
    · cases hs
  | startReopen =>
    simp only [World.startsFair, Bool.or_eq_false_iff, Bool.not_eq_false'] at hunfair
    simp only [World.step] at hs
    split at hs
    · obtain rfl := some.inj hs
      have hheld := hsettled rfl hunfair.1
      exact absurd (hunfair.2.symm.trans hheld) (by simp)
    · cases hs
  | _ => simp [World.startsFair] at hunfair

/-- A request waits while another one holds the whole limit, and no start is involved. -/
theorem body_memory_waiters_served_held : ∃ w : World, w.Reachable ∧ Reach World.stepFair (.start 100) w ∧
    w.srv.memHead = some 1 ∧ w.idle = true ∧ w.Settled := by
  have hrun : Reach World.stepFair (.start 100) _ :=
    ((((((Reach.refl.tail (i := Action.accept) rfl).tail (i := .accept) rfl).tail (i := .tryReserve 0 100) rfl).tail
      (i := .tryReserve 1 50) rfl).tail (i := .enqueue 1 0) rfl).tail (i := .admitCall) rfl).tail (i := .admitRound) rfl
  have hreach : World.Reachable _ := ⟨100,
    ((((((Reach.refl.tail (i := Action.accept) rfl).tail (i := .accept) rfl).tail (i := .tryReserve 0 100) rfl).tail
      (i := .tryReserve 1 50) rfl).tail (i := .enqueue 1 0) rfl).tail (i := .admitCall) rfl).tail (i := .admitRound) rfl⟩
  exact ⟨_, hreach, hrun, rfl, rfl, (body_memory_waiters_served hreach).2.1 100 hrun⟩

/-- A restart raises the limit from 100 to 1000 bytes while one request holds 100 and another waits for 50, and nobody
is about to admit it. -/
theorem raised_limit_leaves_waiter : ∃ w : World, w.Reachable ∧ w.phase = .steady ∧ w.srv.memAdmissionClosed = false ∧
    w.idle = true ∧ w.srv.memHead = some 1 ∧ w.srv.fits (w.conns 1).memNeed = true := by
  have hreach : World.Reachable _ := ⟨100,
    ((((((((Reach.refl.tail (i := Action.accept) rfl).tail (i := .accept) rfl).tail (i := .tryReserve 0 100) rfl).tail
      (i := .tryReserve 1 50) rfl).tail (i := .enqueue 1 0) rfl).tail (i := .admitCall) rfl).tail (i := .admitRound) rfl).tail
      (i := .startStore 1000) rfl).tail (i := .startReopen) rfl⟩
  exact ⟨_, hreach, rfl, rfl, rfl, rfl, rfl⟩

end Ccollections.Chttpserver.BodyMemory

/-!
# Engine generations
-/

namespace Ccollections.Chttpserver.Engine
open Lib Option

def Reaper.active (x : Reaper) : Bool :=
  match x.pc with
  | .past => false
  | _ => true

namespace World

structure TornDownOnce (w : World) : Prop where
  /-- A reactor is destroyed once, and one that is not is the reactor of the engine. -/
  once : w.destroyed.Nodup ∧ ∀ r, r < w.reactors ↔ r ∈ w.destroyed ∨ w.engine.reactor = some r
  reason : ∀ r ∈ w.destroyed, w.generationOf r ∈ w.forced ∨ w.holders.count (w.generationOf r) = 0
  /-- Each stop has one reap, to be spawned or running. -/
  reap : w.owed + (w.reapers.filter Reaper.active).length = if w.engine.stopping then 1 else 0
  unjoined : (w.reapers.filterMap Reaper.thread).length ≤ 1 ∧ w.joined.Nodup ∧
    ∀ t ∈ w.reapers.filterMap Reaper.thread, t ∉ w.joined
  refs : w.engine.generation ∉ w.forced → w.engine.reactorRefs = w.holders.count w.engine.generation

structure KeepsGenerations (w : World) : Prop where
  release : ∀ i g w', w.holders[i]? = some g → g ≠ w.engine.generation → w.step (.release i) = some w' →
    w' = { w with holders := w.holders.eraseIdx i }
  forceStop : ∀ g, g ≠ w.engine.generation → w.step (.forceStop g) = some w
  acquire : ∀ watcher reactorMem logMem w', w.step (.acquire watcher reactorMem logMem) = some w' →
    w'.holders = w.holders ∨
      (w'.holders = w'.engine.generation :: w.holders ∧ w'.engine.stopping = false ∧ w'.owed = 0 ∧ w'.reapers = [] ∧
        ∃ r, w'.engine.reactor = some r ∧ r ∉ w'.destroyed)
  /-- Whoever joins a reaper while the engine is not stopping does not wait for a thread that needs the mutex. -/
  join : w.engine.stopping = false → w.joinReaperIfNeededLocked.isSome

theorem Inv.tornDownOnce {w : World} (h : w.Inv) : w.TornDownOnce where
  once := by
    refine ⟨h.once, fun r => ⟨h.accounted r, ?_⟩⟩
    rintro (hd | hr)
    · exact h.known r hd
    · exact (h.counted.some_ r hr).1
  reason := h.reason
  reap := by
    cases h.phase with
    | idle _ hstopping howed hreapers => simp [hstopping, howed, hreapers]
    | finished _ hstopping howed hreapers => simp [hstopping, howed, hreapers, Reaper.active]
    | running r _ hstopping howed hreapers => simp [hstopping, howed, hreapers]
    | requested r _ hstopping howed hreapers => simp [hstopping, howed, hreapers]
    | reaping r x _ hstopping howed hreapers _ _ hpc =>
      have hactive : x.active = true := by
        cases hx : x.pc with
        | past => simp [hx, TearsDown] at hpc
        | starting => simp [Reaper.active, hx]
        | tearing loop => simp [Reaper.active, hx]
        | torn => simp [Reaper.active, hx]
      simp [hstopping, howed, hreapers, hactive]
  unjoined := by
    refine ⟨?_, h.joinedOnce, ?_⟩
    · have hone : w.reapers.length ≤ 1 := by
        cases h.phase with
        | idle _ _ _ hreapers => simp [hreapers]
        | finished _ _ _ hreapers => simp [hreapers]
        | running r _ _ _ hreapers => simp [hreapers]
        | requested r _ _ _ hreapers => simp [hreapers]
        | reaping r x _ _ _ hreapers => simp [hreapers]
      exact Nat.le_trans (List.length_filterMap_le _ _) hone
    · intro t ht
      obtain ⟨x, hx, hthread⟩ := List.mem_filterMap.mp ht
      exact (h.unjoined x hx t hthread).2
  refs := by
    intro hunforced
    obtain heq | ⟨hforced, -⟩ := h.counted.refs
    · exact heq
    · exact (hunforced hforced).elim

theorem Inv.keepsGenerations {w : World} (h : w.Inv) : w.KeepsGenerations where
  release := by
    intro i g w' hg hne hs
    simp only [World.step, hg, bind_eq_bind, bind_some, engineReleaseBegin, hne, ne_eq, not_false_eq_true,
      or_true, if_true, Bool.false_eq_true, if_false, some.injEq] at hs
    exact hs.symm
  forceStop := by
    intro g hne
    simp [World.step, engineForceStopNow, hne]
  acquire := fun _ _ _ _ hs => (h.acquire hs).2
  join := by
    intro hstop
    obtain ⟨w', hjoin, -⟩ := h.join hstop
    rw [hjoin]
    rfl

end World

/-- In every run each engine is torn down once, for a reason, and the count is right unless a stop dropped it. -/
theorem engine_generations_torn_down_once {w : World} (h : w.Reachable) : w.TornDownOnce ∧ w.KeepsGenerations :=
  ⟨h.inv.tornDownOnce, h.inv.keepsGenerations⟩

/-- A server starts, its engine is stopped and reaped on a thread. -/
theorem engine_generations_torn_down_once_stopped :
    ∃ w : World, w.Reachable ∧ w.destroyed = [0] ∧ w.engine.reactor = none ∧ w.TornDownOnce ∧ w.KeepsGenerations := by
  have hrun : World.Reachable _ :=
    ((((((Reach.refl.tail (i := Action.acquire true true true) rfl).tail (i := .forceStop 1) rfl).tail
      (i := .spawnReaper true) rfl).tail (i := .reaperRead 0) rfl).tail (i := .reaperDestroy 0) rfl).tail
      (i := .reaperFinish 0) rfl)
  obtain ⟨hdown, hkeeps⟩ := engine_generations_torn_down_once hrun
  exact ⟨_, hrun, rfl, rfl, hdown, hkeeps⟩

/-- A stop drops the count of its generation while a server still holds a reference. -/
theorem force_stop_drops_refs :
    ∃ w : World, w.Reachable ∧ w.engine.generation = 1 ∧ w.holders = [1] ∧
      w.engine.reactorRefs ≠ w.holders.count w.engine.generation := by
  have hrun : World.Reachable _ := (Reach.refl.tail (i := Action.acquire true true true) rfl).tail (i := .forceStop 1) rfl
  exact ⟨_, hrun, rfl, rfl, by decide⟩

end Ccollections.Chttpserver.Engine

/-!
# The route search does what it means
-/

namespace Ccollections.Chttpserver.RouteSearch
open Option
open Chttpclient (Method)

/-- Exactly one owner fits, and the search answers what it answers: the root for the whole path, or the routers on the
owner's prefix for the rest of it. -/
structure SearchKept (srv : Server) (g : Registry) (path : List UInt8) (method : Method) : Prop where
  owner : ∃! o, g.IsOwner (rawSegs path) o
  root : g.IsOwner (rawSegs path) none → findRoute srv path method = answer method [g.root] none (some path)
  boundary : ∀ P rest, g.IsOwner (rawSegs path) (some P) → EndsAt P (rawSegs path) rest →
    findRoute srv path method = answer method (g.mountedOn P) (g.mountedOn P).head? (some rest)
  inside : ∀ P, g.IsOwner (rawSegs path) (some P) → (∀ rest, ¬EndsAt P (rawSegs path) rest) →
    findRoute srv path method = answer method (g.mountedOn P) (g.mountedOn P).head? none
  guarded : ∀ P, g.IsOwner (rawSegs path) (some P) → ∃ r ∈ g.mountedOn P, (findRoute srv path method).router = some r

variable {srv : Server} {g : Registry} {path : List UInt8} {method : Method}

theorem router_reject (owner : Option Router) (allowed : Nat) : (reject owner allowed).router = owner := by
  unfold reject
  split <;> rfl

theorem router_answer {routers : List Router} {owner : Option Router} {rest : Option (List UInt8)} :
    (∃ r ∈ routers, (answer method routers owner rest).router = some r) ∨ (answer method routers owner rest).router = owner := by
  cases rest with
  | none => exact .inr (router_reject owner 0)
  | some rest =>
    unfold answer
    dsimp only
    cases hfind : routers.findSome? fun r => (pick method (matching r.routes (rawSegs rest))).map (r, ·) with
    | none => exact .inr (router_reject owner _)
    | some found =>
      obtain ⟨r, hr, hpick⟩ := List.exists_of_findSome?_eq_some hfind
      obtain ⟨m, _, rfl⟩ := map_eq_some_iff.mp hpick
      exact .inl ⟨r, hr, rfl⟩

theorem Registry.exists_owner (g : Registry) (raws : List (List UInt8)) : ∃ o, g.IsOwner raws o := by
  by_cases hany : ∃ r ∈ g.mounts, Owns r.routerPrefix raws
  · obtain ⟨r, ⟨hr, howns⟩, hmax⟩ := Set.exists_max_image {r | r ∈ g.mounts ∧ Owns r.routerPrefix raws}
      (fun r : Router => r.routerPrefix.length) (g.mounts.finite_toSet.subset fun r hr => hr.1) hany
    exact ⟨some r.routerPrefix, ⟨r, hr, rfl⟩, howns, fun r' hr' howns' => hmax r' ⟨hr', howns'⟩⟩
  · exact ⟨none, fun r hr howns => hany ⟨r, hr, howns⟩⟩

theorem Refines.findRoute_eq (h : Refines srv g) :
    findRoute srv path method = visitWhole path method (rawSegs path) (srv.subs ++ [srv.root]) none 0 := by
  have hroot : srv.root.routerPrefix.length = 0 := by rw [h.rootPrefix, List.length_nil]
  unfold findRoute
  dsimp only
  split
  · refine visit_eq (cached_segCacheBuild path (srv.maxPrefixSegCount + 1)) ?_
    intro r hr
    obtain hr | hr := List.mem_append.mp hr
    · have hok := h.routers r hr
      refine ⟨hok.routes, fun _ => ⟨hok.mount, ?_⟩⟩
      rw [← hok.count]
      exact Nat.lt_succ_of_le (h.bound r hr)
    · obtain rfl := List.mem_singleton.mp hr
      exact ⟨h.rootRoutes, fun hne => absurd hroot hne⟩
  · rename_i hfew
    have hsubs : srv.subs = [] := List.length_eq_zero_iff.mp (by omega)
    rw [hsubs]
    refine visit_eq (Cached.nil (n := 0) _ (Nat.zero_min _)) ?_
    intro r hr
    obtain rfl := List.mem_singleton.mp hr
    exact ⟨h.rootRoutes, fun hne => absurd hroot hne⟩

theorem Refines.searchKept (h : Refines srv g) : SearchKept srv g path method := by
  have hmounts : ∀ P, g.IsOwner (rawSegs path) (some P) → MountOk P ∧ findRoute srv path method =
      answer method (g.mountedOn P) (g.mountedOn P).head? (matchPrefix P (rawSegs path)).behind := by
    rintro P ⟨⟨r, hr, rfl⟩, howns, hlongest⟩
    refine ⟨(h.routers r (h.mem.mpr hr)).mount, ?_⟩
    rw [h.findRoute_eq, ← h.filter]
    exact visitWhole_mounts h.rootPrefix h.routers h.sorted ⟨r, h.mem.mpr hr, rfl⟩ howns fun r' hr' => hlongest r' (h.mem.mp hr')
  constructor
  · obtain ⟨o, ho⟩ := g.exists_owner (rawSegs path)
    refine ⟨o, ho, fun o' ho' => ?_⟩
    cases o with
    | none =>
      cases o' with
      | none => rfl
      | some P' =>
        obtain ⟨⟨r, hr, rfl⟩, howns, _⟩ := ho'
        exact absurd howns (ho r hr)
    | some P =>
      obtain ⟨⟨r, hr, rfl⟩, howns, hlongest⟩ := ho
      cases o' with
      | none => exact absurd howns (ho' r hr)
      | some P' =>
        obtain ⟨⟨r', hr', rfl⟩, howns', hlongest'⟩ := ho'
        have hle := hlongest r' hr' howns'
        have hle' := hlongest' r hr howns
        have hok := h.routers r (h.mem.mpr hr)
        have hok' := h.routers r' (h.mem.mpr hr')
        obtain heq | hlt := howns.eq_or_lt howns' hok.mount hok'.mount hle'
        · rw [heq]
        · obtain heq | hlt' := howns'.eq_or_lt howns hok'.mount hok.mount hle
          · rw [heq]
          · omega
  · intro hnone
    rw [h.findRoute_eq, ← h.root]
    exact visitWhole_root h.rootPrefix h.routers fun r hr => hnone r (h.mem.mp hr)
  · intro P rest howner hends
    obtain ⟨hP, hfind⟩ := hmounts P howner
    rw [hfind, (matchPrefix_boundary hP).mpr hends]
    rfl
  · intro P howner hnot
    obtain ⟨hP, hfind⟩ := hmounts P howner
    rw [hfind]
    cases hm : matchPrefix P (rawSegs path) with
    | boundary rest => exact absurd ((matchPrefix_boundary hP).mp hm) (hnot rest)
    | _ => rfl
  · intro P howner
    obtain ⟨_, hfind⟩ := hmounts P howner
    obtain ⟨⟨r, hr, hsame⟩, _⟩ := howner
    have hmem : r ∈ g.mountedOn P := List.mem_filter.mpr ⟨hr, by simpa using hsame⟩
    rw [hfind]
    obtain hcand | howned : (∃ r ∈ g.mountedOn P, (answer method (g.mountedOn P) _ _).router = some r) ∨ _ := router_answer
    · exact hcand
    · cases hmounted : g.mountedOn P with
      | nil => simp [hmounted] at hmem
      | cons first others => exact ⟨first, List.mem_cons_self, by simpa [hmounted] using howned⟩

theorem findRoute_means (regs : List Registration) (path : List UInt8) (method : Method) :
    SearchKept (.registered regs) (.registered regs) path method :=
  (Refines.registered regs).searchKept

/-- A guarded mount owns the path of which it reads its own prefix, whatever the slashes are escaped as. -/
example : findRoute (.registered [.route 0 .get (ascii "/{any}") 0, .subrouter (ascii "/admin"), .route 1 .get (ascii "/secret") 1])
    (ascii "/admin%2Fsecret") .get = .none (some ⟨1, ascii "/admin", 1, [⟨.get, [ascii "secret"], [], 1⟩], 1⟩) := by
  decide +kernel

end Ccollections.Chttpserver.RouteSearch

/-!
# Every streaming request is served once
-/

namespace Ccollections.Chttpserver.StreamQueue
open Lib Option

namespace World

/-- Whether a token start that takes the lock has read the thread count of the run that is current under the lock. -/
def readsOwnCount (w : World) : Action → Bool
  | .startLock i =>
    match w.acts[i]? with
    | some (.locking nthreads) => nthreads = w.runThreads
    | _ => true
  | _ => true

def stepOwn (w : World) (a : Action) : Option World := if w.readsOwnCount a then w.step a else none

structure QueueKept (w : World) : Prop where
  len : w.srv.sqLen = w.srv.queue.length
  tokens : w.srv.sqTokens = w.acts.countP (·.isToken w.srv.streamGen)
  unclaimed : w.srv.sqUnclaimed = w.acts.countP (·.isUnclaimed w.srv.streamGen)
  /-- Every request ever queued is in the queue or was taken by a task, the sweep or a flush, and that once. -/
  once : (w.byTask ++ w.bySweep ++ w.byFlush ++ w.srv.queue.map Queued.conn).Perm (List.range w.accepted)
  /-- The tasks took the requests in the order they came in, and the queue has the later ones in that order. -/
  fifo : (w.byTask ++ w.srv.queue.map Queued.conn).Pairwise (· < ·)
  /-- A token of an earlier run changes neither the queue nor the counts. -/
  stale : ∀ i gen w', gen ≠ w.srv.streamGen →
    (∃ first, w.acts[i]? = some (.task gen first) ∧ w.step (.taskLock i) = some w') ∨
      (w.acts[i]? = some (.undoing gen) ∧ w.step (.undo i) = some w') →
    w'.srv = w.srv ∧ w'.byTask = w.byTask
  /-- No request stays queued where no token of the run is left and no start or flush is owed. -/
  attended : w.srv.sqTokens = 0 → (∀ a ∈ w.acts, a.isOwed w.srv.streamGen = false) → w.srv.queue = []

theorem Inv.queueKept {w : World} (h : w.Inv) : w.QueueKept where
  len := h.len
  tokens := h.tokens
  unclaimed := h.unclaimed
  once := h.once
  fifo := h.fifo
  stale := by
    rintro i gen w' hgen (⟨first, hi, hs⟩ | ⟨hi, hs⟩)
    · simp only [World.step, hi, some.injEq] at hs
      subst hs
      rw [World.taskLock, if_pos (Ne.symm hgen)]
      exact ⟨rfl, rfl⟩
    · simp only [World.step, hi, some.injEq] at hs
      subst hs
      rw [World.undo, if_neg (Ne.symm hgen)]
      exact ⟨rfl, rfl⟩
  attended := by
    intro hzero hnone
    obtain hempty | hpos | ⟨a, ha, howed⟩ := h.attended
    · exact hempty
    · rw [hzero] at hpos
      cases hpos
    · rw [hnone a ha] at howed
      cases howed

/-- A step that reads the count of its own run keeps the tokens below it. -/
theorem tokens_le_step {w w' : World} {a : Action} (h : w.srv.sqTokens ≤ w.runThreads) (hs : w.stepOwn a = some w') :
    w'.srv.sqTokens ≤ w'.runThreads := by
  simp only [stepOwn, ite_none_right_eq_some] at hs
  obtain ⟨hown, hs⟩ := hs
  cases a with
  | enqueue =>
    obtain rfl := some.inj hs
    unfold World.enqueue
    split <;> exact h
  | enqueueLock i deadline qcap =>
    simp only [World.step] at hs
    split at hs
    · obtain rfl := some.inj hs
      unfold World.enqueueLock
      split <;> exact h
    · cases hs
  | startLock i =>
    simp only [World.step] at hs
    split at hs
    · rename_i n hi
      obtain rfl := some.inj hs
      simp only [readsOwnCount, hi, decide_eq_true_eq] at hown
      unfold World.startLock
      split
      · rename_i hcount
        exact hown ▸ hcount.2.2
      · exact h
    · cases hs
  | undo i =>
    simp only [World.step] at hs
    split at hs
    · obtain rfl := some.inj hs
      unfold World.undo
      dsimp only
      split
      · split <;> exact Nat.le_trans (Nat.sub_le _ _) h
      · exact h
    · cases hs
  | flushBatch i =>
    simp only [World.step] at hs
    split at hs
    · obtain rfl := some.inj hs
      unfold World.flushBatch
      dsimp only
      split <;> exact h
    · cases hs
  | taskLock i =>
    simp only [World.step] at hs
    split at hs
    · obtain rfl := some.inj hs
      unfold World.taskLock
      split
      · exact h
      · dsimp only
        split
        · exact Nat.le_trans (Nat.sub_le _ _) h
        · exact h
    · cases hs
  | submit i ok =>
    simp only [World.step] at hs
    split at hs
    · split at hs <;> exact some.inj hs ▸ h
    · cases hs
  | startRead i | served i =>
    simp only [World.step] at hs
    split at hs
    · exact some.inj hs ▸ h
    · cases hs
  | startStore streamingThreadCount workerThreadCount cpus =>
    simp only [World.step] at hs
    split at hs
    · cases hs
    · exact some.inj hs ▸ h
  | startDone =>
    simp only [World.step] at hs
    split at hs
    · exact some.inj hs ▸ h
    · cases hs
  | startRun | startFail =>
    simp only [World.step] at hs
    split at hs
    · exact some.inj hs ▸ Nat.zero_le _
    · cases hs
  | sweep now => exact some.inj hs ▸ h
  | flush => exact some.inj hs ▸ h
  | retire => exact some.inj hs ▸ Nat.zero_le _

end World

/-- The queue is kept in every run, and a run has at most as many tokens as threads when no token counts with another
run's threads. -/
theorem stream_queue_serves_once {w : World} (h : w.Reachable) :
    w.QueueKept ∧ (Reach World.stepOwn .start w → w.srv.sqTokens ≤ w.runThreads) :=
  ⟨h.inv.queueKept, Reach.invariant (P := fun w => w.srv.sqTokens ≤ w.runThreads) (Nat.zero_le _)
    fun _ _ _ hle hs => World.tokens_le_step hle hs⟩

/-- A server with one streaming thread, on which a request waits for the token that was counted for it. -/
theorem stream_queue_serves_once_counted :
    ∃ w : World, w.Reachable ∧ Reach World.stepOwn .start w ∧ w.srv.sqTokens = 1 ∧ w.srv.queue = [⟨0, none⟩] ∧ w.QueueKept ∧
      w.srv.sqTokens ≤ w.runThreads := by
  have hrun : Reach World.stepOwn .start _ :=
    ((((((Reach.refl.tail (i := Action.startStore 1 1 1) rfl).tail (i := .startRun) rfl).tail (i := .enqueue) rfl).tail
      (i := .enqueueLock 0 none none) rfl).tail (i := .startRead 0) rfl).tail (i := .startLock 0) rfl)
  have hreach : World.Reachable _ :=
    ((((((Reach.refl.tail (i := Action.startStore 1 1 1) rfl).tail (i := .startRun) rfl).tail (i := .enqueue) rfl).tail
      (i := .enqueueLock 0 none none) rfl).tail (i := .startRead 0) rfl).tail (i := .startLock 0) rfl)
  obtain ⟨hkept, hle⟩ := stream_queue_serves_once hreach
  exact ⟨_, hreach, hrun, rfl, rfl, hkept, hle hrun⟩

/-- Two requests arrive while a restart has stored its thread count and not begun its run, and the old run counts two
tokens. -/
theorem tokens_exceed_stream_threads : ∃ w : World, w.Reachable ∧ w.runThreads = 1 ∧ w.srv.sqTokens = 2 := by
  have hrun : World.Reachable _ :=
    (((((((((((((Reach.refl.tail (i := Action.startStore 1 1 1) rfl).tail (i := .startRun) rfl).tail
      (i := .startDone) rfl).tail (i := .enqueue) rfl).tail (i := .enqueueLock 0 none none) rfl).tail (i := .startRead 0) rfl).tail
      (i := .startLock 0) rfl).tail (i := .startStore 2 1 1) rfl).tail (i := .enqueue) rfl).tail
      (i := .enqueueLock 0 none none) rfl).tail (i := .startRead 0) rfl).tail (i := .startLock 0) rfl))
  exact ⟨_, hrun, rfl, rfl⟩

end Ccollections.Chttpserver.StreamQueue

namespace Ccollections.Chttpserver.SlowClient

open Option

structure LimitsExact (srv : Settings) (conn : Conn) (k : Kernel) : Prop where
  floor : ∀ start now timeoutMs answer, (floorPhase srv conn start).rateStart.ns ≤ now.ns →
    rateFloorShrink srv conn start now timeoutMs = some answer → ShrinksToFloor srv now timeoutMs answer
  /-- No step divides by zero, and none overflows while the time left and the millisecond that crosses the floor fit. -/
  arithmetic : ∀ now, Reading now → Reading conn.rateStart → 0 ≤ conn.ratePausedMs → conn.ratePausedMs ≤ 4611686018427387904 →
    srv.minRateBps ≠ 0 ∧ rateElapsedChecked conn now = some (rateElapsedMs conn now) ∧
      (floorRoom srv conn now < llongMax → floorLeft srv conn now = some (floorRoom srv conn now + 1))
  total : ∀ deadline maxDur now timeoutMs, now.Normal → (∀ d, deadline = some d → d.Normal) →
    ShrinksToDeadline now timeoutMs (shrinkTimeoutAt deadline maxDur now timeoutMs)
  query : ∀ now nowSlow, parkedNeedsKernelQuery srv conn now nowSlow = false → (parkedExpired srv conn now nowSlow k).2.2 = false
  /-- The wait between the claim and its worker. -/
  queued : ∀ now nowSlow claimed, claimed = (parkedExpired srv conn conn.claimMono conn.claimSlow k).2.1 →
    nowSlow.ns - conn.claimSlow.ns ≤ longestWait → now.ns - conn.claimMono.ns ≤ longestWait →
    Moved claimed (connUnchargeQueueWait claimed now nowSlow) (nowSlow.ns - conn.claimSlow.ns) (now.ns - conn.claimMono.ns) ∧
      (conn.park = .body ∨ conn.park = .write → conn.Normal → conn.claimMono.Normal → now.Normal →
        (parkedExpired srv conn conn.claimMono conn.claimSlow k).1 = false →
        (parkedExpired srv (connUnchargeQueueWait claimed now nowSlow) now nowSlow k).1 = false)
  /-- The wait of a body for memory, which begins at `start` on the clock of the total limits. -/
  waited : ∀ start now nowSlow claimed, claimed = (parkedExpired srv conn start conn.memWaitStart k).2.1 →
    nowSlow.ns - conn.memWaitStart.ns ≤ longestWait → now.ns - start.ns ≤ nowSlow.ns - conn.memWaitStart.ns →
    conn.lastProgress.ns ≤ conn.memWaitStart.ns → conn.park = .body →
    Moved claimed (memDispatch { claimed with park := .memBody } nowSlow) (nowSlow.ns - conn.memWaitStart.ns) (now.ns - start.ns) ∧
      (conn.Normal → start.Normal → now.Normal → (parkedExpired srv conn start conn.memWaitStart k).1 = false →
        (parkedExpired srv (memDispatch { claimed with park := .memBody } nowSlow) now nowSlow k).1 = false)

theorem slow_client_limits_exact (srv : Settings) (conn : Conn) (k : Kernel) (hbytes : conn.rateBytes ≤ uint64Max) :
    LimitsExact srv conn k where
  floor start now timeoutMs answer hnow h := rateFloorShrink_exact hbytes hnow h
  arithmetic now hnow hstart hlow hhigh :=
    ⟨Nat.pos_iff_ne_zero.mp srv.rate_pos, (rateElapsedChecked_eq hnow hstart ⟨hlow, hhigh⟩).1,
      floorLeft_some hnow hstart ⟨hlow, hhigh⟩⟩
  total deadline maxDur now timeoutMs hnow hdeadline := shrinkTimeoutAt_exact deadline maxDur timeoutMs hnow hdeadline
  query now nowSlow h := parked_needs_no_query now nowSlow h k
  queued := by
    rintro now nowSlow claimed rfl hslow hmono
    obtain ⟨queued, outq, progress, hleft, -⟩ := parkedExpired_noted srv conn conn.claimMono conn.claimSlow k
    have hmoved := @connUnchargeQueueWait_moved now nowSlow (parkedExpired srv conn conn.claimMono conn.claimSlow k).2.1
      (by rw [hleft]; exact hslow) (by rw [hleft]; exact hmono)
    rw [hleft] at hmoved ⊢
    refine ⟨hmoved, fun hpark hnormal hclaim hnow hkept => ?_⟩
    have hfine := fine_of_not_expired hpark hkept
    rw [hleft] at hfine
    refine (Moved.fine ?_ hclaim hnow hmoved hfine).not_expired (by rw [hmoved.same.1]; exact hpark)
    exact hnormal
  waited := by
    rintro start now nowSlow claimed rfl hslow hmono hprogress hpark
    obtain ⟨queued, outq, progress, hleft, hlast⟩ := parkedExpired_noted srv conn start conn.memWaitStart k
    have hbefore : progress.ns ≤ conn.memWaitStart.ns := by
      rcases hlast with rfl | rfl
      · exact hprogress
      · exact Int.le_refl _
    have hmoved := @memDispatch_moved nowSlow { (parkedExpired srv conn start conn.memWaitStart k).2.1 with park := .memBody }
      (now.ns - start.ns) (by rw [hleft]; exact hslow) (by rw [hleft]; exact hbefore) (by rw [hleft]; exact hmono)
    rw [hleft] at hmoved ⊢
    simp only [← hpark] at hmoved
    refine ⟨hmoved, fun hnormal hstart hnow hkept => ?_⟩
    have hfine := fine_of_not_expired (.inl hpark) hkept
    rw [hleft] at hfine
    refine (Moved.fine ?_ hstart hnow hmoved hfine).not_expired (.inl rfl)
    exact hnormal

/-- A body at the floor of 1 byte a second, a second after its phase began and before its first byte. -/
def slowBody : Conn :=
  { park := .body, readDeadline := some ⟨60, 0⟩, writeDeadline := none, lingerDeadline := ⟨0, 0⟩, rateActive := true
    rateStart := ⟨0, 0⟩, ratePausedMs := 0, rateBytes := 0, lastProgress := ⟨0, 0⟩, rateQueued := 0, rcvlowat := 1
    wpOutq := 0, claimMono := ⟨1, 0⟩, claimSlow := ⟨1, 0⟩, memWaitStart := ⟨1, 0⟩ }

def oneByte : Settings :=
  { minRateBps := 1, rateGraceMs := 5000, streamReadTimeoutMs := 3000, responseWriteTimeoutMs := 0, isUnixSocket := false
    rate_pos := by decide, grace_le := by decide }

/-- A wait of an hour in the queue does not expire it. -/
theorem slow_client_limits_exact_hour :
    (∃ answer, rateFloorShrink oneByte slowBody ⟨0, 0⟩ ⟨1, 0⟩ 0 = some answer ∧ ShrinksToFloor oneByte ⟨1, 0⟩ 0 answer) ∧
      (parkedExpired oneByte (connUnchargeQueueWait slowBody ⟨3601, 0⟩ ⟨3601, 0⟩) ⟨3601, 0⟩ ⟨3601, 0⟩ ⟨none, none⟩).1 = false := by
  have hexact := slow_client_limits_exact oneByte slowBody ⟨none, none⟩ (by decide)
  refine ⟨⟨_, rfl, hexact.floor ⟨0, 0⟩ ⟨1, 0⟩ 0 _ (by decide) rfl⟩, ?_⟩
  refine (hexact.queued ⟨3601, 0⟩ ⟨3601, 0⟩ slowBody rfl (by decide) (by decide)).2 (.inl rfl) ?_ ?_ ?_ rfl
  · rintro d ⟨⟩
    exact ⟨by decide, by decide⟩
  · exact ⟨by decide, by decide⟩
  · exact ⟨by decide, by decide⟩

/-- Bytes that buy more than the longest wait there is: the wait ends and the floor is not crossed. -/
theorem floor_wait_is_cut :
    ∃ answer, rateFloorShrink oneByte { slowBody with rateBytes := 4294967296 } ⟨0, 0⟩ ⟨1, 0⟩ 0 = some answer ∧
      answer.1 = true ∧ rateBelowFloor oneByte answer.2.1 (timespecAddMs ⟨1, 0⟩ answer.2.2) 0 = false :=
  ⟨_, rfl, rfl, rfl⟩

end Ccollections.Chttpserver.SlowClient

namespace Ccollections.Chttpserver.Query

open Option

/-- The parameters of a query and the answers about them, unless the memory ends, which the request says. -/
theorem query_parsing_inverts (rawQuery : List UInt8) :
    (∀ mem, parseQparams rawQuery mem = none ∧ (queryMax ≤ rawQuery.length ∨ ∃ n, mem n = false) ∨
      ∃ k, parseQparams rawQuery mem = some (queryPairs rawQuery, fun n => mem (n + k))) ∧
    (∀ ps, Joined ps rawQuery → queryPairs rawQuery = ps.filterMap id) ∧
    ∀ req, Req.Reached rawQuery req → ∀ key mem seen,
      QueryAnswers rawQuery key req mem (reqQuery req key mem seen) ∧ OneAnswers rawQuery key req mem (reqQueryOne req key mem seen) :=
  ⟨parseQparams_gives rawQuery, fun _ hjoined => hjoined.queryPairs,
    fun _ hreached key mem seen => ⟨(hreached.sound.reqQuery key mem seen).2, (hreached.sound.reqQueryOne key mem seen).2⟩⟩

/-- The query `&a=%41+&%4g&b&&a`. -/
theorem query_parsing_inverts_example :
    Joined [some ([0x61], [0x41, 0x20]), none, some ([0x62], []), some ([0x61], [])]
      [0x26, 0x61, 0x3D, 0x25, 0x34, 0x31, 0x2B, 0x26, 0x25, 0x34, 0x67, 0x26, 0x62, 0x26, 0x26, 0x61] ∧
    valuesOf (queryPairs [0x26, 0x61, 0x3D, 0x25, 0x34, 0x31, 0x2B, 0x26, 0x25, 0x34, 0x67, 0x26, 0x62, 0x26, 0x26, 0x61]) [0x61] =
      [[0x41, 0x20], []] := by
  have hjoined : Joined [some ([0x61], [0x41, 0x20]), none, some ([0x62], []), some ([0x61], [])]
      [0x26, 0x61, 0x3D, 0x25, 0x34, 0x31, 0x2B, 0x26, 0x25, 0x34, 0x67, 0x26, 0x62, 0x26, 0x26, 0x61] := by
    refine .piece (s := [0x61, 0x3D, 0x25, 0x34, 0x31, 0x2B]) 1 (.pair ⟨[0x61], [0x25, 0x34, 0x31, 0x2B], .raw rfl .nil, ?_, .inl rfl⟩)
      (.inr rfl) ?_
    · exact .escape (c := 0x41) false false (by decide) (.plus .nil)
    · refine .piece (s := [0x25, 0x34, 0x67]) 1 (.malformed (by decide) (by decide) (.inl (.digits ?_))) (.inr rfl) ?_
      · intro c u v t _ heq
        have hdigit : RouteSearch.hexNibble 0x67 = some (c &&& 15) := by
          rw [(List.cons.inj (List.cons.inj heq).2).1]
          exact (hexDigit_nibbles u v c).2.1
        cases hdigit
      · refine .piece (s := [0x62]) 1 (.pair ⟨[0x62], [], .raw rfl .nil, .nil, .inr ⟨rfl, by decide, rfl⟩⟩) (.inr rfl) ?_
        exact .piece (s := [0x61]) 2 (.pair ⟨[0x61], [], .raw rfl .nil, .nil, .inr ⟨rfl, by decide, rfl⟩⟩) (.inl rfl) (.ends 0)
  refine ⟨hjoined, ?_⟩
  rw [(query_parsing_inverts _).2.1 _ hjoined]
  decide

end Ccollections.Chttpserver.Query
