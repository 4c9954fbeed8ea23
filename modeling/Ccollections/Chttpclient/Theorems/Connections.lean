import Ccollections.Chttpclient.Lemmas.IdlePool
import Ccollections.Chttpclient.Lemmas.ConnectRace
import Ccollections.Chttpclient.Lemmas.DeadlineSweep

/-!
# The sweep does not sleep past a deadline it has to know
-/

namespace Ccollections.Chttpclient.DeadlineSweep
open Lib List

variable {w : World} {stripeOf : Nat → Fin 16} {wake : Nat}

namespace World

/-- The sweep wakes no later than a deadline ahead, of a hop that it has not timed out and whose note has taken effect.
-/
structure SleepKept (w : World) (stripeOf : Nat → Fin 16) (wake : Nat) : Prop where
  connect : ∀ c d, w.registered stripeOf c → (w.ctxs c).timedOut = false →
    (w.ctxs c).state = .connecting ∨ (w.ctxs c).state = .tlsHandshaking → (w.ctxs c).connectDeadline = some d → w.clock < d →
    ¬w.owed c .connect → wake ≤ d
  overall : ∀ c d, w.registered stripeOf c → (w.ctxs c).timedOut = false → (w.ctxs c).hasChain = true →
    (w.ctxs c).overallDeadline = some d → w.clock < d → ¬w.owed c .overall → wake ≤ d
  /-- The window counts while nothing has decided the wait, unless a walk began between its note and its state. -/
  window : ∀ c d, w.registered stripeOf c → (w.ctxs c).timedOut = false → (w.ctxs c).state = .awaitingContinue →
    (w.ctxs c).continueDecided = false → (w.ctxs c).continueMsgStarted = false → (w.ctxs c).continueDeadline = some d →
    w.clock < d → ¬w.owed c .window → w.unseen c = false → wake ≤ d

end World

theorem sleep_not_past (h : w.Reachable stripeOf) (hsleep : w.sweep = .waiting wake) (hcalm : w.wakePending = false) :
    w.SleepKept stripeOf wake := by
  have hinv := h.inv
  have hwake : wake ≤ w.next := by
    have hok := hinv.sweep
    simp only [SweepOk, hsleep, hcalm] at hok
    exact hok.2.resolve_right (by simp)
  have hle : ∀ c k d, w.Known stripeOf c k d → wake ≤ d := by
    intro c k d hk
    exact Nat.le_trans hwake ((hinv.covered c k d hk).le (by rw [hsleep]; rfl))
  constructor
  · intro c d hreg hrun hstate hd hahead hnoted
    refine hle c .connect d ⟨hreg, hrun, ?_, hd, hahead, hnoted, by simp⟩
    simpa [AsyncCtx.applies, AsyncCtx.isConnecting] using hstate
  · intro c d hreg hrun hchain hd hahead hnoted
    exact hle c .overall d ⟨hreg, hrun, hchain, hd, hahead, hnoted, by simp⟩
  · intro c d hreg hrun hstate hundecided hunstarted hd hahead hnoted hseen
    refine hle c .window d ⟨hreg, hrun, ?_, hd, hahead, hnoted, fun _ => hseen⟩
    simp [AsyncCtx.applies, AsyncCtx.isWaiting, hstate, hundecided, hunstarted]

/-! ## Runs -/

def oneStripe : Nat → Fin 16 := fun _ => 0

def sweeps (n : Nat) : List Action := List.replicate n (.sweep none)

def notes (n : Nat) : List Action := List.replicate n (.note 0 false)

/-- The sweep sleeps until its regular walk, a hop with two deadlines comes, and the sweep is woken for the first of
them. -/
def hopRun (connect overall : Nat) : List Action :=
  .sweepStart :: sweeps 3 ++ .submit 0 (some connect) (some overall) 0 :: notes 5 ++ .wake :: sweeps 3

/-- A walk over one hop that begins at an instant, and the sleep behind it. -/
def walkRun (ns : Nat) : List Action := .tick ns :: .wake :: sweeps 44

/-- The connect deadline of the hop passes, and the walk times it out. -/
def timedOutRun : List Action := hopRun 60000000 70000000 ++ .connected 0 :: .moveOn 0 .tlsHandshaking :: walkRun 60000000

/-- A hop opens a `100 Continue` window, up to the note of it. -/
def windowRun : List Action :=
  .sweepStart :: sweeps 3 ++ .submit 0 none none 0 :: notes 2 ++ .moveOn 0 .writing :: .openWindow 0 150000000 :: notes 3

/-- A walk passes the hop before it is published as awaiting. -/
def unseenRun : List Action := windowRun ++ walkRun 100000000 ++ notes 1

/-- The wait of the hop is decided before a walk passes it. -/
def decidedRun : List Action := windowRun ++ notes 1 ++ .decided 0 :: walkRun 100000000

theorem sleep_not_past_hop : ∃ w : World, w.Reachable oneStripe ∧ w.sweep = .waiting 60000000 ∧ w.wakePending = false ∧
    w.registered oneStripe 0 ∧ w.SleepKept oneStripe 60000000 := by
  have hruns : ∃ w : World, w.Reachable oneStripe ∧
      decide (w.sweep = .waiting 60000000 ∧ w.wakePending = false ∧ w.registered oneStripe 0) = true :=
    Reach.exists_of_runs (hopRun 60000000 70000000) (by decide +kernel)
  obtain ⟨w, hrun, htest⟩ := hruns
  obtain ⟨hsleep, hcalm, hreg⟩ := of_decide_eq_true htest
  exact ⟨w, hrun, hsleep, hcalm, hreg, sleep_not_past hrun hsleep hcalm⟩

/-- A hop that was timed out waits with a deadline that no sleep regards, a walk before a state is stored sees no window,
and a wait that is decided has no window left. -/
theorem slept_past :
    (∃ w : World, w.Reachable oneStripe ∧ w.sweep = .waiting 160000000 ∧ w.wakePending = false ∧ w.registered oneStripe 0 ∧
      (w.ctxs 0).hasChain = true ∧ (w.ctxs 0).overallDeadline = some 70000000 ∧ w.clock < 70000000 ∧ w.noters = []) ∧
    (∃ w : World, w.Reachable oneStripe ∧ w.sweep = .waiting 200000000 ∧ w.wakePending = false ∧ w.registered oneStripe 0 ∧
      (w.ctxs 0).state = .awaitingContinue ∧ (w.ctxs 0).continueDeadline = some 150000000 ∧ w.clock < 150000000 ∧
      w.noters = []) ∧
    ∃ w : World, w.Reachable oneStripe ∧ w.sweep = .waiting 200000000 ∧ w.wakePending = false ∧ w.registered oneStripe 0 ∧
      (w.ctxs 0).state = .awaitingContinue ∧ (w.ctxs 0).continueDeadline = some 150000000 ∧ w.clock < 150000000 ∧
      w.noters = [] ∧ w.unseen 0 = false ∧ (w.ctxs 0).timedOut = false := by
  refine ⟨?_, ?_, ?_⟩
  · have hruns : ∃ w : World, w.Reachable oneStripe ∧
        decide (w.sweep = .waiting 160000000 ∧ w.wakePending = false ∧ w.registered oneStripe 0 ∧ (w.ctxs 0).hasChain = true ∧
          (w.ctxs 0).overallDeadline = some 70000000 ∧ w.clock < 70000000 ∧ w.noters.length = 0) = true :=
      Reach.exists_of_runs timedOutRun (by decide +kernel)
    obtain ⟨w, hrun, htest⟩ := hruns
    simp only [length_eq_zero_iff] at htest
    exact ⟨w, hrun, of_decide_eq_true htest⟩
  · have hruns : ∃ w : World, w.Reachable oneStripe ∧
        decide (w.sweep = .waiting 200000000 ∧ w.wakePending = false ∧ w.registered oneStripe 0 ∧
          (w.ctxs 0).state = .awaitingContinue ∧ (w.ctxs 0).continueDeadline = some 150000000 ∧ w.clock < 150000000 ∧
          w.noters.length = 0) = true :=
      Reach.exists_of_runs unseenRun (by decide +kernel)
    obtain ⟨w, hrun, htest⟩ := hruns
    simp only [length_eq_zero_iff] at htest
    exact ⟨w, hrun, of_decide_eq_true htest⟩
  · have hruns : ∃ w : World, w.Reachable oneStripe ∧
        decide (w.sweep = .waiting 200000000 ∧ w.wakePending = false ∧ w.registered oneStripe 0 ∧
          (w.ctxs 0).state = .awaitingContinue ∧ (w.ctxs 0).continueDeadline = some 150000000 ∧ w.clock < 150000000 ∧
          w.noters.length = 0 ∧ w.unseen 0 = false ∧ (w.ctxs 0).timedOut = false) = true :=
      Reach.exists_of_runs decidedRun (by decide +kernel)
    obtain ⟨w, hrun, htest⟩ := hruns
    simp only [length_eq_zero_iff] at htest
    exact ⟨w, hrun, of_decide_eq_true htest⟩

end Ccollections.Chttpclient.DeadlineSweep

/-!
# The books of the idle pools
-/

namespace Ccollections.Chttpclient
open Lib List

namespace IdlePool

/-- Each connection ever made is with a request, with a running take, in the pool or torn down, and in one of these
once. -/
structure World.BooksKept (w : World) : Prop where
  filed : ∀ key list, w.cli.idlePools.lookup key = some list → ∀ c ∈ list.elems, c.originKey = key
  sizes : ∀ key list, w.cli.idlePools.lookup key = some list →
    1 ≤ list.elems.length ∧ list.elems.length ≤ chttpMaxIdlePerOrigin
  total : w.cli.idleTotalCount = (pooled w.cli.idlePools).length
  bound : w.cli.idleTotalCount ≤ chttpMaxIdleTotal
  places : w.places.Perm (List.range w.made)

/-- The connection of an offer is pooled or torn down, once, and its request has it no more. -/
structure World.OfferSettled (w : World) (c : Conn) : Prop where
  once : serials c.serial (pooled w.cli.idlePools) + serials c.serial w.tornDown = 1
  gone : serials c.serial w.held = 0 ∧ serials c.serial (World.judged w.takes) = 0

structure World.TakeSound (w : World) (key : OriginKey) (c : Conn) (now : Timespec) : Prop where
  origin : c.originKey = key
  age : nsElapsed c.lastUsed now / 1000000 ≤ chttpIdleMaxAgeMs
  /-- Under the lock the connection was in the list of the origin, and for TLS its generation was the client's. -/
  current : ∃ w₀, w₀.Reachable ∧ Relation.ReflTransGen World.Step w₀ w ∧ c ∈ pooled w₀.cli.idlePools ∧
    (c.tls = true → c.tlsGeneration = w₀.cli.tlsGeneration)

theorem World.Reachable.booksKept {w : World} (h : w.Reachable) : w.BooksKept where
  filed := fun key list hlookup => (h.inv.books.kept key list hlookup).filed
  sizes := fun key list hlookup => ⟨(h.inv.books.kept key list hlookup).pos, (h.inv.books.kept key list hlookup).le⟩
  total := h.inv.books.total
  bound := h.inv.books.bound
  places := h.inv.places

theorem World.Inv.count_places {w : World} (h : w.Inv) {n : Nat} (hn : n < w.made) :
    serials n w.held + serials n (World.judged w.takes) + serials n (pooled w.cli.idlePools) + serials n w.tornDown = 1 := by
  rw [← World.count_places, h.places.count_eq, count_eq_one_of_mem nodup_range (mem_range.mpr hn)]

theorem World.Reachable.offerSettled {w w' : World} {i : Nat} {c : Conn} {now : Timespec} {mem : OfferMem} (h : w.Reachable)
    (hc : w.held[i]? = some c) (hs : w.step (.offer i now mem) = some w') : w'.OfferSettled c := by
  have hlt : c.serial < w.made := by
    have hplace : c.serial ∈ w.places :=
      mem_map_of_mem (by simp [mem_of_getElem? hc])
    exact mem_range.mp (h.inv.places.mem_iff.mp hplace)
  have hbefore := h.inv.count_places hlt
  have hheld := serials_perm (perm_eraseIdx hc) c.serial
  have hinv := h.inv.step hs
  simp only [World.step, hc, Option.bind_eq_bind, Option.bind_some] at hs
  -- Both ends of an offer leave the running takes and the other connections of requests as they were.
  have hshape : w'.held = w.held.eraseIdx i ∧ w'.takes = w.takes ∧ w'.made = w.made := by
    split at hs <;> obtain rfl := Option.some.inj hs <;> exact ⟨rfl, rfl, rfl⟩
  obtain ⟨hheld', htakes', hmade'⟩ := hshape
  have hafter := hinv.count_places (hmade' ▸ hlt)
  simp only [serials_cons, if_true] at hheld
  rw [hheld', htakes'] at hafter
  constructor
  · omega
  · rw [hheld', htakes']
    omega

theorem World.Reachable.takeSound {w w' : World} {i : Nat} {key : OriginKey} {c : Conn} {g : UInt64} {now : Timespec}
    {probe : Bool} (h : w.Reachable) (ht : w.takes[i]? = some ⟨key, some (c, g)⟩)
    (hs : w.step (.takeJudge i now probe) = some w') (hreturned : w'.held = c :: w.held) : w.TakeSound key c now := by
  obtain ⟨w₀, hreach, hruns, hg, list, hlookup, hc⟩ := h.traced _ (mem_of_getElem? ht) c g rfl
  simp only [World.step, ht] at hs
  split at hs
  · rename_i halive
    simp only [idlePoolTakeAlive, Bool.and_eq_true, Bool.or_eq_true, Bool.not_eq_true', decide_eq_true_eq,
      msElapsedFloor_eq] at halive
    obtain ⟨⟨hage, htls⟩, -⟩ := halive
    exact {
      origin := (hreach.inv.books.kept key list hlookup).filed c hc
      age := hage
      current := by
        refine ⟨w₀, hreach, hruns, Buckets.mem_members.mpr ⟨key, list, hlookup, hc⟩, ?_⟩
        intro histls
        rw [hg]
        exact htls.resolve_left (by simp [histls]) }
  · obtain rfl := Option.some.inj hs
    exact (cons_ne_self _ _ hreturned.symm).elim

end IdlePool

namespace AsyncIdlePool

structure World.BooksKept (w : World) : Prop where
  /-- A context is live as long as it has an owner, and it never has two. -/
  owners : w.owned.Nodup ∧ ∀ c, c ∈ w.owned ↔ (w.ctxs c).isSome
  total : w.cli.idleTotalCountAsync = (IdlePool.pooled w.cli.idlePoolsAsync).length + w.evictions.length
  zero : w.cli.idleTotalCountAsync = 0 → ∀ c ∈ w.evicted, w.ctxs c = none
  /-- After the destroy saw the count at zero, the pool is empty and no dispatch is still evicting. -/
  drained : w.drained = true → IdlePool.pooled w.cli.idlePoolsAsync = [] ∧ w.evictions = []

theorem World.Reachable.booksKept {w : World} (h : w.Reachable) : w.BooksKept := by
  have hinv := h.inv
  have hempty : w.cli.idleTotalCountAsync = 0 → IdlePool.pooled w.cli.idlePoolsAsync = [] ∧ w.evictions = [] := by
    intro hzero
    have htotal := hinv.total
    exact ⟨length_eq_zero_iff.mp (by omega), length_eq_zero_iff.mp (by omega)⟩
  exact {
    owners := ⟨hinv.once, hinv.live⟩
    total := hinv.total
    zero := by
      intro hzero c hc
      obtain hin | hnone := (hinv.evicted c hc).2
      · rw [(hempty hzero).2] at hin
        cases hin
      · exact hnone
    drained := fun hd => hempty (hinv.drained hd).2 }

end AsyncIdlePool

/-- Both idle pools keep their books in every state that offers, takes, evictions and removals reach. -/
theorem idle_pools_keep_books {w : IdlePool.World} {a : AsyncIdlePool.World} (hw : w.Reachable) (ha : a.Reachable) :
    w.BooksKept ∧
    (∀ i c now mem w', w.held[i]? = some c → w.step (.offer i now mem) = some w' → w'.OfferSettled c) ∧
    (∀ i key c g now probe w', w.takes[i]? = some ⟨key, some (c, g)⟩ → w.step (.takeJudge i now probe) = some w' →
      w'.held = c :: w.held → w.TakeSound key c now) ∧
    a.BooksKept :=
  ⟨hw.booksKept, fun _ _ _ _ _ hc hs => hw.offerSettled hc hs, fun _ _ _ _ _ _ _ ht hs hr => hw.takeSound ht hs hr,
    ha.booksKept⟩

/-- Two idle pools with one connection each. -/
theorem idle_pools_keep_books_pooled :
    ∃ (w : IdlePool.World) (a : AsyncIdlePool.World), w.Reachable ∧ a.Reachable ∧
      (w.BooksKept ∧ w.cli.idleTotalCount = 1) ∧ (a.BooksKept ∧ a.cli.idleTotalCountAsync = 1) := by
  let noon : IdlePool.Timespec := ⟨43200, 0⟩
  let mem : IdlePool.OfferMem := ⟨true, true, true⟩
  have hw : IdlePool.World.Reachable _ := .tail (.single ⟨.connOpen [0x61] true 0 noon, rfl⟩) ⟨.offer 0 noon mem, rfl⟩
  have ha : AsyncIdlePool.World.Reachable _ :=
    .tail (.single ⟨.connect [0x61] true 0 noon 0, rfl⟩) ⟨.offer 0 noon true mem, rfl⟩
  obtain ⟨hbooks, -, -, hbooks'⟩ := idle_pools_keep_books hw ha
  exact ⟨_, _, hw, ha, ⟨hbooks, rfl⟩, hbooks', rfl⟩

end Ccollections.Chttpclient

namespace Ccollections.Chttpclient.ConnectRace

open List

variable {α φ : Type} [DecidableEq φ] (family : α → φ)

/-- The addresses are tried with their families in turn, and a race that has ended keeps the socket it saw connected and
has closed every other one once. -/
theorem connect_race_tries_every_address (l : List α) (sys : System) (k : Nat) :
    (∀ a rest, l = a :: rest →
      addrListInterleave family l = alternate (l.filter (family · = family a)) (l.filter (family · ≠ family a)) ∧
      (addrListInterleave family l).filter (family · = family a) = l.filter (family · = family a) ∧
      (addrListInterleave family l).filter (family · ≠ family a) = l.filter (family · ≠ family a)) ∧
    (addrListInterleave family l).Perm l ∧
    (∀ e r, tcpConnect sys (addrListInterleave family l).length k = .inr (e, r) →
      Finished sys (addrListInterleave family l).length e r) ∧
    ∀ r, tcpConnect sys (addrListInterleave family l).length k = .inl r →
      r.pfds = [] ∧ r.next = (addrListInterleave family l).length ∨ reached sys.connectDl (sys.clock k) = true ∨
        reached sys.overall (sys.clock k) = true →
      ∃ out, tcpConnect sys (addrListInterleave family l).length (k + 1) = .inr out := by
  refine ⟨?_, ?_, fun e r hrun => ?_, fun r hrun hend => ?_⟩
  · rintro a rest rfl
    have hfilters := alternate_filter (fun x => decide (family x = family a)) true
      ((a :: rest).filter (family · = family a)) ((a :: rest).filter (family · ≠ family a))
      (fun x hx => by simpa using (mem_filter.mp hx).2) (fun x hx => by simpa using (mem_filter.mp hx).2)
    rw [addrListInterleave_eq]
    exact ⟨rfl, by simpa using hfilters.1, by simpa using hfilters.2⟩
  · cases l with
    | nil => exact .refl _
    | cons a rest =>
      rw [addrListInterleave_eq]
      refine (alternate_perm _ _).trans ?_
      simpa using filter_append_perm (fun x => decide (family x = family a)) (a :: rest)
  · have hkept := tcpConnect_kept sys (addrListInterleave family l).length k
    rw [hrun] at hkept
    exact hkept
  · have hkept := tcpConnect_kept sys (addrListInterleave family l).length k
    rw [hrun] at hkept
    obtain ⟨out, hout⟩ := round_ends k hkept.1 (hkept.2.symm ▸ hend)
    exact ⟨out, by rw [tcpConnect, hrun]; exact hout⟩

/-- The first of three attempts stays silent, the second is refused, and the third connects at once. -/
def secondFamilyRefused : System where
  start := fun n => if n = 0 then .pending else if n = 1 then .refused else .connected
  clock := fun k => k * 300
  poll := fun _ => .timeout
  soerrOk := fun _ _ => true
  attemptDelay := 250
  connectDl := some 5000
  overall := none

theorem connect_race_tries_every_address_three :
    ∃ r, tcpConnect secondFamilyRefused 3 2 = .inr (.success 2, r) ∧ r.closed = [0, 1] ∧
      Finished secondFamilyRefused 3 (.success 2) r := by
  have hlist : addrListInterleave (fun n : Nat => n % 2) [0, 2, 1] = [0, 1, 2] := by decide +kernel
  have hrace := (connect_race_tries_every_address (fun n : Nat => n % 2) [0, 2, 1] secondFamilyRefused 2).2.2.1
  have hrun : tcpConnect secondFamilyRefused 3 2 = .inr (.success 2,
      ⟨[], 3, 300, 250, [2, 1, 0], [0, 1], [2], [1]⟩) := by
    simp [tcpConnect, round, startAttempts, secondFamilyRefused, Race.start, reached, finish]
  rw [hlist] at hrace
  exact ⟨_, hrun, rfl, hrace _ _ hrun⟩

end Ccollections.Chttpclient.ConnectRace
