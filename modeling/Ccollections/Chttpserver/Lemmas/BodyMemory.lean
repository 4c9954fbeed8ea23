import Ccollections.Chttpserver.BodyMemory
import Ccollections.Lib.Links
import Ccollections.Lib.Lists
import Mathlib.Algebra.BigOperators.Group.Finset.Piecewise

/-!
# The body memory is accounted for
-/

namespace Ccollections.Chttpserver.BodyMemory
open Lib StreamQueue Function List Option

variable {w w' : World} {l l₁ l₂ : List Nat} {e : Option Nat} {conns conns' : Nat → Conn} {owner owner' : Nat → Owner}
  {head tail : Option Nat} {c d n : Nat} {x : Conn}

/-! ## The parts of the invariant -/

structure Listing (head tail : Option Nat) (waiting : Nat) (conns : Nat → Conn) (owner : Nat → Owner) (l : List Nat) :
    Prop where
  dll : Dll (fun c => (conns c).memNext) (fun c => (conns c).memPrev) head tail l
  listed : ∀ c, c ∈ l ↔ owner c = .listed
  inMemWait : ∀ c, c ∈ l ↔ (conns c).inMemWait = true
  len : waiting = l.length

structure Books (inUse holders blocked : Nat) (conns : Nat → Conn) (n : Nat) (l : List Nat) : Prop where
  sum : inUse = ∑ c ∈ Finset.range n, (conns c).memCharged
  room : inUse ≤ sizeMax
  held : holders = ∑ c ∈ Finset.range n, if (conns c).memCharged ≠ 0 then 1 else 0
  waits : blocked = l.countP fun c => (conns c).memCharged ≠ 0

structure Exempted (active : Bool) (conns : Nat → Conn) (owner : Nat → Owner) (e : Option Nat) : Prop where
  marked : ∀ c, (conns c).memExempt = true ↔ e = some c
  flag : active = e.isSome
  served : ∀ c, e = some c → owner c = .thread ∨ owner c = .admission

structure Tickets (w : World) (l : List Nat) : Prop where
  order : (w.admitted ++ l.map w.ticket).Pairwise (· < ·)
  once : (w.admitted ++ w.swept ++ w.flushed ++ l.map w.ticket).Perm (List.range w.enqueued)

def inHand : Section → Option (List Nat) → List Nat
  | .admitting batch, _ => batch
  | _, dispatching => dispatching.getD []

structure Control (running closed : Bool) (lock : Section) (dispatching : Option (List Nat)) (phase : Phase)
    (owner : Nat → Owner) (l : List Nat) : Prop where
  admitting : running = true ↔ (∃ batch, lock = .admitting batch) ∨ dispatching.isSome = true
  apart : ∀ batch, lock = .admitting batch → dispatching = none
  hand : ∀ c ∈ inHand lock dispatching, owner c = .admission
  nodup : (inHand lock dispatching).Nodup
  cursor : ∀ now waitMs cursor expired, lock = .sweep now waitMs cursor expired → ∃ l₁ l₂, l = l₁ ++ l₂ ∧ cursor = l₂.head?
  draining : phase = .draining → closed = true
  flushing : ∀ batch, lock = .flush batch → phase = .draining

structure World.Inv (w : World) (l : List Nat) (e : Option Nat) : Prop where
  listing : Listing w.srv.memHead w.srv.memTail w.srv.memWaiting w.conns w.owner l
  books : Books w.srv.memInUse w.srv.memHolders w.srv.memBlocked w.conns w.accepted l
  exempted : Exempted w.srv.memExemptActive w.conns w.owner e
  tickets : Tickets w l
  asked : ∀ c, (w.conns c).memCharged ≤ w.asked c
  fresh : ∀ c, w.accepted ≤ c → w.conns c = .fresh ∧ w.owner c = .thread
  control : Control w.srv.memAdmitting w.srv.memAdmissionClosed w.lock w.dispatching w.phase w.owner l

/-! ## The books -/

section Books

variable {inUse inUse' holders holders' blocked blocked' : Nat}

theorem Books.recharge (h : Books inUse holders blocked conns n l) (hc : c < n) (hl : c ∉ l)
    (hin : inUse' + (conns c).memCharged = inUse + x.memCharged) (hroom : inUse' ≤ sizeMax)
    (hholders : holders' + (if (conns c).memCharged ≠ 0 then 1 else 0) = holders + if x.memCharged ≠ 0 then 1 else 0) :
    Books inUse' holders' blocked (update conns c x) n l where
  sum := by
    have hsum := sum_update (g := conns) Conn.memCharged (Finset.mem_range.mpr hc) x
    have hold := h.sum
    omega
  room := hroom
  held := by
    have hsum := sum_update (g := conns) (fun y => if y.memCharged ≠ 0 then 1 else 0) (Finset.mem_range.mpr hc) x
    have hold := h.held
    omega
  waits := by
    rw [h.waits]
    apply countP_congr
    intro d hd
    rw [update_of_ne]
    rintro rfl
    exact hl hd

theorem Books.congr (h : Books inUse holders blocked conns n l) (hsame : ∀ c, (conns' c).memCharged = (conns c).memCharged) :
    Books inUse holders blocked conns' n l := by
  constructor
  · simpa only [hsame] using h.sum
  · exact h.room
  · simpa only [hsame] using h.held
  · simpa only [hsame] using h.waits

theorem Books.blocked_le (h : Books inUse holders blocked conns n l) (hnd : l.Nodup) (hlt : ∀ c ∈ l, c < n) :
    blocked = holders ↔ ∀ c < n, (conns c).memCharged ≠ 0 → c ∈ l := by
  have hset : holders = ((Finset.range n).filter fun c => (conns c).memCharged ≠ 0).card := by
    rw [h.held, Finset.card_filter]
  have hlist : blocked = (l.toFinset.filter fun c => (conns c).memCharged ≠ 0).card := by
    rw [h.waits, List.countP_eq_length_filter, ← List.toFinset_card_of_nodup (hnd.filter _), List.toFinset_filter]
    simp only [decide_eq_true_eq]
  have hsub : (l.toFinset.filter fun c => (conns c).memCharged ≠ 0) ⊆ (Finset.range n).filter fun c => (conns c).memCharged ≠ 0 := by
    intro c hc
    simp only [Finset.mem_filter, List.mem_toFinset] at hc
    simp only [Finset.mem_filter, Finset.mem_range]
    exact ⟨hlt c hc.1, hc.2⟩
  constructor
  · intro heq c hc hpos
    have hfull := Finset.eq_of_subset_of_card_le hsub (by omega)
    have hmem : c ∈ (Finset.range n).filter fun c => (conns c).memCharged ≠ 0 := by simp [hc, hpos]
    rw [← hfull] at hmem
    simpa using (Finset.mem_filter.mp hmem).1
  · intro hall
    rw [hset, hlist]
    congr 1
    apply Finset.Subset.antisymm hsub
    intro c hc
    simp only [Finset.mem_filter, Finset.mem_range] at hc
    simp only [Finset.mem_filter, List.mem_toFinset]
    exact ⟨hall c hc.1 hc.2, hc.2⟩

end Books

/-! ## What the operations change -/

namespace World

@[simp] theorem setConn_apply (f : Conn → Conn) : (w.setConn c f).conns d = if d = c then f (w.conns d) else w.conns d := by
  simp only [setConn, update_apply]
  split
  · rename_i heq
    rw [heq]
  · rfl

@[simp] theorem setAt_apply (p : Option Nat) (f : Conn → Conn) :
    (w.setAt p f).conns d = if p = some d then f (w.conns d) else w.conns d := by
  cases p with
  | none => rfl
  | some c => simp [setAt, eq_comm]

theorem charge_le (need : Nat) : w.srv.memInUse ≤ sizeMax → w.srv.memInUse + w.charge need ≤ sizeMax := by
  intro hroom
  have hle : w.charge need ≤ sizeMax - w.srv.memInUse := Nat.min_le_right _ _
  omega

theorem charge_le_need (need : Nat) : w.charge need ≤ need := by
  simp [charge]

theorem grant_eq (need : Nat) (hroom : w.srv.memInUse ≤ sizeMax) (hle : (w.conns c).memCharged ≤ w.srv.memInUse) :
    w.grant c need = { w with
      srv := { w.srv with
        memInUse := w.srv.memInUse + w.charge need
        memHolders := w.srv.memHolders + if (w.conns c).memCharged = 0 ∧ w.charge need ≠ 0 then 1 else 0 }
      conns := update w.conns c { w.conns c with memCharged := (w.conns c).memCharged + w.charge need } } := by
  have hfit := charge_le need hroom
  unfold grant
  by_cases hzero : w.charge need = 0
  · simp [hzero]
  · by_cases hfirst : (w.conns c).memCharged = 0
    · rw [hfirst]
      simp [hzero, setConn, hfirst, sizeAdd_eq hfit, sizeAdd_eq (show 0 + w.charge need ≤ sizeMax by omega)]
    · simp [hzero, setConn, hfirst, sizeAdd_eq hfit,
        sizeAdd_eq (show (w.conns c).memCharged + w.charge need ≤ sizeMax by omega)]

theorem unlink_conns : (w.unlink c).conns d =
    if d = c then { w.conns c with memPrev := none, memNext := none, inMemWait := false }
    else { w.conns d with
      memNext := if (w.conns c).memPrev = some d then (w.conns c).memNext else (w.conns d).memNext
      memPrev := if (w.conns c).memNext = some d then (w.conns c).memPrev else (w.conns d).memPrev } := by
  simp only [unlink, setConn_apply, setAt_apply]
  split_ifs <;> simp_all

@[simp] theorem unlink_charged : ((w.unlink c).conns d).memCharged = (w.conns d).memCharged := by
  rw [unlink_conns]
  split <;> simp_all

@[simp] theorem unlink_need : ((w.unlink c).conns d).memNeed = (w.conns d).memNeed := by
  rw [unlink_conns]
  split <;> simp_all

@[simp] theorem unlink_exempt : ((w.unlink c).conns d).memExempt = (w.conns d).memExempt := by
  rw [unlink_conns]
  split <;> simp_all

@[simp] theorem unlink_inMemWait : ((w.unlink c).conns d).inMemWait = (decide (d ≠ c) && (w.conns d).inMemWait) := by
  rw [unlink_conns]
  split <;> simp_all

theorem unlink_eq : w.unlink c = { w with
    srv := { w.srv with
      memHead := if w.srv.memHead = some c then (w.conns c).memNext else w.srv.memHead
      memTail := if w.srv.memTail = some c then (w.conns c).memPrev else w.srv.memTail
      memWaiting := w.srv.memWaiting - 1
      memBlocked := if (w.conns c).memCharged ≠ 0 then w.srv.memBlocked - 1 else w.srv.memBlocked }
    conns := (w.unlink c).conns } := by
  cases hp : (w.conns c).memPrev <;> cases hn : (w.conns c).memNext <;> simp [unlink, hp, hn, setAt, setConn]

end World

/-! ## The list -/

section

variable {waiting : Nat} {o : Owner}

theorem Listing.unlink (h : Listing w.srv.memHead w.srv.memTail w.srv.memWaiting w.conns w.owner (l₁ ++ c :: l₂))
    (ho : o ≠ .listed) : Listing (w.unlink c).srv.memHead (w.unlink c).srv.memTail (w.unlink c).srv.memWaiting
      (w.unlink c).conns (update w.owner c o) (l₁ ++ l₂) := by
  have hmid := nodup_middle.mp h.dll.nodup
  have hnot : c ∉ l₁ ++ l₂ := (nodup_cons.mp hmid).1
  have hmem : ∀ d, d ∈ l₁ ++ c :: l₂ ↔ d = c ∨ d ∈ l₁ ++ l₂ := by
    intro d
    simp only [mem_append, mem_cons]
    tauto
  rw [World.unlink_eq]
  constructor
  · apply h.dll.unlink
    · intro b hb
      rw [World.unlink_conns, if_neg hb]
    · intro b hb
      rw [World.unlink_conns, if_neg hb]
    · rfl
    · rfl
  · intro d
    have hd := h.listed d
    rw [hmem] at hd
    by_cases heq : d = c
    · subst heq
      simp [ho, hnot]
    · simpa [heq] using hd
  · intro d
    have hd := h.inMemWait d
    rw [hmem] at hd
    by_cases heq : d = c
    · subst heq
      simp [hnot]
    · simpa [heq] using hd
  · have hlen := h.len
    simp only [length_append, length_cons] at hlen ⊢
    omega

theorem Listing.unlink_other (h : Listing w.srv.memHead w.srv.memTail w.srv.memWaiting w.conns w.owner (l₁ ++ c :: l₂))
    (hd : d ∉ l₁ ++ c :: l₂) : (w.unlink c).conns d = w.conns d := by
  simp only [mem_append, mem_cons, not_or] at hd
  obtain ⟨hd₁, hne, hd₂⟩ := hd
  have hprev : (w.conns c).memPrev ≠ some d := by
    intro heq
    exact hd₁ (mem_of_getLast? (h.dll.prev_eq.symm.trans heq))
  have hnext : (w.conns c).memNext ≠ some d := by
    intro heq
    exact hd₂ (mem_of_mem_head? (h.dll.next_eq.symm.trans heq))
  simp [World.unlink_conns, hne, hprev, hnext]

theorem Listing.give (h : Listing head tail waiting conns owner l) (hc : owner c ≠ .listed) (ho : o ≠ .listed) :
    Listing head tail waiting conns (update owner c o) l where
  dll := h.dll
  listed := by
    intro d
    by_cases heq : d = c
    · subst heq
      simp [ho, h.listed, hc]
    · simpa [heq] using h.listed d
  inMemWait := h.inMemWait
  len := h.len

theorem Listing.congr (h : Listing head tail waiting conns owner l)
    (hsame : ∀ c, (conns' c).memNext = (conns c).memNext ∧ (conns' c).memPrev = (conns c).memPrev ∧
      (conns' c).inMemWait = (conns c).inMemWait) : Listing head tail waiting conns' owner l where
  dll := h.dll.congr (fun b _ => (hsame b).1) fun b _ => (hsame b).2.1
  listed := h.listed
  inMemWait := by
    intro d
    rw [(hsame d).2.2]
    exact h.inMemWait d
  len := h.len

theorem Books.unlink (h : Books w.srv.memInUse w.srv.memHolders w.srv.memBlocked w.conns w.accepted (l₁ ++ c :: l₂)) :
    Books (w.unlink c).srv.memInUse (w.unlink c).srv.memHolders (w.unlink c).srv.memBlocked (w.unlink c).conns w.accepted
      (l₁ ++ l₂) := by
  have hkept : Books w.srv.memInUse w.srv.memHolders w.srv.memBlocked (w.unlink c).conns w.accepted (l₁ ++ c :: l₂) :=
    h.congr fun d => World.unlink_charged
  rw [World.unlink_eq]
  refine { sum := hkept.sum, room := hkept.room, held := hkept.held, waits := ?_ }
  have hwaits := h.waits
  simp only [World.unlink_charged, countP_append, countP_cons] at hwaits ⊢
  split_ifs at hwaits ⊢ <;> simp_all

theorem Listing.push_back (h : Listing head tail waiting conns owner l) (hl : c ∉ l)
    (hconns : ∀ d, (conns' d).memNext = (if d = c then none else if tail = some d then some c else (conns d).memNext) ∧
      (conns' d).memPrev = (if d = c then tail else (conns d).memPrev) ∧
      (conns' d).inMemWait = (decide (d = c) || (conns d).inMemWait)) :
    Listing (if tail = none then some c else head) (some c) (waiting + 1) conns' (update owner c .listed) (l ++ [c]) where
  dll := h.dll.push_back hl (fun b => (hconns b).1) (fun b => (hconns b).2.1) rfl
  listed := by
    intro d
    by_cases heq : d = c
    · simp [heq]
    · simpa [heq] using h.listed d
  inMemWait := by
    intro d
    rw [(hconns d).2.2]
    by_cases heq : d = c
    · simp [heq]
    · simpa [heq] using h.inMemWait d
  len := by simpa using h.len

theorem Books.push_back {inUse holders blocked : Nat} (h : Books inUse holders blocked conns n l)
    (hsame : ∀ d, (conns' d).memCharged = (conns d).memCharged) :
    Books inUse holders (if (conns c).memCharged ≠ 0 then blocked + 1 else blocked) conns' n (l ++ [c]) := by
  have hbooks := h.congr hsame
  refine { sum := hbooks.sum, room := hbooks.room, held := hbooks.held, waits := ?_ }
  simp only [hsame, countP_append, countP_singleton, h.waits]
  split_ifs <;> simp_all

theorem Tickets.push_back (h : Tickets w l) (hl : c ∉ l) :
    (w.admitted ++ (l ++ [c]).map (update w.ticket c w.enqueued)).Pairwise (· < ·) ∧
      (w.admitted ++ w.swept ++ w.flushed ++ (l ++ [c]).map (update w.ticket c w.enqueued)).Perm
        (List.range (w.enqueued + 1)) := by
  have hold : ∀ d ∈ l, (update w.ticket c w.enqueued) d = w.ticket d := by
    intro d hd
    rw [update_of_ne]
    rintro rfl
    exact hl hd
  have hmap : (l ++ [c]).map (update w.ticket c w.enqueued) = l.map w.ticket ++ [w.enqueued] := by
    rw [map_append, map_congr_left hold]
    simp
  rw [hmap, ← append_assoc, ← append_assoc, range_succ]
  refine ⟨pairwise_append.mpr ⟨h.order, pairwise_singleton _ _, ?_⟩, h.once.append_right _⟩
  intro t ht u hu
  obtain rfl := mem_singleton.mp hu
  apply mem_range.mp
  rw [← h.once.mem_iff]
  simp only [mem_append] at ht ⊢
  tauto

theorem Exempted.congr {active : Bool} (h : Exempted active conns owner e)
    (hsame : ∀ c, (conns' c).memExempt = (conns c).memExempt) (howner : ∀ c, e = some c → owner' c = owner c) :
    Exempted active conns' owner' e where
  marked := by
    intro c
    rw [hsame]
    exact h.marked c
  flag := h.flag
  served := by
    intro c hc
    rw [howner c hc]
    exact h.served c hc

end

theorem Exempted.update {o : Owner} {active : Bool} (h : Exempted active conns owner e)
    (hx : x.memExempt = (conns c).memExempt) (ho : e = some c → o = .thread ∨ o = .admission) :
    Exempted active (update conns c x) (update owner c o) e where
  marked := by
    intro d
    by_cases heq : d = c
    · subst heq
      simpa [hx] using h.marked d
    · simpa [heq] using h.marked d
  flag := h.flag
  served := by
    intro d hd
    by_cases heq : d = c
    · subst heq
      simpa using ho hd
    · simpa [heq] using h.served d hd

theorem Exempted.clear {o : Owner} {active : Bool} (h : Exempted active conns owner e) (hx : x.memExempt = false) :
    Exempted (if (conns c).memExempt then false else active) (Function.update conns c x) (Function.update owner c o)
      (if (conns c).memExempt then none else e) := by
  cases hc : (conns c).memExempt with
  | true =>
    have he : e = some c := (h.marked c).mp hc
    refine { marked := ?_, flag := rfl, served := by simp }
    intro d
    by_cases heq : d = c
    · subst heq
      simp [hx]
    · simp [heq, h.marked d, he, Ne.symm heq]
  | false =>
    simp only [Bool.false_eq_true, if_false]
    apply h.update (by rw [hx, hc])
    intro he
    simp [(h.marked c).mpr he] at hc

theorem Exempted.mark {o : Owner} (h : Exempted false conns owner e) (hx : x.memExempt = true) (ho : o = .admission) :
    Exempted true (Function.update conns c x) (Function.update owner c o) (some c) where
  marked := by
    have hnone : e = none := by
      have hflag := h.flag
      cases e with
      | none => rfl
      | some d => cases hflag
    intro d
    by_cases heq : d = c
    · subst heq
      simp [hx]
    · simp [heq, h.marked d, hnone, Ne.symm heq]
  flag := rfl
  served := by
    rintro d hd
    cases hd
    simp [ho]

/-! ## Who holds the mutex -/

section

variable {running closed : Bool} {dispatching : Option (List Nat)} {phase : Phase} {lock : Section} {o : Owner}

theorem Control.touch (h : Control running closed .free dispatching phase owner l) (hc : owner c ≠ .admission) (l' : List Nat) :
    Control running closed .free dispatching phase (update owner c o) l' where
  admitting := h.admitting
  apart := h.apart
  hand := by
    intro d hd
    have hown := h.hand d hd
    rw [update_of_ne, hown]
    rintro rfl
    exact hc hown
  nodup := h.nodup
  cursor := by
    intro now waitMs cursor expired hlock
    cases hlock
  draining := h.draining
  flushing := by
    intro batch hlock
    cases hlock

theorem Control.join {batch : List Nat} (h : Control running closed (.admitting batch) dispatching phase owner l)
    (hc : owner c ≠ .admission) (l' : List Nat) :
    Control running closed (.admitting (batch ++ [c])) dispatching phase (update owner c .admission) l' := by
  have hnew : c ∉ batch := fun hmem => hc (h.hand c hmem)
  refine { h with admitting := ?_, apart := ?_, hand := ?_, nodup := ?_, cursor := ?_, flushing := ?_ }
  · have hrun : running = true := h.admitting.mpr (.inl ⟨batch, rfl⟩)
    simp [hrun]
  · exact fun _ _ => h.apart batch rfl
  · intro d hd
    obtain hmem | hmem := mem_append.mp hd
    · rw [update_of_ne]
      · exact h.hand d hmem
      · rintro rfl
        exact hnew hmem
    · simp [mem_singleton.mp hmem]
  · have hnodup : batch.Nodup := h.nodup
    simpa [inHand] using hnodup.concat hnew
  · simp
  · simp

theorem Control.relock (h : Control running closed .free dispatching phase owner l)
    (hadm : ∀ batch, lock ≠ .admitting batch)
    (hcursor : ∀ now waitMs cursor expired, lock = .sweep now waitMs cursor expired → ∃ l₁ l₂, l = l₁ ++ l₂ ∧ cursor = l₂.head?)
    (hflush : ∀ batch, lock = .flush batch → phase = .draining) : Control running closed lock dispatching phase owner l := by
  have hhand : inHand lock dispatching = inHand .free dispatching := by
    cases lock with
    | admitting batch => exact absurd rfl (hadm batch)
    | _ => rfl
  refine ⟨?_, ?_, ?_, ?_, hcursor, h.draining, hflush⟩
  · simpa [hadm] using h.admitting
  · intro batch hlock
    exact absurd hlock (hadm batch)
  · rw [hhand]
    exact h.hand
  · rw [hhand]
    exact h.nodup

theorem Control.take (h : Control running closed lock dispatching phase owner l) (hadm : ∀ batch, lock ≠ .admitting batch)
    (hc : owner c ≠ .admission) {lock' : Section} (hadm' : ∀ batch, lock' ≠ .admitting batch) {l' : List Nat}
    (hcursor : ∀ now waitMs cursor expired, lock' = .sweep now waitMs cursor expired →
      ∃ l₁ l₂, l' = l₁ ++ l₂ ∧ cursor = l₂.head?)
    (hflush : ∀ batch, lock' = .flush batch → phase = .draining) :
    Control running closed lock' dispatching phase (update owner c o) l' := by
  have hhand : inHand lock' dispatching = inHand lock dispatching := by
    cases lock with
    | admitting batch => exact absurd rfl (hadm batch)
    | _ =>
      cases lock' with
      | admitting batch => exact absurd rfl (hadm' batch)
      | _ => rfl
  refine ⟨?_, ?_, ?_, ?_, hcursor, h.draining, hflush⟩
  · have hrun := h.admitting
    simpa [hadm, hadm'] using hrun
  · intro batch hlock
    exact absurd hlock (hadm' batch)
  · intro d hd
    rw [hhand] at hd
    have hown := h.hand d hd
    rw [update_of_ne, hown]
    rintro rfl
    exact hc hown
  · rw [hhand]
    exact h.nodup

end

/-! ## The steps -/

namespace World

theorem Inv.lt_accepted (h : w.Inv l e) (ho : w.owner c ≠ .thread) : c < w.accepted := by
  by_contra hge
  exact ho (h.fresh c (Nat.le_of_not_lt hge)).2

theorem Inv.charged_le (h : w.Inv l e) (c : Nat) : (w.conns c).memCharged ≤ w.srv.memInUse := by
  by_cases hc : c < w.accepted
  · rw [h.books.sum]
    exact le_sum Conn.memCharged (Finset.mem_range.mpr hc)
  · rw [(h.fresh c (Nat.le_of_not_lt hc)).1]
    exact Nat.zero_le _

theorem Inv.enqueue {need : Nat} {now : Int} (h : w.Inv l e) (hlock : w.lock = .free) (howner : w.owner c = .refused need) :
    (w.enqueue c need now).Inv (l ++ [c]) e := by
  have hc : c < w.accepted := h.lt_accepted (by simp [howner])
  have hl : c ∉ l := by simp [h.listing.listed, howner]
  have htail : w.srv.memTail ≠ some c := by
    intro heq
    exact hl (mem_of_getLast? (h.listing.dll.tail_eq.symm.trans heq))
  have hconns : ∀ d, (w.enqueue c need now).conns d =
      if d = c then { w.conns c with
        memWaitStart := now, memNeed := need, memPrev := w.srv.memTail, memNext := none, inMemWait := true }
      else { w.conns d with memNext := if w.srv.memTail = some d then some c else (w.conns d).memNext } := by
    intro d
    simp only [World.enqueue, setConn_apply, setAt_apply]
    split_ifs <;> simp_all
  have hcharged : ∀ d, ((w.enqueue c need now).conns d).memCharged = (w.conns d).memCharged := by
    intro d
    rw [hconns]
    split <;> simp_all
  have hserved : ∀ d, e = some d → d ≠ c := by
    rintro d hd rfl
    have hown := h.exempted.served d hd
    simp [howner] at hown
  have hrest : w.enqueue c need now = { w with
      srv := { w.srv with
        memHead := if w.srv.memTail = none then some c else w.srv.memHead
        memTail := some c
        memWaiting := w.srv.memWaiting + 1
        memBlocked := if (w.conns c).memCharged ≠ 0 then w.srv.memBlocked + 1 else w.srv.memBlocked }
      conns := (w.enqueue c need now).conns
      owner := update w.owner c .listed
      owed := w.owed + 1
      ticket := update w.ticket c w.enqueued
      enqueued := w.enqueued + 1 } := by
    cases ht : w.srv.memTail <;> simp [World.enqueue, ht, setAt, setConn]
  rw [hrest]
  clear hrest
  generalize (w.enqueue c need now).conns = conns' at hconns hcharged ⊢
  have htickets := h.tickets.push_back hl
  refine ⟨?_, h.books.push_back hcharged, ?_, ⟨htickets.1, htickets.2⟩, ?_, ?_, ?_⟩
  · apply h.listing.push_back hl
    intro d
    simp only [hconns]
    split <;> simp_all
  · apply h.exempted.congr
    · intro d
      simp only [hconns]
      split <;> simp_all
    · intro d hd
      exact update_of_ne (hserved d hd) _ _
  · intro d
    rw [hcharged]
    exact h.asked d
  · intro d hd
    have hne : d ≠ c := by
      rintro rfl
      exact Nat.not_le_of_lt hc hd
    have hold := h.fresh d hd
    have hlast : w.srv.memTail ≠ some d := by
      intro heq
      have hmem := mem_of_getLast? (h.listing.dll.tail_eq.symm.trans heq)
      simp [h.listing.listed, hold.2] at hmem
    simp only [hconns, if_neg hne, if_neg hlast, update_of_ne hne]
    exact hold
  · have hcontrol := h.control
    rw [hlock] at hcontrol
    simp only [hlock]
    exact hcontrol.touch (by simp [howner]) _

theorem ownedByThread_iff : w.ownedByThread c = true ↔ c < w.accepted ∧ (w.owner c = .thread ∨ ∃ need, w.owner c = .refused need) := by
  simp only [ownedByThread, Bool.and_eq_true, decide_eq_true_eq]
  cases w.owner c <;> simp

section

variable {active' : Bool} {inUse' holders' : Nat} {asked' : Nat → Nat} {o : Owner} {e' : Option Nat}

theorem Inv.recharge (h : w.Inv l e) (hlock : w.lock = .free) (hown : w.ownedByThread c = true)
    (ho : o = .thread ∨ ∃ need, o = .refused need)
    (hlinks : x.memNext = (w.conns c).memNext ∧ x.memPrev = (w.conns c).memPrev ∧ x.inMemWait = (w.conns c).inMemWait)
    (hin : inUse' + (w.conns c).memCharged = w.srv.memInUse + x.memCharged) (hroom : inUse' ≤ sizeMax)
    (hholders : holders' + (if (w.conns c).memCharged ≠ 0 then 1 else 0) = w.srv.memHolders + if x.memCharged ≠ 0 then 1 else 0)
    (hex : Exempted active' (update w.conns c x) (update w.owner c o) e')
    (hasked : x.memCharged ≤ asked' c) (hrest : ∀ d, d ≠ c → asked' d = w.asked d) :
    World.Inv { w with
      srv := { w.srv with memInUse := inUse', memHolders := holders', memExemptActive := active' }
      conns := update w.conns c x
      owner := update w.owner c o
      asked := asked' } l e' := by
  obtain ⟨hc, hown⟩ := ownedByThread_iff.mp hown
  have hl : w.owner c ≠ .listed := by
    obtain heq | ⟨need, heq⟩ := hown <;> simp [heq]
  have ha : w.owner c ≠ .admission := by
    obtain heq | ⟨need, heq⟩ := hown <;> simp [heq]
  have ho' : o ≠ .listed := by
    obtain rfl | ⟨need, rfl⟩ := ho <;> simp
  have hnot : c ∉ l := fun hmem => hl ((h.listing.listed c).mp hmem)
  refine ⟨?_, h.books.recharge hc hnot hin hroom hholders, hex, ⟨h.tickets.order, h.tickets.once⟩, ?_, ?_, ?_⟩
  · apply Listing.give _ hl ho'
    apply h.listing.congr
    intro d
    by_cases heq : d = c
    · subst heq
      simpa using hlinks
    · simp [heq]
  · intro d
    by_cases heq : d = c
    · subst heq
      simpa using hasked
    · simpa [heq, hrest d heq] using h.asked d
  · intro d hd
    have hne : d ≠ c := by
      rintro rfl
      exact Nat.not_le_of_lt hc hd
    simpa [hne] using h.fresh d hd
  · have hcontrol := h.control
    rw [hlock] at hcontrol
    simp only [hlock]
    exact hcontrol.touch ha _

end

theorem Inv.tryReserve {need : Nat} (h : w.Inv l e) (hlock : w.lock = .free) (hown : w.ownedByThread c = true) :
    (w.tryReserve c need).Inv l e := by
  unfold World.tryReserve
  split
  · rw [grant_eq need h.books.room (h.charged_le c)]
    have hfit := charge_le (w := w) need h.books.room
    have hle := charge_le_need (w := w) need
    have hasked := h.asked c
    apply h.recharge hlock hown (.inl rfl)
    · simp
    · simp only
      omega
    · exact hfit
    · dsimp only
      split_ifs <;> omega
    · exact h.exempted.update rfl fun _ => .inl rfl
    · simp only [askedFor, update_self]
      omega
    · intro d hd
      exact update_of_ne hd _ _
  · rename_i hno
    have hsame : w.give c (.refused need) = { w with
        srv := { w.srv with
          memInUse := w.srv.memInUse, memHolders := w.srv.memHolders, memExemptActive := w.srv.memExemptActive }
        conns := update w.conns c (w.conns c)
        owner := update w.owner c (.refused need)
        asked := w.asked } := by
      simp [give]
    rw [hsame]
    refine h.recharge hlock hown (.inr ⟨need, rfl⟩) ⟨rfl, rfl, rfl⟩ rfl h.books.room rfl ?_ (h.asked c) fun _ _ => rfl
    apply h.exempted.update rfl
    intro he
    have hex := (h.exempted.marked c).mpr he
    simp [hex] at hno

theorem Inv.owe {freed : Bool} (h : w.Inv l e) : (w.owe freed).Inv l e := by
  unfold World.owe
  split
  · exact { h with tickets := ⟨h.tickets.order, h.tickets.once⟩ }
  · exact h

theorem Inv.holders_pos (h : w.Inv l e) (hne : (w.conns c).memCharged ≠ 0) : 0 < w.srv.memHolders := by
  have hc : c < w.accepted := by
    by_contra hge
    rw [(h.fresh c (Nat.le_of_not_lt hge)).1] at hne
    exact hne rfl
  rw [h.books.held]
  have hterm := le_sum (g := w.conns) (fun y => if y.memCharged ≠ 0 then 1 else 0) (Finset.mem_range.mpr hc)
  simp only [hne, ne_eq, not_false_eq_true, if_true] at hterm
  exact hterm

theorem release_eq (hle : (w.conns c).memCharged ≤ w.srv.memInUse) (hroom : w.srv.memInUse ≤ sizeMax) :
    w.release c = World.owe { w with
      srv := { w.srv with
        memInUse := w.srv.memInUse - (w.conns c).memCharged
        memHolders := w.srv.memHolders - if (w.conns c).memCharged ≠ 0 then 1 else 0
        memExemptActive := if (w.conns c).memExempt then false else w.srv.memExemptActive }
      conns := update w.conns c { w.conns c with memCharged := 0, memExempt := false }
      owner := update w.owner c (w.owner c)
      asked := update w.asked c 0 } true := by
  rw [update_eq_self]
  unfold World.release
  cases hex : (w.conns c).memExempt <;> by_cases hzero : (w.conns c).memCharged = 0 <;>
    simp [hex, hzero, setConn, sizeSub_eq hle hroom]

theorem Inv.release (h : w.Inv l e) (hlock : w.lock = .free) (hown : w.ownedByThread c = true) :
    ∃ e', (w.release c).Inv l e' := by
  have hle := h.charged_le c
  have hroom := h.books.room
  rw [release_eq hle hroom]
  refine ⟨_, Inv.owe (h.recharge hlock hown (ownedByThread_iff.mp hown).2 ⟨rfl, rfl, rfl⟩ ?_ ?_ ?_ (h.exempted.clear rfl) ?_ ?_)⟩
  · simp only
    omega
  · omega
  · have hpos := h.holders_pos (c := c)
    simp only [ne_eq, not_true_eq_false, if_false]
    split_ifs <;> omega
  · exact Nat.zero_le _
  · intro d hd
    exact update_of_ne hd _ _

theorem trim_eq {keep : Nat} (hlt : keep < (w.conns c).memCharged) (hle : (w.conns c).memCharged ≤ w.srv.memInUse)
    (hroom : w.srv.memInUse ≤ sizeMax) : w.trim c keep = World.owe { w with
      srv := { w.srv with
        memInUse := w.srv.memInUse - ((w.conns c).memCharged - keep)
        memHolders := w.srv.memHolders - if keep = 0 then 1 else 0
        memExemptActive := w.srv.memExemptActive }
      conns := update w.conns c { w.conns c with memCharged := keep }
      owner := update w.owner c (w.owner c)
      asked := w.asked } true := by
  rw [update_eq_self]
  unfold World.trim
  rw [if_pos hlt, sizeSub_eq (Nat.le_trans (Nat.sub_le _ _) hle) hroom]
  by_cases hzero : keep = 0 <;> simp [hzero, setConn]

theorem Inv.trim {keep : Nat} (h : w.Inv l e) (hlock : w.lock = .free) (hown : w.ownedByThread c = true) :
    (w.trim c keep).Inv l e := by
  have hle := h.charged_le c
  have hroom := h.books.room
  by_cases hlt : keep < (w.conns c).memCharged
  · rw [trim_eq hlt hle hroom]
    have hasked := h.asked c
    have howner := (ownedByThread_iff.mp hown).2
    refine Inv.owe (h.recharge hlock hown howner ⟨rfl, rfl, rfl⟩ ?_ ?_ ?_ ?_ ?_ fun _ _ => rfl)
    · simp only
      omega
    · omega
    · have hpos := h.holders_pos (c := c) (by omega)
      simp only
      split_ifs <;> omega
    · exact h.exempted.update rfl (h.exempted.served c)
    · simp only
      omega
  · rw [World.trim, if_neg hlt]
    exact h

/-! ### Admissions -/

theorem Inv.admitCall (h : w.Inv l e) (hlock : w.lock = .free) : w.admitCall.Inv l e := by
  have hcontrol := h.control
  rw [hlock] at hcontrol
  unfold World.admitCall
  split
  · rename_i hrun
    exact { h with tickets := ⟨h.tickets.order, h.tickets.once⟩ }
  · rename_i hrun
    refine { h with tickets := ⟨h.tickets.order, h.tickets.once⟩, control := ?_ }
    have hnone : w.dispatching = none := by
      by_contra hsome
      exact hrun (hcontrol.admitting.mpr (.inr (isSome_iff_ne_none.mpr hsome)))
    refine { hcontrol with admitting := ?_, apart := ?_, hand := ?_, nodup := ?_, cursor := ?_, flushing := ?_ }
    · simp
    · exact fun _ _ => hnone
    · simp [inHand]
    · simp [inHand]
    · intro now waitMs cursor expired heq
      cases heq
    · intro batch heq
      cases heq

theorem Inv.admitRelock (h : w.Inv l e) (hdispatching : w.dispatching = some []) :
    World.Inv { w with srv := { w.srv with memAdmitAgain := false }, lock := .admitting [], dispatching := none } l e := by
  refine { h with tickets := ⟨h.tickets.order, h.tickets.once⟩, control := ?_ }
  refine { h.control with admitting := ?_, apart := ?_, hand := ?_, nodup := ?_, cursor := ?_, flushing := ?_ }
  · have hrun : w.srv.memAdmitting = true := h.control.admitting.mpr (.inr (by simp [hdispatching]))
    simp [hrun]
  · exact fun _ _ => rfl
  · simp [inHand]
  · simp [inHand]
  · intro now waitMs cursor expired heq
    cases heq
  · intro batch heq
    cases heq

theorem Inv.admitUnlock {batch : List Nat} (h : w.Inv l e) (hlock : w.lock = .admitting batch) : (w.admitUnlock batch).Inv l e := by
  have hrun : w.srv.memAdmitting = true := h.control.admitting.mpr (.inl ⟨batch, hlock⟩)
  have hnone := h.control.apart batch hlock
  have hhand := h.control.hand
  have hnodup := h.control.nodup
  simp only [hlock, inHand] at hhand hnodup
  unfold World.admitUnlock
  split
  · refine { h with tickets := ⟨h.tickets.order, h.tickets.once⟩, control := ?_ }
    refine { h.control with admitting := ?_, apart := ?_, hand := ?_, nodup := ?_, cursor := ?_, flushing := ?_ } <;>
      simp [inHand, hnone]
  · refine { h with tickets := ⟨h.tickets.order, h.tickets.once⟩, control := ?_ }
    refine { h.control with admitting := ?_, apart := ?_, hand := ?_, nodup := ?_, cursor := ?_, flushing := ?_ }
    · simp [hrun]
    · simp
    · simpa [inHand] using hhand
    · simpa [inHand] using hnodup
    · simp
    · simp

theorem Inv.dispatch {rest : List Nat} (h : w.Inv l e) (hdispatching : w.dispatching = some (c :: rest)) :
    World.Inv { w.give c .thread with dispatching := some rest } l e := by
  have hlock : ∀ batch, w.lock ≠ .admitting batch := by
    intro batch hlock
    have hnone := h.control.apart batch hlock
    simp [hdispatching] at hnone
  have hinHand : ∀ dispatching, inHand w.lock dispatching = dispatching.getD [] := by
    intro dispatching
    cases hl : w.lock with
    | admitting batch => exact absurd hl (hlock batch)
    | _ => rfl
  have hhand := h.control.hand
  have hnodup := h.control.nodup
  simp only [hinHand, hdispatching, getD_some] at hhand hnodup
  have hown : w.owner c = .admission := hhand c mem_cons_self
  refine ⟨h.listing.give (by simp [hown]) (by simp), h.books, ?_, ⟨h.tickets.order, h.tickets.once⟩, h.asked, ?_, ?_⟩
  · have hex := h.exempted.update (x := w.conns c) (c := c) (o := .thread) rfl fun _ => .inl rfl
    rwa [update_eq_self] at hex
  · intro d hd
    obtain ⟨hconn, howner⟩ := h.fresh d hd
    refine ⟨hconn, ?_⟩
    have hne : d ≠ c := by
      rintro rfl
      rw [hown] at howner
      cases howner
    simpa [give, hne] using howner
  · have hrun := h.control.admitting
    refine { h.control with admitting := ?_, apart := ?_, hand := ?_, nodup := ?_ }
    · simpa [hlock, hdispatching, give] using hrun
    · intro batch heq
      exact absurd heq (hlock batch)
    · intro d hd
      simp only [give, hinHand, getD_some] at hd ⊢
      have hne : d ≠ c := by
        rintro rfl
        exact (nodup_cons.mp hnodup).1 hd
      rw [update_of_ne hne]
      exact hhand d (mem_cons_of_mem c hd)
    · simpa [give, hinHand] using (nodup_cons.mp hnodup).2

/-! ### Out of the list -/

theorem Inv.take {lock' : Section} {swept' flushed' : List Nat} (h : w.Inv (l₁ ++ c :: l₂) e)
    (hadm : ∀ batch, w.lock ≠ .admitting batch) (hadm' : ∀ batch, lock' ≠ .admitting batch)
    (hcursor : ∀ now waitMs cursor expired, lock' = .sweep now waitMs cursor expired →
      ∃ l₃ l₄, l₁ ++ l₂ = l₃ ++ l₄ ∧ cursor = l₄.head?)
    (hflush : ∀ batch, lock' = .flush batch → w.phase = .draining)
    (hgone : (swept' ++ flushed').Perm (w.ticket c :: (w.swept ++ w.flushed))) :
    World.Inv { (w.unlink c).give c .thread with lock := lock', swept := swept', flushed := flushed' } (l₁ ++ l₂) e := by
  have hmem : c ∈ l₁ ++ c :: l₂ := by simp
  have hown : w.owner c = .listed := (h.listing.listed c).mp hmem
  have hc : c < w.accepted := h.lt_accepted (by simp [hown])
  have hlisting := h.listing.unlink (o := .thread) (by simp)
  have hbooks := h.books.unlink
  rw [unlink_eq] at hlisting hbooks ⊢
  refine ⟨hlisting, hbooks, ?_, ⟨?_, ?_⟩, ?_, ?_, ?_⟩
  · apply h.exempted.congr fun d => unlink_exempt
    intro d hd
    apply update_of_ne
    rintro rfl
    have hserved := h.exempted.served d hd
    simp [hown] at hserved
  · exact List.Pairwise.sublist (List.Sublist.append_left (List.Sublist.map _ (by simp)) _) h.tickets.order
  · have honce := h.tickets.once
    simp only [map_append, map_cons, append_assoc] at honce ⊢
    refine List.Perm.trans (List.Perm.append_left _ ?_) honce
    rw [← append_assoc, ← append_assoc w.swept]
    refine (hgone.append_right _).trans ?_
    rw [cons_append]
    refine perm_middle.symm.trans (List.Perm.append_left _ ?_)
    exact perm_middle.symm
  · intro d
    simp only [give, unlink_charged]
    exact h.asked d
  · intro d hd
    have hne : d ≠ c := by
      rintro rfl
      exact Nat.not_le_of_lt hc hd
    have hold := h.fresh d hd
    have hnot : d ∉ l₁ ++ c :: l₂ := by simp [h.listing.listed, hold.2]
    simpa [give, hne, h.listing.unlink_other hnot] using hold
  · exact h.control.take hadm (by simp [hown]) hadm' hcursor hflush

theorem Inv.sweepRound {now : Int} {waitMs cursor : Option Nat} {expired : List Nat} (h : w.Inv l e)
    (hlock : w.lock = .sweep now waitMs cursor expired) : ∃ l', (w.sweepRound now waitMs cursor expired).Inv l' e := by
  obtain ⟨l₁, l₂, rfl, hcursor⟩ := h.control.cursor now waitMs cursor expired hlock
  have hadm : ∀ batch, w.lock ≠ .admitting batch := by simp [hlock]
  have hdone : ∀ owed', World.Inv { w with lock := .free, owed := owed' } (l₁ ++ l₂) e := by
    intro owed'
    refine { h with tickets := ⟨h.tickets.order, h.tickets.once⟩, control := ?_ }
    have hcontrol := h.control
    simp only [hlock] at hcontrol
    refine { hcontrol with admitting := ?_, apart := ?_, cursor := ?_, flushing := ?_ }
    · simpa using hcontrol.admitting
    · simp
    · simp
    · simp
  unfold World.sweepRound
  split
  · rename_i c ms
    obtain ⟨l₃, rfl⟩ : ∃ l₃, l₂ = c :: l₃ := by
      cases l₂ with
      | nil => cases hcursor
      | cons b l₃ => exact ⟨l₃, by rw [some.inj hcursor]⟩
    have hnext : (w.conns c).memNext = l₃.head? := h.listing.dll.next_eq
    split
    · refine ⟨l₁ ++ l₃, h.take hadm (by simp) ?_ (by simp) ?_⟩
      · rintro now' waitMs' cursor' expired' heq
        cases heq
        exact ⟨l₁, l₃, rfl, hnext⟩
      · rw [unlink_eq, append_assoc]
        exact perm_middle
    · refine ⟨l₁ ++ c :: l₃, { h with tickets := ⟨h.tickets.order, h.tickets.once⟩, control := ?_ }⟩
      have hcontrol := h.control
      simp only [hlock] at hcontrol
      refine { hcontrol with admitting := ?_, apart := ?_, cursor := ?_, flushing := ?_ }
      · simpa using hcontrol.admitting
      · simp
      · rintro now' waitMs' cursor' expired' heq
        cases heq
        exact ⟨l₁ ++ [c], l₃, by simp, hnext⟩
      · simp
  · exact ⟨_, hdone _⟩

theorem Inv.head_cons (h : w.Inv l e) (hhead : w.srv.memHead = some c) : ∃ l', l = c :: l' := by
  have hfirst := h.listing.dll.head_eq.symm.trans hhead
  cases l with
  | nil => cases hfirst
  | cons b l' => exact ⟨l', by rw [some.inj hfirst]⟩

theorem Inv.flushRound {batch : List Nat} (h : w.Inv l e) (hlock : w.lock = .flush batch) :
    ∃ l', (w.flushRound batch).Inv l' e := by
  have hadm : ∀ batch, w.lock ≠ .admitting batch := by simp [hlock]
  have hdone : World.Inv { w with lock := .free } l e := by
    refine { h with tickets := ⟨h.tickets.order, h.tickets.once⟩, control := ?_ }
    have hcontrol := h.control
    simp only [hlock] at hcontrol
    refine { hcontrol with admitting := ?_, apart := ?_, cursor := ?_, flushing := ?_ }
    · simpa using hcontrol.admitting
    · simp
    · simp
    · simp
  have hphase := h.control.flushing batch hlock
  unfold World.flushRound
  split
  · rename_i c hhead
    split
    · obtain ⟨l', rfl⟩ := h.head_cons hhead
      have h' : w.Inv ([] ++ c :: l') e := h
      refine ⟨l', h'.take hadm (by simp) (by simp) (fun _ _ => hphase) ?_⟩
      rw [unlink_eq, ← append_assoc]
      exact perm_append_singleton _ _
    · exact ⟨l, hdone⟩
  · exact ⟨l, hdone⟩

theorem admitHead_eq {batch : List Nat} (hroom : w.srv.memInUse ≤ sizeMax) (hle : (w.conns c).memCharged ≤ w.srv.memInUse) :
    w.admitHead batch c = { w with
      srv := { (w.unlink c).srv with
        memInUse := w.srv.memInUse + w.charge (w.conns c).memNeed
        memHolders := w.srv.memHolders + if (w.conns c).memCharged = 0 ∧ w.charge (w.conns c).memNeed ≠ 0 then 1 else 0
        memExemptActive := if w.srv.fits (w.conns c).memNeed then w.srv.memExemptActive else true }
      conns := update (w.unlink c).conns c { (w.unlink c).conns c with
        memCharged := (w.conns c).memCharged + w.charge (w.conns c).memNeed
        memExempt := if w.srv.fits (w.conns c).memNeed then (w.conns c).memExempt else true }
      owner := update w.owner c .admission
      asked := update w.asked c (w.asked c + (w.conns c).memNeed)
      lock := .admitting (batch ++ [c])
      admitted := w.admitted ++ [w.ticket c] } := by
  have hcharged : ((w.unlink c).conns c).memCharged = (w.conns c).memCharged := unlink_charged
  have hexempt : ((w.unlink c).conns c).memExempt = (w.conns c).memExempt := unlink_exempt
  have hu := unlink_eq (w := w) (c := c)
  obtain ⟨conns', hconns⟩ : ∃ conns', (w.unlink c).conns = conns' := ⟨_, rfl⟩
  rw [hconns] at hcharged hexempt hu
  have hgrant := grant_eq (w := w.unlink c) (c := c) (w.conns c).memNeed
  rw [hu] at hgrant
  specialize hgrant hroom (by rw [hcharged]; exact hle)
  dsimp only [admitHead]
  rw [hu, hgrant]
  cases hfits : w.srv.fits (w.conns c).memNeed <;> simp [askedFor, setConn, charge, hcharged, hexempt]

theorem Inv.admitHead {batch : List Nat} (h : w.Inv (c :: l) e) (hlock : w.lock = .admitting batch)
    (hgo : w.srv.fits (w.conns c).memNeed = true ∨ w.ahead = true) :
    (w.admitHead batch c).Inv l (if w.srv.fits (w.conns c).memNeed then e else some c) := by
  have hroom := h.books.room
  have hle := h.charged_le c
  have hfit := charge_le (w := w) (w.conns c).memNeed hroom
  have hneed := charge_le_need (w := w) (w.conns c).memNeed
  have hown : w.owner c = .listed := (h.listing.listed c).mp List.mem_cons_self
  have hc : c < w.accepted := h.lt_accepted (by simp [hown])
  have hnot : c ∉ l := (List.nodup_cons.mp h.listing.dll.nodup).1
  have hfirst : w.Inv ([] ++ c :: l) e := h
  have hlisting := hfirst.listing.unlink (o := .admission) (by simp)
  have hbooks := hfirst.books.unlink
  have hother := fun d hd => hfirst.listing.unlink_other (d := d) hd
  have hserved : e ≠ some c := by
    intro he
    have hserved := h.exempted.served c he
    simp [hown] at hserved
  have hcalm : (w.conns c).memExempt = false := by
    rw [← Bool.not_eq_true, h.exempted.marked]
    exact hserved
  have hu := unlink_eq (w := w) (c := c)
  obtain ⟨conns', hconns⟩ : ∃ conns', (w.unlink c).conns = conns' := ⟨_, rfl⟩
  have hcharged : ∀ d, (conns' d).memCharged = (w.conns d).memCharged := by
    intro d
    rw [← hconns, unlink_charged]
  have hexempt : ∀ d, (conns' d).memExempt = (w.conns d).memExempt := by
    intro d
    rw [← hconns, unlink_exempt]
  rw [admitHead_eq hroom hle]
  simp only [hconns] at hlisting hbooks hother hu ⊢
  rw [hu] at hlisting hbooks ⊢
  refine ⟨?_, ?_, ?_, ⟨?_, ?_⟩, ?_, ?_, ?_⟩
  · apply hlisting.congr
    intro d
    by_cases heq : d = c
    · subst heq
      simp
    · simp [heq]
  · apply hbooks.recharge hc hnot
    · simp only [hcharged]
      omega
    · exact hfit
    · simp only [hcharged]
      split_ifs <;> omega
  · have hex := h.exempted.congr hexempt fun _ _ => rfl
    cases hfits : w.srv.fits (w.conns c).memNeed with
    | true => exact hex.update (hexempt c).symm fun _ => .inr rfl
    | false =>
      simp only [hfits, Bool.false_eq_true, false_or, ahead, Bool.and_eq_true, Bool.not_eq_true'] at hgo
      rw [hgo.1] at hex
      exact hex.mark rfl rfl
  · simpa [List.append_assoc] using h.tickets.order
  · refine List.Perm.trans ?_ h.tickets.once
    simp only [List.map_cons, List.append_assoc, List.singleton_append]
    apply List.Perm.append_left
    rw [← List.append_assoc, ← List.append_assoc w.swept]
    exact List.perm_middle.symm
  · intro d
    by_cases heq : d = c
    · subst heq
      have hasked := h.asked d
      simp only [Function.update_self]
      omega
    · simpa [heq, hcharged] using h.asked d
  · intro d hd
    have hne : d ≠ c := by
      rintro rfl
      exact Nat.not_le_of_lt hc hd
    have hold := h.fresh d hd
    have hout : d ∉ [] ++ c :: l := by
      rw [List.nil_append, h.listing.listed, hold.2]
      simp
    simpa [hne, hother d hout] using hold
  · have hcontrol := h.control
    rw [hlock] at hcontrol
    exact hcontrol.join (by simp [hown]) l

theorem Inv.admitRound {batch : List Nat} (h : w.Inv l e) (hlock : w.lock = .admitting batch) :
    ∃ l' e', (w.admitRound batch).Inv l' e' := by
  unfold World.admitRound
  split
  · rename_i c hhead
    split
    · rename_i hgo
      obtain ⟨l', rfl⟩ := h.head_cons hhead
      exact ⟨l', _, h.admitHead hlock hgo.2.2⟩
    · exact ⟨l, e, h.admitUnlock hlock⟩
  · exact ⟨l, e, h.admitUnlock hlock⟩

/-! ## Every step -/

theorem Inv.start (cap : Nat) : (World.start cap).Inv [] none where
  listing := ⟨Dll.empty, by simp [World.start], by simp [World.start, Conn.fresh], rfl⟩
  books := ⟨by simp [World.start], Nat.zero_le _, by simp [World.start], rfl⟩
  exempted := ⟨by simp [World.start, Conn.fresh], rfl, by simp⟩
  tickets := ⟨List.Pairwise.nil, .refl _⟩
  asked := fun _ => Nat.le_refl _
  fresh := fun _ _ => ⟨rfl, rfl⟩
  control := by constructor <;> simp [World.start, inHand]

theorem Inv.accept (h : w.Inv l e) : World.Inv { w with accepted := w.accepted + 1 } l e := by
  refine { h with books := ?_, tickets := ⟨h.tickets.order, h.tickets.once⟩, fresh := ?_ }
  · have hnew := (h.fresh w.accepted (Nat.le_refl _)).1
    have hcharged : (w.conns w.accepted).memCharged = 0 := by rw [hnew]; rfl
    refine { sum := ?_, room := h.books.room, held := ?_, waits := h.books.waits }
    · rw [Finset.sum_range_succ, hcharged]
      exact h.books.sum
    · rw [Finset.sum_range_succ, hcharged]
      exact h.books.held
  · intro c hc
    exact h.fresh c (Nat.le_of_succ_le hc)

theorem Inv.step {a : Action} (h : w.Inv l e) (hs : w.step a = some w') : ∃ l' e', w'.Inv l' e' := by
  have hcontrol := h.control
  cases a with
  | accept =>
    obtain rfl := some.inj hs
    exact ⟨l, e, h.accept⟩
  | tryReserve c need =>
    simp only [World.step] at hs
    split at hs
    · rename_i hlock
      split at hs
      · rename_i hown
        exact ⟨l, e, some.inj hs ▸ h.tryReserve hlock hown⟩
      · cases hs
    · cases hs
  | enqueue c now =>
    simp only [World.step] at hs
    split at hs
    · rename_i need hlock howner
      split at hs
      · exact ⟨_, e, some.inj hs ▸ h.enqueue hlock howner⟩
      · cases hs
    · cases hs
  | trim c keep =>
    simp only [World.step] at hs
    split at hs
    · rename_i hlock
      split at hs
      · rename_i hown
        exact ⟨l, e, some.inj hs ▸ h.trim hlock hown⟩
      · cases hs
    · cases hs
  | release c =>
    simp only [World.step] at hs
    split at hs
    · rename_i hlock
      split at hs
      · rename_i hown
        obtain rfl := some.inj hs
        exact ⟨l, h.release hlock hown⟩
      · cases hs
    · cases hs
  | admitCall =>
    simp only [World.step] at hs
    split at hs
    · rename_i hlock
      split at hs
      · exact ⟨l, e, some.inj hs ▸ h.admitCall hlock⟩
      · cases hs
    · cases hs
  | admitRound =>
    simp only [World.step] at hs
    split at hs
    · rename_i batch hlock
      obtain rfl := some.inj hs
      exact h.admitRound hlock
    · cases hs
  | dispatch =>
    simp only [World.step] at hs
    split at hs
    · rename_i c rest hdispatching
      exact ⟨l, e, some.inj hs ▸ h.dispatch hdispatching⟩
    · cases hs
  | admitRelock =>
    simp only [World.step] at hs
    split at hs
    · rename_i hlock hdispatching
      exact ⟨l, e, some.inj hs ▸ h.admitRelock hdispatching⟩
    · cases hs
  | sweepLock now waitMs =>
    simp only [World.step] at hs
    split at hs
    · rename_i hlock
      obtain rfl := some.inj hs
      rw [hlock] at hcontrol
      refine ⟨l, e, { h with tickets := ⟨h.tickets.order, h.tickets.once⟩, control := hcontrol.relock (by simp) ?_ (by simp) }⟩
      rintro now' waitMs' cursor expired heq
      cases heq
      exact ⟨[], l, rfl, h.listing.dll.head_eq⟩
    · cases hs
  | sweepRound =>
    simp only [World.step] at hs
    split at hs
    · rename_i now waitMs cursor expired hlock
      obtain rfl := some.inj hs
      obtain ⟨l', h'⟩ := h.sweepRound hlock
      exact ⟨l', e, h'⟩
    · cases hs
  | admissionClose =>
    simp only [World.step] at hs
    split at hs
    · rename_i hlock hphase
      obtain rfl := some.inj hs
      exact ⟨l, e, { h with tickets := ⟨h.tickets.order, h.tickets.once⟩, control := { hcontrol with
        draining := fun _ => rfl, flushing := fun _ _ => rfl } }⟩
    · cases hs
  | flushLock =>
    simp only [World.step] at hs
    split at hs
    · rename_i hlock hphase
      obtain rfl := some.inj hs
      rw [hlock] at hcontrol
      exact ⟨l, e, { h with
        tickets := ⟨h.tickets.order, h.tickets.once⟩
        control := hcontrol.relock (by simp) (by simp) fun _ _ => hphase }⟩
    · cases hs
  | flushRound =>
    simp only [World.step] at hs
    split at hs
    · rename_i batch hlock
      obtain rfl := some.inj hs
      obtain ⟨l', h'⟩ := h.flushRound hlock
      exact ⟨l', e, h'⟩
    · cases hs
  | drained =>
    simp only [World.step] at hs
    split at hs
    · rename_i hlock hphase
      obtain rfl := some.inj hs
      refine ⟨l, e, { h with tickets := ⟨h.tickets.order, h.tickets.once⟩, control := { hcontrol with
        draining := fun heq => ?_, flushing := fun batch heq => ?_ } }⟩
      · cases heq
      · rw [hlock] at heq
        cases heq
    · cases hs
  | startStore cap =>
    simp only [World.step] at hs
    split at hs
    · rename_i hphase
      obtain rfl := some.inj hs
      refine ⟨l, e, { h with tickets := ⟨h.tickets.order, h.tickets.once⟩, control := { hcontrol with
        draining := fun heq => ?_, flushing := fun batch heq => ?_ } }⟩
      · cases heq
      · have hdraining := hcontrol.flushing batch heq
        rw [hphase] at hdraining
        cases hdraining
    · cases hs
  | startReopen =>
    simp only [World.step] at hs
    split at hs
    · rename_i hlock hphase
      obtain rfl := some.inj hs
      refine ⟨l, e, { h with tickets := ⟨h.tickets.order, h.tickets.once⟩, control := { hcontrol with
        draining := fun heq => ?_, flushing := fun batch heq => ?_ } }⟩
      · cases heq
      · rw [hlock] at heq
        cases heq
    · cases hs

theorem Reachable.inv (h : w.Reachable) : ∃ l e, w.Inv l e := by
  obtain ⟨cap, h⟩ := h
  exact Reach.invariant (P := fun w : World => ∃ l e, w.Inv l e) ⟨[], none, Inv.start cap⟩
    (fun _ _ _ ⟨_, _, hinv⟩ hs => hinv.step hs) h

end World

end Ccollections.Chttpserver.BodyMemory
