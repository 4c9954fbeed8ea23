import Ccollections.Chttpserver.Lemmas.BodyMemory

/-!
# The limit on body memory, and who waits for it
-/

namespace Ccollections.Chttpserver.BodyMemory
open Lib StreamQueue Function Option

variable {w w' : World} {l : List Nat} {e : Option Nat} {c d cap : Nat} {x : Conn}

namespace World

/-! ## The bound -/

/-- Without an exempt connection the limit holds, and an exempt one exceeds it by no more than it holds. -/
structure Bounded (w : World) (cap : Nat) : Prop where
  limit : w.srv.memCap = cap
  calm : (∀ c, (w.conns c).memExempt = false) → w.srv.memInUse ≤ w.srv.memCap
  exempt : ∀ c, (w.conns c).memExempt = true → w.srv.memInUse ≤ w.srv.memCap + (w.conns c).memCharged

theorem Bounded.congr (h : w.Bounded cap) (hin : w'.srv.memInUse = w.srv.memInUse) (hcap : w'.srv.memCap = w.srv.memCap)
    (hconns : ∀ d, (w'.conns d).memCharged = (w.conns d).memCharged ∧ (w'.conns d).memExempt = (w.conns d).memExempt) :
    w'.Bounded cap where
  limit := hcap.trans h.limit
  calm := by
    intro hcalm
    rw [hin, hcap]
    exact h.calm fun d => (hconns d).2.symm.trans (hcalm d)
  exempt := by
    intro d hd
    rw [hin, hcap, (hconns d).1]
    exact h.exempt d ((hconns d).2.symm.trans hd)

theorem Bounded.grow {inUse' : Nat} (h : w.Bounded cap) (hinv : w.Inv l e) (hx : x.memExempt = (w.conns c).memExempt)
    (hgrow : inUse' + (w.conns c).memCharged ≤ w.srv.memInUse + x.memCharged) (hle : (w.conns c).memCharged ≤ x.memCharged)
    (hroom : (w.conns c).memExempt = true ∨ inUse' ≤ w.srv.memCap) (hin : w'.srv.memInUse = inUse')
    (hcap : w'.srv.memCap = w.srv.memCap)
    (hconns : ∀ d, (w'.conns d).memCharged = (update w.conns c x d).memCharged ∧
      (w'.conns d).memExempt = (update w.conns c x d).memExempt) : w'.Bounded cap where
  limit := hcap.trans h.limit
  calm := by
    intro hcalm
    have hc := hcalm c
    rw [(hconns c).2, update_self, hx] at hc
    rw [hin, hcap]
    obtain hexempt | hroom := hroom
    · simp [hc] at hexempt
    · exact hroom
  exempt := by
    intro d hd
    rw [(hconns d).2] at hd
    rw [hin, hcap, (hconns d).1]
    by_cases heq : d = c
    · subst heq
      rw [update_self] at hd ⊢
      have hold := h.exempt d (hx ▸ hd)
      omega
    · rw [update_of_ne heq] at hd ⊢
      obtain hexempt | hroom := hroom
      · have hd' := (hinv.exempted.marked d).mp hd
        rw [(hinv.exempted.marked c).mp hexempt] at hd'
        exact absurd (some.inj hd').symm heq
      · omega

theorem fits_charge {need : Nat} (h : w.srv.fits need = true) : w.srv.memInUse + w.charge need ≤ w.srv.memCap := by
  simp only [Server.fits, decide_eq_true_eq] at h
  have hle := charge_le_need (w := w) need
  omega

theorem Bounded.tryReserve {need : Nat} (h : w.Bounded cap) (hinv : w.Inv l e) : (w.tryReserve c need).Bounded cap := by
  unfold World.tryReserve
  split
  · rename_i hok
    rw [grant_eq need hinv.books.room (hinv.charged_le c)]
    refine h.grow (x := { w.conns c with memCharged := (w.conns c).memCharged + w.charge need }) hinv rfl ?_ (Nat.le_add_right _ _)
      ?_ rfl rfl fun d => ⟨rfl, rfl⟩
    · simp only [give, askedFor]
      omega
    · simp only [Bool.or_eq_true, Bool.and_eq_true] at hok
      exact hok.imp_right fun hfits => fits_charge hfits.2
  · exact h.congr rfl rfl fun _ => ⟨rfl, rfl⟩

theorem Bounded.owe {freed : Bool} (h : w.Bounded cap) : (w.owe freed).Bounded cap := by
  unfold World.owe
  split
  · exact h.congr rfl rfl fun _ => ⟨rfl, rfl⟩
  · exact h

theorem Bounded.shrink {inUse' : Nat} (h : w.Bounded cap) (hx : x.memExempt = true → (w.conns c).memExempt = true)
    (hshrink : inUse' + (w.conns c).memCharged ≤ w.srv.memInUse + x.memCharged) (hle : x.memCharged ≤ (w.conns c).memCharged)
    (hgone : (w.conns c).memExempt = true → x.memExempt = false → x.memCharged = 0)
    (hin : w'.srv.memInUse = inUse') (hcap : w'.srv.memCap = w.srv.memCap)
    (hconns : w'.conns = update w.conns c x) : w'.Bounded cap where
  limit := hcap.trans h.limit
  calm := by
    intro hcalm
    have hc := hcalm c
    rw [hconns, update_self] at hc
    rw [hin, hcap]
    cases hold : (w.conns c).memExempt with
    | true =>
      have hexempt := h.exempt c hold
      have hzero := hgone hold hc
      omega
    | false =>
      have hlimit := h.calm (by
        intro d
        by_cases heq : d = c
        · rw [heq, hold]
        · have hd := hcalm d
          rwa [hconns, update_of_ne heq] at hd)
      omega
  exempt := by
    intro d hd
    rw [hconns] at hd
    rw [hin, hcap, hconns]
    by_cases heq : d = c
    · subst heq
      rw [update_self] at hd ⊢
      have hold := h.exempt d (hx hd)
      omega
    · rw [update_of_ne heq] at hd ⊢
      have hold := h.exempt d hd
      omega

theorem Bounded.release (h : w.Bounded cap) (hinv : w.Inv l e) : (w.release c).Bounded cap := by
  have hle := hinv.charged_le c
  rw [release_eq hle hinv.books.room]
  apply Bounded.owe
  refine h.shrink (x := { w.conns c with memCharged := 0, memExempt := false }) (by simp) ?_ (Nat.zero_le _) (fun _ _ => rfl) rfl rfl rfl
  simp only
  omega

theorem Bounded.trim {keep : Nat} (h : w.Bounded cap) (hinv : w.Inv l e) : (w.trim c keep).Bounded cap := by
  have hle := hinv.charged_le c
  by_cases hlt : keep < (w.conns c).memCharged
  · rw [trim_eq hlt hle hinv.books.room]
    apply Bounded.owe
    refine h.shrink (x := { w.conns c with memCharged := keep }) (fun hx => hx) ?_ (Nat.le_of_lt hlt) ?_ rfl rfl rfl
    · simp only
      omega
    · intro hold hnew
      simp [hold] at hnew
  · rw [World.trim, if_neg hlt]
    exact h

theorem Bounded.admitHead {batch : List Nat} (h : w.Bounded cap) (hinv : w.Inv (c :: l) e)
    (hgo : w.srv.fits (w.conns c).memNeed = true ∨ w.ahead = true) : (w.admitHead batch c).Bounded cap := by
  rw [admitHead_eq hinv.books.room (hinv.charged_le c)]
  have hown : w.owner c = .listed := (hinv.listing.listed c).mp List.mem_cons_self
  cases hfits : w.srv.fits (w.conns c).memNeed with
  | true =>
    refine h.grow (c := c) (x := { w.conns c with memCharged := (w.conns c).memCharged + w.charge (w.conns c).memNeed }) hinv rfl ?_
      (Nat.le_add_right _ _) (.inr (fits_charge hfits)) rfl (by rw [unlink_eq]) ?_
    · simp only
      omega
    · intro d
      by_cases heq : d = c
      · subst heq
        simp
      · simp [heq]
  | false =>
    simp only [hfits, Bool.false_eq_true, false_or, ahead, Bool.and_eq_true, Bool.not_eq_true'] at hgo
    have hflag := hinv.exempted.flag
    rw [hgo.1] at hflag
    have hnone : e = none := by
      cases e with
      | none => rfl
      | some d => cases hflag
    have hcalm := h.calm (by
      intro d
      rw [← Bool.not_eq_true, hinv.exempted.marked, hnone]
      simp)
    have hcap : (w.unlink c).srv.memCap = w.srv.memCap := by rw [unlink_eq]
    refine ⟨hcap.trans h.limit, ?_, ?_⟩
    · intro hcalm'
      have hc := hcalm' c
      simp at hc
    · intro d hd
      by_cases heq : d = c
      · subst heq
        simp only [hcap, update_self]
        omega
      · simp only [Bool.false_eq_true, if_false, update_of_ne heq, unlink_exempt, hinv.exempted.marked, hnone] at hd
        cases hd

theorem Bounded.unlink {o : Owner} {lock' : Section} {swept' flushed' : List Nat} (h : w.Bounded cap) :
    Bounded { (w.unlink c).give c o with lock := lock', swept := swept', flushed := flushed' } cap := by
  apply h.congr
  · dsimp only [give]
    rw [unlink_eq]
  · dsimp only [give]
    rw [unlink_eq]
  · intro d
    simp [give]

theorem Bounded.enqueue {need : Nat} {now : Int} (h : w.Bounded cap) : (w.enqueue c need now).Bounded cap := by
  apply h.congr
  · rfl
  · rfl
  · intro d
    simp only [World.enqueue, setAt_apply, setConn_apply]
    split_ifs <;> simp

theorem Bounded.admitUnlock {batch : List Nat} (h : w.Bounded cap) : (w.admitUnlock batch).Bounded cap := by
  unfold World.admitUnlock
  split <;> exact h.congr rfl rfl fun _ => ⟨rfl, rfl⟩

theorem Bounded.admitRound {batch : List Nat} (h : w.Bounded cap) (hinv : w.Inv l e) : (w.admitRound batch).Bounded cap := by
  unfold World.admitRound
  split
  · rename_i c hhead
    split
    · rename_i hgo
      obtain ⟨l', rfl⟩ := hinv.head_cons hhead
      exact h.admitHead hinv hgo.2.2
    · exact h.admitUnlock
  · exact h.admitUnlock

theorem Bounded.step {a : Action} (h : w.Bounded cap) (hinv : w.Inv l e) (hs : w.stepFixed a = some w') : w'.Bounded cap := by
  simp only [stepFixed, ite_none_right_eq_some] at hs
  obtain ⟨hkeeps, hs⟩ := hs
  cases a with
  | accept =>
    obtain rfl := some.inj hs
    exact h.congr rfl rfl fun _ => ⟨rfl, rfl⟩
  | tryReserve c need =>
    simp only [World.step] at hs
    split at hs
    · split at hs
      · exact some.inj hs ▸ h.tryReserve hinv
      · cases hs
    · cases hs
  | enqueue c now =>
    simp only [World.step] at hs
    split at hs
    · split at hs
      · obtain rfl := some.inj hs
        exact h.enqueue
      · cases hs
    · cases hs
  | trim c keep =>
    simp only [World.step] at hs
    split at hs
    · split at hs
      · exact some.inj hs ▸ h.trim hinv
      · cases hs
    · cases hs
  | release c =>
    simp only [World.step] at hs
    split at hs
    · split at hs
      · exact some.inj hs ▸ h.release hinv
      · cases hs
    · cases hs
  | admitCall =>
    simp only [World.step] at hs
    split at hs
    · split at hs
      · obtain rfl := some.inj hs
        unfold World.admitCall
        split <;> exact h.congr rfl rfl fun _ => ⟨rfl, rfl⟩
      · cases hs
    · cases hs
  | admitRound =>
    simp only [World.step] at hs
    split at hs
    · obtain rfl := some.inj hs
      exact h.admitRound hinv
    · cases hs
  | sweepRound =>
    simp only [World.step] at hs
    split at hs
    · obtain rfl := some.inj hs
      unfold World.sweepRound
      split
      · split
        · exact h.unlink
        · exact h.congr rfl rfl fun _ => ⟨rfl, rfl⟩
      · exact h.congr rfl rfl fun _ => ⟨rfl, rfl⟩
    · cases hs
  | flushRound =>
    simp only [World.step] at hs
    split at hs
    · obtain rfl := some.inj hs
      unfold World.flushRound
      split
      · split
        · exact h.unlink
        · exact h.congr rfl rfl fun _ => ⟨rfl, rfl⟩
      · exact h.congr rfl rfl fun _ => ⟨rfl, rfl⟩
    · cases hs
  | startStore cap =>
    simp only [World.step] at hs
    split at hs
    · obtain rfl := some.inj hs
      exact h.congr rfl (by simpa [keepsLimit] using hkeeps) fun _ => ⟨rfl, rfl⟩
    · cases hs
  | dispatch | admitRelock | sweepLock now waitMs | admissionClose | flushLock | drained | startReopen =>
    simp only [World.step] at hs
    split at hs
    · exact some.inj hs ▸ h.congr rfl rfl fun _ => ⟨rfl, rfl⟩
    · cases hs

/-! ## Who waits -/

def Settled (w : World) : Prop := w.srv.memAdmissionClosed = false → w.idle = true → w.heldBack = true

theorem heldBack_iff : w.heldBack = true ↔ ∀ c, w.srv.memHead = some c → w.srv.fits (w.conns c).memNeed = false ∧
    (w.srv.memExemptActive = true ∨ ∃ d < w.accepted, 0 < (w.conns d).memCharged ∧ (w.conns d).inMemWait = false) := by
  cases hhead : w.srv.memHead <;> simp [heldBack, hhead]

theorem Inv.ahead_iff (h : w.Inv l e) : w.ahead = false ↔
    w.srv.memExemptActive = true ∨ ∃ d < w.accepted, 0 < (w.conns d).memCharged ∧ (w.conns d).inMemWait = false := by
  have hlt : ∀ c ∈ l, c < w.accepted := fun c hc => h.lt_accepted (by simp [(h.listing.listed c).mp hc])
  have hcount := h.books.blocked_le h.listing.dll.nodup hlt
  have hout : w.srv.memHolders = w.srv.memBlocked ↔
      ¬∃ d < w.accepted, 0 < (w.conns d).memCharged ∧ (w.conns d).inMemWait = false := by
    rw [eq_comm, hcount]
    push Not
    constructor
    · intro hall d hd hpos
      rw [ne_eq, Bool.not_eq_false, ← h.listing.inMemWait]
      exact hall d hd (Nat.ne_of_gt hpos)
    · intro hall d hd hpos
      have hin := hall d hd (Nat.pos_of_ne_zero hpos)
      rwa [ne_eq, Bool.not_eq_false, ← h.listing.inMemWait] at hin
  cases hactive : w.srv.memExemptActive with
  | true => simp [ahead, hactive]
  | false => simp [ahead, hactive, hout]

theorem idle_iff : w.idle = true ↔ w.owed = 0 ∧ w.srv.memAdmitting = false ∧
    ∀ now waitMs cursor expired, w.lock = .sweep now waitMs cursor expired → expired = [] := by
  cases hlock : w.lock with
  | sweep now waitMs cursor expired =>
    cases expired <;> simp [idle, hlock]
  | _ => simp [idle, hlock]

theorem Settled.congr (h : w.Settled) (hidle : w'.idle = true → w.idle = true)
    (hclosed : w'.srv.memAdmissionClosed = w.srv.memAdmissionClosed) (hheld : w.heldBack = true → w'.heldBack = true) :
    w'.Settled := by
  intro hopen hnow
  exact hheld (h (hclosed ▸ hopen) (hidle hnow))

theorem Settled.of_owed (howed : 0 < w.owed) : w.Settled := by
  intro _ hidle
  rw [idle_iff] at hidle
  omega

theorem Settled.of_admitting (hrun : w.srv.memAdmitting = true) : w.Settled := by
  intro _ hidle
  rw [idle_iff] at hidle
  simp [hrun] at hidle

theorem Settled.of_empty (hhead : w.srv.memHead = none) : w.Settled := by
  intro _ _
  simp [heldBack, hhead]

theorem Settled.owe (h : w.srv.memHead = none → w.Settled) : (w.owe true).Settled := by
  unfold World.owe
  split
  · exact .of_owed (Nat.succ_pos _)
  · rename_i hnone
    apply h
    simpa using hnone

theorem Settled.of_closed (hclosed : w.srv.memAdmissionClosed = true) : w.Settled := by
  intro hopen
  simp [hclosed] at hopen

theorem Settled.tryReserve {need : Nat} (h : w.Settled) (hinv : w.Inv l e) : (w.tryReserve c need).Settled := by
  unfold World.tryReserve
  split
  · rename_i hok
    rw [grant_eq need hinv.books.room (hinv.charged_le c)]
    cases hexempt : (w.conns c).memExempt with
    | true =>
      have hactive : w.srv.memExemptActive = true := by
        rw [hinv.exempted.flag, (hinv.exempted.marked c).mp hexempt]
        rfl
      refine h.congr (fun hidle => hidle) rfl ?_
      simp only [heldBack_iff]
      intro hheld d hd
      have hfits := (hheld d hd).1
      refine ⟨?_, .inl hactive⟩
      have hneed : (update w.conns c { w.conns c with memCharged := (w.conns c).memCharged + w.charge need } d).memNeed =
          (w.conns d).memNeed := by
        by_cases heq : d = c
        · subst heq
          simp
        · simp [heq]
      simp only [give, askedFor, hneed]
      simp only [Server.fits, decide_eq_false_iff_not] at hfits ⊢
      omega
    | false =>
      simp only [hexempt, Bool.false_or, Bool.and_eq_true, isNone_iff_eq_none] at hok
      exact .of_empty hok.1
  · exact h.congr (fun hidle => hidle) rfl fun hheld => hheld

theorem Settled.release (hinv : w.Inv l e) : (w.release c).Settled := by
  rw [release_eq (hinv.charged_le c) hinv.books.room]
  exact Settled.owe fun hhead => .of_empty hhead

theorem Settled.trim {keep : Nat} (h : w.Settled) (hinv : w.Inv l e) : (w.trim c keep).Settled := by
  by_cases hlt : keep < (w.conns c).memCharged
  · rw [trim_eq hlt (hinv.charged_le c) hinv.books.room]
    exact Settled.owe fun hhead => .of_empty hhead
  · rw [World.trim, if_neg hlt]
    exact h

theorem Settled.admitRound {batch : List Nat} (hinv : w.Inv l e) (hlock : w.lock = .admitting batch) :
    (w.admitRound batch).Settled := by
  have hrun : w.srv.memAdmitting = true := hinv.control.admitting.mpr (.inl ⟨batch, hlock⟩)
  have hunlock : (batch = [] → w.srv.memAdmissionClosed = false → w.heldBack = true) → (w.admitUnlock batch).Settled := by
    intro hend
    unfold World.admitUnlock
    split
    · rename_i hdone
      intro hopen _
      exact hend hdone.1 hopen
    · exact .of_admitting hrun
  unfold World.admitRound
  split
  · rename_i c hhead
    split
    · apply Settled.of_admitting
      rw [admitHead_eq hinv.books.room (hinv.charged_le c), unlink_eq]
      exact hrun
    · rename_i hstay
      apply hunlock
      intro hbatch hopen
      have hroom : batch.length < chttpsvrIdleCloseBatch := by
        rw [hbatch]
        exact Nat.succ_pos _
      simp only [hopen, hroom, Bool.not_false, true_and, not_or, Bool.not_eq_true] at hstay
      rw [heldBack_iff]
      intro d hd
      obtain rfl := some.inj (hhead.symm.trans hd)
      exact ⟨hstay.1, hinv.ahead_iff.mp hstay.2⟩
  · rename_i hhead
    apply hunlock
    intro _ _
    simp [heldBack, hhead]

theorem Settled.sweepRound {now : Int} {waitMs cursor : Option Nat} {expired : List Nat} (h : w.Settled)
    (hlock : w.lock = .sweep now waitMs cursor expired) : (w.sweepRound now waitMs cursor expired).Settled := by
  unfold World.sweepRound
  split
  · split
    · intro _ hidle
      simp [idle] at hidle
    · refine h.congr ?_ rfl fun hheld => hheld
      cases expired <;> simp [idle, hlock]
  · split
    · rename_i hnone
      refine h.congr ?_ rfl fun hheld => hheld
      simp [idle, hlock, hnone]
    · exact .of_owed (Nat.succ_pos _)

theorem Settled.flushRound {batch : List Nat} (hinv : w.Inv l e) (hlock : w.lock = .flush batch) :
    (w.flushRound batch).Settled := by
  have hclosed := hinv.control.draining (hinv.control.flushing batch hlock)
  apply Settled.of_closed
  unfold World.flushRound
  split
  · split
    · simp only [give]
      rw [unlink_eq]
      exact hclosed
    · exact hclosed
  · exact hclosed

theorem Settled.step {a : Action} (h : w.Settled) (hinv : w.Inv l e) (hs : w.stepFair a = some w') : w'.Settled := by
  simp only [stepFair, ite_none_right_eq_some] at hs
  obtain ⟨hfair, hs⟩ := hs
  cases a with
  | accept =>
    obtain rfl := some.inj hs
    refine h.congr (fun hidle => hidle) rfl ?_
    simp only [heldBack_iff]
    intro hheld c hc
    obtain ⟨hfits, hout⟩ := hheld c hc
    exact ⟨hfits, hout.imp_right fun ⟨d, hd, hrest⟩ => ⟨d, Nat.lt_succ_of_lt hd, hrest⟩⟩
  | tryReserve c need =>
    simp only [World.step] at hs
    split at hs
    · split at hs
      · exact some.inj hs ▸ h.tryReserve hinv
      · cases hs
    · cases hs
  | enqueue c now =>
    simp only [World.step] at hs
    split at hs
    · split at hs
      · exact some.inj hs ▸ .of_owed (Nat.succ_pos _)
      · cases hs
    · cases hs
  | trim c keep =>
    simp only [World.step] at hs
    split at hs
    · split at hs
      · exact some.inj hs ▸ h.trim hinv
      · cases hs
    · cases hs
  | release c =>
    simp only [World.step] at hs
    split at hs
    · split at hs
      · exact some.inj hs ▸ Settled.release hinv
      · cases hs
    · cases hs
  | admitCall =>
    simp only [World.step] at hs
    split at hs
    · split at hs
      · obtain rfl := some.inj hs
        apply Settled.of_admitting
        unfold World.admitCall
        split
        · assumption
        · rfl
      · cases hs
    · cases hs
  | admitRound =>
    simp only [World.step] at hs
    split at hs
    · rename_i batch hlock
      exact some.inj hs ▸ Settled.admitRound hinv hlock
    · cases hs
  | admitRelock =>
    simp only [World.step] at hs
    split at hs
    · rename_i hlock hdispatching
      obtain rfl := some.inj hs
      exact .of_admitting (hinv.control.admitting.mpr (.inr (by simp [hdispatching])))
    · cases hs
  | sweepRound =>
    simp only [World.step] at hs
    split at hs
    · rename_i hlock
      exact some.inj hs ▸ h.sweepRound hlock
    · cases hs
  | admissionClose =>
    simp only [World.step] at hs
    split at hs
    · exact some.inj hs ▸ .of_closed rfl
    · cases hs
  | flushRound =>
    simp only [World.step] at hs
    split at hs
    · rename_i hlock
      exact some.inj hs ▸ Settled.flushRound hinv hlock
    · cases hs
  | startStore cap =>
    simp only [World.step] at hs
    split at hs
    · obtain rfl := some.inj hs
      simp only [startsFair, Bool.or_eq_true, Bool.not_eq_true'] at hfair
      intro hopen hidle
      obtain (hclosed | hbusy) | hheld := hfair
      · exact absurd (hclosed.symm.trans hopen) (by simp)
      · exact absurd (hbusy.symm.trans hidle) (by simp)
      · exact hheld
    · cases hs
  | startReopen =>
    simp only [World.step] at hs
    split at hs
    · obtain rfl := some.inj hs
      simp only [startsFair, Bool.or_eq_true, Bool.not_eq_true'] at hfair
      intro _ hidle
      obtain hbusy | hheld := hfair
      · exact absurd (hbusy.symm.trans hidle) (by simp)
      · exact hheld
    · cases hs
  | dispatch | drained =>
    simp only [World.step] at hs
    split at hs
    · exact some.inj hs ▸ h.congr (fun hidle => hidle) rfl fun hheld => hheld
    · cases hs
  | sweepLock now waitMs =>
    simp only [World.step] at hs
    split at hs
    · rename_i hlock
      obtain rfl := some.inj hs
      refine h.congr ?_ rfl fun hheld => hheld
      simp [idle, hlock]
    · cases hs
  | flushLock =>
    simp only [World.step] at hs
    split at hs
    · rename_i hlock hphase
      obtain rfl := some.inj hs
      refine h.congr ?_ rfl fun hheld => hheld
      simp [idle, hlock]
    · cases hs

/-! ## Runs -/

theorem stepFixed_some {a : Action} (hs : w.stepFixed a = some w') : w.step a = some w' := by
  simp only [stepFixed, ite_none_right_eq_some] at hs
  exact hs.2

theorem stepFair_some {a : Action} (hs : w.stepFair a = some w') : w.step a = some w' := by
  simp only [stepFair, ite_none_right_eq_some] at hs
  exact hs.2

theorem bounded_of_fixed (h : Reach stepFixed (start cap) w) : (∃ l e, w.Inv l e) ∧ w.Bounded cap := by
  refine Reach.invariant (P := fun w : World => (∃ l e, w.Inv l e) ∧ w.Bounded cap) ?_ ?_ h
  · exact ⟨⟨[], none, Inv.start cap⟩, ⟨rfl, fun _ => Nat.zero_le _, fun _ _ => Nat.zero_le _⟩⟩
  · rintro w a w' ⟨⟨l, e, hinv⟩, hbounded⟩ hs
    exact ⟨hinv.step (stepFixed_some hs), hbounded.step hinv hs⟩

theorem settled_of_fair (h : Reach stepFair (start cap) w) : w.Settled := by
  have hrun : (∃ l e, w.Inv l e) ∧ w.Settled := by
    refine Reach.invariant (P := fun w : World => (∃ l e, w.Inv l e) ∧ w.Settled) ?_ ?_ h
    · exact ⟨⟨[], none, Inv.start cap⟩, .of_empty rfl⟩
    · rintro w a w' ⟨⟨l, e, hinv⟩, hsettled⟩ hs
      exact ⟨hinv.step (stepFair_some hs), hsettled.step hinv hs⟩
  exact hrun.2

end World

end Ccollections.Chttpserver.BodyMemory
