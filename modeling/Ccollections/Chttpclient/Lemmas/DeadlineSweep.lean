import Ccollections.Chttpclient.DeadlineSweep
import Ccollections.Lib.Lists

/-!
# No deadline is slept past
-/

namespace Ccollections.Chttpclient.DeadlineSweep
open Lib Function List Option

variable {w w' : World} {stripeOf : Nat → Fin 16} {c now n : Nat} {k : Kind} {d : Nat} {x y : AsyncCtx} {a b : Noter} {v : Verdict}

/-! ## What a tick makes of a context -/

theorem sweepEarlier_le (o : Option Nat) (left : Bool) : sweepEarlier n o left ≤ n := by
  unfold sweepEarlier
  split
  · split
    · rename_i hlt
      simp only [Bool.and_eq_true, decide_eq_true_eq] at hlt
      omega
    · exact Nat.le_refl n
  · exact Nat.le_refl n

theorem sweepEarlier_le_deadline (hd : now < d) : sweepEarlier n (some d) (deadlineRemaining (some d) now) ≤ d := by
  simp only [sweepEarlier, deadlineRemaining, all_some, Bool.and_eq_true, decide_eq_true_eq]
  split <;> omega

theorem judgeDeadline_next (o : Option Nat) : (judgeDeadline o now v).next ≤ v.next := sweepEarlier_le o _

namespace AsyncCtx

theorem judgeConnect_next : (x.judgeConnect now v).next ≤ v.next := by
  unfold judgeConnect
  split
  · exact judgeDeadline_next _
  · exact Nat.le_refl _

theorem judgeOverall_next : (x.judgeOverall now v).next ≤ v.next := by
  unfold judgeOverall
  split
  · exact judgeDeadline_next _
  · exact Nat.le_refl _

theorem judgeInactivity_next : (x.judgeInactivity now v).next ≤ v.next := by
  unfold judgeInactivity
  split
  · dsimp only
    split_ifs <;> (try simp only at *) <;> omega
  · exact Nat.le_refl _

theorem judgeWindow_next : (x.judgeWindow now v).next ≤ v.next := by
  unfold judgeWindow
  split
  · exact sweepEarlier_le _ _
  · exact Nat.le_refl _

theorem judge_next : (x.judge now n).next ≤ n :=
  Nat.le_trans judgeWindow_next (Nat.le_trans judgeInactivity_next (Nat.le_trans judgeOverall_next judgeConnect_next))

theorem judgeWindow_expired : (x.judgeWindow now v).expired = v.expired := by
  unfold judgeWindow
  split <;> rfl

theorem judgeInactivity_expired (h : (x.judgeInactivity now v).expired = false) : v.expired = false := by
  cases hv : v.expired with
  | false => rfl
  | true => simp [judgeInactivity, hv] at h

theorem judgeOverall_expired (h : (x.judgeOverall now v).expired = false) : v.expired = false := by
  cases hv : v.expired with
  | false => rfl
  | true => simp [judgeOverall, hv] at h

theorem judge_le (hrun : (x.judge now n).expired = false) (happ : x.applies k = true) (hdl : x.deadline k = some d) (hd : now < d) :
    (x.judge now n).next ≤ d := by
  have hinactive : (x.judgeInactivity now (x.judgeOverall now (x.judgeConnect now ⟨false, n, x.lastIoNs⟩))).expired = false := by
    rw [← judgeWindow_expired]
    exact hrun
  have hoverall := judgeInactivity_expired hinactive
  have hconnect := judgeOverall_expired hoverall
  cases k with
  | connect =>
    refine Nat.le_trans judgeWindow_next (Nat.le_trans judgeInactivity_next (Nat.le_trans judgeOverall_next ?_))
    simp only [deadline, applies] at hdl happ
    simp only [judgeConnect, happ, if_true, judgeDeadline, hdl]
    exact sweepEarlier_le_deadline hd
  | overall =>
    refine Nat.le_trans judgeWindow_next (Nat.le_trans judgeInactivity_next ?_)
    simp only [deadline, applies] at hdl happ
    simp only [judgeOverall, happ, hconnect, Bool.not_false, Bool.and_true, if_true, judgeDeadline, hdl]
    exact sweepEarlier_le_deadline hd
  | window =>
    simp only [deadline, applies] at hdl happ
    simp only [judge, judgeWindow, happ, hinactive, Bool.not_false, Bool.and_true, if_true, hdl]
    exact sweepEarlier_le_deadline hd
  | attempt => simp [applies] at happ

end AsyncCtx

/-! ## The invariant -/

namespace World

/-- The instant of the next tick is not behind a deadline, or the walk that runs sees to it. -/
def Covered (w : World) (stripeOf : Nat → Fin 16) (c d : Nat) : Prop :=
  w.next ≤ d ∨ match w.sweep with
    | .between t => t.next ≤ d ∨ chttpDeadlineSweepBatch ≤ t.shutdown ∨ t.stripe ≤ stripeOf c
    | .inStripe t rest =>
      t.next ≤ d ∨ chttpDeadlineSweepBatch ≤ t.shutdown ∨ t.stripe < stripeOf c ∨ (t.stripe = stripeOf c ∧ c ∈ rest)
    | .noting n | .lowering n _ => n ≤ d
    | _ => False

structure Known (w : World) (stripeOf : Nat → Fin 16) (c : Nat) (k : Kind) (d : Nat) : Prop where
  registered : w.registered stripeOf c
  running : (w.ctxs c).timedOut = false
  applies : (w.ctxs c).applies k = true
  deadline : (w.ctxs c).deadline k = some d
  ahead : w.clock < d
  noted : ¬w.owed c k
  seen : k = .window → w.unseen c = false

end World

structure NoterOk (w : World) (a : Noter) : Prop where
  cas : ∀ cur, a.pc = .cas cur → ∃ k t rest, a.todo = (k, some t) :: rest ∧ t < cur
  sent : a.pc = .planned ∨ a.pc = .signal → ∃ k t rest, a.todo = (k, some t) :: rest
  done : a.todo = [] → a.publishes = true ∧ a.pc = .load
  values : ∀ c k o, a.ctx = some c → (k, o) ∈ a.todo → (w.ctxs c).deadline k = o
  opening : ∀ c d, a.publishes = true → a.ctx = some c → ¬w.owed c .window → w.unseen c = false →
    (w.ctxs c).continueDeadline = some d → w.next ≤ d

def SweepOk (w : World) : Prop :=
  match w.sweep with
  | .rechecking _ wake next => w.planned = if min next wake > 0 then min next wake else 1
  | .waiting wake => w.planned = wake ∧ (wake ≤ w.next ∨ w.wakePending = true)
  | .lowering next cur => next < cur
  | _ => True

structure World.Inv (w : World) (stripeOf : Nat → Fin 16) : Prop where
  stripes : ∀ s c, c ∈ w.stripes s → (stripeOf c).val = s
  noters : ∀ a ∈ w.noters, NoterOk w a
  covered : ∀ c k d, w.Known stripeOf c k d → w.Covered stripeOf c d
  sweep : SweepOk w

/-! ## What others do -/

theorem World.Covered.mono (h : w.Covered stripeOf c d) (hnext : w'.next ≤ w.next) (hsweep : w'.sweep = w.sweep) :
    w'.Covered stripeOf c d := by
  obtain hle | hwalk := h
  · exact .inl (Nat.le_trans hnext hle)
  · right
    rw [hsweep]
    exact hwalk

theorem NoterOk.congr (h : NoterOk w a) (hctxs : ∀ c, a.ctx = some c → ∀ k, (w'.ctxs c).deadline k = (w.ctxs c).deadline k)
    (howed : ∀ c, w.owed c .window → w'.owed c .window) (hunseen : ∀ c, a.ctx = some c → w'.unseen c = false → w.unseen c = false)
    (hnext : w'.next ≤ w.next) : NoterOk w' a where
  cas := h.cas
  sent := h.sent
  done := h.done
  values := by
    intro c k o hc ho
    rw [hctxs c hc]
    exact h.values c k o hc ho
  opening := by
    intro c d hpub hc hnot hseen hd
    have hd' : (w.ctxs c).continueDeadline = some d := (hctxs c hc .window).symm.trans hd
    exact Nat.le_trans hnext (h.opening c d hpub hc (fun hw => hnot (howed c hw)) (hunseen c hc hseen) hd')

theorem SweepOk.congr (h : SweepOk w) (hsweep : w'.sweep = w.sweep) (hplanned : w'.planned = w.planned)
    (hnext : ∀ wake, w.sweep = .waiting wake → wake ≤ w.next ∨ w.wakePending = true → wake ≤ w'.next ∨ w'.wakePending = true) :
    SweepOk w' := by
  unfold SweepOk at h ⊢
  rw [hsweep, hplanned]
  cases hs : w.sweep with
  | rechecking now wake next =>
    rw [hs] at h
    exact h
  | waiting wake =>
    rw [hs] at h
    exact ⟨h.1, hnext wake hs h.2⟩
  | lowering next cur =>
    rw [hs] at h
    exact h
  | _ => trivial

theorem World.Inv.setCtx (h : w.Inv stripeOf) (hdl : ∀ k, x.deadline k = (w.ctxs c).deadline k)
    (happ : ∀ k, x.timedOut = false → x.applies k = true → (w.ctxs c).timedOut = false ∧ (w.ctxs c).applies k = true) :
    (w.setCtx c x).Inv stripeOf := by
  have hdeadline : ∀ e k, ((w.setCtx c x).ctxs e).deadline k = (w.ctxs e).deadline k := by
    intro e k
    by_cases heq : e = c
    · subst heq
      simpa [World.setCtx] using hdl k
    · simp [World.setCtx, heq]
  refine ⟨h.stripes, ?_, ?_, ?_⟩
  · intro a ha
    exact (h.noters a ha).congr (fun e _ k => hdeadline e k) (fun _ hw => hw) (fun _ _ hu => hu) (Nat.le_refl _)
  · intro e k d hknown
    refine World.Covered.mono (h.covered e k d ?_) (Nat.le_refl _) rfl
    have hold : (w.ctxs e).timedOut = false ∧ (w.ctxs e).applies k = true := by
      have hrun := hknown.running
      have happly := hknown.applies
      by_cases heq : e = c
      · subst heq
        simp only [World.setCtx, update_self] at hrun happly
        exact happ k hrun happly
      · simp only [World.setCtx, update_of_ne heq] at hrun happly
        exact ⟨hrun, happly⟩
    exact ⟨hknown.registered, hold.1, hold.2, (hdeadline e k).symm.trans hknown.deadline, hknown.ahead, hknown.noted, hknown.seen⟩
  · exact h.sweep.congr rfl rfl fun _ _ hw => hw

/-! ## Notes -/

section

variable {l : List Noter} {g : Bool}

/-- A thread goes on in its notes. Where it owes a note no more, the next tick comes in time. -/
theorem World.Inv.noterStep (h : w.Inv stripeOf) (ha : a ∈ w.noters) (hsub : ∀ e ∈ l, e ∈ w.noters ∨ e = b)
    (hsup : ∀ e ∈ w.noters, e ≠ a → e ∈ l)
    (howes : ∀ c k, a.ctx = some c → a.owes k = true →
      (b ∈ l ∧ b.owes k = true) ∨ ∀ d, (w.ctxs c).deadline k = some d → n ≤ d)
    (hnext : n ≤ w.next) (hctx : b.ctx = a.ctx) (hpub : b.publishes = a.publishes) (htodo : ∀ p ∈ b.todo, p ∈ a.todo)
    (hcas : ∀ cur, b.pc = .cas cur → ∃ k t rest, b.todo = (k, some t) :: rest ∧ t < cur)
    (hsent : b.pc = .planned ∨ b.pc = .signal → ∃ k t rest, b.todo = (k, some t) :: rest)
    (hdone : b.todo = [] → b.publishes = true ∧ b.pc = .load)
    (hsignaled : w.signaled = true → g = true)
    (hurgent : w.isAsleep = true → a.urgent w.planned = true → g = true ∨ (b ∈ l ∧ b.urgent w.planned = true))
    (hlow : n = w.next ∨ w.planned ≤ n ∨ (b ∈ l ∧ b.urgent w.planned = true)) :
    World.Inv { w with noters := l, next := n, signaled := g } stripeOf := by
  -- What is not owed any more was not owed before, or is not behind the instant of the next tick.
  have hnot : ∀ c k, ¬World.owed { w with noters := l, next := n, signaled := g } c k →
      ¬w.owed c k ∨ ∀ d, (w.ctxs c).deadline k = some d → n ≤ d := by
    intro c k hfree
    by_cases howed : w.owed c k
    · obtain ⟨e, he, hec, hek⟩ := howed
      by_cases heq : e = a
      · subst heq
        obtain hkept | hdone := howes c k hec hek
        · exact absurd ⟨b, hkept.1, hctx.trans hec, hkept.2⟩ hfree
        · exact .inr hdone
      · exact absurd ⟨e, hsup e he heq, hec, hek⟩ hfree
    · exact .inl howed
  have hopening : ∀ e ∈ w.noters, ∀ c d, e.publishes = true → e.ctx = some c →
      ¬World.owed { w with noters := l, next := n, signaled := g } c .window → w.unseen c = false →
      (w.ctxs c).continueDeadline = some d → n ≤ d := by
    intro e he c d hep hec hfree hseen hd
    obtain hold | hdone := hnot c .window hfree
    · exact Nat.le_trans hnext ((h.noters e he).opening c d hep hec hold hseen hd)
    · exact hdone d hd
  refine ⟨h.stripes, ?_, ?_, ?_⟩
  · intro e he
    obtain hmem | rfl := hsub e he
    · have hok := h.noters e hmem
      exact ⟨hok.cas, hok.sent, hok.done, hok.values, hopening e hmem⟩
    · refine ⟨hcas, hsent, hdone, ?_, ?_⟩
      · intro c k o hc ho
        exact (h.noters a ha).values c k o (hctx ▸ hc) (htodo _ ho)
      · intro c d hep hec
        exact hopening a ha c d (hpub ▸ hep) (hctx ▸ hec)
  · intro c k d hknown
    obtain hold | hdone := hnot c k hknown.noted
    · have hbefore := h.covered c k d ⟨hknown.registered, hknown.running, hknown.applies, hknown.deadline, hknown.ahead, hold, hknown.seen⟩
      exact hbefore.mono hnext rfl
    · exact .inl (hdone d hknown.deadline)
  · refine h.sweep.congr rfl rfl ?_
    intro wake hwake hpending
    have hok := h.sweep
    simp only [SweepOk, hwake] at hok
    have hasleep : w.isAsleep = true := by simp [World.isAsleep, hwake]
    simp only [World.wakePending, Bool.or_eq_true, List.any_eq_true] at hpending ⊢
    obtain hle | hsig | ⟨e, he, heu⟩ := hpending
    · obtain rfl | hle' | hb := hlow
      · exact .inl hle
      · exact .inl (hok.1 ▸ hle')
      · exact .inr (.inr ⟨b, hb.1, hb.2⟩)
    · exact .inr (.inl (hsignaled hsig))
    · by_cases heq : e = a
      · subst heq
        obtain hsig | hb := hurgent hasleep heu
        · exact .inr (.inl hsig)
        · exact .inr (.inr ⟨b, hb.1, hb.2⟩)
      · exact .inr (.inr ⟨e, hsup e he heq, heu⟩)

theorem World.Inv.become {i : Nat} (h : w.Inv stripeOf) (hi : w.noters[i]? = some a)
    (howes : ∀ c k, a.ctx = some c → a.owes k = true → b.owes k = true ∨ ∀ d, (w.ctxs c).deadline k = some d → n ≤ d)
    (hnext : n ≤ w.next) (hctx : b.ctx = a.ctx) (hpub : b.publishes = a.publishes) (htodo : ∀ p ∈ b.todo, p ∈ a.todo)
    (hcas : ∀ cur, b.pc = .cas cur → ∃ k t rest, b.todo = (k, some t) :: rest ∧ t < cur)
    (hsent : b.pc = .planned ∨ b.pc = .signal → ∃ k t rest, b.todo = (k, some t) :: rest)
    (hdone : b.todo = [] → b.publishes = true ∧ b.pc = .load)
    (hsignaled : w.signaled = true → g = true)
    (hurgent : w.isAsleep = true → a.urgent w.planned = true → g = true ∨ b.urgent w.planned = true)
    (hlow : n = w.next ∨ w.planned ≤ n ∨ b.urgent w.planned = true) :
    (World.become { w with next := n, signaled := g } i b).Inv stripeOf := by
  have hb : b ∈ w.noters.set i b := mem_set_self_of_getElem hi b
  refine h.noterStep (mem_of_getElem? hi) ?_ ?_ ?_ hnext hctx hpub htodo hcas hsent hdone hsignaled ?_ ?_
  · intro e he
    exact (mem_or_eq_of_mem_set he)
  · intro e he hne
    exact mem_set_of_mem hi he hne
  · intro c k hc hk
    exact (howes c k hc hk).imp_left fun hkept => ⟨hb, hkept⟩
  · intro hasleep hu
    exact (hurgent hasleep hu).imp_right fun hbu => ⟨hb, hbu⟩
  · exact hlow.imp_right fun hle => hle.imp_right fun hbu => ⟨hb, hbu⟩

theorem World.Inv.noted {i : Nat} {p : Kind × Option Nat} {rest : List (Kind × Option Nat)} (h : w.Inv stripeOf)
    (hi : w.noters[i]? = some a) (htodo : a.todo = p :: rest)
    (hhead : (a.pc = .planned ∨ a.pc = .signal) ∨
      ∀ c d, a.ctx = some c → (w.ctxs c).deadline p.1 = some d → w.next ≤ d)
    (hsignaled : w.signaled = true → g = true)
    (hurgent : w.isAsleep = true → a.urgent w.planned = true → g = true) :
    (World.noted { w with signaled := g } i a rest).Inv stripeOf := by
  have howes : ∀ c k, a.ctx = some c → a.owes k = true →
      rest.any (·.1 = k) = true ∨ ∀ d, (w.ctxs c).deadline k = some d → w.next ≤ d := by
    intro c k hc hk
    unfold Noter.owes at hk
    rw [htodo] at hk
    split at hk
    · exact .inl hk
    · exact .inl hk
    all_goals
      rw [any_cons, Bool.or_eq_true, decide_eq_true_eq] at hk
      obtain rfl | hk := hk
      · right
        obtain (hpc | hpc) | hle := hhead
        · simp_all
        · simp_all
        · exact fun d => hle c d hc
      · exact .inl hk
  have hnoter := h.noters a (mem_of_getElem? hi)
  unfold World.noted
  split
  · rename_i hend
    have hkept : World.Inv { w with noters := w.noters.eraseIdx i, next := w.next, signaled := g } stripeOf := by
      refine h.noterStep (b := a) (mem_of_getElem? hi) ?_ ?_ ?_ (Nat.le_refl _) rfl rfl (fun _ hp => hp) hnoter.cas hnoter.sent
        hnoter.done hsignaled ?_ (.inl rfl)
      · intro e he
        exact .inl (mem_of_mem_eraseIdx he)
      · intro e he hne
        exact mem_eraseIdx_of_mem hi he hne
      · intro c k hc hk
        have hrest := howes c k hc hk
        simp only [hend.1, any_nil, Bool.false_eq_true, false_or] at hrest
        exact .inr hrest
      · intro hasleep hu
        exact .inl (hurgent hasleep hu)
    exact hkept
  · rename_i hmore
    have hkept : (World.become { w with next := w.next, signaled := g } i { a with todo := rest, pc := .load }).Inv stripeOf := by
      refine h.become hi ?_ (Nat.le_refl _) rfl rfl ?_ (by simp) (by simp) ?_ hsignaled ?_ (.inl rfl)
      · exact howes
      · intro q hq
        rw [htodo]
        exact mem_cons_of_mem p hq
      · intro hend
        refine ⟨?_, rfl⟩
        by_contra hpub
        exact hmore ⟨hend, by simpa using hpub⟩
      · intro hasleep hu
        exact .inl (hurgent hasleep hu)
    exact hkept

theorem NoterOk.head_of_urgent {planned : Nat} (h : NoterOk w a) (hu : a.urgent planned = true) :
    ∃ k t rest, a.todo = (k, some t) :: rest := by
  unfold Noter.urgent at hu
  split at hu
  · rename_i hpc
    exact h.sent (.inr hpc)
  · rename_i hpc htodo
    exact ⟨_, _, _, htodo⟩
  · cases hu

theorem World.Inv.finish {i : Nat} (h : w.Inv stripeOf) (hi : w.noters[i]? = some a) (htodo : a.todo = []) :
    (w.finish i).Inv stripeOf := by
  have hnoter := h.noters a (mem_of_getElem? hi)
  have hkept : World.Inv { w with noters := w.noters.eraseIdx i, next := w.next, signaled := w.signaled } stripeOf := by
    refine h.noterStep (b := a) (mem_of_getElem? hi) ?_ ?_ ?_ (Nat.le_refl _) rfl rfl (fun _ hp => hp) hnoter.cas hnoter.sent
      hnoter.done (fun hsig => hsig) ?_ (.inl rfl)
    · intro e he
      exact .inl (mem_of_mem_eraseIdx he)
    · intro e he hne
      exact mem_eraseIdx_of_mem hi he hne
    · intro c k hc hk
      simp [Noter.owes, htodo, (hnoter.done htodo).2] at hk
    · intro _ hu
      obtain ⟨k, t, rest, hhead⟩ := hnoter.head_of_urgent hu
      simp [htodo] at hhead
  exact hkept

theorem World.Inv.publish {i : Nat} (h : w.Inv stripeOf) (hi : w.noters[i]? = some a) (hctx : a.ctx = some c) (htodo : a.todo = []) :
    (World.finish { w with ctxs := update w.ctxs c { w.ctxs c with state := .awaitingContinue } } i).Inv stripeOf := by
  have hnoter := h.noters a (mem_of_getElem? hi)
  have hkept := h.finish hi htodo
  have hdeadline : ∀ e k, (update w.ctxs c { w.ctxs c with state := .awaitingContinue } e).deadline k = (w.ctxs e).deadline k := by
    intro e k
    by_cases heq : e = c
    · subst heq
      cases k <;> simp [AsyncCtx.deadline]
    · simp [heq]
  refine ⟨hkept.stripes, ?_, ?_, ?_⟩
  · intro b hb
    exact (hkept.noters b hb).congr (fun e _ k => hdeadline e k) (fun _ hw => hw) (fun _ _ hu => hu) (Nat.le_refl _)
  · intro e k d hknown
    have hdl := (hdeadline e k).symm.trans hknown.deadline
    by_cases heq : e = c
    · subst heq
      have hrun : (w.ctxs e).timedOut = false := by simpa [World.finish] using hknown.running
      have happ := hknown.applies
      simp only [World.finish, update_self] at happ
      cases k with
      | window =>
        have hfree : ¬w.owed e .window := by
          rintro ⟨b, hb, hbc, hbk⟩
          by_cases hba : b = a
          · simp [hba, Noter.owes, htodo, (hnoter.done htodo).2] at hbk
          · exact hknown.noted ⟨b, mem_eraseIdx_of_mem hi hb hba, hbc, hbk⟩
        exact .inl (hnoter.opening e d (hnoter.done htodo).1 hctx hfree (hknown.seen rfl) hdl)
      | overall =>
        exact (hkept.covered e .overall d
          ⟨hknown.registered, hrun, happ, hdl, hknown.ahead, hknown.noted, hknown.seen⟩).mono (Nat.le_refl _) rfl
      | connect => simp [AsyncCtx.applies, AsyncCtx.isConnecting] at happ
      | attempt => simp [AsyncCtx.applies] at happ
    · have hrun := hknown.running
      have happ := hknown.applies
      simp only [World.finish, update_of_ne heq] at hrun happ
      exact (hkept.covered e k d ⟨hknown.registered, hrun, happ, hdl, hknown.ahead, hknown.noted, hknown.seen⟩).mono (Nat.le_refl _) rfl
  · exact hkept.sweep.congr rfl rfl fun _ _ hw => hw

theorem World.Inv.note {i : Nat} {weak : Bool} (h : w.Inv stripeOf) (hi : w.noters[i]? = some a) (hs : w.note i a weak = some w') :
    w'.Inv stripeOf := by
  have hnoter := h.noters a (mem_of_getElem? hi)
  unfold World.note at hs
  split at hs
  · rename_i htodo
    split at hs
    · rename_i c hctx
      exact some.inj hs ▸ h.publish hi hctx htodo
    · exact some.inj hs ▸ h.finish hi htodo
  · rename_i k rest htodo
    obtain rfl := some.inj hs
    refine h.noted (g := w.signaled) hi htodo ?_ (fun hsig => hsig) ?_
    · right
      intro c d hc hd
      have hvalue := hnoter.values c k none hc (by simp [htodo])
      rw [hvalue] at hd
      cases hd
    · intro _ hu
      obtain ⟨k', t, rest', hhead⟩ := hnoter.head_of_urgent hu
      simp [htodo] at hhead
  · rename_i k t rest htodo
    have hvalue : ∀ c d, a.ctx = some c → (w.ctxs c).deadline k = some d → d = t := by
      intro c d hc hd
      have hvalue := hnoter.values c k (some t) hc (by simp [htodo])
      rw [hvalue] at hd
      exact (some.inj hd).symm
    -- The call returns from its loop when nothing later than its instant is planned.
    have hloop : a.pc = .load ∨ (∃ cur, a.pc = .cas cur) →
        (if t < w.next then w.become i { a with pc := .cas w.next } else w.noted i a rest).Inv stripeOf := by
      intro hpc
      have hcalm : ∀ planned, a.urgent planned = false := by
        intro planned
        obtain hpc | ⟨cur, hpc⟩ := hpc <;> simp [Noter.urgent, hpc]
      split
      · rename_i hlt
        refine h.become (n := w.next) (g := w.signaled) hi ?_ (Nat.le_refl _) rfl rfl (fun _ hp => hp) ?_ (by simp) ?_
          (fun hsig => hsig) ?_ (.inl rfl)
        · intro c k' _ hk
          left
          obtain hpc | ⟨cur, hpc⟩ := hpc <;> simpa [Noter.owes, hpc] using hk
        · intro cur hcur
          obtain rfl := NotePc.cas.inj hcur
          exact ⟨k, t, rest, htodo, hlt⟩
        · intro hend
          simp [htodo] at hend
        · intro _ hu
          simp [hcalm] at hu
      · rename_i hge
        refine h.noted (g := w.signaled) hi htodo (.inr ?_) (fun hsig => hsig) ?_
        · intro c d hc hd
          rw [hvalue c d hc hd]
          exact Nat.le_of_not_lt hge
        · intro _ hu
          simp [hcalm] at hu
    split at hs
    · rename_i hpc
      exact some.inj hs ▸ hloop (.inl hpc)
    · rename_i cur hpc
      split at hs
      · rename_i hswap
        obtain ⟨_, _, _, hhead, hlt⟩ := hnoter.cas cur hpc
        simp only [htodo, List.cons.injEq, Prod.mk.injEq, some.injEq] at hhead
        obtain ⟨⟨rfl, rfl⟩, rfl⟩ := hhead
        obtain rfl := some.inj hs
        refine h.become (n := t) (g := w.signaled) hi ?_ ?_ rfl rfl (fun _ hp => hp) (by simp) ?_ ?_ (fun hsig => hsig) ?_ ?_
        · intro c k' hc hk
          simp only [Noter.owes, hpc, htodo, any_cons, Bool.or_eq_true, decide_eq_true_eq] at hk
          obtain rfl | hk := hk
          · right
            intro d hd
            exact Nat.le_of_eq (hvalue c d hc hd).symm
          · left
            simpa [Noter.owes, htodo] using hk
        · rw [hswap.1]
          exact Nat.le_of_lt hlt
        · intro _
          exact ⟨k, t, rest, htodo⟩
        · intro hend
          simp [htodo] at hend
        · intro _ hu
          simp [Noter.urgent, hpc] at hu
        · right
          by_cases hle : w.planned ≤ t
          · exact .inl hle
          · right
            simpa [Noter.urgent, htodo] using hle
      · exact some.inj hs ▸ hloop (.inr ⟨cur, hpc⟩)
    · rename_i hpc
      obtain rfl := some.inj hs
      split
      · rename_i hge
        refine h.noted (g := w.signaled) hi htodo (.inl (.inl hpc)) (fun hsig => hsig) ?_
        intro _ hu
        simp only [Noter.urgent, hpc, htodo, decide_eq_true_eq] at hu
        omega
      · refine h.become (n := w.next) (g := w.signaled) hi ?_ (Nat.le_refl _) rfl rfl (fun _ hp => hp) (by simp) ?_ ?_
          (fun hsig => hsig) ?_ (.inl rfl)
        · intro c k' _ hk
          left
          simpa [Noter.owes, hpc] using hk
        · intro _
          exact ⟨k, t, rest, htodo⟩
        · intro hend
          simp [htodo] at hend
        · intro _ _
          exact .inr rfl
    · rename_i hpc
      split at hs
      · cases hs
      · obtain rfl := some.inj hs
        refine h.noted (g := w.signaled || w.isAsleep) hi htodo (.inl (.inr hpc)) ?_ ?_
        · intro hsig
          simp [hsig]
        · intro hasleep _
          simp [hasleep]

end

/-! ## Contexts that come and go -/

theorem World.Known.before (h : w'.Known stripeOf c k d) (hctx : w'.ctxs c = w.ctxs c) (hclock : w.clock ≤ w'.clock)
    (hreg : w'.registered stripeOf c → w.registered stripeOf c) (howed : w.owed c k → w'.owed c k)
    (hunseen : w'.unseen c = false → w.unseen c = false) : w.Known stripeOf c k d where
  registered := hreg h.registered
  running := hctx ▸ h.running
  applies := hctx ▸ h.applies
  deadline := hctx ▸ h.deadline
  ahead := Nat.lt_of_le_of_lt hclock h.ahead
  noted := fun hw => h.noted (howed hw)
  seen := fun hk => hunseen (h.seen hk)

theorem World.owed.cons (h : w.owed c k) (hnoters : w'.noters = b :: w.noters) : w'.owed c k := by
  obtain ⟨a, ha, hac, hak⟩ := h
  exact ⟨a, hnoters ▸ mem_cons_of_mem b ha, hac, hak⟩

theorem World.Inv.enter (h : w.Inv stripeOf) (hnoters : w'.noters = b :: w.noters) (hsweep : w'.sweep = w.sweep)
    (hplanned : w'.planned = w.planned) (hsignaled : w'.signaled = w.signaled) (hnext : w'.next = w.next)
    (hstripes : ∀ s c, c ∈ w'.stripes s → (stripeOf c).val = s) (hpc : b.pc = .load) (htodo : b.todo ≠ [])
    (hvalues : ∀ c k o, b.ctx = some c → (k, o) ∈ b.todo → (w'.ctxs c).deadline k = o)
    (hopens : b.publishes = true → b.owes .window = true)
    (hframe : ∀ a ∈ w.noters, ∀ c, a.ctx = some c → w'.ctxs c = w.ctxs c ∧ w'.unseen c = w.unseen c)
    (hknown : ∀ c k d, w'.Known stripeOf c k d → w.Known stripeOf c k d) : w'.Inv stripeOf := by
  refine ⟨hstripes, ?_, ?_, ?_⟩
  · intro a ha
    rw [hnoters] at ha
    obtain rfl | ha := mem_cons.mp ha
    · refine ⟨by simp [hpc], by simp [hpc], fun hend => absurd hend htodo, hvalues, ?_⟩
      intro c d hpub hc hfree
      exact absurd ⟨a, by simp [hnoters], hc, hopens hpub⟩ hfree
    · refine (h.noters a ha).congr ?_ (fun _ hw => hw.cons hnoters) ?_ (Nat.le_of_eq hnext)
      · intro c hc k
        rw [(hframe a ha c hc).1]
      · intro c hc hseen
        rw [← (hframe a ha c hc).2]
        exact hseen
  · intro c k d hk
    exact (h.covered c k d (hknown c k d hk)).mono (Nat.le_of_eq hnext) hsweep
  · refine h.sweep.congr hsweep hplanned ?_
    intro wake _ hpending
    rw [hnext]
    refine hpending.imp_right fun hp => ?_
    simp only [World.wakePending, hsignaled, hplanned, hnoters, any_cons, Bool.or_eq_true] at hp ⊢
    exact hp.imp_right .inr

theorem World.ne_of_busy {a : Noter} {e : Nat} (hbusy : w.busy c = false) (ha : a ∈ w.noters) (hctx : a.ctx = some e) : e ≠ c := by
  rintro rfl
  simp only [World.busy, List.any_eq_false, decide_eq_true_eq] at hbusy
  exact hbusy a ha hctx

theorem World.Inv.submit {connect overall : Option Nat} {inactivityUs : Nat} (h : w.Inv stripeOf) (hbusy : w.busy c = false) :
    (w.submit stripeOf c connect overall inactivityUs).Inv stripeOf := by
  refine h.enter rfl rfl rfl rfl rfl ?_ rfl (by simp) ?_ (by simp) ?_ ?_
  · intro s e he
    by_cases hs : s = stripeOf c
    · subst hs
      simp only [World.submit, update_self] at he
      obtain rfl | he := mem_cons.mp he
      · rfl
      · exact h.stripes _ e he
    · simp only [World.submit, update_of_ne hs] at he
      exact h.stripes s e he
  · intro e k o he hmem
    obtain rfl := some.inj he
    simp only [mem_cons, Prod.mk.injEq, not_mem_nil, or_false] at hmem
    obtain ⟨rfl, rfl⟩ | ⟨rfl, rfl⟩ := hmem <;> simp [World.submit, World.setCtx, AsyncCtx.deadline]
  · intro a ha e he
    exact ⟨update_of_ne (World.ne_of_busy hbusy ha he) _ _, rfl⟩
  · intro e k d hk
    by_cases heq : e = c
    · subst heq
      have happ := hk.applies
      cases k with
      | connect => exact absurd ⟨_, mem_cons_self, rfl, by simp [Noter.owes]⟩ hk.noted
      | overall => exact absurd ⟨_, mem_cons_self, rfl, by simp [Noter.owes]⟩ hk.noted
      | window => simp [World.submit, World.setCtx, AsyncCtx.applies, AsyncCtx.isWaiting] at happ
      | attempt => simp [AsyncCtx.applies] at happ
    · refine hk.before (update_of_ne heq _ _) (Nat.le_refl _) ?_ (fun hw => hw.cons rfl) fun hu => hu
      intro hreg
      unfold World.registered at hreg ⊢
      by_cases hs : stripeOf e = stripeOf c
      · rw [hs] at hreg ⊢
        simp only [World.submit, update_self] at hreg
        exact (mem_cons.mp hreg).resolve_left heq
      · have hs' : (stripeOf e).val ≠ stripeOf c := fun hv => hs (Fin.ext hv)
        simpa only [World.submit, update_of_ne hs'] using hreg

theorem World.Inv.reuse {overall : Option Nat} {inactivityUs : Nat} (h : w.Inv stripeOf) (hbusy : w.busy c = false) :
    (w.reuse c overall inactivityUs).Inv stripeOf := by
  refine h.enter rfl rfl rfl rfl rfl h.stripes rfl (by simp) ?_ (by simp) ?_ ?_
  · intro e k o he hmem
    obtain rfl := some.inj he
    simp only [mem_cons, Prod.mk.injEq, not_mem_nil, or_false] at hmem
    obtain ⟨rfl, rfl⟩ := hmem
    simp [World.reuse, World.setCtx, AsyncCtx.deadline]
  · intro a ha e he
    exact ⟨update_of_ne (World.ne_of_busy hbusy ha he) _ _, rfl⟩
  · intro e k d hk
    by_cases heq : e = c
    · subst heq
      have happ := hk.applies
      cases k with
      | connect => simp [World.reuse, World.setCtx, AsyncCtx.applies, AsyncCtx.isConnecting] at happ
      | overall => exact absurd ⟨_, mem_cons_self, rfl, by simp [Noter.owes]⟩ hk.noted
      | window => simp [World.reuse, World.setCtx, AsyncCtx.applies, AsyncCtx.isWaiting] at happ
      | attempt => simp [AsyncCtx.applies] at happ
    · exact hk.before (update_of_ne heq _ _) (Nat.le_refl _) (fun hreg => hreg) (fun hw => hw.cons rfl) fun hu => hu

theorem World.Inv.openWindow {window : Nat} (h : w.Inv stripeOf) (hbusy : w.busy c = false) (hstate : (w.ctxs c).state = .writing) :
    (w.openWindow c window).Inv stripeOf := by
  refine h.enter rfl rfl rfl rfl rfl h.stripes rfl (by simp) ?_ (by simp [Noter.owes]) ?_ ?_
  · intro e k o he hmem
    obtain rfl := some.inj he
    simp only [mem_cons, Prod.mk.injEq, not_mem_nil, or_false] at hmem
    obtain ⟨rfl, rfl⟩ := hmem
    simp [World.openWindow, World.setCtx, AsyncCtx.deadline]
  · intro a ha e he
    have hne := World.ne_of_busy hbusy ha he
    exact ⟨update_of_ne hne _ _, update_of_ne hne _ _⟩
  · intro e k d hk
    by_cases heq : e = c
    · subst heq
      have happ := hk.applies
      have hrun := hk.running
      have hdl := hk.deadline
      have hnoted : ¬w.owed e k := fun hw => hk.noted (hw.cons rfl)
      simp only [World.openWindow, World.setCtx, update_self] at happ hrun hdl
      cases k with
      | connect => simp [AsyncCtx.applies, AsyncCtx.isConnecting, hstate] at happ
      | overall => exact ⟨hk.registered, hrun, happ, hdl, hk.ahead, hnoted, by simp⟩
      | window => simp [AsyncCtx.applies, AsyncCtx.isWaiting, hstate] at happ
      | attempt => simp [AsyncCtx.applies] at happ
    · refine hk.before (update_of_ne heq _ _) (Nat.le_refl _) (fun hreg => hreg) (fun hw => hw.cons rfl) ?_
      intro hu
      simpa only [World.openWindow, update_of_ne heq] using hu

theorem World.Inv.attempt {t : Nat} (h : w.Inv stripeOf) :
    World.Inv { w with noters := ⟨none, [(.attempt, some t)], .load, false⟩ :: w.noters } stripeOf :=
  h.enter (b := ⟨none, [(.attempt, some t)], .load, false⟩) rfl rfl rfl rfl rfl h.stripes rfl (by simp) (by simp) (by simp)
    (fun _ _ _ _ => ⟨rfl, rfl⟩) fun _ _ _ hk => hk.before rfl (Nat.le_refl _) (fun hreg => hreg) (fun hw => hw.cons rfl) fun hu => hu

theorem World.Inv.shrink (h : w.Inv stripeOf) (hnoters : w'.noters = w.noters) (hctxs : w'.ctxs = w.ctxs)
    (hunseen : w'.unseen = w.unseen) (hclock : w.clock ≤ w'.clock) (hnext : w'.next ≤ w.next)
    (hstripes : ∀ s c, c ∈ w'.stripes s → c ∈ w.stripes s)
    (hcovered : ∀ c d, w.registered stripeOf c → w.Covered stripeOf c d → w'.Covered stripeOf c d)
    (hsweep : SweepOk w') : w'.Inv stripeOf := by
  have howed : ∀ c k, w.owed c k → w'.owed c k := by
    intro c k hw
    unfold World.owed
    rw [hnoters]
    exact hw
  refine ⟨fun s c hc => h.stripes s c (hstripes s c hc), ?_, ?_, hsweep⟩
  · intro a ha
    refine (h.noters a (hnoters ▸ ha)).congr ?_ (fun c hw => howed c _ hw) ?_ hnext
    · intro c _ k
      rw [hctxs]
    · intro c _ hu
      rw [← hunseen]
      exact hu
  · intro c k d hk
    have hold : w.Known stripeOf c k d :=
      hk.before (by rw [hctxs]) hclock (hstripes _ c) (howed c k) fun hu => hunseen ▸ hu
    exact hcovered c d hold.registered (h.covered c k d hold)

/-! ## The sweep -/

structure Visited (w : World) (t : Tick) (c : Nat) (x : AsyncCtx) (t' : Tick) : Prop where
  deadline : ∀ k, x.deadline k = (w.ctxs c).deadline k
  applies : ∀ k, x.applies k = (w.ctxs c).applies k
  running : x.timedOut = false → (w.ctxs c).timedOut = false
  planned : x.timedOut = false → ∀ k d, x.applies k = true → x.deadline k = some d → w.clock < d → t'.next ≤ d
  next : t'.next ≤ t.next
  stripe : t'.stripe = t.stripe
  shutdown : t.shutdown ≤ t'.shutdown

theorem World.visited (w : World) (t : Tick) (c : Nat) (race : Option Nat) : Visited w t c (w.visit t c race).1 (w.visit t c race).2 := by
  cases hout : (w.ctxs c).timedOut with
  | true =>
    unfold World.visit
    dsimp only
    rw [hout, if_pos rfl]
    split
    · exact ⟨fun k => by cases k <;> rfl, fun k => by cases k <;> rfl, by simp [hout], by simp, Nat.le_refl _, rfl,
        Nat.le_succ _⟩
    · exact ⟨fun _ => rfl, fun _ => rfl, by simp [hout], by simp [hout], Nat.le_refl _, rfl, Nat.le_refl _⟩
  | false =>
    have hnext : ((w.ctxs c).judge w.clock t.next).next ≤ t.next := AsyncCtx.judge_next
    have hle : ∀ k d, ((w.ctxs c).judge w.clock t.next).expired = false → (w.ctxs c).applies k = true →
        (w.ctxs c).deadline k = some d → w.clock < d → ((w.ctxs c).judge w.clock t.next).next ≤ d :=
      fun _ _ => AsyncCtx.judge_le
    unfold World.visit
    dsimp only
    rw [hout, if_neg (by simp)]
    generalize (w.ctxs c).judge w.clock t.next = v at hnext hle ⊢
    generalize (if (w.ctxs c).state = AsyncState.connecting then race else none) = race'
    split
    · rename_i hexpired
      split
      · exact ⟨fun k => by cases k <;> rfl, fun k => by cases k <;> rfl, by simp [hexpired], by simp [hexpired], hnext, rfl,
          Nat.le_succ _⟩
      · exact ⟨fun k => by cases k <;> rfl, fun k => by cases k <;> rfl, by simp [hexpired], by simp [hexpired], hnext, rfl,
          Nat.le_succ _⟩
    · rename_i hexpired
      have hrun : v.expired = false := by simpa using hexpired
      have hdeadline : ∀ k, AsyncCtx.deadline { w.ctxs c with timedOut := v.expired, lastIoNs := v.lastIoNs } k = (w.ctxs c).deadline k :=
        fun k => by cases k <;> rfl
      have happlies : ∀ k, AsyncCtx.applies { w.ctxs c with timedOut := v.expired, lastIoNs := v.lastIoNs } k = (w.ctxs c).applies k :=
        fun k => by cases k <;> rfl
      have hplan : ∀ k d, AsyncCtx.applies { w.ctxs c with timedOut := v.expired, lastIoNs := v.lastIoNs } k = true →
          AsyncCtx.deadline { w.ctxs c with timedOut := v.expired, lastIoNs := v.lastIoNs } k = some d → w.clock < d → v.next ≤ d :=
        fun k d happ hd hahead => hle k d hrun (happlies k ▸ happ) (hdeadline k ▸ hd) hahead
      cases race' with
      | none => exact ⟨hdeadline, happlies, fun _ => hout, fun _ => hplan, hnext, rfl, Nat.le_refl _⟩
      | some t' =>
        exact ⟨hdeadline, happlies, fun _ => hout, fun _ k d happ hd hahead => Nat.le_trans (Nat.min_le_right _ _) (hplan k d happ hd hahead),
          Nat.le_trans (Nat.min_le_right _ _) hnext, rfl, Nat.le_refl _⟩

theorem World.Inv.visit {t t' : Tick} {rest : List Nat} (h : w.Inv stripeOf) (hsweep : w.sweep = .inStripe t (c :: rest))
    (hv : Visited w t c x t') : World.Inv { w.setCtx c x with sweep := .inStripe t' rest } stripeOf := by
  have hdeadline : ∀ e k, (update w.ctxs c x e).deadline k = (w.ctxs e).deadline k := by
    intro e k
    by_cases heq : e = c
    · subst heq
      simpa using hv.deadline k
    · simp [heq]
  refine ⟨h.stripes, ?_, ?_, trivial⟩
  · intro a ha
    exact (h.noters a ha).congr (fun e _ k => hdeadline e k) (fun _ hw => hw) (fun _ _ hu => hu) (Nat.le_refl _)
  · intro e k d hk
    by_cases heq : e = c
    · subst heq
      have hrun := hk.running
      have happ := hk.applies
      have hdl := hk.deadline
      simp only [World.setCtx, update_self] at hrun happ hdl
      exact .inr (.inl (hv.planned hrun k d happ hdl hk.ahead))
    · have hold : w.Known stripeOf e k d :=
        hk.before (update_of_ne heq _ _) (Nat.le_refl _) (fun hreg => hreg) (fun hw => hw) fun hu => hu
      obtain hle | hwalk := h.covered e k d hold
      · exact .inl hle
      · right
        rw [hsweep] at hwalk
        obtain hle | hbatch | hlater | ⟨hhere, hmem⟩ := hwalk
        · exact .inl (Nat.le_trans hv.next hle)
        · exact .inr (.inl (Nat.le_trans hbatch hv.shutdown))
        · exact .inr (.inr (.inl (hv.stripe ▸ hlater)))
        · exact .inr (.inr (.inr ⟨hv.stripe ▸ hhere, (mem_cons.mp hmem).resolve_left heq⟩))

theorem World.Inv.reset (h : w.Inv stripeOf) :
    World.Inv { w with
      next := uint64Max
      sweep := .between ⟨0, uint64Max, 0, 0⟩
      unseen := fun c => w.unseen c || w.noters.any fun a => a.publishes && decide (a.ctx = some c) } stripeOf := by
  refine ⟨h.stripes, ?_, ?_, trivial⟩
  · intro a ha
    have hok := h.noters a ha
    refine ⟨hok.cas, hok.sent, hok.done, hok.values, ?_⟩
    intro c d hpub hc _ hseen
    -- The walk that begins marks the context of a thread that has a window to publish.
    simp only [Bool.or_eq_false_iff, List.any_eq_false] at hseen
    exact absurd (by simp [hpub, hc]) (hseen.2 a ha)
  · intro c k d _
    exact .inr (.inr (.inr (Nat.zero_le _)))

theorem World.Inv.planStep {planned clock : Nat} {g : Bool} {sweep : SweepPc} (h : w.Inv stripeOf) (hnext : n ≤ w.next)
    (hcovered : ∀ c d, w.registered stripeOf c → w.Covered stripeOf c d → World.Covered { w with next := n, sweep := sweep } stripeOf c d)
    (hsweep : SweepOk { w with next := n, planned := planned, lastWalk := clock, signaled := g, sweep := sweep }) :
    World.Inv { w with next := n, planned := planned, lastWalk := clock, signaled := g, sweep := sweep } stripeOf :=
  h.shrink rfl rfl rfl (Nat.le_refl _) hnext (fun _ _ hc => hc) hcovered hsweep

def SweepPc.walks : SweepPc → Bool
  | .between _ | .inStripe .. | .noting _ | .lowering .. => true
  | _ => false

theorem World.Covered.le (h : w.Covered stripeOf c d) (hidle : w.sweep.walks = false) : w.next ≤ d := by
  obtain hle | hwalk := h
  · exact hle
  · cases hs : w.sweep <;> simp_all [SweepPc.walks]

theorem World.Inv.sweepStep {race : Option Nat} (h : w.Inv stripeOf) (hs : w.sweepStep race = some w') : w'.Inv stripeOf := by
  have hold : w.sweep.walks = false → ∀ c d, w.registered stripeOf c → w.Covered stripeOf c d → w.next ≤ d :=
    fun hidle _ _ _ hc => hc.le hidle
  have hok := h.sweep
  unfold World.sweepStep at hs
  split at hs
  all_goals rename_i hpc; simp only [hpc] at hold
  · cases hs
  · cases hs
  · split at hs
    · obtain rfl := some.inj hs
      exact h.planStep (Nat.le_refl _) (fun c d hreg hc => .inl (hold rfl c d hreg hc)) trivial
    · obtain rfl := some.inj hs
      exact h.planStep (Nat.le_refl _) (fun c d hreg hc => .inl (hold rfl c d hreg hc)) trivial
  · obtain rfl := some.inj hs
    exact h.planStep (Nat.le_refl _) (fun c d hreg hc => .inl (hold rfl c d hreg hc)) rfl
  · split at hs
    · rename_i now wake next hsame
      simp only [SweepOk, hpc] at hok
      dsimp only at hs
      split at hs
      · rename_i hlater
        obtain rfl := some.inj hs
        refine h.planStep (Nat.le_refl _) (fun c d hreg hc => .inl (hold rfl c d hreg hc)) ⟨?_, .inl ?_⟩
        · rw [hok, if_pos (Nat.lt_of_le_of_lt (Nat.zero_le now) hlater)]
        · rw [hsame]
          exact Nat.min_le_left next wake
      · obtain rfl := some.inj hs
        exact h.planStep (Nat.le_refl _) (fun c d hreg hc => .inl (hold rfl c d hreg hc)) trivial
    · obtain rfl := some.inj hs
      exact h.planStep (Nat.le_refl _) (fun c d hreg hc => .inl (hold rfl c d hreg hc)) trivial
  · obtain rfl := some.inj hs
    exact h.planStep (Nat.le_refl _) (fun c d hreg hc => .inl (hold rfl c d hreg hc)) trivial
  · exact some.inj hs ▸ h.reset
  · rename_i t
    split at hs
    · obtain rfl := some.inj hs
      refine h.planStep (Nat.le_refl _) ?_ trivial
      intro c d hreg hc
      refine hc.imp_right fun hwalk => ?_
      rw [hpc] at hwalk
      obtain hle | hbatch | hlater := hwalk
      · exact .inl hle
      · exact .inr (.inl hbatch)
      · obtain hlt | heq := Nat.lt_or_eq_of_le hlater
        · exact .inr (.inr (.inl hlt))
        · exact .inr (.inr (.inr ⟨heq, heq ▸ hreg⟩))
    · rename_i hend
      obtain rfl := some.inj hs
      refine h.planStep (Nat.le_refl _) ?_ trivial
      intro c d hreg hc
      refine hc.imp_right fun hwalk => ?_
      rw [hpc] at hwalk
      dsimp only
      split
      · exact Nat.zero_le d
      · rename_i hfew
        have hall : chttpDeadlineSweepStripes ≤ t.stripe := by
          by_contra hmore
          exact hend ⟨Nat.lt_of_not_le hmore, Nat.lt_of_not_le hfew⟩
        obtain hle | hbatch | hlater := hwalk
        · exact hle
        · exact absurd hbatch hfew
        · exact absurd (Nat.le_trans hall hlater) (Nat.not_le_of_lt (stripeOf c).isLt)
  · rename_i t rest
    split at hs
    · rename_i c rest
      split at hs
      · obtain rfl := some.inj hs
        exact h.visit hpc (w.visited t c race)
      · rename_i hbatch
        obtain rfl := some.inj hs
        refine h.planStep (Nat.le_refl _) ?_ trivial
        intro c d _ hc
        exact hc.imp_right fun _ => .inr (.inl (Nat.le_of_not_lt hbatch))
    · obtain rfl := some.inj hs
      refine h.planStep (Nat.le_refl _) ?_ trivial
      intro c d _ hc
      refine hc.imp_right fun hwalk => ?_
      rw [hpc] at hwalk
      obtain hle | hbatch | hlater | ⟨_, hmem⟩ := hwalk
      · exact .inl hle
      · exact .inr (.inl hbatch)
      · exact .inr (.inr hlater)
      · cases hmem
  · rename_i next
    split at hs
    · rename_i hlt
      obtain rfl := some.inj hs
      refine h.planStep (Nat.le_refl _) ?_ hlt
      intro c d _ hc
      rw [World.Covered, hpc] at hc
      exact hc
    · rename_i hge
      obtain rfl := some.inj hs
      refine h.planStep (Nat.le_refl _) ?_ trivial
      intro c d _ hc
      rw [World.Covered, hpc] at hc
      exact .inl (hc.elim (fun hle => hle) fun hle => Nat.le_trans (Nat.le_of_not_lt hge) hle)
  · rename_i next cur
    simp only [SweepOk, hpc] at hok
    split at hs
    · rename_i hsame
      obtain rfl := some.inj hs
      have hlt : next ≤ w.next := hsame ▸ Nat.le_of_lt hok
      refine h.planStep hlt ?_ trivial
      intro c d _ hc
      rw [World.Covered, hpc] at hc
      exact .inl (hc.elim (fun hle => Nat.le_trans hlt hle) fun hle => hle)
    · split at hs
      · rename_i hlt
        obtain rfl := some.inj hs
        refine h.planStep (Nat.le_refl _) ?_ hlt
        intro c d _ hc
        rw [World.Covered, hpc] at hc
        exact hc
      · rename_i hge
        obtain rfl := some.inj hs
        refine h.planStep (Nat.le_refl _) ?_ trivial
        intro c d _ hc
        rw [World.Covered, hpc] at hc
        exact .inl (hc.elim (fun hle => hle) fun hle => Nat.le_trans (Nat.le_of_not_lt hge) hle)
  · obtain rfl := some.inj hs
    exact h.planStep (Nat.le_refl _) (fun c d hreg hc => .inl (hold rfl c d hreg hc)) trivial

/-! ## All steps -/

theorem World.Inv.start : World.start.Inv stripeOf where
  stripes := by simp [World.start]
  noters := by simp [World.start]
  covered := by
    intro c k d hk
    have hreg := hk.registered
    simp [World.registered, World.start] at hreg
  sweep := trivial

theorem World.Inv.step {i : Action} (h : w.Inv stripeOf) (hs : w.step stripeOf i = some w') : w'.Inv stripeOf := by
  have hok := h.sweep
  cases i with
  | tick ns =>
    obtain rfl := some.inj hs
    exact h.shrink rfl rfl rfl (Nat.le_add_right _ _) (Nat.le_refl _) (fun _ _ hc => hc) (fun _ _ _ hc => hc)
      (hok.congr rfl rfl fun _ _ hw => hw)
  | submit c connect overall inactivityUs =>
    simp only [World.step] at hs
    split at hs
    · rename_i hfree
      exact some.inj hs ▸ h.submit hfree.2.1
    · cases hs
  | reuse c overall inactivityUs =>
    simp only [World.step] at hs
    split at hs
    · rename_i hfree
      exact some.inj hs ▸ h.reuse hfree.2.1
    · cases hs
  | openWindow c window =>
    simp only [World.step] at hs
    split at hs
    · rename_i hfree
      exact some.inj hs ▸ h.openWindow hfree.2.1 hfree.2.2
    · cases hs
  | attempt t => exact some.inj hs ▸ h.attempt
  | note i weak =>
    simp only [World.step] at hs
    split at hs
    · rename_i a hi
      exact h.note hi hs
    · cases hs
  | moveOn c state =>
    simp only [World.step] at hs
    split at hs
    · rename_i hmay
      obtain rfl := some.inj hs
      refine h.setCtx (fun k => by cases k <;> rfl) ?_
      intro k hrun happ
      refine ⟨hrun, ?_⟩
      have hmove := hmay.2
      cases state <;> cases k <;>
        simp_all [AsyncCtx.applies, AsyncCtx.isConnecting, AsyncCtx.isWaiting, World.mayMove]
    · cases hs
  | connected c =>
    obtain rfl := some.inj hs
    exact h.setCtx (fun k => by cases k <;> rfl) fun k hrun happ => ⟨hrun, by cases k <;> exact happ⟩
  | io c lastIoNs inSink sinkReturnedNs =>
    obtain rfl := some.inj hs
    exact h.setCtx (fun k => by cases k <;> rfl) fun k hrun happ => ⟨hrun, by cases k <;> exact happ⟩
  | decided c =>
    simp only [World.step] at hs
    split at hs
    · obtain rfl := some.inj hs
      refine h.setCtx (fun k => by cases k <;> rfl) fun k hrun happ => ⟨hrun, ?_⟩
      cases k with
      | window => simp [AsyncCtx.applies, AsyncCtx.isWaiting] at happ
      | _ => exact happ
    · cases hs
  | msgStarted c =>
    simp only [World.step] at hs
    split at hs
    · obtain rfl := some.inj hs
      refine h.setCtx (fun k => by cases k <;> rfl) fun k hrun happ => ⟨hrun, ?_⟩
      cases k with
      | window => simp [AsyncCtx.applies, AsyncCtx.isWaiting] at happ
      | _ => exact happ
    · cases hs
  | offer c =>
    simp only [World.step] at hs
    split at hs
    · obtain rfl := some.inj hs
      refine h.setCtx (fun k => by cases k <;> rfl) fun k _ happ => ?_
      cases k <;> simp [AsyncCtx.applies, AsyncCtx.isConnecting, AsyncCtx.isWaiting, World.offered] at happ
    · cases hs
  | unregister c =>
    simp only [World.step] at hs
    split at hs
    · obtain rfl := some.inj hs
      refine h.shrink rfl rfl rfl (Nat.le_refl _) (Nat.le_refl _) ?_ (fun _ _ _ hc => hc) (hok.congr rfl rfl fun _ _ hw => hw)
      intro s e he
      by_cases heq : s = stripeOf c
      · subst heq
        simp only [update_self] at he
        exact mem_of_mem_erase he
      · simpa only [update_of_ne heq] using he
    · cases hs
  | sweepStart =>
    simp only [World.step] at hs
    split at hs
    · rename_i hoff
      obtain rfl := some.inj hs
      refine h.shrink rfl rfl rfl (Nat.le_refl _) (Nat.le_refl _) (fun _ _ hc => hc) ?_ trivial
      intro c d _ hc
      exact .inl (hc.le (by rw [hoff]; rfl))
    · cases hs
  | sweepStop =>
    simp only [World.step] at hs
    split at hs
    · cases hs
    · obtain rfl := some.inj hs
      refine h.shrink rfl rfl rfl (Nat.le_refl _) (Nat.le_refl _) (fun _ _ hc => hc) (fun _ _ _ hc => hc) ?_
      refine hok.congr rfl rfl ?_
      intro wake hwake _
      right
      simp [World.wakePending, World.isAsleep, hwake]
  | wake =>
    simp only [World.step] at hs
    split at hs
    · rename_i hwait
      obtain rfl := some.inj hs
      refine h.shrink rfl rfl rfl (Nat.le_refl _) (Nat.le_refl _) (fun _ _ hc => hc) ?_ trivial
      intro c d _ hc
      exact .inl (hc.le (by rw [hwait]; rfl))
    · cases hs
  | sweep race => exact h.sweepStep hs
  | raceLower t =>
    simp only [World.step] at hs
    split at hs
    · rename_i hwalk
      obtain rfl := some.inj hs
      refine h.shrink rfl rfl rfl (Nat.le_refl _) (Nat.min_le_right _ _) (fun _ _ hc => hc)
        (fun _ _ _ hc => hc.mono (Nat.min_le_right _ _) rfl) ?_
      simp [SweepOk, hwalk]
    · cases hs

theorem World.Reachable.inv (h : w.Reachable stripeOf) : w.Inv stripeOf :=
  Reach.invariant (P := fun w : World => w.Inv stripeOf) World.Inv.start (fun _ _ _ hinv hs => hinv.step hs) h

end Ccollections.Chttpclient.DeadlineSweep
