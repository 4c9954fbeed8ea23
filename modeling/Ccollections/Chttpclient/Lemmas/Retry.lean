import Ccollections.Chttpclient.Exchange
import Ccollections.Chttpclient.Lemmas.Exchange

/-!
# The decision to send a request again
-/

namespace Ccollections.Chttpclient
open Chttp1 List Option

/-! ## Facts -/

theorem bodyAfterContinue_of_unread {trace : List WireEvent} (hread : readAny trace = false) :
    bodyAfterContinue trace = false := by
  induction trace with
  | nil => rfl
  | cons e trace ih =>
    simp only [readAny, any_cons, Bool.or_eq_false_iff] at hread
    have hrest := ih hread.2
    cases e with
    | wrote bytes => exact hrest
    | closed status => exact hrest
    | confirmed left => exact hrest
    | parsed data ended =>
      have hdata : data = [] := by simpa using hread.1
      rw [hdata]
      exact hrest

theorem mayResend_attemptFacts (h : Hop) (reused timedOut : Bool) (trace : List WireEvent) :
    (attemptFacts h reused timedOut trace).mayResend =
      (reused && !readAny trace && !timedOut && ((seen trace).written.length < h.wire.length || h.replayable)) := by
  simp only [AttemptFacts.mayResend, attemptFacts]
  cases hread : readAny trace with
  | true => simp
  | false =>
    simp [bodyAfterContinue_of_unread hread]
    rfl

/-! ## Tier 1 -/

variable {h : Hop} {x y : Exchange} {rounds rest : List Round} {reused : Bool} {reconnect : Except HttpRetval Nat} {code : HttpRetval}

namespace Hop

theorem retries_eq (hresend : Resendable h h.wire y) :
    retries reused (.failure code y rest) = (attemptFacts h reused false y.trace).mayResend := by
  rw [mayResend_attemptFacts, Bool.eq_iff_iff]
  simp only [retries, Resendable] at *
  simp only [Bool.and_eq_true, Bool.not_eq_true', Bool.or_eq_true, decide_eq_true_eq, and_assoc, true_and] at *
  rw [hresend]

theorem chttpDoHop_first (h : Hop) (x : Exchange) (reused : Bool) (reconnect : Except HttpRetval Nat) (rounds : List Round) :
    (h.chttpDoHop x reused reconnect rounds).first = h.chttpSendAndRead x rounds := by
  simp only [chttpDoHop]
  split
  · split <;> rfl
  · rfl

theorem chttpDoHop_retry_some {retry : Except HttpRetval Returned} (hr : (h.chttpDoHop x reused reconnect rounds).retry = some retry) :
    ∃ code y rest, h.chttpSendAndRead x rounds = .failure code y rest := by
  cases hres : h.chttpSendAndRead x rounds with
  | failure code y rest => exact ⟨code, y, rest, rfl⟩
  | running y => simp [chttpDoHop, hres] at hr
  | success y rest => simp [chttpDoHop, hres] at hr

theorem chttpDoHop_retry (hfirst : h.chttpSendAndRead x rounds = .failure code y rest) :
    (h.chttpDoHop x reused reconnect rounds).retry =
      if retries reused (.failure code y rest) then some (h.retryHop y rest reconnect) else none := by
  simp only [chttpDoHop, hfirst]
  split <;> rfl

end Hop

/-! ## Tiers 2 and 3 -/

theorem take_append_taken {wire bytes : List UInt8} {n : Nat} (hb : bytes <+: wire.drop n) :
    wire.take n ++ bytes = wire.take (n + bytes.length) := by
  obtain ⟨rest, hrest⟩ := hb
  rw [take_add, ← hrest, take_left]

structure RetryCtx.Faithful (h : Hop) (ctx : RetryCtx) : Prop where
  replayable : ctx.replayable = h.replayable
  known : ctx.anyBytesRead = readAny ctx.trace
  safe : ctx.retryUnsafe = true → readAny ctx.trace = true
  written : (seen ctx.trace).written <+: h.wire
  wire : (ctx.wire = h.wire ∧ ctx.wireLen = h.wire.length ∧ (seen ctx.trace).written = h.wire.take ctx.wireSent ∧
      ctx.wireSent ≤ h.wire.length) ∨ (ctx.reused = false ∧ ctx.wire = [])

namespace RetryCtx

variable {ctx : RetryCtx}

theorem taken_prefix (ctx : RetryCtx) (n : Nat) : ctx.taken n <+: ctx.wire.drop ctx.wireSent := by
  rw [taken, drop_take, take_take]
  exact take_prefix _ _

theorem Faithful.freeSent (hf : ctx.Faithful h) : ctx.freeSent.Faithful h := by
  rw [RetryCtx.freeSent]
  split
  · rename_i hall
    simp only [Bool.and_eq_true, Bool.not_eq_true'] at hall
    exact ⟨hf.replayable, hf.known, hf.safe, hf.written, .inr ⟨hall.2, rfl⟩⟩
  · exact hf

theorem Faithful.asyncTryWrite (hf : ctx.Faithful h) (n : Nat) : (ctx.asyncTryWrite n).Faithful h := by
  apply Faithful.freeSent
  have hread : readAny (ctx.trace ++ [.wrote (ctx.taken n)]) = readAny ctx.trace := by simp [readAny]
  have hseen : (seen (ctx.trace ++ [.wrote (ctx.taken n)])).written = (seen ctx.trace).written ++ ctx.taken n := by
    rw [seen_append]
    rfl
  have htaken := ctx.taken_prefix n
  refine ⟨hf.replayable, hf.known.trans hread.symm, fun hs => hread.trans (hf.safe hs), ?_, ?_⟩
  · rcases hf.wire with ⟨hwire, -, hw, -⟩ | ⟨-, hnil⟩
    · rw [hseen, hw, take_append_taken (hwire ▸ htaken)]
      exact take_prefix _ _
    · have hnone : ctx.taken n = [] := by simp [RetryCtx.taken, hnil]
      rw [hseen, hnone, append_nil]
      exact hf.written
  · rcases hf.wire with ⟨hwire, hlen, hw, hbound⟩ | hfreed
    · refine .inl ⟨hwire, hlen, ?_, ?_⟩
      · simp only [hseen, hw]
        exact take_append_taken (hwire ▸ htaken)
      · have hle := (hwire ▸ htaken).length_le
        rw [length_drop] at hle
        simp only
        omega
    · exact .inr hfreed

theorem Faithful.asyncRead (hf : ctx.Faithful h) {data : List UInt8} (hd : data ≠ []) (ended : Option Ended) :
    (ctx.asyncRead data ended).Faithful h := by
  have hread := readAny_parsed hd ctx.trace ended
  have hseen : (seen (ctx.trace ++ [.parsed data ended])).written = (seen ctx.trace).written := by
    rw [seen_append]
    cases ended with
    | none => rfl
    | some e =>
      simp only [Seen.see]
      split <;> rfl
  refine ⟨hf.replayable, hread.symm, fun _ => hread, ?_, ?_⟩
  · simp only [RetryCtx.asyncRead, hseen]
    exact hf.written
  · simp only [RetryCtx.asyncRead, hseen]
    exact hf.wire

theorem Faithful.retries_eq (hf : ctx.Faithful h) (hopen : ctx.hopCompleted = false) :
    ctx.asyncCtxFinishRetries = (attemptFacts h ctx.reused ctx.timedOut ctx.trace).mayResend := by
  rw [mayResend_attemptFacts, asyncCtxFinishRetries, hopen, hf.known, hf.replayable]
  cases hread : readAny ctx.trace with
  | true => simp
  | false =>
    have hsafe : ctx.retryUnsafe = false := by
      cases hu : ctx.retryUnsafe with
      | false => rfl
      | true => cases hread.symm.trans (hf.safe hu)
    rcases hf.wire with ⟨-, hlen, hw, hbound⟩ | ⟨hfresh, -⟩
    · have hsent : (seen ctx.trace).written.length = ctx.wireSent := by
        rw [hw, length_take, Nat.min_eq_left hbound]
      rw [hsafe, hsent, hlen]
      cases ctx.reused <;> cases ctx.timedOut <;> simp [Bool.or_comm]
    · simp [hfresh]

theorem Faithful.asyncRetryHop (hf : ctx.Faithful h) (hretry : ctx.asyncCtxFinishRetries = true) :
    ctx.asyncRetryHop.Faithful h := by
  simp only [asyncCtxFinishRetries, Bool.and_eq_true] at hretry
  rcases hf.wire with ⟨hwire, hlen, -, -⟩ | ⟨hfresh, -⟩
  · refine ⟨hf.replayable, rfl, fun hs => ?_, nil_prefix, .inl ⟨hwire, hlen, rfl, Nat.zero_le _⟩⟩
    cases hs
  · cases hfresh.symm.trans hretry.2.1.1.1

end RetryCtx

/-- There is one attempt, or a second one on a fresh connection that the rule allows. -/
structure AsyncHop.Sound (h : Hop) (s : AsyncHop) : Prop where
  faithful : ∀ ctx ∈ s.attempts, ctx.Faithful h
  once : (∃ ctx, s.attempts = [ctx]) ∨ ∃ first second, s.attempts = [second, first] ∧ second.reused = false ∧
    first.hopCompleted = false ∧ (attemptFacts h first.reused first.timedOut first.trace).mayResend = true

namespace AsyncHop

variable {s : AsyncHop} {ctx ctx' : RetryCtx}

theorem Sound.replace (hs : s.Sound h) (hc : s.current = some ctx) (hf : ctx'.Faithful h) (hreused : ctx'.reused = ctx.reused) :
    { s with current := some ctx' }.Sound h where
  faithful := by
    intro c hmem
    simp only [attempts, toList_some, singleton_append, mem_cons] at hmem
    rcases hmem with rfl | hmem
    · exact hf
    · exact hs.faithful c (by simp [attempts, hmem])
  once := by
    rcases hs.once with ⟨c, ha⟩ | ⟨first, second, ha, hfresh, hrest⟩
    · simp only [attempts, hc, toList_some, singleton_append, List.cons.injEq] at ha
      exact .inl ⟨ctx', by simp [attempts, ha.2]⟩
    · simp only [attempts, hc, toList_some, singleton_append, List.cons.injEq] at ha
      exact .inr ⟨first, ctx', by simp [attempts, ha.2], hreused.trans (ha.1 ▸ hfresh), hrest⟩

theorem Sound.asyncCtxFinish (hs : s.Sound h) (hc : s.current = some ctx) (alloc : Bool) : (s.asyncCtxFinish ctx alloc).Sound h := by
  have hf : ctx.Faithful h := hs.faithful ctx (by simp [attempts, hc])
  have hsame : s.attempts = ctx :: s.ended := by simp [attempts, hc]
  by_cases hretry : (ctx.asyncCtxFinishRetries && alloc) = true
  · have ha : (s.asyncCtxFinish ctx alloc).attempts = ctx.asyncRetryHop :: ctx :: s.ended := by
      simp [attempts, AsyncHop.asyncCtxFinish, hretry]
    simp only [Bool.and_eq_true] at hretry
    have hopen : ctx.hopCompleted = false := by
      have hr := hretry.1
      simp only [RetryCtx.asyncCtxFinishRetries, Bool.and_eq_true, Bool.not_eq_true'] at hr
      exact hr.1.1
    have hrule := hf.retries_eq hopen
    constructor
    · intro c hmem
      rw [ha] at hmem
      rcases mem_cons.mp hmem with rfl | hmem
      · exact hf.asyncRetryHop hretry.1
      · exact hs.faithful c (hsame ▸ hmem)
    · rcases hs.once with ⟨c, hone⟩ | ⟨first, second, htwo, hfresh, -⟩
      · simp only [hsame, List.cons.injEq] at hone
        exact .inr ⟨ctx, ctx.asyncRetryHop, by rw [ha, hone.2], rfl, hopen, hrule ▸ hretry.1⟩
      · -- The second attempt is not on a pooled connection, so there is no third.
        simp only [hsame, List.cons.injEq] at htwo
        have hr := hretry.1
        simp only [RetryCtx.asyncCtxFinishRetries, htwo.1, hfresh, Bool.false_and, Bool.and_false, Bool.false_eq_true] at hr
  · have ha : (s.asyncCtxFinish ctx alloc).attempts = s.attempts := by
      simp [attempts, AsyncHop.asyncCtxFinish, hretry, hc]
    exact ⟨fun c hmem => hs.faithful c (ha ▸ hmem), ha ▸ hs.once⟩

theorem Sound.step (hs : s.Sound h) (d : Dispatch) : (s.step d).Sound h := by
  rw [AsyncHop.step]
  cases hc : s.current with
  | none => exact hs
  | some ctx =>
    have hf : ctx.Faithful h := hs.faithful ctx (by simp [attempts, hc])
    cases d with
    | write n =>
      apply hs.replace hc (hf.asyncTryWrite n)
      simp only [RetryCtx.asyncTryWrite, RetryCtx.freeSent]
      split <;> rfl
    | read c data ended => exact hs.replace hc (hf.asyncRead (by simp) ended) rfl
    | windowPassed => exact hs.replace hc ⟨hf.replayable, hf.known, hf.safe, hf.written, hf.wire⟩ rfl
    | timeOut => exact hs.replace hc ⟨hf.replayable, hf.known, hf.safe, hf.written, hf.wire⟩ rfl
    | fulfill => exact hs.replace hc ⟨hf.replayable, hf.known, hf.safe, hf.written, hf.wire⟩ rfl
    | finish alloc => exact hs.asyncCtxFinish hc alloc

theorem start_sound (h : Hop) (reused : Bool) : (start h reused).Sound h where
  faithful := by
    intro c hmem
    simp only [start, attempts, toList_some, append_nil, mem_singleton] at hmem
    subst hmem
    refine ⟨rfl, rfl, fun hs => ?_, nil_prefix, .inl ⟨rfl, rfl, rfl, Nat.zero_le _⟩⟩
    cases hs
  once := .inl ⟨_, rfl⟩

theorem run_sound (h : Hop) (reused : Bool) (ds : List Dispatch) : (run h reused ds).Sound h :=
  List.foldlRecOn ds step (start_sound h reused) fun _ hs d _ => hs.step d

end AsyncHop

end Ccollections.Chttpclient
