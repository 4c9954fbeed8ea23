import Ccollections.Chttpclient.Lemmas.Retry

/-!
# Reuse of a connection and repetition of a request
-/

namespace Ccollections.Chttpclient
open Chttp1

/-! ## Reuse -/

/-- The connection is offered only after a request without `close` that was answered when all of it had gone out. -/
def PooledAfterAnswer (h : Hop) (run : Hop.HopRun) : Prop :=
  run.offered = true → Answered h.wire run.last.exchange.trace ∧ h.requestClose = false ∧
    (h.use100Continue = true → (seen run.last.exchange.trace).started ≠ some h.headerPart)

theorem reusable_answered {h : Hop} {o : Returned} {R : Exchange → Prop} {F : HttpRetval → Exchange → Prop}
    (ho : o.Ends R (Hop.Kept h.wire) F) (hclear : ∀ left, .confirmed left ∈ o.exchange.trace → left = [])
    (hreuse : h.reusable o = true) :
    Answered h.wire o.exchange.trace ∧ h.requestClose = false ∧
      (h.use100Continue = true → (seen o.exchange.trace).started ≠ some h.headerPart) := by
  cases o with
  | running y => cases hreuse
  | failure code y rounds => cases hreuse
  | success y rounds =>
    simp only [Hop.reusable, Bool.and_eq_true, Bool.not_eq_true'] at hreuse
    have hanswered : Answered h.wire y.trace := ho.2 hclear hreuse.1.1
    refine ⟨hanswered, hreuse.2, ?_⟩
    intro huse hstarted
    have hsame : h.wire = h.headerPart := Option.some.inj (hanswered.2.1.symm.trans hstarted)
    have hlen := congrArg List.length (Hop.headerPart_bodyPart h)
    rw [← hsame, List.length_append] at hlen
    exact Hop.bodyPart_ne huse (List.length_eq_zero_iff.mp (by omega))

/-- A connection goes to the pool only when its request had gone out before the answer came, in every run where no byte
comes in one read with the `100 Continue` of the body. -/
theorem pooled_after_answer (h : Hop) (now : Nat) (allocs : List Bool) (reused : Bool) (reconnect : Except HttpRetval Nat)
    (rounds : List Round)
    (hclear : ∀ left, .confirmed left ∈
      (h.chttpDoHop (exchangeStart now allocs) reused reconnect rounds).last.exchange.trace → left = []) :
    PooledAfterAnswer h (h.chttpDoHop (exchangeStart now allocs) reused reconnect rounds) := by
  have hfirst : (h.chttpSendAndRead (exchangeStart now allocs) rounds).Ends (fun y => (seen y.trace).written <+: h.wire)
      (Hop.Kept h.wire) fun _ y => Resendable h h.wire y := Hop.chttpSendAndRead_ends rfl rfl
  intro hoffered
  cases hres : h.chttpSendAndRead (exchangeStart now allocs) rounds with
  | running y =>
    simp only [Hop.chttpDoHop, hres, Hop.reusable] at hoffered
    cases hoffered
  | success y rest =>
    simp only [Hop.chttpDoHop, hres, Hop.HopRun.last] at hclear hoffered ⊢
    exact reusable_answered (hres ▸ hfirst) hclear hoffered
  | failure code y rest =>
    cases hretry : Hop.retries reused (.failure code y rest) with
    | false =>
      simp only [Hop.chttpDoHop, hres, hretry, Bool.false_eq_true, if_false] at hoffered
    | true =>
      cases reconnect with
      | error code =>
        simp only [Hop.chttpDoHop, hres, hretry, if_true, Hop.retryHop, Bool.false_eq_true] at hoffered
      | ok time =>
        simp only [Hop.chttpDoHop, hres, hretry, if_true, Hop.retryHop, Hop.HopRun.last] at hclear hoffered ⊢
        simp only [Hop.retries, Bool.and_eq_true, Bool.not_eq_true'] at hretry
        exact reusable_answered (Hop.chttpSendAndRead_ends rfl hretry.1.2) hclear hoffered

/-! A `POST` of two bytes that waits for a `100 Continue`. The start of the final response comes in one read with it, the body
goes out next, and the rest of the response comes after that. -/

def uploadRequest : Request where
  method := .post
  url := ascii "http://a/"
  headers := []
  body := ⟨ascii "hi", none⟩
  expectContinue := true
  preventTlsDowngradeOnRedirect := false

def uploadUrl : ChttpUrl where
  isHttps := false
  isIpv6 := false
  isUnix := false
  unixSocketPath := []
  host := ascii "a"
  port := 80
  pathAndQuery := ascii "/"
  originKey := ascii "http://a:80"
  userinfoAuthorization := none

def uploadWire : List UInt8 :=
  ascii "POST / HTTP/1.1\r\nhost: a\r\naccept: */*\r\nuser-agent: c_collections-chttpclient/1.0\r\n" ++
    ascii "content-length: 2\r\nexpect: 100-continue\r\n\r\nhi"

theorem uploadWire_serialized : serializeRequest uploadRequest uploadUrl none .none = .ok uploadWire := by decide +kernel

def plainEnv (inactivityUs : Nat) : HopEnv where
  tls := false
  overall := none
  inactivityUs := inactivityUs
  spillAlloc := true
  settings := fun _ => ⟨fun _ _ => 0⟩
  tooLarge := fun _ => false
  outOfMemory := fun _ => false

def uploadHop : Hop := .ofRequest (plainEnv 0) uploadWire_serialized

def writeRound : Round := ⟨0, false, 0, .ready ⟨false, true, false, false, false⟩, .wouldBlock, .wrote 1000, false⟩

def readRoundOf (text : String) : Round where
  elapsed := 0
  pending := false
  waited := 0
  poll := .ready ⟨true, false, false, false, false⟩
  read := match ascii text with
    | c :: data => .bytes c data
    | [] => .wouldBlock
  write := .wouldBlock
  tlsWantsWrite := false

example : uploadHop.use100Continue = true := by decide +kernel

def uploadRounds : List Round :=
  [writeRound, readRoundOf "HTTP/1.1 100 Continue\r\n\r\nHTTP/1.1 200 OK\r\n", writeRound, readRoundOf "Content-Length: 0\r\n\r\n"]

theorem pooled_though_answered_early :
    ¬PooledAfterAnswer uploadHop (uploadHop.chttpDoHop (exchangeStart 0 []) false (.error .timedOut) uploadRounds) := by
  have hrun : (uploadHop.chttpDoHop (exchangeStart 0 []) false (.error .timedOut) uploadRounds).offered = true ∧
      (seen (uploadHop.chttpDoHop (exchangeStart 0 []) false (.error .timedOut) uploadRounds).last.exchange.trace).started ≠
        some uploadHop.wire := by decide +kernel
  intro h
  exact hrun.2 (h hrun.1).1.2.1

def answeredRounds : List Round :=
  [writeRound, readRoundOf "HTTP/1.1 100 Continue\r\n\r\n", writeRound, readRoundOf "HTTP/1.1 200 OK\r\nContent-Length: 0\r\n\r\n"]

theorem pooled_after_answer_upload :
    (uploadHop.chttpDoHop (exchangeStart 0 []) false (.error .timedOut) answeredRounds).offered = true ∧
      PooledAfterAnswer uploadHop (uploadHop.chttpDoHop (exchangeStart 0 []) false (.error .timedOut) answeredRounds) := by
  have hrun : (uploadHop.chttpDoHop (exchangeStart 0 []) false (.error .timedOut) answeredRounds).offered = true ∧
      (uploadHop.chttpDoHop (exchangeStart 0 []) false (.error .timedOut) answeredRounds).last.exchange.trace =
        [.wrote uploadHop.headerPart, .parsed (ascii "HTTP/1.1 100 Continue\r\n\r\n") (some ⟨100, true, []⟩), .confirmed [],
          .wrote (ascii "hi"), .parsed (ascii "HTTP/1.1 200 OK\r\nContent-Length: 0\r\n\r\n") (some ⟨200, true, []⟩)] := by
    decide +kernel
  obtain ⟨hoffered, htrace⟩ := hrun
  refine ⟨hoffered, pooled_after_answer uploadHop 0 [] false (.error .timedOut) answeredRounds ?_⟩
  intro left hmem
  rw [htrace] at hmem
  simpa using hmem

/-! ## Repetition -/

/-- The retry of Tier 1 follows the rule, and sends the request from its first byte on. -/
def RetriedByRule (h : Hop) (reused : Bool) (run : Hop.HopRun) : Prop :=
  ∀ retry, run.retry = some retry → ∃ code y rest, run.first = .failure code y rest ∧
    (attemptFacts h reused (code = .timedOut) y.trace).mayResend = true ∧
    ∀ r, retry = .ok r → (seen r.exchange.trace).written <+: h.wire

/-- Tiers 2 and 3 make one attempt, or a second one by the rule, on a fresh connection and from the first byte on. -/
def AsyncByRule (h : Hop) (s : AsyncHop) : Prop :=
  (∃ ctx, s.attempts = [ctx]) ∨ ∃ first second, s.attempts = [second, first] ∧ second.reused = false ∧
    (seen second.trace).written <+: h.wire ∧ (attemptFacts h first.reused first.timedOut first.trace).mayResend = true

/-- A failed attempt of Tier 1 and one of Tiers 2 and 3 that have come to the same are both repeated or both not. -/
def TiersAgree (h : Hop) (reused : Bool) (run : Hop.HopRun) : Prop :=
  ∀ code y rest, run.first = .failure code y rest → ∀ pooled ds ctx, (AsyncHop.run h pooled ds).current = some ctx →
    ctx.hopCompleted = false →
    attemptFacts h ctx.reused ctx.timedOut ctx.trace = attemptFacts h reused (code = .timedOut) y.trace →
    ctx.asyncCtxFinishRetries = run.retry.isSome

theorem async_by_rule (h : Hop) (pooled : Bool) (ds : List Dispatch) : AsyncByRule h (AsyncHop.run h pooled ds) := by
  have hs := AsyncHop.run_sound h pooled ds
  rcases hs.once with hone | ⟨first, second, ha, hfresh, -, hrule⟩
  · exact .inl hone
  · exact .inr ⟨first, second, ha, hfresh, (hs.faithful second (by simp [ha])).written, hrule⟩

theorem attemptFacts_untimed {h : Hop} {reused : Bool} {code : HttpRetval} {trace : List WireEvent}
    (hgood : ¬(code = .timedOut ∧ (attemptFacts h reused false trace).mayResend = true)) :
    (attemptFacts h reused (code = .timedOut) trace).mayResend = (attemptFacts h reused false trace).mayResend := by
  by_cases hcode : code = .timedOut
  · have hno : (attemptFacts h reused false trace).mayResend = false := by simpa [hcode] using hgood
    rw [hno, mayResend_attemptFacts]
    simp [hcode]
  · simp [hcode]

/-- Both tiers send a request again by one rule, unless Tier 1 has an attempt on a pooled connection that ends by a
timeout. -/
theorem resend_rule (h : Hop) (now : Nat) (allocs : List Bool) (reused : Bool) (reconnect : Except HttpRetval Nat)
    (rounds : List Round) :
    (RetriedByRule h reused (h.chttpDoHop (exchangeStart now allocs) reused reconnect rounds) ∧
        (∀ pooled ds, AsyncByRule h (AsyncHop.run h pooled ds)) ∧
        TiersAgree h reused (h.chttpDoHop (exchangeStart now allocs) reused reconnect rounds)) ↔
      ¬∃ y rest, h.chttpSendAndRead (exchangeStart now allocs) rounds = .failure .timedOut y rest ∧
        (attemptFacts h reused false y.trace).mayResend = true := by
  have hends : (h.chttpSendAndRead (exchangeStart now allocs) rounds).Ends (fun y => (seen y.trace).written <+: h.wire)
      (Hop.Kept h.wire) fun _ y => Resendable h h.wire y := Hop.chttpSendAndRead_ends rfl rfl
  have hdecision {code : HttpRetval} {y : Exchange} {rest : List Round}
      (hres : h.chttpSendAndRead (exchangeStart now allocs) rounds = .failure code y rest) :
      Hop.retries reused (.failure code y rest) = (attemptFacts h reused false y.trace).mayResend := by
    rw [hres] at hends
    exact Hop.retries_eq hends.2
  constructor
  · rintro ⟨hrule, -, -⟩ ⟨y, rest, hres, hmay⟩
    have hretry : (h.chttpDoHop (exchangeStart now allocs) reused reconnect rounds).retry = some (h.retryHop y rest reconnect) := by
      rw [Hop.chttpDoHop_retry hres, hdecision hres, if_pos hmay]
    obtain ⟨code, y', rest', hfirst, hallowed, -⟩ := hrule _ hretry
    rw [Hop.chttpDoHop_first, hres] at hfirst
    cases hfirst
    simp [AttemptFacts.mayResend, attemptFacts] at hallowed
  · intro hgood
    have huntimed {code : HttpRetval} {y : Exchange} {rest : List Round}
        (hres : h.chttpSendAndRead (exchangeStart now allocs) rounds = .failure code y rest) :
        (attemptFacts h reused (code = .timedOut) y.trace).mayResend = Hop.retries reused (.failure code y rest) := by
      rw [hdecision hres]
      apply attemptFacts_untimed
      rintro ⟨rfl, hmay⟩
      exact hgood ⟨y, rest, hres, hmay⟩
    refine ⟨?_, fun pooled ds => async_by_rule h pooled ds, ?_⟩
    · intro retry hretry
      obtain ⟨code, y, rest, hres⟩ := Hop.chttpDoHop_retry_some hretry
      rw [Hop.chttpDoHop_retry hres] at hretry
      cases hagain : Hop.retries reused (.failure code y rest) with
      | false => simp [hagain] at hretry
      | true =>
        refine ⟨code, y, rest, (Hop.chttpDoHop_first ..).trans hres, (huntimed hres).trans hagain, ?_⟩
        rintro r rfl
        simp only [hagain, if_true, Option.some.injEq] at hretry
        simp only [Hop.retries, Bool.and_eq_true, Bool.not_eq_true'] at hagain
        cases reconnect with
        | error code => cases hretry
        | ok time =>
          cases hretry
          have hagain : (h.chttpSendAndRead { y with now := y.now + time, inactivityWaited := 0, trace := [] } rest).Ends
              (fun z => (seen z.trace).written <+: h.wire) (Hop.Kept h.wire) fun _ z => Resendable h h.wire z :=
            Hop.chttpSendAndRead_ends rfl hagain.1.2
          exact hagain.exchange
    · intro code y rest hfirst pooled ds ctx hcurrent hopen hsame
      rw [Hop.chttpDoHop_first] at hfirst
      have hfaithful : ctx.Faithful h := (AsyncHop.run_sound h pooled ds).faithful ctx (by simp [AsyncHop.attempts, hcurrent])
      rw [hfaithful.retries_eq hopen, hsame, huntimed hfirst, Hop.chttpDoHop_retry hfirst]
      cases Hop.retries reused (.failure code y rest) <;> rfl

/-! A `GET` on a pooled connection that stays silent for as long as the inactivity budget of 5 microseconds. It is sent again. -/

def getWire : List UInt8 :=
  ascii "GET / HTTP/1.1\r\nhost: a\r\naccept: */*\r\nuser-agent: c_collections-chttpclient/1.0\r\n\r\n"

theorem getWire_serialized :
    serializeRequest { uploadRequest with method := .get, expectContinue := false } uploadUrl none .none = .ok getWire := by
  decide +kernel

def getHop : Hop := .ofRequest (plainEnv 5) getWire_serialized

example : getHop.use100Continue = false := by decide +kernel

/-- A round that waits for 5 microseconds, and in which nothing happens. -/
def silentRound : Round := ⟨0, false, 5000, .timedOut, .wouldBlock, .wouldBlock, false⟩

def silentRounds : List Round :=
  [writeRound, silentRound, silentRound, writeRound, readRoundOf "HTTP/1.1 200 OK\r\nContent-Length: 0\r\n\r\n"]

def Returned.code : Returned → Option HttpRetval
  | .failure code _ _ => some code
  | _ => none

theorem retried_after_timeout :
    ¬RetriedByRule getHop true (getHop.chttpDoHop (exchangeStart 0 []) true (.ok 0) silentRounds) := by
  intro h
  have hrun : (getHop.chttpDoHop (exchangeStart 0 []) true (.ok 0) silentRounds).first.code = some .timedOut ∧
      (getHop.chttpDoHop (exchangeStart 0 []) true (.ok 0) silentRounds).retry.isSome = true := by decide +kernel
  obtain ⟨hcode, hretry⟩ := hrun
  obtain ⟨retry, hretry⟩ := Option.isSome_iff_exists.mp hretry
  obtain ⟨code, y, rest, hfirst, hallowed, -⟩ := h retry hretry
  rw [hfirst] at hcode
  cases hcode
  simp [AttemptFacts.mayResend, attemptFacts] at hallowed

end Ccollections.Chttpclient
