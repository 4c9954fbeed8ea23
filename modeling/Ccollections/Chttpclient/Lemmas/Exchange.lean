import Ccollections.Chttpclient.Exchange

/-!
# What one exchange reads and writes

Every function only extends the trace. `Reads` is what a function keeps that writes nothing, and `Watching` what the send
keeps that reads an early answer.
-/

namespace Ccollections.Chttpclient
open Chttp1 List Option

/-! ## Traces -/

theorem seen_append (tr : List WireEvent) (e : WireEvent) : seen (tr ++ [e]) = (seen tr).see e := by
  simp [seen]

theorem readAny_mono {tr tr' : List WireEvent} (h : tr <+: tr') (hread : readAny tr = true) : readAny tr' = true := by
  obtain ⟨rest, rfl⟩ := h
  rw [readAny] at hread
  rw [readAny, any_append, hread, Bool.true_or]

theorem readAny_parsed {data : List UInt8} (hd : data ≠ []) (tr : List WireEvent) (ended : Option Ended) :
    readAny (tr ++ [.parsed data ended]) = true := by
  simp [readAny, hd]

/-! ## Outcomes -/

def Returned.Ends (R S : Exchange → Prop) (F : HttpRetval → Exchange → Prop) : Returned → Prop
  | .running y => R y
  | .success y _ => R y ∧ S y
  | .failure code y _ => R y ∧ F code y

section Outcomes

variable {R R' S S' : Exchange → Prop} {F F' : HttpRetval → Exchange → Prop} {r : Returned}
  {f : Exchange → List Round → Returned}

theorem Returned.Ends.andThen (hr : r.Ends R S F) (hrun : ∀ y, R y → R' y)
    (hfail : ∀ code y, R y → F code y → F' code y)
    (hf : ∀ y rounds, R y → S y → (f y rounds).Ends R' S' F') : (r.andThen f).Ends R' S' F' := by
  cases r with
  | running y => exact hrun y hr
  | success y rounds => exact hf y rounds hr.1 hr.2
  | failure code y rounds => exact ⟨hrun y hr.1, hfail code y hr.1 hr.2⟩

theorem Returned.Ends.mono (hr : r.Ends R S F) (hrun : ∀ y, R y → R' y) (hsucc : ∀ y, R y → S y → S' y)
    (hfail : ∀ code y, R y → F code y → F' code y) : r.Ends R' S' F' := by
  cases r with
  | running y => exact hrun y hr
  | success y rounds => exact ⟨hrun y hr.1, hsucc y hr.1 hr.2⟩
  | failure code y rounds => exact ⟨hrun y hr.1, hfail code y hr.1 hr.2⟩

theorem Returned.Ends.exchange (hr : r.Ends R S F) : R r.exchange := by
  cases r with
  | running y => exact hr
  | success y rounds => exact hr.1
  | failure code y rounds => exact hr.1

end Outcomes

/-! ## What a read keeps -/

def ReadKnown (x : Exchange) : Prop := x.anyBytesRead = readAny x.trace

def Asked (x : Exchange) : Prop := ∀ s, (seen x.trace).started = some s → s = (seen x.trace).written

def Unanswered (x : Exchange) : Prop := (seen x.trace).started = none

theorem Unanswered.asked {x : Exchange} (h : Unanswered x) : Asked x := by
  intro s hs
  rw [h] at hs
  cases hs

structure Goes (x y : Exchange) : Prop where
  trace : x.trace <+: y.trace
  known : ReadKnown x → ReadKnown y
  retryUnsafe : y.retryUnsafe = x.retryUnsafe

structure Reads (x y : Exchange) : Prop extends Goes x y where
  written : (seen y.trace).written = (seen x.trace).written
  asked : Asked x → Asked y

variable {x y z : Exchange}

theorem Goes.trans (h : Goes x y) (h' : Goes y z) : Goes x z where
  trace := h.trace.trans h'.trace
  known := fun hk => h'.known (h.known hk)
  retryUnsafe := h'.retryUnsafe.trans h.retryUnsafe

theorem Reads.trans (h : Reads x y) (h' : Reads y z) : Reads x z where
  toGoes := h.toGoes.trans h'.toGoes
  written := h'.written.trans h.written
  asked := fun ha => h'.asked (h.asked ha)

theorem Reads.same (ht : y.trace = x.trace) (hany : y.anyBytesRead = x.anyBytesRead)
    (hretry : y.retryUnsafe = x.retryUnsafe) : Reads x y where
  trace := ht ▸ prefix_rfl
  known := by simp [ReadKnown, ht, hany]
  retryUnsafe := hretry
  written := by rw [ht]
  asked := by simp [Asked, ht]

theorem Reads.refl (x : Exchange) : Reads x x := .same rfl rfl rfl

theorem Goes.refl (x : Exchange) : Goes x x := (Reads.refl x).toGoes

theorem Goes.same (hg : Goes x y) (ht : z.trace = y.trace) (hany : z.anyBytesRead = y.anyBytesRead)
    (hretry : z.retryUnsafe = y.retryUnsafe) : Goes x z := hg.trans (Reads.same ht hany hretry).toGoes

theorem Goes.reads (hg : Goes x y) (hr : Reads y z) : Goes x z := hg.trans hr.toGoes

theorem Reads.parsed {data : List UInt8} {ended : Option Ended} (ht : y.trace = x.trace ++ [.parsed data ended])
    (hd : data ≠ []) (hany : y.anyBytesRead = true) (hretry : y.retryUnsafe = x.retryUnsafe) : Reads x y where
  trace := by
    rw [ht]
    exact prefix_append _ _
  known := by
    intro _
    simp [ReadKnown, ht, hany, readAny, hd]
  retryUnsafe := hretry
  written := by
    rw [ht, seen_append]
    cases ended with
    | none => rfl
    | some e =>
      simp only [Seen.see]
      split <;> rfl
  asked := by
    intro ha s hs
    rw [ht, seen_append] at hs ⊢
    have hget : ∀ s, some ((seen x.trace).started.getD (seen x.trace).written) = some s → s = (seen x.trace).written := by
      intro s hs
      cases hst : (seen x.trace).started with
      | none =>
        rw [hst] at hs
        exact (some.inj hs).symm
      | some t =>
        rw [hst] at hs
        exact (some.inj hs).symm.trans (ha t hst)
    cases ended with
    | none => exact hget s hs
    | some e =>
      simp only [Seen.see] at hs ⊢
      split at hs
      · rename_i hi
        simp only [hi, if_true]
        split at hs
        · cases hs
        · exact (some.inj hs).symm
      · rename_i hi
        simp only [hi, Bool.false_eq_true, if_false]
        exact hget s hs

theorem Reads.closed {status : Nat} (ht : y.trace = x.trace ++ [.closed status]) (hany : y.anyBytesRead = x.anyBytesRead)
    (hretry : y.retryUnsafe = x.retryUnsafe) : Reads x y where
  trace := by
    rw [ht]
    exact prefix_append _ _
  known := by
    intro hk
    simp only [ReadKnown] at hk
    simp [ReadKnown, ht, hany, hk, readAny]
  retryUnsafe := hretry
  written := by
    rw [ht, seen_append]
    rfl
  asked := by
    intro ha s hs
    rw [ht, seen_append] at hs ⊢
    simp only [Seen.see] at hs ⊢
    split at hs
    · cases hs
    · exact ha s hs

/-! ## Reading a message -/

variable {h : Hop} {p p' : Parser} {data : List UInt8}

namespace Hop

theorem feedParser_cases {err : Errno} (hf : h.feedParser x p data = (err, p', y)) :
    ∃ status complete trace, y = { x with statusCode := status, messageComplete := complete, trace := trace } ∧
      trace = x.trace ++
        [.parsed data (if err = .paused then some ⟨status, p'.shouldKeepAlive, data.drop p'.consumed⟩ else none)] := by
  simp only [feedParser, Prod.mk.injEq] at hf
  obtain ⟨rfl, rfl, rfl⟩ := hf
  exact ⟨_, _, _, rfl, rfl⟩

theorem finishParser_cases (h : Hop) (x : Exchange) (p : Parser) :
    ∃ status complete, (h.finishParser x p).2 = { x with statusCode := status, messageComplete := complete } :=
  ⟨_, _, rfl⟩

end Hop

/-- What the end of a message leaves: nothing has begun when nothing is left over, and a final response that allows
reuse was read to its end. -/
structure MessageEnd (y : Exchange) : Prop where
  interim : isInterim y.statusCode = true → y.leftover = [] → Unanswered y
  final : isInterim y.statusCode = false → y.keepAlive = true →
    (seen y.trace).ended = some ⟨y.statusCode, true, y.leftover⟩ ∧ ¬Unanswered y

/-- What bytes or the end of the stream do to a message. `R` is what a byte needs to have reached the parser. -/
def Hop.Parsed.From (R : Prop) (x : Exchange) : Hop.Parsed → Prop
  | .more _ y => Reads x y ∧ (R → readAny y.trace = true) ∧ y.leftover = []
  | .done y => Reads x y ∧ (R → readAny y.trace = true) ∧ MessageEnd y
  | .failed code y => Reads x y ∧ code ≠ .timedOut

namespace Hop

theorem parseBytes_from (hd : data ≠ []) (ht : z.trace = x.trace) (hany : z.anyBytesRead = true)
    (hretry : z.retryUnsafe = x.retryUnsafe) (hleft : z.leftover = []) : (h.parseBytes z p data).From True x := by
  rw [parseBytes]
  split <;> rename_i heq <;> obtain ⟨status, complete, trace, rfl, htr⟩ := feedParser_cases heq <;> rw [ht] at htr
  all_goals have hread : readAny trace = true := htr ▸ readAny_parsed hd _ _
  · simp only [if_true] at htr
    dsimp only
    split
    · rename_i p₁ _ hrest
      refine ⟨.parsed htr hd hany hretry, fun _ => hread, ?_, ?_⟩
      · intro hi hl
        simp only at hi
        simp [Unanswered, htr, seen_append, Seen.see, hi, hrest]
      · intro hi hk
        simp only at hi hk ⊢
        simp [Unanswered, htr, seen_append, Seen.see, hi, hrest, hk, hleft]
    · rename_i hrest
      cases hm : z.allocs.headD true
      · simp only [Exchange.alloc, hm, Bool.false_eq_true, if_false]
        exact ⟨.parsed htr hd hany hretry, by simp⟩
      · simp only [Exchange.alloc, hm, if_true]
        refine ⟨.parsed htr hd hany hretry, fun _ => hread, ?_, ?_⟩
        · intro hi hl
          exact absurd hl hrest
        · intro hi hk
          simp only at hi hk ⊢
          simp [Unanswered, htr, seen_append, Seen.see, hi, hk]
  · exact ⟨.parsed htr hd hany hretry, fun _ => hread, hleft⟩
  · refine ⟨.parsed htr hd hany hretry, ?_⟩
    simp only [callbackCode]
    split
    · simp
    · split <;> simp
  · exact ⟨.parsed htr hd hany hretry, by simp⟩

theorem readEof_from : (h.readEof x p).From (readAny x.trace = true) x := by
  obtain ⟨status, complete, hy⟩ := finishParser_cases h x p
  rw [readEof]
  dsimp only
  rw [hy]
  split
  · exact ⟨.same rfl rfl rfl, by simp⟩
  · refine ⟨.closed rfl rfl rfl, fun hread => readAny_mono (prefix_append _ _) hread, ?_, ?_⟩
    · intro hi _
      simp only at hi
      simp [Unanswered, seen_append, Seen.see, hi]
    · intro _ hk
      cases hk

end Hop

/-- A read that ran out of time in the middle of a message has used up a budget that stays used up. -/
def Stalled (h : Hop) (code : HttpRetval) (y : Exchange) : Prop :=
  code = .timedOut → Unanswered y ∨ Hop.deadlineRemaining y h.overall = false ∨ h.inactivityLeft y = false

namespace Hop

theorem waitIo_code {poll : Poll} {code : HttpRetval} (hw : waitIo poll = some (some code)) : code = .transferAborted := by
  cases poll with
  | failed => exact (some.inj (some.inj hw)).symm
  | timedOut => cases hw
  | ready e =>
    simp only [waitIo] at hw
    split at hw <;> cases hw
    rfl

variable {Q : Prop} {x₀ : Exchange} {firstByte : Option Nat} {started : Bool} {w : Waits} {rounds : List Round} {r : Round}

end Hop

def Begun (h : Hop) (started : Bool) (p : Parser) (x : Exchange) : Prop :=
  if started then readAny x.trace = true else Unanswered x ∧ p = h.startParser

/-- What a round of a read comes to. `x₀` is where the message began. -/
def Hop.Reading.From (h : Hop) (Q : Prop) (x₀ : Exchange) : Hop.Reading → Prop
  | .again started _ p y => Reads x₀ y ∧ y.leftover = [] ∧ (Q → Begun h started p y)
  | .done y => Reads x₀ y ∧ (Q → readAny y.trace = true) ∧ MessageEnd y
  | .failed code y => Reads x₀ y ∧ (Q → Stalled h code y)

theorem Stalled.other {code : HttpRetval} (hc : code ≠ .timedOut) : Stalled h code y := fun ht => absurd ht hc

namespace Hop

variable {Q : Prop} {x₀ : Exchange} {firstByte : Option Nat} {started : Bool} {w : Waits} {rounds : List Round} {r : Round}

theorem readEof_start : h.readEof x h.startParser = .failed .transferAborted (h.finishParser x h.startParser).2 := by
  rw [readEof]
  exact if_pos (.inl ⟨by simp [Parser.finish, startParser, parserInit, Parser.fail],
    by simp [Parser.finish, startParser, parserInit, Parser.fail]⟩)

theorem readReady_from (hreads : Reads x₀ x) (hleft : x.leftover = []) (hq : Q → Begun h started p x) :
    (h.readReady x started w p r).From h Q x₀ := by
  rw [readReady]
  split
  · exact ⟨hreads, hleft, hq⟩
  · exact ⟨hreads, fun _ => .other (by simp)⟩
  · have heof : (h.readEof x p).From (readAny x.trace = true) x := readEof_from
    cases hr : h.readEof x p <;> rw [hr] at heof
    · rw [readEof] at hr
      split at hr
      split at hr <;> cases hr
    · refine ⟨hreads.trans heof.1, ?_, heof.2.2⟩
      intro hQ
      have hbegun := hq hQ
      cases started with
      | true => exact heof.2.1 hbegun
      | false =>
        rw [hbegun.2, readEof_start] at hr
        cases hr
    · exact ⟨hreads.trans heof.1, fun _ => .other heof.2⟩
  · rename_i c bytes _
    have hparse : (h.parseBytes { x with inactivityWaited := 0, anyBytesRead := true } p (c :: bytes)).From True x :=
      parseBytes_from (by simp) rfl rfl rfl hleft
    cases hr : h.parseBytes { x with inactivityWaited := 0, anyBytesRead := true } p (c :: bytes) <;> rw [hr] at hparse
    · exact ⟨hreads.trans hparse.1, hparse.2.2, fun _ => hparse.2.1 trivial⟩
    · exact ⟨hreads.trans hparse.1, fun _ => hparse.2.1 trivial, hparse.2.2⟩
    · exact ⟨hreads.trans hparse.1, fun _ => .other hparse.2⟩

theorem readRound_from {o : Reading} (ho : h.readRound x firstByte started w p r = o) (hreads : Reads x₀ x)
    (hleft : x.leftover = []) (hq : Q → Begun h started p x) : o.From h Q x₀ := by
  have htick : Reads x₀ (x.tick r) := hreads.trans (.same rfl rfl rfl)
  have hcharge : Reads x₀ (h.charge (x.tick r) r) := htick.trans (.same rfl rfl rfl)
  rw [readRound] at ho
  split at ho
  · rename_i htime
    subst ho
    refine ⟨htick, ?_⟩
    intro hQ _
    simp only [Bool.or_eq_true, Bool.not_eq_true'] at htime
    cases started with
    | false => exact .inl (hq hQ).1
    | true => exact .inr htime
  · split at ho
    · split at ho
      · rename_i hw
        subst ho
        exact ⟨hcharge, fun _ => .other (by simp [waitIo_code hw])⟩
      · subst ho
        exact ⟨hcharge, hleft, hq⟩
      · exact ho ▸ readReady_from hcharge hleft hq
    · exact ho ▸ readReady_from htick hleft hq

def ReadEnd (Q : Prop) (y : Exchange) : Prop := (Q → readAny y.trace = true) ∧ MessageEnd y

theorem readLoop_ends (hreads : Reads x₀ x) (hleft : x.leftover = []) (hq : Q → Begun h started p x) :
    (h.readLoop firstByte started w p x rounds).Ends (Reads x₀) (ReadEnd Q) fun code y => Q → Stalled h code y := by
  induction rounds generalizing started w p x with
  | nil => exact hreads
  | cons r rounds ih =>
    rw [readLoop]
    split <;> rename_i heq
    · have hround := readRound_from heq hreads hleft hq
      exact ih hround.1 hround.2.1 hround.2.2
    · exact readRound_from heq hreads hleft hq
    · exact readRound_from heq hreads hleft hq

theorem chttpReadMessageWith_ends {carry : List UInt8} (hq : Q → carry = [] → Unanswered x ∧ p = h.startParser) :
    (h.chttpReadMessageWith x p firstByte carry rounds).Ends (Reads x) (ReadEnd Q) fun code y => Q → Stalled h code y := by
  rw [chttpReadMessageWith]
  split
  · rename_i hcarry
    exact readLoop_ends (.same rfl rfl rfl) rfl fun hQ => hq hQ hcarry
  · rename_i hcarry
    have hparse : (h.parseBytes { x with leftover := [], anyBytesRead := true } p carry).From True x :=
      parseBytes_from hcarry rfl rfl rfl rfl
    split <;> rename_i heq <;> rw [heq] at hparse
    · exact readLoop_ends hparse.1 hparse.2.2 fun _ => hparse.2.1 trivial
    · exact ⟨hparse.1, fun _ => hparse.2.1 trivial, hparse.2.2⟩
    · exact ⟨hparse.1, fun _ => .other hparse.2⟩

def Delivered (Q : Prop) (stopAtStatus : Nat) (y : Exchange) : Prop :=
  ReadEnd Q y ∧ (isInterim y.statusCode = true → y.statusCode = stopAtStatus)

theorem parseCtxReset_reads {code : Option HttpRetval} (hr : x.parseCtxResetForContinue = (code, y)) :
    Reads x y ∧ y.leftover = x.leftover ∧ y.trace = x.trace := by
  simp only [Exchange.parseCtxResetForContinue, Exchange.alloc, Prod.mk.injEq] at hr
  obtain ⟨-, rfl⟩ := hr
  exact ⟨.same rfl rfl rfl, rfl, rfl⟩

theorem parseCtxReset_code {code : HttpRetval} (hr : x.parseCtxResetForContinue = (some code, y)) : code ≠ .timedOut := by
  simp only [Exchange.parseCtxResetForContinue, Prod.mk.injEq] at hr
  obtain ⟨hc, -⟩ := hr
  split at hc <;> cases hc
  simp

theorem messageLoop_ends {stopAtStatus n : Nat} {carry : List UInt8} (hreads : Reads x₀ x)
    (hq : Q → carry = [] → Unanswered x) :
    (h.messageLoop firstByte stopAtStatus n carry x rounds).Ends (Reads x₀) (Delivered Q stopAtStatus)
      fun code y => Q → Stalled h code y := by
  induction hn : chttpMaxInterimResponses - n using Nat.strongRecOn generalizing n carry x rounds with
  | ind k ih =>
    rw [messageLoop]
    apply (chttpReadMessageWith_ends fun hQ hc => ⟨hq hQ hc, rfl⟩).andThen (fun _ hy => hreads.trans hy) (fun _ _ _ hf => hf)
    intro y rounds hy hend
    have hy' := hreads.trans hy
    split
    · split
      · exact ⟨hy', fun _ => .other (by simp)⟩
      · rename_i hskip hcap
        split <;> rename_i heq <;> obtain ⟨hz, hleft, htrace⟩ := parseCtxReset_reads heq
        · exact ⟨hy'.trans hz, fun _ => .other (parseCtxReset_code heq)⟩
        · apply ih _ (by omega) (hy'.trans hz) _ rfl
          intro _ hcarry
          simp only [Bool.and_eq_true] at hskip
          rw [Unanswered, htrace]
          exact hend.2.interim hskip.1 (hleft ▸ hcarry)
    · rename_i hskip
      refine ⟨hy', hend, ?_⟩
      intro hi
      simpa [hi] using hskip

theorem chttpReadMessageLoop_ends {stopAtStatus n : Nat} {carry : List UInt8} (hq : Q → carry = [] → Unanswered x) :
    (h.chttpReadMessageLoop x firstByte carry stopAtStatus n rounds).Ends (Reads x) (Delivered Q stopAtStatus)
      fun code y => Q → Stalled h code y := by
  rw [chttpReadMessageLoop]
  split
  · exact messageLoop_ends (.refl x) hq
  · rename_i hcarry
    have halloc : Reads x x.alloc.2 := .same rfl rfl rfl
    dsimp only
    split
    · exact messageLoop_ends halloc fun _ hc => absurd hc hcarry
    · exact ⟨halloc, fun _ => .other (by simp)⟩

/-! ## Sending the header part -/

structure Sends (goal : List UInt8) (x : Exchange) (rest : List UInt8) (y : Exchange) : Prop extends Goes x y where
  written : (seen y.trace).written ++ rest = goal
  started : (seen y.trace).started = (seen x.trace).started

theorem Sends.same {goal rest : List UInt8} (hs : Sends goal x₀ rest x) (ht : y.trace = x.trace)
    (hany : y.anyBytesRead = x.anyBytesRead) (hretry : y.retryUnsafe = x.retryUnsafe) : Sends goal x₀ rest y where
  toGoes := hs.toGoes.same ht hany hretry
  written := by rw [ht, hs.written]
  started := by rw [ht, hs.started]

theorem noteWritten_goes (x : Exchange) (data : List UInt8) (n : Nat) : Goes x (noteWritten x data n) where
  trace := prefix_append _ _
  known := by
    intro hk
    simp only [ReadKnown] at hk
    simp [ReadKnown, noteWritten, hk, readAny]
  retryUnsafe := rfl

theorem noteWritten_seen (x : Exchange) (data : List UInt8) (n : Nat) :
    seen (noteWritten x data n).trace =
      { seen x.trace with written := (seen x.trace).written ++ data.take (n + 1) } := by
  rw [noteWritten, seen_append]
  rfl

theorem Sends.wrote {goal rest : List UInt8} (hs : Sends goal x₀ rest x) (n : Nat) :
    Sends goal x₀ (rest.drop (n + 1)) (noteWritten x rest n) where
  toGoes := hs.toGoes.trans (noteWritten_goes x rest n)
  written := by rw [noteWritten_seen, append_assoc, take_append_drop, hs.written]
  started := by rw [noteWritten_seen, hs.started]

theorem sendRound_sends {goal data : List UInt8} (hs : Sends goal x₀ data x) :
    match h.sendRound x data r with
    | .ok (rest, y) => Sends goal x₀ rest y
    | .error (_, y) => Sends goal x₀ data y := by
  have htick : Sends goal x₀ data (x.tick r) := hs.same rfl rfl rfl
  have hcharge : Sends goal x₀ data (h.charge (x.tick r) r) := htick.same rfl rfl rfl
  generalize ho : h.sendRound x data r = o
  rw [sendRound] at ho
  split at ho
  · exact ho ▸ htick
  · split at ho
    · exact ho ▸ hcharge
    · exact ho ▸ hcharge
    · rw [sendWrite] at ho
      split at ho
      · exact ho ▸ hcharge
      · exact ho ▸ hcharge
      · exact ho ▸ hcharge
      · exact ho ▸ hcharge
      · exact ho ▸ hcharge.wrote _

theorem chttpSendAll_ends {goal data : List UInt8} (hs : Sends goal x₀ data x) :
    (h.chttpSendAll data x rounds).Ends (fun y => ∃ rest, Sends goal x₀ rest y) (Sends goal x₀ [])
      fun _ y => ∃ rest, rest ≠ [] ∧ Sends goal x₀ rest y := by
  induction rounds generalizing data x with
  | nil =>
    rw [chttpSendAll]
    split
    · rename_i hd
      exact ⟨⟨_, hs⟩, hd ▸ hs⟩
    · exact ⟨_, hs⟩
  | cons r rounds ih =>
    rw [chttpSendAll]
    split
    · rename_i hd
      exact ⟨⟨_, hs⟩, hd ▸ hs⟩
    · rename_i hd
      have hround := sendRound_sends (h := h) (r := r) hs
      split <;> rename_i heq <;> rw [heq] at hround
      · exact ⟨⟨_, hround⟩, _, hd, hround⟩
      · exact ih hround

end Hop

/-! ## An answer that comes early -/

def Quiet (x : Exchange) : Prop :=
  x.early.done = false → x.early.parser = none → x.early.error = none → Unanswered x

structure Fed (x y : Exchange) : Prop extends Reads x y where
  sent : y.sent = x.sent
  answeredEarly : y.early.answeredEarly = x.early.answeredEarly
  anyBytesRead : y.anyBytesRead = x.anyBytesRead

theorem Fed.refl (x : Exchange) : Fed x x := ⟨.refl x, rfl, rfl, rfl⟩

theorem Fed.trans (h : Fed x y) (h' : Fed y z) : Fed x z where
  toReads := h.toReads.trans h'.toReads
  sent := h'.sent.trans h.sent
  answeredEarly := h'.answeredEarly.trans h.answeredEarly
  anyBytesRead := h'.anyBytesRead.trans h.anyBytesRead

namespace Hop

theorem earlyDropped_lt (hcap : ¬x.early.nDiscarded ≥ chttpMaxInterimResponses) :
    chttpMaxInterimResponses - (earlyDropped x.early y).early.nDiscarded < chttpMaxInterimResponses - x.early.nDiscarded :=
  Nat.sub_lt_sub_left (Nat.lt_of_not_le hcap) (Nat.lt_succ_self _)

theorem earlyRespLoop_fed (hany : x.anyBytesRead = true) : Fed x (h.earlyRespLoop x data) := by
  induction hn : chttpMaxInterimResponses - x.early.nDiscarded using Nat.strongRecOn generalizing x data with
  | ind k ih =>
    rw [earlyRespLoop]
    split
    · exact .refl x
    · rename_i hgo
      have hd : data ≠ [] := fun hd => hgo (.inl hd)
      split <;> rename_i heq <;> obtain ⟨status, complete, trace, rfl, htr⟩ := feedParser_cases heq
      · split
        · split
          · exact ⟨.parsed htr hd hany rfl, rfl, rfl, rfl⟩
          · rename_i hcap
            have hdrop : Fed x (earlyDropped x.early
                { x with statusCode := status, messageComplete := complete, trace := trace }) :=
              ⟨.parsed htr hd hany rfl, rfl, rfl, rfl⟩
            exact hdrop.trans (ih _ (hn ▸ earlyDropped_lt hcap) hany rfl)
        · exact ⟨.parsed htr hd hany rfl, rfl, rfl, rfl⟩
      · exact ⟨.parsed htr hd hany rfl, rfl, rfl, rfl⟩
      · exact ⟨.parsed htr hd hany rfl, rfl, rfl, rfl⟩
      · exact ⟨.parsed htr hd hany rfl, rfl, rfl, rfl⟩

theorem earlyRespLoop_quiet (hq : data = [] → Quiet x) : Quiet (h.earlyRespLoop x data) := by
  induction hn : chttpMaxInterimResponses - x.early.nDiscarded using Nat.strongRecOn generalizing x data with
  | ind k ih =>
    rw [earlyRespLoop]
    split
    · rename_i hstop
      by_cases hd : data = []
      · exact hq hd
      · intro hdone _ herr
        simp [hd, hdone, herr] at hstop
    · split <;> rename_i heq <;> obtain ⟨status, complete, trace, rfl, htr⟩ := feedParser_cases heq
      · split
        · rename_i hinterim
          split
          · intro _ _ herr
            cases herr
          · rename_i hcap
            apply ih _ (hn ▸ earlyDropped_lt hcap) _ rfl
            intro hrest _ _ _
            simp only at hinterim
            simp [earlyDropped, Exchange.parseCtxResetForContinue, Exchange.alloc, Unanswered, htr, seen_append, Seen.see,
              hinterim, hrest]
        · intro hdone
          cases hdone
      · intro _ hlive
        cases hlive
      · intro _ hlive
        cases hlive
      · intro _ hlive
        cases hlive

theorem earlyRespLoop_read (hd : data ≠ []) (hdone : x.early.done = false) (herr : x.early.error = none)
    (hany : x.anyBytesRead = true) : readAny (h.earlyRespLoop x data).trace = true := by
  rw [earlyRespLoop]
  split
  · rename_i hstop
    simp [hd, hdone, herr] at hstop
  · split <;> rename_i heq <;> obtain ⟨status, complete, trace, rfl, htr⟩ := feedParser_cases heq
    all_goals have hread : readAny trace = true := htr ▸ readAny_parsed hd _ _
    · split
      · split
        · exact hread
        · refine readAny_mono (earlyRespLoop_fed ?_).trace hread
          exact hany
      · exact hread
    · exact hread
    · exact hread
    · exact hread

theorem earlyRespFeed_same (x : Exchange) (data : List UInt8) :
    ∃ stop, h.earlyRespFeed x data =
        { h.earlyRespLoop x data with early := { (h.earlyRespLoop x data).early with stopSend := stop } } ∧
      (stop = false → (h.earlyRespLoop x data).early.done = false ∧ (h.earlyRespLoop x data).early.error = none) := by
  simp only [earlyRespFeed]
  split
  · exact ⟨true, rfl, by simp⟩
  · rename_i hgo
    simp only [Bool.or_eq_true, decide_eq_true_eq, not_or, Bool.not_eq_true, not_not] at hgo
    exact ⟨(h.earlyRespLoop x data).early.stopSend, rfl, fun _ => hgo.1⟩

end Hop

/-! ## Sending and watching -/

def Tracked (x : Exchange) : Prop := x.early.answeredEarly = false → x.early.done = false ∧ x.early.parser = none

def Live (x : Exchange) : Prop := x.early.stopSend = false → x.early.done = false ∧ x.early.error = none

/-- What holds while `data` goes out, of which `goal` is all that will have been written then. -/
structure Watching (goal data : List UInt8) (x y : Exchange) : Prop extends Goes x y where
  written : (seen y.trace).written ++ data.drop y.sent = goal
  bound : y.sent ≤ data.length
  quiet : Quiet x → Quiet y
  tracked : Tracked x → Tracked y
  live : Live y

variable {goal : List UInt8} {x₀ : Exchange} {w : Waits} {rounds : List Round} {r : Round}

theorem Watching.same (hw : Watching goal data x₀ x) (ht : y.trace = x.trace) (hany : y.anyBytesRead = x.anyBytesRead)
    (hretry : y.retryUnsafe = x.retryUnsafe) (hsent : y.sent = x.sent) (he : y.early = x.early) :
    Watching goal data x₀ y where
  toGoes := hw.toGoes.same ht hany hretry
  written := by rw [ht, hsent, hw.written]
  bound := hsent ▸ hw.bound
  quiet := by
    intro hq
    rw [Quiet, Unanswered, he, ht]
    exact hw.quiet hq
  tracked := by
    rw [Tracked, Tracked, he]
    exact hw.tracked
  live := by
    rw [Live, he]
    exact hw.live

theorem Watching.stopSend (hw : Watching goal data x₀ x) : Watching goal data x₀ x.stopSend where
  toGoes := hw.toGoes.same rfl rfl rfl
  written := hw.written
  bound := hw.bound
  quiet := hw.quiet
  tracked := hw.tracked
  live := by
    intro hs
    cases hs

def Looped.exchange : Looped → Exchange
  | .again _ x => x
  | .stop _ x => x

namespace Hop

theorem watchWrite_watching (hw : Watching goal data x₀ x) : Watching goal data x₀ (h.watchWrite x data w r).exchange := by
  rw [watchWrite]
  split
  · exact hw
  · exact hw.stopSend
  · exact hw.stopSend
  · exact hw
  · rename_i n _
    refine ⟨(hw.toGoes.trans (noteWritten_goes x (data.drop x.sent) n)).same rfl rfl rfl, ?_, ?_, ?_, hw.tracked, hw.live⟩
    · have hdrop : data.drop (x.sent + ((data.drop x.sent).take (n + 1)).length) = (data.drop x.sent).drop (n + 1) := by
        rw [length_take, length_drop, drop_drop]
        rcases Nat.le_total (n + 1) (data.length - x.sent) with hle | hle
        · rw [Nat.min_eq_left hle]
        · rw [Nat.min_eq_right hle, drop_eq_nil_of_le (by omega), drop_eq_nil_of_le (by omega)]
      simp only [Looped.exchange, noteWritten_seen]
      rw [hdrop, append_assoc, take_append_drop, hw.written]
    · have hbound := hw.bound
      simp only [Looped.exchange, length_take, length_drop]
      omega
    · intro hq hd hp he
      simp only [Looped.exchange, Unanswered, noteWritten_seen]
      exact hw.quiet hq hd hp he

theorem earlyRespEof_watching (hw : Watching goal data x₀ x) : Watching goal data x₀ (h.earlyRespEof x) := by
  have hstop := hw.stopSend
  have hsent : x.stopSend.early.stopSend = true := rfl
  rw [earlyRespEof]
  generalize x.stopSend = z at hstop hsent
  dsimp only
  split
  · exact hstop
  · rename_i p hp
    have hstarted : Tracked x₀ → z.early.answeredEarly ≠ false := by
      intro ht hans
      cases hp.symm.trans (hstop.tracked ht hans).2
    obtain ⟨status, complete, hy⟩ := finishParser_cases h z p
    rw [hy]
    split
    · exact hstop
    · split
      · refine ⟨hstop.toGoes.reads (.closed rfl rfl rfl), ?_, hstop.bound, ?_, ?_, ?_⟩
        · rw [seen_append]
          exact hstop.written
        · intro _ hdone
          cases hdone
        · intro ht hans
          exact absurd hans (hstarted ht)
        · intro hs
          cases hsent.symm.trans hs
      · refine ⟨hstop.toGoes.same rfl rfl rfl, hstop.written, hstop.bound, ?_, ?_, ?_⟩
        · intro _ _ _ herr
          cases herr
        · intro ht hans
          exact absurd hans (hstarted ht)
        · intro hs
          cases hsent.symm.trans hs

theorem watchFed_watching {y : Exchange} (hw : Watching goal data x₀ x) (hstop : x.early.stopSend = false) {bytes : List UInt8}
    (hd : bytes ≠ []) (hy : h.earlyRespFeed { x with inactivityWaited := 0, anyBytesRead := true } bytes = y) :
    Watching goal data x₀
      { y with early := { y.early with answeredEarly := y.early.done || y.early.parser.isSome } } := by
  obtain ⟨hdone, herr⟩ := hw.live hstop
  generalize hx : ({ x with inactivityWaited := 0, anyBytesRead := true } : Exchange) = x₁ at hy
  have hany : x₁.anyBytesRead = true := hx ▸ rfl
  have hfed : Fed x₁ (h.earlyRespLoop x₁ bytes) := earlyRespLoop_fed hany
  have hquiet : Quiet (h.earlyRespLoop x₁ bytes) := earlyRespLoop_quiet fun he => absurd he hd
  have hread : readAny (h.earlyRespLoop x₁ bytes).trace = true :=
    earlyRespLoop_read hd (hx ▸ hdone) (hx ▸ herr) hany
  have htrace : x₁.trace = x.trace := hx ▸ rfl
  have hretry : x₁.retryUnsafe = x.retryUnsafe := hx ▸ rfl
  have hsent : x₁.sent = x.sent := hx ▸ rfl
  obtain ⟨stop, heq, hlive⟩ := earlyRespFeed_same (h := h) x₁ bytes
  subst hy
  rw [heq]
  generalize h.earlyRespLoop x₁ bytes = z at hfed hquiet hread hlive
  refine ⟨⟨?_, ?_, ?_⟩, ?_, ?_, fun _ => hquiet, ?_, hlive⟩
  · exact hw.trace.trans (htrace ▸ hfed.trace)
  · intro _
    exact (hfed.anyBytesRead.trans hany).trans hread.symm
  · exact (hfed.retryUnsafe.trans hretry).trans hw.retryUnsafe
  · simp only [hfed.written, hfed.sent, htrace, hsent, hw.written]
  · simp only [hfed.sent, hsent, hw.bound]
  · intro _ hans
    simpa using hans

theorem watchReady_watching {readable writable : Bool} (hw : Watching goal data x₀ x) (hstop : x.early.stopSend = false) :
    Watching goal data x₀ (h.watchReady x data w r readable writable).exchange := by
  rw [watchReady]
  split
  · split
    · exact watchFed_watching hw hstop (by simp) rfl
    · exact earlyRespEof_watching hw
    · exact hw.stopSend
    · split
      · exact watchWrite_watching hw
      · exact hw
  · exact watchWrite_watching hw

theorem watchRound_watching (hw : Watching goal data x₀ x) (hstop : x.early.stopSend = false) :
    Watching goal data x₀ (h.watchRound x data w r).exchange := by
  have htick : Watching goal data x₀ (x.tick r) := hw.same rfl rfl rfl rfl rfl
  have hcharge : Watching goal data x₀ (h.charge (x.tick r) r) := htick.same rfl rfl rfl rfl rfl
  generalize ho : h.watchRound x data w r = o
  rw [watchRound] at ho
  split at ho
  · exact ho ▸ htick
  · split at ho
    · exact ho ▸ watchReady_watching htick hstop
    · split at ho
      · exact ho ▸ hcharge
      · exact ho ▸ hcharge
      · split at ho
        · exact ho ▸ hcharge
        · exact ho ▸ watchReady_watching hcharge hstop

theorem watchLoop_ends (hw : Watching goal data x₀ x) :
    (h.watchLoop data w x rounds).Ends (Watching goal data x₀) (fun y => y.early.error = none) fun _ _ => True := by
  have hdone {x : Exchange} {rounds : List Round} (hw : Watching goal data x₀ x) :
      (watchLoop.watchDone x rounds).Ends (Watching goal data x₀) (fun y => y.early.error = none) fun _ _ => True := by
    rw [watchLoop.watchDone]
    split
    · exact ⟨hw, trivial⟩
    · exact ⟨hw, by assumption⟩
  induction rounds generalizing w x with
  | nil =>
    rw [watchLoop]
    split
    · exact hw
    · exact hdone hw
  | cons r rounds ih =>
    rw [watchLoop]
    split
    · rename_i hgo
      have hround := watchRound_watching (h := h) (w := w) (r := r) hw (by simpa using hgo.2)
      split <;> rename_i heq <;> rw [heq] at hround
      · exact ih hround
      · exact ⟨hround, trivial⟩
    · exact hdone hw

theorem sendAllWatch_ends (hwritten : (seen x.trace).written ++ data = goal) (hlive : Live x) :
    (h.chttpSendAllWatch x data rounds).Ends (Watching goal data x) (fun y => y.early.error = none) fun _ _ => True := by
  apply watchLoop_ends
  exact ⟨(Goes.refl x).same rfl rfl rfl, hwritten, Nat.zero_le _, fun hq => hq, fun ht => ht, hlive⟩

theorem sendAllWatch_late (hleft : h.inactivityLeft x = false) (hd : data ≠ []) (hstop : x.early.stopSend = false)
    (rest : List Round) : h.chttpSendAllWatch x data rounds ≠ .success y rest := by
  have hgo : 0 < data.length ∧ !x.early.stopSend := by simp [hstop, length_pos_iff.mpr hd]
  rw [chttpSendAllWatch]
  cases rounds with
  | nil => simp [watchLoop, hgo]
  | cons r rounds =>
    have hround : ∃ z, h.watchRound { x with sent := 0 } data ⟨true, false, true⟩ r = .stop .timedOut z := by
      have hlate : h.inactivityLeft (Exchange.tick { x with sent := 0 } r) = false := hleft
      simp [watchRound, hlate]
    obtain ⟨z, hz⟩ := hround
    simp [watchLoop, hgo, hz]

end Hop

/-! ## The end of an exchange -/

def FinalEnd (y : Exchange) : Prop :=
  ¬Unanswered y ∧ ∃ status, (seen y.trace).ended = some ⟨status, true, []⟩ ∧ isInterim status = false

theorem FinalEnd.answered (hf : FinalEnd y) (ha : Asked y) (hw : (seen y.trace).written = goal) : Answered goal y.trace := by
  obtain ⟨hstarted, hend⟩ := hf
  cases hs : (seen y.trace).started with
  | none => exact absurd hs hstarted
  | some s => exact ⟨hw, by rw [hs, ha s hs, hw], hend⟩

namespace Hop

theorem checkLeftover_ends (hreads : Reads x y) (hend : Delivered Q 0 y) :
    (checkLeftover y rounds).Ends (Reads x) (fun z => z.keepAlive = true → FinalEnd z) fun _ _ => True := by
  have hfinal : isInterim y.statusCode = false := by
    cases hi : isInterim y.statusCode with
    | false => rfl
    | true =>
      rw [hend.2 hi] at hi
      cases hi
  rw [checkLeftover]
  split
  · rename_i hleft
    refine ⟨hreads, ?_⟩
    intro hk
    obtain ⟨hended, hstarted⟩ := hend.1.2.final hfinal hk
    exact ⟨hstarted, _, hleft ▸ hended, hfinal⟩
  · refine ⟨hreads.trans (.same rfl rfl rfl), ?_⟩
    intro hk
    cases hk

theorem checkLeftover_reads (hreads : Reads x y) :
    (checkLeftover y rounds).Ends (Reads x) (fun _ => True) fun _ _ => True := by
  rw [checkLeftover]
  split
  · exact ⟨hreads, trivial⟩
  · exact ⟨hreads.trans (.same rfl rfl rfl), trivial⟩

theorem earlyMessageEnded_reads {n : Nat} (hreads : Reads x y) :
    (h.earlyMessageEnded n y rounds).Ends (Reads x) (fun _ => True) fun _ _ => True := by
  have hclear : Reads x { y with early := { y.early with parser := none } } := hreads.trans (.same rfl rfl rfl)
  generalize ho : h.earlyMessageEnded n y rounds = o
  rw [earlyMessageEnded] at ho
  split at ho
  · split at ho
    · exact ho ▸ ⟨hclear, trivial⟩
    · split at ho <;> rename_i heq
      · exact ho ▸ ⟨hclear.trans (parseCtxReset_reads heq).1, trivial⟩
      · have hz := hclear.trans (parseCtxReset_reads heq).1
        subst ho
        exact (chttpReadMessageLoop_ends (Q := False) fun hf => hf.elim).mono (fun _ hy => hz.trans hy) (fun _ _ _ => trivial)
          fun _ _ _ _ => trivial
  · exact ho ▸ ⟨hclear, trivial⟩

def FinishEnd (complete : Bool) (x y : Exchange) : Prop :=
  y.keepAlive = true → complete = true ∧ (x.early.done = false → x.early.parser = none → FinalEnd y)

theorem earlyRespFinish_ends {complete : Bool} :
    (h.chttpEarlyRespFinish complete x rounds).Ends (Reads x) (FinishEnd complete x) fun _ _ => True := by
  have hread : ∀ {r : Returned},
      r.Ends (Reads x) (fun y => x.early.done = false → x.early.parser = none → y.keepAlive = true → FinalEnd y)
        (fun _ _ => True) →
      (r.andThen fun x rounds => .success (if complete then x else { x with keepAlive := false }) rounds).Ends (Reads x)
        (FinishEnd complete x) fun _ _ => True := by
    intro r hr
    apply hr.andThen (fun _ hy => hy) (fun _ _ _ hf => hf)
    intro y rounds hy hs
    cases complete with
    | false => exact ⟨hy.trans (.same rfl rfl rfl), fun hk => by cases hk⟩
    | true => exact ⟨hy, fun hk => ⟨rfl, fun hd hp => hs hd hp hk⟩⟩
  rw [chttpEarlyRespFinish]
  apply hread
  split
  · rename_i hdone
    exact ⟨.same rfl rfl rfl, fun hd => by rw [hd] at hdone; cases hdone⟩
  · split
    · rename_i p hp
      apply Returned.Ends.mono (S := fun _ => True) (F := fun _ _ => True) _ (fun _ hy => hy)
        (fun y _ _ _ hnone => by rw [hnone] at hp; cases hp) fun _ _ _ _ => trivial
      apply Returned.Ends.andThen (S := fun _ => True) (F := fun _ _ => True) _ (fun _ hy => hy) (fun _ _ _ hf => hf)
      · exact fun y rounds hy _ => checkLeftover_reads hy
      · apply (chttpReadMessageWith_ends (Q := False) fun hf => hf.elim).andThen (fun _ hy => hy) (fun _ _ _ _ => trivial)
        exact fun y rounds hy _ => earlyMessageEnded_reads hy
    · apply (chttpReadMessageLoop_ends (Q := False) fun hf => hf.elim).andThen (fun _ hy => hy) (fun _ _ _ _ => trivial)
      intro y rounds hy hend
      exact (checkLeftover_ends hy hend).mono (fun _ hz => hz) (fun _ _ hs _ _ => hs) fun _ _ _ hf => hf

end Hop

/-! ## The two ways to send -/

def Resendable (h : Hop) (goal : List UInt8) (y : Exchange) : Prop :=
  (y.anyBytesRead = false ∧ y.retryUnsafe = false) ↔
    readAny y.trace = false ∧ ((seen y.trace).written.length < goal.length ∨ h.replayable = true)

def Extended (goal : List UInt8) (x y : Exchange) : Prop := x.trace <+: y.trace ∧ (seen y.trace).written <+: goal

theorem Watching.extended (hw : Watching goal data x y) : Extended goal x y := ⟨hw.trace, _, hw.written⟩

theorem Watching.answered (hw : Watching goal data x y) (hx : Quiet x) (ht : Tracked x) (herror : y.early.error = none)
    (hc : (!y.early.answeredEarly && decide (y.sent = data.length)) = true) (hasked : Asked y → Asked z)
    (hsame : (seen z.trace).written = (seen y.trace).written)
    (hend : y.early.done = false → y.early.parser = none → FinalEnd z) : Answered goal z.trace := by
  simp only [Bool.and_eq_true, Bool.not_eq_true', decide_eq_true_eq] at hc
  obtain ⟨hdone, hlive⟩ := hw.tracked ht hc.1
  have hquiet : Unanswered y := hw.quiet hx hdone hlive herror
  have hall : (seen z.trace).written = goal := by
    rw [hsame, ← hw.written, hc.2, drop_length, append_nil]
  exact (hend hdone hlive).answered (hasked hquiet.asked) hall

theorem Extended.reads (he : Extended goal x y) (hr : Reads y z) : Extended goal x z :=
  ⟨he.1.trans hr.trace, hr.written ▸ he.2⟩

structure AfterSend (h : Hop) (goal data : List UInt8) (y : Exchange) : Prop where
  known : ReadKnown y
  retryUnsafe : y.retryUnsafe = (!h.replayable && y.sent = data.length)
  written : (seen y.trace).written ++ data.drop y.sent = goal
  bound : y.sent ≤ data.length

theorem AfterSend.resendable (ha : AfterSend h goal data y) (hr : Reads y z) : Resendable h goal z := by
  have hlen : (seen z.trace).written.length < goal.length ↔ y.sent ≠ data.length := by
    have hbound := ha.bound
    rw [hr.written, ← ha.written, length_append, length_drop]
    omega
  rw [Resendable, hr.known ha.known, hr.retryUnsafe, ha.retryUnsafe, hlen]
  cases h.replayable <;> simp

namespace Hop

theorem sendAndFinish_ends (hwritten : (seen x.trace).written ++ data = goal) (hknown : ReadKnown x)
    (hretry : x.retryUnsafe = false) :
    (h.sendAndFinish x data rounds).Ends (Extended goal x) (fun y => Unanswered x → y.keepAlive = true → Answered goal y.trace)
      fun _ y => Resendable h goal y := by
  have hsend : (h.chttpSendAllWatch { x with early := earlyRespInit } data rounds).Ends
      (Watching goal data { x with early := earlyRespInit }) (fun y => y.early.error = none) fun _ _ => True :=
    sendAllWatch_ends hwritten fun _ => ⟨rfl, rfl⟩
  -- Whether the flag is set or not, it says what `AfterSend` says, and nothing else changes.
  have hafter {y : Exchange} (hw : Watching goal data { x with early := earlyRespInit } y) :
      ∃ unsafeNow, (if !h.replayable && y.sent = data.length then { y with retryUnsafe := true } else y) =
          { y with retryUnsafe := unsafeNow } ∧ AfterSend h goal data { y with retryUnsafe := unsafeNow } := by
    have hr : y.retryUnsafe = false := hw.retryUnsafe.trans hretry
    split
    · rename_i hall
      exact ⟨true, rfl, hw.known hknown, hall.symm, hw.written, hw.bound⟩
    · rename_i hall
      refine ⟨y.retryUnsafe, rfl, hw.known hknown, ?_, hw.written, hw.bound⟩
      simpa [hr] using hall
  rw [sendAndFinish]
  cases hres : h.chttpSendAllWatch { x with early := earlyRespInit } data rounds with
  | running y =>
    rw [hres] at hsend
    exact hsend.extended
  | failure code y rest =>
    rw [hres] at hsend
    obtain ⟨unsafeNow, heq, hflag⟩ := hafter hsend.1
    simp only [Returned.after, Returned.andThen, heq]
    exact ⟨hsend.1.extended, hflag.resendable (.refl _)⟩
  | success y rest =>
    rw [hres] at hsend
    obtain ⟨hw, herror⟩ := hsend
    obtain ⟨unsafeNow, heq, hflag⟩ := hafter hw
    simp only [Returned.after, Returned.andThen, heq]
    have hext : Extended goal x { y with retryUnsafe := unsafeNow } := hw.extended
    apply (earlyRespFinish_ends (x := { y with retryUnsafe := unsafeNow })).mono (fun _ hz => hext.reads hz)
    · intro z hz hfinal hx hk
      obtain ⟨hc, hend⟩ := hfinal hk
      exact hw.answered (fun _ _ _ => hx) (fun _ => ⟨rfl, rfl⟩) herror hc hz.asked hz.written hend
    · intro _ z hz _
      exact hflag.resendable hz

theorem sendAndFinish_late (hleft : h.inactivityLeft x = false) (hd : data ≠ []) (rest : List Round) :
    h.sendAndFinish x data rounds ≠ .success y rest := by
  intro hs
  rw [sendAndFinish] at hs
  cases hres : h.chttpSendAllWatch { x with early := earlyRespInit } data rounds with
  | running y =>
    rw [hres] at hs
    cases hs
  | failure code y rest =>
    rw [hres] at hs
    cases hs
  | success z rest => exact sendAllWatch_late (x := { x with early := earlyRespInit }) hleft hd rfl rest hres

end Hop

theorem Resendable.of_read (hread : readAny y.trace = true) (hy : y.anyBytesRead = true ∨ y.retryUnsafe = true) :
    Resendable h goal y := by
  rw [Resendable, hread]
  constructor
  · intro hno
    rcases hy with hy | hy
    · cases hno.1.symm.trans hy
    · cases hno.2.symm.trans hy
  · intro hno
    cases hno.1

structure Confirmed (x y : Exchange) : Prop where
  trace : x.trace ++ [.confirmed x.leftover] <+: y.trace
  written : (seen y.trace).written = (seen x.trace).written
  retryUnsafe : y.retryUnsafe = true
  live : Live y
  clear : x.leftover = [] → y.early = earlyRespInit ∧ y.trace = x.trace ++ [.confirmed x.leftover]

namespace Hop

theorem confirmContinue_confirmed (h : Hop) (x : Exchange) : Confirmed x (h.confirmContinue x) := by
  rw [confirmContinue]
  generalize hy : ({ x with
    retryUnsafe := true
    anyBytesRead := x.leftover ≠ []
    early := earlyRespInit
    trace := x.trace ++ [.confirmed x.leftover] } : Exchange) = y
  have htrace : y.trace = x.trace ++ [.confirmed x.leftover] := hy ▸ rfl
  have hleft : y.leftover = x.leftover := hy ▸ rfl
  have hearly : y.early = earlyRespInit := hy ▸ rfl
  have hretry : y.retryUnsafe = true := hy ▸ rfl
  have hwritten : (seen y.trace).written = (seen x.trace).written := by
    rw [htrace, seen_append]
    rfl
  rw [hleft]
  split
  · exact ⟨htrace ▸ prefix_rfl, hwritten, hretry, fun _ => by rw [hearly]; exact ⟨rfl, rfl⟩, fun _ => ⟨hearly, htrace⟩⟩
  · rename_i hne
    have hany : y.anyBytesRead = true := by
      rw [← hy]
      simpa using hne
    obtain ⟨stop, heq, hlive⟩ := earlyRespFeed_same (h := h) y x.leftover
    have hfed : Fed y (h.earlyRespLoop y x.leftover) := earlyRespLoop_fed hany
    rw [heq]
    exact ⟨htrace ▸ hfed.trace, hfed.written.trans hwritten, hfed.retryUnsafe.trans hretry, hlive, fun he => absurd he hne⟩

theorem sendConfirmedBody_ends (hwritten : (seen x.trace).written ++ h.bodyPart = goal) (hread : readAny x.trace = true)
    (hany : x.anyBytesRead = true) (hend : x.leftover = [] → Unanswered x) :
    (h.sendConfirmedBody x rounds).Ends (Extended goal x)
      (fun y => (∀ left, .confirmed left ∈ y.trace → left = []) → y.keepAlive = true → Answered goal y.trace)
      fun _ y => Resendable h goal y := by
  rw [sendConfirmedBody]
  split <;> rename_i heq <;> obtain ⟨hreset, hleft, htrace⟩ := parseCtxReset_reads heq
  · rename_i code y
    have hext : Extended goal x y := ⟨hreset.trace, hreset.written ▸ ⟨_, hwritten⟩⟩
    have hany' : y.anyBytesRead = true := by
      simp only [Exchange.parseCtxResetForContinue, Exchange.alloc, Prod.mk.injEq] at heq
      exact heq.2 ▸ hany
    exact ⟨hext, .of_read (readAny_mono hreset.trace hread) (.inl hany')⟩
  · rename_i _ y
    have hc := confirmContinue_confirmed h y
    generalize h.confirmContinue y = z at hc
    have hxz : x.trace <+: z.trace := htrace ▸ (prefix_append _ _).trans hc.trace
    have hzwritten : (seen z.trace).written ++ h.bodyPart = goal := by rw [hc.written, htrace, hwritten]
    have hzext : Extended goal x z := ⟨hxz, _, hzwritten⟩
    have hresend : ∀ {v : Exchange}, Goes z v → Resendable h goal v := by
      intro v hv
      exact .of_read (readAny_mono (hxz.trans hv.trace) hread) (.inr (hv.retryUnsafe.trans hc.retryUnsafe))
    dsimp only
    split
    · exact ⟨hzext, hresend (.refl z)⟩
    · apply (sendAllWatch_ends hzwritten hc.live).andThen
      · exact fun v hv => ⟨hxz.trans hv.trace, hv.extended.2⟩
      · exact fun _ v hv _ => hresend hv.toGoes
      · intro v rest hv herror
        apply earlyRespFinish_ends.mono (fun _ hu => ⟨hxz.trans (hv.trace.trans hu.trace), (hv.extended.reads hu).2⟩)
        · intro u hu hfinal hclear hk
          have hmem : WireEvent.confirmed y.leftover ∈ u.trace :=
            (hc.trace.trans (hv.trace.trans hu.trace)).subset (by simp)
          obtain ⟨hearly, hztrace⟩ := hc.clear (hclear _ hmem)
          have hquiet : Unanswered z := by
            rw [Unanswered, hztrace, seen_append, htrace]
            exact hend (hleft ▸ hclear _ hmem)
          obtain ⟨hcomplete, hfin⟩ := hfinal hk
          have htracked : Tracked z := fun _ => by
            rw [hearly]
            exact ⟨rfl, rfl⟩
          exact hv.answered (fun _ _ _ => hquiet) htracked herror hcomplete hu.asked hu.written hfin
        · exact fun _ u hu _ => hresend (hv.toGoes.reads hu)

/-! ## The exchange -/

/-- A final response on a connection that is kept came after the whole request, or bytes came with the `100 Continue`.
-/
def Kept (goal : List UInt8) (y : Exchange) : Prop :=
  (∀ left, .confirmed left ∈ y.trace → left = []) → y.keepAlive = true → Answered goal y.trace

theorem bodyPart_ne (huse : h.use100Continue = true) : h.bodyPart ≠ [] := by
  have hlen := h.continue_body huse
  rw [bodyPart, ← length_pos_iff, length_drop]
  omega

theorem headerPart_bodyPart (h : Hop) : h.headerPart ++ h.bodyPart = h.wire := take_append_drop _ _

structure Asking (h : Hop) (x : Exchange) : Prop where
  written : (seen x.trace).written ++ h.bodyPart = h.wire
  body : h.bodyPart ≠ []
  unanswered : Unanswered x
  known : ReadKnown x
  retryUnsafe : x.retryUnsafe = false

theorem Asking.resendable (ha : Asking h x) (hr : Reads x y) : Resendable h h.wire y := by
  have hless : (seen y.trace).written.length < h.wire.length := by
    have hpos := length_pos_iff.mpr ha.body
    rw [hr.written, ← ha.written, length_append]
    omega
  rw [Resendable, hr.known ha.known, hr.retryUnsafe, ha.retryUnsafe]
  simp [hless]

theorem Asking.extended (ha : Asking h x) (hr : Reads x y) : Extended h.wire x y :=
  ⟨hr.trace, _, hr.written ▸ ha.written⟩

theorem continueTimedOut_ends {y : Exchange} (ha : Asking h x) (hreads : Reads x y) (hstalled : Stalled h .timedOut y) :
    (h.continueDecided (.failure .timedOut y rounds)).Ends (Extended h.wire x) (Kept h.wire) fun _ z => Resendable h h.wire z := by
  rw [continueDecided]
  split
  · exact ⟨ha.extended hreads, ha.resendable hreads⟩
  · rename_i htime
    have hfinish : (h.sendAndFinish y h.bodyPart rounds).Ends (Extended h.wire y)
        (fun z => Unanswered y → z.keepAlive = true → Answered h.wire z.trace) fun _ z => Resendable h h.wire z :=
      sendAndFinish_ends (hreads.written ▸ ha.written) (hreads.known ha.known) (hreads.retryUnsafe.trans ha.retryUnsafe)
    have hext : ∀ z, Extended h.wire y z → Extended h.wire x z := fun z hz => ⟨hreads.trace.trans hz.1, hz.2⟩
    cases hres : h.sendAndFinish y h.bodyPart rounds <;> rw [hres] at hfinish
    · exact hext _ hfinish
    · rename_i z rest
      refine ⟨hext _ hfinish.1, ?_⟩
      intro _ hk
      rcases hstalled rfl with hun | hover | hidle
      · exact hfinish.2 hun hk
      · simp [hover] at htime
      · exact absurd hres (sendAndFinish_late hidle ha.body rest)
    · exact ⟨hext _ hfinish.1, hfinish.2⟩

theorem continueDecided_ends {o : Returned} (ha : Asking h x)
    (ho : o.Ends (Reads x) (Delivered True 100) fun code y => True → Stalled h code y) :
    (h.continueDecided o).Ends (Extended h.wire x) (Kept h.wire) fun _ y => Resendable h h.wire y := by
  cases o with
  | running y => exact ha.extended ho
  | failure code y rounds =>
    obtain ⟨hreads, hstalled⟩ := ho
    have hfail : ∀ code, (Returned.failure code y rounds).Ends (Extended h.wire x) (Kept h.wire) fun _ y =>
        Resendable h h.wire y := fun _ => ⟨ha.extended hreads, ha.resendable hreads⟩
    cases code with
    | timedOut => exact continueTimedOut_ends ha hreads (hstalled trivial)
    | _ => exact hfail _
  | success y rounds =>
    obtain ⟨hreads, hend⟩ := ho
    rw [continueDecided]
    split
    · refine ⟨ha.extended (hreads.trans (.same rfl rfl rfl)), ?_⟩
      intro _ hk
      cases hk
    · rename_i hstatus
      have hinterim : isInterim y.statusCode = true := by
        rw [not_not.mp hstatus]
        rfl
      have hread := hend.1.1 trivial
      have hbody : (h.sendConfirmedBody y rounds).Ends (Extended h.wire y) (Kept h.wire) fun _ z => Resendable h h.wire z :=
        sendConfirmedBody_ends (hreads.written ▸ ha.written) hread ((hreads.known ha.known).trans hread)
          (hend.1.2.interim hinterim)
      exact hbody.mono (fun z hz => ⟨hreads.trace.trans hz.1, hz.2⟩) (fun _ _ hk => hk) fun _ _ _ hf => hf

theorem chttpSendAndRead_ends (htrace : x.trace = []) (hknown : x.anyBytesRead = false) :
    (h.chttpSendAndRead x rounds).Ends (fun y => (seen y.trace).written <+: h.wire) (Kept h.wire)
      fun _ y => Resendable h h.wire y := by
  have hk : ReadKnown { x with retryUnsafe := false } := by
    rw [ReadKnown, hknown, htrace]
    rfl
  have hunanswered : Unanswered { x with retryUnsafe := false } := by
    rw [Unanswered, htrace]
    rfl
  rw [chttpSendAndRead]
  split
  · have hfinish : (h.sendAndFinish { x with retryUnsafe := false } h.wire rounds).Ends
        (Extended h.wire { x with retryUnsafe := false })
        (fun y => Unanswered { x with retryUnsafe := false } → y.keepAlive = true → Answered h.wire y.trace)
        fun _ y => Resendable h h.wire y :=
      sendAndFinish_ends (by rw [htrace]; rfl) hk rfl
    exact hfinish.mono (fun _ hy => hy.2) (fun _ _ hs _ => hs hunanswered) fun _ _ _ hf => hf
  · rename_i huse
    have hbody : h.bodyPart ≠ [] := bodyPart_ne (by simpa using huse)
    have hstart : Sends h.headerPart { x with retryUnsafe := false } h.headerPart { x with retryUnsafe := false } :=
      ⟨.refl _, by rw [htrace]; rfl, rfl⟩
    have hpart {rest : List UInt8} {y : Exchange} (hs : Sends h.headerPart { x with retryUnsafe := false } rest y) :
        (seen y.trace).written ++ (rest ++ h.bodyPart) = h.wire := by
      rw [← append_assoc, hs.written, headerPart_bodyPart]
    apply (chttpSendAll_ends hstart).andThen
    · intro y ⟨rest, hs⟩
      exact ⟨_, hpart hs⟩
    · intro _ y _ ⟨rest, hrest, hs⟩
      have hless : (seen y.trace).written.length < h.wire.length := by
        have hpos := length_pos_iff.mpr hrest
        rw [← hpart hs, length_append, length_append]
        omega
      rw [Resendable, hs.known hk, hs.retryUnsafe]
      simp [hless]
    · intro y rounds _ hs
      have ha : Asking h y := ⟨hpart hs, hbody, hs.started.trans hunanswered, hs.known hk, hs.retryUnsafe⟩
      exact (continueDecided_ends ha (chttpReadMessageLoop_ends fun _ _ => ha.unanswered)).mono (fun _ hz => hz.2)
        (fun _ _ hs => hs) fun _ _ _ hf => hf

end Hop

end Ccollections.Chttpclient
