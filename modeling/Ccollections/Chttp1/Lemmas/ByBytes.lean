import Ccollections.Chttp1.Execute

/-!
# A log of calls, byte by byte

Callbacks that look only at message events do not notice when the body bytes of a log are given one at a time. The
parser does the same with such a log.
-/

namespace Ccollections.Chttp1

/-- The calls that stand for a call when body bytes come one at a time. The first byte is enough for an error. -/
def Call.byBytes (c : Call) : List Call :=
  match c.event with
  | .body bytes => if c.answer = 0 then bytes.map fun b => ⟨.body [b], 0⟩ else [⟨.body (bytes.take 1), c.answer⟩]
  | _ => [c]

def logByBytes (log : List Call) : List Call := log.flatMap Call.byBytes

theorem Call.byBytes_message {c : Call} (h : c.event.message ≠ none) : c.byBytes = [c] := by
  obtain ⟨e, a⟩ := c
  cases e with
  | body bytes => exact absurd rfl h
  | _ => rfl

theorem messages_append (log log' : List Call) : messages (log ++ log') = messages log ++ messages log' := by
  simp [messages]

theorem messages_byBytes (c : Call) : messages c.byBytes = messages [c] := by
  obtain ⟨e, a⟩ := c
  cases e with
  | body bytes =>
    simp only [Call.byBytes]
    split
    · simp [messages, Event.message]
    · simp [messages, Event.message]
  | _ => rfl

@[simp] theorem messages_logByBytes (log : List Call) : messages (logByBytes log) = messages log := by
  induction log with
  | nil => rfl
  | cons c log ih =>
    rw [logByBytes, List.flatMap_cons, messages_append, messages_byBytes]
    exact (congrArg (messages [c] ++ ·) ih).trans (messages_append [c] log).symm

theorem acceptedBody_append (log log' : List Call) : acceptedBody (log ++ log') = acceptedBody log ++ acceptedBody log' := by
  simp [acceptedBody, bodyBytes]

theorem acceptedBody_byBytes (c : Call) : acceptedBody c.byBytes = acceptedBody [c] := by
  obtain ⟨e, a⟩ := c
  cases e with
  | body bytes =>
    by_cases ha : a = 0
    · subst ha
      simp only [Call.byBytes, if_true, acceptedBody, bodyBytes]
      induction bytes with
      | nil => rfl
      | cons b bytes ih => simpa using ih
    · simp [Call.byBytes, ha, acceptedBody, bodyBytes]
  | _ => rfl

@[simp] theorem acceptedBody_logByBytes (log : List Call) : acceptedBody (logByBytes log) = acceptedBody log := by
  induction log with
  | nil => rfl
  | cons c log ih =>
    rw [logByBytes, List.flatMap_cons, acceptedBody_append, acceptedBody_byBytes]
    exact (congrArg (acceptedBody [c] ++ ·) ih).trans (acceptedBody_append [c] log).symm

namespace Parser

variable {S : Settings} {p p' : Parser}

def byBytes (p : Parser) : Parser := { p with log := logByBytes p.log, consumed := 0 }

@[simp] theorem byBytes_line : p.byBytes.line = p.line := rfl

@[simp] theorem byBytes_state : p.byBytes.state = p.state := rfl

@[simp] theorem byBytes_type : p.byBytes.type = p.type := rfl

@[simp] theorem byBytes_contentLength : p.byBytes.contentLength = p.contentLength := rfl

/-! ## Operations without callbacks -/

theorem parseHttpVersion_byBytes (s : List UInt8) :
    p.byBytes.parseHttpVersion s = Prod.map id byBytes (p.parseHttpVersion s) := by
  simp only [parseHttpVersion, apply_ite (Prod.map id byBytes)]
  rfl

theorem parseStatus_byBytes (s : List UInt8) : p.byBytes.parseStatus s = Prod.map id byBytes (p.parseStatus s) := by
  cases s with
  | nil => rfl
  | cons c s =>
    simp only [parseStatus]
    cases s.drop 3 with
    | nil =>
      simp only [apply_ite (Prod.map id byBytes)]
      rfl
    | cons d phrase =>
      simp only [apply_ite (Prod.map id byBytes)]
      rfl

theorem parseStatusLine_byBytes : p.byBytes.parseStatusLine = Prod.map id byBytes p.parseStatusLine := by
  simp only [parseStatusLine, parseHttpVersion_byBytes, byBytes_line]
  cases p.parseHttpVersion p.line with
  | mk ok p₁ =>
    cases ok with
    | false => rfl
    | true => exact parseStatus_byBytes _

theorem parseChunkSizeLine_byBytes :
    p.byBytes.parseChunkSizeLine = Prod.map id byBytes p.parseChunkSizeLine := by
  simp only [parseChunkSizeLine, byBytes_line]
  cases parseUint64Hex (p.line.takeWhile fun c => c ≠ 0x3B && !isOws c) with
  | none => rfl
  | some v =>
    simp only [apply_ite (Prod.map id byBytes)]
    rfl

theorem processContentLength_byBytes (value : List UInt8) :
    p.byBytes.processContentLength value = Prod.map id byBytes (p.processContentLength value) := by
  simp only [processContentLength]
  cases parseUint64Decimal value with
  | none =>
    simp only [apply_ite (Prod.map id byBytes)]
    rfl
  | some v =>
    simp only [apply_ite (Prod.map id byBytes)]
    rfl

theorem processTransferEncoding_byBytes (value : List UInt8) :
    p.byBytes.processTransferEncoding value = Prod.map id byBytes (p.processTransferEncoding value) := by
  simp only [processTransferEncoding, apply_ite (Prod.map id byBytes)]
  rfl

theorem processHost_byBytes (value : List UInt8) :
    p.byBytes.processHost value = Prod.map id byBytes (p.processHost value) := by
  simp only [processHost, apply_ite (Prod.map id byBytes)]
  rfl

theorem processExpect_byBytes (value : List UInt8) : p.byBytes.processExpect value = (p.processExpect value).byBytes := by
  simp only [processExpect, apply_ite byBytes]
  rfl

theorem interpretHeader_byBytes (name value : List UInt8) :
    p.byBytes.interpretHeader name value = Prod.map id byBytes (p.interpretHeader name value) := by
  simp only [interpretHeader, apply_ite (Prod.map id byBytes), processContentLength_byBytes, processTransferEncoding_byBytes,
    processHost_byBytes, processExpect_byBytes]
  rfl

theorem appendByte_byBytes (c : UInt8) : p.byBytes.appendByte c = Prod.map id byBytes (p.appendByte c) := by
  simp only [appendByte, apply_ite (Prod.map id byBytes)]
  rfl

theorem lineSpillGrow_byBytes (budget : Nat) : p.byBytes.lineSpillGrow budget = (p.lineSpillGrow budget).map byBytes := by
  simp only [lineSpillGrow, apply_ite (Option.map byBytes)]
  rfl

theorem pushByte_byBytes (budget : Nat) (c : UInt8) :
    p.byBytes.pushByte budget c = Prod.map id byBytes (p.pushByte budget c) := by
  simp only [pushByte, lineSpillGrow_byBytes, appendByte_byBytes]
  cases p.lineSpillGrow budget with
  | none =>
    simp only [apply_ite (Prod.map id byBytes)]
    rfl
  | some p₁ =>
    simp only [apply_ite (Prod.map id byBytes), Option.map_some, appendByte_byBytes]
    rfl

theorem accumulateLine_byBytes (budget : Nat) (data : List UInt8) :
    p.byBytes.accumulateLine budget data = Prod.map id (Prod.map byBytes id) (p.accumulateLine budget data) := by
  induction data generalizing p with
  | nil => rfl
  | cons c data ih =>
    simp only [accumulateLine, pushByte_byBytes]
    cases p.pushByte budget c with
    | mk r p₁ =>
      cases r with
      | needMore => exact ih
      | _ => rfl

/-! ## Operations with callbacks -/

variable (hS : DecidesFromMessages S)
include hS

theorem callback_byBytes {e : Event} : S.callback p.byBytes.log e = S.callback p.log e :=
  hS _ _ _ _ (messages_logByBytes p.log) rfl

theorem call_byBytes {e : Event} (he : e.message ≠ none) : p.byBytes.call S e = Prod.map id byBytes (p.call S e) := by
  have hcall := Call.byBytes_message (c := ⟨e, S.callback p.log e⟩) he
  simp only [call, callback_byBytes hS]
  simp [byBytes, logByBytes, hcall]

theorem parseRequestLine_byBytes : p.byBytes.parseRequestLine S = Prod.map id byBytes (p.parseRequestLine S) := by
  simp only [parseRequestLine, parseHttpVersion_byBytes, byBytes_line]
  generalize p.parseHttpVersion _ = r
  obtain ⟨ok, p₁⟩ := r
  cases ok with
  | false =>
    simp only [apply_ite (Prod.map id byBytes)]
    rfl
  | true =>
    simp only [apply_ite (Prod.map id byBytes), Prod.map_apply, id_eq]
    change ite _ _ (ite _ _ (ite _ _ (ite _ _ (ite _ _ ((if (p₁.byBytes.call S (.requestLine _ _ p₁.httpMajor p₁.httpMinor)).1 = 0
      then PhResult.ok else .user), (p₁.byBytes.call S (.requestLine _ _ p₁.httpMajor p₁.httpMinor)).2))))) = _
    rw [call_byBytes hS (by simp [Event.message])]
    rfl

theorem reportHeader_byBytes {e : Event} (he : e.message ≠ none) (n : Nat) :
    p.byBytes.reportHeader S e n = Prod.map id byBytes (p.reportHeader S e n) := by
  simp only [reportHeader, call_byBytes hS he, apply_ite (Prod.map id byBytes)]
  rfl

theorem processHeaderLine_byBytes (isTrailer : Bool) :
    p.byBytes.processHeaderLine S isTrailer = Prod.map id byBytes (p.processHeaderLine S isTrailer) := by
  simp only [processHeaderLine, byBytes_line, interpretHeader_byBytes]
  cases splitHeader p.line with
  | error reason =>
    simp only [apply_ite (Prod.map id byBytes)]
    rfl
  | ok field =>
    obtain ⟨name, value⟩ := field
    have htrailer : (Event.trailer name value).message ≠ none := by simp [Event.message]
    have hheader : (Event.header name value).message ≠ none := by simp [Event.message]
    dsimp only
    cases p.interpretHeader name value with
    | mk defect p₁ =>
      cases defect with
      | some reason =>
        simp only [apply_ite (Prod.map id byBytes), reportHeader_byBytes hS htrailer]
        rfl
      | none =>
        simp only [apply_ite (Prod.map id byBytes), Prod.map_apply, id_eq, reportHeader_byBytes hS htrailer,
          reportHeader_byBytes hS hheader]
        rfl

/-! ## Complete lines -/

omit hS in
def Stepped.byBytes : Stepped → Stepped := Sum.map (Prod.map Parser.byBytes id) (Prod.map id Parser.byBytes)

theorem completeMessage_byBytes (n : Nat) :
    p.byBytes.completeMessage S 0 = Prod.map id byBytes (p.completeMessage S n) := by
  simp only [completeMessage, call_byBytes hS (e := .messageComplete) (by simp [Event.message]), apply_ite (Prod.map id byBytes)]
  rfl

theorem parseFirstLine_byBytes (rest : List UInt8) :
    p.byBytes.parseFirstLine S rest = Stepped.byBytes (p.parseFirstLine S rest) := by
  simp only [parseFirstLine, byBytes_type, parseRequestLine_byBytes hS, parseStatusLine_byBytes]
  cases p.type with
  | request =>
    cases p.parseRequestLine S with
    | mk r p₁ => cases r <;> rfl
  | response =>
    cases p.parseStatusLine with
    | mk r p₁ => cases r <;> rfl

theorem firstLineReady_byBytes (rest : List UInt8) :
    p.byBytes.firstLineReady S rest = Stepped.byBytes (p.firstLineReady S rest) := by
  have hparse := parseFirstLine_byBytes (p := { p with totalHeaderBytes := sizeAdd p.totalHeaderBytes (p.line.length + 2) }) hS rest
  simp only [firstLineReady, apply_ite Stepped.byBytes]
  rw [← hparse]
  rfl

theorem enterBody_byBytes (hint : Int) (rest : List UInt8) (n : Nat) :
    p.byBytes.enterBody S hint rest 0 = Stepped.byBytes (p.enterBody S hint rest n) := by
  have hdone : ∀ f, ({ p with finishState := f }).byBytes.completeMessage S 0 =
      Prod.map id byBytes (({ p with finishState := f }).completeMessage S n) := fun _ => completeMessage_byBytes hS _
  have hsafe := hdone .finishSafe
  change ({ p.byBytes with finishState := .finishSafe }).completeMessage S 0 = _ at hsafe
  simp only [enterBody, apply_ite Stepped.byBytes, hsafe]
  rfl

theorem headersAnswered_byBytes (hint : Int) (rest : List UInt8) (n : Nat) :
    p.byBytes.headersAnswered S hint rest 0 = Stepped.byBytes (p.headersAnswered S hint rest n) := by
  simp only [headersAnswered, apply_ite Stepped.byBytes, ← enterBody_byBytes hS _ _ n]
  rfl

theorem reportHeaders_byBytes (rest : List UInt8) (n : Nat) :
    p.byBytes.reportHeaders S rest 0 = Stepped.byBytes (p.reportHeaders S rest n) := by
  have hcall := call_byBytes (p := p) hS (e := .headersComplete p.statusCode p.httpMajor p.httpMinor) (by simp [Event.message])
  change headersAnswered S (p.byBytes.call S (.headersComplete p.statusCode p.httpMajor p.httpMinor)).2
    (p.byBytes.call S (.headersComplete p.statusCode p.httpMajor p.httpMinor)).1 rest 0 = _
  rw [hcall]
  exact headersAnswered_byBytes hS _ rest n

theorem headersEnd_byBytes (rest : List UInt8) (n : Nat) :
    p.byBytes.headersEnd S rest 0 = Stepped.byBytes (p.headersEnd S rest n) := by
  have hdefect : p.byBytes.requestDefect = p.requestDefect := rfl
  simp only [headersEnd, hdefect, byBytes_type]
  cases (if p.type = .request then p.requestDefect else none) with
  | some reason => rfl
  | none => exact reportHeaders_byBytes (p := { p with flags := { p.flags with headersDone := true } }) hS rest n

theorem headerReady_byBytes (isTrailer : Bool) (rest : List UInt8) :
    p.byBytes.headerReady S isTrailer rest = Stepped.byBytes (p.headerReady S isTrailer rest) := by
  simp only [headerReady, processHeaderLine_byBytes hS]
  cases p.processHeaderLine S isTrailer with
  | mk r p₁ => cases r <;> rfl

omit hS in
theorem chunkSizeReady_byBytes (rest : List UInt8) : p.byBytes.chunkSizeReady rest = Stepped.byBytes (p.chunkSizeReady rest) := by
  simp only [chunkSizeReady, parseChunkSizeLine_byBytes]
  cases p.parseChunkSizeLine with
  | mk r p₁ => cases r <;> rfl

theorem lineReady_byBytes (rest : List UInt8) (n : Nat) :
    p.byBytes.lineReady S rest 0 = Stepped.byBytes (p.lineReady S rest n) := by
  have hother : (if p.line = [] then Sum.inl ({ p.byBytes with state := .bodyChunkSize }, rest)
      else .inr (p.byBytes.fail "Expected CRLF after chunk data") : Stepped) =
      Stepped.byBytes (if p.line = [] then .inl ({ p with state := .bodyChunkSize }, rest)
        else .inr (p.fail "Expected CRLF after chunk data")) := by
    rw [apply_ite Stepped.byBytes]
    rfl
  simp only [lineReady, byBytes_line, byBytes_state]
  cases p.state with
  | firstLine => exact firstLineReady_byBytes hS rest
  | headers =>
    simp only [apply_ite Stepped.byBytes, headersEnd_byBytes hS rest n, headerReady_byBytes hS]
  | bodyChunkSize => exact chunkSizeReady_byBytes rest
  | bodyChunkTrailers =>
    have hdone := completeMessage_byBytes (p := { p with finishState := .finishSafe }) hS n
    simp only [apply_ite Stepped.byBytes, headerReady_byBytes hS]
    congr 1
    exact congrArg Sum.inr hdone
  | _ => exact hother

end Parser

end Ccollections.Chttp1
