import Ccollections.Chttp1.Execute

/-!
# What a complete line does
-/

namespace Ccollections.Chttp1

open List

def State.isLine : State → Bool
  | .firstLine | .headers | .bodyChunkSize | .bodyChunkCrlf | .bodyChunkTrailers => true
  | _ => false

def State.isCounted : State → Bool
  | .bodyContentLength | .bodyChunkData => true
  | _ => false

namespace Parser

variable {S : Settings} {p p' : Parser} {rest rest' : List UInt8} {n : Nat}

structure Failed (p : Parser) (out : Errno × Parser) : Prop where
  result : out.1 = .error ∨ out.1 = .user
  dead : out.2.state = .dead
  calls : ∃ c, out.2.log = p.log ++ c ∧ c.countP (·.event = .messageComplete) ≤ 1

inductive Completed (S : Settings) (p : Parser) (n : Nat) : Errno × Parser → Prop
  | failed {out : Errno × Parser} (h : Failed p out) : Completed S p n out
  | done (hanswer : S.callback p.log .messageComplete = 0) :
      Completed S p n (.paused, { p with log := p.log ++ [⟨.messageComplete, 0⟩], consumed := n, state := .messageDone })

inductive Entered (S : Settings) (p : Parser) (hint : Int) (rest : List UInt8) (n : Nat) : Stepped → Prop
  | failed {out : Errno × Parser} (h : Failed p out) : Entered S p hint rest n (.inr out)
  | empty {out : Errno × Parser}
      (hempty : p.noBody hint = true ∨ (p.flags.chunked = false ∧ p.flags.contentLength = true ∧ p.contentLength = 0) ∨
        (p.flags.chunked = false ∧ p.flags.contentLength = false ∧ p.type = .request))
      (hclear : p.noBody hint = true ∨ ¬(p.flags.transferEncoding = true ∧ p.flags.chunked = false ∧ p.flags.contentLength = true))
      (h : Completed S { p with finishState := .finishSafe } n out) : Entered S p hint rest n (.inr out)
  | body {st : State} (hbody : p.noBody hint = false)
      (hstate : (st = .bodyChunkSize ∧ p.flags.chunked = true) ∨
        (st = .bodyContentLength ∧ p.flags.chunked = false ∧ p.flags.contentLength = true ∧ p.contentLength ≠ 0))
      (hclear : ¬(p.flags.transferEncoding = true ∧ p.flags.chunked = false ∧ p.flags.contentLength = true)) :
      Entered S p hint rest n (.inl ({ p with state := st, finishState := .finishUnsafe }, rest))
  | diverted {st : State} (hbody : p.noBody hint = false) (hdivert : p.wantDivert hint = true)
      (hstate : (st = .bodyChunkSize ∧ p.flags.chunked = true) ∨
        (st = .bodyContentLength ∧ p.flags.chunked = false ∧ p.flags.contentLength = true ∧ p.contentLength ≠ 0))
      (hclear : ¬(p.flags.transferEncoding = true ∧ p.flags.chunked = false ∧ p.flags.contentLength = true)) :
      Entered S p hint rest n (.inr (.headersOnly, { p with state := st, finishState := .finishUnsafe, consumed := n }))
  | eof (hbody : p.noBody hint = false) (hchunked : p.flags.chunked = false) (hlength : p.flags.contentLength = false)
      (htype : p.type = .response) :
      Entered S p hint rest n (.inl ({ p with state := .bodyEof, finishState := .finishSafeWithCb }, rest))

inductive LineDone (S : Settings) (p : Parser) (rest : List UInt8) (n : Nat) : Stepped → Prop
  | failed {out : Errno × Parser} (h : Failed p out) : LineDone S p rest n (.inr out)
  | blank (hstate : p.state = .firstLine) (htype : p.type = .request) (hline : p.line = []) :
      LineDone S p rest n (.inl ({ p with leadingBlankLines := p.leadingBlankLines + 1 }, rest))
  | request {p₁ : Parser} {total : Nat} (hstate : p.state = .firstLine) (htype : p.type = .request) (hline : p.line ≠ [])
      (h : ({ p with totalHeaderBytes := total }).parseRequestLine S = (.ok, p₁)) :
      LineDone S p rest n (.inl ({ p₁ with line := [], finishState := .finishUnsafe, state := .headers }, rest))
  | status {p₁ : Parser} {total : Nat} (hstate : p.state = .firstLine) (htype : p.type = .response)
      (h : ({ p with totalHeaderBytes := total }).parseStatusLine = (true, p₁)) :
      LineDone S p rest n (.inl ({ p₁ with line := [], finishState := .finishUnsafe, state := .headers }, rest))
  | header {name value : List UInt8} {p₁ : Parser} (hstate : p.state = .headers) (hline : p.line ≠ [])
      (hsplit : splitHeader p.line = .ok (name, value)) (hinterpret : p.interpretHeader name value = (none, p₁))
      (hboth : ¬(p₁.flags.contentLength = true ∧ p₁.flags.chunked = true)) (hanswer : S.callback p₁.log (.header name value) = 0) :
      LineDone S p rest n (.inl ({ ({ p₁ with log := p₁.log ++ [⟨.header name value, 0⟩] } : Parser).countHeader (p.line.length + 2) with
        line := [] }, rest))
  | headersEnd {hint : Int} {s : Stepped} (hstate : p.state = .headers) (hline : p.line = []) (hrequest : p.type = .request → p.requestDefect = none)
      (hanswer : S.callback p.log (.headersComplete p.statusCode p.httpMajor p.httpMinor) = hint)
      (h : Entered S { p with
        flags := { p.flags with headersDone := true }
        log := p.log ++ [⟨.headersComplete p.statusCode p.httpMajor p.httpMinor, hint⟩] } hint rest n s) :
      LineDone S p rest n s
  | chunkSize {v excess : Nat} (hstate : p.state = .bodyChunkSize)
      (hsize : parseUint64Hex (p.line.takeWhile fun c => c ≠ 0x3B && !isOws c) = some v) :
      LineDone S p rest n (.inl ({ p with
        chunkExcess := excess
        contentLength := v
        line := []
        state := if v = 0 then .bodyChunkTrailers else .bodyChunkData }, rest))
  | crlf (hstate : p.state = .bodyChunkCrlf) (hline : p.line = []) : LineDone S p rest n (.inl ({ p with state := .bodyChunkSize }, rest))
  | trailer {name value : List UInt8} (hstate : p.state = .bodyChunkTrailers) (hline : p.line ≠ [])
      (hsplit : splitHeader p.line = .ok (name, value)) (hanswer : S.callback p.log (.trailer name value) = 0) :
      LineDone S p rest n (.inl ({ ({ p with log := p.log ++ [⟨.trailer name value, 0⟩] } : Parser).countHeader (p.line.length + 2) with
        line := [] }, rest))
  | trailersEnd {out : Errno × Parser} (hstate : p.state = .bodyChunkTrailers) (hline : p.line = [])
      (h : Completed S { p with finishState := .finishSafe } n out) : LineDone S p rest n (.inr out)

/-! ## Failures -/

theorem failed_fail (reason : String) : Failed p (p.fail reason) :=
  ⟨.inl rfl, rfl, [], (append_nil _).symm, Nat.zero_le _⟩

theorem failed_of_log (h : p'.log = p.log) : Failed p p'.failAlreadySet :=
  ⟨.inl rfl, rfl, [], h.trans (append_nil _).symm, Nat.zero_le _⟩

theorem failed_of_call {c : Call} (h : p'.log = p.log ++ [c]) : Failed p p'.userError :=
  ⟨.inr rfl, rfl, [c], h, by
    rw [countP_singleton]
    split <;> omega⟩

theorem Failed.of_log {p₁ : Parser} {out : Errno × Parser} (h : Failed p₁ out) (hlog : p₁.log = p.log) : Failed p out :=
  ⟨h.result, h.dead, hlog ▸ h.calls⟩

theorem completed_of (S : Settings) (p : Parser) (n : Nat) : Completed S p n (p.completeMessage S n) := by
  simp only [completeMessage]
  split
  · exact .failed (failed_of_call (c := ⟨.messageComplete, _⟩) rfl)
  · rename_i hzero
    have hanswer : S.callback p.log .messageComplete = 0 := by
      by_contra hne
      exact hzero hne
    simp only [call, hanswer]
    exact .done hanswer

theorem entered_of (S : Settings) (p : Parser) (hint : Int) (rest : List UInt8) (n : Nat) :
    Entered S p hint rest n (p.enterBody S hint rest n) := by
  have hdone := completed_of S { p with finishState := .finishSafe } n
  simp only [enterBody]
  split
  · exact .failed (failed_fail _)
  · rename_i hclear
    split
    · rename_i hno
      exact .empty (.inl hno) (.inl hno) hdone
    · rename_i hbody
      have hbody : p.noBody hint = false := by simpa using hbody
      have hclear : ¬(p.flags.transferEncoding = true ∧ p.flags.chunked = false ∧ p.flags.contentLength = true) := by
        simpa [hbody, and_assoc] using hclear
      split
      · rename_i hchunked
        split
        · exact .diverted hbody ‹_› (.inl ⟨rfl, hchunked⟩) hclear
        · exact .body hbody (.inl ⟨rfl, hchunked⟩) hclear
      · rename_i hchunked
        have hchunked : p.flags.chunked = false := by simpa using hchunked
        split
        · rename_i hlength
          split
          · rename_i hzero
            exact .empty (.inr (.inl ⟨hchunked, hlength, hzero⟩)) (.inr hclear) hdone
          · rename_i hzero
            split
            · exact .diverted hbody ‹_› (.inr ⟨rfl, hchunked, hlength, hzero⟩) hclear
            · exact .body hbody (.inr ⟨rfl, hchunked, hlength, hzero⟩) hclear
        · rename_i hlength
          have hlength : p.flags.contentLength = false := by simpa using hlength
          split
          · rename_i htype
            exact .empty (.inr (.inr ⟨hchunked, hlength, htype⟩)) (.inr hclear) hdone
          · rename_i htype
            refine .eof hbody hchunked hlength ?_
            cases ht : p.type with
            | request => exact absurd ht htype
            | response => rfl

/-! ## Lines -/

theorem parseHttpVersion_frame (t : List UInt8) :
    ∃ reason major minor, (p.parseHttpVersion t).2 = { p with reason := reason, httpMajor := major, httpMinor := minor } := by
  simp only [parseHttpVersion]
  split
  · exact ⟨_, p.httpMajor, p.httpMinor, rfl⟩
  · split
    · exact ⟨_, p.httpMajor, p.httpMinor, rfl⟩
    · split
      · exact ⟨_, _, p.httpMinor, rfl⟩
      · exact ⟨p.reason, _, _, rfl⟩

theorem parseStatusLine_frame :
    ∃ reason major minor status, p.parseStatusLine.2 =
      { p with reason := reason, httpMajor := major, httpMinor := minor, statusCode := status } := by
  have hstatus : ∀ (p : Parser) (t : List UInt8), ∃ reason status,
      (p.parseStatus t).2 = { p with reason := reason, statusCode := status } := by
    intro p t
    cases t with
    | nil => exact ⟨_, p.statusCode, rfl⟩
    | cons c t =>
      simp only [parseStatus]
      split
      · exact ⟨_, p.statusCode, rfl⟩
      · split
        · exact ⟨_, p.statusCode, rfl⟩
        · split
          · exact ⟨p.reason, _, rfl⟩
          · split
            · exact ⟨_, _, rfl⟩
            · split
              · exact ⟨_, _, rfl⟩
              · exact ⟨p.reason, _, rfl⟩
  obtain ⟨reason, major, minor, hversion⟩ := parseHttpVersion_frame (p := p) p.line
  rw [parseStatusLine]
  generalize p.parseHttpVersion p.line = r at hversion
  obtain ⟨ok, p₁⟩ := r
  dsimp only at hversion
  cases ok with
  | false => exact ⟨reason, major, minor, p.statusCode, hversion⟩
  | true =>
    obtain ⟨reason', status, h⟩ := hstatus p₁ (p₁.line.drop 8)
    refine ⟨reason', major, minor, status, ?_⟩
    dsimp only
    rw [h, hversion]

theorem parseRequestLine_log :
    (p.parseRequestLine S).2.log = p.log ∧ (p.parseRequestLine S).1 = .error ∨
    ∃ c, (p.parseRequestLine S).2.log = p.log ++ [c] ∧ (p.parseRequestLine S).1 ≠ .error := by
  simp only [parseRequestLine]
  split
  · exact .inl ⟨rfl, rfl⟩
  · split
    · exact .inl ⟨rfl, rfl⟩
    · split
      · exact .inl ⟨rfl, rfl⟩
      · split
        · exact .inl ⟨rfl, rfl⟩
        · generalize hv : (p.line.drop ((p.line.takeWhile _).length + 1)).drop _ = version
          obtain ⟨reason, major, minor, hversion⟩ := parseHttpVersion_frame (p := p) version
          generalize p.parseHttpVersion version = r at hversion
          obtain ⟨ok, p₁⟩ := r
          dsimp only at hversion
          have hlog : p₁.log = p.log := by rw [hversion]
          cases ok with
          | false => exact .inl ⟨hlog, rfl⟩
          | true =>
            dsimp only
            split
            · exact .inl ⟨hlog, rfl⟩
            · refine .inr ⟨_, congrArg (· ++ _) hlog, ?_⟩
              split <;> simp

theorem interpretHeader_frame (name value : List UInt8) :
    ∃ flags length hosts, (p.interpretHeader name value).2 = { p with flags := flags, contentLength := length, hostCount := hosts } := by
  simp only [interpretHeader]
  split
  · simp only [processContentLength]
    split
    · exact ⟨p.flags, p.contentLength, p.hostCount, rfl⟩
    · split
      · exact ⟨p.flags, p.contentLength, p.hostCount, rfl⟩
      · exact ⟨_, _, p.hostCount, rfl⟩
  · split
    · simp only [processTransferEncoding]
      split
      · exact ⟨_, p.contentLength, p.hostCount, rfl⟩
      · split
        · exact ⟨_, p.contentLength, p.hostCount, rfl⟩
        · exact ⟨_, p.contentLength, p.hostCount, rfl⟩
    · split
      · simp only [processHost]
        split
        · exact ⟨p.flags, p.contentLength, _, rfl⟩
        · exact ⟨p.flags, p.contentLength, _, rfl⟩
      · split
        · exact ⟨_, p.contentLength, p.hostCount, rfl⟩
        · split
          · simp only [processExpect]
            split
            · exact ⟨_, p.contentLength, p.hostCount, rfl⟩
            · exact ⟨p.flags, p.contentLength, p.hostCount, rfl⟩
          · exact ⟨p.flags, p.contentLength, p.hostCount, rfl⟩

inductive Interpreted (p : Parser) (name value : List UInt8) : Bool → Parser → Event → Prop
  | trailer : Interpreted p name value true p (.trailer name value)
  | header {p₁ : Parser} (h : p.interpretHeader name value = (none, p₁))
      (hboth : ¬(p₁.flags.contentLength = true ∧ p₁.flags.chunked = true)) : Interpreted p name value false p₁ (.header name value)

theorem Interpreted.log {name value : List UInt8} {isTrailer : Bool} {p₁ : Parser} {e : Event}
    (h : Interpreted p name value isTrailer p₁ e) : p₁.log = p.log := by
  cases h with
  | trailer => rfl
  | header h _ =>
    obtain ⟨flags, length, hosts, hframe⟩ := interpretHeader_frame (p := p) name value
    rw [h] at hframe
    have hlog : p₁.log = _ := congrArg Parser.log hframe
    exact hlog

theorem processHeaderLine_cases (S : Settings) (p : Parser) (isTrailer : Bool) :
    (∃ p', p.processHeaderLine S isTrailer = (.error, p') ∧ p'.log = p.log) ∨
    ∃ name value p₁ e, splitHeader p.line = .ok (name, value) ∧ Interpreted p name value isTrailer p₁ e ∧
      p.processHeaderLine S isTrailer = p₁.reportHeader S e (p.line.length + 2) := by
  simp only [processHeaderLine]
  split
  · exact .inl ⟨_, rfl, rfl⟩
  · split
    · exact .inl ⟨_, rfl, rfl⟩
    · cases hsplit : splitHeader p.line with
      | error reason => exact .inl ⟨_, rfl, rfl⟩
      | ok field =>
        obtain ⟨name, value⟩ := field
        cases isTrailer with
        | true => exact .inr ⟨name, value, p, _, rfl, .trailer, rfl⟩
        | false =>
          obtain ⟨flags, length, hosts, hframe⟩ := interpretHeader_frame (p := p) name value
          cases hint : p.interpretHeader name value with
          | mk defect p₁ =>
            rw [hint] at hframe
            have hlog : p₁.log = _ := congrArg Parser.log hframe
            simp only [Bool.false_eq_true, if_false, hint]
            cases defect with
            | some reason => exact .inl ⟨_, rfl, hlog⟩
            | none =>
              dsimp only
              split
              · exact .inl ⟨_, rfl, hlog⟩
              · rename_i hboth
                refine .inr ⟨name, value, p₁, _, rfl, .header hint ?_, rfl⟩
                simpa using hboth

theorem headerReady_cases (S : Settings) (p : Parser) (isTrailer : Bool) (rest : List UInt8) :
    (∃ out, p.headerReady S isTrailer rest = .inr out ∧ Failed p out) ∨
    ∃ name value p₁ e, splitHeader p.line = .ok (name, value) ∧ Interpreted p name value isTrailer p₁ e ∧
      S.callback p₁.log e = 0 ∧
      p.headerReady S isTrailer rest =
        .inl ({ ({ p₁ with log := p₁.log ++ [⟨e, 0⟩] } : Parser).countHeader (p.line.length + 2) with line := [] }, rest) := by
  rw [headerReady]
  rcases processHeaderLine_cases S p isTrailer with ⟨p', hrun, hlog⟩ | ⟨name, value, p₁, e, hsplit, hinterpreted, hrun⟩
  · rw [hrun]
    exact .inl ⟨_, rfl, failed_of_log hlog⟩
  · rw [hrun]
    by_cases hzero : S.callback p₁.log e = 0
    · refine .inr ⟨name, value, p₁, e, hsplit, hinterpreted, hzero, ?_⟩
      simp only [reportHeader, call, hzero, if_true]
    · have hlog : (p₁.call S e).2.log = p.log ++ [⟨e, S.callback p₁.log e⟩] := by
        rw [← hinterpreted.log]
        rfl
      refine .inl ⟨_, ?_, failed_of_call hlog⟩
      simp only [reportHeader, call, hzero, if_false]

theorem parseChunkSizeLine_cases (p : Parser) :
    (∃ p', p.parseChunkSizeLine = (false, p') ∧ p'.log = p.log) ∨
    ∃ v excess, parseUint64Hex (p.line.takeWhile fun c => c ≠ 0x3B && !isOws c) = some v ∧
      p.parseChunkSizeLine = (true, { p with chunkExcess := excess, contentLength := v }) := by
  simp only [parseChunkSizeLine]
  cases parseUint64Hex (p.line.takeWhile fun c => c ≠ 0x3B && !isOws c) with
  | none => exact .inl ⟨_, rfl, rfl⟩
  | some v =>
    dsimp only
    split
    · exact .inl ⟨_, rfl, rfl⟩
    · split
      · exact .inl ⟨_, rfl, rfl⟩
      · split
        · exact .inl ⟨_, rfl, rfl⟩
        · exact .inr ⟨v, _, rfl, rfl⟩

theorem lineDone_first (hstate : p.state = .firstLine) : LineDone S p rest n (p.firstLineReady S rest) := by
  simp only [firstLineReady]
  split
  · rename_i hblank
    simp only [Bool.and_eq_true, decide_eq_true_eq] at hblank
    split
    · exact .failed ((failed_fail _).of_log rfl)
    · exact .blank hstate hblank.1 hblank.2
  · rename_i hblank
    split
    · exact .failed (failed_fail _)
    · generalize sizeAdd p.totalHeaderBytes (p.line.length + 2) = total
      simp only [parseFirstLine]
      cases htype : p.type with
      | request =>
        have hline : p.line ≠ [] := by
          intro hnil
          simp [htype, hnil] at hblank
        have hlog := parseRequestLine_log (S := S) (p := { p with totalHeaderBytes := total })
        cases hrun : ({ p with totalHeaderBytes := total } : Parser).parseRequestLine S with
        | mk r p₁ =>
          simp only [htype] at hrun hlog
          rw [hrun] at hlog
          simp only [hrun]
          cases r with
          | error =>
            rcases hlog with ⟨hlog, -⟩ | ⟨c, -, hne⟩
            · exact .failed (failed_of_log hlog)
            · exact absurd rfl hne
          | user =>
            rcases hlog with ⟨-, hne⟩ | ⟨c, hlog, -⟩
            · cases hne
            · exact .failed (failed_of_call hlog)
          | ok =>
            have hparsed : ({ p with totalHeaderBytes := total } : Parser).parseRequestLine S = (.ok, p₁) := by
              simp only [htype]
              exact hrun
            exact .request hstate htype hline hparsed
      | response =>
        obtain ⟨reason, major, minor, status, hframe⟩ := parseStatusLine_frame (p := { p with totalHeaderBytes := total })
        cases hrun : ({ p with totalHeaderBytes := total } : Parser).parseStatusLine with
        | mk r p₁ =>
          rw [hrun] at hframe
          simp only [htype] at hrun hframe
          simp only [hrun]
          cases r with
          | false =>
            have hlog : p₁.log = p.log := by rw [hframe]
            exact .failed (failed_of_log hlog)
          | true =>
            have hparsed : ({ p with totalHeaderBytes := total } : Parser).parseStatusLine = (true, p₁) := by
              simp only [htype]
              exact hrun
            exact .status hstate htype hparsed

theorem headersAnswered_cases {hint : Int} :
    p.headersAnswered S hint rest n = .inr p.userError ∨ p.headersAnswered S hint rest n = p.enterBody S hint rest n := by
  rw [headersAnswered]
  split
  · exact .inl rfl
  · exact .inr rfl

theorem lineDone_headersEnd (hstate : p.state = .headers) (hline : p.line = []) : LineDone S p rest n (p.headersEnd S rest n) := by
  rw [headersEnd]
  split
  · exact .failed (failed_fail _)
  · rename_i hdefect
    have hrequest : p.type = .request → p.requestDefect = none := by
      intro htype
      rw [if_pos htype] at hdefect
      exact hdefect
    rw [reportHeaders]
    rcases headersAnswered_cases with hrun | hrun
    · rw [hrun]
      exact .failed (failed_of_call (c := ⟨.headersComplete p.statusCode p.httpMajor p.httpMinor, _⟩) rfl)
    · rw [hrun]
      exact .headersEnd hstate hline hrequest rfl (entered_of S _ _ rest n)

theorem lineDone_of (h : p.state.isLine = true) : LineDone S p rest n (p.lineReady S rest n) := by
  rw [lineReady]
  cases hstate : p.state with
  | firstLine => exact lineDone_first hstate
  | headers =>
    dsimp only
    split
    · exact lineDone_headersEnd hstate ‹_›
    · rename_i hline
      rcases headerReady_cases S p false rest with ⟨out, hrun, hfail⟩ | ⟨name, value, p₁, e, hsplit, hinterpreted, hzero, hrun⟩
      · rw [hrun]
        exact .failed hfail
      · rw [hrun]
        cases hinterpreted with
        | header hint hboth => exact .header hstate hline hsplit hint hboth hzero
  | bodyChunkSize =>
    simp only [chunkSizeReady]
    rcases parseChunkSizeLine_cases p with ⟨p', hrun, hlog⟩ | ⟨v, excess, hsize, hrun⟩
    · rw [hrun]
      exact .failed (failed_of_log hlog)
    · rw [hrun]
      exact .chunkSize hstate hsize
  | bodyChunkCrlf =>
    dsimp only
    split
    · exact .crlf hstate ‹_›
    · exact .failed (failed_fail _)
  | bodyChunkTrailers =>
    dsimp only
    split
    · exact .trailersEnd hstate ‹_› (completed_of S _ n)
    · rename_i hline
      rcases headerReady_cases S p true rest with ⟨out, hrun, hfail⟩ | ⟨name, value, p₁, e, hsplit, hinterpreted, hzero, hrun⟩
      · rw [hrun]
        exact .failed hfail
      · rw [hrun]
        cases hinterpreted with
        | trailer => exact .trailer hstate hline hsplit hzero
  | _ => simp [hstate, State.isLine] at h

/-! ## Reading a line -/

theorem appendByte_frame (c : UInt8) : ∃ line, (p.appendByte c).2 = { p with line := line } := by
  simp only [appendByte]
  split
  · split
    · exact ⟨_, rfl⟩
    · exact ⟨_, rfl⟩
  · exact ⟨_, rfl⟩

theorem pushByte_frame (budget : Nat) (c : UInt8) :
    ∃ line spill, (p.pushByte budget c).2 = { p with line := line, lineSpill := spill } := by
  simp only [pushByte]
  split
  · obtain ⟨line, h⟩ := appendByte_frame (p := p) c
    exact ⟨line, p.lineSpill, h⟩
  · split
    · exact ⟨p.line, p.lineSpill, rfl⟩
    · simp only [lineSpillGrow]
      split
      · exact ⟨p.line, p.lineSpill, rfl⟩
      · rename_i p₁ hgrow
        split at hgrow
        · cases hgrow
        · split at hgrow
          · cases hgrow
          · split at hgrow
            · cases hgrow
              split
              · obtain ⟨line, h⟩ := appendByte_frame (p := { p with lineSpill := true }) c
                exact ⟨line, true, h⟩
              · exact ⟨p.line, true, rfl⟩
            · cases hgrow

theorem accumulateLine_frame (budget : Nat) (data : List UInt8) :
    ∃ line spill, (p.accumulateLine budget data).2.1 = { p with line := line, lineSpill := spill } := by
  induction data generalizing p with
  | nil => exact ⟨p.line, p.lineSpill, rfl⟩
  | cons c data ih =>
    obtain ⟨line, spill, hframe⟩ := pushByte_frame (p := p) budget c
    rw [accumulateLine]
    generalize p.pushByte budget c = r at hframe
    obtain ⟨r, p₁⟩ := r
    dsimp only at hframe
    cases r with
    | needMore =>
      obtain ⟨line', spill', hrest⟩ := ih (p := p₁)
      exact ⟨line', spill', hrest.trans (by rw [hframe])⟩
    | _ => exact ⟨line, spill, hframe⟩

theorem appendByte_line {c : UInt8} {r : LineResult} (h : p.appendByte c = (r, p')) :
    (r = .needMore → p'.line = p.line ++ [c]) ∧ (r = .ready → p.line ++ [c] = p'.line ++ [0x0D, 0x0A]) := by
  simp only [appendByte] at h
  split at h
  · rename_i hc
    split at h
    · rename_i hcr
      cases h
      refine ⟨nofun, fun _ => ?_⟩
      have hlast := dropLast_append_getLast? 0x0D hcr
      rw [hc]
      nth_rewrite 1 [← hlast]
      simp
    · cases h
      exact ⟨nofun, nofun⟩
  · cases h
    exact ⟨fun _ => rfl, nofun⟩

theorem pushByte_line {budget : Nat} {c : UInt8} {r : LineResult} (h : p.pushByte budget c = (r, p')) :
    (r = .needMore → p'.line = p.line ++ [c]) ∧ (r = .ready → p.line ++ [c] = p'.line ++ [0x0D, 0x0A]) := by
  have hlong : ∀ {p₁ : Parser}, (LineResult.tooLong, p₁) = (r, p') →
      (r = .needMore → p'.line = p.line ++ [c]) ∧ (r = .ready → p.line ++ [c] = p'.line ++ [0x0D, 0x0A]) := by
    intro p₁ h
    cases h
    exact ⟨nofun, nofun⟩
  simp only [pushByte] at h
  split at h
  · exact appendByte_line h
  · split at h
    · exact hlong h
    · split at h
      · exact hlong h
      · rename_i p₁ hgrow
        have hline : p₁.line = p.line := by
          simp only [lineSpillGrow] at hgrow
          split at hgrow
          · cases hgrow
          · split at hgrow
            · cases hgrow
            · split at hgrow
              · cases hgrow
                rfl
              · cases hgrow
        split at h
        · rw [← hline]
          exact appendByte_line h
        · exact hlong h

theorem accumulateLine_line {budget : Nat} {data : List UInt8} {r : LineResult} (h : p.accumulateLine budget data = (r, p', rest)) :
    (r = .needMore → rest = [] ∧ p'.line = p.line ++ data) ∧
    (r = .ready → ∃ used, data = used ++ rest ∧ p.line ++ used = p'.line ++ [0x0D, 0x0A]) := by
  induction data generalizing p with
  | nil =>
    cases h
    exact ⟨fun _ => ⟨rfl, (append_nil _).symm⟩, by rintro ⟨⟩⟩
  | cons c data ih =>
    rw [accumulateLine] at h
    split at h
    · rename_i p₁ hpush
      have hline : p₁.line = p.line ++ [c] := (pushByte_line hpush).1 rfl
      obtain ⟨hmore, hready⟩ := ih h
      rw [hline] at hmore hready
      refine ⟨fun hr => ⟨(hmore hr).1, by simpa using (hmore hr).2⟩, fun hr => ?_⟩
      obtain ⟨used, hused, hend⟩ := hready hr
      exact ⟨c :: used, congrArg (c :: ·) hused, by simpa using hend⟩
    · cases h
      exact ⟨by rintro ⟨⟩, by rintro ⟨⟩⟩
    · rename_i hnot _ hpush
      cases h
      exact ⟨fun hr => absurd hr hnot, fun hr => ⟨[c], rfl, (pushByte_line hpush).2 hr⟩⟩

/-! ## One round of the loop -/

theorem step_isLine (h : p.state.isLine = true) (len : Nat) (c : UInt8) (data : List UInt8) :
    step S len (p, c :: data) = p.lineStep S len (c :: data) := by
  rw [step]
  cases hstate : p.state with
  | firstLine => rfl
  | headers => rfl
  | bodyChunkSize => rfl
  | bodyChunkCrlf => rfl
  | bodyChunkTrailers => rfl
  | _ => rw [hstate] at h; cases h


structure Live (p : Parser) : Prop where
  alive : p.state ≠ .dead ∧ p.state ≠ .messageDone
  counted : p.state.isCounted = true → 0 < p.contentLength

theorem takeBody_ok (hok : S.callback p.log (.body data) = 0) :
    p.takeBody S data = .inl { p with log := p.log ++ [⟨.body data, 0⟩] } := by
  simp [takeBody, call, hok]

theorem takeBody_error (herr : S.callback p.log (.body data) ≠ 0) :
    p.takeBody S data = .inr (userError { p with log := p.log ++ [⟨.body data, S.callback p.log (.body data)⟩] }) := by
  simp [takeBody, call, herr]

theorem countedStep_ok (len : Nat) (hpos : 0 < min data.length p.contentLength)
    (hok : S.callback p.log (.body (data.take (min data.length p.contentLength))) = 0) :
    p.countedStep S len data =
      countedEnd S { p with
          contentLength := p.contentLength - min data.length p.contentLength
          log := p.log ++ [⟨.body (data.take (min data.length p.contentLength)), 0⟩] }
        (data.drop (min data.length p.contentLength)) (len - (data.drop (min data.length p.contentLength)).length) := by
  simp only [countedStep]
  rw [if_pos hpos, takeBody_ok hok]

theorem countedStep_error (len : Nat) (hpos : 0 < min data.length p.contentLength)
    (herr : S.callback p.log (.body (data.take (min data.length p.contentLength))) ≠ 0) :
    p.countedStep S len data =
      .inr (userError { p with
        log := p.log ++ [⟨.body (data.take (min data.length p.contentLength)),
          S.callback p.log (.body (data.take (min data.length p.contentLength)))⟩] }) := by
  simp only [countedStep]
  rw [if_pos hpos, takeBody_error herr]

/-- What one round of the loop of `chttp1_parser_execute` comes to, for a slice of `len` bytes. -/
inductive StepDone (S : Settings) (len : Nat) (p : Parser) (data : List UInt8) : Stepped → Prop
  | failed {out : Errno × Parser} (h : Failed p out) : StepDone S len p data (.inr out)
  | more {spill : Bool} (hline : p.state.isLine = true) :
      StepDone S len p data (.inl ({ p with line := p.line ++ data, lineSpill := spill }, []))
  | line {line used rest : List UInt8} {spill : Bool} {s : Stepped} (hline : p.state.isLine = true) (hused : data = used ++ rest)
      (hend : p.line ++ used = line ++ [0x0D, 0x0A])
      (h : LineDone S { p with line := line, lineSpill := spill } rest (len - rest.length) s) : StepDone S len p data s
  | counted {bytes rest : List UInt8} (hcounted : p.state.isCounted = true) (hused : data = bytes ++ rest) (hne : bytes ≠ [])
      (hle : bytes.length ≤ p.contentLength) (hrest : rest ≠ [] → bytes.length = p.contentLength)
      (hanswer : S.callback p.log (.body bytes) = 0) :
      StepDone S len p data (({ p with
        contentLength := p.contentLength - bytes.length
        log := p.log ++ [⟨.body bytes, 0⟩] } : Parser).countedEnd S rest (len - rest.length))
  | eof (hstate : p.state = .bodyEof) (hanswer : S.callback p.log (.body data) = 0) :
      StepDone S len p data (.inl ({ p with log := p.log ++ [⟨.body data, 0⟩] }, []))

theorem stepDone_line {len : Nat} {data : List UInt8} (hline : p.state.isLine = true) :
    StepDone S len p data (p.lineStep S len data) := by
  obtain ⟨line, spill, hframe⟩ := accumulateLine_frame (p := p) p.stateSpillBudget data
  rw [lineStep]
  cases hrun : p.accumulateLine p.stateSpillBudget data with
  | mk r out =>
    obtain ⟨p₁, rest⟩ := out
    rw [hrun] at hframe
    dsimp only at hframe
    obtain ⟨hmore, hready⟩ := accumulateLine_line hrun
    have hlog : p₁.log = p.log := by rw [hframe]
    cases r with
    | needMore =>
      obtain ⟨rfl, hgrown⟩ := hmore rfl
      rw [hframe] at hgrown
      dsimp only at hgrown
      rw [hframe, hgrown]
      exact .more hline
    | tooLong => exact .failed ((failed_fail _).of_log hlog)
    | badEol => exact .failed ((failed_fail _).of_log hlog)
    | ready =>
      obtain ⟨used, hused, hend⟩ := hready rfl
      have hdone : LineDone S p₁ rest (len - rest.length) (p₁.lineReady S rest (len - rest.length)) :=
        lineDone_of (by rw [hframe]; exact hline)
      rw [hframe] at hdone hend
      rw [hframe]
      exact .line hline hused hend hdone

theorem stepDone_counted {len : Nat} {data : List UInt8} (hcounted : p.state.isCounted = true) (hpos : 0 < p.contentLength)
    (hne : data ≠ []) : StepDone S len p data (p.countedStep S len data) := by
  generalize htake : min data.length p.contentLength = take
  have hlen : 0 < data.length := length_pos_of_ne_nil hne
  have hboth : 0 < min data.length p.contentLength := by omega
  have htook : (data.take take).length = take := by
    rw [length_take]
    omega
  by_cases hok : S.callback p.log (.body (data.take take)) = 0
  · have hstep := countedStep_ok (S := S) len hboth (by rw [htake]; exact hok)
    have hdone : StepDone S len p data _ := .counted hcounted (take_append_drop take data).symm
      (by intro hnil; simp only [hnil, length_nil] at htook; omega) (by omega)
      (by intro hrest; have := length_pos_of_ne_nil hrest; rw [length_drop] at this; omega) hok
    rw [htook] at hdone
    rw [hstep, htake]
    exact hdone
  · rw [countedStep_error (S := S) len hboth (by rw [htake]; exact hok)]
    exact .failed (failed_of_call rfl)

theorem stepDone_of {len : Nat} {data : List UInt8} (hlive : Live p) (hne : data ≠ []) :
    StepDone S len p data (step S len (p, data)) := by
  obtain ⟨c, rest, rfl⟩ := exists_cons_of_ne_nil hne
  rw [step]
  cases hstate : p.state with
  | firstLine => exact stepDone_line (by rw [hstate]; rfl)
  | headers => exact stepDone_line (by rw [hstate]; rfl)
  | bodyChunkSize => exact stepDone_line (by rw [hstate]; rfl)
  | bodyChunkCrlf => exact stepDone_line (by rw [hstate]; rfl)
  | bodyChunkTrailers => exact stepDone_line (by rw [hstate]; rfl)
  | bodyContentLength =>
    have hcounted : p.state.isCounted = true := by rw [hstate]; rfl
    exact stepDone_counted hcounted (hlive.counted hcounted) hne
  | bodyChunkData =>
    have hcounted : p.state.isCounted = true := by rw [hstate]; rfl
    exact stepDone_counted hcounted (hlive.counted hcounted) hne
  | bodyEof =>
    dsimp only
    by_cases hok : S.callback p.log (.body (c :: rest)) = 0
    · rw [takeBody_ok hok]
      exact .eof hstate hok
    · rw [takeBody_error hok]
      exact .failed (failed_of_call rfl)
  | messageDone => exact absurd hstate hlive.alive.2
  | dead => exact absurd hstate hlive.alive.1

end Parser

end Ccollections.Chttp1
