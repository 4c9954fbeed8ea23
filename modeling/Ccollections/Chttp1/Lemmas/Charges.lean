import Ccollections.Chttp1.Limits

/-!
# What a line is charged
-/

namespace Ccollections.Chttp1
open Lib

theorem fieldEvents_append (log log' : List Call) : fieldEvents (log ++ log') = fieldEvents log + fieldEvents log' :=
  List.countP_append

structure Account where
  total : Nat
  count : Nat
  excess : Nat
  fields : Nat
  maxBytes : Nat
  maxCount : Nat

namespace Parser

def account (p : Parser) : Account where
  total := p.totalHeaderBytes
  count := p.headerCount
  excess := p.chunkExcess
  fields := fieldEvents p.log
  maxBytes := p.effectiveMaxTotalHeaderBytes
  maxCount := p.effectiveMaxHeaderCount

def next (out : Stepped) : Parser := out.elim Prod.fst Prod.snd

variable {S : Settings} {p p' : Parser} {rest : List UInt8} {n : Nat}

/-! ## Operations that charge nothing -/

theorem call_account {e : Event} (he : fieldEvents [⟨e, S.callback p.log e⟩] = 0) : (p.call S e).2.account = p.account := by
  have hlog : fieldEvents (p.call S e).2.log = fieldEvents p.log := by
    show fieldEvents (p.log ++ _) = _
    rw [fieldEvents_append, he, Nat.add_zero]
  rw [account, account, hlog]
  rfl

theorem completeMessage_account (S : Settings) (p : Parser) (n : Nat) : (p.completeMessage S n).2.account = p.account := by
  have hcall := call_account (S := S) (p := p) (e := .messageComplete) rfl
  simp only [completeMessage]
  split
  · exact hcall
  · exact hcall

theorem enterBody_account (S : Settings) (p : Parser) (hint : Int) (rest : List UInt8) (n : Nat) :
    (next (p.enterBody S hint rest n)).account = p.account := by
  have hdone := completeMessage_account S { p with finishState := .finishSafe } n
  simp only [enterBody]
  split
  · rfl
  · split
    · exact hdone
    · split
      · split <;> rfl
      · split
        · split
          · exact hdone
          · split <;> rfl
        · split
          · exact hdone
          · rfl

theorem headersEnd_account (S : Settings) (p : Parser) (rest : List UInt8) (n : Nat) :
    (next (p.headersEnd S rest n)).account = p.account := by
  simp only [headersEnd]
  split
  · rfl
  · have hcall := call_account (S := S) (p := { p with flags := { p.flags with headersDone := true } })
      (e := .headersComplete p.statusCode p.httpMajor p.httpMinor) rfl
    rw [reportHeaders]
    rcases headersAnswered_cases with hrun | hrun
    · rw [hrun]
      exact hcall
    · rw [hrun]
      exact (enterBody_account S _ _ rest n).trans hcall

theorem parseStatusLine_account : p.parseStatusLine.2.account = p.account := by
  obtain ⟨reason, major, minor, status, h⟩ := parseStatusLine_frame (p := p)
  rw [h]
  rfl

theorem parseRequestLine_account : (p.parseRequestLine S).2.account = p.account := by
  simp only [parseRequestLine]
  split
  · rfl
  · split
    · rfl
    · split
      · rfl
      · split
        · rfl
        · generalize (p.line.drop ((p.line.takeWhile _).length + 1)).drop _ = version
          obtain ⟨reason, major, minor, hversion⟩ := parseHttpVersion_frame (p := p) version
          generalize p.parseHttpVersion version = r at hversion
          obtain ⟨ok, p₁⟩ := r
          dsimp only at hversion
          have hsame : p₁.account = p.account := by
            rw [hversion]
            rfl
          cases ok with
          | false => exact hsame
          | true =>
            dsimp only
            split
            · exact hsame
            · exact (call_account rfl).trans hsame

theorem parseFirstLine_account (S : Settings) (p : Parser) (rest : List UInt8) :
    (next (p.parseFirstLine S rest)).account = p.account ∧
      (accepts (p.parseFirstLine S rest) = false → (next (p.parseFirstLine S rest)).state = .dead) := by
  simp only [parseFirstLine]
  cases p.type with
  | request =>
    have haccount := parseRequestLine_account (S := S) (p := p)
    dsimp only
    generalize p.parseRequestLine S = r at haccount
    obtain ⟨r, p₁⟩ := r
    cases r with
    | error => exact ⟨haccount, fun _ => rfl⟩
    | user => exact ⟨haccount, fun _ => rfl⟩
    | ok => exact ⟨haccount, by rintro ⟨⟩⟩
  | response =>
    have haccount := parseStatusLine_account (p := p)
    dsimp only
    generalize p.parseStatusLine = r at haccount
    obtain ⟨r, p₁⟩ := r
    cases r with
    | false => exact ⟨haccount, fun _ => rfl⟩
    | true => exact ⟨haccount, by rintro ⟨⟩⟩

/-! ## Lines -/

def Free (l : Line) : Prop := l.headerBytes = 0 ∧ l.framing = 0 ∧ l.allowance = 0

inductive Charged (p : Parser) (out : Stepped) : Prop
  | same (h : (next out).account = p.account) (hfree : accepts out = false ∨ Free ⟨p.state, p.line⟩)
  | first (hstate : p.state = .firstLine) (hcap : sizeAdd p.totalHeaderBytes (p.line.length + 2) ≤ p.effectiveMaxTotalHeaderBytes)
      (h : (next out).account = { p.account with total := sizeAdd p.totalHeaderBytes (p.line.length + 2) })
      (hline : accepts out = true → p.line ≠ []) (hdead : accepts out = false → (next out).state = .dead)
  | field (hstate : p.state = .headers ∨ p.state = .bodyChunkTrailers) (hline : p.line ≠ []) (haccepts : accepts out = true)
      (hcap : sizeAdd p.totalHeaderBytes (p.line.length + 2) ≤ p.effectiveMaxTotalHeaderBytes)
      (hcount : sizeAdd p.headerCount 1 ≤ p.effectiveMaxHeaderCount)
      (h : (next out).account = { p.account with
        total := sizeAdd p.totalHeaderBytes (p.line.length + 2)
        count := sizeAdd p.headerCount 1
        fields := fieldEvents p.log + 1 })
  | refused (haccepts : accepts out = false) (hdead : (next out).state = .dead)
      (hcount : sizeAdd p.headerCount 1 ≤ p.effectiveMaxHeaderCount)
      (h : (next out).account = { p.account with fields := fieldEvents p.log + 1 })
  | chunk (hstate : p.state = .bodyChunkSize) (haccepts : accepts out = true)
      (hexcess : p.chunkExcess + p.line.length + 4 - chunkEarned (Line.chunkSize ⟨p.state, p.line⟩) ≤ chttp1MaxChunkOverheadExcess)
      (h : (next out).account = { p.account with
        excess := p.chunkExcess + p.line.length + 4 - chunkEarned (Line.chunkSize ⟨p.state, p.line⟩) })

theorem charged_first (hstate : p.state = .firstLine) : Charged p (p.firstLineReady S rest) := by
  simp only [firstLineReady]
  split
  · rename_i hblank
    simp only [Bool.and_eq_true, decide_eq_true_eq] at hblank
    have hfree : Free ⟨p.state, p.line⟩ := by
      rw [hstate, hblank.2]
      exact ⟨rfl, rfl, rfl⟩
    split
    · exact .same rfl (.inr hfree)
    · exact .same rfl (.inr hfree)
  · rename_i hblank
    split
    · exact .same rfl (.inl rfl)
    · rename_i hcap
      obtain ⟨haccount, hdead⟩ := parseFirstLine_account S
        { p with totalHeaderBytes := sizeAdd p.totalHeaderBytes (p.line.length + 2) } rest
      refine .first hstate (Nat.not_lt.mp hcap) haccount ?_ hdead
      intro haccepts hnil
      cases htype : p.type with
      | request => simp [htype, hnil] at hblank
      | response => simp [parseFirstLine, htype, parseStatusLine, parseHttpVersion, hnil, accepts, failAlreadySet] at haccepts

theorem interpretHeader_account (name value : List UInt8) : (p.interpretHeader name value).2.account = p.account := by
  obtain ⟨flags, length, hosts, h⟩ := interpretHeader_frame (p := p) name value
  rw [h]
  rfl

theorem charged_report {p₁ : Parser} {e : Event} (hsame : p₁.account = p.account) (he : fieldEvents [⟨e, S.callback p₁.log e⟩] = 1)
    (hstate : p.state = .headers ∨ p.state = .bodyChunkTrailers) (hline : p.line ≠ [])
    (hcap : sizeAdd p.totalHeaderBytes (p.line.length + 2) ≤ p.effectiveMaxTotalHeaderBytes)
    (hcount : sizeAdd p.headerCount 1 ≤ p.effectiveMaxHeaderCount) :
    Charged p (match p₁.reportHeader S e (p.line.length + 2) with
      | (.error, p) => .inr p.failAlreadySet
      | (.user, p) => .inr p.userError
      | (.ok, p) => .inl ({ p with line := [] }, rest)) := by
  have htotal : p₁.totalHeaderBytes = p.totalHeaderBytes := congrArg Account.total hsame
  have hheaders : p₁.headerCount = p.headerCount := congrArg Account.count hsame
  have hfields : fieldEvents (p₁.log ++ [⟨e, S.callback p₁.log e⟩]) = fieldEvents p.log + 1 := by
    rw [fieldEvents_append, he]
    exact congrArg (· + 1) (congrArg Account.fields hsame)
  have hexcess : p₁.chunkExcess = p.chunkExcess := congrArg Account.excess hsame
  have hbytes : p₁.effectiveMaxTotalHeaderBytes = p.effectiveMaxTotalHeaderBytes := congrArg Account.maxBytes hsame
  have hnumber : p₁.effectiveMaxHeaderCount = p.effectiveMaxHeaderCount := congrArg Account.maxCount hsame
  simp only [reportHeader]
  by_cases hzero : (p₁.call S e).1 = 0
  · rw [if_pos hzero]
    refine .field hstate hline rfl hcap hcount ?_
    show Account.mk (sizeAdd p₁.totalHeaderBytes (p.line.length + 2)) (sizeAdd p₁.headerCount 1) p₁.chunkExcess
      (fieldEvents (p₁.log ++ [⟨e, S.callback p₁.log e⟩])) p₁.effectiveMaxTotalHeaderBytes p₁.effectiveMaxHeaderCount = _
    rw [htotal, hheaders, hfields, hexcess, hbytes, hnumber]
    rfl
  · rw [if_neg hzero]
    refine .refused rfl rfl hcount ?_
    show Account.mk p₁.totalHeaderBytes p₁.headerCount p₁.chunkExcess
      (fieldEvents (p₁.log ++ [⟨e, S.callback p₁.log e⟩])) p₁.effectiveMaxTotalHeaderBytes p₁.effectiveMaxHeaderCount = _
    rw [htotal, hheaders, hfields, hexcess, hbytes, hnumber]
    rfl

theorem charged_field (isTrailer : Bool) (hstate : p.state = .headers ∨ p.state = .bodyChunkTrailers) (hline : p.line ≠ []) :
    Charged p (p.headerReady S isTrailer rest) := by
  simp only [headerReady, processHeaderLine]
  by_cases hcount : sizeAdd p.headerCount 1 > p.effectiveMaxHeaderCount
  · rw [if_pos hcount]
    exact .same rfl (.inl rfl)
  · rw [if_neg hcount]
    by_cases hcap : sizeAdd p.totalHeaderBytes (p.line.length + 2) > p.effectiveMaxTotalHeaderBytes
    · rw [if_pos hcap]
      exact .same rfl (.inl rfl)
    · rw [if_neg hcap]
      rw [Nat.not_lt] at hcount hcap
      cases splitHeader p.line with
      | error reason => exact .same rfl (.inl rfl)
      | ok field =>
        obtain ⟨name, value⟩ := field
        cases isTrailer with
        | true => exact charged_report rfl rfl hstate hline hcap hcount
        | false =>
          have hsame := interpretHeader_account (p := p) name value
          simp only [Bool.false_eq_true, if_false]
          generalize p.interpretHeader name value = r at hsame
          obtain ⟨defect, p₁⟩ := r
          cases defect with
          | some reason => exact .same hsame (.inl rfl)
          | none =>
            dsimp only
            by_cases hboth : (p₁.flags.contentLength && p₁.flags.chunked) = true
            · rw [if_pos hboth]
              exact .same hsame (.inl rfl)
            · rw [if_neg hboth]
              exact charged_report hsame rfl hstate hline hcap hcount

theorem charged_chunk (hstate : p.state = .bodyChunkSize) : Charged p (p.chunkSizeReady rest) := by
  simp only [chunkSizeReady, parseChunkSizeLine]
  cases hsize : parseUint64Hex (p.line.takeWhile fun c => c ≠ 0x3B && !isOws c) with
  | none => exact .same rfl (.inl rfl)
  | some v =>
    dsimp only
    split
    · rename_i heq
      split at heq
      · cases heq
        exact .same rfl (.inl rfl)
      · split at heq
        · cases heq
          exact .same rfl (.inl rfl)
        · split at heq
          · cases heq
            exact .same rfl (.inl rfl)
          · cases heq
    · rename_i heq
      split at heq
      · cases heq
      · split at heq
        · cases heq
        · split at heq
          · cases heq
          · rename_i hexcess
            cases heq
            have hv : Line.chunkSize ⟨p.state, p.line⟩ = v := by
              rw [Line.chunkSize, hsize]
              rfl
            refine .chunk hstate rfl ?_ ?_
            · rw [hv]
              exact Nat.not_lt.mp hexcess
            · rw [hv]
              rfl

theorem charged_line (h : p.state.isLine = true) : Charged p (p.lineReady S rest n) := by
  rw [lineReady]
  cases hstate : p.state with
  | firstLine => exact charged_first hstate
  | headers =>
    dsimp only
    split
    · rename_i hline
      refine .same (headersEnd_account S p rest n) (.inr ?_)
      rw [hstate, hline]
      exact ⟨rfl, rfl, rfl⟩
    · rename_i hline
      exact charged_field false (.inl hstate) hline
  | bodyChunkSize => exact charged_chunk hstate
  | bodyChunkCrlf =>
    have hfree : Free ⟨p.state, p.line⟩ := by
      rw [hstate]
      exact ⟨rfl, rfl, rfl⟩
    dsimp only
    split
    · exact .same rfl (.inr hfree)
    · exact .same rfl (.inr hfree)
  | bodyChunkTrailers =>
    dsimp only
    split
    · rename_i hline
      refine .same (completeMessage_account S _ n) (.inr ?_)
      rw [hstate, hline]
      exact ⟨rfl, rfl, rfl⟩
    · rename_i hline
      exact charged_field true (.inr hstate) hline
  | _ => simp [hstate, State.isLine] at h

/-! ## Lines that stay -/

theorem lineReady_line (h : p.state.isLine = true) (halive : (next (p.lineReady S rest n)).state ≠ .dead) :
    (next (p.lineReady S rest n)).line = [] := by
  have hdone := @lineDone_of S _ rest n h
  generalize p.lineReady S rest n = out at hdone halive
  have hcompleted : ∀ {q : Parser} {out : Errno × Parser}, Completed S q n out → q.line = [] → out.2.state ≠ .dead →
      out.2.line = [] := by
    intro q out hc hq hstate
    cases hc with
    | failed hf => exact absurd hf.dead hstate
    | done => exact hq
  cases hdone with
  | failed hf => exact absurd hf.dead halive
  | blank _ _ hline => exact hline
  | request => rfl
  | status => rfl
  | header => rfl
  | headersEnd _ hline _ _ hentered =>
    cases hentered with
    | failed hf => exact absurd hf.dead halive
    | empty _ _ hc => exact hcompleted hc hline halive
    | body => exact hline
    | diverted => exact hline
    | eof => exact hline
  | chunkSize => rfl
  | crlf _ hline => exact hline
  | trailer => rfl
  | trailersEnd _ hline hc => exact hcompleted hc hline halive

def kept (p : Parser) : ParserType × Bool × Bool × Nat × Nat × Nat :=
  (p.type, p.lineSpillEnabled, p.spillAlloc, p.maxHeaderCountOverride, p.maxTotalHeaderBytesOverride, p.maxChunkSizeOverride)

structure Untouched (p q : Parser) : Prop where
  account : q.account = p.account
  line : q.line = p.line
  spill : q.lineSpill = p.lineSpill
  kept : q.kept = p.kept
  state : q.state = p.state ∨ q.state = .bodyChunkCrlf ∨ q.state = .messageDone ∨ q.state = .dead

theorem Untouched.refl (p : Parser) : Untouched p p := ⟨rfl, rfl, rfl, rfl, .inl rfl⟩

theorem Untouched.trans {q r : Parser} (h : Untouched p q) (h' : Untouched q r) : Untouched p r where
  account := h'.account.trans h.account
  line := h'.line.trans h.line
  spill := h'.spill.trans h.spill
  kept := h'.kept.trans h.kept
  state := by
    rcases h'.state with hstate | hstate
    · rw [hstate]
      exact h.state
    · exact .inr hstate

theorem completeMessage_untouched (S : Settings) (p : Parser) (n : Nat) : Untouched p (p.completeMessage S n).2 := by
  have haccount := completeMessage_account S p n
  generalize hout : p.completeMessage S n = out at haccount
  simp only [completeMessage] at hout
  split at hout
  · subst hout
    exact ⟨haccount, rfl, rfl, rfl, .inr (.inr (.inr rfl))⟩
  · subst hout
    exact ⟨haccount, rfl, rfl, rfl, .inr (.inr (.inl rfl))⟩

theorem takeBody_untouched (S : Settings) (p : Parser) (data : List UInt8) :
    Untouched p ((p.takeBody S data).elim id Prod.snd) := by
  have hcall := call_account (S := S) (p := p) (e := .body data) rfl
  simp only [takeBody]
  split
  · exact ⟨hcall, rfl, rfl, rfl, .inr (.inr (.inr rfl))⟩
  · exact ⟨hcall, rfl, rfl, rfl, .inl rfl⟩

theorem countedStep_untouched (S : Settings) (p : Parser) (len : Nat) (data : List UInt8) :
    Untouched p (next (p.countedStep S len data)) := by
  simp only [countedStep]
  generalize min data.length p.contentLength = take
  have htaken : Untouched p ((if take > 0 then p.takeBody S (data.take take) else .inl p).elim id Prod.snd) := by
    split
    · exact takeBody_untouched S p _
    · exact .refl p
  cases htook : (if take > 0 then p.takeBody S (data.take take) else .inl p) with
  | inr r =>
    rw [htook] at htaken
    exact htaken
  | inl p₁ =>
    rw [htook] at htaken
    have hcounted : Untouched p { p₁ with contentLength := p₁.contentLength - take } :=
      ⟨htaken.account, htaken.line, htaken.spill, htaken.kept, htaken.state⟩
    simp only [countedEnd]
    split
    · split
      · exact ⟨htaken.account, htaken.line, htaken.spill, htaken.kept, .inr (.inl rfl)⟩
      · have hsafe : Untouched p { p₁ with contentLength := p₁.contentLength - take, finishState := .finishSafe } :=
          ⟨htaken.account, htaken.line, htaken.spill, htaken.kept, htaken.state⟩
        exact hsafe.trans (completeMessage_untouched S _ _)
    · exact hcounted

theorem step_untouched (len : Nat) (data : List UInt8) (h : p.state.isLine = false) : Untouched p (next (step S len (p, data))) := by
  cases data with
  | nil => exact .refl p
  | cons c data =>
    rw [step]
    cases hstate : p.state with
    | bodyContentLength => exact countedStep_untouched S p len _
    | bodyChunkData => exact countedStep_untouched S p len _
    | bodyEof =>
      have htaken := takeBody_untouched S p (c :: data)
      dsimp only
      cases htook : p.takeBody S (c :: data) with
      | inr r =>
        rw [htook] at htaken
        exact htaken
      | inl p₁ =>
        rw [htook] at htaken
        exact htaken
    | messageDone => exact .refl p
    | dead => exact .refl p
    | _ => rw [hstate] at h; cases h

end Parser

end Ccollections.Chttp1
