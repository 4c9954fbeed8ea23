import Ccollections.Chttp1.Lemmas.ByBytes
import Ccollections.Chttp1.Lemmas.Steps

/-!
# Slices against single bytes

What `chttp1_parser_execute` does with a slice is what it does with its bytes one at a time.
-/

namespace Ccollections.Chttp1

open List

namespace Parser

variable (S : Settings) (p : Parser) {out : Errno × Parser} {n : Nat}

def byteStep (c : UInt8) (data : List UInt8) : Stepped :=
  match p.state with
  | .firstLine | .headers | .bodyChunkSize | .bodyChunkCrlf | .bodyChunkTrailers =>
    match p.pushByte p.stateSpillBudget c with
    | (.needMore, p) => .inl (p, data)
    | (.tooLong, p) => .inr (p.fail p.tooLongReason)
    | (.badEol, p) => .inr (p.fail p.badEolReason)
    | (.ready, p) => p.lineReady S data 0
  | .bodyContentLength | .bodyChunkData => p.countedStep S 0 [c]
  | .bodyEof =>
    match p.takeBody S [c] with
    | .inr r => .inr r
    | .inl p => .inl (p, data)
  | .messageDone | .dead => .inr (.error, p)

def Errno.count (r : Errno) (total : Nat) : Nat := if r = .error ∨ r = .user then 0 else total

def byteLoop (p : Parser) (total : Nat) : List UInt8 → Errno × Parser × Nat
  | [] => (.ok, p, total)
  | c :: data =>
    match p.byteStep S c data with
    | .inl (p, _) => p.byteLoop (total + 1) data
    | .inr (r, p) => if r = .headersOnly then p.byteLoop (total + 1) data else (r, p, Errno.count r (total + 1))

def resume (s : Stepped) (total : Nat) (data : List UInt8) : Errno × Parser × Nat :=
  match s with
  | .inl (p, _) => p.byteLoop S total data
  | .inr (r, p) => if r = .headersOnly then p.byteLoop S total data else (r, p, Errno.count r total)

variable {S p} {p' : Parser} {t len : Nat} {c : UInt8} {data rest : List UInt8}

theorem byteLoop_cons : p.byteLoop S t (c :: data) = resume S (p.byteStep S c data) (t + 1) data := rfl

/-! ## Lines -/

def afterLine (S : Settings) (t len : Nat) : LineResult × Parser × List UInt8 → Errno × Parser × Nat
  | (.needMore, p, _) => (.ok, p, t + len)
  | (.tooLong, p, _) => ((p.fail p.tooLongReason).1, (p.fail p.tooLongReason).2, 0)
  | (.badEol, p, _) => ((p.fail p.badEolReason).1, (p.fail p.badEolReason).2, 0)
  | (.ready, p, rest) => resume S (p.lineReady S rest 0) (t + (len - rest.length)) rest

theorem byteStep_line (h : p.state.isLine = true) :
    p.byteStep S c data = match p.pushByte p.stateSpillBudget c with
      | (.needMore, p) => .inl (p, data)
      | (.tooLong, p) => .inr (p.fail p.tooLongReason)
      | (.badEol, p) => .inr (p.fail p.badEolReason)
      | (.ready, p) => p.lineReady S data 0 := by
  rw [byteStep]
  cases hs : p.state with
  | firstLine => rfl
  | headers => rfl
  | bodyChunkSize => rfl
  | bodyChunkCrlf => rfl
  | bodyChunkTrailers => rfl
  | _ => simp [hs, State.isLine] at h

theorem byteLoop_line (h : p.state.isLine = true) :
    p.byteLoop S t data = afterLine S t data.length (p.accumulateLine p.stateSpillBudget data) := by
  induction data generalizing p t with
  | nil => rfl
  | cons c data ih =>
    obtain ⟨line, spill, hframe⟩ := pushByte_frame (p := p) p.stateSpillBudget c
    rw [byteLoop_cons, byteStep_line h, accumulateLine]
    generalize hpush : p.pushByte p.stateSpillBudget c = r at hframe
    obtain ⟨r, p₁⟩ := r
    cases r with
    | needMore =>
      dsimp only at hframe ⊢
      have hbudget : p₁.stateSpillBudget = p.stateSpillBudget := by
        rw [hframe]
        rfl
      have hline : p₁.state.isLine = true := by
        rw [hframe]
        exact h
      have hlen := accumulateLine_length p₁ p.stateSpillBudget data
      rw [resume, ih hline, hbudget]
      generalize p₁.accumulateLine p.stateSpillBudget data = out at hlen
      obtain ⟨r, p₂, rest⟩ := out
      dsimp only at hlen
      cases r with
      | needMore => simp [afterLine, Nat.add_comm, Nat.add_left_comm]
      | ready =>
        simp only [afterLine, length_cons]
        congr 1
        omega
      | _ => rfl
    | tooLong => rfl
    | badEol => rfl
    | ready =>
      simp only [afterLine, length_cons]
      congr 1
      omega

/-! ## Bodies -/

def tookBytes (p : Parser) (bytes : List UInt8) : Parser :=
  { p with
    contentLength := p.contentLength - bytes.length
    log := p.log ++ bytes.map fun b => ⟨.body [b], 0⟩ }

theorem messages_tookBytes (bytes : List UInt8) : messages (p.tookBytes bytes).log = messages p.log := by
  simp [tookBytes, messages, Event.message]

theorem tookBytes_cons (b : UInt8) (bytes : List UInt8) : (p.tookBytes [b]).tookBytes bytes = p.tookBytes (b :: bytes) := by
  simp [tookBytes, Nat.sub_sub, Nat.add_comm]

theorem resume_countedEnd (n n' : Nat) (hn : n = n') : 
    resume S (p.countedEnd S rest n) t data = resume S (p.countedEnd S data n') t data := by
  subst hn
  simp only [countedEnd]
  split
  · split <;> rfl
  · rfl

theorem byteStep_counted (h : p.state.isCounted = true) : p.byteStep S c data = p.countedStep S 0 [c] := by
  rw [byteStep]
  cases hs : p.state with
  | bodyContentLength => rfl
  | bodyChunkData => rfl
  | _ => simp [hs, State.isCounted] at h

theorem body_answer (hS : DecidesFromMessages S) {log log' : List Call} (h : messages log = messages log') (bytes bytes' : List UInt8) :
    S.callback log (.body bytes) = S.callback log' (.body bytes') :=
  hS log log' (.body bytes) (.body bytes') h rfl

theorem byteLoop_counted (hS : DecidesFromMessages S) (h : p.state.isCounted = true) (hok : S.callback p.log (.body []) = 0)
    {bytes : List UInt8} (hne : bytes ≠ []) (hle : bytes.length ≤ p.contentLength) :
    p.byteLoop S t (bytes ++ rest) = resume S ((p.tookBytes bytes).countedEnd S rest 0) (t + bytes.length) rest := by
  induction bytes generalizing p t with
  | nil => exact absurd rfl hne
  | cons b bytes ih =>
    rw [length_cons] at hle
    have hmin : min [b].length p.contentLength = 1 := by
      simp only [length_singleton]
      omega
    have hone : S.callback p.log (.body ([b].take (min [b].length p.contentLength))) = 0 := (body_answer hS rfl _ _).trans hok
    have hpos : 0 < min [b].length p.contentLength := by omega
    have hstep := countedStep_ok 0 hpos hone
    simp only [hmin] at hstep
    rw [cons_append, byteLoop_cons, byteStep_counted h, hstep]
    cases bytes with
    | nil => exact resume_countedEnd _ _ rfl
    | cons b' bytes =>
      have hleft : p.contentLength - 1 ≠ 0 := by
        rw [length_cons] at hle
        omega
      have hnext : (p.tookBytes [b]).byteLoop S (t + 1) (b' :: bytes ++ rest) =
          resume S (((p.tookBytes [b]).tookBytes (b' :: bytes)).countedEnd S rest 0) (t + 1 + (b' :: bytes).length) rest :=
        ih h ((body_answer hS (messages_tookBytes [b]) _ _).trans hok) (by simp) (by simp [tookBytes] at hle ⊢; omega)
      rw [tookBytes_cons] at hnext
      simp only [countedEnd, hleft, if_false, resume]
      refine hnext.trans ?_
      congr 1
      simp only [length_cons]
      omega

theorem byteLoop_eof (hS : DecidesFromMessages S) (h : p.state = .bodyEof) (hok : S.callback p.log (.body []) = 0) :
    p.byteLoop S t data = (.ok, { p with log := p.log ++ data.map fun b => ⟨.body [b], 0⟩ }, t + data.length) := by
  induction data generalizing p t with
  | nil => simp [byteLoop]
  | cons b data ih =>
    have hone : S.callback p.log (.body [b]) = 0 := (body_answer hS rfl _ _).trans hok
    have hmsgs : messages (p.log ++ [⟨.body [b], 0⟩]) = messages p.log := by simp [messages, Event.message]
    rw [byteLoop_cons, byteStep, h]
    dsimp only
    rw [takeBody_ok hone]
    simp only [resume]
    rw [ih (p := { p with log := p.log ++ [⟨.body [b], 0⟩] }) h ((body_answer hS hmsgs _ _).trans hok)]
    simp [h, Nat.add_comm, Nat.add_left_comm]

/-! ## Steps -/

def Reports (out : Errno × Parser) (n : Nat) : Prop := out.1 = .paused ∨ out.1 = .headersOnly → out.2.consumed = n

theorem Failed.reports (h : Failed p out) : Reports out n := by
  rintro (hr | hr) <;> rcases h.result with hr' | hr' <;> cases hr.symm.trans hr'

theorem Completed.reports (h : Completed S p n out) : Reports out n := by
  cases h with
  | failed h => exact h.reports
  | done _ => exact fun _ => rfl

theorem Entered.reports {hint : Int} (h : Entered S p hint rest n (.inr out)) : Reports out n := by
  cases h with
  | failed h => exact h.reports
  | empty _ _ h => exact h.reports
  | diverted => exact fun _ => rfl

theorem LineDone.reports (h : LineDone S p rest n (.inr out)) : Reports out n := by
  cases h with
  | failed h => exact h.reports
  | headersEnd _ _ _ _ h => exact h.reports
  | trailersEnd _ _ h => exact h.reports

theorem Entered.live {hint : Int} (h : Entered S p hint rest n (.inl (p', rest'))) : Live p' := by
  cases h with
  | body hbody hstate hclear =>
    rcases hstate with ⟨rfl, -⟩ | ⟨rfl, -, -, hne⟩
    · exact ⟨by simp, fun h => by cases h⟩
    · exact ⟨by simp, fun _ => Nat.pos_of_ne_zero hne⟩
  | eof => exact ⟨by simp, fun h => by cases h⟩

theorem LineDone.live (h : LineDone S p rest n (.inl (p', rest'))) : Live p' := by
  cases h with
  | blank hstate => exact ⟨by simp [hstate], fun h => by simp [hstate, State.isCounted] at h⟩
  | request => exact ⟨by simp, fun h => by cases h⟩
  | status => exact ⟨by simp, fun h => by cases h⟩
  | @header name value p₁ hstate _ _ hinterpret =>
    obtain ⟨flags, length, hosts, hframe⟩ := interpretHeader_frame (p := p) name value
    rw [hinterpret] at hframe
    have hstate₁ : p₁.state = .headers := (congrArg Parser.state hframe).trans hstate
    exact ⟨by simp [countHeader, hstate₁], fun h => by simp [countHeader, hstate₁, State.isCounted] at h⟩
  | headersEnd _ _ _ _ h => exact h.live
  | chunkSize =>
    constructor
    · dsimp only
      split <;> simp
    · dsimp only
      split
      · intro h
        cases h
      · intro _
        exact Nat.pos_of_ne_zero ‹_›
  | crlf => exact ⟨by simp, fun h => by cases h⟩
  | trailer hstate => exact ⟨by simp [countHeader, hstate], fun h => by simp [countHeader, hstate, State.isCounted] at h⟩

def Agrees (S : Settings) (p : Parser) (len : Nat) (data : List UInt8) (s : Stepped) : Prop :=
  ∃ used rest, data = used ++ rest ∧
    (∀ t, p.byBytes.byteLoop S t data = resume S (Stepped.byBytes s) (t + used.length) rest) ∧
    match s with
    | .inl (p', rest') => rest' = rest ∧ Live p'
    | .inr out => out.1 ≠ .ok ∧ Reports out (len - rest.length)

theorem Failed.ne_ok (h : Failed p out) : out.1 ≠ .ok := by
  intro heq
  rcases h.result with hr | hr <;> cases heq.symm.trans hr

theorem Completed.ne_ok (h : Completed S p n out) : out.1 ≠ .ok := by
  cases h with
  | failed h => exact h.ne_ok
  | done _ => simp

theorem LineDone.ne_ok (h : LineDone S p rest n (.inr out)) : out.1 ≠ .ok := by
  cases h with
  | failed h => exact h.ne_ok
  | headersEnd _ _ _ _ h =>
    cases h with
    | failed h => exact h.ne_ok
    | empty _ _ h => exact h.ne_ok
    | diverted => simp
  | trailersEnd _ _ h => exact h.ne_ok

theorem agrees_line (hS : DecidesFromMessages S) (hline : p.state.isLine = true) : Agrees S p len data (p.lineStep S len data) := by
  obtain ⟨line, spill, hframe⟩ := accumulateLine_frame (p := p) p.stateSpillBudget data
  have hloop : ∀ t, p.byBytes.byteLoop S t data = _ := fun t => byteLoop_line hline
  have hbudget : p.byBytes.stateSpillBudget = p.stateSpillBudget := rfl
  rw [hbudget, accumulateLine_byBytes] at hloop
  rw [lineStep]
  cases hrun : p.accumulateLine p.stateSpillBudget data with
  | mk r out =>
    obtain ⟨p₁, rest⟩ := out
    obtain ⟨hmore, hready⟩ := accumulateLine_line hrun
    rw [hrun] at hframe hloop
    dsimp only at hframe
    have hstate : p₁.state = p.state := by rw [hframe]
    cases r with
    | needMore =>
      obtain ⟨rfl, -⟩ := hmore rfl
      refine ⟨data, [], (append_nil _).symm, hloop, rfl, ?_, ?_⟩
      · rw [hstate]
        cases hs : p.state <;> simp [hs, State.isLine] at hline ⊢
      · rw [hstate]
        cases hs : p.state <;> simp [hs, State.isLine, State.isCounted] at hline ⊢
    | tooLong => exact ⟨data, [], (append_nil _).symm, hloop, (failed_fail _).ne_ok, (failed_fail _).reports⟩
    | badEol => exact ⟨data, [], (append_nil _).symm, hloop, (failed_fail _).ne_ok, (failed_fail _).reports⟩
    | ready =>
      obtain ⟨used, hused, -⟩ := hready rfl
      have hdone : LineDone S p₁ rest (len - rest.length) (p₁.lineReady S rest (len - rest.length)) :=
        lineDone_of (by rw [hstate]; exact hline)
      have hlen : data.length - rest.length = used.length := by
        rw [hused]
        simp
      change Agrees S p len data (p₁.lineReady S rest (len - rest.length))
      refine ⟨used, rest, hused, fun t => ?_, ?_⟩
      · rw [hloop]
        simp only [afterLine, Prod.map_apply, id_eq]
        rw [lineReady_byBytes hS rest (len - rest.length), hlen]
      · split
        · rename_i p' rest' heq
          rw [heq] at hdone
          exact ⟨lineReady_rest heq, hdone.live⟩
        · rename_i out heq
          rw [heq] at hdone
          exact ⟨hdone.ne_ok, hdone.reports⟩

theorem tookBytes_byBytes (bytes : List UInt8) :
    ({ p with contentLength := p.contentLength - bytes.length, log := p.log ++ [⟨.body bytes, 0⟩] } : Parser).byBytes =
      p.byBytes.tookBytes bytes := by
  simp [byBytes, tookBytes, logByBytes, Call.byBytes]

theorem userError_byBytes_body {a : Int} {b : UInt8} (ha : a ≠ 0) :
    (userError { p with log := p.log ++ [⟨.body (b :: data), a⟩] }).2.byBytes =
      (userError { p.byBytes with log := p.byBytes.log ++ [⟨.body [b], a⟩] }).2 := by
  simp [userError, byBytes, logByBytes, Call.byBytes, ha]

theorem countedEnd_byBytes (hS : DecidesFromMessages S) (n : Nat) :
    p.byBytes.countedEnd S rest 0 = Stepped.byBytes (p.countedEnd S rest n) := by
  have hdone := completeMessage_byBytes (p := { p with finishState := .finishSafe }) hS n
  simp only [countedEnd, apply_ite Stepped.byBytes]
  rw [show Stepped.byBytes (.inr (completeMessage S { p with finishState := .finishSafe } n)) = _ from congrArg Sum.inr hdone.symm]
  rfl

theorem countedEnd_agrees (hcounted : p.state.isCounted = true) :
    match p.countedEnd S rest n with
    | .inl (p', rest') => rest' = rest ∧ Live p'
    | .inr out => out.1 ≠ .ok ∧ Reports out n := by
  rw [countedEnd]
  by_cases hzero : p.contentLength = 0
  · rw [if_pos hzero]
    by_cases hchunk : p.state = .bodyChunkData
    · rw [if_pos hchunk]
      exact ⟨rfl, by simp, fun h => by cases h⟩
    · rw [if_neg hchunk]
      have hdone := completed_of S { p with finishState := .finishSafe } n
      exact ⟨hdone.ne_ok, hdone.reports⟩
  · rw [if_neg hzero]
    refine ⟨rfl, ?_, fun _ => Nat.pos_of_ne_zero hzero⟩
    cases hs : p.state <;> simp [hs, State.isCounted] at hcounted ⊢

theorem agrees_counted (hS : DecidesFromMessages S) (hcounted : p.state.isCounted = true) (hpos : 0 < p.contentLength)
    (hne : data ≠ []) : Agrees S p len data (p.countedStep S len data) := by
  generalize htake : min data.length p.contentLength = take
  have hlen : 0 < data.length := length_pos_of_ne_nil hne
  have hboth : 0 < min data.length p.contentLength := by omega
  have htook : (data.take take).length = take := by
    rw [length_take]
    omega
  by_cases hok : S.callback p.log (.body (data.take take)) = 0
  · have hstep := countedStep_ok (S := S) len hboth (by rw [htake]; exact hok)
    rw [htake] at hstep
    have hbytes : ({ p with contentLength := p.contentLength - take, log := p.log ++ [⟨.body (data.take take), 0⟩] } : Parser).byBytes =
        p.byBytes.tookBytes (data.take take) := by
      rw [← tookBytes_byBytes, htook]
    refine ⟨data.take take, data.drop take, (take_append_drop _ _).symm, fun t => ?_, ?_⟩
    · have hfirst : S.callback p.byBytes.log (.body []) = 0 := (callback_byBytes hS).trans ((body_answer hS rfl _ _).trans hok)
      have hnil : data.take take ≠ [] := by
        intro hnil
        simp only [hnil, length_nil] at htook
        omega
      have hle : (data.take take).length ≤ p.byBytes.contentLength := by
        rw [htook, byBytes_contentLength]
        omega
      have hloop : p.byBytes.byteLoop S t (data.take take ++ data.drop take) = _ :=
        byteLoop_counted (p := p.byBytes) hS hcounted hfirst hnil hle
      rw [take_append_drop] at hloop
      rw [hloop, hstep, ← hbytes, countedEnd_byBytes hS]
    · rw [hstep]
      exact countedEnd_agrees hcounted
  · obtain ⟨b, rest, rfl⟩ := exists_cons_of_ne_nil hne
    have hstep := countedStep_error (S := S) len hboth (by rw [htake]; exact hok)
    rw [htake] at hstep
    have hcons : (b :: rest).take take = b :: rest.take (take - 1) := by
      cases take with
      | zero => omega
      | succ n => rfl
    rw [hcons] at hok hstep
    refine ⟨b :: rest, [], (append_nil _).symm, fun t => ?_, ?_⟩
    · have hmin : min [b].length p.byBytes.contentLength = 1 := by
        simp only [length_singleton, byBytes_contentLength]
        omega
      have hanswer : S.callback p.byBytes.log (.body [b]) = S.callback p.log (.body (b :: rest.take (take - 1))) :=
        (callback_byBytes hS).trans (body_answer hS rfl _ _)
      have hposb : 0 < min [b].length p.byBytes.contentLength := by omega
      have herror := countedStep_error (S := S) 0 hposb (by rw [hmin]; exact fun h => hok (hanswer.symm.trans h))
      have hcountedb : p.byBytes.state.isCounted = true := hcounted
      rw [hmin, take_succ_cons, take_zero, hanswer] at herror
      rw [byteLoop_cons, byteStep_counted hcountedb, herror, hstep]
      change (_, (userError _).2, 0) = (_, (userError _).2.byBytes, 0)
      rw [userError_byBytes_body hok]
      rfl
    · rw [hstep]
      exact ⟨(failed_of_call rfl).ne_ok, (failed_of_call rfl).reports⟩

theorem agrees_eof (hS : DecidesFromMessages S) (hstate : p.state = .bodyEof) (hne : data ≠ []) :
    Agrees S p len data (match p.takeBody S data with
      | .inr r => .inr r
      | .inl p => .inl (p, [])) := by
  by_cases hok : S.callback p.log (.body data) = 0
  · rw [takeBody_ok hok]
    refine ⟨data, [], (append_nil _).symm, fun t => ?_, rfl, ?_, ?_⟩
    · have hfirst : S.callback p.byBytes.log (.body []) = 0 := (callback_byBytes hS).trans ((body_answer hS rfl _ _).trans hok)
      rw [byteLoop_eof (p := p.byBytes) hS hstate hfirst]
      simp [Stepped.byBytes, resume, byteLoop, byBytes, logByBytes, Call.byBytes]
    · simp [hstate]
    · intro h
      simp [hstate, State.isCounted] at h
  · rw [takeBody_error hok]
    obtain ⟨b, rest, rfl⟩ := exists_cons_of_ne_nil hne
    refine ⟨b :: rest, [], (append_nil _).symm, fun t => ?_, (failed_of_call rfl).ne_ok, (failed_of_call rfl).reports⟩
    have hanswer : S.callback p.byBytes.log (.body [b]) = S.callback p.log (.body (b :: rest)) :=
      (callback_byBytes hS).trans (body_answer hS rfl _ _)
    have hne : S.callback p.byBytes.log (.body [b]) ≠ 0 := fun h => hok (hanswer.symm.trans h)
    have herror := takeBody_error hne
    have hbytes : p.byBytes.state = .bodyEof := hstate
    rw [byteLoop_cons, byteStep, hbytes]
    dsimp only
    rw [herror, hanswer]
    change (_, (userError _).2, 0) = (_, (userError _).2.byBytes, 0)
    rw [userError_byBytes_body hok]
    rfl

theorem agrees_step (hS : DecidesFromMessages S) (hlive : Live p) (hne : data ≠ []) : Agrees S p len data (step S len (p, data)) := by
  obtain ⟨c, rest, rfl⟩ := exists_cons_of_ne_nil hne
  rw [step]
  cases hstate : p.state with
  | firstLine => exact agrees_line hS (by rw [hstate]; rfl)
  | headers => exact agrees_line hS (by rw [hstate]; rfl)
  | bodyChunkSize => exact agrees_line hS (by rw [hstate]; rfl)
  | bodyChunkCrlf => exact agrees_line hS (by rw [hstate]; rfl)
  | bodyChunkTrailers => exact agrees_line hS (by rw [hstate]; rfl)
  | bodyContentLength =>
    have hcounted : p.state.isCounted = true := by rw [hstate]; rfl
    exact agrees_counted hS hcounted (hlive.counted hcounted) hne
  | bodyChunkData =>
    have hcounted : p.state.isCounted = true := by rw [hstate]; rfl
    exact agrees_counted hS hcounted (hlive.counted hcounted) hne
  | bodyEof => exact agrees_eof hS hstate hne
  | messageDone => exact absurd hstate hlive.alive.2
  | dead => exact absurd hstate hlive.alive.1

/-! ## Runs -/

structure Ran (S : Settings) (p : Parser) (len : Nat) (data : List UInt8) (out : Errno × Parser) : Prop where
  bytes : ∃ used rest, data = used ++ rest ∧
    (∀ t, p.byBytes.byteLoop S t data = resume S (.inr (Prod.map id byBytes out)) (t + used.length) rest) ∧
    Reports out (len - rest.length) ∧ (out.1 = .ok → rest = [])
  live : out.1 = .ok → Live out.2

theorem ran_loop (hS : DecidesFromMessages S) (hlive : Live p) : Ran S p len data ((loop S len).run (p, data)) := by
  generalize hm : measure (p, data) = m
  induction m using Nat.strongRecOn generalizing p data with
  | ind m ih =>
    by_cases hne : data = []
    · subst hne
      have hrun : (loop S len).run (p, []) = (.ok, p) := Lib.Machine.run_halt rfl
      rw [hrun]
      refine ⟨⟨[], [], rfl, fun t => rfl, ?_, fun _ => rfl⟩, fun _ => hlive⟩
      rintro (h | h) <;> cases h
    · obtain ⟨used, rest, hsplit, hbytes, hnext⟩ : Agrees S p len data _ := agrees_step hS hlive hne
      cases hstep : step S len (p, data) with
      | inr out =>
        have hrun : (loop S len).run (p, data) = out := Lib.Machine.run_halt hstep
        rw [hstep] at hbytes hnext
        rw [hrun]
        exact ⟨⟨used, rest, hsplit, hbytes, hnext.2, fun h => absurd h hnext.1⟩, fun h => absurd h hnext.1⟩
      | inl s' =>
        obtain ⟨p₁, rest₁⟩ := s'
        have hrun : (loop S len).run (p, data) = (loop S len).run (p₁, rest₁) := Lib.Machine.run_step hstep
        rw [hstep] at hbytes hnext
        obtain ⟨rfl, hlive₁⟩ := hnext
        obtain ⟨⟨used₁, rest₂, hsplit₁, hbytes₁, hreports, hrest⟩, hlast⟩ :=
          ih _ (hm ▸ step_measure _ _ hstep) hlive₁ rfl
        rw [hrun]
        refine ⟨⟨used ++ used₁, rest₂, ?_, fun t => ?_, hreports, hrest⟩, hlast⟩
        · rw [hsplit, append_assoc, ← hsplit₁]
        · rw [hbytes]
          refine (hbytes₁ (t + used.length)).trans ?_
          rw [length_append, Nat.add_assoc]

theorem ran_execute (hS : DecidesFromMessages S) (hlive : Live p) : Ran S p data.length data (p.execute S data) := by
  have hgo : ¬(p.state = .dead ∨ p.state = .messageDone) := by
    rintro (h | h)
    · exact hlive.alive.1 h
    · exact hlive.alive.2 h
  rw [execute, if_neg hgo]
  exact ran_loop hS hlive

/-! ## Past the header block -/

def InBody (p : Parser) : Prop := p.state ≠ .firstLine ∧ p.state ≠ .headers

theorem Failed.ne_headersOnly (h : Failed p out) : out.1 ≠ .headersOnly := by
  intro heq
  rcases h.result with hr | hr <;> cases heq.symm.trans hr

theorem Completed.ne_headersOnly (h : Completed S p n out) : out.1 ≠ .headersOnly := by
  cases h with
  | failed h => exact h.ne_headersOnly
  | done _ => simp

theorem LineDone.headersOnly (h : LineDone S p rest n (.inr out)) (hout : out.1 = .headersOnly) :
    p.state = .headers ∧ Live out.2 ∧ InBody out.2 := by
  cases h with
  | failed h => exact absurd hout h.ne_headersOnly
  | trailersEnd _ _ h => exact absurd hout h.ne_headersOnly
  | headersEnd hstate _ _ _ h =>
    cases h with
    | failed h => exact absurd hout h.ne_headersOnly
    | empty _ _ h => exact absurd hout h.ne_headersOnly
    | diverted _ _ hbody _ =>
      refine ⟨hstate, ?_⟩
      rcases hbody with ⟨rfl, -⟩ | ⟨rfl, -, -, hne⟩
      · exact ⟨⟨by simp, nofun⟩, by simp [InBody]⟩
      · exact ⟨⟨by simp, fun _ => Nat.pos_of_ne_zero hne⟩, by simp [InBody]⟩

theorem LineDone.inBody (h : LineDone S p rest n (.inl (p', rest'))) (hbody : InBody p) : InBody p' := by
  cases h with
  | blank hstate => exact absurd hstate hbody.1
  | request hstate => exact absurd hstate hbody.1
  | status hstate => exact absurd hstate hbody.1
  | header hstate => exact absurd hstate hbody.2
  | headersEnd hstate => exact absurd hstate hbody.2
  | chunkSize =>
    constructor
    · dsimp only
      split <;> simp
    · dsimp only
      split <;> simp
  | crlf => simp [InBody]
  | trailer hstate => simp [InBody, countHeader, hstate]

theorem StepDone.inBody {s : Stepped} (h : StepDone S len p data s) :
    (∀ p' rest', s = .inl (p', rest') → InBody p → InBody p') ∧
    ∀ out, s = .inr out → out.1 = .headersOnly → ¬InBody p ∧ Live out.2 ∧ InBody out.2 := by
  cases h with
  | failed h =>
    refine ⟨fun _ _ heq => (by cases heq), fun out heq hout => ?_⟩
    cases heq
    exact absurd hout h.ne_headersOnly
  | more hline =>
    refine ⟨fun p' rest' heq hbody => ?_, fun _ heq => (by cases heq)⟩
    cases heq
    exact hbody
  | line hline hused hend h =>
    refine ⟨fun p' rest' heq hbody => ?_, fun out heq hout => ?_⟩
    · rw [heq] at h
      exact h.inBody hbody
    · rw [heq] at h
      obtain ⟨hheaders, hlive, hbody⟩ := h.headersOnly hout
      exact ⟨fun h => h.2 hheaders, hlive, hbody⟩
  | counted hcounted =>
    have hstate : p.state ≠ .firstLine ∧ p.state ≠ .headers := by
      cases hs : p.state <;> simp [hs, State.isCounted] at hcounted ⊢
    rw [countedEnd]
    split
    · split
      · refine ⟨fun p' rest' heq _ => ?_, fun _ heq => (by cases heq)⟩
        cases heq
        simp [InBody]
      · refine ⟨fun _ _ heq => (by cases heq), fun out heq hout => ?_⟩
        cases heq
        exact absurd hout (completed_of S _ _).ne_headersOnly
    · refine ⟨fun p' rest' heq _ => ?_, fun _ heq => (by cases heq)⟩
      cases heq
      exact hstate
  | eof hstate =>
    refine ⟨fun p' rest' heq _ => ?_, fun _ heq => (by cases heq)⟩
    cases heq
    simp [InBody, hstate]

theorem headersOnly_loop (hS : DecidesFromMessages S) (hlive : Live p)
    (hrun : (loop S len).run (p, data) = out) (hout : out.1 = .headersOnly) : ¬InBody p ∧ Live out.2 ∧ InBody out.2 := by
  have hinv : out.1 = .headersOnly → ¬InBody p ∧ Live out.2 ∧ InBody out.2 := by
    rw [← hrun]
    refine Lib.Machine.run_invariant (m := loop S len) (P := fun s => Live s.1 ∧ (InBody p → InBody s.1))
      (Q := fun out => out.1 = .headersOnly → ¬InBody p ∧ Live out.2 ∧ InBody out.2) ?_ ?_ ⟨hlive, id⟩
    · rintro ⟨p₁, data₁⟩ ⟨p₂, data₂⟩ ⟨hlive₁, hbody⟩ hstep
      have hne : data₁ ≠ [] := by
        rintro rfl
        cases hstep
      obtain ⟨used, rest, -, -, hnext⟩ : Agrees S p₁ len data₁ (step S len (p₁, data₁)) := agrees_step hS hlive₁ hne
      have hdone : StepDone S len p₁ data₁ (step S len (p₁, data₁)) := stepDone_of hlive₁ hne
      change step S len (p₁, data₁) = .inl (p₂, data₂) at hstep
      rw [hstep] at hnext hdone
      exact ⟨hnext.2, fun h => hdone.inBody.1 p₂ data₂ rfl (hbody h)⟩
    · rintro ⟨p₁, data₁⟩ out₁ ⟨hlive₁, hbody⟩ hstep hout₁
      have hne : data₁ ≠ [] := by
        rintro rfl
        cases hstep
        cases hout₁
      have hdone : StepDone S len p₁ data₁ (step S len (p₁, data₁)) := stepDone_of hlive₁ hne
      change step S len (p₁, data₁) = .inr out₁ at hstep
      rw [hstep] at hdone
      obtain ⟨hnot, hlive₂, hbody₂⟩ := hdone.inBody.2 out₁ rfl hout₁
      exact ⟨fun h => hnot (hbody h), hlive₂, hbody₂⟩
  exact hinv hout

theorem headersOnly_execute (hS : DecidesFromMessages S) (hlive : Live p) (hout : (p.execute S data).1 = .headersOnly) :
    ¬InBody p ∧ Live (p.execute S data).2 ∧ InBody (p.execute S data).2 := by
  have hgo : ¬(p.state = .dead ∨ p.state = .messageDone) := by
    rintro (h | h)
    · exact hlive.alive.1 h
    · exact hlive.alive.2 h
  rw [execute, if_neg hgo] at hout ⊢
  exact headersOnly_loop hS hlive rfl hout

/-! ## Slices -/

theorem feedSlice_bytes (hS : DecidesFromMessages S) (hlive : Live p) (data : List UInt8) :
    ∃ used rest, data = used ++ rest ∧
      (∀ t, p.byBytes.byteLoop S t data =
        ((p.feedSlice S data).1, (p.feedSlice S data).2.1.byBytes, Errno.count (p.feedSlice S data).1 (t + used.length))) ∧
      ((p.feedSlice S data).1 = .paused → (p.feedSlice S data).2.2 = used.length) ∧
      ((p.feedSlice S data).1 = .ok → rest = [] ∧ Live (p.feedSlice S data).2.1) := by
  obtain ⟨⟨used, rest, hsplit, hbytes, hreports, hrest⟩, hlast⟩ : Ran S p data.length data _ := ran_execute hS hlive
  rw [feedSlice]
  by_cases honly : (p.execute S data).1 = .headersOnly
  · -- The rest of the slice is the start of the body.
    obtain ⟨-, hlive₁, hbody⟩ := headersOnly_execute hS hlive honly
    have hconsumed := hreports (.inr honly)
    have hdrop : data.drop (p.execute S data).2.consumed = rest := by
      rw [hconsumed, hsplit]
      simp
    rw [if_pos honly, hdrop]
    obtain ⟨⟨used₁, rest₁, hsplit₁, hbytes₁, hreports₁, hrest₁⟩, hlast₁⟩ : Ran S _ rest.length rest _ := ran_execute hS hlive₁
    have hnot : ((p.execute S data).2.execute S rest).1 ≠ .headersOnly := fun h => (headersOnly_execute hS hlive₁ h).1 hbody
    refine ⟨used ++ used₁, rest₁, ?_, fun t => ?_, fun hr => ?_, fun hr => ⟨hrest₁ hr, hlast₁ hr⟩⟩
    · rw [hsplit, append_assoc, ← hsplit₁]
    · rw [hbytes]
      simp only [resume, Prod.map_fst, Prod.map_snd, id_eq, honly, if_true]
      rw [hbytes₁]
      simp only [resume, Prod.map_fst, Prod.map_snd, id_eq, if_neg hnot, length_append, Nat.add_assoc]
    · dsimp only at hr ⊢
      rw [hconsumed, hreports₁ (.inl hr), hsplit, hsplit₁]
      simp
  · rw [if_neg honly]
    refine ⟨used, rest, hsplit, fun t => ?_, fun hr => ?_, fun hr => ⟨hrest hr, hlast hr⟩⟩
    · rw [hbytes]
      simp only [resume, Prod.map_fst, Prod.map_snd, id_eq, if_neg honly]
    · rw [hreports (.inl hr), hsplit]
      simp

/-! ## The rest of the input does not matter for a line -/

def withRest (rest : List UInt8) : Stepped → Stepped := Sum.map (fun s => (s.1, rest)) id

theorem parseFirstLine_withRest : p.parseFirstLine S rest = withRest rest (p.parseFirstLine S []) := by
  simp only [parseFirstLine]
  cases p.type with
  | request =>
    cases p.parseRequestLine S with
    | mk r p₁ => cases r <;> rfl
  | response =>
    cases p.parseStatusLine with
    | mk r p₁ => cases r <;> rfl

theorem enterBody_withRest {hint : Int} : p.enterBody S hint rest n = withRest rest (p.enterBody S hint [] n) := by
  simp only [enterBody, apply_ite (withRest rest)]
  rfl

theorem headersEnd_withRest : p.headersEnd S rest n = withRest rest (p.headersEnd S [] n) := by
  simp only [headersEnd]
  cases (if p.type = .request then p.requestDefect else none) with
  | some reason => rfl
  | none =>
    simp only [reportHeaders, headersAnswered, apply_ite (withRest rest), ← enterBody_withRest]
    rfl

theorem headerReady_withRest {isTrailer : Bool} : p.headerReady S isTrailer rest = withRest rest (p.headerReady S isTrailer []) := by
  simp only [headerReady]
  cases p.processHeaderLine S isTrailer with
  | mk r p₁ => cases r <;> rfl

theorem lineReady_withRest : p.lineReady S rest n = withRest rest (p.lineReady S [] n) := by
  simp only [lineReady]
  cases p.state with
  | firstLine =>
    simp only [firstLineReady, apply_ite (withRest rest), ← parseFirstLine_withRest]
    rfl
  | headers => simp only [apply_ite (withRest rest), ← headersEnd_withRest, ← headerReady_withRest]
  | bodyChunkSize =>
    simp only [chunkSizeReady]
    cases p.parseChunkSizeLine with
    | mk r p₁ => cases r <;> rfl
  | bodyChunkTrailers =>
    simp only [apply_ite (withRest rest), ← headerReady_withRest]
    rfl
  | _ =>
    simp only [apply_ite (withRest rest)]
    rfl

theorem resume_withRest {s : Stepped} : resume S (withRest rest s) t data = resume S s t data := by
  cases s with
  | inl s => rfl
  | inr out => rfl

theorem resume_byteStep (rest rest' : List UInt8) :
    resume S (p.byteStep S c rest) t data = resume S (p.byteStep S c rest') t data := by
  rw [byteStep, byteStep]
  cases p.state with
  | bodyEof =>
    dsimp only
    split <;> rfl
  | bodyContentLength => rfl
  | bodyChunkData => rfl
  | messageDone => rfl
  | dead => rfl
  | _ =>
    dsimp only
    split
    · rfl
    · rfl
    · rfl
    · rename_i p₁ _
      have hrest : p₁.lineReady S rest' 0 = _ := lineReady_withRest
      rw [lineReady_withRest, resume_withRest, hrest, resume_withRest]

theorem takeBody_ne_ok (h : p.takeBody S data = .inr out) : out.1 ≠ .ok := by
  simp only [takeBody] at h
  split at h
  · cases h
    exact (failed_of_call rfl).ne_ok
  · cases h

theorem byteStep_ne_ok (h : p.byteStep S c data = .inr out) : out.1 ≠ .ok := by
  have hline : p.state.isLine = true → out.1 ≠ .ok := by
    intro hline
    obtain ⟨line, spill, hframe⟩ := pushByte_frame (p := p) p.stateSpillBudget c
    rw [byteStep_line hline] at h
    split at h
    · cases h
    · cases h
      exact (failed_fail _).ne_ok
    · cases h
      exact (failed_fail _).ne_ok
    · rename_i p₁ hpush
      rw [hpush] at hframe
      dsimp only at hframe
      have hdone : LineDone S p₁ data 0 (p₁.lineReady S data 0) := lineDone_of (by rw [hframe]; exact hline)
      rw [h] at hdone
      exact hdone.ne_ok
  have hcounted : p.state.isCounted = true → out.1 ≠ .ok := by
    intro hcounted
    rw [byteStep_counted hcounted] at h
    simp only [countedStep] at h
    split at h
    · rename_i htaken
      cases h
      split at htaken
      · exact takeBody_ne_ok htaken
      · cases htaken
    · simp only [countedEnd] at h
      split at h
      · split at h
        · cases h
        · cases h
          exact (completed_of S _ _).ne_ok
      · cases h
  cases hstate : p.state with
  | bodyContentLength => exact hcounted (by rw [hstate]; rfl)
  | bodyChunkData => exact hcounted (by rw [hstate]; rfl)
  | bodyEof =>
    simp only [byteStep, hstate] at h
    split at h
    · rename_i htaken
      cases h
      exact takeBody_ne_ok htaken
    · cases h
  | messageDone =>
    simp only [byteStep, hstate] at h
    cases h
    simp
  | dead =>
    simp only [byteStep, hstate] at h
    cases h
    simp
  | _ => exact hline (by rw [hstate]; rfl)

theorem byteLoop_append (hok : (p.byteLoop S t data).1 = .ok) :
    p.byteLoop S t (data ++ rest) = (p.byteLoop S t data).2.1.byteLoop S (t + data.length) rest := by
  induction data generalizing p t with
  | nil => rfl
  | cons c data ih =>
    have hlen : t + (c :: data).length = t + 1 + data.length := by
      rw [length_cons]
      omega
    rw [byteLoop_cons] at hok ⊢
    rw [cons_append, byteLoop_cons, resume_byteStep (data ++ rest) data, hlen]
    cases hstep : p.byteStep S c data with
    | inl s =>
      rw [hstep] at hok
      exact ih hok
    | inr out =>
      have hne := byteStep_ne_ok hstep
      rw [hstep] at hok
      simp only [resume] at hok ⊢
      by_cases hr : out.1 = .headersOnly
      · simp only [hr, if_true] at hok ⊢
        exact ih hok
      · simp only [hr, if_false] at hok
        exact absurd hok hne

theorem byteLoop_append_halt (hhalt : (p.byteLoop S t data).1 ≠ .ok) : p.byteLoop S t (data ++ rest) = p.byteLoop S t data := by
  induction data generalizing p t with
  | nil => exact absurd rfl hhalt
  | cons c data ih =>
    rw [byteLoop_cons] at hhalt ⊢
    rw [cons_append, byteLoop_cons, resume_byteStep (data ++ rest) data]
    cases hstep : p.byteStep S c data with
    | inl s =>
      rw [hstep] at hhalt
      exact ih hhalt
    | inr out =>
      rw [hstep] at hhalt
      simp only [resume] at hhalt ⊢
      by_cases hr : out.1 = .headersOnly
      · simp only [hr, if_true] at hhalt ⊢
        exact ih hhalt
      · simp only [hr, if_false]

theorem feed_bytes (hS : DecidesFromMessages S) (hlive : Live p) (slices : List (List UInt8)) :
    (p.byBytes.byteLoop S t slices.flatten).1 = (p.feed S t slices).1 ∧
    (p.byBytes.byteLoop S t slices.flatten).2.1 = (p.feed S t slices).2.1.byBytes ∧
    ((p.feed S t slices).1 = .paused → (p.byBytes.byteLoop S t slices.flatten).2.2 = (p.feed S t slices).2.2) := by
  induction slices generalizing p t with
  | nil => exact ⟨rfl, rfl, nofun⟩
  | cons data slices ih =>
    obtain ⟨used, rest, hsplit, hbytes, hpaused, hok⟩ := feedSlice_bytes hS hlive data
    rw [flatten_cons]
    simp only [feed]
    by_cases hr : (p.feedSlice S data).1 = .ok
    · rw [if_pos hr, byteLoop_append (by rw [hbytes]; exact hr), hbytes]
      exact ih (hok hr).2
    · rw [if_neg hr, byteLoop_append_halt (by rw [hbytes]; exact hr), hbytes]
      refine ⟨rfl, rfl, fun hp => ?_⟩
      rw [hpaused hp, hp]
      rfl

theorem feed_oneSlice (hS : DecidesFromMessages S) (hlive : Live p) (slices : List (List UInt8)) :
    SameOutcome (p.feed S 0 slices) (p.feed S 0 [slices.flatten]) := by
  obtain ⟨hresult, hparser, hcount⟩ := feed_bytes (t := 0) hS hlive slices
  obtain ⟨hresult', hparser', hcount'⟩ := feed_bytes (t := 0) hS hlive [slices.flatten]
  rw [flatten_singleton] at hresult' hparser' hcount'
  have hboth := hparser.symm.trans hparser'
  have hcode := hresult.symm.trans hresult'
  have hlog := congrArg Parser.log hboth
  refine ⟨hcode, ?_, ?_, ?_, fun hpaused => ?_⟩
  · have hreason := congrArg Parser.reason hboth
    exact hreason
  · have hmessages := congrArg messages hlog
    simpa [Parser.byBytes] using hmessages
  · have hbody := congrArg acceptedBody hlog
    simpa [Parser.byBytes] using hbody
  · exact (hcount hpaused).symm.trans (hcount' (hcode.symm.trans hpaused))

end Parser

end Ccollections.Chttp1
