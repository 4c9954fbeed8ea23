import Ccollections.Chttp1.Grammar
import Ccollections.Chttp1.Lemmas.Slices

/-!
# Callbacks that report errors

Behind the header block a parser whose callbacks report no error does what it does with callbacks that accept everything.
-/

namespace Ccollections.Chttp1
open Lib

def Objects (S : Settings) : Prop := ∃ log e, Event.ofBody e = true ∧ S.callback log e ≠ 0

theorem accepting_decides : DecidesFromMessages accepting := fun _ _ _ _ _ _ => rfl

namespace Parser

variable {S : Settings} {p : Parser} {data rest : List UInt8} {len : Nat}

/-! ## Steps -/

def Unmoved (S : Settings) (s s' : Stepped) : Prop := s = s' ∨ (∃ q, s = .inr (.user, q)) ∧ Objects S

theorem completeMessage_unmoved (n : Nat) : Unmoved S (.inr (p.completeMessage S n)) (.inr (p.completeMessage accepting n)) := by
  by_cases hanswer : S.callback p.log .messageComplete = 0
  · refine .inl ?_
    simp only [completeMessage, call, hanswer]
    rfl
  · refine .inr ⟨⟨_, congrArg Sum.inr (if_pos hanswer)⟩, p.log, _, rfl, hanswer⟩

theorem trailerReady_unmoved : Unmoved S (p.headerReady S true rest) (p.headerReady accepting true rest) := by
  simp only [headerReady, processHeaderLine]
  by_cases hcount : sizeAdd p.headerCount 1 > p.effectiveMaxHeaderCount
  · rw [if_pos hcount, if_pos hcount]
    exact .inl rfl
  · rw [if_neg hcount, if_neg hcount]
    by_cases htotal : sizeAdd p.totalHeaderBytes (p.line.length + 2) > p.effectiveMaxTotalHeaderBytes
    · rw [if_pos htotal, if_pos htotal]
      exact .inl rfl
    · rw [if_neg htotal, if_neg htotal]
      cases splitHeader p.line with
      | error reason => exact .inl rfl
      | ok field =>
        obtain ⟨name, value⟩ := field
        by_cases hanswer : S.callback p.log (.trailer name value) = 0
        · refine .inl ?_
          simp only [if_true, reportHeader, call, hanswer]
          rfl
        · refine .inr ⟨?_, p.log, _, rfl, hanswer⟩
          simp only [if_true, reportHeader, call, hanswer, if_false]
          exact ⟨_, rfl⟩

theorem takeBody_unmoved (p : Parser) (data : List UInt8) :
    p.takeBody S data = p.takeBody accepting data ∨ (∃ q, p.takeBody S data = .inr (.user, q)) ∧ Objects S := by
  by_cases hanswer : S.callback p.log (.body data) = 0
  · refine .inl ?_
    simp only [takeBody, call, hanswer]
    rfl
  · refine .inr ⟨?_, p.log, _, rfl, hanswer⟩
    rw [takeBody_error hanswer]
    exact ⟨_, rfl⟩

theorem countedStep_unmoved : Unmoved S (p.countedStep S len data) (p.countedStep accepting len data) := by
  simp only [countedStep]
  generalize min data.length p.contentLength = take
  have htaken : (if take > 0 then p.takeBody S (data.take take) else .inl p) = (if take > 0 then p.takeBody accepting (data.take take) else .inl p) ∨
      (∃ q, (if take > 0 then p.takeBody S (data.take take) else .inl p) = .inr (.user, q)) ∧ Objects S := by
    split
    · exact takeBody_unmoved p _
    · exact .inl rfl
  rcases htaken with hsame | ⟨⟨q, huser⟩, hobjects⟩
  · rw [hsame]
    cases (if take > 0 then p.takeBody accepting (data.take take) else .inl p) with
    | inr r => exact .inl rfl
    | inl p₁ =>
      simp only [countedEnd]
      split
      · split
        · exact .inl rfl
        · exact completeMessage_unmoved _
      · exact .inl rfl
  · rw [huser]
    exact .inr ⟨⟨q, rfl⟩, hobjects⟩

theorem lineReady_unmoved {n : Nat} (hbody : InBody p) : Unmoved S (p.lineReady S rest n) (p.lineReady accepting rest n) := by
  simp only [lineReady]
  cases hstate : p.state with
  | firstLine => exact absurd hstate hbody.1
  | headers => exact absurd hstate hbody.2
  | bodyChunkTrailers =>
    dsimp only
    split
    · exact completeMessage_unmoved n
    · exact trailerReady_unmoved
  | _ => exact .inl rfl

theorem step_unmoved (hbody : InBody p) : Unmoved S (step S len (p, data)) (step accepting len (p, data)) := by
  cases data with
  | nil => exact .inl rfl
  | cons c data =>
    have hline : Unmoved S (p.lineStep S len (c :: data)) (p.lineStep accepting len (c :: data)) := by
      obtain ⟨line, spill, hframe⟩ := accumulateLine_frame (p := p) p.stateSpillBudget (c :: data)
      simp only [lineStep]
      generalize p.accumulateLine p.stateSpillBudget (c :: data) = r at hframe
      obtain ⟨r, p₁, rest⟩ := r
      dsimp only at hframe
      cases r with
      | ready =>
        refine lineReady_unmoved ?_
        rw [hframe]
        exact hbody
      | _ => exact .inl rfl
    simp only [step]
    cases hstate : p.state with
    | firstLine => exact hline
    | headers => exact hline
    | bodyChunkSize => exact hline
    | bodyChunkCrlf => exact hline
    | bodyChunkTrailers => exact hline
    | bodyContentLength => exact countedStep_unmoved
    | bodyChunkData => exact countedStep_unmoved
    | bodyEof =>
      dsimp only
      rcases takeBody_unmoved (S := S) p (c :: data) with hsame | ⟨⟨q, huser⟩, hobjects⟩
      · rw [hsame]
        exact .inl rfl
      · rw [huser]
        exact .inr ⟨⟨q, rfl⟩, hobjects⟩
    | messageDone => exact .inl rfl
    | dead => exact .inl rfl

/-! ## Runs -/

theorem run_unmoved (hlive : Live p) (hbody : InBody p) :
    ((loop S len).run (p, data) = (loop accepting len).run (p, data) ∧
      (((loop accepting len).run (p, data)).1 = .ok → InBody ((loop accepting len).run (p, data)).2)) ∨
    ((loop S len).run (p, data)).1 = .user ∧ Objects S := by
  generalize hm : measure (p, data) = m
  induction m using Nat.strongRecOn generalizing p data with
  | ind m ih =>
    rcases step_unmoved (S := S) hbody with hsame | ⟨⟨q, huser⟩, hobjects⟩
    · have hstep : (loop S len).step (p, data) = (loop accepting len).step (p, data) := hsame
      rw [Machine.run_eq (m := loop S len), Machine.run_eq (m := loop accepting len), hstep]
      by_cases hne : data = []
      · subst hne
        exact .inl ⟨rfl, fun _ => hbody⟩
      · obtain ⟨used, rest, -, -, hnext⟩ : Agrees accepting p len data _ := agrees_step accepting_decides hlive hne
        have hdone : StepDone accepting len p data (step accepting len (p, data)) := stepDone_of hlive hne
        change _ ∨ _
        cases hout : step accepting len (p, data) with
        | inr out =>
          have hout' : (loop accepting len).step (p, data) = .inr out := hout
          rw [hout] at hnext
          rw [hout']
          exact .inl ⟨rfl, fun hok => absurd hok hnext.1⟩
        | inl s =>
          obtain ⟨p₁, rest₁⟩ := s
          have hout' : (loop accepting len).step (p, data) = .inl (p₁, rest₁) := hout
          rw [hout] at hnext hdone
          rw [hout']
          exact ih _ (hm ▸ step_measure _ _ hout) hnext.2 (hdone.inBody.1 p₁ rest₁ rfl hbody) rfl
    · have hrun : (loop S len).run (p, data) = (.user, q) := Machine.run_halt huser
      rw [hrun]
      exact .inr ⟨rfl, hobjects⟩

theorem execute_unmoved (hlive : Live p) (hbody : InBody p) :
    (p.execute S data = p.execute accepting data ∧ ((p.execute accepting data).1 = .ok → InBody (p.execute accepting data).2)) ∨
    (p.execute S data).1 = .user ∧ Objects S := by
  have hgo : ¬(p.state = .dead ∨ p.state = .messageDone) := by
    rintro (h | h)
    · exact hlive.alive.1 h
    · exact hlive.alive.2 h
  rw [execute, execute, if_neg hgo, if_neg hgo]
  exact run_unmoved hlive hbody

theorem feedSlice_inBody (hlive : Live p) (hbody : InBody p) (data : List UInt8) :
    p.feedSlice accepting data =
      ((p.execute accepting data).1, (p.execute accepting data).2, (p.execute accepting data).2.consumed) := by
  refine if_neg fun honly => ?_
  exact (headersOnly_execute accepting_decides hlive honly).1 hbody

theorem feed_unmoved {t : Nat} (hlive : Live p) (hbody : InBody p) (slices : List (List UInt8)) :
    p.feed S t slices = p.feed accepting t slices ∨ (p.feed S t slices).1 = .user ∧ Objects S := by
  induction slices generalizing p t with
  | nil => exact .inl rfl
  | cons data slices ih =>
    have haccepted := feedSlice_inBody hlive hbody data
    rcases execute_unmoved (S := S) hlive hbody with ⟨hsame, hnext⟩ | ⟨huser, hobjects⟩
    · have hslice : p.feedSlice S data = p.feedSlice accepting data := by
        rw [haccepted, feedSlice, hsame]
        exact if_neg fun honly => (headersOnly_execute accepting_decides hlive honly).1 hbody
      simp only [feed, hslice]
      by_cases hok : (p.feedSlice accepting data).1 = .ok
      · rw [if_pos hok, if_pos hok]
        rw [haccepted] at hok ⊢
        exact ih ((ran_execute accepting_decides hlive).live hok) (hnext hok)
      · rw [if_neg hok, if_neg hok]
        exact .inl rfl
    · have hslice : (p.feedSlice S data).1 = .user := by
        rw [feedSlice, if_neg (by rw [huser]; exact Errno.noConfusion)]
        exact huser
      refine .inr ⟨?_, hobjects⟩
      simp only [feed]
      rw [if_neg (by rw [hslice]; exact Errno.noConfusion)]
      exact hslice

end Parser

end Ccollections.Chttp1
