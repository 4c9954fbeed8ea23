import Ccollections.Chttp1.Lemmas.Charges
import Ccollections.Chttp1.Lemmas.LineRoom

/-!
# The limits of a run
-/

namespace Ccollections.Chttp1
open Lib List

namespace Parser

variable {S : Settings} {p p' : Parser} {rest : List UInt8} {n : Nat}

/-! ## Stores -/

theorem lineCap_le (budget : Nat) : p.lineCap budget ≤ p.bufferSize := by
  rw [lineCap, bufferSize]
  split
  · rw [spillCap]
    split
    · rename_i h
      simp only [Bool.and_eq_true, decide_eq_true_eq] at h
      exact Nat.le_of_lt h.2
    · exact Nat.le_refl _
  · exact Nat.le_refl _

theorem bufferSize_le (p : Parser) : p.bufferSize ≤ chttp1MaxSpillLineLen := by
  rw [bufferSize]
  split
  · exact Nat.le_refl _
  · decide

theorem pushByte_cases (p : Parser) (budget : Nat) (c : UInt8) :
    (p.line.length < p.lineCap budget ∧ p.pushByte budget c = p.appendByte c ∧ p.pushStores budget = [p.appendStore]) ∨
    (budget ≠ 0 ∧ p.lineSpill = false ∧ chttp1MaxLineLen ≤ p.line.length ∧
      ((p.line.length < ({ p with lineSpill := true } : Parser).lineCap budget ∧
          p.pushByte budget c = ({ p with lineSpill := true } : Parser).appendByte c ∧
          p.pushStores budget = [⟨0, p.line.length, chttp1MaxSpillLineLen⟩, ({ p with lineSpill := true } : Parser).appendStore]) ∨
        p.pushByte budget c = (.tooLong, { p with lineSpill := true }) ∧
          p.pushStores budget = [⟨0, p.line.length, chttp1MaxSpillLineLen⟩])) ∨
    p.pushByte budget c = (.tooLong, p) ∧ p.pushStores budget = [] := by
  simp only [pushByte, pushStores]
  by_cases hcap : p.line.length < p.lineCap budget
  · exact .inl ⟨hcap, if_pos hcap, if_pos hcap⟩
  · rw [if_neg hcap, if_neg hcap]
    by_cases hzero : budget = 0
    · exact .inr (.inr ⟨if_pos hzero, if_pos hzero⟩)
    · rw [if_neg hzero, if_neg hzero]
      cases hgrow : p.lineSpillGrow budget with
      | none => exact .inr (.inr ⟨rfl, rfl⟩)
      | some p₁ =>
        simp only [lineSpillGrow] at hgrow
        split at hgrow
        · cases hgrow
        · rename_i hmay
          split at hgrow
          · cases hgrow
          · split at hgrow
            · cases hgrow
              simp only [Bool.or_eq_true, Bool.not_eq_true', not_or, Bool.not_eq_true] at hmay
              have hlen : chttp1MaxLineLen ≤ p.line.length := by
                rw [lineCap, hmay.2] at hcap
                exact Nat.not_lt.mp hcap
              refine .inr (.inl ⟨hzero, hmay.2, hlen, ?_⟩)
              by_cases hcap' : p.line.length < ({ p with lineSpill := true } : Parser).lineCap budget
              · refine .inl ⟨hcap', if_pos hcap', ?_⟩
                dsimp only
                rw [if_pos hcap']
                rfl
              · refine .inr ⟨if_neg hcap', ?_⟩
                dsimp only
                rw [if_neg hcap']
                rfl
            · cases hgrow

def Fits (r : LineResult) (p : Parser) : Prop :=
  p.line.length ≤ p.bufferSize ∧ (r = .ready → p.line.length + 2 ≤ p.bufferSize)

theorem fits_appendByte {budget : Nat} (h : p.line.length < p.lineCap budget) (c : UInt8) :
    Fits (p.appendByte c).1 (p.appendByte c).2 := by
  have hroom := Nat.lt_of_lt_of_le h (lineCap_le budget)
  simp only [appendByte]
  split
  · split
    · rename_i hcr
      have hpos : p.line ≠ [] := by
        rintro hnil
        rw [hnil] at hcr
        cases hcr
      have hlen := length_pos_of_ne_nil hpos
      refine ⟨?_, fun _ => ?_⟩
      · show p.line.dropLast.length ≤ p.bufferSize
        rw [length_dropLast]
        omega
      · show p.line.dropLast.length + 2 ≤ p.bufferSize
        rw [length_dropLast]
        omega
    · refine ⟨?_, by rintro ⟨⟩⟩
      show (p.line ++ [c]).length ≤ p.bufferSize
      rw [length_append]
      exact hroom
  · refine ⟨?_, by rintro ⟨⟩⟩
    show (p.line ++ [c]).length ≤ p.bufferSize
    rw [length_append]
    exact hroom

theorem fits_pushByte (h : p.line.length ≤ p.bufferSize) (budget : Nat) (c : UInt8) :
    Fits (p.pushByte budget c).1 (p.pushByte budget c).2 ∧ ∀ st ∈ p.pushStores budget, st.stop ≤ st.size := by
  rcases pushByte_cases p budget c with ⟨hcap, hpush, hstores⟩ | ⟨-, -, -, ⟨hcap, hpush, hstores⟩ | ⟨hpush, hstores⟩⟩ | ⟨hpush, hstores⟩
  · rw [hpush, hstores]
    refine ⟨fits_appendByte hcap c, ?_⟩
    intro st hst
    rw [mem_singleton.mp hst]
    exact Nat.lt_of_lt_of_le hcap (lineCap_le budget)
  · rw [hpush, hstores]
    refine ⟨fits_appendByte hcap c, ?_⟩
    intro st hst
    rcases mem_cons.mp hst with rfl | hst
    · exact Nat.le_trans h (bufferSize_le p)
    · rw [mem_singleton.mp hst]
      exact Nat.lt_of_lt_of_le hcap (lineCap_le budget)
  · rw [hpush, hstores]
    refine ⟨⟨Nat.le_trans h (bufferSize_le p), nofun⟩, ?_⟩
    intro st hst
    rw [mem_singleton.mp hst]
    exact Nat.le_trans h (bufferSize_le p)
  · rw [hpush, hstores]
    exact ⟨⟨h, nofun⟩, nofun⟩

theorem fits_accumulateLine (h : p.line.length ≤ p.bufferSize) (budget : Nat) (data : List UInt8) :
    Fits (p.accumulateLine budget data).1 (p.accumulateLine budget data).2.1 ∧
      ∀ st ∈ p.lineStores budget data, st.stop ≤ st.size := by
  induction data generalizing p with
  | nil => exact ⟨⟨h, nofun⟩, nofun⟩
  | cons c data ih =>
    obtain ⟨hfits, hstores⟩ := fits_pushByte h budget c
    rw [accumulateLine, lineStores]
    generalize p.pushByte budget c = r at hfits
    obtain ⟨r, p₁⟩ := r
    cases r with
    | needMore =>
      obtain ⟨hrest, hmore⟩ := ih hfits.1
      refine ⟨hrest, ?_⟩
      intro st hst
      rcases mem_append.mp hst with hst | hst
      · exact hstores st hst
      · exact hmore st hst
    | ready => exact ⟨hfits, fun st hst => hstores st (by simpa using hst)⟩
    | tooLong => exact ⟨hfits, fun st hst => hstores st (by simpa using hst)⟩
    | badEol => exact ⟨hfits, fun st hst => hstores st (by simpa using hst)⟩

/-! ## Sums -/

theorem headerBytes_append (lines lines' : List Line) : headerBytes (lines ++ lines') = headerBytes lines + headerBytes lines' := by
  rw [headerBytes, map_append, sum_append]
  rfl

theorem framing_append (lines lines' : List Line) : framing (lines ++ lines') = framing lines + framing lines' := by
  rw [framing, map_append, sum_append]
  rfl

theorem allowance_append (lines lines' : List Line) : allowance (lines ++ lines') = allowance lines + allowance lines' := by
  rw [allowance, map_append, sum_append]
  rfl

theorem chunkEarned_le (v : Nat) : chunkEarned v ≤ 16 + 2 * v := by
  rw [chunkEarned]
  split
  · rename_i h
    rw [uint64Max] at *
    omega
  · exact Nat.le_refl _

/-! ## The invariant -/

/-- The counters of a parser against the lines that it accepted. A dead parser may have counted one more. -/
structure Counted (a : Account) (alive : Prop) (lines : List Line) : Prop where
  total : alive → a.total = headerBytes lines
  capped : a.total ≤ a.maxBytes
  bytes : headerBytes lines ≤ a.maxBytes
  fields : alive → a.fields = a.count
  fieldsCapped : a.fields ≤ a.maxCount
  count : a.count ≤ headerBytes lines
  excess : a.excess ≤ chttp1MaxChunkOverheadExcess
  paid : framing lines ≤ allowance lines + a.excess

theorem Counted.dead {a : Account} {alive alive' : Prop} {lines : List Line} (h : Counted a alive lines) (hdead : alive' → alive) :
    Counted a alive' lines where
  total := h.total ∘ hdead
  capped := h.capped
  bytes := h.bytes
  fields := h.fields ∘ hdead
  fieldsCapped := h.fieldsCapped
  count := h.count
  excess := h.excess
  paid := h.paid

def taken (p : Parser) (out : Stepped) : List Line := if accepts out then [⟨p.state, p.line⟩] else []

theorem taken_of (h : accepts out = true) : taken p out = [⟨p.state, p.line⟩] := if_pos h

theorem taken_not {out : Stepped} (h : accepts out = false) : taken p out = [] := by
  rw [taken, h]
  rfl

theorem sum_singleton (l : Line) : headerBytes [l] = l.headerBytes ∧ framing [l] = l.framing ∧ allowance [l] = l.allowance :=
  ⟨List.sum_singleton, List.sum_singleton, List.sum_singleton⟩

theorem Counted.line {out : Stepped} {lines : List Line} (h : Counted p.account True lines)
    (hroom : p.totalHeaderBytes + (p.line.length + 2) ≤ sizeMax) (hcharged : Charged p out) :
    Counted (next out).account ((next out).state ≠ .dead) (lines ++ taken p out) := by
  have htotal : p.totalHeaderBytes = headerBytes lines := h.total trivial
  have hfields : fieldEvents p.log = p.headerCount := h.fields trivial
  have hcount : p.headerCount ≤ headerBytes lines := h.count
  have hadd : sizeAdd p.totalHeaderBytes (p.line.length + 2) = p.totalHeaderBytes + (p.line.length + 2) := sizeAdd_eq hroom
  have hone : sizeAdd p.headerCount 1 = p.headerCount + 1 := sizeAdd_eq (by omega)
  cases hcharged with
  | same haccount hfree =>
    rw [haccount]
    rcases hfree with hno | ⟨hbytes, hframing, hallowance⟩
    · rw [taken_not hno, append_nil]
      exact h.dead fun _ => trivial
    · have hsums : headerBytes (lines ++ taken p out) = headerBytes lines ∧ framing (lines ++ taken p out) = framing lines ∧
          allowance (lines ++ taken p out) = allowance lines := by
        rw [headerBytes_append, framing_append, allowance_append, taken]
        obtain ⟨hb, hf, ha⟩ := sum_singleton ⟨p.state, p.line⟩
        split
        · rw [hb, hf, ha, hbytes, hframing, hallowance]
          exact ⟨rfl, rfl, rfl⟩
        · exact ⟨rfl, rfl, rfl⟩
      exact
        { total := fun _ => by rw [hsums.1]; exact htotal
          capped := h.capped
          bytes := by rw [hsums.1]; exact h.bytes
          fields := fun _ => hfields
          fieldsCapped := h.fieldsCapped
          count := by rw [hsums.1]; exact h.count
          excess := h.excess
          paid := by rw [hsums.2.1, hsums.2.2]; exact h.paid }
  | first hstate hcap haccount hline hdead =>
    rw [haccount]
    rw [hadd] at hcap ⊢
    cases haccepts : accepts out with
    | false =>
      rw [taken_not haccepts, append_nil]
      exact
        { total := fun halive => absurd (hdead haccepts) halive
          capped := hcap
          bytes := h.bytes
          fields := fun _ => hfields
          fieldsCapped := h.fieldsCapped
          count := h.count
          excess := h.excess
          paid := h.paid }
    | true =>
      obtain ⟨hb, hf, ha⟩ := sum_singleton ⟨p.state, p.line⟩
      have hbytes : Line.headerBytes ⟨p.state, p.line⟩ = p.line.length + 2 := by
        rw [Line.headerBytes, hstate]
        exact if_neg (hline haccepts)
      have hframing : Line.framing ⟨p.state, p.line⟩ = 0 := by rw [Line.framing, hstate]; rfl
      have hallowance : Line.allowance ⟨p.state, p.line⟩ = 0 := by rw [Line.allowance, hstate]; rfl
      rw [taken_of haccepts]
      exact
        { total := fun _ => by rw [headerBytes_append, hb, hbytes, ← htotal]
          capped := hcap
          bytes := by rw [headerBytes_append, hb, hbytes, ← htotal]; exact hcap
          fields := fun _ => hfields
          fieldsCapped := h.fieldsCapped
          count := by rw [headerBytes_append]; exact Nat.le_trans h.count (Nat.le_add_right _ _)
          excess := h.excess
          paid := by rw [framing_append, allowance_append, hf, ha, hframing, hallowance]; exact h.paid }
  | field hstate hline haccepts hcap hcount' haccount =>
    rw [haccount]
    rw [hadd] at hcap ⊢
    rw [hone] at hcount' ⊢
    obtain ⟨hb, hf, ha⟩ := sum_singleton ⟨p.state, p.line⟩
    have hbytes : Line.headerBytes ⟨p.state, p.line⟩ = p.line.length + 2 := by
      rw [Line.headerBytes]
      rcases hstate with hs | hs <;> rw [hs] <;> exact if_neg hline
    have hzero : Line.framing ⟨p.state, p.line⟩ = 0 ∧ Line.allowance ⟨p.state, p.line⟩ = 0 := by
      rw [Line.framing, Line.allowance]
      rcases hstate with hs | hs <;> rw [hs] <;> exact ⟨rfl, rfl⟩
    rw [taken_of haccepts]
    exact
      { total := fun _ => by rw [headerBytes_append, hb, hbytes, ← htotal]
        capped := hcap
        bytes := by rw [headerBytes_append, hb, hbytes, ← htotal]; exact hcap
        fields := fun _ => congrArg (· + 1) hfields
        fieldsCapped := by rw [hfields]; exact hcount'
        count := by
          rw [headerBytes_append, hb, hbytes]
          show p.headerCount + 1 ≤ _
          omega
        excess := h.excess
        paid := by rw [framing_append, allowance_append, hf, ha, hzero.1, hzero.2]; exact h.paid }
  | refused haccepts hdead hcount' haccount =>
    rw [haccount, taken_not haccepts, append_nil]
    rw [hone] at hcount'
    exact
      { total := fun halive => absurd hdead halive
        capped := h.capped
        bytes := h.bytes
        fields := fun halive => absurd hdead halive
        fieldsCapped := by rw [hfields]; exact hcount'
        count := h.count
        excess := h.excess
        paid := h.paid }
  | chunk hstate haccepts hexcess haccount =>
    rw [haccount, taken_of haccepts]
    obtain ⟨hb, hf, ha⟩ := sum_singleton ⟨p.state, p.line⟩
    have hbytes : Line.headerBytes ⟨p.state, p.line⟩ = 0 := by rw [Line.headerBytes, hstate]
    have hframing : Line.framing ⟨p.state, p.line⟩ = p.line.length + 4 := by
      rw [Line.framing, hstate]
      rfl
    have hallowance : Line.allowance ⟨p.state, p.line⟩ = 16 + 2 * Line.chunkSize ⟨p.state, p.line⟩ := by
      rw [Line.allowance, hstate]
      rfl
    have hearned := chunkEarned_le (Line.chunkSize ⟨p.state, p.line⟩)
    have hpaid : framing lines ≤ allowance lines + p.chunkExcess := h.paid
    exact
      { total := fun _ => by rw [headerBytes_append, hb, hbytes]; exact htotal
        capped := h.capped
        bytes := by rw [headerBytes_append, hb, hbytes]; exact h.bytes
        fields := fun _ => hfields
        fieldsCapped := h.fieldsCapped
        count := by rw [headerBytes_append, hb, hbytes]; exact h.count
        excess := hexcess
        paid := by
          rw [framing_append, allowance_append, hf, ha, hframing, hallowance]
          dsimp only
          omega }

/-! ## Rounds -/

theorem headerBytes_le (l : Line) : l.headerBytes ≤ l.text.length + 2 := by
  rw [Line.headerBytes]
  split
  · split
    · exact Nat.zero_le _
    · exact Nat.le_refl _
  · split
    · exact Nat.zero_le _
    · exact Nat.le_refl _
  · split
    · exact Nat.zero_le _
    · exact Nat.le_refl _
  · exact Nat.zero_le _

theorem alive_of_isLine (h : p.state.isLine = true) : p.state ≠ .dead := by
  intro hdead
  rw [hdead] at h
  cases h

theorem step_dead (len : Nat) (data : List UInt8) (h : p.state = .dead) : next (step S len (p, data)) = p := by
  cases data with
  | nil => rfl
  | cons c data => simp only [step, h, next, Sum.elim_inr]

end Parser

namespace Metered
open Chttp1.Parser

variable {S : Settings} {m : Metered} {p : Parser} {lines : List Line} {stores : List Store} {read : Nat}

structure Within (m : Metered) : Prop where
  counted : Counted m.parser.account (m.parser.state ≠ .dead) m.lines
  read : m.parser.state ≠ .dead → headerBytes m.lines + m.parser.line.length ≤ m.read
  fits : m.parser.state ≠ .dead → m.parser.line.length ≤ m.parser.bufferSize
  stores : ∀ st ∈ m.stores, st.stop ≤ st.size

/-- A run that reads less than `2 ^ 64` bytes, or a byte cap that leaves room for one more line. -/
def Bounded (maxBytes : Nat) (read : Nat) : Prop := read ≤ sizeMax ∨ maxBytes + chttp1MaxSpillLineLen ≤ sizeMax

theorem within_same (h : Within m) (len : Nat) (data : List UInt8) (hline : m.parser.state.isLine = false) :
    Within (m.round S len data) := by
  obtain ⟨haccount, hsame, hspill, -, -⟩ := step_untouched (S := S) len data hline
  have hlines : (m.round S len data).lines = m.lines := by
    show m.lines ++ m.parser.stepLines S len data = _
    rw [stepLines, hline]
    exact append_nil _
  have hstores : (m.round S len data).stores = m.stores := by
    show m.stores ++ m.parser.stepStores data = _
    rw [stepStores, hline]
    exact append_nil _
  have halive : (m.round S len data).parser.state ≠ .dead → m.parser.state ≠ .dead := by
    intro halive hdead
    have hparser : (m.round S len data).parser = m.parser := step_dead len data hdead
    rw [hparser] at halive
    exact halive hdead
  have hread : m.read ≤ (m.round S len data).read := Nat.le_add_right _ _
  exact
    { counted := by
        rw [hlines]
        show Counted (next (step S len (m.parser, data))).account _ _
        rw [haccount]
        exact h.counted.dead halive
      read := fun hstate => by
        have hbytes := h.read (halive hstate)
        rw [hlines]
        show headerBytes m.lines + (next (step S len (m.parser, data))).line.length ≤ _
        rw [hsame]
        exact Nat.le_trans hbytes hread
      fits := fun hstate => by
        show (next (step S len (m.parser, data))).line.length ≤ (next (step S len (m.parser, data))).bufferSize
        rw [bufferSize, hspill, hsame]
        exact h.fits (halive hstate)
      stores := by
        rw [hstores]
        exact h.stores }

theorem round_nil (m : Metered) (len : Nat) : m.round S len [] = m := by
  have hlines : m.parser.stepLines S len [] = [] := by
    rw [stepLines]
    split <;> rfl
  have hstores : m.parser.stepStores [] = [] := by
    rw [stepStores]
    split <;> rfl
  rw [round, hlines, hstores, append_nil, append_nil]
  rfl

theorem round_line {text rest : List UInt8} (hisLine : m.parser.state.isLine = true) (hline : m.parser.line = []) (htext : 0x0A ∉ text)
    (hroom : text.length + 2 ≤ m.parser.lineRoom m.parser.stateSpillBudget) (len : Nat) :
    (m.round S len (text ++ (lineEnd ++ rest))).parser = next ((m.parser.holding text).lineReady S rest (len - rest.length)) ∧
      (m.round S len (text ++ (lineEnd ++ rest))).lines =
        m.lines ++ taken (m.parser.holding text) ((m.parser.holding text).lineReady S rest (len - rest.length)) := by
  constructor
  · exact congrArg next (step_lineEnd hisLine hline htext hroom)
  · show m.lines ++ m.parser.stepLines S len _ = _
    rw [stepLines, if_pos hisLine, accumulateLine_lineEnd hline htext hroom]
    rfl

theorem within_ready {p₁ : Parser} {data rest used : List UInt8} (h : Within m) (hline : m.parser.state.isLine = true)
    (hstate : p₁.state = m.parser.state) (haccount : p₁.account = m.parser.account)
    (hused : data = used ++ rest) (hend : m.parser.line ++ used = p₁.line ++ [0x0D, 0x0A])
    (hfits : p₁.line.length + 2 ≤ p₁.bufferSize) (len : Nat)
    (hstep : step S len (m.parser, data) = p₁.lineReady S rest (len - rest.length))
    (hlines : m.parser.stepLines S len data = taken p₁ (p₁.lineReady S rest (len - rest.length)))
    (hstores : ∀ st ∈ m.parser.stepStores data, st.stop ≤ st.size)
    (hbounded : Bounded m.parser.effectiveMaxTotalHeaderBytes (m.round S len data).read) : Within (m.round S len data) := by
  have hline₁ : p₁.state.isLine = true := by
    rw [hstate]
    exact hline
  have halive : m.parser.state ≠ .dead := alive_of_isLine hline
  have hcharged := @charged_line S _ rest (len - rest.length) hline₁
  have hempty := @lineReady_line S _ rest (len - rest.length) hline₁
  have hparser : (m.round S len data).parser = next (p₁.lineReady S rest (len - rest.length)) := congrArg next hstep
  have hread : m.read + used.length ≤ (m.round S len data).read := by
    have hlen : used.length ≤ data.length - (step S len (m.parser, data)).elim (fun s => s.2.length) fun _ => 0 := by
      rw [hstep, hused, length_append]
      cases hout : p₁.lineReady S rest (len - rest.length) with
      | inl s =>
        obtain ⟨q, rest'⟩ := s
        rw [lineReady_rest hout]
        show _ ≤ used.length + rest.length - rest.length
        omega
      | inr r =>
        show _ ≤ used.length + rest.length - 0
        omega
    exact Nat.add_le_add_left hlen m.read
  have htext : m.parser.line.length + used.length = p₁.line.length + 2 := by
    have hlen := congrArg List.length hend
    rw [length_append, length_append] at hlen
    exact hlen
  have hbytes := h.read halive
  have htotal : p₁.totalHeaderBytes = headerBytes m.lines := (congrArg Account.total haccount).trans (h.counted.total halive)
  have hcapped : p₁.totalHeaderBytes ≤ m.parser.effectiveMaxTotalHeaderBytes :=
    Nat.le_trans (Nat.le_of_eq (congrArg Account.total haccount)) h.counted.capped
  have hroom : p₁.totalHeaderBytes + (p₁.line.length + 2) ≤ sizeMax := by
    rcases hbounded with hshort | hsmall
    · omega
    · have hsize := bufferSize_le p₁
      omega
  have hcounted : Counted p₁.account True m.lines := by
    rw [haccount]
    exact h.counted.dead fun _ => halive
  have hrow := Counted.line hcounted hroom hcharged
  exact
    { counted := by
        show Counted _ _ (m.lines ++ m.parser.stepLines S len data)
        rw [hparser, hlines]
        exact hrow
      read := fun hstate' => by
        rw [hparser] at hstate'
        show headerBytes (m.lines ++ m.parser.stepLines S len data) + _ ≤ _
        rw [hparser, hempty hstate', hlines, headerBytes_append, length_nil]
        have hadded : headerBytes (taken p₁ (p₁.lineReady S rest (len - rest.length))) ≤ p₁.line.length + 2 := by
          rw [taken]
          split
          · rw [(sum_singleton _).1]
            exact headerBytes_le _
          · exact Nat.zero_le _
        omega
      fits := fun hstate' => by
        rw [hparser] at hstate' ⊢
        rw [hempty hstate']
        exact Nat.zero_le _
      stores := by
        intro st hst
        rcases mem_append.mp hst with hst | hst
        · exact h.stores st hst
        · exact hstores st hst }

theorem within_round (h : Within m) (len : Nat) (data : List UInt8)
    (hbounded : Bounded m.parser.effectiveMaxTotalHeaderBytes (m.round S len data).read) : Within (m.round S len data) := by
  cases hline : m.parser.state.isLine with
  | false => exact within_same h len data hline
  | true =>
    cases data with
    | nil =>
      rw [round_nil]
      exact h
    | cons c data =>
      have halive := alive_of_isLine hline
      obtain ⟨hfits, hstored⟩ := fits_accumulateLine (h.fits halive) m.parser.stateSpillBudget (c :: data)
      obtain ⟨line, spill, hframe⟩ := accumulateLine_frame (p := m.parser) m.parser.stateSpillBudget (c :: data)
      have hstores : ∀ st ∈ m.parser.stepStores (c :: data), st.stop ≤ st.size := by
        rw [stepStores, if_pos hline]
        exact hstored
      have hallStores : ∀ st ∈ (m.round S len (c :: data)).stores, st.stop ≤ st.size := by
        intro st hst
        rcases mem_append.mp hst with hst | hst
        · exact h.stores st hst
        · exact hstores st hst
      have hstep := step_isLine (S := S) hline len c data
      have hlines : m.parser.stepLines S len (c :: data) = _ := if_pos hline
      rw [lineStep] at hstep
      cases hrun : m.parser.accumulateLine m.parser.stateSpillBudget (c :: data) with
      | mk r out =>
        obtain ⟨p₁, rest⟩ := out
        rw [hrun] at hframe hfits hstep hlines
        dsimp only at hframe hfits hstep hlines
        obtain ⟨hmore, hready⟩ := accumulateLine_line hrun
        have haccount : p₁.account = m.parser.account := by
          rw [hframe]
          rfl
        have hstate : p₁.state = m.parser.state := by rw [hframe]
        -- A line that breaks the rules kills the parser.
        have hfailed : ∀ reason, step S len (m.parser, c :: data) = .inr (p₁.fail reason) →
            m.parser.stepLines S len (c :: data) = [] → Within (m.round S len (c :: data)) := by
          intro reason hstep hlines
          have hparser : (m.round S len (c :: data)).parser = (p₁.fail reason).2 := congrArg next hstep
          have hdead : ¬(m.round S len (c :: data)).parser.state ≠ .dead := by
            rw [hparser]
            exact fun h => h rfl
          exact
            { counted := by
                have hnone : (m.round S len (c :: data)).lines = m.lines := by
                  show m.lines ++ _ = _
                  rw [hlines, append_nil]
                have hsame : (p₁.fail reason).2.account = m.parser.account := haccount
                rw [hnone, hparser, hsame]
                exact h.counted.dead fun _ => halive
              read := fun hstate => absurd hstate hdead
              fits := fun hstate => absurd hstate hdead
              stores := hallStores }
        cases r with
        | needMore =>
          obtain ⟨rfl, hgrown⟩ := hmore rfl
          have hparser : (m.round S len (c :: data)).parser = p₁ := congrArg next hstep
          have hread : (m.round S len (c :: data)).read = m.read + (c :: data).length := by
            show m.read + (_ - (step S len (m.parser, c :: data)).elim _ _) = _
            rw [hstep]
            rfl
          have hnone : (m.round S len (c :: data)).lines = m.lines := by
            show m.lines ++ _ = _
            rw [hlines, append_nil]
          exact
            { counted := by
                rw [hnone, hparser, haccount, hstate]
                exact h.counted
              read := fun _ => by
                have hbytes := h.read halive
                rw [hnone, hparser, hgrown, hread, length_append]
                omega
              fits := fun _ => by
                rw [hparser]
                exact hfits.1
              stores := hallStores }
        | tooLong => exact hfailed _ hstep hlines
        | badEol => exact hfailed _ hstep hlines
        | ready =>
          obtain ⟨used, hused, hend⟩ := hready rfl
          exact within_ready h hline hstate haccount hused hend (hfits.2 rfl) len hstep hlines hstores hbounded

/-! ## Runs -/

theorem maxima_line {out : Stepped} (h : Charged p out) :
    (next out).effectiveMaxTotalHeaderBytes = p.effectiveMaxTotalHeaderBytes ∧
      (next out).effectiveMaxHeaderCount = p.effectiveMaxHeaderCount := by
  have hboth : (next out).account.maxBytes = p.account.maxBytes ∧ (next out).account.maxCount = p.account.maxCount := by
    cases h with
    | same haccount => rw [haccount]; exact ⟨rfl, rfl⟩
    | first _ _ haccount => rw [haccount]; exact ⟨rfl, rfl⟩
    | field _ _ _ _ _ haccount => rw [haccount]; exact ⟨rfl, rfl⟩
    | refused _ _ _ haccount => rw [haccount]; exact ⟨rfl, rfl⟩
    | chunk _ _ _ haccount => rw [haccount]; exact ⟨rfl, rfl⟩
  exact hboth

theorem maxima_round (m : Metered) (len : Nat) (data : List UInt8) :
    (m.round S len data).parser.effectiveMaxTotalHeaderBytes = m.parser.effectiveMaxTotalHeaderBytes ∧
      (m.round S len data).parser.effectiveMaxHeaderCount = m.parser.effectiveMaxHeaderCount := by
  show (next (step S len (m.parser, data))).effectiveMaxTotalHeaderBytes = _ ∧
    (next (step S len (m.parser, data))).effectiveMaxHeaderCount = _
  cases hline : m.parser.state.isLine with
  | false =>
    have haccount := (step_untouched (S := S) len data hline).account
    exact ⟨congrArg Account.maxBytes haccount, congrArg Account.maxCount haccount⟩
  | true =>
    cases data with
    | nil => exact ⟨rfl, rfl⟩
    | cons c data =>
      obtain ⟨line, spill, hframe⟩ := accumulateLine_frame (p := m.parser) m.parser.stateSpillBudget (c :: data)
      rw [step_isLine hline, lineStep]
      generalize m.parser.accumulateLine m.parser.stateSpillBudget (c :: data) = r at hframe
      obtain ⟨r, p₁, rest⟩ := r
      dsimp only at hframe
      cases r with
      | needMore => rw [hframe]; exact ⟨rfl, rfl⟩
      | tooLong => rw [hframe]; exact ⟨rfl, rfl⟩
      | badEol => rw [hframe]; exact ⟨rfl, rfl⟩
      | ready =>
        obtain ⟨hbytes, hcount⟩ := maxima_line (@charged_line S _ rest (len - rest.length)
          (show p₁.state.isLine = true by rw [hframe]; exact hline))
        refine ⟨hbytes.trans ?_, hcount.trans ?_⟩ <;> rw [hframe] <;> rfl

theorem finish_untouched (S : Settings) (p : Parser) :
    Untouched p (p.finish S).2 ∧ ((p.finish S).2.state ≠ .dead → p.state ≠ .dead) := by
  have hcall := call_account (S := S) (p := p) (e := .messageComplete) rfl
  simp only [finish]
  split
  · exact ⟨.refl p, id⟩
  · rename_i halive
    split
    · exact ⟨.refl p, id⟩
    · split
      · exact ⟨.refl p, id⟩
      · split
        · exact ⟨⟨hcall, rfl, rfl, rfl, .inr (.inr (.inr rfl))⟩, fun _ => halive⟩
        · exact ⟨⟨hcall, rfl, rfl, rfl, .inr (.inr (.inl rfl))⟩, fun _ => halive⟩
      · exact ⟨⟨rfl, rfl, rfl, rfl, .inr (.inr (.inr rfl))⟩, fun _ => halive⟩

theorem within_finish (h : Within m) : Within { m with parser := (m.parser.finish S).2 } := by
  obtain ⟨⟨haccount, hline, hspill, -, -⟩, halive⟩ := finish_untouched S m.parser
  exact
    { counted := by
        show Counted (m.parser.finish S).2.account _ _
        rw [haccount]
        exact h.counted.dead halive
      read := fun hstate => by
        show headerBytes m.lines + (m.parser.finish S).2.line.length ≤ _
        rw [hline]
        exact h.read (halive hstate)
      fits := fun hstate => by
        show (m.parser.finish S).2.line.length ≤ (m.parser.finish S).2.bufferSize
        rw [bufferSize, hspill, hline]
        exact h.fits (halive hstate)
      stores := h.stores }

variable {type : ParserType} {config : Config}

def maxBytes (type : ParserType) (config : Config) : Nat := (parserInit type config).effectiveMaxTotalHeaderBytes

def maxCount (type : ParserType) (config : Config) : Nat := (parserInit type config).effectiveMaxHeaderCount

theorem within_start (type : ParserType) (config : Config) : Within (start type config) where
  counted :=
    { total := fun _ => rfl
      capped := Nat.zero_le _
      bytes := Nat.zero_le _
      fields := fun _ => rfl
      fieldsCapped := Nat.zero_le _
      count := Nat.zero_le _
      excess := Nat.zero_le _
      paid := Nat.zero_le _ }
  read := fun _ => Nat.zero_le _
  fits := fun _ => Nat.zero_le _
  stores := nofun

theorem within_reaches (h : Reaches S type config m) :
    (m.parser.effectiveMaxTotalHeaderBytes = maxBytes type config ∧ m.parser.effectiveMaxHeaderCount = maxCount type config) ∧
      (Bounded (maxBytes type config) m.read → Within m) := by
  refine Reach.invariant (P := fun m => (m.parser.effectiveMaxTotalHeaderBytes = maxBytes type config ∧
    m.parser.effectiveMaxHeaderCount = maxCount type config) ∧ (Bounded (maxBytes type config) m.read → Within m)) ?_ ?_ h
  · exact ⟨⟨rfl, rfl⟩, fun _ => within_start type config⟩
  · rintro m a m' ⟨hmaxima, hwithin⟩ hact
    obtain rfl := Option.some.inj hact
    cases a with
    | round len data =>
      obtain ⟨hbytes, hcount⟩ := maxima_round (S := S) m len data
      refine ⟨⟨hbytes.trans hmaxima.1, hcount.trans hmaxima.2⟩, fun hbounded => ?_⟩
      have hbefore : Bounded (maxBytes type config) m.read :=
        hbounded.imp_left fun hread => Nat.le_trans (Nat.le_add_right _ _) hread
      refine within_round (hwithin hbefore) len data ?_
      rw [hmaxima.1]
      exact hbounded
    | finish =>
      have haccount := (finish_untouched S m.parser).1.account
      exact ⟨⟨(congrArg Account.maxBytes haccount).trans hmaxima.1, (congrArg Account.maxCount haccount).trans hmaxima.2⟩,
        fun hbounded => within_finish (hwithin hbounded)⟩

theorem reaches_execute (h : Reaches S type config m) (data : List UInt8) :
    ∃ m', Reaches S type config m' ∧ m'.parser = (m.parser.execute S data).2 ∧ m'.read ≤ m.read + data.length := by
  rw [execute]
  split
  · exact ⟨m, h, rfl, Nat.le_add_right _ _⟩
  · refine Machine.run_invariant (m := loop S data.length)
      (P := fun s => ∃ m', Reaches S type config m' ∧ m'.parser = s.1 ∧ m'.read + s.2.length ≤ m.read + data.length)
      (Q := fun r => ∃ m', Reaches S type config m' ∧ m'.parser = r.2 ∧ m'.read ≤ m.read + data.length)
      ?_ ?_ ⟨m, h, rfl, Nat.le_refl _⟩
    · rintro ⟨p, bytes⟩ ⟨p', rest⟩ ⟨m', hm', hparser, hread⟩ (hstep : step S data.length (p, bytes) = _)
      have hless := step_measure (S := S) _ _ hstep
      obtain rfl := hparser
      refine ⟨m'.round S data.length bytes, hm'.tail (i := .round data.length bytes) rfl, congrArg next hstep, ?_⟩
      show m'.read + (bytes.length - (step S data.length (m'.parser, bytes)).elim _ _) + rest.length ≤ _
      rw [hstep]
      dsimp only [Sum.elim_inl] at hread ⊢
      have hle : rest.length ≤ bytes.length := by
        simp only [Parser.measure] at hless
        split at hless <;> split at hless <;> omega
      omega
    · rintro ⟨p, bytes⟩ r ⟨m', hm', hparser, hread⟩ (hstep : step S data.length (p, bytes) = _)
      obtain rfl := hparser
      refine ⟨m'.round S data.length bytes, hm'.tail (i := .round data.length bytes) rfl, congrArg next hstep, ?_⟩
      show m'.read + (bytes.length - _) ≤ _
      dsimp only at hread
      omega

end Metered

end Ccollections.Chttp1
