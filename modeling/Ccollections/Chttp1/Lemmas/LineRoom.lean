import Ccollections.Chttp1.Grammar
import Ccollections.Chttp1.Lemmas.Steps

/-!
# How long a line can be
-/

namespace Ccollections.Chttp1

open List

/-! ## Texts without line feeds -/

theorem split_lineFeed (data : List UInt8) : 0x0A ∉ data ∨ ∃ s rest, data = s ++ 0x0A :: rest ∧ 0x0A ∉ s := by
  induction data with
  | nil => exact .inl not_mem_nil
  | cons c data ih =>
    by_cases hc : c = 0x0A
    · exact .inr ⟨[], data, by rw [hc]; rfl, not_mem_nil⟩
    · have hne : ¬(0x0A : UInt8) = c := fun h => hc h.symm
      rcases ih with hno | ⟨s, rest, rfl, hs⟩
      · exact .inl fun h => (mem_cons.mp h).elim hne hno
      · exact .inr ⟨c :: s, rest, rfl, fun h => (mem_cons.mp h).elim hne hs⟩

namespace Parser

variable {S : Settings} {p p' : Parser} {content rest text data : List UInt8} {budget len : Nat}

def Placed (p : Parser) : Prop := p.lineSpill = false → p.line.length ≤ chttp1MaxLineLen

def grown (p : Parser) (text : List UInt8) : Parser :=
  { p with line := p.line ++ text, lineSpill := p.lineSpill || chttp1MaxLineLen < p.line.length + text.length }

theorem spillCap_gt (h : chttp1MaxLineLen < budget) : chttp1MaxLineLen < spillCap budget := by
  rw [spillCap]
  split
  · exact h
  · decide

theorem lineCap_le_lineRoom (p : Parser) (budget : Nat) : p.lineCap budget ≤ p.lineRoom budget := by
  rw [lineCap, lineRoom]
  cases p.lineSpill with
  | true => exact Nat.le_refl _
  | false =>
    simp only [Bool.false_or, Bool.false_eq_true, if_false]
    split
    · rename_i h
      simp only [Bool.and_eq_true, decide_eq_true_eq] at h
      exact Nat.le_of_lt (spillCap_gt h.2)
    · exact Nat.le_refl _

theorem maxLineLen_le_lineRoom (hspill : p.lineSpill = false) (budget : Nat) : chttp1MaxLineLen ≤ p.lineRoom budget := by
  have hcap := lineCap_le_lineRoom p budget
  rw [lineCap, hspill] at hcap
  exact hcap

theorem pushByte_room (h : p.line.length < p.lineRoom budget) (c : UInt8) :
    p.pushByte budget c = appendByte { p with lineSpill := p.lineSpill || chttp1MaxLineLen < p.line.length + 1 } c := by
  by_cases hcap : p.line.length < p.lineCap budget
  · have hsame : (p.lineSpill || decide (chttp1MaxLineLen < p.line.length + 1)) = p.lineSpill := by
      cases hspill : p.lineSpill with
      | true => rfl
      | false =>
        rw [lineCap, hspill] at hcap
        exact decide_eq_false (Nat.not_lt.mpr hcap)
    rw [pushByte, if_pos hcap, hsame]
  · have hspill : p.lineSpill = false := by
      cases hspill : p.lineSpill with
      | true =>
        rw [lineRoom, hspill] at h
        rw [lineCap, hspill] at hcap
        exact absurd h hcap
      | false => rfl
    have hfull : chttp1MaxLineLen ≤ p.line.length := by
      rw [lineCap, hspill] at hcap
      exact Nat.not_lt.mp hcap
    have hmay : p.lineSpillEnabled = true ∧ p.spillAlloc = true ∧ chttp1MaxLineLen < budget := by
      rw [lineRoom, hspill] at h
      split at h
      · rename_i hmay
        simpa [and_assoc] using hmay
      · exact absurd hfull (Nat.not_le.mpr h)
    obtain ⟨henabled, halloc, hbudget⟩ := hmay
    have hgrow : p.lineSpillGrow budget = some { p with lineSpill := true } := by
      rw [lineSpillGrow, henabled, hspill, halloc, if_neg (by decide), if_neg (Nat.not_le.mpr hbudget), if_pos rfl]
    have hroom : p.line.length < lineCap { p with lineSpill := true } budget := by
      rw [lineRoom, hspill, henabled, halloc] at h
      simpa [hbudget, lineCap] using h
    have hset : (p.lineSpill || decide (chttp1MaxLineLen < p.line.length + 1)) = true := by
      rw [decide_eq_true (Nat.lt_succ_of_le hfull), Bool.or_true]
    rw [pushByte, if_neg hcap, if_neg (by omega), hgrow, hset]
    exact if_pos hroom

theorem pushByte_full (h : p.lineRoom budget ≤ p.line.length) (c : UInt8) : (p.pushByte budget c).1 = .tooLong := by
  have hcap : ¬p.line.length < p.lineCap budget := Nat.not_lt.mpr (Nat.le_trans (lineCap_le_lineRoom p budget) h)
  rw [pushByte, if_neg hcap]
  split
  · rfl
  · cases hgrow : p.lineSpillGrow budget with
    | none => rfl
    | some p₁ =>
      have hfull : ¬p₁.line.length < p₁.lineCap budget := by
        simp only [lineSpillGrow] at hgrow
        split at hgrow
        · cases hgrow
        · rename_i hmay
          split at hgrow
          · cases hgrow
          · rename_i hbudget
            split at hgrow
            · rename_i halloc
              cases hgrow
              simp only [Bool.or_eq_true, Bool.not_eq_true', not_or, Bool.not_eq_true, Bool.not_eq_false] at hmay
              rw [lineRoom, hmay.1, hmay.2, halloc, if_pos (by simpa using hbudget)] at h
              exact Nat.not_lt.mpr h
            · cases hgrow
      exact congrArg Prod.fst (if_neg hfull)

theorem grown_nil (hplaced : p.Placed) : p.grown [] = p := by
  have hsame : (p.lineSpill || decide (chttp1MaxLineLen < p.line.length)) = p.lineSpill := by
    cases hspill : p.lineSpill with
    | true => rfl
    | false => simpa using hplaced hspill
  rw [grown, append_nil, length_nil, Nat.add_zero, hsame]

theorem grown_placed (text : List UInt8) : (p.grown text).Placed := by
  intro hspill
  rw [grown, Bool.or_eq_false_iff, decide_eq_false_iff_not] at hspill
  rw [grown, length_append]
  exact Nat.not_lt.mp hspill.2

theorem grown_grown (a b : List UInt8) : (p.grown a).grown b = p.grown (a ++ b) := by
  have hspill : (p.lineSpill || decide (chttp1MaxLineLen < p.line.length + a.length) ||
      decide (chttp1MaxLineLen < (p.line ++ a).length + b.length)) =
        (p.lineSpill || decide (chttp1MaxLineLen < p.line.length + (a ++ b).length)) := by
    rw [Bool.or_assoc, length_append, length_append, ← Bool.decide_or]
    congr 2
    exact propext (by omega)
  rw [grown, grown, grown, hspill, append_assoc]

theorem lineRoom_grown (hroom : p.line.length + text.length ≤ p.lineRoom budget) :
    (p.grown text).lineRoom budget = p.lineRoom budget := by
  have hgrown : (p.grown text).lineSpill = (p.lineSpill || decide (chttp1MaxLineLen < p.line.length + text.length)) := rfl
  by_cases hlong : chttp1MaxLineLen < p.line.length + text.length
  · have hspill : (p.grown text).lineSpill = true := by rw [hgrown, decide_eq_true hlong, Bool.or_true]
    have hmay : (p.lineSpill || (p.lineSpillEnabled && p.spillAlloc && decide (chttp1MaxLineLen < budget))) = true := by
      by_contra hno
      rw [lineRoom, if_neg hno] at hroom
      omega
    rw [lineRoom, lineRoom, hspill, if_pos hmay]
    rfl
  · have hspill : (p.grown text).lineSpill = p.lineSpill := by rw [hgrown, decide_eq_false hlong, Bool.or_false]
    rw [lineRoom, lineRoom, hspill]
    rfl

theorem pushByte_grown (hroom : p.line.length < p.lineRoom budget) {c : UInt8} (hc : 0x0A ≠ c) :
    p.pushByte budget c = (.needMore, p.grown [c]) := by
  rw [pushByte_room hroom, appendByte, if_neg (Ne.symm hc)]
  rfl

theorem accumulateLine_room (hplaced : p.Placed) (htext : 0x0A ∉ text) (hroom : p.line.length + text.length ≤ p.lineRoom budget) :
    p.accumulateLine budget (text ++ rest) = (p.grown text).accumulateLine budget rest := by
  induction text generalizing p with
  | nil => rw [grown_nil hplaced, nil_append]
  | cons c text ih =>
    rw [mem_cons, not_or] at htext
    rw [length_cons] at hroom
    have hone : p.line.length + [c].length ≤ p.lineRoom budget := by
      rw [length_singleton]
      omega
    have hpush := @pushByte_grown p budget (by omega) _ htext.1
    have hlen : (p.grown [c]).line.length = p.line.length + 1 := length_append
    have hrest := ih (grown_placed [c]) htext.2 (by rw [lineRoom_grown hone, hlen]; omega)
    rw [grown_grown] at hrest
    rw [cons_append, accumulateLine, hpush]
    exact hrest

theorem accumulateLine_tooLong (htext : 0x0A ∉ text) (hfits : p.line.length ≤ p.lineRoom budget)
    (hlong : p.lineRoom budget < p.line.length + text.length) :
    ∃ q, p.accumulateLine budget (text ++ rest) = (.tooLong, q, []) := by
  induction text generalizing p with
  | nil => exact absurd hlong (Nat.not_lt.mpr hfits)
  | cons c text ih =>
    rw [mem_cons, not_or] at htext
    rw [length_cons] at hlong
    rw [cons_append, accumulateLine]
    by_cases hroom : p.line.length < p.lineRoom budget
    · have hone : p.line.length + [c].length ≤ p.lineRoom budget := hroom
      have hlen : (p.grown [c]).line.length = p.line.length + 1 := length_append
      rw [pushByte_grown hroom htext.1]
      dsimp only
      refine ih htext.2 ?_ ?_
      · rw [lineRoom_grown hone, hlen]
        exact hroom
      · rw [lineRoom_grown hone, hlen]
        omega
    · have hfull := pushByte_full (p := p) (Nat.not_lt.mp hroom) c
      generalize p.pushByte budget c = r at hfull
      obtain ⟨r, q⟩ := r
      obtain rfl : r = .tooLong := hfull
      exact ⟨q, rfl⟩

theorem accumulateLine_full (hplaced : p.Placed) (htext : 0x0A ∉ text) (hfull : p.line.length + text.length = p.lineRoom budget)
    (c : UInt8) : ∃ q, p.accumulateLine budget (text ++ c :: rest) = (.tooLong, q, []) := by
  have hlen : (p.grown text).line.length = p.line.length + text.length := length_append
  have hroom := lineRoom_grown (Nat.le_of_eq hfull)
  have hpush := pushByte_full (p := p.grown text) (by rw [hroom, hlen]; exact Nat.le_of_eq hfull.symm) c
  rw [accumulateLine_room hplaced htext (Nat.le_of_eq hfull), accumulateLine]
  generalize (p.grown text).pushByte budget c = out at hpush
  obtain ⟨r, q⟩ := out
  obtain rfl : r = .tooLong := hpush
  exact ⟨q, rfl⟩

theorem accumulateLine_lineFeed (hroom : p.line.length < p.lineRoom budget) :
    p.accumulateLine budget (0x0A :: rest) =
      if p.line.getLast? = some 0x0D then (.ready, { p.grown [0x0A] with line := p.line.dropLast }, rest)
      else (.badEol, p.grown [0x0A], rest) := by
  rw [accumulateLine, pushByte_room hroom, appendByte, if_pos rfl]
  by_cases hcr : p.line.getLast? = some 0x0D
  · rw [if_pos hcr, if_pos hcr]
    rfl
  · rw [if_neg hcr, if_neg hcr]
    rfl

def holding (p : Parser) (line : List UInt8) : Parser :=
  { p with line := line, lineSpill := p.lineSpill || chttp1MaxLineLen < line.length + 2 }

theorem accumulateLine_lineEnd (hline : p.line = []) (htext : 0x0A ∉ text) (hroom : text.length + 2 ≤ p.lineRoom budget) :
    p.accumulateLine budget (text ++ (lineEnd ++ rest)) = (.ready, p.holding text, rest) := by
  have hplaced : p.Placed := fun _ => by rw [hline]; exact Nat.zero_le _
  have hlen : (text ++ [0x0D]).length = text.length + 1 := length_append
  have hfits : p.line.length + (text ++ [0x0D]).length ≤ p.lineRoom budget := by
    rw [hline, hlen, length_nil]
    omega
  have hgrown : (p.grown (text ++ [0x0D])).line = text ++ [0x0D] := by
    show p.line ++ _ = _
    rw [hline, nil_append]
  have hsplit : text ++ (lineEnd ++ rest) = (text ++ [0x0D]) ++ 0x0A :: rest := by
    rw [append_assoc]
    rfl
  have hlast : (text ++ [0x0D]).getLast? = some 0x0D := List.getLast?_concat
  have hboth : (text ++ [0x0D] ++ [0x0A]).length = text.length + 2 := by
    rw [length_append, hlen]
    rfl
  rw [hsplit, accumulateLine_room hplaced (by simpa using htext) hfits,
    accumulateLine_lineFeed (by rw [lineRoom_grown hfits, hgrown, hlen]; omega),
    hgrown, if_pos hlast, dropLast_concat, grown_grown, grown, hboth, hline, length_nil, Nat.zero_add]
  rfl

theorem exists_cons_lineEnd (text rest : List UInt8) : ∃ c data, text ++ (lineEnd ++ rest) = c :: data :=
  exists_cons_of_ne_nil (by simp [lineEnd])

theorem step_lineEnd (hisLine : p.state.isLine = true) (hline : p.line = []) (htext : 0x0A ∉ text)
    (hroom : text.length + 2 ≤ p.lineRoom p.stateSpillBudget) :
    step S len (p, text ++ (lineEnd ++ rest)) = (p.holding text).lineReady S rest (len - rest.length) := by
  obtain ⟨c, data, hdata⟩ := exists_cons_lineEnd text rest
  rw [hdata, step_isLine hisLine, ← hdata, lineStep, accumulateLine_lineEnd hline htext hroom]

theorem accumulateLine_ready (hline : p.line = []) (h : p.accumulateLine budget data = (.ready, p', rest)) :
    ∃ text, data = text ++ (lineEnd ++ rest) ∧ 0x0A ∉ text ∧ text.length + 2 ≤ p.lineRoom budget ∧ p' = p.holding text := by
  have hplaced : p.Placed := fun _ => by rw [hline]; exact Nat.zero_le _
  have hfits : p.line.length ≤ p.lineRoom budget := by
    rw [hline]
    exact Nat.zero_le _
  have hlen : ∀ s : List UInt8, p.line.length + s.length = s.length := fun s => by rw [hline]; exact Nat.zero_add _
  rcases split_lineFeed data with hno | ⟨s, rest', rfl, hs⟩
  · by_cases hroom : p.line.length + data.length ≤ p.lineRoom budget
    · have hrun := @accumulateLine_room p [] _ _ hplaced hno hroom
      rw [append_nil, h, accumulateLine] at hrun
      cases hrun
    · obtain ⟨q, hrun⟩ := @accumulateLine_tooLong p [] _ _ hno hfits (Nat.not_le.mp hroom)
      rw [append_nil, h] at hrun
      cases hrun
  · by_cases hroom : p.line.length + s.length ≤ p.lineRoom budget
    · have hrun := @accumulateLine_room p (0x0A :: rest') _ _ hplaced hs hroom
      have hgrown : (p.grown s).line = s := by
        show p.line ++ s = s
        rw [hline, nil_append]
      by_cases hfeed : s.length < p.lineRoom budget
      · rw [accumulateLine_lineFeed (by rw [lineRoom_grown hroom, hgrown]; exact hfeed), h,
          hgrown] at hrun
        split at hrun
        · rename_i hcr
          cases hrun
          have hlast := dropLast_append_getLast? 0x0D hcr
          have hcount : s.dropLast.length + 1 = s.length := by
            have hsum := congrArg List.length hlast
            rw [length_append] at hsum
            exact hsum
          refine ⟨s.dropLast, ?_, fun hmem => hs (mem_of_mem_dropLast hmem), by omega, ?_⟩
          · nth_rewrite 1 [← hlast]
            rw [append_assoc]
            rfl
          · have hspill : (p.lineSpill || decide (chttp1MaxLineLen < p.line.length + (s ++ [0x0A]).length)) =
                (p.lineSpill || decide (chttp1MaxLineLen < s.dropLast.length + 2)) := by
              rw [hlen, length_append, ← hcount]
              rfl
            rw [grown_grown, grown, holding, hspill]
        · cases hrun
      · have hfull := pushByte_full (p := p.grown s)
          (by rw [lineRoom_grown hroom, hgrown]; exact Nat.not_lt.mp hfeed) 0x0A
        rw [h, accumulateLine] at hrun
        generalize (p.grown s).pushByte budget 0x0A = r at hfull hrun
        obtain ⟨r, q⟩ := r
        obtain rfl : r = .tooLong := hfull
        cases hrun
    · obtain ⟨q, hrun⟩ := accumulateLine_tooLong hs hfits (Nat.not_le.mp hroom)
      rw [h] at hrun
      cases hrun

theorem accumulateLine_spill {r : LineResult} (h : p.accumulateLine budget data = (r, p', rest)) (hplaced : p.Placed) :
    (r = .needMore → p'.lineSpill = (p.lineSpill || chttp1MaxLineLen < p'.line.length)) ∧
    (r = .ready → p'.lineSpill = (p.lineSpill || chttp1MaxLineLen < p'.line.length + 2)) := by
  induction data generalizing p with
  | nil =>
    cases h
    refine ⟨fun _ => ?_, by rintro ⟨⟩⟩
    cases hspill : p'.lineSpill with
    | true => rfl
    | false => exact (decide_eq_false (Nat.not_lt.mpr (hplaced hspill))).symm
  | cons c data ih =>
    rw [accumulateLine] at h
    by_cases hroom : p.line.length < p.lineRoom budget
    · by_cases hc : (0x0A : UInt8) = c
      · rw [pushByte_room hroom, appendByte, if_pos hc.symm] at h
        split at h
        · rename_i heq
          split at heq <;> cases heq
        · rename_i heq
          split at heq <;> cases heq
        · rename_i heq
          cases h
          split at heq
          · rename_i hcr
            cases heq
            have hlast := congrArg List.length (dropLast_append_getLast? 0x0D hcr)
            rw [length_append] at hlast
            have hlen : p.line.length + 1 = p.line.dropLast.length + 2 := congrArg (· + 1) hlast.symm
            refine ⟨by rintro ⟨⟩, fun _ => ?_⟩
            rw [hlen]
          · cases heq
            exact ⟨by rintro ⟨⟩, by rintro ⟨⟩⟩
      · rw [pushByte_grown hroom hc] at h
        obtain ⟨hmore, hready⟩ := ih h (grown_placed [c])
        have hspill : (p.grown [c]).lineSpill = (p.lineSpill || decide (chttp1MaxLineLen < p.line.length + 1)) := rfl
        have hlonger : ∀ n, p.line.length + 1 ≤ n →
            ((p.grown [c]).lineSpill || decide (chttp1MaxLineLen < n)) = (p.lineSpill || decide (chttp1MaxLineLen < n)) := by
          intro n hn
          rw [hspill, Bool.or_assoc, ← Bool.decide_or]
          congr 2
          exact propext (by omega)
        have hline := accumulateLine_line h
        have hlen : (p.grown [c]).line.length = p.line.length + 1 := length_append
        refine ⟨fun hr => (hmore hr).trans (hlonger _ ?_), fun hr => (hready hr).trans (hlonger _ ?_)⟩
        · rw [(hline.1 hr).2, length_append, hlen]
          exact Nat.le_add_right _ _
        · obtain ⟨used, -, hend⟩ := hline.2 hr
          have hsum := congrArg List.length hend
          rw [length_append, length_append, hlen] at hsum
          have htwo : p'.line.length + 2 = p.line.length + 1 + used.length := hsum.symm
          omega
    · have hfull := pushByte_full (p := p) (Nat.not_lt.mp hroom) c
      generalize p.pushByte budget c = out at hfull h
      obtain ⟨r', q⟩ := out
      obtain rfl : r' = .tooLong := hfull
      cases h
      exact ⟨by rintro ⟨⟩, by rintro ⟨⟩⟩

theorem pushByte_noBudget (p : Parser) (c : UInt8) : (p.pushByte 0 c).2.lineSpill = p.lineSpill := by
  obtain ⟨line, happend⟩ := appendByte_frame (p := p) c
  rw [pushByte]
  split
  · rw [happend]
  · rfl

theorem accumulateLine_noBudget (p : Parser) (data : List UInt8) : (p.accumulateLine 0 data).2.1.lineSpill = p.lineSpill := by
  induction data generalizing p with
  | nil => rfl
  | cons c data ih =>
    have hpush := pushByte_noBudget p c
    rw [accumulateLine]
    generalize p.pushByte 0 c = out at hpush
    obtain ⟨r, q⟩ := out
    cases r with
    | needMore => exact (ih q).trans hpush
    | _ => exact hpush

end Parser

end Ccollections.Chttp1
