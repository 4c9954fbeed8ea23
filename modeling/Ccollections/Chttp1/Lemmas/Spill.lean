import Ccollections.Chttp1.Lemmas.Chunked
import Ccollections.Chttp1.Lemmas.Limits
import Ccollections.Chttp1.Limits

/-!
# The buffer of a run
-/

namespace Ccollections.Chttp1
open Lib List

namespace Parser

variable {S : Settings} {p p' : Parser} {data rest line : List UInt8} {len n : Nat}

def State.isField : State → Bool
  | .headers | .bodyChunkTrailers => true
  | _ => false

theorem budget_of_not_field (h : State.isField p.state = false) : p.stateSpillBudget = 0 := by
  rw [stateSpillBudget]
  cases hstate : p.state with
  | headers => rw [hstate] at h; cases h
  | bodyChunkTrailers => rw [hstate] at h; cases h
  | _ => rfl

theorem placed_of_fits (h : p.line.length ≤ p.bufferSize) : p.Placed := by
  intro hspill
  rw [bufferSize, hspill] at h
  exact h

/-! ## A line that is refused -/

theorem lineRoom_zero (p : Parser) : p.lineRoom 0 = p.bufferSize := by
  rw [lineRoom, bufferSize]
  cases p.lineSpill with
  | true => rfl
  | false =>
    rw [Bool.false_or, Bool.and_eq_false_imp.mpr fun _ => decide_eq_false (Nat.not_lt_zero _)]
    rfl

theorem refuses_of_fits (hisLine : p.state.isLine = true) (hfield : State.isField p.state = false) (hfits : p.line.length ≤ p.bufferSize) :
    RefusesBeyond S p p.bufferSize := by
  refine ⟨hfits, fun data hlong hnone => ?_⟩
  obtain ⟨c, tail, htail⟩ : ∃ c tail, data.drop (p.bufferSize - p.line.length) = c :: tail := by
    refine exists_cons_of_ne_nil (ne_nil_of_length_pos ?_)
    rw [length_drop]
    omega
  have hsplit := take_append_drop (p.bufferSize - p.line.length) data
  rw [htail] at hsplit
  have hlen : p.line.length + (data.take (p.bufferSize - p.line.length)).length = p.lineRoom 0 := by
    rw [lineRoom_zero, length_take]
    omega
  obtain ⟨q, hrun⟩ := accumulateLine_full (placed_of_fits hfits) hnone hlen c
  rw [hsplit] at hrun
  obtain ⟨b, bytes, hdata⟩ := exists_cons_of_ne_nil (l := data) (by rintro rfl; rw [length_nil] at hlong; omega)
  have hstep : (loop S data.length).step (p, data) = .inr (q.fail q.tooLongReason) := by
    show step S data.length (p, data) = _
    rw [hdata, step_isLine hisLine, ← hdata, lineStep, budget_of_not_field hfield, hrun]
  have halive : ¬(p.state = .dead ∨ p.state = .messageDone) := by
    rintro (h | h) <;> rw [h] at hisLine <;> cases hisLine
  rw [execute, if_neg halive, Machine.run_halt hstep]
  rfl

/-! ## What a complete line leaves -/

def Going (p : Parser) : Prop := p.state ≠ .dead ∧ p.state ≠ .messageDone

theorem Completed.not_going {out : Errno × Parser} (h : Completed S p n out) : ¬Going out.2 := by
  cases h with
  | failed h => exact fun hgoing => hgoing.1 h.dead
  | done => exact fun hgoing => hgoing.2 rfl

structure GoesOn (p : Parser) (out : Stepped) : Prop where
  kept : (next out).kept = p.kept
  spill : (next out).lineSpill = p.lineSpill
  state : (next out).state ≠ .firstLine
  accepted : accepts out = true

theorem lineReady_goesOn (hisLine : p.state.isLine = true) (htype : p.type = .response)
    (hgoing : Going (next (p.lineReady S rest n))) : GoesOn p (p.lineReady S rest n) := by
  have hdone := @lineDone_of S _ rest n hisLine
  generalize p.lineReady S rest n = out at hdone hgoing
  cases hdone with
  | failed h => exact absurd h.dead hgoing.1
  | blank _ hrequest => rw [htype] at hrequest; cases hrequest
  | request _ hrequest => rw [htype] at hrequest; cases hrequest
  | @status p₁ total _ _ h =>
    obtain ⟨reason, major, minor, status, hframe⟩ := parseStatusLine_frame (p := { p with totalHeaderBytes := total })
    rw [h] at hframe
    obtain rfl : p₁ = _ := hframe
    exact ⟨rfl, rfl, State.noConfusion, rfl⟩
  | @header name value p₁ hstate _ _ hinterpret =>
    obtain ⟨flags, length, hosts, hframe⟩ := interpretHeader_frame (p := p) name value
    rw [hinterpret] at hframe
    obtain rfl : p₁ = _ := hframe
    refine ⟨rfl, rfl, ?_, rfl⟩
    show p.state ≠ _
    rw [hstate]
    exact State.noConfusion
  | headersEnd _ _ _ _ hentered =>
    cases hentered with
    | failed h => exact absurd h.dead hgoing.1
    | empty _ _ h => exact absurd hgoing h.not_going
    | body _ hstate =>
      refine ⟨rfl, rfl, ?_, rfl⟩
      rcases hstate with ⟨rfl, -⟩ | ⟨rfl, -⟩ <;> exact State.noConfusion
    | diverted _ _ hstate =>
      refine ⟨rfl, rfl, ?_, rfl⟩
      rcases hstate with ⟨rfl, -⟩ | ⟨rfl, -⟩ <;> exact State.noConfusion
    | eof => exact ⟨rfl, rfl, State.noConfusion, rfl⟩
  | chunkSize =>
    refine ⟨rfl, rfl, ?_, rfl⟩
    dsimp only [next, Sum.elim_inl]
    split <;> exact State.noConfusion
  | crlf => exact ⟨rfl, rfl, State.noConfusion, rfl⟩
  | trailer hstate =>
    refine ⟨rfl, rfl, ?_, rfl⟩
    show p.state ≠ _
    rw [hstate]
    exact State.noConfusion
  | trailersEnd _ _ h => exact absurd hgoing h.not_going

/-! ## Parsers with the same limits -/

structure SameLimits (p p' : Parser) : Prop where
  kept : p.kept = p'.kept
  usage : SameUsage p p'
  spill : p.lineSpill = p'.lineSpill

theorem SameLimits.symm (h : SameLimits p p') : SameLimits p' p :=
  ⟨h.kept.symm, ⟨h.usage.1.symm, h.usage.2.1.symm, h.usage.2.2.symm⟩, h.spill.symm⟩

theorem SameLimits.type (h : SameLimits p p') : p.type = p'.type := congrArg Prod.fst h.kept

theorem SameLimits.lineRoom (h : SameLimits p p') (budget : Nat) : p.lineRoom budget = p'.lineRoom budget := by
  have henabled : p.lineSpillEnabled = p'.lineSpillEnabled := congrArg (fun k => k.2.1) h.kept
  have halloc : p.spillAlloc = p'.spillAlloc := congrArg (fun k => k.2.2.1) h.kept
  rw [Parser.lineRoom, Parser.lineRoom, h.spill, henabled, halloc]

theorem SameLimits.maxCount (h : SameLimits p p') : p.effectiveMaxHeaderCount = p'.effectiveMaxHeaderCount := by
  have hmax : p.maxHeaderCountOverride = p'.maxHeaderCountOverride := congrArg (fun k => k.2.2.2.1) h.kept
  rw [effectiveMaxHeaderCount, effectiveMaxHeaderCount, hmax]

theorem SameLimits.maxBytes (h : SameLimits p p') : p.effectiveMaxTotalHeaderBytes = p'.effectiveMaxTotalHeaderBytes := by
  have hmax : p.maxTotalHeaderBytesOverride = p'.maxTotalHeaderBytesOverride := congrArg (fun k => k.2.2.2.2.1) h.kept
  rw [effectiveMaxTotalHeaderBytes, effectiveMaxTotalHeaderBytes, hmax]

theorem SameLimits.budget (h : SameLimits p p') : p.headerSpillBudget = p'.headerSpillBudget := by
  have henabled : p.lineSpillEnabled = p'.lineSpillEnabled := congrArg (fun k => k.2.1) h.kept
  rw [headerSpillBudget, headerSpillBudget, henabled, h.maxBytes, h.usage.2.1]

theorem SameLimits.sizeWithin (h : SameLimits p p') (hwithin : p.SizeWithin line n) : p'.SizeWithin line n where
  room := by
    rw [← h.lineRoom]
    exact hwithin.room
  size := hwithin.size
  override := by
    have hmax : p.maxChunkSizeOverride = p'.maxChunkSizeOverride := congrArg (fun k => k.2.2.2.2.2) h.kept
    rw [← hmax]
    exact hwithin.override
  excess := by
    rw [← h.usage.2.2]
    exact hwithin.excess

theorem SameLimits.trailerWithin (h : SameLimits p p') (hwithin : p.TrailerWithin line) : p'.TrailerWithin line where
  room := by
    rw [← h.budget, ← h.lineRoom]
    exact hwithin.room
  count := by
    rw [← h.usage.1, ← h.maxCount]
    exact hwithin.count
  total := by
    rw [← h.usage.2.1, ← h.maxBytes]
    exact hwithin.total

theorem SameLimits.readSize (h : SameLimits p p') (line : List UInt8) (n : Nat) : SameLimits (p.readSize line n) (p'.readSize line n) where
  kept := h.kept
  usage := ⟨h.usage.1, h.usage.2.1, by
    show p.chunkExcess + line.length + 4 - chunkEarned n = p'.chunkExcess + line.length + 4 - chunkEarned n
    rw [h.usage.2.2]⟩
  spill := h.spill

theorem SameLimits.readChunk {type : ParserType} (h : SameLimits p p') (c : Chunk type) : SameLimits (p.readChunk c) (p'.readChunk c) where
  kept := h.kept
  usage := (h.readSize c.line.text c.data.length).usage
  spill := h.spill

theorem SameLimits.readTrailer (h : SameLimits p p') (f : TrailerField) : SameLimits (p.readTrailer f) (p'.readTrailer f) where
  kept := h.kept
  usage := by
    obtain ⟨hcount, htotal, hexcess⟩ := h.usage
    refine ⟨?_, ?_, hexcess⟩
    · show sizeAdd p.headerCount 1 = sizeAdd p'.headerCount 1
      rw [hcount]
    · show sizeAdd p.totalHeaderBytes (f.text.length + 2) = sizeAdd p'.totalHeaderBytes (f.text.length + 2)
      rw [htotal]
  spill := by
    show (p.lineSpill || _) = (p'.lineSpill || _)
    rw [h.spill]

theorem SameLimits.chunksWithin {type : ParserType} {chunks : List (Chunk type)} (h : SameLimits p p')
    (hwithin : p.ChunksWithin chunks) :
    p'.ChunksWithin chunks ∧
      SameLimits (chunks.foldl (fun p c => p.readChunk c) p) (chunks.foldl (fun p c => p.readChunk c) p') := by
  induction chunks generalizing p p' with
  | nil => exact ⟨trivial, h⟩
  | cons c chunks ih =>
    obtain ⟨hchunks, hsame⟩ := ih (h.readChunk c) hwithin.2
    exact ⟨⟨h.sizeWithin hwithin.1, hchunks⟩, hsame⟩

theorem SameLimits.trailersWithin {fields : List TrailerField} (h : SameLimits p p') (hwithin : p.TrailersWithin fields) :
    p'.TrailersWithin fields := by
  induction fields generalizing p p' with
  | nil =>
    show 2 ≤ _
    rw [← h.budget, ← h.lineRoom]
    exact hwithin
  | cons f fields ih => exact ⟨h.trailerWithin hwithin.1, ih (h.readTrailer f) hwithin.2⟩

theorem SameLimits.within {type : ParserType} {m : Encoding type} (h : SameLimits p p') (hwithin : m.Within p) : m.Within p' := by
  obtain ⟨hchunks, hlast, htrailers⟩ := hwithin
  obtain ⟨hchunks', hsame⟩ := h.chunksWithin hchunks
  exact ⟨hchunks', hsame.sizeWithin hlast, (hsame.readSize _ _).trailersWithin htrailers⟩

theorem SameLimits.completes {slices : List (List UInt8)} (h : SameLimits p p') (hp : p.AtChunk) (hp' : p'.AtChunk)
    (hcompletes : p.Completes slices) : p'.Completes slices := by
  obtain ⟨m, rest, hwithin, hbytes⟩ := encoding_of_feed (q := (p.feed accepting 0 slices).2.1) (n := (p.feed accepting 0 slices).2.2)
    hp rfl (Prod.ext hcompletes rfl)
  obtain ⟨q, hfed, -⟩ := feed_encoding hp' h.type.symm m (h.within hwithin) hbytes
  rw [Completes, hfed]

end Parser

namespace Metered
open Chttp1.Parser

variable {S : Settings} {type : ParserType} {config : Config} {m : Metered}

/-! ## The invariant -/

theorem spilled_append (lines : List Line) (l : Line) : spilled (lines ++ [l]) = (spilled lines || l.isLong) := by
  rw [spilled, any_append, any_cons, any_nil, Bool.or_false]
  rfl

theorem isLong_eq (st : State) (text : List UInt8) :
    Line.isLong ⟨st, text⟩ = (State.isField st && decide (chttp1MaxLineLen < text.length + 2)) := by
  cases st <;> rfl

structure Spilling (kept : ParserType × Bool × Bool × Nat × Nat × Nat) (m : Metered) : Prop where
  kept : m.parser.kept = kept
  fits : m.parser.line.length ≤ m.parser.bufferSize
  spill : m.parser.lineSpill =
    (spilled m.lines || (State.isField m.parser.state && decide (chttp1MaxLineLen < m.parser.line.length)))
  first : m.parser.state = .firstLine → m.lines = []

variable {kept : ParserType × Bool × Bool × Nat × Nat × Nat}

theorem Spilling.untouched {q : Parser} {read : Nat} {stores : List Store} (h : Spilling kept m) (hsame : Untouched m.parser q)
    (hgoing : Going q) (hstate : q.state = m.parser.state ∨ m.parser.state.isLine = false) :
    Spilling kept ⟨q, read, m.lines, stores⟩ where
  kept := hsame.kept.trans h.kept
  fits := by
    show q.line.length ≤ q.bufferSize
    rw [bufferSize, hsame.spill, hsame.line]
    exact h.fits
  spill := by
    show q.lineSpill = (_ || (State.isField q.state && decide (chttp1MaxLineLen < q.line.length)))
    have hfield : State.isField q.state = State.isField m.parser.state := by
      rcases hsame.state with hq | hq | hq | hq
      · rw [hq]
      · rcases hstate with hst | hst
        · rw [hst]
        · rw [hq]
          cases hs : m.parser.state with
          | headers => rw [hs] at hst; cases hst
          | bodyChunkTrailers => rw [hs] at hst; cases hst
          | _ => rfl
      · exact absurd hq hgoing.2
      · exact absurd hq hgoing.1
    rw [hsame.spill, hsame.line, hfield]
    exact h.spill
  first := by
    intro hq
    refine h.first ?_
    rcases hsame.state with hs | hs | hs | hs
    · exact hs.symm.trans hq
    · rw [hs] at hq; cases hq
    · exact absurd hs hgoing.2
    · exact absurd hs hgoing.1

theorem spilling_round (h : Spilling kept m) (hresponse : kept.1 = .response) (len : Nat) (data : List UInt8)
    (hgoing : Going (m.round S len data).parser) : Spilling kept (m.round S len data) := by
  cases hline : m.parser.state.isLine with
  | false =>
    have hlines : m.parser.stepLines S len data = [] := by
      rw [stepLines, hline]
      rfl
    have hsame : Spilling kept ⟨_, (m.round S len data).read, m.lines, (m.round S len data).stores⟩ :=
      h.untouched (step_untouched (S := S) len data hline) hgoing (.inr hline)
    rw [round, hlines, append_nil]
    exact hsame
  | true =>
    cases data with
    | nil =>
      rw [round_nil]
      exact h
    | cons c data =>
      have hplaced := placed_of_fits h.fits
      obtain ⟨hfits, -⟩ := fits_accumulateLine h.fits m.parser.stateSpillBudget (c :: data)
      obtain ⟨line, spill, hframe⟩ := accumulateLine_frame (p := m.parser) m.parser.stateSpillBudget (c :: data)
      have hstep := step_isLine (S := S) hline len c data
      have hlines : m.parser.stepLines S len (c :: data) = _ := if_pos hline
      rw [lineStep] at hstep
      -- A state that reads no field has no budget, so its line does not move.
      have hstill : State.isField m.parser.state = false →
          (m.parser.accumulateLine m.parser.stateSpillBudget (c :: data)).2.1.lineSpill = m.parser.lineSpill := by
        intro hfield
        rw [budget_of_not_field hfield]
        exact accumulateLine_noBudget _ _
      cases hrun : m.parser.accumulateLine m.parser.stateSpillBudget (c :: data) with
      | mk r out =>
        obtain ⟨p₁, rest⟩ := out
        obtain ⟨hmore, hready⟩ := accumulateLine_spill hrun hplaced
        obtain ⟨hmoreLine, hreadyLine⟩ := accumulateLine_line hrun
        rw [hrun] at hframe hfits hstep hlines hstill
        dsimp only at hframe hfits hstep hlines hstill
        have hstate : p₁.state = m.parser.state := by rw [hframe]
        have hkept : p₁.kept = m.parser.kept := by
          rw [hframe]
          rfl
        have hfailed : ∀ reason, step S len (m.parser, c :: data) = .inr (p₁.fail reason) → Spilling kept (m.round S len (c :: data)) := by
          intro reason hstep
          have hparser : (m.round S len (c :: data)).parser = (p₁.fail reason).2 := congrArg next hstep
          rw [hparser] at hgoing
          exact absurd rfl hgoing.1
        cases r with
        | tooLong => exact hfailed _ hstep
        | badEol => exact hfailed _ hstep
        | needMore =>
          have hparser : (m.round S len (c :: data)).parser = p₁ := congrArg next hstep
          have hnone : (m.round S len (c :: data)).lines = m.lines := by
            show m.lines ++ _ = _
            rw [hlines, append_nil]
          have hlonger : m.parser.line.length ≤ p₁.line.length := by
            rw [(hmoreLine rfl).2, length_append]
            exact Nat.le_add_right _ _
          exact
            { kept := by rw [hparser]; exact hkept.trans h.kept
              fits := by rw [hparser]; exact hfits.1
              spill := by
                rw [hparser, hnone, hstate]
                cases hfield : State.isField m.parser.state with
                | false =>
                  rw [hstill hfield, h.spill, hfield, Bool.false_and, Bool.false_and]
                | true =>
                  rw [hmore rfl, h.spill, hfield, Bool.true_and, Bool.true_and, Bool.or_assoc, ← Bool.decide_or]
                  congr 2
                  exact propext (by omega)
              first := by
                rw [hparser, hnone, hstate]
                exact h.first }
        | ready =>
          have hparser : (m.round S len (c :: data)).parser = next (p₁.lineReady S rest (len - rest.length)) :=
            congrArg next hstep
          rw [hparser] at hgoing
          have hline₁ : p₁.state.isLine = true := by rw [hstate]; exact hline
          have htype : p₁.type = .response := by
            have hfirst := congrArg Prod.fst (hkept.trans h.kept)
            exact hfirst.trans hresponse
          obtain ⟨hkept', hspill', hstate', haccepted⟩ := lineReady_goesOn hline₁ htype hgoing
          have hempty := @lineReady_line S _ rest (len - rest.length) hline₁ hgoing.1
          have hadded : (m.round S len (c :: data)).lines = m.lines ++ [⟨p₁.state, p₁.line⟩] := by
            show m.lines ++ _ = _
            rw [hlines]
            exact congrArg _ (if_pos haccepted)
          obtain ⟨used, -, hend⟩ := hreadyLine rfl
          have hlonger : m.parser.line.length ≤ p₁.line.length + 2 := by
            have hsum := congrArg List.length hend
            rw [length_append, length_append] at hsum
            have htwo : m.parser.line.length + used.length = p₁.line.length + 2 := hsum
            omega
          exact
            { kept := by rw [hparser]; exact hkept'.trans (hkept.trans h.kept)
              fits := by
                rw [hparser, hempty]
                exact Nat.zero_le _
              spill := by
                rw [hparser, hspill', hadded, spilled_append, isLong_eq, hempty, hstate, length_nil,
                  decide_eq_false (Nat.not_lt_zero _), Bool.and_false, Bool.or_false]
                cases hfield : State.isField m.parser.state with
                | false =>
                  rw [hstill hfield, h.spill, hfield, Bool.false_and, Bool.false_and]
                | true =>
                  rw [hready rfl, h.spill, hfield, Bool.true_and, Bool.true_and, Bool.or_assoc, ← Bool.decide_or]
                  congr 2
                  exact propext (by omega)
              first := by
                rw [hparser]
                exact fun hfirst => absurd hfirst hstate' }

theorem spilling_reaches (h : Reaches S .response config m) (hgoing : Going m.parser) :
    Spilling (parserInit .response config).kept m := by
  refine Reach.invariant (P := fun m => Going m.parser → Spilling (parserInit .response config).kept m) ?_ ?_ h hgoing
  · intro _
    exact ⟨rfl, Nat.zero_le _, rfl, fun _ => rfl⟩
  · rintro m a m' hspilling hact hgoing
    obtain rfl := Option.some.inj hact
    cases a with
    | round len data =>
      have hbefore : Going m.parser := by
        refine ⟨fun hdead => hgoing.1 ?_, fun hdone => hgoing.2 ?_⟩
        · have hparser : (m.round S len data).parser = m.parser := step_dead len data hdead
          exact (congrArg Parser.state hparser).trans hdead
        · have hsame : (m.round S len data).parser = m.parser := by
            show next (step S len (m.parser, data)) = _
            cases data with
            | nil => rfl
            | cons c data => simp only [step, hdone, Parser.next, Sum.elim_inr]
          exact (congrArg Parser.state hsame).trans hdone
      exact spilling_round (hspilling hbefore) rfl len data hgoing
    | finish =>
      have hsame := (finish_untouched S m.parser).1
      have hgoing : Going (m.parser.finish S).2 := hgoing
      have hstate : (m.parser.finish S).2.state = m.parser.state := by
        revert hgoing
        simp only [finish]
        split
        · exact fun _ => rfl
        · split
          · exact fun _ => rfl
          · split
            · exact fun _ => rfl
            · split
              · exact fun hgoing => absurd rfl hgoing.1
              · exact fun hgoing => absurd rfl hgoing.2
            · exact fun hgoing => absurd rfl hgoing.1
      have hbefore : Going m.parser := by
        rw [Going, ← hstate]
        exact hgoing
      exact (hspilling hbefore).untouched hsame hgoing (.inl hstate)

end Metered

end Ccollections.Chttp1
