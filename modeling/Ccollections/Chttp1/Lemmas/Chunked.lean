import Ccollections.Chttp1.Lemmas.Callbacks
import Ccollections.Chttp1.Lemmas.ChunkLines

/-!
# Runs over a chunked body
-/

namespace Ccollections.Chttp1
open Lib List

theorem TrailerField.text_ne_nil (f : TrailerField) : f.text ≠ [] := by simp [TrailerField.text]

namespace Parser

variable {S : Settings} {type : ParserType} {p q : Parser} {data rest text : List UInt8} {len v : Nat}

/-! ## Lines -/

theorem paused_line (hisLine : p.state.isLine = true) (hline : p.line = []) (h : (loop S len).run (p, data) = (.paused, q)) :
    ∃ text rest, data = text ++ (lineEnd ++ rest) ∧ text.length + 2 ≤ p.lineRoom p.stateSpillBudget ∧
      ((p.holding text).lineReady S rest (len - rest.length)).elim (loop S len).run id = (.paused, q) := by
  cases data with
  | nil =>
    rw [Machine.run_halt (m := loop S len) (r := (.ok, p)) rfl] at h
    cases h
  | cons c data =>
    have hstep : (loop S len).step (p, c :: data) = p.lineStep S len (c :: data) := step_isLine hisLine len c data
    rw [Machine.run_eq, hstep, lineStep] at h
    cases hrun : p.accumulateLine p.stateSpillBudget (c :: data) with
    | mk r out =>
      obtain ⟨p₁, rest⟩ := out
      rw [hrun] at h
      cases r with
      | needMore =>
        obtain ⟨rfl, -⟩ := (accumulateLine_line hrun).1 rfl
        have hend : (loop S len).run (p₁, []) = (.paused, q) := h
        rw [Machine.run_halt (m := loop S len) (r := (.ok, p₁)) rfl] at hend
        cases hend
      | tooLong => cases h
      | badEol => cases h
      | ready =>
        obtain ⟨text, hdata, -, hroom, rfl⟩ := accumulateLine_ready hline hrun
        exact ⟨text, rest, hdata, hroom, h⟩

theorem holding_short (hroom : text.length + 2 ≤ p.lineRoom 0) : p.holding text = { p with line := text } := by
  have hspill : (p.lineSpill || decide (chttp1MaxLineLen < text.length + 2)) = p.lineSpill := by
    cases hspill : p.lineSpill with
    | true => rfl
    | false =>
      rw [lineRoom, hspill] at hroom
      simpa using hroom
  rw [holding, hspill]

/-! ## Chunks -/

theorem AtChunk.isLine (hp : p.AtChunk) : p.state.isLine = true := by
  rw [hp.state]
  rfl

theorem AtChunk.budget (hp : p.AtChunk) : p.stateSpillBudget = 0 := by
  rw [stateSpillBudget, hp.state]

theorem lineReady_chunkSize {n : Nat} (hp : p.AtChunk) :
    lineReady S { p with line := text } rest n = chunkSizeReady { p with line := text } rest := by
  rw [lineReady, hp.state]

theorem run_size (hp : p.AtChunk) (htype : p.type = type) (l : SizeLine type v) (hwithin : p.SizeWithin l.text v) :
    (loop accepting len).run (p, l.text ++ (lineEnd ++ rest)) = (loop accepting len).run (p.readSize l.text v, rest) := by
  refine Machine.run_step (m := loop accepting len) ?_
  show step accepting len (p, l.text ++ (lineEnd ++ rest)) = _
  rw [step_lineEnd hp.isLine hp.line l.avoids (by rw [hp.budget]; exact hwithin.room), holding_short hwithin.room,
    lineReady_chunkSize hp, chunkSizeReady_ok hp.line htype l hwithin]

theorem run_data (hstate : p.state = .bodyChunkData) (hlen : p.contentLength = data.length) (hne : data ≠ []) :
    (loop accepting len).run (p, data ++ rest) =
      (loop accepting len).run ({ p with
        contentLength := 0
        log := p.log ++ [⟨.body data, 0⟩]
        state := .bodyChunkCrlf }, rest) := by
  refine Machine.run_step (m := loop accepting len) ?_
  show step accepting len (p, data ++ rest) = _
  obtain ⟨c, cs, hcons⟩ := exists_cons_of_ne_nil hne
  have hpos : 0 < data.length := length_pos_of_ne_nil hne
  have hmin : min (data ++ rest).length p.contentLength = data.length := by
    rw [hlen, length_append]
    omega
  have hstep : step accepting len (p, data ++ rest) = p.countedStep accepting len (data ++ rest) := by
    rw [hcons, cons_append, step, hstate]
  rw [hstep, countedStep_ok len (by rw [hmin]; exact hpos) rfl, hmin, take_left, drop_left, hlen, Nat.sub_self, countedEnd,
    if_pos rfl, if_pos hstate]

theorem run_dataEnd (hstate : p.state = .bodyChunkCrlf) (hline : p.line = []) :
    (loop accepting len).run (p, lineEnd ++ rest) = (loop accepting len).run ({ p with state := .bodyChunkSize }, rest) := by
  refine Machine.run_step (m := loop accepting len) ?_
  have hroom : ([] : List UInt8).length + 2 ≤ p.lineRoom 0 := by
    rw [lineRoom]
    split
    · rw [spillCap, if_neg (by simp)]
      decide
    · decide
  have hbudget : p.stateSpillBudget = 0 := by rw [stateSpillBudget, hstate]
  show step accepting len (p, [] ++ (lineEnd ++ rest)) = _
  rw [step_lineEnd (by rw [hstate]; rfl) hline not_mem_nil (by rw [hbudget]; exact hroom), holding_short hroom, lineReady, hstate]
  simp only [if_true]
  rw [hline]

theorem run_chunk (hp : p.AtChunk) (htype : p.type = type) (c : Chunk type) (hwithin : p.SizeWithin c.line.text c.data.length) :
    (loop accepting len).run (p, c.bytes ++ rest) = (loop accepting len).run (p.readChunk c, rest) := by
  have hpos : c.data.length ≠ 0 := fun h => c.nonempty (length_eq_zero_iff.mp h)
  have hbytes : c.bytes ++ rest = c.line.text ++ (lineEnd ++ (c.data ++ (lineEnd ++ rest))) := by
    simp only [Chunk.bytes, append_assoc]
  have hstate : (p.readSize c.line.text c.data.length).state = .bodyChunkData := if_neg hpos
  rw [hbytes, run_size hp htype c.line hwithin, run_data hstate rfl c.nonempty]
  exact run_dataEnd rfl hp.line

theorem AtChunk.readChunk (hp : p.AtChunk) (c : Chunk type) : (p.readChunk c).AtChunk := ⟨rfl, hp.line⟩

theorem run_chunks {chunks : List (Chunk type)} (hp : p.AtChunk) (htype : p.type = type) (hwithin : p.ChunksWithin chunks) :
    (loop accepting len).run (p, chunks.flatMap Chunk.bytes ++ rest) =
      (loop accepting len).run (chunks.foldl (fun p c => p.readChunk c) p, rest) := by
  induction chunks generalizing p with
  | nil => rfl
  | cons c chunks ih =>
    rw [flatMap_cons, append_assoc, run_chunk hp htype c hwithin.1, ih (hp.readChunk c) htype hwithin.2]
    rfl

theorem readChunks_same {chunks : List (Chunk type)} (hp : p.AtChunk) :
    (chunks.foldl (fun p c => p.readChunk c) p).AtChunk ∧ (chunks.foldl (fun p c => p.readChunk c) p).type = p.type ∧
      (chunks.foldl (fun p c => p.readChunk c) p).log = p.log ++ chunks.map fun c => ⟨.body c.data, 0⟩ := by
  induction chunks generalizing p with
  | nil => exact ⟨hp, rfl, (append_nil _).symm⟩
  | cons c chunks ih =>
    obtain ⟨hat, htype, hlog⟩ := ih (hp.readChunk c)
    refine ⟨hat, htype, hlog.trans ?_⟩
    show (p.log ++ [_]) ++ _ = _
    rw [append_assoc]
    rfl

/-! ## Trailers -/

structure AtTrailer (p : Parser) : Prop where
  state : p.state = .bodyChunkTrailers
  line : p.line = []

theorem AtTrailer.isLine (hp : p.AtTrailer) : p.state.isLine = true := by
  rw [hp.state]
  rfl

theorem AtTrailer.budget (hp : p.AtTrailer) : p.stateSpillBudget = p.headerSpillBudget := by
  rw [stateSpillBudget, hp.state]

theorem AtTrailer.readTrailer (hp : p.AtTrailer) (f : TrailerField) : (p.readTrailer f).AtTrailer := ⟨hp.state, hp.line⟩

theorem lineReady_trailer {n : Nat} (hp : p.AtTrailer) (htext : text ≠ []) :
    (p.holding text).lineReady S rest n = (p.holding text).headerReady S true rest := by
  have hstate : (p.holding text).state = .bodyChunkTrailers := hp.state
  rw [lineReady, hstate]
  exact if_neg htext

def completed (p : Parser) (n : Nat) : Parser :=
  { p with
    finishState := .finishSafe
    log := p.log ++ [⟨.messageComplete, 0⟩]
    consumed := n
    state := .messageDone }

theorem holding_nil (hp : p.line = []) : p.holding [] = p := by
  have hspill : (p.lineSpill || decide (chttp1MaxLineLen < ([] : List UInt8).length + 2)) = p.lineSpill := Bool.or_false _
  rw [holding, hspill, ← hp]

theorem lineReady_trailersEnd {n : Nat} (hp : p.AtTrailer) : p.lineReady accepting rest n = .inr (.paused, p.completed n) := by
  rw [lineReady, hp.state]
  exact (if_pos hp.line).trans rfl

theorem run_trailers {fields : List TrailerField} (hp : p.AtTrailer) (hwithin : p.TrailersWithin fields) :
    (loop accepting len).run (p, fields.flatMap TrailerField.bytes ++ (lineEnd ++ rest)) =
      (.paused, (fields.foldl readTrailer p).completed (len - rest.length)) := by
  induction fields generalizing p with
  | nil =>
    refine Machine.run_halt (m := loop accepting len) ?_
    show step accepting len (p, [] ++ (lineEnd ++ rest)) = _
    rw [step_lineEnd hp.isLine hp.line not_mem_nil (by rw [hp.budget]; exact hwithin), holding_nil hp.line,
      lineReady_trailersEnd hp]
    rfl
  | cons f fields ih =>
    have hstep : (loop accepting len).step (p, f.text ++ (lineEnd ++ (fields.flatMap TrailerField.bytes ++ (lineEnd ++ rest)))) =
        .inl (p.readTrailer f, fields.flatMap TrailerField.bytes ++ (lineEnd ++ rest)) := by
      show step accepting len _ = _
      rw [step_lineEnd hp.isLine hp.line f.avoids (by rw [hp.budget]; exact hwithin.1.room), lineReady_trailer hp f.text_ne_nil,
        trailerReady_ok hp.line hwithin.1]
    rw [flatMap_cons, TrailerField.bytes, append_assoc, append_assoc, Machine.run_step hstep,
      ih (hp.readTrailer f) hwithin.2]
    rfl

theorem readTrailers_log (fields : List TrailerField) (p : Parser) :
    (fields.foldl readTrailer p).log = p.log ++ fields.map TrailerField.call := by
  induction fields generalizing p with
  | nil => exact (append_nil _).symm
  | cons f fields ih =>
    refine (ih (p.readTrailer f)).trans ?_
    show (p.log ++ [_]) ++ _ = _
    rw [append_assoc]
    rfl

/-! ## Encodings -/

theorem run_encoding (hp : p.AtChunk) (htype : p.type = type) (m : Encoding type) (hwithin : m.Within p) :
    ∃ q, (loop accepting len).run (p, m.bytes ++ rest) = (.paused, q) ∧ q.consumed = len - rest.length ∧
      q.log = p.log ++ (m.chunks.map (fun c => ⟨.body c.data, 0⟩) ++ (m.trailers.map TrailerField.call ++ [⟨.messageComplete, 0⟩])) := by
  obtain ⟨hchunks, hlast, htrailers⟩ := hwithin
  obtain ⟨hat, htype', hlog⟩ := readChunks_same hp
  have hend : ((m.chunks.foldl (fun p c => p.readChunk c) p).readSize m.last.text 0).AtTrailer := ⟨rfl, hat.line⟩
  have hbytes : m.bytes ++ rest =
      m.chunks.flatMap Chunk.bytes ++ (m.last.text ++ (lineEnd ++ (m.trailers.flatMap TrailerField.bytes ++ (lineEnd ++ rest)))) := by
    simp only [Encoding.bytes, Encoding.tail, append_assoc]
  refine ⟨(m.trailers.foldl readTrailer ((m.chunks.foldl (fun p c => p.readChunk c) p).readSize m.last.text 0)).completed
    (len - rest.length), ?_, rfl, ?_⟩
  · rw [hbytes, run_chunks hp htype hchunks, run_size hat (htype'.trans htype) m.last hlast]
    exact run_trailers hend htrailers
  · show (m.trailers.foldl readTrailer _).log ++ _ = _
    rw [readTrailers_log]
    show (m.chunks.foldl (fun p c => p.readChunk c) p).log ++ _ ++ _ = _
    rw [hlog, append_assoc, append_assoc]

/-! ## What is read is an encoding -/

theorem paused_data (hstate : p.state = .bodyChunkData) (hpos : 0 < p.contentLength)
    (h : (loop accepting len).run (p, data) = (.paused, q)) :
    ∃ body rest, data = body ++ rest ∧ body.length = p.contentLength ∧
      (loop accepting len).run ({ p with
        contentLength := 0
        log := p.log ++ [⟨.body body, 0⟩]
        state := .bodyChunkCrlf }, rest) = (.paused, q) := by
  by_cases hshort : data.length < p.contentLength
  · cases data with
    | nil =>
      rw [Machine.run_halt (m := loop accepting len) (r := (.ok, p)) rfl] at h
      cases h
    | cons c data =>
      have hmin : min (c :: data).length p.contentLength = (c :: data).length := by omega
      have hstep : (loop accepting len).step (p, c :: data) = .inl ({ p with
          contentLength := p.contentLength - (c :: data).length
          log := p.log ++ [⟨.body (c :: data), 0⟩] }, []) := by
        show step accepting len (p, c :: data) = _
        rw [step, hstate]
        dsimp only
        rw [countedStep_ok len (by rw [hmin]; exact Nat.succ_pos _) rfl, hmin, take_length, drop_length, countedEnd,
          if_neg (Nat.sub_ne_zero_of_lt hshort), hstate]
      rw [Machine.run_step hstep, Machine.run_halt (m := loop accepting len) (r := (.ok, _)) rfl] at h
      cases h
  · have hlen : (data.take p.contentLength).length = p.contentLength := by
      rw [length_take]
      omega
    have hsplit := (take_append_drop p.contentLength data).symm
    have hrun := @run_data p (data.take p.contentLength) (data.drop p.contentLength) len hstate hlen.symm
      (ne_nil_of_length_pos (by omega))
    rw [take_append_drop, h] at hrun
    exact ⟨_, _, hsplit, hlen, hrun.symm⟩

theorem paused_dataEnd (h : (loop accepting len).run (p, data) = (.paused, q)) (hstate : p.state = .bodyChunkCrlf) (hline : p.line = []) :
    ∃ rest, data = lineEnd ++ rest ∧ (loop accepting len).run ({ p with state := .bodyChunkSize }, rest) = (.paused, q) := by
  obtain ⟨text, rest, rfl, -, hready⟩ := paused_line (by rw [hstate]; rfl) hline h
  have hholding : (p.holding text).state = .bodyChunkCrlf := hstate
  rw [lineReady, hholding] at hready
  dsimp only at hready
  by_cases htext : text = []
  · subst htext
    refine ⟨rest, rfl, ?_⟩
    rw [holding_nil hline, if_pos hline] at hready
    exact hready
  · rw [if_neg (show ¬(p.holding text).line = [] from htext)] at hready
    cases hready

theorem paused_trailers (hp : p.AtTrailer) (h : (loop accepting len).run (p, data) = (.paused, q)) :
    ∃ fields rest, data = fields.flatMap TrailerField.bytes ++ (lineEnd ++ rest) ∧ p.TrailersWithin fields := by
  induction hn : data.length using Nat.strongRecOn generalizing p data with
  | ind n ih =>
    obtain ⟨text, rest, rfl, hroom, hready⟩ := paused_line hp.isLine hp.line h
    rw [hp.budget] at hroom
    by_cases htext : text = []
    · subst htext
      exact ⟨[], rest, rfl, hroom⟩
    · rw [lineReady_trailer hp htext] at hready
      cases hout : (p.holding text).headerReady accepting true rest with
      | inr out =>
        rw [hout] at hready
        obtain rfl : out = (.paused, q) := hready
        simp only [headerReady] at hout
        split at hout <;> cases hout
      | inl s =>
        obtain ⟨p₁, rest₁⟩ := s
        rw [hout] at hready
        obtain ⟨f, rfl, ⟨hcount, htotal⟩, rfl, rfl⟩ := trailer_of_ready hp.line hout
        have hless : rest₁.length < n := by
          rw [← hn, length_append, length_append]
          have hpos : 0 < lineEnd.length := by decide
          omega
        obtain ⟨fields, rest, rfl, hfields⟩ := ih _ hless (hp.readTrailer f) hready rfl
        refine ⟨f :: fields, rest, ?_, ⟨hroom, hcount, htotal⟩, hfields⟩
        rw [flatMap_cons, TrailerField.bytes, append_assoc, append_assoc]

theorem paused_size (hp : p.AtChunk) (htype : p.type = type) (h : (loop accepting len).run (p, data) = (.paused, q)) :
    ∃ v, ∃ l : SizeLine type v, ∃ rest, data = l.text ++ (lineEnd ++ rest) ∧ p.SizeWithin l.text v ∧
      (loop accepting len).run (p.readSize l.text v, rest) = (.paused, q) := by
  subst htype
  obtain ⟨text, rest, rfl, hroom, hready⟩ := paused_line hp.isLine hp.line h
  rw [hp.budget] at hroom
  rw [holding_short hroom, lineReady_chunkSize hp] at hready
  cases hout : chunkSizeReady { p with line := text } rest with
  | inr out =>
    rw [hout] at hready
    obtain rfl : out = (.paused, q) := hready
    simp only [chunkSizeReady] at hout
    split at hout <;> cases hout
  | inl s =>
    obtain ⟨p₁, rest₁⟩ := s
    rw [hout] at hready
    obtain ⟨v, l, rfl, ⟨hv, hoverride, hexcess⟩, rfl, rfl⟩ := sizeLine_of_ready hp.line hout
    exact ⟨v, l, rest₁, rfl, ⟨hroom, hv, hoverride, hexcess⟩, hready⟩

theorem encoding_of_paused (hp : p.AtChunk) (htype : p.type = type) (h : (loop accepting len).run (p, data) = (.paused, q)) :
    ∃ (m : Encoding type) (rest : List UInt8), m.Within p ∧ data = m.bytes ++ rest := by
  induction hn : data.length using Nat.strongRecOn generalizing p data with
  | ind n ih =>
    obtain ⟨v, l, rest, rfl, hsize, hrun⟩ := paused_size hp htype h
    cases v with
    | zero =>
      have hend : (p.readSize l.text 0).AtTrailer := ⟨rfl, hp.line⟩
      obtain ⟨fields, rest, rfl, hfields⟩ := paused_trailers hend hrun
      refine ⟨⟨[], l, fields⟩, rest, ⟨trivial, hsize, hfields⟩, ?_⟩
      simp only [Encoding.bytes, Encoding.tail, flatMap_nil, nil_append, append_assoc]
    | succ v =>
      have hpos : 0 < (p.readSize l.text (v + 1)).contentLength := Nat.succ_pos v
      obtain ⟨body, rest, rfl, hlen, hcrlf⟩ := paused_data rfl hpos hrun
      obtain ⟨rest, rfl, hnext⟩ := paused_dataEnd hcrlf rfl hp.line
      have hlen : body.length = v + 1 := hlen
      have hne : body ≠ [] := ne_nil_of_length_pos (by omega)
      obtain ⟨line, hline⟩ : ∃ line : SizeLine type body.length, line.text = l.text := by
        rw [hlen]
        exact ⟨l, rfl⟩
      rw [← hline, ← hlen] at hsize
      rw [← hline] at hn hnext ⊢
      let c : Chunk type := ⟨body, hne, line⟩
      have hchunk : (p.readChunk c).AtChunk := hp.readChunk c
      have hless : rest.length < n := by
        rw [← hn, length_append, length_append, length_append, length_append]
        omega
      have hreached : (loop accepting len).run (p.readChunk c, rest) = (.paused, q) := by
        rw [← hnext, ← hlen]
        rfl
      obtain ⟨m, rest, ⟨hchunks, hlast, htrailers⟩, rfl⟩ := ih _ hless hchunk htype hreached rfl
      refine ⟨⟨c :: m.chunks, m.last, m.trailers⟩, rest, ⟨⟨hsize, hchunks⟩, hlast, htrailers⟩, ?_⟩
      simp only [Encoding.bytes, Encoding.tail, flatMap_cons, Chunk.bytes, append_assoc, c]

/-! ## Streams -/

variable {slices : List (List UInt8)} {n : Nat}

theorem acceptedBody_chunks (m : Encoding type) : acceptedBody (m.chunks.map fun c => ⟨.body c.data, 0⟩) = m.body := by
  rw [Encoding.body]
  induction m.chunks with
  | nil => rfl
  | cons c chunks ih =>
    rw [flatMap_cons, ← ih]
    rfl

theorem messages_chunks (m : Encoding type) : messages (m.chunks.map fun c => ⟨.body c.data, 0⟩) = [] := by
  rw [messages, filter_eq_nil_iff]
  rintro c hc
  obtain ⟨c', -, rfl⟩ := mem_map.mp hc
  exact Bool.false_ne_true

theorem acceptedBody_trailers (fields : List TrailerField) : acceptedBody (fields.map TrailerField.call) = [] := by
  induction fields with
  | nil => rfl
  | cons f fields ih => exact ih

theorem messages_trailers (fields : List TrailerField) : messages (fields.map TrailerField.call) = fields.map TrailerField.call := by
  rw [messages, filter_eq_self]
  rintro c hc
  obtain ⟨f, -, rfl⟩ := mem_map.mp hc
  rfl

theorem live_of_chunk (hp : p.AtChunk) : Live p ∧ InBody p := by
  refine ⟨⟨?_, ?_⟩, ?_⟩
  · rw [hp.state]
    exact ⟨State.noConfusion, State.noConfusion⟩
  · rw [hp.state]
    nofun
  · rw [InBody, hp.state]
    exact ⟨State.noConfusion, State.noConfusion⟩

theorem execute_chunk (hp : p.AtChunk) (data : List UInt8) : p.execute accepting data = (loop accepting data.length).run (p, data) := by
  rw [execute, hp.state, if_neg (by simp)]

theorem feed_one (hp : p.AtChunk) (data : List UInt8) : p.feed accepting 0 [data] =
    if (p.execute accepting data).1 = .ok then (.ok, (p.execute accepting data).2, data.length)
    else ((p.execute accepting data).1, (p.execute accepting data).2, (p.execute accepting data).2.consumed) := by
  obtain ⟨hlive, hbody⟩ := live_of_chunk hp
  simp only [feed, feedSlice_inBody hlive hbody, Nat.zero_add]

theorem feed_encoding (hp : p.AtChunk) (htype : p.type = type) (m : Encoding type) (hwithin : m.Within p)
    (hbytes : slices.flatten = m.bytes ++ rest) :
    ∃ q, p.feed accepting 0 slices = (.paused, q, m.bytes.length) ∧ Delivered m p q := by
  obtain ⟨q, hrun, hconsumed, hlog⟩ := run_encoding hp htype m hwithin
  have hone : p.feed accepting 0 [slices.flatten] = (.paused, q, m.bytes.length) := by
    have hcount : slices.flatten.length - rest.length = m.bytes.length := by
      rw [hbytes, length_append]
      omega
    rw [← hbytes, ← execute_chunk hp] at hrun
    rw [feed_one hp, hrun, if_neg Errno.noConfusion, hconsumed, hcount]
  have hsame := feed_oneSlice accepting_decides (live_of_chunk hp).1 slices
  rw [hone] at hsame
  refine ⟨(p.feed accepting 0 slices).2.1, ?_, ?_, ?_⟩
  · exact Prod.ext hsame.result (Prod.ext rfl (hsame.consumed hsame.result))
  · rw [hsame.body, hlog, acceptedBody_append, acceptedBody_append, acceptedBody_append, acceptedBody_chunks, acceptedBody_trailers]
    show _ ++ (m.body ++ ([] ++ [])) = _
    rw [append_nil, append_nil]
  · rw [hsame.messages, hlog, messages_append, messages_append, messages_append, messages_chunks, messages_trailers]
    rfl

theorem encoding_of_feed (hp : p.AtChunk) (htype : p.type = type) (h : p.feed accepting 0 slices = (.paused, q, n)) :
    ∃ (m : Encoding type) (rest : List UInt8), m.Within p ∧ slices.flatten = m.bytes ++ rest := by
  have hsame := feed_oneSlice accepting_decides (live_of_chunk hp).1 slices
  have hresult := hsame.result
  rw [h, feed_one hp] at hresult
  have hpaused : ((loop accepting slices.flatten.length).run (p, slices.flatten)).1 = .paused := by
    rw [← execute_chunk hp]
    split at hresult
    · cases hresult
    · exact hresult.symm
  exact encoding_of_paused hp htype (Prod.ext hpaused rfl)

end Parser

end Ccollections.Chttp1
