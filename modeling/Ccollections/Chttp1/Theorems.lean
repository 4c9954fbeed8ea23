import Ccollections.Chttp1.Lemmas.Spill

/-!
# Chunked decoding inverts chunked encoding
-/

namespace Ccollections.Chttp1
open Chttp1.Parser List

variable {S : Settings} {p : Parser}

/-- A chunked body within the limits is read to its last byte and delivered, however it is cut, and a message is
complete only behind such an encoding. -/
theorem chunked_decoding_inverts_encoding (hstate : p.state = .bodyChunkSize) (hline : p.line = []) :
    ((∀ log e, Event.ofBody e = true → S.callback log e = 0) →
      ∀ (m : Encoding p.type) (slices : List (List UInt8)) (rest : List UInt8), m.Within p → slices.flatten = m.bytes ++ rest →
        ∃ q, p.feed S 0 slices = (.paused, q, m.bytes.length) ∧ Delivered m p q) ∧
    ∀ (slices : List (List UInt8)) (q : Parser) (n : Nat), p.feed S 0 slices = (.paused, q, n) →
      ∃ (m : Encoding p.type) (rest : List UInt8), m.Within p ∧ slices.flatten = m.bytes ++ rest ∧ n = m.bytes.length ∧ Delivered m p q := by
  have hp : p.AtChunk := ⟨hstate, hline⟩
  obtain ⟨hlive, hbody⟩ := live_of_chunk hp
  constructor
  · intro hS m slices rest hwithin hbytes
    rcases feed_unmoved (S := S) (t := 0) hlive hbody slices with hsame | ⟨-, log, e, he, hobjects⟩
    · rw [hsame]
      exact feed_encoding hp rfl m hwithin hbytes
    · exact absurd (hS log e he) hobjects
  · intro slices q n h
    rcases feed_unmoved (S := S) (t := 0) hlive hbody slices with hsame | ⟨huser, -⟩
    · rw [hsame] at h
      obtain ⟨m, rest, hwithin, hbytes⟩ := encoding_of_feed hp rfl h
      obtain ⟨q', hfed, hdelivered⟩ := feed_encoding hp rfl m hwithin hbytes
      cases h.symm.trans hfed
      exact ⟨m, rest, hwithin, hbytes, rfl, hdelivered⟩
    · rw [h] at huser
      cases huser

/-! ## A body in two slices -/

def chunkedResponse : Parser := { parserInit .response ⟨0, 0, 0, false, false⟩ with state := .bodyChunkSize }

def fourLine : SizeLine .response 4 where
  size := ascii "04"
  ext := ascii " "
  spells := ⟨by decide, [0, 4], .cons rfl (.cons rfl .nil), rfl⟩
  valid := .inr ⟨rfl, mem_bws.mpr (all_eq_true.mp rfl)⟩

def zeroLine : SizeLine .response 0 where
  size := ascii "0"
  ext := []
  spells := ⟨by decide, [0], .cons rfl .nil, rfl⟩
  valid := .inl (Language.nil_mem_kstar _)

def ageField : TrailerField where
  name := ascii "Age"
  lead := ascii " "
  value := ascii "7"
  trail := []
  token := mem_token.mpr ⟨0x41, ascii "ge", by decide, by decide, all_eq_true.mp rfl⟩
  before := mem_bws.mpr (all_eq_true.mp rfl)
  chars := all_eq_true.mp rfl
  first := by
    rintro c ⟨⟩
    rfl
  final := by
    rintro c ⟨⟩
    rfl
  behind := mem_bws.mpr (forall_mem_nil _)

def wikiEncoding : Encoding .response := ⟨[⟨ascii "Wiki", by decide, fourLine⟩], zeroLine, [ageField]⟩

theorem chunked_decoding_wiki :
    ∃ q, chunkedResponse.feed accepting 0 [ascii "04 \x0d\nWi", ascii "ki\x0d\n0\x0d\nAge: 7\x0d\n\x0d\nHTTP"] = (.paused, q, 24) ∧
      Delivered wikiEncoding chunkedResponse q := by
  refine (chunked_decoding_inverts_encoding (S := accepting) (p := chunkedResponse) rfl rfl).1 (fun _ _ _ => rfl) wikiEncoding _
    (ascii "HTTP") ⟨⟨⟨?_, ?_, .inl rfl, ?_⟩, trivial⟩, ⟨?_, ?_, .inl rfl, ?_⟩, ⟨?_, ?_, ?_⟩, ?_⟩ ?_
  on_goal 10 => change 2 ≤ _
  all_goals decide +kernel

/-!
# The validators accept their grammars
-/

open Grammar

/-- Every validator accepts what its grammar derives and nothing else, and the grammar gives a first line one reading.
-/
theorem validators_accept_grammars :
    (∀ s, chunkExtIsValid s = true ↔ s ∈ Grammar.chunkExt) ∧
    (∀ v, hostValueIsValid v = true ↔ v ∈ Grammar.host) ∧
    (∀ p : Parser,
      (p.parseStatusLine.1 = true ↔ ∃ major minor status, StatusLine p.line major minor status) ∧
      ∀ major minor status, StatusLine p.line major minor status →
        p.parseStatusLine = (true, { p with httpMajor := major, httpMinor := minor, statusCode := status })) ∧
    ∀ (S : Settings) (p : Parser),
      ((p.parseRequestLine S).1 ≠ .error ↔ ∃ method target major minor, RequestLine p.line method target major minor) ∧
      (∀ method target major minor, RequestLine p.line method target major minor →
        p.parseRequestLine S =
          let called := Parser.call S { p with httpMajor := major, httpMinor := minor } (.requestLine method target major minor)
          (if called.1 = 0 then .ok else .user, called.2)) ∧
      ((p.parseRequestLine S).1 = .error → (p.parseRequestLine S).2.log = p.log) := by
  refine ⟨chunkExtIsValid_iff, hostValueIsValid_iff, fun p => ⟨⟨statusLine_of_parse, ?_⟩, ?_⟩, fun S p => ⟨⟨requestLine_of_parse, ?_⟩, ?_, ?_⟩⟩
  · rintro ⟨major, minor, status, h⟩
    rw [parseStatusLine_of h]
  · intro major minor status h
    exact parseStatusLine_of h
  · rintro ⟨method, target, major, minor, h⟩
    rw [parseRequestLine_of h]
    dsimp only
    split <;> exact PhResult.noConfusion
  · intro method target major minor h
    exact parseRequestLine_of h
  · intro herror
    rcases parseRequestLine_log (p := p) (S := S) with ⟨hlog, -⟩ | ⟨c, -, hne⟩
    · exact hlog
    · exact absurd herror hne

/-!
# The parser does not depend on how the bytes arrive
-/

open List

theorem live_parserInit (type : ParserType) (config : Config) : Parser.Live (parserInit type config) :=
  ⟨by simp [parserInit], fun h => by cases h⟩

/-- A stream in slices has the outcome of the stream in one slice. -/
theorem feed_flatten {S : Settings} (hS : DecidesFromMessages S) (type : ParserType) (config : Config)
    (slices : List (List UInt8)) :
    SameOutcome ((parserInit type config).feed S 0 slices) ((parserInit type config).feed S 0 [slices.flatten]) :=
  Parser.feed_oneSlice hS (live_parserInit type config) slices

def defaultConfig : Config := ⟨0, 0, 0, false, false⟩

theorem feed_flatten_get :
    DecidesFromMessages accepting ∧
    SameOutcome ((parserInit .request defaultConfig).feed accepting 0 [ascii "GET / HTTP/1.1\x0d", [], ascii "\nHost: h\x0d\n\x0d\n"])
      ((parserInit .request defaultConfig).feed accepting 0 [ascii "GET / HTTP/1.1\x0d\nHost: h\x0d\n\x0d\n"]) :=
  have hS : DecidesFromMessages accepting := fun _ _ _ _ _ _ => rfl
  ⟨hS, feed_flatten hS .request defaultConfig [ascii "GET / HTTP/1.1\x0d", [], ascii "\nHost: h\x0d\n\x0d\n"]⟩

def bodyRefused : Settings := ⟨fun _ e => if e.message = none then 1 else 0⟩

theorem bodyRefused_decidesFromMessages : DecidesFromMessages bodyRefused := by
  intro log log' e e' _ he
  simp only [bodyRefused, he]

def sized : List UInt8 := ascii "HTTP/1.1 200 OK\x0d\nContent-Length: 5\x0d\n\x0d\nhello"

/-- The call of `on_body` that fails got as much of the body as its slice had. -/
theorem bodyBytes_cut :
    DecidesFromMessages bodyRefused ∧
    bodyBytes ((parserInit .response defaultConfig).feed bodyRefused 0 [sized]).2.1.log = ascii "hello" ∧
    bodyBytes ((parserInit .response defaultConfig).feed bodyRefused 0 (sized.map ([·]))).2.1.log = ascii "h" ∧
    (sized.map ([·])).flatten = sized :=
  ⟨bodyRefused_decidesFromMessages, by decide +kernel, by decide +kernel, by decide +kernel⟩

/-!
# A run keeps within the limits
-/

open Lib Chttp1.Metered

/-- In every state that a bounded run reaches, the header bytes and lines are within their caps, the chunks have paid
for their framing, and every store is in its buffer. -/
theorem run_keeps_limits (S : Settings) (type : ParserType) (config : Config) :
    (∀ m, Reaches S type config m → Bounded (maxBytes type config) m.read →
      (m.parser.totalHeaderBytes ≤ maxBytes type config ∧ headerBytes m.lines ≤ maxBytes type config ∧
        (m.parser.state ≠ .dead → m.parser.totalHeaderBytes = headerBytes m.lines)) ∧
      (fieldEvents m.parser.log ≤ maxCount type config ∧
        (m.parser.state ≠ .dead → m.parser.headerCount = fieldEvents m.parser.log)) ∧
      (m.parser.chunkExcess ≤ chttp1MaxChunkOverheadExcess ∧
        framing m.lines ≤ allowance m.lines + chttp1MaxChunkOverheadExcess ∧
        m.parser.chunkExcess + chttp1MaxSpillLineLen + 4 ≤ uint64Max) ∧
      ∀ st ∈ m.stores, st.stop ≤ st.size) ∧
    ∀ slices : List (List UInt8), ∃ m, Reaches S type config m ∧
      m.parser = slices.foldl (fun p data => (p.execute S data).2) (parserInit type config) ∧ m.read ≤ slices.flatten.length := by
  refine ⟨?_, ?_⟩
  · intro m hm hbounded
    obtain ⟨⟨hbytes, hcount⟩, hwithin⟩ := within_reaches hm
    have h := hwithin hbounded
    have hcapped : m.parser.totalHeaderBytes ≤ m.parser.effectiveMaxTotalHeaderBytes := h.counted.capped
    have hlines : headerBytes m.lines ≤ m.parser.effectiveMaxTotalHeaderBytes := h.counted.bytes
    have hfields : fieldEvents m.parser.log ≤ m.parser.effectiveMaxHeaderCount := h.counted.fieldsCapped
    have hexcess : m.parser.chunkExcess ≤ chttp1MaxChunkOverheadExcess := h.counted.excess
    have hpaid : framing m.lines ≤ allowance m.lines + m.parser.chunkExcess := h.counted.paid
    rw [hbytes] at hcapped hlines
    rw [hcount] at hfields
    have hwrap : chttp1MaxChunkOverheadExcess + chttp1MaxSpillLineLen + 4 ≤ uint64Max := by decide
    exact ⟨⟨hcapped, hlines, h.counted.total⟩, ⟨hfields, fun halive => (h.counted.fields halive).symm⟩,
      ⟨hexcess, by omega, by omega⟩, h.stores⟩
  · intro slices
    suffices h : ∀ (slices : List (List UInt8)) (m : Metered), Reaches S type config m → ∃ m', Reaches S type config m' ∧
        m'.parser = slices.foldl (fun p data => (p.execute S data).2) m.parser ∧ m'.read ≤ m.read + slices.flatten.length by
      obtain ⟨m, hm, hparser, hread⟩ := h slices _ Reach.refl
      exact ⟨m, hm, hparser, by rw [← Nat.zero_add slices.flatten.length]; exact hread⟩
    intro slices
    induction slices with
    | nil =>
      intro m hm
      exact ⟨m, hm, rfl, Nat.le_refl _⟩
    | cons data slices ih =>
      intro m hm
      obtain ⟨m₁, hm₁, hparser₁, hread₁⟩ := reaches_execute hm data
      obtain ⟨m₂, hm₂, hparser₂, hread₂⟩ := ih m₁ hm₁
      refine ⟨m₂, hm₂, ?_, ?_⟩
      · rw [hparser₂, hparser₁]
        rfl
      · rw [flatten_cons, length_append]
        omega

/-! ## A run that is not bounded -/

def uncapped : Config := ⟨sizeMax, sizeMax, 0, false, false⟩

structure HeaderRun (k : Nat) (m : Metered) : Prop where
  reaches : Reaches accepting .response uncapped m
  state : m.parser.state = .headers
  type : m.parser.type = .response
  line : m.parser.line = []
  spill : m.parser.lineSpill = false
  flags : m.parser.flags = .none
  maxBytes : m.parser.maxTotalHeaderBytesOverride = sizeMax
  maxCount : m.parser.maxHeaderCountOverride = sizeMax
  bytes : headerBytes m.lines = 14 + 4 * k

theorem headerRun_zero : ∃ m, HeaderRun 0 m := by
  refine ⟨(start .response uncapped).round accepting 14 (ascii "HTTP/1.1 200\x0d\n"),
    Reach.single (i := .round 14 (ascii "HTTP/1.1 200\x0d\n")) rfl, ?_, ?_, ?_, ?_, ?_, ?_, ?_, ?_⟩ <;> decide +kernel

theorem headerRun_step {k : Nat} {m : Metered} (h : HeaderRun k m) : ∃ m', HeaderRun (k + 1) m' := by
  have hle : ∀ a b, sizeAdd a b ≤ sizeMax := fun a b => Nat.le_of_lt_succ (Nat.mod_lt _ (by decide))
  have hmax : m.parser.effectiveMaxTotalHeaderBytes = sizeMax := by
    rw [effectiveMaxTotalHeaderBytes, h.maxBytes]
    rfl
  have hnumber : m.parser.effectiveMaxHeaderCount = sizeMax := by
    rw [effectiveMaxHeaderCount, h.maxCount]
    rfl
  have hisLine : m.parser.state.isLine = true := by
    rw [h.state]
    rfl
  have hroom : ([0x61, 0x3A] : List UInt8).length + 2 ≤ m.parser.lineRoom m.parser.stateSpillBudget :=
    Nat.le_trans (by decide) (maxLineLen_le_lineRoom h.spill _)
  let q : Parser := m.parser.holding [0x61, 0x3A]
  have hinterpret : q.interpretHeader [0x61] [] = (none, q) := by
    simp [interpretHeader, q, holding, h.type, headerNameIs, ascii]
  have hready := @headerReady_ok accepting q [] _ _ _
    (by rw [show q.effectiveMaxHeaderCount = sizeMax from hnumber]; exact hle _ _)
    (by rw [show q.effectiveMaxTotalHeaderBytes = sizeMax from hmax]; exact hle _ _)
    (show splitHeader [0x61, 0x3A] = .ok ([0x61], []) by decide) hinterpret (by rw [show q.flags = .none from h.flags]; rfl) rfl
  have hline : lineReady accepting q [] 4 = q.headerReady accepting false [] :=
    lineReady_header (p := q) h.state (cons_ne_nil _ _)
  obtain ⟨hparser, hlines⟩ := round_line (S := accepting) hisLine h.line (by decide) hroom 4
  rw [show m.parser.holding [0x61, 0x3A] = q from rfl, length_nil, Nat.sub_zero, hline, hready] at hparser hlines
  have hdata : ascii "a:\x0d\n" = [0x61, 0x3A] ++ (lineEnd ++ []) := by decide
  rw [← hdata] at hparser hlines
  refine ⟨m.round accepting 4 (ascii "a:\x0d\n"), h.reaches.tail (i := .round 4 (ascii "a:\x0d\n")) rfl, ?_, ?_, ?_, ?_, ?_, ?_, ?_, ?_⟩
  · rw [hparser]
    exact h.state
  · rw [hparser]
    exact h.type
  · rw [hparser]
    rfl
  · rw [hparser]
    show (m.parser.lineSpill || decide (chttp1MaxLineLen < 4)) = false
    rw [h.spill]
    decide
  · rw [hparser]
    exact h.flags
  · rw [hparser]
    exact h.maxBytes
  · rw [hparser]
    exact h.maxCount
  · have hbytes : Line.headerBytes ⟨q.state, q.line⟩ = 4 := by
      rw [show q.state = .headers from h.state]
      rfl
    rw [hlines, taken_of rfl, headerBytes_append, h.bytes, (sum_singleton _).1, hbytes]
    omega

/-- After `2 ^ 62` lines the header bytes are above their cap. -/
theorem unbounded_run_exceeds_limits :
    ∃ m, Reaches accepting .response uncapped m ∧ maxBytes .response uncapped < headerBytes m.lines := by
  have hrun : ∀ k, ∃ m, HeaderRun k m := by
    intro k
    induction k with
    | zero => exact headerRun_zero
    | succ k ih =>
      obtain ⟨m, hm⟩ := ih
      exact headerRun_step hm
  obtain ⟨m, hm⟩ := hrun (2 ^ 62)
  refine ⟨m, hm.reaches, ?_⟩
  rw [hm.bytes]
  decide

/-!
# Which lines may exceed the fixed buffer
-/

/-- A status line ends within `CHTTP1_MAX_LINE_LEN` bytes, and so does a chunk size line until a header line moves to
the heap; then it ends within `CHTTP1_MAX_SPILL_LINE_LEN`. -/
theorem long_lines_refused (S : Settings) (config : Config) :
    (∀ m, Reaches S .response config m →
      (m.parser.state = .firstLine → RefusesBeyond S m.parser chttp1MaxLineLen) ∧
      (m.parser.state = .bodyChunkSize → RefusesBeyond S m.parser (sizeLineLimit m.lines))) ∧
    ∀ m m', Reaches S .response config m → Reaches S .response config m' → m.parser.AtChunk → m'.parser.AtChunk →
      SameUsage m.parser m'.parser → spilled m.lines = spilled m'.lines →
      ∀ slices, m.parser.Completes slices ↔ m'.parser.Completes slices := by
  have hspill : ∀ m, Reaches S .response config m → m.parser.state = .bodyChunkSize →
      Spilling (parserInit .response config).kept m ∧ m.parser.lineSpill = spilled m.lines := by
    intro m hm hstate
    have hgoing : Going m.parser := by
      rw [Going, hstate]
      exact ⟨State.noConfusion, State.noConfusion⟩
    have h := spilling_reaches hm hgoing
    have hspill := h.spill
    rw [hstate, show State.isField .bodyChunkSize = false from rfl, Bool.false_and, Bool.or_false] at hspill
    exact ⟨h, hspill⟩
  constructor
  · intro m hm
    constructor
    · intro hstate
      have hgoing : Going m.parser := by
        rw [Going, hstate]
        exact ⟨State.noConfusion, State.noConfusion⟩
      have h := spilling_reaches hm hgoing
      have hnone := h.spill
      rw [h.first hstate, hstate, show State.isField .firstLine = false from rfl, Bool.false_and] at hnone
      have hrefuses := refuses_of_fits (S := S) (by rw [hstate]; rfl) (by rw [hstate]; rfl) h.fits
      rw [bufferSize, hnone] at hrefuses
      exact hrefuses
    · intro hstate
      obtain ⟨h, hsize⟩ := hspill m hm hstate
      have hrefuses := refuses_of_fits (S := S) (by rw [hstate]; rfl) (by rw [hstate]; rfl) h.fits
      rw [bufferSize, hsize] at hrefuses
      exact hrefuses
  · intro m m' hm hm' hp hp' husage hsame slices
    obtain ⟨h, hsize⟩ := hspill m hm hp.state
    obtain ⟨h', hsize'⟩ := hspill m' hm' hp'.state
    have hlimits : SameLimits m.parser m'.parser := ⟨h.kept.trans h'.kept.symm, husage, by rw [hsize, hsize', hsame]⟩
    exact ⟨hlimits.completes hp hp', hlimits.symm.completes hp' hp⟩

/-! ## A chunk size line on the heap -/

/-- A response parser that may spill, with the caps it has by default. -/
def spilling : Config := ⟨0, 0, 0, true, true⟩

def longField : TrailerField where
  name := ascii "X"
  lead := ascii " "
  value := List.replicate 8192 0x61
  trail := []
  token := mem_token.mpr ⟨0x58, [], rfl, by decide, forall_mem_nil _⟩
  before := mem_bws.mpr (all_eq_true.mp rfl)
  chars := by
    intro c hc
    rw [eq_of_mem_replicate hc]
    rfl
  first := by
    intro c hc
    rw [eq_of_mem_replicate (mem_of_mem_head? hc)]
    rfl
  final := by
    intro c hc
    rw [eq_of_mem_replicate (mem_of_getLast? hc)]
    rfl
  behind := mem_bws.mpr (forall_mem_nil _)

theorem longField_length : longField.text.length = 8195 := by
  have hname : longField.name.length = 1 := rfl
  have hlead : longField.lead.length = 1 := rfl
  have hvalue : longField.value.length = 8192 := length_replicate
  have htrail : longField.trail.length = 0 := rfl
  rw [TrailerField.text, length_append, length_cons, length_append, length_append, hname, hlead, hvalue, htrail]

def longSize : SizeLine .response 5 where
  size := List.replicate 8192 0x30 ++ ascii "5"
  ext := []
  spells := Spells.zeros ⟨by decide, [5], .cons rfl .nil, rfl⟩ 8192
  valid := .inl (Language.nil_mem_kstar _)

theorem longSize_length : longSize.text.length = 8193 := by
  rw [SizeLine.text]
  simp only [longSize, length_append, length_replicate]
  decide

/-- A response in the middle of its header block, and whether a line has moved to the heap. -/
structure SpillRun (m : Metered) (spill : Bool) (total count : Nat) : Prop where
  reaches : Reaches accepting .response spilling m
  state : m.parser.state = .headers
  line : m.parser.line = []
  spill : m.parser.lineSpill = spill
  kept : m.parser.kept = (.response, true, true, 0, 0, 0)
  chunked : m.parser.flags.chunked = true
  length : m.parser.flags.contentLength = false
  status : m.parser.statusCode = 200
  total : m.parser.totalHeaderBytes = total
  count : m.parser.headerCount = count
  excess : m.parser.chunkExcess = 0

theorem spillRun_start : ∃ m, SpillRun m false 42 1 := by
  refine ⟨((start .response spilling).round accepting 14 (ascii "HTTP/1.1 200\x0d\n")).round accepting 28
    (ascii "Transfer-Encoding: chunked\x0d\n"),
    (Reach.single (i := .round 14 (ascii "HTTP/1.1 200\x0d\n")) rfl).tail (i := .round 28 (ascii "Transfer-Encoding: chunked\x0d\n")) rfl,
    ?_, ?_, ?_, ?_, ?_, ?_, ?_, ?_, ?_, ?_⟩ <;> decide +kernel

theorem SpillRun.set {m : Metered} {spill : Bool} {total count : Nat} (h : SpillRun m spill total count) :
    m.parser.type = .response ∧ m.parser.headerSpillBudget = chttp1MaxTotalHeaderBytes - total ∧
      m.parser.effectiveMaxHeaderCount = chttp1MaxHeaderCount ∧ m.parser.effectiveMaxTotalHeaderBytes = chttp1MaxTotalHeaderBytes ∧
      m.parser.maxChunkSizeOverride = 0 := by
  have hkept := h.kept
  simp only [Parser.kept, Prod.mk.injEq] at hkept
  obtain ⟨htype, henabled, -, hcount, hbytes, hchunk⟩ := hkept
  have hmax : m.parser.effectiveMaxTotalHeaderBytes = chttp1MaxTotalHeaderBytes := by
    rw [effectiveMaxTotalHeaderBytes, hbytes]
    rfl
  refine ⟨htype, ?_, ?_, hmax, hchunk⟩
  · rw [headerSpillBudget, henabled, hmax, h.total]
    rfl
  · rw [effectiveMaxHeaderCount, hcount]
    rfl

theorem SpillRun.isLine {m : Metered} {spill : Bool} {total count : Nat} (h : SpillRun m spill total count) :
    m.parser.state.isLine = true := by
  rw [h.state]
  rfl

theorem SpillRun.budget {m : Metered} {spill : Bool} {total count : Nat} (h : SpillRun m spill total count) :
    m.parser.stateSpillBudget = chttp1MaxTotalHeaderBytes - total := by
  rw [stateSpillBudget, h.state]
  exact h.set.2.1

theorem spillRun_header {m : Metered} (h : SpillRun m false 42 1) : ∃ m', SpillRun m' true 8239 2 := by
  obtain ⟨htype, -, hmaxCount, hmaxBytes, -⟩ := h.set
  have hkept := h.kept
  simp only [Parser.kept, Prod.mk.injEq] at hkept
  obtain ⟨-, henabled, halloc, -⟩ := hkept
  have hroom : longField.text.length + 2 ≤ m.parser.lineRoom m.parser.stateSpillBudget := by
    rw [h.budget, lineRoom, h.spill, henabled, halloc, longField_length]
    decide
  let q : Parser := m.parser.holding longField.text
  have hlen : q.line.length = 8195 := longField_length
  have hcount : q.headerCount = 1 := h.count
  have htotal : q.totalHeaderBytes = 42 := h.total
  have hinterpret : q.interpretHeader (ascii "X") longField.value = (none, q) := by
    simp [interpretHeader, q, holding, htype, headerNameIs, ascii]
  have hready := @headerReady_ok accepting q [] _ _ _
    (by rw [hcount, show q.effectiveMaxHeaderCount = chttp1MaxHeaderCount from hmaxCount]; decide)
    (by rw [htotal, hlen, show q.effectiveMaxTotalHeaderBytes = chttp1MaxTotalHeaderBytes from hmaxBytes]; decide)
    (splitHeader_field longField) hinterpret (by rw [show q.flags.contentLength = false from h.length]; rfl) rfl
  have hline : ∀ n, lineReady accepting q [] n = q.headerReady accepting false [] :=
    fun n => lineReady_header (p := q) h.state longField.text_ne_nil
  obtain ⟨hparser, -⟩ := round_line (S := accepting) h.isLine h.line longField.avoids hroom 8197
  rw [show m.parser.holding longField.text = q from rfl, hline, hready] at hparser
  have hspill : q.lineSpill = true := by
    show (m.parser.lineSpill || decide (chttp1MaxLineLen < longField.text.length + 2)) = true
    rw [longField_length, h.spill]
    decide
  refine ⟨_, h.reaches.tail (i := .round 8197 (longField.text ++ (lineEnd ++ []))) rfl, ?_, ?_, ?_, ?_, ?_, ?_, ?_, ?_, ?_, ?_⟩ <;> rw [act, hparser]
  · exact h.state
  · rfl
  · exact hspill
  · exact h.kept
  · exact h.chunked
  · exact h.length
  · exact h.status
  · show sizeAdd q.totalHeaderBytes (q.line.length + 2) = _
    rw [htotal, hlen]
    decide
  · show sizeAdd q.headerCount 1 = _
    rw [hcount]
    decide
  · exact h.excess

theorem spillRun_end {m : Metered} (h : SpillRun m true 8239 2) :
    ∃ m', Reaches accepting .response spilling m' ∧ m'.parser.AtChunk ∧ m'.parser.type = .response ∧ m'.parser.lineSpill = true ∧
      m'.parser.chunkExcess = 0 ∧ m'.parser.maxChunkSizeOverride = 0 := by
  obtain ⟨htype, -, -, -, hmaxChunk⟩ := h.set
  have hroom : ([] : List UInt8).length + 2 ≤ m.parser.lineRoom m.parser.stateSpillBudget := by
    rw [h.budget, lineRoom, h.spill, Bool.true_or, if_pos rfl]
    decide
  have hend : ∀ n, m.parser.lineReady accepting [] n = .inl ({ m.parser with
      flags := { m.parser.flags with headersDone := true }
      log := m.parser.log ++ [⟨.headersComplete m.parser.statusCode m.parser.httpMajor m.parser.httpMinor, 0⟩]
      state := .bodyChunkSize
      finishState := .finishUnsafe }, []) := by
    intro n
    rw [lineReady_headersEnd h.state h.line]
    simp [headersEnd, htype, reportHeaders, call, accepting, headersAnswered, enterBody, noBody, headersNoBody, bodiless, h.status,
      h.chunked, wantDivert]
  obtain ⟨hparser, -⟩ := round_line (S := accepting) h.isLine h.line not_mem_nil hroom 2
  rw [holding_nil h.line, hend] at hparser
  refine ⟨_, h.reaches.tail (i := .round 2 ([] ++ (lineEnd ++ []))) rfl, ⟨?_, ?_⟩, ?_, ?_, ?_, ?_⟩ <;> rw [act, hparser]
  · rfl
  · exact h.line
  · exact htype
  · exact h.spill
  · exact h.excess
  · exact hmaxChunk

/-- Behind the header block a size line of 8195 bytes is accepted. -/
theorem spilled_run_exceeds_line_len :
    ∃ m, Reaches accepting .response spilling m ∧ ∃ l ∈ m.lines, l.state = .bodyChunkSize ∧ chttp1MaxLineLen < l.text.length + 2 := by
  obtain ⟨m₁, h₁⟩ := spillRun_start
  obtain ⟨m₂, h₂⟩ := spillRun_header h₁
  obtain ⟨m, hreaches, hp, htype, hspill, hexcess, hmaxChunk⟩ := spillRun_end h₂
  have hlimit : longSize.text.length + 2 ≤ m.parser.lineRoom 0 := by
    rw [lineRoom, hspill, longSize_length, Bool.true_or, if_pos rfl]
    decide
  have hwithin : m.parser.SizeWithin longSize.text 5 := by
    refine ⟨hlimit, by decide, .inl hmaxChunk, ?_⟩
    rw [hexcess, longSize_length]
    decide
  obtain ⟨-, hlines⟩ := round_line (S := accepting) hp.isLine hp.line longSize.avoids (by rw [hp.budget]; exact hlimit) 8195
  have hready := @chunkSizeReady_ok _ [] _ _ hp.line htype longSize hwithin
  refine ⟨_, hreaches.tail (i := .round 8195 (longSize.text ++ (lineEnd ++ []))) rfl, ⟨.bodyChunkSize, longSize.text⟩, ?_, rfl, ?_⟩
  · rw [act, hlines, holding_short hlimit, lineReady_chunkSize hp, hready, taken_of rfl, hp.state]
    exact mem_append_right _ mem_cons_self
  · rw [longSize_length]
    decide

end Ccollections.Chttp1
