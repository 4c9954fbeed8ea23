import Ccollections.Chttp1.Lemmas.Lines
import Ccollections.Chttpclient.Lemmas.Request

/-!
# A parser reads a request
-/

namespace Ccollections.Chttpclient
open Chttp1 Chttp1.Parser List

/-! ## One field -/

structure Readable (length : Nat) (f : Field) : Prop where
  name : f.1 ≠ []
  tchars : f.1.all chttp1IsTchar = true
  value : ∀ c ∈ f.2, isInvalidValueByte c = false
  noTransferEncoding : nameIs f.1 "transfer-encoding" = false
  contentLength : nameIs f.1 "content-length" = true → parseUint64Decimal (trimOws f.2) = some length

structure Framed (flags : Flags) (n length : Nat) (seen : Bool) : Prop where
  transferEncoding : flags.transferEncoding = false
  chunked : flags.chunked = false
  contentLength : flags.contentLength = seen
  length : seen = true → n = length

variable {p : Parser} {length n : Nat} {seen : Bool} {f : Field}

theorem Framed.connection {flags : Flags} (h : Framed flags n length seen) (elements : List (List UInt8)) :
    Framed (elements.foldl connectionToken flags) n length seen := by
  induction elements generalizing flags with
  | nil => exact h
  | cons e elements ih =>
    refine ih ?_
    rw [connectionToken]
    split
    · exact ⟨h.1, h.2, h.3, h.4⟩
    · split
      · exact ⟨h.1, h.2, h.3, h.4⟩
      · exact h

theorem interpretHeader_readable (htype : p.type = .request) (hframed : Framed p.flags p.contentLength length seen)
    (hf : Readable length f) (hnew : nameIs f.1 "content-length" = true → seen = false) :
    (nameIs f.1 "host" = true ∧ hostValueIsValid (trimOws f.2) = false ∧
      ∃ reason q, p.interpretHeader f.1 (trimOws f.2) = (some reason, q)) ∨
    ((nameIs f.1 "host" = true → hostValueIsValid (trimOws f.2) = true) ∧
      ∃ flags n, p.interpretHeader f.1 (trimOws f.2) = (none, { p with
          flags := flags
          contentLength := n
          hostCount := if nameIs f.1 "host" = true ∧ p.hostCount < 2 then p.hostCount + 1 else p.hostCount }) ∧
        Framed flags n length (seen || nameIs f.1 "content-length")) := by
  have hte : asciiCaseEq f.1 (ascii "transfer-encoding") = false := hf.noTransferEncoding
  have hrequest : decide (p.type = .request) = true := by simp [htype]
  simp only [interpretHeader, headerNameIs_eq, hrequest, Bool.true_and, hte, Bool.false_eq_true, if_false]
  split
  · rename_i hname
    have hname : nameIs f.1 "content-length" = true := hname
    have hhost : nameIs f.1 "host" = false := nameIs_false hname (by decide)
    have hflag : p.flags.contentLength = false := by rw [hframed.contentLength, hnew hname]
    refine .inr ⟨by simp [hhost], { p.flags with contentLength := true }, length, ?_, hframed.1, hframed.2, ?_, fun _ => rfl⟩
    · simp [processContentLength, hflag, hf.contentLength hname, hhost]
    · simp [hname]
  · rename_i hlength
    have hlength : nameIs f.1 "content-length" = false := by simpa [nameIs] using hlength
    simp only [hlength, Bool.or_false]
    split
    · rename_i hname
      have hname : nameIs f.1 "host" = true := hname
      cases hvalid : hostValueIsValid (trimOws f.2) with
      | false => exact .inl ⟨hname, rfl, "Invalid Host header value", _, by simp only [processHost, hvalid]; rfl⟩
      | true =>
        refine .inr ⟨fun _ => rfl, p.flags, p.contentLength, ?_, hframed⟩
        simp [processHost, hvalid, hname]
    · rename_i hhost
      have hhost : nameIs f.1 "host" = false := by simpa [nameIs] using hhost
      simp only [hhost, Bool.false_eq_true, false_and, if_false, false_implies, true_and]
      refine .inr ?_
      split
      · exact ⟨_, p.contentLength, rfl, hframed.connection _⟩
      · split
        · simp only [processExpect]
          split
          · exact ⟨{ p.flags with expect100Continue := true }, p.contentLength, rfl, hframed.1, hframed.2, hframed.3, hframed.4⟩
          · exact ⟨p.flags, p.contentLength, rfl, hframed⟩
        · exact ⟨p.flags, p.contentLength, rfl, hframed⟩

/-! ## The lines of a request -/

structure Reading (config : Config) (first : Event) (size length : Nat) (done : List Field) (p : Parser) : Prop where
  type : p.type = .request
  state : p.state = .headers
  line : p.line = []
  lineSpill : p.lineSpill = false
  version : p.httpMajor = 1 ∧ p.httpMinor = 1
  status : p.statusCode = 0
  framed : Framed p.flags p.contentLength length (done.any (nameIs ·.1 "content-length"))
  hostCount : p.hostCount = min 2 (done.countP (nameIs ·.1 "host"))
  headerCount : p.headerCount ≤ done.length
  totalHeaderBytes : p.totalHeaderBytes ≤ size + (done.flatMap fieldLine).length
  maxCount : p.effectiveMaxHeaderCount = (parserInit .request config).effectiveMaxHeaderCount
  maxTotal : p.effectiveMaxTotalHeaderBytes = (parserInit .request config).effectiveMaxTotalHeaderBytes
  log : p.log.map (·.event) = first :: done.map fun f => .header f.1 (trimOws f.2)

variable {config : Config} {first : Event} {size len : Nat} {done : List Field} {rest : List UInt8}

theorem sizeAdd_le (a b : Nat) : sizeAdd a b ≤ a + b := Nat.mod_le _ _

theorem Reading.field (len : Nat) (rest : List UInt8) (h : Reading config first size length done p) (hf : Readable length f)
    (hnew : nameIs f.1 "content-length" = true → done.any (nameIs ·.1 "content-length") = false)
    (hline : (fieldLine f).length ≤ chttp1MaxLineLen)
    (hcount : done.length + 1 ≤ (parserInit .request config).effectiveMaxHeaderCount)
    (htotal : size + ((done ++ [f]).flatMap fieldLine).length ≤ (parserInit .request config).effectiveMaxTotalHeaderBytes) :
    (nameIs f.1 "host" = true ∧ hostValueIsValid (trimOws f.2) = false ∧
      ∃ q, step accepting len (p, fieldLine f ++ rest) = .inr (.error, q)) ∨
    ((nameIs f.1 "host" = true → hostValueIsValid (trimOws f.2) = true) ∧
      ∃ p', step accepting len (p, fieldLine f ++ rest) = .inl (p', rest) ∧ Reading config first size length (done ++ [f]) p') := by
  have hbytes : fieldLine f ++ rest = (f.1 ++ ascii ": " ++ f.2) ++ 0x0D :: 0x0A :: rest := by simp [fieldLine, crlf]
  have hlength : (fieldLine f).length = (f.1 ++ ascii ": " ++ f.2).length + 2 := by
    rw [fieldLine, length_append]
    rfl
  have hcontent : 0x0A ∉ f.1 ++ ascii ": " ++ f.2 := by
    simp only [mem_append, not_or]
    refine ⟨⟨fun hmem => ?_, by decide⟩, fun hmem => ?_⟩
    · have htchar := all_eq_true.mp hf.tchars _ hmem
      revert htchar
      decide
    · have hvalid := hf.value _ hmem
      revert hvalid
      decide
  have hne : f.1 ++ ascii ": " ++ f.2 ≠ [] := by simp [hf.name]
  have hbefore := h.headerCount
  have hcounted := sizeAdd_le p.headerCount 1
  have hsize := h.totalHeaderBytes
  have hadded := sizeAdd_le p.totalHeaderBytes ((f.1 ++ ascii ": " ++ f.2).length + 2)
  rw [flatMap_append, length_append, flatMap_singleton, hlength] at htotal
  obtain ⟨q, hq⟩ : ∃ q : Parser, { p with line := f.1 ++ ascii ": " ++ f.2 } = q := ⟨_, rfl⟩
  have hstate : q.state = .headers := hq ▸ h.state
  have hne' : q.line ≠ [] := hq ▸ hne
  have hcount' : sizeAdd q.headerCount 1 ≤ q.effectiveMaxHeaderCount := by
    rw [← hq]
    exact (hcounted.trans (by omega)).trans h.maxCount.ge
  have htotal' : sizeAdd q.totalHeaderBytes (q.line.length + 2) ≤ q.effectiveMaxTotalHeaderBytes := by
    rw [← hq]
    exact (hadded.trans (by omega)).trans h.maxTotal.ge
  have hsplit : splitHeader q.line = .ok (f.1, trimOws f.2) := by
    rw [← hq]
    exact splitHeader_ok hf.name hf.tchars hf.value
  rw [hbytes, step_line (.inr h.state) h.lineSpill h.line hcontent (hlength ▸ hline), hq, lineReady_header hstate hne']
  rcases interpretHeader_readable (p := q) (hq ▸ h.type) (hq ▸ h.framed) hf hnew with
    ⟨hhost, hinvalid, reason, q', hinterpret⟩ | ⟨hhost, flags, n, hinterpret, hframed⟩
  · exact .inl ⟨hhost, hinvalid, _, headerReady_refused hcount' htotal' hsplit hinterpret⟩
  · refine .inr ⟨hhost, _, headerReady_ok hcount' htotal' hsplit hinterpret (by rw [hframed.chunked, Bool.and_false]) rfl, ?_⟩
    subst hq
    refine ⟨h.type, h.state, rfl, h.lineSpill, h.version, h.status, ?_, ?_, ?_, ?_, h.maxCount, h.maxTotal, ?_⟩
    · simpa using hframed
    · simp only [h.hostCount, countP_append, countP_singleton]
      split
      · rename_i hname
        simp only [hname.1, if_true]
        omega
      · rename_i hname
        split
        · rename_i hhost
          simp only [hhost, true_and] at hname
          omega
        · rfl
    · have hlen : (done ++ [f]).length = done.length + 1 := by simp
      exact (hcounted.trans (Nat.add_le_add_right hbefore 1)).trans hlen.ge
    · have hlen : ((done ++ [f]).flatMap fieldLine).length = (done.flatMap fieldLine).length + (fieldLine f).length := by simp
      exact hadded.trans (by omega)
    · simp [h.log]

theorem Reading.fields {fields : List Field} (len : Nat) (rest : List UInt8) (h : Reading config first size length done p)
    (hreadable : ∀ f ∈ fields, Readable length f) (hlines : ∀ f ∈ fields, (fieldLine f).length ≤ chttp1MaxLineLen)
    (hdistinct : (done ++ fields).Pairwise fun f g => asciiCaseEq f.1 g.1 = false)
    (hcount : (done ++ fields).length ≤ (parserInit .request config).effectiveMaxHeaderCount)
    (htotal : size + ((done ++ fields).flatMap fieldLine).length ≤ (parserInit .request config).effectiveMaxTotalHeaderBytes) :
    ((∃ f ∈ fields, nameIs f.1 "host" = true ∧ hostValueIsValid (trimOws f.2) = false) ∧
      ∃ q, (loop accepting len).run (p, fields.flatMap fieldLine ++ rest) = (.error, q)) ∨
    ((∀ f ∈ fields, nameIs f.1 "host" = true → hostValueIsValid (trimOws f.2) = true) ∧
      ∃ p', (loop accepting len).run (p, fields.flatMap fieldLine ++ rest) = (loop accepting len).run (p', rest) ∧
        Reading config first size length (done ++ fields) p') := by
  induction fields generalizing done p with
  | nil => exact .inr ⟨by simp, p, by simp, by simpa using h⟩
  | cons f fields ih =>
    have hsplit : done ++ f :: fields = done ++ [f] ++ fields := by simp
    have hbytes : (f :: fields).flatMap fieldLine ++ rest = fieldLine f ++ (fields.flatMap fieldLine ++ rest) := by simp
    have hnew : nameIs f.1 "content-length" = true → done.any (nameIs ·.1 "content-length") = false := by
      intro hname
      rw [any_eq_false]
      intro g hg hname'
      have hother := (pairwise_append.mp hdistinct).2.2 g hg f mem_cons_self
      rw [asciiCaseEq_trans hname' (asciiCaseEq_symm hname)] at hother
      cases hother
    rw [hsplit] at hdistinct hcount htotal
    obtain ⟨hf, hreadable⟩ := forall_mem_cons.mp hreadable
    obtain ⟨hline, hlines⟩ := forall_mem_cons.mp hlines
    have hcount' : done.length + 1 ≤ (parserInit .request config).effectiveMaxHeaderCount := by
      simp only [length_append, length_singleton] at hcount
      omega
    have htotal' : size + ((done ++ [f]).flatMap fieldLine).length ≤ (parserInit .request config).effectiveMaxTotalHeaderBytes := by
      rw [flatMap_append, length_append] at htotal
      omega
    rw [hbytes]
    rcases h.field len (fields.flatMap fieldLine ++ rest) hf hnew hline hcount' htotal' with
      ⟨hhost, hinvalid, q, hstep⟩ | ⟨hvalid, p₁, hstep, hreading⟩
    · exact .inl ⟨⟨f, mem_cons_self, hhost, hinvalid⟩, q, Lib.Machine.run_halt hstep⟩
    · rw [Lib.Machine.run_step (m := loop accepting len) hstep]
      rcases ih hreading hreadable hlines hdistinct hcount htotal with ⟨⟨g, hg, hhost, hinvalid⟩, herror⟩ | ⟨hall, p₂, hrun, hreading⟩
      · exact .inl ⟨⟨g, mem_cons_of_mem _ hg, hhost, hinvalid⟩, herror⟩
      · exact .inr ⟨forall_mem_cons.mpr ⟨hvalid, hall⟩, p₂, hrun, hsplit ▸ hreading⟩

theorem reading_requestLine {method : Method} {url : ChttpUrl} (len length : Nat) (rest : List UInt8) (htarget : url.pathAndQuery ≠ [])
    (hbytes : ∀ c ∈ url.pathAndQuery, isInvalidTargetByte c = false) (hline : (requestLine method url).length + 2 ≤ chttp1MaxLineLen)
    (htotal : (requestLine method url).length + 2 ≤ (parserInit .request config).effectiveMaxTotalHeaderBytes) :
    ∃ p, step accepting len (parserInit .request config, requestLine method url ++ crlf ++ rest) = .inl (p, rest) ∧
      Reading config (.requestLine (chttpMethodStr method) url.pathAndQuery 1 1) ((requestLine method url).length + 2) length [] p := by
  have hmethod : chttpMethodStr method ≠ [] ∧ (chttpMethodStr method).all chttp1IsTchar = true := by
    cases method <;> decide
  have hcontent : 0x0A ∉ requestLine method url := by
    simp only [requestLine, mem_append, mem_cons, not_or]
    refine ⟨⟨?_, by decide, fun hmem => ?_⟩, by decide⟩
    · cases method <;> decide
    · have hvalid := hbytes _ hmem
      revert hvalid
      decide
  have hwire : requestLine method url ++ crlf ++ rest = requestLine method url ++ 0x0D :: 0x0A :: rest := by
    rw [append_assoc]
    rfl
  have hcounted := sizeAdd_le 0 ((requestLine method url).length + 2)
  rw [Nat.zero_add] at hcounted
  rw [hwire, step_line (.inl rfl) rfl rfl hcontent hline, lineReady_firstLine rfl,
    firstLineReady_ok rfl hmethod.1 hmethod.2 htarget hbytes rfl (hcounted.trans htotal) rfl]
  exact ⟨_, rfl, rfl, rfl, rfl, rfl, ⟨rfl, rfl⟩, rfl, ⟨rfl, rfl, rfl, nofun⟩, rfl, Nat.le_refl _, hcounted, rfl, rfl, rfl⟩

/-! ## The end of a request -/

theorem Reading.end {body : List UInt8} (len : Nat) (h : Reading config first size length done p) (hhost : done.countP (nameIs ·.1 "host") = 1)
    (hlength : done.any (nameIs ·.1 "content-length") = true → length = body.length)
    (hempty : done.any (nameIs ·.1 "content-length") = false → body = []) :
    ∃ q, (loop accepting len).run (p, crlf ++ body) = (.paused, q) ∧ q.consumed = len ∧
      q.log.map (·.event) = p.log.map (·.event) ++ [.headersComplete 0 1 1] ++ (if body = [] then [] else [.body body]) ++
        [.messageComplete] := by
  have hdefect : p.requestDefect = none := by
    simp [requestDefect, h.hostCount, hhost, h.framed.transferEncoding]
  have hwire : crlf ++ body = [] ++ 0x0D :: 0x0A :: body := rfl
  have hstep : step accepting len (p, crlf ++ body) = p.headersEnd accepting body (len - body.length) := by
    have hsame : { p with line := [] } = p := by rw [← h.line]
    rw [hwire, step_line (.inr h.state) h.lineSpill h.line (by simp) (by decide), hsame, lineReady_headersEnd h.state h.line]
  obtain ⟨q, hq⟩ : ∃ q : Parser, { p with
      flags := { p.flags with headersDone := true }
      log := p.log ++ [⟨.headersComplete p.statusCode p.httpMajor p.httpMinor, 0⟩] } = q := ⟨_, rfl⟩
  have htype : q.type = .request := hq ▸ h.type
  have hframed : Framed q.flags q.contentLength length (done.any (nameIs ·.1 "content-length")) :=
    hq ▸ ⟨h.framed.transferEncoding, h.framed.chunked, h.framed.contentLength, h.framed.length⟩
  have hlog : q.log.map (·.event) = p.log.map (·.event) ++ [.headersComplete 0 1 1] := by
    rw [← hq, map_append, h.status, h.version.1, h.version.2]
    rfl
  rw [headersEnd_request hdefect rfl, hq] at hstep
  by_cases hbody : body = []
  · have hzero : q.flags.contentLength = true → q.contentLength = 0 := by
      intro hflag
      have hseen := hframed.contentLength.symm.trans hflag
      rw [hframed.length hseen, hlength hseen, hbody]
      rfl
    rw [enterBody_empty htype hframed.transferEncoding hframed.chunked hzero rfl] at hstep
    exact ⟨_, Lib.Machine.run_halt hstep, by simp [hbody], by simp [hbody, hlog]⟩
  · have hseen : done.any (nameIs ·.1 "content-length") = true := by
      by_contra hnone
      exact hbody (hempty (by simpa using hnone))
    have hleft := (hframed.length hseen).trans (hlength hseen)
    rw [enterBody_counted htype hframed.transferEncoding hframed.chunked (hframed.contentLength.trans hseen)
      (hleft.trans_ne (by simp [hbody]))] at hstep
    have hlast := step_body (S := accepting) (p := { q with state := .bodyContentLength, finishState := .finishUnsafe }) (n := len) rfl
      hbody hleft rfl rfl
    have hnext : (loop accepting len).step (p, crlf ++ body) = .inl _ := hstep
    rw [Lib.Machine.run_step hnext, Lib.Machine.run_halt (m := loop accepting len) hlast]
    exact ⟨_, rfl, rfl, by simp [hbody, hlog]⟩

/-!
# What a request puts on the wire

Everything that is serialized has the form that the parser wants, except for a `Host` of the caller.
-/

/-! ## Bytes -/

theorem validTarget_of_visible {c : UInt8} (h : 0x21 ≤ c ∧ c ≤ 0x7E) : isInvalidTargetByte c = false := by
  simp only [isInvalidTargetByte, Bool.or_eq_false_iff, decide_eq_false_iff_not]
  grind

theorem validTarget_percentEncodeByte (b : UInt8) : ∀ c ∈ percentEncodeByte b, isInvalidTargetByte c = false := by
  have hhex : ∀ n < 16, isInvalidTargetByte (hexUpper n) = false := fun _ h => validTarget_of_visible (uriHexdig_visible (uriHexdig_hexUpper h))
  have hlt := b.toNat_lt
  simp only [percentEncodeByte, forall_mem_cons]
  exact ⟨rfl, hhex _ (by omega), hhex _ (Nat.mod_lt _ (by decide)), forall_mem_nil _⟩

def isHostByte (c : UInt8) : Bool := uriUnreservedOrSubDelim c || c = 0x25 || c = 0x3A || c = 0x5B || c = 0x5D

theorem isHostByte_visible {c : UInt8} (h : isHostByte c = true) : 0x21 ≤ c ∧ c ≤ 0x7E := by
  have hmarks : (ascii "-._~!$&'()*+,;=").all (fun c => 0x21 ≤ c && c ≤ 0x7E) = true := rfl
  simp only [isHostByte, uriUnreservedOrSubDelim, Bool.or_eq_true, decide_eq_true_eq, contains_iff_mem] at h
  obtain (((((halpha | hdigit) | hmem) | rfl) | rfl) | rfl) | rfl := h
  · exact isAlpha_visible halpha
  · exact isDigit_visible hdigit
  · simpa using all_eq_true.mp hmarks c hmem
  all_goals decide

theorem validValue_of_hostByte {c : UInt8} (h : isHostByte c = true) : isInvalidValueByte c = false ∧ isOws c = false := by
  have hvisible := isHostByte_visible h
  simp only [isInvalidValueByte, isOws]
  grind

theorem hostByte_of_digit {c : UInt8} (h : isDigit c = true) : isHostByte c = true := by
  simp [isHostByte, uriUnreservedOrSubDelim, h]

/-! ## Request targets -/

theorem encodeTarget_valid {s t : List UInt8} (h : encodeTarget s = .ok t) : ∀ c ∈ t, isInvalidTargetByte c = false := by
  fun_induction encodeTarget s generalizing t with
  | case1 =>
    cases h
    simp
  | case2 a b s hhex ih =>
    obtain ⟨t', ht', rfl⟩ := except_map_ok h
    simp only [Bool.and_eq_true] at hhex
    simp only [forall_mem_cons]
    exact ⟨by decide, validTarget_of_visible (uriHexdig_visible hhex.1), validTarget_of_visible (uriHexdig_visible hhex.2), ih ht'⟩
  | case3 => cases h
  | case4 => cases h
  | case5 c s hc hliteral ih =>
    obtain ⟨t', ht', rfl⟩ := except_map_ok h
    exact forall_mem_cons.mpr ⟨validTarget_of_visible (isTargetLiteralByte_visible hliteral), ih ht'⟩
  | case6 c s hc hliteral ih =>
    obtain ⟨t', ht', rfl⟩ := except_map_ok h
    exact forall_mem_append.mpr ⟨validTarget_percentEncodeByte c, ih ht'⟩

theorem buildRequestTarget_valid {pq t : List UInt8} (h : buildRequestTarget pq = .ok t) :
    t ≠ [] ∧ ∀ c ∈ t, isInvalidTargetByte c = false := by
  obtain ⟨t', ht', h⟩ := except_map_ok h
  have hvalid := encodeTarget_valid ht'
  split at h
  · rename_i hslash
    subst h
    refine ⟨?_, hvalid⟩
    obtain ⟨s, rfl⟩ := List.head?_eq_some_iff.mp hslash
    have hliteral : isTargetLiteralByte 0x2F = true := by decide
    unfold encodeTarget at ht'
    rw [if_neg (by decide), if_pos hliteral] at ht'
    obtain ⟨t'', -, rfl⟩ := except_map_ok ht'
    simp
  · subst h
    exact ⟨by simp, forall_mem_cons.mpr ⟨by decide, hvalid⟩⟩

theorem requestTarget_valid {q t : List UInt8} (h : requestTarget q = .ok t) : t ≠ [] ∧ ∀ c ∈ t, isInvalidTargetByte c = false := by
  simp only [requestTarget] at h
  generalize List.takeWhile _ _ = pq at h
  split at h
  · cases h
  · exact buildRequestTarget_valid h

theorem Parsed.target {u : ChttpUrl} (h : Parsed u) :
    u.pathAndQuery ≠ [] ∧ ∀ c ∈ u.pathAndQuery, isInvalidTargetByte c = false := by
  cases h with
  | network hhost htarget hauth => exact requestTarget_valid htarget
  | unix htarget => exact requestTarget_valid htarget

/-! ## Hosts -/

inductive PortText : List UInt8 → Prop
  | none : PortText []
  | some {digits : List UInt8} (hdigits : digits.all isDigit = true) : PortText (0x3A :: digits)

theorem PortText.valid {tail : List UInt8} (h : PortText tail) : portIsValid tail = true := by
  cases h with
  | none => rfl
  | some hdigits => simpa [portIsValid] using hdigits

theorem regName_append {host tail : List UInt8} (hhost : uriRegNameIsValid.escapesAreValid host = true) (htail : PortText tail) :
    regName (host ++ tail) = some tail := by
  fun_induction uriRegNameIsValid.escapesAreValid host with
  | case1 =>
    cases htail with
    | none => rfl
    | some hdigits => rfl
  | case2 a b s ih =>
    simp only [Bool.and_eq_true] at hhost
    have hhex : (isHexdig a && isHexdig b) = true := Bool.and_eq_true_iff.mpr hhost.1
    simp only [cons_append, regName, hhex, if_true]
    exact ih hhost.2
  | case3 => cases hhost
  | case4 c s hc ih =>
    simp only [Bool.and_eq_true] at hhost
    have hcolon : c ≠ 0x3A := by
      rintro rfl
      exact absurd hhost.1 (by decide)
    have hname : isUnreservedOrSubDelim c = true := hhost.1
    rw [cons_append, regName.eq_def]
    split
    · rename_i heq
      cases heq
    · rename_i heq
      simp only [List.cons.injEq] at heq
      exact absurd heq.1 hc
    · rename_i heq
      simp only [List.cons.injEq] at heq
      obtain ⟨rfl, rfl⟩ := heq
      rw [if_neg hcolon, if_pos hname]
      exact ih hhost.2

theorem hostValueIsValid_regName {host tail : List UInt8} (hhost : uriRegNameIsValid host = true) (htail : PortText tail) :
    hostValueIsValid (host ++ tail) = true := by
  simp only [uriRegNameIsValid, Bool.and_eq_true, decide_eq_true_eq] at hhost
  obtain ⟨hne, hescapes⟩ := hhost
  obtain ⟨c, s, rfl⟩ := exists_cons_of_ne_nil hne
  have hbracket : c ≠ 0x5B := by
    rintro rfl
    rcases regName_bytes hescapes _ mem_cons_self with hbad | hbad <;> revert hbad <;> decide
  have hname := regName_append hescapes htail
  rw [cons_append] at hname ⊢
  simp only [hostValueIsValid, hbracket, if_false, hname, htail.valid, Bool.and_true, decide_eq_true_eq]
  simp
  omega

theorem inetPton6Loop_colon {tok s : List UInt8} {digits bytes : Nat} {gap : Bool} (h : inetPton6Loop tok digits bytes gap s = true)
    (hfew : bytes < 12) (hgap : gap = false) : 0x3A ∈ s := by
  induction s generalizing digits with
  | nil =>
    subst hgap
    simp only [inetPton6Loop] at h
    split at h <;> simp at h <;> omega
  | cons c s ih =>
    rw [inetPton6Loop] at h
    split at h
    · simp only [Bool.and_eq_true] at h
      exact mem_cons_of_mem _ (ih h.2)
    · split at h
      · rename_i hcolon
        rw [hcolon]
        exact mem_cons_self
      · subst hgap
        simp at h
        omega

theorem inetPton6_colon {s : List UInt8} (h : inetPton6 s = true) : 0x3A ∈ s := by
  rw [inetPton6.eq_def] at h
  split at h
  · exact mem_cons_self
  · exact inetPton6Loop_colon h (by decide) rfl

theorem ipLiteralIsValid_of_uri {s : List UInt8} (h : uriIpLiteralIsValid s = true) : ipLiteralIsValid s = true := by
  cases s with
  | nil => cases h
  | cons c rest =>
    rw [uriIpLiteralIsValid] at h
    rw [ipLiteralIsValid]
    split at h
    · rename_i hfuture
      rw [if_pos hfuture]
      exact h
    · rename_i hfuture
      rw [if_neg hfuture]
      simp only [Bool.and_eq_true, all_eq_true] at h ⊢
      refine ⟨fun d hd => ?_, by simpa using inetPton6_colon h.2⟩
      have hd := h.1.2 d hd
      simp only [Bool.or_eq_true] at hd ⊢
      rcases hd with (hd | hd) | hd
      · exact .inl (.inr hd)
      · exact .inl (.inl hd)
      · exact .inr hd

theorem ipLiteral_bytes {s : List UInt8} (h : uriIpLiteralIsValid s = true) :
    ∀ c ∈ s, uriUnreservedOrSubDelim c = true ∨ c = 0x3A := by
  cases s with
  | nil => cases h
  | cons c rest =>
    rw [uriIpLiteralIsValid] at h
    split at h
    · rename_i hfuture
      have hc : uriUnreservedOrSubDelim c = true := by
        simp only [Bool.or_eq_true, decide_eq_true_eq] at hfuture
        rcases hfuture with rfl | rfl <;> decide
      refine forall_mem_cons.mpr ⟨.inl hc, fun d hd => ?_⟩
      rw [uriIpvFutureIsValid] at h
      split at h
      · cases h
      · rename_i dot last hdrop
        simp only [Bool.and_eq_true, decide_eq_true_eq, all_eq_true, Bool.or_eq_true] at h
        rw [← takeWhile_append_dropWhile (p := uriHexdig) (l := rest), hdrop] at hd
        rcases mem_append.mp hd with hd | hd
        · exact .inl (uriHexdig_unreserved (mem_takeWhile_imp hd))
        · rcases mem_cons.mp hd with rfl | hd
          · rw [h.1.1.2]
            exact .inl (by decide)
          · exact h.2 d hd
    · simp only [Bool.and_eq_true, all_eq_true, Bool.or_eq_true, decide_eq_true_eq] at h
      intro d hd
      rcases h.1.2 d hd with (hd | hd) | hd
      · exact .inl (uriHexdig_unreserved hd)
      · exact .inr hd
      · rw [hd]
        exact .inl (by decide)

theorem hostValueIsValid_literal {host tail : List UInt8} (hhost : uriIpLiteralIsValid host = true) (htail : PortText tail) :
    hostValueIsValid (0x5B :: host ++ [0x5D] ++ tail) = true := by
  have hbracket : 0x5D ∉ host := by
    intro hmem
    rcases ipLiteral_bytes hhost _ hmem with hbad | hbad <;> revert hbad <;> decide
  have hwhole : 0x5B :: host ++ [0x5D] ++ tail = 0x5B :: (host ++ 0x5D :: tail) := by simp
  have hdrop : (host ++ 0x5D :: tail).dropWhile (· ≠ 0x5D) = 0x5D :: tail := by
    have hall : ∀ c ∈ host, decide (c ≠ 0x5D) = true := fun c hc => decide_eq_true fun heq => hbracket (heq ▸ hc)
    rw [dropWhile_append_of_pos hall]
    simp
  rw [hwhole]
  simp only [hostValueIsValid, if_true, hdrop, takeWhile_until hbracket, ipLiteralIsValid_of_uri hhost, htail.valid, Bool.and_true]

theorem Parsed.hostValue {u : ChttpUrl} (h : Parsed u) :
    hostValueIsValid (hostValue u) = true ∧ ∀ c ∈ Chttpclient.hostValue u, isHostByte c = true := by
  cases h with
  | unix htarget =>
    change hostValueIsValid (ascii "localhost") = true ∧ ∀ c ∈ ascii "localhost", isHostByte c = true
    exact ⟨rfl, all_eq_true.mp rfl⟩
  | @network https isIpv6 host q target port auth hhost htarget hauth =>
    obtain ⟨tail, htail, hbytes, hvalue⟩ : ∃ tail, PortText tail ∧ (∀ c ∈ tail, isHostByte c = true) ∧
        Chttpclient.hostValue ⟨https, isIpv6, false, [], host, port, target, originKeyOf https isIpv6 host port, auth⟩ =
          formatBracketedHost host isIpv6 ++ tail := by
      by_cases hdefault : ((https && decide (port = 443)) || (!https && decide (port = 80))) = true
      · exact ⟨[], .none, by simp, by simp [Chttpclient.hostValue, hdefault]⟩
      · refine ⟨0x3A :: decimal port, .some (all_eq_true.mpr fun c => decimal_isDigit), ?_, ?_⟩
        · exact forall_mem_cons.mpr ⟨by decide, fun c hc => hostByte_of_digit (decimal_isDigit hc)⟩
        · simp only [Chttpclient.hostValue, Bool.false_eq_true, if_false, hdefault]
    rw [hvalue]
    cases isIpv6 with
    | false =>
      have hname : uriRegNameIsValid host = true := hhost
      refine ⟨hostValueIsValid_regName hname htail, forall_mem_append.mpr ⟨fun c hc => ?_, hbytes⟩⟩
      simp only [uriRegNameIsValid, Bool.and_eq_true] at hname
      rcases regName_bytes hname.2 c hc with hc | hc <;> simp [isHostByte, hc]
    | true =>
      have hliteral : uriIpLiteralIsValid host = true := hhost
      refine ⟨hostValueIsValid_literal hliteral htail, forall_mem_append.mpr ⟨fun c hc => ?_, hbytes⟩⟩
      simp only [formatBracketedHost, if_true, cons_append, mem_cons, mem_append, not_mem_nil, or_false] at hc
      rcases hc with rfl | hc | rfl
      · decide
      · rcases ipLiteral_bytes hliteral c hc with hc | hc <;> simp [isHostByte, hc]
      · decide

/-! ## Numbers -/

theorem le_foldl_digits (v : Nat) (s : List UInt8) : v ≤ s.foldl (fun v d => v * 10 + (d.toNat - 0x30)) v := by
  induction s generalizing v with
  | nil => exact Nat.le_refl _
  | cons c s ih =>
    rw [foldl_cons]
    exact Nat.le_trans (by omega) (ih _)

theorem parseUint64Loop_digits {v : Nat} {s : List UInt8} (hdigits : s.all isDigit = true)
    (hle : s.foldl (fun v d => v * 10 + (d.toNat - 0x30)) v ≤ uint64Max) :
    parseUint64Loop 10 decimalDigit v s = some (s.foldl (fun v d => v * 10 + (d.toNat - 0x30)) v) := by
  induction s generalizing v with
  | nil => rfl
  | cons c s ih =>
    rw [all_cons, Bool.and_eq_true] at hdigits
    rw [foldl_cons] at hle ⊢
    have hnext := (le_foldl_digits _ s).trans hle
    have hdiv : ¬v > uint64Max / 10 := by
      rw [gt_iff_lt, Nat.not_lt, Nat.le_div_iff_mul_le (by decide)]
      omega
    have hroom : ¬v * 10 > uint64Max - (c.toNat - 0x30) := by omega
    simp only [parseUint64Loop, decimalDigit, hdigits.1, if_true, hdiv, hroom, if_false]
    exact ih hdigits.2 hle

theorem parseUint64Decimal_digits {s : List UInt8} (hne : s ≠ []) (hdigits : s.all isDigit = true) (hle : digitsValue s ≤ uint64Max) :
    parseUint64Decimal (trimOws s) = some (digitsValue s) := by
  have htrim : trimOws s = s := by
    refine trimOws_eq_self fun c hc => ?_
    exact (validValue_of_hostByte (hostByte_of_digit (all_eq_true.mp hdigits c hc))).2
  rw [htrim, parseUint64Decimal, if_neg hne]
  exact parseUint64Loop_digits hdigits hle

theorem parseUint64Decimal_of_matches {s : List UInt8} {n : Nat} (h : contentLengthMatches s n = true) :
    parseUint64Decimal (trimOws s) = some n := by
  simp only [contentLengthMatches, Bool.and_eq_true, decide_eq_true_eq] at h
  rw [parseUint64Decimal_digits h.1.1.1 h.1.1.2 h.1.2]
  exact congrArg some h.2

theorem parseUint64Decimal_decimal {n : Nat} (h : n ≤ uint64Max) : parseUint64Decimal (trimOws (decimal n)) = some n := by
  rw [parseUint64Decimal_digits (decimal_ne_nil n) (all_eq_true.mpr fun c => decimal_isDigit) (by rwa [digitsValue_decimal]),
    digitsValue_decimal]

/-! ## Credentials -/

theorem validValue_base64Digit (n : Nat) : isInvalidValueByte (base64Digit n) = false := by
  have hall : (ascii "ABCDEFGHIJKLMNOPQRSTUVWXYZabcdefghijklmnopqrstuvwxyz0123456789+/").all (fun c => !isInvalidValueByte c) = true := rfl
  have hlt : n % 64 < (ascii "ABCDEFGHIJKLMNOPQRSTUVWXYZabcdefghijklmnopqrstuvwxyz0123456789+/").length := Nat.mod_lt n (by decide)
  rw [base64Digit, getD_eq_getElem?_getD, getElem?_eq_getElem hlt]
  simpa using all_eq_true.mp hall _ (getElem_mem _)

theorem validValues_of_all {v : List UInt8} (h : (v.all fun c => !isInvalidValueByte c) = true) : ∀ c ∈ v, isInvalidValueByte c = false := by
  simpa using h

theorem validValue_base64 (s : List UInt8) : ∀ c ∈ chttpBase64Encode s, isInvalidValueByte c = false := by
  have hpad : isInvalidValueByte 0x3D = false := by decide
  fun_induction chttpBase64Encode s with
  | case1 a b c s n ih => simpa [validValue_base64Digit] using ih
  | case2 a b n => simp [validValue_base64Digit, hpad]
  | case3 a n => simp [validValue_base64Digit, hpad]
  | case4 => simp

theorem validValue_userinfo {userinfo auth : List UInt8} (h : userinfoAuthorization userinfo = .ok auth) :
    ∀ c ∈ auth, isInvalidValueByte c = false := by
  rw [userinfoAuthorization] at h
  split at h
  · cases h
  · obtain ⟨user, -, h⟩ := except_bind_ok h
    obtain ⟨pass, -, h⟩ := except_bind_ok h
    split at h
    · cases h
    · rw [chttpBasicAuth] at h
      split at h
      · rename_i hauth
        cases h
        split at hauth
        · cases hauth
        · cases hauth
          exact forall_mem_append.mpr ⟨validValues_of_all rfl, validValue_base64 _⟩
      · cases h

theorem Parsed.userinfo {u : ChttpUrl} {auth : List UInt8} (h : Parsed u) (hauth : u.userinfoAuthorization = some auth) :
    ∀ c ∈ auth, isInvalidValueByte c = false := by
  cases h with
  | unix htarget => cases hauth
  | network hhost htarget hvalid =>
    obtain ⟨userinfo, huserinfo⟩ := hvalid auth hauth
    exact validValue_userinfo huserinfo

/-! ## Fields -/

variable {req : Request} {url : ChttpUrl} {auth : Option (List UInt8)} {drops : RedirectDrops} {fields : List Field} {f : Field}

theorem mem_leadingFields {hp : HeaderPresence} (h : f ∈ leadingFields hp url auth drops) :
    f = (ascii "host", hostValue url) ∨ f = (ascii "accept", ascii "*/*") ∨
    f = (ascii "user-agent", ascii "c_collections-chttpclient/1.0") ∨ ∃ a, auth = some a ∧ f = (ascii "authorization", a) := by
  simp only [leadingFields, mem_append] at h
  rcases h with ((h | h) | h) | h
  · split at h
    · cases h
    · exact .inl (mem_singleton.mp h)
  · split at h
    · cases h
    · exact .inr (.inl (mem_singleton.mp h))
  · split at h
    · cases h
    · exact .inr (.inr (.inl (mem_singleton.mp h)))
  · cases auth with
    | none => cases h
    | some a =>
      dsimp only at h
      split at h
      · cases h
      · exact .inr (.inr (.inr ⟨a, rfl, mem_singleton.mp h⟩))

theorem mem_contentTypeField {hp : HeaderPresence} {contentType : List Field} (h : contentTypeField req hp = .ok contentType)
    (hf : f ∈ contentType) :
    req.method.bodyCarrying = true ∧ ∃ ct, headerValueIsValid ct = true ∧ f = (ascii "content-type", ct) := by
  simp only [contentTypeField] at h
  split at h
  · rename_i ct hct
    split at h
    · cases h
      cases hf
    · rename_i hcarry
      split at h
      · rename_i hvalid
        cases h
        simp only [Bool.or_eq_true, not_or, Bool.not_eq_true', Bool.not_eq_false] at hcarry
        exact ⟨hcarry.2, ct, hvalid, mem_singleton.mp hf⟩
      · cases h
  · cases h
    cases hf

theorem mem_trailingFields {hp : HeaderPresence} (h : f ∈ trailingFields req hp) :
    req.method.bodyCarrying = true ∧
      (f = (ascii "content-length", decimal req.body.bytes.length) ∨ f = (ascii "expect", ascii "100-continue")) := by
  simp only [trailingFields, mem_append] at h
  rcases h with h | h
  · split at h
    · rename_i hcarry
      simp only [Bool.and_eq_true] at hcarry
      exact ⟨hcarry.1, .inl (mem_singleton.mp h)⟩
    · cases h
  · split at h
    · rename_i hcarry
      simp only [Bool.and_eq_true] at hcarry
      exact ⟨hcarry.1.2, .inr (mem_singleton.mp h)⟩
    · cases h

theorem validValue_of_header {v : List UInt8} (h : headerValueIsValid v = true) : ∀ c ∈ v, isInvalidValueByte c = false := by
  intro c hc
  simp only [headerValueIsValid, Bool.not_eq_true', any_eq_false] at h
  simpa [isInvalidValueByte] using h c hc

theorem readable_own {length : Nat} {literal : String} {value : List UInt8}
    (hname : (ascii literal ≠ [] ∧ (ascii literal).all chttp1IsTchar = true) ∧ nameIs (ascii literal) "transfer-encoding" = false)
    (hvalue : ∀ c ∈ value, isInvalidValueByte c = false)
    (hlength : nameIs (ascii literal) "content-length" = true → parseUint64Decimal (trimOws value) = some length) :
    Readable length (ascii literal, value) :=
  ⟨hname.1.1, hname.1.2, hvalue, hname.2, hlength⟩

theorem requestFields_readable (hurl : Parsed url) (hauth : ∀ a, auth = some a → ∀ c ∈ a, isInvalidValueByte c = false)
    (hbody : req.body.bytes.length ≤ uint64Max) (h : requestFields req url auth drops = .ok fields) :
    ∀ f ∈ fields, Readable req.body.bytes.length f := by
  obtain ⟨caller, contentType, -, hte, hcaller, hct, rfl⟩ := requestFields_parts h
  have hspec := callerFields_spec hcaller
  have hno : ∀ name, nameIs (ascii name) "content-length" = false → ∀ value, nameIs (ascii name) "content-length" = true →
      parseUint64Decimal (trimOws value) = some req.body.bytes.length := by
    intro name hname value hname'
    rw [hname] at hname'
    cases hname'
  intro f hf
  simp only [mem_append] at hf
  rcases hf with ((hf | hf) | hf) | hf
  · rcases mem_leadingFields hf with rfl | rfl | rfl | ⟨a, rfl, rfl⟩
    · exact readable_own (by decide) (fun c hc => (validValue_of_hostByte (hurl.hostValue.2 c hc)).1) (hno _ (by decide) _)
    · exact readable_own (by decide) (validValues_of_all rfl) (hno _ (by decide) _)
    · exact readable_own (by decide) (validValues_of_all rfl) (hno _ (by decide) _)
    · exact readable_own (by decide) (hauth a rfl) (hno _ (by decide) _)
  · have hvalid := hspec.valid f (hspec.sublist.subset hf)
    simp only [fieldIsValid, Bool.and_eq_true, decide_eq_true_eq] at hvalid
    refine ⟨hvalid.1.1, hvalid.2, validValue_of_header hvalid.1.2, ?_, fun hname => ?_⟩
    · simpa using any_eq_false.mp hte f (hspec.sublist.subset hf)
    · cases hcarry : req.method.bodyCarrying with
      | true => exact parseUint64Decimal_of_matches (hspec.length f hf hcarry hname)
      | false =>
        have hkept := hspec.kept f hf
        simp [leftOff, hcarry, isBodyHeader, hname] at hkept
  · obtain ⟨-, ct, hvalid, rfl⟩ := mem_contentTypeField hct hf
    exact readable_own (by decide) (validValue_of_header hvalid) (hno _ (by decide) _)
  · obtain ⟨-, rfl | rfl⟩ := mem_trailingFields hf
    · refine readable_own (by decide) (fun c hc => ?_) (fun _ => parseUint64Decimal_decimal hbody)
      exact (validValue_of_hostByte (hostByte_of_digit (decimal_isDigit hc))).1
    · exact readable_own (by decide) (validValues_of_all rfl) (hno _ (by decide) _)

theorem requestFields_contentLength (h : requestFields req url auth drops = .ok fields) (hcarry : req.method.bodyCarrying = true) :
    ∃ f ∈ fields, nameIs f.1 "content-length" = true := by
  obtain ⟨caller, contentType, -, -, hcaller, hct, rfl⟩ := requestFields_parts h
  have hspec := callerFields_spec hcaller
  cases hhas : (scanHeaderPresence req.headers).hasContentLength with
  | true =>
    rw [scan_hasContentLength] at hhas
    obtain ⟨f, hf, hname⟩ := any_eq_true.mp hhas
    have hkept : leftOff req.method drops f.1 = false := by
      simp (disch := decide) [leftOff, hcarry, isRedirectCredentialHeader, nameIs_false hname]
    obtain ⟨g, hg, hsame⟩ := hspec.complete f hf hkept rfl
    exact ⟨g, by simp [hg], (nameIs_congr hsame _).trans hname⟩
  | false =>
    refine ⟨(ascii "content-length", decimal req.body.bytes.length), ?_, asciiCaseEq_refl _⟩
    simp [trailingFields, hcarry, hhas]

theorem requestFields_noBody (h : requestFields req url auth drops = .ok fields) (hcarry : req.method.bodyCarrying = false) :
    ∀ f ∈ fields, isBodyHeader f.1 = false := by
  obtain ⟨caller, contentType, -, -, hcaller, hct, rfl⟩ := requestFields_parts h
  have hspec := callerFields_spec hcaller
  intro f hf
  simp only [mem_append] at hf
  rcases hf with ((hf | hf) | hf) | hf
  · rcases mem_leadingFields hf with rfl | rfl | rfl | ⟨a, -, rfl⟩
    all_goals
      dsimp only
      decide
  · have hkept := hspec.kept f hf
    simp only [leftOff, hcarry, Bool.not_false, Bool.true_and, Bool.or_eq_false_iff] at hkept
    exact hkept.1.1
  · cases hcarry.symm.trans (mem_contentTypeField hct hf).1
  · cases hcarry.symm.trans (mem_trailingFields hf).1

theorem requestFields_newest (h : requestFields req url auth drops = .ok fields) (hf : f ∈ fields)
    (hkept : leftOff req.method drops f.1 = false) {g : Field} (hfind : req.headers.find? (fun g => asciiCaseEq g.1 f.1) = some g) : f = g := by
  obtain ⟨caller, contentType, -, -, hcaller, hct, rfl⟩ := requestFields_parts h
  have hspec := callerFields_spec hcaller
  have hown : ∀ literal, ¬OwnField req.headers req.method drops f literal := by
    rintro literal ⟨hname, habsent | habsent⟩
    · have hsame := List.find?_some hfind
      rw [hname] at hsame
      exact any_eq_false.mp habsent g (mem_of_find?_eq_some hfind) hsame
    · rw [← hname, hkept] at habsent
      cases habsent
  simp only [mem_append] at hf
  rcases hf with ((hf | hf) | hf) | hf
  · obtain ⟨literal, -, hfield⟩ := leadingFields_own hf
    exact absurd hfield (hown literal)
  · have hnewest := hspec.newest f hf
    rw [hfind] at hnewest
    cases hnewest
    rfl
  · exact absurd (contentTypeField_own hct hf) (hown _)
  · obtain ⟨literal, -, hfield⟩ := trailingFields_own hf
    exact absurd hfield (hown literal)

theorem requestFields_read (h : requestFields req url auth drops = .ok fields) (hreadable : ∀ f ∈ fields, Readable req.body.bytes.length f) :
    FieldsRead req drops (fields.map fun f => (f.1, trimOws f.2)) := by
  have hdistinct := requestFields_distinct h
  have hcount : ∀ literal, (fields.map fun f => (f.1, trimOws f.2)).countP (nameIs ·.1 literal) = fields.countP (nameIs ·.1 literal) :=
    fun literal => countP_map
  refine ⟨pairwise_map.mpr hdistinct, ?_, ?_, ?_, ?_, ?_, ?_⟩
  · intro f' hf' g hkept hfind
    obtain ⟨f, hf, rfl⟩ := mem_map.mp hf'
    rw [requestFields_newest h hf hkept hfind]
  · intro g hg hkept
    obtain ⟨caller, contentType, -, -, hcaller, hct, rfl⟩ := requestFields_parts h
    obtain ⟨f, hf, hsame⟩ := (callerFields_spec hcaller).complete g hg hkept rfl
    exact ⟨(f.1, trimOws f.2), mem_map.mpr ⟨f, by simp [hf], rfl⟩, hsame⟩
  · rw [hcount]
    exact countP_nameIs hdistinct (requestFields_host h)
  · intro f' hf'
    obtain ⟨f, hf, rfl⟩ := mem_map.mp hf'
    exact (hreadable f hf).noTransferEncoding
  · intro hcarry
    refine ⟨?_, fun f' hf' hname => ?_⟩
    · rw [hcount]
      exact countP_nameIs hdistinct (requestFields_contentLength h hcarry)
    · obtain ⟨f, hf, rfl⟩ := mem_map.mp hf'
      exact (hreadable f hf).contentLength hname
  · intro hcarry f' hf'
    obtain ⟨f, hf, rfl⟩ := mem_map.mp hf'
    exact requestFields_noBody h hcarry f hf

theorem requestFields_hostIsValid (hurl : Parsed url) (h : requestFields req url auth drops = .ok fields) :
    HostIsValid req drops ↔ ∀ f ∈ fields, nameIs f.1 "host" = true → hostValueIsValid (trimOws f.2) = true := by
  obtain ⟨caller, contentType, -, -, hcaller, hct, hfields⟩ := requestFields_parts h
  have hspec := callerFields_spec hcaller
  have hsame : ∀ f : Field, nameIs f.1 "host" = true → (fun g : Field => asciiCaseEq g.1 f.1) = (nameIs ·.1 "host") := by
    intro f hname
    funext g
    simp only [nameIs, asciiCaseEq, asciiCaseEq_iff.mp hname]
  constructor
  · intro hvalid f hf hname
    rw [hfields] at hf
    simp only [mem_append] at hf
    rcases hf with ((hf | hf) | hf) | hf
    · rcases mem_leadingFields hf with rfl | rfl | rfl | ⟨a, -, rfl⟩
      · have hbytes := hurl.hostValue.2
        rw [trimOws_eq_self fun c hc => (validValue_of_hostByte (hbytes c hc)).2]
        exact hurl.hostValue.1
      all_goals
        dsimp only at hname
        exact absurd hname (by decide)
    · have hdrop : drops.host = false := by
        have hkept := hspec.kept f hf
        simp only [leftOff, hname, Bool.and_true, Bool.or_eq_false_iff] at hkept
        exact hkept.2
      have hnewest := hspec.newest f hf
      rw [hsame f hname] at hnewest
      exact hvalid hdrop f hnewest
    · obtain ⟨-, ct, -, rfl⟩ := mem_contentTypeField hct hf
      dsimp only at hname
      exact absurd hname (by decide)
    · obtain ⟨-, rfl | rfl⟩ := mem_trailingFields hf
      all_goals
        dsimp only at hname
        exact absurd hname (by decide)
  · intro hvalid hdrop f hfind
    have hname := List.find?_some hfind
    have hkept : leftOff req.method drops f.1 = false := by
      simp (disch := decide) [leftOff, hdrop, isBodyHeader, isRedirectCredentialHeader, nameIs_false hname]
    obtain ⟨g, hg, hgf⟩ := hspec.complete f (mem_of_find?_eq_some hfind) hkept rfl
    have hgname : nameIs g.1 "host" = true := (nameIs_congr hgf _).trans hname
    have hnewest := hspec.newest g hg
    rw [hsame g hgname, hfind] at hnewest
    cases hnewest
    exact hvalid f (by simp [hfields, hg]) hname

end Ccollections.Chttpclient
