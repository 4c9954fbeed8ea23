import Ccollections.Chttp1.Lemmas.Grammar
import Ccollections.Chttp1.Lemmas.Steps

/-!
# Lines in the input

What the parser does when its input begins with a whole line.
-/

namespace Ccollections.Chttp1

open List

/-! ## Texts -/

theorem takeWhile_until {a : UInt8} {s rest : List UInt8} (h : a ∉ s) : (s ++ a :: rest).takeWhile (· ≠ a) = s := by
  have hall : ∀ c ∈ s, decide (c ≠ a) = true := fun c hc => decide_eq_true fun heq => h (heq ▸ hc)
  rw [takeWhile_append_of_pos hall]
  simp

theorem drop_until {a : UInt8} {s rest : List UInt8} : (s ++ a :: rest).drop (s.length + 1) = rest := by
  rw [← drop_drop, drop_left]
  rfl

theorem trimOws_cons {c : UInt8} {s : List UInt8} (h : isOws c = true) : trimOws (c :: s) = trimOws s := by
  rw [trimOws, trimOws, dropWhile_cons_of_pos h]

theorem mem_of_mem_trimOws {c : UInt8} {s : List UInt8} (h : c ∈ trimOws s) : c ∈ s :=
  (dropWhile_suffix isOws).subset (( rdropWhile_prefix isOws _).subset h)

theorem trimOws_eq_self {s : List UInt8} (h : ∀ c ∈ s, isOws c = false) : trimOws s = s := by
  have hfront : s.dropWhile isOws = s := by
    cases s with
    | nil => rfl
    | cons c s => exact dropWhile_cons_of_neg (by simp [h c mem_cons_self])
  rw [trimOws, hfront, rdropWhile_eq_self_iff]
  intro hne
  simp [h _ (getLast_mem hne)]

namespace Parser

variable {S : Settings} {p : Parser} {content rest : List UInt8} {budget len : Nat}

/-! ## A line of the input -/

theorem accumulateLine_push (hspill : p.lineSpill = false) (hcontent : 0x0A ∉ content)
    (hlen : p.line.length + content.length ≤ chttp1MaxLineLen) :
    p.accumulateLine budget (content ++ rest) = accumulateLine { p with line := p.line ++ content } budget rest := by
  induction content generalizing p with
  | nil => simp
  | cons c content ih =>
    simp only [mem_cons, not_or, length_cons] at hcontent hlen
    have hroom : p.line.length < p.lineCap budget := by
      simp only [lineCap, hspill, Bool.false_eq_true, if_false]
      omega
    have hpush : p.pushByte budget c = (.needMore, { p with line := p.line ++ [c] }) := by
      rw [pushByte, if_pos hroom, appendByte, if_neg (Ne.symm hcontent.1)]
    rw [cons_append, accumulateLine, hpush]
    dsimp only
    rw [ih (p := { p with line := p.line ++ [c] }) hspill hcontent.2 (by simp only [length_append, length_singleton]; omega)]
    simp

theorem accumulateLine_crlf (hspill : p.lineSpill = false) (hline : p.line = []) (hcontent : 0x0A ∉ content)
    (hlen : content.length + 2 ≤ chttp1MaxLineLen) :
    p.accumulateLine budget (content ++ 0x0D :: 0x0A :: rest) = (.ready, { p with line := content }, rest) := by
  have hsplit : content ++ 0x0D :: 0x0A :: rest = (content ++ [0x0D]) ++ 0x0A :: rest := by simp
  rw [hsplit, accumulateLine_push hspill (by simpa using hcontent) (by simp [hline]; omega), hline, nil_append, accumulateLine]
  have hroom : (content ++ [0x0D]).length < lineCap { p with line := content ++ [0x0D] } budget := by
    simp only [lineCap, hspill, Bool.false_eq_true, if_false, length_append, length_singleton]
    omega
  have hpush : pushByte { p with line := content ++ [0x0D] } budget 0x0A = (.ready, { p with line := content }) := by
    rw [pushByte, if_pos hroom, appendByte]
    simp
  rw [hpush]

theorem step_line (hstate : p.state = .firstLine ∨ p.state = .headers) (hspill : p.lineSpill = false) (hline : p.line = [])
    (hcontent : 0x0A ∉ content) (hlen : content.length + 2 ≤ chttp1MaxLineLen) :
    step S len (p, content ++ 0x0D :: 0x0A :: rest) = lineReady S { p with line := content } rest (len - rest.length) := by
  obtain ⟨c, data, hdata⟩ : ∃ c data, content ++ 0x0D :: 0x0A :: rest = c :: data :=
    exists_cons_of_ne_nil (by simp)
  have hstep : step S len (p, c :: data) = p.lineStep S len (c :: data) := by
    rcases hstate with hstate | hstate
    · simp only [step, hstate]
    · simp only [step, hstate]
  rw [hdata, hstep, ← hdata, lineStep, accumulateLine_crlf hspill hline hcontent hlen]

/-! ## The request line -/

theorem parseHttpVersion_11 : p.parseHttpVersion (ascii "HTTP/1.1") = (true, { p with httpMajor := 1, httpMinor := 1 }) := rfl

theorem parseRequestLine_ok {method target : List UInt8} (hmethod : method ≠ []) (htchars : method.all chttp1IsTchar = true)
    (htarget : target ≠ []) (hbytes : ∀ c ∈ target, isInvalidTargetByte c = false)
    (hline : p.line = method ++ 0x20 :: target ++ ascii " HTTP/1.1")
    (hcall : S.callback p.log (.requestLine method target 1 1) = 0) :
    p.parseRequestLine S = (.ok, { p with
      httpMajor := 1
      httpMinor := 1
      log := p.log ++ [⟨.requestLine method target 1 1, 0⟩] }) := by
  have hversion : ascii " HTTP/1.1" = 0x20 :: ascii "HTTP/1.1" := rfl
  have hspace : 0x20 ∉ method := by
    intro hmem
    have htchar := all_eq_true.mp htchars _ hmem
    revert htchar
    decide
  have hspace' : 0x20 ∉ target := by
    intro hmem
    have hvalid := hbytes _ hmem
    revert hvalid
    decide
  have hwhole : p.line = method ++ 0x20 :: (target ++ 0x20 :: ascii "HTTP/1.1") := by
    rw [hline, hversion, append_assoc, cons_append]
  have htake : p.line.takeWhile (· ≠ 0x20) = method := by rw [hwhole, takeWhile_until hspace]
  have hrest : p.line.drop (method.length + 1) = target ++ 0x20 :: ascii "HTTP/1.1" := by rw [hwhole, drop_until]
  have hlen : method.length < p.line.length := by
    rw [hwhole, length_append, length_cons]
    omega
  have hinvalid : target.any isInvalidTargetByte = false := by
    rw [any_eq_false]
    intro c hc
    simp [hbytes c hc]
  have htarget' : (target ++ 0x20 :: ascii "HTTP/1.1").takeWhile (· ≠ 0x20) = target := takeWhile_until hspace'
  have hdrop : (target ++ 0x20 :: ascii "HTTP/1.1").drop (target.length + 1) = ascii "HTTP/1.1" := drop_until
  have hshort : ¬target.length ≥ (target ++ 0x20 :: ascii "HTTP/1.1").length := by simp
  simp only [parseRequestLine, htake, hrest, htarget', hdrop, hmethod, htarget, Nat.not_le.mpr hlen, hshort, htchars, hinvalid,
    parseHttpVersion_11, decide_false, Bool.or_false, Bool.false_eq_true, if_false, Bool.not_true, call, hcall, if_true]
  rfl

theorem firstLineReady_ok {method target : List UInt8} (htype : p.type = .request) (hmethod : method ≠ [])
    (htchars : method.all chttp1IsTchar = true) (htarget : target ≠ []) (hbytes : ∀ c ∈ target, isInvalidTargetByte c = false)
    (hline : p.line = method ++ 0x20 :: target ++ ascii " HTTP/1.1")
    (htotal : sizeAdd p.totalHeaderBytes (p.line.length + 2) ≤ p.effectiveMaxTotalHeaderBytes)
    (hcall : S.callback p.log (.requestLine method target 1 1) = 0) :
    p.firstLineReady S rest = .inl ({ p with
      totalHeaderBytes := sizeAdd p.totalHeaderBytes (p.line.length + 2)
      httpMajor := 1
      httpMinor := 1
      log := p.log ++ [⟨.requestLine method target 1 1, 0⟩]
      line := []
      finishState := .finishUnsafe
      state := .headers }, rest) := by
  have hne : p.line ≠ [] := by simp [hline, hmethod]
  have hparse := parseRequestLine_ok (S := S) (p := { p with totalHeaderBytes := sizeAdd p.totalHeaderBytes (p.line.length + 2) })
    hmethod htchars htarget hbytes hline hcall
  rw [firstLineReady, if_neg (by simp [hne]), if_neg (Nat.not_lt.mpr htotal), parseFirstLine]
  simp only [hparse]
  rw [htype]

/-! ## Header lines -/

theorem headerNameIs_eq (name : List UInt8) (literal : String) : headerNameIs name literal = asciiCaseEq name (ascii literal) := by
  by_cases h : asciiCaseEq name (ascii literal) = true
  · have hlen := congrArg List.length (of_decide_eq_true h)
    rw [length_map, length_map] at hlen
    simp [headerNameIs, h, hlen]
  · simp [headerNameIs, h]

theorem splitHeader_ok {name value : List UInt8} (hname : name ≠ []) (htchars : name.all chttp1IsTchar = true)
    (hvalue : ∀ c ∈ value, isInvalidValueByte c = false) :
    splitHeader (name ++ ascii ": " ++ value) = .ok (name, trimOws value) := by
  have hcolon : 0x3A ∉ name := by
    intro hmem
    have htchar := all_eq_true.mp htchars _ hmem
    revert htchar
    decide
  have hwhole : name ++ ascii ": " ++ value = name ++ 0x3A :: 0x20 :: value := by
    rw [append_assoc]
    rfl
  have hlen : ¬name.length ≥ (name ++ 0x3A :: 0x20 :: value).length := by
    rw [length_append, length_cons]
    omega
  have hinvalid : (trimOws value).any isInvalidValueByte = false := by
    rw [any_eq_false]
    intro c hc
    simp [hvalue c (mem_of_mem_trimOws hc)]
  rw [hwhole]
  simp only [splitHeader, takeWhile_until hcolon, drop_until, hlen, hname, htchars, trimOws_cons (show isOws 0x20 = true from rfl),
    hinvalid, decide_false, Bool.or_false, Bool.false_eq_true, if_false, Bool.not_true]

theorem lineReady_firstLine {consumed : Nat} (hstate : p.state = .firstLine) : p.lineReady S rest consumed = p.firstLineReady S rest := by
  simp only [lineReady, hstate]

theorem lineReady_header {consumed : Nat} (hstate : p.state = .headers) (hline : p.line ≠ []) :
    p.lineReady S rest consumed = p.headerReady S false rest := by
  simp only [lineReady, hstate, hline, if_false]

theorem lineReady_headersEnd {consumed : Nat} (hstate : p.state = .headers) (hline : p.line = []) :
    p.lineReady S rest consumed = p.headersEnd S rest consumed := by
  simp only [lineReady, hstate, hline, if_true]

variable {p' : Parser} {name value : List UInt8}

theorem headerReady_ok (hcount : sizeAdd p.headerCount 1 ≤ p.effectiveMaxHeaderCount)
    (htotal : sizeAdd p.totalHeaderBytes (p.line.length + 2) ≤ p.effectiveMaxTotalHeaderBytes)
    (hsplit : splitHeader p.line = .ok (name, value)) (hinterpret : p.interpretHeader name value = (none, p'))
    (hboth : (p'.flags.contentLength && p'.flags.chunked) = false) (hcall : S.callback p'.log (.header name value) = 0) :
    p.headerReady S false rest = .inl ({ p' with
      log := p'.log ++ [⟨.header name value, 0⟩]
      headerCount := sizeAdd p'.headerCount 1
      totalHeaderBytes := sizeAdd p'.totalHeaderBytes (p.line.length + 2)
      line := [] }, rest) := by
  simp only [headerReady, processHeaderLine, Nat.not_lt.mpr hcount, Nat.not_lt.mpr htotal, if_false, hsplit, Bool.false_eq_true,
    hinterpret, hboth, reportHeader, call, hcall, if_true, countHeader]

theorem headerReady_refused {reason : String} (hcount : sizeAdd p.headerCount 1 ≤ p.effectiveMaxHeaderCount)
    (htotal : sizeAdd p.totalHeaderBytes (p.line.length + 2) ≤ p.effectiveMaxTotalHeaderBytes)
    (hsplit : splitHeader p.line = .ok (name, value)) (hinterpret : p.interpretHeader name value = (some reason, p')) :
    p.headerReady S false rest = .inr (p'.invalid reason).failAlreadySet := by
  simp only [headerReady, processHeaderLine, Nat.not_lt.mpr hcount, Nat.not_lt.mpr htotal, if_false, hsplit, Bool.false_eq_true,
    hinterpret]

/-! ## The end of a request -/

variable {consumed : Nat}

theorem headersEnd_request (hdefect : p.requestDefect = none)
    (hcall : S.callback p.log (.headersComplete p.statusCode p.httpMajor p.httpMinor) = 0) :
    p.headersEnd S rest consumed = enterBody S { p with
      flags := { p.flags with headersDone := true }
      log := p.log ++ [⟨.headersComplete p.statusCode p.httpMajor p.httpMinor, 0⟩] } 0 rest consumed := by
  simp [headersEnd, hdefect, reportHeaders, call, hcall, headersAnswered]

theorem completeMessage_ok (hcall : S.callback p.log .messageComplete = 0) :
    p.completeMessage S consumed =
      (.paused, { p with log := p.log ++ [⟨.messageComplete, 0⟩], consumed := consumed, state := .messageDone }) := by
  simp [completeMessage, call, hcall]

theorem noBody_request (htype : p.type = .request) : p.noBody 0 = false := by
  simp [noBody, htype, headersNoBody]

theorem enterBody_empty (htype : p.type = .request) (hcoding : p.flags.transferEncoding = false) (hchunked : p.flags.chunked = false)
    (hlength : p.flags.contentLength = true → p.contentLength = 0) (hcall : S.callback p.log .messageComplete = 0) :
    p.enterBody S 0 rest consumed = .inr (.paused, { p with
      finishState := .finishSafe
      log := p.log ++ [⟨.messageComplete, 0⟩]
      consumed := consumed
      state := .messageDone }) := by
  have hbody := noBody_request htype
  rw [enterBody, if_neg (by simp [hcoding]), if_neg (by simp [hbody]), if_neg (by simp [hchunked])]
  split
  · rename_i hflag
    rw [if_pos (hlength hflag), completeMessage_ok (p := { p with finishState := .finishSafe }) hcall]
  · rw [completeMessage_ok (p := { p with finishState := .finishSafe }) hcall]

theorem enterBody_counted (htype : p.type = .request) (hcoding : p.flags.transferEncoding = false) (hchunked : p.flags.chunked = false)
    (hflag : p.flags.contentLength = true) (hlength : p.contentLength ≠ 0) :
    p.enterBody S 0 rest consumed = .inl ({ p with state := .bodyContentLength, finishState := .finishUnsafe }, rest) := by
  have hbody := noBody_request htype
  rw [enterBody, if_neg (by simp [hcoding]), if_neg (by simp [hbody]), if_neg (by simp [hchunked]), if_pos hflag, if_neg hlength]
  simp [wantDivert, headersDivertBody]

theorem step_body {n : Nat} {body : List UInt8} (hstate : p.state = .bodyContentLength) (hbody : body ≠ []) (hlength : p.contentLength = body.length)
    (hcall : S.callback p.log (.body body) = 0) (hdone : S.callback (p.log ++ [⟨.body body, 0⟩]) .messageComplete = 0) :
    step S n (p, body) = .inr (.paused, { p with
      contentLength := 0
      finishState := .finishSafe
      log := p.log ++ [⟨.body body, 0⟩] ++ [⟨.messageComplete, 0⟩]
      consumed := n
      state := .messageDone }) := by
  obtain ⟨c, data, rfl⟩ := exists_cons_of_ne_nil hbody
  have hcounted : step S n (p, c :: data) = p.countedStep S n (c :: data) := by simp only [step, hstate]
  have hpos : 0 < (c :: data).length := by simp
  have htaken : p.takeBody S (c :: data) = .inl { p with log := p.log ++ [⟨.body (c :: data), 0⟩] } := by simp [takeBody, call, hcall]
  rw [hcounted, countedStep]
  simp only [hlength, Nat.min_self, hpos, if_true, take_length, drop_length, htaken, Nat.sub_self]
  rw [countedEnd, if_pos rfl, if_neg (by simp [hstate]), completeMessage_ok]
  · rfl
  · exact hdone

end Parser

end Ccollections.Chttp1

/-!
# The first line and its grammar
-/

namespace Ccollections.Chttp1.Parser
open Lib Computability Grammar List

variable {S : Settings} {p : Parser} {s rest version : List UInt8} {major minor : Nat}

/-! ## The version -/

theorem parseHttpVersion_append (h : HttpVersion version major minor) (rest : List UInt8) :
    p.parseHttpVersion (version ++ rest) = (true, { p with httpMajor := major, httpMinor := minor }) := by
  cases h with
  | mk hmajor hminor =>
    rw [show ascii "HTTP/" = [0x48, 0x54, 0x54, 0x50, 0x2F] from rfl]
    simp [parseHttpVersion, hmajor, hminor, show ascii "HTTP/" = [0x48, 0x54, 0x54, 0x50, 0x2F] from rfl]

theorem httpVersion_of_parse (h : (p.parseHttpVersion s).1 = true) :
    ∃ version rest major minor, s = version ++ rest ∧ HttpVersion version major minor := by
  simp only [parseHttpVersion] at h
  split at h
  · cases h
  · rename_i hprefix
    split at h
    · cases h
    · rename_i hmajor
      split at h
      · cases h
      · rename_i hminor
        simp only [Bool.or_eq_true, decide_eq_true_eq, not_or, not_lt, ne_eq, not_not] at hprefix
        simp only [Bool.not_eq_true', Bool.not_eq_false] at hmajor
        simp only [Bool.or_eq_true, decide_eq_true_eq, Bool.not_eq_true', not_or, ne_eq, not_not, Bool.not_eq_false] at hminor
        obtain ⟨hlen, htake⟩ := hprefix
        obtain ⟨a, b, c, rest, hdrop⟩ : ∃ a b c rest, s.drop 5 = a :: b :: c :: rest := by
          have hcount : 3 ≤ (s.drop 5).length := by
            rw [length_drop]
            omega
          generalize s.drop 5 = l at hcount ⊢
          rcases l with - | ⟨a, - | ⟨b, - | ⟨c, rest⟩⟩⟩
          iterate 3 simp at hcount
          exact ⟨a, b, c, rest, rfl⟩
        have hsplit : s = ascii "HTTP/" ++ a :: b :: c :: rest := by
          rw [← htake, ← hdrop, take_append_drop]
        have hhead : ascii "HTTP/" = [0x48, 0x54, 0x54, 0x50, 0x2F] := rfl
        rw [hsplit, hhead] at hmajor hminor
        refine ⟨ascii "HTTP/" ++ [a, 0x2E, c], rest, _, _, ?_, .mk hmajor hminor.2⟩
        have hdot : b = 0x2E := hminor.1
        rw [hsplit, hdot]
        rfl

theorem HttpVersion.length_eq (h : HttpVersion version major minor) : version.length = 8 := by
  cases h
  rfl

/-! ## The status line -/

theorem mem_phrase : s ∈ 1 + text [0x20] * (chars isTextChar)∗ ↔
    s = [] ∨ ∃ phrase, s = 0x20 :: phrase ∧ phrase.any isInvalidValueByte = false := by
  rw [Language.mem_add, Language.mem_one, mem_text_mul]
  simp only [mem_chars_kstar, singleton_append, any_eq_false, isTextChar_eq, Bool.not_eq_true', Bool.not_eq_true]

theorem parseStatus_digits {a b c : UInt8} {phrase : List UInt8} (ha : isDigit a = true) (hb : isDigit b = true)
    (hc : isDigit c = true) (hphrase : phrase ∈ 1 + text [0x20] * (chars isTextChar)∗) :
    p.parseStatus (0x20 :: a :: b :: c :: phrase) =
      (true, { p with statusCode := (a.toNat - 0x30) * 100 + (b.toNat - 0x30) * 10 + (c.toNat - 0x30) }) := by
  rcases mem_phrase.mp hphrase with rfl | ⟨phrase, rfl, hvalid⟩
  · simp [parseStatus, ha, hb, hc]
  · simp [parseStatus, ha, hb, hc, hvalid]

theorem digits_of_parseStatus (h : (p.parseStatus s).1 = true) :
    ∃ a b c phrase, s = 0x20 :: a :: b :: c :: phrase ∧ isDigit a = true ∧ isDigit b = true ∧ isDigit c = true ∧
      phrase ∈ 1 + text [0x20] * (chars isTextChar)∗ := by
  cases s with
  | nil => cases h
  | cons c₀ s =>
    simp only [parseStatus] at h
    split at h
    · cases h
    · rename_i hspace
      rw [ne_eq, not_not] at hspace
      split at h
      · cases h
      · rename_i hdigits
        simp only [Bool.or_eq_true, decide_eq_true_eq, Bool.not_eq_true', not_or, not_lt, Bool.not_eq_false] at hdigits
        rcases s with - | ⟨a, - | ⟨b, - | ⟨c, phrase⟩⟩⟩
        iterate 3 simp at hdigits
        simp only [take_succ_cons, take_zero, all_cons, all_nil, Bool.and_true, Bool.and_eq_true] at hdigits
        refine ⟨a, b, c, phrase, by rw [hspace], hdigits.2.1, hdigits.2.2.1, hdigits.2.2.2, mem_phrase.mpr ?_⟩
        cases phrase with
        | nil => exact .inl rfl
        | cons d phrase =>
          simp only [drop_succ_cons, drop_zero] at h
          split at h
          · cases h
          · rename_i hd
            split at h
            · cases h
            · rename_i hvalid
              rw [ne_eq, not_not] at hd
              exact .inr ⟨phrase, by rw [hd], Bool.not_eq_true _ ▸ hvalid⟩

theorem parseStatusLine_of {status : Nat} (h : StatusLine p.line major minor status) :
    p.parseStatusLine = (true, { p with httpMajor := major, httpMinor := minor, statusCode := status }) := by
  generalize hline : p.line = line at h
  cases h with
  | mk hversion ha hb hc hphrase =>
    rw [parseStatusLine, hline, parseHttpVersion_append hversion]
    show Parser.parseStatus _ (p.line.drop 8) = _
    rw [hline, ← HttpVersion.length_eq hversion, drop_left]
    exact parseStatus_digits ha hb hc hphrase

theorem statusLine_of_parse (h : p.parseStatusLine.1 = true) : ∃ major minor status, StatusLine p.line major minor status := by
  have hversion : (p.parseHttpVersion p.line).1 = true := by
    rw [parseStatusLine] at h
    split at h
    · cases h
    · rename_i heq
      rw [heq]
  obtain ⟨version, rest, major, minor, hline, hversion⟩ := httpVersion_of_parse hversion
  rw [parseStatusLine, hline, parseHttpVersion_append hversion] at h
  have hstatus : (Parser.parseStatus { p with httpMajor := major, httpMinor := minor } rest).1 = true := by
    have hdrop : p.line.drop 8 = rest := by rw [hline, ← HttpVersion.length_eq hversion, drop_left]
    rw [← hdrop]
    exact h
  obtain ⟨a, b, c, phrase, rfl, ha, hb, hc, hphrase⟩ := digits_of_parseStatus hstatus
  rw [hline]
  exact ⟨major, minor, _, .mk hversion ha hb hc hphrase⟩

/-! ## The request line -/

theorem not_space_of_token {method : List UInt8} (h : ∀ c ∈ method, chttp1IsTchar c = true) : 0x20 ∉ method := by
  intro hmem
  have htchar := h _ hmem
  revert htchar
  decide

theorem not_space_of_target {target : List UInt8} (h : ∀ c ∈ target, isTargetChar c = true) : 0x20 ∉ target := by
  intro hmem
  have hvalid := h _ hmem
  revert hvalid
  decide

theorem mem_run {q : UInt8 → Bool} : s ∈ chars q * (chars q)∗ ↔ s ≠ [] ∧ ∀ c ∈ s, q c = true := by
  rw [mem_chars_mul]
  simp only [mem_chars_kstar]
  constructor
  · rintro ⟨c, r, rfl, hc, hr⟩
    exact ⟨cons_ne_nil c r, forall_mem_cons.mpr ⟨hc, hr⟩⟩
  · rintro ⟨hne, h⟩
    cases s with
    | nil => exact absurd rfl hne
    | cons c r => exact ⟨c, r, rfl, forall_mem_cons.mp h⟩

theorem parseRequestLine_of {method target : List UInt8} (h : RequestLine p.line method target major minor) :
    p.parseRequestLine S =
      let called := Parser.call S { p with httpMajor := major, httpMinor := minor } (.requestLine method target major minor)
      (if called.1 = 0 then .ok else .user, called.2) := by
  generalize hline : p.line = line at h
  cases h with
  | @mk _ _ version _ _ hmethod htarget hversion =>
    rw [token, mem_run] at hmethod
    rw [mem_run] at htarget
    obtain ⟨hmethod, htchars⟩ := hmethod
    obtain ⟨htarget, hbytes⟩ := htarget
    have htake : p.line.takeWhile (· ≠ 0x20) = method := by rw [hline, takeWhile_until (not_space_of_token htchars)]
    have hrest : p.line.drop (method.length + 1) = target ++ 0x20 :: version := by rw [hline, drop_until]
    have hlen : ¬method.length ≥ p.line.length := by
      rw [hline]
      simp
    have htarget' : (target ++ 0x20 :: version).takeWhile (· ≠ 0x20) = target := takeWhile_until (not_space_of_target hbytes)
    have hdrop : (target ++ 0x20 :: version).drop (target.length + 1) = version := drop_until
    have hshort : ¬target.length ≥ (target ++ 0x20 :: version).length := by simp
    have hinvalid : target.any isInvalidTargetByte = false := by
      rw [any_eq_false]
      intro c hc
      have hvalid := hbytes c hc
      rw [isTargetChar_eq, Bool.not_eq_true'] at hvalid
      rw [hvalid]
      exact Bool.false_ne_true
    have hparsed := parseHttpVersion_append (p := p) hversion []
    rw [append_nil] at hparsed
    simp only [parseRequestLine, htake, hrest, htarget', hdrop, hmethod, htarget, hlen, hshort, all_eq_true.mpr htchars,
      hinvalid, hparsed, HttpVersion.length_eq hversion, decide_false, Bool.or_false, Bool.false_eq_true, if_false, Bool.not_true,
      ne_eq, not_true_eq_false]
    rw [hline]

theorem eq_until {a : UInt8} (h : (s.takeWhile (· ≠ a)).length < s.length) :
    s = s.takeWhile (· ≠ a) ++ a :: s.drop ((s.takeWhile (· ≠ a)).length + 1) := by
  obtain ⟨run, hsplit, hrun, hhead⟩ := run_split (fun c : UInt8 => decide (c ≠ a)) s
  have htake : s.takeWhile (· ≠ a) = run := by
    conv_lhs => rw [hsplit]
    exact takeWhile_run hrun hhead
  rw [htake] at h ⊢
  cases hdrop : s.dropWhile (fun c => decide (c ≠ a)) with
  | nil =>
    rw [hdrop, append_nil] at hsplit
    rw [hsplit] at h
    exact absurd h (Nat.lt_irrefl _)
  | cons c rest =>
    rw [hdrop] at hsplit hhead
    have hc : c = a := by simpa using hhead c rfl
    rw [hsplit, hc, drop_until]

theorem requestLine_of_parse (h : (p.parseRequestLine S).1 ≠ .error) :
    ∃ method target major minor, RequestLine p.line method target major minor := by
  simp only [parseRequestLine] at h
  split at h
  · exact absurd rfl h
  · rename_i hmethod
    simp only [Bool.or_eq_true, decide_eq_true_eq, not_or, ge_iff_le, not_le] at hmethod
    split at h
    · exact absurd rfl h
    · rename_i htchars
      rw [Bool.not_eq_true', Bool.not_eq_false, all_eq_true] at htchars
      have hline := eq_until hmethod.2
      generalize p.line.takeWhile (· ≠ 0x20) = method at *
      generalize p.line.drop (method.length + 1) = rest at *
      split at h
      · exact absurd rfl h
      · rename_i htarget
        simp only [Bool.or_eq_true, decide_eq_true_eq, not_or, ge_iff_le, not_le] at htarget
        split at h
        · exact absurd rfl h
        · rename_i hbytes
          have hrest := eq_until htarget.2
          generalize rest.takeWhile (· ≠ 0x20) = target at *
          generalize rest.drop (target.length + 1) = version at *
          have hok : (p.parseHttpVersion version).1 = true ∧ version.length = 8 := by
            split at h
            · exact absurd rfl h
            · rename_i heq
              split at h
              · exact absurd rfl h
              · rename_i hlen
                exact ⟨congrArg Prod.fst heq, not_not.mp hlen⟩
          obtain ⟨version', tail, major, minor, hsplit, hversion⟩ := httpVersion_of_parse hok.1
          have htail : tail = [] := by
            have hlen := congrArg List.length hsplit
            rw [length_append, HttpVersion.length_eq hversion, hok.2] at hlen
            exact length_eq_zero_iff.mp (by omega)
          rw [htail, append_nil] at hsplit
          rw [hline, hrest, hsplit]
          refine ⟨method, target, major, minor, .mk (mem_run.mpr ⟨hmethod.1, htchars⟩) (mem_run.mpr ⟨htarget.1, ?_⟩) hversion⟩
          intro c hc
          rw [isTargetChar_eq, Bool.not_eq_true']
          exact Bool.eq_false_iff.mpr fun hinvalid => hbytes (any_eq_true.mpr ⟨c, hc, hinvalid⟩)

end Ccollections.Chttp1.Parser
