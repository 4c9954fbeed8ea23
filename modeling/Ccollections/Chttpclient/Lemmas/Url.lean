import Ccollections.Chttpclient.Redirect

/-!
# What a parsed URL is

Two URLs have the same origin key exactly when their origins are the same.
-/

namespace Ccollections.Chttpclient
open Chttp1 List

variable {host : List UInt8} {https isIpv6 : Bool} {u : ChttpUrl}

/-! ## Results -/

theorem except_bind_ok {α β ε : Type} {x : Except ε α} {f : α → Except ε β} {b : β} (h : (x >>= f) = .ok b) :
    ∃ a, x = .ok a ∧ f a = .ok b := by
  cases x with
  | error e => cases h
  | ok a => exact ⟨a, rfl, h⟩

theorem except_map_ok {α β ε : Type} {x : Except ε α} {f : α → β} {b : β} (h : x.map f = .ok b) : ∃ a, x = .ok a ∧ f a = b := by
  cases x with
  | error e => cases h
  | ok a =>
    cases h
    exact ⟨a, rfl, rfl⟩

/-! ## Visible bytes -/

theorem isAlpha_visible {c : UInt8} (h : isAlpha c = true) : 0x21 ≤ c ∧ c ≤ 0x7E := by
  simp only [isAlpha, Bool.or_eq_true, Bool.and_eq_true, decide_eq_true_eq] at h
  grind

theorem isDigit_visible {c : UInt8} (h : isDigit c = true) : 0x21 ≤ c ∧ c ≤ 0x7E := by
  simp only [isDigit, Bool.and_eq_true, decide_eq_true_eq] at h
  grind

theorem isTargetLiteralByte_visible {c : UInt8} (h : isTargetLiteralByte c = true) : 0x21 ≤ c ∧ c ≤ 0x7E := by
  have hmarks : (ascii "-._~!$&'()*+,;=:@/?").all (fun c => 0x21 ≤ c && c ≤ 0x7E) = true := rfl
  rw [isTargetLiteralByte, Bool.or_eq_true, Bool.or_eq_true, contains_iff_mem] at h
  obtain (halpha | hdigit) | hmem := h
  · exact isAlpha_visible halpha
  · exact isDigit_visible hdigit
  · simpa using all_eq_true.mp hmarks c hmem

theorem uriHexdig_visible {c : UInt8} (h : uriHexdig c = true) : 0x21 ≤ c ∧ c ≤ 0x7E := by
  simp only [uriHexdig, Bool.or_eq_true, Bool.and_eq_true, decide_eq_true_eq] at h
  obtain (hdigit | hlower) | hupper := h
  · exact isDigit_visible hdigit
  · grind
  · grind

theorem uriHexdig_hexUpper {n : Nat} (h : n < 16) : uriHexdig (hexUpper n) = true := by
  have hall : ∀ n : Fin 16, uriHexdig (hexUpper n.val) = true := by decide
  exact hall ⟨n, h⟩

/-! ## Lower case -/

theorem ccolAsciiTolower_idem (c : UInt8) : ccolAsciiTolower (ccolAsciiTolower c) = ccolAsciiTolower c := by
  simp only [ccolAsciiTolower, ge_iff_le, Bool.and_eq_true, decide_eq_true_eq, UInt8.le_iff_toNat_le]
  split
  · rename_i h
    have hadd : (c + 0x20).toNat = c.toNat + 0x20 := by
      rw [UInt8.toNat_add]
      simp at h ⊢
      omega
    rw [if_neg]
    rw [hadd]
    simp at h ⊢
    omega
  · rfl

theorem map_tolower_idem (s : List UInt8) : (s.map ccolAsciiTolower).map ccolAsciiTolower = s.map ccolAsciiTolower := by
  rw [map_map]
  exact map_congr_left fun c _ => ccolAsciiTolower_idem c

theorem asciiCaseEq_iff {a b : List UInt8} : asciiCaseEq a b = true ↔ a.map ccolAsciiTolower = b.map ccolAsciiTolower := by
  simp [asciiCaseEq]

theorem asciiCaseEq_refl (a : List UInt8) : asciiCaseEq a a = true := asciiCaseEq_iff.mpr rfl

theorem asciiCaseEq_symm {a b : List UInt8} (h : asciiCaseEq a b = true) : asciiCaseEq b a = true :=
  asciiCaseEq_iff.mpr (asciiCaseEq_iff.mp h).symm

theorem asciiCaseEq_trans {a b c : List UInt8} (h : asciiCaseEq a b = true) (h' : asciiCaseEq b c = true) :
    asciiCaseEq a c = true :=
  asciiCaseEq_iff.mpr ((asciiCaseEq_iff.mp h).trans (asciiCaseEq_iff.mp h'))

/-! ## Decimal numbers -/

theorem isDigit_toDigits {n : Nat} {c : Char} (h : c ∈ Nat.toDigits 10 n) : 0x30 ≤ c.toNat ∧ c.toNat ≤ 0x39 := by
  have hc := Nat.isDigit_of_mem_toDigits (by decide) (by decide) h
  simpa [Char.isDigit, UInt32.le_iff_toNat_le] using hc

theorem toNat_digit {n : Nat} {c : Char} (h : c ∈ Nat.toDigits 10 n) : c.toNat.toUInt8.toNat = c.toNat := by
  have hc := isDigit_toDigits h
  simp only [Nat.toUInt8, UInt8.toNat_ofNat']
  omega

theorem decimal_isDigit {n : Nat} {c : UInt8} (h : c ∈ decimal n) : isDigit c = true := by
  obtain ⟨d, hd, rfl⟩ := mem_map.mp h
  simp only [isDigit, ge_iff_le, Bool.and_eq_true, decide_eq_true_eq, UInt8.le_iff_toNat_le, toNat_digit hd]
  exact isDigit_toDigits hd

def digitsValue (s : List UInt8) : Nat := s.foldl (fun v d => v * 10 + (d.toNat - 0x30)) 0

theorem digitsValue_decimal (n : Nat) : digitsValue (decimal n) = n := by
  have hdigits : digitsValue (decimal n) = Nat.ofDigitChars 10 (Nat.toDigits 10 n) 0 := by
    rw [digitsValue, decimal, foldl_map]
    refine foldl_ext _ _ _ fun v c hc => ?_
    rw [toNat_digit hc, Nat.mul_comm]
    rfl
  rw [hdigits, Nat.ofDigitChars_ten_toDigits]

theorem decimal_injective : Function.Injective decimal := by
  intro n m h
  rw [← digitsValue_decimal n, h, digitsValue_decimal]

theorem decimal_ne_nil (n : Nat) : decimal n ≠ [] := by
  simp [decimal, Nat.toDigits_ne_nil]

theorem colon_not_mem_decimal (n : Nat) : 0x3A ∉ decimal n := by
  intro h
  have hdigit := decimal_isDigit h
  revert hdigit
  decide

theorem map_tolower_decimal (n : Nat) : (decimal n).map ccolAsciiTolower = decimal n := by
  refine (map_congr_left fun c hc => ?_).trans (map_id _)
  have hdigit := decimal_isDigit hc
  simp only [isDigit, ge_iff_le, Bool.and_eq_true, decide_eq_true_eq, UInt8.le_iff_toNat_le] at hdigit
  simp only [ccolAsciiTolower, ge_iff_le, Bool.and_eq_true, decide_eq_true_eq, UInt8.le_iff_toNat_le, id_eq]
  rw [if_neg]
  simp at hdigit ⊢
  omega

/-! ## Parsing -/

inductive Parsed : ChttpUrl → Prop
  | network {https isIpv6 : Bool} {host q target : List UInt8} {port : Nat} {auth : Option (List UInt8)}
      (hhost : (if isIpv6 then uriIpLiteralIsValid host else uriRegNameIsValid host) = true)
      (htarget : requestTarget q = .ok target)
      (hauth : ∀ a, auth = some a → ∃ userinfo, userinfoAuthorization userinfo = .ok a) :
      Parsed {
        isHttps := https
        isIpv6 := isIpv6
        isUnix := false
        unixSocketPath := []
        host := host
        port := port
        pathAndQuery := target
        originKey := originKeyOf https isIpv6 host port
        userinfoAuthorization := auth }
  | unix {path q target : List UInt8} (htarget : requestTarget q = .ok target) :
      Parsed {
        isHttps := false
        isIpv6 := false
        isUnix := true
        unixSocketPath := path
        host := []
        port := 0
        pathAndQuery := target
        originKey := ascii "unix://" ++ path
        userinfoAuthorization := none }

theorem splitHost_valid {s authority host q : List UInt8} {isIpv6 : Bool} (h : splitHost s authority = .ok (isIpv6, host, q)) :
    (if isIpv6 then uriIpLiteralIsValid host else uriRegNameIsValid host) = true := by
  simp only [splitHost] at h
  split at h
  · split at h
    · cases h
    · split at h
      · cases h
      · split at h
        · rename_i hvalid
          cases h
          exact hvalid
        · cases h
  · split at h
    · rename_i hvalid
      cases h
      exact hvalid
    · cases h

theorem urlAuthorization_ok {userinfo : Option (List UInt8)} {a : List UInt8} (h : urlAuthorization userinfo = .ok (some a)) :
    ∃ userinfo, userinfoAuthorization userinfo = .ok a := by
  cases userinfo with
  | none => cases h
  | some userinfo =>
    obtain ⟨a', ha', heq⟩ := except_map_ok h
    cases heq
    exact ⟨userinfo, ha'⟩

theorem parsed_network {https : Bool} {p : List UInt8} (h : parseNetworkUrl https p = .ok u) : Parsed u := by
  rw [parseNetworkUrl] at h
  obtain ⟨auth, hauth, h⟩ := except_bind_ok h
  obtain ⟨⟨isIpv6, host, q⟩, hhost, h⟩ := except_bind_ok h
  obtain ⟨⟨port, q'⟩, hport, h⟩ := except_bind_ok h
  obtain ⟨target, htarget, h⟩ := except_bind_ok h
  cases h
  refine .network (splitHost_valid hhost) htarget fun a ha => ?_
  subst ha
  exact urlAuthorization_ok hauth

theorem parsed_unix {p : List UInt8} (h : parseChttpUnixUrl p = .ok u) : Parsed u := by
  simp only [parseChttpUnixUrl] at h
  split at h
  · cases h
  · obtain ⟨path, hpath, h⟩ := except_bind_ok h
    obtain ⟨target, htarget, h⟩ := except_bind_ok h
    cases h
    exact .unix htarget

theorem parsed_of {url : List UInt8} (h : parseChttpUrl url = .ok u) : Parsed u := by
  simp only [parseChttpUrl] at h
  split at h
  · exact parsed_unix h
  · split at h
    · exact parsed_network h
    · split at h
      · exact parsed_network h
      · cases h

theorem isUnix_network {https : Bool} {p : List UInt8} (h : parseNetworkUrl https p = .ok u) : u.isUnix = false := by
  rw [parseNetworkUrl] at h
  obtain ⟨auth, hauth, h⟩ := except_bind_ok h
  obtain ⟨⟨isIpv6, host, q⟩, hhost, h⟩ := except_bind_ok h
  obtain ⟨⟨port, q'⟩, hport, h⟩ := except_bind_ok h
  obtain ⟨target, htarget, h⟩ := except_bind_ok h
  cases h
  rfl

theorem startsWithCase_of_isUnix {url : List UInt8} (h : parseChttpUrl url = .ok u) (hunix : u.isUnix = true) :
    startsWithCase url "http+unix://" = true := by
  simp only [parseChttpUrl] at h
  split at h
  · assumption
  · split at h
    · cases (isUnix_network h).symm.trans hunix
    · split at h
      · cases (isUnix_network h).symm.trans hunix
      · cases h

/-! ## Origins -/

theorem rdropWhile_append_cons {a : UInt8} {x y : List UInt8} (h : a ∉ y) : (x ++ a :: y).rdropWhile (· ≠ a) = x ++ [a] := by
  have hall : ∀ c ∈ y.reverse, decide (c ≠ a) = true := by
    intro c hc
    refine decide_eq_true fun heq => h ?_
    subst heq
    exact mem_reverse.mp hc
  rw [List.rdropWhile, reverse_append, reverse_cons, append_assoc, dropWhile_append_of_pos hall]
  simp

theorem isUnixKey_originKeyOf {port : Nat} :
    isUnixKey (originKeyOf https isIpv6 host port) = false := by
  cases https <;> rfl

theorem isUnixKey_unix {path : List UInt8} : isUnixKey (ascii "unix://" ++ path) = true := rfl

theorem map_tolower_bracketed {isIpv6 : Bool} :
    (formatBracketedHost host isIpv6).map ccolAsciiTolower = formatBracketedHost (host.map ccolAsciiTolower) isIpv6 := by
  cases isIpv6 with
  | false => rfl
  | true =>
    simp only [formatBracketedHost, if_true, map_cons, map_append, cons_append]
    rfl

theorem originKeyOf_eq {port : Nat} :
    originKeyOf https isIpv6 host port =
      schemeText https ++ ascii "://" ++ (formatBracketedHost (host.map ccolAsciiTolower) isIpv6 ++ 0x3A :: decimal port) := by
  have hscheme : (schemeText https).map ccolAsciiTolower = schemeText https := by cases https <;> rfl
  have hsep : (ascii "://").map ccolAsciiTolower = ascii "://" := rfl
  have hcolon : ccolAsciiTolower 0x3A = 0x3A := rfl
  simp only [originKeyOf, map_append, map_cons, hscheme, hsep, map_tolower_bracketed, hcolon, map_tolower_decimal, append_assoc]

theorem uriHexdig_unreserved {c : UInt8} (h : uriHexdig c = true) : uriUnreservedOrSubDelim c = true := by
  have halpha : isDigit c = true ∨ isAlpha c = true := by
    simp only [uriHexdig, isAlpha, Bool.or_eq_true, Bool.and_eq_true, decide_eq_true_eq, ge_iff_le, UInt8.le_iff_toNat_le] at h ⊢
    rcases h with (h | h) | h
    · exact .inl h
    · exact .inr (.inl ⟨h.1, h.2.trans (by decide)⟩)
    · exact .inr (.inr ⟨h.1, h.2.trans (by decide)⟩)
  rcases halpha with h | h <;> simp [uriUnreservedOrSubDelim, h]

theorem regName_bytes {s : List UInt8} (h : uriRegNameIsValid.escapesAreValid s = true) :
    ∀ c ∈ s, c = 0x25 ∨ uriUnreservedOrSubDelim c = true := by
  fun_induction uriRegNameIsValid.escapesAreValid s with
  | case1 => simp
  | case2 a b s ih =>
    simp only [Bool.and_eq_true] at h
    simp only [forall_mem_cons]
    exact ⟨.inl trivial, .inr (uriHexdig_unreserved h.1.1), .inr (uriHexdig_unreserved h.1.2), ih h.2⟩
  | case3 => cases h
  | case4 c s hc ih =>
    simp only [Bool.and_eq_true] at h
    exact forall_mem_cons.mpr ⟨.inr h.1, ih h.2⟩

theorem tolower_eq_bracket {c : UInt8} (h : ccolAsciiTolower c = 0x5B) : c = 0x5B := by
  simp only [ccolAsciiTolower, ge_iff_le, Bool.and_eq_true, decide_eq_true_eq, UInt8.le_iff_toNat_le] at h
  split at h
  · rename_i hc
    have hval := congrArg UInt8.toNat h
    rw [UInt8.toNat_add] at hval
    simp at hc hval
    omega
  · exact h

theorem bracket_not_mem (h : uriRegNameIsValid host = true) : 0x5B ∉ host.map ccolAsciiTolower := by
  intro hmem
  obtain ⟨c, hc, hlower⟩ := mem_map.mp hmem
  cases tolower_eq_bracket hlower
  simp only [uriRegNameIsValid, Bool.and_eq_true] at h
  rcases regName_bytes h.2 _ hc with hbad | hbad <;> revert hbad <;> decide

theorem formatBracketedHost_inj {host host' : List UInt8} {isIpv6 isIpv6' : Bool}
    (hhost : (if isIpv6 then uriIpLiteralIsValid host else uriRegNameIsValid host) = true)
    (hhost' : (if isIpv6' then uriIpLiteralIsValid host' else uriRegNameIsValid host') = true)
    (h : formatBracketedHost (host.map ccolAsciiTolower) isIpv6 = formatBracketedHost (host'.map ccolAsciiTolower) isIpv6') :
    isIpv6 = isIpv6' ∧ host.map ccolAsciiTolower = host'.map ccolAsciiTolower := by
  cases isIpv6 with
  | false =>
    cases isIpv6' with
    | false => exact ⟨rfl, h⟩
    | true =>
      refine absurd ?_ (bracket_not_mem hhost)
      change host.map ccolAsciiTolower = _ at h
      rw [h]
      simp [formatBracketedHost]
  | true =>
    cases isIpv6' with
    | false =>
      refine absurd ?_ (bracket_not_mem hhost')
      change _ = host'.map ccolAsciiTolower at h
      rw [← h]
      simp [formatBracketedHost]
    | true =>
      simp only [formatBracketedHost, if_true, cons_append, List.cons.injEq, true_and] at h
      exact ⟨rfl, append_cancel_right h⟩

theorem originKeyOf_inj {https https' isIpv6 isIpv6' : Bool} {host host' : List UInt8} {port port' : Nat}
    (hhost : (if isIpv6 then uriIpLiteralIsValid host else uriRegNameIsValid host) = true)
    (hhost' : (if isIpv6' then uriIpLiteralIsValid host' else uriRegNameIsValid host') = true)
    (h : originKeyOf https isIpv6 host port = originKeyOf https' isIpv6' host' port') :
    https = https' ∧ isIpv6 = isIpv6' ∧ host.map ccolAsciiTolower = host'.map ccolAsciiTolower ∧ port = port' := by
  rw [originKeyOf_eq, originKeyOf_eq] at h
  have hscheme : https = https' := by
    have hfifth := congrArg (·.getD 4 0) h
    cases https <;> cases https' <;> simp [schemeText, ascii] at hfifth ⊢
  subst hscheme
  have hrest := append_cancel_left h
  have hends : formatBracketedHost (host.map ccolAsciiTolower) isIpv6 = formatBracketedHost (host'.map ccolAsciiTolower) isIpv6' ∧
      decimal port = decimal port' := by
    have hhosts := congrArg (·.rdropWhile (· ≠ 0x3A)) hrest
    simp only [rdropWhile_append_cons (colon_not_mem_decimal _)] at hhosts
    have hhosts := append_cancel_right hhosts
    rw [hhosts] at hrest
    exact ⟨hhosts, List.cons.inj (append_cancel_left hrest) |>.2⟩
  obtain ⟨hipv6, hlower⟩ := formatBracketedHost_inj hhost hhost' hends.1
  exact ⟨rfl, hipv6, hlower, decimal_injective hends.2⟩

theorem originKeyOf_lower {port : Nat} :
    (originKeyOf https isIpv6 host port).map ccolAsciiTolower = originKeyOf https isIpv6 host port :=
  map_tolower_idem _

theorem Parsed.originKeysSame_iff {u v : ChttpUrl} (hu : Parsed u) (hv : Parsed v) :
    originKeysSame u.originKey v.originKey = true ↔ u.originKey = v.originKey := by
  cases hu with
  | network =>
    cases hv with
    | network => simp [originKeysSame, isUnixKey_originKeyOf, asciiCaseEq_iff, originKeyOf_lower]
    | unix =>
      simp only [originKeysSame, isUnixKey_originKeyOf, isUnixKey_unix]
      simp
      intro heq
      have hkey := congrArg isUnixKey heq
      rw [isUnixKey_originKeyOf, isUnixKey_unix] at hkey
      cases hkey
  | unix =>
    cases hv with
    | network =>
      simp only [originKeysSame, isUnixKey_originKeyOf, isUnixKey_unix]
      simp
      intro heq
      have hkey := congrArg isUnixKey heq
      rw [isUnixKey_originKeyOf, isUnixKey_unix] at hkey
      cases hkey
    | unix => simp [originKeysSame, isUnixKey_unix]

theorem Parsed.sameOrigin {u v : ChttpUrl} (hu : Parsed u) (hv : Parsed v) (h : u.originKey = v.originKey) : SameOrigin u v := by
  cases hu with
  | network hhost =>
    cases hv with
    | network hhost' =>
      obtain ⟨rfl, rfl, hlower, rfl⟩ := originKeyOf_inj hhost hhost' h
      exact ⟨⟨rfl, rfl, rfl, hlower⟩, rfl, rfl⟩
    | unix =>
      have hkey := congrArg isUnixKey h
      rw [isUnixKey_originKeyOf, isUnixKey_unix] at hkey
      cases hkey
  | unix =>
    cases hv with
    | network =>
      have hkey := congrArg isUnixKey h
      rw [isUnixKey_originKeyOf, isUnixKey_unix] at hkey
      cases hkey
    | unix =>
      have hpath := append_cancel_left h
      exact ⟨⟨rfl, hpath, rfl, rfl⟩, rfl, rfl⟩

theorem originKeyHostSpan_originKeyOf {port : Nat} :
    originKeyHostSpan (originKeyOf https isIpv6 host port) = formatBracketedHost (host.map ccolAsciiTolower) isIpv6 := by
  have hafter : afterScheme (originKeyOf https isIpv6 host port) =
      formatBracketedHost (host.map ccolAsciiTolower) isIpv6 ++ 0x3A :: decimal port := by
    rw [originKeyOf_eq]
    cases https <;> rfl
  simp only [originKeyHostSpan, isUnixKey_originKeyOf, hafter, rdropWhile_append_cons (colon_not_mem_decimal _)]
  simp

theorem originKeyHostSpan_unix {path : List UInt8} : originKeyHostSpan (ascii "unix://" ++ path) = path := rfl

theorem Parsed.drops {u v : ChttpUrl} (hu : Parsed u) (hv : Parsed v) :
    ((redirectHeaderDrops u.originKey v.originKey).credentials = false → SameOrigin u v) ∧
    ((redirectHeaderDrops u.originKey v.originKey).host = false → SameHost u v) := by
  by_cases hsame : originKeysSame u.originKey v.originKey = true
  · have horigin := hu.sameOrigin hv ((hu.originKeysSame_iff hv).mp hsame)
    exact ⟨fun _ => horigin, fun _ => horigin.1⟩
  · simp only [redirectHeaderDrops, if_neg hsame]
    refine ⟨nofun, fun h => ?_⟩
    cases hu with
    | network hhost =>
      cases hv with
      | network hhost' =>
        simp only [isUnixKey_originKeyOf, originKeyHostSpan_originKeyOf] at h
        have hcase := asciiCaseEq_iff.mp (by simpa using h : _ ∧ asciiCaseEq _ _ = true).2
        rw [map_tolower_bracketed, map_tolower_bracketed, map_tolower_idem, map_tolower_idem] at hcase
        obtain ⟨rfl, hlower⟩ := formatBracketedHost_inj hhost hhost' hcase
        exact ⟨rfl, rfl, rfl, hlower⟩
      | unix => simp [isUnixKey_originKeyOf, isUnixKey_unix] at h
    | unix =>
      cases hv with
      | network => simp [isUnixKey_originKeyOf, isUnixKey_unix] at h
      | unix =>
        simp only [isUnixKey_unix, originKeyHostSpan_unix] at h
        simp at h
        exact ⟨rfl, of_decide_eq_true h.2, rfl, rfl⟩

end Ccollections.Chttpclient
