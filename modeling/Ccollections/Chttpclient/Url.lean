import Ccollections.Chttp1.Lines
import Ccollections.Lib.Uri

/-!
# URLs of the HTTP client

A text is the bytes of a C string before its NUL.
-/

namespace Ccollections.Chttpclient
open Chttp1

/-- The codes of `ccol_retval_t` that end a request. -/
inductive HttpRetval where
  | invalidArgs
  | invalidUrl
  | notEnoughMemory
  | transferAborted
  | tooManyRedirects
  | tlsCertLoadFailed
  | timedOut
  | msgTooLarge
  deriving DecidableEq, Repr

/-- `chttp_url_t`. A text that is not set is empty. -/
structure ChttpUrl where
  isHttps : Bool
  isIpv6 : Bool
  isUnix : Bool
  unixSocketPath : List UInt8
  host : List UInt8
  port : Nat
  pathAndQuery : List UInt8
  originKey : List UInt8
  userinfoAuthorization : Option (List UInt8)
  deriving DecidableEq

def SameHost (u v : ChttpUrl) : Prop :=
  u.isUnix = v.isUnix ∧ u.unixSocketPath = v.unixSocketPath ∧ u.isIpv6 = v.isIpv6 ∧
    u.host.map ccolAsciiTolower = v.host.map ccolAsciiTolower

def SameOrigin (u v : ChttpUrl) : Prop := SameHost u v ∧ u.isHttps = v.isHttps ∧ u.port = v.port

/-! ## Characters -/

def uriUnreservedOrSubDelim (c : UInt8) : Bool := isAlpha c || isDigit c || (ascii "-._~!$&'()*+,;=").contains c

def uriHexdig (c : UInt8) : Bool := isDigit c || (c ≥ 0x61 && c ≤ 0x66) || (c ≥ 0x41 && c ≤ 0x46)

def isTargetLiteralByte (c : UInt8) : Bool := isAlpha c || isDigit c || (ascii "-._~!$&'()*+,;=:@/?").contains c

def endsAuthority (c : UInt8) : Bool := c = 0x2F || c = 0x3F || c = 0x23

/-- `ccol_ascii_ncasecmp(s, literal, strlen(literal)) == 0`. -/
def startsWithCase (s : List UInt8) (literal : String) : Bool := asciiCaseEq (s.take (ascii literal).length) (ascii literal)

/-- `%u` and `%zu`. -/
def decimal (n : Nat) : List UInt8 := (Nat.toDigits 10 n).map fun c => c.toNat.toUInt8

/-! ## Percent encoding -/

def hexUpper (n : Nat) : UInt8 := if n < 10 then (0x30 + n).toUInt8 else (0x37 + n).toUInt8

def percentEncodeByte (c : UInt8) : List UInt8 := [0x25, hexUpper (c.toNat / 16), hexUpper (c.toNat % 16)]

def percentEncodeUnixPath (path : List UInt8) : List UInt8 :=
  path.flatMap fun c => if isAlpha c || isDigit c || (ascii "-._~").contains c then [c] else percentEncodeByte c

def escapeValue (a b : UInt8) : Nat := (hexDigit a).getD 0 * 16 + (hexDigit b).getD 0

def percentDecodeComponent : List UInt8 → Except HttpRetval (List UInt8)
  | [] => .ok []
  | c :: s =>
    if c = 0x25 then
      match s with
      | a :: b :: s =>
        if uriHexdig a && uriHexdig b && escapeValue a b ≠ 0 then
          (percentDecodeComponent s).map ((escapeValue a b).toUInt8 :: ·)
        else .error .invalidUrl
      | _ => .error .invalidUrl
    else (percentDecodeComponent s).map (c :: ·)

/-- The loops of `_build_request_target`. -/
def encodeTarget : List UInt8 → Except HttpRetval (List UInt8)
  | [] => .ok []
  | c :: s =>
    if c = 0x25 then
      match s with
      | a :: b :: s =>
        if uriHexdig a && uriHexdig b then (encodeTarget s).map fun t => c :: a :: b :: t else .error .invalidUrl
      | _ => .error .invalidUrl
    else if isTargetLiteralByte c then (encodeTarget s).map (c :: ·)
    else (encodeTarget s).map (percentEncodeByte c ++ ·)

def buildRequestTarget (pq : List UInt8) : Except HttpRetval (List UInt8) :=
  (encodeTarget pq).map fun t => if pq.head? = some 0x2F then t else 0x2F :: t

def requestTarget (q : List UInt8) : Except HttpRetval (List UInt8) :=
  let pq := (if q.isEmpty || q.head? = some 0x23 then ascii "/" else q).takeWhile (· ≠ 0x23)
  if pq.contains 0x0D || pq.contains 0x0A then .error .invalidUrl else buildRequestTarget pq

/-! ## Hosts -/

def uriRegNameIsValid (s : List UInt8) : Bool :=
  s ≠ [] && escapesAreValid s
where
  /-- The loop of `_uri_reg_name_is_valid`. -/
  escapesAreValid : List UInt8 → Bool
    | [] => true
    | c :: s =>
      if c = 0x25 then
        match s with
        | a :: b :: s => uriHexdig a && uriHexdig b && escapesAreValid s
        | _ => false
      else uriUnreservedOrSubDelim c && escapesAreValid s

/-- A dotted quad at the end of an IPv6 address: four decimal numbers below 256 without leading zeros. -/
def inetPton4 (s : List UInt8) : Bool :=
  let parts := s.splitOn 0x2E
  parts.length = 4 && parts.all fun part =>
    match part with
    | [] => false
    | c :: rest =>
      (c :: rest).all isDigit && (rest = [] || c ≠ 0x30) &&
        (c :: rest).foldl (fun v d => v * 10 + (d.toNat - 0x30)) 0 ≤ 255

/-- The groups of `inet_pton(AF_INET6, ...)`, with the digits of the current group, the text from its first digit, the
bytes known so far and whether `::` was read. -/
def inetPton6Loop (tok : List UInt8) (digits bytes : Nat) (gap : Bool) : List UInt8 → Bool
  | [] =>
    let bytes := if digits > 0 then bytes + 2 else bytes
    bytes ≤ 16 && if gap then bytes < 16 else bytes = 16
  | c :: s =>
    if isHexdig c then digits < 4 && inetPton6Loop tok (digits + 1) bytes gap s
    else if c = 0x3A then
      if digits = 0 then !gap && inetPton6Loop s 0 bytes true s
      else s ≠ [] && bytes + 2 ≤ 16 && inetPton6Loop s 0 (bytes + 2) gap s
    else c = 0x2E && bytes + 4 ≤ 16 && inetPton4 tok && if gap then bytes + 4 < 16 else bytes + 4 = 16

/-- `inet_pton(AF_INET6, s, &addr) == 1`. -/
def inetPton6 (s : List UInt8) : Bool :=
  match s with
  | 0x3A :: rest => rest.head? = some 0x3A && inetPton6Loop rest 0 0 false rest
  | s => inetPton6Loop s 0 0 false s

def inet6Addrstrlen : Nat := 46

/-- What follows the `v` of an `IPvFuture`. -/
def uriIpvFutureIsValid (s : List UInt8) : Bool :=
  match s.dropWhile uriHexdig with
  | [] => false
  | c :: rest =>
    uriHexdig (s.headD 0) && c = 0x2E && !rest.isEmpty && rest.all fun c => uriUnreservedOrSubDelim c || c = 0x3A

def uriIpLiteralIsValid (s : List UInt8) : Bool :=
  match s with
  | [] => false
  | c :: rest =>
    if c = 0x76 || c = 0x56 then uriIpvFutureIsValid rest
    else s.length < inet6Addrstrlen && s.all (fun c => uriHexdig c || c = 0x3A || c = 0x2E) && inetPton6 s

def uriUserinfoIsValid (s : List UInt8) : Bool :=
  s.all fun c => uriUnreservedOrSubDelim c || c = 0x3A || c = 0x40 || c = 0x25

/-! ## Authorization -/

def base64Digit (n : Nat) : UInt8 :=
  (ascii "ABCDEFGHIJKLMNOPQRSTUVWXYZabcdefghijklmnopqrstuvwxyz0123456789+/").getD (n % 64) 0

def chttpBase64Encode : List UInt8 → List UInt8
  | a :: b :: c :: s =>
    let n := a.toNat * 65536 + b.toNat * 256 + c.toNat
    base64Digit (n / 262144) :: base64Digit (n / 4096) :: base64Digit (n / 64) :: base64Digit n :: chttpBase64Encode s
  | [a, b] =>
    let n := a.toNat * 65536 + b.toNat * 256
    [base64Digit (n / 262144), base64Digit (n / 4096), base64Digit (n / 64), 0x3D]
  | [a] =>
    let n := a.toNat * 65536
    [base64Digit (n / 262144), base64Digit (n / 4096), 0x3D, 0x3D]
  | [] => []

def chttpHasCtl (s : List UInt8) : Bool := s.any fun c => c < 0x20 || c = 0x7F

def chttpBasicAuth (user pass : List UInt8) : Option (List UInt8) :=
  if user.contains 0x3A || chttpHasCtl user || chttpHasCtl pass then none
  else some (ascii "Basic " ++ chttpBase64Encode (user ++ 0x3A :: pass))

/-- The `Authorization` value for the userinfo of a URL. -/
def userinfoAuthorization (userinfo : List UInt8) : Except HttpRetval (List UInt8) :=
  if !uriUserinfoIsValid userinfo then .error .invalidUrl
  else do
    let user ← percentDecodeComponent (userinfo.takeWhile (· ≠ 0x3A))
    let pass ← percentDecodeComponent ((userinfo.dropWhile (· ≠ 0x3A)).drop 1)
    if user.contains 0x3A then .error .invalidUrl
    else
      match chttpBasicAuth user pass with
      | some auth => .ok auth
      | none => .error .notEnoughMemory

/-- The `Authorization` value for a URL. -/
def urlAuthorization : Option (List UInt8) → Except HttpRetval (Option (List UInt8))
  | none => .ok none
  | some userinfo => (userinfoAuthorization userinfo).map some

/-! ## Parsing -/

/-- The userinfo of an authority, which ends at its last `@`. -/
def splitUserinfo (authority : List UInt8) : Option (List UInt8) :=
  if authority.contains 0x40 then some (authority.rdropWhile (· ≠ 0x40)).dropLast else none

/-- The host at the start of `s` and what follows it. `authority` is the part of `s` that belongs to it. -/
def splitHost (s authority : List UInt8) : Except HttpRetval (Bool × List UInt8 × List UInt8) :=
  if s.head? = some 0x5B then
    let literal := (authority.drop 1).takeWhile (· ≠ 0x5D)
    let q := s.drop (literal.length + 2)
    if literal.length + 1 ≥ authority.length then .error .invalidUrl
    else if q ≠ [] && !(q.headD 0 = 0x3A || endsAuthority (q.headD 0)) then .error .invalidUrl
    else if uriIpLiteralIsValid literal then .ok (true, literal, q)
    else .error .invalidUrl
  else
    let host := s.takeWhile fun c => !(c = 0x3A || endsAuthority c)
    if uriRegNameIsValid host then .ok (false, host, s.drop host.length) else .error .invalidUrl

def portDigits : Nat → List UInt8 → Option Nat
  | v, [] => some v
  | v, c :: s => if v * 10 + (c.toNat - 0x30) > 65535 then none else portDigits (v * 10 + (c.toNat - 0x30)) s

/-- The port at the start of `q` and what follows it. -/
def splitPort (https : Bool) (q : List UInt8) : Except HttpRetval (Nat × List UInt8) :=
  let default := if https then 443 else 80
  match q with
  | [] => .ok (default, [])
  | c :: s =>
    if c ≠ 0x3A then .ok (default, q)
    else
      let digits := s.takeWhile isDigit
      let rest := s.drop digits.length
      match portDigits 0 digits with
      | none => .error .invalidUrl
      | some v =>
        if digits ≠ [] && v = 0 then .error .invalidUrl
        else if rest ≠ [] && !endsAuthority (rest.headD 0) then .error .invalidUrl
        else .ok (if digits ≠ [] then v else default, rest)

def formatBracketedHost (host : List UInt8) (isIpv6 : Bool) : List UInt8 :=
  if isIpv6 then 0x5B :: host ++ [0x5D] else host

def schemeText (https : Bool) : List UInt8 := if https then ascii "https" else ascii "http"

def originKeyOf (https isIpv6 : Bool) (host : List UInt8) (port : Nat) : List UInt8 :=
  (schemeText https ++ ascii "://" ++ formatBracketedHost host isIpv6 ++ 0x3A :: decimal port).map ccolAsciiTolower

/-- The part of `_parse_chttp_url` that follows the scheme. -/
def parseNetworkUrl (https : Bool) (p : List UInt8) : Except HttpRetval ChttpUrl := do
  let authority := p.takeWhile (!endsAuthority ·)
  let userinfo := splitUserinfo authority
  let auth ← urlAuthorization userinfo
  let skipped := (userinfo.map (·.length + 1)).getD 0
  let (isIpv6, host, q) ← splitHost (p.drop skipped) (authority.drop skipped)
  let (port, q) ← splitPort https q
  let target ← requestTarget q
  return {
    isHttps := https
    isIpv6 := isIpv6
    isUnix := false
    unixSocketPath := []
    host := host
    port := port
    pathAndQuery := target
    originKey := originKeyOf https isIpv6 host port
    userinfoAuthorization := auth }

def parseChttpUnixUrl (p : List UInt8) : Except HttpRetval ChttpUrl := do
  let authority := p.takeWhile (!endsAuthority ·)
  if authority = [] then .error .invalidUrl
  else
    let path ← percentDecodeComponent authority
    let target ← requestTarget (p.drop authority.length)
    return {
      isHttps := false
      isIpv6 := false
      isUnix := true
      unixSocketPath := path
      host := []
      port := 0
      pathAndQuery := target
      originKey := ascii "unix://" ++ path
      userinfoAuthorization := none }

def parseChttpUrl (url : List UInt8) : Except HttpRetval ChttpUrl :=
  if startsWithCase url "http+unix://" then parseChttpUnixUrl (url.drop 12)
  else if startsWithCase url "http://" then parseNetworkUrl false (url.drop 7)
  else if startsWithCase url "https://" then parseNetworkUrl true (url.drop 8)
  else .error .invalidUrl

/-! ## References -/

/-- The last segment of the output buffer of `_remove_dot_segments`, with its slash, goes. -/
def popSegment (out : List UInt8) : List UInt8 := (out.rdropWhile (· ≠ 0x2F)).dropLast

/-- The loop of `_remove_dot_segments`. -/
def removeDotLoop (out p : List UInt8) : List UInt8 :=
  if p = [] then out
  else if (ascii "../").isPrefixOf p then removeDotLoop out (p.drop 3)
  else if (ascii "./").isPrefixOf p then removeDotLoop out (p.drop 2)
  else if (ascii "/./").isPrefixOf p then removeDotLoop out (p.drop 2)
  else if p = ascii "/." then removeDotLoop out (ascii "/")
  else if (ascii "/../").isPrefixOf p then removeDotLoop (popSegment out) (p.drop 3)
  else if p = ascii "/.." then removeDotLoop (popSegment out) (ascii "/")
  else if p = ascii "." || p = ascii ".." then out
  else
    let segment := p.take 1 ++ (p.drop 1).takeWhile (· ≠ 0x2F)
    removeDotLoop (out ++ segment) (p.drop segment.length)
termination_by p.length
decreasing_by
  all_goals simp_wf
  all_goals have hp : 0 < p.length := List.length_pos_of_ne_nil ‹_›
  · omega
  · omega
  · omega
  · subst_vars
    decide
  · omega
  · subst_vars
    decide
  · omega

def removeDotSegments (path : List UInt8) : List UInt8 := removeDotLoop [] path

def mergeRefPath (basePathAndQuery refPath : List UInt8) : List UInt8 :=
  let basePath := basePathAndQuery.takeWhile (· ≠ 0x3F)
  if refPath = [] then basePath else basePath.rdropWhile (· ≠ 0x2F) ++ refPath

def locationHasScheme (s : List UInt8) : Bool :=
  match s with
  | [] => false
  | c :: s =>
    isAlpha c && (s.dropWhile fun c => isAlpha c || isDigit c || c = 0x2B || c = 0x2D || c = 0x2E).head? = some 0x3A

/-- What follows the first `//` of a text. -/
def afterSlashes : List UInt8 → Option (List UInt8)
  | 0x2F :: 0x2F :: s => some s
  | _ :: s => afterSlashes s
  | [] => none

def normalizeAuthorityRef (url : List UInt8) : List UInt8 :=
  match afterSlashes url with
  | none => url
  | some rest =>
    let path := rest.dropWhile (!endsAuthority ·)
    let pathOnly := path.takeWhile fun c => !(c = 0x3F || c = 0x23)
    if pathOnly = [] then url
    else url.take (url.length - path.length) ++ removeDotSegments pathOnly ++ path.drop pathOnly.length

def urlPrefix (base : ChttpUrl) : List UInt8 :=
  if base.isUnix then ascii "http+unix://" ++ percentEncodeUnixPath base.unixSocketPath
  else
    schemeText base.isHttps ++ ascii "://" ++ formatBracketedHost base.host base.isIpv6 ++
      if (base.isHttps && base.port = 443) || (!base.isHttps && base.port = 80) then [] else 0x3A :: decimal base.port

def resolveRedirectUrl (base : ChttpUrl) (location : List UInt8) : Except HttpRetval (List UInt8) :=
  if location = [] then .error .transferAborted
  else if startsWithCase location "http://" || startsWithCase location "https://" || startsWithCase location "http+unix://" then
    .ok (normalizeAuthorityRef location)
  else if locationHasScheme location then .ok location
  else if (ascii "//").isPrefixOf location then .ok (normalizeAuthorityRef (schemeText base.isHttps ++ 0x3A :: location))
  else
    let location := location.takeWhile (· ≠ 0x23)
    if location = [] then .ok (urlPrefix base ++ base.pathAndQuery)
    else
      let refPath := location.takeWhile (· ≠ 0x3F)
      let refQuery := location.drop refPath.length
      let newPath :=
        if location.head? = some 0x2F then removeDotSegments refPath
        else if refPath = [] then mergeRefPath base.pathAndQuery []
        else removeDotSegments (mergeRefPath base.pathAndQuery refPath)
      .ok (urlPrefix base ++ newPath ++ refQuery)

/-- `_redirect_transport_allowed`. The code it refuses with, if it does. -/
def redirectTransportRefused (base : ChttpUrl) (nextUrl : List UInt8) (preventDowngrade : Bool) : Option HttpRetval :=
  let judge (allowed : ChttpUrl → Bool) : Option HttpRetval :=
    match parseChttpUrl nextUrl with
    | .error .notEnoughMemory => some .notEnoughMemory
    | .error _ => none
    | .ok next => if allowed next then none else some .invalidUrl
  if startsWithCase nextUrl "http+unix://" then
    if !base.isUnix then some .invalidUrl
    else judge fun next => next.isUnix && next.unixSocketPath = base.unixSocketPath
  else if !preventDowngrade || !base.isHttps then none
  else judge fun next => next.isHttps

/-!
# The grammar of the URLs

As the comments of the parser give it: RFC 3986 section 3.2 for the authority, and what may follow it.
-/

open Lib

/-! ## Escapes -/

/-- Bytes of a class, and `%` only before two hex digits. -/
inductive Escaped (p : UInt8 → Bool) : List UInt8 → Prop
  | nil : Escaped p []
  | byte {c : UInt8} {s : List UInt8} (hc : p c = true) (hpct : c ≠ 0x25) (hs : Escaped p s) : Escaped p (c :: s)
  | escape {a b : UInt8} {s : List UInt8} (ha : uriHexdig a = true) (hb : uriHexdig b = true) (hs : Escaped p s) :
      Escaped p (0x25 :: a :: b :: s)

/-- The text without its escapes, none of which stands for NUL. -/
inductive Decodes : List UInt8 → List UInt8 → Prop
  | nil : Decodes [] []
  | byte {c : UInt8} {s t : List UInt8} (hpct : c ≠ 0x25) (hs : Decodes s t) : Decodes (c :: s) (c :: t)
  | escape {a b : UInt8} {s t : List UInt8} (ha : uriHexdig a = true) (hb : uriHexdig b = true) (hnul : escapeValue a b ≠ 0)
      (hs : Decodes s t) : Decodes (0x25 :: a :: b :: s) ((escapeValue a b).toUInt8 :: t)

/-- A target with every byte outside the set of RFC 3986 escaped, and every escape kept. -/
inductive Encodes : List UInt8 → List UInt8 → Prop
  | nil : Encodes [] []
  | keep {c : UInt8} {s t : List UInt8} (hc : isTargetLiteralByte c = true) (hpct : c ≠ 0x25) (hs : Encodes s t) :
      Encodes (c :: s) (c :: t)
  | escape {a b : UInt8} {s t : List UInt8} (ha : uriHexdig a = true) (hb : uriHexdig b = true) (hs : Encodes s t) :
      Encodes (0x25 :: a :: b :: s) (0x25 :: a :: b :: t)
  | encode {c : UInt8} {s t : List UInt8} (hc : isTargetLiteralByte c = false) (hpct : c ≠ 0x25) (hs : Encodes s t) :
      Encodes (c :: s) (percentEncodeByte c ++ t)

/-- `"/" ... [ "?" ... ]`. -/
def OriginForm (t : List UInt8) : Prop := t.head? = some 0x2F ∧ Escaped isTargetLiteralByte t

/-! ## The authority -/

/-- `1*( unreserved / pct-encoded / sub-delims )`. -/
def RegName (s : List UInt8) : Prop := s ≠ [] ∧ Escaped uriUnreservedOrSubDelim s

/-- `"v" 1*HEXDIG "." 1*( unreserved / sub-delims / ":" )`. -/
inductive IpvFuture : List UInt8 → Prop
  | mk {v : UInt8} {version rest : List UInt8} (hv : v = 0x76 ∨ v = 0x56) (hversion : version ≠ [])
      (hhex : ∀ c ∈ version, uriHexdig c = true) (hrest : rest ≠ [])
      (hchars : ∀ c ∈ rest, uriUnreservedOrSubDelim c = true ∨ c = 0x3A) : IpvFuture (v :: version ++ 0x2E :: rest)

/-- `IPv6address / IPvFuture`. -/
def IpLiteral (s : List UInt8) : Prop := inetPton6 s = true ∨ IpvFuture s

/-- The text before the last `@`, which ends the user at its first `:`. -/
structure Userinfo (raw user pass : List UInt8) : Prop where
  chars : ∀ c ∈ raw, uriUnreservedOrSubDelim c = true ∨ c = 0x3A ∨ c = 0x40 ∨ c = 0x25
  userDecodes : Decodes (raw.takeWhile (· ≠ 0x3A)) user
  passDecodes : Decodes ((raw.dropWhile (· ≠ 0x3A)).drop 1) pass
  colon : 0x3A ∉ user

def NoCtl (s : List UInt8) : Prop := ∀ c ∈ s, 0x20 ≤ c ∧ c ≠ 0x7F

/-- The digits behind the `:` of a port: none, or a number up to 65535. -/
structure PortDigits (digits : List UInt8) : Prop where
  chars : ∀ c ∈ digits, isDigit c = true
  value : digits ≠ [] → 1 ≤ digits.foldl (fun v d => v * 10 + (d.toNat - 0x30)) 0 ∧
    digits.foldl (fun v d => v * 10 + (d.toNat - 0x30)) 0 ≤ 65535

/-! ## Behind the authority -/

/-- The path and the query, and the fragment with its `#`. -/
structure Tail (pq fragment : List UInt8) : Prop where
  start : pq = [] ∨ pq.head? = some 0x2F ∨ pq.head? = some 0x3F
  escapes : Escaped (· ≠ 0x25) pq
  noHash : 0x23 ∉ pq
  noCr : 0x0D ∉ pq
  noLf : 0x0A ∉ pq
  fragment : fragment = [] ∨ fragment.head? = some 0x23

/-- The path and query with the `/` it may lack in front. -/
def slashed (pq : List UInt8) : List UInt8 := if pq.head? = some 0x2F then pq else 0x2F :: pq

/-! ## URLs -/

/-- The parts of an `http` or `https` URL. -/
structure NetworkParts where
  https : Bool
  userinfo : Option (List UInt8)
  isIpv6 : Bool
  host : List UInt8
  port : Option (List UInt8)
  pq : List UInt8
  fragment : List UInt8

namespace NetworkParts

variable (t : NetworkParts)

def text : List UInt8 :=
  (t.userinfo.elim [] (· ++ [0x40])) ++ formatBracketedHost t.host t.isIpv6 ++ (t.port.elim [] (0x3A :: ·)) ++ (t.pq ++ t.fragment)

def portValue : Nat :=
  match t.port with
  | none | some [] => if t.https then 443 else 80
  | some digits => digits.foldl (fun v d => v * 10 + (d.toNat - 0x30)) 0

/-- The documented form. The credentials are those that `Basic` can carry. -/
structure Ok (user pass : List UInt8) : Prop where
  userinfo : ∀ raw, t.userinfo = some raw → Userinfo raw user pass ∧ NoCtl user ∧ NoCtl pass
  host : if t.isIpv6 then IpLiteral t.host else RegName t.host
  port : ∀ digits, t.port = some digits → PortDigits digits
  tail : Tail t.pq t.fragment

/-- What the parser makes of the parts. -/
structure Gives (user pass : List UInt8) (u : ChttpUrl) : Prop where
  isHttps : u.isHttps = t.https
  isIpv6 : u.isIpv6 = t.isIpv6
  isUnix : u.isUnix = false
  unixSocketPath : u.unixSocketPath = []
  host : u.host = t.host
  port : u.port = t.portValue
  pathAndQuery : Encodes (slashed t.pq) u.pathAndQuery
  originKey : u.originKey = originKeyOf t.https t.isIpv6 t.host t.portValue
  authorization : u.userinfoAuthorization =
    t.userinfo.map fun _ => ascii "Basic " ++ chttpBase64Encode (user ++ 0x3A :: pass)

end NetworkParts

/-- The parts of an `http+unix` URL. -/
structure UnixParts where
  path : List UInt8
  pq : List UInt8
  fragment : List UInt8

namespace UnixParts

variable (t : UnixParts)

def text : List UInt8 := t.path ++ (t.pq ++ t.fragment)

structure Ok (socket : List UInt8) : Prop where
  path : t.path ≠ []
  inside : ∀ c ∈ t.path, endsAuthority c = false
  socket : Decodes t.path socket
  tail : Tail t.pq t.fragment

structure Gives (socket : List UInt8) (u : ChttpUrl) : Prop where
  isHttps : u.isHttps = false
  isIpv6 : u.isIpv6 = false
  isUnix : u.isUnix = true
  unixSocketPath : u.unixSocketPath = socket
  host : u.host = []
  port : u.port = 0
  pathAndQuery : Encodes (slashed t.pq) u.pathAndQuery
  originKey : u.originKey = ascii "unix://" ++ socket
  authorization : u.userinfoAuthorization = none

end UnixParts

/-- A scheme with its `://`, in any case, and what follows it. -/
def HasScheme (scheme : String) (url rest : List UInt8) : Prop :=
  ∃ start, url = start ++ rest ∧ start.map ccolAsciiTolower = ascii scheme

/-- The URLs that the parser accepts, and what it makes of them. -/
inductive Accepts : List UInt8 → ChttpUrl → Prop
  | http {url user pass : List UInt8} {u : ChttpUrl} (t : NetworkParts) (hscheme : HasScheme "http://" url t.text)
      (hhttps : t.https = false) (hok : t.Ok user pass) (hgives : t.Gives user pass u) : Accepts url u
  | https {url user pass : List UInt8} {u : ChttpUrl} (t : NetworkParts) (hscheme : HasScheme "https://" url t.text)
      (hhttps : t.https = true) (hok : t.Ok user pass) (hgives : t.Gives user pass u) : Accepts url u
  | unix {url socket : List UInt8} {u : ChttpUrl} (t : UnixParts) (hscheme : HasScheme "http+unix://" url t.text)
      (hok : t.Ok socket) (hgives : t.Gives socket u) : Accepts url u

/-- The texts of the documented forms. -/
inductive InGrammar (url : List UInt8) : Prop
  | http {user pass : List UInt8} (t : NetworkParts) (hscheme : HasScheme "http://" url t.text) (hhttps : t.https = false)
      (hok : t.Ok user pass)
  | https {user pass : List UInt8} (t : NetworkParts) (hscheme : HasScheme "https://" url t.text) (hhttps : t.https = true)
      (hok : t.Ok user pass)
  | unix {socket : List UInt8} (t : UnixParts) (hscheme : HasScheme "http+unix://" url t.text) (hok : t.Ok socket)

/-- A target that is fit for a request line, and a place that it can be sent to. -/
structure Checked (u : ChttpUrl) : Prop where
  place : if u.isUnix then u.unixSocketPath ≠ []
    else (if u.isIpv6 then IpLiteral u.host else RegName u.host) ∧ 1 ≤ u.port ∧ u.port ≤ 65535
  pathAndQuery : OriginForm u.pathAndQuery
  visible : ∀ c ∈ u.pathAndQuery, 0x21 ≤ c ∧ c ≤ 0x7E

/-! ## References -/

/-- A path and a query that a request target can be made of. -/
structure FitTarget (pq : List UInt8) : Prop where
  escapes : Escaped (· ≠ 0x25) pq
  noCr : 0x0D ∉ pq
  noLf : 0x0A ∉ pq

def KnownScheme (scheme : List UInt8) : Prop :=
  scheme.map ccolAsciiTolower = ascii "http" ∨ scheme.map ccolAsciiTolower = ascii "https" ∨
    scheme.map ccolAsciiTolower = ascii "http+unix"

def authorityText (u : ChttpUrl) : List UInt8 :=
  if u.isUnix then percentEncodeUnixPath u.unixSocketPath
  else
    formatBracketedHost u.host u.isIpv6 ++
      if (u.isHttps && u.port = 443) || (!u.isHttps && u.port = 80) then [] else 0x3A :: decimal u.port

def baseReference (u : ChttpUrl) : UriReference :=
  { UriReference.ofTail u.pathAndQuery with
    scheme := some (if u.isUnix then ascii "http+unix" else schemeText u.isHttps)
    authority := some (authorityText u) }

/-- What a redirect with a location leads to. -/
structure RedirectsTo (u : ChttpUrl) (location result : List UInt8) : Prop where
  /-- A URL of a known scheme is resolved. -/
  known : ∀ scheme authority, (UriReference.ofText location).scheme = some scheme → KnownScheme scheme →
    (UriReference.ofText location).authority = some authority →
    ∃ t, UriReference.Resolves (baseReference u) (UriReference.ofText location) t ∧ result = t.text
  /-- Any other text with a scheme is left as it is. -/
  foreign : ∀ scheme, (UriReference.ofText location).scheme = some scheme →
    ¬(KnownScheme scheme ∧ (UriReference.ofText location).authority.isSome) → result = location
  /-- An authority is one of the network, also behind a socket. -/
  network : ∀ authority, (UriReference.ofText location).scheme = none → (UriReference.ofText location).authority = some authority →
    ∃ t, UriReference.Resolves { baseReference u with scheme := some (schemeText u.isHttps) } (UriReference.ofText location) t ∧
      result = t.text
  /-- Anything else stays at the place of the base. -/
  relative : (UriReference.ofText location).scheme = none → (UriReference.ofText location).authority = none →
    ∃ t, UriReference.Resolves (baseReference u) (UriReference.ofText location) t ∧ result = { t with fragment := none }.text ∧
      (FitTarget (t.path ++ t.query.elim [] (0x3F :: ·)) →
        ∃ v, parseChttpUrl result = .ok v ∧ v.originKey = u.originKey ∧ SameOrigin v u) ∧
      (¬FitTarget (t.path ++ t.query.elim [] (0x3F :: ·)) → parseChttpUrl result = .error .invalidUrl)

end Ccollections.Chttpclient
