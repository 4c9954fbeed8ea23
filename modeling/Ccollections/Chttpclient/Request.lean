import Ccollections.Chttp1.Execute
import Ccollections.Chttpclient.Url

/-!
# Requests and their serialization

The headers of a request are in the order in which its map iterates, the newest entry first. All allocations succeed.
-/

namespace Ccollections.Chttpclient
open Chttp1

/-- `chttp_method_t`. `any` stands for every value that is not one of the seven methods. -/
inductive Method where
  | get
  | post
  | put
  | delete
  | patch
  | head
  | options
  | any
  deriving DecidableEq, Repr

def chttpMethodStr : Method → List UInt8
  | .get => ascii "GET"
  | .post => ascii "POST"
  | .put => ascii "PUT"
  | .delete => ascii "DELETE"
  | .patch => ascii "PATCH"
  | .head => ascii "HEAD"
  | .options => ascii "OPTIONS"
  | .any => ascii "ANY"

def Method.bodyCarrying (m : Method) : Bool := m = .post || m = .put || m = .patch

/-- `chttp_request_body_t`. A body without data has no bytes, whatever its length says. -/
structure Body where
  bytes : List UInt8
  contentType : Option (List UInt8)
  deriving DecidableEq

/-- `CHTTP_NO_BODY`. -/
def Body.empty : Body := ⟨[], none⟩

abbrev Field := List UInt8 × List UInt8

/-- `chttp_request_t`. -/
structure Request where
  method : Method
  url : List UInt8
  headers : List Field
  body : Body
  expectContinue : Bool
  preventTlsDowngradeOnRedirect : Bool
  deriving DecidableEq

/-- `ccol_ascii_casecmp(name, literal) == 0`. -/
def nameIs (name : List UInt8) (literal : String) : Bool := asciiCaseEq name (ascii literal)

def headerValueIsValid (v : List UInt8) : Bool := !v.any fun c => (c < 0x20 && c ≠ 0x09) || c = 0x7F

/-! ## What a header map holds -/

/-- `chttp_header_presence_t`. -/
structure HeaderPresence where
  hasHost : Bool
  hasAccept : Bool
  hasUserAgent : Bool
  hasContentLength : Bool
  hasContentType : Bool
  hasAuthorization : Bool
  hasExpect : Bool
  hasTransferEncoding : Bool
  hasIdempotencyKey : Bool
  requestClose : Bool
  deriving DecidableEq

def HeaderPresence.none : HeaderPresence := ⟨false, false, false, false, false, false, false, false, false, false⟩

def connectionValueHasClose (v : List UInt8) : Bool := (commaElements v).any fun e => nameIs (trimOws e) "close"

/-- One round of the loop of `_scan_header_presence`. -/
def HeaderPresence.see (p : HeaderPresence) (f : Field) : HeaderPresence :=
  if nameIs f.1 "host" then { p with hasHost := true }
  else if nameIs f.1 "accept" then { p with hasAccept := true }
  else if nameIs f.1 "user-agent" then { p with hasUserAgent := true }
  else if nameIs f.1 "content-length" then { p with hasContentLength := true }
  else if nameIs f.1 "content-type" then { p with hasContentType := true }
  else if nameIs f.1 "authorization" then { p with hasAuthorization := true }
  else if nameIs f.1 "expect" then { p with hasExpect := true }
  else if nameIs f.1 "transfer-encoding" then { p with hasTransferEncoding := true }
  else if nameIs f.1 "idempotency-key" || nameIs f.1 "x-idempotency-key" then { p with hasIdempotencyKey := true }
  else if nameIs f.1 "connection" && connectionValueHasClose f.2 then { p with requestClose := true }
  else p

def scanHeaderPresence (headers : List Field) : HeaderPresence := headers.foldl HeaderPresence.see .none

def requestIsReplayable (method : Method) (hp : HeaderPresence) : Bool :=
  match method with
  | .get | .head | .options | .put | .delete => true
  | _ => hp.hasIdempotencyKey

/-! ## Redirects across origins -/

/-- `CHTTP_REDIRECT_DROP_CREDENTIALS` and `CHTTP_REDIRECT_DROP_HOST`. -/
structure RedirectDrops where
  credentials : Bool
  host : Bool
  deriving DecidableEq

def RedirectDrops.none : RedirectDrops := ⟨false, false⟩

def isUnixKey (key : List UInt8) : Bool := (ascii "unix://").isPrefixOf key

/-- What follows the first `://` of a key, or the key. -/
def afterScheme (key : List UInt8) : List UInt8 := (search key).getD key
where
  /-- What follows the first `://`. -/
  search : List UInt8 → Option (List UInt8)
    | [] => .none
    | c :: s => if (ascii "://").isPrefixOf (c :: s) then some ((c :: s).drop 3) else search s

def originKeyHostSpan (key : List UInt8) : List UInt8 :=
  let h := afterScheme key
  if isUnixKey key then h else if h.contains 0x3A then (h.rdropWhile (· ≠ 0x3A)).dropLast else h

def originKeysSame (a b : List UInt8) : Bool :=
  if isUnixKey a || isUnixKey b then isUnixKey a = isUnixKey b && a = b else asciiCaseEq a b

def redirectHeaderDrops (initialOriginKey originKey : List UInt8) : RedirectDrops :=
  if originKeysSame initialOriginKey originKey then .none
  else
    let a := originKeyHostSpan initialOriginKey
    let b := originKeyHostSpan originKey
    let sameHost :=
      if isUnixKey initialOriginKey ≠ isUnixKey originKey || a.length ≠ b.length then false
      else if isUnixKey initialOriginKey then a = b
      else asciiCaseEq a b
    ⟨true, !sameHost⟩

def isRedirectCredentialHeader (name : List UInt8) : Bool :=
  nameIs name "authorization" || nameIs name "cookie" || nameIs name "cookie2" || nameIs name "www-authenticate"

/-! ## Serialization -/

/-- The check of a `Content-Length` that the caller set. -/
def contentLengthMatches (val : List UInt8) (expected : Nat) : Bool :=
  let declared := val.foldl (fun v d => v * 10 + (d.toNat - 0x30)) 0
  val ≠ [] && val.all isDigit && declared ≤ uint64Max && declared = expected

def isBodyHeader (name : List UInt8) : Bool :=
  nameIs name "content-length" || nameIs name "content-type" || nameIs name "expect"

def leftOff (method : Method) (drops : RedirectDrops) (name : List UInt8) : Bool :=
  (!method.bodyCarrying && isBodyHeader name) || (drops.credentials && isRedirectCredentialHeader name) ||
    (drops.host && nameIs name "host")

/-- The loop of `_serialize_request` over the header map. `seen` are the names it has written. -/
def callerFields (method : Method) (bodyLen : Nat) (drops : RedirectDrops) (seen : List (List UInt8)) :
    List Field → Except HttpRetval (List Field)
  | [] => .ok []
  | (name, val) :: rest =>
    if name = [] || !headerValueIsValid val || !name.all chttp1IsTchar then .error .invalidArgs
    else if !method.bodyCarrying && isBodyHeader name then callerFields method bodyLen drops seen rest
    else if drops.credentials && isRedirectCredentialHeader name then callerFields method bodyLen drops seen rest
    else if drops.host && nameIs name "host" then callerFields method bodyLen drops seen rest
    else if seen.any (asciiCaseEq · name) then callerFields method bodyLen drops seen rest
    else if method.bodyCarrying && nameIs name "content-length" && !contentLengthMatches val bodyLen then .error .invalidArgs
    else (callerFields method bodyLen drops (name :: seen) rest).map ((name, val) :: ·)

/-- The value of the `Host` line that the client writes. -/
def hostValue (url : ChttpUrl) : List UInt8 :=
  if url.isUnix then ascii "localhost"
  else
    formatBracketedHost url.host url.isIpv6 ++
      if (url.isHttps && url.port = 443) || (!url.isHttps && url.port = 80) then [] else 0x3A :: decimal url.port

def leadingFields (hp : HeaderPresence) (url : ChttpUrl) (autoAuthorization : Option (List UInt8)) (drops : RedirectDrops) :
    List Field :=
  (if hp.hasHost && !drops.host then [] else [(ascii "host", hostValue url)]) ++
  (if hp.hasAccept then [] else [(ascii "accept", ascii "*/*")]) ++
  (if hp.hasUserAgent then [] else [(ascii "user-agent", ascii "c_collections-chttpclient/1.0")]) ++
  match autoAuthorization with
  | some auth => if hp.hasAuthorization && !drops.credentials then [] else [(ascii "authorization", auth)]
  | .none => []

/-- The `Content-Type` that comes with the body. -/
def contentTypeField (req : Request) (hp : HeaderPresence) : Except HttpRetval (List Field) :=
  match req.body.contentType with
  | some ct =>
    if hp.hasContentType || !req.method.bodyCarrying then .ok []
    else if headerValueIsValid ct then .ok [(ascii "content-type", ct)]
    else .error .invalidArgs
  | .none => .ok []

def trailingFields (req : Request) (hp : HeaderPresence) : List Field :=
  (if req.method.bodyCarrying && !hp.hasContentLength then [(ascii "content-length", decimal req.body.bytes.length)] else []) ++
  (if !hp.hasExpect && req.expectContinue && req.method.bodyCarrying && req.body.bytes ≠ [] then
    [(ascii "expect", ascii "100-continue")] else [])

def requestFields (req : Request) (url : ChttpUrl) (autoAuthorization : Option (List UInt8)) (drops : RedirectDrops) :
    Except HttpRetval (List Field) := do
  let hp := scanHeaderPresence req.headers
  if req.method = .any || hp.hasTransferEncoding then .error .invalidArgs
  else
    let caller ← callerFields req.method req.body.bytes.length drops [] req.headers
    let contentType ← contentTypeField req hp
    return leadingFields hp url autoAuthorization drops ++ caller ++ contentType ++ trailingFields req hp

def crlf : List UInt8 := [0x0D, 0x0A]

def fieldLine (f : Field) : List UInt8 := f.1 ++ ascii ": " ++ f.2 ++ crlf

def requestLine (method : Method) (url : ChttpUrl) : List UInt8 :=
  chttpMethodStr method ++ 0x20 :: url.pathAndQuery ++ ascii " HTTP/1.1"

def Request.bodyBytes (req : Request) : List UInt8 := if req.method.bodyCarrying then req.body.bytes else []

def serializeRequest (req : Request) (url : ChttpUrl) (autoAuthorization : Option (List UInt8)) (drops : RedirectDrops) :
    Except HttpRetval (List UInt8) :=
  (requestFields req url autoAuthorization drops).map fun fields =>
    requestLine req.method url ++ crlf ++ fields.flatMap fieldLine ++ crlf ++ req.bodyBytes

/-!
# Reading a request back

What a request parser has to report for the bytes of a request.
-/

def accepting : Settings := ⟨fun _ _ => 0⟩

/-- The lines of a request fit the limits of a parser. -/
structure Fits (config : Config) (req : Request) (url : ChttpUrl) (fields : List Field) : Prop where
  requestLine : (requestLine req.method url).length + 2 ≤ chttp1MaxLineLen
  lines : ∀ f ∈ fields, (fieldLine f).length ≤ chttp1MaxLineLen
  count : fields.length ≤ (parserInit .request config).effectiveMaxHeaderCount
  total : (Chttpclient.requestLine req.method url).length + 2 + (fields.flatMap fieldLine).length ≤
    (parserInit .request config).effectiveMaxTotalHeaderBytes
  /-- The length of a body is a `size_t`. -/
  body : req.body.bytes.length ≤ uint64Max

/-- The fields that are read are those of the header map that are written, and those that the client adds. -/
structure FieldsRead (req : Request) (drops : RedirectDrops) (fields : List Field) : Prop where
  distinct : fields.Pairwise fun f g => asciiCaseEq f.1 g.1 = false
  /-- The newest entry of the map gives the value. -/
  newest : ∀ f ∈ fields, ∀ g, leftOff req.method drops f.1 = false → req.headers.find? (fun g => asciiCaseEq g.1 f.1) = some g →
    f = (g.1, trimOws g.2)
  complete : ∀ g ∈ req.headers, leftOff req.method drops g.1 = false → ∃ f ∈ fields, asciiCaseEq f.1 g.1 = true
  host : fields.countP (nameIs ·.1 "host") = 1
  noTransferEncoding : ∀ f ∈ fields, nameIs f.1 "transfer-encoding" = false
  contentLength : req.method.bodyCarrying = true → fields.countP (nameIs ·.1 "content-length") = 1 ∧
    ∀ f ∈ fields, nameIs f.1 "content-length" = true → parseUint64Decimal f.2 = some req.body.bytes.length
  noBody : req.method.bodyCarrying = false → ∀ f ∈ fields, isBodyHeader f.1 = false

def requestEvents (method : Method) (target : List UInt8) (fields : List Field) (body : List UInt8) : List Event :=
  .requestLine (chttpMethodStr method) target 1 1 :: fields.map (fun f => .header f.1 f.2) ++ [.headersComplete 0 1 1] ++
    (if body = [] then [] else [.body body]) ++ [.messageComplete]

/-- A parser reads one message from some bytes, which ends with the last of them: the request. -/
structure ReadsBack (config : Config) (req : Request) (url : ChttpUrl) (drops : RedirectDrops) (wire : List UInt8) : Prop where
  complete : ((parserInit .request config).execute accepting wire).1 = .paused
  consumed : ((parserInit .request config).execute accepting wire).2.consumed = wire.length
  events : ∃ fields, FieldsRead req drops fields ∧
    ((parserInit .request config).execute accepting wire).2.log.map (·.event) =
      requestEvents req.method url.pathAndQuery fields (if req.method.bodyCarrying then req.body.bytes else [])

/-- The `Host` that the caller asked for, if it is written, is one. -/
def HostIsValid (req : Request) (drops : RedirectDrops) : Prop :=
  drops.host = false → ∀ f, req.headers.find? (nameIs ·.1 "host") = some f → hostValueIsValid (trimOws f.2) = true

end Ccollections.Chttpclient
