import Ccollections.Chttpclient.Request

/-!
# Following redirects

The hop loop of Tier 1 and the chain of the asynchronous tiers. What the connections and the server do with a request is
a parameter: a hop ends with an error or with a complete response. The asynchronous tiers also read from a connection
where it goes, and a connection of the idle pool may have been opened for another URL of the same origin.
-/

namespace Ccollections.Chttpclient

def chttpMaxRedirects : Nat := 50

/-- What a response says that matters for redirects: its status and its first `Location`. -/
structure Answer where
  status : Nat
  location : Option (List UInt8)
  deriving DecidableEq

def Answer.willRedirect (a : Answer) : Bool :=
  (a.status = 301 || a.status = 302 || a.status = 303 || a.status = 307 || a.status = 308) && a.location.getD [] ≠ []

def Answer.preserves (a : Answer) : Bool := a.status = 307 || a.status = 308

/-- A request of a hop, as it is handed to a connection. -/
structure HopRequest where
  url : List UInt8
  target : ChttpUrl
  method : Method
  body : Body
  effectiveAuth : Option (List UInt8)
  drops : RedirectDrops
  useContinue : Bool
  fields : List Field
  wire : List UInt8
  deriving DecidableEq

/-- How a request ended, with the requests that were sent for it. -/
structure Outcome where
  sent : List HopRequest
  result : Except HttpRetval Answer

/-- What the client is configured with, and what connections and servers do with the requests sent so far. -/
structure Client where
  tlsCtxUsable : Bool
  tlsCtxOom : Bool
  exchange : List HopRequest → Except HttpRetval Answer

/-! ## Preparing a hop -/

def tlsCtxUnusableCode (oom : Bool) : HttpRetval := if oom then .notEnoughMemory else .tlsCertLoadFailed

/-- An `Authorization` value from a URL and the origin of that URL. -/
abbrev CarriedAuth := Option (List UInt8 × List UInt8)

/-- The `Authorization` value for a hop. -/
def effectiveAuth (carried : CarriedAuth) (url : ChttpUrl) : Option (List UInt8) :=
  match url.userinfoAuthorization, carried with
  | some auth, _ => some auth
  | none, some (auth, origin) => if originKeysSame origin url.originKey then some auth else none
  | none, none => none

def carryAuth (carried : CarriedAuth) (url : ChttpUrl) : CarriedAuth :=
  match url.userinfoAuthorization, carried with
  | some auth, _ => some (auth, url.originKey)
  | none, some (auth, origin) => if originKeysSame origin url.originKey then some (auth, origin) else none
  | none, none => none

def hopUrl (cli : Client) (url : List UInt8) : Except HttpRetval ChttpUrl := do
  let target ← parseChttpUrl url
  if target.isHttps && !cli.tlsCtxUsable then .error (tlsCtxUnusableCode cli.tlsCtxOom) else return target

def hopRequest (req : Request) (url : List UInt8) (target : ChttpUrl) (method : Method) (body : Body)
    (auth : Option (List UInt8)) (drops : RedirectDrops) : Except HttpRetval HopRequest := do
  let hopReq := { req with method := method, body := body }
  let fields ← requestFields hopReq target auth drops
  let wire ← serializeRequest hopReq target auth drops
  return {
    url := url
    target := target
    method := method
    body := body
    effectiveAuth := auth
    drops := drops
    useContinue := req.expectContinue && !(scanHeaderPresence req.headers).hasExpect && method.bodyCarrying && body.bytes ≠ []
    fields := fields
    wire := wire }

def nextUrl (req : Request) (base : ChttpUrl) (answer : Answer) : Except HttpRetval (List UInt8) := do
  let next ← resolveRedirectUrl base (answer.location.getD [])
  match redirectTransportRefused base next req.preventTlsDowngradeOnRedirect with
  | some code => .error code
  | none => return next

/-! ## Tier 1 -/

/-- The locals of the hop loop of `chttp_do_internal`. -/
structure Tier1 where
  curUrl : List UInt8
  curMethod : Method
  curBody : Body
  carriedAuth : CarriedAuth
  initialOriginKey : Option (List UInt8)

def Tier1.prepare (cli : Client) (req : Request) (t : Tier1) : Except HttpRetval (HopRequest × Tier1) := do
  let target ← parseChttpUrl t.curUrl
  let drops := match t.initialOriginKey with
    | none => RedirectDrops.none
    | some initial => redirectHeaderDrops initial target.originKey
  if target.isHttps && !cli.tlsCtxUsable then .error (tlsCtxUnusableCode cli.tlsCtxOom)
  else
    let r ← hopRequest req t.curUrl target t.curMethod t.curBody (effectiveAuth t.carriedAuth target) drops
    return (r, { t with
      carriedAuth := carryAuth t.carriedAuth target
      initialOriginKey := some (t.initialOriginKey.getD target.originKey) })

def Tier1.follow (req : Request) (t : Tier1) (target : ChttpUrl) (answer : Answer) : Except HttpRetval Tier1 := do
  let next ← nextUrl req target answer
  if !answer.preserves && t.curMethod ≠ .head then return { t with curUrl := next, curMethod := .get, curBody := .empty }
  else return { t with curUrl := next }

/-- The hop loop, with `left` more redirects to follow after requests that were sent. -/
def Tier1.loop (cli : Client) (req : Request) : Nat → List HopRequest → Tier1 → Outcome
  | left, sent, t =>
    match t.prepare cli req with
    | .error code => ⟨sent, .error code⟩
    | .ok (r, t) =>
      match cli.exchange (sent ++ [r]) with
      | .error code => ⟨sent ++ [r], .error code⟩
      | .ok answer =>
        if answer.willRedirect then
          match left with
          | 0 => ⟨sent ++ [r], .error .tooManyRedirects⟩
          | left + 1 =>
            match t.follow req r.target answer with
            | .error code => ⟨sent ++ [r], .error code⟩
            | .ok t => t.loop cli req left (sent ++ [r])
        else ⟨sent ++ [r], .ok answer⟩

def chttpDoInternal (cli : Client) (req : Request) : Outcome :=
  Tier1.loop cli req chttpMaxRedirects [] {
    curUrl := req.url
    curMethod := req.method
    curBody := req.body
    carriedAuth := none
    initialOriginKey := none }

/-! ## The asynchronous tiers -/

/-- What a `chttp_async_ctx_t` keeps of the URL it was connected for while it is idle. -/
structure AsyncConn where
  isUnix : Bool
  unixSocketPath : List UInt8
  host : List UInt8
  port : Nat
  originKey : List UInt8
  deriving DecidableEq

def connOf (url : ChttpUrl) : AsyncConn where
  isUnix := url.isUnix
  unixSocketPath := url.unixSocketPath
  host := url.host
  port := url.port
  originKey := url.originKey

/-- A connection of the idle pool, with the URL of the hop that opened it. -/
structure IdleConn where
  url : List UInt8
  target : ChttpUrl
  parsed : parseChttpUrl url = .ok target

def IdleConn.conn (c : IdleConn) : AsyncConn := connOf c.target

/-- The fields of `chttp_async_chain_t` that a redirect reads or writes. -/
structure AsyncChain where
  carriedAuth : CarriedAuth
  initialOriginKey : List UInt8
  bodyDropped : Bool

/-- The fields of `chttp_async_ctx_t` that a redirect reads. -/
structure AsyncCtx where
  conn : AsyncConn
  isHttps : Bool
  isIpv6 : Bool
  pathAndQuery : List UInt8
  curMethod : Method

/-- `_async_idle_pool_take`. It finds only connections that are filed under the origin that was asked for. -/
def asyncIdlePoolTake (idle : Option IdleConn) (originKey : List UInt8) : Option AsyncConn :=
  (idle.map IdleConn.conn).filter (·.originKey = originKey)

/-- `_async_submit_hop`. `idle` is what the idle pool has for the hop. -/
def asyncSubmitHop (cli : Client) (idle : Option IdleConn) (req : Request) (chain : AsyncChain) (url : List UInt8)
    (method : Method) (body : Body) : Except HttpRetval (HopRequest × AsyncChain × AsyncCtx) := do
  let target ← parseChttpUrl url
  if target.isHttps && !cli.tlsCtxUsable then .error (tlsCtxUnusableCode cli.tlsCtxOom)
  else
    let drops := redirectHeaderDrops chain.initialOriginKey target.originKey
    let r ← hopRequest req url target method body (effectiveAuth chain.carriedAuth target) drops
    return (r, { chain with carriedAuth := carryAuth chain.carriedAuth target }, {
      conn := (asyncIdlePoolTake idle target.originKey).getD (connOf target)
      isHttps := target.isHttps
      isIpv6 := target.isIpv6
      pathAndQuery := target.pathAndQuery
      curMethod := method })

/-- The URL that `_async_handle_redirect` resolves a `Location` against. -/
def AsyncCtx.base (ctx : AsyncCtx) : ChttpUrl where
  isHttps := ctx.isHttps
  isIpv6 := ctx.isIpv6
  isUnix := ctx.conn.isUnix
  unixSocketPath := ctx.conn.unixSocketPath
  host := ctx.conn.host
  port := ctx.conn.port
  pathAndQuery := ctx.pathAndQuery
  originKey := []
  userinfoAuthorization := none

/-- The next hop of `_async_handle_redirect`: its URL, method and body, and the chain. -/
def asyncHandleRedirect (req : Request) (chain : AsyncChain) (ctx : AsyncCtx) (answer : Answer) :
    Except HttpRetval (List UInt8 × Method × Body × AsyncChain) := do
  let next ← nextUrl req ctx.base answer
  if !answer.preserves && ctx.curMethod ≠ .head then return (next, .get, .empty, { chain with bodyDropped := true })
  else return (next, ctx.curMethod, if chain.bodyDropped then .empty else req.body, chain)

def asyncChainLoop (cli : Client) (idle : Nat → Option IdleConn) (req : Request) (sent : List HopRequest) (chain : AsyncChain)
    (url : List UInt8) (method : Method) (body : Body) (hop : Nat) : Outcome :=
  match asyncSubmitHop cli (idle hop) req chain url method body with
  | .error code => ⟨sent, .error code⟩
  | .ok (r, chain, ctx) =>
    match cli.exchange (sent ++ [r]) with
    | .error code => ⟨sent ++ [r], .error code⟩
    | .ok answer =>
      if answer.willRedirect then
        if hop ≥ chttpMaxRedirects then ⟨sent ++ [r], .error .tooManyRedirects⟩
        else
          match asyncHandleRedirect req chain ctx answer with
          | .error code => ⟨sent ++ [r], .error code⟩
          | .ok (next, method, body, chain) => asyncChainLoop cli idle req (sent ++ [r]) chain next method body (hop + 1)
      else ⟨sent ++ [r], .ok answer⟩
termination_by chttpMaxRedirects - hop

/-- `_chttp_do_async_internal` and the hops that follow. -/
def chttpDoAsyncInternal (cli : Client) (idle : Nat → Option IdleConn) (req : Request) : Outcome :=
  match hopUrl cli req.url with
  | .error code => ⟨[], .error code⟩
  | .ok target =>
    asyncChainLoop cli idle req [] { carriedAuth := none, initialOriginKey := target.originKey, bodyDropped := false }
      req.url req.method req.body 0

/-! ## What is kept over a chain -/

def HopRequest.callerFields (req : Request) (r : HopRequest) : List Field :=
  (Chttpclient.callerFields r.method r.body.bytes.length r.drops [] req.headers).toOption.getD []

/-- Credentials stay with the origin they were given for. -/
structure CredentialsKept (req : Request) (sent : List HopRequest) : Prop where
  wire : ∀ r ∈ sent, parseChttpUrl r.url = .ok r.target ∧
    ∃ body, r.wire = requestLine r.method r.target ++ crlf ++ r.fields.flatMap fieldLine ++ crlf ++ body
  first : ∀ r₀ ∈ sent.head?, r₀.url = req.url
  /-- A credential on a hop is a field of the caller or comes from the userinfo of a URL. -/
  origin : ∀ r ∈ sent, ∀ f ∈ r.fields, isRedirectCredentialHeader f.1 = true →
    f ∈ r.callerFields req ∨ f.1 = ascii "authorization" ∧ r.effectiveAuth = some f.2
  credentials : ∀ r₀ ∈ sent.head?, ∀ r ∈ sent, ∀ f ∈ r.callerFields req, isRedirectCredentialHeader f.1 = true →
    f ∈ req.headers ∧ SameOrigin r₀.target r.target
  host : ∀ r₀ ∈ sent.head?, ∀ r ∈ sent, ∀ f ∈ r.callerFields req, nameIs f.1 "host" = true →
    f ∈ req.headers ∧ SameHost r₀.target r.target
  oneHost : ∀ r ∈ sent, r.fields.countP (nameIs ·.1 "host") = 1
  /-- A value from the userinfo of a URL goes to the hops of an unbroken run at the origin of that URL. -/
  userinfo : ∀ (i : Nat) (r : HopRequest) (auth : List UInt8), sent[i]? = some r → r.effectiveAuth = some auth →
    ∃ j r', j ≤ i ∧ sent[j]? = some r' ∧ r'.target.userinfoAuthorization = some auth ∧
      ∀ k r'', j ≤ k → k ≤ i → sent[k]? = some r'' →
        SameOrigin r'.target r''.target ∧ (j < k → r''.target.userinfoAuthorization = none)
  unix : ∀ (i : Nat) (r r' : HopRequest), sent[i]? = some r → sent[i + 1]? = some r' → r'.target.isUnix = true →
    r.target.isUnix = true ∧ r.target.unixSocketPath = r'.target.unixSocketPath

/-- How a chain uses the answers it gets. -/
structure FollowsPolicy (cli : Client) (req : Request) (out : Outcome) : Prop where
  atMost : out.sent.length ≤ chttpMaxRedirects + 1
  head : req.method = .head → ∀ r ∈ out.sent, r.method = .head
  /-- A body that was dropped stays dropped. -/
  dropped : ∀ (i : Nat) (r : HopRequest) (answer : Answer), out.sent[i]? = some r → r.method ≠ .head →
    cli.exchange (out.sent.take (i + 1)) = .ok answer → answer.preserves = false →
    ∀ k r', i < k → out.sent[k]? = some r' → r'.method = .get ∧ r'.body = .empty
  tooMany : ∀ answer, out.sent.length = chttpMaxRedirects + 1 → cli.exchange out.sent = .ok answer → answer.willRedirect = true →
    out.result = .error .tooManyRedirects

/-- Every hop on a connection of the idle pool spells its host like the URL that the connection was opened for. -/
def SpelledAlike (idle : Nat → Option IdleConn) (sent : List HopRequest) : Prop :=
  ∀ (i : Nat) (r : HopRequest) (conn : AsyncConn), sent[i]? = some r → asyncIdlePoolTake (idle i) r.target.originKey = some conn →
    conn.host = r.target.host

end Ccollections.Chttpclient
