import Ccollections.Chttpclient.Lemmas.Redirect
import Ccollections.Chttpclient.Lemmas.References
import Ccollections.Chttpclient.Lemmas.Wire

/-!
# Redirects
-/

namespace Ccollections.Chttpclient

/-- Over a whole chain of redirects, in every tier, credentials stay with the origin they were given for. -/
theorem redirects_keep_credentials (cli : Client) (req : Request) :
    CredentialsKept req (chttpDoInternal cli req).sent ∧
    ∀ idle, CredentialsKept req (chttpDoAsyncInternal cli idle req).sent := by
  constructor
  · obtain ⟨initial, hinitial⟩ : ∃ initial, ∀ target, parseChttpUrl req.url = .ok target → target.originKey = initial := by
      cases parseChttpUrl req.url with
      | error code => exact ⟨[], nofun⟩
      | ok target => exact ⟨target.originKey, fun _ h => by cases h; rfl⟩
    obtain ⟨rest, hsent, hchain, hfirst⟩ : ∃ rest, (chttpDoInternal cli req).sent = [] ++ rest ∧
        Chain req initial none none rest ∧ ∀ r₀ ∈ rest.head?, r₀.url = req.url :=
      Tier1.loop_chain (.inr ⟨rfl, hinitial⟩) (by simp)
    rw [hsent, List.nil_append]
    refine hchain.credentialsKept fun r₀ hr₀ => ⟨hfirst r₀ hr₀, ?_⟩
    obtain ⟨carried, hprepared⟩ := hchain.prepared r₀ (List.mem_of_mem_head? hr₀)
    apply hinitial
    rw [← hfirst r₀ hr₀]
    exact hprepared.parsed
  · intro idle
    rw [chttpDoAsyncInternal]
    cases hurl : hopUrl cli req.url with
    | error code =>
      have hnil : Chain req [] none none [] := .nil
      exact hnil.credentialsKept (by simp)
    | ok target =>
      obtain ⟨target', hparsed, hurl⟩ := except_bind_ok hurl
      have htarget : target' = target := by
        split at hurl
        · cases hurl
        · cases hurl
          rfl
      subst htarget
      dsimp only
      obtain ⟨rest, hsent, hchain, hfirst⟩ : ∃ rest,
          (asyncChainLoop cli idle req [] ⟨none, target'.originKey, false⟩ req.url req.method req.body 0).sent = [] ++ rest ∧
          Chain req target'.originKey none none rest ∧ ∀ r₀ ∈ rest.head?, r₀.url = req.url :=
        asyncChainLoop_chain (by simp)
      rw [hsent, List.nil_append]
      refine hchain.credentialsKept fun r₀ hr₀ => ⟨hfirst r₀ hr₀, ?_⟩
      obtain ⟨carried, hprepared⟩ := hchain.prepared r₀ (List.mem_of_mem_head? hr₀)
      have hsame := hprepared.parsed
      rw [hfirst r₀ hr₀, hparsed] at hsame
      cases hsame
      rfl

/-! ## The tiers compared -/

theorem chttpDoInternal_followsPolicy (cli : Client) (req : Request) : FollowsPolicy cli req (chttpDoInternal cli req) := by
  have hruns : Tier1.Runs cli chttpMaxRedirects [] (chttpDoInternal cli req) := Tier1.loop_runs
  refine ⟨by simpa using hruns.atMost, fun hhead => ?_, fun i r answer => hruns.dropped i r answer (Nat.zero_le _), ?_⟩
  · obtain ⟨rest, hsent, hall⟩ : ∃ rest, (chttpDoInternal cli req).sent = [] ++ rest ∧ ∀ r ∈ rest, r.method = .head :=
      Tier1.loop_keeps (P := fun m _ => m = .head) (fun _ _ h hne => absurd h hne) hhead
    rw [hsent]
    exact hall
  · intro answer hlen
    exact hruns.tooMany answer (by simpa using hlen)

/-- Where every pooled connection spells its host like the hop that takes it, the asynchronous tiers send and report
what Tier 1 does. -/
theorem tiers_walk_one_chain (cli : Client) (idle : Nat → Option IdleConn) (req : Request)
    (hspelled : SpelledAlike idle (chttpDoAsyncInternal cli idle req).sent) :
    chttpDoAsyncInternal cli idle req = chttpDoInternal cli req ∧ FollowsPolicy cli req (chttpDoInternal cli req) := by
  refine ⟨?_, chttpDoInternal_followsPolicy cli req⟩
  rw [chttpDoAsyncInternal] at hspelled ⊢
  cases hurl : hopUrl cli req.url with
  | error code =>
    -- The URL is refused before a chain is made; the first round of Tier 1 refuses it for the same reason.
    rw [chttpDoInternal, Tier1.loop, Tier1.prepare]
    rw [hopUrl] at hurl
    cases hparsed : parseChttpUrl req.url with
    | error code' =>
      rw [hparsed] at hurl
      cases hurl
      rfl
    | ok target =>
      rw [hparsed] at hurl
      dsimp only [bind, Except.bind] at hurl ⊢
      split at hurl
      · rename_i htls
        cases hurl
        rw [if_pos htls]
      · cases hurl
  | ok target =>
    rw [hurl] at hspelled
    obtain ⟨target', hparsed, hurl⟩ := except_bind_ok hurl
    have htarget : target' = target := by
      split at hurl
      · cases hurl
      · cases hurl
        rfl
    subst htarget
    refine Agree.loop rfl rfl ⟨rfl, rfl, rfl, rfl, .inr ⟨rfl, fun target h => ?_⟩, rfl⟩ hspelled
    rw [hparsed] at h
    cases h
    rfl

/-! ### A host in two spellings -/

def upperUrl : ChttpUrl :=
  (parseChttpUrl (ascii "http://A.test/")).toOption.getD ⟨false, false, false, [], [], 0, [], [], none⟩

def upperConn : IdleConn where
  url := ascii "http://A.test/"
  target := upperUrl
  parsed := by decide +kernel

def upperPool (hop : Nat) : Option IdleConn := if hop = 0 then none else some upperConn

/-- A server that redirects twice, first to `first` and then to a relative reference. -/
def redirectingServer (first : String) : Client where
  tlsCtxUsable := false
  tlsCtxOom := false
  exchange := fun sent => match sent.length with
    | 1 => .ok ⟨302, some (ascii first)⟩
    | 2 => .ok ⟨302, some (ascii "y")⟩
    | _ => .ok ⟨200, none⟩

def plainGet : Request where
  method := .get
  url := ascii "http://A.test/"
  headers := []
  body := .empty
  expectContinue := false
  preventTlsDowngradeOnRedirect := false

/-- Three hops that all spell the host in one way. -/
theorem tiers_walk_one_chain_spelled :
    (chttpDoAsyncInternal (redirectingServer "http://A.test/x") upperPool plainGet).sent.map (·.url) =
      [ascii "http://A.test/", ascii "http://A.test/x", ascii "http://A.test/y"] ∧
    chttpDoAsyncInternal (redirectingServer "http://A.test/x") upperPool plainGet =
      chttpDoInternal (redirectingServer "http://A.test/x") plainGet := by
  have hhosts : ∀ r ∈ (chttpDoAsyncInternal (redirectingServer "http://A.test/x") upperPool plainGet).sent,
      r.target.host = upperConn.conn.host := by decide +kernel
  refine ⟨by decide +kernel, (tiers_walk_one_chain _ upperPool plainGet fun i r conn hr htake => ?_).1⟩
  simp only [asyncIdlePoolTake, upperPool, Option.filter_eq_some_iff, Option.map_eq_some_iff] at htake
  obtain ⟨⟨c, hc, rfl⟩, -⟩ := htake
  split at hc
  · cases hc
  · cases hc
    exact (hhosts r (List.mem_of_getElem? hr)).symm

/-- On a connection that was opened for another spelling of the host, the relative reference is resolved against that
spelling. -/
theorem tiers_differ_in_spelling :
    (chttpDoInternal (redirectingServer "http://a.test/x") plainGet).sent.map (·.url) =
      [ascii "http://A.test/", ascii "http://a.test/x", ascii "http://a.test/y"] ∧
    (chttpDoAsyncInternal (redirectingServer "http://a.test/x") upperPool plainGet).sent.map (·.url) =
      [ascii "http://A.test/", ascii "http://a.test/x", ascii "http://A.test/y"] ∧
    (chttpDoAsyncInternal (redirectingServer "http://a.test/x") upperPool plainGet).sent ≠
      (chttpDoInternal (redirectingServer "http://a.test/x") plainGet).sent := by
  decide +kernel

/-!
# Serialized requests
-/

open Chttp1 Chttp1.Parser

/-- What a parser makes of a serialized request: it reads the request, or it refuses a `Host` that is none. -/
theorem execute_serialized {config : Config} {req : Request} {url : ChttpUrl} {auth : Option (List UInt8)} {drops : RedirectDrops}
    {fields : List Field} {wire : List UInt8} (hurl : Parsed url) (hauth : ∀ a, auth = some a → ∀ c ∈ a, isInvalidValueByte c = false)
    (hfields : requestFields req url auth drops = .ok fields) (hwire : serializeRequest req url auth drops = .ok wire)
    (hfits : Fits config req url fields) :
    (¬HostIsValid req drops ∧ ∃ q, (parserInit .request config).execute accepting wire = (.error, q)) ∨
    (HostIsValid req drops ∧ ReadsBack config req url drops wire) := by
  rw [serializeRequest, hfields] at hwire
  have hwire := Except.ok.inj hwire
  have hreadable := requestFields_readable hurl hauth hfits.body hfields
  have hhost := requestFields_hostIsValid hurl hfields
  have hread := requestFields_read hfields hreadable
  have hparts : wire = requestLine req.method url ++ crlf ++ (fields.flatMap fieldLine ++ (crlf ++ req.bodyBytes)) := by
    simp [← hwire]
  have hexecute : (parserInit .request config).execute accepting wire = (loop accepting wire.length).run (parserInit .request config, wire) := rfl
  obtain ⟨p, hstep, hreading⟩ := reading_requestLine wire.length req.body.bytes.length (fields.flatMap fieldLine ++ (crlf ++ req.bodyBytes))
    hurl.target.1 hurl.target.2 hfits.requestLine (Nat.le_trans (Nat.le_add_right _ _) hfits.total)
  rw [← hparts] at hstep
  have hfirst : (loop accepting wire.length).step (parserInit .request config, wire) = .inl _ := hstep
  rw [Lib.Machine.run_step hfirst] at hexecute
  rcases hreading.fields wire.length (crlf ++ req.bodyBytes) hreadable hfits.lines (requestFields_distinct hfields) hfits.count hfits.total with
    ⟨⟨f, hf, hname, hinvalid⟩, q, hrun⟩ | ⟨hvalid, p₁, hrun, hreading⟩
  · refine .inl ⟨fun hall => ?_, q, ?_⟩
    · cases hinvalid.symm.trans (hhost.mp hall f hf hname)
    · exact hexecute.trans hrun
  · have hlength : fields.any (nameIs ·.1 "content-length") = req.method.bodyCarrying := by
      cases hcarry : req.method.bodyCarrying with
      | true => exact List.any_eq_true.mpr (requestFields_contentLength hfields hcarry)
      | false =>
        refine List.any_eq_false.mpr fun f hf hname => ?_
        have hbody := requestFields_noBody hfields hcarry f hf
        simp [isBodyHeader, hname] at hbody
    rw [List.nil_append] at hreading
    obtain ⟨q, hend, hconsumed, hlog⟩ : ∃ q, (loop accepting wire.length).run (p₁, crlf ++ req.bodyBytes) = (.paused, q) ∧
        q.consumed = wire.length ∧ q.log.map (·.event) = p₁.log.map (·.event) ++ [.headersComplete 0 1 1] ++
          (if req.bodyBytes = [] then [] else [.body req.bodyBytes]) ++ [.messageComplete] := by
      refine hreading.end wire.length (countP_nameIs (requestFields_distinct hfields) (requestFields_host hfields)) ?_ ?_
      · intro hany
        rw [Request.bodyBytes, if_pos (hlength.symm.trans hany)]
      · intro hnone
        rw [Request.bodyBytes, if_neg (by simp [hlength.symm.trans hnone])]
    have hout := hexecute.trans (hrun.trans hend)
    refine .inr ⟨hhost.mpr hvalid, ⟨?_, ?_, _, hread, ?_⟩⟩
    · rw [hout]
    · rw [hout]
      exact hconsumed
    · rw [hout, hlog, hreading.log, requestEvents, Request.bodyBytes]
      simp

/-- A parser reads a serialized request back exactly when the `Host` that the caller asked for is one. -/
theorem serialized_request_reads_back_iff (config : Config) (req : Request) (text : List UInt8) (url : ChttpUrl)
    (auth : Option (List UInt8)) (drops : RedirectDrops) (fields : List Field) (wire : List UInt8) (hurl : parseChttpUrl text = .ok url)
    (hauth : ∀ a, auth = some a → ∃ text' url', parseChttpUrl text' = .ok url' ∧ url'.userinfoAuthorization = some a)
    (hfields : requestFields req url auth drops = .ok fields) (hwire : serializeRequest req url auth drops = .ok wire)
    (hfits : Fits config req url fields) : ReadsBack config req url drops wire ↔ HostIsValid req drops := by
  have hvalue : ∀ a, auth = some a → ∀ c ∈ a, isInvalidValueByte c = false := by
    intro a ha
    obtain ⟨text', url', hparsed, hcredentials⟩ := hauth a ha
    exact (parsed_of hparsed).userinfo hcredentials
  rcases execute_serialized (parsed_of hurl) hvalue hfields hwire hfits with ⟨hinvalid, q, herror⟩ | ⟨hvalid, hreads⟩
  · refine iff_of_false (fun hreads => ?_) hinvalid
    have hcomplete := hreads.complete
    rw [herror] at hcomplete
    cases hcomplete
  · exact iff_of_true hreads hvalid

/-! ### Two requests -/

def defaultLimits : Config := ⟨0, 0, 0, false, false⟩

def hostedRequest (method : Method) (host : String) (body : String) : Request where
  method := method
  url := ascii "http://a.test/x"
  headers := [(ascii "Host", ascii host), (ascii "X-One", ascii " 1 "), (ascii "x-one", ascii "0")]
  body := ⟨ascii body, some (ascii "text/plain")⟩
  expectContinue := true
  preventTlsDowngradeOnRedirect := false

def hostedUrl : ChttpUrl :=
  (parseChttpUrl (ascii "http://a.test/x")).toOption.getD ⟨false, false, false, [], [], 0, [], [], none⟩

def hostedFields (method : Method) (host : String) (body : String) : List Field :=
  (requestFields (hostedRequest method host body) hostedUrl none .none).toOption.getD []

def hostedWire (method : Method) (host : String) (body : String) : List UInt8 :=
  (serializeRequest (hostedRequest method host body) hostedUrl none .none).toOption.getD []

theorem fits_of_lengths {config : Config} {req : Request} {url : ChttpUrl} {fields : List Field}
    (h : ((requestLine req.method url).length + 2 ≤ chttp1MaxLineLen ∧ ∀ f ∈ fields, (fieldLine f).length ≤ chttp1MaxLineLen) ∧
      fields.length ≤ (parserInit .request config).effectiveMaxHeaderCount ∧
      (requestLine req.method url).length + 2 + (fields.flatMap fieldLine).length ≤
        (parserInit .request config).effectiveMaxTotalHeaderBytes ∧
      req.body.bytes.length ≤ uint64Max) : Fits config req url fields :=
  ⟨h.1.1, h.1.2, h.2.1, h.2.2.1, h.2.2.2⟩

/-- A `POST` with a body for a virtual host. -/
theorem serialized_request_reads_back_post :
    HostIsValid (hostedRequest .post "b.test:8080" "hello") .none ∧
    ReadsBack defaultLimits (hostedRequest .post "b.test:8080" "hello") hostedUrl .none (hostedWire .post "b.test:8080" "hello") := by
  have hvalid : HostIsValid (hostedRequest .post "b.test:8080" "hello") .none := by
    intro _ f hfind
    have hfirst : f = (ascii "Host", ascii "b.test:8080") := Option.some.inj hfind.symm
    rw [hfirst]
    decide +kernel
  have hfits : Fits defaultLimits (hostedRequest .post "b.test:8080" "hello") hostedUrl (hostedFields .post "b.test:8080" "hello") :=
    fits_of_lengths (by decide +kernel)
  exact ⟨hvalid, (serialized_request_reads_back_iff defaultLimits _ (ascii "http://a.test/x") hostedUrl none .none _ _ (by decide +kernel)
    nofun (by decide +kernel) (by decide +kernel) hfits).mpr hvalid⟩

/-- A blank in the `Host` passes the serializer and not the parser. -/
theorem serialized_request_not_read_back :
    parseChttpUrl (ascii "http://a.test/x") = .ok hostedUrl ∧
    serializeRequest (hostedRequest .get "b test" "") hostedUrl none .none = .ok (hostedWire .get "b test" "") ∧
    Fits defaultLimits (hostedRequest .get "b test" "") hostedUrl (hostedFields .get "b test" "") ∧
    ((parserInit .request defaultLimits).execute accepting (hostedWire .get "b test" "")).1 = .error ∧
    ((parserInit .request defaultLimits).execute accepting (hostedWire .get "b test" "")).2.reason = some "Invalid Host header value" ∧
    ¬ReadsBack defaultLimits (hostedRequest .get "b test" "") hostedUrl .none (hostedWire .get "b test" "") := by
  have hrun : ((parserInit .request defaultLimits).execute accepting (hostedWire .get "b test" "")).1 = .error ∧
      ((parserInit .request defaultLimits).execute accepting (hostedWire .get "b test" "")).2.reason =
        some "Invalid Host header value" := by decide +kernel
  have hfits : Fits defaultLimits (hostedRequest .get "b test" "") hostedUrl (hostedFields .get "b test" "") :=
    fits_of_lengths (by decide +kernel)
  have hurl : parseChttpUrl (ascii "http://a.test/x") = .ok hostedUrl ∧
      serializeRequest (hostedRequest .get "b test" "") hostedUrl none .none = .ok (hostedWire .get "b test" "") := by decide +kernel
  refine ⟨hurl.1, hurl.2, hfits, hrun.1, hrun.2, fun hreads => ?_⟩
  cases hrun.1.symm.trans hreads.complete

/-!
# URLs and redirect targets
-/

open Lib

/-! ## The grammar -/

/-- The parser accepts the URLs of the grammar, with these results, and a key of the idle pool stands for one origin. -/
theorem parseChttpUrl_grammar (url : List UInt8) :
    ((∃ u, parseChttpUrl url = .ok u) ↔ InGrammar url) ∧
    (∀ u, parseChttpUrl url = .ok u ↔ Accepts url u) ∧
    ∀ u, parseChttpUrl url = .ok u → Checked u ∧
      ∀ url' v, parseChttpUrl url' = .ok v → (u.originKey = v.originKey ↔ SameOrigin u v) := by
  constructor
  · constructor
    · rintro ⟨u, hu⟩
      exact (accepts_of_ok hu).inGrammar
    · intro h
      obtain ⟨u, hu⟩ := h.accepts
      exact ⟨u, ok_of_accepts hu⟩
  · constructor
    · intro u
      exact parseChttpUrl_iff
    · intro u hu
      refine ⟨(accepts_of_ok hu).checked, fun url' v hv => ?_⟩
      exact (parsed_of hu).originKey_iff (parsed_of hv)

/-- The form holds of `http://a%01b@h/`, whose user `Basic` cannot carry. -/
theorem parseChttpUrl_refuses_control :
    ∃ t : NetworkParts, HasScheme "http://" (ascii "http://a%01b@h/") t.text ∧ t.https = false ∧
      t.userinfo = some (ascii "a%01b") ∧ Userinfo (ascii "a%01b") [0x61, 0x01, 0x62] [] ∧
      t.isIpv6 = false ∧ RegName t.host ∧ t.port = none ∧ Tail t.pq t.fragment ∧
      parseChttpUrl (ascii "http://a%01b@h/") = .error .notEnoughMemory := by
  have hchars : uriUserinfoIsValid (ascii "a%01b") = true := by decide
  have hinfo : Userinfo (ascii "a%01b") [0x61, 0x01, 0x62] [] := by
    refine ⟨?_, percentDecodeComponent_iff.mp (by rfl), percentDecodeComponent_iff.mp (by rfl), by decide⟩
    simpa only [uriUserinfoIsValid, List.all_eq_true, Bool.or_eq_true, decide_eq_true_eq, or_assoc] using hchars
  have htail : Tail (ascii "/") [] :=
    ⟨.inr (.inl rfl), .byte (by decide) (by decide) .nil, by decide, by decide, by decide, .inl rfl⟩
  have hsplit : splitUserinfo (((ascii "http://a%01b@h/").drop 7).takeWhile (!endsAuthority ·)) = some (ascii "a%01b") := by decide
  have hauth : userinfoAuthorization (ascii "a%01b") = .error .notEnoughMemory := by rfl
  have hparse : parseChttpUrl (ascii "http://a%01b@h/") = .error .notEnoughMemory := by
    rw [parseChttpUrl, if_neg (by decide), if_pos (by decide), parseNetworkUrl, hsplit, urlAuthorization, hauth]
    rfl
  exact ⟨⟨false, some (ascii "a%01b"), false, ascii "h", none, ascii "/", []⟩, ⟨ascii "http://", by decide, by decide⟩, rfl, rfl,
    hinfo, rfl, uriRegNameIsValid_iff.mp (by decide), rfl, htail, hparse⟩

/-! ## Redirect targets -/

/-- A location leads where RFC 3986 says, and one that stays at its base's place has the base's origin. -/
theorem resolveRedirectUrl_rfc {url location : List UInt8} {u : ChttpUrl} (hu : parseChttpUrl url = .ok u) (hnul : 0 ∉ url)
    (hne : location ≠ []) :
    (∃ result, resolveRedirectUrl u location = .ok result ∧ RedirectsTo u location result) ∧
    ∀ path, NoDotSegment (removeDotSegments path) ∧ ∀ t, DotSegmentsRemoved path [] t ↔ t = removeDotSegments path := by
  constructor
  · exact resolveRedirectUrl_redirectsTo hu hnul hne
  · intro path
    exact ⟨removeDotSegments_noDotSegment path, fun t => dotSegmentsRemoved_iff⟩

def portedUrl : ChttpUrl :=
  (parseChttpUrl (ascii "https://[::1]:8443/a/b?q")).toOption.getD ⟨false, false, false, [], [], 0, [], [], none⟩

theorem resolveRedirectUrl_rfc_ported :
    (∃ result, resolveRedirectUrl portedUrl (ascii "../c?d/../e#f") = .ok result ∧
      RedirectsTo portedUrl (ascii "../c?d/../e#f") result) ∧
    ∀ path, NoDotSegment (removeDotSegments path) ∧ ∀ t, DotSegmentsRemoved path [] t ↔ t = removeDotSegments path :=
  resolveRedirectUrl_rfc (show parseChttpUrl (ascii "https://[::1]:8443/a/b?q") = .ok portedUrl by decide +kernel) (by decide) (by decide)

/-- A URL of another scheme keeps its dot segments, and a malformed escape in a path cannot be read back. -/
theorem resolveRedirectUrl_leaves_foreign :
    parseChttpUrl (ascii "https://[::1]:8443/a/b?q") = .ok portedUrl ∧
    resolveRedirectUrl portedUrl (ascii "ftp://h/a/../b") = .ok (ascii "ftp://h/a/../b") ∧
    (∀ t, UriReference.Resolves (baseReference portedUrl) (UriReference.ofText (ascii "ftp://h/a/../b")) t → t.text = ascii "ftp://h/b") ∧
    resolveRedirectUrl portedUrl (ascii "/%zz") = .ok (ascii "https://[::1]:8443/%zz") ∧
    parseChttpUrl (ascii "https://[::1]:8443/%zz") = .error .invalidUrl := by
  have hof : UriReference.ofText (ascii "ftp://h/a/../b") =
      ⟨some (ascii "ftp"), some (ascii "h"), ascii "/a/../b", none, none⟩ := by rfl
  refine ⟨by decide +kernel, by decide +kernel, fun t ht => ?_, by decide +kernel, by decide +kernel⟩
  rw [hof] at ht
  cases ht with
  | scheme _ hpath =>
    obtain rfl := dotSegmentsRemoved_iff.mp hpath
    decide +kernel
  | authority hscheme => cases hscheme
  | same hscheme => cases hscheme
  | absolute hscheme => cases hscheme
  | relative hscheme => cases hscheme

end Ccollections.Chttpclient
