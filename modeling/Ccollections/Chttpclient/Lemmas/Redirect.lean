import Ccollections.Chttpclient.Lemmas.Request

/-!
# Chains of hops
-/

namespace Ccollections.Chttpclient

open List

variable {cli : Client} {req : Request} {initial : List UInt8} {carried : CarriedAuth} {r : HopRequest}
  {target : ChttpUrl} {sent : List HopRequest} {prev : Option ChttpUrl}

/-- A request that was prepared for a hop, against the first origin and with what was carried to it. -/
structure Prepared (req : Request) (initial : List UInt8) (carried : CarriedAuth) (r : HopRequest) : Prop where
  parsed : parseChttpUrl r.url = .ok r.target
  fields : requestFields { req with method := r.method, body := r.body } r.target r.effectiveAuth r.drops = .ok r.fields
  wire : r.wire = requestLine r.method r.target ++ crlf ++ r.fields.flatMap fieldLine ++ crlf ++
    Request.bodyBytes { req with method := r.method, body := r.body }
  drops : r.drops = redirectHeaderDrops initial r.target.originKey
  auth : r.effectiveAuth = effectiveAuth carried r.target

inductive Chain (req : Request) (initial : List UInt8) : CarriedAuth → Option ChttpUrl → List HopRequest → Prop
  | nil {carried : CarriedAuth} {prev : Option ChttpUrl} : Chain req initial carried prev []
  | cons {carried : CarriedAuth} {prev : Option ChttpUrl} {r : HopRequest} {rest : List HopRequest}
      (hprepared : Prepared req initial carried r)
      (hunix : ∀ u, prev = some u → r.target.isUnix = true → u.isUnix = true ∧ u.unixSocketPath = r.target.unixSocketPath)
      (hrest : Chain req initial (carryAuth carried r.target) (some r.target) rest) : Chain req initial carried prev (r :: rest)

/-! ## One hop -/

theorem hopRequest_ok {url : List UInt8} {method : Method} {body : Body} {auth : Option (List UInt8)}
    {drops : RedirectDrops} (hparsed : parseChttpUrl url = .ok target)
    (h : hopRequest req url target method body auth drops = .ok r) (hdrops : drops = redirectHeaderDrops initial target.originKey)
    (hauth : auth = effectiveAuth carried target) :
    Prepared req initial carried r ∧ r.url = url ∧ r.target = target ∧ r.method = method ∧ r.body = body := by
  obtain ⟨fields, hfields, h⟩ := except_bind_ok h
  obtain ⟨wire, hwire, h⟩ := except_bind_ok h
  cases h
  rw [serializeRequest, hfields] at hwire
  cases hwire
  exact ⟨⟨hparsed, hfields, rfl, hdrops, hauth⟩, rfl, rfl, rfl, rfl⟩

theorem nextUrl_unix {base : ChttpUrl} {answer : Answer} {next : List UInt8}
    (h : nextUrl req base answer = .ok next) (hparsed : parseChttpUrl next = .ok target) (hunix : target.isUnix = true) :
    base.isUnix = true ∧ base.unixSocketPath = target.unixSocketPath := by
  obtain ⟨next', -, h⟩ := except_bind_ok h
  split at h
  · cases h
  · rename_i hallowed
    cases h
    simp only [redirectTransportRefused, startsWithCase_of_isUnix hparsed hunix, if_true, hparsed] at hallowed
    split at hallowed
    · cases hallowed
    · rename_i hbase
      split at hallowed
      · rename_i hsame
        simp only [Bool.and_eq_true, decide_eq_true_eq] at hsame
        exact ⟨by simpa using hbase, hsame.2.symm⟩
      · cases hallowed

theorem redirectHeaderDrops_self (key : List UInt8) : redirectHeaderDrops key key = .none := by
  have hsame : originKeysSame key key = true := by simp [originKeysSame, asciiCaseEq_refl]
  rw [redirectHeaderDrops, if_pos hsame]

/-! ## Tier 1 -/

def Tier1.ComparesWith (t : Tier1) (initial : List UInt8) : Prop :=
  t.initialOriginKey = some initial ∨
    t.initialOriginKey = none ∧ ∀ target, parseChttpUrl t.curUrl = .ok target → target.originKey = initial

theorem Tier1.prepare_ok {t t' : Tier1} (hinitial : t.ComparesWith initial)
    (h : t.prepare cli req = .ok (r, t')) :
    Prepared req initial t.carriedAuth r ∧ r.url = t.curUrl ∧ r.method = t.curMethod ∧ r.body = t.curBody ∧
      t' = { t with carriedAuth := carryAuth t.carriedAuth r.target, initialOriginKey := some initial } := by
  obtain ⟨target, hparsed, h⟩ := except_bind_ok h
  dsimp only at h
  split at h
  · cases h
  · obtain ⟨r', hr, h⟩ := except_bind_ok h
    cases h
    rcases hinitial with hinitial | ⟨hnone, hinitial⟩
    · rw [hinitial] at hr
      obtain ⟨hprepared, hurl, rfl, hmethod, hbody⟩ := hopRequest_ok hparsed hr rfl rfl
      exact ⟨hprepared, hurl, hmethod, hbody, by rw [hinitial]; rfl⟩
    · have hdrops : RedirectDrops.none = redirectHeaderDrops initial target.originKey := by
        rw [hinitial target hparsed, redirectHeaderDrops_self]
      rw [hnone] at hr
      obtain ⟨hprepared, hurl, rfl, hmethod, hbody⟩ := hopRequest_ok hparsed hr hdrops rfl
      exact ⟨hprepared, hurl, hmethod, hbody, by rw [hnone]; exact congrArg _ (congrArg some (hinitial _ hparsed))⟩

theorem Tier1.follow_ok {t t' : Tier1} {answer : Answer} (h : t.follow req target answer = .ok t') :
    nextUrl req target answer = .ok t'.curUrl ∧ t'.carriedAuth = t.carriedAuth ∧ t'.initialOriginKey = t.initialOriginKey := by
  obtain ⟨next, hnext, h⟩ := except_bind_ok h
  split at h
  · cases h
    exact ⟨hnext, rfl, rfl⟩
  · cases h
    exact ⟨hnext, rfl, rfl⟩

theorem Tier1.loop_cases (cli : Client) (req : Request) (left : Nat) (sent : List HopRequest) (t : Tier1) :
    (t.loop cli req left sent).sent = sent ∨
    ∃ r t₁, t.prepare cli req = .ok (r, t₁) ∧
      ((t.loop cli req left sent).sent = sent ++ [r] ∧ (∀ answer, left = 0 → cli.exchange (sent ++ [r]) = .ok answer →
        answer.willRedirect = true → (t.loop cli req left sent).result = .error .tooManyRedirects) ∨
      ∃ left' answer t₂, left = left' + 1 ∧ cli.exchange (sent ++ [r]) = .ok answer ∧ t₁.follow req r.target answer = .ok t₂ ∧
        t.loop cli req left sent = t₂.loop cli req left' (sent ++ [r])) := by
  rw [loop]
  cases hprepare : t.prepare cli req with
  | error code => exact .inl rfl
  | ok out =>
    obtain ⟨r, t₁⟩ := out
    refine .inr ⟨r, t₁, rfl, ?_⟩
    dsimp only
    cases hanswer : cli.exchange (sent ++ [r]) with
    | error code => exact .inl ⟨rfl, nofun⟩
    | ok answer =>
      dsimp only
      split
      · cases left with
        | zero => exact .inl ⟨rfl, fun _ _ _ _ => rfl⟩
        | succ left =>
          dsimp only
          cases hfollow : t₁.follow req r.target answer with
          | error code => exact .inl ⟨rfl, nofun⟩
          | ok t₂ => exact .inr ⟨left, answer, t₂, rfl, rfl, hfollow, rfl⟩
      · rename_i hfinal
        refine .inl ⟨rfl, fun answer' _ heq hredirect => absurd ?_ hfinal⟩
        cases heq
        exact hredirect

theorem Tier1.loop_chain {left : Nat} {t : Tier1} (hinitial : t.ComparesWith initial)
    (hunix : ∀ u target, prev = some u → parseChttpUrl t.curUrl = .ok target → target.isUnix = true →
      u.isUnix = true ∧ u.unixSocketPath = target.unixSocketPath) :
    ∃ rest, (t.loop cli req left sent).sent = sent ++ rest ∧ Chain req initial t.carriedAuth prev rest ∧
      ∀ r₀ ∈ rest.head?, r₀.url = t.curUrl := by
  induction left using Nat.strongRecOn generalizing sent t prev with
  | ind left ih =>
    rcases t.loop_cases cli req left sent with hsent | ⟨r, t₁, hprepare, hround⟩
    · exact ⟨[], hsent.trans (append_nil _).symm, .nil, by simp⟩
    · obtain ⟨hprepared, hurl, -, -, rfl⟩ := prepare_ok hinitial hprepare
      have hparsed : parseChttpUrl t.curUrl = .ok r.target := by
        rw [← hurl]
        exact hprepared.parsed
      have hlink : ∀ u, prev = some u → r.target.isUnix = true → u.isUnix = true ∧ u.unixSocketPath = r.target.unixSocketPath :=
        fun u hu => hunix u r.target hu hparsed
      rcases hround with ⟨hsent, -⟩ | ⟨left', answer, t₂, rfl, -, hfollow, hloop⟩
      · exact ⟨[r], hsent, .cons hprepared hlink .nil, fun r₀ hr₀ => by cases hr₀; exact hurl⟩
      · obtain ⟨hnext, hcarried, hinit⟩ := follow_ok hfollow
        obtain ⟨rest, hsent, hchain, -⟩ : ∃ rest, (t₂.loop cli req left' (sent ++ [r])).sent = sent ++ [r] ++ rest ∧
            Chain req initial t₂.carriedAuth (some r.target) rest ∧ ∀ r₀ ∈ rest.head?, r₀.url = t₂.curUrl := by
          refine ih left' (Nat.lt_succ_self _) (.inl hinit) fun u target hu hparsed htarget => ?_
          cases hu
          exact nextUrl_unix hnext hparsed htarget
        rw [hcarried] at hchain
        exact ⟨r :: rest, by rw [hloop, hsent, append_assoc]; rfl, .cons hprepared hlink hchain,
          fun r₀ hr₀ => by cases hr₀; exact hurl⟩

/-! ## The asynchronous tiers -/

theorem asyncSubmitHop_ok {idle : Option IdleConn} {chain chain' : AsyncChain} {url : List UInt8} {method : Method} {body : Body}
    {ctx : AsyncCtx} (h : asyncSubmitHop cli idle req chain url method body = .ok (r, chain', ctx)) :
    Prepared req chain.initialOriginKey chain.carriedAuth r ∧ r.url = url ∧ r.method = method ∧ r.body = body ∧
      chain' = { chain with carriedAuth := carryAuth chain.carriedAuth r.target } ∧
      ctx = {
        conn := (asyncIdlePoolTake idle r.target.originKey).getD (connOf r.target)
        isHttps := r.target.isHttps
        isIpv6 := r.target.isIpv6
        pathAndQuery := r.target.pathAndQuery
        curMethod := method } := by
  obtain ⟨target, hparsed, h⟩ := except_bind_ok h
  dsimp only at h
  split at h
  · cases h
  · obtain ⟨r', hr, h⟩ := except_bind_ok h
    cases h
    obtain ⟨hprepared, hurl, rfl, hmethod, hbody⟩ := hopRequest_ok hparsed hr rfl rfl
    exact ⟨hprepared, hurl, hmethod, hbody, rfl, rfl⟩

theorem conn_sameOrigin {idle : Option IdleConn} (htarget : Parsed target) :
    ∃ u, Parsed u ∧ (asyncIdlePoolTake idle target.originKey).getD (connOf target) = connOf u ∧ SameOrigin u target := by
  cases htake : asyncIdlePoolTake idle target.originKey with
  | none => exact ⟨target, htarget, rfl, ⟨rfl, rfl, rfl, rfl⟩, rfl, rfl⟩
  | some conn =>
    simp only [asyncIdlePoolTake, Option.filter_eq_some_iff, Option.map_eq_some_iff, decide_eq_true_eq] at htake
    obtain ⟨⟨c, -, rfl⟩, hkey⟩ := htake
    exact ⟨c.target, parsed_of c.parsed, rfl, (parsed_of c.parsed).sameOrigin htarget hkey⟩

theorem asyncHandleRedirect_ok {chain chain' : AsyncChain} {ctx : AsyncCtx} {answer : Answer} {next : List UInt8} {method : Method}
    {body : Body} (h : asyncHandleRedirect req chain ctx answer = .ok (next, method, body, chain')) :
    nextUrl req ctx.base answer = .ok next ∧ chain'.carriedAuth = chain.carriedAuth ∧
      chain'.initialOriginKey = chain.initialOriginKey := by
  obtain ⟨next', hnext, h⟩ := except_bind_ok h
  split at h
  · cases h
    exact ⟨hnext, rfl, rfl⟩
  · cases h
    exact ⟨hnext, rfl, rfl⟩

theorem asyncChainLoop_cases (cli : Client) (idle : Nat → Option IdleConn) (req : Request) (sent : List HopRequest) (chain : AsyncChain)
    (url : List UInt8) (method : Method) (body : Body) (hop : Nat) :
    (asyncChainLoop cli idle req sent chain url method body hop).sent = sent ∨
    ∃ r chain₁ ctx, asyncSubmitHop cli (idle hop) req chain url method body = .ok (r, chain₁, ctx) ∧
      ((asyncChainLoop cli idle req sent chain url method body hop).sent = sent ++ [r] ∨
      ∃ answer next method' body' chain₂, hop < chttpMaxRedirects ∧
        asyncHandleRedirect req chain₁ ctx answer = .ok (next, method', body', chain₂) ∧
        asyncChainLoop cli idle req sent chain url method body hop =
          asyncChainLoop cli idle req (sent ++ [r]) chain₂ next method' body' (hop + 1)) := by
  rw [asyncChainLoop]
  cases hsubmit : asyncSubmitHop cli (idle hop) req chain url method body with
  | error code => exact .inl rfl
  | ok out =>
    obtain ⟨r, chain₁, ctx⟩ := out
    refine .inr ⟨r, chain₁, ctx, rfl, ?_⟩
    dsimp only
    cases cli.exchange (sent ++ [r]) with
    | error code => exact .inl rfl
    | ok answer =>
      dsimp only
      split
      · split
        · exact .inl rfl
        · rename_i hhop
          cases hredirect : asyncHandleRedirect req chain₁ ctx answer with
          | error code => exact .inl rfl
          | ok out =>
            obtain ⟨next, method', body', chain₂⟩ := out
            exact .inr ⟨answer, next, method', body', chain₂, Nat.lt_of_not_le hhop, hredirect, rfl⟩
      · exact .inl rfl

theorem asyncChainLoop_chain {idle : Nat → Option IdleConn} {chain : AsyncChain} {url : List UInt8}
    {method : Method} {body : Body} {hop : Nat}
    (hunix : ∀ u target, prev = some u → parseChttpUrl url = .ok target → target.isUnix = true →
      u.isUnix = true ∧ u.unixSocketPath = target.unixSocketPath) :
    ∃ rest, (asyncChainLoop cli idle req sent chain url method body hop).sent = sent ++ rest ∧
      Chain req chain.initialOriginKey chain.carriedAuth prev rest ∧ ∀ r₀ ∈ rest.head?, r₀.url = url := by
  generalize hleft : chttpMaxRedirects - hop = left
  induction left using Nat.strongRecOn generalizing sent chain url method body hop prev with
  | ind left ih =>
    rcases asyncChainLoop_cases cli idle req sent chain url method body hop with hsent | ⟨r, chain₁, ctx, hsubmit, hround⟩
    · exact ⟨[], hsent.trans (append_nil _).symm, .nil, by simp⟩
    · obtain ⟨hprepared, hurl, -, -, rfl, rfl⟩ := asyncSubmitHop_ok hsubmit
      have hparsed : parseChttpUrl url = .ok r.target := by
        rw [← hurl]
        exact hprepared.parsed
      have hlink : ∀ u, prev = some u → r.target.isUnix = true → u.isUnix = true ∧ u.unixSocketPath = r.target.unixSocketPath :=
        fun u hu => hunix u r.target hu hparsed
      rcases hround with hsent | ⟨answer, next, method', body', chain₂, hhop, hredirect, hloop⟩
      · exact ⟨[r], hsent, .cons hprepared hlink .nil, fun r₀ hr₀ => by cases hr₀; exact hurl⟩
      · obtain ⟨hnext, hcarried, hinit⟩ := asyncHandleRedirect_ok hredirect
        obtain ⟨v, -, hconn, hsame⟩ : ∃ v, Parsed v ∧ _ = connOf v ∧ SameOrigin v r.target := conn_sameOrigin (parsed_of hprepared.parsed)
        obtain ⟨rest, hsent, hchain, -⟩ : ∃ rest,
            (asyncChainLoop cli idle req (sent ++ [r]) chain₂ next method' body' (hop + 1)).sent = sent ++ [r] ++ rest ∧
            Chain req chain₂.initialOriginKey chain₂.carriedAuth (some r.target) rest ∧ ∀ r₀ ∈ rest.head?, r₀.url = next := by
          refine ih (chttpMaxRedirects - (hop + 1)) (by omega) (fun u target hu hparsed htarget => ?_) rfl
          cases hu
          rw [hconn] at hnext
          obtain ⟨hbase, hpath⟩ := nextUrl_unix hnext hparsed htarget
          exact ⟨hsame.1.1 ▸ hbase, hsame.1.2.1 ▸ hpath⟩
        rw [hcarried, hinit] at hchain
        exact ⟨r :: rest, by rw [hloop, hsent, append_assoc]; rfl, .cons hprepared hlink hchain,
          fun r₀ hr₀ => by cases hr₀; exact hurl⟩

/-! ## What a chain keeps -/

theorem Chain.prepared (h : Chain req initial carried prev sent) :
    ∀ r ∈ sent, ∃ carried', Prepared req initial carried' r := by
  induction h with
  | nil => simp
  | cons hprepared hunix hrest ih => exact forall_mem_cons.mpr ⟨⟨_, hprepared⟩, ih⟩

theorem Chain.unix (h : Chain req initial carried prev sent) :
    ∀ (i : Nat) (r r' : HopRequest), sent[i]? = some r → sent[i + 1]? = some r' → r'.target.isUnix = true →
      r.target.isUnix = true ∧ r.target.unixSocketPath = r'.target.unixSocketPath := by
  induction h with
  | nil => simp
  | cons hprepared hunix hrest ih =>
    intro i r r' hr hr' htarget
    cases i with
    | succ i => exact ih i r r' hr hr' htarget
    | zero =>
      cases hr
      cases hrest with
      | nil => cases hr'
      | cons hprepared' hunix' hrest' =>
        cases hr'
        exact hunix' _ rfl htarget

theorem Prepared.callerFields (h : Prepared req initial carried r) :
    CallerFields r.method r.body.bytes.length r.drops [] req.headers (r.callerFields req) := by
  obtain ⟨caller, contentType, -, -, hcaller, -, -⟩ := requestFields_parts h.fields
  have heq : r.callerFields req = caller := by
    rw [HopRequest.callerFields, hcaller]
    rfl
  rw [heq]
  exact callerFields_spec hcaller

theorem Prepared.origin (h : Prepared req initial carried r) {f : Field} (hf : f ∈ r.fields)
    (hcred : isRedirectCredentialHeader f.1 = true) :
    f ∈ r.callerFields req ∨ f.1 = ascii "authorization" ∧ r.effectiveAuth = some f.2 := by
  obtain ⟨caller, contentType, -, -, hcaller, hct, hfields⟩ := requestFields_parts h.fields
  have heq : r.callerFields req = caller := by
    rw [HopRequest.callerFields, hcaller]
    rfl
  rw [hfields] at hf
  simp only [mem_append] at hf
  rcases hf with ((hf | hf) | hf) | hf
  · simp only [leadingFields, mem_append] at hf
    rcases hf with ((hf | hf) | hf) | hf
    · split at hf
      · cases hf
      · cases mem_singleton.mp hf
        exact absurd hcred (by simp only; decide)
    · split at hf
      · cases hf
      · cases mem_singleton.mp hf
        exact absurd hcred (by simp only; decide)
    · split at hf
      · cases hf
      · cases mem_singleton.mp hf
        exact absurd hcred (by simp only; decide)
    · split at hf
      · rename_i auth hauth
        split at hf
        · cases hf
        · cases mem_singleton.mp hf
          exact .inr ⟨rfl, hauth⟩
      · cases hf
  · exact .inl (heq ▸ hf)
  · have hown : OwnField req.headers r.method r.drops f "content-type" := contentTypeField_own hct hf
    rw [hown.name] at hcred
    exact absurd hcred (by decide)
  · obtain ⟨literal, hliteral, hown⟩ : ∃ literal ∈ ["content-length", "expect"], OwnField req.headers r.method r.drops f literal :=
      trailingFields_own hf
    have hnone : ∀ literal ∈ ["content-length", "expect"], isRedirectCredentialHeader (ascii literal) = false := by decide
    rw [hown.name, hnone literal hliteral] at hcred
    cases hcred

/-! ## Userinfo -/

/-- From the hop whose URL carried a value on, all hops are at its origin, and no later one up to `i` carries another.
-/
def UserinfoRun (sent : List HopRequest) (i : Nat) (auth key : List UInt8) : Prop :=
  ∃ j r', j ≤ i ∧ sent[j]? = some r' ∧ r'.target.userinfoAuthorization = some auth ∧ r'.target.originKey = key ∧
    ∀ k r'', j ≤ k → k ≤ i → sent[k]? = some r'' →
      SameOrigin r'.target r''.target ∧ (j < k → r''.target.userinfoAuthorization = none)

/-- What is carried to the hop after some hops comes from a run that ends with the last of them. -/
def CarriedFrom (before : List HopRequest) (carried : CarriedAuth) : Prop :=
  ∀ auth key, carried = some (auth, key) → ∃ i, i + 1 = before.length ∧ UserinfoRun before i auth key

theorem SameOrigin.refl (u : ChttpUrl) : SameOrigin u u := ⟨⟨rfl, rfl, rfl, rfl⟩, rfl, rfl⟩

theorem userinfoRun_self {before : List HopRequest} {auth : List UInt8}
    (h : r.target.userinfoAuthorization = some auth) : UserinfoRun (before ++ [r]) before.length auth r.target.originKey := by
  refine ⟨before.length, r, Nat.le_refl _, by simp, h, rfl, fun k r'' hj hk hr => ?_⟩
  cases Nat.le_antisymm hk hj
  rw [List.getElem?_concat_length] at hr
  cases hr
  exact ⟨.refl _, fun h => absurd h (Nat.lt_irrefl _)⟩

theorem UserinfoRun.extend {before : List HopRequest} {i : Nat} {auth key : List UInt8} (hi : i + 1 = before.length)
    (hrun : UserinfoRun before i auth key) (hbefore : ∀ r' ∈ before, Parsed r'.target) (hr : Parsed r.target)
    (hsame : originKeysSame key r.target.originKey = true) (hnone : r.target.userinfoAuthorization = none) :
    UserinfoRun (before ++ [r]) before.length auth key := by
  obtain ⟨j, r', hj, hr', hauth, rfl, hall⟩ := hrun
  have hparsed := hbefore r' (mem_of_getElem? hr')
  have horigin := hparsed.sameOrigin hr ((hparsed.originKeysSame_iff hr).mp hsame)
  refine ⟨j, r', by omega, ?_, hauth, rfl, fun k r'' hjk hk hr'' => ?_⟩
  · rw [List.getElem?_append_left (by omega)]
    exact hr'
  · by_cases hlast : k = before.length
    · subst hlast
      rw [List.getElem?_concat_length] at hr''
      cases hr''
      exact ⟨horigin, fun _ => hnone⟩
    · rw [List.getElem?_append_left (by omega)] at hr''
      exact hall k r'' hjk (by omega) hr''

theorem UserinfoRun.append {sent rest : List HopRequest} {i : Nat} {auth key : List UInt8} (hi : i < sent.length)
    (hrun : UserinfoRun sent i auth key) : UserinfoRun (sent ++ rest) i auth key := by
  obtain ⟨j, r', hj, hr', hauth, hkey, hall⟩ := hrun
  refine ⟨j, r', hj, ?_, hauth, hkey, fun k r'' hjk hk hr'' => ?_⟩
  · rw [List.getElem?_append_left (by omega)]
    exact hr'
  · rw [List.getElem?_append_left (by omega)] at hr''
    exact hall k r'' hjk hk hr''

theorem userinfo_hop {before : List HopRequest} (hcarried : CarriedFrom before carried)
    (hbefore : ∀ r' ∈ before, Parsed r'.target) (hr : Prepared req initial carried r) :
    (∀ auth, r.effectiveAuth = some auth → ∃ key, UserinfoRun (before ++ [r]) before.length auth key) ∧
    CarriedFrom (before ++ [r]) (carryAuth carried r.target) := by
  have hparsed := parsed_of hr.parsed
  have hlen : before.length + 1 = (before ++ [r]).length := by simp
  rw [hr.auth]
  cases huser : r.target.userinfoAuthorization with
  | some auth =>
    simp only [effectiveAuth, carryAuth, huser]
    refine ⟨fun auth' h => ?_, fun auth' key h => ?_⟩
    · cases h
      exact ⟨_, userinfoRun_self huser⟩
    · cases h
      exact ⟨before.length, hlen, userinfoRun_self huser⟩
  | none =>
    cases carried with
    | none =>
      simp only [effectiveAuth, carryAuth, huser]
      exact ⟨nofun, nofun⟩
    | some c =>
      obtain ⟨auth, key⟩ := c
      obtain ⟨i, hi, hrun⟩ := hcarried auth key rfl
      simp only [effectiveAuth, carryAuth, huser]
      split
      · rename_i hsame
        have hnext := hrun.extend hi hbefore hparsed hsame huser
        refine ⟨fun auth' h => ?_, fun auth' key' h => ?_⟩
        · cases h
          exact ⟨key, hnext⟩
        · cases h
          exact ⟨before.length, hlen, hnext⟩
      · exact ⟨nofun, nofun⟩

theorem Chain.userinfo {before rest : List HopRequest} (h : Chain req initial carried prev rest)
    (hcarried : CarriedFrom before carried) (hbefore : ∀ r ∈ before, Parsed r.target) :
    ∀ (i : Nat) (r : HopRequest) (auth : List UInt8), before.length ≤ i → (before ++ rest)[i]? = some r →
      r.effectiveAuth = some auth → ∃ key, UserinfoRun (before ++ rest) i auth key := by
  induction h generalizing before with
  | nil =>
    intro i r auth hi hr
    rw [append_nil, List.getElem?_eq_none hi] at hr
    cases hr
  | @cons carried prev r rest hprepared hunix hrest ih =>
    intro i r' auth hi hr' hauth
    obtain ⟨hsend, hcarry⟩ := userinfo_hop hcarried hbefore hprepared
    have hassoc : before ++ r :: rest = before ++ [r] ++ rest := by simp
    rw [hassoc] at hr' ⊢
    by_cases hlast : i = before.length
    · subst hlast
      rw [List.getElem?_append_left (by simp), List.getElem?_concat_length] at hr'
      cases hr'
      obtain ⟨key, hrun⟩ := hsend auth hauth
      exact ⟨key, hrun.append (by simp)⟩
    · have hparsed : ∀ r' ∈ before ++ [r], Parsed r'.target := by
        intro r' hr'
        rcases mem_append.mp hr' with hr' | hr'
        · exact hbefore r' hr'
        · cases mem_singleton.mp hr'
          exact parsed_of hprepared.parsed
      exact ih hcarry hparsed i r' auth (by simp; omega) hr' hauth

/-! ## Credentials -/

theorem Chain.credentialsKept (h : Chain req initial none none sent)
    (hfirst : ∀ r₀ ∈ sent.head?, r₀.url = req.url ∧ r₀.target.originKey = initial) : CredentialsKept req sent := by
  have hparsed : ∀ r ∈ sent, Parsed r.target := fun r hr => by
    obtain ⟨carried, hprepared⟩ := h.prepared r hr
    exact parsed_of hprepared.parsed
  refine ⟨?_, fun r₀ hr₀ => (hfirst r₀ hr₀).1, ?_, ?_, ?_, ?_, ?_, h.unix⟩
  · intro r hr
    obtain ⟨carried, hprepared⟩ := h.prepared r hr
    exact ⟨hprepared.parsed, _, hprepared.wire⟩
  · intro r hr f hf hcred
    obtain ⟨carried, hprepared⟩ := h.prepared r hr
    exact hprepared.origin hf hcred
  · intro r₀ hr₀ r hr f hf hcred
    obtain ⟨carried, hprepared⟩ := h.prepared r hr
    have hkept := hprepared.callerFields.kept f hf
    refine ⟨hprepared.callerFields.sublist.subset hf, ?_⟩
    have hdrops : r.drops.credentials = false := by
      simp only [leftOff, Bool.or_eq_false_iff, Bool.and_eq_false_iff] at hkept
      exact hkept.1.2.resolve_right (by simp [hcred])
    rw [hprepared.drops, ← (hfirst r₀ hr₀).2] at hdrops
    exact ((hparsed r₀ (mem_of_mem_head? hr₀)).drops (hparsed r hr)).1 hdrops
  · intro r₀ hr₀ r hr f hf hname
    obtain ⟨carried, hprepared⟩ := h.prepared r hr
    have hkept := hprepared.callerFields.kept f hf
    refine ⟨hprepared.callerFields.sublist.subset hf, ?_⟩
    have hdrops : r.drops.host = false := by
      simp only [leftOff, Bool.or_eq_false_iff, Bool.and_eq_false_iff] at hkept
      exact hkept.2.resolve_right (by simp [hname])
    rw [hprepared.drops, ← (hfirst r₀ hr₀).2] at hdrops
    exact ((hparsed r₀ (mem_of_mem_head? hr₀)).drops (hparsed r hr)).2 hdrops
  · intro r hr
    obtain ⟨carried, hprepared⟩ := h.prepared r hr
    exact countP_nameIs (requestFields_distinct hprepared.fields) (requestFields_host hprepared.fields)
  · intro i r auth hr hauth
    have hnone : CarriedFrom [] none := by rintro _ _ ⟨⟩
    obtain ⟨key, j, r', hj, hr', hauth', -, hall⟩ := h.userinfo hnone (by simp) i r auth (Nat.zero_le _) hr hauth
    exact ⟨j, r', hj, hr', hauth', hall⟩

/-!
# The two implementations of a redirect chain
-/

open List

variable {cli : Client} {req : Request} {idle : Nat → Option IdleConn} {sent : List HopRequest}

/-! ## What Tier 1 does with answers -/

theorem Tier1.prepare_same {t t' : Tier1} {r : HopRequest} (h : t.prepare cli req = .ok (r, t')) :
    r.method = t.curMethod ∧ r.body = t.curBody ∧ t'.curMethod = t.curMethod ∧ t'.curBody = t.curBody := by
  obtain ⟨target, hparsed, h⟩ := except_bind_ok h
  dsimp only at h
  split at h
  · cases h
  · obtain ⟨r', hr, h⟩ := except_bind_ok h
    cases h
    obtain ⟨fields, hfields, hr⟩ := except_bind_ok hr
    obtain ⟨wire, hwire, hr⟩ := except_bind_ok hr
    cases hr
    exact ⟨rfl, rfl, rfl, rfl⟩

theorem Tier1.follow_method {t t' : Tier1} {target : ChttpUrl} {answer : Answer} (h : t.follow req target answer = .ok t') :
    t'.curMethod = t.curMethod ∧ t'.curBody = t.curBody ∧ (answer.preserves = true ∨ t.curMethod = .head) ∨
    t'.curMethod = .get ∧ t'.curBody = .empty ∧ t.curMethod ≠ .head := by
  obtain ⟨next, hnext, h⟩ := except_bind_ok h
  split at h
  · rename_i hdrop
    cases h
    simp only [Bool.and_eq_true, decide_eq_true_eq] at hdrop
    exact .inr ⟨rfl, rfl, hdrop.2⟩
  · rename_i hkeep
    cases h
    refine .inl ⟨rfl, rfl, ?_⟩
    by_contra hboth
    rw [not_or] at hboth
    exact hkeep (by simp [hboth.1, hboth.2])

theorem Tier1.loop_keeps {P : Method → Body → Prop} (hget : ∀ m b, P m b → m ≠ .head → P .get .empty) {left : Nat}
    {t : Tier1} (ht : P t.curMethod t.curBody) :
    ∃ rest, (t.loop cli req left sent).sent = sent ++ rest ∧ ∀ r ∈ rest, P r.method r.body := by
  induction left using Nat.strongRecOn generalizing sent t with
  | ind left ih =>
    rcases t.loop_cases cli req left sent with hsent | ⟨r, t₁, hprepare, hround⟩
    · exact ⟨[], hsent.trans (append_nil _).symm, by simp⟩
    · obtain ⟨hmethod, hbody, hmethod₁, hbody₁⟩ := prepare_same hprepare
      have hr : P r.method r.body := by
        rw [hmethod, hbody]
        exact ht
      rcases hround with ⟨hsent, -⟩ | ⟨left', answer, t₂, rfl, -, hfollow, hloop⟩
      · exact ⟨[r], hsent, by simpa using hr⟩
      · have ht₂ : P t₂.curMethod t₂.curBody := by
          rcases follow_method hfollow with ⟨hm, hb, -⟩ | ⟨hm, hb, hne⟩
          · rw [hm, hb, hmethod₁, hbody₁]
            exact ht
          · rw [hm, hb]
            exact hget _ _ ht (hmethod₁ ▸ hne)
        obtain ⟨rest, hsent, hall⟩ : ∃ rest, (t₂.loop cli req left' (sent ++ [r])).sent = sent ++ [r] ++ rest ∧
            ∀ r ∈ rest, P r.method r.body := ih left' (Nat.lt_succ_self _) ht₂
        exact ⟨r :: rest, by rw [hloop, hsent, append_assoc]; rfl, forall_mem_cons.mpr ⟨hr, hall⟩⟩

structure Tier1.Runs (cli : Client) (left : Nat) (sent : List HopRequest) (out : Outcome) : Prop where
  begins : sent <+: out.sent
  atMost : out.sent.length ≤ sent.length + left + 1
  dropped : ∀ (i : Nat) (r : HopRequest) (answer : Answer), sent.length ≤ i → out.sent[i]? = some r → r.method ≠ .head →
    cli.exchange (out.sent.take (i + 1)) = .ok answer → answer.preserves = false →
    ∀ k r', i < k → out.sent[k]? = some r' → r'.method = .get ∧ r'.body = .empty
  tooMany : ∀ answer, out.sent.length = sent.length + left + 1 → cli.exchange out.sent = .ok answer → answer.willRedirect = true →
    out.result = .error .tooManyRedirects

theorem Tier1.loop_runs {left : Nat} {t : Tier1} : Runs cli left sent (t.loop cli req left sent) := by
  induction left using Nat.strongRecOn generalizing sent t with
  | ind left ih =>
    rcases t.loop_cases cli req left sent with hsent | ⟨r, t₁, hprepare, hround⟩
    · refine ⟨?_, ?_, ?_, ?_⟩
      · exact ⟨[], by rw [hsent, append_nil]⟩
      · rw [hsent]
        omega
      · intro i r answer hi hr
        rw [hsent, List.getElem?_eq_none hi] at hr
        cases hr
      · intro answer hlen
        rw [hsent] at hlen
        omega
    · rcases hround with ⟨hsent, hlast⟩ | ⟨left', answer, t₂, rfl, hanswer, hfollow, hloop⟩
      · refine ⟨?_, ?_, ?_, ?_⟩
        · rw [hsent]
          exact prefix_append _ _
        · rw [hsent, length_append, length_singleton]
          omega
        · intro i r' answer hi hr' _ _ _ k r'' hk hr''
          have hlen : k < (sent ++ [r]).length := by
            rw [hsent] at hr''
            exact (List.getElem?_eq_some_iff.mp hr'').1
          rw [length_append, length_singleton] at hlen
          omega
        · intro answer hlen hanswer hredirect
          rw [hsent, length_append, length_singleton] at hlen
          rw [hsent] at hanswer
          exact hlast answer (by omega) hanswer hredirect
      · have hruns : Runs cli left' (sent ++ [r]) (t₂.loop cli req left' (sent ++ [r])) := ih left' (Nat.lt_succ_self _)
        have hlength : (sent ++ [r]).length = sent.length + 1 := by simp
        rw [hloop]
        refine ⟨(prefix_append _ _).trans hruns.begins, ?_, ?_, ?_⟩
        · have hmost := hruns.atMost
          omega
        · intro i r' answer' hi hr' hhead hexchange hpreserves k r'' hk hr''
          by_cases hhere : i = sent.length
          · -- The answer to this hop drops the body for good.
            subst hhere
            have htake : (t₂.loop cli req left' (sent ++ [r])).sent.take (sent.length + 1) = sent ++ [r] := by
              rw [← hlength]
              exact (prefix_iff_eq_take.mp hruns.begins).symm
            have hr : r' = r := by
              obtain ⟨rest, hrest⟩ := hruns.begins
              rw [← hrest, List.getElem?_append_left (by omega), List.getElem?_concat_length] at hr'
              cases hr'
              rfl
            subst hr
            rw [htake, hanswer] at hexchange
            cases hexchange
            obtain ⟨hmethod, -, hmethod₁, -⟩ := prepare_same hprepare
            have ht₂ : t₂.curMethod = .get ∧ t₂.curBody = .empty := by
              rcases follow_method hfollow with ⟨-, -, hkeep | hkeep⟩ | ⟨hm, hb, -⟩
              · cases hpreserves.symm.trans hkeep
              · exact absurd (hmethod.trans (hmethod₁.symm.trans hkeep)) hhead
              · exact ⟨hm, hb⟩
            obtain ⟨rest, hsent, hall⟩ : ∃ rest, (t₂.loop cli req left' (sent ++ [r'])).sent = sent ++ [r'] ++ rest ∧
                ∀ r ∈ rest, r.method = .get ∧ r.body = .empty := 
              loop_keeps (P := fun m b => m = .get ∧ b = .empty) (fun _ _ _ _ => ⟨rfl, rfl⟩) ht₂
            rw [hsent, List.getElem?_append_right (by omega)] at hr''
            exact hall r'' (mem_of_getElem? hr'')
          · exact hruns.dropped i r' answer' (by omega) hr' hhead hexchange hpreserves k r'' hk hr''
        · intro answer' hlen hexchange hredirect
          exact hruns.tooMany answer' (by omega) hexchange hredirect

/-! ## The tiers walk one chain -/

structure Agree (req : Request) (t : Tier1) (chain : AsyncChain) (url : List UInt8) (method : Method) (body : Body) : Prop where
  curUrl : t.curUrl = url
  curMethod : t.curMethod = method
  curBody : t.curBody = body
  carriedAuth : t.carriedAuth = chain.carriedAuth
  initial : t.ComparesWith chain.initialOriginKey
  /-- The chain finds the body again from its flag. -/
  dropped : body = if chain.bodyDropped then .empty else req.body

variable {t : Tier1} {chain : AsyncChain} {url : List UInt8} {method : Method} {body : Body}

theorem Agree.prepare (cli : Client) (conn : Option IdleConn) (h : Agree req t chain url method body) :
    (∃ code, t.prepare cli req = .error code ∧ asyncSubmitHop cli conn req chain url method body = .error code) ∨
    ∃ r t₁ chain₁ ctx, t.prepare cli req = .ok (r, t₁) ∧ asyncSubmitHop cli conn req chain url method body = .ok (r, chain₁, ctx) := by
  obtain ⟨rfl, rfl, rfl, hcarried, hinitial, -⟩ := h
  rw [Tier1.prepare, asyncSubmitHop, hcarried]
  cases hparsed : parseChttpUrl t.curUrl with
  | error code => exact .inl ⟨code, rfl, rfl⟩
  | ok target =>
    dsimp only [bind, Except.bind]
    split
    · exact .inl ⟨_, rfl, rfl⟩
    · rcases hinitial with hinitial | ⟨hnone, hinitial⟩
      · rw [hinitial]
        cases hopRequest req t.curUrl target t.curMethod t.curBody (effectiveAuth chain.carriedAuth target)
            (redirectHeaderDrops chain.initialOriginKey target.originKey) with
        | error code => exact .inl ⟨code, rfl, rfl⟩
        | ok r => exact .inr ⟨_, _, _, _, rfl, rfl⟩
      · -- The first hop: nothing is dropped between an origin and itself.
        rw [hnone, ← hinitial target hparsed, redirectHeaderDrops_self]
        cases hopRequest req t.curUrl target t.curMethod t.curBody (effectiveAuth chain.carriedAuth target) .none with
        | error code => exact .inl ⟨code, rfl, rfl⟩
        | ok r => exact .inr ⟨_, _, _, _, rfl, rfl⟩

theorem nextUrl_base {conn : Option IdleConn} {target : ChttpUrl} {answer : Answer} (htarget : Parsed target)
    (hspelled : ∀ c, asyncIdlePoolTake conn target.originKey = some c → c.host = target.host) :
    nextUrl req (AsyncCtx.base ⟨(asyncIdlePoolTake conn target.originKey).getD (connOf target), target.isHttps, target.isIpv6,
      target.pathAndQuery, method⟩) answer = nextUrl req target answer := by
  have hhost : ((asyncIdlePoolTake conn target.originKey).getD (connOf target)).host = target.host := by
    cases htake : asyncIdlePoolTake conn target.originKey with
    | none => rfl
    | some c => exact hspelled c htake
  obtain ⟨u, -, hconn, ⟨hunix, hpath, -, -⟩, -, hport⟩ : ∃ u, Parsed u ∧
      (asyncIdlePoolTake conn target.originKey).getD (connOf target) = connOf u ∧ SameOrigin u target := conn_sameOrigin htarget
  rw [hconn] at hhost ⊢
  have hbase : AsyncCtx.base ⟨connOf u, target.isHttps, target.isIpv6, target.pathAndQuery, method⟩ =
      { target with originKey := [], userinfoAuthorization := none } := by
    rw [AsyncCtx.base]
    dsimp only [connOf] at hhost ⊢
    rw [hunix, hpath, hhost, hport]
  rw [hbase]
  rfl

theorem Agree.follow {conn : Option IdleConn} {r : HopRequest} {t₁ : Tier1} {chain₁ : AsyncChain} {ctx : AsyncCtx} (answer : Answer)
    (h : Agree req t chain url method body) (hprepare : t.prepare cli req = .ok (r, t₁))
    (hsubmit : asyncSubmitHop cli conn req chain url method body = .ok (r, chain₁, ctx))
    (hspelled : ∀ c, asyncIdlePoolTake conn r.target.originKey = some c → c.host = r.target.host) :
    (∃ code, t₁.follow req r.target answer = .error code ∧ asyncHandleRedirect req chain₁ ctx answer = .error code) ∨
    ∃ t₂ next method' body' chain₂, t₁.follow req r.target answer = .ok t₂ ∧
      asyncHandleRedirect req chain₁ ctx answer = .ok (next, method', body', chain₂) ∧ Agree req t₂ chain₂ next method' body' := by
  obtain ⟨hprepared, -, -, -, rfl⟩ := Tier1.prepare_ok h.initial hprepare
  obtain ⟨-, -, -, -, rfl, rfl⟩ := asyncSubmitHop_ok hsubmit
  obtain ⟨rfl, rfl, rfl, hcarried, -, hdropped⟩ := h
  rw [Tier1.follow, asyncHandleRedirect, nextUrl_base (parsed_of hprepared.parsed) hspelled, hcarried]
  cases nextUrl req r.target answer with
  | error code => exact .inl ⟨code, rfl, rfl⟩
  | ok next =>
    dsimp only [bind, Except.bind]
    split
    · exact .inr ⟨_, _, _, _, _, rfl, rfl, rfl, rfl, rfl, rfl, .inl rfl, rfl⟩
    · exact .inr ⟨_, _, _, _, _, rfl, rfl, rfl, rfl, hdropped, rfl, .inl rfl, rfl⟩

theorem asyncChainLoop_sent {hop : Nat} {r : HopRequest} {chain₁ : AsyncChain} {ctx : AsyncCtx}
    (hsubmit : asyncSubmitHop cli (idle hop) req chain url method body = .ok (r, chain₁, ctx)) :
    sent ++ [r] <+: (asyncChainLoop cli idle req sent chain url method body hop).sent := by
  rw [asyncChainLoop, hsubmit]
  dsimp only
  cases cli.exchange (sent ++ [r]) with
  | error code => exact prefix_rfl
  | ok answer =>
    dsimp only
    split
    · split
      · exact prefix_rfl
      · cases asyncHandleRedirect req chain₁ ctx answer with
        | error code => exact prefix_rfl
        | ok out =>
          obtain ⟨next, method', body', chain₂⟩ := out
          obtain ⟨rest, hsent, -⟩ : ∃ rest,
              (asyncChainLoop cli idle req (sent ++ [r]) chain₂ next method' body' (hop + 1)).sent = sent ++ [r] ++ rest ∧
              Chain req chain₂.initialOriginKey chain₂.carriedAuth none rest ∧ ∀ r₀ ∈ rest.head?, r₀.url = next :=
            asyncChainLoop_chain nofun
          exact ⟨rest, hsent.symm⟩
    · exact prefix_rfl

theorem Agree.loop {hop left : Nat} (hleft : left + hop = chttpMaxRedirects) (hhop : sent.length = hop)
    (h : Agree req t chain url method body)
    (hspelled : SpelledAlike idle (asyncChainLoop cli idle req sent chain url method body hop).sent) :
    asyncChainLoop cli idle req sent chain url method body hop = t.loop cli req left sent := by
  induction left generalizing sent t chain url method body hop with
  | zero =>
    rw [asyncChainLoop, Tier1.loop]
    rcases h.prepare cli (idle hop) with ⟨code, hprepare, hsubmit⟩ | ⟨r, t₁, chain₁, ctx, hprepare, hsubmit⟩
    · rw [hprepare, hsubmit]
    · have hlast : hop ≥ chttpMaxRedirects := by omega
      rw [hprepare, hsubmit]
      simp only [hlast, if_true]
  | succ left ih =>
    rcases h.prepare cli (idle hop) with ⟨code, hprepare, hsubmit⟩ | ⟨r, t₁, chain₁, ctx, hprepare, hsubmit⟩
    · rw [asyncChainLoop, Tier1.loop, hprepare, hsubmit]
    · have hr : (asyncChainLoop cli idle req sent chain url method body hop).sent[hop]? = some r := by
        obtain ⟨rest, hrest⟩ : sent ++ [r] <+: (asyncChainLoop cli idle req sent chain url method body hop).sent :=
          asyncChainLoop_sent hsubmit
        rw [← hrest, ← hhop, List.getElem?_append_left (by simp), List.getElem?_concat_length]
      have hhost := hspelled hop r
      have hmore : ¬hop ≥ chttpMaxRedirects := by omega
      rw [asyncChainLoop, hsubmit] at hspelled ⊢
      rw [Tier1.loop, hprepare]
      dsimp only at hspelled ⊢
      cases hanswer : cli.exchange (sent ++ [r]) with
      | error code => rfl
      | ok answer =>
        rw [hanswer] at hspelled
        dsimp only at hspelled ⊢
        split
        · rename_i hredirect
          rw [if_pos hredirect, if_neg hmore] at hspelled
          rcases h.follow answer hprepare hsubmit (fun c => hhost c hr) with
            ⟨code, hfollow, hhandle⟩ | ⟨t₂, next, method', body', chain₂, hfollow, hhandle, hagree⟩
          · rw [hfollow, hhandle]
          · rw [hhandle] at hspelled
            rw [hfollow, hhandle]
            exact ih (by omega) (by simpa using hhop) hagree hspelled
        · rfl

end Ccollections.Chttpclient
