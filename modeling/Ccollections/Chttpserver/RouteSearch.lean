import Ccollections.Chttpclient.Request
import Mathlib.Data.List.DropRight

/-!
# The route search of the server

Paths, prefixes and patterns are C strings: the bytes before the NUL. The memory the search allocates is there.
-/

namespace Ccollections.Chttpserver.RouteSearch
open Chttpclient (Method)

/-! ## Percent decoding -/

def hexNibble (c : UInt8) : Option UInt8 :=
  if c ≥ 0x30 && c ≤ 0x39 then some (c - 0x30)
  else if c ≥ 0x61 && c ≤ 0x66 then some (c - 0x61 + 10)
  else if c ≥ 0x41 && c ≤ 0x46 then some (c - 0x41 + 10)
  else none

def percentDecode (plusAsSpace : Bool) : List UInt8 → Option (List UInt8)
  | [] => some []
  | c :: s =>
    if c = 0x25 then
      match s with
      | c1 :: c2 :: s =>
        match hexNibble c1, hexNibble c2 with
        | some hi, some lo =>
          let decoded := hi <<< 4 ||| lo
          if decoded = 0 then none else (percentDecode plusAsSpace s).map (decoded :: ·)
        | _, _ => none
      | _ => none
    else if c = 0x2B && plusAsSpace then (percentDecode plusAsSpace s).map (0x20 :: ·)
    else (percentDecode plusAsSpace s).map (c :: ·)

/-- `_decode_path_unsafe`. -/
def decodePath (s : List UInt8) : Option (List UInt8) := percentDecode false s

/-! ## Patterns -/

def isParam (seg : List UInt8) : Bool := seg.head? = some 0x7B

def isNameByte (c : UInt8) : Bool :=
  (c ≥ 0x41 && c ≤ 0x5A) || (c ≥ 0x61 && c ≤ 0x7A) || (c ≥ 0x30 && c ≤ 0x39) || c = 0x5F

def paramName (seg : List UInt8) : List UInt8 := seg.tail.dropLast

def segOk (seg : List UInt8) : Bool :=
  !isParam seg || (decide (3 ≤ seg.length) && seg.getLast? = some 0x7D && (paramName seg).all isNameByte)

/-- `_compile_pattern`, whose loops go over the pieces between slashes: the segments and the parameter names. -/
def compilePattern (pattern : List UInt8) : Option (List (List UInt8) × List (List UInt8)) :=
  match pattern with
  | 0x2F :: p =>
    if p.getLast? = some 0x2F then none
    else
      let pieces := p.splitOn 0x2F
      if pieces.dropLast.any (·.isEmpty) then none
      else
        let segs := pieces.filter (!·.isEmpty)
        if segs.all segOk then
          let names := (segs.filter isParam).map paramName
          if names.Nodup then some (segs, names) else none
        else none
  | _ => none

/-! ## Routers -/

/-- `chttpsvr_route_t`; `fn` stands for the handler with its context. -/
structure Route where
  method : Method
  segs : List (List UInt8)
  paramNames : List (List UInt8)
  fn : Nat
  deriving DecidableEq

/-- `chttpsvr_router_t`; `id` tells routers apart, as their addresses do. -/
structure Router where
  id : Nat
  routerPrefix : List UInt8
  prefixSegCount : Nat
  routes : List Route
  maxRouteSegCount : Nat
  deriving DecidableEq

/-- `root` is `routers[0]` and `subs` are the routers behind it. -/
structure Server where
  root : Router
  subs : List Router
  maxPrefixSegCount : Nat

def countPrefixSegments (s : List UInt8) : Nat := if s.length ≤ 1 then 0 else s.count 0x2F

/-- The loop of `_create_router` that takes trailing slashes off. -/
def stripTrailing (s : List UInt8) : List UInt8 :=
  match s.rdropWhile (· = 0x2F) with
  | [] => s.take 1
  | c :: t => c :: t

def createRouter (id : Nat) (s : List UInt8) : Router := ⟨id, stripTrailing s, countPrefixSegments (stripTrailing s), [], 0⟩

/-- `strstr(prefix, "//")`. -/
def hasDoubleSlash : List UInt8 → Bool
  | a :: b :: s => (a = 0x2F && b = 0x2F) || hasDoubleSlash (b :: s)
  | _ => false

def Router.addRoute (r : Router) (rt : Route) : Router :=
  { r with routes := r.routes ++ [rt], maxRouteSegCount := max r.maxRouteSegCount rt.segs.length }

/-- The shift of `chttpsvr_subrouter`: from the end, past every router with fewer prefix segments. -/
def insertRouter (r : Router) (l : List Router) : List Router :=
  l.rdropWhile (·.prefixSegCount < r.prefixSegCount) ++ r :: l.rtakeWhile (·.prefixSegCount < r.prefixSegCount)

namespace Server

def create : Server := ⟨createRouter 0 [], [], 0⟩

def chttpsvrSubrouter (srv : Server) (s : List UInt8) : Server :=
  if s.head? ≠ some 0x2F || hasDoubleSlash s then srv
  else
    let r := createRouter (srv.subs.length + 1) s
    { srv with subs := insertRouter r srv.subs, maxPrefixSegCount := max srv.maxPrefixSegCount r.prefixSegCount }

/-- `_router_add_route` for the router of the handle. -/
def routerAddRoute (srv : Server) (id : Nat) (method : Method) (pattern : List UInt8) (fn : Nat) : Server :=
  match compilePattern pattern with
  | none => srv
  | some (segs, names) =>
    let add := fun r : Router => if r.id = id then r.addRoute ⟨method, segs, names, fn⟩ else r
    { srv with root := add srv.root, subs := srv.subs.map add }

end Server

/-! ## The cache of segments -/

/-- `_seg_cache_entry_t`: a raw segment with the text behind it, and what decoding it gave once that was tried. -/
structure SegCacheEntry where
  raw : List UInt8
  after : List UInt8
  memo : Option (Option (List UInt8))

def countSegs : Nat → List UInt8 → Nat
  | 0, _ => 0
  | n + 1, s =>
    match s.dropWhile (· ≠ 0x2F) with
    | [] => 1
    | _ :: rest => countSegs n rest + 1

def fillSegs : Nat → List UInt8 → List SegCacheEntry
  | 0, _ => []
  | n + 1, s =>
    ⟨s.takeWhile (· ≠ 0x2F), s.dropWhile (· ≠ 0x2F), none⟩ ::
      match s.dropWhile (· ≠ 0x2F) with
      | [] => []
      | _ :: rest => fillSegs n rest

def skipSlash : List UInt8 → List UInt8
  | 0x2F :: p => p
  | p => p

def segCacheBuild (subPath : List UInt8) (cap : Nat) : List SegCacheEntry :=
  match skipSlash subPath with
  | [] => []
  | c :: p => fillSegs (countSegs cap (c :: p)) (c :: p)

def segCacheGet (cache : List SegCacheEntry) (idx : Nat) : Option (List UInt8) × List SegCacheEntry :=
  match cache[idx]? with
  | none => (none, cache)
  | some e =>
    match e.memo with
    | some decoded => (decoded, cache)
    | none =>
      let decoded := if e.raw = [] then none else decodePath e.raw
      (decoded, cache.set idx { e with memo := some decoded })

/-- The loop of `_match_route_cached` over the segments of a route, with the values it has captured. -/
def matchSegs (wanted : Bool) : List (List UInt8) → Nat → List SegCacheEntry → List (List UInt8) →
    Option (List (List UInt8)) × List SegCacheEntry
  | [], _, cache, pv => (some pv, cache)
  | seg :: segs, i, cache, pv =>
    match segCacheGet cache i with
    | (none, cache) => (none, cache)
    | (some decoded, cache) =>
      if isParam seg then matchSegs wanted segs (i + 1) cache (if wanted then pv ++ [decoded] else pv)
      else if decoded = seg then matchSegs wanted segs (i + 1) cache pv
      else (none, cache)

def matchRouteCached (cache : List SegCacheEntry) (rt : Route) (wanted : Bool) : Option (List (List UInt8)) × List SegCacheEntry :=
  if rt.segs.length ≠ cache.length then (none, cache) else matchSegs wanted rt.segs 0 cache []

/-! ## Ownership -/

/-- The results of `_prefix_matches`: 0, 1 with the rest of the path, and 2. -/
inductive PrefixMatch where
  | no
  | boundary (subPath : List UInt8)
  | inside
  deriving DecidableEq

/-- The loop of `_prefix_matches` over the part of the prefix still to be covered. -/
def prefixLoop : Nat → List SegCacheEntry → Nat → List UInt8 → PrefixMatch × List SegCacheEntry
  | 0, cache, _, _ => (.no, cache)
  | n + 1, cache, idx, pp =>
    match segCacheGet cache idx with
    | (none, cache) => (.no, cache)
    | (some decoded, cache) =>
      if decoded.length < pp.length then
        if decoded = pp.take decoded.length && pp[decoded.length]? = some 0x2F then
          prefixLoop n cache (idx + 1) (pp.drop (decoded.length + 1))
        else (.no, cache)
      else if decoded.take pp.length ≠ pp then (.no, cache)
      else if decoded.length = pp.length then
        match (cache[idx]?.map (·.after)).getD [] with
        | [] => (.boundary [0x2F], cache)
        | c :: rest => (.boundary (c :: rest), cache)
      else if decoded[pp.length]? = some 0x2F then (.inside, cache)
      else (.no, cache)

def prefixMatches (cache : List SegCacheEntry) (r : Router) : PrefixMatch × List SegCacheEntry :=
  match r.routerPrefix.drop 1 with
  | [] => if cache.length ≠ 0 then (.no, cache) else (.boundary [0x2F], cache)
  | c :: pp => prefixLoop cache.length cache 0 (c :: pp)

/-! ## The search -/

/-- The number of a method in `chttp_method_t`. -/
def methodNum : Method → Nat
  | .get => 0
  | .post => 1
  | .put => 2
  | .delete => 3
  | .patch => 4
  | .head => 5
  | .options => 6
  | .any => 7

def allowedBits (allowed : Nat) (rt : Route) : Nat :=
  let allowed := allowed ||| 1 <<< methodNum rt.method
  if rt.method = .get then allowed ||| 1 <<< methodNum .head else allowed

def methodOk (method : Method) (rt : Route) : Bool := rt.method = .any || rt.method = method

/-- `match_result_t`; `ROUTE_MATCH_METHOD` and `ROUTE_MATCH_NONE` carry the owner. -/
inductive MatchResult where
  | ok (r : Router) (rt : Route) (values : List (List UInt8))
  | method (owner : Option Router) (allowed : Nat)
  | none (owner : Option Router)
  deriving DecidableEq

/-- The loop over the routes of a router: the route found, a HEAD's fallback last, and the allowed methods. -/
def scanRoutes (method : Method) : List Route → List SegCacheEntry → Option (Route × List (List UInt8)) → Nat →
    Option (Route × List (List UInt8)) × Nat
  | [], _, fallback, allowed => (fallback, allowed)
  | rt :: rts, cache, fallback, allowed =>
    let headOk := !methodOk method rt && decide (method = .head) && decide (rt.method = .get)
    match matchRouteCached cache rt (methodOk method rt || headOk) with
    | (none, cache) => scanRoutes method rts cache fallback allowed
    | (some pv, cache) =>
      if methodOk method rt then (some (rt, pv), allowed)
      else if headOk then scanRoutes method rts cache (fallback.or (some (rt, pv))) allowed
      else scanRoutes method rts cache fallback (allowedBits allowed rt)

def reject (owner : Option Router) (allowed : Nat) : MatchResult :=
  if allowed ≠ 0 then .method owner (allowed % 256) else .none owner

/-- The loop of `_find_route` over the routers. -/
def visit (path : List UInt8) (method : Method) : List Router → List SegCacheEntry → Option Router → Nat → MatchResult
  | [], _, owner, allowed => reject owner allowed
  | r :: rs, pathCache, owner, allowed =>
    let tryRoutes := fun (pathCache : List SegCacheEntry) (owner : Option Router) (subPath : List UInt8) =>
      if r.routes.length = 0 then visit path method rs pathCache owner allowed
      else
        match scanRoutes method r.routes (segCacheBuild subPath (r.maxRouteSegCount + 1)) none allowed with
        | (some (rt, pv), _) => .ok r rt pv
        | (none, allowed) => visit path method rs pathCache owner allowed
    if r.routerPrefix.length = 0 then
      if owner.isSome then reject owner allowed else tryRoutes pathCache owner path
    else if owner.any (r.prefixSegCount < ·.prefixSegCount) then reject owner allowed
    else
      match prefixMatches pathCache r with
      | (.no, pathCache) => visit path method rs pathCache owner allowed
      | (.inside, pathCache) => visit path method rs pathCache (owner.or (some r)) allowed
      | (.boundary subPath, pathCache) => tryRoutes pathCache (owner.or (some r)) subPath

def findRoute (srv : Server) (path : List UInt8) (method : Method) : MatchResult :=
  let pathCache := if srv.subs.length + 1 > 1 then segCacheBuild path (srv.maxPrefixSegCount + 1) else []
  visit path method (srv.subs ++ [srv.root]) pathCache none 0

/-!
# What the route search means

The reference has no cache, no bound on segments and no order of routers but the one they were registered in.
-/

/-! ## Paths -/

def rawSegs (path : List UInt8) : List (List UInt8) :=
  match skipSlash path with
  | [] => []
  | c :: p => (c :: p).splitOn 0x2F

def decodeSeg (raw : List UInt8) : Option (List UInt8) := if raw = [] then none else decodePath raw

def joined (segs : List (List UInt8)) : List UInt8 := [0x2F].intercalate segs

def Leads (ds raws : List (List UInt8)) : Prop := ds ≠ [] ∧ ds.map some <+: raws.map decodeSeg

def Owns (P : List UInt8) (raws : List (List UInt8)) : Prop :=
  if P = [0x2F] then raws = []
  else ∃ ds, Leads ds raws ∧ (0x2F :: joined ds = P ∨ P ++ [0x2F] <+: 0x2F :: joined ds)

def EndsAt (P : List UInt8) (raws : List (List UInt8)) (rest : List UInt8) : Prop :=
  if P = [0x2F] then raws = [] ∧ rest = [0x2F]
  else ∃ ds, Leads ds raws ∧ 0x2F :: joined ds = P ∧ rest = 0x2F :: joined (raws.drop ds.length)

/-! ## Routes -/

def routeValues : List (List UInt8) → List (List UInt8) → Option (List (List UInt8))
  | [], [] => some []
  | seg :: segs, raw :: raws =>
    match decodeSeg raw with
    | none => none
    | some decoded =>
      if isParam seg then (routeValues segs raws).map (decoded :: ·)
      else if decoded = seg then routeValues segs raws
      else none
  | _, _ => none

def matching (rts : List Route) (raws : List (List UInt8)) : List (Route × List (List UInt8)) :=
  rts.filterMap fun rt => (routeValues rt.segs raws).map (rt, ·)

def pick (method : Method) (l : List (Route × List (List UInt8))) : Option (Route × List (List UInt8)) :=
  (l.find? fun m => methodOk method m.1).or (if method = .head then l.find? fun m => m.1.method = .get else none)

def rejectOf (owner : Option Router) (l : List (Route × List (List UInt8))) : MatchResult :=
  reject owner (l.foldl (fun allowed m => allowedBits allowed m.1) 0)

/-- The routers that may answer do so one after another; without a rest of the path to match none of them can. -/
def answer (method : Method) (routers : List Router) (owner : Option Router) : Option (List UInt8) → MatchResult
  | none => rejectOf owner []
  | some rest =>
    match routers.findSome? fun r => (pick method (matching r.routes (rawSegs rest))).map (r, ·) with
    | some (r, rt, values) => .ok r rt values
    | none => rejectOf owner (routers.flatMap fun r => matching r.routes (rawSegs rest))

def MatchResult.router : MatchResult → Option Router
  | .ok r _ _ => some r
  | .method owner _ => owner
  | .none owner => owner

/-! ## Registrations -/

inductive Registration where
  | subrouter (s : List UInt8)
  | route (id : Nat) (method : Method) (pattern : List UInt8) (fn : Nat)

def Server.register (srv : Server) : Registration → Server
  | .subrouter s => srv.chttpsvrSubrouter s
  | .route id method pattern fn => srv.routerAddRoute id method pattern fn

def Server.registered (regs : List Registration) : Server := regs.foldl Server.register .create

/-- The mounted routers in the order of their registration. -/
structure Registry where
  root : Router
  mounts : List Router

namespace Registry

def register (g : Registry) : Registration → Registry
  | .subrouter s =>
    if s.head? ≠ some 0x2F || hasDoubleSlash s then g else { g with mounts := g.mounts ++ [createRouter (g.mounts.length + 1) s] }
  | .route id method pattern fn =>
    match compilePattern pattern with
    | none => g
    | some (segs, names) =>
      let add := fun r : Router => if r.id = id then r.addRoute ⟨method, segs, names, fn⟩ else r
      { root := add g.root, mounts := g.mounts.map add }

def registered (regs : List Registration) : Registry := regs.foldl register ⟨createRouter 0 [], []⟩

def IsOwner (g : Registry) (raws : List (List UInt8)) : Option (List UInt8) → Prop
  | some P => (∃ r ∈ g.mounts, r.routerPrefix = P) ∧ Owns P raws ∧
      ∀ r ∈ g.mounts, Owns r.routerPrefix raws → r.routerPrefix.length ≤ P.length
  | none => ∀ r ∈ g.mounts, ¬Owns r.routerPrefix raws

def mountedOn (g : Registry) (P : List UInt8) : List Router := g.mounts.filter (·.routerPrefix = P)

end Registry

end Ccollections.Chttpserver.RouteSearch
