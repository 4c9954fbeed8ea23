import Ccollections.Chttpserver.Lemmas.RouteSearch
import Mathlib.Data.List.Pairwise

/-!
# The search over the routers
-/

namespace Ccollections.Chttpserver.RouteSearch
open List
open Chttpclient (Method)

variable {path P rest : List UInt8} {raws : List (List UInt8)} {cap allowed : Nat} {cache : List SegCacheEntry} {method : Method}
  {rts : List Route} {r o root : Router} {l : List Router} {owner : Option Router}

/-! ## The routes of one router -/

def pickFrom (method : Method) (fallback : Option (Route × List (List UInt8))) (l : List (Route × List (List UInt8))) :
    Option (Route × List (List UInt8)) :=
  (l.find? fun m => methodOk method m.1).or (fallback.or (if method = .head then l.find? fun m => m.1.method = .get else none))

def bits (allowed : Nat) (l : List (Route × List (List UInt8))) : Nat := l.foldl (fun allowed m => allowedBits allowed m.1) allowed

theorem matching_cons (rt : Route) (rts : List Route) (raws : List (List UInt8)) :
    matching (rt :: rts) raws = match routeValues rt.segs raws with
      | none => matching rts raws
      | some values => (rt, values) :: matching rts raws := by
  unfold matching
  rw [filterMap_cons]
  cases routeValues rt.segs raws <;> rfl

theorem scanRoutes_spec {fallback : Option (Route × List (List UInt8))} (h : Cached raws cap cache)
    (hcap : ∀ rt ∈ rts, rt.segs.length < cap) (hfall : method ≠ .head → fallback = none) :
    (scanRoutes method rts cache fallback allowed).1 = pickFrom method fallback (matching rts raws) ∧
      (pickFrom method fallback (matching rts raws) = none →
        (scanRoutes method rts cache fallback allowed).2 = bits allowed (matching rts raws)) := by
  induction rts generalizing cache fallback allowed with
  | nil => simp [scanRoutes, matching, pickFrom, bits]
  | cons rt rts ih =>
    have hcap' : ∀ rt ∈ rts, rt.segs.length < cap := fun rt' hrt => hcap rt' (mem_cons_of_mem _ hrt)
    unfold scanRoutes
    dsimp only
    obtain ⟨headOk, hheadOk⟩ : ∃ b, (!methodOk method rt && decide (method = .head) && decide (rt.method = .get)) = b := ⟨_, rfl⟩
    rw [hheadOk]
    obtain ⟨hvalues, hcached⟩ : (matchRouteCached cache rt (methodOk method rt || headOk)).1 = _ ∧ Cached raws cap _ :=
      matchRouteCached_spec h (hcap rt mem_cons_self)
    generalize matchRouteCached cache rt (methodOk method rt || headOk) = res at hvalues hcached ⊢
    obtain ⟨ov, cache'⟩ := res
    dsimp only at hvalues hcached
    rw [matching_cons]
    cases hrv : routeValues rt.segs raws with
    | none =>
      rw [hrv] at hvalues
      obtain rfl := hvalues
      exact ih hcached hcap' hfall
    | some values =>
      rw [hrv, Option.map_some] at hvalues
      obtain rfl := hvalues
      dsimp only
      by_cases hok : methodOk method rt = true
      · simp [hok, pickFrom]
      · rw [Bool.not_eq_true] at hok
        cases headOk with
        | true =>
          obtain ⟨⟨_, rfl⟩, hget⟩ : (_ ∧ method = .head) ∧ rt.method = .get := by simpa using hheadOk
          have hstep : pickFrom .head fallback ((rt, values) :: matching rts raws) =
              pickFrom .head (fallback.or (some (rt, values))) (matching rts raws) := by
            cases fallback <;> simp [pickFrom, hok, hget]
          rw [hstep, hok]
          refine ⟨(ih hcached hcap' (by simp)).1, fun hnone => ?_⟩
          cases fallback <;> simp [pickFrom] at hnone
        | false =>
          have hstep : pickFrom method fallback ((rt, values) :: matching rts raws) =
              pickFrom method fallback (matching rts raws) := by
            unfold pickFrom
            by_cases hm : method = .head
            · subst hm
              have hget : rt.method ≠ .get := by simpa [hok] using hheadOk
              simp [hok, hget]
            · simp [hok, hm]
          rw [hstep, hok]
          exact ih hcached hcap' hfall

/-! ## The routers -/

structure RouterOk (r : Router) : Prop where
  mount : MountOk r.routerPrefix
  count : r.prefixSegCount = countPrefixSegments r.routerPrefix
  routes : ∀ rt ∈ r.routes, rt.segs.length ≤ r.maxRouteSegCount

def visitWhole (path : List UInt8) (method : Method) (raws : List (List UInt8)) : List Router → Option Router → Nat → MatchResult
  | [], owner, allowed => reject owner allowed
  | r :: rs, owner, allowed =>
    let tryRoutes := fun (owner : Option Router) (subPath : List UInt8) =>
      match pick method (matching r.routes (rawSegs subPath)) with
      | some (rt, pv) => .ok r rt pv
      | none => visitWhole path method raws rs owner (bits allowed (matching r.routes (rawSegs subPath)))
    if r.routerPrefix.length = 0 then
      if owner.isSome then reject owner allowed else tryRoutes owner path
    else if owner.any (r.prefixSegCount < ·.prefixSegCount) then reject owner allowed
    else
      match matchPrefix r.routerPrefix raws with
      | .no => visitWhole path method raws rs owner allowed
      | .inside => visitWhole path method raws rs (owner.or (some r)) allowed
      | .boundary subPath => tryRoutes (owner.or (some r)) subPath

/-- What `visit` makes of a router on whose prefix the path goes on with `subPath`. -/
def tryRoutes (path : List UInt8) (method : Method) (r : Router) (rs : List Router) (cache : List SegCacheEntry)
    (owner : Option Router) (subPath : List UInt8) (allowed : Nat) : MatchResult :=
  if r.routes.length = 0 then visit path method rs cache owner allowed
  else
    match scanRoutes method r.routes (segCacheBuild subPath (r.maxRouteSegCount + 1)) none allowed with
    | (some (rt, pv), _) => .ok r rt pv
    | (none, allowed) => visit path method rs cache owner allowed

theorem visit_eq (h : Cached raws cap cache)
    (hok : ∀ r ∈ l, (∀ rt ∈ r.routes, rt.segs.length ≤ r.maxRouteSegCount) ∧
      (r.routerPrefix.length ≠ 0 → MountOk r.routerPrefix ∧ countPrefixSegments r.routerPrefix < cap)) :
    visit path method l cache owner allowed = visitWhole path method raws l owner allowed := by
  induction l generalizing cache owner allowed with
  | nil => rfl
  | cons r rs ih =>
    obtain ⟨hroutes, hmount⟩ := hok r mem_cons_self
    have hok' := fun r' hr' => hok r' (mem_cons_of_mem r hr')
    have htry : ∀ (cache : List SegCacheEntry) (owner : Option Router) (subPath : List UInt8), Cached raws cap cache →
        tryRoutes path method r rs cache owner subPath allowed =
        match pick method (matching r.routes (rawSegs subPath)) with
        | some (rt, pv) => .ok r rt pv
        | none => visitWhole path method raws rs owner (bits allowed (matching r.routes (rawSegs subPath))) := by
      intro cache owner subPath hcache
      unfold tryRoutes
      split
      · rename_i hnone
        rw [length_eq_zero_iff] at hnone
        have hpick : pick method (matching r.routes (rawSegs subPath)) = none := by simp [hnone, matching, pick]
        rw [hpick, ih hcache hok']
        simp [hnone, matching, bits]
      · have hcap : ∀ rt ∈ r.routes, rt.segs.length < r.maxRouteSegCount + 1 := fun rt hrt => Nat.lt_succ_of_le (hroutes rt hrt)
        have hscan : (scanRoutes method r.routes (segCacheBuild subPath (r.maxRouteSegCount + 1)) none allowed).1 = _ ∧ (_ → _) :=
          scanRoutes_spec (cached_segCacheBuild subPath (r.maxRouteSegCount + 1)) hcap fun _ => rfl
        generalize scanRoutes method r.routes _ none allowed = res at hscan ⊢
        obtain ⟨found, allowed'⟩ := res
        obtain ⟨hfst, hsnd⟩ := hscan
        have hpick : pickFrom method none (matching r.routes (rawSegs subPath)) = pick method (matching r.routes (rawSegs subPath)) := by
          simp [pickFrom, pick]
        rw [hpick] at hfst hsnd
        dsimp only at hfst hsnd
        rw [← hfst]
        rw [← hfst] at hsnd
        cases found with
        | some m => rfl
        | none =>
          dsimp only
          rw [hsnd rfl, ih hcache hok']
    unfold visit visitWhole
    dsimp only
    by_cases hroot : r.routerPrefix.length = 0
    · rw [if_pos hroot, if_pos hroot]
      split
      · rfl
      · exact htry cache owner path h
    · rw [if_neg hroot, if_neg hroot]
      split
      · rfl
      · obtain ⟨hP, hlt⟩ := hmount hroot
        obtain ⟨hmatch, hcached⟩ := prefixMatches_spec (r := r) h hP hlt
        generalize prefixMatches cache r = res at hmatch hcached ⊢
        obtain ⟨m, cache'⟩ := res
        dsimp only at hmatch hcached
        rw [← hmatch]
        cases m with
        | no => exact ih hcached hok'
        | inside => exact ih hcached hok'
        | boundary subPath => exact htry cache' (owner.or (some r)) subPath hcached

/-! ## The owner and those that share its prefix -/

def answerFrom (method : Method) (rest : List UInt8) (routers : List Router) (owner : Option Router) (allowed : Nat) : MatchResult :=
  match routers.findSome? fun r => (pick method (matching r.routes (rawSegs rest))).map (r, ·) with
  | some (r, rt, values) => .ok r rt values
  | none => reject owner (bits allowed (routers.flatMap fun r => matching r.routes (rawSegs rest)))

theorem answerFrom_cons : answerFrom method rest (r :: l) owner allowed =
    match pick method (matching r.routes (rawSegs rest)) with
    | some (rt, pv) => .ok r rt pv
    | none => answerFrom method rest l owner (bits allowed (matching r.routes (rawSegs rest))) := by
  unfold answerFrom
  rw [List.findSome?_cons, flatMap_cons]
  cases pick method (matching r.routes (rawSegs rest)) with
  | some m => rfl
  | none => simp [bits]

def Descending (l : List Router) : Prop := l.Pairwise fun r r' => r'.prefixSegCount ≤ r.prefixSegCount

/-- Behind the owner, the routers with its prefix go on until one has fewer segments, or is the root. -/
theorem visitWhole_owned (hroot : root.routerPrefix = []) (hok : ∀ r ∈ l, RouterOk r) (hsorted : Descending l)
    (hle : ∀ r ∈ l, r.prefixSegCount ≤ o.prefixSegCount) (ho : RouterOk o) (howns : Owns o.routerPrefix raws) :
    visitWhole path method raws (l ++ [root]) (some o) allowed =
      match matchPrefix o.routerPrefix raws with
      | .boundary rest => answerFrom method rest (l.filter (·.routerPrefix = o.routerPrefix)) (some o) allowed
      | _ => reject (some o) allowed := by
  induction l generalizing allowed with
  | nil =>
    have hend : visitWhole path method raws ([] ++ [root]) (some o) allowed = reject (some o) allowed := by
      simp [visitWhole, hroot]
    rw [hend]
    cases matchPrefix o.routerPrefix raws <;> simp [answerFrom, bits]
  | cons r l ih =>
    have hr := hok r mem_cons_self
    have hsorted' := pairwise_cons.mp hsorted
    have hlen := hr.mount.length_ne_zero
    have hlater : ∀ allowed, visitWhole path method raws (l ++ [root]) (some o) allowed = _ := fun _ =>
      ih (fun r' hr' => hok r' (mem_cons_of_mem r hr')) hsorted'.2 fun r' hr' => hle r' (mem_cons_of_mem r hr')
    rw [cons_append]
    unfold visitWhole
    dsimp only
    rw [if_neg hlen, Option.any_some]
    by_cases hfew : r.prefixSegCount < o.prefixSegCount
    · -- No router from here on has as many segments as the owner.
      have hnone : (r :: l).filter (·.routerPrefix = o.routerPrefix) = [] := by
        rw [filter_eq_nil_iff]
        intro r' hr' hsame
        have hcount : r'.prefixSegCount = o.prefixSegCount := by
          rw [(hok r' hr').count, ho.count, of_decide_eq_true hsame]
        obtain rfl | hmem := mem_cons.mp hr'
        · omega
        · have hle' := hsorted'.1 r' hmem
          omega
      rw [if_pos (by simpa using hfew), hnone]
      cases matchPrefix o.routerPrefix raws <;> simp [answerFrom, bits]
    · rw [if_neg (by simpa using hfew)]
      by_cases hsame : r.routerPrefix = o.routerPrefix
      · have hne := (matchPrefix_ne_no ho.mount).mpr howns
        rw [filter_cons_of_pos (by simpa using hsame), hsame]
        cases hm : matchPrefix o.routerPrefix raws with
        | no => exact absurd hm hne
        | inside =>
          rw [hm] at hlater
          exact hlater allowed
        | boundary rest =>
          rw [hm] at hlater
          dsimp only at hlater ⊢
          rw [answerFrom_cons]
          cases pick method (matching r.routes (rawSegs rest)) with
          | some m => rfl
          | none => exact hlater _
      · have hno : matchPrefix r.routerPrefix raws = .no := by
          by_contra hyes
          have howns' := (matchPrefix_ne_no hr.mount).mp hyes
          have hcount : countPrefixSegments r.routerPrefix = countPrefixSegments o.routerPrefix := by
            have hle' := hle r mem_cons_self
            rw [← hr.count, ← ho.count]
            omega
          obtain hlen | hlen := Nat.le_total r.routerPrefix.length o.routerPrefix.length
          · obtain heq | hlt := howns'.eq_or_lt howns hr.mount ho.mount hlen
            · exact hsame heq
            · omega
          · obtain heq | hlt := howns.eq_or_lt howns' ho.mount hr.mount hlen
            · exact hsame heq.symm
            · omega
        rw [filter_cons_of_neg (by simpa using hsame), hno]
        exact hlater allowed

theorem visitWhole_root (hroot : root.routerPrefix = []) (hok : ∀ r ∈ l, RouterOk r) (hnone : ∀ r ∈ l, ¬Owns r.routerPrefix raws) :
    visitWhole path method raws (l ++ [root]) none 0 = answer method [root] none (some path) := by
  induction l with
  | nil =>
    have hanswer : answer method [root] none (some path) = answerFrom method path [root] none 0 := rfl
    rw [hanswer, answerFrom_cons]
    simp [visitWhole, hroot, answerFrom, bits]
  | cons r l ih =>
    have hr := hok r mem_cons_self
    have hlen := hr.mount.length_ne_zero
    have hno : matchPrefix r.routerPrefix raws = .no := by
      by_contra hyes
      exact hnone r mem_cons_self ((matchPrefix_ne_no hr.mount).mp hyes)
    rw [cons_append]
    unfold visitWhole
    dsimp only
    rw [if_neg hlen, hno]
    exact ih (fun r' hr' => hok r' (mem_cons_of_mem r hr')) fun r' hr' => hnone r' (mem_cons_of_mem r hr')

def PrefixMatch.behind : PrefixMatch → Option (List UInt8)
  | .boundary rest => some rest
  | _ => none

theorem visitWhole_mounts (hroot : root.routerPrefix = []) (hok : ∀ r ∈ l, RouterOk r) (hsorted : Descending l)
    (hmounted : ∃ r ∈ l, r.routerPrefix = P) (howns : Owns P raws)
    (hlongest : ∀ r ∈ l, Owns r.routerPrefix raws → r.routerPrefix.length ≤ P.length) :
    visitWhole path method raws (l ++ [root]) none 0 =
      answer method (l.filter (·.routerPrefix = P)) (l.filter (·.routerPrefix = P)).head?
        (matchPrefix P raws).behind := by
  induction l with
  | nil => simp at hmounted
  | cons r l ih =>
    have hr := hok r mem_cons_self
    have hok' := fun r' hr' => hok r' (mem_cons_of_mem r hr')
    have hsorted' := pairwise_cons.mp hsorted
    have hlen := hr.mount.length_ne_zero
    obtain ⟨r', hr', hP⟩ := hmounted
    rw [cons_append]
    unfold visitWhole
    dsimp only
    rw [if_neg hlen]
    simp only [Option.any_none, Bool.false_eq_true, if_false, Option.none_or]
    by_cases hyes : Owns r.routerPrefix raws
    · -- The first router that owns the path has the longest prefix.
      have hsame : r.routerPrefix = P := by
        obtain heq | hlt := hyes.eq_or_lt howns hr.mount (hP ▸ (hok r' hr').mount) (hlongest r mem_cons_self hyes)
        · exact heq
        · obtain rfl | hmem := mem_cons.mp hr'
          · exact hP
          · have hle := hsorted'.1 r' hmem
            rw [(hok r' hr').count, hr.count, hP] at hle
            omega
      subst hsame
      have hlater : ∀ allowed, visitWhole path method raws (l ++ [root]) (some r) allowed = _ :=
        fun _ => visitWhole_owned hroot hok' hsorted'.2 hsorted'.1 hr hyes
      have hne := (matchPrefix_ne_no hr.mount).mpr hyes
      rw [filter_cons_of_pos (by simp), List.head?_cons]
      cases hm : matchPrefix r.routerPrefix raws with
      | no => exact absurd hm hne
      | inside =>
        dsimp only
        rw [hlater 0, hm]
        rfl
      | boundary rest =>
        have hanswer : ∀ cands, answer method cands (some r) (some rest) = answerFrom method rest cands (some r) 0 := fun _ => rfl
        dsimp only [PrefixMatch.behind]
        rw [hanswer, answerFrom_cons]
        cases pick method (matching r.routes (rawSegs rest)) with
        | some m => rfl
        | none =>
          dsimp only
          rw [hlater, hm]
    · have hno : matchPrefix r.routerPrefix raws = .no := by
        by_contra hne
        exact hyes ((matchPrefix_ne_no hr.mount).mp hne)
      have hdiff : r.routerPrefix ≠ P := by
        rintro rfl
        exact hyes howns
      have hmem : r' ∈ l := by
        obtain rfl | hmem := mem_cons.mp hr'
        · exact absurd hP hdiff
        · exact hmem
      rw [hno, filter_cons_of_neg (by simpa using hdiff)]
      exact ih hok' hsorted'.2 ⟨r', hmem, hP⟩ fun r'' hr'' => hlongest r'' (mem_cons_of_mem r hr'')

/-!
# The sorted routers are the registered ones
-/

variable {s P : List UInt8} {r : Router} {l : List Router} {srv : Server} {g : Registry} {reg : Registration}

theorem stripTrailing_ok (h : s.head? = some 0x2F) : MountOk (stripTrailing s) := by
  unfold stripTrailing
  cases hs : s.rdropWhile (· = 0x2F) with
  | nil =>
    cases s with
    | nil => cases h
    | cons c t =>
      obtain rfl := Option.some.inj h
      exact ⟨rfl, .inl rfl⟩
  | cons c t =>
    have hpre : c :: t <+: s := hs ▸ rdropWhile_prefix _ s
    obtain ⟨u, rfl⟩ := hpre
    refine ⟨h, .inr ?_⟩
    have hlast := rdropWhile_last_not (fun c : UInt8 => decide (c = 0x2F)) (c :: t ++ u) (by rw [hs]; simp)
    simp only [hs, decide_eq_true_eq] at hlast
    rw [List.getLast?_eq_getLast_of_ne_nil (by simp)]
    simpa using hlast

theorem createRouter_ok (id : Nat) (h : s.head? = some 0x2F) : RouterOk (createRouter id s) :=
  ⟨stripTrailing_ok h, rfl, by simp [createRouter]⟩

/-! ## The sorted insertion -/

theorem insertRouter_split (r : Router) (l : List Router) :
    l.rdropWhile (·.prefixSegCount < r.prefixSegCount) ++ l.rtakeWhile (·.prefixSegCount < r.prefixSegCount) = l :=
  rdropWhile_append_rtakeWhile

theorem mem_insertRouter {x : Router} : x ∈ insertRouter r l ↔ x = r ∨ x ∈ l := by
  have hsplit := insertRouter_split r l
  unfold insertRouter
  conv_rhs => rw [← hsplit]
  simp only [mem_append, mem_cons]
  tauto

theorem mem_rtakeWhile {x : Router} (h : x ∈ l.rtakeWhile (·.prefixSegCount < r.prefixSegCount)) :
    x.prefixSegCount < r.prefixSegCount := by
  rw [List.rtakeWhile, mem_reverse] at h
  simpa using mem_takeWhile_imp h

theorem le_of_mem_rdropWhile {x : Router} (hsorted : Descending l) (h : x ∈ l.rdropWhile (·.prefixSegCount < r.prefixSegCount)) :
    r.prefixSegCount ≤ x.prefixSegCount := by
  generalize hk : l.rdropWhile (·.prefixSegCount < r.prefixSegCount) = kept at h
  have hne : kept ≠ [] := ne_nil_of_mem h
  have hkept : Descending kept := hsorted.sublist (hk ▸ ( rdropWhile_prefix _ l).sublist)
  have hlast : r.prefixSegCount ≤ (kept.getLast hne).prefixSegCount := by
    have hnot := rdropWhile_last_not (fun x : Router => decide (x.prefixSegCount < r.prefixSegCount)) l (by rw [hk]; exact hne)
    simpa [hk] using hnot
  obtain ⟨front, last, rfl⟩ : ∃ front last, kept = front ++ [last] :=
    ⟨kept.dropLast, kept.getLast hne, (dropLast_append_getLast hne).symm⟩
  rw [getLast_append_singleton] at hlast
  obtain hfront | hx := mem_append.mp h
  · exact Nat.le_trans hlast ((pairwise_append.mp hkept).2.2 x hfront last (by simp))
  · rw [mem_singleton.mp hx]
    exact hlast

theorem insertRouter_sorted (hsorted : Descending l) : Descending (insertRouter r l) := by
  have hsplit := insertRouter_split r l
  have hboth := hsorted
  rw [← hsplit] at hboth
  obtain ⟨hkept, hmoved, hcross⟩ := pairwise_append.mp hboth
  refine pairwise_append.mpr ⟨hkept, pairwise_cons.mpr ⟨?_, hmoved⟩, ?_⟩
  · intro x hx
    exact Nat.le_of_lt (mem_rtakeWhile hx)
  · intro x hx y hy
    obtain rfl | hy := mem_cons.mp hy
    · exact le_of_mem_rdropWhile hsorted hx
    · exact hcross x hx y hy

theorem filter_insertRouter (hok : ∀ x ∈ l, RouterOk x) (hr : RouterOk r) :
    (insertRouter r l).filter (·.routerPrefix = P) = l.filter (·.routerPrefix = P) ++ [r].filter (·.routerPrefix = P) := by
  have hsplit := insertRouter_split r l
  unfold insertRouter
  conv_rhs => rw [← hsplit]
  by_cases hP : r.routerPrefix = P
  · have hmoved : (l.rtakeWhile (·.prefixSegCount < r.prefixSegCount)).filter (·.routerPrefix = P) = [] := by
      rw [filter_eq_nil_iff]
      intro x hx hsame
      have hlt := mem_rtakeWhile hx
      have hmem : x ∈ l := (rtakeWhile_suffix _ l).subset hx
      rw [(hok x hmem).count, hr.count, of_decide_eq_true hsame, hP] at hlt
      exact Nat.lt_irrefl _ hlt
    simp only [filter_append, filter_cons, hP, decide_true, if_true, hmoved, filter_nil, append_nil]
  · simp only [filter_append, filter_cons, hP, decide_false, Bool.false_eq_true, if_false, filter_nil, append_nil]

/-! ## Refinement -/

/-- The routers of the server are those of the registry, by the number of their segments and then in their order. -/
structure Refines (srv : Server) (g : Registry) : Prop where
  root : srv.root = g.root
  rootPrefix : srv.root.routerPrefix = []
  rootRoutes : ∀ rt ∈ srv.root.routes, rt.segs.length ≤ srv.root.maxRouteSegCount
  routers : ∀ r ∈ srv.subs, RouterOk r
  sorted : Descending srv.subs
  bound : ∀ r ∈ srv.subs, r.prefixSegCount ≤ srv.maxPrefixSegCount
  filter : ∀ P, srv.subs.filter (·.routerPrefix = P) = g.mountedOn P
  length : srv.subs.length = g.mounts.length

theorem Refines.mem (h : Refines srv g) : r ∈ srv.subs ↔ r ∈ g.mounts := by
  have hfilter : r ∈ srv.subs.filter (·.routerPrefix = r.routerPrefix) ↔ r ∈ g.mountedOn r.routerPrefix := by rw [h.filter]
  simpa [Registry.mountedOn] using hfilter

theorem Refines.create : Refines .create ⟨createRouter 0 [], []⟩ where
  root := rfl
  rootPrefix := rfl
  rootRoutes := by simp [Server.create, createRouter]
  routers := by simp [Server.create]
  sorted := List.Pairwise.nil
  bound := by simp [Server.create]
  filter := by simp [Server.create, Registry.mountedOn]
  length := rfl

theorem Refines.subrouter (h : Refines srv g) (s : List UInt8) : Refines (srv.chttpsvrSubrouter s) (g.register (.subrouter s)) := by
  unfold Server.chttpsvrSubrouter Registry.register
  dsimp only
  by_cases hrefused : (decide (s.head? ≠ some 0x2F) || hasDoubleSlash s) = true
  · rw [if_pos hrefused, if_pos hrefused]
    exact h
  · rw [if_neg hrefused, if_neg hrefused]
    have hhead : s.head? = some 0x2F := by
      by_contra hne
      simp [hne] at hrefused
    have hr := createRouter_ok (srv.subs.length + 1) hhead
    rw [← h.length]
    refine ⟨h.root, h.rootPrefix, h.rootRoutes, ?_, insertRouter_sorted h.sorted, ?_, ?_, ?_⟩
    · intro x hx
      obtain rfl | hx := mem_insertRouter.mp hx
      · exact hr
      · exact h.routers x hx
    · intro x hx
      obtain rfl | hx := mem_insertRouter.mp hx
      · exact Nat.le_max_right _ _
      · exact Nat.le_trans (h.bound x hx) (Nat.le_max_left _ _)
    · intro P
      rw [filter_insertRouter h.routers hr, h.filter]
      simp [Registry.mountedOn]
    · have hsplit := congrArg List.length (insertRouter_split (createRouter (srv.subs.length + 1) s) srv.subs)
      simp only [insertRouter, length_append, length_cons, length_nil, ← h.length] at hsplit ⊢
      omega

theorem Refines.map (h : Refines srv g) (add : Router → Router) (hpre : ∀ r, (add r).routerPrefix = r.routerPrefix)
    (hcount : ∀ r, (add r).prefixSegCount = r.prefixSegCount)
    (hroutes : ∀ r, (∀ rt ∈ r.routes, rt.segs.length ≤ r.maxRouteSegCount) →
      ∀ rt ∈ (add r).routes, rt.segs.length ≤ (add r).maxRouteSegCount) :
    Refines { srv with root := add srv.root, subs := srv.subs.map add } { root := add g.root, mounts := g.mounts.map add } where
  root := by rw [h.root]
  rootPrefix := (hpre _).trans h.rootPrefix
  rootRoutes := hroutes _ h.rootRoutes
  routers := by
    intro x hx
    obtain ⟨r, hr, rfl⟩ := mem_map.mp hx
    have hok := h.routers r hr
    exact ⟨(hpre r).symm ▸ hok.mount, by rw [hcount, hpre, hok.count], hroutes r hok.routes⟩
  sorted := by
    refine pairwise_map.mpr (h.sorted.imp ?_)
    intro a b hab
    rwa [hcount, hcount]
  bound := by
    intro x hx
    obtain ⟨r, hr, rfl⟩ := mem_map.mp hx
    rw [hcount]
    exact h.bound r hr
  filter := by
    intro P
    have hcomp : ((fun r : Router => decide (r.routerPrefix = P)) ∘ add) = fun r => decide (r.routerPrefix = P) := by
      funext r
      simp [hpre]
    have hfilter := h.filter P
    rw [Registry.mountedOn] at hfilter ⊢
    rw [filter_map, filter_map, hcomp, hfilter]
  length := by simpa using h.length

theorem Refines.route (h : Refines srv g) (id : Nat) (method : Method) (pattern : List UInt8) (fn : Nat) :
    Refines (srv.routerAddRoute id method pattern fn) (g.register (.route id method pattern fn)) := by
  unfold Server.routerAddRoute Registry.register
  dsimp only
  cases compilePattern pattern with
  | none => exact h
  | some compiled =>
    obtain ⟨segs, names⟩ := compiled
    refine h.map (fun r => if r.id = id then r.addRoute ⟨method, segs, names, fn⟩ else r) (fun r => ?_) (fun r => ?_) fun r hr => ?_
    · split <;> rfl
    · split <;> rfl
    · split
      · intro rt hrt
        simp only [Router.addRoute, mem_append, mem_singleton] at hrt ⊢
        obtain hrt | rfl := hrt
        · exact Nat.le_trans (hr rt hrt) (Nat.le_max_left _ _)
        · exact Nat.le_max_right _ _
      · exact hr

theorem Refines.registered (regs : List Registration) : Refines (.registered regs) (.registered regs) := by
  have hfold : ∀ (srv : Server) (g : Registry), Refines srv g → Refines (regs.foldl Server.register srv) (regs.foldl Registry.register g) := by
    induction regs with
    | nil => exact fun _ _ h => h
    | cons reg regs ih =>
      intro srv g h
      refine ih _ _ ?_
      cases reg with
      | subrouter s => exact h.subrouter s
      | route id method pattern fn => exact h.route id method pattern fn
  exact hfold _ _ Refines.create

end Ccollections.Chttpserver.RouteSearch
