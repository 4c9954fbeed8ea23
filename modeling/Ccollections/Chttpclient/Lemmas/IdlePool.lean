import Ccollections.Chttpclient.IdlePool

/-!
# Lists of idle connections

What an offer and a removal do to the map of the lists, for both pools.
-/

namespace Ccollections.Chttpclient.IdlePool
open Lib Cvector Function List Option

variable {α : Type} {w w' : World}

structure Kept (P : OriginKey → α → Prop) (key : OriginKey) (list : Vec α) : Prop where
  pos : 1 ≤ list.elems.length
  le : list.elems.length ≤ chttpMaxIdlePerOrigin
  capacity : list.capacity = ccolCvectorMinimumCapacity
  filed : ∀ a ∈ list.elems, P key a

theorem Kept.imp {P Q : OriginKey → α → Prop} {key : OriginKey} {list : Vec α} (h : Kept P key list)
    (himp : ∀ a ∈ list.elems, P key a → Q key a) : Kept Q key list :=
  { h with filed := fun a ha => himp a ha (h.filed a ha) }

theorem Vec.capacityAfterPop_eq {v : Vec α} (h : v.capacity = ccolCvectorMinimumCapacity) (count : Nat) (mem : Bool) :
    v.capacityAfterPop count mem = ccolCvectorMinimumCapacity := by
  simp [Vec.capacityAfterPop, h]

variable {P : OriginKey → α → Prop} {pools pools' : IdleMap α} {key : OriginKey} {list : Vec α} {mem : OfferMem}

/-! ## Offers -/

theorem listFor_cases {r : Option (Vec α)} (h : listFor pools key mem = (pools', r)) :
    (pools' = pools ∧ ∀ list, r = some list → pools.lookup key = some list) ∨
      (pools.lookup key = none ∧ r = some ⟨[], ccolCvectorMinimumCapacity⟩ ∧
        pools' = pools.insert key ⟨[], ccolCvectorMinimumCapacity⟩) := by
  unfold listFor at h
  cases hl : pools.lookup key with
  | some list =>
    rw [hl] at h
    obtain ⟨rfl, rfl⟩ := Prod.mk.inj h
    exact .inl ⟨rfl, fun _ heq => heq⟩
  | none =>
    rw [hl] at h
    cases hmem : mem.list <;> cases hentry : mem.entry <;>
      simp only [hmem, hentry, Vec.create, Bool.false_eq_true, if_true, if_false, ite_self, Prod.mk.injEq] at h
    case true.true =>
      split at h
      · obtain ⟨rfl, rfl⟩ := Prod.mk.inj h
        exact .inr ⟨rfl, rfl, rfl⟩
      · obtain ⟨rfl, rfl⟩ := Prod.mk.inj h
        exact .inl ⟨rfl, by simp⟩
    all_goals
      obtain ⟨rfl, rfl⟩ := h
      exact .inl ⟨rfl, by simp⟩

theorem listFor_none (h : listFor pools key mem = (pools', none)) : pools' = pools := by
  obtain ⟨heq, -⟩ | ⟨-, hr, -⟩ := listFor_cases h
  · exact heq
  · cases hr

theorem listFor_full (h : listFor pools key mem = (pools', some list)) (hfull : ¬ list.elems.length < chttpMaxIdlePerOrigin) :
    pools' = pools := by
  obtain ⟨heq, -⟩ | ⟨-, hr, -⟩ := listFor_cases h
  · exact heq
  · cases hr
    exact (hfull (by simp [chttpMaxIdlePerOrigin])).elim

theorem pushBack_eq (hcap : list.capacity = ccolCvectorMinimumCapacity)
    (hlt : list.elems.length < chttpMaxIdlePerOrigin) (a : α) (m : Bool) :
    list.pushBack a m = some ⟨list.elems ++ [a], ccolCvectorMinimumCapacity⟩ := by
  have hmax : list.elems.length ≠ ccolMaxElemCount := by
    rw [ccolMaxElemCount_eq]
    simp only [chttpMaxIdlePerOrigin] at hlt
    omega
  have hroom : list.elems.length < ccolCvectorMinimumCapacity := hlt
  simp only [Vec.pushBack, hcap, if_neg hmax, if_pos hroom]

/-- A push into the list that an offer found files one more connection and keeps the lists as they should be. -/
theorem listFor_push (h : listFor pools key mem = (pools', some list)) (hlt : list.elems.length < chttpMaxIdlePerOrigin)
    (hkept : Buckets.All (Kept P) pools) {a : α} (ha : P key a) :
    ∃ list', list.pushBack a mem.push = some list' ∧ Buckets.All (Kept P) (pools'.insert key list') ∧
      (pooled (pools'.insert key list')).Perm (a :: pooled pools) := by
  obtain ⟨rfl, hlookup⟩ | ⟨hnone, hr, rfl⟩ := listFor_cases h
  · have hold := hkept key list (hlookup list rfl)
    refine ⟨_, pushBack_eq hold.capacity hlt a mem.push, hkept.insert ?_, ?_⟩
    · exact {
        pos := by simp
        le := by
          rw [length_append]
          exact hlt
        capacity := rfl
        filed := by
          intro b hb
          obtain hb | hb := mem_append.mp hb
          · exact hold.filed b hb
          · exact (mem_singleton.mp hb) ▸ ha }
    · have hperm : (pooled pools').Perm (list.elems ++ Buckets.members Vec.elems (pools'.erase key)) :=
        Buckets.perm_members (hlookup list rfl)
      simp only [pooled, Buckets.members_insert]
      calc (list.elems ++ [a] ++ Buckets.members Vec.elems (pools'.erase key)).Perm
            (a :: (list.elems ++ Buckets.members Vec.elems (pools'.erase key))) := by
              rw [append_assoc]
              exact perm_middle
        _ |>.Perm (a :: Buckets.members Vec.elems pools') := hperm.symm.cons a
  · cases hr
    refine ⟨_, pushBack_eq rfl hlt a mem.push, ?_, ?_⟩
    · rw [AList.insert_insert]
      exact hkept.insert {
        pos := by simp
        le := by simp [chttpMaxIdlePerOrigin]
        capacity := rfl
        filed := by
          intro b hb
          simp only [nil_append, mem_singleton] at hb
          exact hb ▸ ha }
    · rw [AList.insert_insert]
      simp only [pooled, Buckets.members_insert, nil_append, singleton_append]
      rw [Buckets.members_erase_of_notMem hnone]

/-! ## Removals -/

theorem putBack_kept (hkept : Buckets.All (Kept P) pools) {list' : Vec α} {a : α} (hlookup : pools.lookup key = some list)
    (hperm : list.elems.Perm (a :: list'.elems)) (hcap : list'.capacity = ccolCvectorMinimumCapacity) :
    Buckets.All (Kept P) (putBack pools key list') := by
  have hold := hkept key list hlookup
  have hlen : list.elems.length = list'.elems.length + 1 := hperm.length_eq
  unfold putBack
  split
  · exact hkept.erase key
  · refine hkept.insert { pos := by omega, le := ?_, capacity := hcap, filed := ?_ }
    · have hle := hold.le
      omega
    · intro b hb
      exact hold.filed b (hperm.mem_iff.mpr (mem_cons_of_mem a hb))

theorem putBack_perm {list' : Vec α} {a : α} (hlookup : pools.lookup key = some list)
    (hperm : list.elems.Perm (a :: list'.elems)) : (pooled pools).Perm (a :: pooled (putBack pools key list')) := by
  have hsplit : (pooled pools).Perm (list.elems ++ Buckets.members Vec.elems (pools.erase key)) :=
    Buckets.perm_members hlookup
  have hrest : pooled (putBack pools key list') = list'.elems ++ Buckets.members Vec.elems (pools.erase key) := by
    unfold putBack pooled
    split
    · rename_i hempty
      rw [length_eq_zero_iff.mp hempty, nil_append]
    · rw [Buckets.members_insert]
  rw [hrest]
  calc (pooled pools).Perm (list.elems ++ Buckets.members Vec.elems (pools.erase key)) := hsplit
    _ |>.Perm (a :: (list'.elems ++ Buckets.members Vec.elems (pools.erase key))) := hperm.append_right _

theorem popBack_some {a : α} {list' : Vec α} {m : Bool} (h : list.popBack m = some (list', a))
    (hcap : list.capacity = ccolCvectorMinimumCapacity) :
    list.elems.Perm (a :: list'.elems) ∧ list'.capacity = ccolCvectorMinimumCapacity := by
  unfold Vec.popBack at h
  cases hlast : list.elems.getLast? with
  | none => simp [hlast] at h
  | some b =>
    simp only [hlast, some.injEq, Prod.mk.injEq] at h
    obtain ⟨rfl, rfl⟩ := h
    refine ⟨?_, Vec.capacityAfterPop_eq hcap _ m⟩
    have happend : list.elems.dropLast ++ [b] = list.elems := by
      obtain ⟨hne, rfl⟩ := mem_getLast?_eq_getLast (mem_def.mpr hlast)
      exact dropLast_append_getLast _
    conv_lhs => rw [← happend]
    exact perm_append_singleton _ _

/-! ## The synchronous pool -/

structure PoolClient.Books (cli : PoolClient) : Prop where
  kept : Buckets.All (Kept fun key (c : Conn) => c.originKey = key) cli.idlePools
  total : cli.idleTotalCount = (pooled cli.idlePools).length
  bound : cli.idleTotalCount ≤ chttpMaxIdleTotal

variable {cli cli' : PoolClient} {c : Conn}

theorem idlePoolOffer_books {now : Timespec} {ok : Bool} (h : cli.Books) (ho : idlePoolOffer cli c now mem = (cli', ok)) :
    cli'.Books ∧ ((pooled cli'.idlePools).map Conn.serial).Perm
      ((if ok then [c.serial] else []) ++ (pooled cli.idlePools).map Conn.serial) := by
  have hsame : ∀ {x : PoolClient}, x = cli → ok = false → x.Books ∧ ((pooled x.idlePools).map Conn.serial).Perm
      ((if ok then [c.serial] else []) ++ (pooled cli.idlePools).map Conn.serial) := by
    rintro x rfl rfl
    exact ⟨h, .refl _⟩
  unfold idlePoolOffer at ho
  split at ho
  · rename_i hroom
    simp only [Bool.and_eq_true, decide_eq_true_eq] at hroom
    split at ho
    · rename_i pools hlist
      obtain ⟨rfl, rfl⟩ := Prod.mk.inj ho
      exact hsame (by rw [listFor_none hlist]) rfl
    · rename_i pools list hlist
      split at ho
      · rename_i hlt
        obtain ⟨list', hpush, hkept, hperm⟩ :=
          listFor_push hlist hlt h.kept (a := { c with lastUsed := now }) rfl
        rw [hpush] at ho
        obtain ⟨rfl, rfl⟩ := Prod.mk.inj ho
        have hlen := hperm.length_eq
        refine ⟨⟨hkept, ?_, hroom.2⟩, ?_⟩
        · rw [hlen, length_cons, h.total]
        · simpa using hperm.map Conn.serial
      · rename_i hfull
        obtain ⟨rfl, rfl⟩ := Prod.mk.inj ho
        exact hsame (by rw [listFor_full hlist hfull]) rfl
  · obtain ⟨rfl, rfl⟩ := Prod.mk.inj ho
    exact hsame rfl rfl

theorem idlePoolTakeLocked_none {m : Bool} (ht : idlePoolTakeLocked cli key m = (cli', none)) : cli' = cli := by
  unfold idlePoolTakeLocked at ht
  split at ht
  · exact (Prod.mk.inj ht).1.symm
  · split at ht
    · exact (Prod.mk.inj ht).1.symm
    · cases (Prod.mk.inj ht).2

theorem idlePoolTakeLocked_some {m : Bool} {g : UInt64} (h : cli.Books)
    (ht : idlePoolTakeLocked cli key m = (cli', some (c, g))) :
    cli'.Books ∧ (pooled cli.idlePools).Perm (c :: pooled cli'.idlePools) ∧ g = cli.tlsGeneration ∧
      ∃ list, cli.idlePools.lookup key = some list ∧ c ∈ list.elems := by
  unfold idlePoolTakeLocked at ht
  split at ht
  · cases (Prod.mk.inj ht).2
  · rename_i list hlookup
    split at ht
    · cases (Prod.mk.inj ht).2
    · rename_i list' c' hpop
      obtain ⟨rfl, hfound⟩ := Prod.mk.inj ht
      obtain ⟨rfl, rfl⟩ := Prod.mk.inj (some.inj hfound)
      obtain ⟨hperm, hcap⟩ := popBack_some hpop (h.kept key list hlookup).capacity
      have hpooled := putBack_perm hlookup hperm
      have hlen := hpooled.length_eq
      have htotal := h.total
      have hbound := h.bound
      simp only [length_cons] at hlen
      refine ⟨⟨putBack_kept h.kept hlookup hperm hcap, ?_, ?_⟩, hpooled, rfl, list, hlookup, ?_⟩
      · dsimp only
        rw [if_pos (by omega)]
        omega
      · dsimp only
        rw [if_pos (by omega)]
        omega
      · exact hperm.mem_iff.mpr mem_cons_self

namespace World

def places (w : World) : List Nat :=
  (w.held ++ judged w.takes ++ pooled w.cli.idlePools ++ w.tornDown).map Conn.serial

/-- The candidate was in the list of the asked origin, and the client had this generation then. -/
def TakenFrom (w : World) (key : OriginKey) (c : Conn) (g : UInt64) : Prop :=
  ∃ w₀, Reachable w₀ ∧ Relation.ReflTransGen Step w₀ w ∧ w₀.cli.tlsGeneration = g ∧
    ∃ list, w₀.cli.idlePools.lookup key = some list ∧ c ∈ list.elems

structure Inv (w : World) : Prop where
  books : w.cli.Books
  places : w.places.Perm (List.range w.made)

theorem Inv.start : Inv start where
  books := ⟨.empty, rfl, Nat.zero_le _⟩
  places := .refl _

def serials (n : Nat) (l : List Conn) : Nat := (l.map Conn.serial).count n

@[simp] theorem serials_cons (n : Nat) (c : Conn) (l : List Conn) :
    serials n (c :: l) = serials n l + (if c.serial = n then 1 else 0) := by
  simp [serials, count_cons]

theorem serials_perm {l l' : List Conn} (h : l.Perm l') (n : Nat) : serials n l = serials n l' :=
  (h.map Conn.serial).count_eq n

theorem count_places (w : World) (n : Nat) :
    w.places.count n = serials n w.held + serials n (judged w.takes) + serials n (pooled w.cli.idlePools) + serials n w.tornDown := by
  simp [World.places, serials, count_append, Nat.add_assoc]

theorem judged_perm {takes : List Take} {i : Nat} {t : Take} (h : takes[i]? = some t) :
    (judged takes).Perm ((t.candidate.map Prod.fst).toList ++ judged (takes.eraseIdx i)) := by
  have hperm := (perm_eraseIdx h).filterMap fun t : Take => t.candidate.map Prod.fst
  obtain ⟨key, candidate⟩ := t
  cases candidate with
  | none => simpa [judged] using hperm
  | some found => simpa [judged] using hperm

theorem Inv.move (h : w.Inv) (hbooks : w'.cli.Books) (hmade : w'.made = w.made)
    (hcount : ∀ n, w'.places.count n = w.places.count n) : w'.Inv :=
  ⟨hbooks, hmade ▸ (perm_iff_count.mpr hcount).trans h.places⟩

theorem Inv.offer {i : Nat} {now : Timespec} {mem : OfferMem} (h : w.Inv)
    (hs : w.step (.offer i now mem) = some w') : w'.Inv := by
  simp only [World.step, bind_eq_bind, bind_eq_some_iff] at hs
  obtain ⟨c, hc, hs⟩ := hs
  cases ho : idlePoolOffer w.cli c now mem with
  | mk cli ok =>
    obtain ⟨hbooks, hpooled⟩ := idlePoolOffer_books h.books ho
    have hheld := serials_perm (perm_eraseIdx hc)
    have hpool := fun n => hpooled.count_eq n
    cases ok with
    | false =>
      simp only [ho, some.injEq] at hs
      subst hs
      refine h.move hbooks rfl fun n => ?_
      have hn := hheld n
      have hp : serials n (pooled cli.idlePools) = serials n (pooled w.cli.idlePools) := hpool n
      simp only [count_places, serials_cons] at hn ⊢
      omega
    | true =>
      simp only [ho, some.injEq] at hs
      subst hs
      refine h.move hbooks rfl fun n => ?_
      have hn := hheld n
      have hp : serials n (pooled cli.idlePools) = serials n (c :: pooled w.cli.idlePools) := hpool n
      simp only [count_places, serials_cons] at hn hp ⊢
      omega

theorem Inv.takeLocked {i : Nat} {m : Bool} (h : w.Inv) (hs : w.step (.takeLocked i m) = some w') : w'.Inv := by
  simp only [World.step] at hs
  split at hs
  · rename_i key htake
    have hjudged := serials_perm (judged_perm htake)
    split at hs
    · rename_i cli ht
      obtain rfl := idlePoolTakeLocked_none ht
      obtain rfl := some.inj hs
      refine h.move h.books rfl fun n => ?_
      have hn := hjudged n
      simp only [count_places, map_none, toList_none, nil_append] at hn ⊢
      omega
    · rename_i cli found ht
      obtain ⟨c, g⟩ := found
      obtain ⟨hbooks, hpooled, -, -⟩ := idlePoolTakeLocked_some h.books ht
      obtain rfl := some.inj hs
      refine h.move hbooks rfl fun n => ?_
      have hn := hjudged n
      have hp := serials_perm hpooled n
      have hnew : judged (⟨key, some (c, g)⟩ :: w.takes.eraseIdx i) = c :: judged (w.takes.eraseIdx i) := rfl
      simp only [count_places, hnew, serials_cons, map_none, toList_none, nil_append] at hn hp ⊢
      omega
  · cases hs

theorem Inv.takeJudge {i : Nat} {now : Timespec} {probe : Bool} (h : w.Inv)
    (hs : w.step (.takeJudge i now probe) = some w') : w'.Inv := by
  simp only [World.step] at hs
  split at hs
  · rename_i key c g htake
    have hjudged := serials_perm (judged_perm htake)
    split at hs
    · obtain rfl := some.inj hs
      refine h.move h.books rfl fun n => ?_
      have hn := hjudged n
      simp only [count_places, map_some, toList_some, singleton_append, serials_cons] at hn ⊢
      omega
    · obtain rfl := some.inj hs
      refine h.move h.books rfl fun n => ?_
      have hn := hjudged n
      have hnew : judged (⟨key, none⟩ :: w.takes.eraseIdx i) = judged (w.takes.eraseIdx i) := rfl
      simp only [count_places, hnew, map_some, toList_some, singleton_append, serials_cons] at hn ⊢
      omega
  · cases hs

theorem Inv.step {a : Action} (h : w.Inv) (hs : w.step a = some w') : w'.Inv := by
  cases a with
  | connOpen key tls generation now =>
    obtain rfl := some.inj hs
    refine ⟨h.books, ?_⟩
    have hplaces := h.places
    rw [range_succ]
    exact (hplaces.cons w.made).trans (perm_append_singleton _ _).symm
  | offer i now mem => exact h.offer hs
  | teardown i =>
    simp only [World.step, bind_eq_bind, bind_eq_some_iff] at hs
    obtain ⟨c, hc, hs⟩ := hs
    obtain rfl := some.inj hs
    refine h.move h.books rfl fun n => ?_
    have hn := serials_perm (perm_eraseIdx hc) n
    simp only [count_places, serials_cons] at hn ⊢
    omega
  | take key =>
    obtain rfl := some.inj hs
    exact h.move h.books rfl fun _ => rfl
  | takeLocked i m => exact h.takeLocked hs
  | takeJudge i now probe => exact h.takeJudge hs
  | setTls =>
    obtain rfl := some.inj hs
    exact h.move { h.books with } rfl fun _ => rfl
  | destroy =>
    obtain rfl := some.inj hs
    exact h.move { h.books with } rfl fun _ => rfl

theorem Reachable.inv {w : World} (h : w.Reachable) : w.Inv := by
  induction h with
  | refl => exact .start
  | tail _ hstep ih =>
    obtain ⟨a, ha⟩ := hstep
    exact ih.step ha

/-! ## Where a candidate comes from -/

theorem TakenFrom.step {key : OriginKey} {c : Conn} {g : UInt64} (h : w.TakenFrom key c g) (hs : Step w w') :
    w'.TakenFrom key c g := by
  obtain ⟨w₀, hreach, hruns, hfrom⟩ := h
  exact ⟨w₀, hreach, hruns.tail hs, hfrom⟩

/-- Every candidate outside the lock was taken from the list of the origin its taker asked for. -/
def Traced (w : World) : Prop := ∀ t ∈ w.takes, ∀ c g, t.candidate = some (c, g) → w.TakenFrom t.key c g

theorem Traced.mono (h : w.Traced) (hs : Step w w')
    (htakes : ∀ t ∈ w'.takes, t ∈ w.takes ∨ t.candidate = none) : w'.Traced := by
  intro t ht c g hcand
  obtain hold | hnone := htakes t ht
  · exact (h t hold c g hcand).step hs
  · rw [hnone] at hcand
    cases hcand

theorem Traced.step {a : Action} (hw : w.Reachable) (h : w.Traced) (hs : w.step a = some w') : w'.Traced := by
  have hstep : Step w w' := ⟨a, hs⟩
  have hsub : ∀ i, ∀ t ∈ w.takes.eraseIdx i, t ∈ w.takes := fun i t ht => (eraseIdx_sublist _ _).mem ht
  cases a with
  | offer i now mem =>
    simp only [World.step, bind_eq_bind, bind_eq_some_iff] at hs
    obtain ⟨c, -, hs⟩ := hs
    split at hs <;> obtain rfl := some.inj hs <;> exact h.mono hstep fun t ht => .inl ht
  | teardown i =>
    simp only [World.step, bind_eq_bind, bind_eq_some_iff] at hs
    obtain ⟨c, -, hs⟩ := hs
    obtain rfl := some.inj hs
    exact h.mono hstep fun t ht => .inl ht
  | take key =>
    obtain rfl := some.inj hs
    apply h.mono hstep
    intro t ht
    obtain rfl | ht := mem_cons.mp ht
    · exact .inr rfl
    · exact .inl ht
  | takeLocked i m =>
    simp only [World.step] at hs
    split at hs
    · rename_i key htake
      split at hs
      · obtain rfl := some.inj hs
        exact h.mono hstep fun t ht => .inl (hsub i t ht)
      · rename_i cli found ht
        obtain ⟨c, g⟩ := found
        obtain ⟨-, -, rfl, list, hlookup, hc⟩ := idlePoolTakeLocked_some hw.inv.books ht
        obtain rfl := some.inj hs
        intro t htmem c' g' hcand
        obtain rfl | htmem := mem_cons.mp htmem
        · obtain ⟨rfl, rfl⟩ := Prod.mk.inj (some.inj hcand)
          exact ⟨w, hw, .single hstep, rfl, list, hlookup, hc⟩
        · exact (h t (hsub i t htmem) c' g' hcand).step hstep
    · cases hs
  | takeJudge i now probe =>
    simp only [World.step] at hs
    split at hs
    · split at hs <;> obtain rfl := some.inj hs <;> apply h.mono hstep <;> intro t ht
      · exact .inl (hsub i t ht)
      · obtain rfl | ht := mem_cons.mp ht
        · exact .inr rfl
        · exact .inl (hsub i t ht)
    · cases hs
  | connOpen key tls generation now =>
    obtain rfl := some.inj hs
    exact h.mono hstep fun t ht => .inl ht
  | setTls =>
    obtain rfl := some.inj hs
    exact h.mono hstep fun t ht => .inl ht
  | destroy =>
    obtain rfl := some.inj hs
    exact h.mono hstep fun t ht => .inl ht

theorem Reachable.traced {w : World} (h : w.Reachable) : w.Traced := by
  induction h with
  | refl =>
    intro t ht
    cases ht
  | tail hw hstep ih =>
    obtain ⟨a, ha⟩ := hstep
    exact ih.step hw ha

end World

/-! ## Ages -/

theorem msElapsedFloor_eq (start stop : Timespec) : msElapsedFloor start stop = nsElapsed start stop / 1000000 := by
  have htdiv := Int.tdiv_eq_ediv (a := nsElapsed start stop) (b := 1000000)
  have hdiv := Int.mul_ediv_add_emod (nsElapsed start stop) 1000000
  have hpos := Int.emod_nonneg (nsElapsed start stop) (b := 1000000) (by omega)
  have hlt := Int.emod_lt_of_pos (nsElapsed start stop) (b := 1000000) (by omega)
  have hsign : Int.sign 1000000 = 1 := rfl
  rw [hsign] at htdiv
  simp only [msElapsedFloor]
  split <;> split at htdiv <;> omega

end Ccollections.Chttpclient.IdlePool

/-!
# Ownership of asynchronous contexts

A live context is in the pool, with a hop or with the dispatch that evicts it.
-/

namespace Ccollections.Chttpclient.AsyncIdlePool
open Lib Chttpclient.IdlePool Function List Option

variable {w w' : World} {now : Timespec}

def Filed (ctxs : Ctxs) (key : OriginKey) (c : Nat) : Prop :=
  ∃ x, ctxs c = some x ∧ x.originKey = key ∧ x.chain = none ∧ x.idle = true

def evicting (evictions : List Eviction) : List Nat := (evictions.filter fun e => !e.freed).map Eviction.ctx

/-! ## Contexts that only change outside the pool -/

def SameButShut (ctxs ctxs' : Ctxs) : Prop :=
  ∀ c, ctxs' c = ctxs c ∨ ∃ x, ctxs c = some x ∧ ctxs' c = some { x with shut := true }

theorem SameButShut.refl (ctxs : Ctxs) : SameButShut ctxs ctxs := fun _ => .inl rfl

theorem SameButShut.shut {ctxs : Ctxs} {c : Nat} {x : Ctx} (h : ctxs c = some x) :
    SameButShut ctxs (update ctxs c (some { x with shut := true })) := by
  intro a
  by_cases ha : a = c
  · subst ha
    exact .inr ⟨x, h, by simp⟩
  · exact .inl (update_of_ne ha _ _)

theorem SameButShut.trans {a b c : Ctxs} (h : SameButShut a b) (h' : SameButShut b c) : SameButShut a c := by
  intro n
  obtain heq | ⟨x, hx, hx'⟩ := h n <;> obtain heq' | ⟨y, hy, hy'⟩ := h' n
  · exact .inl (heq'.trans heq)
  · exact .inr ⟨y, heq ▸ hy, hy'⟩
  · exact .inr ⟨x, hx, heq'.trans hx'⟩
  · obtain rfl : { x with shut := true } = y := some.inj (hx'.symm.trans hy)
    exact .inr ⟨x, hx, hy'⟩

variable {ctxs ctxs' : Ctxs} {c : Nat}

theorem SameButShut.isSome (h : SameButShut ctxs ctxs') (c : Nat) : (ctxs' c).isSome = (ctxs c).isSome := by
  obtain heq | ⟨x, hx, hx'⟩ := h c
  · rw [heq]
  · rw [hx, hx']
    rfl

theorem SameButShut.filed (h : SameButShut ctxs ctxs') {key : OriginKey} (hf : Filed ctxs key c) : Filed ctxs' key c := by
  obtain ⟨y, hy, hfiled⟩ := hf
  obtain heq | ⟨x, hx, hx'⟩ := h c
  · exact ⟨y, heq.trans hy, hfiled⟩
  · obtain rfl : x = y := some.inj (hx.symm.trans hy)
    exact ⟨_, hx', hfiled⟩

theorem kept_update {pools : IdleMap Nat} (h : Buckets.All (Kept (Filed ctxs)) pools) (hc : c ∉ pooled pools)
    (v : Option Ctx) : Buckets.All (Kept (Filed (update ctxs c v))) pools := by
  intro key list hlookup
  apply (h key list hlookup).imp
  intro a ha hfiled
  have hne : a ≠ c := by
    rintro rfl
    exact hc (Buckets.mem_members.mpr ⟨key, list, hlookup, ha⟩)
  simpa [Filed, update_of_ne hne] using hfiled

theorem kept_shut {pools : IdleMap Nat} (h : Buckets.All (Kept (Filed ctxs)) pools) (hshut : SameButShut ctxs ctxs') :
    Buckets.All (Kept (Filed ctxs')) pools :=
  fun key list hlookup => (h key list hlookup).imp fun _ _ => hshut.filed

/-! ## The sections -/

theorem takeScan_spec {cli : Client} {elems : List Nat} {n : Nat} {found : Option (Nat × Nat)}
    (h : takeScan cli now elems ctxs n = some (ctxs', found)) :
    SameButShut ctxs ctxs' ∧ ∀ idx c, found = some (idx, c) → elems[idx]? = some c := by
  induction n generalizing ctxs with
  | zero =>
    obtain ⟨rfl, rfl⟩ := Prod.mk.inj (some.inj h)
    exact ⟨.refl _, by simp⟩
  | succ n ih =>
    simp only [takeScan, bind_eq_bind, bind_eq_some_iff] at h
    obtain ⟨c, hc, x, hx, h⟩ := h
    split at h
    · obtain ⟨hshut, hfound⟩ := ih h
      exact ⟨(SameButShut.shut hx).trans hshut, hfound⟩
    · obtain ⟨rfl, rfl⟩ := Prod.mk.inj (some.inj h)
      refine ⟨.refl _, ?_⟩
      rintro idx d hd
      obtain ⟨rfl, rfl⟩ := Prod.mk.inj (some.inj hd)
      exact hc

variable {cli cli' : Client} {P : OriginKey → Nat → Prop} {key : OriginKey} {list : Vec Nat} {i : Nat} {m : Bool}

theorem removeAt_spec (hkept : Buckets.All (Kept P) cli.idlePoolsAsync) (hlookup : cli.idlePoolsAsync.lookup key = some list)
    (hc : list.elems[i]? = some c) :
    Buckets.All (Kept P) (removeAt cli key list i m).idlePoolsAsync ∧
      (pooled cli.idlePoolsAsync).Perm (c :: pooled (removeAt cli key list i m).idlePoolsAsync) := by
  have hperm : list.elems.Perm (c :: (list.popInto i m).elems) := perm_swapRemove hc
  have hcap := Vec.capacityAfterPop_eq (hkept key list hlookup).capacity (swapRemove list.elems i).length m
  exact ⟨putBack_kept hkept hlookup hperm hcap, putBack_perm hlookup hperm⟩

theorem asyncIdleRemoveLocked_false {x : Ctx} (h : asyncIdleRemoveLocked cli c x m = (cli', false)) : cli' = cli := by
  unfold asyncIdleRemoveLocked at h
  split at h
  · exact (Prod.mk.inj h).1.symm
  · split at h
    · exact (Prod.mk.inj h).1.symm
    · cases (Prod.mk.inj h).2

theorem asyncIdleRemoveLocked_true {x : Ctx} (hkept : Buckets.All (Kept P) cli.idlePoolsAsync)
    (h : asyncIdleRemoveLocked cli c x m = (cli', true)) :
    Buckets.All (Kept P) cli'.idlePoolsAsync ∧ (pooled cli.idlePoolsAsync).Perm (c :: pooled cli'.idlePoolsAsync) ∧
      cli'.idleTotalCountAsync = cli.idleTotalCountAsync ∧ cli'.destroying = cli.destroying := by
  unfold asyncIdleRemoveLocked at h
  split at h
  · cases (Prod.mk.inj h).2
  · rename_i list hlookup
    split at h
    · cases (Prod.mk.inj h).2
    · rename_i i hfind
      obtain rfl := (Prod.mk.inj h).1
      have hi : list.elems[i]? = some c := by
        obtain ⟨hlt, hp, -⟩ := List.findIdx?_eq_some_iff_getElem.mp hfind
        rw [List.getElem?_eq_getElem hlt, of_decide_eq_true hp]
      obtain ⟨hkept', hperm⟩ := removeAt_spec hkept hlookup hi (m := m)
      exact ⟨hkept', hperm, rfl, rfl⟩

theorem asyncIdleCountDecLocked_total (cli : Client) :
    (asyncIdleCountDecLocked cli).idleTotalCountAsync = cli.idleTotalCountAsync - 1 := by
  by_cases hpos : cli.idleTotalCountAsync > 0
  · simp only [asyncIdleCountDecLocked, if_pos hpos]
  · simp only [asyncIdleCountDecLocked, if_neg hpos]
    omega

theorem asyncIdlePoolTake_spec {found : Option Nat} (hkept : Buckets.All (Kept P) cli.idlePoolsAsync)
    (h : asyncIdlePoolTake cli ctxs key now m = some (cli', ctxs', found)) :
    SameButShut ctxs ctxs' ∧
      ((found = none ∧ cli' = cli) ∨ ∃ c, found = some c ∧ Buckets.All (Kept P) cli'.idlePoolsAsync ∧
        (pooled cli.idlePoolsAsync).Perm (c :: pooled cli'.idlePoolsAsync) ∧ cli'.destroying = cli.destroying ∧
        cli'.idleTotalCountAsync = cli.idleTotalCountAsync - 1) := by
  unfold asyncIdlePoolTake at h
  split at h
  · obtain ⟨rfl, rfl, rfl⟩ := some.inj h
    exact ⟨.refl _, .inl ⟨rfl, rfl⟩⟩
  · rename_i list hlookup
    simp only [bind_eq_bind, bind_eq_some_iff] at h
    obtain ⟨⟨ctxs₁, found₁⟩, hscan, h⟩ := h
    obtain ⟨hshut, hfound⟩ := takeScan_spec hscan
    cases found₁ with
    | none =>
      obtain ⟨rfl, rfl, rfl⟩ := some.inj h
      exact ⟨hshut, .inl ⟨rfl, rfl⟩⟩
    | some at_ =>
      obtain ⟨idx, c⟩ := at_
      obtain ⟨rfl, rfl, rfl⟩ := some.inj h
      obtain ⟨hkept', hperm⟩ := removeAt_spec hkept hlookup (hfound idx c rfl) (m := m)
      exact ⟨hshut, .inr ⟨c, rfl, hkept', hperm, rfl, asyncIdleCountDecLocked_total _⟩⟩

theorem asyncIdlePoolOffer_spec {x : Ctx} {engine : Bool} {mem : OfferMem} {r : Offered}
    (hkept : Buckets.All (Kept (Filed ctxs)) cli.idlePoolsAsync) (hc : c ∉ pooled cli.idlePoolsAsync)
    (h : asyncIdlePoolOffer cli ctxs c x now engine mem = (cli', ctxs', r)) :
    (r = .untouched ∧ cli' = cli ∧ ctxs' = ctxs) ∨
      (r = .pooled ∧ cli.destroying = false ∧ cli'.destroying = false ∧
        cli'.idleTotalCountAsync = cli.idleTotalCountAsync + 1 ∧ ctxs' = update ctxs c (some (x.reset now)) ∧
        Buckets.All (Kept (Filed ctxs')) cli'.idlePoolsAsync ∧
        (pooled cli'.idlePoolsAsync).Perm (c :: pooled cli.idlePoolsAsync)) := by
  unfold asyncIdlePoolOffer at h
  split at h
  · obtain ⟨rfl, rfl, rfl⟩ := h
    exact .inl ⟨rfl, rfl, rfl⟩
  · split at h
    · rename_i hroom
      simp only [Bool.and_eq_true, Bool.not_eq_true', decide_eq_true_eq] at hroom
      split at h
      · rename_i pools hlist
        obtain ⟨rfl, rfl, rfl⟩ := h
        exact .inl ⟨rfl, by rw [listFor_none hlist], rfl⟩
      · rename_i pools list hlist
        split at h
        · rename_i hlt
          have hkept' := kept_update hkept hc (some (x.reset now))
          have hfiled : Filed (update ctxs c (some (x.reset now))) x.originKey c :=
            ⟨x.reset now, by simp, rfl, rfl, rfl⟩
          obtain ⟨list', hpush, hall, hperm⟩ := listFor_push hlist hlt hkept' hfiled
          rw [hpush] at h
          obtain ⟨rfl, rfl, rfl⟩ := h
          exact .inr ⟨rfl, hroom.1, hroom.1, rfl, rfl, hall, hperm⟩
        · rename_i hfull
          obtain ⟨rfl, rfl, rfl⟩ := h
          exact .inl ⟨rfl, by rw [listFor_full hlist hfull], rfl⟩
    · obtain ⟨rfl, rfl, rfl⟩ := h
      exact .inl ⟨rfl, rfl, rfl⟩

theorem evicting_perm {es : List Eviction} {i : Nat} {e : Eviction} (h : es[i]? = some e) :
    (evicting es).Perm ((if e.freed then [] else [e.ctx]) ++ evicting (es.eraseIdx i)) := by
  have hperm := ((perm_eraseIdx h).filter fun e => !e.freed).map Eviction.ctx
  cases hf : e.freed <;> simpa [evicting, hf] using hperm

/-! ## Worlds -/

namespace World

def owned (w : World) : List Nat := pooled w.cli.idlePoolsAsync ++ w.hops ++ evicting w.evictions

structure Inv (w : World) : Prop where
  kept : Buckets.All (Kept (Filed w.ctxs)) w.cli.idlePoolsAsync
  total : w.cli.idleTotalCountAsync = (pooled w.cli.idlePoolsAsync).length + w.evictions.length
  once : w.owned.Nodup
  live : ∀ c, c ∈ w.owned ↔ (w.ctxs c).isSome
  fresh : ∀ c, (w.ctxs c).isSome → c < w.made
  evicted : ∀ c ∈ w.evicted, c < w.made ∧ (c ∈ evicting w.evictions ∨ w.ctxs c = none)
  drained : w.drained = true → w.cli.destroying = true ∧ w.cli.idleTotalCountAsync = 0

theorem Inv.start : Inv start where
  kept := .empty
  total := rfl
  once := nodup_nil
  live := by simp [World.start, owned, evicting, pooled]
  fresh := by simp [World.start]
  evicted := by simp [World.start]
  drained := by simp [World.start]

theorem Inv.handOver {w : World} {owned' : List Nat} {ctxs' : Ctxs} (h : w.Inv) (hperm : owned'.Perm w.owned)
    (hlive : ∀ c, (ctxs' c).isSome = (w.ctxs c).isSome) :
    owned'.Nodup ∧ ∀ c, c ∈ owned' ↔ (ctxs' c).isSome := by
  refine ⟨hperm.nodup_iff.mpr h.once, fun c => ?_⟩
  rw [hperm.mem_iff, hlive, h.live]

theorem none_of_isSome_eq {o o' : Option Ctx} (h : o'.isSome = o.isSome) (ho : o = none) : o' = none := by
  rw [ho] at h
  exact isNone_iff_eq_none.mp (by simpa using h)

theorem Inv.not_pooled {w : World} {i c : Nat} (h : w.Inv) (hc : w.hops[i]? = some c) : c ∉ pooled w.cli.idlePoolsAsync := by
  intro hpooled
  have honce := (nodup_append.mp h.once).1
  exact (nodup_append.mp honce).2.2 c hpooled c (mem_of_getElem? hc) rfl

theorem Inv.connect {key : OriginKey} {isHttps : Bool} {g : UInt64} {chain : Nat} (h : w.Inv)
    (hs : w.step (.connect key isHttps g now chain) = some w') : w'.Inv := by
  obtain rfl := some.inj hs
  have hnew : w.made ∉ w.owned := by
    intro hmem
    exact Nat.lt_irrefl _ (h.fresh _ ((h.live _).mp hmem))
  have hpooled : w.made ∉ pooled w.cli.idlePoolsAsync := by
    intro hmem
    exact hnew (mem_append_left _ (mem_append_left _ hmem))
  have hperm : (pooled w.cli.idlePoolsAsync ++ w.made :: w.hops ++ evicting w.evictions).Perm (w.made :: w.owned) :=
    perm_middle.append_right _
  exact {
    kept := kept_update h.kept hpooled _
    total := h.total
    once := hperm.nodup_iff.mpr (nodup_cons.mpr ⟨hnew, h.once⟩)
    live := by
      intro c
      refine hperm.mem_iff.trans ?_
      by_cases hc : c = w.made
      · simp [hc]
      · simp [hc, h.live]
    fresh := by
      intro c hc
      dsimp only at hc ⊢
      by_cases heq : c = w.made
      · omega
      · rw [update_of_ne heq] at hc
        exact Nat.lt_succ_of_lt (h.fresh c hc)
    evicted := by
      intro c hc
      obtain ⟨hlt, hor⟩ := h.evicted c hc
      refine ⟨Nat.lt_succ_of_lt hlt, ?_⟩
      dsimp only
      rwa [update_of_ne (by omega)]
    drained := h.drained }

theorem Inv.take {key : OriginKey} {m : Bool} (h : w.Inv)
    (hs : w.step (.take key now m) = some w') : w'.Inv := by
  simp only [World.step, bind_eq_bind, bind_eq_some_iff] at hs
  obtain ⟨⟨cli, ctxs, found⟩, htake, hs⟩ := hs
  obtain rfl := some.inj hs
  obtain ⟨hshut, htaken⟩ := asyncIdlePoolTake_spec h.kept htake
  have hevicted : ∀ c ∈ w.evicted, c < w.made ∧ (c ∈ evicting w.evictions ∨ ctxs c = none) := by
    intro c hc
    obtain ⟨hlt, hor⟩ := h.evicted c hc
    exact ⟨hlt, hor.imp_right (none_of_isSome_eq (hshut.isSome c))⟩
  have hfresh : ∀ c, (ctxs c).isSome → c < w.made := by
    intro c hc
    exact h.fresh c (hshut.isSome c ▸ hc)
  obtain ⟨rfl, rfl⟩ | ⟨c, rfl, hkept, hperm, hdestroying, hcount⟩ := htaken
  · obtain ⟨honce, hlive⟩ := h.handOver (.refl _) hshut.isSome
    exact {
      kept := kept_shut h.kept hshut
      total := h.total
      once := honce
      live := hlive
      fresh := hfresh
      evicted := hevicted
      drained := h.drained }
  · have howned : (pooled cli.idlePoolsAsync ++ c :: w.hops ++ evicting w.evictions).Perm w.owned := by
      apply List.Perm.append_right
      exact perm_middle.trans (hperm.append_right w.hops).symm
    obtain ⟨honce, hlive⟩  := h.handOver howned hshut.isSome
    have hlen : (pooled w.cli.idlePoolsAsync).length = (pooled cli.idlePoolsAsync).length + 1 := hperm.length_eq
    have htotal := h.total
    exact {
      kept := kept_shut hkept hshut
      total := by
        dsimp only
        omega
      once := honce
      live := hlive
      fresh := hfresh
      evicted := hevicted
      drained := by
        intro hd
        have hzero := (h.drained hd).2
        omega }

theorem Inv.adopt {i chain : Nat} (h : w.Inv) (hs : w.step (.adopt i chain) = some w') : w'.Inv := by
  simp only [World.step, bind_eq_bind, bind_eq_some_iff] at hs
  obtain ⟨c, hc, x, hx, hs⟩ := hs
  obtain rfl := some.inj hs
  have hsome : ∀ a, (update w.ctxs c (some { x with chain := some chain, idle := false }) a).isSome =
      (w.ctxs a).isSome := by
    intro a
    by_cases ha : a = c
    · simp [ha, hx]
    · rw [update_of_ne ha]
  obtain ⟨honce, hlive⟩ := h.handOver (.refl _) hsome
  exact {
    kept := kept_update h.kept (h.not_pooled hc) _
    total := h.total
    once := honce
    live := hlive
    fresh := fun a ha => h.fresh a (hsome a ▸ ha)
    evicted := fun a ha => ⟨(h.evicted a ha).1, (h.evicted a ha).2.imp_right (none_of_isSome_eq (hsome a))⟩
    drained := h.drained }

theorem Inv.offer {i : Nat} {engine : Bool} {mem : OfferMem} (h : w.Inv)
    (hs : w.step (.offer i now engine mem) = some w') : w'.Inv := by
  simp only [World.step, bind_eq_bind, bind_eq_some_iff] at hs
  obtain ⟨c, hc, x, hx, hs⟩ := hs
  cases ho : asyncIdlePoolOffer w.cli w.ctxs c x now engine mem with
  | mk cli rest =>
    obtain ⟨ctxs, r⟩ := rest
    rw [ho] at hs
    obtain ⟨rfl, rfl, rfl⟩ | ⟨rfl, hdes, hdes', hcount, rfl, hkept, hperm⟩ :=
      asyncIdlePoolOffer_spec h.kept (h.not_pooled hc) ho
    · obtain rfl := some.inj hs
      exact h
    · obtain rfl := some.inj hs
      have hsome : ∀ a, (update w.ctxs c (some (x.reset now)) a).isSome = (w.ctxs a).isSome := by
        intro a
        by_cases ha : a = c
        · simp [ha, hx]
        · rw [update_of_ne ha]
      have howned : (pooled cli.idlePoolsAsync ++ w.hops.eraseIdx i ++ evicting w.evictions).Perm w.owned := by
        apply List.Perm.append_right
        calc (pooled cli.idlePoolsAsync ++ w.hops.eraseIdx i).Perm (c :: pooled w.cli.idlePoolsAsync ++ w.hops.eraseIdx i) :=
              hperm.append_right _
          _ |>.Perm (pooled w.cli.idlePoolsAsync ++ c :: w.hops.eraseIdx i) := perm_middle.symm
          _ |>.Perm (pooled w.cli.idlePoolsAsync ++ w.hops) := (perm_eraseIdx hc).symm.append_left _
      obtain ⟨honce, hlive⟩  := h.handOver howned hsome
      have hlen : (pooled cli.idlePoolsAsync).length = (pooled w.cli.idlePoolsAsync).length + 1 := hperm.length_eq
      have htotal := h.total
      exact {
        kept := hkept
        total := by
          dsimp only
          omega
        once := honce
        live := hlive
        fresh := fun a ha => h.fresh a (hsome a ▸ ha)
        evicted := fun a ha => ⟨(h.evicted a ha).1, (h.evicted a ha).2.imp_right (none_of_isSome_eq (hsome a))⟩
        drained := by
          intro hd
          rw [(h.drained hd).1] at hdes
          cases hdes }

theorem Inv.free {c : Nat} (h : w.Inv) (hcli : w'.cli = w.cli) (hctxs : w'.ctxs = update w.ctxs c none)
    (hmade : w'.made = w.made) (hlen : w'.evictions.length = w.evictions.length) (hevicted : w'.evicted = w.evicted)
    (hdrained : w'.drained = w.drained) (hperm : w.owned.Perm (c :: w'.owned)) (hpooled : c ∉ pooled w.cli.idlePoolsAsync)
    (hout : ∀ a ∈ evicting w.evictions, a ≠ c → a ∈ evicting w'.evictions) : w'.Inv := by
  have honce : (c :: w'.owned).Nodup := hperm.nodup_iff.mp h.once
  have hsome : ∀ a, a ≠ c → w'.ctxs a = w.ctxs a := fun a ha => by rw [hctxs, update_of_ne ha]
  have hnone : w'.ctxs c = none := by simp [hctxs]
  exact {
    kept := by
      rw [hcli, hctxs]
      exact kept_update h.kept hpooled _
    total := by
      rw [hcli, hlen]
      exact h.total
    once := (nodup_cons.mp honce).2
    live := by
      intro a
      by_cases ha : a = c
      · subst ha
        simp [hnone, (nodup_cons.mp honce).1]
      · rw [hsome a ha, ← h.live, hperm.mem_iff]
        simp [ha]
    fresh := by
      intro a ha
      by_cases hac : a = c
      · subst hac
        simp [hnone] at ha
      · rw [hmade]
        exact h.fresh a (hsome a hac ▸ ha)
    evicted := by
      intro a ha
      rw [hevicted] at ha
      obtain ⟨hlt, hor⟩ := h.evicted a ha
      refine ⟨hmade ▸ hlt, ?_⟩
      by_cases hac : a = c
      · exact .inr (hac ▸ hnone)
      · exact hor.imp (fun hmem => hout a hmem hac) fun hn => (hsome a hac).trans hn
    drained := by
      rw [hcli, hdrained]
      exact h.drained }

theorem Inv.teardown {i : Nat} (h : w.Inv) (hs : w.step (.teardown i) = some w') : w'.Inv := by
  simp only [World.step, bind_eq_bind, bind_eq_some_iff] at hs
  obtain ⟨c, hc, hs⟩ := hs
  obtain rfl := some.inj hs
  have hperm : w.owned.Perm (c :: (pooled w.cli.idlePoolsAsync ++ w.hops.eraseIdx i ++ evicting w.evictions)) := by
    have hhops := ((perm_eraseIdx hc).append_left (pooled w.cli.idlePoolsAsync)).trans perm_middle
    exact hhops.append_right (evicting w.evictions)
  exact h.free rfl rfl rfl rfl rfl rfl hperm (h.not_pooled hc) fun a ha _ => ha

theorem Inv.evictRemove {c : Nat} {m : Bool} (h : w.Inv) (hs : w.step (.evictRemove c m) = some w') :
    w'.Inv := by
  simp only [World.step, bind_eq_bind, bind_eq_some_iff] at hs
  obtain ⟨x, hx, hs⟩ := hs
  cases hr : asyncIdleRemoveLocked w.cli c x m with
  | mk cli ok =>
    cases ok with
    | false =>
      simp only [hr, some.injEq] at hs
      obtain rfl := asyncIdleRemoveLocked_false hr
      exact hs ▸ h
    | true =>
      simp only [hr, some.injEq] at hs
      subst hs
      obtain ⟨hkept, hperm, hcount, hdes⟩ := asyncIdleRemoveLocked_true h.kept hr
      have howned : (pooled cli.idlePoolsAsync ++ w.hops ++ c :: evicting w.evictions).Perm w.owned := by
        refine perm_middle.trans ?_
        exact ((hperm.append_right w.hops).append_right (evicting w.evictions)).symm
      obtain ⟨honce, hlive⟩ := h.handOver howned fun _ => rfl
      have hlen : (pooled w.cli.idlePoolsAsync).length = (pooled cli.idlePoolsAsync).length + 1 := hperm.length_eq
      have htotal := h.total
      exact {
        kept := hkept
        total := by
          simp only [length_cons]
          omega
        once := honce
        live := hlive
        fresh := h.fresh
        evicted := by
          intro a ha
          obtain rfl | ha := mem_cons.mp ha
          · exact ⟨h.fresh a (by simp [hx]), .inl mem_cons_self⟩
          · obtain ⟨hlt, hor⟩ := h.evicted a ha
            exact ⟨hlt, hor.imp_left (mem_cons_of_mem c)⟩
        drained := by
          intro hd
          obtain ⟨hd₁, hd₂⟩ := h.drained hd
          exact ⟨hdes.trans hd₁, hcount.trans hd₂⟩ }

theorem Inv.evictFree {i : Nat} (h : w.Inv) (hs : w.step (.evictFree i) = some w') : w'.Inv := by
  simp only [World.step] at hs
  split at hs
  · rename_i c he
    obtain rfl := some.inj hs
    have hev : (evicting w.evictions).Perm (c :: evicting (w.evictions.eraseIdx i)) := evicting_perm he
    have hperm : w.owned.Perm (c :: (pooled w.cli.idlePoolsAsync ++ w.hops ++ evicting (w.evictions.eraseIdx i))) :=
      (hev.append_left _).trans perm_middle
    have hpooled : c ∉ pooled w.cli.idlePoolsAsync := by
      intro hmem
      have honce := (nodup_append.mp h.once).2.2
      exact honce c (mem_append_left _ hmem) c (hev.mem_iff.mpr mem_cons_self) rfl
    refine h.free rfl rfl rfl (perm_eraseIdx he).length_eq.symm rfl rfl hperm hpooled fun a ha hne => ?_
    exact mem_of_ne_of_mem hne (hev.mem_iff.mp ha)
  · cases hs

theorem Inv.evictCount {i : Nat} (h : w.Inv) (hs : w.step (.evictCount i) = some w') : w'.Inv := by
  simp only [World.step] at hs
  split at hs
  · rename_i c he
    obtain rfl := some.inj hs
    have hev : (evicting w.evictions).Perm (evicting (w.evictions.eraseIdx i)) := evicting_perm he
    obtain ⟨honce, hlive⟩ := h.handOver (hev.symm.append_left _) fun _ => rfl
    have hlen : w.evictions.length = (w.evictions.eraseIdx i).length + 1 := (perm_eraseIdx he).length_eq
    have htotal := h.total
    have hcount := asyncIdleCountDecLocked_total w.cli
    exact {
      kept := h.kept
      total := by
        have hpool : (asyncIdleCountDecLocked w.cli).idlePoolsAsync = w.cli.idlePoolsAsync := rfl
        dsimp only
        rw [hcount, hpool]
        omega
      once := honce
      live := hlive
      fresh := h.fresh
      evicted := fun a ha => ⟨(h.evicted a ha).1, (h.evicted a ha).2.imp_left hev.mem_iff.mp⟩
      drained := by
        intro hd
        have hzero := (h.drained hd).2
        omega }
  · cases hs

theorem Inv.destroyShutdown (h : w.Inv) (hs : w.step .destroyShutdown = some w') : w'.Inv := by
  obtain rfl := some.inj hs
  have hshut : SameButShut w.ctxs
      fun c => if c ∈ pooled w.cli.idlePoolsAsync then (w.ctxs c).map ({ · with shut := true }) else w.ctxs c := by
    intro c
    dsimp only
    split
    · cases hx : w.ctxs c with
      | none => exact .inl rfl
      | some x => exact .inr ⟨x, rfl, rfl⟩
    · exact .inl rfl
  obtain ⟨honce, hlive⟩ := h.handOver (.refl _) hshut.isSome
  exact {
    kept := kept_shut h.kept hshut
    total := h.total
    once := honce
    live := hlive
    fresh := fun a ha => h.fresh a (hshut.isSome a ▸ ha)
    evicted := fun a ha => ⟨(h.evicted a ha).1, (h.evicted a ha).2.imp_right (none_of_isSome_eq (hshut.isSome a))⟩
    drained := h.drained }

theorem Inv.step {a : Action} (h : w.Inv) (hs : w.step a = some w') : w'.Inv := by
  cases a with
  | connect key isHttps g now chain => exact h.connect hs
  | take key now m => exact h.take hs
  | adopt i chain => exact h.adopt hs
  | offer i now engine mem => exact h.offer hs
  | teardown i => exact h.teardown hs
  | evictRemove c m => exact h.evictRemove hs
  | evictFree i => exact h.evictFree hs
  | evictCount i => exact h.evictCount hs
  | setTls =>
    obtain rfl := some.inj hs
    exact { h with }
  | destroy =>
    obtain rfl := some.inj hs
    exact { h with drained := fun hd => ⟨rfl, (h.drained hd).2⟩ }
  | destroyShutdown => exact h.destroyShutdown hs
  | destroyDrained =>
    simp only [World.step] at hs
    split at hs
    · rename_i hzero
      obtain rfl := some.inj hs
      exact { h with drained := fun _ => hzero }
    · cases hs

theorem Reachable.inv {w : World} (h : w.Reachable) : w.Inv := by
  induction h with
  | refl => exact .start
  | tail _ hstep ih =>
    obtain ⟨a, ha⟩ := hstep
    exact ih.step ha

end World

end Ccollections.Chttpclient.AsyncIdlePool
