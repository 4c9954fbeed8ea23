import Ccollections.Cvector.Lemmas.Ops

/-!
# cvector refines a list, whatever the allocator does
-/

namespace Ccollections.Cvector
open Lib Function Option

/-! ## The abstract vectors -/

structure AVec where
  elemSize : Nat
  elems : List Elem

def sourceElems (ls : List AVec) (elemSize count : Nat) : Source → Option (List Elem)
  | .outside bytes => some (elems elemSize count bytes)
  | .inside u first =>
    match ls[u]? with
    | none => none
    | some a =>
      if a.elemSize = elemSize ∧ first + count ≤ a.elems.length then some ((a.elems.drop first).take count) else none

/-- Whether a caller can make a call at all: the vectors exist and the elements it passes are live. -/
def callable (ls : List AVec) : Op → Bool
  | .create _ => true
  | .pushBack i src => ls[i]?.any fun a => (sourceElems ls a.elemSize 1 src).isSome
  | .popBack i => ls[i]?.isSome
  | .reserve i _ => ls[i]?.isSome
  | .appendArray i src count => ls[i]?.any fun a => (sourceElems ls a.elemSize count.toNat src).isSome
  | .appendCvector i j => ls[i]?.any fun a => ls[j]?.any fun b => a.elemSize = b.elemSize
  | .reset i => ls[i]?.isSome

/-- The answers a call may give and the lists it then leaves, where `refused` says that one of its requests was refused.
A failing call leaves every list as it was. -/
inductive ListSpec (refused : Prop) : List AVec → Op → Answer → List AVec → Prop
  | created {ls e} (he : verifyCvectorCreateInputs e = true) :
      ListSpec refused ls (.create e) (.created true) (ls ++ [{ elemSize := e, elems := [] }])
  | notCreated {ls e} (h : verifyCvectorCreateInputs e = false ∨ refused) : ListSpec refused ls (.create e) (.created false) ls
  | pushed {ls i src a ys} (ha : ls[i]? = some a) (hys : sourceElems ls a.elemSize 1 src = some ys) :
      ListSpec refused ls (.pushBack i src) (.code .success) (ls.set i { a with elems := a.elems ++ ys })
  | full {ls i src a} (ha : ls[i]? = some a) (h : TooLarge a.elemSize (a.elems.length + 1)) :
      ListSpec refused ls (.pushBack i src) (.code .containerFull) ls
  | notPushed {ls i src} (h : refused) : ListSpec refused ls (.pushBack i src) (.code .notEnoughMemory) ls
  | popped {ls i a x} (ha : ls[i]? = some a) (hx : a.elems.getLast? = some x) :
      ListSpec refused ls (.popBack i) (.popped x) (ls.set i { a with elems := a.elems.dropLast })
  | empty {ls i a} (ha : ls[i]? = some a) (hempty : a.elems = []) :
      ListSpec refused ls (.popBack i) (.code .containerEmpty) ls
  | reserved {ls i n a} (ha : ls[i]? = some a) (h : ¬TooLarge a.elemSize n.toNat) :
      ListSpec refused ls (.reserve i n) (.flag true) ls
  | notReserved {ls i n a} (ha : ls[i]? = some a) (h : TooLarge a.elemSize n.toNat ∨ refused) :
      ListSpec refused ls (.reserve i n) (.flag false) ls
  | appended {ls i src n a ys} (ha : ls[i]? = some a) (hys : sourceElems ls a.elemSize n.toNat src = some ys) :
      ListSpec refused ls (.appendArray i src n) (.flag true) (ls.set i { a with elems := a.elems ++ ys })
  | notAppended {ls i src n a} (ha : ls[i]? = some a) (h : TooLarge a.elemSize (a.elems.length + n.toNat) ∨ refused) :
      ListSpec refused ls (.appendArray i src n) (.flag false) ls
  | joined {ls i j a b} (ha : ls[i]? = some a) (hb : ls[j]? = some b) :
      ListSpec refused ls (.appendCvector i j) (.flag true) (ls.set i { a with elems := a.elems ++ b.elems })
  | notJoined {ls i j a b} (ha : ls[i]? = some a) (hb : ls[j]? = some b)
      (h : TooLarge a.elemSize (a.elems.length + b.elems.length) ∨ refused) :
      ListSpec refused ls (.appendCvector i j) (.flag false) ls
  | reset {ls i a} (ha : ls[i]? = some a) : ListSpec refused ls (.reset i) .done (ls.set i { a with elems := [] })
  | notCalled {ls op} (h : callable ls op = false) : ListSpec refused ls op .notCalled ls

/-- A call on the lists, beside the number of requests before it. -/
def CallSpec (fate : Nat → Option Bytes) (s : List AVec × Nat) (op : Op) (answer : Answer) (s' : List AVec × Nat) : Prop :=
  ListSpec (∃ i, s.2 ≤ i ∧ i < s'.2 ∧ fate i = none) s.1 op answer s'.1

/-! ## The refinement relation -/

/-- Every vector of the world is well formed and holds its list, and no two share a buffer. -/
structure Refines (w : World) (ls : List AVec) : Prop where
  length : w.vecs.length = ls.length
  rep : ∀ (i : Nat) (v : Cvec), w.vecs[i]? = some v →
    ∃ a : AVec, ls[i]? = some a ∧ a.elemSize = v.elemSize ∧ Rep w.heap v a.elems
  apart : ∀ (i j : Nat) (u v : Cvec), i ≠ j → w.vecs[i]? = some u → w.vecs[j]? = some v → u.dataPtr ≠ v.dataPtr

structure Extends (h h' : Heap) : Prop where
  blocks : ∀ b, b < h.next → h'.blocks b = h.blocks b
  next_le : h.next ≤ h'.next
  fate : h'.fate = h.fate
  requests_le : h.requests ≤ h'.requests

theorem Extends.rep {h h' : Heap} {v : Cvec} {xs : List Elem} (he : Extends h h') (hr : Rep h v xs) : Rep h' v xs := by
  obtain ⟨b, hb, hsize, hxs⟩ := hr.data
  exact ⟨hr.elemSize_pos, hr.capacity_pow, hr.fits, hr.count_le, ⟨b, by rw [he.blocks _ hr.lt_next, hb], hsize, hxs⟩,
    Nat.lt_of_lt_of_le hr.lt_next he.next_le⟩

theorem Refines.extend {w : World} {ls : List AVec} {h : Heap} (hw : Refines w ls) (he : Extends w.heap h) :
    Refines { w with heap := h } ls where
  length := hw.length
  rep := fun i v hv => by
    obtain ⟨a, ha, hsize, hr⟩ := hw.rep i v hv
    exact ⟨a, ha, hsize, he.rep hr⟩
  apart := hw.apart

theorem Heap_give_extends (h : Heap) (size : Nat) (bytes : Bytes) : Extends h (h.give size bytes).1 where
  blocks := fun b hb => update_of_ne (by omega) _ _
  next_le := Nat.le_succ _
  fate := rfl
  requests_le := Nat.le_refl _

theorem Heap_malloc_extends {h h' : Heap} {size : Nat} {r : Option Nat} (he : h.malloc size = (h', r)) :
    Extends h h' := by
  unfold Heap.malloc at he
  split at he
  · cases he; exact ⟨fun _ _ => rfl, Nat.le_refl _, rfl, Nat.le_succ _⟩
  · cases he; exact ⟨(Heap_give_extends h size _).blocks, Nat.le_succ _, rfl, Nat.le_succ _⟩

theorem Extends.trans {h h₁ h₂ : Heap} (e₁ : Extends h h₁) (e₂ : Extends h₁ h₂) : Extends h h₂ :=
  ⟨fun b hb => by rw [e₂.blocks b (Nat.lt_of_lt_of_le hb e₁.next_le), e₁.blocks b hb],
    Nat.le_trans e₁.next_le e₂.next_le, e₂.fate.trans e₁.fate, Nat.le_trans e₁.requests_le e₂.requests_le⟩

theorem Refines.put {w : World} {ls : List AVec} (hw : Refines w ls) {i : Nat} {v v' : Cvec} {a : AVec} {h' : Heap}
    {xs : List Elem} (hv : w.vecs[i]? = some v) (ha : ls[i]? = some a) (he : Effect w.heap v h' v' xs)
    (hsize : a.elemSize = v.elemSize) :
    Refines { heap := h', vecs := w.vecs.set i v' } (ls.set i { a with elems := xs }) where
  length := by simp [hw.length]
  rep := by
    intro j u hu
    simp only [List.getElem?_set] at hu
    by_cases hij : i = j
    · subst hij
      obtain ⟨hlt, -⟩ := List.getElem?_eq_some_iff.mp hv
      obtain ⟨hlt', -⟩ := List.getElem?_eq_some_iff.mp ha
      simp only [↓reduceIte, hlt, some.injEq] at hu
      subst hu
      exact ⟨{ a with elems := xs }, List.getElem?_set_self hlt', hsize.trans he.elemSize.symm, he.rep⟩
    · rw [if_neg hij] at hu
      obtain ⟨b, hb, hs, hr⟩ := hw.rep j u hu
      refine ⟨b, by rw [List.getElem?_set_ne hij, hb], hs, ?_⟩
      have hne : u.dataPtr ≠ v.dataPtr := hw.apart j i u v (fun h => hij h.symm) hu hv
      obtain ⟨blk, hblk, hbs, hxs⟩ := hr.data
      exact ⟨hr.elemSize_pos, hr.capacity_pow, hr.fits, hr.count_le,
        ⟨blk, by rw [he.frame _ hne hr.lt_next, hblk], hbs, hxs⟩, Nat.lt_of_lt_of_le hr.lt_next he.next_le⟩
  apart := by
    -- The changed vector keeps its block or takes one past every block handed out before.
    have hfresh : ∀ j u, i ≠ j → w.vecs[j]? = some u → u.dataPtr ≠ v'.dataPtr := by
      intro j u hij hu
      obtain ⟨_, _, _, hr⟩ := hw.rep j u hu
      have hlt := hr.lt_next
      rcases he.moved with hm | hge
      · rw [hm]; exact hw.apart j i u v (fun h => hij h.symm) hu hv
      · omega
    intro j k u u' hjk hu hu'
    simp only [List.getElem?_set] at hu hu'
    obtain ⟨hlt, -⟩ := List.getElem?_eq_some_iff.mp hv
    by_cases hj : i = j
    · subst hj
      simp only [↓reduceIte, hlt, some.injEq] at hu
      rw [if_neg hjk] at hu'
      subst hu
      exact (hfresh k u' hjk hu').symm
    · rw [if_neg hj] at hu
      by_cases hk : i = k
      · subst hk
        simp only [↓reduceIte, hlt, some.injEq] at hu'
        subst hu'
        exact hfresh j u hj hu
      · rw [if_neg hk] at hu'
        exact hw.apart j k u u' hjk hu hu'

theorem Refines.put_same {w : World} {ls : List AVec} (hw : Refines w ls) {i : Nat} {v v' : Cvec} {a : AVec} {h' : Heap}
    (hv : w.vecs[i]? = some v) (ha : ls[i]? = some a) (he : Effect w.heap v h' v' a.elems)
    (hsize : a.elemSize = v.elemSize) : Refines { heap := h', vecs := w.vecs.set i v' } ls := by
  have hput := hw.put hv ha he hsize
  obtain ⟨hlt, heq⟩ := List.getElem?_eq_some_iff.mp ha
  have hset : ls.set i { a with elems := a.elems } = ls := by
    rw [← heq]
    exact List.set_getElem_self hlt
  rwa [hset] at hput

/-- The pointer of a caller is good for an operation on vector `i`, and no other vector notices it. -/
theorem source_spec {w : World} {ls : List AVec} (hw : Refines w ls) {i : Nat} {v : Cvec} {a : AVec}
    (hv : w.vecs[i]? = some v) (ha : ls[i]? = some a) (hsize : a.elemSize = v.elemSize) (hr : Rep w.heap v a.elems)
    (n : Nat) (src : Source) :
    (w.source v.elemSize n src = none ∧ sourceElems ls a.elemSize n src = none) ∨
    ∃ h p ys, w.source v.elemSize n src = some (h, p) ∧ sourceElems ls a.elemSize n src = some ys ∧
      Extends w.heap h ∧ SrcOk h v a.elems p n ys := by
  cases src with
  | outside bytes =>
    refine .inr ⟨_, _, _, rfl, rfl, Heap_give_extends _ _ _, ?_⟩
    have hlt := hr.lt_next
    refine .other { size := n * v.elemSize, bytes := bytes } (Nat.ne_of_gt hlt) (update_self ..)
      (Nat.lt_succ_self _) (by simp) ?_
    rw [hsize]
    exact elems_congr fun x _ => by simp only [Nat.zero_add]
  | inside u first =>
    cases hu : w.vecs[u]? with
    | none =>
      have hnone : ls[u]? = none := by
        rw [List.getElem?_eq_none_iff] at hu ⊢
        rw [← hw.length]; exact hu
      exact .inl ⟨by simp [World.source, hu], by simp [sourceElems, hnone]⟩
    | some x =>
      obtain ⟨b, hb, hbs, hbr⟩ := hw.rep u x hu
      have hlen := hbr.length
      simp only [World.source, sourceElems, hu, hb, hsize, hbs, hlen]
      by_cases hlive : x.elemSize = v.elemSize ∧ first + n ≤ x.elemCount
      · have hfirst : first ≤ x.capacity := by have := hbr.count_le; omega
        refine .inr ⟨_, _, _, if_pos hlive, if_pos hlive, ⟨fun _ _ => rfl, Nat.le_refl _, rfl, Nat.le_refl _⟩, ?_⟩
        rw [hbr.mul_eq hfirst]
        by_cases hui : u = i
        · subst hui
          obtain rfl : x = v := by rw [hu] at hv; exact some.inj hv
          obtain rfl : b = a := by rw [hb] at ha; exact some.inj ha
          exact .own first rfl hlive.2 rfl
        · obtain ⟨c, hc, hcs, hxs⟩ := hbr.data
          refine .other c (hw.apart u i x v hui hu hv) hc hbr.lt_next ?_ ?_
          · have hle : (first + n) * x.elemSize ≤ x.capacity * x.elemSize :=
              Nat.mul_le_mul_right _ (Nat.le_trans hlive.2 hbr.count_le)
            rw [Nat.add_mul] at hle
            simp only [Cvec.addr, ← hlive.1, hcs]
            exact hle
          · rw [hxs, elems_range hlive.2, hlive.1]
            rfl
      · exact .inl ⟨if_neg hlive, if_neg hlive⟩

theorem Refines.getElem_none {w : World} {ls : List AVec} (hw : Refines w ls) {i : Nat} (hi : w.vecs[i]? = none) :
    ls[i]? = none := by
  rw [List.getElem?_eq_none_iff] at hi ⊢
  rw [← hw.length]; exact hi

theorem verifyCvectorCreateInputs_bounds {e : Nat} (h : verifyCvectorCreateInputs e = true) : 0 < e ∧ 4 * e ≤ sizeMax := by
  unfold verifyCvectorCreateInputs at h
  split at h
  · cases h
  · split at h
    · cases h
    · rename_i hle
      rw [ccolCvectorMinimumCapacity] at hle
      omega

theorem cvectorCreateFull_spec (h : Heap) (e : Nat) :
    (∃ h', cvectorCreateFull h e = (h', none) ∧ Extends h h' ∧
      (verifyCvectorCreateInputs e = false ∨ h.Refused h')) ∨
    ∃ h' v, cvectorCreateFull h e = (h', some v) ∧ verifyCvectorCreateInputs e = true ∧ v.elemSize = e ∧
      Extends h h' ∧ Rep h' v [] ∧ h.next ≤ v.dataPtr := by
  unfold cvectorCreateFull
  cases hin : verifyCvectorCreateInputs e with
  | false => exact .inl ⟨h, rfl, ⟨fun _ _ => rfl, Nat.le_refl _, rfl, Nat.le_refl _⟩, .inl rfl⟩
  | true =>
    obtain ⟨hpos, hfits⟩ := verifyCvectorCreateInputs_bounds hin
    simp only [Bool.not_true, Bool.false_eq_true, ↓reduceIte, ccolCvectorMinimumCapacity, sizeMul_eq hfits]
    rcases h.malloc_cases 1 with ⟨hfate, hfail⟩ | ⟨junk, -, hok⟩
    · rw [hfail]
      exact .inl ⟨_, rfl, Heap_malloc_extends hfail, .inr (.request hfate (Nat.lt_succ_self _))⟩
    · rw [hok]
      have hx₁ := Heap_malloc_extends hok
      simp only
      rcases Heap.malloc_cases _ (4 * e) with ⟨hfate, hfail⟩ | ⟨junk', -, hok'⟩
      · rw [hfail]
        have hx := hx₁.trans (Heap_malloc_extends hfail)
        exact .inl ⟨_, rfl, hx, .inr (.of_right hx₁.fate hx₁.requests_le (.request hfate (Nat.lt_succ_self _)))⟩
      · rw [hok']
        have hx := hx₁.trans (Heap_malloc_extends hok')
        refine .inr ⟨_, _, rfl, trivial, rfl, hx, ?_, hx₁.next_le⟩
        exact ⟨hpos, ⟨2, by omega, by omega, rfl⟩, hfits, Nat.zero_le _, ⟨_, update_self .., rfl, rfl⟩,
          Nat.lt_succ_self _⟩

theorem getElem?_snoc {α : Type} {xs : List α} {x y : α} {i : Nat} (h : (xs ++ [x])[i]? = some y) :
    xs[i]? = some y ∨ (i = xs.length ∧ y = x) := by
  rw [List.getElem?_append] at h
  split at h
  · exact .inl h
  · rw [List.getElem?_singleton] at h
    split at h
    · exact .inr ⟨by omega, (some.inj h).symm⟩
    · cases h

theorem Refines.snoc {w : World} {ls : List AVec} (hw : Refines w ls) {h' : Heap} {v : Cvec}
    (hx : Extends w.heap h') (hr : Rep h' v []) (hnext : w.heap.next ≤ v.dataPtr) :
    Refines { heap := h', vecs := w.vecs ++ [v] } (ls ++ [{ elemSize := v.elemSize, elems := [] }]) where
  length := by simp [hw.length]
  rep := by
    intro i u hu
    rcases getElem?_snoc hu with hu | ⟨hi, rfl⟩
    · obtain ⟨a, ha, hsize, hru⟩ := hw.rep i u hu
      obtain ⟨hlt, -⟩ := List.getElem?_eq_some_iff.mp ha
      exact ⟨a, by rw [List.getElem?_append_left hlt, ha], hsize, hx.rep hru⟩
    · exact ⟨_, by rw [hi, hw.length, List.getElem?_concat_length], rfl, hr⟩
  apart := by
    have hold : ∀ (i : Nat) (u : Cvec), w.vecs[i]? = some u → u.dataPtr ≠ v.dataPtr := by
      intro i u hu
      obtain ⟨_, _, _, hru⟩ := hw.rep i u hu
      have := hru.lt_next
      omega
    intro i j u u' hij hu hu'
    rcases getElem?_snoc hu with hi | ⟨hi, hiv⟩
    · rcases getElem?_snoc hu' with hj | ⟨_, hjv⟩
      · exact hw.apart i j u u' hij hi hj
      · rw [hjv]; exact hold i u hi
    · rcases getElem?_snoc hu' with hj | ⟨hj, _⟩
      · rw [hiv]; exact (hold j u' hj).symm
      · omega

/-- Every call of every program is one the lists allow, from any related state. -/
theorem World.step_spec {w : World} {ls : List AVec} (hw : Refines w ls) (op : Op) :
    ∃ w' answer ls', w.step op = some (w', answer) ∧ ListSpec (w.heap.Refused w'.heap) ls op answer ls' ∧ Refines w' ls' ∧
      w'.heap.fate = w.heap.fate := by
  cases op with
  | create e =>
    simp only [World.step]
    rcases cvectorCreateFull_spec w.heap e with ⟨h', he, hx, hwhy⟩ | ⟨h', v, he, hin, rfl, hx, hr, hnext⟩
    · rw [he]
      exact ⟨_, _, ls, rfl, .notCreated hwhy, hw.extend hx, hx.fate⟩
    · rw [he]
      exact ⟨_, _, _, rfl, .created hin, hw.snoc hx hr hnext, hx.fate⟩
  | pushBack i src =>
    simp only [World.step]
    cases hv : w.vecs[i]? with
    | none => exact ⟨w, _, ls, rfl, .notCalled (by simp [callable, hw.getElem_none hv]), hw, rfl⟩
    | some v =>
      obtain ⟨a, ha, hsize, hr⟩ := hw.rep i v hv
      rcases source_spec hw hv ha hsize hr 1 src with ⟨hsrc, hnone⟩ | ⟨h, p, ys, hsrc, hys, hext, hok⟩
      · simp only [hsrc]
        exact ⟨w, _, ls, rfl, .notCalled (by simp [callable, ha, hnone]), hw, rfl⟩
      · obtain ⟨h', v', r, hpush, heff, hwhy⟩ := cvectorPushBack_spec (hext.rep hr) hok
        have hfate := heff.fate.trans hext.fate
        simp only [hsrc, hpush, map_some]
        rcases hwhy with rfl | ⟨rfl, hlarge⟩ | ⟨rfl, href⟩
        · exact ⟨_, _, _, rfl, .pushed ha hys, (hw.extend hext).put hv ha (by simpa using heff) hsize, hfate⟩
        · rw [← hsize] at hlarge
          exact ⟨_, _, ls, rfl, .full ha hlarge, (hw.extend hext).put_same hv ha (by simpa using heff) hsize, hfate⟩
        · exact ⟨_, _, ls, rfl, .notPushed (href.of_right hext.fate hext.requests_le),
            (hw.extend hext).put_same hv ha (by simpa using heff) hsize, hfate⟩
  | popBack i =>
    simp only [World.step]
    cases hv : w.vecs[i]? with
    | none => exact ⟨w, _, ls, rfl, .notCalled (by simp [callable, hw.getElem_none hv]), hw, rfl⟩
    | some v =>
      obtain ⟨a, ha, hsize, hr⟩ := hw.rep i v hv
      rcases cvectorPopBack_spec hr with ⟨hempty, he⟩ | ⟨h', v', x, hx, he, heff⟩
      · simp only [he, map_some]
        exact ⟨_, _, ls, rfl, .empty ha hempty, hw.put_same hv ha hr.effect_refl hsize, rfl⟩
      · simp only [he, map_some]
        exact ⟨_, _, _, rfl, .popped ha hx, hw.put hv ha heff hsize, heff.fate⟩
  | reserve i count =>
    simp only [World.step]
    cases hv : w.vecs[i]? with
    | none => exact ⟨w, _, ls, rfl, .notCalled (by simp [callable, hw.getElem_none hv]), hw, rfl⟩
    | some v =>
      obtain ⟨a, ha, hsize, hr⟩ := hw.rep i v hv
      obtain ⟨h', v', ok, he, heff, hroom, hwhy⟩ := cvectorReserve_spec hr count.toNat
      simp only [he, map_some]
      rw [← hsize] at hwhy
      cases ok with
      | false => exact ⟨_, _, ls, rfl, .notReserved ha (hwhy rfl), hw.put_same hv ha heff hsize, heff.fate⟩
      | true =>
        have hfits := heff.rep.not_tooLarge (hroom rfl)
        rw [heff.elemSize, ← hsize] at hfits
        exact ⟨_, _, ls, rfl, .reserved ha hfits, hw.put_same hv ha heff hsize, heff.fate⟩
  | appendArray i src count =>
    simp only [World.step]
    cases hv : w.vecs[i]? with
    | none => exact ⟨w, _, ls, rfl, .notCalled (by simp [callable, hw.getElem_none hv]), hw, rfl⟩
    | some v =>
      obtain ⟨a, ha, hsize, hr⟩ := hw.rep i v hv
      have hcount : count.toNat ≤ sizeMax := Nat.le_sub_one_of_lt count.toNat_lt
      rcases source_spec hw hv ha hsize hr count.toNat src with ⟨hsrc, hnone⟩ | ⟨h, p, ys, hsrc, hys, hext, hok⟩
      · simp only [hsrc]
        exact ⟨w, _, ls, rfl, .notCalled (by simp [callable, ha, hnone]), hw, rfl⟩
      · obtain ⟨h', v', ok, he, heff, hwhy⟩ := cvectorAppendArray_spec (hext.rep hr) hok hcount
        have hfate := heff.fate.trans hext.fate
        simp only [hsrc, he, map_some]
        rw [← hsize] at hwhy
        cases ok with
        | false =>
          have hwhy' := (hwhy rfl).imp_right fun href => href.of_right hext.fate hext.requests_le
          exact ⟨_, _, ls, rfl, .notAppended ha hwhy', (hw.extend hext).put_same hv ha (by simpa using heff) hsize, hfate⟩
        | true => exact ⟨_, _, _, rfl, .appended ha hys, (hw.extend hext).put hv ha (by simpa using heff) hsize, hfate⟩
  | appendCvector i j =>
    simp only [World.step]
    cases hv : w.vecs[i]? with
    | none => exact ⟨w, _, ls, rfl, .notCalled (by simp [callable, hw.getElem_none hv]), hw, rfl⟩
    | some v =>
      cases hu : w.vecs[j]? with
      | none => exact ⟨w, _, ls, rfl, .notCalled (by simp [callable, hw.getElem_none hu]), hw, rfl⟩
      | some u =>
        obtain ⟨a, ha, hsize, hr⟩ := hw.rep i v hv
        obtain ⟨b, hb, hbs, hbr⟩ := hw.rep j u hu
        simp only
        by_cases hes : v.elemSize ≠ u.elemSize
        · rw [if_pos hes]
          exact ⟨w, _, ls, rfl, .notCalled (by simp [callable, ha, hb, hsize, hbs, hes]), hw, rfl⟩
        · rw [if_neg hes]
          have hes : v.elemSize = u.elemSize := not_not.mp hes
          by_cases hij : i = j
          · subst hij
            obtain rfl : u = v := by rw [hu] at hv; exact some.inj hv
            obtain rfl : b = a := by rw [hb] at ha; exact some.inj ha
            obtain ⟨h', v', ok, he, heff, hwhy⟩ := cvectorAppendSelf_spec hr
            rw [if_pos rfl]
            simp only [he, map_some]
            rw [← hsize] at hwhy
            cases ok with
            | false => exact ⟨_, _, ls, rfl, .notJoined ha hb (hwhy rfl), hw.put_same hv ha (by simpa using heff) hsize, heff.fate⟩
            | true => exact ⟨_, _, _, rfl, .joined ha hb, hw.put hv ha (by simpa using heff) hsize, heff.fate⟩
          · -- The live elements of the other vector are in a block of their own.
            have hok : SrcOk w.heap v a.elems (u.addr 0) u.elemCount b.elems := by
              obtain ⟨c, hc, hcs, hxs⟩ := hbr.data
              refine .other c (hw.apart j i u v (fun h => hij h.symm) hu hv) hc hbr.lt_next ?_ ?_
              · simp only [Cvec.addr, Nat.zero_add, hes, hcs]
                exact Nat.mul_le_mul_right _ hbr.count_le
              · rw [hxs, hes]
                exact elems_congr fun x _ => by simp only [Cvec.addr, Nat.zero_add]
            have hcount : u.elemCount ≤ sizeMax :=
              Nat.le_trans (Nat.le_trans hbr.count_le hbr.capacity_le) (by decide)
            obtain ⟨h', v', ok, he, heff, hwhy⟩ := cvectorAppendArray_spec hr hok hcount
            rw [if_neg hij]
            simp only [cvectorAppendOther, he, map_some]
            rw [← hsize, ← hbr.length] at hwhy
            cases ok with
            | false => exact ⟨_, _, ls, rfl, .notJoined ha hb (hwhy rfl), hw.put_same hv ha (by simpa using heff) hsize, heff.fate⟩
            | true => exact ⟨_, _, _, rfl, .joined ha hb, hw.put hv ha (by simpa using heff) hsize, heff.fate⟩
  | reset i =>
    simp only [World.step]
    cases hv : w.vecs[i]? with
    | none => exact ⟨w, _, ls, rfl, .notCalled (by simp [callable, hw.getElem_none hv]), hw, rfl⟩
    | some v =>
      obtain ⟨a, ha, hsize, hr⟩ := hw.rep i v hv
      obtain ⟨h', v', he, heff⟩ := cvectorReset_spec hr
      simp only [he, map_some]
      exact ⟨_, _, _, rfl, .reset ha, hw.put hv ha heff hsize, heff.fate⟩

theorem World.step_simulates (fate : Nat → Option Bytes) :
    Simulation World.step (CallSpec fate)
      (fun w s => Refines w s.1 ∧ w.heap.fate = fate ∧ w.heap.requests = s.2) := by
  intro w s op hw
  obtain ⟨hrefines, rfl, hrequests⟩ := hw
  obtain ⟨w', answer, ls', hstep, hspec, hw', hfate⟩ := World.step_spec hrefines op
  refine ⟨w', answer, (ls', w'.heap.requests), hstep, ?_, hw', hfate, rfl⟩
  rw [CallSpec, ← hrequests]
  exact hspec

/-- Every program over any number of vectors runs without undefined behaviour, gives answers the lists allow, and leaves
every vector with its list in a capacity that holds it. -/
theorem cvector_refines_list (fate : Nat → Option Bytes) (ops : List Op) :
    ∃ w answers ls, run World.step (World.start fate) ops = some (w, answers) ∧
      Allows (CallSpec fate) ([], 0) ops answers (ls, w.heap.requests) ∧
      w.vecs.length = ls.length ∧
      ∀ (i : Nat) (v : Cvec), w.vecs[i]? = some v → ∃ (a : AVec) (b : Block), ls[i]? = some a ∧
        a.elemSize = v.elemSize ∧ w.heap.blocks v.dataPtr = some b ∧ b.size = v.capacity * v.elemSize ∧
        a.elems = elems v.elemSize v.elemCount b.bytes ∧ v.elemCount ≤ v.capacity ∧
        (∃ k, v.capacity = 2 ^ k) ∧ 4 ≤ v.capacity ∧ v.capacity * v.elemSize ≤ sizeMax := by
  have hstart : Refines (World.start fate) [] :=
    ⟨rfl, fun i v hv => by simp [World.start] at hv, fun i j u v _ hu _ => by simp [World.start] at hu⟩
  obtain ⟨w, answers, ⟨ls, n⟩, hrun, hall, hw, -, rfl⟩ :=
    (World.step_simulates fate).run (t := ([], 0)) ⟨hstart, rfl, rfl⟩ ops
  refine ⟨w, answers, ls, hrun, hall, hw.length, ?_⟩
  intro i v hv
  obtain ⟨a, ha, hsize, hr⟩ := hw.rep i v hv
  obtain ⟨b, hb, hbs, hxs⟩ := hr.data
  obtain ⟨k, -, -, hk⟩ := hr.capacity_pow
  exact ⟨a, b, ha, hsize, hb, hbs, hxs, hr.count_le, ⟨k, hk⟩, hr.capacity_ge, hr.fits⟩

end Ccollections.Cvector
