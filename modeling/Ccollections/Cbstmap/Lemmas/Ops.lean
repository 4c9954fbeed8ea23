import Ccollections.Cbstmap.Cbstmap
import Mathlib.Data.Nat.Fib.Basic

/-!
# Balanced trees and `check_node_balance`
-/

namespace Ccollections.Cbstmap

open List Option

variable {K : Type}

@[simp] theorem nodeHeight_nil : nodeHeight (.nil : BmapNode K) = 0 := rfl

@[simp] theorem nodeHeight_node (k : K) (v : List UInt8) (h : Nat) (l r : BmapNode K) :
    nodeHeight (.node k v h l r) = h := rfl

@[simp] theorem nodeBalance_node (k : K) (v : List UInt8) (h : Nat) (l r : BmapNode K) :
    nodeBalance (.node k v h l r) = (nodeHeight r : Int) - nodeHeight l := rfl

@[simp] theorem isNull_nil : isNull (.nil : BmapNode K) = true := rfl

@[simp] theorem isNull_node (k : K) (v : List UInt8) (h : Nat) (l r : BmapNode K) :
    isNull (.node k v h l r) = false := rfl

def Avl : BmapNode K → Prop
  | .nil => True
  | .node _ _ h l r =>
    Avl l ∧ Avl r ∧ h = max (nodeHeight l) (nodeHeight r) + 1 ∧
      nodeHeight l ≤ nodeHeight r + 1 ∧ nodeHeight r ≤ nodeHeight l + 1

def toList : BmapNode K → List (K × List UInt8)
  | .nil => []
  | .node k v _ l r => toList l ++ (k, v) :: toList r

def size (t : BmapNode K) : Nat := (toList t).length

@[simp] theorem size_nil : size (.nil : BmapNode K) = 0 := rfl

@[simp] theorem size_node (k : K) (v : List UInt8) (h : Nat) (l r : BmapNode K) :
    size (.node k v h l r) = size l + 1 + size r := by
  simp [size, toList]; omega

/-! ## The height is logarithmic -/

theorem Avl.fib_le : (t : BmapNode K) → Avl t → Nat.fib (nodeHeight t + 2) ≤ size t + 1
  | .nil, _ => by simp
  | .node k v h l r, ha => by
    obtain ⟨hl, hr, hh, hlr, hrl⟩ := ha
    have ihl := Avl.fib_le l hl
    have ihr := Avl.fib_le r hr
    have hfib : Nat.fib (h + 2) = Nat.fib h + Nat.fib (h + 1) := Nat.fib_add_two
    -- One side has height `h - 1` and the other at least `h - 2`.
    have hsides : (Nat.fib (h + 1) ≤ size l + 1 ∧ Nat.fib h ≤ size r + 1) ∨
        (Nat.fib h ≤ size l + 1 ∧ Nat.fib (h + 1) ≤ size r + 1) := by
      rcases Nat.le_total (nodeHeight r) (nodeHeight l) with hle | hle
      · refine .inl ⟨?_, Nat.le_trans (Nat.fib_mono (by omega)) ihr⟩
        rwa [show h + 1 = nodeHeight l + 2 by omega]
      · refine .inr ⟨Nat.le_trans (Nat.fib_mono (by omega)) ihl, ?_⟩
        rwa [show h + 1 = nodeHeight r + 2 by omega]
    simp only [nodeHeight_node, size_node]
    omega

theorem fib_93 : 2 ^ 63 + 1 < Nat.fib 93 := by decide +kernel

theorem Avl.height_le {t : BmapNode K} (ha : Avl t) (hsize : size t ≤ ccolMaxElemCount) : nodeHeight t ≤ 90 := by
  by_contra hlt
  have hfib := ha.fib_le
  have hmono : Nat.fib 93 ≤ Nat.fib (nodeHeight t + 2) := Nat.fib_mono (by omega)
  have h93 := fib_93
  rw [ccolMaxElemCount_eq] at hsize
  omega

/-! ## Casts -/

/-- The casts that change no height of one byte, as the one of the source and the one that refuses the others. -/
def KeepsBytes (cast : HeightCast) : Prop := ∀ height < 256, cast height = some height

theorem toByte_keepsBytes : KeepsBytes toByte := fun _ h => by rw [toByte, Nat.mod_eq_of_lt h]

theorem toByteChecked_keepsBytes : KeepsBytes toByteChecked := fun _ h => if_pos h

/-- The result of an operation, whichever of these casts it runs with. -/
def Yields {α : Type} (f : HeightCast → Option α) (a : α) : Prop := ∀ cast, KeepsBytes cast → f cast = some a

theorem recalculateNodeHeight_eq {k : K} {v : List UInt8} {l r : BmapNode K} {cast : HeightCast} (hcast : KeepsBytes cast)
    (h : max (nodeHeight l) (nodeHeight r) + 1 < 256) :
    recalculateNodeHeight cast k v l r = some (.node k v (max (nodeHeight l) (nodeHeight r) + 1) l r) := by
  simp only [recalculateNodeHeight, hcast _ h, bind_eq_bind, bind_some]

/-! ## Rotations -/

structure Rebalanced (k : K) (v : List UInt8) (l r t : BmapNode K) (rotated : Bool) : Prop where
  avl : Avl t
  list : toList t = toList l ++ (k, v) :: toList r
  height_ge : max (nodeHeight l) (nodeHeight r) ≤ nodeHeight t
  height_le : nodeHeight t ≤ max (nodeHeight l) (nodeHeight r) + 1
  /-- Without a rotation only the height of the node is new. -/
  kept : rotated = false → t = .node k v (max (nodeHeight l) (nodeHeight r) + 1) l r
  turned : rotated = true → nodeHeight l = nodeHeight r + 2 ∨ nodeHeight r = nodeHeight l + 2
  /-- A rotation on account of a taller side that leans lowers the node by one. -/
  lowered_left : rotated = true → nodeHeight r < nodeHeight l → nodeBalance l ≠ 0 → nodeHeight t = nodeHeight l
  lowered_right : rotated = true → nodeHeight l < nodeHeight r → nodeBalance r ≠ 0 → nodeHeight t = nodeHeight r

theorem Avl.balance_le {t : BmapNode K} (ha : Avl t) : ¬(nodeBalance t > 1 ∨ nodeBalance t < -1) := by
  cases t with
  | nil => simp [nodeBalance]
  | node k v h l r =>
    obtain ⟨-, -, -, hlr, hrl⟩ := ha
    simp only [nodeBalance_node]
    omega

theorem Rebalanced.checkNodeBalance {k : K} {v : List UInt8} {l r t : BmapNode K} {h : Nat} {rotated : Bool}
    (hrot : Yields (rotateIfNeeded · (.node k v h l r)) (t, rotated)) (hreb : Rebalanced k v l r t rotated) :
    Yields (checkNodeBalance · (.node k v h l r)) (t, rotated) := by
  intro cast hcast
  simp only [Cbstmap.checkNodeBalance, hrot cast hcast, bind_eq_bind, bind_some]
  rw [if_neg hreb.avl.balance_le]

section Rotations

variable {k : K} {v : List UInt8} {h : Nat} {l r : BmapNode K}

theorem rotate_none (hl : Avl l) (hr : Avl r) (hlr : nodeHeight l ≤ nodeHeight r + 1)
    (hrl : nodeHeight r ≤ nodeHeight l + 1) (hsmall : max (nodeHeight l) (nodeHeight r) + 1 < 256) :
    ∃ t, Yields (rotateIfNeeded · (.node k v h l r)) (t, false) ∧ Rebalanced k v l r t false := by
  refine ⟨.node k v (max (nodeHeight l) (nodeHeight r) + 1) l r, ?_, ?_⟩
  · intro cast hcast
    simp only [rotateIfNeeded, recalculateNodeHeight_eq hcast hsmall, bind_eq_bind, bind_some]
    rw [if_neg (by simp only [nodeBalance_node]; omega), if_neg (by simp only [nodeBalance_node]; omega)]
  · exact {
      avl := ⟨hl, hr, rfl, hlr, hrl⟩
      list := rfl
      height_ge := Nat.le_succ _
      height_le := Nat.le_refl _
      kept := fun _ => rfl
      turned := fun h => by cases h
      lowered_left := fun h => by cases h
      lowered_right := fun h => by cases h }

theorem rotate_right_deeper (hl : Avl l) (hr : Avl r) (hdiff : nodeHeight r = nodeHeight l + 2)
    (hsmall : nodeHeight r + 1 < 256) :
    ∃ t, Yields (rotateIfNeeded · (.node k v h l r)) (t, true) ∧ Rebalanced k v l r t true := by
  cases r with
  | nil => simp at hdiff
  | node rk rv rh rl rr =>
    obtain ⟨hrl, hrr, hrh, hb₁, hb₂⟩ := hr
    simp only [nodeHeight_node] at hdiff hsmall
    have hparent : ∀ {cast}, KeepsBytes cast → recalculateNodeHeight cast k v l (.node rk rv rh rl rr) =
        some (.node k v (max (nodeHeight l) rh + 1) l (.node rk rv rh rl rr)) := fun hcast =>
      recalculateNodeHeight_eq hcast (by simp only [nodeHeight_node]; omega)
    by_cases hside : nodeHeight rl ≤ nodeHeight rr
    · -- Simple left rotation.
      refine ⟨.node rk rv (max (nodeHeight rl + 1) (nodeHeight rr) + 1) (.node k v (nodeHeight rl + 1) l rl) rr, ?_, ?_⟩
      · intro cast hcast
        have hp : recalculateNodeHeight cast k v l rl = some (.node k v (nodeHeight rl + 1) l rl) := by
          rw [recalculateNodeHeight_eq hcast (by omega), show max (nodeHeight l) (nodeHeight rl) = nodeHeight rl by omega]
        simp only [rotateIfNeeded, hparent hcast, hp, bind_eq_bind, bind_some]
        rw [if_pos (by simp only [nodeBalance_node, nodeHeight_node]; omega),
          if_pos (.inl (by simp only [nodeBalance_node]; omega)),
          recalculateNodeHeight_eq hcast (by simp only [nodeHeight_node]; omega)]
        rfl
      · refine ⟨?_, ?_, ?_, ?_, (fun h => by cases h), ?_, ?_, ?_⟩
        · simp only [Avl, nodeHeight_node, true_and]
          exact ⟨⟨hl, hrl, by omega, by omega, by omega⟩, hrr, by omega, by omega⟩
        · simp [toList]
        all_goals (simp only [nodeHeight_node, nodeBalance_node, forall_const]; omega)
    · -- Right-left double rotation.
      cases rl with
      | nil => simp at hside
      | node mk mv mh a b =>
        obtain ⟨ha, hb, hmh, hab, hba⟩ := hrl
        simp only [nodeHeight_node] at hside hb₁ hb₂ hrh
        refine ⟨.node mk mv (max (nodeHeight l + 1) (nodeHeight rr + 1) + 1) (.node k v (nodeHeight l + 1) l a)
          (.node rk rv (nodeHeight rr + 1) b rr), ?_, ?_⟩
        · intro cast hcast
          have hp : recalculateNodeHeight cast k v l a = some (.node k v (nodeHeight l + 1) l a) := by
            rw [recalculateNodeHeight_eq hcast (by omega), show max (nodeHeight l) (nodeHeight a) = nodeHeight l by omega]
          have hq : recalculateNodeHeight cast rk rv b rr = some (.node rk rv (nodeHeight rr + 1) b rr) := by
            rw [recalculateNodeHeight_eq hcast (by omega), show max (nodeHeight b) (nodeHeight rr) = nodeHeight rr by omega]
          simp only [rotateIfNeeded, hparent hcast, hp, hq, bind_eq_bind, bind_some]
          rw [if_pos (by simp only [nodeBalance_node, nodeHeight_node]; omega),
            if_neg (by simp only [nodeBalance_node, nodeHeight_node, isNull_node, Bool.false_eq_true, or_false]; omega),
            recalculateNodeHeight_eq hcast (by simp only [nodeHeight_node]; omega)]
          rfl
        · refine ⟨?_, ?_, ?_, ?_, (fun h => by cases h), ?_, ?_, ?_⟩
          · simp only [Avl, nodeHeight_node, true_and]
            exact ⟨⟨hl, ha, by omega, by omega, by omega⟩, ⟨hb, hrr, by omega, by omega, by omega⟩, by omega,
              by omega⟩
          · simp [toList]
          all_goals (simp only [nodeHeight_node, nodeBalance_node, forall_const]; omega)

theorem rotate_left_deeper (hl : Avl l) (hr : Avl r) (hdiff : nodeHeight l = nodeHeight r + 2)
    (hsmall : nodeHeight l + 1 < 256) :
    ∃ t, Yields (rotateIfNeeded · (.node k v h l r)) (t, true) ∧ Rebalanced k v l r t true := by
  cases l with
  | nil => simp at hdiff
  | node lk lv lh ll lr =>
    obtain ⟨hll, hlr, hlh, hb₁, hb₂⟩ := hl
    simp only [nodeHeight_node] at hdiff hsmall
    have hparent : ∀ {cast}, KeepsBytes cast → recalculateNodeHeight cast k v (.node lk lv lh ll lr) r =
        some (.node k v (max lh (nodeHeight r) + 1) (.node lk lv lh ll lr) r) := fun hcast =>
      recalculateNodeHeight_eq hcast (by simp only [nodeHeight_node]; omega)
    by_cases hside : nodeHeight lr ≤ nodeHeight ll
    · -- Simple right rotation.
      refine ⟨.node lk lv (max (nodeHeight ll) (nodeHeight lr + 1) + 1) ll (.node k v (nodeHeight lr + 1) lr r), ?_, ?_⟩
      · intro cast hcast
        have hp : recalculateNodeHeight cast k v lr r = some (.node k v (nodeHeight lr + 1) lr r) := by
          rw [recalculateNodeHeight_eq hcast (by omega), show max (nodeHeight lr) (nodeHeight r) = nodeHeight lr by omega]
        simp only [rotateIfNeeded, hparent hcast, hp, bind_eq_bind, bind_some]
        rw [if_neg (by simp only [nodeBalance_node, nodeHeight_node]; omega),
          if_pos (by simp only [nodeBalance_node, nodeHeight_node]; omega),
          if_pos (.inl (by simp only [nodeBalance_node]; omega)),
          recalculateNodeHeight_eq hcast (by simp only [nodeHeight_node]; omega)]
        rfl
      · refine ⟨?_, ?_, ?_, ?_, (fun h => by cases h), ?_, ?_, ?_⟩
        · simp only [Avl, nodeHeight_node, true_and]
          exact ⟨hll, ⟨hlr, hr, by omega, by omega, by omega⟩, by omega, by omega⟩
        · simp [toList]
        all_goals (simp only [nodeHeight_node, nodeBalance_node, forall_const]; omega)
    · -- Left-right double rotation.
      cases lr with
      | nil => simp at hside
      | node mk mv mh a b =>
        obtain ⟨ha, hb, hmh, hab, hba⟩ := hlr
        simp only [nodeHeight_node] at hside hb₁ hb₂ hlh
        refine ⟨.node mk mv (max (nodeHeight ll + 1) (nodeHeight r + 1) + 1) (.node lk lv (nodeHeight ll + 1) ll a)
          (.node k v (nodeHeight r + 1) b r), ?_, ?_⟩
        · intro cast hcast
          have hp : recalculateNodeHeight cast lk lv ll a = some (.node lk lv (nodeHeight ll + 1) ll a) := by
            rw [recalculateNodeHeight_eq hcast (by omega), show max (nodeHeight ll) (nodeHeight a) = nodeHeight ll by omega]
          have hq : recalculateNodeHeight cast k v b r = some (.node k v (nodeHeight r + 1) b r) := by
            rw [recalculateNodeHeight_eq hcast (by omega), show max (nodeHeight b) (nodeHeight r) = nodeHeight r by omega]
          simp only [rotateIfNeeded, hparent hcast, hp, hq, bind_eq_bind, bind_some]
          rw [if_neg (by simp only [nodeBalance_node, nodeHeight_node]; omega),
            if_pos (by simp only [nodeBalance_node, nodeHeight_node]; omega),
            if_neg (by simp only [nodeBalance_node, nodeHeight_node, isNull_node, Bool.false_eq_true, or_false]; omega),
            recalculateNodeHeight_eq hcast (by simp only [nodeHeight_node]; omega)]
          rfl
        · refine ⟨?_, ?_, ?_, ?_, (fun h => by cases h), ?_, ?_, ?_⟩
          · simp only [Avl, nodeHeight_node, true_and]
            exact ⟨⟨hll, ha, by omega, by omega, by omega⟩, ⟨hb, hr, by omega, by omega, by omega⟩, by omega,
              by omega⟩
          · simp [toList]
          all_goals (simp only [nodeHeight_node, nodeBalance_node, forall_const]; omega)

theorem checkNodeBalance_spec (hl : Avl l) (hr : Avl r) (hlr : nodeHeight l ≤ nodeHeight r + 2)
    (hrl : nodeHeight r ≤ nodeHeight l + 2) (hsmall : max (nodeHeight l) (nodeHeight r) + 1 < 256) :
    ∃ t rotated, Yields (checkNodeBalance · (.node k v h l r)) (t, rotated) ∧ Rebalanced k v l r t rotated := by
  by_cases hright : nodeHeight r = nodeHeight l + 2
  · obtain ⟨t, hrot, hreb⟩ := rotate_right_deeper hl hr hright (by omega)
    exact ⟨t, true, hreb.checkNodeBalance hrot, hreb⟩
  · by_cases hleft : nodeHeight l = nodeHeight r + 2
    · obtain ⟨t, hrot, hreb⟩ := rotate_left_deeper hl hr hleft (by omega)
      exact ⟨t, true, hreb.checkNodeBalance hrot, hreb⟩
    · obtain ⟨t, hrot, hreb⟩ := rotate_none hl hr (by omega) (by omega) hsmall
      exact ⟨t, false, hreb.checkNodeBalance hrot, hreb⟩

end Rotations

/-!
# The walks back up an ancestor path
-/

open List Option

variable {K : Type}

@[simp] theorem nodeHeight_plug (e : PathEntry K) (t : BmapNode K) : nodeHeight (e.plug t) = e.height := by
  unfold PathEntry.plug
  cases e.dir <;> rfl

def FramesOk : List (PathEntry K) → Nat → Prop
  | [], _ => True
  | e :: path, n =>
    Avl e.sibling ∧ n ≤ nodeHeight e.sibling + 1 ∧ nodeHeight e.sibling ≤ n + 1 ∧
      e.height = max n (nodeHeight e.sibling) + 1 ∧ FramesOk path e.height

def pathHeight : List (PathEntry K) → Nat → Nat
  | [], n => n
  | e :: path, _ => pathHeight path e.height

theorem nodeHeight_plugPath : (path : List (PathEntry K)) → (t : BmapNode K) →
    nodeHeight (plugPath path t) = pathHeight path (nodeHeight t)
  | [], _ => rfl
  | e :: path, t => by
    rw [plugPath, nodeHeight_plugPath path, nodeHeight_plug]
    rfl

theorem FramesOk.le_pathHeight : (path : List (PathEntry K)) → {n : Nat} → FramesOk path n → n ≤ pathHeight path n
  | [], _, _ => Nat.le_refl _
  | e :: path, n, hf => by
    obtain ⟨-, -, -, hh, hrest⟩ := hf
    have hle := FramesOk.le_pathHeight path hrest
    simp only [pathHeight]
    omega

theorem Avl.plug {e : PathEntry K} {t : BmapNode K} (ht : Avl t) (hs : Avl e.sibling)
    (hts : nodeHeight t ≤ nodeHeight e.sibling + 1) (hst : nodeHeight e.sibling ≤ nodeHeight t + 1)
    (hh : e.height = max (nodeHeight t) (nodeHeight e.sibling) + 1) : Avl (e.plug t) := by
  unfold PathEntry.plug
  cases e.dir with
  | left => exact ⟨ht, hs, hh, hts, hst⟩
  | right => exact ⟨hs, ht, by omega, hst, hts⟩

theorem Avl.plugPath : (path : List (PathEntry K)) → {t : BmapNode K} → Avl t → FramesOk path (nodeHeight t) →
    Avl (plugPath path t)
  | [], _, ht, _ => ht
  | e :: path, t, ht, hf => by
    obtain ⟨hs, hts, hst, hh, hrest⟩ := hf
    exact Avl.plugPath path (ht.plug hs hts hst hh) (by rwa [nodeHeight_plug])

/-! ## Bindings on either side of a path -/

def before : List (PathEntry K) → List (K × List UInt8)
  | [] => []
  | e :: path =>
    match e.dir with
    | .left => before path
    | .right => before path ++ (toList e.sibling ++ [(e.key, e.val)])

def after : List (PathEntry K) → List (K × List UInt8)
  | [] => []
  | e :: path =>
    match e.dir with
    | .left => (e.key, e.val) :: toList e.sibling ++ after path
    | .right => after path

theorem toList_plugPath : (path : List (PathEntry K)) → (t : BmapNode K) →
    toList (plugPath path t) = before path ++ toList t ++ after path
  | [], t => by simp [plugPath, before, after]
  | e :: path, t => by
    rw [plugPath, toList_plugPath path]
    cases hd : e.dir with
    | left => simp [PathEntry.plug, before, after, hd, toList]
    | right => simp [PathEntry.plug, before, after, hd, toList]

theorem toList_plugPath_congr {path : List (PathEntry K)} {t u : BmapNode K} (h : toList t = toList u) :
    toList (plugPath path t) = toList (plugPath path u) := by
  rw [toList_plugPath, toList_plugPath, h]

/-! ## One step up -/

/-- What `check_node_balance` does to a path entry whose child now has height `nodeHeight t`. -/
structure Lifted (e : PathEntry K) (t b : BmapNode K) (rotated : Bool) : Prop where
  avl : Avl b
  list : toList b = toList (e.plug t)
  height_ge : max (nodeHeight t) (nodeHeight e.sibling) ≤ nodeHeight b
  height_le : nodeHeight b ≤ max (nodeHeight t) (nodeHeight e.sibling) + 1
  kept : rotated = false → nodeHeight b = max (nodeHeight t) (nodeHeight e.sibling) + 1 ∧
    (nodeHeight t ≠ nodeHeight e.sibling → nodeBalance b ≠ 0)
  turned : rotated = true → nodeHeight t = nodeHeight e.sibling + 2 ∨ nodeHeight e.sibling = nodeHeight t + 2
  lowered : rotated = true → nodeHeight e.sibling < nodeHeight t → nodeBalance t ≠ 0 → nodeHeight b = nodeHeight t

theorem lift_spec {e : PathEntry K} {t : BmapNode K} (ht : Avl t) (hs : Avl e.sibling)
    (hts : nodeHeight t ≤ nodeHeight e.sibling + 2) (hst : nodeHeight e.sibling ≤ nodeHeight t + 2)
    (hsmall : max (nodeHeight t) (nodeHeight e.sibling) + 1 < 256) :
    ∃ b rotated, Yields (checkNodeBalance · (e.plug t)) (b, rotated) ∧ Lifted e t b rotated := by
  cases hd : e.dir with
  | left =>
    have hplug : e.plug t = .node e.key e.val e.height t e.sibling := by rw [PathEntry.plug, hd]
    obtain ⟨b, rotated, hb, hr⟩ := checkNodeBalance_spec (k := e.key) (v := e.val) (h := e.height) ht hs hts hst hsmall
    refine ⟨b, rotated, by rw [hplug]; exact hb, hr.avl, by rw [hplug, hr.list]; rfl, hr.height_ge, hr.height_le, ?_,
      hr.turned, hr.lowered_left⟩
    intro hrot
    rw [hr.kept hrot]
    exact ⟨rfl, fun hne => by simp only [nodeBalance_node]; omega⟩
  | right =>
    have hplug : e.plug t = .node e.key e.val e.height e.sibling t := by rw [PathEntry.plug, hd]
    obtain ⟨b, rotated, hb, hr⟩ :=
      checkNodeBalance_spec (k := e.key) (v := e.val) (h := e.height) hs ht hst hts (by omega)
    have hge := hr.height_ge
    have hle := hr.height_le
    refine ⟨b, rotated, by rw [hplug]; exact hb, hr.avl, by rw [hplug, hr.list]; rfl, by omega, by omega, ?_,
      fun h => (hr.turned h).symm, hr.lowered_right⟩
    intro hrot
    rw [hr.kept hrot]
    exact ⟨by simp only [nodeHeight_node]; omega, fun hne => by simp only [nodeBalance_node]; omega⟩

/-! ## The insert walk -/

theorem insertWalk_spec : (path : List (PathEntry K)) → {n : Nat} → {t : BmapNode K} → Avl t → nodeHeight t = n + 1 →
    (n = 0 ∨ nodeBalance t ≠ 0) → FramesOk path n → pathHeight path n ≤ 200 →
    ∃ root, Yields (insertWalk · path t) root ∧ Avl root ∧ toList root = toList (plugPath path t)
  | [], _, t, ht, _, _, _, _ => ⟨t, fun _ _ => rfl, ht, rfl⟩
  | e :: path, n, t, ht, hn, hlean, hf, htop => by
    obtain ⟨hs, hns, hsn, hh, hrest⟩ := hf
    simp only [pathHeight] at htop
    have hle := hrest.le_pathHeight
    obtain ⟨b, rotated, hb, hl⟩ := lift_spec (e := e) ht hs (by omega) (by omega) (by omega)
    by_cases hstop : rotated = true ∨ nodeHeight b = e.height
    · have hsame : nodeHeight b = e.height := by
        rcases hstop with hrot | hsame
        · have hturn := hl.turned hrot
          have hlow := hl.lowered hrot (by omega) (by omega)
          omega
        · exact hsame
      refine ⟨_, fun cast hcast => ?_, hl.avl.plugPath path (by rwa [hsame]), toList_plugPath_congr hl.list⟩
      simp only [insertWalk, hb cast hcast, bind_eq_bind, bind_some, if_pos hstop]
    · obtain ⟨hrot, hne⟩ := not_or.mp hstop
      obtain ⟨hbh, hbal⟩ := hl.kept (by simpa using hrot)
      obtain ⟨root, hw, hroot, hlist⟩ := insertWalk_spec path hl.avl (n := e.height) (by omega)
        (.inr (hbal (by omega))) hrest htop
      refine ⟨root, fun cast hcast => ?_, hroot, hlist.trans (toList_plugPath_congr hl.list)⟩
      simp only [insertWalk, hb cast hcast, bind_eq_bind, bind_some, if_neg hstop, hw cast hcast]

/-! ## The delete walks -/

theorem shrink_step {e : PathEntry K} {path : List (PathEntry K)} {n : Nat} {t : BmapNode K} (ht : Avl t)
    (hn : nodeHeight t = n ∨ nodeHeight t + 1 = n) (hf : FramesOk (e :: path) n) (htop : pathHeight path e.height ≤ 200) :
    ∃ b rotated, Yields (checkNodeBalance · (e.plug t)) (b, rotated) ∧ Avl b ∧ toList b = toList (e.plug t) ∧
      (nodeHeight b = e.height ∨ nodeHeight b + 1 = e.height) := by
  obtain ⟨hs, hns, hsn, hh, hrest⟩ := hf
  have hle := hrest.le_pathHeight
  obtain ⟨b, rotated, hb, hl⟩ := lift_spec (e := e) ht hs (by omega) (by omega) (by omega)
  refine ⟨b, rotated, hb, hl.avl, hl.list, ?_⟩
  have hge := hl.height_ge
  have hle := hl.height_le
  cases rotated with
  | false =>
    have hk := (hl.kept rfl).1
    omega
  | true =>
    have hturn := hl.turned rfl
    omega

theorem deleteWalk_spec : (path : List (PathEntry K)) → {n : Nat} → {t : BmapNode K} → Avl t →
    (nodeHeight t = n ∨ nodeHeight t + 1 = n) → FramesOk path n → pathHeight path n ≤ 200 →
    ∃ root, Yields (deleteWalk · path t) root ∧ Avl root ∧ toList root = toList (plugPath path t)
  | [], _, t, ht, _, _, _ => ⟨t, fun _ _ => rfl, ht, rfl⟩
  | e :: path, n, t, ht, hn, hf, htop => by
    simp only [pathHeight] at htop
    obtain ⟨b, rotated, hb, havl, hlist, hbh⟩ := shrink_step ht hn hf htop
    have hrest := hf.2.2.2.2
    by_cases hstop : nodeHeight b = e.height
    · refine ⟨_, fun cast hcast => ?_, havl.plugPath path (by rwa [hstop]), toList_plugPath_congr hlist⟩
      simp only [deleteWalk, hb cast hcast, bind_eq_bind, bind_some, if_pos hstop]
    · obtain ⟨root, hw, hroot, hl⟩ := deleteWalk_spec path havl hbh hrest htop
      refine ⟨root, fun cast hcast => ?_, hroot, hl.trans (toList_plugPath_congr hlist)⟩
      simp only [deleteWalk, hb cast hcast, bind_eq_bind, bind_some, if_neg hstop, hw cast hcast]

theorem detachWalk_spec : (path : List (PathEntry K)) → {n : Nat} → {t : BmapNode K} → Avl t →
    (nodeHeight t = n ∨ nodeHeight t + 1 = n) → FramesOk path n → pathHeight path n ≤ 200 →
    ∃ root, Yields (detachWalk · path t) root ∧ Avl root ∧ toList root = toList (plugPath path t) ∧
      (nodeHeight root = pathHeight path n ∨ nodeHeight root + 1 = pathHeight path n)
  | [], _, t, ht, hn, _, _ => ⟨t, fun _ _ => rfl, ht, rfl, hn⟩
  | e :: path, n, t, ht, hn, hf, htop => by
    simp only [pathHeight] at htop
    obtain ⟨b, rotated, hb, havl, hlist, hbh⟩ := shrink_step ht hn hf htop
    obtain ⟨root, hw, hroot, hl, hheight⟩ := detachWalk_spec path havl hbh hf.2.2.2.2 htop
    refine ⟨root, fun cast hcast => ?_, hroot, hl.trans (toList_plugPath_congr hlist), hheight⟩
    simp only [detachWalk, hb cast hcast, bind_eq_bind, bind_some, hw cast hcast]

/-!
# Insert, delete and lookup on the in-order list
-/

open List Option

variable {K : Type}

/-! ## Removal of a node -/

theorem findExtreme_spec (max : Bool) : (t : BmapNode K) → (path : List (PathEntry K)) → t ≠ .nil → Avl t →
    FramesOk path (nodeHeight t) → path.length + nodeHeight t ≤ cbmapMaxTreeHeight →
    ∃ k v h l r path', findExtreme max t path = some (k, v, (if max then l else r), path') ∧
      (if max then r else l) = .nil ∧ plugPath path' (.node k v h l r) = plugPath path t ∧
      Avl (.node k v h l r) ∧ FramesOk path' h ∧ (if max then after path' = after path else before path' = before path)
  | .nil, _, hne, _, _, _ => (hne rfl).elim
  | .node k v h l r, path, _, ht, hf, hlen => by
    obtain ⟨hl, hr, hh, hlr, hrl⟩ := ht
    simp only [nodeHeight_node] at hf hlen
    have hroom : path.length < cbmapMaxTreeHeight := by omega
    cases max with
    | true =>
      cases hnull : isNull r with
      | true =>
        have hnil : r = .nil := by cases r <;> simp_all
        exact ⟨k, v, h, l, r, path, by simp [findExtreme, hnull], hnil, rfl, ⟨hl, hr, hh, hlr, hrl⟩, hf, rfl⟩
      | false =>
        obtain ⟨k', v', h', l', r', path', he, hfar, hplug, havl, hframes, hout⟩ :=
          findExtreme_spec true r ({ dir := .right, key := k, val := v, height := h, sibling := l } :: path)
            (by rintro rfl; simp at hnull) hr ⟨hl, hrl, hlr, by simp only; omega, hf⟩
            (by simp only [length_cons]; omega)
        exact ⟨k', v', h', l', r', path', by simpa [findExtreme, hnull, hroom] using he, hfar, hplug, havl, hframes, hout⟩
    | false =>
      cases hnull : isNull l with
      | true =>
        have hnil : l = .nil := by cases l <;> simp_all
        exact ⟨k, v, h, l, r, path, by simp [findExtreme, hnull], hnil, rfl, ⟨hl, hr, hh, hlr, hrl⟩, hf, rfl⟩
      | false =>
        obtain ⟨k', v', h', l', r', path', he, hfar, hplug, havl, hframes, hout⟩ :=
          findExtreme_spec false l ({ dir := .left, key := k, val := v, height := h, sibling := r } :: path)
            (by rintro rfl; simp at hnull) hl ⟨hr, hlr, hrl, hh, hf⟩ (by simp only [length_cons]; omega)
        exact ⟨k', v', h', l', r', path', by simpa [findExtreme, hnull, hroom] using he, hfar, hplug, havl, hframes, hout⟩

theorem cbmapDetachExtremeIter_spec {t : BmapNode K} (max : Bool) (hne : t ≠ .nil) (ht : Avl t) (htop : nodeHeight t ≤ 90) :
    ∃ k v rest, Yields (cbmapDetachExtremeIter · t max) (k, v, rest) ∧ Avl rest ∧
      toList t = (if max then toList rest ++ [(k, v)] else (k, v) :: toList rest) ∧
      (nodeHeight rest = nodeHeight t ∨ nodeHeight rest + 1 = nodeHeight t) := by
  obtain ⟨k, v, h, l, r, path, he, hfar, hplug, ⟨hl, hr, hh, hlr, hrl⟩, hframes, hout⟩ :=
    findExtreme_spec max t [] hne ht trivial (by simp only [length_nil, cbmapMaxTreeHeight]; omega)
  have hpath : pathHeight path h = nodeHeight t := by
    have := congrArg nodeHeight hplug
    rwa [nodeHeight_plugPath] at this
  have hlist : toList t = before path ++ (toList l ++ (k, v) :: toList r) ++ after path := by
    rw [show toList t = toList (plugPath path (.node k v h l r)) by rw [hplug]; rfl, toList_plugPath]
    rfl
  cases max with
  | true =>
    simp only [↓reduceIte] at he hfar hout ⊢
    subst hfar
    simp only [nodeHeight_nil] at hh hlr
    obtain ⟨rest, hw, havl, hrest, hheight⟩ := detachWalk_spec path hl (n := h) (by omega) hframes (by omega)
    refine ⟨k, v, rest, fun cast hcast => ?_, havl, ?_, by omega⟩
    · simp only [cbmapDetachExtremeIter, he, bind_eq_bind, bind_some, hw cast hcast]
    rw [hrest, toList_plugPath, hlist, hout]
    simp [toList, after]
  | false =>
    simp only [Bool.false_eq_true, ↓reduceIte] at he hfar hout ⊢
    subst hfar
    simp only [nodeHeight_nil] at hh hrl
    obtain ⟨rest, hw, havl, hrest, hheight⟩ := detachWalk_spec path hr (n := h) (by omega) hframes (by omega)
    refine ⟨k, v, rest, fun cast hcast => ?_, havl, ?_, by omega⟩
    · simp only [cbmapDetachExtremeIter, he, bind_eq_bind, bind_some, hw cast hcast]
    rw [hrest, toList_plugPath, hlist, hout]
    simp [toList, before]

/-- What takes the place of a removed node needs no rebalancing of its own: the node comes from the higher side. -/
theorem performElementRemoval_spec {k : K} {v : List UInt8} {h : Nat} {l r : BmapNode K}
    (ht : Avl (.node k v h l r)) (htop : h ≤ 90) :
    ∃ t, Yields (performElementRemoval · l r) t ∧ Avl t ∧ toList t = toList l ++ toList r ∧
      (nodeHeight t = h ∨ nodeHeight t + 1 = h) := by
  obtain ⟨hl, hr, hh, hlr, hrl⟩ := ht
  cases hnl : isNull l with
  | true =>
    have hnil : l = .nil := by cases l <;> simp_all
    subst hnil
    simp only [nodeHeight_nil] at hh
    exact ⟨r, fun _ _ => rfl, hr, rfl, by omega⟩
  | false =>
    cases hnr : isNull r with
    | true =>
      have hnil : r = .nil := by cases r <;> simp_all
      subst hnil
      simp only [nodeHeight_nil] at hh
      refine ⟨l, fun cast _ => ?_, hl, by simp [toList], by omega⟩
      simp only [performElementRemoval, hnl, isNull_nil, Bool.false_eq_true, ↓reduceIte]
    | false =>
      by_cases hside : nodeHeight r ≥ nodeHeight l
      · obtain ⟨mk, mv, rest, hd, havl, hlist, hheight⟩ :=
          cbmapDetachExtremeIter_spec false (by rintro rfl; simp at hnr) hr (by omega)
        refine ⟨.node mk mv (max (nodeHeight l) (nodeHeight rest) + 1) l rest, fun cast hcast => ?_,
          ⟨hl, havl, rfl, by omega, by omega⟩, ?_, by simp only [nodeHeight_node]; omega⟩
        · simp only [performElementRemoval, hnl, hnr, Bool.false_eq_true, ↓reduceIte, if_pos hside, hd cast hcast,
            bind_eq_bind, bind_some]
          exact recalculateNodeHeight_eq hcast (by omega)
        · simp [toList, hlist]
      · obtain ⟨mk, mv, rest, hd, havl, hlist, hheight⟩ :=
          cbmapDetachExtremeIter_spec true (by rintro rfl; simp at hnl) hl (by omega)
        refine ⟨.node mk mv (max (nodeHeight rest) (nodeHeight r) + 1) rest r, fun cast hcast => ?_,
          ⟨havl, hr, rfl, by omega, by omega⟩, ?_, by simp only [nodeHeight_node]; omega⟩
        · simp only [performElementRemoval, hnl, hnr, Bool.false_eq_true, ↓reduceIte, if_neg hside, hd cast hcast,
            bind_eq_bind, bind_some]
          exact recalculateNodeHeight_eq hcast (by omega)
        · simp [toList, hlist]

/-! ## The descent -/

def SortedKeys [LinearOrder K] (bs : List (K × List UInt8)) : Prop := bs.Pairwise fun a b => a.1 < b.1

structure Descent [LinearOrder K] (key : K) (root sub : BmapNode K) (path : List (PathEntry K)) : Prop where
  plug : plugPath path sub = root
  avl : Avl sub
  frames : FramesOk path (nodeHeight sub)
  depth : path.length + nodeHeight sub ≤ nodeHeight root
  lt_key : ∀ b ∈ before path, b.1 < key
  key_lt : ∀ b ∈ after path, key < b.1

variable [LinearOrder K]

theorem Descent.start (key : K) {root : BmapNode K} (h : Avl root) : Descent key root root [] where
  plug := rfl
  avl := h
  frames := trivial
  depth := Nat.le_of_eq (Nat.zero_add _)
  lt_key := fun _ hb => by simp [before] at hb
  key_lt := fun _ hb => by simp [after] at hb

theorem Descent.list {key : K} {root sub : BmapNode K} {path : List (PathEntry K)} (hd : Descent key root sub path) :
    toList root = before path ++ toList sub ++ after path := by
  rw [← hd.plug, toList_plugPath]

theorem SortedKeys.node {k : K} {v : List UInt8} {h : Nat} {l r : BmapNode K} (hs : SortedKeys (toList (.node k v h l r))) :
    SortedKeys (toList l) ∧ SortedKeys (toList r) ∧ (∀ b ∈ toList l, b.1 < k) ∧ ∀ b ∈ toList r, k < b.1 := by
  unfold SortedKeys at *
  rw [toList, pairwise_append, pairwise_cons] at hs
  obtain ⟨hl, ⟨hk, hr⟩, hcross⟩ := hs
  exact ⟨hl, hr, fun b hb => hcross b hb (k, v) mem_cons_self, hk⟩

theorem Descent.left {key k : K} {v : List UInt8} {h : Nat} {root l r : BmapNode K} {path : List (PathEntry K)}
    (hd : Descent key root (.node k v h l r) path) (hs : SortedKeys (toList (.node k v h l r))) (hlt : key < k) :
    Descent key root l ({ dir := .left, key := k, val := v, height := h, sibling := r } :: path) where
  plug := hd.plug
  avl := hd.avl.1
  frames := by
    obtain ⟨-, hr, hh, hlr, hrl⟩ := hd.avl
    exact ⟨hr, hlr, hrl, hh, hd.frames⟩
  depth := by
    have hh := hd.avl.2.2.1
    have hdepth := hd.depth
    simp only [nodeHeight_node, length_cons] at hdepth ⊢
    omega
  lt_key := hd.lt_key
  key_lt := by
    intro b hb
    simp only [after, cons_append, mem_cons, mem_append] at hb
    rcases hb with rfl | hb | hb
    · exact hlt
    · exact lt_trans hlt (hs.node.2.2.2 b hb)
    · exact hd.key_lt b hb

theorem Descent.right {key k : K} {v : List UInt8} {h : Nat} {root l r : BmapNode K} {path : List (PathEntry K)}
    (hd : Descent key root (.node k v h l r) path) (hs : SortedKeys (toList (.node k v h l r))) (hlt : k < key) :
    Descent key root r ({ dir := .right, key := k, val := v, height := h, sibling := l } :: path) where
  plug := hd.plug
  avl := hd.avl.2.1
  frames := by
    obtain ⟨hl, -, hh, hlr, hrl⟩ := hd.avl
    exact ⟨hl, hrl, hlr, by simp only; omega, hd.frames⟩
  depth := by
    have hh := hd.avl.2.2.1
    have hdepth := hd.depth
    simp only [nodeHeight_node, length_cons] at hdepth ⊢
    omega
  lt_key := by
    intro b hb
    simp only [before, mem_append, mem_singleton] at hb
    rcases hb with hb | hb | rfl
    · exact hd.lt_key b hb
    · exact lt_trans (hs.node.2.2.1 b hb) hlt
    · exact hlt
  key_lt := hd.key_lt

theorem cbmapDescendWithPath_spec {key : K} {root : BmapNode K} (htop : nodeHeight root ≤ 90) :
    (sub : BmapNode K) → (path : List (PathEntry K)) → SortedKeys (toList sub) → Descent key root sub path →
    ∃ sub' path', cbmapDescendWithPath key sub path = some (sub', path') ∧ Descent key root sub' path' ∧
      (sub' = .nil ∨ ∃ v h l r, sub' = .node key v h l r)
  | .nil, path, _, hd => ⟨.nil, path, rfl, hd, .inl rfl⟩
  | .node k v h l r, path, hs, hd => by
    have hdepth := hd.depth
    have hh := hd.avl.2.2.1
    simp only [nodeHeight_node] at hdepth
    have hroom : path.length < cbmapMaxTreeHeight := by simp only [cbmapMaxTreeHeight]; omega
    unfold cbmapDescendWithPath
    rcases lt_trichotomy key k with hlt | rfl | hgt
    · rw [if_neg hlt.ne, if_pos hroom, if_pos hlt]
      exact cbmapDescendWithPath_spec htop l _ hs.node.1 (hd.left hs hlt)
    · rw [if_pos rfl]
      exact ⟨_, _, rfl, hd, .inr ⟨v, h, l, r, rfl⟩⟩
    · rw [if_neg hgt.ne', if_pos hroom, if_neg hgt.not_gt]
      exact cbmapDescendWithPath_spec htop r _ hs.node.2.1 (hd.right hs hgt)

theorem cbmapFindNode_eq_some {key : K} {val : List UInt8} : (t : BmapNode K) → SortedKeys (toList t) →
    (cbmapFindNode key t = some val ↔ (key, val) ∈ toList t)
  | .nil, _ => by simp [cbmapFindNode, toList]
  | .node k v h l r, hs => by
    obtain ⟨hl, hr, hlk, hkr⟩ := hs.node
    have hnl : key ≥ k → (key, val) ∉ toList l := fun hge hmem => absurd (hlk _ hmem) (not_lt.mpr hge)
    have hnr : key ≤ k → (key, val) ∉ toList r := fun hle hmem => absurd (hkr _ hmem) (not_lt.mpr hle)
    simp only [cbmapFindNode, toList, mem_append, mem_cons, Prod.mk.injEq]
    rcases lt_trichotomy key k with hlt | rfl | hgt
    · rw [if_neg hlt.ne, if_pos hlt, cbmapFindNode_eq_some l hl]
      simp [hlt.ne, hnr hlt.le]
    · simp [hnl le_rfl, hnr le_rfl, eq_comm]
    · rw [if_neg hgt.ne', if_neg hgt.not_gt, cbmapFindNode_eq_some r hr]
      simp [hgt.ne', hnl hgt.le]

end Ccollections.Cbstmap
