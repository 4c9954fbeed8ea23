import Mathlib.Data.List.AList
import Mathlib.Data.List.Basic
import Mathlib.Data.List.Perm.Basic
import Mathlib.Logic.Function.Basic

/-!
# Finite maps as lists of bindings
-/

namespace Ccollections.Lib

open List

variable {α β : Type*}

/-- The list holds the bindings of the map, each key once. -/
structure Represents (m : α → Option β) (l : List (α × β)) : Prop where
  nodup : (l.map Prod.fst).Nodup
  mem : ∀ (a : α) (b : β), m a = some b ↔ (a, b) ∈ l

/-- The map holds `n` keys. -/
def HasCount (m : α → Option β) (n : Nat) : Prop := ∃ keys : List α, keys.Nodup ∧ (∀ key, key ∈ keys ↔ m key ≠ none) ∧ n = keys.length

theorem Represents.empty : Represents (fun _ : α => (none : Option β)) [] :=
  ⟨nodup_nil, fun a b => by simp⟩

theorem Represents.perm {m : α → Option β} {l l' : List (α × β)} (h : Represents m l) (hp : l'.Perm l) : Represents m l' :=
  ⟨((hp.map _).nodup_iff).mpr h.nodup, fun a b => (h.mem a b).trans hp.mem_iff.symm⟩

theorem Represents.eq_none {m : α → Option β} {l : List (α × β)} (h : Represents m l) {a : α} (ha : a ∉ l.map Prod.fst) :
    m a = none := by
  cases hm : m a with
  | none => rfl
  | some b => exact (ha (mem_map.mpr ⟨(a, b), (h.mem a b).mp hm, rfl⟩)).elim

theorem Represents.hasCount {m : α → Option β} {l : List (α × β)} (h : Represents m l) : HasCount m l.length := by
  refine ⟨l.map Prod.fst, h.nodup, fun a => ⟨fun hmem => ?_, fun hne => ?_⟩, (length_map _).symm⟩
  · obtain ⟨⟨k, v⟩, hkv, rfl⟩ := mem_map.mp hmem
    rw [(h.mem k v).mpr hkv]
    exact Option.some_ne_none v
  · by_contra hnot
    exact hne (h.eq_none hnot)

variable [DecidableEq α]

theorem Represents.insert {m : α → Option β} {l : List (α × β)} (h : Represents m l) {a : α} (b : β)
    (ha : a ∉ l.map Prod.fst) : Represents (Function.update m a (some b)) ((a, b) :: l) where
  nodup := nodup_cons.mpr ⟨ha, h.nodup⟩
  mem := by
    intro a' b'
    rw [mem_cons]
    by_cases heq : a' = a
    · subst heq
      have hnot : (a', b') ∉ l := fun hmem => ha (mem_map.mpr ⟨(a', b'), hmem, rfl⟩)
      simp [hnot, eq_comm]
    · rw [Function.update_of_ne heq, h.mem]
      simp [heq]

theorem Represents.erase {m : α → Option β} {l : List (α × β)} {a : α} {b : β} (h : Represents m ((a, b) :: l)) :
    Represents (Function.update m a none) l where
  nodup := (nodup_cons.mp h.nodup).2
  mem := by
    intro a' b'
    by_cases heq : a' = a
    · subst heq
      have hnot : (a', b') ∉ l := fun hmem => (nodup_cons.mp h.nodup).1 (mem_map.mpr ⟨(a', b'), hmem, rfl⟩)
      simp [hnot]
    · rw [Function.update_of_ne heq, h.mem]
      simp [heq]

theorem Represents.replace {m : α → Option β} {l : List (α × β)} {a : α} {b : β} (h : Represents m ((a, b) :: l)) (b' : β) :
    Represents (Function.update m a (some b')) ((a, b') :: l) := by
  have hins := h.erase.insert b' (nodup_cons.mp h.nodup).1
  rwa [Function.update_idem] at hins

end Ccollections.Lib

/-!
# Finite maps that remember the order of insertion

A map is the list of its bindings, oldest first, and the keys are compared by any equivalence.
-/

namespace Ccollections.Lib.OrderedMap

open List

variable {α β : Type*} (eq : α → α → Bool)

/-- The binding of a key, with the key as it was first inserted. -/
def lookup (l : List (α × β)) (k : α) : Option (α × β) := l.find? fun e => eq e.1 k

/-- Another value for a key, in the same place. -/
def update (l : List (α × β)) (k : α) (v : β) : List (α × β) := l.map fun e => if eq e.1 k then (e.1, v) else e

def erase (l : List (α × β)) (k : α) : List (α × β) := l.filter fun e => !eq e.1 k

def Distinct (l : List (α × β)) : Prop := l.Pairwise fun a b => eq a.1 b.1 = false

variable {eq} {l l₁ l₂ : List (α × β)} {a k : α} {b v : β}

theorem lookup_eq_none_iff : lookup eq l k = none ↔ ∀ e ∈ l, eq e.1 k = false := by
  simp [lookup]

section Split

variable (hsymm : ∀ a b, eq a b = true → eq b a = true)
  (htrans : ∀ a b c, eq a b = true → eq b c = true → eq a c = true)
include hsymm htrans

theorem Distinct.others (hd : Distinct eq (l₁ ++ (a, b) :: l₂)) (hk : eq a k = true) :
    (∀ e ∈ l₁, eq e.1 k = false) ∧ ∀ e ∈ l₂, eq e.1 k = false := by
  rw [Distinct, pairwise_append, pairwise_cons] at hd
  obtain ⟨-, ⟨hafter, -⟩, hbefore⟩ := hd
  constructor
  · intro e he
    cases hek : eq e.1 k with
    | false => rfl
    | true =>
      have hea := htrans _ _ _ hek (hsymm _ _ hk)
      rw [hbefore e he (a, b) mem_cons_self] at hea
      exact hea.symm
  · intro e he
    cases hek : eq e.1 k with
    | false => rfl
    | true =>
      have hae := htrans _ _ _ hk (hsymm _ _ hek)
      rw [hafter e he] at hae
      exact hae.symm

theorem Distinct.lookup_split (hd : Distinct eq (l₁ ++ (a, b) :: l₂)) (hk : eq a k = true) :
    lookup eq (l₁ ++ (a, b) :: l₂) k = some (a, b) := by
  have hbefore := (hd.others hsymm htrans hk).1
  have hnone : l₁.find? (fun e => eq e.1 k) = none := lookup_eq_none_iff.mpr hbefore
  simp [lookup, List.find?_append, hnone, hk]

theorem Distinct.countP_le_one (hd : Distinct eq l) (k : α) : l.countP (fun e => eq e.1 k) ≤ 1 := by
  induction l with
  | nil => exact Nat.zero_le _
  | cons e l ih =>
    rw [Distinct, pairwise_cons] at hd
    rw [countP_cons]
    split
    case isTrue hk =>
      have hnone : l.countP (fun e => eq e.1 k) = 0 := by
        apply countP_eq_zero.mpr
        intro e' he' hk'
        have heq := htrans _ _ _ hk (hsymm _ _ hk')
        rw [hd.1 e' he'] at heq
        cases heq
      rw [hnone]
    case isFalse => exact ih hd.2

theorem Distinct.update_split (hd : Distinct eq (l₁ ++ (a, b) :: l₂)) (hk : eq a k = true) (v : β) :
    update eq (l₁ ++ (a, b) :: l₂) k v = l₁ ++ (a, v) :: l₂ := by
  obtain ⟨hbefore, hafter⟩ := hd.others hsymm htrans hk
  have hsame : ∀ l : List (α × β), (∀ e ∈ l, eq e.1 k = false) → (l.map fun e => if eq e.1 k then (e.1, v) else e) = l := by
    intro l hl
    rw [map_congr_left (g := id) fun e he => by simp [hl e he], map_id]
  rw [update, map_append, map_cons, hsame l₁ hbefore, hsame l₂ hafter, if_pos hk]

theorem Distinct.erase_split (hd : Distinct eq (l₁ ++ (a, b) :: l₂)) (hk : eq a k = true) :
    erase eq (l₁ ++ (a, b) :: l₂) k = l₁ ++ l₂ := by
  obtain ⟨hbefore, hafter⟩ := hd.others hsymm htrans hk
  have hsame : ∀ l : List (α × β), (∀ e ∈ l, eq e.1 k = false) → (l.filter fun e => !eq e.1 k) = l := by
    intro l hl
    rw [filter_eq_self]
    intro e he
    simp [hl e he]
  rw [erase, filter_append, filter_cons_of_neg (by simp [hk]), hsame l₁ hbefore, hsame l₂ hafter]

end Split

end Ccollections.Lib.OrderedMap

/-!
# Maps of keys to buckets

A map files elements in buckets, one bucket for a key. Its members are the elements of all buckets together, and
changing one bucket changes them by the elements that bucket gains or loses.
-/

namespace Ccollections.Lib

open List

abbrev Buckets (κ β : Type*) := AList fun _ : κ => β

namespace Buckets

variable {κ α β : Type*}

/-- The elements of all the buckets, bucket after bucket. -/
def members (elems : β → List α) (m : Buckets κ β) : List α := m.entries.flatMap fun e => elems e.2

variable {elems : β → List α}

@[simp] theorem members_empty : members elems (∅ : Buckets κ β) = [] := rfl

variable [DecidableEq κ] {m : Buckets κ β} {k : κ} {b : β}

@[simp] theorem members_insert : members elems (m.insert k b) = elems b ++ members elems (m.erase k) := by
  simp [members, AList.entries_insert]
  rfl

theorem members_erase_of_notMem (h : m.lookup k = none) : members elems (m.erase k) = members elems m := by
  have hk : k ∉ m.entries.keys := AList.lookup_eq_none.mp h
  exact congrArg (flatMap _) (kerase_of_notMem_keys hk)

theorem perm_members (h : m.lookup k = some b) : (members elems m).Perm (elems b ++ members elems (m.erase k)) := by
  have hmem : k ∈ m.entries.keys := AList.lookup_isSome.mp (by simp [h])
  obtain ⟨b', l₁, l₂, -, hentries, hrest⟩ := exists_of_kerase hmem
  have hin : (⟨k, b'⟩ : Sigma fun _ : κ => β) ∈ m.entries := by simp [hentries]
  have hb : b' = b := by
    have hlookup : m.lookup k = some b' := mem_dlookup m.nodupKeys hin
    rw [h] at hlookup
    exact (Option.some.inj hlookup).symm
  subst hb
  have herase : (m.erase k).entries = l₁ ++ l₂ := hrest
  simp only [members, herase]
  simp only [hentries, flatMap_append, flatMap_cons]
  exact perm_append_comm_assoc _ _ _

def All (P : κ → β → Prop) (m : Buckets κ β) : Prop := ∀ k b, m.lookup k = some b → P k b

variable {P : κ → β → Prop}

theorem All.empty : All P (∅ : Buckets κ β) := by
  intro k b h
  simp at h

theorem All.erase (h : All P m) (k : κ) : All P (m.erase k) := by
  intro k' b hb
  by_cases hk : k' = k
  · subst hk
    simp at hb
  · rw [AList.lookup_erase_ne hk] at hb
    exact h k' b hb

theorem All.insert (h : All P m) (hb : P k b) : All P (m.insert k b) := by
  intro k' b' hb'
  by_cases hk : k' = k
  · subst hk
    rw [AList.lookup_insert, Option.some.injEq] at hb'
    exact hb' ▸ hb
  · rw [AList.lookup_insert_ne hk] at hb'
    exact h k' b' hb'

theorem mem_members {a : α} : a ∈ members elems m ↔ ∃ k b, m.lookup k = some b ∧ a ∈ elems b := by
  simp only [members, mem_flatMap]
  constructor
  · rintro ⟨⟨k, b⟩, he, ha⟩
    exact ⟨k, b, mem_dlookup m.nodupKeys he, ha⟩
  · rintro ⟨k, b, hb, ha⟩
    exact ⟨⟨k, b⟩, of_mem_dlookup hb, ha⟩

end Buckets

end Ccollections.Lib
