import Ccollections.Cbstmap.Cbstmap
import Ccollections.Cbstmap.Lemmas.Ops

/-!
# The explicit stacks of the walks
-/

namespace Ccollections.Cbstmap

open List

variable {K : Type}
variable {root : BmapNode K} {a : Addr} {t : BmapNode K} {stack : List Addr}

/-! ## Addresses -/

def inorder : BmapNode K → Addr → List Addr
  | .nil, _ => []
  | .node _ _ _ l r, a => inorder l (.left :: a) ++ a :: inorder r (.right :: a)

def postorder : BmapNode K → Addr → List Addr
  | .nil, _ => []
  | .node _ _ _ l r, a => postorder l (.left :: a) ++ postorder r (.right :: a) ++ [a]

def pairsAt (root : BmapNode K) (a : Addr) : Option (K × List UInt8) :=
  match subtreeAt root a with
  | .nil => none
  | .node k v _ _ _ => some (k, v)

theorem subtreeAt_left {root l r : BmapNode K} {k : K} {v : List UInt8} {h : Nat}
    (hat : subtreeAt root a = .node k v h l r) : subtreeAt root (.left :: a) = l := by
  rw [subtreeAt, hat]
  rfl

theorem subtreeAt_right {root l r : BmapNode K} {k : K} {v : List UInt8} {h : Nat}
    (hat : subtreeAt root a = .node k v h l r) : subtreeAt root (.right :: a) = r := by
  rw [subtreeAt, hat]
  rfl

@[simp] theorem child_nil (d : Dir) : (BmapNode.nil : BmapNode K).child d = .nil := by
  cases d <;> rfl

theorem Avl.child (ht : Avl t) (d : Dir) : Avl (t.child d) := by
  cases t with
  | nil => simpa using ht
  | node k v h l r =>
    cases d with
    | left => exact ht.1
    | right => exact ht.2.1

theorem Avl.subtreeAt (hroot : Avl root) (a : Addr) : Avl (subtreeAt root a) := by
  induction a with
  | nil => exact hroot
  | cons d a ih => exact ih.child d

theorem Avl.nodeHeight_child_lt (ht : Avl t) (d : Dir) (hne : t.child d ≠ .nil) :
    nodeHeight (t.child d) < nodeHeight t := by
  cases t with
  | nil => simp at hne
  | node k v h l r =>
    obtain ⟨-, -, hh, -, -⟩ := ht
    simp only [nodeHeight_node]
    cases d with
    | left => simp only [BmapNode.child]; omega
    | right => simp only [BmapNode.child]; omega

theorem subtreeAt_ne_nil_of_cons {d : Dir} (hne : subtreeAt root (d :: a) ≠ .nil) :
    subtreeAt root a ≠ .nil := by
  intro hnil
  simp [subtreeAt, hnil] at hne

theorem Avl.depth_add_height_le (hroot : Avl root) (hne : Cbstmap.subtreeAt root a ≠ .nil) :
    a.length + nodeHeight (Cbstmap.subtreeAt root a) ≤ nodeHeight root := by
  induction a with
  | nil => simp [Cbstmap.subtreeAt]
  | cons d a ih =>
    have hle := ih (subtreeAt_ne_nil_of_cons hne)
    have hlt := (hroot.subtreeAt a).nodeHeight_child_lt d hne
    simp only [Cbstmap.subtreeAt, length_cons]
    omega

theorem Avl.nodeHeight_pos (ht : Avl t) (hne : t ≠ .nil) : 0 < nodeHeight t := by
  cases t with
  | nil => exact absurd rfl hne
  | node k v h l r =>
    obtain ⟨-, -, hh, -, -⟩ := ht
    simp only [nodeHeight_node]
    omega

theorem Avl.depth_lt (hroot : Avl root) (htop : nodeHeight root ≤ 90)
    (hne : Cbstmap.subtreeAt root a ≠ .nil) : a.length < cbmapMaxTreeHeight := by
  have hle := hroot.depth_add_height_le hne
  have hpos := (hroot.subtreeAt a).nodeHeight_pos hne
  simp only [cbmapMaxTreeHeight]
  omega

theorem inorder_pairs : (t : BmapNode K) → (a : Addr) → subtreeAt root a = t →
    (inorder t a).map (pairsAt root) = (toList t).map some
  | .nil, _, _ => rfl
  | .node k v h l r, a, hat => by
    have hl := inorder_pairs l (.left :: a) (subtreeAt_left hat)
    have hr := inorder_pairs r (.right :: a) (subtreeAt_right hat)
    have hhere : pairsAt root a = some (k, v) := by simp [pairsAt, hat]
    simp [inorder, toList, hl, hr, hhere]

/-! ## The iterator's stack -/

def StackOk (root : BmapNode K) : List Addr → Prop
  | [] => True
  | a :: stack => subtreeAt root a ≠ .nil ∧ stack.length ≤ a.length ∧ StackOk root stack

def pending (root : BmapNode K) : List Addr → List Addr
  | [] => []
  | a :: stack => a :: inorder (subtreeAt root (.right :: a)) (.right :: a) ++ pending root stack

theorem pushAllLeftsIntoIterStack_spec (hroot : Avl root) (htop : nodeHeight root ≤ 90) :
    (t : BmapNode K) → (a : Addr) → (stack : List Addr) → subtreeAt root a = t → stack.length ≤ a.length →
    StackOk root stack →
    ∃ stack', pushAllLeftsIntoIterStack t a stack = some stack' ∧ StackOk root stack' ∧
      pending root stack' = inorder t a ++ pending root stack
  | .nil, _, stack, _, _, hok => ⟨stack, rfl, hok, rfl⟩
  | .node k v h l r, a, stack, hat, hlen, hok => by
    have hne : subtreeAt root a ≠ .nil := by simp [hat]
    have hroom := hroot.depth_lt htop hne
    obtain ⟨stack', hpush, hok', hpend⟩ := pushAllLeftsIntoIterStack_spec hroot htop l (.left :: a) (a :: stack)
      (subtreeAt_left hat) (by simpa using hlen) ⟨hne, hlen, hok⟩
    refine ⟨stack', ?_, hok', ?_⟩
    · rw [pushAllLeftsIntoIterStack, if_pos (by omega), hpush]
    · rw [hpend, inorder, pending, subtreeAt_right hat]
      simp

/-- The iterator shows the node that is next in order, and its stack stands for the nodes after it. -/
def ShowsRest (root : BmapNode K) (rest : List Addr) : Option CmapIterator → Prop
  | none => rest = []
  | some iter => StackOk root iter.nodeStack ∧ rest = iter.userIter :: pending root iter.nodeStack

theorem cmapRealIterNext_spec (hroot : Avl root) (htop : nodeHeight root ≤ 90)
    (hok : StackOk root stack) :
    ∃ iter, cmapRealIterNext root stack = some iter ∧ ShowsRest root (pending root stack) iter := by
  cases stack with
  | nil => exact ⟨none, rfl, rfl⟩
  | cons a stack =>
    obtain ⟨hne, hlen, hok⟩ := hok
    obtain ⟨stack', hpush, hok', hpend⟩ := pushAllLeftsIntoIterStack_spec hroot htop _ (.right :: a) stack rfl
      (by simp only [length_cons]; omega) hok
    refine ⟨some { nodeStack := stack', userIter := a }, ?_, hok', ?_⟩
    · simp only [cmapRealIterNext, hpush, Option.bind_eq_bind, Option.bind_some]
    · simp only [pending, hpend, cons_append]

theorem cbstmapBeginIter_spec {cbm : Cbmap K} (hroot : Avl cbm.root) (htop : nodeHeight cbm.root ≤ 90) :
    ∃ iter, cbstmapBeginIter cbm true = some (iter, none) ∧ ShowsRest cbm.root (inorder cbm.root []) iter := by
  unfold cbstmapBeginIter
  cases hnull : isNull cbm.root with
  | true =>
    have hnil : cbm.root = .nil := by cases hr : cbm.root <;> simp_all
    exact ⟨none, rfl, by rw [hnil]; rfl⟩
  | false =>
    obtain ⟨stack, hpush, hok, hpend⟩ :=
      pushAllLeftsIntoIterStack_spec hroot htop cbm.root [] [] rfl (Nat.le_refl _) trivial
    obtain ⟨iter, hnext, hshow⟩ := cmapRealIterNext_spec hroot htop hok
    simp only [pending, append_nil] at hpend
    rw [hpend] at hshow
    exact ⟨iter, by simp [hpush, hnext], hshow⟩

theorem iterAt_spec {cbm : Cbmap K} (hroot : Avl cbm.root) (htop : nodeHeight cbm.root ≤ 90) (i : Nat) :
    ∃ iter, iterAt cbm true i = some iter ∧ ShowsRest cbm.root ((inorder cbm.root []).drop i) iter := by
  induction i with
  | zero =>
    obtain ⟨iter, hbegin, hshow⟩ := cbstmapBeginIter_spec hroot htop
    exact ⟨iter, by simp [iterAt, hbegin], hshow⟩
  | succ i ih =>
    obtain ⟨iter, hat, hshow⟩ := ih
    rw [← tail_drop]
    cases iter with
    | none => exact ⟨none, by simp [iterAt, hat], by rw [hshow]; rfl⟩
    | some iter =>
      obtain ⟨hok, hrest⟩ := hshow
      obtain ⟨next, hnext, hshow'⟩ := cmapRealIterNext_spec hroot htop hok
      refine ⟨next, by simp [iterAt, hat, cbmapIterNext, hnext], ?_⟩
      rwa [hrest, tail_cons]

theorem ShowsRest.userIter {rest : List Addr} {iter : Option CmapIterator}
    (h : ShowsRest root rest iter) : iter.map CmapIterator.userIter = rest.head? := by
  cases iter with
  | none => rw [h]; rfl
  | some iter => rw [h.2]; rfl

theorem iterAt_of_alloc_failed (cbm : Cbmap K) (i : Nat) : iterAt cbm false i = some none := by
  induction i with
  | zero =>
    simp only [iterAt, cbstmapBeginIter]
    cases isNull cbm.root <;> rfl
  | succ i ih => simp [iterAt, ih]

/-! ## The stack of `_clear_nodes` -/

def clearSteps : BmapNode K → Nat
  | .nil => 0
  | .node _ _ _ l r => 1 + clearSteps l + (if isNull r then 0 else 1) + clearSteps r + 1

theorem clearSteps_le : (t : BmapNode K) → clearSteps t ≤ 3 * size t
  | .nil => Nat.zero_le _
  | .node k v h l r => by
    have hl := clearSteps_le l
    have hr := clearSteps_le r
    simp only [clearSteps, size_node]
    split <;> omega

theorem mem_postorder_suffix : (t : BmapNode K) → {a b : Addr} → b ∈ postorder t a → a <:+ b
  | .nil, _, _, hb => by simp [postorder] at hb
  | .node _ _ _ l r, a, b, hb => by
    simp only [postorder, mem_append, mem_singleton] at hb
    rcases hb with (hb | hb) | rfl
    · exact (suffix_cons _ _).trans (mem_postorder_suffix l hb)
    · exact (suffix_cons _ _).trans (mem_postorder_suffix r hb)
    · exact suffix_refl _

theorem clearLoop_add (root : BmapNode K) (m n : Nat) (s : ClearState) :
    clearLoop root (m + n) s = (clearLoop root m s).bind (clearLoop root n) := by
  induction m generalizing s with
  | zero => simp [clearLoop]
  | succ m ih =>
    rw [Nat.succ_add]
    simp only [clearLoop]
    by_cases hd : s.done = true
    · simp only [hd, ↓reduceIte, Option.bind_some]
      cases n with
      | zero => rfl
      | succ n => simp [clearLoop, hd]
    · simp only [hd, Bool.false_eq_true, ↓reduceIte, Option.bind_eq_bind, Option.bind_assoc]
      exact congrArg _ (funext ih)

theorem clearLoop_of_done {s : ClearState} (hd : s.done = true) (n : Nat) :
    clearLoop root n s = some s := by
  cases n with
  | zero => rfl
  | succ n => simp [clearLoop, hd]

theorem clearLoop_one {s : ClearState} (hd : s.done = false) :
    clearLoop root 1 s = clearStep root s := by
  simp only [clearLoop, hd, Bool.false_eq_true, ↓reduceIte, Option.bind_eq_bind]
  cases clearStep root s <;> rfl

def ptrTo (t : BmapNode K) (a : Addr) : Option Addr := if isNull t then none else some a

theorem linkOf_eq {d : Dir} (hat : subtreeAt root (d :: a) = t) :
    linkOf root a d = ptrTo t (d :: a) := by
  rw [linkOf, hat, ptrTo]

def lastAfter (t : BmapNode K) (a : Addr) (last : Option Addr) : Option Addr := if isNull t then last else some a

theorem clearStep_push {last : Option Addr} {destroyed : List Addr}
    (hroom : stack.length < cbmapMaxTreeHeight) (hlive : a ∉ destroyed) :
    clearStep root { stack := stack, current := some a, lastVisited := last, destroyed := destroyed } =
      some { stack := a :: stack, current := linkOf root a .left, lastVisited := last, destroyed := destroyed } := by
  simp [clearStep, hroom, hlive]

theorem clearStep_right {a b : Addr} {last : Option Addr} {destroyed : List Addr}
    (hlive : a ∉ destroyed) (hlink : linkOf root a .right = some b) (hlast : last ≠ some b) :
    clearStep root { stack := a :: stack, current := none, lastVisited := last, destroyed := destroyed } =
      some { stack := a :: stack, current := some b, lastVisited := last, destroyed := destroyed } := by
  simp [clearStep, hlive, hlink, hlast.symm]

theorem clearStep_pop {last : Option Addr} {destroyed : List Addr}
    (hlive : a ∉ destroyed) (hlink : linkOf root a .right = none ∨ linkOf root a .right = last) :
    clearStep root { stack := a :: stack, current := none, lastVisited := last, destroyed := destroyed } =
      some { stack := stack, current := none, lastVisited := some a, destroyed := destroyed ++ [a] } := by
  rcases hlink with hlink | hlink
  · simp [clearStep, hlive, hlink]
  · simp [clearStep, hlive, hlink]

theorem not_suffix_sibling {a b : Addr} {d e : Dir} (hb : d :: a <:+ b) (hne : d ≠ e) : ¬ e :: a <:+ b := by
  intro he
  have hlen := suffix_of_suffix_length_le hb he (by simp)
  exact hne (List.cons.inj (hlen.eq_of_length (by simp))).1

/-- From a pointer to a subtree with no freed node the loop frees all of it, children first, and leaves the stack as it
was. -/
theorem clearLoop_subtree (hroot : Avl root) (htop : nodeHeight root ≤ 90) : (t : BmapNode K) →
    (a : Addr) → (stack : List Addr) → (last : Option Addr) → (destroyed : List Addr) → subtreeAt root a = t →
    stack.length ≤ a.length → (∀ b ∈ destroyed, ¬ a <:+ b) → (∀ b, last = some b → b ∈ destroyed) →
    clearLoop root (clearSteps t)
        { stack := stack, current := ptrTo t a, lastVisited := last, destroyed := destroyed } =
      some { stack := stack, current := none, lastVisited := lastAfter t a last, destroyed := destroyed ++ postorder t a }
  | .nil, a, stack, last, destroyed, _, _, _, _ => by simp [clearLoop, clearSteps, ptrTo, lastAfter, postorder]
  | .node k v h l r, a, stack, last, destroyed, hat, hlen, hlive, hlast => by
    have hroom := hroot.depth_lt htop (a := a) (by simp [hat])
    have hleft : subtreeAt root (.left :: a) = l := subtreeAt_left hat
    have hright : subtreeAt root (.right :: a) = r := subtreeAt_right hat
    have ha : a ∉ destroyed := fun hmem => hlive a hmem (suffix_refl _)
    -- The left side.
    have ihl := clearLoop_subtree hroot htop l (.left :: a) (a :: stack) last destroyed hleft (by simpa using hlen)
      (fun b hb hsuf => hlive b hb ((suffix_cons _ _).trans hsuf)) hlast
    have hliveL : ∀ b ∈ destroyed ++ postorder l (.left :: a), ¬ .right :: a <:+ b := by
      intro b hb hsuf
      rcases mem_append.mp hb with hb | hb
      · exact hlive b hb ((suffix_cons _ _).trans hsuf)
      · exact not_suffix_sibling (mem_postorder_suffix l hb) (by simp) hsuf
    have haL : a ∉ destroyed ++ postorder l (.left :: a) := by
      intro hb
      rcases mem_append.mp hb with hb | hb
      · exact ha hb
      · have hle := (mem_postorder_suffix l hb).length_le
        simp at hle
    have hlastL : ∀ b, lastAfter l (.left :: a) last = some b → b ∈ destroyed ++ postorder l (.left :: a) := by
      intro b hb
      cases l with
      | nil => exact mem_append_left _ (hlast b hb)
      | node => simp_all [lastAfter, postorder]
    have hsplit : clearSteps (.node k v h l r) =
        1 + (clearSteps l + (((if isNull r then 0 else 1) + clearSteps r) + 1)) := by
      simp only [clearSteps]
      omega
    rw [hsplit, clearLoop_add, clearLoop_one (by simp [ClearState.done, ptrTo]),
      show ptrTo (.node k v h l r) a = some a from rfl, clearStep_push (by omega) ha, Option.bind_some, linkOf_eq hleft,
      clearLoop_add, ihl, Option.bind_some, clearLoop_add]
    -- The right side, if there is one.
    have hmid : clearLoop root ((if isNull r then 0 else 1) + clearSteps r)
          { stack := a :: stack, current := none, lastVisited := lastAfter l (.left :: a) last,
            destroyed := destroyed ++ postorder l (.left :: a) } =
        some { stack := a :: stack, current := none,
               lastVisited := lastAfter r (.right :: a) (lastAfter l (.left :: a) last),
               destroyed := destroyed ++ postorder l (.left :: a) ++ postorder r (.right :: a) } := by
      have ihr := clearLoop_subtree hroot htop r (.right :: a) (a :: stack) (lastAfter l (.left :: a) last)
        (destroyed ++ postorder l (.left :: a)) hright (by simpa using hlen) hliveL hlastL
      cases hnull : isNull r with
      | true =>
        simp only [ptrTo, hnull, ↓reduceIte] at ihr
        simpa using ihr
      | false =>
        simp only [ptrTo, hnull, Bool.false_eq_true, ↓reduceIte] at ihr
        have hlink : linkOf root a .right = some (.right :: a) := by rw [linkOf_eq hright, ptrTo, hnull]; rfl
        have hother : lastAfter l (.left :: a) last ≠ some (.right :: a) :=
          fun he => hliveL _ (hlastL _ he) (suffix_refl _)
        rw [if_neg (by simp), clearLoop_add, clearLoop_one (by simp [ClearState.done]),
          clearStep_right haL hlink hother, Option.bind_some, ihr]
    -- The node itself.
    have haR : a ∉ destroyed ++ postorder l (.left :: a) ++ postorder r (.right :: a) := by
      intro hb
      rcases mem_append.mp hb with hb | hb
      · exact haL hb
      · have hle := (mem_postorder_suffix r hb).length_le
        simp at hle
    rw [hmid, Option.bind_some, clearLoop_one (by simp [ClearState.done]), clearStep_pop haR]
    · simp [lastAfter, postorder]
    · rw [linkOf_eq hright, ptrTo, lastAfter]
      cases isNull r <;> simp

theorem clearLoop_root (hroot : Avl root) (htop : nodeHeight root ≤ 90) (hne : root ≠ .nil) {n : Nat}
    (hn : 3 * size root ≤ n) :
    ∃ s, clearLoop root n clearStart = some s ∧ s.done = true ∧ s.destroyed = postorder root [] := by
  have hsub := clearLoop_subtree hroot htop root [] [] none [] rfl (Nat.le_refl _) (by simp) (by simp)
  have hptr : ptrTo root [] = some [] := by
    cases root with
    | nil => exact absurd rfl hne
    | node => rfl
  have hle := clearSteps_le root
  refine ⟨{ stack := [], current := none, lastVisited := lastAfter root [] none, destroyed := postorder root [] }, ?_, rfl, rfl⟩
  rw [show n = clearSteps root + (n - clearSteps root) by omega, clearLoop_add, clearStart, ← hptr, hsub, Option.bind_some]
  exact clearLoop_of_done rfl _

theorem clearLoop_isSome (hroot : Avl root) (htop : nodeHeight root ≤ 90) (hne : root ≠ .nil) (n : Nat) :
    (clearLoop root n clearStart).isSome := by
  obtain ⟨s, hs, -⟩ := clearLoop_root hroot htop hne (n := n + 3 * size root) (by omega)
  rw [clearLoop_add] at hs
  cases hm : clearLoop root n clearStart with
  | none => simp [hm] at hs
  | some => rfl

/-! ## Children first -/

theorem mem_postorder : (t : BmapNode K) → {root : BmapNode K} → {a b : Addr} → subtreeAt root a = t →
    (b ∈ postorder t a ↔ a <:+ b ∧ subtreeAt root b ≠ .nil)
  | .nil, root, a, b, hat => by
    simp only [postorder, not_mem_nil, false_iff, not_and, not_not]
    rintro ⟨pre, rfl⟩
    induction pre with
    | nil => exact hat
    | cons d pre ih => simp [subtreeAt, ih]
  | .node k v h l r, root, a, b, hat => by
    simp only [postorder, mem_append, mem_singleton, mem_postorder l (subtreeAt_left hat),
      mem_postorder r (subtreeAt_right hat)]
    constructor
    · rintro ((⟨hsuf, hne⟩ | ⟨hsuf, hne⟩) | rfl)
      · exact ⟨(suffix_cons _ _).trans hsuf, hne⟩
      · exact ⟨(suffix_cons _ _).trans hsuf, hne⟩
      · exact ⟨suffix_refl _, by simp [hat]⟩
    · rintro ⟨⟨pre, rfl⟩, hne⟩
      rcases eq_nil_or_concat pre with rfl | ⟨pre, d, rfl⟩
      · exact .inr rfl
      · cases d with
        | left => exact .inl (.inl ⟨⟨pre, by simp⟩, hne⟩)
        | right => exact .inl (.inr ⟨⟨pre, by simp⟩, hne⟩)

theorem mem_inorder_iff : (t : BmapNode K) → {a b : Addr} → (b ∈ inorder t a ↔ b ∈ postorder t a)
  | .nil, _, _ => Iff.rfl
  | .node _ _ _ l r, a, b => by
    simp only [inorder, postorder, mem_append, mem_cons, mem_inorder_iff l, mem_inorder_iff r,
      mem_nil_iff, or_false, or_assoc]
    exact or_congr_right or_comm

theorem postorder_nodup : (t : BmapNode K) → (a : Addr) → (postorder t a).Nodup
  | .nil, _ => by simp [postorder]
  | .node _ _ _ l r, a => by
    simp only [postorder]
    refine List.Nodup.append ((postorder_nodup l _).append (postorder_nodup r _) ?_) (by simp) ?_
    · intro b hl hr
      exact not_suffix_sibling (mem_postorder_suffix l hl) (by simp) (mem_postorder_suffix r hr)
    · intro b hb hba
      rw [mem_singleton] at hba
      subst hba
      rcases mem_append.mp hb with hb | hb
      · have hle := (mem_postorder_suffix l hb).length_le
        simp at hle
      · have hle := (mem_postorder_suffix r hb).length_le
        simp at hle

theorem postorder_pairwise : (t : BmapNode K) → (a : Addr) → (postorder t a).Pairwise fun b c => ¬ b <:+ c
  | .nil, _ => by simp [postorder]
  | .node _ _ _ l r, a => by
    simp only [postorder, pairwise_append, pairwise_singleton, mem_append, mem_singleton]
    refine ⟨⟨postorder_pairwise l _, postorder_pairwise r _, ?_⟩, trivial, ?_⟩
    · intro b hb c hc hbc
      exact not_suffix_sibling ((mem_postorder_suffix l hb).trans hbc) (by simp) (mem_postorder_suffix r hc)
    · rintro b hb c rfl hbc
      have hle := hbc.length_le
      rcases hb with hb | hb
      · have hlt := (mem_postorder_suffix l hb).length_le
        simp only [length_cons] at hlt
        omega
      · have hlt := (mem_postorder_suffix r hb).length_le
        simp only [length_cons] at hlt
        omega

end Ccollections.Cbstmap
