import Ccollections.Lib.Bytes

/-!
# A heap of blocks

A pointer is a block and an offset into it. Access to a block that is not live, or past its end, and a
`memcpy` between overlapping ranges have no result: they are undefined behaviour. What the allocator does
with each request is fixed in advance in `fate`, so a statement over every `fate` is one over every
pattern of allocation failures. A `realloc` that succeeds always moves, so no stale pointer survives it.
-/

namespace Ccollections.Lib

open Function List

structure Block where
  size : Nat
  bytes : Bytes

structure Ptr where
  block : Nat
  off : Nat
  deriving DecidableEq

structure Heap where
  blocks : Nat → Option Block
  /-- Blocks from here on were never handed out. -/
  next : Nat
  /-- The outcome of each request: a failure, or what the new bytes hold before anything is written. -/
  fate : Nat → Option Bytes
  requests : Nat

namespace Heap

def empty (fate : Nat → Option Bytes) : Heap :=
  { blocks := fun _ => none, next := 0, fate := fate, requests := 0 }

/-- The bytes from `p` on, of which the first `n` may be read. -/
def load (h : Heap) (p : Ptr) (n : Nat) : Option Bytes :=
  match h.blocks p.block with
  | none => none
  | some b => if p.off + n ≤ b.size then some fun a => b.bytes (p.off + a) else none

def store (h : Heap) (p : Ptr) (src : Bytes) (n : Nat) : Option Heap :=
  match h.blocks p.block with
  | none => none
  | some b =>
    if p.off + n ≤ b.size then
      let b' : Block := { b with bytes := copyBytes b.bytes p.off src 0 n }
      some { h with blocks := update h.blocks p.block (some b') }
    else none

def memmove (h : Heap) (dst src : Ptr) (n : Nat) : Option Heap := do
  let bytes ← h.load src n
  h.store dst bytes n

/-- Whether the ranges of `n` bytes at two pointers have a byte in common. -/
def overlap (dst src : Ptr) (n : Nat) : Bool :=
  dst.block = src.block ∧ dst.off < src.off + n ∧ src.off < dst.off + n

def memcpy (h : Heap) (dst src : Ptr) (n : Nat) : Option Heap :=
  if overlap dst src n then none else h.memmove dst src n

/-- A block that is not asked of the allocator, such as an array of the caller. -/
def give (h : Heap) (size : Nat) (bytes : Bytes) : Heap × Nat :=
  ({ h with blocks := update h.blocks h.next (some { size := size, bytes := bytes }), next := h.next + 1 },
    h.next)

def malloc (h : Heap) (size : Nat) : Heap × Option Nat :=
  match h.fate h.requests with
  | none => ({ h with requests := h.requests + 1 }, none)
  | some junk =>
    let (h, b) := h.give size junk
    ({ h with requests := h.requests + 1 }, some b)

/-- The bytes of a block of `old` bytes after its size becomes `new`. -/
def resized (b : Block) (new : Nat) (junk : Bytes) : Block :=
  { size := new, bytes := fun a => if a < min b.size new then b.bytes a else junk a }

def realloc (h : Heap) (block size : Nat) : Option (Heap × Option Nat) :=
  match h.blocks block with
  | none => none
  | some b =>
    match h.fate h.requests with
    | none => some ({ h with requests := h.requests + 1 }, none)
    | some junk =>
      let blocks := update (update h.blocks block none) h.next (some (resized b size junk))
      some ({ h with blocks := blocks, next := h.next + 1, requests := h.requests + 1 }, some h.next)

/-- A `realloc` that may also leave the block at its old address, where `stays` says so. -/
def resize (h : Heap) (stays : Nat → Bool) (block size : Nat) : Option (Heap × Option Nat) :=
  if stays h.requests then
    match h.blocks block with
    | none => none
    | some b =>
      match h.fate h.requests with
      | none => some ({ h with requests := h.requests + 1 }, none)
      | some junk =>
        some ({ h with
          blocks := update h.blocks block (some (resized b size junk))
          requests := h.requests + 1 }, some block)
  else h.realloc block size

/-- A block that is not live cannot be freed again. -/
def free (h : Heap) (block : Nat) : Option Heap :=
  match h.blocks block with
  | none => none
  | some _ => some { h with blocks := update h.blocks block none }

/-! ## What each access does -/

theorem load_eq {h : Heap} {p : Ptr} {n : Nat} {b : Block} (hb : h.blocks p.block = some b)
    (hn : p.off + n ≤ b.size) : h.load p n = some fun a => b.bytes (p.off + a) := by
  simp [load, hb, hn]

theorem store_eq {h : Heap} {p : Ptr} {n : Nat} {b : Block} (src : Bytes) (hb : h.blocks p.block = some b)
    (hn : p.off + n ≤ b.size) :
    h.store p src n = some { h with
      blocks := update h.blocks p.block
        (some { b with bytes := copyBytes b.bytes p.off src 0 n }) } := by
  simp [store, hb, hn]

theorem memmove_eq {h : Heap} {dst src : Ptr} {n : Nat} {b c : Block} (hb : h.blocks dst.block = some b)
    (hc : h.blocks src.block = some c) (hdst : dst.off + n ≤ b.size) (hsrc : src.off + n ≤ c.size) :
    h.memmove dst src n = some { h with
      blocks := update h.blocks dst.block
        (some { b with bytes := copyBytes b.bytes dst.off c.bytes src.off n }) } := by
  have hcopy : copyBytes b.bytes dst.off (fun a => c.bytes (src.off + a)) 0 n =
      copyBytes b.bytes dst.off c.bytes src.off n := copyBytes_congr fun a _ => by simp only [Nat.zero_add]
  rw [memmove, load_eq hc hsrc]
  simp only [Option.bind_eq_bind, Option.bind_some]
  rw [store_eq _ hb hdst, hcopy]

theorem memcpy_eq {h : Heap} {dst src : Ptr} {n : Nat} {b c : Block} (hb : h.blocks dst.block = some b)
    (hc : h.blocks src.block = some c) (hdst : dst.off + n ≤ b.size) (hsrc : src.off + n ≤ c.size)
    (hno : overlap dst src n = false) :
    h.memcpy dst src n = some { h with
      blocks := update h.blocks dst.block
        (some { b with bytes := copyBytes b.bytes dst.off c.bytes src.off n }) } := by
  rw [memcpy, hno, memmove_eq hb hc hdst hsrc]
  rfl

/-- A `realloc` either leaves every block as it was, or moves the block to one never handed out before. -/
theorem realloc_cases {h : Heap} {block : Nat} {b : Block} (hb : h.blocks block = some b) (size : Nat) :
    (h.fate h.requests = none ∧ h.realloc block size = some ({ h with requests := h.requests + 1 }, none)) ∨
    ∃ junk, h.realloc block size = some ({ h with
        blocks := update (update h.blocks block none) h.next (some (resized b size junk))
        next := h.next + 1
        requests := h.requests + 1 }, some h.next) := by
  unfold realloc
  rw [hb]
  cases hf : h.fate h.requests with
  | none => exact .inl ⟨rfl, rfl⟩
  | some junk => exact .inr ⟨junk, rfl⟩

/-- A request either fails and leaves every block as it was, or hands out a block never handed out before. -/
theorem malloc_cases (h : Heap) (size : Nat) :
    (h.fate h.requests = none ∧ h.malloc size = ({ h with requests := h.requests + 1 }, none)) ∨
    ∃ junk, h.fate h.requests = some junk ∧ h.malloc size = ({ h with
        blocks := update h.blocks h.next (some { size := size, bytes := junk })
        next := h.next + 1
        requests := h.requests + 1 }, some h.next) := by
  unfold malloc
  cases h.fate h.requests with
  | none => exact .inl ⟨rfl, rfl⟩
  | some junk => exact .inr ⟨junk, rfl, rfl⟩

/-- Where a block may be after its size changed: at its old address or at one never handed out before. -/
theorem resize_cases {h : Heap} {block : Nat} {b : Block} (hb : h.blocks block = some b) (stays : Nat → Bool) (size : Nat) :
    (h.fate h.requests = none ∧ h.resize stays block size = some ({ h with requests := h.requests + 1 }, none)) ∨
    ∃ h' d junk, h.resize stays block size = some (h', some d) ∧ h'.blocks d = some (resized b size junk) ∧
      (∀ c, c ≠ block → c < h.next → h'.blocks c = h.blocks c) ∧ h.next ≤ h'.next ∧
      (d = block ∨ h.next ≤ d ∧ d < h'.next) := by
  unfold resize
  by_cases hs : stays h.requests
  · rw [if_pos hs, hb]
    cases hf : h.fate h.requests with
    | none => exact .inl ⟨rfl, rfl⟩
    | some junk =>
      refine .inr ⟨_, block, junk, rfl, by simp, ?_, Nat.le_refl _, .inl rfl⟩
      intro c hc _
      simp [update_of_ne hc]
  · rw [if_neg hs]
    rcases realloc_cases hb size with hfail | ⟨junk, hok⟩
    · exact .inl hfail
    · refine .inr ⟨_, h.next, junk, hok, by simp, ?_, Nat.le_succ _, .inr ⟨Nat.le_refl _, Nat.lt_succ_self _⟩⟩
      intro c hc hlt
      have hne : c ≠ h.next := by omega
      simp [update_of_ne hne, update_of_ne hc]

theorem free_eq {h : Heap} {block : Nat} {b : Block} (hb : h.blocks block = some b) :
    h.free block = some { h with blocks := update h.blocks block none } := by
  simp [free, hb]

/-! ## Writing a live block -/

/-- The heap after the bytes of a block were written. -/
def written (h : Heap) (block : Nat) (b : Block) (bytes : Bytes) : Heap :=
  { h with blocks := update h.blocks block (some { b with bytes := bytes }) }

@[simp] theorem written_same (h : Heap) (block : Nat) (b : Block) (bytes : Bytes) :
    (h.written block b bytes).blocks block = some { b with bytes := bytes } := by
  simp [written]

theorem written_other (h : Heap) {block : Nat} (b : Block) (bytes : Bytes) {c : Nat} (hc : c ≠ block) :
    (h.written block b bytes).blocks c = h.blocks c := by
  simp [written, update_of_ne hc]

theorem written_self {h : Heap} {block : Nat} {b : Block} (hb : h.blocks block = some b) : h.written block b b.bytes = h := by
  unfold written
  rw [← hb, update_eq_self]

@[simp] theorem written_written (h : Heap) (block : Nat) (b : Block) (bytes bytes' : Bytes) :
    (h.written block b bytes).written block { b with bytes := bytes } bytes' = h.written block b bytes' := by
  simp [written]

section

variable {h : Heap} {dst p : Ptr} {b c : Block} {n : Nat}

theorem memmove_written (hb : h.blocks dst.block = some b) (hc : h.blocks p.block = some c) (hd : dst.off + n ≤ b.size)
    (hp : p.off + n ≤ c.size) :
    h.memmove dst p n = some (h.written dst.block b (copyBytes b.bytes dst.off c.bytes p.off n)) :=
  memmove_eq hb hc hd hp

theorem memcpy_written (hb : h.blocks dst.block = some b) (hc : h.blocks p.block = some c) (hd : dst.off + n ≤ b.size)
    (hp : p.off + n ≤ c.size) (hno : overlap dst p n = false) :
    h.memcpy dst p n = some (h.written dst.block b (copyBytes b.bytes dst.off c.bytes p.off n)) :=
  memcpy_eq hb hc hd hp hno

theorem overlap_of_ne (n : Nat) (hne : dst.block ≠ p.block) : overlap dst p n = false := by
  simp [overlap, hne]

end

end Heap

/-!
# The blocks a computation owns

Which blocks a computation added to a heap, as a list. Every block of the list is live, no block outside it changed, and
a computation that owns nothing any more left the blocks as it found them.
-/

namespace Heap

def Sound (h : Heap) : Prop := ∀ c, h.next ≤ c → h.blocks c = none

/-- From `h₀` to `h` exactly the blocks `owned` were added. -/
structure Adds (h₀ h : Heap) (owned : List Nat) : Prop where
  start : h₀.Sound
  sound : h.Sound
  next_le : h₀.next ≤ h.next
  nodup : owned.Nodup
  fresh : ∀ c ∈ owned, h₀.next ≤ c ∧ c < h.next
  live : ∀ c ∈ owned, (h.blocks c).isSome
  frame : ∀ c, c ∉ owned → h.blocks c = h₀.blocks c

/-- Every request from `h` to `h'` was granted. -/
structure Granted (h h' : Heap) : Prop where
  fate : h'.fate = h.fate
  le : h.requests ≤ h'.requests
  all : ∀ i, h.requests ≤ i → i < h'.requests → (h.fate i).isSome

/-- A request from `h` to `h'` was refused. -/
def Refused (h h' : Heap) : Prop := ∃ i, h.requests ≤ i ∧ i < h'.requests ∧ h.fate i = none

section

variable {h₀ h h' h'' : Heap} {owned : List Nat} {b : Nat}

/-! ## Requests -/

theorem Granted.refl (h : Heap) : Granted h h := ⟨rfl, Nat.le_refl _, fun i hi hi' => by omega⟩

theorem Granted.trans (h₁ : Granted h h') (h₂ : Granted h' h'') : Granted h h'' where
  fate := h₂.fate.trans h₁.fate
  le := Nat.le_trans h₁.le h₂.le
  all i hi hi' := by
    rcases Nat.lt_or_ge i h'.requests with hlt | hge
    · exact h₁.all i hi hlt
    · rw [← h₁.fate]
      exact h₂.all i hge hi'

theorem Granted.of_eq (hfate : h'.fate = h.fate) (hrequests : h'.requests = h.requests) : Granted h h' :=
  ⟨hfate, Nat.le_of_eq hrequests.symm, fun i hi hi' => by omega⟩

theorem Granted.request {junk : Bytes} (hfate : h.fate h.requests = some junk) (blocks : Nat → Option Block) (next : Nat) :
    Granted h { h with blocks := blocks, next := next, requests := h.requests + 1 } := by
  refine ⟨rfl, Nat.le_succ _, fun i hi hi' => ?_⟩
  obtain rfl : i = h.requests := by simp only at hi'; omega
  rw [hfate]
  rfl

theorem Refused.request (hfate : h.fate h.requests = none) (hlt : h.requests < h'.requests) : Refused h h' :=
  ⟨h.requests, Nat.le_refl _, hlt, hfate⟩

theorem Refused.of_right (hfate : h'.fate = h.fate) (hle : h.requests ≤ h'.requests) (hr : Refused h' h'') : Refused h h'' := by
  obtain ⟨i, hi, hlt, hnone⟩ := hr
  exact ⟨i, Nat.le_trans hle hi, hlt, by rw [← hfate, hnone]⟩

theorem Granted.refused (hg : Granted h h') (hr : Refused h' h'') : Refused h h'' := hr.of_right hg.fate hg.le

theorem Refused.of_left (hr : Refused h h') (hle : h'.requests ≤ h''.requests) : Refused h h'' := by
  obtain ⟨i, hi, hlt, hnone⟩ := hr
  exact ⟨i, hi, Nat.lt_of_lt_of_le hlt hle, hnone⟩

/-! ## Blocks -/

theorem Adds.refl (hs : h.Sound) : Adds h h [] :=
  ⟨hs, hs, Nat.le_refl _, .nil, by simp, by simp, fun _ _ => rfl⟩

/-- A computation that gave everything back left the blocks as they were. -/
theorem Adds.blocks_eq (ha : Adds h₀ h []) : h.blocks = h₀.blocks :=
  funext fun c => ha.frame c not_mem_nil

theorem Adds.perm {owned' : List Nat} (ha : Adds h₀ h owned) (hp : owned.Perm owned') : Adds h₀ h owned' where
  start := ha.start
  sound := ha.sound
  next_le := ha.next_le
  nodup := hp.nodup_iff.mp ha.nodup
  fresh c hc := ha.fresh c (hp.mem_iff.mpr hc)
  live c hc := ha.live c (hp.mem_iff.mpr hc)
  frame c hc := ha.frame c fun hmem => hc (hp.mem_iff.mp hmem)

theorem Adds.old (ha : Adds h₀ h owned) {c : Nat} (hc : c < h₀.next) : h.blocks c = h₀.blocks c :=
  ha.frame c fun hmem => Nat.not_lt.mpr (ha.fresh c hmem).1 hc

theorem Adds.trans {owned' : List Nat} (ha : Adds h₀ h owned) (hb : Adds h h' owned') : Adds h₀ h' (owned' ++ owned) where
  start := ha.start
  sound := hb.sound
  next_le := Nat.le_trans ha.next_le hb.next_le
  nodup := nodup_append.mpr ⟨hb.nodup, ha.nodup, fun c hc d hd he => by
    have := (hb.fresh c hc).1
    have := (ha.fresh d hd).2
    omega⟩
  fresh c hc := by
    rcases mem_append.mp hc with hc | hc
    · exact ⟨Nat.le_trans ha.next_le (hb.fresh c hc).1, (hb.fresh c hc).2⟩
    · exact ⟨(ha.fresh c hc).1, Nat.lt_of_lt_of_le (ha.fresh c hc).2 hb.next_le⟩
  live c hc := by
    rcases mem_append.mp hc with hc | hc
    · exact hb.live c hc
    · rw [hb.old (ha.fresh c hc).2]
      exact ha.live c hc
  frame c hc := by
    rw [mem_append, not_or] at hc
    rw [hb.frame c hc.1, ha.frame c hc.2]

theorem Adds.congr (ha : Adds h₀ h owned) (hblocks : h'.blocks = h.blocks) (hnext : h'.next = h.next) : Adds h₀ h' owned where
  start := ha.start
  sound c hc := by rw [hblocks]; exact ha.sound c (by omega)
  next_le := by rw [hnext]; exact ha.next_le
  nodup := ha.nodup
  fresh := by rw [hnext]; exact ha.fresh
  live := by rw [hblocks]; exact ha.live
  frame := by rw [hblocks]; exact ha.frame

theorem Adds.malloc (ha : Adds h₀ h owned) (size : Nat) (junk : Bytes) (fate : Nat → Option Bytes) (requests : Nat) :
    Adds h₀ { blocks := update h.blocks h.next (some { size := size, bytes := junk }), next := h.next + 1,
              fate := fate, requests := requests } (h.next :: owned) where
  start := ha.start
  sound c hc := by
    simp only at hc ⊢
    rw [update_of_ne (by omega)]
    exact ha.sound c (by omega)
  next_le := Nat.le_succ_of_le ha.next_le
  nodup := nodup_cons.mpr ⟨fun hmem => Nat.lt_irrefl _ (ha.fresh _ hmem).2, ha.nodup⟩
  fresh c hc := by
    rcases mem_cons.mp hc with rfl | hc
    · exact ⟨ha.next_le, Nat.lt_succ_self _⟩
    · exact ⟨(ha.fresh c hc).1, Nat.lt_succ_of_lt (ha.fresh c hc).2⟩
  live c hc := by
    rcases mem_cons.mp hc with rfl | hc
    · simp
    · simp only
      rw [update_of_ne (Nat.ne_of_lt (ha.fresh c hc).2)]
      exact ha.live c hc
  frame c hc := by
    rw [mem_cons, not_or] at hc
    simp only
    rw [update_of_ne hc.1]
    exact ha.frame c hc.2

/-- A request either fails and changes nothing, or gives one more block to own. -/
theorem Adds.request (ha : Adds h₀ h owned) (size : Nat) :
    (∃ h', h.malloc size = (h', none) ∧ Adds h₀ h' owned ∧ Refused h h') ∨
    ∃ h' junk, h.malloc size = (h', some h.next) ∧ Adds h₀ h' (h.next :: owned) ∧ Granted h h' ∧ h'.next = h.next + 1 ∧
      h'.blocks h.next = some { size := size, bytes := junk } ∧ ∀ c, c ≠ h.next → h'.blocks c = h.blocks c := by
  rcases h.malloc_cases size with ⟨hfate, hfail⟩ | ⟨junk, hfate, hok⟩
  · exact .inl ⟨_, hfail, ha.congr rfl rfl, .request hfate (Nat.lt_succ_self _)⟩
  · exact .inr ⟨_, junk, hok, ha.malloc size junk h.fate (h.requests + 1), .request hfate _ _, rfl, update_self _ _ _,
      fun c hc => update_of_ne hc _ _⟩

theorem Adds.free (ha : Adds h₀ h (b :: owned)) : ∃ h', h.free b = some h' ∧ Adds h₀ h' owned ∧ Granted h h' := by
  obtain ⟨hb, hnodup⟩ := nodup_cons.mp ha.nodup
  obtain ⟨blk, hblk⟩ := Option.isSome_iff_exists.mp (ha.live b mem_cons_self)
  have hne : ∀ c ∈ owned, c ≠ b := fun c hc he => hb (he ▸ hc)
  refine ⟨_, free_eq hblk, ?_, .of_eq rfl rfl⟩
  exact {
    start := ha.start
    sound := by
      intro c hc
      by_cases hcb : c = b
      · subst hcb
        simp
      · exact (update_of_ne hcb _ _).trans (ha.sound c hc)
    next_le := ha.next_le
    nodup := hnodup
    fresh := fun c hc => ha.fresh c (mem_cons_of_mem _ hc)
    live := by
      intro c hc
      simp only
      rw [update_of_ne (hne c hc)]
      exact ha.live c (mem_cons_of_mem _ hc)
    frame := by
      intro c hc
      by_cases hcb : c = b
      · subst hcb
        simp only [update_self]
        exact (ha.start c (ha.fresh c mem_cons_self).1).symm
      · simp only
        rw [update_of_ne hcb]
        exact ha.frame c (by simp [hcb, hc]) }

theorem Adds.written (ha : Adds h₀ h owned) (hb : b ∈ owned) (blk : Block) (bytes : Bytes) :
    Adds h₀ (h.written b blk bytes) owned where
  start := ha.start
  sound c hc := by
    have hlt := (ha.fresh b hb).2
    rw [h.written_other blk bytes (show c ≠ b by simp only [Heap.written] at hc; omega)]
    exact ha.sound c hc
  next_le := ha.next_le
  nodup := ha.nodup
  fresh := ha.fresh
  live c hc := by
    by_cases hcb : c = b
    · subst hcb
      simp
    · rw [h.written_other blk bytes hcb]
      exact ha.live c hc
  frame c hc := by
    have hne : c ≠ b := fun he => hc (he ▸ hb)
    rw [h.written_other blk bytes hne]
    exact ha.frame c hc

/-- Resizing an owned block either fails and changes nothing, or gives a block to own in its place. -/
theorem Adds.resize (ha : Adds h₀ h (b :: owned)) (stays : Nat → Bool) (size : Nat) :
    (∃ h', h.resize stays b size = some (h', none) ∧ Adds h₀ h' (b :: owned) ∧ Refused h h') ∨
    ∃ h' d, h.resize stays b size = some (h', some d) ∧ Adds h₀ h' (d :: owned) ∧ Granted h h' ∧ h.next ≤ h'.next ∧
      ∀ c, c ≠ b → c < h.next → h'.blocks c = h.blocks c := by
  obtain ⟨blk, hblk⟩ := Option.isSome_iff_exists.mp (ha.live b mem_cons_self)
  obtain ⟨hb, hnodup⟩ := nodup_cons.mp ha.nodup
  unfold Heap.resize
  by_cases hs : stays h.requests
  · rw [if_pos hs, hblk]
    cases hf : h.fate h.requests with
    | none => exact .inl ⟨_, rfl, ha.congr rfl rfl, .request hf (Nat.lt_succ_self _)⟩
    | some junk =>
      refine .inr ⟨_, b, rfl, ?_, .request hf _ _, Nat.le_refl _, fun c hc _ => update_of_ne hc _ _⟩
      exact (ha.written mem_cons_self (resized blk size junk) (resized blk size junk).bytes).congr rfl rfl
  · rw [if_neg hs, Heap.realloc, hblk]
    cases hf : h.fate h.requests with
    | none => exact .inl ⟨_, rfl, ha.congr rfl rfl, .request hf (Nat.lt_succ_self _)⟩
    | some junk =>
      obtain ⟨h₁, hfree, ha₁, -⟩ := ha.free
      rw [free_eq hblk, Option.some.injEq] at hfree
      subst hfree
      have hadd := ha₁.malloc size (resized blk size junk).bytes h.fate (h.requests + 1)
      refine .inr ⟨_, h.next, rfl, hadd, .request hf _ _, Nat.le_succ _, fun c hc hlt => ?_⟩
      simp only
      rw [update_of_ne (Nat.ne_of_lt hlt), update_of_ne hc]

end

end Heap

end Ccollections.Lib
