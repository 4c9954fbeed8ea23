import Ccollections.Lib.Heap
import Ccollections.Lib.Occurrences

/-!
# Strings that end in a null byte

The functions of the C library on strings in a heap of blocks. They have no result when the string does not end
inside its block.
-/

namespace Ccollections.Lib
open List
namespace Heap

/-- The number of bytes before the first null byte among the `n` from `off` on. -/
def strlenFrom (bytes : Bytes) (off : Nat) : Nat → Option Nat
  | 0 => none
  | n + 1 => if bytes off = 0 then some 0 else (strlenFrom bytes (off + 1) n).map (· + 1)

def strlen (h : Heap) (p : Ptr) : Option Nat :=
  match h.blocks p.block with
  | none => none
  | some b => strlenFrom b.bytes p.off (b.size - p.off)

def stringAt (h : Heap) (p : Ptr) : Option (List UInt8) := do
  let n ← h.strlen p
  let bytes ← h.load p n
  some (window bytes 0 n)

/-- The first place of one string in another, or a null pointer. -/
def strstr (h : Heap) (hay needle : Ptr) : Option (Option Ptr) := do
  let text ← h.stringAt hay
  let pattern ← h.stringAt needle
  some ((firstOccurrence pattern text).map fun i => { block := hay.block, off := hay.off + i })

/-- The string `text` lies at `p`, with its null byte. -/
structure StringAt (h : Heap) (p : Ptr) (text : List UInt8) : Prop where
  lt_next : p.block < h.next
  noNul : 0 ∉ text
  data : ∃ b, h.blocks p.block = some b ∧ p.off + text.length < b.size ∧ Reads b.bytes p.off (text ++ [0])

section

variable {h h' : Heap} {p : Ptr} {text : List UInt8}

theorem strlenFrom_eq {bytes : Bytes} {off n : Nat} (hreads : Reads bytes off (text ++ [0])) (hnoNul : 0 ∉ text)
    (hn : text.length < n) : strlenFrom bytes off n = some text.length := by
  induction text generalizing off n with
  | nil =>
    obtain ⟨n, rfl⟩ : ∃ m, n = m + 1 := ⟨n - 1, by simp at hn; omega⟩
    have hzero := (reads_cons.mp hreads).1
    rw [strlenFrom, if_pos hzero]
    rfl
  | cons c text ih =>
    obtain ⟨n, rfl⟩ : ∃ m, n = m + 1 := ⟨n - 1, by omega⟩
    obtain ⟨hc, hrest⟩ := reads_cons.mp hreads
    rw [mem_cons, not_or] at hnoNul
    have hne : bytes off ≠ 0 := fun h => hnoNul.1 (h.symm.trans hc)
    rw [strlenFrom, if_neg hne, ih hrest hnoNul.2 (by simp at hn; omega)]
    rfl

theorem StringAt.strlen (hs : StringAt h p text) : h.strlen p = some text.length := by
  obtain ⟨b, hb, hsize, hreads⟩ := hs.data
  rw [Heap.strlen, hb]
  exact strlenFrom_eq hreads hs.noNul (by omega)

theorem StringAt.stringAt (hs : StringAt h p text) : h.stringAt p = some text := by
  obtain ⟨b, hb, hsize, hreads⟩ := hs.data
  have hload : window (fun a => b.bytes (p.off + a)) 0 text.length = text :=
    (window_congr fun a _ => by rw [Nat.zero_add]).trans (reads_append.mp hreads).1
  simp only [Heap.stringAt, hs.strlen, Option.bind_eq_bind, Option.bind_some, load_eq hb (show p.off + text.length ≤ b.size by omega),
    hload]

theorem StringAt.congr (hs : StringAt h p text) (hblock : h'.blocks p.block = h.blocks p.block) (hnext : h.next ≤ h'.next) :
    StringAt h' p text where
  lt_next := Nat.lt_of_lt_of_le hs.lt_next hnext
  noNul := hs.noNul
  data := by
    rw [hblock]
    exact hs.data

theorem StringAt.drop (hs : StringAt h p text) {i : Nat} (hi : i ≤ text.length) :
    StringAt h { block := p.block, off := p.off + i } (text.drop i) where
  lt_next := hs.lt_next
  noNul := fun hmem => hs.noNul (mem_of_mem_drop hmem)
  data := by
    obtain ⟨b, hb, hsize, hreads⟩ := hs.data
    have hlen : (text.take i).length = i := length_take_of_le hi
    refine ⟨b, hb, ?_, ?_⟩
    · simp only [length_drop]
      omega
    · rw [← take_append_drop i text, append_assoc] at hreads
      have hrest := (reads_append.mp hreads).2
      rwa [hlen] at hrest

theorem StringAt.reads_take (hs : StringAt h p text) {i : Nat} (hi : i ≤ text.length) :
    ∃ c, h.blocks p.block = some c ∧ p.off + (text.take i).length ≤ c.size ∧ Reads c.bytes p.off (text.take i) := by
  obtain ⟨c, hc, hcsize, hreads⟩ := hs.data
  rw [← take_append_drop i text, append_assoc] at hreads
  exact ⟨c, hc, by rw [length_take_of_le hi]; omega, (reads_append.mp hreads).1⟩

/-- The first byte of a string that is not empty is not the null byte. -/
theorem StringAt.load_first (hs : StringAt h p text) (hne : text ≠ []) : ∃ bytes, h.load p 1 = some bytes ∧ bytes 0 ≠ 0 := by
  obtain ⟨c, rest, rfl⟩ := exists_cons_of_ne_nil hne
  obtain ⟨b, hb, hsize, hreads⟩ := hs.data
  refine ⟨_, load_eq hb (by omega), fun hzero => hs.noNul ?_⟩
  have hc := (reads_cons.mp hreads).1
  rw [Nat.add_zero, hc] at hzero
  rw [hzero]
  exact mem_cons_self

theorem StringAt.strstr {q : Ptr} {pattern : List UInt8} (hs : StringAt h p text) (hq : StringAt h q pattern) :
    h.strstr p q = some ((firstOccurrence pattern text).map fun i => { block := p.block, off := p.off + i }) := by
  rw [Heap.strstr, hs.stringAt, hq.stringAt]
  rfl

end

end Heap

end Ccollections.Lib
