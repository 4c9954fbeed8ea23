import Ccollections.Cstring.Cstring

/-!
# The text a cstring holds
-/

namespace Ccollections.Cstring
open Lib List Option

structure Holds (h : Heap) (s : Cstr) (text : List UInt8) : Prop where
  noNul : 0 ∉ text
  length : s.length = text.length
  fits : text.length < s.capacity
  capacity_le : s.capacity ≤ ccolMaxElemCount
  lt_next : s.data < h.next
  data : ∃ b, h.blocks s.data = some b ∧ b.size = s.capacity ∧ Reads b.bytes 0 (text ++ [0])

/-- A source of an edit: a string outside the buffer, or the end of the content itself. -/
def Source (h : Heap) (s : Cstr) (text : List UInt8) (str : Ptr) (src : List UInt8) : Prop :=
  (str.block ≠ s.data ∧ h.StringAt str src ∧ src.length ≤ sizeMax) ∨ ∃ off, off ≤ text.length ∧ str = s.addr off ∧ src = text.drop off

section

variable {h h' : Heap} {s : Cstr} {text : List UInt8}

theorem Holds.stringAt (hs : Holds h s text) : h.StringAt (s.addr 0) text where
  lt_next := hs.lt_next
  noNul := hs.noNul
  data := by
    obtain ⟨b, hb, hsize, hreads⟩ := hs.data
    refine ⟨b, hb, ?_, hreads⟩
    simpa [Cstr.addr, hsize] using hs.fits

theorem Holds.strlen (hs : Holds h s text) : h.strlen (s.addr 0) = some s.length := by
  rw [hs.stringAt.strlen, hs.length]

theorem Holds.congr (hs : Holds h s text) (hblock : h'.blocks s.data = h.blocks s.data) (hnext : h.next ≤ h'.next) :
    Holds h' s text where
  noNul := hs.noNul
  length := hs.length
  fits := hs.fits
  capacity_le := hs.capacity_le
  lt_next := Nat.lt_of_lt_of_le hs.lt_next hnext
  data := by
    rw [hblock]
    exact hs.data

theorem Holds.length_lt (hs : Holds h s text) : text.length < ccolMaxElemCount := Nat.lt_of_lt_of_le hs.fits hs.capacity_le

theorem Source.length_le {str : Ptr} {src : List UInt8} (hs : Holds h s text) (hsrc : Source h s text str src) :
    src.length ≤ sizeMax := by
  rcases hsrc with ⟨-, -, hle⟩ | ⟨off, -, -, rfl⟩
  · exact hle
  · have hlt := hs.length_lt
    rw [ccolMaxElemCount_eq] at hlt
    rw [length_drop, sizeMax_eq]
    omega

theorem Source.stringAt {str : Ptr} {src : List UInt8} (hs : Holds h s text) (hsrc : Source h s text str src) :
    h.StringAt str src := by
  rcases hsrc with ⟨-, hstr, -⟩ | ⟨off, hoff, rfl, rfl⟩
  · exact hstr
  · have hdrop := hs.stringAt.drop hoff
    rwa [show (s.addr 0).off + off = off from Nat.zero_add off] at hdrop

theorem storeByte_written {b : Block} (off : Nat) (c : UInt8) (hb : h.blocks s.data = some b) (hoff : off < b.size) :
    storeByte h s off c = some (h.written s.data b (copyBytes b.bytes off (fun _ => c) 0 1)) :=
  Heap.store_eq _ hb hoff

/-! ## Lengths and capacities -/

theorem newLength_guard {a b : Nat} (ha : a ≤ sizeMax) (hb : b ≤ sizeMax) :
    (sizeAdd a b < a ∨ (!cstringLengthFitsWithTerminator (sizeAdd a b)) = true) ∧ sizeMax ≤ a + b ∨
      ¬(sizeAdd a b < a ∨ (!cstringLengthFitsWithTerminator (sizeAdd a b)) = true) ∧ a + b < sizeMax ∧
        sizeAdd a b = a + b ∧ sizeAdd (a + b) 1 = a + b + 1 := by
  have hwrap := sizeAdd_lt_iff ha hb
  rcases Nat.lt_or_ge (a + b) sizeMax with hlt | hge
  · right
    have heq : sizeAdd a b = a + b := sizeAdd_eq (Nat.le_of_lt hlt)
    refine ⟨?_, hlt, heq, sizeAdd_eq hlt⟩
    simp only [heq, cstringLengthFitsWithTerminator, ccolInvalidSize, Bool.not_eq_eq_eq_not, Bool.not_true,
      decide_eq_false_iff_not, ne_eq, not_not, not_or]
    omega
  · left
    refine ⟨?_, hge⟩
    rcases Nat.eq_or_lt_of_le hge with heq | hgt
    · right
      rw [sizeAdd_eq (Nat.le_of_eq heq.symm), ← heq]
      rfl
    · exact .inl (hwrap.mpr hgt)

theorem roundedCapacity_cases (needed : Nat) :
    (roundedCapacity needed = none ∧ ccolMaxElemCount < needed) ∨
      ∃ cap, roundedCapacity needed = some cap ∧ needed ≤ cap ∧ 0 < cap ∧ cap ≤ ccolMaxElemCount := by
  have hmax := ccolMaxElemCount_eq
  rcases Nat.lt_or_ge ccolMaxElemCount needed with hlt | hle
  · left
    unfold roundedCapacity
    rw [ccolFindNearestGtePowerOfTwo_invalid hlt, if_pos rfl]
    exact ⟨rfl, hlt⟩
  · right
    obtain ⟨k, hk, hpow, hneeded, -⟩ := ccolFindNearestGtePowerOfTwo_spec hle
    have hpowle : 2 ^ k ≤ 2 ^ 63 := Nat.pow_le_pow_right Nat.two_pos hk
    have hne : 2 ^ k ≠ ccolInvalidSize := by
      unfold ccolInvalidSize
      rw [sizeMax_eq]
      omega
    have hpos : 0 < 2 ^ k := Nat.two_pow_pos k
    simp only [roundedCapacity, hpow, if_neg hne, cstringMinimumCapacity]
    split
    · exact ⟨16, rfl, by omega, by omega, by omega⟩
    · exact ⟨2 ^ k, rfl, hneeded, hpos, by omega⟩

theorem cstringGrowTo_spec (stays : Nat → Bool) (hs : Holds h s text) (needed : Nat) :
    (∃ h', cstringGrowTo stays h s needed = some (h', s, false) ∧ h'.blocks = h.blocks ∧ s.capacity < needed ∧
      (ccolMaxElemCount < needed ∨ h.fate h.requests = none)) ∨
    ∃ h' s', cstringGrowTo stays h s needed = some (h', s', true) ∧ Holds h' s' text ∧ needed ≤ s'.capacity ∧
      (∀ c, c ≠ s.data → c < h.next → h'.blocks c = h.blocks c) ∧ h.next ≤ h'.next ∧
      (s'.data = s.data ∨ h.next ≤ s'.data) := by
  unfold cstringGrowTo
  by_cases hcap : needed ≤ s.capacity
  · rw [if_pos hcap]
    exact .inr ⟨h, s, rfl, hs, hcap, fun _ _ _ => rfl, Nat.le_refl _, .inl rfl⟩
  · rw [if_neg hcap]
    rcases roundedCapacity_cases needed with ⟨hround, hlarge⟩ | ⟨cap, hround, hneeded, -, hcapmax⟩
    · simp only [hround]
      exact .inl ⟨h, rfl, rfl, by omega, .inl hlarge⟩
    · simp only [hround]
      obtain ⟨b, hb, hsize, hreads⟩ := hs.data
      have hfits := hs.fits
      rcases Heap.resize_cases hb stays cap with ⟨hfate, hfail⟩ | ⟨h', d, junk, hok, hd, hframe, hnext, hmoved⟩
      · simp only [hfail]
        exact .inl ⟨_, rfl, rfl, by omega, .inr hfate⟩
      · simp only [hok]
        -- The bytes up to the terminator are in both sizes.
        have hkept : Reads (Heap.resized b cap junk).bytes 0 (text ++ [0]) := hreads.congr fun a ha => by
          rw [length_append, length_singleton] at ha
          simp only [Heap.resized]
          rw [if_pos (by omega)]
        have hlt := hs.lt_next
        refine .inr ⟨h', _, rfl, ?_, hneeded, hframe, hnext, hmoved.imp id And.left⟩
        exact {
          noNul := hs.noNul
          length := hs.length
          fits := by simp only; omega
          capacity_le := hcapmax
          lt_next := by simp only; omega
          data := ⟨_, hd, rfl, hkept⟩ }

/-! ## Growing with a source at hand -/

/-- After the growth the text and the source are what they were, and the offset is there exactly when the source is in
the buffer. -/
structure Grown (h : Heap) (s : Cstr) (text : List UInt8) (needed : Nat) (aliasOff : Option Nat) (str : Ptr)
    (src : List UInt8) : Prop where
  holds : Holds h s text
  capacity : needed ≤ s.capacity
  source : (aliasOff = none ∧ str.block ≠ s.data ∧ h.StringAt str src) ∨
    ∃ off, aliasOff = some off ∧ off ≤ text.length ∧ str = s.addr off ∧ src = text.drop off

theorem growKeepingSource_spec (stays : Nat → Bool) (hs : Holds h s text) {str : Ptr} {src : List UInt8}
    (hsrc : Source h s text str src) (needed : Nat) :
    (∃ h' a p, growKeepingSource stays h s str needed = some (h', s, a, p, false) ∧ h'.blocks = h.blocks ∧
      s.capacity < needed ∧ (ccolMaxElemCount < needed ∨ h.fate h.requests = none)) ∨
    ∃ h' s' a p, growKeepingSource stays h s str needed = some (h', s', a, p, true) ∧ Grown h' s' text needed a p src := by
  unfold growKeepingSource
  rcases cstringGrowTo_spec stays hs needed with ⟨h', hgrow, hwhy⟩ | ⟨h', s', hgrow, hs', hcap, hframe, hnext, hmoved⟩
  · simp only [hgrow]
    exact .inl ⟨h', _, _, rfl, hwhy⟩
  · simp only [hgrow]
    refine .inr ⟨h', s', _, _, rfl, hs', hcap, ?_⟩
    rcases hsrc with ⟨hblock, hstr, -⟩ | ⟨off, hoff, rfl, rfl⟩
    · have hnone : s.aliasOff str = none := if_neg fun hboth => hblock hboth.1
      have hlt := hstr.lt_next
      simp only [hnone]
      refine .inl ⟨trivial, ?_, hstr.congr (hframe _ hblock hlt) hnext⟩
      rcases hmoved with heq | hge
      · rw [heq]
        exact hblock
      · omega
    · have hfits := hs.fits
      have hsome : s.aliasOff (s.addr off) = some off := if_pos ⟨rfl, by simp only [Cstr.addr]; omega⟩
      simp only [hsome]
      exact .inr ⟨off, rfl, hoff, rfl, rfl⟩

end

/-!
# What the edits write

The tail goes right by the length of the source first. A source past the insertion point goes with it, and one at or
before it stays, since its bytes end before the place the tail is moved to.
-/

variable {h : Heap} {s : Cstr} {text src : List UInt8} {a : Option Nat}

theorem holds_written {b : Block} {bytes : Bytes} {text' : List UInt8} (hs : Holds h s text) (hsize : b.size = s.capacity)
    (hfits : text'.length < s.capacity) (hnoNul : 0 ∉ text') (hreads : Reads bytes 0 (text' ++ [0])) :
    Holds (h.written s.data b bytes) { s with length := text'.length } text' where
  noNul := hnoNul
  length := rfl
  fits := hfits
  capacity_le := hs.capacity_le
  lt_next := hs.lt_next
  data := ⟨_, Heap.written_same h s.data b bytes, hsize, hreads⟩

theorem Grown.noNul {needed : Nat} {str : Ptr} (hg : Grown h s text needed a str src) : 0 ∉ src := by
  rcases hg.source with ⟨-, -, hstr⟩ | ⟨off, -, -, -, rfl⟩
  · exact hstr.noNul
  · exact fun hmem => hg.holds.noNul (mem_of_mem_drop hmem)

theorem Grown.readable {needed : Nat} {str : Ptr} (hg : Grown h s text needed a str src) :
    ∃ c, h.blocks str.block = some c ∧ str.off + src.length < c.size ∧ Reads c.bytes str.off (src ++ [0]) := by
  rcases hg.source with ⟨-, -, hstr⟩ | ⟨off, -, hoff, rfl, rfl⟩
  · exact hstr.data
  · exact (Source.stringAt hg.holds (.inr ⟨off, hoff, rfl, rfl⟩)).data

/-! ## Insertion -/

theorem insert_moves {pos : Nat} {str : Ptr}
    (hg : Grown h s text (text.length + src.length + 1) a str src) (hpos : pos ≤ text.length) :
    ∃ h₁ h₂, h.memmove (s.addr (pos + src.length)) (s.addr pos) (text.length - pos + 1) = some h₁ ∧
      h₁.memmove (s.addr pos) (shiftedSource s a pos src.length str) src.length = some h₂ ∧
      Holds h₂ { s with length := text.length + src.length } (text.take pos ++ src ++ text.drop pos) := by
  obtain ⟨b, hb, hsize, hreads⟩ := hg.holds.data
  have hcap := hg.capacity
  have htail : (text.drop pos ++ [0]).length = text.length - pos + 1 := by
    rw [length_append, length_drop, length_singleton]
  have htake : (text.take pos).length = pos := length_take_of_le hpos
  have hnew : (text.take pos ++ src ++ text.drop pos).length = text.length + src.length := by
    simp only [length_append, htake, length_drop]
    omega
  -- The first move, of the tail with its null byte.
  have hfirst : h.memmove (s.addr (pos + src.length)) (s.addr pos) (text.length - pos + 1) =
      some (h.written s.data b (copyBytes b.bytes (pos + src.length) b.bytes pos (text.length - pos + 1))) :=
    Heap.memmove_written hb hb (show pos + src.length + (text.length - pos + 1) ≤ b.size by omega)
      (show pos + (text.length - pos + 1) ≤ b.size by omega)
  obtain ⟨bytes₁, hbytes₁⟩ : ∃ bytes₁, bytes₁ = copyBytes b.bytes (pos + src.length) b.bytes pos (text.length - pos + 1) :=
    ⟨_, rfl⟩
  have hsplit : Reads b.bytes 0 (text.take pos ++ (text.drop pos ++ [0])) := by
    rwa [← append_assoc, take_append_drop]
  obtain ⟨hhead, hrest⟩ := reads_append.mp hsplit
  rw [htake, Nat.zero_add] at hrest
  have htail₁ : Reads bytes₁ (pos + src.length) (text.drop pos ++ [0]) := by
    rw [hbytes₁, ← htail]
    exact reads_copyBytes hrest
  have hkept₁ : ∀ {e : Nat} {xs : List UInt8}, Reads b.bytes e xs → e + xs.length ≤ pos + src.length → Reads bytes₁ e xs := by
    intro e xs hr hle
    rw [hbytes₁]
    exact hr.copyBytes_apart (.inl hle)
  -- The second move reads the source where it is now.
  have hsource : ∃ c p, shiftedSource s a pos src.length str = p ∧
      (h.written s.data b bytes₁).blocks p.block = some c ∧ p.off + src.length ≤ c.size ∧ Reads c.bytes p.off src := by
    rcases hg.source with ⟨rfl, hblock, hstr⟩ | ⟨off, rfl, hoff, rfl, rfl⟩
    · obtain ⟨c, hc, hcsize, hcreads⟩ := hstr.data
      exact ⟨c, str, rfl, by rw [Heap.written_other h b bytes₁ hblock, hc], by omega, (reads_append.mp hcreads).1⟩
    · rw [length_drop] at *
      by_cases hpast : off > pos
      · refine ⟨_, _, if_pos hpast, Heap.written_same h s.data b bytes₁, ?_, ?_⟩
        · simp only [Cstr.addr]
          omega
        · have hmoved := reads_drop (i := off - pos) htail₁ (by omega)
          rw [drop_append_of_le_length (by rw [length_drop]; omega), drop_drop,
            show pos + (off - pos) = off by omega, show pos + (text.length - off) + (off - pos) = off + (text.length - off) by omega] at hmoved
          exact (reads_append.mp hmoved).1
      · refine ⟨_, _, if_neg hpast, Heap.written_same h s.data b bytes₁, ?_, ?_⟩
        · simp only [Cstr.addr]
          omega
        · have hold := reads_drop (reads_append.mp hreads).1 hoff
          rw [Nat.zero_add] at hold
          exact hkept₁ (e := off) hold (by rw [length_drop]; omega)
  obtain ⟨c, p, hp, hc, hcsize, hcreads⟩ := hsource
  have hsecond : (h.written s.data b bytes₁).memmove (s.addr pos) p src.length =
      some (h.written s.data b (copyBytes bytes₁ pos c.bytes p.off src.length)) := by
    rw [Heap.memmove_written (Heap.written_same h s.data b bytes₁) hc (show pos + src.length ≤ b.size by omega) hcsize]
    exact congrArg some (Heap.written_written h s.data b bytes₁ _)
  obtain ⟨bytes₂, hbytes₂⟩ : ∃ bytes₂, bytes₂ = copyBytes bytes₁ pos c.bytes p.off src.length := ⟨_, rfl⟩
  have hreads₂ : Reads bytes₂ 0 (text.take pos ++ src ++ text.drop pos ++ [0]) := by
    rw [append_assoc, append_assoc, hbytes₂]
    refine reads_append.mpr ⟨(hkept₁ hhead (by omega)).copyBytes_apart (.inl (by omega)), ?_⟩
    rw [htake, Nat.zero_add]
    exact reads_append.mpr ⟨reads_copyBytes hcreads, htail₁.copyBytes_apart (.inr (Nat.le_refl _))⟩
  have hnoNul : 0 ∉ text.take pos ++ src ++ text.drop pos := by
    simp only [mem_append, not_or]
    exact ⟨⟨fun hmem => hg.holds.noNul (mem_of_mem_take hmem), hg.noNul⟩,
      fun hmem => hg.holds.noNul (mem_of_mem_drop hmem)⟩
  refine ⟨h.written s.data b bytes₁, h.written s.data b bytes₂, ?_, ?_, ?_⟩
  · rw [hfirst, hbytes₁]
  · rw [hp, hsecond, hbytes₂]
  · have hholds := holds_written hg.holds hsize (by rw [hnew]; omega) hnoNul hreads₂
    rwa [hnew] at hholds

/-! ## Appending and setting -/

theorem append_writes {str : Ptr} (hg : Grown h s text (text.length + src.length + 1) a str src)
    (hne : 0 < src.length) :
    ∃ h₁ h₂, h.memcpy (s.addr s.length) str src.length = some h₁ ∧
      storeByte h₁ { s with length := text.length + src.length } (text.length + src.length) 0 = some h₂ ∧
      Holds h₂ { s with length := text.length + src.length } (text ++ src) := by
  obtain ⟨b, hb, hsize, hreads⟩ := hg.holds.data
  obtain ⟨c, hc, hcsize, hcreads⟩ := hg.readable
  have hcap := hg.capacity
  -- An alias ends where the copy starts.
  have hno : Heap.overlap (s.addr s.length) str src.length = false := by
    rcases hg.source with ⟨-, hblock, -⟩ | ⟨off, -, hoff, rfl, rfl⟩
    · simp [Heap.overlap, Cstr.addr, Ne.symm hblock]
    · have hlen := hg.holds.length
      simp only [Heap.overlap, Cstr.addr, length_drop, decide_eq_false_iff_not, not_and, true_and]
      omega
  rw [hg.holds.length] at hno ⊢
  have hcopy : h.memcpy (s.addr text.length) str src.length =
      some (h.written s.data b (copyBytes b.bytes text.length c.bytes str.off src.length)) :=
    Heap.memcpy_written hb hc (show text.length + src.length ≤ b.size by omega) (Nat.le_of_lt hcsize) hno
  obtain ⟨bytes₁, hbytes₁⟩ : ∃ bytes₁, bytes₁ = copyBytes b.bytes text.length c.bytes str.off src.length := ⟨_, rfl⟩
  rw [← hbytes₁] at hcopy
  have hreads₁ : Reads bytes₁ 0 (text ++ src) := by
    rw [hbytes₁]
    refine reads_append.mpr ⟨(reads_append.mp hreads).1.copyBytes_apart (.inl (by omega)), ?_⟩
    rw [Nat.zero_add]
    exact reads_copyBytes (reads_append.mp hcreads).1
  have hstore := storeByte_written (text.length + src.length) 0 (Heap.written_same h s.data b bytes₁)
    (show text.length + src.length < b.size by omega)
  rw [Heap.written_written] at hstore
  refine ⟨_, _, hcopy, hstore, ?_⟩
  have hlen : (text ++ src).length = text.length + src.length := length_append
  have hreads₂ : Reads (copyBytes bytes₁ (text.length + src.length) (fun _ => 0) 0 1) 0 (text ++ src ++ [0]) := by
    refine reads_append.mpr ⟨hreads₁.copyBytes_apart (.inl (by omega)), ?_⟩
    rw [hlen, Nat.zero_add]
    exact reads_copyBytes (reads_cons.mpr ⟨rfl, reads_nil _ _⟩)
  have hholds := holds_written hg.holds hsize (by rw [hlen]; omega)
    (by simp only [mem_append, not_or]; exact ⟨hg.holds.noNul, hg.noNul⟩) hreads₂
  rwa [hlen] at hholds

theorem set_moves {str : Ptr} (hg : Grown h s text (src.length + 1) a str src) :
    ∃ h₁, h.memmove (s.addr 0) str (src.length + 1) = some h₁ ∧ Holds h₁ { s with length := src.length } src := by
  obtain ⟨b, hb, hsize, -⟩ := hg.holds.data
  obtain ⟨c, hc, hcsize, hcreads⟩ := hg.readable
  have hcap := hg.capacity
  refine ⟨_, Heap.memmove_written hb hc (show 0 + (src.length + 1) ≤ b.size by omega) hcsize, ?_⟩
  have hreads : Reads (copyBytes b.bytes 0 c.bytes str.off (src ++ [0]).length) 0 (src ++ [0]) := reads_copyBytes hcreads
  rw [length_append, length_singleton] at hreads
  exact holds_written hg.holds hsize (by omega) hg.noNul hreads

/-! ## The operations -/

/-- After a success the new text, and otherwise every block as it was. An edit only fails where the new text does not
fit in the buffer, and then only where it is too long for any buffer or a larger one is refused. -/
def Edits (h : Heap) (s : Cstr) (text' : List UInt8) (r : Option (Heap × Cstr × RetVal)) : Prop :=
  ∃ h' s' rv, r = some (h', s', rv) ∧ (rv = .success → Holds h' s' text' ∧ h'.strlen (s'.addr 0) = some s'.length) ∧
    (rv ≠ .success → s' = s ∧ h'.blocks = h.blocks ∧ s.capacity ≤ text'.length ∧
      (ccolMaxElemCount ≤ text'.length ∨ h.fate h.requests = none))

theorem Edits.done {text' : List UInt8} {s' : Cstr} {h' : Heap} (hs : Holds h' s' text') :
    Edits h s text' (some (h', s', .success)) :=
  ⟨h', s', .success, rfl, fun _ => ⟨hs, hs.strlen⟩, fun hne => absurd rfl hne⟩

theorem Edits.refused {text' : List UInt8} {h' : Heap} {rv : RetVal} (hrv : rv ≠ .success) (hblocks : h'.blocks = h.blocks)
    (hfull : s.capacity ≤ text'.length) (hwhy : ccolMaxElemCount ≤ text'.length ∨ h.fate h.requests = none) :
    Edits h s text' (some (h', s, rv)) :=
  ⟨h', s, rv, rfl, fun he => absurd he hrv, fun _ => ⟨rfl, hblocks, hfull, hwhy⟩⟩

section

variable {str : Ptr} (stays : Nat → Bool) (hs : Holds h s text) (hsrc : Source h s text str src)

include hs hsrc

theorem cstringInsert_spec {pos : Nat} (hpos : pos ≤ text.length) :
    Edits h s (text.take pos ++ src ++ text.drop pos) (cstringInsert stays h s pos (some str)) := by
  have hlen := hs.length
  have hlt := hs.length_lt
  have hcap := hs.capacity_le
  rw [ccolMaxElemCount_eq] at hlt hcap
  have hmax := sizeMax_eq
  have hnew : (text.take pos ++ src ++ text.drop pos).length = text.length + src.length := by
    rw [length_append, length_append, length_take_of_le hpos, length_drop]
    omega
  rw [cstringInsert, if_neg (by omega), (hsrc.stringAt hs).strlen, bind_eq_bind, bind_some]
  by_cases hzero : src.length = 0
  · rw [if_pos hzero]
    obtain rfl := eq_nil_of_length_eq_zero hzero
    rw [append_nil, take_append_drop]
    exact .done hs
  · rw [if_neg hzero, hlen]
    rcases newLength_guard (a := text.length) (by omega) (hsrc.length_le hs) with ⟨hguard, hfull⟩ | ⟨hguard, -, hsum, hsucc⟩
    · rw [if_pos hguard]
      exact .refused (by decide) rfl (by omega) (.inl (by rw [ccolMaxElemCount_eq]; omega))
    · rw [if_neg hguard, hsum, hsucc]
      rcases growKeepingSource_spec stays hs hsrc (text.length + src.length + 1) with
        ⟨h', a, p, hgrow, hblocks, hsmall, hwhy⟩ | ⟨h', s', a, p, hgrow, hg⟩
      · rw [hgrow]
        exact .refused (by decide) hblocks (by omega) (hwhy.imp_left fun hlarge => by omega)
      · obtain ⟨h₁, h₂, hfirst, hsecond, hholds⟩ := insert_moves hg hpos
        have hmove : sizeAdd (sizeSub s'.length pos) 1 = text.length - pos + 1 := by
          rw [hg.holds.length, sizeSub_eq hpos (by omega), sizeAdd_eq (by omega)]
        simp only [hgrow, bind_eq_bind, bind_some, Bool.not_true, Bool.false_eq_true, ↓reduceIte,
          hmove, hfirst, hsecond]
        exact .done hholds

theorem cstringPrepend_spec : Edits h s (src ++ text) (cstringPrepend stays h s (some str)) := by
  have hinsert := cstringInsert_spec stays hs hsrc (Nat.zero_le _)
  have hsame : cstringPrepend stays h s (some str) = cstringInsert stays h s 0 (some str) := by
    have hmove : ∀ n, sizeAdd (sizeSub n 0) 1 = sizeAdd n 1 := by
      intro n
      simp only [sizeAdd, sizeSub]
      omega
    simp only [cstringPrepend, cstringInsert, gt_iff_lt, Nat.not_lt_zero, ↓reduceIte, Nat.zero_add, hmove]
  rw [hsame]
  exact hinsert

theorem cstringAppend_spec : Edits h s (text ++ src) (cstringAppend stays h s (some str)) := by
  have hlen := hs.length
  have hlt := hs.length_lt
  have hcap := hs.capacity_le
  rw [ccolMaxElemCount_eq] at hlt hcap
  have hmax := sizeMax_eq
  have hnew : (text ++ src).length = text.length + src.length := length_append
  rw [cstringAppend, (hsrc.stringAt hs).strlen, bind_eq_bind, bind_some]
  by_cases hzero : src.length = 0
  · rw [if_pos hzero]
    obtain rfl := eq_nil_of_length_eq_zero hzero
    rw [append_nil]
    exact .done hs
  · rw [if_neg hzero, hlen]
    rcases newLength_guard (a := text.length) (by omega) (hsrc.length_le hs) with ⟨hguard, hfull⟩ | ⟨hguard, -, hsum, hsucc⟩
    · rw [if_pos hguard]
      exact .refused (by decide) rfl (by omega) (.inl (by rw [ccolMaxElemCount_eq]; omega))
    · rw [if_neg hguard, hsum, hsucc]
      rcases growKeepingSource_spec stays hs hsrc (text.length + src.length + 1) with
        ⟨h', a, p, hgrow, hblocks, hsmall, hwhy⟩ | ⟨h', s', a, p, hgrow, hg⟩
      · rw [hgrow]
        exact .refused (by decide) hblocks (by omega) (hwhy.imp_left fun hlarge => by omega)
      · obtain ⟨h₁, h₂, hfirst, hsecond, hholds⟩ := append_writes hg (Nat.pos_of_ne_zero hzero)
        simp only [hgrow, bind_eq_bind, bind_some, Bool.not_true, Bool.false_eq_true, ↓reduceIte,
          hfirst, hsecond]
        exact .done hholds

theorem cstringSet_spec : Edits h s src (cstringSet stays h s (some str)) := by
  have hcap := hs.capacity_le
  rw [ccolMaxElemCount_eq] at hcap
  have hmax := sizeMax_eq
  have hle := hsrc.length_le hs
  rw [cstringSet, (hsrc.stringAt hs).strlen, bind_eq_bind, bind_some]
  by_cases hfits : src.length = sizeMax
  · rw [if_pos (by rw [hfits]; rfl)]
    exact .refused (by decide) rfl (by omega) (.inl (by rw [ccolMaxElemCount_eq]; omega))
  · have hsucc : sizeAdd src.length 1 = src.length + 1 := sizeAdd_eq (by omega)
    rw [if_neg (by simp [cstringLengthFitsWithTerminator, ccolInvalidSize, hfits]), hsucc]
    rcases growKeepingSource_spec stays hs hsrc (src.length + 1) with
      ⟨h', a, p, hgrow, hblocks, hsmall, hwhy⟩ | ⟨h', s', a, p, hgrow, hg⟩
    · rw [hgrow]
      exact .refused (by decide) hblocks (by omega) (hwhy.imp_left fun hlarge => by omega)
    · obtain ⟨h₁, hmove, hholds⟩ := set_moves hg
      simp only [hgrow, bind_eq_bind, bind_some, Bool.not_true, Bool.false_eq_true, ↓reduceIte,
          hmove]
      exact .done hholds

end

/-!
# The two scans of a replacement agree
-/

/-! ## The new length -/

/-- The new length is exact, and refused exactly when its terminator does not fit in a `size_t`. -/
theorem computeReplaceNewLength_eq {len nlen rlen count newLen : Nat} (hcount : 0 < count) (hfit : count * nlen ≤ len)
    (hlen : len ≤ sizeMax) (hrlen : rlen ≤ sizeMax) (hnew : newLen + count * nlen = len + count * rlen) :
    computeReplaceNewLength len nlen rlen count = if newLen < sizeMax then .ok newLen else .error .containerFull := by
  have hmax := sizeMax_eq
  have hnlen : nlen ≤ count * nlen := Nat.le_mul_of_pos_left nlen hcount
  unfold computeReplaceNewLength
  by_cases hgrows : rlen ≥ nlen
  · rw [if_pos hgrows, sizeSub_eq hgrows hrlen]
    have hdiff : count * rlen = count * nlen + (rlen - nlen) * count := by
      rw [Nat.mul_comm (rlen - nlen), Nat.mul_sub, Nat.add_sub_cancel' (Nat.mul_le_mul_left count hgrows)]
    by_cases hadded : (rlen - nlen) * count ≤ sizeMax
    · simp only [sizeMul_eq hadded, Nat.mul_div_cancel _ hcount]
      rw [if_neg (by simp)]
      rcases newLength_guard hlen hadded with ⟨hguard, hfull⟩ | ⟨hguard, hless, hsum, -⟩
      · have hlarge : ¬newLen < sizeMax := by omega
        rw [if_pos hguard, if_neg hlarge]
      · have hsum' : sizeAdd len ((rlen - nlen) * count) = newLen := by omega
        rw [if_neg hguard, hsum', if_pos]
        omega
    · -- The product wrapped, so its quotient is too small.
      have hwrapped : sizeMul (rlen - nlen) count / count < rlen - nlen := by
        rw [Nat.div_lt_iff_lt_mul hcount]
        unfold sizeMul
        have := Nat.mod_lt ((rlen - nlen) * count) (show 2 ^ 64 > 0 by decide)
        omega
      rw [if_pos (Nat.ne_of_lt hwrapped), if_neg (by omega)]
  · have hdiff : count * nlen = count * rlen + (nlen - rlen) * count := by
      rw [Nat.mul_comm (nlen - rlen), Nat.mul_sub, Nat.add_sub_cancel' (Nat.mul_le_mul_left count (by omega))]
    have hless : 0 < (nlen - rlen) * count := Nat.mul_pos (by omega) hcount
    rw [if_neg hgrows, sizeSub_eq (show rlen ≤ nlen by omega) (by omega), sizeMul_eq (show (nlen - rlen) * count ≤ sizeMax by omega),
      sizeSub_eq (show (nlen - rlen) * count ≤ len by omega) hlen,
      if_pos (show newLen < sizeMax by omega)]
    congr 1
    omega

/-! ## The counting scan -/

section

variable {h : Heap} {needle : Ptr} {nd : List UInt8}

theorem countLoop_eq (hneedle : h.StringAt needle nd) (hne : nd ≠ []) (fuel : Nat) {ptr : Ptr} {text : List UInt8}
    (hptr : h.StringAt ptr text) (count : Nat) (hfuel : text.length < fuel) (hcount : count + text.length ≤ sizeMax) :
    countLoop h needle nd.length fuel ptr count = some (count + countAll nd text) := by
  induction fuel generalizing ptr text count with
  | zero => omega
  | succ fuel ih =>
    rw [countLoop, hptr.strstr hneedle, bind_eq_bind, bind_some]
    cases hfirst : firstOccurrence nd text with
    | none => rw [countAll_none hfirst]; rfl
    | some i =>
      have hle := (firstOccurrence_some hfirst).1.length_le
      have hpos := length_pos_iff.mpr hne
      have hrest := hptr.drop hle
      rw [← Nat.add_assoc] at hrest
      simp only [map_some]
      rw [sizeAdd_eq (by omega), ih hrest (count + 1) (by rw [length_drop]; omega) (by rw [length_drop]; omega),
        countAll_first hne hfirst, Nat.add_right_comm, Nat.add_assoc]

end

/-! ## The building scan -/

/-- What the building scan needs: the strings it reads lie outside the new buffer, which holds what was written. -/
structure Building (h : Heap) (buf cap : Nat) (needle replacement src : Ptr) (nd repl text written : List UInt8) : Prop where
  needleAt : h.StringAt needle nd
  replacementAt : h.StringAt replacement repl
  srcAt : h.StringAt src text
  needle_ne : needle.block ≠ buf
  replacement_ne : replacement.block ≠ buf
  src_ne : src.block ≠ buf
  data : ∃ b, h.blocks buf = some b ∧ b.size = cap ∧ Reads b.bytes 0 written

section

variable {h : Heap} {buf cap : Nat} {needle replacement src : Ptr} {nd repl text out : List UInt8}

theorem Building.copy (hb : Building h buf cap needle replacement src nd repl text out) {p : Ptr} {c : Block} {xs : List UInt8}
    (hp : p.block ≠ buf) (hc : h.blocks p.block = some c) (hcsize : p.off + xs.length ≤ c.size)
    (hreads : Reads c.bytes p.off xs) (hfits : out.length + xs.length ≤ cap) :
    ∃ h', h.memcpy { block := buf, off := out.length } p xs.length = some h' ∧
      Building h' buf cap needle replacement src nd repl text (out ++ xs) ∧ h'.next = h.next ∧
      ∀ d, d ≠ buf → h'.blocks d = h.blocks d := by
  obtain ⟨b, hbuf, hsize, hout⟩ := hb.data
  have hframe : ∀ bytes d, d ≠ buf → (h.written buf b bytes).blocks d = h.blocks d := fun bytes d hd => h.written_other b bytes hd
  refine ⟨_, Heap.memcpy_written hbuf hc (show out.length + xs.length ≤ b.size by omega) hcsize (Heap.overlap_of_ne _ (Ne.symm hp)), ?_, rfl, hframe _⟩
  exact {
    needleAt := hb.needleAt.congr (hframe _ _ hb.needle_ne) (Nat.le_refl _)
    replacementAt := hb.replacementAt.congr (hframe _ _ hb.replacement_ne) (Nat.le_refl _)
    srcAt := hb.srcAt.congr (hframe _ _ hb.src_ne) (Nat.le_refl _)
    needle_ne := hb.needle_ne
    replacement_ne := hb.replacement_ne
    src_ne := hb.src_ne
    data := by
      refine ⟨_, h.written_same buf b _, hsize, reads_append.mpr ⟨hout.copyBytes_apart (.inl (Nat.le_of_eq (Nat.zero_add _))), ?_⟩⟩
      rw [Nat.zero_add]
      exact reads_copyBytes hreads }

theorem buildLoop_spec (hne : nd ≠ []) (fuel : Nat) (hb : Building h buf cap needle replacement src nd repl text out)
    (hfuel : text.length < fuel) (hfits : out.length + (replaceAll nd repl text).length < cap) :
    ∃ h' src' rest out', buildLoop needle replacement nd.length repl.length fuel h src { block := buf, off := out.length } =
        some (h', src', { block := buf, off := out'.length }) ∧
      Building h' buf cap needle replacement src' nd repl rest out' ∧ out' ++ rest = out ++ replaceAll nd repl text ∧
      h'.next = h.next ∧ (∀ d, d ≠ buf → h'.blocks d = h.blocks d) := by
  induction fuel generalizing h src text out with
  | zero => omega
  | succ fuel ih =>
    rw [buildLoop, hb.srcAt.strstr hb.needleAt, bind_eq_bind, bind_some]
    cases hfirst : firstOccurrence nd text with
    | none =>
      rw [replaceAll_none repl hfirst]
      exact ⟨h, src, text, out, rfl, hb, rfl, rfl, fun _ _ => rfl⟩
    | some i =>
      have hle := (firstOccurrence_some hfirst).1.length_le
      have hpos := length_pos_iff.mpr hne
      have hlen : (text.take i).length = i := length_take_of_le (by omega)
      have hall := replaceAll_first repl hne hfirst
      have htotal := congrArg List.length hall
      rw [length_append, length_append, hlen] at htotal
      -- What lies before the occurrence, and the replacement.
      obtain ⟨c, hc, hcsize, hcreads⟩ := hb.srcAt.reads_take (show i ≤ text.length by omega)
      obtain ⟨h₁, hcopy₁, hb₁, hnext₁, hframe₁⟩ := hb.copy hb.src_ne hc hcsize hcreads (by omega)
      obtain ⟨e, he, hesize, hereads⟩ := hb₁.replacementAt.reads_take (Nat.le_refl _)
      rw [take_length] at hesize hereads
      obtain ⟨h₂, hcopy₂, hb₂, hnext₂, hframe₂⟩ := hb₁.copy hb₁.replacement_ne he hesize hereads
        (by rw [length_append]; omega)
      -- The scan goes on after the occurrence.
      have hrest := hb₂.srcAt.drop hle
      rw [← Nat.add_assoc] at hrest
      have hb₃ : Building h₂ buf cap needle replacement { block := src.block, off := src.off + i + nd.length } nd repl
          (text.drop (i + nd.length)) (out ++ text.take i ++ repl) := { hb₂ with srcAt := hrest, src_ne := hb₂.src_ne }
      obtain ⟨h', src', rest, out', hloop, hb', hout, hnext, hframe⟩ := ih hb₃ (by rw [length_drop]; omega)
        (by simp only [length_append]; omega)
      refine ⟨h', src', rest, out', ?_, hb', ?_, by omega, fun d hd => ?_⟩
      · rw [hlen] at hcopy₁
        rw [length_append, hlen] at hcopy₂
        rw [length_append, length_append, hlen] at hloop
        simp only [map_some, Nat.add_sub_cancel_left, hcopy₁, bind_eq_bind, bind_some, hcopy₂, hloop]
      · rw [hout, hall]
        simp
      · rw [hframe d hd, hframe₂ d hd, hframe₁ d hd]

end

/-! ## The whole replacement -/

/-- After a success the new text, and otherwise every block as it was. A replacement only fails where the result is too
long or its buffer is refused. -/
def Replaces (h : Heap) (s : Cstr) (text' : List UInt8) (r : Option (Heap × Cstr × RetVal)) : Prop :=
  ∃ h' s' rv, r = some (h', s', rv) ∧ (rv = .success → Holds h' s' text' ∧ h'.strlen (s'.addr 0) = some s'.length) ∧
    (rv ≠ .success → s' = s ∧ h'.blocks = h.blocks ∧ (ccolMaxElemCount ≤ text'.length ∨ h.fate h.requests = none))

theorem Replaces.done {h h' : Heap} {s s' : Cstr} {text' : List UInt8} (hs : Holds h' s' text') :
    Replaces h s text' (some (h', s', .success)) :=
  ⟨h', s', .success, rfl, fun _ => ⟨hs, hs.strlen⟩, fun hne => absurd rfl hne⟩

theorem Replaces.refused {h h' : Heap} {s : Cstr} {text' : List UInt8} {rv : RetVal} (hrv : rv ≠ .success)
    (hblocks : h'.blocks = h.blocks) (hwhy : ccolMaxElemCount ≤ text'.length ∨ h.fate h.requests = none) :
    Replaces h s text' (some (h', s, rv)) :=
  ⟨h', s, rv, rfl, fun he => absurd he hrv, fun _ => ⟨rfl, hblocks, hwhy⟩⟩

theorem cstringReplace_spec {h : Heap} {s : Cstr} {text nd repl : List UInt8} {needle replacement : Ptr} (hs : Holds h s text)
    (hneedle : h.StringAt needle nd) (hrepl : h.StringAt replacement repl) (hne : nd ≠ []) (hmax : repl.length ≤ sizeMax) :
    Replaces h s (replaceAll nd repl text) (cstringReplace h s (some needle) (some replacement)) := by
  have hlen := hs.length
  have hlt := hs.length_lt
  rw [ccolMaxElemCount_eq] at hlt
  have hsizeMax := sizeMax_eq
  obtain ⟨first, hload, hfirst⟩ := hneedle.load_first hne
  have hcount := countLoop_eq hneedle hne (text.length + 1) hs.stringAt 0 (Nat.lt_succ_self _) (by omega)
  rw [Nat.zero_add] at hcount
  simp only [cstringReplace, bind_eq_bind, hload, bind_some, if_neg hfirst, hneedle.strlen, hrepl.strlen, hlen,
    hcount]
  by_cases hnone : countAll nd text = 0
  · -- No occurrence: the text is its own replacement.
    rw [if_pos hnone]
    cases hocc : firstOccurrence nd text with
    | none =>
      rw [replaceAll_none repl hocc]
      exact .done hs
    | some i =>
      rw [countAll_first hne hocc] at hnone
      cases hnone
  · rw [if_neg hnone]
    have htotal := replaceAll_length repl hne text
    rw [computeReplaceNewLength_eq (Nat.pos_of_ne_zero hnone) (countAll_mul_le hne text) (by omega) hmax htotal]
    by_cases hfits : (replaceAll nd repl text).length < sizeMax
    · rw [if_pos hfits]
      have hsucc : sizeAdd (replaceAll nd repl text).length 1 = (replaceAll nd repl text).length + 1 :=
        sizeAdd_eq (by omega)
      simp only [hsucc]
      rcases roundedCapacity_cases ((replaceAll nd repl text).length + 1) with
        ⟨hround, hlarge⟩ | ⟨cap, hround, hneeded, -, hcapmax⟩
      · simp only [hround]
        exact .refused (by decide) rfl (.inl (by omega))
      · simp only [hround]
        rcases h.malloc_cases cap with ⟨hfate, hfail⟩ | ⟨junk, -, hok⟩
        · simp only [hfail]
          exact .refused (by decide) rfl (.inr hfate)
        · -- The new buffer is none of the blocks the scan reads.
          simp only [hok]
          have hkept : ∀ d, d < h.next → Function.update h.blocks h.next (some { size := cap, bytes := junk }) d = h.blocks d :=
            fun d hd => Function.update_of_ne (Nat.ne_of_lt hd) _ _
          have hb : Building { h with
              blocks := Function.update h.blocks h.next (some { size := cap, bytes := junk })
              next := h.next + 1
              requests := h.requests + 1 } h.next cap needle replacement (s.addr 0) nd repl text [] :=
            { needleAt := hneedle.congr (hkept _ hneedle.lt_next) (Nat.le_succ _)
              replacementAt := hrepl.congr (hkept _ hrepl.lt_next) (Nat.le_succ _)
              srcAt := hs.stringAt.congr (hkept _ hs.lt_next) (Nat.le_succ _)
              needle_ne := Nat.ne_of_lt hneedle.lt_next
              replacement_ne := Nat.ne_of_lt hrepl.lt_next
              src_ne := Nat.ne_of_lt hs.lt_next
              data := ⟨_, Function.update_self _ _ _, rfl, reads_nil _ _⟩ }
          obtain ⟨h₁, src, rest, out, hloop, hb₁, hout, hnext, hframe⟩ :=
            buildLoop_spec hne (text.length + 1) hb (Nat.lt_succ_self _) (by simp; omega)
          rw [nil_append] at hout
          have htotal' := congrArg List.length hout
          rw [length_append] at htotal'
          -- The tail with its terminator.
          obtain ⟨b, hbuf, hbsize, hbreads⟩ := hb₁.srcAt.data
          obtain ⟨h₂, hcopy, hb₂, hnext₂, hframe₂⟩ := hb₁.copy hb₁.src_ne hbuf (by rw [length_append]; exact hbsize) hbreads
            (by rw [length_append, length_singleton]; omega)
          rw [length_append, length_singleton] at hcopy
          have hrest : sizeAdd rest.length 1 = rest.length + 1 := sizeAdd_eq (by omega)
          obtain ⟨old, hold, -⟩ := hs.data
          have hlive : h₂.blocks s.data = some old := by
            rw [hframe₂ _ (Nat.ne_of_lt hs.lt_next), hframe _ (Nat.ne_of_lt hs.lt_next)]
            exact (hkept _ hs.lt_next).trans hold
          simp only [length_nil] at hloop
          simp only [hloop, bind_some, hb₁.srcAt.strlen, hrest, hcopy, Heap.free_eq hlive]
          obtain ⟨nbuf, hnbuf, hnsize, hnreads⟩ := hb₂.data
          rw [← append_assoc, hout] at hnreads
          have hlt₂ : h.next < h₂.next := by
            rw [hnext₂, hnext]
            exact Nat.lt_succ_self _
          apply Replaces.done
          exact {
            noNul := fun hmem => (mem_replaceAll hne hmem).elim hrepl.noNul hs.noNul
            length := rfl
            fits := hneeded
            capacity_le := hcapmax
            lt_next := hlt₂
            data := ⟨nbuf, (Function.update_of_ne (Ne.symm (Nat.ne_of_lt hs.lt_next)) _ _).trans hnbuf, hnsize, hnreads⟩ }
    · rw [if_neg hfits]
      exact .refused (by decide) rfl (.inl (by rw [ccolMaxElemCount_eq]; omega))

end Ccollections.Cstring
