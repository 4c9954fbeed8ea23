import Mathlib.Data.List.Forall2
import Ccollections.Cstring.Lemmas.Edits
import Ccollections.Cstring.Cstring
import Ccollections.Lib.Heap

/-!
# A split owns its vector and its tokens

The blocks are listed in the order in which `destroy_cstr_vector` gives them back.
-/

namespace Ccollections.Cstring
open Lib Lib.Heap List Option

variable {v : CstrVector} {text : List UInt8} {tokens : List (List UInt8)}

def Cstr.owned (s : Cstr) : List Nat := [s.data, s.container]

def CstrVector.owned (v : CstrVector) : List Nat := v.parts.flatMap Cstr.owned ++ [v.data, v.container]

variable {h₀ h : Heap} {owned : List Nat}

/-! ## Destruction -/

theorem cstringDestroy_spec {s : Cstr} (ha : Adds h₀ h (s.owned ++ owned)) :
    ∃ h', cstringDestroy h s.container (some s.data) = some h' ∧ Adds h₀ h' owned ∧ Granted h h' := by
  obtain ⟨h₁, hfree₁, ha₁, hgranted₁⟩ := Adds.free ha
  obtain ⟨h₂, hfree₂, ha₂, hgranted₂⟩ := ha₁.free
  exact ⟨h₂, by simp [cstringDestroy, hfree₁, hfree₂], ha₂, hgranted₁.trans hgranted₂⟩

theorem destroyParts_spec (parts : List Cstr) (ha : Adds h₀ h (parts.flatMap Cstr.owned ++ owned)) :
    ∃ h', destroyParts h parts = some h' ∧ Adds h₀ h' owned ∧ Granted h h' := by
  induction parts generalizing h with
  | nil => exact ⟨h, rfl, ha, .refl h⟩
  | cons part parts ih =>
    rw [flatMap_cons, append_assoc] at ha
    obtain ⟨h₁, hdestroy, ha₁, hgranted₁⟩ := cstringDestroy_spec ha
    obtain ⟨h', hrest, ha', hgranted⟩ := ih ha₁
    exact ⟨h', by simp [destroyParts, hdestroy, hrest], ha', hgranted₁.trans hgranted⟩

theorem destroyCstrVector_spec (ha : Adds h₀ h v.owned) :
    ∃ h', destroyCstrVector h v = some h' ∧ Adds h₀ h' [] ∧ Granted h h' := by
  obtain ⟨h₁, hparts, ha₁, hgranted₁⟩ := destroyParts_spec v.parts ha
  obtain ⟨h₂, hdata, ha₂, hgranted₂⟩ := ha₁.free
  obtain ⟨h₃, hcontainer, ha₃, hgranted₃⟩ := ha₂.free
  exact ⟨h₃, by simp [destroyCstrVector, hparts, hdata, hcontainer], ha₃, (hgranted₁.trans hgranted₂).trans hgranted₃⟩

/-! ## Creation -/

structure SpanAt (h : Heap) (p : Ptr) (text : List UInt8) : Prop where
  lt_next : p.block < h.next
  noNul : 0 ∉ text
  short : text.length < ccolMaxElemCount
  data : ∃ b, h.blocks p.block = some b ∧ p.off + text.length ≤ b.size ∧ Reads b.bytes p.off text

theorem cstringCreateFromSpan_spec (hs : h.Sound) {initial : Ptr} (hspan : SpanAt h initial text) :
    (∃ h' e, cstringCreateFromSpan h initial text.length = some (h', .error e) ∧ Adds h h' [] ∧ Refused h h') ∨
    ∃ h' s, cstringCreateFromSpan h initial text.length = some (h', .ok s) ∧ Adds h h' s.owned ∧ Holds h' s text ∧
      Granted h h' := by
  have hshort := hspan.short
  have hmax := sizeMax_eq
  rw [ccolMaxElemCount_eq] at hshort
  have hfits : cstringLengthFitsWithTerminator text.length = true := by
    have hne : text.length ≠ ccolInvalidSize := by
      unfold ccolInvalidSize
      omega
    simp [cstringLengthFitsWithTerminator, hne]
  have hsucc : sizeAdd text.length 1 = text.length + 1 := sizeAdd_eq (by omega)
  unfold cstringCreateFromSpan
  rcases (Adds.refl hs).request 1 with ⟨h₁, hfail, hadds⟩ | ⟨h₁, -, hok, ha₁, hgranted₁, hnext₁, -, hframe₁⟩
  · simp only [hfail]
    exact .inl ⟨_, _, rfl, hadds⟩
  · simp only [hok, hfits, Bool.not_true, Bool.false_eq_true, ↓reduceIte, hsucc]
    rcases roundedCapacity_cases (text.length + 1) with ⟨-, hlarge⟩ | ⟨cap, hround, hneeded, -, hcapmax⟩
    · rw [ccolMaxElemCount_eq] at hlarge
      omega
    · simp only [hround]
      rcases ha₁.request cap with ⟨h₂, hfail, ha₂, href⟩ | ⟨h₂, junk, hok₂, ha₂, hgranted₂, hnext₂, hblock₂, hframe₂⟩
      · -- The container goes back.
        obtain ⟨h₃, hfree, ha₃, hgranted₃⟩ := ha₂.free
        simp only [hfail, cstringDestroy, hfree, bind_eq_bind, bind_some]
        exact .inl ⟨_, _, rfl, ha₃, hgranted₁.refused (href.of_left hgranted₃.le)⟩
      · simp only [hok₂]
        obtain ⟨b, hb, hbsize, hreads⟩ := hspan.data
        have hlt := hspan.lt_next
        have hb₂ : h₂.blocks initial.block = some b := by
          rw [hframe₂ _ (by omega), hframe₁ _ (by omega), hb]
        -- The copy of the text, which a text of no bytes does without.
        have hcopy : (if text.length > 0 then h₂.memcpy { block := h₁.next, off := 0 } initial text.length else some h₂) =
            some (h₂.written h₁.next { size := cap, bytes := junk } (copyBytes junk 0 b.bytes initial.off text.length)) := by
          by_cases hpos : text.length > 0
          · rw [if_pos hpos]
            exact Heap.memcpy_written hblock₂ hb₂ (show 0 + text.length ≤ cap by omega) hbsize
              (Heap.overlap_of_ne _ (show h₁.next ≠ initial.block by omega))
          · rw [if_neg hpos, show text.length = 0 by omega, copyBytes_zero, Heap.written_self hblock₂]
        obtain ⟨bytes₃, hbytes₃⟩ : ∃ bytes₃, bytes₃ = copyBytes junk 0 b.bytes initial.off text.length := ⟨_, rfl⟩
        rw [← hbytes₃] at hcopy
        obtain ⟨s, hs⟩ : ∃ s : Cstr, s = { container := h.next, data := h₁.next, length := text.length, capacity := cap } :=
          ⟨_, rfl⟩
        have hstore : storeByte (h₂.written h₁.next { size := cap, bytes := junk } bytes₃) s text.length 0 = some
            (h₂.written h₁.next { size := cap, bytes := junk } (copyBytes bytes₃ text.length (fun _ => 0) 0 1)) := by
          rw [hs, storeByte_written text.length 0 (Heap.written_same h₂ h₁.next _ bytes₃) (show text.length < cap by omega)]
          exact congrArg some (Heap.written_written h₂ h₁.next { size := cap, bytes := junk } bytes₃ _)
        rw [← hs]
        have haddr : s.addr 0 = { block := h₁.next, off := 0 } := by rw [hs]; rfl
        simp only [haddr, bind_eq_bind, hcopy, bind_some, hstore]
        refine .inr ⟨_, s, rfl, ?_, ?_, ?_⟩
        · rw [hs]
          exact ha₂.written mem_cons_self _ _
        · have hreads₃ : Reads bytes₃ 0 text := by
            rw [hbytes₃]
            exact reads_copyBytes hreads
          have hreads₄ : Reads (copyBytes bytes₃ text.length (fun _ => 0) 0 1) 0 (text ++ [0]) := by
            refine reads_append.mpr ⟨hreads₃.copyBytes_apart (.inl (by omega)), ?_⟩
            rw [Nat.zero_add]
            exact reads_copyBytes (reads_cons.mpr ⟨rfl, reads_nil _ _⟩)
          rw [hs]
          exact {
            noNul := hspan.noNul
            length := rfl
            fits := hneeded
            capacity_le := hcapmax
            lt_next := (ha₂.fresh _ mem_cons_self).2
            data := ⟨_, Heap.written_same h₂ h₁.next _ _, rfl, hreads₄⟩ }
        · exact (hgranted₁.trans hgranted₂).trans (.of_eq rfl rfl)

/-! ## The vector -/

theorem CstrVector.createFull_spec (hs : h.Sound) :
    (∃ h' e, CstrVector.createFull h = some (h', .error e) ∧ Adds h h' [] ∧ Refused h h') ∨
    ∃ h' v, CstrVector.createFull h = some (h', .ok v) ∧ Adds h h' v.owned ∧ v.parts = [] ∧ Granted h h' := by
  unfold CstrVector.createFull
  rcases (Adds.refl hs).request 1 with ⟨h₁, hfail, hadds⟩ | ⟨h₁, -, hok, ha₁, hgranted₁, -⟩
  · simp only [hfail]
    exact .inl ⟨_, _, rfl, hadds⟩
  · simp only [hok]
    rcases ha₁.request (sizeMul Cvector.ccolCvectorMinimumCapacity sizeofCstr) with
      ⟨h₂, hfail, ha₂, href⟩ | ⟨h₂, -, hok₂, ha₂, hgranted₂, -⟩
    · obtain ⟨h₃, hfree, ha₃, hgranted₃⟩ := ha₂.free
      simp only [hfail, hfree, bind_eq_bind, bind_some]
      exact .inl ⟨_, _, rfl, ha₃, hgranted₁.refused (href.of_left hgranted₃.le)⟩
    · simp only [hok₂]
      exact .inr ⟨_, _, rfl, ha₂, rfl, hgranted₁.trans hgranted₂⟩

/-- A push keeps every token and makes the vector the owner of one more, or leaves everything where it was. It fails
where a request is refused or twice the tokens do not fit in memory. -/
theorem CstrVector.pushBack_spec (stays : Nat → Bool) {part : Cstr} (ha : Adds h₀ h (part.owned ++ v.owned)) :
    (∃ h' r, v.pushBack stays h part = some (h', v, r) ∧ r ≠ .success ∧ Adds h₀ h' (part.owned ++ v.owned) ∧
      (Refused h h' ∨ sizeMax / sizeofCstr < 2 * v.parts.length)) ∨
    ∃ h' v', v.pushBack stays h part = some (h', v', .success) ∧ v'.parts = v.parts ++ [part] ∧ Adds h₀ h' v'.owned ∧
      Granted h h' ∧ h.next ≤ h'.next ∧ ∀ c, c ≠ v.data → c < h.next → h'.blocks c = h.blocks c := by
  -- The new vector owns the token's blocks last among those of the tokens.
  have hperm : ∀ d : Nat, (part.owned ++ (v.parts.flatMap Cstr.owned ++ [d, v.container])).Perm
      ((v.parts ++ [part]).flatMap Cstr.owned ++ [d, v.container]) := by
    intro d
    rw [flatMap_append, flatMap_singleton, ← append_assoc]
    exact perm_append_comm.append_right _
  unfold CstrVector.pushBack
  by_cases hmax : v.parts.length = ccolMaxElemCount
  · rw [if_pos hmax]
    exact .inl ⟨h, _, rfl, by decide, ha, .inr (by rw [hmax]; decide)⟩
  · rw [if_neg hmax]
    by_cases hroom : v.parts.length < v.capacity
    · rw [if_pos hroom]
      exact .inr ⟨h, _, rfl, rfl, ha.perm (hperm v.data), .refl h, Nat.le_refl _, fun _ _ _ => rfl⟩
    · rw [if_neg hroom]
      unfold CstrVector.scaleUp
      by_cases hcap : v.capacity > ccolMaxElemCount / Cvector.ccolCvectorScalingFactor
      · rw [if_pos hcap]
        have hlarge : sizeMax / sizeofCstr < 2 * (ccolMaxElemCount / Cvector.ccolCvectorScalingFactor) := by decide
        exact .inl ⟨h, _, rfl, by decide, ha, .inr (by omega)⟩
      · rw [if_neg hcap]
        by_cases hbytes : sizeMul Cvector.ccolCvectorScalingFactor v.capacity > sizeMax / sizeofCstr
        · simp only [if_pos hbytes]
          have hle : sizeMul Cvector.ccolCvectorScalingFactor v.capacity ≤ 2 * v.capacity := Nat.mod_le _ _
          exact .inl ⟨h, _, rfl, by decide, ha, .inr (by omega)⟩
        · simp only [if_neg hbytes]
          -- The buffer of the vector is the block that is resized.
          have hfront : ∀ d : Nat, (part.owned ++ (v.parts.flatMap Cstr.owned ++ [d, v.container])).Perm
              (d :: (part.owned ++ v.parts.flatMap Cstr.owned ++ [v.container])) := by
            intro d
            rw [← append_assoc]
            exact perm_middle
          rcases (ha.perm (hfront v.data)).resize stays
            (sizeMul (sizeMul Cvector.ccolCvectorScalingFactor v.capacity) sizeofCstr) with
            ⟨h', hfail, ha', href⟩ | ⟨h', d, hok, ha', hgranted, hnext, hframe⟩
          · simp only [hfail]
            exact .inl ⟨h', _, rfl, by decide, ha'.perm (hfront v.data).symm, .inl href⟩
          · simp only [hok]
            exact .inr ⟨h', _, rfl, rfl, (ha'.perm (hfront d).symm).perm (hperm d), hgranted, hnext, hframe⟩

/-! ## The scan -/

/-- The vector and its tokens are all that was added to the heap, and the tokens hold texts. -/
structure Splitting (h₀ h : Heap) (v : CstrVector) (tokens : List (List UInt8)) : Prop where
  adds : Adds h₀ h v.owned
  parts : List.Forall₂ (Holds h) v.parts tokens
  granted : Granted h₀ h

theorem SpanAt.congr {h' : Heap} {p : Ptr} (hs : SpanAt h p text)
    (hblock : h'.blocks p.block = h.blocks p.block) (hnext : h.next ≤ h'.next) : SpanAt h' p text where
  lt_next := Nat.lt_of_lt_of_le hs.lt_next hnext
  noNul := hs.noNul
  short := hs.short
  data := by
    rw [hblock]
    exact hs.data

theorem Cstr.data_mem_owned {part : Cstr} (hpart : part ∈ v.parts) : part.data ∈ v.owned :=
  mem_append_left _ (mem_flatMap.mpr ⟨part, hpart, mem_cons_self⟩)

theorem Splitting.part_ne (hsp : Splitting h₀ h v tokens) {part : Cstr}
    (hpart : part ∈ v.parts) : part.data ≠ v.data :=
  (nodup_append.mp hsp.adds.nodup).2.2 _ (mem_flatMap.mpr ⟨part, hpart, mem_cons_self⟩) _ mem_cons_self

theorem Splitting.parts_congr {h' : Heap} (hsp : Splitting h₀ h v tokens)
    (hframe : ∀ part ∈ v.parts, h'.blocks part.data = h.blocks part.data) (hnext : h.next ≤ h'.next) :
    List.Forall₂ (Holds h') v.parts tokens := by
  obtain ⟨hlen, hzip⟩ := forall₂_iff_zip.mp hsp.parts
  refine forall₂_iff_zip.mpr ⟨hlen, fun hmem => ?_⟩
  exact (hzip hmem).congr (hframe _ (of_mem_zip hmem).1) hnext

theorem splitPart_spec (stays : Nat → Bool) (hsp : Splitting h₀ h v tokens)
    {current : Ptr} (hspan : SpanAt h₀ current text) (pushError : String) :
    (∃ h' e, splitPart stays h v current text.length pushError = some (h', .error e) ∧ Adds h₀ h' [] ∧
      (Refused h₀ h' ∨ sizeMax / sizeofCstr < 2 * tokens.length)) ∨
    ∃ h' v', splitPart stays h v current text.length pushError = some (h', .ok v') ∧ Splitting h₀ h' v' (tokens ++ [text]) := by
  have hspan' := hspan.congr (hsp.adds.old hspan.lt_next) hsp.adds.next_le
  unfold splitPart
  rcases cstringCreateFromSpan_spec hsp.adds.sound hspan' with ⟨h₁, e, hcreate, ha₁, href⟩ | ⟨h₁, part, hcreate, ha₁, hpart, hgranted₁⟩
  · obtain ⟨h₂, hdestroy, ha₂, hgranted₂⟩ := destroyCstrVector_spec (hsp.adds.trans ha₁)
    simp only [hcreate, bind_eq_bind, bind_some, hdestroy]
    exact .inl ⟨h₂, e, rfl, ha₂, .inl (hsp.granted.refused (href.of_left hgranted₂.le))⟩
  · have ha₁' := hsp.adds.trans ha₁
    rcases CstrVector.pushBack_spec stays ha₁' with
      ⟨h₂, r, hpush, hr, ha₂, hwhy⟩ | ⟨h₂, v', hpush, hparts, ha₂, hgranted₂, hnext₂, hframe₂⟩
    · -- The token just made goes first, then the vector with the others.
      obtain ⟨h₃, hdestroy, ha₃, hgranted₃⟩ := cstringDestroy_spec ha₂
      obtain ⟨h₄, hdestroy', ha₄, hgranted₄⟩ := destroyCstrVector_spec ha₃
      have hle := (hgranted₃.trans hgranted₄).le
      rw [hsp.parts.length_eq] at hwhy
      have hwhy' := hwhy.imp_left fun href => (hsp.granted.trans hgranted₁).refused (href.of_left hle)
      simp only [hcreate, bind_eq_bind, bind_some, hpush, hdestroy, hdestroy']
      cases r with
      | success => exact absurd rfl hr
      | _ => exact .inl ⟨h₄, _, rfl, ha₄, hwhy'⟩
    · simp only [hcreate, bind_eq_bind, bind_some, hpush]
      refine .inr ⟨h₂, v', rfl, ha₂, ?_, (hsp.granted.trans hgranted₁).trans hgranted₂⟩
      have hold : List.Forall₂ (Holds h₂) v.parts tokens := by
        refine hsp.parts_congr (fun p hp => ?_) (Nat.le_trans ha₁.next_le hnext₂)
        have hlt := (hsp.adds.fresh _ (Cstr.data_mem_owned hp)).2
        rw [hframe₂ _ (hsp.part_ne hp) (Nat.lt_of_lt_of_le hlt ha₁.next_le), ha₁.old hlt]
      have hne : part.data ≠ v.data := by
        have hge := (ha₁.fresh _ mem_cons_self).1
        have hlt := (hsp.adds.fresh v.data (mem_append_right _ mem_cons_self)).2
        omega
      have hnew : Holds h₂ part text := hpart.congr (hframe₂ _ hne hpart.lt_next) hnext₂
      rw [hparts]
      exact rel_append hold (.cons hnew .nil)

theorem splitLoop_spec (stays : Nat → Bool) {delimiter : Ptr} {d : List UInt8} (hd : h₀.StringAt delimiter d) (hne : d ≠ [])
    (fuel : Nat) {h : Heap} (hsp : Splitting h₀ h v tokens) {current : Ptr}
    (hcurrent : h₀.StringAt current text) (hshort : text.length < ccolMaxElemCount)
    (hfuel : text.length < fuel) :
    (∃ h' e, splitLoop stays delimiter d.length fuel h v current = some (h', .error e) ∧ Adds h₀ h' [] ∧
      (Refused h₀ h' ∨ sizeMax / sizeofCstr < 2 * (tokens.length + countAll d text))) ∨
    ∃ h' v' more last rest, splitLoop stays delimiter d.length fuel h v current = some (h', .ok (v', last)) ∧
      Splitting h₀ h' v' (tokens ++ more) ∧ h₀.StringAt last rest ∧ last.off + rest.length = current.off + text.length ∧
      rest.length ≤ text.length ∧ ¬d <:+: rest ∧ d.intercalate (more ++ [rest]) = text ∧ (∀ t ∈ more, ¬d <:+: t) ∧
      more.length = countAll d text := by
  induction fuel generalizing h v tokens current text with
  | zero => omega
  | succ fuel ih =>
    have hkept : ∀ {p : Ptr} {xs : List UInt8}, h₀.StringAt p xs → h.StringAt p xs :=
      fun hp => hp.congr (hsp.adds.old hp.lt_next) hsp.adds.next_le
    rw [splitLoop, (hkept hcurrent).strstr (hkept hd), bind_eq_bind, bind_some]
    cases hfirst : firstOccurrence d text with
    | none =>
      refine .inr ⟨h, v, [], current, text, rfl, by rwa [append_nil], hcurrent, rfl, Nat.le_refl _,
        not_infix_of_none hfirst, intercalate_singleton, by simp, ?_⟩
      rw [countAll_none hfirst, length_nil]
    | some i =>
      have hle := (firstOccurrence_some hfirst).1.length_le
      have hpos := length_pos_iff.mpr hne
      have hlen : (text.take i).length = i := length_take_of_le (by omega)
      -- The token before the occurrence.
      have hspan : SpanAt h₀ current (text.take i) := by
        obtain ⟨b, hb, hbsize, hreads⟩ := hcurrent.reads_take (show i ≤ text.length by omega)
        exact ⟨hcurrent.lt_next, fun hmem => hcurrent.noNul (mem_of_mem_take hmem), by omega, b, hb, hbsize, hreads⟩
      have hpart := splitPart_spec stays hsp hspan "failed to push split token into result vector"
      rw [hlen] at hpart
      simp only [map_some, Nat.add_sub_cancel_left]
      have hcounted := countAll_first hne hfirst
      rcases hpart with ⟨h', e, hpart, ha, hwhy⟩ | ⟨h', v', hpart, hsp'⟩
      · rw [hpart]
        exact .inl ⟨h', e, rfl, ha, hwhy.imp_right fun hlarge => by omega⟩
      · simp only [hpart]
        -- The scan goes on after the occurrence.
        have hrest := hcurrent.drop hle
        rw [← Nat.add_assoc] at hrest
        rcases ih hsp' hrest (by rw [length_drop]; omega) (by rw [length_drop]; omega) with
          ⟨h'', e, hfail, ha, hwhy⟩ | ⟨h'', v'', more, last, rest, hloop, hsp'', hlast, hoff, hrestle, hclean, hjoin, hmore, hcount⟩
        · rw [length_append, length_singleton] at hwhy
          exact .inl ⟨h'', e, hfail, ha, hwhy.imp_right fun hlarge => by omega⟩
        · rw [length_drop] at hoff hrestle
          refine .inr ⟨h'', v'', text.take i :: more, last, rest, hloop, ?_, hlast, by simp only at hoff; omega, by omega, hclean,
            ?_, ?_, ?_⟩
          · rwa [append_assoc] at hsp''
          · rw [cons_append, intercalate_cons_of_ne_nil (by simp), hjoin]
            exact (firstOccurrence_some hfirst).1.split.symm
          · intro t ht
            rcases mem_cons.mp ht with rfl | ht
            · exact not_infix_take_first hne hfirst
            · exact hmore t ht
          · rw [length_cons, hcount, hcounted]

/-! ## The whole split -/

/-- After a failure every block as it was; after a success the tokens of the text on top of what was there. A split only
fails where a request is refused or twice its tokens do not fit in memory. -/
def Splits (h : Heap) (text d : List UInt8) (r : Option (Heap × Except String CstrVector)) : Prop :=
  (∃ h' e, r = some (h', .error e) ∧ h'.blocks = h.blocks ∧
    (Refused h h' ∨ sizeMax / sizeofCstr < 2 * countAll d text)) ∨
  ∃ h' v tokens, r = some (h', .ok v) ∧ Granted h h' ∧ Adds h h' v.owned ∧ List.Forall₂ (Holds h') v.parts tokens ∧
    d.intercalate tokens = text ∧ (∀ t ∈ tokens, ¬d <:+: t) ∧ tokens.length = countAll d text + 1

theorem cstringSplit_spec (stays : Nat → Bool) {s : Cstr} {text d : List UInt8} {delimiter : Ptr} (hsound : h.Sound)
    (hs : Holds h s text) (hd : h.StringAt delimiter d) (hne : d ≠ []) :
    Splits h text d (cstringSplit stays h s (some delimiter)) := by
  have hlen := hs.length
  have hlt := hs.length_lt
  have hmax := sizeMax_eq
  obtain ⟨first, hload, hfirst⟩ := hd.load_first hne
  simp only [cstringSplit, bind_eq_bind, hload, bind_some, if_neg hfirst]
  rcases CstrVector.createFull_spec hsound with ⟨h₁, e, hcreate, ha₁, href⟩ | ⟨h₁, v, hcreate, ha₁, hparts, hgranted₁⟩
  · simp only [hcreate, bind_some]
    exact .inl ⟨h₁, e, rfl, ha₁.blocks_eq, .inl href⟩
  · have hsp : Splitting h h₁ v [] := ⟨ha₁, by rw [hparts]; exact .nil, hgranted₁⟩
    have hd₁ : h₁.StringAt delimiter d := hd.congr (ha₁.old hd.lt_next) ha₁.next_le
    simp only [hcreate, bind_some, hd₁.strlen]
    rcases splitLoop_spec stays hd hne (s.length + 1) hsp hs.stringAt hlt (by omega) with
      ⟨h₂, e, hloop, ha₂, hwhy⟩ | ⟨h₂, v₂, more, last, rest, hloop, hsp₂, hlast, hoff, hrestle, hclean, hjoin, hmore, hcount⟩
    · simp only [hloop, bind_some]
      rw [length_nil, Nat.zero_add] at hwhy
      exact .inl ⟨h₂, e, rfl, ha₂.blocks_eq, hwhy⟩
    · simp only [hloop, bind_some]
      -- The last token is what is left of the string.
      have hoff' : last.off + rest.length = s.length := by
        rw [hlen, hoff]
        exact Nat.zero_add _
      rw [ccolMaxElemCount_eq] at hlt
      have hsub : sizeSub s.length last.off = rest.length := by
        rw [sizeSub_eq (by omega) (by omega)]
        omega
      have hspan : SpanAt h last rest := by
        obtain ⟨b, hb, hbsize, hreads⟩ := hlast.reads_take (Nat.le_refl _)
        rw [take_length] at hbsize hreads
        exact ⟨hlast.lt_next, hlast.noNul, by rw [ccolMaxElemCount_eq]; omega, b, hb, hbsize, hreads⟩
      rw [hsub]
      rcases splitPart_spec stays hsp₂ hspan "failed to push last split token into result vector" with
        ⟨h₃, e, hpart, ha₃, hwhy⟩ | ⟨h₃, v₃, hpart, hsp₃⟩
      · rw [nil_append, hcount] at hwhy
        exact .inl ⟨h₃, e, hpart, ha₃.blocks_eq, hwhy⟩
      · rw [nil_append] at hsp₃
        refine .inr ⟨h₃, v₃, more ++ [rest], hpart, hsp₃.granted, hsp₃.adds, hsp₃.parts, hjoin, ?_, ?_⟩
        · intro t ht
          rcases mem_append.mp ht with ht | ht
          · exact hmore t ht
          · rw [mem_singleton.mp ht]
            exact hclean
        · rw [length_append, length_singleton, hcount]

end Ccollections.Cstring
