import Ccollections.Cyaml.LineStart
import Ccollections.Lib.Runs
import Mathlib.Data.List.GetD

/-!
# The line-start cache and the plain scan
-/

namespace Ccollections.Cyaml

open List Option

variable {src : List UInt8} {grows : Nat → Bool} {first p n m : Nat} {starts : List Nat} {ctx : LineCtx}

/-! ## The plain scan -/

theorem backwardScan_first (src : List UInt8) (first : Nat) : backwardScan src first first = first := by
  cases first with
  | zero => rfl
  | succ first => simp [backwardScan]

theorem backwardScan_succ (h : first ≤ p) :
    backwardScan src first (p + 1) = if isBreak src p then p + 1 else backwardScan src first p := by
  rw [backwardScan]
  cases isBreak src p <;> simp; omega

theorem backwardScan_le (src : List UInt8) (first p : Nat) : backwardScan src first p ≤ p := by
  induction p with
  | zero => exact Nat.le_refl 0
  | succ p ih =>
    rw [backwardScan]
    split
    · exact ih.trans (Nat.le_succ p)
    · exact Nat.le_refl _

/-- The scan stops behind an offset exactly if a break lies between the offset and where the scan starts. -/
theorem lt_backwardScan_iff {start : Nat} (hfirst : first ≤ start) (hp : start ≤ p) :
    start < backwardScan src first p ↔ ∃ i, start ≤ i ∧ i < p ∧ isBreak src i = true := by
  induction p, hp using Nat.le_induction with
  | base =>
    have := backwardScan_le src first start
    exact ⟨fun h => by omega, fun ⟨i, hi, hi', _⟩ => by omega⟩
  | succ p hp ih =>
    rw [backwardScan_succ (hfirst.trans hp)]
    cases hbreak : isBreak src p with
    | true => exact ⟨fun _ => ⟨p, hp, Nat.lt_succ_self p, hbreak⟩, fun _ => Nat.lt_succ_of_le hp⟩
    | false =>
      rw [if_neg Bool.false_ne_true, ih]
      constructor
      · rintro ⟨i, hi, hip, hb⟩
        exact ⟨i, hi, hip.trans (Nat.lt_succ_self p), hb⟩
      · rintro ⟨i, hi, hip, hb⟩
        have hne : i ≠ p := by
          rintro rfl
          rw [hbreak] at hb
          cases hb
        exact ⟨i, hi, by omega, hb⟩

/-! ## The starts the cache holds -/

/-- The starts of the first line and of the lines after the breaks among the `n` bytes from it on. -/
def lineStartsOf (src : List UInt8) (first : Nat) : Nat → List Nat
  | 0 => [first]
  | n + 1 => lineStartsOf src first n ++ if isBreak src (first + n) then [first + n + 1] else []

theorem getLast?_lineStartsOf (src : List UInt8) (first n : Nat) :
    (lineStartsOf src first n).getLast? = some (backwardScan src first (first + n)) := by
  induction n with
  | zero => simp [lineStartsOf, backwardScan_first]
  | succ n ih =>
    rw [lineStartsOf, ← Nat.add_assoc, backwardScan_succ (Nat.le_add_right first n)]
    cases isBreak src (first + n) <;> simp [ih]

theorem le_of_mem_lineStartsOf {s : Nat} (h : s ∈ lineStartsOf src first n) : s ≤ first + n := by
  induction n with
  | zero => simp_all [lineStartsOf]
  | succ n ih =>
    rw [lineStartsOf, mem_append] at h
    rcases h with h | h
    · exact (ih h).trans (by omega)
    · cases hbreak : isBreak src (first + n) <;> simp [hbreak] at h
      omega

theorem lineStartsOf_prefix (src : List UInt8) (first : Nat) (h : m ≤ n) :
    ∃ rest, lineStartsOf src first n = lineStartsOf src first m ++ rest ∧ ∀ s ∈ rest, first + m < s := by
  induction n, h using Nat.le_induction with
  | base => exact ⟨[], by simp, by simp⟩
  | succ n hn ih =>
    obtain ⟨rest, hrest, hlt⟩ := ih
    refine ⟨rest ++ if isBreak src (first + n) then [first + n + 1] else [], by rw [lineStartsOf, hrest, append_assoc], ?_⟩
    intro s hs
    rcases mem_append.mp hs with hs | hs
    · exact hlt s hs
    · cases hbreak : isBreak src (first + n) <;> simp [hbreak] at hs
      omega

theorem extendLoop_eq {left cap cap' : Nat}
    (h : extendLoop src grows left (first + n) (lineStartsOf src first n) cap = some (starts, cap')) :
    starts = lineStartsOf src first (n + left) := by
  induction left generalizing n cap with
  | zero =>
    cases h
    rfl
  | succ left ih =>
    have hnext : n + (left + 1) = n + 1 + left := by omega
    have hsucc := lineStartsOf.eq_2 src first n
    rw [extendLoop] at h
    rw [hnext]
    cases hbreak : isBreak src (first + n) with
    | false =>
      rw [hbreak, if_neg Bool.false_ne_true, append_nil] at hsucc
      rw [hbreak, if_neg Bool.false_ne_true, ← hsucc] at h
      exact ih h
    | true =>
      rw [hbreak, if_pos rfl] at hsucc
      rw [hbreak, if_pos rfl, ← hsucc] at h
      dsimp only at h
      split_ifs at h <;> exact ih h

/-! ## The search -/

theorem searchLoop_spec {pos lo hi : Nat} (hlt : lo < hi) (hlen : hi ≤ starts.length) (hlo : starts.getD lo 0 ≤ pos)
    (hhi : hi = starts.length ∨ pos < starts.getD hi 0) :
    searchLoop starts pos lo hi < starts.length ∧ starts.getD (searchLoop starts pos lo hi) 0 ≤ pos ∧
      (searchLoop starts pos lo hi + 1 = starts.length ∨ pos < starts.getD (searchLoop starts pos lo hi + 1) 0) := by
  fun_induction searchLoop starts pos lo hi with
  | case1 lo hi hmore mid hmid ih => exact ih (by omega) hlen hmid hhi
  | case2 lo hi hmore mid hmid ih => exact ih (by omega) (by omega) hlo (.inr (Nat.lt_of_not_le hmid))
  | case3 lo hi hdone =>
    obtain rfl : hi = lo + 1 := by omega
    exact ⟨by omega, hlo, hhi⟩

theorem search_lineStartsOf (h : m ≤ n) :
    (lineStartsOf src first n).getD (searchLoop (lineStartsOf src first n) (first + m) 0 (lineStartsOf src first n).length) 0 =
      backwardScan src first (first + m) := by
  obtain ⟨rest, hsplit, hrest⟩ := lineStartsOf_prefix src first h
  have hlast := getLast?_lineStartsOf src first m
  rw [List.getLast?_eq_getElem?] at hlast
  have hpos : 0 < (lineStartsOf src first m).length := by
    by_contra hzero
    rw [List.getElem?_eq_none (by omega)] at hlast
    cases hlast
  have hbefore : ∀ i < (lineStartsOf src first m).length, (lineStartsOf src first n).getD i 0 ≤ first + m := by
    intro i hi
    rw [hsplit, getD_append _ _ _ _ hi, getD_eq_getElem _ _ hi]
    exact le_of_mem_lineStartsOf (getElem_mem hi)
  obtain ⟨hr, hle, hnext⟩ := @searchLoop_spec (lineStartsOf src first n) (first + m) 0 _
    (by rw [hsplit, length_append]; omega) (Nat.le_refl _) (hbefore 0 hpos) (.inl rfl)
  generalize searchLoop (lineStartsOf src first n) (first + m) 0 (lineStartsOf src first n).length = r at hr hle hnext
  have hin : r < (lineStartsOf src first m).length := by
    by_contra hout
    have hmem : (lineStartsOf src first n).getD r 0 ∈ rest := by
      rw [getD_eq_getElem _ _ hr]
      simp only [hsplit, getElem_append_right (Nat.le_of_not_lt hout)]
      exact getElem_mem _
    have := hrest _ hmem
    omega
  have hend : r = (lineStartsOf src first m).length - 1 := by
    by_contra hne
    have := hbefore (r + 1) (by omega)
    have : (lineStartsOf src first n).length = (lineStartsOf src first m).length + rest.length := by
      rw [hsplit, length_append]
    omega
  rw [hsplit, getD_append _ _ _ _ hin, getD_eq_getElem?_getD, hend, hlast, getD_some]

/-! ## Runs -/

/-- A context whose memo and whose cache, while there is one, say what the scan says. -/
structure LineCtx.Valid (src : List UInt8) (ctx : LineCtx) : Prop where
  first_le : ctx.firstLineStart ≤ ctx.pos
  pos_le : ctx.pos ≤ src.length
  memo : ctx.memoPos ≤ src.length → ctx.memoLineStart = backwardScan src ctx.firstLineStart ctx.memoPos
  cache : ctx.lineCacheDisabled = false →
    ∃ n, ctx.lineScanPos = ctx.firstLineStart + n ∧ ctx.lineStarts = lineStartsOf src ctx.firstLineStart n

theorem start_valid (t : Text) (h : first ≤ t.src.length) : (LineCtx.start first).Valid t.src where
  first_le := Nat.le_refl first
  pos_le := h
  memo := fun hmemo => absurd t.length_lt (Nat.not_lt_of_le hmemo)
  cache := fun _ => ⟨0, rfl, rfl⟩

/-- What a query does: it answers as the scan does, stays where it is and leaves a valid context. -/
def Answers (src : List UInt8) (ctx : LineCtx) (answer : Nat × LineCtx) : Prop :=
  answer.1 = backwardScan src ctx.firstLineStart ctx.pos ∧ answer.2.Valid src ∧ answer.2.pos = ctx.pos ∧
    answer.2.firstLineStart = ctx.firstLineStart

theorem lineStartPosUncached_answers (grows : Nat → Bool) (h : ctx.Valid src) : Answers src ctx (lineStartPosUncached src grows ctx) := by
  rw [lineStartPosUncached]
  split_ifs with hoff hahead
  · exact ⟨rfl, h, rfl, rfl⟩
  · obtain ⟨n, hscan, hstarts⟩ := h.cache (Bool.eq_false_of_not_eq_true hoff)
    rw [lineStartsExtend]
    cases hext : extendLoop src grows (ctx.pos - ctx.lineScanPos) ctx.lineScanPos ctx.lineStarts ctx.lineStartsCap with
    | none => exact ⟨rfl, ⟨h.first_le, h.pos_le, h.memo, nofun⟩, rfl, rfl⟩
    | some r =>
      obtain ⟨starts, cap⟩ := r
      rw [hscan, hstarts] at hext
      have heq := extendLoop_eq hext
      have hpos : ctx.pos = ctx.firstLineStart + (n + (ctx.pos - (ctx.firstLineStart + n))) := by omega
      have hlast := getLast?_lineStartsOf src ctx.firstLineStart (n + (ctx.pos - (ctx.firstLineStart + n)))
      rw [List.getLast?_eq_getElem?, ← heq, ← hpos] at hlast
      simp only [if_neg hoff]
      refine ⟨?_, ⟨h.first_le, h.pos_le, h.memo, fun _ => ⟨_, hpos, heq⟩⟩, rfl, rfl⟩
      dsimp only
      rw [getD_eq_getElem?_getD, hlast, getD_some]
  · obtain ⟨n, hscan, hstarts⟩ := h.cache (Bool.eq_false_of_not_eq_true hoff)
    have hfirst := h.first_le
    refine ⟨?_, h, rfl, rfl⟩
    have hpos : ctx.pos = ctx.firstLineStart + (ctx.pos - ctx.firstLineStart) := by omega
    rw [hstarts, hpos]
    exact search_lineStartsOf (by omega)

theorem lineStartPos_answers (grows : Nat → Bool) (h : ctx.Valid src) : Answers src ctx (lineStartPos src grows ctx) := by
  rw [lineStartPos]
  split_ifs with hmemo
  · exact ⟨by rw [hmemo]; exact h.memo (hmemo ▸ h.pos_le), h, rfl, rfl⟩
  · obtain ⟨hans, hvalid, hpos, hfirst⟩ := lineStartPosUncached_answers grows h
    refine ⟨hans, ⟨hvalid.first_le, hvalid.pos_le, fun _ => ?_, hvalid.cache⟩, hpos, hfirst⟩
    dsimp only
    rw [hpos, hfirst, hans]

theorem skipDocumentPrefixBom_valid (t : Text) (h : ctx.Valid t.src) : (skipDocumentPrefixBom t.src ctx).Valid t.src := by
  rw [skipDocumentPrefixBom]
  dsimp only
  split
  · exact h
  · rename_i hmark
    have hlen : ctx.pos + 3 ≤ t.src.length := by
      simp at hmark
      omega
    split_ifs with hline hoff
    · exact h
    · refine ⟨Nat.le_refl _, hlen, fun hmemo => absurd t.length_lt (Nat.not_lt_of_le hmemo), fun hon => ?_⟩
      cases hon.symm.trans hoff
    · exact ⟨Nat.le_refl _, hlen, fun hmemo => absurd t.length_lt (Nat.not_lt_of_le hmemo), fun _ => ⟨0, rfl, rfl⟩⟩

theorem lineStep_valid (t : Text) {ctx' : LineCtx} {a : LineAction} (h : ctx.Valid t.src) (hstep : lineStep t.src ctx a = some ctx') :
    ctx'.Valid t.src := by
  cases a with
  | move pos =>
    obtain ⟨⟨hfirst, hpos⟩, ⟨⟩⟩ := ite_none_right_eq_some.mp hstep
    exact ⟨hfirst, hpos, h.memo, h.cache⟩
  | lineStartPos grows =>
    cases hstep
    exact (lineStartPos_answers grows h).2.1
  | spanCrossesNewline grows start =>
    obtain ⟨-, ⟨⟩⟩ := ite_none_right_eq_some.mp hstep
    exact (lineStartPos_answers grows h).2.1
  | skipDocumentPrefixBom =>
    cases hstep
    exact skipDocumentPrefixBom_valid t h

end Ccollections.Cyaml
