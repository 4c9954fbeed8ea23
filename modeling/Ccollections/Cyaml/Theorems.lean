import Ccollections.Cyaml.Lemmas.Merge
import Ccollections.Cyaml.Lemmas.LineStart
import Ccollections.Cyaml.Lemmas.Stream

/-!
# Merge keys and the characters of a stream
-/

namespace Ccollections.Cyaml

variable {κ ν : Type} [DecidableEq κ]

/-- The explicit members of a mapping and its merge entries, as its frame has them at the end. -/
def explicitMembers (entries : List (Entry κ ν)) : Members κ ν := (entries.foldl takeEntry ([], [])).1

def mergeEntries (entries : List (Entry κ ν)) : List (MergeEntry κ ν) := (entries.foldl takeEntry ([], [])).2

/-- A mapping is read to its explicit members with every entry's members where the entry stands, and a key has the value
of the explicit member or else of the entry that wins. -/
theorem merge_expansion_exact (entries : List (Entry κ ν)) :
    (readMapping entries =
      if (mergeEntries entries).any fun e => e.val.sources.any Option.isNone then none
      else some (expanded (explicitMembers entries) (mergeEntries entries))) ∧
    (keys (expanded (explicitMembers entries) (mergeEntries entries))).Nodup ∧
    (∀ key, key ∈ keys (expanded (explicitMembers entries) (mergeEntries entries)) ↔
      key ∈ keys (explicitMembers entries) ∨ ∃ e ∈ mergeEntries entries, key ∈ keys e.members) ∧
    (∀ key, (expanded (explicitMembers entries) (mergeEntries entries)).lookup key =
      ((explicitMembers entries).lookup key).or (winner (mergeEntries entries) key)) ∧
    ∀ e, mergeEntries entries = [e] → mergeOne (explicitMembers entries) e = mergeSeveral (explicitMembers entries) [e] := by
  have hframe := frame_ok entries
  have hmono := hframe.mono
  have hnodup : (keys (explicitMembers entries)).Nodup := hframe.nodup
  have hread : readMapping entries = if (mergeEntries entries).isEmpty then some (explicitMembers entries)
      else mergeApply (explicitMembers entries) (mergeEntries entries) := rfl
  have hone : ∀ e, mergeEntries entries = [e] →
      mergeOne (explicitMembers entries) e = expanded (explicitMembers entries) [e] ∧
        mergeSeveral (explicitMembers entries) [e] = expanded (explicitMembers entries) [e] := fun e he =>
    mergeOne_eq hnodup (hframe.inside e (by rw [show (entries.foldl takeEntry ([], [])).2 = [e] from he]; exact List.mem_cons_self))
  change ∀ i j, i ≤ j → posAt (mergeEntries entries) (explicitMembers entries).length i ≤
    posAt (mergeEntries entries) (explicitMembers entries).length j at hmono
  generalize explicitMembers entries = map at hmono hnodup hread hone
  generalize mergeEntries entries = merges at hmono hread hone
  refine ⟨?_, expanded_nodup hnodup hmono, expanded_keys hnodup hmono, expanded_lookup hnodup hmono, fun e he => (hone e he).1.trans (hone e he).2.symm⟩
  rw [hread]
  rcases merges with - | ⟨e, - | ⟨e', merges⟩⟩
  · simp [expanded, posAt]
  · rw [mergeApply, (hone e rfl).1]
    rfl
  · rw [mergeApply, mergeSeveral_eq hnodup hmono]
    · rfl
    · rintro _ ⟨⟩

/-- Two merge entries with an explicit member before, between and behind them, and a duplicate of the first one. -/
def twoMerges : List (Entry Nat Nat) :=
  [.member 1 10, .merge (.mapping [(2, 20), (3, 30)]), .member 4 40,
    .merge (.sequence [some [(3, 31), (5, 50)], some [(5, 51), (1, 12)]]), .member 1 11, .member 6 60]

theorem merge_expansion_exact_two :
    readMapping twoMerges = some [(1, 11), (2, 20), (3, 31), (4, 40), (5, 50), (6, 60)] ∧
      (expanded (explicitMembers twoMerges) (mergeEntries twoMerges)).lookup 3 = some 31 := by
  obtain ⟨hread, -, -, hlookup, -⟩ := merge_expansion_exact twoMerges
  rw [hread, hlookup]
  decide

/-- The check of a stream stops at the first byte that starts no printable character, wherever its blocks lie. -/
theorem first_refused_char_exact (p : List UInt8) :
    ∃ n, firstRefusedChar p = some n ∧ n ≤ p.length ∧
      (∃ cs : List Char, (∀ c ∈ cs, CPrintable c) ∧ p.take n = cs.flatMap String.utf8EncodeChar) ∧
      (n = p.length ∨ StartsRefused (p.drop n)) := by
  obtain ⟨n, s, hloop, ⟨⟨cs, hcs, hp⟩, hoffset⟩, hs⟩ := refusedLoop_spec (i := 0) (p.length + 1) (Nat.lt_succ_self _) (Nat.zero_add _)
  rw [Nat.zero_add] at hoffset
  have hn : n = (cs.flatMap String.utf8EncodeChar).length := by
    have hlen := congrArg List.length hp
    rw [List.length_append] at hlen
    omega
  refine ⟨n, hloop, by omega, ⟨cs, hcs, ?_⟩, ?_⟩
  · rw [hn, hp, List.take_left]
  · rw [hn, hp, List.drop_left, List.length_append]
    rcases hs with rfl | hs
    · exact .inl rfl
    · exact .inr hs

/-- After any run the cached line start is the one the plain scan finds, and a span crosses a newline exactly if it
holds a CR or an LF. -/
theorem line_start_cache_agrees (t : Text) (first : Nat) (hfirst : first ≤ t.src.length) (ctx : LineCtx)
    (h : Lib.Reach (lineStep t.src) (.start first) ctx) (grows : Nat → Bool) :
    (lineStartPos t.src grows ctx).1 = backwardScan t.src ctx.firstLineStart ctx.pos ∧
    ∀ start, ctx.firstLineStart ≤ start → start ≤ ctx.pos →
      ((spanCrossesNewline t.src grows ctx start).1 = true ↔
        ∃ i, start ≤ i ∧ i < ctx.pos ∧ (t.src[i]? = some 0x0D ∨ t.src[i]? = some 0x0A)) := by
  have hvalid : ctx.Valid t.src := h.invariant (start_valid t hfirst) fun _ _ _ hvalid hstep => lineStep_valid t hvalid hstep
  have hans := (lineStartPos_answers grows hvalid).1
  refine ⟨hans, fun start hstart hpos => ?_⟩
  have hbreak : ∀ i < ctx.pos, isBreak t.src i = true ↔ t.src[i]? = some 0x0D ∨ t.src[i]? = some 0x0A := by
    intro i hi
    have hlt := hi.trans_le hvalid.pos_le
    simp [isBreak, hlt, or_comm]
  rw [spanCrossesNewline, decide_eq_true_iff, hans, gt_iff_lt, lt_backwardScan_iff hstart hpos]
  exact exists_congr fun i => and_congr_right fun _ => and_congr_right fun hi => hbreak i hi

/-- `a`, a line break and `b`, from the start to behind the break. -/
theorem line_start_cache_agrees_at_break :
    (lineStartPos [0x61, 0x0A, 0x62] (fun _ => false) { LineCtx.start 0 with pos := 2 }).1 =
      backwardScan [0x61, 0x0A, 0x62] 0 2 :=
  (line_start_cache_agrees ⟨[0x61, 0x0A, 0x62], by decide⟩ 0 (Nat.zero_le 3) { LineCtx.start 0 with pos := 2 }
    (Lib.Reach.single (i := .move 2) rfl) fun _ => false).1

end Ccollections.Cyaml
