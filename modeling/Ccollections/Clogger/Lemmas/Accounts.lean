import Ccollections.Clogger.Lemmas.Framing

/-!
# Every unit is in one place
-/

namespace Ccollections.Clogger

open List Option

variable {p : Prop} {w : Name → Prop} {o o' : Output} {u v : Name} {data file : List Cell} {text : List UInt8}

/-! ## Units that are finished -/

@[simp] theorem finished_nil : finished [] = [] := rfl

@[simp] theorem finished_append (x y : List Cell) : finished (x ++ y) = finished x ++ finished y := filterMap_append

theorem finished_cons (c : Cell) (x : List Cell) : finished (c :: x) = finished [c] ++ finished x := finished_append [c] x

@[simp] theorem finished_closer : finished [closer] = [] := rfl

theorem finished_take_drop (n : Nat) (x : List Cell) : finished (x.take n) ++ finished (x.drop n) = finished x := by
  rw [← finished_append, take_append_drop]

theorem finished_inside {c : Cell} {q : Part} (hq : c.part = some q) (h : q.rest ≠ 0) : finished [c] = [] := by
  simp [finished, hq, h]

theorem finished_last {c : Cell} {q : Part} (hq : c.part = some q) (h : q.rest = 0) (hu : q.unit.isMarker = false) :
    finished [c] = [q.unit] := by
  simp [finished, hq, h, hu]

theorem finished_marker (h : u.isMarker = true) (i : Nat) : finished (cellsFrom u i text) = [] := by
  induction text generalizing i with
  | nil => rfl
  | cons x text ih =>
    rw [cellsFrom, finished_cons, ih]
    simp [finished, h]

theorem finished_cellsFrom (h : u.isMarker = false) (ht : text ≠ []) (i : Nat) : finished (cellsFrom u i text) = [u] := by
  induction text generalizing i with
  | nil => exact absurd rfl ht
  | cons x text ih =>
    rw [cellsFrom, finished_cons]
    cases text with
    | nil => simp [finished, cellsFrom, h]
    | cons y text =>
      rw [ih (by simp)]
      simp [finished]

theorem finished_cells_take (n : Nat) (hn : n < text.length) (i : Nat) : finished ((cellsFrom u i text).take n) = [] := by
  induction text generalizing i n with
  | nil => simp at hn
  | cons x text ih =>
    cases n with
    | zero => rfl
    | succ n =>
      simp only [length_cons, Nat.add_lt_add_iff_right] at hn
      rw [cellsFrom, take_succ_cons, finished_cons, ih n hn]
      have hne : text.length ≠ 0 := by omega
      simp [finished, hne]

theorem finished_repairNote (text : List UInt8) : finished (o.repairNote text) = [] := by
  have hmarker : finished (cells (.marker o.markers) text) = [] := finished_marker rfl 0
  unfold Output.repairNote Output.lead
  split
  · rw [finished_append, hmarker, finished_closer, append_nil]
  · exact hmarker

theorem finished_repairNote_take (text : List UInt8) (n : Nat) : finished ((o.repairNote text).take n) = [] := by
  have := finished_take_drop n (o.repairNote text)
  rw [finished_repairNote] at this
  exact (append_eq_nil_iff.mp this).1

theorem finished_closeRetiredLine {old : List Cell} (h : Whole old) (retired : RetiredLine) :
    finished (closeRetiredLine retired old).1 = finished old := by
  cases retired with
  | newline => simp [closeRetiredLine]
  | gone => rfl
  | refused => rfl
  | cut =>
    have hends := h.ends
    clear h
    induction old using List.reverseRecOn with
    | nil => rfl
    | append_singleton old c ih =>
      simp only [closeRetiredLine] at ih ⊢
      rw [rdropWhile_concat]
      split
      · rename_i hc
        rw [ih fun d hd => hends d (mem_append_left _ hd), finished_append]
        have hnone : finished [c] = [] := by
          cases hq : c.part with
          | none => simp [finished, hq]
          | some q =>
            apply finished_inside hq
            intro hr
            have := hends c (by simp) q hq hr
            simp [this] at hc
        rw [hnone, append_nil]
      · rfl

/-! ## Lines and records -/

theorem Batch.tail {c : Cell} (h : Batch (c :: data)) : Batch data := h.drop 1

theorem Batch.ends_iff {c : Cell} {q : Part} (h : Batch (c :: data)) (hq : c.part = some q) :
    q.rest = 0 ↔ c.byte = nl ∧ (continues data) = false := by
  cases data with
  | nil =>
    have hr := h.last c (by simp) q hq
    simp [hr, h.ends c (by simp) q hq hr, continues]
  | cons b data =>
    have hj := (isChain_cons_cons.mp h.chain).1
    simp only [continues, List.head?_cons, any_some, decide_eq_false_iff_not]
    rcases hj with ⟨⟨pa, pb, hpa, hpb, _, _, hr⟩, htab⟩ | ⟨pa, pb, hpa, hpb, hr, hnl, _, hb⟩
    · rw [hq] at hpa
      obtain rfl := some.inj hpa
      constructor
      · intro h0
        omega
      · rintro ⟨hnl, hne⟩
        exact absurd (htab hnl) hne
    · rw [hq] at hpa
      obtain rfl := some.inj hpa
      simp [hr, hnl, hb]

theorem finished_untilRecordEnd (h : Batch data) (hne : data ≠ []) :
    (finished (data.take (untilRecordEnd data))).length = 1 := by
  induction data with
  | nil => exact absurd rfl hne
  | cons c data ih =>
    obtain ⟨q, hq, hu⟩ := h.owned c (by simp)
    have hends := h.ends_iff hq
    unfold untilRecordEnd
    by_cases hr : q.rest = 0
    · obtain ⟨hnl, hcont⟩ := hends.mp hr
      rw [if_pos (by simp [hnl, hcont])]
      simp [finished_last hq hr hu]
    · have hcond : ¬(c.byte = nl ∧ (!continues data) = true) := by
        intro hc
        exact hr (hends.mpr ⟨hc.1, by simpa using hc.2⟩)
      rw [if_neg hcond, take_succ_cons, finished_cons, finished_inside hq hr, nil_append]
      apply ih h.tail
      rintro rfl
      exact hr (h.last c (by simp) q hq)

theorem recordLines_cons {c : Cell} (h : Batch (c :: data)) :
    recordLines (c.byte = nl) data + 1 = (finished (c :: data)).length := by
  induction data generalizing c with
  | nil =>
    obtain ⟨q, hq, hu⟩ := h.owned c (by simp)
    simp [recordLines, finished_last hq (h.last c (by simp) q hq) hu]
  | cons b data ih =>
    obtain ⟨q, hq, hu⟩ := h.owned c (by simp)
    have hends := h.ends_iff hq
    simp only [continues, List.head?_cons, any_some, decide_eq_false_iff_not] at hends
    rw [finished_cons, length_append, ← ih h.tail, recordLines]
    by_cases hr : q.rest = 0
    · rw [finished_last hq hr hu, if_pos (by simpa using hends.mp hr)]
      simp only [length_singleton]
      omega
    · have hcond : ¬(decide (c.byte = nl) = true ∧ b.byte ≠ tab) := by
        intro hc
        exact hr (hends.mpr (by simpa using hc))
      rw [finished_inside hq hr, if_neg hcond]
      simp only [length_nil]
      omega

theorem recordLines_eq (h : Batch data) (hstart : RecordStart data) : recordLines true data = (finished data).length := by
  cases data with
  | nil => rfl
  | cons c data =>
    rw [← recordLines_cons h, recordLines, if_pos ⟨rfl, (hstart c (by simp)).2⟩, Nat.add_comm]

/-! ## The accounts -/

namespace Output

def onDisk (o : Output) : List Name := finished o.files.flatten ++ finished o.live

def pending (o : Output) : List Name := finished o.asyncBuf

end Output

structure Accounted (o : Output) : Prop where
  places : ∀ u, o.onDisk.count u + o.pending.count u + o.owed.count u + o.marked.count u = o.handed.count u
  owed : o.owed.length = o.owedRecords
  marked : o.marked.length = o.markedRecords
  nodup : o.handed.Nodup
  notes : ∀ k, .note k ∈ o.handed → k < o.handed.length

theorem Accounted.notMem (h : Accounted o) (hu : o.New w u) : u ∉ o.handed := by
  rcases hu with rfl | hu
  · intro hm
    exact Nat.lt_irrefl _ (h.notes _ hm)
  · exact hu.2.2

theorem Accounted.nodup_cons (h : Accounted o) (hu : o.New w u) : (u :: o.handed).Nodup :=
  List.nodup_cons.mpr ⟨h.notMem hu, h.nodup⟩

theorem Accounted.notes_cons (h : Accounted o) (hu : o.New w u) :
    ∀ k, .note k ∈ u :: o.handed → k < (u :: o.handed).length := by
  intro k hk
  rw [length_cons]
  rcases mem_cons.mp hk with hk | hk
  · rcases hu with rfl | hu
    · obtain rfl := Name.note.inj hk
      exact Nat.lt_succ_self _
    · rw [← hk] at hu
      simp [Name.ofCall] at hu
  · exact Nat.lt_succ_of_lt (h.notes k hk)

theorem Accounted.move (h : Accounted o) (hsound : Sound o) (hm : Move p w o o') : Accounted o' := by
  have hplaces := h.places
  simp only [Output.onDisk, Output.pending, count_append] at hplaces
  cases hm with
  | cleared _ _ => exact ⟨h.places, h.owed, h.marked, h.nodup, h.notes⟩
  | paid _ _ _ =>
    refine ⟨fun v => ?_, rfl, ?_, h.nodup, h.notes⟩
    · have := hplaces v
      simp only [Output.onDisk, Output.pending, finished_append, finished_repairNote, count_append, count_nil]
      omega
    · simp only [length_append, h.owed, h.marked]
      omega
  | paidPartly _ _ _ _ =>
    refine ⟨fun v => ?_, h.owed, h.marked, h.nodup, h.notes⟩
    have := hplaces v
    simp only [Output.onDisk, Output.pending, finished_append, finished_repairNote_take, count_append, count_nil]
    omega
  | @unit u text hs _ hu ht =>
    refine ⟨fun v => ?_, h.owed, h.marked, h.nodup_cons hu, h.notes_cons hu⟩
    have hne : text ≠ [] := by
      rintro rfl
      simp [Closed] at ht
    have := hplaces v
    simp only [Output.onDisk, Output.pending, Output.handOver, finished_append, cells,
      finished_cellsFrom hu.notMarker hne, count_append, count_cons, count_nil]
    omega
  | @unitCut u text n _ _ hu _ hn =>
    refine ⟨fun v => ?_, ?_, h.marked, h.nodup_cons hu, h.notes_cons hu⟩
    · have := hplaces v
      simp only [Output.onDisk, Output.pending, Output.handOver, Output.lose, finished_append, cells,
        finished_cells_take n hn, count_append, count_cons, count_nil]
      omega
    · simp only [Output.lose, Output.handOver, length_append, h.owed, length_singleton]
      omega
  | @refused u _ hu =>
    refine ⟨fun v => ?_, ?_, h.marked, h.nodup_cons hu, h.notes_cons hu⟩
    · have := hplaces v
      simp only [Output.onDisk, Output.pending, Output.handOver, Output.lose, count_append, count_cons,
        count_nil]
      omega
    · simp only [Output.lose, Output.handOver, length_append, h.owed, length_singleton]
      omega
  | newLive _ =>
    refine ⟨fun v => ?_, h.owed, h.marked, h.nodup, h.notes⟩
    have := hplaces v
    simp only [Output.onDisk, Output.pending, flatten_cons, finished_append, finished_nil, count_append,
      count_nil]
    omega
  | @retired old files lineOpen retired hf =>
    refine ⟨fun v => ?_, h.owed, h.marked, h.nodup, h.notes⟩
    have hold : finished (if lineOpen then (closeRetiredLine retired old).1 else old) = finished old := by
      split
      · exact finished_closeRetiredLine (hsound.files old (by simp [hf])) retired
      · rfl
    have := hplaces v
    simp only [Output.onDisk, Output.pending, hf, flatten_cons, finished_append, count_append, hold] at this ⊢
    exact this
  | @piece n _ _ _ =>
    refine ⟨fun v => ?_, h.owed, h.marked, h.nodup, h.notes⟩
    have := hplaces v
    rw [← finished_take_drop n o.asyncBuf, count_append] at this
    simp only [Output.onDisk, Output.pending, finished_append, count_append]
    omega
  | repaired hs =>
    obtain ⟨_, b, _, hb, _⟩ := hsound.cut hs
    have hne : o.asyncBuf ≠ [] := by
      intro he
      simp [he] at hb
    refine ⟨fun v => ?_, ?_, h.marked, h.nodup, h.notes⟩
    · have := hplaces v
      rw [← finished_take_drop (untilRecordEnd o.asyncBuf) o.asyncBuf, count_append] at this
      simp only [Output.onDisk, Output.pending, Output.lose, count_append]
      omega
    · simp only [Output.lose, length_append, finished_untilRecordEnd hsound.batch hne, h.owed]
      omega
  | dropped hs =>
    refine ⟨fun v => ?_, ?_, h.marked, h.nodup, h.notes⟩
    · have := hplaces v
      simp only [Output.onDisk, Output.pending, Output.lose, finished_nil, count_append, count_nil]
      omega
    · simp only [Output.lose, length_append, recordLines_eq hsound.batch (hsound.start hs), h.owed]
      omega
  | @joined u r hu _ =>
    refine ⟨fun v => ?_, h.owed, h.marked, h.nodup_cons hu, h.notes_cons hu⟩
    have hne : r.text ≠ [] := by
      intro he
      have := r.text_closed
      simp [Closed, he] at this
    have := hplaces v
    simp only [Output.onDisk, Output.pending, Output.handOver, finished_append, cells,
      finished_cellsFrom hu.notMarker hne, count_append, count_cons, count_nil]
    omega

theorem Accounted.moves (h : Accounted o) (hsound : Sound o) (hm : Moves p w o o') : Accounted o' :=
  (hm.invariant (P := fun o => Sound o ∧ Accounted o) (fun _ _ hab hm => ⟨hab.1.move hm, hab.2.move hab.1 hm⟩)
    ⟨hsound, h⟩).2

/-! ## A finished unit is whole -/

def chunkFrom (u : Name) (rest : Nat) : Nat → List UInt8 → List Cell
  | _, [] => []
  | i, x :: xs => ⟨x, some ⟨u, i, xs.length + rest⟩⟩ :: chunkFrom u rest (i + 1) xs

theorem chunkFrom_zero (i : Nat) : chunkFrom u 0 i text = cellsFrom u i text := by
  induction text generalizing i with
  | nil => rfl
  | cons x text ih => simp [chunkFrom, cellsFrom, ih]

theorem chunkFrom_concat (rest i : Nat) (x : UInt8) :
    chunkFrom u rest i (text ++ [x]) = chunkFrom u (rest + 1) i text ++ [⟨x, some ⟨u, i + text.length, rest⟩⟩] := by
  induction text generalizing i with
  | nil => simp [chunkFrom]
  | cons y text ih =>
    rw [cons_append, chunkFrom, ih, chunkFrom, cons_append, length_append, length_cons]
    simp [Nat.add_comm, Nat.add_left_comm]

theorem Whole.chunk {l : List Cell} {x : UInt8} {i rest : Nat} (h : Whole (l ++ [⟨x, some ⟨u, i, rest⟩⟩])) :
    ∃ front bytes, l ++ [⟨x, some ⟨u, i, rest⟩⟩] = front ++ chunkFrom u rest 0 bytes ∧ bytes.length = i + 1 := by
  induction i generalizing l x rest with
  | zero => exact ⟨l, [x], by simp [chunkFrom], rfl⟩
  | succ i ih =>
    rcases eq_nil_or_concat' l with rfl | ⟨l, a, rfl⟩
    · have := h.start _ rfl _ rfl
      simp at this
    · have hjoin := (isChain_append.mp h.chain).2.2 a (by simp) _ rfl _ rfl (by simp)
      obtain ⟨pa, pb, hpa, hpb, hu, hi, hr⟩ := hjoin
      obtain rfl := some.inj hpb
      obtain ⟨y, qa⟩ := a
      obtain rfl : qa = some pa := hpa
      obtain ⟨ua, ia, ra⟩ := pa
      simp only at hu hi hr
      obtain rfl := hu
      obtain rfl : i = ia := by omega
      subst hr
      obtain ⟨front, bytes, hl, hlen⟩ := ih (h.front (prefix_append _ _))
      refine ⟨front, bytes ++ [x], ?_, by simp [hlen]⟩
      rw [hl, chunkFrom_concat, hlen, append_assoc, Nat.zero_add]

theorem Whole.finished (h : Whole file) (hu : u ∈ finished file) : ∃ text, text ≠ [] ∧ cells u text <:+: file := by
  simp only [Clogger.finished, mem_filterMap] at hu
  obtain ⟨c, hc, hu⟩ := hu
  obtain ⟨l, r, rfl⟩ := append_of_mem hc
  obtain ⟨x, qo⟩ := c
  cases qo with
  | none => simp at hu
  | some q =>
    obtain ⟨v, i, rest⟩ := q
    simp only [bind_some, ite_none_right_eq_some, some.injEq] at hu
    obtain ⟨⟨rfl, _⟩, rfl⟩ := hu
    have hl : Whole (l ++ [⟨x, some ⟨v, i, 0⟩⟩]) := h.front ⟨r, by simp⟩
    obtain ⟨front, bytes, heq, hlen⟩ := hl.chunk
    refine ⟨bytes, ?_, front, r, ?_⟩
    · rintro rfl
      simp at hlen
    · rw [cells, ← chunkFrom_zero, ← heq]
      simp

end Ccollections.Clogger
