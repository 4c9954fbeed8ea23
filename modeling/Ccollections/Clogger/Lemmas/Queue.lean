import Ccollections.Clogger.Lemmas.Framing
import Ccollections.Clogger.Queue
import Mathlib.Data.List.Nodup
import Mathlib.Logic.Function.Basic

/-!
# The records of a thread stay in order

What the moves of an output do to the row of calls on disk and in the batch, and the run of the threads and the writer.
-/

namespace Ccollections.Clogger

open List Option

variable {p : Prop} {w : Name → Prop} {o o' o'' : Output} {u : Name} {x : Nat × Nat} {data : List Cell} {text : List UInt8}

/-! ## The row of calls -/

def Name.call : Name → Option (Nat × Nat)
  | .record thread seq => some (thread, seq)
  | .trailer thread seq => some (thread, seq)
  | _ => none

def calls (data : List Cell) : List (Nat × Nat) := data.filterMap fun c => c.part.bind fun q => q.unit.call

def Before (a b : Nat × Nat) : Prop := a.1 = b.1 → a.2 ≤ b.2

namespace Output

def disk (o : Output) : List Cell := o.files.reverse.flatten ++ o.live

def row (o : Output) : List (Nat × Nat) := calls o.disk ++ calls o.asyncBuf

end Output

@[simp] theorem calls_append (x y : List Cell) : calls (x ++ y) = calls x ++ calls y := filterMap_append

theorem calls_sublist {x y : List Cell} (h : x.Sublist y) : (calls x).Sublist (calls y) := h.filterMap _

@[simp] theorem calls_nil : calls [] = [] := rfl

theorem mem_calls_cells (h : x ∈ calls (cells u text)) : u.call = some x := by
  simp only [calls, mem_filterMap] at h
  obtain ⟨c, hc, hx⟩ := h
  obtain ⟨q, hq, rfl⟩ := cellsFrom_mem hc
  simpa [hq] using hx

theorem calls_cells_none (h : u.call = none) : calls (cells u text) = [] := by
  apply eq_nil_iff_forall_not_mem.mpr
  intro x hx
  simp [mem_calls_cells hx] at h

theorem calls_repairNote : calls (o.repairNote text) = [] := by
  have hmarker : calls (cells (.marker o.markers) text) = [] := calls_cells_none rfl
  unfold Output.repairNote Output.lead
  split
  · rw [calls_append, hmarker]
    rfl
  · simpa using hmarker

theorem calls_closeRetiredLine (retired : RetiredLine) (old : List Cell) :
    (calls (closeRetiredLine retired old).1).Sublist (calls old) := by
  cases retired with
  | newline => simp [closeRetiredLine, calls, closer]
  | gone => exact List.Sublist.refl _
  | cut => exact calls_sublist ( rdropWhile_prefix _ _).sublist
  | refused => exact List.Sublist.refl _

/-- What a move may do to the row: entries go, or a call comes to the end of the disk or of the batch. -/
def RowStep (w : Name → Prop) (o o' : Output) : Prop :=
  (o'.row.Sublist o.row ∧ (calls o'.asyncBuf).Sublist (calls o.asyncBuf)) ∨
    ∃ u, w u ∧ ∃ xs, (∀ x ∈ xs, u.call = some x) ∧
      (calls o'.disk = calls o.disk ++ xs ∧ calls o'.asyncBuf = calls o.asyncBuf ∨
        calls o'.disk = calls o.disk ∧ calls o'.asyncBuf = calls o.asyncBuf ++ xs)

theorem RowStep.same (hd : calls o'.disk = calls o.disk) (hb : calls o'.asyncBuf = calls o.asyncBuf) : RowStep w o o' := by
  refine Or.inl ⟨?_, by rw [hb]⟩
  rw [Output.row, Output.row, hd, hb]

theorem Output.New.call (h : o.New w u) : u.call = none ∨ w u := by
  rcases h with rfl | h
  · exact Or.inl rfl
  · exact Or.inr h.2.1

theorem RowStep.written {l : List Cell} (hu : o.New w u) (hl : l.Sublist (cells u text)) (hf : o'.files = o.files)
    (hlive : o'.live = o.live ++ l) (hb : o'.asyncBuf = o.asyncBuf) : RowStep w o o' := by
  have hd : calls o'.disk = calls o.disk ++ calls l := by simp [Output.disk, hf, hlive]
  rcases hu.call with hu | hu
  · have hnil : calls l = [] := by
      have := calls_sublist hl
      rw [calls_cells_none hu] at this
      exact sublist_nil.mp this
    exact RowStep.same (by rw [hd, hnil, append_nil]) (by rw [hb])
  · exact Or.inr ⟨u, hu, calls l, fun x hx => mem_calls_cells ((calls_sublist hl).subset hx), Or.inl ⟨hd, by rw [hb]⟩⟩

theorem Move.row (h : Move p w o o') : RowStep w o o' := by
  cases h with
  | cleared _ _ => exact RowStep.same rfl rfl
  | @paid text _ _ _ => exact RowStep.same (by simp [Output.disk, calls_repairNote]) rfl
  | @paidPartly text n _ _ _ _ =>
    have hnil : calls ((o.repairNote text).take n) = [] := by
      have := calls_sublist (take_sublist n (o.repairNote text))
      rw [calls_repairNote] at this
      exact sublist_nil.mp this
    exact RowStep.same (by simp [Output.disk, hnil]) rfl
  | @unit u text _ _ hu _ => exact RowStep.written hu (List.Sublist.refl (cells u text)) rfl rfl rfl
  | @unitCut u text n _ _ hu _ _ => exact RowStep.written hu (take_sublist n (cells u text)) rfl rfl rfl
  | refused _ _ => exact RowStep.same rfl rfl
  | newLive _ => exact RowStep.same (by simp [Output.disk]) rfl
  | @retired old files lineOpen retired hf =>
    refine Or.inl ⟨?_, List.Sublist.refl _⟩
    have hold : (calls (if lineOpen then (closeRetiredLine retired old).1 else old)).Sublist (calls old) := by
      split
      · exact calls_closeRetiredLine retired old
      · exact List.Sublist.refl _
    simp only [Output.row, Output.disk, hf, reverse_cons, flatten_append, flatten_cons, flatten_nil,
      append_nil, calls_append]
    exact ((List.Sublist.append (List.Sublist.refl _) hold).append (List.Sublist.refl _)).append (List.Sublist.refl _)
  | @piece n _ _ _ =>
    have hsplit : calls (o.asyncBuf.take n) ++ calls (o.asyncBuf.drop n) = calls o.asyncBuf := by
      rw [← calls_append, take_append_drop]
    refine Or.inl ⟨?_, calls_sublist (drop_sublist n _)⟩
    simp only [Output.row, Output.disk, calls_append, ← hsplit, append_assoc]
    exact List.Sublist.refl _
  | repaired _ =>
    have hdrop := calls_sublist (drop_sublist (untilRecordEnd o.asyncBuf) o.asyncBuf)
    exact Or.inl ⟨List.Sublist.append (List.Sublist.refl _) hdrop, hdrop⟩
  | dropped _ =>
    exact Or.inl ⟨List.Sublist.append (List.Sublist.refl _) (nil_sublist _), nil_sublist _⟩
  | @joined u r hu _ =>
    rcases hu.call with hu | hu
    · exact RowStep.same rfl (by simp [calls_cells_none hu])
    · exact Or.inr ⟨u, hu, calls (cells u r.text), fun x hx => mem_calls_cells hx, Or.inr ⟨rfl, by simp⟩⟩

theorem quiet_row (h : Quiet p o o') : o'.row.Sublist o.row ∧ (calls o'.asyncBuf).Sublist (calls o.asyncBuf) := by
  refine h.invariant (P := fun a => a.row.Sublist o.row ∧ (calls a.asyncBuf).Sublist (calls o.asyncBuf)) ?_
    ⟨List.Sublist.refl _, List.Sublist.refl _⟩
  intro a b ha hm
  rcases hm.row with hm | ⟨_, hw, _⟩
  · exact ⟨hm.1.trans ha.1, hm.2.trans ha.2⟩
  · exact hw.elim

/-! ## A call that writes alone -/

/-- A call writes while the batch has no other record of its thread, and none on disk is later. -/
structure Alone (x : Nat × Nat) (o₀ o : Output) : Prop where
  ordered : o.row.Pairwise Before
  batch : ∀ y ∈ calls o.asyncBuf, y.1 = x.1 → y.2 = x.2
  disk : ∀ y ∈ calls o.disk, y.1 = x.1 → y.2 ≤ x.2
  source : ∀ y ∈ o.row, y ∈ o₀.row ∨ y = x

theorem Alone.move (h : Alone x o'' o) (hw : ∀ u, w u → u.call = some x) (hm : Move p w o o') : Alone x o'' o' := by
  have hrow := h.ordered
  rcases hm.row with ⟨hline, hbuf⟩ | ⟨u, hu, xs, hxs, hcase⟩
  · refine ⟨hrow.sublist hline, fun y hy => h.batch y (hbuf.subset hy), fun y hy hyx => ?_, fun y hy => h.source y (hline.subset hy)⟩
    rcases mem_append.mp (hline.subset (mem_append_left _ hy)) with hy | hy
    · exact h.disk y hy hyx
    · exact Nat.le_of_eq (h.batch y hy hyx)
  · have hx : ∀ y ∈ xs, y = x := by
      intro y hy
      have := hxs y hy
      rw [hw u hu] at this
      exact (some.inj this).symm
    have hself : xs.Pairwise Before := by
      refine pairwise_of_forall_mem_list fun a ha b hb _ => ?_
      rw [hx a ha, hx b hb]
    rw [Output.row, pairwise_append] at hrow
    obtain ⟨hdisk, hbuf, hcross⟩ := hrow
    have hsource : ∀ y ∈ xs, y ∈ o''.row ∨ y = x := fun y hy => Or.inr (hx y hy)
    rcases hcase with ⟨hd, hb⟩ | ⟨hd, hb⟩
    · refine ⟨?_, by rw [hb]; exact h.batch, ?_, ?_⟩
      · rw [Output.row, hd, hb, pairwise_append, pairwise_append]
        refine ⟨⟨hdisk, hself, fun a ha b hb' hab => ?_⟩, hbuf, fun a ha b hb' => ?_⟩
        · rw [hx b hb'] at hab ⊢
          exact h.disk a ha hab
        · rcases mem_append.mp ha with ha | ha
          · exact hcross a ha b hb'
          · intro hab
            rw [hx a ha] at hab ⊢
            exact Nat.le_of_eq (h.batch b hb' hab.symm).symm
      · intro y hy hyx
        rw [hd] at hy
        rcases mem_append.mp hy with hy | hy
        · exact h.disk y hy hyx
        · rw [hx y hy]
      · intro y hy
        rw [Output.row, hd, hb, append_assoc] at hy
        rcases mem_append.mp hy with hy | hy
        · exact h.source y (mem_append_left _ hy)
        · rcases mem_append.mp hy with hy | hy
          · exact hsource y hy
          · exact h.source y (mem_append_right _ hy)
    · refine ⟨?_, ?_, by rw [hd]; exact h.disk, ?_⟩
      · rw [Output.row, hd, hb, pairwise_append, pairwise_append]
        refine ⟨hdisk, ⟨hbuf, hself, fun a ha b hb' hab => ?_⟩, fun a ha b hb' => ?_⟩
        · rw [hx b hb'] at hab ⊢
          exact Nat.le_of_eq (h.batch a ha hab)
        · rcases mem_append.mp hb' with hb' | hb'
          · exact hcross a ha b hb'
          · intro hab
            rw [hx b hb'] at hab ⊢
            exact h.disk a ha hab
      · intro y hy hyx
        rw [hb] at hy
        rcases mem_append.mp hy with hy | hy
        · exact h.batch y hy hyx
        · rw [hx y hy]
      · intro y hy
        rw [Output.row, hd, hb, ← append_assoc] at hy
        rcases mem_append.mp hy with hy | hy
        · exact h.source y hy
        · exact hsource y hy

theorem Alone.moves (h : Alone x o'' o) (hw : ∀ u, w u → u.call = some x) (hm : Moves p w o o') : Alone x o'' o' :=
  hm.invariant (P := Alone x o'') (fun _ _ ha hm => ha.move hw hm) h

theorem Call.owns_call {k : Call} {u : Name} (h : k.owns u) : u.call = some (k.thread, k.seq) := by
  rcases h with rfl | rfl
  · rfl
  · rfl

/-!
# The order along the queue, the batch and the disk
-/

open Lib

variable {c : Config} {e : Env} {t t' : Target} {k : Call} {l l' : Logger} {cap th : Nat} {a : Act}

/-! ## The row behind a section -/

def Call.pos (k : Call) : Nat × Nat := (k.thread, k.seq)

namespace Target

theorem writerFlushBuffer_quiet (hT : e.Transient) : Quiet False t.toOutput (t.writerFlushBuffer c e).toOutput :=
  writerFlushBuffer_moves hT False.elim

theorem reportLoss_row (hT : e.Transient) (openLine : Bool) (records bytes : Nat) (err : WriteError) (detail : List UInt8)
    (lost : List Name) : (t.reportLoss c e openLine records bytes err detail lost).row.Sublist t.row :=
  (quiet_row (payOwed_moves (p := False) (t := t.lose openLine records bytes err detail lost) hT)).1

theorem join_row (r : Record) : (t.join k.name r).row = t.row ++ calls (cells k.name r.text) := by
  simp [Output.row, Output.disk, join, handOver]

theorem job_row (hT : e.Transient) {first second : Build} {oom : Bool} (hfit : Logger.fits t first second oom = true) :
    ∃ xs, (∀ x ∈ xs, x = k.pos) ∧ (t.job c e k first second oom).row.Sublist (t.row ++ xs) := by
  have hjoin : ∀ (t' : Target) (r : Record), t'.row.Sublist t.row → ∃ xs, (∀ x ∈ xs, x = k.pos) ∧
      (t'.join k.name r).row.Sublist (t.row ++ xs) := by
    intro t' r ht
    refine ⟨calls (cells k.name r.text), fun x hx => (some.inj (mem_calls_cells hx)).symm, ?_⟩
    rw [join_row]
    exact ht.append (List.Sublist.refl _)
  have hbuilt : ∃ xs, (∀ x ∈ xs, x = k.pos) ∧ (t.buildJob c e k first second oom).row.Sublist (t.row ++ xs) := by
    unfold buildJob
    split
    · rename_i hretry
      have hsettled : (t.flushAndSettle c e).row.Sublist t.row :=
        (quiet_row (flushAndSettle_moves (p := False) hT False.elim)).1
      simp only [Logger.fits, hretry, Bool.not_true, Bool.false_or, Bool.and_eq_true, Bool.not_eq_true'] at hfit
      unfold retryJob
      dsimp only
      cases second with
      | record r => exact hjoin _ r hsettled
      | placeholder r =>
        dsimp only
        split
        · exact hjoin _ r hsettled
        · refine ⟨[], by simp, ?_⟩
          rw [append_nil]
          exact (reportLoss_row hT _ _ _ _ _ _).trans hsettled
      | failed => simp at hfit
    · rename_i hfirst
      split
      · exact hjoin t _ (List.Sublist.refl _)
      · exact hjoin t _ (List.Sublist.refl _)
      · exact absurd rfl hfirst
  obtain ⟨xs, hxs, hsub⟩ := hbuilt
  refine ⟨xs, hxs, ?_⟩
  unfold job
  dsimp only
  split
  · exact (quiet_row (writerFlushBuffer_quiet hT)).1.trans hsub
  · exact hsub

theorem batchFreeOf_calls (h : Logger.batchFreeOf t th = true) : ∀ y ∈ calls t.asyncBuf, y.1 ≠ th := by
  intro y hy
  simp only [calls, mem_filterMap] at hy
  obtain ⟨b, hb, hy⟩ := hy
  have hall := all_eq_true.mp h b hb
  cases hq : b.part with
  | none => simp [hq] at hy
  | some q =>
    simp only [hq, all_some, bind_some] at hall hy
    cases hu : q.unit with
    | record thread seq =>
      simp only [hu, Name.call, some.injEq] at hall hy
      rw [← hy]
      simpa using hall
    | trailer thread seq =>
      simp only [hu, Name.call, some.injEq] at hall hy
      rw [← hy]
      simpa using hall
    | note n => simp [hu, Name.call] at hy
    | marker n => simp [hu, Name.call] at hy

theorem alone_start {o : Output} (hr : t.row.Pairwise Before) (hd : ∀ y ∈ t.row, y.1 = k.thread → y.2 < k.seq)
    (hq : o.row.Sublist t.row) (hfree : ∀ y ∈ calls o.asyncBuf, y.1 ≠ k.thread) : Alone k.pos t.toOutput o where
  ordered := hr.sublist hq
  batch := fun y hy hyx => absurd hyx (hfree y hy)
  disk := fun y hy hyx => Nat.le_of_lt (hd y (hq.subset (mem_append_left _ hy)) hyx)
  source := fun _ hy => Or.inl (hq.subset hy)

theorem writeSync_alone (hT : e.Transient) (hf : t.Fresh k) (built : Build) (hr : t.row.Pairwise Before)
    (hd : ∀ y ∈ t.row, y.1 = k.thread → y.2 < k.seq) (hfree : Logger.batchFreeOf (t.settled c e) k.thread = true) :
    Alone k.pos t.toOutput (t.writeSync c e k built).toOutput := by
  have hrotated : Quiet False t.toOutput ((t.settled c e).timeRotateIfDue c e).toOutput :=
    (settled_moves hT False.elim).trans (timeRotateIfDue_moves hT)
  have hbuf : ((t.settled c e).timeRotateIfDue c e).asyncBuf = (t.settled c e).asyncBuf := timeRotateIfDue_frame.2
  have hs : ((t.settled c e).timeRotateIfDue c e).split = .none := timeRotateIfDue_frame.1.trans settled_split
  have hstart : Alone k.pos t.toOutput ((t.settled c e).timeRotateIfDue c e).toOutput := by
    refine alone_start hr hd (quiet_row hrotated).1 ?_
    rw [hbuf]
    exact batchFreeOf_calls hfree
  have hmoves : Moves False k.owns ((t.settled c e).timeRotateIfDue c e).toOutput (t.writeSync c e k built).toOutput :=
    (emit_moves hT hs (hf.quiet hrotated) built).trans (sizeRotateIfDue_moves hT)
  exact hstart.moves (fun _ hu => Call.owns_call hu) hmoves

theorem writeRefused_alone (hT : e.Transient) (hf : t.Fresh k) (hb : t.asyncBuf = [] → t.split = .none) (r : Record)
    (built : Build) (hr : t.row.Pairwise Before) (hd : ∀ y ∈ t.row, y.1 = k.thread → y.2 < k.seq) :
    (t.writeRefused c e k (.record r) built).row.Pairwise Before ∧
      ∀ y ∈ (t.writeRefused c e k (.record r) built).row, y ∈ t.row ∨ y = k.pos := by
  have hflushed : Quiet False t.toOutput (t.flushedFirst c e).toOutput := flushedFirst_moves hT False.elim
  have hrow := (quiet_row hflushed).1
  unfold writeRefused
  dsimp only
  split
  · rename_i hempty
    have hstart : Alone k.pos t.toOutput (t.flushedFirst c e).toOutput := by
      refine alone_start hr hd hrow ?_
      rw [isEmpty_iff.mp hempty]
      simp
    have halone := hstart.moves (fun _ hu => Call.owns_call hu)
      (emitRefused_moves (p := False) (c := c) hT (flushedFirst_split hb) (hf.quiet hflushed) built)
    exact ⟨halone.ordered, halone.source⟩
  · rw [join_row]
    have hx : ∀ y ∈ calls (cells k.name r.text), y = k.pos := fun y hy => (some.inj (mem_calls_cells hy)).symm
    refine ⟨pairwise_append.mpr ⟨hr.sublist hrow, ?_, fun a ha b hb' hab => ?_⟩, fun y hy => ?_⟩
    · refine pairwise_of_forall_mem_list fun a ha b hb' _ => ?_
      rw [hx a ha, hx b hb']
    · rw [hx b hb'] at hab ⊢
      exact Nat.le_of_lt (hd a (hrow.subset ha) hab)
    · rcases mem_append.mp hy with hy | hy
      · exact Or.inl (hrow.subset hy)
      · exact Or.inr (hx y hy)

end Target

/-! ## Along the queue -/

def Message.calls : Message → List (Nat × Nat)
  | .job thread seq => [(thread, seq)]
  | _ => []

def Clear (a b : Message) : Prop := ∀ thread, a = .flush thread → b ≠ .flush thread ∧ ∀ seq, b ≠ .job thread seq

namespace Logger

def msgs (l : Logger) : List Message := l.hand.toList ++ l.queue

def trail (l : Logger) : List (Nat × Nat) := l.target.row ++ l.msgs.flatMap Message.calls

end Logger

/-- The calls stand in order along the trail, and a thread that writes itself has none in the queue. -/
structure InOrder (l : Logger) : Prop where
  sound : Sound l.target.toOutput
  ordered : l.trail.Pairwise Before
  below : ∀ y ∈ l.trail, y.2 < l.logged y.1
  handed : ∀ u ∈ l.target.handed, ∀ y, u.call = some y → y.2 < l.logged y.1
  fresh : ∀ y ∈ l.msgs.flatMap Message.calls, ∀ u ∈ l.target.handed, u.call ≠ some y
  distinct : (l.msgs.flatMap Message.calls).Nodup
  flushed : ∀ thread, .flush thread ∈ l.msgs → ∃ f, l.stage thread = .waiting f
  clear : l.msgs.Pairwise Clear
  writing : ∀ thread f, l.stage thread = .writing f → ∀ seq, .job thread seq ∉ l.msgs

theorem Moves.handed {p : Prop} {w : Name → Prop} {o o' : Output} {u : Name} (h : Moves p w o o') (hu : u ∈ o'.handed) :
    u ∈ o.handed ∨ u.ofCall = false ∨ w u := by
  refine h.invariant (P := fun a => ∀ u ∈ a.handed, u ∈ o.handed ∨ u.ofCall = false ∨ w u) ?_ (fun _ h => Or.inl h) u hu
  intro a b ha hm v hv
  rcases hm.handed hv with hv | hv
  · exact ha v hv
  · exact Or.inr hv

theorem Name.call_of_not {u : Name} (h : u.ofCall = false) : u.call = none := by
  cases u with
  | record _ _ => simp [Name.ofCall] at h
  | trailer _ _ => simp [Name.ofCall] at h
  | note _ => rfl
  | marker _ => rfl

theorem mem_jobs {ms : List Message} {y : Nat × Nat} : y ∈ ms.flatMap Message.calls ↔ .job y.1 y.2 ∈ ms := by
  rw [mem_flatMap]
  constructor
  · rintro ⟨m, hm, hy⟩
    cases m with
    | job thread seq =>
      obtain rfl : y = (thread, seq) := by simpa [Message.calls] using hy
      exact hm
    | flush thread => simp [Message.calls] at hy
    | wake => simp [Message.calls] at hy
  · intro hm
    exact ⟨_, hm, by simp [Message.calls]⟩

namespace InOrder

theorem quiet (h : InOrder l) (hq : Quiet False l.target.toOutput t.toOutput) : InOrder { l with target := t } := by
  have hrow := (quiet_row hq).1
  have htrail : (Logger.trail { l with target := t }).Sublist l.trail := hrow.append (List.Sublist.refl _)
  have hhanded : ∀ u ∈ t.handed, ∀ y, u.call = some y → u ∈ l.target.handed := by
    intro u hu y hy
    rcases hq.handed hu with hu | hu | hu
    · exact hu
    · rw [Name.call_of_not hu] at hy
      simp at hy
    · exact hu.elim
  exact ⟨h.sound.moves hq, h.ordered.sublist htrail, fun y hy => h.below y (htrail.subset hy),
    fun u hu y hy => h.handed u (hhanded u hu y hy) y hy, fun y hy u hu hc => h.fresh y hy u (hhanded u hu y hc) hc,
    h.distinct, h.flushed, h.clear, h.writing⟩

theorem setStage (h : InOrder l) {s : Stage} (hflush : .flush th ∈ l.msgs → ∃ f, s = .waiting f)
    (hwrite : ∀ f, s = .writing f → ∀ seq, .job th seq ∉ l.msgs) : InOrder (l.setStage th s) := by
  refine ⟨h.sound, h.ordered, h.below, h.handed, h.fresh, h.distinct, fun thread hm => ?_, h.clear, fun thread f hf => ?_⟩
  · by_cases hth : thread = th
    · subst hth
      simpa [Logger.setStage] using hflush hm
    · simpa [Logger.setStage, hth] using h.flushed thread hm
  · by_cases hth : thread = th
    · subst hth
      exact hwrite f (by simpa [Logger.setStage] using hf)
    · exact h.writing thread f (by simpa [Logger.setStage, hth] using hf)

theorem setStage_plain (h : InOrder l) {s : Stage} (hno : ∀ f, l.stage th ≠ .waiting f) (hs : ∀ f, s ≠ .writing f) :
    InOrder (l.setStage th s) := by
  refine h.setStage (fun hm => ?_) fun f hf => absurd hf (hs f)
  obtain ⟨f, hf⟩ := h.flushed th hm
  exact absurd hf (hno f)

theorem dropHand {m : Message} (h : InOrder l) (hm : l.hand = some m) : InOrder { l with hand := none } := by
  have hmsgs : l.msgs = m :: l.queue := by simp [Logger.msgs, hm]
  have hrest : Logger.msgs { l with hand := none } = l.queue := rfl
  have hjobs : (l.queue.flatMap Message.calls).Sublist (l.msgs.flatMap Message.calls) := by
    rw [hmsgs, flatMap_cons]
    exact sublist_append_right _ _
  have htrail : (Logger.trail { l with hand := none }).Sublist l.trail := List.Sublist.append (List.Sublist.refl _) hjobs
  have hsub : l.queue.Sublist l.msgs := by
    rw [hmsgs]
    exact sublist_cons_self _ _
  exact ⟨h.sound, h.ordered.sublist htrail, fun y hy => h.below y (htrail.subset hy), h.handed,
    fun y hy => h.fresh y (hjobs.subset hy), h.distinct.sublist hjobs, fun thread hf => h.flushed thread (hsub.subset hf),
    h.clear.sublist hsub, fun thread f hf seq hj => h.writing thread f hf seq (hsub.subset hj)⟩

theorem enqueue_plain (h : InOrder l) {m : Message} (hm : m.calls = [])
    (hflush : ∀ thread, m = .flush thread → (∃ f, l.stage thread = .waiting f) ∧ .flush thread ∉ l.msgs) :
    InOrder (l.enqueue m) := by
  have hmsgs : (l.enqueue m).msgs = l.msgs ++ [m] := (append_assoc _ _ _).symm
  have hjobs : (l.enqueue m).msgs.flatMap Message.calls = l.msgs.flatMap Message.calls := by
    rw [hmsgs, flatMap_append, flatMap_singleton, hm, append_nil]
  have htrail : (l.enqueue m).trail = l.trail := by
    rw [Logger.trail, Logger.trail, hjobs]
    rfl
  have hjob : ∀ thread seq, m ≠ .job thread seq := by
    rintro thread seq rfl
    simp [Message.calls] at hm
  refine ⟨h.sound, by rw [htrail]; exact h.ordered, by rw [htrail]; exact h.below, h.handed, by rw [hjobs]; exact h.fresh,
    by rw [hjobs]; exact h.distinct, fun thread hf => ?_, ?_, fun thread f hf seq hj => ?_⟩
  · rw [hmsgs] at hf
    rcases mem_append.mp hf with hf | hf
    · exact h.flushed thread hf
    · exact (hflush thread (mem_singleton.mp hf).symm).1
  · rw [hmsgs, pairwise_append]
    refine ⟨h.clear, pairwise_singleton _ _, fun a ha b hb thread hat => ?_⟩
    obtain rfl := mem_singleton.mp hb
    refine ⟨fun hbt => ?_, fun seq => hjob thread seq⟩
    rw [hat] at ha
    exact (hflush thread hbt).2 ha
  · rw [hmsgs] at hj
    rcases mem_append.mp hj with hj | hj
    · exact h.writing thread f hf seq hj
    · exact hjob thread seq (mem_singleton.mp hj).symm

theorem enqueue_job (h : InOrder l) (hs : l.stage th = .sending) :
    InOrder (((l.setStage th .idle).next th).enqueue (.job th (l.logged th))) := by
  have hplain : InOrder (l.setStage th .idle) := h.setStage_plain (by simp [hs]) (by simp)
  have hmsgs : (((l.setStage th .idle).next th).enqueue (.job th (l.logged th))).msgs = l.msgs ++ [.job th (l.logged th)] :=
    (append_assoc _ _ _).symm
  have hjobs : (((l.setStage th .idle).next th).enqueue (.job th (l.logged th))).msgs.flatMap Message.calls =
      l.msgs.flatMap Message.calls ++ [(th, l.logged th)] := by
    rw [hmsgs, flatMap_append]
    rfl
  have htrail : (((l.setStage th .idle).next th).enqueue (.job th (l.logged th))).trail = l.trail ++ [(th, l.logged th)] := by
    rw [Logger.trail, hjobs, ← append_assoc]
    rfl
  have hlogged : ∀ y : Nat × Nat, y.2 < l.logged y.1 →
      y.2 < (((l.setStage th .idle).next th).enqueue (.job th (l.logged th))).logged y.1 := by
    intro y hy
    by_cases hth : y.1 = th
    · simp only [Logger.enqueue, Logger.next, Logger.setStage, hth, Function.update_self]
      rw [hth] at hy
      omega
    · simpa [Logger.enqueue, Logger.next, Logger.setStage, hth] using hy
  refine ⟨h.sound, ?_, ?_, fun u hu y hy => hlogged y (h.handed u hu y hy), ?_, ?_, fun thread hf => ?_, ?_,
    fun thread f hf seq hj => ?_⟩
  · rw [htrail, pairwise_append]
    refine ⟨h.ordered, pairwise_singleton _ _, fun a ha b hb hab => ?_⟩
    obtain rfl := mem_singleton.mp hb
    have := h.below a ha
    rw [hab] at this
    exact Nat.le_of_lt this
  · intro y hy
    rw [htrail] at hy
    rcases mem_append.mp hy with hy | hy
    · exact hlogged y (h.below y hy)
    · obtain rfl := mem_singleton.mp hy
      simp [Logger.enqueue, Logger.next, Logger.setStage]
  · intro y hy u hu hc
    rw [hjobs] at hy
    rcases mem_append.mp hy with hy | hy
    · exact h.fresh y hy u hu hc
    · obtain rfl := mem_singleton.mp hy
      exact Nat.lt_irrefl _ (h.handed u hu _ hc)
  · rw [hjobs, nodup_append]
    refine ⟨h.distinct, nodup_singleton _, fun a ha b hb hab => ?_⟩
    obtain rfl := mem_singleton.mp hb
    have := h.below a (mem_append_right _ ha)
    rw [hab] at this
    exact Nat.lt_irrefl _ this
  · rw [hmsgs] at hf
    rcases mem_append.mp hf with hf | hf
    · exact hplain.flushed thread hf
    · simp at hf
  · rw [hmsgs, pairwise_append]
    refine ⟨h.clear, pairwise_singleton _ _, fun a ha b hb thread hat => ?_⟩
    obtain rfl := mem_singleton.mp hb
    refine ⟨by simp, fun seq hseq => ?_⟩
    obtain ⟨rfl, _⟩ := Message.job.inj hseq
    rw [hat] at ha
    obtain ⟨f, hf⟩ := h.flushed th ha
    rw [hs] at hf
    exact Stage.noConfusion hf
  · rw [hmsgs] at hj
    have hne : thread ≠ th := by
      rintro rfl
      simp [Logger.enqueue, Logger.next, Logger.setStage] at hf
    rcases mem_append.mp hj with hj | hj
    · exact hplain.writing thread f hf seq hj
    · simp only [mem_singleton, Message.job.injEq] at hj
      exact hne hj.1

theorem handleJob {seq : Nat} {g : Logged} {first second : Build} {oom : Bool} (h : InOrder l) (hT : e.Transient)
    (hm : l.hand = some (.job th seq)) (hfit : Logger.fits l.target first second oom = true) :
    InOrder { l with hand := none, target := l.target.job c e (g.call th seq) first second oom } := by
  have hdrop := h.dropHand hm
  have hmsgs : l.msgs.flatMap Message.calls = (th, seq) :: l.queue.flatMap Message.calls := by
    simp [Logger.msgs, hm, Message.calls]
  have hpos : (th, seq) ∈ l.msgs.flatMap Message.calls := by
    rw [hmsgs]
    exact mem_cons_self
  have hf : l.target.Fresh (g.call th seq) :=
    ⟨fun hu => h.fresh _ hpos _ hu rfl, fun hu => h.fresh _ hpos _ hu rfl⟩
  have hmoves : Moves False (g.call th seq).owns l.target.toOutput (l.target.job c e (g.call th seq) first second oom).toOutput :=
    Target.job_moves hT hf h.sound.split_none first second oom False.elim
  obtain ⟨xs, hxs, hrow⟩ := Target.job_row (k := g.call th seq) (c := c) hT hfit
  have hord := h.ordered
  rw [Logger.trail, hmsgs, pairwise_append, pairwise_cons] at hord
  obtain ⟨hold, ⟨hhead, hqueue⟩, hcross⟩ := hord
  have hsource : ∀ y ∈ (l.target.job c e (g.call th seq) first second oom).row, y ∈ l.target.row ∨ y = (th, seq) := by
    intro y hy
    rcases mem_append.mp (hrow.subset hy) with hy | hy
    · exact Or.inl hy
    · exact Or.inr (hxs y hy)
  have hhanded : ∀ u ∈ (l.target.job c e (g.call th seq) first second oom).handed, ∀ y, u.call = some y →
      u ∈ l.target.handed ∨ y = (th, seq) := by
    intro u hu y hy
    rcases hmoves.handed hu with hu | hu | hu
    · exact Or.inl hu
    · rw [Name.call_of_not hu] at hy
      simp at hy
    · rw [Call.owns_call hu] at hy
      exact Or.inr (some.inj hy).symm
  refine ⟨h.sound.moves hmoves, ?_, fun y hy => ?_, fun u hu y hy => ?_, fun y hy u hu hc => ?_, hdrop.distinct,
    hdrop.flushed, hdrop.clear, hdrop.writing⟩
  · refine pairwise_append.mpr ⟨?_, hqueue, fun a ha b hb => ?_⟩
    · refine List.Pairwise.sublist hrow (pairwise_append.mpr ⟨hold, ?_, fun a ha b hb => ?_⟩)
      · refine pairwise_of_forall_mem_list fun a ha b hb _ => ?_
        rw [hxs a ha, hxs b hb]
      · rw [hxs b hb]
        exact hcross a ha _ mem_cons_self
    · rcases hsource a ha with ha | rfl
      · exact hcross a ha b (mem_cons_of_mem _ hb)
      · exact hhead b hb
  · rcases mem_append.mp hy with hy | hy
    · rcases hsource y hy with hy | rfl
      · exact h.below y (mem_append_left _ hy)
      · exact h.below _ (mem_append_right _ hpos)
    · exact hdrop.below y (mem_append_right _ hy)
  · rcases hhanded u hu y hy with hu | rfl
    · exact h.handed u hu y hy
    · exact h.below _ (mem_append_right _ hpos)
  · rcases hhanded u hu y hc with hu | rfl
    · exact hdrop.fresh y hy u hu hc
    · have := h.distinct
      rw [hmsgs] at this
      exact (nodup_cons.mp this).1 hy

theorem written {f : Fallback} (h : InOrder l) (hs : l.stage th = .writing f) (hsound : Sound t.toOutput)
    (hord : t.row.Pairwise Before) (hsource : ∀ y ∈ t.row, y ∈ l.target.row ∨ y = (th, l.logged th))
    (hhanded : ∀ u ∈ t.handed, ∀ y, u.call = some y → u ∈ l.target.handed ∨ y = (th, l.logged th)) :
    InOrder { (l.setStage th .waking).next th with target := t } := by
  have hplain : InOrder (l.setStage th .waking) := h.setStage_plain (by simp [hs]) (by simp)
  have hnone : ∀ y ∈ l.msgs.flatMap Message.calls, y.1 ≠ th := by
    intro y hy hyt
    exact h.writing th f hs y.2 (hyt ▸ mem_jobs.mp hy)
  have hlogged : ∀ y : Nat × Nat, y.2 < l.logged y.1 → y.2 < ((l.setStage th .waking).next th).logged y.1 := by
    intro y hy
    by_cases hth : y.1 = th
    · simp only [Logger.next, Logger.setStage, hth, Function.update_self]
      rw [hth] at hy
      omega
    · simpa [Logger.next, Logger.setStage, hth] using hy
  have hself : l.logged th < ((l.setStage th .waking).next th).logged th := by simp [Logger.next, Logger.setStage]
  have hwrite : ∀ thread f', ((l.setStage th .waking).next th).stage thread = .writing f' → ∀ seq, .job thread seq ∉ l.msgs :=
    hplain.writing
  refine ⟨hsound, ?_, fun y hy => ?_, fun u hu y hy => ?_, fun y hy u hu hc => ?_, h.distinct, hplain.flushed, h.clear, hwrite⟩
  · refine pairwise_append.mpr ⟨hord, (pairwise_append.mp h.ordered).2.1, fun a ha b hb => ?_⟩
    rcases hsource a ha with ha | rfl
    · exact (pairwise_append.mp h.ordered).2.2 a ha b hb
    · exact fun hab => absurd hab.symm (hnone b hb)
  · rcases mem_append.mp hy with hy | hy
    · rcases hsource y hy with hy | rfl
      · exact hlogged y (h.below y (mem_append_left _ hy))
      · exact hself
    · exact hlogged y (h.below y (mem_append_right _ hy))
  · rcases hhanded u hu y hy with hu | rfl
    · exact hlogged y (h.handed u hu y hy)
    · exact hself
  · rcases hhanded u hu y hc with hu | rfl
    · exact h.fresh y hy u hu hc
    · exact hnone _ hy rfl

end InOrder

/-! ## Runs -/

namespace InOrder

theorem opened (before : List UInt8) : InOrder (.opened before) := by
  have hcalls : calls (Target.opened before).live = [] := by
    simp only [calls, filterMap_eq_nil_iff]
    intro x hx
    simp [opened_part hx]
  have htrail : (Logger.opened before).trail = [] := by
    have hrow : (Target.opened before).row = [] := by
      simp only [Output.row, Output.disk, calls_append, hcalls]
      rfl
    exact (congrArg (· ++ []) hrow).trans (append_nil _)
  refine ⟨sound_opened before, by simp [htrail], by simp [htrail], ?_, ?_, ?_, ?_, ?_, ?_⟩
  · intro u hu
    exact absurd hu (not_mem_nil)
  · intro y hy
    exact absurd hy (not_mem_nil)
  · exact nodup_nil
  · intro thread hm
    exact absurd hm (not_mem_nil)
  · exact List.Pairwise.nil
  · intro thread f hf
    exact Stage.noConfusion hf

theorem handleMessage {m : Message} {g : Logged} {first second : Build} {oom : Bool} (h : InOrder l) (hT : e.Transient)
    (hm : l.hand = some m) (hs : l.handleMessage c e m g first second oom = some l') : InOrder l' := by
  have hdrop := h.dropHand hm
  have hflush := hdrop.quiet (Target.writerFlushBuffer_quiet (c := c) (t := l.target) hT)
  unfold Logger.handleMessage at hs
  cases m with
  | job thread seq =>
    dsimp only at hs
    split at hs
    · rename_i hfit
      obtain rfl := some.inj hs
      exact h.handleJob hT hm hfit
    · exact absurd hs (by simp)
  | flush thread =>
    dsimp only at hs
    split at hs
    · obtain rfl := some.inj hs
      have hclear := h.clear
      rw [show l.msgs = .flush thread :: l.queue by simp [Logger.msgs, hm], pairwise_cons] at hclear
      refine hflush.setStage (fun hq => ?_) fun f _ seq hq => ?_
      · exact absurd rfl (hclear.1 _ hq thread rfl).1
      · exact absurd rfl ((hclear.1 _ hq thread rfl).2 seq)
    · obtain rfl := some.inj hs
      exact hflush
  | wake =>
    obtain rfl := some.inj hs
    exact hflush

theorem writeDirect {f : Fallback} {g : Logged} {joined built : Build} (h : InOrder l) (hT : e.Transient)
    (hf : l.stage th = .writing f) (hfree : f = .noEnvelope → Logger.batchFreeOf (l.target.settled c e) th = true)
    (hs : l.writeDirect c e th g joined built f = some l') : InOrder l' := by
  have hfresh : l.target.Fresh (g.call th (l.logged th)) :=
    ⟨fun hu => Nat.lt_irrefl _ (h.handed _ hu _ rfl), fun hu => Nat.lt_irrefl _ (h.handed _ hu _ rfl)⟩
  have hrow := (pairwise_append.mp h.ordered).1
  have hbelow : ∀ y ∈ l.target.row, y.1 = th → y.2 < l.logged th := by
    intro y hy hyt
    have := h.below y (mem_append_left _ hy)
    rwa [hyt] at this
  have hhanded : ∀ t' : Target, Moves False (g.call th (l.logged th)).owns l.target.toOutput t'.toOutput →
      ∀ u ∈ t'.handed, ∀ y, u.call = some y → u ∈ l.target.handed ∨ y = (th, l.logged th) := by
    intro t' hm u hu y hy
    rcases hm.handed hu with hu | hu | hu
    · exact Or.inl hu
    · rw [Name.call_of_not hu] at hy
      simp at hy
    · rw [Call.owns_call hu] at hy
      exact Or.inr (some.inj hy).symm
  unfold Logger.writeDirect at hs
  cases f with
  | noEnvelope =>
    obtain rfl := some.inj hs
    have hm := Target.writeSync_moves (p := False) (c := c) hT hfresh built False.elim
    have halone := Target.writeSync_alone hT hfresh built hrow hbelow (hfree rfl)
    exact h.written hf (h.sound.moves hm) halone.ordered halone.source (hhanded _ hm)
  | sendRefused =>
    cases joined with
    | record r =>
      obtain rfl := some.inj hs
      have hm := Target.writeRefused_moves (p := False) (c := c) hT hfresh h.sound.split_none (.record r) built False.elim
      obtain ⟨hord, hsource⟩ := Target.writeRefused_alone (c := c) hT hfresh h.sound.split_none r built
        hrow hbelow
      exact h.written hf (h.sound.moves hm) hord hsource (hhanded _ hm)
    | placeholder r => exact absurd hs (by simp)
    | failed => exact absurd hs (by simp)

theorem step (h : InOrder l) (hT : e.Transient) (hs : l.stepFree c e cap a = some l') : InOrder l' := by
  unfold Logger.stepFree at hs
  split at hs
  · rename_i hfree
    cases a with
    | log thread envelope =>
      simp only [Logger.step, ite_none_right_eq_some, some.injEq] at hs
      obtain ⟨hidle, rfl⟩ := hs
      refine h.setStage_plain (by simp [hidle]) fun f => ?_
      split
      · simp
      · simp
    | send thread =>
      simp only [Logger.step, ite_none_right_eq_some, some.injEq] at hs
      obtain ⟨hsend, rfl⟩ := hs
      exact h.enqueue_job hsend.1
    | refuse thread =>
      simp only [Logger.step, ite_none_right_eq_some, some.injEq] at hs
      obtain ⟨hsend, rfl⟩ := hs
      exact h.setStage_plain (by simp [hsend]) (by simp)
    | ask thread =>
      simp only [Logger.step] at hs
      split at hs
      · rename_i f hask
        simp only [ite_none_right_eq_some, some.injEq] at hs
        obtain ⟨_, rfl⟩ := hs
        have hno : .flush thread ∉ l.msgs := by
          intro hm
          obtain ⟨f', hf'⟩ := h.flushed thread hm
          rw [hask] at hf'
          exact Stage.noConfusion hf'
        refine (h.setStage_plain (s := .waiting f) (by simp [hask]) (by simp)).enqueue_plain rfl ?_
        rintro _ ⟨⟩
        exact ⟨⟨f, by simp [Logger.setStage]⟩, hno⟩
      · exact absurd hs (by simp)
    | write thread g joined built =>
      simp only [Logger.step] at hs
      split at hs
      · rename_i f hf
        refine h.writeDirect hT hf (fun hn => ?_) hs
        subst hn
        simpa [Logger.batchFree, hf] using hfree
      · exact absurd hs (by simp)
    | wake thread =>
      simp only [Logger.step, ite_none_right_eq_some, some.injEq] at hs
      obtain ⟨hwaking, rfl⟩ := hs
      have hplain : InOrder (l.setStage thread .idle) := h.setStage_plain (by simp [hwaking]) (by simp)
      split
      · exact hplain.enqueue_plain rfl (by simp)
      · exact hplain
    | take =>
      simp only [Logger.step] at hs
      split at hs
      · rename_i m queue hhand hqueue
        obtain rfl := some.inj hs
        have hmsgs : Logger.msgs { l with hand := some m, queue := queue } = l.msgs := by
          simp [Logger.msgs, hhand, hqueue]
        have htrail : Logger.trail { l with hand := some m, queue := queue } = l.trail := by
          rw [Logger.trail, hmsgs]
          rfl
        exact ⟨h.sound, by rw [htrail]; exact h.ordered, by rw [htrail]; exact h.below, h.handed,
          by rw [hmsgs]; exact h.fresh, by rw [hmsgs]; exact h.distinct, by rw [hmsgs]; exact h.flushed,
          by rw [hmsgs]; exact h.clear, by rw [hmsgs]; exact h.writing⟩
      · exact absurd hs (by simp)
    | handle g first second oom =>
      simp only [Logger.step] at hs
      split at hs
      · rename_i m hm
        exact h.handleMessage hT hm hs
      · exact absurd hs (by simp)
    | interval =>
      simp only [Logger.step, ite_none_right_eq_some, some.injEq] at hs
      obtain ⟨_, rfl⟩ := hs
      exact h.quiet (Target.writerFlushBuffer_quiet hT)
  · exact absurd hs (by simp)

end InOrder

end Ccollections.Clogger
