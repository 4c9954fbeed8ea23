import Ccollections.Clogger.Lemmas.Refine

/-!
# A flush makes moves
-/

namespace Ccollections.Clogger

open List

variable {p : Prop} {w : Name → Prop} {c : Config} {e : Env} {t : Target} {data : List Cell}

/-! ## Record ends -/

theorem untilRecordEnd_le : untilRecordEnd data ≤ data.length := by
  induction data with
  | nil => simp [untilRecordEnd]
  | cons a data ih =>
    unfold untilRecordEnd
    split
    · simp
    · simpa using ih

theorem untilRecordEnd_pos (h : data ≠ []) : 0 < untilRecordEnd data := by
  cases data with
  | nil => exact absurd rfl h
  | cons a data =>
    unfold untilRecordEnd
    split
    · exact Nat.one_pos
    · exact Nat.succ_pos _

theorem openAfter_append {l : List Cell} {n : Nat} (hn : 0 < n) (hd : data ≠ []) :
    openAfter (l ++ data) (l.length + n) = openAfter data n := by
  have htake : (l ++ data).take (l.length + n) = l ++ data.take n := by
    rw [take_append, take_of_length_le (Nat.le_add_right _ _), Nat.add_sub_cancel_left]
  have hne : data.take n ≠ [] := by
    intro h
    rcases take_eq_nil_iff.mp h with h | h
    · omega
    · exact hd h
  obtain ⟨a, ha⟩ := Option.ne_none_iff_exists'.mp (mt List.getLast?_eq_none_iff.mp hne)
  rw [openAfter, openAfter, htake, List.getLast?_append, ha]
  rfl

theorem splitAfter_recordEnd (h : untilRecordEnd data < data.length) : splitAfter data (untilRecordEnd data) = .none := by
  induction data with
  | nil => simp at h
  | cons a data ih =>
    unfold untilRecordEnd at h ⊢
    split
    · rename_i hend
      simp only [splitAfter, openAfter, take_succ_cons, take_zero, List.getLast?_singleton, Option.any_some,
        drop_succ_cons, drop_zero]
      have hcont : continues data = false := by simpa using hend.2
      simp [hend.1, hcont]
    · rename_i hend
      rw [if_neg hend] at h
      have hlt : untilRecordEnd data < data.length := by simpa using h
      have hne : data ≠ [] := by
        rintro rfl
        simp at hlt
      have hopen : openAfter (a :: data) (untilRecordEnd data + 1) = openAfter data (untilRecordEnd data) := by
        rw [Nat.add_comm]
        exact openAfter_append (l := [a]) (untilRecordEnd_pos hne) hne
      have := ih hlt
      simp only [splitAfter, drop_succ_cons] at this ⊢
      rwa [hopen]

theorem splitAfter_drop {i n : Nat} (hi : i < data.length) (hn : 0 < n) :
    splitAfter data (i + n) = splitAfter (data.drop i) n := by
  have hd : data.drop i ≠ [] := by
    intro h
    have := drop_eq_nil_iff.mp h
    omega
  have hopen := openAfter_append (l := data.take i) hn hd
  rw [take_append_drop, length_take, Nat.min_eq_left (Nat.le_of_lt hi)] at hopen
  simp only [splitAfter, hopen, drop_drop]

/-! ## Pieces -/

theorem Output.took_moves {o : Output} {n piece : Nat} (hn : n ≤ (o.asyncBuf.take piece).length) (hb : o.asyncBuf ≠ [])
    (hq : p → o.owesLine = false) :
    Moves p w o { o with
      live := o.live ++ (o.asyncBuf.take piece).take n
      asyncBuf := o.asyncBuf.drop n
      split := if o.asyncBuf.drop n = [] then .none else if n > 0 then splitAfter o.asyncBuf n else o.split } := by
  rw [length_take] at hn
  have htake : (o.asyncBuf.take piece).take n = o.asyncBuf.take n := by rw [take_take, Nat.min_eq_left (by omega)]
  rw [htake]
  rcases Nat.eq_zero_or_pos n with rfl | hpos
  · simp only [take_zero, append_nil, drop_zero, hb, if_false, Nat.lt_irrefl, gt_iff_lt]
    exact .refl
  · have hdrop : (o.asyncBuf.drop n = []) = (n = o.asyncBuf.length) := by
      rw [drop_eq_nil_iff]
      apply propext
      omega
    simp only [hdrop, gt_iff_lt, hpos, if_true]
    exact .single (.piece hq hpos (by omega))

namespace Target

theorem nextPiece_output : (t.nextPiece c e).1.toOutput = t.toOutput := by
  unfold nextPiece
  split
  · unfold backlogPiece
    dsimp only
    split
    · rfl
    · split_ifs
      · rfl
      · rfl
      · rfl
      · rfl
  · rfl

theorem nextPiece_size (hb : t.asyncBuf ≠ []) : 0 < (t.nextPiece c e).2 ∧ (t.nextPiece c e).2 ≤ t.asyncBuf.length ∧
    ((t.nextPiece c e).2 < t.asyncBuf.length → splitAfter t.asyncBuf (t.nextPiece c e).2 = .none) := by
  have hall : 0 < t.asyncBuf.length ∧ t.asyncBuf.length ≤ t.asyncBuf.length ∧
      (t.asyncBuf.length < t.asyncBuf.length → splitAfter t.asyncBuf t.asyncBuf.length = .none) :=
    ⟨length_pos_iff.mpr hb, Nat.le_refl _, fun h => absurd h (Nat.lt_irrefl _)⟩
  unfold nextPiece
  split
  · unfold backlogPiece
    dsimp only
    split
    · exact hall
    · rename_i size _
      split_ifs with h₁ h₂ h₃
      · exact hall
      · have hlt : size - t.bytesWritten - 1 < t.asyncBuf.length := by omega
        have hd : t.asyncBuf.drop (size - t.bytesWritten - 1) ≠ [] := by
          intro h
          have := drop_eq_nil_iff.mp h
          omega
        have hpos := untilRecordEnd_pos hd
        have hle : untilRecordEnd (t.asyncBuf.drop (size - t.bytesWritten - 1)) ≤ _ := untilRecordEnd_le
        rw [length_drop] at hle
        dsimp only
        refine ⟨by omega, by omega, fun h => ?_⟩
        rw [splitAfter_drop hlt hpos]
        apply splitAfter_recordEnd
        rw [length_drop]
        omega
      · exact ⟨untilRecordEnd_pos hb, untilRecordEnd_le, splitAfter_recordEnd⟩
      · exact hall
  · exact hall

theorem writePiece_err (hT : e.Transient) : (t.writePiece c e).2.2.1.isTransient = true := writeErrno_transient hT _ _

theorem writePiece_moves (hb : t.asyncBuf ≠ []) (hq : p → t.owesLine = false) :
    Moves p w t.toOutput { (t.writePiece c e).1.toOutput with
      split := if (t.writePiece c e).1.asyncBuf = [] then .none else (t.writePiece c e).2.1 } := by
  have hout := nextPiece_output (t := t) (c := c) (e := e)
  rw [← hout] at hb hq ⊢
  exact Output.took_moves (Nat.min_le_right _ _) hb hq

theorem writePiece_whole (hb : t.asyncBuf ≠ []) (h : (t.writePiece c e).2.2.2 = true)
    (hrest : (t.writePiece c e).1.asyncBuf ≠ []) : (t.writePiece c e).2.1 = .none := by
  obtain ⟨hpos, hle, hend⟩ := nextPiece_size (c := c) (e := e) hb
  have hout : (t.nextPiece c e).1.asyncBuf = t.asyncBuf := congrArg Output.asyncBuf nextPiece_output
  simp only [writePiece, writeAll, hout, decide_eq_true_eq] at h hrest ⊢
  rw [h] at hrest ⊢
  have hlt : (t.nextPiece c e).2 < t.asyncBuf.length := by
    rcases Nat.lt_or_ge (t.nextPiece c e).2 t.asyncBuf.length with hlt | hge
    · exact hlt
    · exact absurd (drop_eq_nil_of_le hge) hrest
  rw [if_pos hpos]
  exact hend hlt

theorem writePieces_err (hT : e.Transient) (fuel : Nat) : (t.writePieces c e fuel).2.2.isTransient = true := by
  induction fuel generalizing t with
  | zero => rfl
  | succ fuel ih =>
    unfold writePieces
    dsimp only
    split
    · exact writePiece_err hT
    · exact ih

theorem writePieces_moves (hT : e.Transient) (fuel : Nat) (hb : t.asyncBuf ≠ [])
    (hq : p → t.owesLine = false ∧ t.piecesAsked c e fuel = true) :
    Moves p w t.toOutput { (t.writePieces c e fuel).1.toOutput with
      split := if (t.writePieces c e fuel).1.asyncBuf = [] then .none else (t.writePieces c e fuel).2.1 } := by
  induction fuel generalizing t with
  | zero =>
    simp only [writePieces, hb, if_false]
    exact .refl
  | succ fuel ih =>
    have hpiece := writePiece_moves (w := w) (c := c) (e := e) hb fun h => (hq h).1
    unfold writePieces
    dsimp only
    split
    · exact hpiece
    · rename_i hgo
      simp only [Bool.or_eq_true, Bool.not_eq_true', List.isEmpty_iff, not_or, Bool.not_eq_false] at hgo
      rw [if_neg hgo.2, writePiece_whole hb hgo.1 hgo.2] at hpiece
      have hframe := sizeRotateIfDue_frame (t := { (t.writePiece c e).1 with split := .none }) (c := c) (e := e)
      refine (hpiece.trans (sizeRotateIfDue_moves (t := { (t.writePiece c e).1 with split := .none }) hT)).trans (ih ?_ ?_)
      · rw [hframe.2]
        exact hgo.2
      · intro h
        have := (hq h).2
        unfold piecesAsked at this
        simpa [hgo.1, hgo.2] using this

/-! ## A flush -/

theorem repairSplitRecord_moves (hT : e.Transient) (hs : t.split ≠ .none) :
    Moves p w t.toOutput (t.repairSplitRecord c e).toOutput :=
  reportLoss_moves hT (.single (.repaired hs)) _ _ _

theorem repairSplitRecord_split : (t.repairSplitRecord c e).split = .none := reportLoss_split ..

theorem noteDroppedBatch_moves (hT : e.Transient) (hs : t.split = .none) (why : List UInt8) (err : WriteError) :
    Moves p w t.toOutput (t.noteDroppedBatch c e .none why err).toOutput := by
  have h : Moves p w t.toOutput ({ t.toOutput with asyncBuf := [] }.lose false (recordLines true t.asyncBuf)
      (finished t.asyncBuf)) := .single (.dropped hs)
  unfold noteDroppedBatch
  simp only [reduceCtorEq, if_false, Nat.zero_add, decide_false]
  refine reportLoss_moves hT ?_ _ _ _
  simpa [hs] using h

theorem flushStart_moves (hT : e.Transient) : Moves p w t.toOutput (t.flushStart c e).1.toOutput := by
  unfold flushStart
  dsimp only
  split
  · exact (timeRotateIfDue_moves hT).trans (payOwed_moves hT)
  · exact timeRotateIfDue_moves hT

theorem flushStart_frame : (t.flushStart c e).1.split = t.split ∧ (t.flushStart c e).1.asyncBuf = t.asyncBuf := by
  unfold flushStart
  dsimp only
  split
  · exact ⟨payOwed_split.trans timeRotateIfDue_frame.1, payOwed_asyncBuf.trans timeRotateIfDue_frame.2⟩
  · exact timeRotateIfDue_frame

theorem flushStart_true (h : (t.flushStart c e).2 = true) : (t.flushStart c e).1.owesLine = false := by
  revert h
  unfold flushStart
  dsimp only
  split
  · exact payOwed_true
  · rename_i h
    intro _
    simp [Output.owesLine, h]

theorem flushRest_moves (hT : e.Transient) (split : Split) {err : WriteError} (herr : err.isTransient = true) :
    (t.flushRest c e split err).2 = true ∧
      Moves p w { t.toOutput with split := split } (t.flushRest c e split err).1.toOutput := by
  unfold flushRest
  rw [if_pos herr]
  dsimp only
  split
  · rename_i h
    refine ⟨rfl, ?_⟩
    split
    · exact (repairSplitRecord_moves (t := { t with split := split, retainErr := err }.asked) hT h.1).trans
        (timeRotateIfDue_moves hT)
    · exact .refl
  · exact ⟨rfl, .refl⟩

theorem flushAttempt_moves (hT : e.Transient) (hb : t.asyncBuf ≠ []) (hq : p → t.passAsked c e = true) :
    Moves p w t.toOutput (if (t.flushAttempt c e).2 then (t.flushAttempt c e).1.toOutput
      else { (t.flushAttempt c e).1.toOutput with asyncBuf := [], split := .none }) := by
  have hstart := flushStart_moves (p := p) (w := w) (c := c) (t := t) hT
  have hframe := flushStart_frame (t := t) (c := c) (e := e)
  have htrue := flushStart_true (t := t) (c := c) (e := e)
  unfold passAsked at hq
  unfold flushAttempt
  revert hstart hframe htrue hq
  generalize t.flushStart c e = r
  obtain ⟨t', ok⟩ := r
  intro hq hstart hframe htrue
  cases ok with
  | false => exact hstart
  | true =>
    have hb' : t'.asyncBuf ≠ [] := by
      rw [hframe.2]
      exact hb
    have hpieces := writePieces_moves (p := p) (w := w) (c := c) hT t'.asyncBuf.length hb' fun h =>
      ⟨htrue rfl, by simpa [hb] using hq h⟩
    have herr := writePieces_err (t := t') (c := c) hT t'.asyncBuf.length
    dsimp only
    by_cases hempty : (t'.writePieces c e t'.asyncBuf.length).1.asyncBuf = []
    · rw [if_pos hempty] at hpieces
      simp only [hempty, List.isEmpty_nil, if_true, Bool.false_eq_true, if_false]
      dsimp only at hpieces
      rw [hempty] at hpieces
      exact hstart.trans hpieces
    · rw [if_neg hempty] at hpieces
      obtain ⟨hkept, hrest⟩ := flushRest_moves (p := p) (w := w) (c := c)
        (t := (t'.writePieces c e t'.asyncBuf.length).1) hT (t'.writePieces c e t'.asyncBuf.length).2.1 herr
      simp only [List.isEmpty_iff, hempty, if_false, hkept, if_true]
      exact (hstart.trans hpieces).trans hrest

theorem flushPass_moves (hT : e.Transient) (hq : p → t.passAsked c e = true) :
    Moves p w t.toOutput (t.flushPass c e).1.toOutput := by
  unfold flushPass
  split
  · split
    · exact payOwed_moves hT
    · exact .refl
  · rename_i hb
    rw [List.isEmpty_iff] at hb
    have h := flushAttempt_moves (p := p) (w := w) hT hb hq
    dsimp only
    refine Moves.trans ?_ (sizeRotateIfDue_moves hT)
    split
    · rename_i hkept
      rwa [if_pos hkept] at h
    · rename_i hkept
      rwa [if_neg hkept] at h

theorem writerFlushBuffer_moves (hT : e.Transient) (hq : p → t.flushAsked c e = true) :
    Moves p w t.toOutput (t.writerFlushBuffer c e).toOutput := by
  have hpass := flushPass_moves (p := p) (w := w) (c := c) (t := t) hT fun h => by
    have := hq h
    simp only [flushAsked, Bool.and_eq_true] at this
    exact this.1
  unfold writerFlushBuffer
  dsimp only
  split
  · rename_i hagain
    refine hpass.trans (flushPass_moves hT fun h => ?_)
    have := hq h
    simp only [flushAsked, Bool.and_eq_true, hagain, Bool.not_true, Bool.false_or] at this
    exact this.2
  · exact hpass

theorem giveUpSplit_split : (t.giveUpSplit c e).split = .none := by
  unfold giveUpSplit
  split
  · exact repairSplitRecord_split
  · rename_i hs
    exact not_not.mp hs

theorem giveUpSplit_moves (hT : e.Transient) : Moves p w t.toOutput (t.giveUpSplit c e).toOutput := by
  unfold giveUpSplit
  split
  · rename_i hs
    exact repairSplitRecord_moves hT hs
  · exact .refl

theorem settleAfterFlush_split : (t.settleAfterFlush c e).split = .none := by
  unfold settleAfterFlush
  dsimp only
  split
  · exact payOwed_split.trans giveUpSplit_split
  · exact giveUpSplit_split

theorem settleAfterFlush_moves (hT : e.Transient) : Moves p w t.toOutput (t.settleAfterFlush c e).toOutput := by
  unfold settleAfterFlush
  dsimp only
  split
  · exact (giveUpSplit_moves hT).trans (payOwed_moves hT)
  · exact giveUpSplit_moves hT

theorem flushAndSettle_split : (t.flushAndSettle c e).split = .none := settleAfterFlush_split

theorem flushAndSettle_moves (hT : e.Transient) (hq : p → t.flushAsked c e = true) :
    Moves p w t.toOutput (t.flushAndSettle c e).toOutput :=
  (writerFlushBuffer_moves hT hq).trans (settleAfterFlush_moves hT)

theorem dropUndelivered_moves (hT : e.Transient) (hs : t.split = .none) (why : List UInt8) :
    Moves p w t.toOutput (t.dropUndelivered c e why).toOutput := by
  unfold dropUndelivered
  split
  · exact .refl
  · exact noteDroppedBatch_moves hT hs _ _

end Target

/-!
# A section makes moves
-/

open List

variable {p : Prop} {w : Name → Prop} {c : Config} {e : Env} {t : Target} {k : Call}

/-! ## Names stay new -/

theorem Move.handed {o o' : Output} {u : Name} (h : Move p w o o') (hu : u ∈ o'.handed) :
    u ∈ o.handed ∨ u.ofCall = false ∨ w u := by
  have hnew : ∀ v, o.New w v → u ∈ v :: o.handed → u ∈ o.handed ∨ u.ofCall = false ∨ w u := by
    intro v hv hm
    rcases mem_cons.mp hm with rfl | hm
    · rcases hv with rfl | hv
      · exact Or.inr (Or.inl rfl)
      · exact Or.inr (Or.inr hv.2.1)
    · exact Or.inl hm
  cases h with
  | unit _ _ hv _ => exact hnew _ hv hu
  | unitCut _ _ hv _ _ => exact hnew _ hv hu
  | refused _ hv => exact hnew _ hv hu
  | joined _ hv _ => exact hnew _ hv hu
  | _ => exact Or.inl hu

theorem Moves.notMem_handed {o o' : Output} {u : Name} (h : Moves p w o o') (hc : u.ofCall = true) (hw : ¬w u)
    (hu : u ∉ o.handed) : u ∉ o'.handed := by
  refine h.invariant (P := fun o => u ∉ o.handed) ?_ hu
  intro a b ha hm hb
  rcases hm.handed hb with h | h | h
  · exact ha h
  · rw [hc] at h
    exact Bool.noConfusion h
  · exact hw h

theorem Move.mono {v : Name → Prop} (hwv : ∀ u, w u → v u) {o o' : Output} (h : Move p w o o') : Move p v o o' := by
  have hnew : ∀ {o : Output} {u : Name}, o.New w u → o.New v u := by
    intro o u hu
    rcases hu with hu | hu
    · exact Or.inl hu
    · exact Or.inr ⟨hu.1, hwv u hu.2.1, hu.2.2⟩
  cases h with
  | cleared hl hn => exact .cleared hl hn
  | paid hs ho ht => exact .paid hs ho ht
  | paidPartly hs ho ht hn => exact .paidPartly hs ho ht hn
  | unit hs hq hu ht => exact .unit hs hq (hnew hu) ht
  | unitCut hs hq hu ht hn => exact .unitCut hs hq (hnew hu) ht hn
  | refused hs hu => exact .refused hs (hnew hu)
  | newLive hs => exact .newLive hs
  | retired l r hf => exact .retired l r hf
  | piece hq hn hle => exact .piece hq hn hle
  | repaired hs => exact .repaired hs
  | dropped hs => exact .dropped hs
  | joined r hu hs => exact .joined r (hnew hu) hs

theorem Moves.mono {v : Name → Prop} (hwv : ∀ u, w u → v u) {o o' : Output} (h : Moves p w o o') : Moves p v o o' := by
  induction h with
  | refl => exact .refl
  | tail _ hm ih => exact ih.trans (.single (hm.mono hwv))

abbrev Quiet (p : Prop) : Output → Output → Prop := Moves p fun _ => False

theorem Moves.quiet {o o' : Output} (h : Quiet p o o') : Moves p w o o' := h.mono fun _ => False.elim

def Call.owns (k : Call) (u : Name) : Prop := u = .record k.thread k.seq ∨ u = .trailer k.thread k.seq

def Output.Fresh (o : Output) (k : Call) : Prop :=
  Name.record k.thread k.seq ∉ o.handed ∧ Name.trailer k.thread k.seq ∉ o.handed

theorem Output.Fresh.quiet {o o' : Output} (hf : o.Fresh k) (h : Quiet p o o') : o'.Fresh k :=
  ⟨h.notMem_handed rfl id hf.1, h.notMem_handed rfl id hf.2⟩

theorem Output.Fresh.newRecord {o : Output} (hf : o.Fresh k) : o.New k.owns k.name := Or.inr ⟨rfl, Or.inl rfl, hf.1⟩

namespace Target

/-! ## A write straight to the descriptor -/

theorem writeUnrepresentable_moves (hT : e.Transient) (hs : t.split = .none) (hf : t.Fresh k) (level : ClogLevel)
    (withBacktrace : Bool) :
    Moves p k.owns t.toOutput (t.writeUnrepresentable c e k.thread k.seq level withBacktrace).toOutput := by
  have hrecord : Moves p (.record k.thread k.seq = ·) t.toOutput
      (t.writeRecord c e (.record k.thread k.seq) (unrepresentableText c.format level withBacktrace)).toOutput :=
    writeRecord_moves hT hs (Or.inr ⟨rfl, rfl, hf.1⟩) (unrepresentableText_closed ..)
  have hrecord' := hrecord.mono (v := k.owns) fun u hu => Or.inl hu.symm
  unfold writeUnrepresentable
  dsimp only
  split
  · exact hrecord'
  · split
    · have hs' := (writeRecord_frame (c := c) (e := e) (.record k.thread k.seq)
        (unrepresentableText c.format level withBacktrace)).1.trans hs
      have hnew := hrecord.notMem_handed (u := .trailer k.thread k.seq) rfl (by simp) hf.2
      exact hrecord'.trans (writeRecord_moves hT hs' (Or.inr ⟨rfl, Or.inr rfl, hnew⟩) rfl)
    · exact hrecord'

theorem emit_moves (hT : e.Transient) (hs : t.split = .none) (hf : t.Fresh k) (built : Build) :
    Moves p k.owns t.toOutput (t.emit c e k built).toOutput := by
  cases built with
  | record r => exact writeRecord_moves hT hs hf.newRecord r.text_closed
  | placeholder r => exact writeRecord_moves hT hs hf.newRecord r.text_closed
  | failed => exact writeUnrepresentable_moves hT hs hf _ _

theorem join_moves (hf : t.Fresh k) (hs : t.asyncBuf = [] → t.split = .none) (r : Record) :
    Moves p k.owns t.toOutput (t.join k.name r).toOutput := .single (.joined r hf.newRecord hs)

/-! ## Sections -/

theorem settled_split : (t.settled c e).split = .none := by
  unfold settled
  split
  · exact flushAndSettle_split
  · rename_i h
    simp only [not_or, not_not] at h
    exact h.1

theorem settled_moves (hT : e.Transient) (hq : p → (t.split = .none && !t.owedRepair || t.flushAsked c e) = true) :
    Moves p w t.toOutput (t.settled c e).toOutput := by
  unfold settled
  split
  · rename_i h
    refine flushAndSettle_moves hT fun hp => ?_
    have := hq hp
    rcases h with h | h
    · simpa [h] using this
    · simpa [h] using this
  · exact .refl

theorem writeSync_moves (hT : e.Transient) (hf : t.Fresh k) (built : Build)
    (hq : p → t.runAsked c e (.writeSync k built) = true) :
    Moves p k.owns t.toOutput (t.writeSync c e k built).toOutput := by
  have hsettled : Quiet p t.toOutput ((t.settled c e).timeRotateIfDue c e).toOutput :=
    (settled_moves hT hq).trans (timeRotateIfDue_moves hT)
  have hs : ((t.settled c e).timeRotateIfDue c e).split = .none := timeRotateIfDue_frame.1.trans settled_split
  exact (hsettled.quiet.trans (emit_moves hT hs (hf.quiet hsettled) built)).trans (sizeRotateIfDue_moves hT)

theorem retryJob_moves (hT : e.Transient) (hf : t.Fresh k) (built : Build) (oom : Bool)
    (hq : p → t.flushAsked c e = true) : Moves p k.owns t.toOutput (t.retryJob c e k built oom).toOutput := by
  have hsettled : Quiet p t.toOutput (t.flushAndSettle c e).toOutput := flushAndSettle_moves hT hq
  have hs : (t.flushAndSettle c e).split = .none := flushAndSettle_split
  have hf' := hf.quiet hsettled
  unfold retryJob
  dsimp only
  cases built with
  | record r => exact hsettled.quiet.trans (join_moves hf' (fun _ => hs) r)
  | placeholder r =>
    dsimp only
    split
    · exact hsettled.quiet.trans (join_moves hf' (fun _ => hs) r)
    · exact hsettled.quiet.trans (reportLoss_moves hT (.single (.refused hs hf'.newRecord)) _ _ _)
  | failed =>
    exact (hsettled.quiet.trans (writeUnrepresentable_moves hT hs hf' _ _)).trans (sizeRotateIfDue_moves hT)

theorem job_moves (hT : e.Transient) (hf : t.Fresh k) (hb : t.asyncBuf = [] → t.split = .none) (first second : Build)
    (oom : Bool) (hq : p → t.runAsked c e (.job k first second oom) = true) :
    Moves p k.owns t.toOutput (t.job c e k first second oom).toOutput := by
  simp only [runAsked, Bool.and_eq_true, Bool.or_eq_true, Bool.not_eq_true', decide_eq_true_eq] at hq
  have hbuilt : Moves p k.owns t.toOutput (t.buildJob c e k first second oom).toOutput := by
    unfold buildJob
    split
    · rename_i hretry
      refine retryJob_moves hT hf second oom fun hp => ?_
      rcases (hq hp).1 with h | h
      · rw [hretry] at h
        exact Bool.noConfusion h
      · exact h
    · split
      · exact join_moves hf hb _
      · exact join_moves hf hb _
      · exact .refl
  unfold job
  dsimp only
  split
  · rename_i hfull
    refine hbuilt.trans (writerFlushBuffer_moves hT fun hp => ?_)
    rcases (hq hp).2 with h | h
    · omega
    · exact h
  · exact hbuilt

theorem flushedFirst_moves (hT : e.Transient) (hq : p → (t.asyncBuf.isEmpty || t.flushAsked c e) = true) :
    Moves p w t.toOutput (t.flushedFirst c e).toOutput := by
  unfold flushedFirst
  split
  · exact .refl
  · rename_i hb
    refine flushAndSettle_moves hT fun hp => ?_
    have := hq hp
    simpa [hb] using this

theorem flushedFirst_split (hb : t.asyncBuf = [] → t.split = .none) : (t.flushedFirst c e).split = .none := by
  unfold flushedFirst
  split
  · rename_i h
    exact hb (isEmpty_iff.mp h)
  · exact flushAndSettle_split

theorem emitRefused_moves (hT : e.Transient) (hs : t.split = .none) (hf : t.Fresh k) (built : Build) :
    Moves p k.owns t.toOutput (t.emitRefused c e k built).toOutput := by
  have hrotated : Quiet p t.toOutput (t.timeRotateIfDue c e).toOutput := timeRotateIfDue_moves hT
  exact (hrotated.quiet.trans (emit_moves hT (timeRotateIfDue_frame.1.trans hs) (hf.quiet hrotated) built)).trans
    (sizeRotateIfDue_moves hT)

theorem writeRefused_moves (hT : e.Transient) (hf : t.Fresh k) (hb : t.asyncBuf = [] → t.split = .none)
    (joined built : Build) (hq : p → t.runAsked c e (.writeRefused k joined built) = true) :
    Moves p k.owns t.toOutput (t.writeRefused c e k joined built).toOutput := by
  have hflushed : Quiet p t.toOutput (t.flushedFirst c e).toOutput := flushedFirst_moves hT hq
  have hs : (t.flushedFirst c e).split = .none := flushedFirst_split hb
  have hemit := hflushed.quiet.trans (emitRefused_moves (c := c) hT hs (hf.quiet hflushed) built)
  unfold writeRefused
  dsimp only
  split
  · split
    · exact hemit
    · exact hflushed.quiet.trans (join_moves (hf.quiet hflushed) (fun _ => hs) _)
  · exact hemit


theorem closeWriter_moves (hT : e.Transient) (hq : p → t.flushAsked c e = true) :
    Moves p w t.toOutput (t.closeWriter c e).toOutput :=
  (flushAndSettle_moves hT hq).trans (dropUndelivered_moves hT flushAndSettle_split _)

theorem settleBatch_moves (hT : e.Transient) (hq : p → (t.asyncBuf.isEmpty || t.flushAsked c e) = true) :
    Moves p w t.toOutput (t.settleBatch c e).toOutput := by
  unfold settleBatch
  split
  · exact .refl
  · rename_i hb
    refine (flushAndSettle_moves hT fun hp => ?_).trans (dropUndelivered_moves hT flushAndSettle_split _)
    have := hq hp
    simpa [hb] using this

theorem isNew_fresh (h : t.isNew k = true) : t.Fresh k := by
  simpa [isNew, Output.Fresh] using h

end Target

def Section.owns : Section → Name → Prop
  | .writeSync k _ => k.owns
  | .job k _ _ _ => k.owns
  | .writeRefused k _ _ => k.owns
  | _ => fun _ => False

theorem Target.run_moves {s : Section} (hT : e.Transient) (hr : t.ready s = true) (hb : t.asyncBuf = [] → t.split = .none)
    (hq : p → t.runAsked c e s = true) : Moves p s.owns t.toOutput (t.run c e s).toOutput := by
  cases s with
  | writeSync k built => exact writeSync_moves hT (isNew_fresh hr) built hq
  | job k first second oom => exact job_moves hT (isNew_fresh hr) hb first second oom hq
  | writeRefused k joined built => exact writeRefused_moves hT (isNew_fresh hr) hb joined built hq
  | flush => exact writerFlushBuffer_moves hT hq
  | closeWriter => exact closeWriter_moves hT hq
  | settleBatch => exact settleBatch_moves hT hq
  | payOwed => exact payOwed_moves hT
  | note level head detail => exact noteRecord_moves hT (by simpa [ready] using hr) level head detail

end Ccollections.Clogger
