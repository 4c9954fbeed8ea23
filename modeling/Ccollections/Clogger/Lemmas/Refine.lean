import Ccollections.Clogger.Flush

/-!
# The code makes moves

Function by function, from the write of a marker to the sections.
-/

namespace Ccollections.Clogger

variable {p : Prop} {w : Name → Prop} {c : Config} {e : Env} {t : Target}

def Env.Transient (e : Env) : Prop := ∀ n, (e.write n).err.isTransient = true

/-! ## Texts end their line -/

theorem cellsFrom_length (u : Name) (i : Nat) (text : List UInt8) : (cellsFrom u i text).length = text.length := by
  induction text generalizing i with
  | nil => rfl
  | cons b bs ih => simp [cellsFrom, ih]

@[simp] theorem cells_length (u : Name) (text : List UInt8) : (cells u text).length = text.length := cellsFrom_length u 0 text

theorem Closed.append {s t : List UInt8} (h : Closed t) : Closed (s ++ t) := by
  simp only [Closed] at h ⊢
  rw [List.getLast?_append, h]
  rfl

theorem clogNoteRender_closed (format : ClogFormat) (level : ClogLevel) (head detail : List UInt8) :
    Closed (clogNoteRender format level head detail) := by
  cases format with
  | logfmt => exact Closed.append rfl
  | json => exact Closed.append rfl

theorem capNote_closed {note : List UInt8} (h : Closed note) (cap : Nat) : Closed (capNote cap note) := by
  unfold capNote
  split
  · exact Closed.append rfl
  · exact h

theorem owedText_closed : Closed (t.owedText c) := capNote_closed (clogNoteRender_closed ..) _

theorem unrepresentableText_closed (format : ClogFormat) (level : ClogLevel) (withBacktrace : Bool) :
    Closed (unrepresentableText format level withBacktrace) := by
  cases format with
  | logfmt => exact Closed.append rfl
  | json =>
    cases withBacktrace with
    | true => exact Closed.append rfl
    | false => exact Closed.append rfl

theorem Record.text_closed (r : Record) : Closed r.text := by
  refine Closed.append ?_
  rcases List.eq_nil_or_concat' r.frames with h | ⟨frames, f, h⟩
  · rw [h]
    rfl
  · rw [h, List.flatMap_append, ← List.cons_append]
    exact Closed.append (by simp [Closed, List.getLast?_cons])

/-! ## What a payment does -/

namespace Target

theorem writeErrno_transient (hT : e.Transient) (n len : Nat) : (t.writeErrno e n len).isTransient = true := by
  unfold writeErrno
  split
  · rfl
  · exact hT _

theorem repairText_closed : t.repairText c = [] ∨ Closed (t.repairText c) := by
  unfold repairText
  split
  · exact Or.inl rfl
  · exact Or.inr owedText_closed

theorem afterRepair_frame (note : List Cell) (n : Nat) (err : WriteError) :
    (t.afterRepair note n err).1.split = t.split ∧ (t.afterRepair note n err).1.asyncBuf = t.asyncBuf ∧
      (t.afterRepair note n err).1.handed = t.handed := by
  unfold afterRepair
  split
  · exact ⟨rfl, rfl, rfl⟩
  · exact ⟨rfl, rfl, rfl⟩

theorem afterRepair_true (note : List Cell) (n : Nat) (err : WriteError) (h : (t.afterRepair note n err).2 = true) :
    (t.afterRepair note n err).1.owesLine = false := by
  revert h
  unfold afterRepair
  split
  · intro _
    rfl
  · intro h
    simp only [Bool.not_eq_true'] at h
    simp [Output.owesLine, h]

@[simp] theorem payOwed_split : (t.payOwed c e).1.split = t.split := by
  unfold payOwed
  split_ifs
  · rfl
  · rfl
  · rfl
  · exact (afterRepair_frame ..).1

@[simp] theorem payOwed_asyncBuf : (t.payOwed c e).1.asyncBuf = t.asyncBuf := by
  unfold payOwed
  split_ifs
  · rfl
  · rfl
  · rfl
  · exact (afterRepair_frame ..).2.1

@[simp] theorem payOwed_handed : (t.payOwed c e).1.handed = t.handed := by
  unfold payOwed
  split_ifs
  · rfl
  · rfl
  · rfl
  · exact (afterRepair_frame ..).2.2

theorem payOwed_true (h : (t.payOwed c e).2 = true) : (t.payOwed c e).1.owesLine = false := by
  revert h
  unfold payOwed
  split_ifs with hr hs hl
  · intro _
    simp only [Bool.not_eq_true'] at hr
    simp [Output.owesLine, hr]
  · intro h
    simp only [Bool.not_eq_true'] at h
    simp [Output.owesLine, h]
  · intro _
    simp [Output.owesLine]
  · exact afterRepair_true _ _ _

theorem offerRepair_moves (hT : e.Transient) {text : List UInt8} (ht : text = [] ∨ Closed text) (hs : t.split = .none)
    (ho : t.owedRepair = true) : Moves p w t.toOutput (t.offerRepair c e (t.repairNote text)).1.toOutput := by
  simp only [offerRepair, writeAll]
  have hle := Nat.min_le_right (e.write t.tick).taken (t.repairNote text).length
  have herr := writeErrno_transient (t := { t with markers := t.markers + 1 }) hT
    (min (e.write t.tick).taken (t.repairNote text).length) (t.repairNote text).length
  revert hle herr
  generalize min (e.write t.tick).taken (t.repairNote text).length = n
  generalize writeErrno e { t with markers := t.markers + 1 } n (t.repairNote text).length = err
  intro hle herr
  unfold afterRepair
  split
  · rename_i h
    obtain rfl : n = (t.repairNote text).length := by simpa [herr] using h
    simpa [repaid, took] using Moves.single (Move.paid hs ho ht)
  · rename_i h
    simp only [not_or] at h
    exact Moves.single (Move.paidPartly hs ho ht (Nat.lt_of_le_of_ne hle h.1))

theorem payOwed_moves (hT : e.Transient) : Moves p w t.toOutput (t.payOwed c e).1.toOutput := by
  unfold payOwed
  split_ifs with hr hs hl
  · exact .refl
  · exact .refl
  · exact .single (.cleared hl.1 (by simpa using hl.2))
  · exact offerRepair_moves hT repairText_closed (by simpa using hs) (by simpa using hr)

/-! ## Units -/

theorem reportLoss_split (openLine : Bool) (records bytes : Nat) (err : WriteError) (detail : List UInt8)
    (lost : List Name) : (t.reportLoss c e openLine records bytes err detail lost).split = t.split := payOwed_split

theorem reportLoss_asyncBuf (openLine : Bool) (records bytes : Nat) (err : WriteError) (detail : List UInt8)
    (lost : List Name) : (t.reportLoss c e openLine records bytes err detail lost).asyncBuf = t.asyncBuf := payOwed_asyncBuf

theorem reportLoss_moves (hT : e.Transient) {o : Output} {openLine : Bool} {records : Nat} {lost : List Name}
    (h : Moves p w o (t.toOutput.lose openLine records lost)) (bytes : Nat) (err : WriteError)
    (detail : List UInt8) : Moves p w o (t.reportLoss c e openLine records bytes err detail lost).toOutput :=
  h.trans (payOwed_moves (t := t.lose openLine records bytes err detail lost) hT)

theorem ask_frame (len : Nat) (u : Name) : (t.ask c e len u).1.split = t.split ∧
    (t.ask c e len u).1.asyncBuf = t.asyncBuf := by
  unfold ask owedGate
  split
  · split
    · rename_i h
      exact ⟨(congrArg (·.1.split) h).symm.trans payOwed_split, (congrArg (·.1.asyncBuf) h).symm.trans payOwed_asyncBuf⟩
    · rename_i h
      exact ⟨(reportLoss_split ..).trans ((congrArg (·.1.split) h).symm.trans payOwed_split),
        (reportLoss_asyncBuf ..).trans ((congrArg (·.1.asyncBuf) h).symm.trans payOwed_asyncBuf)⟩
  · exact ⟨rfl, rfl⟩

theorem ask_true {len : Nat} {u : Name} {t' : Target} (h : t.ask c e len u = (t', true)) :
    t'.owesLine = false ∧ t'.handed = t.handed := by
  unfold ask owedGate at h
  split at h
  · split at h
    · rename_i hp
      obtain rfl := (Prod.mk.inj h).1
      exact ⟨by simpa [hp] using payOwed_true (congrArg Prod.snd hp), by simpa [hp] using payOwed_handed (t := t) (c := c) (e := e)⟩
    · simp at h
  · rename_i ho
    obtain rfl := (Prod.mk.inj h).1
    exact ⟨by simp [Output.owesLine, ho], rfl⟩

theorem ask_moves (hT : e.Transient) (hs : t.split = .none) {u : Name} (hu : t.New w u) (len : Nat) :
    Moves p w t.toOutput (t.ask c e len u).1.toOutput := by
  unfold ask owedGate
  split
  · have hpay := payOwed_moves (p := p) (w := w) (c := c) (t := t) hT
    split
    · rename_i t' h
      simpa [h] using hpay
    · rename_i t' h
      have hs' : t'.split = .none := by rw [← hs, ← payOwed_split (t := t) (c := c) (e := e), h]
      have hu' : t'.New w u := by
        have : t'.handed = t.handed := by rw [← payOwed_handed (t := t) (c := c) (e := e), h]
        simpa [Output.New, this] using hu
      rw [h] at hpay
      exact hpay.trans (reportLoss_moves hT (.single (.refused hs' hu')) _ _ _)
  · exact .refl

theorem noteTruncated_frame (u : Name) (text : List UInt8) (n : Nat) (err : WriteError) :
    (t.noteTruncated c e u text n err).split = t.split ∧ (t.noteTruncated c e u text n err).asyncBuf = t.asyncBuf := by
  unfold noteTruncated
  split
  · exact ⟨reportLoss_split .., reportLoss_asyncBuf ..⟩
  · exact ⟨rfl, rfl⟩

theorem writeRecord_frame (u : Name) (text : List UInt8) : (t.writeRecord c e u text).split = t.split ∧
    (t.writeRecord c e u text).asyncBuf = t.asyncBuf := by
  have hask := ask_frame (t := t) (c := c) (e := e) text.length u
  unfold writeRecord
  split
  · rename_i t' h
    simpa [h] using hask
  · rename_i t' h
    simp only [writeAll]
    obtain ⟨hs, hb⟩ := noteTruncated_frame (c := c) (e := e)
      (t := (t'.handOver u).took c ((cells u text).take (min (e.write t'.tick).taken (cells u text).length))) u text
      (min (e.write t'.tick).taken (cells u text).length)
      ((t'.handOver u).writeErrno e (min (e.write t'.tick).taken (cells u text).length) (cells u text).length)
    rw [h] at hask
    exact ⟨hs.trans hask.1, hb.trans hask.2⟩

theorem writeRecord_moves (hT : e.Transient) (hs : t.split = .none) {u : Name} (hu : t.New w u) {text : List UInt8}
    (ht : Closed text) : Moves p w t.toOutput (t.writeRecord c e u text).toOutput := by
  have hask := ask_moves (p := p) (c := c) hT hs hu text.length
  have hframe := ask_frame (t := t) (c := c) (e := e) text.length u
  unfold writeRecord
  split
  · rename_i t' h
    simpa [h] using hask
  · rename_i t' h
    rw [h] at hask hframe
    refine hask.trans ?_
    have hs' : t'.split = .none := hframe.1.trans hs
    have hu' : t'.New w u := by simpa [Output.New, (ask_true h).2] using hu
    simp only [writeAll]
    have hle := Nat.min_le_right (e.write (t'.handOver u).tick).taken (cells u text).length
    revert hle
    generalize min (e.write (t'.handOver u).tick).taken (cells u text).length = n
    intro hle
    unfold noteTruncated
    split
    · rename_i hn
      exact reportLoss_moves hT (.single (.unitCut hs' (ask_true h).1 hu' ht hn)) _ _ _
    · rename_i hn
      rw [cells_length] at hle
      obtain rfl : n = text.length := by omega
      simpa [took, handOver, Output.handOver, List.take_of_length_le] using
        Moves.single (p := p) (Move.unit hs' (ask_true h).1 hu' ht)

/-! ## Notes and rotations -/

theorem noteRecord_frame (level : ClogLevel) (head detail : List UInt8) :
    (t.noteRecord c e level head detail).split = t.split ∧ (t.noteRecord c e level head detail).asyncBuf = t.asyncBuf :=
  writeRecord_frame ..

theorem noteRecord_moves (hT : e.Transient) (hs : t.split = .none) (level : ClogLevel) (head detail : List UInt8) :
    Moves p w t.toOutput (t.noteRecord c e level head detail).toOutput :=
  writeRecord_moves hT hs (Or.inl rfl) (capNote_closed (clogNoteRender_closed ..) _)

theorem noteIgnored_frame (names : List (List UInt8)) : (t.noteIgnored c e names).split = t.split ∧
    (t.noteIgnored c e names).asyncBuf = t.asyncBuf := by
  induction names generalizing t with
  | nil => exact ⟨rfl, rfl⟩
  | cons name names ih =>
    have h := noteRecord_frame (t := t) (c := c) (e := e) .warn
      (ascii "log rotation: ignored an entry that is not a rotated file of this log: ") (safeName name)
    exact ⟨ih.1.trans h.1, ih.2.trans h.2⟩

theorem noteIgnored_moves (hT : e.Transient) (hs : t.split = .none) (names : List (List UInt8)) :
    Moves p w t.toOutput (t.noteIgnored c e names).toOutput := by
  induction names generalizing t with
  | nil => exact .refl
  | cons name names ih =>
    exact (noteRecord_moves hT hs _ _ _).trans (ih ((noteRecord_frame ..).1.trans hs))

theorem closeRetired_frame (lineOpen : Bool) (retired : RetiredLine) :
    (t.closeRetired lineOpen retired).split = t.split ∧ (t.closeRetired lineOpen retired).asyncBuf = t.asyncBuf := by
  unfold closeRetired
  split
  · exact ⟨rfl, rfl⟩
  · exact ⟨rfl, rfl⟩

theorem closeRetired_moves (lineOpen : Bool) (retired : RetiredLine) :
    Moves p w t.toOutput (t.closeRetired lineOpen retired).toOutput := by
  unfold closeRetired
  split
  · exact .refl
  · rename_i old files hf
    have h := Moves.single (Move.retired (p := p) (w := w) lineOpen retired hf)
    cases lineOpen with
    | true => exact h
    | false => simpa using h

theorem retire_frame (a : RotateAnswer) : (t.retire c e a).split = t.split ∧ (t.retire c e a).asyncBuf = t.asyncBuf := by
  have h : (((t.newLive a.newFd).noteIgnored c e a.pruned).closeRetired t.oweNewline a.retired).split = t.split ∧
      (((t.newLive a.newFd).noteIgnored c e a.pruned).closeRetired t.oweNewline a.retired).asyncBuf = t.asyncBuf :=
    ⟨(closeRetired_frame ..).1.trans (noteIgnored_frame _).1, (closeRetired_frame ..).2.trans (noteIgnored_frame _).2⟩
  simp only [retire]
  split
  · exact ⟨(noteRecord_frame ..).1.trans h.1, (noteRecord_frame ..).2.trans h.2⟩
  · exact h

theorem retire_moves (hT : e.Transient) (hs : t.split = .none) (a : RotateAnswer) :
    Moves p w t.toOutput (t.retire c e a).toOutput := by
  have hnew : Moves p w t.toOutput (t.newLive a.newFd).toOutput := .single (.newLive hs)
  have hclosed : Moves p w t.toOutput
      (((t.newLive a.newFd).noteIgnored c e a.pruned).closeRetired t.oweNewline a.retired).toOutput :=
    (hnew.trans (noteIgnored_moves hT (t := t.newLive a.newFd) hs _)).trans (closeRetired_moves ..)
  simp only [retire]
  split
  · have hs' : (((t.newLive a.newFd).noteIgnored c e a.pruned).closeRetired t.oweNewline a.retired).split = .none :=
      (closeRetired_frame ..).1.trans ((noteIgnored_frame _).1.trans hs)
    exact hclosed.trans (noteRecord_moves hT hs' _ _ _)
  · exact hclosed

theorem rotate_frame : (t.rotate c e).split = t.split ∧ (t.rotate c e).asyncBuf = t.asyncBuf := by
  have h := noteIgnored_frame (t := t.asked) (c := c) (e := e) (e.rotate t.tick).listed
  simp only [rotate]
  split
  · exact ⟨(retire_frame _).1.trans h.1, (retire_frame _).2.trans h.2⟩
  · exact h

theorem rotate_moves (hT : e.Transient) (hs : t.split = .none) : Moves p w t.toOutput (t.rotate c e).toOutput := by
  have h : Moves p w t.toOutput (t.asked.noteIgnored c e (e.rotate t.tick).listed).toOutput :=
    noteIgnored_moves (t := t.asked) hT hs _
  simp only [rotate]
  split
  · have hs' : (t.asked.noteIgnored c e (e.rotate t.tick).listed).split = .none := (noteIgnored_frame _).1.trans hs
    exact h.trans (retire_moves hT hs' _)
  · exact h

theorem timeRotateIfDue_frame : (t.timeRotateIfDue c e).split = t.split ∧ (t.timeRotateIfDue c e).asyncBuf = t.asyncBuf := by
  unfold timeRotateIfDue
  split_ifs
  · exact ⟨rfl, rfl⟩
  · exact ⟨rfl, rfl⟩
  · exact rotate_frame
  · exact ⟨rfl, rfl⟩

theorem timeRotateIfDue_moves (hT : e.Transient) : Moves p w t.toOutput (t.timeRotateIfDue c e).toOutput := by
  unfold timeRotateIfDue
  split_ifs with _ hs
  · exact .refl
  · exact .refl
  · exact rotate_moves (t := t.asked) hT (not_not.mp hs)
  · exact .refl

theorem sizeRotateIfDue_frame : (t.sizeRotateIfDue c e).split = t.split ∧ (t.sizeRotateIfDue c e).asyncBuf = t.asyncBuf := by
  unfold sizeRotateIfDue
  split_ifs
  · exact ⟨rfl, rfl⟩
  · exact ⟨rfl, rfl⟩
  · exact rotate_frame
  · exact ⟨rfl, rfl⟩

theorem sizeRotateIfDue_moves (hT : e.Transient) : Moves p w t.toOutput (t.sizeRotateIfDue c e).toOutput := by
  unfold sizeRotateIfDue
  split_ifs with _ hs
  · exact .refl
  · exact .refl
  · exact rotate_moves (t := t.asked) hT (not_not.mp hs)
  · exact .refl

end Target

end Ccollections.Clogger
