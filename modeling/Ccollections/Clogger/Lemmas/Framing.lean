import Ccollections.Clogger.Lemmas.Cells
import Ccollections.Lib.Runs

/-!
# Units stay in one piece, and behind a newline
-/

namespace Ccollections.Clogger

open List

variable {p : Prop} {w : Name → Prop} {o o' : Output} {u : Name}

theorem Output.New.notMarker (h : o.New w u) : u.isMarker = false := by
  rcases h with rfl | h
  · rfl
  · cases u with
    | marker n => simp [Name.ofCall] at h
    | record _ _ => rfl
    | trailer _ _ => rfl
    | note _ => rfl

/-! ## In one piece -/

structure Sound (o : Output) : Prop where
  live : Whole o.live
  files : ∀ f ∈ o.files, Whole f
  batch : Batch o.asyncBuf
  start : o.split = .none → RecordStart o.asyncBuf
  cut : o.split ≠ .none → ∃ a b, o.live.getLast? = some a ∧ o.asyncBuf.head? = some b ∧ Inner a b ∧
    (o.split = .midLine ↔ a.byte ≠ nl)

theorem Sound.split_none (h : Sound o) (hb : o.asyncBuf = []) : o.split = .none := by
  by_contra hs
  obtain ⟨_, _, _, hhead, _⟩ := h.cut hs
  simp [hb] at hhead

theorem Sound.live_piece (h : Sound o) (n : Nat) : Whole (o.live ++ o.asyncBuf.take n) := by
  have hchain : (o.asyncBuf.take n).IsChain Behind := (h.batch.chain.take n).imp fun _ _ hj => hj.behind
  have hends : ∀ c ∈ o.asyncBuf.take n, Ends c := fun c hc => h.batch.ends c (mem_of_mem_take hc)
  have hhead : ∀ b ∈ (o.asyncBuf.take n).head?, b ∈ o.asyncBuf.head? := by
    intro b hb
    cases n with
    | zero => simp at hb
    | succ n =>
      cases hbuf : o.asyncBuf with
      | nil => simp [hbuf] at hb
      | cons d data => simpa [hbuf] using hb
  by_cases hs : o.split = .none
  · exact h.live.append ⟨hchain, fun b hb => ((h.start hs) b (hhead b hb)).1, hends⟩
  · obtain ⟨a, b, ha, hb, hi, _⟩ := h.cut hs
    refine ⟨isChain_append.mpr ⟨h.live.chain, hchain, ?_⟩, ?_, ?_⟩
    · intro x hx y hy
      obtain rfl : a = x := by simpa [ha] using hx
      have hy := hhead y hy
      obtain rfl : b = y := by simpa [hb] using hy
      exact hi.behind
    · intro c hc
      apply h.live.start c
      cases hl : o.live with
      | nil => simp [hl] at ha
      | cons d l => simpa [hl] using hc
    · intro c hc
      rcases mem_append.mp hc with hc | hc
      · exact h.live.ends c hc
      · exact hends c hc

theorem getLast?_append_take {l data : List Cell} {n : Nat} {a : Cell} (h : (data.take n).getLast? = some a) :
    (l ++ data.take n).getLast? = some a := by
  rw [List.getLast?_append, h]
  rfl

theorem Sound.piece (h : Sound o) {n : Nat} (hn : 0 < n) (hle : n ≤ o.asyncBuf.length) :
    Sound { o with
      live := o.live ++ o.asyncBuf.take n
      asyncBuf := o.asyncBuf.drop n
      split := if n = o.asyncBuf.length then Split.none else splitAfter o.asyncBuf n } := by
  refine ⟨h.live_piece n, h.files, h.batch.drop n, ?_, ?_⟩
  · intro hs
    dsimp only at hs ⊢
    split at hs
    · rename_i heq
      simp [heq, RecordStart]
    · rename_i hne
      obtain ⟨a, b, _, hb, hj, _, hnone⟩ := h.batch.splitAfter_eq hn (by omega)
      intro c hc
      obtain rfl : b = c := by simpa [hb] using hc
      exact ⟨hj.start_of (hnone.mp hs).1 (hnone.mp hs).2, (hnone.mp hs).2⟩
  · intro hs
    dsimp only at hs ⊢
    split at hs
    · exact absurd rfl hs
    · rename_i hne
      obtain ⟨a, b, ha, hb, hj, hmid, hnone⟩ := h.batch.splitAfter_eq hn (by omega)
      rw [if_neg hne]
      exact ⟨a, b, getLast?_append_take ha, hb, hj.inner_of fun hab => hs (hnone.mpr hab), hmid⟩

theorem untilRecordEnd_start {data : List Cell} (h : Batch data) : RecordStart (data.drop (untilRecordEnd data)) := by
  intro b hb
  have hlt : untilRecordEnd data < data.length := by
    by_contra hge
    rw [drop_eq_nil_of_le (by omega)] at hb
    simp at hb
  have hne : data ≠ [] := by
    rintro rfl
    simp at hlt
  obtain ⟨a, b', _, hb', hj, _, hnone⟩ := h.splitAfter_eq (untilRecordEnd_pos hne) hlt
  obtain rfl : b' = b := by simpa [hb'] using hb
  obtain ⟨hnl, htab⟩ := hnone.mp (splitAfter_recordEnd hlt)
  exact ⟨hj.start_of hnl htab, htab⟩

theorem closeRetiredLine_whole {old : List Cell} (h : Whole old) (retired : RetiredLine) :
    Whole (closeRetiredLine retired old).1 := by
  cases retired with
  | newline => exact h.append closer_whole
  | gone => exact h
  | cut => exact h.front ( rdropWhile_prefix _ _)
  | refused => exact h

theorem Sound.move (h : Sound o) (hm : Move p w o o') : Sound o' := by
  cases hm with
  | cleared _ _ => exact ⟨h.live, h.files, h.batch, h.start, h.cut⟩
  | paid hs _ ht => exact ⟨h.live.append (repairNote_whole o ht), h.files, h.batch, h.start, fun hn => absurd hs hn⟩
  | paidPartly hs _ ht _ =>
    exact ⟨h.live.append ((repairNote_whole o ht).take _), h.files, h.batch, h.start, fun hn => absurd hs hn⟩
  | unit hs _ _ ht => exact ⟨h.live.append (cells_whole (Or.inr ht)), h.files, h.batch, h.start, fun hn => absurd hs hn⟩
  | unitCut hs _ _ ht _ =>
    exact ⟨h.live.append ((cells_whole (Or.inr ht)).take _), h.files, h.batch, h.start, fun hn => absurd hs hn⟩
  | refused hs _ => exact ⟨h.live, h.files, h.batch, h.start, fun hn => absurd hs hn⟩
  | newLive hs =>
    refine ⟨Whole.nil, ?_, h.batch, h.start, fun hn => absurd hs hn⟩
    intro f hf
    rcases mem_cons.mp hf with rfl | hf
    · exact h.live
    · exact h.files f hf
  | @retired old files lineOpen retired hf =>
    refine ⟨h.live, ?_, h.batch, h.start, h.cut⟩
    intro f hmem
    have hold : Whole old := h.files old (by simp [hf])
    rcases mem_cons.mp hmem with rfl | hmem
    · split
      · exact closeRetiredLine_whole hold retired
      · exact hold
    · exact h.files f (by simp [hf, hmem])
  | piece _ hn hle => exact h.piece hn hle
  | repaired hs => exact ⟨h.live, h.files, h.batch.drop _, fun _ => untilRecordEnd_start h.batch, fun hn => absurd rfl hn⟩
  | dropped hs => exact ⟨h.live, h.files, .nil, fun _ c hc => by simp [Output.lose] at hc, fun hn => absurd hs hn⟩
  | joined r hu hs =>
    refine ⟨h.live, h.files, h.batch.append (r.batch hu.notMarker) r.recordStart, ?_, ?_⟩
    · intro hs' c hc
      cases hbuf : o.asyncBuf with
      | nil => exact r.recordStart c (by simpa [hbuf] using hc)
      | cons d data => exact h.start hs' c (by simpa [hbuf] using hc)
    · intro hs'
      obtain ⟨a, b, ha, hb, hrest⟩ := h.cut hs'
      exact ⟨a, b, ha, by simp [hb], hrest⟩

theorem Sound.moves (h : Sound o) (hm : Moves p w o o') : Sound o' := hm.invariant (fun _ _ => Sound.move) h

/-! ## Behind a newline -/

def AtLineStart (file : List Cell) : Prop := ∀ c ∈ file.getLast?, c.byte = nl

structure Open (o : Output) : Prop where
  live : o.live.IsChain Opens
  files : ∀ f ∈ o.files, f.IsChain Opens
  line : o.split = .none → o.owesLine = true ∨ AtLineStart o.live

theorem opens_append {l x : List Cell} (h : l.IsChain Opens) (h' : x.IsChain Opens) (hl : AtLineStart l) :
    (l ++ x).IsChain Opens :=
  isChain_append.mpr ⟨h, h', fun a ha _ _ _ _ _ => hl a ha⟩

theorem Inner.opens {a b : Cell} (h : Inner a b) : Opens a b := by
  obtain ⟨_, pb, _, hb, _, hidx, _⟩ := h
  intro q hq hi
  rw [hb] at hq
  obtain rfl := Option.some.inj hq
  omega

theorem cells_opens (u : Name) (text : List UInt8) : (cells u text).IsChain Opens := cells_chain.imp fun _ _ h => h.opens

theorem repairNote_opens (o : Output) (text : List UInt8) : (o.repairNote text).IsChain Opens := by
  unfold Output.repairNote Output.lead
  split
  · exact opens_append (isChain_singleton _) (cells_opens _ _) (by simp [AtLineStart, closer])
  · exact cells_opens _ _

theorem atLineStart_append {l x : List Cell} (hl : x = [] → AtLineStart l) (hx : AtLineStart x) : AtLineStart (l ++ x) := by
  intro c hc
  rw [List.getLast?_append] at hc
  cases h : x.getLast? with
  | none => exact hl (List.getLast?_eq_none_iff.mp h) c (by simpa [h] using hc)
  | some d => exact hx c (by simpa [h] using hc)

theorem atLineStart_take {l x : List Cell} {n : Nat} (hl : n = 0 → AtLineStart l) (hx : x ≠ [])
    (h : openAfter x n = false) : AtLineStart (l ++ x.take n) := by
  apply atLineStart_append
  · intro he
    rcases take_eq_nil_iff.mp he with he | he
    · exact hl he
    · exact absurd he hx
  · intro c hc
    rw [openAfter, Option.mem_def.mp hc] at h
    simpa using h

theorem cells_atLineStart (u : Name) {text : List UInt8} (h : text = [] ∨ Closed text) : AtLineStart (cells u text) := by
  intro c hc
  obtain ⟨q, hq, _⟩ := cellsFrom_mem (mem_of_getLast? hc)
  exact cellsFrom_ends 0 h c (mem_of_getLast? hc) q hq (cellsFrom_last 0 c hc q hq)

theorem repairNote_atLineStart (o : Output) {text : List UInt8} (h : text = [] ∨ Closed text) :
    AtLineStart (o.repairNote text) := by
  apply atLineStart_append
  · intro _
    unfold Output.lead
    split
    · simp [AtLineStart, closer]
    · simp [AtLineStart]
  · exact cells_atLineStart _ h

theorem Open.repair (h : Open o) (hs : o.split = .none) (text : List UInt8) (n : Nat) :
    (o.live ++ (o.repairNote text).take n).IsChain Opens := by
  have htake := (repairNote_opens o text).take n
  cases hn : o.oweNewline with
  | false =>
    rcases h.line hs with hq | hl
    · simp [Output.owesLine, hn] at hq
    · exact opens_append h.live htake hl
  | true =>
    refine isChain_append.mpr ⟨h.live, htake, fun a _ b hb q hq _ => ?_⟩
    have hlead : (o.repairNote text).head? = some closer := by simp [Output.repairNote, Output.lead, hn]
    cases n with
    | zero => simp at hb
    | succ n =>
      cases hr : o.repairNote text with
      | nil => simp [hr] at hlead
      | cons d note =>
        obtain rfl : d = b := by simpa [hr] using hb
        obtain rfl : d = closer := by simpa [hr] using hlead
        simp [closer] at hq

theorem Open.atLineStart (h : Open o) (hs : o.split = .none) (hn : o.oweNewline = false) : AtLineStart o.live := by
  rcases h.line hs with hq | hl
  · simp [Output.owesLine, hn] at hq
  · exact hl

theorem Open.piece (h : Open o) (hsound : Sound o) (hq : o.owesLine = false) {n : Nat} (hn : 0 < n)
    (hle : n ≤ o.asyncBuf.length) :
    Open { o with
      live := o.live ++ o.asyncBuf.take n
      asyncBuf := o.asyncBuf.drop n
      split := if n = o.asyncBuf.length then Split.none else splitAfter o.asyncBuf n } := by
  have hb : o.asyncBuf ≠ [] := by
    intro he
    simp [he] at hle
    omega
  refine ⟨?_, h.files, ?_⟩
  · have htake : (o.asyncBuf.take n).IsChain Opens := (hsound.batch.chain.take n).imp fun _ _ hj => hj.opens
    by_cases hs : o.split = .none
    · rcases h.line hs with hq' | hl
      · rw [hq] at hq'
        exact Bool.noConfusion hq'
      · exact opens_append h.live htake hl
    · obtain ⟨a, b, ha, hb', hi, _⟩ := hsound.cut hs
      refine isChain_append.mpr ⟨h.live, htake, fun x hx y hy => ?_⟩
      obtain rfl : a = x := by simpa [ha] using hx
      have hy' : y ∈ o.asyncBuf.head? := by
        cases hbuf : o.asyncBuf with
        | nil => exact absurd hbuf hb
        | cons d data =>
          cases n with
          | zero => omega
          | succ n => simpa [hbuf] using hy
      obtain rfl : b = y := by simpa [hb'] using hy'
      exact hi.opens
  · intro hs
    refine Or.inr (atLineStart_take (fun h0 => absurd h0 (by omega)) hb ?_)
    dsimp only at hs
    split at hs
    · rename_i heq
      rw [openAfter, heq, take_length]
      cases hl : o.asyncBuf.getLast? with
      | none => rfl
      | some c =>
        obtain ⟨q, hq, _⟩ := hsound.batch.owned c (mem_of_getLast? hl)
        simp [hsound.batch.ends c (mem_of_getLast? hl) q hq (hsound.batch.last c hl q hq)]
    · rw [splitAfter] at hs
      split at hs
      · exact absurd hs (by decide)
      · rename_i ho
        simpa using ho

theorem Open.move (h : Open o) (hsound : Sound o) (hm : Move True w o o') : Open o' := by
  cases hm with
  | cleared _ hn =>
    refine ⟨h.live, h.files, fun hs => Or.inr (h.atLineStart hs hn)⟩
  | @paid text hs ho ht =>
    refine ⟨?_, h.files, fun _ => Or.inr ?_⟩
    · simpa using h.repair hs text (o.repairNote text).length
    · refine atLineStart_append (fun he => h.atLineStart hs ?_) (repairNote_atLineStart o ht)
      cases hn : o.oweNewline with
      | false => rfl
      | true => simp [Output.repairNote, Output.lead, hn] at he
  | @paidPartly text n hs ho ht hn =>
    refine ⟨h.repair hs text n, h.files, fun _ => ?_⟩
    have hne : o.repairNote text ≠ [] := by
      intro he
      simp [he] at hn
    simp only [Output.owesLine, ho, Bool.true_and]
    rcases Nat.eq_zero_or_pos n with rfl | hpos
    · rcases h.line hs with hq | hl
      · left
        simpa [Output.owesLine, ho] using hq
      · right
        simpa using hl
    · rw [if_pos hpos]
      cases hopen : openAfter (o.repairNote text) n with
      | true => exact Or.inl rfl
      | false => exact Or.inr (atLineStart_take (fun h0 => absurd h0 (by omega)) hne hopen)
  | @unit u text hs hq hu ht =>
    have hl : AtLineStart o.live := by
      rcases h.line hs with hq' | hl
      · rw [hq] at hq'
        exact Bool.noConfusion hq'
      · exact hl
    exact ⟨opens_append h.live (cells_opens u text) hl, h.files,
      fun _ => Or.inr (atLineStart_append (fun _ => hl) (cells_atLineStart u (Or.inr ht)))⟩
  | @unitCut u text n hs hq hu ht hn =>
    have hl : AtLineStart o.live := by
      rcases h.line hs with hq' | hl
      · rw [hq] at hq'
        exact Bool.noConfusion hq'
      · exact hl
    refine ⟨opens_append h.live ((cells_opens u text).take n) hl, h.files, fun _ => ?_⟩
    have hne : cells u text ≠ [] := by
      intro he
      have := cells_length u text
      rw [he] at this
      simp at this
      omega
    cases hopen : openAfter (cells u text) n with
    | true =>
      left
      simp [Output.owesLine, Output.lose]
    | false => exact Or.inr (atLineStart_take (fun _ => hl) hne hopen)
  | refused hs hu =>
    refine ⟨h.live, h.files, fun _ => ?_⟩
    rcases h.line hs with hq | hl
    · left
      simp only [Output.owesLine, Bool.and_eq_true] at hq
      simp [Output.owesLine, Output.lose, Output.handOver, hq.2]
    · exact Or.inr hl
  | newLive hs =>
    refine ⟨isChain_nil, ?_, fun _ => Or.inr (by simp [AtLineStart])⟩
    intro f hf
    rcases mem_cons.mp hf with rfl | hf
    · exact h.live
    · exact h.files f hf
  | @retired old files lineOpen retired hf =>
    refine ⟨h.live, ?_, fun hs => ?_⟩
    · intro f hmem
      have hold : old.IsChain Opens := h.files old (by simp [hf])
      rcases mem_cons.mp hmem with rfl | hmem
      · split
        · cases retired with
          | newline =>
            refine isChain_append.mpr ⟨hold, isChain_singleton _, fun a _ b hb q hq _ => ?_⟩
            obtain rfl : b = closer := by simpa using hb.symm
            simp [closer] at hq
          | gone => exact hold
          | cut => exact List.IsChain.prefix hold ( rdropWhile_prefix _ _)
          | refused => exact hold
        · exact hold
      · exact h.files f (by simp [hf, hmem])
    · rcases h.line hs with hq | hl
      · left
        simp only [Output.owesLine, Bool.and_eq_true] at hq
        simp [Output.owesLine, hq.1, hq.2]
      · exact Or.inr hl
  | piece hq hn hle => exact h.piece hsound (hq trivial) hn hle
  | repaired hs =>
    refine ⟨h.live, h.files, fun _ => ?_⟩
    obtain ⟨a, b, ha, _, _, hmid⟩ := hsound.cut hs
    by_cases hm : o.split = .midLine
    · left
      simp [Output.owesLine, Output.lose, hm]
    · right
      intro c hc
      obtain rfl : a = c := by simpa [Output.lose, ha] using hc
      by_contra hne
      exact hm (hmid.mpr hne)
  | dropped hs =>
    refine ⟨h.live, h.files, fun _ => ?_⟩
    rcases h.line hs with hq | hl
    · left
      simp only [Output.owesLine, Bool.and_eq_true] at hq
      simp [Output.owesLine, Output.lose, hq.2]
    · exact Or.inr hl
  | joined r hu hs => exact ⟨h.live, h.files, h.line⟩

theorem Open.moves (h : Open o) (hsound : Sound o) (hm : Moves True w o o') : Open o' :=
  (hm.invariant (P := fun o => Sound o ∧ Open o) (fun _ _ hab hm => ⟨hab.1.move hm, hab.2.move hab.1 hm⟩) ⟨hsound, h⟩).2

/-! ## Runs -/

theorem opened_chain {r : Cell → Cell → Prop} (hr : ∀ a b : Cell, b.part = none → r a b) (before : List UInt8) :
    (Target.opened before).live.IsChain r := by
  induction before with
  | nil => exact isChain_nil
  | cons b before ih =>
    refine isChain_cons.mpr ⟨fun y hy => hr _ _ ?_, ih⟩
    obtain ⟨_, _, rfl⟩ := mem_map.mp (mem_of_head? hy)
    rfl

theorem opened_part {before : List UInt8} {x : Cell} (hx : x ∈ (Target.opened before).live) : x.part = none := by
  obtain ⟨_, _, rfl⟩ := mem_map.mp hx
  rfl

theorem sound_opened (before : List UInt8) : Sound (Target.opened before).toOutput := by
  refine ⟨⟨?_, ?_, ?_⟩, by simp [Target.opened], .nil, by simp [RecordStart, Target.opened], fun hn => absurd rfl hn⟩
  · exact opened_chain (fun _ _ hb q hq => by simp [hb] at hq) before
  · intro x hx q hq
    simp [opened_part (mem_of_head? hx)] at hq
  · intro x hx q hq
    simp [opened_part hx] at hq

theorem open_opened {before : List UInt8} (hb : before = [] ∨ Closed before) : Open (Target.opened before).toOutput := by
  refine ⟨opened_chain (fun _ _ hb q hq => by simp [hb] at hq) before, by simp [Target.opened], fun _ => Or.inr ?_⟩
  intro x hx
  rcases hb with rfl | hb
  · simp [Target.opened] at hx
  · have hlast : (Target.opened before).live.getLast? = some ⟨nl, none⟩ := by
      have := hb
      unfold Closed at this
      simp [Target.opened, this]
    obtain rfl : (⟨nl, none⟩ : Cell) = x := by simpa [hlast] using hx
    rfl

variable {c : Config} {e : Env} {t t' : Target} {s : Section}

theorem Target.step_moves (hT : e.Transient) (h : Sound t.toOutput) (hs : t.step c e s = some t')
    (hq : p → t.runAsked c e s = true) : Moves p s.owns t.toOutput t'.toOutput := by
  unfold Target.step at hs
  split at hs
  · rename_i hr
    obtain rfl := Option.some.inj hs
    exact run_moves hT hr h.split_none hq
  · exact absurd hs (by simp)

theorem Target.stepAsked_some (hs : t.stepAsked c e s = some t') : t.runAsked c e s = true ∧ t.step c e s = some t' := by
  unfold stepAsked at hs
  split at hs
  · rename_i hq
    exact ⟨hq, hs⟩
  · exact absurd hs (by simp)

theorem sound_reach (hT : e.Transient) {before : List UInt8} (h : Lib.Reach (Target.step c e) (Target.opened before) t) :
    Sound t.toOutput :=
  h.invariant (P := fun t => Sound t.toOutput) (sound_opened before) fun _ _ _ hr hs =>
    hr.moves (Target.step_moves (p := False) hT hr hs False.elim)

end Ccollections.Clogger
