import Ccollections.Clogger.Lemmas.Accounts
import Ccollections.Clogger.Lemmas.Queue
import Mathlib.Data.List.Nodup

/-!
# No record disappears and none is written twice
-/

namespace Ccollections.Clogger
open Lib List

variable {c : Config} {e : Env} {before : List UInt8} {t : Target}

theorem accounted_opened (before : List UInt8) : Accounted (Target.opened before).toOutput := by
  have hfin : finished (Target.opened before).live = [] := by
    simp only [finished, filterMap_eq_nil_iff]
    intro x hx
    simp [opened_part hx]
  refine ⟨fun u => ?_, rfl, rfl, nodup_nil, fun k hk => ?_⟩
  · simp only [Output.onDisk, Output.pending, hfin]
    rfl
  · exact absurd hk (not_mem_nil)

theorem accounted_reach (hT : e.Transient) (h : Reach (Target.step c e) (Target.opened before) t) :
    Accounted t.toOutput := by
  have hinv : Sound t.toOutput ∧ Accounted t.toOutput := by
    refine h.invariant (P := fun t => Sound t.toOutput ∧ Accounted t.toOutput)
      ⟨sound_opened before, accounted_opened before⟩ ?_
    intro r s r' hr hs
    have hm := Target.step_moves (p := False) hT hr.1 hs False.elim
    exact ⟨hr.1.moves hm, hr.2.moves hr.1 hm⟩
  exact hinv.2

theorem sum_counts {l : List Name} : ∀ places : List (List Name), (∀ u, (places.map (List.count u)).sum = l.count u) →
    (places.map List.length).sum = l.length := by
  intro places h
  have hperm : places.flatten.Perm l := perm_iff_count.mpr fun u => by rw [count_flatten, h]
  rw [← length_flatten, hperm.length_eq]

/-- In every run every unit handed over is in one place: whole on disk, in the batch, owed, or named by a marker, and
the counts are what was lost. -/
theorem every_unit_accounted (hT : e.Transient) (h : Reach (Target.step c e) (Target.opened before) t) :
    (∀ u ∈ t.handed, t.onDisk.count u + t.pending.count u + t.owed.count u + t.marked.count u = 1) ∧
      (∀ u ∈ t.onDisk, ∃ file ∈ t.live :: t.files, ∃ text, text ≠ [] ∧ cells u text <:+: file) ∧
      t.owed.length = t.owedRecords ∧ t.marked.length = t.markedRecords ∧
      t.handed.length = t.onDisk.length + t.pending.length + t.owedRecords + t.markedRecords ∧
      (t.split = .none → recordLines true t.asyncBuf = t.pending.length) ∧
      (t.split ≠ .none → (finished (t.asyncBuf.take (untilRecordEnd t.asyncBuf))).length = 1) := by
  have hs := sound_reach hT h
  have ha := accounted_reach hT h
  refine ⟨fun u hu => ?_, fun u hu => ?_, ha.owed, ha.marked, ?_, fun hsplit => ?_, fun hsplit => ?_⟩
  · rw [ha.places u]
    exact count_eq_one_of_mem ha.nodup hu
  · rcases mem_append.mp hu with hu | hu
    · simp only [finished, mem_filterMap, mem_flatten] at hu
      obtain ⟨x, ⟨file, hfile, hx⟩, hu⟩ := hu
      have hfin : u ∈ finished file := mem_filterMap.mpr ⟨x, hx, hu⟩
      exact ⟨file, mem_cons_of_mem _ hfile, (hs.files file hfile).finished hfin⟩
    · exact ⟨t.live, mem_cons_self, hs.live.finished hu⟩
  · have hsum := sum_counts [t.onDisk, t.pending, t.owed, t.marked] fun u => by
      simpa [Nat.add_assoc] using ha.places u
    simp only [map_cons, map_nil, sum_cons, sum_nil, ha.owed, ha.marked] at hsum
    omega
  · exact recordLines_eq hs.batch (hs.start hsplit)
  · obtain ⟨_, b, _, hb, _⟩ := hs.cut hsplit
    apply finished_untilRecordEnd hs.batch
    intro he
    simp [he] at hb

def framedRecord : Record := ⟨[0x61], [[0x62]], by decide, by decide, by decide, by decide⟩

def slowDisk : Env where
  write n := if n = 0 then ⟨2, .enospc⟩ else ⟨1, .enospc⟩
  clock _ := ⟨false, true⟩
  rotate _ := ⟨7, [], false, [], .newline, false⟩

theorem framedRecord_accounted : ∃ t, Reach (Target.step ⟨.logfmt, false, none, false, 1⟩ slowDisk) (Target.opened []) t ∧
    t.handed = [.record 0 0] ∧ t.split = .atLine ∧
    t.handed.length = t.onDisk.length + t.pending.length + t.owedRecords + t.markedRecords := by
  have hrun : (runs (Target.step ⟨.logfmt, false, none, false, 1⟩ slowDisk) (Target.opened [])
      [.job ⟨0, 0, .info, true, 1⟩ (.record framedRecord) .failed false]).any
      (fun t => t.handed = [.record 0 0] ∧ t.split = .atLine) = true := by decide +kernel
  obtain ⟨t, ht, hstate⟩ := Reach.exists_of_runs _ hrun
  have hT : slowDisk.Transient := by
    intro n
    simp only [slowDisk]
    split_ifs
    · rfl
    · rfl
  obtain ⟨hhanded, hsplit⟩ := of_decide_eq_true hstate
  exact ⟨t, ht, hhanded, hsplit, (every_unit_accounted hT ht).2.2.2.2.1⟩

/-!
# Log record framing
-/

variable {c : Config} {e : Env} {before : List UInt8} {t : Target}

/-- The first byte of a unit stands at the start of the file or behind a newline, every other one behind the byte before
it. -/
structure Framed (file : List Cell) : Prop where
  opens : ∀ i x q, file[i]? = some x → x.part = some q → q.index = 0 → i = 0 ∨ ∃ a, file[i - 1]? = some a ∧ a.byte = nl
  continues : ∀ i x q, file[i]? = some x → x.part = some q → q.index ≠ 0 → i ≠ 0 ∧ ∃ a, file[i - 1]? = some a ∧ Inner a x

theorem isChain_getElem {r : Cell → Cell → Prop} {file : List Cell} (h : file.IsChain r) {i : Nat} {a x : Cell}
    (ha : file[i]? = some a) (hx : file[i + 1]? = some x) : r a x := by
  induction file generalizing i with
  | nil => simp at ha
  | cons d file ih =>
    cases i with
    | zero =>
      obtain rfl : d = a := by simpa using ha
      apply (isChain_cons.mp h).1
      simpa [List.head?_eq_getElem?] using hx
    | succ i => exact ih (isChain_cons.mp h).2 ha hx

theorem framed_of_chains {file : List Cell} (h : Whole file) (ho : file.IsChain Opens) : Framed file where
  opens := by
    intro i x q hx hq hi
    cases i with
    | zero => exact Or.inl rfl
    | succ i =>
      obtain ⟨hlt, _⟩ := List.getElem?_eq_some_iff.mp hx
      have hi' : i < file.length := Nat.lt_of_succ_lt hlt
      have ha : file[i]? = some file[i] := List.getElem?_eq_getElem hi'
      exact Or.inr ⟨_, ha, isChain_getElem ho ha hx q hq hi⟩
  continues := by
    intro i x q hx hq hi
    cases i with
    | zero =>
      have := h.start x (by simpa [List.head?_eq_getElem?] using hx) q hq
      exact absurd this hi
    | succ i =>
      obtain ⟨hlt, _⟩ := List.getElem?_eq_some_iff.mp hx
      have hi' : i < file.length := Nat.lt_of_succ_lt hlt
      have ha : file[i]? = some file[i] := List.getElem?_eq_getElem hi'
      exact ⟨by omega, _, ha, isChain_getElem h.chain ha hx q hq hi⟩

/-- In every run in which no rotation leaves a newline owed between two pieces of a flush, all files are framed. -/
theorem framed_of_asked (hT : e.Transient) (hb : before = [] ∨ Closed before)
    (h : Reach (Target.stepAsked c e) (Target.opened before) t) :
    (∀ file ∈ t.live :: t.files, Framed file) ∧ (AtLineStart t.live ∨ t.owesLine = true ∨ t.split = .midLine) := by
  have hinv : Sound t.toOutput ∧ Open t.toOutput := by
    refine h.invariant (P := fun t => Sound t.toOutput ∧ Open t.toOutput) ⟨sound_opened before, open_opened hb⟩ ?_
    intro r s r' hr hs
    obtain ⟨hasked, hstep⟩ := Target.stepAsked_some hs
    have hm := Target.step_moves (p := True) hT hr.1 hstep fun _ => hasked
    exact ⟨hr.1.moves hm, hr.2.moves hr.1 hm⟩
  obtain ⟨hs, ho⟩ := hinv
  constructor
  · intro file hf
    rcases mem_cons.mp hf with rfl | hf
    · exact framed_of_chains hs.live ho.live
    · exact framed_of_chains (hs.files file hf) (ho.files file hf)
  · by_cases hsplit : t.split = .none
    · rcases ho.line hsplit with hq | hl
      · exact Or.inr (Or.inl hq)
      · exact Or.inl hl
    · obtain ⟨a, _, ha, _, _, hmid⟩ := hs.cut hsplit
      by_cases hm : t.split = .midLine
      · exact Or.inr (Or.inr hm)
      · left
        intro x hx
        obtain rfl : a = x := by simpa [ha] using hx
        by_contra hne
        exact hm (hmid.mpr hne)

/-! ## Two records in pieces -/

def smallFiles : Config := ⟨.logfmt, true, some 2, false, 3⟩

def shortRecord : Record := ⟨[0x61], [], by decide, by decide, by decide, by decide⟩

def twoJobs : List Section :=
  [.job ⟨0, 0, .info, false, 1⟩ (.record shortRecord) .failed false,
    .job ⟨0, 1, .info, false, 1⟩ (.record shortRecord) .failed false]

/-- The rotation between the two records notes an entry, and the disk takes some bytes of the note and none of the
marker. -/
def notingEnv (taken : Nat) : Env where
  write n := if n = 3 then ⟨taken, .enospc⟩ else if n = 4 then ⟨0, .enospc⟩ else ⟨1000, .none⟩
  clock _ := ⟨false, true⟩
  rotate n := ⟨7, [], n = 2, [[0x78]], .newline, false⟩

theorem notingEnv_transient (taken : Nat) : (notingEnv taken).Transient := by
  intro n
  simp only [notingEnv]
  split_ifs
  · rfl
  · rfl
  · rfl

/-- The note is taken whole. -/
theorem framed_twoJobs : ∃ t, Reach (Target.stepAsked smallFiles (notingEnv 1000)) (Target.opened []) t ∧
    t.files.length = 1 ∧ ∀ file ∈ t.live :: t.files, Framed file := by
  have hrun : (runs (Target.stepAsked smallFiles (notingEnv 1000)) (Target.opened []) twoJobs).any
      (fun t => t.files.length = 1) = true := by decide +kernel
  obtain ⟨t, ht, hfiles⟩ := Reach.exists_of_runs twoJobs hrun
  exact ⟨t, ht, by simpa using hfiles, (framed_of_asked (notingEnv_transient 1000) (Or.inl rfl) ht).1⟩

/-- The note is cut behind five bytes, and the second record goes on with its line. -/
theorem note_cut_between_pieces : ∃ t, (notingEnv 5).Transient ∧
    Reach (Target.step smallFiles (notingEnv 5)) (Target.opened []) t ∧ ¬Framed t.live := by
  have hrun : (runs (Target.step smallFiles (notingEnv 5)) (Target.opened []) twoJobs).any
      (fun t => t.live[5]? = some ⟨0x61, some ⟨.record 0 1, 0, 1⟩⟩ ∧ t.live[4]? = some ⟨0x6C, some ⟨.note 2, 4, 89 - 4⟩⟩) = true := by
    decide +kernel
  obtain ⟨t, ht, hlive⟩ := Reach.exists_of_runs twoJobs hrun
  obtain ⟨hrecord, hnote⟩ := of_decide_eq_true hlive
  refine ⟨t, notingEnv_transient 5, ht, fun h => ?_⟩
  rcases h.opens 5 _ _ hrecord rfl rfl with h0 | ⟨a, ha, hnl⟩
  · exact absurd h0 (by decide)
  · obtain rfl := Option.some.inj (hnote.symm.trans ha)
    exact absurd hnl (by decide)

/-!
# The order of a thread's records
-/

variable {c : Config} {e : Env} {before : List UInt8} {cap : Nat} {l : Logger}

theorem calls_getElem {data : List Cell} (h : (calls data).Pairwise Before) {m n : Nat} {a b : Cell} {x y : Nat × Nat}
    (ha : data[m]? = some a) (hb : data[n]? = some b) (hx : (a.part.bind fun q => q.unit.call) = some x)
    (hy : (b.part.bind fun q => q.unit.call) = some y) (hmn : n < m) : Before y x := by
  obtain ⟨hm, rfl⟩ := List.getElem?_eq_some_iff.mp ha
  obtain ⟨hn, rfl⟩ := List.getElem?_eq_some_iff.mp hb
  have hpair : data.Pairwise fun b a => ∀ y ∈ b.part.bind fun q => q.unit.call, ∀ x ∈ a.part.bind fun q => q.unit.call,
      Before y x := pairwise_filterMap.mp h
  exact (pairwise_iff_getElem.mp hpair) n m hn hm hmn y hy x hx

/-- In every run in which a thread writes past the batch only when it holds no other record of it, a thread's records
are on disk in their order. -/
theorem records_in_order (hT : e.Transient) (h : Reach (Logger.stepFree c e cap) (.opened before) l) {thread i j m n : Nat}
    {a b : Cell} {q r : Part} (hij : i < j) (ha : l.target.disk[m]? = some a) (hq : a.part = some q)
    (hqu : q.unit = .record thread i) (hb : l.target.disk[n]? = some b) (hr : b.part = some r)
    (hru : r.unit = .record thread j) : m < n := by
  have hinv : InOrder l := h.invariant (P := InOrder) (InOrder.opened before) fun _ _ _ hl hs => hl.step hT hs
  have hdisk : (calls l.target.disk).Pairwise Before :=
    (pairwise_append.mp (pairwise_append.mp hinv.ordered).1).1
  by_contra hmn
  have hx : (a.part.bind fun q => q.unit.call) = some (thread, i) := by simp [hq, hqu, Name.call]
  have hy : (b.part.bind fun q => q.unit.call) = some (thread, j) := by simp [hr, hru, Name.call]
  rcases Nat.lt_or_eq_of_le (Nat.le_of_not_lt hmn) with hlt | rfl
  · have := calls_getElem hdisk ha hb hx hy hlt rfl
    omega
  · obtain rfl := Option.some.inj (ha.symm.trans hb)
    rw [hx] at hy
    have := congrArg Prod.snd (Option.some.inj hy)
    omega

/-! ## Two calls of one thread -/

def aRecord : Record := ⟨[0x61], [], by decide, by decide, by decide, by decide⟩

def plainCall : Logged := ⟨.info, false, 1⟩

def fullDisk (refused : Nat) : Env where
  write n := if n < refused then ⟨0, .enospc⟩ else ⟨1000, .none⟩
  clock _ := ⟨false, true⟩
  rotate _ := ⟨7, [], false, [], .newline, false⟩

theorem fullDisk_transient (refused : Nat) : (fullDisk refused).Transient := by
  intro n
  simp only [fullDisk]
  split_ifs
  · rfl
  · rfl

def everyRecord : Config := ⟨.logfmt, false, none, false, 1⟩

/-- The first record goes through the queue, the second one finds no memory for its envelope. -/
def queuedThenDirect : List Act :=
  [.log 0 true, .send 0, .take, .handle plainCall (.record aRecord) .failed false, .log 0 false, .ask 0, .take,
    .handle plainCall .failed .failed false, .write 0 plainCall .failed (.record aRecord), .wake 0, .interval]

/-- The disk takes the batch with the flush in front of the direct write. -/
theorem records_in_order_queued : ∃ l, Reach (Logger.stepFree everyRecord (fullDisk 1) 4) (.opened []) l ∧
    l.target.disk[0]? = some ⟨0x61, some ⟨.record 0 0, 0, 1⟩⟩ ∧ l.target.disk[2]? = some ⟨0x61, some ⟨.record 0 1, 0, 1⟩⟩ ∧
      0 < 2 := by
  have hrun : (runs (Logger.stepFree everyRecord (fullDisk 1) 4) (.opened []) queuedThenDirect).any
      (fun l => l.target.disk[0]? = some ⟨0x61, some ⟨.record 0 0, 0, 1⟩⟩ ∧
        l.target.disk[2]? = some ⟨0x61, some ⟨.record 0 1, 0, 1⟩⟩) = true := by decide +kernel
  obtain ⟨l, hl, hdisk⟩ := Reach.exists_of_runs queuedThenDirect hrun
  obtain ⟨h0, h2⟩ := of_decide_eq_true hdisk
  exact ⟨l, hl, h0, h2, records_in_order (fullDisk_transient 1) hl Nat.zero_lt_one h0 rfl rfl h2 rfl rfl⟩

/-- The disk takes nothing of that flush and then all of the direct write. -/
theorem direct_write_overtakes : ∃ l, (fullDisk 2).Transient ∧
    Reach (Logger.step everyRecord (fullDisk 2) 4) (.opened []) l ∧
      l.target.disk[0]? = some ⟨0x61, some ⟨.record 0 1, 0, 1⟩⟩ ∧ l.target.disk[2]? = some ⟨0x61, some ⟨.record 0 0, 0, 1⟩⟩ := by
  have hrun : (runs (Logger.step everyRecord (fullDisk 2) 4) (.opened []) queuedThenDirect).any
      (fun l => l.target.disk[0]? = some ⟨0x61, some ⟨.record 0 1, 0, 1⟩⟩ ∧
        l.target.disk[2]? = some ⟨0x61, some ⟨.record 0 0, 0, 1⟩⟩) = true := by decide +kernel
  obtain ⟨l, hl, hdisk⟩ := Reach.exists_of_runs queuedThenDirect hrun
  obtain ⟨h0, h2⟩ := of_decide_eq_true hdisk
  exact ⟨l, fullDisk_transient 2, hl, h0, h2⟩

end Ccollections.Clogger
