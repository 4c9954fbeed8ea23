import Mathlib.Data.List.Chain
import Ccollections.Clogger.Lemmas.RefineSections

/-!
# The bytes of a file and of the batch
-/

namespace Ccollections.Clogger

open List Option

variable {a b : Cell} {file file' data : List Cell} {u : Name} {text : List UInt8}

/-! ## Files -/

def Inner (a b : Cell) : Prop :=
  ∃ pa pb, a.part = some pa ∧ b.part = some pb ∧ pb.unit = pa.unit ∧ pb.index = pa.index + 1 ∧ pa.rest = pb.rest + 1

def Behind (a b : Cell) : Prop := ∀ p, b.part = some p → p.index ≠ 0 → Inner a b

def Opens (a b : Cell) : Prop := ∀ p, b.part = some p → p.index = 0 → a.byte = nl

def Starts (c : Cell) : Prop := ∀ p, c.part = some p → p.index = 0

def Ends (c : Cell) : Prop := ∀ p, c.part = some p → p.rest = 0 → c.byte = nl

structure Whole (file : List Cell) : Prop where
  chain : file.IsChain Behind
  start : ∀ c ∈ file.head?, Starts c
  ends : ∀ c ∈ file, Ends c

theorem Starts.behind (h : Starts b) : Behind a b := fun p hp hne => absurd (h p hp) hne

theorem Whole.nil : Whole [] := ⟨isChain_nil, by simp, by simp⟩

theorem Whole.append (h : Whole file) (h' : Whole file') : Whole (file ++ file') where
  chain := isChain_append.mpr ⟨h.chain, h'.chain, fun _ _ b hb => (h'.start b hb).behind⟩
  start := by
    intro c hc
    cases file with
    | nil => exact h'.start c hc
    | cons d file => exact h.start c hc
  ends := by
    intro c hc
    rcases mem_append.mp hc with hc | hc
    · exact h.ends c hc
    · exact h'.ends c hc

theorem Whole.front (h : Whole file) (hp : file' <+: file) : Whole file' where
  chain := List.IsChain.prefix h.chain hp
  start := by
    intro c hc
    obtain ⟨l, rfl⟩ := hp
    cases file' with
    | nil => simp at hc
    | cons d file' => exact h.start c hc
  ends := fun c hc => h.ends c (hp.subset hc)

theorem Whole.take (h : Whole file) (n : Nat) : Whole (file.take n) := h.front ( take_prefix n file)

theorem closer_whole : Whole [closer] := ⟨isChain_singleton _, by simp [Starts, closer], by simp [Ends, closer]⟩

theorem cellsFrom_chain (i : Nat) : (cellsFrom u i text).IsChain Inner := by
  induction text generalizing i with
  | nil => exact isChain_nil
  | cons x text ih =>
    cases text with
    | nil => exact isChain_singleton _
    | cons y text =>
      refine isChain_cons_cons.mpr ⟨⟨_, _, rfl, rfl, rfl, rfl, ?_⟩, ih (i + 1)⟩
      simp

theorem cells_chain : (cells u text).IsChain Inner := cellsFrom_chain 0

theorem cellsFrom_ends (i : Nat) (h : text = [] ∨ Closed text) : ∀ c ∈ cellsFrom u i text, Ends c := by
  induction text generalizing i with
  | nil => simp [cellsFrom]
  | cons x text ih =>
    intro c hc
    have hx : text = [] → x = nl := by
      rintro rfl
      rcases h with h | h
      · simp at h
      · simpa [Closed] using h
    have hrest : text = [] ∨ Closed text := by
      cases text with
      | nil => exact Or.inl rfl
      | cons y text =>
        rcases h with h | h
        · simp at h
        · exact Or.inr (by simpa [Closed, List.getLast?_cons_cons] using h)
    rcases mem_cons.mp hc with rfl | hc
    · intro p hp hr
      obtain rfl := some.inj hp
      exact hx (length_eq_zero_iff.mp hr)
    · exact ih (i + 1) hrest c hc

theorem cells_start : ∀ c ∈ (cells u text).head?, ∃ p, c.part = some p ∧ p.unit = u ∧ p.index = 0 := by
  cases text with
  | nil => simp [cells, cellsFrom]
  | cons x text =>
    intro c hc
    obtain rfl := some.inj hc
    exact ⟨_, rfl, rfl, rfl⟩

theorem Inner.behind (h : Inner a b) : Behind a b := fun _ _ _ => h

theorem cells_whole (h : text = [] ∨ Closed text) : Whole (cells u text) where
  chain := cells_chain.imp fun _ _ h => h.behind
  start := by
    intro c hc p hp
    obtain ⟨q, hq, _, hi⟩ := cells_start c hc
    rw [hp] at hq
    obtain rfl := some.inj hq
    exact hi
  ends := cellsFrom_ends 0 h

theorem repairNote_whole (o : Output) (h : text = [] ∨ Closed text) : Whole (o.repairNote text) := by
  unfold Output.repairNote Output.lead
  split
  · exact closer_whole.append (cells_whole h)
  · exact Whole.nil.append (cells_whole h)

/-! ## The batch -/

/-- Two bytes of the batch in a row. Only inside a record a tab stands behind a newline. -/
def Joined (a b : Cell) : Prop :=
  Inner a b ∧ (a.byte = nl → b.byte = tab) ∨
    ∃ pa pb, a.part = some pa ∧ b.part = some pb ∧ pa.rest = 0 ∧ a.byte = nl ∧ pb.index = 0 ∧ b.byte ≠ tab

def Owned (c : Cell) : Prop := ∃ p, c.part = some p ∧ p.unit.isMarker = false

structure Batch (data : List Cell) : Prop where
  chain : data.IsChain Joined
  owned : ∀ c ∈ data, Owned c
  ends : ∀ c ∈ data, Ends c
  last : ∀ c ∈ data.getLast?, ∀ p, c.part = some p → p.rest = 0

def RecordStart (data : List Cell) : Prop := ∀ c ∈ data.head?, Starts c ∧ c.byte ≠ tab

theorem Joined.behind (h : Joined a b) : Behind a b := by
  rcases h with h | ⟨_, pb, _, hb, _, _, hi, _⟩
  · exact h.1.behind
  · intro p hp hne
    rw [hb] at hp
    obtain rfl := some.inj hp
    exact absurd hi hne

theorem Joined.opens (h : Joined a b) : Opens a b := by
  intro p hp hi
  rcases h with ⟨⟨_, pb, _, hb, _, hidx, _⟩, _⟩ | ⟨_, _, _, _, _, ha, _⟩
  · rw [hb] at hp
    obtain rfl := some.inj hp
    omega
  · exact ha

theorem Batch.nil : Batch [] := ⟨isChain_nil, by simp, by simp, by simp⟩

theorem Batch.drop (h : Batch data) (n : Nat) : Batch (data.drop n) where
  chain := h.chain.drop n
  owned := fun c hc => h.owned c (mem_of_mem_drop hc)
  ends := fun c hc => h.ends c (mem_of_mem_drop hc)
  last := by
    intro c hc
    apply h.last c
    rw [List.getLast?_drop] at hc
    split at hc
    · simp at hc
    · exact hc

/-! ## Records -/

def TabLed (text : List UInt8) : Prop := text.IsChain fun x y => x = nl → y = tab

theorem tabLed_append {l l' : List UInt8} (hl : nl ∉ l) (h : TabLed l') : TabLed (l ++ l') := by
  induction l with
  | nil => exact h
  | cons x l ih =>
    have hx : x ≠ nl := fun hx => hl (by simp [hx])
    refine isChain_cons.mpr ⟨fun _ _ he => absurd he hx, ih fun hm => hl (mem_cons_of_mem _ hm)⟩

theorem Record.text_tabLed (r : Record) : TabLed r.text := by
  apply tabLed_append r.noNewline
  have h := r.framesNoNewline
  revert h
  generalize r.frames = frames
  intro h
  induction frames with
  | nil => exact isChain_singleton _
  | cons f frames ih =>
    have hf : nl ∉ tab :: f := by
      simp only [mem_cons, not_or]
      exact ⟨by decide, h f (by simp)⟩
    have hrest := tabLed_append hf (ih fun g hg => h g (mem_cons_of_mem _ hg))
    rw [flatMap_cons, append_assoc]
    exact isChain_cons_cons.mpr ⟨fun _ => rfl, hrest⟩

theorem cellsFrom_joined (i : Nat) (h : TabLed text) : (cellsFrom u i text).IsChain Joined := by
  induction text generalizing i with
  | nil => exact isChain_nil
  | cons x text ih =>
    cases text with
    | nil => exact isChain_singleton _
    | cons y text =>
      obtain ⟨hxy, hrest⟩ := isChain_cons_cons.mp h
      refine isChain_cons_cons.mpr ⟨Or.inl ⟨⟨_, _, rfl, rfl, rfl, rfl, ?_⟩, hxy⟩, ih (i + 1) hrest⟩
      simp

theorem cellsFrom_mem {i : Nat} {c : Cell} (hc : c ∈ cellsFrom u i text) : ∃ p, c.part = some p ∧ p.unit = u := by
  induction text generalizing i with
  | nil => simp [cellsFrom] at hc
  | cons x text ih =>
    rcases mem_cons.mp hc with rfl | hc
    · exact ⟨_, rfl, rfl⟩
    · exact ih hc

theorem cellsFrom_last (i : Nat) : ∀ c ∈ (cellsFrom u i text).getLast?, ∀ p, c.part = some p → p.rest = 0 := by
  induction text generalizing i with
  | nil => simp [cellsFrom]
  | cons x text ih =>
    cases text with
    | nil => simp [cellsFrom]
    | cons y text =>
      intro c hc
      exact ih (i + 1) c (by simpa [cellsFrom, List.getLast?_cons_cons] using hc)

theorem Record.text_head (r : Record) : ∃ x, r.text.head? = some x ∧ x ≠ tab := by
  obtain ⟨x, xs, h⟩ := exists_cons_of_ne_nil r.nonempty
  have htab := r.noTab
  rw [h] at htab
  exact ⟨x, by simp [Record.text, h], fun hx => htab (by simp [hx])⟩

theorem Record.batch (r : Record) (hu : u.isMarker = false) : Batch (cells u r.text) where
  chain := cellsFrom_joined 0 r.text_tabLed
  owned := by
    intro c hc
    obtain ⟨p, hp, hpu⟩ := cellsFrom_mem hc
    exact ⟨p, hp, hpu ▸ hu⟩
  ends := cellsFrom_ends 0 (Or.inr r.text_closed)
  last := cellsFrom_last 0

theorem Record.recordStart (r : Record) : RecordStart (cells u r.text) := by
  obtain ⟨x, hx, htab⟩ := r.text_head
  cases htext : r.text with
  | nil => simp [htext] at hx
  | cons y text =>
    rw [htext] at hx
    obtain rfl : y = x := by simpa using hx
    intro c hc
    obtain rfl := some.inj hc
    exact ⟨fun p hp => by obtain rfl := some.inj hp; rfl, htab⟩

theorem Batch.append (h : Batch data) (h' : Batch file) (hstart : RecordStart file) : Batch (data ++ file) where
  chain := by
    refine isChain_append.mpr ⟨h.chain, h'.chain, fun a ha b hb => Or.inr ?_⟩
    obtain ⟨pa, hpa, _⟩ := h.owned a (mem_of_getLast? ha)
    obtain ⟨pb, hpb, _⟩ := h'.owned b (mem_of_head? hb)
    have hrest := h.last a ha pa hpa
    exact ⟨pa, pb, hpa, hpb, hrest, h.ends a (mem_of_getLast? ha) pa hpa hrest, (hstart b hb).1 pb hpb, (hstart b hb).2⟩
  owned := by
    intro c hc
    rcases mem_append.mp hc with hc | hc
    · exact h.owned c hc
    · exact h'.owned c hc
  ends := by
    intro c hc
    rcases mem_append.mp hc with hc | hc
    · exact h.ends c hc
    · exact h'.ends c hc
  last := by
    intro c hc
    rw [List.getLast?_append] at hc
    cases hl : file.getLast? with
    | none => exact h.last c (by simpa [hl] using hc)
    | some d => exact h'.last c (by simpa [hl] using hc)

/-! ## Where a write stops -/

theorem Batch.split_at (h : Batch data) {n : Nat} (hn : 0 < n) (hlt : n < data.length) :
    ∃ a b, (data.take n).getLast? = some a ∧ (data.drop n).head? = some b ∧ Joined a b := by
  have hchain := h.chain
  rw [← take_append_drop n data] at hchain
  have hjoin := (isChain_append.mp hchain).2.2
  have htake : (data.take n) ≠ [] := by
    intro he
    rcases take_eq_nil_iff.mp he with he | he
    · omega
    · simp [he] at hlt
  have hdrop : data.drop n ≠ [] := by
    intro he
    have := drop_eq_nil_iff.mp he
    omega
  obtain ⟨a, ha⟩ := ne_none_iff_exists'.mp (mt List.getLast?_eq_none_iff.mp htake)
  obtain ⟨b, hb⟩ := ne_none_iff_exists'.mp (mt List.head?_eq_none_iff.mp hdrop)
  exact ⟨a, b, ha, hb, hjoin a ha b hb⟩

theorem Batch.splitAfter_eq (h : Batch data) {n : Nat} (hn : 0 < n) (hlt : n < data.length) :
    ∃ a b, (data.take n).getLast? = some a ∧ (data.drop n).head? = some b ∧ Joined a b ∧
      (splitAfter data n = .midLine ↔ a.byte ≠ nl) ∧
      (splitAfter data n = .none ↔ a.byte = nl ∧ b.byte ≠ tab) := by
  obtain ⟨a, b, ha, hb, hj⟩ := h.split_at hn hlt
  refine ⟨a, b, ha, hb, hj, ?_⟩
  simp only [splitAfter, openAfter, continues, ha, hb, any_some, decide_eq_true_eq]
  by_cases hnl : a.byte = nl
  · by_cases htab : b.byte = tab
    · simp [hnl, htab]
    · simp [hnl, htab]
  · simp [hnl]

theorem Joined.inner_of (h : Joined a b) (hs : ¬(a.byte = nl ∧ b.byte ≠ tab)) : Inner a b := by
  rcases h with h | ⟨_, _, _, _, _, ha, _, hb⟩
  · exact h.1
  · exact absurd ⟨ha, hb⟩ hs

theorem Joined.start_of (h : Joined a b) (ha : a.byte = nl) (hb : b.byte ≠ tab) : Starts b := by
  rcases h with ⟨_, h⟩ | ⟨_, pb, _, hpb, _, _, hi, _⟩
  · exact absurd (h ha) hb
  · intro p hp
    rw [hpb] at hp
    obtain rfl := some.inj hp
    exact hi

end Ccollections.Clogger
