import Ccollections.Chttpserver.StreamQueue

/-!
# Counts of the streaming queue
-/

namespace Ccollections.Chttpserver.StreamQueue
open Lib List Option

def Activity.run? : Activity → Option Nat
  | .submitting gen => some gen
  | .undoing gen => some gen
  | .task gen _ => some gen
  | .serving gen _ => some gen
  | _ => none

def Activity.isToken (gen : Nat) (a : Activity) : Bool := a.run? = some gen

def Activity.isUnclaimed (gen : Nat) (a : Activity) : Bool :=
  match a with
  | .task g first => g = gen && first
  | .serving _ _ => false
  | _ => a.run? = some gen

/-- A token start whose first section is still to come, or a flush. A start that belongs to an earlier run ends with a
start of its own; a token task or a handler of an earlier run owes nothing. -/
def Activity.isOwed (gen : Nat) (a : Activity) : Bool :=
  match a with
  | .reading => true
  | .locking _ => true
  | .flushing => true
  | .submitting g => g ≠ gen
  | .undoing g => g ≠ gen
  | _ => false

theorem Activity.isToken_of_isUnclaimed {gen : Nat} {a : Activity} (h : a.isUnclaimed gen = true) : a.isToken gen = true := by
  cases a <;> simp_all [Activity.isUnclaimed, Activity.isToken, Activity.run?]

def Configured (n : Int) : Prop := n = -1 ∨ 0 < n

namespace World

/-- A request only waits where a token of the run is counted, or a start or a flush is owed. -/
def Attended (w : World) : Prop :=
  w.srv.queue = [] ∨ 0 < w.srv.sqTokens ∨ ∃ a ∈ w.acts, a.isOwed w.srv.streamGen = true

structure Inv (w : World) : Prop where
  len : w.srv.sqLen = w.srv.queue.length
  tokens : w.srv.sqTokens = w.acts.countP (·.isToken w.srv.streamGen)
  unclaimed : w.srv.sqUnclaimed = w.acts.countP (·.isUnclaimed w.srv.streamGen)
  gens : ∀ a ∈ w.acts, ∀ gen, a.run? = some gen → gen ≤ w.srv.streamGen
  once : (w.byTask ++ w.bySweep ++ w.byFlush ++ w.srv.queue.map Queued.conn).Perm (List.range w.accepted)
  fifo : (w.byTask ++ w.srv.queue.map Queued.conn).Pairwise (· < ·)
  attended : w.Attended
  configured : w.srv.running = true ∨ w.srv.starting = true ∨ (∃ a ∈ w.acts, a ≠ .flushing) → Configured w.srv.streamThreads
  locking : ∀ a ∈ w.acts, a ≠ .locking 0

theorem Inv.start : Inv start where
  len := rfl
  tokens := rfl
  unclaimed := rfl
  gens := by simp [World.start]
  once := .refl _
  fifo := .nil
  attended := .inl rfl
  configured := by simp [World.start]
  locking := by simp [World.start]

variable {w w' : World} {i : Nat} {a b : Activity}

theorem Inv.unclaimed_le (h : w.Inv) : w.srv.sqUnclaimed ≤ w.srv.sqTokens := by
  rw [h.tokens, h.unclaimed]
  exact countP_mono_left fun a _ ha => Activity.isToken_of_isUnclaimed ha

theorem Inv.tokens_pos (h : w.Inv) (hi : w.acts[i]? = some a) (ha : a.isToken w.srv.streamGen = true) : 0 < w.srv.sqTokens := by
  rw [h.tokens]
  exact countP_pos_iff.mpr ⟨a, mem_of_getElem? hi, ha⟩

theorem toSize_ne_zero {n : Int} (h : Configured n) : toSize n ≠ 0 := by
  unfold toSize
  obtain rfl | hpos := h
  · decide
  · rw [if_neg (by omega)]
    omega

/-! ## Activities that go on -/

structure Goes (w w' : World) : Prop where
  queue : w'.srv.queue = w.srv.queue
  sqLen : w'.srv.sqLen = w.srv.sqLen
  gen : w'.srv.streamGen = w.srv.streamGen
  threads : w'.srv.streamThreads = w.srv.streamThreads
  running : w'.srv.running = w.srv.running
  starting : w'.srv.starting = w.srv.starting
  taken : w'.byTask = w.byTask ∧ w'.bySweep = w.bySweep ∧ w'.byFlush = w.byFlush ∧ w'.accepted = w.accepted

theorem Inv.goes (h : w.Inv) (hg : Goes w w')
    (htokens : w'.srv.sqTokens = w'.acts.countP (·.isToken w.srv.streamGen))
    (hunclaimed : w'.srv.sqUnclaimed = w'.acts.countP (·.isUnclaimed w.srv.streamGen))
    (hgens : ∀ a ∈ w'.acts, ∀ gen, a.run? = some gen → gen ≤ w.srv.streamGen) (hattended : w'.Attended)
    (hconfigured : (∃ a ∈ w'.acts, a ≠ .flushing) → ∃ a ∈ w.acts, a ≠ .flushing)
    (hlocking : ∀ a ∈ w'.acts, a ≠ .locking 0) : w'.Inv where
  len := by
    rw [hg.sqLen, hg.queue]
    exact h.len
  tokens := by
    rw [hg.gen]
    exact htokens
  unclaimed := by
    rw [hg.gen]
    exact hunclaimed
  gens := by
    rw [hg.gen]
    exact hgens
  once := by
    obtain ⟨htask, hsweep, hflush, haccepted⟩ := hg.taken
    rw [htask, hsweep, hflush, haccepted, hg.queue]
    exact h.once
  fifo := by
    rw [hg.taken.1, hg.queue]
    exact h.fifo
  attended := hattended
  configured := by
    rw [hg.running, hg.starting, hg.threads]
    exact fun hor => h.configured (hor.imp_right (Or.imp_right hconfigured))
  locking := hlocking

theorem Inv.become (h : w.Inv) (hi : w.acts[i]? = some a) (hne : a ≠ .flushing)
    (hrun : ∀ gen, b.run? = some gen → a.run? = some gen) (htoken : b.isToken w.srv.streamGen = a.isToken w.srv.streamGen)
    (hunclaimed : b.isUnclaimed w.srv.streamGen = a.isUnclaimed w.srv.streamGen)
    (howed : a.isOwed w.srv.streamGen = true → b.isOwed w.srv.streamGen = true) (hlocking : b ≠ .locking 0) :
    (w.become i b).Inv := by
  have hmem : ∀ x ∈ w.acts.set i b, x ∈ w.acts ∨ x = b := fun x hx => mem_or_eq_of_mem_set hx
  refine h.goes ⟨rfl, rfl, rfl, rfl, rfl, rfl, rfl, rfl, rfl, rfl⟩ ?_ ?_ ?_ ?_ ?_ ?_
  · have hcount := countP_set (·.isToken w.srv.streamGen) hi (b := b)
    rw [htoken] at hcount
    have htokens := h.tokens
    simp only [World.become]
    omega
  · have hcount := countP_set (·.isUnclaimed w.srv.streamGen) hi (b := b)
    rw [hunclaimed] at hcount
    have hold := h.unclaimed
    simp only [World.become]
    omega
  · intro x hx gen hgen
    obtain hx | rfl := hmem x hx
    · exact h.gens x hx gen hgen
    · exact h.gens a (mem_of_getElem? hi) gen (hrun gen hgen)
  · obtain hempty | hpos | ⟨x, hx, hxo⟩ := h.attended
    · exact .inl hempty
    · exact .inr (.inl hpos)
    · refine .inr (.inr ?_)
      by_cases hxa : x = a
      · exact ⟨b, mem_set_self_of_getElem hi b, howed (hxa ▸ hxo)⟩
      · exact ⟨x, mem_set_of_mem hi hx hxa, hxo⟩
  · intro _
    exact ⟨a, mem_of_getElem? hi, hne⟩
  · intro x hx
    obtain hx | rfl := hmem x hx
    · exact h.locking x hx
    · exact hlocking

theorem Inv.spawn (h : w.Inv) (hrun : b.run? = none) (hconfigured : b = .flushing ∨ Configured w.srv.streamThreads)
    (hlocking : b ≠ .locking 0) : (w.spawn b).Inv where
  len := h.len
  tokens := by
    have hb : b.isToken w.srv.streamGen = false := by simp [Activity.isToken, hrun]
    simp [World.spawn, hb, h.tokens]
  unclaimed := by
    have hb : b.isUnclaimed w.srv.streamGen = false := by
      cases b <;> simp_all [Activity.isUnclaimed, Activity.run?]
    simp [World.spawn, hb, h.unclaimed]
  gens := by
    intro x hx gen hgen
    obtain rfl | hx := mem_cons.mp hx
    · rw [hrun] at hgen
      cases hgen
    · exact h.gens x hx gen hgen
  once := h.once
  fifo := h.fifo
  attended := by
    obtain hempty | hpos | ⟨x, hx, hxo⟩ := h.attended
    · exact .inl hempty
    · exact .inr (.inl hpos)
    · exact .inr (.inr ⟨x, mem_cons_of_mem b hx, hxo⟩)
  configured := by
    rintro (hr | hs | ⟨x, hx, hxne⟩)
    · exact h.configured (.inl hr)
    · exact h.configured (.inr (.inl hs))
    · obtain rfl | hx := mem_cons.mp hx
      · exact hconfigured.resolve_left hxne
      · exact h.configured (.inr (.inr ⟨x, hx, hxne⟩))
  locking := by
    intro x hx
    obtain rfl | hx := mem_cons.mp hx
    · exact hlocking
    · exact h.locking x hx

/-! ## The sections -/

theorem Inv.finish (h : w.Inv) (hi : w.acts[i]? = some a) (hrun : a.run? = none) (hattended : (w.finish i).Attended) :
    (w.finish i).Inv := by
  have htokens := h.tokens
  have hunclaimed := h.unclaimed
  have hct := countP_eraseIdx (·.isToken w.srv.streamGen) hi
  have hcu := countP_eraseIdx (·.isUnclaimed w.srv.streamGen) hi
  have htoken : a.isToken w.srv.streamGen = false := by simp [Activity.isToken, hrun]
  have hun : a.isUnclaimed w.srv.streamGen = false := by
    cases hu : a.isUnclaimed w.srv.streamGen with
    | false => rfl
    | true => rw [Activity.isToken_of_isUnclaimed hu] at htoken; cases htoken
  simp only [htoken, hun, Bool.false_eq_true, if_false, Nat.add_zero] at hct hcu
  have hsub : ∀ x ∈ w.acts.eraseIdx i, x ∈ w.acts := fun x hx => (eraseIdx_sublist _ _).mem hx
  exact h.goes ⟨rfl, rfl, rfl, rfl, rfl, rfl, rfl, rfl, rfl, rfl⟩ (htokens.trans hct.symm) (hunclaimed.trans hcu.symm)
    (fun x hx => h.gens x (hsub x hx)) hattended (fun ⟨x, hx, hne⟩ => ⟨x, hsub x hx, hne⟩)
    fun x hx => h.locking x (hsub x hx)

theorem Attended.finish (h : w.Attended) (hi : w.acts[i]? = some a) (howed : a.isOwed w.srv.streamGen = false) :
    (w.finish i).Attended := by
  obtain hempty | hpos | ⟨x, hx, hxo⟩ := h
  · exact .inl hempty
  · exact .inr (.inl hpos)
  · refine .inr (.inr ⟨x, ?_, hxo⟩)
    have hxa : x ≠ a := by
      rintro rfl
      rw [howed] at hxo
      cases hxo
    exact mem_eraseIdx_of_mem hi hx hxa

theorem Inv.enqueue (h : w.Inv) : w.enqueue.Inv := by
  unfold World.enqueue
  split
  · rename_i hrunning
    exact h.spawn rfl (.inr (h.configured (.inl hrunning))) (by simp)
  · exact h

theorem Inv.enqueueLock (h : w.Inv) (hi : w.acts[i]? = some .enqueuing) (deadline qcap : Option Nat) :
    (w.enqueueLock i deadline qcap).Inv := by
  unfold World.enqueueLock
  split
  · exact h.finish hi rfl (h.attended.finish hi rfl)
  have hreading := h.become hi (b := .reading) (by simp) (by simp [Activity.run?]) rfl rfl (fun _ => rfl) (by simp)
  have hlast : ∀ n ∈ w.byTask ++ w.srv.queue.map Queued.conn, n < w.accepted := by
    intro n hn
    refine mem_range.mp (h.once.mem_iff.mp ?_)
    obtain hn | hn := mem_append.mp hn
    · simp [hn]
    · simp [mem_map.mp hn]
  exact { hreading with
    len := by simp [h.len]
    once := by
      rw [map_append, ← append_assoc, range_succ]
      exact h.once.append_right _
    fifo := by
      rw [map_append, ← append_assoc]
      refine pairwise_append.mpr ⟨h.fifo, pairwise_singleton _ _, ?_⟩
      intro n hn m hm
      obtain rfl := mem_singleton.mp hm
      exact hlast n hn
    attended := .inr (.inr ⟨.reading, mem_set_self_of_getElem hi _, rfl⟩) }

theorem Inv.startLock {n : Nat} (h : w.Inv) (hi : w.acts[i]? = some (.locking n)) : (w.startLock i n).Inv := by
  have hn : n ≠ 0 := by
    rintro rfl
    exact h.locking _ (mem_of_getElem? hi) rfl
  have htokens := h.tokens
  have hunclaimed := h.unclaimed
  have hle := h.unclaimed_le
  unfold World.startLock
  split
  · have hct := countP_set (·.isToken w.srv.streamGen) hi (b := .submitting w.srv.streamGen)
    have hcu := countP_set (·.isUnclaimed w.srv.streamGen) hi (b := .submitting w.srv.streamGen)
    simp only [Activity.isToken, Activity.isUnclaimed, Activity.run?, decide_true, reduceCtorEq, decide_false,
      Bool.false_eq_true, if_true, if_false, Nat.add_zero] at hct hcu
    refine h.goes ⟨rfl, rfl, rfl, rfl, rfl, rfl, rfl, rfl, rfl, rfl⟩ ?_ ?_ ?_ (.inr (.inl (Nat.succ_pos _))) ?_ ?_
    · dsimp only
      rw [htokens]
      exact hct.symm
    · dsimp only
      rw [hunclaimed]
      exact hcu.symm
    · intro x hx gen hgen
      obtain hx | rfl := mem_or_eq_of_mem_set hx
      · exact h.gens x hx gen hgen
      · exact Nat.le_of_eq (some.inj hgen).symm
    · intro _
      exact ⟨_, mem_of_getElem? hi, by simp⟩
    · intro x hx
      obtain hx | rfl := mem_or_eq_of_mem_set hx
      · exact h.locking x hx
      · simp
  · rename_i hno
    refine h.finish hi rfl ?_
    -- Whoever does not start a token leaves one that is counted, or an empty queue.
    by_cases hempty : w.srv.queue = []
    · exact .inl hempty
    · refine .inr (.inl ?_)
      have hlen := h.len
      have hpos := length_pos_iff.mpr hempty
      dsimp only [World.finish]
      by_cases hu : w.srv.sqUnclaimed < w.srv.sqLen
      · have hfull : ¬ w.srv.sqTokens < n := fun hlt => hno ⟨hempty, hu, hlt⟩
        omega
      · omega

theorem Inv.submit {gen : Nat} {ok : Bool} (h : w.Inv) (hi : w.acts[i]? = some (.submitting gen))
    (hs : w.step (.submit i ok) = some w') : w'.Inv := by
  simp only [World.step, hi] at hs
  split at hs
  · obtain rfl := some.inj hs
    have hgen := h.gens _ (mem_of_getElem? hi) gen rfl
    have hct := countP_set (·.isToken w.srv.streamGen) hi (b := .reading)
    have hcu := countP_set (·.isUnclaimed w.srv.streamGen) hi (b := .reading)
    have htokens := h.tokens
    have hunclaimed := h.unclaimed
    refine h.goes ⟨rfl, rfl, rfl, rfl, rfl, rfl, rfl, rfl, rfl, rfl⟩ ?_ ?_ ?_ ?_ ?_ ?_
    · simp only [World.spawn, World.become, countP_cons]
      simp only [Activity.isToken, Activity.run?, some.injEq, reduceCtorEq, decide_false, Bool.false_eq_true,
        if_false, Nat.add_zero] at hct htokens ⊢
      exact htokens.trans hct.symm
    · simp only [World.spawn, World.become, countP_cons]
      simp only [Activity.isUnclaimed, Activity.run?, some.injEq, reduceCtorEq, decide_false, Bool.false_eq_true,
        if_false, Nat.add_zero, Bool.and_true] at hcu hunclaimed ⊢
      exact hunclaimed.trans hcu.symm
    · intro x hx g hg
      obtain rfl | hx := mem_cons.mp hx
      · exact some.inj hg ▸ hgen
      · obtain hx | rfl := mem_or_eq_of_mem_set hx
        · exact h.gens x hx g hg
        · cases hg
    · exact .inr (.inr ⟨.reading, mem_cons_of_mem _ (mem_set_self_of_getElem hi _), rfl⟩)
    · intro _
      exact ⟨_, mem_of_getElem? hi, by simp⟩
    · intro x hx
      obtain rfl | hx := mem_cons.mp hx
      · simp
      · obtain hx | rfl := mem_or_eq_of_mem_set hx
        · exact h.locking x hx
        · simp
  · obtain rfl := some.inj hs
    exact h.become hi (by simp) (fun _ hg => hg) rfl rfl id (by simp)

theorem Inv.uncount (h : w.Inv) (hi : w.acts[i]? = some a) (ha : a.isToken w.srv.streamGen = true) {acts : List Activity}
    {n : Nat} (hn : n + (if a.isUnclaimed w.srv.streamGen then 1 else 0) = w.srv.sqUnclaimed)
    (hperm : acts.Perm (w.acts.eraseIdx i) ∨ acts.Perm (.flushing :: w.acts.eraseIdx i))
    (hattended : w.srv.queue = [] ∨ 0 < w.srv.sqTokens - 1 ∨ .flushing ∈ acts) :
    ({ w with srv := { w.srv with sqTokens := w.srv.sqTokens - 1, sqUnclaimed := n }, acts := acts } : World).Inv := by
  have htokens := h.tokens
  have hunclaimed := h.unclaimed
  have hct := countP_eraseIdx (·.isToken w.srv.streamGen) hi
  have hcu := countP_eraseIdx (·.isUnclaimed w.srv.streamGen) hi
  simp only [ha, if_true] at hct
  have hmem : ∀ x ∈ acts, x ∈ w.acts ∨ x = .flushing := by
    intro x hx
    obtain hp | hp := hperm
    · exact .inl ((eraseIdx_sublist _ _).mem (hp.mem_iff.mp hx))
    · obtain rfl | hx := mem_cons.mp (hp.mem_iff.mp hx)
      · exact .inr rfl
      · exact .inl ((eraseIdx_sublist _ _).mem hx)
  have hcount : ∀ p : Activity → Bool, p .flushing = false → acts.countP p = (w.acts.eraseIdx i).countP p := by
    intro p hp
    obtain hperm | hperm := hperm
    · exact hperm.countP_eq p
    · rw [hperm.countP_eq p, countP_cons, hp]
      rfl
  refine h.goes ⟨rfl, rfl, rfl, rfl, rfl, rfl, rfl, rfl, rfl, rfl⟩ ?_ ?_ ?_ ?_ ?_ ?_
  · rw [hcount _ rfl]
    dsimp only
    omega
  · rw [hcount _ rfl]
    dsimp only
    omega
  · intro x hx gen hgen
    obtain hx | rfl := hmem x hx
    · exact h.gens x hx gen hgen
    · cases hgen
  · obtain hempty | hpos | hflush := hattended
    · exact .inl hempty
    · exact .inr (.inl hpos)
    · exact .inr (.inr ⟨.flushing, hflush, rfl⟩)
  · rintro ⟨x, hx, hne⟩
    exact ⟨x, (hmem x hx).resolve_right hne, hne⟩
  · intro x hx
    obtain hx | rfl := hmem x hx
    · exact h.locking x hx
    · simp

theorem Inv.undo {gen : Nat} (h : w.Inv) (hi : w.acts[i]? = some (.undoing gen)) : (w.undo i gen).Inv := by
  unfold World.undo
  split
  · rename_i hgen
    subst hgen
    have htok : (Activity.undoing w.srv.streamGen).isToken w.srv.streamGen = true := by
      simp [Activity.isToken, Activity.run?]
    have hun : (Activity.undoing w.srv.streamGen).isUnclaimed w.srv.streamGen = true := by
      simp [Activity.isUnclaimed, Activity.run?]
    have hpos : 0 < w.srv.sqUnclaimed := by
      rw [h.unclaimed]
      exact countP_pos_iff.mpr ⟨_, mem_of_getElem? hi, hun⟩
    have hn : w.srv.sqUnclaimed - 1 + (if (Activity.undoing w.srv.streamGen).isUnclaimed w.srv.streamGen then 1 else 0) =
        w.srv.sqUnclaimed := by
      rw [if_pos hun]
      omega
    dsimp only
    split
    · exact h.uncount hi htok hn (.inr (perm_set hi _)) (.inr (.inr (mem_set_self_of_getElem hi _)))
    · rename_i hleft
      exact h.uncount hi htok hn (.inl (.refl _)) (.inr (.inl (Nat.pos_of_ne_zero hleft)))
  · rename_i hgen
    refine h.become hi (by simp) (by simp [Activity.run?]) ?_ ?_ (fun _ => rfl) (by simp)
    · simp [Activity.isToken, Activity.run?, Ne.symm hgen]
    · simp [Activity.isUnclaimed, Activity.run?, Ne.symm hgen]

theorem Inv.leave (h : w.Inv) {queue : List Queued} {sqLen : Nat} {bySweep byFlush : List Nat} (hlen : sqLen = queue.length)
    (hsub : queue.Sublist w.srv.queue)
    (honce : (w.byTask ++ bySweep ++ byFlush ++ queue.map Queued.conn).Perm
      (w.byTask ++ w.bySweep ++ w.byFlush ++ w.srv.queue.map Queued.conn)) :
    ({ w with srv := { w.srv with queue := queue, sqLen := sqLen }, bySweep := bySweep, byFlush := byFlush } : World).Inv :=
  { h with
    len := hlen
    once := honce.trans h.once
    fifo := h.fifo.sublist ((List.Sublist.refl _).append (hsub.map _))
    attended := by
      obtain hempty | hrest := h.attended
      · refine .inl ?_
        rw [hempty] at hsub
        exact eq_nil_of_sublist_nil hsub
      · exact .inr hrest }

theorem Inv.sweep (h : w.Inv) (now : Nat) : (w.sweep now).Inv := by
  have hlen := length_eq_length_filter_add (l := w.srv.queue) (·.expired now)
  have hsplit := filter_append_perm (·.expired now) w.srv.queue
  refine h.leave ?_ filter_sublist ?_
  · rw [h.len]
    omega
  · have hmap := hsplit.map Queued.conn
    rw [map_append] at hmap
    refine perm_iff_count.mpr fun n => ?_
    have hn := hmap.count_eq n
    simp only [count_append] at hn ⊢
    omega

theorem Inv.flushBatch (h : w.Inv) (hi : w.acts[i]? = some .flushing) : (w.flushBatch i).Inv := by
  unfold World.flushBatch
  dsimp only
  split
  · rename_i hbatch
    have hempty : w.srv.queue = [] := by
      obtain hzero | hempty := take_eq_nil_iff.mp hbatch
      · cases hzero
      · exact hempty
    exact h.finish hi rfl (.inl hempty)
  · have hdrop : w.srv.queue.drop (w.srv.queue.take chttpsvrIdleCloseBatch).length =
        w.srv.queue.drop chttpsvrIdleCloseBatch := by
      rw [length_take]
      obtain hle | hle := Nat.le_total chttpsvrIdleCloseBatch w.srv.queue.length
      · rw [Nat.min_eq_left hle]
      · rw [Nat.min_eq_right hle, drop_length, drop_eq_nil_of_le hle]
    refine h.leave ?_ (drop_sublist _ _) ?_
    · rw [h.len, length_drop]
    · rw [hdrop]
      refine perm_iff_count.mpr fun n => ?_
      have hn := congrArg (fun l => (l.map Queued.conn).count n)
        (take_append_drop chttpsvrIdleCloseBatch w.srv.queue)
      simp only [map_append, count_append] at hn ⊢
      omega

theorem Inv.take (h : w.Inv) {c : Queued} {rest : List Queued} {gen n : Nat} {first : Bool}
    (hi : w.acts[i]? = some (.task gen first)) (hgen : w.srv.streamGen = gen) (hqueue : w.srv.queue = c :: rest)
    (hn : n + (if first then 1 else 0) = w.srv.sqUnclaimed) :
    ({ w with
        srv := { w.srv with sqUnclaimed := n, queue := rest, sqLen := w.srv.sqLen - 1 }
        acts := w.acts.set i (.serving gen c.conn)
        byTask := w.byTask ++ [c.conn] } : World).Inv := by
  subst hgen
  have htokens := h.tokens
  have hunclaimed := h.unclaimed
  have hct := countP_set (·.isToken w.srv.streamGen) hi (b := .serving w.srv.streamGen c.conn)
  have hcu := countP_set (·.isUnclaimed w.srv.streamGen) hi (b := .serving w.srv.streamGen c.conn)
  have hta : (Activity.task w.srv.streamGen first).isToken w.srv.streamGen = true := by
    simp [Activity.isToken, Activity.run?]
  have htb : (Activity.serving w.srv.streamGen c.conn).isToken w.srv.streamGen = true := by
    simp [Activity.isToken, Activity.run?]
  have hua : (Activity.task w.srv.streamGen first).isUnclaimed w.srv.streamGen = first := by simp [Activity.isUnclaimed]
  have hub : (Activity.serving w.srv.streamGen c.conn).isUnclaimed w.srv.streamGen = false := rfl
  simp only [hta, htb, hua, hub, if_true, Bool.false_eq_true, if_false] at hct hcu
  have hpos := h.tokens_pos hi hta
  have hlen := h.len
  rw [hqueue, length_cons] at hlen
  exact {
    len := by
      dsimp only
      omega
    tokens := by
      dsimp only
      omega
    unclaimed := by
      dsimp only
      omega
    gens := by
      intro x hx g hg
      obtain hx | rfl := mem_or_eq_of_mem_set hx
      · exact h.gens x hx g hg
      · exact Nat.le_of_eq (some.inj hg).symm
    once := by
      refine List.Perm.trans (perm_iff_count.mpr fun m => ?_) h.once
      rw [hqueue]
      simp only [map_cons, count_append, count_cons, count_nil]
      omega
    fifo := by
      have hfifo := h.fifo
      rw [hqueue, map_cons] at hfifo
      rwa [append_assoc]
    attended := .inr (.inl hpos)
    configured := by
      rintro (hr | hs | -)
      · exact h.configured (.inl hr)
      · exact h.configured (.inr (.inl hs))
      · exact h.configured (.inr (.inr ⟨_, mem_of_getElem? hi, by simp⟩))
    locking := by
      intro x hx
      obtain hx | rfl := mem_or_eq_of_mem_set hx
      · exact h.locking x hx
      · simp }

theorem Inv.taskLock {gen : Nat} {first : Bool} (h : w.Inv) (hi : w.acts[i]? = some (.task gen first)) :
    (w.taskLock i gen first).Inv := by
  unfold World.taskLock
  split
  · rename_i hgen
    refine h.become hi (by simp) (by simp [Activity.run?]) ?_ ?_ (fun _ => rfl) (by simp)
    · simp [Activity.isToken, Activity.run?, Ne.symm hgen]
    · simp [Activity.isUnclaimed, Activity.run?, Ne.symm hgen]
  · rename_i hgen
    have hgen : w.srv.streamGen = gen := by
      by_contra hne
      exact hgen hne
    have hun : (Activity.task gen first).isUnclaimed w.srv.streamGen = first := by simp [Activity.isUnclaimed, hgen]
    have hpos : first = true → 0 < w.srv.sqUnclaimed := by
      intro hfirst
      rw [h.unclaimed]
      exact countP_pos_iff.mpr ⟨_, mem_of_getElem? hi, hun.trans hfirst⟩
    have hn : (if first then w.srv.sqUnclaimed - 1 else w.srv.sqUnclaimed) + (if first then 1 else 0) = w.srv.sqUnclaimed := by
      cases first with
      | false => rfl
      | true =>
        have hp := hpos rfl
        simp only [if_true]
        omega
    dsimp only
    split
    · rename_i hempty
      refine h.uncount hi (by simp [Activity.isToken, Activity.run?, hgen]) ?_ (.inl (.refl _)) (.inl hempty)
      rw [hun]
      exact hn
    · rename_i c rest hqueue
      exact h.take hi hgen hqueue hn

theorem Inv.newRun (h : w.Inv) (running : Bool) (hrun : b.run? = none) (howed : b.isOwed (w.srv.streamGen + 1) = true)
    (hb : b = .flushing ∨ Configured w.srv.streamThreads) (hlocking : b ≠ .locking 0)
    (hconfigured : running = true → Configured w.srv.streamThreads) : ((w.newRun running).spawn b).Inv := by
  have hstale : ∀ a ∈ b :: w.acts, ¬a.isToken (w.srv.streamGen + 1) = true := by
    intro a ha htoken
    have hgen := of_decide_eq_true htoken
    obtain rfl | ha := mem_cons.mp ha
    · rw [hrun] at hgen
      cases hgen
    · have hle := h.gens a ha _ hgen
      omega
  exact {
    len := h.len
    tokens := (countP_eq_zero.mpr hstale).symm
    unclaimed := (countP_eq_zero.mpr fun a ha hun => hstale a ha (Activity.isToken_of_isUnclaimed hun)).symm
    gens := by
      intro a ha gen hgen
      obtain rfl | ha := mem_cons.mp ha
      · rw [hrun] at hgen
        cases hgen
      · exact Nat.le_succ_of_le (h.gens a ha gen hgen)
    once := h.once
    fifo := h.fifo
    attended := .inr (.inr ⟨b, mem_cons_self, howed⟩)
    configured := by
      rintro (hr | hs | ⟨a, ha, hne⟩)
      · exact hconfigured hr
      · exact h.configured (.inr (.inl hs))
      · obtain rfl | ha := mem_cons.mp ha
        · exact hb.resolve_left hne
        · exact h.configured (.inr (.inr ⟨a, ha, hne⟩))
    locking := by
      intro a ha
      obtain rfl | ha := mem_cons.mp ha
      · exact hlocking
      · exact h.locking a ha }

theorem resolveStreamThreads_configured (streamingThreadCount workerThreadCount cpus : Int) :
    Configured (resolveStreamThreads streamingThreadCount (resolveWorkers workerThreadCount cpus)) := by
  have hworkers : 0 < resolveWorkers workerThreadCount cpus := by
    unfold resolveWorkers
    split
    · split <;> omega
    · omega
  simp only [resolveStreamThreads]
  by_cases hzero : streamingThreadCount = 0
  · rw [if_pos hzero, if_neg (by omega)]
    exact .inr hworkers
  · rw [if_neg hzero]
    by_cases hneg : streamingThreadCount < 0
    · rw [if_pos hneg]
      exact .inl rfl
    · rw [if_neg hneg]
      exact .inr (by omega)

theorem Inv.step {a : Action} (h : w.Inv) (hs : w.step a = some w') : w'.Inv := by
  cases a with
  | enqueue => exact some.inj hs ▸ h.enqueue
  | enqueueLock i deadline qcap =>
    simp only [World.step] at hs
    split at hs
    · rename_i hi
      exact some.inj hs ▸ h.enqueueLock hi deadline qcap
    · cases hs
  | startRead i =>
    simp only [World.step] at hs
    split at hs
    · rename_i hi
      have hconf := h.configured (.inr (.inr ⟨_, mem_of_getElem? hi, by simp⟩))
      exact some.inj hs ▸ h.become hi (by simp) (by simp [Activity.run?]) rfl rfl id (by simp [toSize_ne_zero hconf])
    · cases hs
  | startLock i =>
    simp only [World.step] at hs
    split at hs
    · rename_i n hi
      exact some.inj hs ▸ h.startLock hi
    · cases hs
  | submit i ok =>
    have hstep := hs
    simp only [World.step] at hs
    split at hs
    · rename_i gen hi
      exact h.submit hi hstep
    · cases hs
  | undo i =>
    simp only [World.step] at hs
    split at hs
    · rename_i gen hi
      exact some.inj hs ▸ h.undo hi
    · cases hs
  | flushBatch i =>
    simp only [World.step] at hs
    split at hs
    · rename_i hi
      exact some.inj hs ▸ h.flushBatch hi
    · cases hs
  | taskLock i =>
    simp only [World.step] at hs
    split at hs
    · rename_i gen first hi
      exact some.inj hs ▸ h.taskLock hi
    · cases hs
  | served i =>
    simp only [World.step] at hs
    split at hs
    · rename_i gen conn hi
      refine some.inj hs ▸ h.become hi (by simp) (fun _ hg => hg) rfl ?_ id (by simp)
      simp [Activity.isUnclaimed]
    · cases hs
  | sweep now => exact some.inj hs ▸ h.sweep now
  | flush => exact some.inj hs ▸ h.spawn rfl (.inl rfl) (by simp)
  | startStore streamingThreadCount workerThreadCount cpus =>
    simp only [World.step] at hs
    split at hs
    · cases hs
    · obtain rfl := some.inj hs
      exact { h with
        configured := fun _ => resolveStreamThreads_configured streamingThreadCount workerThreadCount cpus }
  | startRun =>
    simp only [World.step] at hs
    split at hs
    · rename_i hstarting
      have hconf := h.configured (.inr (.inl hstarting))
      exact some.inj hs ▸ h.newRun true rfl rfl (.inr hconf) (by simp) fun _ => hconf
    · cases hs
  | startFail =>
    simp only [World.step] at hs
    split at hs
    · rename_i hstarting
      have hconf := h.configured (.inr (.inl hstarting))
      exact some.inj hs ▸ h.newRun false rfl rfl (.inr hconf) (by simp) fun _ => hconf
    · cases hs
  | startDone =>
    simp only [World.step] at hs
    split at hs
    · obtain rfl := some.inj hs
      exact { h with
        configured := by
          rintro (hr | hf | hact)
          · exact h.configured (.inl hr)
          · cases hf
          · exact h.configured (.inr (.inr hact)) }
    · cases hs
  | retire => exact some.inj hs ▸ h.newRun false rfl rfl (.inl rfl) (by simp) (by simp)

theorem Reachable.inv (h : w.Reachable) : w.Inv := Reach.invariant Inv.start (fun _ _ _ hinv hs => hinv.step hs) h

end World

end Ccollections.Chttpserver.StreamQueue
