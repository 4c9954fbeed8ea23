import Ccollections.Cpintable.Lemmas.Invariant

/-!
# Every step keeps the invariant

A step is split into the change of its own thread (`Inv.setThread`) and the change of the table
(`Inv.global`), in the order in which the invariant holds between the two.
-/

namespace Ccollections.Cpintable

open Function List Option

variable {T : Type} [Fintype T] [DecidableEq T] {s s' : State T} {t : T}
variable {a : Act} {h : UInt64}

/-! ## The two kinds of change -/

structure Moves (s : State T) (t : T) (th : Thread) : Prop where
  stripe : (s.threads t).stripeId ≠ 0 → th.stripeId = (s.threads t).stripeId
  unassigned : th.stripeId = 0 → ∀ idx, th.tokens idx = 0
  holds : ∀ idx gen, gen ∈ s.retired idx → th.Holds idx gen → (s.threads t).Holds idx gen
  held : ∀ pin ∈ th.held, (handleGen pin.1, pin.2) ∈ s.published (handleIdx pin.1)

theorem Inv.setThread (hs : Inv s) {th : Thread} (hth : Moves s t th) {n : Nat} {w : Option T}
    (hw : ∀ t', t' ≠ t → s.writer = some t' → w = some t')
    (hcounts : ∀ idx stripe, (s.setThread t th).load idx stripe ≤ s.count idx stripe)
    (hpc : PcOk { s.setThread t th with stripeNext := n, writer := w } t th.pc) :
    Inv { s.setThread t th with stripeNext := n, writer := w } := by
  have hself := threads_setThread_self s t th
  have hother : ∀ t', t' ≠ t → (s.setThread t th).threads t' = s.threads t' :=
    fun t' hne => threads_setThread_of_ne s hne th
  have he : Ext t s { s.setThread t th with stripeNext := n, writer := w } :=
    { threads := hother
      writer := hw
      stripes := fun _ h => h
      chunks := fun _ h => h
      published := fun _ _ h => h
      retired := fun _ _ h => h
      drained := fun _ _ h => h
      owner := .inr fun _ => ⟨rfl, rfl, rfl, fun h => h⟩
      ptr := fun _ => .inl rfl
      holds := fun idx gen hret h => hth.holds idx gen hret (hself ▸ h)
      stripe := fun h => hself.symm ▸ hth.stripe h }
  constructor
  · exact hcounts
  · intro t' hzero
    by_cases htt : t' = t
    · subst htt
      exact hself.symm ▸ hth.unassigned (hself ▸ hzero)
    · exact (hother t' htt).symm ▸ hs.unassigned t' (hother t' htt ▸ hzero)
  · exact hs.live
  · exact hs.distinct
  · exact hs.retired_published
  · exact hs.drained_retired
  · intro idx gen hgen t' hh
    exact hs.drained_free idx gen hgen t' (he.holds_any (hs.drained_retired idx gen hgen) hh)
  · exact hs.chunk
  · exact hs.chunk_lt
  · intro t'
    by_cases htt : t' = t
    · subst htt
      exact hself.symm ▸ hpc
    · exact he.pcOk hs htt
  · intro t'
    by_cases htt : t' = t
    · subst htt
      exact hself.symm ▸ hth.held
    · exact (hother t' htt).symm ▸ hs.held t'

theorem Moves.load_le {th : Thread} (hth : Moves s t th) (hs : Inv s)
    (htokens : ∀ idx, th.tokens idx ≤ (s.threads t).tokens idx) (idx : UInt32) (stripe : Nat) :
    (s.setThread t th).load idx stripe ≤ s.count idx stripe := by
  have hle := hs.counts idx stripe
  have htok := htokens idx
  rw [load_setThread]
  by_cases hzero : (s.threads t).stripeId = 0
  · have hnone := hs.unassigned t hzero idx
    have hnone' : th.tokens idx = 0 := Nat.le_zero.mp (hnone ▸ htok)
    simp only [hnone, hnone', Nat.cast_zero, ite_self, sub_zero, add_zero]
    exact hle
  · have hstripe : th.stripe = (s.threads t).stripe := by
      rw [Thread.stripe, hth.stripe hzero, Thread.stripe]
    rw [hstripe]
    split <;> omega

omit [DecidableEq T] in
theorem Moves.pc (hs : Inv s) {pc : Pc} (hassigned : (s.threads t).stripeId = 0 → ∀ idx, pcToken pc idx = 0)
    (hptr : ∀ h, pc = .pinPtr h → handleGen h ∉ s.retired (handleIdx h)) : Moves s t { s.threads t with pc := pc } := by
  constructor
  · exact fun _ => rfl
  · intro hzero idx
    have hnone := hs.unassigned t hzero idx
    rw [Thread.tokens] at hnone ⊢
    rw [Nat.add_eq_zero_iff] at hnone ⊢
    exact ⟨hnone.1, hassigned hzero idx⟩
  · intro idx gen hret hh
    rcases hh with hheld | ⟨h, hpc, hidx, hgen⟩
    · exact .inl hheld
    · subst hidx hgen
      exact (hptr h hpc hret).elim
  · exact hs.held t

theorem Inv.setPc (hs : Inv s) {pc : Pc} (htokens : ∀ idx, pcToken pc idx ≤ pcToken (s.threads t).pc idx)
    (hptr : ∀ h, pc = .pinPtr h → handleGen h ∉ s.retired (handleIdx h)) (hpc : PcOk (s.setPc t pc) t pc) :
    Inv (s.setPc t pc) := by
  have hmoves : Moves s t { s.threads t with pc := pc } := by
    apply Moves.pc hs _ hptr
    intro hzero idx
    have hnone := hs.unassigned t hzero idx
    have hle := htokens idx
    rw [Thread.tokens] at hnone
    omega
  exact hs.setThread hmoves (fun _ _ h => h)
    (hmoves.load_le hs fun idx => Nat.add_le_add_left (htokens idx) _) hpc

theorem Inv.setQuiet (hs : Inv s) {pc : Pc} (hquiet : ∀ idx, pcToken pc idx = 0) (hptr : ∀ h, pc ≠ .pinPtr h)
    (hpc : PcOk (s.setPc t pc) t pc) : Inv (s.setPc t pc) :=
  hs.setPc (fun idx => hquiet idx ▸ Nat.zero_le _) (fun h heq => (hptr h heq).elim) hpc

theorem Inv.setIdle (hs : Inv s) : Inv (s.setPc t .idle) :=
  hs.setQuiet (fun _ => rfl) (fun _ heq => Pc.noConfusion heq) trivial

theorem Inv.global (hs : Inv s) (he : Ext t s s') (hth : s'.threads = s.threads)
    (hcounts : ∀ idx stripe, s.load idx stripe ≤ s'.count idx stripe)
    (hlive : ∀ idx gen, (s'.slots idx).state = { gen := gen, live := true } →
      (gen, (s'.slots idx).ptr) ∈ s'.published idx ∧ gen ∉ s'.retired idx)
    (hdistinct : ∀ idx, ((s'.published idx).map Prod.fst).Nodup)
    (hretired : ∀ idx gen, gen ∈ s'.retired idx → ∃ ptr, (gen, ptr) ∈ s'.published idx)
    (hdrained : ∀ idx gen, gen ∈ s'.drained idx → gen ∈ s'.retired idx ∧ ∀ t', ¬(s.threads t').Holds idx gen)
    (hchunk : ∀ idx, (s'.slots idx).stripes.isSome → s'.chunks (chunkIdx idx))
    (hchunk_lt : ∀ c, s'.chunks c → c < ccolPinMaxChunks)
    (hpc : PcOk s' t (s.threads t).pc) : Inv s' := by
  constructor
  · intro idx stripe
    have hload : s'.load idx stripe = s.load idx stripe := by rw [State.load, hth, State.load]
    exact hload ▸ hcounts idx stripe
  · exact hth ▸ hs.unassigned
  · exact hlive
  · exact hdistinct
  · exact hretired
  · exact fun idx gen h => (hdrained idx gen h).1
  · exact hth ▸ fun idx gen h => (hdrained idx gen h).2
  · exact hchunk
  · exact hchunk_lt
  · intro t'
    by_cases htt : t' = t
    · subst htt
      exact hth ▸ hpc
    · exact he.pcOk hs htt
  · intro t' pin hpin
    rw [hth] at hpin
    exact he.published _ (hs.held t' pin hpin)

/-! ## The counters -/

theorem Inv.addCount (hs : Inv s) {idx : UInt32} {stripe : Nat} {d : Int}
    (hd : s.load idx stripe ≤ s.count idx stripe + d) (hpc : PcOk (s.addCount idx stripe d) t (s.threads t).pc) :
    Inv (s.addCount idx stripe d) := by
  have hslots := slots_addCount s idx stripe d
  have he : Ext t s (s.addCount idx stripe d) :=
    { threads := fun _ _ => rfl
      writer := fun _ _ h => h
      stripes := fun idx' h => (hslots idx').2.2 ▸ h
      chunks := fun _ h => h
      published := fun _ _ h => h
      retired := fun _ _ h => h
      drained := fun _ _ h => h
      owner := .inr fun idx' => by
        refine ⟨rfl, (hslots idx').1, (hslots idx').2.1, fun h => ?_⟩
        rw [← not_isSome, (hslots idx').2.2, not_isSome]
        exact h
      ptr := fun idx' => .inl (hslots idx').2.1
      holds := fun _ _ _ h => h
      stripe := fun _ => rfl }
  refine hs.global he rfl ?_ ?_ hs.distinct hs.retired_published ?_ ?_ hs.chunk_lt hpc
  · intro idx' stripe'
    rw [count_addCount]
    have hle := hs.counts idx' stripe'
    split
    · rename_i hcond
      obtain ⟨rfl, rfl, -⟩ := hcond
      exact hd
    · omega
  · intro idx' gen hstate
    rw [(hslots idx').1] at hstate
    rw [(hslots idx').2.1]
    exact hs.live idx' gen hstate
  · exact fun idx' gen h => ⟨hs.drained_retired idx' gen h, hs.drained_free idx' gen h⟩
  · exact fun idx' h => hs.chunk idx' ((hslots idx').2.2 ▸ h)

theorem Inv.pinAdd (hs : Inv s) (hpc : (s.threads t).pc = .pinAdd h) :
    Inv ((s.addCount (handleIdx h) (s.threads t).stripe 1).setPc t (.pinRecheck h)) := by
  have hok := hs.pcs t
  rw [hpc] at hok
  have hs₁ : Inv (s.addCount (handleIdx h) (s.threads t).stripe 1) := by
    apply hs.addCount (t := t)
    · have hle := hs.counts (handleIdx h) (s.threads t).stripe
      omega
    · rw [hpc]
      exact ⟨(slots_addCount s _ _ _ _).2.2.trans hok.1, hok.2⟩
  have hmoves : Moves (s.addCount (handleIdx h) (s.threads t).stripe 1) t { s.threads t with pc := .pinRecheck h } := by
    apply Moves.pc hs₁
    · exact fun hzero => (hok.2 hzero).elim
    · exact fun _ heq => Pc.noConfusion heq
  refine hs₁.setThread hmoves (fun _ _ hw => hw) ?_ trivial
  intro idx stripe
  have hload : (s.addCount (handleIdx h) (s.threads t).stripe 1).load idx stripe = s.load idx stripe := rfl
  have hthread : (s.addCount (handleIdx h) (s.threads t).stripe 1).threads t = s.threads t := rfl
  have hstripe : Thread.stripe { s.threads t with pc := .pinRecheck h } = (s.threads t).stripe := rfl
  have hle := hs.counts idx stripe
  rw [load_setThread, hload, hthread, hstripe, count_addCount]
  simp only [Thread.tokens, hpc, pcToken, hok.1, and_true]
  by_cases hst : (s.threads t).stripe = stripe
  · subst hst
    by_cases hidx : handleIdx h = idx
    · subst hidx
      simp only [if_true, and_self, Nat.cast_add, Nat.cast_one, Nat.cast_zero]
      omega
    · simp only [hidx, if_true, if_false, Ne.symm hidx, false_and]
      omega
  · simp only [hst, Ne.symm hst, if_false, and_false]
    omega

theorem Inv.decrement (hs : Inv s) (hpc : ∀ idx, pcToken (s.threads t).pc idx = if handleIdx h = idx then 1 else 0) :
    Inv ((s.addCount (handleIdx h) (s.threads t).stripe (-1)).setPc t .idle) := by
  have hs₁ : Inv (s.setPc t .idle) := hs.setIdle
  apply hs₁.addCount (t := t)
  · have hle := hs.counts (handleIdx h) (s.threads t).stripe
    have hstripe : Thread.stripe { s.threads t with pc := .idle } = (s.threads t).stripe := rfl
    have hcount : (s.setPc t .idle).count (handleIdx h) (s.threads t).stripe = s.count (handleIdx h) (s.threads t).stripe := rfl
    rw [State.setPc, load_setThread, hstripe, if_pos rfl, if_pos rfl]
    rw [State.setPc] at hcount
    rw [hcount]
    have htok := hpc (handleIdx h)
    rw [if_pos rfl] at htok
    rw [Thread.tokens, Thread.tokens, htok]
    simp only [pcToken]
    omega
  · rw [threads_setPc_self]
    exact trivial

/-! ## The writer -/

omit [Fintype T] in
theorem setPc_setPc (s : State T) (t : T) (pc pc' : Pc) : (s.setPc t pc).setPc t pc' = s.setPc t pc' := by
  simp [State.setPc, State.setThread]

omit [Fintype T] [DecidableEq T] in
theorem Ext.of_writer (hw : s.writer = some t) (hw' : s'.writer = s.writer) (hth : s'.threads = s.threads)
    (hstripes : ∀ idx, (s.slots idx).stripes.isSome → (s'.slots idx).stripes.isSome)
    (hchunks : ∀ c, s.chunks c → s'.chunks c) (hpublished : ∀ idx, s.published idx ⊆ s'.published idx)
    (hretired : ∀ idx, s.retired idx ⊆ s'.retired idx) (hdrained : s'.drained = s.drained)
    (hptr : ∀ idx, (s'.slots idx).ptr = (s.slots idx).ptr ∨ ∀ t' gen, ¬(s.threads t').Holds idx gen) : Ext t s s' where
  threads := fun t' _ => congrFun hth t'
  writer := fun _ _ h => hw'.trans h
  stripes := hstripes
  chunks := hchunks
  published := hpublished
  retired := hretired
  drained := fun idx gen h => hdrained.symm ▸ h
  owner := .inl hw
  ptr := hptr
  holds := fun idx gen _ h => congrFun hth t ▸ h
  stripe := fun _ => by rw [hth]

omit [DecidableEq T] in
theorem Guard.not_live (hs : Inv s) {idx gen gen' : UInt32} (hg : Guard s t idx gen) :
    (s.slots idx).state ≠ { gen := gen', live := true } := by
  intro hstate
  obtain ⟨hpub, hnot⟩ := hs.live idx gen' hstate
  exact hnot (hs.drained_retired idx gen' (hg.2.2 _ hpub).1)

omit [DecidableEq T] in
theorem Guard.not_holds (hs : Inv s) {idx gen gen' : UInt32} (hg : Guard s t idx gen) (t' : T) :
    ¬(s.threads t').Holds idx gen' := by
  intro hh
  have hpub : ∃ ptr, (gen', ptr) ∈ s.published idx := by
    rcases hh with ⟨pin, hmem, rfl, rfl⟩ | ⟨h, hpc, rfl, rfl⟩
    · exact ⟨pin.2, hs.held t' pin hmem⟩
    · have hok := hs.pcs t'
      rw [hpc] at hok
      exact ⟨_, hok⟩
  obtain ⟨ptr, hmem⟩ := hpub
  exact hs.drained_free idx gen' (hg.2.2 _ hmem).1 t' hh

theorem Inv.storeChunk (hs : Inv s) {idx gen : UInt32} (hg : Guard s t idx gen)
    (hpc : PcOk { s with chunks := update s.chunks (chunkIdx idx) true } t (s.threads t).pc) :
    Inv { s with chunks := update s.chunks (chunkIdx idx) true } := by
  have hchunks : ∀ c, s.chunks c → update s.chunks (chunkIdx idx) true c := by
    intro c hc
    by_cases heq : c = chunkIdx idx
    · simp [heq]
    · simpa [update_of_ne heq] using hc
  have he : Ext t s { s with chunks := update s.chunks (chunkIdx idx) true } :=
    Ext.of_writer hg.1 rfl rfl (fun _ h => h) hchunks (fun _ _ h => h) (fun _ _ h => h) rfl fun _ => .inl rfl
  refine hs.global he rfl hs.counts hs.live hs.distinct hs.retired_published ?_ ?_ ?_ hpc
  · exact fun idx' gen' h => ⟨hs.drained_retired idx' gen' h, hs.drained_free idx' gen' h⟩
  · exact fun idx' h => hchunks _ (hs.chunk idx' h)
  · intro c hc
    by_cases heq : c = chunkIdx idx
    · exact heq ▸ hg.2.1
    · have hold : s.chunks c := by simpa [update_of_ne heq] using hc
      exact hs.chunk_lt c hold

theorem Inv.storeSlot (hs : Inv s) {idx gen : UInt32} {slot : PinSlot} (hg : Guard s t idx gen)
    (hstate : slot.state = (s.slots idx).state) (hsome : (s.slots idx).stripes.isSome → slot.stripes.isSome)
    (hcounts : ∀ stripe, s.count idx stripe ≤ (s.setSlot idx slot).count idx stripe)
    (hchunk : s.chunks (chunkIdx idx) ∨ slot.stripes = (s.slots idx).stripes)
    (hpc : PcOk (s.setSlot idx slot) t (s.threads t).pc) : Inv (s.setSlot idx slot) := by
  have hself : (s.setSlot idx slot).slots idx = slot := update_self _ _ _
  have hother : ∀ idx', idx' ≠ idx → (s.setSlot idx slot).slots idx' = s.slots idx' :=
    fun idx' hne => update_of_ne hne _ _
  have he : Ext t s (s.setSlot idx slot) := by
    refine Ext.of_writer hg.1 rfl rfl ?_ (fun _ h => h) (fun _ _ h => h) (fun _ _ h => h) rfl ?_
    · intro idx' h
      by_cases heq : idx' = idx
      · subst heq
        exact hself.symm ▸ hsome h
      · exact (hother idx' heq).symm ▸ h
    · intro idx'
      by_cases heq : idx' = idx
      · subst heq
        exact .inr fun t' _ => hg.not_holds hs t'
      · exact .inl (congrArg PinSlot.ptr (hother idx' heq))
  refine hs.global he rfl ?_ ?_ hs.distinct hs.retired_published ?_ ?_ hs.chunk_lt hpc
  · intro idx' stripe
    have hle := hs.counts idx' stripe
    by_cases heq : idx' = idx
    · subst heq
      exact Int.le_trans hle (hcounts stripe)
    · rw [State.count, hother idx' heq]
      exact hle
  · intro idx' gen' hlive
    by_cases heq : idx' = idx
    · subst heq
      rw [hself, hstate] at hlive
      exact (hg.not_live hs hlive).elim
    · rw [hother idx' heq] at hlive ⊢
      exact hs.live idx' gen' hlive
  · exact fun idx' gen' h => ⟨hs.drained_retired idx' gen' h, hs.drained_free idx' gen' h⟩
  · intro idx' h
    by_cases heq : idx' = idx
    · subst heq
      rw [hself] at h
      rcases hchunk with hchunk | hsame
      · exact hchunk
      · exact hs.chunk idx' (hsame ▸ h)
    · rw [hother idx' heq] at h
      exact hs.chunk idx' h

section StoreState

variable {idx : UInt32} {st : PinState}

omit [Fintype T] [DecidableEq T] in
theorem setSlot_state (s : State T) (idx : UInt32) (st : PinState) (idx' : UInt32) :
    ((s.setSlot idx { s.slots idx with state := st }).slots idx').ptr = (s.slots idx').ptr ∧
      ((s.setSlot idx { s.slots idx with state := st }).slots idx').stripes = (s.slots idx').stripes := by
  by_cases heq : idx' = idx
  · subst heq
    simp [State.setSlot]
  · simp [State.setSlot, update_of_ne heq]

theorem Inv.storeState (hs : Inv s) (hw : s.writer = some t) {published : UInt32 → List (UInt32 × Nat)}
    {retired : UInt32 → List UInt32} (hpublished : ∀ idx', s.published idx' ⊆ published idx')
    (hretired : ∀ idx', s.retired idx' ⊆ retired idx') (hdistinct : ∀ idx', ((published idx').map Prod.fst).Nodup)
    (hret : ∀ idx' gen, gen ∈ retired idx' → ∃ ptr, (gen, ptr) ∈ published idx')
    (hlive : ∀ gen, st = { gen := gen, live := true } → (gen, (s.slots idx).ptr) ∈ published idx ∧ gen ∉ retired idx)
    (hother : ∀ idx', idx' ≠ idx → retired idx' = s.retired idx') (hpc : (s.threads t).pc = .idle) :
    Inv { s.setSlot idx { s.slots idx with state := st } with published := published, retired := retired } := by
  have hslots := setSlot_state s idx st
  have he : Ext t s { s.setSlot idx { s.slots idx with state := st } with published := published, retired := retired } :=
    Ext.of_writer hw rfl rfl (fun idx' h => (hslots idx').2.symm ▸ h) (fun _ h => h) hpublished hretired rfl
      fun idx' => .inl (hslots idx').1
  refine hs.global he rfl ?_ ?_ hdistinct hret ?_ ?_ hs.chunk_lt (hpc.symm ▸ trivial)
  · intro idx' stripe
    have hle := hs.counts idx' stripe
    rw [State.count] at hle ⊢
    exact (hslots idx').2.symm ▸ hle
  · intro idx' gen hst
    rw [(hslots idx').1]
    by_cases heq : idx' = idx
    · subst heq
      have hself : ((s.setSlot idx' { s.slots idx' with state := st }).slots idx').state = st := by simp [State.setSlot]
      exact hlive gen (hself.symm.trans hst)
    · have hsame : (s.setSlot idx { s.slots idx with state := st }).slots idx' = s.slots idx' := update_of_ne heq _ _
      have hold := hs.live idx' gen (hsame ▸ hst)
      have hnot : gen ∉ retired idx' := (hother idx' heq).symm ▸ hold.2
      exact ⟨hpublished idx' hold.1, hnot⟩
  · exact fun idx' gen h => ⟨hretired idx' (hs.drained_retired idx' gen h), hs.drained_free idx' gen h⟩
  · exact fun idx' h => hs.chunk idx' ((hslots idx').2 ▸ h)

theorem Inv.publishState (hs : Inv s) {gen : UInt32} (hg : Guard s t idx gen) {ptr : Nat} (hptr : (s.slots idx).ptr = ptr) :
    Inv ({ s.setSlot idx { s.slots idx with state := { gen := gen, live := true } } with
      published := update s.published idx ((gen, ptr) :: s.published idx) }.setPc t .idle) := by
  have hpublished : ∀ idx', s.published idx' ⊆ update s.published idx ((gen, ptr) :: s.published idx) idx' := by
    intro idx' q hq
    by_cases heq : idx' = idx
    · subst heq
      simp [hq]
    · simpa [update_of_ne heq] using hq
  have hdistinct : ∀ idx', ((update s.published idx ((gen, ptr) :: s.published idx) idx').map Prod.fst).Nodup := by
    intro idx'
    by_cases heq : idx' = idx
    · subst heq
      rw [update_self, map_cons, nodup_cons]
      refine ⟨fun hmem => ?_, hs.distinct idx'⟩
      obtain ⟨q, hq, hgen⟩ := mem_map.mp hmem
      exact (hg.2.2 q hq).2 hgen
    · rw [update_of_ne heq]
      exact hs.distinct idx'
  have hfresh : gen ∉ s.retired idx := by
    intro hret
    obtain ⟨ptr', hmem⟩ := hs.retired_published idx gen hret
    exact (hg.2.2 _ hmem).2 rfl
  have hidle : ((s.setPc t .idle).threads t).pc = .idle := by simp
  refine (hs.setIdle (t := t)).storeState hg.1 hpublished (fun _ _ h => h) hdistinct ?_ ?_ (fun _ _ => rfl) hidle
  · intro idx' gen' hret
    obtain ⟨ptr', hmem⟩ := hs.retired_published idx' gen' hret
    exact ⟨ptr', hpublished idx' hmem⟩
  · intro gen' heq
    obtain rfl : gen = gen' := congrArg PinState.gen heq
    subst hptr
    exact ⟨by simp [State.setPc, State.setThread], hfresh⟩

theorem Inv.retireStore (hs : Inv s) (hw : s.writer = some t) (hst : (s.slots idx).state = st) :
    Inv ({ s.setSlot idx { s.slots idx with state := { st with live := false } } with
      retired := update s.retired idx (if st.live then st.gen :: s.retired idx else s.retired idx) }.setPc t .idle) := by
  have hgrow : ∀ idx', s.retired idx' ⊆
      update s.retired idx (if st.live then st.gen :: s.retired idx else s.retired idx) idx' := by
    intro idx' gen hmem
    by_cases heq : idx' = idx
    · subst heq
      rw [update_self]
      split
      · exact mem_cons_of_mem _ hmem
      · exact hmem
    · rw [update_of_ne heq]
      exact hmem
  have hretired : ∀ idx' gen, gen ∈ update s.retired idx (if st.live then st.gen :: s.retired idx else s.retired idx) idx' →
      gen ∈ s.retired idx' ∨ (idx' = idx ∧ (s.slots idx).state = { gen := gen, live := true }) := by
    intro idx' gen hmem
    by_cases heq : idx' = idx
    · subst heq
      rw [update_self] at hmem
      obtain ⟨g, live⟩ := st
      cases live with
      | false => exact .inl hmem
      | true =>
        rcases mem_cons.mp hmem with rfl | hold
        · exact .inr ⟨rfl, hst⟩
        · exact .inl hold
    · rw [update_of_ne heq] at hmem
      exact .inl hmem
  have hidle : ((s.setPc t .idle).threads t).pc = .idle := by simp
  refine (hs.setIdle (t := t)).storeState hw (fun _ _ h => h) hgrow hs.distinct ?_ ?_ ?_ hidle
  · intro idx' gen hmem
    rcases hretired idx' gen hmem with hold | ⟨rfl, hlive⟩
    · exact hs.retired_published idx' gen hold
    · exact ⟨_, (hs.live idx' gen hlive).1⟩
  · intro gen heq
    exact Bool.noConfusion (congrArg PinState.live heq)
  · exact fun idx' hne => update_of_ne hne _ _

end StoreState

/-! ## The scan -/

section Scan

variable {idx gen : UInt32} {after : List UInt32}

omit [Fintype T] in
theorem holds_setPc {pc : Pc} (hptr : ∀ h, pc ≠ .pinPtr h) {t' : T} (hh : ((s.setPc t pc).threads t').Holds idx gen) :
    (s.threads t').Holds idx gen := by
  by_cases htt : t' = t
  · subst htt
    rw [threads_setPc_self] at hh
    rcases hh with hheld | ⟨h, hpc, -⟩
    · exact .inl hheld
    · exact (hptr h hpc).elim
  · rwa [threads_setPc_of_ne s htt] at hh

omit [Fintype T] in
theorem stripe_setPc (s : State T) (t : T) (pc : Pc) (t' : T) :
    ((s.setPc t pc).threads t').stripe = (s.threads t').stripe := by
  by_cases htt : t' = t
  · subst htt
    rw [threads_setPc_self, Thread.stripe, Thread.stripe]
  · rw [threads_setPc_of_ne s htt]

theorem Inv.count_pos (hs : Inv s) {t' : T} (hh : (s.threads t').Holds idx gen) :
    0 < s.count idx (s.threads t').stripe := by
  have hpos := hh.tokens_pos
  have hload := tokens_le_load s t' idx
  have hle := hs.counts idx (s.threads t').stripe
  omega

theorem Inv.not_holds_of_none (hs : Inv s) (hnone : ¬(s.slots idx).stripes.isSome) (t' : T) :
    ¬(s.threads t').Holds idx gen := by
  intro hh
  have hpos := hs.count_pos hh
  rw [not_isSome_iff_eq_none] at hnone
  rw [State.count, hnone] at hpos
  exact Int.lt_irrefl 0 hpos

theorem Inv.pinsNone (hs : Inv s) (hafter : after ⊆ s.retired idx) (hnone : ¬(s.slots idx).stripes.isSome) :
    Inv (s.setPc t (.pinsReturn idx 0 after)) := by
  apply hs.setQuiet (fun _ => rfl) (fun _ heq => Pc.noConfusion heq)
  refine ⟨hafter, fun _ g _ t' hh => ?_⟩
  exact hs.not_holds_of_none hnone t' (holds_setPc (fun _ heq => Pc.noConfusion heq) hh)

theorem Inv.pinsLoad (hs : Inv s) {i : Nat} {accumulated : Int} (hpc : (s.threads t).pc = .pinsLoad idx i accumulated after) :
    Inv (s.setPc t (.pinsLoad idx (i + 1) (accumulated + s.count idx i) after)) := by
  have hok := hs.pcs t
  rw [hpc] at hok
  obtain ⟨hafter, hnonneg, hahead⟩ := hok
  have hcount : 0 ≤ s.count idx i := Int.le_trans (load_nonneg s idx i) (hs.counts idx i)
  apply hs.setQuiet (fun _ => rfl) (fun _ heq => Pc.noConfusion heq)
  refine ⟨hafter, Int.add_nonneg hnonneg hcount, fun hzero g hg t' hh => ?_⟩
  have hold := holds_setPc (fun _ heq => Pc.noConfusion heq) hh
  have hle := hahead (by omega) g hg t' hold
  rw [stripe_setPc]
  apply Nat.lt_of_le_of_ne hle
  intro heq
  have hpos := hs.count_pos hold
  rw [← heq] at hpos
  omega

theorem Inv.pinsSum (hs : Inv s) {i : Nat} {accumulated : Int} (hpc : (s.threads t).pc = .pinsLoad idx i accumulated after)
    (hi : ¬i < ccolPinStripes) : Inv (s.setPc t (.pinsReturn idx (pinsResult accumulated) after)) := by
  have hok := hs.pcs t
  rw [hpc] at hok
  obtain ⟨hafter, hnonneg, hahead⟩ := hok
  apply hs.setQuiet (fun _ => rfl) (fun _ heq => Pc.noConfusion heq)
  refine ⟨hafter, fun hzero g hg t' hh => ?_⟩
  have hold := holds_setPc (fun _ heq => Pc.noConfusion heq) hh
  have hacc : accumulated = 0 := by
    rw [pinsResult] at hzero
    split at hzero <;> omega
  have hle := hahead hacc g hg t' hold
  have hlt : (s.threads t').stripe < ccolPinStripes := Nat.mod_lt _ (by decide)
  omega

theorem Inv.pinsReturn (hs : Inv s) {result : Nat} (hpc : (s.threads t).pc = .pinsReturn idx result after) :
    Inv ({ s with
      drained := update s.drained idx (if result = 0 then after ++ s.drained idx else s.drained idx) }.setPc t .idle) := by
  have hok := hs.pcs t
  rw [hpc] at hok
  have hs₁ : Inv (s.setPc t .idle) := hs.setIdle
  have hgrow : ∀ idx', s.drained idx' ⊆
      update s.drained idx (if result = 0 then after ++ s.drained idx else s.drained idx) idx' := by
    intro idx' g hg
    by_cases heq : idx' = idx
    · subst heq
      rw [update_self]
      split
      · exact mem_append_right _ hg
      · exact hg
    · rwa [update_of_ne heq]
  have hnew : ∀ idx' g, g ∈ update s.drained idx (if result = 0 then after ++ s.drained idx else s.drained idx) idx' →
      g ∈ s.retired idx' ∧ ∀ t', ¬(s.threads t').Holds idx' g := by
    intro idx' g hg
    have hold : g ∈ s.drained idx' → g ∈ s.retired idx' ∧ ∀ t', ¬(s.threads t').Holds idx' g :=
      fun h => ⟨hs.drained_retired idx' g h, hs.drained_free idx' g h⟩
    by_cases heq : idx' = idx
    · subst heq
      rw [update_self] at hg
      split at hg
      · rename_i hzero
        rcases mem_append.mp hg with hafter | hdrained
        · exact ⟨hok.1 hafter, hok.2 hzero g hafter⟩
        · exact hold hdrained
      · exact hold hg
    · rw [update_of_ne heq] at hg
      exact hold hg
  have he : Ext t (s.setPc t .idle) ({ s with
      drained := update s.drained idx (if result = 0 then after ++ s.drained idx else s.drained idx) }.setPc t .idle) :=
    { threads := fun _ _ => rfl
      writer := fun _ _ h => h
      stripes := fun _ h => h
      chunks := fun _ h => h
      published := fun _ _ h => h
      retired := fun _ _ h => h
      drained := hgrow
      owner := .inr fun _ => ⟨rfl, rfl, rfl, fun h => h⟩
      ptr := fun _ => .inl rfl
      holds := fun _ _ _ h => h
      stripe := fun _ => rfl }
  have hidle : ((s.setPc t .idle).threads t).pc = .idle := by simp
  refine hs₁.global he rfl hs₁.counts hs₁.live hs₁.distinct hs₁.retired_published ?_ hs₁.chunk hs₁.chunk_lt (hidle.symm ▸ trivial)
  intro idx' g hg
  refine ⟨(hnew idx' g hg).1, fun t' hh => ?_⟩
  exact (hnew idx' g hg).2 t' (holds_setPc (fun _ heq => Pc.noConfusion heq) hh)

end Scan

/-! ## Calls -/

theorem Inv.unpinCall (hs : Inv s) (hidle : (s.threads t).pc = .idle)
    (hheld : (s.threads t).held.any (fun pin => pin.1 = h)) :
    Inv (s.setThread t { s.threads t with
      pc := .unpinChunk h, held := (s.threads t).held.eraseP (fun pin => pin.1 = h) }) := by
  obtain ⟨pin, hpin, hhandle⟩ := any_eq_true.mp hheld
  have htokens : ∀ idx, Thread.tokens { s.threads t with
      pc := .unpinChunk h, held := (s.threads t).held.eraseP (fun pin => pin.1 = h) } idx = (s.threads t).tokens idx := by
    intro idx
    obtain ⟨pin', l₁, l₂, -, hp, hsplit, herase⟩ := exists_of_eraseP (p := fun q : UInt64 × Nat => q.1 = h) hpin hhandle
    have heq : pin'.1 = h := of_decide_eq_true hp
    rw [Thread.tokens, Thread.tokens, herase, hsplit, hidle]
    simp only [countP_append, countP_cons, pcToken, heq, decide_eq_true_eq]
    omega
  have hmoves : Moves s t { s.threads t with
      pc := .unpinChunk h, held := (s.threads t).held.eraseP (fun pin => pin.1 = h) } := by
    constructor
    · exact fun _ => rfl
    · exact fun hzero idx => (htokens idx).trans (hs.unassigned t hzero idx)
    · intro idx gen _ hh
      rcases hh with ⟨q, hq, hidx⟩ | ⟨_, heq, -⟩
      · exact .inl ⟨q, mem_of_mem_eraseP hq, hidx⟩
      · exact Pc.noConfusion heq
    · exact fun q hq => hs.held t q (mem_of_mem_eraseP hq)
  exact hs.setThread hmoves (fun _ _ hw => hw) (hmoves.load_le hs fun idx => Nat.le_of_eq (htokens idx)) trivial

theorem Inv.setWriter (hs : Inv s) (hidle : (s.threads t).pc = .idle) {w : Option T}
    (hw : ∀ t', t' ≠ t → s.writer = some t' → w = some t') : Inv { s with writer := w } := by
  have he : Ext t s { s with writer := w } :=
    { threads := fun _ _ => rfl
      writer := hw
      stripes := fun _ h => h
      chunks := fun _ h => h
      published := fun _ _ h => h
      retired := fun _ _ h => h
      drained := fun _ _ h => h
      owner := .inr fun _ => ⟨rfl, rfl, rfl, fun h => h⟩
      ptr := fun _ => .inl rfl
      holds := fun _ _ _ h => h
      stripe := fun _ => rfl }
  exact hs.global he rfl hs.counts hs.live hs.distinct hs.retired_published
    (fun idx gen h => ⟨hs.drained_retired idx gen h, hs.drained_free idx gen h⟩) hs.chunk hs.chunk_lt (hidle.symm ▸ trivial)

theorem Inv.call (hs : Inv s) (hidle : (s.threads t).pc = .idle) (h : s.call t a = some s') : Inv s' := by
  cases a with
  | lock =>
    simp only [State.call] at h
    split at h
    · rename_i hfree
      cases h
      rw [isNone_iff_eq_none] at hfree
      exact hs.setWriter hidle fun t' _ hw => nomatch hfree.symm.trans hw
    · cases h
  | unlock =>
    simp only [State.call] at h
    split at h
    · rename_i hown
      cases h
      exact hs.setWriter hidle fun t' hne hw => (hne (some.inj (hw.symm.trans hown))).elim
    · cases h
  | pin handle =>
    simp only [State.call] at h
    split at h <;> cases h
    · exact hs
    · exact hs.setQuiet (fun _ => rfl) (fun _ heq => Pc.noConfusion heq) trivial
  | unpin handle =>
    simp only [State.call] at h
    split at h
    · cases h
      exact hs
    · split at h
      · rename_i hheld
        cases h
        exact hs.unpinCall hidle hheld
      · cases h
  | publish idx gen ptr =>
    simp only [State.call] at h
    split at h
    · rename_i hguard
      split at h
      · cases h
        exact hs
      · split at h
        · cases h
          exact hs
        · rename_i hlt
          cases h
          exact hs.setQuiet (fun _ => rfl) (fun _ heq => Pc.noConfusion heq)
            ⟨hguard.1, Nat.lt_of_not_le hlt, hguard.2⟩
    · cases h
  | retire idx =>
    simp only [State.call] at h
    split at h
    · rename_i hown
      split at h <;> cases h
      · exact hs
      · exact hs.setQuiet (fun _ => rfl) (fun _ heq => Pc.noConfusion heq) hown
    · cases h
  | pins idx =>
    simp only [State.call] at h
    split at h <;> cases h
    · rename_i hge
      apply hs.pinsNone (fun _ h => h)
      intro hsome
      exact absurd (hs.chunk_lt _ (hs.chunk idx hsome)) (Nat.not_lt_of_le hge)
    · exact hs.setQuiet (fun _ => rfl) (fun _ heq => Pc.noConfusion heq) fun _ h => h
  | go ok => cases h

/-! ## Accesses -/

section Go

theorem Inv.pinClaim (hs : Inv s) (hpc : (s.threads t).pc = .pinClaim h) {id n : Nat} (hid : id ≠ 0) :
    Inv { s.setThread t { s.threads t with stripeId := id, pc := .pinAdd h } with stripeNext := n } := by
  have hok := hs.pcs t
  rw [hpc] at hok
  have htokens : ∀ idx, Thread.tokens { s.threads t with stripeId := id, pc := .pinAdd h } idx = 0 := by
    intro idx
    have hnone := hs.unassigned t hok.2 idx
    rw [Thread.tokens, Nat.add_eq_zero_iff] at hnone ⊢
    exact ⟨hnone.1, rfl⟩
  have hmoves : Moves s t { s.threads t with stripeId := id, pc := .pinAdd h } := by
    constructor
    · exact fun hne => (hne hok.2).elim
    · exact fun _ => htokens
    · intro idx gen _ hh
      rcases hh with hheld | ⟨_, heq, -⟩
      · exact .inl hheld
      · exact Pc.noConfusion heq
    · exact hs.held t
  refine hs.setThread hmoves (fun _ _ hw => hw) (hmoves.load_le hs fun idx => htokens idx ▸ Nat.zero_le _) ?_
  exact ⟨hok.1, by simpa using hid⟩

theorem Inv.pinPtr (hs : Inv s) (hpc : (s.threads t).pc = .pinPtr h) :
    Inv (s.setThread t { s.threads t with pc := .idle, held := (h, (s.slots (handleIdx h)).ptr) :: (s.threads t).held }) := by
  have hok := hs.pcs t
  rw [hpc] at hok
  have htokens : ∀ idx, Thread.tokens { s.threads t with
      pc := .idle, held := (h, (s.slots (handleIdx h)).ptr) :: (s.threads t).held } idx = (s.threads t).tokens idx := by
    intro idx
    simp only [Thread.tokens, hpc, pcToken, countP_cons, decide_eq_true_eq, Nat.add_zero]
  have hmoves : Moves s t { s.threads t with
      pc := .idle, held := (h, (s.slots (handleIdx h)).ptr) :: (s.threads t).held } := by
    constructor
    · exact fun _ => rfl
    · exact fun hzero idx => (htokens idx).trans (hs.unassigned t hzero idx)
    · intro idx gen _ hh
      rcases hh with ⟨q, hq, hidx, hgen⟩ | ⟨_, heq, -⟩
      · rcases mem_cons.mp hq with rfl | hold
        · exact .inr ⟨h, hpc, hidx, hgen⟩
        · exact .inl ⟨q, hold, hidx, hgen⟩
      · exact Pc.noConfusion heq
    · intro q hq
      rcases mem_cons.mp hq with rfl | hold
      · exact hok
      · exact hs.held t q hold
  exact hs.setThread hmoves (fun _ _ hw => hw) (hmoves.load_le hs fun idx => Nat.le_of_eq (htokens idx)) trivial

theorem Inv.go (hs : Inv s) {ok : Bool} (h : s.go t ok = some s') : Inv s' := by
  have hok := hs.pcs t
  cases hpc : (s.threads t).pc with
  | idle => simp [State.go, hpc] at h
  | pinChunk handle =>
    simp only [State.go, hpc] at h
    split at h
    · cases h
      exact hs.setIdle
    · split at h <;> cases h
      · exact hs.setQuiet (fun _ => rfl) (fun _ heq => Pc.noConfusion heq) trivial
      · exact hs.setIdle
  | pinState handle =>
    simp only [State.go, hpc] at h
    split at h <;> cases h
    · exact hs.setIdle
    · exact hs.setQuiet (fun _ => rfl) (fun _ heq => Pc.noConfusion heq) trivial
  | pinStripes handle =>
    simp only [State.go, hpc] at h
    split at h
    · cases h
      exact hs.setIdle
    · rename_i hsome
      have hsome' : (s.slots (handleIdx handle)).stripes.isSome := by simpa [isSome_iff_ne_none] using hsome
      split at h <;> cases h
      · rename_i hzero
        exact hs.setQuiet (fun _ => rfl) (fun _ heq => Pc.noConfusion heq) ⟨hsome', by simpa using hzero⟩
      · rename_i hzero
        exact hs.setQuiet (fun _ => rfl) (fun _ heq => Pc.noConfusion heq) ⟨hsome', by simpa using hzero⟩
  | pinClaim handle =>
    simp only [State.go, hpc] at h
    cases h
    apply hs.pinClaim hpc
    split <;> omega
  | pinAdd handle =>
    simp only [State.go, hpc] at h
    cases h
    exact hs.pinAdd hpc
  | pinRecheck handle =>
    simp only [State.go, hpc] at h
    split at h <;> cases h
    · exact hs.setPc (fun idx => hpc ▸ Nat.le_refl _) (fun _ heq => Pc.noConfusion heq) trivial
    · rename_i hstate
      -- the state is read live after the increment, so the occupancy is not retired
      obtain ⟨hpub, hnot⟩ := hs.live _ _ (not_not.mp hstate)
      refine hs.setPc (fun idx => hpc ▸ Nat.le_refl _) ?_ hpub
      intro handle' heq
      cases heq
      exact hnot
  | pinBackOut handle =>
    simp only [State.go, hpc] at h
    cases h
    exact hs.decrement fun _ => hpc ▸ rfl
  | pinPtr handle =>
    simp only [State.go, hpc] at h
    cases h
    exact hs.pinPtr hpc
  | unpinChunk handle =>
    simp only [State.go, hpc] at h
    split at h
    · cases h
      exact hs.setIdle
    · split at h <;> cases h
      · exact hs.setPc (fun idx => hpc ▸ Nat.le_refl _) (fun _ heq => Pc.noConfusion heq) trivial
      · exact hs.setIdle
  | unpinStripes handle =>
    simp only [State.go, hpc] at h
    split at h <;> cases h
    · exact hs.setIdle
    · exact hs.setPc (fun idx => hpc ▸ Nat.le_refl _) (fun _ heq => Pc.noConfusion heq) trivial
  | unpinSub handle =>
    simp only [State.go, hpc] at h
    cases h
    exact hs.decrement fun _ => hpc ▸ rfl
  | publishChunk idx gen ptr =>
    rw [hpc] at hok
    simp only [State.go, hpc] at h
    split at h
    · rename_i hchunk
      cases h
      exact hs.setQuiet (fun _ => rfl) (fun _ heq => Pc.noConfusion heq) ⟨hok, hchunk⟩
    · split at h <;> cases h
      · exact hs.setQuiet (fun _ => rfl) (fun _ heq => Pc.noConfusion heq) hok
      · exact hs.setIdle
  | publishStoreChunk idx gen ptr =>
    rw [hpc] at hok
    simp only [State.go, hpc] at h
    cases h
    have hs₁ := hs.storeChunk hok (hpc.symm ▸ hok)
    exact hs₁.setQuiet (fun _ => rfl) (fun _ heq => Pc.noConfusion heq) ⟨hok, update_self _ _ _⟩
  | publishStripes idx gen ptr =>
    rw [hpc] at hok
    simp only [State.go, hpc] at h
    split at h
    · cases h
      exact hs.setQuiet (fun _ => rfl) (fun _ heq => Pc.noConfusion heq) hok.1
    · rename_i hnone
      have hnone' : (s.slots idx).stripes.isNone := by simpa using hnone
      split at h <;> cases h
      · exact hs.setQuiet (fun _ => rfl) (fun _ heq => Pc.noConfusion heq) ⟨hok.1, hok.2, hnone'⟩
      · exact hs.setIdle
  | publishStoreStripes idx gen ptr =>
    rw [hpc] at hok
    simp only [State.go, hpc] at h
    cases h
    have hnone := isNone_iff_eq_none.mp hok.2.2
    have hs₁ : Inv ((s.setPc t .idle).setSlot idx { s.slots idx with stripes := some fun _ => 0 }) := by
      refine (hs.setIdle (t := t)).storeSlot hok.1 rfl (fun _ => rfl) ?_ (.inl hok.2.1) ?_
      · intro stripe
        have hold : (s.setPc t .idle).count idx stripe = 0 := by
          rw [State.count]
          exact congrArg (fun st => Option.elim st 0 fun count => count stripe) hnone
        rw [hold]
        simp [State.count, State.setSlot]
      · rw [threads_setPc_self]
        exact trivial
    have hs₂ : Inv (((s.setPc t .idle).setSlot idx { s.slots idx with stripes := some fun _ => 0 }).setPc t
        (.publishPtr idx gen ptr)) :=
      hs₁.setQuiet (fun _ => rfl) (fun _ heq => Pc.noConfusion heq) hok.1
    have hsame := setPc_setPc (s.setSlot idx { s.slots idx with stripes := some fun _ => 0 }) t .idle (.publishPtr idx gen ptr)
    exact hsame ▸ hs₂
  | publishPtr idx gen ptr =>
    rw [hpc] at hok
    simp only [State.go, hpc] at h
    cases h
    have hs₁ : Inv (s.setSlot idx { s.slots idx with ptr := ptr }) := by
      refine hs.storeSlot hok rfl id ?_ (.inr rfl) (hpc.symm ▸ hok)
      intro stripe
      simp [State.count, State.setSlot]
    exact hs₁.setQuiet (fun _ => rfl) (fun _ heq => Pc.noConfusion heq) ⟨hok, by simp [State.setPc, State.setThread, State.setSlot]⟩
  | publishState idx gen ptr =>
    rw [hpc] at hok
    simp only [State.go, hpc] at h
    cases h
    exact hs.publishState hok.1 hok.2
  | retireChunk idx =>
    rw [hpc] at hok
    simp only [State.go, hpc] at h
    split at h <;> cases h
    · exact hs.setQuiet (fun _ => rfl) (fun _ heq => Pc.noConfusion heq) hok
    · exact hs.setIdle
  | retireLoad idx =>
    rw [hpc] at hok
    simp only [State.go, hpc] at h
    cases h
    exact hs.setQuiet (fun _ => rfl) (fun _ heq => Pc.noConfusion heq) ⟨hok, rfl⟩
  | retireStore idx st =>
    rw [hpc] at hok
    simp only [State.go, hpc] at h
    cases h
    exact hs.retireStore hok.1 hok.2
  | pinsChunk idx after =>
    rw [hpc] at hok
    simp only [State.go, hpc] at h
    split at h <;> cases h
    · exact hs.setQuiet (fun _ => rfl) (fun _ heq => Pc.noConfusion heq) hok
    · rename_i hchunk
      exact hs.pinsNone hok fun hsome => hchunk (hs.chunk idx hsome)
  | pinsStripes idx after =>
    rw [hpc] at hok
    simp only [State.go, hpc] at h
    split at h <;> cases h
    · exact hs.setQuiet (fun _ => rfl) (fun _ heq => Pc.noConfusion heq)
        ⟨hok, Int.le_refl 0, fun _ _ _ _ _ => Nat.zero_le _⟩
    · rename_i hnone
      exact hs.pinsNone hok hnone
  | pinsLoad idx i accumulated after =>
    simp only [State.go, hpc] at h
    split at h <;> cases h
    · exact hs.pinsLoad hpc
    · rename_i hi
      exact hs.pinsSum hpc hi
  | pinsReturn idx result after =>
    simp only [State.go, hpc] at h
    cases h
    exact hs.pinsReturn hpc

end Go

/-! ## Runs -/

omit [Fintype T] in
theorem step_cases (h : s.step t a = some s') :
    (∃ ok, s.go t ok = some s') ∨ ((s.threads t).pc = .idle ∧ s.call t a = some s') := by
  cases a with
  | go ok => exact .inl ⟨ok, h⟩
  | _ =>
    cases hpc : (s.threads t).pc with
    | idle =>
      simp only [State.step, hpc] at h
      exact .inr ⟨rfl, h⟩
    | _ =>
      simp only [State.step, hpc] at h
      cases h

theorem Inv.step (hs : Inv s) (h : s.step t a = some s') : Inv s' := by
  rcases step_cases h with ⟨ok, hgo⟩ | ⟨hidle, hcall⟩
  · exact hs.go hgo
  · exact hs.call hidle hcall

theorem Inv.steps (hs : Inv s) {acts : List (T × Act)} (h : s.steps acts = some s') : Inv s' := by
  induction acts generalizing s with
  | nil =>
    cases h
    exact hs
  | cons act rest ih =>
    obtain ⟨t, a⟩ := act
    obtain ⟨s₁, hstep, hrest⟩ := bind_eq_some_iff.mp h
    exact ih (hs.step hstep) hrest

omit [DecidableEq T] in
theorem Inv.init : Inv (State.init T) := by
  constructor
  · intro idx stripe
    simp [State.load, State.count, State.init, Thread.tokens, pcToken]
  · exact fun _ _ _ => rfl
  · exact fun _ _ h => Bool.noConfusion (congrArg PinState.live h)
  · exact fun _ => nodup_nil
  · rintro _ _ ⟨⟩
  · rintro _ _ ⟨⟩
  · rintro _ _ ⟨⟩
  · rintro _ ⟨⟩
  · rintro _ ⟨⟩
  · exact fun _ => trivial
  · rintro _ _ ⟨⟩

/-! ## After a scan -/

section Frame

omit [Fintype T]

theorem step_threads_of_ne (h : s.step t a = some s') {t' : T} (hne : t' ≠ t) : s'.threads t' = s.threads t' := by
  rcases step_cases h with ⟨ok, hgo⟩ | ⟨-, hcall⟩
  · simp only [State.go] at hgo
    split at hgo <;> (try split at hgo) <;> (try split at hgo) <;> cases hgo <;>
      first
      | exact threads_setPc_of_ne _ hne _
      | exact threads_setThread_of_ne _ hne _
  · cases a <;> simp only [State.call] at hcall <;> (try split at hcall) <;> (try split at hcall) <;>
      (try split at hcall) <;> cases hcall <;>
      first
      | rfl
      | exact threads_setPc_of_ne _ hne _
      | exact threads_setThread_of_ne _ hne _

theorem step_drained (h : s.step t a = some s') (idx : UInt32) :
    s'.drained idx = s.drained idx ∨ ∃ result after, (s.threads t).pc = .pinsReturn idx result after ∧
      s'.drained idx = if result = 0 then after ++ s.drained idx else s.drained idx := by
  rcases step_cases h with ⟨ok, hgo⟩ | ⟨-, hcall⟩
  · simp only [State.go] at hgo
    split at hgo
    case h_25 idx' result after hpc =>
      cases hgo
      by_cases heq : idx = idx'
      · subst heq
        exact .inr ⟨result, after, hpc, by simp [State.setPc, State.setThread]⟩
      · exact .inl (by simp [State.setPc, State.setThread, update_of_ne heq])
    all_goals
      (try split at hgo) <;> (try split at hgo) <;> cases hgo <;> exact .inl rfl
  · cases a <;> simp only [State.call] at hcall <;> (try split at hcall) <;> (try split at hcall) <;>
      (try split at hcall) <;> cases hcall <;> exact .inl rfl

end Frame

def Scanned (s : State T) (t : T) (idx gen : UInt32) : Prop :=
  (∃ after, (s.threads t).pc = .pinsReturn idx 0 after ∧ gen ∈ after) ∨ gen ∈ s.drained idx

omit [Fintype T] in
theorem Scanned.step {idx gen : UInt32} (hsc : Scanned s t idx gen) {t' : T} (h : s.step t' a = some s') :
    Scanned s' t idx gen := by
  rcases hsc with ⟨after, hpc, hmem⟩ | hmem
  · by_cases htt : t' = t
    · subst htt
      rcases step_cases h with ⟨ok, hgo⟩ | ⟨hidle, -⟩
      · simp only [State.go, hpc] at hgo
        cases hgo
        exact .inr (by simp [State.setPc, State.setThread, hmem])
      · rw [hidle] at hpc
        exact Pc.noConfusion hpc
    · exact .inl ⟨after, by rw [step_threads_of_ne h (Ne.symm htt), hpc], hmem⟩
  · rcases step_drained h idx with hsame | ⟨result, after, -, hnew⟩
    · exact .inr (hsame ▸ hmem)
    · rw [Scanned, hnew]
      split
      · exact .inr (mem_append_right _ hmem)
      · exact .inr hmem

omit [Fintype T] in
theorem Scanned.steps {idx gen : UInt32} (hsc : Scanned s t idx gen) {acts : List (T × Act)} (h : s.steps acts = some s') :
    Scanned s' t idx gen := by
  induction acts generalizing s with
  | nil =>
    cases h
    exact hsc
  | cons act rest ih =>
    obtain ⟨t', a⟩ := act
    obtain ⟨s₁, hstep, hrest⟩ := bind_eq_some_iff.mp h
    exact ih (hsc.step hstep) hrest

omit [DecidableEq T] in
theorem Scanned.not_holds (hs : Inv s) {idx gen : UInt32} (hsc : Scanned s t idx gen) (t' : T) :
    ¬(s.threads t').Holds idx gen := by
  rcases hsc with ⟨after, hpc, hmem⟩ | hmem
  · have hok := hs.pcs t
    rw [hpc] at hok
    exact hok.2 rfl gen hmem t'
  · exact hs.drained_free idx gen hmem t'

end Ccollections.Cpintable
