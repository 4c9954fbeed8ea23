import Ccollections.Cthreadcomm.Ceventloop

/-!
# What holds of the registrations and events in every state
-/

namespace Ccollections.Cthreadcomm.Ceventloop

open Function List Option

/-- A callback that its event asks for: `on_error` only for an error, a hang-up or, without a reader, the peer's end of
the stream. -/
structure Call.Justified (c : Call) : Prop where
  error : c.callback = .onError →
    c.event.isErr ∨ (c.dir = .read ∧ c.handlers.onReadable = false ∧ c.event.pollRdhup = true)
  ready : c.event.isReady c.dir → c.handlers.has c.dir.handler → c.callback = c.dir.handler

/-- A registration with `on_error` only comes into the empty slot that ordinary readiness is on its way to. -/
def State.misleads (s : State) (e : Nat) (dir : Dir) (h : Handlers) : Bool :=
  s.batch.any fun (e', ev) =>
    e' = e && ev.plain dir && !ev.isErr && !(dir = .read && ev.pollRdhup) && ((s.entries e).slot dir).isNone &&
      h.onError && !h.has dir.handler

/-- The step does not mislead an event that is on its way. -/
def State.steady (s : State) : Act → Bool
  | .add dir h => !s.entryFor.1.misleads s.entryFor.2 dir h
  | .modify r dir =>
    !s.live r || (s.regs r).dir = dir || !s.misleads (s.regs r).owningEntry dir (s.regs r).handlers
  | _ => true

def steadyStep (pool : Bool) (s : State) (a : Act) : Option (State × List Call) :=
  if s.steady a then step pool s a else none

/-- An event does not report ordinary readiness alone to a registration that would take it for an error. -/
def Suits (ev : Bits) (dir : Dir) (h : Handlers) : Prop :=
  ev.plain dir → h.onError → h.has dir.handler ∨ ev.isErr ∨ (dir = .read ∧ ev.pollRdhup = true)

def ItemOk (s : State) (i : Item) : Prop :=
  i.reg < s.nextReg ∧ ∀ c, i.callback = some c → (s.call i c).Justified

/-- The invariant. While a step works on an entry, `x` names it, and its mask may be that of other registrations. -/
structure Inv (x : Option Nat) (s : State) : Prop where
  owned : ∀ e dir r, (s.entries e).slot dir = some r →
    r < s.nextReg ∧ (s.regs r).dir = dir ∧ (s.regs r).owningEntry = e
  armed : ∀ e, x ≠ some e → ∀ m ∈ (s.entries e).armed, ∀ dir, m.plain dir →
    ∃ r, (s.entries e).slot dir = some r ∧ (s.regs r).handlers.has dir.handler
  gone : ∀ e, (s.entries e).removed → (s.entries e).armed = none
  found : ∀ e ∈ s.found, (s.entries e).removed = false
  batch : ∀ e ev, s.batch = some (e, ev) → ∀ dir r, (s.entries e).slot dir = some r → Suits ev dir (s.regs r).handlers
  items : ∀ i ∈ s.items, ItemOk s i
  jobs : ∀ e, ∀ job ∈ (s.entries e).job, ∀ i ∈ job, ItemOk s i

variable {s s' : State} {x : Option Nat} {e r : Nat} {dir : Dir} {ev : Bits}

theorem plain_union (a b : Bits) (dir : Dir) : (a.union b).plain dir = (a.plain dir || b.plain dir) := by
  cases dir <;> rfl

theorem plain_interestBits {reg : Option Reg} {dir dir' : Dir} (h : (interestBits reg dir).plain dir') :
    dir' = dir ∧ ∃ g, reg = some g ∧ g.handlers.has dir.handler := by
  cases reg with
  | none => cases dir' <;> exact (Bool.false_ne_true h).elim
  | some g =>
    simp only [interestBits] at h
    split at h
    · cases dir' <;> exact (Bool.false_ne_true h).elim
    · cases dir <;> cases dir' <;> first | exact (Bool.false_ne_true h).elim | exact ⟨rfl, g, rfl, h⟩

theorem plain_mask (h : (s.mask e).plain dir) :
    ∃ r, (s.entries e).slot dir = some r ∧ (s.regs r).handlers.has dir.handler := by
  rw [State.mask, plain_union, Bool.or_eq_true] at h
  rcases h with h | h <;> obtain ⟨rfl, g, hg, hh⟩ := plain_interestBits h <;>
    obtain ⟨r, hr, rfl⟩ := map_eq_some_iff.mp hg <;> exact ⟨r, hr, hh⟩

theorem ItemOk.congr {i : Item} (h : ItemOk s i) (hnext : s.nextReg ≤ s'.nextReg)
    (hregs : ∀ r < s.nextReg, (s'.regs r).handlers = (s.regs r).handlers) : ItemOk s' i := by
  refine ⟨Nat.lt_of_lt_of_le h.1 hnext, fun c hc => ?_⟩
  rw [State.call, hregs _ h.1]
  exact h.2 c hc

/-! ## Changes of one entry and of one registration -/

theorem Inv.weaken (hs : Inv none s) : Inv x s := { hs with armed := fun e _ => hs.armed e nofun }

theorem entries_setEntry (s : State) (e e' : Nat) (entry : Entry) :
    (s.setEntry e entry).entries e' = if e' = e then entry else s.entries e' :=
  update_apply _ _ _ _

theorem regs_setReg (s : State) (r r' : Nat) (reg : Reg) : (s.setReg r reg).regs r' = if r' = r then reg else s.regs r' :=
  update_apply _ _ _ _

/-- An entry changes and gets no new registration. -/
theorem Inv.setEntry (hs : Inv x s) {y : Option Nat} (hxy : ∀ e', y ≠ some e' → x = some e' → e' = e) {entry : Entry}
    {found : Option Nat} {n : Nat} (hslot : ∀ dir r, entry.slot dir = some r → (s.entries e).slot dir = some r)
    (harmed : y ≠ some e → ∀ m ∈ entry.armed, ∀ dir, m.plain dir →
      ∃ r, entry.slot dir = some r ∧ (s.regs r).handlers.has dir.handler)
    (hgone : entry.removed → entry.armed = none)
    (hfound : ∀ e' ∈ found, (if e' = e then entry else s.entries e').removed = false)
    (hjobs : ∀ job ∈ entry.job, ∀ i ∈ job, ItemOk s i) :
    Inv y { s.setEntry e entry with found := found, nextEntry := n } := by
  have hslots : ∀ e' dir r, ((s.setEntry e entry).entries e').slot dir = some r → (s.entries e').slot dir = some r := by
    intro e' dir r h
    rw [entries_setEntry] at h
    split at h
    · rename_i heq
      exact heq ▸ hslot dir r h
    · exact h
  constructor
  · exact fun e' dir r h => hs.owned e' dir r (hslots e' dir r h)
  · intro e' hne
    show ∀ m ∈ ((s.setEntry e entry).entries e').armed, ∀ dir, m.plain dir →
      ∃ r, ((s.setEntry e entry).entries e').slot dir = some r ∧ (s.regs r).handlers.has dir.handler
    rw [entries_setEntry]
    split
    · rename_i heq
      exact harmed (heq ▸ hne)
    · rename_i heq
      exact hs.armed e' fun h => heq (hxy e' hne h)
  · intro e'
    show ((s.setEntry e entry).entries e').removed → ((s.setEntry e entry).entries e').armed = none
    rw [entries_setEntry]
    split
    · exact hgone
    · exact hs.gone e'
  · intro e' h
    exact (congrArg Entry.removed (entries_setEntry s e e' entry)).trans (hfound e' h)
  · exact fun e' ev hev dir r h => hs.batch e' ev hev dir r (hslots e' dir r h)
  · exact hs.items
  · intro e'
    show ∀ job ∈ ((s.setEntry e entry).entries e').job, ∀ i ∈ job, ItemOk s i
    rw [entries_setEntry]
    split
    · exact hjobs
    · exact hs.jobs e'

theorem Inv.setFlags (hs : Inv x s) {reg : Reg} (hdir : reg.dir = (s.regs r).dir)
    (hentry : reg.owningEntry = (s.regs r).owningEntry) (hhandlers : reg.handlers = (s.regs r).handlers) :
    Inv x (s.setReg r reg) := by
  have hregs : ∀ r', ((s.setReg r reg).regs r').handlers = (s.regs r').handlers ∧
      ((s.setReg r reg).regs r').dir = (s.regs r').dir ∧
      ((s.setReg r reg).regs r').owningEntry = (s.regs r').owningEntry := by
    intro r'
    rw [regs_setReg]
    split
    · rename_i heq
      exact heq ▸ ⟨hhandlers, hdir, hentry⟩
    · exact ⟨rfl, rfl, rfl⟩
  have hitem : ∀ i, ItemOk s i → ItemOk (s.setReg r reg) i := fun i h => h.congr (Nat.le_refl _) fun r' _ => (hregs r').1
  constructor
  · intro e dir r' h
    rw [(hregs r').2.1, (hregs r').2.2]
    exact hs.owned e dir r' h
  · intro e hne m hm dir hplain
    obtain ⟨r', hr', hhas⟩ := hs.armed e hne m hm dir hplain
    exact ⟨r', hr', (hregs r').1 ▸ hhas⟩
  · exact hs.gone
  · exact hs.found
  · intro e ev hev dir r' h
    exact (hregs r').1 ▸ hs.batch e ev hev dir r' h
  · exact fun i h => hitem i (hs.items i h)
  · exact fun e job hjob i h => hitem i (hs.jobs e job hjob i h)

theorem slot_setSlot (s : State) (e e' : Nat) (dir dir' : Dir) (reg : Option Nat) :
    ((s.setSlot e dir reg).entries e').slot dir' = if e' = e ∧ dir' = dir then reg else (s.entries e').slot dir' := by
  rw [State.setSlot, entries_setEntry]
  by_cases he : e' = e
  · subst he
    simp only [if_true, true_and, update_apply]
  · simp only [he, if_false, false_and]

theorem setSlot_frame (s : State) (e e' : Nat) (dir : Dir) (reg : Option Nat) :
    ((s.setSlot e dir reg).entries e').armed = (s.entries e').armed ∧
      ((s.setSlot e dir reg).entries e').removed = (s.entries e').removed ∧
      ((s.setSlot e dir reg).entries e').job = (s.entries e').job := by
  rw [State.setSlot, entries_setEntry]
  split
  · rename_i heq
    exact heq ▸ ⟨rfl, rfl, rfl⟩
  · exact ⟨rfl, rfl, rfl⟩

/-- A registration that stands in no slot comes into one. -/
theorem Inv.place (hs : Inv (some e) s) {reg : Reg} {n : Nat} (hn : s.nextReg ≤ n) (hr : r < n)
    (hfree : ∀ e' dir', (s.entries e').slot dir' ≠ some r) (hdir : reg.dir = dir) (hentry : reg.owningEntry = e)
    (hhandlers : r < s.nextReg → reg.handlers = (s.regs r).handlers)
    (hbatch : ∀ ev, s.batch = some (e, ev) → Suits ev dir reg.handlers) :
    Inv (some e) (State.setSlot { s.setReg r reg with nextReg := n } e dir (some r)) := by
  have hslot := slot_setSlot { s.setReg r reg with nextReg := n } e
  have hframe := setSlot_frame { s.setReg r reg with nextReg := n } e
  have hself : (s.setReg r reg).regs r = reg := by rw [regs_setReg, if_pos rfl]
  have hregs : ∀ {e' dir' r'}, (s.entries e').slot dir' = some r' → (s.setReg r reg).regs r' = s.regs r' := by
    intro e' dir' r' h
    have hne : r' ≠ r := fun heq => hfree e' dir' (heq ▸ h)
    rw [regs_setReg, if_neg hne]
  have hitem : ∀ i, ItemOk s i → ItemOk (State.setSlot { s.setReg r reg with nextReg := n } e dir (some r)) i := by
    refine fun i h => h.congr hn fun r' hlt => ?_
    show ((s.setReg r reg).regs r').handlers = _
    rw [regs_setReg]
    split
    · rename_i heq
      exact heq ▸ hhandlers (heq ▸ hlt)
    · rfl
  constructor
  · intro e' dir' r' h
    rw [hslot] at h
    split at h
    · rename_i heq
      cases h
      exact ⟨hr, (congrArg Reg.dir hself).trans (hdir.trans heq.2.symm),
        (congrArg Reg.owningEntry hself).trans (hentry.trans heq.1.symm)⟩
    · obtain ⟨hlt, hown⟩ := hs.owned e' dir' r' h
      exact ⟨Nat.lt_of_lt_of_le hlt hn, (hregs h).symm ▸ hown⟩
  · intro e' hne m hm dir' hplain
    rw [(hframe e' dir (some r)).1] at hm
    obtain ⟨r', hr', hhas⟩ := hs.armed e' hne m hm dir' hplain
    have he : ¬(e' = e ∧ dir' = dir) := fun h => hne (h.1 ▸ rfl)
    exact ⟨r', (hslot _ _ _ _).trans ((if_neg he).trans hr'), (congrArg Reg.handlers (hregs hr')).symm ▸ hhas⟩
  · intro e' h
    rw [(hframe e' dir (some r)).1]
    exact hs.gone e' ((hframe e' dir (some r)).2.1 ▸ h)
  · exact fun e' h => (hframe e' dir (some r)).2.1.trans (hs.found e' h)
  · intro e' ev hev dir' r' h
    rw [hslot] at h
    split at h
    · rename_i heq
      cases h
      obtain ⟨rfl, rfl⟩ := heq
      exact (congrArg Reg.handlers hself).symm ▸ hbatch ev hev
    · exact (congrArg Reg.handlers (hregs h)).symm ▸ hs.batch e' ev hev dir' r' h
  · exact fun i h => hitem i (hs.items i h)
  · intro e' job hjob i h
    rw [(hframe e' dir (some r)).2.2] at hjob
    exact hitem i (hs.jobs e' job hjob i h)

/-! ## The mask follows the registrations -/

theorem Inv.setArmed (hs : Inv (some e) s) {armed : Option Bits} (hmask : ∀ m ∈ armed, m = s.mask e)
    (hgone : (s.entries e).removed → armed = none) : Inv none (s.setArmed e armed) := by
  refine hs.setEntry (y := none) (fun e' _ h => (some.inj h).symm) (fun _ _ h => h) ?_ hgone ?_ (hs.jobs e)
  · intro _ m hm dir hplain
    obtain rfl := hmask m hm
    exact plain_mask hplain
  · intro e' h
    split
    · rename_i heq
      exact heq ▸ hs.found e' h
    · exact hs.found e' h

theorem Inv.rearm (hs : Inv (some e) s) : Inv none (s.rearmEntry e) := by
  rw [State.rearmEntry]
  split
  · rename_i hremoved
    refine { hs with armed := fun e' _ m hm => ?_ }
    by_cases he : e' = e
    · subst he
      rw [hs.gone e' hremoved] at hm
      cases hm
    · exact hs.armed e' (fun h => he (some.inj h).symm) m hm
  · rename_i hremoved
    apply hs.setArmed
    · intro m hm
      split at hm
      · cases hm
      · exact (some.inj hm).symm
    · exact fun h => (hremoved h).elim

theorem regs_rearmEntry (s : State) (e : Nat) : (s.rearmEntry e).regs = s.regs := by
  rw [State.rearmEntry]
  split <;> rfl

theorem Inv.setFlags_rearm (hs : Inv none s) {reg : Reg} (hdir : reg.dir = (s.regs r).dir)
    (hentry : reg.owningEntry = (s.regs r).owningEntry) (hhandlers : reg.handlers = (s.regs r).handlers) :
    Inv none ((s.setReg r reg).rearmEntry e) :=
  (hs.weaken.setFlags hdir hentry hhandlers).rearm

/-- A slot is emptied. -/
theorem Inv.clearSlot (hs : Inv none s) (e : Nat) (dir : Dir) : Inv (some e) (s.setSlot e dir none) := by
  refine hs.setEntry (y := some e) (fun _ _ h => nomatch h) ?_ (fun h => (h rfl).elim) (hs.gone e) ?_ (hs.jobs e)
  · intro dir' r' h
    simp only [update_apply] at h
    split at h
    · cases h
    · exact h
  · intro e' h
    split
    · rename_i heq
      exact heq ▸ hs.found e' h
    · exact hs.found e' h

/-! ## The calls of the loop's users -/

theorem suits_of_not_misleads {h : Handlers} (hm : s.misleads e dir h = false) (hslot : (s.entries e).slot dir = none) :
    ∀ ev, s.batch = some (e, ev) → Suits ev dir h := by
  intro ev hev hplain herror
  rw [State.misleads, hev] at hm
  simp only [any_some, hplain, herror, hslot, isNone_none, decide_true, Bool.true_and, Bool.and_true,
    Bool.and_eq_false_iff, Bool.not_eq_false'] at hm
  rcases hm with (hm | hm) | hm
  · exact .inr (.inl hm)
  · simp only [Bool.and_eq_true, decide_eq_true_eq] at hm
    exact .inr (.inr hm)
  · exact .inl hm

theorem Inv.entryFor (hs : Inv none s) : Inv none s.entryFor.1 ∧ s.entryFor.1.nextReg = s.nextReg := by
  rw [State.entryFor]
  cases hfound : s.found with
  | some e => exact ⟨hs, rfl⟩
  | none =>
    refine ⟨hs.setEntry (y := none) (fun _ _ h => nomatch h) (fun _ _ h => nomatch h) ?_ (fun h => nomatch h) ?_ ?_, rfl⟩
    · exact fun _ m hm => nomatch hm
    · intro e' h
      rw [if_pos (some.inj h).symm]
      rfl
    · exact fun _ hjob => nomatch hjob

theorem Inv.addFd (hs : Inv none s) {h : Handlers} (hm : s.entryFor.1.misleads s.entryFor.2 dir h = false) :
    Inv none (s.addFd dir h) := by
  obtain ⟨hs', hnext⟩ := hs.entryFor
  have hfound : (s.entryFor.1.entries s.entryFor.2).removed = false := by
    apply hs'.found
    rw [State.entryFor]
    cases hfound : s.found with
    | some e => exact hfound
    | none => rfl
  simp only [State.addFd]
  generalize s.entryFor = p at hs' hnext hfound hm ⊢
  obtain ⟨s', e⟩ := p
  simp only at hs' hnext hfound hm ⊢
  split
  · exact hs'
  · rename_i hslot
    have hslot' : (s'.entries e).slot dir = none := by simpa using hslot
    apply Inv.setArmed
    · refine hs'.weaken.place (Nat.le_succ _) (Nat.lt_succ_self _) ?_ rfl rfl ?_ (suits_of_not_misleads hm hslot')
      · intro e' dir' heq
        exact Nat.lt_irrefl _ (hs'.owned e' dir' _ heq).1
      · exact fun h => (Nat.lt_irrefl _ h).elim
    · exact fun m hm => (some.inj hm).symm
    · intro hremoved
      rw [(setSlot_frame _ _ _ _ _).2.1] at hremoved
      exact (Bool.false_ne_true (hfound.symm.trans hremoved)).elim

theorem Inv.remove (hs : Inv none s) : Inv none (s.remove r) := by
  rw [State.remove]
  split
  · have hclear := hs.clearSlot (s.regs r).owningEntry (s.regs r).dir
    simp only
    split
    · rename_i hempty
      refine Inv.setFlags ?_ rfl rfl rfl
      refine hclear.setEntry (y := none) (fun e' _ h => (some.inj h).symm) (fun _ _ h => h) ?_ (fun _ => rfl) ?_ ?_
      · exact fun _ m hm => nomatch hm
      · exact fun _ h => nomatch h
      · exact hclear.jobs _
    · have hreg := congrFun (regs_rearmEntry (s.setSlot (s.regs r).owningEntry (s.regs r).dir none) (s.regs r).owningEntry) r
      exact hclear.rearm.setFlags (congrArg Reg.dir hreg).symm (congrArg Reg.owningEntry hreg).symm
        (congrArg Reg.handlers hreg).symm
  · exact hs

theorem Inv.modify (hs : Inv none s) (hm : s.steady (.modify r dir)) : Inv none (s.modify r dir) := by
  rw [State.modify]
  split
  · rename_i hlive
    simp only
    split
    · split
      · exact hs.setFlags_rearm rfl rfl rfl
      · exact hs
    · rename_i hdir
      split
      · exact hs
      · rename_i hslot
        have hslot' : (s.entries (s.regs r).owningEntry).slot dir = none := by simpa using hslot
        have hlt : r < s.nextReg := of_decide_eq_true (Bool.and_eq_true_iff.mp hlive).1
        simp only [State.steady, hlive, hdir, decide_false, Bool.not_true, Bool.false_or, Bool.not_eq_true'] at hm
        have hbatch := suits_of_not_misleads hm hslot'
        apply Inv.rearm
        refine (hs.clearSlot _ _).place (Nat.le_refl _) hlt ?_ rfl rfl (fun _ => rfl) hbatch
        intro e' dir' heq
        rw [slot_setSlot] at heq
        split at heq
        · cases heq
        · rename_i hne
          obtain ⟨-, hd, he⟩ := hs.owned e' dir' r heq
          exact hne ⟨he.symm, hd.symm⟩
  · exact hs

theorem Inv.pause (hs : Inv none s) : Inv none (s.pause r) := by
  rw [State.pause]
  split
  · exact hs.setFlags_rearm rfl rfl rfl
  · exact hs

theorem Inv.resume (hs : Inv none s) : Inv none (s.resume r) := by
  rw [State.resume]
  split
  · exact hs.setFlags_rearm rfl rfl rfl
  · exact hs

/-! ## The poller -/

theorem Inv.fetch {pool : Bool} (hs : Inv none s) (h : s.fetch pool e ev = some s') : Inv none s' := by
  simp only [State.fetch] at h
  split at h
  · rename_i hcond
    cases h
    simp only [Bool.and_eq_true, Option.any_eq_true] at hcond
    obtain ⟨-, m, hm, hrep⟩ := hcond
    have hsuits : ∀ dir r, (s.entries e).slot dir = some r → Suits ev dir (s.regs r).handlers := by
      intro dir r hr hplain _
      have hmask : m.plain dir := by
        cases dir <;> simp_all [Bits.reportable, Bits.plain]
      obtain ⟨r', hr', hhas⟩ := hs.armed e nofun m hm dir hmask
      cases hr.symm.trans hr'
      exact .inl hhas
    have hbase : Inv none (if pool then s.setArmed e none else s) := by
      split
      · exact hs.weaken.setArmed (fun _ h => nomatch h) fun _ => rfl
      · exact hs
    refine { hbase with batch := ?_ }
    intro e' ev' hev
    cases hev
    split
    · intro dir r hr
      rw [State.setArmed, entries_setEntry, if_pos rfl] at hr
      exact hsuits dir r hr
    · exact hsuits
  · cases h

/-- What a collection leaves alone. -/
structure Quiet (s s' : State) : Prop where
  nextReg : s'.nextReg = s.nextReg
  slot : ∀ e, (s'.entries e).slot = (s.entries e).slot
  handlers : ∀ r, (s'.regs r).handlers = (s.regs r).handlers
  removed : ∀ r, (s'.regs r).removed = (s.regs r).removed

theorem Quiet.refl (s : State) : Quiet s s := ⟨rfl, fun _ => rfl, fun _ => rfl, fun _ => rfl⟩

theorem Quiet.mute (s : State) (e r : Nat) : Quiet s (s.muteLocked e r) := by
  have hregs : ∀ r', ((s.setReg r { s.regs r with muted := true }).regs r').handlers = (s.regs r').handlers ∧
      ((s.setReg r { s.regs r with muted := true }).regs r').removed = (s.regs r').removed := by
    intro r'
    rw [regs_setReg]
    split
    · rename_i heq
      exact heq ▸ ⟨rfl, rfl⟩
    · exact ⟨rfl, rfl⟩
  rw [State.muteLocked, State.rearmEntry]
  split
  · exact ⟨rfl, fun _ => rfl, fun r' => (hregs r').1, fun r' => (hregs r').2⟩
  · refine ⟨rfl, fun e' => ?_, fun r' => (hregs r').1, fun r' => (hregs r').2⟩
    rw [State.setArmed, entries_setEntry]
    split
    · rename_i heq
      exact heq ▸ rfl
    · rfl

/-- What `_ccol_fd_reg_takes_event` decides. -/
theorem takesEvent_cases (hs : Inv none s) (e r : Nat) (dir : Dir) (isErr ready : Bool) :
    Inv none (s.takesEvent e (some r) isErr ready dir).1 ∧ Quiet s (s.takesEvent e (some r) isErr ready dir).1 ∧
      ((s.takesEvent e (some r) isErr ready dir).2 = .direction →
        (s.regs r).handlers.has dir.handler) ∧
      ((s.takesEvent e (some r) isErr ready dir).2 = .error → (s.regs r).handlers.onError ∧
        (isErr ∨ ready) ∧ ¬(ready ∧ (s.regs r).handlers.has dir.handler)) := by
  simp only [State.takesEvent, State.takesCondition]
  split
  · exact ⟨hs, .refl s, nofun, nofun⟩
  · rename_i hlive
    split
    · rename_i hdir
      exact ⟨hs, .refl s, fun _ => (Bool.and_eq_true_iff.mp hdir).2, nofun⟩
    · rename_i hdir
      split
      · rename_i herror
        refine ⟨hs, .refl s, nofun, fun _ => ⟨herror, ?_, by simpa using hdir⟩⟩
        simp only [Bool.or_eq_true, Bool.not_eq_true', not_or, Bool.not_eq_false] at hlive
        simpa using hlive.2
      · split
        · rename_i hhas
          exact ⟨hs, .refl s, fun _ => hhas, nofun⟩
        · exact ⟨hs.setFlags_rearm rfl rfl rfl, .mute s e r, nofun, nofun⟩

theorem Suits.of_not_has {h : Handlers} (hs : Suits ev dir h) (herror : h.onError) (hready : ev.isReady dir)
    (hhas : ¬h.has dir.handler) : ev.isErr ∨ (dir = .read ∧ h.onReadable = false ∧ ev.pollRdhup = true) := by
  cases dir with
  | read =>
    have hread : h.onReadable = false := by simpa [Handlers.has, Dir.handler] using hhas
    rcases Bool.or_eq_true_iff.mp hready with hin | hrdhup
    · rcases hs hin herror with hh | herr | ⟨-, hrdhup⟩
      · exact (hhas hh).elim
      · exact .inl herr
      · exact .inr ⟨rfl, hread, hrdhup⟩
    · exact .inr ⟨rfl, hread, hrdhup⟩
  | write =>
    rcases hs hready herror with hh | herr | ⟨hdir, -⟩
    · exact (hhas hh).elim
    · exact .inl herr
    · cases hdir

/-- What is true of the callbacks that events on their way call for, across a collection. -/
theorem Inv.collect (hs : Inv none s) (ev : Bits) (hsuits : ∀ r, (s.entries e).slot dir = some r → Suits ev dir (s.regs r).handlers) :
    Inv none (s.collect e ev dir).1 ∧ Quiet s (s.collect e ev dir).1 ∧
      ∀ i ∈ (s.collect e ev dir).2, ItemOk (s.collect e ev dir).1 i := by
  cases hslot : (s.entries e).slot dir with
  | none =>
    simp only [State.collect, hslot, State.takesEvent, if_true]
    exact ⟨hs, .refl s, fun _ h => nomatch h⟩
  | some r =>
    obtain ⟨hs', hquiet, hdirection, herror⟩ := takesEvent_cases hs e r dir ev.isErr (ev.isReady dir)
    simp only [State.collect, hslot]
    refine ⟨hs', hquiet, fun i hi => ?_⟩
    split at hi
    · cases hi
    · rename_i hnone
      obtain rfl := mem_singleton.mp hi
      obtain ⟨hlt, hdir, -⟩ := hs'.owned e dir r ((hquiet.slot e).symm ▸ hslot)
      refine ⟨hlt, fun c hc => ?_⟩
      cases htake : (s.takesEvent e (some r) ev.isErr (ev.isReady dir) dir).2 with
      | none => exact (hnone htake).elim
      | direction =>
        have hcb : c = dir.handler := by
          cases dir <;> simpa [Item.callback, State.itemFill, htake, Dir.handler] using hc.symm
        subst hcb
        constructor
        · intro h
          cases dir <;> cases h
        · exact fun _ _ => congrArg Dir.handler hdir.symm
      | error =>
        have hcb : c = .onError := by simpa [Item.callback, State.itemFill, htake] using hc.symm
        subst hcb
        obtain ⟨honError, hreason, hnot⟩ := herror htake
        simp only [State.call, State.itemFill, hdir, hquiet.handlers]
        constructor
        · intro _
          by_cases herr : ev.isErr
          · exact .inl herr
          · have hready := hreason.resolve_left herr
            exact (hsuits r hslot).of_not_has honError hready fun hhas => hnot ⟨hready, hhas⟩
        · exact fun hready hhas => (hnot ⟨hready, hhas⟩).elim

theorem Quiet.itemOk (hq : Quiet s s') {i : Item} (h : ItemOk s i) : ItemOk s' i :=
  h.congr (Nat.le_of_eq hq.nextReg.symm) fun r _ => hq.handlers r

theorem Inv.handleEvent (hs : Inv none s) (ev : Bits)
    (hsuits : ∀ dir r, (s.entries e).slot dir = some r → Suits ev dir (s.regs r).handlers) :
    Inv none (s.handleEvent e ev).1 ∧ ∀ i ∈ (s.handleEvent e ev).2, ItemOk (s.handleEvent e ev).1 i := by
  obtain ⟨hs₁, hquiet₁, hread⟩ := hs.collect ev (hsuits .read)
  have hsuits₁ : ∀ r, ((s.collect e ev .read).1.entries e).slot .write = some r →
      Suits ev .write ((s.collect e ev .read).1.regs r).handlers := by
    intro r hr
    rw [hquiet₁.slot] at hr
    rw [hquiet₁.handlers]
    exact hsuits .write r hr
  obtain ⟨hs₂, hquiet₂, hwrite⟩ := hs₁.collect ev hsuits₁
  refine ⟨hs₂, fun i hi => ?_⟩
  rcases mem_append.mp hi with hi | hi
  · exact hquiet₂.itemOk (hread i hi)
  · exact hwrite i hi

theorem mem_collect {r : Nat} (hslot : (s.entries e).slot dir = some r) (hlive : (s.regs r).removed = false)
    (hready : ev.isReady dir) (hhas : (s.regs r).handlers.has dir.handler) :
    ∃ i ∈ (s.collect e ev dir).2, i.reg = r ∧ i.callback = some dir.handler := by
  refine ⟨s.itemFill r .direction dir ev, ?_, rfl, ?_⟩
  · simp [State.collect, State.takesEvent, hslot, hlive, hready, hhas]
  · cases dir <;> rfl

/-- A ready direction's handler gets the event. -/
theorem mem_handleEvent (hs : Inv none s) {r : Nat} (hslot : (s.entries e).slot dir = some r)
    (hlive : (s.regs r).removed = false) (hready : ev.isReady dir) (hhas : (s.regs r).handlers.has dir.handler) :
    ∃ i ∈ (s.handleEvent e ev).2, i.reg = r ∧ i.callback = some dir.handler := by
  cases dir with
  | read =>
    obtain ⟨i, hi, h⟩ := mem_collect hslot hlive hready hhas
    exact ⟨i, mem_append_left _ hi, h⟩
  | write =>
    have hquiet : Quiet s (s.collect e ev .read).1 := by
      cases hread : (s.entries e).slot .read with
      | none =>
        simp only [State.collect, hread, State.takesEvent]
        exact .refl s
      | some r' =>
        simp only [State.collect, hread]
        exact (takesEvent_cases hs _ _ _ _ _).2.1
    obtain ⟨i, hi, h⟩ := mem_collect (s := (s.collect e ev .read).1) ((hquiet.slot e).symm ▸ hslot)
      ((hquiet.removed r).trans hlive) hready ((hquiet.handlers r).symm ▸ hhas)
    exact ⟨i, mem_append_right _ hi, h⟩

theorem pollerCollect_eq (h : (s.entries e).job = none) : s.pollerCollect e ev = s.handleEvent e ev := by
  simp only [State.pollerCollect, h, isSome_none, Bool.false_eq_true, if_false, State.handleEvent]

theorem Inv.setJob (hs : Inv none s) {job : Option (List Item)} (hjob : ∀ items ∈ job, ∀ i ∈ items, ItemOk s i) :
    Inv none (s.setJob e job) := by
  refine hs.setEntry (y := none) (fun _ _ h => nomatch h) (fun _ _ h => h) (hs.armed e) (hs.gone e) ?_ hjob
  intro e' h
  split
  · rename_i heq
    exact heq ▸ hs.found e' h
  · exact hs.found e' h

theorem Inv.handle {pool submitted : Bool} (hs : Inv none s) (h : s.handle pool submitted = some s') : Inv none s' := by
  obtain ⟨⟨e, ev⟩, hbatch, rfl⟩ := map_eq_some_iff.mp h
  have hs₀ : Inv none { s with batch := none } := { hs with batch := fun _ _ h => nomatch h }
  obtain ⟨hs₁, hitems⟩ := hs₀.handleEvent ev (hs.batch e ev hbatch)
  simp only
  split
  · cases hjob : (s.entries e).job with
    | some job =>
      simp only [State.pollerCollect, hjob, isSome_some, if_true, isEmpty_nil]
      exact hs₀
    | none =>
      rw [pollerCollect_eq (s := { s with batch := none }) hjob]
      split
      · exact hs₁
      · split
        · exact hs₁.setJob fun items h => some.inj h ▸ hitems
        · exact hs₁.weaken.rearm
  · exact { hs₁ with items := hitems }

/-! ## Steps and runs -/

theorem runCallback_justified {i : Item} (hi : ItemOk s i) : ∀ c ∈ s.runCallback i, c.Justified := by
  intro c hc
  simp only [State.runCallback] at hc
  split at hc
  · cases hc
  · split at hc
    · cases hc
    · obtain ⟨cb, hcb, rfl⟩ := mem_map.mp hc
      exact hi.2 cb (eq_some_of_filter_eq_some (mem_toList.mp hcb))

theorem Inv.step {pool : Bool} {a : Act} {calls : List Call} (hs : Inv none s) (ha : s.steady a)
    (h : step pool s a = some (s', calls)) : Inv none s' ∧ ∀ c ∈ calls, c.Justified := by
  cases a with
  | add dir handlers =>
    cases h
    exact ⟨hs.addFd (Bool.not_eq_true' _ ▸ ha), fun _ h => nomatch h⟩
  | remove r =>
    cases h
    exact ⟨hs.remove, fun _ h => nomatch h⟩
  | modify r dir =>
    cases h
    exact ⟨hs.modify ha, fun _ h => nomatch h⟩
  | pause r =>
    cases h
    exact ⟨hs.pause, fun _ h => nomatch h⟩
  | resume r =>
    cases h
    exact ⟨hs.resume, fun _ h => nomatch h⟩
  | fetch e ev =>
    obtain ⟨_, hfetch, heq⟩ := map_eq_some_iff.mp h
    cases heq
    exact ⟨hs.fetch hfetch, fun _ h => nomatch h⟩
  | handle submitted =>
    obtain ⟨_, hhandle, heq⟩ := map_eq_some_iff.mp h
    cases heq
    exact ⟨hs.handle hhandle, fun _ h => nomatch h⟩
  | run =>
    simp only [Ceventloop.step] at h
    split at h
    · cases h
    · rename_i i rest hitems
      cases h
      have hall := hs.items
      rw [hitems] at hall
      exact ⟨{ hs with items := fun i hi => hall i (.tail _ hi) }, runCallback_justified (hall i (.head _))⟩
  | work e =>
    simp only [Ceventloop.step] at h
    split at h
    · rename_i i rest hjob
      cases h
      have hall := hs.jobs e _ hjob
      refine ⟨hs.setJob fun items h => ?_, runCallback_justified (hall i (.head _))⟩
      cases h
      exact fun i hi => hall i (.tail _ hi)
    · cases h
  | finish e =>
    simp only [Ceventloop.step] at h
    split at h
    · cases h
      exact ⟨hs.weaken.rearm.setJob (fun _ h => nomatch h), fun _ h => nomatch h⟩
    · cases h

theorem Inv.steadyStep {pool : Bool} {a : Act} {calls : List Call} (hs : Inv none s)
    (h : steadyStep pool s a = some (s', calls)) : Inv none s' ∧ ∀ c ∈ calls, c.Justified := by
  rw [Ceventloop.steadyStep] at h
  split at h
  · rename_i hsteady
    exact hs.step hsteady h
  · cases h

theorem Inv.init : Inv none State.init := by
  constructor
  · exact fun _ _ _ h => nomatch h
  · exact fun _ _ _ h => nomatch h
  · exact fun _ h => nomatch h
  · exact fun _ h => nomatch h
  · exact fun _ _ h => nomatch h
  · exact fun _ h => nomatch h
  · exact fun _ _ h => nomatch h

end Ccollections.Cthreadcomm.Ceventloop
