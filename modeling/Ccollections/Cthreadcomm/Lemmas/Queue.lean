import Ccollections.Cthreadcomm.Cthreadcomm

/-!
# The sections of a message queue keep its invariant
-/

namespace Ccollections.Cthreadcomm
open Lib Function List

variable {σ α : Type} {heeds : α → Bool} {woken : Bool} {v v' : QueueView} {op : QueueOp α} {r : QueueReply}
  {note : Option (Notify QueueCond)} {history : List (QueueEvent α)} {e : QueueEvent α} {t wakes : Nat} {c : QueueCond}
  {capacity : Nat} {conds conds' : QueueCond → CondVar} {threads : Nat → Place QueueCond (QueueOp α)} {readers writers : Nat}

/-! ## Histories -/

theorem accepted_snoc (history : List (QueueEvent α)) (e : QueueEvent α) :
    accepted (history ++ [e]) = accepted history ++ (acceptedMsg e).toList := by
  cases h : acceptedMsg e <;> simp [accepted, h]

theorem received_snoc (history : List (QueueEvent α)) (e : QueueEvent α) :
    received (history ++ [e]) = received history ++ (receivedMsg e).toList := by
  cases h : receivedMsg e <;> simp [received, h]

theorem sendingDisabled_snoc (history : List (QueueEvent α)) (e : QueueEvent α) :
    sendingDisabled (history ++ [e]) = flagAfter (sendingDisabled history) e := by
  simp [sendingDisabled]

theorem HeedsFlag.snoc (h : HeedsFlag heeds history)
    (he : ∀ t kind msg r, e = .returned t (.send kind msg) r → heeds kind = true → r.result = .success →
      sendingDisabled history = false) : HeedsFlag heeds (history ++ [e]) := by
  intro before t kind msg r after hsplit hheeds hsuccess
  cases after using List.reverseRecOn with
  | nil =>
    obtain ⟨rfl, hlast⟩ := append_inj' hsplit rfl
    exact he t kind msg r (singleton_inj.mp hlast) hheeds hsuccess
  | append_singleton after last =>
    rw [← cons_append, ← append_assoc] at hsplit
    obtain ⟨hinit, -⟩ := append_inj' hsplit rfl
    exact h before t kind msg r after hinit hheeds hsuccess

theorem HistoryOk.quiet (h : HistoryOk heeds v history) (haccepted : acceptedMsg e = none) (hreceived : receivedMsg e = none)
    (hflag : ∀ flag, flagAfter flag e = flag) (hreply : ReplyOk e)
    (hfail : ∀ t kind msg r, e = .returned t (.send kind msg) r → r.result ≠ .success) :
    HistoryOk heeds v (history ++ [e]) where
  fifo := by rw [accepted_snoc, received_snoc, haccepted, hreceived, h.fifo]; simp
  bounded := h.bounded
  flag := by rw [sendingDisabled_snoc, hflag, h.flag]
  heedsFlag := h.heedsFlag.snoc fun t kind msg r he _ hsuccess => absurd hsuccess (hfail t kind msg r he)
  replies := by simpa [or_imp, forall_and] using ⟨h.replies, hreply⟩

theorem HistoryOk.congr (h : HistoryOk heeds v history) (hcontents : v'.contents = v.contents) (hcapacity : v'.capacity = v.capacity)
    (hdisabled : v'.disabled = v.disabled) : HistoryOk heeds v' history where
  fifo := by rw [hcontents, h.fifo]
  bounded := by rw [hcontents, hcapacity]; exact h.bounded
  flag := by rw [hdisabled, h.flag]
  heedsFlag := h.heedsFlag
  replies := h.replies

theorem HistoryOk.done (h : HistoryOk heeds v history) (heffect : QueueEffect heeds woken v op (.done v' r note)) (t : Nat) :
    HistoryOk heeds v' (history ++ [.returned t op r]) := by
  cases heffect with
  | refuseSend hresult hwoken =>
    refine h.quiet (by simp [acceptedMsg, hresult]) rfl (fun _ => rfl) ⟨fun _ => rfl, fun hs => absurd hs hresult⟩ ?_
    intro t kind msg r he
    cases he
    exact hresult
  | refuseRecv hresult hwoken => exact h.quiet rfl (by simp [receivedMsg, hresult]) (fun _ => rfl) trivial nofun
  | @accept kind msg hroom henabled =>
    refine ⟨?_, ?_, ?_, ?_, ?_⟩
    · rw [accepted_snoc, received_snoc, h.fifo]
      simp [acceptedMsg, receivedMsg]
    · rw [length_append]
      exact hroom
    · rw [sendingDisabled_snoc]
      exact h.flag
    · refine h.heedsFlag.snoc fun t kind msg r he hheeds _ => ?_
      cases he
      rw [← h.flag, henabled hheeds]
    · have hreply : ReplyOk (.returned t (.send kind (some msg)) ⟨.success, some { msg with data := none }⟩) :=
        ⟨fun hs => absurd rfl hs, fun _ => ⟨msg, rfl, rfl⟩⟩
      simpa [or_imp, forall_and] using ⟨h.replies, hreply⟩
  | @take kind msg rest hcontents =>
    have hlen := h.bounded
    rw [hcontents] at hlen
    refine ⟨?_, ?_, ?_, ?_, ?_⟩
    · rw [accepted_snoc, received_snoc, h.fifo, hcontents]
      simp [acceptedMsg, receivedMsg]
    · exact Nat.le_of_succ_le hlen
    · rw [sendingDisabled_snoc]
      exact h.flag
    · exact h.heedsFlag.snoc nofun
    · simpa [or_imp, forall_and, ReplyOk] using h.replies
  | disableSending _ =>
    refine ⟨?_, h.bounded, ?_, h.heedsFlag.snoc nofun, ?_⟩
    · rw [accepted_snoc, received_snoc, h.fifo]
      simp [acceptedMsg, receivedMsg]
    · rw [sendingDisabled_snoc]
      rfl
    · simpa [or_imp, forall_and, ReplyOk] using h.replies
  | enableSending _ =>
    refine ⟨?_, h.bounded, ?_, h.heedsFlag.snoc nofun, ?_⟩
    · rw [accepted_snoc, received_snoc, h.fifo]
      simp [acceptedMsg, receivedMsg]
    · rw [sendingDisabled_snoc]
      rfl
    · simpa [or_imp, forall_and, ReplyOk] using h.replies

/-! ## Threads -/

def justBack (woken : Bool) : QueueOp α → QueueCond → Nat
  | .send _ _, .write => if woken then 1 else 0
  | .recv _ _, .read => if woken then 1 else 0
  | _, _ => 0

theorem asleep_of_count (h : (conds c).count = 0) : (conds c).asleep = ∅ := by
  simp only [CondVar.count, Nat.add_eq_zero_iff, Finset.card_eq_zero] at h
  exact h.1

theorem signal_spec {n : Nat} (hsplit : ∀ c, (conds c).Split) (hcount : n = (conds c).count)
    (h : Monitor.notify conds wakes (if n = 0 then none else some (.one c)) = some conds') :
    (∀ d, d ≠ c → conds' d = conds d) ∧ (conds' c).asleep ⊆ (conds c).asleep ∧
      ((conds' c).asleep ≠ ∅ → (conds' c).woken.card = (conds c).woken.card + 1) := by
  refine ⟨?_, ?_, ?_⟩
  · intro d hd
    obtain ⟨hnote, -⟩ | ⟨hnote, -⟩ | ⟨heq, -⟩ := Monitor.notify_cases h d
    · split_ifs at hnote
      simp at hnote
    · split_ifs at hnote
      exact absurd (by simpa using hnote) (Ne.symm hd)
    · exact heq
  · obtain ⟨hnote, -⟩ | ⟨-, u, hu, heq⟩ | ⟨heq, -⟩ := Monitor.notify_cases h c
    · split_ifs at hnote
      simp at hnote
    · rw [heq]
      exact Finset.erase_subset u _
    · rw [heq]
  · intro hne
    obtain ⟨hnote, -⟩ | ⟨-, u, hu, heq⟩ | ⟨heq, -, hnone⟩ := Monitor.notify_cases h c
    · split_ifs at hnote
      simp at hnote
    · rw [heq]
      exact (CondVar.card_wake (hsplit c) hu).2
    · rw [heq] at hne
      by_cases hn : n = 0
      · exact absurd (asleep_of_count (hcount ▸ hn)) hne
      · exact absurd (hnone (if_neg hn)) hne

theorem broadcast_spec {n : Nat} (hcount : n = (conds .write).count) (hnote : note = some (.all .write) ∨ (note = none ∧ n = 0))
    (h : Monitor.notify conds wakes note = some conds') : conds' .read = conds .read ∧ (conds' .write).asleep = ∅ := by
  rcases hnote with rfl | ⟨rfl, hn⟩
  · cases h
    exact ⟨by simp, by simp [CondVar.wakeAll]⟩
  · cases h
    exact ⟨rfl, asleep_of_count (hcount ▸ hn)⟩

theorem waits_idle (h : ∀ t o c, threads t = .waiting o c → WaitsOn o c) (t : Nat) :
    ∀ u o c, update threads t .idle u = .waiting o c → WaitsOn o c := by
  intro u o c hu
  by_cases hut : u = t
  · subst hut
    simp at hu
  · rw [update_of_ne hut] at hu
    exact h u o c hu

theorem ThreadsOk.done (hsplit : ∀ c, (conds c).Split) (hout : ∀ c, t ∉ (conds c).asleep ∧ t ∉ (conds c).woken)
    (h : ThreadsOk heeds v conds threads ((conds .read).woken.card + justBack woken op .read)
      ((conds .write).woken.card + justBack woken op .write))
    (heffect : QueueEffect heeds woken v op (.done v' r note)) (hnotify : Monitor.notify conds wakes note = some conds') :
    ThreadsOk heeds v' conds' (update threads t .idle) (conds' .read).woken.card (conds' .write).woken.card := by
  have hwaits := waits_idle h.waits t
  have hcount := Monitor.count_of_notify hnotify hsplit
  have howners : v.disabled = true → (conds' .write).asleep ⊆ (conds .write).asleep → ∀ u ∈ (conds' .write).asleep,
      ∃ kind msg, update threads t .idle u = .waiting (.send kind msg) .write ∧ heeds kind = false := by
    intro hdisabled hsub u hu
    obtain ⟨kind, msg, hplace, hheeds⟩ := h.owners hdisabled u (hsub hu)
    have hne : u ≠ t := fun heq => (hout .write).1 (heq ▸ hsub hu)
    exact ⟨kind, msg, by rw [update_of_ne hne, hplace], hheeds⟩
  cases heffect with
  | @refuseSend kind msg result hresult hwoken =>
    cases hnotify
    refine ⟨hwaits, h.readersWaiting, h.writersWaiting, h.readersAwake, ?_, fun hd => howners hd (Finset.Subset.refl _)⟩
    intro hne hdisabled
    have hold := h.writersAwake hne hdisabled
    cases woken with
    | false => exact hold
    | true =>
      rcases hwoken rfl with hfull | ⟨-, hdis⟩
      · omega
      · rw [hdisabled] at hdis
        cases hdis
  | @refuseRecv kind hasTarget result hresult hwoken =>
    cases hnotify
    refine ⟨hwaits, h.readersWaiting, h.writersWaiting, ?_, h.writersAwake, fun hd => howners hd (Finset.Subset.refl _)⟩
    intro hne
    have hold := h.readersAwake hne
    cases woken with
    | false => exact hold
    | true => simp [hwoken rfl]
  | @accept kind msg hroom henabled =>
    obtain ⟨hother, hsub, hmoved⟩ := signal_spec hsplit h.readersWaiting hnotify
    have hwrite := hother .write (by decide)
    refine ⟨hwaits, by rw [hcount]; exact h.readersWaiting, by rw [hcount]; exact h.writersWaiting, ?_, ?_, ?_⟩
    · intro hne
      have hold := h.readersAwake fun hnone => hne (Finset.subset_empty.mp (hnone ▸ hsub))
      simp only [justBack] at hold
      rw [hmoved hne, length_append, length_singleton]
      omega
    · intro hne hdisabled
      rw [hwrite] at hne ⊢
      have hold := h.writersAwake hne hdisabled
      simp only [justBack] at hold
      rw [length_append, length_singleton]
      dsimp only
      split_ifs at hold <;> omega
    · intro hd
      exact howners hd (by rw [hwrite])
  | @take kind msg rest hcontents =>
    obtain ⟨hother, hsub, hmoved⟩ := signal_spec hsplit h.writersWaiting hnotify
    have hread := hother .read (by decide)
    have hlen : v.contents.length = rest.length + 1 := by rw [hcontents, length_cons]
    refine ⟨hwaits, by rw [hcount]; exact h.readersWaiting, by rw [hcount]; exact h.writersWaiting, ?_, ?_, fun hd => howners hd hsub⟩
    · intro hne
      rw [hread] at hne ⊢
      have hold := h.readersAwake hne
      simp only [justBack] at hold
      dsimp only
      split_ifs at hold <;> omega
    · intro hne hdisabled
      have hold := h.writersAwake (fun hnone => hne (Finset.subset_empty.mp (hnone ▸ hsub))) hdisabled
      simp only [justBack] at hold
      rw [hmoved hne]
      simp only
      omega
  | disableSending hnote =>
    obtain ⟨hread, hnone⟩ := broadcast_spec h.writersWaiting hnote hnotify
    refine ⟨hwaits, by rw [hcount]; exact h.readersWaiting, by rw [hcount]; exact h.writersWaiting, ?_,
      fun hne => absurd hnone hne, ?_⟩
    · rw [hread]
      exact h.readersAwake
    · simp [hnone]
  | enableSending hnote =>
    obtain ⟨hread, hnone⟩ := broadcast_spec h.writersWaiting hnote hnotify
    refine ⟨hwaits, by rw [hcount]; exact h.readersWaiting, by rw [hcount]; exact h.writersWaiting, ?_,
      fun hne => absurd hnone hne, ?_⟩
    · rw [hread]
      exact h.readersAwake
    · simp [hnone]

theorem ThreadsOk.sleep (hout : ∀ c, t ∉ (conds c).asleep ∧ t ∉ (conds c).woken)
    (h : ThreadsOk heeds v conds threads ((conds .read).woken.card + justBack woken op .read)
      ((conds .write).woken.card + justBack woken op .write))
    (heffect : QueueEffect heeds woken v op (.sleep v' c)) :
    ThreadsOk heeds v' (update conds c ((conds c).sleep t)) (update threads t (.waiting op c))
      ((update conds c ((conds c).sleep t)) .read).woken.card
      ((update conds c ((conds c).sleep t)) .write).woken.card := by
  have hwaits : WaitsOn op c → ∀ u o d, update threads t (.waiting op c) u = .waiting o d → WaitsOn o d := by
    intro hop u o d hu
    by_cases hut : u = t
    · subst hut
      rw [update_self] at hu
      cases hu
      exact hop
    · rw [update_of_ne hut] at hu
      exact h.waits u o d hu
  have howners : v.disabled = true → ∀ u ∈ (conds .write).asleep, ∃ kind msg,
      update threads t (.waiting op c) u = .waiting (.send kind msg) .write ∧ heeds kind = false := by
    intro hdisabled u hu
    obtain ⟨kind, msg, hplace, hheeds⟩ := h.owners hdisabled u hu
    have hne : u ≠ t := fun heq => (hout .write).1 (heq ▸ hu)
    exact ⟨kind, msg, by rw [update_of_ne hne, hplace], hheeds⟩
  cases heffect with
  | @waitWrite kind msg hvalid hfull henabled =>
    refine ⟨hwaits (.send hvalid), ?_, ?_, ?_, ?_, ?_⟩
    · simpa using h.readersWaiting
    · rw [update_self, CondVar.count_sleep (hout .write).1, ← h.writersWaiting]
    · simpa [justBack] using h.readersAwake
    · intro _ _
      dsimp only
      omega
    · intro hdisabled u hu
      rw [update_self] at hu
      rcases Finset.mem_insert.mp hu with rfl | hu
      · refine ⟨kind, some msg, by rw [update_self], ?_⟩
        cases hkind : heeds kind with
        | false => rfl
        | true =>
          rw [henabled hkind] at hdisabled
          cases hdisabled
      · exact howners hdisabled u hu
  | @waitRead kind hempty =>
    refine ⟨hwaits .recv, ?_, ?_, ?_, ?_, ?_⟩
    · rw [update_self, CondVar.count_sleep (hout .read).1, ← h.readersWaiting]
    · simpa using h.writersWaiting
    · simp [hempty]
    · simpa [justBack] using h.writersAwake
    · intro hdisabled u hu
      exact howners hdisabled u (by simpa using hu)

/-! ## Steps -/

variable {m : Monitor σ QueueCond (QueueOp α) QueueInput QueueReply} {rep : σ → QueueView → Prop} {s : σ}
  {st st' : MonitorState σ QueueCond (QueueOp α) QueueReply} {i : QueueInput} {leave : QueueLeave σ}
  {a : MonitorAction (QueueOp α) QueueInput}

structure SameQueue (v v' : QueueView) : Prop where
  contents : v'.contents = v.contents
  capacity : v'.capacity = v.capacity
  disabled : v'.disabled = v.disabled

theorem sameQueue_left (v : QueueView) (c : QueueCond) : SameQueue v (v.left c) := by
  cases c <;> exact ⟨rfl, rfl, rfl⟩

theorem ThreadsOk.waiting {readers writers : Nat} (h : ThreadsOk heeds v conds threads readers writers) (c : QueueCond) :
    v.waiting c = (conds c).count := by
  cases c with
  | read => exact h.readersWaiting
  | write => exact h.writersWaiting

theorem ThreadsOk.resume (h : ThreadsOk heeds v conds threads (conds .read).woken.card (conds .write).woken.card)
    (hplace : threads t = .waiting op c) (hwoken : t ∈ (conds c).woken) :
    ThreadsOk heeds (v.left c) (update conds c ((conds c).leave t)) threads
      (((update conds c ((conds c).leave t)) .read).woken.card + justBack true op .read)
      (((update conds c ((conds c).leave t)) .write).woken.card + justBack true op .write) := by
  have hcount := CondVar.count_leave hwoken
  have hcard : ((conds c).leave t).woken.card + 1 = (conds c).woken.card := Finset.card_erase_add_one hwoken
  cases h.waits t op c hplace with
  | send hvalid =>
    refine ⟨h.waits, ?_, ?_, ?_, ?_, ?_⟩
    · simpa [QueueView.left] using h.readersWaiting
    · rw [update_self, QueueView.left, h.writersWaiting]
      dsimp only
      omega
    · simpa [justBack, QueueView.left] using h.readersAwake
    · rw [update_self, justBack, if_pos rfl, hcard]
      exact h.writersAwake
    · rw [update_self]
      exact h.owners
  | recv =>
    refine ⟨h.waits, ?_, ?_, ?_, ?_, ?_⟩
    · rw [update_self, QueueView.left, h.readersWaiting]
      dsimp only
      omega
    · simpa [QueueView.left] using h.writersWaiting
    · rw [update_self, justBack, if_pos rfl, hcard]
      exact h.readersAwake
    · simpa [justBack, QueueView.left] using h.writersAwake
    · simpa [QueueView.left] using h.owners

theorem ThreadsOk.wake (hplaced : Monitor.Placed conds threads)
    (h : ThreadsOk heeds v conds threads (conds .read).woken.card (conds .write).woken.card) (hasleep : t ∈ (conds c).asleep) :
    ThreadsOk heeds v (update conds c ((conds c).wake t)) threads
      ((update conds c ((conds c).wake t)) .read).woken.card
      ((update conds c ((conds c).wake t)) .write).woken.card := by
  have hcount := CondVar.count_wake (hplaced.split c) hasleep
  have hcard := (CondVar.card_wake (hplaced.split c) hasleep).2
  have hne : (conds c).asleep ≠ ∅ := Finset.ne_empty_of_mem hasleep
  cases c with
  | read =>
    refine ⟨h.waits, ?_, ?_, ?_, ?_, ?_⟩
    · rw [update_self, hcount]
      exact h.readersWaiting
    · simpa using h.writersWaiting
    · intro _
      rw [update_self, hcard]
      exact Nat.le_succ_of_le (h.readersAwake hne)
    · simpa using h.writersAwake
    · simpa using h.owners
  | write =>
    refine ⟨h.waits, ?_, ?_, ?_, ?_, ?_⟩
    · simpa using h.readersWaiting
    · rw [update_self, hcount]
      exact h.writersWaiting
    · simpa using h.readersAwake
    · intro _ hdisabled
      rw [update_self, hcard]
      exact Nat.le_succ_of_le (h.writersAwake hne hdisabled)
    · intro hdisabled u hu
      rw [update_self] at hu
      exact h.owners hdisabled u (Finset.mem_of_mem_erase hu)

theorem QueueInv.began (himpl : ImplementsQueue m heeds rep) (hrep : rep st.obj v)
    (h : QueueInv heeds v st.conds st.threads st.history) (hbegan : Monitor.Began m st t op i conds leave) :
    ∃ v₁ woken, SameQueue v v₁ ∧ HistoryOk heeds v₁ st.history ∧
      ThreadsOk heeds v₁ conds st.threads ((conds .read).woken.card + justBack woken op .read)
        ((conds .write).woken.card + justBack woken op .write) ∧
      Refines rep (QueueEffect heeds woken v₁ op) leave := by
  cases hbegan with
  | enter hplace =>
    refine ⟨v, false, ⟨rfl, rfl, rfl⟩, h.history, ?_, himpl.enter _ _ _ _ hrep⟩
    have hnone : ∀ c, justBack false op c = 0 := by
      intro c
      cases op <;> cases c <;> rfl
    rw [hnone, hnone]
    exact h.threads
  | @resume c hplace hwoken =>
    have hsame := sameQueue_left v c
    refine ⟨v.left c, true, hsame, h.history.congr hsame.contents hsame.capacity hsame.disabled, ?_,
      himpl.resume _ _ _ _ _ hrep (h.threads.waits t op c hplace) ?_⟩
    · exact h.threads.resume hplace hwoken
    · rw [h.threads.waiting c, ← CondVar.count_leave hwoken]
      exact Nat.succ_pos _

def Holds (rep : σ → QueueView → Prop) (heeds : α → Bool) (st : MonitorState σ QueueCond (QueueOp α) QueueReply) : Prop :=
  Monitor.Placed st.conds st.threads ∧ ∃ v, rep st.obj v ∧ QueueInv heeds v st.conds st.threads st.history

theorem Holds.step (himpl : ImplementsQueue m heeds rep) (h : Holds rep heeds st) (hstep : m.step st a = some st') :
    Holds rep heeds st' := by
  obtain ⟨hplaced, v, hrep, hinv⟩ := h
  refine ⟨hplaced.step hstep, ?_⟩
  obtain ⟨t, o, hidle, rfl⟩ | ⟨t, o, c, hplace, hasleep, rfl⟩ | ⟨t, o, i, conds, s, c, hbegan, rfl⟩ |
    ⟨t, o, i, wakes, conds, s, r, note, conds', hbegan, hnotify, rfl⟩ := Monitor.step_cases hstep
  · refine ⟨v, hrep, hinv.history.quiet rfl rfl (fun _ => rfl) trivial nofun, ?_⟩
    have hother : ∀ u o' c, update st.threads t (.ready o) u = .waiting o' c → st.threads u = .waiting o' c := by
      intro u o' c hu
      by_cases hut : u = t
      · subst hut
        simp at hu
      · rwa [update_of_ne hut] at hu
    refine ⟨fun u o' c hu => hinv.threads.waits u o' c (hother u o' c hu), hinv.threads.readersWaiting, hinv.threads.writersWaiting,
      hinv.threads.readersAwake, hinv.threads.writersAwake, ?_⟩
    intro hdisabled u hu
    obtain ⟨kind, msg, hplace, hheeds⟩ := hinv.threads.owners hdisabled u hu
    have hne : u ≠ t := by
      rintro rfl
      rw [hidle] at hplace
      cases hplace
    exact ⟨kind, msg, (update_of_ne hne _ _).trans hplace, hheeds⟩
  · exact ⟨v, hrep, hinv.history, hinv.threads.wake hplaced hasleep⟩
  · obtain ⟨v₁, woken, hsame, hhist, hthreads, v', heffect, hrep'⟩ := hinv.began himpl hrep hbegan
    obtain ⟨-, hout⟩ := hbegan.placed hplaced
    refine ⟨v', hrep', ?_, hthreads.sleep hout heffect⟩
    cases heffect with
    | waitWrite _ _ _ => exact hhist.congr rfl rfl rfl
    | waitRead _ => exact hhist.congr rfl rfl rfl
  · obtain ⟨v₁, woken, hsame, hhist, hthreads, v', heffect, hrep'⟩ := hinv.began himpl hrep hbegan
    obtain ⟨hplaced', hout⟩ := hbegan.placed hplaced
    exact ⟨v', hrep', hhist.done heffect t, hthreads.done hplaced'.split hout heffect hnotify⟩

theorem Holds.reachable (himpl : ImplementsQueue m heeds rep) (hrep : rep s ⟨[], capacity, false, 0, 0⟩) (h : m.Reachable s st) :
    Holds rep heeds st := by
  refine Monitor.Reachable.invariant ⟨?_, ?_⟩ (fun _ _ _ hold hstep => hold.step himpl hstep) h
  · exact Monitor.Reachable.placed (m := m) .initial
  · refine ⟨_, hrep, ⟨rfl, Nat.zero_le _, rfl, ?_, by simp [Monitor.initial]⟩, ⟨nofun, rfl, rfl, ?_, ?_, ?_⟩⟩
    · intro before t kind msg r after hsplit
      simp [Monitor.initial] at hsplit
    · simp
    · simp [Monitor.initial, CondVar.empty]
    · simp

theorem Holds.unchanged (himpl : ImplementsQueue m heeds rep) (h : Holds rep heeds st) (hstep : m.step st a = some st')
    (hfail : ∀ t o r, st'.history = st.history ++ [.returned t o r] → r.result ≠ .success) :
    ∃ v v', rep st.obj v ∧ rep st'.obj v' ∧ SameQueue v v' := by
  obtain ⟨hplaced, v, hrep, hinv⟩ := h
  obtain ⟨t, o, hidle, rfl⟩ | ⟨t, o, c, hplace, hasleep, rfl⟩ | ⟨t, o, i, conds, s, c, hbegan, rfl⟩ |
    ⟨t, o, i, wakes, conds, s, r, note, conds', hbegan, hnotify, rfl⟩ := Monitor.step_cases hstep
  · exact ⟨v, v, hrep, hrep, rfl, rfl, rfl⟩
  · exact ⟨v, v, hrep, hrep, rfl, rfl, rfl⟩
  · obtain ⟨v₁, woken, hsame, -, -, v', heffect, hrep'⟩ := hinv.began himpl hrep hbegan
    refine ⟨v, v', hrep, hrep', ?_⟩
    cases heffect with
    | waitWrite _ _ _ => exact ⟨hsame.contents, hsame.capacity, hsame.disabled⟩
    | waitRead _ => exact ⟨hsame.contents, hsame.capacity, hsame.disabled⟩
  · obtain ⟨v₁, woken, hsame, -, -, v', heffect, hrep'⟩ := hinv.began himpl hrep hbegan
    have hresult := hfail t o r rfl
    refine ⟨v, v', hrep, hrep', ?_⟩
    cases heffect with
    | refuseSend _ _ => exact hsame
    | refuseRecv _ _ => exact hsame
    | accept _ _ => exact absurd rfl hresult
    | take _ => exact absurd rfl hresult
    | disableSending _ => exact absurd rfl hresult
    | enableSending _ => exact absurd rfl hresult

/-! ## What a queue promises -/

theorem sendingDisabled_of_not_enabled {before during : List (QueueEvent α)} {d : Nat} {rd : QueueReply}
    (hduring : ∀ e re, .returned e .enableSending re ∉ during) :
    sendingDisabled (before ++ .returned d .disableSending rd :: during) = true := by
  induction during using List.reverseRecOn with
  | nil => simp [sendingDisabled, flagAfter]
  | append_singleton during e ih =>
    have hrest := ih fun t r hmem => hduring t r (mem_append_left _ hmem)
    rw [← cons_append, ← append_assoc, sendingDisabled_snoc, hrest]
    cases e with
    | called t o => rfl
    | returned t o r =>
      cases o with
      | enableSending => exact absurd (by simp) (hduring t r)
      | send _ _ => rfl
      | recv _ _ => rfl
      | disableSending => rfl

section Promises

variable {view : σ → QueueView} {msgCount : σ → Nat} (hview : ∀ s v, rep s v → view s = v ∧ msgCount s = v.contents.length)

include hview

theorem Holds.delivers (himpl : ImplementsQueue m heeds rep) (h : Holds rep heeds st) : Delivers view msgCount m heeds st := by
  obtain ⟨hplaced, v, hrep, hinv⟩ := id h
  obtain ⟨hv, hcount⟩ := hview _ _ hrep
  have hheld : accepted st.history = received st.history ++ (view st.obj).contents := by rw [hv, hinv.history.fifo]
  refine ⟨⟨_, hheld.symm⟩, hheld, ?_, ?_, hinv.history.replies, ?_, ?_⟩
  · rw [hheld, length_append, hcount, hv]
  · rw [hcount, hv]
    exact hinv.history.bounded
  · intro a st' hstep hfail
    obtain ⟨v₁, v₂, hrep₁, hrep₂, hsame⟩ := h.unchanged himpl hstep hfail
    rw [(hview _ _ hrep₁).1, (hview _ _ hrep₂).1]
    exact ⟨hsame.contents, hsame.disabled⟩
  · intro before d rd during t kind msg r after hsplit hduring hheeds hsuccess
    rw [← cons_append, ← append_assoc] at hsplit
    have henabled := hinv.history.heedsFlag _ t kind msg r after hsplit hheeds hsuccess
    rw [sendingDisabled_of_not_enabled hduring] at henabled
    cases henabled

theorem Holds.noLostWakeup (h : Holds rep heeds st) : NoLostWakeup view msgCount heeds st := by
  obtain ⟨hplaced, v, hrep, hinv⟩ := h
  obtain ⟨hv, hcount⟩ := hview _ _ hrep
  rw [← hv] at hinv hcount
  refine ⟨?_, ?_, ?_, ?_⟩
  · intro hne
    rw [hcount]
    exact hinv.threads.readersAwake hne
  · intro hne
    rw [hcount]
    cases hdisabled : (view st.obj).disabled with
    | false => exact .inl (Nat.sub_le_iff_le_add'.mpr (hinv.threads.writersAwake hne hdisabled))
    | true => exact .inr ⟨rfl, hinv.threads.owners hdisabled⟩
  · intro hzero
    exact asleep_of_count (hinv.threads.readersWaiting.symm.trans hzero)
  · intro hzero
    exact asleep_of_count (hinv.threads.writersWaiting.symm.trans hzero)

end Promises

end Ccollections.Cthreadcomm
