import Ccollections.Cthreadcomm.Cthreadcomm
import Ccollections.Cthreadcomm.Lemmas.Ccircq
import Ccollections.Lib.Links

/-!
# The dynamic queue is a message queue
-/

namespace Ccollections.Cthreadcomm
open Lib Function List

variable {dq : Cdynmq} {msg m : Cmessage} {kind : DynmqSend} {woken : Bool} {ids : List Nat} {id : Nat}
  {nodes : Nat → Option DllistNode}

/-! ## The list -/

def nextOf (nodes : Nat → Option DllistNode) (id : Nat) : Option Nat := (nodes id).bind (·.next)

def prevOf (nodes : Nat → Option DllistNode) (id : Nat) : Option Nat := (nodes id).bind (·.prev)

def msgOf (nodes : Nat → Option DllistNode) (id : Nat) : Cmessage := ((nodes id).map (·.msg)).getD ⟨none, 0⟩

structure DllistOk (dq : Cdynmq) (ids : List Nat) : Prop where
  next : Seg (nextOf dq.nodes) dq.head ids none
  prev : Seg (prevOf dq.nodes) dq.tail ids.reverse none
  nodup : ids.Nodup
  live : ∀ id ∈ ids, (dq.nodes id).isSome ∧ id < dq.nextNode
  fresh : ∀ id, dq.nextNode ≤ id → dq.nodes id = none
  count : dq.msgCount = ids.length
  bounded : ids.length ≤ ccolMaxElemCount

def DynmqRep (dq : Cdynmq) (v : QueueView) : Prop :=
  ∃ ids, DllistOk dq ids ∧ v = ⟨ids.map (msgOf dq.nodes), ccolMaxElemCount, dq.writingDisabled, dq.readersWaiting, 0⟩

def heedsDynmq : DynmqSend → Bool
  | .send => true
  | .ownerSend => false

theorem DllistOk.congr {dq' : Cdynmq} (h : DllistOk dq ids) (hnodes : dq'.nodes = dq.nodes) (hhead : dq'.head = dq.head)
    (htail : dq'.tail = dq.tail) (hnext : dq'.nextNode = dq.nextNode) (hcount : dq'.msgCount = dq.msgCount) : DllistOk dq' ids := by
  refine ⟨?_, ?_, h.nodup, ?_, ?_, hcount.trans h.count, h.bounded⟩
  · rw [hnodes, hhead]
    exact h.next
  · rw [hnodes, htail]
    exact h.prev
  · rw [hnodes, hnext]
    exact h.live
  · rw [hnodes, hnext]
    exact h.fresh

theorem DllistOk.tail_eq (h : DllistOk dq ids) : dq.tail = ids.getLast? := by
  rw [h.prev.head_eq, List.head?_reverse]

theorem DllistOk.append_nil (h : DllistOk dq []) (msg : Cmessage) :
    DllistOk { dq.appendMsgToDqTail msg with msgCount := dq.msgCount + 1 } [dq.nextNode] ∧
      [dq.nextNode].map (msgOf (dq.appendMsgToDqTail msg).nodes) = [storedMsg msg] := by
  have hhead : dq.head = none := h.next
  have hcount := h.count
  simp only [Cdynmq.appendMsgToDqTail, hhead]
  have hroom : [dq.nextNode].length ≤ ccolMaxElemCount := by
    rw [length_singleton]
    decide
  refine ⟨⟨?_, ?_, by simp, ?_, ?_, ?_, hroom⟩, by simp [msgOf]⟩
  · simp [Seg, nextOf]
  · simp [Seg, prevOf]
  · simp
  · intro id hid
    dsimp only at hid ⊢
    rw [update_of_ne (by omega)]
    exact h.fresh id (by omega)
  · simpa using hcount

theorem DllistOk.append_cons {last : Nat} (h : DllistOk dq ids) (hlast : ids.getLast? = some last)
    (hroom : ids.length < ccolMaxElemCount) (msg : Cmessage) :
    DllistOk { dq.appendMsgToDqTail msg with msgCount := dq.msgCount + 1 } (ids ++ [dq.nextNode]) ∧
      (ids ++ [dq.nextNode]).map (msgOf (dq.appendMsgToDqTail msg).nodes) = ids.map (msgOf dq.nodes) ++ [storedMsg msg] := by
  have hmem : last ∈ ids := mem_of_getLast? hlast
  have hnew : dq.nextNode ∉ ids := fun hmem => Nat.lt_irrefl _ (h.live _ hmem).2
  have hne : last ≠ dq.nextNode := fun heq => hnew (heq ▸ hmem)
  have htail : dq.tail = some last := h.tail_eq.trans hlast
  obtain ⟨first, hhead⟩ : ∃ first, dq.head = some first := by
    rw [h.next.head_eq]
    cases ids with
    | nil => cases hmem
    | cons a _ => exact ⟨a, rfl⟩
  obtain ⟨node, hnode⟩ := Option.isSome_iff_exists.mp (h.live last hmem).1
  simp only [Cdynmq.appendMsgToDqTail, hhead, htail]
  -- The only nodes that change are the new one and the old tail.
  have hsame : ∀ i, i ≠ dq.nextNode → i ≠ last → Cdynmq.setNode
      (update dq.nodes dq.nextNode (some ⟨some last, storedMsg msg, none⟩)) last (fun n => { n with next := some dq.nextNode }) i =
      dq.nodes i := by
    intro i hi hl
    simp [Cdynmq.setNode, hi, hl]
  have hold : Cdynmq.setNode (update dq.nodes dq.nextNode (some ⟨some last, storedMsg msg, none⟩)) last
      (fun n => { n with next := some dq.nextNode }) last = some { node with next := some dq.nextNode } := by
    simp [Cdynmq.setNode, hne, hnode]
  have hfresh : Cdynmq.setNode (update dq.nodes dq.nextNode (some ⟨some last, storedMsg msg, none⟩)) last
      (fun n => { n with next := some dq.nextNode }) dq.nextNode = some ⟨some last, storedMsg msg, none⟩ := by
    simp [Cdynmq.setNode, hne.symm]
  generalize Cdynmq.setNode (update dq.nodes dq.nextNode (some ⟨some last, storedMsg msg, none⟩)) last
      (fun n => { n with next := some dq.nextNode }) = nodes at hsame hold hfresh ⊢
  have hne' : ∀ i ∈ ids, i ≠ dq.nextNode := fun i hi heq => hnew (heq ▸ hi)
  refine ⟨⟨?_, ?_, ?_, ?_, ?_, ?_, ?_⟩, ?_⟩
  · refine h.next.push_back h.nodup (by simp [nextOf, hfresh]) ?_ ?_ ?_
    · intro z hz
      rw [hlast] at hz
      cases hz
      exact ⟨hhead.symm, by simp [nextOf, hold]⟩
    · rintro rfl
      cases hmem
    · intro b hb hbl
      rw [hlast] at hbl
      simp [nextOf, hsame b (hne' b hb) fun heq => hbl (by rw [heq])]
  · rw [reverse_append, reverse_singleton, singleton_append]
    refine h.prev.push (by simp [prevOf, hfresh, htail]) ?_
    intro b hb
    rw [mem_reverse] at hb
    by_cases hbl : b = last
    · subst hbl
      simp [prevOf, hold, hnode]
    · simp [prevOf, hsame b (hne' b hb) hbl]
  · simpa [nodup_append] using ⟨h.nodup, hne'⟩
  · intro i hi
    rcases mem_append.mp hi with hi | hi
    · refine ⟨?_, Nat.lt_succ_of_lt (h.live i hi).2⟩
      by_cases hil : i = last
      · subst hil
        simp [hold]
      · simp [hsame i (hne' i hi) hil, (h.live i hi).1]
    · rw [mem_singleton.mp hi]
      exact ⟨by simp [hfresh], Nat.lt_succ_self _⟩
  · intro i hi
    have hlt := (h.live last hmem).2
    dsimp only at hi ⊢
    rw [hsame i (by omega) (by omega)]
    exact h.fresh i (by omega)
  · simp [h.count]
  · rw [length_append, length_singleton]
    exact hroom
  · rw [map_append, map_singleton]
    refine congrArg₂ _ (map_congr_left fun i hi => ?_) (by simp [msgOf, hfresh])
    by_cases hil : i = last
    · subst hil
      simp [msgOf, hold, hnode]
    · simp [msgOf, hsame i (hne' i hi) hil]

theorem DllistOk.append (h : DllistOk dq ids) (hroom : ids.length < ccolMaxElemCount) (msg : Cmessage) :
    DllistOk { dq.appendMsgToDqTail msg with msgCount := dq.msgCount + 1 } (ids ++ [dq.nextNode]) ∧
      (ids ++ [dq.nextNode]).map (msgOf (dq.appendMsgToDqTail msg).nodes) = ids.map (msgOf dq.nodes) ++ [storedMsg msg] := by
  cases hlast : ids.getLast? with
  | none =>
    rw [List.getLast?_eq_none_iff] at hlast
    subst hlast
    exact h.append_nil msg
  | some last => exact h.append_cons hlast hroom msg

theorem DllistOk.remove {first : Nat} (h : DllistOk dq (first :: ids)) :
    ∃ dq', dq.removeMsgFromDqHead = some (dq', msgOf dq.nodes first) ∧ DllistOk { dq' with msgCount := dq.msgCount - 1 } ids ∧
      ids.map (msgOf dq'.nodes) = ids.map (msgOf dq.nodes) ∧ dq'.writingDisabled = dq.writingDisabled ∧
      dq'.readersWaiting = dq.readersWaiting := by
  obtain ⟨hhead, hnext⟩ := h.next
  obtain ⟨node, hnode⟩ := Option.isSome_iff_exists.mp (h.live first mem_cons_self).1
  have hlink : node.next = ids.head? := by
    have heq := hnext.head_eq
    simpa [nextOf, hnode] using heq
  obtain ⟨hfirst, hnodup⟩ := nodup_cons.mp h.nodup
  have hcount : dq.msgCount - 1 = ids.length := by rw [h.count, length_cons, Nat.add_sub_cancel]
  have hmsg : msgOf dq.nodes first = node.msg := by simp [msgOf, hnode]
  cases ids with
  | nil =>
    refine ⟨{ dq with head := none, tail := none, nodes := update dq.nodes first none }, ?_, ?_, rfl, rfl, rfl⟩
    · simp [Cdynmq.removeMsgFromDqHead, hhead, hnode, hlink, hmsg]
    · refine ⟨rfl, rfl, nodup_nil, nofun, ?_, hcount, Nat.zero_le _⟩
      intro i hi
      dsimp only
      by_cases hif : i = first
      · rw [hif, update_self]
      · rw [update_of_ne hif]
        exact h.fresh i hi
  | cons second rest =>
    obtain ⟨node₂, hnode₂⟩ := Option.isSome_iff_exists.mp (h.live second (by simp)).1
    have hne : second ≠ first := fun heq => hfirst (heq ▸ mem_cons_self)
    have hsame : ∀ i, i ≠ first → i ≠ second →
        update (Cdynmq.setNode dq.nodes second fun n => { n with prev := none }) first none i = dq.nodes i := by
      intro i hi hi₂
      simp [Cdynmq.setNode, hi, hi₂]
    have hsecond : update (Cdynmq.setNode dq.nodes second fun n => { n with prev := none }) first none second =
        some { node₂ with prev := none } := by simp [Cdynmq.setNode, hne, hnode₂]
    have hgone : update (Cdynmq.setNode dq.nodes second fun n => { n with prev := none }) first none first = none := by
      simp
    have hdq : dq.removeMsgFromDqHead = some ({ dq with
        head := some second
        nodes := update (Cdynmq.setNode dq.nodes second fun n => { n with prev := none }) first none }, node.msg) := by
      simp [Cdynmq.removeMsgFromDqHead, hhead, hnode, hlink]
    rw [← hmsg] at hdq
    generalize update (Cdynmq.setNode dq.nodes second fun n => { n with prev := none }) first none = nodes at *
    have hne' : ∀ i ∈ second :: rest, i ≠ first := fun i hi heq => hfirst (heq ▸ hi)
    have hnexts : ∀ i ∈ second :: rest, nextOf nodes i = nextOf dq.nodes i := by
      intro i hi
      by_cases his : i = second
      · subst his
        simp [nextOf, hsecond, hnode₂]
      · simp [nextOf, hsame i (hne' i hi) his]
    refine ⟨_, hdq, ⟨?_, ?_, hnodup, ?_, ?_, hcount, Nat.le_of_succ_le h.bounded⟩, ?_, rfl, rfl⟩
    · have hstart : nextOf dq.nodes first = some second := by simp [nextOf, hnode, hlink]
      rw [hstart] at hnext
      exact hnext.congr hnexts
    · -- The old head was the end of the list in the other direction.
      have hprev := h.prev
      rw [reverse_cons] at hprev
      obtain ⟨q, hrest, -⟩ := Seg.append.mp hprev
      refine hrest.redirect (nodup_reverse.mpr hnodup) ?_ ?_ ?_
      · intro z hz
        rw [List.getLast?_reverse] at hz
        cases hz
        exact ⟨rfl, by simp [prevOf, hsecond]⟩
      · intro hnil
        simp at hnil
      · intro b hb hbl
        rw [List.getLast?_reverse] at hbl
        rw [mem_reverse] at hb
        have hbs : b ≠ second := fun heq => hbl (by rw [heq]; rfl)
        simp [prevOf, hsame b (hne' b hb) hbs]
    · intro i hi
      have hlive := h.live i (mem_cons_of_mem first hi)
      refine ⟨?_, hlive.2⟩
      by_cases his : i = second
      · subst his
        simp [hsecond]
      · simp [hsame i (hne' i hi) his, hlive.1]
    · intro i hi
      by_cases hif : i = first
      · rw [hif]
        exact hgone
      · have his : i ≠ second := by
          rintro rfl
          have hlt := (h.live i (by simp)).2
          exact absurd hi (Nat.not_le_of_lt hlt)
        dsimp only
        rw [hsame i hif his]
        exact h.fresh i hi
    · refine map_congr_left fun i hi => ?_
      by_cases his : i = second
      · subst his
        simp [msgOf, hsecond, hnode₂]
      · simp [msgOf, hsame i (hne' i hi) his]

/-! ## What the sections do -/

section Sections

variable (h : DllistOk dq ids)

def dynmqView (dq : Cdynmq) (ids : List Nat) : QueueView :=
  ⟨ids.map (msgOf dq.nodes), ccolMaxElemCount, dq.writingDisabled, dq.readersWaiting, 0⟩

include h

theorem dynmq_refuse_send {result : RetVal} (hresult : result ≠ .success) (msg : Option Cmessage) :
    Refines DynmqRep (QueueEffect heedsDynmq false (dynmqView dq ids) (.send kind msg)) (dq.refuse result msg) :=
  ⟨_, .refuseSend hresult nofun, ids, h, rfl⟩

theorem sendtoDq_refines (hvalid : verifySendZcParams (some msg) = some msg)
    (hroom : dq.msgCount ≠ ccolMaxElemCount) (henabled : heedsDynmq kind = true → dq.writingDisabled = false) (alloc : Bool) :
    Refines DynmqRep (QueueEffect heedsDynmq false (dynmqView dq ids) (.send kind (some msg))) (dq.sendtoDq msg alloc) := by
  rw [Cdynmq.sendtoDq]
  cases alloc with
  | false => exact dynmq_refuse_send h (by decide) _
  | true =>
    have hlt : ids.length < ccolMaxElemCount := Nat.lt_of_le_of_ne h.bounded (h.count ▸ hroom)
    obtain ⟨hlist, hmsgs⟩ := h.append hlt msg
    rw [(verifySendZcParams_some hvalid).2] at hmsgs
    have hlen : (dynmqView dq ids).contents.length < (dynmqView dq ids).capacity := by
      simpa only [dynmqView, length_map] using hlt
    have hfields : (dq.appendMsgToDqTail msg).writingDisabled = dq.writingDisabled ∧
        (dq.appendMsgToDqTail msg).readersWaiting = dq.readersWaiting := by
      simp only [Cdynmq.appendMsgToDqTail]
      split <;> exact ⟨rfl, rfl⟩
    refine ⟨_, .accept hlen henabled, ids ++ [dq.nextNode], hlist, ?_⟩
    simp only [dynmqView, hmsgs, hfields]

theorem recvfromDq_refines {kind : RecvKind} (hsome : dq.msgCount ≠ 0) :
    Refines DynmqRep (QueueEffect heedsDynmq woken (dynmqView dq ids) (.recv kind true)) dq.recvfromDq := by
  cases ids with
  | nil => exact absurd h.count hsome
  | cons first rest =>
    obtain ⟨dq', hremove, hlist, hmsgs, hdisabled, hreaders⟩ := h.remove
    simp only [Cdynmq.recvfromDq, hremove]
    refine ⟨_, .take rfl, rest, hlist, ?_⟩
    simp only [dynmqView, hmsgs, hdisabled, hreaders]

theorem dynmq_refuse_recv {kind : RecvKind} {hasTarget : Bool} {result : RetVal} (hresult : result ≠ .success)
    (hwoken : woken = true → dq.msgCount = 0) :
    Refines DynmqRep (QueueEffect heedsDynmq woken (dynmqView dq ids) (.recv kind hasTarget)) (dq.refuse result none) := by
  refine ⟨_, .refuseRecv hresult fun hw => ?_, ids, h, rfl⟩
  have hnil : ids = [] := length_eq_zero_iff.mp (h.count.symm.trans (hwoken hw))
  simp [dynmqView, hnil]

theorem dynmq_recvLoop_refines {kind : RecvKind} :
    Refines DynmqRep (QueueEffect heedsDynmq woken (dynmqView dq ids) (.recv kind true)) dq.recvLoop := by
  rw [Cdynmq.recvLoop]
  split
  · rename_i hempty
    have hnil : ids = [] := length_eq_zero_iff.mp (h.count.symm.trans hempty)
    exact ⟨_, .waitRead (by simp [dynmqView, hnil]), ids, h.congr rfl rfl rfl rfl rfl, rfl⟩
  · rename_i hsome
    exact recvfromDq_refines h hsome

theorem dynmq_tryRecv_refines {kind : RecvKind} :
    Refines DynmqRep (QueueEffect heedsDynmq woken (dynmqView dq ids) (.recv kind true)) dq.tryRecv := by
  rw [Cdynmq.tryRecv]
  split
  · rename_i hsome
    exact recvfromDq_refines h (Nat.ne_of_gt hsome)
  · rename_i hempty
    exact dynmq_refuse_recv h (by decide) fun _ => Nat.eq_zero_of_not_pos hempty

theorem dynmq_recvSection_refines (kind : RecvKind) :
    Refines DynmqRep (QueueEffect heedsDynmq woken (dynmqView dq ids) (.recv kind true)) (dq.recvSection kind) := by
  cases kind with
  | recv => exact dynmq_recvLoop_refines h
  | tryRecv => exact dynmq_tryRecv_refines h
  | timedRecv timeoutUs =>
    rw [Cdynmq.recvSection, Cdynmq.timedRecv]
    split
    · exact dynmq_tryRecv_refines h
    · exact dynmq_recvLoop_refines h

theorem dynmq_recvWoken_refines (kind : RecvKind) (wait : WaitResult) :
    Refines DynmqRep (QueueEffect heedsDynmq woken (dynmqView dq ids) (.recv kind true)) (dq.recvWoken kind wait) := by
  cases kind with
  | recv => exact dynmq_recvLoop_refines h
  | tryRecv => exact dynmq_tryRecv_refines h
  | timedRecv timeoutUs =>
    rw [Cdynmq.recvWoken, Cdynmq.timedRecvWoken]
    split_ifs with hok hsome hout
    · exact dynmq_recvLoop_refines h
    · exact recvfromDq_refines h (Nat.ne_of_gt hsome)
    · exact dynmq_refuse_recv h (by decide) fun _ => Nat.eq_zero_of_not_pos hsome
    · exact dynmq_refuse_recv h (by decide) fun _ => Nat.eq_zero_of_not_pos hsome

theorem dynmq_sendSection_refines (hvalid : verifySendZcParams (some msg) = some msg) (alloc : Bool) :
    Refines DynmqRep (QueueEffect heedsDynmq false (dynmqView dq ids) (.send kind (some msg))) (dq.sendSection kind msg alloc) := by
  cases kind with
  | send =>
    rw [Cdynmq.sendSection, Cdynmq.send]
    split_ifs with hdisabled hfull
    · exact dynmq_refuse_send h (by decide) _
    · exact dynmq_refuse_send h (by decide) _
    · exact sendtoDq_refines h hvalid hfull (fun _ => by simpa using hdisabled) alloc
  | ownerSend =>
    rw [Cdynmq.sendSection, Cdynmq.ownerSend]
    split_ifs with hfull
    · exact dynmq_refuse_send h (by decide) _
    · exact sendtoDq_refines h hvalid hfull (by simp [heedsDynmq]) alloc

end Sections

theorem dynmq_implementsQueue : ImplementsQueue dynmqMonitor heedsDynmq DynmqRep where
  enter := by
    rintro dq _ op i ⟨ids, h, rfl⟩
    change Refines DynmqRep (QueueEffect heedsDynmq false (dynmqView dq ids) op) (dq.enter op i)
    cases op with
    | send kind msg =>
      simp only [Cdynmq.enter]
      split
      · exact dynmq_refuse_send h (by decide) _
      · rename_i m hvalid
        obtain ⟨rfl, -⟩ := verifySendZcParams_some hvalid
        exact dynmq_sendSection_refines h hvalid i.alloc
    | recv kind hasTarget =>
      cases hasTarget with
      | true => exact dynmq_recvSection_refines h kind
      | false => exact dynmq_refuse_recv h (by decide) nofun
    | disableSending => exact ⟨_, .disableSending (.inr ⟨rfl, rfl⟩), ids, h.congr rfl rfl rfl rfl rfl, rfl⟩
    | enableSending => exact ⟨_, .enableSending (.inr ⟨rfl, rfl⟩), ids, h.congr rfl rfl rfl rfl rfl, rfl⟩
  resume := by
    rintro dq _ op i c ⟨ids, h, rfl⟩ hwaits hwaiting
    change Refines DynmqRep _ (dq.resume op i)
    cases hwaits with
    | send hvalid => exact absurd hwaiting (Nat.lt_irrefl 0)
    | recv =>
      have hlist : DllistOk { dq with readersWaiting := dq.readersWaiting - 1 } ids := h.congr rfl rfl rfl rfl rfl
      exact dynmq_recvWoken_refines hlist _ i.wait

theorem dynmqRep_create : DynmqRep cdynmqCreate ⟨[], ccolMaxElemCount, false, 0, 0⟩ :=
  ⟨[], ⟨rfl, rfl, nodup_nil, nofun, fun _ _ => rfl, rfl, Nat.zero_le _⟩, rfl⟩

/-! ## The messages in order -/

def messagesFrom (nodes : Nat → Option DllistNode) : Nat → Option Nat → List Cmessage
  | 0, _ => []
  | _ + 1, none => []
  | n + 1, some id => msgOf nodes id :: messagesFrom nodes n (nextOf nodes id)

def Cdynmq.contents (dq : Cdynmq) : List Cmessage := messagesFrom dq.nodes dq.msgCount dq.head

def Cdynmq.view (dq : Cdynmq) : QueueView := ⟨dq.contents, ccolMaxElemCount, dq.writingDisabled, dq.readersWaiting, 0⟩

theorem messagesFrom_eq {p : Option Nat} (h : Seg (nextOf nodes) p ids none) : messagesFrom nodes ids.length p = ids.map (msgOf nodes) := by
  induction ids generalizing p with
  | nil => rfl
  | cons id rest ih =>
    obtain ⟨rfl, hrest⟩ := h
    simp only [length_cons, messagesFrom, map_cons, ih hrest]

theorem DllistOk.contents_eq (h : DllistOk dq ids) : dq.contents = ids.map (msgOf dq.nodes) := by
  rw [Cdynmq.contents, h.count, messagesFrom_eq h.next]

theorem DynmqRep.view_eq {v : QueueView} (h : DynmqRep dq v) : dq.view = v ∧ dq.msgCount = v.contents.length := by
  obtain ⟨ids, hlist, rfl⟩ := h
  simp [Cdynmq.view, hlist.contents_eq, hlist.count]

end Ccollections.Cthreadcomm
