import Ccollections.Cthreadcomm.Cthreadcomm
import Ccollections.Cthreadcomm.Lemmas.Queue
import Ccollections.Lib.LinearProbe

/-!
# The circular queue is a message queue
-/

namespace Ccollections.Cthreadcomm
open Lib Function List

variable {cq : Ccircq} {msg m : Cmessage} {kind : CircqSend} {woken : Bool} {allowed : QueueLeave QueueView → Prop}

theorem verifySendZcParams_some {msg : Option Cmessage} (h : verifySendZcParams msg = some m) : msg = some m ∧ storedMsg m = m := by
  cases msg with
  | none => cases h
  | some msg =>
    simp only [verifySendZcParams] at h
    split_ifs at h with hbad
    cases h
    refine ⟨rfl, ?_⟩
    rw [storedMsg]
    by_cases hdata : m.data = none
    · have hsize : m.size = 0 := by
        by_contra hne
        exact hbad (.inr ⟨hdata, hne⟩)
      rw [if_pos hdata, ← hsize]
    · rw [if_neg hdata]

/-! ## The ring -/

def Ccircq.slot (cq : Ccircq) (i : Nat) : Nat := (cq.readIndex + i) % cq.maxSize

def Ccircq.contents (cq : Ccircq) : List Cmessage := (List.range cq.msgCount).map fun i => cq.msgArray (cq.slot i)

def Ccircq.view (cq : Ccircq) : QueueView :=
  ⟨cq.contents, cq.maxSize, cq.writingDisabled, cq.readersWaiting, cq.writersWaiting⟩

structure RingOk (cq : Ccircq) : Prop where
  read_lt : cq.readIndex < cq.maxSize
  write_eq : cq.writeIndex = cq.slot cq.msgCount
  count_le : cq.msgCount ≤ cq.maxSize

def CircqRep (cq : Ccircq) (v : QueueView) : Prop := RingOk cq ∧ v = cq.view

def heedsCircq : CircqSend → Bool
  | .ownerSend _ => false
  | _ => true

@[simp] theorem contents_length (cq : Ccircq) : cq.contents.length = cq.msgCount := by simp [Ccircq.contents]

theorem nextIndex_slot (hpos : 0 < cq.maxSize) (i : Nat) : cq.nextIndex (cq.slot i) = cq.slot (i + 1) := by
  have hlt : cq.slot i < cq.maxSize := Nat.mod_lt _ hpos
  have hnext : cq.slot (i + 1) = (cq.slot i + 1) % cq.maxSize := by simp [Ccircq.slot, Nat.add_assoc]
  rw [Ccircq.nextIndex, hnext]
  split
  · rename_i hend
    rw [hend, Nat.mod_self]
  · rename_i hend
    rw [Nat.mod_eq_of_lt (by omega)]

theorem slot_zero (h : cq.readIndex < cq.maxSize) : cq.slot 0 = cq.readIndex := Nat.mod_eq_of_lt h

/-! ## What the sections do -/

theorem sendtoCq_refines (h : RingOk cq) (hroom : cq.msgCount < cq.maxSize) (hstored : storedMsg msg = msg)
    (henabled : heedsCircq kind = true → cq.writingDisabled = false) :
    Refines CircqRep (QueueEffect heedsCircq woken cq.view (.send kind (some msg))) (cq.sendtoCq msg) := by
  refine ⟨_, .accept (by simpa [Ccircq.view] using hroom) henabled, ⟨h.read_lt, ?_, hroom⟩, ?_⟩
  · dsimp only
    rw [h.write_eq]
    exact nextIndex_slot (Nat.zero_lt_of_lt hroom) cq.msgCount
  · have hold : ∀ i < cq.msgCount, update cq.msgArray cq.writeIndex (storedMsg msg) (cq.slot i) = cq.msgArray (cq.slot i) := by
      intro i hi
      rw [h.write_eq]
      exact update_of_ne (fun heq => Nat.ne_of_lt hi (probe_inj (Nat.lt_trans hi hroom) hroom heq)) _ _
    have hcontents : Ccircq.contents
        { cq with
          msgArray := update cq.msgArray cq.writeIndex (storedMsg msg)
          writeIndex := cq.nextIndex cq.writeIndex
          msgCount := cq.msgCount + 1 } = cq.contents ++ [msg] := by
      simp only [Ccircq.contents, range_succ, map_append, map_singleton]
      refine congrArg₂ _ (map_congr_left fun i hi => hold i (mem_range.mp hi)) ?_
      change [update cq.msgArray cq.writeIndex (storedMsg msg) (cq.slot cq.msgCount)] = [msg]
      rw [h.write_eq, update_self, hstored]
    simp only [Ccircq.view, hcontents]

theorem recvfromCq_refines {kind : RecvKind} (h : RingOk cq) (hsome : 0 < cq.msgCount) :
    Refines CircqRep (QueueEffect heedsCircq woken cq.view (.recv kind true)) cq.recvfromCq := by
  have hpos : 0 < cq.maxSize := Nat.lt_of_lt_of_le hsome h.count_le
  obtain ⟨n, hn⟩ := Nat.exists_eq_add_one.mpr hsome
  have hnext : cq.nextIndex cq.readIndex = cq.slot 1 := by
    rw [← slot_zero h.read_lt]
    exact nextIndex_slot hpos 0
  have hslot : ∀ i, (cq.slot 1 + i) % cq.maxSize = cq.slot (i + 1) := by
    intro i
    simp only [Ccircq.slot, Nat.mod_add_mod]
    rw [Nat.add_assoc, Nat.add_comm 1 i]
  have hcontents : cq.contents = cq.msgArray cq.readIndex :: (List.range n).map fun i => cq.msgArray (cq.slot (i + 1)) := by
    rw [Ccircq.contents, hn, range_succ_eq_map, map_cons, slot_zero h.read_lt, map_map]
    rfl
  refine ⟨_, .take hcontents, ⟨?_, ?_, ?_⟩, ?_⟩
  · dsimp only
    rw [hnext]
    exact Nat.mod_lt _ hpos
  · have hwrite := hslot (cq.msgCount - 1)
    rw [Nat.sub_add_cancel hsome, ← h.write_eq, ← hnext] at hwrite
    exact hwrite.symm
  · exact Nat.le_trans (Nat.sub_le _ 1) h.count_le
  · have hrest : Ccircq.contents { cq with readIndex := cq.nextIndex cq.readIndex, msgCount := cq.msgCount - 1 } =
        (List.range n).map fun i => cq.msgArray (cq.slot (i + 1)) := by
      simp only [Ccircq.contents, hn, Nat.add_sub_cancel]
      refine map_congr_left fun i _ => ?_
      rw [Ccircq.slot, hnext, hslot]
    simp only [Ccircq.view, hrest]

/-! ## Sends -/

section Sends

variable (h : RingOk cq) (hvalid : verifySendZcParams (some msg) = some msg)
include h

theorem refuse_send_refines {result : RetVal} (hresult : result ≠ .success) (msg : Option Cmessage)
    (hwoken : woken = true → cq.msgCount = cq.maxSize ∨ (heedsCircq kind = true ∧ cq.writingDisabled = true)) :
    Refines CircqRep (QueueEffect heedsCircq woken cq.view (.send kind msg)) (cq.refuse result msg) :=
  ⟨_, .refuseSend hresult (by simpa [Ccircq.view] using hwoken), h, rfl⟩

theorem room_of_ne (hne : cq.msgCount ≠ cq.maxSize) : cq.msgCount < cq.maxSize := Nat.lt_of_le_of_ne h.count_le hne

include hvalid

theorem waitWrite_refines (hfull : cq.msgCount = cq.maxSize) (henabled : heedsCircq kind = true → cq.writingDisabled = false) :
    Refines CircqRep (QueueEffect heedsCircq woken cq.view (.send kind (some msg))) cq.waitWrite :=
  ⟨_, .waitWrite hvalid (by simpa [Ccircq.view] using hfull) henabled, ⟨h.read_lt, h.write_eq, h.count_le⟩, rfl⟩

theorem sendUnlessDisabled_refines (hheeds : heedsCircq kind = true) (hroom : cq.writingDisabled = false → cq.msgCount < cq.maxSize) :
    Refines CircqRep (QueueEffect heedsCircq woken cq.view (.send kind (some msg))) (cq.sendUnlessDisabled msg) := by
  rw [Ccircq.sendUnlessDisabled]
  cases hdisabled : cq.writingDisabled with
  | true => exact refuse_send_refines h (by decide) _ fun _ => .inr ⟨hheeds, hdisabled⟩
  | false => exact sendtoCq_refines h (hroom hdisabled) (verifySendZcParams_some hvalid).2 fun _ => hdisabled

theorem sendLoop_refines (hheeds : heedsCircq kind = true) :
    Refines CircqRep (QueueEffect heedsCircq woken cq.view (.send kind (some msg))) (cq.sendLoop msg) := by
  rw [Ccircq.sendLoop]
  split
  · rename_i hwait
    obtain ⟨hfull, hdisabled⟩ := hwait
    exact waitWrite_refines h hvalid hfull fun _ => by simpa using hdisabled
  · rename_i hgo
    refine sendUnlessDisabled_refines h hvalid hheeds fun hdisabled => room_of_ne h fun hfull => hgo ⟨hfull, ?_⟩
    simp [hdisabled]

theorem trySend_refines (hheeds : heedsCircq kind = true) :
    Refines CircqRep (QueueEffect heedsCircq woken cq.view (.send kind (some msg))) (cq.trySend msg) := by
  rw [Ccircq.trySend]
  cases hdisabled : cq.writingDisabled with
  | true => exact refuse_send_refines h (by decide) _ fun _ => .inr ⟨hheeds, hdisabled⟩
  | false =>
    simp only [Bool.false_eq_true, ↓reduceIte]
    split
    · rename_i hroom
      exact sendtoCq_refines h hroom (verifySendZcParams_some hvalid).2 fun _ => hdisabled
    · rename_i hfull
      exact refuse_send_refines h (by decide) _ fun _ => .inl (Nat.le_antisymm h.count_le (Nat.le_of_not_lt hfull))

theorem timedSendWoken_refines (hheeds : heedsCircq kind = true) (wait : WaitResult) :
    Refines CircqRep (QueueEffect heedsCircq woken cq.view (.send kind (some msg))) (cq.timedSendWoken msg wait) := by
  rw [Ccircq.timedSendWoken]
  split_ifs with hok hgo hout
  · exact sendLoop_refines h hvalid hheeds
  · refine sendUnlessDisabled_refines h hvalid hheeds fun hdisabled => hgo.resolve_right ?_
    simp [hdisabled]
  · refine refuse_send_refines h (by decide) _ fun _ => .inl (Nat.le_antisymm h.count_le (Nat.le_of_not_lt fun hlt => hgo (.inl hlt)))
  · refine refuse_send_refines h (by decide) _ fun _ => .inl (Nat.le_antisymm h.count_le (Nat.le_of_not_lt fun hlt => hgo (.inl hlt)))

theorem ownerSendLoop_refines (hheeds : heedsCircq kind = false) :
    Refines CircqRep (QueueEffect heedsCircq woken cq.view (.send kind (some msg))) (cq.ownerSendLoop msg) := by
  have hnever : heedsCircq kind = true → cq.writingDisabled = false := by simp [hheeds]
  rw [Ccircq.ownerSendLoop]
  split
  · rename_i hfull
    exact waitWrite_refines h hvalid hfull hnever
  · rename_i hroom
    exact sendtoCq_refines h (room_of_ne h hroom) (verifySendZcParams_some hvalid).2 hnever

theorem ownerSend_refines (hheeds : heedsCircq kind = false) (timeoutUs : UInt64) :
    Refines CircqRep (QueueEffect heedsCircq woken cq.view (.send kind (some msg))) (cq.ownerSend msg timeoutUs) := by
  rw [Ccircq.ownerSend]
  split_ifs with hfull hzero
  · exact refuse_send_refines h (by decide) _ fun _ => .inl hfull
  · exact ownerSendLoop_refines h hvalid hheeds
  · exact sendtoCq_refines h (room_of_ne h hfull) (verifySendZcParams_some hvalid).2 (by simp [hheeds])

theorem ownerSendWoken_refines (hheeds : heedsCircq kind = false) (wait : WaitResult) :
    Refines CircqRep (QueueEffect heedsCircq woken cq.view (.send kind (some msg))) (cq.ownerSendWoken msg wait) := by
  rw [Ccircq.ownerSendWoken]
  split
  · rename_i hfull
    refine refuse_send_refines h ?_ _ fun _ => .inl hfull.2
    split <;> decide
  · exact ownerSendLoop_refines h hvalid hheeds

theorem sendSection_refines :
    Refines CircqRep (QueueEffect heedsCircq woken cq.view (.send kind (some msg))) (cq.sendSection kind msg) := by
  cases kind with
  | send =>
    rw [Ccircq.sendSection, Ccircq.send]
    split
    · rename_i hdisabled
      exact refuse_send_refines h (by decide) _ fun _ => .inr ⟨rfl, hdisabled⟩
    · exact sendLoop_refines h hvalid rfl
  | trySend => exact trySend_refines h hvalid rfl
  | timedSend timeoutUs =>
    rw [Ccircq.sendSection, Ccircq.timedSend]
    split_ifs with hzero hdisabled hfull
    · exact trySend_refines h hvalid rfl
    · exact refuse_send_refines h (by decide) _ fun _ => .inr ⟨rfl, hdisabled⟩
    · exact sendLoop_refines h hvalid rfl
    · exact sendUnlessDisabled_refines h hvalid rfl fun _ => room_of_ne h hfull
  | ownerSend timeoutUs => exact ownerSend_refines h hvalid rfl timeoutUs

theorem sendWoken_refines (wait : WaitResult) :
    Refines CircqRep (QueueEffect heedsCircq woken cq.view (.send kind (some msg))) (cq.sendWoken kind msg wait) := by
  cases kind with
  | send => exact sendLoop_refines h hvalid rfl
  | trySend => exact trySend_refines h hvalid rfl
  | timedSend timeoutUs => exact timedSendWoken_refines h hvalid rfl wait
  | ownerSend timeoutUs => exact ownerSendWoken_refines h hvalid rfl wait

end Sends

/-! ## Receives -/

section Receives

variable (h : RingOk cq) {kind : RecvKind}
include h

theorem refuse_recv_refines {result : RetVal} {hasTarget : Bool} (hresult : result ≠ .success)
    (hwoken : woken = true → cq.msgCount = 0) :
    Refines CircqRep (QueueEffect heedsCircq woken cq.view (.recv kind hasTarget)) (cq.refuse result none) :=
  ⟨_, .refuseRecv hresult fun hw => by simp [Ccircq.view, Ccircq.contents, hwoken hw], h, rfl⟩

theorem recvLoop_refines : Refines CircqRep (QueueEffect heedsCircq woken cq.view (.recv kind true)) cq.recvLoop := by
  rw [Ccircq.recvLoop]
  split
  · rename_i hempty
    exact ⟨_, .waitRead (by simp [Ccircq.view, Ccircq.contents, hempty]), ⟨h.read_lt, h.write_eq, h.count_le⟩, rfl⟩
  · rename_i hsome
    exact recvfromCq_refines h (Nat.pos_of_ne_zero hsome)

theorem tryRecv_refines : Refines CircqRep (QueueEffect heedsCircq woken cq.view (.recv kind true)) cq.tryRecv := by
  rw [Ccircq.tryRecv]
  split
  · rename_i hsome
    exact recvfromCq_refines h hsome
  · rename_i hempty
    exact refuse_recv_refines h (by decide) fun _ => Nat.eq_zero_of_not_pos hempty

theorem recvSection_refines : Refines CircqRep (QueueEffect heedsCircq woken cq.view (.recv kind true)) (cq.recvSection kind) := by
  cases kind with
  | recv => exact recvLoop_refines h
  | tryRecv => exact tryRecv_refines h
  | timedRecv timeoutUs =>
    rw [Ccircq.recvSection, Ccircq.timedRecv]
    split
    · exact tryRecv_refines h
    · exact recvLoop_refines h

theorem recvWoken_refines (wait : WaitResult) :
    Refines CircqRep (QueueEffect heedsCircq woken cq.view (.recv kind true)) (cq.recvWoken kind wait) := by
  cases kind with
  | recv => exact recvLoop_refines h
  | tryRecv => exact tryRecv_refines h
  | timedRecv timeoutUs =>
    rw [Ccircq.recvWoken, Ccircq.timedRecvWoken]
    split_ifs with hok hsome hout
    · exact recvLoop_refines h
    · exact recvfromCq_refines h hsome
    · exact refuse_recv_refines h (by decide) fun _ => Nat.eq_zero_of_not_pos hsome
    · exact refuse_recv_refines h (by decide) fun _ => Nat.eq_zero_of_not_pos hsome

end Receives

theorem circq_implementsQueue : ImplementsQueue circqMonitor heedsCircq CircqRep where
  enter := by
    rintro cq _ op i ⟨h, rfl⟩
    change Refines CircqRep _ (cq.enter op i)
    cases op with
    | send kind msg =>
      simp only [Ccircq.enter]
      split
      · exact refuse_send_refines h (by decide) _ nofun
      · rename_i m hvalid
        obtain ⟨rfl, -⟩ := verifySendZcParams_some hvalid
        exact sendSection_refines h hvalid
    | recv kind hasTarget =>
      cases hasTarget with
      | true => exact recvSection_refines h
      | false => exact refuse_recv_refines h (by decide) nofun
    | disableSending => exact ⟨_, .disableSending (.inl rfl), ⟨h.read_lt, h.write_eq, h.count_le⟩, rfl⟩
    | enableSending => exact ⟨_, .enableSending (.inl rfl), ⟨h.read_lt, h.write_eq, h.count_le⟩, rfl⟩
  resume := by
    rintro cq _ op i c ⟨h, rfl⟩ hwaits -
    change Refines CircqRep _ (cq.resume op i)
    have hring : ∀ rw ww, RingOk { cq with readersWaiting := rw, writersWaiting := ww } :=
      fun _ _ => ⟨h.read_lt, h.write_eq, h.count_le⟩
    cases hwaits with
    | send hvalid => exact sendWoken_refines (hring _ _) hvalid i.wait
    | recv => exact recvWoken_refines (hring _ _) i.wait

theorem CircqRep.view_eq {v : QueueView} (h : CircqRep cq v) : cq.view = v ∧ cq.msgCount = v.contents.length := by
  obtain ⟨-, rfl⟩ := h
  simp [Ccircq.view]

theorem circqRep_create {maxSize : Nat} (hpos : 0 < maxSize) : CircqRep (ccircqCreate maxSize) ⟨[], maxSize, false, 0, 0⟩ :=
  ⟨⟨hpos, (Nat.zero_mod maxSize).symm, Nat.zero_le _⟩, rfl⟩

end Ccollections.Cthreadcomm
