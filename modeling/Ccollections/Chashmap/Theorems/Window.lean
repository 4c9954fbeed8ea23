import Ccollections.Chashmap.Lemmas.OaWindow
import Ccollections.Chashmap.Lemmas.ScWindow

/-!
# A fast attempt does linear work
-/

namespace Ccollections.Chashmap
open Lib Option

namespace Sc

/-- The maps a growth can find: in a reachable state, or in an insert that has linked its node. -/
def AtGrowth (p : ScParams) (map grown : SepChainMap) : Prop := grown = map ∨ ∃ key val, scInsertLinked p map key val = some grown

theorem AtGrowth.scOk {p : ScParams} {map grown : SepChainMap} {order : List Nat} (h : AtGrowth p map grown)
    (hm : ScOk p map order) : ∃ order', ScOk p grown order' := by
  rcases h with rfl | ⟨key, val, hlinked⟩
  · exact ⟨order, hm⟩
  · exact scInsertLinked_spec hm hlinked

end Sc

/-- Over every run and every hash an attempt that is given up or not stays within its bound of slots, hashes and walked
nodes. -/
theorem fast_attempt_does_linear_work :
    (∀ (p : OaParams) (n : UInt64) (blockFate : Bool) (map : OpenAddrMap), chmapCreateImpl p n blockFate = some map →
      ∀ ops : List OaOp, ∃ map' answers, run (OpenAddrMap.step p) map ops = some (map', answers) ∧
        ∀ newCapacity, (oaPlaceAllFastAttemptWork p map' newCapacity).1 = oaPlaceAllFastAttempt p map' newCapacity ∧
          (oaPlaceAllFastAttemptWork p map' newCapacity).2 ≤ 2 * map'.count + oaInsertCap newCapacity + 65) ∧
    (∀ (p : Sc.ScParams) (n : UInt64) (map : Sc.SepChainMap),
      Sc.chashmapCreateFull p n = some map ∨ Sc.ccolChmapCreateCompact p = some map →
      ∀ ops : List Sc.ScOp, ∃ map' answers, run (Sc.SepChainMap.step p) map ops = some (map', answers) ∧
        ∀ grown newSize, Sc.AtGrowth p map' grown → grown.hashMode = .keyed → Sc.SizeOk newSize →
          ∃ result work, Sc.scRelinkFastAttemptWork p grown newSize = some (result, work) ∧
            Sc.scRelinkFastAttempt p grown newSize = some result ∧
            work.hashed ≤ grown.elemCount ∧ work.restored ≤ grown.elemCount ∧
            work.walked ≤ grown.elemCount + Sc.scAttemptSlack + Sc.scChainCap - 1) := by
  constructor
  · intro p n blockFate map hcreate ops
    obtain ⟨hm, hf, hlive⟩ := chmapCreateImpl_spec hcreate
    obtain ⟨map', answers, m, hrun, -, hr⟩ := (OpenAddrMap.step_simulates p).run (.of_empty hm hf hlive) ops
    refine ⟨map', answers, hrun, fun newCapacity => ⟨rfl, ?_⟩⟩
    have hle := oaPlaceAllFastAttemptWork_le hr.table newCapacity
    omega
  · intro p n map hcreate ops
    have hstart : Sc.ScOk p map [] := by
      rcases hcreate with h | h
      · exact Sc.chmapCreateImpl_spec ⟨4, by decide, by decide, rfl⟩ h
      · exact Sc.chmapCreateImpl_spec ⟨2, by decide, by decide, rfl⟩ h
    obtain ⟨map', answers, l, hrun, -, order, hm, -⟩ := (Sc.SepChainMap.step_simulates p).run ⟨[], hstart, rfl⟩ ops
    refine ⟨map', answers, hrun, fun grown newSize hgrown hkeyed hsize => ?_⟩
    obtain ⟨order', hok⟩ := hgrown.scOk hm
    obtain ⟨nodes', arr', fast, hattempt, -⟩ := Sc.scRelinkFastAttempt_spec hok hkeyed hsize
    obtain ⟨⟨result, work⟩, hwork, rfl⟩ := map_eq_some_iff.mp hattempt
    obtain ⟨hhashed, hwalked, hrestored⟩ := Sc.scRelinkFastAttemptWork_le hok hwork
    refine ⟨_, work, hwork, hattempt, hhashed, hrestored, ?_⟩
    have hcap : Sc.scChainCap = 20 := rfl
    omega

/-- Inserts of 21 keys that `Sc.constantHash` all sends to one chain. -/
def Sc.collidingInserts : List Sc.ScOp := (List.range 21).map fun i => .insertElem [UInt8.ofNat i] [1] false

theorem fast_attempt_does_linear_work_constant_hash :
    (∃ map' answers, run (OpenAddrMap.step constantHash) ((chmapCreateImpl constantHash 16 true).get rfl)
        [.insertElem [1, 0, 0, 0] [7, 0, 0, 0]] = some (map', answers) ∧
      (oaPlaceAllFastAttemptWork constantHash map' 32).2 ≤ 2 * map'.count + oaInsertCap 32 + 65) ∧
    ∃ map' answers, run (Sc.SepChainMap.step Sc.constantHash) ((Sc.chashmapCreateFull Sc.constantHash 16).get rfl)
        Sc.collidingInserts = some (map', answers) ∧
      map'.hashMode = .keyed ∧ ∃ result work, Sc.scRelinkFastAttemptWork Sc.constantHash map' 32 = some (result, work) ∧
        work.hashed ≤ map'.elemCount ∧ work.restored ≤ map'.elemCount ∧
        work.walked ≤ map'.elemCount + Sc.scAttemptSlack + Sc.scChainCap - 1 := by
  obtain ⟨hoa, hsc⟩ := fast_attempt_does_linear_work
  constructor
  · obtain ⟨map', answers, hrun, hwork⟩ := hoa constantHash 16 true _ (some_get rfl).symm [.insertElem [1, 0, 0, 0] [7, 0, 0, 0]]
    exact ⟨map', answers, hrun, (hwork 32).2⟩
  · obtain ⟨map', answers, hrun, hwork⟩ := hsc Sc.constantHash 16 _ (.inl (some_get rfl).symm) Sc.collidingInserts
    -- The last of the keys finds a chain of the cap's length.
    have hmode : (run (Sc.SepChainMap.step Sc.constantHash) ((Sc.chashmapCreateFull Sc.constantHash 16).get rfl)
        Sc.collidingInserts).map (fun result => result.1.hashMode) = some .keyed := by decide +kernel
    rw [hrun] at hmode
    have hkeyed : map'.hashMode = .keyed := some.inj hmode
    obtain ⟨result, work, hattempt, -, hbounds⟩ := hwork map' 32 (.inl rfl) hkeyed ⟨5, by decide, by decide, rfl⟩
    exact ⟨map', answers, hrun, hkeyed, result, work, hattempt, hbounds⟩

/-!
# The insert window measures 256 inserts
-/

open Window

theorem OpenAddrMap.step_of_loggedStep {p : OaParams} {map map' : OpenAddrMap} {op : OaOp} {call : OaAnswer × List WindowEvent}
    (h : map.loggedStep p op = some (map', call)) : map.step p op = some (map', call.1) := by
  simp only [OpenAddrMap.loggedStep, map_eq_some_iff] at h
  obtain ⟨⟨map₁, ans⟩, hstep, h⟩ := h
  cases h
  exact hstep

theorem OpenAddrMap.loggedStep_simulates {p : OaParams} (hfate : ∀ i, p.fate i = true) :
    Simulation (OpenAddrMap.loggedStep p) (LogSpec OaOp.inserts OaAnswer.ret)
      fun map noted => (∃ m, OaRefines p map m) ∧ noted = map.noted := by
  rintro map noted op ⟨⟨m, hr⟩, rfl⟩
  obtain ⟨map', ans, m', hstep, -, hr'⟩ := OpenAddrMap.step_simulates p map m op hr
  have hlogs := OpenAddrMap.step_logs hfate hr.table.room hstep
  refine ⟨map', _, map'.noted, ?_, hlogs.spec, ⟨m', hr'⟩, rfl⟩
  simp only [OpenAddrMap.loggedStep, hstep, map_some]
  rfl

theorem chmapCreateImpl_window {p : OaParams} {n : UInt64} {blockFate : Bool} {map : OpenAddrMap}
    (h : chmapCreateImpl p n blockFate = some map) : map.insertWindow = chmapWindowStart := by
  unfold chmapCreateImpl at h
  split at h
  · cases h
  · dsimp only at h
    generalize (if n.toNat ≤ minimumAllowedBucketArraySize then minimumAllowedBucketArraySize
      else ccolFindNearestGtePowerOfTwo n.toNat) = size at h
    split at h
    · cases h
    · split at h
      · cases h
      · split at h
        · cases h
        · cases h
          rfl

namespace Sc

theorem SepChainMap.step_of_loggedStep {p : ScParams} {map map' : SepChainMap} {op : ScOp} {call : ScAnswer × List WindowEvent}
    (h : map.loggedStep p op = some (map', call)) : map.step p op = some (map', call.1) := by
  simp only [SepChainMap.loggedStep, map_eq_some_iff] at h
  obtain ⟨⟨map₁, ans⟩, hstep, h⟩ := h
  cases h
  exact hstep

theorem SepChainMap.loggedStep_simulates (p : ScParams) :
    Simulation (SepChainMap.loggedStep p) (LogSpec ScOp.inserts ScAnswer.ret)
      fun map noted => (∃ l, ScRefines p map l) ∧ noted = map.noted := by
  rintro map noted op ⟨⟨l, hr⟩, rfl⟩
  obtain ⟨map', ans, l', hstep, -, hr'⟩ := SepChainMap.step_simulates p map l op hr
  obtain ⟨order, hm, -⟩ := hr
  have hlogs := SepChainMap.step_logs hm hstep
  refine ⟨map', _, map'.noted, ?_, hlogs.spec, ⟨l', hr'⟩, rfl⟩
  simp only [SepChainMap.loggedStep, hstep, map_some]
  rfl

theorem scInit_window {p : ScParams} {map map' : SepChainMap} {size : Nat} (h : scInit p map size = some map') :
    map'.insertWindow = chmapWindowStart := by
  unfold scInit at h
  split at h
  · cases h
  · cases h
    rfl

theorem chmapCreateImpl_window {p : ScParams} {n : UInt64} {scMinBuckets : Nat} {map : SepChainMap}
    (h : chmapCreateImpl p n scMinBuckets = some map) : map.insertWindow = chmapWindowStart := by
  unfold chmapCreateImpl at h
  split at h
  · cases h
  · dsimp only at h
    generalize (if n.toNat ≤ scMinBuckets then scMinBuckets else ccolFindNearestGtePowerOfTwo n.toNat) = size at h
    split at h
    · cases h
    · split at h
      · cases h
      · exact scInit_window h

end Sc

/-- Every run logs one event for each insert of a new key, the word of the map is the one of its log, and every window
of the fast mode carries at its 256th insert and at no earlier one. -/
theorem insert_window_measures_256_inserts :
    (∀ (p : OaParams) (n : UInt64) (blockFate : Bool) (map : OpenAddrMap), (∀ i, p.fate i = true) →
      chmapCreateImpl p n blockFate = some map → ∀ ops : List OaOp, ∃ map' calls,
        run (OpenAddrMap.loggedStep p) map ops = some (map', calls) ∧
        run (OpenAddrMap.step p) map ops = some (map', calls.map Prod.fst) ∧
        List.Forall₂ (fun op call => countAdded call.2 = if op.inserts ∧ call.1.ret = .success then 1 else 0) ops calls ∧
        map'.insertWindow = lastWord (.restart :: calls.flatMap Prod.snd) ∧
        WindowsExact (.restart :: calls.flatMap Prod.snd)) ∧
    (∀ (p : Sc.ScParams) (n : UInt64) (map : Sc.SepChainMap),
      Sc.chashmapCreateFull p n = some map ∨ Sc.ccolChmapCreateCompact p = some map → ∀ ops : List Sc.ScOp, ∃ map' calls,
        run (Sc.SepChainMap.loggedStep p) map ops = some (map', calls) ∧
        run (Sc.SepChainMap.step p) map ops = some (map', calls.map Prod.fst) ∧
        List.Forall₂ (fun op call => countAdded call.2 = if op.inserts ∧ call.1.ret = .success then 1 else 0) ops calls ∧
        map'.insertWindow = lastWord (.restart :: calls.flatMap Prod.snd) ∧
        WindowsExact (.restart :: calls.flatMap Prod.snd)) := by
  constructor
  · intro p n blockFate map hfate hcreate ops
    obtain ⟨hm, hf, hlive⟩ := chmapCreateImpl_spec hcreate
    obtain ⟨map', calls, noted, hrun, hall, -, rfl⟩ :=
      (OpenAddrMap.loggedStep_simulates hfate).run ⟨⟨_, .of_empty hm hf hlive⟩, rfl⟩ ops
    obtain ⟨hmoves, hcounts⟩ := LogSpec.run hall
    have hlog : Moves .fast 0 (.restart :: calls.flatMap Prod.snd) map'.hashMode map'.insertWindow := by
      apply Path.cons (.restart)
      rw [← chmapCreateImpl_window hcreate]
      exact hmoves
    exact ⟨map', calls, hrun, run_map (fun _ _ _ _ h => OpenAddrMap.step_of_loggedStep h) hrun, hcounts, hlog.lastWord,
      hlog.windowsExact⟩
  · intro p n map hcreate ops
    have hstart : Sc.ScOk p map [] ∧ map.insertWindow = chmapWindowStart := by
      rcases hcreate with h | h
      · exact ⟨Sc.chmapCreateImpl_spec ⟨4, by decide, by decide, rfl⟩ h, Sc.chmapCreateImpl_window h⟩
      · exact ⟨Sc.chmapCreateImpl_spec ⟨2, by decide, by decide, rfl⟩ h, Sc.chmapCreateImpl_window h⟩
    obtain ⟨map', calls, noted, hrun, hall, -, rfl⟩ :=
      (Sc.SepChainMap.loggedStep_simulates p).run ⟨⟨[], [], hstart.1, rfl⟩, rfl⟩ ops
    obtain ⟨hmoves, hcounts⟩ := LogSpec.run hall
    have hlog : Moves .fast 0 (.restart :: calls.flatMap Prod.snd) map'.hashMode map'.insertWindow := by
      apply Path.cons (.restart)
      rw [← hstart.2]
      exact hmoves
    exact ⟨map', calls, hrun, run_map (fun _ _ _ _ h => Sc.SepChainMap.step_of_loggedStep h) hrun, hcounts, hlog.lastWord,
      hlog.windowsExact⟩

theorem insert_window_measures_256_inserts_constant_hash :
    (∃ map' calls, run (OpenAddrMap.loggedStep constantHash) ((chmapCreateImpl constantHash 16 true).get rfl)
        [.insertElem [1, 0, 0, 0] [7, 0, 0, 0]] = some (map', calls) ∧
      map'.insertWindow = lastWord (.restart :: calls.flatMap Prod.snd) ∧
      WindowsExact (.restart :: calls.flatMap Prod.snd)) ∧
    ∃ map' calls, run (Sc.SepChainMap.loggedStep Sc.constantHash) ((Sc.chashmapCreateFull Sc.constantHash 16).get rfl)
        [.insertElem [97] [1] false] = some (map', calls) ∧
      map'.insertWindow = lastWord (.restart :: calls.flatMap Prod.snd) ∧
      WindowsExact (.restart :: calls.flatMap Prod.snd) := by
  obtain ⟨hoa, hsc⟩ := insert_window_measures_256_inserts
  constructor
  · obtain ⟨map', calls, hrun, -, -, hword, hexact⟩ :=
      hoa constantHash 16 true _ (fun _ => rfl) (some_get rfl).symm [.insertElem [1, 0, 0, 0] [7, 0, 0, 0]]
    exact ⟨map', calls, hrun, hword, hexact⟩
  · obtain ⟨map', calls, hrun, -, -, hword, hexact⟩ :=
      hsc Sc.constantHash 16 _ (.inl (some_get rfl).symm) [.insertElem [97] [1] false]
    exact ⟨map', calls, hrun, hword, hexact⟩

end Ccollections.Chashmap
