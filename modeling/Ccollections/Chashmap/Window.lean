import Ccollections.Chashmap.OpenAddressing
import Ccollections.Chashmap.SeparateChaining

/-!
# The insert window

What the window is for: it counts 256 inserts of new keys and adds up their walks, in one word of 32 bits. The
abstract window is the machine whose paths are the logs of a map.
-/

namespace Ccollections.Chashmap
open Lib

def sinceRestart : List WindowEvent → List Nat :=
  List.foldl (fun since event =>
    match event with
    | .restart => []
    | .added _ walk _ _ => since ++ [walk]) []

def countAdded : List WindowEvent → Nat :=
  List.countP fun event =>
    match event with
    | .restart => false
    | .added .. => true

def lastWord (log : List WindowEvent) : Nat :=
  match log.getLast? with
  | some (.added _ _ insertWindow _) => insertWindow
  | _ => chmapWindowStart

/-- No walk of a fast map is longer: the largest `oa_insert_cap`. -/
def windowWalkMax : Nat := 288

/-- An abstract window: the mode, the word, and whether a restart has to come next. -/
structure Window where
  mode : HashMode
  insertWindow : Nat
  due : Bool

/-- Restarts may change the mode, and one follows the end of a window; in the fast mode every walk is short. -/
inductive Window.Step : Window → WindowEvent → Window → Prop
  | restart {window mode} : Step window .restart ⟨mode, chmapWindowStart, false⟩
  | added {mode insertWindow walk} (hwalk : mode = .fast → walk ≤ windowWalkMax) :
      Step ⟨mode, insertWindow, false⟩
        (.added mode walk (chmapWindowAdd insertWindow walk).1 (chmapWindowAdd insertWindow walk).2)
        ⟨mode, (chmapWindowAdd insertWindow walk).1, (chmapWindowAdd insertWindow walk).2⟩

def Window.Moves (mode : HashMode) (insertWindow : Nat) (events : List WindowEvent) (mode' : HashMode) (insertWindow' : Nat) :
    Prop :=
  Path Window.Step ⟨mode, insertWindow, false⟩ events ⟨mode', insertWindow', false⟩

/-- In a log, each window of the fast mode ends at its 256th insert and no earlier, and the word then holds the sum of
the walks. -/
def WindowsExact (log : List WindowEvent) : Prop :=
  ∀ before walk insertWindow ended after, log = before ++ .added .fast walk insertWindow ended :: after →
    (sinceRestart before ++ [walk]).length ≤ chmapWindowInserts ∧
    (ended = true ↔ (sinceRestart before ++ [walk]).length = chmapWindowInserts) ∧
    (ended = true → insertWindow = (sinceRestart before ++ [walk]).sum) ∧
    (ended = false → insertWindow = chmapWindowStart + chmapWindowStep * (sinceRestart before ++ [walk]).length +
      (sinceRestart before ++ [walk]).sum)

/-! ## Logged calls -/

section OpenAddressing

variable (p : OaParams)

def OpenAddrMap.loggedStep (map : OpenAddrMap) (op : OaOp) : Option (OpenAddrMap × (OaAnswer × List WindowEvent)) :=
  (map.step p op).map fun (map', ans) => (map', (ans, map'.windowLog.drop map.windowLog.length))

def OaOp.inserts : OaOp → Bool
  | .insertElem _ _ | .insertOrGetElem _ _ => true
  | _ => false

end OpenAddressing

namespace Sc

variable (p : ScParams)

def SepChainMap.loggedStep (map : SepChainMap) (op : ScOp) : Option (SepChainMap × (ScAnswer × List WindowEvent)) :=
  (map.step p op).map fun (map', ans) => (map', (ans, map'.windowLog.drop map.windowLog.length))

def ScOp.inserts : ScOp → Bool
  | .insertElem .. | .insertOrGetElem .. | .insertOrGetEntry .. => true
  | _ => false

end Sc

end Ccollections.Chashmap
