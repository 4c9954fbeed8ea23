import Ccollections.Lib.Runs
import Mathlib.Logic.Function.Basic
import Mathlib.Data.List.Count

/-!
# The server engine

All servers share one reactor. Each critical section on the mutex of the engine is one step, and so is each stretch a
reaper runs between two of them. The logger and the configuration of the engine are left out, but for the allocation
of the fallback logger.
-/

namespace Ccollections.Chttpserver.Engine
open Lib

/-- `srv_engine_bundler`. No process starts as many engines as `uintptr_t` counts, so the counter does not wrap. -/
structure SrvEngine where
  reactor : Option Nat
  reactorRefs : Nat
  reaperThread : Nat
  reaperJoinable : Bool
  stopping : Bool
  generation : Nat
  genCounter : Nat

/-- Where `_engine_reaper_fn` is. -/
inductive ReaperPc where
  | starting
  | tearing (loop : Option Nat)
  | torn
  | past

/-- A running reaper, on a thread of its own or inline on the thread of its caller. -/
structure Reaper where
  thread : Option Nat
  pc : ReaperPc

/-- The engine with the threads around it. `owed` counts the reapers still to be spawned, `holders` has the generation
of every reference, `forced` those a stop took down. -/
structure World where
  engine : SrvEngine
  owed : Nat
  reapers : List Reaper
  holders : List Nat
  forced : List Nat
  reactors : Nat
  generationOf : Nat → Nat
  destroyed : List Nat
  threads : Nat
  joined : List Nat

inductive Action where
  | acquire (watcher reactorMem logMem : Bool)
  | release (i : Nat)
  | forceStop (gen : Nat)
  | spawnReaper (threadMem : Bool)
  | reaperRead (i : Nat)
  | reaperDestroy (i : Nat)
  | reaperFinish (i : Nat)
  | joinFinished
  | waitUntilStopped

namespace World

/-- `_join_reaper_if_needed_locked`. It blocks as long as the reaper may still take the mutex. -/
def joinReaperIfNeededLocked (w : World) : Option World :=
  if w.engine.reaperJoinable then
    match w.reapers.findIdx? (·.thread = some w.engine.reaperThread) with
    | none => none
    | some i =>
      match w.reapers[i]? with
      | some ⟨_, .past⟩ =>
        some { w with
          engine := { w.engine with reaperJoinable := false }
          reapers := w.reapers.eraseIdx i
          joined := w.engine.reaperThread :: w.joined }
      | _ => none
  else some w

def addRef (w : World) : World :=
  { w with
    engine := { w.engine with reactorRefs := w.engine.reactorRefs + 1 }
    holders := w.engine.generation :: w.holders }

def newGeneration (w : World) : World :=
  { w with
    engine := { w.engine with
      reactor := some w.reactors
      genCounter := w.engine.genCounter + 1
      generation := w.engine.genCounter + 1 }
    reactors := w.reactors + 1
    generationOf := Function.update w.generationOf w.reactors (w.engine.genCounter + 1) }

def rollBack (w : World) : World :=
  { w with
    reactors := w.reactors + 1
    generationOf := Function.update w.generationOf w.reactors 0
    destroyed := w.reactors :: w.destroyed }

def engineAcquire (w : World) (watcher reactorMem logMem : Bool) : Option World :=
  if !watcher then some w
  else if w.engine.stopping then some w
  else do
    let w ← w.joinReaperIfNeededLocked
    match w.engine.reactor with
    | some _ => some w.addRef
    | none =>
      if !reactorMem then some w
      else if !logMem then some w.rollBack
      else some w.newGeneration.addRef

def dropRef (e : SrvEngine) : SrvEngine × Bool :=
  let e := { e with reactorRefs := if e.reactorRefs > 0 then e.reactorRefs - 1 else e.reactorRefs }
  if e.reactorRefs = 0 ∧ e.reactor.isSome ∧ !e.stopping then ({ e with stopping := true }, true) else (e, false)

def engineReleaseBegin (e : SrvEngine) (gen : Nat) : SrvEngine × Bool :=
  if gen = 0 ∨ gen ≠ e.generation then (e, false) else dropRef e

def engineForceStopNow (w : World) (gen : Nat) : World :=
  if w.engine.reactor.isSome ∧ !w.engine.stopping ∧ gen = w.engine.generation then
    { w with
      engine := { w.engine with reactorRefs := 0, stopping := true }
      forced := gen :: w.forced
      owed := w.owed + 1 }
  else w

/-- `_spawn_reaper`. Without a thread the reaper runs inline. -/
def spawnReaper (w : World) (threadMem : Bool) : World :=
  if threadMem then
    { w with
      owed := w.owed - 1
      engine := { w.engine with reaperThread := w.threads, reaperJoinable := true }
      reapers := ⟨some w.threads, .starting⟩ :: w.reapers
      threads := w.threads + 1 }
  else { w with owed := w.owed - 1, reapers := ⟨none, .starting⟩ :: w.reapers }

/-- The last locked section of `_engine_reaper_fn`. -/
def reaperFinishLocked (e : SrvEngine) : SrvEngine := { e with reactor := none, generation := 0, stopping := false }

def step (w : World) : Action → Option World
  | .acquire watcher reactorMem logMem => w.engineAcquire watcher reactorMem logMem
  | .release i => do
    let gen ← w.holders[i]?
    let w := { w with holders := w.holders.eraseIdx i }
    match engineReleaseBegin w.engine gen with
    | (engine, shouldReap) => some { w with engine := engine, owed := if shouldReap then w.owed + 1 else w.owed }
  | .forceStop gen => some (w.engineForceStopNow gen)
  | .spawnReaper threadMem => if w.owed = 0 then none else some (w.spawnReaper threadMem)
  | .reaperRead i =>
    match w.reapers[i]? with
    | some ⟨thread, .starting⟩ => some { w with reapers := w.reapers.set i ⟨thread, .tearing w.engine.reactor⟩ }
    | _ => none
  | .reaperDestroy i =>
    match w.reapers[i]? with
    | some ⟨thread, .tearing loop⟩ =>
      some { w with reapers := w.reapers.set i ⟨thread, .torn⟩, destroyed := loop.toList ++ w.destroyed }
    | _ => none
  | .reaperFinish i =>
    match w.reapers[i]? with
    | some ⟨none, .torn⟩ => some { w with engine := reaperFinishLocked w.engine, reapers := w.reapers.eraseIdx i }
    | some ⟨some t, .torn⟩ =>
      some { w with engine := reaperFinishLocked w.engine, reapers := w.reapers.set i ⟨some t, .past⟩ }
    | _ => none
  | .joinFinished => if w.engine.stopping then some w else w.joinReaperIfNeededLocked
  | .waitUntilStopped =>
    if w.engine.reactor.isSome ∨ w.engine.stopping then none else w.joinReaperIfNeededLocked

def start : World := ⟨⟨none, 0, 0, false, false, 0, 0⟩, 0, [], [], [], 0, fun _ => 0, [], 0, []⟩

def Reachable : World → Prop := Reach step start

end World

end Ccollections.Chttpserver.Engine
