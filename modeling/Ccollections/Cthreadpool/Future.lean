import Ccollections.Common.Basic
import Ccollections.Lib.Runs

/-!
# Futures

A future is a block that the caller of a submit, the producer of the result and any number of waiters share. Each of
them holds a reference, and whoever drops the last one destroys the block.
-/

namespace Ccollections.Cthreadpool
open Lib

/-- The fields of `cthrpool_future_t` under its mutex. A `void *` is `none` when it is NULL. -/
structure Future (α : Type) where
  result : Option α
  refcount : Int
  done : Bool
  cancelled : Bool
  deriving DecidableEq

/-! ## Creation -/

/-- What the calls that make a future answer. -/
structure FutureEnv where
  block : Bool
  mutex : Bool
  condVar : Bool

variable {α τ : Type}

def Future.fresh : Future α := ⟨none, 2, false, false⟩

/-- `submit_future_alloc`, with the number of blocks that are left allocated. -/
def submitFutureAlloc (env : FutureEnv) : Option (Future α) × Int :=
  if !env.block then (none, 0)
  else if !env.mutex then (none, 1 - 1)
  else if !env.condVar then (none, 1 - 1)
  else (some .fresh, 1)

/-- `cthrpool_future_create_detached`, with the text in `err_str`. -/
def cthrpoolFutureCreateDetached (env : FutureEnv) : Option (Future α) × Option String × Int :=
  if !env.block then (none, some "failed to allocate future", 0)
  else if !env.mutex then (none, some "future mutex init failed", 1 - 1)
  else if !env.condVar then (none, some "future cond_var init failed", 1 - 1)
  else (some .fresh, none, 1)

/-- How a submit waits for a slot: `block` of `submit_future_generic`. -/
inductive SubmitBlock where
  | try
  | wait
  | timed
  deriving DecidableEq

/-- What a submit learns of its pool on the way. -/
structure SubmitEnv extends FutureEnv where
  resolved : Bool
  hasFn : Bool
  deadline : Bool
  hint : RetVal
  enqueued : RetVal

/-- `submit_future_generic`: the code, `*out` and the blocks that are left. -/
def submitFutureGeneric (env : SubmitEnv) (block : SubmitBlock) : RetVal × Option (Future α) × Int :=
  if !env.resolved then (.invalidArgs, none, 0)
  else if !env.hasFn then (.invalidArgs, none, 0)
  else if block = .timed ∧ !env.deadline then (.unexpectedFailure, none, 0)
  else if block = .try ∧ env.hint ≠ .success then (env.hint, none, 0)
  else
    match submitFutureAlloc env.toFutureEnv with
    | (none, blocks) => (.notEnoughMemory, none, blocks)
    | (some f, blocks) =>
      if env.enqueued ≠ .success then (env.enqueued, none, blocks - 1) else (.success, some f, blocks)

/-! ## The critical sections -/

/-- The single completion of a future: by its worker, by `future_cancel` for a discarded task, or by a producer. -/
inductive Completion (α : Type) where
  | worker (result : Option α)
  | discard
  | fulfill (result : Option α)
  deriving DecidableEq

def Completion.value : Completion α → Option α
  | worker result => result
  | discard => none
  | fulfill result => result

/-- The calls on a future. -/
inductive Op (α : Type) where
  | get
  | done
  | cancelled
  | free
  | complete (c : Completion α)
  deriving DecidableEq

def Op.isFree : Op α → Bool
  | free => true
  | _ => false

def Op.completion : Op α → Option (Completion α)
  | complete c => some c
  | get | done | cancelled | free => none

inductive Ret (α : Type) where
  | value (result : Option α)
  | flag (b : Bool)
  | code (rv : RetVal)
  | none
  deriving DecidableEq

/-- How a section under the mutex ends: in the wait on the condition variable, or with an answer. -/
inductive Section (α : Type) where
  | wait (f : Future α)
  | leave (f : Future α) (r : Ret α) (remaining : Option Int) (broadcast : Bool)

namespace Future

variable (f : Future α)

/-- The waiting loop of `cthrpool_future_get` and what follows it. -/
def getLoop : Section α :=
  if !f.done then .wait f
  else
    let f' := { f with refcount := f.refcount - 1 }
    .leave f' (.value f.result) (some f'.refcount) false

def get : Section α := getLoop { f with refcount := f.refcount + 1 }

def readDone : Section α := .leave f (.flag f.done) none false

def readCancelled : Section α := .leave f (.flag f.cancelled) none false

def deref : Section α :=
  let f' := { f with refcount := f.refcount - 1 }
  .leave f' .none (some f'.refcount) false

/-- The completion in `worker_thread_fn`. -/
def workerComplete (result : Option α) : Section α :=
  let f' := { f with result := result, done := true, refcount := f.refcount - 1 }
  .leave f' .none (some f'.refcount) true

def cancel : Section α :=
  let f' := { f with cancelled := true, done := true, refcount := f.refcount - 1 }
  .leave f' .none (some f'.refcount) true

def fulfill (result : Option α) : Section α :=
  if f.done then .leave f (.code .notPermitted) none false
  else
    let f' := { f with result := result, done := true, refcount := f.refcount - 1 }
    .leave f' (.code .success) (some f'.refcount) true

def enter : Op α → Section α
  | .get => f.get
  | .done => f.readDone
  | .cancelled => f.readCancelled
  | .free => f.deref
  | .complete (.worker result) => f.workerComplete result
  | .complete .discard => f.cancel
  | .complete (.fulfill result) => f.fulfill result

end Future

/-! ## The threads that share a future -/

/-- Where a thread is. -/
inductive Pc (α : Type) where
  | idle
  | ready (op : Op α)
  | locked (op : Op α)
  | asleep
  | woken
  | relocked
  | leaving (op : Op α) (r : Ret α) (remaining : Option Int)
  | destroying (op : Op α) (r : Ret α)
  deriving DecidableEq

/-- The caller's reference: not given up, being given up by a thread, and gone. -/
inductive Caller (τ : Type) where
  | owns
  | freeing (t : τ)
  | freed
  deriving DecidableEq

/-- Whether a task is behind the future or a producer is. -/
inductive Origin where
  | submitted
  | detached
  deriving DecidableEq

/-- The future and its threads. The last four fields record the completions that took effect, the last drop, the
destroys and the answers. -/
structure State (τ α : Type) where
  future : Future α
  owner : Option τ
  pc : τ → Pc α
  caller : Caller τ
  produced : Bool
  completions : List (Completion α)
  lastDrop : Option τ
  destroyed : List τ
  answers : List (τ × Op α × Ret α)

def State.start (f : Future α) : State τ α := ⟨f, none, fun _ => .idle, .owns, false, [], none, [], []⟩

/-- `wake` ends a wait without a broadcast. -/
inductive Action (τ α : Type) where
  | call (t : τ) (op : Op α)
  | lock (t : τ)
  | body (t : τ)
  | unlock (t : τ)
  | destroy (t : τ)
  | wake (t : τ)

def Origin.completedBy : Origin → Completion α → Bool
  | submitted, .worker _ => true
  | submitted, .discard => true
  | submitted, .fulfill _ => false
  | detached, .fulfill _ => true
  | detached, _ => false

def State.mayCall [DecidableEq τ] (o : Origin) (st : State τ α) : Op α → Bool
  | .complete c => o.completedBy c && (!st.produced || (o = .detached && st.caller = .owns))
  | _ => st.caller = .owns

def Pc.wakeUp : Pc α → Pc α
  | asleep => woken
  | pc => pc

def completionOf (f f' : Future α) (op : Op α) : List (Completion α) := if !f.done && f'.done then op.completion.toList else []

variable [DecidableEq τ]

namespace State

variable (st : State τ α) (t : τ)

def setPc (pc : Pc α) : State τ α := { st with pc := Function.update st.pc t pc }

def call (o : Origin) (op : Op α) : Option (State τ α) :=
  match st.pc t with
  | .idle =>
    if st.mayCall o op then
      some { st.setPc t (.ready op) with
        caller := if op.isFree then .freeing t else st.caller
        produced := st.produced || op.completion.isSome }
    else none
  | _ => none

def lock : Option (State τ α) :=
  match st.pc t, st.owner with
  | .ready op, none => some { st.setPc t (.locked op) with owner := some t }
  | .woken, none => some { st.setPc t .relocked with owner := some t }
  | _, _ => none

def finish (op : Op α) : Section α → State τ α
  | .wait f => { st.setPc t .asleep with future := f, owner := none }
  | .leave f r remaining broadcast =>
    { st with
      future := f
      pc := Function.update (if broadcast then fun u => (st.pc u).wakeUp else st.pc) t (.leaving op r remaining)
      caller := if op.isFree then .freed else st.caller
      completions := st.completions ++ completionOf st.future f op
      lastDrop := if remaining.isSome then some t else st.lastDrop }

def body : Option (State τ α) :=
  match st.pc t with
  | .locked op => some (st.finish t op (st.future.enter op))
  | .relocked => some (st.finish t .get st.future.getLoop)
  | _ => none

/-- The call returns, or goes on to `future_destroy_if_unreferenced`. -/
def unlock : Option (State τ α) :=
  match st.pc t with
  | .leaving op r remaining =>
    if remaining = some 0 then some { st.setPc t (.destroying op r) with owner := none }
    else some { st.setPc t .idle with owner := none, answers := st.answers ++ [(t, op, r)] }
  | _ => none

def destroy : Option (State τ α) :=
  match st.pc t with
  | .destroying op r =>
    some { st.setPc t .idle with destroyed := st.destroyed ++ [t], answers := st.answers ++ [(t, op, r)] }
  | _ => none

def wake : Option (State τ α) :=
  match st.pc t with
  | .asleep => some (st.setPc t .woken)
  | _ => none

def step (o : Origin) (st : State τ α) : Action τ α → Option (State τ α)
  | .call t op => st.call t o op
  | .lock t => st.lock t
  | .body t => st.body t
  | .unlock t => st.unlock t
  | .destroy t => st.destroy t
  | .wake t => st.wake t

end State

/-! ## Quiet frees -/

def Pc.brings : Pc α → Option (Completion α)
  | ready op | locked op => op.completion
  | idle | asleep | woken | relocked | leaving _ _ _ | destroying _ _ => none

def State.Sole (st : State τ α) (t : τ) : Prop := st.future.done = false ∧ ∀ u, (st.pc u).brings ≠ none → u = t

/-- When the caller frees the future, every other call on it has taken the mutex, but for the completion to come. The
header asks this of no `cthrpool_future_get`: it says that a get holds a reference for the length of its call, which
the code takes behind the lock. -/
def State.Quiet (st : State τ α) : Prop := ∀ t op, st.pc t = .ready op → (∃ c, op = .complete c) ∧ st.Sole t

def State.Permitted (st : State τ α) : Action τ α → Prop
  | .call _ .free => st.Quiet
  | _ => True

def State.Careful (o : Origin) (st : State τ α) (a : Action τ α) (st' : State τ α) : Prop :=
  st.Permitted a ∧ st.step o a = some st'

end Ccollections.Cthreadpool
