import Ccollections.Clogger.Target
import Mathlib.Logic.Relation

/-!
# The batch of an asynchronous target

The writer thread's flush, what becomes of a record a short write left in two halves, and the sections under the target's
mutex that reach the output.
-/

namespace Ccollections.Clogger

def continues (data : List Cell) : Bool := data.head?.any fun c => c.byte = tab

def untilRecordEnd : List Cell → Nat
  | [] => 0
  | c :: data => if c.byte = nl ∧ !continues data then 1 else untilRecordEnd data + 1

def splitAfter (data : List Cell) (written : Nat) : Split :=
  if openAfter data written then .midLine
  else if continues (data.drop written) then .atLine
  else .none

/-- The lines that start a record, as `_clog_note_dropped_batch` counts them. -/
def recordLines : Bool → List Cell → Nat
  | _, [] => 0
  | lineStart, c :: data => (if lineStart ∧ c.byte ≠ tab then 1 else 0) + recordLines (c.byte = nl) data

def finished (data : List Cell) : List Name :=
  data.filterMap fun c => c.part.bind fun p => if p.rest = 0 ∧ !p.unit.isMarker then some p.unit else none

namespace Target

def backlogPiece (c : Config) (e : Env) (t : Target) : Target × Nat :=
  let n := t.asyncBuf.length
  match c.maxFileSize with
  | none => (t, n)
  | some size =>
    if t.bytesWritten + n ≤ size then (t, n)
    else if t.bytesWritten < size then
      let start := size - t.bytesWritten - 1
      (t, start + untilRecordEnd (t.asyncBuf.drop start))
    else (t.asked, if (e.clock t.tick).retryAllowed then untilRecordEnd t.asyncBuf else n)

def nextPiece (c : Config) (e : Env) (t : Target) : Target × Nat :=
  if c.rotationEnabled && t.asyncBuf.length > c.flushBufferSize then t.backlogPiece c e else (t, t.asyncBuf.length)

/-- One piece of the batch is offered to the output; it answers whether all of the piece was taken. -/
def writePiece (c : Config) (e : Env) (t : Target) : Target × Split × WriteError × Bool :=
  match t.nextPiece c e with
  | (t, piece) =>
    match t.writeAll c e (t.asyncBuf.take piece) with
    | (t', n, err) =>
      ({ t' with asyncBuf := t.asyncBuf.drop n },
        if n > 0 then splitAfter t.asyncBuf n else t.split, err, n = piece)

/-- The pieces of `_writer_flush_buffer`. -/
def writePieces (c : Config) (e : Env) : Nat → Target → Target × Split × WriteError
  | 0, t => (t, t.split, WriteError.none)
  | fuel + 1, t =>
    match t.writePiece c e with
    | (t, split, err, whole) =>
      if !whole || t.asyncBuf.isEmpty then (t, split, err)
      else writePieces c e fuel ({ t with split := Split.none }.sizeRotateIfDue c e)

/-- `_clog_note_dropped_continuation` and the rest of `_clog_repair_split_record`. -/
def repairSplitRecord (c : Config) (e : Env) (t : Target) : Target :=
  let dropped := untilRecordEnd t.asyncBuf
  { t with asyncBuf := t.asyncBuf.drop dropped, split := Split.none }.reportLoss c e (t.split = Split.midLine) 1 dropped
    t.retainErr (fit 96 (zu dropped ++ ascii " undelivered bytes dropped")) (finished (t.asyncBuf.take dropped))

/-- `_clog_note_dropped_batch`, and the batch is gone. -/
def noteDroppedBatch (c : Config) (e : Env) (t : Target) (split : Split) (why : List UInt8) (err : WriteError) : Target :=
  let records := (if split = .atLine then 1 else 0) + recordLines true t.asyncBuf
  { t with asyncBuf := [], split := Split.none }.reportLoss c e (split = Split.midLine) records t.asyncBuf.length err
    (fit 128 (ascii "undelivered batch dropped (records=" ++ zu records ++ ascii " bytes=" ++ zu t.asyncBuf.length ++
      ascii "): " ++ why)) (finished t.asyncBuf)

def flushStart (c : Config) (e : Env) (t : Target) : Target × Bool :=
  let t := t.timeRotateIfDue c e
  if t.owedRepair then t.payOwed c e else (t, true)

def flushRest (c : Config) (e : Env) (t : Target) (split : Split) (err : WriteError) : Target × Bool :=
  if err.isTransient then
    let t := { t with split := split, retainErr := err }
    if split ≠ .none ∧ err.isNoRoom then
      (if t.rotationDue c e then (t.asked.repairSplitRecord c e).timeRotateIfDue c e else t.asked, true)
    else (t, true)
  else (t.noteDroppedBatch c e split (fit 48 (ascii "write error " ++ zu err.code)) err, false)

def flushAttempt (c : Config) (e : Env) (t : Target) : Target × Bool :=
  match t.flushStart c e with
  | (t, false) => (t, true)
  | (t, true) =>
    match t.writePieces c e t.asyncBuf.length with
    | (t, split, err) => if t.asyncBuf.isEmpty then (t, false) else t.flushRest c e split err

/-- One pass of `_writer_flush_buffer`. It answers whether a rotation inside gives the kept bytes one more try. -/
def flushPass (c : Config) (e : Env) (t : Target) : Target × Bool :=
  if t.asyncBuf.isEmpty then (if t.owedRepair then (t.payOwed c e).1 else t, false)
  else
    match t.flushAttempt c e with
    | (t', retained) =>
      let t'' := (if retained then t' else { t' with asyncBuf := [], split := Split.none }).sizeRotateIfDue c e
      (t'', retained && t''.fd ≠ t.fd)

def writerFlushBuffer (c : Config) (e : Env) (t : Target) : Target :=
  match t.flushPass c e with
  | (t, again) => if again then (t.flushPass c e).1 else t

def giveUpSplit (c : Config) (e : Env) (t : Target) : Target :=
  if t.split ≠ .none then t.repairSplitRecord c e else t

def settleAfterFlush (c : Config) (e : Env) (t : Target) : Target :=
  let t := t.giveUpSplit c e
  if t.owedRepair then (t.payOwed c e).1 else t

def flushAndSettle (c : Config) (e : Env) (t : Target) : Target := (t.writerFlushBuffer c e).settleAfterFlush c e

def dropUndelivered (c : Config) (e : Env) (t : Target) (why : List UInt8) : Target :=
  if t.asyncBuf.isEmpty then t else t.noteDroppedBatch c e .none why WriteError.none

def join (t : Target) (unit : Name) (r : Record) : Target :=
  { t.handOver unit with asyncBuf := t.asyncBuf ++ cells unit r.text }

end Target

/-! ## Sections under the mutex -/

/-- What `_clog_build_record` comes to. -/
inductive Build where
  | record (r : Record)
  | placeholder (r : Record)
  | failed

/-- A call of a thread. -/
structure Call where
  thread : Nat
  seq : Nat
  level : ClogLevel
  withBacktrace : Bool
  messageLength : Nat

def Call.name (k : Call) : Name := .record k.thread k.seq

namespace Target

def emit (c : Config) (e : Env) (t : Target) (k : Call) (built : Build) : Target :=
  match built with
  | .record r => t.writeRecord c e k.name r.text
  | .placeholder r => t.writeRecord c e k.name r.text
  | .failed => t.writeUnrepresentable c e k.thread k.seq k.level k.withBacktrace

/-- The target `_clog_write_sync` settles before it writes. -/
def settled (c : Config) (e : Env) (t : Target) : Target :=
  if t.split ≠ .none ∨ t.owedRepair then t.flushAndSettle c e else t

def writeSync (c : Config) (e : Env) (t : Target) (k : Call) (built : Build) : Target :=
  (((t.settled c e).timeRotateIfDue c e).emit c e k built).sizeRotateIfDue c e

def retryJob (c : Config) (e : Env) (t : Target) (k : Call) (built : Build) (oom : Bool) : Target :=
  let t := t.flushAndSettle c e
  match built with
  | .record r => t.join k.name r
  | .placeholder r =>
    if t.asyncBuf.isEmpty || oom then t.join k.name r
    else
      (t.handOver k.name).reportLoss c e false 1 k.messageLength WriteError.none
        (fit 112 (ascii "a record did not fit behind the undelivered batch (" ++ zu k.messageLength ++
          ascii " byte message)")) [k.name]
  | .failed =>
    (t.writeUnrepresentable c e k.thread k.seq k.level k.withBacktrace).sizeRotateIfDue c e

def needsRetry (t : Target) : Build → Bool
  | .record _ => false
  | .placeholder _ => !t.asyncBuf.isEmpty
  | .failed => true

def buildJob (c : Config) (e : Env) (t : Target) (k : Call) (first second : Build) (oom : Bool) : Target :=
  if t.needsRetry first then t.retryJob c e k second oom
  else
    match first with
    | .record r => t.join k.name r
    | .placeholder r => t.join k.name r
    | .failed => t

/-- A job of `_clog_writer_thread_main`. -/
def job (c : Config) (e : Env) (t : Target) (k : Call) (first second : Build) (oom : Bool) : Target :=
  let t := t.buildJob c e k first second oom
  if t.asyncBuf.length ≥ c.flushBufferSize then t.writerFlushBuffer c e else t

/-- The target `_clog_write_async` flushes before it writes a record whose send was refused. -/
def flushedFirst (c : Config) (e : Env) (t : Target) : Target :=
  if t.asyncBuf.isEmpty then t else t.flushAndSettle c e

/-- The direct write of `_clog_write_async` behind a refused send. -/
def emitRefused (c : Config) (e : Env) (t : Target) (k : Call) (built : Build) : Target :=
  ((t.timeRotateIfDue c e).emit c e k built).sizeRotateIfDue c e

/-- The end of `_clog_write_async` behind a refused send. -/
def writeRefused (c : Config) (e : Env) (t : Target) (k : Call) (joined built : Build) : Target :=
  let t := t.flushedFirst c e
  match joined with
  | .record r => if t.asyncBuf.isEmpty then t.emitRefused c e k built else t.join k.name r
  | _ => t.emitRefused c e k built

def closeWriter (c : Config) (e : Env) (t : Target) : Target :=
  (t.flushAndSettle c e).dropUndelivered c e (ascii "the logger closed")

/-- `_clog_settle_batch_locked`. -/
def settleBatch (c : Config) (e : Env) (t : Target) : Target :=
  if t.asyncBuf.isEmpty then t else (t.flushAndSettle c e).dropUndelivered c e (ascii "the process stopped")

end Target

/-- The sections. -/
inductive Section where
  | writeSync (k : Call) (built : Build)
  | job (k : Call) (first second : Build) (oom : Bool)
  | writeRefused (k : Call) (joined built : Build)
  | flush
  | closeWriter
  | settleBatch
  | payOwed
  | note (level : ClogLevel) (head detail : List UInt8)

namespace Target

def isNew (t : Target) (k : Call) : Bool :=
  !t.handed.contains (.record k.thread k.seq) && !t.handed.contains (.trailer k.thread k.seq)

def ready (t : Target) : Section → Bool
  | .writeSync k _ => t.isNew k
  | .job k _ _ _ => t.isNew k
  | .writeRefused k _ _ => t.isNew k
  | .note _ _ _ => t.split = .none
  | _ => true

def run (c : Config) (e : Env) (t : Target) : Section → Target
  | .writeSync k built => t.writeSync c e k built
  | .job k first second oom => t.job c e k first second oom
  | .writeRefused k joined built => t.writeRefused c e k joined built
  | .flush => t.writerFlushBuffer c e
  | .closeWriter => t.closeWriter c e
  | .settleBatch => t.settleBatch c e
  | .payOwed => (t.payOwed c e).1
  | .note level head detail => t.noteRecord c e level head detail

def step (c : Config) (e : Env) (t : Target) (s : Section) : Option Target :=
  if t.ready s then some (t.run c e s) else none

/-! ## Flushes that ask -/

/-- The pieces a flush writes while no newline is owed: no rotation between two of them leaves one. -/
def piecesAsked (c : Config) (e : Env) : Nat → Target → Bool
  | 0, _ => true
  | fuel + 1, t =>
    match t.writePiece c e with
    | (t, _, _, whole) =>
      if !whole || t.asyncBuf.isEmpty then true
      else
        let t := { t with split := Split.none }.sizeRotateIfDue c e
        !t.owesLine && piecesAsked c e fuel t

def passAsked (c : Config) (e : Env) (t : Target) : Bool :=
  match t.flushStart c e with
  | (t', ok) => t.asyncBuf.isEmpty || !ok || t'.piecesAsked c e t'.asyncBuf.length

def flushAsked (c : Config) (e : Env) (t : Target) : Bool :=
  t.passAsked c e && (!(t.flushPass c e).2 || (t.flushPass c e).1.passAsked c e)

def runAsked (c : Config) (e : Env) (t : Target) : Section → Bool
  | .writeSync _ _ => t.split = .none && !t.owedRepair || t.flushAsked c e
  | .job k first second oom =>
    (!t.needsRetry first || t.flushAsked c e) &&
      ((t.buildJob c e k first second oom).asyncBuf.length < c.flushBufferSize ||
        (t.buildJob c e k first second oom).flushAsked c e)
  | .writeRefused _ _ _ => t.asyncBuf.isEmpty || t.flushAsked c e
  | .flush => t.flushAsked c e
  | .closeWriter => t.flushAsked c e
  | .settleBatch => t.asyncBuf.isEmpty || t.flushAsked c e
  | .payOwed => true
  | .note _ _ _ => true

def stepAsked (c : Config) (e : Env) (t : Target) (s : Section) : Option Target :=
  if t.runAsked c e s then t.step c e s else none

end Target

/-!
# What can happen to an output

The moves of an output, with what each of them needs. Every section of the target is a row of such moves, so what all of
them keep is kept by the code. A strict row has no piece of the batch written while the repair owes a newline.
-/

def Closed (text : List UInt8) : Prop := text.getLast? = some nl

instance (text : List UInt8) : Decidable (Closed text) := inferInstanceAs (Decidable (_ = _))

def Name.ofCall : Name → Bool
  | .record _ _ => true
  | .trailer _ _ => true
  | _ => false

namespace Output

def New (w : Name → Prop) (o : Output) (u : Name) : Prop :=
  u = .note o.handed.length ∨ u.ofCall = true ∧ w u ∧ u ∉ o.handed

def lose (o : Output) (openLine : Bool) (records : Nat) (lost : List Name) : Output :=
  { o with
    oweNewline := o.oweNewline || openLine
    owedLosses := o.owedLosses + 1
    owedRecords := o.owedRecords + records
    owedRepair := true
    owed := lost ++ o.owed }

def handOver (o : Output) (u : Name) : Output := { o with handed := u :: o.handed }

end Output

inductive Move (p : Prop) (w : Name → Prop) : Output → Output → Prop
  | cleared {o} (hl : o.owedLosses = 0) (hn : o.oweNewline = false) : Move p w o { o with owedRepair := false }
  | paid {o text} (hs : o.split = .none) (ho : o.owedRepair = true) (ht : text = [] ∨ Closed text) :
      Move p w o
        { o with
          live := o.live ++ o.repairNote text
          markers := o.markers + 1
          oweNewline := false
          owedLosses := 0
          owedRecords := 0
          owedRepair := false
          owed := []
          marked := o.owed ++ o.marked
          markedRecords := o.markedRecords + o.owedRecords }
  | paidPartly {o text n} (hs : o.split = .none) (ho : o.owedRepair = true) (ht : text = [] ∨ Closed text)
      (hn : n < (o.repairNote text).length) :
      Move p w o
        { o with
          live := o.live ++ (o.repairNote text).take n
          markers := o.markers + 1
          oweNewline := if n > 0 then openAfter (o.repairNote text) n else o.oweNewline }
  | unit {o u text} (hs : o.split = .none) (hq : o.owesLine = false) (hu : o.New w u) (ht : Closed text) :
      Move p w o { o.handOver u with live := o.live ++ cells u text }
  | unitCut {o u text n} (hs : o.split = .none) (hq : o.owesLine = false) (hu : o.New w u) (ht : Closed text)
      (hn : n < text.length) :
      Move p w o
        ({ o.handOver u with live := o.live ++ (cells u text).take n }.lose (openAfter (cells u text) n) 1 [u])
  | refused {o u} (hs : o.split = .none) (hu : o.New w u) : Move p w o ((o.handOver u).lose false 1 [u])
  | newLive {o} (hs : o.split = .none) :
      Move p w o { o with files := o.live :: o.files, live := [], oweNewline := false }
  | retired {o old files} (lineOpen : Bool) (retired : RetiredLine) (hf : o.files = old :: files) :
      Move p w o
        { o with
          files := (if lineOpen then (closeRetiredLine retired old).1 else old) :: files
          oweNewline := o.oweNewline || (lineOpen && !(closeRetiredLine retired old).2.2)
          owedRepair := o.owedRepair &&
            ((o.oweNewline || (lineOpen && !(closeRetiredLine retired old).2.2)) || o.owedLosses > 0) }
  | piece {o n} (hq : p → o.owesLine = false) (hn : 0 < n) (hle : n ≤ o.asyncBuf.length) :
      Move p w o
        { o with
          live := o.live ++ o.asyncBuf.take n
          asyncBuf := o.asyncBuf.drop n
          split := if n = o.asyncBuf.length then Split.none else splitAfter o.asyncBuf n }
  | repaired {o} (hs : o.split ≠ .none) :
      Move p w o
        ({ o with asyncBuf := o.asyncBuf.drop (untilRecordEnd o.asyncBuf), split := .none }.lose (o.split = Split.midLine) 1
          (finished (o.asyncBuf.take (untilRecordEnd o.asyncBuf))))
  | dropped {o} (hs : o.split = .none) :
      Move p w o ({ o with asyncBuf := [] }.lose false (recordLines true o.asyncBuf) (finished o.asyncBuf))
  | joined {o u} (r : Record) (hu : o.New w u) (hs : o.asyncBuf = [] → o.split = .none) :
      Move p w o { o.handOver u with asyncBuf := o.asyncBuf ++ cells u r.text }

def Moves (p : Prop) (w : Name → Prop) : Output → Output → Prop := Relation.ReflTransGen (Move p w)

namespace Moves

variable {p : Prop} {w w' : Name → Prop} {o o' o'' : Output}

theorem refl : Moves p w o o := Relation.ReflTransGen.refl

theorem single (h : Move p w o o') : Moves p w o o' := Relation.ReflTransGen.single h

theorem trans (h : Moves p w o o') (h' : Moves p w o' o'') : Moves p w o o'' :=
  Relation.ReflTransGen.trans h h'

theorem invariant {P : Output → Prop} (hP : ∀ a b, P a → Move p w a b → P b) (h : Moves p w o o')
    (ho : P o) : P o' := by
  induction h with
  | refl => exact ho
  | tail _ hm ih => exact hP _ _ ih hm

end Moves

end Ccollections.Clogger
