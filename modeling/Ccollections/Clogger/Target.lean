import Mathlib.Data.List.DropRight
import Ccollections.Common.Basic

/-!
# The output of a log target

The file, pipe or socket a target writes, what the target owes it after a failed write, and the rotation. Every byte
carries the unit it belongs to: a record, a note of the library or a loss marker. Formats are logfmt and JSON on a
stream sink; syslog and sinks that take one message a write are left out, and so are the names and the listing of rotated
files. What the kernel, the clock and the directory answer comes from outside.
-/

namespace Ccollections.Clogger

def nl : UInt8 := 0x0A

def tab : UInt8 := 0x09

/-! ## Units -/

/-- A record of a thread, the backtrace line behind a record that has no buffer, a note of the library, a loss marker. -/
inductive Name where
  | record (thread seq : Nat)
  | trailer (thread seq : Nat)
  | note (n : Nat)
  | marker (n : Nat)
deriving DecidableEq

def Name.isMarker : Name → Bool
  | .marker _ => true
  | _ => false

/-- The place of a byte in its unit: how many bytes are in front of it and how many behind it. -/
structure Part where
  unit : Name
  index : Nat
  rest : Nat
deriving DecidableEq

/-- A byte of an output. A newline that closes a line, and what was there before the target, belongs to no unit. -/
structure Cell where
  byte : UInt8
  part : Option Part
deriving DecidableEq

def cellsFrom (unit : Name) : Nat → List UInt8 → List Cell
  | _, [] => []
  | i, b :: bs => ⟨b, some ⟨unit, i, bs.length⟩⟩ :: cellsFrom unit (i + 1) bs

def cells (unit : Name) (text : List UInt8) : List Cell := cellsFrom unit 0 text

def closer : Cell := ⟨nl, none⟩

/-- A rendered record: a line, and in logfmt a line with a tab in front for each frame of its backtrace. -/
structure Record where
  head : List UInt8
  frames : List (List UInt8)
  nonempty : head ≠ []
  noTab : head.head? ≠ some tab
  noNewline : nl ∉ head
  framesNoNewline : ∀ f ∈ frames, nl ∉ f

def Record.text (r : Record) : List UInt8 := r.head ++ nl :: r.frames.flatMap fun f => tab :: f ++ [nl]

/-! ## What comes from outside -/

/-- The `errno` a write stops with. -/
inductive WriteError where
  | none
  | eintr
  | eagain
  | enospc
  | edquot
  | efbig
  | enobufs
  | enomem
  | other (code : Nat)
deriving DecidableEq

namespace WriteError

def code : WriteError → Nat
  | .none => 0
  | .eintr => 4
  | .eagain => 11
  | .enospc => 28
  | .edquot => 122
  | .efbig => 27
  | .enobufs => 105
  | .enomem => 12
  | .other code => code

def isTransient : WriteError → Bool
  | .other _ => false
  | _ => true

def isNoRoom : WriteError → Bool
  | .enospc => true
  | .edquot => true
  | .efbig => true
  | _ => false

end WriteError

/-- A write takes at most so many bytes, and stops with an error if that is not all. -/
structure WriteAnswer where
  taken : Nat
  err : WriteError

/-- Whether the rotation interval is over, and whether the backoff after a failed rotation is. -/
structure ClockAnswer where
  elapsed : Bool
  retryAllowed : Bool

/-- What `_clog_close_retired_line` comes to. -/
inductive RetiredLine where
  | newline
  | gone
  | cut
  | refused

/-- What `_rotate` meets: the new descriptor, the entries its scans note, and whether each of its file operations works.
-/
structure RotateAnswer where
  newFd : Nat
  listed : List (List UInt8)
  ok : Bool
  pruned : List (List UInt8)
  retired : RetiredLine
  nameTooLong : Bool

structure Env where
  write : Nat → WriteAnswer
  clock : Nat → ClockAnswer
  rotate : Nat → RotateAnswer

inductive ClogFormat where
  | logfmt
  | json
deriving DecidableEq

/-- The settings of a target. No `maxFileSize` is no rotation by size. -/
structure Config where
  format : ClogFormat
  rotationEnabled : Bool
  maxFileSize : Option Nat
  timeRotationEnabled : Bool
  flushBufferSize : Nat

/-! ## The target -/

/-- The split bits of `async_partial_record`. -/
inductive Split where
  | none
  | midLine
  | atLine
deriving DecidableEq

/-- The part of `clog_shared_t` that says what stands where. `owedRepair` is `CLOG_OWED_REPAIR` of
`async_partial_record`, `files` has the retired files, the latest first. The fields from `handed` on only watch. -/
structure Output where
  live : List Cell
  files : List (List Cell)
  split : Split
  owedRepair : Bool
  oweNewline : Bool
  owedLosses : Nat
  owedRecords : Nat
  asyncBuf : List Cell
  handed : List Name
  owed : List Name
  marked : List Name
  markedRecords : Nat
  markers : Nat
deriving DecidableEq

/-- `clog_shared_t`, the part that writes share, and how many questions went outside. -/
structure Target extends Output where
  fd : Nat
  bytesWritten : Nat
  owedErr : WriteError
  owedBytes : Nat
  owedDetail : List UInt8
  retainErr : WriteError
  tick : Nat

def Target.opened (before : List UInt8) : Target where
  live := before.map fun b => ⟨b, none⟩
  files := []
  split := .none
  owedRepair := false
  oweNewline := false
  owedLosses := 0
  owedRecords := 0
  asyncBuf := []
  handed := []
  owed := []
  marked := []
  markedRecords := 0
  markers := 0
  fd := 0
  bytesWritten := before.length
  owedErr := .none
  owedBytes := 0
  owedDetail := []
  retainErr := .none
  tick := 0

/-! ## Texts -/

/-- `%zu` and `%d`. -/
def zu (n : Nat) : List UInt8 := (Nat.toDigits 10 n).map fun c => c.toNat.toUInt8

/-- A text `snprintf` writes into a buffer of so many bytes. -/
def fit (cap : Nat) (text : List UInt8) : List UInt8 := text.take (cap - 1)

inductive ClogLevel where
  | trace
  | debug
  | info
  | warn
  | error
  | alert
  | fatal

/-- `_LEVEL_STR`. -/
def ClogLevel.str : ClogLevel → List UInt8
  | .trace => ascii "TRACE"
  | .debug => ascii "DEBUG"
  | .info => ascii "INFO"
  | .warn => ascii "WARN"
  | .error => ascii "ERROR"
  | .alert => ascii "ALERT"
  | .fatal => ascii "FATAL"

def clogNoteCap : Nat := 320

def clogLossHead : List UInt8 := ascii "log record truncated: "

/-- `_clog_note_render`, without its lead-in. -/
def clogNoteRender (format : ClogFormat) (level : ClogLevel) (head detail : List UInt8) : List UInt8 :=
  match format with
  | .json => ascii "\x7b\"level\":\"" ++ level.str ++ ascii "\",\"msg\":\"" ++ head ++ detail ++ ascii "\"\x7d\n"
  | .logfmt => ascii "level=" ++ level.str ++ ascii " msg=\"" ++ head ++ detail ++ ascii "\"\n"

/-- The end of `_clog_note_render`: a note that does not fit is cut, and ends with a newline all the same. -/
def capNote (cap : Nat) (note : List UInt8) : List UInt8 :=
  if note.length ≥ cap then note.take (cap - 2) ++ [nl] else note

namespace Target

/-- The marker `_clog_pay_owed` writes, behind the newline it may write first. -/
def owedText (c : Config) (t : Target) : List UInt8 :=
  let detail :=
    if t.owedLosses = 1 then t.owedDetail
    else if t.owedErr ≠ .none then
      fit 160 (zu t.owedLosses ++ ascii " earlier losses (records=" ++ zu t.owedRecords ++ ascii " bytes=" ++
        zu t.owedBytes ++ ascii "): write error " ++ zu t.owedErr.code)
    else
      fit 160 (zu t.owedLosses ++ ascii " earlier losses (records=" ++ zu t.owedRecords ++ ascii " bytes=" ++
        zu t.owedBytes ++ ascii ")")
  capNote (if t.oweNewline then clogNoteCap - 1 else clogNoteCap) (clogNoteRender c.format .error clogLossHead detail)

/-! ## Writing -/

/-- Bytes the output took, charged to `bytes_written`. -/
def took (c : Config) (t : Target) (data : List Cell) : Target :=
  { t with
    live := t.live ++ data
    bytesWritten := if c.rotationEnabled then t.bytesWritten + data.length else t.bytesWritten
    tick := t.tick + 1 }

/-- The `errno` behind a write of so many bytes. -/
def writeErrno (e : Env) (t : Target) (n len : Nat) : WriteError :=
  if n = len then WriteError.none else (e.write t.tick).err

/-- `_write_all`, with the charge every caller makes. -/
def writeAll (c : Config) (e : Env) (t : Target) (data : List Cell) : Target × Nat × WriteError :=
  let n := min (e.write t.tick).taken data.length
  (t.took c (data.take n), n, t.writeErrno e n data.length)

end Target

def Output.lead (o : Output) : List Cell := if o.oweNewline then [closer] else []

def Output.repairNote (o : Output) (text : List UInt8) : List Cell := o.lead ++ cells (.marker o.markers) text

def Output.owesLine (o : Output) : Bool := o.owedRepair && o.oweNewline

def openAfter (data : List Cell) (n : Nat) : Bool := (data.take n).getLast?.any fun last => last.byte ≠ nl

namespace Target

def repairText (c : Config) (t : Target) : List UInt8 := if t.owedLosses = 0 then [] else t.owedText c

def repaid (t : Target) (whole : Bool) : Target :=
  { t with
    oweNewline := false
    owedLosses := 0
    owedRecords := 0
    owedBytes := 0
    owedErr := WriteError.none
    owedRepair := false
    owed := []
    marked := if whole then t.owed ++ t.marked else t.marked
    markedRecords := if whole then t.markedRecords + t.owedRecords else t.markedRecords }

def repaidPartly (t : Target) (note : List Cell) (n : Nat) (err : WriteError) : Target :=
  { t with
    oweNewline := if n > 0 then openAfter note n else t.oweNewline
    owedErr := if err ≠ WriteError.none then err else t.owedErr }

def afterRepair (t : Target) (note : List Cell) (n : Nat) (err : WriteError) : Target × Bool :=
  if n = note.length ∨ !err.isTransient then (t.repaid (n = note.length), true)
  else (t.repaidPartly note n err, !(t.repaidPartly note n err).oweNewline)

/-- The write of `_clog_pay_owed`. -/
def offerRepair (c : Config) (e : Env) (t : Target) (note : List Cell) : Target × Bool :=
  match { t with markers := t.markers + 1 }.writeAll c e note with
  | (t, n, err) => t.afterRepair note n err

/-- `_clog_pay_owed`. It answers whether the output stands at the start of a line. -/
def payOwed (c : Config) (e : Env) (t : Target) : Target × Bool :=
  if !t.owedRepair then (t, true)
  else if t.split ≠ .none then (t, !t.oweNewline)
  else if t.owedLosses = 0 ∧ !t.oweNewline then ({ t with owedRepair := false }, true)
  else t.offerRepair c e (t.repairNote (t.repairText c))

def lose (t : Target) (openLine : Bool) (records bytes : Nat) (err : WriteError) (detail : List UInt8) (lost : List Name) :
    Target :=
  { t with
    oweNewline := t.oweNewline || openLine
    owedDetail := if t.owedLosses = 0 then fit 128 detail else t.owedDetail
    owedLosses := t.owedLosses + 1
    owedRecords := t.owedRecords + records
    owedBytes := t.owedBytes + bytes
    owedErr := if err ≠ WriteError.none then err else t.owedErr
    owedRepair := true
    owed := lost ++ t.owed }

def reportLoss (c : Config) (e : Env) (t : Target) (openLine : Bool) (records bytes : Nat) (err : WriteError)
    (detail : List UInt8) (lost : List Name) : Target :=
  ((t.lose openLine records bytes err detail lost).payOwed c e).1

def handOver (t : Target) (unit : Name) : Target := { t with handed := unit :: t.handed }

def owedGate (c : Config) (e : Env) (t : Target) (len : Nat) (unit : Name) : Target × Bool :=
  match t.payOwed c e with
  | (t, true) => (t, true)
  | (t, false) =>
    ((t.handOver unit).reportLoss c e false 1 len WriteError.none
      (ascii "a record was not written while a line stayed open") [unit], false)

def ask (c : Config) (e : Env) (t : Target) (len : Nat) (unit : Name) : Target × Bool :=
  if t.owedRepair then t.owedGate c e len unit else (t, true)

/-- `_clog_note_truncated_record`, for a unit that was not taken whole. -/
def noteTruncated (c : Config) (e : Env) (t : Target) (unit : Name) (text : List UInt8) (n : Nat) (err : WriteError) :
    Target :=
  if n < text.length then
    t.reportLoss c e (openAfter (cells unit text) n) 1 (text.length - n) err
      (fit 96 (zu n ++ ascii " of " ++ zu text.length ++ ascii " bytes written")) [unit]
  else t

def writeRecord (c : Config) (e : Env) (t : Target) (unit : Name) (text : List UInt8) : Target :=
  match t.ask c e text.length unit with
  | (t, false) => t
  | (t, true) =>
    match (t.handOver unit).writeAll c e (cells unit text) with
    | (t, n, err) => t.noteTruncated c e unit text n err

def noteRecord (c : Config) (e : Env) (t : Target) (level : ClogLevel) (head detail : List UInt8) : Target :=
  t.writeRecord c e (.note t.handed.length) (capNote clogNoteCap (clogNoteRender c.format level head detail))

end Target

/-- The line `_clog_write_unrepresentable_record` writes. -/
def unrepresentableText (format : ClogFormat) (level : ClogLevel) (withBacktrace : Bool) : List UInt8 :=
  let note := ascii "log record dropped: could not be represented within the buffer size limit"
  match format with
  | .json =>
    if withBacktrace then
      ascii "\x7b\"level\":\"" ++ level.str ++ ascii "\",\"msg\":\"" ++ note ++ ascii "\",\"bt_error\":\"unavailable\"\x7d\n"
    else ascii "\x7b\"level\":\"" ++ level.str ++ ascii "\",\"msg\":\"" ++ note ++ ascii "\"\x7d\n"
  | .logfmt => ascii "level=" ++ level.str ++ ascii " msg=\"" ++ note ++ ascii "\"\n"

def btLineErrorMarker : List UInt8 := ascii "\t#error backtrace unavailable\n"

/-- `_clog_write_unrepresentable_record`. -/
def Target.writeUnrepresentable (c : Config) (e : Env) (t : Target) (thread seq : Nat) (level : ClogLevel)
    (withBacktrace : Bool) : Target :=
  let t := t.writeRecord c e (.record thread seq) (unrepresentableText c.format level withBacktrace)
  match c.format with
  | .json => t
  | .logfmt => if withBacktrace then t.writeRecord c e (.trailer thread seq) btLineErrorMarker else t

/-! ## Rotation -/

/-- The name of an entry as `_clog_note_ignored_entry` shows it. -/
def safeName (name : List UInt8) : List UInt8 :=
  let shown := (name.take 96).map fun b => if b > 0x20 && b < 0x7F && b ≠ 0x22 && b ≠ 0x5C then b else 0x3F
  if name.length > 96 then shown ++ ascii "..." else shown

/-- `_clog_close_retired_line`: the file, the bytes cut off, and whether its last line is closed. -/
def closeRetiredLine (retired : RetiredLine) (old : List Cell) : List Cell × Nat × Bool :=
  match retired with
  | .newline => (old ++ [closer], 0, true)
  | .gone => (old, 0, true)
  | .cut =>
    let whole := old.rdropWhile fun cell => cell.byte ≠ nl
    (whole, old.length - whole.length, true)
  | .refused => (old, 0, false)

namespace Target

/-- The notes `_clog_note_ignored_entry` writes; its rate limit decides which entries get one. -/
def noteIgnored (c : Config) (e : Env) (t : Target) (names : List (List UInt8)) : Target :=
  names.foldl (fun t name => t.noteRecord c e .warn
    (ascii "log rotation: ignored an entry that is not a rotated file of this log: ") (safeName name)) t

def newLive (t : Target) (fd : Nat) : Target :=
  { t with fd := fd, files := t.live :: t.files, live := [], bytesWritten := 0, oweNewline := false }

/-- What the old file is left as, which `newLive` put in front of the others. -/
def closeRetired (t : Target) (lineOpen : Bool) (retired : RetiredLine) : Target :=
  match t.files with
  | [] => t
  | old :: files =>
    let (old, cut, closed) := if lineOpen then closeRetiredLine retired old else (old, 0, true)
    let oweNewline := t.oweNewline || !closed
    { t with
      files := old :: files
      owedBytes := t.owedBytes + cut
      oweNewline := oweNewline
      owedRepair := t.owedRepair && (oweNewline || t.owedLosses > 0) }

/-- The second half of `_rotate`, once the new live file holds the live name. -/
def retire (c : Config) (e : Env) (t : Target) (a : RotateAnswer) : Target :=
  let t := (((t.newLive a.newFd).noteIgnored c e a.pruned).closeRetired t.oweNewline a.retired)
  if a.nameTooLong then
    t.noteRecord c e .warn (ascii "log rotation: a rotated file stays uncompressed: ")
      (ascii "its compressed name exceeds the name length limit of the directory")
  else t

def asked (t : Target) : Target := { t with tick := t.tick + 1 }

def rotate (c : Config) (e : Env) (t : Target) : Target :=
  let a := e.rotate t.tick
  let t := t.asked.noteIgnored c e a.listed
  if a.ok then t.retire c e a else t

def timeRotateIfDue (c : Config) (e : Env) (t : Target) : Target :=
  if !(c.rotationEnabled && c.timeRotationEnabled) then t
  else if t.split ≠ .none then t
  else if (e.clock t.tick).elapsed && (e.clock t.tick).retryAllowed then t.asked.rotate c e
  else t.asked

/-- The file reached `max_file_size`. -/
def sizeReached (c : Config) (t : Target) : Bool := c.maxFileSize.any fun size => t.bytesWritten ≥ size

def sizeRotateIfDue (c : Config) (e : Env) (t : Target) : Target :=
  if !(c.rotationEnabled && t.sizeReached c) then t
  else if t.split ≠ .none then t
  else if (e.clock t.tick).retryAllowed then t.asked.rotate c e
  else t.asked

/-- `_clog_rotation_due`, which looks at the clock. -/
def rotationDue (c : Config) (e : Env) (t : Target) : Bool :=
  c.rotationEnabled && (e.clock t.tick).retryAllowed &&
    (t.sizeReached c || c.timeRotationEnabled && (e.clock t.tick).elapsed)

end Target

end Ccollections.Clogger
