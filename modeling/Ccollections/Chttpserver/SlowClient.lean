import Mathlib.Tactic.Common

/-!
# The limits on slow clients

Signed values are integers. Those of the rate floor's `left` are checked: one that is not a `long long` has overflowed,
and what it was for has no result. The kernel's answers are a parameter.
-/

namespace Ccollections.Chttpserver.SlowClient

def uintMax : Nat := 4294967295

def uint64Max : Nat := 18446744073709551615

def llongMax : Nat := 9223372036854775807

def Fits (x : Int) : Prop := -(llongMax : Int) - 1 ≤ x ∧ x ≤ llongMax

instance (x : Int) : Decidable (Fits x) := inferInstanceAs (Decidable (_ ∧ _))

def checked (x : Int) : Option Int := if Fits x then some x else none

/-! ## Clocks -/

structure Timespec where
  sec : Int
  nsec : Int

def Timespec.ns (t : Timespec) : Int := t.sec * 1000000000 + t.nsec

def Timespec.Normal (t : Timespec) : Prop := 0 ≤ t.nsec ∧ t.nsec < 1000000000

def nsBetween (later earlier : Timespec) : Int := (later.sec - earlier.sec) * 1000000000 + (later.nsec - earlier.nsec)

def nsBetweenChecked (later earlier : Timespec) : Option Int := do
  let sec ← checked (later.sec - earlier.sec)
  let ns ← checked (sec * 1000000000)
  let nsec ← checked (later.nsec - earlier.nsec)
  checked (ns + nsec)

def msCeilOfNs (ns : Int) : Int := if ns > 0 then (ns + 999999).tdiv 1000000 else ns.tdiv 1000000

def msSince (now before : Timespec) : Int := (nsBetween now before).tdiv 1000000

def msSinceCeil (now before : Timespec) : Int := msCeilOfNs (nsBetween now before)

def timespecAddMs (t : Timespec) (ms : Nat) : Timespec :=
  let nsec := t.nsec + ms % 1000 * 1000000
  if nsec ≥ 1000000000 then ⟨t.sec + (ms / 1000 : Nat) + 1, nsec - 1000000000⟩ else ⟨t.sec + (ms / 1000 : Nat), nsec⟩

def timespecReached (now limit : Timespec) : Bool := now.sec > limit.sec || (now.sec = limit.sec && now.nsec ≥ limit.nsec)

/-! ## The state -/

inductive Park where
  | none
  | body
  | write
  | linger
  | memBody
  deriving DecidableEq

/-- The settings of a server. A rate of `UINT_MAX` is no floor, and 0 is the default. -/
structure Settings where
  minRateBps : Nat
  rateGraceMs : Nat
  streamReadTimeoutMs : Nat
  responseWriteTimeoutMs : Nat
  isUnixSocket : Bool
  rate_pos : 0 < minRateBps
  grace_le : rateGraceMs ≤ uintMax

/-- The fields of `chttpsvr_conn_t` for these limits. A deadline that is not set is `none`. -/
structure Conn where
  park : Park
  readDeadline : Option Timespec
  writeDeadline : Option Timespec
  lingerDeadline : Timespec
  rateActive : Bool
  rateStart : Timespec
  ratePausedMs : Int
  rateBytes : Nat
  lastProgress : Timespec
  rateQueued : Nat
  rcvlowat : Nat
  wpOutq : Nat
  claimMono : Timespec
  claimSlow : Timespec
  memWaitStart : Timespec

/-- What `_conn_send_queue` and `FIONREAD` answer when they are asked. -/
structure Kernel where
  sendQueue : Option Nat
  unread : Option Nat

variable (srv : Settings) (conn : Conn)

/-! ## The rate floor -/

/-- `_rate_start`, where the clock reads `now`. -/
def rateStart (now : Timespec) (bytesSoFar : Nat) : Conn :=
  { conn with rateStart := now, lastProgress := now, rateBytes := bytesSoFar, ratePausedMs := 0, rateQueued := 0, rateActive := true }

def rateElapsedMs (now : Timespec) : Int := msSince now conn.rateStart - conn.ratePausedMs

def rateAllowedMs (rate grace bytes : Nat) : Int :=
  let bought := min (if bytes > uint64Max / 1000 then uint64Max else bytes * 1000 / rate) llongMax
  if bought > grace then bought else grace

def rateOn : Bool := srv.minRateBps ≠ uintMax && conn.rateActive

def rateBelowFloor (now : Timespec) (extraBytes : Nat) : Bool :=
  rateOn srv conn && rateElapsedMs conn now > rateAllowedMs srv.minRateBps srv.rateGraceMs ((conn.rateBytes + extraBytes) % (uint64Max + 1))

/-- The phase that `_rate_floor_shrink` looks at. The clock reads `start` if it starts there. -/
def floorPhase (start : Timespec) : Conn :=
  if srv.minRateBps = uintMax ∨ conn.rateActive then conn else rateStart conn start 0

def rateElapsedChecked (now : Timespec) : Option Int := do
  let ns ← nsBetweenChecked now conn.rateStart
  checked (ns.tdiv 1000000 - conn.ratePausedMs)

/-- The time that is left before the floor is crossed. -/
def floorRoom (now : Timespec) : Int := rateAllowedMs srv.minRateBps srv.rateGraceMs conn.rateBytes - rateElapsedMs conn now

/-- `left` of `_rate_floor_shrink`. -/
def floorLeft (now : Timespec) : Option Int := do
  let elapsed ← rateElapsedChecked conn now
  let left ← checked (rateAllowedMs srv.minRateBps srv.rateGraceMs conn.rateBytes - elapsed)
  checked (left + 1)

/-- `_rate_floor_shrink`. A refusal leaves the timeout as it is. -/
def rateFloorShrink (start now : Timespec) (timeoutMs : Nat) : Option (Bool × Conn × Nat) :=
  let conn := floorPhase srv conn start
  if srv.minRateBps = uintMax then some (true, conn, timeoutMs)
  else
    match floorLeft srv conn now with
    | none => none
    | some left =>
      if left ≤ 0 then some (false, conn, timeoutMs)
      else
        let leftMs := min left.toNat uintMax
        some (true, conn, if timeoutMs = 0 ∨ leftMs < timeoutMs then leftMs else timeoutMs)

/-! ## Total limits -/

/-- `_shrink_timeout_at`. A deadline that is not set is set first. -/
def shrinkTimeoutAt (deadline : Option Timespec) (maxDur : Nat) (now : Timespec) (timeoutMs : Nat) : Bool × Timespec × Nat :=
  let deadline := deadline.getD (timespecAddMs now maxDur)
  if nsBetween deadline now ≤ 0 then (false, deadline, timeoutMs)
  else
    let remainingMs := min (msCeilOfNs (nsBetween deadline now)).toNat uintMax
    (true, deadline, if timeoutMs = 0 ∨ remainingMs < timeoutMs then remainingMs else timeoutMs)

/-! ## Parked connections -/

def totalDeadline : Option Timespec :=
  match conn.park with
  | .body => conn.readDeadline
  | .write => conn.writeDeadline
  | _ => none

def totalReached (now : Timespec) : Bool := (totalDeadline conn).any (timespecReached now)

def gapLimit : Nat := if conn.park = .body then srv.streamReadTimeoutMs else srv.responseWriteTimeoutMs

def gapHit (nowSlow : Timespec) : Bool := gapLimit srv conn ≠ 0 && msSince nowSlow conn.lastProgress ≥ gapLimit srv conn

/-- `_parked_write_expired`, with the connection it leaves and whether the kernel was asked. -/
def parkedWriteExpired (nowSlow : Timespec) (gap : Bool) (k : Kernel) : Bool × Conn × Bool :=
  if !gap && !rateOn srv conn then (false, conn, false)
  else
    match k.sendQueue with
    | none => (gap || rateBelowFloor srv conn nowSlow 0, conn, true)
    | some outq =>
      let shrunk : Bool := outq < conn.wpOutq
      let conn := if shrunk then { conn with wpOutq := outq, lastProgress := nowSlow } else conn
      let gap := gap && !shrunk
      if !rateOn srv conn then (gap, conn, true)
      else if srv.isUnixSocket then (gap || rateBelowFloor srv conn nowSlow 0, conn, true)
      else
        (gap || rateElapsedMs conn nowSlow > rateAllowedMs srv.minRateBps srv.rateGraceMs (conn.rateBytes - outq), conn, true)

def parkedNeedsKernelQuery (now nowSlow : Timespec) : Bool :=
  match conn.park with
  | .body =>
    if totalReached conn now then false
    else if conn.rcvlowat ≤ 1 then false
    else gapHit srv conn nowSlow || rateBelowFloor srv conn nowSlow conn.rateQueued
  | .write => if totalReached conn now then false else gapHit srv conn nowSlow || rateOn srv conn
  | _ => false

/-- `_parked_expired`, with the connection it leaves and whether the kernel was asked. -/
def parkedExpired (now nowSlow : Timespec) (k : Kernel) : Bool × Conn × Bool :=
  match conn.park with
  | .body =>
    if totalReached conn now then (true, conn, false)
    else
      let rateHit := rateBelowFloor srv conn nowSlow conn.rateQueued
      if (gapHit srv conn nowSlow || rateHit) && conn.rcvlowat > 1 then
        match k.unread with
        | some queued =>
          if queued > conn.rateQueued then
            let conn := { conn with rateQueued := queued, lastProgress := nowSlow }
            (rateBelowFloor srv conn nowSlow queued, conn, true)
          else (true, conn, true)
        | none => (true, conn, true)
      else (gapHit srv conn nowSlow || rateHit, conn, false)
  | .write =>
    if totalReached conn now then (true, conn, false) else parkedWriteExpired srv conn nowSlow (gapHit srv conn nowSlow) k
  | .linger => (timespecReached now conn.lingerDeadline, conn, false)
  | _ => (false, conn, false)

def connUnchargeQueueWait (now nowSlow : Timespec) : Conn :=
  let waited := msSinceCeil nowSlow conn.claimSlow
  let conn := if waited > 0 then
      { conn with
        ratePausedMs := conn.ratePausedMs + waited
        lastProgress := timespecAddMs conn.lastProgress (min waited.toNat uintMax) }
    else conn
  let waitedMono := msSinceCeil now conn.claimMono
  if waitedMono > 0 then
    { conn with
      readDeadline := conn.readDeadline.map (timespecAddMs · (min waitedMono.toNat uintMax))
      writeDeadline := conn.writeDeadline.map (timespecAddMs · (min waitedMono.toNat uintMax)) }
  else conn

/-- The clocks of a body that `_mem_dispatch` hands on. -/
def memDispatch (now : Timespec) : Conn :=
  let waited := (msSinceCeil now conn.memWaitStart).toNat
  { conn with
    park := .body
    ratePausedMs := conn.ratePausedMs + waited
    lastProgress := now
    readDeadline := conn.readDeadline.map (timespecAddMs · (min waited uintMax)) }

end Ccollections.Chttpserver.SlowClient
