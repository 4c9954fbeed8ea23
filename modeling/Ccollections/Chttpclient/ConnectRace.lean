import Mathlib.Data.List.Basic

/-!
# The connect race of the first tier

Instants are nanoseconds of `CLOCK_MONOTONIC`. A socket is named by the position of its address, since no address is tried twice.
The answers of the system are parameters: one for each attempt, and for each round of the loop one of `poll`, the sockets'
errors and a reading of the clock.
-/

namespace Ccollections.Chttpclient.ConnectRace

/-! ## The order of the addresses -/

/-- The loop of `_addr_list_interleave` from index `i` on. -/
def interleaveFrom {α : Type} (isFirst : α → Bool) (i : Nat) (rest : List α) : List α :=
  match _h : rest.dropWhile (isFirst · ≠ decide (i % 2 = 0)) with
  | [] => rest
  | moved :: after => moved :: interleaveFrom isFirst (i + 1) (rest.takeWhile (isFirst · ≠ decide (i % 2 = 0)) ++ after)
termination_by rest.length
decreasing_by
  have hlen := congrArg List.length (List.takeWhile_append_dropWhile (p := (isFirst · ≠ decide (i % 2 = 0))) (l := rest))
  rw [_h] at hlen
  simp only [List.length_append, List.length_cons] at hlen ⊢
  omega

def addrListInterleave {α φ : Type} [DecidableEq φ] (family : α → φ) (l : List α) : List α :=
  if l.length < 3 then l
  else
    match l with
    | [] => []
    | a :: rest => a :: interleaveFrom (family · = family a) 1 rest

/-! ## The race -/

inductive Start where
  | noSocket
  | refused
  | pending
  | connected
  deriving DecidableEq

/-- `poll`, with the sockets that are ready. -/
inductive Poll where
  | error
  | interrupted
  | timeout
  | ready (revents : Nat → Bool)

structure System where
  start : Nat → Start
  clock : Nat → Nat
  poll : Nat → Poll
  /-- In a round, `SO_ERROR` of a socket could be read and is 0. -/
  soerrOk : Nat → Nat → Bool
  attemptDelay : Nat
  connectDl : Option Nat
  overall : Option Nat

/-- The variables of `_tcp_connect`, with the sockets that were opened, closed and seen connected, and the failed
attempts. -/
structure Race where
  pfds : List Nat
  next : Nat
  now : Nat
  nextStart : Nat
  opened : List Nat
  closed : List Nat
  connected : List Nat
  failed : List Nat

/-- How the race ends. `pollError` is `ccol_http_connection_failed` like `allFailed`. -/
inductive Ended where
  | success (winner : Nat)
  | allFailed
  | pollError
  | timedOut

variable (sys : System) (count : Nat)

def startAttempts (r : Race) : Race × Option Nat :=
  if _h : r.next < count then
    match sys.start r.next with
    | .noSocket => startAttempts { r with next := r.next + 1, failed := r.next :: r.failed }
    | .refused =>
      startAttempts { r with
        next := r.next + 1
        opened := r.next :: r.opened
        closed := r.next :: r.closed
        failed := r.next :: r.failed }
    | .connected =>
      ({ r with next := r.next + 1, opened := r.next :: r.opened, connected := r.next :: r.connected }, some r.next)
    | .pending =>
      ({ r with
        next := r.next + 1
        opened := r.next :: r.opened
        pfds := r.pfds ++ [r.next]
        nextStart := r.now + sys.attemptDelay }, none)
  else (r, none)
termination_by count - r.next

/-- The scan of the sockets behind `poll`. `kept` are those before. -/
def scan (revents soerrOk : Nat → Bool) (winner : Option Nat) (kept : List Nat) : List Nat → Race → Race × Option Nat
  | [], r => ({ r with pfds := kept }, winner)
  | fd :: fds, r =>
    if !revents fd || winner.isSome then scan revents soerrOk winner (kept ++ [fd]) fds r
    else if soerrOk fd then scan revents soerrOk (some fd) kept fds { r with connected := fd :: r.connected }
    else
      scan revents soerrOk winner kept fds { r with closed := fd :: r.closed, failed := fd :: r.failed, nextStart := r.now }

def finish (e : Ended) (r : Race) : Ended × Race := (e, { r with pfds := [], closed := r.pfds ++ r.closed })

/-- `_deadline_remaining_ms_at` fails. -/
def reached (d : Option Nat) (now : Nat) : Bool := d.any (· ≤ now)

/-- Round `k` of the loop of `_tcp_connect`. -/
def round (k : Nat) (r : Race) : Race ⊕ (Ended × Race) :=
  let due := decide (r.pfds = []) || decide (r.nextStart ≤ r.now)
  let (r, winner) := if due then startAttempts sys count r else (r, none)
  match winner with
  | some fd => .inr (finish (.success fd) r)
  | none =>
    if r.pfds = [] then .inr (finish .allFailed r)
    else if reached sys.connectDl r.now || reached sys.overall r.now then .inr (finish .timedOut r)
    else
      match sys.poll k with
      | .error => .inr (finish .pollError r)
      | .interrupted => .inl { r with now := sys.clock (k + 1) }
      | .timeout => .inl { r with now := sys.clock (k + 1) }
      | .ready revents =>
        match scan revents (sys.soerrOk k) none [] r.pfds { r with now := sys.clock (k + 1) } with
        | (r, some fd) => .inr (finish (.success fd) r)
        | (r, none) => .inl r

def Race.start : Race :=
  { pfds := [], next := 0, now := sys.clock 0, nextStart := sys.clock 0, opened := [], closed := [], connected := [], failed := [] }

/-- `_tcp_connect` over so many addresses, after `k` rounds at most. -/
def tcpConnect : Nat → Race ⊕ (Ended × Race)
  | 0 => .inl (.start sys)
  | k + 1 =>
    match tcpConnect k with
    | .inl r => round sys count k r
    | .inr out => .inr out

/-! ## The order that is meant -/

def alternate {α : Type} : List α → List α → List α
  | [], ys => ys
  | x :: xs, ys => x :: alternate ys xs
termination_by xs ys => xs.length + ys.length

end Ccollections.Chttpclient.ConnectRace
