import Mathlib.Tactic

/-!
# The network latency benchmark

Reference: `send_recv` and the two loops of `main` in `apps/netlat/netlat.c`, on a connected
datagram socket with a receive timeout. Requests are numbered in the order in which they are sent;
an answer carries the number of the request it answers, which the program does not see. Every sent
request is answered at most once, at any later time; an answer that arrives is queued at the socket,
and `read()` gives up only while the queue is empty.
-/

namespace BenchLx.Netlat

/-- `COUNT` and `WARMUP`. -/
def count : ℕ := 100
def warmup : ℕ := 5

/-- `EAGAIN` and `EWOULDBLOCK`. -/
def eagain : ℕ := 11
def ewouldblock : ℕ := 11

/-- What `read()` returns: an answer, or -1 with `errno`. -/
inductive ReadResult
  | data (answer : ℕ)
  | error (errno : ℕ)
deriving DecidableEq, Repr

/-- The value of `errno = EAGAIN || errno == EWOULDBLOCK`. It is an assignment. -/
def assignedErrno (errno : ℕ) : ℕ :=
  if eagain ≠ 0 ∨ errno = ewouldblock then 1 else 0

/-- `send_recv` from the return of `read()` on: its result, or the exit status. -/
def afterRead : ReadResult → Except ℕ ℕ
  | .data _ => .ok 1
  | .error errno => if assignedErrno errno ≠ 0 then .ok 0 else .error 1

/-- The loop of `main` that a call of `send_recv` belongs to. -/
inductive Loop
  | warmup (i : ℕ)
  | measure
deriving DecidableEq, Repr

/-- Where the program is: at the `write()` or in the `read()` of `send_recv`, behind the loops, or
gone. -/
inductive Pc
  | write (loop : Loop)
  | read (loop : Loop)
  | finished
  | exited (status : ℕ)
deriving DecidableEq, Repr

/-- An answer that was read: the request waited for, the one answered, and the cycle counter behind
the `read()`. -/
structure Receipt where
  request : ℕ
  answer : ℕ
  stop : UInt64
deriving DecidableEq, Repr

/-- The program and its socket. `times` has `num` elements. The cycle counter in front of each
`write()` and the answers read are recorded. -/
structure State where
  pc : Pc
  start : UInt64
  times : List UInt64
  unanswered : List ℕ
  queue : List ℕ
  sends : List UInt64
  receipts : List Receipt
deriving DecidableEq, Repr

namespace State

/-- In front of the first `write()`. -/
def init : State :=
  { pc := .write (.warmup 0), start := 0, times := []
    unanswered := [], queue := [], sends := [], receipts := [] }

/-- The test `num < COUNT` of the measurement loop. -/
def measureHead (times : List UInt64) : Pc :=
  if times.length < count then .write .measure else .finished

/-- What the loops do with the result of `send_recv`; `stop` is the cycle counter behind it. -/
def afterSendRecv (s : State) (loop : Loop) (ret : ℕ) (stop : UInt64) : State :=
  match loop with
  | .warmup i =>
    { s with pc := if i + 1 < warmup then .write (.warmup (i + 1)) else measureHead s.times }
  | .measure =>
    if ret ≠ 0 then
      { s with times := s.times ++ [stop - s.start]
               pc := measureHead (s.times ++ [stop - s.start]) }
    else { s with pc := measureHead s.times }

/-- The `write()` of `send_recv` sends its byte, or it does not and the program exits. The
measurement loop has read the cycle counter just before. -/
def wrote (s : State) (loop : Loop) (clock : UInt64) (ok : Bool) : State :=
  if ok then
    { s with
      pc := .read loop
      start := if loop = .measure then clock else s.start
      unanswered := s.unanswered ++ [s.sends.length]
      sends := s.sends ++ [clock] }
  else { s with pc := .exited 1 }

/-- The `read()` of `send_recv` returns. -/
def readReturned (s : State) (loop : Loop) (result : ReadResult) (clock : UInt64) : State :=
  match afterRead result with
  | .ok ret => s.afterSendRecv loop ret clock
  | .error status => { s with pc := .exited status }

/-- The answer `a` is taken from the socket. -/
def received (s : State) (a : ℕ) (queue : List ℕ) (clock : UInt64) : State :=
  { s with queue, receipts := s.receipts ++ [⟨s.sends.length - 1, a, clock⟩] }

end State

/-- What can happen next. Events of the program carry a reading of the cycle counter. -/
inductive Event
  | write (clock : UInt64) (ok : Bool)
  | arrive (answer : ℕ)
  | read (clock : UInt64)
  | timeout
deriving DecidableEq, Repr

/-- The state after an event, if the event can happen. -/
def step (s : State) : Event → Option State
  | .write clock ok =>
    match s.pc with
    | .write loop => some (s.wrote loop clock ok)
    | _ => none
  | .arrive a =>
    if a ∈ s.unanswered then
      some { s with unanswered := s.unanswered.erase a, queue := s.queue ++ [a] }
    else none
  | .read clock =>
    match s.pc, s.queue with
    | .read loop, a :: queue => some ((s.received a queue clock).readReturned loop (.data a) clock)
    | _, _ => none
  | .timeout =>
    match s.pc, s.queue with
    | .read loop, [] => some (s.readReturned loop (.error eagain) 0)
    | _, _ => none

/-- The state after a sequence of events, if it can happen. -/
def run : List Event → State → Option State
  | [], s => some s
  | e :: es, s => (step s e).bind (run es)

end BenchLx.Netlat
