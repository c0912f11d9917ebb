import Mathlib.Logic.Relation
import Mathlib.Tactic

/-!
# The pingpong benchmark

Reference: the loops of the parent and the child in `main` of `apps/pingpong/pingpong.c`, from the
fork on. Both processes share one System V message queue. Sends of the parent are numbered, and a
message carries the number of the send that its contents go back to; the processes do not see it.
When the queue has room is a parameter.
-/

namespace BenchLx.Pingpong

/-- `COUNT` and `WARMUP`. -/
def count : ℕ := 1000
def warmup : ℕ := 100

/-- `CLIENT_MESSAGE` and `SERVER_MESSAGE`. -/
def clientMessage : ℕ := 1
def serverMessage : ℕ := 2

/-- A queued message: its type, its size, and the number of the send it goes back to. -/
structure Message where
  type : ℕ
  size : ℕ
  no : ℕ
deriving DecidableEq, Repr

/-- Whether the queue takes another message of a size. -/
abbrev Capacity := List Message → ℕ → Bool

/-- What `msgsnd` documents: a message longer than `MSGMAX` is refused, and any other is taken as
long as neither the bytes nor the number of the queued messages go beyond `msg_qbytes`. -/
def KeepsLimits (msgmax qbytes : ℕ) (hasRoom : Capacity) : Prop :=
  ∀ queue size, hasRoom queue size = true ↔
    size ≤ msgmax ∧ (queue.map Message.size).sum + size ≤ qbytes ∧ queue.length + 1 ≤ qbytes

/-- A queue with these limits. -/
def capacityOf (msgmax qbytes : ℕ) : Capacity := fun queue size =>
  size ≤ msgmax && (queue.map Message.size).sum + size ≤ qbytes && queue.length + 1 ≤ qbytes

theorem keepsLimits_capacityOf (msgmax qbytes : ℕ) :
    KeepsLimits msgmax qbytes (capacityOf msgmax qbytes) := by
  intro queue size
  simp [capacityOf, and_assoc]

/-- `msgrcv`: the first message of the type asked for and the queue without it; nothing when the
call blocks. -/
def msgrcv (type : ℕ) : List Message → Option (Message × List Message)
  | [] => none
  | m :: queue =>
    if m.type = type then some (m, queue)
    else (msgrcv type queue).map fun r => (r.1, m :: r.2)

/-- The cast of a `size_t` to `ssize_t`. -/
def toSsize (n : ℕ) : ℤ := if n < 2 ^ 63 then n else n - 2 ^ 64

/-- Where a process is: at a send or a receive of round `i` of run `x`, behind its loops, or gone
with `exit(1)`. -/
inductive Pc
  | send (x i : ℕ)
  | receive (x i : ℕ)
  | finished
  | failed
deriving DecidableEq, Repr

/-- Both processes, the queue, the number that the child's message carries, and what has happened so
far: the sends of the parent and of the child, and the numbers of the messages that each
received. -/
structure State where
  parent : Pc
  child : Pc
  queue : List Message
  held : ℕ
  parentSends : ℕ
  childSends : ℕ
  parentReceived : List ℕ
  childReceived : List ℕ
deriving DecidableEq, Repr

/-- The first round of run `x`, if there is such a run. -/
def enterRun (runs x : ℕ) : Option (ℕ × ℕ) :=
  if x < runs then some (x, 0) else none

/-- The round after round `i` of run `x`. -/
def nextRound (runs x i : ℕ) : Option (ℕ × ℕ) :=
  if i + 1 < warmup + count then some (x, i + 1) else enterRun runs (x + 1)

/-- A process in front of a round whose first call is `first`. -/
def Pc.enter (first : ℕ → ℕ → Pc) : Option (ℕ × ℕ) → Pc
  | some (x, i) => first x i
  | none => .finished

/-- The processes after the fork, with an empty queue. -/
def State.init (runs : ℕ) : State :=
  { parent := Pc.enter .send (enterRun runs 0)
    child := Pc.enter .receive (enterRun runs 0)
    queue := [], held := 0, parentSends := 0, childSends := 0
    parentReceived := [], childReceived := [] }

section Step

variable (hasRoom : Capacity) (runs msgsize : ℕ)

/-- A step of the parent, if it is not blocked. Its send does not wait. -/
def parentStep (s : State) : Option State :=
  match s.parent with
  | .send x i =>
    if hasRoom s.queue msgsize then
      some { s with
        parent := .receive x i
        queue := s.queue ++ [⟨serverMessage, msgsize, s.parentSends⟩]
        parentSends := s.parentSends + 1 }
    else some { s with parent := .failed }
  | .receive x i =>
    match msgrcv clientMessage s.queue with
    | none => none
    | some (m, queue) =>
      if (m.size : ℤ) < toSsize msgsize then some { s with queue, parent := .failed }
      else some { s with
        parent := Pc.enter .send (nextRound runs x i)
        queue
        parentReceived := s.parentReceived ++ [m.no] }
  | .finished => none
  | .failed => none

/-- A step of the child, if it is not blocked. Its send waits for room; it is never too long, since
the parent's message that it answers was not. -/
def childStep (s : State) : Option State :=
  match s.child with
  | .receive x i =>
    match msgrcv serverMessage s.queue with
    | none => none
    | some (m, queue) =>
      if (m.size : ℤ) < toSsize msgsize then some { s with queue, child := .failed }
      else some { s with
        child := .send x i
        queue
        held := m.no
        childReceived := s.childReceived ++ [m.no] }
  | .send x i =>
    if hasRoom s.queue msgsize then
      some { s with
        child := Pc.enter .receive (nextRound runs x i)
        queue := s.queue ++ [⟨clientMessage, msgsize, s.held⟩]
        childSends := s.childSends + 1 }
    else none
  | .finished => none
  | .failed => none

/-- One step of one of the two. -/
def Step (s s' : State) : Prop :=
  parentStep hasRoom runs msgsize s = some s' ∨ childStep hasRoom runs msgsize s = some s'

/-- The states that any interleaving leads to. -/
def Reachable (s : State) : Prop :=
  Relation.ReflTransGen (Step hasRoom runs msgsize) (.init runs) s

end Step

end BenchLx.Pingpong
