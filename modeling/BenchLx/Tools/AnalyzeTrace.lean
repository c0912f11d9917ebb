import BenchLx.Common.Decimal
import Mathlib.Data.List.Infix

/-!
# The trace analyzer

Reference: `tools/analyze-trace.awk`. A trace is read line by line, and the rules of the script are
applied to each line in the order of the script. The index of an array is a string; an element that
has not been assigned, and the text of a group that has not matched, count as 0. Numbers are exact.
-/

namespace BenchLx.AnalyzeTrace

/-! ## The regular expressions -/

/-- `[a-f0-9]`. -/
def isHex (b : UInt8) : Bool :=
  isDigit b || (97 ≤ b.toNat && b.toNat ≤ 102)

/-- `[a-z0-9A-Z_]`. -/
def isName (b : UInt8) : Bool :=
  isDigit b || (97 ≤ b.toNat && b.toNat ≤ 122) || (65 ≤ b.toNat && b.toNat ≤ 90) || b.toNat = 95

/-- The non-empty run of bytes of a class at the start, and what follows it. -/
def oneOrMore (p : UInt8 → Bool) (s : Bytes) : Option (Bytes × Bytes) :=
  if s.takeWhile p = [] then none else some (s.takeWhile p, s.dropWhile p)

/-- What an expression matches behind `.*`: the last place where it does. -/
def lastMatch {α : Type} (p : Bytes → Option α) : Bytes → Option α
  | [] => p []
  | b :: s => (lastMatch p s).or (p (b :: s))

/-- `^([0-9]+):`, the number and what follows the colon. -/
def splitStamp (line : Bytes) : Option (ℤ × Bytes) := do
  let (digits, rest) ← oneOrMore isDigit line
  let rest ← rest.dropPrefix? (ascii ":")
  return (decimalValue digits, rest)

/-- `@ 0x[a-f0-9]+ : ([a-z0-9A-Z_]+)`, the name. -/
def symbol (s : Bytes) : Option Bytes := do
  let s ← s.dropPrefix? (ascii "@ 0x")
  let (_, s) ← oneOrMore isHex s
  let s ← s.dropPrefix? (ascii " : ")
  let (name, _) ← oneOrMore isName s
  return name

/-- `A=0x([a-f0-9]+)`, the digits. -/
def argument (s : Bytes) : Option Bytes := do
  let s ← s.dropPrefix? (ascii "A=0x")
  let (digits, _) ← oneOrMore isHex s
  return digits

/-- The text `place` and behind it `.*A=0x([a-f0-9]+)`, the digits. -/
def argumentAt (place line : Bytes) : Option Bytes := do
  let (_, rest) ← line.dropInfix? place
  lastMatch argument rest

/-- The timestamp of a line. -/
def stamp (line : Bytes) : Option ℤ := (splitStamp line).map Prod.fst

/-- `^([0-9]+):.*@ 0x[a-f0-9]+ : ([a-z0-9A-Z_]+)`, the number and the name. -/
def firstInstruction (line : Bytes) : Option (ℤ × Bytes) := do
  let (now, rest) ← splitStamp line
  let name ← lastMatch symbol rest
  return (now, name)

/-! ## The rules -/

/-- The instructions that the rules look for. -/
def syscallReturn : Bytes := ascii " : handle_exception+0x116 : "
def syscallEnter : Bytes := ascii " : handle_exception+0x114 : "
def switchFrom : Bytes := ascii " : __switch_to+0xa : "
def switchTo : Bytes := ascii " : __switch_to+0x3e : "

/-- A printed line: the thread, the text, the ticks and, for userspace, the time. -/
structure Entry where
  tid : Bytes
  label : Bytes
  ticks : ℤ
  time : Option ℤ
deriving DecidableEq, Repr

/-- The variables of the script and what has been printed. -/
structure State where
  nextIsSyscall : Bool
  oldTid : Bytes
  curTid : Bytes
  syscStart : Bytes → ℤ
  syscEnd : Bytes → ℤ
  curSysc : Bytes → Bytes
  output : List Entry

namespace State

/-- `BEGIN`. -/
def begin : State :=
  { nextIsSyscall := false, oldTid := ascii "0", curTid := ascii "0"
    syscStart := fun _ => 0, syscEnd := fun _ => 0, curSysc := fun _ => [], output := [] }

/-- The first rule, for the line of a return. -/
def onReturn (s : State) (line : Bytes) : State :=
  if syscallReturn <:+: line then
    let now := (stamp line).getD 0
    let time := now - s.syscStart s.curTid
    { s with
      output := s.output ++ [⟨s.curTid, s.curSysc s.curTid, time, none⟩]
      syscEnd := Function.update s.syscEnd s.curTid now }
  else s

/-- The second rule, for the line behind that of an enter. -/
def onFirst (s : State) (line : Bytes) : State :=
  if s.nextIsSyscall then
    let (now, name) := (firstInstruction line).getD (0, [])
    { s with
      curSysc := Function.update s.curSysc s.curTid name
      syscStart := Function.update s.syscStart s.curTid now
      output := s.output
        ++ [⟨s.curTid, ascii "userspace", now - s.syscEnd s.curTid, some now⟩]
      nextIsSyscall := false }
  else s

/-- The third rule, for the line of an enter. -/
def onEnter (s : State) (line : Bytes) : State :=
  if syscallEnter <:+: line then { s with nextIsSyscall := true } else s

/-- The fourth rule. -/
def onSwitchFrom (s : State) (line : Bytes) : State :=
  if switchFrom <:+: line then { s with oldTid := (argumentAt switchFrom line).getD [] } else s

/-- The fifth rule. -/
def onSwitchTo (s : State) (line : Bytes) : State :=
  if switchTo <:+: line then { s with curTid := (argumentAt switchTo line).getD [] } else s

/-- All rules on one line. -/
def step (s : State) (line : Bytes) : State :=
  ((((s.onReturn line).onFirst line).onEnter line).onSwitchFrom line).onSwitchTo line

end State

/-- The script on a trace. -/
def analyze (trace : List Bytes) : State := trace.foldl State.step .begin

end BenchLx.AnalyzeTrace
