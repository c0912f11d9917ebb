import BenchLx.Common.Doubles
import BenchLx.Common.Text
import BenchLx.Tools.AnalyzeTrace
import Mathlib.Data.List.TakeWhile

/-!
# The times of system calls

Reference: `tools/analyze-syscalls.awk`. The script sums up the time within system calls and the
time between them. A variable that has not been assigned counts as 0, and so the script cannot tell
a call that ended at 0 from no call at all: `times_cover_iff` says when the two sums together are
the time from the first call to the last one. Numbers are doubles, and this is about traces on which
none of them is rounded (`Exact`).
-/

namespace BenchLx.AnalyzeSyscalls

open AnalyzeTrace (oneOrMore lastMatch isName)

/-! ## The regular expression -/

/-- The first place where an expression matches. -/
def firstMatch {α : Type} (p : Bytes → Option α) : Bytes → Option α
  | [] => p []
  | b :: s => (p (b :: s)).or (firstMatch p s)

/-- `\) ([0-9]+) ([0-9]+)`, the numbers. -/
def stamps (s : Bytes) : Option (ℕ × ℕ) := do
  let s ← s.dropPrefix? (ascii ") ")
  let (start, s) ← oneOrMore isDigit s
  let s ← s.dropPrefix? (ascii " ")
  let (stop, _) ← oneOrMore isDigit s
  return (decimalValue start, decimalValue stop)

/-- A system call: its name and its timestamps. -/
structure Event where
  name : Bytes
  start : ℕ
  stop : ℕ
deriving DecidableEq, Repr

/-- `\]  \[\s*[0-9]+\] ([a-zA-Z_0-9]+) \(.*` and then `stamps`. -/
def call (s : Bytes) : Option Event := do
  let s ← s.dropPrefix? (ascii "]  [")
  let (_, s) ← oneOrMore isDigit (s.dropWhile isSpace)
  let s ← s.dropPrefix? (ascii "] ")
  let (name, s) ← oneOrMore isName s
  let s ← s.dropPrefix? (ascii " (")
  let (start, stop) ← lastMatch stamps s
  return { name, start, stop }

/-- `\[.*` and then `call`. -/
def bracket (s : Bytes) : Option Event := do
  let s ← s.dropPrefix? (ascii "[")
  lastMatch call s

/-- The match of a line. -/
def parse (line : Bytes) : Option Event := firstMatch bracket line

/-! ## The rule -/

/-- The variables of the script and the printed lines. -/
structure State where
  lastSyscall : ℤ
  appTime : ℤ
  sysTime : ℤ
  output : List (Bytes × ℤ)

namespace State

/-- The start of the script. -/
def begin : State := { lastSyscall := 0, appTime := 0, sysTime := 0, output := [] }

/-- The first half of the rule. -/
def onApp (s : State) (e : Event) : State :=
  if s.lastSyscall ≠ 0 then
    let time := doubleOf (doubleOf e.start - s.lastSyscall)
    { s with
      output := s.output ++ [(ascii "<app>", time)]
      appTime := doubleOf (s.appTime + time) }
  else s

/-- The second half of the rule. -/
def onSyscall (s : State) (e : Event) : State :=
  let time := doubleOf (doubleOf e.stop - doubleOf e.start)
  { s with
    output := s.output ++ [(e.name, time)]
    sysTime := doubleOf (s.sysTime + time)
    lastSyscall := doubleOf e.stop }

/-- The rule on a line. -/
def step (s : State) (line : Bytes) : State :=
  match parse line with
  | some e => (s.onApp e).onSyscall e
  | none => s

end State

/-- The script on a trace. -/
def analyze (trace : List Bytes) : State := trace.foldl State.step .begin

/-- The system calls of a trace. -/
def events (trace : List Bytes) : List Event := trace.filterMap parse

/-! ## What a name can be -/

/-- What a search through the places of a text finds is a match at one of them. -/
theorem exists_match {α : Type} {p search : Bytes → Option α} (hnil : search [] = p [])
    (hcons : ∀ b s a, search (b :: s) = some a → p (b :: s) = some a ∨ search s = some a)
    {s : Bytes} {a : α} (h : search s = some a) : ∃ s', p s' = some a := by
  induction s with
  | nil => exact ⟨[], hnil ▸ h⟩
  | cons b s ih =>
    rcases hcons b s a h with h | h
    · exact ⟨b :: s, h⟩
    · exact ih h

theorem exists_of_firstMatch {α : Type} {p : Bytes → Option α} {s : Bytes} {a : α}
    (h : firstMatch p s = some a) : ∃ s', p s' = some a :=
  @exists_match α p (firstMatch p) rfl
    (fun _ _ _ h => (Option.or_eq_some_iff.mp h).imp_right And.right) s a h

theorem exists_of_lastMatch {α : Type} {p : Bytes → Option α} {s : Bytes} {a : α}
    (h : lastMatch p s = some a) : ∃ s', p s' = some a :=
  @exists_match α p (lastMatch p) rfl
    (fun _ _ _ h => (Option.or_eq_some_iff.mp h).symm.imp_left And.right) s a h

/-- The name of a system call is not the label of the lines in between. -/
theorem name_ne_of_parse {line : Bytes} {e : Event} (h : parse line = some e) :
    e.name ≠ ascii "<app>" := by
  obtain ⟨s, hbracket⟩ := exists_of_firstMatch h
  obtain ⟨s₁, -, hlast⟩ := Option.bind_eq_some_iff.mp hbracket
  obtain ⟨s₂, hcall⟩ := exists_of_lastMatch hlast
  obtain ⟨s₃, -, hcall⟩ := Option.bind_eq_some_iff.mp hcall
  obtain ⟨⟨_, _⟩, -, hcall⟩ := Option.bind_eq_some_iff.mp hcall
  obtain ⟨s₄, -, hcall⟩ := Option.bind_eq_some_iff.mp hcall
  obtain ⟨⟨name, _⟩, hname, hcall⟩ := Option.bind_eq_some_iff.mp hcall
  obtain ⟨_, -, hcall⟩ := Option.bind_eq_some_iff.mp hcall
  obtain ⟨⟨_, _⟩, -, hcall⟩ := Option.bind_eq_some_iff.mp hcall
  cases hcall
  rintro rfl
  rw [oneOrMore] at hname
  split at hname
  · cases hname
  · obtain ⟨hword, -⟩ := Prod.mk.inj (Option.some.inj hname)
    have hmem : (60 : UInt8) ∈ s₄.takeWhile isName := by
      rw [hword]
      decide
    exact absurd (List.mem_takeWhile_imp hmem) (by decide)

/-! ## The sums -/

/-- The lines of the time between system calls. -/
def appLines (output : List (Bytes × ℤ)) : List (Bytes × ℤ) :=
  output.filter fun l => l.1 = ascii "<app>"

/-- The lines of the system calls. -/
def sysLines (output : List (Bytes × ℤ)) : List (Bytes × ℤ) :=
  output.filter fun l => l.1 ≠ ascii "<app>"

/-- The sum of a number for each call, which may depend on where the call before it ended; the first
one stands behind a call that ended at `last`. -/
def sumCalls (f : ℕ → Event → ℕ) : (last : ℕ) → List Event → ℕ
  | _, [] => 0
  | last, e :: es => f last e + sumCalls f e.stop es

/-- Where the last call ended. -/
def lastStop (last : ℕ) (es : List Event) : ℕ := (es.getLast?.map Event.stop).getD last

theorem sumCalls_append (f : ℕ → Event → ℕ) (last : ℕ) (es : List Event) (e : Event) :
    sumCalls f last (es ++ [e]) = sumCalls f last es + f (lastStop last es) e := by
  induction es generalizing last with
  | nil => simp [sumCalls, lastStop]
  | cons a es ih =>
    rw [List.cons_append, sumCalls, ih, sumCalls, lastStop, lastStop, List.getLast?_cons]
    cases es.getLast? <;> simp [Nat.add_assoc]

/-- The starts of the calls that the script takes for the first one. -/
def missed (es : List Event) : ℕ := sumCalls (fun last e => if last = 0 then e.start else 0) 0 es

/-- The time before a call, as the script counts it behind a call that ended at `last`. -/
def gap (last : ℕ) (e : Event) : ℤ := if last = 0 then 0 else e.start - last

/-- The times that the script adds up, whatever their signs. -/
def turnover (es : List Event) : ℕ :=
  sumCalls (fun last e => (gap last e).natAbs + ((e.stop : ℤ) - e.start).natAbs) 0 es

theorem missed_append (es : List Event) (e : Event) :
    missed (es ++ [e]) = missed es + if lastStop 0 es = 0 then e.start else 0 :=
  sumCalls_append _ 0 es e

theorem turnover_append (es : List Event) (e : Event) :
    turnover (es ++ [e])
      = turnover es + ((gap (lastStop 0 es) e).natAbs + ((e.stop : ℤ) - e.start).natAbs) :=
  sumCalls_append _ 0 es e

/-- No number is rounded: neither a timestamp nor what the times add up to is above `2 ^ 53`. -/
structure Exact (es : List Event) : Prop where
  start_le : ∀ e ∈ es, e.start ≤ 2 ^ 53
  stop_le : ∀ e ∈ es, e.stop ≤ 2 ^ 53
  turnover_le : turnover es ≤ 2 ^ 53

theorem Exact.of_append {es : List Event} {e : Event} (h : Exact (es ++ [e])) : Exact es := by
  refine ⟨fun a ha => h.start_le a (by simp [ha]), fun a ha => h.stop_le a (by simp [ha]), ?_⟩
  have hle := h.turnover_le
  rw [turnover_append] at hle
  exact (Nat.le_add_right _ _).trans hle

theorem Exact.lastStop_le {es : List Event} (h : Exact es) : lastStop 0 es ≤ 2 ^ 53 := by
  rw [lastStop]
  cases hlast : es.getLast? with
  | none => exact Nat.zero_le _
  | some a => exact h.stop_le a (List.mem_of_getLast? hlast)

/-- What the variables say after some system calls. -/
structure Accounts (es : List Event) (s : State) : Prop where
  last : s.lastSyscall = lastStop 0 es
  apps : ((appLines s.output).map Prod.snd).sum = s.appTime
  calls : (sysLines s.output) = es.map fun e => (e.name, (e.stop : ℤ) - e.start)
  sys : ((sysLines s.output).map Prod.snd).sum = s.sysTime
  total : s.appTime + s.sysTime = s.lastSyscall - missed es
  bound : s.appTime.natAbs + s.sysTime.natAbs ≤ turnover es

theorem appLines_append_app (output : List (Bytes × ℤ)) (t : ℤ) :
    appLines (output ++ [(ascii "<app>", t)]) = appLines output ++ [(ascii "<app>", t)] := by
  rw [appLines, List.filter_append, appLines]
  simp

theorem sysLines_append_app (output : List (Bytes × ℤ)) (t : ℤ) :
    sysLines (output ++ [(ascii "<app>", t)]) = sysLines output := by
  rw [sysLines, List.filter_append, sysLines]
  simp

section Named

variable {name : Bytes} (hname : name ≠ ascii "<app>") (output : List (Bytes × ℤ)) (t : ℤ)
include hname

theorem appLines_append_named : appLines (output ++ [(name, t)]) = appLines output := by
  rw [appLines, List.filter_append, appLines]
  simp [hname]

theorem sysLines_append_named :
    sysLines (output ++ [(name, t)]) = sysLines output ++ [(name, t)] := by
  rw [sysLines, List.filter_append, sysLines]
  simp [hname]

end Named

/-- The first half of the rule where nothing is rounded. -/
theorem State.onApp_of_le {s : State} {e : Event} {last : ℕ} (hlast : s.lastSyscall = last)
    (hle : last ≤ 2 ^ 53) (hstart : e.start ≤ 2 ^ 53)
    (hsum : (s.appTime + gap last e).natAbs ≤ 2 ^ 53) :
    (s.onApp e).lastSyscall = last ∧ (s.onApp e).sysTime = s.sysTime ∧
      (s.onApp e).appTime = s.appTime + gap last e ∧
      sysLines (s.onApp e).output = sysLines s.output ∧
      ((appLines (s.onApp e).output).map Prod.snd).sum
        = ((appLines s.output).map Prod.snd).sum + gap last e := by
  by_cases hzero : last = 0
  · rw [State.onApp, if_neg (by omega), gap, if_pos hzero, add_zero, add_zero]
    exact ⟨hlast, rfl, rfl, rfl, rfl⟩
  · rw [gap, if_neg hzero] at hsum ⊢
    have hstart' : doubleOf e.start = e.start := doubleOf_of_natAbs_le (by omega)
    have htime : doubleOf ((e.start : ℤ) - last) = e.start - last :=
      doubleOf_of_natAbs_le (by omega)
    rw [State.onApp, if_pos (by omega), hlast, hstart', htime]
    refine ⟨rfl, rfl, doubleOf_of_natAbs_le hsum, sysLines_append_app _ _, ?_⟩
    rw [appLines_append_app, List.map_append, List.sum_append]
    simp

/-- The second half of the rule where nothing is rounded. -/
theorem State.onSyscall_of_le {s : State} {e : Event} (hstart : e.start ≤ 2 ^ 53)
    (hstop : e.stop ≤ 2 ^ 53) (hsum : (s.sysTime + (e.stop - e.start)).natAbs ≤ 2 ^ 53) :
    s.onSyscall e = { s with
      output := s.output ++ [(e.name, (e.stop : ℤ) - e.start)]
      sysTime := s.sysTime + (e.stop - e.start)
      lastSyscall := e.stop } := by
  have hstart' : doubleOf e.start = e.start := doubleOf_of_natAbs_le (by omega)
  have hstop' : doubleOf e.stop = e.stop := doubleOf_of_natAbs_le (by omega)
  have htime : doubleOf ((e.stop : ℤ) - e.start) = e.stop - e.start :=
    doubleOf_of_natAbs_le (by omega)
  rw [State.onSyscall, hstart', hstop', htime, doubleOf_of_natAbs_le hsum]

/-- A system call is accounted for. -/
theorem Accounts.step {es : List Event} {s : State} (hs : Accounts es s) {e : Event}
    (hexact : Exact (es ++ [e])) (hname : e.name ≠ ascii "<app>") :
    Accounts (es ++ [e]) ((s.onApp e).onSyscall e) := by
  obtain ⟨hlast, happs, hcalls, hsys, htotal, hbound⟩ := hs
  have hstart := hexact.start_le e (by simp)
  have hstop := hexact.stop_le e (by simp)
  have hlastStop := hexact.of_append.lastStop_le
  have hturnover := hexact.turnover_le
  have hmissed := missed_append es e
  have hadded := turnover_append es e
  have happBound := Int.natAbs_add_le s.appTime (gap (lastStop 0 es) e)
  have hsysBound := Int.natAbs_add_le s.sysTime (e.stop - e.start)
  obtain ⟨hlast', hsys', happ', hsysLines, happLines⟩ :=
    State.onApp_of_le hlast hlastStop hstart (by omega)
  rw [State.onSyscall_of_le hstart hstop (by rw [hsys']; omega)]
  constructor <;> simp only
  · simp [lastStop]
  · rw [appLines_append_named hname, happLines, happs, happ']
  · rw [sysLines_append_named hname, hsysLines, hcalls, List.map_append]
    rfl
  · rw [sysLines_append_named hname, hsysLines, List.map_append, List.sum_append, hsys, hsys']
    simp
  · rw [happ', hsys', hmissed, gap]
    split <;> push_cast <;> omega
  · rw [happ', hsys', hadded]
    omega

/-- So all are. -/
theorem accounts_analyze {trace : List Bytes} (hexact : Exact (events trace)) :
    Accounts (events trace) (analyze trace) := by
  induction trace using List.reverseRecOn with
  | nil => exact ⟨rfl, rfl, rfl, rfl, rfl, le_rfl⟩
  | append_singleton trace line ih =>
    rw [events, List.filterMap_append, ← events] at hexact ⊢
    rw [analyze, List.foldl_append, ← analyze, List.foldl_cons, List.foldl_nil, State.step]
    cases hparse : parse line with
    | none =>
      rw [List.filterMap_cons_none hparse, List.filterMap_nil, List.append_nil] at hexact ⊢
      exact ih hexact
    | some e =>
      rw [List.filterMap_cons_some hparse, List.filterMap_nil] at hexact ⊢
      exact (ih hexact.of_append).step hexact (name_ne_of_parse hparse)

/-- No start is missed exactly when every call behind one that ended at 0 started at 0, too. -/
theorem missed_eq_zero_iff (e : Event) (es : List Event) :
    sumCalls (fun last e => if last = 0 then e.start else 0) e.stop es = 0
      ↔ (e :: es).IsChain fun a b => a.stop = 0 → b.start = 0 := by
  induction es generalizing e with
  | nil => simp [sumCalls]
  | cons b es ih =>
    rw [sumCalls, Nat.add_eq_zero_iff, ih, List.isChain_cons_cons]
    by_cases hstop : e.stop = 0 <;> simp [hstop]

/-- **What the times add up to.** On every trace with a system call whose numbers are exact as
doubles: the lines of the system calls are those of the trace, in order and with their times; the
two sums are those of the lines; and together they are the time from the start of the first call to
the end of the last one exactly when every call that follows one that ended at 0 started at 0,
too. -/
theorem times_cover_iff (trace : List Bytes) (hexact : Exact (events trace)) (first last : Event)
    (hfirst : (events trace).head? = some first) (hlast : (events trace).getLast? = some last) :
    let s := analyze trace
    (sysLines s.output = (events trace).map fun e => (e.name, (e.stop : ℤ) - e.start)) ∧
    ((sysLines s.output).map Prod.snd).sum = s.sysTime ∧
    ((appLines s.output).map Prod.snd).sum = s.appTime ∧
    (s.appTime + s.sysTime = last.stop - first.start
      ↔ (events trace).IsChain fun a b => a.stop = 0 → b.start = 0) := by
  obtain ⟨hstop, happs, hcalls, hsys, htotal, -⟩ := accounts_analyze hexact
  refine ⟨hcalls, hsys, happs, ?_⟩
  obtain ⟨es, hes⟩ : ∃ es, events trace = first :: es := by
    cases hevents : events trace with
    | nil => simp [hevents] at hfirst
    | cons e es => exact ⟨es, by simpa [hevents] using hfirst⟩
  rw [lastStop, hlast, Option.map_some, Option.getD_some] at hstop
  rw [hes, missed, sumCalls, if_pos rfl] at htotal
  rw [hes, ← missed_eq_zero_iff, htotal, hstop]
  omega

/-- Two calls of ten and five ticks, and three ticks in between. -/
theorem times_cover_two :
    let s := analyze [ascii "[1]  [ 7] read () 10 20", ascii "[1]  [ 7] write () 23 28"]
    s.appTime + s.sysTime = 28 - 10 := by
  have hevents : events [ascii "[1]  [ 7] read () 10 20", ascii "[1]  [ 7] write () 23 28"]
      = [⟨ascii "read", 10, 20⟩, ⟨ascii "write", 23, 28⟩] := by decide
  refine (times_cover_iff _ ?_ ⟨ascii "read", 10, 20⟩ ⟨ascii "write", 23, 28⟩ (by rw [hevents]; rfl)
    (by rw [hevents]; rfl)).2.2.2.mpr (by rw [hevents]; decide)
  rw [hevents]
  exact ⟨by decide, by decide, by decide⟩

end BenchLx.AnalyzeSyscalls
