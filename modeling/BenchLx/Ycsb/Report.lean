import BenchLx.Ycsb.Accounting
import BenchLx.Ycsb.TcpHandler
import BenchLx.Ycsb.Timing

/-!
# The final report

Reference: the end of `main` in `apps/ycsbserver/leveldb.cc` and `LevelDBExecutor::print_stats` in
`apps/ycsbserver/ops.cc`. The averages per operation are guarded against a counter of 0, the two
averages over `opcounter` are not (`report_returns_iff`).
-/

namespace BenchLx.Ycsb

/-! ## The functions of the source -/

/-- A division of words. Division by zero is undefined. -/
def divide (a b : UInt64) : Option UInt64 := if b = 0 then none else some (a / b)

/-- A line of `print_stats`: the cycles of an operation and their average. -/
structure StatsLine where
  cycles : UInt64
  avg : UInt64
deriving DecidableEq, Repr

/-- What `print_stats` prints. -/
structure Stats where
  numOps : UInt64
  insert : StatsLine
  read : StatsLine
  update : StatsLine
  scan : StatsLine
deriving DecidableEq, Repr

/-- The line of an operation with these cycles and this counter. -/
def statsLine (t n : UInt64) : Option StatsLine := do
  let avg ← if n > 0 then divide t n else some 0
  return ⟨t, avg⟩

/-- `print_stats`. -/
def LevelDBExecutor.printStats (e : LevelDBExecutor) (numOps : UInt64) : Option Stats := do
  let insert ← statsLine e.tInsert e.nInsert
  let read ← statsLine e.tRead e.nRead
  let update ← statsLine e.tUpdate e.nUpdate
  let scan ← statsLine e.tScan e.nScan
  return { numOps, insert, read, update, scan }

/-- The times of `struct rusage`. -/
structure Rusage where
  ruUtime : Timeval
  ruStime : Timeval
deriving DecidableEq, Repr

/-- What `getrusage` and `clock_gettime` report before and after the loop. -/
structure Readings where
  resBegin : Rusage
  resEnd : Rusage
  execBegin : Timespec
  execEnd : Timespec
deriving DecidableEq, Repr

/-- What `main` prints after the loop. -/
structure Report where
  userTime : UInt64
  systemTime : UInt64
  totalTime : UInt64
  avgRecvTime : UInt64
  avgOpTime : UInt64
  stats : Stats
deriving DecidableEq, Repr

/-- The report of `main` after the loop. Nothing is ever added to `recv_timing` and `op_timing`. -/
def Server.report {H : Type} (s : Server H) (r : Readings) : Option Report := do
  let recvTiming : UInt64 := 0
  let opTiming : UInt64 := 0
  let avgRecvTime ← divide recvTiming s.opcounter
  let avgOpTime ← divide opTiming s.opcounter
  let stats ← s.exec.printStats s.opcounter
  return {
    userTime := timevalMicros (timevalDiff r.resBegin.ruUtime r.resEnd.ruUtime)
    systemTime := timevalMicros (timevalDiff r.resBegin.ruStime r.resEnd.ruStime)
    totalTime := timespecMicros (timespecDiff r.execBegin r.execEnd)
    avgRecvTime, avgOpTime, stats }

/-! ## The divisions -/

theorem divide_of_ne_zero {a b : UInt64} (hb : b ≠ 0) : divide a b = some (a / b) := if_neg hb

/-- The averages per operation are guarded. -/
theorem statsLine_eq (t n : UInt64) :
    statsLine t n = some ⟨t, if n > 0 then t / n else 0⟩ := by
  unfold statsLine
  split
  · next hpos =>
    rw [divide_of_ne_zero (UInt64.pos_iff_ne_zero.mp hpos)]
    rfl
  · rfl

theorem LevelDBExecutor.printStats_ne_none (e : LevelDBExecutor) (numOps : UInt64) :
    e.printStats numOps ≠ none := by
  unfold printStats
  simp only [statsLine_eq]
  exact Option.some_ne_none _

/-- The report divides by `opcounter`, and by nothing else that may be 0. -/
theorem Server.report_eq_none_iff {H : Type} (s : Server H) (r : Readings) :
    s.report r = none ↔ s.opcounter = 0 := by
  unfold report
  constructor
  · intro hnone
    by_contra hne
    obtain ⟨stats, hstats⟩ :=
      Option.ne_none_iff_exists'.mp (s.exec.printStats_ne_none s.opcounter)
    simp only [divide_of_ne_zero hne, hstats] at hnone
    cases hnone
  · intro hzero
    rw [hzero]
    rfl

/-- **When the report divides by zero.** After a run of the loop, whatever the packages and the
outcomes of the sends are, no division of the report fails exactly when the number of packages whose
response was sent in full is no multiple of `2 ^ 64`; the divisions of `print_stats` never fail. -/
theorem report_returns_iff {H : Type} (hdl : OpHandler H) (h : H) (db : DB) (cycles : List Cycles)
    (r : Readings) :
    let run := (Server.start hdl h db).serve hdl cycles
    (run.server.report r ≠ none ↔ ¬ 2 ^ 64 ∣ run.answered) ∧
      ∀ numOps, run.server.exec.printStats numOps ≠ none := by
  intro run
  refine ⟨?_, run.server.exec.printStats_ne_none⟩
  have hopcounter : run.server.opcounter = UInt64.ofNat run.answered :=
    (Server.opcounter_of_serve hdl cycles _).trans (UInt64.zero_add _)
  rw [Ne, Server.report_eq_none_iff, hopcounter, ← UInt64.toNat_inj, UInt64.toNat_ofNat',
    Nat.dvd_iff_mod_eq_zero]
  rfl

/-- A client that first announces a package of 8193 bytes ends the loop before any operation is
answered, and the report divides by zero. -/
theorem report_divides_by_zero :
    let hdl := TCPOpHandler.hdl
    let h := TCPOpHandler.create (fun _ => .zero) [0, 0, 0x20, 1] [.upTo 4] fun _ => .upTo 8
    let run := (Server.start hdl h SortedMap.empty).serve hdl [⟨0, 0⟩]
    run.status = .ended ∧ ∀ r, run.server.report r = none := by
  intro hdl h run
  have hopcounter : run.server.opcounter = 0 := by decide
  exact ⟨by decide, fun r => (Server.report_eq_none_iff _ r).mpr hopcounter⟩

end BenchLx.Ycsb
