import BenchLx.Stats.Statistics

/-!
# Two benchmarks that print statistics

Reference: `main` in `apps/syscall/syscall.c` and in `apps/memload/memload.c`. The first keeps the
measurements that pass its filter, the second is told on the command line how many to make, and both
hand the number of them to the statistics unchecked (`statistics_return_iff`).
-/

namespace BenchLx.Stats

/-- The cycle counter before and after what is measured. -/
structure Reading where
  start : UInt64
  stop : UInt64
deriving DecidableEq, Repr

/-- `end - start`. -/
def Reading.duration (r : Reading) : UInt64 := r.stop - r.start

/-! ## The system call benchmark -/

namespace Syscall

/-- `COUNT`. -/
def count : ℕ := 1000

/-- The array `times` and the number of its elements that are used. -/
structure Measured where
  times : Vals
  total : ℕ

/-- One round of the measurement loop. -/
def Measured.add (m : Measured) (r : Reading) : Measured :=
  if r.duration < 1000 then { times := m.times.set m.total r.duration, total := m.total + 1 }
  else m

/-- The first `n` rounds of the measurement loop. -/
def measure (readings : ℕ → Reading) (n : ℕ) : Measured :=
  (List.range n).foldl (fun m i => m.add (readings i)) ⟨.unwritten, 0⟩

/-- `main`. -/
def main (sqrt : UInt64 → UInt64) (readings : ℕ → Reading) : Except Fault (UInt64 × UInt64) :=
  let m := measure readings count
  report sqrt m.times (UInt64.ofNat m.total)

/-- The measurements of the first `n` rounds that pass the filter. -/
def accepted (readings : ℕ → Reading) (n : ℕ) : List UInt64 :=
  ((List.range n).map fun i => (readings i).duration).filter fun d => d < 1000

/-- Writing the element behind a list. -/
theorem set_length_ofList (xs : List UInt64) (x : UInt64) :
    (Vals.ofList xs).set xs.length x = .ofList (xs ++ [x]) := by
  funext i
  by_cases hi : i = xs.length
  · rw [Vals.set, hi, Function.update_self, Vals.ofList, if_pos (Int.natCast_nonneg _),
      Int.toNat_natCast, List.getElem?_concat_length]
  · rw [Vals.set, Function.update_of_ne hi, Vals.ofList, Vals.ofList]
    split
    · rw [List.getElem?_append]
      split
      · rfl
      · rw [List.getElem?_eq_none (by omega), List.getElem?_eq_none (by simp; omega)]
    · rfl

theorem accepted_succ (readings : ℕ → Reading) (n : ℕ) :
    accepted readings (n + 1) = accepted readings n
      ++ if (readings n).duration < 1000 then [(readings n).duration] else [] := by
  unfold accepted
  rw [List.range_succ, List.map_append, List.filter_append]
  congr 1
  by_cases hd : (readings n).duration < 1000
  · rw [if_pos hd]
    exact List.filter_cons_of_pos (by simpa using hd)
  · rw [if_neg hd]
    exact List.filter_cons_of_neg (by simpa using hd)

/-- The array holds the measurements that pass the filter. -/
theorem measure_eq (readings : ℕ → Reading) (n : ℕ) :
    measure readings n = ⟨.ofList (accepted readings n), (accepted readings n).length⟩ := by
  induction n with
  | zero =>
    have hnone : Vals.ofList [] = .unwritten := by
      funext i
      exact ite_self _
    show (⟨.unwritten, 0⟩ : Measured) = ⟨.ofList [], 0⟩
    rw [hnone]
  | succ n ih =>
    have hadd : measure readings (n + 1) = (measure readings n).add (readings n) := by
      rw [measure, List.range_succ, List.foldl_concat]
      rfl
    rw [hadd, ih, accepted_succ, Measured.add]
    split
    · simp only [set_length_ofList, List.length_append, List.length_singleton]
    · rw [List.append_nil]

theorem length_accepted_le (readings : ℕ → Reading) (n : ℕ) :
    (accepted readings n).length ≤ n := by
  refine (List.length_filter_le _ _).trans ?_
  rw [List.length_map, List.length_range]

/-- The statistics come after exactly the filter that does not leave two measurements. -/
theorem returns_iff (sqrt : UInt64 → UInt64) (readings : ℕ → Reading) :
    (∃ out, main sqrt readings = .ok out) ↔ (accepted readings count).length ≠ 2 := by
  have hle := length_accepted_le readings count
  have hcount : count = 1000 := rfl
  have htoNat : (UInt64.ofNat (accepted readings count).length).toNat
      = (accepted readings count).length :=
    UInt64.toNat_ofNat_of_lt' (by rw [UInt64.size]; omega)
  have htwo : UInt64.ofNat (accepted readings count).length = 2
      ↔ (accepted readings count).length = 2 := by
    rw [← UInt64.toNat_inj, htoNat]
    rfl
  rw [main, measure_eq]
  simp only
  rw [prints_iff, Ne, htwo]
  refine ⟨fun h => h.2, fun hne => ⟨fun k _ hk => ?_, hne⟩⟩
  rw [htoNat] at hk
  rw [Vals.ofList, if_pos (Int.natCast_nonneg k), Int.toNat_natCast, List.getElem?_eq_getElem hk]
  exact Option.some_ne_none _

end Syscall

/-! ## The memory benchmark -/

namespace Memload

/-- What the command line says: `runs`, `warmup` and `cache_size`. -/
structure Args where
  runs : Int32
  warmup : Int32
  cacheSize : UInt64

/-- `elems`. -/
def Args.elems (args : Args) : ℕ := (args.cacheSize / 2 / 8).toNat

/-- The rounds of the loop `for(int r = 0; r < runs + warmup; ++r)`. An `int` wraps around. -/
def Args.rounds (args : Args) : ℕ := (args.runs + args.warmup).toInt.toNat

/-- The contents of both buffers. -/
def buffer (elems : ℕ) : List UInt64 := (List.range elems).map UInt64.ofNat

/-- `total`. -/
def total (elems : ℕ) : UInt64 :=
  (List.range elems).foldl (fun total i => total + UInt64.ofNat i) 0

/-- One round of the loop, with `exit(1)` when the sum over a buffer is wrong. -/
def round (args : Args) (times : Vals) (r : Int32) (reading : Reading) : Option Vals :=
  let sum := (buffer args.elems).foldl (fun sum x => sum + x) 0
  if sum ≠ total args.elems then none
  else if r ≥ args.warmup then some (times.set (r - args.warmup).toInt reading.duration)
  else some times

/-- The first `n` rounds of the loop. -/
def measure (args : Args) (readings : ℕ → Reading) (n : ℕ) : Option Vals :=
  (List.range n).foldlM (fun times k => round args times (Int32.ofNat k) (readings k)) .unwritten

/-- `main`; nothing is printed after `exit(1)`. -/
def main (sqrt : UInt64 → UInt64) (args : Args) (readings : ℕ → Reading) :
    Except Fault (Option (UInt64 × UInt64)) :=
  match measure args readings args.rounds with
  | none => .ok none
  | some times => (report sqrt times args.runs.toInt64.toUInt64).map some

variable (args : Args) (readings : ℕ → Reading)

/-- The sum over a buffer is right. -/
theorem sum_buffer (elems : ℕ) :
    (buffer elems).foldl (fun sum x => sum + x) 0 = total elems :=
  List.foldl_map ..

/-- A round below `n` writes to this index. -/
def WritesTo (args : Args) (n : ℕ) (i : ℤ) : Prop :=
  ∃ k < n, args.warmup ≤ Int32.ofNat k ∧ (Int32.ofNat k - args.warmup).toInt = i

/-- The elements that have been written after `n` rounds. -/
theorem exists_measure (n : ℕ) : ∃ times, measure args readings n = some times ∧
    ∀ i, times i ≠ none ↔ WritesTo args n i := by
  induction n with
  | zero => exact ⟨.unwritten, rfl, by simp [Vals.unwritten, WritesTo]⟩
  | succ n ih =>
    obtain ⟨times, htimes, hwritten⟩ := ih
    have hround : measure args readings (n + 1)
        = round args times (Int32.ofNat n) (readings n) := by
      rw [measure, List.range_succ, List.foldlM_append, ← measure, htimes]
      simp
    rw [hround, round]
    simp only [sum_buffer, ne_eq, not_true, if_false]
    split
    · next hwarm =>
      refine ⟨_, rfl, fun i => ?_⟩
      by_cases hi : i = (Int32.ofNat n - args.warmup).toInt
      · rw [Vals.set, hi, Function.update_self]
        exact iff_of_true (Option.some_ne_none _) ⟨n, Nat.lt_succ_self n, hwarm, rfl⟩
      · rw [Vals.set, Function.update_of_ne hi, ← ne_eq, hwritten]
        constructor
        · rintro ⟨k, hk, h⟩
          exact ⟨k, Nat.lt_succ_of_lt hk, h⟩
        · rintro ⟨k, hk, hle, rfl⟩
          have hne : k ≠ n := fun hkn => hi (by rw [hkn])
          exact ⟨k, by omega, hle, rfl⟩
    · next hwarm =>
      refine ⟨_, rfl, fun i => (hwritten i).trans ?_⟩
      constructor
      · rintro ⟨k, hk, h⟩
        exact ⟨k, Nat.lt_succ_of_lt hk, h⟩
      · rintro ⟨k, hk, hle, rfl⟩
        have hne : k ≠ n := fun hkn => hwarm (by rwa [← hkn])
        exact ⟨k, by omega, hle, rfl⟩

/-- The number of runs as an `unsigned long`. -/
theorem toNat_runs (runs : Int32) :
    (runs.toInt64.toUInt64.toNat : ℤ)
      = if runs.toInt < 0 then 2 ^ 64 + runs.toInt else runs.toInt := by
  have hword : runs.toInt = (runs.toInt64.toUInt64.toNat : ℤ) ∨
      runs.toInt = (runs.toInt64.toUInt64.toNat : ℤ) - 2 ^ 64 := by
    rw [← Int32.toInt_toInt64, ← Int64.toInt_toBitVec, BitVec.toInt_eq_toNat_cond]
    split
    · exact .inl rfl
    · exact .inr rfl
  have hlt := runs.toInt64.toUInt64.toNat_lt
  have hmax := runs.toInt_lt
  have hmin := runs.le_toInt
  split <;> omega

/-- The index that a round writes to, as long as it does not wrap. -/
theorem toInt_index {k : ℕ} (hk : k < 2 ^ 31) {warmup : Int32}
    (hsub : (k : ℤ) - warmup.toInt < 2 ^ 31) :
    (Int32.ofNat k - warmup).toInt = k - warmup.toInt := by
  have hmax := warmup.toInt_lt
  rw [Int32.toInt_sub, Int32.toInt_ofNat_of_lt hk]
  exact Int.bmod_eq_of_le (by omega) (by omega)

/-- The condition on the command line: at most one run, or more than two after at least `-2` rounds
of warmup, without an overflow. -/
def Sound (args : Args) : Prop :=
  args.runs = 0 ∨ args.runs = 1 ∨
    3 ≤ args.runs ∧ -2 ≤ args.warmup ∧ args.runs.toInt + args.warmup.toInt < 2 ^ 31

section Rounds

variable {args}

theorem rounds_lt (args : Args) : args.rounds < 2 ^ 31 := by
  have hmax := (args.runs + args.warmup).toInt_lt
  unfold Args.rounds
  omega

/-- An index is an `int`. -/
theorem WritesTo.lt {n : ℕ} {i : ℤ} (h : WritesTo args n i) : i < 2 ^ 31 := by
  obtain ⟨k, -, -, rfl⟩ := h
  exact Int32.toInt_lt _

/-- Without an overflow the rounds after the warmup write all elements, but for those that are
skipped by a negative warmup. -/
theorem writesTo_of_lt (hfits : args.runs.toInt + args.warmup.toInt < 2 ^ 31) {i : ℕ}
    (hi : (i : ℤ) < args.runs.toInt) (hwarmup : 0 ≤ i + args.warmup.toInt) :
    WritesTo args args.rounds i := by
  have hmin := args.warmup.le_toInt
  have hrounds : (args.rounds : ℤ) = args.runs.toInt + args.warmup.toInt := by
    rw [Args.rounds, Int32.toInt_add, Int.bmod_eq_of_le (by omega) (by omega)]
    omega
  obtain ⟨k, hk⟩ := Int.eq_ofNat_of_zero_le hwarmup
  have hlt : k < 2 ^ 31 := by omega
  refine ⟨k, by omega, ?_, ?_⟩
  · rw [Int32.le_iff_toInt_le, Int32.toInt_ofNat_of_lt hlt]
    omega
  · rw [toInt_index hlt (by have hmax := args.runs.toInt_lt; omega)]
    omega

/-- The third element is written only without an overflow, and when the warmup is at least `-2`. -/
theorem WritesTo.bounds (hruns : 3 ≤ args.runs.toInt) (h : WritesTo args args.rounds 2) :
    -2 ≤ args.warmup.toInt ∧ args.runs.toInt + args.warmup.toInt < 2 ^ 31 := by
  obtain ⟨k, hk, hle, hindex⟩ := h
  have hmax := args.runs.toInt_lt
  have hmax' := args.warmup.toInt_lt
  have hmin := args.warmup.le_toInt
  have hklt := lt_trans hk (rounds_lt args)
  rw [Args.rounds, Int32.toInt_add] at hk
  -- an overflow would leave no rounds
  have hfits : args.runs.toInt + args.warmup.toInt < 2 ^ 31 := by
    by_contra hover
    have hneg : (args.runs.toInt + args.warmup.toInt).bmod (2 ^ 32) < 0 := by
      rw [Int.bmod_def]
      omega
    omega
  rw [Int.bmod_eq_of_le (by omega) (by omega)] at hk
  rw [toInt_index hklt (by omega)] at hindex
  exact ⟨by omega, hfits⟩

theorem sound_iff : Sound args ↔ args.runs.toInt = 0 ∨ args.runs.toInt = 1 ∨
    3 ≤ args.runs.toInt ∧ -2 ≤ args.warmup.toInt ∧
      args.runs.toInt + args.warmup.toInt < 2 ^ 31 := by
  rw [Sound, ← Int32.toInt_inj, ← Int32.toInt_inj, Int32.le_iff_toInt_le, Int32.le_iff_toInt_le]
  rfl

end Rounds

/-- The statistics come after exactly the command lines that fulfil the condition. -/
theorem returns_iff (sqrt : UInt64 → UInt64) :
    (∃ out, main sqrt args readings = .ok out) ↔ Sound args := by
  obtain ⟨times, hmeasure, hwritten⟩ := exists_measure args readings args.rounds
  have hruns := toNat_runs args.runs
  have hmax := args.runs.toInt_lt
  have hmin := args.runs.le_toInt
  have hmain : (∃ out, main sqrt args readings = .ok out) ↔
      Written times args.runs.toInt64.toUInt64 ∧ args.runs.toInt64.toUInt64 ≠ 2 := by
    rw [← @prints_iff times args.runs.toInt64.toUInt64 sqrt, main, hmeasure]
    simp only [map_eq_ok]
    constructor
    · rintro ⟨_, out, hout, -⟩
      exact ⟨out, hout⟩
    · rintro ⟨out, hout⟩
      exact ⟨_, out, hout, rfl⟩
  have htwo : args.runs.toInt64.toUInt64 = 2 ↔ args.runs.toInt64.toUInt64.toNat = 2 :=
    UInt64.toNat_inj.symm
  rw [hmain, sound_iff, Ne, htwo]
  constructor
  · rintro ⟨hall, hne⟩
    have hnonneg : 0 ≤ args.runs.toInt := by
      by_contra hneg
      rw [if_pos (by omega)] at hruns
      have hlast := (hwritten (2 ^ 31 : ℕ)).mp (hall (2 ^ 31) (by decide) (by omega))
      exact absurd hlast.lt (by decide)
    rw [if_neg (by omega)] at hruns
    by_cases hthree : 3 ≤ args.runs.toInt
    · have hthird := (hwritten (2 : ℕ)).mp (hall 2 le_rfl (by omega))
      exact .inr (.inr ⟨hthree, hthird.bounds hthree⟩)
    · omega
  · intro hsound
    rw [if_neg (by omega)] at hruns
    refine ⟨fun k hfirst hk => ?_, by omega⟩
    have hfirst : 2 ≤ k := hfirst
    rw [hwritten]
    exact writesTo_of_lt (by omega) (by omega) (by omega)

end Memload

/-- **When the statistics are sound.** For every sequence of measurements, and every command line of
memload: `avg` and `stddev` neither divide by zero nor read an element that has not been written,
exactly when the filter of the system call benchmark does not leave two measurements, and when
memload is told to make none, one, or at least three runs that its rounds all write. -/
theorem statistics_return_iff (sqrt : UInt64 → UInt64) (readings : ℕ → Reading) :
    ((∃ out, Syscall.main sqrt readings = .ok out) ↔
      (Syscall.accepted readings Syscall.count).length ≠ 2) ∧
    ∀ args, (∃ out, Memload.main sqrt args readings = .ok out) ↔ Memload.Sound args :=
  ⟨Syscall.returns_iff sqrt readings, fun args => Memload.returns_iff args readings sqrt⟩

/-- Two runs of memload, and two measurements that pass the filter: the sum is divided by zero. A
negative number of runs: the third element is read and has not been written. -/
theorem statistics_fault :
    Memload.main id ⟨2, 100, 512 * 1024⟩ (fun _ => ⟨0, 0⟩) = .error .divisionByZero ∧
      Memload.main id ⟨-1, 100, 512 * 1024⟩ (fun _ => ⟨0, 0⟩) = .error (.notWritten 2) ∧
      Syscall.main id (fun i => if i < 2 then ⟨0, 10⟩ else ⟨0, 5000⟩)
        = .error .divisionByZero := by
  refine ⟨?_, ?_, ?_⟩
  · obtain ⟨times, hmeasure, -⟩ :=
      Memload.exists_measure ⟨2, 100, 512 * 1024⟩ (fun _ => ⟨0, 0⟩) 102
    rw [Memload.main, show (⟨2, 100, 512 * 1024⟩ : Memload.Args).rounds = 102 from rfl, hmeasure]
    exact congrArg (Except.map some) (report_two id times)
  · obtain ⟨times, hmeasure, hwritten⟩ :=
      Memload.exists_measure ⟨-1, 100, 512 * 1024⟩ (fun _ => ⟨0, 0⟩) 99
    have hthird : times (2 : ℕ) = none := by
      by_contra hne
      obtain ⟨k, hk, hwarmup, -⟩ := (hwritten _).mp hne
      rw [Int32.le_iff_toInt_le, Int32.toInt_ofNat_of_lt (by omega)] at hwarmup
      have hwarmup : (100 : ℤ) ≤ k := hwarmup
      omega
    rw [Memload.main, show (⟨-1, 100, 512 * 1024⟩ : Memload.Args).rounds = 99 from rfl, hmeasure]
    have hcount : firstResult < (-1 : Int32).toInt64.toUInt64.toNat := by decide
    show (report id times (-1 : Int32).toInt64.toUInt64).map some = .error (.notWritten 2)
    rw [report_of_none hthird hcount]
    rfl
  · have hlen : (Syscall.accepted (fun i => if i < 2 then ⟨0, 10⟩ else ⟨0, 5000⟩)
        Syscall.count).length = 2 := by
      decide +kernel
    rw [Syscall.main, Syscall.measure_eq]
    simp only [hlen]
    exact report_two _ _

end BenchLx.Stats
