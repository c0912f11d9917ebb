import BenchLx.Stats.Benchmarks
import BenchLx.Stats.Overflow

/-!
# How exact the statistics are

On the measurements that the system call benchmark lets through no operation on words leaves its
range, so the average is the mean rounded down. What `stddev` takes the root of is the variance
rounded down or one more, although the deviations are those from the rounded mean
(`statistics_round`).
-/

namespace BenchLx.Stats

/-- No intermediate of `stddev` over the elements `xs` leaves its type: each has the value that the
operations on integers give. -/
structure InRange (average count : UInt64) (xs : List UInt64) : Prop extends Exact average xs where
  divisor_eq : ((divisor count).toNat : ℤ) = count.toNat - firstResult
  average_eq : average.toInt64.toInt = average.toNat
  element_eq : ∀ x ∈ xs, x.toInt64.toInt = x.toNat
  unsigned_eq : ((xs.foldl (addSquare average) 0).toUInt64.toNat : ℤ)
    = sumSqSub (average.toNat : ℤ) (ints xs)

/-! ## Small measurements -/

section Small

variable {xs : List UInt64} (hsmall : ∀ x ∈ xs, x.toNat < 1000)
include hsmall

theorem sum_toNat_le : (xs.map UInt64.toNat).sum ≤ xs.length * 999 := by
  have hle := List.sum_le_card_nsmul (xs.map UInt64.toNat) 999 fun n hn => by
    obtain ⟨x, hx, rfl⟩ := List.mem_map.mp hn
    exact Nat.le_of_lt_succ (hsmall x hx)
  rwa [List.length_map, smul_eq_mul] at hle

theorem sumSqSub_le {average : UInt64} (haverage : average.toNat < 1000) :
    sumSqSub (average.toNat : ℤ) (ints xs) ≤ xs.length * 1000000 := by
  have hle := List.sum_le_card_nsmul ((ints xs).map fun x => (x - (average.toNat : ℤ)) ^ 2) 1000000
    fun n hn => by
      obtain ⟨y, hy, rfl⟩ := List.mem_map.mp hn
      obtain ⟨x, hx, rfl⟩ := List.mem_map.mp hy
      have hlt := hsmall x hx
      have habs : |(x.toNat : ℤ) - average.toNat| < 1000 := by
        rw [abs_lt]
        omega
      exact (sq_lt_sq' (abs_lt.mp habs).1 (abs_lt.mp habs).2).le
  rwa [List.length_map, ints, List.length_map, nsmul_eq_mul] at hle

end Small

/-! ## The statistics -/

section Statistics

variable {ys : List UInt64} (hmin : 3 ≤ ys.length) (hmax : ys.length ≤ Syscall.count)
  (hsmall : ∀ x ∈ ys, x < 1000)

theorem toNat_lt_of_mem_used (hsmall : ∀ x ∈ ys, x < 1000) {x : UInt64} (hx : x ∈ used ys) :
    x.toNat < 1000 :=
  UInt64.lt_iff_toNat_lt.mp (hsmall x (List.mem_of_mem_drop hx))

include hmin hmax hsmall

/-- The average is the mean rounded down, and as small as the measurements. -/
theorem average_eq_floor_mean :
    let average := (used ys).foldl (fun sum x => sum + x) 0 / divisor (UInt64.ofNat ys.length)
    (average.toNat : ℤ) = ⌊mean (rats (used ys))⌋ ∧ average.toNat < 1000 := by
  have hcount : Syscall.count = 1000 := rfl
  have hle := sum_toNat_le fun x => toNat_lt_of_mem_used hsmall
  have hlen := length_used ys
  refine ⟨(average_eq_floor_mean_iff hmin (by omega)).mpr (by omega), ?_⟩
  rw [UInt64.toNat_div, toNat_foldl (by omega), toNat_divisor_of_lt (by omega) (by omega),
    Nat.div_lt_iff_lt_mul (by omega)]
  omega

/-- With a small average no intermediate of `stddev` leaves its type. -/
theorem inRange_of_lt {average : UInt64} (haverage : average.toNat < 1000) :
    InRange average (UInt64.ofNat ys.length) (used ys) := by
  have hcount : Syscall.count = 1000 := rfl
  have hlen := length_used ys
  have hx := fun x => @toNat_lt_of_mem_used ys hsmall x
  have hle := sumSqSub_le hx haverage
  have hexact : Exact average (used ys) := exact_iff.mpr (by omega)
  refine ⟨hexact, ?_, toInt_toInt64 (by omega), fun x hmem => toInt_toInt64 ?_, hexact.unsigned_eq⟩
  · have hfirst : firstResult = 2 := rfl
    have hcast : (UInt64.ofNat ys.length).toNat = ys.length :=
      UInt64.toNat_ofNat_of_lt' (by rw [UInt64.size]; omega)
    rw [toNat_divisor_of_lt (by omega) (by omega), hcast, hlen]
    omega
  · have hlt := hx x hmem
    omega

end Statistics

/-- **How exact the statistics are.** For every list of 3 to `COUNT` measurements below 1000: the
average is the mean of all but the first two rounded down, no intermediate of `stddev` leaves its
type, and what it passes to `sqrt` is the variance rounded down or one more. -/
theorem statistics_round (ys : List UInt64) (hmin : 3 ≤ ys.length)
    (hmax : ys.length ≤ Syscall.count) (hsmall : ∀ x ∈ ys, x < 1000) :
    let vals := Vals.ofList ys
    let count := UInt64.ofNat ys.length
    ∃ average n, avg vals count = .ok average ∧ radicand vals count average = .ok n ∧
      (∀ sqrt, stddev sqrt vals count average = .ok (sqrt n)) ∧
      (average.toNat : ℤ) = ⌊mean (rats (used ys))⌋ ∧
      InRange average count (used ys) ∧
      ((n.toNat : ℤ) = ⌊variance (rats (used ys))⌋ ∨
        (n.toNat : ℤ) = ⌊variance (rats (used ys))⌋ + 1) := by
  intro vals count
  have hcount : Syscall.count = 1000 := rfl
  have hlen : ys.length < 2 ^ 64 := by omega
  obtain ⟨hfloor, hlt⟩ := average_eq_floor_mean hmin hmax hsmall
  have hrange := inRange_of_lt hmin hmax hsmall hlt
  have havg := (avg_ofList hlen).trans (divide_divisor hmin hlen _)
  have hradicand := fun average =>
    (radicand_ofList hlen average).trans (divide_divisor hmin hlen _)
  exact ⟨_, _, havg, hradicand _, fun sqrt => bind_eq_ok.mpr ⟨_, hradicand _, rfl⟩, hfloor, hrange,
    radicand_eq hmin hlen hfloor hrange.toExact⟩

/-- The measurements 5, 900, 3, 4 and 6: the mean of the last three is 13/3, and their variance
14/9. -/
theorem statistics_round_five :
    ∃ average n, avg (.ofList [5, 900, 3, 4, 6]) 5 = .ok average ∧
      radicand (.ofList [5, 900, 3, 4, 6]) 5 average = .ok n ∧
      (average.toNat : ℤ) = ⌊mean (rats [3, 4, 6])⌋ := by
  obtain ⟨average, n, havg, hn, -, hfloor, -⟩ :=
    statistics_round [5, 900, 3, 4, 6] (by decide) (by decide) (by simp)
  exact ⟨average, n, havg, hn, hfloor⟩

end BenchLx.Stats
