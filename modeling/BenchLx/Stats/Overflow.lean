import BenchLx.Common.Variance
import BenchLx.Common.Words
import BenchLx.Stats.Invariance

/-!
# When the statistics are right

The average is the mean rounded down exactly when the sum of the measurements used fits into a word.
The operations of `stddev` give the values of the same operations on integers exactly when the sum
of the squares fits into a signed word (`report_right_iff`). No bound on a single measurement or on
their number is needed for this.
-/

namespace BenchLx.Stats

variable {average x : UInt64} {xs : List UInt64}

/-- The integers that the elements stand for. -/
def ints (xs : List UInt64) : List ℤ := xs.map fun x => (x.toNat : ℤ)

/-- The rational numbers that the elements stand for. -/
def rats (xs : List UInt64) : List ℚ := (ints xs).map Int.cast

@[simp] theorem length_rats (xs : List UInt64) : (rats xs).length = xs.length := by
  rw [rats, ints, List.length_map, List.length_map]

/-! ## The sum -/

theorem sum_rats (xs : List UInt64) : (rats xs).sum = ((xs.map UInt64.toNat).sum : ℕ) := by
  induction xs with
  | nil => rfl
  | cons x xs ih =>
    have hcons : rats (x :: xs) = (x.toNat : ℚ) :: rats xs := rfl
    rw [hcons, List.sum_cons, ih, List.map_cons, List.sum_cons, Nat.cast_add]

/-- The quotient of a remainder is that of the number when there is nothing to reduce. -/
theorem mod_div_eq_iff {s m n : ℕ} (hn : 0 < n) (hnm : n ≤ m) : s % m / n = s / n ↔ s < m := by
  constructor
  · intro h
    by_contra hge
    have hle : s % m + n ≤ s := by
      have hdiv := Nat.mod_add_div s m
      have hone : m * 1 ≤ m * (s / m) :=
        Nat.mul_le_mul_left m (Nat.div_pos (not_lt.mp hge) (hn.trans_le hnm))
      omega
    have hsucc := Nat.div_le_div_right (c := n) hle
    rw [Nat.add_div_right _ hn, h] at hsucc
    omega
  · intro hlt
    rw [Nat.mod_eq_of_lt hlt]

/-! ## The squares -/

/-- Each result in the loop of `stddev` is that of the same operations on integers. -/
structure Exact (average : UInt64) (xs : List UInt64) : Prop where
  deviation_eq : ∀ x ∈ xs, (deviation average x).toInt = x.toNat - average.toNat
  square_eq : ∀ x ∈ xs, (deviation average x * deviation average x).toInt
    = ((x.toNat : ℤ) - average.toNat) ^ 2
  sum_eq : ∀ k, ((xs.take k).foldl (addSquare average) 0).toInt
    = sumSqSub (average.toNat : ℤ) (ints (xs.take k))

/-- A difference that fits into a signed word, whether or not its operands do. -/
theorem toInt_deviation_of_lt (hge : -2 ^ 63 ≤ (x.toNat : ℤ) - average.toNat)
    (hlt : (x.toNat : ℤ) - average.toNat < 2 ^ 63) :
    (deviation average x).toInt = x.toNat - average.toNat := by
  rw [deviation, Int64.toInt_sub, toInt_toInt64_bmod, toInt_toInt64_bmod, Int.bmod_sub_bmod,
    Int.sub_bmod_bmod]
  exact Int.bmod_eq_of_le (by omega) (by omega)

section Square

variable (hlt : ((x.toNat : ℤ) - average.toNat) ^ 2 < 2 ^ 63)
include hlt

theorem toInt_deviation_of_sq_lt : (deviation average x).toInt = x.toNat - average.toNat := by
  have habs : |(x.toNat : ℤ) - average.toNat| < 2 ^ 32 := by
    refine abs_lt_of_sq_lt_sq (hlt.trans (by norm_num)) (by norm_num)
  obtain ⟨hneg, hpos⟩ := abs_lt.mp habs
  exact toInt_deviation_of_lt (by omega) (by omega)

theorem toInt_square_of_lt : (deviation average x * deviation average x).toInt
    = ((x.toNat : ℤ) - average.toNat) ^ 2 := by
  have hnonneg := sq_nonneg ((x.toNat : ℤ) - average.toNat)
  rw [Int64.toInt_mul, toInt_deviation_of_sq_lt hlt, ← sq]
  exact Int.bmod_eq_of_le (by omega) (by omega)

end Square

theorem sumSqSub_ints_cons (c : ℤ) (x : UInt64) (xs : List UInt64) :
    sumSqSub c (ints (x :: xs)) = ((x.toNat : ℤ) - c) ^ 2 + sumSqSub c (ints xs) :=
  sumSqSub_cons _ _ _

theorem sq_le_sumSqSub {c : ℤ} (hx : x ∈ xs) : ((x.toNat : ℤ) - c) ^ 2 ≤ sumSqSub c (ints xs) := by
  induction xs with
  | nil => cases hx
  | cons y xs ih =>
    have hnonneg := sumSqSub_nonneg c (ints xs)
    have hsq := sq_nonneg ((y.toNat : ℤ) - c)
    rw [sumSqSub_ints_cons]
    rcases List.mem_cons.mp hx with rfl | hx
    · omega
    · have hle := ih hx
      omega

theorem toInt_foldl_addSquare_of_lt {s : Int64} (hs : 0 ≤ s.toInt)
    (hlt : s.toInt + sumSqSub (average.toNat : ℤ) (ints xs) < 2 ^ 63) :
    (xs.foldl (addSquare average) s).toInt
      = s.toInt + sumSqSub (average.toNat : ℤ) (ints xs) := by
  induction xs generalizing s with
  | nil => exact (add_zero _).symm
  | cons x xs ih =>
    have hnonneg := sumSqSub_nonneg (average.toNat : ℤ) (ints xs)
    have hsq := sq_nonneg ((x.toNat : ℤ) - average.toNat)
    rw [sumSqSub_ints_cons] at hlt ⊢
    have hadd : (addSquare average s x).toInt
        = s.toInt + ((x.toNat : ℤ) - average.toNat) ^ 2 := by
      rw [addSquare, Int64.toInt_add, toInt_square_of_lt (by omega)]
      exact Int.bmod_eq_of_le (by omega) (by omega)
    rw [List.foldl_cons, ih (by omega) (by omega), hadd, add_assoc]

/-- The sum of the squares is the one that has to fit. -/
theorem exact_iff :
    Exact average xs ↔ sumSqSub (average.toNat : ℤ) (ints xs) < 2 ^ 63 := by
  have hzero : (0 : Int64).toInt = 0 := rfl
  constructor
  · intro h
    have hall := h.sum_eq xs.length
    rw [List.take_length] at hall
    exact hall ▸ Int64.toInt_lt _
  · intro hlt
    refine ⟨fun x hx => toInt_deviation_of_sq_lt ((sq_le_sumSqSub hx).trans_lt hlt),
      fun x hx => toInt_square_of_lt ((sq_le_sumSqSub hx).trans_lt hlt), fun k => ?_⟩
    -- a part of the squares is no more than all of them
    have hsplit : sumSqSub (average.toNat : ℤ) (ints xs)
        = sumSqSub (average.toNat : ℤ) (ints (xs.take k))
          + sumSqSub (average.toNat : ℤ) (ints (xs.drop k)) := by
      conv_lhs => rw [← List.take_append_drop k xs]
      simp only [sumSqSub, ints, List.map_append, List.sum_append]
    have hnonneg := sumSqSub_nonneg (average.toNat : ℤ) (ints (xs.drop k))
    rw [toInt_foldl_addSquare_of_lt hzero.ge (by omega), hzero, zero_add]

/-- Nor does the sum change when it is read as an unsigned word. -/
theorem Exact.unsigned_eq (h : Exact average xs) :
    ((xs.foldl (addSquare average) 0).toUInt64.toNat : ℤ)
      = sumSqSub (average.toNat : ℤ) (ints xs) := by
  have hall := h.sum_eq xs.length
  rw [List.take_length] at hall
  rw [toNat_toUInt64 (hall ▸ sumSqSub_nonneg _ _), hall]

/-! ## The statistics -/

section Statistics

variable (hmin : 3 ≤ xs.length) (hlen : xs.length < 2 ^ 64)
include hmin hlen

/-- The average is the mean rounded down exactly when the sum fits. -/
theorem average_eq_floor_mean_iff :
    ((((used xs).foldl (fun sum x => sum + x) 0 / divisor (UInt64.ofNat xs.length)).toNat : ℤ)
        = ⌊mean (rats (used xs))⌋) ↔ ((used xs).map UInt64.toNat).sum < 2 ^ 64 := by
  have hused := length_used xs
  rw [UInt64.toNat_div, toNat_foldl_mod, toNat_divisor_of_lt (by omega) hlen, mean, sum_rats,
    length_rats, Rat.floor_natCast_div_natCast, UInt64.toNat_zero, Nat.zero_add,
    ← mod_div_eq_iff (n := (used xs).length) (by omega) (by omega)]
  exact Nat.cast_inj

/-- The deviations from the mean rounded down give the variance rounded down, or one more. -/
theorem radicand_eq (hfloor : (average.toNat : ℤ) = ⌊mean (rats (used xs))⌋)
    (hexact : Exact average (used xs)) :
    let n := ((used xs).foldl (addSquare average) 0).toUInt64 / divisor (UInt64.ofNat xs.length)
    (n.toNat : ℤ) = ⌊variance (rats (used xs))⌋ ∨
      (n.toNat : ℤ) = ⌊variance (rats (used xs))⌋ + 1 := by
  have hused := length_used xs
  have hne : rats (used xs) ≠ [] := by
    apply List.ne_nil_of_length_pos
    rw [length_rats]
    omega
  intro n
  have hn : (n.toNat : ℤ)
      = ⌊sumSqSub (⌊mean (rats (used xs))⌋ : ℚ) (rats (used xs)) / (rats (used xs)).length⌋ := by
    rw [← hfloor, length_rats, rats, ← cast_sumSqSub, Rat.floor_intCast_div_natCast,
      ← hexact.unsigned_eq, UInt64.toNat_div, toNat_divisor_of_lt (by omega) hlen]
    exact Int.natCast_ediv _ _
  rw [hn]
  exact floor_sumSqSub_floor hne

end Statistics

/-- **When the statistics are right.** For every list of at least three measurements, however large:
the average is the mean of all but the first two rounded down if and only if their sum fits into a
word. Each result in the loop of `stddev` is that of the operations on integers if and only if the
sum of the squares fits into a signed word. When both hold, `stddev` takes the root of the variance
rounded down or of one more. -/
theorem report_right_iff (xs : List UInt64) (hmin : 3 ≤ xs.length) (hlen : xs.length < 2 ^ 64) :
    ∃ average n, (∀ sqrt, report sqrt (.ofList xs) (UInt64.ofNat xs.length)
        = .ok (average, sqrt n)) ∧
      ((average.toNat : ℤ) = ⌊mean (rats (used xs))⌋ ↔
        ((used xs).map UInt64.toNat).sum < 2 ^ 64) ∧
      (Exact average (used xs) ↔ sumSqSub (average.toNat : ℤ) (ints (used xs)) < 2 ^ 63) ∧
      (((used xs).map UInt64.toNat).sum < 2 ^ 64 → Exact average (used xs) →
        (n.toNat : ℤ) = ⌊variance (rats (used xs))⌋ ∨
          (n.toNat : ℤ) = ⌊variance (rats (used xs))⌋ + 1) := by
  have haverage := average_eq_floor_mean_iff hmin hlen
  generalize heq : (used xs).foldl (fun sum x => sum + x) 0 / divisor (UInt64.ofNat xs.length)
    = average at haverage
  refine ⟨average,
    ((used xs).foldl (addSquare average) 0).toUInt64 / divisor (UInt64.ofNat xs.length),
    fun sqrt => ?_, haverage, exact_iff, fun hfits hexact => ?_⟩
  · rw [report_ofList hlen]
    simp only [divide_divisor hmin hlen, ok_bind, heq]
    rfl
  · exact radicand_eq hmin hlen (haverage.mpr hfits) hexact

/-- Three measurements of which the last one is used, and is too large for a signed word. -/
theorem report_right_iff_large :
    ∃ average n, report id (.ofList [0, 0, 18446744073709551615]) 3 = .ok (average, n) ∧
      (average.toNat : ℤ) = ⌊mean (rats [18446744073709551615])⌋ := by
  obtain ⟨average, n, hreport, haverage, -⟩ :=
    report_right_iff [0, 0, 18446744073709551615] (by decide) (by decide)
  exact ⟨average, n, hreport id, haverage.mpr (by decide)⟩

end BenchLx.Stats
