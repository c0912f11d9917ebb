import Mathlib.Algebra.Order.Floor.Ring
import Mathlib.Tactic

/-!
# Variance with a rounded mean

The deviations from any other number than the mean add the square of its distance to the variance
(`sumSqSub_div`). Deviations from the mean rounded down therefore give the variance rounded down, or
one more (`floor_sumSqSub_floor`).
-/

namespace BenchLx

section Ring

variable {R : Type*} [Ring R]

/-- The sum of the squares of the deviations from `c`. -/
def sumSqSub (c : R) (xs : List R) : R := (xs.map fun x => (x - c) ^ 2).sum

@[simp] theorem sumSqSub_nil (c : R) : sumSqSub c [] = 0 := rfl

theorem sumSqSub_cons (c x : R) (xs : List R) :
    sumSqSub c (x :: xs) = (x - c) ^ 2 + sumSqSub c xs := by
  rw [sumSqSub, List.map_cons, List.sum_cons, sumSqSub]

/-- The sum over integers, in any ring. -/
theorem cast_sumSqSub (c : ℤ) (xs : List ℤ) :
    ((sumSqSub c xs : ℤ) : R) = sumSqSub (c : R) (xs.map Int.cast) := by
  induction xs with
  | nil => exact Int.cast_zero
  | cons x xs ih =>
    rw [List.map_cons, sumSqSub_cons, sumSqSub_cons, ← ih]
    push_cast
    rfl

theorem sumSqSub_nonneg [LinearOrder R] [IsStrictOrderedRing R] (c : R) (xs : List R) :
    0 ≤ sumSqSub c xs := by
  apply List.sum_nonneg
  intro y hy
  obtain ⟨x, -, rfl⟩ := List.mem_map.mp hy
  exact sq_nonneg _

end Ring

section Field

variable {K : Type*} [Field K]

/-- The mean of a list of numbers. -/
def mean (xs : List K) : K := xs.sum / xs.length

/-- The population variance of a list of numbers. -/
def variance (xs : List K) : K := sumSqSub (mean xs) xs / xs.length

/-- The squares expanded. -/
theorem sumSqSub_eq (c : K) (xs : List K) :
    sumSqSub c xs = sumSqSub 0 xs - 2 * c * xs.sum + xs.length * c ^ 2 := by
  induction xs with
  | nil => simp
  | cons x xs ih =>
    rw [sumSqSub_cons, sumSqSub_cons, ih, List.sum_cons, List.length_cons, Nat.cast_succ]
    ring

variable [CharZero K]

/-- **Another centre.** The deviations from `c` add the square of its distance to the mean. -/
theorem sumSqSub_div (c : K) {xs : List K} (hxs : xs ≠ []) :
    sumSqSub c xs / xs.length = variance xs + (mean xs - c) ^ 2 := by
  have hlen : (xs.length : K) ≠ 0 := Nat.cast_ne_zero.mpr (List.length_pos_of_ne_nil hxs).ne'
  have hsum : xs.sum = xs.length * mean xs := by
    rw [mean, mul_div_cancel₀ _ hlen]
  rw [variance, sumSqSub_eq c, sumSqSub_eq (mean xs), hsum, div_add' _ _ _ hlen, div_left_inj' hlen]
  ring

end Field

section Floor

variable {K : Type*} [Field K] [LinearOrder K] [IsStrictOrderedRing K] [FloorRing K]

/-- **The mean rounded down** gives the variance rounded down, or one more. -/
theorem floor_sumSqSub_floor {xs : List K} (hxs : xs ≠ []) :
    ⌊sumSqSub (⌊mean xs⌋ : K) xs / xs.length⌋ = ⌊variance xs⌋ ∨
      ⌊sumSqSub (⌊mean xs⌋ : K) xs / xs.length⌋ = ⌊variance xs⌋ + 1 := by
  have hnonneg : 0 ≤ Int.fract (mean xs) := Int.fract_nonneg _
  have hlt : Int.fract (mean xs) ^ 2 < 1 := pow_lt_one₀ hnonneg (Int.fract_lt_one _) two_ne_zero
  have hfract : mean xs - ⌊mean xs⌋ = Int.fract (mean xs) := rfl
  rw [sumSqSub_div _ hxs, hfract]
  have hle : ⌊variance xs⌋ ≤ ⌊variance xs + Int.fract (mean xs) ^ 2⌋ :=
    Int.floor_mono (le_add_of_nonneg_right (sq_nonneg _))
  have hge : ⌊variance xs + Int.fract (mean xs) ^ 2⌋ < ⌊variance xs⌋ + 2 := by
    rw [Int.floor_lt]
    have hvar := Int.lt_floor_add_one (variance xs)
    push_cast
    linarith
  omega

end Floor

end BenchLx
