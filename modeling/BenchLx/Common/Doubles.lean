import Mathlib.Tactic

/-!
# Integers as doubles

What an integer becomes as a double: the nearest number with 53 significant bits, and of two the one
with the even last bit. Up to `2 ^ 53` that is the integer itself. Infinities are left out: numbers
that overflow stay numbers here.
-/

namespace BenchLx

/-- The distance between doubles at `n`. -/
def spacing (n : ℕ) : ℕ := 2 ^ (n.log2 - 52)

/-- A natural number as a double. -/
def doubleOfNat (n : ℕ) : ℕ :=
  let below := n / spacing n
  let rest := n % spacing n
  if spacing n < 2 * rest ∨ (spacing n = 2 * rest ∧ below % 2 = 1) then (below + 1) * spacing n
  else below * spacing n

/-- An integer as a double. -/
def doubleOf (z : ℤ) : ℤ := z.sign * doubleOfNat z.natAbs

theorem spacing_pos (n : ℕ) : 0 < spacing n := Nat.two_pow_pos _

/-- A multiple of the distance is a double. -/
theorem doubleOfNat_of_dvd {n : ℕ} (h : spacing n ∣ n) : doubleOfNat n = n := by
  have hrest : n % spacing n = 0 := Nat.mod_eq_zero_of_dvd h
  have hpos := spacing_pos n
  simp only [doubleOfNat, hrest]
  rw [if_neg (by omega), Nat.div_mul_cancel h]

/-- Up to `2 ^ 53` every number is. -/
theorem spacing_dvd_of_le {n : ℕ} (h : n ≤ 2 ^ 53) : spacing n ∣ n := by
  rcases h.lt_or_eq with hlt | rfl
  · have hone : spacing n = 1 := by
      rcases Nat.eq_zero_or_pos n with rfl | hpos
      · rfl
      · have hlog := (Nat.log2_lt hpos.ne').mpr hlt
        rw [spacing, Nat.sub_eq_zero_of_le (by omega), pow_zero]
    rw [hone]
    exact one_dvd n
  · rw [spacing, Nat.log2_two_pow]
    exact pow_dvd_pow 2 (by norm_num)

theorem doubleOf_of_natAbs_le {z : ℤ} (h : z.natAbs ≤ 2 ^ 53) : doubleOf z = z := by
  rw [doubleOf, doubleOfNat_of_dvd (spacing_dvd_of_le h)]
  exact Int.sign_mul_natAbs z

example : doubleOf 9007199254740993 = 9007199254740992 := by decide +kernel

end BenchLx
