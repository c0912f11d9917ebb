import Mathlib.Tactic

/-!
# Signed words

Operations on signed words of 64 bits, and the casts between signed and unsigned ones, have the
values of the same operations on integers as long as these are in range.
-/

namespace BenchLx

/-- The value of a difference of words that are not negative. -/
theorem toInt_sub_of_nonneg {a b : Int64} (ha : 0 ≤ a.toInt) (hb : 0 ≤ b.toInt) :
    (a - b).toInt = a.toInt - b.toInt := by
  have ha' := a.toInt_lt
  have hb' := b.toInt_lt
  rw [Int64.toInt_sub]
  exact Int.bmod_eq_of_le (by omega) (by omega)

/-- The value of a word that is not negative, read as an unsigned one. -/
theorem toNat_toUInt64 {a : Int64} (ha : 0 ≤ a.toInt) : (a.toUInt64.toNat : ℤ) = a.toInt := by
  rw [Int64.toNat_toUInt64_of_le (Int64.le_iff_toInt_le.mpr ha)]
  exact Int.toNat_of_nonneg ha

/-- The value of an unsigned word, read as a signed one. -/
theorem toInt_toInt64_bmod (x : UInt64) : x.toInt64.toInt = (x.toNat : ℤ).bmod (2 ^ 64) := by
  rw [← Int64.toInt_toBitVec, UInt64.toBitVec_toInt64, BitVec.toInt_eq_toNat_bmod,
    UInt64.toNat_toBitVec]

theorem toInt_toInt64 {x : UInt64} (hx : x.toNat < 2 ^ 63) : x.toInt64.toInt = x.toNat := by
  rw [toInt_toInt64_bmod]
  exact Int.bmod_eq_of_le (by omega) (by omega)

end BenchLx
