import BenchLx.Common.Decimal
import BenchLx.Common.Memory

/-!
# Numbers and words in a text

The parts of the C++ library that read numbers and words back from a string, in the C locale:
`std::stoll`, and `operator>>` of an input string stream for an unsigned 64-bit number and for a
word.
-/

namespace BenchLx

/-- `isspace`. -/
def isSpace (b : UInt8) : Bool :=
  b.toNat = 32 || (9 ≤ b.toNat && b.toNat ≤ 13)

/-- Split off an optional sign; `true` is a minus. -/
def splitSign : Bytes → Bool × Bytes
  | [] => (false, [])
  | c :: s => if c = 45 then (true, s) else if c = 43 then (false, s) else (false, c :: s)

/-- `std::stoll` in base ten: the number and the position of the first byte after it. -/
def stoll (s : Bytes) : Except Stop (ℤ × ℕ) :=
  let (neg, body) := splitSign (s.dropWhile isSpace)
  let digits := body.takeWhile isDigit
  let value : ℤ := if neg then -(decimalValue digits : ℤ) else decimalValue digits
  if digits = [] then .error .invalidArgument
  else if value < -2 ^ 63 ∨ 2 ^ 63 ≤ value then .error .outOfRange
  else .ok (value, s.length - (body.dropWhile isDigit).length)

/-- `is >> key` for a `uint64_t`: the number and what is left of the stream, nothing when the
extraction failed. A number that is too large gives the largest one. -/
def extractU64 (s : Bytes) : UInt64 × Option Bytes :=
  let (neg, body) := splitSign (s.dropWhile isSpace)
  let digits := body.takeWhile isDigit
  let value := decimalValue digits
  if digits = [] then (0, none)
  else if 2 ^ 64 ≤ value then (UInt64.ofNat (2 ^ 64 - 1), none)
  else (if neg then 0 - UInt64.ofNat value else UInt64.ofNat value, some (body.dropWhile isDigit))

/-- `is >> field` for a `std::string`: the next word, empty when the stream has failed. -/
def extractWord : Option Bytes → Bytes
  | none => []
  | some s => (s.dropWhile isSpace).takeWhile fun b => !isSpace b

/-! ## Texts that start with a numeral -/

theorem not_isSpace_of_isDigit {b : UInt8} (hb : isDigit b = true) : isSpace b = false := by
  simp only [isDigit, isSpace, Bool.and_eq_true, decide_eq_true_eq] at hb ⊢
  rw [Bool.or_eq_false_iff, decide_eq_false_iff_not, Bool.and_eq_false_iff,
    decide_eq_false_iff_not, decide_eq_false_iff_not]
  omega

/-- Neither white space nor a sign stands before a numeral. -/
theorem splitSign_decimal_append (n : ℕ) (s : Bytes) :
    splitSign ((decimal n ++ s).dropWhile isSpace) = (false, decimal n ++ s) := by
  obtain ⟨d, ds, hd⟩ := List.exists_cons_of_ne_nil (decimal_ne_nil n)
  have hdigit : isDigit d = true := isDigit_of_mem_decimal (n := n) (by simp [hd])
  have hminus : d ≠ 45 := by rintro rfl; simp [isDigit] at hdigit
  have hplus : d ≠ 43 := by rintro rfl; simp [isDigit] at hdigit
  rw [hd, List.cons_append, List.dropWhile_cons_of_neg (by simp [not_isSpace_of_isDigit hdigit])]
  rw [splitSign, if_neg hminus, if_neg hplus]

section Separated

variable {c : UInt8} (hc : isDigit c = false)
include hc

/-- `std::stoll` on a numeral and a separator: the number when it is a `long long`, else an
exception. -/
theorem stoll_decimal_append (n : ℕ) (s : Bytes) :
    stoll (decimal n ++ c :: s) =
      if n < 2 ^ 63 then .ok (n, (decimal n).length) else .error .outOfRange := by
  have hlen : (decimal n ++ c :: s).length - (c :: s).length = (decimal n).length := by simp
  simp only [stoll, splitSign_decimal_append, takeWhile_isDigit_decimal hc,
    dropWhile_isDigit_decimal hc, decimal_ne_nil, decimalValue_decimal, hlen, if_false,
    Bool.false_eq_true]
  by_cases hn : n < 2 ^ 63
  · rw [if_pos hn, if_neg (by push Not; constructor <;> omega)]
  · rw [if_neg hn, if_pos (by omega)]

/-- `is >> key` on a numeral and a separator: every unsigned 64-bit number is read back. -/
theorem extractU64_decimal_append (k : UInt64) (s : Bytes) :
    extractU64 (decimal k.toNat ++ c :: s) = (k, some (c :: s)) := by
  simp only [extractU64, splitSign_decimal_append, takeWhile_isDigit_decimal hc,
    dropWhile_isDigit_decimal hc, decimal_ne_nil, decimalValue_decimal, if_false,
    Bool.false_eq_true]
  rw [if_neg (not_le.mpr k.toNat_lt), UInt64.ofNat_toNat]

end Separated

end BenchLx
