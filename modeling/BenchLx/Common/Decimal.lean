import BenchLx.Common.Bytes
import Mathlib.Data.Nat.Digits.Lemmas

/-!
# Decimal numerals as byte strings

`decimal n` is what an unsigned number prints as in base ten, `decimalValue` is what a string of
digits denotes. A numeral followed by a byte that is no digit can be split again in one way only,
which is what makes `number ++ separator ++ rest` an injective key format.
-/

namespace BenchLx

/-- The bytes of an ASCII text. -/
def ascii (s : String) : Bytes :=
  s.toList.map fun c => UInt8.ofNat c.toNat

/-- The bytes `'0'` to `'9'`. -/
def isDigit (b : UInt8) : Bool :=
  48 ≤ b.toNat && b.toNat ≤ 57

/-- The decimal numeral of `n`, without leading zeros. -/
def decimal (n : ℕ) : Bytes :=
  if n = 0 then ascii "0" else (Nat.digits 10 n).reverse.map fun d => UInt8.ofNat (48 + d)

/-- The number that a string of digits denotes. -/
def decimalValue (ds : Bytes) : ℕ :=
  ds.foldl (fun acc d => acc * 10 + (d.toNat - 48)) 0

theorem isDigit_of_mem_decimal {n : ℕ} {b : UInt8} (hb : b ∈ decimal n) : isDigit b = true := by
  rw [decimal] at hb
  split at hb
  · obtain rfl : b = 48 := by simpa [ascii] using hb
    decide
  · obtain ⟨d, hd, rfl⟩ := List.mem_map.mp hb
    have hlt : d < 10 := Nat.digits_lt_base (by omega) (List.mem_reverse.mp hd)
    interval_cases d <;> decide

theorem decimal_ne_nil (n : ℕ) : decimal n ≠ [] := by
  rw [decimal]
  split
  · decide
  · next hn => simpa using Nat.digits_ne_nil_iff_ne_zero.mpr hn

/-- Folding digit bytes from the least significant end is Mathlib's `Nat.ofDigits`. -/
private theorem foldr_digitByte (ds : List ℕ) (hds : ∀ d ∈ ds, d < 10) :
    ds.foldr (fun d acc => acc * 10 + ((UInt8.ofNat (48 + d)).toNat - 48)) 0
      = Nat.ofDigits 10 ds := by
  induction ds with
  | nil => rfl
  | cons d ds ih =>
    have hd : (UInt8.ofNat (48 + d)).toNat - 48 = d := by
      have hlt := hds d List.mem_cons_self
      simp only [UInt8.toNat_ofNat']
      omega
    rw [List.foldr_cons, ih fun e he => hds e (List.mem_cons_of_mem d he), hd, Nat.ofDigits_cons]
    ring

/-- A numeral denotes the number it was printed from. -/
@[simp] theorem decimalValue_decimal (n : ℕ) : decimalValue (decimal n) = n := by
  rw [decimal]
  split
  · next hn => subst hn; decide
  · have hdigits : ∀ d ∈ Nat.digits 10 n, d < 10 := fun _ => Nat.digits_lt_base (by omega)
    rw [decimalValue, List.foldl_map, List.foldl_reverse, foldr_digitByte _ hdigits,
      Nat.ofDigits_digits]

theorem decimal_injective : Function.Injective decimal := by
  intro m n h
  rw [← decimalValue_decimal m, h, decimalValue_decimal]

/-! ## A numeral and what follows it -/

section Split

variable {c : UInt8} (hc : isDigit c = false)
include hc

theorem takeWhile_isDigit_decimal (n : ℕ) (rest : Bytes) :
    (decimal n ++ c :: rest).takeWhile isDigit = decimal n := by
  rw [List.takeWhile_append_of_pos fun _ => isDigit_of_mem_decimal]
  simp [hc]

theorem dropWhile_isDigit_decimal (n : ℕ) (rest : Bytes) :
    (decimal n ++ c :: rest).dropWhile isDigit = c :: rest := by
  rw [List.dropWhile_append_of_pos fun _ => isDigit_of_mem_decimal]
  simp [hc]

/-- The numeral, and so the number, can be told from the text that follows the separator. -/
theorem decimal_append_inj {m n : ℕ} {s t : Bytes} :
    decimal m ++ c :: s = decimal n ++ c :: t ↔ m = n ∧ s = t := by
  constructor
  · intro h
    have hhead := congrArg (List.takeWhile isDigit) h
    rw [takeWhile_isDigit_decimal hc, takeWhile_isDigit_decimal hc] at hhead
    have htail := congrArg (List.dropWhile isDigit) h
    rw [dropWhile_isDigit_decimal hc, dropWhile_isDigit_decimal hc] at htail
    exact ⟨decimal_injective hhead, (List.cons.inj htail).2⟩
  · rintro ⟨rfl, rfl⟩
    rfl

end Split

/-! ## The order of numerals -/

theorem decimal_length_mono {m n : ℕ} (hle : m ≤ n) :
    (decimal m).length ≤ (decimal n).length := by
  by_cases hm : m = 0
  · have hone : (decimal m).length = 1 := by
      rw [hm]
      decide
    rw [hone]
    exact List.length_pos_of_ne_nil (decimal_ne_nil n)
  · have hn : n ≠ 0 := by omega
    rw [decimal, decimal, if_neg hm, if_neg hn, List.length_map, List.length_map,
      List.length_reverse, List.length_reverse]
    exact Nat.le_length_digits_le 10 m n hle

/-- A smaller number in front keeps a string of digits below another one of its length. -/
private theorem foldl_digits_lt {xs ys : Bytes} (hlen : xs.length = ys.length)
    (hxs : ∀ b ∈ xs, isDigit b = true) {acc acc' : ℕ} (hacc : acc < acc') :
    xs.foldl (fun acc d => acc * 10 + (d.toNat - 48)) acc
      < ys.foldl (fun acc d => acc * 10 + (d.toNat - 48)) acc' := by
  induction xs generalizing ys acc acc' with
  | nil =>
    obtain rfl := List.length_eq_zero_iff.mp hlen.symm
    exact hacc
  | cons x xs ih =>
    obtain ⟨y, ys, rfl⟩ := List.exists_cons_of_length_eq_add_one hlen.symm
    have hx := hxs x List.mem_cons_self
    simp only [isDigit, Bool.and_eq_true, decide_eq_true_eq] at hx
    rw [List.foldl_cons, List.foldl_cons]
    exact ih (by simpa using hlen) (fun b hb => hxs b (List.mem_cons_of_mem x hb)) (by omega)

/-- Strings of equally many digits are ordered as the numbers they denote. -/
private theorem foldl_digits_le {xs ys s t : Bytes} (hlen : xs.length = ys.length)
    (hxs : ∀ b ∈ xs, isDigit b = true) (hys : ∀ b ∈ ys, isDigit b = true)
    (hlt : xs ++ s < ys ++ t) (acc : ℕ) :
    xs.foldl (fun acc d => acc * 10 + (d.toNat - 48)) acc
      ≤ ys.foldl (fun acc d => acc * 10 + (d.toNat - 48)) acc := by
  induction xs generalizing ys acc with
  | nil =>
    obtain rfl := List.length_eq_zero_iff.mp hlen.symm
    exact le_refl _
  | cons x xs ih =>
    obtain ⟨y, ys, rfl⟩ := List.exists_cons_of_length_eq_add_one hlen.symm
    have hxs' := fun b hb => hxs b (List.mem_cons_of_mem x hb)
    have hys' := fun b hb => hys b (List.mem_cons_of_mem y hb)
    rw [List.cons_append, List.cons_append, List.cons_lt_cons_iff] at hlt
    rw [List.foldl_cons, List.foldl_cons]
    rcases hlt with hxy | ⟨rfl, hlt⟩
    · have hx := hxs x List.mem_cons_self
      have hy := hys y List.mem_cons_self
      simp only [isDigit, Bool.and_eq_true, decide_eq_true_eq] at hx hy
      rw [UInt8.lt_iff_toNat_lt] at hxy
      exact (foldl_digits_lt (by simpa using hlen) hxs' (by omega)).le
    · exact ih (by simpa using hlen) hxs' hys' hlt _

/-- **Numerals in the order of byte strings.** Of two numbers whose numerals, with whatever follows
them, stand in this order, the first is the smaller one unless it has more digits. -/
theorem lt_iff_decimal_length_le {m n : ℕ} {s t : Bytes} (hne : m ≠ n)
    (hlt : decimal m ++ s < decimal n ++ t) :
    m < n ↔ (decimal m).length ≤ (decimal n).length := by
  constructor
  · intro h
    exact decimal_length_mono h.le
  · intro hlen
    rcases Nat.lt_or_ge m n with h | h
    · exact h
    · have hdigits : (decimal m).length = (decimal n).length :=
        le_antisymm hlen (decimal_length_mono h)
      have hle := foldl_digits_le hdigits (fun _ => isDigit_of_mem_decimal)
        (fun _ => isDigit_of_mem_decimal) hlt 0
      rw [← decimalValue, ← decimalValue, decimalValue_decimal, decimalValue_decimal] at hle
      exact absurd (le_antisymm hle h) hne

example : decimal 18446744073709551615 = ascii "18446744073709551615" := by decide

end BenchLx
