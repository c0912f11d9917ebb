import BenchLx.Common.Memory

/-!
# The statistics of the benchmarks

Reference: `sum`, `avg` and `stddev` in `include/common.h`. The first `FIRST_RESULT` elements of an
array are thrown away, so both functions loop over the others and divide by their number
(`prints_iff`).
-/

namespace BenchLx.Stats

/-- `FIRST_RESULT`. -/
def firstResult : ℕ := 2

/-- What the statistics must not do: divide by zero, or read an element that has not been
written. -/
inductive Fault
  | divisionByZero
  | notWritten (i : ℕ)
deriving DecidableEq, Repr

/-- An array of cycle counts: the elements that have been written. -/
abbrev Vals := ℤ → Option UInt64

namespace Vals

/-- The array before anything is written to it. -/
def unwritten : Vals := fun _ => none

/-- The assignment `vals[i] = x`. -/
def set (vals : Vals) (i : ℤ) (x : UInt64) : Vals := Function.update vals i (some x)

/-- The value `vals[i]`. -/
def get (vals : Vals) (i : ℕ) : Except Fault UInt64 :=
  match vals i with
  | some x => .ok x
  | none => .error (.notWritten i)

/-- The array whose first elements are `xs`. -/
def ofList (xs : List UInt64) : Vals := fun i => if 0 ≤ i then xs[i.toNat]? else none

end Vals

/-! ## The functions of the source -/

/-- The loop from element `i` on over as many elements as are `left`. -/
def loop {α : Type} (vals : Vals) (body : α → UInt64 → α) : (left i : ℕ) → α → Except Fault α
  | 0, _, a => .ok a
  | left + 1, i, a => do
    let x ← vals.get i
    loop vals body left (i + 1) (body a x)

/-- The loop `for(i = FIRST_RESULT; i < count; ++i)`. -/
def loopFromFirst {α : Type} (vals : Vals) (count : UInt64) (body : α → UInt64 → α) (a : α) :
    Except Fault α :=
  loop vals body (count.toNat - firstResult) firstResult a

/-- A division of words. -/
def divide (a b : UInt64) : Except Fault UInt64 :=
  if b = 0 then .error .divisionByZero else .ok (a / b)

/-- `count - FIRST_RESULT`. -/
def divisor (count : UInt64) : UInt64 := count - UInt64.ofNat firstResult

/-- `sum`. -/
def sum (vals : Vals) (count : UInt64) : Except Fault UInt64 :=
  loopFromFirst vals count (fun sum x => sum + x) 0

/-- `avg`. -/
def avg (vals : Vals) (count : UInt64) : Except Fault UInt64 := do
  let s ← sum vals count
  divide s (divisor count)

/-- The difference `(long)vals[i] - (long)avg`. -/
def deviation (average x : UInt64) : Int64 := x.toInt64 - average.toInt64

/-- The body of the loop of `stddev`. -/
def addSquare (average : UInt64) (sum : Int64) (x : UInt64) : Int64 :=
  let tmp := deviation average x
  sum + tmp * tmp

/-- The integer that `stddev` passes to `sqrt`. The sum is signed and its divisor is not, so the
division is one of unsigned words. -/
def radicand (vals : Vals) (count average : UInt64) : Except Fault UInt64 := do
  let sum ← loopFromFirst vals count (addSquare average) 0
  divide sum.toUInt64 (divisor count)

/-- `stddev`, over the function that takes the square root of a `double` and cuts it off. -/
def stddev (sqrt : UInt64 → UInt64) (vals : Vals) (count average : UInt64) :
    Except Fault UInt64 := do
  let n ← radicand vals count average
  return sqrt n

/-- What a benchmark prints at its end: the average and the deviation from it. -/
def report (sqrt : UInt64 → UInt64) (vals : Vals) (count : UInt64) :
    Except Fault (UInt64 × UInt64) := do
  let average ← avg vals count
  let dev ← stddev sqrt vals count average
  return (average, dev)

/-! ## When the functions return -/

section Loop

variable {α : Type} {vals : Vals} {body : α → UInt64 → α} {left i : ℕ} {a : α}

theorem Vals.get_of_some {x : UInt64} (h : vals i = some x) : vals.get i = .ok x := by
  rw [Vals.get, h]

theorem Vals.get_of_none (h : vals i = none) : vals.get i = .error (.notWritten i) := by
  rw [Vals.get, h]

/-- A loop returns when all its elements have been written. -/
theorem loop_returns_iff :
    (∃ b, loop vals body left i a = .ok b) ↔ ∀ k, i ≤ k → k < i + left → vals k ≠ none := by
  induction left generalizing i a with
  | zero => exact ⟨fun _ k hik hk => absurd hk (by omega), fun _ => ⟨a, rfl⟩⟩
  | succ left ih =>
    rw [loop]
    cases hx : vals i with
    | none =>
      rw [Vals.get_of_none hx, error_bind]
      constructor
      · rintro ⟨b, hb⟩
        cases hb
      · intro hall
        exact absurd hx (hall i le_rfl (by omega))
    | some x =>
      rw [Vals.get_of_some hx, ok_bind, ih]
      constructor
      · intro hall k hik hk
        rcases Nat.eq_or_lt_of_le hik with rfl | hlt
        · rw [hx]
          exact Option.some_ne_none x
        · exact hall k hlt (by omega)
      · intro hall k hik hk
        exact hall k (by omega) (by omega)

/-- Over a list the loop is a fold over what is left of it. -/
theorem loop_ofList (xs : List UInt64) (i : ℕ) :
    loop (.ofList xs) body (xs.length - i) i a = .ok ((xs.drop i).foldl body a) := by
  generalize hleft : xs.length - i = left
  induction left generalizing i a with
  | zero =>
    rw [List.drop_eq_nil_of_le (by omega)]
    rfl
  | succ left ih =>
    have hi : i < xs.length := by omega
    have hx : Vals.ofList xs i = some xs[i] := by
      rw [Vals.ofList, if_pos (Int.natCast_nonneg i), Int.toNat_natCast,
        List.getElem?_eq_getElem hi]
    rw [loop, Vals.get_of_some hx, ok_bind, ih (i + 1) (by omega), List.drop_eq_getElem_cons hi]
    rfl

end Loop

theorem loopFromFirst_ofList {α : Type} {body : α → UInt64 → α} {a : α} {xs : List UInt64}
    (hlen : xs.length < 2 ^ 64) :
    loopFromFirst (.ofList xs) (UInt64.ofNat xs.length) body a
      = .ok ((xs.drop firstResult).foldl body a) := by
  rw [loopFromFirst, UInt64.toNat_ofNat_of_lt' hlen]
  exact loop_ofList xs firstResult

theorem divisor_eq_zero_iff {count : UInt64} : divisor count = 0 ↔ count = 2 := by
  rw [divisor, UInt64.sub_eq_iff_eq_add, UInt64.zero_add]
  rfl

/-- A loop and the division of its result return when the loop does and the divisor is not 0. -/
theorem divide_returns_iff {α : Type} {x : Except Fault α} {f : α → UInt64} {b : UInt64} :
    (∃ q, (x >>= fun s => divide (f s) b) = .ok q) ↔ (∃ s, x = .ok s) ∧ b ≠ 0 := by
  cases x with
  | error e => simp
  | ok s =>
    rw [ok_bind, divide]
    split
    · next hb => simp [hb]
    · next hb => simp [hb]

/-- The elements that the statistics read have been written. -/
def Written (vals : Vals) (count : UInt64) : Prop :=
  ∀ k : ℕ, firstResult ≤ k → k < count.toNat → vals k ≠ none

section Report

variable {vals : Vals} {count : UInt64}

theorem loopFromFirst_returns_iff {α : Type} {body : α → UInt64 → α} {a : α} :
    (∃ b, loopFromFirst vals count body a = .ok b) ↔ Written vals count := by
  rw [loopFromFirst, loop_returns_iff]
  constructor
  · intro hall k hfirst hk
    exact hall k hfirst (by omega)
  · intro hall k hfirst hk
    exact hall k hfirst (by omega)

theorem avg_returns_iff : (∃ x, avg vals count = .ok x) ↔ Written vals count ∧ count ≠ 2 := by
  unfold avg sum
  rw [divide_returns_iff, loopFromFirst_returns_iff, Ne, divisor_eq_zero_iff]

theorem radicand_returns_iff {average : UInt64} :
    (∃ x, radicand vals count average = .ok x) ↔ Written vals count ∧ count ≠ 2 := by
  unfold radicand
  rw [divide_returns_iff, loopFromFirst_returns_iff, Ne, divisor_eq_zero_iff]

/-- **When the statistics are printed.** All elements but the first two have been written, and there
are not exactly two. -/
theorem prints_iff {sqrt : UInt64 → UInt64} :
    (∃ out, report sqrt vals count = .ok out) ↔ Written vals count ∧ count ≠ 2 := by
  constructor
  · rintro ⟨out, hout⟩
    obtain ⟨average, haverage, -⟩ := bind_eq_ok.mp hout
    exact avg_returns_iff.mp ⟨average, haverage⟩
  · intro h
    obtain ⟨average, haverage⟩ := avg_returns_iff.mpr h
    obtain ⟨n, hn⟩ : ∃ n, radicand vals count average = .ok n := radicand_returns_iff.mpr h
    have hdev : stddev sqrt vals count average = .ok (sqrt n) := bind_eq_ok.mpr ⟨n, hn, rfl⟩
    exact ⟨(average, sqrt n), bind_eq_ok.mpr ⟨average, haverage, bind_eq_ok.mpr ⟨_, hdev, rfl⟩⟩⟩

/-- With exactly two elements the sum over none is divided by zero. -/
theorem report_two (sqrt : UInt64 → UInt64) (vals : Vals) :
    report sqrt vals 2 = .error .divisionByZero := rfl

/-- The third element is the first to be read. -/
theorem report_of_none {sqrt : UInt64 → UInt64} (hnone : vals firstResult = none)
    (hcount : firstResult < count.toNat) :
    report sqrt vals count = .error (.notWritten firstResult) := by
  obtain ⟨left, hleft⟩ := Nat.exists_eq_add_one_of_ne_zero (Nat.sub_ne_zero_of_lt hcount)
  rw [report, avg, sum, loopFromFirst, hleft, loop, Vals.get_of_none hnone]
  rfl

end Report

end BenchLx.Stats
