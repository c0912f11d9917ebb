import BenchLx.Common.Words

/-!
# Differences of times

Reference: `timeval_diff`, `timespec_diff`, `timeval_micros` and `timespec_micros` in
`apps/ycsbserver/leveldb.cc`. Both differences are subtractions with a borrow from the seconds, on
64-bit machine words; `borrowDiff` is that subtraction on integers, for any number of units a
second. On times whose microseconds fit into 64 bits no operation on words leaves its range.
-/

namespace BenchLx.Ycsb

/-! ## The functions of the source -/

/-- `struct timeval`. -/
structure Timeval where
  tvSec : Int64
  tvUsec : Int64
deriving DecidableEq, Repr

/-- `struct timespec`. -/
structure Timespec where
  tvSec : Int64
  tvNsec : Int64
deriving DecidableEq, Repr

/-- `timeval_diff`. -/
def timevalDiff (start stop : Timeval) : Timeval :=
  if stop.tvUsec - start.tvUsec < 0 then
    { tvSec := stop.tvSec - start.tvSec - 1
      tvUsec := stop.tvUsec - start.tvUsec + 1000000 }
  else
    { tvSec := stop.tvSec - start.tvSec
      tvUsec := stop.tvUsec - start.tvUsec }

/-- `timespec_diff`. The constant of the borrow is an `unsigned long`, so that sum is unsigned. -/
def timespecDiff (start stop : Timespec) : Timespec :=
  if stop.tvNsec - start.tvNsec < 0 then
    { tvSec := stop.tvSec - start.tvSec - 1
      tvNsec := ((stop.tvNsec - start.tvNsec).toUInt64 + 1000000000).toInt64 }
  else
    { tvSec := stop.tvSec - start.tvSec
      tvNsec := stop.tvNsec - start.tvNsec }

/-- `timeval_micros`. -/
def timevalMicros (tv : Timeval) : UInt64 :=
  tv.tvUsec.toUInt64 + tv.tvSec.toUInt64 * 1000000

/-- `timespec_micros`. -/
def timespecMicros (ts : Timespec) : UInt64 :=
  (ts.tvNsec / 1000).toUInt64 + ts.tvSec.toUInt64 * 1000000

/-! ## Times of any unit -/

/-- A time as seconds and units of a second. -/
abbrev Time := ℤ × ℤ

namespace Time

variable {u : ℤ}

/-- All units of a time, with `u` of them in a second. -/
def total (u : ℤ) (t : Time) : ℤ := t.1 * u + t.2

/-- The seconds are not negative and the units do not make up a second. -/
structure Normal (u : ℤ) (t : Time) : Prop where
  sec_nonneg : 0 ≤ t.1
  sub_nonneg : 0 ≤ t.2
  sub_lt : t.2 < u

/-- The difference of two times, with a borrow from the seconds. -/
def borrowDiff (u : ℤ) (start stop : Time) : Time :=
  if stop.2 - start.2 < 0 then (stop.1 - start.1 - 1, stop.2 - start.2 + u)
  else (stop.1 - start.1, stop.2 - start.2)

theorem total_borrowDiff (start stop : Time) :
    total u (borrowDiff u start stop) = total u stop - total u start := by
  unfold total borrowDiff
  split <;> ring

theorem Normal.borrowDiff {start stop : Time} (hstart : Normal u start) (hstop : Normal u stop)
    (hle : total u start ≤ total u stop) : Normal u (borrowDiff u start stop) := by
  have hu : 0 < u := lt_of_le_of_lt hstart.sub_nonneg hstart.sub_lt
  have hstart_lt := hstart.sub_lt
  have hstart_nonneg := hstart.sub_nonneg
  have hstop_lt := hstop.sub_lt
  have hstop_nonneg := hstop.sub_nonneg
  unfold total at hle
  unfold Time.borrowDiff
  split
  · next hborrow =>
    -- the units of the earlier time are more, so its seconds are fewer
    have hsec : start.1 < stop.1 := by
      apply lt_of_mul_lt_mul_right _ hu.le
      linarith
    exact ⟨by simp only; omega, by simp only; omega, by simp only; omega⟩
  · next hborrow =>
    have hsec : start.1 < stop.1 + 1 := by
      apply lt_of_mul_lt_mul_right _ hu.le
      rw [add_mul]
      linarith
    exact ⟨by simp only; omega, by simp only; omega, by simp only; omega⟩

theorem Normal.total_nonneg {t : Time} (h : Normal u t) : 0 ≤ total u t := by
  have hu : 0 < u := lt_of_le_of_lt h.sub_nonneg h.sub_lt
  exact add_nonneg (mul_nonneg h.sec_nonneg hu.le) h.sub_nonneg

end Time

/-! ## The functions on normal times -/

/-- The seconds of a difference with a borrow. -/
theorem toInt_sub_sub_one {a b : Int64} (ha : 0 ≤ a.toInt) (hb : 0 ≤ b.toInt) :
    (a - b - 1).toInt = a.toInt - b.toInt - 1 := by
  have hb' := b.toInt_lt
  have ha' := a.toInt_lt
  have hone : (1 : Int64).toInt = 1 := rfl
  rw [Int64.toInt_sub, toInt_sub_of_nonneg ha hb, hone]
  exact Int.bmod_eq_of_le (by omega) (by omega)

/-- The units of a difference with a borrow of `u`. -/
theorem toInt_sub_add {a b w : Int64} (ha : 0 ≤ a.toInt) (hb : 0 ≤ b.toInt) {u : ℤ}
    (hu : w.toInt = u) (hnonneg : 0 ≤ u) (hneg : a.toInt - b.toInt < 0) :
    (a - b + w).toInt = a.toInt - b.toInt + u := by
  have hb' := b.toInt_lt
  have hw' := w.toInt_lt
  rw [Int64.toInt_add, toInt_sub_of_nonneg ha hb, hu]
  exact Int.bmod_eq_of_le (by omega) (by omega)

/-- The subtraction with a borrow on words, of normal times with as many units a second as `w`
says. -/
theorem Time.borrowDiff_toInt {u : ℤ} {w : Int64} (hu : w.toInt = u) {sec sub sec' sub' : Int64}
    (hstart : Normal u (sec.toInt, sub.toInt)) (hstop : Normal u (sec'.toInt, sub'.toInt)) :
    (if sub' - sub < 0 then ((sec' - sec - 1).toInt, (sub' - sub + w).toInt)
      else ((sec' - sec).toInt, (sub' - sub).toInt))
      = Time.borrowDiff u (sec.toInt, sub.toInt) (sec'.toInt, sub'.toInt) := by
  have hunits : 0 ≤ u := hstart.sub_nonneg.trans hstart.sub_lt.le
  have hsub := toInt_sub_of_nonneg hstop.sub_nonneg hstart.sub_nonneg
  have hborrow : sub' - sub < 0 ↔ sub'.toInt - sub.toInt < 0 := by
    rw [Int64.lt_iff_toInt_lt, hsub]
    rfl
  unfold Time.borrowDiff
  by_cases hneg : sub'.toInt - sub.toInt < 0
  · rw [if_pos (hborrow.mpr hneg), if_pos hneg,
      toInt_sub_sub_one hstop.sec_nonneg hstart.sec_nonneg,
      toInt_sub_add hstop.sub_nonneg hstart.sub_nonneg hu hunits hneg]
  · rw [if_neg (mt hborrow.mp hneg), if_neg hneg,
      toInt_sub_of_nonneg hstop.sec_nonneg hstart.sec_nonneg, hsub]

/-- The sum of microseconds and seconds, when it fits. -/
theorem toNat_micros {sec micros : Int64} (hsec : 0 ≤ sec.toInt) (hmicros : 0 ≤ micros.toInt)
    (hfits : sec.toInt * 1000000 + micros.toInt < 2 ^ 64) :
    ((micros.toUInt64 + sec.toUInt64 * 1000000).toNat : ℤ)
      = sec.toInt * 1000000 + micros.toInt := by
  have hsec' := toNat_toUInt64 hsec
  have hmicros' := toNat_toUInt64 hmicros
  have hlt : micros.toUInt64.toNat + sec.toUInt64.toNat * 1000000 < 2 ^ 64 := by omega
  have hmillion : (1000000 : UInt64).toNat = 1000000 := rfl
  rw [UInt64.toNat_add, UInt64.toNat_mul, hmillion, Nat.add_mod_mod, Nat.mod_eq_of_lt hlt]
  omega

/-- `timeval` and `timespec` values as times. -/
def Timeval.time (tv : Timeval) : Time := (tv.tvSec.toInt, tv.tvUsec.toInt)

def Timespec.time (ts : Timespec) : Time := (ts.tvSec.toInt, ts.tvNsec.toInt)

section Timeval

variable {start stop : Timeval} (hstart : start.time.Normal 1000000)
  (hstop : stop.time.Normal 1000000)
include hstart hstop

theorem timevalDiff_time :
    (timevalDiff start stop).time = Time.borrowDiff 1000000 start.time stop.time := by
  rw [timevalDiff, apply_ite Timeval.time]
  exact Time.borrowDiff_toInt rfl hstart hstop

theorem normal_timevalDiff (hle : start.time.total 1000000 ≤ stop.time.total 1000000) :
    (timevalDiff start stop).time.Normal 1000000 := by
  rw [timevalDiff_time hstart hstop]
  exact hstart.borrowDiff hstop hle

theorem total_timevalDiff :
    (timevalDiff start stop).time.total 1000000
      = stop.time.total 1000000 - start.time.total 1000000 := by
  rw [timevalDiff_time hstart hstop, Time.total_borrowDiff]

end Timeval

section Timespec

variable {start stop : Timespec} (hstart : start.time.Normal 1000000000)
  (hstop : stop.time.Normal 1000000000)
include hstart hstop

theorem timespecDiff_time :
    (timespecDiff start stop).time = Time.borrowDiff 1000000000 start.time stop.time := by
  -- the unsigned sum is the signed one modulo `2 ^ 64`
  have hwrap : ((stop.tvNsec - start.tvNsec).toUInt64 + 1000000000).toInt64
      = stop.tvNsec - start.tvNsec + 1000000000 := rfl
  rw [timespecDiff, hwrap, apply_ite Timespec.time]
  exact Time.borrowDiff_toInt rfl hstart hstop

theorem normal_timespecDiff (hle : start.time.total 1000000000 ≤ stop.time.total 1000000000) :
    (timespecDiff start stop).time.Normal 1000000000 := by
  rw [timespecDiff_time hstart hstop]
  exact hstart.borrowDiff hstop hle

theorem total_timespecDiff :
    (timespecDiff start stop).time.total 1000000000
      = stop.time.total 1000000000 - start.time.total 1000000000 := by
  rw [timespecDiff_time hstart hstop, Time.total_borrowDiff]

end Timespec

theorem timevalMicros_eq {tv : Timeval} (h : tv.time.Normal 1000000)
    (hfits : tv.time.total 1000000 < 2 ^ 64) :
    ((timevalMicros tv).toNat : ℤ) = tv.time.total 1000000 :=
  toNat_micros h.sec_nonneg h.sub_nonneg hfits

/-- The nanoseconds are rounded down. -/
theorem timespecMicros_eq {ts : Timespec} (h : ts.time.Normal 1000000000)
    (hfits : ts.time.total 1000000000 / 1000 < 2 ^ 64) :
    ((timespecMicros ts).toNat : ℤ) = ts.time.total 1000000000 / 1000 := by
  have hnonneg : 0 ≤ ts.tvNsec.toInt := h.sub_nonneg
  have hdiv : (ts.tvNsec / 1000).toInt = ts.tvNsec.toInt / 1000 := by
    rw [Int64.toInt_div_of_ne_right _ _ (by decide)]
    exact Int.tdiv_eq_ediv_of_nonneg hnonneg
  have hsplit : ts.time.total 1000000000 / 1000
      = ts.tvSec.toInt * 1000000 + (ts.tvNsec / 1000).toInt := by
    rw [hdiv]
    unfold Time.total Timespec.time
    omega
  rw [hsplit] at hfits ⊢
  exact toNat_micros h.sec_nonneg (by omega) hfits

/-- **Differences of times.** For normalised times `a ≤ b ≤ c` whose microseconds fit into 64 bits,
as `timeval` and as `timespec` values: a difference is normalised, and added to the earlier time it
makes the later one; the differences from `a` to `b` and from `b` to `c` add up to the one from `a`
to `c`; and the microseconds of a difference are those elapsed, rounded down in the case of
nanoseconds. -/
theorem time_differences :
    (∀ a b c : Timeval, a.time.Normal 1000000 → b.time.Normal 1000000 → c.time.Normal 1000000 →
      a.time.total 1000000 ≤ b.time.total 1000000 → b.time.total 1000000 ≤ c.time.total 1000000 →
      c.time.total 1000000 < 2 ^ 64 →
      (timevalDiff a b).time.Normal 1000000 ∧
      a.time.total 1000000 + (timevalDiff a b).time.total 1000000 = b.time.total 1000000 ∧
      (timevalDiff a b).time.total 1000000 + (timevalDiff b c).time.total 1000000
        = (timevalDiff a c).time.total 1000000 ∧
      ((timevalMicros (timevalDiff a b)).toNat : ℤ)
        = b.time.total 1000000 - a.time.total 1000000) ∧
    (∀ a b c : Timespec, a.time.Normal 1000000000 → b.time.Normal 1000000000 →
      c.time.Normal 1000000000 → a.time.total 1000000000 ≤ b.time.total 1000000000 →
      b.time.total 1000000000 ≤ c.time.total 1000000000 →
      c.time.total 1000000000 / 1000 < 2 ^ 64 →
      (timespecDiff a b).time.Normal 1000000000 ∧
      a.time.total 1000000000 + (timespecDiff a b).time.total 1000000000
        = b.time.total 1000000000 ∧
      (timespecDiff a b).time.total 1000000000 + (timespecDiff b c).time.total 1000000000
        = (timespecDiff a c).time.total 1000000000 ∧
      ((timespecMicros (timespecDiff a b)).toNat : ℤ)
        = (b.time.total 1000000000 - a.time.total 1000000000) / 1000) := by
  constructor
  · intro a b c ha hb hc hab hbc hfits
    have hnormal := normal_timevalDiff ha hb hab
    have htotal := total_timevalDiff ha hb
    have ha_nonneg := ha.total_nonneg
    refine ⟨hnormal, ?_, ?_, ?_⟩
    · rw [htotal]
      ring
    · rw [htotal, total_timevalDiff hb hc, total_timevalDiff ha hc]
      ring
    · rw [timevalMicros_eq hnormal (by rw [htotal]; omega), htotal]
  · intro a b c ha hb hc hab hbc hfits
    have hnormal := normal_timespecDiff ha hb hab
    have htotal := total_timespecDiff ha hb
    have ha_nonneg := ha.total_nonneg
    refine ⟨hnormal, ?_, ?_, ?_⟩
    · rw [htotal]
      ring
    · rw [htotal, total_timespecDiff hb hc, total_timespecDiff ha hc]
      ring
    · rw [timespecMicros_eq hnormal (by rw [htotal]; omega), htotal]

/-- Differences with a borrow: from 1.9 s to 3.2 s, and to 3.2 s and 999 ns. -/
theorem time_differences_borrow :
    (timevalMicros (timevalDiff ⟨1, 900000⟩ ⟨3, 200000⟩)).toNat = (1300000 : ℤ) ∧
      (timespecMicros (timespecDiff ⟨1, 900000000⟩ ⟨3, 200000999⟩)).toNat = (1300000 : ℤ) := by
  obtain ⟨hval, hspec⟩ := time_differences
  constructor
  · obtain ⟨-, -, -, h⟩ := hval ⟨1, 900000⟩ ⟨3, 200000⟩ ⟨3, 200000⟩
      ⟨by decide, by decide, by decide⟩ ⟨by decide, by decide, by decide⟩
      ⟨by decide, by decide, by decide⟩ (by decide) (by decide) (by decide)
    rw [h]
    decide
  · obtain ⟨-, -, -, h⟩ := hspec ⟨1, 900000000⟩ ⟨3, 200000999⟩ ⟨3, 200000999⟩
      ⟨by decide, by decide, by decide⟩ ⟨by decide, by decide, by decide⟩
      ⟨by decide, by decide, by decide⟩ (by decide) (by decide) (by decide)
    rw [h]
    decide

end BenchLx.Ycsb
