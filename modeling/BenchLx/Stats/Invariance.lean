import BenchLx.Stats.Statistics

/-!
# What the statistics do not depend on

Behind the first two measurements, which are thrown away, their order makes no difference, not even
when the operations on words wrap around (`report_perm`). A constant that is part of every
measurement, such as the time to read the cycle counter, is part of the average and of nothing else,
as long as the sum fits (`report_overhead`).
-/

namespace BenchLx.Stats

variable {sqrt : UInt64 → UInt64} {xs ys : List UInt64}

/-- The elements that the statistics are about. -/
def used (ys : List UInt64) : List UInt64 := ys.drop firstResult

theorem length_used (ys : List UInt64) : (used ys).length = ys.length - 2 := List.length_drop

/-! ## The statistics of a list -/

theorem avg_ofList (hlen : xs.length < 2 ^ 64) :
    avg (.ofList xs) (UInt64.ofNat xs.length)
      = divide ((used xs).foldl (fun sum x => sum + x) 0) (divisor (UInt64.ofNat xs.length)) := by
  rw [avg, sum, loopFromFirst_ofList hlen]
  rfl

theorem radicand_ofList (hlen : xs.length < 2 ^ 64) (average : UInt64) :
    radicand (.ofList xs) (UInt64.ofNat xs.length) average
      = divide ((used xs).foldl (addSquare average) 0).toUInt64
          (divisor (UInt64.ofNat xs.length)) := by
  rw [radicand, loopFromFirst_ofList hlen]
  rfl

/-- The statistics of a whole list are two folds, each with a division. -/
theorem report_ofList (hlen : xs.length < 2 ^ 64) :
    report sqrt (.ofList xs) (UInt64.ofNat xs.length) = do
      let average ← divide ((used xs).foldl (fun sum x => sum + x) 0)
        (divisor (UInt64.ofNat xs.length))
      let n ← divide ((used xs).foldl (addSquare average) 0).toUInt64
        (divisor (UInt64.ofNat xs.length))
      return (average, sqrt n) := by
  unfold report stddev
  simp only [avg_ofList hlen, radicand_ofList hlen, bind_assoc, pure_bind]

theorem toNat_divisor_of_lt (hmin : 2 ≤ xs.length) (hlen : xs.length < 2 ^ 64) :
    (divisor (UInt64.ofNat xs.length)).toNat = (used xs).length := by
  have hcount : (UInt64.ofNat xs.length).toNat = xs.length := UInt64.toNat_ofNat_of_lt' hlen
  have htwo : (UInt64.ofNat firstResult).toNat = 2 := rfl
  have hle : UInt64.ofNat firstResult ≤ UInt64.ofNat xs.length := by
    rw [UInt64.le_iff_toNat_le, hcount, htwo]
    exact hmin
  rw [divisor, UInt64.toNat_sub_of_le _ _ hle, hcount, htwo, length_used]

/-- With three elements there is something to divide by. -/
theorem divide_divisor (hmin : 3 ≤ xs.length) (hlen : xs.length < 2 ^ 64) (a : UInt64) :
    divide a (divisor (UInt64.ofNat xs.length))
      = .ok (a / divisor (UInt64.ofNat xs.length)) := by
  have hne : divisor (UInt64.ofNat xs.length) ≠ 0 := by
    intro hzero
    have hdivisor := toNat_divisor_of_lt (show 2 ≤ xs.length by omega) hlen
    rw [hzero, UInt64.toNat_zero, length_used] at hdivisor
    omega
  rw [divide, if_neg hne]

/-- The sum of words wraps around. -/
theorem toNat_foldl_mod (xs : List UInt64) (s : UInt64) :
    (xs.foldl (fun sum x => sum + x) s).toNat
      = (s.toNat + (xs.map UInt64.toNat).sum) % 2 ^ 64 := by
  induction xs generalizing s with
  | nil => exact (Nat.mod_eq_of_lt s.toNat_lt).symm
  | cons x xs ih =>
    rw [List.foldl_cons, ih, UInt64.toNat_add, List.map_cons, List.sum_cons, Nat.mod_add_mod,
      Nat.add_assoc]

/-- The sum of words that fits. -/
theorem toNat_foldl (hfits : (xs.map UInt64.toNat).sum < 2 ^ 64) :
    (xs.foldl (fun sum x => sum + x) 0).toNat = (xs.map UInt64.toNat).sum := by
  rw [toNat_foldl_mod, UInt64.toNat_zero, Nat.zero_add, Nat.mod_eq_of_lt hfits]

/-! ## The order -/

theorem addSquare_right_comm (average : UInt64) (s : Int64) (x y : UInt64) :
    addSquare average (addSquare average s x) y = addSquare average (addSquare average s y) x := by
  unfold addSquare
  rw [Int64.add_assoc, Int64.add_assoc, Int64.add_comm (deviation average x * _)]

theorem add_right_comm_word (s x y : UInt64) : s + x + y = s + y + x := by
  rw [UInt64.add_assoc, UInt64.add_assoc, UInt64.add_comm x]

/-- **The order of measurements.** Two arrays of the same length that hold the same elements behind
the first two, in any order, have the same statistics, also when these divide by zero. -/
theorem report_perm (sqrt : UInt64 → UInt64) (xs ys : List UInt64) (hlen : xs.length < 2 ^ 64)
    (hsame : xs.length = ys.length) (hperm : (used xs).Perm (used ys)) :
    report sqrt (.ofList xs) (UInt64.ofNat xs.length)
      = report sqrt (.ofList ys) (UInt64.ofNat ys.length) := by
  have hsum : (used xs).foldl (fun sum x => sum + x) 0
      = (used ys).foldl (fun sum x => sum + x) 0 :=
    hperm.foldl_eq' (fun x _ y _ s => add_right_comm_word s x y) 0
  have hsquares : ∀ average, (used xs).foldl (addSquare average) 0
      = (used ys).foldl (addSquare average) 0 := fun average =>
    hperm.foldl_eq' (fun x _ y _ s => addSquare_right_comm average s x y) 0
  rw [report_ofList hlen, report_ofList (hsame ▸ hlen), hsame, hsum]
  simp only [hsquares]

/-- Three measurements behind two others, in two orders. -/
theorem report_perm_three :
    report id (.ofList [9, 8, 1, 2, 6]) 5 = report id (.ofList [7, 7, 6, 1, 2]) 5 :=
  report_perm id [9, 8, 1, 2, 6] [7, 7, 6, 1, 2] (by decide) rfl (by decide)

/-! ## A constant in every measurement -/

section Overhead

variable (c : UInt64)

theorem used_map : used (xs.map (· + c)) = (used xs).map (· + c) :=
  List.map_drop.symm

theorem deviation_add (average x : UInt64) :
    deviation (average + c) (x + c) = deviation average x := by
  unfold deviation
  -- words form no ring here, so the constant is cancelled by hand
  rw [UInt64.toInt64_add, UInt64.toInt64_add, Int64.sub_eq_iff_eq_add, ← Int64.add_assoc,
    Int64.sub_eq_add_neg, Int64.add_assoc _ (-_), Int64.add_comm (-_), ← Int64.sub_eq_add_neg,
    Int64.sub_self, Int64.add_zero]

/-- The sums of squares are the same. -/
theorem foldl_addSquare_map (average : UInt64) (s : Int64) :
    (ys.map (· + c)).foldl (addSquare (average + c)) s = ys.foldl (addSquare average) s := by
  rw [List.foldl_map]
  refine congrArg (fun body => ys.foldl body s) ?_
  funext s x
  simp only [addSquare, deviation_add]

/-- Without overflow the sum grows by the constant for each element. -/
theorem sum_map_add (hfits : (ys.map UInt64.toNat).sum + ys.length * c.toNat < 2 ^ 64) :
    ((ys.map (· + c)).map UInt64.toNat).sum = (ys.map UInt64.toNat).sum + ys.length * c.toNat := by
  induction ys with
  | nil => simp
  | cons y ys ih =>
    simp only [List.map_cons, List.sum_cons, List.length_cons, Nat.succ_mul] at hfits ⊢
    have hadd : (y + c).toNat = y.toNat + c.toNat := by
      rw [UInt64.toNat_add, Nat.mod_eq_of_lt (by omega)]
    rw [ih (by omega), hadd]
    omega

/-- **A constant overhead.** When each of at least three measurements takes the same time longer and
the sum of those used still fits, the average is larger by this time and the deviation is the
same. -/
theorem report_overhead (sqrt : UInt64 → UInt64) (xs : List UInt64) (c : UInt64)
    (hmin : 3 ≤ xs.length) (hlen : xs.length < 2 ^ 64)
    (hfits : ((used xs).map UInt64.toNat).sum + (used xs).length * c.toNat < 2 ^ 64) :
    ∃ average dev, report sqrt (.ofList xs) (UInt64.ofNat xs.length) = .ok (average, dev) ∧
      (average + c).toNat = average.toNat + c.toNat ∧
      report sqrt (.ofList (xs.map (· + c))) (UInt64.ofNat xs.length)
        = .ok (average + c, dev) := by
  have hdivisor := toNat_divisor_of_lt (show 2 ≤ xs.length by omega) hlen
  have hpos : 0 < (used xs).length := by
    rw [length_used]
    omega
  have hmap : (xs.map (· + c)).length = xs.length := List.length_map _
  have hsum := @toNat_foldl (used xs) (by omega)
  have hsum' := @toNat_foldl ((used xs).map (· + c)) (by rw [sum_map_add c hfits]; omega)
  rw [sum_map_add c hfits, ← hsum] at hsum'
  rw [← hsum] at hfits
  -- the average grows by the constant, as the divisor is the number of elements
  generalize hs : (used xs).foldl (fun sum x => sum + x) 0 = s at hsum' hfits
  generalize hs' : ((used xs).map (· + c)).foldl (fun sum x => sum + x) 0 = s' at hsum'
  have hdiv : (s / divisor (UInt64.ofNat xs.length)).toNat + c.toNat
      = (s' / divisor (UInt64.ofNat xs.length)).toNat := by
    rw [UInt64.toNat_div, UInt64.toNat_div, hdivisor, hsum', Nat.add_mul_div_left _ _ hpos]
  have hlt := (s' / divisor (UInt64.ofNat xs.length)).toNat_lt
  have hadd : (s / divisor (UInt64.ofNat xs.length) + c).toNat
      = (s / divisor (UInt64.ofNat xs.length)).toNat + c.toNat := by
    rw [UInt64.toNat_add, Nat.mod_eq_of_lt (by omega)]
  have haverage : s' / divisor (UInt64.ofNat xs.length)
      = s / divisor (UInt64.ofNat xs.length) + c := by
    rw [← UInt64.toNat_inj, hadd, hdiv]
  have hreport' := @report_ofList sqrt (xs.map (· + c)) (by rwa [hmap])
  rw [hmap, used_map, hs'] at hreport'
  rw [hreport', report_ofList hlen, hs]
  simp only [divide_divisor hmin hlen, ok_bind, haverage, foldl_addSquare_map]
  exact ⟨_, _, rfl, hadd, rfl⟩

end Overhead

/-- Four measurements, each of which takes 100 cycles longer. -/
theorem report_overhead_four :
    report id (.ofList [105, 103, 110, 120]) 4 = .ok (115, 25) := by
  obtain ⟨average, dev, hreport, -, hlonger⟩ :=
    report_overhead id [5, 3, 10, 20] 100 (by decide) (by decide) (by decide)
  have hplain : report id (.ofList [5, 3, 10, 20]) 4 = .ok (15, 25) := by decide
  have hsame : (average, dev) = (15, 25) :=
    Except.ok.inj (hreport.symm.trans hplain)
  obtain ⟨rfl, rfl⟩ := Prod.mk.inj hsame
  exact hlonger

end BenchLx.Stats
