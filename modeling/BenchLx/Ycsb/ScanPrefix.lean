import BenchLx.Ycsb.ScanBudget

/-!
# Where a scan stops

A scan returns the first ones of the fields that it selects. A longer scan goes on where a shorter
one stops (`scanLoop_isPrefix`, on any store), and on a store of packed keys every unit of the
length is spent on a record of its own, so no scan stops before it has seen as many records as its
length says (`scanLength_le_of_scanned_ne`).
-/

namespace BenchLx.Ycsb

/-! ## Two lengths -/

theorem takeField_congr {pkg pkg' : Package} (hpairs : pkg.kvPairs = pkg'.kvPairs) :
    takeField pkg = takeField pkg' := by
  funext field
  rw [takeField, takeField, hpairs]

/-- A scan loop only appends to what it has taken. -/
theorem scanLoop_extends {pkg : Package} {entries : List (Bytes × Bytes)} {rem lastKey : UInt64}
    {res vals : List (Bytes × Bytes)} (h : scanLoop pkg entries rem lastKey res = .ok vals) :
    res <+: vals := by
  induction entries generalizing rem lastKey res with
  | nil =>
    cases h
    exact List.prefix_refl _
  | cons entry entries ih =>
    rw [scanLoop] at h
    by_cases hrem : rem > 0
    · rw [if_pos hrem] at h
      obtain ⟨pair, -, h⟩ := bind_eq_ok.mp h
      split at h
      · split at h
        · exact (List.prefix_append _ _).trans (ih h)
        · exact ih h
      · exact ih h
    · rw [if_neg hrem] at h
      cases h
      exact List.prefix_refl _

theorem sub_one_le_sub_one {a b : UInt64} (ha : a > 0) (hle : a ≤ b) : a - 1 ≤ b - 1 := by
  rw [UInt64.le_iff_toNat_le] at hle ⊢
  rw [gt_iff_lt, UInt64.lt_iff_toNat_lt, UInt64.toNat_zero] at ha
  have hone : ∀ c : UInt64, a.toNat ≤ c.toNat → (c - 1).toNat = c.toNat - 1 := by
    intro c hc
    have h1 : (1 : UInt64) ≤ c := by
      rw [UInt64.le_iff_toNat_le, UInt64.toNat_one]
      omega
    rw [UInt64.toNat_sub_of_le _ _ h1, UInt64.toNat_one]
  rw [hone a (le_refl _), hone b hle]
  omega

/-- **Lockstep.** Two scan loops that differ in the budget only go the same way until the smaller
budget is used up; what the larger one takes after that comes behind. -/
theorem scanLoop_isPrefix {pkg pkg' : Package} (hkey : pkg.key = pkg'.key)
    (hpairs : pkg.kvPairs = pkg'.kvPairs) {entries : List (Bytes × Bytes)}
    {rem rem' lastKey : UInt64} (hle : rem ≤ rem') {res vals vals' : List (Bytes × Bytes)}
    (h : scanLoop pkg entries rem lastKey res = .ok vals)
    (h' : scanLoop pkg' entries rem' lastKey res = .ok vals') : vals <+: vals' := by
  induction entries generalizing rem rem' lastKey res with
  | nil =>
    cases h
    cases h'
    exact List.prefix_refl _
  | cons entry entries ih =>
    by_cases hrem : rem > 0
    · have hrem' : rem' > 0 := UInt64.lt_of_lt_of_le hrem hle
      rw [scanLoop, if_pos hrem] at h
      rw [scanLoop, if_pos hrem', ← hkey, ← takeField_congr hpairs] at h'
      obtain ⟨pair, hunpack, h⟩ := bind_eq_ok.mp h
      rw [hunpack, ok_bind] at h'
      by_cases hstart : pair.1 ≥ pkg.key
      · rw [if_pos hstart] at h h'
        by_cases htake : takeField pkg pair.2 = true
        · rw [if_pos htake] at h h'
          refine ih ?_ h h'
          split
          · exact sub_one_le_sub_one hrem hle
          · exact hle
        · rw [if_neg htake] at h h'
          exact ih hle h h'
      · rw [if_neg hstart] at h h'
        exact ih hle h h'
    · -- the smaller budget is used up
      rw [scanLoop, if_neg hrem] at h
      cases h
      exact scanLoop_extends h'

/-- **A longer scan returns what a shorter one returns, and goes on.** On every store, for every
start key and list of field names, and for two lengths for which the scan returns. -/
theorem execScan_isPrefix_of_length_le (db : DB) (pkg : Package) (n m : UInt64) (hle : n ≤ m)
    (vals vals' : List (Bytes × Bytes)) (h : execScan db { pkg with scanLength := n } = .ok vals)
    (h' : execScan db { pkg with scanLength := m } = .ok vals') : vals <+: vals' :=
  @scanLoop_isPrefix { pkg with scanLength := n } { pkg with scanLength := m } rfl rfl _ _ _ _ hle
    _ _ _ h h'

/-- Scans of one and of two records over three. -/
theorem execScan_isPrefix_of_length_one_two :
    ∃ e', (LevelDBExecutor.create SortedMap.empty).run
        [(⟨1, 0, 1, 1, 0, [(ascii "0", ascii "a")]⟩, ⟨0, 0⟩),
          (⟨1, 0, 1, 2, 0, [(ascii "0", ascii "b")]⟩, ⟨0, 0⟩),
          (⟨1, 0, 1, 3, 0, [(ascii "0", ascii "c")]⟩, ⟨0, 0⟩)] = .ok e' ∧
      ∃ vals vals', execScan e'.db ⟨4, 0, 0, 1, 1, []⟩ = .ok vals ∧
        execScan e'.db ⟨4, 0, 0, 1, 2, []⟩ = .ok vals' ∧ vals <+: vals' := by
  obtain ⟨e', hrun, vals, vals', h, h'⟩ :
      ∃ e', (LevelDBExecutor.create SortedMap.empty).run
          [(⟨1, 0, 1, 1, 0, [(ascii "0", ascii "a")]⟩, ⟨0, 0⟩),
            (⟨1, 0, 1, 2, 0, [(ascii "0", ascii "b")]⟩, ⟨0, 0⟩),
            (⟨1, 0, 1, 3, 0, [(ascii "0", ascii "c")]⟩, ⟨0, 0⟩)] = .ok e' ∧
        ∃ vals vals', execScan e'.db ⟨4, 0, 0, 1, 1, []⟩ = .ok vals ∧
          execScan e'.db ⟨4, 0, 0, 1, 2, []⟩ = .ok vals' :=
    ⟨_, rfl, [(ascii "field0", ascii "a"), (ascii "field0", ascii "b")], _, rfl, rfl⟩
  exact ⟨e', hrun, vals, vals', h, h',
    execScan_isPrefix_of_length_le e'.db ⟨4, 0, 0, 1, 0, []⟩ 1 2 (by decide) vals vals' h h'⟩

/-! ## The records behind a length -/

/-- The fields that a scan selects, in the order of the store, from where its iterator starts. -/
def selectedFields (db : DB) (pkg : Package) : List Field :=
  (visited db pkg).filter (selects pkg)

theorem recordCount_mono {fs gs : List Field} (hsub : fs ⊆ gs) :
    recordCount fs ≤ recordCount gs := by
  apply Finset.card_le_card
  intro k hk
  rw [List.mem_toFinset] at hk ⊢
  exact List.map_subset _ hsub hk

/-- Every unit is spent on a record of its own. -/
theorem scanCost_le_recordCount {pkg : Package} {fs : List Field}
    (hsorted : fs.Pairwise fun f g => f.packed < g.packed) :
    scanCost pkg fs ≤ recordCount (fs.filter (selects pkg)) := by
  induction fs using List.reverseRecOn with
  | nil => exact Nat.zero_le _
  | append_singleton fs m ih =>
    have hle := ih (List.pairwise_append.mp hsorted).1
    rw [scanCost] at hle ⊢
    rw [Budget.cost_append, Budget.cost, Budget.cost]
    by_cases hcharge : (selects pkg m && chargesField (Budget.lastMark Field.key fs 0) m) = true
    · obtain ⟨hsel, hcharge'⟩ := Bool.and_eq_true_iff.mp hcharge
      have hnew := key_ne_of_charges hsorted hcharge'
      rw [if_pos hcharge, List.filter_append, List.filter_cons_of_pos hsel, List.filter_nil,
        recordCount_concat fun f hf => hnew f (List.mem_filter.mp hf).1]
      omega
    · rw [if_neg hcharge]
      apply hle.trans
      apply recordCount_mono
      rw [List.filter_append]
      exact List.subset_append_left _ _

/-- A scan that leaves a selected field out has seen as many records as its length says. -/
theorem scanLength_le_of_scanned_ne {db : DB} (hdb : ∀ entry ∈ db.entries, Stored entry)
    {pkg : Package} (hne : scanned db pkg ≠ selectedFields db pkg) :
    pkg.scanLength.toNat ≤ recordCount (scanned db pkg) := by
  by_cases hzero : pkg.scanLength.toNat = 0
  · rw [hzero]
    exact Nat.zero_le _
  have hcost : pkg.scanLength.toNat ≤ scanCost pkg (visited db pkg) := by
    by_contra hlt
    exact hne (Budget.take_of_cost_lt _ _ _ (not_le.mp hlt))
  obtain ⟨pre, m, post, hsplit, hpre, hsel, hcharge⟩ :=
    Budget.exists_of_le_cost (selects pkg) chargesField Field.key (by omega) hcost
  have htaken : scanned db pkg = pre.filter (selects pkg) ++ [m] := by
    rw [scanned, hsplit]
    exact Budget.take_of_cost_eq _ _ _ hpre hsel hcharge
  have hsorted := visited_sorted hdb pkg
  rw [hsplit] at hsorted
  have hnew := key_ne_of_charges hsorted hcharge
  have hle := @scanCost_le_recordCount pkg _ (List.pairwise_append.mp hsorted).1
  rw [htaken, recordCount_concat fun f hf => hnew f (List.mem_filter.mp hf).1]
  rw [scanCost] at hle
  omega

/-- **A scan never stops early.** On every store that packages can build from the empty one and for
every package on which the scan returns: the pairs returned are those of the first fields that the
scan selects, in the order of the store; and when it leaves one out, the fields it returns belong to
at least as many records as its length says. -/
theorem execScan_never_stops_early (reqs : List (Package × Cycles)) (e e' : LevelDBExecutor)
    (pkg : Package) (vals : List (Bytes × Bytes)) (hempty : e.db = SortedMap.empty)
    (hrun : e.run reqs = .ok e') (hscan : execScan e'.db pkg = .ok vals) :
    ∃ fs : List Field, vals = fs.map Field.pair ∧ fs <+: selectedFields e'.db pkg ∧
      (selectedFields e'.db pkg).Pairwise (fun f g => f.packed < g.packed) ∧
      (fs ≠ selectedFields e'.db pkg → pkg.scanLength.toNat ≤ recordCount fs) := by
  have hdb := stored_of_run hempty hrun
  exact ⟨scanned e'.db pkg, execScan_eq_scanned hdb hscan, Budget.take_isPrefix _ _ _ _ _ _,
    (visited_sorted hdb pkg).filter _, scanLength_le_of_scanned_ne hdb⟩

/-- A scan of length 1 over three records leaves the last one out. -/
theorem execScan_never_stops_early_one :
    ∃ e', (LevelDBExecutor.create SortedMap.empty).run
        [(⟨1, 0, 1, 1, 0, [(ascii "0", ascii "a")]⟩, ⟨0, 0⟩),
          (⟨1, 0, 1, 2, 0, [(ascii "0", ascii "b")]⟩, ⟨0, 0⟩),
          (⟨1, 0, 1, 3, 0, [(ascii "0", ascii "c")]⟩, ⟨0, 0⟩)] = .ok e' ∧
      ∃ fs : List Field, [(ascii "field0", ascii "a"), (ascii "field0", ascii "b")]
          = fs.map Field.pair ∧ fs ≠ selectedFields e'.db ⟨4, 0, 0, 1, 1, []⟩ ∧
        1 ≤ recordCount fs := by
  obtain ⟨e', hrun, hscan, hthree⟩ :
      ∃ e', (LevelDBExecutor.create SortedMap.empty).run
          [(⟨1, 0, 1, 1, 0, [(ascii "0", ascii "a")]⟩, ⟨0, 0⟩),
            (⟨1, 0, 1, 2, 0, [(ascii "0", ascii "b")]⟩, ⟨0, 0⟩),
            (⟨1, 0, 1, 3, 0, [(ascii "0", ascii "c")]⟩, ⟨0, 0⟩)] = .ok e' ∧
        execScan e'.db ⟨4, 0, 0, 1, 1, []⟩
          = .ok [(ascii "field0", ascii "a"), (ascii "field0", ascii "b")] ∧
        (selectedFields e'.db ⟨4, 0, 0, 1, 1, []⟩).length = 3 :=
    ⟨_, rfl, rfl, by decide⟩
  obtain ⟨fs, hvals, -, -, hstop⟩ := execScan_never_stops_early _
    (LevelDBExecutor.create SortedMap.empty) e' ⟨4, 0, 0, 1, 1, []⟩ _ rfl hrun hscan
  refine ⟨e', hrun, fs, hvals, ?_⟩
  have hne : fs ≠ selectedFields e'.db ⟨4, 0, 0, 1, 1, []⟩ := by
    intro heq
    have hlen := congrArg List.length hvals
    rw [List.length_map, heq, hthree] at hlen
    cases hlen
  exact ⟨hne, hstop hne⟩

end BenchLx.Ycsb
