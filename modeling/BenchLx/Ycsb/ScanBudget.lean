import BenchLx.Common.Budget
import BenchLx.Ycsb.ScanSafety
import Mathlib.Data.Finset.Card

/-!
# What a scan returns

The scan loop takes fields under a budget: a field that is taken costs a unit when the field visited
before it belongs to another record and that record is not 0. It stops after the field that costs
the last unit, so it goes one field too far into one record too many. `wholeRecords_iff` says on
which stores and packages this never shows.
-/

namespace BenchLx.Ycsb

/-! ## Fields of records -/

/-- A stored field: the key of its record, its stored name and its value. -/
structure Field where
  key : UInt64
  name : Bytes
  value : Bytes
deriving DecidableEq, Repr

/-- The field that an entry of the store holds. -/
def fieldOf (entry : Bytes × Bytes) : Field :=
  { key := (extractU64 entry.1).1
    name := ((extractU64 entry.1).2.getD []).drop 1
    value := entry.2 }

/-- The pair that a scan returns for a field. -/
def Field.pair (f : Field) : Bytes × Bytes := (f.name, f.value)

/-- The store key of a field. -/
def Field.packed (f : Field) : Bytes := packKey f.key f.name []

/-- An entry whose key was packed by `exec_insert`. -/
def Stored (entry : Bytes × Bytes) : Prop := ∃ k f, entry.1 = storedKey (k, f)

theorem Stored.fieldOf_eq {entry : Bytes × Bytes} {k : UInt64} {f : Bytes}
    (h : entry.1 = storedKey (k, f)) :
    fieldOf entry = { key := k, name := fieldPrefix ++ f, value := entry.2 } := by
  rw [fieldOf, h, storedKey, extractU64_packKey]
  rfl

/-- The field of a stored entry determines the entry. -/
theorem Stored.packed_fieldOf {entry : Bytes × Bytes} (h : Stored entry) :
    (fieldOf entry).packed = entry.1 := by
  obtain ⟨k, f, hkey⟩ := h
  rw [Stored.fieldOf_eq hkey, hkey]
  exact packKey_eq_storedKey_iff.mpr ⟨rfl, rfl⟩

/-- The fields of one record are neighbours in the store: between two of them stands no field of
another record. -/
theorem key_eq_of_between {a b c : Field} (hab : a.packed < b.packed) (hbc : b.packed < c.packed)
    (hac : a.key = c.key) : b.key = a.key := by
  simp only [Field.packed, packKey_eq, List.nil_append] at hab hbc
  rw [← hac] at hbc
  have hpre : decimal a.key.toNat ++ [47] <+: decimal b.key.toNat ++ 47 :: b.name :=
    prefix_of_between (a := a.name) (c := c.name) (by simpa using hab) (by simpa using hbc)
  obtain ⟨rest, hrest⟩ := hpre
  rw [List.append_assoc, List.singleton_append, decimal_append_inj isDigit_slash] at hrest
  exact UInt64.toNat_inj.mp hrest.1.symm

/-! ## The loop as a budgeted walk -/

/-- The selection of a scan. -/
def selects (pkg : Package) (f : Field) : Bool := takeField pkg f.name

/-- A package that names one field selects no other. -/
theorem name_of_selects {pkg : Package} {pair : Bytes × Bytes} (hpairs : pkg.kvPairs = [pair])
    {f : Field} (hsel : selects pkg f = true) : pair.1 = f.name := by
  simpa [selects, takeField, hpairs] using hsel

/-- A field that is taken costs a unit when the field visited before it belongs to another record;
a field of record 0 counts as none visited. -/
def chargesField (lastKey : UInt64) (f : Field) : Bool := lastKey ≠ 0 && lastKey ≠ f.key

/-- The fields that the iterator of a scan visits, from the start key on. -/
def visited (db : DB) (pkg : Package) : List Field :=
  ((scanEntries db pkg).map fieldOf).filter fun f => pkg.key ≤ f.key

/-- The fields behind the pairs that a scan returns. -/
def scanned (db : DB) (pkg : Package) : List Field :=
  Budget.take (selects pkg) chargesField Field.key (visited db pkg) pkg.scanLength.toNat 0

theorem pos_iff_toNat_ne_zero {rem : UInt64} : rem > 0 ↔ rem.toNat ≠ 0 := by
  rw [gt_iff_lt, UInt64.lt_iff_toNat_lt, UInt64.toNat_zero, Nat.pos_iff_ne_zero]

/-- The budget after a field that is taken. -/
theorem toNat_charge {rem : UInt64} (hrem : rem > 0) (lastKey : UInt64) (f : Field) :
    (if lastKey ≠ 0 ∧ lastKey ≠ f.key then rem - 1 else rem).toNat
      = if chargesField lastKey f then rem.toNat - 1 else rem.toNat := by
  have hone : (1 : UInt64) ≤ rem := by
    have hpos := pos_iff_toNat_ne_zero.mp hrem
    rw [UInt64.le_iff_toNat_le, UInt64.toNat_one]
    omega
  simp only [chargesField, Bool.and_eq_true, decide_eq_true_eq]
  split
  · rw [UInt64.toNat_sub_of_le _ _ hone, UInt64.toNat_one]
  · rfl

/-- A scan loop that returns has taken the fields that the budgeted walk takes. -/
theorem scanLoop_eq {pkg : Package} {entries : List (Bytes × Bytes)}
    (hentries : ∀ entry ∈ entries, Stored entry) {rem lastKey : UInt64}
    {res vals : List (Bytes × Bytes)} (h : scanLoop pkg entries rem lastKey res = .ok vals) :
    vals = res ++ (Budget.take (selects pkg) chargesField Field.key
      ((entries.map fieldOf).filter fun f => pkg.key ≤ f.key) rem.toNat lastKey).map
        Field.pair := by
  induction entries generalizing rem lastKey res with
  | nil =>
    obtain rfl := Except.ok.inj h
    simp [Budget.take]
  | cons entry entries ih =>
    have htail := fun e he => hentries e (List.mem_cons_of_mem entry he)
    obtain ⟨k, f, hkey⟩ := hentries entry List.mem_cons_self
    rw [scanLoop] at h
    by_cases hrem : rem > 0
    · rw [if_pos hrem] at h
      obtain ⟨pair, hunpack, h⟩ := bind_eq_ok.mp h
      rw [hkey, storedKey, unpackKey_packKey] at hunpack
      split at hunpack
      · obtain rfl := Except.ok.inj hunpack
        rw [List.map_cons, Stored.fieldOf_eq hkey]
        by_cases hstart : k ≥ pkg.key
        · rw [if_pos hstart] at h
          rw [List.filter_cons_of_pos (by simpa using hstart), Budget.take,
            if_neg (pos_iff_toNat_ne_zero.mp hrem)]
          by_cases hsel : takeField pkg (fieldPrefix ++ f) = true
          · rw [if_pos hsel] at h
            rw [if_pos (show selects pkg ⟨k, fieldPrefix ++ f, entry.2⟩ = true from hsel),
              ih htail h]
            have hcharge := toNat_charge hrem lastKey ⟨k, fieldPrefix ++ f, entry.2⟩
            simp [hcharge, Field.pair]
          · rw [if_neg hsel] at h
            rw [if_neg (show ¬ selects pkg ⟨k, fieldPrefix ++ f, entry.2⟩ = true from hsel)]
            exact ih htail h
        · rw [if_neg hstart] at h
          rw [List.filter_cons_of_neg (by simpa using hstart)]
          exact ih htail h
      · cases hunpack
    · rw [if_neg hrem] at h
      obtain rfl := Except.ok.inj h
      have hzero : rem.toNat = 0 := by
        by_contra hne
        exact hrem (pos_iff_toNat_ne_zero.mpr hne)
      rw [hzero, Budget.take_zero, List.map_nil, List.append_nil]

/-- A scan over a store of packed keys that returns, returns the fields scanned. -/
theorem execScan_eq_scanned {db : DB} (hdb : ∀ entry ∈ db.entries, Stored entry) {pkg : Package}
    {vals : List (Bytes × Bytes)} (h : execScan db pkg = .ok vals) :
    vals = (scanned db pkg).map Field.pair :=
  scanLoop_eq (fun entry hentry => hdb entry (scanEntries_subset hentry)) h

/-! ## The fields visited -/

theorem mem_visited_iff {db : DB} {pkg : Package} {f : Field} :
    f ∈ visited db pkg ↔
      (∃ entry ∈ scanEntries db pkg, fieldOf entry = f) ∧ pkg.key ≤ f.key := by
  simp [visited, List.mem_filter]

theorem start_le_of_mem_visited {db : DB} {pkg : Package} {f : Field} (hf : f ∈ visited db pkg) :
    pkg.key ≤ f.key :=
  (mem_visited_iff.mp hf).2

theorem of_mem_scanned {db : DB} {pkg : Package} {f : Field} (hf : f ∈ scanned db pkg) :
    f ∈ visited db pkg ∧ selects pkg f = true :=
  List.mem_filter.mp ((Budget.take_isPrefix _ _ _ _ _ _).subset hf)

section Visited

variable {db : DB} (hdb : ∀ entry ∈ db.entries, Stored entry)
include hdb

/-- The fields of a store are in the order of their keys. -/
theorem fields_sorted : (db.entries.map fieldOf).Pairwise fun f g => f.packed < g.packed := by
  rw [List.pairwise_map]
  apply db.sorted.imp_of_mem
  intro a b ha hb hlt
  rw [Stored.packed_fieldOf (hdb a ha), Stored.packed_fieldOf (hdb b hb)]
  exact hlt

/-- A scan visits the fields in the order of their keys. -/
theorem visited_sorted (pkg : Package) :
    (visited db pkg).Pairwise fun f g => f.packed < g.packed :=
  ((fields_sorted hdb).sublist ((scanEntries_sublist db pkg).map _)).filter _

/-- Every selected field of a record of which a selected field is visited is visited. -/
theorem mem_visited_of_selected {pkg : Package} {f g : Field} (hf : f ∈ visited db pkg)
    (hfsel : selects pkg f = true) (hg : g ∈ db.entries.map fieldOf)
    (hgsel : selects pkg g = true) (hkey : g.key = f.key) : g ∈ visited db pkg := by
  obtain ⟨entry, hentry, rfl⟩ := List.mem_map.mp hg
  obtain ⟨⟨entry', hentry', rfl⟩, hstart⟩ := mem_visited_iff.mp hf
  refine mem_visited_iff.mpr ⟨⟨entry, ?_, rfl⟩, hkey ▸ hstart⟩
  cases hpairs : pkg.kvPairs with
  | nil =>
    rw [scanEntries, hpairs]
    exact hentry
  | cons pair rest =>
    cases rest with
    | cons _ _ =>
      rw [scanEntries, hpairs]
      exact hentry
    | nil =>
      -- one name is selected, so the two fields are the same one
      have hpacked : (fieldOf entry).packed = (fieldOf entry').packed := by
        rw [Field.packed, Field.packed, hkey, ← name_of_selects hpairs hgsel,
          ← name_of_selects hpairs hfsel]
      have hmem' := scanEntries_subset hentry'
      rw [Stored.packed_fieldOf (hdb _ hentry), Stored.packed_fieldOf (hdb _ hmem')] at hpacked
      have hval : entry.2 = entry'.2 := by
        have h := (SortedMap.mem_entries_iff db entry.1 entry.2).mp hentry
        have h' := (SortedMap.mem_entries_iff db entry'.1 entry'.2).mp hmem'
        rw [← hpacked, h] at h'
        exact Option.some.inj h'
      rw [Prod.ext hpacked hval]
      exact hentry'

end Visited

section Charged

variable {pre post : List Field} {m : Field}
  (hsorted : (pre ++ m :: post).Pairwise fun f g => f.packed < g.packed)
include hsorted

theorem packed_lt_of_mem_pre {f : Field} (hf : f ∈ pre) : f.packed < m.packed :=
  (List.pairwise_append.mp hsorted).2.2 f hf m List.mem_cons_self

theorem packed_lt_of_mem_post {g : Field} (hg : g ∈ post) : m.packed < g.packed :=
  (List.pairwise_cons.mp (List.pairwise_append.mp hsorted).2.1).1 g hg

variable (hcharge : chargesField (Budget.lastMark Field.key pre 0) m = true)
include hcharge

/-- The record of a field that costs a unit has no field before it. -/
theorem key_ne_of_charges : ∀ f ∈ pre, f.key ≠ m.key := by
  intro f hf hkey
  obtain ⟨hzero, hne⟩ : Budget.lastMark Field.key pre 0 ≠ 0 ∧
      Budget.lastMark Field.key pre 0 ≠ m.key := by
    simpa [chargesField] using hcharge
  obtain ⟨init, last, rfl⟩ : ∃ init last, pre = init ++ [last] :=
    ⟨pre.dropLast, pre.getLast (List.ne_nil_of_mem hf), (List.dropLast_concat_getLast _).symm⟩
  have hmark : Budget.lastMark Field.key (init ++ [last]) 0 = last.key := by
    simp [Budget.lastMark]
  rw [hmark] at hne
  have hlm : last.packed < m.packed := packed_lt_of_mem_pre hsorted (by simp)
  rcases List.mem_append.mp hf with hf | hf
  · have hfl : f.packed < last.packed :=
      (List.pairwise_append.mp (List.pairwise_append.mp hsorted).1).2.2 f hf last (by simp)
    exact hne ((key_eq_of_between hfl hlm hkey).trans hkey)
  · obtain rfl := List.mem_singleton.mp hf
    exact hne hkey

/-- The records before such a field have no field behind it: it would stand between two fields of
one record. -/
theorem key_ne_of_mem_post {f g : Field} (hf : f ∈ pre) (hg : g ∈ post) : g.key ≠ f.key := by
  intro hkey
  have hmkey := key_eq_of_between (packed_lt_of_mem_pre hsorted hf)
    (packed_lt_of_mem_post hsorted hg) hkey.symm
  exact key_ne_of_charges hsorted hcharge f hf hmkey.symm

end Charged

/-! ## When a scan keeps to its length -/

/-- The number of records that fields belong to. -/
def recordCount (fs : List Field) : ℕ := (fs.map Field.key).toFinset.card

/-- The fields come from at most as many records as the scan length says, all from the start key on,
and every record among them has all its selected fields. -/
structure WholeRecords (db : DB) (pkg : Package) (fs : List Field) : Prop where
  count_le : recordCount fs ≤ pkg.scanLength.toNat
  start_le : ∀ f ∈ fs, pkg.key ≤ f.key
  complete : ∀ f ∈ fs, ∀ g ∈ db.entries.map fieldOf, selects pkg g = true → g.key = f.key → g ∈ fs

/-- The units that the fields cost, when they are the first that a scan visits. -/
def scanCost (pkg : Package) (fs : List Field) : ℕ :=
  Budget.cost (selects pkg) chargesField Field.key fs 0

/-- The stores and packages on which a scan keeps to its length: the length is 0; or the fields
visited cost less than it and their records are no more than it; or the field that costs the last
unit is the only selected one of its record and fewer records than the length come before it. -/
def KeepsLength (db : DB) (pkg : Package) : Prop :=
  pkg.scanLength.toNat = 0 ∨
  (scanCost pkg (visited db pkg) < pkg.scanLength.toNat ∧
    recordCount ((visited db pkg).filter (selects pkg)) ≤ pkg.scanLength.toNat) ∨
  ∃ pre m post, visited db pkg = pre ++ m :: post ∧
    scanCost pkg pre + 1 = pkg.scanLength.toNat ∧ selects pkg m = true ∧
    chargesField (Budget.lastMark Field.key pre 0) m = true ∧
    recordCount (pre.filter (selects pkg)) < pkg.scanLength.toNat ∧
    ∀ g ∈ post, selects pkg g = true → g.key ≠ m.key

theorem recordCount_concat {fs : List Field} {m : Field} (hm : ∀ f ∈ fs, f.key ≠ m.key) :
    recordCount (fs ++ [m]) = recordCount fs + 1 := by
  have hnot : m.key ∉ (fs.map Field.key).toFinset := by
    simpa using fun f hf h => hm f hf h
  rw [recordCount, List.map_append, List.toFinset_append, List.map_singleton,
    List.toFinset_cons, List.toFinset_nil, insert_empty_eq, Finset.union_comm,
    ← Finset.insert_eq, Finset.card_insert_of_notMem hnot, recordCount]

section Exact

variable {db : DB} (hdb : ∀ entry ∈ db.entries, Stored entry) {pkg : Package}
include hdb

/-- A scan whose budget lasts keeps to its length when there are no more records than it says. -/
theorem wholeRecords_of_cost_lt (hcost : scanCost pkg (visited db pkg) < pkg.scanLength.toNat) :
    WholeRecords db pkg (scanned db pkg) ↔
      recordCount ((visited db pkg).filter (selects pkg)) ≤ pkg.scanLength.toNat := by
  have hall : scanned db pkg = (visited db pkg).filter (selects pkg) :=
    Budget.take_of_cost_lt _ _ _ hcost
  constructor
  · intro h
    rw [← hall]
    exact h.count_le
  · intro hcount
    refine ⟨by rwa [hall], fun f hf => start_le_of_mem_visited (of_mem_scanned hf).1,
      fun f hf g hg hgsel hkey => ?_⟩
    obtain ⟨hfvis, hfsel⟩ := of_mem_scanned hf
    rw [hall]
    exact List.mem_filter.mpr ⟨mem_visited_of_selected hdb hfvis hfsel hg hgsel hkey, hgsel⟩

/-- A scan whose budget is used up by the field `m` keeps to its length when `m` is all that is
selected of its record and few enough records come before it. -/
theorem wholeRecords_of_cost_eq {pre post : List Field} {m : Field}
    (hsplit : visited db pkg = pre ++ m :: post)
    (hcost : scanCost pkg pre + 1 = pkg.scanLength.toNat) (hsel : selects pkg m = true)
    (hcharge : chargesField (Budget.lastMark Field.key pre 0) m = true) :
    WholeRecords db pkg (scanned db pkg) ↔
      recordCount (pre.filter (selects pkg)) < pkg.scanLength.toNat ∧
        ∀ g ∈ post, selects pkg g = true → g.key ≠ m.key := by
  have htaken : scanned db pkg = pre.filter (selects pkg) ++ [m] := by
    rw [scanned, hsplit]
    exact Budget.take_of_cost_eq _ _ _ hcost hsel hcharge
  have hsorted := visited_sorted hdb pkg
  rw [hsplit] at hsorted
  have hpre := key_ne_of_charges hsorted hcharge
  have hcount : recordCount (pre.filter (selects pkg) ++ [m])
      = recordCount (pre.filter (selects pkg)) + 1 :=
    recordCount_concat fun f hf => hpre f (List.mem_filter.mp hf).1
  constructor
  · intro h
    rw [htaken] at h
    refine ⟨by have := h.count_le; omega, fun g hg hgsel hkey => ?_⟩
    -- a further selected field of the last record has not been taken
    have hgvis : g ∈ visited db pkg := by
      rw [hsplit]
      simp [hg]
    obtain ⟨⟨entry, hentry, rfl⟩, -⟩ := mem_visited_iff.mp hgvis
    have hgtaken := h.complete m (by simp) (fieldOf entry)
      (List.mem_map_of_mem (scanEntries_subset hentry)) hgsel hkey
    rcases List.mem_append.mp hgtaken with hgpre | hgm
    · exact hpre _ (List.mem_filter.mp hgpre).1 hkey
    · have hlt := packed_lt_of_mem_post hsorted hg
      rw [List.mem_singleton.mp hgm] at hlt
      exact absurd hlt (lt_irrefl _)
  · intro ⟨hlt, hpost⟩
    refine ⟨by rw [htaken]; omega, fun f hf => start_le_of_mem_visited (of_mem_scanned hf).1,
      fun f hf g hg hgsel hkey => ?_⟩
    obtain ⟨hfvis, hfsel⟩ := of_mem_scanned hf
    have hgvis := mem_visited_of_selected hdb hfvis hfsel hg hgsel hkey
    rw [hsplit, List.mem_append, List.mem_cons] at hgvis
    rw [htaken] at hf ⊢
    rcases hgvis with hgpre | rfl | hgpost
    · exact List.mem_append_left _ (List.mem_filter.mpr ⟨hgpre, hgsel⟩)
    · simp
    · exfalso
      rcases List.mem_append.mp hf with hfpre | hfm
      · exact key_ne_of_mem_post hsorted hcharge (List.mem_filter.mp hfpre).1 hgpost hkey
      · rw [List.mem_singleton.mp hfm] at hkey
        exact hpost g hgpost hgsel hkey

/-- A scan returns whole records, and no more of them than its length says, exactly on the stores
and packages of `KeepsLength`. -/
theorem wholeRecords_iff : WholeRecords db pkg (scanned db pkg) ↔ KeepsLength db pkg := by
  rw [KeepsLength]
  by_cases hzero : pkg.scanLength.toNat = 0
  · have hnone : scanned db pkg = [] := by rw [scanned, hzero, Budget.take_zero]
    refine iff_of_true ?_ (Or.inl hzero)
    rw [hnone]
    exact ⟨by simp [recordCount], by simp, by simp⟩
  constructor
  · intro h
    refine Or.inr ?_
    by_cases hcost : scanCost pkg (visited db pkg) < pkg.scanLength.toNat
    · exact Or.inl ⟨hcost, (wholeRecords_of_cost_lt hdb hcost).mp h⟩
    · obtain ⟨pre, m, post, hsplit, hpre, hsel, hcharge⟩ :=
        Budget.exists_of_le_cost (selects pkg) chargesField Field.key (by omega)
          (not_lt.mp hcost)
      exact Or.inr ⟨pre, m, post, hsplit, hpre, hsel, hcharge,
        (wholeRecords_of_cost_eq hdb hsplit hpre hsel hcharge).mp h⟩
  · rintro (h | ⟨hcost, hcount⟩ | ⟨pre, m, post, hsplit, hpre, hsel, hcharge, h⟩)
    · exact absurd h hzero
    · exact (wholeRecords_of_cost_lt hdb hcost).mpr hcount
    · exact (wholeRecords_of_cost_eq hdb hsplit hpre hsel hcharge).mpr h

end Exact

/-- The entries of a store that packages build were put there by `exec_insert`. -/
theorem stored_of_run {reqs : List (Package × Cycles)} {e e' : LevelDBExecutor}
    (hempty : e.db = SortedMap.empty) (hrun : e.run reqs = .ok e') :
    ∀ entry ∈ e'.db.entries, Stored entry := by
  rw [LevelDBExecutor.run_db hrun, hempty]
  intro entry hentry
  obtain ⟨k, f, hkey, -⟩ := storedKey_of_mem_storeOf hentry
  exact ⟨k, f, hkey⟩

/-- **When a scan keeps to its length.** On every store that packages can build from the empty one
and for every package on which the scan returns: the pairs returned are those of the fields scanned,
and these come from at most as many records as the scan length says, all from the start key on and
all complete, if and only if the store and the package satisfy `KeepsLength`. -/
theorem execScan_keeps_length_iff (reqs : List (Package × Cycles)) (e e' : LevelDBExecutor)
    (pkg : Package) (vals : List (Bytes × Bytes)) (hempty : e.db = SortedMap.empty)
    (hrun : e.run reqs = .ok e') (hscan : execScan e'.db pkg = .ok vals) :
    vals = (scanned e'.db pkg).map Field.pair ∧
      (WholeRecords e'.db pkg (scanned e'.db pkg) ↔ KeepsLength e'.db pkg) := by
  have hdb := stored_of_run hempty hrun
  exact ⟨execScan_eq_scanned hdb hscan, wholeRecords_iff hdb⟩

/-- Three records of two fields each, the first of them without field 0: a scan of length 1 for that
field returns it of the second record and leaves the third one out. -/
theorem execScan_keeps_length_of_three :
    ∃ e', (LevelDBExecutor.create SortedMap.empty).run
        [(⟨1, 0, 2, 3, 0, [(ascii "0", ascii "e"), (ascii "1", ascii "f")]⟩, ⟨0, 0⟩),
          (⟨1, 0, 2, 1, 0, [(ascii "1", ascii "a"), (ascii "2", ascii "b")]⟩, ⟨0, 0⟩),
          (⟨1, 0, 2, 2, 0, [(ascii "0", ascii "c"), (ascii "1", ascii "d")]⟩, ⟨0, 0⟩)] = .ok e' ∧
      execScan e'.db ⟨4, 0, 2, 1, 1, [(ascii "field0", []), (ascii "field9", [])]⟩
        = .ok [(ascii "field0", ascii "c")] ∧
      WholeRecords e'.db ⟨4, 0, 2, 1, 1, [(ascii "field0", []), (ascii "field9", [])]⟩
        (scanned e'.db ⟨4, 0, 2, 1, 1, [(ascii "field0", []), (ascii "field9", [])]⟩) := by
  refine ⟨_, rfl, rfl, (execScan_keeps_length_iff
    [(⟨1, 0, 2, 3, 0, [(ascii "0", ascii "e"), (ascii "1", ascii "f")]⟩, ⟨0, 0⟩),
      (⟨1, 0, 2, 1, 0, [(ascii "1", ascii "a"), (ascii "2", ascii "b")]⟩, ⟨0, 0⟩),
      (⟨1, 0, 2, 2, 0, [(ascii "0", ascii "c"), (ascii "1", ascii "d")]⟩, ⟨0, 0⟩)]
    (LevelDBExecutor.create SortedMap.empty) _
    ⟨4, 0, 2, 1, 1, [(ascii "field0", []), (ascii "field9", [])]⟩
    [(ascii "field0", ascii "c")] rfl rfl rfl).2.mpr (Or.inr (Or.inr ?_))⟩
  -- field 0 of record 2 costs the one unit
  refine ⟨[⟨1, ascii "field1", ascii "a"⟩, ⟨1, ascii "field2", ascii "b"⟩],
    ⟨2, ascii "field0", ascii "c"⟩,
    [⟨2, ascii "field1", ascii "d"⟩, ⟨3, ascii "field0", ascii "e"⟩,
      ⟨3, ascii "field1", ascii "f"⟩], rfl, ?_⟩
  decide

/-- Two records of two fields each: a scan of length 1 returns the first record and one field of the
second. -/
theorem execScan_exceeds_length :
    ∃ e', (LevelDBExecutor.create SortedMap.empty).run
        [(⟨1, 0, 2, 1, 0, [(ascii "0", ascii "a"), (ascii "1", ascii "b")]⟩, ⟨0, 0⟩),
          (⟨1, 0, 2, 2, 0, [(ascii "0", ascii "c"), (ascii "1", ascii "d")]⟩, ⟨0, 0⟩)] = .ok e' ∧
      execScan e'.db ⟨4, 0, 0, 1, 1, []⟩ = .ok [(ascii "field0", ascii "a"),
        (ascii "field1", ascii "b"), (ascii "field0", ascii "c")] ∧
      ¬ WholeRecords e'.db ⟨4, 0, 0, 1, 1, []⟩ (scanned e'.db ⟨4, 0, 0, 1, 1, []⟩) := by
  refine ⟨_, rfl, rfl, fun h => ?_⟩
  exact absurd h.count_le (by decide)

end BenchLx.Ycsb
