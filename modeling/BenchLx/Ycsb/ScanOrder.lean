import BenchLx.Ycsb.ScanPrefix

/-!
# Scans and the order of the keys

The store orders its entries by the bytes of the packed keys, in which record 10 comes before record
9, and a scan filters by the number. `followsKeyOrder_iff` says when a scan nevertheless returns the
records that follow the start key, in terms of the number of digits of the keys. With one field name
the iterator seeks to the start key; that makes no difference on the stores of `SeekAgrees`, and on
others only by a coincidence of stored values.
-/

namespace BenchLx.Ycsb

/-- The number of digits of a record key. -/
def digitCount (k : UInt64) : ℕ := (decimal k.toNat).length

/-- Of two fields of different records the first one in the store has the smaller key unless its key
has more digits. -/
theorem key_lt_iff {f g : Field} (hlt : f.packed < g.packed) (hne : f.key ≠ g.key) :
    f.key < g.key ↔ digitCount f.key ≤ digitCount g.key := by
  rw [Field.packed, Field.packed, packKey_eq, packKey_eq] at hlt
  rw [UInt64.lt_iff_toNat_lt]
  exact lt_iff_decimal_length_le (fun h => hne (UInt64.toNat_inj.mp h)) hlt

/-! ## The fields that a scan skips -/

/-- The entries before the one that the iterator of a scan starts at. -/
def skippedEntries (db : DB) (pkg : Package) : List (Bytes × Bytes) :=
  match pkg.kvPairs with
  | [pair] => db.before (packKey pkg.key pair.1 [])
  | _ => []

/-- The fields among them that lie at or past the start key. -/
def skipped (db : DB) (pkg : Package) : List Field :=
  ((skippedEntries db pkg).map fieldOf).filter fun f => pkg.key ≤ f.key

theorem skippedEntries_append_scanEntries (db : DB) (pkg : Package) :
    skippedEntries db pkg ++ scanEntries db pkg = db.entries := by
  rw [skippedEntries, scanEntries]
  rcases pkg.kvPairs with _ | ⟨pair, _ | ⟨pair', rest⟩⟩
  · rfl
  · exact SortedMap.before_append_seek db _
  · rfl

theorem skipped_append_visited (db : DB) (pkg : Package) :
    skipped db pkg ++ visited db pkg
      = (db.entries.map fieldOf).filter fun f => pkg.key ≤ f.key := by
  rw [skipped, visited, ← List.filter_append, ← List.map_append,
    skippedEntries_append_scanEntries]

theorem mem_skipped_or_visited_iff {db : DB} {pkg : Package} {f : Field} :
    f ∈ skipped db pkg ∨ f ∈ visited db pkg ↔ f ∈ db.entries.map fieldOf ∧ pkg.key ≤ f.key := by
  rw [← List.mem_append, skipped_append_visited, List.mem_filter, decide_eq_true_eq]

/-- A scan skips fields only when it selects one name. -/
theorem name_eq_of_skipped {db : DB} {pkg : Package} {g f h : Field} (hg : g ∈ skipped db pkg)
    (hf : selects pkg f = true) (hh : selects pkg h = true) : f.name = h.name := by
  rw [skipped, skippedEntries] at hg
  rcases hpairs : pkg.kvPairs with _ | ⟨pair, _ | ⟨pair', rest⟩⟩
  · simp [hpairs] at hg
  · rw [← name_of_selects hpairs hf, ← name_of_selects hpairs hh]
  · simp [hpairs] at hg

section Sorted

variable {db : DB} (hdb : ∀ entry ∈ db.entries, Stored entry) {pkg : Package}
include hdb

theorem skipped_visited_sorted :
    (skipped db pkg ++ visited db pkg).Pairwise fun f g => f.packed < g.packed := by
  rw [skipped_append_visited]
  exact (fields_sorted hdb).filter _

theorem packed_lt_of_skipped {g f : Field} (hg : g ∈ skipped db pkg) (hf : f ∈ visited db pkg) :
    g.packed < f.packed :=
  (List.pairwise_append.mp (skipped_visited_sorted hdb)).2.2 g hg f hf

/-- A selected field that is skipped sorts before the field of its name in the start record. -/
theorem packed_lt_of_skipped_start {g : Field} (hg : g ∈ skipped db pkg)
    (hgsel : selects pkg g = true) : g.packed < Field.packed ⟨pkg.key, g.name, []⟩ := by
  obtain ⟨hmem, -⟩ := List.mem_filter.mp hg
  obtain ⟨entry, hentry, rfl⟩ := List.mem_map.mp hmem
  rw [skippedEntries] at hentry
  rcases hpairs : pkg.kvPairs with _ | ⟨pair, _ | ⟨pair', rest⟩⟩
  · simp [hpairs] at hentry
  · simp only [hpairs] at hentry
    have hstored := hdb entry (SortedMap.mem_entries_of_mem_before hentry)
    rw [Stored.packed_fieldOf hstored, ← name_of_selects hpairs hgsel]
    exact SortedMap.lt_of_mem_before hentry
  · simp [hpairs] at hentry

/-- A record has its one selected field either skipped or visited. -/
theorem key_ne_of_skipped {g f : Field} (hg : g ∈ skipped db pkg) (hgsel : selects pkg g = true)
    (hf : f ∈ visited db pkg) (hfsel : selects pkg f = true) : g.key ≠ f.key := by
  intro hkey
  have hlt := packed_lt_of_skipped hdb hg hf
  rw [Field.packed, Field.packed, hkey, name_eq_of_skipped hg hgsel hfsel] at hlt
  exact lt_irrefl _ hlt

/-- A skipped record comes before a visited one in key order unless its key has more digits. -/
theorem key_lt_of_skipped_iff {g f : Field} (hg : g ∈ skipped db pkg)
    (hgsel : selects pkg g = true) (hf : f ∈ visited db pkg) (hfsel : selects pkg f = true) :
    g.key < f.key ↔ digitCount g.key ≤ digitCount f.key :=
  key_lt_iff (packed_lt_of_skipped hdb hg hf) (key_ne_of_skipped hdb hg hgsel hf hfsel)

end Sorted

/-! ## Records in key order -/

/-- Every record from the start key on that has a selected field and comes before a record of `fs`
in key order is a record of `fs` itself. -/
def FollowsKeyOrder (db : DB) (pkg : Package) (fs : List Field) : Prop :=
  ∀ f ∈ fs, ∀ g ∈ db.entries.map fieldOf, selects pkg g = true → pkg.key ≤ g.key →
    g.key < f.key → ∃ h ∈ fs, h.key = g.key

/-- The stores and packages on which a scan keeps to the key order: the length is 0; or no selected
field behind the last one taken, of a record not seen so far, has fewer digits in its key than one
taken has, and every selected field skipped has more. -/
def KeepsKeyOrder (db : DB) (pkg : Package) : Prop :=
  pkg.scanLength.toNat = 0 ∨
  ∃ pre post, visited db pkg = pre ++ post ∧
    Budget.Reaches (selects pkg) chargesField Field.key pre post pkg.scanLength.toNat 0 ∧
    ∀ f ∈ pre, selects pkg f = true →
      (∀ g ∈ skipped db pkg, selects pkg g = true → digitCount f.key < digitCount g.key) ∧
      ∀ g ∈ post, selects pkg g = true → (∀ h ∈ pre, selects pkg h = true → h.key ≠ g.key) →
        digitCount f.key ≤ digitCount g.key

section Exact

variable {db : DB} (hdb : ∀ entry ∈ db.entries, Stored entry) {pkg : Package}
include hdb

/-- The fields selected from the front of what a scan visits follow the key order when the digit
counts of the others allow it. -/
theorem followsKeyOrder_filter_iff {pre post : List Field} (hsplit : visited db pkg = pre ++ post) :
    FollowsKeyOrder db pkg (pre.filter (selects pkg)) ↔
      ∀ f ∈ pre, selects pkg f = true →
        (∀ g ∈ skipped db pkg, selects pkg g = true → digitCount f.key < digitCount g.key) ∧
        ∀ g ∈ post, selects pkg g = true → (∀ h ∈ pre, selects pkg h = true → h.key ≠ g.key) →
          digitCount f.key ≤ digitCount g.key := by
  have hpre : ∀ f ∈ pre, f ∈ visited db pkg := by
    intro f hf
    rw [hsplit]
    exact List.mem_append_left _ hf
  have hpost : ∀ g ∈ post, g ∈ visited db pkg := by
    intro g hg
    rw [hsplit]
    exact List.mem_append_right _ hg
  have hsorted := visited_sorted hdb pkg
  rw [hsplit] at hsorted
  have hbehind := (List.pairwise_append.mp hsorted).2.2
  constructor
  · intro h f hf hfsel
    have hftaken : f ∈ pre.filter (selects pkg) := List.mem_filter.mpr ⟨hf, hfsel⟩
    refine ⟨fun g hg hgsel => ?_, fun g hg hgsel hnew => ?_⟩
    · -- a skipped record is not taken, so its key must not be the smaller one
      by_contra hle
      have hlt := (key_lt_of_skipped_iff hdb hg hgsel (hpre f hf) hfsel).mpr (not_lt.mp hle)
      obtain ⟨hmem, hstart⟩ := mem_skipped_or_visited_iff.mp (Or.inl hg)
      obtain ⟨h', hh', hkey⟩ := h f hftaken g hmem hgsel hstart hlt
      obtain ⟨hh'pre, hh'sel⟩ := List.mem_filter.mp hh'
      exact key_ne_of_skipped hdb hg hgsel (hpre h' hh'pre) hh'sel hkey.symm
    · apply (key_lt_iff (hbehind f hf g hg) (hnew f hf hfsel)).mp
      by_contra hnot
      have hlt : g.key < f.key :=
        UInt64.lt_of_le_of_ne (UInt64.not_lt.mp hnot) (Ne.symm (hnew f hf hfsel))
      obtain ⟨hmem, hstart⟩ := mem_skipped_or_visited_iff.mp (Or.inr (hpost g hg))
      obtain ⟨h', hh', hkey⟩ := h f hftaken g hmem hgsel hstart hlt
      obtain ⟨hh'pre, hh'sel⟩ := List.mem_filter.mp hh'
      exact hnew h' hh'pre hh'sel hkey
  · intro h f hf g hg hgsel hstart hlt
    obtain ⟨hfpre, hfsel⟩ := List.mem_filter.mp hf
    obtain ⟨hmore, hfewer⟩ := h f hfpre hfsel
    by_contra hnone
    have hnew : ∀ h' ∈ pre, selects pkg h' = true → h'.key ≠ g.key :=
      fun h' hh' hsel hkey => hnone ⟨h', List.mem_filter.mpr ⟨hh', hsel⟩, hkey⟩
    rcases mem_skipped_or_visited_iff.mpr ⟨hg, hstart⟩ with hg | hg
    · have hle := (key_lt_of_skipped_iff hdb hg hgsel (hpre f hfpre) hfsel).mp hlt
      exact absurd (hmore g hg hgsel) (not_lt.mpr hle)
    · rw [hsplit] at hg
      rcases List.mem_append.mp hg with hg | hg
      · exact hnew g hg hgsel rfl
      · have hfg := (key_lt_iff (hbehind f hfpre g hg) (hnew f hfpre hfsel)).mpr
          (hfewer g hg hgsel hnew)
        exact absurd (UInt64.lt_trans hfg hlt) (UInt64.lt_irrefl _)

/-- A scan returns the records that follow the start key in key order exactly on the stores and
packages of `KeepsKeyOrder`. -/
theorem followsKeyOrder_iff : FollowsKeyOrder db pkg (scanned db pkg) ↔ KeepsKeyOrder db pkg := by
  rw [KeepsKeyOrder]
  by_cases hzero : pkg.scanLength.toNat = 0
  · refine iff_of_true ?_ (Or.inl hzero)
    rw [scanned, hzero, Budget.take_zero]
    exact fun f hf => by cases hf
  have htaken : ∀ pre post, visited db pkg = pre ++ post →
      Budget.Reaches (selects pkg) chargesField Field.key pre post pkg.scanLength.toNat 0 →
      scanned db pkg = pre.filter (selects pkg) := by
    intro pre post hsplit hreach
    rw [scanned, hsplit]
    exact Budget.take_of_reaches _ _ _ hreach
  constructor
  · intro h
    obtain ⟨pre, post, hsplit, hreach⟩ := Budget.exists_reaches (selects pkg) chargesField Field.key
      (visited db pkg) (Nat.pos_of_ne_zero hzero) 0
    rw [htaken pre post hsplit hreach] at h
    exact Or.inr ⟨pre, post, hsplit, hreach, (followsKeyOrder_filter_iff hdb hsplit).mp h⟩
  · rintro (h | ⟨pre, post, hsplit, hreach, h⟩)
    · exact absurd h hzero
    · rw [htaken pre post hsplit hreach]
      exact (followsKeyOrder_filter_iff hdb hsplit).mpr h

/-- A scan keeps to the key order when all keys from the start key on have as many digits as the
start key. -/
theorem keepsKeyOrder_of_digitCount
    (hdigits : ∀ g ∈ db.entries.map fieldOf, pkg.key ≤ g.key →
      digitCount g.key = digitCount pkg.key) : KeepsKeyOrder db pkg := by
  by_cases hzero : pkg.scanLength.toNat = 0
  · exact Or.inl hzero
  obtain ⟨pre, post, hsplit, hreach⟩ := Budget.exists_reaches (selects pkg) chargesField Field.key
    (visited db pkg) (Nat.pos_of_ne_zero hzero) 0
  have hsame : ∀ g, g ∈ skipped db pkg ∨ g ∈ visited db pkg →
      digitCount g.key = digitCount pkg.key := by
    intro g hg
    obtain ⟨hmem, hstart⟩ := mem_skipped_or_visited_iff.mp hg
    exact hdigits g hmem hstart
  refine Or.inr ⟨pre, post, hsplit, hreach, fun f hf hfsel => ⟨fun g hg hgsel => ?_, ?_⟩⟩
  · have hlt := packed_lt_of_skipped_start hdb hg hgsel
    have hstart := (mem_skipped_or_visited_iff.mp (Or.inl hg)).2
    by_cases hkey : g.key = pkg.key
    · rw [Field.packed, Field.packed, hkey] at hlt
      exact absurd hlt (lt_irrefl _)
    · have hless := (key_lt_iff hlt hkey).mpr (hsame g (Or.inl hg)).le
      exact absurd hstart (UInt64.not_le.mpr hless)
  · intro g hg _ _
    rw [hsame f (Or.inr (by simp [hsplit, hf])), hsame g (Or.inr (by simp [hsplit, hg]))]

end Exact

/-- A scan over a store that packages with keys below `2 ^ 63` build returns the fields scanned. -/
theorem execScan_scanned {reqs : List (Package × Cycles)} {e e' : LevelDBExecutor}
    (hempty : e.db = SortedMap.empty) (hrun : e.run reqs = .ok e')
    (hkeys : ∀ w ∈ writesOf (reqs.map Prod.fst), w.1.1.toNat < 2 ^ 63) (pkg : Package) :
    execScan e'.db pkg = .ok ((scanned e'.db pkg).map Field.pair) := by
  obtain ⟨vals, hvals⟩ : ∃ vals, execScan e'.db pkg = .ok vals := by
    rw [LevelDBExecutor.run_db hrun, hempty]
    exact execScan_storeOf_returns hkeys pkg
  rw [hvals, execScan_eq_scanned (stored_of_run hempty hrun) hvals]

/-- **When a scan follows the key order.** On every store that packages with keys below `2 ^ 63`
build from the empty one and for every package, the scan returns the pairs of the fields scanned;
and among these is, for each of their records, every record between the start key and it that has a
selected field, if and only if the store and the package satisfy `KeepsKeyOrder`. -/
theorem execScan_keeps_key_order_iff (reqs : List (Package × Cycles)) (e e' : LevelDBExecutor)
    (pkg : Package) (hempty : e.db = SortedMap.empty) (hrun : e.run reqs = .ok e')
    (hkeys : ∀ w ∈ writesOf (reqs.map Prod.fst), w.1.1.toNat < 2 ^ 63) :
    execScan e'.db pkg = .ok ((scanned e'.db pkg).map Field.pair) ∧
      (FollowsKeyOrder e'.db pkg (scanned e'.db pkg) ↔ KeepsKeyOrder e'.db pkg) :=
  ⟨execScan_scanned hempty hrun hkeys pkg, followsKeyOrder_iff (stored_of_run hempty hrun)⟩

/-- A scan over two records whose keys have equally many digits. -/
theorem execScan_keeps_key_order_two :
    ∃ e', (LevelDBExecutor.create SortedMap.empty).run
        [(⟨1, 0, 1, 8, 0, [(ascii "0", ascii "b")]⟩, ⟨0, 0⟩),
          (⟨1, 0, 1, 7, 0, [(ascii "0", ascii "a")]⟩, ⟨0, 0⟩)] = .ok e' ∧
      FollowsKeyOrder e'.db ⟨4, 0, 0, 7, 2, []⟩ (scanned e'.db ⟨4, 0, 0, 7, 2, []⟩) := by
  obtain ⟨e', hrun, hcost⟩ :
      ∃ e', (LevelDBExecutor.create SortedMap.empty).run
          [(⟨1, 0, 1, 8, 0, [(ascii "0", ascii "b")]⟩, ⟨0, 0⟩),
            (⟨1, 0, 1, 7, 0, [(ascii "0", ascii "a")]⟩, ⟨0, 0⟩)] = .ok e' ∧
        scanCost ⟨4, 0, 0, 7, 2, []⟩ (visited e'.db ⟨4, 0, 0, 7, 2, []⟩) < 2 :=
    ⟨_, rfl, by decide⟩
  refine ⟨e', hrun, (execScan_keeps_key_order_iff _ (LevelDBExecutor.create SortedMap.empty) e'
    ⟨4, 0, 0, 7, 2, []⟩ rfl hrun (by decide)).2.mpr (Or.inr ?_)⟩
  refine ⟨_, [], (List.append_nil _).symm, Or.inl ⟨rfl, hcost⟩, fun f _ _ => ⟨?_, ?_⟩⟩
  · exact fun g hg => by cases hg
  · exact fun g hg => by cases hg

/-- Records 9, 10 and 11: a scan of one record from 9 on returns records 10 and 11. -/
theorem execScan_misses_record :
    ∃ e', (LevelDBExecutor.create SortedMap.empty).run
        [(⟨1, 0, 1, 9, 0, [(ascii "0", ascii "a")]⟩, ⟨0, 0⟩),
          (⟨1, 0, 1, 10, 0, [(ascii "0", ascii "b")]⟩, ⟨0, 0⟩),
          (⟨1, 0, 1, 11, 0, [(ascii "0", ascii "c")]⟩, ⟨0, 0⟩)] = .ok e' ∧
      execScan e'.db ⟨4, 0, 0, 9, 1, []⟩
        = .ok [(ascii "field0", ascii "b"), (ascii "field0", ascii "c")] ∧
      ¬ FollowsKeyOrder e'.db ⟨4, 0, 0, 9, 1, []⟩ (scanned e'.db ⟨4, 0, 0, 9, 1, []⟩) := by
  refine ⟨_, rfl, rfl, fun h => ?_⟩
  obtain ⟨f, hf, hkey⟩ := h ⟨10, ascii "field0", ascii "b"⟩ (by decide)
    ⟨9, ascii "field0", ascii "a"⟩ (by decide) (by decide) (by decide) (by decide)
  revert hkey
  revert f
  decide

/-! ## One field name -/

/-- The stores and packages on which it makes no difference that a scan for one field name skips
fields: the length is 0; or none of the fields skipped has that name, and the first field visited
does not cost a unit behind them or that unit is not missed later. -/
def SeekAgrees (db : DB) (pkg : Package) : Prop :=
  pkg.scanLength.toNat = 0 ∨
  ((∀ g ∈ skipped db pkg, selects pkg g = false) ∧
    ∀ m post, visited db pkg = m :: post → selects pkg m = true →
      chargesField (Budget.lastMark Field.key (skipped db pkg) 0) m = true →
      ∀ before g after, post = before ++ g :: after → selects pkg g = true →
        Budget.cost (selects pkg) chargesField Field.key before m.key + 1
          < pkg.scanLength.toNat)

/-- The first field of the name that is skipped holds the same value as the first one that is
visited. -/
def CoincidingValues (db : DB) (pkg : Package) : Prop :=
  ∃ g m, ((skipped db pkg).filter (selects pkg)).head? = some g ∧
    ((visited db pkg).filter (selects pkg)).head? = some m ∧ g.value = m.value

/-- The fields that the scan would return from the first entry of the store on. -/
def scannedFromFirst (db : DB) (pkg : Package) : List Field :=
  Budget.take (selects pkg) chargesField Field.key (skipped db pkg ++ visited db pkg)
    pkg.scanLength.toNat 0

/-- Two lists of first fields are told apart by the values they hold. -/
theorem map_pair_inj_of_isPrefix {fs gs all : List Field} (hfs : fs <+: all) (hgs : gs <+: all) :
    fs.map Field.pair = gs.map Field.pair ↔ fs = gs := by
  constructor
  · intro h
    have hlen : fs.length = gs.length := by simpa using congrArg List.length h
    exact (List.prefix_of_prefix_length_le hfs hgs hlen.le).eq_of_length hlen
  · intro h
    rw [h]

section OneName

variable {db : DB} {pkg : Package}

/-- Fields skipped that are not selected change no more than the mark that the first field visited
is charged for. -/
theorem seek_agrees_of_none_skipped (hlen : pkg.scanLength.toNat ≠ 0)
    (hnone : ∀ g ∈ skipped db pkg, selects pkg g = false) :
    (scanned db pkg).map Field.pair = (scannedFromFirst db pkg).map Field.pair ↔
      ∀ m post, visited db pkg = m :: post → selects pkg m = true →
        chargesField (Budget.lastMark Field.key (skipped db pkg) 0) m = true →
        ∀ before g after, post = before ++ g :: after → selects pkg g = true →
          Budget.cost (selects pkg) chargesField Field.key before m.key + 1
            < pkg.scanLength.toNat := by
  have hcost := Budget.cost_of_none_selected (selects pkg) chargesField Field.key hnone 0
  have hfilter : (skipped db pkg).filter (selects pkg) = [] :=
    List.filter_eq_nil_iff.mpr fun g hg => by simp [hnone g hg]
  have hfirst : scannedFromFirst db pkg
      = Budget.take (selects pkg) chargesField Field.key (visited db pkg) pkg.scanLength.toNat
          (Budget.lastMark Field.key (skipped db pkg) 0) := by
    rw [scannedFromFirst, Budget.take_append _ _ _ _ _ (by omega), hfilter, hcost, List.nil_append,
      Nat.sub_zero]
  rw [hfirst, scanned]
  generalize Budget.lastMark Field.key (skipped db pkg) 0 = last
  obtain ⟨n, hn⟩ := Nat.exists_eq_succ_of_ne_zero hlen
  rw [hn]
  cases visited db pkg with
  | nil => simp [Budget.take]
  | cons m post =>
    rw [map_pair_inj_of_isPrefix (Budget.take_isPrefix _ _ _ _ _ _)
      (Budget.take_isPrefix _ _ _ _ _ _), Budget.take, Budget.take, if_neg (Nat.succ_ne_zero n),
      if_neg (Nat.succ_ne_zero n)]
    by_cases hsel : selects pkg m = true
    · have hfree : ¬ chargesField 0 m = true := by simp [chargesField]
      rw [if_pos hsel, if_pos hsel, if_neg hfree, List.cons_inj_right]
      by_cases hcharge : chargesField last m = true
      · -- the unit that `m` costs is missed unless every field behind it is taken without it
        rw [if_pos hcharge, Nat.succ_sub_one, Budget.take_succ_eq_iff, Budget.take_eq_filter_iff]
        constructor
        · intro h m' post' hsplit _ _ before g after hpost hgsel
          obtain ⟨rfl, rfl⟩ := List.cons.inj hsplit
          exact Nat.succ_lt_succ (h before g after hpost hgsel)
        · intro h before g after hpost hgsel
          exact Nat.lt_of_succ_lt_succ (h m post rfl hsel hcharge before g after hpost hgsel)
      · rw [if_neg hcharge]
        apply iff_of_true rfl
        intro m' post' hsplit _ hcharge'
        obtain ⟨rfl, rfl⟩ := List.cons.inj hsplit
        exact absurd hcharge' hcharge
    · rw [if_neg hsel, if_neg hsel]
      apply iff_of_true rfl
      intro m' post' hsplit hsel'
      obtain ⟨rfl, rfl⟩ := List.cons.inj hsplit
      exact absurd hsel' hsel

/-- When a field of the name is skipped, the first pair of the two scans can agree only by its
value. -/
theorem coincidingValues_of_seek_agrees (hlen : pkg.scanLength.toNat ≠ 0)
    (hsome : ∃ g ∈ skipped db pkg, selects pkg g = true)
    (h : (scanned db pkg).map Field.pair = (scannedFromFirst db pkg).map Field.pair) :
    CoincidingValues db pkg := by
  obtain ⟨g, hg⟩ : ∃ g, ((skipped db pkg).filter (selects pkg)).head? = some g := by
    obtain ⟨g', hg', hsel⟩ := hsome
    exact Option.isSome_iff_exists.mp (List.isSome_head?.mpr
      (List.ne_nil_of_mem (List.mem_filter.mpr ⟨hg', hsel⟩)))
  have hfirst : (scannedFromFirst db pkg).head? = some g := by
    rw [scannedFromFirst, Budget.head?_take _ _ _ _ _ hlen, List.filter_append,
      List.head?_append, hg, Option.some_or]
  have hhead := congrArg List.head? h
  rw [List.head?_map, List.head?_map, hfirst, Option.map_some] at hhead
  obtain ⟨m, hm, hpair⟩ := Option.map_eq_some_iff.mp hhead
  rw [scanned, Budget.head?_take _ _ _ _ _ hlen] at hm
  exact ⟨g, m, hg, hm, (congrArg Prod.snd hpair).symm⟩

theorem seek_agrees_of_seekAgrees (h : SeekAgrees db pkg) :
    (scanned db pkg).map Field.pair = (scannedFromFirst db pkg).map Field.pair := by
  by_cases hzero : pkg.scanLength.toNat = 0
  · rw [scanned, scannedFromFirst, hzero, Budget.take_zero, Budget.take_zero]
  · obtain ⟨hnone, hmissed⟩ := h.resolve_left hzero
    exact (seek_agrees_of_none_skipped hzero hnone).mpr hmissed

theorem seekAgrees_or_coincidingValues
    (h : (scanned db pkg).map Field.pair = (scannedFromFirst db pkg).map Field.pair) :
    SeekAgrees db pkg ∨ CoincidingValues db pkg := by
  by_cases hzero : pkg.scanLength.toNat = 0
  · exact Or.inl (Or.inl hzero)
  by_cases hnone : ∀ g ∈ skipped db pkg, selects pkg g = false
  · exact Or.inl (Or.inr ⟨hnone, (seek_agrees_of_none_skipped hzero hnone).mp h⟩)
  · push Not at hnone
    obtain ⟨g, hg, hgsel⟩ := hnone
    exact Or.inr (coincidingValues_of_seek_agrees hzero ⟨g, hg, by simpa using hgsel⟩ h)

end OneName

/-- Asked for one name twice, a scan selects the same fields and starts at the first entry. -/
theorem scanned_twice (db : DB) (pkg : Package) (f v v' : Bytes) :
    scanned db { pkg with numKvs := 2, kvPairs := [(f, v), (f, v')] }
      = scannedFromFirst db { pkg with numKvs := 1, kvPairs := [(f, v)] } := by
  have hsel : selects { pkg with numKvs := 2, kvPairs := [(f, v), (f, v')] }
      = selects { pkg with numKvs := 1, kvPairs := [(f, v)] } := by
    funext g
    simp [selects, takeField]
  rw [scannedFromFirst, skipped_append_visited, scanned, hsel]
  rfl

/-- **When the fast path of a scan agrees with the plain path.** On every store that packages with
keys below `2 ^ 63` build from the empty one, for every start key, length and field name: the scan
for the name, which seeks, and the scan for the name twice, which does not, both return. They return
the same pairs if the store and the package satisfy `SeekAgrees`, and elsewhere only if the first
field skipped of that name and the first one visited hold the same value. -/
theorem execScan_seek_agrees (reqs : List (Package × Cycles)) (e e' : LevelDBExecutor)
    (pkg : Package) (f v v' : Bytes) (hempty : e.db = SortedMap.empty)
    (hrun : e.run reqs = .ok e')
    (hkeys : ∀ w ∈ writesOf (reqs.map Prod.fst), w.1.1.toNat < 2 ^ 63) :
    ∃ vals vals', execScan e'.db { pkg with numKvs := 1, kvPairs := [(f, v)] } = .ok vals ∧
      execScan e'.db { pkg with numKvs := 2, kvPairs := [(f, v), (f, v')] } = .ok vals' ∧
      (SeekAgrees e'.db { pkg with numKvs := 1, kvPairs := [(f, v)] } → vals = vals') ∧
      (vals = vals' → SeekAgrees e'.db { pkg with numKvs := 1, kvPairs := [(f, v)] } ∨
        CoincidingValues e'.db { pkg with numKvs := 1, kvPairs := [(f, v)] }) := by
  refine ⟨_, _, execScan_scanned hempty hrun hkeys _, execScan_scanned hempty hrun hkeys _, ?_⟩
  rw [scanned_twice]
  exact ⟨seek_agrees_of_seekAgrees, seekAgrees_or_coincidingValues⟩

/-- Records 9, 10 and 95: a scan of field 0 from 9 on skips field 1 of record 10, so that record 9
costs a unit, and five units are enough for records 9 and 95. -/
theorem execScan_seek_agrees_past_skipped :
    ∃ e', (LevelDBExecutor.create SortedMap.empty).run
        [(⟨1, 0, 1, 95, 0, [(ascii "0", ascii "c")]⟩, ⟨0, 0⟩),
          (⟨1, 0, 1, 9, 0, [(ascii "0", ascii "a")]⟩, ⟨0, 0⟩),
          (⟨1, 0, 1, 10, 0, [(ascii "1", ascii "b")]⟩, ⟨0, 0⟩)] = .ok e' ∧
      skipped e'.db ⟨4, 0, 1, 9, 5, [(ascii "field0", [])]⟩ = [⟨10, ascii "field1", ascii "b"⟩] ∧
      ∃ vals vals', execScan e'.db ⟨4, 0, 1, 9, 5, [(ascii "field0", [])]⟩ = .ok vals ∧
        execScan e'.db ⟨4, 0, 2, 9, 5, [(ascii "field0", []), (ascii "field0", [])]⟩ = .ok vals' ∧
        vals = vals' := by
  obtain ⟨e', hrun, hskipped, hvisited⟩ :
      ∃ e', (LevelDBExecutor.create SortedMap.empty).run
          [(⟨1, 0, 1, 95, 0, [(ascii "0", ascii "c")]⟩, ⟨0, 0⟩),
            (⟨1, 0, 1, 9, 0, [(ascii "0", ascii "a")]⟩, ⟨0, 0⟩),
            (⟨1, 0, 1, 10, 0, [(ascii "1", ascii "b")]⟩, ⟨0, 0⟩)] = .ok e' ∧
        skipped e'.db ⟨4, 0, 1, 9, 5, [(ascii "field0", [])]⟩
          = [⟨10, ascii "field1", ascii "b"⟩] ∧
        visited e'.db ⟨4, 0, 1, 9, 5, [(ascii "field0", [])]⟩
          = [⟨9, ascii "field0", ascii "a"⟩, ⟨95, ascii "field0", ascii "c"⟩] :=
    ⟨_, rfl, rfl, rfl⟩
  obtain ⟨vals, vals', hvals, hvals', hsame, -⟩ := execScan_seek_agrees _
    (LevelDBExecutor.create SortedMap.empty) e' ⟨4, 0, 0, 9, 5, []⟩ (ascii "field0") [] [] rfl hrun
    (by decide)
  refine ⟨e', hrun, hskipped, vals, vals', hvals, hvals', hsame (Or.inr ⟨?_, ?_⟩)⟩
  · rw [hskipped]
    decide
  · -- one field is visited behind the first one, with nothing between them
    intro m post hsplit _ _ before g after hpost _
    obtain ⟨rfl, rfl⟩ := List.cons.inj (hvisited.symm.trans hsplit)
    cases before with
    | nil => decide
    | cons b bs => simp at hpost

/-- Records 9 and 10: the scan for one field from 9 on skips record 10, which comes before record 9
in the store. -/
theorem execScan_seek_skips_record :
    ∃ e', (LevelDBExecutor.create SortedMap.empty).run
        [(⟨1, 0, 1, 9, 0, [(ascii "0", ascii "a")]⟩, ⟨0, 0⟩),
          (⟨1, 0, 1, 10, 0, [(ascii "0", ascii "b")]⟩, ⟨0, 0⟩)] = .ok e' ∧
      execScan e'.db ⟨4, 0, 1, 9, 5, [(ascii "field0", [])]⟩ = .ok [(ascii "field0", ascii "a")] ∧
      execScan e'.db ⟨4, 0, 2, 9, 5, [(ascii "field0", []), (ascii "field0", [])]⟩
        = .ok [(ascii "field0", ascii "b"), (ascii "field0", ascii "a")] ∧
      [(ascii "field0", ascii "a")]
        ≠ [(ascii "field0", ascii "b"), (ascii "field0", ascii "a")] :=
  ⟨_, rfl, rfl, rfl, by decide⟩

end BenchLx.Ycsb
