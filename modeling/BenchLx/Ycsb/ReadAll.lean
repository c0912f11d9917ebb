import BenchLx.Ycsb.ScanBudget

/-!
# Reading all fields and naming them

A READ without field names takes the names out of the packed keys with `operator>>`, which neither
skips the slash nor goes beyond white space; a READ with names answers with the names of the
request. `read_all_bytes_iff` says when both come to the same number of bytes.
-/

namespace BenchLx.Ycsb

open LevelDBExecutor

/-- The fields that are stored for a record. -/
def recordFields (db : DB) (k : UInt64) : List Field :=
  (db.entries.map fieldOf).filter fun f => f.key = k

/-- The part of a name that `is >> field` reads, and the part from the first white space on. -/
def Field.word (f : Field) : Bytes := f.name.takeWhile fun b => !isSpace b

def Field.cutOff (f : Field) : Bytes := f.name.dropWhile fun b => !isSpace b

/-! ## The size of a result -/

theorem resultBytes_eq (vals : List (Bytes × Bytes)) :
    resultBytes vals = UInt64.ofNat (vals.map fun pair => pair.1.length + pair.2.length).sum := by
  have hfold : ∀ (vals : List (Bytes × Bytes)) (n : ℕ),
      vals.foldl (fun bytes pair =>
        bytes + (UInt64.ofNat pair.1.length + UInt64.ofNat pair.2.length)) (UInt64.ofNat n)
      = UInt64.ofNat (n + (vals.map fun pair => pair.1.length + pair.2.length).sum) := by
    intro vals
    induction vals with
    | nil => intro n; simp
    | cons pair vals ih =>
      intro n
      rw [List.foldl_cons, ← UInt64.ofNat_add, ← UInt64.ofNat_add, ih, List.map_cons,
        List.sum_cons, Nat.add_assoc]
  have hzero := hfold vals 0
  rw [Nat.zero_add] at hzero
  exact hzero

/-! ## The two branches -/

section Read

variable {db : DB} (hdb : ∀ entry ∈ db.entries, Stored entry) {pkg : Package}
include hdb

/-- Without names the answer has, for each field of the record, a slash and the first word of its
name. -/
theorem execRead_all (hnone : pkg.kvPairs = []) :
    execRead db pkg = (recordFields db pkg.key).map fun f => (47 :: f.word, f.value) := by
  rw [execRead, hnone, List.isEmpty_nil, if_pos rfl, recordFields]
  revert hdb
  induction db.entries with
  | nil => intro _; rfl
  | cons entry entries ih =>
    intro hdb
    have htail := ih fun e he => hdb e (List.mem_cons_of_mem entry he)
    obtain ⟨k, f, hkey⟩ := hdb entry List.mem_cons_self
    have hslash : isSpace 47 = false := by decide
    rw [List.map_cons, Stored.fieldOf_eq hkey]
    by_cases hk : k = pkg.key
    · rw [List.filterMap_cons, hkey, storedKey, extractU64_packKey,
        List.filter_cons_of_pos (by simpa using hk), List.map_cons, ← htail]
      simp [hk, extractWord, hslash, Field.word]
    · rw [List.filterMap_cons, hkey, storedKey, extractU64_packKey,
        List.filter_cons_of_neg (by simpa using hk), ← htail]
      simp [hk]

/-- A stored field is found under its record key and its name. -/
theorem get_packKey {f : Field} (hf : f ∈ recordFields db pkg.key) :
    db.get (packKey pkg.key f.name []) = some f.value := by
  obtain ⟨hmem, hkey⟩ := List.mem_filter.mp hf
  obtain ⟨entry, hentry, rfl⟩ := List.mem_map.mp hmem
  have hpacked := Stored.packed_fieldOf (hdb entry hentry)
  rw [Field.packed, show (fieldOf entry).key = pkg.key by simpa using hkey] at hpacked
  rw [hpacked]
  exact (SortedMap.mem_entries_iff db entry.1 entry.2).mp hentry

/-- With the names of all fields the answer has these names. -/
theorem execRead_named
    (hnames : (pkg.kvPairs.map Prod.fst).Perm ((recordFields db pkg.key).map Field.name)) :
    (execRead db pkg).Perm ((recordFields db pkg.key).map Field.pair) := by
  by_cases hnone : pkg.kvPairs = []
  · -- then there is no field, and the answer is empty as well
    rw [hnone, List.map_nil, List.nil_perm, List.map_eq_nil_iff] at hnames
    rw [execRead_all hdb hnone, hnames]
    exact List.Perm.refl _
  · let answer : Bytes → Option (Bytes × Bytes) := fun name =>
      (db.get (packKey pkg.key name [])).map fun value => (name, value)
    have hread : execRead db pkg = (pkg.kvPairs.map Prod.fst).filterMap answer := by
      rw [execRead, if_neg (by simpa using hnone), List.filterMap_map]
      rfl
    have hfields : ((recordFields db pkg.key).map Field.name).filterMap answer
        = (recordFields db pkg.key).map Field.pair := by
      rw [List.filterMap_map, ← List.filterMap_eq_map]
      apply List.filterMap_congr
      intro f hf
      simp only [Function.comp_apply, answer, get_packKey hdb hf]
      rfl
    rw [hread, ← hfields]
    exact hnames.filterMap answer

end Read

/-! ## The fields of a record -/

/-- Of two fields of one record the first one in the store has the smaller name. -/
theorem name_lt_of_packed_lt {f g : Field} (hkey : f.key = g.key) (hlt : f.packed < g.packed) :
    f.name < g.name := by
  have hpacked : ∀ h : Field, h.packed = (decimal h.key.toNat ++ [47]) ++ h.name := by
    intro h
    rw [Field.packed, packKey_eq, List.append_assoc]
    rfl
  rw [hpacked, hpacked, hkey] at hlt
  by_contra hge
  rcases (not_lt.mp hge).lt_or_eq with hgt | heq
  · exact absurd (List.append_left_lt hgt) (lt_asymm hlt)
  · rw [heq] at hlt
    exact lt_irrefl _ hlt

/-- The fields of a record are listed in the order of their names. -/
theorem recordFields_sorted {db : DB} (hdb : ∀ entry ∈ db.entries, Stored entry) (k : UInt64) :
    (recordFields db k).Pairwise fun f g => f.name < g.name := by
  apply ((fields_sorted hdb).filter fun f => f.key = k).imp_of_mem
  intro f g hf hg hlt
  have hfkey : f.key = k := by simpa using (List.mem_filter.mp hf).2
  have hgkey : g.key = k := by simpa using (List.mem_filter.mp hg).2
  exact name_lt_of_packed_lt (hfkey.trans hgkey.symm) hlt

/-- The fields of a record are those written to it, each with its last value. -/
theorem mem_recordFields_storeOf_iff {ws : List ((UInt64 × Bytes) × Bytes)} {k : UInt64}
    {f : Field} :
    f ∈ recordFields (storeOf ws) k ↔
      f.key = k ∧ ∃ n, f.name = fieldPrefix ++ n ∧ lastWrite (k, n) ws = some f.value := by
  rw [recordFields, List.mem_filter, List.mem_map]
  constructor
  · rintro ⟨⟨⟨key, v⟩, hentry, rfl⟩, hk⟩
    obtain ⟨k', n, rfl, hlast⟩ := mem_storeOf_iff.mp hentry
    rw [@Stored.fieldOf_eq (storedKey (k', n), v) k' n rfl] at hk ⊢
    obtain rfl : k' = k := by simpa using hk
    exact ⟨rfl, n, rfl, hlast⟩
  · rintro ⟨rfl, n, hname, hlast⟩
    refine ⟨⟨(storedKey (f.key, n), f.value), mem_storeOf_iff.mpr ⟨f.key, n, rfl, hlast⟩, ?_⟩,
      by simp⟩
    rw [Stored.fieldOf_eq rfl, ← hname]

/-- **A READ without names lists the record.** On every store that packages build from the empty
one, for every record key: the answer has one pair for each field written to the record, in the
order of the stored names, with the value written last, and no other pair. The name of a pair is the
slash and the first word of the stored name. -/
theorem execRead_lists_record (reqs : List (Package × Cycles)) (e e' : LevelDBExecutor)
    (pkg : Package) (hempty : e.db = SortedMap.empty) (hrun : e.run reqs = .ok e')
    (hall : pkg.kvPairs = []) :
    ∃ names : List Bytes, names.Pairwise (fun name name' => name < name') ∧
      (∀ name, name ∈ names ↔ ∃ n, name = ascii "field" ++ n ∧
        ∃ v, ((pkg.key, n), v) ∈ writesOf (reqs.map Prod.fst)) ∧
      List.Forall₂ (fun name pair => ∃ n, name = ascii "field" ++ n ∧
          pair.1 = ascii "/" ++ name.takeWhile (fun b => !isSpace b) ∧
          lastWrite (pkg.key, n) (writesOf (reqs.map Prod.fst)) = some pair.2)
        names (execRead e'.db pkg) := by
  have hdb := stored_of_run hempty hrun
  have hmem : ∀ {f : Field}, f ∈ recordFields e'.db pkg.key ↔ f.key = pkg.key ∧
      ∃ n, f.name = fieldPrefix ++ n ∧
        lastWrite (pkg.key, n) (writesOf (reqs.map Prod.fst)) = some f.value := by
    rw [LevelDBExecutor.run_db hrun, hempty]
    exact mem_recordFields_storeOf_iff
  refine ⟨(recordFields e'.db pkg.key).map Field.name, ?_, fun name => ?_, ?_⟩
  · exact List.pairwise_map.mpr (recordFields_sorted hdb pkg.key)
  · constructor
    · intro hname
      obtain ⟨f, hf, rfl⟩ := List.mem_map.mp hname
      obtain ⟨-, n, hname, hlast⟩ := hmem.mp hf
      exact ⟨n, hname, f.value, mem_of_lastWrite hlast⟩
    · rintro ⟨n, rfl, v, hv⟩
      obtain ⟨v', hlast⟩ := exists_lastWrite hv
      exact List.mem_map.mpr ⟨⟨pkg.key, fieldPrefix ++ n, v'⟩, hmem.mpr ⟨rfl, n, rfl, hlast⟩, rfl⟩
  · rw [execRead_all hdb hall, List.forall₂_map_left_iff, List.forall₂_map_right_iff,
      List.forall₂_same]
    intro f hf
    obtain ⟨-, n, hname, hlast⟩ := hmem.mp hf
    exact ⟨n, hname, rfl, hlast⟩

/-- Records 1 and 10: the fields of record 1 are listed by name, the one written twice with its
later value. -/
theorem execRead_lists_record_one :
    ∃ e', (LevelDBExecutor.create SortedMap.empty).run
        [(⟨1, 0, 2, 1, 0, [(ascii "1", ascii "a"), (ascii "0", ascii "b")]⟩, ⟨0, 0⟩),
          (⟨1, 0, 1, 10, 0, [(ascii "0", ascii "c")]⟩, ⟨0, 0⟩),
          (⟨5, 0, 1, 1, 0, [(ascii "1", ascii "d")]⟩, ⟨0, 0⟩)] = .ok e' ∧
      ∃ names : List Bytes, names.Pairwise (fun name name' => name < name') ∧
        (∀ name, name ∈ names → ∃ n, name = ascii "field" ++ n) ∧
        execRead e'.db ⟨3, 0, 0, 1, 0, []⟩
          = [(ascii "/field0", ascii "b"), (ascii "/field1", ascii "d")] ∧ names.length = 2 := by
  obtain ⟨e', hrun, hread⟩ :
      ∃ e', (LevelDBExecutor.create SortedMap.empty).run
          [(⟨1, 0, 2, 1, 0, [(ascii "1", ascii "a"), (ascii "0", ascii "b")]⟩, ⟨0, 0⟩),
            (⟨1, 0, 1, 10, 0, [(ascii "0", ascii "c")]⟩, ⟨0, 0⟩),
            (⟨5, 0, 1, 1, 0, [(ascii "1", ascii "d")]⟩, ⟨0, 0⟩)] = .ok e' ∧
        execRead e'.db ⟨3, 0, 0, 1, 0, []⟩
          = [(ascii "/field0", ascii "b"), (ascii "/field1", ascii "d")] :=
    ⟨_, rfl, rfl⟩
  obtain ⟨names, hsorted, hnames, hpairs⟩ := execRead_lists_record _
    (LevelDBExecutor.create SortedMap.empty) e' ⟨3, 0, 0, 1, 0, []⟩ rfl hrun rfl
  refine ⟨e', hrun, names, hsorted, fun name hname => ?_, hread, ?_⟩
  · obtain ⟨n, hn, -⟩ := (hnames name).mp hname
    exact ⟨n, hn⟩
  · rw [hpairs.length_eq, hread]
    rfl

/-! ## Both answers -/

theorem ofNat_eq_iff {a b : ℕ} : UInt64.ofNat a = UInt64.ofNat b ↔ a ≡ b [MOD 2 ^ 64] := by
  rw [← UInt64.toNat_inj, UInt64.toNat_ofNat', UInt64.toNat_ofNat']
  rfl

/-- The bytes of the names and values of fields. -/
def fieldBytes (fs : List Field) : ℕ :=
  (fs.map fun f => f.name.length + f.value.length).sum

/-- The bytes of a slash, the first word of the name and the value of each field. -/
def wordBytes (fs : List Field) : ℕ :=
  (fs.map fun f => (47 :: f.word).length + f.value.length).sum

/-- Without names the slashes are counted in, and what stands behind a white space is not. -/
theorem wordBytes_add (fs : List Field) :
    wordBytes fs + (fs.map fun f => f.cutOff.length).sum = fieldBytes fs + fs.length := by
  induction fs with
  | nil => rfl
  | cons f fs ih =>
    have hsplit : f.word.length + f.cutOff.length = f.name.length := by
      rw [← List.length_append, Field.word, Field.cutOff, List.takeWhile_append_dropWhile]
    rw [wordBytes, fieldBytes] at ih ⊢
    simp only [List.map_cons, List.sum_cons, List.length_cons] at ih ⊢
    omega

/-- Modulo a number, both come to the same when the bytes cut off are as many as the fields. -/
theorem wordBytes_modEq_iff (fs : List Field) (n : ℕ) :
    wordBytes fs ≡ fieldBytes fs [MOD n] ↔
      (fs.map fun f => f.cutOff.length).sum ≡ fs.length [MOD n] := by
  have hadd := wordBytes_add fs
  -- both sides with the bytes cut off added
  constructor
  · intro h
    have hsum := Nat.ModEq.add_right (fs.map fun f => f.cutOff.length).sum h
    rw [hadd] at hsum
    exact (Nat.ModEq.add_left_cancel' _ hsum).symm
  · intro h
    have hsum := Nat.ModEq.add_left (fieldBytes fs) h.symm
    rw [← hadd] at hsum
    exact Nat.ModEq.add_right_cancel' _ hsum

/-- **When reading all fields costs the same as naming them.** On every store that packages build
from the empty one, for every record key: a READ that names each stored field of the record once
answers with the bytes of the names and values, and a READ without names with the same number of
bytes if and only if as many bytes stand behind the first white space of the names, it included, as
there are fields, as numbers of 64 bits. -/
theorem read_all_bytes_iff (reqs : List (Package × Cycles)) (e e' : LevelDBExecutor)
    (cycles cycles' : Cycles) (pkg : Package) (kvs : List (Bytes × Bytes))
    (hempty : e.db = SortedMap.empty) (hrun : e.run reqs = .ok e')
    (hread : pkg.operation = some .read)
    (hnames : (kvs.map Prod.fst).Perm ((recordFields e'.db pkg.key).map Field.name)) :
    ∃ n n' e₁ e₂,
      e'.execute cycles { pkg with numKvs := 0, kvPairs := [] } = .ok (n, e₁) ∧
      e'.execute cycles' { pkg with numKvs := UInt8.ofNat kvs.length, kvPairs := kvs }
        = .ok (n', e₂) ∧
      n' = UInt64.ofNat (fieldBytes (recordFields e'.db pkg.key)) ∧
      (n = n' ↔ ((recordFields e'.db pkg.key).map fun f => f.cutOff.length).sum
        ≡ (recordFields e'.db pkg.key).length [MOD 2 ^ 64]) := by
  have hdb := stored_of_run hempty hrun
  have hop : ∀ numKvs kvPairs,
      ({ pkg with numKvs, kvPairs } : Package).operation = some .read := fun _ _ => hread
  have hall := @execRead_all _ hdb { pkg with numKvs := 0, kvPairs := [] } rfl
  have hnamed := @execRead_named _ hdb
    { pkg with numKvs := UInt8.ofNat kvs.length, kvPairs := kvs } hnames
  have hbytes' : resultBytes (execRead e'.db
      { pkg with numKvs := UInt8.ofNat kvs.length, kvPairs := kvs })
      = UInt64.ofNat (fieldBytes (recordFields e'.db pkg.key)) := by
    rw [resultBytes_eq, (hnamed.map _).sum_eq, List.map_map]
    rfl
  have hbytes : resultBytes (execRead e'.db { pkg with numKvs := 0, kvPairs := [] })
      = UInt64.ofNat (wordBytes (recordFields e'.db pkg.key)) := by
    rw [resultBytes_eq, hall, List.map_map]
    rfl
  refine ⟨_, _, _, _, by rw [execute, hop], by rw [execute, hop], hbytes', ?_⟩
  rw [hbytes', hbytes, ofNat_eq_iff]
  exact wordBytes_modEq_iff _ _

/-- A record whose one field name has a blank at its end: there is one byte from the first white
space on, and one field. -/
theorem read_all_bytes_blank :
    ∃ e', (LevelDBExecutor.create SortedMap.empty).run
        [(⟨1, 0, 1, 7, 0, [(ascii "0 ", ascii "a")]⟩, ⟨0, 0⟩)] = .ok e' ∧
      ∃ n e₁ e₂, e'.execute ⟨0, 0⟩ ⟨3, 0, 0, 7, 0, []⟩ = .ok (n, e₁) ∧
        e'.execute ⟨0, 0⟩ ⟨3, 0, 1, 7, 0, [(ascii "field0 ", [])]⟩ = .ok (n, e₂) := by
  obtain ⟨e', hrun, hfields⟩ :
      ∃ e', (LevelDBExecutor.create SortedMap.empty).run
          [(⟨1, 0, 1, 7, 0, [(ascii "0 ", ascii "a")]⟩, ⟨0, 0⟩)] = .ok e' ∧
        recordFields e'.db 7 = [⟨7, ascii "field0 ", ascii "a"⟩] :=
    ⟨_, rfl, rfl⟩
  obtain ⟨n, n', e₁, e₂, hall, hnamed, -, hiff⟩ := read_all_bytes_iff _
    (LevelDBExecutor.create SortedMap.empty) e' ⟨0, 0⟩ ⟨0, 0⟩ ⟨3, 0, 0, 7, 0, []⟩
    [(ascii "field0 ", [])] rfl hrun rfl (by rw [hfields]; exact List.Perm.refl _)
  have heq : n = n' := hiff.mpr (by rw [hfields]; decide)
  subst heq
  exact ⟨e', hrun, n, e₁, e₂, hall, hnamed⟩

/-- One record with one field: a READ of all fields counts the slash. -/
theorem read_all_counts_slash :
    ∃ e', (LevelDBExecutor.create SortedMap.empty).run
        [(⟨1, 0, 1, 7, 0, [(ascii "0", ascii "a")]⟩, ⟨0, 0⟩)] = .ok e' ∧
      (e'.execute ⟨0, 0⟩ ⟨3, 0, 0, 7, 0, []⟩).map Prod.fst = .ok 8 ∧
      (e'.execute ⟨0, 0⟩ ⟨3, 0, 1, 7, 0, [(ascii "field0", [])]⟩).map Prod.fst = .ok 7 ∧
      fieldBytes (recordFields e'.db 7) = 7 :=
  ⟨_, rfl, rfl, rfl, rfl⟩

end BenchLx.Ycsb
