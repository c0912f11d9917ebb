import BenchLx.Ycsb.KeyPacking

/-!
# The store as a table of records

Seen from outside the store maps pairs of a record key and a field name to values. The abstract
state is the history of the fields written, in package order and then in pair order; the store is
its image under `storedKey`, which loses nothing because `storedKey` is injective.
-/

namespace BenchLx.Ycsb

/-- The fields that a package writes, in pair order. -/
def Package.writes (pkg : Package) : List ((UInt64 × Bytes) × Bytes) :=
  match pkg.operation with
  | some .insert => pkg.kvPairs.map fun kv => ((pkg.key, kv.1), kv.2)
  | some .update => pkg.kvPairs.map fun kv => ((pkg.key, kv.1), kv.2)
  | _ => []

/-- The fields that a sequence of packages writes, in order. -/
def writesOf (pkgs : List Package) : List ((UInt64 × Bytes) × Bytes) :=
  pkgs.flatMap Package.writes

/-- The entry of the store for one written field. -/
def storedWrite (w : (UInt64 × Bytes) × Bytes) : Bytes × Bytes :=
  (storedKey w.1, w.2)

/-- The store that a history of written fields leaves. -/
def storeOf (ws : List ((UInt64 × Bytes) × Bytes)) : DB :=
  SortedMap.empty.putAll (ws.map storedWrite)

theorem execInsert_eq_putAll (db : DB) (pkg : Package) :
    execInsert db pkg
      = db.putAll ((pkg.kvPairs.map fun kv => ((pkg.key, kv.1), kv.2)).map storedWrite) := by
  rw [execInsert, SortedMap.putAll, List.map_map, List.foldl_map]
  rfl

namespace LevelDBExecutor

/-- The effect of one operation on the store: exactly the writes of its package. -/
theorem execute_db {e e' : LevelDBExecutor} {cycles : Cycles} {pkg : Package} {n : UInt64}
    (h : e.execute cycles pkg = .ok (n, e')) :
    e'.db = e.db.putAll (pkg.writes.map storedWrite) := by
  rw [execute] at h
  rw [Package.writes]
  cases hop : pkg.operation with
  | none =>
    rw [hop] at h
    obtain ⟨-, rfl⟩ := Prod.mk.inj (Except.ok.inj h)
    rfl
  | some op =>
    rw [hop] at h
    cases op with
    | insert =>
      obtain ⟨-, rfl⟩ := Prod.mk.inj (Except.ok.inj h)
      exact execInsert_eq_putAll e.db pkg
    | update =>
      obtain ⟨-, rfl⟩ := Prod.mk.inj (Except.ok.inj h)
      exact execInsert_eq_putAll e.db pkg
    | read =>
      obtain ⟨-, rfl⟩ := Prod.mk.inj (Except.ok.inj h)
      rfl
    | delete =>
      obtain ⟨-, rfl⟩ := Prod.mk.inj (Except.ok.inj h)
      rfl
    | scan =>
      obtain ⟨vals, -, h⟩ := bind_eq_ok.mp h
      obtain ⟨-, rfl⟩ := Prod.mk.inj (Except.ok.inj h)
      rfl

/-- The effect of a sequence of operations on the store. -/
theorem run_db {e e' : LevelDBExecutor} {reqs : List (Package × Cycles)}
    (h : e.run reqs = .ok e') :
    e'.db = e.db.putAll ((writesOf (reqs.map Prod.fst)).map storedWrite) := by
  induction reqs generalizing e with
  | nil =>
    obtain rfl := Except.ok.inj h
    rfl
  | cons req reqs ih =>
    obtain ⟨pkg, cycles⟩ := req
    obtain ⟨⟨n, e₁⟩, hexec, hrun⟩ := bind_eq_ok.mp h
    rw [ih hrun, execute_db hexec, ← SortedMap.putAll_append, ← List.map_append]
    rfl

end LevelDBExecutor

/-- The entries of the store that a history leaves: one for each field written, with the last value
written to it. -/
theorem mem_storeOf_iff {ws : List ((UInt64 × Bytes) × Bytes)} {key v : Bytes} :
    (key, v) ∈ (storeOf ws).entries ↔
      ∃ k f, key = storedKey (k, f) ∧ lastWrite (k, f) ws = some v := by
  rw [SortedMap.mem_entries_iff, storeOf, SortedMap.get_putAll]
  simp only [SortedMap.get_empty, Option.or_none]
  have hmap := lastWrite_map_eq_some_iff storedKey_injective (b := key) (v := v) ws
  constructor
  · intro h
    obtain ⟨⟨k, f⟩, hkf⟩ := hmap.mp h
    exact ⟨k, f, hkf⟩
  · rintro ⟨k, f, hkf⟩
    exact hmap.mpr ⟨(k, f), hkf⟩

/-- A named read returns, in request order, the values of the names that are a prefixed field of
the record. -/
theorem execRead_storeOf {ws : List ((UInt64 × Bytes) × Bytes)} {pkg : Package}
    (hnames : pkg.kvPairs ≠ []) :
    ∃ vals : Bytes → Option Bytes,
      (∀ name v, vals name = some v ↔
        ∃ f, name = fieldPrefix ++ f ∧ lastWrite (pkg.key, f) ws = some v) ∧
      execRead (storeOf ws) pkg
        = pkg.kvPairs.filterMap fun kv => (vals kv.1).map fun v => (kv.1, v) := by
  refine ⟨fun name => (storeOf ws).get (packKey pkg.key name []), fun name v => ?_, ?_⟩
  · rw [← SortedMap.mem_entries_iff, mem_storeOf_iff]
    simp only [packKey_eq_storedKey_iff]
    constructor
    · rintro ⟨k, f, ⟨rfl, hname⟩, hlast⟩
      exact ⟨f, hname, hlast⟩
    · rintro ⟨f, hname, hlast⟩
      exact ⟨pkg.key, f, ⟨rfl, hname⟩, hlast⟩
  · rw [execRead, if_neg (by simpa using hnames)]

/-- **The store is the table of written fields.** After any sequence of packages that are all
executed normally from the empty store: its entries are exactly the fields ever written, each under
a key of its own and with the last value written; operations other than INSERT and UPDATE leave the
store as it is; and a READ that names fields returns, in request order, the values of exactly the
names that are the prefix followed by a written field of its record. -/
theorem run_refines_records (reqs : List (Package × Cycles)) (e e' : LevelDBExecutor)
    (hempty : e.db = SortedMap.empty) (hrun : e.run reqs = .ok e') :
    (∀ key v, (key, v) ∈ e'.db.entries ↔
      ∃ k f, key = packKey k f (ascii "field") ∧
        lastWrite (k, f) (writesOf (reqs.map Prod.fst)) = some v) ∧
    (∀ k f, (∃ v, ((k, f), v) ∈ writesOf (reqs.map Prod.fst)) →
      ∃ v, (packKey k f (ascii "field"), v) ∈ e'.db.entries) ∧
    (e'.db.entries.map Prod.fst).Nodup ∧
    (∀ k f k' f', packKey k f (ascii "field") = packKey k' f' (ascii "field") →
      k = k' ∧ f = f') ∧
    (∀ (e₁ e₂ : LevelDBExecutor) (cycles : Cycles) (pkg : Package) (n : UInt64),
      pkg.operation ≠ some .insert → pkg.operation ≠ some .update →
      e₁.execute cycles pkg = .ok (n, e₂) → e₂.db = e₁.db) ∧
    ∀ pkg : Package, pkg.kvPairs ≠ [] →
      ∃ vals : Bytes → Option Bytes,
        (∀ name v, vals name = some v ↔
          ∃ f, name = ascii "field" ++ f ∧
            lastWrite (pkg.key, f) (writesOf (reqs.map Prod.fst)) = some v) ∧
        execRead e'.db pkg
          = pkg.kvPairs.filterMap fun kv => (vals kv.1).map fun v => (kv.1, v) := by
  have hdb : e'.db = storeOf (writesOf (reqs.map Prod.fst)) := by
    rw [LevelDBExecutor.run_db hrun, hempty, storeOf]
  refine ⟨fun key v => ?_, fun k f ⟨v, hv⟩ => ?_, ?_, fun k f k' f' h => ?_,
    fun e₁ e₂ cycles pkg n hins hupd h => ?_, fun pkg hnames => ?_⟩
  · rw [hdb]
    exact mem_storeOf_iff
  · obtain ⟨v', hv'⟩ := exists_lastWrite hv
    rw [hdb]
    exact ⟨v', mem_storeOf_iff.mpr ⟨k, f, rfl, hv'⟩⟩
  · exact (List.pairwise_map.mpr e'.db.sorted).imp fun hlt => hlt.ne
  · exact Prod.mk.inj (@storedKey_injective (k, f) (k', f') h)
  · have hwrites : pkg.writes = [] := by
      rw [Package.writes]
      split <;> simp_all
    rw [LevelDBExecutor.execute_db h, hwrites]
    rfl
  · rw [hdb]
    exact execRead_storeOf hnames

/-- Two updates of one field leave one entry with the later value. -/
theorem run_refines_records_update :
    ∃ e', (LevelDBExecutor.create SortedMap.empty).run
        [(⟨5, 0, 1, 7, 0, [(ascii "0", ascii "a")]⟩, ⟨0, 0⟩),
          (⟨5, 0, 1, 7, 0, [(ascii "0", ascii "b")]⟩, ⟨0, 0⟩)] = .ok e' ∧
      (packKey 7 (ascii "0") (ascii "field"), ascii "b") ∈ e'.db.entries ∧
      (e'.db.entries.map Prod.fst).Nodup := by
  obtain ⟨hentries, -, hnodup, -⟩ := run_refines_records
    [(⟨5, 0, 1, 7, 0, [(ascii "0", ascii "a")]⟩, ⟨0, 0⟩),
      (⟨5, 0, 1, 7, 0, [(ascii "0", ascii "b")]⟩, ⟨0, 0⟩)] (LevelDBExecutor.create SortedMap.empty)
    _ rfl rfl
  exact ⟨_, rfl, (hentries _ _).mpr ⟨7, ascii "0", rfl, by decide⟩, hnodup⟩

end BenchLx.Ycsb
