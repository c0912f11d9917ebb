import BenchLx.Ycsb.RecordStore

/-!
# When a scan throws

`unpack_key` parses record keys as signed numbers while `pack_key` prints unsigned ones. A scan over
a store whose record keys are all below `2 ^ 63` never throws; as soon as the store has another one,
a scan that reaches it does.
-/

namespace BenchLx.Ycsb

/-- A scan over keys below `2 ^ 63` returns. -/
theorem scanLoop_returns {pkg : Package} {entries : List (Bytes × Bytes)}
    (hkeys : ∀ entry ∈ entries, ∃ k f, entry.1 = storedKey (k, f) ∧ k.toNat < 2 ^ 63)
    (rem lastKey : UInt64) (res : List (Bytes × Bytes)) :
    ∃ vals, scanLoop pkg entries rem lastKey res = .ok vals := by
  induction entries generalizing rem lastKey res with
  | nil => exact ⟨res, rfl⟩
  | cons entry entries ih =>
    obtain ⟨k, f, hkey, hk⟩ := hkeys entry List.mem_cons_self
    have htail := ih fun e he => hkeys e (List.mem_cons_of_mem entry he)
    rw [scanLoop]
    split
    · rw [hkey, storedKey, unpackKey_packKey, if_pos hk, ok_bind]
      split
      · split
        · exact htail _ _ _
        · exact htail _ _ _
      · exact htail _ _ _
    · exact ⟨res, rfl⟩

/-- A scan from the largest key takes nothing, and so visits every entry: it throws as soon as one
of them has a key from `2 ^ 63` on. -/
theorem scanLoop_throws {pkg : Package} (hstart : pkg.key.toNat = 2 ^ 64 - 1)
    {entries : List (Bytes × Bytes)} (hkeys : ∀ entry ∈ entries, ∃ k f, entry.1 = storedKey (k, f))
    (hlarge : ∃ entry ∈ entries, ∃ k f, entry.1 = storedKey (k, f) ∧ 2 ^ 63 ≤ k.toNat)
    {rem : UInt64} (hrem : rem > 0) (lastKey : UInt64) (res : List (Bytes × Bytes)) :
    scanLoop pkg entries rem lastKey res = .error .outOfRange := by
  induction entries with
  | nil => simp at hlarge
  | cons entry entries ih =>
    obtain ⟨k, f, hkey⟩ := hkeys entry List.mem_cons_self
    rw [scanLoop, if_pos hrem, hkey, storedKey, unpackKey_packKey]
    by_cases hk : k.toNat < 2 ^ 63
    · have hlt : ¬ k ≥ pkg.key := by
        rw [ge_iff_le, UInt64.le_iff_toNat_le, hstart]
        omega
      rw [if_pos hk, ok_bind, if_neg hlt]
      refine ih (fun e he => hkeys e (List.mem_cons_of_mem entry he)) ?_
      obtain ⟨e, he, k', f', hkey', hk'⟩ := hlarge
      rcases List.mem_cons.mp he with rfl | he
      · obtain ⟨rfl, -⟩ := Prod.mk.inj (@storedKey_injective (k, f) (k', f') (hkey ▸ hkey'))
        omega
      · exact ⟨e, he, k', f', hkey', hk'⟩
    · rw [if_neg hk, error_bind]

/-- The keys of the store that a history leaves are those of its writes. -/
theorem storedKey_of_mem_storeOf {ws : List ((UInt64 × Bytes) × Bytes)} {entry : Bytes × Bytes}
    (h : entry ∈ (storeOf ws).entries) :
    ∃ k f, entry.1 = storedKey (k, f) ∧ ∃ v, ((k, f), v) ∈ ws := by
  obtain ⟨k, f, hkey, hlast⟩ := mem_storeOf_iff.mp h
  exact ⟨k, f, hkey, _, mem_of_lastWrite hlast⟩

/-- A scan visits entries of the store in the order of the store. -/
theorem scanEntries_sublist (db : DB) (pkg : Package) :
    (scanEntries db pkg).Sublist db.entries := by
  rw [scanEntries]
  split
  · exact List.dropWhile_sublist _
  · exact List.Sublist.refl _

theorem scanEntries_subset {db : DB} {pkg : Package} {entry : Bytes × Bytes}
    (h : entry ∈ scanEntries db pkg) : entry ∈ db.entries :=
  (scanEntries_sublist db pkg).subset h

/-- A scan over a store whose record keys are below `2 ^ 63` returns. -/
theorem execScan_storeOf_returns {ws : List ((UInt64 × Bytes) × Bytes)}
    (hkeys : ∀ w ∈ ws, w.1.1.toNat < 2 ^ 63) (pkg : Package) :
    ∃ vals, execScan (storeOf ws) pkg = .ok vals := by
  refine scanLoop_returns (fun entry hentry => ?_) _ _ _
  obtain ⟨k, f, hkey, v, hw⟩ := storedKey_of_mem_storeOf (scanEntries_subset hentry)
  exact ⟨k, f, hkey, hkeys _ hw⟩

/-- Scans over a store return for every package exactly when all its record keys are below
`2 ^ 63`. -/
theorem execScan_returns_iff (ws : List ((UInt64 × Bytes) × Bytes)) :
    (∀ pkg : Package, pkg.operation = some .scan → ∃ vals, execScan (storeOf ws) pkg = .ok vals) ↔
      ∀ w ∈ ws, w.1.1.toNat < 2 ^ 63 := by
  constructor
  · intro hscan w hw
    by_contra hk
    let pkg : Package :=
      { op := 4, table := 0, numKvs := 0, key := UInt64.ofNat (2 ^ 64 - 1), scanLength := 1
        kvPairs := [] }
    obtain ⟨vals, hvals⟩ := hscan pkg rfl
    -- the field that `w` writes is stored, whatever later writes made of its value
    obtain ⟨v, hv⟩ := exists_lastWrite hw
    have hmem : (storedKey w.1, v) ∈ (storeOf ws).entries := mem_storeOf_iff.mpr ⟨_, _, rfl, hv⟩
    have hthrow : execScan (storeOf ws) pkg = .error .outOfRange := by
      refine scanLoop_throws (by decide) (fun entry hentry => ?_)
        ⟨_, hmem, w.1.1, w.1.2, rfl, not_lt.mp hk⟩ (by decide) _ _
      obtain ⟨k, f, hkey, -⟩ := storedKey_of_mem_storeOf hentry
      exact ⟨k, f, hkey⟩
    rw [hthrow] at hvals
    cases hvals
  · intro hkeys pkg _
    exact execScan_storeOf_returns hkeys pkg

namespace LevelDBExecutor

/-- A scan is the only operation that can fail to return. -/
theorem execute_returns {e : LevelDBExecutor} {cycles : Cycles} {pkg : Package}
    (hscan : pkg.operation = some .scan → ∃ vals, execScan e.db pkg = .ok vals) :
    ∃ r, e.execute cycles pkg = .ok r := by
  rw [execute]
  cases hop : pkg.operation with
  | none => exact ⟨_, rfl⟩
  | some op =>
    cases op with
    | scan =>
      obtain ⟨vals, hvals⟩ := hscan hop
      rw [hvals]
      exact ⟨_, rfl⟩
    | insert => exact ⟨_, rfl⟩
    | update => exact ⟨_, rfl⟩
    | read => exact ⟨_, rfl⟩
    | delete => exact ⟨_, rfl⟩

/-- A sequence of packages that writes only keys below `2 ^ 63` is executed to its end. -/
theorem run_returns (ws : List ((UInt64 × Bytes) × Bytes)) {e : LevelDBExecutor}
    (hdb : e.db = storeOf ws) {reqs : List (Package × Cycles)}
    (hkeys : ∀ w ∈ ws ++ writesOf (reqs.map Prod.fst), w.1.1.toNat < 2 ^ 63) :
    ∃ e', e.run reqs = .ok e' := by
  induction reqs generalizing ws e with
  | nil => exact ⟨e, rfl⟩
  | cons req reqs ih =>
    obtain ⟨pkg, cycles⟩ := req
    obtain ⟨⟨n, e₁⟩, hexec⟩ : ∃ r, e.execute cycles pkg = .ok r := by
      refine execute_returns fun hop => ?_
      rw [hdb]
      exact (execScan_returns_iff ws).mpr (fun w hw => hkeys w (List.mem_append_left _ hw)) pkg hop
    obtain ⟨e', hrun⟩ := ih (ws ++ pkg.writes)
      (by rw [execute_db hexec, hdb, storeOf, storeOf, List.map_append, SortedMap.putAll_append])
      (by simpa [writesOf] using hkeys)
    exact ⟨e', bind_eq_ok.mpr ⟨_, hexec, hrun⟩⟩

end LevelDBExecutor

/-- **Record keys survive packing exactly below `2 ^ 63`.** `unpack_key` inverts `pack_key` for a
record key if and only if it is below `2 ^ 63`. A sequence of packages whose INSERTs and UPDATEs
write only such keys is executed to its end; and after any sequence that was, scans return for every
package if and only if all keys written are below `2 ^ 63`. -/
theorem unpackKey_inverts_packKey_iff (k : UInt64) (f : Bytes) (reqs : List (Package × Cycles))
    (e : LevelDBExecutor) (hempty : e.db = SortedMap.empty) :
    (unpackKey (packKey k f (ascii "field")) = .ok (k, ascii "field" ++ f) ↔ k.toNat < 2 ^ 63) ∧
    ((∀ w ∈ writesOf (reqs.map Prod.fst), w.1.1.toNat < 2 ^ 63) → ∃ e', e.run reqs = .ok e') ∧
    ∀ e', e.run reqs = .ok e' →
      ((∀ (cycles : Cycles) (pkg : Package), pkg.operation = some .scan →
          ∃ r, e'.execute cycles pkg = .ok r) ↔
        ∀ w ∈ writesOf (reqs.map Prod.fst), w.1.1.toNat < 2 ^ 63) := by
  refine ⟨?_, fun hkeys => ?_, fun e' hrun => ?_⟩
  · rw [unpackKey_packKey]
    split
    · next hk => exact iff_of_true rfl hk
    · next hk => exact iff_of_false (fun h => by cases h) hk
  · exact LevelDBExecutor.run_returns [] hempty (by simpa using hkeys)
  · have hdb : e'.db = storeOf (writesOf (reqs.map Prod.fst)) := by
      rw [LevelDBExecutor.run_db hrun, hempty, storeOf]
    rw [← execScan_returns_iff, ← hdb]
    constructor
    · intro hexec pkg hop
      obtain ⟨r, hr⟩ := hexec ⟨0, 0⟩ pkg hop
      rw [LevelDBExecutor.execute, hop] at hr
      obtain ⟨vals, hvals, -⟩ := bind_eq_ok.mp hr
      exact ⟨vals, hvals⟩
    · intro hscan cycles pkg hop
      exact LevelDBExecutor.execute_returns fun _ => hscan pkg hop

/-- An insert of key 7, executed from the empty store. -/
theorem unpackKey_inverts_packKey_seven :
    unpackKey (packKey 7 (ascii "0") (ascii "field")) = .ok (7, ascii "field" ++ ascii "0") ∧
    ∃ e', (LevelDBExecutor.create SortedMap.empty).run
        [(⟨1, 0, 1, 7, 0, [(ascii "0", ascii "a")]⟩, ⟨0, 0⟩)] = .ok e' ∧
      ∀ (cycles : Cycles) (pkg : Package), pkg.operation = some .scan →
        ∃ r, e'.execute cycles pkg = .ok r := by
  obtain ⟨hkey, -, hrun⟩ := unpackKey_inverts_packKey_iff 7 (ascii "0")
    [(⟨1, 0, 1, 7, 0, [(ascii "0", ascii "a")]⟩, ⟨0, 0⟩)]
    (LevelDBExecutor.create SortedMap.empty) rfl
  exact ⟨hkey.mpr (by decide), _, rfl, (hrun _ rfl).mpr (by decide)⟩

/-- Key `2 ^ 63` does not survive: unpacking it throws, and so does a scan after an insert of it. -/
theorem unpackKey_throws_at_two_pow_63 :
    ¬ (∀ (k : UInt64) (f : Bytes),
        unpackKey (packKey k f (ascii "field")) = .ok (k, ascii "field" ++ f)) ∧
    unpackKey (packKey 9223372036854775808 (ascii "0") (ascii "field")) = .error .outOfRange ∧
    (LevelDBExecutor.create SortedMap.empty).run
      [(⟨1, 0, 1, 9223372036854775808, 0, [(ascii "0", ascii "a")]⟩, ⟨0, 0⟩),
        (⟨4, 0, 0, 0, 1, []⟩, ⟨0, 0⟩)] = .error .outOfRange := by
  have hthrow : unpackKey (packKey 9223372036854775808 (ascii "0") (ascii "field"))
      = .error .outOfRange := by
    rw [unpackKey_packKey]
    rfl
  refine ⟨fun h => ?_, hthrow, rfl⟩
  have hok := h 9223372036854775808 (ascii "0")
  rw [hthrow] at hok
  cases hok

end BenchLx.Ycsb
