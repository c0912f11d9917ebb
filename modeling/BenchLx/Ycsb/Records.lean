import BenchLx.Common.Sharding
import BenchLx.Ycsb.Transports

/-!
# Records are independent

Apart from SCAN an operation only looks at the record with its key, and only changes that: the
entries of the store whose key reads back as the key of the record. So the operations can be
distributed over several servers by their keys (`serves_by_shard`), and the operations of different
records may arrive in any order (`order_between_records`).
-/

namespace BenchLx.Ycsb

/-! ## Parts of the store -/

section Shard

variable {C : Type*} [DecidableEq C] (c : UInt64 → C)

/-- The entries whose key starts with a number in the class `x`. -/
def shardOf (x : C) (db : DB) : DB :=
  db.restrict fun key => c (extractU64 key).1 = x

/-- Reading looks at the record only. -/
theorem execRead_shardOf (db : DB) (pkg : Package) :
    execRead (shardOf c (c pkg.key) db) pkg = execRead db pkg := by
  rw [execRead, execRead]
  by_cases hempty : pkg.kvPairs.isEmpty = true
  · rw [if_pos hempty, if_pos hempty, shardOf, SortedMap.restrict, List.filterMap_filter]
    refine List.filterMap_congr fun e _ => ?_
    by_cases hkey : (extractU64 e.1).1 = pkg.key
    · simp [hkey]
    · simp [hkey]
  · rw [if_neg hempty, if_neg hempty]
    refine List.filterMap_congr fun kv _ => ?_
    rw [shardOf, SortedMap.get_restrict, extractU64_packKey, if_pos (by simp)]

theorem key_of_mem_writes {pkg : Package} {w : (UInt64 × Bytes) × Bytes} (hw : w ∈ pkg.writes) :
    w.1.1 = pkg.key := by
  rw [Package.writes] at hw
  split at hw
  · obtain ⟨kv, -, rfl⟩ := List.mem_map.mp hw
    rfl
  · obtain ⟨kv, -, rfl⟩ := List.mem_map.mp hw
    rfl
  · cases hw

theorem extractU64_of_mem_writes {pkg : Package} {w : Bytes × Bytes}
    (hw : w ∈ pkg.writes.map storedWrite) : (extractU64 w.1).1 = pkg.key := by
  obtain ⟨w', hw', rfl⟩ := List.mem_map.mp hw
  rw [storedWrite, storedKey, extractU64_packKey, key_of_mem_writes hw']

/-- Writing changes the record only. -/
theorem shardOf_storeAfter (x : C) (db : DB) (pkg : Package) :
    shardOf c x (storeAfter db pkg)
      = if c pkg.key = x then storeAfter (shardOf c x db) pkg else shardOf c x db := by
  by_cases hx : c pkg.key = x
  · rw [if_pos hx]
    exact SortedMap.restrict_putAll_of_forall db fun w hw => by
      simp [extractU64_of_mem_writes hw, hx]
  · rw [if_neg hx]
    exact SortedMap.restrict_putAll_of_forall_not db fun w hw => by
      simp [extractU64_of_mem_writes hw, hx]

/-- Without SCAN a result is one of the record. -/
theorem resultOf_shardOf (db : DB) {pkg : Package} (hscan : pkg.operation ≠ some .scan) :
    resultOf (shardOf c (c pkg.key) db) pkg = resultOf db pkg := by
  rw [resultOf, resultOf]
  cases hop : pkg.operation with
  | none => rfl
  | some op =>
    cases op with
    | read => simp only [execRead_shardOf]
    | scan => exact absurd hop hscan
    | insert | update | delete => rfl

end Shard

/-! ## The service without SCAN -/

/-- One package: the store after it, and the size of its result. -/
def answer (db : DB) (pkg : Package) : DB × UInt64 :=
  (storeAfter db pkg, (resultOf db pkg).toOption.getD 0)

theorem resultOf_eq_ok (db : DB) {pkg : Package} (hscan : pkg.operation ≠ some .scan) :
    resultOf db pkg = .ok (answer db pkg).2 := by
  rw [answer, resultOf]
  cases hop : pkg.operation with
  | none => rfl
  | some op =>
    cases op with
    | scan => exact absurd hop hscan
    | insert | update | read | delete => rfl

/-- No package without SCAN throws, so the service goes through all of them. -/
theorem service_eq_answers (db : DB) {pkgs : List Package}
    (hscan : ∀ pkg ∈ pkgs, pkg.operation ≠ some .scan) :
    service db pkgs
      = { store := Machine.after answer db pkgs, log := Machine.answers answer db pkgs
          error := none } := by
  induction pkgs generalizing db with
  | nil => rfl
  | cons pkg pkgs ih =>
    rw [service, resultOf_eq_ok db (hscan pkg (by simp))]
    simp only [ih (storeAfter db pkg) fun p hp => hscan p (by simp [hp])]
    rfl

/-- The store splits by any classes of keys. -/
theorem answer_splits {C : Type*} [DecidableEq C] (c : UInt64 → C) :
    Machine.SplitsBy answer (fun pkg => c pkg.key) (shardOf c)
      fun pkg => pkg.operation ≠ some .scan where
  frame _ hk := by rw [answer, shardOf_storeAfter, if_neg hk]
  view_eq _ hs := by simp only [answer, shardOf_storeAfter, if_true, hs]
  answer_eq {s s' e} hscan hs := by
    rw [answer, answer, ← resultOf_shardOf c s hscan, hs, resultOf_shardOf c s' hscan]

/-! ## Runs of the server -/

section Runs

variable {H H' : Type} {db : DB} {ps ps' : List (Option Package)} {run : Run H} {run' : Run H'}

/-- What a run without SCAN has served. -/
theorem ServesAll.eq_answers (hrun : ServesAll db ps run)
    (hscan : ∀ pkg ∈ ps.reduceOption, pkg.operation ≠ some .scan) :
    run.status = .ended ∧ run.server.exec.db = Machine.after answer db ps.reduceOption ∧
      run.log = Machine.answers answer db ps.reduceOption := by
  have hserved := hrun.served
  rw [service_eq_answers db hscan] at hserved
  refine ⟨?_, (congrArg Served.store hserved).symm, (congrArg Served.log hserved).symm⟩
  rw [hrun.status, ← hserved]

end Runs

/-- **Servers for parts of the keys.** Let one server serve packages without SCAN, and another one
on the same store only those of them whose keys are in a class `x`, over any transports. Then the
other server gives the same results, one by one, as the first gives for the keys in `x`, and the
entries of these keys are the same in both stores. -/
theorem serves_by_shard {C : Type} [DecidableEq C] (c : UInt64 → C) (x : C) {H H' : Type}
    (run : Run H) (run' : Run H') (db : DB) (ps ps' : List (Option Package))
    (hrun : ServesAll db ps run) (hrun' : ServesAll db ps' run')
    (hscan : ∀ pkg ∈ ps.reduceOption, pkg.operation ≠ some .scan)
    (hpart : ps'.reduceOption = ps.reduceOption.filter fun pkg => c pkg.key = x) :
    (run.log.filter fun e => c e.1.key = x) = run'.log ∧
      shardOf c x run.server.exec.db = shardOf c x run'.server.exec.db := by
  have hscan' : ∀ pkg ∈ ps'.reduceOption, pkg.operation ≠ some .scan := by
    intro pkg hpkg
    rw [hpart] at hpkg
    exact hscan pkg (List.mem_filter.mp hpkg).1
  obtain ⟨-, hdb, hlog⟩ := hrun.eq_answers hscan
  obtain ⟨-, hdb', hlog'⟩ := hrun'.eq_answers hscan'
  obtain ⟨hview, hanswers⟩ := (answer_splits c).filter (k := x) hscan
    (rfl : shardOf c x db = shardOf c x db)
  rw [hdb, hdb', hlog, hlog', hpart]
  exact ⟨hanswers, hview⟩

theorem encode_le_packageBufferSize :
    ∀ m ∈ [updateMessage, readMessage], m.encode.length ≤ packageBufferSize := by
  decide

open SortedMap (empty) in
/-- A server for the keys that leave 3 modulo 4 beside one for all keys: of an update of record 7
and a READ of record 9 it gets the update. -/
theorem serves_by_shard_mod_four :
    (pairwiseRun empty [updateMessage]).log = [(updateMessage.toPackage, 4)] ∧
      ((pairwiseRun empty [updateMessage, readMessage]).log.filter
          fun e => e.1.key.toNat % 4 = 3) = (pairwiseRun empty [updateMessage]).log ∧
      shardOf (fun k => k.toNat % 4) 3
          (pairwiseRun empty [updateMessage, readMessage]).server.exec.db
        = shardOf (fun k => k.toNat % 4) 3
          (pairwiseRun empty [updateMessage]).server.exec.db := by
  have hserves := servesAll_pairwiseRun empty encode_le_packageBufferSize
  have hserves' := @servesAll_pairwiseRun empty [updateMessage] (by decide)
  refine ⟨(congrArg Served.log hserves'.served).symm, ?_⟩
  exact serves_by_shard (fun k => k.toNat % 4) 3 _ _ empty _ _ hserves hserves' (by decide)
    (by decide)

/-- **The order between records does not matter.** Let two servers serve packages without SCAN on
the same store, over any transports, and let the packages of every record be the same in the same
order. Then both leave the same store, and for every record they give the same results. -/
theorem order_between_records {H H' : Type} (run : Run H) (run' : Run H') (db : DB)
    (ps ps' : List (Option Package)) (hrun : ServesAll db ps run) (hrun' : ServesAll db ps' run')
    (hscan : ∀ pkg ∈ ps.reduceOption, pkg.operation ≠ some .scan)
    (hsame : ∀ k, (ps.reduceOption.filter fun pkg => pkg.key = k)
      = ps'.reduceOption.filter fun pkg => pkg.key = k) :
    run.server.exec.db = run'.server.exec.db ∧
      ∀ k, (run.log.filter fun e => e.1.key = k) = run'.log.filter fun e => e.1.key = k := by
  have hscan' : ∀ pkg ∈ ps'.reduceOption, pkg.operation ≠ some .scan := by
    intro pkg hpkg
    have hmem : pkg ∈ ps'.reduceOption.filter fun p => p.key = pkg.key :=
      List.mem_filter.mpr ⟨hpkg, by simp⟩
    rw [← hsame] at hmem
    exact hscan pkg (List.mem_filter.mp hmem).1
  obtain ⟨-, hdb, hlog⟩ := hrun.eq_answers hscan
  obtain ⟨-, hdb', hlog'⟩ := hrun'.eq_answers hscan'
  have hreorder := fun k => (answer_splits id).reorder hscan hscan' k (hsame k) db
  rw [hdb, hdb', hlog, hlog']
  exact ⟨SortedMap.eq_of_restrict_eq (fun key => (extractU64 key).1) fun k => (hreorder k).1,
    fun k => (hreorder k).2⟩

open SortedMap (empty) in
/-- An update of record 7 and a READ of record 9 in both orders. -/
theorem order_between_records_swap :
    (pairwiseRun empty [updateMessage, readMessage]).server.exec.db
      = (pairwiseRun empty [readMessage, updateMessage]).server.exec.db :=
  (order_between_records (pairwiseRun empty [updateMessage, readMessage])
    (pairwiseRun empty [readMessage, updateMessage]) empty _ _
    (servesAll_pairwiseRun _ encode_le_packageBufferSize)
    (servesAll_pairwiseRun _ (by decide)) (by decide) (by
      intro k
      by_cases h₇ : (7 : UInt64) = k
      · subst h₇
        decide
      · by_cases h₉ : (9 : UInt64) = k
        · subst h₉
          decide
        · simp [List.reduceOption, updateMessage, readMessage, h₇, h₉])).1

end BenchLx.Ycsb
