import BenchLx.Ycsb.ReadAll
import BenchLx.Ycsb.Transports

/-!
# How large store and replies can become

The lengths in a message are single bytes, so whatever a client sends or a workload file contains,
the packages that the server executes are short, also those that `from_bytes` rejects and the UDP
handler executes all the same. From that follow bounds that hold in every state of every run: on the
entries of the store, on their number, and on the size of each reply.
-/

namespace BenchLx.Ycsb

/-! ## Packages -/

/-- What the one-byte fields of the format allow. -/
structure Package.Short (pkg : Package) : Prop where
  pairs : pkg.kvPairs.length ≤ 255
  short : ∀ kv ∈ pkg.kvPairs, ShortPair kv

theorem fromBytesLoop_short {buf : Ptr} {size left pos r : ℕ} {pkg pkg' : Package}
    (h : fromBytesLoop buf size left pos pkg = .ok (r, pkg'))
    (hshort : ∀ kv ∈ pkg.kvPairs, ShortPair kv) :
    pkg'.kvPairs.length ≤ pkg.kvPairs.length + left ∧ ∀ kv ∈ pkg'.kvPairs, ShortPair kv := by
  induction left generalizing pos pkg with
  | zero =>
    cases h
    exact ⟨le_refl _, hshort⟩
  | succ left ih =>
    rw [fromBytesLoop] at h
    split at h
    · cases h
      exact ⟨Nat.le_add_right _ _, hshort⟩
    · obtain ⟨keyLen, -, h⟩ := bind_eq_ok.mp h
      obtain ⟨valLen, -, h⟩ := bind_eq_ok.mp h
      split at h
      · cases h
        exact ⟨Nat.le_add_right _ _, hshort⟩
      · obtain ⟨key, hkey, h⟩ := bind_eq_ok.mp h
        obtain ⟨val, hval, h⟩ := bind_eq_ok.mp h
        have hpair : ShortPair (key, val) := by
          have hkeyLen := keyLen.toNat_lt
          have hvalLen := valLen.toNat_lt
          rw [ShortPair, (Ptr.read_eq_ok_iff.mp hkey).1, (Ptr.read_eq_ok_iff.mp hval).1]
          omega
        obtain ⟨hlen, hall⟩ := ih h (List.forall_mem_append.mpr ⟨hshort, by simpa using hpair⟩)
        rw [List.length_append, List.length_singleton] at hlen
        exact ⟨by omega, hall⟩

/-- Whatever `from_bytes` returns, the pairs it leaves in a fresh package are short. -/
theorem fromBytes_short {buf : Ptr} {size r : ℕ} {pkg : Package}
    (h : fromBytes buf size Package.fresh = .ok (r, pkg)) : pkg.Short := by
  obtain ⟨op, table, numKvs, key, scanLength, -, hloop⟩ := fromBytes_eq_ok_iff.mp h
  obtain ⟨hlen, hshort⟩ := fromBytesLoop_short hloop fun kv hkv => by cases hkv
  have hcount := numKvs.toNat_lt
  simp only [Package.fresh, List.length_nil] at hlen
  exact ⟨by omega, hshort⟩

/-- The packages that a handler hands to the loop are short. -/
def HandsOverShort {H : Type} (hdl : OpHandler H) : Prop :=
  ∀ h pkg h', hdl.receive h Package.fresh = .ok (.ready, pkg, h') → pkg.Short

theorem TCPOpHandler.handsOverShort : HandsOverShort TCPOpHandler.hdl := by
  intro h pkg h' hreceive
  cases TCPOpHandler.receive_eq_ok_iff.mp hreceive with
  | accepted _ _ _ hdecode => exact fromBytes_short hdecode

theorem UDPOpHandler.handsOverShort : HandsOverShort UDPOpHandler.hdl := by
  intro h pkg h' hreceive
  cases UDPOpHandler.receive_eq_ok_iff.mp hreceive with
  | replay _ _ _ hparse => exact fromBytes_short hparse

/-! ## The store -/

/-- An entry under a packed key whose field name and value are short. -/
def ShortEntry (e : Bytes × Bytes) : Prop :=
  ∃ k f, e.1 = storedKey (k, f) ∧ ShortPair (f, e.2)

/-- A store of short entries. -/
def Bounded (db : DB) : Prop :=
  ∀ e ∈ db.entries, ShortEntry e

theorem ShortEntry.stored {e : Bytes × Bytes} (h : ShortEntry e) : Stored e := by
  obtain ⟨k, f, hkey, -⟩ := h
  exact ⟨k, f, hkey⟩

theorem length_fieldPrefix : fieldPrefix.length = 5 := by decide

/-- A record key has at most twenty digits, so a key has at most 281 bytes. -/
theorem ShortEntry.length_le {e : Bytes × Bytes} (h : ShortEntry e) :
    e.1.length ≤ 281 ∧ e.2.length ≤ 255 := by
  obtain ⟨k, f, hkey, hname, hvalue⟩ := h
  have hdigits : (decimal k.toNat).length ≤ 20 := by
    have hmono := @decimal_length_mono k.toNat 18446744073709551615 (by have := k.toNat_lt; omega)
    exact hmono.trans (by decide)
  refine ⟨?_, hvalue⟩
  simp only at hname hkey
  rw [hkey, storedKey, packKey_eq, List.length_append, List.length_cons, List.length_append,
    length_fieldPrefix]
  simp only
  omega

theorem shortEntry_of_mem_writes {pkg : Package} (hpkg : pkg.Short) {e : Bytes × Bytes}
    (he : e ∈ pkg.writes.map storedWrite) : ShortEntry e := by
  have hpair : ∀ kv ∈ pkg.kvPairs, ShortEntry (storedWrite ((pkg.key, kv.1), kv.2)) :=
    fun kv hkv => ⟨pkg.key, kv.1, rfl, hpkg.short kv hkv⟩
  obtain ⟨w, hw, rfl⟩ := List.mem_map.mp he
  rw [Package.writes] at hw
  split at hw
  · obtain ⟨kv, hkv, rfl⟩ := List.mem_map.mp hw
    exact hpair kv hkv
  · obtain ⟨kv, hkv, rfl⟩ := List.mem_map.mp hw
    exact hpair kv hkv
  · cases hw

theorem Bounded.storeAfter {db : DB} (hdb : Bounded db) {pkg : Package} (hpkg : pkg.Short) :
    Bounded (storeAfter db pkg) := by
  intro e he
  rcases SortedMap.mem_entries_of_mem_putAll he with he | he
  · exact shortEntry_of_mem_writes hpkg he
  · exact hdb e he

/-- The packages of a list that write. -/
def writers (pkgs : List Package) : ℕ :=
  pkgs.countP fun pkg => pkg.operation = some .insert ∨ pkg.operation = some .update

theorem length_writes_le {pkg : Package} (hpkg : pkg.Short) :
    pkg.writes.length ≤ 255 * writers [pkg] := by
  rw [Package.writes, writers, List.countP_singleton]
  cases hop : pkg.operation with
  | none => simp
  | some op =>
    cases op with
    | insert | update => simpa using hpkg.pairs
    | read | scan | delete => simp

/-! ## The replies -/

/-- The largest size of a result. -/
def replyBound (db : DB) (pkg : Package) : ℕ :=
  match pkg.operation with
  | some .read => if pkg.kvPairs = [] then 516 * db.entries.length else 510 * pkg.kvPairs.length
  | some .scan => 515 * db.entries.length
  | some _ => 4
  | none => 0

theorem replyBound_mono {db db' : DB} (h : db.entries.length ≤ db'.entries.length)
    (pkg : Package) : replyBound db pkg ≤ replyBound db' pkg := by
  rw [replyBound, replyBound]
  split
  · split
    · exact Nat.mul_le_mul_left _ h
    · exact le_refl _
  · exact Nat.mul_le_mul_left _ h
  · exact le_refl _
  · exact le_refl _

theorem resultBytes_le {vals : List (Bytes × Bytes)} {c n : ℕ} (hlen : vals.length ≤ n)
    (hvals : ∀ kv ∈ vals, kv.1.length + kv.2.length ≤ c) :
    (LevelDBExecutor.resultBytes vals).toNat ≤ c * n := by
  rw [resultBytes_eq, UInt64.toNat_ofNat']
  calc (vals.map fun kv => kv.1.length + kv.2.length).sum % 2 ^ 64
      ≤ (vals.map fun kv => kv.1.length + kv.2.length).sum := Nat.mod_le _ _
    _ ≤ (vals.map fun kv => kv.1.length + kv.2.length).length • c :=
        List.sum_le_card_nsmul _ _ (List.forall_mem_map.mpr hvals)
    _ = vals.length * c := by rw [List.length_map, smul_eq_mul]
    _ ≤ c * n := by rw [Nat.mul_comm]; exact Nat.mul_le_mul_left _ hlen

section Replies

variable {db : DB} (hdb : Bounded db)
include hdb

/-- A READ of all fields answers with a slash, a part of the prefixed name, and the value. -/
theorem read_all_le {pkg : Package} (hnone : pkg.kvPairs = []) :
    (LevelDBExecutor.resultBytes (execRead db pkg)).toNat ≤ 516 * db.entries.length := by
  have hstored : ∀ e ∈ db.entries, Stored e := fun e he => (hdb e he).stored
  rw [execRead_all hstored hnone]
  refine resultBytes_le ?_ fun kv hkv => ?_
  · rw [List.length_map, recordFields]
    exact (List.length_filter_le _ _).trans (by rw [List.length_map])
  · obtain ⟨field, hfield, rfl⟩ := List.mem_map.mp hkv
    obtain ⟨e, he, rfl⟩ := List.mem_map.mp (List.mem_of_mem_filter hfield)
    obtain ⟨k, f, hkey, hname, hvalue⟩ := hdb e he
    rw [Stored.fieldOf_eq hkey, Field.word, List.length_cons]
    have hword := (List.takeWhile_prefix (l := fieldPrefix ++ f) fun b => !isSpace b).length_le
    rw [List.length_append, length_fieldPrefix] at hword
    simp only at hname hvalue ⊢
    omega

/-- A READ of named fields answers with the names of the request. -/
theorem read_named_le {pkg : Package} (hpkg : pkg.Short) (hsome : pkg.kvPairs ≠ []) :
    (LevelDBExecutor.resultBytes (execRead db pkg)).toNat ≤ 510 * pkg.kvPairs.length := by
  rw [execRead, if_neg (by simpa using hsome)]
  refine resultBytes_le (List.length_filterMap_le _ _) fun kv hkv => ?_
  obtain ⟨kv', hkv', hget⟩ := List.mem_filterMap.mp hkv
  obtain ⟨value, hvalue, rfl⟩ := Option.map_eq_some_iff.mp hget
  have hname := (hpkg.short kv' hkv').1
  have hvalue := (hdb _ ((SortedMap.mem_entries_iff db _ _).mpr hvalue)).length_le.2
  simp only at hvalue ⊢
  omega

/-- A SCAN answers with the prefixed names and the values of some of the entries. -/
theorem scan_le {pkg : Package} {vals : List (Bytes × Bytes)}
    (hscan : execScan db pkg = .ok vals) :
    (LevelDBExecutor.resultBytes vals).toNat ≤ 515 * db.entries.length := by
  have hstored : ∀ e ∈ db.entries, Stored e := fun e he => (hdb e he).stored
  rw [execScan_eq_scanned hstored hscan]
  refine resultBytes_le ?_ fun kv hkv => ?_
  · calc ((scanned db pkg).map Field.pair).length
        = (scanned db pkg).length := List.length_map _
      _ ≤ ((visited db pkg).filter (selects pkg)).length :=
          (Budget.take_isPrefix _ _ _ _ _ _).length_le
      _ ≤ (visited db pkg).length := List.length_filter_le _ _
      _ ≤ ((scanEntries db pkg).map fieldOf).length := List.length_filter_le _ _
      _ ≤ db.entries.length := by
          rw [List.length_map]
          exact (scanEntries_sublist db pkg).length_le
  · obtain ⟨field, hfield, rfl⟩ := List.mem_map.mp hkv
    obtain ⟨⟨e, he, rfl⟩, -⟩ := mem_visited_iff.mp (of_mem_scanned hfield).1
    obtain ⟨k, f, hkey, hname, hvalue⟩ := hdb e (scanEntries_subset he)
    rw [Stored.fieldOf_eq hkey, Field.pair, List.length_append, length_fieldPrefix]
    simp only at hname hvalue ⊢
    omega

theorem resultOf_le {pkg : Package} (hpkg : pkg.Short) {n : UInt64}
    (hresult : resultOf db pkg = .ok n) : n.toNat ≤ replyBound db pkg := by
  rw [resultOf] at hresult
  rw [replyBound]
  cases hop : pkg.operation with
  | none =>
    rw [hop] at hresult
    cases hresult
    exact le_refl _
  | some op =>
    rw [hop] at hresult
    cases op with
    | insert | update | delete =>
      cases hresult
      exact le_refl _
    | read =>
      cases hresult
      by_cases hnone : pkg.kvPairs = []
      · simpa only [if_pos hnone] using read_all_le hdb hnone
      · simpa only [if_neg hnone] using read_named_le hdb hpkg hnone
    | scan =>
      obtain ⟨vals, hscan, rfl⟩ := map_eq_ok.mp hresult
      exact scan_le hdb hscan

end Replies

/-! ## Runs -/

/-- What a run from the store `db` has come to when it has executed the packages of `log`. -/
structure StaysBounded (db db' : DB) (log : List (Package × UInt64)) : Prop where
  store : Bounded db'
  keys : ∀ key, (db.get key).isSome → (db'.get key).isSome
  grows : db.entries.length ≤ db'.entries.length
  size : db'.entries.length ≤ db.entries.length + 255 * writers (log.map Prod.fst)
  replies : ∀ e ∈ log, e.1.Short ∧ e.2.toNat ≤ replyBound db' e.1

/-- Each package keeps the bounds. -/
theorem service_stays_bounded {db : DB} (hdb : Bounded db) {pkgs : List Package}
    (hpkgs : ∀ pkg ∈ pkgs, pkg.Short) :
    StaysBounded db (service db pkgs).store (service db pkgs).log := by
  induction pkgs generalizing db with
  | nil => exact ⟨hdb, fun _ h => h, le_refl _, by simp [service], fun e he => by cases he⟩
  | cons pkg pkgs ih =>
    rw [service]
    cases hresult : resultOf db pkg with
    | error why => exact ⟨hdb, fun _ h => h, le_refl _, by simp, fun e he => by cases he⟩
    | ok n =>
      have hpkg := hpkgs pkg (by simp)
      have hrest := ih (hdb.storeAfter hpkg) fun p hp => hpkgs p (by simp [hp])
      obtain ⟨hmore, hatMost⟩ := db.length_putAll (pkg.writes.map storedWrite)
      rw [← storeAfter, List.length_map] at hatMost
      rw [← storeAfter] at hmore
      have hgrows := hmore.trans hrest.grows
      refine ⟨hrest.store, fun key hkey => hrest.keys key (SortedMap.isSome_get_putAll hkey _),
        hgrows, ?_, fun e he => ?_⟩
      · have hwrites := length_writes_le hpkg
        have hsize := hrest.size
        simp only [List.map_cons]
        rw [writers, ← List.singleton_append, List.countP_append, ← writers, ← writers]
        omega
      · rcases List.mem_cons.mp he with rfl | he
        · exact ⟨hpkg, (resultOf_le hdb hpkg hresult).trans (replyBound_mono hgrows pkg)⟩
        · exact hrest.replies e he

theorem HandsOverShort.stays_bounded {H : Type} {hdl : OpHandler H} (hshort : HandsOverShort hdl)
    (h : H) {db : DB} (hdb : Bounded db) (cycles : List Cycles) :
    StaysBounded db ((Server.start hdl h db).serve hdl cycles).server.exec.db
      ((Server.start hdl h db).serve hdl cycles).log := by
  obtain ⟨hserved, hreceived⟩ := serve_log hdl cycles (Server.start hdl h db)
  have hpkgs : ∀ pkg ∈ ((Server.start hdl h db).serve hdl cycles).log.map Prod.fst,
      pkg.Short := by
    intro pkg hpkg
    obtain ⟨e, he, rfl⟩ := List.mem_map.mp hpkg
    obtain ⟨h, h', hreceive⟩ := hreceived e he
    exact hshort h e.1 h' hreceive
  have hbounded := service_stays_bounded hdb hpkgs
  rwa [show service db _ = _ from hserved] at hbounded

/-- **Bounds in every state of every run.** Start either server on a store of short entries and let
anything arrive, and anything become of the sends. Every entry of the store then has a key of at
most 281 and a value of at most 255 bytes, no key is ever lost, and the store has grown by at most
255 entries for each INSERT and UPDATE executed. Every executed package is short, and the size of
its result is bounded: by the number of entries for a SCAN or a READ of all fields, by the number of
names for other READs, and by four for the rest. -/
theorem runs_stay_bounded (db : DB) (hdb : Bounded db) (cycles : List Cycles) :
    (∀ h : TCPOpHandler,
      let run := (Server.start TCPOpHandler.hdl h db).serve TCPOpHandler.hdl cycles
      StaysBounded db run.server.exec.db run.log ∧
        ∀ e ∈ run.server.exec.db.entries, e.1.length ≤ 281 ∧ e.2.length ≤ 255) ∧
    ∀ h : UDPOpHandler,
      let run := (Server.start UDPOpHandler.hdl h db).serve UDPOpHandler.hdl cycles
      StaysBounded db run.server.exec.db run.log ∧
        ∀ e ∈ run.server.exec.db.entries, e.1.length ≤ 281 ∧ e.2.length ≤ 255 := by
  constructor
  · intro h run
    have hbounded := TCPOpHandler.handsOverShort.stays_bounded h hdb cycles
    exact ⟨hbounded, fun e he => (hbounded.store e he).length_le⟩
  · intro h run
    have hbounded := UDPOpHandler.handsOverShort.stays_bounded h hdb cycles
    exact ⟨hbounded, fun e he => (hbounded.store e he).length_le⟩

/-- A store with two fields of record 9. -/
def storeOfTwo : DB :=
  storeAfter SortedMap.empty ⟨1, 0, 2, 9, 0, [([48], [97]), ([49], [98, 99])]⟩

theorem bounded_storeOfTwo : Bounded storeOfTwo := by
  refine Bounded.storeAfter (fun e he => by cases he) ⟨by simp, fun kv hkv => ?_⟩
  simp only [List.mem_cons, List.not_mem_nil, or_false] at hkv
  rcases hkv with rfl | rfl <;> simp [ShortPair]

/-- One update on that store. -/
theorem runs_stay_bounded_update :
    storeOfTwo.entries.length = 2 ∧
      (pairwiseRun storeOfTwo [updateMessage]).server.exec.db.entries.length
        ≤ 2 + 255 * writers ((pairwiseRun storeOfTwo [updateMessage]).log.map Prod.fst) ∧
      ∀ e ∈ (pairwiseRun storeOfTwo [updateMessage]).server.exec.db.entries,
        e.1.length ≤ 281 ∧ e.2.length ≤ 255 := by
  have htwo : storeOfTwo.entries.length = 2 := by decide
  obtain ⟨hbounded, hshort⟩ := (runs_stay_bounded storeOfTwo bounded_storeOfTwo
    (List.replicate 2 ⟨0, 0⟩)).1 _
  exact ⟨htwo, htwo ▸ hbounded.size, hshort⟩

end BenchLx.Ycsb
