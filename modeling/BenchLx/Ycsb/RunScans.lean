import BenchLx.Ycsb.Restarts
import BenchLx.Ycsb.ScanPrefix

/-!
# Scans in a run

A SCAN reads fields that any package before it may have written. When its length is larger than the
number of the records that it selects from, its result is what has been written last to all the
fields it selects (`scans_see_last_writes`). It throws when it gets to a record key from `2 ^ 63` on
before its length is used up, and nothing else ends the server with an exception
(`server_throws_iff`).
-/

namespace BenchLx.Ycsb

/-! ## The fields that a scan selects -/

/-- The place in the store that the iterator of a scan starts at. -/
def scanStart (pkg : Package) : Bytes :=
  match pkg.kvPairs with
  | [pair] => packKey pkg.key pair.1 []
  | _ => []

/-- The written fields that a scan selects: those of the names asked for, of records from the start
key on, that do not come before the place where the iterator starts. -/
def scanFields (ws : List ((UInt64 × Bytes) × Bytes)) (pkg : Package) : Finset (UInt64 × Bytes) :=
  (ws.map Prod.fst).toFinset.filter fun kf =>
    takeField pkg (fieldPrefix ++ kf.2) ∧ pkg.key ≤ kf.1 ∧ scanStart pkg ≤ storedKey kf

/-- The number of the records that they belong to. -/
def scanRecords (ws : List ((UInt64 × Bytes) × Bytes)) (pkg : Package) : ℕ :=
  ((scanFields ws pkg).image Prod.fst).card

/-- The bytes of a written field: of its stored name and of the value written last. -/
def writtenBytes (ws : List ((UInt64 × Bytes) × Bytes)) (kf : UInt64 × Bytes) : ℕ :=
  (fieldPrefix ++ kf.2).length + ((lastWrite kf ws).getD []).length

/-- The size of the result of a SCAN that is long enough. -/
def scanSize (ws : List ((UInt64 × Bytes) × Bytes)) (pkg : Package) : ℕ :=
  ∑ kf ∈ scanFields ws pkg, writtenBytes ws kf

/-- The written field that a stored one holds. -/
def Field.written (f : Field) : UInt64 × Bytes := (f.key, f.name.drop fieldPrefix.length)

variable {ws : List ((UInt64 × Bytes) × Bytes)} {pkg : Package}

theorem mem_scanEntries_iff {db : DB} {entry : Bytes × Bytes} :
    entry ∈ scanEntries db pkg ↔ entry ∈ db.entries ∧ scanStart pkg ≤ entry.1 := by
  have hnil : [] ≤ entry.1 := not_lt.mp (List.not_lt_nil _)
  rw [scanEntries, scanStart]
  rcases pkg.kvPairs with _ | ⟨pair, _ | ⟨pair', rest⟩⟩
  · exact (and_iff_left hnil).symm
  · exact SortedMap.mem_seek_iff
  · exact (and_iff_left hnil).symm

/-- The selected fields of the store are the written ones, each with the value written last. -/
theorem mem_selectedFields_storeOf_iff {f : Field} :
    f ∈ selectedFields (storeOf ws) pkg ↔ ∃ n, f.name = fieldPrefix ++ n ∧
      lastWrite (f.key, n) ws = some f.value ∧ (f.key, n) ∈ scanFields ws pkg := by
  rw [selectedFields, List.mem_filter, mem_visited_iff]
  simp only [mem_scanEntries_iff, scanFields, Finset.mem_filter, List.mem_toFinset, List.mem_map]
  constructor
  · rintro ⟨⟨⟨⟨key, v⟩, ⟨hentry, hstart⟩, rfl⟩, hkey⟩, hsel⟩
    obtain ⟨k, n, rfl, hlast⟩ := mem_storeOf_iff.mp hentry
    rw [@Stored.fieldOf_eq (storedKey (k, n), v) k n rfl] at hkey hsel ⊢
    exact ⟨n, rfl, hlast, ⟨_, mem_of_lastWrite hlast, rfl⟩, hsel, hkey, hstart⟩
  · rintro ⟨n, hname, hlast, -, hsel, hkey, hstart⟩
    refine ⟨⟨⟨(storedKey (f.key, n), f.value),
      ⟨mem_storeOf_iff.mpr ⟨f.key, n, rfl, hlast⟩, hstart⟩, ?_⟩, hkey⟩, ?_⟩
    · rw [Stored.fieldOf_eq rfl, ← hname]
    · rwa [selects, hname]

theorem stored_of_storeOf : ∀ entry ∈ (storeOf ws).entries, Stored entry := by
  intro entry hentry
  obtain ⟨k, n, hkey, -⟩ := storedKey_of_mem_storeOf hentry
  exact ⟨k, n, hkey⟩

/-- No written field is listed twice, and none that is selected is missing. -/
theorem written_selectedFields :
    ((selectedFields (storeOf ws) pkg).map Field.written).Nodup ∧
      ((selectedFields (storeOf ws) pkg).map Field.written).toFinset = scanFields ws pkg := by
  constructor
  · rw [List.Nodup, List.pairwise_map]
    refine ((visited_sorted stored_of_storeOf pkg).filter (selects pkg)).imp_of_mem ?_
    intro f g hf hg hlt heq
    obtain ⟨n, hn, -⟩ := mem_selectedFields_storeOf_iff.mp hf
    obtain ⟨n', hn', -⟩ := mem_selectedFields_storeOf_iff.mp hg
    rw [Field.written, Field.written, hn, hn', List.drop_left, List.drop_left] at heq
    obtain ⟨hkey, rfl⟩ := Prod.mk.inj heq
    rw [Field.packed, Field.packed, hkey, hn, hn'] at hlt
    exact lt_irrefl _ hlt
  · ext ⟨k, n⟩
    rw [List.mem_toFinset, List.mem_map]
    constructor
    · rintro ⟨f, hf, heq⟩
      obtain ⟨n', hn, -, hmem⟩ := mem_selectedFields_storeOf_iff.mp hf
      rw [Field.written, hn, List.drop_left] at heq
      exact heq ▸ hmem
    · intro hmem
      obtain ⟨w, hw, hkn⟩ := List.mem_map.mp (List.mem_toFinset.mp (Finset.mem_filter.mp hmem).1)
      obtain ⟨v, hlast⟩ := exists_lastWrite hw
      rw [hkn] at hlast
      refine ⟨⟨k, fieldPrefix ++ n, v⟩,
        mem_selectedFields_storeOf_iff.mpr ⟨n, rfl, hlast, hmem⟩, ?_⟩
      rw [Field.written, List.drop_left]

theorem recordCount_selectedFields :
    recordCount (selectedFields (storeOf ws) pkg) = scanRecords ws pkg := by
  rw [recordCount, scanRecords, ← written_selectedFields.2]
  congr 1
  ext k
  simp [Field.written]

/-- The bytes of the selected fields. -/
theorem sum_selectedFields :
    ((selectedFields (storeOf ws) pkg).map fun f => f.name.length + f.value.length).sum
      = scanSize ws pkg := by
  rw [scanSize, ← written_selectedFields.2, List.sum_toFinset _ written_selectedFields.1,
    List.map_map]
  congr 1
  refine List.map_congr_left fun f hf => ?_
  obtain ⟨n, hn, hlast, -⟩ := mem_selectedFields_storeOf_iff.mp hf
  rw [Function.comp_apply, Field.written, writtenBytes, hn, List.drop_left, hlast]
  rfl

/-! ## Scanning what was written -/

/-- A scan that is longer than its records returns all the fields that it selects. -/
theorem resultOf_scan {n : UInt64} (hop : pkg.operation = some .scan)
    (hlong : scanRecords ws pkg < pkg.scanLength.toNat)
    (hresult : resultOf (storeOf ws) pkg = .ok n) : n = UInt64.ofNat (scanSize ws pkg) := by
  rw [resultOf, hop] at hresult
  obtain ⟨vals, hvals, rfl⟩ := map_eq_ok.mp hresult
  have hall : scanned (storeOf ws) pkg = selectedFields (storeOf ws) pkg := by
    by_contra hne
    have hle := scanLength_le_of_scanned_ne stored_of_storeOf hne
    have hmono : recordCount (scanned (storeOf ws) pkg) ≤ scanRecords ws pkg := by
      rw [← recordCount_selectedFields]
      exact recordCount_mono (Budget.take_isPrefix _ _ _ _ _ _).subset
    omega
  rw [execScan_eq_scanned stored_of_storeOf hvals, hall, resultBytes_eq, List.map_map,
    ← sum_selectedFields]
  rfl

/-- **Scanning what was written last.** In every run of the server, over any handler and whatever
becomes of the sends, on a store that some writes have left: the size of the result of a SCAN whose
length is larger than the number of records it selects from is the size of the names, with the
prefix, of all the fields it selects among those written before, by this server or earlier, together
with the values written last. -/
theorem scans_see_last_writes {H : Type} (hdl : OpHandler H) (h : H)
    (ws : List ((UInt64 × Bytes) × Bytes)) (cycles : List Cycles)
    (before after : List (Package × UInt64)) (pkg : Package) (n : UInt64)
    (hlog : ((Server.start hdl h (storeOf ws)).serve hdl cycles).log = before ++ (pkg, n) :: after)
    (hop : pkg.operation = some .scan)
    (hlong : scanRecords (ws ++ writesOf (before.map Prod.fst)) pkg < pkg.scanLength.toNat) :
    n = UInt64.ofNat (scanSize (ws ++ writesOf (before.map Prod.fst)) pkg) :=
  resultOf_scan hop hlong (resultOf_of_serve hlog)

/-- A SCAN from the first record on. -/
def scanMessage : Message :=
  ⟨⟨4, 0, 0, 0, 2, []⟩, by decide, shortPair_of_mem_nil⟩

/-- It finds the field that `updateMessage` writes, with six bytes for the name and two for the
value. -/
theorem scans_see_last_writes_update :
    (pairwiseRun (storeOf []) [updateMessage, scanMessage]).log
        = [(updateMessage.toPackage, 4)] ++ (scanMessage.toPackage, 8) :: [] ∧
      8 = UInt64.ofNat (scanSize ([] ++ writesOf [updateMessage.toPackage])
        scanMessage.toPackage) := by
  have hserved := (servesAll_pairwiseRun (storeOf [])
    (show ∀ m ∈ [updateMessage, scanMessage], m.encode.length ≤ packageBufferSize by
      decide)).served
  have hservice : (service (storeOf []) [updateMessage.toPackage, scanMessage.toPackage]).log
      = [(updateMessage.toPackage, 4)] ++ (scanMessage.toPackage, 8) :: [] := rfl
  have hlog := (congrArg Served.log hserved).symm.trans hservice
  exact ⟨hlog, scans_see_last_writes TCPOpHandler.hdl _ [] _ [(updateMessage.toPackage, 4)] []
    scanMessage.toPackage 8 hlog rfl (by decide)⟩

/-! ## When a scan throws -/

/-- The units that the loop spends on the first entries. -/
def loopCost (pkg : Package) (entries : List (Bytes × Bytes)) (lastKey : UInt64) : ℕ :=
  Budget.cost (selects pkg) chargesField Field.key
    ((entries.map fieldOf).filter fun f => pkg.key ≤ f.key) lastKey

theorem loopCost_cons (entry : Bytes × Bytes) (entries : List (Bytes × Bytes)) (lastKey : UInt64) :
    loopCost pkg (entry :: entries) lastKey =
      if pkg.key ≤ (fieldOf entry).key then
        (if selects pkg (fieldOf entry) && chargesField lastKey (fieldOf entry) then 1 else 0)
          + loopCost pkg entries (fieldOf entry).key
      else loopCost pkg entries lastKey := by
  rw [loopCost, List.map_cons, List.filter_cons]
  by_cases hstart : pkg.key ≤ (fieldOf entry).key
  · simp only [hstart, decide_true, if_true]
    rfl
  · simp only [hstart, decide_false, if_false, Bool.false_eq_true]
    rfl

/-- The loop throws when it gets to a key that is no `long long` with units left. -/
theorem scanLoop_eq_error_iff {entries : List (Bytes × Bytes)}
    (hentries : ∀ entry ∈ entries, Stored entry) {rem lastKey : UInt64}
    {res : List (Bytes × Bytes)} {why : Stop} :
    scanLoop pkg entries rem lastKey res = .error why ↔ why = .outOfRange ∧
      ∃ pre entry post, entries = pre ++ entry :: post ∧ 2 ^ 63 ≤ (fieldOf entry).key.toNat ∧
        loopCost pkg pre lastKey < rem.toNat := by
  induction entries generalizing rem lastKey res with
  | nil => simp [scanLoop]
  | cons entry entries ih =>
    have htail := fun e he => hentries e (List.mem_cons_of_mem entry he)
    obtain ⟨k, f, hkey⟩ := hentries entry List.mem_cons_self
    have hfield := Stored.fieldOf_eq hkey
    rw [scanLoop]
    by_cases hrem : rem > 0
    · have hpos : 0 < rem.toNat := Nat.pos_of_ne_zero (pos_iff_toNat_ne_zero.mp hrem)
      rw [if_pos hrem, hkey, storedKey, unpackKey_packKey, Budget.exists_split_cons, hfield]
      by_cases hk : k.toNat < 2 ^ 63
      · -- the entry is read, and the loop goes on behind it
        have hnot : ¬ 2 ^ 63 ≤ k.toNat := not_le.mpr hk
        rw [if_pos hk, ok_bind]
        simp only [hnot, false_and, false_or, loopCost_cons, hfield]
        by_cases hstart : k ≥ pkg.key
        · by_cases hsel : takeField pkg (fieldPrefix ++ f) = true
          · -- it is taken, and may cost a unit of both
            have hcharge := toNat_charge hrem lastKey ⟨k, fieldPrefix ++ f, entry.2⟩
            have hselects : selects pkg ⟨k, fieldPrefix ++ f, entry.2⟩ = true := hsel
            rw [if_pos hstart, if_pos hsel, ih htail]
            simp only [if_pos (ge_iff_le.mp hstart), hselects, Bool.true_and]
            refine and_congr_right fun _ => exists_congr fun pre => exists_congr fun e =>
              exists_congr fun post => and_congr_right fun _ => and_congr_right fun _ => ?_
            rw [hcharge]
            split <;> omega
          · have hselects : selects pkg ⟨k, fieldPrefix ++ f, entry.2⟩ = false := by
              simpa [selects] using hsel
            rw [if_pos hstart, if_neg hsel, ih htail]
            simp only [if_pos (ge_iff_le.mp hstart), hselects, Bool.false_and, Bool.false_eq_true,
              if_false, Nat.zero_add]
        · rw [if_neg hstart, ih htail]
          simp only [if_neg (show ¬ pkg.key ≤ k from hstart)]
      · -- reading it throws, and no unit has been spent before
        rw [if_neg hk, error_bind]
        have hnil : loopCost pkg [] lastKey < rem.toNat := hpos
        simp only [not_lt.mp hk, hnil, true_or, and_true, Except.error.injEq, eq_comm]
    · rw [if_neg hrem]
      have hzero : rem.toNat = 0 := by
        by_contra hne
        exact hrem (pos_iff_toNat_ne_zero.mpr hne)
      simp [hzero]

/-- A scan gets to an entry whose record key is no `long long` before its length is used up. -/
def MeetsLarge (db : DB) (pkg : Package) : Prop :=
  ∃ pre entry post, scanEntries db pkg = pre ++ entry :: post ∧
    2 ^ 63 ≤ (fieldOf entry).key.toNat ∧ loopCost pkg pre 0 < pkg.scanLength.toNat

theorem resultOf_eq_error_iff {why : Stop} :
    resultOf (storeOf ws) pkg = .error why ↔
      why = .outOfRange ∧ pkg.operation = some .scan ∧ MeetsLarge (storeOf ws) pkg := by
  have hscan : execScan (storeOf ws) pkg = .error why ↔
      why = .outOfRange ∧ MeetsLarge (storeOf ws) pkg :=
    scanLoop_eq_error_iff fun entry hentry => stored_of_storeOf entry (scanEntries_subset hentry)
  rw [resultOf]
  rcases hop : pkg.operation with _ | op
  · simp
  · cases op with
    | scan =>
      simp only [true_and]
      rw [← hscan]
      cases execScan (storeOf ws) pkg <;> simp [Except.map]
    | insert | update | read | delete => simp

/-! ## When the server throws -/

/-- A service ends with an error at the first scan that throws. -/
theorem service_error_iff {pkgs : List Package} {why : Stop} :
    (service (storeOf ws) pkgs).error = some why ↔ why = .outOfRange ∧
      ∃ done pkg rest, pkgs = done ++ pkg :: rest ∧ pkg.operation = some .scan ∧
        MeetsLarge (storeOf (ws ++ writesOf done)) pkg := by
  induction pkgs generalizing ws with
  | nil => simp [service]
  | cons pkg pkgs ih =>
    rw [Budget.exists_split_cons, show ws ++ writesOf [] = ws from List.append_nil ws]
    cases hresult : resultOf (storeOf ws) pkg with
    | error why' =>
      -- nothing is served behind this package
      obtain ⟨rfl, hop, hmeets⟩ := resultOf_eq_error_iff.mp hresult
      rw [service, hresult]
      simp [hop, hmeets, eq_comm]
    | ok n =>
      have hnot : ¬ (pkg.operation = some .scan ∧ MeetsLarge (storeOf ws) pkg) := by
        intro h
        rw [resultOf_eq_error_iff.mpr ⟨rfl, h⟩] at hresult
        cases hresult
      rw [service_cons_of_ok hresult, storeAfter, putAll_storeOf, or_iff_right hnot]
      simp only [ih, writesOf, List.flatMap_cons, List.append_assoc]

/-- An entry that a scan meets belongs to a field that has been written. -/
theorem exists_write_of_meetsLarge (h : MeetsLarge (storeOf ws) pkg) :
    ∃ w ∈ ws, 2 ^ 63 ≤ w.1.1.toNat := by
  obtain ⟨pre, entry, post, hsplit, hlarge, -⟩ := h
  have hmem : entry ∈ (storeOf ws).entries := scanEntries_subset (by rw [hsplit]; simp)
  obtain ⟨k, n, hkey, v, hw⟩ := storedKey_of_mem_storeOf hmem
  rw [Stored.fieldOf_eq hkey] at hlarge
  exact ⟨_, hw, hlarge⟩

/-- **When the server throws.** Let a server serve packages on a store that some writes have left,
over any transport. It does not end regularly exactly when some SCAN gets to a record key from
`2 ^ 63` on before its length is used up, on the store that the packages before it leave; it then
ends with the exception of that key. So it always ends regularly when all keys written are below
`2 ^ 63`. -/
theorem server_throws_iff {H : Type} (run : Run H) (ws : List ((UInt64 × Bytes) × Bytes))
    (ps : List (Option Package)) (hrun : ServesAll (storeOf ws) ps run) :
    (run.status ≠ .ended ↔ ∃ done pkg rest, ps.reduceOption = done ++ pkg :: rest ∧
      pkg.operation = some .scan ∧ MeetsLarge (storeOf (ws ++ writesOf done)) pkg) ∧
    (run.status ≠ .ended → run.status = .stopped .outOfRange) ∧
    ((∀ w ∈ ws ++ writesOf ps.reduceOption, w.1.1.toNat < 2 ^ 63) → run.status = .ended) := by
  have herror := @service_error_iff ws ps.reduceOption
  have hstatus := hrun.status
  rw [hrun.served] at herror
  have hiff : run.status ≠ .ended ↔ ∃ done pkg rest, ps.reduceOption = done ++ pkg :: rest ∧
      pkg.operation = some .scan ∧ MeetsLarge (storeOf (ws ++ writesOf done)) pkg := by
    cases hserved : run.served.error with
    | none =>
      rw [hserved] at herror hstatus
      refine iff_of_false (not_not.mpr hstatus) fun h => ?_
      cases herror.mpr ⟨rfl, h⟩
    | some why =>
      rw [hserved] at herror hstatus
      refine iff_of_true (by rw [hstatus]; exact Status.noConfusion) ?_
      exact (herror.mp rfl).2
  refine ⟨hiff, fun hne => ?_, fun hkeys => ?_⟩
  · rw [hstatus, herror.mpr ⟨rfl, hiff.mp hne⟩]
  · by_contra hne
    obtain ⟨done, pkg, rest, hps, -, hmeets⟩ := hiff.mp hne
    obtain ⟨w, hw, hlarge⟩ := exists_write_of_meetsLarge hmeets
    have hmem : w ∈ ws ++ writesOf ps.reduceOption := by
      rw [hps, writesOf, List.flatMap_append, ← List.append_assoc]
      exact List.mem_append_left _ hw
    exact absurd (hkeys w hmem) (not_lt.mpr hlarge)

/-- An INSERT whose key is `2 ^ 63`. -/
def largeMessage : Message :=
  ⟨⟨1, 0, 1, 9223372036854775808, 0, [([48], [97])]⟩, by decide, by simp [ShortPair]⟩

/-- Two packages end the server: the INSERT, and a SCAN behind it. -/
theorem server_throws_large :
    (pairwiseRun (storeOf []) [largeMessage, scanMessage]).status = .stopped .outOfRange := by
  have hall := servesAll_pairwiseRun (storeOf [])
    (show ∀ m ∈ [largeMessage, scanMessage], m.encode.length ≤ packageBufferSize by decide)
  obtain ⟨hiff, hwhy, -⟩ := server_throws_iff _ [] _ hall
  refine hwhy (hiff.mpr ⟨[largeMessage.toPackage], scanMessage.toPackage, [], rfl, rfl, ?_⟩)
  exact ⟨[], _, [], rfl, by decide, by decide⟩

end BenchLx.Ycsb
