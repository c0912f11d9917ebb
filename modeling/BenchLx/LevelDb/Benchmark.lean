import BenchLx.Common.Decimal
import BenchLx.Common.Sharding

/-!
# The LevelDB benchmark

Reference: `main` in `apps/leveldb/leveldb.cc`. It puts 512 values, goes over the store and deletes
some keys, one of which it has not put. No run changes anything else in the store, and it reports
the keys that it could not find or delete (`store_main`); when nothing fails each further run ends
with the same store and prints the same (`main_again`).
-/

namespace BenchLx.LevelDb

/-! ## The program -/

/-- The store. -/
abbrev DB := SortedMap Bytes Bytes

/-- `INSERT_COUNT`. -/
def insertCount : ℕ := 512

/-- The value of every key: `STRLEN` times an `x`. -/
def value : Bytes := List.replicate 1024 120

/-- The key that is put in round `i`. -/
def insertKey (i : ℕ) : Bytes := ascii "Key" ++ decimal i

/-- The keys that are to be deleted. -/
def keys : List String := ["Key1", "Key40", "Key12", "Key16", "_Key77_"]

/-- What becomes of the calls of the library: the error of `Open()` and of the scan, if there is
one, and which calls of `Put()`, `Get()` and `Delete()` work. The others do nothing but fail; a
`Get()` that works can still find no key. -/
structure Outcomes where
  openError : Option String
  put : ℕ → Bool
  scanError : Option String
  get : ℕ → Bool
  delete : ℕ → Bool

/-- The end of the program: its exit status, the lines on `stderr`, and the store. -/
structure Ended where
  status : ℤ
  stderr : List String
  store : DB

/-- The loop that puts the values. -/
def inserts (o : Outcomes) (n : ℕ) (db : DB) : DB :=
  (List.range n).foldl (fun db i => if o.put i then db.put (insertKey i) value else db) db

/-- What is printed when the scan has failed. -/
def scanLines : Option String → List String
  | none => []
  | some error => ["An error was found during the scan", error]

/-- Whether the status of the `Get()` in round `i` is ok. -/
def found (o : Outcomes) (db : DB) (key : Bytes) (i : ℕ) : Bool := o.get i && (db.get key).isSome

/-- `Delete()`. -/
def delete (db : DB) (key : Bytes) : DB := db.restrict fun k => k ≠ key

/-- The loop that deletes keys, given with their positions: what it prints, and the store. -/
def deletes (o : Outcomes) : List (String × ℕ) → DB → List String × DB
  | [], db => ([], db)
  | (key, i) :: ks, db =>
    if found o db (ascii key) i then
      if o.delete i then
        deletes o ks (delete db (ascii key))
      else
        let (lines, db) := deletes o ks db
        (("Unable to delete key " ++ key) :: lines, db)
    else
      let (lines, db) := deletes o ks db
      (("Unable to find key " ++ key) :: lines, db)

/-- `main`, on the database that the file holds. -/
def main (argv : List String) (o : Outcomes) (db : DB) : Ended :=
  match argv with
  | _ :: file :: _ =>
    match o.openError with
    -- `return -1` behind two lines
    | some error => ⟨-1, ["Unable to open/create test database '" ++ file ++ "'", error], db⟩
    | none =>
      let (lines, db) := deletes o keys.zipIdx (inserts o insertCount db)
      ⟨0, scanLines o.scanError ++ lines, db⟩
  | _ => ⟨1, ["Usage: " ++ argv.headD "" ++ " <file>"], db⟩

/-! ## The two loops -/

variable {o : Outcomes}

/-- The key is one of those that the first rounds have put. -/
def Inserted (o : Outcomes) (n : ℕ) (k : Bytes) : Prop := ∃ i < n, o.put i = true ∧ k = insertKey i

/-- The key is one of those that are deleted, if they are there. -/
def Deleted (o : Outcomes) (ks : List (String × ℕ)) (k : Bytes) : Prop :=
  ∃ key i, (key, i) ∈ ks ∧ o.get i = true ∧ o.delete i = true ∧ k = ascii key

open Classical in
theorem get_inserts (n : ℕ) (db : DB) (k : Bytes) :
    (inserts o n db).get k = if Inserted o n k then some value else db.get k := by
  induction n with
  | zero =>
    rw [if_neg (by rintro ⟨i, hi, -⟩; omega)]
    rfl
  | succ n ih =>
    have hsucc : Inserted o (n + 1) k ↔ (o.put n = true ∧ k = insertKey n) ∨ Inserted o n k := by
      constructor
      · rintro ⟨i, hi, hput, hk⟩
        rcases Nat.lt_succ_iff_lt_or_eq.mp hi with hi | rfl
        · exact .inr ⟨i, hi, hput, hk⟩
        · exact .inl ⟨hput, hk⟩
      · rintro (⟨hput, hk⟩ | ⟨i, hi, hput, hk⟩)
        · exact ⟨n, n.lt_succ_self, hput, hk⟩
        · exact ⟨i, hi.trans n.lt_succ_self, hput, hk⟩
    have hstep : inserts o (n + 1) db
        = if o.put n then (inserts o n db).put (insertKey n) value else inserts o n db := by
      rw [inserts, List.range_succ, List.foldl_append]
      rfl
    rw [hstep]
    by_cases hput : o.put n = true
    · by_cases hk : k = insertKey n
      · rw [if_pos hput, SortedMap.get_put, if_pos hk, if_pos (hsucc.mpr (.inl ⟨hput, hk⟩))]
      · have hold : Inserted o (n + 1) k ↔ Inserted o n k :=
          hsucc.trans (or_iff_right fun h => hk h.2)
        rw [if_pos hput, SortedMap.get_put, if_neg hk, ih]
        simp only [hold]
    · have hold : Inserted o (n + 1) k ↔ Inserted o n k :=
        hsucc.trans (or_iff_right fun h => hput h.1)
      rw [if_neg hput, ih]
      simp only [hold]

theorem get_delete (db : DB) (key k : Bytes) :
    (delete db key).get k = if k = key then none else db.get k := by
  rw [delete, SortedMap.get_restrict]
  by_cases hk : k = key <;> simp [hk]

theorem deleted_cons_iff {key : String} {i : ℕ} {ks : List (String × ℕ)} {k : Bytes} :
    Deleted o ((key, i) :: ks) k ↔
      (o.get i = true ∧ o.delete i = true ∧ k = ascii key) ∨ Deleted o ks k := by
  simp only [Deleted, List.mem_cons, Prod.mk.injEq]
  constructor
  · rintro ⟨key', i', ⟨rfl, rfl⟩ | hmem, h⟩
    · exact .inl h
    · exact .inr ⟨key', i', hmem, h⟩
  · rintro (h | ⟨key', i', hmem, h⟩)
    · exact ⟨key, i, .inl ⟨rfl, rfl⟩, h⟩
    · exact ⟨key', i', .inr hmem, h⟩

open Classical in
theorem get_deletes (ks : List (String × ℕ)) (db : DB) (k : Bytes) :
    (deletes o ks db).2.get k = if Deleted o ks k then none else db.get k := by
  induction ks generalizing db with
  | nil =>
    rw [if_neg (by rintro ⟨_, _, hmem, -⟩; cases hmem)]
    rfl
  | cons a ks ih =>
    obtain ⟨key, i⟩ := a
    simp only [deleted_cons_iff]
    by_cases hfound : found o db (ascii key) i = true
    · obtain ⟨hget, -⟩ := Bool.and_eq_true_iff.mp hfound
      by_cases hdelete : o.delete i = true
      · rw [deletes, if_pos hfound, if_pos hdelete, ih, get_delete]
        by_cases hk : k = ascii key <;> simp [hk, hget, hdelete]
      · rw [deletes, if_pos hfound, if_neg hdelete]
        simp [ih, hdelete]
    · -- a key that is not there need not be deleted
      rw [deletes, if_neg hfound]
      simp only [ih]
      by_cases hk : o.get i = true ∧ k = ascii key
      · have hnone : db.get k = none := by simpa [found, hk] using hfound
        simp [hnone]
      · have hnot : ¬ (o.get i = true ∧ o.delete i = true ∧ k = ascii key) :=
          fun h => hk ⟨h.1, h.2.2⟩
        simp only [hnot, false_or]

/-- The line that is printed for a key, if there is one. -/
def lineFor (o : Outcomes) (db : DB) (a : String × ℕ) : Option String :=
  if found o db (ascii a.1) a.2 then
    if o.delete a.2 then none else some ("Unable to delete key " ++ a.1)
  else some ("Unable to find key " ++ a.1)

/-- Whether a key is found does not depend on the others. -/
theorem lines_deletes {ks : List (String × ℕ)}
    (hne : ks.Pairwise fun a b => ascii a.1 ≠ ascii b.1) (db : DB) :
    (deletes o ks db).1 = ks.filterMap (lineFor o db) := by
  induction ks generalizing db with
  | nil => rfl
  | cons a ks ih =>
    obtain ⟨hhead, htail⟩ := List.pairwise_cons.mp hne
    have hrest := ih htail
    obtain ⟨key, i⟩ := a
    by_cases hfound : found o db (ascii key) i = true
    · by_cases hdelete : o.delete i = true
      · have hline : lineFor o db (key, i) = none := by
          rw [lineFor, if_pos hfound, if_pos hdelete]
        rw [deletes, if_pos hfound, if_pos hdelete, hrest, List.filterMap_cons_none hline]
        -- what is deleted is none of the keys behind it
        refine List.filterMap_congr fun b hb => ?_
        have hget : (delete db (ascii key)).get (ascii b.1) = db.get (ascii b.1) := by
          rw [get_delete, if_neg (hhead b hb).symm]
        rw [lineFor, lineFor, found, found, hget]
      · have hline : lineFor o db (key, i) = some ("Unable to delete key " ++ key) := by
          rw [lineFor, if_pos hfound, if_neg hdelete]
        rw [deletes, if_pos hfound, if_neg hdelete, List.filterMap_cons_some hline, ← hrest]
    · have hline : lineFor o db (key, i) = some ("Unable to find key " ++ key) := by
        rw [lineFor, if_neg hfound]
      rw [deletes, if_neg hfound, List.filterMap_cons_some hline, ← hrest]

theorem keys_pairwise : keys.zipIdx.Pairwise fun a b => ascii a.1 ≠ ascii b.1 := by decide

/-! ## A run -/

section Run

variable (program file : String) (more : List String) (o : Outcomes) (db : DB)

theorem main_of_open (hopen : o.openError = none) :
    main (program :: file :: more) o db
      = ⟨0, scanLines o.scanError ++ keys.zipIdx.filterMap (lineFor o (inserts o insertCount db)),
          (deletes o keys.zipIdx (inserts o insertCount db)).2⟩ := by
  rw [← lines_deletes keys_pairwise]
  simp only [main, hopen]

open Classical in
/-- **What a run leaves.** Whatever the database holds and whichever calls fail after `Open()`: the
keys to be deleted whose `Get()` and `Delete()` work are gone, the others that were put have the
value, and the rest is as before. A line is printed for each key to be deleted that is neither there
before nor put or whose `Get()` fails, and another one for each that is found and cannot be
deleted. -/
theorem store_main (hopen : o.openError = none) :
    (∀ k, (main (program :: file :: more) o db).store.get k
        = if Deleted o keys.zipIdx k then none
          else if Inserted o insertCount k then some value else db.get k) ∧
      (main (program :: file :: more) o db).stderr
        = scanLines o.scanError ++ keys.zipIdx.filterMap fun a =>
            if o.get a.2 ∧ (Inserted o insertCount (ascii a.1) ∨ (db.get (ascii a.1)).isSome) then
              if o.delete a.2 then none else some ("Unable to delete key " ++ a.1)
            else some ("Unable to find key " ++ a.1) := by
  rw [main_of_open program file more o db hopen]
  refine ⟨fun k => by simp only [get_deletes, get_inserts], ?_⟩
  refine congrArg (scanLines o.scanError ++ ·) (List.filterMap_congr fun a _ => ?_)
  rw [lineFor, found, get_inserts]
  by_cases hins : Inserted o insertCount (ascii a.1) <;> simp [hins]

end Run

/-- Every call works but the second `Get()`. -/
def secondGetFails : Outcomes :=
  ⟨none, fun _ => true, none, fun i => i ≠ 1, fun _ => true⟩

/-- The second key stays, with a line that it could not be found, and the third one is deleted. -/
theorem store_main_failing :
    (main ["leveldb", "db"] secondGetFails .empty).store.get (ascii "Key40") = some value ∧
      (main ["leveldb", "db"] secondGetFails .empty).store.get (ascii "Key12") = none ∧
      "Unable to find key Key40" ∈ (main ["leveldb", "db"] secondGetFails .empty).stderr := by
  obtain ⟨hstore, hstderr⟩ := store_main "leveldb" "db" [] secondGetFails .empty rfl
  have hkept : ∀ a ∈ keys.zipIdx, secondGetFails.get a.2 = true → ascii "Key40" ≠ ascii a.1 := by
    decide
  refine ⟨?_, ?_, ?_⟩
  · rw [hstore, if_neg, if_pos ⟨40, by decide, rfl, by decide⟩]
    rintro ⟨key, i, hmem, hget, -, hkey⟩
    exact hkept (key, i) hmem hget hkey
  · rw [hstore, if_pos ⟨"Key12", 2, by decide, rfl, rfl, rfl⟩]
  · rw [hstderr]
    refine List.mem_append_right _ (List.mem_filterMap.mpr ⟨("Key40", 1), by decide, ?_⟩)
    rw [if_neg fun h => by cases h.1]
    rfl

/-! ## Further runs -/

/-- No call fails. -/
def allOk : Outcomes := ⟨none, fun _ => true, none, fun _ => true, fun _ => true⟩

theorem inserted_insertKey {i : ℕ} (hi : i < insertCount) :
    Inserted allOk insertCount (insertKey i) := ⟨i, hi, rfl, rfl⟩

theorem not_inserted : ¬ Inserted allOk insertCount (ascii "_Key77_") := by
  rintro ⟨i, -, -, h⟩
  cases congrArg List.head? h

/-- Only the last of the keys need not be there. -/
theorem lines_allOk (db : DB) :
    keys.zipIdx.filterMap (lineFor allOk (inserts allOk insertCount db))
      = if (db.get (ascii "_Key77_")).isSome then [] else ["Unable to find key _Key77_"] := by
  have hput : ∀ key i, i < insertCount → ascii key = insertKey i → ∀ j,
      lineFor allOk (inserts allOk insertCount db) (key, j) = none := by
    intro key i hi hkey j
    rw [lineFor, found, get_inserts, hkey, if_pos (inserted_insertKey hi)]
    rfl
  have hlast : ∀ j, lineFor allOk (inserts allOk insertCount db) ("_Key77_", j)
      = if (db.get (ascii "_Key77_")).isSome then none else some "Unable to find key _Key77_" := by
    intro j
    rw [lineFor, found, get_inserts, if_neg not_inserted]
    rfl
  have hkeys : keys.zipIdx
      = [("Key1", 0), ("Key40", 1), ("Key12", 2), ("Key16", 3), ("_Key77_", 4)] := rfl
  rw [hkeys, List.filterMap_cons_none (hput "Key1" 1 (by decide) (by decide) 0),
    List.filterMap_cons_none (hput "Key40" 40 (by decide) (by decide) 1),
    List.filterMap_cons_none (hput "Key12" 12 (by decide) (by decide) 2),
    List.filterMap_cons_none (hput "Key16" 16 (by decide) (by decide) 3), List.filterMap_cons,
    List.filterMap_nil, hlast]
  split <;> split <;> simp_all

/-- **Further runs.** When no call fails, a run on any database prints at most that the key that it
has not put is not there, and a run on the database that it leaves prints that and leaves the same
database. So it does not matter how often the benchmark has run before, from the second run on. -/
theorem main_again (program file : String) (more : List String) (db : DB) :
    ∃ db', main (program :: file :: more) allOk db
        = ⟨0, if (db.get (ascii "_Key77_")).isSome then [] else ["Unable to find key _Key77_"],
            db'⟩ ∧
      main (program :: file :: more) allOk db' = ⟨0, ["Unable to find key _Key77_"], db'⟩ := by
  have hget : ∀ db k, (deletes allOk keys.zipIdx (inserts allOk insertCount db)).2.get k
      = (deletes allOk keys.zipIdx (inserts allOk insertCount
          (deletes allOk keys.zipIdx (inserts allOk insertCount db)).2)).2.get k := by
    intro db k
    simp only [get_deletes, get_inserts]
    split
    · rfl
    · split <;> rfl
  have hgone : (deletes allOk keys.zipIdx (inserts allOk insertCount db)).2.get (ascii "_Key77_")
      = none := by
    rw [get_deletes, if_pos ⟨"_Key77_", 4, by decide, rfl, rfl, rfl⟩]
  refine ⟨(deletes allOk keys.zipIdx (inserts allOk insertCount db)).2, ?_, ?_⟩
  · rw [main_of_open program file more allOk db rfl, lines_allOk]
    rfl
  · rw [main_of_open program file more allOk _ rfl, lines_allOk, hgone,
      ← SortedMap.ext_get (hget db)]
    rfl

end BenchLx.LevelDb
