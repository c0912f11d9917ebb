import BenchLx.Common.SortedMap
import BenchLx.Common.Syscalls
import BenchLx.Common.Text
import BenchLx.Ycsb.Package

/-!
# Executing operations on the store

Reference: `apps/ycsbserver/ops.cc`. The store is a finite map from byte strings to byte strings
that iterates in bytewise key order. Output on `std::cerr` is left out.
-/

namespace BenchLx.Ycsb

/-- The LevelDB store. -/
abbrev DB := SortedMap Bytes Bytes

/-! ## Keys of the store -/

/-- `pack_key`: the decimal key, a slash, a prefix and the field name. -/
def packKey (key : UInt64) (field pre : Bytes) : Bytes :=
  decimal key.toNat ++ ascii "/" ++ pre ++ field

/-- `unpack_key`: the number in front, read as a `long long`, and what follows the byte after it. -/
def unpackKey (keyField : Bytes) : Except Stop (UInt64 × Bytes) := do
  let (value, pos) ← stoll keyField
  if pos + 1 > keyField.length then .error .outOfRange
  else .ok (UInt64.ofNat (toSize value), keyField.drop (pos + 1))

/-! ## The operations -/

/-- `exec_insert`: put every pair under its packed key. -/
def execInsert (db : DB) (pkg : Package) : DB :=
  pkg.kvPairs.foldl (fun db pair => db.put (packKey pkg.key pair.1 (ascii "field")) pair.2) db

/-- `exec_read`: without pairs all entries whose key reads back as the one asked for, else the
value of each name asked for that is there. -/
def execRead (db : DB) (pkg : Package) : List (Bytes × Bytes) :=
  if pkg.kvPairs.isEmpty then
    db.entries.filterMap fun entry =>
      let (key, rest) := extractU64 entry.1
      if key = pkg.key then some (extractWord rest, entry.2) else none
  else
    pkg.kvPairs.filterMap fun pair =>
      (db.get (packKey pkg.key pair.1 [])).map fun value => (pair.1, value)

/-- `take_field`: a package without pairs selects every field, else the fields it names. -/
def takeField (pkg : Package) (field : Bytes) : Bool :=
  pkg.kvPairs.isEmpty || pkg.kvPairs.any fun pair => pair.1 = field

/-- The loop of `exec_scan` over the entries the iterator still has to visit. -/
def scanLoop (pkg : Package) : List (Bytes × Bytes) → UInt64 → UInt64 → List (Bytes × Bytes) →
    Except Stop (List (Bytes × Bytes))
  | [], _, _, res => .ok res
  | entry :: entries, rem, lastKey, res =>
    if rem > 0 then do
      let pair ← unpackKey entry.1
      if pair.1 ≥ pkg.key then
        if takeField pkg pair.2 then
          let rem := if lastKey ≠ 0 ∧ lastKey ≠ pair.1 then rem - 1 else rem
          scanLoop pkg entries rem pair.1 (res ++ [(pair.2, entry.2)])
        else scanLoop pkg entries rem pair.1 res
      else scanLoop pkg entries rem lastKey res
    else .ok res

/-- The entries from where the iterator of `exec_scan` starts: with one pair it seeks to that field
of the start key, else to the first entry. -/
def scanEntries (db : DB) (pkg : Package) : List (Bytes × Bytes) :=
  match pkg.kvPairs with
  | [pair] => db.seek (packKey pkg.key pair.1 [])
  | _ => db.entries

/-- `exec_scan`. -/
def execScan (db : DB) (pkg : Package) : Except Stop (List (Bytes × Bytes)) :=
  scanLoop pkg (scanEntries db pkg) pkg.scanLength 0 []

/-! ## The executor -/

/-- The cycle counter before and after an operation. -/
structure Cycles where
  start : UInt64
  stop : UInt64
deriving DecidableEq, Repr

/-- `LevelDBExecutor`: the store and the statistics. -/
structure LevelDBExecutor where
  tInsert : UInt64
  tRead : UInt64
  tScan : UInt64
  tUpdate : UInt64
  nInsert : UInt64
  nRead : UInt64
  nScan : UInt64
  nUpdate : UInt64
  db : DB

namespace LevelDBExecutor

/-- The executor that the constructor builds over a store. -/
def create (db : DB) : LevelDBExecutor :=
  { tInsert := 0, tRead := 0, tScan := 0, tUpdate := 0
    nInsert := 0, nRead := 0, nScan := 0, nUpdate := 0, db := db }

/-- `reset_stats`. -/
def resetStats (e : LevelDBExecutor) : LevelDBExecutor :=
  create e.db

/-- The bytes that a result is answered with. -/
def resultBytes (vals : List (Bytes × Bytes)) : UInt64 :=
  vals.foldl (fun bytes pair =>
    bytes + (UInt64.ofNat pair.1.length + UInt64.ofNat pair.2.length)) 0

/-- `execute`: the number of bytes to answer with and the executor after the operation. -/
def execute (e : LevelDBExecutor) (cycles : Cycles) (pkg : Package) :
    Except Stop (UInt64 × LevelDBExecutor) :=
  match pkg.operation with
  | some .insert =>
    .ok (4, { e with
      db := execInsert e.db pkg
      tInsert := e.tInsert + (cycles.stop - cycles.start)
      nInsert := e.nInsert + 1 })
  | some .update =>
    .ok (4, { e with
      db := execInsert e.db pkg
      tUpdate := e.tUpdate + (cycles.stop - cycles.start)
      nUpdate := e.nUpdate + 1 })
  | some .read =>
    .ok (resultBytes (execRead e.db pkg), { e with
      tRead := e.tRead + (cycles.stop - cycles.start)
      nRead := e.nRead + 1 })
  | some .scan => do
    let vals ← execScan e.db pkg
    return (resultBytes vals, { e with
      tScan := e.tScan + (cycles.stop - cycles.start)
      nScan := e.nScan + 1 })
  | some .delete => .ok (4, e)
  | none => .ok (0, e)

/-- Execute packages one after the other, each with its readings of the cycle counter. -/
def run (e : LevelDBExecutor) : List (Package × Cycles) → Except Stop LevelDBExecutor
  | [] => .ok e
  | (pkg, cycles) :: rest => do
    let (_, e') ← e.execute cycles pkg
    run e' rest

end LevelDBExecutor

end BenchLx.Ycsb
