import BenchLx.Common.Bytes

/-!
# Operations and packages

Reference: `apps/ycsbserver/ops.h`.
-/

namespace BenchLx.Ycsb

/-- `enum Operation`. -/
inductive Operation
  | insert
  | delete
  | read
  | scan
  | update
deriving DecidableEq, Repr

/-- The operation that an op byte stands for; the other bytes stand for none. -/
def Operation.ofByte (op : UInt8) : Option Operation :=
  match op.toNat with
  | 1 => some .insert
  | 2 => some .delete
  | 3 => some .read
  | 4 => some .scan
  | 5 => some .update
  | _ => none

/-- `struct Package`: one request. -/
structure Package where
  op : UInt8
  table : UInt8
  numKvs : UInt8
  key : UInt64
  scanLength : UInt64
  kvPairs : List (Bytes × Bytes)
deriving DecidableEq, Repr

/-- A package as the server loop declares it for every request. Its scalars are indeterminate
there; `fromBytes` writes each of them before anything reads it. -/
def Package.fresh : Package :=
  { op := 0, table := 0, numKvs := 0, key := 0, scanLength := 0, kvPairs := [] }

/-- The operation of a package, if its op byte stands for one. -/
def Package.operation (pkg : Package) : Option Operation :=
  Operation.ofByte pkg.op

end BenchLx.Ycsb
