import BenchLx.Ycsb.Ops

/-!
# The format of store keys

A key of the store is a decimal record key, a slash and a field name. A slash is no digit, so record
key and field name can be told apart whatever bytes the name has. `unpack_key` reads the record key
as a signed number and fails on the upper half of the unsigned range; `operator>>` does not.
-/

namespace BenchLx.Ycsb

/-- The prefix that `exec_insert` puts before the field names of a request. -/
def fieldPrefix : Bytes := ascii "field"

/-- The slash that ends the record key. -/
theorem isDigit_slash : isDigit 47 = false := by decide

theorem packKey_eq (key : UInt64) (field pre : Bytes) :
    packKey key field pre = decimal key.toNat ++ 47 :: (pre ++ field) := by
  have hslash : ascii "/" = [47] := by decide
  simp [packKey, hslash]

/-- Packed keys are equal only for one record key and one prefixed field name. -/
theorem packKey_inj {k k' : UInt64} {f f' pre pre' : Bytes} :
    packKey k f pre = packKey k' f' pre' ↔ k = k' ∧ pre ++ f = pre' ++ f' := by
  rw [packKey_eq, packKey_eq, decimal_append_inj isDigit_slash, UInt64.toNat_inj]

/-- `unpack_key` inverts `pack_key` below `2 ^ 63` and throws from there on. -/
theorem unpackKey_packKey (k : UInt64) (f pre : Bytes) :
    unpackKey (packKey k f pre) =
      if k.toNat < 2 ^ 63 then .ok (k, pre ++ f) else .error .outOfRange := by
  rw [packKey_eq, unpackKey, stoll_decimal_append isDigit_slash]
  split
  · next hk =>
    have hsize : k.toNat < sizeMod := lt_trans hk (by decide)
    have hfits : ¬ (decimal k.toNat).length + 1 >
        (decimal k.toNat ++ 47 :: (pre ++ f)).length := by
      simp only [List.length_append, List.length_cons]
      omega
    have hdrop : (decimal k.toNat ++ 47 :: (pre ++ f)).drop ((decimal k.toNat).length + 1)
        = pre ++ f := by
      rw [List.drop_append]
      simp
    rw [ok_bind]
    simp only [if_neg hfits, hdrop, toSize_natCast hsize, UInt64.ofNat_toNat]
  · rfl

/-- `is >> key` reads every record key back. -/
theorem extractU64_packKey (k : UInt64) (f pre : Bytes) :
    extractU64 (packKey k f pre) = (k, some (47 :: (pre ++ f))) := by
  rw [packKey_eq, extractU64_decimal_append isDigit_slash]

/-! ## The keys that `exec_insert` stores -/

/-- The store key of a field of a record. -/
def storedKey (kf : UInt64 × Bytes) : Bytes :=
  packKey kf.1 kf.2 fieldPrefix

theorem storedKey_injective : Function.Injective storedKey := by
  rintro ⟨k, f⟩ ⟨k', f'⟩ h
  obtain ⟨hk, hf⟩ := packKey_inj.mp h
  exact Prod.ext hk (List.append_cancel_left hf)

/-- The reader's keys meet the writer's exactly at the names that start with the prefix. -/
theorem packKey_eq_storedKey_iff {k k' : UInt64} {name f : Bytes} :
    packKey k name [] = storedKey (k', f) ↔ k = k' ∧ name = fieldPrefix ++ f := by
  rw [storedKey, packKey_inj, List.nil_append]

end BenchLx.Ycsb
