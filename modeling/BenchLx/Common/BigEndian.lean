import BenchLx.Common.Bytes

/-!
# Big-endian numbers

A natural number in a fixed count of bytes, most significant byte first, and back.
-/

namespace BenchLx

/-- The low `n` bytes of `x`, most significant byte first. -/
def toBytesBE : ℕ → ℕ → Bytes
  | 0, _ => []
  | n + 1, x => toBytesBE n (x / 256) ++ [UInt8.ofNat x]

/-- The number that a string of bytes denotes, most significant byte first. -/
def ofBytesBE (bs : Bytes) : ℕ :=
  bs.foldl (fun acc b => acc * 256 + b.toNat) 0

@[simp] theorem length_toBytesBE (n x : ℕ) : (toBytesBE n x).length = n := by
  induction n generalizing x with
  | zero => rfl
  | succ n ih => simp [toBytesBE, ih]

@[simp] theorem ofBytesBE_nil : ofBytesBE [] = 0 := rfl

@[simp] theorem ofBytesBE_concat (bs : Bytes) (b : UInt8) :
    ofBytesBE (bs ++ [b]) = ofBytesBE bs * 256 + b.toNat := by
  simp [ofBytesBE, List.foldl_append]

theorem ofBytesBE_lt (bs : Bytes) : ofBytesBE bs < 256 ^ bs.length := by
  induction bs using List.reverseRecOn with
  | nil => simp
  | append_singleton bs b ih =>
    have hb : b.toNat < 256 := b.toNat_lt
    rw [ofBytesBE_concat, List.length_append, List.length_singleton, pow_succ]
    omega

/-- Reading back a number keeps it modulo `256 ^ n`. -/
theorem ofBytesBE_toBytesBE (n x : ℕ) : ofBytesBE (toBytesBE n x) = x % 256 ^ n := by
  induction n generalizing x with
  | zero => simp [toBytesBE, Nat.mod_one]
  | succ n ih =>
    have hmod : x % 256 ^ (n + 1) = x % 256 + 256 * (x / 256 % 256 ^ n) := by
      rw [pow_succ', Nat.mod_mul]
    rw [toBytesBE, ofBytesBE_concat, ih, hmod]
    simp only [UInt8.toNat_ofNat']
    omega

/-- Writing the number that a string denotes gives the string back. -/
theorem toBytesBE_ofBytesBE (bs : Bytes) : toBytesBE bs.length (ofBytesBE bs) = bs := by
  induction bs using List.reverseRecOn with
  | nil => rfl
  | append_singleton bs b ih =>
    have hb : b.toNat < 256 := b.toNat_lt
    have hdiv : (ofBytesBE bs * 256 + b.toNat) / 256 = ofBytesBE bs := by omega
    have hlow : UInt8.ofNat (ofBytesBE bs * 256 + b.toNat) = b := by
      apply UInt8.toNat_inj.mp
      simp only [UInt8.toNat_ofNat']
      omega
    rw [List.length_append, List.length_singleton, ofBytesBE_concat, toBytesBE, hdiv, hlow, ih]

/-- Or-ing a byte into the next lower place of a number adds it there. -/
theorem or_shiftLeft_byte {acc b k : ℕ} (hb : b < 256) :
    (acc * 256 * 2 ^ k) ||| (b <<< k) = (acc * 256 + b) * 2 ^ k := by
  have hor : acc * 256 + b = (acc * 256) ||| b := by
    have h := Nat.shiftLeft_add_eq_or_of_lt (i := 8) (b := b) (by simpa using hb) acc
    simpa [Nat.shiftLeft_eq] using h
  rw [hor, ← Nat.shiftLeft_eq, ← Nat.shiftLeft_eq, Nat.shiftLeft_or_distrib]

example : toBytesBE 4 0x01020304 = [1, 2, 3, 4] := by decide

end BenchLx
