import Mathlib.Data.Nat.ModEq
import Mathlib.Tactic

/-!
# Copying within an address space

Memory is a map from addresses of `w` bits to bytes, and addresses wrap around. An access moves a
block of bytes together: all of it is loaded before any of it is stored. Copying a range block by
block leaves the same memory as copying it byte by byte in ascending order as long as no block
stores a byte that a later byte of the same block is loaded from
(`copyForward_eq_copyBlock`).
-/

namespace BenchLx

/-- The contents of an address space of `w` bits. -/
abbrev Mem (w : ℕ) := BitVec w → UInt8

namespace Mem

variable {w : ℕ}

/-- The `n` bytes from the address `a` on. -/
def load (m : Mem w) (a : BitVec w) (n : ℕ) : List UInt8 :=
  (List.range n).map fun i => m (a + BitVec.ofNat w i)

/-- Put the bytes `bs` at the address `a`. -/
def store (m : Mem w) (a : BitVec w) (bs : List UInt8) : Mem w := fun x =>
  match bs[(x - a).toNat]? with
  | some b => b
  | none => m x

/-- Copy the `n` bytes at `s` to `d` in one access. -/
def copyBlock (m : Mem w) (d s : BitVec w) (n : ℕ) : Mem w :=
  m.store d (m.load s n)

/-- The loop `for i from 0 to n-1: d[i] = s[i]` over bytes. -/
def copyForward (m : Mem w) (d s : BitVec w) : ℕ → Mem w
  | 0 => m
  | n + 1 =>
    (copyForward m d s n).copyBlock (d + BitVec.ofNat w n) (s + BitVec.ofNat w n) 1

variable {d s : BitVec w} {n : ℕ}

/-- The addresses of a block are told apart by their offsets. -/
theorem eq_add_ofNat_iff (hn : n < 2 ^ w) (d x : BitVec w) :
    x = d + BitVec.ofNat w n ↔ (x - d).toNat = n := by
  constructor
  · rintro rfl
    rw [BitVec.add_comm, BitVec.add_sub_cancel, BitVec.toNat_ofNat, Nat.mod_eq_of_lt hn]
  · intro hoff
    rw [← hoff, BitVec.ofNat_toNat, BitVec.setWidth_eq, BitVec.add_comm, BitVec.sub_add_cancel]

theorem copyBlock_apply (m : Mem w) (d s : BitVec w) (n : ℕ) (x : BitVec w) :
    m.copyBlock d s n x = if (x - d).toNat < n then m (s + (x - d)) else m x := by
  rw [copyBlock, store]
  by_cases hx : (x - d).toNat < n
  · rw [if_pos hx, load, List.getElem?_map, List.getElem?_range hx, Option.map_some,
      BitVec.ofNat_toNat, BitVec.setWidth_eq]
  · rw [if_neg hx, List.getElem?_eq_none (by simpa [load] using hx)]

/-- The first part of a copy and then the rest. -/
theorem copyForward_add (m : Mem w) (d s : BitVec w) (a b : ℕ) :
    m.copyForward d s (a + b)
      = (m.copyForward d s a).copyForward (d + BitVec.ofNat w a) (s + BitVec.ofNat w a) b := by
  induction b with
  | zero => rfl
  | succ b ih =>
    rw [← Nat.add_assoc, copyForward, copyForward, ih, BitVec.ofNat_add, BitVec.add_assoc,
      BitVec.add_assoc]

/-- No byte is loaded after a lower one has been stored over it. -/
def NotOverwritten (d s : BitVec w) (n : ℕ) : Prop :=
  ∀ i j, i < j → j < n → d + BitVec.ofNat w i ≠ s + BitVec.ofNat w j

/-- **Blocks and bytes.** A block may be copied byte by byte. -/
theorem copyForward_eq_copyBlock (m : Mem w) (hn : n ≤ 2 ^ w) (h : NotOverwritten d s n) :
    m.copyForward d s n = m.copyBlock d s n := by
  induction n with
  | zero =>
    funext x
    rw [copyBlock_apply, if_neg (Nat.not_lt_zero _), copyForward]
  | succ n ih =>
    have hlt : n < 2 ^ w := hn
    rw [copyForward, ih (le_of_lt hlt) fun i j hij hj => h i j hij (Nat.lt_succ_of_lt hj)]
    funext x
    simp only [copyBlock_apply]
    by_cases hx : x = d + BitVec.ofNat w n
    · -- the last byte: what is loaded has not been stored over
      have hsrc : ¬ (s + BitVec.ofNat w n - d).toNat < n := by
        intro hi
        have hi' := (eq_add_ofNat_iff (lt_trans hi hlt) d (s + BitVec.ofNat w n)).mpr rfl
        exact h _ n hi (Nat.lt_succ_self n) hi'.symm
      have hoff : (x - d).toNat < n + 1 := by
        rw [(eq_add_ofNat_iff hlt d x).mp hx]
        exact Nat.lt_succ_self n
      rw [if_pos hoff, hx, BitVec.sub_self, BitVec.toNat_zero, if_pos Nat.one_pos, BitVec.add_zero,
        if_neg hsrc, BitVec.add_comm d, BitVec.add_sub_cancel]
    · have hoff : (x - d).toNat ≠ n := fun hoff => hx ((eq_add_ofNat_iff hlt d x).mpr hoff)
      have hlast : ¬ (x - (d + BitVec.ofNat w n)).toNat < 1 := by
        intro hzero
        apply hx
        have hpos : 0 < 2 ^ w := Nat.two_pow_pos w
        have hsub := (eq_add_ofNat_iff hpos (d + BitVec.ofNat w n) x).mpr (by omega)
        rw [hsub]
        simp
      rw [if_neg hlast]
      by_cases hin : (x - d).toNat < n
      · rw [if_pos hin, if_pos (by omega)]
      · rw [if_neg hin, if_neg (by omega)]

/-- A range that is copied to itself, or to a place whose distance is a multiple of the block size,
is copied in blocks. -/
theorem notOverwritten_of_dvd (hn : n ≤ 2 ^ w) (hdvd : n ∣ (d - s).toNat) :
    NotOverwritten d s n := by
  intro i j hij hj heq
  have hdist : d - s = BitVec.ofNat w (j - i) := by
    have hj' : BitVec.ofNat w j = BitVec.ofNat w (j - i) + BitVec.ofNat w i := by
      rw [← BitVec.ofNat_add, Nat.sub_add_cancel hij.le]
    rw [hj', ← BitVec.add_assoc, BitVec.add_left_inj] at heq
    rw [heq, BitVec.add_comm, BitVec.add_sub_cancel]
  rw [hdist, BitVec.toNat_ofNat, Nat.mod_eq_of_lt (by omega)] at hdvd
  exact absurd (Nat.le_of_dvd (by omega) hdvd) (by omega)

end Mem

end BenchLx
