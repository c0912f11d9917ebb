import BenchLx.Memcpy.ForwardCopy

/-!
# The accesses of `my_memcpy`

Loads and stores move the range block by block, each block a byte or a word that is aligned on both
sides (`Moves`). Ranges that do not wrap around are therefore never left, and each byte of the
destination is stored once (`myMemcpy_accesses`).
-/

namespace BenchLx.Memcpy

/-- Whether an access stores the byte at the address `x`. -/
def Access.stores (x : ℕ) : Access → Bool
  | .load _ _ => false
  | .store a size => a.toNat ≤ x && x < a.toNat + size

/-- A byte, or a word at an address that is divisible by its size. -/
def Access.Aligned (a : BitVec 64) (size : ℕ) : Prop :=
  size = 1 ∨ size = wordSize ∧ wordSize ∣ a.toNat

/-- The `size` bytes at `a` lie within the `len` bytes at `start`. -/
structure Access.Inside (start len : BitVec 64) (a : BitVec 64) (size : ℕ) : Prop where
  start_le : start.toNat ≤ a.toNat
  le_end : a.toNat + size ≤ start.toNat + len.toNat

/-- A load lies within the source, and a store within the destination. -/
def Access.Within (dest src len : BitVec 64) : Access → Prop
  | .load a size => Access.Aligned a size ∧ Access.Inside src len a size
  | .store a size => Access.Aligned a size ∧ Access.Inside dest len a size

/-- The accesses load and store the first `k` bytes one block after the other. -/
inductive Moves (dest src : BitVec 64) : ℕ → List Access → Prop
  | nil : Moves dest src 0 []
  | block {k size : ℕ} {accesses : List Access} (h : Moves dest src k accesses)
      (hload : Access.Aligned (src + BitVec.ofNat 64 k) size)
      (hstore : Access.Aligned (dest + BitVec.ofNat 64 k) size) :
      Moves dest src (k + size) (accesses ++
        [.load (src + BitVec.ofNat 64 k) size, .store (dest + BitVec.ofNat 64 k) size])

/-! ## The blocks -/

section Moves

variable {dest src len : BitVec 64} {k : ℕ} {accesses : List Access}

theorem Access.Aligned.size_pos {a : BitVec 64} {size : ℕ} (h : Access.Aligned a size) :
    0 < size := by
  rcases h with rfl | ⟨rfl, -⟩
  · exact Nat.one_pos
  · exact Nat.succ_pos 7

/-- An address that is not behind the end of the address space. -/
theorem toNat_add_ofNat {a : BitVec 64} {n : ℕ} (h : a.toNat + n < 2 ^ 64) :
    (a + BitVec.ofNat 64 n).toNat = a.toNat + n := by
  rw [BitVec.toNat_add, BitVec.toNat_ofNat, Nat.mod_eq_of_lt (by omega : n < 2 ^ 64),
    Nat.mod_eq_of_lt h]

/-- A block behind the first `k` bytes lies within the range. -/
theorem inside_block {start : BitVec 64} {size : ℕ} (hpos : 0 < size) (hk : k + size ≤ len.toNat)
    (hend : start.toNat + len.toNat ≤ 2 ^ 64) :
    Access.Inside start len (start + BitVec.ofNat 64 k) size := by
  have haddr := @toNat_add_ofNat start k (by omega)
  exact ⟨by omega, by omega⟩

/-- Each access is a block of its range. -/
theorem Moves.inside (h : Moves dest src k accesses) (hk : k ≤ len.toNat)
    (hdest : dest.toNat + len.toNat ≤ 2 ^ 64) (hsrc : src.toNat + len.toNat ≤ 2 ^ 64) {x : Access}
    (hx : x ∈ accesses) : x.Within dest src len := by
  induction h with
  | nil => cases hx
  | @block k size accesses h hload hstore ih =>
    rcases List.mem_append.mp hx with hx | hx
    · exact ih (by omega) hx
    · rcases List.mem_pair.mp hx with rfl | rfl
      · exact ⟨hload, inside_block hload.size_pos hk hsrc⟩
      · exact ⟨hstore, inside_block hstore.size_pos hk hdest⟩

/-- The bytes behind the pointers have been stored once, and no others. -/
theorem Moves.countP_stores (h : Moves dest src k accesses) (hk : dest.toNat + k ≤ 2 ^ 64)
    (x : ℕ) : accesses.countP (Access.stores x)
      = if dest.toNat ≤ x ∧ x < dest.toNat + k then 1 else 0 := by
  induction h with
  | nil => simp
  | @block k size accesses h hload hstore ih =>
    have hpos := hstore.size_pos
    have haddr := @toNat_add_ofNat dest k (by omega)
    rw [List.countP_append, ih (by omega)]
    simp only [List.countP_cons, List.countP_nil, Access.stores, haddr, Bool.and_eq_true,
      decide_eq_true_eq, Bool.false_eq_true, if_false, Nat.zero_add, Nat.add_zero]
    by_cases hbefore : dest.toNat ≤ x ∧ x < dest.toNat + k
    · rw [if_pos hbefore, if_neg (by omega), if_pos (by omega)]
    · rw [if_neg hbefore]
      by_cases hblock : dest.toNat + k ≤ x ∧ x < dest.toNat + k + size
      · rw [if_pos hblock, if_pos (by omega)]
      · rw [if_neg hblock, if_neg (by omega)]

end Moves

/-! ## The loops -/

/-- As `Progress`, and so far the accesses have moved the bytes block by block. -/
structure Traced (m : Mem 64) (dest src len : BitVec 64) (k off : ℕ) (s : State) : Prop
    extends Progress m dest src len k off s where
  moves : Moves dest src (k + off) s.accesses

section Traced

variable {m : Mem 64} {dest src len : BitVec 64} {k off : ℕ} {s : State}

theorem Traced.assign {size : ℕ} (ht : Traced m dest src len k off s) (hsize : size ≤ 2 ^ 64)
    (hdvd : size ∣ (dest - src).toNat) {o : BitVec 64} (ho : o = BitVec.ofNat 64 off)
    (hload : Access.Aligned (s.bsrc + o) size) (hstore : Access.Aligned (s.bdest + o) size) :
    Traced m dest src len k (off + size) (s.assign o size) := by
  refine ⟨ht.toProgress.assign hsize hdvd ho, ?_⟩
  have haddr : ∀ p : BitVec 64, p + BitVec.ofNat 64 k + o = p + BitVec.ofNat 64 (k + off) := by
    intro p
    rw [ho, BitVec.ofNat_add, BitVec.add_assoc]
  rw [ht.bsrc_eq, haddr] at hload
  rw [ht.bdest_eq, haddr] at hstore
  rw [← Nat.add_assoc, State.assign, ht.bsrc_eq, ht.bdest_eq, haddr, haddr]
  exact ht.moves.block hload hstore

theorem Traced.advance (ht : Traced m dest src len k off s) (hoff : off ≤ s.len.toNat)
    {o : BitVec 64} (ho : o = BitVec.ofNat 64 off) :
    Traced m dest src len (k + off) 0 (s.advance o) :=
  ⟨ht.toProgress.advance hoff ho, ht.moves⟩

theorem Traced.copyByte (ht : Traced m dest src len k 0 s) (hlen : 0 < s.len) :
    Traced m dest src len (k + 1) 0 ((s.assign 0 1).advance 1) := by
  have hle : 1 ≤ (s.assign 0 1).len.toNat := BitVec.lt_def.mp hlen
  exact (ht.assign (by decide) (one_dvd _) rfl (.inl rfl) (.inl rfl)).advance hle rfl

section Words

variable (haligned : dest % 8 = src % 8)
include haligned

/-- With equal alignments `bsrc` is at a word when `bdest` is. -/
theorem Progress.bsrc_umod (hp : Progress m dest src len k off s) (hat : s.bdest % 8 = 0) :
    s.bsrc % 8 = 0 := by
  have hmod := congrArg BitVec.toNat haligned
  rw [BitVec.toNat_umod, BitVec.toNat_umod] at hmod
  simp only [BitVec.reduceToNat] at hmod
  rw [hp.bdest_eq, umod_eight_iff, BitVec.toNat_add] at hat
  rw [hp.bsrc_eq, umod_eight_iff, BitVec.toNat_add]
  omega

/-- A word of the unrolled loop, or the only one of the other loop. -/
theorem Traced.assignWord (ht : Traced m dest src len k off s) (hat : s.bdest % 8 = 0)
    {o : BitVec 64} (ho : o = BitVec.ofNat 64 off) (hword : o % 8 = 0) :
    Traced m dest src len k (off + wordSize) (s.assign o wordSize) := by
  have hbsrc := ht.bsrc_umod haligned hat
  refine ht.assign (by decide) (wordSize_dvd_of_aligned haligned) ho (.inr ⟨rfl, ?_⟩)
    (.inr ⟨rfl, ?_⟩)
  · exact Nat.dvd_of_mod_eq_zero (umod_eight_iff.mp (add_umod_eight hbsrc hword))
  · exact Nat.dvd_of_mod_eq_zero (umod_eight_iff.mp (add_umod_eight hat hword))

theorem Traced.copyWords (ht : Traced m dest src len k 0 s) (hat : s.bdest % 8 = 0)
    (hlen : 64 ≤ s.len) : Traced m dest src len (k + 64) 0 (Memcpy.copyWords s) := by
  have hassigned := copyWords_induct (Q := fun off s' => Traced m dest src len k off s' ∧
    s'.bdest % 8 = 0 ∧ s'.len = s.len) ?_ ⟨ht, hat, rfl⟩
  · obtain ⟨s', ⟨ht', -, hlen'⟩, heq⟩ := hassigned
    rw [heq]
    exact ht'.advance (by rw [hlen']; exact BitVec.le_def.mp hlen) rfl
  · intro i s' ⟨ht', hat', hlen'⟩
    have hoff : BitVec.ofNat 64 (wordSize * i) % 8 = 0 := by
      rw [umod_eight_iff, BitVec.toNat_ofNat, wordSize]
      omega
    exact ⟨ht'.assignWord haligned hat' rfl hoff, hat', hlen'⟩

theorem Traced.copyWord (ht : Traced m dest src len k 0 s) (hat : s.bdest % 8 = 0)
    (hlen : 8 ≤ s.len) :
    Traced m dest src len (k + 8) 0 ((s.assign 0 wordSize).advance 8) := by
  have hle : wordSize ≤ (s.assign 0 wordSize).len.toNat := BitVec.le_def.mp hlen
  have hword := ht.assignWord haligned hat (o := 0) rfl rfl
  rw [Nat.zero_add] at hword
  exact hword.advance hle rfl

end Words

end Traced

/-- All bytes are moved block by block. -/
theorem exists_traced (m : Mem 64) (dest src len : BitVec 64) :
    ∃ s, Traced m dest src len len.toNat 0 s ∧ s.len = 0 ∧
      (myMemcpy m dest src len).2 = { s with len := s.len - 1 } := by
  have hstart : Traced m dest src len 0 0 ⟨m, dest, src, len, []⟩ :=
    ⟨⟨rfl, by simp, by simp, rfl⟩, .nil⟩
  obtain ⟨s, ⟨k, ht⟩, hzero, hend⟩ :=
    myMemcpy_induct (P := fun s => ∃ k, Traced m dest src len k 0 s) ⟨0, hstart⟩
      (fun s hlen ⟨k, ht⟩ => ⟨k + 1, ht.copyByte hlen⟩)
      (fun haligned s hlen hat ⟨k, ht⟩ => ⟨k + 64, ht.copyWords haligned hat hlen⟩)
      (fun haligned s hlen hat ⟨k, ht⟩ => ⟨k + 8, ht.copyWord haligned hat hlen⟩)
  exact ⟨s, ht.eq_length hzero ▸ ht, hzero, hend⟩

/-- **The accesses of `my_memcpy`.** For all addresses and lengths whose ranges do not wrap around:
every load lies within the source and every store within the destination, each of a byte or of a
word at an address divisible by 8; each byte of the destination is stored exactly once; and the last
loop ends with the test that takes `len` below zero. -/
theorem myMemcpy_accesses (m : Mem 64) (dest src len : BitVec 64)
    (hdest : dest.toNat + len.toNat ≤ 2 ^ 64) (hsrc : src.toNat + len.toNat ≤ 2 ^ 64) :
    let s := (myMemcpy m dest src len).2
    (∀ a size, .load a size ∈ s.accesses →
      Access.Aligned a size ∧ Access.Inside src len a size) ∧
    (∀ a size, .store a size ∈ s.accesses →
      Access.Aligned a size ∧ Access.Inside dest len a size) ∧
    (∀ x, dest.toNat ≤ x → x < dest.toNat + len.toNat →
      s.accesses.countP (Access.stores x) = 1) ∧
    s.len = 0 - 1 := by
  obtain ⟨s, ht, hzero, hend⟩ := exists_traced m dest src len
  have hmoves : Moves dest src len.toNat s.accesses := ht.moves
  rw [hend]
  refine ⟨fun a size ha => hmoves.inside le_rfl hdest hsrc ha,
    fun a size ha => hmoves.inside le_rfl hdest hsrc ha, fun x hstart hx => ?_, ?_⟩
  · exact (hmoves.countP_stores hdest x).trans (if_pos ⟨hstart, hx⟩)
  · exact congrArg (· - 1) hzero

/-- Eleven bytes from address 8 to address 32: a word and three bytes. -/
theorem myMemcpy_accesses_eleven :
    (myMemcpy (fun _ => 0) 32 8 11).2.accesses.countP (Access.stores 42) = 1 := by
  obtain ⟨-, -, hstored, -⟩ := myMemcpy_accesses (fun _ => 0) 32 8 11 (by decide) (by decide)
  exact hstored 42 (by decide) (by decide)

end BenchLx.Memcpy
