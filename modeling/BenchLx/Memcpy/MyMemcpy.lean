import BenchLx.Common.AddressSpace

/-!
# The copy loop of the memcpy benchmark

Reference: `my_memcpy` in `apps/memcpy/memcpy.c`. Pointers and `size_t` values are words of 64 bits,
a `word_t` is 8 bytes that are accessed together. The accesses are recorded as a tracer would see
them.
-/

namespace BenchLx.Memcpy

/-- `sizeof(word_t)`. -/
def wordSize : ℕ := 8

/-- A load or a store of `size` bytes. -/
inductive Access
  | load (addr : BitVec 64) (size : ℕ)
  | store (addr : BitVec 64) (size : ℕ)
deriving DecidableEq, Repr

/-- The memory, the variables of `my_memcpy` and the accesses so far. The pointers `ddest` and
`dsrc` to words hold the same addresses as `bdest` and `bsrc`. -/
structure State where
  mem : Mem 64
  bdest : BitVec 64
  bsrc : BitVec 64
  len : BitVec 64
  accesses : List Access

/-- The assignment of `size` bytes at `bsrc + off` to `bdest + off`. -/
def State.assign (s : State) (off : BitVec 64) (size : ℕ) : State :=
  { s with
    mem := s.mem.copyBlock (s.bdest + off) (s.bsrc + off) size
    accesses := s.accesses ++ [.load (s.bsrc + off) size, .store (s.bdest + off) size] }

/-- Move both pointers on by `n` bytes, of which so many less are left. -/
def State.advance (s : State) (n : BitVec 64) : State :=
  { s with bdest := s.bdest + n, bsrc := s.bsrc + n, len := s.len - n }

/-- `while(len > 0 && (uintptr_t)(bdest) % sizeof(word_t))`: bytes up to a word boundary. -/
def alignLoop (s : State) : State :=
  if 0 < s.len ∧ s.bdest % 8 ≠ 0 then alignLoop ((s.assign 0 1).advance 1) else s
termination_by s.len.toNat
decreasing_by
  simp only [State.assign, State.advance]
  bv_omega

/-- The body of the unrolled loop: eight words. -/
def copyWords (s : State) : State :=
  let s := s.assign 0 wordSize
  let s := s.assign 8 wordSize
  let s := s.assign 16 wordSize
  let s := s.assign 24 wordSize
  let s := s.assign 32 wordSize
  let s := s.assign 40 wordSize
  let s := s.assign 48 wordSize
  let s := s.assign 56 wordSize
  s.advance 64

/-- `while(len >= sizeof(word_t) * 8)`. -/
def unrolledLoop (s : State) : State :=
  if 64 ≤ s.len then unrolledLoop (copyWords s) else s
termination_by s.len.toNat
decreasing_by
  simp only [copyWords, State.assign, State.advance]
  bv_omega

/-- `while(len >= sizeof(word_t))`. -/
def wordLoop (s : State) : State :=
  if 8 ≤ s.len then wordLoop ((s.assign 0 wordSize).advance 8) else s
termination_by s.len.toNat
decreasing_by
  simp only [State.assign, State.advance]
  bv_omega

/-- `while(len-- > 0)`. The last test takes `len` below zero. -/
def byteLoop (s : State) : State :=
  if 0 < s.len then byteLoop ((s.assign 0 1).advance 1) else { s with len := s.len - 1 }
termination_by s.len.toNat
decreasing_by
  simp only [State.assign, State.advance]
  bv_omega

/-- `my_memcpy`: the value returned and the state at the end. -/
def myMemcpy (mem : Mem 64) (dest src len : BitVec 64) : BitVec 64 × State :=
  let s : State := { mem, bdest := dest, bsrc := src, len, accesses := [] }
  -- are both aligned equally?
  let dalign := s.bdest % 8
  let salign := s.bsrc % 8
  let s := if dalign = salign then wordLoop (unrolledLoop (alignLoop s)) else s
  (dest, byteLoop s)

/-! ## Rules for the loops -/

section Rules

variable {P : State → Prop} {s : State}

/-- The body of the unrolled loop assigns word after word and then moves the pointers: what each
assignment takes from its offset to the next one goes from 0 to 64. -/
theorem copyWords_induct {Q : ℕ → State → Prop}
    (hword : ∀ i s, Q (wordSize * i) s →
      Q (wordSize * i + wordSize) (s.assign (BitVec.ofNat 64 (wordSize * i)) wordSize))
    (hs : Q 0 s) : ∃ s', Q 64 s' ∧ copyWords s = s'.advance 64 :=
  ⟨_, hword 7 _ (hword 6 _ (hword 5 _ (hword 4 _ (hword 3 _ (hword 2 _ (hword 1 _
    (hword 0 _ hs))))))), rfl⟩

/-- What a round of the alignment loop keeps, the loop keeps, and then no byte is left or `bdest` is
at a word. -/
theorem alignLoop_induct (hround : ∀ s : State, 0 < s.len → P s → P ((s.assign 0 1).advance 1))
    (hs : P s) : P (alignLoop s) ∧ (0 < (alignLoop s).len → (alignLoop s).bdest % 8 = 0) := by
  induction s using alignLoop.induct with
  | case1 s hcond ih =>
    rw [alignLoop, if_pos hcond]
    exact ih (hround s hcond.1 hs)
  | case2 s hcond =>
    rw [alignLoop, if_neg hcond]
    exact ⟨hs, fun hlen => by_contra fun hne => hcond ⟨hlen, hne⟩⟩

theorem unrolledLoop_induct (hround : ∀ s : State, 64 ≤ s.len → P s → P (copyWords s))
    (hs : P s) : P (unrolledLoop s) := by
  induction s using unrolledLoop.induct with
  | case1 s hcond ih =>
    rw [unrolledLoop, if_pos hcond]
    exact ih (hround s hcond hs)
  | case2 s hcond =>
    rw [unrolledLoop, if_neg hcond]
    exact hs

theorem wordLoop_induct
    (hround : ∀ s : State, 8 ≤ s.len → P s → P ((s.assign 0 wordSize).advance 8))
    (hs : P s) : P (wordLoop s) := by
  induction s using wordLoop.induct with
  | case1 s hcond ih =>
    rw [wordLoop, if_pos hcond]
    exact ih (hround s hcond hs)
  | case2 s hcond =>
    rw [wordLoop, if_neg hcond]
    exact hs

/-- The last loop ends with the test that takes `len` from 0 to below. -/
theorem byteLoop_induct (hround : ∀ s : State, 0 < s.len → P s → P ((s.assign 0 1).advance 1))
    (hs : P s) : ∃ s', P s' ∧ s'.len = 0 ∧ byteLoop s = { s' with len := s'.len - 1 } := by
  induction s using byteLoop.induct with
  | case1 s hcond ih =>
    rw [byteLoop, if_pos hcond]
    exact ih (hround s hcond hs)
  | case2 s hcond =>
    rw [byteLoop, if_neg hcond]
    refine ⟨s, hs, ?_, rfl⟩
    by_contra hne
    exact hcond ((BitVec.pos_iff_ne_zero _).mpr hne)

/-- An address at a word. -/
theorem umod_eight_iff {a : BitVec 64} : a % 8 = 0 ↔ a.toNat % 8 = 0 := by
  rw [← BitVec.toNat_inj, BitVec.toNat_umod]
  rfl

theorem add_umod_eight {a n : BitVec 64} (ha : a % 8 = 0) (hn : n % 8 = 0) :
    (a + n) % 8 = 0 := by
  rw [umod_eight_iff] at ha hn ⊢
  rw [BitVec.toNat_add]
  omega

/-- **The loops together.** What every round keeps holds when the last loop ends, with nothing left
to copy. The loops over words are entered with equal alignments only, and at a word as long as
something is left. -/
theorem myMemcpy_induct {mem : Mem 64} {dest src len : BitVec 64}
    (hstart : P ⟨mem, dest, src, len, []⟩)
    (hbyte : ∀ s : State, 0 < s.len → P s → P ((s.assign 0 1).advance 1))
    (hwords : dest % 8 = src % 8 → ∀ s : State, 64 ≤ s.len → s.bdest % 8 = 0 → P s →
      P (copyWords s))
    (hword : dest % 8 = src % 8 → ∀ s : State, 8 ≤ s.len → s.bdest % 8 = 0 → P s →
      P ((s.assign 0 wordSize).advance 8)) :
    ∃ s', P s' ∧ s'.len = 0 ∧ (myMemcpy mem dest src len).2 = { s' with len := s'.len - 1 } := by
  unfold myMemcpy
  simp only
  split
  · next haligned =>
    obtain ⟨hstart, hend⟩ := alignLoop_induct hbyte hstart
    have hwordsLoop := unrolledLoop_induct
      (P := fun s => P s ∧ (0 < s.len → s.bdest % 8 = 0)) ?_ ⟨hstart, hend⟩
    · have hwordLoop := wordLoop_induct
        (P := fun s => P s ∧ (0 < s.len → s.bdest % 8 = 0)) ?_ hwordsLoop
      · exact byteLoop_induct hbyte hwordLoop.1
      · intro s hlen hs
        have hat : s.bdest % 8 = 0 := hs.2 (by bv_omega)
        exact ⟨hword haligned s hlen hat hs.1, fun _ => add_umod_eight hat rfl⟩
    · intro s hlen hs
      have hat : s.bdest % 8 = 0 := hs.2 (by bv_omega)
      exact ⟨hwords haligned s hlen hat hs.1, fun _ => add_umod_eight hat rfl⟩
  · exact byteLoop_induct hbyte hstart

end Rules

end BenchLx.Memcpy
