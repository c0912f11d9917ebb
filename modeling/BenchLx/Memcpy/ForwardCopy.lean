import BenchLx.Memcpy.MyMemcpy

/-!
# What `my_memcpy` leaves in memory

`Progress` says that `k` bytes are behind the pointers and `off` more have been assigned, and that
memory is what the plain loop over so many bytes leaves; every round of the loops over bytes keeps
it, and every round of those over words when the two ranges are aligned equally.
-/

namespace BenchLx.Memcpy

/-- `my_memcpy` on `dest`, `src` and `len` has moved its pointers by `k` bytes and assigned `off`
bytes behind them. -/
structure Progress (m : Mem 64) (dest src len : BitVec 64) (k off : ℕ) (s : State) : Prop where
  mem_eq : s.mem = m.copyForward dest src (k + off)
  bdest_eq : s.bdest = dest + BitVec.ofNat 64 k
  bsrc_eq : s.bsrc = src + BitVec.ofNat 64 k
  len_eq : s.len.toNat + k = len.toNat

variable {m : Mem 64} {dest src len : BitVec 64} {k off : ℕ} {s : State}

/-- The next assignment goes on where the plain loop is. -/
theorem Progress.assign {size : ℕ} (hp : Progress m dest src len k off s) (hsize : size ≤ 2 ^ 64)
    (hdvd : size ∣ (dest - src).toNat) {o : BitVec 64} (ho : o = BitVec.ofNat 64 off) :
    Progress m dest src len k (off + size) (s.assign o size) := by
  refine ⟨?_, hp.bdest_eq, hp.bsrc_eq, hp.len_eq⟩
  have haddr : ∀ p : BitVec 64, p + BitVec.ofNat 64 k + o = p + BitVec.ofNat 64 (k + off) := by
    intro p
    rw [ho, BitVec.ofNat_add, BitVec.add_assoc]
  have hdist : dest + BitVec.ofNat 64 (k + off) - (src + BitVec.ofNat 64 (k + off)) = dest - src :=
    by bv_omega
  have hapart : Mem.NotOverwritten (dest + BitVec.ofNat 64 (k + off))
      (src + BitVec.ofNat 64 (k + off)) size := by
    apply Mem.notOverwritten_of_dvd hsize
    rwa [hdist]
  show s.mem.copyBlock (s.bdest + o) (s.bsrc + o) size = m.copyForward dest src (k + (off + size))
  rw [hp.mem_eq, hp.bdest_eq, hp.bsrc_eq, haddr, haddr, ← Nat.add_assoc,
    Mem.copyForward_add m dest src (k + off) size]
  exact (Mem.copyForward_eq_copyBlock _ hsize hapart).symm

/-- Moving the pointers over what has been assigned. -/
theorem Progress.advance (hp : Progress m dest src len k off s) (hoff : off ≤ s.len.toNat)
    {o : BitVec 64} (ho : o = BitVec.ofNat 64 off) :
    Progress m dest src len (k + off) 0 (s.advance o) := by
  have hlt : off < 2 ^ 64 := lt_of_le_of_lt hoff s.len.isLt
  refine ⟨hp.mem_eq, ?_, ?_, ?_⟩
  · rw [State.advance, hp.bdest_eq, ho, BitVec.ofNat_add, BitVec.add_assoc]
  · rw [State.advance, hp.bsrc_eq, ho, BitVec.ofNat_add, BitVec.add_assoc]
  · have hlen := hp.len_eq
    have hle : o ≤ s.len := by
      rw [BitVec.le_def, ho, BitVec.toNat_ofNat, Nat.mod_eq_of_lt hlt]
      exact hoff
    show (s.len - o).toNat + (k + off) = len.toNat
    rw [BitVec.toNat_sub_of_le hle, ho, BitVec.toNat_ofNat, Nat.mod_eq_of_lt hlt]
    omega

/-- One byte, then the pointers. -/
theorem Progress.copyByte (hp : Progress m dest src len k 0 s) (hlen : 0 < s.len) :
    Progress m dest src len (k + 1) 0 ((s.assign 0 1).advance 1) := by
  have hle : 1 ≤ (s.assign 0 1).len.toNat := BitVec.lt_def.mp hlen
  exact (hp.assign (by decide) (one_dvd _) rfl).advance hle rfl

section Words

variable (hdvd : wordSize ∣ (dest - src).toNat)
include hdvd

theorem Progress.copyWords (hp : Progress m dest src len k 0 s) (hlen : 64 ≤ s.len) :
    Progress m dest src len (k + 64) 0 (Memcpy.copyWords s) := by
  have hassigned := copyWords_induct (Q := fun off s' => Progress m dest src len k off s' ∧
    s'.len = s.len) ?_ ⟨hp, rfl⟩
  · obtain ⟨s', ⟨hp', hlen'⟩, heq⟩ := hassigned
    rw [heq]
    exact hp'.advance (by rw [hlen']; exact BitVec.le_def.mp hlen) rfl
  · intro i s' ⟨hp', hlen'⟩
    exact ⟨hp'.assign (by decide) hdvd rfl, hlen'⟩

theorem Progress.copyWord (hp : Progress m dest src len k 0 s) (hlen : 8 ≤ s.len) :
    Progress m dest src len (k + 8) 0 ((s.assign 0 wordSize).advance 8) := by
  have hle : wordSize ≤ (s.assign 0 wordSize).len.toNat := BitVec.le_def.mp hlen
  have hword := hp.assign (by decide) hdvd (o := 0) rfl
  rw [Nat.zero_add] at hword
  exact hword.advance hle rfl

end Words

/-- With nothing left all bytes are behind the pointers. -/
theorem Progress.eq_length (hp : Progress m dest src len k 0 s) (hlen : s.len = 0) :
    k = len.toNat := by
  have hadd := hp.len_eq
  have hzero : s.len.toNat = 0 := congrArg BitVec.toNat hlen
  omega

/-- Equal alignment puts the ranges at a distance of whole words. -/
theorem wordSize_dvd_of_aligned (h : dest % 8 = src % 8) : wordSize ∣ (dest - src).toNat := by
  have hmod := congrArg BitVec.toNat h
  rw [BitVec.toNat_umod, BitVec.toNat_umod] at hmod
  rw [BitVec.toNat_sub, Nat.dvd_iff_mod_eq_zero]
  have hd := dest.isLt
  have hs := src.isLt
  simp only [wordSize, BitVec.reduceToNat] at hmod ⊢
  omega

/-- **`my_memcpy` is the plain loop.** For every memory, all addresses and every length, whatever
the overlap of the two ranges, `my_memcpy` returns `dest` and leaves what copying byte by byte in
ascending order leaves. When the ranges do not overlap, the destination range holds the old bytes of
the source range and every other byte is unchanged. -/
theorem myMemcpy_eq_copyForward (m : Mem 64) (dest src len : BitVec 64) :
    (myMemcpy m dest src len).1 = dest ∧
    (myMemcpy m dest src len).2.mem = m.copyForward dest src len.toNat ∧
    ((∀ i < len.toNat, ∀ j < len.toNat, dest + BitVec.ofNat 64 i ≠ src + BitVec.ofNat 64 j) →
      (∀ i < len.toNat, (myMemcpy m dest src len).2.mem (dest + BitVec.ofNat 64 i)
        = m (src + BitVec.ofNat 64 i)) ∧
      ∀ x, (∀ i < len.toNat, x ≠ dest + BitVec.ofNat 64 i) →
        (myMemcpy m dest src len).2.mem x = m x) := by
  have hmem : (myMemcpy m dest src len).2.mem = m.copyForward dest src len.toNat := by
    have hstart : Progress m dest src len 0 0 ⟨m, dest, src, len, []⟩ :=
      ⟨rfl, by simp, by simp, rfl⟩
    obtain ⟨s, ⟨k, hp⟩, hzero, hend⟩ :=
      myMemcpy_induct (P := fun s => ∃ k, Progress m dest src len k 0 s) ⟨0, hstart⟩
        (fun s hlen ⟨k, hp⟩ => ⟨k + 1, hp.copyByte hlen⟩)
        (fun haligned s hlen _ ⟨k, hp⟩ =>
          ⟨k + 64, hp.copyWords (wordSize_dvd_of_aligned haligned) hlen⟩)
        (fun haligned s hlen _ ⟨k, hp⟩ =>
          ⟨k + 8, hp.copyWord (wordSize_dvd_of_aligned haligned) hlen⟩)
    rw [hend, ← hp.eq_length hzero]
    exact hp.mem_eq
  refine ⟨rfl, hmem, fun hapart => ?_⟩
  have hblock : m.copyForward dest src len.toNat = m.copyBlock dest src len.toNat :=
    Mem.copyForward_eq_copyBlock m len.isLt.le fun i j hij hj => hapart i (by omega) j hj
  rw [hmem, hblock]
  refine ⟨fun i hi => ?_, fun x hx => ?_⟩
  · have hlt : i < 2 ^ 64 := lt_trans hi len.isLt
    have hoff := (Mem.eq_add_ofNat_iff hlt dest _).mp rfl
    rw [Mem.copyBlock_apply, hoff, if_pos hi, BitVec.add_comm dest, BitVec.add_sub_cancel]
  · rw [Mem.copyBlock_apply, if_neg fun hlt => ?_]
    exact hx _ hlt ((Mem.eq_add_ofNat_iff (lt_trans hlt len.isLt) dest x).mpr rfl)

/-- Eleven bytes from address 8 to address 32, over a memory that holds its own addresses. -/
theorem myMemcpy_eq_copyForward_apart :
    (myMemcpy (fun x => UInt8.ofNat x.toNat) 32 8 11).2.mem 42 = 18 ∧
      (myMemcpy (fun x => UInt8.ofNat x.toNat) 32 8 11).2.mem 43 = 43 := by
  obtain ⟨-, -, h⟩ := myMemcpy_eq_copyForward (fun x => UInt8.ofNat x.toNat) 32 8 11
  have hlen : (11 : BitVec 64).toNat = 11 := rfl
  rw [hlen] at h
  obtain ⟨hcopied, hother⟩ := h (by decide)
  exact ⟨hcopied 10 (by decide), hother 43 (by decide)⟩

end BenchLx.Memcpy
