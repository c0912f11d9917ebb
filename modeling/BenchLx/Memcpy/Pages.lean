import BenchLx.Memcpy.Accesses

/-!
# The memcpy benchmark

Reference: `main` in `apps/memcpy/memcpy.c`. It copies the pages of one allocation, one after the
other, into the page of another one, and does so three times. So the run loads from the first one
only and stores to the second one only, and leaves the last page there (`main_copies`).
-/

namespace BenchLx.Memcpy

/-- `size` and `REPEAT`. -/
def pageSize : ℕ := 4096
def pageCount : ℕ := 256

/-- The memory and the accesses so far. -/
structure Traffic where
  mem : Mem 64
  accesses : List Access

/-- `my_memcpy(in, out + i * size, size);`, for the allocations at `dest` and `out`. -/
def Traffic.copyPage (dest out : BitVec 64) (t : Traffic) (i : ℕ) : Traffic :=
  let s := (myMemcpy t.mem dest (out + BitVec.ofNat 64 (i * pageSize)) (BitVec.ofNat 64 pageSize)).2
  ⟨s.mem, t.accesses ++ s.accesses⟩

/-- The copies of `main`. -/
def main (mem : Mem 64) (dest out : BitVec 64) : Traffic :=
  (List.range 3).foldl
    (fun t _ => (List.range pageCount).foldl (Traffic.copyPage dest out) t) ⟨mem, []⟩

/-! ## The copies -/

/-- Addresses of two ranges that are apart. -/
theorem add_ofNat_ne {a b : BitVec 64} {i j : ℕ} (ha : a.toNat + i < 2 ^ 64)
    (hb : b.toNat + j < 2 ^ 64) (h : a.toNat + i ≠ b.toNat + j) :
    a + BitVec.ofNat 64 i ≠ b + BitVec.ofNat 64 j := by
  intro heq
  have hnat := congrArg BitVec.toNat heq
  rw [toNat_add_ofNat ha, toNat_add_ofNat hb] at hnat
  exact h hnat

/-- The two allocations, which the address space has room for. -/
structure Allocated (dest out : BitVec 64) : Prop where
  dest_le : dest.toNat + pageSize ≤ 2 ^ 64
  out_le : out.toNat + pageCount * pageSize ≤ 2 ^ 64
  disjoint : dest.toNat + pageSize ≤ out.toNat ∨ out.toNat + pageCount * pageSize ≤ dest.toNat

/-- After `n` copies of pages, with memory `m` before. -/
structure Copies (m : Mem 64) (dest out : BitVec 64) (n : ℕ) (t : Traffic) : Prop where
  unchanged : ∀ x, (∀ j < pageSize, x ≠ dest + BitVec.ofNat 64 j) → t.mem x = m x
  loads : ∀ a size, .load a size ∈ t.accesses → Access.Aligned a size ∧
    Access.Inside out (BitVec.ofNat 64 (pageCount * pageSize)) a size
  stores : ∀ a size, .store a size ∈ t.accesses → Access.Aligned a size ∧
    Access.Inside dest (BitVec.ofNat 64 pageSize) a size
  countP_stores : ∀ x, dest.toNat ≤ x → x < dest.toNat + pageSize →
    t.accesses.countP (Access.stores x) = n

/-- The page at `dest` is page `i` of those at `out`. -/
def HoldsPage (m : Mem 64) (dest out : BitVec 64) (i : ℕ) (t : Traffic) : Prop :=
  ∀ j < pageSize, t.mem (dest + BitVec.ofNat 64 j) = m (out + BitVec.ofNat 64 (i * pageSize + j))

section Allocated

variable {m : Mem 64} {dest out : BitVec 64} (h : Allocated dest out)
include h

/-- One copy stores the page, which no copy before has changed. -/
theorem Copies.copyPage {n : ℕ} {t : Traffic} (hc : Copies m dest out n t) {i : ℕ}
    (hi : i < pageCount) : Copies m dest out (n + 1) (t.copyPage dest out i) ∧
      HoldsPage m dest out i (t.copyPage dest out i) := by
  obtain ⟨hdest, hout, hdisj⟩ := h
  have hpos : 0 < pageSize := by decide
  have hlen : (BitVec.ofNat 64 pageSize).toNat = pageSize := rfl
  have htotal : (BitVec.ofNat 64 (pageCount * pageSize)).toNat = pageCount * pageSize := rfl
  have hpage : i * pageSize + pageSize ≤ pageCount * pageSize :=
    (Nat.succ_mul i pageSize).symm.trans_le (Nat.mul_le_mul_right _ hi)
  have hsrc : (out + BitVec.ofNat 64 (i * pageSize)).toNat = out.toNat + i * pageSize :=
    toNat_add_ofNat (by omega)
  -- the page that is copied
  have hload : ∀ j < pageSize, t.mem (out + BitVec.ofNat 64 (i * pageSize + j))
      = m (out + BitVec.ofNat 64 (i * pageSize + j)) := by
    refine fun j hj => hc.unchanged _ fun k hk => ?_
    exact add_ofNat_ne (by omega) (by omega) (by omega)
  obtain ⟨s, ht, -, hend⟩ := exists_traced t.mem dest (out + BitVec.ofNat 64 (i * pageSize))
    (BitVec.ofNat 64 pageSize)
  have hmoves := ht.moves
  rw [hlen, Nat.add_zero] at hmoves
  have hinside : ∀ x ∈ s.accesses, x.Within dest (out + BitVec.ofNat 64 (i * pageSize))
      (BitVec.ofNat 64 pageSize) :=
    fun x hx => hmoves.inside hlen.ge hdest (by omega) hx
  have hmem : s.mem
      = t.mem.copyBlock dest (out + BitVec.ofNat 64 (i * pageSize)) pageSize := by
    rw [ht.mem_eq, hlen, Nat.add_zero]
    -- what is stored is not loaded again, as the allocations are apart
    refine Mem.copyForward_eq_copyBlock _ (by decide) fun j k hjk hk => ?_
    exact add_ofNat_ne (by omega) (by omega) (by omega)
  rw [Traffic.copyPage, hend]
  refine ⟨⟨fun x hx => ?_, fun a size ha => ?_, fun a size ha => ?_, fun x hx hx' => ?_⟩,
    fun j hj => ?_⟩
  · show s.mem x = m x
    rw [hmem, Mem.copyBlock_apply, if_neg fun hlt => ?_, hc.unchanged x hx]
    exact hx _ hlt ((Mem.eq_add_ofNat_iff (lt_trans hlt (by decide)) dest x).mpr rfl)
  · rcases List.mem_append.mp ha with ha | ha
    · exact hc.loads a size ha
    · obtain ⟨haligned, hstart, hend⟩ : Access.Aligned a size ∧ Access.Inside
          (out + BitVec.ofNat 64 (i * pageSize)) (BitVec.ofNat 64 pageSize) a size :=
        hinside _ ha
      exact ⟨haligned, by omega, by omega⟩
  · rcases List.mem_append.mp ha with ha | ha
    · exact hc.stores a size ha
    · exact hinside _ ha
  · show (t.accesses ++ s.accesses).countP (Access.stores x) = n + 1
    rw [List.countP_append, hc.countP_stores x hx hx', hmoves.countP_stores hdest,
      if_pos ⟨hx, hx'⟩]
  · show s.mem (dest + BitVec.ofNat 64 j) = m (out + BitVec.ofNat 64 (i * pageSize + j))
    have hoff := (Mem.eq_add_ofNat_iff (lt_trans hj (by decide)) dest _).mp rfl
    rw [hmem, Mem.copyBlock_apply, hoff, if_pos hj, BitVec.add_comm dest, BitVec.add_sub_cancel,
      BitVec.add_assoc, ← BitVec.ofNat_add, hload j hj]

/-- After the copies of some pages the last one is there. -/
theorem Copies.foldl {n : ℕ} {t : Traffic} (hc : Copies m dest out n t) {is : List ℕ} {last : ℕ}
    (his : ∀ i ∈ is ++ [last], i < pageCount) :
    Copies m dest out (n + (is ++ [last]).length)
        ((is ++ [last]).foldl (Traffic.copyPage dest out) t) ∧
      HoldsPage m dest out last ((is ++ [last]).foldl (Traffic.copyPage dest out) t) := by
  induction is generalizing n t with
  | nil => exact hc.copyPage h (his last (by simp))
  | cons i is ih =>
    obtain ⟨hnext, -⟩ := hc.copyPage h (his i (by simp))
    have hrest := ih hnext fun j hj => his j (List.mem_cons_of_mem i hj)
    rw [List.cons_append, List.length_cons, List.foldl_cons, ← Nat.add_assoc, Nat.add_right_comm]
    exact hrest

end Allocated

/-- **The memcpy benchmark.** For any memory and two allocations that do not overlap, of one page
and of 256 pages: every load of the run lies within the second one and every store within the first
one, each of a byte or of a word at an address divisible by 8; each byte of the first one is stored
768 times; in the end it holds the last page of the second one; and nothing else has changed. -/
theorem main_copies (m : Mem 64) (dest out : BitVec 64) (h : Allocated dest out) :
    Copies m dest out 768 (main m dest out) ∧
      HoldsPage m dest out (pageCount - 1) (main m dest out) := by
  have hstart : Copies m dest out 0 ⟨m, []⟩ := by
    refine ⟨fun _ _ => rfl, fun _ _ ha => ?_, fun _ _ ha => ?_, fun _ _ _ => rfl⟩ <;> cases ha
  have hmain : main m dest out = (List.range pageCount).foldl (Traffic.copyPage dest out)
      ((List.range pageCount).foldl (Traffic.copyPage dest out)
        ((List.range pageCount).foldl (Traffic.copyPage dest out) ⟨m, []⟩)) := by
    rw [main, show List.range 3 = [0, 1, 2] from rfl]
    simp only [List.foldl_cons, List.foldl_nil]
  have hrange : List.range pageCount = List.range 255 ++ [255] := List.range_succ
  have hlt : ∀ i ∈ List.range 255 ++ [255], i < pageCount := fun i hi =>
    List.mem_range.mp (hrange ▸ hi)
  obtain ⟨h1, -⟩ := hstart.foldl h hlt
  obtain ⟨h2, -⟩ := h1.foldl h hlt
  obtain ⟨h3, hlast⟩ := h2.foldl h hlt
  simp only [List.length_append, List.length_range, List.length_singleton] at h3
  rw [hmain, hrange]
  exact ⟨h3, hlast⟩

/-- Pages at address 8192 that are filled with their numbers in memory, copied to address 4096. -/
theorem main_copies_last :
    (main (fun x => UInt8.ofNat (x.toNat / 4096)) 4096 8192).mem 4096 = 1 := by
  have hallocated : Allocated 4096 8192 := ⟨by decide, by decide, by decide⟩
  exact (main_copies (fun x => UInt8.ofNat (x.toNat / 4096)) 4096 8192 hallocated).2 0 (by decide)

end BenchLx.Memcpy
