import BenchLx.Common.Bytes
import Mathlib.Data.List.GetD

/-!
# Memory objects, pointers and calls that do not return

A call either returns or stops for one of the reasons of `Stop`. A pointer is what can be read
through it: the byte at each offset, or a fault where the object has no such byte. Running a
function over a pointer that has been cut off at some offset says which bytes it inspects.
-/

namespace BenchLx

/-- Why a call does not return: it waits inside a system call, it touches memory outside of an
object, or it throws `std::out_of_range` or `std::invalid_argument`. -/
inductive Stop
  | blocked
  | fault
  | outOfRange
  | invalidArgument
deriving DecidableEq, Repr

section Except

variable {ε : Type*} {α β : Type}

@[simp] theorem ok_bind (a : α) (f : α → Except ε β) : (Except.ok a >>= f) = f a := rfl

@[simp] theorem error_bind (e : ε) (f : α → Except ε β) :
    ((Except.error e : Except ε α) >>= f) = .error e := rfl

theorem pure_eq_ok {a b : α} : (pure a : Except ε α) = .ok b ↔ a = b := by
  simp [pure, Except.pure]

/-- A sequence of two calls returns when both do. -/
theorem bind_eq_ok {x : Except ε α} {f : α → Except ε β} {b : β} :
    (x >>= f) = .ok b ↔ ∃ a, x = .ok a ∧ f a = .ok b := by
  cases x <;> simp

/-- What a call returns is known from a function of it. -/
theorem map_eq_ok {x : Except ε α} {f : α → β} {b : β} :
    x.map f = .ok b ↔ ∃ a, x = .ok a ∧ f a = b := by
  cases x <;> simp [Except.map]

end Except

/-! ## Pointers -/

/-- What can be read through a pointer: the byte at an offset, or a fault. -/
abbrev Ptr := ℕ → Except Stop UInt8

namespace Ptr

/-- A pointer to the first of the bytes `s`. -/
def ofBytes (s : Bytes) : Ptr := fun i =>
  match s[i]? with
  | some b => .ok b
  | none => .error .fault

/-- Pointer arithmetic: the pointer `n` bytes further on. -/
def add (p : Ptr) (n : ℕ) : Ptr := fun i => p (n + i)

/-- The pointer with everything from offset `n` on taken away. -/
def restrict (p : Ptr) (n : ℕ) : Ptr := fun i => if i < n then p i else .error .fault

/-- The `n` bytes from offset `pos` on. -/
def read (p : Ptr) : ℕ → ℕ → Except Stop Bytes
  | _, 0 => .ok []
  | pos, n + 1 => do
    let b ← p pos
    let bs ← read p (pos + 1) n
    return b :: bs

/-- The bytes `bs` stand at offset `pos`. -/
def Holds (p : Ptr) : ℕ → Bytes → Prop
  | _, [] => True
  | pos, b :: bs => p pos = .ok b ∧ Holds p (pos + 1) bs

/-- Every byte below offset `n` can be read. -/
def Covers (p : Ptr) (n : ℕ) : Prop := ∀ i < n, ∃ b, p i = .ok b

variable {p : Ptr}

@[simp] theorem holds_nil (pos : ℕ) : p.Holds pos [] := trivial

@[simp] theorem holds_cons {pos : ℕ} {b : UInt8} {bs : Bytes} :
    p.Holds pos (b :: bs) ↔ p pos = .ok b ∧ p.Holds (pos + 1) bs := Iff.rfl

theorem holds_append {pos : ℕ} {as bs : Bytes} :
    p.Holds pos (as ++ bs) ↔ p.Holds pos as ∧ p.Holds (pos + as.length) bs := by
  induction as generalizing pos with
  | nil => simp
  | cons a as ih =>
    rw [List.cons_append, holds_cons, holds_cons, ih, List.length_cons, and_assoc]
    rw [show pos + 1 + as.length = pos + (as.length + 1) by omega]

theorem holds_iff {pos : ℕ} {bs : Bytes} :
    p.Holds pos bs ↔ ∀ i, (h : i < bs.length) → p (pos + i) = .ok bs[i] := by
  induction bs generalizing pos with
  | nil => simp
  | cons b bs ih =>
    rw [holds_cons, ih]
    constructor
    · rintro ⟨hb, hbs⟩ i hi
      cases i with
      | zero => exact hb
      | succ i =>
        have h := hbs i (by simpa using hi)
        rwa [show pos + 1 + i = pos + (i + 1) by omega] at h
    · intro h
      refine ⟨h 0 (by simp), fun i hi => ?_⟩
      have h' := h (i + 1) (by simpa using hi)
      rwa [show pos + (i + 1) = pos + 1 + i by omega] at h'

@[simp] theorem holds_add {n pos : ℕ} {bs : Bytes} :
    (p.add n).Holds pos bs ↔ p.Holds (n + pos) bs := by
  simp only [holds_iff, add, Nat.add_assoc]

/-- A read returns exactly the bytes that stand there. -/
theorem read_eq_ok_iff {pos n : ℕ} {bs : Bytes} :
    p.read pos n = .ok bs ↔ bs.length = n ∧ p.Holds pos bs := by
  induction n generalizing pos bs with
  | zero =>
    constructor
    · rintro ⟨⟩
      exact ⟨rfl, trivial⟩
    · rintro ⟨hlen, -⟩
      rw [List.length_eq_zero_iff.mp hlen]
      rfl
  | succ n ih =>
    simp only [read, bind_eq_ok, ih, pure_eq_ok]
    constructor
    · rintro ⟨b, hb, bs, ⟨hlen, hbs⟩, rfl⟩
      exact ⟨by simp [hlen], hb, hbs⟩
    · rintro ⟨hlen, hbs⟩
      cases bs with
      | nil => simp at hlen
      | cons b bs => exact ⟨b, hbs.1, bs, ⟨by simpa using hlen, hbs.2⟩, rfl⟩

/-- Two strings of one length that stand at one place are the same. -/
theorem Holds.unique {pos : ℕ} {as bs : Bytes} (ha : p.Holds pos as) (hb : p.Holds pos bs)
    (hlen : as.length = bs.length) : as = bs := by
  have h := read_eq_ok_iff.mpr ⟨hlen, ha⟩
  rw [read_eq_ok_iff.mpr ⟨rfl, hb⟩] at h
  exact (Except.ok.inj h).symm

/-- Of two strings that stand at one place the shorter one starts the longer one. -/
theorem Holds.isPrefix {pos : ℕ} {as bs : Bytes} (ha : p.Holds pos as) (hb : p.Holds pos bs)
    (hle : as.length ≤ bs.length) : as <+: bs := by
  refine List.prefix_iff_eq_take.mpr (ha.unique ?_ (by simpa using hle))
  rw [← List.take_append_drop as.length bs, holds_append] at hb
  exact hb.1

theorem Holds.of_isPrefix {pos : ℕ} {as bs : Bytes} (hb : p.Holds pos bs) (h : as <+: bs) :
    p.Holds pos as := by
  obtain ⟨t, rfl⟩ := h
  exact (holds_append.mp hb).1

theorem Holds.drop {pos n : ℕ} {bs : Bytes} (h : p.Holds pos bs) (hn : n ≤ bs.length) :
    p.Holds (pos + n) (bs.drop n) := by
  rw [← List.take_append_drop n bs, holds_append, List.length_take, Nat.min_eq_left hn] at h
  exact h.2

theorem Covers.read {n : ℕ} (h : p.Covers n) (pos len : ℕ) (hle : pos + len ≤ n) :
    ∃ bs, bs.length = len ∧ p.Holds pos bs := by
  induction len generalizing pos with
  | zero => exact ⟨[], rfl, trivial⟩
  | succ len ih =>
    obtain ⟨b, hb⟩ := h pos (by omega)
    obtain ⟨bs, hlen, hbs⟩ := ih (pos + 1) (by omega)
    exact ⟨b :: bs, by simp [hlen], hb, hbs⟩

theorem Covers.of_holds {bs : Bytes} (h : p.Holds 0 bs) : p.Covers bs.length := fun i hi =>
  ⟨bs[i], by simpa using holds_iff.mp h i hi⟩

theorem restrict_eq_ok_iff {n i : ℕ} {b : UInt8} :
    p.restrict n i = .ok b ↔ i < n ∧ p i = .ok b := by
  rw [restrict]
  split <;> simp_all

theorem holds_restrict_iff {n pos : ℕ} {bs : Bytes} (hbs : bs ≠ []) :
    (p.restrict n).Holds pos bs ↔ pos + bs.length ≤ n ∧ p.Holds pos bs := by
  simp only [holds_iff, restrict_eq_ok_iff]
  constructor
  · intro h
    have hlast := (h (bs.length - 1) (by have := List.length_pos_of_ne_nil hbs; omega)).1
    exact ⟨by omega, fun i hi => (h i hi).2⟩
  · exact fun ⟨hle, h⟩ i hi => ⟨by omega, h i hi⟩

theorem ofBytes_eq_ok_iff {s : Bytes} {i : ℕ} {b : UInt8} :
    ofBytes s i = .ok b ↔ s[i]? = some b := by
  rw [ofBytes]
  split <;> simp_all

theorem covers_ofBytes (s : Bytes) : (ofBytes s).Covers s.length := fun i hi =>
  ⟨s[i], by simp [ofBytes_eq_ok_iff, hi]⟩

/-- The bytes that stand at the start of a string are its prefixes. -/
theorem holds_ofBytes_iff {s bs : Bytes} : (ofBytes s).Holds 0 bs ↔ bs <+: s := by
  simp only [holds_iff, ofBytes_eq_ok_iff, Nat.zero_add]
  constructor
  · intro h
    refine List.prefix_iff_getElem?.mpr fun i hi => ?_
    rw [h i hi]
  · rintro ⟨t, rfl⟩ i hi
    rw [List.getElem?_append_left hi, List.getElem?_eq_getElem hi]

end Ptr

/-! ## Buffers -/

/-- A memory object of `size` bytes. -/
@[ext] structure Buffer (size : ℕ) where
  byte : ℕ → UInt8

namespace Buffer

variable {size : ℕ}

/-- The zeroed object. -/
def zero : Buffer size := ⟨fun _ => 0⟩

/-- The pointer to the byte at `base`. -/
def ptr (b : Buffer size) (base : ℕ) : Ptr := fun i =>
  if base + i < size then .ok (b.byte (base + i)) else .error .fault

/-- Store `bs` from offset `off` on; a store of no bytes touches nothing. -/
def store (b : Buffer size) (off : ℕ) (bs : Bytes) : Except Stop (Buffer size) :=
  if bs = [] ∨ off + bs.length ≤ size then
    .ok ⟨fun j => if off ≤ j ∧ j < off + bs.length then bs.getD (j - off) 0 else b.byte j⟩
  else .error .fault

/-- The first `n` bytes. -/
def take (b : Buffer size) (n : ℕ) : Bytes :=
  (List.range n).map b.byte

@[simp] theorem length_take (b : Buffer size) (n : ℕ) : (b.take n).length = n := by simp [take]

theorem ptr_eq_ok_iff {b : Buffer size} {base i : ℕ} {c : UInt8} :
    b.ptr base i = .ok c ↔ base + i < size ∧ b.byte (base + i) = c := by
  rw [ptr]
  split <;> simp_all

theorem ptr_eq_add (b : Buffer size) (base : ℕ) : b.ptr base = (b.ptr 0).add base := by
  funext i
  simp only [ptr, Ptr.add, Nat.zero_add]

theorem holds_ptr_iff {b : Buffer size} {base : ℕ} {bs : Bytes} :
    (b.ptr base).Holds 0 bs ↔ (b.ptr 0).Holds base bs := by
  rw [ptr_eq_add, Ptr.holds_add, Nat.add_zero]

theorem covers_ptr {b : Buffer size} {base n : ℕ} (h : base + n ≤ size) :
    (b.ptr base).Covers n := fun i hi =>
  ⟨b.byte (base + i), ptr_eq_ok_iff.mpr ⟨by omega, rfl⟩⟩

theorem holds_take {b : Buffer size} {n : ℕ} (h : n ≤ size) : (b.ptr 0).Holds 0 (b.take n) :=
  Ptr.holds_iff.mpr fun i hi => by
    rw [length_take] at hi
    exact ptr_eq_ok_iff.mpr ⟨by omega, by simp [take]⟩

/-- A store that returns stays inside the object. -/
theorem store_eq_ok_iff {b b' : Buffer size} {off : ℕ} {bs : Bytes} :
    b.store off bs = .ok b' ↔ (bs = [] ∨ off + bs.length ≤ size) ∧
      b' = ⟨fun j => if off ≤ j ∧ j < off + bs.length then bs.getD (j - off) 0 else b.byte j⟩ := by
  rw [store]
  split
  case isTrue hle => simp only [Except.ok.injEq, hle, true_and, eq_comm]
  case isFalse hle => simp only [hle, false_and, reduceCtorEq]

theorem store_nil (b : Buffer size) (off : ℕ) : b.store off [] = .ok b := by
  refine store_eq_ok_iff.mpr ⟨.inl rfl, ?_⟩
  apply Buffer.ext
  funext j
  exact (if_neg (by simp only [List.length_nil]; omega)).symm

/-- Two stores, the second one where the first one ends, are one store. -/
theorem store_append {b b₁ b₂ : Buffer size} {off : ℕ} {bs₁ bs₂ : Bytes}
    (h₁ : b.store off bs₁ = .ok b₁) (h₂ : b₁.store (off + bs₁.length) bs₂ = .ok b₂) :
    b.store off (bs₁ ++ bs₂) = .ok b₂ := by
  obtain ⟨hle₁, rfl⟩ := store_eq_ok_iff.mp h₁
  obtain ⟨hle₂, rfl⟩ := store_eq_ok_iff.mp h₂
  refine store_eq_ok_iff.mpr ⟨?_, ?_⟩
  · by_cases hnil : bs₂ = []
    · rwa [hnil, List.append_nil]
    · rw [List.length_append, ← Nat.add_assoc]
      exact .inr (hle₂.resolve_left hnil)
  congr 1
  funext j
  simp only [List.length_append]
  by_cases hlow : j < off + bs₁.length
  · rw [if_neg (by omega)]
    by_cases hoff : off ≤ j
    · rw [if_pos ⟨hoff, hlow⟩, if_pos ⟨hoff, by omega⟩, List.getD_append _ _ _ _ (by omega)]
    · rw [if_neg (by omega), if_neg (by omega)]
  · by_cases hhigh : j < off + bs₁.length + bs₂.length
    · rw [if_pos ⟨by omega, hhigh⟩, if_pos ⟨by omega, by omega⟩,
        List.getD_append_right _ _ _ _ (by omega), Nat.sub_sub]
    · rw [if_neg (by omega), if_neg (by omega), if_neg (by omega)]

/-- What has been stored at the start stands there; the rest is as before. -/
theorem byte_store {b b' : Buffer size} {bs : Bytes} (h : b.store 0 bs = .ok b') (i : ℕ) :
    b'.byte i = if hi : i < bs.length then bs[i] else b.byte i := by
  obtain ⟨-, rfl⟩ := store_eq_ok_iff.mp h
  by_cases hi : i < bs.length
  · simp [hi]
  · simp [hi]

theorem take_store {b b' : Buffer size} {bs : Bytes} (h : b.store 0 bs = .ok b') {n : ℕ}
    (hn : bs.length = n) : b'.take n = bs := by
  subst hn
  refine List.ext_getElem (length_take _ _) fun i hi hi' => ?_
  simp only [take, List.getElem_map, List.getElem_range]
  rw [byte_store h, dif_pos hi']

theorem holds_store {b b' : Buffer size} {bs : Bytes} (h : b.store 0 bs = .ok b') :
    (b'.ptr 0).Holds 0 bs := by
  by_cases hnil : bs = []
  · rw [hnil]
    exact Ptr.holds_nil 0
  · have hle := (store_eq_ok_iff.mp h).1.resolve_left hnil
    have hheld := holds_take (b := b') (n := bs.length) (by omega)
    rwa [take_store h rfl] at hheld

end Buffer

end BenchLx
