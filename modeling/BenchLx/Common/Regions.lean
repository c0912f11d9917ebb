import Mathlib.Tactic

/-!
# Regions of a memory

A memory maps addresses to values. A region is given by its first address and the values that it
holds; storing into one region leaves those alone that do not meet it
(`holds_overwrite_of_disjoint`).
-/

namespace BenchLx.Region

variable {α : Type*}

/-- The values `xs` stand at the addresses from `addr` on. -/
def Holds (m : ℕ → α) (addr : ℕ) (xs : List α) : Prop :=
  ∀ i, (hi : i < xs.length) → m (addr + i) = xs[i]

/-- Store the values `xs` at the addresses from `addr` on. -/
def overwrite (m : ℕ → α) (addr : ℕ) (xs : List α) : ℕ → α := fun i =>
  if h : addr ≤ i ∧ i - addr < xs.length then xs[i - addr] else m i

variable (m : ℕ → α) {addr : ℕ} {xs : List α}

theorem overwrite_of_lt {i : ℕ} (hi : i < addr) : overwrite m addr xs i = m i :=
  dif_neg fun h => absurd h.1 (Nat.not_le_of_lt hi)

theorem overwrite_of_le {i : ℕ} (hi : addr + xs.length ≤ i) : overwrite m addr xs i = m i :=
  dif_neg fun h => by omega

/-- What has been stored stands there. -/
theorem holds_overwrite (addr : ℕ) (xs : List α) : Holds (overwrite m addr xs) addr xs := by
  intro i hi
  rw [overwrite, dif_pos ⟨Nat.le_add_right _ _, by rwa [Nat.add_sub_cancel_left]⟩]
  simp only [Nat.add_sub_cancel_left]

/-- A store beside a region leaves it alone. -/
theorem holds_overwrite_of_disjoint {addr' : ℕ} {ys : List α}
    (h : addr + xs.length ≤ addr' ∨ addr' + ys.length ≤ addr) :
    Holds (overwrite m addr xs) addr' ys ↔ Holds m addr' ys := by
  refine forall₂_congr fun i hi => ?_
  rcases h with hbelow | habove
  · rw [overwrite_of_le m (by omega)]
  · rw [overwrite_of_lt m (by omega)]

end BenchLx.Region
