import Mathlib.Tactic
import Mathlib.Algebra.BigOperators.Ring.Finset

/-!
# Components that share a resource

A system has a component for every index and one resource that all of them use. In a step one
component moves and may change the resource. A measure of the components is added up over all of
them, and a step changes the sum by what it changes at the component that moves.
-/

namespace BenchLx

/-- The states of the components, and the resource. -/
structure Components (ι σ ρ : Type*) where
  part : ι → σ
  resource : ρ

namespace Components

variable {ι σ ρ : Type*}

section Put

variable [DecidableEq ι]

/-- The system after component `j` has moved. -/
def put (s : Components ι σ ρ) (j : ι) (a : σ) (r : ρ) : Components ι σ ρ :=
  { part := Function.update s.part j a, resource := r }

@[simp] theorem resource_put (s : Components ι σ ρ) (j : ι) (a : σ) (r : ρ) :
    (s.put j a r).resource = r := rfl

@[simp] theorem part_put_self (s : Components ι σ ρ) (j : ι) (a : σ) (r : ρ) :
    (s.put j a r).part j = a :=
  Function.update_self ..

theorem part_put_of_ne (s : Components ι σ ρ) {j k : ι} (h : k ≠ j) (a : σ) (r : ρ) :
    (s.put j a r).part k = s.part k :=
  Function.update_of_ne h ..

/-- What holds of the other components and of the new state holds of all components after the
step. -/
theorem forall_part_put {P : ι → σ → Prop} {s : Components ι σ ρ} (hs : ∀ k, P k (s.part k))
    {j : ι} {a : σ} (ha : P j a) (r : ρ) (k : ι) : P k ((s.put j a r).part k) := by
  by_cases h : k = j
  · subst h
    rwa [part_put_self]
  · rw [part_put_of_ne s h]
    exact hs k

end Put

section Total

variable [Fintype ι]

/-- A measure added up over the components. -/
def total (f : σ → ℕ) (s : Components ι σ ρ) : ℕ :=
  ∑ k, f (s.part k)

/-- A step changes the sum by what it changes at the component that moves. -/
theorem total_put [DecidableEq ι] (f : σ → ℕ) (s : Components ι σ ρ) (j : ι) (a : σ) (r : ρ) :
    (s.put j a r).total f + f (s.part j) = s.total f + f a := by
  have hrest : ∑ k ∈ Finset.univ.erase j, f ((s.put j a r).part k)
      = ∑ k ∈ Finset.univ.erase j, f (s.part k) :=
    Finset.sum_congr rfl fun k hk => by rw [part_put_of_ne s (Finset.ne_of_mem_erase hk)]
  rw [total, total, ← Finset.add_sum_erase _ _ (Finset.mem_univ j), part_put_self, hrest,
    ← Finset.add_sum_erase _ (fun k => f (s.part k)) (Finset.mem_univ j)]
  omega

theorem total_add (f g : σ → ℕ) (s : Components ι σ ρ) :
    s.total (fun a => f a + g a) = s.total f + s.total g :=
  Finset.sum_add_distrib

end Total

/-! ## Runs -/

section Runs

variable [DecidableEq ι] (step : ι → σ → ρ → σ → ρ → Prop)

/-- Some component moves. -/
def Step (s s' : Components ι σ ρ) : Prop :=
  ∃ j a r, step j (s.part j) s.resource a r ∧ s' = s.put j a r

/-- The states that an interleaving can lead to in `n` steps. -/
inductive After (start : Components ι σ ρ) : ℕ → Components ι σ ρ → Prop
  | zero : After start 0 start
  | succ {n : ℕ} {s s' : Components ι σ ρ} (hs : After start n s) (hstep : Step step s s') :
      After start (n + 1) s'

variable {step}

/-- **Invariants of interleavings.** What holds at the start and is kept by every component's step
holds after any number of steps. -/
theorem After.invariant {start : Components ι σ ρ} {P : ℕ → Components ι σ ρ → Prop}
    (hzero : P 0 start)
    (hsucc : ∀ n s j a r, P n s → step j (s.part j) s.resource a r → P (n + 1) (s.put j a r))
    {n : ℕ} {s : Components ι σ ρ} (hs : After step start n s) : P n s := by
  induction hs with
  | zero => exact hzero
  | succ _ hstep ih =>
    obtain ⟨j, a, r, hmove, rfl⟩ := hstep
    exact hsucc _ _ j a r ih hmove

end Runs

end Components

end BenchLx
