import Mathlib.Tactic

/-!
# Accounts of time

Every key has an account. It is charged at moments in time, each time for the interval since the
last charge to it, so that the charges to an account always add up to the moment it has been charged
up to.
-/

namespace BenchLx

variable {κ : Type*} [DecidableEq κ]

/-- What a key has been charged altogether. -/
def charged (k : κ) (entries : List (κ × ℤ)) : ℤ :=
  ((entries.filter fun e => e.1 = k).map Prod.snd).sum

@[simp] theorem charged_nil (k : κ) : charged k [] = 0 := rfl

theorem charged_append (k : κ) (as bs : List (κ × ℤ)) :
    charged k (as ++ bs) = charged k as + charged k bs := by
  simp only [charged, List.filter_append, List.map_append, List.sum_append]

theorem charged_singleton (k k' : κ) (ticks : ℤ) :
    charged k [(k', ticks)] = if k' = k then ticks else 0 := by
  by_cases h : k' = k
  · simp [charged, h]
  · simp [charged, h]

/-- The charges made so far and the moment that each account has been charged up to. -/
structure Ledger (κ : Type*) [DecidableEq κ] where
  entries : List (κ × ℤ)
  upTo : κ → ℤ
  balanced : ∀ k, charged k entries = upTo k

namespace Ledger

/-- No account has been charged. -/
def empty : Ledger κ where
  entries := []
  upTo := fun _ => 0
  balanced := charged_nil

/-- Charge `k` for the interval up to the moment `t`. -/
def charge (L : Ledger κ) (k : κ) (t : ℤ) : Ledger κ where
  entries := L.entries ++ [(k, t - L.upTo k)]
  upTo := Function.update L.upTo k t
  balanced k' := by
    rw [charged_append, L.balanced, charged_singleton]
    by_cases h : k = k'
    · rw [if_pos h, ← h, Function.update_self]
      ring
    · rw [if_neg h, Function.update_of_ne (Ne.symm h), add_zero]

@[simp] theorem entries_charge (L : Ledger κ) (k : κ) (t : ℤ) :
    (L.charge k t).entries = L.entries ++ [(k, t - L.upTo k)] := rfl

@[simp] theorem upTo_charge_self (L : Ledger κ) (k : κ) (t : ℤ) : (L.charge k t).upTo k = t :=
  Function.update_self ..

theorem upTo_charge_of_ne (L : Ledger κ) {k k' : κ} (h : k' ≠ k) (t : ℤ) :
    (L.charge k t).upTo k' = L.upTo k' :=
  Function.update_of_ne h ..

end Ledger

end BenchLx
