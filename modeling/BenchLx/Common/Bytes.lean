import Mathlib.Data.List.Lex
import Mathlib.Tactic

/-!
# Byte strings and their order

Byte strings are lists of `UInt8`. Their order is the lexicographic one, which on unsigned bytes is
the order of `memcmp` with a shorter string before its extensions.
-/

namespace BenchLx

/-- A string of bytes. -/
abbrev Bytes := List UInt8

instance linearOrderUInt8 : LinearOrder UInt8 where
  le_refl a := UInt8.le_refl a
  le_trans _ _ _ := UInt8.le_trans
  lt_iff_le_not_ge a b := by
    simp only [UInt8.le_iff_toNat_le, UInt8.lt_iff_toNat_lt]
    omega
  le_antisymm _ _ := UInt8.le_antisymm
  le_total := UInt8.le_total
  toDecidableLE := inferInstance
  toDecidableEq := inferInstance
  toDecidableLT := inferInstance

/-! ## Lexicographic order and prefixes -/

section Lex

variable {α : Type*} [LinearOrder α]

/-- The lists that start with `p` are convex in the lexicographic order: whatever lies between two
of them starts with `p` too. -/
theorem prefix_of_between {p a b c : List α} (hab : p ++ a < b) (hbc : b < p ++ c) : p <+: b := by
  induction p generalizing b with
  | nil => exact List.nil_prefix
  | cons x p ih =>
    cases b with
    | nil => simp at hab
    | cons y b =>
      rw [List.cons_append, List.cons_lt_cons_iff] at hab hbc
      rcases hab with hxy | ⟨rfl, hab⟩
      · rcases hbc with hyx | ⟨rfl, -⟩
        · exact absurd (hxy.trans hyx) (lt_irrefl _)
        · exact absurd hxy (lt_irrefl _)
      · rcases hbc with hxx | ⟨-, hbc⟩
        · exact absurd hxx (lt_irrefl _)
        · exact (List.prefix_cons_inj x).mpr (ih hab hbc)

end Lex

end BenchLx
