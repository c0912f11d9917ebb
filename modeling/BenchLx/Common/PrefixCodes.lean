import Mathlib.Tactic

/-!
# Streams of code words

A code gives every value a word so that no word is the start of another one. The words of a list
one after the other are a stream. A stream that has arrived up to some point says which values it
starts with: one stream is the start of another exactly when its values are the first ones of the
other's.
-/

namespace BenchLx

/-- A code: no word is empty or the start of the word of another value. -/
structure PrefixCode (α β : Type*) where
  encode : α → List β
  ne_nil : ∀ a, encode a ≠ []
  eq_of_isPrefix : ∀ {a b}, encode a <+: encode b → a = b

namespace PrefixCode

variable {α β : Type*} (C : PrefixCode α β)

/-- The words of a list one after the other. -/
def stream (as : List α) : List β :=
  as.flatMap C.encode

@[simp] theorem stream_nil : C.stream [] = [] := rfl

@[simp] theorem stream_cons (a : α) (as : List α) :
    C.stream (a :: as) = C.encode a ++ C.stream as := rfl

theorem stream_append (as bs : List α) : C.stream (as ++ bs) = C.stream as ++ C.stream bs :=
  List.flatMap_append

/-- The first word of a stream says which value it is. -/
theorem eq_of_append_eq {a b : α} {s t : List β} (h : C.encode a ++ s = C.encode b ++ t) :
    a = b ∧ s = t := by
  have hab : a = b := by
    rcases List.prefix_or_prefix_of_prefix (List.prefix_append (C.encode a) s)
      (h ▸ List.prefix_append (C.encode b) t) with hle | hle
    · exact C.eq_of_isPrefix hle
    · exact (C.eq_of_isPrefix hle).symm
  subst hab
  exact ⟨rfl, List.append_cancel_left h⟩

/-- **Starts of streams** are the streams of the first values. -/
theorem stream_isPrefix_iff {as bs : List α} : C.stream as <+: C.stream bs ↔ as <+: bs := by
  constructor
  · intro h
    induction as generalizing bs with
    | nil => exact List.nil_prefix
    | cons a as ih =>
      obtain ⟨t, ht⟩ := h
      rw [stream_cons, List.append_assoc] at ht
      cases bs with
      | nil => exact absurd (List.append_eq_nil_iff.mp ht).1 (C.ne_nil a)
      | cons b bs =>
        obtain ⟨rfl, hrest⟩ := C.eq_of_append_eq ht
        exact List.cons_prefix_cons.mpr ⟨rfl, ih ⟨t, hrest⟩⟩
  · rintro ⟨cs, rfl⟩
    rw [stream_append]
    exact List.prefix_append _ _

theorem stream_injective : Function.Injective C.stream := by
  intro as bs h
  have hle : C.stream as <+: C.stream bs := h ▸ List.prefix_refl _
  have hge : C.stream bs <+: C.stream as := h ▸ List.prefix_refl _
  exact (C.stream_isPrefix_iff.mp hle).eq_of_length_le (C.stream_isPrefix_iff.mp hge).length_le

end PrefixCode

end BenchLx
