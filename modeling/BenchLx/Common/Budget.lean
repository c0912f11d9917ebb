import Mathlib.Tactic

/-!
# Taking from a list under a budget

A loop walks over a list, takes the elements that are selected and stops when a budget is used up.
It carries a mark of the element before; whether taking an element costs one unit depends on that
mark and the element. An element that costs the last unit is still taken.
-/

namespace BenchLx.Budget

variable {α κ : Type*} (sel : α → Bool) (charges : κ → α → Bool) (mark : α → κ)

/-- The elements taken with `rem` units left, after an element with mark `last`. -/
def take : List α → ℕ → κ → List α
  | [], _, _ => []
  | a :: as, rem, last =>
    if rem = 0 then []
    else if sel a then a :: take as (if charges last a then rem - 1 else rem) (mark a)
    else take as rem (mark a)

/-- The units that taking all selected elements costs. -/
def cost : List α → κ → ℕ
  | [], _ => 0
  | a :: as, last => (if sel a && charges last a then 1 else 0) + cost as (mark a)

/-- The mark after a list. -/
def lastMark (as : List α) (last : κ) : κ :=
  as.foldl (fun _ a => mark a) last

@[simp] theorem take_zero (as : List α) (last : κ) : take sel charges mark as 0 last = [] := by
  cases as <;> rfl

@[simp] theorem lastMark_cons (a : α) (as : List α) (last : κ) :
    lastMark mark (a :: as) last = lastMark mark as (mark a) := rfl

/-- What is taken are the first ones of the selected elements. -/
theorem take_isPrefix (as : List α) (rem : ℕ) (last : κ) :
    take sel charges mark as rem last <+: as.filter sel := by
  induction as generalizing rem last with
  | nil => exact List.prefix_refl _
  | cons a as ih =>
    rw [take]
    by_cases hrem : rem = 0
    · rw [if_pos hrem]
      exact List.nil_prefix
    · rw [if_neg hrem]
      by_cases hsel : sel a
      · rw [if_pos hsel, List.filter_cons_of_pos hsel]
        exact (List.prefix_cons_inj a).mpr (ih _ _)
      · rw [if_neg hsel, List.filter_cons_of_neg hsel]
        exact ih _ _

/-- The first selected element is always taken. -/
theorem head?_take (as : List α) {rem : ℕ} (last : κ) (hrem : rem ≠ 0) :
    (take sel charges mark as rem last).head? = (as.filter sel).head? := by
  induction as generalizing last with
  | nil => rfl
  | cons a as ih =>
    rw [take, if_neg hrem]
    by_cases hsel : sel a
    · rw [if_pos hsel, List.filter_cons_of_pos hsel, List.head?_cons, List.head?_cons]
    · rw [if_neg hsel, List.filter_cons_of_neg hsel]
      exact ih (mark a)

/-- As long as the budget lasts, every selected element is taken. -/
theorem take_append (as bs : List α) {rem : ℕ} {last : κ}
    (h : cost sel charges mark as last < rem) :
    take sel charges mark (as ++ bs) rem last
      = as.filter sel ++ take sel charges mark bs (rem - cost sel charges mark as last)
          (lastMark mark as last) := by
  induction as generalizing rem last with
  | nil => simp [cost, lastMark]
  | cons a as ih =>
    rw [cost] at h
    rw [List.cons_append, take, if_neg (by omega), cost, lastMark_cons]
    by_cases hsel : sel a
    · by_cases hcost : charges last a
      · simp only [hsel, hcost, Bool.and_true, if_true] at h ⊢
        rw [ih (by omega), List.filter_cons_of_pos hsel, List.cons_append, Nat.sub_sub]
      · simp only [hsel, hcost, Bool.and_false, if_true, if_false, Nat.zero_add,
          Bool.false_eq_true] at h ⊢
        rw [ih h, List.filter_cons_of_pos hsel, List.cons_append]
    · simp only [hsel, Bool.false_and, if_false, Nat.zero_add, Bool.false_eq_true] at h ⊢
      rw [ih h, List.filter_cons_of_neg hsel]

/-- A budget that is not used up takes every selected element. -/
theorem take_of_cost_lt {as : List α} {rem : ℕ} {last : κ}
    (h : cost sel charges mark as last < rem) :
    take sel charges mark as rem last = as.filter sel := by
  have happ := take_append sel charges mark as [] h
  rw [List.append_nil] at happ
  rw [happ, take, List.append_nil]

theorem cost_append (as bs : List α) (last : κ) :
    cost sel charges mark (as ++ bs) last
      = cost sel charges mark as last + cost sel charges mark bs (lastMark mark as last) := by
  induction as generalizing last with
  | nil => simp [cost, lastMark]
  | cons a as ih => rw [List.cons_append, cost, cost, ih, lastMark_cons, Nat.add_assoc]

/-- A list of which nothing is selected costs nothing. -/
theorem cost_of_none_selected {as : List α} (h : ∀ a ∈ as, sel a = false) (last : κ) :
    cost sel charges mark as last = 0 := by
  induction as generalizing last with
  | nil => rfl
  | cons a as ih =>
    rw [cost, h a List.mem_cons_self, ih fun b hb => h b (List.mem_cons_of_mem a hb)]
    rfl

/-- The element that costs the last unit is the last one taken. -/
theorem take_of_cost_eq {as bs : List α} {a : α} {rem : ℕ} {last : κ}
    (h : cost sel charges mark as last + 1 = rem) (hsel : sel a = true)
    (hcost : charges (lastMark mark as last) a = true) :
    take sel charges mark (as ++ a :: bs) rem last = as.filter sel ++ [a] := by
  have hone : rem - cost sel charges mark as last = 1 := by omega
  rw [take_append sel charges mark as (a :: bs) (by omega), hone, take]
  simp [hsel, hcost]

/-- A list is split in front of its first element or behind it. -/
theorem exists_split_cons {P : List α → α → List α → Prop} {x : α} {xs : List α} :
    (∃ pre a post, x :: xs = pre ++ a :: post ∧ P pre a post) ↔
      P [] x xs ∨ ∃ pre a post, xs = pre ++ a :: post ∧ P (x :: pre) a post := by
  constructor
  · rintro ⟨_ | ⟨y, pre⟩, a, post, hsplit, h⟩
    · obtain ⟨rfl, rfl⟩ := List.cons.inj hsplit
      exact .inl h
    · obtain ⟨rfl, rfl⟩ := List.cons.inj hsplit
      exact .inr ⟨pre, a, post, rfl, h⟩
  · rintro (h | ⟨pre, a, post, rfl, h⟩)
    · exact ⟨[], x, xs, rfl, h⟩
    · exact ⟨x :: pre, a, post, rfl, h⟩

/-- A budget that does not last is used up by one element of the list. -/
theorem exists_of_le_cost {as : List α} {rem : ℕ} {last : κ} (hrem : 0 < rem)
    (h : rem ≤ cost sel charges mark as last) :
    ∃ pre a post, as = pre ++ a :: post ∧ cost sel charges mark pre last + 1 = rem ∧
      sel a = true ∧ charges (lastMark mark pre last) a = true := by
  induction as generalizing rem last with
  | nil =>
    rw [cost] at h
    omega
  | cons b as ih =>
    by_cases hb : (sel b && charges last b) = true
    · obtain ⟨hsel, hcost⟩ := Bool.and_eq_true_iff.mp hb
      by_cases hone : rem = 1
      · exact ⟨[], b, as, rfl, by rw [cost, hone], hsel, hcost⟩
      · rw [cost, if_pos hb] at h
        obtain ⟨pre, a, post, rfl, hrem', ha⟩ := @ih (rem - 1) (mark b) (by omega) (by omega)
        refine ⟨b :: pre, a, post, rfl, ?_, ha⟩
        rw [cost, if_pos hb]
        omega
    · rw [cost, if_neg hb, Nat.zero_add] at h
      obtain ⟨pre, a, post, rfl, hrem', ha⟩ := ih hrem h
      refine ⟨b :: pre, a, post, rfl, ?_, ha⟩
      rw [cost, if_neg hb, Nat.zero_add, hrem']

/-- A walk over `pre ++ post` gets as far as `pre`: to the end with units left, or to the element
that costs the last unit. -/
def Reaches (pre post : List α) (rem : ℕ) (last : κ) : Prop :=
  (post = [] ∧ cost sel charges mark pre last < rem) ∨
  ∃ init a, pre = init ++ [a] ∧ cost sel charges mark init last + 1 = rem ∧ sel a = true ∧
    charges (lastMark mark init last) a = true

theorem exists_reaches (as : List α) {rem : ℕ} (hrem : 0 < rem) (last : κ) :
    ∃ pre post, as = pre ++ post ∧ Reaches sel charges mark pre post rem last := by
  by_cases hcost : cost sel charges mark as last < rem
  · exact ⟨as, [], (List.append_nil as).symm, Or.inl ⟨rfl, hcost⟩⟩
  · obtain ⟨init, a, post, rfl, hlast⟩ :=
      exists_of_le_cost sel charges mark hrem (not_lt.mp hcost)
    exact ⟨init ++ [a], post, by simp, Or.inr ⟨init, a, rfl, hlast⟩⟩

theorem take_of_reaches {pre post : List α} {rem : ℕ} {last : κ}
    (h : Reaches sel charges mark pre post rem last) :
    take sel charges mark (pre ++ post) rem last = pre.filter sel := by
  rcases h with ⟨rfl, hcost⟩ | ⟨init, a, rfl, hcost, hsel, hcharge⟩
  · rw [List.append_nil]
    exact take_of_cost_lt sel charges mark hcost
  · rw [List.append_assoc, List.singleton_append, List.filter_append,
      List.filter_cons_of_pos hsel, List.filter_nil]
    exact take_of_cost_eq sel charges mark hcost hsel hcharge

/-! ## Two budgets, two marks -/

/-- A larger budget takes what a smaller one takes, and goes on. -/
theorem take_mono (as : List α) {rem rem' : ℕ} (hle : rem ≤ rem') (last : κ) :
    take sel charges mark as rem last <+: take sel charges mark as rem' last := by
  induction as generalizing rem rem' last with
  | nil => exact List.prefix_refl _
  | cons a as ih =>
    by_cases hrem : rem = 0
    · rw [hrem, take_zero]
      exact List.nil_prefix
    · have hrem' : ¬ rem' = 0 := by omega
      rw [take, take, if_neg hrem, if_neg hrem']
      by_cases hsel : sel a
      · rw [if_pos hsel, if_pos hsel]
        refine (List.prefix_cons_inj a).mpr (ih ?_ _)
        split <;> omega
      · rw [if_neg hsel, if_neg hsel]
        exact ih hle _

/-- Every selected element is taken exactly when the elements before each of them cost less than
the budget. -/
theorem take_eq_filter_iff {as : List α} {rem : ℕ} {last : κ} :
    take sel charges mark as rem last = as.filter sel ↔
      ∀ before a after, as = before ++ a :: after → sel a = true →
        cost sel charges mark before last < rem := by
  induction as generalizing rem last with
  | nil => simp [take]
  | cons b as ih =>
    by_cases hrem : rem = 0
    · subst hrem
      rw [take_zero]
      constructor
      · intro hnone before a after hsplit hsel
        have hmem : a ∈ (b :: as).filter sel := List.mem_filter.mpr ⟨by simp [hsplit], hsel⟩
        rw [← hnone] at hmem
        cases hmem
      · intro hcost
        refine (List.filter_eq_nil_iff.mpr fun a ha hsel => ?_).symm
        obtain ⟨before, after, hsplit⟩ := List.append_of_mem ha
        exact Nat.not_lt_zero _ (hcost before a after hsplit hsel)
    · -- the budget behind `b`, whether or not `b` is taken and costs a unit
      generalize hcharge : (if sel b && charges last b then 1 else 0) = c
      have hc : c ≤ 1 := by
        rw [← hcharge]
        split <;> omega
      have hstep : take sel charges mark (b :: as) rem last = (b :: as).filter sel ↔
          take sel charges mark as (rem - c) (mark b) = as.filter sel := by
        rw [take, if_neg hrem]
        by_cases hsel : sel b
        · rw [if_pos hsel, List.filter_cons_of_pos hsel, List.cons_inj_right, ← hcharge]
          by_cases hcost : charges last b <;> simp [hsel, hcost]
        · rw [if_neg hsel, List.filter_cons_of_neg hsel, ← hcharge]
          simp [hsel]
      rw [hstep, ih]
      constructor
      · intro hcost before a after hsplit hsel
        cases before with
        | nil =>
          rw [cost]
          omega
        | cons b' before =>
          obtain ⟨rfl, htail⟩ := List.cons.inj hsplit
          have hlt := hcost before a after htail hsel
          rw [cost, hcharge]
          omega
      · intro hcost before a after hsplit hsel
        have hlt := hcost (b :: before) a after (by rw [hsplit, List.cons_append]) hsel
        rw [cost, hcharge] at hlt
        omega

/-- One unit more makes no difference exactly when every selected element is taken without it. -/
theorem take_succ_eq_iff {as : List α} {rem : ℕ} {last : κ} :
    take sel charges mark as (rem + 1) last = take sel charges mark as rem last ↔
      take sel charges mark as rem last = as.filter sel := by
  constructor
  · intro heq
    induction as generalizing rem last with
    | nil => rfl
    | cons a as ih =>
      by_cases hrem : rem = 0
      · subst hrem
        rw [take_zero, take, if_neg (Nat.succ_ne_zero 0)] at heq
        by_cases hsel : sel a
        · rw [if_pos hsel] at heq
          cases heq
        · rw [if_neg hsel] at heq
          have hrest := ih (heq.trans (take_zero sel charges mark as (mark a)).symm)
          rw [take_zero] at hrest ⊢
          rw [List.filter_cons_of_neg hsel]
          exact hrest
      · rw [take, take, if_neg hrem, if_neg (Nat.succ_ne_zero rem)] at heq
        rw [take, if_neg hrem]
        by_cases hsel : sel a
        · rw [if_pos hsel, if_pos hsel] at heq
          rw [if_pos hsel, List.filter_cons_of_pos hsel]
          have htail := (List.cons.inj heq).2
          congr 1
          by_cases hcost : charges last a
          · rw [if_pos hcost, if_pos hcost, Nat.add_sub_cancel] at htail
            rw [if_pos hcost]
            obtain ⟨n, rfl⟩ := Nat.exists_eq_succ_of_ne_zero hrem
            exact ih htail
          · rw [if_neg hcost, if_neg hcost] at htail
            rw [if_neg hcost]
            exact ih htail
        · rw [if_neg hsel, if_neg hsel] at heq
          rw [if_neg hsel, List.filter_cons_of_neg hsel]
          exact ih heq
  · intro hall
    have hmono := take_mono sel charges mark as (Nat.le_succ rem) last
    have hbound := take_isPrefix sel charges mark as (rem + 1) last
    rw [hall] at hmono ⊢
    exact hbound.eq_of_length_le hmono.length_le

end BenchLx.Budget
