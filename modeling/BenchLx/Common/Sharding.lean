import Mathlib.Tactic
import BenchLx.Common.SortedMap

/-!
# Machines that split by key

A machine takes events and answers each. It splits by key when an event only looks at and changes
the view of its own key. Then what happens to a key does not depend on the events of other keys:
the machine behaves as one machine for each key, and the events of different keys may be reordered.
-/

namespace BenchLx

namespace Machine

variable {σ ε ρ κ π : Type*} (step : σ → ε → σ × ρ)

/-- The state after a list of events. -/
def after (s : σ) (es : List ε) : σ :=
  es.foldl (fun s e => (step s e).1) s

/-- The events with their answers, in order. -/
def answers : σ → List ε → List (ε × ρ)
  | _, [] => []
  | s, e :: es => (e, (step s e).2) :: answers (step s e).1 es

@[simp] theorem after_nil (s : σ) : after step s [] = s := rfl

@[simp] theorem after_cons (s : σ) (e : ε) (es : List ε) :
    after step s (e :: es) = after step (step s e).1 es := rfl

@[simp] theorem answers_nil (s : σ) : answers step s [] = [] := rfl

@[simp] theorem answers_cons (s : σ) (e : ε) (es : List ε) :
    answers step s (e :: es) = (e, (step s e).2) :: answers step (step s e).1 es := rfl

variable [DecidableEq κ]

/-- Among the events in `dom`, an event leaves the views of other keys alone, and what it does to
the view of its own key and what it answers depends on that view only. -/
structure SplitsBy (key : ε → κ) (view : κ → σ → π) (dom : ε → Prop) : Prop where
  frame : ∀ {s e k}, dom e → key e ≠ k → view k (step s e).1 = view k s
  view_eq : ∀ {s s' e}, dom e → view (key e) s = view (key e) s' →
    view (key e) (step s e).1 = view (key e) (step s' e).1
  answer_eq : ∀ {s s' e}, dom e → view (key e) s = view (key e) s' →
    (step s e).2 = (step s' e).2

variable {step} {key : ε → κ} {view : κ → σ → π} {dom : ε → Prop}

/-- **A key and its events.** What a list of events does to the view of a key, and what it answers
for that key, is what the events of the key do and answer alone. -/
theorem SplitsBy.filter (h : SplitsBy step key view dom) {es : List ε} (hes : ∀ e ∈ es, dom e)
    {k : κ} {s s' : σ} (hs : view k s = view k s') :
    view k (after step s es) = view k (after step s' (es.filter fun e => key e = k)) ∧
      (answers step s es).filter (fun a => key a.1 = k)
        = answers step s' (es.filter fun e => key e = k) := by
  induction es generalizing s s' with
  | nil => exact ⟨hs, rfl⟩
  | cons e es ih =>
    have he := hes e (by simp)
    have hes' : ∀ e' ∈ es, dom e' := fun e' he' => hes e' (by simp [he'])
    by_cases hk : key e = k
    · subst hk
      obtain ⟨hview, hanswers⟩ := ih hes' (h.view_eq he hs)
      rw [List.filter_cons_of_pos (by simp), after_cons, after_cons, answers_cons, answers_cons,
        List.filter_cons_of_pos (by simp), h.answer_eq he hs, hanswers]
      exact ⟨hview, rfl⟩
    · obtain ⟨hview, hanswers⟩ := ih hes' ((h.frame he hk).trans hs)
      rw [List.filter_cons_of_neg (by simpa using hk), after_cons, answers_cons,
        List.filter_cons_of_neg (by simpa using hk)]
      exact ⟨hview, hanswers⟩

/-- **Reordering.** Two lists with the same events in the same order for every key do the same to
every view and give the same answers for every key. -/
theorem SplitsBy.reorder (h : SplitsBy step key view dom) {es es' : List ε}
    (hes : ∀ e ∈ es, dom e) (hes' : ∀ e ∈ es', dom e) (k : κ)
    (hsame : (es.filter fun e => key e = k) = es'.filter fun e => key e = k) (s : σ) :
    view k (after step s es) = view k (after step s es') ∧
      (answers step s es).filter (fun a => key a.1 = k)
        = (answers step s es').filter (fun a => key a.1 = k) := by
  obtain ⟨hview, hanswers⟩ := h.filter hes (rfl : view k s = view k s)
  obtain ⟨hview', hanswers'⟩ := h.filter hes' (rfl : view k s = view k s)
  rw [hview, hview', hanswers, hanswers', hsame]
  exact ⟨rfl, rfl⟩

end Machine

/-! ## Parts of a map -/

namespace SortedMap

variable {K V C : Type*} [LinearOrder K]

/-- The entries whose keys are selected. -/
def restrict (m : SortedMap K V) (p : K → Bool) : SortedMap K V :=
  ⟨m.entries.filter fun e => p e.1, m.sorted.filter _⟩

/-- A map is known by what it returns. -/
theorem ext_get {m m' : SortedMap K V} (h : ∀ k, m.get k = m'.get k) : m = m' := by
  have hirrefl : Std.Irrefl fun a b : K × V => a.1 < b.1 := ⟨fun a => lt_irrefl a.1⟩
  have hentries : m.entries = m'.entries := by
    refine m.sorted.eq_of_mem_iff m'.sorted fun e => ?_
    rw [mem_entries_iff, mem_entries_iff, h]
  cases m
  cases m'
  cases hentries
  rfl

/-- Putting the same entries again changes nothing. -/
theorem putAll_putAll_self (m : SortedMap K V) (ws : List (K × V)) :
    (m.putAll ws).putAll ws = m.putAll ws := by
  classical
  refine ext_get fun k => ?_
  rw [get_putAll, get_putAll, ← Option.or_assoc, Option.or_self]

theorem get_restrict (m : SortedMap K V) (p : K → Bool) (k : K) :
    (m.restrict p).get k = if p k then m.get k else none := by
  rw [get, restrict, List.find?_filter]
  by_cases hk : p k = true
  · rw [if_pos hk, get]
    congr 2
    funext e
    by_cases he : e.1 = k
    · simp [he, hk]
    · simp [he]
  · rw [if_neg hk, Option.map_eq_none_iff, List.find?_eq_none]
    rintro e - he
    simp only [Bool.decide_and, Bool.decide_eq_true, Bool.and_eq_true, decide_eq_true_eq] at he
    exact hk (he.2 ▸ he.1)

/-- What is put under a selected key is put into the part, the rest does not touch it. -/
theorem restrict_put (m : SortedMap K V) (p : K → Bool) (k : K) (v : V) :
    (m.put k v).restrict p = if p k then (m.restrict p).put k v else m.restrict p := by
  refine ext_get fun k' => ?_
  by_cases hk : p k = true
  · rw [if_pos hk, get_restrict, get_put, get_put, get_restrict]
    by_cases heq : k' = k
    · simp [heq, hk]
    · simp [heq]
  · rw [if_neg hk, get_restrict, get_put, get_restrict]
    by_cases heq : k' = k
    · simp [heq, hk]
    · simp [heq]

theorem restrict_putAll_of_forall (m : SortedMap K V) {p : K → Bool} {ws : List (K × V)}
    (hws : ∀ w ∈ ws, p w.1 = true) : (m.putAll ws).restrict p = (m.restrict p).putAll ws := by
  induction ws generalizing m with
  | nil => rfl
  | cons w ws ih =>
    have hput := m.restrict_put p w.1 w.2
    rw [if_pos (hws w (by simp))] at hput
    calc ((m.put w.1 w.2).putAll ws).restrict p
        = ((m.put w.1 w.2).restrict p).putAll ws := ih _ fun w' hw' => hws w' (by simp [hw'])
      _ = ((m.restrict p).put w.1 w.2).putAll ws := by rw [hput]

theorem restrict_putAll_of_forall_not (m : SortedMap K V) {p : K → Bool} {ws : List (K × V)}
    (hws : ∀ w ∈ ws, p w.1 = false) : (m.putAll ws).restrict p = m.restrict p := by
  induction ws generalizing m with
  | nil => rfl
  | cons w ws ih =>
    have hput := m.restrict_put p w.1 w.2
    rw [hws w (by simp), if_neg Bool.false_ne_true] at hput
    exact (ih _ fun w' hw' => hws w' (by simp [hw'])).trans hput

/-- Maps that agree on every class of keys are equal. -/
theorem eq_of_restrict_eq [DecidableEq C] {m m' : SortedMap K V} (c : K → C)
    (h : ∀ x, m.restrict (fun k => c k = x) = m'.restrict fun k => c k = x) : m = m' := by
  refine ext_get fun k => ?_
  have hk := congrArg (fun m => m.get k) (h (c k))
  simpa only [get_restrict, decide_true, if_true] using hk

end SortedMap

end BenchLx
