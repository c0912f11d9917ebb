import BenchLx.Exec.ProcessTree

/-!
# The calls of `fork()` in the tree of processes

A call is known by the rounds that lead to it: those in which its process and the ancestors of it
were forked, and then its own. The calls that take place are the ones whose rounds increase and
whose forks have each left a child that `execv()` did not replace; they come in lexicographic order,
because every parent waits for its child (`forkCalls_eq`). There are at least as many as rounds and
fewer than two to the power of them, with equality in the cases that `length_forkCalls` gives.
-/

namespace BenchLx.Exec

/-- The rounds that lead to a call. -/
def ForkCall.rounds (c : ForkCall) : List ℕ := c.process ++ [c.round]

variable {o : Outcomes}

theorem not_replaced_iff {p : Process} {i : ℕ} :
    ¬ Replaced o p i ↔ o.fork p i = true ∧ o.exec (p ++ [i]) = false := by
  rw [Replaced, Classical.not_imp, Bool.not_eq_true]

/-! ## Which calls take place -/

/-- A call in round `j`, by the descendant of `p` that the rounds `s` lead to, is reached by the
loop of `p` from round `i` on. -/
structure Called (o : Outcomes) (runs : ℕ) (p : Process) (i : ℕ) (s : List ℕ) (j : ℕ) : Prop where
  increasing : (s ++ [j]).Pairwise (· < ·)
  from_le : ∀ k ∈ s ++ [j], i ≤ k
  round_lt : j < runs
  goes_on : ∀ q k, q ++ [k] <+: s → ¬ Replaced o (p ++ q) k

theorem Called.own {runs : ℕ} {p : Process} {i j : ℕ} (hi : i ≤ j) (hj : j < runs) :
    Called o runs p i [] j where
  increasing := List.pairwise_singleton _ _
  from_le := by simpa using hi
  round_lt := hj
  goes_on q k h := absurd (List.prefix_nil.mp h) (by simp)

theorem Called.mono {runs : ℕ} {p : Process} {i i' : ℕ} (hi : i ≤ i') {s : List ℕ} {j : ℕ}
    (h : Called o runs p i' s j) : Called o runs p i s j where
  increasing := h.increasing
  from_le k hk := le_trans hi (h.from_le k hk)
  round_lt := h.round_lt
  goes_on := h.goes_on

/-- The calls of a child that goes on are the ones that its first round leads to. -/
theorem called_cons_iff {runs : ℕ} {p : Process} {i k : ℕ} {s : List ℕ} {j : ℕ} :
    Called o runs p i (k :: s) j
      ↔ i ≤ k ∧ ¬ Replaced o p k ∧ Called o runs (p ++ [k]) (k + 1) s j := by
  constructor
  · intro h
    have hinc := List.pairwise_cons.mp h.increasing
    have hgo := h.goes_on [] k (List.prefix_append [k] s)
    rw [List.append_nil] at hgo
    refine ⟨h.from_le k (by simp), hgo, hinc.2, fun l hl => hinc.1 l hl, h.round_lt, ?_⟩
    intro q l hq
    rw [List.append_assoc]
    exact h.goes_on (k :: q) l (List.cons_prefix_cons.mpr ⟨rfl, hq⟩)
  · rintro ⟨hi, hgo, h⟩
    refine ⟨List.pairwise_cons.mpr ⟨fun l hl => h.from_le l hl, h.increasing⟩, ?_, h.round_lt, ?_⟩
    · refine List.forall_mem_cons.mpr ⟨hi, fun l hl => ?_⟩
      exact le_trans hi (le_trans k.le_succ (h.from_le l hl))
    · intro q l hq
      cases q with
      | nil =>
        obtain ⟨rfl, -⟩ := List.cons_prefix_cons.mp hq
        rwa [List.append_nil]
      | cons m q =>
        obtain ⟨rfl, htail⟩ := List.cons_prefix_cons.mp hq
        have hgoes := h.goes_on q l htail
        rwa [List.append_assoc] at hgoes

/-- Each round calls `fork()`. -/
theorem own_mem_loop {left : ℕ} {p : Process} {i j : ℕ} (hi : i ≤ j) (hj : j < i + left) :
    ⟨p, j⟩ ∈ loop o left p i := by
  induction left generalizing i with
  | zero => omega
  | succ left ih =>
    by_cases hij : i = j
    · subst hij
      exact mem_loop_succ left p i
    · exact List.mem_append_right _ (ih (by omega) (by omega))

/-- The calls of a child that goes on are among those of its parent's loop. -/
theorem loop_child_subset {left : ℕ} {p : Process} {i j : ℕ} (hi : i ≤ j) (hj : j < i + left)
    (h : ¬ Replaced o p j) :
    loop o (i + left - (j + 1)) (p ++ [j]) (j + 1) ⊆ loop o left p i := by
  induction left generalizing i with
  | zero => omega
  | succ left ih =>
    by_cases hij : i = j
    · subst hij
      rw [loop_of_not_replaced h, show i + (left + 1) - (i + 1) = left by omega]
      exact fun c hc => List.mem_append_left _ (List.mem_cons_of_mem _ hc)
    · rw [show i + (left + 1) - (j + 1) = i + 1 + left - (j + 1) by omega]
      exact fun c hc => List.mem_append_right _ (ih (by omega) (by omega) hc)

theorem exists_called_of_mem_loop {left : ℕ} {p : Process} {i : ℕ} {c : ForkCall}
    (hc : c ∈ loop o left p i) :
    ∃ s, c.process = p ++ s ∧ Called o (i + left) p i s c.round := by
  induction left generalizing p i with
  | zero => cases hc
  | succ left ih =>
    rw [show i + (left + 1) = i + 1 + left by omega]
    have hown : ∃ s, (⟨p, i⟩ : ForkCall).process = p ++ s ∧ Called o (i + 1 + left) p i s i :=
      ⟨[], (List.append_nil p).symm, Called.own le_rfl (by omega)⟩
    have hlater : c ∈ loop o left p (i + 1) →
        ∃ s, c.process = p ++ s ∧ Called o (i + 1 + left) p i s c.round := by
      intro hc
      obtain ⟨s, hs, hcalled⟩ := ih hc
      exact ⟨s, hs, hcalled.mono i.le_succ⟩
    by_cases h : Replaced o p i
    · rw [loop_of_replaced h] at hc
      rcases List.mem_cons.mp hc with rfl | hc
      · exact hown
      · exact hlater hc
    · rw [loop_of_not_replaced h] at hc
      rcases List.mem_append.mp hc with hc | hc
      · rcases List.mem_cons.mp hc with rfl | hc
        · exact hown
        · -- the child was forked in round `i`
          obtain ⟨s, hs, hcalled⟩ := ih hc
          refine ⟨i :: s, by rw [hs, List.append_assoc]; rfl, ?_⟩
          exact called_cons_iff.mpr ⟨le_rfl, h, hcalled⟩
      · exact hlater hc

theorem mem_loop_of_called {runs : ℕ} {p : Process} {i : ℕ} {s : List ℕ} {j : ℕ} (hi : i ≤ runs)
    (h : Called o runs p i s j) : ⟨p ++ s, j⟩ ∈ loop o (runs - i) p i := by
  induction s generalizing p i with
  | nil =>
    rw [List.append_nil]
    exact own_mem_loop (h.from_le j (by simp)) (by have := h.round_lt; omega)
  | cons k s ih =>
    obtain ⟨hik, hgo, hcalled⟩ := called_cons_iff.mp h
    have hkj : k + 1 ≤ j := hcalled.from_le j (by simp)
    have hj := h.round_lt
    have hmem := ih (by omega) hcalled
    rw [List.append_assoc, List.singleton_append] at hmem
    refine loop_child_subset hik (by omega) hgo ?_
    rwa [show i + (runs - i) = runs by omega]

/-! ## Their order -/

/-- The calls in a loop have rounds behind those that lead to its process. -/
theorem rounds_of_mem_loop {left : ℕ} {p : Process} {i : ℕ} {c : ForkCall}
    (hc : c ∈ loop o left p i) : ∃ k r, c.rounds = p ++ k :: r ∧ i ≤ k := by
  obtain ⟨s, hs, hcalled⟩ := exists_called_of_mem_loop hc
  have hrounds : c.rounds = p ++ (s ++ [c.round]) := by
    rw [ForkCall.rounds, hs, List.append_assoc]
  have hfrom := hcalled.from_le
  cases hr : s ++ [c.round] with
  | nil => simp at hr
  | cons k r =>
    rw [hr] at hrounds hfrom
    exact ⟨k, r, hrounds, hfrom k List.mem_cons_self⟩

/-- A call comes before those of the child and those of later rounds. -/
theorem rounds_lt_of_mem {left : ℕ} {p : Process} {i : ℕ} {c c' : ForkCall} {r : List ℕ}
    (hc : c.rounds = p ++ i :: r) (hc' : c' ∈ loop o left p (i + 1)) : c.rounds < c'.rounds := by
  obtain ⟨k, r', hrounds, hk⟩ := rounds_of_mem_loop hc'
  rw [hc, hrounds]
  exact List.append_left_lt (List.Lex.rel (Nat.lt_of_succ_le hk))

theorem pairwise_loop (left : ℕ) (p : Process) (i : ℕ) :
    (loop o left p i).Pairwise fun c c' => c.rounds < c'.rounds := by
  induction left generalizing p i with
  | zero => exact List.Pairwise.nil
  | succ left ih =>
    have hlater := ih p (i + 1)
    have hown : ∀ c' ∈ loop o left p (i + 1), (⟨p, i⟩ : ForkCall).rounds < c'.rounds :=
      fun c' hc' => rounds_lt_of_mem rfl hc'
    by_cases h : Replaced o p i
    · rw [loop_of_replaced h]
      exact List.pairwise_cons.mpr ⟨hown, hlater⟩
    · rw [loop_of_not_replaced h]
      refine List.pairwise_append.mpr
        ⟨List.pairwise_cons.mpr ⟨fun c' hc' => ?_, ih (p ++ [i]) (i + 1)⟩, hlater, ?_⟩
      · -- the rounds of the child's calls go on where those of its parent's call end
        obtain ⟨k, r, hrounds, -⟩ := rounds_of_mem_loop hc'
        rw [hrounds, List.append_assoc]
        exact List.append_left_lt (List.Lex.cons List.Lex.nil)
      · intro c hc c' hc'
        rcases List.mem_cons.mp hc with rfl | hc
        · exact hown c' hc'
        · obtain ⟨k, r, hrounds, -⟩ := rounds_of_mem_loop hc
          rw [List.append_assoc] at hrounds
          exact rounds_lt_of_mem hrounds hc'

/-- **The tree of processes.** For every number of runs and any outcomes of the system calls: a
call of `fork()` takes place exactly when the rounds that lead to it increase, none is behind the
last one, and each fork behind its process has made a child that `execv()` did not replace. No call
takes place twice, and they come in the lexicographic order of their rounds. -/
theorem forkCalls_eq (o : Outcomes) (runs : ℕ) :
    (∀ c, c ∈ forkCalls o runs ↔ c.rounds.Pairwise (· < ·) ∧ c.round < runs ∧
        ∀ q k, q ++ [k] <+: c.process → o.fork q k = true ∧ o.exec (q ++ [k]) = false) ∧
      (forkCalls o runs).Pairwise fun c c' => c.rounds < c'.rounds := by
  refine ⟨fun c => ⟨fun hc => ?_, ?_⟩, pairwise_loop runs [] 0⟩
  · obtain ⟨s, hs, hcalled⟩ := exists_called_of_mem_loop hc
    rw [List.nil_append] at hs
    subst hs
    refine ⟨hcalled.increasing, by simpa using hcalled.round_lt, fun q k hq => ?_⟩
    exact not_replaced_iff.mp (hcalled.goes_on q k hq)
  · rintro ⟨hinc, hround, hgo⟩
    exact mem_loop_of_called (p := []) (Nat.zero_le runs)
      ⟨hinc, fun _ _ => Nat.zero_le _, hround, fun q k hq => not_replaced_iff.mpr (hgo q k hq)⟩

/-! ## How many there are -/

theorem le_length_loop (left : ℕ) (p : Process) (i : ℕ) : left ≤ (loop o left p i).length := by
  induction left generalizing p i with
  | zero => exact Nat.zero_le _
  | succ left ih =>
    have hlater := ih p (i + 1)
    simp only [loop, List.cons_append, List.length_cons, List.length_append]
    omega

theorem length_loop_lt (left : ℕ) (p : Process) (i : ℕ) :
    (loop o left p i).length < 2 ^ left := by
  induction left generalizing p i with
  | zero => exact Nat.one_pos
  | succ left ih =>
    have hlater := ih p (i + 1)
    have hchild := ih (p ++ [i]) (i + 1)
    by_cases h : Replaced o p i
    · rw [loop_of_replaced h, List.length_cons]
      omega
    · rw [loop_of_not_replaced h, List.length_append, List.length_cons]
      omega

/-- As few calls as rounds are made exactly when the children before the last round are replaced. -/
theorem length_loop_eq_iff (left : ℕ) (p : Process) (i : ℕ) :
    (loop o left p i).length = left ↔ ∀ j, i ≤ j → j + 1 < i + left → Replaced o p j := by
  constructor
  · intro hlen
    induction left generalizing i with
    | zero => intro j hj hlt; omega
    | succ left ih =>
      have hlater := le_length_loop (o := o) left p (i + 1)
      have hreplaced : 0 < left → Replaced o p i := by
        intro hleft
        by_contra h
        have hchild := le_length_loop (o := o) left (p ++ [i]) (i + 1)
        rw [loop_of_not_replaced h, List.length_append, List.length_cons] at hlen
        omega
      have hrest : (loop o left p (i + 1)).length = left := by
        simp only [loop, List.cons_append, List.length_cons, List.length_append] at hlen
        omega
      intro j hj hlt
      by_cases hij : i = j
      · subst hij
        exact hreplaced (by omega)
      · exact ih (i + 1) hrest j (by omega) (by omega)
  · intro h
    rw [loop_eq_map h, List.length_map, List.length_range']

/-- All that there can be are made exactly when no child before the last round is replaced. -/
theorem length_loop_add_one_eq_iff (left : ℕ) (p : Process) (i : ℕ) :
    (loop o left p i).length + 1 = 2 ^ left
      ↔ ∀ c ∈ loop o left p i, c.round + 1 < i + left → ¬ Replaced o c.process c.round := by
  induction left generalizing p i with
  | zero => exact iff_of_true rfl fun c hc => by cases hc
  | succ left ih =>
    have hlater := length_loop_lt (o := o) left p (i + 1)
    have hchild := length_loop_lt (o := o) left (p ++ [i]) (i + 1)
    have hbound : i + (left + 1) = i + 1 + left := by omega
    by_cases h : Replaced o p i
    · rw [loop_of_replaced h, List.length_cons, List.forall_mem_cons, pow_succ]
      -- only in the last round a child that is replaced is as good as one that is not
      cases left with
      | zero =>
        refine iff_of_true rfl ⟨fun hlt => absurd hlt (Nat.lt_irrefl _), fun c hc => ?_⟩
        cases hc
      | succ left =>
        have hpow : 2 ^ 1 ≤ 2 ^ (left + 1) := Nat.pow_le_pow_right Nat.two_pos (by omega)
        have hbefore : i + 1 < i + (left + 1 + 1) := by omega
        exact iff_of_false (by omega) fun hall => hall.1 hbefore h
    · rw [loop_of_not_replaced h, List.length_append, List.length_cons, pow_succ, hbound,
        List.forall_mem_append, List.forall_mem_cons, ← ih (p ++ [i]) (i + 1), ← ih p (i + 1)]
      constructor
      · intro hlen
        exact ⟨⟨fun _ => h, by omega⟩, by omega⟩
      · rintro ⟨⟨-, hc⟩, hl⟩
        omega

/-- **The number of calls.** There are at least as many calls of `fork()` as runs, exactly as many
when `execv()` replaces each child that the original process has forked before the last round. There
are fewer than two to the power of the runs, exactly one less when each call before the last round
makes a child that `execv()` does not replace. -/
theorem length_forkCalls (o : Outcomes) (runs : ℕ) :
    runs ≤ (forkCalls o runs).length ∧ (forkCalls o runs).length < 2 ^ runs ∧
      ((forkCalls o runs).length = runs
        ↔ ∀ i, i + 1 < runs → o.fork [] i = true → o.exec [i] = true) ∧
      ((forkCalls o runs).length + 1 = 2 ^ runs
        ↔ ∀ c ∈ forkCalls o runs, c.round + 1 < runs →
            o.fork c.process c.round = true ∧ o.exec c.rounds = false) := by
  refine ⟨le_length_loop runs [] 0, length_loop_lt runs [] 0, ?_, ?_⟩
  · rw [forkCalls, length_loop_eq_iff, Nat.zero_add]
    exact ⟨fun h i hi => h i i.zero_le hi, fun h i _ hi => h i hi⟩
  · rw [forkCalls, length_loop_add_one_eq_iff, Nat.zero_add]
    simp only [not_replaced_iff]
    rfl

end BenchLx.Exec
