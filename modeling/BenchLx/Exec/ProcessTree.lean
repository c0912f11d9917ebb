import Mathlib.Tactic

/-!
# The processes of the exec benchmark

Reference: `main` in `apps/exec/exec.c`. A child is to be replaced by the program; when `execv()`
fails it reports the error and leaves the `switch`, but not the loop, and so takes over the rounds
that are left (`one_process_iff`). Each parent waits for its child, which ends when its program or
its loop does, so the calls of the whole tree come one after the other.
-/

namespace BenchLx.Exec

/-- A process, by the rounds in which its ancestors below the original process and then it itself
were forked. -/
abbrev Process := List ℕ

/-- Whether a `fork()` of a process succeeds in a round, and whether the `execv()` of a child
does. -/
structure Outcomes where
  fork : Process → ℕ → Bool
  exec : Process → Bool

/-- A `fork()` that is called: by which process and in which round. -/
structure ForkCall where
  process : Process
  round : ℕ
deriving DecidableEq, Repr

/-- The loop of a process from round `i` on, with `left` rounds to go: the calls of `fork()` by the
process and its descendants, in order. -/
def loop (o : Outcomes) : (left : ℕ) → Process → (i : ℕ) → List ForkCall
  | 0, _, _ => []
  | left + 1, p, i =>
    let child := p ++ [i]
    let childCalls :=
      if o.fork p i then
        -- a child that `execv()` does not replace goes on behind the `switch`
        if o.exec child then [] else loop o left child (i + 1)
      else []
    ⟨p, i⟩ :: childCalls ++ loop o left p (i + 1)

/-- The calls of `fork()` in the whole tree of processes. -/
def forkCalls (o : Outcomes) (runs : ℕ) : List ForkCall := loop o runs [] 0

/-- At most `runs` calls, all of them by the original process. -/
structure OneProcess (o : Outcomes) (runs : ℕ) : Prop where
  length_le : (forkCalls o runs).length ≤ runs
  original : ∀ c ∈ forkCalls o runs, c.process = []

variable {o : Outcomes}

/-- The `execv()` that a round depends on succeeds: that of its child, if there is one. -/
def Replaced (o : Outcomes) (p : Process) (i : ℕ) : Prop :=
  o.fork p i = true → o.exec (p ++ [i]) = true

/-- A round without a child in the loop. -/
theorem loop_of_replaced {p : Process} {i left : ℕ} (h : Replaced o p i) :
    loop o (left + 1) p i = ⟨p, i⟩ :: loop o left p (i + 1) := by
  rw [loop]
  by_cases hfork : o.fork p i = true
  · simp only [hfork, h hfork, if_true]
    rfl
  · simp only [hfork, Bool.false_eq_true, if_false]
    rfl

/-- A round whose child goes on with the loop. -/
theorem loop_of_not_replaced {p : Process} {i left : ℕ} (h : ¬ Replaced o p i) :
    loop o (left + 1) p i
      = ⟨p, i⟩ :: loop o left (p ++ [i]) (i + 1) ++ loop o left p (i + 1) := by
  unfold Replaced at h
  push Not at h
  rw [loop]
  simp only [h.1, if_true, if_neg h.2]

/-- The last round of a child in the loop calls nothing, as there is none left. -/
theorem loop_one (p : Process) (i : ℕ) : loop o 1 p i = [⟨p, i⟩] := by
  by_cases h : Replaced o p i
  · rw [loop_of_replaced h, loop]
  · rw [loop_of_not_replaced h, loop, loop]
    rfl

/-- While the children of a process are replaced, it alone makes the calls, one in each round. -/
theorem loop_eq_map {p : Process} {i left : ℕ}
    (h : ∀ j, i ≤ j → j + 1 < i + left → Replaced o p j) :
    loop o left p i = (List.range' i left).map fun j => ⟨p, j⟩ := by
  induction left generalizing i with
  | zero => rfl
  | succ left ih =>
    cases left with
    | zero => exact loop_one p i
    | succ left =>
      rw [loop_of_replaced (h i le_rfl (by omega)), ih fun j hj hlt => h j (by omega) (by omega)]
      rfl

theorem mem_loop_succ (left : ℕ) (p : Process) (i : ℕ) : ⟨p, i⟩ ∈ loop o (left + 1) p i :=
  List.mem_append_left _ List.mem_cons_self

/-- A child that goes on with the loop calls `fork()` in the next round. -/
theorem child_mem_loop {p : Process} {i left j : ℕ} (hj : i ≤ j) (hlt : j + 1 < i + left)
    (h : ¬ Replaced o p j) : ⟨p ++ [j], j + 1⟩ ∈ loop o left p i := by
  induction left generalizing i with
  | zero => omega
  | succ left ih =>
    by_cases hij : i = j
    · subst hij
      obtain ⟨left, rfl⟩ := Nat.exists_eq_add_one_of_ne_zero (by omega : left ≠ 0)
      rw [loop_of_not_replaced h]
      exact List.mem_append_left _ (List.mem_cons_of_mem _ (mem_loop_succ _ _ _))
    · have hmem := ih (by omega : i + 1 ≤ j) (by omega)
      by_cases hi : Replaced o p i
      · rw [loop_of_replaced hi]
        exact List.mem_cons_of_mem _ hmem
      · rw [loop_of_not_replaced hi]
        exact List.mem_append_right _ hmem

/-- **When there is one process.** For every number of runs and any outcomes of the system calls:
there are at most that many calls of `fork()`, all by the original process, exactly when `execv()`
succeeds for each of its children that is forked before the last round. -/
theorem one_process_iff (o : Outcomes) (runs : ℕ) :
    OneProcess o runs ↔ ∀ i, i + 1 < runs → o.fork [] i = true → o.exec [i] = true := by
  constructor
  · intro hone i hi
    by_contra hnot
    have hmem := child_mem_loop (Nat.zero_le i) (by omega : i + 1 < 0 + runs) hnot
    cases hone.original _ hmem
  · intro h
    have hloop : forkCalls o runs = (List.range' 0 runs).map fun j => ⟨[], j⟩ :=
      loop_eq_map fun j _ hlt => h j (by omega)
    refine ⟨by simp [hloop], fun c hc => ?_⟩
    rw [hloop] at hc
    obtain ⟨j, -, rfl⟩ := List.mem_map.mp hc
    rfl

/-- When every `fork()` succeeds and no `execv()` does, the number of processes doubles in every
round. -/
theorem length_forkCalls_of_failing {o : Outcomes} (hfork : ∀ p i, o.fork p i = true)
    (hexec : ∀ p, o.exec p = false) (runs : ℕ) : (forkCalls o runs).length + 1 = 2 ^ runs := by
  suffices hloop : ∀ p i, (loop o runs p i).length + 1 = 2 ^ runs from hloop [] 0
  induction runs with
  | zero => exact fun p i => rfl
  | succ runs ih =>
    intro p i
    have hnot : ¬ Replaced o p i := by simp [Replaced, hfork, hexec]
    rw [loop_of_not_replaced hnot]
    have hchild := ih (p ++ [i]) (i + 1)
    have hparent := ih p (i + 1)
    simp only [List.length_append, List.length_cons]
    omega

/-- Three runs of a program that does not exist: seven calls of `fork()`, four of them by
children. -/
theorem failing_exec_forks :
    ¬ OneProcess ⟨fun _ _ => true, fun _ => false⟩ 3 ∧
      (forkCalls ⟨fun _ _ => true, fun _ => false⟩ 3).length = 7 := by
  refine ⟨fun hone => ?_, by decide⟩
  exact absurd hone.length_le (by decide)

end BenchLx.Exec
