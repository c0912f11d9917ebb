import BenchLx.Pingpong.Pingpong

/-!
# Round trips of the pingpong benchmark

Every interleaving goes through the same four phases in every round (`Phase`): both processes are
in front of the round, the message is queued, the child has it, the reply is queued. In each phase
one process is blocked or finished, so the phases of a round follow each other.
-/

namespace BenchLx.Pingpong

/-- The loops stand in front of round `n`, counted over all runs, at the position `pos`. -/
def AtRound (runs n : ℕ) : Option (ℕ × ℕ) → Prop
  | some (x, i) => x < runs ∧ i < warmup + count ∧ n = x * (warmup + count) + i
  | none => n = runs * (warmup + count)

/-- What is known in each phase of a round. -/
inductive Phase (runs msgsize : ℕ) : State → Prop
  | ready {n held : ℕ} {pos : Option (ℕ × ℕ)} (hpos : AtRound runs n pos) :
      Phase runs msgsize
        { parent := Pc.enter .send pos, child := Pc.enter .receive pos
          queue := [], held, parentSends := n, childSends := n
          parentReceived := List.range n, childReceived := List.range n }
  | asked {n held x i : ℕ} (hpos : AtRound runs n (some (x, i))) :
      Phase runs msgsize
        { parent := .receive x i, child := .receive x i
          queue := [⟨serverMessage, msgsize, n⟩], held, parentSends := n + 1, childSends := n
          parentReceived := List.range n, childReceived := List.range n }
  | taken {n x i : ℕ} (hpos : AtRound runs n (some (x, i))) :
      Phase runs msgsize
        { parent := .receive x i, child := .send x i
          queue := [], held := n, parentSends := n + 1, childSends := n
          parentReceived := List.range n, childReceived := List.range (n + 1) }
  | answered {n held x i : ℕ} (hpos : AtRound runs n (some (x, i))) :
      Phase runs msgsize
        { parent := .receive x i, child := Pc.enter .receive (nextRound runs x i)
          queue := [⟨clientMessage, msgsize, n⟩], held, parentSends := n + 1, childSends := n + 1
          parentReceived := List.range n, childReceived := List.range (n + 1) }

/-! ## The loops -/

theorem atRound_enterRun {runs x : ℕ} (hx : x ≤ runs) :
    AtRound runs (x * (warmup + count)) (enterRun runs x) := by
  rw [enterRun]
  by_cases hlt : x < runs
  · rw [if_pos hlt]
    exact ⟨hlt, by decide, (Nat.add_zero _).symm⟩
  · rw [if_neg hlt, Nat.le_antisymm hx (not_lt.mp hlt)]
    rfl

theorem AtRound.next {runs n x i : ℕ} (h : AtRound runs n (some (x, i))) :
    AtRound runs (n + 1) (nextRound runs x i) := by
  obtain ⟨hx, hi, rfl⟩ := h
  rw [nextRound]
  by_cases hlast : i + 1 < warmup + count
  · rw [if_pos hlast]
    exact ⟨hx, hlast, Nat.add_assoc _ _ _⟩
  · have hend : x * (warmup + count) + i + 1 = (x + 1) * (warmup + count) := by
      rw [Nat.succ_mul]
      omega
    rw [if_neg hlast, hend]
    exact atRound_enterRun hx

/-- No message of the asked size is too short. -/
theorem not_lt_toSsize (n : ℕ) : ¬ (n : ℤ) < toSsize n := by
  unfold toSsize
  split <;> omega

/-! ## Steps -/

section Step

variable {hasRoom : Capacity} {runs msgsize : ℕ} {s s' : State}

/-- What the two processes can do in each phase. -/
theorem Phase.parentStep (hroom : hasRoom [] msgsize = true) (hp : Phase runs msgsize s)
    (hstep : parentStep hasRoom runs msgsize s = some s') : Phase runs msgsize s' := by
  cases hp with
  | @ready n held pos hpos =>
    cases pos with
    | none => cases hstep
    | some pos =>
      simp only [Pingpong.parentStep, Pc.enter, hroom, if_true, Option.some.injEq] at hstep
      subst hstep
      exact .asked hpos
  | asked => cases hstep
  | taken => cases hstep
  | answered hpos =>
    simp only [Pingpong.parentStep, msgrcv, if_true, not_lt_toSsize, if_false,
      Option.some.injEq, ← List.range_succ] at hstep
    subst hstep
    exact .ready hpos.next

theorem Phase.childStep (hroom : hasRoom [] msgsize = true) (hp : Phase runs msgsize s)
    (hstep : childStep hasRoom runs msgsize s = some s') : Phase runs msgsize s' := by
  cases hp with
  | @ready n held pos hpos =>
    cases pos with
    | none => cases hstep
    | some pos => cases hstep
  | asked hpos =>
    simp only [Pingpong.childStep, msgrcv, if_true, not_lt_toSsize, if_false,
      Option.some.injEq, ← List.range_succ] at hstep
    subst hstep
    exact .taken hpos
  | taken hpos =>
    simp only [Pingpong.childStep, hroom, if_true, Option.some.injEq, List.nil_append] at hstep
    subst hstep
    exact .answered hpos
  | @answered n held x i hpos =>
    simp only [Pingpong.childStep] at hstep
    cases hnext : nextRound runs x i with
    | none => simp [hnext, Pc.enter] at hstep
    | some pos => simp [hnext, Pc.enter, msgrcv, clientMessage, serverMessage] at hstep

/-- Every state that is reached is in one of the phases. -/
theorem phase_of_reachable (hroom : hasRoom [] msgsize = true)
    (hreach : Reachable hasRoom runs msgsize s) : Phase runs msgsize s := by
  induction hreach with
  | refl =>
    have hstart := @atRound_enterRun runs 0 (Nat.zero_le runs)
    rw [Nat.zero_mul] at hstart
    exact .ready hstart
  | tail _ hstep ih =>
    rcases hstep with hstep | hstep
    · exact ih.parentStep hroom hstep
    · exact ih.childStep hroom hstep

/-- Unless both have finished, one of the two can go on. -/
theorem Phase.exists_step (hroom : hasRoom [] msgsize = true) (hp : Phase runs msgsize s)
    (hrun : ¬ (s.parent = .finished ∧ s.child = .finished)) :
    ∃ s', Step hasRoom runs msgsize s s' := by
  cases hp with
  | @ready n held pos hpos =>
    cases pos with
    | none => exact absurd ⟨rfl, rfl⟩ hrun
    | some pos => exact ⟨_, .inl (if_pos hroom)⟩
  | asked => exact ⟨_, .inr (if_neg (not_lt_toSsize msgsize))⟩
  | taken => exact ⟨_, .inr (if_pos hroom)⟩
  | answered => exact ⟨_, .inl (if_neg (not_lt_toSsize msgsize))⟩

end Step

/-- **Round trips.** Let the queue start with room for one message. In every state that any
interleaving leads to, for any number of runs and any message size: at most one message is queued;
the sends and receives of the two processes are at most one round apart, and each receives the
numbers in the order in which the parent sent them; the parent's send finds room, and no call fails;
one of the two can step unless both have finished; and then each of them has done all its rounds and
the queue is empty. -/
theorem pingpong_round_trips (hasRoom : Capacity) (runs msgsize : ℕ)
    (hroom : hasRoom [] msgsize = true) (s : State) (hreach : Reachable hasRoom runs msgsize s) :
    s.queue.length ≤ 1 ∧
    (s.parentReceived.length ≤ s.childSends ∧ s.childSends ≤ s.childReceived.length ∧
      s.childReceived.length ≤ s.parentSends ∧
      s.parentSends ≤ s.parentReceived.length + 1) ∧
    (s.parentReceived = List.range s.parentReceived.length ∧
      s.childReceived = List.range s.childReceived.length) ∧
    ((∀ x i, s.parent = .send x i → hasRoom s.queue msgsize = true) ∧
      s.parent ≠ .failed ∧ s.child ≠ .failed) ∧
    (¬ (s.parent = .finished ∧ s.child = .finished) → ∃ s', Step hasRoom runs msgsize s s') ∧
    (s.parent = .finished ∧ s.child = .finished →
      s.parentSends = runs * (warmup + count) ∧
      s.parentReceived.length = runs * (warmup + count) ∧
      s.childReceived.length = runs * (warmup + count) ∧
      s.childSends = runs * (warmup + count) ∧ s.queue = []) := by
  have hp := phase_of_reachable hroom hreach
  refine ⟨?_, ?_, ?_, ?_, hp.exists_step hroom, ?_⟩
  · cases hp <;> simp
  · cases hp <;> simp
  · cases hp <;> simp
  · cases hp with
    | @ready n held pos hpos =>
      cases pos <;> simp [Pc.enter, hroom]
    | asked => simp
    | taken => simp
    | @answered n held x i hpos =>
      cases hnext : nextRound runs x i <;> simp [Pc.enter]
  · rintro ⟨hparent, hchild⟩
    cases hp with
    | @ready n held pos hpos =>
      cases pos with
      | none => simpa [AtRound] using hpos
      | some pos => cases hparent
    | asked => cases hparent
    | taken => cases hparent
    | answered => cases hparent

/-- One run with messages of one byte, after the first send. -/
theorem pingpong_round_trips_asked :
    ∃ s, Reachable (capacityOf 8192 16384) 1 1 s ∧ s.queue = [⟨serverMessage, 1, 0⟩] ∧
      s.child ≠ .failed ∧ ∃ s', Step (capacityOf 8192 16384) 1 1 s s' := by
  obtain ⟨s, hstep, hqueue, hparent⟩ :
      ∃ s, parentStep (capacityOf 8192 16384) 1 1 (.init 1) = some s ∧
        s.queue = [⟨serverMessage, 1, 0⟩] ∧ s.parent = .receive 0 0 :=
    ⟨_, rfl, rfl, rfl⟩
  have hreach : Reachable (capacityOf 8192 16384) 1 1 s := .single (.inl hstep)
  obtain ⟨-, -, -, ⟨-, -, hchild⟩, hgo, -⟩ :=
    pingpong_round_trips (capacityOf 8192 16384) 1 1 (by decide) s hreach
  refine ⟨s, hreach, hqueue, hchild, hgo ?_⟩
  rw [hparent]
  rintro ⟨hfinished, -⟩
  cases hfinished

end BenchLx.Pingpong
