import BenchLx.Netlat.Pairing

/-!
# Failing reads

`send_recv` means to ignore timeouts and to give up on any other error, but its test assigns
`errno`. A run is taken call by call here, for any outcomes of the system calls: it gives up on no
read at all, so it does what it means to exactly when no read fails in another way
(`gives_up_iff`).
-/

namespace BenchLx.Netlat

/-- The outcomes of the system calls of one `send_recv`, and the cycle counter around it. -/
structure Attempt where
  start : UInt64
  written : Bool
  result : ReadResult
  stop : UInt64
deriving DecidableEq, Repr

/-- One call of `send_recv` with these outcomes, and what the loop does with its result. -/
def State.attempt (s : State) (a : Attempt) : State :=
  match s.pc with
  | .write loop =>
    let s := s.wrote loop a.start a.written
    match s.pc with
    | .read loop => s.readReturned loop a.result a.stop
    | _ => s
  | _ => s

/-- The state after `k` calls of `send_recv`; the program may be over before. -/
def attempts (outcomes : ℕ → Attempt) : ℕ → State
  | 0 => .init
  | k + 1 => (attempts outcomes k).attempt (outcomes k)

/-- The errors of a read that has timed out. -/
def IsTimeout (errno : ℕ) : Prop := errno = eagain ∨ errno = ewouldblock

/-- The program comes to the read of call `k`, and this read fails. -/
structure ReadFails (outcomes : ℕ → Attempt) (k errno : ℕ) : Prop where
  reached : ∃ loop, (attempts outcomes k).pc = .write loop
  written : (outcomes k).written = true
  result : (outcomes k).result = .error errno

/-- The program exits with status 1 at each read that fails other than by a timeout, it goes on
after a timeout, and an error that persists does not keep it going. -/
structure GivesUp (outcomes : ℕ → Attempt) : Prop where
  exits : ∀ k errno, ReadFails outcomes k errno → ¬ IsTimeout errno →
    (attempts outcomes (k + 1)).pc = .exited 1
  retries : ∀ k errno, ReadFails outcomes k errno → IsTimeout errno →
    ∀ status, (attempts outcomes (k + 1)).pc ≠ .exited status
  ends : ∀ first, (∀ k ≥ first, ∃ errno, (outcomes k).result = .error errno ∧ ¬ IsTimeout errno) →
    ∃ k, ∀ loop, (attempts outcomes k).pc ≠ .write loop

/-! ## What a failing read does -/

theorem measureHead_ne_exited (times : List UInt64) (status : ℕ) :
    State.measureHead times ≠ .exited status := by
  unfold State.measureHead
  split <;> simp

/-- A call without an answer leaves the samples alone, and only the loop goes on. -/
theorem afterSendRecv_zero (s : State) (loop : Loop) (stop : UInt64) :
    ∃ pc, s.afterSendRecv loop 0 stop = { s with pc } ∧
      ((∃ loop', pc = .write loop') ∨ pc = State.measureHead s.times) := by
  cases loop with
  | warmup i =>
    refine ⟨_, rfl, ?_⟩
    split
    · exact .inl ⟨_, rfl⟩
    · exact .inr rfl
  | measure => exact ⟨_, rfl, .inr rfl⟩

/-- After a failing read, whatever its error, the program goes on with the loop. -/
theorem attempt_of_error {s : State} {loop : Loop} (hpc : s.pc = .write loop) {a : Attempt}
    (hwritten : a.written = true) {errno : ℕ} (hresult : a.result = .error errno) :
    (s.attempt a).times = s.times ∧
      ((∃ loop', (s.attempt a).pc = .write loop') ∨
        (s.attempt a).pc = State.measureHead s.times) := by
  have hattempt : s.attempt a = (s.wrote loop a.start true).afterSendRecv loop 0 a.stop := by
    rw [State.attempt, hpc]
    simp only [hwritten, hresult]
    exact readReturned_error _ _ _ _
  obtain ⟨pc, heq, hgoes⟩ := afterSendRecv_zero (s.wrote loop a.start true) loop a.stop
  rw [hattempt, heq]
  exact ⟨rfl, hgoes⟩

theorem ReadFails.ne_exited {outcomes : ℕ → Attempt} {k errno : ℕ}
    (hfails : ReadFails outcomes k errno) (status : ℕ) :
    (attempts outcomes (k + 1)).pc ≠ .exited status := by
  obtain ⟨loop, hpc⟩ := hfails.reached
  rcases (attempt_of_error hpc hfails.written hfails.result).2 with ⟨loop', hgoes⟩ | hhead
  · rw [attempts, hgoes]
    exact Pc.noConfusion
  · rw [attempts, hhead]
    exact measureHead_ne_exited _ _

/-- A write that fails is the end of the program. -/
theorem attempt_of_not_written {s : State} {loop : Loop} (hpc : s.pc = .write loop) {a : Attempt}
    (hwritten : a.written = false) : (s.attempt a).pc = .exited 1 := by
  rw [State.attempt, hpc]
  simp only [hwritten, State.wrote, Bool.false_eq_true, if_false]

/-- **When netlat gives up.** For any outcomes of the writes and reads: the program exits with
status 1 at every read that fails other than by a timeout, retries after timeouts only and does not
go on for ever under an error that persists, exactly when each read that it comes to succeeds or
times out. -/
theorem gives_up_iff (outcomes : ℕ → Attempt) :
    GivesUp outcomes ↔ ∀ k errno, ReadFails outcomes k errno → IsTimeout errno := by
  constructor
  · intro hgives k errno hfails
    by_contra htimeout
    exact hfails.ne_exited 1 (hgives.exits k errno hfails htimeout)
  · intro htimeouts
    refine ⟨fun k errno hfails hne => absurd (htimeouts k errno hfails) hne,
      fun k errno hfails _ => hfails.ne_exited, fun first herrors => ?_⟩
    by_contra hgoes
    push Not at hgoes
    obtain ⟨errno, hresult, hne⟩ := herrors first le_rfl
    cases hwritten : (outcomes first).written with
    | true => exact hne (htimeouts first errno ⟨hgoes first, hwritten, hresult⟩)
    | false =>
      obtain ⟨loop, hpc⟩ := hgoes first
      obtain ⟨loop', hpc'⟩ := hgoes (first + 1)
      rw [attempts, attempt_of_not_written hpc hwritten] at hpc'
      cases hpc'

/-- While no read delivers an answer the loops go on. -/
theorem retries_forever {outcomes : ℕ → Attempt}
    (hwritten : ∀ k, (outcomes k).written = true)
    (hresult : ∀ k, ∃ errno, (outcomes k).result = .error errno) (k : ℕ) :
    (attempts outcomes k).times = [] ∧ ∃ loop, (attempts outcomes k).pc = .write loop := by
  induction k with
  | zero => exact ⟨rfl, _, rfl⟩
  | succ k ih =>
    obtain ⟨htimes, loop, hpc⟩ := ih
    obtain ⟨errno, herror⟩ := hresult k
    obtain ⟨hsame, hgoes⟩ := attempt_of_error hpc (hwritten k) herror
    refine ⟨hsame.trans htimes, ?_⟩
    rcases hgoes with hgoes | hhead
    · exact hgoes
    · rw [htimes] at hhead
      exact ⟨.measure, hhead⟩

/-- `ECONNREFUSED`. -/
def econnrefused : ℕ := 111

/-- Every read is refused. -/
def refused : ℕ → Attempt := fun _ => ⟨0, true, .error econnrefused, 0⟩

/-- When every read is refused the program never exits: it sends and reads for ever. -/
theorem refused_forever :
    ¬ GivesUp refused ∧ ∀ k, ∃ loop, (attempts refused k).pc = .write loop := by
  have hforever : ∀ k, ∃ loop, (attempts refused k).pc = .write loop := fun k =>
    (retries_forever (fun _ => rfl) (fun _ => ⟨_, rfl⟩) k).2
  refine ⟨fun hgives => ?_, hforever⟩
  have hfails : ReadFails refused 0 econnrefused := ⟨hforever 0, rfl, rfl⟩
  exact hfails.ne_exited 1 (hgives.exits 0 _ hfails (by unfold IsTimeout; decide))

end BenchLx.Netlat
