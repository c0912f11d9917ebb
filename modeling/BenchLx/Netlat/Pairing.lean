import BenchLx.Netlat.Netlat

/-!
# Which answer a sample belongs to

`send_recv` takes the answer that is first in the queue of the socket. While every answer arrives in
time, the queue holds nothing but the answer to the request that is waited for (`Inv`), and every
sample pairs a request with its own answer. An answer that arrives later is taken for the answer to
the next request (`late_answer_is_sampled`).
-/

namespace BenchLx.Netlat

/-- Every sample is the interval between the sending of a request and the receipt of the answer to
it, and every answer read is the one to the request waited for. -/
structure Paired (s : State) : Prop where
  sample : ∀ t ∈ s.times, ∃ n start, s.sends[n]? = some start ∧
    ∃ r ∈ s.receipts, r.answer = n ∧ t = r.stop - start
  own : ∀ r ∈ s.receipts, r.answer = r.request

/-- The answer `a` arrives while its request, the last of the `sent` ones, is waited for, or when
the program reads no more. -/
def InTime (sent a : ℕ) : Pc → Prop
  | .read _ => a + 1 = sent
  | .write _ => False
  | .finished => True
  | .exited _ => True

instance (sent a : ℕ) : DecidablePred (InTime sent a)
  | .read _ => inferInstanceAs (Decidable (a + 1 = sent))
  | .write _ => inferInstanceAs (Decidable False)
  | .finished => inferInstanceAs (Decidable True)
  | .exited _ => inferInstanceAs (Decidable True)

/-- An event that is no late arrival. -/
def OnTime (s : State) : Event → Prop
  | .arrive a => InTime s.sends.length a s.pc
  | .write _ _ => True
  | .read _ => True
  | .timeout => True

instance (s : State) : DecidablePred (OnTime s)
  | .arrive a => inferInstanceAs (Decidable (InTime s.sends.length a s.pc))
  | .write _ _ => inferInstanceAs (Decidable True)
  | .read _ => inferInstanceAs (Decidable True)
  | .timeout => inferInstanceAs (Decidable True)

/-- Every answer that arrives in the course of the events arrives in time. -/
def AllOnTime : List Event → State → Prop
  | [], _ => True
  | e :: es, s => OnTime s e ∧ ∀ s' ∈ step s e, AllOnTime es s'

instance allOnTime_decidable : ∀ es s, Decidable (AllOnTime es s)
  | [], _ => inferInstanceAs (Decidable True)
  | e :: es, s =>
    have := allOnTime_decidable es
    inferInstanceAs (Decidable (OnTime s e ∧ ∀ s' ∈ step s e, AllOnTime es s'))

/-- The invariant of the runs in which answers arrive in time. -/
structure Inv (s : State) : Prop where
  paired : Paired s
  sent : ∀ a ∈ s.unanswered, a < s.sends.length
  nodup : s.unanswered.Nodup
  idle : ∀ loop, s.pc = .write loop → s.queue = []
  waiting : ∀ loop, s.pc = .read loop → 0 < s.sends.length ∧
    (s.queue = [] ∨ s.queue = [s.sends.length - 1] ∧ s.sends.length - 1 ∉ s.unanswered)
  started : s.pc = .read .measure → s.sends[s.sends.length - 1]? = some s.start

/-! ## The steps of the program -/

theorem measureHead_ne_read (times : List UInt64) (loop : Loop) :
    State.measureHead times ≠ .read loop := by
  unfold State.measureHead
  split <;> simp

/-- The loops store at most one sample, and go on to a `write()` or end. -/
theorem afterSendRecv_spec (s : State) (loop : Loop) (ret : ℕ) (stop : UInt64) :
    ∃ pc times, s.afterSendRecv loop ret stop = { s with pc, times } ∧
      (∀ loop', pc ≠ .read loop') ∧
      (times = s.times ∨ loop = .measure ∧ ret ≠ 0 ∧ times = s.times ++ [stop - s.start]) := by
  cases loop with
  | warmup i =>
    refine ⟨_, _, rfl, fun loop' => ?_, .inl rfl⟩
    split
    · simp
    · exact measureHead_ne_read _ _
  | measure =>
    rw [State.afterSendRecv]
    by_cases hret : ret ≠ 0
    · simp only [if_pos hret]
      exact ⟨_, _, rfl, measureHead_ne_read _, .inr ⟨trivial, hret, rfl⟩⟩
    · simp only [if_neg hret]
      exact ⟨_, _, rfl, measureHead_ne_read _, .inl rfl⟩

/-- Every error of `read()` counts as a timeout. -/
theorem readReturned_error (s : State) (loop : Loop) (errno : ℕ) (clock : UInt64) :
    s.readReturned loop (.error errno) clock = s.afterSendRecv loop 0 clock := by
  have hassigned : assignedErrno errno = 1 := if_pos (.inl (by decide))
  simp [State.readReturned, afterRead, hassigned]

section Step

variable {s s' : State}

theorem inv_init : Inv .init where
  paired := ⟨by simp [State.init], by simp [State.init]⟩
  sent := by simp [State.init]
  nodup := List.nodup_nil
  idle := fun _ _ => rfl
  waiting := by simp [State.init]
  started := by simp [State.init]

/-- Sending goes on to a `read()` with an empty queue. -/
theorem Inv.wrote (hinv : Inv s) {loop : Loop} (hpc : s.pc = .write loop) (clock : UInt64)
    (ok : Bool) : Inv (s.wrote loop clock ok) := by
  have hqueue : s.queue = [] := hinv.idle loop hpc
  cases ok with
  | false =>
    exact ⟨⟨hinv.paired.sample, hinv.paired.own⟩, hinv.sent, hinv.nodup, fun _ _ => hqueue,
      by simp [State.wrote], by simp [State.wrote]⟩
  | true =>
    refine ⟨⟨fun t ht => ?_, hinv.paired.own⟩, fun a ha => ?_, ?_, by simp [State.wrote], ?_, ?_⟩
    · obtain ⟨n, start, hsend, hreceipt⟩ := hinv.paired.sample t ht
      have hlt : n < s.sends.length := (List.getElem?_eq_some_iff.mp hsend).1
      exact ⟨n, start, (List.getElem?_append_left hlt).trans hsend, hreceipt⟩
    · show a < (s.sends ++ [clock]).length
      rw [List.length_append, List.length_singleton]
      rcases List.mem_append.mp ha with ha | ha
      · exact Nat.lt_succ_of_lt (hinv.sent a ha)
      · rw [List.mem_singleton.mp ha]
        exact Nat.lt_succ_self _
    · apply hinv.nodup.append (List.nodup_singleton _)
      rw [List.disjoint_singleton]
      exact fun hmem => absurd (hinv.sent _ hmem) (lt_irrefl _)
    · exact fun _ _ => ⟨by simp [State.wrote], .inl hqueue⟩
    · intro hread
      obtain rfl : loop = .measure := Pc.read.inj hread
      simp [State.wrote]

/-- An answer that arrives in time is the only one in the queue. -/
theorem Inv.arrive (hinv : Inv s) {a : ℕ} (ha : a ∈ s.unanswered) (hontime : OnTime s (.arrive a)) :
    Inv { s with unanswered := s.unanswered.erase a, queue := s.queue ++ [a] } := by
  have hwrite : ∀ loop, s.pc ≠ .write loop := by
    intro loop hpc
    simp [OnTime, InTime, hpc] at hontime
  refine ⟨⟨hinv.paired.sample, hinv.paired.own⟩, fun b hb => hinv.sent b (List.mem_of_mem_erase hb),
    hinv.nodup.erase a, fun loop hpc => absurd hpc (hwrite loop),
    fun loop (hpc : s.pc = .read loop) => ?_, hinv.started⟩
  obtain ⟨hpos, hqueue⟩ := hinv.waiting loop hpc
  have hlast : a + 1 = s.sends.length := by simpa [OnTime, InTime, hpc] using hontime
  have hcurrent : s.sends.length - 1 = a := by omega
  have hempty : s.queue = [] := by
    rcases hqueue with hempty | ⟨-, hgone⟩
    · exact hempty
    · rw [hcurrent] at hgone
      exact absurd ha hgone
  refine ⟨hpos, .inr ⟨?_, ?_⟩⟩
  · simp [hempty, hcurrent]
  · simp only [hcurrent]
    exact fun hmem => (hinv.nodup.mem_erase_iff.mp hmem).1 rfl

/-- One more answer read, the one waited for. -/
theorem Paired.received (hp : Paired s) {a : ℕ} (ha : a = s.sends.length - 1) (queue : List ℕ)
    (clock : UInt64) : Paired (s.received a queue clock) := by
  refine ⟨fun t ht => ?_, fun r hr => ?_⟩
  · obtain ⟨n, start, hsend, r, hr, hanswer⟩ := hp.sample t ht
    exact ⟨n, start, hsend, r, List.mem_append_left _ hr, hanswer⟩
  · rcases List.mem_append.mp hr with hr | hr
    · exact hp.own r hr
    · rw [List.mem_singleton.mp hr]
      exact ha

/-- The answer that is read is the one waited for. -/
theorem Inv.read (hinv : Inv s) {loop : Loop} (hpc : s.pc = .read loop) {a : ℕ} {queue : List ℕ}
    (hqueue : s.queue = a :: queue) (clock : UInt64) :
    Inv ((s.received a queue clock).readReturned loop (.data a) clock) := by
  obtain ⟨hpos, hwaiting⟩ := hinv.waiting loop hpc
  obtain ⟨rfl, rfl⟩ : a = s.sends.length - 1 ∧ queue = [] := by
    rcases hwaiting with hempty | ⟨hone, -⟩
    · rw [hempty] at hqueue
      cases hqueue
    · exact List.cons.inj (hqueue.symm.trans hone)
  obtain ⟨pc, times, heq, hidle, htimes⟩ :=
    afterSendRecv_spec (s.received (s.sends.length - 1) [] clock) loop 1 clock
  show Inv ((s.received (s.sends.length - 1) [] clock).afterSendRecv loop 1 clock)
  rw [heq]
  have hpaired := hinv.paired.received rfl [] clock
  refine ⟨⟨fun t ht => ?_, hpaired.own⟩, hinv.sent, hinv.nodup, fun _ _ => rfl,
    fun loop' hread => absurd hread (hidle loop'), fun hread => absurd hread (hidle .measure)⟩
  rcases htimes with htimes | ⟨rfl, -, htimes⟩
  · exact hpaired.sample t (htimes ▸ ht)
  · rcases List.mem_append.mp (htimes ▸ ht) with ht | ht
    · exact hpaired.sample t ht
    · -- the new sample
      exact ⟨_, s.start, hinv.started hpc, _, List.mem_append_right _ (List.mem_singleton_self _),
        rfl, List.mem_singleton.mp ht⟩

/-- A timeout stores nothing. -/
theorem Inv.timeout (hinv : Inv s) {loop : Loop} (hqueue : s.queue = []) :
    Inv (s.readReturned loop (.error eagain) 0) := by
  obtain ⟨pc, times, heq, hidle, htimes⟩ := afterSendRecv_spec s loop 0 0
  have hsame : times = s.times := by
    rcases htimes with htimes | ⟨-, hret, -⟩
    · exact htimes
    · exact absurd rfl hret
  rw [readReturned_error, heq, hsame]
  exact ⟨⟨hinv.paired.sample, hinv.paired.own⟩, hinv.sent, hinv.nodup, fun _ _ => hqueue,
    fun loop' hread => absurd hread (hidle loop'), fun hread => absurd hread (hidle .measure)⟩

/-- **One event.** -/
theorem Inv.step (hinv : Inv s) {e : Event} (hontime : OnTime s e)
    (hstep : Netlat.step s e = some s') : Inv s' := by
  cases e with
  | write clock ok =>
    rw [Netlat.step] at hstep
    split at hstep
    · next loop hpc =>
      cases hstep
      exact hinv.wrote hpc clock ok
    · cases hstep
  | arrive a =>
    rw [Netlat.step] at hstep
    split at hstep
    · next ha =>
      cases hstep
      exact hinv.arrive ha hontime
    · cases hstep
  | read clock =>
    rw [Netlat.step] at hstep
    split at hstep
    · next loop a queue hpc hqueue =>
      cases hstep
      exact hinv.read hpc hqueue clock
    · cases hstep
  | timeout =>
    rw [Netlat.step] at hstep
    split at hstep
    · next loop hpc hqueue =>
      cases hstep
      exact hinv.timeout hqueue
    · cases hstep

end Step

theorem inv_of_run {events : List Event} {s s' : State} (hinv : Inv s)
    (hrun : run events s = some s') (hontime : AllOnTime events s) : Inv s' := by
  induction events generalizing s with
  | nil =>
    cases hrun
    exact hinv
  | cons e events ih =>
    obtain ⟨s₁, hstep, hrun⟩ := Option.bind_eq_some_iff.mp hrun
    exact ih (hinv.step hontime.1 hstep) hrun (hontime.2 s₁ hstep)

/-- **Samples of answers in time.** In every run in which each answer arrives while its own request
is waited for or when the program reads no more, whatever answers are lost and however the events
are interleaved, every sample is the interval between the sending of a request and the receipt of
the answer to it, and no answer is taken for the answer to another request. -/
theorem samples_paired_of_onTime (events : List Event) (s : State)
    (hrun : run events .init = some s) (hontime : AllOnTime events .init) : Paired s :=
  (inv_of_run inv_init hrun hontime).paired

/-- The warm-up, with no answer at all. -/
def silentWarmup : List Event :=
  (List.replicate warmup [.write 0 true, .timeout]).flatten

theorem samples_paired_of_onTime_one :
    ∃ s, run (silentWarmup ++ [.write 100 true, .arrive 5, .read 250]) .init = some s ∧
      s.times = [150] ∧ Paired s := by
  refine ⟨_, rfl, by decide, ?_⟩
  exact samples_paired_of_onTime
    (silentWarmup ++ [.write 100 true, .arrive 5, .read 250]) _ rfl (by decide)

/-- The answer to the request sent at 100 arrives after the timeout. The request sent at 200 gets
it, and a sample that is no round trip. -/
theorem late_answer_is_sampled :
    ∃ s, run (silentWarmup ++
        [.write 100 true, .timeout, .arrive 5, .write 200 true, .read 250]) .init = some s ∧
      s.times = [50] ∧ s.receipts = [⟨6, 5, 250⟩] ∧ ¬ Paired s := by
  refine ⟨_, rfl, by decide, by decide, fun hpaired => ?_⟩
  obtain ⟨n, start, hsend, r, hr, hanswer, ht⟩ := hpaired.sample 50 (by decide)
  obtain rfl : r = ⟨6, 5, 250⟩ := List.mem_singleton.mp hr
  obtain rfl : 5 = n := hanswer
  obtain rfl : 100 = start := Option.some.inj hsend
  exact absurd ht (by decide)

end BenchLx.Netlat
