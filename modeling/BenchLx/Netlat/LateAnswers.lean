import BenchLx.Netlat.Pairing
import Mathlib.Data.List.GetD

/-!
# Runs with late answers

Whenever the answers arrive: no request is answered twice and none of the answers that arrive is
lost, every answer that is read belongs to the request waited for or an earlier one, and each read
behind the warm-up gives the sample that starts with the request waited for (`accounts_of_run`). So
late answers make latencies look smaller than they are, never larger (`samples_le_roundTrip`).
-/

namespace BenchLx.Netlat

/-- The time from the sending of request `n` to the receipt of an answer. -/
def interval (sends : List UInt64) (n : ℕ) (r : Receipt) : UInt64 := r.stop - sends.getD n 0

/-- The answers that are read behind the warm-up. -/
def measured (receipts : List Receipt) : List Receipt := receipts.filter fun r => warmup ≤ r.request

/-- What is known of the requests, their answers and the samples in a state: the answers read, the
ones in the queue and those that have not arrived are the ones to all requests; every `send_recv`
reads at most one answer, to its own request or an earlier one; and the samples are those of the
answers read behind the warm-up. -/
structure Accounts (s : State) : Prop where
  answers : (s.receipts.map Receipt.answer ++ s.queue ++ s.unanswered).Perm
    (List.range s.sends.length)
  increasing : (s.receipts.map Receipt.request).Pairwise (· < ·)
  answer_le : ∀ r ∈ s.receipts, r.answer ≤ r.request
  request_lt : ∀ r ∈ s.receipts, r.request < s.sends.length
  times_eq : s.times = (measured s.receipts).map fun r => interval s.sends r.request r

/-! ## Where the loops are -/

/-- The requests sent and the samples stored when the program is at a place. -/
def AtLoop (sent samples : ℕ) : Pc → Prop
  | .write (.warmup i) => i < warmup ∧ sent = i ∧ samples = 0
  | .read (.warmup i) => i < warmup ∧ sent = i + 1 ∧ samples = 0
  | .write .measure => warmup ≤ sent ∧ samples < count
  | .read .measure => warmup < sent ∧ samples < count
  | .finished => samples = count
  | .exited _ => True

theorem atLoop_measureHead {sent : ℕ} {times : List UInt64} (hsent : warmup ≤ sent)
    (htimes : times.length ≤ count) : AtLoop sent times.length (State.measureHead times) := by
  unfold State.measureHead
  split
  · next hlt => exact ⟨hsent, hlt⟩
  · next hge => exact le_antisymm htimes (not_lt.mp hge)

/-- A `send_recv` of the measurement loop that has read an answer adds a sample. -/
theorem afterSendRecv_atLoop {s : State} {loop : Loop}
    (h : AtLoop s.sends.length s.times.length (.read loop)) (ret : ℕ) (stop : UInt64) :
    ∃ pc times, s.afterSendRecv loop ret stop = { s with pc, times } ∧
      AtLoop s.sends.length times.length pc ∧ (∀ loop', pc ≠ .read loop') ∧
      times = s.times ++ if loop = .measure ∧ ret ≠ 0 then [stop - s.start] else [] := by
  cases loop with
  | warmup i =>
    -- the result of `send_recv` is not looked at
    obtain ⟨hi, hsent, htimes⟩ := h
    refine ⟨_, _, rfl, ?_, fun loop' => ?_, by simp⟩
    · split
      · next hlt => exact ⟨hlt, hsent, htimes⟩
      · exact atLoop_measureHead (by omega) (by omega)
    · split
      · simp
      · exact measureHead_ne_read _ _
  | measure =>
    obtain ⟨hsent, htimes⟩ := h
    rw [State.afterSendRecv]
    by_cases hret : ret ≠ 0
    · rw [if_pos hret]
      refine ⟨_, _, rfl, atLoop_measureHead hsent.le ?_, measureHead_ne_read _, by simp [hret]⟩
      rw [List.length_append, List.length_singleton]
      exact htimes
    · rw [if_neg hret]
      exact ⟨_, _, rfl, atLoop_measureHead hsent.le htimes.le, measureHead_ne_read _,
        by simp [hret]⟩

/-! ## The steps -/

/-- The invariant of all runs: in a `read()` the last request is waited for, and the measurement
loop has stored when it was sent. -/
structure Reached (s : State) : Prop extends Accounts s where
  atLoop : AtLoop s.sends.length s.times.length s.pc
  current : ∀ loop, s.pc = .read loop → ∀ r ∈ s.receipts, r.request + 1 < s.sends.length
  started : s.pc = .read .measure → s.sends.getD (s.sends.length - 1) 0 = s.start

theorem AtLoop.sent_pos {sent samples : ℕ} {loop : Loop} (h : AtLoop sent samples (.read loop)) :
    0 < sent := by
  cases loop with
  | warmup i => exact h.2.1 ▸ i.succ_pos
  | measure => exact Nat.zero_lt_of_lt h.1

section Step

variable {s s' : State}

theorem reached_init : Reached .init where
  answers := List.Perm.nil
  increasing := List.Pairwise.nil
  answer_le := by simp [State.init]
  request_lt := by simp [State.init]
  times_eq := rfl
  atLoop := ⟨by decide, rfl, rfl⟩
  current := by simp [State.init]
  started := by simp [State.init]

theorem Reached.wrote (h : Reached s) {loop : Loop} (hpc : s.pc = .write loop) (clock : UInt64)
    (ok : Bool) : Reached (s.wrote loop clock ok) := by
  cases ok with
  | false =>
    exact ⟨⟨h.answers, h.increasing, h.answer_le, h.request_lt, h.times_eq⟩, trivial,
      by simp [State.wrote], by simp [State.wrote]⟩
  | true =>
    have hlen : (s.sends ++ [clock]).length = s.sends.length + 1 := List.length_append
    have hatLoop := h.atLoop
    rw [hpc] at hatLoop
    refine ⟨⟨?_, h.increasing, h.answer_le, fun r hr => ?_, ?_⟩, ?_, fun _ _ r hr => ?_, ?_⟩
    · show (s.receipts.map Receipt.answer ++ s.queue ++ (s.unanswered ++ [s.sends.length])).Perm
        (List.range (s.sends ++ [clock]).length)
      rw [hlen, List.range_succ, ← List.append_assoc]
      exact h.answers.append_right _
    · exact hlen ▸ Nat.lt_succ_of_lt (h.request_lt r hr)
    · -- the requests answered so far have been sent before
      show s.times = _
      rw [h.times_eq]
      refine List.map_congr_left fun r hr => ?_
      have hlt := h.request_lt r (List.mem_of_mem_filter hr)
      show interval s.sends r.request r = interval (s.sends ++ [clock]) r.request r
      rw [interval, interval, List.getD_append _ _ _ _ hlt]
    · show AtLoop (s.sends ++ [clock]).length s.times.length (.read loop)
      rw [hlen]
      cases loop with
      | warmup i => exact ⟨hatLoop.1, congrArg (· + 1) hatLoop.2.1, hatLoop.2.2⟩
      | measure => exact ⟨Nat.lt_succ_of_le hatLoop.1, hatLoop.2⟩
    · exact hlen ▸ Nat.succ_lt_succ (h.request_lt r hr)
    · intro hread
      obtain rfl : loop = .measure := Pc.read.inj hread
      show (s.sends ++ [clock]).getD ((s.sends ++ [clock]).length - 1) 0 = clock
      rw [hlen, Nat.add_sub_cancel, List.getD_append_right _ _ _ _ le_rfl, Nat.sub_self]
      rfl

theorem Reached.arrive (h : Reached s) {a : ℕ} (ha : a ∈ s.unanswered) :
    Reached { s with unanswered := s.unanswered.erase a, queue := s.queue ++ [a] } := by
  refine ⟨⟨?_, h.increasing, h.answer_le, h.request_lt, h.times_eq⟩, h.atLoop, h.current,
    h.started⟩
  show (s.receipts.map Receipt.answer ++ (s.queue ++ [a]) ++ s.unanswered.erase a).Perm
    (List.range s.sends.length)
  refine List.Perm.trans ?_ h.answers
  -- the answer goes from the outstanding ones to the end of the queue
  rw [← List.append_assoc, List.append_assoc _ [a]]
  exact (List.perm_cons_erase ha).symm.append_left _

/-- The answer is to a request that has been sent, and the last one is waited for. -/
theorem Reached.read (h : Reached s) {loop : Loop} (hpc : s.pc = .read loop) {a : ℕ}
    {queue : List ℕ} (hqueue : s.queue = a :: queue) (clock : UInt64) :
    Reached ((s.received a queue clock).readReturned loop (.data a) clock) := by
  have hatLoop := h.atLoop
  rw [hpc] at hatLoop
  have hpos := hatLoop.sent_pos
  have hbelow := h.current loop hpc
  have hanswers := h.answers
  rw [hqueue] at hanswers
  have ha : a < s.sends.length := List.mem_range.mp (hanswers.subset (by simp))
  obtain ⟨pc, times, heq, hpc', hidle, htimes⟩ :=
    @afterSendRecv_atLoop (s.received a queue clock) loop hatLoop 1 clock
  show Reached ((s.received a queue clock).afterSendRecv loop 1 clock)
  rw [heq]
  refine ⟨⟨?_, ?_, ?_, ?_, ?_⟩, hpc', fun loop' hread => absurd hread (hidle loop'),
    fun hread => absurd hread (hidle .measure)⟩
  · show ((s.receipts ++ [Receipt.mk (s.sends.length - 1) a clock]).map Receipt.answer ++ queue
      ++ s.unanswered).Perm (List.range s.sends.length)
    rw [List.map_append, List.map_singleton, List.append_assoc (s.receipts.map Receipt.answer)]
    exact hanswers
  · show ((s.receipts ++ [Receipt.mk (s.sends.length - 1) a clock]).map
      Receipt.request).Pairwise (· < ·)
    rw [List.map_append, List.map_singleton]
    refine List.pairwise_append.mpr ⟨h.increasing, List.pairwise_singleton _ _, ?_⟩
    intro n hn m hm
    obtain ⟨r, hr, rfl⟩ := List.mem_map.mp hn
    have hlt := hbelow r hr
    rw [List.mem_singleton.mp hm]
    show r.request < s.sends.length - 1
    omega
  · refine List.forall_mem_append.mpr ⟨h.answer_le, List.forall_mem_singleton.mpr ?_⟩
    exact Nat.le_sub_one_of_lt ha
  · refine List.forall_mem_append.mpr ⟨h.request_lt, List.forall_mem_singleton.mpr ?_⟩
    exact Nat.sub_one_lt_of_lt hpos
  · show times = (measured (s.receipts ++ [Receipt.mk (s.sends.length - 1) a clock])).map _
    rw [htimes, measured, List.filter_append, List.map_append]
    refine congrArg₂ (· ++ ·) h.times_eq ?_
    -- the request waited for tells which loop has sent it
    cases loop with
    | warmup i =>
      have hwarm : ¬ warmup ≤ s.sends.length - 1 := by
        have hi := hatLoop.1
        have hsent := hatLoop.2.1
        omega
      rw [if_neg (by simp), List.filter_cons_of_neg (by simpa using hwarm)]
      rfl
    | measure =>
      have hwarm : warmup ≤ s.sends.length - 1 := Nat.le_sub_one_of_lt hatLoop.1
      have hstart : s.sends.getD (s.sends.length - 1) 0 = s.start := h.started hpc
      rw [if_pos ⟨rfl, Nat.one_ne_zero⟩, List.filter_cons_of_pos (by simpa using hwarm)]
      show [clock - s.start] = [clock - s.sends.getD (s.sends.length - 1) 0]
      rw [hstart]

theorem Reached.timeout (h : Reached s) {loop : Loop} (hpc : s.pc = .read loop) :
    Reached (s.readReturned loop (.error eagain) 0) := by
  have hatLoop := h.atLoop
  rw [hpc] at hatLoop
  obtain ⟨pc, times, heq, hpc', hidle, htimes⟩ := afterSendRecv_atLoop hatLoop 0 0
  rw [readReturned_error, heq]
  obtain rfl : times = s.times := by simpa using htimes
  exact ⟨⟨h.answers, h.increasing, h.answer_le, h.request_lt, h.times_eq⟩, hpc',
    fun loop' hread => absurd hread (hidle loop'), fun hread => absurd hread (hidle .measure)⟩

/-- What the events can do. -/
theorem step_cases {e : Event} (hstep : step s e = some s') :
    (∃ loop clock ok, e = .write clock ok ∧ s.pc = .write loop ∧ s' = s.wrote loop clock ok) ∨
    (∃ a, e = .arrive a ∧ a ∈ s.unanswered ∧
      s' = { s with unanswered := s.unanswered.erase a, queue := s.queue ++ [a] }) ∨
    (∃ loop a queue clock, e = .read clock ∧ s.pc = .read loop ∧ s.queue = a :: queue ∧
      s' = (s.received a queue clock).readReturned loop (.data a) clock) ∨
    (∃ loop, e = .timeout ∧ s.pc = .read loop ∧ s.queue = [] ∧
      s' = s.readReturned loop (.error eagain) 0) := by
  cases e with
  | write clock ok =>
    rw [step] at hstep
    split at hstep
    · next loop hpc => exact .inl ⟨loop, clock, ok, rfl, hpc, (Option.some.inj hstep).symm⟩
    · cases hstep
  | arrive a =>
    rw [step] at hstep
    split at hstep
    · next ha => exact .inr (.inl ⟨a, rfl, ha, (Option.some.inj hstep).symm⟩)
    · cases hstep
  | read clock =>
    rw [step] at hstep
    split at hstep
    · next loop a queue hpc hqueue =>
      exact .inr (.inr (.inl ⟨loop, a, queue, clock, rfl, hpc, hqueue,
        (Option.some.inj hstep).symm⟩))
    · cases hstep
  | timeout =>
    rw [step] at hstep
    split at hstep
    · next loop hpc hqueue =>
      exact .inr (.inr (.inr ⟨loop, rfl, hpc, hqueue, (Option.some.inj hstep).symm⟩))
    · cases hstep

/-- Every event keeps the invariant, on time or not. -/
theorem Reached.step (h : Reached s) {e : Event} (hstep : Netlat.step s e = some s') :
    Reached s' := by
  obtain ⟨loop, clock, ok, -, hpc, rfl⟩ | ⟨a, -, ha, rfl⟩ |
    ⟨loop, a, queue, clock, -, hpc, hq, rfl⟩ | ⟨loop, -, hpc, -, rfl⟩ := step_cases hstep
  · exact h.wrote hpc clock ok
  · exact h.arrive ha
  · exact h.read hpc hq clock
  · exact h.timeout hpc

end Step

theorem reached_of_run {events : List Event} {s s' : State} (h : Reached s)
    (hrun : run events s = some s') : Reached s' := by
  induction events generalizing s with
  | nil =>
    cases hrun
    exact h
  | cons e events ih =>
    obtain ⟨s₁, hstep, hrun⟩ := Option.bind_eq_some_iff.mp hrun
    exact ih (h.step hstep) hrun

/-- **Requests, answers and samples.** In every run, whenever the answers arrive and whichever are
lost: the accounts are right, and when the program has left its loops it has stored `COUNT`
samples. -/
theorem accounts_of_run (events : List Event) (s : State) (hrun : run events .init = some s) :
    Accounts s ∧ (s.pc = .finished → s.times.length = count) := by
  have hreached := reached_of_run reached_init hrun
  refine ⟨hreached.toAccounts, fun hpc => ?_⟩
  have hatLoop := hreached.atLoop
  rw [hpc] at hatLoop
  exact hatLoop

/-- A late answer is read, one is in the queue, and one does not arrive. -/
theorem accounts_of_run_late :
    ∃ s, run (silentWarmup ++ [.arrive 0, .arrive 3, .write 100 true, .read 150]) .init = some s ∧
      s.receipts = [⟨5, 0, 150⟩] ∧ Accounts s :=
  ⟨_, rfl, by decide, (accounts_of_run
    (silentWarmup ++ [.arrive 0, .arrive 3, .write 100 true, .read 150]) _ rfl).1⟩

/-! ## Samples and round trips -/

/-- The reading of the cycle counter that comes with an event. -/
def Event.clock : Event → Option UInt64
  | .write clock _ => some clock
  | .read clock => some clock
  | .arrive _ => none
  | .timeout => none

/-- The readings of the cycle counter. -/
def clocks (events : List Event) : List UInt64 := events.filterMap Event.clock

/-- How long the answers that are read behind the warm-up have taken. -/
def roundTrips (s : State) : List UInt64 :=
  (measured s.receipts).map fun r => interval s.sends r.answer r

/-- The requests have been sent one after the other, before what comes `later`, and no answer is
received before the request waited for has been sent. -/
structure Timed (later : List UInt64) (s : State) : Prop where
  ascending : s.sends.Pairwise (· ≤ ·)
  sends_le : ∀ x ∈ s.sends, ∀ y ∈ later, x ≤ y
  request_le : ∀ r ∈ s.receipts, s.sends.getD r.request 0 ≤ r.stop

section Timed

variable {s s' : State}

theorem Timed.wrote {clock : UInt64} {later : List UInt64} (h : Timed (clock :: later) s)
    (hreached : Reached s) (hclock : ∀ y ∈ later, clock ≤ y) (loop : Loop) (ok : Bool) :
    Timed later (s.wrote loop clock ok) := by
  have hbefore : ∀ x ∈ s.sends, ∀ y ∈ later, x ≤ y := fun x hx y hy =>
    h.sends_le x hx y (List.mem_cons_of_mem _ hy)
  cases ok with
  | false => exact ⟨h.ascending, hbefore, h.request_le⟩
  | true =>
    refine ⟨?_, ?_, fun r hr => ?_⟩
    · refine List.pairwise_append.mpr ⟨h.ascending, List.pairwise_singleton _ _, ?_⟩
      intro x hx y hy
      rw [List.mem_singleton.mp hy]
      exact h.sends_le x hx clock List.mem_cons_self
    · exact List.forall_mem_append.mpr ⟨hbefore, List.forall_mem_singleton.mpr hclock⟩
    · show (s.sends ++ [clock]).getD r.request 0 ≤ r.stop
      rw [List.getD_append _ _ _ _ (hreached.request_lt r hr)]
      exact h.request_le r hr

/-- What the loops do with an answer does not change what has been sent and received. -/
theorem Timed.afterSendRecv {later : List UInt64} (h : Timed later s) (loop : Loop) (ret : ℕ)
    (stop : UInt64) : Timed later (s.afterSendRecv loop ret stop) := by
  obtain ⟨pc, times, heq, -⟩ := afterSendRecv_spec s loop ret stop
  rw [heq]
  exact ⟨h.ascending, h.sends_le, h.request_le⟩

theorem Timed.received {clock : UInt64} {later : List UInt64} (h : Timed (clock :: later) s)
    (hpos : 0 < s.sends.length) (a : ℕ) (queue : List ℕ) :
    Timed later (s.received a queue clock) := by
  refine ⟨h.ascending, fun x hx y hy => h.sends_le x hx y (List.mem_cons_of_mem _ hy), ?_⟩
  refine List.forall_mem_append.mpr ⟨h.request_le, List.forall_mem_singleton.mpr ?_⟩
  have hlast : s.sends.length - 1 < s.sends.length := Nat.sub_one_lt_of_lt hpos
  show s.sends.getD (s.sends.length - 1) 0 ≤ clock
  rw [List.getD_eq_getElem _ _ hlast]
  exact h.sends_le _ (List.getElem_mem hlast) clock List.mem_cons_self

theorem Timed.step {e : Event} {events : List Event} (h : Timed (clocks (e :: events)) s)
    (hreached : Reached s) (hclocks : (clocks (e :: events)).Pairwise (· ≤ ·))
    (hstep : Netlat.step s e = some s') : Timed (clocks events) s' := by
  obtain ⟨loop, clock, ok, rfl, -, rfl⟩ | ⟨a, rfl, -, rfl⟩ |
    ⟨loop, a, queue, clock, rfl, hpc, -, rfl⟩ | ⟨loop, rfl, -, -, rfl⟩ := step_cases hstep
  · exact Timed.wrote h hreached (List.pairwise_cons.mp hclocks).1 loop ok
  · exact ⟨h.ascending, h.sends_le, h.request_le⟩
  · have hatLoop := hreached.atLoop
    rw [hpc] at hatLoop
    exact (Timed.received h hatLoop.sent_pos a queue).afterSendRecv loop 1 clock
  · rw [readReturned_error]
    exact Timed.afterSendRecv h loop 0 0

theorem timed_of_run {events : List Event} (h : Timed (clocks events) s) (hreached : Reached s)
    (hclocks : (clocks events).Pairwise (· ≤ ·)) (hrun : run events s = some s') :
    Timed [] s' := by
  induction events generalizing s with
  | nil =>
    cases hrun
    exact h
  | cons e events ih =>
    obtain ⟨s₁, hstep, hrun⟩ := Option.bind_eq_some_iff.mp hrun
    have hrest : (clocks events).Pairwise (· ≤ ·) :=
      hclocks.sublist (List.Sublist.filterMap _ (List.sublist_cons_self e events))
    exact ih (h.step hreached hclocks hstep) (hreached.step hstep) hrest hrun

/-- An earlier request has been waited for longer. -/
theorem Timed.interval_le {later : List UInt64} (h : Timed later s) {r : Receipt}
    (hr : r ∈ s.receipts) (hanswer : r.answer ≤ r.request) (hrequest : r.request < s.sends.length) :
    interval s.sends r.request r ≤ interval s.sends r.answer r := by
  have hstop := h.request_le r hr
  have hle : s.sends.getD r.answer 0 ≤ s.sends.getD r.request 0 := by
    rcases Nat.eq_or_lt_of_le hanswer with heq | hlt
    · exact UInt64.le_of_eq (by rw [heq])
    · rw [List.getD_eq_getElem _ _ hrequest, List.getD_eq_getElem _ _ (hlt.trans hrequest)]
      exact List.pairwise_iff_getElem.mp h.ascending _ _ _ _ hlt
  rw [UInt64.le_iff_toNat_le] at hstop hle
  rw [interval, interval, UInt64.le_iff_toNat_le,
    UInt64.toNat_sub_of_le _ _ (UInt64.le_iff_toNat_le.mpr hstop),
    UInt64.toNat_sub_of_le _ _ (UInt64.le_iff_toNat_le.mpr (hle.trans hstop))]
  omega

end Timed

/-- **Samples and round trips.** In every run in which the cycle counter does not go backwards,
whenever the answers arrive and whichever are lost: sample by sample, no sample is longer than the
round trip of the answer that was read for it. -/
theorem samples_le_roundTrip (events : List Event) (s : State) (hrun : run events .init = some s)
    (hclocks : (clocks events).Pairwise (· ≤ ·)) : List.Forall₂ (· ≤ ·) s.times (roundTrips s) := by
  have hreached := reached_of_run reached_init hrun
  have hstart : Timed (clocks events) .init :=
    ⟨List.Pairwise.nil, by simp [State.init], by simp [State.init]⟩
  have htimed := timed_of_run hstart reached_init hclocks hrun
  rw [hreached.times_eq, roundTrips, List.forall₂_map_left_iff, List.forall₂_map_right_iff,
    List.forall₂_same]
  intro r hr
  have hmem := List.mem_of_mem_filter hr
  exact htimed.interval_le hmem (hreached.answer_le r hmem) (hreached.request_lt r hmem)

/-- The answer to the request sent at 100 is read 50 cycles after the next one was sent. -/
theorem samples_le_roundTrip_late :
    ∃ s, run (silentWarmup ++
        [.write 100 true, .timeout, .arrive 5, .write 200 true, .read 250]) .init = some s ∧
      s.times = [50] ∧ roundTrips s = [150] ∧ List.Forall₂ (· ≤ ·) s.times (roundTrips s) :=
  ⟨_, rfl, by decide, by decide, samples_le_roundTrip (silentWarmup ++
    [.write 100 true, .timeout, .arrive 5, .write 200 true, .read 250]) _ rfl (by decide)⟩

end BenchLx.Netlat
