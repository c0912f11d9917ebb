import BenchLx.Ycsb.Responses
import Mathlib.Data.UInt

/-!
# What the server counts

The executor counts an operation when it is executed, the loop counts it when its response has been
sent. `counts_of_serve` follows both through a run; a run that ends has executed as many
operations as it has answered, and one more exactly when a response failed. The counters are words
of 64 bits, so all of this is modulo `2 ^ 64` (`counters_wrap`).
-/

namespace BenchLx.Ycsb

instance : DecidablePred Sent.Full := fun s => inferInstanceAs (Decidable (s.res = s.data.length))

/-! ## Counters -/

/-- The counter that the executor keeps for an operation; it keeps none for DELETE. -/
def LevelDBExecutor.number (e : LevelDBExecutor) : Operation → UInt64
  | .insert => e.nInsert
  | .delete => 0
  | .read => e.nRead
  | .scan => e.nScan
  | .update => e.nUpdate

/-- The cycles that the executor adds up for an operation. -/
def LevelDBExecutor.cycles (e : LevelDBExecutor) : Operation → UInt64
  | .insert => e.tInsert
  | .delete => 0
  | .read => e.tRead
  | .scan => e.tScan
  | .update => e.tUpdate

section Iteration

variable {H : Type}

/-- The round executed a package. -/
def Iteration.completes (it : Iteration H) : Bool := it.resBytes.isSome

/-- The round executed a package with this operation, or one with none. -/
def Iteration.executes (op : Option Operation) (it : Iteration H) : Bool :=
  it.completes && it.call.pkg.operation = op

/-- The round executed a package and its response was sent in full. -/
def Iteration.answers (it : Iteration H) : Bool := it.completes && it.sent.all fun x => x.Full

/-- The round executed a package and its response failed. -/
def Iteration.failsToAnswer (it : Iteration H) : Bool := it.completes && !it.answers

theorem Iteration.completes_eq (it : Iteration H) :
    (if it.completes then 1 else 0)
      = (if it.answers then 1 else 0) + if it.failsToAnswer then 1 else 0 := by
  cases hcompletes : it.completes <;> cases hanswers : it.answers <;>
    simp_all [answers, failsToAnswer]

/-- The cycles measured for the packages with an operation, round by round. -/
def cyclesOf (op : Operation) (its : List (Iteration H)) (cycles : List Cycles) : List UInt64 :=
  ((its.zip cycles).filter fun r => r.1.executes (some op)).map fun r => r.2.stop - r.2.start

end Iteration

/-- What a counter is after a round and the rest of a run. -/
theorem add_ofNat_countP_cons {α : Type} (n : UInt64) (p : α → Bool) (a : α) (as : List α) :
    n + UInt64.ofNat ((a :: as).countP p)
      = n + UInt64.ofNat ([a].countP p) + UInt64.ofNat (as.countP p) := by
  rw [← List.singleton_append, List.countP_append, UInt64.ofNat_add, UInt64.add_assoc]

theorem sum_cyclesOf_cons {H : Type} (op : Operation) (it : Iteration H)
    (its : List (Iteration H)) (c : Cycles) (cycles : List Cycles) :
    (cyclesOf op (it :: its) (c :: cycles)).sum
      = (cyclesOf op [it] (c :: cycles)).sum + (cyclesOf op its cycles).sum := by
  simp only [cyclesOf, List.zip_cons_cons, List.zip_nil_left, ← List.sum_append, ← List.map_append,
    ← List.filter_append, List.singleton_append]

section Run

variable {H : Type}

/-- The number of executed packages with this operation, or with none. -/
def Run.executed (op : Option Operation) (run : Run H) : ℕ :=
  run.iterations.countP (Iteration.executes op)

/-- The number of executed packages. -/
def Run.completed (run : Run H) : ℕ := run.iterations.countP Iteration.completes

/-- The number of executed packages whose response was sent in full. -/
def Run.answered (run : Run H) : ℕ := run.iterations.countP Iteration.answers

/-- The last round of the run executed a package and its response failed. -/
def Run.responseFailed (run : Run H) : Bool :=
  run.iterations.getLast?.any Iteration.failsToAnswer

end Run

/-! ## One operation -/

/-- An executed package adds one to the counter of its operation, and its cycles. -/
theorem LevelDBExecutor.execute_counts {e e' : LevelDBExecutor} {cycles : Cycles} {pkg : Package}
    {n : UInt64} (h : e.execute cycles pkg = .ok (n, e')) {op : Operation} (hop : op ≠ .delete) :
    e'.number op = e.number op + (if pkg.operation = some op then 1 else 0) ∧
      e'.cycles op
        = e.cycles op + (if pkg.operation = some op then cycles.stop - cycles.start else 0) := by
  unfold execute at h
  cases hpkg : pkg.operation with
  | none =>
    rw [hpkg] at h
    cases h
    simp
  | some op' =>
    rw [hpkg] at h
    cases op' with
    | scan =>
      obtain ⟨vals, -, h⟩ := bind_eq_ok.mp h
      cases h
      cases op <;> simp [number, LevelDBExecutor.cycles]
    | delete =>
      cases h
      simp [hop.symm]
    | insert | read | update =>
      cases h
      cases op <;> simp [number, LevelDBExecutor.cycles]

/-! ## One round -/

namespace Server

variable {H : Type} {hdl : OpHandler H}

section Round

variable {c : Cycles} {s : Server H} {round : Round H}

/-- What a round adds to the counters of the executor. -/
theorem Iterates.counts (hround : Iterates hdl c s round) {op : Operation} (hop : op ≠ .delete)
    (cycles : List Cycles) :
    round.server.exec.number op = s.exec.number op
        + UInt64.ofNat (round.iteration.toList.countP (Iteration.executes (some op))) ∧
      round.server.exec.cycles op
        = s.exec.cycles op + (cyclesOf op round.iteration.toList (c :: cycles)).sum := by
  cases hround with
  | blocked => simp [cyclesOf]
  | stop | incomplete | threw =>
    simp [cyclesOf, Iteration.executes, Iteration.completes, Iteration.resBytes]
  | unanswered _ hexec | answered _ hexec =>
    obtain ⟨hnumber, hcycles⟩ := LevelDBExecutor.execute_counts hexec hop
    rw [hnumber, hcycles]
    split <;> simp_all [cyclesOf, Iteration.executes, Iteration.completes, Iteration.resBytes]

/-- The loop counts the rounds that answer. -/
theorem Iterates.opcounter_eq (hround : Iterates hdl c s round) :
    round.server.opcounter
      = s.opcounter + UInt64.ofNat (round.iteration.toList.countP Iteration.answers) := by
  cases hround with
  | blocked => simp
  | stop | incomplete | threw => simp [Iteration.answers, Iteration.completes, Iteration.resBytes]
  | unanswered _ _ hresponse hok | answered _ _ hresponse hok =>
    subst hresponse
    have hall := (respond_sends hdl _ _).ok_iff.symm.trans (by rw [hok])
    simp [Iteration.answers, Iteration.completes, Iteration.resBytes, hall]

/-- A round whose response fails is the last one. -/
theorem Iterates.ended_of_fails (hround : Iterates hdl c s round) {it : Iteration H}
    (hit : round.iteration = some it) (hfails : it.failsToAnswer = true) :
    round.status = .ended := by
  rcases sends_of_iterates hround hit with ⟨hnone, -⟩ | ⟨n, ok, hn, hsends, hstatus⟩
  · simp [Iteration.failsToAnswer, Iteration.completes, hnone] at hfails
  · have hok : ok = false := by
      rw [← Bool.not_eq_true, hsends.ok_iff]
      simpa [Iteration.failsToAnswer, Iteration.answers, Iteration.completes, hn] using hfails
    rw [hstatus, hok]
    rfl

end Round

/-! ## A whole run -/

/-- The counters of the executor after a run. -/
theorem counts_of_serve (hdl : OpHandler H) (cycles : List Cycles) (s : Server H) {op : Operation}
    (hop : op ≠ .delete) :
    (s.serve hdl cycles).server.exec.number op
        = s.exec.number op + UInt64.ofNat ((s.serve hdl cycles).executed (some op)) ∧
      (s.serve hdl cycles).server.exec.cycles op
        = s.exec.cycles op + (cyclesOf op (s.serve hdl cycles).iterations cycles).sum := by
  apply serve_induct (P := fun cycles (s : Server H) run =>
    run.server.exec.number op = s.exec.number op + UInt64.ofNat (run.executed (some op)) ∧
      run.server.exec.cycles op
        = s.exec.cycles op + (cyclesOf op run.iterations cycles).sum)
  · intro s
    simp [Run.executed, cyclesOf]
  · intro c cycles s round hround _
    exact hround.counts hop cycles
  · intro c cycles s it s' run hround ih
    obtain ⟨hnumber, hcycles⟩ := hround.counts hop cycles
    simp only [Option.toList_some, Run.executed] at hnumber hcycles ih ⊢
    constructor
    · rw [ih.1, hnumber, add_ofNat_countP_cons _ _ it run.iterations]
    · rw [ih.2, hcycles, sum_cyclesOf_cons op it run.iterations, UInt64.add_assoc]

/-- The counter of the loop after a run. -/
theorem opcounter_of_serve (hdl : OpHandler H) (cycles : List Cycles) (s : Server H) :
    (s.serve hdl cycles).server.opcounter
      = s.opcounter + UInt64.ofNat (s.serve hdl cycles).answered := by
  apply serve_induct (P := fun _ (s : Server H) run =>
    run.server.opcounter = s.opcounter + UInt64.ofNat run.answered)
  · intro s
    simp [Run.answered]
  · intro c cycles s round hround _
    exact hround.opcounter_eq
  · intro c cycles s it s' run hround ih
    have hround := hround.opcounter_eq
    simp only [Option.toList_some, Run.answered] at hround ih ⊢
    rw [ih, hround, add_ofNat_countP_cons _ _ it run.iterations]

/-- What a run executes it answers, but for the last package when the response to it fails. -/
theorem completed_of_serve (hdl : OpHandler H) (cycles : List Cycles) (s : Server H) :
    (s.serve hdl cycles).completed = (s.serve hdl cycles).answered
        + (if (s.serve hdl cycles).responseFailed then 1 else 0) ∧
      ((s.serve hdl cycles).responseFailed = true → (s.serve hdl cycles).status = .ended) := by
  apply serve_induct (P := fun _ (s : Server H) run =>
    run.completed = run.answered + (if run.responseFailed then 1 else 0) ∧
      (run.responseFailed = true → run.status = .ended))
  · intro s
    simp [Run.answered, Run.completed, Run.responseFailed]
  · intro c cycles s round hround hrun
    cases hit : round.iteration with
    | none => simp [Run.answered, Run.completed, Run.responseFailed]
    | some it =>
      refine ⟨?_, hround.ended_of_fails hit⟩
      simp only [Run.answered, Run.completed, Run.responseFailed, Option.toList_some,
        List.countP_singleton, List.getLast?_singleton, Option.any_some]
      exact it.completes_eq
  · intro c cycles s it s' run hround ih
    have hanswers : it.failsToAnswer = false := by
      by_contra hfails
      cases hround.ended_of_fails rfl (by simpa using hfails)
    have hlast : (it :: run.iterations).getLast?.any Iteration.failsToAnswer
        = run.responseFailed := by
      rw [List.getLast?_cons, Run.responseFailed]
      cases run.iterations.getLast? with
      | none => exact hanswers
      | some last => rfl
    have hit := it.completes_eq
    rw [hanswers, if_neg Bool.false_ne_true, Nat.add_zero] at hit
    refine ⟨?_, fun hfails => ih.2 (by rwa [← hlast])⟩
    have ih := ih.1
    rw [Run.completed, Run.answered] at ih ⊢
    rw [List.countP_cons, List.countP_cons, ih, hit, ← hlast, Nat.add_right_comm]
    rfl

end Server

/-- Every executed package has an operation that is counted, is a DELETE or has none. -/
theorem Run.completed_eq {H : Type} (run : Run H) :
    run.completed = run.executed (some .insert) + run.executed (some .read)
      + run.executed (some .scan) + run.executed (some .update)
      + (run.executed (some .delete) + run.executed none) := by
  simp only [completed, executed]
  induction run.iterations with
  | nil => rfl
  | cons it its ih =>
    simp only [List.countP_cons, ih]
    by_cases hcompletes : it.completes = true
    · rcases hop : it.call.pkg.operation with _ | op
      · simp [Iteration.executes, hcompletes, hop]
        omega
      · cases op <;> simp [Iteration.executes, hcompletes, hop] <;> omega
    · simp [Iteration.executes, hcompletes]

/-- **What the server counts.** In every run of the loop, whatever the packages and the outcomes of
the sends are, and modulo `2 ^ 64`: the executor has counted the executed packages of each of its
operations and added up the cycles of exactly those, `opcounter` is the number of executed packages
whose response was sent in full, and the operations counted, those that are answered but not
counted and `opcounter` differ by one exactly when the loop ended because a response failed. Below
`2 ^ 64` packages the counters are the numbers themselves. -/
theorem serve_counts {H : Type} (hdl : OpHandler H) (h : H) (db : DB) (cycles : List Cycles) :
    let run := (Server.start hdl h db).serve hdl cycles
    let exec := run.server.exec
    (exec.nInsert = UInt64.ofNat (run.executed (some .insert)) ∧
      exec.nRead = UInt64.ofNat (run.executed (some .read)) ∧
      exec.nScan = UInt64.ofNat (run.executed (some .scan)) ∧
      exec.nUpdate = UInt64.ofNat (run.executed (some .update)) ∧
      run.server.opcounter = UInt64.ofNat run.answered) ∧
    (exec.tInsert = (cyclesOf .insert run.iterations cycles).sum ∧
      exec.tRead = (cyclesOf .read run.iterations cycles).sum ∧
      exec.tScan = (cyclesOf .scan run.iterations cycles).sum ∧
      exec.tUpdate = (cyclesOf .update run.iterations cycles).sum) ∧
    exec.nInsert + exec.nRead + exec.nScan + exec.nUpdate
        + UInt64.ofNat (run.executed (some .delete) + run.executed none)
      = run.server.opcounter + (if run.responseFailed then 1 else 0) ∧
    (run.responseFailed = true → run.status = .ended) ∧
    (run.completed < 2 ^ 64 →
      exec.nInsert.toNat = run.executed (some .insert) ∧
      exec.nRead.toNat = run.executed (some .read) ∧
      exec.nScan.toNat = run.executed (some .scan) ∧
      exec.nUpdate.toNat = run.executed (some .update) ∧
      run.server.opcounter.toNat = run.answered ∧
      exec.nInsert.toNat + exec.nRead.toNat + exec.nScan.toNat + exec.nUpdate.toNat
          + (run.executed (some .delete) + run.executed none)
        = run.server.opcounter.toNat + (if run.responseFailed then 1 else 0)) := by
  intro run exec
  have hcounts : ∀ op : Operation, op ≠ .delete →
      exec.number op = UInt64.ofNat (run.executed (some op)) ∧
        exec.cycles op = (cyclesOf op run.iterations cycles).sum := by
    intro op hop
    obtain ⟨hnumber, hcycles⟩ :=
      Server.counts_of_serve hdl cycles (Server.start hdl h db) hop
    cases op with
    | delete => exact absurd rfl hop
    | insert | read | scan | update =>
      exact ⟨hnumber.trans (UInt64.zero_add _), hcycles.trans (UInt64.zero_add _)⟩
  obtain ⟨hinsert, htinsert⟩ := hcounts .insert (by decide)
  obtain ⟨hread, htread⟩ := hcounts .read (by decide)
  obtain ⟨hscan, htscan⟩ := hcounts .scan (by decide)
  obtain ⟨hupdate, htupdate⟩ := hcounts .update (by decide)
  have hopcounter : run.server.opcounter = UInt64.ofNat run.answered :=
    (Server.opcounter_of_serve hdl cycles _).trans (UInt64.zero_add _)
  obtain ⟨hcompleted, hfailed⟩ :=
    Server.completed_of_serve hdl cycles (Server.start hdl h db)
  have hsplit := run.completed_eq.symm.trans hcompleted
  simp only [LevelDBExecutor.number] at hinsert hread hscan hupdate
  refine ⟨⟨hinsert, hread, hscan, hupdate, hopcounter⟩, ⟨htinsert, htread, htscan, htupdate⟩, ?_,
    hfailed, fun hlt => ?_⟩
  · rw [hinsert, hread, hscan, hupdate, hopcounter, ← UInt64.ofNat_add, ← UInt64.ofNat_add,
      ← UInt64.ofNat_add, ← UInt64.ofNat_add, hsplit, UInt64.ofNat_add]
    split <;> rfl
  · have hle := run.completed_eq
    have hanswered : run.answered ≤ run.completed := hcompleted ▸ Nat.le_add_right _ _
    have hword : ∀ n ≤ run.completed, (UInt64.ofNat n).toNat = n :=
      fun n hle => UInt64.toNat_ofNat_of_lt' (hle.trans_lt hlt)
    rw [hinsert, hread, hscan, hupdate, hopcounter, hword _ (by omega), hword _ (by omega),
      hword _ (by omega), hword _ (by omega), hword _ hanswered]
    exact ⟨rfl, rfl, rfl, rfl, rfl, hsplit⟩

/-! ## The counters wrap -/

/-- A connection over which `n` packages arrive, all of them INSERT, and which sends everything. -/
def insertHandler : OpHandler ℕ where
  receive n pkg :=
    match n with
    | 0 => .ok (.stop, pkg, 0)
    | n + 1 => .ok (.ready, { pkg with op := 1 }, n)
  send n data := (some (Fin.last data.length), n)
  reset n := n

theorem respond_ok_of_full {H : Type} {hdl : OpHandler H}
    (hfull : ∀ h data, (hdl.send h data).1.toInt = data.length) (h : H) (bytes : UInt64) :
    (respond hdl h bytes).ok = true := by
  have hloop : ∀ n h, (respondLoop hdl h n).ok = true := by
    intro n
    induction n using Nat.strong_induction_on with
    | _ n ih =>
      intro h
      by_cases hpos : 0 < n
      · obtain ⟨amount, hamount, -, hloop⟩ := respondLoop_of_pos hdl h hpos
        rw [hloop]
        simp only
        rw [if_neg (by rw [hfull, List.length_replicate]; simp)]
        exact ih _ (by omega) _
      · rw [respondLoop, dif_neg hpos]
  rw [respond]
  simp only
  rw [if_neg (by rw [hfull, length_toBytesBE, toSize_natCast (by decide)]; simp)]
  exact hloop _ _

theorem insertHandler_round (c : Cycles) {n : ℕ} {s : Server ℕ} (hs : s.handler = n + 1) :
    ∃ it s', s.iterate insertHandler c = ⟨some it, s', .running⟩ ∧ s'.handler = n ∧
      it.executes (some .insert) = true := by
  have hready : insertHandler.receive s.handler Package.fresh
      = .ok (.ready, { Package.fresh with op := 1 }, n) := by
    rw [hs]
    rfl
  have hround := Server.iterates_iterate insertHandler c s
  generalize s.iterate insertHandler c = round at hround ⊢
  cases hround with
  | blocked hreceive | stop hreceive | incomplete hreceive =>
    rw [hready] at hreceive
    cases hreceive
  | threw hreceive hexec =>
    rw [hready] at hreceive
    cases hreceive
    cases hexec
  | unanswered _ _ hresponse hok =>
    rw [← hresponse, respond_ok_of_full fun h data => rfl] at hok
    cases hok
  | answered hreceive _ hresponse =>
    rw [hready] at hreceive
    cases hreceive
    subst hresponse
    exact ⟨_, _, rfl, respond_preserves insertHandler (P := fun m => m = n)
      (fun m data hm => hm) rfl _, rfl⟩

theorem insertHandler_executed (c : Cycles) (n : ℕ) {s : Server ℕ} (hs : s.handler = n) :
    (s.serve insertHandler (List.replicate (n + 1) c)).status = .ended ∧
      (s.serve insertHandler (List.replicate (n + 1) c)).executed (some .insert) = n := by
  induction n generalizing s with
  | zero =>
    have hround : s.iterate insertHandler c
        = ⟨some ⟨⟨0, .stop, .fresh, 0⟩, none, []⟩, { s with handler := 0 }, .ended⟩ := by
      rw [Server.iterate, hs]
      rfl
    have hended : Status.ended ≠ .running := by decide
    rw [List.replicate_succ, Server.serve_cons_of_ne_running hround hended]
    exact ⟨rfl, rfl⟩
  | succ n ih =>
    obtain ⟨it, s', hround, hhandler, hinsert⟩ := insertHandler_round c hs
    obtain ⟨hstatus, hexecuted⟩ := ih hhandler
    rw [List.replicate_succ, Server.serve_cons_of_running hround]
    refine ⟨hstatus, ?_⟩
    rw [Run.executed, List.countP_cons_of_pos hinsert, ← Run.executed, hexecuted]

theorem exists_insertHandler_run (n : ℕ) :
    ∃ cycles, ∃ run : Run ℕ,
      (Server.start insertHandler n SortedMap.empty).serve insertHandler cycles = run ∧
      run.status = .ended ∧ run.executed (some .insert) = n ∧
      run.server.exec.nInsert = UInt64.ofNat n := by
  obtain ⟨hended, hexecuted⟩ :=
    insertHandler_executed ⟨0, 0⟩ n (s := Server.start insertHandler n SortedMap.empty) rfl
  refine ⟨_, _, rfl, hended, hexecuted, ?_⟩
  have hinsert : Operation.insert ≠ .delete := by decide
  have hnumber := (Server.counts_of_serve insertHandler (List.replicate (n + 1) ⟨0, 0⟩)
    (Server.start insertHandler n SortedMap.empty) hinsert).1
  rw [hexecuted] at hnumber
  exact hnumber.trans (UInt64.zero_add _)

/-- The numbers themselves are not counted: after `2 ^ 64` INSERT packages `_n_insert` is 0. -/
theorem counters_wrap :
    ¬ ∀ (hdl : OpHandler ℕ) (h : ℕ) (db : DB) (cycles : List Cycles),
      ((Server.start hdl h db).serve hdl cycles).status = .ended →
        ((Server.start hdl h db).serve hdl cycles).server.exec.nInsert.toNat
          = ((Server.start hdl h db).serve hdl cycles).executed (some .insert) := by
  intro hall
  obtain ⟨cycles, run, hrun, hended, hexecuted, hnumber⟩ := exists_insertHandler_run (2 ^ 64)
  have heq := hall insertHandler (2 ^ 64) SortedMap.empty cycles
  rw [hrun, hexecuted, hnumber] at heq
  have heq := heq hended
  exact absurd heq (by decide)

end BenchLx.Ycsb
