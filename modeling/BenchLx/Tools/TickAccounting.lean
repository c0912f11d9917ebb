import BenchLx.Common.Ledger
import BenchLx.Tools.AnalyzeTrace
import Mathlib.Data.List.Chain

/-!
# Where the ticks of a thread go

In a trace whose threads enter and return in turns, the tables of the script say up to which moment
each thread has been charged: `sysc_start` while it is in a system call, `sysc_end` else, whatever
the other threads do in between (`Accounts`). What is printed for a thread is therefore a ledger of
its time (`ticks_conserved`).
-/

namespace BenchLx.AnalyzeTrace

/-! ## Well-formed traces -/

/-- What a line says about a system call of its thread. -/
inductive Mark
  | enter
  | ret
deriving DecidableEq, Repr

/-- The mark of a line, if it has one. -/
def markOf (line : Bytes) : Option Mark :=
  if syscallReturn <:+: line then some .ret
  else if syscallEnter <:+: line then some .enter
  else none

/-- The line of the first instruction of a system call. -/
structure IsFirst (line : Bytes) : Prop where
  read : firstInstruction line ≠ none
  unmarked : markOf line = none
  stays : ¬ switchTo <:+: line

/-- The line of one instruction: a return has a timestamp, and neither an enter nor a return is
something else as well. -/
structure IsInstruction (line : Bytes) : Prop where
  stamped : markOf line = some .ret → stamp line ≠ none
  single : ¬ (syscallReturn <:+: line ∧ syscallEnter <:+: line)
  stays : markOf line ≠ none → ¬ switchTo <:+: line

/-- The marks of a trace with the value of `cur_tid` at each of them. -/
def marksFrom (s : State) : List Bytes → List (Bytes × Mark)
  | [] => []
  | line :: trace =>
    ((markOf line).map fun m => (s.curTid, m)).toList ++ marksFrom (s.step line) trace

/-- The marks at one value of `cur_tid`. -/
def marksAt (tid : Bytes) (trace : List Bytes) : List Mark :=
  ((marksFrom .begin trace).filter fun m => m.1 = tid).map Prod.snd

/-- Each line is that of one instruction, each enter is directly followed by the first instruction
of the system call, and enters and returns alternate for each value of `cur_tid`. -/
structure WellFormed (trace : List Bytes) : Prop where
  lines : ∀ line ∈ trace, IsInstruction line
  followed : trace.IsChain fun line next => markOf line = some .enter → IsFirst next
  alternating : ∀ tid, (marksAt tid trace).IsChain (· ≠ ·)

/-- The ticks that an entry charges to its thread. -/
def Entry.charge (e : Entry) : Bytes × ℤ := (e.tid, e.ticks)

/-- All ticks printed for a thread. -/
def ticksOf (tid : Bytes) (output : List Entry) : ℤ :=
  charged tid (output.map Entry.charge)

/-! ## One line -/

theorem markOf_eq_none {line : Bytes} (h : markOf line = none) :
    ¬ syscallReturn <:+: line ∧ ¬ syscallEnter <:+: line := by
  unfold markOf at h
  split at h
  · cases h
  · next hret =>
    split at h
    · cases h
    · next henter => exact ⟨hret, henter⟩

theorem markOf_eq_enter {line : Bytes} (h : markOf line = some .enter) :
    ¬ syscallReturn <:+: line ∧ syscallEnter <:+: line := by
  unfold markOf at h
  split at h
  · cases h
  · next hret =>
    split at h
    · next henter => exact ⟨hret, henter⟩
    · cases h

theorem markOf_eq_ret {line : Bytes} (h : markOf line = some .ret) :
    syscallReturn <:+: line := by
  unfold markOf at h
  split at h
  · assumption
  · split at h <;> cases h

namespace State

variable {s : State} {line : Bytes}

/-- The last two rules are about the threads only. -/
theorem onSwitch_eq (s : State) (line : Bytes) :
    ∃ oldTid curTid, (s.onSwitchFrom line).onSwitchTo line = { s with oldTid, curTid } ∧
      (¬ switchTo <:+: line → curTid = s.curTid) := by
  unfold onSwitchFrom onSwitchTo
  by_cases hto : switchTo <:+: line
  · rw [if_pos hto]
    split
    · exact ⟨_, _, rfl, fun h => absurd hto h⟩
    · exact ⟨_, _, rfl, fun h => absurd hto h⟩
  · rw [if_neg hto]
    split
    · exact ⟨_, _, rfl, fun _ => rfl⟩
    · exact ⟨_, _, rfl, fun _ => rfl⟩

theorem onFirst_of_not (hnext : s.nextIsSyscall = false) : s.onFirst line = s := by
  rw [onFirst, hnext]
  rfl

/-- A line that says nothing about a system call only switches threads. -/
theorem step_of_unmarked (hnext : s.nextIsSyscall = false) (hmark : markOf line = none) :
    ∃ oldTid curTid, s.step line = { s with oldTid, curTid } := by
  obtain ⟨hret, henter⟩ := markOf_eq_none hmark
  obtain ⟨oldTid, curTid, hswitch, -⟩ := onSwitch_eq s line
  refine ⟨oldTid, curTid, ?_⟩
  rw [step, onReturn, if_neg hret, onFirst_of_not hnext, onEnter, if_neg henter, hswitch]

theorem step_of_enter (hnext : s.nextIsSyscall = false) (hline : IsInstruction line)
    (hmark : markOf line = some .enter) :
    ∃ oldTid, s.step line = { s with oldTid, nextIsSyscall := true } := by
  obtain ⟨hret, henter⟩ := markOf_eq_enter hmark
  obtain ⟨oldTid, curTid, hswitch, hstays⟩ :=
    onSwitch_eq { s with nextIsSyscall := true } line
  refine ⟨oldTid, ?_⟩
  rw [step, onReturn, if_neg hret, onFirst_of_not hnext, onEnter, if_pos henter, hswitch,
    hstays (hline.stays (by rw [hmark]; exact Option.some_ne_none _))]

/-- A return charges the thread for its system call. -/
theorem step_of_return (hnext : s.nextIsSyscall = false) (hline : IsInstruction line)
    (hmark : markOf line = some .ret) :
    ∃ oldTid now, stamp line = some now ∧
      s.step line = { s with
        oldTid
        output := s.output
          ++ [⟨s.curTid, s.curSysc s.curTid, now - s.syscStart s.curTid, none⟩]
        syscEnd := Function.update s.syscEnd s.curTid now } := by
  have hret := markOf_eq_ret hmark
  have henter : ¬ syscallEnter <:+: line := fun henter => hline.single ⟨hret, henter⟩
  obtain ⟨now, hnow⟩ := Option.ne_none_iff_exists'.mp (hline.stamped hmark)
  obtain ⟨oldTid, curTid, hswitch, hstays⟩ := onSwitch_eq (s.onReturn line) line
  have hstays := hstays (hline.stays (by rw [hmark]; exact Option.some_ne_none _))
  have hreturn : s.onReturn line = { s with
      output := s.output ++ [⟨s.curTid, s.curSysc s.curTid, now - s.syscStart s.curTid, none⟩]
      syscEnd := Function.update s.syscEnd s.curTid now } := by
    rw [onReturn, if_pos hret, hnow]
    rfl
  refine ⟨oldTid, now, hnow, ?_⟩
  rw [step, onFirst_of_not (by rw [hreturn]; exact hnext), onEnter, if_neg henter, hswitch, hstays,
    hreturn]

/-- The first instruction of a system call charges the thread for its time in userspace. -/
theorem step_of_first (hnext : s.nextIsSyscall = true) (hfirst : IsFirst line) :
    ∃ oldTid now name, s.step line = { s with
      oldTid
      nextIsSyscall := false
      curSysc := Function.update s.curSysc s.curTid name
      syscStart := Function.update s.syscStart s.curTid now
      output := s.output
        ++ [⟨s.curTid, ascii "userspace", now - s.syscEnd s.curTid, some now⟩] } := by
  obtain ⟨hret, henter⟩ := markOf_eq_none hfirst.unmarked
  obtain ⟨⟨now, name⟩, hread⟩ := Option.ne_none_iff_exists'.mp hfirst.read
  obtain ⟨oldTid, curTid, hswitch, hstays⟩ := onSwitch_eq (s.onFirst line) line
  have hrule : s.onFirst line = { s with
      nextIsSyscall := false
      curSysc := Function.update s.curSysc s.curTid name
      syscStart := Function.update s.syscStart s.curTid now
      output := s.output
        ++ [⟨s.curTid, ascii "userspace", now - s.syscEnd s.curTid, some now⟩] } := by
    rw [onFirst, if_pos hnext, hread]
    rfl
  refine ⟨oldTid, now, name, ?_⟩
  rw [step, onReturn, if_neg hret, onEnter, if_neg henter, hswitch, hstays hfirst.stays, hrule]

/-- Whatever a line says, only the current thread is charged. -/
theorem output_step (s : State) (line : Bytes) :
    ∃ new, (s.step line).output = s.output ++ new ∧ ∀ e ∈ new, e.tid = s.curTid := by
  obtain ⟨oldTid, curTid, hswitch, -⟩ :=
    onSwitch_eq (((s.onReturn line).onFirst line).onEnter line) line
  have henter : ∀ s : State, (s.onEnter line).output = s.output := by
    intro s
    unfold onEnter
    split <;> rfl
  have hfirst : ∀ s : State, ∃ new, (s.onFirst line).output = s.output ++ new ∧
      ∀ e ∈ new, e.tid = s.curTid := by
    intro s
    unfold onFirst
    split
    · exact ⟨_, rfl, by simp⟩
    · exact ⟨[], (List.append_nil _).symm, by simp⟩
  have hreturn : ∃ new, (s.onReturn line).output = s.output ++ new ∧
      (∀ e ∈ new, e.tid = s.curTid) ∧ (s.onReturn line).curTid = s.curTid := by
    unfold onReturn
    split
    · exact ⟨_, rfl, by simp, rfl⟩
    · exact ⟨[], (List.append_nil _).symm, by simp, rfl⟩
  obtain ⟨new₁, hnew₁, htid₁, hcur⟩ := hreturn
  obtain ⟨new₂, hnew₂, htid₂⟩ := hfirst (s.onReturn line)
  refine ⟨new₁ ++ new₂, ?_, fun e he => ?_⟩
  · rw [step, hswitch, ← List.append_assoc, ← hnew₁, ← hnew₂]
    exact henter _
  · rcases List.mem_append.mp he with he | he
    · exact htid₁ e he
    · exact (htid₂ e he).trans hcur

/-- Only the line of an enter leaves the flag set. -/
theorem enter_of_step (h : (s.step line).nextIsSyscall = true) : syscallEnter <:+: line := by
  obtain ⟨oldTid, curTid, hswitch, -⟩ :=
    onSwitch_eq (((s.onReturn line).onFirst line).onEnter line) line
  rw [step, hswitch] at h
  by_contra henter
  simp only [onEnter, if_neg henter] at h
  unfold onFirst at h
  split at h
  · cases h
  · next hnot => exact hnot h

/-- The moment a thread has been charged up to, when this is its last mark. -/
def chargedUpTo (s : State) (tid : Bytes) (last : Option Mark) : ℤ :=
  if last = some .enter ∧ ¬ (s.nextIsSyscall = true ∧ tid = s.curTid) then s.syscStart tid
  else s.syscEnd tid

end State

/-! ## The ledger -/

/-- What has been printed are the entries of the ledger `L`, and the tables say up to which moment
each thread has been charged; `last` is the last mark of each thread. -/
structure Accounts (s : State) (last : Bytes → Option Mark) (L : Ledger Bytes) : Prop where
  entries_eq : s.output.map Entry.charge = L.entries
  upTo_eq : ∀ tid, L.upTo tid = s.chargedUpTo tid (last tid)
  fresh : ∀ tid, last tid = none → s.syscStart tid = s.syscEnd tid
  pending : s.nextIsSyscall = true → last s.curTid = some .enter

section Accounts

variable {s : State} {last : Bytes → Option Mark} {L : Ledger Bytes} {line : Bytes}

theorem accounts_begin : Accounts .begin (fun _ => none) .empty where
  entries_eq := rfl
  upTo_eq := fun _ => rfl
  fresh := fun _ _ => rfl
  pending := fun h => Bool.noConfusion h

theorem Accounts.unmarked (h : Accounts s last L) (hnext : s.nextIsSyscall = false)
    (hmark : markOf line = none) : Accounts (s.step line) last L := by
  obtain ⟨oldTid, curTid, hstep⟩ := State.step_of_unmarked hnext hmark
  rw [hstep]
  refine ⟨h.entries_eq, fun tid => ?_, h.fresh, fun hpending => ?_⟩
  · rw [h.upTo_eq]
    simp only [State.chargedUpTo, hnext, Bool.false_eq_true, false_and]
  · rw [hnext] at hpending
    cases hpending

theorem Accounts.enter (h : Accounts s last L) (hnext : s.nextIsSyscall = false)
    (hline : IsInstruction line) (hmark : markOf line = some .enter)
    (hlast : last s.curTid ≠ some .enter) :
    Accounts (s.step line) (Function.update last s.curTid (some .enter)) L := by
  obtain ⟨oldTid, hstep⟩ := State.step_of_enter hnext hline hmark
  rw [hstep]
  refine ⟨h.entries_eq, fun tid => ?_, fun tid hfresh => ?_, fun _ => Function.update_self ..⟩
  · rw [h.upTo_eq]
    by_cases htid : tid = s.curTid
    · -- not charged for userspace before the first instruction
      subst htid
      simp only [State.chargedUpTo, hlast, false_and, if_false, and_true, not_true, and_false]
    · simp only [State.chargedUpTo, hnext, Function.update_of_ne htid, htid, and_false]
  · by_cases htid : tid = s.curTid
    · subst htid
      rw [Function.update_self] at hfresh
      cases hfresh
    · rw [Function.update_of_ne htid] at hfresh
      exact h.fresh tid hfresh

/-- A charge to the current thread, after which it is not between an enter and the first
instruction. -/
theorem Accounts.charge (h : Accounts s last L) {s' : State} {last' : Bytes → Option Mark} {now : ℤ}
    (hnext : s'.nextIsSyscall = false)
    (houtput : s'.output.map Entry.charge
      = s.output.map Entry.charge ++ [(s.curTid, now - L.upTo s.curTid)])
    (hmarked : last' s.curTid ≠ none)
    (hself : s'.chargedUpTo s.curTid (last' s.curTid) = now)
    (hother : ∀ tid, tid ≠ s.curTid → last' tid = last tid ∧
      s'.syscStart tid = s.syscStart tid ∧ s'.syscEnd tid = s.syscEnd tid) :
    Accounts s' last' (L.charge s.curTid now) := by
  refine ⟨?_, fun tid => ?_, fun tid hfresh => ?_, fun hpending => ?_⟩
  · rw [houtput, h.entries_eq, Ledger.entries_charge]
  · by_cases htid : tid = s.curTid
    · rw [htid, Ledger.upTo_charge_self, hself]
    · obtain ⟨hlast, hstart, hend⟩ := hother tid htid
      rw [Ledger.upTo_charge_of_ne _ htid, h.upTo_eq, hlast]
      simp only [State.chargedUpTo, hnext, htid, hstart, hend, Bool.false_eq_true, and_false,
        false_and]
  · have htid : tid ≠ s.curTid := by
      rintro rfl
      exact hmarked hfresh
    obtain ⟨hlast, hstart, hend⟩ := hother tid htid
    rw [hstart, hend]
    exact h.fresh tid (hlast ▸ hfresh)
  · rw [hnext] at hpending
    cases hpending

theorem Accounts.ret (h : Accounts s last L) (hnext : s.nextIsSyscall = false)
    (hline : IsInstruction line) (hmark : markOf line = some .ret)
    (hlast : last s.curTid ≠ some .ret) :
    ∃ now, stamp line = some now ∧ (s.step line).curTid = s.curTid ∧
      Accounts (s.step line) (Function.update last s.curTid (some .ret))
        (L.charge s.curTid now) := by
  obtain ⟨oldTid, now, hnow, hstep⟩ := State.step_of_return hnext hline hmark
  -- the thread was in the system call, or it has no mark yet
  have hstart : L.upTo s.curTid = s.syscStart s.curTid := by
    rw [h.upTo_eq, State.chargedUpTo, hnext]
    cases hcur : last s.curTid with
    | none =>
      rw [h.fresh _ hcur]
      exact ite_self _
    | some m =>
      cases m with
      | enter => rfl
      | ret => exact absurd hcur hlast
  refine ⟨now, hnow, by rw [hstep], ?_⟩
  rw [hstep]
  apply h.charge
  · exact hnext
  · rw [List.map_append, hstart]
    rfl
  · rw [Function.update_self]
    exact Option.some_ne_none _
  · rw [Function.update_self, State.chargedUpTo]
    exact Function.update_self ..
  · intro tid htid
    exact ⟨Function.update_of_ne htid .., rfl, Function.update_of_ne htid ..⟩

theorem Accounts.first (h : Accounts s last L) (hnext : s.nextIsSyscall = true)
    (hfirst : IsFirst line) : ∃ now, Accounts (s.step line) last (L.charge s.curTid now) := by
  obtain ⟨oldTid, now, name, hstep⟩ := State.step_of_first hnext hfirst
  have hlast := h.pending hnext
  have hend : L.upTo s.curTid = s.syscEnd s.curTid := by
    rw [h.upTo_eq, State.chargedUpTo]
    exact if_neg fun hnot => hnot.2 ⟨hnext, rfl⟩
  refine ⟨now, ?_⟩
  rw [hstep]
  apply h.charge
  · rfl
  · rw [List.map_append, hend]
    rfl
  · rw [hlast]
    exact Option.some_ne_none _
  · rw [hlast, State.chargedUpTo]
    exact Function.update_self ..
  · intro tid htid
    exact ⟨rfl, Function.update_of_ne htid .., rfl⟩

/-- **One line** of a well-formed trace keeps the accounts. -/
theorem Accounts.step (h : Accounts s last L) (hline : IsInstruction line)
    (hfirst : s.nextIsSyscall = true → IsFirst line)
    (halternates : ∀ m, markOf line = some m → last s.curTid ≠ some m) :
    ∃ L', Accounts (s.step line)
      (Function.update last s.curTid ((markOf line).or (last s.curTid))) L' := by
  cases hnext : s.nextIsSyscall with
  | true =>
    obtain ⟨now, h'⟩ := h.first hnext (hfirst hnext)
    rw [(hfirst hnext).unmarked, Option.none_or, Function.update_eq_self]
    exact ⟨_, h'⟩
  | false =>
    cases hmark : markOf line with
    | none =>
      rw [Option.none_or, Function.update_eq_self]
      exact ⟨L, h.unmarked hnext hmark⟩
    | some m =>
      rw [Option.some_or]
      cases m with
      | enter => exact ⟨L, h.enter hnext hline hmark (halternates _ hmark)⟩
      | ret =>
        obtain ⟨now, -, -, h'⟩ := h.ret hnext hline hmark (halternates _ hmark)
        exact ⟨_, h'⟩

end Accounts

/-! ## A whole trace -/

theorem analyze_concat (trace : List Bytes) (line : Bytes) :
    analyze (trace ++ [line]) = (analyze trace).step line :=
  List.foldl_concat ..

theorem marksFrom_append (s : State) (as bs : List Bytes) :
    marksFrom s (as ++ bs) = marksFrom s as ++ marksFrom (as.foldl State.step s) bs := by
  induction as generalizing s with
  | nil => rfl
  | cons line as ih =>
    rw [List.cons_append, marksFrom, ih, marksFrom, List.append_assoc]
    rfl

theorem marksAt_append (tid : Bytes) (as bs : List Bytes) :
    ∃ more, marksAt tid (as ++ bs) = marksAt tid as ++ more := by
  unfold marksAt
  rw [marksFrom_append, List.filter_append, List.map_append]
  exact ⟨_, rfl⟩

theorem marksAt_concat (tid : Bytes) (trace : List Bytes) (line : Bytes) :
    marksAt tid (trace ++ [line]) = marksAt tid trace
      ++ if tid = (analyze trace).curTid then (markOf line).toList else [] := by
  unfold marksAt
  rw [marksFrom_append, List.filter_append, List.map_append]
  congr 1
  show ((((markOf line).map fun m => ((analyze trace).curTid, m)).toList ++ []).filter _).map _ = _
  rw [List.append_nil]
  cases markOf line with
  | none => simp
  | some m =>
    by_cases htid : tid = (analyze trace).curTid
    · simp [htid]
    · simp [htid, Ne.symm htid]

/-- The start of a well-formed trace is well-formed. -/
theorem WellFormed.of_append {as bs : List Bytes} (h : WellFormed (as ++ bs)) :
    WellFormed as where
  lines := fun line hline => h.lines line (List.mem_append_left _ hline)
  followed := h.followed.left_of_append
  alternating := by
    intro tid
    obtain ⟨more, hmore⟩ := marksAt_append tid as bs
    have halternating := h.alternating tid
    rw [hmore] at halternating
    exact halternating.left_of_append

section Concat

variable {trace : List Bytes} {line : Bytes} (h : WellFormed (trace ++ [line]))
include h

/-- Behind an enter comes the first instruction of the system call. -/
theorem WellFormed.isFirst (hnext : (analyze trace).nextIsSyscall = true) : IsFirst line := by
  rcases List.eq_nil_or_concat' trace with rfl | ⟨before, enter, rfl⟩
  · cases hnext
  · rw [analyze_concat] at hnext
    have henter := State.enter_of_step hnext
    have hsingle := (h.lines enter (by simp)).single
    have hmark : markOf enter = some .enter := by
      rw [markOf, if_neg fun hret => hsingle ⟨hret, henter⟩, if_pos henter]
    have hfollowed := (List.isChain_append.mp h.followed).2.2
    exact hfollowed enter (by simp) line (by simp) hmark

/-- A mark differs from the one before it at the same value of `cur_tid`. -/
theorem WellFormed.alternates {m : Mark} (hmark : markOf line = some m) :
    (marksAt (analyze trace).curTid trace).getLast? ≠ some m := by
  intro hlast
  have halternating := h.alternating (analyze trace).curTid
  rw [marksAt_concat, if_pos rfl, hmark] at halternating
  exact (List.isChain_append.mp halternating).2.2 m hlast m rfl rfl

end Concat

/-- The accounts after a well-formed trace. -/
theorem exists_accounts {trace : List Bytes} (h : WellFormed trace) :
    ∃ L, Accounts (analyze trace) (fun tid => (marksAt tid trace).getLast?) L := by
  induction trace using List.reverseRecOn with
  | nil => exact ⟨.empty, accounts_begin⟩
  | append_singleton trace line ih =>
    obtain ⟨L, hL⟩ := ih h.of_append
    obtain ⟨L', hL'⟩ := hL.step (h.lines line (by simp)) h.isFirst fun m => h.alternates
    refine ⟨L', ?_⟩
    rw [analyze_concat]
    convert hL' using 1
    funext tid
    rw [marksAt_concat, List.getLast?_append]
    by_cases htid : tid = (analyze trace).curTid
    · rw [if_pos htid, htid, Function.update_self]
      cases markOf line <;> rfl
    · rw [if_neg htid, Function.update_of_ne htid]
      rfl

/-- **No tick of a thread is lost.** In every well-formed trace, whatever threads it switches
between: each line charges the current thread only, and after each return the ticks printed for the
current thread add up to the timestamp of the line. -/
theorem ticks_conserved (trace : List Bytes) (hwf : WellFormed trace) (before after : List Bytes)
    (line : Bytes) (hsplit : trace = before ++ line :: after) :
    let s := analyze before
    let s' := analyze (before ++ [line])
    (∃ new, s'.output = s.output ++ new ∧ ∀ e ∈ new, e.tid = s.curTid) ∧
      (syscallReturn <:+: line → ∃ now, stamp line = some now ∧ s'.curTid = s.curTid ∧
        ticksOf s'.curTid s'.output = now) := by
  intro s s'
  have hstep : s' = s.step line := analyze_concat before line
  refine ⟨hstep ▸ State.output_step s line, fun hret => ?_⟩
  rw [hsplit, List.append_cons] at hwf
  have hwf := hwf.of_append
  have hmark : markOf line = some .ret := if_pos hret
  have hnext : s.nextIsSyscall = false := by
    by_contra hnext
    have hfirst := hwf.isFirst (by simpa using hnext)
    rw [hfirst.unmarked] at hmark
    cases hmark
  obtain ⟨L, hL⟩ := exists_accounts hwf.of_append
  obtain ⟨now, hnow, htid, hL'⟩ :=
    hL.ret hnext (hwf.lines line (by simp)) hmark (hwf.alternates hmark)
  rw [← hstep] at htid hL'
  refine ⟨now, hnow, htid, ?_⟩
  rw [ticksOf, hL'.entries_eq, htid, Ledger.balanced, Ledger.upTo_charge_self]

/-- Thread 0 enters a system call and gives way to thread `ab`, which returns from one; then thread
0 returns. -/
def switchingTrace : List Bytes :=
  [ascii "5: @ 0xf0 : handle_exception+0x114 : jalr",
   ascii "7: @ 0xa0 : sys_read : addi",
   ascii "9: @ 0xb0 : __switch_to+0x3e : mv A=0xab",
   ascii "12: @ 0xf2 : handle_exception+0x116 : ld",
   ascii "15: @ 0xb0 : __switch_to+0x3e : mv A=0x0"]

/-- The return of thread 0 in `switchingTrace`. -/
theorem ticks_conserved_switching :
    let line := ascii "20: @ 0xf2 : handle_exception+0x116 : ld"
    ∃ now, stamp line = some now ∧
      ticksOf (analyze (switchingTrace ++ [line])).curTid
        (analyze (switchingTrace ++ [line])).output = now := by
  intro line
  have hmarks : marksFrom .begin (switchingTrace ++ [line])
      = [(ascii "0", .enter), (ascii "ab", .ret), (ascii "0", .ret)] := by
    decide +kernel
  have hlines : ∀ l ∈ switchingTrace ++ [line], (markOf l = some .ret → stamp l ≠ none) ∧
      ¬ (syscallReturn <:+: l ∧ syscallEnter <:+: l) ∧
      (markOf l ≠ none → ¬ switchTo <:+: l) := by
    decide +kernel
  have hfollowed : (switchingTrace ++ [line]).IsChain fun l next => markOf l = some .enter →
      firstInstruction next ≠ none ∧ markOf next = none ∧ ¬ switchTo <:+: next := by
    decide +kernel
  have hwf : WellFormed (switchingTrace ++ [line]) := by
    refine ⟨fun l hl => ?_, ?_, fun tid => ?_⟩
    · obtain ⟨hstamped, hsingle, hstays⟩ := hlines l hl
      exact ⟨hstamped, hsingle, hstays⟩
    · refine hfollowed.imp fun l next hnext hmark => ?_
      obtain ⟨hread, hunmarked, hstays⟩ := hnext hmark
      exact ⟨hread, hunmarked, hstays⟩
    · rw [marksAt, hmarks]
      have hne : ascii "0" ≠ ascii "ab" := by decide
      by_cases hzero : ascii "0" = tid
      · subst hzero
        simp [hne.symm]
      · by_cases hab : ascii "ab" = tid
        · subst hab
          simp [hne]
        · simp [hzero, hab]
  obtain ⟨-, hreturn⟩ := ticks_conserved _ hwf switchingTrace [] line rfl
  obtain ⟨now, hnow, -, hticks⟩ := hreturn (by decide +kernel)
  exact ⟨now, hnow, hticks⟩

end BenchLx.AnalyzeTrace
