import BenchLx.Ycsb.Accounting
import BenchLx.Ycsb.RecordStore
import Mathlib.Data.List.ReduceOption

/-!
# What the server is for

Seen from outside the server takes packages, one after the other, executes each on the store and
answers with the size of the result; a package whose execution throws is the last one (`service`).
What a handler has to do for this is `Feeds`: its calls of `receive` go through a list of packages
and rejected messages. `serve_refines` says that the loop over such a handler is the service at
every point of every run, whatever the sends do, and `serve_completes` that the whole list is served
when the sends of the responses are not cut short.
-/

namespace BenchLx.Ycsb

/-! ## The service -/

/-- The size of the result of a package on a store. -/
def resultOf (db : DB) (pkg : Package) : Except Stop UInt64 :=
  match pkg.operation with
  | some .insert => .ok 4
  | some .update => .ok 4
  | some .delete => .ok 4
  | some .read => .ok (LevelDBExecutor.resultBytes (execRead db pkg))
  | some .scan => (execScan db pkg).map LevelDBExecutor.resultBytes
  | none => .ok 0

/-- The store after a package. -/
def storeAfter (db : DB) (pkg : Package) : DB :=
  db.putAll (pkg.writes.map storedWrite)

/-- What a list of packages leads to: the store, the packages answered with the sizes of their
results, and why it went no further. -/
structure Served where
  store : DB
  log : List (Package × UInt64)
  error : Option Stop

/-- Serve the packages one after the other. -/
def service (db : DB) : List Package → Served
  | [] => { store := db, log := [], error := none }
  | pkg :: pkgs =>
    match resultOf db pkg with
    | .error why => { store := db, log := [], error := some why }
    | .ok n =>
      let rest := service (storeAfter db pkg) pkgs
      { rest with log := (pkg, n) :: rest.log }

/-- What follows an error makes no difference. -/
theorem service_append_of_error {db : DB} {done : List Package} {why : Stop}
    (h : (service db done).error = some why) (rest : List Package) :
    service db (done ++ rest) = service db done := by
  induction done generalizing db with
  | nil => cases h
  | cons pkg done ih =>
    simp only [List.cons_append, service] at h ⊢
    cases hresult : resultOf db pkg with
    | error why' => rfl
    | ok n =>
      rw [hresult] at h
      simp only at h ⊢
      rw [ih h]

/-- One execution is one step of the service. -/
theorem LevelDBExecutor.execute_ok {e e' : LevelDBExecutor} {cycles : Cycles} {pkg : Package}
    {n : UInt64} (h : e.execute cycles pkg = .ok (n, e')) :
    resultOf e.db pkg = .ok n ∧ e'.db = storeAfter e.db pkg := by
  refine ⟨?_, execute_db h⟩
  rw [execute] at h
  rw [resultOf]
  cases hop : pkg.operation with
  | none =>
    rw [hop] at h
    cases h
    rfl
  | some op =>
    rw [hop] at h
    cases op with
    | scan =>
      obtain ⟨vals, hvals, h⟩ := bind_eq_ok.mp h
      cases h
      rw [hvals]
      rfl
    | insert | update | read | delete =>
      cases h
      rfl

theorem LevelDBExecutor.execute_error {e : LevelDBExecutor} {cycles : Cycles} {pkg : Package}
    {why : Stop} (h : e.execute cycles pkg = .error why) : resultOf e.db pkg = .error why := by
  rw [execute] at h
  rw [resultOf]
  cases hop : pkg.operation with
  | none =>
    rw [hop] at h
    cases h
  | some op =>
    rw [hop] at h
    cases op with
    | scan =>
      cases hscan : execScan e.db pkg with
      | error why' =>
        rw [hscan] at h
        cases h
        rfl
      | ok vals =>
        rw [hscan] at h
        cases h
    | insert | update | read | delete => cases h

/-! ## Runs of the loop -/

section Log

variable {H : Type}

/-- The package that a round answered, with the size of its result. -/
def Iteration.logged (it : Iteration H) : Option (Package × UInt64) :=
  it.resBytes.map fun n => (it.call.pkg, n)

/-- The packages that a run executed, with the sizes of their results. -/
def Run.log (run : Run H) : List (Package × UInt64) :=
  run.iterations.filterMap Iteration.logged

theorem Run.results_eq (run : Run H) : run.results = run.log.map Prod.snd := by
  rw [results, log, List.map_filterMap]
  congr 1
  funext it
  simp [Iteration.logged, Function.comp_def]

theorem Run.executed_eq (run : Run H) (op : Option Operation) :
    run.executed op = run.log.countP fun e => e.1.operation = op := by
  rw [executed, log]
  induction run.iterations with
  | nil => rfl
  | cons it its ih =>
    rw [List.countP_cons, ih, List.filterMap_cons]
    cases hres : it.resBytes <;>
      simp [Iteration.executes, Iteration.completes, Iteration.logged, hres, List.countP_cons]

end Log

/-- Why a run went no further. -/
def Status.why : Status → Option Stop
  | .stopped why => some why
  | _ => none

/-- What a run has served. -/
def Run.served {H : Type} (run : Run H) : Served :=
  { store := run.server.exec.db, log := run.log, error := run.status.why }

/-- **Every run is one of the service**, over any handler: it has served the packages that it
logged, and each of them came out of a call of `receive`. -/
theorem serve_log {H : Type} (hdl : OpHandler H) (cycles : List Cycles) (s : Server H) :
    let run := s.serve hdl cycles
    service s.exec.db (run.log.map Prod.fst)
        = { store := run.server.exec.db, log := run.log, error := none } ∧
      ∀ e ∈ run.log, ∃ h h', hdl.receive h Package.fresh = .ok (.ready, e.1, h') := by
  have hone : ∀ {e e' : LevelDBExecutor} {cycles : Cycles} {pkg : Package} {n : UInt64},
      e.execute cycles pkg = .ok (n, e') →
        service e.db [pkg] = { store := e'.db, log := [(pkg, n)], error := none } := by
    intro e e' cycles pkg n hexec
    obtain ⟨hresult, hdb⟩ := LevelDBExecutor.execute_ok hexec
    simp only [service, hresult, hdb]
  apply Server.serve_induct (P := fun _ (s : Server H) run =>
    service s.exec.db (run.log.map Prod.fst)
        = { store := run.server.exec.db, log := run.log, error := none } ∧
      ∀ e ∈ run.log, ∃ h h', hdl.receive h Package.fresh = .ok (.ready, e.1, h'))
  · exact fun s => ⟨rfl, fun e he => (by cases he)⟩
  · intro c cycles s round hround hrun
    cases hround with
    | blocked | stop | incomplete | threw => exact ⟨rfl, fun e he => (by cases he)⟩
    | unanswered hreceive hexec | answered hreceive hexec =>
      refine ⟨hone hexec, fun e he => ?_⟩
      obtain rfl := List.mem_singleton.mp he
      exact ⟨_, _, hreceive⟩
  · intro c cycles s it s' run hround ⟨hserved, hreceived⟩
    cases hround with
    | incomplete => exact ⟨hserved, hreceived⟩
    | @answered pkg h n exec response hreceive hexec hresponse hok =>
      refine ⟨?_, fun e he => ?_⟩
      · obtain ⟨hresult, hdb⟩ := LevelDBExecutor.execute_ok hexec
        simp only [Run.log, List.filterMap_cons, Iteration.logged, Iteration.resBytes,
          Option.map_some, List.map_cons, service, hresult, ← hdb]
        rw [Run.log] at hserved
        simp only [hserved]
      · rw [Run.log, List.filterMap_cons] at he
        rcases List.mem_cons.mp he with rfl | he
        · exact ⟨_, _, hreceive⟩
        · exact hreceived e he

/-! ## Handlers that feed the loop -/

/-- `R h ps` says that the calls of `receive` to come on `h` go through `ps`, where `none` is a
message that is rejected, and then stop. Sending does not change that. -/
structure Feeds {H : Type} (hdl : OpHandler H) (R : H → List (Option Package) → Prop) : Prop where
  stop : ∀ {h}, R h [] → ∃ pkg h', hdl.receive h Package.fresh = .ok (.stop, pkg, h')
  rejected : ∀ {h ps}, R h (none :: ps) →
    ∃ pkg h', hdl.receive h Package.fresh = .ok (.incomplete, pkg, h') ∧ R h' ps
  accepted : ∀ {h pkg ps}, R h (some pkg :: ps) →
    ∃ h', hdl.receive h Package.fresh = .ok (.ready, pkg, h') ∧ R h' ps
  send : ∀ {h ps} (data : Bytes), R h ps → R (hdl.send h data).2 ps

/-- What a run over the packages `ps` has served: the first ones, all of them when the loop has
ended and no send was short, and with one round more than there are calls to come the loop does not
go on. -/
structure ServesPrefix {H : Type} (db : DB) (ps : List (Option Package)) (rounds : ℕ)
    (run : Run H) : Prop where
  served : ∃ done rest, ps.reduceOption = done ++ rest ∧ service db done = run.served ∧
    (run.status = .ended → rest = [] ∨ ∃ x ∈ run.sent, ¬ x.Full)
  halts : ps.length < rounds → run.status ≠ .running

namespace Feeds

variable {H : Type} {hdl : OpHandler H} {R : H → List (Option Package) → Prop} {h : H}
  {ps : List (Option Package)}

/-- The call that is next. -/
theorem receive_cases (hf : Feeds hdl R) (hR : R h ps) {out : Except Stop (Result × Package × H)}
    (hreceive : hdl.receive h Package.fresh = out) :
    (ps = [] ∧ ∃ pkg h', out = .ok (.stop, pkg, h')) ∨
    (∃ ps' pkg h', ps = none :: ps' ∧ out = .ok (.incomplete, pkg, h') ∧ R h' ps') ∨
    ∃ ps' pkg h', ps = some pkg :: ps' ∧ out = .ok (.ready, pkg, h') ∧ R h' ps' := by
  subst hreceive
  match ps, hR with
  | [], hR => exact .inl ⟨rfl, hf.stop hR⟩
  | none :: ps', hR =>
    obtain ⟨pkg, h', hreceive, hR'⟩ := hf.rejected hR
    exact .inr (.inl ⟨ps', pkg, h', rfl, hreceive, hR'⟩)
  | some pkg :: ps', hR =>
    obtain ⟨h', hreceive, hR'⟩ := hf.accepted hR
    exact .inr (.inr ⟨ps', pkg, h', rfl, hreceive, hR'⟩)

theorem respond (hf : Feeds hdl R) (hR : R h ps) (bytes : UInt64) :
    R (respond hdl h bytes).handler ps :=
  respond_preserves hdl (P := fun h => R h ps) (fun _ data hP => hf.send data hP) hR bytes

end Feeds

section Serve

variable {H : Type} {hdl : OpHandler H} {R : H → List (Option Package) → Prop}

/-- **The loop is the service.** At every point of every run, whatever becomes of the sends, the
loop has served the first ones of the packages that the handler delivers. -/
theorem serve_refines (hf : Feeds hdl R) (cycles : List Cycles) (s : Server H)
    {ps : List (Option Package)} (hR : R s.handler ps) :
    ServesPrefix s.exec.db ps cycles.length (s.serve hdl cycles) := by
  revert ps
  apply Server.serve_induct (P := fun cycles (s : Server H) run =>
    ∀ {ps : List (Option Package)}, R s.handler ps → ServesPrefix s.exec.db ps cycles.length run)
  · intro s ps hR
    exact ⟨⟨[], ps.reduceOption, rfl, rfl, fun h => nomatch h⟩, fun h => by simp at h⟩
  · intro c cycles s round hround hrun ps hR
    constructor
    case halts => exact fun _ => hrun
    cases hround with
    | blocked hreceive =>
      rcases hf.receive_cases hR hreceive with ⟨-, _, _, hout⟩ | ⟨_, _, _, -, hout, -⟩ |
        ⟨_, _, _, -, hout, -⟩ <;> cases hout
    | stop hreceive =>
      rcases hf.receive_cases hR hreceive with ⟨rfl, -⟩ | ⟨_, _, _, -, hout, -⟩ |
        ⟨_, _, _, -, hout, -⟩
      · exact ⟨[], [], rfl, rfl, fun _ => .inl rfl⟩
      · cases hout
      · cases hout
    | incomplete => exact absurd rfl hrun
    | @threw pkg h why hreceive hexec =>
      rcases hf.receive_cases hR hreceive with ⟨-, _, _, hout⟩ | ⟨_, _, _, -, hout, -⟩ |
        ⟨ps', _, _, rfl, hout, -⟩
      · cases hout
      · cases hout
      · cases hout
        refine ⟨[pkg], ps'.reduceOption, rfl, ?_, fun h => nomatch h⟩
        simp only [service, LevelDBExecutor.execute_error hexec]
        rfl
    | @unanswered pkg h n exec response hreceive hexec hresponse hok =>
      rcases hf.receive_cases hR hreceive with ⟨-, _, _, hout⟩ | ⟨_, _, _, -, hout, -⟩ |
        ⟨ps', _, _, rfl, hout, -⟩
      · cases hout
      · cases hout
      · cases hout
        obtain ⟨hresult, hdb⟩ := LevelDBExecutor.execute_ok hexec
        refine ⟨[pkg], ps'.reduceOption, rfl, ?_, fun _ => .inr ?_⟩
        · simp only [service, hresult, ← hdb]
          rfl
        · have hshort : ¬ ∀ x ∈ response.sent, x.Full := by
            subst hresponse
            rw [← (respond_sends hdl h n).ok_iff, hok]
            exact Bool.false_ne_true
          push Not at hshort
          simpa [Run.sent] using hshort
    | answered => exact absurd rfl hrun
  · intro c cycles s it s' run hround ih ps hR
    cases hround with
    | incomplete hreceive =>
      rcases hf.receive_cases hR hreceive with ⟨-, _, _, hout⟩ | ⟨ps', _, _, rfl, hout, hR'⟩ |
        ⟨_, _, _, -, hout, -⟩
      · cases hout
      · cases hout
        obtain ⟨⟨done, rest, hps, hserved, hended⟩, hhalts⟩ := ih hR'
        refine ⟨⟨done, rest, hps, hserved, hended⟩, fun hlt => hhalts ?_⟩
        simpa using hlt
      · cases hout
    | @answered pkg h n exec response hreceive hexec hresponse hok =>
      rcases hf.receive_cases hR hreceive with ⟨-, _, _, hout⟩ | ⟨_, _, _, -, hout, -⟩ |
        ⟨ps', _, _, rfl, hout, hR'⟩
      · cases hout
      · cases hout
      · cases hout
        subst hresponse
        obtain ⟨hresult, hdb⟩ := LevelDBExecutor.execute_ok hexec
        obtain ⟨⟨done, rest, hps, hserved, hended⟩, hhalts⟩ := ih (hf.respond hR' n)
        refine ⟨⟨pkg :: done, rest, ?_, ?_, fun h => (hended h).imp id ?_⟩, fun hlt => hhalts ?_⟩
        · rw [List.reduceOption_cons_of_some, hps]
          rfl
        · simp only [service, hresult, ← hdb, hserved]
          rfl
        · rintro ⟨x, hx, hshort⟩
          exact ⟨x, by simp only [Run.sent, List.flatMap_cons] at hx ⊢; simp [hx], hshort⟩
        · simpa using hlt

end Serve

/-! ## Sends that are not cut short -/

section Full

variable {H : Type} {hdl : OpHandler H} {P : H → Prop}

/-- A response is sent in full when every send of at most a buffer transfers all of it. -/
theorem respond_ok_of_sends
    (hsend : ∀ h data, P h → data.length ≤ responseBufferSize →
      (hdl.send h data).1.toInt = data.length ∧ P (hdl.send h data).2)
    {h : H} (hP : P h) (bytes : UInt64) :
    (respond hdl h bytes).ok = true ∧ P (respond hdl h bytes).handler := by
  have hloop : ∀ n h, P h → (respondLoop hdl h n).ok = true ∧ P (respondLoop hdl h n).handler := by
    intro n
    induction n using Nat.strong_induction_on with
    | _ n ih =>
      intro h hP
      by_cases hpos : 0 < n
      · obtain ⟨amount, hamount, hchunks, hloop⟩ := respondLoop_of_pos hdl h hpos
        have hle := (length_of_mem_payloadChunks (hchunks ▸ List.mem_cons_self)).2
        obtain ⟨hfull, hP'⟩ := hsend h (List.replicate amount 0) hP hle
        have hsent := hfull.trans (congrArg Nat.cast List.length_replicate)
        rw [hloop]
        simp only [hsent, ne_eq, not_true_eq_false, if_false]
        exact ih _ (by omega) _ hP'
      · rw [respondLoop, dif_neg hpos]
        exact ⟨rfl, hP⟩
  have hlen : (toBytesBE 8 bytes.toNat).length = 8 := length_toBytesBE _ _
  obtain ⟨hfull, hP'⟩ := hsend h (toBytesBE 8 bytes.toNat) hP (by rw [hlen]; decide)
  rw [respond]
  simp only [hfull, hlen, toSize_natCast (by decide : 8 < sizeMod), ne_eq, not_true_eq_false,
    if_false]
  exact hloop _ _ hP'

/-- No send of a run is short when the handler keeps to that. -/
theorem sent_full_of_serve
    (hreceive : ∀ h res pkg h', P h → hdl.receive h Package.fresh = .ok (res, pkg, h') → P h')
    (hsend : ∀ h data, P h → data.length ≤ responseBufferSize →
      (hdl.send h data).1.toInt = data.length ∧ P (hdl.send h data).2)
    (cycles : List Cycles) (s : Server H) (hP : P s.handler) :
    ∀ x ∈ (s.serve hdl cycles).sent, x.Full := by
  have hanswer : ∀ {h : H} (n : UInt64), P h → ∀ x ∈ (respond hdl h n).sent, x.Full :=
    fun n hP => (respond_sends hdl _ n).ok_iff.mp (respond_ok_of_sends hsend hP n).1
  revert hP
  apply Server.serve_induct (P := fun _ (s : Server H) run =>
    P s.handler → ∀ x ∈ run.sent, x.Full)
  · intro s _ x hx
    cases hx
  · intro c cycles s round hround hrun hP
    cases hround with
    | blocked | stop | incomplete | threw => simp [Run.sent]
    | unanswered hready _ hresponse | answered hready _ hresponse =>
      subst hresponse
      simpa [Run.sent] using hanswer _ (hreceive _ _ _ _ hP hready)
  · intro c cycles s it s' run hround ih hP x hx
    rw [Run.sent, List.flatMap_cons, List.mem_append] at hx
    cases hround with
    | incomplete hincomplete =>
      rcases hx with hx | hx
      · cases hx
      · exact ih (hreceive _ _ _ _ hP hincomplete) x hx
    | answered hready _ hresponse =>
      subst hresponse
      have hP' := hreceive _ _ _ _ hP hready
      rcases hx with hx | hx
      · exact hanswer _ hP' x hx
      · exact ih (respond_ok_of_sends hsend hP' _).2 x hx

end Full

/-- What a run over the packages `ps` has served when it was not cut short: all of them up to one
that throws, each answered in full. -/
structure ServesAll {H : Type} (db : DB) (ps : List (Option Package)) (run : Run H) : Prop where
  served : service db ps.reduceOption = run.served
  replies : run.sent.map Sent.data = run.served.log.flatMap fun e => responseSends e.2
  status : run.status = match run.served.error with
    | none => .ended
    | some why => .stopped why

/-- **The loop serves everything.** With no short send and one round more than there are calls to
come the loop serves all packages. -/
theorem ServesPrefix.serves_all {H : Type} {hdl : OpHandler H} {db : DB}
    {ps : List (Option Package)} {cycles : List Cycles} {s : Server H}
    (hserves : ServesPrefix db ps cycles.length (s.serve hdl cycles))
    (hfull : ∀ x ∈ (s.serve hdl cycles).sent, x.Full) (hlt : ps.length < cycles.length) :
    ServesAll db ps (s.serve hdl cycles) := by
  obtain ⟨⟨done, rest, hps, hserved, hended⟩, hhalts⟩ := hserves
  have hreplies : (s.serve hdl cycles).sent.map Sent.data
      = (s.serve hdl cycles).log.flatMap fun e => responseSends e.2 := by
    rw [(sent_of_serve cycles s).2 hfull, Run.replies, Run.results_eq, List.flatMap_map]
  have hrun := hhalts hlt
  cases hstatus : (s.serve hdl cycles).status with
  | running => exact absurd hstatus hrun
  | ended =>
    rcases hended hstatus with rfl | ⟨x, hx, hshort⟩
    · refine ⟨?_, hreplies, ?_⟩
      · rw [hps, List.append_nil, hserved]
      · rw [hstatus, Run.served, hstatus]
        rfl
    · exact absurd (hfull x hx) hshort
  | stopped why =>
    have herror : (service db done).error = some why := by
      rw [hserved, Run.served, hstatus]
      rfl
    refine ⟨?_, hreplies, ?_⟩
    · rw [hps, service_append_of_error herror, hserved]
    · rw [hstatus, Run.served, hstatus]
      rfl

end BenchLx.Ycsb
