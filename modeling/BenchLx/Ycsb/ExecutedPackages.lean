import BenchLx.Ycsb.Responses
import BenchLx.Ycsb.TcpErrors
import BenchLx.Ycsb.UdpReplay

/-!
# Which packages are executed

`from_bytes` fills a package pair by pair and rejects a message by its return value only. The TCP
handler looks at that value, so what it hands to `execute` has been accepted. The UDP handler does
not: `executed_packages_accepted_iff` says which workloads make up for it.
-/

namespace BenchLx.Ycsb

/-! ## Accepted packages -/

/-- The package of a call is a message that `from_bytes` accepted, for the bytes of the buffer that
the call has received. -/
def TcpAccepted (call : ReceiveCall TCPOpHandler) : Prop :=
  ∃ header payload r, TCPOpHandler.Loops call.before header payload call.after ∧ r ≠ 0 ∧
    fromBytes (call.after.packageBuffer.ptr 0) (ofBytesBE (header.buffer.take 4)) Package.fresh
      = .ok (r, call.pkg) ∧
    ∃ m : Message, call.pkg = m.toPackage

/-- The package of a call is a message that `from_bytes` accepted, at the position the handler was
at. -/
def UdpAccepted (call : ReceiveCall UDPOpHandler) : Prop :=
  ∃ r, r ≠ 0 ∧
    fromBytes (call.before.wlBuffer.ptr call.before.wlPos)
      (sizeSub call.before.wlSize call.before.wlPos) Package.fresh = .ok (r, call.pkg) ∧
    ∃ m : Message, call.pkg = m.toPackage

/-! ## TCP -/

/-- What the TCP handler returns as `READY` has been accepted. -/
theorem tcpAccepted_of_ready {h h' : TCPOpHandler} {pkg : Package}
    (hreceive : h.receive Package.fresh = .ok (.ready, pkg, h')) :
    TcpAccepted ⟨h, .ready, pkg, h'⟩ := by
  cases TCPOpHandler.receive_eq_ok_iff.mp hreceive with
  | accepted hloops _ hsize hdecode =>
    obtain ⟨m, -, -, -, hpkg⟩ := (fromBytes_accepts_iff rfl).mp ⟨hdecode, hsize⟩
    exact ⟨_, _, _, hloops, hsize, hdecode, m, hpkg⟩

/-- A round that executes has received a `READY`. -/
theorem ready_of_executed {H : Type} {hdl : OpHandler H} {c : Cycles} {s : Server H}
    {round : Round H} {it : Iteration H} (hround : Server.Iterates hdl c s round)
    (hit : round.iteration = some it) (hexec : it.executed.isSome) :
    ∃ pkg h', it.call = ⟨s.handler, .ready, pkg, h'⟩ ∧
      hdl.receive s.handler Package.fresh = .ok (.ready, pkg, h') := by
  cases hround with
  | blocked => cases hit
  | stop | incomplete =>
    cases hit
    cases hexec
  | threw hreceive | unanswered hreceive | answered hreceive =>
    cases hit
    exact ⟨_, _, rfl, hreceive⟩

/-! ## UDP -/

/-- The buffer holds the operations `ms` from the position `pos` on; those with pairs end inside
the size. -/
def Layout (buf : Buffer maxFileSize) (size : ℕ) : ℕ → List Message → Prop
  | _, [] => True
  | pos, m :: ms =>
    (buf.ptr pos).Holds 0 m.encode ∧ (m.kvPairs ≠ [] → m.encode.length ≤ sizeSub size pos) ∧
      Layout buf size (pos + m.encode.length) ms

/-- The first ones of the operations that are laid out are laid out. -/
theorem Layout.of_append {buf : Buffer maxFileSize} {size pos : ℕ} {ms ms' : List Message}
    (h : Layout buf size pos (ms ++ ms')) : Layout buf size pos ms := by
  induction ms generalizing pos with
  | nil => trivial
  | cons m ms ih =>
    obtain ⟨hm, hend, hrest⟩ := h
    exact ⟨hm, hend, ih hrest⟩

/-- The operations that are laid out where the handler is. -/
def UDPOpHandler.Offers (h : UDPOpHandler) (ms : List Message) : Prop :=
  Layout h.wlBuffer h.wlSize h.wlPos ms

/-- **One call of `receive`.** It returns an accepted package, with more operations to come, exactly
when one operation more is there. -/
theorem accepted_and_offers_iff {h h' : UDPOpHandler} {pkg : Package}
    (hreceive : h.receive Package.fresh = .ok (.ready, pkg, h')) {ms : List Message} :
    UdpAccepted ⟨h, .ready, pkg, h'⟩ ∧ h'.Offers ms ↔ ∃ m, h.Offers (m :: ms) := by
  cases UDPOpHandler.receive_eq_ok_iff.mp hreceive with
  | replay readSize request hleft hparse hrequest =>
    -- an operation that stands in the buffer ends there
    have hpos : ∀ m : Message, (h.wlBuffer.ptr h.wlPos).Holds 0 m.encode →
        sizeAdd h.wlPos m.encode.length = h.wlPos + m.encode.length := by
      intro m hm
      have hlen := m.toPackage.length_encode
      have hlast := Ptr.holds_iff.mp hm (m.encode.length - 1) (by omega)
      have hlt := (Buffer.ptr_eq_ok_iff.mp hlast).1
      have hmax : maxFileSize < sizeMod := by decide
      exact sizeAdd_of_lt (by omega)
    constructor
    · intro ⟨⟨r, hr, hparse', _⟩, hoffers⟩
      rw [hparse] at hparse'
      cases hparse'
      obtain ⟨m, hm, hend, rfl, -⟩ := (fromBytes_accepts_iff rfl).mp ⟨hparse, hr⟩
      refine ⟨m, hm, hend, ?_⟩
      rw [← hpos m hm]
      exact hoffers
    · intro ⟨m, hm, hend, hoffers⟩
      obtain ⟨hparse', hr⟩ := (@fromBytes_accepts_iff _ _ Package.fresh _ rfl _).mpr
        ⟨m, hm, hend, rfl, rfl⟩
      rw [hparse] at hparse'
      cases hparse'
      refine ⟨⟨_, hr, hparse, m, rfl⟩, ?_⟩
      rw [← hpos m hm] at hoffers
      exact hoffers

/-- Responses leave the workload as it is. -/
theorem respond_offers_iff (h : UDPOpHandler) (bytes : UInt64) (ms : List Message) :
    (respond UDPOpHandler.hdl h bytes).handler.Offers ms ↔ h.Offers ms :=
  respond_preserves UDPOpHandler.hdl (P := fun h' => h'.Offers ms ↔ h.Offers ms)
    (fun _ _ hP => hP) Iff.rfl bytes

/-- The rounds that executed an operation executed one that had been accepted. -/
def AllAccepted (its : List (Iteration UDPOpHandler)) : Prop :=
  ∀ it ∈ its, it.executed.isSome → UdpAccepted it.call

/-- The number of rounds that executed an operation. -/
def executions {H : Type} (its : List (Iteration H)) : ℕ :=
  its.countP fun it => it.executed.isSome

@[simp] theorem executions_nil {H : Type} : executions ([] : List (Iteration H)) = 0 := rfl

theorem executions_cons {H : Type} {it : Iteration H} (hexec : it.executed.isSome)
    (its : List (Iteration H)) : executions (it :: its) = executions its + 1 :=
  List.countP_cons_of_pos hexec

theorem allAccepted_nil_iff (h : UDPOpHandler) :
    AllAccepted [] ↔ ∃ ms : List Message,
      ms.length = executions ([] : List (Iteration UDPOpHandler)) ∧ h.Offers ms :=
  ⟨fun _ => ⟨[], rfl, trivial⟩, fun _ it hit => by cases hit⟩

/-- A round that executes an operation takes the first one that is offered. -/
theorem allAccepted_cons_iff {h h' : UDPOpHandler} {it : Iteration UDPOpHandler}
    {its : List (Iteration UDPOpHandler)} {pkg : Package}
    (hreceive : h.receive Package.fresh = .ok (.ready, pkg, h'))
    (hcall : it.call = ⟨h, .ready, pkg, h'⟩) (hexec : it.executed.isSome)
    (hrest : AllAccepted its ↔
      ∃ ms : List Message, ms.length = executions its ∧ h'.Offers ms) :
    AllAccepted (it :: its) ↔
      ∃ ms : List Message, ms.length = executions (it :: its) ∧ h.Offers ms := by
  have hcons : AllAccepted (it :: its) ↔ UdpAccepted ⟨h, .ready, pkg, h'⟩ ∧ AllAccepted its := by
    rw [AllAccepted, List.forall_mem_cons, hcall]
    exact and_congr_left fun _ => ⟨fun hit => hit hexec, fun hit _ => hit⟩
  rw [executions_cons hexec, hcons, hrest]
  constructor
  · intro ⟨hhead, ms, hlen, hoffers⟩
    obtain ⟨m, hm⟩ := (accepted_and_offers_iff hreceive).mp ⟨hhead, hoffers⟩
    exact ⟨m :: ms, by rw [List.length_cons, hlen], hm⟩
  · intro ⟨ms, hlen, hoffers⟩
    cases ms with
    | nil => cases hlen
    | cons m ms =>
      obtain ⟨hhead, htail⟩ := (accepted_and_offers_iff hreceive).mpr ⟨m, hoffers⟩
      exact ⟨hhead, ms, Nat.succ_injective hlen, htail⟩

/-- **Runs over a workload.** All packages executed have been accepted exactly when as many complete
operations are laid out as have been executed. -/
theorem udp_run_accepted_iff (cycles : List Cycles) (s : Server UDPOpHandler) :
    AllAccepted (s.serve UDPOpHandler.hdl cycles).iterations ↔
    ∃ ms : List Message,
      ms.length = executions (s.serve UDPOpHandler.hdl cycles).iterations ∧
        s.handler.Offers ms := by
  apply Server.serve_induct (P := fun _ (s : Server UDPOpHandler) run =>
    AllAccepted run.iterations ↔
      ∃ ms : List Message, ms.length = executions run.iterations ∧ s.handler.Offers ms)
  · exact fun s => allAccepted_nil_iff s.handler
  · intro c _ s round hround hrun
    cases hround with
    | blocked => exact allAccepted_nil_iff s.handler
    | stop =>
      refine ⟨fun _ => ⟨[], rfl, trivial⟩, fun _ it hit hexec => ?_⟩
      rw [List.mem_singleton.mp hit] at hexec
      cases hexec
    | threw hreceive | unanswered hreceive =>
      exact allAccepted_cons_iff hreceive rfl rfl (allAccepted_nil_iff _)
    | incomplete | answered => exact absurd rfl hrun
  · intro c _ s it s' run hround ih
    cases hround with
    | incomplete hreceive =>
      -- this handler never returns `INCOMPLETE`
      cases UDPOpHandler.receive_eq_ok_iff.mp hreceive
    | answered hreceive _ hresponse =>
      subst hresponse
      apply allAccepted_cons_iff hreceive rfl rfl
      simpa only [respond_offers_iff] using ih

/-- A response leaves the counters of the handler as they are. -/
theorem respond_ops (h : UDPOpHandler) (bytes : UInt64) :
    (respond UDPOpHandler.hdl h bytes).handler.ops = h.ops ∧
      (respond UDPOpHandler.hdl h bytes).handler.totalOps = h.totalOps :=
  respond_preserves UDPOpHandler.hdl (P := fun h' => h'.ops = h.ops ∧ h'.totalOps = h.totalOps)
    (fun _ _ hP => hP) ⟨rfl, rfl⟩ bytes

/-- What a `READY` does to the counters of the handler. -/
theorem ops_of_ready {h h' : UDPOpHandler} {pkg : Package}
    (hreceive : h.receive Package.fresh = .ok (.ready, pkg, h')) :
    h.ops.toNat < h.totalOps.toNat ∧ h'.ops.toNat = h.ops.toNat + 1 ∧ h'.totalOps = h.totalOps := by
  cases UDPOpHandler.receive_eq_ok_iff.mp hreceive with
  | replay readSize request hleft =>
    exact ⟨UInt64.lt_iff_toNat_lt.mp hleft, UDPOpHandler.toNat_add_one hleft, rfl⟩

/-- A run executes no more operations than the workload counts. -/
theorem executions_add_ops_le (cycles : List Cycles) (s : Server UDPOpHandler)
    (hops : s.handler.ops.toNat ≤ s.handler.totalOps.toNat) :
    executions (s.serve UDPOpHandler.hdl cycles).iterations + s.handler.ops.toNat
      ≤ s.handler.totalOps.toNat := by
  revert hops
  apply Server.serve_induct (P := fun _ (s : Server UDPOpHandler) run =>
    s.handler.ops.toNat ≤ s.handler.totalOps.toNat →
      executions run.iterations + s.handler.ops.toNat ≤ s.handler.totalOps.toNat)
  · intro s hops
    simpa using hops
  · intro c _ s round hround hrun hops
    cases hround with
    | blocked => simpa using hops
    | stop => simpa [executions] using hops
    | threw hreceive | unanswered hreceive =>
      obtain ⟨hleft, -, -⟩ := ops_of_ready hreceive
      rw [Option.toList_some, executions_cons rfl, executions_nil]
      omega
    | incomplete | answered => exact absurd rfl hrun
  · intro c _ s it s' run hround ih hops
    cases hround with
    | incomplete hreceive => cases UDPOpHandler.receive_eq_ok_iff.mp hreceive
    | @answered pkg h resBytes exec response hreceive hexec hresponse hok =>
      subst hresponse
      obtain ⟨hleft, hnext, htotal⟩ := ops_of_ready hreceive
      obtain ⟨hkeepOps, hkeepTotal⟩ := respond_ops h resBytes
      -- the rest of the run starts with one operation more behind it
      rw [hkeepOps, hkeepTotal, hnext, htotal] at ih
      have hcount := ih (by omega)
      rw [executions_cons rfl]
      omega

/-- Over a workload with as many complete operations as it counts all packages executed have been
accepted. -/
theorem allAccepted_of_layout (cycles : List Cycles) (s : Server UDPOpHandler)
    (hops : s.handler.ops = 0) {ms : List Message} (hoffers : s.handler.Offers ms)
    (hcount : s.handler.totalOps.toNat ≤ ms.length) :
    AllAccepted (s.serve UDPOpHandler.hdl cycles).iterations := by
  have hzero : s.handler.ops.toNat = 0 := by rw [hops, UInt64.toNat_zero]
  have hle := executions_add_ops_le cycles s (by omega)
  generalize hn : executions (s.serve UDPOpHandler.hdl cycles).iterations = n at hle
  refine (udp_run_accepted_iff cycles s).mpr ⟨ms.take n, ?_, ?_⟩
  · rw [hn, List.length_take]
    omega
  · rw [UDPOpHandler.Offers, ← List.take_append_drop n ms] at hoffers
    exact hoffers.of_append

/-! ## Both handlers -/

/-- **Which packages are executed.** With the TCP handler every package that a run executes is the
complete decoding of a message that `from_bytes` accepted. With the UDP handler this holds of a run
exactly when the workload lays out, from byte 8 on, at least as many complete operations as the run
executes; when it lays out as many as it counts, it holds of every run. -/
theorem executed_packages_accepted_iff (db : DB) (cycles : List Cycles) :
    (∀ h : TCPOpHandler, ∀ it ∈ ((Server.start TCPOpHandler.hdl h db).serve TCPOpHandler.hdl
      cycles).iterations, it.executed.isSome → TcpAccepted it.call) ∧
    ∀ h : UDPOpHandler,
      (AllAccepted ((Server.start UDPOpHandler.hdl h db).serve UDPOpHandler.hdl cycles).iterations ↔
        ∃ ms : List Message, ms.length = executions
            ((Server.start UDPOpHandler.hdl h db).serve UDPOpHandler.hdl cycles).iterations ∧
          Layout h.wlBuffer h.wlSize 8 ms) ∧
      ∀ ms : List Message, ms.length = h.totalOps.toNat → Layout h.wlBuffer h.wlSize 8 ms →
        AllAccepted ((Server.start UDPOpHandler.hdl h db).serve UDPOpHandler.hdl
          cycles).iterations := by
  refine ⟨fun h it hit hexec => ?_, fun h => ⟨udp_run_accepted_iff cycles _, fun ms hlen hms => ?_⟩⟩
  · obtain ⟨s, c, round, hround, hrecord⟩ := Server.iterates_of_mem hit
    obtain ⟨pkg, h', hcall, hreceive⟩ := ready_of_executed hround hrecord hexec
    rw [hcall]
    exact tcpAccepted_of_ready hreceive
  · exact allAccepted_of_layout cycles _ rfl hms hlen.ge

/-- A workload of one update: the run executes it once and stops. -/
theorem executed_packages_accepted_update :
    ∃ h, UDPOpHandler.create .zero [.upTo 100, .upTo 1]
        ([0, 0, 0, 0, 0, 0, 0, 1] ++ updateMessage.encode) (fun _ => .upTo 1024) = .ok h ∧
      executions ((Server.start UDPOpHandler.hdl h .empty).serve UDPOpHandler.hdl
        [⟨0, 0⟩, ⟨0, 0⟩]).iterations = 1 ∧
      AllAccepted ((Server.start UDPOpHandler.hdl h .empty).serve UDPOpHandler.hdl
        [⟨0, 0⟩, ⟨0, 0⟩]).iterations := by
  have hrun : (UDPOpHandler.create .zero [.upTo 100, .upTo 1]
      ([0, 0, 0, 0, 0, 0, 0, 1] ++ updateMessage.encode) (fun _ => .upTo 1024)).map (fun h =>
        (h.totalOps.toNat, executions ((Server.start UDPOpHandler.hdl h .empty).serve
          UDPOpHandler.hdl [⟨0, 0⟩, ⟨0, 0⟩]).iterations, h.wlSize, h.wlBuffer.take 32))
      = .ok (1, 1, 32, [0, 0, 0, 0, 0, 0, 0, 1] ++ updateMessage.encode) := by
    decide +kernel
  obtain ⟨h, hcreate, hmap⟩ := map_eq_ok.mp hrun
  simp only [Prod.mk.injEq] at hmap
  obtain ⟨htotal, hcount, hsize, hbytes⟩ := hmap
  refine ⟨h, hcreate, hcount, ((executed_packages_accepted_iff .empty [⟨0, 0⟩, ⟨0, 0⟩]).2 h).2
    [updateMessage] htotal.symm ⟨?_, fun _ => ?_, trivial⟩⟩
  · have hheld := Buffer.holds_take (b := h.wlBuffer) (n := 32) (by decide)
    rw [hbytes, Ptr.holds_append] at hheld
    exact Buffer.holds_ptr_iff.mpr hheld.2
  · rw [hsize]
    decide

/-- A workload that counts two operations and ends inside the first: an insert of two pairs of which
one is there. -/
def truncatedWorkload : Bytes :=
  [0, 0, 0, 0, 0, 0, 0, 2] ++ [1, 0, 2] ++ toBytesBE 8 7 ++ toBytesBE 8 0 ++ [1, 1, 48, 97]

/-- The one pair that is there, of two that the count announces. -/
def truncatedPackage : Package :=
  { op := 1, table := 0, numKvs := 2, key := 7, scanLength := 0, kvPairs := [([48], [97])] }

/-- On this workload the rejected insert is executed, twice. -/
theorem executes_rejected_package :
    ∃ h, UDPOpHandler.create .zero [.upTo 100, .upTo 1] truncatedWorkload (fun _ => .upTo 1024)
        = .ok h ∧
      ((Server.start UDPOpHandler.hdl h .empty).serve UDPOpHandler.hdl [⟨0, 0⟩, ⟨0, 0⟩]).iterations.map
          (fun it => (it.call.pkg, it.executed))
        = [(truncatedPackage, some (.ok 4)), (truncatedPackage, some (.ok 4))] ∧
      ¬ AllAccepted ((Server.start UDPOpHandler.hdl h .empty).serve UDPOpHandler.hdl
        [⟨0, 0⟩, ⟨0, 0⟩]).iterations := by
  have hrun : (UDPOpHandler.create .zero [.upTo 100, .upTo 1] truncatedWorkload
      (fun _ => .upTo 1024)).map (fun h => ((Server.start UDPOpHandler.hdl h .empty).serve
        UDPOpHandler.hdl [⟨0, 0⟩, ⟨0, 0⟩]).iterations.map fun it => (it.call.pkg, it.executed))
      = .ok [(truncatedPackage, some (.ok 4)), (truncatedPackage, some (.ok 4))] := by
    decide +kernel
  obtain ⟨h, hcreate, hmap⟩ := map_eq_ok.mp hrun
  refine ⟨h, hcreate, hmap, fun haccepted => ?_⟩
  -- no message has two pairs by its count and one in its list
  obtain ⟨it, hit, heq⟩ := List.mem_map.mp (hmap ▸ List.mem_cons_self)
  obtain ⟨hpkg, hexec⟩ := Prod.mk.inj heq
  obtain ⟨r, -, -, m, hm⟩ := haccepted it hit (by rw [hexec]; rfl)
  have hcount := m.numKvs_eq
  rw [← hm, hpkg] at hcount
  exact absurd hcount (by decide)

end BenchLx.Ycsb
