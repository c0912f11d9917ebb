import BenchLx.Ycsb.Service
import BenchLx.Ycsb.TcpFraming
import BenchLx.Ycsb.UdpSequence

/-!
# The service over both transports

Both handlers feed the loop (`Feeds`): the TCP handler goes through the payloads that the client
sends, the UDP handler through the operations of its workload file. So the server is the service
over either of them (`tcp_server_serves`, `udp_server_serves`), and for the same operations it does
not matter which one is used (`transports_agree`).
-/

namespace BenchLx.Ycsb

/-! ## Sends -/

/-- Every send to come takes at least a buffer of the response. -/
def SendsAll (writes : ℕ → Transfer) : Prop :=
  ∀ k, ∃ n ≥ responseBufferSize, writes k = .upTo n

theorem SendsAll.tail {writes : ℕ → Transfer} (h : SendsAll writes) :
    SendsAll fun k => writes (k + 1) :=
  fun k => h (k + 1)

theorem SendsAll.toInt_ofTransfer {writes : ℕ → Transfer} (h : SendsAll writes) {len : ℕ}
    (hlen : len ≤ responseBufferSize) :
    (SendResult.ofTransfer (writes 0) len).toInt = len := by
  obtain ⟨n, hn, hwrite⟩ := h 0
  rw [hwrite]
  exact congrArg Nat.cast (Nat.min_eq_right (hlen.trans hn))

/-- `writes h` are the outcomes of the sends to come of a handler `h`: each send takes the first
one, and `receive` leaves all of them full. -/
structure SendsFrom {H : Type} (hdl : OpHandler H) (writes : H → ℕ → Transfer) : Prop where
  receive : ∀ {h res pkg h'}, hdl.receive h Package.fresh = .ok (res, pkg, h') →
    SendsAll (writes h) → SendsAll (writes h')
  result : ∀ h data, (hdl.send h data).1 = .ofTransfer (writes h 0) data.length
  rest : ∀ h data, writes (hdl.send h data).2 = fun k => writes h (k + 1)

namespace Feeds

variable {H : Type} {hdl : OpHandler H} {R : H → List (Option Package) → Prop} {h : H}
  {ps : List (Option Package)}

/-- A server whose handler feeds the loop serves the first ones of the packages. -/
theorem serves (hfeeds : Feeds hdl R) (hR : R (hdl.reset h) ps) (db : DB) (cycles : List Cycles) :
    ServesPrefix db ps cycles.length ((Server.start hdl h db).serve hdl cycles) :=
  serve_refines hfeeds cycles (Server.start hdl h db) hR

/-- It serves all of them when no send is cut short. -/
theorem serves_all (hfeeds : Feeds hdl R) {writes : H → ℕ → Transfer}
    (hsends : SendsFrom hdl writes) (hR : R (hdl.reset h) ps)
    (hs : SendsAll (writes (hdl.reset h))) (db : DB) (cycles : List Cycles)
    (hcycles : ps.length < cycles.length) :
    ServesAll db ps ((Server.start hdl h db).serve hdl cycles) := by
  refine (hfeeds.serves hR db cycles).serves_all ?_ hcycles
  refine sent_full_of_serve (P := fun h => SendsAll (writes h)) ?_ ?_ cycles _ hs
  · exact fun h res pkg h' hs hreceive => hsends.receive hreceive hs
  · intro h data hs hle
    rw [hsends.result, hsends.rest]
    exact ⟨hs.toInt_ofTransfer hle, hs.tail⟩

end Feeds

/-- Sends that take a buffer each. -/
def bufferSends : ℕ → Transfer := fun _ => .upTo responseBufferSize

theorem sendsAll_bufferSends : SendsAll bufferSends :=
  fun _ => ⟨responseBufferSize, le_refl _, rfl⟩

/-! ## TCP -/

theorem decode_encode (m : Message) : decode m.encode = some m.toPackage :=
  decode_eq_some_iff.mpr ⟨m, List.prefix_refl _, rfl⟩

namespace TCPOpHandler

/-- The client still sends the payloads that decode to `ps`, and then the end flag; every payload
covers the fixed header, and the connection delivers all of it. -/
def Pending (h : TCPOpHandler) (ps : List (Option Package)) : Prop :=
  ∃ ds rest, (∀ d ∈ ds, 19 ≤ d.length ∧ d.length ≤ packageBufferSize) ∧
    h.input = frames (ds ++ [Ycsb.endFlag]) ++ rest ∧ Delivering h.reads ∧
    (frames (ds ++ [Ycsb.endFlag])).length ≤ h.reads.length ∧ ps = ds.map decode

end TCPOpHandler

namespace TCPOpHandler

/-- The call for the payload `d`. -/
theorem receive_payload {h : TCPOpHandler} {d : Bytes} {ds : List Bytes} {rest : Bytes}
    (hfit : d.length ≤ packageBufferSize) (hinput : h.input = frames (d :: ds) ++ rest)
    (hreads : Delivering h.reads) (hlen : (frames (d :: ds)).length ≤ h.reads.length) :
    ∃ res pkg h', h.receive Package.fresh = .ok (res, pkg, h') ∧
      TakesFrame h Package.fresh d (frames ds ++ rest) res pkg h' ∧
      (frames ds).length ≤ h'.reads.length := by
  rw [frames_cons, List.append_assoc] at hinput
  rw [frames_cons, List.length_append] at hlen
  obtain ⟨res, pkg, h', hreceive, hcount⟩ :=
    receive_frame_returns hfit hinput hreads (by omega) Package.fresh
  exact ⟨res, pkg, h', hreceive, receive_frame hfit hinput hreads hreceive, by omega⟩

/-- The next call is the one for the first payload, and the others are still offered. -/
theorem Pending.receive {h : TCPOpHandler} {p : Option Package} {ps : List (Option Package)}
    (ho : h.Pending (p :: ps)) :
    ∃ res pkg h', h.receive Package.fresh = .ok (res, pkg, h') ∧
      (ReceiveCall.mk h res pkg h').outcome
        = (if p.isSome then .ready else .incomplete, p) ∧
      h'.Pending ps := by
  obtain ⟨_ | ⟨d, ds⟩, rest, hds, hinput, hreads, hlen, hps⟩ := ho
  · cases hps
  · obtain ⟨rfl, rfl⟩ := List.cons.inj hps
    obtain ⟨hshort, hfit⟩ := hds d (by simp)
    obtain ⟨res, pkg, h', hreceive, htakes, hlen'⟩ := receive_payload hfit hinput hreads hlen
    have houtcome := @outcome_of_takesFrame ⟨h, res, pkg, h'⟩ d _ htakes hshort
    refine ⟨res, pkg, h', hreceive, ?_, ds, rest, fun e he => hds e (by simp [he]),
      htakes.input_eq, htakes.delivering, hlen', rfl⟩
    rw [houtcome, payloadOutcome]
    cases decode d <;> rfl

/-- **The TCP handler** goes through the payloads of the client. -/
theorem feeds : Feeds hdl Pending where
  stop := by
    rintro h ⟨ds, rest, -, hinput, hreads, hlen, hps⟩
    obtain rfl : ds = [] := List.map_eq_nil_iff.mp hps.symm
    obtain ⟨res, pkg, h', hreceive, htakes, -⟩ :=
      @receive_payload h endFlag [] rest (by decide) hinput hreads hlen
    rcases htakes.result with ⟨-, rfl⟩ | ⟨hne, -⟩
    · exact ⟨pkg, h', hreceive⟩
    · exact absurd rfl hne
  rejected := by
    intro h ps ho
    obtain ⟨res, pkg, h', hreceive, houtcome, ho'⟩ := ho.receive
    obtain ⟨rfl, -⟩ := Prod.mk.inj houtcome
    exact ⟨pkg, h', hreceive, ho'⟩
  accepted := by
    intro h pkg ps ho
    obtain ⟨res, pkg', h', hreceive, houtcome, ho'⟩ := ho.receive
    obtain ⟨rfl, hpkg⟩ := Prod.mk.inj houtcome
    obtain rfl : pkg' = pkg := Option.some.inj hpkg
    exact ⟨h', hreceive, ho'⟩
  send := fun _ ho => ho

theorem sendsFrom : SendsFrom hdl writes where
  receive := by
    intro h res pkg h' hreceive hs
    cases receive_eq_ok_iff.mp hreceive with
    | invalidLength => exact hs
    | endFlag hloops | rejected hloops | accepted hloops => rwa [hloops.after_eq]
  result := fun _ _ => rfl
  rest := fun _ _ => rfl

end TCPOpHandler

/-- The connection on which the client sends payloads and then the end flag. -/
theorem TCPOpHandler.pending_create (headerWords : ℕ → Buffer 4) {ds : List Bytes}
    (hds : ∀ d ∈ ds, 19 ≤ d.length ∧ d.length ≤ packageBufferSize) (rest : Bytes)
    {reads : List Transfer} (hreads : Delivering reads)
    (hlen : (frames (ds ++ [Ycsb.endFlag])).length ≤ reads.length) (writes : ℕ → Transfer) :
    (create headerWords (frames (ds ++ [Ycsb.endFlag]) ++ rest) reads writes).Pending
      (ds.map decode) :=
  ⟨ds, rest, hds, rfl, hreads, hlen, rfl⟩

/-- **The server over TCP.** Let the client send payloads of 19 to 8192 bytes, well-formed or not,
each as a frame, and then the end flag, over a connection that delivers the bytes in any chunks. At
every point of every run, whatever becomes of the sends, the server has served the first ones of the
packages that the payloads decode to, in order, and none twice. When no send is cut short, and with
a round for every payload and one more, it has served all of them up to one whose execution throws,
with the replies of exactly these, and the loop has ended. -/
theorem tcp_server_serves (headerWords : ℕ → Buffer 4) (ds : List Bytes)
    (hds : ∀ d ∈ ds, 19 ≤ d.length ∧ d.length ≤ packageBufferSize) (rest : Bytes)
    (reads : List Transfer) (hreads : Delivering reads)
    (hlen : (frames (ds ++ [endFlag])).length ≤ reads.length) (writes : ℕ → Transfer) (db : DB)
    (cycles : List Cycles) :
    let h := TCPOpHandler.create headerWords (frames (ds ++ [endFlag]) ++ rest) reads writes
    let run := (Server.start TCPOpHandler.hdl h db).serve TCPOpHandler.hdl cycles
    ServesPrefix db (ds.map decode) cycles.length run ∧
    (SendsAll writes → ds.length < cycles.length → ServesAll db (ds.map decode) run) := by
  have hp := TCPOpHandler.pending_create headerWords hds rest hreads hlen writes
  refine ⟨TCPOpHandler.feeds.serves hp db cycles, fun hs hcycles => ?_⟩
  exact TCPOpHandler.feeds.serves_all TCPOpHandler.sendsFrom hp hs db cycles
    (by rwa [List.length_map])

/-- The server on a store, with a client that sends the operations `ms` two bytes at a time. -/
def pairwiseRun (db : DB) (ms : List Message) : Run TCPOpHandler :=
  (Server.start TCPOpHandler.hdl (TCPOpHandler.create (fun _ => .zero)
    (frames (ms.map (fun m => m.encode) ++ [endFlag]) ++ [])
    (List.replicate (frames (ms.map (fun m => m.encode) ++ [endFlag])).length (.upTo 2))
    bufferSends) db).serve TCPOpHandler.hdl (List.replicate (ms.length + 1) ⟨0, 0⟩)

theorem fits_of_encode {ms : List Message} (hms : ∀ m ∈ ms, m.encode.length ≤ packageBufferSize) :
    ∀ d ∈ ms.map (fun m => m.encode), 19 ≤ d.length ∧ d.length ≤ packageBufferSize := by
  intro d hd
  obtain ⟨m, hm, rfl⟩ := List.mem_map.mp hd
  exact ⟨by rw [Package.length_encode]; omega, hms m hm⟩

theorem map_decode_encode (ms : List Message) :
    (ms.map fun m => m.encode).map decode = ms.map fun m => some m.toPackage := by
  simp only [List.map_map, Function.comp_def, decode_encode]

theorem servesAll_pairwiseRun (db : DB) {ms : List Message}
    (hms : ∀ m ∈ ms, m.encode.length ≤ packageBufferSize) :
    ServesAll db (ms.map fun m => some m.toPackage) (pairwiseRun db ms) := by
  have hreads : Delivering (List.replicate
      (frames (ms.map (fun m => m.encode) ++ [endFlag])).length (.upTo 2)) :=
    fun t ht => ⟨1, (List.mem_replicate.mp ht).2⟩
  have hp := TCPOpHandler.pending_create (fun _ => .zero) (fits_of_encode hms) [] hreads
    (by rw [List.length_replicate]) bufferSends
  rw [map_decode_encode] at hp
  exact TCPOpHandler.feeds.serves_all TCPOpHandler.sendsFrom hp sendsAll_bufferSends _ _
    (by simp)

/-- One update, two bytes at a time. -/
theorem tcp_server_serves_update :
    ((Server.start TCPOpHandler.hdl (TCPOpHandler.create (fun _ => .zero)
        (frames ([updateMessage.encode] ++ [endFlag]) ++ []) (List.replicate 38 (.upTo 2))
        bufferSends) SortedMap.empty).serve TCPOpHandler.hdl [⟨0, 0⟩, ⟨0, 0⟩]).log
      = [(updateMessage.toPackage, 4)] := by
  obtain ⟨-, hall⟩ := tcp_server_serves (fun _ => .zero) [updateMessage.encode] (by decide) []
    (List.replicate 38 (.upTo 2)) (fun t ht => ⟨1, (List.mem_replicate.mp ht).2⟩) (by decide)
    bufferSends SortedMap.empty [⟨0, 0⟩, ⟨0, 0⟩]
  have hserved := (hall sendsAll_bufferSends (by decide)).served
  rw [List.map_singleton, decode_encode] at hserved
  exact (congrArg Served.log hserved).symm

/-! ## UDP -/

namespace UDPOpHandler

/-- The handler stands in a workload file in front of the operations `ps`. -/
def Pending (h : UDPOpHandler) (ps : List (Option Package)) : Prop :=
  ∃ w ms trailing k, h.Follows w ms trailing k ∧
    ps = (ms.drop k).map fun m => some m.toPackage

/-- The next call is the one for the first operation, and the others are still to be replayed. -/
theorem Pending.receive {h : UDPOpHandler} {p : Option Package} {ps : List (Option Package)}
    (hp : h.Pending (p :: ps)) :
    ∃ pkg h', p = some pkg ∧ h.receive Package.fresh = .ok (.ready, pkg, h') ∧ h'.Pending ps := by
  obtain ⟨w, ms, trailing, k, hf, hps⟩ := hp
  obtain ⟨res, pkg, h', hreceive, houtcome, hf'⟩ := hf.receive
  have hk : k < ms.length := by
    by_contra hle
    rw [List.drop_eq_nil_of_le (not_lt.mp hle)] at hps
    cases hps
  rw [List.drop_eq_getElem_cons hk] at hps
  obtain ⟨rfl, rfl⟩ := List.cons.inj hps
  rw [replayed, List.getElem?_eq_getElem hk] at houtcome
  obtain ⟨rfl, hpkg⟩ := Prod.mk.inj houtcome
  obtain rfl : pkg = ms[k].toPackage := Option.some.inj hpkg
  exact ⟨_, h', rfl, hreceive, w, ms, trailing, k + 1, hf', rfl⟩

/-- **The UDP handler** goes through the operations of the workload file. -/
theorem feeds : Feeds hdl Pending where
  stop := by
    rintro h ⟨w, ms, trailing, k, hf, hps⟩
    obtain ⟨res, pkg, h', hreceive, houtcome, -⟩ := hf.receive
    have hk : ms.length ≤ k := List.drop_eq_nil_iff.mp (List.map_eq_nil_iff.mp hps.symm)
    rw [replayed, List.getElem?_eq_none hk] at houtcome
    obtain ⟨rfl, -⟩ := Prod.mk.inj houtcome
    exact ⟨pkg, h', hreceive⟩
  rejected := by
    intro h ps hp
    obtain ⟨pkg, h', hnone, -⟩ := hp.receive
    cases hnone
  accepted := by
    intro h pkg ps hp
    obtain ⟨pkg', h', hpkg, hreceive, hp'⟩ := hp.receive
    cases hpkg
    exact ⟨h', hreceive, hp'⟩
  send := by
    rintro h ps data ⟨w, ms, trailing, k, hf, hps⟩
    refine ⟨w, ms, trailing, k, ⟨⟨⟨hf.replays.fits, hf.replays.size_eq, hf.replays.held⟩,
      hf.replays.header_le, hf.replays.bytes_eq, hf.replays.pos_eq, hf.replays.length_le⟩,
      hf.ops_eq, hf.total_eq⟩, hps⟩

theorem sendsFrom : SendsFrom hdl writes where
  receive := by
    intro h res pkg h' hreceive hs
    cases receive_eq_ok_iff.mp hreceive with
    | stop => exact hs
    | replay => exact hs.tail
  result := fun _ _ => rfl
  rest := fun _ _ => rfl

/-- What the constructor makes of a workload file is in front of its operations. -/
theorem pending_of_create {contents : Buffer maxFileSize} {reads : List Transfer}
    {writes : ℕ → Transfer} {preins trailing : Bytes} {ms : List Message} {h : UDPOpHandler}
    (hreads : Delivering reads) (hpreins : preins.length = 4)
    (hfits : (workloadFile preins ms trailing).length ≤ maxFileSize)
    (hcreate : create contents reads (workloadFile preins ms trailing) writes = .ok h) :
    h.reset.Pending (ms.map fun m => some m.toPackage) ∧ h.writes = writes := by
  have hlen := @length_le_workloadFile preins trailing ms hpreins
  obtain ⟨hloaded, hpos, hops, htotal⟩ := create_spec hreads (by omega) hcreate
  rw [loadedBytes, List.take_of_length_le hfits] at hloaded
  rw [operationCount_workloadFile hpreins hfits] at htotal
  have hstart : h.Follows (workloadFile preins ms trailing) ms trailing 0 := by
    refine ⟨⟨hloaded, by omega, ?_, hpos, Nat.zero_le _⟩, ?_, htotal⟩
    · rw [workloadFile_drop hpreins]
      rfl
    · rw [hops, Nat.zero_min]
      rfl
  refine ⟨⟨_, ms, trailing, 0, hstart.reset, rfl⟩, ?_⟩
  obtain ⟨loaded, -, hcreate⟩ := bind_eq_ok.mp hcreate
  obtain ⟨⟨preins', pos⟩, -, hcreate⟩ := bind_eq_ok.mp hcreate
  obtain ⟨⟨total, pos'⟩, -, hcreate⟩ := bind_eq_ok.mp hcreate
  cases hcreate
  rfl

end UDPOpHandler

open UDPOpHandler (workloadFile) in
/-- **The server over UDP.** Let the constructor load a workload file that fits into the buffer and
counts its operations right. At every point of every run, whatever becomes of the sends, the server
has served the first ones of the operations of the file. When no send is cut short, and with a round
for every operation and one more, it has served all of them up to one whose execution throws. -/
theorem udp_server_serves (contents : Buffer maxFileSize) (reads : List Transfer)
    (hreads : Delivering reads) (writes : ℕ → Transfer) (preins trailing : Bytes)
    (hpreins : preins.length = 4) (ms : List Message)
    (hfits : (workloadFile preins ms trailing).length ≤ maxFileSize) (h : UDPOpHandler)
    (hcreate : UDPOpHandler.create contents reads (workloadFile preins ms trailing) writes = .ok h)
    (db : DB) (cycles : List Cycles) :
    let ps := ms.map fun m => some m.toPackage
    let run := (Server.start UDPOpHandler.hdl h db).serve UDPOpHandler.hdl cycles
    ServesPrefix db ps cycles.length run ∧
    (SendsAll writes → ms.length < cycles.length → ServesAll db ps run) := by
  obtain ⟨hp, hwrites⟩ := UDPOpHandler.pending_of_create hreads hpreins hfits hcreate
  refine ⟨UDPOpHandler.feeds.serves hp db cycles, fun hs hcycles => ?_⟩
  rw [← hwrites] at hs
  exact UDPOpHandler.feeds.serves_all UDPOpHandler.sendsFrom hp hs db cycles
    (by rwa [List.length_map])

open UDPOpHandler (workloadFile) in
/-- A workload file with one update that the constructor has loaded in pieces of twenty bytes. -/
theorem exists_create_update :
    ∃ h, UDPOpHandler.create .zero [.upTo 20, .upTo 20, .upTo 20]
      (workloadFile [0, 0, 0, 0] [updateMessage] []) bufferSends = .ok h := by
  have hsize : (UDPOpHandler.create .zero [.upTo 20, .upTo 20, .upTo 20]
      (workloadFile [0, 0, 0, 0] [updateMessage] []) bufferSends).map UDPOpHandler.wlSize
        = .ok 32 := by rfl
  obtain ⟨h, hcreate, -⟩ := map_eq_ok.mp hsize
  exact ⟨h, hcreate⟩

theorem delivering_twenties : Delivering [.upTo 20, .upTo 20, .upTo 20] :=
  fun t ht => ⟨19, by simpa using ht⟩

open UDPOpHandler (workloadFile) in
/-- The same update, replayed from a file. -/
theorem udp_server_serves_update :
    ∃ h, UDPOpHandler.create .zero [.upTo 20, .upTo 20, .upTo 20]
        (workloadFile [0, 0, 0, 0] [updateMessage] []) bufferSends = .ok h ∧
      ((Server.start UDPOpHandler.hdl h SortedMap.empty).serve UDPOpHandler.hdl
        [⟨0, 0⟩, ⟨0, 0⟩]).log = [(updateMessage.toPackage, 4)] := by
  obtain ⟨h, hcreate⟩ := exists_create_update
  obtain ⟨-, hall⟩ := udp_server_serves .zero _ delivering_twenties bufferSends [0, 0, 0, 0] [] rfl
    [updateMessage] (by decide) h hcreate SortedMap.empty [⟨0, 0⟩, ⟨0, 0⟩]
  exact ⟨h, hcreate, (congrArg Served.log (hall sendsAll_bufferSends (by decide)).served).symm⟩

/-! ## Both -/

section Agree

variable {H H' : Type} {hdl : OpHandler H} {hdl' : OpHandler H'} {db : DB}
  {ps : List (Option Package)} {h : H} {h' : H'} {cycles cycles' : List Cycles}

/-- Two runs that serve the same packages on the same store agree in all that can be seen. -/
theorem ServesAll.agree {run : Run H} {run' : Run H'} (hrun : ServesAll db ps run)
    (hrun' : ServesAll db ps run') :
    run.served = run'.served ∧ run.status = run'.status ∧
      run.sent.map Sent.data = run'.sent.map Sent.data := by
  have hserved : run.served = run'.served := hrun.served.symm.trans hrun'.served
  refine ⟨hserved, ?_, ?_⟩
  · rw [hrun.status, hrun'.status, hserved]
  · rw [hrun.replies, hrun'.replies, hserved]

/-- They have also counted the same operations. -/
theorem ServesAll.number_eq (hrun : ServesAll db ps ((Server.start hdl h db).serve hdl cycles))
    (hrun' : ServesAll db ps ((Server.start hdl' h' db).serve hdl' cycles'))
    {op : Operation} (hop : op ≠ .delete) :
    ((Server.start hdl h db).serve hdl cycles).server.exec.number op
      = ((Server.start hdl' h' db).serve hdl' cycles').server.exec.number op := by
  have hlog := congrArg Served.log (hrun.agree hrun').1
  simp only [Run.served] at hlog
  rw [(Server.counts_of_serve hdl cycles _ hop).1, (Server.counts_of_serve hdl' cycles' _ hop).1,
    Run.executed_eq, Run.executed_eq, hlog]
  rfl

end Agree

open UDPOpHandler (workloadFile) in
/-- **The transport makes no difference.** Let the same operations, each of at most 8192 bytes, be
sent over TCP and be replayed from a workload file, on the same store, and let no send be cut short.
Then both runs of the server end in the same way, with the same store, the same packages executed,
the same replies and the same numbers of operations. -/
theorem transports_agree (ms : List Message) (hms : ∀ m ∈ ms, m.encode.length ≤ packageBufferSize)
    (headerWords : ℕ → Buffer 4) (rest : Bytes) (tcpReads : List Transfer)
    (htcpReads : Delivering tcpReads)
    (hlen : (frames (ms.map (fun m => m.encode) ++ [endFlag])).length ≤ tcpReads.length)
    (contents : Buffer maxFileSize) (udpReads : List Transfer) (hudpReads : Delivering udpReads)
    (preins trailing : Bytes) (hpreins : preins.length = 4)
    (hfits : (workloadFile preins ms trailing).length ≤ maxFileSize)
    (tcpWrites udpWrites : ℕ → Transfer) (htcp : SendsAll tcpWrites) (hudp : SendsAll udpWrites)
    (h : UDPOpHandler)
    (hcreate : UDPOpHandler.create contents udpReads (workloadFile preins ms trailing) udpWrites
      = .ok h)
    (db : DB) (tcpCycles udpCycles : List Cycles) (htcpCycles : ms.length < tcpCycles.length)
    (hudpCycles : ms.length < udpCycles.length) :
    let tcp := (Server.start TCPOpHandler.hdl (TCPOpHandler.create headerWords
      (frames (ms.map (fun m => m.encode) ++ [endFlag]) ++ rest) tcpReads tcpWrites) db).serve
      TCPOpHandler.hdl tcpCycles
    let udp := (Server.start UDPOpHandler.hdl h db).serve UDPOpHandler.hdl udpCycles
    (tcp.served = udp.served ∧ tcp.status = udp.status ∧
      tcp.sent.map Sent.data = udp.sent.map Sent.data) ∧
    ∀ op, op ≠ .delete → tcp.server.exec.number op = udp.server.exec.number op := by
  have htcpPending := TCPOpHandler.pending_create headerWords (fits_of_encode hms) rest htcpReads
    hlen tcpWrites
  rw [map_decode_encode] at htcpPending
  obtain ⟨hudpPending, hwrites⟩ :=
    UDPOpHandler.pending_of_create hudpReads hpreins hfits hcreate
  rw [← hwrites] at hudp
  have htcpServes := TCPOpHandler.feeds.serves_all TCPOpHandler.sendsFrom htcpPending htcp db
    tcpCycles (by rwa [List.length_map])
  have hudpServes := UDPOpHandler.feeds.serves_all UDPOpHandler.sendsFrom hudpPending hudp db
    udpCycles (by rwa [List.length_map])
  exact ⟨htcpServes.agree hudpServes, fun op hop => htcpServes.number_eq hudpServes hop⟩

open UDPOpHandler (workloadFile) in
/-- The update of the two runs above. -/
theorem transports_agree_update :
    ∃ h, UDPOpHandler.create .zero [.upTo 20, .upTo 20, .upTo 20]
        (workloadFile [0, 0, 0, 0] [updateMessage] []) bufferSends = .ok h ∧
      ((Server.start TCPOpHandler.hdl (TCPOpHandler.create (fun _ => .zero)
        (frames ([updateMessage].map (fun m => m.encode) ++ [endFlag]) ++ [])
        (List.replicate 38 (.upTo 2)) bufferSends) SortedMap.empty).serve TCPOpHandler.hdl
        [⟨0, 0⟩, ⟨0, 0⟩]).status
      = ((Server.start UDPOpHandler.hdl h SortedMap.empty).serve UDPOpHandler.hdl
        [⟨0, 0⟩, ⟨0, 0⟩]).status := by
  obtain ⟨h, hcreate⟩ := exists_create_update
  have hagree := transports_agree [updateMessage] (by decide) (fun _ => .zero) []
    (List.replicate 38 (.upTo 2)) (fun t ht => ⟨1, (List.mem_replicate.mp ht).2⟩) (by decide)
    .zero _ delivering_twenties [0, 0, 0, 0] [] rfl (by decide) bufferSends bufferSends
    sendsAll_bufferSends sendsAll_bufferSends h hcreate SortedMap.empty [⟨0, 0⟩, ⟨0, 0⟩]
    [⟨0, 0⟩, ⟨0, 0⟩] (by decide) (by decide)
  exact ⟨h, hcreate, hagree.1.2.1⟩

end BenchLx.Ycsb
