import BenchLx.Ycsb.UdpSequence

/-!
# The datagrams sent as requests

A call of `receive` sends as many bytes as the operation it has decoded is long, but always from the
start of the buffer, where the header words of the file are. The datagrams of a run are the
operations only where the file repeats itself (`requests_iff`).
-/

namespace BenchLx.Ycsb

/-- The datagrams that a call of `receive` has sent. -/
def ReceiveCall.requests (c : ReceiveCall UDPOpHandler) : List Bytes :=
  c.after.requests.drop c.before.requests.length

namespace UDPOpHandler

/-- Each call sends the bytes of the operation it gives and nothing else, and all calls together the
operations one after the other. -/
structure SendsOperations (ms : List Message) (cs : List (ReceiveCall UDPOpHandler)) : Prop where
  each : ∀ i (hi : i < cs.length), cs[i].requests = (ms[i]?.map fun m => m.encode).toList
  all : (cs.flatMap ReceiveCall.requests).flatten = encodeAll (ms.take cs.length)

theorem flatMap_eq_map_take {α β γ : Type} {g : α → List γ} {f : β → γ} {as : List α}
    {bs : List β} (h : ∀ i (hi : i < as.length), g as[i] = (bs[i]?.map f).toList) :
    as.flatMap g = (bs.take as.length).map f := by
  induction as generalizing bs with
  | nil => rfl
  | cons a as ih =>
    have hhead := h 0 (by simp)
    cases bs with
    | nil =>
      have htail := @ih [] fun i hi => h (i + 1) (by simpa using hi)
      rw [List.flatMap_cons, htail]
      simpa using hhead
    | cons b bs =>
      have htail := @ih bs fun i hi => h (i + 1) (by simpa using hi)
      rw [List.flatMap_cons, htail]
      exact congrArg (· ++ _) hhead

section Requests

variable {h h' : UDPOpHandler} {w tail : Bytes} {ms done : List Message} {pkg pkg' : Package}
  {res : Result}

/-- No call changes what has been loaded. -/
theorem Holds.receive (hh : h.Holds w) (hreceive : h.receive pkg = .ok (res, pkg', h')) :
    h'.Holds w ∧ h'.totalOps = h.totalOps := by
  cases receive_eq_ok_iff.mp hreceive with
  | stop => exact ⟨hh, rfl⟩
  | replay => exact ⟨⟨hh.fits, hh.size_eq, hh.held⟩, rfl⟩

theorem Holds.runCalls (hh : h.Holds w) {calls : List Call}
    (hrun : UDPOpHandler.runCalls calls h = .ok h') : h'.Holds w ∧ h'.totalOps = h.totalOps := by
  induction calls generalizing h with
  | nil =>
    cases hrun
    exact ⟨hh, rfl⟩
  | cons call calls ih =>
    cases call with
    | receive =>
      obtain ⟨⟨res, pkg', h₁⟩, hreceive, hrun⟩ := bind_eq_ok.mp hrun
      obtain ⟨hh₁, htotal₁⟩ := hh.receive hreceive
      obtain ⟨hh', htotal'⟩ := ih hh₁ hrun
      exact ⟨hh', htotal'.trans htotal₁⟩
    | reset => exact ih (h := h.reset) ⟨hh.fits, hh.size_eq, hh.held⟩ hrun

/-- The datagram of a call is the start of the file, as long as the operation that is decoded. -/
theorem Replays.requests_eq {m : Message} (hr : h.Replays w done (m.encode ++ tail))
    (hleft : h.ops < h.totalOps) (hreceive : h.receive Package.fresh = .ok (res, pkg', h')) :
    h'.requests = h.requests ++ [w.take m.encode.length] := by
  cases receive_eq_ok_iff.mp hreceive with
  | stop hdone => exact absurd hdone (UInt64.not_le.mpr hleft)
  | replay readSize request _ hparse hrequest =>
    rw [hr.parse_eq] at hparse
    cases hparse
    obtain ⟨hlen, hstart⟩ := Ptr.read_eq_ok_iff.mp hrequest
    have hle : m.encode.length ≤ w.length := by
      have hsize := hr.size_eq_add
      rw [hr.size_eq, List.length_append] at hsize
      omega
    have hpre := hstart.isPrefix hr.held (by omega)
    rw [List.prefix_iff_eq_take, hlen] at hpre
    rw [← hpre]

/-- **A run of `receive`** decodes the operations in front of the handler one by one, and then none
if no more are counted. Each datagram is a start of the file. -/
theorem Replays.receiveCalls (hr : h.Replays w done (encodeAll ms ++ tail))
    (hops : h.ops.toNat = done.length) (hcount : done.length + ms.length ≤ h.totalOps.toNat)
    {n : ℕ} (hn : n ≤ ms.length ∨ h.totalOps.toNat = done.length + ms.length) :
    ∃ cs, Ycsb.receiveCalls hdl n h = .ok cs ∧ cs.length = n ∧
      ∀ i (hi : i < cs.length), cs[i].outcome = replayed ms i ∧
        cs[i].requests = (ms[i]?.map fun m => w.take m.encode.length).toList := by
  induction n generalizing h done ms with
  | zero => exact ⟨[], rfl, rfl, fun i hi => absurd hi (Nat.not_lt_zero i)⟩
  | succ n ih =>
    cases ms with
    | nil =>
      -- every counted operation is behind the handler, which stays where it is
      have htotal : h.totalOps.toNat = done.length := hn.resolve_left (Nat.not_succ_le_zero n)
      have hdone : h.totalOps ≤ h.ops := by
        rw [UInt64.le_iff_toNat_le, hops, htotal]
      obtain ⟨cs, hcs, hlen, hall⟩ := ih hr hops hcount (.inr htotal)
      refine ⟨⟨h, .stop, Package.fresh, h⟩ :: cs, ?_, by rw [List.length_cons, hlen], ?_⟩
      · exact receiveCalls_succ_eq_ok_iff.mpr
          ⟨.stop, _, h, cs, receive_eq_ok_iff.mpr (.stop hdone), hcs, rfl⟩
      · intro i hi
        cases i with
        | zero => exact ⟨rfl, List.drop_length⟩
        | succ i => exact hall i (by simpa using hi)
    | cons m ms =>
      rw [List.length_cons] at hcount hn
      have hnext : h.Replays w done (m.encode ++ (encodeAll ms ++ tail)) := by
        rw [← List.append_assoc]
        exact hr
      have hleft : h.ops < h.totalOps := by
        rw [UInt64.lt_iff_toNat_lt, hops]
        omega
      obtain ⟨h', hreceive, hr', hops', htotal'⟩ := hnext.replay_one hleft
      have hlen' : (done ++ [m]).length = done.length + 1 := List.length_append
      obtain ⟨cs, hcs, hlen, hall⟩ := ih hr' (by rw [hops', hops, hlen'])
        (by rw [htotal', hlen']; omega) (by rw [htotal', hlen']; omega)
      refine ⟨⟨h, .ready, m.toPackage, h'⟩ :: cs, ?_, by rw [List.length_cons, hlen], ?_⟩
      · exact receiveCalls_succ_eq_ok_iff.mpr ⟨.ready, _, h', cs, hreceive, hcs, rfl⟩
      · intro i hi
        cases i with
        | zero =>
          refine ⟨rfl, ?_⟩
          show h'.requests.drop h.requests.length = [w.take m.encode.length]
          rw [hnext.requests_eq hleft hreceive, List.drop_left]
        | succ i => exact hall i (by simpa using hi)

end Requests

/-- **When the datagrams are the operations.** Let the bytes `w` of a workload file be loaded, whose
header counts at least the operations `ms` that follow it. After any calls of `receive` and `reset`,
a `reset` and `n` calls of `receive`, more than `ms` has only if the header counts no more, give the
operations in order; each call sends exactly the bytes of its operation, and all of them together
the operations one after the other, exactly when the file starts with each of the first `n`
operations. -/
theorem requests_iff (contents : Buffer maxFileSize) (reads : List Transfer) (file : Bytes)
    (writes : ℕ → Transfer) (w tail : Bytes) (ms : List Message) (h h' : UDPOpHandler)
    (hcreate : create contents reads file writes = .ok h) (hholds : h.Holds w)
    (hheader : 8 ≤ w.length) (hbytes : w.drop 8 = encodeAll ms ++ tail)
    (hcount : ms.length ≤ operationCount w) (calls : List Call)
    (hrun : runCalls calls h = .ok h') (n : ℕ)
    (hn : n ≤ ms.length ∨ operationCount w = ms.length) :
    ∃ cs, receiveCalls hdl n h'.reset = .ok cs ∧ cs.length = n ∧
      (∀ i (hi : i < cs.length), cs[i].outcome = replayed ms i) ∧
      (SendsOperations ms cs ↔ ∀ m ∈ ms.take n, m.encode <+: w) := by
  obtain ⟨hholds', htotal'⟩ := hholds.runCalls hrun
  have htotal : h'.reset.totalOps.toNat = operationCount w :=
    (congrArg UInt64.toNat htotal').trans (totalOps_of_create hcreate hholds hheader)
  have hstart := hholds'.reset hheader
  rw [hbytes] at hstart
  obtain ⟨cs, hcs, hlen, hall⟩ := hstart.receiveCalls rfl (by simpa [htotal] using hcount)
    (by simpa [htotal] using hn)
  refine ⟨cs, hcs, hlen, fun i hi => (hall i hi).1, ?_⟩
  constructor
  · intro hsends m hm
    obtain ⟨i, hi, rfl⟩ := List.getElem_of_mem hm
    rw [List.length_take] at hi
    have heach := hsends.each i (by omega)
    rw [(hall i (by omega)).2, List.getElem?_eq_getElem (by omega : i < ms.length)] at heach
    rw [List.getElem_take, List.prefix_iff_eq_take]
    exact (List.singleton_inj.mp heach).symm
  · intro hpre
    have heach : ∀ i (hi : i < cs.length),
        cs[i].requests = (ms[i]?.map fun m => m.encode).toList := by
      intro i hi
      rw [(hall i hi).2]
      cases hget : ms[i]? with
      | none => rfl
      | some m =>
        have hm : m ∈ ms.take n :=
          List.mem_of_getElem? ((List.getElem?_take_of_lt (by omega)).trans hget)
        have htake := List.prefix_iff_eq_take.mp (hpre m hm)
        rw [Option.map_some, Option.map_some, ← htake]
    refine ⟨heach, ?_⟩
    rw [flatMap_eq_map_take heach, encodeAll, List.flatMap_def]

/-- A message that repeats its first eight bytes, which can be the header words of a file. -/
def repeatingMessage : Message :=
  ⟨⟨3, 0, 0, 0x1030000, 0x1030000, []⟩, by decide, by simp⟩

/-- A file that starts with its only operation, and two calls. -/
theorem requests_iff_repeating :
    ∃ h, create .zero [.upTo 20, .upTo 20, .upTo 20]
        (workloadFile [3, 0, 0, 0] [repeatingMessage] []) (fun _ => .upTo 0) = .ok h ∧
      ∀ calls h', runCalls calls h = .ok h' → ∃ cs, receiveCalls hdl 2 h'.reset = .ok cs ∧
        SendsOperations [repeatingMessage] cs := by
  have hsize : (create .zero [.upTo 20, .upTo 20, .upTo 20]
      (workloadFile [3, 0, 0, 0] [repeatingMessage] []) (fun _ => .upTo 0)).map wlSize
        = .ok 27 := by
    rfl
  obtain ⟨h, hcreate, -⟩ := map_eq_ok.mp hsize
  have hreads : Delivering [.upTo 20, .upTo 20, .upTo 20] :=
    fun t ht => ⟨19, by simpa using ht⟩
  have hholds := (create_spec hreads (by decide) hcreate).1
  refine ⟨h, hcreate, fun calls h' hrun => ?_⟩
  obtain ⟨cs, hcs, -, -, hsends⟩ := requests_iff _ _ _ _ _ [] [repeatingMessage] h h' hcreate
    hholds (by decide) (by decide) (by decide) calls hrun 2 (.inr (by decide))
  refine ⟨cs, hcs, hsends.mpr fun m hm => ?_⟩
  rw [List.take_of_length_le (by simp), List.mem_singleton] at hm
  rw [hm]
  decide

/-- A file with one update: the datagram holds the header words and the start of the update. -/
theorem request_holds_header :
    ∃ h, create .zero [.upTo 20, .upTo 20, .upTo 20]
        (workloadFile [0, 0, 0, 0] [updateMessage] []) (fun _ => .upTo 0) = .ok h ∧
      ∃ cs, receiveCalls hdl 1 h.reset = .ok cs ∧
        cs.map ReceiveCall.requests
          = [[[0, 0, 0, 0, 0, 0, 0, 1] ++ updateMessage.encode.take 16]] ∧
        ¬ SendsOperations [updateMessage] cs := by
  have hrun : (create .zero [.upTo 20, .upTo 20, .upTo 20]
      (workloadFile [0, 0, 0, 0] [updateMessage] []) (fun _ => .upTo 0)
        >>= fun h => receiveCalls hdl 1 h.reset).map (fun cs => cs.map ReceiveCall.requests)
      = .ok [[[0, 0, 0, 0, 0, 0, 0, 1] ++ updateMessage.encode.take 16]] := by
    rfl
  obtain ⟨cs, hbind, hrequests⟩ := map_eq_ok.mp hrun
  obtain ⟨h, hcreate, hcs⟩ := bind_eq_ok.mp hbind
  refine ⟨h, hcreate, cs, hcs, hrequests, fun hsends => ?_⟩
  obtain ⟨c, rfl⟩ := List.length_eq_one_iff.mp (by simpa using congrArg List.length hrequests)
  have heach : c.requests = [updateMessage.encode] := hsends.each 0 (by simp)
  rw [List.map_singleton, heach] at hrequests
  exact absurd hrequests (by decide)

end UDPOpHandler

end BenchLx.Ycsb
