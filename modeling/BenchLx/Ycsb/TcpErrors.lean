import BenchLx.Ycsb.TcpFraming

/-!
# Failed reads on a TCP connection

`receive` adds the result of `read()` to its index without looking at it, so a failed read moves the
index back or out of the loop. `frameReceived_iff` says for one call that this always costs the
frame, and `ready_decodes_frame_iff` says for a run when a `READY` stands for a message that has
been received.
-/

namespace BenchLx.Ycsb

open TCPOpHandler

/-- The outcomes of `read()` that were used up between two states of the handler. -/
def usedReads (h h' : TCPOpHandler) : List Transfer :=
  h.reads.take (h.reads.length - h'.reads.length)

theorem usedReads_eq {h h' : TCPOpHandler} {used : List Transfer}
    (hused : h.reads = used ++ h'.reads) : usedReads h h' = used := by
  rw [usedReads, hused, List.length_append, Nat.add_sub_cancel, List.take_left]

/-- The call has received a frame. -/
def ReceivesFrame (call : ReceiveCall TCPOpHandler) : Prop :=
  ∃ word d, FrameReceived call.before call.after word d

/-- The call has received a frame and its package is what `from_bytes` decodes from exactly the
payload of that frame. -/
def DecodesFrame (call : ReceiveCall TCPOpHandler) : Prop :=
  ∃ word d, FrameReceived call.before call.after word d ∧ decode d = some call.pkg

/-- None of the `read()` calls of the call returned -1. -/
def NoReadFailed (call : ReceiveCall TCPOpHandler) : Prop :=
  .error ∉ usedReads call.before call.after

/-- The length that the connection announces next. -/
def announced (h : TCPOpHandler) : ℕ :=
  ofBytesBE (h.input.take 4)

theorem TCPOpHandler.FrameReceived.announced_eq {h h' : TCPOpHandler} {word d : Bytes}
    (hframe : FrameReceived h h' word d) : announced h = d.length := by
  rw [announced, hframe.input_eq, hframe.length_payload, List.append_assoc,
    List.take_left' hframe.length_word]

/-- What a call that does not stop has done. -/
theorem loops_of_ne_stop {h h' : TCPOpHandler} {pkg pkg' : Package} {res : Result}
    (hreceive : h.receive pkg = .ok (res, pkg', h')) (hres : res ≠ .stop) :
    ∃ header payload size, Loops h header payload h' ∧
      fromBytes (h'.packageBuffer.ptr 0) (ofBytesBE (header.buffer.take 4)) pkg
        = .ok (size, pkg') ∧ (res = .ready → size ≠ 0) := by
  cases receive_eq_ok_iff.mp hreceive with
  | invalidLength => exact absurd rfl hres
  | endFlag => exact absurd rfl hres
  | rejected hloops _ hdecode => exact ⟨_, _, 0, hloops, hdecode, fun h => by cases h⟩
  | accepted hloops _ hsize hdecode => exact ⟨_, _, _, hloops, hdecode, fun _ => hsize⟩

section Call

variable {call : ReceiveCall TCPOpHandler} {pkg : Package}

/-- **A failed read costs the frame.** A call that does not stop has received a frame if and only if
none of its reads failed. -/
theorem frameReceived_iff
    (hreceive : call.before.receive pkg = .ok (call.result, call.pkg, call.after))
    (hres : call.result ≠ .stop) : ReceivesFrame call ↔ NoReadFailed call := by
  obtain ⟨header, payload, size, hloops, -, -⟩ := loops_of_ne_stop hreceive hres
  obtain ⟨used, hused, hgood, hbad⟩ := hloops.spec
  rw [NoReadFailed, usedReads_eq hused]
  constructor
  · intro hframe herr
    exact hbad herr hframe
  · intro herr
    obtain ⟨word, d, hframe, -, -⟩ := hgood herr
    exact ⟨word, d, hframe⟩

/-- A `READY` whose reads all succeeded has decoded its frame if and only if the frame is long
enough for the header of a message. -/
theorem decodesFrame_iff
    (hreceive : call.before.receive Package.fresh = .ok (call.result, call.pkg, call.after))
    (hready : call.result = .ready) :
    DecodesFrame call ↔ NoReadFailed call ∧ 19 ≤ announced call.before := by
  obtain ⟨header, payload, size, hloops, hparse, hsize⟩ :=
    loops_of_ne_stop hreceive (by rw [hready]; decide)
  constructor
  · intro ⟨word, d, hframe, hdecode⟩
    refine ⟨(frameReceived_iff hreceive (by rw [hready]; decide)).mp ⟨word, d, hframe⟩, ?_⟩
    obtain ⟨m, hm, -⟩ := decode_eq_some_iff.mp hdecode
    have hle := hm.length_le
    rw [Package.length_encode] at hle
    rw [hframe.announced_eq]
    omega
  · intro ⟨herr, hlong⟩
    obtain ⟨used, hused, hgood, -⟩ := hloops.spec
    rw [NoReadFailed, usedReads_eq hused] at herr
    obtain ⟨word, d, hframe, hlen, hstored⟩ := hgood herr
    rw [hframe.announced_eq] at hlong
    rw [← hlen] at hparse
    refine ⟨word, d, hframe, ?_⟩
    rw [fromBytes_of_holds (Buffer.holds_store hstored) hlong hparse, if_neg (hsize hready)]

end Call

/-- **When a `READY` stands for a received message.** In a run of `receive` calls over any outcomes
of `read()`, a call that returns `READY` has decoded the payload of its frame, and all calls before
it have received theirs, exactly when no `read()` up to then failed and the frame announces at least
the 19 bytes of a header. -/
theorem ready_decodes_frame_iff (h : TCPOpHandler) (n : ℕ)
    (earlier later : List (ReceiveCall TCPOpHandler)) (call : ReceiveCall TCPOpHandler)
    (hcalls : receiveCalls hdl n h = .ok (earlier ++ call :: later))
    (hearlier : ∀ c ∈ earlier, c.result ≠ .stop) (hready : call.result = .ready) :
    (∀ c ∈ earlier, ReceivesFrame c) ∧ DecodesFrame call ↔
      (∀ c ∈ earlier ++ [call], NoReadFailed c) ∧ 19 ≤ announced call.before := by
  have hreceive := receive_of_mem_calls hcalls (c := call) (by simp)
  have hframes : (∀ c ∈ earlier, ReceivesFrame c) ↔ ∀ c ∈ earlier, NoReadFailed c :=
    forall₂_congr fun c hc =>
      frameReceived_iff (receive_of_mem_calls hcalls (by simp [hc])) (hearlier c hc)
  rw [hframes, decodesFrame_iff hreceive hready, List.forall_mem_append, List.forall_mem_singleton,
    and_assoc]

/-- The run of one update that arrives in full. -/
theorem ready_decodes_frame_update :
    ∃ call, receiveCalls hdl 1 (pairwise [updateMessage.encode]) = .ok [call] ∧
      call.result = .ready ∧ DecodesFrame call := by
  have hrun : (receiveCalls hdl 1 (pairwise [updateMessage.encode])).map (fun calls =>
      calls.map fun c => (c.result, usedReads c.before c.after, announced c.before))
      = .ok [(.ready, List.replicate 14 (.upTo 2), 24)] := by
    rfl
  obtain ⟨calls, hcalls, hmap⟩ := map_eq_ok.mp hrun
  obtain ⟨call, rfl⟩ := List.length_eq_one_iff.mp (by simpa using congrArg List.length hmap)
  simp only [List.map_cons, List.map_nil, List.cons.injEq, Prod.mk.injEq, and_true] at hmap
  obtain ⟨hready, hused, hlength⟩ := hmap
  refine ⟨call, hcalls, hready, ?_⟩
  refine ((ready_decodes_frame_iff _ 1 [] [] call hcalls (by simp) hready).mpr ⟨?_, ?_⟩).2
  · intro c hc
    rw [List.mem_singleton.mp hc, NoReadFailed, hused]
    decide
  · rw [hlength]
    decide

/-- A connection that carries one update and fails from then on; `header_word` is where it was in
the call before. -/
def resetAfterUpdate : TCPOpHandler :=
  create (fun _ => ⟨fun j => if j = 3 then 24 else 0⟩) (frame updateMessage.encode)
    [.upTo 4, .upTo 24, .error, .error] (fun _ => .upTo 0)

/-- After the reset the update is returned a second time, out of a frame that was never received. -/
theorem ready_after_reset :
    ∃ first second, receiveCalls hdl 2 resetAfterUpdate = .ok [first, second] ∧
      first.outcome = (.ready, some updateMessage.toPackage) ∧
      second.outcome = (.ready, some updateMessage.toPackage) ∧
      ¬ ReceivesFrame second ∧ ¬ DecodesFrame second := by
  have hrun : (receiveCalls hdl 2 resetAfterUpdate).map (fun calls => calls.map fun c =>
      (c.outcome, usedReads c.before c.after))
      = .ok [((.ready, some updateMessage.toPackage), [.upTo 4, .upTo 24]),
        ((.ready, some updateMessage.toPackage), [.error, .error])] := by
    rfl
  obtain ⟨calls, hcalls, hmap⟩ := map_eq_ok.mp hrun
  obtain ⟨first, second, rfl⟩ := List.length_eq_two.mp (by simpa using congrArg List.length hmap)
  simp only [List.map_cons, List.map_nil, List.cons.injEq, Prod.mk.injEq, and_true] at hmap
  obtain ⟨⟨hfirst, -⟩, hsecond, hused⟩ := hmap
  have hframe : ¬ ReceivesFrame second := by
    rw [frameReceived_iff (receive_of_mem_calls hcalls (by simp))
      (by rw [(Prod.mk.inj hsecond).1]; decide), NoReadFailed, hused]
    decide
  exact ⟨first, second, hcalls, hfirst, hsecond, hframe,
    fun ⟨word, d, hreceived, _⟩ => hframe ⟨word, d, hreceived⟩⟩

end BenchLx.Ycsb
