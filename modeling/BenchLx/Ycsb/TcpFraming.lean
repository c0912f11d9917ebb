import BenchLx.Ycsb.TcpReceive

/-!
# Framing on a TCP connection

A client sends every payload with its length in front. `receive_frame` says what one call does with
a frame that arrives in full, in whatever chunks, and `receiveCalls_frames` says it for a run. From
the run lemma follow that the calls stay in step with the frames (`receive_follows_frames`) and when
the bytes of earlier frames show (`receive_independent_of_history_iff`).
-/

namespace BenchLx.Ycsb

open TCPOpHandler

/-! ## Frames -/

/-- A payload with its length in front. -/
def frame (d : Bytes) : Bytes :=
  toBytesBE 4 d.length ++ d

/-- The frames of a list of payloads one after the other. -/
def frames (ds : List Bytes) : Bytes :=
  ds.flatMap frame

@[simp] theorem length_frame (d : Bytes) : (frame d).length = 4 + d.length := by
  simp [frame]

@[simp] theorem frames_nil : frames [] = [] := rfl

@[simp] theorem frames_cons (d : Bytes) (ds : List Bytes) :
    frames (d :: ds) = frame d ++ frames ds := rfl

theorem ofBytesBE_length {d : Bytes} (hd : d.length ≤ packageBufferSize) :
    ofBytesBE (toBytesBE 4 d.length) = d.length := by
  rw [ofBytesBE_toBytesBE, Nat.mod_eq_of_lt]
  exact lt_of_le_of_lt hd (by decide)

/-! ## One frame -/

section Frame

variable {h h' : TCPOpHandler} {d rest : Bytes} {pkg pkg' : Package} {res : Result}

/-- What a call did that received the frame of `d`: the input is behind the frame, the payload
stands in the buffer over what was there before, and the result is the one of `from_bytes` on that
buffer, but for the end flag. -/
structure TakesFrame (h : TCPOpHandler) (pkg : Package) (d rest : Bytes) (res : Result)
    (pkg' : Package) (h' : TCPOpHandler) : Prop where
  input_eq : h'.input = rest
  delivering : Delivering h'.reads
  stored : h.packageBuffer.store 0 d = .ok h'.packageBuffer
  result : (d = Ycsb.endFlag ∧ res = .stop) ∨ (d ≠ Ycsb.endFlag ∧ ∃ r,
    fromBytes (h'.packageBuffer.ptr 0) d.length pkg = .ok (r, pkg') ∧
      res = if r = 0 then .incomplete else .ready)

/-- The header word of a frame is the length of its payload. -/
theorem receiveHeader_frame (hfit : d.length ≤ packageBufferSize)
    (hinput : h.input = frame d ++ rest) (hreads : Delivering h.reads) {header : Received 4}
    (hheader : h.receiveHeader = .ok header) :
    ofBytesBE (header.buffer.take 4) = d.length ∧ header.input = d ++ rest ∧
      Delivering header.reads := by
  obtain ⟨used, hused, hgood, -⟩ :=
    receiveLoop_spec (Nat.zero_le 4) (by decide) hheader
  rw [hused] at hreads
  obtain ⟨word, htakes⟩ := hgood hreads.of_append.1
  have hlen : word.length = 4 := htakes.length_eq
  have hsplit := htakes.input_eq
  rw [hinput, frame, List.append_assoc] at hsplit
  obtain ⟨rfl, hrest⟩ := List.append_inj hsplit (by rw [hlen, length_toBytesBE])
  refine ⟨?_, hrest.symm, hreads.of_append.2⟩
  rw [Buffer.take_store htakes.stored hlen, ofBytesBE_length hfit]

/-- Both loops on a frame. -/
theorem loops_frame (hfit : d.length ≤ packageBufferSize) (hinput : h.input = frame d ++ rest)
    (hreads : Delivering h.reads) {header : Received 4} {payload : Received packageBufferSize}
    (hloops : Loops h header payload h') :
    h'.input = rest ∧ Delivering h'.reads ∧
      h.packageBuffer.store 0 d = .ok h'.packageBuffer := by
  obtain ⟨hvalue, hdrop, -⟩ := receiveHeader_frame hfit hinput hreads hloops.header_eq
  obtain ⟨used, hused, hgood, -⟩ := hloops.spec
  rw [hused] at hreads
  obtain ⟨word, d', hframe, hlen, hstored⟩ := hgood hreads.of_append.1
  have hsplit := hframe.input_eq
  rw [hinput, frame, List.append_assoc, List.append_assoc] at hsplit
  obtain ⟨-, hsplit⟩ := List.append_inj hsplit (by rw [length_toBytesBE, hframe.length_word])
  obtain ⟨rfl, hrest⟩ := List.append_inj hsplit (by rw [hlen, hvalue])
  exact ⟨hrest.symm, hreads.of_append.2, hstored⟩

/-- **One frame.** A call that returns on a connection whose next bytes are a frame has received
exactly that frame. -/
theorem receive_frame (hfit : d.length ≤ packageBufferSize) (hinput : h.input = frame d ++ rest)
    (hreads : Delivering h.reads) (hreceive : h.receive pkg = .ok (res, pkg', h')) :
    TakesFrame h pkg d rest res pkg' h' := by
  have hvalue := fun header => @receiveHeader_frame h d rest hfit hinput hreads header
  have hflag : h.packageBuffer.store 0 d = .ok h'.packageBuffer →
      (d.length = 6 ∧ h'.packageBuffer.take 6 = Ycsb.endFlag ↔ d = Ycsb.endFlag) := by
    intro hstored
    constructor
    · intro ⟨hsix, hd⟩
      rwa [Buffer.take_store hstored hsix] at hd
    · intro hd
      have hsix : d.length = 6 := by rw [hd]; rfl
      exact ⟨hsix, by rw [Buffer.take_store hstored hsix, hd]⟩
  cases receive_eq_ok_iff.mp hreceive with
  | invalidLength hheader hlong =>
    rw [(hvalue _ hheader).1] at hlong
    omega
  | endFlag hloops hsize hend =>
    obtain ⟨hrest, hdeliver, hstored⟩ := loops_frame hfit hinput hreads hloops
    rw [(hvalue _ hloops.header_eq).1] at hsize
    exact ⟨hrest, hdeliver, hstored, .inl ⟨(hflag hstored).mp ⟨hsize, hend⟩, rfl⟩⟩
  | rejected hloops hno hdecode =>
    obtain ⟨hrest, hdeliver, hstored⟩ := loops_frame hfit hinput hreads hloops
    rw [(hvalue _ hloops.header_eq).1] at hno hdecode
    exact ⟨hrest, hdeliver, hstored, .inr ⟨fun hd => hno ((hflag hstored).mpr hd), 0, hdecode, rfl⟩⟩
  | accepted hloops hno hsize hdecode =>
    obtain ⟨hrest, hdeliver, hstored⟩ := loops_frame hfit hinput hreads hloops
    rw [(hvalue _ hloops.header_eq).1] at hno hdecode
    exact ⟨hrest, hdeliver, hstored,
      .inr ⟨fun hd => hno ((hflag hstored).mpr hd), _, hdecode, (if_neg hsize).symm⟩⟩

/-- A call returns once the frame is there and there are outcomes of `read()` enough to deliver it
byte by byte. -/
theorem receive_frame_returns (hfit : d.length ≤ packageBufferSize)
    (hinput : h.input = frame d ++ rest) (hreads : Delivering h.reads)
    (hlen : (frame d).length ≤ h.reads.length) (pkg : Package) :
    ∃ res pkg' h', h.receive pkg = .ok (res, pkg', h') ∧
      h.reads.length ≤ h'.reads.length + (frame d).length := by
  rw [length_frame] at hlen ⊢
  have hbytes : h.input.length = 4 + d.length + rest.length := by
    rw [hinput, List.length_append, length_frame]
  obtain ⟨header, hheader, hused⟩ := receiveLoop_returns h.input (h.headerWords 0) hreads
    (Nat.zero_le 4) (le_refl 4) (by decide) (by omega) (by omega)
  obtain ⟨hvalue, hdrop, hdeliver⟩ := receiveHeader_frame hfit hinput hreads hheader
  have hbuf : packageBufferSize < sizeMod := by decide
  obtain ⟨payload, hpayload, hused'⟩ := receiveLoop_returns header.input h.packageBuffer
    hdeliver (Nat.zero_le d.length) hfit (by omega)
    (by rw [hdrop, List.length_append]; omega) (by omega)
  have hloops : Loops h header payload ((h.afterHeader header).afterPayload payload) :=
    ⟨hheader, by omega, by rw [hvalue]; exact hpayload, rfl⟩
  have hcount : h.reads.length
      ≤ ((h.afterHeader header).afterPayload payload).reads.length + (4 + d.length) := by
    simp only [afterPayload]
    omega
  by_cases hflag : ofBytesBE (header.buffer.take 4) = 6 ∧
      ((h.afterHeader header).afterPayload payload).packageBuffer.take 6 = Ycsb.endFlag
  · exact ⟨_, _, _, receive_eq_ok_iff.mpr (.endFlag hloops hflag.1 hflag.2), hcount⟩
  · have hcovers : ∀ n ≤ packageBufferSize, (payload.buffer.ptr 0).Covers n :=
      fun n hn => Buffer.covers_ptr (by omega)
    obtain ⟨r, pkg', hdecode⟩ := fromBytes_returns (hcovers 19 (by decide))
      (hcovers (ofBytesBE (header.buffer.take 4)) (by omega)) pkg
    by_cases hr : r = 0
    · subst hr
      exact ⟨_, _, _, receive_eq_ok_iff.mpr (.rejected hloops hflag hdecode), hcount⟩
    · exact ⟨_, _, _, receive_eq_ok_iff.mpr (.accepted hloops hflag hr hdecode), hcount⟩

end Frame

/-! ## Runs of frames -/

section Run

variable {ds : List Bytes} {h : TCPOpHandler} {rest : Bytes}

/-- **A run of frames.** Every call starts where its frame starts and takes that frame. -/
theorem receiveCalls_frames (hfit : ∀ d ∈ ds, d.length ≤ packageBufferSize)
    (hinput : h.input = frames ds ++ rest) (hreads : Delivering h.reads)
    {calls : List (ReceiveCall TCPOpHandler)}
    (hcalls : receiveCalls hdl ds.length h = .ok calls) :
    calls.length = ds.length ∧ ∀ i (hi : i < ds.length) (hi' : i < calls.length),
      calls[i].before.input = frames (ds.drop i) ++ rest ∧
      TakesFrame calls[i].before Package.fresh ds[i] (frames (ds.drop (i + 1)) ++ rest)
        calls[i].result calls[i].pkg calls[i].after := by
  induction ds generalizing h calls with
  | nil =>
    cases hcalls
    exact ⟨rfl, fun i hi => absurd hi (Nat.not_lt_zero i)⟩
  | cons d ds ih =>
    obtain ⟨res, pkg, h', calls, hreceive, htail, rfl⟩ := receiveCalls_succ_eq_ok_iff.mp hcalls
    rw [frames_cons, List.append_assoc] at hinput
    have htakes := receive_frame (hfit d (by simp)) hinput hreads hreceive
    obtain ⟨hlen, hrest⟩ := ih (fun e he => hfit e (by simp [he])) htakes.input_eq
      htakes.delivering htail
    refine ⟨by simp [hlen], fun i hi hi' => ?_⟩
    cases i with
    | zero => exact ⟨by rw [List.getElem_cons_zero, hinput]; simp, htakes⟩
    | succ i => exact hrest i (by simpa using hi) (by simpa using hi')

/-- The calls return once all frames are there and there is an outcome of `read()` for every
byte. -/
theorem receiveCalls_frames_returns (hfit : ∀ d ∈ ds, d.length ≤ packageBufferSize)
    (hinput : h.input = frames ds ++ rest) (hreads : Delivering h.reads)
    (hlen : (frames ds).length ≤ h.reads.length) :
    ∃ calls, receiveCalls hdl ds.length h = .ok calls := by
  induction ds generalizing h with
  | nil => exact ⟨[], rfl⟩
  | cons d ds ih =>
    rw [frames_cons, List.append_assoc] at hinput
    rw [frames_cons, List.length_append] at hlen
    obtain ⟨res, pkg, h', hreceive, hcount⟩ :=
      receive_frame_returns (hfit d (by simp)) hinput hreads (by omega) Package.fresh
    have htakes := receive_frame (hfit d (by simp)) hinput hreads hreceive
    obtain ⟨calls, hcalls⟩ := ih (fun e he => hfit e (by simp [he])) htakes.input_eq
      htakes.delivering (by omega)
    exact ⟨_, receiveCalls_succ_eq_ok_iff.mpr ⟨res, pkg, h', calls, hreceive, hcalls, rfl⟩⟩

end Run

/-- The outcome that a payload calls for: what `from_bytes` makes of the payload alone. -/
def payloadOutcome (d : Bytes) : Result × Option Package :=
  match decode d with
  | some pkg => (.ready, some pkg)
  | none => (.incomplete, none)

/-- A payload of at least 19 bytes has the outcome of its own bytes. -/
theorem outcome_of_takesFrame {call : ReceiveCall TCPOpHandler} {d rest : Bytes}
    (htakes : TakesFrame call.before Package.fresh d rest call.result call.pkg call.after)
    (hd : 19 ≤ d.length) : call.outcome = payloadOutcome d := by
  rcases htakes.result with ⟨hflag, -⟩ | ⟨-, r, hparse, hres⟩
  · rw [hflag] at hd
    exact absurd hd (by decide)
  · have hdecode := fromBytes_of_holds (Buffer.holds_store htakes.stored) hd hparse
    rw [ReceiveCall.outcome, payloadOutcome, hdecode, hres]
    by_cases hr : r = 0
    · simp [hr]
    · simp [hr]

/-- **The handler follows the frames.** On a connection that carries payloads of 19 to 8192 bytes
and the end flag, each as a frame, and that delivers them in any chunks, successive calls of
`receive` give for every payload in order what `from_bytes` makes of it, and then `STOP`. Every call
starts at its own frame and ends behind it. With one outcome of `read()` for every byte the calls
return. -/
theorem receive_follows_frames (ds : List Bytes)
    (hds : ∀ d ∈ ds, 19 ≤ d.length ∧ d.length ≤ packageBufferSize) (h : TCPOpHandler) (rest : Bytes)
    (hinput : h.input = frames (ds ++ [Ycsb.endFlag]) ++ rest) (hreads : Delivering h.reads) :
    ((frames (ds ++ [Ycsb.endFlag])).length ≤ h.reads.length →
      ∃ calls, receiveCalls hdl (ds.length + 1) h = .ok calls) ∧
    ∀ calls, receiveCalls hdl (ds.length + 1) h = .ok calls →
      calls.map ReceiveCall.outcome = ds.map payloadOutcome ++ [(.stop, none)] ∧
      ∀ i (hi : i < calls.length),
        calls[i].before.input = frames ((ds ++ [Ycsb.endFlag]).drop i) ++ rest ∧
        calls[i].after.input = frames ((ds ++ [Ycsb.endFlag]).drop (i + 1)) ++ rest := by
  have hfit : ∀ d ∈ ds ++ [Ycsb.endFlag], d.length ≤ packageBufferSize := by
    intro d hd
    rcases List.mem_append.mp hd with hd | hd
    · exact (hds d hd).2
    · rw [List.mem_singleton.mp hd]
      decide
  have hlen : (ds ++ [Ycsb.endFlag]).length = ds.length + 1 := by simp
  rw [← hlen]
  refine ⟨receiveCalls_frames_returns hfit hinput hreads, fun calls hcalls => ?_⟩
  obtain ⟨hcount, hrun⟩ := receiveCalls_frames hfit hinput hreads hcalls
  refine ⟨List.ext_getElem (by simp [hcount]) fun i hi hi' => ?_, fun i hi => ?_⟩
  · rw [List.length_map] at hi
    obtain ⟨-, htakes⟩ := hrun i (by omega) hi
    rw [List.getElem_map]
    by_cases hlast : i < ds.length
    · rw [List.getElem_append_left (by simpa using hlast), List.getElem_map]
      rw [List.getElem_append_left hlast] at htakes
      exact outcome_of_takesFrame htakes (hds _ (List.getElem_mem hlast)).1
    · -- the last frame is the end flag
      have hflag : (ds ++ [Ycsb.endFlag])[i] = Ycsb.endFlag := by
        rw [List.getElem_append_right (by omega), List.getElem_singleton]
      rw [List.getElem_append_right (by simpa using hlast), List.getElem_singleton]
      rw [hflag] at htakes
      rcases htakes.result with ⟨-, hstop⟩ | ⟨hne, -⟩
      · rw [ReceiveCall.outcome, hstop]
        rfl
      · exact absurd rfl hne
  · obtain ⟨hbefore, htakes⟩ := hrun i (by omega) hi
    exact ⟨hbefore, htakes.input_eq⟩

/-- A fresh handler whose client sends `ds` and whose reads deliver two bytes at a time. -/
def pairwise (ds : List Bytes) : TCPOpHandler :=
  create (fun _ => .zero) (frames ds) (List.replicate (frames ds).length (.upTo 2))
    (fun _ => .upTo 0)

theorem delivering_pairwise (ds : List Bytes) : Delivering (pairwise ds).reads :=
  fun _ ht => ⟨1, (List.mem_replicate.mp ht).2⟩

/-- The handler on one update and the end flag, two bytes at a time. -/
theorem receive_follows_frames_update :
    ∃ calls, receiveCalls hdl 2 (pairwise [updateMessage.encode, Ycsb.endFlag]) = .ok calls ∧
      calls.map ReceiveCall.outcome = [(.ready, some updateMessage.toPackage), (.stop, none)] := by
  obtain ⟨hreturns, hrun⟩ := receive_follows_frames [updateMessage.encode] (by decide)
    (pairwise [updateMessage.encode, Ycsb.endFlag]) [] (by simp [pairwise, create])
    (delivering_pairwise _)
  obtain ⟨calls, hcalls⟩ := hreturns (by simp [pairwise, create])
  refine ⟨calls, hcalls, ?_⟩
  rw [(hrun calls hcalls).1]
  have hdecode : decode updateMessage.encode = some updateMessage.toPackage :=
    decode_eq_some_iff.mpr ⟨updateMessage, List.prefix_refl _, rfl⟩
  simp [payloadOutcome, hdecode]

/-! ## Bytes of earlier frames -/

/-- A server that has just started and whose client sends the frames of `ds` in any chunks. -/
structure Started (h : TCPOpHandler) (ds : List Bytes) : Prop where
  buffer_eq : h.packageBuffer = .zero
  input_eq : ∃ rest, h.input = frames ds ++ rest
  delivering : Delivering h.reads
  fits : ∀ d ∈ ds, d.length ≤ packageBufferSize

/-- After any two lists of earlier frames the call that receives the payload `d` has the same
outcome. -/
def SameAfterAnyHistory (d : Bytes) : Prop :=
  ∀ (hist₁ hist₂ : List Bytes) (h₁ h₂ : TCPOpHandler)
    (calls₁ calls₂ : List (ReceiveCall TCPOpHandler)),
    Started h₁ (hist₁ ++ [d]) → receiveCalls hdl (hist₁.length + 1) h₁ = .ok calls₁ →
    Started h₂ (hist₂ ++ [d]) → receiveCalls hdl (hist₂.length + 1) h₂ = .ok calls₂ →
    calls₁.getLast?.map ReceiveCall.outcome = calls₂.getLast?.map ReceiveCall.outcome

/-- The last call of a run receives the last payload. -/
theorem takesFrame_getLast {h : TCPOpHandler} {hist : List Bytes} {d : Bytes}
    (hstarted : Started h (hist ++ [d])) {calls : List (ReceiveCall TCPOpHandler)}
    (hcalls : receiveCalls hdl (hist.length + 1) h = .ok calls) :
    ∃ call rest, calls.getLast? = some call ∧
      TakesFrame call.before Package.fresh d rest call.result call.pkg call.after := by
  obtain ⟨rest, hinput⟩ := hstarted.input_eq
  rw [show hist.length + 1 = (hist ++ [d]).length by simp] at hcalls
  obtain ⟨hlen, hrun⟩ := receiveCalls_frames hstarted.fits hinput hstarted.delivering hcalls
  rw [List.length_append, List.length_singleton] at hlen
  obtain ⟨-, htakes⟩ := hrun hist.length (by simp) (by omega)
  refine ⟨calls[hist.length], _, ?_, by simpa using htakes⟩
  rw [List.getLast?_eq_getElem?]
  exact List.getElem?_eq_some_iff.mpr ⟨by omega, by congr 1; omega⟩

/-- A payload shorter than the header whose count is not 0 has the outcome of its own bytes: the
first pair is already too much. -/
theorem outcome_of_takesFrame_short {call : ReceiveCall TCPOpHandler} {d rest : Bytes}
    (htakes : TakesFrame call.before Package.fresh d rest call.result call.pkg call.after)
    (hd : d.length < 19) {b : UInt8} (hnum : d[2]? = some b) (hb : b ≠ 0) :
    call.outcome = if d = Ycsb.endFlag then (.stop, none) else (.incomplete, none) := by
  rcases htakes.result with ⟨hflag, hres⟩ | ⟨hflag, r, hparse, hres⟩
  · rw [ReceiveCall.outcome, if_pos hflag, hres]
    rfl
  · have hr : r = 0 := by
      by_contra hne
      obtain ⟨m, hm, hend, -, -⟩ := (fromBytes_accepts_iff rfl).mp ⟨hparse, hne⟩
      -- the count of the message is the third byte of the payload
      have hcount : m.numKvs = b := by
        have hbyte := Ptr.holds_iff.mp hm 2 (by rw [Package.length_encode]; omega)
        have hheld := Ptr.holds_iff.mp (Buffer.holds_store htakes.stored) 2
          (List.getElem?_eq_some_iff.mp hnum).1
        rw [hheld, (List.getElem?_eq_some_iff.mp hnum).2] at hbyte
        rw [← m.numKvs_eq_ofNat]
        exact (Except.ok.inj hbyte).symm
      have hpairs : m.kvPairs ≠ [] := by
        intro hnil
        have hlen := m.numKvs_eq
        rw [hcount, hnil] at hlen
        exact hb (UInt8.toNat_inj.mp hlen)
      have hle := hend hpairs
      rw [Package.length_encode] at hle
      omega
    rw [ReceiveCall.outcome, if_neg hflag, hres, hr]
    rfl

theorem started_pairwise {ds : List Bytes} (hfit : ∀ d ∈ ds, d.length ≤ packageBufferSize) :
    Started (pairwise ds) ds :=
  ⟨rfl, ⟨[], by simp [pairwise, create]⟩, delivering_pairwise ds, hfit⟩

theorem pairwise_returns {ds : List Bytes} (hfit : ∀ d ∈ ds, d.length ≤ packageBufferSize) :
    ∃ calls, receiveCalls hdl ds.length (pairwise ds) = .ok calls :=
  receiveCalls_frames_returns hfit (List.append_nil _).symm (delivering_pairwise ds)
    (by simp [pairwise, create])

/-- A message that has been decoded from a buffer stands there with all of its header. -/
theorem byte_of_ready {h h' : TCPOpHandler} {d rest : Bytes} {pkg' : Package}
    (htakes : TakesFrame h Package.fresh d rest .ready pkg' h') {i : ℕ} (hi : i < 19) :
    pkg'.encode[i]? = some (h'.packageBuffer.byte i) := by
  rcases htakes.result with ⟨-, hres⟩ | ⟨-, r, hparse, hres⟩
  · cases hres
  · have hr : r ≠ 0 := by
      intro hr
      rw [if_pos hr] at hres
      cases hres
    obtain ⟨m, hm, -, -, rfl⟩ := (fromBytes_accepts_iff rfl).mp ⟨hparse, hr⟩
    have hi' : i < m.encode.length := by
      rw [Package.length_encode]
      omega
    have hbyte := Ptr.holds_iff.mp hm i hi'
    simp only [Nat.zero_add, Buffer.ptr_eq_ok_iff] at hbyte
    rw [List.getElem?_eq_getElem hi', hbyte.2]

/-- A buffer whose count of pairs is 0 is decoded, whatever the length of the payload. -/
theorem ready_of_count_eq_zero {h h' : TCPOpHandler} {d rest : Bytes} {res : Result}
    {pkg pkg' : Package} (htakes : TakesFrame h pkg d rest res pkg' h') (hflag : d ≠ Ycsb.endFlag)
    (hcount : h'.packageBuffer.byte 2 = 0) : res = .ready := by
  obtain ⟨-, r, hparse, hres⟩ := htakes.result.resolve_left fun hend => hflag hend.1
  have hheader : (h'.packageBuffer.ptr 0).Covers 19 := Buffer.covers_ptr (by decide)
  obtain ⟨pkg'', hparse'⟩ := fromBytes_of_no_pairs d.length hheader
    (Buffer.ptr_eq_ok_iff.mpr ⟨by decide, hcount⟩) pkg
  rw [hparse] at hparse'
  cases hparse'
  exact hres

/-- The payload of nineteen ones: a message that leaves its mark on the whole header. -/
def ones : Bytes := List.replicate 19 1

section Marks

variable {d : Bytes} (hd : d.length ≤ packageBufferSize)
include hd

/-- The call for `d` on a fresh server starts with a zeroed buffer. -/
theorem call_on_fresh : ∃ call rest, receiveCalls hdl 1 (pairwise [d]) = .ok [call] ∧
    TakesFrame call.before Package.fresh d rest call.result call.pkg call.after ∧
    call.before.packageBuffer = .zero := by
  obtain ⟨calls, hcalls⟩ := @pairwise_returns [d] (by simpa using hd)
  obtain ⟨res, pkg, h, _, hreceive, hnil, rfl⟩ := receiveCalls_succ_eq_ok_iff.mp hcalls
  cases hnil
  exact ⟨⟨_, res, pkg, h⟩, _, hcalls, receive_frame hd rfl (delivering_pairwise _) hreceive, rfl⟩

/-- The call for `d` after nineteen ones starts with ones where the header will be. -/
theorem call_after_ones : ∃ first call rest,
    receiveCalls hdl 2 (pairwise [ones, d]) = .ok [first, call] ∧
    TakesFrame call.before Package.fresh d rest call.result call.pkg call.after ∧
    ∀ i < 19, call.before.packageBuffer.byte i = 1 := by
  have hones : ones.length ≤ packageBufferSize := by decide
  obtain ⟨calls, hcalls⟩ := @pairwise_returns [ones, d] (by simp [hones, hd])
  obtain ⟨res₀, pkg₀, h₀, _, hreceive₀, htail, rfl⟩ := receiveCalls_succ_eq_ok_iff.mp hcalls
  obtain ⟨res, pkg, h, _, hreceive, hnil, rfl⟩ := receiveCalls_succ_eq_ok_iff.mp htail
  cases hnil
  have htakes₀ := receive_frame hones rfl (delivering_pairwise _) hreceive₀
  refine ⟨⟨_, res₀, pkg₀, h₀⟩, ⟨h₀, res, pkg, h⟩, _, hcalls,
    receive_frame hd htakes₀.input_eq htakes₀.delivering hreceive, fun i hi => ?_⟩
  rw [Buffer.byte_store htakes₀.stored, dif_pos (by rwa [ones, List.length_replicate])]
  exact List.getElem_replicate _

end Marks

/-- For a payload shorter than the header whose count is missing or 0 the rest of the header is
taken from the frame before. -/
theorem not_sameAfterAnyHistory {d : Bytes} (hd : d.length < 19)
    (hnum : ∀ b, d[2]? = some b → b = 0) : ¬ SameAfterAnyHistory d := by
  intro hsame
  have hcap : 19 ≤ packageBufferSize := by decide
  have hfit : d.length ≤ packageBufferSize := by omega
  have hones : ones.length ≤ packageBufferSize := hcap
  obtain ⟨call₁, rest₁, hcalls₁, htakes₁, hzero⟩ := call_on_fresh hfit
  obtain ⟨first, call₂, rest₂, hcalls₂, htakes₂, hmark⟩ := call_after_ones hfit
  have heq := hsame [] [ones] _ _ _ _ (@started_pairwise [d] (by simpa using hfit)) hcalls₁
    (@started_pairwise [ones, d] (by simp [hones, hfit])) hcalls₂
  simp only [List.getLast?_singleton, List.getLast?_cons_cons, Option.map_some, Option.some.injEq,
    ReceiveCall.outcome, Prod.mk.injEq] at heq
  -- the fresh server decodes the payload
  have hready₁ : call₁.result = .ready := by
    refine ready_of_count_eq_zero htakes₁ (fun hflag => ?_) ?_
    · exact absurd (hnum 68 (by rw [hflag]; rfl)) (by decide)
    · rw [Buffer.byte_store htakes₁.stored, hzero]
      split
      case isTrue hi => exact hnum _ (List.getElem?_eq_getElem hi)
      case isFalse => rfl
  have hready₂ : call₂.result = .ready := heq.1 ▸ hready₁
  -- both packages would have one last byte of the header
  have hpkg : call₁.pkg = call₂.pkg := by simpa [hready₁, hready₂] using heq.2
  rw [hready₁] at htakes₁
  rw [hready₂] at htakes₂
  have hlast := byte_of_ready htakes₁ (i := 18) (by omega)
  rw [hpkg, byte_of_ready htakes₂ (i := 18) (by omega), Buffer.byte_store htakes₁.stored,
    Buffer.byte_store htakes₂.stored, dif_neg (by omega), dif_neg (by omega), hzero,
    hmark 18 (by omega)] at hlast
  exact absurd hlast (by decide)

/-- **When earlier frames do not show.** A payload has the same outcome after all histories exactly
when it covers the fixed header, or reaches the count of pairs and that count is not 0. -/
theorem receive_independent_of_history_iff (d : Bytes) :
    SameAfterAnyHistory d ↔ 19 ≤ d.length ∨ ∃ b, d[2]? = some b ∧ b ≠ 0 := by
  constructor
  · intro hsame
    by_contra hno
    rw [not_or] at hno
    refine not_sameAfterAnyHistory (by omega) (fun b hb => ?_) hsame
    by_contra hne
    exact hno.2 ⟨b, hb, hne⟩
  · intro hd' hist₁ hist₂ h₁ h₂ calls₁ calls₂ hstarted₁ hcalls₁ hstarted₂ hcalls₂
    obtain ⟨call₁, rest₁, hlast₁, htakes₁⟩ := takesFrame_getLast hstarted₁ hcalls₁
    obtain ⟨call₂, rest₂, hlast₂, htakes₂⟩ := takesFrame_getLast hstarted₂ hcalls₂
    rw [hlast₁, hlast₂, Option.map_some, Option.map_some]
    by_cases hlong : 19 ≤ d.length
    · rw [outcome_of_takesFrame htakes₁ hlong, outcome_of_takesFrame htakes₂ hlong]
    · obtain ⟨b, hnum, hb⟩ := hd'.resolve_left hlong
      rw [outcome_of_takesFrame_short htakes₁ (by omega) hnum hb,
        outcome_of_takesFrame_short htakes₂ (by omega) hnum hb]

/-- The empty payload: a fresh server decodes a package from it, and rejects it after a payload of
nineteen ones. -/
theorem receive_depends_on_history :
    (receiveCalls hdl 1 (pairwise [[]])).map (fun calls => calls.map ReceiveCall.outcome)
      = .ok [(.ready, some ⟨0, 0, 0, 0, 0, []⟩)] ∧
    (receiveCalls hdl 2 (pairwise [ones, []])).map (fun calls => calls.map ReceiveCall.outcome)
      = .ok [(.incomplete, none), (.incomplete, none)] ∧
    ¬ SameAfterAnyHistory [] :=
  ⟨by rfl, by rfl, not_sameAfterAnyHistory (by decide) (by simp)⟩

end BenchLx.Ycsb
