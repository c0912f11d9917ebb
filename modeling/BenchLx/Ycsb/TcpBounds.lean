import BenchLx.Ycsb.TcpReceive

/-!
# The buffers of the TCP handler

Whatever `read()` returns, a call of `receive` touches neither the header word nor the package
buffer outside of its bounds. An index that steps back or wraps around is compared with the length
before it is used again, so it never gets past the buffer. The length word and the end flag are read
at the start of their buffers, which are larger.
-/

namespace BenchLx.Ycsb

/-! ## The reads that are asked for -/

/-- The reads that a receive loop asks for, with the one it waits for when no outcome is left. -/
def loopRequests (n : ℕ) : List Transfer → Bytes → ℕ → List ReadRequest
  | [], _, i => if i < n then [⟨i, n - i⟩] else []
  | t :: reads, input, i =>
    if i < n then
      let out := t.read input (n - i)
      ⟨i, n - i⟩ :: loopRequests n reads out.rest (sizeAdd i (toSize out.res))
    else []

section Loop

variable {size n i : ℕ} {reads : List Transfer} {input : Bytes} {buf : Buffer size}

theorem loopRequests_of_le (h : n ≤ i) : loopRequests n reads input i = [] := by
  cases reads <;> rw [loopRequests, if_neg (by omega)]

/-- At least one byte is asked for, and no more than fits in the rest of the `n` bytes. -/
theorem fits_of_mem_loopRequests {r : ReadRequest} (hr : r ∈ loopRequests n reads input i) :
    0 < r.max ∧ r.off + r.max ≤ n := by
  induction reads generalizing input i with
  | nil =>
    unfold loopRequests at hr
    split at hr
    · next hi =>
      rw [List.mem_singleton.mp hr]
      exact ⟨by simp only; omega, by simp only; omega⟩
    · cases hr
  | cons t reads ih =>
    unfold loopRequests at hr
    split at hr
    · next hi =>
      rcases List.mem_cons.mp hr with rfl | hr
      · exact ⟨by simp only; omega, by simp only; omega⟩
      · exact ih hr
    · cases hr

/-- The reads of a loop that has come back are those that it has asked for. -/
theorem loopRequests_eq {out : Received size} (h : receiveLoop n reads input buf i = .ok out) :
    loopRequests n reads input i = out.calls.map ReadCall.request := by
  apply receiveLoop_induct (motive := fun reads input _ i out =>
    loopRequests n reads input i = out.calls.map ReadCall.request) ?_ ?_ h
  · intro reads input buf i hle
    exact loopRequests_of_le hle
  · intro t reads input buf buf' i rest hi _ _ ih
    rw [loopRequests, if_pos hi]
    exact congrArg (_ :: ·) ih

/-- A loop over no more bytes than the buffer has comes back or waits: it never faults. -/
theorem receiveLoop_ok_or_blocked (reads : List Transfer) (input : Bytes) (buf : Buffer size)
    (i : ℕ) (hn : n ≤ size) :
    (∃ out, receiveLoop n reads input buf i = .ok out) ∨
      receiveLoop n reads input buf i = .error .blocked := by
  induction reads generalizing input buf i with
  | nil =>
    rw [receiveLoop]
    split
    · exact .inr rfl
    · exact .inl ⟨_, rfl⟩
  | cons t reads ih =>
    by_cases hi : i < n
    · -- what is delivered fits, as no more has been asked for
      have hlen := t.length_data_le input (n - i)
      obtain ⟨buf', hbuf⟩ : ∃ buf', buf.store i (t.read input (n - i)).data = .ok buf' :=
        ⟨_, Buffer.store_eq_ok_iff.mpr ⟨.inr (by omega), rfl⟩⟩
      rw [receiveLoop, if_pos hi]
      simp only [hbuf, ok_bind]
      rcases ih (t.read input (n - i)).rest buf'
        (sizeAdd i (toSize (t.read input (n - i)).res)) with ⟨rest, hrest⟩ | hblocked
      · exact .inl ⟨_, by rw [hrest]; rfl⟩
      · exact .inr (by rw [hblocked]; rfl)
    · exact .inl ⟨_, receiveLoop_of_le (by omega)⟩

end Loop

/-! ## One call -/

namespace TCPOpHandler

/-- The reads into the header word that a call asks for. -/
def headerRequests (h : TCPOpHandler) : List ReadRequest := loopRequests 4 h.reads h.input 0

/-- The reads into the package buffer that a call asks for, once it has the header word. -/
def payloadRequests (h : TCPOpHandler) : List ReadRequest :=
  match h.receiveHeader with
  | .error _ => []
  | .ok header =>
    let packageSize := ofBytesBE (header.buffer.take 4)
    if packageSize > packageBufferSize then []
    else loopRequests packageSize header.reads header.input 0

/-- The parser stays inside the package buffer: the fixed header fits, and so does the package. -/
theorem fromBytes_packageBuffer (h : TCPOpHandler) {packageSize : ℕ}
    (hfits : packageSize ≤ packageBufferSize) (pkg : Package) :
    ∃ size pkg', fromBytes (h.packageBuffer.ptr 0) packageSize pkg = .ok (size, pkg') := by
  have hheader : 19 ≤ packageBufferSize := by decide
  exact fromBytes_returns (Buffer.covers_ptr (by omega)) (Buffer.covers_ptr (by omega)) pkg

/-- A call of `receive` comes back or waits for input. -/
theorem receive_ok_or_blocked (h : TCPOpHandler) (pkg : Package) :
    (∃ r, h.receive pkg = .ok r) ∨ h.receive pkg = .error .blocked := by
  rcases receiveLoop_ok_or_blocked h.reads h.input (h.headerWords 0) 0 (le_refl 4) with
    ⟨header, hheader⟩ | hblocked
  · by_cases hlong : ofBytesBE (header.buffer.take 4) > packageBufferSize
    · exact .inl ⟨_, receive_eq_ok_iff.mpr (.invalidLength hheader hlong)⟩
    · have hfits := Nat.le_of_not_lt hlong
      rcases receiveLoop_ok_or_blocked header.reads header.input h.packageBuffer 0 hfits with
        ⟨payload, hpayload⟩ | hblocked
      · have hloops : Loops h header payload ((h.afterHeader header).afterPayload payload) :=
          ⟨hheader, hfits, hpayload, rfl⟩
        by_cases hflag : ofBytesBE (header.buffer.take 4) = 6 ∧
            payload.buffer.take 6 = Ycsb.endFlag
        · exact .inl ⟨_, receive_eq_ok_iff.mpr (.endFlag hloops hflag.1 hflag.2)⟩
        · obtain ⟨size, pkg', hdecode⟩ :=
            fromBytes_packageBuffer ((h.afterHeader header).afterPayload payload) hfits pkg
          by_cases hsize : size = 0
          · rw [hsize] at hdecode
            exact .inl ⟨_, receive_eq_ok_iff.mpr (.rejected hloops hflag hdecode)⟩
          · exact .inl ⟨_, receive_eq_ok_iff.mpr (.accepted hloops hflag hsize hdecode)⟩
      · right
        rw [receive, show h.receiveHeader = .ok header from hheader, ok_bind, if_neg hlong,
          show (h.afterHeader header).receivePayload _ = .error .blocked from hblocked]
        rfl
  · right
    rw [receive, show h.receiveHeader = .error .blocked from hblocked]
    rfl

theorem fits_of_mem_payloadRequests {h : TCPOpHandler} {r : ReadRequest}
    (hr : r ∈ h.payloadRequests) : 0 < r.max ∧ r.off + r.max ≤ packageBufferSize := by
  unfold payloadRequests at hr
  split at hr
  · cases hr
  · simp only at hr
    split at hr
    · cases hr
    · next hlong =>
      obtain ⟨hpos, hle⟩ := fits_of_mem_loopRequests hr
      exact ⟨hpos, hle.trans (Nat.le_of_not_lt hlong)⟩

theorem payloadRequests_eq {h : TCPOpHandler} {header : Received 4}
    (hheader : h.receiveHeader = .ok header) :
    h.payloadRequests =
      if ofBytesBE (header.buffer.take 4) > packageBufferSize then []
      else loopRequests (ofBytesBE (header.buffer.take 4)) header.reads header.input 0 := by
  rw [payloadRequests, hheader]

/-- The reads that a tracer has seen when both loops have come back. -/
theorem Loops.requests {h h' : TCPOpHandler} {header : Received 4}
    {payload : Received packageBufferSize} (hloops : Loops h header payload h') :
    h.headerRequests = h'.headerCalls.map ReadCall.request ∧
      h.payloadRequests = h'.payloadCalls.map ReadCall.request := by
  obtain ⟨hheader, hfits, hpayload, rfl⟩ := hloops
  refine ⟨loopRequests_eq hheader, ?_⟩
  rw [payloadRequests_eq hheader, if_neg (by omega)]
  exact loopRequests_eq hpayload

/-- **The buffers of a call.** Whatever the results of `read()` and the initial contents of the
header word are, a call of `receive` comes back or waits for input, and never touches a byte outside
of the header word or the package buffer. Each read that it asks for is for at least one byte and
for no more than fits in the rest of its buffer; when the call comes back these are the reads that a
tracer has seen. -/
theorem receive_stays_inside (h : TCPOpHandler) (pkg : Package) :
    ((∃ r, h.receive pkg = .ok r) ∨ h.receive pkg = .error .blocked) ∧
    (∀ r ∈ h.headerRequests, 0 < r.max ∧ r.off + r.max ≤ 4) ∧
    (∀ r ∈ h.payloadRequests, 0 < r.max ∧ r.off + r.max ≤ packageBufferSize) ∧
    ∀ res pkg' h', h.receive pkg = .ok (res, pkg', h') →
      h.headerRequests = h'.headerCalls.map ReadCall.request ∧
        h.payloadRequests = h'.payloadCalls.map ReadCall.request := by
  refine ⟨receive_ok_or_blocked h pkg, fun r hr => fits_of_mem_loopRequests hr,
    fun r hr => fits_of_mem_payloadRequests hr, fun res pkg' h' hreceive => ?_⟩
  cases receive_eq_ok_iff.mp hreceive with
  | invalidLength hheader hlong =>
    refine ⟨loopRequests_eq hheader, ?_⟩
    rw [payloadRequests_eq hheader, if_pos hlong]
    rfl
  | endFlag hloops | rejected hloops | accepted hloops => exact hloops.requests

end TCPOpHandler

end BenchLx.Ycsb
