import BenchLx.Ycsb.TcpHandler
import BenchLx.Ycsb.WireFormat

/-!
# What the receive loops of the TCP handler do

The index of a loop moves by what `read()` returns. `receiveLoop_spec` is the invariant of a whole
loop for any outcomes of its reads: without a failed read the loop takes the bytes it wants from the
connection, in order and each to its own place; with a failed read it never does. `Receives` lists
what a call of `receive` can do.
-/

namespace BenchLx.Ycsb

/-! ## The loop -/

section Loop

variable {size n i : ℕ} {reads : List Transfer} {input : Bytes} {buf : Buffer size}
  {out : Received size}

theorem receiveLoop_of_le (h : n ≤ i) :
    receiveLoop n reads input buf i = .ok { buffer := buf, input, reads, calls := [] } := by
  cases reads <;> rw [receiveLoop, if_neg (by omega)]

/-- One round of the loop. -/
theorem receiveLoop_cons_eq_ok_iff {t : Transfer} (hi : i < n) :
    receiveLoop n (t :: reads) input buf i = .ok out ↔
      ∃ buf' rest, buf.store i (t.read input (n - i)).data = .ok buf' ∧
        receiveLoop n reads (t.read input (n - i)).rest buf'
          (sizeAdd i (toSize (t.read input (n - i)).res)) = .ok rest ∧
        out = { rest with
          calls := ⟨i, n - i, (t.read input (n - i)).res, (t.read input (n - i)).data⟩ ::
            rest.calls } := by
  rw [receiveLoop, if_pos hi]
  simp only [bind_eq_ok, pure_eq_ok]
  constructor
  · intro ⟨buf', hbuf, rest, hrest, hout⟩
    exact ⟨buf', rest, hbuf, hrest, hout.symm⟩
  · intro ⟨buf', rest, hbuf, hrest, hout⟩
    exact ⟨buf', hbuf, rest, hrest, hout.symm⟩

/-- What holds of a loop at its end, and of a round with the loop behind it, holds of every loop that
comes back. -/
theorem receiveLoop_induct
    {motive : List Transfer → Bytes → Buffer size → ℕ → Received size → Prop}
    (hend : ∀ reads input buf i, n ≤ i →
      motive reads input buf i { buffer := buf, input, reads, calls := [] })
    (hround : ∀ t reads input buf buf' i rest, i < n →
      buf.store i (t.read input (n - i)).data = .ok buf' →
      receiveLoop n reads (t.read input (n - i)).rest buf'
        (sizeAdd i (toSize (t.read input (n - i)).res)) = .ok rest →
      motive reads (t.read input (n - i)).rest buf'
        (sizeAdd i (toSize (t.read input (n - i)).res)) rest →
      motive (t :: reads) input buf i { rest with
        calls := ⟨i, n - i, (t.read input (n - i)).res, (t.read input (n - i)).data⟩ ::
          rest.calls })
    (h : receiveLoop n reads input buf i = .ok out) : motive reads input buf i out := by
  induction reads generalizing input buf i out with
  | nil =>
    by_cases hi : i < n
    · rw [receiveLoop, if_pos hi] at h
      cases h
    · rw [receiveLoop_of_le (by omega)] at h
      cases h
      exact hend _ _ _ _ (by omega)
  | cons t reads ih =>
    by_cases hi : i < n
    · obtain ⟨buf', rest, hbuf, hrest, rfl⟩ := (receiveLoop_cons_eq_ok_iff hi).mp h
      exact hround t reads input buf buf' i rest hi hbuf hrest (ih hrest)
    · rw [receiveLoop_of_le (by omega)] at h
      cases h
      exact hend _ _ _ _ (by omega)

/-- A read that does not fail moves the index by the bytes it delivers. -/
theorem sizeAdd_res_upTo (hi : i ≤ n) (hn : n < sizeMod) (k : ℕ) :
    sizeAdd i (toSize ((Transfer.upTo k).read input (n - i)).res)
      = i + ((Transfer.upTo k).read input (n - i)).data.length := by
  have hlen := (Transfer.upTo k).length_data_le input (n - i)
  rw [Transfer.res_upTo, toSize_natCast (by omega), sizeAdd_of_lt (by omega)]

/-- A failed read puts the index out of the loop or one byte back. -/
theorem receiveLoop_after_error (hin : i < n) (hn : n < sizeMod)
    (h : receiveLoop n reads input buf (sizeAdd i (toSize (-1))) = .ok out) :
    out.calls = [] ∨ ∃ j < i, receiveLoop n reads input buf j = .ok out := by
  by_cases hzero : i = 0
  · -- the index wraps around to the largest number
    have hwrap : sizeAdd i (toSize (-1)) = sizeMod - 1 := by
      rw [hzero, toSize_neg_one, sizeAdd, Nat.zero_add, Nat.mod_eq_of_lt (by omega)]
    rw [hwrap, receiveLoop_of_le (by omega)] at h
    cases h
    exact .inl rfl
  · rw [sizeAdd_neg_one (by omega) (by omega)] at h
    exact .inr ⟨i - 1, by omega, h⟩

/-- A loop that has fallen back below the offset `j` never delivers the bytes from `j` on in
order. -/
theorem not_deliversFrom_of_lt {j : ℕ} (hij : i < j) (hj : j < n) (hn : n < sizeMod)
    (h : receiveLoop n reads input buf i = .ok out) {d : Bytes} (hd : d ≠ []) :
    ¬ DeliversFrom j out.calls d := by
  induction reads generalizing input buf i out with
  | nil =>
    rw [receiveLoop, if_pos (by omega)] at h
    cases h
  | cons t reads ih =>
    obtain ⟨buf', rest, -, hrest, rfl⟩ := (receiveLoop_cons_eq_ok_iff (by omega)).mp h
    intro ⟨d', hd', hoff, hcalls⟩
    -- this call starts at `i`, so it has delivered nothing
    have hdata : (t.read input (n - i)).data = [] := by
      by_contra hne
      have : i = j := hoff hne
      omega
    simp only [hdata, List.nil_append, List.length_nil, Nat.add_zero] at hd' hcalls
    subst hd'
    cases t with
    | upTo k =>
      rw [sizeAdd_res_upTo (by omega) hn, hdata] at hrest
      exact ih hij hrest hcalls
    | error =>
      rcases receiveLoop_after_error (by omega) hn hrest with hnone | ⟨i', hi', hback⟩
      · rw [hnone] at hcalls
        exact hd hcalls
      · exact ih (by omega) hback hcalls

/-- After a failed read at the index `i` the loop never delivers the bytes from `i` on in order. -/
theorem not_deliversFrom_after_error (hin : i < n) (hn : n < sizeMod)
    (h : receiveLoop n reads input buf (sizeAdd i (toSize (-1))) = .ok out) {d : Bytes}
    (hd : d ≠ []) : ¬ DeliversFrom i out.calls d := by
  rcases receiveLoop_after_error hin hn h with hnone | ⟨j, hj, hback⟩
  · rw [hnone]
    exact hd
  · exact not_deliversFrom_of_lt hj hin hn hback hd

theorem receiveLoop_suffix (h : receiveLoop n reads input buf i = .ok out) :
    out.reads <:+ reads := by
  apply receiveLoop_induct (motive := fun reads _ _ _ out => out.reads <:+ reads) ?_ ?_ h
  · intro reads input buf i _
    exact List.suffix_refl _
  · intro t reads input buf buf' i rest _ _ _ ih
    exact ih.trans (List.suffix_cons _ _)

/-- The loop has taken the bytes `d`, all that it still wanted at index `i`: they are the next ones
of the connection, each has been delivered at its own offset and they are stored from `i` on. -/
structure Takes (n i : ℕ) (input : Bytes) (buf : Buffer size) (out : Received size) (d : Bytes) :
    Prop where
  input_eq : input = d ++ out.input
  length_eq : d.length = n - i
  delivers : DeliversFrom i out.calls d
  stored : buf.store i d = .ok out.buffer

/-- A loop at its end takes no bytes. -/
theorem takes_nil (hle : n ≤ i) :
    Takes n i input buf { buffer := buf, input, reads, calls := [] } [] where
  input_eq := rfl
  length_eq := (Nat.sub_eq_zero_of_le hle).symm
  delivers := rfl
  stored := Buffer.store_nil buf i

/-- What a call delivers comes in front of what the rest of the loop takes. -/
theorem Takes.cons {t : Transfer} {buf' : Buffer size} {d : Bytes}
    (hbuf : buf.store i (t.read input (n - i)).data = .ok buf')
    (hrest : Takes n (i + (t.read input (n - i)).data.length) (t.read input (n - i)).rest buf' out
      d) :
    Takes n i input buf
      { out with
        calls := ⟨i, n - i, (t.read input (n - i)).res, (t.read input (n - i)).data⟩ :: out.calls }
      ((t.read input (n - i)).data ++ d) where
  input_eq := by rw [List.append_assoc, ← hrest.input_eq, Transfer.data_append_rest]
  length_eq := by
    have hlen := t.length_data_le input (n - i)
    rw [List.length_append, hrest.length_eq]
    omega
  delivers := ⟨d, rfl, fun _ => rfl, hrest.delivers⟩
  stored := Buffer.store_append hbuf hrest.stored

/-- **The receive loop.** It uses up some outcomes of `read()`. When none of them is a failure it
takes the bytes it wants; when one of them is, its reads do not deliver that many bytes each at its
own offset. -/
theorem receiveLoop_spec (hi : i ≤ n) (hn : n < sizeMod)
    (h : receiveLoop n reads input buf i = .ok out) :
    ∃ used, reads = used ++ out.reads ∧
      (.error ∉ used → ∃ d, Takes n i input buf out d) ∧
      (.error ∈ used → ¬ ∃ d : Bytes, d.length = n - i ∧ DeliversFrom i out.calls d) := by
  revert hi
  apply receiveLoop_induct (motive := fun reads input buf i out => i ≤ n →
    ∃ used, reads = used ++ out.reads ∧
      (.error ∉ used → ∃ d, Takes n i input buf out d) ∧
      (.error ∈ used → ¬ ∃ d : Bytes, d.length = n - i ∧ DeliversFrom i out.calls d)) ?_ ?_ h
  · intro reads input buf i hle hi
    exact ⟨[], rfl, fun _ => ⟨[], takes_nil hle⟩, by simp⟩
  · intro t reads input buf buf' i rest hin hbuf hrest ih hi
    cases t with
    | upTo k =>
      have hlen := (Transfer.upTo k).length_data_le input (n - i)
      rw [sizeAdd_res_upTo hi hn] at ih
      obtain ⟨used, hused, hgood, hbad⟩ := ih (by omega)
      refine ⟨.upTo k :: used, by rw [hused]; rfl, fun herr => ?_, fun herr => ?_⟩
      · obtain ⟨d, htakes⟩ := hgood (fun h => herr (by simp [h]))
        exact ⟨_, htakes.cons hbuf⟩
      · intro ⟨d, hd, d', hd', _, hcalls⟩
        refine hbad (by simpa using herr) ⟨d', ?_, hcalls⟩
        have hsum := congrArg List.length hd'
        simp only [List.length_append] at hsum
        omega
    | error =>
      obtain ⟨used, hused⟩ := receiveLoop_suffix hrest
      refine ⟨.error :: used, by rw [← hused]; rfl, fun herr => absurd (by simp) herr, ?_⟩
      intro _ ⟨d, hd, d', hd', _, hcalls⟩
      have hne : d' ≠ [] := by
        apply List.ne_nil_of_length_pos
        rw [hd', List.length_append] at hd
        simp only [Transfer.read_error, List.length_nil] at hd
        omega
      exact not_deliversFrom_after_error hin hn hrest hne hcalls

/-- On a connection that delivers, the loop comes back once enough input and outcomes are there, and
it uses no more outcomes than it takes bytes. -/
theorem receiveLoop_returns (input : Bytes) (buf : Buffer size) (hreads : Delivering reads)
    (hi : i ≤ n) (hsize : n ≤ size) (hn : n < sizeMod) (hinput : n - i ≤ input.length)
    (hlen : n - i ≤ reads.length) :
    ∃ out, receiveLoop n reads input buf i = .ok out ∧
      reads.length ≤ out.reads.length + (n - i) := by
  induction reads generalizing input buf i with
  | nil =>
    rw [List.length_nil] at hlen
    exact ⟨_, receiveLoop_of_le (by omega), by simp⟩
  | cons t reads ih =>
    by_cases hin : i < n
    · obtain ⟨k, rfl⟩ := hreads t (by simp)
      have hmax := (Transfer.upTo (k + 1)).length_data_le input (n - i)
      have hpos := Transfer.length_data_pos (n := k) (by omega : 0 < input.length)
        (by omega : 0 < n - i)
      have hsplit := congrArg List.length
        ((Transfer.upTo (k + 1)).data_append_rest input (n - i))
      rw [List.length_append] at hsplit
      simp only [List.length_cons] at hlen ⊢
      obtain ⟨buf', hbuf⟩ : ∃ buf', buf.store i ((Transfer.upTo (k + 1)).read input (n - i)).data
          = .ok buf' := ⟨_, Buffer.store_eq_ok_iff.mpr ⟨.inr (by omega), rfl⟩⟩
      obtain ⟨rest, hrest, hused⟩ := ih ((Transfer.upTo (k + 1)).read input (n - i)).rest buf'
        (fun t ht => hreads t (by simp [ht]))
        (by omega : i + ((Transfer.upTo (k + 1)).read input (n - i)).data.length ≤ n)
        (by omega) (by omega)
      rw [← sizeAdd_res_upTo hi hn] at hrest
      exact ⟨_, (receiveLoop_cons_eq_ok_iff hin).mpr ⟨buf', rest, hbuf, hrest, rfl⟩, by
        simp only
        omega⟩
    · exact ⟨_, receiveLoop_of_le (by omega), by simp⟩

end Loop

/-! ## One call of `receive` -/

namespace TCPOpHandler

/-- Both loops have come back, for a header word that announces no more than fits the buffer. -/
structure Loops (h : TCPOpHandler) (header : Received 4) (payload : Received packageBufferSize)
    (h' : TCPOpHandler) : Prop where
  header_eq : h.receiveHeader = .ok header
  fits : ofBytesBE (header.buffer.take 4) ≤ packageBufferSize
  payload_eq : (h.afterHeader header).receivePayload (ofBytesBE (header.buffer.take 4))
    = .ok payload
  after_eq : h' = (h.afterHeader header).afterPayload payload

/-- The ways in which a call of `receive` returns. -/
inductive Receives (h : TCPOpHandler) (pkg : Package) : Result → Package → TCPOpHandler → Prop
  | invalidLength {header : Received 4} (hheader : h.receiveHeader = .ok header)
      (hlong : packageBufferSize < ofBytesBE (header.buffer.take 4)) :
      Receives h pkg .stop pkg (h.afterHeader header)
  | endFlag {header : Received 4} {payload : Received packageBufferSize} {h' : TCPOpHandler}
      (hloops : Loops h header payload h') (hsize : ofBytesBE (header.buffer.take 4) = 6)
      (hflag : h'.packageBuffer.take 6 = Ycsb.endFlag) :
      Receives h pkg .stop pkg h'
  | rejected {header : Received 4} {payload : Received packageBufferSize} {h' : TCPOpHandler}
      (hloops : Loops h header payload h')
      (hflag : ¬ (ofBytesBE (header.buffer.take 4) = 6 ∧
        h'.packageBuffer.take 6 = Ycsb.endFlag)) {pkg' : Package}
      (hdecode : fromBytes (h'.packageBuffer.ptr 0) (ofBytesBE (header.buffer.take 4)) pkg
        = .ok (0, pkg')) :
      Receives h pkg .incomplete pkg' h'
  | accepted {header : Received 4} {payload : Received packageBufferSize} {h' : TCPOpHandler}
      (hloops : Loops h header payload h')
      (hflag : ¬ (ofBytesBE (header.buffer.take 4) = 6 ∧
        h'.packageBuffer.take 6 = Ycsb.endFlag)) {pkg' : Package} {size : ℕ} (hsize : size ≠ 0)
      (hdecode : fromBytes (h'.packageBuffer.ptr 0) (ofBytesBE (header.buffer.take 4)) pkg
        = .ok (size, pkg')) :
      Receives h pkg .ready pkg' h'

theorem receive_eq_ok_iff {h h' : TCPOpHandler} {pkg pkg' : Package} {res : Result} :
    h.receive pkg = .ok (res, pkg', h') ↔ Receives h pkg res pkg' h' := by
  constructor
  · intro hreceive
    obtain ⟨header, hheader, hreceive⟩ := bind_eq_ok.mp hreceive
    simp only at hreceive
    split at hreceive
    case isTrue hlong =>
      cases hreceive
      exact .invalidLength hheader hlong
    case isFalse hfits =>
      obtain ⟨payload, hpayload, hreceive⟩ := bind_eq_ok.mp hreceive
      have hloops : Loops h header payload ((h.afterHeader header).afterPayload payload) :=
        ⟨hheader, by omega, hpayload, rfl⟩
      split at hreceive
      case isTrue hflag =>
        cases hreceive
        exact .endFlag hloops hflag.1 hflag.2
      case isFalse hflag =>
        obtain ⟨⟨size, pkg''⟩, hdecode, hreceive⟩ := bind_eq_ok.mp hreceive
        simp only at hreceive
        split at hreceive
        case isTrue hsize =>
          cases hreceive
          exact .rejected hloops hflag (hsize ▸ hdecode)
        case isFalse hsize =>
          cases hreceive
          exact .accepted hloops hflag hsize hdecode
  · intro hreceives
    rw [receive]
    cases hreceives with
    | invalidLength hheader hlong =>
      rw [hheader, ok_bind, if_pos hlong]
      rfl
    | endFlag hloops hsize hflag =>
      obtain ⟨hheader, hfits, hpayload, rfl⟩ := hloops
      rw [hheader, ok_bind, if_neg (by omega), hpayload, ok_bind, if_pos ⟨hsize, hflag⟩]
      rfl
    | rejected hloops hflag hdecode =>
      obtain ⟨hheader, hfits, hpayload, rfl⟩ := hloops
      rw [hheader, ok_bind, if_neg (by omega), hpayload, ok_bind, if_neg hflag, hdecode]
      rfl
    | accepted hloops hflag hsize hdecode =>
      obtain ⟨hheader, hfits, hpayload, rfl⟩ := hloops
      rw [hheader, ok_bind, if_neg (by omega), hpayload, ok_bind, if_neg hflag, hdecode, ok_bind]
      exact if_neg hsize

/-- The call between two states of the handler has received a frame: four bytes of length and that
many bytes of payload are what it took from the connection, each at its own offset. -/
structure FrameReceived (h h' : TCPOpHandler) (word payload : Bytes) : Prop where
  input_eq : h.input = word ++ payload ++ h'.input
  length_word : word.length = 4
  length_payload : payload.length = ofBytesBE word
  word_delivered : DeliversFrom 0 h'.headerCalls word
  payload_delivered : DeliversFrom 0 h'.payloadCalls payload

/-- **What the two loops receive.** They use up some outcomes of `read()`. When none of them is a
failure the call has received a frame and the payload stands at the start of the buffer, over what
was there before; when one of them is, the call has received no frame. -/
theorem Loops.spec {h h' : TCPOpHandler} {header : Received 4}
    {payload : Received packageBufferSize} (hloops : Loops h header payload h') :
    ∃ used, h.reads = used ++ h'.reads ∧
      (.error ∉ used → ∃ word d, FrameReceived h h' word d ∧
        d.length = ofBytesBE (header.buffer.take 4) ∧
        h.packageBuffer.store 0 d = .ok h'.packageBuffer) ∧
      (.error ∈ used → ¬ ∃ word d, FrameReceived h h' word d) := by
  obtain ⟨hheader, hfits, hpayload, rfl⟩ := hloops
  have hbuf : packageBufferSize < sizeMod := by decide
  obtain ⟨usedWord, hword, hwordGood, hwordBad⟩ :=
    receiveLoop_spec (Nat.zero_le 4) (by decide) hheader
  obtain ⟨usedPayload, hpay, hpayGood, hpayBad⟩ :=
    receiveLoop_spec (Nat.zero_le _) (by omega) hpayload
  refine ⟨usedWord ++ usedPayload, ?_, fun herr => ?_, fun herr ⟨word, d, hframe⟩ => ?_⟩
  · rw [List.append_assoc, hword]
    exact congrArg _ hpay
  · rw [List.mem_append, not_or] at herr
    obtain ⟨word, htakesWord⟩ := hwordGood herr.1
    obtain ⟨d, htakes⟩ := hpayGood herr.2
    have hlen : word.length = 4 := htakesWord.length_eq
    have hvalue := Buffer.take_store htakesWord.stored hlen
    refine ⟨word, d, ⟨?_, hlen, ?_, htakesWord.delivers, htakes.delivers⟩, htakes.length_eq,
      htakes.stored⟩
    · rw [List.append_assoc, htakesWord.input_eq]
      exact congrArg _ htakes.input_eq
    · rw [htakes.length_eq, hvalue, Nat.sub_zero]
  · -- the word that has been delivered is the one the payload loop went by
    by_cases hin : .error ∈ usedWord
    · exact hwordBad hin ⟨word, hframe.length_word, hframe.word_delivered⟩
    · obtain ⟨word', htakesWord⟩ := hwordGood hin
      obtain rfl : word = word' := hframe.word_delivered.unique htakesWord.delivers
      have hvalue := Buffer.take_store htakesWord.stored hframe.length_word
      refine hpayBad (by simpa [hin] using herr) ⟨d, ?_, hframe.payload_delivered⟩
      rw [hvalue, hframe.length_payload, Nat.sub_zero]

end TCPOpHandler

end BenchLx.Ycsb
