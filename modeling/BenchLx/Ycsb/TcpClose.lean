import BenchLx.Ycsb.Responses
import BenchLx.Ycsb.TcpFraming

/-!
# When the client closes the connection

From the close on every `read()` returns 0, which moves no loop of `receive` on. A call of `receive`
comes back exactly when the rest of the stream starts with a whole frame, or with a length word that
is too large (`receive_returns_iff`); the main loop ends by itself only on a stream whose last
frame stops it (`loop_ends_iff`).

A connection without end is given by what each of its reads transfers at most. A call that returns
after finitely many reads returns on a finite part of them.
-/

namespace BenchLx.Ycsb

open TCPOpHandler

/-- The first `n` reads of a connection that transfers up to `chunks k + 1` bytes in read `k`, and
nothing when all of its input has been delivered. -/
def deliveries (chunks : ℕ → ℕ) (n : ℕ) : List Transfer :=
  (List.range n).map fun k => .upTo (chunks k + 1)

@[simp] theorem length_deliveries (chunks : ℕ → ℕ) (n : ℕ) : (deliveries chunks n).length = n := by
  simp [deliveries]

theorem delivering_deliveries (chunks : ℕ → ℕ) (n : ℕ) : Delivering (deliveries chunks n) := by
  intro t ht
  obtain ⟨k, -, rfl⟩ := List.mem_map.mp ht
  exact ⟨chunks k, rfl⟩

/-- The handler whose connection makes these reads next. -/
def TCPOpHandler.withReads (h : TCPOpHandler) (reads : List Transfer) : TCPOpHandler :=
  { h with reads }

/-! ## One call of `receive` -/

/-- The stream starts with a length word that announces more than fits the package buffer. -/
def LongHeader (input : Bytes) : Prop :=
  4 ≤ input.length ∧ packageBufferSize < ofBytesBE (input.take 4)

/-- The stream starts with a whole frame, or with a length word that is too large. -/
def HasFrame (input : Bytes) : Prop :=
  LongHeader input ∨ ∃ d, d.length ≤ packageBufferSize ∧ frame d <+: input

section Call

variable {h h' : TCPOpHandler} {pkg pkg' : Package} {res : Result} (hreads : Delivering h.reads)
include hreads

/-- The header loop takes four bytes. -/
theorem receiveHeader_spec {header : Received 4} (hheader : h.receiveHeader = .ok header) :
    4 ≤ h.input.length ∧ ofBytesBE (header.buffer.take 4) = ofBytesBE (h.input.take 4) := by
  obtain ⟨used, hused, hgood, -⟩ := receiveLoop_spec (Nat.zero_le 4) (by decide) hheader
  rw [hused] at hreads
  obtain ⟨word, htakes⟩ := hgood hreads.of_append.1
  have hlen : word.length = 4 := htakes.length_eq
  rw [Buffer.take_store htakes.stored hlen, htakes.input_eq, List.take_left' hlen]
  exact ⟨by rw [List.length_append]; omega, rfl⟩

/-- What a call that returns has found on the connection. -/
theorem hasFrame_of_receive (hreceive : h.receive pkg = .ok (res, pkg', h')) :
    (LongHeader h.input ∧ res = .stop) ∨
      ∃ d rest, d.length ≤ packageBufferSize ∧ h.input = frame d ++ rest ∧
        TakesFrame h pkg d rest res pkg' h' := by
  have hframe : ∀ {header payload}, Loops h header payload h' →
      ∃ d rest, d.length ≤ packageBufferSize ∧ h.input = frame d ++ rest ∧
        TakesFrame h pkg d rest res pkg' h' := by
    intro header payload hloops
    have hvalue := (receiveHeader_spec hreads hloops.header_eq).2
    obtain ⟨used, hused, hgood, -⟩ := hloops.spec
    have hsplit := hreads
    rw [hused] at hsplit
    obtain ⟨word, d, hframe, hlen, -⟩ := hgood hsplit.of_append.1
    have hfit : d.length ≤ packageBufferSize := hlen ▸ hloops.fits
    have hinput : h.input = frame d ++ h'.input := by
      rw [hframe.input_eq, frame, hframe.length_payload, ← hframe.length_word,
        toBytesBE_ofBytesBE]
    exact ⟨d, h'.input, hfit, hinput, receive_frame hfit hinput hreads hreceive⟩
  cases receive_eq_ok_iff.mp hreceive with
  | invalidLength hheader hlong =>
    obtain ⟨hlen, hvalue⟩ := receiveHeader_spec hreads hheader
    exact .inl ⟨⟨hlen, hvalue ▸ hlong⟩, rfl⟩
  | endFlag hloops => exact .inr (hframe hloops)
  | rejected hloops => exact .inr (hframe hloops)
  | accepted hloops => exact .inr (hframe hloops)

/-- A length word that is too large stops the call after at most four reads. -/
theorem receive_longHeader (hlong : LongHeader h.input) (hcount : 4 ≤ h.reads.length) :
    ∃ h', h.receive pkg = .ok (.stop, pkg, h') := by
  obtain ⟨header, hheader, -⟩ := receiveLoop_returns h.input (h.headerWords 0) hreads
    (Nat.zero_le 4) (le_refl 4) (by decide) hlong.1 hcount
  refine ⟨_, receive_eq_ok_iff.mpr (.invalidLength hheader ?_)⟩
  rw [(receiveHeader_spec hreads hheader).2]
  exact hlong.2

end Call

/-- **When a call returns.** On a connection that is closed behind its input, a call of `receive`
returns after finitely many reads exactly when the input starts with a whole frame, or with a length
word that is too large. -/
theorem receive_returns_iff (h : TCPOpHandler) (chunks : ℕ → ℕ) (pkg : Package) :
    (∃ n r, (h.withReads (deliveries chunks n)).receive pkg = .ok r) ↔ HasFrame h.input := by
  constructor
  · rintro ⟨n, ⟨res, pkg', h'⟩, hreceive⟩
    rcases hasFrame_of_receive (delivering_deliveries chunks n) hreceive with
      ⟨hlong, -⟩ | ⟨d, rest, hfit, hinput, -⟩
    · exact .inl hlong
    · exact .inr ⟨d, hfit, rest, hinput.symm⟩
  · rintro (hlong | ⟨d, hfit, rest, hinput⟩)
    · obtain ⟨h', hreceive⟩ := receive_longHeader (h := h.withReads (deliveries chunks 4))
        (delivering_deliveries chunks 4) hlong (by simp [withReads])
      exact ⟨4, _, hreceive⟩
    · obtain ⟨res, pkg', h', hreceive, -⟩ :=
        receive_frame_returns (h := h.withReads (deliveries chunks (frame d).length)) hfit
          hinput.symm (delivering_deliveries chunks _) (by simp [withReads]) pkg
      exact ⟨_, _, hreceive⟩

/-! ## The main loop -/

/-- Frames that do not stop the loop, and then one that does: the end flag, or a length word that is
too large. -/
def StopsStream (input : Bytes) : Prop :=
  ∃ ds rest, input = frames ds ++ rest ∧
    (∀ d ∈ ds, d.length ≤ packageBufferSize ∧ d ≠ Ycsb.endFlag) ∧
    (frame Ycsb.endFlag <+: rest ∨ LongHeader rest)

/-- The operation of a round threw, or its response was not sent in full. -/
def Iteration.Fails {H : Type} (it : Iteration H) : Prop :=
  (∃ why, it.executed = some (.error why)) ∨ ∃ x ∈ it.sent, ¬ x.Full

/-- The loop has been left, in the usual way or by an exception. -/
def Run.Ends {H : Type} (run : Run H) : Prop :=
  run.status = .ended ∨ ∃ it ∈ run.iterations, ∃ why, it.executed = some (.error why)

theorem Server.ends_of_fails {H : Type} {hdl : OpHandler H} {cycles : List Cycles} {s : Server H}
    {it : Iteration H} (hit : it ∈ (s.serve hdl cycles).iterations) (hfails : it.Fails) :
    (s.serve hdl cycles).Ends := by
  obtain ⟨earlier, later, hsplit⟩ := List.append_of_mem hit
  obtain ⟨s', c, round, hround, hrecord, hlast⟩ := serve_eq_append hsplit
  rcases hfails with hthrew | ⟨x, hx, hshort⟩
  · exact .inr ⟨it, hit, hthrew⟩
  · rcases sends_of_iterates hround hrecord with ⟨-, hnil⟩ | ⟨n, ok, -, hsends, hstatus⟩
    · rw [hnil] at hx
      cases hx
    · have hok : ¬ ok = true := fun hok => hshort (hsends.ok_iff.mp hok x hx)
      rw [if_neg hok] at hstatus
      refine .inl ?_
      rw [(hlast (by rw [hstatus]; decide)).2, hstatus]

/-- What a round of the loop does to the connection. -/
theorem tcp_round {c : Cycles} {s : Server TCPOpHandler} {round : Round TCPOpHandler}
    (hround : Server.Iterates hdl c s round) :
    (round.status = .running ∧ ∃ res pkg h', s.handler.receive Package.fresh = .ok (res, pkg, h') ∧
      res ≠ .stop ∧ round.server.handler.input = h'.input ∧
      round.server.handler.reads = h'.reads) ∨
    (round.status = .ended ∧ ∃ pkg h', s.handler.receive Package.fresh = .ok (.stop, pkg, h')) ∨
    (round.status ≠ .running ∧ ∃ it, round.iteration = some it ∧ it.Fails) ∨
    ∃ why, round.status = .stopped why ∧ s.handler.receive Package.fresh = .error why := by
  cases hround with
  | blocked hreceive => exact .inr (.inr (.inr ⟨_, rfl, hreceive⟩))
  | stop hreceive => exact .inr (.inl ⟨rfl, _, _, hreceive⟩)
  | incomplete hreceive => exact .inl ⟨rfl, _, _, _, hreceive, by decide, rfl, rfl⟩
  | threw _ _ => exact .inr (.inr (.inl ⟨by simp, _, rfl, .inl ⟨_, rfl⟩⟩))
  | @unanswered _ h resBytes _ response _ _ hresponse hok =>
    have hsends := respond_sends hdl h resBytes
    rw [hresponse, hok] at hsends
    have hshort : ¬ ∀ x ∈ response.sent, x.Full := by
      rw [← hsends.ok_iff]
      decide
    push Not at hshort
    exact .inr (.inr (.inl ⟨by simp, _, rfl, .inr hshort⟩))
  | @answered _ h resBytes _ response hreceive _ hresponse _ =>
    -- sending leaves what the client has sent and the reads to come
    have hkeep := @respond_preserves _ hdl
      (fun h'' => h''.input = h.input ∧ h''.reads = h.reads) (fun _ _ hP => hP) h ⟨rfl, rfl⟩
      resBytes
    rw [hresponse] at hkeep
    exact .inl ⟨rfl, _, _, _, hreceive, by decide, hkeep⟩

section Frame

variable {h h' : TCPOpHandler} {pkg' : Package} {res : Result} (hreads : Delivering h.reads)
include hreads

/-- The frame of a call that returned `STOP` stops the stream. -/
theorem stopsStream_of_stop (hreceive : h.receive Package.fresh = .ok (.stop, pkg', h')) :
    StopsStream h.input := by
  refine ⟨[], h.input, rfl, by simp, ?_⟩
  rcases hasFrame_of_receive hreads hreceive with ⟨hlong, -⟩ | ⟨d, rest, -, hinput, htakes⟩
  · exact .inr hlong
  · rcases htakes.result with ⟨rfl, -⟩ | ⟨-, r, -, hres⟩
    · exact .inl ⟨rest, hinput.symm⟩
    · split at hres <;> cases hres

/-- Any other frame that a call received may stand in front of a stream that is stopped. -/
theorem StopsStream.of_receive (hreceive : h.receive Package.fresh = .ok (res, pkg', h'))
    (hres : res ≠ .stop) :
    Delivering h'.reads ∧ (StopsStream h'.input → StopsStream h.input) := by
  rcases hasFrame_of_receive hreads hreceive with ⟨-, hstop⟩ | ⟨d, rest, hfit, hinput, htakes⟩
  · exact absurd hstop hres
  refine ⟨htakes.delivering, ?_⟩
  rintro ⟨ds, rest', hds, hgo, hstop⟩
  refine ⟨d :: ds, rest', ?_, fun e he => ?_, hstop⟩
  · rw [hinput, ← htakes.input_eq, hds, frames_cons, List.append_assoc]
  · rcases List.mem_cons.mp he with rfl | he
    · refine ⟨hfit, fun hflag => ?_⟩
      rcases htakes.result with ⟨-, hstop⟩ | ⟨hne, -⟩
      · exact hres hstop
      · exact hne hflag
    · exact hgo e he

/-- A frame that stops the stream makes the call return `STOP`, with reads enough. -/
theorem receive_stops (hstop : frame Ycsb.endFlag <+: h.input ∨ LongHeader h.input)
    (hcount : 10 ≤ h.reads.length) :
    ∃ pkg h', h.receive Package.fresh = .ok (.stop, pkg, h') := by
  rcases hstop with ⟨rest, hflag⟩ | hlong
  · have hlen : Ycsb.endFlag.length ≤ packageBufferSize := by decide
    obtain ⟨res, pkg, h', hreceive, -⟩ :=
      receive_frame_returns hlen hflag.symm hreads hcount Package.fresh
    rcases (receive_frame hlen hflag.symm hreads hreceive).result with ⟨-, rfl⟩ | ⟨hne, -⟩
    · exact ⟨pkg, h', hreceive⟩
    · exact absurd rfl hne
  · obtain ⟨h', hreceive⟩ := @receive_longHeader h Package.fresh hreads hlong (by omega)
    exact ⟨_, h', hreceive⟩

end Frame

/-- A loop that has ended has failed, or it has come to a frame that stops it. -/
theorem stops_of_ends {cycles : List Cycles} {s : Server TCPOpHandler}
    (hreads : Delivering s.handler.reads) (hends : (s.serve hdl cycles).Ends) :
    StopsStream s.handler.input ∨ ∃ it ∈ (s.serve hdl cycles).iterations, it.Fails := by
  rcases hends with hended | ⟨it, hit, hthrew⟩
  swap
  · exact .inr ⟨it, hit, .inl hthrew⟩
  revert hreads hended
  apply Server.serve_induct (P := fun _ (s : Server TCPOpHandler) run =>
    Delivering s.handler.reads → run.status = .ended →
      StopsStream s.handler.input ∨ ∃ it ∈ run.iterations, it.Fails)
  · intro s _ hended
    cases hended
  · intro c _ s round hround hrun hreads hended
    rcases tcp_round hround with ⟨h, -⟩ | ⟨-, pkg, h', hreceive⟩ | ⟨-, it, hrecord, hfails⟩ |
      ⟨_, h, -⟩
    · exact absurd h hrun
    · exact .inl (stopsStream_of_stop hreads hreceive)
    · exact .inr ⟨it, by simp [hrecord], hfails⟩
    · cases h.symm.trans hended
  · intro c _ s it s' run hround ih hreads hended
    rcases tcp_round hround with ⟨-, res, pkg, h', hreceive, hres, hinput', hreads'⟩ | ⟨h, -⟩ |
      ⟨h, -⟩ | ⟨_, h, -⟩
    · simp only at hinput' hreads'
      obtain ⟨hdelivering, hfront⟩ := StopsStream.of_receive hreads hreceive hres
      rcases ih (by rwa [hreads']) hended with hstops | ⟨it', hit', hfails⟩
      · rw [hinput'] at hstops
        exact .inl (hfront hstops)
      · exact .inr ⟨it', List.mem_cons_of_mem it hit', hfails⟩
    · cases h
    · exact absurd rfl h
    · cases h

/-- A round whose call of `receive` returns ends the loop, or the loop goes on behind what that call
has received. -/
theorem ends_or_running {c : Cycles} {cycles : List Cycles} {s : Server TCPOpHandler} {res : Result}
    {pkg : Package} {h' : TCPOpHandler}
    (hreceive : s.handler.receive Package.fresh = .ok (res, pkg, h')) :
    (s.serve hdl (c :: cycles)).Ends ∨
      ∃ it s', s.iterate hdl c = ⟨some it, s', .running⟩ ∧ res ≠ .stop ∧
        s'.handler.input = h'.input ∧ s'.handler.reads = h'.reads := by
  have hround := Server.iterates_iterate hdl c s
  rcases tcp_round hround with ⟨hrun, res', pkg', h'', hreceive', hres, hinput, hreads⟩ |
    ⟨hended, -⟩ | ⟨hne, it, hrecord, hfails⟩ | ⟨why, -, herror⟩
  · obtain ⟨it, s', heq⟩ := Server.exists_of_running hround hrun
    rw [hreceive] at hreceive'
    cases hreceive'
    rw [heq] at hinput hreads
    exact .inr ⟨it, s', heq, hres, hinput, hreads⟩
  · refine .inl (.inl ?_)
    rw [Server.serve_cons_of_ne_running rfl (by rw [hended]; decide)]
    exact hended
  · refine .inl (@Server.ends_of_fails _ _ _ _ it ?_ hfails)
    rw [Server.serve_cons_of_ne_running rfl hne, hrecord]
    exact List.mem_singleton_self it
  · rw [hreceive] at herror
    cases herror

/-- With reads and rounds enough the loop comes to the frame that stops it, unless it ends
before. -/
theorem ends_of_stops {ds : List Bytes} {rest : Bytes} {cycles : List Cycles}
    {s : Server TCPOpHandler} (hreads : Delivering s.handler.reads)
    (hinput : s.handler.input = frames ds ++ rest)
    (hfit : ∀ d ∈ ds, d.length ≤ packageBufferSize)
    (hstop : frame Ycsb.endFlag <+: rest ∨ LongHeader rest)
    (hcount : (frames ds).length + 10 ≤ s.handler.reads.length)
    (hrounds : ds.length < cycles.length) : (s.serve hdl cycles).Ends := by
  induction ds generalizing s cycles with
  | nil =>
    obtain ⟨c, cycles, rfl⟩ := List.exists_cons_of_length_pos hrounds
    rw [frames_nil, List.length_nil, Nat.zero_add] at hcount
    rw [frames_nil, List.nil_append] at hinput
    rw [← hinput] at hstop
    obtain ⟨pkg, h', hreceive⟩ := receive_stops hreads hstop hcount
    rcases @ends_or_running c cycles s _ _ _ hreceive with hends | ⟨_, _, -, hres, -⟩
    · exact hends
    · exact absurd rfl hres
  | cons d ds ih =>
    obtain ⟨c, cycles, rfl⟩ := List.exists_cons_of_length_pos (Nat.zero_lt_of_lt hrounds)
    rw [frames_cons, List.append_assoc] at hinput
    rw [frames_cons, List.length_append] at hcount
    obtain ⟨res, pkg, h', hreceive, hused⟩ := receive_frame_returns (hfit d (by simp)) hinput
      hreads (by omega) Package.fresh
    have htakes := receive_frame (hfit d (by simp)) hinput hreads hreceive
    rcases @ends_or_running c cycles s _ _ _ hreceive with
      hends | ⟨it, s', heq, -, hinput', hreads'⟩
    · exact hends
    · have hends : (s'.serve hdl cycles).Ends := by
        refine ih (by rw [hreads']; exact htakes.delivering)
          (by rw [hinput']; exact htakes.input_eq) (fun e he => hfit e (by simp [he])) ?_
          (by simpa using hrounds)
        rw [hreads']
        omega
      rw [Server.serve_cons_of_running heq]
      rcases hends with hended | ⟨it', hit', hthrew⟩
      · exact .inl hended
      · exact .inr ⟨it', List.mem_cons_of_mem it hit', hthrew⟩

/-- A loop does not end in a call of `receive` that does not come back. -/
theorem Server.not_ends_of_blocked {H : Type} {hdl : OpHandler H} {s : Server H}
    (hblocked : ∀ r, hdl.receive s.handler Package.fresh ≠ .ok r) (cycles : List Cycles) :
    ¬ (s.serve hdl cycles).Ends := by
  cases cycles with
  | nil =>
    rintro (hended | ⟨it, hit, -⟩)
    · cases hended
    · cases hit
  | cons c cycles =>
    obtain ⟨why, hround⟩ : ∃ why, s.iterate hdl c = ⟨none, s, .stopped why⟩ := by
      cases hfirst : hdl.receive s.handler Package.fresh with
      | ok r => exact absurd hfirst (hblocked r)
      | error why => exact ⟨why, by rw [Server.iterate, hfirst]⟩
    rw [Server.serve_cons_of_ne_running hround (by simp)]
    rintro (hended | ⟨it, hit, -⟩)
    · cases hended
    · cases hit

/-- **When `receive` and the main loop come back.** On a connection that the client closes behind
any stream and that delivers it in any chunks: a call of `receive` returns after finitely many reads
exactly when the stream starts with a whole frame, or with a length word that is too large; and the
main loop ends after finitely many reads and rounds exactly when a frame of the stream stops it, or
an operation throws or a response is not sent in full before. -/
theorem loop_ends_iff (h : TCPOpHandler) (chunks : ℕ → ℕ) (cycles : ℕ → Cycles) (db : DB) :
    (∀ pkg, (∃ n r, (h.withReads (deliveries chunks n)).receive pkg = .ok r) ↔
      HasFrame h.input) ∧
    ((∃ n N, ((Server.start hdl (h.withReads (deliveries chunks n)) db).serve hdl
        ((List.range N).map cycles)).Ends) ↔
      StopsStream h.input ∨ ∃ n N, ∃ it ∈ ((Server.start hdl (h.withReads (deliveries chunks n))
        db).serve hdl ((List.range N).map cycles)).iterations, it.Fails) := by
  refine ⟨receive_returns_iff h chunks, ?_, ?_⟩
  · rintro ⟨n, N, hends⟩
    rcases stops_of_ends (delivering_deliveries chunks n) hends with hstops | hfails
    · exact .inl hstops
    · exact .inr ⟨n, N, hfails⟩
  · rintro (⟨ds, rest, hinput, hgo, hstop⟩ | ⟨n, N, it, hit, hfails⟩)
    · refine ⟨(frames ds).length + 10, ds.length + 1, ends_of_stops
        (delivering_deliveries chunks _) hinput (fun d hd => (hgo d hd).1) hstop ?_ (by simp)⟩
      exact (length_deliveries chunks _).ge
    · exact ⟨n, N, Server.ends_of_fails hit hfails⟩

/-- A client that closes the connection as soon as it is accepted: `receive` never returns and the
loop never ends. -/
theorem receive_spins_after_close :
    ∃ h : TCPOpHandler, h.input = [] ∧
      (∀ n r, (h.withReads (deliveries (fun _ => 0) n)).receive Package.fresh ≠ .ok r) ∧
      ∀ n N, ¬ ((Server.start hdl (h.withReads (deliveries (fun _ => 0) n)) SortedMap.empty).serve
        hdl ((List.range N).map fun _ => ⟨0, 0⟩)).Ends := by
  obtain ⟨h, hinput⟩ : ∃ h : TCPOpHandler, h.input = [] :=
    ⟨create (fun _ => .zero) [] [] (fun _ => .upTo 0), rfl⟩
  have hnone : ∀ n r, (h.withReads (deliveries (fun _ => 0) n)).receive Package.fresh ≠ .ok r := by
    intro n r hreceive
    rcases (receive_returns_iff h (fun _ => 0) Package.fresh).mp ⟨n, r, hreceive⟩ with
      ⟨hlen, -⟩ | ⟨d, -, hframe⟩
    · rw [hinput] at hlen
      exact absurd hlen (by decide)
    · have hlen := hframe.length_le
      rw [hinput, length_frame, List.length_nil] at hlen
      omega
  exact ⟨h, hinput, hnone, fun n N => Server.not_ends_of_blocked (hnone n) _⟩

end BenchLx.Ycsb
