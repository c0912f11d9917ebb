import BenchLx.Ycsb.Server

/-!
# The reply stream of the server

A response is a list of chunks, the size and then the payload. `SendsUntilShort` is what sending a
list of chunks means: one `send()` for each chunk, up to the first that is short or fails.
`respond_sends` says that `respond` does this with the chunks of a response, `Iterates` lists what a
round of the loop can do, and from both follows the reply stream of a whole run
(`serve_reply_stream`).
-/

namespace BenchLx.Ycsb

/-! ## Sending chunks -/

theorem Sent.full_iff {data : Bytes} {res : ℤ} {n : ℕ} (hlen : data.length = n) :
    Sent.Full ⟨data, res⟩ ↔ res = n := by
  rw [Sent.Full, hlen]

/-- Sending the chunks one after the other, and giving up after the first send that does not
transfer all of its chunk. -/
inductive SendsUntilShort : List Bytes → List Sent → Bool → Prop
  | done : SendsUntilShort [] [] true
  | short {chunks : List Bytes} {s : Sent} (hshort : ¬ s.Full) :
      SendsUntilShort (s.data :: chunks) [s] false
  | full {chunks : List Bytes} {s : Sent} {sent : List Sent} {ok : Bool} (hfull : s.Full)
      (hrest : SendsUntilShort chunks sent ok) :
      SendsUntilShort (s.data :: chunks) (s :: sent) ok

namespace SendsUntilShort

variable {chunks : List Bytes} {sent : List Sent} {ok : Bool}

theorem ok_iff (h : SendsUntilShort chunks sent ok) : ok = true ↔ ∀ s ∈ sent, s.Full := by
  induction h with
  | done => simp
  | short hshort => simpa using hshort
  | full hfull _ ih => simpa [hfull] using ih

theorem data_isPrefix (h : SendsUntilShort chunks sent ok) : sent.map Sent.data <+: chunks := by
  induction h with
  | done => exact List.nil_prefix
  | short hshort => exact List.cons_prefix_cons.mpr ⟨rfl, List.nil_prefix⟩
  | full _ _ ih => exact List.cons_prefix_cons.mpr ⟨rfl, ih⟩

theorem data_eq (h : SendsUntilShort chunks sent true) : sent.map Sent.data = chunks := by
  generalize hok : true = ok at h
  induction h with
  | done => rfl
  | short hshort => cases hok
  | full _ _ ih => rw [List.map_cons, ih hok]

/-- When no send is short, all chunks have been sent. -/
theorem data_eq_of_full (h : SendsUntilShort chunks sent ok) (hfull : ∀ s ∈ sent, s.Full) :
    sent.map Sent.data = chunks := by
  obtain rfl := h.ok_iff.mpr hfull
  exact h.data_eq

/-- A short send is the last one. -/
theorem eq_nil_of_short (h : SendsUntilShort chunks sent ok) {before after : List Sent} {s : Sent}
    (hsplit : sent = before ++ s :: after) (hshort : ¬ s.Full) : after = [] := by
  induction h generalizing before with
  | done => simp at hsplit
  | short _ =>
    rw [List.singleton_eq_append_iff] at hsplit
    rcases hsplit with ⟨-, hs⟩ | ⟨-, hs⟩
    · exact (List.cons.inj hs).2
    · cases hs
  | full hfull _ ih =>
    cases before with
    | nil =>
      obtain ⟨rfl, -⟩ := List.cons.inj hsplit
      exact absurd hfull hshort
    | cons b before => exact ih (List.cons.inj hsplit).2

end SendsUntilShort

/-! ## The chunks of a response -/

/-- `n` zero bytes in chunks of 1024 and one for the rest. -/
def payloadChunks (n : ℕ) : List Bytes :=
  List.replicate (n / responseBufferSize) (List.replicate responseBufferSize 0) ++
    if n % responseBufferSize = 0 then [] else [List.replicate (n % responseBufferSize) 0]

/-- The chunks of a response: the size as a big-endian word, and that many zero bytes. -/
def responseSends (bytes : UInt64) : List Bytes :=
  toBytesBE 8 bytes.toNat :: payloadChunks bytes.toNat

theorem payloadChunks_zero : payloadChunks 0 = [] := rfl

theorem payloadChunks_of_lt {n : ℕ} (hpos : 0 < n) (hlt : n < responseBufferSize) :
    payloadChunks n = [List.replicate n 0] := by
  rw [payloadChunks, Nat.div_eq_of_lt hlt, Nat.mod_eq_of_lt hlt, if_neg (by omega)]
  rfl

theorem payloadChunks_of_le {n : ℕ} (hle : responseBufferSize ≤ n) :
    payloadChunks n
      = List.replicate responseBufferSize 0 :: payloadChunks (n - responseBufferSize) := by
  have hpos : 0 < responseBufferSize := by decide
  have hdiv : n / responseBufferSize = (n - responseBufferSize) / responseBufferSize + 1 := by
    rw [← Nat.sub_add_cancel hle, Nat.add_div_right _ hpos, Nat.add_sub_cancel]
  rw [payloadChunks, hdiv, List.replicate_succ, Nat.mod_eq_sub_mod hle]
  rfl

theorem flatten_payloadChunks (n : ℕ) : (payloadChunks n).flatten = List.replicate n 0 := by
  have hsum := Nat.div_add_mod' n responseBufferSize
  rw [payloadChunks, List.flatten_append, List.flatten_replicate_replicate]
  by_cases hmod : n % responseBufferSize = 0
  · rw [if_pos hmod, List.flatten_nil, List.append_nil,
      Nat.div_mul_cancel (Nat.dvd_of_mod_eq_zero hmod)]
  · rw [if_neg hmod, List.flatten_singleton, List.replicate_append_replicate, hsum]

theorem length_of_mem_payloadChunks {n : ℕ} {d : Bytes} (hd : d ∈ payloadChunks n) :
    1 ≤ d.length ∧ d.length ≤ responseBufferSize := by
  have hpos : 0 < responseBufferSize := by decide
  have hlt := Nat.mod_lt n hpos
  rcases List.mem_append.mp hd with hd | hd
  · rw [(List.mem_replicate.mp hd).2, List.length_replicate]
    omega
  · by_cases hmod : n % responseBufferSize = 0
    · rw [if_pos hmod] at hd
      cases hd
    · rw [if_neg hmod] at hd
      rw [List.mem_singleton.mp hd, List.length_replicate]
      omega

/-! ## `respond` -/

/-- The comparison of a send result as a `size_t` is one of its value. -/
theorem toSize_toInt_eq_iff {len n : ℕ} (hlen : len < sizeMod) (hn : n + 1 < sizeMod)
    (r : SendResult len) : toSize r.toInt = n ↔ r.toInt = n := by
  cases r with
  | none =>
    simp only [SendResult.toInt, toSize_neg_one]
    omega
  | some k =>
    have hk := k.isLt
    simp only [SendResult.toInt, toSize_natCast (by omega : k.val < sizeMod), Nat.cast_inj]

section Respond

variable {H : Type} (hdl : OpHandler H)

/-- One round of the loop: it sends the next chunk, and goes on when all of it is transferred. -/
theorem respondLoop_of_pos (h : H) {bytes : ℕ} (hpos : 0 < bytes) :
    ∃ amount, 0 < amount ∧
      payloadChunks bytes = List.replicate amount 0 :: payloadChunks (bytes - amount) ∧
      respondLoop hdl h bytes =
        let data : Bytes := List.replicate amount 0
        let (res, h) := hdl.send h data
        if res.toInt ≠ amount then
          { ok := false, handler := h, sent := [⟨data, res.toInt⟩] }
        else
          let rest := respondLoop hdl h (bytes - amount)
          { rest with sent := ⟨data, res.toInt⟩ :: rest.sent } := by
  refine ⟨if bytes < responseBufferSize then bytes else responseBufferSize, ?_⟩
  rw [respondLoop, dif_pos hpos]
  by_cases hlt : bytes < responseBufferSize
  · rw [if_pos hlt]
    exact ⟨hpos, by rw [payloadChunks_of_lt hpos hlt, Nat.sub_self, payloadChunks_zero], rfl⟩
  · rw [if_neg hlt]
    exact ⟨by decide, payloadChunks_of_le (by omega), rfl⟩

theorem respondLoop_sends (h : H) (bytes : ℕ) :
    SendsUntilShort (payloadChunks bytes) (respondLoop hdl h bytes).sent
      (respondLoop hdl h bytes).ok := by
  induction bytes using Nat.strong_induction_on generalizing h with
  | _ bytes ih =>
    by_cases hpos : 0 < bytes
    · obtain ⟨amount, hamount, hchunks, hloop⟩ := respondLoop_of_pos hdl h hpos
      rw [hloop, hchunks]
      by_cases hfull : (hdl.send h (List.replicate amount 0)).1.toInt = amount
      · simp only [ne_eq, hfull, not_true_eq_false, if_false]
        exact .full (s := ⟨List.replicate amount 0, amount⟩)
          ((Sent.full_iff List.length_replicate).mpr rfl) (ih _ (by omega) _)
      · simp only [ne_eq, hfull, not_false_eq_true, if_true]
        exact .short (s := ⟨List.replicate amount 0, _⟩)
          fun hsent => hfull ((Sent.full_iff List.length_replicate).mp hsent)
    · rw [respondLoop, dif_neg hpos, show bytes = 0 by omega, payloadChunks_zero]
      exact .done

/-- **One response.** `respond` sends the chunks of the response up to the first send that does not
transfer all of its chunk. -/
theorem respond_sends (h : H) (bytes : UInt64) :
    SendsUntilShort (responseSends bytes) (respond hdl h bytes).sent
      (respond hdl h bytes).ok := by
  have hlen : (toBytesBE 8 bytes.toNat).length = 8 := length_toBytesBE _ _
  have hword : ∀ r : SendResult (toBytesBE 8 bytes.toNat).length,
      toSize r.toInt = 8 ↔ Sent.Full ⟨toBytesBE 8 bytes.toNat, r.toInt⟩ := by
    intro r
    rw [toSize_toInt_eq_iff (by rw [hlen]; decide) (by decide), Sent.full_iff hlen]
  rw [respond]
  by_cases hfull : toSize (hdl.send h (toBytesBE 8 bytes.toNat)).1.toInt = 8
  · simp only [ne_eq, hfull, not_true_eq_false, if_false]
    exact .full (s := ⟨toBytesBE 8 bytes.toNat, _⟩) ((hword _).mp hfull) (respondLoop_sends hdl _ _)
  · simp only [ne_eq, hfull, not_false_eq_true, if_true]
    exact .short (s := ⟨toBytesBE 8 bytes.toNat, _⟩) fun h => hfull ((hword _).mpr h)

/-- What every send keeps `respond` keeps. -/
theorem respond_preserves {P : H → Prop} (hsend : ∀ h data, P h → P (hdl.send h data).2) {h : H}
    (hP : P h) (bytes : UInt64) : P (respond hdl h bytes).handler := by
  have hloop : ∀ n h, P h → P (respondLoop hdl h n).handler := by
    intro n
    induction n using Nat.strong_induction_on with
    | _ n ih =>
      intro h hP
      by_cases hpos : 0 < n
      · obtain ⟨amount, hamount, -, hloop⟩ := respondLoop_of_pos hdl h hpos
        rw [hloop]
        simp only
        split
        · exact hsend _ _ hP
        · exact ih _ (by omega) _ (hsend _ _ hP)
      · rw [respondLoop, dif_neg hpos]
        exact hP
  rw [respond]
  simp only
  split
  · exact hsend _ _ hP
  · exact hloop _ _ (hsend _ _ hP)

end Respond

/-! ## Rounds and runs -/

namespace Server

variable {H : Type} {hdl : OpHandler H}

/-- What a round of the loop can do. -/
inductive Iterates (hdl : OpHandler H) (cycles : Cycles) (s : Server H) : Round H → Prop
  | blocked {why : Stop} (hreceive : hdl.receive s.handler Package.fresh = .error why) :
      Iterates hdl cycles s ⟨none, s, .stopped why⟩
  | stop {pkg : Package} {h : H}
      (hreceive : hdl.receive s.handler Package.fresh = .ok (.stop, pkg, h)) :
      Iterates hdl cycles s
        ⟨some ⟨⟨s.handler, .stop, pkg, h⟩, none, []⟩, { s with handler := h }, .ended⟩
  | incomplete {pkg : Package} {h : H}
      (hreceive : hdl.receive s.handler Package.fresh = .ok (.incomplete, pkg, h)) :
      Iterates hdl cycles s
        ⟨some ⟨⟨s.handler, .incomplete, pkg, h⟩, none, []⟩, { s with handler := h }, .running⟩
  | threw {pkg : Package} {h : H} {why : Stop}
      (hreceive : hdl.receive s.handler Package.fresh = .ok (.ready, pkg, h))
      (hexec : s.exec.execute cycles pkg = .error why) :
      Iterates hdl cycles s
        ⟨some ⟨⟨s.handler, .ready, pkg, h⟩, some (.error why), []⟩, { s with handler := h },
          .stopped why⟩
  | unanswered {pkg : Package} {h : H} {resBytes : UInt64} {exec : LevelDBExecutor}
      {response : Response H}
      (hreceive : hdl.receive s.handler Package.fresh = .ok (.ready, pkg, h))
      (hexec : s.exec.execute cycles pkg = .ok (resBytes, exec))
      (hresponse : respond hdl h resBytes = response) (hok : response.ok = false) :
      Iterates hdl cycles s
        ⟨some ⟨⟨s.handler, .ready, pkg, h⟩, some (.ok resBytes), response.sent⟩,
          ⟨response.handler, exec, s.opcounter⟩, .ended⟩
  | answered {pkg : Package} {h : H} {resBytes : UInt64} {exec : LevelDBExecutor}
      {response : Response H}
      (hreceive : hdl.receive s.handler Package.fresh = .ok (.ready, pkg, h))
      (hexec : s.exec.execute cycles pkg = .ok (resBytes, exec))
      (hresponse : respond hdl h resBytes = response) (hok : response.ok = true) :
      Iterates hdl cycles s
        ⟨some ⟨⟨s.handler, .ready, pkg, h⟩, some (.ok resBytes), response.sent⟩,
          ⟨response.handler, exec, s.opcounter + 1⟩, .running⟩

theorem iterates_iterate (hdl : OpHandler H) (cycles : Cycles) (s : Server H) :
    Iterates hdl cycles s (s.iterate hdl cycles) := by
  rw [iterate]
  cases hreceive : hdl.receive s.handler Package.fresh with
  | error why => exact .blocked hreceive
  | ok out =>
    obtain ⟨result, pkg, h⟩ := out
    cases result with
    | stop => exact .stop hreceive
    | incomplete => exact .incomplete hreceive
    | ready =>
      cases hexec : s.exec.execute cycles pkg with
      | error why =>
        simp only [hexec]
        exact .threw hreceive hexec
      | ok out =>
        obtain ⟨resBytes, exec⟩ := out
        simp only [hexec]
        cases hok : (respond hdl h resBytes).ok with
        | true => exact .answered hreceive hexec rfl hok
        | false => exact .unanswered hreceive hexec rfl hok

theorem serve_cons_of_running {c : Cycles} {cycles : List Cycles} {s : Server H}
    {it : Iteration H} {s' : Server H} (hround : s.iterate hdl c = ⟨some it, s', .running⟩) :
    s.serve hdl (c :: cycles)
      = { s'.serve hdl cycles with iterations := it :: (s'.serve hdl cycles).iterations } := by
  rw [serve, hround]
  rfl

theorem serve_cons_of_ne_running {c : Cycles} {cycles : List Cycles} {s : Server H}
    {round : Round H} (hround : s.iterate hdl c = round) (hrun : round.status ≠ .running) :
    s.serve hdl (c :: cycles)
      = { iterations := round.iteration.toList, server := round.server
          status := round.status } := by
  rw [serve, hround]
  exact if_neg hrun

/-- A round after which the loop goes on is on record. -/
theorem exists_of_running {c : Cycles} {s : Server H} {round : Round H}
    (hround : Iterates hdl c s round) (hrun : round.status = .running) :
    ∃ it s', round = ⟨some it, s', .running⟩ := by
  cases hround with
  | blocked => cases hrun
  | stop => cases hrun
  | incomplete => exact ⟨_, _, rfl⟩
  | threw => cases hrun
  | unanswered => cases hrun
  | answered => exact ⟨_, _, rfl⟩

/-- **Induction over the rounds of a run.** A run has no round, or it is over after one round, or a
round lets it go on. -/
theorem serve_induct {P : List Cycles → Server H → Run H → Prop}
    (hnil : ∀ s, P [] s { iterations := [], server := s, status := .running })
    (hlast : ∀ {c cycles s round}, Iterates hdl c s round → round.status ≠ .running →
      P (c :: cycles) s
        { iterations := round.iteration.toList, server := round.server, status := round.status })
    (hnext : ∀ {c cycles s it s' run}, Iterates hdl c s ⟨some it, s', .running⟩ →
      P cycles s' run → P (c :: cycles) s { run with iterations := it :: run.iterations })
    (cycles : List Cycles) (s : Server H) : P cycles s (s.serve hdl cycles) := by
  induction cycles generalizing s with
  | nil => exact hnil s
  | cons c cycles ih =>
    have hround := iterates_iterate hdl c s
    by_cases hrun : (s.iterate hdl c).status = .running
    · obtain ⟨it, s', heq⟩ := exists_of_running hround hrun
      rw [serve_cons_of_running heq]
      rw [heq] at hround
      exact hnext hround (ih s')
    · rw [serve_cons_of_ne_running rfl hrun]
      exact hlast hround hrun

/-- **Runs round by round.** Every recorded round of a run is a round of the loop, and nothing comes
after it unless it lets the loop go on. -/
theorem serve_eq_append {cycles : List Cycles} {s : Server H} {earlier later : List (Iteration H)}
    {it : Iteration H} (hsplit : (s.serve hdl cycles).iterations = earlier ++ it :: later) :
    ∃ s' c round, Iterates hdl c s' round ∧ round.iteration = some it ∧
      (round.status ≠ .running → later = [] ∧ (s.serve hdl cycles).status = round.status) := by
  revert earlier
  apply serve_induct (P := fun _ _ run => ∀ {earlier : List (Iteration H)},
    run.iterations = earlier ++ it :: later →
      ∃ s' c round, Iterates hdl c s' round ∧ round.iteration = some it ∧
        (round.status ≠ .running → later = [] ∧ run.status = round.status))
  · intro s earlier hsplit
    simp at hsplit
  · intro c _ s round hround hrun earlier hsplit
    cases hrecord : round.iteration with
    | none => simp [hrecord] at hsplit
    | some it₀ =>
      rw [hrecord, Option.toList_some, List.singleton_eq_append_iff] at hsplit
      rcases hsplit with ⟨-, hit⟩ | ⟨-, hit⟩
      · obtain ⟨rfl, rfl⟩ := List.cons.inj hit
        exact ⟨s, c, round, hround, hrecord, fun _ => ⟨rfl, rfl⟩⟩
      · cases hit
  · intro c _ s it₀ s' run hround ih earlier hsplit
    cases earlier with
    | nil =>
      obtain ⟨rfl, -⟩ := List.cons.inj hsplit
      exact ⟨s, c, _, hround, rfl, fun hne => absurd rfl hne⟩
    | cons e earlier => exact ih (List.cons.inj hsplit).2

/-- The rounds of a run are rounds of the loop. -/
theorem iterates_of_mem {cycles : List Cycles} {s : Server H} {it : Iteration H}
    (hit : it ∈ (s.serve hdl cycles).iterations) :
    ∃ s' c round, Iterates hdl c s' round ∧ round.iteration = some it := by
  obtain ⟨earlier, later, hsplit⟩ := List.append_of_mem hit
  obtain ⟨s', c, round, hround, hrecord, -⟩ := serve_eq_append hsplit
  exact ⟨s', c, round, hround, hrecord⟩

end Server

/-! ## The reply stream -/

/-- The size of the result of a round that executed an operation. -/
def Iteration.resBytes {H : Type} (it : Iteration H) : Option UInt64 :=
  match it.executed with
  | some (.ok resBytes) => some resBytes
  | _ => none

/-- The sizes of the results of the executed operations, in order. -/
def Run.results {H : Type} (run : Run H) : List UInt64 :=
  run.iterations.filterMap Iteration.resBytes

/-- The sends of all responses, in order. -/
def Run.sent {H : Type} (run : Run H) : List Sent :=
  run.iterations.flatMap Iteration.sent

/-- The chunks that the executed operations call for, in order. -/
def Run.replies {H : Type} (run : Run H) : List Bytes :=
  run.results.flatMap responseSends

section Stream

variable {H : Type} {hdl : OpHandler H}

/-- A round answers the operation it executed, and nothing else. -/
theorem sends_of_iterates {c : Cycles} {s : Server H} {round : Round H} {it : Iteration H}
    (hround : Server.Iterates hdl c s round) (hit : round.iteration = some it) :
    (it.resBytes = none ∧ it.sent = []) ∨ ∃ n ok, it.resBytes = some n ∧
      SendsUntilShort (responseSends n) it.sent ok ∧
      round.status = if ok then .running else .ended := by
  cases hround with
  | blocked => cases hit
  | stop | incomplete | threw =>
    cases hit
    exact .inl ⟨rfl, rfl⟩
  | unanswered _ _ hresponse hok =>
    cases hit
    subst hresponse
    refine .inr ⟨_, false, rfl, ?_, rfl⟩
    rw [← hok]
    exact respond_sends hdl _ _
  | answered _ _ hresponse hok =>
    cases hit
    subst hresponse
    refine .inr ⟨_, true, rfl, ?_, rfl⟩
    rw [← hok]
    exact respond_sends hdl _ _

/-- The sends of a run are the replies to its operations, cut off at the first short send. -/
theorem sent_of_serve (cycles : List Cycles) (s : Server H) :
    (s.serve hdl cycles).sent.map Sent.data <+: (s.serve hdl cycles).replies ∧
      ((∀ x ∈ (s.serve hdl cycles).sent, x.Full) →
        (s.serve hdl cycles).sent.map Sent.data = (s.serve hdl cycles).replies) := by
  simp only [Run.sent, Run.replies, Run.results]
  apply Server.serve_induct (P := fun _ _ run =>
    (run.iterations.flatMap Iteration.sent).map Sent.data
        <+: (run.iterations.filterMap Iteration.resBytes).flatMap responseSends ∧
      ((∀ x ∈ run.iterations.flatMap Iteration.sent, x.Full) →
        (run.iterations.flatMap Iteration.sent).map Sent.data
          = (run.iterations.filterMap Iteration.resBytes).flatMap responseSends))
  · exact fun _ => ⟨List.prefix_refl _, fun _ => rfl⟩
  · intro c _ s round hround _
    cases hrecord : round.iteration with
    | none => exact ⟨List.prefix_refl _, fun _ => rfl⟩
    | some it =>
      simp only [Option.toList_some, List.flatMap_cons, List.flatMap_nil, List.append_nil,
        List.filterMap_cons, List.filterMap_nil]
      rcases sends_of_iterates hround hrecord with ⟨hnone, hsent⟩ | ⟨n, ok, hn, hsends, -⟩
      · simp [hnone, hsent]
      · simp only [hn, List.flatMap_cons, List.flatMap_nil, List.append_nil]
        exact ⟨hsends.data_isPrefix, hsends.data_eq_of_full⟩
  · intro c _ s it s' run hround ih
    rcases sends_of_iterates hround rfl with ⟨hnone, hsent⟩ | ⟨n, ok, hn, hsends, hok⟩
    · simpa only [List.flatMap_cons, List.filterMap_cons, hnone, hsent, List.nil_append] using ih
    · obtain rfl : ok = true := by
        by_contra hne
        rw [if_neg hne] at hok
        cases hok
      simp only [List.flatMap_cons, List.filterMap_cons, hn, List.map_append, hsends.data_eq,
        List.prefix_append_right_inj, List.append_cancel_left_eq]
      exact ⟨ih.1, fun hfull => ih.2 fun x hx => hfull x (List.mem_append_right _ hx)⟩

/-- **The reply stream.** In every run of the loop, whatever `receive` and `send` do: the chunks
handed to `send()` are those of the responses to the executed operations in order, all of them when
every send transfers its chunk; a round that does not execute an operation sends nothing; and the
first send that does not is the last one, its round is the last one and the loop has ended. A
response is the size in one chunk and that many zero bytes in chunks of 1 to 1024, and `respond`
returns true exactly when all of its sends transferred their chunks. -/
theorem serve_reply_stream (hdl : OpHandler H) (cycles : List Cycles) (s : Server H) :
    (s.serve hdl cycles).sent.map Sent.data <+: (s.serve hdl cycles).replies ∧
    ((∀ x ∈ (s.serve hdl cycles).sent, x.Full) →
      (s.serve hdl cycles).sent.map Sent.data = (s.serve hdl cycles).replies) ∧
    (∀ it ∈ (s.serve hdl cycles).iterations,
      (it.call.result = .ready → it.executed ≠ none) ∧
      (it.call.result ≠ .ready → it.executed = none ∧ it.sent = []) ∧
      (it.resBytes = none → it.sent = []) ∧
      ∀ n, it.resBytes = some n → it.sent.map Sent.data <+: responseSends n ∧
        ((∀ x ∈ it.sent, x.Full) → it.sent.map Sent.data = responseSends n)) ∧
    (∀ earlier it later, (s.serve hdl cycles).iterations = earlier ++ it :: later →
      ∀ before x after, it.sent = before ++ x :: after → ¬ x.Full →
        after = [] ∧ later = [] ∧ (s.serve hdl cycles).status = .ended) ∧
    (∀ n : UInt64, (responseSends n).flatten
        = toBytesBE 8 n.toNat ++ List.replicate n.toNat 0 ∧
      ∃ word payload, responseSends n = word :: payload ∧ word.length = 8 ∧
        ∀ d ∈ payload, 1 ≤ d.length ∧ d.length ≤ 1024) ∧
    ∀ h n, (respond hdl h n).ok = true ↔ ∀ x ∈ (respond hdl h n).sent, x.Full := by
  refine ⟨(sent_of_serve cycles s).1, (sent_of_serve cycles s).2, fun it hit => ?_, ?_,
    fun n => ⟨?_, ?_⟩, fun h n => (respond_sends hdl h n).ok_iff⟩
  · obtain ⟨s', c, round, hround, hrecord⟩ := Server.iterates_of_mem hit
    refine ⟨?_, ?_, fun hnone => ?_, fun n hn => ?_⟩
    · cases hround <;> cases hrecord <;> simp
    · cases hround <;> cases hrecord <;> simp
    · rcases sends_of_iterates hround hrecord with ⟨-, hsent⟩ | ⟨n, ok, hn, -⟩
      · exact hsent
      · rw [hnone] at hn
        cases hn
    · rcases sends_of_iterates hround hrecord with ⟨hnone, -⟩ | ⟨n', ok, hn', hsends, -⟩
      · rw [hnone] at hn
        cases hn
      · obtain rfl : n' = n := Option.some.inj (hn'.symm.trans hn)
        exact ⟨hsends.data_isPrefix, hsends.data_eq_of_full⟩
  · intro earlier it later hsplit before x after hsent hshort
    obtain ⟨s', c, round, hround, hrecord, hlast⟩ := Server.serve_eq_append hsplit
    rcases sends_of_iterates hround hrecord with ⟨-, hnil⟩ | ⟨n, ok, -, hsends, hstatus⟩
    · rw [hnil] at hsent
      simp at hsent
    · have hok : ¬ ok = true := by
        intro hok
        exact hshort (hsends.ok_iff.mp hok x (by rw [hsent]; simp))
      rw [if_neg hok] at hstatus
      obtain ⟨hlater, hend⟩ := hlast (by rw [hstatus]; decide)
      exact ⟨hsends.eq_nil_of_short hsent hshort, hlater, hend.trans hstatus⟩
  · rw [responseSends, List.flatten_cons, flatten_payloadChunks]
  · exact ⟨_, _, rfl, length_toBytesBE _ _, fun d hd => length_of_mem_payloadChunks hd⟩

end Stream

end BenchLx.Ycsb
