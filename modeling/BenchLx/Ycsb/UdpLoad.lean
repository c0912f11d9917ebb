import BenchLx.Ycsb.UdpHandler

/-!
# Loading the workload file

The loading loop of the constructor, for any results of `read()`: positive counts, and then 0 or a
failure that persists. The result is kept in an unsigned variable, so a failure counts as progress:
the loop never ends and `wl_size` steps back below the start of the buffer (`load_iff`).
-/

namespace BenchLx.Ycsb

/-! ## The results of the reads -/

/-- How the reads of a file end: with 0, or with a failure for ever. -/
inductive Ending
  | endOfFile
  | failure
deriving DecidableEq, Repr

/-- The outcome that every read has from the end on. -/
def Ending.transfer : Ending → Transfer
  | .endOfFile => .upTo 0
  | .failure => .error

/-- The results of reading a file: the chunks that are delivered, each of at least one byte and no
more than was asked for, and how it ends. -/
structure FileReads where
  chunks : List Bytes
  ne_nil : ∀ d ∈ chunks, d ≠ []
  fits : chunks.flatten.length ≤ maxFileSize
  ending : Ending

namespace FileReads

/-- The bytes that are delivered. -/
def bytes (r : FileReads) : Bytes := r.chunks.flatten

/-- The outcomes of the reads, with the first `n` behind the chunks. -/
def outcomes (r : FileReads) (n : ℕ) : List Transfer :=
  r.chunks.map (fun d => .upTo d.length) ++ List.replicate n r.ending.transfer

end FileReads

/-- The reads that the loading loop asks for, with the one it waits for when no outcome is left. -/
def loadRequests : List Transfer → Bytes → ℕ → List ReadRequest
  | [], _, wlSize => [⟨wlSize, sizeSub maxFileSize wlSize⟩]
  | t :: reads, file, wlSize =>
    let max := sizeSub maxFileSize wlSize
    let out := t.read file max
    let len := toSize out.res
    ⟨wlSize, max⟩ ::
      if len > 0 then loadRequests reads out.rest (sizeAdd wlSize len) else []

/-- The loop loads the file that starts with the bytes delivered: it comes back, no read passes the
end of the buffer, and it leaves the bytes delivered at the start of the buffer and their number in
`wl_size`. -/
structure Loads (r : FileReads) (rest : Bytes) (contents : Buffer maxFileSize) : Prop where
  returns : ∃ n loaded, loadLoop (r.outcomes n) (r.bytes ++ rest) contents 0 = .ok loaded
  inside : ∀ n, ∀ q ∈ loadRequests (r.outcomes n) (r.bytes ++ rest) 0,
    q.off + q.max ≤ maxFileSize
  loaded : ∀ n loaded, loadLoop (r.outcomes n) (r.bytes ++ rest) contents 0 = .ok loaded →
    loaded.size = r.bytes.length ∧ loaded.buffer.take r.bytes.length = r.bytes ∧
      loadRequests (r.outcomes n) (r.bytes ++ rest) 0 = loaded.calls.map ReadCall.request

/-! ## The loop -/

theorem maxFileSize_lt : maxFileSize < sizeMod := by decide

/-- The reads of a loop that has come back are those that it has asked for. -/
theorem loadRequests_eq {reads : List Transfer} {file : Bytes} {buf : Buffer maxFileSize}
    {wlSize : ℕ} {loaded : Loaded} (h : loadLoop reads file buf wlSize = .ok loaded) :
    loadRequests reads file wlSize = loaded.calls.map ReadCall.request := by
  induction reads generalizing file buf wlSize loaded with
  | nil => cases h
  | cons t reads ih =>
    obtain ⟨buf', -, h⟩ := bind_eq_ok.mp h
    rw [loadRequests]
    simp only at h ⊢
    split at h
    · next hpos =>
      obtain ⟨rest, hrest, h⟩ := bind_eq_ok.mp h
      cases h
      rw [if_pos hpos, ih hrest]
      rfl
    · next hzero =>
      cases h
      rw [if_neg hzero]
      rfl

/-- A read delivers the next chunk of the file. -/
theorem read_chunk {d rest : Bytes} {wlSize : ℕ} (hfits : wlSize + d.length ≤ maxFileSize) :
    (Transfer.upTo d.length).read (d ++ rest) (sizeSub maxFileSize wlSize)
      = { res := d.length, data := d, rest } := by
  rw [sizeSub_of_le (by omega) maxFileSize_lt]
  exact Transfer.read_append (by omega) rest

section Chunk

variable {d : Bytes} (hd : d ≠ []) (reads : List Transfer) (rest : Bytes) {wlSize : ℕ}
  (hfits : wlSize + d.length ≤ maxFileSize)

include hd hfits

/-- A round that reads a chunk stores it and moves on by its length. -/
theorem loadLoop_chunk {buf buf' : Buffer maxFileSize} (hbuf : buf.store wlSize d = .ok buf') :
    ∃ call, loadLoop (.upTo d.length :: reads) (d ++ rest) buf wlSize
      = (loadLoop reads rest buf' (wlSize + d.length)).map
          fun loaded => { loaded with calls := call :: loaded.calls } := by
  have hpos := List.length_pos_of_ne_nil hd
  have hlt := maxFileSize_lt
  rw [loadLoop, read_chunk hfits]
  simp only [hbuf, ok_bind, toSize_natCast (by omega : d.length < sizeMod),
    sizeAdd_of_lt (by omega : wlSize + d.length < sizeMod), if_pos hpos]
  refine ⟨⟨wlSize, sizeSub maxFileSize wlSize, d.length, d⟩, ?_⟩
  cases loadLoop reads rest buf' (wlSize + d.length) <;> rfl

/-- A round that reads a chunk asks for what is left of the buffer. -/
theorem loadRequests_chunk :
    loadRequests (.upTo d.length :: reads) (d ++ rest) wlSize
      = ⟨wlSize, maxFileSize - wlSize⟩ :: loadRequests reads rest (wlSize + d.length) := by
  have hpos := List.length_pos_of_ne_nil hd
  have hlt := maxFileSize_lt
  rw [loadRequests, read_chunk hfits]
  simp only [toSize_natCast (by omega : d.length < sizeMod),
    sizeAdd_of_lt (by omega : wlSize + d.length < sizeMod), if_pos hpos,
    sizeSub_of_le (by omega : wlSize ≤ maxFileSize) hlt]

end Chunk

/-- The loop stores the chunks one after the other and goes on behind them. -/
theorem loadLoop_chunks {chunks : List Bytes} (hne : ∀ d ∈ chunks, d ≠ []) (more : List Transfer)
    (rest : Bytes) (buf : Buffer maxFileSize) {wlSize : ℕ}
    (hfits : wlSize + chunks.flatten.length ≤ maxFileSize) :
    ∃ buf' calls, buf.store wlSize chunks.flatten = .ok buf' ∧
      loadLoop (chunks.map (fun d => .upTo d.length) ++ more) (chunks.flatten ++ rest) buf wlSize
        = (loadLoop more rest buf' (wlSize + chunks.flatten.length)).map
            fun loaded => { loaded with calls := calls ++ loaded.calls } := by
  induction chunks generalizing buf wlSize with
  | nil =>
    refine ⟨buf, [], Buffer.store_nil buf wlSize, ?_⟩
    show loadLoop more rest buf wlSize = (loadLoop more rest buf wlSize).map _
    cases loadLoop more rest buf wlSize <;> rfl
  | cons d chunks ih =>
    rw [List.flatten_cons, List.length_append] at hfits
    obtain ⟨buf₁, hbuf₁⟩ : ∃ buf₁, buf.store wlSize d = .ok buf₁ :=
      ⟨_, Buffer.store_eq_ok_iff.mpr ⟨.inr (by omega), rfl⟩⟩
    obtain ⟨buf', calls, hbuf', hloop⟩ := ih (fun c hc => hne c (List.mem_cons_of_mem _ hc)) buf₁
      (by omega : wlSize + d.length + chunks.flatten.length ≤ maxFileSize)
    obtain ⟨call, hchunk⟩ := loadLoop_chunk (hne d List.mem_cons_self)
      (chunks.map (fun d => .upTo d.length) ++ more) (chunks.flatten ++ rest) (by omega) hbuf₁
    refine ⟨buf', call :: calls, Buffer.store_append hbuf₁ hbuf', ?_⟩
    rw [List.flatten_cons, List.append_assoc, List.map_cons, List.cons_append, hchunk, hloop,
      List.length_append, Nat.add_assoc]
    cases loadLoop more rest buf' (wlSize + (d.length + chunks.flatten.length)) <;> rfl

theorem loadRequests_chunks {chunks : List Bytes} (hne : ∀ d ∈ chunks, d ≠ [])
    (more : List Transfer) (rest : Bytes) {wlSize : ℕ}
    (hfits : wlSize + chunks.flatten.length ≤ maxFileSize) {q : ReadRequest}
    (hq : q ∈ loadRequests (chunks.map (fun d => .upTo d.length) ++ more)
      (chunks.flatten ++ rest) wlSize) :
    q.off + q.max = maxFileSize ∨
      q ∈ loadRequests more rest (wlSize + chunks.flatten.length) := by
  induction chunks generalizing wlSize with
  | nil => exact .inr hq
  | cons d chunks ih =>
    rw [List.flatten_cons, List.length_append] at hfits
    rw [List.flatten_cons, List.append_assoc, List.map_cons, List.cons_append,
      loadRequests_chunk (hne d List.mem_cons_self) _ _ (by omega)] at hq
    rcases List.mem_cons.mp hq with rfl | hq
    · left
      show wlSize + (maxFileSize - wlSize) = maxFileSize
      omega
    · rw [List.flatten_cons, List.length_append, ← Nat.add_assoc]
      exact ih (fun c hc => hne c (List.mem_cons_of_mem _ hc)) (by omega) hq

/-- While every read fails the loop does not end, wherever it is. -/
theorem loadLoop_failure (n : ℕ) (file : Bytes) (buf : Buffer maxFileSize) (wlSize : ℕ) :
    loadLoop (List.replicate n .error) file buf wlSize = .error .blocked := by
  induction n generalizing wlSize with
  | zero => rfl
  | succ n ih =>
    have hpos : toSize (-1) > 0 := by decide
    rw [List.replicate_succ, loadLoop]
    simp only [Transfer.read_error, Buffer.store_nil, ok_bind, if_pos hpos, ih]
    rfl

/-- A read that returns 0 ends the loop. -/
theorem loadLoop_endOfFile (n : ℕ) (file : Bytes) (buf : Buffer maxFileSize) (wlSize : ℕ) :
    ∃ calls, loadLoop (List.replicate (n + 1) (.upTo 0)) file buf wlSize
      = .ok { buffer := buf, size := wlSize, calls } := by
  refine ⟨[⟨wlSize, sizeSub maxFileSize wlSize, 0, []⟩], ?_⟩
  simp only [List.replicate_succ, loadLoop, Transfer.read, Nat.zero_min, List.take_zero,
    Buffer.store_nil, ok_bind]
  rfl

theorem loadRequests_endOfFile (n : ℕ) (file : Bytes) (wlSize : ℕ) :
    loadRequests (List.replicate n (.upTo 0)) file wlSize
      = [⟨wlSize, sizeSub maxFileSize wlSize⟩] := by
  cases n with
  | zero => rfl
  | succ n =>
    simp only [List.replicate_succ, loadRequests, Transfer.read, Nat.zero_min, List.take_zero]
    rfl

section FileReads

variable (r : FileReads) (n : ℕ) (rest : Bytes)

/-- The loop stores the bytes delivered at the start of the buffer and goes on with the end of the
reads. -/
theorem FileReads.loadLoop_eq (contents : Buffer maxFileSize) :
    ∃ buf calls, contents.store 0 r.bytes = .ok buf ∧
      loadLoop (r.outcomes n) (r.bytes ++ rest) contents 0
        = (loadLoop (List.replicate n r.ending.transfer) rest buf r.bytes.length).map
            fun loaded => { loaded with calls := calls ++ loaded.calls } := by
  have hfits : 0 + r.chunks.flatten.length ≤ maxFileSize := (Nat.zero_add _).trans_le r.fits
  have hloop := loadLoop_chunks r.ne_nil (List.replicate n r.ending.transfer) rest contents hfits
  rw [Nat.zero_add] at hloop
  exact hloop

/-- Reads that end with 0 stay inside the buffer. -/
theorem FileReads.inside_of_endOfFile (hending : r.ending = .endOfFile) {q : ReadRequest}
    (hq : q ∈ loadRequests (r.outcomes n) (r.bytes ++ rest) 0) : q.off + q.max ≤ maxFileSize := by
  have hfits : 0 + r.chunks.flatten.length ≤ maxFileSize := (Nat.zero_add _).trans_le r.fits
  rw [FileReads.outcomes, hending] at hq
  rcases loadRequests_chunks r.ne_nil _ rest hfits hq with heq | hq
  · exact heq.le
  · rw [Ending.transfer, loadRequests_endOfFile, List.mem_singleton] at hq
    rw [hq, sizeSub_of_le hfits maxFileSize_lt]
    exact (Nat.add_sub_of_le hfits).le

end FileReads

/-- **When the file is loaded.** For any results of `read()`, whatever the buffer held and whatever
follows in the file: the loop comes back and has loaded the bytes delivered, without a read past the
end of the buffer, exactly when the reads end with 0. -/
theorem load_iff (r : FileReads) (rest : Bytes) (contents : Buffer maxFileSize) :
    Loads r rest contents ↔ r.ending = .endOfFile := by
  constructor
  · intro hloads
    obtain ⟨n, loaded, hload⟩ := hloads.returns
    obtain ⟨buf, calls, -, hloop⟩ := r.loadLoop_eq n rest contents
    cases hending : r.ending with
    | endOfFile => rfl
    | failure =>
      rw [hloop, hending, Ending.transfer, loadLoop_failure] at hload
      cases hload
  · intro hending
    refine ⟨?_, fun n q => r.inside_of_endOfFile n rest hending, fun n loaded hload => ?_⟩
    · obtain ⟨buf, calls, -, hloop⟩ := r.loadLoop_eq 1 rest contents
      obtain ⟨_, hend⟩ := loadLoop_endOfFile 0 rest buf r.bytes.length
      rw [hending, Ending.transfer, hend] at hloop
      exact ⟨1, _, hloop⟩
    · have hrequests := loadRequests_eq hload
      obtain ⟨buf, calls, hstore, hloop⟩ := r.loadLoop_eq n rest contents
      rw [hloop, hending, Ending.transfer] at hload
      cases n with
      | zero => cases hload
      | succ n =>
        obtain ⟨_, hend⟩ := loadLoop_endOfFile n rest buf r.bytes.length
        rw [hend] at hload
        cases hload
        exact ⟨rfl, Buffer.take_store hstore rfl, hrequests⟩

/-- A file whose first read fails and goes on failing: the loop never comes back, and its second
read is for more than the buffer has, at the largest position there is. -/
theorem failure_never_loads :
    let r : FileReads := ⟨[], by simp, by decide, .failure⟩
    ¬ Loads r [] .zero ∧ (∀ n, loadLoop (r.outcomes n) [] .zero 0 = .error .blocked) ∧
      ⟨2 ^ 64 - 1, maxFileSize + 1⟩ ∈ loadRequests (r.outcomes 1) [] 0 := by
  intro r
  have hblocked : ∀ n, loadLoop (r.outcomes n) [] .zero 0 = .error .blocked := fun n =>
    loadLoop_failure n [] .zero 0
  refine ⟨fun hloads => ?_, hblocked, by decide⟩
  obtain ⟨n, loaded, hload⟩ := hloads.returns
  cases (hblocked n).symm.trans hload

end BenchLx.Ycsb
