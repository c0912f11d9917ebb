import BenchLx.Copy.CopyLoop

/-!
# What `cat` and `cp` deliver

Neither program looks at what `write()` returns, so the bytes that a write does not take are lost
and the next chunk follows in their place: the output is the file exactly when each write takes
everything it is offered (`deliver_iff`). A later round of `cp` starts over with an empty output, so
only the last one counts (`Cp.main_eq_iff`).
-/

namespace BenchLx.Copy

/-- Every write takes all of the chunk it is offered. -/
def AcceptsChunks (f : ChunkedFile) (writes : ℕ → Transfer) : Prop :=
  ∀ k, (hk : k < f.chunks.length) → (writes k).AcceptsAll f.chunks[k]

/-- The round of `cp` that reads a file so. -/
def ChunkedFile.round (f : ChunkedFile) (writes : ℕ → Transfer) : Cp.Round :=
  { openIn := .fd, openOut := .fd, reads := f.reads, writes }

/-- `cat` delivers the file, given by name or as the standard input. -/
def Cat.Delivers (f : ChunkedFile) (writes : ℕ → Transfer) : Prop :=
  ∀ arg, ∃ e, Cat.main arg .fd f.reads writes f.bytes = .ok e ∧ e.output = f.bytes

/-- A round of `cp` delivers the file, whatever is in the output and the buffer before. -/
def Cp.Delivers (f : ChunkedFile) (writes : ℕ → Transfer) : Prop :=
  ∀ c, ∃ c', Cp.round f.bytes (f.round writes) c = .ok (.copied c') ∧ c'.output = f.bytes

/-! ## Writes that take less -/

/-- Of two pairs of lists with the same concatenation, one nowhere longer than the other, the first
components and the second ones are the same. -/
theorem append_eq_append_iff_of_length_le {α : Type*} {as as' bs bs' : List α}
    (ha : as.length ≤ as'.length) (hb : bs.length ≤ bs'.length) :
    as ++ bs = as' ++ bs' ↔ as = as' ∧ bs = bs' := by
  constructor
  · intro h
    have hlen := congrArg List.length h
    rw [List.length_append, List.length_append] at hlen
    exact List.append_inj h (by omega)
  · rintro ⟨rfl, rfl⟩
    rfl

theorem length_acceptedFrom_le (writes : ℕ → Transfer) (k : ℕ) (chunks : List Bytes) :
    (acceptedFrom writes k chunks).length ≤ chunks.flatten.length := by
  induction chunks generalizing k with
  | nil => exact le_rfl
  | cons d ds ih =>
    rw [acceptedFrom, List.flatten_cons, List.length_append, List.length_append]
    exact Nat.add_le_add ((writes k).length_accepted_le d) (ih (k + 1))

/-- No bytes are lost exactly when every write takes its chunk. -/
theorem acceptedFrom_eq_flatten_iff (writes : ℕ → Transfer) (k : ℕ) {chunks : List Bytes}
    (hne : ∀ d ∈ chunks, d ≠ []) :
    acceptedFrom writes k chunks = chunks.flatten
      ↔ ∀ i, (hi : i < chunks.length) → (writes (k + i)).AcceptsAll chunks[i] := by
  induction chunks generalizing k with
  | nil => simp [acceptedFrom]
  | cons d ds ih =>
    rw [acceptedFrom, List.flatten_cons,
      append_eq_append_iff_of_length_le ((writes k).length_accepted_le d)
        (length_acceptedFrom_le writes (k + 1) ds),
      Transfer.accepted_eq_iff (hne d List.mem_cons_self),
      ih (k + 1) fun e he => hne e (List.mem_cons_of_mem _ he)]
    constructor
    · rintro ⟨hd, hds⟩ i hi
      cases i with
      | zero => exact hd
      | succ i =>
        have h := hds i (Nat.lt_of_succ_lt_succ hi)
        rwa [show k + 1 + i = k + (i + 1) by omega] at h
    · intro h
      refine ⟨h 0 (Nat.zero_lt_succ _), fun i hi => ?_⟩
      have h' := h (i + 1) (Nat.succ_lt_succ hi)
      rwa [show k + (i + 1) = k + 1 + i by omega] at h'

theorem acceptedFrom_eq_bytes_iff (f : ChunkedFile) (writes : ℕ → Transfer) :
    acceptedFrom writes 0 f.chunks = f.bytes ↔ AcceptsChunks f writes := by
  have h := acceptedFrom_eq_flatten_iff writes 0 f.ne_nil
  simp only [Nat.zero_add] at h
  exact h

/-! ## The programs -/

/-- `cat` delivers what the writes take. -/
theorem Cat.main_eq (arg : Option String) (f : ChunkedFile) (writes : ℕ → Transfer) :
    Cat.main arg .fd f.reads writes f.bytes = .ok ⟨0, "", acceptedFrom writes 0 f.chunks⟩ := by
  obtain ⟨buffer, hcopy⟩ := copyLoop_file writes f ⟨[], .zero⟩
  rw [Cat.main, hcopy]
  · rfl
  · intro name error _ hopened
    cases hopened

/-- A round of `cp` replaces the output by what the writes take. -/
theorem Cp.round_eq (f : ChunkedFile) (writes : ℕ → Transfer) (c : Copied) :
    ∃ buffer, Cp.round f.bytes (f.round writes) c
      = .ok (.copied ⟨acceptedFrom writes 0 f.chunks, buffer⟩) := by
  obtain ⟨buffer, hcopy⟩ := copyLoop_file writes f ⟨[], c.buffer⟩
  refine ⟨buffer, ?_⟩
  rw [ChunkedFile.round, Cp.round, hcopy]
  rfl

/-- **Short writes.** For every file, every way its reads deliver it in chunks and all outcomes of
the writes: `cat` delivers the file exactly when each write takes all the bytes it is offered, and
so does a round of `cp`. -/
theorem deliver_iff (f : ChunkedFile) (writes : ℕ → Transfer) :
    (Cat.Delivers f writes ↔ AcceptsChunks f writes) ∧
      (Cp.Delivers f writes ↔ AcceptsChunks f writes) := by
  rw [← acceptedFrom_eq_bytes_iff]
  constructor
  · constructor
    · intro h
      obtain ⟨e, he, hout⟩ := h none
      rw [Cat.main_eq] at he
      cases he
      exact hout
    · intro h arg
      exact ⟨_, Cat.main_eq arg f writes, h⟩
  · constructor
    · intro h
      obtain ⟨c, hc, hout⟩ := h ⟨[], .zero⟩
      obtain ⟨buffer, hround⟩ := Cp.round_eq f writes ⟨[], .zero⟩
      rw [hround] at hc
      cases hc
      exact hout
    · intro h c
      obtain ⟨buffer, hround⟩ := Cp.round_eq f writes c
      exact ⟨_, hround, h⟩

/-- Three bytes that are read in two chunks. -/
def threeBytes : ChunkedFile where
  chunks := [[1, 2], [3]]
  ne_nil := by decide
  fits := by decide

/-- Writes that each take one byte at most. -/
def oneByte : ℕ → Transfer := fun _ => .upTo 1

/-- Writes that take a byte each deliver the first and the third of three bytes. -/
theorem short_writes_lose :
    (∀ k, ∃ n, oneByte k = .upTo (n + 1)) ∧ ¬ Cat.Delivers threeBytes oneByte ∧
      ¬ Cp.Delivers threeBytes oneByte := by
  have hlost : acceptedFrom oneByte 0 threeBytes.chunks = [1, 3] := rfl
  have hne : ([1, 3] : Bytes) ≠ threeBytes.bytes := by decide
  refine ⟨fun k => ⟨0, rfl⟩, fun h => ?_, fun h => ?_⟩
  · obtain ⟨e, he, hout⟩ := h none
    rw [Cat.main_eq, hlost] at he
    cases he
    exact hne hout
  · obtain ⟨c, hc, hout⟩ := h ⟨[], .zero⟩
    obtain ⟨buffer, hround⟩ := Cp.round_eq threeBytes oneByte ⟨[], .zero⟩
    rw [hround, hlost] at hc
    cases hc
    exact hne hout

/-! ## All rounds of `cp` -/

/-- A round that copies the file leaves what its writes take to the rounds behind it. -/
theorem Cp.rounds_cons (f : ChunkedFile) (writes : ℕ → Transfer) (rs : List Cp.Round) (c : Copied) :
    ∃ buffer, Cp.rounds f.bytes (f.round writes :: rs) c
      = Cp.rounds f.bytes rs ⟨acceptedFrom writes 0 f.chunks, buffer⟩ := by
  obtain ⟨buffer, hround⟩ := Cp.round_eq f writes c
  refine ⟨buffer, ?_⟩
  rw [Cp.rounds, hround]
  rfl

/-- Rounds that copy the file leave what the writes of the last one take. -/
theorem Cp.rounds_concat {input : Bytes} {files : ℕ → ChunkedFile}
    (hinput : ∀ i, (files i).bytes = input) (writes : ℕ → ℕ → Transfer) (is : List ℕ) (last : ℕ)
    (c : Copied) :
    Cp.rounds input ((is ++ [last]).map fun i => (files i).round (writes i)) c
      = .ok ⟨0, "", acceptedFrom (writes last) 0 (files last).chunks⟩ := by
  induction is generalizing c with
  | nil =>
    obtain ⟨buffer, hcons⟩ := Cp.rounds_cons (files last) (writes last) [] c
    rw [hinput] at hcons
    exact hcons
  | cons i is ih =>
    obtain ⟨buffer, hcons⟩ := Cp.rounds_cons (files i) (writes i)
      ((is ++ [last]).map fun i => (files i).round (writes i)) c
    rw [hinput] at hcons
    rw [List.cons_append, List.map_cons, hcons, ih]

/-- After all rounds the output is the file exactly when each write of the last round takes all the
bytes it is offered. -/
theorem Cp.main_eq_iff {argv : List String} (hargv : 3 ≤ argv.length) {input : Bytes}
    {files : ℕ → ChunkedFile} (hinput : ∀ i, (files i).bytes = input)
    (writes : ℕ → ℕ → Transfer) (output : Bytes) :
    Cp.main argv input (fun i => (files i).round (writes i)) output = .ok ⟨0, "", input⟩
      ↔ AcceptsChunks (files 4) (writes 4) := by
  have hmain : Cp.main argv input (fun i => (files i).round (writes i)) output
      = .ok ⟨0, "", acceptedFrom (writes 4) 0 (files 4).chunks⟩ := by
    rw [Cp.main, if_neg (by omega), show Cp.count = 4 + 1 from rfl, List.range_succ]
    exact Cp.rounds_concat hinput writes (List.range 4) 4 ⟨output, .zero⟩
  rw [hmain, ← acceptedFrom_eq_bytes_iff, hinput]
  constructor
  · intro h
    cases h
    rfl
  · intro h
    rw [h]

/-- The writes of all rounds take one byte each, those of the last one two. -/
theorem Cp.main_eq_iff_three_bytes :
    Cp.main ["cp", "in", "out"] [1, 2, 3]
        (fun i => threeBytes.round fun _ => .upTo (if i = 4 then 2 else 1)) [7]
      = .ok ⟨0, "", [1, 2, 3]⟩ := by
  refine (@Cp.main_eq_iff ["cp", "in", "out"] (by decide) [1, 2, 3] (fun _ => threeBytes)
    (fun _ => rfl) (fun i _ => .upTo (if i = 4 then 2 else 1)) [7]).mpr fun k hk => ?_
  have hlen : ∀ d ∈ threeBytes.chunks, d.length ≤ 2 := by decide
  exact ⟨2, hlen _ (List.getElem_mem hk), rfl⟩

end BenchLx.Copy
