import BenchLx.Common.Syscalls

/-!
# The programs `cat` and `cp`

Reference: `main` in `apps/cat/cat.c` and in `apps/cp/cp.c`. Both run the same loop between two
descriptors: it reads into a static buffer until a `read()` returns no positive count and offers
what it has read to one `write()`, whose result it drops. `cat` runs the loop once, `cp` once in
each of its rounds, with the output truncated before. The input and the output are different files.
-/

namespace BenchLx.Copy

/-- `BUFFER_SIZE`. -/
def bufferSize : ℕ := 4096

/-- The bytes of the output and the contents of `buffer`. -/
structure Copied where
  output : Bytes
  buffer : Buffer bufferSize

/-- `while((count = read(infd, buffer, sizeof(buffer))) > 0) write(outfd, buffer, count);`, where
`writes k` is the outcome of the `write()` number `k`. -/
def copyLoop (writes : ℕ → Transfer) : List Transfer → ℕ → Bytes → Copied → Except Stop Copied
  | [], _, _, _ => .error .blocked
  | r :: reads, k, input, c => do
    let out := r.read input bufferSize
    let buffer ← c.buffer.store 0 out.data
    if out.res > 0 then
      let offered ← (buffer.ptr 0).read 0 (toSize out.res)
      copyLoop writes reads (k + 1) out.rest ⟨c.output ++ (writes k).accepted offered, buffer⟩
    else
      return ⟨c.output, buffer⟩

/-- The result of an `open()`; one that fails comes with the text of its `errno`. -/
inductive Opened
  | fd
  | failed (error : String)
deriving DecidableEq, Repr

/-- The end of a program: its exit status, what it has printed on `stderr`, and the output. -/
structure Ended where
  status : ℕ
  stderr : String
  output : Bytes
deriving DecidableEq, Repr

/-! ## `cat` -/

/-- `main` of `cat`: `arg` is the name of a file, if there is one, and `input` what is in the file
or on the standard input. -/
def Cat.main (arg : Option String) (opened : Opened) (reads : List Transfer)
    (writes : ℕ → Transfer) (input : Bytes) : Except Stop Ended :=
  match arg, opened with
  | some name, .failed _ => return ⟨1, "Unable to open '" ++ name ++ "'", []⟩
  | _, _ => do
    let c ← copyLoop writes reads 0 input ⟨[], .zero⟩
    return ⟨0, "", c.output⟩

/-! ## `cp` -/

namespace Cp

/-- `COUNT`. -/
def count : ℕ := 5

/-- The outcomes of the system calls of one round. -/
structure Round where
  openIn : Opened
  openOut : Opened
  reads : List Transfer
  writes : ℕ → Transfer

/-- A round copies the file, or it is the end of the program. -/
inductive RoundEnd
  | copied (c : Copied)
  | ended (e : Ended)

/-- What `perror` prints. -/
def perror (s error : String) : String := s ++ ": " ++ error ++ "\n"

/-- One round of the loop of `main`. -/
def round (input : Bytes) (r : Round) (c : Copied) : Except Stop RoundEnd :=
  match r.openIn, r.openOut with
  | .failed error, _ => return .ended ⟨1, perror "open" error, c.output⟩
  | .fd, .failed error => return .ended ⟨1, perror "open" error, c.output⟩
  | .fd, .fd => do
    let c ← copyLoop r.writes r.reads 0 input ⟨[], c.buffer⟩
    return .copied c

/-- The rounds of `main`, one after the other. -/
def rounds (input : Bytes) : List Round → Copied → Except Stop Ended
  | [], c => return ⟨0, "", c.output⟩
  | r :: rs, c => do
    match ← round input r c with
    | .copied c => rounds input rs c
    | .ended e => return e

/-- `main` of `cp`, on an output file that holds `output`. -/
def main (argv : List String) (input : Bytes) (env : ℕ → Round) (output : Bytes) :
    Except Stop Ended :=
  if argv.length < 3 then
    return ⟨1, "Usage: " ++ argv.headD "(null)" ++ " <in> <out>\n", output⟩
  else
    rounds input ((List.range count).map env) ⟨output, .zero⟩

end Cp

/-! ## Reading a file in chunks -/

/-- A file and how it is read: the chunks that the reads deliver, each of at least one byte and no
more than was asked for. -/
structure ChunkedFile where
  chunks : List Bytes
  ne_nil : ∀ d ∈ chunks, d ≠ []
  fits : ∀ d ∈ chunks, d.length ≤ bufferSize

namespace ChunkedFile

/-- The contents of the file. -/
def bytes (f : ChunkedFile) : Bytes := f.chunks.flatten

/-- The outcomes of the reads: the chunks, and 0 at the end of the file. -/
def reads (f : ChunkedFile) : List Transfer :=
  f.chunks.map (fun d => .upTo d.length) ++ [.upTo 0]

end ChunkedFile

/-! ## The loop -/

/-- What the writes from number `k` on take when each is offered one of the chunks. -/
def acceptedFrom (writes : ℕ → Transfer) : ℕ → List Bytes → Bytes
  | _, [] => []
  | k, d :: ds => (writes k).accepted d ++ acceptedFrom writes (k + 1) ds

/-- The `read()` at the end of the file ends the loop. -/
theorem copyLoop_end (writes : ℕ → Transfer) (n : ℕ) (reads : List Transfer) (k : ℕ) (c : Copied) :
    copyLoop writes (.upTo n :: reads) k [] c = .ok c := by
  have hread : (Transfer.upTo n).read [] bufferSize = ⟨0, [], []⟩ := by
    rw [Transfer.read, List.take_nil, List.drop_nil, List.length_nil, Nat.cast_zero]
  rw [copyLoop, hread]
  simp only [Buffer.store_nil, ok_bind, gt_iff_lt, lt_self_iff_false, if_false]
  rfl

/-- A round that reads a chunk offers it to the next write. -/
theorem copyLoop_chunk (writes : ℕ → Transfer) {d : Bytes} (hd : d ≠ [])
    (hfits : d.length ≤ bufferSize) (reads : List Transfer) (k : ℕ) (rest : Bytes) (c : Copied) :
    ∃ buffer, copyLoop writes (.upTo d.length :: reads) k (d ++ rest) c
      = copyLoop writes reads (k + 1) rest ⟨c.output ++ (writes k).accepted d, buffer⟩ := by
  have hpos := List.length_pos_of_ne_nil hd
  have hlt : bufferSize < sizeMod := by decide
  obtain ⟨buffer, hstore⟩ : ∃ buffer, c.buffer.store 0 d = .ok buffer :=
    ⟨_, Buffer.store_eq_ok_iff.mpr ⟨.inr (by omega), rfl⟩⟩
  have hoffered : (buffer.ptr 0).read 0 d.length = .ok d :=
    Ptr.read_eq_ok_iff.mpr ⟨rfl, Buffer.holds_store hstore⟩
  refine ⟨buffer, ?_⟩
  rw [copyLoop, Transfer.read_append hfits rest]
  simp only [hstore, ok_bind, gt_iff_lt, Nat.cast_pos, if_pos hpos,
    toSize_natCast (by omega : d.length < sizeMod), hoffered]

/-- The rounds that read the chunks offer each to a write of its own. -/
theorem copyLoop_chunks (writes : ℕ → Transfer) {chunks : List Bytes}
    (hne : ∀ d ∈ chunks, d ≠ []) (hfits : ∀ d ∈ chunks, d.length ≤ bufferSize)
    (more : List Transfer) (k : ℕ) (rest : Bytes) (c : Copied) :
    ∃ buffer, copyLoop writes (chunks.map (fun d => .upTo d.length) ++ more) k
        (chunks.flatten ++ rest) c
      = copyLoop writes more (k + chunks.length) rest
          ⟨c.output ++ acceptedFrom writes k chunks, buffer⟩ := by
  induction chunks generalizing k c with
  | nil =>
    refine ⟨c.buffer, ?_⟩
    simp only [List.map_nil, List.nil_append, List.flatten_nil, List.length_nil, Nat.add_zero,
      acceptedFrom, List.append_nil]
  | cons d ds ih =>
    obtain ⟨buffer, hchunk⟩ := copyLoop_chunk writes (hne d List.mem_cons_self)
      (hfits d List.mem_cons_self) (ds.map (fun d => .upTo d.length) ++ more) k
      (ds.flatten ++ rest) c
    obtain ⟨buffer', hrest⟩ := ih (fun e he => hne e (List.mem_cons_of_mem _ he))
      (fun e he => hfits e (List.mem_cons_of_mem _ he)) (k + 1)
      ⟨c.output ++ (writes k).accepted d, buffer⟩
    refine ⟨buffer', ?_⟩
    rw [List.map_cons, List.cons_append, List.flatten_cons, List.append_assoc, hchunk, hrest,
      List.length_cons, acceptedFrom, List.append_assoc]
    congr 1
    omega

/-- Copying a file appends what the writes take of its chunks to the output. -/
theorem copyLoop_file (writes : ℕ → Transfer) (f : ChunkedFile) (c : Copied) :
    ∃ buffer, copyLoop writes f.reads 0 f.bytes c
      = .ok ⟨c.output ++ acceptedFrom writes 0 f.chunks, buffer⟩ := by
  obtain ⟨buffer, hchunks⟩ := copyLoop_chunks writes f.ne_nil f.fits [.upTo 0] 0 [] c
  refine ⟨buffer, ?_⟩
  rw [List.append_nil, copyLoop_end] at hchunks
  exact hchunks

end BenchLx.Copy
