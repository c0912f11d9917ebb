import BenchLx.Common.Memory
import BenchLx.Common.Regions

/-!
# The loading phase of `fpga.py`

Reference: `write_str`, `write_file` and `main` of `tools/fpga.py`, up to the point where the cores
are started. The initrd goes to the last part of the memory of the first core, and the benchmark
command right below it. The board with its DRAM is a parameter: its methods come from a library, and
nothing is said about what `load_prog` writes. A Python string is a list of code points, among which
there may be surrogates.
-/

namespace BenchLx.Fpga

open Region

/-- `INIT_PMP_SIZE`. -/
def initPmpSize : ℕ := 512 * 1024 * 1024

/-- `MAX_INITRD_SIZE`. -/
def maxInitrdSize : ℕ := 128 * 1024 * 1024

/-- `BENCH_CMD_SIZE`. -/
def benchCmdSize : ℕ := 1024

/-- `BENCH_CMD_ADDR`. -/
def benchCmdAddr : ℕ := initPmpSize - maxInitrdSize - 1024

/-- The address that `main` loads the initrd to. -/
def initrdAddr : ℕ := initPmpSize - maxInitrdSize

/-- The exceptions that end the loading phase. -/
inductive PyError
  | unicodeEncodeError
  | typeError
  | osError
  | fpgaError
deriving DecidableEq, Repr

/-! ## Strings -/

/-- A character of a Python string. -/
abbrev CodePoint := Fin 0x110000

theorem toNat_lt_of_char (c : Char) : c.toNat < 0x110000 := by
  rcases c.valid with hlow | ⟨-, hhigh⟩
  · exact hlow.trans (by decide)
  · exact hhigh

/-- The code point of a character that is not a surrogate. -/
def ofChar (c : Char) : CodePoint := ⟨c.toNat, toNat_lt_of_char c⟩

/-- The UTF-8 encoding of a character; a surrogate has none. -/
def encodeChar (c : CodePoint) : Except PyError Bytes :=
  if c.val.isValidChar then .ok (String.utf8EncodeChar (Char.ofNat c))
  else .error .unicodeEncodeError

/-- `str.encode()`. -/
def encode : List CodePoint → Except PyError Bytes
  | [] => return []
  | c :: str => do
    let bs ← encodeChar c
    let rest ← encode str
    return bs ++ rest

/-! ## The board -/

/-- The board in its states `S`: what the methods of its library do, and the bytes of the DRAM. -/
structure Board (S : Type) where
  loadProg : S → ℕ → List (List CodePoint) → Except PyError S
  writeBytes : S → ℕ → Bytes → Bool → S
  writeBytesChecked : S → ℕ → Bytes → Bool → S
  byte : S → ℕ → UInt8

/-- Both methods that write to the DRAM store exactly the given bytes at the given address. -/
structure Board.StoresExactly {S : Type} (board : Board S) : Prop where
  writeBytes : ∀ s addr bs burst,
    board.byte (board.writeBytes s addr bs burst) = overwrite (board.byte s) addr bs
  writeBytesChecked : ∀ s addr bs burst,
    board.byte (board.writeBytesChecked s addr bs burst) = overwrite (board.byte s) addr bs

/-- The arguments on the command line. -/
structure Args where
  pe : Option (List (List CodePoint))
  initrd : Option (List CodePoint)
  bench : Option (List CodePoint)

variable {S : Type} (board : Board S)

/-- `while len(buf) < minlen: buf += b'\x00'`. -/
def pad (minlen : ℕ) (buf : Bytes) : Bytes :=
  if buf.length < minlen then pad minlen (buf ++ [0]) else buf
termination_by minlen - buf.length
decreasing_by
  rw [List.length_append, List.length_singleton]
  omega

/-- `write_str`. -/
def writeStr (s : S) (str : List CodePoint) (addr minlen : ℕ) : Except PyError S := do
  let buf ← encode str
  let buf := pad minlen (buf ++ [0])
  return board.writeBytes s addr buf false

/-- `write_file`, where `files` is what opening and reading a file gives. -/
def writeFile (files : List CodePoint → Except PyError Bytes) (s : S) (file : List CodePoint)
    (offset : ℕ) : Except PyError S := do
  let content ← files file
  return board.writeBytesChecked s offset content true

/-- The number of elements of `pms`. -/
def pmCount : ℕ := 1

/-- The loop that loads the programs, from the number `i` on. -/
def loadProgs : List (List CodePoint) → ℕ → S → Except PyError S
  | [], _, s => return s
  | peargs :: pe, i, s => do
    let s ← board.loadProg s i (peargs.splitOn (ofChar ' '))
    loadProgs pe (i + 1) s

/-- The part of the loading phase that loads the programs. -/
def programs (args : Args) (s : S) : Except PyError S :=
  match args.pe with
  | none => .error .typeError
  | some pe => loadProgs board (pe.take pmCount) 0 s

/-- The part of the loading phase that loads the initrd. -/
def loadInitrd (files : List CodePoint → Except PyError Bytes) (args : Args) (s : S) :
    Except PyError S :=
  match args.initrd with
  | some file => writeFile board files s file (initPmpSize - maxInitrdSize)
  | none => return s

/-- The part of the loading phase that writes the benchmark command. -/
def loadBench (args : Args) (s : S) : Except PyError S :=
  match args.bench with
  | some bench => writeStr board s bench benchCmdAddr benchCmdSize
  | none => writeStr board s [] benchCmdAddr benchCmdSize

/-- The loading phase of `main`. -/
def load (files : List CodePoint → Except PyError Bytes) (args : Args) (s : S) :
    Except PyError S := do
  let s ← programs board args s
  let s ← loadInitrd board files args s
  loadBench board args s

/-! ## What is written -/

/-- The command that the arguments ask for. -/
def Args.command (args : Args) : List CodePoint := args.bench.getD []

theorem pad_eq (minlen : ℕ) (buf : Bytes) :
    pad minlen buf = buf ++ List.replicate (minlen - buf.length) 0 := by
  induction buf using pad.induct minlen with
  | case1 buf hlt ih =>
    rw [pad, if_pos hlt, ih, List.length_append, List.length_singleton, List.append_assoc,
      show minlen - buf.length = minlen - (buf.length + 1) + 1 by omega, List.replicate_succ]
    rfl
  | case2 buf hlt =>
    rw [pad, if_neg hlt, Nat.sub_eq_zero_of_le (by omega), List.replicate_zero, List.append_nil]

/-- A string that is shorter than `minlen` is filled up with zeros to it; any other is followed by
one zero. -/
theorem pad_append_zero (minlen : ℕ) (cmd : Bytes) :
    pad minlen (cmd ++ [0]) = cmd ++ List.replicate (max 1 (minlen - cmd.length)) 0 := by
  have hone : ([0] : Bytes) = List.replicate 1 0 := rfl
  rw [pad_eq, List.length_append, List.length_singleton, List.append_assoc, hone,
    List.replicate_append_replicate]
  congr 2
  omega

variable {board}

theorem loadBench_eq_ok_iff {args : Args} {s s' : S} :
    loadBench board args s = .ok s' ↔ ∃ cmd, encode args.command = .ok cmd ∧
      board.writeBytes s benchCmdAddr
        (cmd ++ List.replicate (max 1 (benchCmdSize - cmd.length)) 0) false = s' := by
  have hwrite : loadBench board args s
      = writeStr board s args.command benchCmdAddr benchCmdSize := by
    unfold loadBench Args.command
    cases args.bench <;> rfl
  rw [hwrite, writeStr, bind_eq_ok]
  simp only [pad_append_zero, pure_eq_ok]

theorem loadInitrd_of_none {args : Args} (h : args.initrd = none)
    (files : List CodePoint → Except PyError Bytes) (s : S) :
    loadInitrd board files args s = .ok s := by
  rw [loadInitrd, h]
  rfl

theorem loadInitrd_eq_ok_iff {args : Args} {file : List CodePoint} (h : args.initrd = some file)
    {files : List CodePoint → Except PyError Bytes} {s s' : S} :
    loadInitrd board files args s = .ok s' ↔ ∃ content, files file = .ok content ∧
      board.writeBytesChecked s initrdAddr content true = s' := by
  rw [loadInitrd, h]
  simp only [writeFile, bind_eq_ok, pure_eq_ok, initrdAddr]

/-! ## Encoded strings -/

/-- Whatever is not a surrogate has its UTF-8 encoding. -/
theorem encode_map_ofChar (str : List Char) :
    encode (str.map ofChar) = .ok (str.flatMap String.utf8EncodeChar) := by
  have hchar : ∀ c : Char, encodeChar (ofChar c) = .ok (String.utf8EncodeChar c) := by
    intro c
    rw [encodeChar, if_pos (show (ofChar c).val.isValidChar from c.valid)]
    exact congrArg (fun d => Except.ok (String.utf8EncodeChar d)) (Char.ofNat_toNat c)
  induction str with
  | nil => rfl
  | cons c str ih =>
    rw [List.map_cons, encode, hchar, ih]
    rfl

/-- A byte below 128 is a character of its own. -/
theorem toNat_of_mem_utf8EncodeChar {c : Char} {b : UInt8} (hb : b ∈ String.utf8EncodeChar c)
    (hlow : b.toNat < 128) : b.toNat = c.toNat := by
  revert hb
  fun_cases String.utf8EncodeChar c <;> intro hb
  case case1 =>
    obtain rfl := List.mem_singleton.mp hb
    rw [UInt8.toNat_ofNat']
    exact Nat.mod_eq_of_lt (by omega)
  -- every other byte has its top bit set
  all_goals
    simp only [List.mem_cons, List.not_mem_nil, or_false] at hb
    rcases hb with rfl | rfl | rfl | rfl <;>
    · rw [UInt8.toNat_ofNat'] at hlow
      omega

theorem length_encodeChar {c : CodePoint} {bs : Bytes} (h : encodeChar c = .ok bs) :
    1 ≤ bs.length ∧ bs.length ≤ 4 := by
  rw [encodeChar] at h
  split at h
  · cases h
    rw [String.length_utf8EncodeChar]
    exact ⟨Char.utf8Size_pos _, Char.utf8Size_le_four _⟩
  · cases h

/-- Encoding makes a string no shorter, and at most four times as long. -/
theorem length_encode {str : List CodePoint} {bs : Bytes} (h : encode str = .ok bs) :
    str.length ≤ bs.length ∧ bs.length ≤ 4 * str.length := by
  induction str generalizing bs with
  | nil =>
    cases h
    exact ⟨le_rfl, le_rfl⟩
  | cons c str ih =>
    obtain ⟨cs, hc, h⟩ := bind_eq_ok.mp h
    obtain ⟨rest, hrest, h⟩ := bind_eq_ok.mp h
    cases h
    have hchar := length_encodeChar hc
    have hstr := ih hrest
    rw [List.length_append, List.length_cons]
    omega

end BenchLx.Fpga
