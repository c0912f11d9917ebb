import BenchLx.Common.Text
import BenchLx.Copy.CopyLoop

/-!
# The program `write`

Reference: `main` in `apps/write/write.c`. In each of its rounds it opens the file, truncated unless
it is told not to, and writes its buffer, which holds zeros, until it has asked for the size given.
The size is an `int` that is stored in a `size_t`, and the position in the loop wraps around: with
a size between -4095 and -1 the loop does not end (`main_returns_iff`).
-/

namespace BenchLx.Copy.Write

/-! ## The program -/

/-- `WARMUP + COUNT`. -/
def count : ℕ := 4 + 10

/-- The static array `buffer`. -/
def buffer : Bytes := List.replicate bufferSize 0

/-- The bytes of an argument. -/
def argument (s : String) : Bytes := s.toList.flatMap String.utf8EncodeChar

/-- `atoi()`, for numbers that an `int` can represent. -/
def atoi (s : Bytes) : ℤ :=
  let (neg, body) := splitSign (s.dropWhile isSpace)
  let value : ℤ := decimalValue (body.takeWhile isDigit)
  if neg then -value else value

/-- A file that is open: the bytes before and from the offset on. -/
structure OpenFile where
  written : Bytes
  behind : Bytes

namespace OpenFile

/-- The contents of the file. -/
def bytes (f : OpenFile) : Bytes := f.written ++ f.behind

/-- Bytes are written at the offset. -/
def write (f : OpenFile) (data : Bytes) : OpenFile :=
  ⟨f.written ++ data, f.behind.drop data.length⟩

end OpenFile

/-- The outcomes of the system calls of one round. -/
structure Round where
  opened : Opened
  writes : ℕ → Transfer

/-- `for(size_t pos = 0; pos < total; pos += sizeof(buffer)) write(fd, buffer, sizeof(buffer));`
from `pos` and `write()` number `k` on; nothing when it takes more than `fuel` tests of `pos`. -/
def writeLoop (total : ℕ) (writes : ℕ → Transfer) :
    (fuel : ℕ) → (pos k : ℕ) → OpenFile → Option OpenFile
  | 0, _, _, _ => none
  | fuel + 1, pos, k, f =>
    if pos < total then
      writeLoop total writes fuel (sizeAdd pos bufferSize) (k + 1)
        (f.write ((writes k).accepted buffer))
    else
      some f

/-- The rounds of `main`, one after the other. -/
def rounds (fuel : ℕ) (trunc : Bool) (total : ℕ) : List Round → Bytes → Option Ended
  | [], file => some ⟨0, "", file⟩
  | r :: rs, file =>
    match r.opened with
    | .failed error => some ⟨1, Cp.perror "open" error, file⟩
    | .fd => do
      let f ← writeLoop total r.writes fuel 0 0 ⟨[], if trunc then [] else file⟩
      rounds fuel trunc total rs f.bytes

/-- `main`, on a file that holds `file`. -/
def main (fuel : ℕ) (argv : List String) (env : ℕ → Round) (file : Bytes) : Option Ended :=
  match argv with
  | _ :: _ :: size :: more =>
    let total := toSize (atoi (argument size))
    -- `argc < 4 || strcmp(argv[3], "notrunc") != 0`
    let trunc := more.head? ≠ some "notrunc"
    rounds fuel trunc total ((List.range count).map env) file
  | _ => some ⟨1, "Usage: " ++ argv.headD "(null)" ++ " <file> <size> [notrunc]\n", file⟩

/-! ## The loop -/

theorem OpenFile.write_nil (f : OpenFile) : f.write [] = f := by
  rw [write, List.append_nil, List.length_nil, List.drop_zero]

theorem OpenFile.write_append (f : OpenFile) (a b : Bytes) :
    f.write (a ++ b) = (f.write a).write b := by
  rw [write, write, write, List.append_assoc, List.drop_drop, List.length_append]

/-- How many writes there are to be. -/
def chunks (total : ℕ) : ℕ := (total + (bufferSize - 1)) / bufferSize

theorem lt_chunks_iff {total k : ℕ} : k < chunks total ↔ bufferSize * k < total := by
  rw [chunks, bufferSize]
  omega

/-- The position wraps around to 0 before it reaches such a size. -/
theorem writeLoop_eq_none {total : ℕ} (htotal : sizeMod - bufferSize < total)
    (writes : ℕ → Transfer) (fuel : ℕ) {pos : ℕ} (hdvd : bufferSize ∣ pos) (hpos : pos < sizeMod)
    (k : ℕ) (f : OpenFile) : writeLoop total writes fuel pos k f = none := by
  induction fuel generalizing pos k f with
  | zero => rfl
  | succ fuel ih =>
    have hdvdMod : bufferSize ∣ sizeMod := ⟨2 ^ 52, by decide⟩
    have hle : pos ≤ sizeMod - bufferSize := by
      obtain ⟨q, rfl⟩ := hdvd
      rw [bufferSize, sizeMod] at *
      omega
    rw [writeLoop, if_pos (lt_of_le_of_lt hle htotal)]
    refine ih ?_ (Nat.mod_lt _ (by decide)) _ _
    exact (Nat.dvd_mod_iff hdvdMod).mpr (hdvd.add dvd_rfl)

/-- The loop writes the chunks that are left, if there is fuel for them. -/
theorem writeLoop_eq {total : ℕ} (htotal : total ≤ sizeMod - bufferSize) (writes : ℕ → Transfer)
    (fuel : ℕ) {k : ℕ} (hk : k ≤ chunks total) (f : OpenFile) :
    writeLoop total writes fuel (bufferSize * k) k f
      = if chunks total - k < fuel then
          some (f.write (acceptedFrom writes k (List.replicate (chunks total - k) buffer)))
        else none := by
  induction fuel generalizing k f with
  | zero => rfl
  | succ fuel ih =>
    rw [writeLoop]
    by_cases hlt : k < chunks total
    · have hpos := lt_chunks_iff.mp hlt
      have hnext : sizeAdd (bufferSize * k) bufferSize = bufferSize * (k + 1) := by
        rw [sizeAdd, Nat.mod_eq_of_lt, Nat.mul_succ]
        rw [bufferSize, sizeMod] at *
        omega
      -- one write, and then as many as are left
      obtain ⟨left, hleft⟩ := Nat.exists_eq_add_of_lt hlt
      rw [if_pos hpos, hnext, ih hlt, show chunks total - k = left + 1 by omega,
        show chunks total - (k + 1) = left by omega, List.replicate_succ, acceptedFrom,
        OpenFile.write_append]
      simp only [Nat.add_lt_add_iff_right]
    · have hpos : ¬ bufferSize * k < total := fun h => hlt (lt_chunks_iff.mpr h)
      rw [if_neg hpos, show chunks total - k = 0 by omega, if_pos fuel.succ_pos,
        List.replicate_zero, acceptedFrom, OpenFile.write_nil]

/-! ## The rounds -/

/-- How many bytes the writes of a round take. -/
def Round.taken (total : ℕ) (r : Round) : ℕ :=
  (acceptedFrom r.writes 0 (List.replicate (chunks total) buffer)).length

/-- What is taken of chunks of zeros are zeros. -/
theorem acceptedFrom_replicate (writes : ℕ → Transfer) (k n : ℕ) :
    ∃ m, acceptedFrom writes k (List.replicate n buffer) = List.replicate m 0 := by
  induction n generalizing k with
  | zero => exact ⟨0, rfl⟩
  | succ n ih =>
    obtain ⟨m, hm⟩ := ih (k + 1)
    obtain ⟨a, ha⟩ : ∃ a, (writes k).accepted buffer = List.replicate a 0 := by
      cases writes k with
      | error => exact ⟨0, rfl⟩
      | upTo a => exact ⟨min a bufferSize, List.take_replicate⟩
    refine ⟨a + m, ?_⟩
    rw [List.replicate_succ, acceptedFrom, hm, ha, List.replicate_append_replicate]

/-- The file has zeros at its start and then what was there, unless it was truncated. -/
def zeros (n : ℕ) (old : Bytes) : Bytes := List.replicate n 0 ++ old.drop n

/-- The longer one of two runs of zeros is left. -/
theorem zeros_zeros (n m : ℕ) (old : Bytes) : zeros n (zeros m old) = zeros (max n m) old := by
  rw [zeros, zeros, zeros, List.drop_append, List.drop_replicate, List.drop_drop,
    List.length_replicate, ← List.append_assoc, List.replicate_append_replicate]
  congr 2
  · omega
  · omega

/-- A round that opens the file writes its zeros, if there is fuel for it. -/
theorem rounds_cons (fuel : ℕ) (trunc : Bool) {total : ℕ} (htotal : total ≤ sizeMod - bufferSize)
    {r : Round} (hopened : r.opened = .fd) (rs : List Round) (file : Bytes) :
    rounds fuel trunc total (r :: rs) file
      = if chunks total < fuel then
          rounds fuel trunc total rs (zeros (r.taken total) (if trunc then [] else file))
        else none := by
  have hloop := writeLoop_eq htotal r.writes fuel (Nat.zero_le _) ⟨[], if trunc then [] else file⟩
  rw [Nat.mul_zero, Nat.sub_zero] at hloop
  obtain ⟨m, hm⟩ := acceptedFrom_replicate r.writes 0 (chunks total)
  have htaken : r.taken total = m := by rw [Round.taken, hm, List.length_replicate]
  simp only [rounds, hopened, hloop, hm, htaken]
  by_cases hfuel : chunks total < fuel
  · rw [if_pos hfuel, if_pos hfuel, Option.bind_eq_bind, Option.bind_some, OpenFile.write,
      OpenFile.bytes, List.nil_append, List.length_replicate, zeros]
  · rw [if_neg hfuel, if_neg hfuel, Option.bind_eq_bind, Option.bind_none]

section Rounds

variable {fuel total : ℕ} (htotal : total ≤ sizeMod - bufferSize) (hfuel : chunks total < fuel)
include htotal hfuel

/-- With truncation the file is what the last round has written. -/
theorem rounds_trunc {rs : List Round} {last : Round} (hrs : ∀ r ∈ rs ++ [last], r.opened = .fd)
    (file : Bytes) : rounds fuel true total (rs ++ [last]) file
      = some ⟨0, "", List.replicate (last.taken total) 0⟩ := by
  induction rs generalizing file with
  | nil =>
    rw [List.nil_append, rounds_cons fuel true htotal (hrs last (by simp)), if_pos hfuel, rounds,
      if_pos rfl, zeros, List.drop_nil, List.append_nil]
  | cons r rs ih =>
    rw [List.cons_append, rounds_cons fuel true htotal (hrs r (by simp)), if_pos hfuel]
    exact ih (fun r' hr' => hrs r' (List.mem_cons_of_mem r hr')) _

/-- Without it the file starts with the zeros of the round that has written most. -/
theorem rounds_notrunc {rs : List Round} (hrs : ∀ r ∈ rs, r.opened = .fd) (file : Bytes) :
    rounds fuel false total rs file
      = some ⟨0, "", zeros ((rs.map (Round.taken total)).foldr max 0) file⟩ := by
  induction rs generalizing file with
  | nil => rfl
  | cons r rs ih =>
    rw [rounds_cons fuel false htotal (hrs r List.mem_cons_self), if_pos hfuel,
      if_neg Bool.false_ne_true, ih (fun r' hr' => hrs r' (List.mem_cons_of_mem r hr')) _,
      zeros_zeros, List.map_cons, List.foldr_cons, max_comm]

end Rounds

/-! ## The whole run -/

/-- What the file holds in the end. -/
def result (trunc : Bool) (total : ℕ) (env : ℕ → Round) (file : Bytes) : Bytes :=
  if trunc then List.replicate ((env (count - 1)).taken total) 0
  else zeros (((List.range count).map fun i => (env i).taken total).foldr max 0) file

theorem rounds_eq {fuel total : ℕ} (htotal : total ≤ sizeMod - bufferSize)
    (hfuel : chunks total < fuel) (trunc : Bool) {env : ℕ → Round}
    (hopened : ∀ i < count, (env i).opened = .fd) (file : Bytes) :
    rounds fuel trunc total ((List.range count).map env) file
      = some ⟨0, "", result trunc total env file⟩ := by
  have hall : ∀ r ∈ (List.range count).map env, r.opened = .fd :=
    List.forall_mem_map.mpr fun i hi => hopened i (List.mem_range.mp hi)
  cases trunc with
  | true =>
    have hlast : (List.range count).map env = (List.range 13).map env ++ [env 13] := by
      rw [show count = 13 + 1 from rfl, List.range_succ, List.map_append, List.map_singleton]
    rw [hlast] at hall ⊢
    exact rounds_trunc htotal hfuel hall file
  | false =>
    rw [rounds_notrunc htotal hfuel hall, List.map_map]
    rfl

/-- The size as a `size_t` is one that the loop can pass. -/
theorem toSize_le_iff {size : ℤ} (hsize : -2 ^ 31 ≤ size) (hsize' : size < 2 ^ 31) :
    toSize size ≤ sizeMod - bufferSize ↔ ¬ (-4096 < size ∧ size < 0) := by
  rw [toSize, sizeMod, bufferSize]
  omega

/-- **The runs of `write`.** For every size that an `int` can represent, whatever becomes of the
writes, and when the file can be opened in each round: the program returns exactly when the size is
not between -4095 and -1. The file is then what the last round has written, all zeros; or, when it
is not to be truncated, what was in it, with zeros in front as far as the round came that came
furthest. -/
theorem main_returns_iff (program name size : String) (more : List String) (env : ℕ → Round)
    (file : Bytes) (hsize : -2 ^ 31 ≤ atoi (argument size) ∧ atoi (argument size) < 2 ^ 31)
    (hopened : ∀ i < count, (env i).opened = .fd) :
    ((∃ fuel e, main fuel (program :: name :: size :: more) env file = some e)
        ↔ ¬ (-4096 < atoi (argument size) ∧ atoi (argument size) < 0)) ∧
      ∀ fuel e, main fuel (program :: name :: size :: more) env file = some e →
        e = ⟨0, "",
          result (more.head? ≠ some "notrunc") (toSize (atoi (argument size))) env file⟩ := by
  rw [← toSize_le_iff hsize.1 hsize.2]
  simp only [main]
  generalize toSize (atoi (argument size)) = total
  generalize decide (more.head? ≠ some "notrunc") = trunc
  have hcons : (List.range count).map env
      = env 0 :: (List.range 13).map fun i => env (i + 1) := by
    rw [show count = 13 + 1 from rfl, List.range_succ_eq_map, List.map_cons, List.map_map]
    rfl
  -- otherwise already the loop of the first round does not end
  have hnone : ¬ total ≤ sizeMod - bufferSize → ∀ fuel,
      rounds fuel trunc total ((List.range count).map env) file = none := by
    intro htotal fuel
    rw [hcons, rounds, hopened 0 (by decide), writeLoop_eq_none (Nat.lt_of_not_le htotal) _ _
      (dvd_zero _) (by decide)]
    rfl
  refine ⟨⟨?_, fun htotal => ?_⟩, fun fuel e he => ?_⟩
  · rintro ⟨fuel, e, he⟩
    by_contra htotal
    rw [hnone htotal] at he
    cases he
  · exact ⟨chunks total + 1, _, rounds_eq htotal (Nat.lt_succ_self _) trunc hopened file⟩
  · by_cases htotal : total ≤ sizeMod - bufferSize
    · by_cases hfuel : chunks total < fuel
      · rw [rounds_eq htotal hfuel trunc hopened] at he
        exact (Option.some.inj he).symm
      · rw [hcons, rounds_cons fuel trunc htotal (hopened 0 (by decide)), if_neg hfuel] at he
        cases he
    · rw [hnone htotal] at he
      cases he

/-- A size of -1 is one that the program does not return from. -/
theorem main_returns_iff_minus_one :
    ¬ ∃ fuel e, main fuel ["write", "/tmp/write.out", "-1"] (fun _ => ⟨.fd, fun _ => .upTo 4096⟩) []
      = some e := by
  have hsize : atoi (argument "-1") = -1 := by decide
  have hiff := (main_returns_iff "write" "/tmp/write.out" "-1" []
    (fun _ => ⟨.fd, fun _ => .upTo 4096⟩) [] (by rw [hsize]; decide) fun _ _ => rfl).1
  rw [hsize] at hiff
  exact fun h => hiff.mp h (by decide)

end BenchLx.Copy.Write
