import BenchLx.Common.Memory

/-!
# Results of `read()` and `write()` and the types of sizes

The environment of a program that reads is the input that is still to be delivered and the results
of the `read()` calls to come. Each result is a failure or a bound on the bytes transferred; a call
never delivers more than it asked for or than is there, so at the end of the input it returns 0.
Every way to split an input into chunks is a list of such bounds.
-/

namespace BenchLx

/-! ## `size_t` and `ssize_t` -/

/-- The values of `size_t` are the numbers below `sizeMod`. -/
def sizeMod : ℕ := 2 ^ 64

/-- The cast of a `ssize_t` to `size_t`. -/
def toSize (x : ℤ) : ℕ := (x % sizeMod).toNat

/-- Addition of `size_t` values. -/
def sizeAdd (a b : ℕ) : ℕ := (a + b) % sizeMod

/-- Subtraction of `size_t` values. -/
def sizeSub (a b : ℕ) : ℕ := (a + (sizeMod - b % sizeMod)) % sizeMod

theorem toSize_natCast {n : ℕ} (hn : n < sizeMod) : toSize n = n := by
  rw [toSize, ← Int.natCast_mod, Int.toNat_natCast, Nat.mod_eq_of_lt hn]

theorem toSize_neg_one : toSize (-1) = sizeMod - 1 := by decide

theorem sizeAdd_of_lt {a b : ℕ} (h : a + b < sizeMod) : sizeAdd a b = a + b :=
  Nat.mod_eq_of_lt h

/-- Adding the cast of `-1` steps back by one. -/
theorem sizeAdd_neg_one {a : ℕ} (ha : 0 < a) (hlt : a < sizeMod) :
    sizeAdd a (toSize (-1)) = a - 1 := by
  rw [toSize_neg_one, sizeAdd, show a + (sizeMod - 1) = a - 1 + sizeMod by omega,
    Nat.add_mod_right, Nat.mod_eq_of_lt (by omega)]

theorem sizeSub_of_le {a b : ℕ} (hba : b ≤ a) (ha : a < sizeMod) : sizeSub a b = a - b := by
  rw [sizeSub, Nat.mod_eq_of_lt (by omega : b < sizeMod),
    show a + (sizeMod - b) = a - b + sizeMod by omega, Nat.add_mod_right,
    Nat.mod_eq_of_lt (by omega)]

/-! ## Reading -/

/-- The outcome of one `read()` or `write()`: it fails, or it transfers at most `n` bytes. -/
inductive Transfer
  | error
  | upTo (n : ℕ)
deriving DecidableEq, Repr

/-- What a `read()` returns and stores, and the input it leaves. -/
structure ReadOutcome where
  res : ℤ
  data : Bytes
  rest : Bytes
deriving DecidableEq, Repr

/-- A `read()` of at most `max` bytes from `input`. -/
def Transfer.read (r : Transfer) (input : Bytes) (max : ℕ) : ReadOutcome :=
  match r with
  | .error => { res := -1, data := [], rest := input }
  | .upTo n =>
    { res := (input.take (min n max)).length
      data := input.take (min n max)
      rest := input.drop (min n max) }

/-- The results of a connection that neither fails nor delivers nothing while there is input. -/
def Delivering (script : List Transfer) : Prop :=
  ∀ r ∈ script, ∃ n, r = .upTo (n + 1)

/-- One `read()` call as seen by a tracer: the offset in the buffer it fills, the bytes asked for,
what it returned and the bytes it delivered. -/
structure ReadCall where
  off : ℕ
  max : ℕ
  res : ℤ
  data : Bytes
deriving DecidableEq, Repr

/-- The arguments of a `read()`: where in the buffer, and for how many bytes at most. -/
structure ReadRequest where
  off : ℕ
  max : ℕ
deriving DecidableEq, Repr

/-- The arguments of a call that a tracer has seen. -/
def ReadCall.request (c : ReadCall) : ReadRequest := ⟨c.off, c.max⟩

/-- The calls deliver exactly `bs`, each byte at its own offset: a call that delivers bytes starts
where the bytes delivered before it end. -/
def DeliversFrom : ℕ → List ReadCall → Bytes → Prop
  | _, [], bs => bs = []
  | off, c :: cs, bs =>
    ∃ rest, bs = c.data ++ rest ∧ (c.data ≠ [] → c.off = off) ∧
      DeliversFrom (off + c.data.length) cs rest

theorem DeliversFrom.unique {off : ℕ} {calls : List ReadCall} {as bs : Bytes}
    (ha : DeliversFrom off calls as) (hb : DeliversFrom off calls bs) : as = bs := by
  induction calls generalizing off as bs with
  | nil => exact Eq.trans ha hb.symm
  | cons c calls ih =>
    obtain ⟨as', rfl, -, ha⟩ := ha
    obtain ⟨bs', rfl, -, hb⟩ := hb
    rw [ih ha hb]

@[simp] theorem Transfer.read_error (input : Bytes) (max : ℕ) :
    Transfer.error.read input max = { res := -1, data := [], rest := input } := rfl

/-- A call that does not fail returns the number of bytes it delivers. -/
@[simp] theorem Transfer.res_upTo (n : ℕ) (input : Bytes) (max : ℕ) :
    ((Transfer.upTo n).read input max).res = ((Transfer.upTo n).read input max).data.length := rfl

/-- A call splits the input into what it delivers and what it leaves. -/
theorem Transfer.data_append_rest (r : Transfer) (input : Bytes) (max : ℕ) :
    (r.read input max).data ++ (r.read input max).rest = input := by
  cases r with
  | error => rfl
  | upTo n => exact List.take_append_drop _ _

/-- A call delivers just the bytes `data` when these are there and it transfers so many. -/
theorem Transfer.read_append {data : Bytes} {max : ℕ} (hfits : data.length ≤ max) (rest : Bytes) :
    (Transfer.upTo data.length).read (data ++ rest) max = { res := data.length, data, rest } := by
  rw [Transfer.read, Nat.min_eq_left hfits, List.take_left, List.drop_left]

theorem Transfer.length_data_le (r : Transfer) (input : Bytes) (max : ℕ) :
    (r.read input max).data.length ≤ max := by
  cases r with
  | error => simp
  | upTo n =>
    simp only [Transfer.read, List.length_take]
    omega

/-- A call of a delivering connection delivers at least one byte while some are there and asked
for. -/
theorem Transfer.length_data_pos {n max : ℕ} {input : Bytes} (hinput : 0 < input.length)
    (hmax : 0 < max) : 0 < ((Transfer.upTo (n + 1)).read input max).data.length := by
  simp only [Transfer.read, List.length_take]
  omega

/-- What is there, up to what was asked for, is what a call delivers and then the start of what it
leaves. -/
theorem Transfer.take_eq (r : Transfer) (input : Bytes) (max : ℕ) :
    input.take max = (r.read input max).data ++
      (r.read input max).rest.take (max - (r.read input max).data.length) := by
  conv_lhs => rw [← r.data_append_rest input max]
  rw [List.take_append, List.take_of_length_le (r.length_data_le input max)]

/-- A call of a delivering connection delivers nothing only when nothing is there or asked for. -/
theorem Transfer.take_eq_nil {n max : ℕ} {input : Bytes}
    (h : ((Transfer.upTo (n + 1)).read input max).data = []) : input.take max = [] := by
  by_contra hne
  have hleft := List.length_pos_of_ne_nil hne
  rw [List.length_take] at hleft
  have hpos := Transfer.length_data_pos (n := n) (by omega : 0 < input.length)
    (by omega : 0 < max)
  rw [h] at hpos
  exact absurd hpos (Nat.lt_irrefl 0)

theorem Delivering.of_append {used rest : List Transfer} (h : Delivering (used ++ rest)) :
    Transfer.error ∉ used ∧ Delivering rest := by
  refine ⟨fun herr => ?_, fun t ht => h t (List.mem_append_right _ ht)⟩
  obtain ⟨n, hn⟩ := h _ (List.mem_append_left _ herr)
  exact Transfer.noConfusion hn

/-! ## Writing -/

/-- The bytes of `data` that a `write()` takes. -/
def Transfer.accepted (w : Transfer) (data : Bytes) : Bytes :=
  match w with
  | .error => []
  | .upTo n => data.take n

/-- The `write()` takes all the bytes it is offered. -/
def Transfer.AcceptsAll (w : Transfer) (data : Bytes) : Prop :=
  ∃ n ≥ data.length, w = .upTo n

theorem Transfer.length_accepted_le (w : Transfer) (data : Bytes) :
    (w.accepted data).length ≤ data.length := by
  cases w with
  | error => exact Nat.zero_le _
  | upTo n => exact List.length_take_le' _ _

theorem Transfer.accepted_eq_iff {w : Transfer} {data : Bytes} (hdata : data ≠ []) :
    w.accepted data = data ↔ w.AcceptsAll data := by
  cases w with
  | error =>
    constructor
    · exact fun h => absurd h.symm hdata
    · rintro ⟨n, -, hn⟩
      cases hn
  | upTo n =>
    constructor
    · exact fun h => ⟨n, List.take_eq_self_iff data |>.mp h, rfl⟩
    · rintro ⟨n', hle, hn⟩
      cases hn
      exact List.take_of_length_le hle

end BenchLx
