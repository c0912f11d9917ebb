import BenchLx.Common.BigEndian
import BenchLx.Common.Syscalls
import BenchLx.Ycsb.Package

/-!
# Decoding requests and sending responses

Reference: `apps/ycsbserver/handler.h`, `apps/ycsbserver/handler.cc`.
-/

namespace BenchLx.Ycsb

/-! ## Decoding -/

/-- `read_u64`. `__BIG_ENDIAN` is a non-zero constant of `endian.h`, so the first branch of the
`#if` is the one that is compiled. -/
def readU64 (bytes : Ptr) : Except Stop UInt64 :=
  (List.range 8).foldlM (fun res i => do
    let b ← bytes i
    return res ||| (b.toUInt64 <<< UInt64.ofNat (56 - i * 8))) 0

/-- The loop of `from_bytes` over the pairs that are left, with the current position. A return
value of 0 rejects the message; the pairs decoded so far stay in the package. -/
def fromBytesLoop (packageBuffer : Ptr) (packageSize : ℕ) :
    ℕ → ℕ → Package → Except Stop (ℕ × Package)
  | 0, pos, pkg => .ok (pos, pkg)
  | left + 1, pos, pkg =>
    if pos + 2 > packageSize then .ok (0, pkg)
    else do
      -- check that the length is within the parameters
      let keyLen ← packageBuffer pos
      let valLen ← packageBuffer (pos + 1)
      if pos + 2 + keyLen.toNat + valLen.toNat > packageSize then .ok (0, pkg)
      else do
        let key ← packageBuffer.read (pos + 2) keyLen.toNat
        let val ← packageBuffer.read (pos + 2 + keyLen.toNat) valLen.toNat
        fromBytesLoop packageBuffer packageSize left (pos + 2 + keyLen.toNat + valLen.toNat)
          { pkg with kvPairs := pkg.kvPairs ++ [(key, val)] }

/-- `from_bytes`: decode a message into `pkg` and return its length, or 0. The fixed header is read
whatever `packageSize` is. -/
def fromBytes (packageBuffer : Ptr) (packageSize : ℕ) (pkg : Package) :
    Except Stop (ℕ × Package) := do
  let op ← packageBuffer 0
  let table ← packageBuffer 1
  let numKvs ← packageBuffer 2
  let key ← readU64 (packageBuffer.add 3)
  let scanLength ← readU64 (packageBuffer.add 11)
  fromBytesLoop packageBuffer packageSize numKvs.toNat 19
    { pkg with op, table, numKvs, key, scanLength }

/-! ## Handlers -/

/-- `OpHandler::Result`. -/
inductive Result
  | ready
  | incomplete
  | stop
deriving DecidableEq, Repr

/-- What `send()` of `len` bytes returns: -1, or a count of bytes up to `len`. -/
abbrev SendResult (len : ℕ) := Option (Fin (len + 1))

/-- The `ssize_t` value of a send result. -/
def SendResult.toInt {len : ℕ} : SendResult len → ℤ
  | none => -1
  | some n => (n.val : ℤ)

/-- What a `send()` of `len` bytes returns when the system transfers as much as `t` allows. -/
def SendResult.ofTransfer (t : Transfer) (len : ℕ) : SendResult len :=
  match t with
  | .error => none
  | .upTo n => some ⟨min n len, Nat.lt_succ_of_le (Nat.min_le_right n len)⟩

/-- The virtual functions of `OpHandler`, over the state `H` of the handler and its connection. -/
structure OpHandler (H : Type) where
  receive : H → Package → Except Stop (Result × Package × H)
  send : H → (data : Bytes) → SendResult data.length × H
  reset : H → H

/-- One call of `receive`: the handler before and after it, its result and the package. -/
structure ReceiveCall (H : Type) where
  before : H
  result : Result
  pkg : Package
  after : H

/-- `n` successive calls of `receive`, each with a fresh package. -/
def receiveCalls {H : Type} (hdl : OpHandler H) : ℕ → H → Except Stop (List (ReceiveCall H))
  | 0, _ => .ok []
  | n + 1, h => do
    let (result, pkg, h') ← hdl.receive h Package.fresh
    let calls ← receiveCalls hdl n h'
    return ⟨h, result, pkg, h'⟩ :: calls

theorem receiveCalls_succ_eq_ok_iff {H : Type} {hdl : OpHandler H} {n : ℕ} {h : H}
    {calls : List (ReceiveCall H)} :
    receiveCalls hdl (n + 1) h = .ok calls ↔ ∃ result pkg h' rest,
      hdl.receive h Package.fresh = .ok (result, pkg, h') ∧ receiveCalls hdl n h' = .ok rest ∧
        calls = ⟨h, result, pkg, h'⟩ :: rest := by
  simp only [receiveCalls, bind_eq_ok, pure_eq_ok, Prod.exists]
  constructor
  · intro ⟨result, pkg, h', hreceive, rest, hrest, hcalls⟩
    exact ⟨result, pkg, h', rest, hreceive, hrest, hcalls.symm⟩
  · intro ⟨result, pkg, h', rest, hreceive, hrest, hcalls⟩
    exact ⟨result, pkg, h', hreceive, rest, hrest, hcalls.symm⟩

/-- Every call of a run is a call of `receive`. -/
theorem receive_of_mem_calls {H : Type} {hdl : OpHandler H} {n : ℕ} {h : H}
    {calls : List (ReceiveCall H)} (hcalls : receiveCalls hdl n h = .ok calls) {c : ReceiveCall H}
    (hc : c ∈ calls) : hdl.receive c.before Package.fresh = .ok (c.result, c.pkg, c.after) := by
  induction n generalizing h calls with
  | zero =>
    cases hcalls
    cases hc
  | succ n ih =>
    obtain ⟨result, pkg, h', rest, hreceive, hrest, rfl⟩ := receiveCalls_succ_eq_ok_iff.mp hcalls
    rcases List.mem_cons.mp hc with rfl | hc
    · exact hreceive
    · exact ih hrest hc

/-- What the server loop sees of a call: its result and, when that is `READY`, the package. -/
def ReceiveCall.outcome {H : Type} (call : ReceiveCall H) : Result × Option Package :=
  (call.result, if call.result = .ready then some call.pkg else none)

/-! ## Responding -/

/-- A `send()` that was made: the bytes handed over and what it returned. -/
structure Sent where
  data : Bytes
  res : ℤ
deriving DecidableEq, Repr

/-- The send transferred all of its bytes. -/
def Sent.Full (s : Sent) : Prop := s.res = s.data.length

/-- What `respond` returns, the handler after it, and the sends it made in order. -/
structure Response (H : Type) where
  ok : Bool
  handler : H
  sent : List Sent

/-- The size of the zeroed buffer of `respond`. -/
def responseBufferSize : ℕ := 1024

/-- The loop of `respond` over the payload bytes that are left. -/
def respondLoop {H : Type} (hdl : OpHandler H) (h : H) (bytes : ℕ) : Response H :=
  if _hbytes : 0 < bytes then
    let amount := if bytes < responseBufferSize then bytes else responseBufferSize
    let data : Bytes := List.replicate amount 0
    let (res, h) := hdl.send h data
    if res.toInt ≠ amount then
      { ok := false, handler := h, sent := [⟨data, res.toInt⟩] }
    else
      let rest := respondLoop hdl h (bytes - amount)
      { rest with sent := ⟨data, res.toInt⟩ :: rest.sent }
  else { ok := true, handler := h, sent := [] }
termination_by bytes
decreasing_by
  have hpos : 0 < responseBufferSize := by decide
  grind

/-- `respond`: send the size of a result and then that many zero bytes. The first comparison is one
of `size_t` values. -/
def respond {H : Type} (hdl : OpHandler H) (h : H) (bytes : UInt64) : Response H :=
  let data := toBytesBE 8 bytes.toNat
  let (res, h) := hdl.send h data
  if toSize res.toInt ≠ 8 then
    { ok := false, handler := h, sent := [⟨data, res.toInt⟩] }
  else
    let rest := respondLoop hdl h bytes.toNat
    { rest with sent := ⟨data, res.toInt⟩ :: rest.sent }

end BenchLx.Ycsb
