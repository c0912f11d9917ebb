import BenchLx.Ycsb.Handler

/-!
# The UDP handler

Reference: `apps/ycsbserver/udp_handler.cc`. The handler replays the operations of a workload file
and pretends to have received them.
-/

namespace BenchLx.Ycsb

/-- `MAX_FILE_SIZE`. -/
def maxFileSize : ℕ := 4 * 1024 * 1024

/-- The static workload buffer with its position and size, the members, and the outcomes of the
`sendto()` calls to come. The datagrams that `receive` has sent as requests are recorded. -/
structure UDPOpHandler where
  wlBuffer : Buffer maxFileSize
  wlPos : ℕ
  wlSize : ℕ
  ops : UInt64
  totalOps : UInt64
  writes : ℕ → Transfer
  requests : List Bytes

/-- What the loading loop leaves: `wl_buffer`, `wl_size` and the reads it made. -/
structure Loaded where
  buffer : Buffer maxFileSize
  size : ℕ
  calls : List ReadCall

/-- The loop of the constructor that loads the file. `len` is a `size_t`, so a failed read counts as
a huge number of bytes. -/
def loadLoop : List Transfer → Bytes → Buffer maxFileSize → ℕ → Except Stop Loaded
  | [], _, _, _ => .error .blocked
  | t :: reads, file, buf, wlSize => do
    let max := sizeSub maxFileSize wlSize
    let out := t.read file max
    let buf ← buf.store wlSize out.data
    let call : ReadCall := ⟨wlSize, max, out.res, out.data⟩
    let len := toSize out.res
    if len > 0 then
      let rest ← loadLoop reads out.rest buf (sizeAdd wlSize len)
      return { rest with calls := call :: rest.calls }
    else return { buffer := buf, size := wlSize, calls := [call] }

/-- `wl_read4b`: the big-endian word at `wl_pos`, and the position behind it. -/
def wlRead4b (wlBuffer : Buffer maxFileSize) (wlPos : ℕ) : Except Stop (ℕ × ℕ) := do
  let bytes ← (wlBuffer.ptr wlPos).read 0 4
  return (ofBytesBE bytes, sizeAdd wlPos 4)

namespace UDPOpHandler

/-- The constructor on a workload file. The new buffer holds `contents` before it is loaded. -/
def create (contents : Buffer maxFileSize) (reads : List Transfer) (file : Bytes)
    (writes : ℕ → Transfer) : Except Stop UDPOpHandler := do
  let loaded ← loadLoop reads file contents 0
  -- total_preins
  let (_, pos) ← wlRead4b loaded.buffer 0
  let (totalOps, pos) ← wlRead4b loaded.buffer pos
  return { wlBuffer := loaded.buffer, wlPos := pos, wlSize := loaded.size
           ops := 0, totalOps := UInt64.ofNat totalOps, writes, requests := [] }

/-- `reset`. -/
def reset (h : UDPOpHandler) : UDPOpHandler :=
  { h with wlPos := 4 * 2, ops := 0 }

/-- `send`. -/
def send (h : UDPOpHandler) (data : Bytes) : SendResult data.length × UDPOpHandler :=
  (.ofTransfer (h.writes 0) data.length, { h with writes := fun k => h.writes (k + 1) })

/-- `receive`. The return value of `from_bytes` is used as a length only, and the datagram starts at
the start of the buffer. -/
def receive (h : UDPOpHandler) (pkg : Package) : Except Stop (Result × Package × UDPOpHandler) :=
  if h.ops ≥ h.totalOps then .ok (.stop, pkg, h)
  else do
    let (readSize, pkg) ← fromBytes (h.wlBuffer.ptr h.wlPos) (sizeSub h.wlSize h.wlPos) pkg
    let h := { h with wlPos := sizeAdd h.wlPos readSize }
    let request ← (h.wlBuffer.ptr 0).read 0 readSize
    let (_, h) := h.send request
    return (.ready, pkg, { h with ops := h.ops + 1, requests := h.requests ++ [request] })

/-- A call that a user of the handler makes: `receive` with a fresh package, or `reset`. -/
inductive Call
  | receive
  | reset
deriving DecidableEq, Repr

/-- The handler after a list of calls. -/
def runCalls : List Call → UDPOpHandler → Except Stop UDPOpHandler
  | [], h => .ok h
  | .receive :: calls, h => do
    let (_, _, h') ← h.receive Package.fresh
    runCalls calls h'
  | .reset :: calls, h => runCalls calls h.reset

/-- The virtual functions of the handler. -/
def hdl : OpHandler UDPOpHandler where
  receive := receive
  send := send
  reset := reset

end UDPOpHandler

end BenchLx.Ycsb
