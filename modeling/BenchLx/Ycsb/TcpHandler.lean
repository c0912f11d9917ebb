import BenchLx.Common.Decimal
import BenchLx.Ycsb.Handler

/-!
# The TCP handler

Reference: `apps/ycsbserver/tcp_handler.cc`.

A connection is the input that the client has sent and the handler has not read yet, together with
the outcomes of the `read()` and `write()` calls to come. A call that needs a further `read()` when
no outcome is left waits for ever.
-/

namespace BenchLx.Ycsb

/-- The size of `package_buffer`. -/
def packageBufferSize : ℕ := 8 * 1024

/-- The end flag of the client. -/
def endFlag : Bytes := ascii "ENDNOW"

/-- The static package buffer and the connection. The reads of the last `receive` are recorded as a
tracer would see them. -/
structure TCPOpHandler where
  packageBuffer : Buffer packageBufferSize
  /-- what the uninitialised `header_word` holds in each call to come -/
  headerWords : ℕ → Buffer 4
  input : Bytes
  reads : List Transfer
  writes : ℕ → Transfer
  headerCalls : List ReadCall
  payloadCalls : List ReadCall

/-- What a receive loop leaves: the buffer, the connection and the reads it made. -/
structure Received (size : ℕ) where
  buffer : Buffer size
  input : Bytes
  reads : List Transfer
  calls : List ReadCall

/-- The loop `for(size_t i = 0; i < n; ) { res = receive(buf + i, n - i); i += res; }` from the
index `i` on. The result of `read()` is cast to `size_t` unchecked. -/
def receiveLoop {size : ℕ} (n : ℕ) :
    List Transfer → Bytes → Buffer size → ℕ → Except Stop (Received size)
  | [], input, buf, i =>
    if i < n then .error .blocked else .ok { buffer := buf, input, reads := [], calls := [] }
  | t :: reads, input, buf, i =>
    if i < n then do
      let out := t.read input (n - i)
      let buf ← buf.store i out.data
      let rest ← receiveLoop n reads out.rest buf (sizeAdd i (toSize out.res))
      return { rest with calls := ⟨i, n - i, out.res, out.data⟩ :: rest.calls }
    else .ok { buffer := buf, input, reads := t :: reads, calls := [] }

namespace TCPOpHandler

/-- The handler that the constructor leaves, with the connection it has accepted. The static buffer
is zeroed when the program starts. -/
def create (headerWords : ℕ → Buffer 4) (input : Bytes) (reads : List Transfer)
    (writes : ℕ → Transfer) : TCPOpHandler :=
  { packageBuffer := .zero, headerWords, input, reads, writes
    headerCalls := [], payloadCalls := [] }

/-- The loop of `receive` over the bytes of the header word. -/
def receiveHeader (h : TCPOpHandler) : Except Stop (Received 4) :=
  receiveLoop 4 h.reads h.input (h.headerWords 0) 0

/-- The loop of `receive` over the bytes of the package. -/
def receivePayload (h : TCPOpHandler) (packageSize : ℕ) :
    Except Stop (Received packageBufferSize) :=
  receiveLoop packageSize h.reads h.input h.packageBuffer 0

/-- The handler after the header word has been received. -/
def afterHeader (h : TCPOpHandler) (header : Received 4) : TCPOpHandler :=
  { h with
    headerWords := fun k => h.headerWords (k + 1)
    input := header.input
    reads := header.reads
    headerCalls := header.calls
    payloadCalls := [] }

/-- The handler after the package has been received. -/
def afterPayload (h : TCPOpHandler) (payload : Received packageBufferSize) : TCPOpHandler :=
  { h with
    packageBuffer := payload.buffer
    input := payload.input
    reads := payload.reads
    payloadCalls := payload.calls }

/-- `receive`. -/
def receive (h : TCPOpHandler) (pkg : Package) : Except Stop (Result × Package × TCPOpHandler) := do
  let header ← h.receiveHeader
  let h := h.afterHeader header
  let packageSize := ofBytesBE (header.buffer.take 4)
  if packageSize > packageBufferSize then return (.stop, pkg, h)
  let payload ← h.receivePayload packageSize
  let h := h.afterPayload payload
  -- the end flag of the client is no package
  if packageSize = 6 ∧ h.packageBuffer.take 6 = endFlag then return (.stop, pkg, h)
  let (size, pkg) ← fromBytes (h.packageBuffer.ptr 0) packageSize pkg
  if size = 0 then return (.incomplete, pkg, h)
  return (.ready, pkg, h)

/-- `send`. -/
def send (h : TCPOpHandler) (data : Bytes) : SendResult data.length × TCPOpHandler :=
  (.ofTransfer (h.writes 0) data.length, { h with writes := fun k => h.writes (k + 1) })

/-- The virtual functions of the handler; `reset` is the empty one of `OpHandler`. -/
def hdl : OpHandler TCPOpHandler where
  receive := receive
  send := send
  reset := id

end TCPOpHandler

end BenchLx.Ycsb
