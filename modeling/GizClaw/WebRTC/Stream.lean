import GizClaw.Lib.Bytes

-- `dataChannelConn`: a byte stream over the messages of a data channel.

namespace GizClaw.WebRTC

def streamChunkSize : Nat :=
  32 * 1024

def maxPacketMessageSize : Nat :=
  64 * 1024

inductive Error where
  | connClosed
  | deadlineExceeded
  | shortWrite
  | shortBuffer
  | eof
  | other (text : String)
  deriving DecidableEq

section Write

-- What a stream writes to. Its answers may depend on all that happened before: the budgets are
-- shared with other streams. A raw write reports how much of the payload it took.
structure Link (σ : Type) where
  waitWriteBudget : σ → Option Error × σ
  reserveSharedWriteBudgets : Nat → σ → Option Error × σ
  writeDataChannel : Bytes → σ → (Nat × Option Error) × σ
  releaseSharedWriteBudgets : Nat → σ → σ
  taken_le : ∀ payload s, (writeDataChannel payload s).fst.fst ≤ payload.length

-- The messages that were handed to the channel are recorded with what it took of them.
structure Conn (σ : Type) where
  link : σ
  streamTX : Nat := 0
  budgetOutstanding : Nat := 0
  sent : List (Bytes × Nat) := []

structure Written where
  written : Nat
  err : Option Error
  deriving DecidableEq

variable {σ : Type} (L : Link σ)

def writeDataChannelBudgeted (payload : Bytes) (c : Conn σ) : (Nat × Option Error) × Conn σ :=
  let size := payload.length
  match L.reserveSharedWriteBudgets size c.link with
  | (some err, link) => ((0, some err), { c with link })
  | (none, link) =>
    let ((n, err), link) := L.writeDataChannel payload link
    let c := { c with link, sent := c.sent ++ [(payload, n)] }
    if err = none ∧ n = size then
      ((n, err), { c with budgetOutstanding := c.budgetOutstanding + n })
    else
      ((n, err), { c with link := L.releaseSharedWriteBudgets size c.link })

-- One chunk, after `written` bytes. `Write` and `WriteBuffers` do the same here.
def send (chunk : Bytes) (written : Nat) (c : Conn σ) : Written × Conn σ :=
  match L.waitWriteBudget c.link with
  | (some err, link) => (⟨written, some err⟩, { c with link })
  | (none, link) =>
    let ((n, err), c) := writeDataChannelBudgeted L chunk { c with link }
    let c := { c with streamTX := c.streamTX + n }
    match err with
    | some err => (⟨written + n, some err⟩, c)
    | none => (⟨written + n, if n ≠ chunk.length then some .shortWrite else none⟩, c)

-- What follows is done unless there was an error.
def andThen (r : Written × Conn σ) (next : Nat → Conn σ → Written × Conn σ) : Written × Conn σ :=
  match r.fst.err with
  | some _ => r
  | none => next r.fst.written r.snd

def writeLoop (p : Bytes) (written : Nat) (c : Conn σ) : Written × Conn σ :=
  if _h : p = [] then
    (⟨written, none⟩, c)
  else
    let chunk := min p.length streamChunkSize
    andThen (send L (p.take chunk) written c) fun written c =>
      writeLoop (p.drop chunk) written c
termination_by p.length
decreasing_by
  have := List.length_pos_of_ne_nil _h
  simp only [List.length_drop, streamChunkSize]
  omega

def write (p : Bytes) (c : Conn σ) : Written × Conn σ :=
  writeLoop L p 0 c

-- The pooled buffer while there is room in it.
abbrev Chunk := { chunk : Bytes // chunk.length < streamChunkSize }

def Chunk.empty : Chunk :=
  ⟨[], by decide⟩

def flush (chunk : Bytes) (written : Nat) (c : Conn σ) : Written × Conn σ :=
  if chunk = [] then (⟨written, none⟩, c) else send L chunk written c

-- The loop over one buffer, and what is done after it.
def bufferLoop (next : Chunk → Nat → Conn σ → Written × Conn σ) (buffer : Bytes) (chunk : Chunk)
    (written : Nat) (c : Conn σ) : Written × Conn σ :=
  if _h : buffer = [] then
    next chunk written c
  else
    let count := min buffer.length (streamChunkSize - chunk.val.length)
    let chunk' := chunk.val ++ buffer.take count
    if hc : chunk'.length < streamChunkSize then
      bufferLoop next (buffer.drop count) ⟨chunk', hc⟩ written c
    else
      andThen (flush L chunk' written c) fun written c =>
        bufferLoop next (buffer.drop count) .empty written c
termination_by buffer.length
decreasing_by
  all_goals
    have := List.length_pos_of_ne_nil _h
    have := chunk.property
    simp only [List.length_drop]
    omega

def buffersLoop : List Bytes → Chunk → Nat → Conn σ → Written × Conn σ
  | [], chunk, written, c => flush L chunk.val written c
  | buffer :: buffers, chunk, written, c =>
    bufferLoop L (buffersLoop buffers) buffer chunk written c

def writeBuffers (buffers : List Bytes) (c : Conn σ) : Written × Conn σ :=
  buffersLoop L buffers .empty 0 c

end Write

section Read

-- The messages that have arrived and were not read. A read that has not enough room for the next
-- one says how long it is and leaves it there.
structure Raw where
  queue : List Bytes := []
  fault : Option Error := none

inductive RawRead where
  | blocked
  | failed (err : Error)
  | short (n : Nat)
  | message (m : Bytes)

def Raw.readDataChannel (raw : Raw) (size : Nat) : RawRead × Raw :=
  match raw.queue with
  | m :: queue =>
    if size < m.length then (.short m.length, raw) else (.message m, { raw with queue })
  | [] =>
    match raw.fault with
    | some err => (.failed err, raw)
    | none => (.blocked, raw)

-- Of the read buffer only the length is kept: what it holds is overwritten before it is used.
structure Reader where
  raw : Raw := {}
  readBuffer : Option Nat := none
  pending : Bytes := []
  streamRX : Nat := 0
  closed : Bool := false

inductive ReadResult where
  | blocked
  | failed (err : Error)
  | bytes (p : Bytes)
  deriving DecidableEq

def Reader.fail (r : Reader) (err : Error) : ReadResult × Reader :=
  (.failed (if r.closed then .eof else err), r)

def Reader.deliver (r : Reader) (size : Nat) (m : Bytes) : ReadResult × Reader :=
  if m = [] then
    (.bytes [], r)
  else
    let copied := m.take size
    let r := { r with streamRX := r.streamRX + m.length }
    if copied.length < m.length then
      (.bytes copied, { r with pending := m.drop copied.length })
    else
      (.bytes copied, r)

-- `Read` with a destination of `size` bytes.
def Reader.read (r : Reader) (size : Nat) : ReadResult × Reader :=
  if r.pending ≠ [] then
    let p := r.pending.take size
    (.bytes p, { r with pending := r.pending.drop p.length })
  else
    let len := r.readBuffer.getD streamChunkSize
    let r := { r with readBuffer := some len }
    match r.raw.readDataChannel len with
    | (.blocked, _) => (.blocked, r)
    | (.failed err, raw) => { r with raw }.fail err
    | (.message m, raw) => { r with raw }.deliver size m
    | (.short n, raw) =>
      if len < n ∧ n ≤ maxPacketMessageSize then
        let r := { r with raw, readBuffer := some n }
        match r.raw.readDataChannel n with
        | (.blocked, _) => (.blocked, r)
        | (.failed err, raw) => { r with raw }.fail err
        | (.short _, raw) => { r with raw }.fail .shortBuffer
        | (.message m, raw) => { r with raw }.deliver size m
      else
        { r with raw }.fail .shortBuffer

def Reader.receive (r : Reader) (m : Bytes) : Reader :=
  { r with raw.queue := r.raw.queue ++ [m] }

end Read

end GizClaw.WebRTC
