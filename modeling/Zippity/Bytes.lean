import Zippity.Reader.Reader

/-! # The byte stream

    `bytes.rs`: a reader as a stream of blocks.  The buffer is that of the
    `bytes` crate and it is filled by `poll_read_buf` of tokio-util, of which
    the stream relies on one law: what `poll_read` delivers is appended to the
    buffer and counted.
-/

namespace Zippity

open Framework Exec Async

/-! ### Buffers -/

/-- `bytes::BytesMut`. -/
structure BytesMut where
  bytes : List UInt8
  capacity : Nat
  deriving DecidableEq, Repr

/-- A capacity that was allocated where `asked` was asked for. -/
abbrev Allocated (asked : Nat) := { capacity : Nat // asked ≤ capacity }

/-- `BytesMut::with_capacity`, which allocates at least the capacity asked for. -/
def BytesMut.withCapacity (asked : Nat) (allocated : Allocated asked) : BytesMut :=
  ⟨[], allocated.1⟩

/-- `poll_read_buf` of tokio-util, which polls a reader in a state `σ` by its `poll_read`. -/
structure PollReadBuf where
  call : {σ ε : Type} → (σ → ReadBuf → Exec (PollResult ε Unit × σ × ReadBuf)) →
    Async ε (σ × BytesMut) Nat
  /-- The free bytes of a buffer, as they are handed to `poll_read`. -/
  offered : BytesMut → ReadBuf
  offered_filled : ∀ buffer, (offered buffer).filled = []
  /-- An empty buffer with a capacity has free bytes. -/
  offered_room : ∀ buffer, buffer.bytes = [] → 0 < buffer.capacity → 0 < (offered buffer).remaining
  /-- What `poll_read` delivers is appended to the buffer and counted. -/
  appends : ∀ {σ ε : Type} (pollRead : σ → ReadBuf → Exec (PollResult ε Unit × σ × ReadBuf))
    (io : σ) (buffer : BytesMut), 0 < (offered buffer).remaining →
    call pollRead (io, buffer) = (pollRead io (offered buffer)).map fun (answer, io', buf) =>
      match answer with
      | .pending => (.pending, io', buffer)
      | .err e => (.err e, io', buffer)
      | .ok () => (.ok buf.filled.length, io', { buffer with bytes := buffer.bytes ++ buf.filled })

/-! ### The stream -/

section Model
variable {E : EntryData} {H : Crc32Fast}

structure BytesStream (E : EntryData) (H : Crc32Fast) where
  reader : Reader E H
  buffer : BytesMut

/-- `BytesStream::new`, also `Reader::into_bytes_stream`. -/
def Reader.intoBytesStream (self : Reader E H) (allocated : Allocated READ_SIZE) :
    BytesStream E H where
  reader := self
  buffer := .withCapacity READ_SIZE allocated

namespace BytesStream

/-- `poll_read_buf(projected.reader, cx, projected.buffer)`. -/
def pollReadBuf (lib : PollReadBuf) (ctx : E.Context) (fuel : Nat) :
    Async (IoError E) (BytesStream E H) Nat :=
  zoom (fun s => .ok (s.reader, s.buffer)) (fun (reader, buffer) _ => ⟨reader, buffer⟩)
    (lib.call fun reader buf => reader.pollRead ctx fuel buf)

/-- `Stream::poll_next`.  `allocated` is the capacity of the buffer that replaces a block. -/
def pollNext (lib : PollReadBuf) (ctx : E.Context) (fuel : Nat) (allocated : Allocated READ_SIZE) :
    Async (IoError E) (BytesStream E H) (Option (List UInt8)) := do
  let s ← get
  lift (assert (s.buffer.bytes = []))
  lift (assert (s.buffer.capacity > 0))
  let n ← pollReadBuf lib ctx fuel
  if n = 0 then pure none
  else
    let s ← get
    -- the block is split off, and a new buffer takes its place
    modify fun s => { s with buffer := .withCapacity READ_SIZE allocated }
    pure (some s.buffer.bytes)

end BytesStream

end Model

end Zippity
