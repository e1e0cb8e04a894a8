import Zippity.Reader.Entry

/-! # The read loop

    `ReadState::read`: chunk after chunk goes to the output until it is full,
    the archive is at its end or an entry makes the call wait.
-/

namespace Zippity

open Framework Exec Async

section Model
variable {E : EntryData} {H : Crc32Fast}

/-- What `ReadState::read` borrows. -/
structure Frame (E : EntryData) (H : Crc32Fast) where
  readState : ReadState
  entries : List (ReaderEntry E)
  pinned : Pinned E H
  output : ReadBuf

/-- A poll function of the read loop. -/
abbrev FrameRead (E : EntryData) (H : Crc32Fast) (α : Type) :=
  Async (IoError E) (Frame E H) α

namespace Frame

/-- Borrow `&mut entries[i]` and the rest. -/
def borrow (i : Nat) (s : Frame E H) : Exec (EntryFrame E H) := do
  let entry ← entryAt s.entries i
  .ok ⟨s.readState, entry, s.pinned, s.output⟩

/-- Write back what a function on `entries[i]` left. -/
def restore (i : Nat) (t : EntryFrame E H) (s : Frame E H) : Frame E H :=
  ⟨t.readState, s.entries.set i t.entry, t.pinned, t.output⟩

end Frame

/-- A call with `&mut entries[i]`. -/
def onEntry {α : Type} (i : Nat) (x : EntryRead E H α) : FrameRead E H α :=
  zoom (Frame.borrow i) (Frame.restore i) x

/-- How a part of the loop body goes on: with a value, with `break`, or with
    `return Poll::Ready(Ok(()))`. -/
inductive Flow (α : Type) where
  | go (a : α)
  | leave
  | ret
  deriving DecidableEq, Repr

/-- The macro `zippity_ready!`: `Pending` is passed on only if nothing was written yet. -/
def zippityReady {α : Type} (initialRemaining : Nat) (x : FrameRead E H α) :
    FrameRead E H (Flow α) := do
  match ← answer x with
  | .ok a => pure (.go a)
  | .err e => throw e
  | .pending => do
    let s ← get
    -- what was written is returned first; the next call meets the same `Pending`
    if s.output.remaining = initialRemaining then pending else pure .ret

/-- The `match` of the loop body; its value says whether the chunk is done. -/
def readChunk (sizes : Sizes) (ctx : E.Context) (fuel initialRemaining : Nat) :
    FrameRead E H (Flow Bool) := do
  let s ← get
  match s.readState.currentChunk with
  | .localHeader i =>
    onEntry i (writeHeader fun s => s.readState.readLocalHeader s.entry s.output)
    pure (.go true)
  | .entryData i =>
    if s.output.remaining ≠ initialRemaining then
      -- an entry may make the call wait, so it is read in a call of its own
      lift (assert (s.readState.stagingBuffer = []))
      pure .leave
    else zippityReady initialRemaining (onEntry i (readEntryData ctx fuel))
  | .dataDescriptor i => zippityReady initialRemaining (onEntry i (readDataDescriptor ctx fuel))
  | .cdFileHeader i => zippityReady initialRemaining (onEntry i (readCdFileHeader ctx fuel))
  | .eocd =>
    let (readState, output) ← lift (s.readState.readEocd sizes s.entries s.output)
    modify fun s => { s with readState, output }
    pure (.go true)
  -- the loop left before
  | .finished => fault .unreachable

/-- The end of the loop body: go to the next chunk if this one is done. -/
def finishChunk (currentChunkSize : Nat) (chunkDone : Bool) : FrameRead E H Unit := do
  if chunkDone then
    let s ← get
    lift (assert (s.readState.chunkProcessedSize = currentChunkSize))
    let currentChunk ← lift (s.readState.currentChunk.next s.entries)
    modify fun s => { s with
      readState.currentChunk := currentChunk
      readState.chunkProcessedSize := 0 }

/-- The rest of the loop body: read the current chunk and go on. -/
def processChunk (sizes : Sizes) (ctx : E.Context) (fuel initialRemaining currentChunkSize : Nat) :
    FrameRead E H (Flow Unit) := do
  match ← readChunk sizes ctx fuel initialRemaining with
  | .go chunkDone =>
    finishChunk currentChunkSize chunkDone
    pure (.go ())
  | .leave => pure .leave
  | .ret => pure .ret

/-- The body of the loop. -/
def readIteration (sizes : Sizes) (ctx : E.Context) (fuel initialRemaining : Nat) :
    FrameRead E H (Flow Unit) := do
  let s ← get
  if s.readState.stagingBuffer ≠ [] then
    -- staged bytes go first
    let (readState, output) ← lift (s.readState.readFromStaging s.output)
    modify fun s => { s with readState, output }
    pure (.go ())
  else if s.readState.currentChunk = .finished then pure .leave
  else
    let currentChunkSize ← lift (s.readState.currentChunk.size s.entries)
    if s.readState.toSkip ≥ currentChunkSize then
      -- a chunk that ends before the position asked for is skipped unread
      let toSkip ← lift (subU64 s.readState.toSkip currentChunkSize)
      let currentChunk ← lift (s.readState.currentChunk.next s.entries)
      modify fun s => { s with
        readState.toSkip := toSkip
        readState.currentChunk := currentChunk }
      pure (.go ())
    else processChunk sizes ctx fuel initialRemaining currentChunkSize

/-- The loop of `ReadState::read`, left normally or, with `ret`, by a `return`. -/
def readLoop (sizes : Sizes) (ctx : E.Context) (initialRemaining : Nat) :
    (fuel : Nat) → FrameRead E H (Flow Unit)
  | 0 => fault .outOfFuel
  | fuel + 1 => do
    let s ← get
    if s.output.remaining > 0 then
      match ← readIteration sizes ctx fuel initialRemaining with
      | .go () => readLoop sizes ctx initialRemaining fuel
      | .leave => pure .leave
      | .ret => pure .ret
    -- the output is full
    else pure .leave

/-- `ReadState::read`.  Only the end of the loop accounts for the bytes written. -/
def read (sizes : Sizes) (ctx : E.Context) (fuel : Nat) : FrameRead E H Unit := do
  let s ← get
  let initialRemaining := s.output.remaining
  match ← readLoop sizes ctx initialRemaining fuel with
  -- `return` skips the update of the position
  | .ret => pure ()
  | _ =>
    let s ← get
    let written ← lift (subU64 initialRemaining s.output.remaining)
    let position ← lift (addU64 s.readState.position written)
    modify fun s => { s with readState.position := position }

end Model

end Zippity
