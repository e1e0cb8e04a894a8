import Zippity.Layout
import Zippity.Reader.Read

/-! # The reader

    The public interface of `Reader`: construction, `poll_read`, seeking,
    `clone` and `take_pinned`, and what can be observed of it (`size`, `tell`,
    `crc32s`).
-/

namespace Zippity

open Framework Exec Async

section Model
variable {E : EntryData} {H : Crc32Fast}

/-- The reader of a zip file. -/
structure Reader (E : EntryData) (H : Crc32Fast) where
  /-- Sizes of the central directory and the whole zip. -/
  sizes : Sizes
  /-- The entries with their offsets; CRCs may get set during reading. -/
  entries : List (ReaderEntry E)
  readState : ReadState
  /-- What the reader waits for. -/
  pinned : Pinned E H

namespace Reader

/-- `Reader::new`. -/
def new (sizes : Sizes) (entries : List (ReaderEntry E)) : Reader E H where
  sizes := sizes
  entries := entries
  readState := .new entries
  pinned := .new

/-- `Reader::new_empty_file`. -/
def newEmptyFile : Exec (Reader E H) := do
  let entries : List (ReaderEntry E) := []
  let totalSize ← eocdSize
  .ok {
    sizes := { cdOffset := 0, cdSize := 0, eocdOffset := 0, totalSize }
    entries
    readState := {
      currentChunk := .new entries
      chunkProcessedSize := 0
      position := 0
      stagingBuffer := []
      toSkip := 0 }
    pinned := .new }

/-! ### Observations -/

/-- `Reader::size`. -/
def size (self : Reader E H) : Nat := self.sizes.totalSize

/-- `Reader::tell`. -/
def tell (self : Reader E H) : Nat := self.readState.position

/-- `Reader::crc32s`: the CRCs known so far. -/
def crc32s (self : Reader E H) : List (Name × UInt32) :=
  self.entries.filterMap fun entry => entry.crc32.map fun crc => (entry.name, crc)

/-! ### Reading -/

/-- `AsyncRead::poll_read`, with at most `fuel` turns of each loop. -/
def pollRead (self : Reader E H) (ctx : E.Context) (fuel : Nat) (buf : ReadBuf) :
    Exec (PollResult (IoError E) Unit × Reader E H × ReadBuf) := do
  let (answer, s) ← read self.sizes ctx fuel ⟨self.readState, self.entries, self.pinned, buf⟩
  .ok (answer, ⟨self.sizes, s.entries, s.readState, s.pinned⟩, s.output)

/-! ### Seeking -/

/-- `Reader::seek_from_start_mut` and `Reader::seek_from_start_pinned`. -/
def seekFromStart (self : Reader E H) (offset : Nat) : Exec (Reader E H) := do
  let readState ← self.readState.seekFromStart self.sizes self.entries offset
  -- what the reader waited for is dropped
  .ok { self with readState, pinned.slot := .nothing }

/-- `resolve_offset` of `start_seek`; a sum above `u64::MAX` panics. -/
def resolveOffset (base : Nat) (offset : Int) : Exec (Except (IoError E) Nat) :=
  match AsRefReader.target.checkedAddSigned base offset with
  | some result => .ok (.ok result)
  | none =>
    -- out of range at the lower end, or at the upper one
    if offset < 0 then .ok (.error (.read .seekingBeforeStart)) else .error .overflow

/-- `AsyncSeek::start_seek`. -/
def startSeek (self : Reader E H) (position : SeekFrom) :
    Exec (Except (IoError E) Unit × Reader E H) := do
  let pos ←
    match position with
    | .start pos => .ok (.ok pos)
    | .current offset => resolveOffset (E := E) self.tell offset
    | .end offset => resolveOffset self.size offset
  match pos with
  | .error e => .ok (.error e, self)
  | .ok pos => do
    let self ← self.seekFromStart pos
    .ok (.ok (), self)

/-- `AsyncSeek::poll_complete`. -/
def pollComplete (self : Reader E H) : Nat := self.tell

/-! ### Duplication -/

/-- `Clone for Reader`. -/
def clone (self : Reader E H) : Exec (Reader E H) :=
  -- the copy waits for nothing and seeks to where this reader is
  (Reader.new self.sizes self.entries).seekFromStart self.tell

/-- `Reader::take_pinned`: the reader taken and the one left behind. -/
def takePinned (self : Reader E H) : Exec (Reader E H × Reader E H) := do
  let empty : Reader E H ← newEmptyFile
  let readPos := self.tell
  let readState ← (ReadState.new self.entries).seekFromStart self.sizes self.entries readPos
  -- the log of opened entries stays with the pinned place
  .ok (⟨self.sizes, self.entries, readState, .new⟩,
    ⟨empty.sizes, empty.entries, empty.readState, { self.pinned with slot := .nothing }⟩)

end Reader

end Model

end Zippity
