import Zippity.CrcReader
import Zippity.Reader.ReadState

/-! # Reading entries

    The part of `reader.rs` that waits for an entry: `get_reader` and `get_crc`
    of `ReaderEntry`, and the functions of `ReadState` that call them.  The
    pinned slot is the only place where a half-done open, read or seek is kept
    between two polls.
-/

namespace Zippity

open Framework Exec Async

/-- `ReadError`. -/
inductive ReadError where
  /-- The entry reports a size that does not match the actual size. -/
  | sizeMismatch (entryName : Name) (expectedSize actualSize : Nat)
  /-- The entry was given a CRC value that does not match the computed one. -/
  | crc32Mismatch (entryName : Name) (expectedCrc actualCrc : UInt32)
  /-- Attempting to seek before the start of the file. -/
  | seekingBeforeStart
  deriving DecidableEq, Repr

/-- The `io::Error`s of the reader: those of the entries and its own. -/
inductive IoError (E : EntryData) where
  | entry (e : E.Error)
  | read (e : ReadError)

/-- `READ_SIZE`. -/
def READ_SIZE : Nat := 8192

section Model
variable {E : EntryData} {H : Crc32Fast}

/-- `ReaderPinned`: what the reader waits for.  A future that returned `Ready` stays in its slot
    until the slot is set, and is `completed` from then on. -/
inductive ReaderPinned (E : EntryData) (H : Crc32Fast) where
  | nothing
  | readerFuture (future : E.Future) (completed : Bool)
  | fileReader (reader : CrcReader E H)

/-- The pinned slot, with the names of the entries on which `EntryData::get_reader` was called.
    No function reads the log. -/
structure Pinned (E : EntryData) (H : Crc32Fast) where
  slot : ReaderPinned E H
  opened : List Name

/-- `ReaderPinned::Nothing` with no call logged. -/
def Pinned.new : Pinned E H := ⟨.nothing, []⟩

/-- What the functions on one entry borrow. -/
structure EntryFrame (E : EntryData) (H : Crc32Fast) where
  readState : ReadState
  entry : ReaderEntry E
  pinned : Pinned E H
  output : ReadBuf

namespace EntryFrame

/-- `pinned.set(..)`. -/
def setSlot (s : EntryFrame E H) (slot : ReaderPinned E H) : EntryFrame E H :=
  { s with pinned := { s.pinned with slot } }

/-- `self.crc32 = Some(crc)`. -/
def setCrc (s : EntryFrame E H) (crc : UInt32) : EntryFrame E H :=
  { s with entry := { s.entry with crc32 := some crc } }

end EntryFrame

/-- A poll function on one entry. -/
abbrev EntryRead (E : EntryData) (H : Crc32Fast) (α : Type) :=
  Async (IoError E) (EntryFrame E H) α

/-! ### `ReaderEntry::get_reader` -/

/-- The first `if` of `get_reader`: call `EntryData::get_reader` on an empty slot. -/
def openFuture : EntryRead E H Unit := do
  let s ← get
  match s.pinned.slot with
  | .nothing =>
    modify fun s => { s with
      pinned.slot := .readerFuture (E.getReader s.entry.data) false
      pinned.opened := s.pinned.opened ++ [s.entry.name] }
  -- a future or a reader from an earlier poll is kept
  | _ => pure ()

/-- The second `if` of `get_reader`: poll the future in the slot.  Only `Ok` replaces it. -/
def pollFuture (ctx : E.Context) : EntryRead E H Unit := fun s =>
  match s.pinned.slot with
  | .readerFuture future false =>
    match E.poll future ctx with
    | (.pending, future') => .ok (.pending, s.setSlot (.readerFuture future' false))
    -- the failed future stays in the slot, and a second poll of it is a fault
    | (.err e, future') => .ok (.err (.entry e), s.setSlot (.readerFuture future' true))
    | (.ok reader, _) => .ok (.ok (), s.setSlot (.fileReader (.new reader)))
  | .readerFuture _ true => .error .polledAfterCompletion
  | _ => .ok (.ok (), s)

/-- The file reader in the slot. -/
def fileReader : EntryRead E H (CrcReader E H) := do
  let s ← get
  match s.pinned.slot with
  | .fileReader reader => pure reader
  | _ => fault .unreachable

/-- `ReaderEntry::get_reader`. -/
def getReader (ctx : E.Context) : EntryRead E H (CrcReader E H) := do
  openFuture
  pollFuture ctx
  fileReader

/-- A call on the file reader, which lives in the slot. -/
def onFileReader {α : Type}
    (call : CrcReader E H → E.Data → PollResult E.Error α × CrcReader E H) :
    EntryRead E H α := do
  let reader ← fileReader
  let s ← get
  let (result, reader') := call reader s.entry.data
  -- the reader is kept, whatever it answered
  modify fun s => s.setSlot (.fileReader reader')
  match result with
  | .pending => pending
  | .err e => throw (.entry e)
  | .ok a => pure a

/-! ### `ReaderEntry::get_crc` -/

/-- The loop of `get_crc`: read until nothing more comes. -/
def readToEnd (ctx : E.Context) : (fuel : Nat) → EntryRead E H Unit
  | 0 => fault .outOfFuel
  | fuel + 1 => do
    let readBuffer ← onFileReader fun reader data =>
      reader.pollRead data ctx (.new READ_SIZE)
    -- a read that appends nothing is the end of the file
    if readBuffer.filled.isEmpty then pure () else readToEnd ctx fuel

/-- `ReaderEntry::get_crc`. -/
def getCrc (ctx : E.Context) (fuel : Nat) : EntryRead E H UInt32 := do
  let s ← get
  match s.entry.crc32 with
  | some crc => pure crc
  | none =>
    -- an empty entry is never opened: it is not read as data either
    if s.entry.size = 0 then
      let crc := H.hash []
      modify fun s => s.setCrc crc
      pure crc
    else
      -- a reader that has read a part already goes on where it is
      let _ ← getReader ctx
      readToEnd ctx fuel
      let reader ← fileReader
      match reader.getCrc32 with
      -- a reader that sought has no CRC, but then the CRC of the entry was known
      | none => fault .unreachable
      | some crc32 =>
        modify fun s => (s.setSlot .nothing).setCrc crc32
        pure crc32

/-! ### `ReadState::read_entry_data` -/

/-- The loop that skips by reading: read and discard, at most `to_skip` bytes. -/
def skipByReading (ctx : E.Context) : (fuel : Nat) → EntryRead E H Unit
  | 0 => fault .outOfFuel
  | fuel + 1 => do
    let s ← get
    if s.readState.toSkip > 0 then
      -- not over the position asked for
      let limit := min READ_SIZE s.readState.toSkip
      let readBuffer ← onFileReader fun reader data =>
        reader.pollRead data ctx (.new limit (by simp only [limit, READ_SIZE]; omega))
      let processed ← lift (addU64 s.readState.chunkProcessedSize readBuffer.filled.length)
      let toSkip ← lift (subU64 s.readState.toSkip readBuffer.filled.length)
      modify fun s => { s with
        readState.chunkProcessedSize := processed
        readState.toSkip := toSkip }
      -- the whole file was skipped: the reported size was wrong, which is an error later
      if readBuffer.filled.isEmpty then pure () else skipByReading ctx fuel
    else pure ()

/-- The branch that skips by a seek in the entry. -/
def skipBySeeking (ctx : E.Context) : EntryRead E H Unit := do
  let s ← get
  let posAfterSeek ← onFileReader fun reader data =>
    reader.seek data ctx (.start s.readState.toSkip)
  lift (assert (posAfterSeek = s.readState.toSkip))
  let processed ← lift (addU64 s.readState.chunkProcessedSize s.readState.toSkip)
  modify fun s => { s with
    readState.chunkProcessedSize := processed
    readState.toSkip := 0 }

/-- The end of the entry data: nothing was output, so everything in the file was read. -/
def finishEntryData : EntryRead E H Bool := do
  let s ← get
  let reader ← fileReader
  match reader.getCrc32, s.entry.crc32 with
  | some actualCrc, some expectedCrc =>
    if expectedCrc ≠ actualCrc then
      throw (.read (.crc32Mismatch s.entry.name expectedCrc actualCrc))
    else modify fun s => s.setCrc actualCrc
  | some actualCrc, none => modify fun s => s.setCrc actualCrc
  -- a reader that sought did not see all bytes: nothing is checked
  | none, _ => pure ()
  modify fun s => s.setSlot .nothing
  -- the slot is cleared before the size is checked
  if s.readState.chunkProcessedSize = s.entry.size then pure true
  else throw (.read (.sizeMismatch s.entry.name s.entry.size s.readState.chunkProcessedSize))

/-- The part of `read_entry_data` before the output: skip to the position asked for, by reading if
    the CRC is still to be computed, else by a seek. -/
def skipEntryData (ctx : E.Context) (fuel : Nat) : EntryRead E H Unit := do
  let s ← get
  if s.readState.toSkip > 0 then
    if s.entry.crc32.isNone then skipByReading ctx fuel else skipBySeeking ctx

/-- The part of `read_entry_data` that reads to the output. -/
def outputEntryData (ctx : E.Context) : EntryRead E H Bool := do
  let s ← get
  let remainingBeforePoll := s.output.remaining
  let output ← onFileReader fun reader data => reader.pollRead data ctx s.output
  modify fun s => { s with output }
  -- nothing was output, so everything in the file was read already
  if output.remaining = remainingBeforePoll then finishEntryData
  else
    let writtenChunkSize := remainingBeforePoll - output.remaining
    let start ← lift (subU64 output.filled.length writtenChunkSize)
    lift (assert (writtenChunkSize = (output.filled.drop start).length))
    let processed ← lift (addU64 s.readState.chunkProcessedSize writtenChunkSize)
    modify fun s => { s with readState.chunkProcessedSize := processed }
    pure false

/-- `ReadState::read_entry_data`; the answer says whether the chunk is done. -/
def readEntryData (ctx : E.Context) (fuel : Nat) : EntryRead E H Bool := do
  let _ ← getReader ctx
  skipEntryData ctx fuel
  outputEntryData ctx

/-! ### The chunks with a CRC -/

/-- Run a part of the header writers, which never wait. -/
def writeHeader (write : EntryFrame E H → Exec (ReadState × ReadBuf)) : EntryRead E H Unit := do
  let s ← get
  let (readState, output) ← lift (write s)
  modify fun s => { s with readState, output }

/-- `ReadState::read_data_descriptor`. -/
def readDataDescriptor (ctx : E.Context) (fuel : Nat) : EntryRead E H Bool := do
  let crc32 ← getCrc ctx fuel
  writeHeader fun s => s.readState.putDataDescriptor s.entry crc32 s.output
  pure true

/-- `ReadState::read_cd_file_header`. -/
def readCdFileHeader (ctx : E.Context) (fuel : Nat) : EntryRead E H Bool := do
  let crc32 ← getCrc ctx fuel
  writeHeader fun s => s.readState.putCdFileHeader s.entry crc32 s.output
  pure true

end Model

end Zippity
