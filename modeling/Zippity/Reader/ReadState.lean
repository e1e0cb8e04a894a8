import Zippity.Framework.ReadBuf
import Zippity.Reader.Chunk

/-! # Reading headers

    The part of `ReadState` that never waits: header pieces go to the output,
    to the staging buffer or are skipped, and the staging buffer drains to the
    output.
-/

namespace Zippity

open Framework Exec

/-- Parts of the state of the reader that need no pinning. -/
structure ReadState where
  currentChunk : Chunk
  /-- How many bytes were already read from the current chunk; staged bytes count as read. -/
  chunkProcessedSize : Nat
  /-- Current position in the file, returned by `tell`. -/
  position : Nat
  /-- Data that could not be written to the output directly. -/
  stagingBuffer : List UInt8
  /-- How many bytes must be skipped, counted from the start of the current chunk; while bytes
      are staged, the number of them that are already output or skipped. -/
  toSkip : Nat
  deriving DecidableEq, Repr

namespace ReadState

variable {E : EntryData}

/-- `ReadState::new`. -/
def new (entries : List (ReaderEntry E)) : ReadState where
  currentChunk := .new entries
  chunkProcessedSize := 0
  position := 0
  stagingBuffer := []
  toSkip := 0

/-- The common body of `read_packed_struct` and `read_str`: skip the bytes, write them to the
    output or stage them. -/
def readPiece (self : ReadState) (bytes : List UInt8) (output : ReadBuf) :
    Exec (ReadState × ReadBuf) := do
  let processed ← addU64 self.chunkProcessedSize bytes.length
  let self := { self with chunkProcessedSize := processed }
  let staged := { self with stagingBuffer := self.stagingBuffer ++ bytes }
  if self.stagingBuffer.isEmpty then
    -- skipped as a whole
    if self.toSkip ≥ bytes.length then
      let toSkip ← subU64 self.toSkip bytes.length
      .ok ({ self with toSkip }, output)
    -- the fast path
    else if self.toSkip = 0 ∧ output.remaining ≥ bytes.length then
      let output ← output.putSlice bytes
      .ok (self, output)
    -- a part of it is to be skipped, or it does not fit
    else .ok (staged, output)
  -- never in front of staged bytes
  else .ok (staged, output)

/-- `ReadState::read_packed_struct`. -/
def readPackedStruct {P : Type} [PackedStruct P] (self : ReadState) (ps : P) (output : ReadBuf) :
    Exec (ReadState × ReadBuf) :=
  self.readPiece (pack ps) output

/-- `ReadState::read_str`. -/
def readStr (self : ReadState) (s : Name) (output : ReadBuf) : Exec (ReadState × ReadBuf) :=
  self.readPiece s output

/-- `ReadState::read_from_staging`. -/
def readFromStaging (self : ReadState) (output : ReadBuf) : Exec (ReadState × ReadBuf) := do
  let start := self.toSkip
  let stop ← addU64 start output.remaining
  let lastRead := decide (stop ≥ self.stagingBuffer.length)
  let stop := if lastRead then self.stagingBuffer.length else stop
  let output ←
    -- not more is to be skipped than is staged, so this is always so
    if start < self.stagingBuffer.length then
      output.putSlice ((self.stagingBuffer.take stop).drop start)
    else .ok output
  if lastRead then .ok ({ self with toSkip := 0, stagingBuffer := [] }, output)
  -- `to_skip` counts the staged bytes that are output
  else .ok ({ self with toSkip := stop }, output)

/-- `ReadState::read_local_header`; its chunk is done afterwards. -/
def readLocalHeader (self : ReadState) (entry : ReaderEntry E) (output : ReadBuf) :
    Exec (ReadState × ReadBuf) := do
  let nameLen ← fileNameLen entry.name
  let (self, output) ← self.readPackedStruct (localFileHeader entry.datetime nameLen) output
  let (self, output) ← self.readStr entry.name output
  -- the sizes are in the data descriptor
  self.readPackedStruct (zip64ExtraField 0 entry.offset) output

/-- `ReadState::read_data_descriptor` after the CRC is known. -/
def putDataDescriptor (self : ReadState) (entry : ReaderEntry E) (crc32 : UInt32)
    (output : ReadBuf) : Exec (ReadState × ReadBuf) :=
  self.readPackedStruct (dataDescriptor64 crc32 entry.size) output

/-- `ReadState::read_cd_file_header` after the CRC is known. -/
def putCdFileHeader (self : ReadState) (entry : ReaderEntry E) (crc32 : UInt32)
    (output : ReadBuf) : Exec (ReadState × ReadBuf) := do
  let nameLen ← fileNameLen entry.name
  let (self, output) ← self.readPackedStruct
    (centralDirectoryHeader entry.datetime crc32 nameLen entry.externalAttributes) output
  let (self, output) ← self.readStr entry.name output
  self.readPackedStruct (zip64ExtraField entry.size entry.offset) output

/-- `ReadState::read_eocd`; its chunk is done afterwards. -/
def readEocd (self : ReadState) (sizes : Sizes) (entries : List (ReaderEntry E))
    (output : ReadBuf) : Exec (ReadState × ReadBuf) := do
  let (self, output) ← self.readPackedStruct
    (zip64EndOfCentralDirectoryRecord entries.length sizes) output
  let (self, output) ← self.readPackedStruct (zip64EndOfCentralDirectoryLocator sizes) output
  self.readPackedStruct endOfCentralDirectory output

/-! ### Seeking -/

/-- `slice::binary_search_by_key` on a slice with strictly increasing keys: the index of the key,
    or the index where it would be inserted. -/
def binarySearchByKey {α : Type} (xs : List α) (b : Nat) (f : α → Nat) : Except Nat Nat :=
  match xs.findIdx? (fun x => f x == b) with
  | some i => .ok i
  | none => .error (xs.countP (fun x => f x < b))

/-- The index of the entry that `seek_from_start` searches: the one with the offset, or the one
    before the insertion point. -/
def searchEntry (entries : List (ReaderEntry E)) (offset : Nat) : Exec Nat :=
  match binarySearchByKey entries offset ReaderEntry.offset with
  | .ok index => .ok index
  -- the insertion point is behind the entry that contains the offset
  | .error index => subU64 index 1

/-- `ReadState::seek_from_start`. -/
def seekFromStart (self : ReadState) (sizes : Sizes) (entries : List (ReaderEntry E))
    (offset : Nat) : Exec ReadState := do
  let (chunk, chunkPosition) ←
    if offset ≥ sizes.eocdOffset then .ok (.eocd, sizes.eocdOffset)
    else if offset ≥ sizes.cdOffset then do
      assert (entries ≠ [])
      .ok (.cdFileHeader 0, sizes.cdOffset)
    else do
      assert (entries ≠ [])
      let entryIndex ← searchEntry entries offset
      assert (entryIndex < entries.length)
      let entry ← entryAt entries entryIndex
      assert (entry.offset ≤ offset)
      let last ← subU64 entries.length 1
      -- `||` does not evaluate the index behind the last entry
      if entryIndex = last then .ok ()
      else do
        let following ← entryAt entries (entryIndex + 1)
        assert (following.offset > offset)
      .ok (.localHeader entryIndex, entry.offset)
  let toSkip ← subU64 offset chunkPosition
  .ok { self with
    currentChunk := chunk
    chunkProcessedSize := 0
    position := offset
    stagingBuffer := []
    toSkip := toSkip }

end ReadState

end Zippity
