import Zippity.Structs
import Zippity.EntryData

/-! # Reader entries, chunks and headers

    The layout side of `reader.rs`: the entries of a reader, the chunks of the
    archive with their sizes and their order, and the header structures that
    are written for them.
-/

namespace Zippity

open Framework Exec

/-- `ZIP64_VERSION_TO_EXTRACT`. -/
def ZIP64_VERSION_TO_EXTRACT : UInt8 := 45

/-- `u16::MAX` and `u32::MAX` in the fields that zip64 overrides. -/
def u16Max : UInt16 := 0xFFFF

def u32Max : UInt32 := 0xFFFFFFFF

/-! ### Entries -/

/-- An entry inside the reader. -/
structure ReaderEntry (E : EntryData) where
  name : Name
  data : E.Data
  /-- Offset of the entry's local header in the file. -/
  offset : Nat
  crc32 : Option UInt32
  datetime : DosDatetime
  externalAttributes : UInt32
  /-- Number of bytes of the entry data, cached from `EntryData::size()`. -/
  size : Nat

/-- Sizes of the central directory and the whole zip. -/
structure Sizes where
  cdOffset : Nat
  cdSize : Nat
  eocdOffset : Nat
  totalSize : Nat
  deriving DecidableEq, Repr

/-- `entries[i]`. -/
def entryAt {E : EntryData} (entries : List (ReaderEntry E)) (i : Nat) : Exec (ReaderEntry E) :=
  match entries[i]? with
  | some entry => .ok entry
  | none => .error .indexOutOfBounds

theorem entryAt_eq {E : EntryData} {entries : List (ReaderEntry E)} {i : Nat}
    {entry : ReaderEntry E} (h : entries[i]? = some entry) : entryAt entries i = .ok entry := by
  simp [entryAt, h]

/-! ### Chunks -/

/-- A block of data inside the ZIP file: a structure of the format or entry data. -/
inductive Chunk where
  | localHeader (entryIndex : Nat)
  | entryData (entryIndex : Nat)
  | dataDescriptor (entryIndex : Nat)
  | cdFileHeader (entryIndex : Nat)
  | eocd
  | finished
  deriving DecidableEq, Repr

namespace Chunk

variable {E : EntryData}

/-- `Chunk::new`: the first local header, or EOCD if this is an empty ZIP. -/
def new (entries : List (ReaderEntry E)) : Chunk :=
  if entries.isEmpty then .eocd else .localHeader 0

/-- `Chunk::size`: the size of the chunk in bytes. -/
def size (entries : List (ReaderEntry E)) : Chunk → Exec Nat
  | .localHeader i => do
    let entry ← entryAt entries i
    let header ← addU64 (packedSize LocalFileHeader) entry.name.length
    addU64 header (packedSize Zip64ExtraField)
  | .entryData i => do
    let entry ← entryAt entries i
    .ok entry.size
  | .dataDescriptor _ => .ok (packedSize DataDescriptor64)
  | .cdFileHeader i => do
    let entry ← entryAt entries i
    let header ← addU64 (packedSize CentralDirectoryHeader) entry.name.length
    addU64 header (packedSize Zip64ExtraField)
  | .eocd => do
    let zip64 ← addU64 (packedSize Zip64EndOfCentralDirectoryLocator)
      (packedSize Zip64EndOfCentralDirectoryRecord)
    addU64 zip64 (packedSize EndOfCentralDirectory)
  | .finished => .error .unreachable

/-- `Chunk::next`: the chunk that follows in the ZIP. -/
def next (entries : List (ReaderEntry E)) : Chunk → Exec Chunk
  | .localHeader i => .ok (.entryData i)
  | .entryData i => .ok (.dataDescriptor i)
  | .dataDescriptor i =>
    -- behind the last entry the central directory begins
    if i + 1 < entries.length then .ok (.localHeader (i + 1)) else .ok (.cdFileHeader 0)
  | .cdFileHeader i =>
    if i + 1 < entries.length then .ok (.cdFileHeader (i + 1)) else .ok .eocd
  | .eocd => .ok .finished
  | .finished => .error .unreachable

end Chunk

/-! ### Header structures

    The structure literals of `read_local_header`, `read_data_descriptor`,
    `read_cd_file_header` and `read_eocd`. -/

/-- `name.len().try_into()` for the `u16` length fields. -/
def fileNameLen (name : Name) : Exec UInt16 :=
  if name.length < 65536 then .ok (UInt16.ofNat name.length) else .error .unreachable

def versionMadeBy : VersionMadeBy :=
  { specVersion := ZIP64_VERSION_TO_EXTRACT, os := .unix }

def localFileHeader (datetime : DosDatetime) (nameLen : UInt16) : LocalFileHeader where
  signature := LocalFileHeader.SIGNATURE
  versionToExtract := ZIP64_VERSION_TO_EXTRACT.toUInt16
  flags := { useDataDescriptor := true, languageEncoding := true }
  compression := .store
  lastModDatetime := datetime
  crc32 := 0
  compressedSize := u32Max
  uncompressedSize := u32Max
  fileNameLen := nameLen
  extraFieldLen := packedSizeU16 Zip64ExtraField

def zip64ExtraField (size offset : Nat) : Zip64ExtraField where
  tag := Zip64ExtraField.TAG
  size := packedSizeU16 Zip64ExtraField - 4
  uncompressedSize := UInt64.ofNat size
  compressedSize := UInt64.ofNat size
  offset := UInt64.ofNat offset

def dataDescriptor64 (crc32 : UInt32) (size : Nat) : DataDescriptor64 where
  signature := DataDescriptor64.SIGNATURE
  crc32 := crc32
  compressedSize := UInt64.ofNat size
  uncompressedSize := UInt64.ofNat size

def centralDirectoryHeader (datetime : DosDatetime) (crc32 : UInt32) (nameLen : UInt16)
    (externalAttributes : UInt32) : CentralDirectoryHeader where
  signature := CentralDirectoryHeader.SIGNATURE
  versionMadeBy := versionMadeBy
  versionToExtract := ZIP64_VERSION_TO_EXTRACT.toUInt16
  flags := { useDataDescriptor := false, languageEncoding := true }
  compression := .store
  lastModDatetime := datetime
  crc32 := crc32
  compressedSize := u32Max
  uncompressedSize := u32Max
  fileNameLen := nameLen
  extraFieldLen := packedSizeU16 Zip64ExtraField
  fileCommentLength := 0
  diskNumberStart := 0
  internalAttributes := 0
  externalAttributes := externalAttributes
  localHeaderOffset := u32Max

def zip64EndOfCentralDirectoryRecord (count : Nat) (sizes : Sizes) :
    Zip64EndOfCentralDirectoryRecord where
  signature := Zip64EndOfCentralDirectoryRecord.SIGNATURE
  sizeOfZip64Eocd := UInt64.ofNat (packedSize Zip64EndOfCentralDirectoryRecord) - 12
  versionMadeBy := versionMadeBy
  versionToExtract := ZIP64_VERSION_TO_EXTRACT.toUInt16
  thisDiskNumber := 0
  startOfCdDiskNumber := 0
  thisCdEntryCount := UInt64.ofNat count
  totalCdEntryCount := UInt64.ofNat count
  sizeOfCd := UInt64.ofNat sizes.cdSize
  cdOffset := UInt64.ofNat sizes.cdOffset

def zip64EndOfCentralDirectoryLocator (sizes : Sizes) : Zip64EndOfCentralDirectoryLocator where
  signature := Zip64EndOfCentralDirectoryLocator.SIGNATURE
  startOfCdDiskNumber := 0
  zip64EocdOffset := UInt64.ofNat sizes.eocdOffset
  numberOfDisks := 1

def endOfCentralDirectory : EndOfCentralDirectory where
  signature := EndOfCentralDirectory.SIGNATURE
  thisDiskNumber := 0
  startOfCdDiskNumber := 0
  thisCdEntryCount := u16Max
  totalCdEntryCount := u16Max
  sizeOfCd := u32Max
  cdOffset := u32Max
  fileCommentLength := 0

end Zippity
