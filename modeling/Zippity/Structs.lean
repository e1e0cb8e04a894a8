import Zippity.Framework.Wire

/-! # ZIP structures

    The packed structures of `structs.rs`, with the bytes that `packed_struct`
    writes for them, and the DOS date and time.  Every structure is little
    endian; its size is the sum of the widths of its fields.
-/

namespace Zippity

open Framework

/-- An entry name: the UTF-8 bytes of the source's `String`. -/
abbrev Name := List UInt8

/-! ### Packing -/

/-- `PackedStruct` with `PackedStructZippityExt`: a structure that is written as a fixed number
    of bytes. -/
class PackedStruct (P : Type) where
  packedSize : Nat
  pack : P → List UInt8
  /-- The bytes written are as many as announced. -/
  length_pack : ∀ p, (pack p).length = packedSize

/-- `P::packed_size()` and `P::packed_size_usize()`. -/
def packedSize (P : Type) [PackedStruct P] : Nat := PackedStruct.packedSize P

/-- `P::packed_size_u16()`; every structure here is far below the bound of its `expect`. -/
def packedSizeU16 (P : Type) [PackedStruct P] : UInt16 := UInt16.ofNat (packedSize P)

/-- `ps.pack_to_slice(..)`. -/
def pack {P : Type} [PackedStruct P] (ps : P) : List UInt8 := PackedStruct.pack ps

@[simp] theorem length_pack {P : Type} [PackedStruct P] (ps : P) :
    (pack ps).length = packedSize P := PackedStruct.length_pack ps

def le16 (x : UInt16) : List UInt8 := toLE 2 x.toNat

def le32 (x : UInt32) : List UInt8 := toLE 4 x.toNat

def le64 (x : UInt64) : List UInt8 := toLE 8 x.toNat

@[simp] theorem length_le16 (x : UInt16) : (le16 x).length = 2 := length_toLE _ _

@[simp] theorem length_le32 (x : UInt32) : (le32 x).length = 4 := length_toLE _ _

@[simp] theorem length_le64 (x : UInt64) : (le64 x).length = 8 := length_toLE _ _

/-! ### Dates -/

/-- `u16::try_from(n).ok()`. -/
def u16TryFrom (n : Int) : Option UInt16 :=
  if 0 ≤ n ∧ n < 65536 then some (UInt16.ofNat n.toNat) else none

/-- MS-DOS date and time. -/
structure DosDatetime where
  time : UInt16
  date : UInt16
  deriving DecidableEq, Repr, Inhabited

namespace DosDatetime

/-- `DosDatetime::default()`: both words zero. -/
def default : DosDatetime := ⟨0, 0⟩

/-- `DosDatetime::new`: `none` if any value is out of range. -/
def new (year : Int32) (month day hour minute second : UInt32) : Option DosDatetime := do
  if ¬ (1980 ≤ year.toInt ∧ year.toInt < 1980 + 128) then none
  let year ← u16TryFrom (year.toInt - 1980)
  if ¬ (1 ≤ month ∧ month ≤ 12) then none
  let month ← u16TryFrom month.toNat
  if ¬ (1 ≤ day ∧ day ≤ 31) then none
  let day ← u16TryFrom day.toNat
  if hour > 23 then none
  let hour ← u16TryFrom hour.toNat
  if minute > 59 then none
  let minute ← u16TryFrom minute.toNat
  if second > 59 then none
  let twoSecond ← u16TryFrom (second / 2).toNat
  some {
    time := twoSecond ||| (minute <<< 5) ||| (hour <<< 11)
    date := day ||| (month <<< 5) ||| (year <<< 9) }

/-- `DosDatetime::year`; the sum is far below the bound of `u16`. -/
def year (self : DosDatetime) : Int32 := Int32.ofNat ((self.date >>> 9) + 1980).toNat

/-- `DosDatetime::month`. -/
def month (self : DosDatetime) : UInt32 := ((self.date >>> 5) &&& 15).toUInt32

/-- `DosDatetime::day`. -/
def day (self : DosDatetime) : UInt32 := (self.date &&& 31).toUInt32

/-- `DosDatetime::hour`. -/
def hour (self : DosDatetime) : UInt32 := (self.time >>> 11).toUInt32

/-- `DosDatetime::minute`. -/
def minute (self : DosDatetime) : UInt32 := ((self.time >>> 5) &&& 63).toUInt32

/-- `DosDatetime::second`. -/
def second (self : DosDatetime) : UInt32 := ((self.time &&& 31) * 2).toUInt32

end DosDatetime

/-- Packed as `time`, then `date`. -/
instance : PackedStruct DosDatetime where
  packedSize := 2 + 2
  pack dt := le16 dt.time ++ le16 dt.date
  length_pack dt := by simp

/-! ### Flags and enumerations -/

/-- General purpose bit flag. -/
structure GpBitFlag where
  useDataDescriptor : Bool
  /-- File names and comments are UTF-8. -/
  languageEncoding : Bool
  deriving DecidableEq, Repr

/-- `bits = "11"` and `bits = "3"` under `lsb0` numbering of a two byte structure count from the
    last byte, so bit 11 is bit 3 of the first byte written, and bit 3 is bit 3 of the second. -/
instance : PackedStruct GpBitFlag where
  packedSize := 2
  pack flags := [if flags.useDataDescriptor then 8 else 0, if flags.languageEncoding then 8 else 0]
  length_pack _ := rfl

/-- Compression methods. -/
inductive Compression where
  | store
  deriving DecidableEq, Repr

def Compression.code : Compression → UInt16
  | .store => 0

/-- Operating systems of `version_made_by`. -/
inductive VersionMadeByOs where
  | unix
  deriving DecidableEq, Repr

def VersionMadeByOs.code : VersionMadeByOs → UInt8
  | .unix => 3

structure VersionMadeBy where
  specVersion : UInt8
  os : VersionMadeByOs
  deriving DecidableEq, Repr

instance : PackedStruct VersionMadeBy where
  packedSize := 1 + 1
  pack v := [v.specVersion, v.os.code]
  length_pack _ := rfl

/-! ### Headers -/

/-- Local file header; the file name and the extra field follow it. -/
structure LocalFileHeader where
  signature : UInt32
  versionToExtract : UInt16
  flags : GpBitFlag
  compression : Compression
  lastModDatetime : DosDatetime
  crc32 : UInt32
  compressedSize : UInt32
  uncompressedSize : UInt32
  fileNameLen : UInt16
  extraFieldLen : UInt16
  deriving DecidableEq, Repr

def LocalFileHeader.SIGNATURE : UInt32 := 0x04034b50

instance : PackedStruct LocalFileHeader where
  packedSize := 4 + 2 + 2 + 2 + 4 + 4 + 4 + 4 + 2 + 2
  pack h := le32 h.signature ++ le16 h.versionToExtract ++ pack h.flags ++
    le16 h.compression.code ++ pack h.lastModDatetime ++ le32 h.crc32 ++ le32 h.compressedSize ++
    le32 h.uncompressedSize ++ le16 h.fileNameLen ++ le16 h.extraFieldLen
  length_pack h := by simp [packedSize, PackedStruct.packedSize]

/-- Zip64 extra field. -/
structure Zip64ExtraField where
  tag : UInt16
  size : UInt16
  uncompressedSize : UInt64
  compressedSize : UInt64
  offset : UInt64
  deriving DecidableEq, Repr

def Zip64ExtraField.TAG : UInt16 := 0x0001

instance : PackedStruct Zip64ExtraField where
  packedSize := 2 + 2 + 8 + 8 + 8
  pack x := le16 x.tag ++ le16 x.size ++ le64 x.uncompressedSize ++ le64 x.compressedSize ++
    le64 x.offset
  length_pack x := by simp

/-- Zip64 version of the data descriptor, after the file data. -/
structure DataDescriptor64 where
  signature : UInt32
  crc32 : UInt32
  compressedSize : UInt64
  uncompressedSize : UInt64
  deriving DecidableEq, Repr

def DataDescriptor64.SIGNATURE : UInt32 := 0x08074b50

instance : PackedStruct DataDescriptor64 where
  packedSize := 4 + 4 + 8 + 8
  pack d := le32 d.signature ++ le32 d.crc32 ++ le64 d.compressedSize ++ le64 d.uncompressedSize
  length_pack d := by simp

/-- Central directory header, one for each entry. -/
structure CentralDirectoryHeader where
  signature : UInt32
  versionMadeBy : VersionMadeBy
  versionToExtract : UInt16
  flags : GpBitFlag
  compression : Compression
  lastModDatetime : DosDatetime
  crc32 : UInt32
  compressedSize : UInt32
  uncompressedSize : UInt32
  fileNameLen : UInt16
  extraFieldLen : UInt16
  fileCommentLength : UInt16
  diskNumberStart : UInt16
  internalAttributes : UInt16
  externalAttributes : UInt32
  localHeaderOffset : UInt32
  deriving DecidableEq, Repr

def CentralDirectoryHeader.SIGNATURE : UInt32 := 0x02014b50

instance : PackedStruct CentralDirectoryHeader where
  packedSize := 4 + 2 + 2 + 2 + 2 + 4 + 4 + 4 + 4 + 2 + 2 + 2 + 2 + 2 + 4 + 4
  pack h := le32 h.signature ++ pack h.versionMadeBy ++ le16 h.versionToExtract ++ pack h.flags ++
    le16 h.compression.code ++ pack h.lastModDatetime ++ le32 h.crc32 ++ le32 h.compressedSize ++
    le32 h.uncompressedSize ++ le16 h.fileNameLen ++ le16 h.extraFieldLen ++
    le16 h.fileCommentLength ++ le16 h.diskNumberStart ++ le16 h.internalAttributes ++
    le32 h.externalAttributes ++ le32 h.localHeaderOffset
  length_pack h := by simp [packedSize, PackedStruct.packedSize]

/-- Zip64 end of central directory record. -/
structure Zip64EndOfCentralDirectoryRecord where
  signature : UInt32
  sizeOfZip64Eocd : UInt64
  versionMadeBy : VersionMadeBy
  versionToExtract : UInt16
  thisDiskNumber : UInt32
  startOfCdDiskNumber : UInt32
  thisCdEntryCount : UInt64
  totalCdEntryCount : UInt64
  sizeOfCd : UInt64
  cdOffset : UInt64
  deriving DecidableEq, Repr

def Zip64EndOfCentralDirectoryRecord.SIGNATURE : UInt32 := 0x06064b50

instance : PackedStruct Zip64EndOfCentralDirectoryRecord where
  packedSize := 4 + 8 + 2 + 2 + 4 + 4 + 8 + 8 + 8 + 8
  pack r := le32 r.signature ++ le64 r.sizeOfZip64Eocd ++ pack r.versionMadeBy ++
    le16 r.versionToExtract ++ le32 r.thisDiskNumber ++ le32 r.startOfCdDiskNumber ++
    le64 r.thisCdEntryCount ++ le64 r.totalCdEntryCount ++ le64 r.sizeOfCd ++ le64 r.cdOffset
  length_pack r := by simp [packedSize, PackedStruct.packedSize]

/-- Zip64 end of central directory locator. -/
structure Zip64EndOfCentralDirectoryLocator where
  signature : UInt32
  startOfCdDiskNumber : UInt32
  zip64EocdOffset : UInt64
  numberOfDisks : UInt32
  deriving DecidableEq, Repr

def Zip64EndOfCentralDirectoryLocator.SIGNATURE : UInt32 := 0x07064b50

instance : PackedStruct Zip64EndOfCentralDirectoryLocator where
  packedSize := 4 + 4 + 8 + 4
  pack l := le32 l.signature ++ le32 l.startOfCdDiskNumber ++ le64 l.zip64EocdOffset ++
    le32 l.numberOfDisks
  length_pack l := by simp

/-- End of central directory record. -/
structure EndOfCentralDirectory where
  signature : UInt32
  thisDiskNumber : UInt16
  startOfCdDiskNumber : UInt16
  thisCdEntryCount : UInt16
  totalCdEntryCount : UInt16
  sizeOfCd : UInt32
  cdOffset : UInt32
  fileCommentLength : UInt16
  deriving DecidableEq, Repr

def EndOfCentralDirectory.SIGNATURE : UInt32 := 0x06054b50

instance : PackedStruct EndOfCentralDirectory where
  packedSize := 4 + 2 + 2 + 2 + 2 + 4 + 4 + 2
  pack e := le32 e.signature ++ le16 e.thisDiskNumber ++ le16 e.startOfCdDiskNumber ++
    le16 e.thisCdEntryCount ++ le16 e.totalCdEntryCount ++ le32 e.sizeOfCd ++ le32 e.cdOffset ++
    le16 e.fileCommentLength
  length_pack e := by simp

/-! ### Sizes of the packed structures -/

@[simp] theorem packedSize_localFileHeader : packedSize LocalFileHeader = 30 := rfl

@[simp] theorem packedSize_zip64ExtraField : packedSize Zip64ExtraField = 28 := rfl

@[simp] theorem packedSize_dataDescriptor64 : packedSize DataDescriptor64 = 24 := rfl

@[simp] theorem packedSize_centralDirectoryHeader : packedSize CentralDirectoryHeader = 46 := rfl

@[simp] theorem packedSize_zip64EndOfCentralDirectoryRecord :
    packedSize Zip64EndOfCentralDirectoryRecord = 56 := rfl

@[simp] theorem packedSize_zip64EndOfCentralDirectoryLocator :
    packedSize Zip64EndOfCentralDirectoryLocator = 20 := rfl

@[simp] theorem packedSize_endOfCentralDirectory : packedSize EndOfCentralDirectory = 22 := rfl

end Zippity
