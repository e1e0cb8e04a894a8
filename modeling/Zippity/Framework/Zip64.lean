import Mathlib.Data.List.Forall2
import Zippity.Framework.Wire

/-! # The ZIP64 format

    A decoder for archives of stored files, from the end of the archive to the
    data of each file, and the bytes of the records it reads.  An archive is
    found from its last 22 bytes: they and the locator in front of them lead to
    the zip64 record, the record to the central directory, and each header
    there to a local header, the data and a data descriptor.
-/

namespace Framework.Zip64

open Framework.Parser

/-! ### Records -/

/-- What the local and the central header of a file both start with. -/
structure FileFields where
  flags : UInt16
  compression : UInt16
  time : UInt16
  date : UInt16
  crc32 : UInt32
  compressedSize : UInt32
  uncompressedSize : UInt32
  nameLen : UInt16
  extraLen : UInt16

/-- A local header. -/
structure LocalHeader where
  version : UInt16
  fields : FileFields
  name : List UInt8
  extra : List UInt8

/-- A central directory header, with the sizes and the offset as they are written. -/
structure CentralHeader where
  madeBy : UInt16
  version : UInt16
  fields : FileFields
  disk : UInt16
  internalAttributes : UInt16
  externalAttributes : UInt32
  offset : UInt32
  name : List UInt8
  extra : List UInt8
  comment : List UInt8

/-- A zip64 data descriptor. -/
structure Descriptor where
  crc32 : UInt32
  compressedSize : UInt64
  uncompressedSize : UInt64

/-- The zip64 end of central directory record, as far as an archive on one disk needs it. -/
structure EndRecord where
  madeBy : UInt16
  version : UInt16
  count : UInt64
  size : UInt64
  offset : UInt64

def FileFields.bytes (f : FileFields) : List UInt8 :=
  toLE 2 f.flags.toNat ++ toLE 2 f.compression.toNat ++ toLE 2 f.time.toNat ++
    toLE 2 f.date.toNat ++ toLE 4 f.crc32.toNat ++ toLE 4 f.compressedSize.toNat ++
    toLE 4 f.uncompressedSize.toNat ++ toLE 2 f.nameLen.toNat ++ toLE 2 f.extraLen.toNat

def LocalHeader.bytes (h : LocalHeader) : List UInt8 :=
  toLE 4 0x04034b50 ++ toLE 2 h.version.toNat ++ h.fields.bytes ++ h.name ++ h.extra

def CentralHeader.bytes (h : CentralHeader) : List UInt8 :=
  toLE 4 0x02014b50 ++ toLE 2 h.madeBy.toNat ++ toLE 2 h.version.toNat ++ h.fields.bytes ++
    toLE 2 h.comment.length ++ toLE 2 h.disk.toNat ++ toLE 2 h.internalAttributes.toNat ++
    toLE 4 h.externalAttributes.toNat ++ toLE 4 h.offset.toNat ++ h.name ++ h.extra ++ h.comment

/-- The zip64 extra field with both sizes and the offset. -/
def extraBytes (uncompressedSize compressedSize offset : UInt64) : List UInt8 :=
  toLE 2 0x0001 ++ toLE 2 24 ++
    (toLE 8 uncompressedSize.toNat ++ toLE 8 compressedSize.toNat ++ toLE 8 offset.toNat)

def Descriptor.bytes (d : Descriptor) : List UInt8 :=
  toLE 4 0x08074b50 ++ toLE 4 d.crc32.toNat ++ toLE 8 d.compressedSize.toNat ++
    toLE 8 d.uncompressedSize.toNat

def EndRecord.bytes (r : EndRecord) : List UInt8 :=
  toLE 4 0x06064b50 ++ toLE 8 44 ++ toLE 2 r.madeBy.toNat ++ toLE 2 r.version.toNat ++
    toLE 4 0 ++ toLE 4 0 ++ toLE 8 r.count.toNat ++ toLE 8 r.count.toNat ++ toLE 8 r.size.toNat ++
    toLE 8 r.offset.toNat

def locatorBytes (offset : UInt64) : List UInt8 :=
  toLE 4 0x07064b50 ++ toLE 4 0 ++ toLE 8 offset.toNat ++ toLE 4 1

/-- The end of central directory of an archive whose counts, sizes and offsets are in the zip64
    record. -/
def endBytes : List UInt8 :=
  toLE 4 0x06054b50 ++ toLE 2 0 ++ toLE 2 0 ++ toLE 2 0xFFFF ++ toLE 2 0xFFFF ++
    toLE 4 0xFFFFFFFF ++ toLE 4 0xFFFFFFFF ++ toLE 2 0

/-! ### The decoder -/

def fileFields : Parser FileFields := do
  let flags ← u16
  let compression ← u16
  let time ← u16
  let date ← u16
  let crc32 ← u32
  let compressedSize ← u32
  let uncompressedSize ← u32
  let nameLen ← u16
  let extraLen ← u16
  pure { flags, compression, time, date, crc32, compressedSize, uncompressedSize, nameLen, extraLen }

def localHeader : Parser LocalHeader := do
  let signature ← u32
  check (signature = 0x04034b50)
  let version ← u16
  let fields ← fileFields
  let name ← bytes fields.nameLen.toNat
  let extra ← bytes fields.extraLen.toNat
  pure { version, fields, name, extra }

def centralHeader : Parser CentralHeader := do
  let signature ← u32
  check (signature = 0x02014b50)
  let madeBy ← u16
  let version ← u16
  let fields ← fileFields
  let commentLen ← u16
  let disk ← u16
  let internalAttributes ← u16
  let externalAttributes ← u32
  let offset ← u32
  let name ← bytes fields.nameLen.toNat
  let extra ← bytes fields.extraLen.toNat
  let comment ← bytes commentLen.toNat
  pure {
    madeBy, version, fields, disk, internalAttributes, externalAttributes, offset, name, extra,
    comment }

/-- The payload of the extra field with a tag, among at most `n` extra fields. -/
def extraField (tag : UInt16) : (n : Nat) → Parser (List UInt8)
  | 0 => failure
  | n + 1 => do
    let tag' ← u16
    let size ← u16
    let payload ← bytes size.toNat
    if tag' = tag then pure payload else extraField tag n

/-- A size or an offset: a field of all ones is replaced by the next zip64 value. -/
def zip64Value (field : UInt32) : Parser UInt64 :=
  if field = 0xFFFFFFFF then u64 else pure field.toUInt64

/-- The uncompressed size, the compressed size and the offset, read from the payload of the zip64
    extra field as far as the header refers to it. -/
def CentralHeader.zip64Values (h : CentralHeader) : Parser (UInt64 × UInt64 × UInt64) := do
  let uncompressedSize ← zip64Value h.fields.uncompressedSize
  let compressedSize ← zip64Value h.fields.compressedSize
  let offset ← zip64Value h.offset
  pure (uncompressedSize, compressedSize, offset)

/-- The uncompressed size, the compressed size and the offset that a central header stands for. -/
def CentralHeader.zip64 (h : CentralHeader) : Parser (UInt64 × UInt64 × UInt64) := do
  let payload ← inside (extraField 0x0001 h.extra.length) h.extra
  inside h.zip64Values payload

def descriptor : Parser Descriptor := do
  let signature ← u32
  check (signature = 0x08074b50)
  let crc32 ← u32
  let compressedSize ← u64
  let uncompressedSize ← u64
  pure { crc32, compressedSize, uncompressedSize }

def endRecord : Parser EndRecord := do
  let signature ← u32
  check (signature = 0x06064b50)
  let size ← u64
  check (size = 44)
  let madeBy ← u16
  let version ← u16
  let thisDisk ← u32
  let cdDisk ← u32
  check (thisDisk = 0 ∧ cdDisk = 0)
  let thisCount ← u64
  let count ← u64
  check (thisCount = count)
  let size ← u64
  let offset ← u64
  pure { madeBy, version, count, size, offset }

/-- The zip64 locator: the offset of the zip64 record. -/
def locator : Parser UInt64 := do
  let signature ← u32
  check (signature = 0x07064b50)
  let disk ← u32
  let offset ← u64
  let disks ← u32
  check (disk = 0 ∧ disks = 1)
  pure offset

/-- The end of central directory, of a zip64 archive without a comment. -/
def endOfDirectory : Parser Unit := do
  let signature ← u32
  check (signature = 0x06054b50)
  let disk ← u16
  let cdDisk ← u16
  check (disk = 0 ∧ cdDisk = 0)
  let thisCount ← u16
  let count ← u16
  let size ← u32
  let offset ← u32
  check (thisCount = 0xFFFF ∧ count = 0xFFFF ∧ size = 0xFFFFFFFF ∧ offset = 0xFFFFFFFF)
  let commentLen ← u16
  check (commentLen = 0)

/-- A file of an archive. -/
structure File where
  name : List UInt8
  data : List UInt8
  crc32 : UInt32
  time : UInt16
  date : UInt16
  externalAttributes : UInt32
  deriving DecidableEq, Repr

/-- The local header, the data and the data descriptor of a stored file, which must agree with its
    central header. -/
def fileAt (h : CentralHeader) (uncompressedSize compressedSize : UInt64) : Parser File := do
  let l ← localHeader
  check (l.name = h.name ∧ l.fields.time = h.fields.time ∧ l.fields.date = h.fields.date)
  check (h.fields.compression = 0 ∧ l.fields.compression = 0 ∧ compressedSize = uncompressedSize)
  -- bit 3: the sizes and the CRC are in a data descriptor
  check (l.fields.flags &&& 0x0008 = 0x0008)
  let data ← bytes compressedSize.toNat
  let d ← descriptor
  check (d.crc32 = h.fields.crc32 ∧ d.compressedSize = compressedSize ∧
    d.uncompressedSize = uncompressedSize)
  pure {
    name := h.name, data, crc32 := d.crc32, time := h.fields.time, date := h.fields.date,
    externalAttributes := h.externalAttributes }

/-- The file of a central header. -/
def CentralHeader.file (z : List UInt8) (h : CentralHeader) : Option File := do
  let ((uncompressedSize, compressedSize, offset), _) ← h.zip64 []
  let (file, _) ← fileAt h uncompressedSize compressedSize (z.drop offset.toNat)
  some file

/-- All bytes are consumed. -/
def exactly {α : Type} (p : Parser α) (input : List UInt8) : Option α :=
  match p input with
  | some (a, []) => some a
  | _ => none

/-- The files of an archive, in the order of the central directory. -/
def decode (z : List UInt8) : Option (List File) := do
  exactly endOfDirectory (z.drop (z.length - 22))
  let recordOffset ← exactly locator ((z.drop (z.length - 42)).take 20)
  let (record, _) ← endRecord (z.drop recordOffset.toNat)
  let headers ← exactly (count record.count.toNat centralHeader)
    ((z.drop record.offset.toNat).take record.size.toNat)
  headers.mapM (CentralHeader.file z)

/-! ### What the decoder reads -/

section Parses

theorem parses_fileFields (f : FileFields) : Parses fileFields f f.bytes := by
  unfold fileFields FileFields.bytes
  simp only [List.append_assoc]
  apply parses_bind (parses_u16 f.flags)
  apply parses_bind (parses_u16 f.compression)
  apply parses_bind (parses_u16 f.time)
  apply parses_bind (parses_u16 f.date)
  apply parses_bind (parses_u32 f.crc32)
  apply parses_bind (parses_u32 f.compressedSize)
  apply parses_bind (parses_u32 f.uncompressedSize)
  apply parses_bind (parses_u16 f.nameLen)
  exact parses_map (f := fun extraLen => { f with extraLen }) (parses_u16 f.extraLen)

theorem parses_localHeader {h : LocalHeader} (hname : h.name.length = h.fields.nameLen.toNat)
    (hextra : h.extra.length = h.fields.extraLen.toNat) : Parses localHeader h h.bytes := by
  unfold localHeader LocalHeader.bytes
  simp only [List.append_assoc]
  apply parses_bind (parses_u32 0x04034b50)
  apply parses_check_bind rfl
  apply parses_bind (parses_u16 h.version)
  apply parses_bind (parses_fileFields h.fields)
  apply parses_bind (parses_bytes hname)
  exact parses_map (f := fun extra => { h with extra }) (parses_bytes hextra)

theorem parses_centralHeader {h : CentralHeader}
    (hname : h.name.length = h.fields.nameLen.toNat)
    (hextra : h.extra.length = h.fields.extraLen.toNat) (hcomment : h.comment.length < 65536) :
    Parses centralHeader h h.bytes := by
  have hlen : h.comment.length = (UInt16.ofNat h.comment.length).toNat := by
    rw [UInt16.toNat_ofNat']
    omega
  unfold centralHeader CentralHeader.bytes
  simp only [List.append_assoc]
  apply parses_bind (parses_u32 0x02014b50)
  apply parses_check_bind rfl
  apply parses_bind (parses_u16 h.madeBy)
  apply parses_bind (parses_u16 h.version)
  apply parses_bind (parses_fileFields h.fields)
  rw [hlen]
  apply parses_bind (parses_u16 (UInt16.ofNat h.comment.length))
  apply parses_bind (parses_u16 h.disk)
  apply parses_bind (parses_u16 h.internalAttributes)
  apply parses_bind (parses_u32 h.externalAttributes)
  apply parses_bind (parses_u32 h.offset)
  apply parses_bind (parses_bytes hname)
  apply parses_bind (parses_bytes hextra)
  exact parses_map (f := fun comment => { h with comment }) (parses_bytes hlen)

theorem parses_descriptor (d : Descriptor) : Parses descriptor d d.bytes := by
  unfold descriptor Descriptor.bytes
  simp only [List.append_assoc]
  apply parses_bind (parses_u32 0x08074b50)
  apply parses_check_bind rfl
  apply parses_bind (parses_u32 d.crc32)
  apply parses_bind (parses_u64 d.compressedSize)
  exact parses_map (f := fun uncompressedSize => { d with uncompressedSize })
    (parses_u64 d.uncompressedSize)

theorem parses_endRecord (r : EndRecord) : Parses endRecord r r.bytes := by
  unfold endRecord EndRecord.bytes
  simp only [List.append_assoc]
  apply parses_bind (parses_u32 0x06064b50)
  apply parses_check_bind rfl
  apply parses_bind (parses_u64 44)
  apply parses_check_bind rfl
  apply parses_bind (parses_u16 r.madeBy)
  apply parses_bind (parses_u16 r.version)
  apply parses_bind (parses_u32 0)
  apply parses_bind (parses_u32 0)
  apply parses_check_bind ⟨rfl, rfl⟩
  apply parses_bind (parses_u64 r.count)
  apply parses_bind (parses_u64 r.count)
  apply parses_check_bind rfl
  apply parses_bind (parses_u64 r.size)
  exact parses_map (f := fun offset => { r with offset }) (parses_u64 r.offset)

theorem parses_locator (offset : UInt64) : Parses locator offset (locatorBytes offset) := by
  unfold locator locatorBytes
  simp only [List.append_assoc]
  apply parses_bind (parses_u32 0x07064b50)
  apply parses_check_bind rfl
  apply parses_bind (parses_u32 0)
  apply parses_bind (parses_u64 offset)
  rw [← List.append_nil (toLE 4 1)]
  apply parses_bind (parses_u32 1)
  apply parses_check_bind ⟨rfl, rfl⟩
  exact parses_pure offset

theorem parses_endOfDirectory : Parses endOfDirectory () endBytes := by
  unfold endOfDirectory endBytes
  simp only [List.append_assoc]
  apply parses_bind (parses_u32 0x06054b50)
  apply parses_check_bind rfl
  apply parses_bind (parses_u16 0)
  apply parses_bind (parses_u16 0)
  apply parses_check_bind ⟨rfl, rfl⟩
  apply parses_bind (parses_u16 0xFFFF)
  apply parses_bind (parses_u16 0xFFFF)
  apply parses_bind (parses_u32 0xFFFFFFFF)
  apply parses_bind (parses_u32 0xFFFFFFFF)
  apply parses_check_bind ⟨rfl, rfl, rfl, rfl⟩
  rw [← List.append_nil (toLE 2 0)]
  apply parses_bind (parses_u16 0)
  exact parses_check rfl

/-- The extra field with a tag, when it is the first one. -/
theorem parses_extraField (tag size : UInt16) {payload : List UInt8}
    (hsize : payload.length = size.toNat) (n : Nat) :
    Parses (extraField tag (n + 1)) payload
      (toLE 2 tag.toNat ++ toLE 2 size.toNat ++ payload) := by
  unfold extraField
  simp only [List.append_assoc]
  apply parses_bind (parses_u16 tag)
  apply parses_bind (parses_u16 size)
  simp only [if_true]
  exact parses_map (f := fun payload => payload) (parses_bytes hsize)

/-- The values of a header whose sizes and offset are all ones come from its zip64 extra field. -/
theorem CentralHeader.parses_zip64 {h : CentralHeader}
    {uncompressedSize compressedSize offset : UInt64}
    (huncompressed : h.fields.uncompressedSize = 0xFFFFFFFF)
    (hcompressed : h.fields.compressedSize = 0xFFFFFFFF) (hoffset : h.offset = 0xFFFFFFFF)
    (hextra : h.extra = extraBytes uncompressedSize compressedSize offset) :
    Parses h.zip64 (uncompressedSize, compressedSize, offset) [] := by
  -- the fuel of `extraField` is the length of the field
  have hlen : h.extra.length = 27 + 1 := by
    rw [hextra]
    simp [extraBytes]
  have hpayload : Parses (extraField 0x0001 h.extra.length)
      (toLE 8 uncompressedSize.toNat ++ toLE 8 compressedSize.toNat ++ toLE 8 offset.toNat)
      h.extra := by
    rw [hlen, hextra]
    exact parses_extraField 0x0001 24 (by simp) 27
  have hvalues : Parses h.zip64Values (uncompressedSize, compressedSize, offset)
      (toLE 8 uncompressedSize.toNat ++ toLE 8 compressedSize.toNat ++ toLE 8 offset.toNat) := by
    unfold CentralHeader.zip64Values
    simp only [zip64Value, huncompressed, hcompressed, hoffset, if_true, List.append_assoc]
    apply parses_bind (parses_u64 uncompressedSize)
    apply parses_bind (parses_u64 compressedSize)
    exact parses_map (f := fun offset => (uncompressedSize, compressedSize, offset))
      (parses_u64 offset)
  exact parses_bind (f := fun payload => inside h.zip64Values payload) (parses_inside hpayload)
    (parses_inside hvalues)

end Parses

/-! ### Decoding an archive -/

theorem exactly_eq {α : Type} {p : Parser α} {a : α} {input : List UInt8} (h : Parses p a input) :
    exactly p input = some a := by
  simp [exactly, h.run]

/-- A file is read back when its header, data and descriptor stand at the offset and agree. -/
theorem CentralHeader.file_eq {z data rest : List UInt8} {h : CentralHeader} {l : LocalHeader}
    (d : Descriptor) {size offset : UInt64} (hzip64 : Parses h.zip64 (size, size, offset) [])
    (hlocal : Parses localHeader l l.bytes)
    (hz : z.drop offset.toNat = l.bytes ++ (data ++ (d.bytes ++ rest)))
    (hsame : l.name = h.name ∧ l.fields.time = h.fields.time ∧ l.fields.date = h.fields.date)
    (hstored : h.fields.compression = 0 ∧ l.fields.compression = 0)
    (hflags : l.fields.flags &&& 0x0008 = 0x0008) (hdata : data.length = size.toNat)
    (hdescriptor : d.crc32 = h.fields.crc32 ∧ d.compressedSize = size ∧
      d.uncompressedSize = size) :
    h.file z = some {
      name := h.name, data, crc32 := d.crc32, time := h.fields.time, date := h.fields.date,
      externalAttributes := h.externalAttributes } := by
  have hfile : Parses (fileAt h size size) {
      name := h.name, data, crc32 := d.crc32, time := h.fields.time, date := h.fields.date,
      externalAttributes := h.externalAttributes } (l.bytes ++ (data ++ (d.bytes ++ []))) := by
    unfold fileAt
    apply parses_bind hlocal
    apply parses_check_bind hsame
    apply parses_check_bind ⟨hstored.1, hstored.2, rfl⟩
    apply parses_check_bind hflags
    apply parses_bind (parses_bytes hdata)
    apply parses_bind (parses_descriptor d)
    apply parses_check_bind hdescriptor
    exact parses_pure _
  have hread := hfile rest
  simp only [List.append_nil, List.append_assoc] at hread
  unfold CentralHeader.file
  rw [hzip64.run]
  simp [hz, hread]

/-- Options that are all there. -/
theorem mapM_eq_some {α β : Type} {f : α → Option β} {as : List α} {bs : List β}
    (h : List.Forall₂ (fun a b => f a = some b) as bs) : as.mapM f = some bs := by
  induction h with
  | nil => rfl
  | cons hab _ ih => simp [hab, ih]

/-- **Decoding undoes encoding**: an archive whose end leads to its central directory is decoded
    to the files of its headers. -/
theorem decode_eq (front : List UInt8) (headers : List CentralHeader) (record : EndRecord)
    (recordOffset : UInt64) {files : List File}
    (hheaders : ∀ h ∈ headers, Parses centralHeader h h.bytes)
    (hcount : record.count.toNat = headers.length) (hoffset : record.offset.toNat = front.length)
    (hsize : record.size.toNat = (headers.flatMap CentralHeader.bytes).length)
    (hrecord : recordOffset.toNat = front.length + (headers.flatMap CentralHeader.bytes).length)
    {z : List UInt8} (hz : z = front ++ (headers.flatMap CentralHeader.bytes ++
      (record.bytes ++ (locatorBytes recordOffset ++ endBytes))))
    (hfiles : List.Forall₂ (fun h file => h.file z = some file) headers files) :
    decode z = some files := by
  have hlen :
      z.length = (front ++ headers.flatMap CentralHeader.bytes ++ record.bytes).length + 42 := by
    rw [hz]
    simp [locatorBytes, endBytes]
    omega
  have hassoc : z = (front ++ headers.flatMap CentralHeader.bytes ++ record.bytes) ++
      (locatorBytes recordOffset ++ endBytes) := by
    rw [hz]
    simp
  -- the last two records have fixed sizes: 20 and 22 bytes
  have hlast : z.drop (z.length - 42) = locatorBytes recordOffset ++ endBytes := by
    rw [hlen, Nat.add_sub_cancel, hassoc, List.drop_left]
  have hlocator : (z.drop (z.length - 42)).take 20 = locatorBytes recordOffset := by
    rw [hlast]
    exact List.take_left' (by simp [locatorBytes])
  have hend : z.drop (z.length - 22) = endBytes := by
    have hsplit : z.length - 22 = z.length - 42 + 20 := by omega
    rw [hsplit, ← List.drop_drop, hlast]
    exact List.drop_left' (by simp [locatorBytes])
  have hrest :
      z.drop recordOffset.toNat = record.bytes ++ (locatorBytes recordOffset ++ endBytes) := by
    rw [hrecord, hz, ← List.drop_drop, List.drop_left, List.drop_left]
  have hdirectory : (z.drop record.offset.toNat).take record.size.toNat =
      headers.flatMap CentralHeader.bytes := by
    rw [hoffset, hsize, hz, List.drop_left, List.take_left]
  -- the directory is the headers one after the other
  have hparsed : Parses (count record.count.toNat centralHeader) headers
      (headers.flatMap CentralHeader.bytes) := by
    rw [hcount, List.flatMap_def]
    apply parses_count
    refine List.forall₂_map_right_iff.mpr ?_
    exact List.forall₂_same.mpr hheaders
  unfold decode
  rw [hend, exactly_eq parses_endOfDirectory, hlocator, exactly_eq (parses_locator recordOffset)]
  simp [hrest, parses_endRecord record _, hdirectory, exactly_eq hparsed, mapM_eq_some hfiles]

end Framework.Zip64
