import Zippity.Framework.Zip64
import Zippity.Session

/-! # Decoding what a reader delivered

    The headers of an archive are records of the ZIP64 format, and its end leads
    to them; so the decoder of the format reads back what was added.
-/

namespace Zippity

open Framework
open Exec (u64Bound)

/-- A number that fits `u64` is written and read back. -/
theorem toNat_ofNat_u64 {n : Nat} (h : n < u64Bound) : (UInt64.ofNat n).toNat = n :=
  UInt64.toNat_ofNat_of_lt' h

/-! ### Members as records of the format -/

namespace Member

/-- The fields of both headers. -/
def fileFields (m : Member) (flags : UInt16) (crc32 : UInt32) : Zip64.FileFields where
  flags := flags
  compression := 0
  time := m.datetime.time
  date := m.datetime.date
  crc32 := crc32
  compressedSize := 0xFFFFFFFF
  uncompressedSize := 0xFFFFFFFF
  nameLen := m.nameLen
  extraLen := 28

def localRecord (m : Member) : Zip64.LocalHeader where
  version := 45
  fields := m.fileFields 0x0808 0
  name := m.name
  extra := Zip64.extraBytes 0 0 (UInt64.ofNat m.offset)

def centralRecord (m : Member) : Zip64.CentralHeader where
  madeBy := 0x032D
  version := 45
  fields := m.fileFields 0x0800 m.crc
  disk := 0
  internalAttributes := 0
  externalAttributes := m.externalAttributes
  offset := 0xFFFFFFFF
  name := m.name
  extra := Zip64.extraBytes (UInt64.ofNat m.size) (UInt64.ofNat m.size) (UInt64.ofNat m.offset)
  comment := []

def descriptorRecord (m : Member) : Zip64.Descriptor where
  crc32 := m.crc
  compressedSize := UInt64.ofNat m.size
  uncompressedSize := UInt64.ofNat m.size

/-- The file that a member is read back as. -/
def file (m : Member) : Zip64.File where
  name := m.name
  data := m.data
  crc32 := m.crc
  time := m.datetime.time
  date := m.datetime.date
  externalAttributes := m.externalAttributes

theorem localBytes_eq (m : Member) : m.localBytes = m.localRecord.bytes := by
  simp only [localBytes, pack, PackedStruct.pack, localFileHeader, zip64ExtraField, le16, le32, le64,
    Zip64.LocalHeader.bytes, localRecord, fileFields, Zip64.FileFields.bytes, Zip64.extraBytes,
    List.append_assoc]
  rfl

theorem centralBytes_eq (m : Member) : m.centralBytes = m.centralRecord.bytes := by
  simp only [centralBytes, pack, PackedStruct.pack, centralDirectoryHeader, zip64ExtraField, le16,
    le32, le64, Zip64.CentralHeader.bytes, centralRecord, fileFields, Zip64.FileFields.bytes,
    Zip64.extraBytes, List.append_assoc, List.append_nil]
  rfl

theorem descriptorBytes_eq (m : Member) : m.descriptorBytes = m.descriptorRecord.bytes := rfl

variable {m : Member}

theorem length_name_eq (h : m.name.length < 65536) : m.name.length = m.nameLen.toNat := by
  rw [nameLen, UInt16.toNat_ofNat']
  omega

theorem parses_localRecord (h : m.name.length < 65536) :
    Parser.Parses Zip64.localHeader m.localRecord m.localRecord.bytes :=
  Zip64.parses_localHeader (length_name_eq h) (by simp [localRecord, fileFields, Zip64.extraBytes])

theorem parses_centralRecord (h : m.name.length < 65536) :
    Parser.Parses Zip64.centralHeader m.centralRecord m.centralRecord.bytes :=
  Zip64.parses_centralHeader (length_name_eq h)
    (by simp [centralRecord, fileFields, Zip64.extraBytes]) (by simp [centralRecord])

end Member

/-! ### Archives -/

section Archives
variable {a : Archive}

/-- The bytes in front of the central directory. -/
abbrev memberBytes (ms : List Member) : List UInt8 :=
  ms.flatMap fun m => m.localBytes ++ m.data ++ m.descriptorBytes

/-- From the offset of a member on, the archive is its header, its data and its descriptor. -/
theorem Archive.drop_offset (hhonest : ∀ m ∈ a.members, m.Honest) {i : Nat} {m : Member}
    (hm : a.members[i]? = some m) :
    ∃ rest, (archiveBytes a.members).drop m.offset =
      m.localBytes ++ (m.data ++ (m.descriptorBytes ++ rest)) := by
  have hlen : (memberBytes (a.members.take i)).length = m.offset := by
    rw [a.offsets i m hm]
    exact length_flatMap_members fun m' hm' => hhonest m' (List.mem_of_mem_take hm')
  -- the members in front, the member itself and those behind
  have hsplit : memberBytes a.members = memberBytes (a.members.take i) ++
      (m.localBytes ++ m.data ++ m.descriptorBytes ++ memberBytes (a.members.drop (i + 1))) := by
    conv_lhs => rw [← List.take_append_drop i a.members, drop_eq_cons hm]
    simp only [memberBytes, List.flatMap_append, List.flatMap_cons]
  refine ⟨memberBytes (a.members.drop (i + 1)) ++
    (a.members.flatMap Member.centralBytes ++ eocdBytes a.members), ?_⟩
  show (memberBytes a.members ++ a.members.flatMap Member.centralBytes ++
    eocdBytes a.members).drop m.offset = _
  rw [hsplit, ← hlen]
  simp only [List.append_assoc, List.drop_left]

/-- The file of a member is read back from its central header. -/
theorem Archive.file_centralRecord (hhonest : ∀ m ∈ a.members, m.Honest) {m : Member}
    (hm : m ∈ a.members) :
    m.centralRecord.file (archiveBytes a.members) = some m.file := by
  obtain ⟨i, hi⟩ := List.getElem?_of_mem hm
  obtain ⟨rest, hdrop⟩ := a.drop_offset hhonest hi
  have hsize := a.size_lt hm
  -- the offset is inside the archive
  have hoffset : m.offset < u64Bound := by
    have hlen := congrArg List.length hdrop
    have hfits := a.fits
    rw [← length_archiveBytes hhonest] at hfits
    simp only [List.length_drop, List.length_append, Member.length_localBytes,
      Member.localSize] at hlen
    omega
  have hdata : m.data.length = (UInt64.ofNat m.size).toNat := by
    rw [toNat_ofNat_u64 hsize]
    exact hhonest m hm
  have hz : (archiveBytes a.members).drop (UInt64.ofNat m.offset).toNat =
      m.localRecord.bytes ++ (m.data ++ (m.descriptorRecord.bytes ++ rest)) := by
    rw [toNat_ofNat_u64 hoffset, hdrop, m.localBytes_eq, m.descriptorBytes_eq]
  exact Zip64.CentralHeader.file_eq m.descriptorRecord
    (Zip64.CentralHeader.parses_zip64 rfl rfl rfl rfl) (Member.parses_localRecord (a.names m hm)) hz
    ⟨rfl, rfl, rfl⟩ ⟨rfl, rfl⟩ (by decide : (0x0808 : UInt16) &&& 0x0008 = 0x0008) hdata
    ⟨rfl, rfl, rfl⟩

theorem length_le_centralSizes (ms : List Member) : ms.length ≤ centralSizes ms := by
  induction ms with
  | nil => exact Nat.zero_le _
  | cons m ms ih =>
    simp only [List.length_cons, centralSizes_cons, Member.centralSize]
    omega

/-- **An honest archive is decoded** to the files of its members. -/
theorem decode_archiveBytes (hhonest : ∀ m ∈ a.members, m.Honest) :
    Zip64.decode (archiveBytes a.members) = some (a.members.map Member.file) := by
  let ms := a.members
  let record : Zip64.EndRecord := {
    madeBy := 0x032D
    version := 45
    count := UInt64.ofNat ms.length
    size := UInt64.ofNat (centralSizes ms)
    offset := UInt64.ofNat (extents ms) }
  have hfits : extents ms + centralSizes ms + 98 < u64Bound := a.fits
  have hdirectory : ms.flatMap Member.centralBytes =
      (ms.map Member.centralRecord).flatMap Zip64.CentralHeader.bytes := by
    rw [List.flatMap_map]
    exact List.flatMap_congr fun m _ => m.centralBytes_eq
  have hcentral : ((ms.map Member.centralRecord).flatMap Zip64.CentralHeader.bytes).length =
      centralSizes ms := by
    rw [← hdirectory, length_flatMap_centralBytes]
  have hcount := length_le_centralSizes ms
  have hend : eocdBytes ms = record.bytes ++
      (Zip64.locatorBytes (UInt64.ofNat (extents ms + centralSizes ms)) ++ Zip64.endBytes) := by
    simp only [eocdBytes, pack, PackedStruct.pack, zip64EndOfCentralDirectoryRecord,
      zip64EndOfCentralDirectoryLocator, endOfCentralDirectory, le16, le32, le64,
      Zip64.EndRecord.bytes, Zip64.locatorBytes, Zip64.endBytes, record, List.append_assoc]
    rfl
  apply Zip64.decode_eq (memberBytes ms) (ms.map Member.centralRecord) record
    (UInt64.ofNat (extents ms + centralSizes ms))
  -- every central record is parsed
  · intro h hh
    obtain ⟨m, hm, rfl⟩ := List.mem_map.mp hh
    exact Member.parses_centralRecord (a.names m hm)
  -- the count, the offset and the size of the directory, and the offset of its end
  · rw [List.length_map]
    exact toNat_ofNat_u64 (by omega)
  · rw [length_flatMap_members hhonest]
    exact toNat_ofNat_u64 (by omega)
  · rw [hcentral]
    exact toNat_ofNat_u64 (by omega)
  · rw [hcentral, length_flatMap_members hhonest]
    exact toNat_ofNat_u64 (by omega)
  -- the archive is cut at its directory
  · rw [← hdirectory, ← hend, archiveBytes, List.append_assoc]
  · refine List.forall₂_map_left_iff.mpr (List.forall₂_map_right_iff.mpr ?_)
    exact List.forall₂_same.mpr fun m hm => a.file_centralRecord hhonest hm

end Archives

/-! ### Complete runs -/

section Model
variable {E : EntryData} {H : Crc32Fast} {content : E.Data → List UInt8} {b : Builder E}
  {r r' : Reader E H} {ops : List (Op E)}

/-- The file that an added entry is read back as. -/
def addedFile (H : Crc32Fast) (content : E.Data → List UInt8) :
    Name × BuilderEntry E → Zip64.File
  | (name, entry) => {
    name := name
    data := content entry.data
    crc32 := H.hash (content entry.data)
    time := (entry.datetime.getD .default).time
    date := (entry.datetime.getD .default).date
    externalAttributes := getExternalAttributes entry.fileType entry.permissions }

/-- The files of the members are those of the entries that were added. -/
theorem Built.map_file {a : Archive} (h : Built content b r a)
    (hsound : ∀ m ∈ a.members, m.Sound H) :
    a.members.map Member.file = b.entries.entries.map (addedFile H content) := by
  -- by induction along the loop of `build`
  have hfiles : ∀ {sources entries}, List.Forall₂ (BuiltFrom (E := E)) sources entries →
      (∀ m ∈ entries.map (ReaderEntry.member H content), m.Sound H) →
      (entries.map (ReaderEntry.member H content)).map Member.file =
        sources.map (addedFile H content) := by
    intro sources entries hfrom hsound
    induction hfrom with
    | nil => rfl
    | @cons source entry sources entries hentry _ ih =>
      have hcrc := (hsound (entry.member H content) (by simp)).crc
      have hrest := ih fun m hm => hsound m (by simp [hm])
      simp only [List.map_cons, hrest]
      congr 1
      simp only [Member.file, addedFile, hcrc]
      simp only [ReaderEntry.member, hentry.name, hentry.data, hentry.datetime,
        hentry.externalAttributes]
  rw [h.members] at hsound ⊢
  exact hfiles h.sources hsound

/-- **Decoding undoes encoding.** What a seek-free run delivers up to the end is decoded to the
    entries that were added, in their order. -/
theorem decode_delivered (hb : b.Reached) (hbuild : b.build = .ok r)
    (hdeliver : b.Delivering content False) (hhonest : b.HonestSizes content)
    (hcrcs : b.RightCrcs content H) (hsteps : Steps r ops r')
    (hpolls : ∀ op ∈ ops, op.isPoll = true) (hend : r'.AtEnd) :
    Zip64.decode (deliveredBytes ops) = some (b.entries.entries.map (addedFile H content)) := by
  obtain ⟨a, hbuilt⟩ := hb.built content hbuild
  have hsound := hbuilt.sound hhonest hcrcs
  have hstart := hbuilt.start hdeliver
  obtain ⟨rest, hstream, hat⟩ :=
    Steps.stream hstart hsteps hpolls (Steps.succeeds hsound hstart hsteps)
  rw [hat.eq_done hend, tailAt_segments_of_sound hsound] at hstream
  -- at the end nothing of the stream is left
  have hbytes : archiveBytes a.members = deliveredBytes ops := by
    simpa [Tail.cons, Tail.done] using congrArg Tail.items hstream
  rw [← hbytes, decode_archiveBytes (hbuilt.honest hhonest), hbuilt.map_file hsound]

end Model

/-- Polls that read the whole archive of `steadyFiles`. -/
def steadyPolls : List (Action steady) :=
  [.poll true (room 30), .poll false (room 100), .poll true (room 100), .poll true (room 2),
    .poll false (room 2), .poll true (room 500), .poll true (room 500), .poll true (room 500),
    .poll true (room 500)]

theorem decode_delivered_session :
    ∃ x : Session steady crc32Ieee, session crc32Ieee steadyFiles 20 steadyPolls = some x ∧
      Zip64.decode (deliveredBytes x.ops) =
        some (x.builder.entries.entries.map (addedFile crc32Ieee PacedData.bytes)) := by
  have hrun : (session crc32Ieee steadyFiles 20 steadyPolls).map
      (fun x => (x.ops.all Op.isPoll, x.last.endTest true 20)) = some (true, true) := by
    decide +kernel
  obtain ⟨x, hx, h, hseen⟩ := exists_session hrun
  have hpolls : x.ops.all Op.isPoll = true := congrArg Prod.fst hseen
  have hend : x.last.endTest true 20 = true := congrArg Prod.snd hseen
  exact ⟨x, hx, decode_delivered h.reached h.build (h.delivering steady_ne_fail)
    (h.honestSizes (by decide)) (h.rightCrcs (by decide +kernel)) h.steps
    (List.all_eq_true.mp hpolls) (Reader.atEnd_of_endTest hend)⟩

end Zippity
