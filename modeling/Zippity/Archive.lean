import Mathlib.Algebra.Order.BigOperators.Group.List
import Zippity.CrcReader
import Zippity.Framework.Segments
import Zippity.Reader.Chunk

/-! # The archive as a byte string

    What a reader is for: a list of members, each with the bytes it contributes,
    and the archive they make up.  A member's data may be shorter or longer than
    its announced size; `Archive.segments` is the stream that is read then.

    The layout of the members is a field of `Archive`: offsets are running sums
    and everything fits `u64`, so no later proof adds them up again.
-/

namespace Zippity

open Framework Exec

/-! ### Members -/

/-- A member of an archive. -/
structure Member where
  name : Name
  datetime : DosDatetime
  externalAttributes : UInt32
  /-- Offset of the local header. -/
  offset : Nat
  /-- The announced size of the data. -/
  size : Nat
  /-- The data. -/
  data : List UInt8
  /-- The CRC that the archive carries. -/
  crc : UInt32
  deriving DecidableEq, Repr

namespace Member

/-- The length field of the name. -/
def nameLen (m : Member) : UInt16 := UInt16.ofNat m.name.length

/-- The local header with the name and the zip64 extra field. -/
def localBytes (m : Member) : List UInt8 :=
  pack (localFileHeader m.datetime m.nameLen) ++ m.name ++ pack (zip64ExtraField 0 m.offset)

/-- The data descriptor. -/
def descriptorBytes (m : Member) : List UInt8 := pack (dataDescriptor64 m.crc m.size)

/-- The central directory header with the name and the zip64 extra field. -/
def centralBytes (m : Member) : List UInt8 :=
  pack (centralDirectoryHeader m.datetime m.crc m.nameLen m.externalAttributes) ++ m.name ++
    pack (zip64ExtraField m.size m.offset)

/-- The size of the local header. -/
def localSize (m : Member) : Nat := 58 + m.name.length

/-- The size of the data descriptor. -/
def descriptorSize : Nat := 24

/-- The size of the member in front of the central directory. -/
def extent (m : Member) : Nat := m.localSize + m.size + descriptorSize

/-- The size of the central directory header. -/
def centralSize (m : Member) : Nat := 74 + m.name.length

/-- The data has its announced size. -/
def Honest (m : Member) : Prop := m.data.length = m.size

/-- The data that is read: an empty member is skipped by its size. -/
def readable (m : Member) : List UInt8 := if m.size = 0 then [] else m.data

@[simp] theorem length_localBytes (m : Member) : m.localBytes.length = m.localSize := by
  simp [localBytes, localSize]
  omega

@[simp] theorem length_descriptorBytes (m : Member) :
    m.descriptorBytes.length = descriptorSize := by
  simp [descriptorBytes, descriptorSize]

@[simp] theorem length_centralBytes (m : Member) : m.centralBytes.length = m.centralSize := by
  simp [centralBytes, centralSize]
  omega

end Member

/-! ### Layout -/

/-- The offset behind some members, or of the member after them. -/
def extents (ms : List Member) : Nat := (ms.map Member.extent).sum

/-- The size of the central directory. -/
def centralSizes (ms : List Member) : Nat := (ms.map Member.centralSize).sum

/-- The sizes of an archive. -/
def layoutSizes (ms : List Member) : Sizes where
  cdOffset := extents ms
  cdSize := centralSizes ms
  eocdOffset := extents ms + centralSizes ms
  totalSize := extents ms + centralSizes ms + 98

/-- A list of members whose offsets and bounds are those of an archive. -/
structure Archive where
  members : List Member
  /-- The members follow one another from offset 0 on. -/
  offsets : ∀ i m, members[i]? = some m → m.offset = extents (members.take i)
  /-- Names have a length that fits the `u16` field. -/
  names : ∀ m ∈ members, m.name.length < 65536
  /-- The archive has at most `u64::MAX` bytes. -/
  fits : (layoutSizes members).totalSize < u64Bound

theorem extent_le_extents {ms : List Member} {m : Member} (h : m ∈ ms) :
    m.extent ≤ (ms.map Member.extent).sum :=
  List.le_sum_of_mem (List.mem_map_of_mem h)

/-- The size of a member's data fits `u64`. -/
theorem Archive.size_lt (a : Archive) {m : Member} (h : m ∈ a.members) : m.size < u64Bound := by
  have hle := extent_le_extents h
  have hfits := a.fits
  simp only [layoutSizes, extents] at hfits
  simp only [Member.extent] at hle
  omega

/-- The end of the archive: zip64 record, zip64 locator, end of central directory. -/
def eocdBytes (ms : List Member) : List UInt8 :=
  pack (zip64EndOfCentralDirectoryRecord ms.length (layoutSizes ms)) ++
    pack (zip64EndOfCentralDirectoryLocator (layoutSizes ms)) ++ pack endOfCentralDirectory

/-- The bytes of an archive. -/
def archiveBytes (ms : List Member) : List UInt8 :=
  ms.flatMap (fun m => m.localBytes ++ m.data ++ m.descriptorBytes) ++
    ms.flatMap Member.centralBytes ++ eocdBytes ms

@[simp] theorem extents_nil : extents [] = 0 := rfl

@[simp] theorem extents_cons (m : Member) (ms : List Member) :
    extents (m :: ms) = m.extent + extents ms := by simp [extents]

@[simp] theorem centralSizes_nil : centralSizes [] = 0 := rfl

@[simp] theorem centralSizes_cons (m : Member) (ms : List Member) :
    centralSizes (m :: ms) = m.centralSize + centralSizes ms := by simp [centralSizes]

@[simp] theorem length_eocdBytes (ms : List Member) : (eocdBytes ms).length = 98 := by
  simp [eocdBytes]

theorem length_memberBytes {m : Member} (h : m.Honest) :
    (m.localBytes ++ m.data ++ m.descriptorBytes).length = m.extent := by
  have hdata : m.data.length = m.size := h
  simp [Member.extent, hdata]
  omega

theorem length_flatMap_members {ms : List Member} (h : ∀ m ∈ ms, m.Honest) :
    (ms.flatMap fun m => m.localBytes ++ m.data ++ m.descriptorBytes).length = extents ms := by
  induction ms with
  | nil => rfl
  | cons m ms ih =>
    rw [List.flatMap_cons, List.length_append, length_memberBytes (h m (by simp)),
      ih fun m' hm' => h m' (by simp [hm']), extents_cons]

theorem length_flatMap_centralBytes (ms : List Member) :
    (ms.flatMap Member.centralBytes).length = centralSizes ms := by
  induction ms with
  | nil => rfl
  | cons m ms ih =>
    rw [List.flatMap_cons, List.length_append, ih, Member.length_centralBytes, centralSizes_cons]

/-- **An honest archive has the size it announces.** -/
theorem length_archiveBytes {ms : List Member} (h : ∀ m ∈ ms, m.Honest) :
    (archiveBytes ms).length = (layoutSizes ms).totalSize := by
  rw [archiveBytes, List.length_append, List.length_append, length_flatMap_members h,
    length_flatMap_centralBytes, length_eocdBytes]
  rfl

/-! ### The stream of segments -/

section Segments
variable (H : Crc32Fast)

/-- Reading the data from its `k`-th byte on ends in an error: the size is wrong, or the CRC is
    and all of the data was hashed against it. -/
def Member.halts (m : Member) (k : Nat) : Bool :=
  decide (m.data.length ≠ m.size ∨ (k = 0 ∧ m.crc ≠ H.hash m.data))

/-- An attempt to read the data from its `k`-th byte on ends in an error, with `base` bytes counted
    in earlier attempts. -/
def Member.haltsFrom (m : Member) (base k : Nat) : Bool :=
  decide (base + max k m.data.length ≠ m.size ∨ (k = 0 ∧ m.crc ≠ H.hash m.data))

/-- In the first attempt only the length of the data counts. -/
theorem Member.haltsFrom_zero {m : Member} {k : Nat} (hk : k < m.size) :
    m.haltsFrom H 0 k = m.halts H k := by
  have hlen : 0 + max k m.data.length ≠ m.size ↔ m.data.length ≠ m.size := by omega
  simp only [haltsFrom, halts, hlen]

/-- A member of another size halts the stream, wherever it is entered. -/
theorem Member.halts_of_not_honest {m : Member} (h : ¬ m.Honest) (k : Nat) : m.halts H k = true :=
  decide_eq_true (.inl h)

/-- The data of a member, announced with its size. -/
def Member.dataSegment (m : Member) : Segment UInt8 where
  size := m.size
  items := m.data
  halts := m.halts H

/-- What a member contributes in front of the central directory. -/
def Member.segments (m : Member) : List (Segment UInt8) :=
  [.plain m.localBytes, m.dataSegment H, .plain m.descriptorBytes]

/-- The central directory and the end of the archive. -/
def directory (ms : List Member) : List (Segment UInt8) :=
  ms.map (fun m => .plain m.centralBytes) ++ [.plain (eocdBytes ms)]

variable (ms : List Member)

/-- The segments from a chunk on. -/
def segmentsFrom : Chunk → List (Segment UInt8)
  | .localHeader i => (ms.drop i).flatMap (Member.segments H) ++ directory ms
  -- the local header is the first of the three segments of a member
  | .entryData i => ((ms.drop i).flatMap (Member.segments H)).drop 1 ++ directory ms
  | .dataDescriptor i => ((ms.drop i).flatMap (Member.segments H)).drop 2 ++ directory ms
  | .cdFileHeader i => (directory ms).drop i
  | .eocd => [.plain (eocdBytes ms)]
  | .finished => []

/-- All segments of an archive. -/
def segments : List (Segment UInt8) := ms.flatMap (Member.segments H) ++ directory ms

end Segments

/-! ### The chain of chunks -/

namespace Chunk

/-- The entry that a chunk belongs to exists. -/
def Located (count : Nat) : Chunk → Prop
  | .localHeader i | .entryData i | .dataDescriptor i | .cdFileHeader i => i < count
  | .eocd | .finished => True

/-- The chunk is a header, whose bytes are known before it is read. -/
def IsHeader : Chunk → Prop
  | .localHeader _ | .dataDescriptor _ | .cdFileHeader _ | .eocd => True
  | .entryData _ | .finished => False

theorem IsHeader.ne_finished {c : Chunk} (h : c.IsHeader) : c ≠ .finished := by
  intro hc
  rw [hc] at h
  exact h

/-- The chunk after a chunk. -/
def succ (count : Nat) : Chunk → Chunk
  | .localHeader i => .entryData i
  | .entryData i => .dataDescriptor i
  | .dataDescriptor i => if i + 1 < count then .localHeader (i + 1) else .cdFileHeader 0
  | .cdFileHeader i => if i + 1 < count then .cdFileHeader (i + 1) else .eocd
  | .eocd | .finished => .finished

/-- An upper bound on the number of chunks from a chunk on. -/
def rank (count : Nat) : Chunk → Nat
  -- three chunks for each member left, and one in the central directory
  | .localHeader i => 3 * (count - i) + count + 2
  | .entryData i => 3 * (count - i) + count + 1
  | .dataDescriptor i => 3 * (count - i) + count
  | .cdFileHeader i => count - i + 1
  | .eocd => 1
  | .finished => 0

theorem rank_succ_lt {count : Nat} {c : Chunk} (h : c.Located count) (hc : c ≠ .finished) :
    (c.succ count).rank count < c.rank count := by
  cases c with
  | localHeader i => simp only [succ, rank]; omega
  | entryData i => simp only [succ, rank]; omega
  | dataDescriptor i =>
    simp only [Located] at h
    simp only [succ]
    split <;> simp only [rank] <;> omega
  | cdFileHeader i =>
    simp only [Located] at h
    simp only [succ]
    split <;> simp only [rank] <;> omega
  | eocd => simp [succ, rank]
  | finished => exact absurd rfl hc

theorem succ_located {count : Nat} {c : Chunk} (h : c.Located count) :
    (c.succ count).Located count := by
  cases c with
  | localHeader i => exact h
  | entryData i => exact h
  | dataDescriptor i =>
    simp only [Located] at h
    simp only [succ]
    split
    · next hi => exact hi
    · exact Nat.lt_of_le_of_lt (Nat.zero_le i) h
  | cdFileHeader i =>
    simp only [succ]
    split
    · next hi => exact hi
    · trivial
  | eocd => trivial
  | finished => trivial

section Order
variable {count : Nat} {c d : Chunk}

/-- No two chunks have the same rank. -/
theorem eq_of_rank_eq (hc : c.Located count) (hd : d.Located count)
    (h : c.rank count = d.rank count) : c = d := by
  cases c <;> cases d <;> simp only [Located, rank] at hc hd h <;> first | rfl | (congr 1; omega)

/-- No chunk is between a chunk and its successor. -/
theorem rank_le_rank_succ (hc : c.Located count) (hd : d.Located count)
    (h : d.rank count < c.rank count) : d.rank count ≤ (c.succ count).rank count := by
  cases c with
  -- the last descriptor and the last central header lead to another kind of chunk
  | dataDescriptor i =>
    rw [succ]
    split <;> cases d <;> simp only [Located, rank] at hc hd h ⊢ <;> omega
  | cdFileHeader i =>
    rw [succ]
    split <;> cases d <;> simp only [Located, rank] at hc hd h ⊢ <;> omega
  | _ => cases d <;> simp only [succ, Located, rank] at hc hd h ⊢ <;> omega

end Order

end Chunk

section Chain
variable {H : Crc32Fast} {ms : List Member} {i : Nat} {m : Member}

theorem drop_eq_cons (h : ms[i]? = some m) : ms.drop i = m :: ms.drop (i + 1) := by
  obtain ⟨hi, rfl⟩ := List.getElem?_eq_some_iff.mp h
  exact List.drop_eq_getElem_cons hi

theorem segmentsFrom_new :
    segmentsFrom H ms (if ms.isEmpty then .eocd else .localHeader 0) = segments H ms := by
  cases ms with
  | nil => rfl
  | cons m ms => rfl

/-- The segment of a chunk. -/
def segmentOf (H : Crc32Fast) (ms : List Member) : Chunk → Segment UInt8
  | .localHeader i => (ms[i]?).elim (.plain []) fun m => .plain m.localBytes
  | .entryData i => (ms[i]?).elim (.plain []) fun m => m.dataSegment H
  | .dataDescriptor i => (ms[i]?).elim (.plain []) fun m => .plain m.descriptorBytes
  | .cdFileHeader i => (ms[i]?).elim (.plain []) fun m => .plain m.centralBytes
  | .eocd => .plain (eocdBytes ms)
  | .finished => .plain []

theorem segmentsFrom_dataDescriptor (h : ms[i]? = some m) :
    segmentsFrom H ms (.dataDescriptor i) =
      .plain m.descriptorBytes ::
        segmentsFrom H ms (Chunk.succ ms.length (.dataDescriptor i)) := by
  have hcons : segmentsFrom H ms (.dataDescriptor i) = .plain m.descriptorBytes ::
      ((ms.drop (i + 1)).flatMap (Member.segments H) ++ directory ms) := by
    simp [segmentsFrom, drop_eq_cons h, Member.segments]
  rw [hcons, Chunk.succ]
  by_cases hi : i + 1 < ms.length
  · rw [if_pos hi, segmentsFrom]
  -- behind the last member the directory begins
  · rw [if_neg hi, segmentsFrom, List.drop_eq_nil_of_le (Nat.le_of_not_lt hi)]
    rfl

theorem segmentsFrom_cdFileHeader (h : ms[i]? = some m) :
    segmentsFrom H ms (.cdFileHeader i) =
      .plain m.centralBytes :: segmentsFrom H ms (Chunk.succ ms.length (.cdFileHeader i)) := by
  obtain ⟨hi, rfl⟩ := List.getElem?_eq_some_iff.mp h
  have hdir : i < (directory ms).length := by simp [directory]; omega
  have hget : (directory ms)[i] = .plain ms[i].centralBytes := by
    simp [directory, List.getElem_append_left, hi]
  rw [segmentsFrom, List.drop_eq_getElem_cons hdir, hget, Chunk.succ]
  by_cases hlast : i + 1 < ms.length
  · rw [if_pos hlast, segmentsFrom]
  -- behind the last header the end of the archive is left
  · have heq : i + 1 = (ms.map fun m => Segment.plain m.centralBytes).length := by simp; omega
    rw [if_neg hlast, segmentsFrom, directory, heq, List.drop_left]

/-- The segments from a chunk on are its own and those from the next chunk on. -/
theorem segmentsFrom_eq_cons {c : Chunk} (h : c.Located ms.length) (hc : c ≠ .finished) :
    segmentsFrom H ms c = segmentOf H ms c :: segmentsFrom H ms (c.succ ms.length) := by
  cases c with
  | localHeader i =>
    have hi : ms[i]? = some ms[i] := List.getElem?_eq_getElem h
    simp [segmentOf, hi, Chunk.succ, segmentsFrom, drop_eq_cons hi, Member.segments]
  | entryData i =>
    have hi : ms[i]? = some ms[i] := List.getElem?_eq_getElem h
    simp [segmentOf, hi, Chunk.succ, segmentsFrom, drop_eq_cons hi, Member.segments]
  | dataDescriptor i =>
    have hi : ms[i]? = some ms[i] := List.getElem?_eq_getElem h
    rw [segmentsFrom_dataDescriptor hi]
    simp [segmentOf, hi]
  | cdFileHeader i =>
    have hi : ms[i]? = some ms[i] := List.getElem?_eq_getElem h
    rw [segmentsFrom_cdFileHeader hi]
    simp [segmentOf, hi]
  | eocd => rfl
  | finished => exact absurd rfl hc

end Chain

/-! ### Where the chunks start -/

section Starts
variable {H : Crc32Fast} {ms : List Member}

/-- The position of a chunk in the archive. -/
def chunkStart (ms : List Member) : Chunk → Nat
  | .localHeader i => extents (ms.take i)
  | .entryData i => extents (ms.take i) + (ms[i]?).elim 0 Member.localSize
  | .dataDescriptor i => extents (ms.take i) + (ms[i]?).elim 0 fun m => m.localSize + m.size
  | .cdFileHeader i => extents ms + centralSizes (ms.take i)
  | .eocd => extents ms + centralSizes ms
  | .finished => (layoutSizes ms).totalSize

theorem extents_append (ms ms' : List Member) : extents (ms ++ ms') = extents ms + extents ms' := by
  simp [extents]

theorem extents_take_succ {i : Nat} (h : i < ms.length) :
    extents (ms.take (i + 1)) = extents (ms.take i) + ms[i].extent := by
  rw [← List.take_concat_get' ms i h, extents_append, extents_cons, extents_nil, Nat.add_zero]

theorem centralSizes_take_succ {i : Nat} (h : i < ms.length) :
    centralSizes (ms.take (i + 1)) = centralSizes (ms.take i) + ms[i].centralSize := by
  rw [← List.take_concat_get' ms i h]
  simp only [centralSizes, List.map_append, List.sum_append, List.map_cons, List.map_nil,
    List.sum_cons, List.sum_nil, Nat.add_zero]

theorem extents_take_lt {i j : Nat} (hij : i < j) (hj : j < ms.length) :
    extents (ms.take i) < extents (ms.take j) := by
  induction j with
  | zero => omega
  | succ j ih =>
    rw [extents_take_succ (by omega)]
    have hpos : 0 < ms[j].extent := by simp only [Member.extent, Member.descriptorSize]; omega
    by_cases heq : i = j
    · subst heq; omega
    · have := ih (by omega) (by omega)
      omega

/-- **A chunk starts where the one before it ends.** -/
theorem chunkStart_succ {c : Chunk} (h : c.Located ms.length) (hc : c ≠ .finished) :
    chunkStart ms (c.succ ms.length) = chunkStart ms c + (segmentOf H ms c).size := by
  cases c with
  | localHeader i =>
    have hi : ms[i]? = some ms[i] := List.getElem?_eq_getElem h
    simp [Chunk.succ, chunkStart, segmentOf, hi, Segment.plain]
  | entryData i =>
    have hi : ms[i]? = some ms[i] := List.getElem?_eq_getElem h
    simp [Chunk.succ, chunkStart, segmentOf, hi, Member.dataSegment]
    omega
  | dataDescriptor i =>
    have hlt : i < ms.length := h
    have hi : ms[i]? = some ms[i] := List.getElem?_eq_getElem hlt
    have hnext := extents_take_succ hlt
    simp only [Member.extent] at hnext
    simp only [Chunk.succ, segmentOf, hi, Option.elim_some, Segment.plain,
      Member.length_descriptorBytes, chunkStart]
    by_cases hlast : i + 1 < ms.length
    · rw [if_pos hlast]
      dsimp only
      omega
    -- the last member ends where the directory starts
    · have hall : ms.take (i + 1) = ms := List.take_of_length_le (by omega)
      rw [if_neg hlast]
      simp only [List.take_zero, centralSizes_nil]
      rw [hall] at hnext
      omega
  | cdFileHeader i =>
    have hlt : i < ms.length := h
    have hi : ms[i]? = some ms[i] := List.getElem?_eq_getElem hlt
    have hnext := centralSizes_take_succ hlt
    simp only [Chunk.succ, segmentOf, hi, Option.elim_some, Segment.plain,
      Member.length_centralBytes, chunkStart]
    by_cases hlast : i + 1 < ms.length
    · rw [if_pos hlast]
      dsimp only
      omega
    · have hall : ms.take (i + 1) = ms := List.take_of_length_le (by omega)
      rw [if_neg hlast]
      dsimp only
      rw [hall] at hnext
      omega
  | eocd => simp [Chunk.succ, chunkStart, segmentOf, Segment.plain, layoutSizes]
  | finished => exact absurd rfl hc

end Starts

/-! ### Positions in the stream -/

section Positions
variable {H : Crc32Fast} {ms : List Member}

theorem sum_size_memberSegments (ms : List Member) :
    ((ms.flatMap (Member.segments H)).map Segment.size).sum = extents ms := by
  induction ms with
  | nil => rfl
  | cons m ms ih =>
    rw [List.flatMap_cons, List.map_append, List.sum_append, ih, extents_cons]
    simp [Member.segments, Segment.plain, Member.dataSegment, Member.extent]
    omega

theorem sum_size_centralSegments (ms : List Member) :
    ((ms.map fun m => Segment.plain m.centralBytes).map Segment.size).sum = centralSizes ms := by
  induction ms with
  | nil => rfl
  | cons m ms ih =>
    simp only [List.map_cons, List.sum_cons, centralSizes_cons] at ih ⊢
    rw [ih]
    simp [Segment.plain]

/-- The announced size of the stream is that of the archive. -/
theorem sum_size_segments (ms : List Member) :
    ((segments H ms).map Segment.size).sum = (layoutSizes ms).totalSize := by
  rw [segments, directory, List.map_append, List.sum_append, sum_size_memberSegments,
    List.map_append, List.sum_append, sum_size_centralSegments]
  simp [Segment.plain, layoutSizes]
  omega

/-- The members in front of the `i`-th one, and the segments from there on. -/
theorem segments_eq_append (i : Nat) :
    segments H ms =
      (ms.take i).flatMap (Member.segments H) ++ segmentsFrom H ms (.localHeader i) := by
  rw [segmentsFrom, ← List.append_assoc, ← List.flatMap_append, List.take_append_drop]
  rfl

/-- A position in or behind the `i`-th member. -/
theorem tailAt_localHeader (i k : Nat) :
    tailAt (segments H ms) (extents (ms.take i) + k) =
      tailAt (segmentsFrom H ms (.localHeader i)) k := by
  rw [segments_eq_append i, ← sum_size_memberSegments (H := H), tailAt_append]

/-- A position in or behind the central directory. -/
theorem tailAt_cdFileHeader (k : Nat) :
    tailAt (segments H ms) (extents ms + k) = tailAt (segmentsFrom H ms (.cdFileHeader 0)) k := by
  rw [segments, ← sum_size_memberSegments (H := H), tailAt_append]
  rfl

/-- A position in or behind the end of the archive. -/
theorem tailAt_eocd (k : Nat) :
    tailAt (segments H ms) (extents ms + centralSizes ms + k) =
      tailAt (segmentsFrom H ms .eocd) k := by
  rw [Nat.add_assoc, tailAt_cdFileHeader, segmentsFrom, List.drop_zero, directory,
    ← sum_size_centralSegments, tailAt_append]
  rfl

/-- The data of a member from its start on. -/
theorem tailAt_dataSegment (m : Member) (segs : List (Segment UInt8)) :
    tailAt (m.dataSegment H :: segs) 0 =
      .cons m.readable (if m.size ≠ 0 ∧ m.halts H 0 then .halted else tailAt segs 0) := by
  by_cases hsize : m.size = 0
  -- an empty chunk is skipped, so its data is not looked at
  · rw [tailAt_skip (Nat.le_of_eq hsize), Nat.zero_sub, if_neg (fun h => h.1 hsize),
      Member.readable, if_pos hsize, Tail.cons_nil]
  · rw [tailAt_enter (Nat.pos_of_ne_zero hsize), Member.readable, if_neg hsize]
    simp only [ne_eq, hsize, not_false_eq_true, true_and]
    rfl

/-- A position in the local header or the data of a member. -/
theorem tailAt_member {i k : Nat} {m : Member} (hm : ms[i]? = some m)
    (hk : k < m.localSize + m.size) :
    tailAt (segments H ms) (extents (ms.take i) + k) =
      .cons ((m.localBytes ++ m.readable).drop k)
        (if m.size ≠ 0 ∧ m.halts H (k - m.localSize) then .halted
          else tailAt (segmentsFrom H ms (.dataDescriptor i)) 0) := by
  have hsplit : segmentsFrom H ms (.localHeader i) = .plain m.localBytes :: m.dataSegment H ::
      segmentsFrom H ms (.dataDescriptor i) := by
    simp [segmentsFrom, drop_eq_cons hm, Member.segments]
  have hlocal : (Segment.plain m.localBytes).size = m.localSize := m.length_localBytes
  have hlen : m.localBytes.length = m.localSize := m.length_localBytes
  rw [tailAt_localHeader, hsplit]
  by_cases hk' : k < m.localSize
  · -- in the local header
    have hzero : k - m.localSize = 0 := by omega
    rw [tailAt_enter (by rw [hlocal]; exact hk'), List.drop_append_of_le_length (by omega),
      Tail.cons_append, hzero, ← tailAt_dataSegment]
    rfl
  · -- in the data, which is not empty
    have hsize : m.size ≠ 0 := by omega
    have hdata : k - m.localSize < (m.dataSegment H).size := by
      show k - m.localSize < m.size
      omega
    have hnil : m.localBytes.drop k = [] := List.drop_eq_nil_of_le (by omega)
    rw [tailAt_skip (by rw [hlocal]; omega), hlocal, tailAt_enter hdata, List.drop_append, hlen,
      hnil, List.nil_append, Member.readable, if_neg hsize]
    simp only [ne_eq, hsize, not_false_eq_true, true_and]
    rfl

/-- The member has its announced size and the CRC of its data. -/
structure Member.Sound (H : Crc32Fast) (m : Member) : Prop where
  honest : m.Honest
  crc : m.crc = H.hash m.data

theorem Member.Sound.exact {m : Member} (h : m.Sound H) : (m.dataSegment H).Exact where
  size := h.honest
  halts k := by
    have hlen : m.data.length = m.size := h.honest
    simp [dataSegment, halts, hlen, h.crc]

/-- A segment of an archive holds known bytes or the data of a member. -/
theorem mem_segments {seg : Segment UInt8} (hseg : seg ∈ segments H ms) :
    (∃ items, seg = .plain items) ∨ ∃ m ∈ ms, seg = m.dataSegment H := by
  rcases List.mem_append.mp hseg with hmem | hdir
  · obtain ⟨m, hm, hseg⟩ := List.mem_flatMap.mp hmem
    rcases List.mem_cons.mp hseg with rfl | hseg
    · exact .inl ⟨_, rfl⟩
    rcases List.mem_cons.mp hseg with rfl | hseg
    · exact .inr ⟨m, hm, rfl⟩
    · exact .inl ⟨_, List.mem_singleton.mp hseg⟩
  · rcases List.mem_append.mp hdir with hcentral | heocd
    · obtain ⟨m, _, rfl⟩ := List.mem_map.mp hcentral
      exact .inl ⟨_, rfl⟩
    · exact .inl ⟨_, List.mem_singleton.mp heocd⟩

theorem exact_of_mem_segments (h : ∀ m ∈ ms, m.Sound H) :
    ∀ seg ∈ segments H ms, seg.Exact := by
  intro seg hseg
  rcases mem_segments hseg with ⟨items, rfl⟩ | ⟨m, hm, rfl⟩
  · exact Segment.exact_plain _
  · exact (h m hm).exact

theorem items_segments (ms : List Member) :
    (segments H ms).flatMap Segment.items = archiveBytes ms := by
  have hmembers : (ms.flatMap (Member.segments H)).flatMap Segment.items =
      ms.flatMap fun m => m.localBytes ++ m.data ++ m.descriptorBytes := by
    rw [List.flatMap_assoc]
    simp [Member.segments, Segment.plain, Member.dataSegment]
  have hcentral : (ms.map fun m => Segment.plain m.centralBytes).flatMap Segment.items =
      ms.flatMap Member.centralBytes := by
    rw [List.flatMap_map]
    rfl
  rw [segments, directory, List.flatMap_append, List.flatMap_append, hmembers, hcentral,
    archiveBytes, List.append_assoc]
  simp [Segment.plain]

/-- **The stream of a sound archive is its bytes**: from position `k` on, all but the first `k`. -/
theorem tailAt_segments_of_sound (h : ∀ m ∈ ms, m.Sound H) (k : Nat) :
    tailAt (segments H ms) k = ⟨(archiveBytes ms).drop k, true⟩ := by
  rw [tailAt_eq_drop (exact_of_mem_segments h), items_segments]

end Positions

end Zippity
