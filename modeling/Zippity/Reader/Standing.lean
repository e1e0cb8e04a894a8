import Zippity.Reader.EntrySpec
import Zippity.Reader.HeaderSpec
import Zippity.Reader.Reader

/-! # Where a reader stands in the stream

    `InStream` relates a state of the read loop to what is left of the stream
    of its archive: the invariant over chunk, processed bytes, bytes to skip,
    staging buffer and pinned slot, in one place.
-/

namespace Zippity

open Framework Async
open Exec (u64Bound addU64 subU64 assert)

section Model
variable {E : EntryData} {H : Crc32Fast}

/-! ### Entries and members -/

/-- The entries have the metadata of the members, in order. -/
structure Listed (ms : List Member) (entries : List (ReaderEntry E)) : Prop where
  length : entries.length = ms.length
  describes : ∀ (i : Nat) entry m, entries[i]? = some entry → ms[i]? = some m → Describes entry m

/-- The entries are those of the members, in order. -/
structure Stocked (H : Crc32Fast) (mayFail : Prop) (ms : List Member)
    (entries : List (ReaderEntry E)) : Prop where
  length : entries.length = ms.length
  represents : ∀ (i : Nat) entry m, entries[i]? = some entry → ms[i]? = some m →
    Represents H mayFail entry m

/-- The entries are the same, and every CRC that was known is still known. -/
structure Caches (entries entries' : List (ReaderEntry E)) : Prop where
  length : entries'.length = entries.length
  keeps : ∀ (i : Nat) (entry entry' : ReaderEntry E), entries[i]? = some entry →
    entries'[i]? = some entry' →
    entry'.name = entry.name ∧ ∀ crc, entry.crc32 = some crc → entry'.crc32 = some crc

theorem Caches.refl (entries : List (ReaderEntry E)) : Caches entries entries where
  length := rfl
  keeps i entry entry' h h' := by
    rw [h] at h'
    cases h'
    exact ⟨rfl, fun _ hcrc => hcrc⟩

theorem Caches.trans {entries entries' entries'' : List (ReaderEntry E)}
    (h : Caches entries entries') (h' : Caches entries' entries'') : Caches entries entries'' where
  length := h'.length.trans h.length
  keeps i entry entry'' hi hi'' := by
    have hlt : i < entries'.length := by
      have := (List.getElem?_eq_some_iff.mp hi).1
      rw [h.length]
      exact this
    have hi' := List.getElem?_eq_getElem hlt
    obtain ⟨hname, hcrc⟩ := h.keeps i entry _ hi hi'
    obtain ⟨hname', hcrc'⟩ := h'.keeps i _ entry'' hi' hi''
    exact ⟨hname'.trans hname, fun crc hc => hcrc' crc (hcrc crc hc)⟩

section Stocked
variable {mayFail : Prop} {ms : List Member} {entries : List (ReaderEntry E)} {i : Nat} {m : Member}

theorem Stocked.listed (h : Stocked H mayFail ms entries) : Listed ms entries :=
  ⟨h.length, fun i entry m hentry hm => (h.represents i entry m hentry hm).toDescribes⟩

/-- The entries have the names of the members. -/
theorem Listed.map_name (h : Listed ms entries) :
    entries.map ReaderEntry.name = ms.map Member.name := by
  apply List.ext_getElem
  · rw [List.length_map, List.length_map, h.length]
  · intro i hi hi'
    rw [List.length_map] at hi hi'
    rw [List.getElem_map, List.getElem_map]
    exact (h.describes i _ _ (List.getElem?_eq_getElem hi) (List.getElem?_eq_getElem hi')).name

theorem Stocked.entry (h : Stocked H mayFail ms entries) (hm : ms[i]? = some m) :
    ∃ entry, entries[i]? = some entry ∧ Represents H mayFail entry m := by
  have hlt : i < entries.length := by
    have := (List.getElem?_eq_some_iff.mp hm).1
    rw [h.length]
    exact this
  have hi := List.getElem?_eq_getElem hlt
  exact ⟨_, hi, h.represents i _ m hi hm⟩

/-- Storing the CRC of a member in its entry. -/
theorem Stocked.setCrc (h : Stocked H mayFail ms entries) {entry : ReaderEntry E}
    (hentry : entries[i]? = some entry) (hm : ms[i]? = some m) {crc : Option UInt32}
    (hcrc : crc = entry.crc32 ∨ crc = some m.crc) :
    Stocked H mayFail ms (entries.set i { entry with crc32 := crc }) := by
  have hrep := h.represents i entry m hentry hm
  have hset : Represents H mayFail { entry with crc32 := crc } m := by
    rcases hcrc with rfl | rfl
    · exact hrep
    · exact hrep.setCrc
  refine ⟨by rw [List.length_set, h.length], fun j entry' m' hj hm' => ?_⟩
  -- only the `i`-th entry changes
  by_cases hij : i = j
  · subst hij
    rw [hm] at hm'
    cases hm'
    rw [List.getElem?_set_self (List.getElem?_eq_some_iff.mp hentry).1] at hj
    cases hj
    exact hset
  · rw [List.getElem?_set_ne hij] at hj
    exact h.represents j entry' m' hj hm'

theorem Stocked.caches_setCrc (h : Stocked H mayFail ms entries) {entry : ReaderEntry E}
    (hentry : entries[i]? = some entry) (hm : ms[i]? = some m) {crc : Option UInt32}
    (hcrc : crc = entry.crc32 ∨ crc = some m.crc) :
    Caches entries (entries.set i { entry with crc32 := crc }) := by
  have hrep := h.represents i entry m hentry hm
  refine ⟨List.length_set, fun j entry' entry'' hj hj' => ?_⟩
  by_cases hij : i = j
  · subst hij
    rw [hentry] at hj
    cases hj
    rw [List.getElem?_set_self (List.getElem?_eq_some_iff.mp hentry).1] at hj'
    cases hj'
    refine ⟨rfl, fun c hc => ?_⟩
    rcases hcrc with rfl | rfl
    · exact hc
    · rw [hrep.crc c hc]
  · rw [List.getElem?_set_ne hij] at hj'
    rw [hj] at hj'
    cases hj'
    exact ⟨rfl, fun _ hc => hc⟩

end Stocked

/-! ### Chunks -/

section Chunks
variable {a : Archive} {entries : List (ReaderEntry E)}

/-- An entry of an archive has a member, with a name that fits its field. -/
theorem Listed.exists_entry (h : Listed a.members entries) {i : Nat} (hi : i < a.members.length) :
    ∃ m entry, a.members[i]? = some m ∧ entries[i]? = some entry ∧ Describes entry m ∧
      entry.name.length < 65536 := by
  have hm := List.getElem?_eq_getElem hi
  have hentry := List.getElem?_eq_getElem (h.length ▸ hi : i < entries.length)
  have hdescribes := h.describes i _ _ hentry hm
  refine ⟨_, _, hm, hentry, hdescribes, ?_⟩
  rw [hdescribes.name]
  exact a.names _ (List.getElem_mem hi)

/-- `Chunk::size` is the announced size of the segment. -/
theorem chunkSize_eq (h : Listed a.members entries) {c : Chunk}
    (hc : c.Located a.members.length) (hfin : c ≠ .finished) :
    c.size entries = .ok (segmentOf H a.members c).size := by
  cases c with
  | localHeader i =>
    obtain ⟨m, entry, hm, hentry, hrep, hname⟩ := h.exists_entry hc
    rw [hrep.name] at hname
    simp only [Chunk.size, entryAt_eq hentry, Exec.ok_bind, hrep.name, packedSize_localFileHeader,
      packedSize_zip64ExtraField, segmentOf, hm, Option.elim_some, Segment.plain,
      Member.length_localBytes, Member.localSize]
    rw [Exec.addU64_eq (by simp only [u64Bound]; omega), Exec.ok_bind,
      Exec.addU64_eq (by simp only [u64Bound]; omega)]
    congr 1
    omega
  | entryData i =>
    obtain ⟨m, entry, hm, hentry, hrep, _⟩ := h.exists_entry hc
    simp [Chunk.size, entryAt_eq hentry, segmentOf, hm, Member.dataSegment, hrep.size]
  | dataDescriptor i =>
    obtain ⟨m, _, hm, _⟩ := h.exists_entry hc
    simp [Chunk.size, segmentOf, hm, Segment.plain, Member.descriptorSize]
  | cdFileHeader i =>
    obtain ⟨m, entry, hm, hentry, hrep, hname⟩ := h.exists_entry hc
    rw [hrep.name] at hname
    simp only [Chunk.size, entryAt_eq hentry, Exec.ok_bind, hrep.name,
      packedSize_centralDirectoryHeader, packedSize_zip64ExtraField, segmentOf, hm,
      Option.elim_some, Segment.plain, Member.length_centralBytes, Member.centralSize]
    rw [Exec.addU64_eq (by simp only [u64Bound]; omega), Exec.ok_bind,
      Exec.addU64_eq (by simp only [u64Bound]; omega)]
    congr 1
    omega
  | eocd =>
    simp [Chunk.size, segmentOf, Segment.plain]
    rfl
  | finished => exact absurd rfl hfin

/-- `Chunk::next` is the next chunk. -/
theorem chunkNext_eq (h : entries.length = a.members.length) {c : Chunk} (hfin : c ≠ .finished) :
    c.next entries = .ok (c.succ a.members.length) := by
  cases c with
  | dataDescriptor i =>
    simp only [Chunk.next, Chunk.succ, h]
    split <;> rfl
  | cdFileHeader i =>
    simp only [Chunk.next, Chunk.succ, h]
    split <;> rfl
  | finished => exact absurd rfl hfin
  | _ => rfl

theorem chunkNew_eq (h : entries.length = a.members.length) :
    Chunk.new entries = if a.members.isEmpty then .eocd else .localHeader 0 := by
  unfold Chunk.new
  cases entries with
  | nil =>
    have : a.members = [] := List.length_eq_zero_iff.mp h.symm
    simp [this]
  | cons entry entries =>
    cases hms : a.members with
    | nil => simp [hms] at h
    | cons m ms => rfl

end Chunks

/-! ### The invariant -/

/-- What is staged ends the bytes of one header: the one before the current chunk. -/
def EndsHeader (H : Crc32Fast) (ms : List Member) (rs : ReadState) : Prop :=
  ∃ c : Chunk, c.IsHeader ∧ c.Located ms.length ∧ c.succ ms.length = rs.currentChunk ∧
    rs.stagingBuffer <:+ (segmentOf H ms c).items

/-- Where a read state with a slot stands: what is left of the stream. -/
inductive Stands (H : Crc32Fast) (mayFail : Prop) (a : Archive) (entries : List (ReaderEntry E))
    (rs : ReadState) : ReaderPinned E H → Tail UInt8 → Prop where
  /-- Bytes are staged; they come before the current chunk. -/
  | staged (hlocated : rs.currentChunk.Located a.members.length)
    (hprocessed : rs.chunkProcessedSize = 0)
    (hskip : rs.toSkip < rs.stagingBuffer.length) (hbound : rs.stagingBuffer.length < 2 ^ 63)
    (hheader : EndsHeader H a.members rs) :
    Stands H mayFail a entries rs .nothing (.cons (rs.stagingBuffer.drop rs.toSkip)
      (tailAt (segmentsFrom H a.members rs.currentChunk) 0))
  /-- Nothing of the current chunk was read. -/
  | ready (hlocated : rs.currentChunk.Located a.members.length)
    (hprocessed : rs.chunkProcessedSize = 0)
    (hempty : rs.stagingBuffer = []) :
    Stands H mayFail a entries rs .nothing
      (tailAt (segmentsFrom H a.members rs.currentChunk) rs.toSkip)
  /-- The CRC that the current chunk needs is being computed. -/
  | hashing {i n : Nat} {entry : ReaderEntry E} {m : Member} {slot : ReaderPinned E H}
    (hchunk : rs.currentChunk = .dataDescriptor i ∨ rs.currentChunk = .cdFileHeader i)
    (hprocessed : rs.chunkProcessedSize = 0) (hempty : rs.stagingBuffer = [])
    (hentry : entries[i]? = some entry) (hm : a.members[i]? = some m)
    (hcrc : entry.crc32 = none) (hsize : m.size ≠ 0)
    (hslot : SlotAt mayFail entry.data m.data slot n)
    (hskip : rs.toSkip < (segmentOf H a.members rs.currentChunk).size) :
    Stands H mayFail a entries rs slot
      (tailAt (segmentsFrom H a.members rs.currentChunk) rs.toSkip)
  /-- The data of the current chunk is being read. -/
  | reading {i base k n : Nat} {entry : ReaderEntry E} {m : Member} {slot : ReaderPinned E H}
    (hchunk : rs.currentChunk = .entryData i) (hempty : rs.stagingBuffer = [])
    (hentry : entries[i]? = some entry) (hm : a.members[i]? = some m) (hk : k < m.size)
    (hbase : rs.chunkProcessedSize = base + n) (hretried : Retried entry m base)
    (hshort : m.data = [] → base + k < m.size)
    (hdata : DataStands mayFail entry m k n rs.toSkip slot) :
    Stands H mayFail a entries rs slot (.cons (m.data.drop (n + rs.toSkip))
      (if m.haltsFrom H base k then .halted
        else tailAt (segmentsFrom H a.members (.dataDescriptor i)) 0))

/-- The current chunk is the data of a member, which is not skipped as a whole. -/
structure InData (a : Archive) (rs : ReadState) (i : Nat) (m : Member) : Prop where
  chunk : rs.currentChunk = .entryData i
  empty : rs.stagingBuffer = []
  member : a.members[i]? = some m
  skip : rs.toSkip < m.size

/-- The member of the current chunk has no data and is announced with some. -/
structure Drained (a : Archive) (rs : ReadState) (i : Nat) (m : Member) : Prop
    extends InData a rs i m where
  data : m.data = []

/-- Where a frame of the read loop stands. -/
structure InStream (mayFail : Prop) (a : Archive) (s : Frame E H) (rest : Tail UInt8) : Prop where
  stocked : Stocked H mayFail a.members s.entries
  stands : Stands H mayFail a s.entries s.readState s.pinned.slot rest

/-! ### The log of the calls

    A reader of an entry is opened when the slot is empty.  From then on the
    entry is `Touched`: its reader is in the slot until its CRC is known and its
    data is behind the current chunk, and then it is not opened again. -/

namespace Chunk

/-- A reader of entry `i` may be open in front of this chunk. -/
def Reads (i : Nat) (c : Chunk) : Prop :=
  c = .entryData i ∨ c = .dataDescriptor i ∨ c = .cdFileHeader i

/-- The data of entry `i` is behind this chunk. -/
def PastData (i : Nat) : Chunk → Prop
  | .localHeader j | .entryData j => i < j
  | .dataDescriptor j => i ≤ j
  | .cdFileHeader _ | .eocd | .finished => True

theorem Reads.eq {c : Chunk} {i j : Nat} (hi : c.Reads i) (hj : c.Reads j) : i = j := by
  rcases hi with rfl | rfl | rfl <;> simpa [Reads] using hj

theorem PastData.succ {c : Chunk} {i : Nat} (h : c.PastData i) (count : Nat) :
    (c.succ count).PastData i := by
  cases c with
  | localHeader j => exact h
  | entryData j => exact Nat.le_of_lt h
  | dataDescriptor j =>
    simp only [Chunk.succ]
    split
    · exact Nat.lt_succ_of_le h
    · trivial
  | cdFileHeader j =>
    simp only [Chunk.succ]
    split
    · trivial
    · trivial
  | eocd => trivial
  | finished => trivial

/-- Behind a chunk of an entry its data is past. -/
theorem Reads.pastData_succ {c : Chunk} {i : Nat} (h : c.Reads i) (count : Nat) :
    (c.succ count).PastData i := by
  rcases h with rfl | rfl | rfl
  · exact Nat.le_refl i
  · exact PastData.succ (c := .dataDescriptor i) (Nat.le_refl i) count
  · exact PastData.succ (c := .cdFileHeader i) trivial count

/-- A header is not in front of data that was read. -/
theorem pastData_of_succ {c : Chunk} {i count : Nat} (hc : c.IsHeader) (hi : i < count)
    (h : (c.succ count).PastData i) : c.PastData i := by
  cases c with
  | localHeader j => exact h
  | dataDescriptor j =>
    simp only [Chunk.succ] at h
    show i ≤ j
    split at h
    · exact Nat.le_of_lt_succ h
    · omega
  | cdFileHeader j => trivial
  | eocd => trivial
  | entryData j => exact hc.elim
  | finished => exact hc.elim

/-- Only a local header is in front of entry data. -/
theorem localHeader_of_succ {c : Chunk} {i count : Nat} (hc : c.IsHeader)
    (h : c.succ count = .entryData i) : c = .localHeader i := by
  cases c with
  | localHeader j =>
    cases h
    rfl
  | dataDescriptor j =>
    simp only [Chunk.succ] at h
    split at h <;> cases h
  | cdFileHeader j =>
    simp only [Chunk.succ] at h
    split at h <;> cases h
  | eocd => cases h
  | entryData j => exact hc.elim
  | finished => exact hc.elim

end Chunk

/-- A reader of entry `i` is open, or it will not be opened any more. -/
inductive Touched (s : Frame E H) (i : Nat) : Prop where
  | opened (hslot : s.pinned.slot ≠ .nothing) (hreads : s.readState.currentChunk.Reads i)
  | closed {entry : ReaderEntry E} (hentry : s.entries[i]? = some entry) (hcrc : entry.crc32 ≠ none)
    (hpast : s.readState.currentChunk.PastData i)

/-- The name of the `i`-th member. -/
def memberName (ms : List Member) (i : Nat) : Name := (ms[i]?).elim [] Member.name

/-- What is logged between `s` and `s'`: entries that were not touched, each once. -/
structure Logs (ms : List Member) (s s' : Frame E H) : Prop where
  kept : ∀ i, Touched s i → Touched s' i
  grown : ∃ is : List Nat, is.Nodup ∧ (∀ i ∈ is, i < ms.length ∧ ¬ Touched s i ∧ Touched s' i) ∧
    s'.pinned.opened = s.pinned.opened ++ is.map (memberName ms)

/-- What is logged behind `opened` are members with data. -/
def LogsNonempty (ms : List Member) (opened opened' : List Name) : Prop :=
  ∃ names, opened' = opened ++ names ∧ ∀ name ∈ names, ∃ m ∈ ms, m.name = name ∧ m.size ≠ 0

section Logs
variable {ms : List Member} {s s' s'' : Frame E H}

theorem LogsNonempty.refl (opened : List Name) : LogsNonempty ms opened opened :=
  ⟨[], by simp, by simp⟩

theorem LogsNonempty.trans {opened opened' opened'' : List Name}
    (h : LogsNonempty ms opened opened') (h' : LogsNonempty ms opened' opened'') :
    LogsNonempty ms opened opened'' := by
  obtain ⟨names, rfl, hnames⟩ := h
  obtain ⟨names', rfl, hnames'⟩ := h'
  refine ⟨names ++ names', by simp, ?_⟩
  intro name hname
  rcases List.mem_append.mp hname with hname | hname
  · exact hnames name hname
  · exact hnames' name hname

/-- The entry of a member with data may be logged. -/
theorem LogsNonempty.logged {m : Member} (hm : m ∈ ms) (hsize : m.size ≠ 0) (pinned : Pinned E H) :
    LogsNonempty ms pinned.opened (pinned.logged m.name) := by
  unfold Pinned.logged
  split
  · refine ⟨[m.name], rfl, ?_⟩
    intro name hname
    exact ⟨m, hm, (List.mem_singleton.mp hname).symm, hsize⟩
  · exact .refl _

theorem Logs.refl (ms : List Member) (s : Frame E H) : Logs ms s s where
  kept _ h := h
  grown := ⟨[], List.nodup_nil, by simp, by simp⟩

theorem Logs.trans (h : Logs ms s s') (h' : Logs ms s' s'') : Logs ms s s'' where
  kept i hi := h'.kept i (h.kept i hi)
  grown := by
    obtain ⟨is, hnodup, hmem, hopened⟩ := h.grown
    obtain ⟨is', hnodup', hmem', hopened'⟩ := h'.grown
    refine ⟨is ++ is', ?_, ?_, ?_⟩
    · -- what was logged first is touched when the rest is logged
      refine List.nodup_append.mpr ⟨hnodup, hnodup', ?_⟩
      rintro i hi _ hi' rfl
      exact (hmem' i hi').2.1 (hmem i hi).2.2
    · intro i hi
      rcases List.mem_append.mp hi with hi | hi
      · obtain ⟨hlt, hnot, htouched⟩ := hmem i hi
        exact ⟨hlt, hnot, h'.kept i htouched⟩
      · obtain ⟨hlt, hnot, htouched⟩ := hmem' i hi
        exact ⟨hlt, fun hi => hnot (h.kept i hi), htouched⟩
    · rw [hopened', hopened, List.append_assoc, ← List.map_append]

/-- What is touched stays so, if the entry whose reader is open does. -/
theorem Touched.keep {i : Nat} (h : Touched s i) (hcaches : Caches s.entries s'.entries)
    (hpast : ∀ j, s.readState.currentChunk.PastData j → s'.readState.currentChunk.PastData j)
    (hopen : s.pinned.slot ≠ .nothing → s.readState.currentChunk.Reads i → Touched s' i) :
    Touched s' i := by
  cases h with
  | opened hslot hreads => exact hopen hslot hreads
  | @closed entry hentry hcrc hpast' =>
    have hlt : i < s'.entries.length := by
      rw [hcaches.length]
      exact (List.getElem?_eq_some_iff.mp hentry).1
    obtain ⟨crc, hknown⟩ := Option.ne_none_iff_exists'.mp hcrc
    have hentry' := List.getElem?_eq_getElem hlt
    have hkept := (hcaches.keeps i entry _ hentry hentry').2 crc hknown
    exact .closed hentry' (by rw [hkept]; simp) (hpast i hpast')

/-- Neither the output nor the counters matter for what is touched. -/
theorem Touched.congr {i : Nat} (h : Touched s i) (hpinned : s'.pinned = s.pinned)
    (hentries : s'.entries = s.entries)
    (hchunk : s'.readState.currentChunk = s.readState.currentChunk) : Touched s' i := by
  cases h with
  | opened hslot hreads => exact .opened (by rw [hpinned]; exact hslot) (by rw [hchunk]; exact hreads)
  | closed hentry hcrc hpast =>
    exact .closed (by rw [hentries]; exact hentry) hcrc (by rw [hchunk]; exact hpast)

/-- Nothing is logged with an empty slot in front of the same or a later chunk. -/
theorem Logs.idle (hslot : s.pinned.slot = .nothing) (hopened : s'.pinned.opened = s.pinned.opened)
    (hcaches : Caches s.entries s'.entries)
    (hpast : ∀ j, s.readState.currentChunk.PastData j → s'.readState.currentChunk.PastData j) :
    Logs ms s s' where
  kept i h := h.keep hcaches hpast (fun hne => absurd hslot hne)
  grown := ⟨[], List.nodup_nil, by simp, by simp [hopened]⟩

theorem Logs.idle_succ {count : Nat} (hslot : s.pinned.slot = .nothing)
    (hentries : s'.entries = s.entries) (hpinned : s'.pinned = s.pinned)
    (hnext : s'.readState.currentChunk = s.readState.currentChunk.succ count) : Logs ms s s' := by
  apply Logs.idle hslot
  · rw [hpinned]
  · rw [hentries]
    exact .refl _
  · intro j hj
    rw [hnext]
    exact hj.succ count

/-- The reader of entry `i` was used: to read its data, or to compute a CRC that was not known. -/
theorem Logs.used {i : Nat} {m : Member} (hm : ms[i]? = some m)
    (hreads : s.readState.currentChunk.Reads i) (htouched : Touched s' i)
    (hcaches : Caches s.entries s'.entries)
    (hpast : ∀ j, s.readState.currentChunk.PastData j → s'.readState.currentChunk.PastData j)
    (hopened : s'.pinned.opened = s.pinned.opened ∨
      ((s.readState.currentChunk = .entryData i ∨ ∃ entry, s.entries[i]? = some entry ∧
          entry.crc32 = none) ∧ s'.pinned.opened = s.pinned.logged m.name)) : Logs ms s s' := by
  have hkept : ∀ j, Touched s j → Touched s' j := by
    intro j hj
    apply hj.keep hcaches hpast
    intro _ hj'
    rw [← hreads.eq hj']
    exact htouched
  have hsame : s'.pinned.opened = s.pinned.opened → Logs ms s s' := fun heq =>
    ⟨hkept, [], List.nodup_nil, by simp, by simp [heq]⟩
  rcases hopened with heq | ⟨hwhy, heq⟩
  · exact hsame heq
  · by_cases hslot : s.pinned.slot = .nothing
    · refine ⟨hkept, [i], by simp, ?_, ?_⟩
      -- an entry is opened that was not touched: neither was its reader open, nor its CRC known
      -- and its data past
      · intro j hj
        obtain rfl := List.mem_singleton.mp hj
        refine ⟨(List.getElem?_eq_some_iff.mp hm).1, ?_, htouched⟩
        intro hbefore
        cases hbefore with
        | opened hne => exact hne hslot
        | closed hentry hcrc hpast' =>
          rcases hwhy with hdata | ⟨entry, hentry', hnone⟩
          · rw [hdata] at hpast'
            exact Nat.lt_irrefl _ hpast'
          · rw [hentry] at hentry'
            cases hentry'
            exact hcrc hnone
      · rw [heq]
        unfold Pinned.logged memberName
        rw [hslot, List.map_singleton, hm]
        rfl
    · rw [Pinned.logged_of_ne hslot] at heq
      exact hsame heq

end Logs

/-- `s'` comes after `s`, with `bytes` appended to the output. -/
structure Progress (mayFail : Prop) (a : Archive) (s : Frame E H) (rest : Tail UInt8)
    (bytes : List UInt8) (s' : Frame E H) (rest' : Tail UInt8) : Prop where
  output : s.output.Extends bytes s'.output
  stream : rest = .cons bytes rest'
  standing : InStream mayFail a s' rest'
  caches : Caches s.entries s'.entries
  position : s'.readState.position = s.readState.position
  logs : Logs a.members s s'
  nonempty : LogsNonempty a.members s.pinned.opened s'.pinned.opened

section Rules
variable {mayFail : Prop} {a : Archive} {s s' s'' : Frame E H} {rest rest' rest'' : Tail UInt8}
  {bytes bytes' : List UInt8}

theorem Progress.refl (h : InStream mayFail a s rest) : Progress mayFail a s rest [] s rest :=
  ⟨.refl _, by simp, h, .refl _, rfl, .refl _ _, .refl _⟩

theorem Progress.trans (h : Progress mayFail a s rest bytes s' rest')
    (h' : Progress mayFail a s' rest' bytes' s'' rest'') :
    Progress mayFail a s rest (bytes ++ bytes') s'' rest'' where
  output := h.output.trans h'.output
  stream := by rw [h.stream, h'.stream, Tail.cons_append]
  standing := h'.standing
  caches := h.caches.trans h'.caches
  position := h'.position.trans h.position
  logs := h.logs.trans h'.logs
  nonempty := h.nonempty.trans h'.nonempty

/-- While the slot holds something the state reads data or computes a CRC, with nothing staged;
    a position inside the data of an entry is entered there. -/
theorem Stands.reading_of_chunk {entries : List (ReaderEntry E)} {rs : ReadState}
    {slot : ReaderPinned E H} {i : Nat} {entry : ReaderEntry E} {m : Member}
    (h : Stands H mayFail a entries rs slot rest) (hchunk : rs.currentChunk = .entryData i)
    (hempty : rs.stagingBuffer = []) (hentry : entries[i]? = some entry)
    (hm : a.members[i]? = some m) (hrep : Represents H mayFail entry m)
    (hskip : rs.toSkip < m.size) :
    ∃ base k n, k < m.size ∧ rs.chunkProcessedSize = base + n ∧ Retried entry m base ∧
      (m.data = [] → base + k < m.size) ∧ DataStands mayFail entry m k n rs.toSkip slot ∧
      rest = .cons (m.data.drop (n + rs.toSkip)) (if m.haltsFrom H base k then .halted
        else tailAt (segmentsFrom H a.members (.dataDescriptor i)) 0) := by
  cases h with
  | staged _ _ hlt _ _ => simp [hempty] at hlt
  -- the entry is entered here, at the bytes to be skipped
  | ready hlocated hprocessed _ =>
    refine ⟨0, rs.toSkip, 0, hskip, hprocessed, .inl rfl, fun _ => by omega,
      .start _ hrep.delivers, ?_⟩
    rw [hchunk, segmentsFrom_eq_cons (hchunk ▸ hlocated) (by simp), Nat.zero_add,
      Member.haltsFrom_zero H hskip]
    simp only [segmentOf, hm, Option.elim_some]
    exact tailAt_enter hskip
  | hashing hchunk' => rcases hchunk' with h | h <;> rw [hchunk] at h <;> cases h
  | reading hchunk' _ hentry' hm' hk hbase hretried hshort hdata =>
    rw [hchunk] at hchunk'
    cases hchunk'
    rw [hentry] at hentry'
    rw [hm] at hm'
    cases hentry'
    cases hm'
    exact ⟨_, _, _, hk, hbase, hretried, hshort, hdata, rfl⟩

/-- In front of a chunk with a CRC, the slot is empty or computes this CRC. -/
theorem Stands.hashSlot_of_chunk {entries : List (ReaderEntry E)} {rs : ReadState}
    {slot : ReaderPinned E H} {i : Nat} {entry : ReaderEntry E} {m : Member}
    (h : Stands H mayFail a entries rs slot rest)
    (hchunk : rs.currentChunk = .dataDescriptor i ∨ rs.currentChunk = .cdFileHeader i)
    (hempty : rs.stagingBuffer = []) (hentry : entries[i]? = some entry)
    (hm : a.members[i]? = some m) :
    rs.chunkProcessedSize = 0 ∧ HashSlot mayFail entry m slot ∧
      rest = tailAt (segmentsFrom H a.members rs.currentChunk) rs.toSkip := by
  cases h with
  | staged _ _ hlt _ _ => simp [hempty] at hlt
  | ready _ hprocessed _ => exact ⟨hprocessed, .inl rfl, rfl⟩
  | @hashing i' n entry' m' _ hchunk' hprocessed _ hentry' hm' hcrc hsize hslot _ =>
    have hi : i' = i := by
      rcases hchunk with h | h <;> rcases hchunk' with h' | h' <;> rw [h] at h' <;> cases h' <;> rfl
    subst hi
    rw [hentry] at hentry'
    rw [hm] at hm'
    cases hentry'
    cases hm'
    exact ⟨hprocessed, .inr ⟨hcrc, hsize, n, hslot⟩, rfl⟩
  | reading hchunk' => rcases hchunk with h | h <;> rw [h] at hchunk' <;> cases hchunk'

/-- In front of any other chunk nothing of it was read and the slot is empty. -/
theorem Stands.ready_of_chunk {entries : List (ReaderEntry E)} {rs : ReadState}
    {slot : ReaderPinned E H} (h : Stands H mayFail a entries rs slot rest)
    (hempty : rs.stagingBuffer = [])
    (hchunk : (∃ i, rs.currentChunk = .localHeader i) ∨ rs.currentChunk = .eocd ∨
      rs.currentChunk = .finished) :
    rs.chunkProcessedSize = 0 ∧ slot = .nothing ∧
      rest = tailAt (segmentsFrom H a.members rs.currentChunk) rs.toSkip := by
  cases h with
  | staged _ _ hlt _ _ => simp [hempty] at hlt
  | ready _ hprocessed _ => exact ⟨hprocessed, rfl, rfl⟩
  | hashing hchunk' =>
    rcases hchunk' with h' | h' <;> rw [h'] at hchunk <;> simp at hchunk
  | reading hchunk' => rw [hchunk'] at hchunk; simp at hchunk

theorem Stands.located {entries : List (ReaderEntry E)} {rs : ReadState}
    {slot : ReaderPinned E H} (h : Stands H mayFail a entries rs slot rest) :
    rs.currentChunk.Located a.members.length := by
  cases h with
  | staged hlocated _ _ _ _ => exact hlocated
  | ready hlocated _ _ => exact hlocated
  | hashing hchunk _ _ _ hm _ _ _ _ =>
    have := (List.getElem?_eq_some_iff.mp hm).1
    rcases hchunk with h | h <;> rw [h] <;> exact this
  | reading hchunk _ _ hm _ _ _ _ _ =>
    rw [hchunk]
    exact (List.getElem?_eq_some_iff.mp hm).1

/-- A chunk that is skipped as a whole was not begun. -/
theorem Stands.skip {entries : List (ReaderEntry E)} {rs : ReadState} {slot : ReaderPinned E H}
    (h : Stands H mayFail a entries rs slot rest) (hempty : rs.stagingBuffer = [])
    (hfin : rs.currentChunk ≠ .finished)
    (hskip : (segmentOf H a.members rs.currentChunk).size ≤ rs.toSkip) :
    rs.chunkProcessedSize = 0 ∧ slot = .nothing ∧
      rest = tailAt (segmentsFrom H a.members (rs.currentChunk.succ a.members.length))
        (rs.toSkip - (segmentOf H a.members rs.currentChunk).size) := by
  cases h with
  | staged _ _ hlt _ _ => simp [hempty] at hlt
  | ready hlocated hprocessed _ =>
    exact ⟨hprocessed, rfl, by rw [segmentsFrom_eq_cons hlocated hfin, tailAt_skip hskip]⟩
  -- a chunk that was begun has more bytes than are to be skipped
  | hashing _ _ _ _ _ _ _ _ hlt => omega
  | @reading i base k n entry m _ hchunk _ _ hm hk _ _ _ hdata =>
    have hsize : (segmentOf H a.members rs.currentChunk).size = m.size := by
      simp [hchunk, segmentOf, hm, Member.dataSegment]
    have := hdata.skipping
    omega

end Rules

end Model

end Zippity
