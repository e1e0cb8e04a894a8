import Zippity.Reader.Hardened

/-! # What the entry data turned out to be

    Nothing is assumed of the entry data, but what a read without seeks and
    errors delivers is recorded: `read i` are the bytes that came of entry `i`.
    For every data that these bytes begin, what was delivered, what is staged
    and what is to come make up the archive of this data.
-/

namespace Zippity

open Framework Async

section Model
variable {E : EntryData} {H : Crc32Fast}

/-! ### The archive of recorded data -/

/-- The member that an entry stands for with `data`: an entry of no size keeps the CRC supplied. -/
def ReaderEntry.recorded (H : Crc32Fast) (entry : ReaderEntry E) (data : List UInt8) : Member where
  name := entry.name
  datetime := entry.datetime
  externalAttributes := entry.externalAttributes
  offset := entry.offset
  size := entry.size
  data := data
  crc := if entry.size = 0 then entry.crc32.getD (H.hash []) else H.hash data

/-- The members of all entries. -/
def recordedMembers (H : Crc32Fast) (entries : List (ReaderEntry E)) (data : Nat → List UInt8) :
    List Member :=
  entries.mapIdx fun i entry => entry.recorded H (data i)

/-- The bytes of the archive from a chunk on. -/
def bytesFrom (H : Crc32Fast) (ms : List Member) (c : Chunk) : List UInt8 :=
  (segmentsFrom H ms c).flatMap Segment.items

/-- A CRC that is set keeps the member, if it is that of no bytes where the entry has no size. -/
structure KeepsRecord (H : Crc32Fast) (entry entry' : ReaderEntry E) : Prop where
  keeps : KeepsCrc entry entry'
  empty : entry.size = 0 → entry'.crc32.getD (H.hash []) = entry.crc32.getD (H.hash [])

section Members
variable {entries entries' : List (ReaderEntry E)} {data : Nat → List UInt8} {ms : List Member}
  {c : Chunk} {i : Nat} {entry entry' : ReaderEntry E}

@[simp] theorem length_recordedMembers :
    (recordedMembers H entries data).length = entries.length := by
  simp [recordedMembers]

theorem recordedMembers_get (h : entries[i]? = some entry) :
    (recordedMembers H entries data)[i]? = some (entry.recorded H (data i)) := by
  simp [recordedMembers, h]

theorem bytesFrom_eq (h : c.Located ms.length) (hc : c ≠ .finished) :
    bytesFrom H ms c = (segmentOf H ms c).items ++ bytesFrom H ms (c.succ ms.length) := by
  unfold bytesFrom
  rw [segmentsFrom_eq_cons h hc, List.flatMap_cons]

theorem KeepsRecord.refl (entry : ReaderEntry E) : KeepsRecord H entry entry :=
  ⟨.refl entry, fun _ => rfl⟩

theorem forall₂_keepsRecord_refl (entries : List (ReaderEntry E)) :
    List.Forall₂ (KeepsRecord H) entries entries :=
  List.forall₂_same.mpr fun entry _ => .refl entry

theorem KeepsRecord.trans {entry'' : ReaderEntry E} (h : KeepsRecord H entry entry')
    (h' : KeepsRecord H entry' entry'') : KeepsRecord H entry entry'' := by
  refine ⟨h.keeps.trans h'.keeps, fun hsize => ?_⟩
  obtain ⟨⟨crc32, rfl, _⟩, hempty⟩ := h
  rw [h'.empty hsize, hempty hsize]

theorem forall₂_keepsRecord_trans {entries'' : List (ReaderEntry E)}
    (h : List.Forall₂ (KeepsRecord H) entries entries')
    (h' : List.Forall₂ (KeepsRecord H) entries' entries'') :
    List.Forall₂ (KeepsRecord H) entries entries'' :=
  Forking.forall₂_trans (fun _ _ _ hkeeps hkeeps' => hkeeps.trans hkeeps') h h'

theorem forall₂_keepsRecord_set (hentry : entries[i]? = some entry)
    (h : KeepsRecord H entry entry') :
    List.Forall₂ (KeepsRecord H) entries (entries.set i entry') := by
  have hset := Forking.forall₂_set (forall₂_keepsRecord_refl entries) h i
  rwa [set_of_getElem? hentry] at hset

theorem KeepsRecord.size (h : KeepsRecord H entry entry') : entry'.size = entry.size := by
  obtain ⟨⟨crc32, rfl, _⟩, _⟩ := h
  rfl

/-- The member stays the same. -/
theorem KeepsRecord.recorded (h : KeepsRecord H entry entry') (data : List UInt8) :
    entry'.recorded H data = entry.recorded H data := by
  obtain ⟨⟨crc32, rfl, _⟩, hempty⟩ := h
  unfold ReaderEntry.recorded
  congr 1
  split
  · next hsize => exact hempty hsize
  · rfl

theorem recordedMembers_keeps (h : List.Forall₂ (KeepsRecord H) entries entries') :
    recordedMembers H entries' data = recordedMembers H entries data := by
  induction h generalizing data with
  | nil => rfl
  | cons hentry _ ih =>
    unfold recordedMembers at ih ⊢
    rw [List.mapIdx_cons, List.mapIdx_cons, hentry.recorded, ih]

/-- The sizes of the members do not depend on their data. -/
theorem map_recordedMembers {α : Type} (h : Listed ms entries) (f : Member → α)
    (hf : ∀ m m' : Member, m.name = m'.name → m.size = m'.size → m.offset = m'.offset →
      f m = f m') :
    (recordedMembers H entries data).map f = ms.map f := by
  apply List.ext_getElem?
  intro i
  rw [List.getElem?_map, List.getElem?_map]
  cases hentry : entries[i]? with
  | none =>
    have hle := List.getElem?_eq_none_iff.mp hentry
    rw [List.getElem?_eq_none (by simpa using hle), List.getElem?_eq_none (h.length ▸ hle)]
  | some entry =>
    have hi := (List.getElem?_eq_some_iff.mp hentry).1
    have hm := List.getElem?_eq_getElem (h.length ▸ hi : i < ms.length)
    have hdescribes := h.describes i entry _ hentry hm
    rw [recordedMembers_get hentry, hm]
    exact congrArg some (hf _ _ hdescribes.name hdescribes.size hdescribes.offset)

theorem map_extent_recorded (h : Listed ms entries) :
    (recordedMembers H entries data).map Member.extent = ms.map Member.extent :=
  map_recordedMembers h _ fun m m' hname hsize _ => by
    simp only [Member.extent, Member.localSize, hname, hsize]

theorem layoutSizes_recorded (h : Listed ms entries) :
    layoutSizes (recordedMembers H entries data) = layoutSizes ms := by
  have hcentral : (recordedMembers H entries data).map Member.centralSize =
      ms.map Member.centralSize :=
    map_recordedMembers h _ fun m m' hname _ _ => by simp only [Member.centralSize, hname]
  simp only [layoutSizes, extents, centralSizes, map_extent_recorded h, hcentral]

theorem eocdBytes_recorded (h : Listed ms entries) :
    eocdBytes (recordedMembers H entries data) = eocdBytes ms := by
  unfold eocdBytes
  rw [layoutSizes_recorded h, length_recordedMembers, h.length]

/-- With names, offsets and sizes of the members of an archive, the recorded members are those of
    one as well. -/
def recordedArchive (H : Crc32Fast) (a : Archive) (h : Listed a.members entries)
    (data : Nat → List UInt8) : Archive where
  members := recordedMembers H entries data
  offsets i m hm := by
    have hoffsets : (recordedMembers H entries data).map Member.offset =
        a.members.map Member.offset := map_recordedMembers h _ fun _ _ _ _ hoffset => hoffset
    have hoffset := congrArg (·[i]?) hoffsets
    simp only [List.getElem?_map, hm, Option.map_some] at hoffset
    obtain ⟨m', hm', heq⟩ := Option.map_eq_some_iff.mp hoffset.symm
    rw [← heq, a.offsets i m' hm', extents, extents, List.map_take, List.map_take]
    rw [map_extent_recorded h]
  names m hm := by
    have hname := List.mem_map_of_mem (f := Member.name) hm
    rw [map_recordedMembers h Member.name fun _ _ hname _ _ => hname] at hname
    obtain ⟨m', hm', heq⟩ := List.mem_map.mp hname
    exact heq ▸ a.names m' hm'
  fits := by
    rw [layoutSizes_recorded h]
    exact a.fits

end Members

/-! ### The invariant -/

/-- Data of the announced sizes that the bytes read begin. -/
structure Completes (entries : List (ReaderEntry E)) (read data : Nat → List UInt8) : Prop where
  begins : ∀ i, read i <+: data i
  sizes : ∀ i entry, entries[i]? = some entry → (data i).length = entry.size

/-- The reader in the slot, if there is one, has read and hashed these bytes. -/
def SlotRead (slot : ReaderPinned E H) (bytes : List UInt8) : Prop :=
  match slot with
  | .fileReader reader => reader.didSeek = false ∧ H.Fed reader.hasher bytes
  | _ => bytes = []

/-- What a read without seeks and errors came to: `out` was delivered. -/
structure Recorded (out : List UInt8) (read : Nat → List UInt8) (s : Frame E H) : Prop where
  unskipped : Unskipped s.readState
  staged : s.readState.stagingBuffer ≠ [] →
    s.readState.toSkip < s.readState.stagingBuffer.length
  /-- Data that was read to its end has its size and its CRC. -/
  behind : ∀ i entry, s.entries[i]? = some entry → entry.size ≠ 0 →
    s.readState.currentChunk.PastData i →
      (read i).length = entry.size ∧ entry.crc32 = some (H.hash (read i))
  ahead : ∀ i, ¬ s.readState.currentChunk.PastData i →
    s.readState.currentChunk ≠ .entryData i → read i = []
  empty : ∀ i entry, s.entries[i]? = some entry → entry.size = 0 → read i = []
  reading : ∀ i, s.readState.currentChunk = .entryData i →
    s.readState.chunkProcessedSize = (read i).length ∧ SlotRead s.pinned.slot (read i)
  bytes : ∀ data, Completes s.entries read data →
    out ++ s.readState.stagingBuffer.drop s.readState.toSkip ++
        (bytesFrom H (recordedMembers H s.entries data) s.readState.currentChunk).drop
          s.readState.chunkProcessedSize =
      archiveBytes (recordedMembers H s.entries data)

/-- What was appended since is recorded too. -/
def RecordedStep (out : List UInt8) (s s' : Frame E H) : Prop :=
  ∃ bytes read', s.output.Extends bytes s'.output ∧
    List.Forall₂ (KeepsRecord H) s.entries s'.entries ∧ Recorded (out ++ bytes) read' s'

section Invariant
variable {a : Archive} {s s' : Frame E H} {out : List UInt8} {read data : Nat → List UInt8} {i : Nat}
  {entry : ReaderEntry E}

theorem Recorded.stays (h : Recorded out read s) : RecordedStep out s s :=
  ⟨[], read, .refl _, forall₂_keepsRecord_refl _, (List.append_nil out).symm ▸ h⟩

theorem Completes.keeps {entries entries' : List (ReaderEntry E)}
    (h : Completes entries' read data) (hkept : List.Forall₂ (KeepsRecord H) entries entries') :
    Completes entries read data := by
  refine ⟨h.begins, ?_⟩
  intro i entry hentry
  obtain ⟨entry', hentry', hkeeps⟩ := Forking.forall₂_getElem? hkept hentry
  rw [h.sizes i entry' hentry', hkeeps.size]

/-- Data that was read to its end is known. -/
theorem Completes.eq_read {entries : List (ReaderEntry E)} (h : Completes entries read data)
    (hentry : entries[i]? = some entry) (hlen : (read i).length = entry.size) :
    data i = read i :=
  ((h.begins i).eq_of_length (hlen.trans (h.sizes i entry hentry).symm)).symm

/-- The CRC in the archive of an entry whose data was read to its end. -/
theorem Recorded.crc (h : Recorded out read s) (hdata : Completes s.entries read data)
    (hentry : s.entries[i]? = some entry) (hpast : s.readState.currentChunk.PastData i) :
    (entry.recorded H (data i)).crc = entry.crc32.getD (H.hash []) := by
  show (if entry.size = 0 then _ else _) = _
  split
  · rfl
  · next hsize =>
    obtain ⟨hlen, hcrc⟩ := h.behind i entry hentry hsize hpast
    rw [hdata.eq_read hentry hlen, hcrc]
    rfl

/-- It is known, unless the entry has no size. -/
theorem Recorded.known (h : Recorded out read s) (hentry : s.entries[i]? = some entry)
    (hpast : s.readState.currentChunk.PastData i) : entry.crc32 = none → entry.size = 0 := by
  intro hnone
  by_contra hsize
  have hcrc := (h.behind i entry hentry hsize hpast).2
  rw [hnone] at hcrc
  cases hcrc

end Invariant

/-! ### Headers -/

section Turns
variable {a : Archive} {s s₁ : Frame E H} {out : List UInt8} {read : Nat → List UInt8}
  {sizes : Sizes} {ctx : E.Context} {fuel initialRemaining size i : Nat} {entry : ReaderEntry E}

/-- **A header that was written** ends its chunk. -/
theorem Recorded.header {header appended : List UInt8} (hhard : Hardened a s)
    (h : Recorded out read s) (hempty : s.readState.stagingBuffer = [])
    (hheader : s.readState.currentChunk.IsHeader)
    (hitems : ∀ data, Completes s.entries read data →
      (segmentOf H (recordedMembers H s.entries data) s.readState.currentChunk).items = header)
    (hwritten : Written s.readState.toSkip s.readState s.output header s₁.readState s₁.output
      appended)
    (hkept : List.Forall₂ (KeepsRecord H) s.entries s₁.entries)
    (hslot : ∀ i, s.readState.currentChunk = .localHeader i → s₁.pinned.slot = .nothing) :
    (finishChunk size true >>= fun _ => pure (.go ())).wp (fun _ => True)
      (fun (r : PollResult (IoError E) (Flow Unit)) s' => NoError r → RecordedStep out s s') s₁ := by
  have hskip : s.readState.toSkip = 0 := h.unskipped hempty
  have hfin := hheader.ne_finished
  have hlen : s.entries.length = a.members.length := hhard.listed.length
  have hdata : ∀ i, s.readState.currentChunk ≠ .entryData i := by
    intro i heq
    rw [heq] at hheader
    exact hheader
  have hprocessed := hhard.processed hdata
  unfold finishChunk
  rw [if_pos rfl, wp_bind, wp_get_bind, wp_bind, wp_lift]
  refine Exec.wp_assert (fun _ => trivial) fun _ => ?_
  simp only [andThen]
  rw [wp_bind, wp_lift, hwritten.chunk, chunkNext_eq (hkept.length_eq ▸ hlen) hfin, Exec.wp_ok]
  intro _
  refine ⟨appended, read, hwritten.output, hkept, ?_⟩
  -- nothing but the chunk and what is staged is new
  have hold : ∀ i entry', s₁.entries[i]? = some entry' →
      (s.readState.currentChunk.succ a.members.length).PastData i →
      s.readState.currentChunk.PastData i := by
    intro i entry' hentry' hpast
    have hi := (List.getElem?_eq_some_iff.mp hentry').1
    have hcount := hkept.length_eq
    exact Chunk.pastData_of_succ hheader (by omega) hpast
  constructor
  · intro hnil
    have hunstaged := hwritten.unstaged hnil
    show s₁.readState.toSkip = 0
    omega
  · intro hne
    exact (hwritten.staged hne).1
  · intro i entry' hentry' hsize hpast
    obtain ⟨entry, hentry, hkeeps⟩ := Forking.forall₂_getElem?_right hkept hentry'
    rw [hkeeps.size] at hsize ⊢
    obtain ⟨hread, hcrc⟩ := h.behind i entry hentry hsize (hold i entry' hentry' hpast)
    obtain ⟨crc32, rfl, hknown⟩ := hkeeps.keeps
    exact ⟨hread, hknown _ hcrc⟩
  · intro i hpast _
    refine h.ahead i ?_ (hdata i)
    intro hpast'
    exact hpast (hpast'.succ _)
  · intro i entry' hentry' hsize
    obtain ⟨entry, hentry, hkeeps⟩ := Forking.forall₂_getElem?_right hkept hentry'
    exact h.empty i entry hentry (hkeeps.size ▸ hsize)
  · intro i hnext
    -- the data of this entry comes next
    have hlocal := Chunk.localHeader_of_succ hheader hnext
    have hnone : read i = [] := by
      refine h.ahead i ?_ (hdata i)
      rw [hlocal]
      exact Nat.lt_irrefl i
    rw [hnone]
    refine ⟨rfl, ?_⟩
    show SlotRead s₁.pinned.slot []
    rw [hslot i hlocal]
    rfl
  · intro data hcompletes
    have hbefore := hcompletes.keeps hkept
    have hbytes := h.bytes data hbefore
    have hlocated : s.readState.currentChunk.Located (recordedMembers H s.entries data).length := by
      rw [length_recordedMembers, hlen]
      exact hhard.located
    rw [hempty, hprocessed, List.drop_nil, List.append_nil, List.drop_zero,
      bytesFrom_eq hlocated hfin, hitems data hbefore, length_recordedMembers, hlen] at hbytes
    have hpieces := hwritten.bytes
    rw [hskip, List.drop_zero] at hpieces
    show out ++ appended ++ s₁.readState.stagingBuffer.drop s₁.readState.toSkip ++
      (bytesFrom H (recordedMembers H s₁.entries data) _).drop 0 = _
    rw [recordedMembers_keeps hkept, List.drop_zero, List.append_assoc out, hpieces,
      List.append_assoc]
    exact hbytes

/-- Staged bytes are delivered first. -/
theorem Recorded.readFromStaging (hhard : Hardened a s) (h : Recorded out read s)
    (hne : s.readState.stagingBuffer ≠ []) (hroom : 0 < s.output.remaining) :
    (s.readState.readFromStaging s.output).wp (fun _ => True) fun result =>
      RecordedStep out s { s with readState := result.1, output := result.2 } := by
  have hbound : s.readState.stagingBuffer.length < 2 ^ 63 := by
    have hstaged := hhard.staged
    simp only [maxHeader] at hstaged
    omega
  refine Exec.wp_mono (readFromStaging_wp (h.staged hne) hroom hbound) (fun _ hf => hf) ?_
  rintro ⟨rs, output⟩ ⟨bytes, hunstaged⟩
  have hchunk := hunstaged.chunk
  refine ⟨bytes, read, hunstaged.output, forall₂_keepsRecord_refl _, ?_⟩
  constructor
  · exact hunstaged.unstaged
  · intro hstaged
    exact (hunstaged.staged hstaged).2
  · intro i entry hentry hsize hpast
    exact h.behind i entry hentry hsize (hchunk ▸ hpast)
  · intro i hpast hdata
    exact h.ahead i (hchunk ▸ hpast) (hchunk ▸ hdata)
  · exact h.empty
  · intro i hdata
    obtain ⟨hprocessed, hslot⟩ := h.reading i (hchunk ▸ hdata)
    exact ⟨hunstaged.processed.trans hprocessed, hslot⟩
  · intro data hcompletes
    have hbytes := h.bytes data hcompletes
    rw [hunstaged.bytes, ← List.append_assoc] at hbytes
    show out ++ bytes ++ rs.stagingBuffer.drop rs.toSkip ++
      (bytesFrom H (recordedMembers H s.entries data) rs.currentChunk).drop rs.chunkProcessedSize = _
    rw [hchunk, hunstaged.processed]
    exact hbytes

/-- A chunk of no size is left behind. -/
theorem Recorded.skip (hhard : Hardened a s) (h : Recorded out read s)
    (hchunk : s.readState.currentChunk = .entryData i) (hentry : s.entries[i]? = some entry)
    (hsize : entry.size = 0) :
    Recorded out read { s with readState.currentChunk := .dataDescriptor i } := by
  have hnone := h.empty i entry hentry hsize
  have hprocessed := (h.reading i hchunk).1
  rw [hnone, List.length_nil] at hprocessed
  constructor
  · exact h.unskipped
  · exact h.staged
  · intro j entry' hentry' hsize' hpast
    have hle : j ≤ i := hpast
    rcases Nat.lt_or_eq_of_le hle with hlt | rfl
    · refine h.behind j entry' hentry' hsize' ?_
      rw [hchunk]
      exact hlt
    · rw [hentry] at hentry'
      cases hentry'
      exact absurd hsize hsize'
  · intro j hpast _
    have hlt : ¬ j ≤ i := hpast
    refine h.ahead j ?_ ?_
    · rw [hchunk]
      show ¬ j < i
      omega
    · rw [hchunk]
      intro heq
      cases heq
      exact hlt (Nat.le_refl _)
  · exact h.empty
  · intro j hdata
    cases hdata
  · intro data hcompletes
    have hbytes := h.bytes data hcompletes
    have hdata : data i = [] :=
      List.length_eq_zero_iff.mp ((hcompletes.sizes i entry hentry).trans hsize)
    have hlocated : s.readState.currentChunk.Located (recordedMembers H s.entries data).length := by
      rw [length_recordedMembers, hhard.listed.length]
      exact hhard.located
    rw [bytesFrom_eq hlocated (by simp [hchunk]), hchunk] at hbytes
    simp only [segmentOf, recordedMembers_get hentry, Option.elim_some] at hbytes
    show _ ++ _ ++ (bytesFrom H _ (.dataDescriptor i)).drop s.readState.chunkProcessedSize = _
    rw [← hbytes]
    congr 2
    show _ = data i ++ _
    rw [hdata]
    rfl

/-! ### Chunks -/

/-- A local header. -/
theorem Recorded.localHeader (hhard : Hardened a s) (h : Recorded out read s)
    (hempty : s.readState.stagingBuffer = []) (hchunk : s.readState.currentChunk = .localHeader i) :
    (processChunk sizes ctx fuel initialRemaining size).wp (fun _ => True)
      (fun r s' => NoError r → RecordedStep out s s') s := by
  have hlocated := hhard.located
  rw [hchunk] at hlocated
  obtain ⟨entry, hentry, hname⟩ := hhard.exists_entry hlocated
  have hlen : (entry.recorded H []).localBytes.length < 2 ^ 63 := (length_header_lt hname).1
  unfold processChunk readChunk
  rw [wp_bind, wp_get_bind, hchunk]
  show Async.wp (onEntry i _ >>= _) _ _ _
  rw [wp_bind, onEntry_wp hentry, writeHeader_wp, readLocalHeader_eq hname]
  refine writePieces_wp (entry.recorded H []).localBytes ?_ hempty
    (hhard.processed (by simp [hchunk])) hlen ?_
  · simp [Member.localBytes, ReaderEntry.recorded, Member.nameLen]
  intro rs output appended hwritten
  simp only [andThen, wp_pure]
  refine h.header hhard hempty (by simp [hchunk, Chunk.IsHeader]) ?_ hwritten
    (forall₂_keepsRecord_set hentry (.refl entry)) ?_
  · intro data _
    rw [hchunk, segmentOf, recordedMembers_get hentry]
    rfl
  · intro _ _
    exact hhard.slot_nothing (by simp [hchunk, Chunk.Reads])

/-- The end of the archive. -/
theorem Recorded.eocd (hhard : Hardened a s) (h : Recorded out read s)
    (hsizes : sizes = layoutSizes a.members) (hempty : s.readState.stagingBuffer = [])
    (hchunk : s.readState.currentChunk = .eocd) :
    (processChunk sizes ctx fuel initialRemaining size).wp (fun _ => True)
      (fun r s' => NoError r → RecordedStep out s s') s := by
  unfold processChunk readChunk
  rw [wp_bind, wp_get_bind, hchunk]
  simp only
  rw [wp_bind, wp_lift, readEocd_eq]
  refine writePieces_wp (eocdBytes a.members) ?_ hempty (hhard.processed (by simp [hchunk]))
    (by rw [length_eocdBytes]; decide) ?_
  · simp [eocdBytes, hsizes, hhard.listed.length]
  intro rs output appended hwritten
  refine h.header hhard hempty (by simp [hchunk, Chunk.IsHeader]) ?_ hwritten
    (forall₂_keepsRecord_refl s.entries) (by simp [hchunk])
  intro data _
  rw [hchunk]
  exact eocdBytes_recorded hhard.listed

/-- The CRC in the archive is that of the entry. -/
theorem getCrc_known {t : EntryFrame E H} (h : t.entry.crc32 = none → t.entry.size = 0) :
    (getCrc ctx fuel).wp (fun _ => True) (fun r t' =>
      r = .ok (t.entry.crc32.getD (H.hash [])) ∧
        t' = t.setCrc (t.entry.crc32.getD (H.hash []))) t := by
  unfold getCrc
  rw [wp_get_bind]
  cases hcrc : t.entry.crc32 with
  | some crc =>
    refine ⟨rfl, ?_⟩
    unfold EntryFrame.setCrc
    rw [Option.getD_some, ← hcrc]
  | none =>
    dsimp only
    rw [if_pos (h hcrc)]
    exact ⟨rfl, rfl⟩

/-- A header that carries the CRC of an entry whose data was read. -/
theorem Recorded.crcHeader {write : UInt32 → EntryFrame E H → Exec (ReadState × ReadBuf)}
    (header : Member → List UInt8) (hhard : Hardened a s) (h : Recorded out read s)
    (hempty : s.readState.stagingBuffer = []) (hentry : s.entries[i]? = some entry)
    (hpast : s.readState.currentChunk.PastData i) (hheader : s.readState.currentChunk.IsHeader)
    (hlocal : ∀ i, s.readState.currentChunk ≠ .localHeader i)
    (hsegment : ∀ ms m, ms[i]? = some m →
      (segmentOf H ms s.readState.currentChunk).items = header m)
    (hlen : ∀ m : Member, m.name.length < 65536 → (header m).length < 2 ^ 63)
    (hcrc : ∀ m m' : Member, m = { m' with data := m.data } → header m = header m')
    (hwrite : ∀ (t : EntryFrame E H) m, t.entry.name.length < 65536 → Describes t.entry m →
      ∃ pieces, pieces.flatten = header m ∧
        write m.crc t = writePieces t.readState t.output pieces) :
    (zippityReady initialRemaining (onEntry i (do
        let crc32 ← getCrc ctx fuel
        writeHeader (write crc32)
        pure true)) >>= fun flow => match flow with
      | .go chunkDone => do
        finishChunk size chunkDone
        pure (.go ())
      | .leave => pure .leave
      | .ret => pure .ret).wp (fun _ => True)
      (fun (r : PollResult (IoError E) (Flow Unit)) s' => NoError r → RecordedStep out s s') s := by
  have hi : i < a.members.length := by
    rw [← hhard.listed.length]
    exact (List.getElem?_eq_some_iff.mp hentry).1
  have hname : entry.name.length < 65536 := by
    obtain ⟨entry', hentry', hname⟩ := hhard.exists_entry hi
    rw [hentry] at hentry'
    cases hentry'
    exact hname
  have hdata : ∀ i, s.readState.currentChunk ≠ .entryData i := by
    intro i heq
    rw [heq] at hheader
    exact hheader
  let crc := entry.crc32.getD (H.hash [])
  let m : Member := { entry.recorded H [] with crc := crc }
  rw [wp_bind, zippityReady_wp, onEntry_wp hentry, wp_bind]
  refine wp_mono (getCrc_known (h.known hentry hpast)) (fun _ hf => hf) ?_
  rintro _ _ ⟨rfl, rfl⟩
  simp only [andThen]
  rw [wp_bind, writeHeader_wp]
  obtain ⟨pieces, hpieces, heq⟩ := hwrite
    (EntryFrame.setCrc ⟨s.readState, entry, s.pinned, s.output⟩ crc) m hname ⟨rfl, rfl, rfl, rfl, rfl⟩
  rw [show write (entry.crc32.getD (H.hash [])) _ = _ from heq]
  refine writePieces_wp (header m) hpieces hempty (hhard.processed hdata) (hlen m hname) ?_
  intro rs output appended hwritten
  refine h.header hhard hempty hheader ?_ hwritten (forall₂_keepsRecord_set hentry ?_) ?_
  · intro data hcompletes
    rw [hsegment _ _ (recordedMembers_get hentry)]
    apply hcrc
    show entry.recorded H (data i) = { entry.recorded H (data i) with crc := crc }
    rw [← show _ = crc from h.crc hcompletes hentry hpast]
  · refine ⟨⟨some crc, rfl, ?_⟩, fun _ => rfl⟩
    intro c hc
    show some (entry.crc32.getD (H.hash [])) = some c
    rw [hc]
    rfl
  · intro j hj
    exact absurd hj (hlocal j)

end Turns

/-! ### Entry data -/

/-- What `read_entry_data` answers and leaves when `bytes` were read before and nothing is to be
    skipped. -/
inductive DataRecorded (t : EntryFrame E H) (bytes : List UInt8) :
    PollResult (IoError E) Bool → EntryFrame E H → Prop where
  | waits {slot : ReaderPinned E H} (opened : List Name) (hslot : SlotRead slot bytes) :
    DataRecorded t bytes .pending { t with pinned := ⟨slot, opened⟩ }
  | more {reader : CrcReader E H} {output : ReadBuf} {piece : List UInt8} (opened : List Name)
    (houtput : t.output.Extends piece output)
    (hslot : SlotRead (.fileReader reader) (bytes ++ piece)) :
    DataRecorded t bytes (.ok false) { t with
      readState.chunkProcessedSize := t.readState.chunkProcessedSize + piece.length
      pinned := ⟨.fileReader reader, opened⟩
      output := output }
  /-- The data is at its end, with its size and its CRC. -/
  | done (opened : List Name) (hsize : t.readState.chunkProcessedSize = t.entry.size)
    (hcrc : ∀ crc, t.entry.crc32 = some crc → crc = H.hash bytes) :
    DataRecorded t bytes (.ok true)
      { t.setCrc (H.hash bytes) with pinned := ⟨.nothing, opened⟩ }
  | failed (e : IoError E) (t' : EntryFrame E H) : DataRecorded t bytes (.err e) t'

section EntryData
variable {t : EntryFrame E H} {bytes : List UInt8} {ctx : E.Context} {fuel : Nat}
  {reader : CrcReader E H}

/-- A future or a reader that was waited for is kept. -/
theorem getReader_recorded (h : SlotRead t.pinned.slot bytes) :
    (getReader ctx).wp (fun _ => True) (fun r t' => ∃ slot opened,
      t' = { t with pinned := ⟨slot, opened⟩ } ∧ SlotRead slot bytes ∧
        ∀ reader, r = .ok reader → slot = .fileReader reader) t := by
  have hfuture : ∀ (pinned : Pinned E H) (future : E.Future) (completed : Bool),
      pinned.slot = .readerFuture future completed → bytes = [] →
      (pollFuture ctx >>= fun _ => fileReader).wp (fun _ => True) (fun r t' => ∃ slot opened,
        t' = { t with pinned := ⟨slot, opened⟩ } ∧ SlotRead slot bytes ∧
          ∀ reader, r = .ok reader → slot = .fileReader reader) { t with pinned } := by
    rintro ⟨_, opened⟩ future completed rfl hnone
    rw [wp_bind]
    unfold pollFuture Async.wp
    cases completed with
    | true => trivial
    | false =>
      dsimp only
      rcases E.poll future ctx with ⟨_ | e | reader, future'⟩
      · exact ⟨_, opened, rfl, hnone, fun _ h => by cases h⟩
      · exact ⟨_, opened, rfl, hnone, fun _ h => by cases h⟩
      · -- a fresh reader has hashed nothing
        refine ⟨_, opened, rfl, ⟨rfl, hnone ▸ Crc32Fast.fed_new⟩, ?_⟩
        rintro _ ⟨⟩
        rfl
  unfold getReader openFuture
  rw [wp_bind, wp_get_bind]
  cases hs : t.pinned.slot with
  | nothing =>
    rw [hs] at h
    exact hfuture ⟨.readerFuture (E.getReader t.entry.data) false,
      t.pinned.opened ++ [t.entry.name]⟩ _ _ rfl h
  | readerFuture future completed =>
    rw [hs] at h
    exact hfuture t.pinned _ _ hs h
  | fileReader reader =>
    have hpoll : pollFuture ctx t = .ok (.ok (), t) := by
      unfold pollFuture
      rw [hs]
    have hpolled : (pollFuture ctx >>= fun _ => fileReader).wp (fun _ => True)
        (fun r t' => ∃ slot opened, t' = { t with pinned := ⟨slot, opened⟩ } ∧
          SlotRead slot bytes ∧ ∀ reader, r = .ok reader → slot = .fileReader reader) t := by
      rw [wp_bind]
      unfold Async.wp
      rw [hpoll, Exec.wp_ok]
      simp only [andThen]
      rw [fileReader_wp hs]
      refine ⟨t.pinned.slot, t.pinned.opened, rfl, h, ?_⟩
      rintro _ ⟨⟩
      exact hs
    exact hpolled

/-- What is read is hashed. -/
theorem CrcReader.pollRead_recorded (ctx : E.Context) (h : SlotRead (.fileReader reader) bytes)
    (data : E.Data) (buf : ReadBuf) :
    ((∀ buf', (reader.pollRead data ctx buf).1 ≠ .ok buf') →
        SlotRead (.fileReader (reader.pollRead data ctx buf).2) bytes) ∧
      ∀ buf', (reader.pollRead data ctx buf).1 = .ok buf' → ∃ piece, buf.Extends piece buf' ∧
        SlotRead (.fileReader (reader.pollRead data ctx buf).2) (bytes ++ piece) := by
  obtain ⟨hdid, hfed⟩ := h
  unfold CrcReader.pollRead EntryData.pollReadInto
  rcases E.pollRead reader.innerReader data ctx buf with ⟨_ | e | piece, inner⟩
  · exact ⟨fun _ => ⟨hdid, hfed⟩, fun _ h => by cases h⟩
  · exact ⟨fun _ => ⟨hdid, hfed⟩, fun _ h => by cases h⟩
  · refine ⟨fun h => absurd rfl (h _), ?_⟩
    rintro _ ⟨⟩
    refine ⟨piece.1, .append piece.2, hdid, ?_⟩
    show H.Fed (H.update reader.hasher
      ((buf.append piece.1 piece.2).filled.drop buf.filled.length)) _
    rw [(ReadBuf.Extends.append piece.2).drop_filled]
    exact hfed.update piece.1

/-- The end of the data. -/
theorem finishEntryData_recorded (hslot : t.pinned.slot = .fileReader reader)
    (h : SlotRead (.fileReader reader) bytes) :
    (finishEntryData : EntryRead E H Bool).wp (fun _ => True) (DataRecorded t bytes) t := by
  -- the check of the size, when the CRC is right
  have hsize : (∀ crc, t.entry.crc32 = some crc → crc = H.hash bytes) → Async.wp
      (if t.readState.chunkProcessedSize = t.entry.size then pure true
        else throw (.read (.sizeMismatch t.entry.name t.entry.size
          t.readState.chunkProcessedSize)) : EntryRead E H Bool)
      (fun _ => True) (DataRecorded t bytes)
      { t.setCrc (H.hash bytes) with pinned := ⟨.nothing, t.pinned.opened⟩ } := by
    intro hcrc
    split
    · next hall => exact .done t.pinned.opened hall hcrc
    · exact .failed _ _
  have hactual : reader.getCrc32 = some (H.hash bytes) := by
    unfold CrcReader.getCrc32
    rw [h.1, h.2.finalize]
    rfl
  unfold finishEntryData
  rw [wp_get_bind, wp_bind, fileReader_wp hslot]
  simp only [andThen, hactual]
  cases hcrc : t.entry.crc32 with
  | none => exact hsize fun crc hc => by rw [hcrc] at hc; cases hc
  | some expectedCrc =>
    by_cases heq : expectedCrc = H.hash bytes
    · simp only [ne_eq, heq, not_true_eq_false, if_false]
      refine hsize fun crc hc => ?_
      rw [hcrc] at hc
      cases hc
      exact heq
    · simp only [ne_eq, heq, not_false_eq_true, if_true]
      exact .failed _ _

/-- **`read_entry_data`** hashes what it delivers, and is done only with the CRC of it. -/
theorem readEntryData_recorded (hskip : t.readState.toSkip = 0) (h : SlotRead t.pinned.slot bytes) :
    (readEntryData ctx fuel).wp (fun _ => True) (DataRecorded t bytes) t := by
  unfold readEntryData
  rw [wp_bind]
  refine wp_mono (getReader_recorded h) (fun _ hf => hf) ?_
  rintro r _ ⟨slot, opened, rfl, hslot, hreader⟩
  cases r with
  | pending => exact .waits opened hslot
  | err e => exact .failed e _
  | ok reader =>
    obtain rfl := hreader reader rfl
    simp only [andThen]
    unfold skipEntryData outputEntryData
    rw [wp_bind, wp_get_bind, if_neg (by simp [hskip]), wp_pure]
    simp only [andThen]
    rw [wp_get_bind, wp_bind, onFileReader_wp rfl]
    have hread := CrcReader.pollRead_recorded ctx hslot t.entry.data t.output
    generalize reader.pollRead t.entry.data ctx t.output = result at hread
    rcases result with ⟨_ | e | output, reader'⟩
    · exact .waits opened (hread.1 fun _ h => by cases h)
    · exact .failed _ _
    · obtain ⟨piece, hext, hfed⟩ := hread.2 output rfl
      simp only [andThen]
      rw [wp_modify_bind]
      by_cases hsame : output.remaining = t.output.remaining
      · -- nothing was appended: the buffer and the bytes are what they were
        rw [if_pos hsame]
        obtain rfl := hext.eq_nil_iff.mpr hsame
        rw [hext.eq_of_nil]
        rw [List.append_nil] at hfed
        refine wp_mono (finishEntryData_recorded rfl hfed) (fun _ hf => hf) ?_
        rintro _ _ ⟨⟩
        · next slot opened hslot => exact .waits opened hslot
        · next reader output piece opened houtput hslot => exact .more opened houtput hslot
        · next opened hsize hcrc => exact .done opened hsize hcrc
        · exact .failed _ _
      · have hlen := hext.remaining
        have hfilled := congrArg List.length hext.filled
        rw [List.length_append] at hfilled
        have hpiece : t.output.remaining - output.remaining = piece.length := by omega
        rw [if_neg hsame, wp_bind, wp_lift]
        refine Exec.wp_subU64 (fun _ => trivial) fun _ => ?_
        simp only [andThen]
        rw [wp_bind, wp_lift, Exec.assert_eq (by rw [List.length_drop]; omega)]
        simp only [Exec.wp_ok, andThen]
        rw [wp_bind, wp_lift]
        refine Exec.wp_addU64 (fun _ => trivial) fun _ => ?_
        rw [hpiece]
        exact .more opened hext hfed

end EntryData

/-! ### Turns -/

section Data
variable {a : Archive} {s : Frame E H} {out : List UInt8} {read : Nat → List UInt8} {sizes : Sizes}
  {ctx : E.Context} {fuel initialRemaining size i : Nat} {entry : ReaderEntry E}

/-- The slot may be another one that has read the same. -/
theorem Recorded.waits {slot : ReaderPinned E H} (opened : List Name) (h : Recorded out read s)
    (hchunk : s.readState.currentChunk = .entryData i) (hslot : SlotRead slot (read i)) :
    Recorded out read { s with pinned := ⟨slot, opened⟩ } := by
  refine ⟨h.unskipped, h.staged, h.behind, h.ahead, h.empty, ?_, h.bytes⟩
  intro j hj
  obtain rfl : i = j := Chunk.entryData.inj (hchunk.symm.trans hj)
  exact ⟨(h.reading i hj).1, hslot⟩

/-- A piece of the data was delivered. -/
theorem Recorded.more {reader : CrcReader E H} {piece : List UInt8} (opened : List Name)
    (output : ReadBuf) (hhard : Hardened a s) (h : Recorded out read s)
    (hempty : s.readState.stagingBuffer = []) (hchunk : s.readState.currentChunk = .entryData i)
    (hentry : s.entries[i]? = some entry) (hsize : entry.size ≠ 0)
    (hslot : SlotRead (.fileReader reader) (read i ++ piece)) :
    Recorded (out ++ piece) (Function.update read i (read i ++ piece)) { s with
      readState.chunkProcessedSize := s.readState.chunkProcessedSize + piece.length
      pinned := ⟨.fileReader reader, opened⟩
      output := output } := by
  have hprocessed := (h.reading i hchunk).1
  -- only this entry is read on
  have hother : ∀ j, j ≠ i → Function.update read i (read i ++ piece) j = read j :=
    fun j hj => Function.update_of_ne hj _ _
  have hthis : Function.update read i (read i ++ piece) i = read i ++ piece :=
    Function.update_self _ _ _
  constructor
  · exact h.unskipped
  · exact h.staged
  · intro j entry' hentry' hsize' hpast
    have hj : j ≠ i := by
      rintro rfl
      have hlt : (s.readState.currentChunk).PastData j := hpast
      rw [hchunk] at hlt
      exact Nat.lt_irrefl j hlt
    rw [hother j hj]
    exact h.behind j entry' hentry' hsize' hpast
  · intro j hpast hdata
    rw [hother j fun heq => hdata (heq ▸ hchunk)]
    exact h.ahead j hpast hdata
  · intro j entry' hentry' hsize'
    have hj : j ≠ i := by
      rintro rfl
      rw [hentry] at hentry'
      cases hentry'
      exact hsize hsize'
    rw [hother j hj]
    exact h.empty j entry' hentry' hsize'
  · intro j hj
    obtain rfl : i = j := Chunk.entryData.inj (hchunk.symm.trans hj)
    rw [hthis, List.length_append]
    exact ⟨congrArg (· + piece.length) hprocessed, hslot⟩
  · intro data hcompletes
    have hbegins := hcompletes.begins i
    rw [hthis] at hbegins
    obtain ⟨rest, hrest⟩ := hbegins
    have hbefore : Completes s.entries read data := by
      refine ⟨fun j => ?_, hcompletes.sizes⟩
      by_cases hj : j = i
      · subst hj
        exact (List.prefix_append _ _).trans (hthis ▸ hcompletes.begins j)
      · exact hother j hj ▸ hcompletes.begins j
    have hbytes := h.bytes data hbefore
    have hlocated : s.readState.currentChunk.Located (recordedMembers H s.entries data).length := by
      rw [length_recordedMembers, hhard.listed.length]
      exact hhard.located
    rw [hempty, List.drop_nil, List.append_nil, bytesFrom_eq hlocated (by simp [hchunk]),
      hprocessed] at hbytes
    show out ++ piece ++ s.readState.stagingBuffer.drop s.readState.toSkip ++
      (bytesFrom H _ s.readState.currentChunk).drop (s.readState.chunkProcessedSize + piece.length) = _
    rw [hempty, List.drop_nil, List.append_nil, bytesFrom_eq hlocated (by simp [hchunk]),
      hprocessed, ← hbytes]
    have hitems : (segmentOf H (recordedMembers H s.entries data) s.readState.currentChunk).items =
        read i ++ (piece ++ rest) := by
      rw [hchunk, segmentOf, recordedMembers_get hentry, ← List.append_assoc, hrest]
      rfl
    rw [hitems, ← List.drop_drop, List.append_assoc (read i), List.drop_left,
      List.append_assoc piece, List.drop_left, List.append_assoc out]

/-- The data was read to its end. -/
theorem Recorded.done (opened : List Name) (hhard : Hardened a s) (h : Recorded out read s)
    (hchunk : s.readState.currentChunk = .entryData i)
    (hentry : s.entries[i]? = some entry) (hne : entry.size ≠ 0)
    (hsize : s.readState.chunkProcessedSize = entry.size)
    (hcrc : ∀ crc, entry.crc32 = some crc → crc = H.hash (read i)) :
    List.Forall₂ (KeepsRecord H) s.entries
        (s.entries.set i { entry with crc32 := some (H.hash (read i)) }) ∧
      Recorded out read ({ s with
        readState.currentChunk := .dataDescriptor i
        readState.chunkProcessedSize := 0
        entries := s.entries.set i { entry with crc32 := some (H.hash (read i)) }
        pinned := ⟨.nothing, opened⟩ } : Frame E H) := by
  have hprocessed := (h.reading i hchunk).1
  have hkept : List.Forall₂ (KeepsRecord H) s.entries
      (s.entries.set i { entry with crc32 := some (H.hash (read i)) }) := by
    refine forall₂_keepsRecord_set hentry ⟨⟨_, rfl, ?_⟩, fun hzero => absurd hzero hne⟩
    intro crc hc
    rw [hcrc crc hc]
  have hi := (List.getElem?_eq_some_iff.mp hentry).1
  refine ⟨hkept, ?_⟩
  constructor
  · exact h.unskipped
  · exact h.staged
  · intro j entry' hentry' hsize' hpast
    have hle : j ≤ i := hpast
    rcases Nat.lt_or_eq_of_le hle with hlt | rfl
    · rw [List.getElem?_set_ne (by omega)] at hentry'
      refine h.behind j entry' hentry' hsize' ?_
      rw [hchunk]
      exact hlt
    · rw [List.getElem?_set_self hi] at hentry'
      cases hentry'
      exact ⟨hprocessed.symm.trans hsize, rfl⟩
  · intro j hpast _
    have hlt : ¬ j ≤ i := hpast
    refine h.ahead j ?_ ?_
    · rw [hchunk]
      show ¬ j < i
      omega
    · rw [hchunk]
      intro heq
      cases heq
      exact hlt (Nat.le_refl _)
  · intro j entry' hentry' hsize'
    obtain ⟨entry₀, hentry₀, hkeeps⟩ := Forking.forall₂_getElem?_right hkept hentry'
    exact h.empty j entry₀ hentry₀ (hkeeps.size ▸ hsize')
  · intro j hdata
    cases hdata
  · intro data hcompletes
    have hbefore := hcompletes.keeps hkept
    have hbytes := h.bytes data hbefore
    have hdata : (data i).length = s.readState.chunkProcessedSize :=
      (hbefore.sizes i entry hentry).trans hsize.symm
    have hlocated : s.readState.currentChunk.Located (recordedMembers H s.entries data).length := by
      rw [length_recordedMembers, hhard.listed.length]
      exact hhard.located
    have hitems : (segmentOf H (recordedMembers H s.entries data) s.readState.currentChunk).items =
        data i := by
      rw [hchunk, segmentOf, recordedMembers_get hentry]
      rfl
    rw [bytesFrom_eq hlocated (by simp [hchunk]), hitems, ← hdata, List.drop_left, hchunk]
      at hbytes
    show _ ++ _ ++ (bytesFrom H (recordedMembers H _ data) (.dataDescriptor i)).drop 0 = _
    rw [recordedMembers_keeps hkept, List.drop_zero]
    exact hbytes

/-- A turn at entry data. -/
theorem Recorded.entryData (hhard : Hardened a s) (h : Recorded out read s)
    (hempty : s.readState.stagingBuffer = []) (hchunk : s.readState.currentChunk = .entryData i)
    (hsize : s.readState.currentChunk.size s.entries = .ok size) (hne : size ≠ 0) :
    (processChunk sizes ctx fuel initialRemaining size).wp (fun _ => True)
      (fun r s' => NoError r → RecordedStep out s s') s := by
  have hlocated := hhard.located
  rw [hchunk] at hlocated
  obtain ⟨entry, hentry, _⟩ := hhard.exists_entry hlocated
  have hlen : size = entry.size := by
    simp only [hchunk, Chunk.size, entryAt_eq hentry, Exec.ok_bind] at hsize
    cases hsize
    rfl
  have hskip : s.readState.toSkip = 0 := h.unskipped hempty
  have hset := set_of_getElem? hentry
  unfold processChunk readChunk
  rw [wp_bind, wp_get_bind, hchunk]
  simp only
  by_cases hwritten : s.output.remaining = initialRemaining
  · rw [if_neg (by simpa using hwritten), zippityReady_wp, onEntry_wp hentry]
    refine wp_mono (readEntryData_recorded hskip (h.reading i hchunk).2) (fun _ hf => hf) ?_
    rintro _ _ ⟨⟩
    · next slot opened hslot =>
      have hwaits : Recorded out read { s with pinned := ⟨slot, opened⟩ } :=
        h.waits opened hchunk hslot
      have hstep : RecordedStep out s
          (Frame.restore i ⟨s.readState, entry, ⟨slot, opened⟩, s.output⟩ s) := by
        unfold Frame.restore
        rw [hset]
        refine ⟨[], read, .refl _, forall₂_keepsRecord_refl _, ?_⟩
        rw [List.append_nil]
        exact hwaits
      show if (Frame.restore i _ s).output.remaining = initialRemaining then _ else _
      split
      · exact fun _ => hstep
      · exact fun _ => hstep
    · next reader output piece opened houtput hslot =>
      intro _
      have hmore := h.more opened output hhard hempty hchunk hentry (hlen ▸ hne) hslot
      unfold Frame.restore
      dsimp only
      rw [hset]
      exact ⟨piece, _, houtput, forall₂_keepsRecord_refl _, hmore⟩
    · next opened hall hcrc =>
      simp only [andThen]
      unfold finishChunk
      rw [if_pos rfl, wp_bind, wp_get_bind, wp_bind, wp_lift]
      refine Exec.wp_assert (fun _ => trivial) fun _ => ?_
      simp only [andThen]
      have hlisted : (s.entries.set i (EntryFrame.setCrc
          ⟨s.readState, entry, s.pinned, s.output⟩ (H.hash (read i))).entry).length =
          a.members.length := by
        rw [List.length_set, hhard.listed.length]
      rw [wp_bind, wp_lift]
      unfold Frame.restore
      dsimp only
      rw [show (EntryFrame.setCrc ⟨s.readState, entry, s.pinned, s.output⟩
        (H.hash (read i))).readState.currentChunk = .entryData i from hchunk]
      rw [chunkNext_eq hlisted (by simp), Exec.wp_ok]
      intro _
      obtain ⟨hkept, hdone⟩ := h.done opened hhard hchunk hentry (hlen ▸ hne) hall hcrc
      refine ⟨[], read, .refl _, hkept, ?_⟩
      rw [List.append_nil]
      exact hdone
    · intro herr
      exact absurd rfl (herr _)
  · rw [if_pos hwritten, hempty, Exec.assert_eq rfl]
    exact fun _ => h.stays

/-- A turn at a chunk that is not skipped. -/
theorem Recorded.processChunk (hhard : Hardened a s) (h : Recorded out read s)
    (hsizes : sizes = layoutSizes a.members) (hempty : s.readState.stagingBuffer = [])
    (hfin : s.readState.currentChunk ≠ .finished)
    (hsize : s.readState.currentChunk.size s.entries = .ok size) (hne : size ≠ 0) :
    (processChunk sizes ctx fuel initialRemaining size).wp (fun _ => True)
      (fun r s' => NoError r → RecordedStep out s s') s := by
  have hlocated := hhard.located
  cases hchunk : s.readState.currentChunk with
  | localHeader i => exact h.localHeader hhard hempty hchunk
  | entryData i => exact h.entryData hhard hempty hchunk hsize hne
  | dataDescriptor i =>
    rw [hchunk] at hlocated
    obtain ⟨entry, hentry, _⟩ := hhard.exists_entry hlocated
    unfold Zippity.processChunk readChunk
    rw [wp_bind, wp_get_bind, hchunk]
    simp only
    rw [← wp_bind]
    refine h.crcHeader Member.descriptorBytes hhard hempty hentry
      (hchunk ▸ Nat.le_refl i) (hchunk ▸ trivial) (by simp [hchunk]) ?_ ?_ ?_ ?_
    · intro ms m hm
      rw [hchunk, segmentOf, hm]
      rfl
    · intro m hname
      exact (length_header_lt hname).2.1
    · intro m m' hm
      rw [hm]
      rfl
    · intro t m _ hdescribes
      refine ⟨[pack (dataDescriptor64 m.crc m.size)], by simp [Member.descriptorBytes], ?_⟩
      rw [← hdescribes.size]
      exact putDataDescriptor_eq
  | cdFileHeader i =>
    rw [hchunk] at hlocated
    obtain ⟨entry, hentry, _⟩ := hhard.exists_entry hlocated
    unfold Zippity.processChunk readChunk
    rw [wp_bind, wp_get_bind, hchunk]
    simp only
    rw [← wp_bind]
    refine h.crcHeader Member.centralBytes hhard hempty hentry
      (hchunk ▸ trivial) (hchunk ▸ trivial) (by simp [hchunk]) ?_ ?_ ?_ ?_
    · intro ms m hm
      rw [hchunk, segmentOf, hm]
      rfl
    · intro m hname
      exact (length_header_lt hname).2.2
    · intro m m' hm
      rw [hm]
      rfl
    · intro t m hname hdescribes
      refine ⟨_, ?_, putCdFileHeader_eq hname⟩
      simp [Member.centralBytes, hdescribes.name, hdescribes.datetime, hdescribes.size,
        hdescribes.offset, hdescribes.externalAttributes, Member.nameLen]
  | eocd => exact h.eocd hhard hsizes hempty hchunk
  | finished => exact absurd hchunk hfin

/-- **A turn of the loop** keeps the record, whatever the sources do. -/
theorem Recorded.readIteration (hhard : Hardened a s) (h : Recorded out read s)
    (hsizes : sizes = layoutSizes a.members) (hroom : 0 < s.output.remaining) :
    (readIteration sizes ctx fuel initialRemaining).wp (fun _ => True)
      (fun r s' => NoError r → RecordedStep out s s') s := by
  unfold Zippity.readIteration
  rw [wp_get_bind]
  split
  · next hne =>
    rw [wp_bind, wp_lift]
    refine Exec.wp_mono (h.readFromStaging hhard hne hroom) (fun _ hf => hf) ?_
    intro result hstep _
    exact hstep
  · next hempty =>
    have hempty : s.readState.stagingBuffer = [] := not_not.mp hempty
    have hskip : s.readState.toSkip = 0 := h.unskipped hempty
    split
    · exact fun _ => h.stays
    · next hfin =>
      rw [wp_bind, wp_lift]
      cases hsize : s.readState.currentChunk.size s.entries with
      | error f => trivial
      | ok size =>
        rw [Exec.wp_ok]
        simp only [andThen]
        split
        · next hle =>
          -- entry data of no size
          have hzero : size = 0 := by omega
          obtain ⟨i, entry, hchunk, hentry, hnone⟩ := Chunk.eq_entryData (hzero ▸ hsize)
          rw [wp_bind, wp_lift, Exec.subU64_eq hle, hzero]
          simp only [Exec.wp_ok, andThen]
          rw [wp_bind, wp_lift, chunkNext_eq hhard.listed.length hfin, Exec.wp_ok, hchunk]
          intro _
          have hnext := h.skip hhard hchunk hentry hnone
          refine ⟨[], read, .refl _, forall₂_keepsRecord_refl _, ?_⟩
          rw [List.append_nil]
          exact hnext
        · next hlt =>
          exact h.processChunk hhard hsizes hempty hfin hsize (by omega)

theorem RecordedStep.trans {s' s'' : Frame E H} {bytes : List UInt8}
    (h : s.output.Extends bytes s'.output)
    (hkept : List.Forall₂ (KeepsRecord H) s.entries s'.entries)
    (h' : RecordedStep (out ++ bytes) s' s'') : RecordedStep out s s'' := by
  obtain ⟨bytes', read', hext, hkept', hrecorded⟩ := h'
  refine ⟨bytes ++ bytes', read', h.trans hext, forall₂_keepsRecord_trans hkept hkept', ?_⟩
  rw [← List.append_assoc]
  exact hrecorded

/-- The loop keeps it. -/
theorem Recorded.readLoop (hhard : Hardened a s) (h : Recorded out read s)
    (hsizes : sizes = layoutSizes a.members) :
    (readLoop sizes ctx initialRemaining fuel).wp (fun _ => True)
      (fun r s' => NoError r → RecordedStep out s s') s := by
  refine readLoop_rule (I := fun _ s' => Hardened a s' ∧ RecordedStep out s s')
    (fun _ _ => trivial) ?_ (fun _ _ hstep _ _ => hstep.2) ⟨hhard, h.stays⟩
  rintro fuel s₁ ⟨hhard₁, bytes, read₁, hext, hkept, hrecorded⟩ hroom
  refine wp_run (wp_mono (hrecorded.readIteration hhard₁ hsizes hroom) (fun _ hf => hf) ?_)
  intro r s₂ hstep hrun
  have hturn := hardTurn_of_readIteration hhard₁ hrun
  refine ⟨?_, fun _ hno => RecordedStep.trans hext hkept (hstep hno)⟩
  rintro rfl
  exact ⟨hturn.step.hardened, RecordedStep.trans hext hkept (hstep fun _ h => by cases h)⟩

/-- The output and the position are no part of the record. -/
theorem Recorded.congr {s' : Frame E H} (h : Recorded out read s) (hentries : s'.entries = s.entries)
    (hpinned : s'.pinned = s.pinned)
    (hrs : s'.readState = { s.readState with position := s'.readState.position }) :
    Recorded out read s' := by
  obtain ⟨rs', entries', pinned', output'⟩ := s'
  cases hentries
  cases hpinned
  have hrs' : rs' = { s.readState with position := rs'.position } := hrs
  rw [hrs']
  exact ⟨h.unskipped, h.staged, h.behind, h.ahead, h.empty, h.reading, h.bytes⟩

end Data

/-! ### Readers -/

section Readers
variable {a : Archive} {r r' : Reader E H} {out : List UInt8} {read : Nat → List UInt8}
  {ops : List (Op E)}

/-- **A call of `poll_read` without an error** delivers what is recorded. -/
theorem Recorded.pollRead {ctx : E.Context} {fuel : Nat} {buf buf' : ReadBuf}
    {answer : PollResult (IoError E) Unit} (hguarded : Guarded a r) (h : Recorded out read r.still)
    (hno : NoError answer) (hpoll : r.pollRead ctx fuel buf = .ok (answer, r', buf')) :
    ∃ bytes read', buf.Extends bytes buf' ∧ List.Forall₂ (KeepsRecord H) r.entries r'.entries ∧
      Recorded (out ++ bytes) read' r'.still := by
  have hloop : (Zippity.readLoop r.sizes ctx buf.remaining fuel).wp (fun _ => True)
      (fun r₁ s' => NoError (r₁.map fun _ => ()) → RecordedStep out (r.frame buf) s')
      (r.frame buf) := by
    refine wp_mono (Recorded.readLoop (s := r.frame buf) (hguarded.hardened.congr rfl rfl rfl)
      (h.congr rfl rfl rfl) hguarded.sizes) (fun _ hf => hf) ?_
    rintro (_ | e | flow) s' hstep hno
    · exact hstep fun _ h => by cases h
    · exact absurd rfl (hno e)
    · exact hstep fun _ h => by cases h
  have hcall := Exec.wp_of_eq_ok (pollRead_rule (F := fun _ => True)
    (Q := fun answer s' => NoError answer → RecordedStep out (r.frame buf) s') trivial ?_ hloop)
    hpoll
  · obtain ⟨_, hstep⟩ := hcall
    obtain ⟨bytes, read', hext, hkept, hrecorded⟩ := hstep hno
    exact ⟨bytes, read', hext, hkept, hrecorded.congr rfl rfl rfl⟩
  · -- the position is no part of the record
    intro s' position hstep hno
    obtain ⟨bytes, read', hext, hkept, hrecorded⟩ := hstep hno
    exact ⟨bytes, read', hext, hkept, hrecorded.congr rfl rfl rfl⟩

/-- A fresh reader has recorded nothing. -/
theorem recorded_new (sizes : Sizes) (entries : List (ReaderEntry E)) :
    Recorded [] (fun _ => []) (Reader.new sizes entries : Reader E H).still := by
  have hbytes : ∀ data, bytesFrom H (recordedMembers H entries data) (Chunk.new entries) =
      archiveBytes (recordedMembers H entries data) := by
    intro data
    rw [← items_segments (H := H), ← segmentsFrom_new]
    cases entries with
    | nil => rfl
    | cons first rest =>
      unfold recordedMembers
      rw [List.mapIdx_cons]
      rfl
  constructor
  · exact fun _ => rfl
  · exact fun hne => absurd rfl hne
  · intro i entry hentry _ hpast
    cases entries with
    | nil => cases hentry
    | cons first rest => exact absurd hpast (Nat.not_lt_zero i)
  · exact fun _ _ _ => rfl
  · exact fun _ _ _ _ => rfl
  · intro i hdata
    cases entries with
    | nil => cases hdata
    | cons first rest => cases hdata
  · intro data _
    exact hbytes data

end Readers

end Model

end Zippity
