import Zippity.Reader.Copies
import Zippity.Reader.Hostile

/-! # The invariant against any entry data

    `Hardened` is what the state of a reader keeps to itself: whatever the
    sources do, a slot that is not empty waits for the entry of the current
    chunk, only entry data is left half processed, and no more is staged than
    one header.

    `GoTurn` says what the turns do that go on.  From it come the turns that a
    call takes (`Frame.turnsLeft`) and, in `Late`, where a call can be
    interrupted after it wrote.
-/

namespace Zippity

open Framework Async
open Exec (addU64 subU64)

section Model
variable {E : EntryData} {H : Crc32Fast}

/-- The size of the largest header: a central directory header with the longest name. -/
def maxHeader : Nat := 46 + (65535 + 28)

/-- A header from which bytes may be left to be staged; the CRC in a data descriptor is known. -/
structure LeavesStaged (a : Archive) (s : Frame E H) (c : Chunk) : Prop where
  header : c.IsHeader
  located : c.Located a.members.length
  staged : s.readState.stagingBuffer.length ≤ (segmentOf H a.members c).size
  crc : ∀ i, c = .dataDescriptor i → ∀ entry, s.entries[i]? = some entry → entry.crc32 ≠ none

/-- The invariant of the read loop that does not depend on the sources. -/
structure Hardened (a : Archive) (s : Frame E H) : Prop where
  listed : Listed a.members s.entries
  located : s.readState.currentChunk.Located a.members.length
  staged : s.readState.stagingBuffer.length ≤ maxHeader
  /-- What is staged is of the header in front of the current chunk. -/
  leaves : s.readState.stagingBuffer ≠ [] → ∃ c, LeavesStaged a s c ∧
    c.succ a.members.length = s.readState.currentChunk
  /-- Only entry data is left in the middle, and then it is not skipped. -/
  begun : s.readState.chunkProcessedSize ≠ 0 → s.readState.stagingBuffer = [] ∧
    (∃ i, s.readState.currentChunk = .entryData i) ∧
    ∀ size, s.readState.currentChunk.size s.entries = .ok size → s.readState.toSkip < size
  /-- The slot waits for the entry of the current chunk. -/
  needs : s.pinned.slot ≠ .nothing → NeedsReader s.readState s.entries
  sound : ∀ (i : Nat) entry, s.readState.currentChunk.Reads i → s.entries[i]? = some entry →
    SlotSound ⟨s.readState, entry, s.pinned, s.output⟩

/-- Of the chunks only entry data may have no size. -/
theorem Chunk.eq_entryData {entries : List (ReaderEntry E)} {c : Chunk}
    (hsize : c.size entries = .ok 0) :
    ∃ i entry, c = .entryData i ∧ entries[i]? = some entry ∧ entry.size = 0 := by
  -- the fixed parts of a header take some bytes
  have hheader : ∀ fixed extra j : Nat, 0 < extra →
      (entryAt entries j >>= fun entry =>
        Exec.addU64 fixed entry.name.length >>= fun header => Exec.addU64 header extra) ≠ .ok 0 := by
    intro fixed extra j hextra h
    obtain ⟨entry, _, h⟩ := Exec.bind_eq_ok h
    obtain ⟨header, _, h⟩ := Exec.bind_eq_ok h
    have hsum := Exec.wp_of_eq_ok (Exec.wp_addU64 (F := fun _ => True) (Q := (· = header + extra))
      (fun _ => trivial) fun _ => rfl) h
    omega
  cases c with
  | localHeader j => exact absurd hsize (hheader _ _ j (by simp))
  | entryData j =>
    obtain ⟨entry, hentry, hsize⟩ := Exec.bind_eq_ok hsize
    unfold entryAt at hentry
    split at hentry
    · next entry' hentry' =>
      cases hentry
      exact ⟨j, entry, rfl, hentry', Except.ok.inj hsize⟩
    · cases hentry
  | dataDescriptor j => cases hsize
  | cdFileHeader j => exact absurd hsize (hheader _ _ j (by simp))
  | eocd => cases hsize
  | finished => cases hsize

/-- The chunks behind the data descriptor of entry `i`. -/
def Chunk.PastCrc (i : Nat) : Chunk → Prop
  | .localHeader j | .entryData j | .dataDescriptor j => i < j
  | .cdFileHeader _ | .eocd | .finished => True

/-- Only the end of the data descriptor gets behind it. -/
theorem Chunk.PastCrc.of_succ {c : Chunk} {i count : Nat} (hi : i < count)
    (h : (c.succ count).PastCrc i) : c.PastCrc i ∨ c = .dataDescriptor i := by
  cases c with
  | localHeader j => exact .inl h
  | entryData j => exact .inl h
  | dataDescriptor j =>
    have hle : i ≤ j := by
      simp only [Chunk.succ] at h
      split at h
      · exact Nat.le_of_lt_succ h
      · omega
    rcases Nat.lt_or_eq_of_le hle with hlt | rfl
    · exact .inl hlt
    · exact .inr rfl
  | cdFileHeader j => exact .inl trivial
  | eocd => exact .inl trivial
  | finished => exact .inl trivial

/-- Without a seek: nothing is skipped, and an entry whose data descriptor was read has a CRC. -/
structure CrcsBehind (s : Frame E H) : Prop where
  unskipped : Unskipped s.readState
  known : ∀ i entry, s.entries[i]? = some entry → s.readState.currentChunk.PastCrc i →
    entry.crc32 ≠ none

/-- The current chunk is read: nothing is staged in front of it, and it is not skipped. -/
def Frame.InChunk (s : Frame E H) : Prop :=
  s.readState.stagingBuffer = [] ∧
    ∃ size, s.readState.currentChunk.size s.entries = .ok size ∧ s.readState.toSkip < size

/-- What a turn does that goes on. -/
inductive GoTurn (a : Archive) (initialRemaining : Nat) (s s' : Frame E H) : Prop where
  /-- Staged bytes were output. -/
  | staged (hstaged : s.readState.stagingBuffer ≠ [])
    (hchunk : s'.readState.currentChunk = s.readState.currentChunk)
    (hslot : s'.pinned.slot = .nothing) (hunskipped : Unskipped s'.readState)
    (hfull : s'.readState.stagingBuffer ≠ [] → s'.output.remaining = 0)
    (hprocessed : s'.readState.chunkProcessedSize = 0)
  /-- A chunk was skipped by its size. -/
  | skipped (hempty : s.readState.stagingBuffer = []) (hfin : s.readState.currentChunk ≠ .finished)
    (hskip : (segmentOf H a.members s.readState.currentChunk).size ≤ s.readState.toSkip)
    (hslot : s.pinned.slot = .nothing)
    (hnext : s' = { s with
      readState.toSkip :=
        s.readState.toSkip - (segmentOf H a.members s.readState.currentChunk).size
      readState.currentChunk := s.readState.currentChunk.succ a.members.length })
  /-- A header was output or staged. -/
  | header (hempty : s.readState.stagingBuffer = []) (hheader : s.readState.currentChunk.IsHeader)
    (hchunk : s'.readState.currentChunk = s.readState.currentChunk.succ a.members.length)
    (hslot : s'.pinned.slot = .nothing) (hunskipped : Unskipped s'.readState)
    (hcrc : ∀ i, s.readState.currentChunk = .dataDescriptor i →
      ∀ entry', s'.entries[i]? = some entry' → entry'.crc32 ≠ none)
    (hprocessed : s'.readState.chunkProcessedSize = 0)
  /-- Bytes of entry data were output, by a call that wrote nothing before. -/
  | data (hdata : ∃ i, s.readState.currentChunk = .entryData i)
    (hchunk : s'.readState.currentChunk = s.readState.currentChunk)
    (hunstaged : s'.readState.stagingBuffer = [])
    (hreader : ∃ reader, s'.pinned.slot = .fileReader reader ∧ reader.seekInProgress = false)
    (hless : s'.output.remaining < s.output.remaining)
    (hunwritten : s.output.remaining = initialRemaining) (hin : s.InChunk)
  /-- The entry data is at its end, which is also found only before anything is written. -/
  | ended (hdata : ∃ i, s.readState.currentChunk = .entryData i)
    (hchunk : s'.readState.currentChunk = s.readState.currentChunk.succ a.members.length)
    (hunstaged : s'.readState.stagingBuffer = []) (hslot : s'.pinned.slot = .nothing)
    (houtput : s'.output = s.output) (hunwritten : s.output.remaining = initialRemaining)
    (hin : s.InChunk)

/-- What a turn keeps. -/
structure HardStep (a : Archive) (s s' : Frame E H) : Prop where
  hardened : Hardened a s'
  kept : List.Forall₂ KeepsCrc s.entries s'.entries
  behind : CrcsBehind s → CrcsBehind s'

/-- A turn keeps the invariant; one that goes on does one of five things, and any other stays in its
    chunk. -/
structure HardTurn (a : Archive) (initialRemaining : Nat) (s : Frame E H)
    (r : PollResult (IoError E) (Flow Unit)) (s' : Frame E H) : Prop where
  step : HardStep a s s'
  go : r = .ok (.go ()) → GoTurn a initialRemaining s s'
  stays : r ≠ .ok (.go ()) → s'.readState.currentChunk = s.readState.currentChunk ∧
    (s.readState.currentChunk = .finished ∨ s.InChunk)

theorem HardStep.turn {a : Archive} {initialRemaining : Nat} {s s' : Frame E H}
    {r : PollResult (IoError E) (Flow Unit)} (h : HardStep a s s') (hr : r ≠ .ok (.go ()))
    (hchunk : s'.readState.currentChunk = s.readState.currentChunk)
    (hin : s.readState.currentChunk = .finished ∨ s.InChunk) : HardTurn a initialRemaining s r s' :=
  ⟨h, fun hgo => absurd hgo hr, fun _ => ⟨hchunk, hin⟩⟩

/-! ### Entries that keep their CRCs -/

section Kept
variable {entries entries' : List (ReaderEntry E)}

theorem forall₂_keepsCrc_refl (entries : List (ReaderEntry E)) :
    List.Forall₂ KeepsCrc entries entries :=
  List.forall₂_same.mpr fun entry _ => .refl entry

theorem forall₂_keepsCrc_trans {entries'' : List (ReaderEntry E)}
    (h : List.Forall₂ KeepsCrc entries entries') (h' : List.Forall₂ KeepsCrc entries' entries'') :
    List.Forall₂ KeepsCrc entries entries'' :=
  Forking.forall₂_trans (fun _ _ _ hkeeps hkeeps' => hkeeps.trans hkeeps') h h'

theorem forall₂_keepsCrc_set {i : Nat} {entry entry' : ReaderEntry E}
    (hentry : entries[i]? = some entry) (h : KeepsCrc entry entry') :
    List.Forall₂ KeepsCrc entries (entries.set i entry') := by
  have hset := Forking.forall₂_set (forall₂_keepsCrc_refl entries) h i
  rwa [set_of_getElem? hentry] at hset

/-- The members do not depend on the CRCs. -/
theorem Listed.keeps {ms : List Member} (h : Listed ms entries)
    (hkept : List.Forall₂ KeepsCrc entries entries') : Listed ms entries' where
  length := by rw [← hkept.length_eq, h.length]
  describes i entry' m hentry' hm := by
    obtain ⟨entry, hentry, crc32, rfl, _⟩ := Forking.forall₂_getElem?_right hkept hentry'
    have hdescribes := h.describes i _ m hentry hm
    exact ⟨hdescribes.name, hdescribes.datetime, hdescribes.externalAttributes, hdescribes.offset,
      hdescribes.size⟩

/-- What holds of the data of every entry goes on to hold. -/
theorem forall_data_keeps {P : E.Data → Prop} (h : ∀ entry ∈ entries, P entry.data)
    (hkept : List.Forall₂ KeepsCrc entries entries') : ∀ entry' ∈ entries', P entry'.data := by
  intro entry' hentry'
  obtain ⟨i, hi⟩ := List.getElem?_of_mem hentry'
  obtain ⟨entry, hentry, crc32, rfl, _⟩ := Forking.forall₂_getElem?_right hkept hi
  exact h entry (List.mem_of_getElem? hentry)

end Kept

/-! ### CRCs behind the current chunk -/

section Behind
variable {a : Archive} {s s' : Frame E H}

/-- Known CRCs stay known. -/
theorem CrcsBehind.known_of_kept (h : CrcsBehind s)
    (hkept : List.Forall₂ KeepsCrc s.entries s'.entries) {i : Nat} {entry' : ReaderEntry E}
    (hentry' : s'.entries[i]? = some entry') (hpast : s.readState.currentChunk.PastCrc i) :
    entry'.crc32 ≠ none := by
  obtain ⟨entry, hentry, crc32, rfl, hkeeps⟩ := Forking.forall₂_getElem?_right hkept hentry'
  obtain ⟨crc, hcrc⟩ := Option.ne_none_iff_exists'.mp (h.known i _ hentry hpast)
  simp [hkeeps crc hcrc]

/-- A step in a chunk. -/
theorem CrcsBehind.stay (h : CrcsBehind s) (hkept : List.Forall₂ KeepsCrc s.entries s'.entries)
    (hchunk : s'.readState.currentChunk = s.readState.currentChunk)
    (hunskipped : Unskipped s'.readState) : CrcsBehind s' := by
  refine ⟨hunskipped, fun i entry' hentry' hpast => ?_⟩
  rw [hchunk] at hpast
  exact h.known_of_kept hkept hentry' hpast

/-- A step to the next chunk; from a data descriptor it needs a CRC. -/
theorem CrcsBehind.next (h : CrcsBehind s) (hkept : List.Forall₂ KeepsCrc s.entries s'.entries)
    (hnext : s'.readState.currentChunk = s.readState.currentChunk.succ s.entries.length)
    (hunskipped : Unskipped s'.readState)
    (hcrc : ∀ i, s.readState.currentChunk = .dataDescriptor i →
      ∀ entry', s'.entries[i]? = some entry' → entry'.crc32 ≠ none) : CrcsBehind s' := by
  refine ⟨hunskipped, fun i entry' hentry' hpast => ?_⟩
  have hi := (List.getElem?_eq_some_iff.mp hentry').1
  rw [hnext] at hpast
  rcases hpast.of_succ (hkept.length_eq ▸ hi) with hpast | hchunk
  · exact h.known_of_kept hkept hentry' hpast
  · exact hcrc i hchunk entry' hentry'

end Behind

theorem HardStep.refl {a : Archive} {s : Frame E H} (h : Hardened a s) : HardStep a s s :=
  ⟨h, forall₂_keepsCrc_refl _, id⟩

theorem HardStep.trans {a : Archive} {s s' s'' : Frame E H} (h : HardStep a s s')
    (h' : HardStep a s' s'') : HardStep a s s'' :=
  ⟨h'.hardened, forall₂_keepsCrc_trans h.kept h'.kept, fun hbehind => h'.behind (h.behind hbehind)⟩

/-! ### The parts of a turn -/

section Turns
variable {a : Archive} {s : Frame E H} {sizes : Sizes} {ctx : E.Context}
  {fuel initialRemaining size bound i : Nat} {entry : ReaderEntry E} {broken starved : Prop}

/-- The source of some entry does not seek true, or the seek in the slot failed. -/
def Frame.Broken (s : Frame E H) : Prop :=
  ∃ (i : Nat) (entry : ReaderEntry E), s.entries[i]? = some entry ∧ (¬ SeeksTrue E entry.data ∨
    (s.readState.currentChunk = .entryData i ∧
      EntryFrame.SeekFailed ⟨s.readState, entry, s.pinned, s.output⟩))

/-- There are turns enough to read every source to its end, unless a call may be starved. -/
def FuelledAll (starved : Prop) (entries : List (ReaderEntry E)) (bound fuel : Nat) : Prop :=
  ∀ entry ∈ entries, Fuelled starved E entry.data bound fuel

/-- Between two chunks the slot is empty. -/
theorem hardened_between (hlisted : Listed a.members s.entries)
    (hlocated : s.readState.currentChunk.Located a.members.length)
    (hstaged : s.readState.stagingBuffer.length ≤ maxHeader)
    (hleaves : s.readState.stagingBuffer ≠ [] → ∃ c, LeavesStaged a s c ∧
      c.succ a.members.length = s.readState.currentChunk)
    (hprocessed : s.readState.chunkProcessedSize = 0) (hslot : s.pinned.slot = .nothing) :
    Hardened a s where
  listed := hlisted
  located := hlocated
  staged := hstaged
  leaves := hleaves
  begun h := absurd hprocessed h
  needs h := absurd hslot h
  sound _ _ _ _ := slotSound_of_nothing hslot

/-- The end of a chunk whose bytes were all processed. -/
theorem finishChunk_hardened (hlisted : Listed a.members s.entries)
    (hlocated : s.readState.currentChunk.Located a.members.length)
    (hfin : s.readState.currentChunk ≠ .finished)
    (hstaged : s.readState.stagingBuffer.length ≤ maxHeader)
    (hleaves : s.readState.stagingBuffer ≠ [] → LeavesStaged a s s.readState.currentChunk)
    (hprocessed : s.readState.chunkProcessedSize = size) (hslot : s.pinned.slot = .nothing) :
    (finishChunk size true >>= fun _ => pure (.go ())).wp (Tolerated broken starved)
      (fun (r : PollResult (IoError E) (Flow Unit)) s' =>
        r = .ok (.go ()) ∧ Hardened a s' ∧ s' = { s with
          readState.currentChunk := s.readState.currentChunk.succ a.members.length
          readState.chunkProcessedSize := 0 }) s := by
  rw [wp_bind, finishChunk_wp hprocessed hlisted.length hfin]
  refine ⟨rfl, hardened_between hlisted (Chunk.succ_located hlocated) hstaged (fun hne => ?_) rfl
    hslot, rfl⟩
  have hleft := hleaves hne
  exact ⟨_, ⟨hleft.header, hleft.located, hleft.staged, hleft.crc⟩, rfl⟩

/-- No header chunk is left in the middle. -/
theorem Hardened.processed (h : Hardened a s)
    (hdata : ∀ i, s.readState.currentChunk ≠ .entryData i) :
    s.readState.chunkProcessedSize = 0 := by
  by_contra hne
  obtain ⟨_, ⟨i, hi⟩, _⟩ := h.begun hne
  exact hdata i hi

/-- A chunk of another kind has nothing in the slot. -/
theorem Hardened.slot_nothing (h : Hardened a s)
    (hreads : ∀ i, ¬ s.readState.currentChunk.Reads i) : s.pinned.slot = .nothing := by
  by_contra hne
  obtain ⟨_, i, _, _, _, _, _, hdata | ⟨hdd | hcd, _⟩⟩ := h.needs hne
  · exact hreads i (.inl hdata)
  · exact hreads i (.inr (.inl hdd))
  · exact hreads i (.inr (.inr hcd))

/-- The entry of the current chunk. -/
theorem Hardened.exists_entry (h : Hardened a s) (hi : i < a.members.length) :
    ∃ entry, s.entries[i]? = some entry ∧ entry.name.length < 65536 := by
  obtain ⟨_, entry, _, hentry, _, hname⟩ := h.listed.exists_entry hi
  exact ⟨entry, hentry, hname⟩

/-- A header that was written as a whole ends its chunk. -/
theorem Hardened.header {s' : Frame E H} (h : Hardened a s)
    (hkept : List.Forall₂ KeepsCrc s.entries s'.entries)
    (hpieces : Pieces s.readState size s'.readState)
    (hempty : s.readState.stagingBuffer = []) (hheader : s.readState.currentChunk.IsHeader)
    (hsize : s.readState.currentChunk.size s.entries = .ok size)
    (hskip : s.readState.toSkip < size) (hlen : size ≤ maxHeader)
    (hslot : s'.pinned.slot = .nothing)
    (hcrc : ∀ i, s.readState.currentChunk = .dataDescriptor i →
      ∀ entry', s'.entries[i]? = some entry' → entry'.crc32 ≠ none) :
    (finishChunk size true >>= fun _ => pure (.go ())).wp (Tolerated broken starved)
      (HardTurn a initialRemaining s) s' := by
  have hfin := hheader.ne_finished
  have hdata : ∀ i, s.readState.currentChunk ≠ .entryData i := by
    intro i hi
    rw [hi] at hheader
    exact hheader
  have hprocessed := hpieces.processed
  have hstaged := hpieces.staged
  rw [h.processed hdata, Nat.zero_add] at hprocessed
  rw [hempty, List.length_nil, Nat.zero_add] at hstaged
  have hchunk := hpieces.chunk
  have hleaves : LeavesStaged a s' s'.readState.currentChunk := by
    rw [hchunk]
    refine ⟨hheader, h.located, ?_, hcrc⟩
    rw [chunkSize_eq (H := H) h.listed h.located hfin] at hsize
    rw [Except.ok.inj hsize]
    exact hstaged
  -- a header that is not staged was not to be skipped any further
  have hunskipped : Unskipped s'.readState := by
    intro hunstaged
    have hzero := (hpieces.unstaged hunstaged).2
    omega
  refine wp_mono (finishChunk_hardened (h.listed.keeps hkept) (hchunk ▸ h.located) (hchunk ▸ hfin)
    (Nat.le_trans hstaged hlen) (fun _ => hleaves) hprocessed hslot) (fun _ hf => hf) ?_
  rintro _ _ ⟨rfl, hhard, rfl⟩
  have hnext : s'.readState.currentChunk.succ a.members.length =
      s.readState.currentChunk.succ a.members.length := by rw [hchunk]
  refine ⟨⟨hhard, hkept, fun hbehind => hbehind.next hkept ?_ hunskipped hcrc⟩, fun _ => ?_,
    absurd rfl⟩
  · rw [h.listed.length]
    exact hnext
  · exact .header hempty hheader hnext hslot hunskipped hcrc rfl

/-- A turn at a local header. -/
theorem processLocalHeader_hardened (h : Hardened a s)
    (hchunk : s.readState.currentChunk = .localHeader i)
    (hempty : s.readState.stagingBuffer = [])
    (hsize : s.readState.currentChunk.size s.entries = .ok size)
    (hskip : s.readState.toSkip < size) :
    (processChunk sizes ctx fuel initialRemaining size).wp (Tolerated broken starved)
      (HardTurn a initialRemaining s) s := by
  have hlocated := h.located
  rw [hchunk] at hlocated
  obtain ⟨entry, hentry, hname⟩ := h.exists_entry hlocated
  have hlen : size = 30 + (entry.name.length + 28) := by
    have hsize := hsize
    simp only [hchunk, Chunk.size, entryAt_eq hentry, Exec.ok_bind] at hsize
    rw [packedSize_localFileHeader, packedSize_zip64ExtraField,
      Exec.addU64_eq (by simp only [Exec.u64Bound]; omega), Exec.ok_bind,
      Exec.addU64_eq (by simp only [Exec.u64Bound]; omega)] at hsize
    cases hsize
    omega
  unfold processChunk readChunk
  rw [wp_bind, wp_get_bind, hchunk]
  show Async.wp (onEntry i _ >>= _) _ _ _
  rw [wp_bind, onEntry_wp hentry, writeHeader_wp]
  refine Exec.wp_mono (writesPieces_readLocalHeader s.readState s.output hname).wp
    tolerated_overflow ?_
  rintro ⟨rs, output⟩ hpieces
  rw [← hlen] at hpieces
  simp only [andThen, wp_pure]
  exact h.header (forall₂_keepsCrc_set hentry (.refl entry)) hpieces hempty
    (by simp [hchunk, Chunk.IsHeader]) hsize hskip (by simp only [hlen, maxHeader]; omega)
    (h.slot_nothing (by simp [hchunk, Chunk.Reads])) (by simp [hchunk])

/-- A turn at the end of the archive. -/
theorem processEocd_hardened (h : Hardened a s) (hchunk : s.readState.currentChunk = .eocd)
    (hempty : s.readState.stagingBuffer = [])
    (hsize : s.readState.currentChunk.size s.entries = .ok size)
    (hskip : s.readState.toSkip < size) :
    (processChunk sizes ctx fuel initialRemaining size).wp (Tolerated broken starved)
      (HardTurn a initialRemaining s) s := by
  have hlen : size = 56 + (20 + 22) := by
    have hsize := hsize
    rw [hchunk] at hsize
    cases hsize
    rfl
  unfold processChunk readChunk
  rw [wp_bind, wp_get_bind, hchunk]
  simp only
  rw [wp_bind, wp_lift]
  -- the three headers are pieces, and are not unfolded
  have hwrite := writesPieces_readEocd s.readState sizes s.entries s.output
  generalize s.readState.readEocd sizes s.entries s.output = write at hwrite ⊢
  refine Exec.wp_mono hwrite.wp tolerated_overflow ?_
  rintro ⟨rs, output⟩ hpieces
  rw [← hlen] at hpieces
  exact h.header (forall₂_keepsCrc_refl _) hpieces hempty (by simp [hchunk, Chunk.IsHeader]) hsize
    hskip (by simp only [hlen, maxHeader]; omega)
    (h.slot_nothing (by simp [hchunk, Chunk.Reads])) (by simp [hchunk])

/-- An interrupted call on the entry of the current chunk. -/
theorem Hardened.interrupted {t' : EntryFrame E H} (h : Hardened a s)
    (hentry : s.entries[i]? = some entry) (hreads : s.readState.currentChunk.Reads i)
    (hleft : DataLeft ⟨s.readState, entry, s.pinned, s.output⟩ t')
    (hempty : s.readState.stagingBuffer = [])
    (hsize : s.readState.currentChunk.size s.entries = .ok size) (hskip : s.readState.toSkip < size)
    (hbegun : t'.readState.chunkProcessedSize ≠ 0 → s.readState.currentChunk = .entryData i)
    (hneeds : t'.pinned.slot ≠ .nothing → s.readState.currentChunk = .entryData i ∨
      ((s.readState.currentChunk = .dataDescriptor i ∨ s.readState.currentChunk = .cdFileHeader i) ∧
        t'.entry.crc32 = none ∧ t'.entry.size ≠ 0)) :
    HardStep a s (Frame.restore i t' s) := by
  have hkept := forall₂_keepsCrc_set hentry hleft.entry
  have hchunk : t'.readState.currentChunk = s.readState.currentChunk := hleft.chunk
  have hstaged : t'.readState.stagingBuffer = [] := hleft.staged.trans hempty
  have hskip' : t'.readState.toSkip < size := Nat.lt_of_le_of_lt hleft.toSkip hskip
  have hself : (s.entries.set i t'.entry)[i]? = some t'.entry :=
    List.getElem?_set_self (List.getElem?_eq_some_iff.mp hentry).1
  have hsize' : t'.readState.currentChunk.size (s.entries.set i t'.entry) = .ok size := by
    obtain ⟨crc32, hset, _⟩ := hleft.entry
    rw [hchunk, hset, chunkSize_set hentry]
    exact hsize
  refine ⟨⟨h.listed.keeps hkept, ?_, ?_, fun hne => absurd hstaged hne, ?_, ?_, ?_⟩, hkept, ?_⟩
  · show t'.readState.currentChunk.Located _
    rw [hchunk]
    exact h.located
  · show t'.readState.stagingBuffer.length ≤ maxHeader
    rw [hstaged]
    exact Nat.zero_le _
  · intro hprocessed
    refine ⟨hstaged, ⟨i, hchunk.trans (hbegun hprocessed)⟩, fun size' hsize'' => ?_⟩
    cases hsize'.symm.trans hsize''
    exact hskip'
  · intro hslot
    refine ⟨hstaged, i, t'.entry, size, hself, hsize', hskip', ?_⟩
    show t'.readState.currentChunk = _ ∨
      (t'.readState.currentChunk = _ ∨ t'.readState.currentChunk = _) ∧ _
    rw [hchunk]
    exact hneeds hslot
  · intro j entry' hreads' hentry'
    have hij : i = j := by
      rw [show (Frame.restore i t' s).readState.currentChunk = _ from hchunk] at hreads'
      exact hreads.eq hreads'
    subst hij
    rw [show (Frame.restore i t' s).entries[i]? = _ from hself] at hentry'
    cases hentry'
    exact hleft.sound
  · intro hbehind
    refine hbehind.stay hkept hchunk fun _ => ?_
    show t'.readState.toSkip = 0
    have htoSkip : t'.readState.toSkip ≤ s.readState.toSkip := hleft.toSkip
    have := hbehind.unskipped hempty
    omega

/-- The slot at a chunk that carries a CRC. -/
theorem Hardened.crcSlot (h : Hardened a s) (hentry : s.entries[i]? = some entry)
    (hchunk : s.readState.currentChunk = .dataDescriptor i ∨
      s.readState.currentChunk = .cdFileHeader i) (hslot : s.pinned.slot ≠ .nothing) :
    entry.crc32 = none ∧ entry.size ≠ 0 := by
  obtain ⟨_, j, entry', _, hentry', _, _, hneeds⟩ := h.needs hslot
  have hreads : s.readState.currentChunk.Reads i := .inr hchunk
  rcases hneeds with hdata | ⟨hcrc, hnone, hne⟩
  · rcases hchunk with hchunk | hchunk <;> rw [hchunk] at hdata <;> cases hdata
  · obtain rfl := hreads.eq (.inr hcrc)
    rw [hentry] at hentry'
    cases hentry'
    exact ⟨hnone, hne⟩

/-- A turn at a chunk that carries a CRC. -/
theorem processCrc_hardened {write : UInt32 → EntryFrame E H → Exec (ReadState × ReadBuf)}
    (h : Hardened a s) (hentry : s.entries[i]? = some entry)
    (hchunk : s.readState.currentChunk = .dataDescriptor i ∨
      s.readState.currentChunk = .cdFileHeader i)
    (hempty : s.readState.stagingBuffer = [])
    (hsize : s.readState.currentChunk.size s.entries = .ok size) (hskip : s.readState.toSkip < size)
    (hlen : size ≤ maxHeader) (hfuel : FuelledAll starved s.entries bound fuel)
    (hwrite : ∀ crc t, t.entry.name = entry.name →
      WritesPieces t.readState size (write crc t)) :
    (zippityReady initialRemaining (onEntry i (do
        let crc32 ← getCrc ctx fuel
        writeHeader (write crc32)
        pure true)) >>= fun flow => match flow with
      | .go chunkDone => do
        finishChunk size chunkDone
        pure (.go ())
      | .leave => pure .leave
      | .ret => pure .ret).wp (Tolerated broken starved) (HardTurn a initialRemaining s) s := by
  have hreads : s.readState.currentChunk.Reads i := .inr hchunk
  have hheader : s.readState.currentChunk.IsHeader := by
    rcases hchunk with hchunk | hchunk <;> simp [hchunk, Chunk.IsHeader]
  have hdata : ∀ j, s.readState.currentChunk ≠ .entryData j := by
    intro j
    rcases hchunk with hchunk | hchunk <;> simp [hchunk]
  rw [wp_bind, zippityReady_wp, onEntry_wp hentry, wp_bind]
  refine wp_mono (getCrc_hostile ctx fuel (h.sound i entry hreads hentry)
    (h.crcSlot hentry hchunk) (hfuel entry (List.mem_of_getElem? hentry))) (fun _ hf => hf) ?_
  intro r t' hcrc
  have hentry' : KeepsCrc entry t'.entry := hcrc.entry
  have hchunk' : (Frame.restore i t' s).readState.currentChunk = s.readState.currentChunk :=
    congrArg ReadState.currentChunk hcrc.readState
  have hin : s.InChunk := ⟨hempty, size, hsize, hskip⟩
  -- an interrupted computation wrote nothing, and its reader stays in the slot
  have hinterrupted : (∀ crc, r ≠ .ok crc) → HardStep a s (Frame.restore i t' s) := by
    intro hr
    obtain ⟨hsame, hsound, hnone, hne⟩ := hcrc.interrupted hr
    have hrs := hcrc.readState
    refine h.interrupted hentry hreads ⟨hcrc.entry, by rw [hrs], by rw [hrs], by rw [hrs], hsound⟩
      hempty hsize hskip (fun hprocessed => ?_) (fun _ => .inr ⟨hchunk, ?_, ?_⟩)
    · rw [hrs] at hprocessed
      exact absurd (h.processed hdata) hprocessed
    · rw [hsame]
      exact hnone
    · rw [hsame]
      exact hne
  cases r with
  | pending =>
    have hstep := hinterrupted (by simp)
    show if (Frame.restore i t' s).output.remaining = initialRemaining then _ else _
    split
    · exact hstep.turn (by simp) hchunk' (.inr hin)
    · exact hstep.turn (by simp) hchunk' (.inr hin)
  | err e => exact (hinterrupted (by simp)).turn (by simp) hchunk' (.inr hin)
  | ok crc =>
    obtain ⟨crc32, hset, _⟩ := hentry'
    simp only [andThen]
    rw [wp_bind, writeHeader_wp]
    refine Exec.wp_mono (hwrite crc t' (by rw [hset])).wp tolerated_overflow ?_
    rintro ⟨rs, output⟩ hpieces
    rw [hcrc.readState] at hpieces
    simp only [andThen, wp_pure]
    refine h.header (forall₂_keepsCrc_set hentry hcrc.entry) hpieces hempty hheader hsize hskip hlen
      (hcrc.done crc rfl) ?_
    intro j hj entry' hentry'
    obtain rfl := hreads.eq (.inr (.inl hj))
    rw [show (Frame.restore i { t' with readState := rs, output } s).entries[i]? = _ from
      List.getElem?_set_self (List.getElem?_eq_some_iff.mp hentry).1] at hentry'
    cases hentry'
    simp [hcrc.known crc rfl]

/-- A turn at entry data. -/
theorem processEntryData_hardened (h : Hardened a s)
    (hchunk : s.readState.currentChunk = .entryData i) (hempty : s.readState.stagingBuffer = [])
    (hsize : s.readState.currentChunk.size s.entries = .ok size)
    (hskip : s.readState.toSkip < size) (hbroken : s.Broken → broken)
    (hfuel : FuelledAll starved s.entries bound fuel) :
    (processChunk sizes ctx fuel initialRemaining size).wp (Tolerated broken starved)
      (HardTurn a initialRemaining s) s := by
  have hlocated := h.located
  rw [hchunk] at hlocated
  obtain ⟨entry, hentry, _⟩ := h.exists_entry hlocated
  have hreads : s.readState.currentChunk.Reads i := .inl hchunk
  have hlen : size = entry.size := by
    simp only [hchunk, Chunk.size, entryAt_eq hentry, Exec.ok_bind] at hsize
    cases hsize
    rfl
  have hin : s.InChunk := ⟨hempty, size, hsize, hskip⟩
  unfold processChunk readChunk
  rw [wp_bind, wp_get_bind, hchunk]
  simp only
  by_cases hwritten : s.output.remaining = initialRemaining
  · rw [if_neg (by simpa using hwritten), zippityReady_wp, onEntry_wp hentry]
    have hbroken' : EntryFrame.Broken ⟨s.readState, entry, s.pinned, s.output⟩ → broken := by
      rintro (huntrue | hfailed)
      · exact hbroken ⟨i, entry, hentry, .inl huntrue⟩
      · exact hbroken ⟨i, entry, hentry, .inr ⟨hchunk, hfailed⟩⟩
    refine wp_mono (readEntryData_hostile ctx fuel (h.sound i entry hreads hentry) hbroken'
      (hfuel entry (List.mem_of_getElem? hentry))) (fun _ hf => hf) ?_
    rintro r t' ⟨hleft, hdone, hmore⟩
    have hunstaged : (Frame.restore i t' s).readState.stagingBuffer = [] :=
      hleft.staged.trans hempty
    have hstep : HardStep a s (Frame.restore i t' s) :=
      h.interrupted hentry hreads hleft hempty hsize hskip (fun _ => hchunk) (fun _ => .inl hchunk)
    cases r with
    | pending =>
      show if (Frame.restore i t' s).output.remaining = initialRemaining then _ else _
      split
      · exact hstep.turn (by simp) hleft.chunk (.inr hin)
      · exact hstep.turn (by simp) hleft.chunk (.inr hin)
    | err e => exact hstep.turn (by simp) hleft.chunk (.inr hin)
    | ok done =>
      simp only [andThen]
      cases done with
      | false =>
        obtain ⟨hless, hreader⟩ := hmore rfl
        exact ⟨hstep, fun _ => .data ⟨i, hchunk⟩ hleft.chunk hunstaged hreader hless hwritten
          hin, absurd rfl⟩
      | true =>
        -- all of the data was processed, so the assertion holds
        obtain ⟨hslot, hprocessed, houtput⟩ := hdone rfl
        have hhard := hstep.hardened
        have hchunk' : (Frame.restore i t' s).readState.currentChunk = .entryData i :=
          hleft.chunk.trans hchunk
        refine wp_mono (finishChunk_hardened hhard.listed hhard.located (by simp [hchunk'])
          hhard.staged (fun hne => absurd hunstaged hne) (hprocessed.trans hlen.symm) hslot)
          (fun _ hf => hf) ?_
        rintro _ _ ⟨rfl, hhard', rfl⟩
        have hnext : (Frame.restore i t' s).readState.currentChunk.succ a.members.length =
            s.readState.currentChunk.succ a.members.length := by rw [hchunk', hchunk]
        refine ⟨⟨hhard', hstep.kept, fun hbehind => hbehind.next hstep.kept ?_ ?_ (by simp [hchunk])⟩,
          fun _ => .ended ⟨i, hchunk⟩ hnext hunstaged hslot houtput hwritten hin, absurd rfl⟩
        · rw [h.listed.length]
          exact hnext
        · exact (hstep.behind hbehind).unskipped
  · rw [if_pos hwritten, hempty, Exec.assert_eq rfl]
    exact (HardStep.refl h).turn (by simp) rfl (.inr hin)

/-- A turn at a chunk that is not skipped. -/
theorem processChunk_hardened (h : Hardened a s) (hempty : s.readState.stagingBuffer = [])
    (hfin : s.readState.currentChunk ≠ .finished)
    (hsize : s.readState.currentChunk.size s.entries = .ok size)
    (hskip : s.readState.toSkip < size) (hbroken : s.Broken → broken)
    (hfuel : FuelledAll starved s.entries bound fuel) :
    (processChunk sizes ctx fuel initialRemaining size).wp (Tolerated broken starved)
      (HardTurn a initialRemaining s) s := by
  have hlocated := h.located
  cases hchunk : s.readState.currentChunk with
  | localHeader i => exact processLocalHeader_hardened h hchunk hempty hsize hskip
  | entryData i => exact processEntryData_hardened h hchunk hempty hsize hskip hbroken hfuel
  | dataDescriptor i =>
    rw [hchunk] at hlocated
    obtain ⟨entry, hentry, _⟩ := h.exists_entry hlocated
    have hlen : size = 24 := by
      have hsize := hsize
      rw [hchunk] at hsize
      cases hsize
      rfl
    unfold processChunk readChunk
    rw [wp_bind, wp_get_bind, hchunk]
    simp only
    rw [← wp_bind]
    refine processCrc_hardened h hentry (.inl hchunk) hempty hsize hskip
      (by simp only [hlen, maxHeader]; omega) hfuel fun crc t _ => ?_
    rw [hlen]
    exact writesPieces_putDataDescriptor t.readState t.entry crc t.output
  | cdFileHeader i =>
    rw [hchunk] at hlocated
    obtain ⟨entry, hentry, hname⟩ := h.exists_entry hlocated
    have hlen : size = 46 + (entry.name.length + 28) := by
      have hsize := hsize
      simp only [hchunk, Chunk.size, entryAt_eq hentry, Exec.ok_bind] at hsize
      rw [packedSize_centralDirectoryHeader, packedSize_zip64ExtraField,
        Exec.addU64_eq (by simp only [Exec.u64Bound]; omega), Exec.ok_bind,
        Exec.addU64_eq (by simp only [Exec.u64Bound]; omega)] at hsize
      cases hsize
      omega
    unfold processChunk readChunk
    rw [wp_bind, wp_get_bind, hchunk]
    simp only
    rw [← wp_bind]
    refine processCrc_hardened h hentry (.inr hchunk) hempty hsize hskip
      (by simp only [hlen, maxHeader]; omega) hfuel fun crc t hname' => ?_
    rw [hlen, ← hname']
    exact writesPieces_putCdFileHeader t.readState crc t.output (by rw [hname']; exact hname)
  | eocd => exact processEocd_hardened h hchunk hempty hsize hskip
  | finished => exact absurd hchunk hfin

/-- **A turn of the loop** keeps the invariant, whatever the sources do. -/
theorem readIteration_hardened (sizes : Sizes) (ctx : E.Context) (fuel initialRemaining : Nat)
    (h : Hardened a s) (hbroken : s.Broken → broken)
    (hfuel : FuelledAll starved s.entries bound fuel) :
    (readIteration sizes ctx fuel initialRemaining).wp (Tolerated broken starved)
      (HardTurn a initialRemaining s) s := by
  unfold readIteration
  rw [wp_get_bind]
  by_cases hempty : s.readState.stagingBuffer = []
  · rw [if_neg (by simpa using hempty)]
    by_cases hfin : s.readState.currentChunk = .finished
    · rw [if_pos hfin]
      exact (HardStep.refl h).turn (by simp) rfl (.inl hfin)
    · have hsize := chunkSize_eq (H := H) h.listed h.located hfin
      rw [if_neg hfin, wp_bind, wp_lift, hsize]
      simp only [Exec.wp_ok, andThen]
      by_cases hskip : s.readState.toSkip ≥ (segmentOf H a.members s.readState.currentChunk).size
      · -- a chunk that is skipped was not begun
        rw [if_pos hskip, Exec.subU64_eq hskip, chunkNext_eq h.listed.length hfin]
        have hslot : s.pinned.slot = .nothing := by
          by_contra hslot
          obtain ⟨_, _, _, size, _, hsize', hlt, _⟩ := h.needs hslot
          rw [hsize] at hsize'
          cases hsize'
          omega
        have hprocessed : s.readState.chunkProcessedSize = 0 := by
          by_contra hprocessed
          have hlt := (h.begun hprocessed).2.2 _ hsize
          omega
        have hhard := hardened_between (s := { s with
            readState.toSkip :=
              s.readState.toSkip - (segmentOf H a.members s.readState.currentChunk).size
            readState.currentChunk := s.readState.currentChunk.succ a.members.length })
          h.listed (Chunk.succ_located h.located) h.staged (fun hne => absurd hempty hne) hprocessed
          hslot
        refine ⟨⟨hhard, forall₂_keepsCrc_refl _, fun hbehind => ?_⟩,
          fun _ => .skipped hempty hfin hskip hslot rfl, absurd rfl⟩
        have hzero := hbehind.unskipped hempty
        refine hbehind.next (forall₂_keepsCrc_refl _) (by rw [h.listed.length]) (fun _ => ?_) ?_
        · show s.readState.toSkip - _ = 0
          omega
        · -- a data descriptor is not empty
          intro i hchunk
          rw [hchunk] at hsize hskip
          have hlen : 24 = (segmentOf H a.members (.dataDescriptor i)).size := Except.ok.inj hsize
          omega
      · rw [if_neg hskip]
        exact processChunk_hardened h hempty hfin hsize (by omega) hbroken hfuel
  · -- with staged bytes the slot is empty
    rw [if_pos hempty, wp_bind, wp_lift]
    refine Exec.wp_mono (readFromStaging_hostile s.readState s.output) tolerated_overflow ?_
    rintro ⟨rs, output⟩ ⟨hchunk, hprocessed, hstaged, hunskipped, hfull⟩
    have hslot : s.pinned.slot = .nothing := by
      by_contra hslot
      exact hempty (h.needs hslot).1
    have hzero : s.readState.chunkProcessedSize = 0 := by
      by_contra hne
      exact hempty (h.begun hne).1
    have hhard : Hardened a ({ s with readState := rs, output } : Frame E H) := by
      refine hardened_between h.listed (hchunk ▸ h.located) (Nat.le_trans hstaged h.staged)
        (fun _ => ?_) (hprocessed.trans hzero) hslot
      obtain ⟨c, hleaves, hsucc⟩ := h.leaves hempty
      exact ⟨c, ⟨hleaves.header, hleaves.located, Nat.le_trans hstaged hleaves.staged, hleaves.crc⟩,
        hsucc.trans hchunk.symm⟩
    exact ⟨⟨hhard, forall₂_keepsCrc_refl _,
        fun hbehind => hbehind.stay (forall₂_keepsCrc_refl _) hchunk (hunskipped hempty)⟩,
      fun _ => .staged hempty hchunk hslot (hunskipped hempty) hfull (hprocessed.trans hzero),
      absurd rfl⟩

/-! ### Calls -/

/-- **The rule of the loop**: what every turn that goes on keeps holds until the loop is left.  The
    invariant may count the turns left. -/
theorem readLoop_rule {F : Fault → Prop} {I : Nat → Frame E H → Prop}
    {Q : PollResult (IoError E) (Flow Unit) → Frame E H → Prop}
    (hzero : ∀ s, I 0 s → F .outOfFuel)
    (hturn : ∀ fuel s, I (fuel + 1) s → 0 < s.output.remaining →
      (readIteration sizes ctx fuel initialRemaining).wp F
        (fun r s' => (r = .ok (.go ()) → I fuel s') ∧ (r ≠ .ok (.go ()) → Q r s')) s)
    (hfull : ∀ fuel s, I fuel s → s.output.remaining = 0 → Q (.ok .leave) s) (h : I fuel s) :
    (readLoop sizes ctx initialRemaining fuel).wp F Q s := by
  induction fuel generalizing s with
  | zero => exact hzero s h
  | succ fuel ih =>
    unfold readLoop
    rw [wp_get_bind]
    by_cases hroom : s.output.remaining > 0
    · rw [if_pos hroom, wp_bind]
      refine wp_mono (hturn fuel s h hroom) (fun _ hf => hf) ?_
      rintro r s₁ ⟨hgo, hleft⟩
      cases r with
      | pending => exact hleft (by simp)
      | err e => exact hleft (by simp)
      | ok flow =>
        cases flow with
        | go => exact ih (hgo rfl)
        | leave => exact hleft (by simp)
        | ret => exact hleft (by simp)
    · rw [if_neg hroom]
      exact hfull _ s h (by omega)

/-- **The rule of the turns** of a call. -/
theorem forall_mem_turns {I : Frame E H → Prop}
    (hturn : ∀ fuel s s', I s → 0 < s.output.remaining →
      readIteration sizes ctx fuel initialRemaining s = .ok (.ok (.go ()), s') → I s')
    (h : I s) : ∀ turn ∈ turns sizes ctx initialRemaining fuel s, I turn.2 := by
  induction fuel generalizing s with
  | zero => simp [turns]
  | succ fuel ih =>
    unfold turns
    by_cases hroom : s.output.remaining > 0
    · rw [if_pos hroom]
      intro turn hmem
      rcases List.mem_cons.mp hmem with rfl | hmem
      · exact h
      · split at hmem
        · next s' hrun => exact ih (hturn fuel s s' h hroom hrun) turn hmem
        · cases hmem
    · rw [if_neg hroom]
      simp

/-- **The rule of a call**: what the loop leaves holds after the call, if it does not depend on
    the position. -/
theorem read_rule {F : Fault → Prop} {Q : PollResult (IoError E) Unit → Frame E H → Prop}
    (hover : F .overflow)
    (hcount : ∀ s' position, Q (.ok ()) s' → Q (.ok ()) { s' with readState.position := position })
    (hloop : (readLoop sizes ctx s.output.remaining fuel).wp F
      (fun r s' => Q (r.map fun _ => ()) s') s) :
    (read sizes ctx fuel).wp F Q s := by
  unfold read
  rw [wp_get_bind, wp_bind]
  refine wp_mono hloop (fun _ hf => hf) ?_
  intro r s₁ hleft
  cases r with
  | pending => exact hleft
  | err e => exact hleft
  | ok flow =>
    have hcounted : (do
        let s' ← get
        let written ← lift (subU64 s.output.remaining s'.output.remaining)
        let position ← lift (addU64 s'.readState.position written)
        modify fun s' => { s' with readState.position := position } : FrameRead E H Unit).wp
        F Q s₁ := by
      rw [wp_get_bind, wp_bind, wp_lift]
      refine Exec.wp_subU64 (fun _ => hover) fun _ => ?_
      simp only [andThen]
      rw [wp_bind, wp_lift]
      refine Exec.wp_addU64 (fun _ => hover) fun _ => ?_
      exact hcount s₁ _ hleft
    cases flow with
    | go => exact hcounted
    | leave => exact hcounted
    | ret => exact hleft

/-- **The rule of `poll_read`**, in the frame of the reader and its output. -/
theorem pollRead_rule {F : Fault → Prop} {Q : PollResult (IoError E) Unit → Frame E H → Prop}
    {r : Reader E H} {buf : ReadBuf} (hover : F .overflow)
    (hcount : ∀ s' position, Q (.ok ()) s' → Q (.ok ()) { s' with readState.position := position })
    (hloop : (readLoop r.sizes ctx buf.remaining fuel).wp F
      (fun r s' => Q (r.map fun _ => ()) s') (r.frame buf)) :
    Exec.wp F (fun result => result.2.1.sizes = r.sizes ∧
      Q result.1 (result.2.1.frame result.2.2)) (r.pollRead ctx fuel buf) := by
  have hread := read_rule (s := r.frame buf) hover hcount hloop
  unfold Reader.pollRead
  rw [Exec.wp_bind]
  refine Exec.wp_mono hread (fun _ hf => hf) ?_
  rintro ⟨answer, s'⟩ hleft
  exact ⟨rfl, hleft⟩

/-- The turns that a loop takes at most: two for each chunk, one for each free byte, and one for
    what is staged. -/
def Frame.turnsLeft (a : Archive) (s : Frame E H) : Nat :=
  2 * s.readState.currentChunk.rank a.members.length + s.output.remaining +
    if s.readState.stagingBuffer = [] then 0 else 1

/-- A turn that goes on is one turn less. -/
theorem GoTurn.turnsLeft_lt {s' : Frame E H} (h : GoTurn a initialRemaining s s')
    (hlocated : s.readState.currentChunk.Located a.members.length)
    (hle : s'.output.remaining ≤ s.output.remaining) (hroom : 0 < s.output.remaining) :
    s'.turnsLeft a < s.turnsLeft a := by
  have hstaged : ∀ staged : List UInt8, (if staged = [] then 0 else 1) ≤ 1 := by
    intro staged
    split
    · exact Nat.zero_le _
    · exact Nat.le_refl _
  -- one chunk less is two turns less, also if its header is staged
  have hnext : s'.readState.currentChunk = s.readState.currentChunk.succ a.members.length →
      s.readState.currentChunk ≠ .finished → s'.turnsLeft a < s.turnsLeft a := by
    intro hchunk hfin
    have hrank := Chunk.rank_succ_lt hlocated hfin
    have hone := hstaged s'.readState.stagingBuffer
    unfold Frame.turnsLeft
    rw [hchunk]
    omega
  cases h with
  | staged hne hchunk _ _ hfull =>
    unfold Frame.turnsLeft
    rw [hchunk, if_neg hne]
    by_cases hempty : s'.readState.stagingBuffer = []
    · rw [if_pos hempty]
      omega
    · have hzero := hfull hempty
      rw [if_neg hempty]
      omega
  | skipped _ hfin _ _ hs' => exact hnext (by rw [hs']) hfin
  | header _ hheader hchunk => exact hnext hchunk hheader.ne_finished
  | data _ hchunk hunstaged _ hless =>
    unfold Frame.turnsLeft
    rw [hchunk, if_pos hunstaged]
    omega
  | ended hdata hchunk =>
    obtain ⟨i, hi⟩ := hdata
    exact hnext hchunk (by simp [hi])

/-- After a turn that goes on no seek is in progress. -/
theorem GoTurn.broken_of_broken {s' : Frame E H} (h : GoTurn a initialRemaining s s')
    (hkept : List.Forall₂ KeepsCrc s.entries s'.entries) (hbroken : s'.Broken) : s.Broken := by
  obtain ⟨i, entry', hentry', hwhy⟩ := hbroken
  obtain ⟨entry, hentry, crc32, rfl, _⟩ := Forking.forall₂_getElem?_right hkept hentry'
  rcases hwhy with huntrue | ⟨_, reader, hreader, hbusy, _⟩
  · exact ⟨i, _, hentry, .inl huntrue⟩
  · have hreader : s'.pinned.slot = .fileReader reader := hreader
    exfalso
    cases h with
    | staged _ _ hnothing => rw [hnothing] at hreader; cases hreader
    | skipped _ _ _ hnothing hs' => rw [hs', hnothing] at hreader; cases hreader
    | header _ _ _ hnothing => rw [hnothing] at hreader; cases hreader
    | data _ _ _ hidle =>
      obtain ⟨reader', hreader', hidle⟩ := hidle
      rw [hreader'] at hreader
      cases hreader
      rw [hidle] at hbusy
      cases hbusy
    | ended _ _ _ hnothing => rw [hnothing] at hreader; cases hreader

/-- **The loop** keeps the invariant, and stops only with what the sources can cause. -/
theorem readLoop_hardened (sizes : Sizes) (ctx : E.Context) (initialRemaining fuel : Nat)
    (h : Hardened a s) (hbroken : s.Broken → broken)
    (hends : ¬ starved → ∀ entry ∈ s.entries, EndsBy E entry.data bound)
    (hfuel : ¬ starved → s.turnsLeft a + bound < fuel) :
    (readLoop sizes ctx initialRemaining fuel).wp (Tolerated broken starved)
      (fun _ s' => HardStep a s s') s := by
  refine readLoop_rule (I := fun fuel s' => HardStep a s s' ∧ (s'.Broken → s.Broken) ∧
    (¬ starved → s'.turnsLeft a + bound < fuel)) ?_ ?_ (fun _ _ hstep _ => hstep.1)
    ⟨.refl h, id, hfuel⟩
  · rintro s₁ ⟨_, _, hfuel₁⟩
    by_contra hfed
    exact absurd (hfuel₁ hfed) (Nat.not_lt_zero _)
  · rintro fuel s₁ ⟨hstep, hbroken₁, hfuel₁⟩ hroom
    have hfuelled : FuelledAll starved s₁.entries bound fuel := by
      intro entry hentry hfed
      have hlt := hfuel₁ hfed
      have hpos : 0 < s₁.turnsLeft a := by
        unfold Frame.turnsLeft
        omega
      exact ⟨forall_data_keeps (P := (EndsBy E · bound)) (hends hfed) hstep.kept entry hentry,
        by omega⟩
    refine wp_run (wp_mono (readIteration_hardened sizes ctx fuel initialRemaining hstep.hardened
      (fun hb => hbroken (hbroken₁ hb)) hfuelled) (fun _ hf => hf) ?_)
    intro r s₂ hturn hrun
    refine ⟨fun hr => ⟨hstep.trans hturn.step, fun hb => ?_, fun hfed => ?_⟩,
      fun _ => hstep.trans hturn.step⟩
    · exact hbroken₁ ((hturn.go hr).broken_of_broken hturn.step.kept hb)
    · obtain ⟨bytes, hmoved⟩ := Exec.wp_of_eq_ok
        (readIteration_turn sizes ctx fuel initialRemaining s₁) hrun
      have hle := hmoved.moved.output.remaining
      have hlt := (hturn.go hr).turnsLeft_lt hstep.hardened.located (by omega) hroom
      have := hfuel₁ hfed
      omega

/-- A turn in a run keeps the invariant. -/
theorem hardTurn_of_readIteration (h : Hardened a s) {r : PollResult (IoError E) (Flow Unit)}
    {s' : Frame E H} (hrun : readIteration sizes ctx fuel initialRemaining s = .ok (r, s')) :
    HardTurn a initialRemaining s r s' := by
  have hturn : (readIteration sizes ctx fuel initialRemaining).wp (Tolerated True True)
      (HardTurn a initialRemaining s) s :=
    readIteration_hardened sizes ctx fuel initialRemaining h (fun _ => trivial)
      (fun _ _ hfed => absurd trivial hfed : FuelledAll True s.entries 0 fuel)
  have hdone := Exec.wp_of_eq_ok hturn hrun
  exact hdone

/-- The turns of a call begin in frames that the call leads to. -/
theorem hardStep_of_mem_turns (h : Hardened a s) {turn : Nat × Frame E H}
    (hmem : turn ∈ turns sizes ctx initialRemaining fuel s) : HardStep a s turn.2 := by
  refine forall_mem_turns (I := HardStep a s) ?_ (.refl h) turn hmem
  intro fuel s₁ s₂ hstep _ hrun
  exact hstep.trans (hardTurn_of_readIteration hstep.hardened hrun).step

end Turns

/-! ### Readers -/

/-- A reader of the archive whose state is hardened. -/
structure Guarded (a : Archive) (r : Reader E H) : Prop where
  sizes : r.sizes = layoutSizes a.members
  hardened : Hardened a r.still
  placed : ∃ p, Placed a r.entries r.readState p

section Readers
variable {a : Archive} {r : Reader E H}

/-- The output and the position are no part of the invariant. -/
theorem Hardened.congr {s s' : Frame E H} (h : Hardened a s) (hentries : s'.entries = s.entries)
    (hpinned : s'.pinned = s.pinned)
    (hrs : s'.readState = { s.readState with position := s'.readState.position }) :
    Hardened a s' := by
  obtain ⟨rs', entries', pinned', output'⟩ := s'
  cases hentries
  cases hpinned
  have hrs' : rs' = { s.readState with position := rs'.position } := hrs
  rw [hrs']
  refine ⟨h.listed, h.located, h.staged, fun hne => ?_, h.begun, h.needs, h.sound⟩
  obtain ⟨c, hleaves, hsucc⟩ := h.leaves hne
  exact ⟨c, ⟨hleaves.header, hleaves.located, hleaves.staged, hleaves.crc⟩, hsucc⟩

/-- The seek of the reader in the slot failed, and is polled again by the next call. -/
def Reader.SeekFailed (r : Reader E H) : Prop :=
  ∃ (i : Nat) (entry : ReaderEntry E) (reader : CrcReader E H),
    r.readState.currentChunk = .entryData i ∧ r.entries[i]? = some entry ∧
      r.pinned.slot = .fileReader reader ∧ reader.seekInProgress = true ∧
      SourceReached E entry.data (.failedSeek reader.innerReader)

/-- The source of some entry does not seek true, or the seek in the slot failed. -/
def Reader.Broken (r : Reader E H) : Prop :=
  (∃ entry ∈ r.entries, ¬ SeeksTrue E entry.data) ∨ r.SeekFailed

theorem Frame.Broken.reader {buf : ReadBuf} (h : (r.frame buf).Broken) : r.Broken := by
  obtain ⟨i, entry, hentry, huntrue | ⟨hchunk, reader, hreader, hbusy, hreached⟩⟩ := h
  · exact .inl ⟨entry, List.mem_of_getElem? hentry, huntrue⟩
  · exact .inr ⟨i, entry, reader, hchunk, hentry, hreader, hbusy, hreached⟩

/-- **A call of `poll_read`** keeps the invariant and every CRC, and stops only with what the
    sources can cause. -/
theorem pollRead_guarded {broken starved : Prop} {bound fuel : Nat} (h : Guarded a r)
    (ctx : E.Context) (buf : ReadBuf) (hbroken : r.Broken → broken)
    (hends : ¬ starved → ∀ entry ∈ r.entries, EndsBy E entry.data bound)
    (hfuel : ¬ starved → (r.frame buf).turnsLeft a + bound < fuel) :
    Exec.wp (Tolerated broken starved) (fun result => Guarded a result.2.1 ∧
      HardStep a r.still result.2.1.still) (r.pollRead ctx fuel buf) := by
  have hframe : Hardened a (r.frame buf) := h.hardened.congr rfl rfl rfl
  refine Exec.wp_run (Exec.wp_mono (pollRead_rule (Q := fun _ s' => HardStep a (r.frame buf) s')
    trivial ?_ (readLoop_hardened r.sizes ctx buf.remaining fuel hframe
      (fun hb => hbroken hb.reader) hends hfuel)) (fun _ hf => hf) ?_)
  · -- the position is no part of the invariant
    rintro s' position ⟨hhard, hkept, hbehind⟩
    refine ⟨hhard.congr rfl rfl rfl, hkept, fun hstill => ?_⟩
    have hframe' := hbehind hstill
    exact ⟨hframe'.unskipped, hframe'.known⟩
  · rintro ⟨answer, r', buf'⟩ ⟨hsizes, hhard, hkept, hbehind⟩ hpoll
    have hhard' : Hardened a r'.still := hhard.congr rfl rfl rfl
    obtain ⟨p, hp⟩ := h.placed
    obtain ⟨bytes, hcall⟩ := pollRead_callStep hpoll
    refine ⟨⟨hsizes.trans h.sizes, hhard', _, hcall.placed a p hp⟩, hhard', hkept,
      fun hstill => ?_⟩
    have hframe' := hbehind ⟨hstill.unskipped, hstill.known⟩
    exact ⟨hframe'.unskipped, hframe'.known⟩

/-- A call that returned. -/
theorem Guarded.pollRead {ctx : E.Context} {fuel : Nat} {buf buf' : ReadBuf} {r' : Reader E H}
    {answer : PollResult (IoError E) Unit} (h : Guarded a r)
    (hpoll : r.pollRead ctx fuel buf = .ok (answer, r', buf')) :
    Guarded a r' ∧ HardStep a r.still r'.still := by
  have hends : ¬ True → ∀ entry ∈ r.entries, EndsBy E entry.data 0 := absurd trivial
  have hcall : Exec.wp (Tolerated True True) (fun result => Guarded a result.2.1 ∧
      HardStep a r.still result.2.1.still) (r.pollRead ctx fuel buf) :=
    pollRead_guarded h ctx buf (fun _ => trivial) hends (absurd trivial)
  have hdone := Exec.wp_of_eq_ok hcall hpoll
  exact hdone

/-- **A seek** succeeds in every state, and drops what the reader waited for. -/
theorem seekFromStart_guarded (hsizes : r.sizes = layoutSizes a.members)
    (hlisted : Listed a.members r.entries) (offset : Nat) :
    ∃ r', r.seekFromStart offset = .ok r' ∧ Guarded a r' ∧ r'.entries = r.entries := by
  obtain ⟨chunk, hseek, _, hlocated, hstart⟩ :=
    seekFromStart_lands r.readState hsizes hlisted offset
  let r' : Reader E H := { r with
    readState := {
      currentChunk := chunk
      chunkProcessedSize := 0
      position := offset
      stagingBuffer := []
      toSkip := offset - chunkStart a.members chunk }
    pinned.slot := .nothing }
  have hplaced : Placed a r'.entries r'.readState offset := by
    refine ⟨hlisted, hlocated, fun hne => absurd rfl hne, ?_⟩
    show offset + 0 = chunkStart a.members chunk + 0 + (offset - chunkStart a.members chunk)
    omega
  have hguarded : Guarded a r' :=
    ⟨hsizes, hardened_between hlisted hlocated (Nat.zero_le _) (fun hne => absurd rfl hne) rfl rfl,
      offset, hplaced⟩
  refine ⟨r', ?_, hguarded, rfl⟩
  unfold Reader.seekFromStart
  rw [hseek]
  rfl

/-- A clone is a seek of a fresh reader. -/
theorem clone_guarded (h : Guarded a r) :
    ∃ r', r.clone = .ok r' ∧ Guarded a r' ∧ r'.entries = r.entries :=
  seekFromStart_guarded (r := .new r.sizes r.entries) h.sizes h.hardened.listed r.tell

/-- `take_pinned` leaves a reader of no entries behind. -/
theorem takePinned_guarded (h : Guarded a r) :
    ∃ taken, r.takePinned = .ok (taken, .emptied r.pinned.opened) ∧ Guarded a taken ∧
      taken.entries = r.entries := by
  obtain ⟨taken, hclone, hguarded, hentries⟩ := clone_guarded h
  refine ⟨taken, ?_, hguarded, hentries⟩
  rw [takePinned_eq, hclone]
  rfl

/-- A fresh reader. -/
theorem new_guarded {entries : List (ReaderEntry E)} (hlisted : Listed a.members entries) :
    Guarded a (.new (layoutSizes a.members) entries : Reader E H) := by
  have hchunk : (Chunk.new entries).Located a.members.length ∧
      chunkStart a.members (Chunk.new entries) = 0 := by
    rw [chunkNew_eq hlisted.length]
    cases hms : a.members with
    | nil => exact ⟨trivial, rfl⟩
    | cons m ms => exact ⟨Nat.zero_lt_succ _, rfl⟩
  refine ⟨rfl, hardened_between hlisted hchunk.1 (Nat.zero_le _) (fun hne => absurd rfl hne) rfl rfl,
    0, hlisted, hchunk.1, fun hne => absurd rfl hne, ?_⟩
  show 0 + 0 = chunkStart a.members (Chunk.new entries) + 0 + 0
  rw [hchunk.2]

/-- A fresh reader has no data descriptor behind it. -/
theorem crcsBehind_new (sizes : Sizes) (entries : List (ReaderEntry E)) :
    CrcsBehind (Reader.new sizes entries : Reader E H).still := by
  refine ⟨fun _ => rfl, fun i entry hentry hpast => ?_⟩
  cases entries with
  | nil => cases hentry
  | cons first rest => exact absurd hpast (Nat.not_lt_zero i)

/-- So is a reader that was left behind. -/
theorem emptied_guarded (opened : List Name) : Guarded .empty (.emptied opened : Reader E H) where
  sizes := rfl
  hardened := hardened_between ⟨rfl, fun _ _ _ hentry => by cases hentry⟩ trivial
    (Nat.zero_le _) (fun hne => absurd rfl hne) rfl rfl
  placed := ⟨0, ⟨rfl, fun _ _ _ hentry => by cases hentry⟩, trivial, fun hne => absurd rfl hne, rfl⟩

end Readers

end Model

end Zippity
