import Zippity.Framework.Forking
import Zippity.Reader.Pool
import Zippity.Reader.Sources

/-! # Calls on any entry data

    Nothing is assumed of the sources here: they may lie about their sizes,
    fail, deliver too much, never end and seek to where they like.  What keeps a
    call from an `unreachable!` and from an index out of range is an invariant
    of the reader alone (`Hardened`): a slot that is not empty waits for the
    entry of the current chunk, and a file reader that sought is one of an entry
    whose CRC is known.  `Tolerated` leaves open two things that a source can
    bring about: the assertion after a seek, and a loop that does not end.
-/

namespace Zippity

open Framework Async
open Exec (addU64 subU64)

section Model
variable {E : EntryData} {H : Crc32Fast}

/-! ### What entry data can cause -/

/-- The faults that entry data can cause: a sum above `u64`, a future polled again, an assertion
    if a seek is `broken`, and a loop without end if there are not turns enough. -/
def Tolerated (broken starved : Prop) : Fault → Prop
  | .overflow | .polledAfterCompletion => True
  | .assertFailed => broken
  | .outOfFuel => starved
  | .unreachable | .indexOutOfBounds => False

theorem tolerated_overflow {broken starved : Prop} (f : Fault) (h : f = .overflow) :
    Tolerated broken starved f := by
  subst h
  trivial

variable {broken starved : Prop}

/-! ### Header pieces -/

/-- `n` bytes of a header were read: written, staged or skipped. -/
structure Pieces (rs : ReadState) (n : Nat) (rs' : ReadState) : Prop where
  processed : rs'.chunkProcessedSize = rs.chunkProcessedSize + n
  chunk : rs'.currentChunk = rs.currentChunk
  staged : rs'.stagingBuffer.length ≤ rs.stagingBuffer.length + n
  toSkip : rs'.toSkip ≤ rs.toSkip
  /-- What is not staged was skipped as far as it goes. -/
  unstaged : rs'.stagingBuffer = [] → rs.stagingBuffer = [] ∧ rs'.toSkip = rs.toSkip - n

theorem Pieces.trans {rs rs' rs'' : ReadState} {n n' : Nat} (h : Pieces rs n rs')
    (h' : Pieces rs' n' rs'') : Pieces rs (n + n') rs'' where
  processed := by rw [h'.processed, h.processed, Nat.add_assoc]
  chunk := h'.chunk.trans h.chunk
  staged := by
    have := h.staged
    have := h'.staged
    omega
  toSkip := Nat.le_trans h'.toSkip h.toSkip
  unstaged hempty := by
    obtain ⟨hempty', hskip'⟩ := h'.unstaged hempty
    obtain ⟨hempty'', hskip⟩ := h.unstaged hempty'
    exact ⟨hempty'', by omega⟩

/-- A header writer that reads `n` bytes. -/
structure WritesPieces (rs : ReadState) (n : Nat) (x : Exec (ReadState × ReadBuf)) : Prop where
  wp : x.wp (· = .overflow) fun result => Pieces rs n result.1

theorem WritesPieces.bind {rs : ReadState} {n n' : Nat} {x : Exec (ReadState × ReadBuf)}
    {f : ReadState × ReadBuf → Exec (ReadState × ReadBuf)} (hx : WritesPieces rs n x)
    (hf : ∀ rs' output', WritesPieces rs' n' (f (rs', output'))) :
    WritesPieces rs (n + n') (x >>= f) := by
  constructor
  rw [Exec.wp_bind]
  refine Exec.wp_mono hx.wp (fun _ hf => hf) ?_
  rintro ⟨rs', output'⟩ hpieces
  refine Exec.wp_mono (hf rs' output').wp (fun _ hf => hf) ?_
  intro result hpieces'
  exact hpieces.trans hpieces'

theorem writesPieces_readPiece (rs : ReadState) (piece : List UInt8) (output : ReadBuf) :
    WritesPieces rs piece.length (rs.readPiece piece output) := by
  constructor
  unfold ReadState.readPiece
  rw [Exec.wp_bind]
  refine Exec.wp_addU64 (fun _ => rfl) fun _ => ?_
  have hstaged : Pieces rs piece.length { rs with
      chunkProcessedSize := rs.chunkProcessedSize + piece.length
      stagingBuffer := rs.stagingBuffer ++ piece } := by
    refine ⟨rfl, rfl, Nat.le_of_eq List.length_append, Nat.le_refl _, fun hempty => ?_⟩
    obtain ⟨hempty', rfl⟩ := List.append_eq_nil_iff.mp hempty
    exact ⟨hempty', rfl⟩
  dsimp only
  -- the piece is skipped, written to the output, or staged
  split
  · next hempty =>
    have hempty := List.isEmpty_iff.mp hempty
    split
    · next hall =>
      rw [Exec.subU64_eq hall]
      exact ⟨rfl, rfl, Nat.le_add_right _ _, Nat.sub_le _ _, fun _ => ⟨hempty, rfl⟩⟩
    · split
      · next hdirect =>
        rw [ReadBuf.putSlice_eq hdirect.2]
        refine ⟨rfl, rfl, Nat.le_add_right _ _, Nat.le_refl _, fun _ => ⟨hempty, ?_⟩⟩
        show rs.toSkip = rs.toSkip - piece.length
        omega
      · exact hstaged
  · exact hstaged

theorem writesPieces_readPackedStruct {P : Type} [PackedStruct P] (rs : ReadState) (ps : P)
    (output : ReadBuf) {n : Nat} (h : packedSize P = n) :
    WritesPieces rs n (rs.readPackedStruct ps output) := by
  have hpiece := writesPieces_readPiece rs (pack ps) output
  rwa [length_pack, h] at hpiece

theorem writesPieces_readLocalHeader (rs : ReadState) {entry : ReaderEntry E} (output : ReadBuf)
    (hname : entry.name.length < 65536) :
    WritesPieces rs (30 + (entry.name.length + 28)) (rs.readLocalHeader entry output) := by
  unfold ReadState.readLocalHeader
  rw [fileNameLen_eq hname, Exec.ok_bind]
  apply (writesPieces_readPackedStruct rs _ output packedSize_localFileHeader).bind
  intro rs' output'
  apply (writesPieces_readPiece rs' entry.name output').bind
  intro rs'' output''
  exact writesPieces_readPackedStruct rs'' _ output'' packedSize_zip64ExtraField

theorem writesPieces_putDataDescriptor (rs : ReadState) (entry : ReaderEntry E) (crc32 : UInt32)
    (output : ReadBuf) : WritesPieces rs 24 (rs.putDataDescriptor entry crc32 output) :=
  writesPieces_readPackedStruct rs _ output packedSize_dataDescriptor64

theorem writesPieces_putCdFileHeader (rs : ReadState) {entry : ReaderEntry E} (crc32 : UInt32)
    (output : ReadBuf) (hname : entry.name.length < 65536) :
    WritesPieces rs (46 + (entry.name.length + 28)) (rs.putCdFileHeader entry crc32 output) := by
  unfold ReadState.putCdFileHeader
  rw [fileNameLen_eq hname, Exec.ok_bind]
  apply (writesPieces_readPackedStruct rs _ output packedSize_centralDirectoryHeader).bind
  intro rs' output'
  apply (writesPieces_readPiece rs' entry.name output').bind
  intro rs'' output''
  exact writesPieces_readPackedStruct rs'' _ output'' packedSize_zip64ExtraField

theorem writesPieces_readEocd (rs : ReadState) (sizes : Sizes) (entries : List (ReaderEntry E))
    (output : ReadBuf) : WritesPieces rs (56 + (20 + 22)) (rs.readEocd sizes entries output) := by
  unfold ReadState.readEocd
  apply (writesPieces_readPackedStruct rs _ output
    packedSize_zip64EndOfCentralDirectoryRecord).bind
  intro rs' output'
  apply (writesPieces_readPackedStruct rs' _ output'
    packedSize_zip64EndOfCentralDirectoryLocator).bind
  intro rs'' output''
  exact writesPieces_readPackedStruct rs'' _ output'' packedSize_endOfCentralDirectory

/-- Nothing of the current chunk is to be skipped, unless it is the header that is staged. -/
def Unskipped (rs : ReadState) : Prop := rs.stagingBuffer = [] → rs.toSkip = 0

/-- What `read_from_staging` leaves behind. -/
structure StagingRead (rs rs' : ReadState) (output' : ReadBuf) : Prop where
  chunk : rs'.currentChunk = rs.currentChunk
  processed : rs'.chunkProcessedSize = rs.chunkProcessedSize
  staged : rs'.stagingBuffer.length ≤ rs.stagingBuffer.length
  unskipped : rs.stagingBuffer ≠ [] → Unskipped rs'
  /-- Bytes stay staged only if the output is full. -/
  full : rs'.stagingBuffer ≠ [] → output'.remaining = 0

/-- What is staged is cut to the free bytes, so the output takes it. -/
theorem readFromStaging_hostile (rs : ReadState) (output : ReadBuf) :
    (rs.readFromStaging output).wp (· = .overflow)
      fun result => StagingRead rs result.1 result.2 := by
  unfold ReadState.readFromStaging
  rw [Exec.wp_bind]
  refine Exec.wp_addU64 (fun _ => rfl) fun _ => ?_
  by_cases hlast : rs.toSkip + output.remaining ≥ rs.stagingBuffer.length
  · have hall : ∀ output' : ReadBuf,
        StagingRead rs { rs with toSkip := 0, stagingBuffer := [] } output' := by
      intro output'
      exact ⟨rfl, rfl, Nat.zero_le _, fun _ _ => rfl, fun hne => absurd rfl hne⟩
    simp only [decide_eq_true hlast, if_true]
    by_cases hlt : rs.toSkip < rs.stagingBuffer.length
    · rw [if_pos hlt, Exec.wp_bind, ReadBuf.putSlice_eq ?_]
      · exact hall _
      · rw [List.length_drop, List.length_take]
        omega
    · rw [if_neg hlt]
      exact hall _
  · -- the output is full before all that is staged is read
    have hlt : rs.toSkip < rs.stagingBuffer.length := by omega
    have hlen : ((rs.stagingBuffer.take (rs.toSkip + output.remaining)).drop rs.toSkip).length =
        output.remaining := by
      rw [List.length_drop, List.length_take]
      omega
    simp only [decide_eq_false hlast, Bool.false_eq_true, if_false, if_pos hlt]
    rw [Exec.wp_bind, ReadBuf.putSlice_eq (Nat.le_of_eq hlen)]
    refine ⟨rfl, rfl, Nat.le_refl _, fun hne hempty => absurd hempty hne, fun _ => ?_⟩
    rw [ReadBuf.remaining_append, hlen, Nat.sub_self]

/-! ### Readers in the slot -/

/-- An entry stays what it is, and keeps its CRC once it is set. -/
def KeepsCrc (entry entry' : ReaderEntry E) : Prop :=
  ∃ crc32, entry' = { entry with crc32 } ∧ ∀ c, entry.crc32 = some c → crc32 = some c

theorem KeepsCrc.refl (entry : ReaderEntry E) : KeepsCrc entry entry :=
  ⟨entry.crc32, rfl, fun _ h => h⟩

theorem KeepsCrc.trans {entry entry' entry'' : ReaderEntry E} (h : KeepsCrc entry entry')
    (h' : KeepsCrc entry' entry'') : KeepsCrc entry entry'' := by
  obtain ⟨crc, rfl, hkept⟩ := h
  obtain ⟨crc', rfl, hkept'⟩ := h'
  exact ⟨crc', rfl, fun c hc => hkept' c (hkept c hc)⟩

/-- A file reader that serves an entry of which `toSkip` bytes are to be skipped: it has sought only
    if the CRC is known, and a seek in progress is one to these bytes. -/
inductive ReaderSound (entry : ReaderEntry E) (toSkip : Nat) (reader : CrcReader E H) : Prop where
  | straight (count : Nat) (h : Straight entry.data reader count)
  | seeking (hdid : reader.didSeek = true) (hbusy : reader.seekInProgress = true)
    (hcrc : entry.crc32 ≠ none) (hskip : 0 < toSkip)
    (hreached : SourceReached E entry.data (.seeking reader.innerReader toSkip) ∨
      SourceReached E entry.data (.failedSeek reader.innerReader))
  | sought (hdid : reader.didSeek = true) (hidle : reader.seekInProgress = false)
    (hcrc : entry.crc32 ≠ none) (hskip : toSkip = 0)

/-- What is in the slot serves the entry. -/
def SlotSound (t : EntryFrame E H) : Prop :=
  match t.pinned.slot with
  | .nothing => True
  | .readerFuture future completed =>
    completed = false → SourceReached E t.entry.data (.opening future)
  | .fileReader reader => ReaderSound t.entry t.readState.toSkip reader

/-- The reader in the slot has a seek in progress that failed. -/
def EntryFrame.SeekFailed (t : EntryFrame E H) : Prop :=
  ∃ reader, t.pinned.slot = .fileReader reader ∧ reader.seekInProgress = true ∧
    SourceReached E t.entry.data (.failedSeek reader.innerReader)

/-- The source does not seek true, or its seek failed. -/
def EntryFrame.Broken (t : EntryFrame E H) : Prop :=
  ¬ SeeksTrue E t.entry.data ∨ t.SeekFailed

section Readers
variable {t : EntryFrame E H} {entry : ReaderEntry E} {toSkip : Nat} {reader : CrcReader E H}

theorem SlotSound.fileReader (h : SlotSound t) (hslot : t.pinned.slot = .fileReader reader) :
    ReaderSound t.entry t.readState.toSkip reader := by
  unfold SlotSound at h
  rwa [hslot] at h

theorem slotSound_of_nothing (hslot : t.pinned.slot = .nothing) : SlotSound t := by
  unfold SlotSound
  rw [hslot]
  trivial

theorem slotSound_of_fileReader (hslot : t.pinned.slot = .fileReader reader)
    (h : ReaderSound t.entry t.readState.toSkip reader) : SlotSound t := by
  unfold SlotSound
  rwa [hslot]

/-- Before the CRC is known a reader has not sought. -/
theorem ReaderSound.unsought (h : ReaderSound entry toSkip reader) (hcrc : entry.crc32 = none) :
    ∃ count, Straight entry.data reader count := by
  cases h with
  | straight count h => exact ⟨count, h⟩
  | seeking _ _ hne => exact absurd hcrc hne
  | sought _ _ hne => exact absurd hcrc hne

/-- A reader with nothing to skip is at no seek. -/
theorem ReaderSound.idle (h : ReaderSound entry toSkip reader) (hskip : toSkip = 0) :
    reader.seekInProgress = false := by
  cases h with
  | straight _ h => exact h.idle
  | seeking _ _ _ hpos => omega
  | sought _ hidle => exact hidle

/-- A seek that answered its position is over, and answers another one only if it did not end at its
    target or had failed. -/
structure SeekAnswered (d : E.Data) (toSkip : Nat) (reader : CrcReader E H) (q : Nat)
    (reader' : CrcReader E H) : Prop where
  didSeek : reader'.didSeek = true
  idle : reader'.seekInProgress = false
  told : q ≠ toSkip → ¬ SeeksTrue E d ∨
    (reader.seekInProgress = true ∧ SourceReached E d (.failedSeek reader.innerReader))

/-- **A seek** to the bytes to be skipped. -/
theorem ReaderSound.seek (h : ReaderSound entry toSkip reader) (hcrc : entry.crc32 ≠ none)
    (hskip : 0 < toSkip) (ctx : E.Context) :
    match reader.seek entry.data ctx (.start toSkip) with
    | (.pending, reader') => ReaderSound entry toSkip reader'
    | (.err _, reader') => ReaderSound entry toSkip reader'
    | (.ok q, reader') => SeekAnswered entry.data toSkip reader q reader' := by
  unfold CrcReader.seek
  cases h with
  | straight count h =>
    rw [h.idle]
    simp only [Bool.false_eq_true, if_false]
    unfold CrcReader.startSeek
    rcases hstart : E.startSeek reader.innerReader entry.data (.start toSkip) with ⟨e | u, inner⟩
    · exact .seeking rfl rfl hcrc hskip (.inr (h.reached.startSeekErr hstart))
    · have hreached := h.reached.startSeek hstart
      dsimp only
      unfold CrcReader.pollSeekComplete
      dsimp only
      rcases hpoll : E.pollSeekComplete inner entry.data ctx with ⟨_ | e | q, inner'⟩
      · exact .seeking rfl rfl hcrc hskip (.inl (hreached.seekPending hpoll))
      · exact .seeking rfl rfl hcrc hskip (.inr (hreached.seekErr hpoll))
      · exact ⟨rfl, rfl, fun hne => .inl fun htrue => hne (htrue _ _ _ _ _ hreached hpoll)⟩
  | seeking hdid hbusy _ _ hreached =>
    rw [hbusy]
    simp only [if_true]
    unfold CrcReader.pollSeekComplete
    rcases hpoll : E.pollSeekComplete reader.innerReader entry.data ctx with ⟨_ | e | q, inner'⟩
    · refine .seeking hdid hbusy hcrc hskip ?_
      rcases hreached with hreached | hreached
      · exact .inl (hreached.seekPending hpoll)
      · exact .inr (hreached.stillFailed hpoll (by simp))
    · refine .seeking hdid hbusy hcrc hskip (.inr ?_)
      rcases hreached with hreached | hreached
      · exact hreached.seekErr hpoll
      · exact hreached.stillFailed hpoll (by simp)
    · refine ⟨hdid, rfl, fun hne => ?_⟩
      rcases hreached with hreached | hreached
      · exact .inl fun htrue => hne (htrue _ _ _ _ _ hreached hpoll)
      · exact .inr ⟨hbusy, hreached⟩
  | sought _ _ _ hzero => omega

end Readers

/-! ### Functions on one entry -/

/-- `get_reader` leaves the reader it answers in the slot, and else changes nothing. -/
structure Opened (t : EntryFrame E H) (r : PollResult (IoError E) (CrcReader E H))
    (t' : EntryFrame E H) : Prop where
  readState : t'.readState = t.readState
  entry : t'.entry = t.entry
  output : t'.output = t.output
  sound : SlotSound t'
  reader : ∀ reader, r = .ok reader → t'.pinned.slot = .fileReader reader
  broken : t'.Broken → t.Broken

/-- A reader that was just opened has no seek in progress. -/
theorem broken_of_slot {t t' : EntryFrame E H} (hentry : t'.entry = t.entry)
    (hslot : ∀ reader, t'.pinned.slot = .fileReader reader → reader.seekInProgress = false)
    (h : t'.Broken) : t.Broken := by
  rcases h with huntrue | ⟨reader, hreader, hbusy, _⟩
  · rw [hentry] at huntrue
    exact .inl huntrue
  · rw [hslot reader hreader] at hbusy
    cases hbusy

theorem getReader_hostile (ctx : E.Context) {t : EntryFrame E H} (h : SlotSound t) :
    (getReader ctx).wp (Tolerated broken starved) (Opened t) t := by
  have hfuture : ∀ (pinned : Pinned E H) (future : E.Future) (completed : Bool),
      pinned.slot = .readerFuture future completed →
      (completed = false → SourceReached E t.entry.data (.opening future)) →
      (pollFuture ctx >>= fun _ => fileReader).wp (Tolerated broken starved) (Opened t)
        { t with pinned } := by
    rintro ⟨_, opened⟩ future completed rfl hreached
    rw [wp_bind]
    unfold pollFuture Async.wp
    cases completed with
    | true => trivial
    | false =>
      have hreached := hreached rfl
      dsimp only
      rcases hpoll : E.poll future ctx with ⟨_ | e | reader, future'⟩
      · exact ⟨rfl, rfl, rfl, fun _ => hreached.pollPending hpoll, (fun _ h => by cases h),
          broken_of_slot rfl fun _ h => by cases h⟩
      · exact ⟨rfl, rfl, rfl, (fun h => by cases h), (fun _ h => by cases h),
          broken_of_slot rfl fun _ h => by cases h⟩
      · refine ⟨rfl, rfl, rfl, .straight 0 ⟨rfl, rfl, hreached.pollReady hpoll⟩, ?_, ?_⟩
        · rintro _ ⟨⟩
          rfl
        · refine broken_of_slot rfl ?_
          rintro _ ⟨⟩
          rfl
  unfold getReader openFuture
  rw [wp_bind, wp_get_bind]
  cases hs : t.pinned.slot with
  | nothing =>
    exact hfuture ⟨.readerFuture (E.getReader t.entry.data) false,
      t.pinned.opened ++ [t.entry.name]⟩ _ _ rfl fun _ => .getReader
  | readerFuture future completed =>
    unfold SlotSound at h
    rw [hs] at h
    exact hfuture t.pinned _ _ hs h
  | fileReader reader =>
    dsimp only
    rw [wp_pure]
    simp only [andThen]
    rw [wp_bind]
    unfold pollFuture Async.wp
    dsimp only
    rw [hs]
    show Async.wp fileReader _ _ t
    rw [fileReader_wp hs]
    refine ⟨rfl, rfl, rfl, h, ?_, id⟩
    rintro _ ⟨⟩
    exact hs

/-- There are turns enough to read the source to its end, unless a call may be starved. -/
def Fuelled (starved : Prop) (E : EntryData) (d : E.Data) (bound fuel : Nat) : Prop :=
  ¬ starved → EndsBy E d bound ∧ bound < fuel

theorem Fuelled.mono {d : E.Data} {bound fuel fuel' : Nat} (h : Fuelled starved E d bound fuel)
    (hle : fuel ≤ fuel') : Fuelled starved E d bound fuel' := by
  intro hfed
  obtain ⟨hends, hlt⟩ := h hfed
  exact ⟨hends, by omega⟩

/-- A loop that read more than there is was not fuelled. -/
theorem starved_of_straight {d : E.Data} {bound count : Nat} {reader : CrcReader E H}
    (h : Straight d reader count) (hfuel : Fuelled starved E d bound count) : starved := by
  by_contra hfed
  obtain ⟨hends, hlt⟩ := hfuel hfed
  have hle := hends _ _ h.reached
  omega

/-- The loop of `get_crc` keeps a reader that did not seek. -/
theorem readToEnd_hostile (ctx : E.Context) (fuel : Nat) {t : EntryFrame E H}
    {reader : CrcReader E H} {bound count : Nat} (hslot : t.pinned.slot = .fileReader reader)
    (h : Straight t.entry.data reader count)
    (hfuel : Fuelled starved E t.entry.data bound (count + fuel)) :
    (readToEnd ctx fuel).wp (Tolerated broken starved) (fun _ t' => ∃ reader' count',
      t' = t.setSlot (.fileReader reader') ∧ Straight t.entry.data reader' count') t := by
  induction fuel generalizing t reader count with
  | zero => exact starved_of_straight h hfuel
  | succ fuel ih =>
    unfold readToEnd
    rw [wp_bind, onFileReader_wp hslot]
    have hread := h.pollRead ctx (.new READ_SIZE)
    generalize reader.pollRead t.entry.data ctx (.new READ_SIZE) = result at hread
    rcases result with ⟨_ | e | buf, reader'⟩
    · exact ⟨reader', count, rfl, hread⟩
    · exact ⟨reader', count, rfl, hread⟩
    · obtain ⟨bytes, hext, hstraight⟩ := hread
      simp only [andThen]
      split
      · exact ⟨reader', _, rfl, hstraight⟩
      · next hmore =>
        -- a read that is not the last one counts
        have hpos : 0 < bytes.length := by
          rw [List.length_pos_iff]
          rintro rfl
          rw [hext.filled] at hmore
          exact hmore rfl
        exact ih (t := t.setSlot (.fileReader reader')) rfl hstraight (hfuel.mono (by omega))

/-- What `get_crc` leaves behind. -/
structure CrcLeft (t : EntryFrame E H) (r : PollResult (IoError E) UInt32) (t' : EntryFrame E H) :
    Prop where
  readState : t'.readState = t.readState
  output : t'.output = t.output
  entry : KeepsCrc t.entry t'.entry
  done : ∀ crc, r = .ok crc → t'.pinned.slot = .nothing
  known : ∀ crc, r = .ok crc → t'.entry.crc32 = some crc
  interrupted : (∀ crc, r ≠ .ok crc) →
    t'.entry = t.entry ∧ SlotSound t' ∧ t.entry.crc32 = none ∧ t.entry.size ≠ 0

/-- **`get_crc`**: a reader that sought has no CRC, but it is not asked for one. -/
theorem getCrc_hostile (ctx : E.Context) (fuel : Nat) {t : EntryFrame E H} {bound : Nat}
    (h : SlotSound t) (hslot : t.pinned.slot ≠ .nothing → t.entry.crc32 = none ∧ t.entry.size ≠ 0)
    (hfuel : Fuelled starved E t.entry.data bound fuel) :
    (getCrc ctx fuel).wp (Tolerated broken starved) (CrcLeft t) t := by
  have hnothing : ¬ (t.entry.crc32 = none ∧ t.entry.size ≠ 0) → t.pinned.slot = .nothing := by
    intro hnot
    by_contra hne
    exact hnot (hslot hne)
  unfold getCrc
  rw [wp_get_bind]
  cases hcrc : t.entry.crc32 with
  | some crc =>
    refine ⟨rfl, rfl, .refl _, fun _ _ => hnothing ?_, ?_, fun hne => absurd rfl (hne crc)⟩
    · rintro ⟨hnone, _⟩
      rw [hcrc] at hnone
      cases hnone
    · rintro _ ⟨⟩
      exact hcrc
  | none =>
    have hset : ∀ crc, KeepsCrc t.entry { t.entry with crc32 := some crc } := by
      intro crc
      refine ⟨some crc, rfl, fun c hc => ?_⟩
      rw [hcrc] at hc
      cases hc
    by_cases hsize : t.entry.size = 0
    · rw [if_pos hsize]
      refine ⟨rfl, rfl, hset _, fun _ _ => hnothing fun hand => hand.2 hsize, ?_,
        fun hne => absurd rfl (hne _)⟩
      rintro _ ⟨⟩
      rfl
    · rw [if_neg hsize, wp_bind]
      refine wp_mono (getReader_hostile ctx h) (fun _ hf => hf) ?_
      intro r t₁ hopened
      have hentry := hopened.entry
      -- an interrupted computation leaves the entry as it is
      have hleft : ∀ (r : PollResult (IoError E) UInt32) (t' : EntryFrame E H),
          (∀ crc, r ≠ .ok crc) → t'.readState = t.readState → t'.output = t.output →
          t'.entry = t.entry → SlotSound t' → CrcLeft t r t' := by
        intro r t' hr hrs hout hent hsound
        refine ⟨hrs, hout, hent ▸ .refl _, fun crc hok => absurd hok (hr crc),
          fun crc hok => absurd hok (hr crc), fun _ => ?_⟩
        exact ⟨hent, hsound, hcrc, hsize⟩
      cases r with
      | pending => exact hleft _ _ (by simp) hopened.readState hopened.output hentry hopened.sound
      | err e => exact hleft _ _ (by simp) hopened.readState hopened.output hentry hopened.sound
      | ok reader =>
        have hreader := hopened.reader reader rfl
        obtain ⟨count, hstraight⟩ := (hopened.sound.fileReader hreader).unsought (by rw [hentry, hcrc])
        have hfuel₁ : Fuelled starved E t₁.entry.data bound (count + fuel) := by
          rw [hentry]
          exact hfuel.mono (Nat.le_add_left _ _)
        simp only [andThen]
        rw [wp_bind]
        refine wp_mono (readToEnd_hostile ctx fuel hreader hstraight hfuel₁) (fun _ hf => hf) ?_
        rintro r t₂ ⟨reader', count', rfl, hstraight'⟩
        have hsound : SlotSound (t₁.setSlot (.fileReader reader')) :=
          slotSound_of_fileReader rfl (.straight count' hstraight')
        cases r with
        | pending => exact hleft _ _ (by simp) hopened.readState hopened.output hentry hsound
        | err e => exact hleft _ _ (by simp) hopened.readState hopened.output hentry hsound
        | ok _ =>
          simp only [andThen]
          rw [wp_bind, fileReader_wp rfl]
          simp only [andThen]
          have hsome : reader'.getCrc32 = some (H.finalize reader'.hasher) := by
            unfold CrcReader.getCrc32
            rw [hstraight'.unsought]
            rfl
          rw [hsome]
          refine ⟨hopened.readState, hopened.output, ?_, fun _ _ => rfl, ?_,
            fun hne => absurd rfl (hne _)⟩
          · show KeepsCrc t.entry { t₁.entry with crc32 := _ }
            rw [hentry]
            exact hset _
          · rintro _ ⟨⟩
            rfl

/-- What a function on entry data leaves behind. -/
structure DataLeft (t t' : EntryFrame E H) : Prop where
  entry : KeepsCrc t.entry t'.entry
  chunk : t'.readState.currentChunk = t.readState.currentChunk
  staged : t'.readState.stagingBuffer = t.readState.stagingBuffer
  toSkip : t'.readState.toSkip ≤ t.readState.toSkip
  sound : SlotSound t'

theorem DataLeft.trans {t t' t'' : EntryFrame E H} (h : DataLeft t t') (h' : DataLeft t' t'') :
    DataLeft t t'' where
  entry := h.entry.trans h'.entry
  chunk := h'.chunk.trans h.chunk
  staged := h'.staged.trans h.staged
  toSkip := Nat.le_trans h'.toSkip h.toSkip
  sound := h'.sound

theorem Opened.dataLeft {t t' : EntryFrame E H} {r : PollResult (IoError E) (CrcReader E H)}
    (h : Opened t r t') : DataLeft t t' where
  entry := h.entry ▸ .refl _
  chunk := by rw [h.readState]
  staged := by rw [h.readState]
  toSkip := by rw [h.readState]
  sound := h.sound

/-- With another reader in the slot, and fewer bytes to be skipped. -/
theorem dataLeft_skip {t : EntryFrame E H} {reader : CrcReader E H} {processed toSkip : Nat}
    (hle : toSkip ≤ t.readState.toSkip) (hsound : ReaderSound t.entry toSkip reader) :
    DataLeft t { t.setSlot (.fileReader reader) with
      readState.chunkProcessedSize := processed
      readState.toSkip := toSkip } where
  entry := .refl _
  chunk := rfl
  staged := rfl
  toSkip := hle
  sound := hsound

/-- The skipping is done: the reader is at no seek. -/
def Skipped (t t' : EntryFrame E H) (r : PollResult (IoError E) Unit) : Prop :=
  DataLeft t t' ∧ t'.output = t.output ∧ ∀ u, r = .ok u →
    ∃ reader : CrcReader E H, t'.pinned.slot = .fileReader reader ∧ reader.seekInProgress = false

theorem skipByReading_hostile (ctx : E.Context) (fuel : Nat) {t : EntryFrame E H}
    {reader : CrcReader E H} {bound count : Nat} (hslot : t.pinned.slot = .fileReader reader)
    (h : Straight t.entry.data reader count)
    (hfuel : Fuelled starved E t.entry.data bound (count + fuel)) :
    (skipByReading ctx fuel).wp (Tolerated broken starved) (fun r t' => Skipped t t' r) t := by
  induction fuel generalizing t reader count with
  | zero => exact starved_of_straight h hfuel
  | succ fuel ih =>
    unfold skipByReading
    rw [wp_get_bind]
    by_cases hskip : t.readState.toSkip > 0
    · rw [if_pos hskip]
      show Async.wp (onFileReader _ >>= _) _ _ _
      rw [wp_bind, onFileReader_wp hslot]
      have hread := h.pollRead ctx
        (.new (min READ_SIZE t.readState.toSkip) (by simp only [READ_SIZE]; omega))
      generalize reader.pollRead t.entry.data ctx
        (.new (min READ_SIZE t.readState.toSkip) (by simp only [READ_SIZE]; omega)) = result
        at hread
      rcases result with ⟨_ | e | buf, reader'⟩
      · exact ⟨dataLeft_skip (Nat.le_refl _) (.straight count hread), rfl, fun _ h => by cases h⟩
      · exact ⟨dataLeft_skip (Nat.le_refl _) (.straight count hread), rfl, fun _ h => by cases h⟩
      · obtain ⟨bytes, hext, hstraight⟩ := hread
        simp only [andThen]
        rw [wp_bind, wp_lift]
        refine Exec.wp_addU64 (fun _ => trivial) fun _ => ?_
        simp only [andThen]
        rw [wp_bind, wp_lift]
        refine Exec.wp_subU64 (fun _ => trivial) fun hle => ?_
        simp only [andThen]
        rw [wp_modify_bind]
        have hleft : DataLeft t { t.setSlot (.fileReader reader') with
            readState.chunkProcessedSize := t.readState.chunkProcessedSize + buf.filled.length
            readState.toSkip := t.readState.toSkip - buf.filled.length } :=
          dataLeft_skip (Nat.sub_le _ _) (.straight _ hstraight)
        split
        · exact ⟨hleft, rfl, fun _ _ => ⟨reader', rfl, hstraight.idle⟩⟩
        · next hmore =>
          have hpos : 0 < bytes.length := by
            rw [List.length_pos_iff]
            rintro rfl
            rw [hext.filled] at hmore
            exact hmore rfl
          refine wp_mono (ih (t := { t.setSlot (.fileReader reader') with
            readState.chunkProcessedSize := t.readState.chunkProcessedSize + buf.filled.length
            readState.toSkip := t.readState.toSkip - buf.filled.length }) rfl hstraight
            (hfuel.mono (by omega))) (fun _ hf => hf) ?_
          rintro r t' ⟨hrest, houtput, hdone⟩
          exact ⟨hleft.trans hrest, houtput, hdone⟩
    · rw [if_neg hskip]
      refine ⟨⟨.refl _, rfl, rfl, Nat.le_refl _, ?_⟩, rfl, fun _ _ => ⟨reader, hslot, h.idle⟩⟩
      exact slotSound_of_fileReader hslot (.straight count h)

theorem skipBySeeking_hostile (ctx : E.Context) {t : EntryFrame E H} {reader : CrcReader E H}
    (hslot : t.pinned.slot = .fileReader reader)
    (h : ReaderSound t.entry t.readState.toSkip reader) (hcrc : t.entry.crc32 ≠ none)
    (hskip : 0 < t.readState.toSkip) (hbroken : t.Broken → broken) :
    (skipBySeeking ctx).wp (Tolerated broken starved) (fun r t' => Skipped t t' r) t := by
  have hsought := h.seek hcrc hskip ctx
  unfold skipBySeeking
  rw [wp_get_bind, wp_bind, onFileReader_wp hslot]
  dsimp only
  generalize reader.seek t.entry.data ctx (.start t.readState.toSkip) = result at hsought
  rcases result with ⟨_ | e | q, reader'⟩
  · exact ⟨dataLeft_skip (Nat.le_refl _) hsought, rfl, fun _ h => by cases h⟩
  · exact ⟨dataLeft_skip (Nat.le_refl _) hsought, rfl, fun _ h => by cases h⟩
  · obtain ⟨hdid, hidle, htold⟩ := hsought
    simp only [andThen]
    rw [wp_bind, wp_lift]
    refine Exec.wp_assert (fun hne => hbroken ?_) fun _ => ?_
    · rcases htold hne with huntrue | ⟨hbusy, hfailed⟩
      · exact .inl huntrue
      · exact .inr ⟨reader, hslot, hbusy, hfailed⟩
    · simp only [andThen]
      rw [wp_bind, wp_lift]
      refine Exec.wp_addU64 (fun _ => trivial) fun _ => ?_
      exact ⟨dataLeft_skip (Nat.zero_le _) (.sought hdid hidle hcrc rfl), rfl,
        fun _ _ => ⟨reader', rfl, hidle⟩⟩

theorem skipEntryData_hostile (ctx : E.Context) (fuel : Nat) {t : EntryFrame E H}
    {reader : CrcReader E H} {bound : Nat} (hslot : t.pinned.slot = .fileReader reader)
    (h : ReaderSound t.entry t.readState.toSkip reader) (hbroken : t.Broken → broken)
    (hfuel : Fuelled starved E t.entry.data bound fuel) :
    (skipEntryData ctx fuel).wp (Tolerated broken starved) (fun r t' => Skipped t t' r) t := by
  unfold skipEntryData
  rw [wp_get_bind]
  by_cases hskip : t.readState.toSkip > 0
  · rw [if_pos hskip]
    cases hcrc : t.entry.crc32 with
    | none =>
      obtain ⟨count, hstraight⟩ := h.unsought hcrc
      exact skipByReading_hostile ctx fuel hslot hstraight (hfuel.mono (Nat.le_add_left _ _))
    | some crc => exact skipBySeeking_hostile ctx hslot h (by simp [hcrc]) hskip hbroken
  · rw [if_neg hskip]
    exact ⟨⟨.refl _, rfl, rfl, Nat.le_refl _, slotSound_of_fileReader hslot h⟩, rfl,
      fun _ _ => ⟨reader, hslot, h.idle (by omega)⟩⟩

/-- The end of the entry data: the chunk is done only if everything was processed. -/
structure DataFinished (t : EntryFrame E H) (r : PollResult (IoError E) Bool)
    (t' : EntryFrame E H) : Prop where
  left : DataLeft t t'
  output : t'.output = t.output
  done : ∀ done, r = .ok done → done = true ∧ t'.pinned.slot = .nothing ∧
    t'.readState.chunkProcessedSize = t.entry.size

theorem finishEntryData_hostile {t : EntryFrame E H} {reader : CrcReader E H}
    (hslot : t.pinned.slot = .fileReader reader)
    (h : ReaderSound t.entry t.readState.toSkip reader) :
    (finishEntryData : EntryRead E H Bool).wp (Tolerated broken starved) (DataFinished t) t := by
  -- the checks of the size, with whatever CRC is stored
  have hsize : ∀ crc32 : Option UInt32, (∀ c, t.entry.crc32 = some c → crc32 = some c) → Async.wp
      (if t.readState.chunkProcessedSize = t.entry.size then pure true
        else throw (.read (.sizeMismatch t.entry.name t.entry.size
          t.readState.chunkProcessedSize)) : EntryRead E H Bool)
      (Tolerated broken starved) (DataFinished t)
      { t with entry.crc32 := crc32, pinned.slot := .nothing } := by
    intro crc32 hkept
    have hleft : DataLeft t { t with entry.crc32 := crc32, pinned.slot := .nothing } :=
      ⟨⟨crc32, rfl, hkept⟩, rfl, rfl, Nat.le_refl _, slotSound_of_nothing rfl⟩
    split
    · next hall =>
      refine ⟨hleft, rfl, ?_⟩
      rintro _ ⟨⟩
      exact ⟨rfl, rfl, hall⟩
    · exact ⟨hleft, rfl, fun _ h => by cases h⟩
  unfold finishEntryData
  rw [wp_get_bind, wp_bind, fileReader_wp hslot]
  simp only [andThen]
  cases reader.getCrc32 with
  | none => exact hsize t.entry.crc32 fun _ h => h
  | some actualCrc =>
    cases hcrc : t.entry.crc32 with
    | none => exact hsize (some actualCrc) fun c hc => by rw [hcrc] at hc; cases hc
    | some expectedCrc =>
      by_cases heq : expectedCrc = actualCrc
      · simp only [ne_eq, heq, not_true_eq_false, if_false]
        refine hsize (some actualCrc) fun c hc => ?_
        rw [hcrc] at hc
        cases hc
        rw [heq]
      · simp only [ne_eq, heq, not_false_eq_true, if_true]
        exact ⟨⟨.refl _, rfl, rfl, Nat.le_refl _, slotSound_of_fileReader hslot h⟩, rfl,
          fun _ h => by cases h⟩

/-- What `read_entry_data` leaves behind: if the chunk is done, all of it was processed and the
    slot is empty; else some bytes were output, and the reader stays. -/
structure DataRead (t : EntryFrame E H) (r : PollResult (IoError E) Bool) (t' : EntryFrame E H) :
    Prop where
  left : DataLeft t t'
  done : r = .ok true → t'.pinned.slot = .nothing ∧
    t'.readState.chunkProcessedSize = t.entry.size ∧ t'.output = t.output
  more : r = .ok false → t'.output.remaining < t.output.remaining ∧
    ∃ reader : CrcReader E H, t'.pinned.slot = .fileReader reader ∧ reader.seekInProgress = false

theorem outputEntryData_hostile (ctx : E.Context) {t : EntryFrame E H} {reader : CrcReader E H}
    (hslot : t.pinned.slot = .fileReader reader)
    (h : ReaderSound t.entry t.readState.toSkip reader) (hidle : reader.seekInProgress = false) :
    (outputEntryData ctx).wp (Tolerated broken starved) (DataRead t) t := by
  unfold outputEntryData
  rw [wp_get_bind, wp_bind, onFileReader_wp hslot]
  -- a read keeps the flags, and a reader that did not seek reads on
  have hsound : ReaderSound t.entry t.readState.toSkip (reader.pollRead t.entry.data ctx t.output).2
      := by
    cases h with
    | straight count hstraight =>
      have hread := hstraight.pollRead ctx t.output
      generalize reader.pollRead t.entry.data ctx t.output = result at hread ⊢
      rcases result with ⟨_ | e | output, reader'⟩
      · exact .straight count hread
      · exact .straight count hread
      · obtain ⟨bytes, _, hread⟩ := hread
        exact .straight _ hread
    | seeking _ hbusy =>
      rw [hidle] at hbusy
      cases hbusy
    | sought hdid _ hcrc hskip =>
      obtain ⟨hdid', hidle'⟩ := reader.pollRead_flags t.entry.data ctx t.output
      exact .sought (hdid'.trans hdid) (hidle'.trans hidle) hcrc hskip
  have hidle' := (reader.pollRead_flags t.entry.data ctx t.output).2.trans hidle
  have hextends := @CrcReader.pollRead_extends E H reader t.entry.data ctx t.output
  generalize reader.pollRead t.entry.data ctx t.output = result at hsound hidle' hextends
  rcases result with ⟨_ | e | output, reader'⟩
  all_goals
    have hleft : DataLeft t (t.setSlot (.fileReader reader')) :=
      ⟨.refl _, rfl, rfl, Nat.le_refl _, hsound⟩
  · exact ⟨hleft, (fun h => by cases h), fun h => by cases h⟩
  · exact ⟨hleft, (fun h => by cases h), fun h => by cases h⟩
  · obtain ⟨bytes, hext⟩ := hextends rfl
    simp only [andThen]
    rw [wp_modify_bind]
    by_cases hsame : output.remaining = t.output.remaining
    · rw [if_pos hsame]
      have hnil := hext.eq_nil_iff.mpr hsame
      rw [hnil] at hext
      have hfinish : (finishEntryData : EntryRead E H Bool).wp (Tolerated broken starved)
          (DataFinished { t.setSlot (.fileReader reader') with output })
          { t.setSlot (.fileReader reader') with output } :=
        finishEntryData_hostile rfl hsound
      refine wp_mono hfinish (fun _ hf => hf) ?_
      rintro r t' ⟨hrest, houtput, hdone⟩
      refine ⟨?_, fun hok => ?_, fun hok => ?_⟩
      · exact ⟨hrest.entry, hrest.chunk, hrest.staged, hrest.toSkip, hrest.sound⟩
      · exact ⟨(hdone true hok).2.1, (hdone true hok).2.2, houtput.trans hext.eq_of_nil⟩
      · cases (hdone false hok).1
    · -- some bytes were output, and they are at the end of the filling
      have hlen := hext.remaining
      have hfilled := congrArg List.length hext.filled
      rw [List.length_append] at hfilled
      rw [if_neg hsame, wp_bind, wp_lift]
      refine Exec.wp_subU64 (fun _ => trivial) fun _ => ?_
      simp only [andThen]
      rw [wp_bind, wp_lift, Exec.assert_eq (by rw [List.length_drop]; omega)]
      simp only [Exec.wp_ok, andThen]
      rw [wp_bind, wp_lift]
      refine Exec.wp_addU64 (fun _ => trivial) fun _ => ?_
      refine ⟨⟨.refl _, rfl, rfl, Nat.le_refl _, hsound⟩, (fun h => by cases h), fun _ => ?_⟩
      refine ⟨?_, reader', rfl, hidle'⟩
      show output.remaining < t.output.remaining
      omega

/-- **`read_entry_data`**, whatever the source does. -/
theorem readEntryData_hostile (ctx : E.Context) (fuel : Nat) {t : EntryFrame E H} {bound : Nat}
    (h : SlotSound t) (hbroken : t.Broken → broken)
    (hfuel : Fuelled starved E t.entry.data bound fuel) :
    (readEntryData ctx fuel).wp (Tolerated broken starved) (DataRead t) t := by
  unfold readEntryData
  rw [wp_bind]
  refine wp_mono (getReader_hostile ctx h) (fun _ hf => hf) ?_
  intro r t₁ hopened
  have hleft := hopened.dataLeft
  cases r with
  | pending => exact ⟨hleft, (fun h => by cases h), fun h => by cases h⟩
  | err e => exact ⟨hleft, (fun h => by cases h), fun h => by cases h⟩
  | ok reader =>
    have hreader := hopened.reader reader rfl
    have hfuel₁ : Fuelled starved E t₁.entry.data bound fuel := by
      rw [hopened.entry]
      exact hfuel
    simp only [andThen]
    rw [wp_bind]
    refine wp_mono (skipEntryData_hostile ctx fuel hreader (hopened.sound.fileReader hreader)
      (fun hb => hbroken (hopened.broken hb)) hfuel₁) (fun _ hf => hf) ?_
    rintro r t₂ ⟨hskipped, houtput, hdone⟩
    cases r with
    | pending => exact ⟨hleft.trans hskipped, (fun h => by cases h), fun h => by cases h⟩
    | err e => exact ⟨hleft.trans hskipped, (fun h => by cases h), fun h => by cases h⟩
    | ok u =>
      obtain ⟨reader', hreader', hidle⟩ := hdone u rfl
      have houtput₂ : t₂.output = t.output := houtput.trans hopened.output
      simp only [andThen]
      refine wp_mono (outputEntryData_hostile ctx hreader' (hskipped.sound.fileReader hreader')
        hidle) (fun _ hf => hf) ?_
      rintro r t₃ ⟨hout, hread, hmore⟩
      refine ⟨(hleft.trans hskipped).trans hout, fun hok => ?_, fun hok => ?_⟩
      · obtain ⟨hslot, hsize, hsame⟩ := hread hok
        obtain ⟨crc, hentry, _⟩ := (hleft.trans hskipped).entry
        exact ⟨hslot, by rw [hsize, hentry], hsame.trans houtput₂⟩
      · rw [← houtput₂]
        exact hmore hok

end Model

end Zippity
