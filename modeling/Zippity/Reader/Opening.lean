import Zippity.Reader.Turn

/-! # When entry data is opened

    Whatever the sources do, a turn of the loop calls `EntryData::get_reader` at
    most once: with an empty slot, on an entry with data, to read its data or to
    compute a CRC that is not known.
-/

namespace Zippity

open Framework Async

section Model
variable {E : EntryData} {H : Crc32Fast}

/-- The log of the calls, in a function on one entry. -/
def EntryFrame.log (t : EntryFrame E H) : List Name := t.pinned.opened

/-- The log of the calls, in the read loop. -/
def Frame.log (s : Frame E H) : List Name := s.pinned.opened

/-! ### Functions that open nothing -/

theorem keeps_fileReader : Keeps EntryFrame.log (fileReader : EntryRead E H _) := by
  apply Keeps.get_bind
  intro s
  split
  · exact keeps_pure _
  · exact keeps_fault _

theorem keeps_pollFuture (ctx : E.Context) :
    Keeps EntryFrame.log (pollFuture ctx : EntryRead E H _) := by
  intro s
  unfold Async.wp pollFuture
  dsimp only
  split
  · next future _ =>
    generalize E.poll future ctx = answer
    rcases answer with ⟨_ | _ | _, _⟩
    · rfl
    · rfl
    · rfl
  · trivial
  · rfl

theorem keeps_onFileReader {α : Type}
    (call : CrcReader E H → E.Data → PollResult E.Error α × CrcReader E H) :
    Keeps EntryFrame.log (onFileReader call) := by
  apply keeps_fileReader.bind
  intro reader
  apply Keeps.get_bind
  intro s
  generalize call reader s.entry.data = answer
  rcases answer with ⟨result, reader'⟩
  apply Keeps.modify_bind
  · intro _
    rfl
  · cases result with
    | pending => exact keeps_pending
    | err e => exact keeps_throw _
    | ok a => exact keeps_pure _

theorem keeps_readToEnd (ctx : E.Context) (fuel : Nat) :
    Keeps EntryFrame.log (readToEnd ctx fuel : EntryRead E H _) := by
  induction fuel with
  | zero => exact keeps_fault _
  | succ fuel ih =>
    apply (keeps_onFileReader _).bind
    intro readBuffer
    split
    · exact keeps_pure _
    · exact ih

theorem keeps_skipByReading (ctx : E.Context) (fuel : Nat) :
    Keeps EntryFrame.log (skipByReading ctx fuel : EntryRead E H _) := by
  induction fuel with
  | zero => exact keeps_fault _
  | succ fuel ih =>
    apply Keeps.get_bind
    intro s
    split
    · apply (keeps_onFileReader _).bind
      intro readBuffer
      apply (keeps_lift _).bind
      intro processed
      apply (keeps_lift _).bind
      intro toSkip
      apply Keeps.modify_bind
      · intro _
        rfl
      · split
        · exact keeps_pure _
        · exact ih
    · exact keeps_pure _

theorem keeps_skipBySeeking (ctx : E.Context) :
    Keeps EntryFrame.log (skipBySeeking ctx : EntryRead E H _) := by
  apply Keeps.get_bind
  intro s
  apply (keeps_onFileReader _).bind
  intro posAfterSeek
  apply (keeps_lift _).bind
  intro _
  apply (keeps_lift _).bind
  intro processed
  exact keeps_modify fun _ => rfl

theorem keeps_skipEntryData (ctx : E.Context) (fuel : Nat) :
    Keeps EntryFrame.log (skipEntryData ctx fuel : EntryRead E H _) := by
  apply Keeps.get_bind
  intro s
  split
  · split
    · exact keeps_skipByReading ctx fuel
    · exact keeps_skipBySeeking ctx
  · exact keeps_pure _

theorem keeps_finishEntryData : Keeps EntryFrame.log (finishEntryData : EntryRead E H _) := by
  -- the slot is emptied, and the size is checked
  have hsize : ∀ s : EntryFrame E H, Keeps EntryFrame.log (do
      modify fun s => s.setSlot .nothing
      if s.readState.chunkProcessedSize = s.entry.size then pure true
      else throw (.read (.sizeMismatch s.entry.name s.entry.size
        s.readState.chunkProcessedSize)) : EntryRead E H Bool) := by
    intro s
    apply Keeps.modify_bind
    · intro _
      rfl
    · split
      · exact keeps_pure _
      · exact keeps_throw _
  apply Keeps.get_bind
  intro s
  apply keeps_fileReader.bind
  intro reader
  dsimp only
  split
  · split
    · exact (keeps_throw _).bind fun _ => hsize s
    · exact Keeps.modify_bind (fun _ => rfl) (hsize s)
  · exact Keeps.modify_bind (fun _ => rfl) (hsize s)
  · exact (keeps_pure ()).bind fun _ => hsize s

theorem keeps_outputEntryData (ctx : E.Context) :
    Keeps EntryFrame.log (outputEntryData ctx : EntryRead E H _) := by
  apply Keeps.get_bind
  intro s
  apply (keeps_onFileReader _).bind
  intro output
  apply Keeps.modify_bind
  · intro _
    rfl
  · split
    · exact keeps_finishEntryData
    · apply (keeps_lift _).bind
      intro start
      apply (keeps_lift _).bind
      intro _
      apply (keeps_lift _).bind
      intro processed
      apply Keeps.modify_bind
      · intro _
        rfl
      · exact keeps_pure _

theorem keeps_writeHeader (write : EntryFrame E H → Exec (ReadState × ReadBuf)) :
    Keeps EntryFrame.log (writeHeader write) := by
  apply Keeps.get_bind
  intro s
  apply (keeps_lift _).bind
  intro result
  exact keeps_modify fun _ => rfl

/-! ### Functions that open an entry -/

/-- `get_reader` calls `EntryData::get_reader` when the slot is empty. -/
theorem getReader_log (ctx : E.Context) (t : EntryFrame E H) :
    (getReader ctx).wp (fun _ => True) (fun _ t' => t'.log = t.pinned.logged t.entry.name) t := by
  have hrest : Keeps EntryFrame.log (pollFuture ctx >>= fun _ => fileReader : EntryRead E H _) :=
    (keeps_pollFuture ctx).bind fun _ => keeps_fileReader
  unfold getReader openFuture
  rw [wp_bind, wp_get_bind]
  cases hslot : t.pinned.slot with
  | nothing =>
    apply hrest.after (P := (· = t.pinned.logged t.entry.name))
    unfold EntryFrame.log Pinned.logged
    rw [hslot]
  | readerFuture future completed =>
    apply hrest.after (P := (· = t.pinned.logged t.entry.name))
    exact (Pinned.logged_of_ne (by simp [hslot]) _).symm
  | fileReader reader =>
    apply hrest.after (P := (· = t.pinned.logged t.entry.name))
    exact (Pinned.logged_of_ne (by simp [hslot]) _).symm

theorem readEntryData_log (ctx : E.Context) (fuel : Nat) (t : EntryFrame E H) :
    (readEntryData ctx fuel).wp (fun _ => True)
      (fun _ t' => t'.log = t.pinned.logged t.entry.name) t := by
  unfold readEntryData
  rw [wp_bind]
  refine wp_mono (getReader_log ctx t) (fun _ hf => hf) ?_
  intro r t' hlog
  cases r with
  | pending => exact hlog
  | err e => exact hlog
  | ok reader =>
    have hrest : Keeps EntryFrame.log
        (skipEntryData ctx fuel >>= fun _ => outputEntryData ctx : EntryRead E H _) :=
      (keeps_skipEntryData ctx fuel).bind fun _ => keeps_outputEntryData ctx
    exact hrest.after (P := (· = t.pinned.logged t.entry.name)) hlog

/-- What is logged for the CRC of an entry. -/
def CrcLogged (t : EntryFrame E H) (log : List Name) : Prop :=
  log = t.log ∨ (t.entry.crc32 = none ∧ t.entry.size ≠ 0 ∧ log = t.pinned.logged t.entry.name)

theorem getCrc_log (ctx : E.Context) (fuel : Nat) (t : EntryFrame E H) :
    (getCrc ctx fuel).wp (fun _ => True) (fun _ t' => CrcLogged t t'.log) t := by
  unfold getCrc
  rw [wp_get_bind]
  cases hcrc : t.entry.crc32 with
  | some crc => exact .inl rfl
  | none =>
    by_cases hsize : t.entry.size = 0
    · rw [if_pos hsize]
      exact .inl rfl
    · rw [if_neg hsize, wp_bind]
      refine wp_mono (getReader_log ctx t) (fun _ hf => hf) ?_
      intro r t' hlog
      have hlogged : CrcLogged t t'.log := .inr ⟨hcrc, hsize, hlog⟩
      cases r with
      | pending => exact hlogged
      | err e => exact hlogged
      | ok reader =>
        -- nothing is opened behind the reader
        refine (show Keeps EntryFrame.log _ from ?_).after (P := CrcLogged t) hlogged
        apply (keeps_readToEnd ctx fuel).bind
        intro _
        apply keeps_fileReader.bind
        intro reader
        split
        · exact keeps_fault _
        · apply Keeps.modify_bind
          · intro _
            rfl
          · exact keeps_pure _

/-! ### Turns -/

/-- What a turn from `s` to `s'` opens: nothing, or an entry with data; and its CRC was not known
    unless the turn reads the data. -/
def Opens (s s' : Frame E H) : Prop :=
  s'.log = s.log ∨ ∃ i entry, s.entries[i]? = some entry ∧ entry.size ≠ 0 ∧
    (s.readState.currentChunk = .entryData i ∨ entry.crc32 = none) ∧
    s'.log = s.log ++ [entry.name]

section Turns
variable {s : Frame E H} {ctx : E.Context} {fuel initialRemaining i : Nat}

/-- `get_reader` on an entry of the frame. -/
theorem opens_of_logged {s' : Frame E H} {entry : ReaderEntry E}
    (hentry : s.entries[i]? = some entry)
    (hsize : entry.size ≠ 0)
    (hwhy : s.readState.currentChunk = .entryData i ∨ entry.crc32 = none)
    (hlog : s'.log = s.pinned.logged entry.name) : Opens s s' := by
  unfold Pinned.logged at hlog
  split at hlog
  · exact .inr ⟨i, entry, hentry, hsize, hwhy, hlog⟩
  · exact .inl hlog

/-- A part that keeps the log opens nothing. -/
theorem opens_of_keeps {α : Type} {x : FrameRead E H α} (hx : Keeps Frame.log x) :
    x.wp (fun _ => True) (fun _ s' => Opens s s') s :=
  wp_mono (hx s) (fun _ hf => hf) fun _ _ hsame => .inl hsame

theorem keeps_finishChunk (size : Nat) (done : Bool) :
    Keeps Frame.log (finishChunk size done : FrameRead E H _) := by
  cases done with
  | false => exact keeps_pure _
  | true =>
    apply Keeps.get_bind
    intro s
    apply (keeps_lift _).bind
    intro _
    apply (keeps_lift _).bind
    intro currentChunk
    exact keeps_modify fun _ => rfl

/-- A function on an entry opens what it logs. -/
theorem onEntry_opens {α : Type} {x : EntryRead E H α}
    (h : ∀ entry, s.entries[i]? = some entry →
      x.wp (fun _ => True) (fun _ t' => ∀ s' : Frame E H, s'.log = t'.log → Opens s s')
        ⟨s.readState, entry, s.pinned, s.output⟩) :
    (onEntry i x).wp (fun _ => True) (fun _ s' => Opens s s') s := by
  apply onEntry_entry trivial
  intro entry hentry
  rw [onEntry_wp hentry]
  exact wp_mono (h entry hentry) (fun _ hf => hf) fun _ t' ht' => ht' _ rfl

/-- The interruption macro opens what it runs. -/
theorem zippityReady_opens {α : Type} {x : FrameRead E H α}
    (hx : x.wp (fun _ => True) (fun _ s' => Opens s s') s) :
    (zippityReady initialRemaining x).wp (fun _ => True) (fun _ s' => Opens s s') s := by
  rw [zippityReady_wp]
  refine wp_mono hx (fun _ hf => hf) ?_
  intro r s' hopens
  cases r with
  | ok a => exact hopens
  | err e => exact hopens
  | pending =>
    dsimp only
    split
    · exact hopens
    · exact hopens

/-- The header writers compute the CRC and open nothing else. -/
theorem crcHeader_opens (i : Nat) (write : UInt32 → EntryFrame E H → Exec (ReadState × ReadBuf)) :
    (onEntry i (do
      let crc32 ← getCrc ctx fuel
      writeHeader (write crc32)
      pure true)).wp (fun _ => True) (fun _ s' => Opens s s') s := by
  apply onEntry_opens
  intro entry hentry
  have hlogged : ∀ log, CrcLogged ⟨s.readState, entry, s.pinned, s.output⟩ log →
      ∀ s' : Frame E H, s'.log = log → Opens s s' := by
    intro log hlog s' hs'
    subst hs'
    rcases hlog with hsame | ⟨hnone, hne, hlog⟩
    · exact .inl hsame
    · exact opens_of_logged hentry hne (.inr hnone) hlog
  rw [wp_bind]
  refine wp_mono (getCrc_log ctx fuel _) (fun _ hf => hf) ?_
  intro r t' hlog
  cases r with
  | pending => exact hlogged _ hlog
  | err e => exact hlogged _ hlog
  | ok crc32 =>
    have hrest : Keeps EntryFrame.log (writeHeader (write crc32) >>= fun _ => pure true) :=
      (keeps_writeHeader _).bind fun _ => keeps_pure true
    exact hrest.after (P := fun log => ∀ s' : Frame E H, s'.log = log → Opens s s')
      (hlogged _ hlog)

/-- A turn of the loop that reads a chunk. -/
theorem readChunk_opens (sizes : Sizes) {size : Nat}
    (hsize : s.readState.currentChunk.size s.entries = .ok size)
    (hskip : s.readState.toSkip < size) :
    (readChunk sizes ctx fuel initialRemaining).wp (fun _ => True) (fun _ s' => Opens s s') s := by
  unfold readChunk
  rw [wp_get_bind]
  split
  · -- a local header
    next i _ =>
    show Async.wp (onEntry i _ >>= _) _ _ _
    rw [wp_bind]
    refine wp_mono (onEntry_opens fun entry _ =>
      (keeps_writeHeader _).after (P := fun log => ∀ s' : Frame E H, s'.log = log → Opens s s')
        fun s' hs' => .inl hs') (fun _ hf => hf) ?_
    intro r s' hopens
    cases r with
    | pending => exact hopens
    | err e => exact hopens
    | ok _ => exact hopens
  · -- entry data
    next i hchunk =>
    split
    · exact opens_of_keeps ((keeps_lift _).bind fun _ => keeps_pure _)
    · apply zippityReady_opens
      apply onEntry_opens
      intro entry hentry
      rw [hchunk] at hsize
      simp only [Chunk.size, entryAt_eq hentry, Exec.ok_bind] at hsize
      cases hsize
      refine wp_mono (readEntryData_log ctx fuel _) (fun _ hf => hf) ?_
      intro r t' hlog s' hs'
      exact opens_of_logged hentry (by omega) (.inl hchunk) (hs'.trans hlog)
  · exact zippityReady_opens (crcHeader_opens _ _)
  · exact zippityReady_opens (crcHeader_opens _ _)
  · -- the end of central directory
    generalize s.readState.readEocd sizes s.entries s.output = write
    apply opens_of_keeps
    apply (keeps_lift _).bind
    intro result
    apply Keeps.modify_bind
    · intro _
      rfl
    · exact keeps_pure _
  · trivial

/-- **A turn of the loop**, whatever the sources do. -/
theorem readIteration_opens (sizes : Sizes) (ctx : E.Context) (fuel initialRemaining : Nat)
    (s : Frame E H) :
    (readIteration sizes ctx fuel initialRemaining).wp (fun _ => True) (fun _ s' => Opens s s')
      s := by
  unfold readIteration
  rw [wp_get_bind]
  split
  · apply opens_of_keeps
    apply (keeps_lift _).bind
    intro result
    apply Keeps.modify_bind
    · intro _
      rfl
    · exact keeps_pure _
  · split
    · exact opens_of_keeps (keeps_pure _)
    · rw [wp_bind, wp_lift]
      cases hsize : s.readState.currentChunk.size s.entries with
      | error f => trivial
      | ok size =>
        simp only [Exec.wp_ok, andThen]
        split
        · apply opens_of_keeps
          apply (keeps_lift _).bind
          intro toSkip
          apply (keeps_lift _).bind
          intro currentChunk
          apply Keeps.modify_bind
          · intro _
            rfl
          · exact keeps_pure _
        · next hskip =>
          unfold processChunk
          rw [wp_bind]
          refine wp_mono (readChunk_opens sizes hsize (Nat.lt_of_not_le hskip)) (fun _ hf => hf) ?_
          intro r s' hopens
          have hlog : ∀ {x : FrameRead E H (Flow Unit)}, Keeps Frame.log x →
              x.wp (fun _ => True) (fun _ s' => Opens s s') s' := by
            intro x hx
            refine wp_mono (hx s') (fun _ hf => hf) ?_
            intro _ s'' hsame
            unfold Opens at hopens ⊢
            rw [hsame]
            exact hopens
          cases r with
          | pending => exact hopens
          | err e => exact hopens
          | ok flow =>
            cases flow with
            | go done => exact hlog ((keeps_finishChunk _ done).bind fun _ => keeps_pure _)
            | leave => exact hopens
            | ret => exact hopens

end Turns

end Model

end Zippity
