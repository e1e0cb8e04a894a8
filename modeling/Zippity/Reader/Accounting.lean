import Zippity.Reader.Standing

/-! # Accounting for bytes, whatever the sources do

    The lemmas here assume nothing of the entries: their futures and readers may
    fail or misbehave in any way.  Still every byte is accounted for: what was
    processed of a chunk, what is to be skipped and what is staged add up to the
    bytes appended, and a function that is interrupted appended none.
-/

namespace Zippity

open Framework Async
open Exec (u64Bound addU64 subU64 assert)

section Model
variable {E : EntryData} {H : Crc32Fast}

/-! ### Completed futures -/

/-- The future in the slot has returned `Ready`. -/
def ReaderPinned.Completed : ReaderPinned E H → Prop
  | .readerFuture _ completed => completed = true
  | _ => False

@[simp] theorem not_completed_nothing : ¬ (.nothing : ReaderPinned E H).Completed := fun h => h

@[simp] theorem not_completed_fileReader (reader : CrcReader E H) :
    ¬ (.fileReader reader : ReaderPinned E H).Completed := fun h => h

@[simp] theorem completed_readerFuture (future : E.Future) (completed : Bool) :
    (.readerFuture future completed : ReaderPinned E H).Completed ↔ completed = true := Iff.rfl

/-- A completed future is polled only if it is in the slot from the start. -/
def Polls (slot : ReaderPinned E H) (f : Fault) : Prop :=
  f = .polledAfterCompletion → slot.Completed

/-! ### Header pieces -/

/-- What is staged reaches at least to the position in it. -/
def Settled (rs : ReadState) : Prop :=
  rs.stagingBuffer ≠ [] → rs.toSkip ≤ rs.stagingBuffer.length

/-- `bytes` were appended to the output, and the counters account for them. -/
structure Moves (rs : ReadState) (output : ReadBuf) (bytes : List UInt8) (rs' : ReadState)
    (output' : ReadBuf) : Prop where
  output : output.Extends bytes output'
  chunk : rs'.currentChunk = rs.currentChunk
  position : rs'.position = rs.position
  settled : Settled rs → Settled rs'
  balance : Settled rs →
    rs'.chunkProcessedSize + rs'.toSkip + rs.stagingBuffer.length =
      rs.chunkProcessedSize + rs.toSkip + rs'.stagingBuffer.length + bytes.length

theorem Moves.refl (rs : ReadState) (output : ReadBuf) : Moves rs output [] rs output :=
  ⟨.refl output, rfl, rfl, id, fun _ => by simp⟩

theorem Moves.trans {rs rs' rs'' : ReadState} {output output' output'' : ReadBuf}
    {bytes bytes' : List UInt8} (h : Moves rs output bytes rs' output')
    (h' : Moves rs' output' bytes' rs'' output'') :
    Moves rs output (bytes ++ bytes') rs'' output'' where
  output := h.output.trans h'.output
  chunk := h'.chunk.trans h.chunk
  position := h'.position.trans h.position
  settled hs := h'.settled (h.settled hs)
  balance hs := by
    have hb := h.balance hs
    have hb' := h'.balance (h.settled hs)
    rw [List.length_append]
    omega

/-- A step that returns a state and a buffer `Moves` them. -/
structure MovesTo (rs : ReadState) (output : ReadBuf) (x : Exec (ReadState × ReadBuf)) : Prop where
  wp : x.wp (fun f => f ≠ .polledAfterCompletion) fun (rs', output') =>
    ∃ bytes, Moves rs output bytes rs' output'

/-- Writing a piece polls nothing, so its faults are admissible with any slot. -/
theorem MovesTo.polls {rs : ReadState} {output : ReadBuf} {x : Exec (ReadState × ReadBuf)}
    {slot : ReaderPinned E H} {Q : ReadState × ReadBuf → Prop} (hx : MovesTo rs output x)
    (hQ : ∀ rs' output' bytes, Moves rs output bytes rs' output' → Q (rs', output')) :
    x.wp (Polls slot) Q := by
  refine Exec.wp_mono hx.wp (fun _ hf hpolled => absurd hpolled hf) ?_
  intro (rs', output') ⟨bytes, hmoves⟩
  exact hQ rs' output' bytes hmoves

theorem MovesTo.bind {rs : ReadState} {output : ReadBuf} {x : Exec (ReadState × ReadBuf)}
    {f : ReadState × ReadBuf → Exec (ReadState × ReadBuf)} (hx : MovesTo rs output x)
    (hf : ∀ rs' output', MovesTo rs' output' (f (rs', output'))) :
    MovesTo rs output (x >>= f) := by
  constructor
  rw [Exec.wp_bind]
  refine Exec.wp_mono hx.wp (fun _ h => h) ?_
  rintro ⟨rs', output'⟩ ⟨bytes, hmoves⟩
  refine Exec.wp_mono (hf rs' output').wp (fun _ h => h) ?_
  rintro ⟨rs'', output''⟩ ⟨bytes', hmoves'⟩
  exact ⟨bytes ++ bytes', hmoves.trans hmoves'⟩

/-- A piece is staged behind what is staged already. -/
theorem Moves.stage {rs : ReadState} (output : ReadBuf) {piece : List UInt8}
    (h : rs.stagingBuffer = [] → rs.toSkip ≤ piece.length) :
    Moves rs output [] { rs with
      chunkProcessedSize := rs.chunkProcessedSize + piece.length
      stagingBuffer := rs.stagingBuffer ++ piece } output where
  output := .refl output
  chunk := rfl
  position := rfl
  settled hs _ := by
    show rs.toSkip ≤ (rs.stagingBuffer ++ piece).length
    rw [List.length_append]
    by_cases hempty : rs.stagingBuffer = []
    · have := h hempty
      omega
    · have := hs hempty
      omega
  balance _ := by
    simp only [List.length_append, List.length_nil]
    omega

theorem movesTo_readPiece (rs : ReadState) (piece : List UInt8) (output : ReadBuf) :
    MovesTo rs output (rs.readPiece piece output) := by
  constructor
  unfold ReadState.readPiece
  rw [Exec.wp_bind]
  apply Exec.wp_addU64
  · intro _
    simp
  · intro _
    -- the piece is skipped, written to the output, or staged
    by_cases hempty : rs.stagingBuffer = []
    · rw [if_pos (by simp [hempty])]
      by_cases hall : rs.toSkip ≥ piece.length
      · -- skipped
        rw [if_pos hall, Exec.subU64_eq hall]
        refine ⟨[], .refl _, rfl, rfl, fun _ h => absurd hempty h, fun _ => ?_⟩
        simp only [List.length_nil]
        omega
      · rw [if_neg hall]
        by_cases hdirect : rs.toSkip = 0 ∧ output.remaining ≥ piece.length
        · -- written to the output
          rw [if_pos hdirect, ReadBuf.putSlice_eq hdirect.2]
          refine ⟨piece, .append hdirect.2, rfl, rfl, fun _ h => absurd hempty h, fun _ => ?_⟩
          simp only [hempty]
          omega
        · rw [if_neg hdirect]
          exact ⟨[], .stage output fun _ => by omega⟩
    · rw [if_neg (by simpa using hempty)]
      exact ⟨[], .stage output fun hnil => absurd hnil hempty⟩

theorem movesTo_readPackedStruct {P : Type} [PackedStruct P] (rs : ReadState) (ps : P)
    (output : ReadBuf) : MovesTo rs output (rs.readPackedStruct ps output) :=
  movesTo_readPiece rs (pack ps) output

theorem movesTo_readStr (rs : ReadState) (s : Name) (output : ReadBuf) :
    MovesTo rs output (rs.readStr s output) :=
  movesTo_readPiece rs s output

/-- A length field that does not fit stops the call. -/
theorem movesTo_fileNameLen {rs : ReadState} {output : ReadBuf} {name : Name}
    {f : UInt16 → Exec (ReadState × ReadBuf)} (hf : ∀ nameLen, MovesTo rs output (f nameLen)) :
    MovesTo rs output (fileNameLen name >>= f) := by
  unfold fileNameLen
  split
  · exact hf _
  · constructor
    show Fault.unreachable ≠ .polledAfterCompletion
    simp

theorem movesTo_readLocalHeader (rs : ReadState) (entry : ReaderEntry E) (output : ReadBuf) :
    MovesTo rs output (rs.readLocalHeader entry output) := by
  unfold ReadState.readLocalHeader
  apply movesTo_fileNameLen
  intro nameLen
  dsimp only
  apply (movesTo_readPackedStruct rs _ output).bind
  intro rs' output'
  dsimp only
  apply (movesTo_readStr rs' _ output').bind
  intro rs'' output''
  dsimp only
  exact movesTo_readPackedStruct rs'' _ output''

theorem movesTo_putDataDescriptor (rs : ReadState) (entry : ReaderEntry E) (crc32 : UInt32)
    (output : ReadBuf) : MovesTo rs output (rs.putDataDescriptor entry crc32 output) :=
  movesTo_readPackedStruct rs _ output

theorem movesTo_putCdFileHeader (rs : ReadState) (entry : ReaderEntry E) (crc32 : UInt32)
    (output : ReadBuf) : MovesTo rs output (rs.putCdFileHeader entry crc32 output) := by
  unfold ReadState.putCdFileHeader
  apply movesTo_fileNameLen
  intro nameLen
  dsimp only
  apply (movesTo_readPackedStruct rs _ output).bind
  intro rs' output'
  dsimp only
  apply (movesTo_readStr rs' _ output').bind
  intro rs'' output''
  dsimp only
  exact movesTo_readPackedStruct rs'' _ output''

theorem movesTo_readEocd (rs : ReadState) (sizes : Sizes) (entries : List (ReaderEntry E))
    (output : ReadBuf) : MovesTo rs output (rs.readEocd sizes entries output) := by
  unfold ReadState.readEocd
  apply (movesTo_readPackedStruct rs _ output).bind
  intro rs' output'
  dsimp only
  apply (movesTo_readPackedStruct rs' _ output').bind
  intro rs'' output''
  dsimp only
  exact movesTo_readPackedStruct rs'' _ output''

theorem movesTo_readFromStaging {rs : ReadState} (output : ReadBuf)
    (hempty : rs.stagingBuffer ≠ []) : MovesTo rs output (rs.readFromStaging output) := by
  constructor
  unfold ReadState.readFromStaging
  rw [Exec.wp_bind]
  apply Exec.wp_addU64
  · intro _
    simp
  · intro _
    -- the end of the call, after `bytes` were put to the output
    have hend : ∀ (output' : ReadBuf) (bytes : List UInt8), output.Extends bytes output' →
        (rs.toSkip ≤ rs.stagingBuffer.length → bytes.length =
          min (rs.toSkip + output.remaining) rs.stagingBuffer.length - rs.toSkip) →
        Exec.wp (fun f => f ≠ .polledAfterCompletion)
          (fun (rs', output') => ∃ bytes, Moves rs output bytes rs' output')
          (if decide (rs.toSkip + output.remaining ≥ rs.stagingBuffer.length) = true then
            .ok ({ rs with toSkip := 0, stagingBuffer := [] }, output')
          else .ok ({ rs with
            toSkip := if decide (rs.toSkip + output.remaining ≥ rs.stagingBuffer.length) = true
              then rs.stagingBuffer.length else rs.toSkip + output.remaining }, output')) := by
      intro output' bytes hext hlen
      by_cases hlast : rs.toSkip + output.remaining ≥ rs.stagingBuffer.length
      · rw [if_pos (by simpa using hlast)]
        refine ⟨bytes, hext, rfl, rfl, fun _ h => absurd rfl h, fun hs => ?_⟩
        have := hs hempty
        have := hlen this
        simp only [List.length_nil]
        omega
      · rw [if_neg (by simpa using hlast), if_neg (by simpa using hlast)]
        refine ⟨bytes, hext, rfl, rfl, fun _ _ => ?_, fun hs => ?_⟩
        · show rs.toSkip + output.remaining ≤ rs.stagingBuffer.length
          omega
        · have := hlen (hs hempty)
          simp only
          omega
    by_cases hlt : rs.toSkip < rs.stagingBuffer.length
    · simp only [if_pos hlt]
      rw [Exec.wp_bind]
      refine ReadBuf.wp_putSlice (by simp) fun hfits => ?_
      apply hend _ _ (.append hfits)
      intro _
      rw [List.length_drop, List.length_take]
      -- the slice ends where the output or what is staged does
      by_cases hlast : rs.toSkip + output.remaining ≥ rs.stagingBuffer.length
      · rw [if_pos (decide_eq_true hlast), Nat.min_eq_right hlast, Nat.min_self]
      · rw [if_neg (by simpa using hlast)]
    · simp only [if_neg hlt]
      apply hend _ [] (.refl output)
      intro _
      simp only [List.length_nil]
      omega

/-! ### Functions on one entry -/

/-- `t'` is `t` with another slot; the future in it is completed only if it was, or if the call
    failed. -/
structure Waits {α : Type} (t : EntryFrame E H) (r : PollResult (IoError E) α)
    (t' : EntryFrame E H) : Prop where
  readState : t'.readState = t.readState
  entry : t'.entry = t.entry
  output : t'.output = t.output
  slot : t'.pinned.slot.Completed → t.pinned.slot.Completed ∨ ∃ e, r = .err e

theorem getReader_waits (ctx : E.Context) (t : EntryFrame E H) :
    (getReader ctx).wp (Polls t.pinned.slot) (Waits t) t := by
  -- after the first `if` the slot is not empty
  have hrest : ∀ pinned : Pinned E H, (pinned.slot.Completed → t.pinned.slot.Completed) →
      (pollFuture ctx >>= fun _ => fileReader).wp (Polls t.pinned.slot) (Waits t)
        { t with pinned } := by
    rintro ⟨slot, opened⟩ hslot
    rw [wp_bind]
    unfold pollFuture Async.wp
    cases slot with
    | nothing => show Polls _ _; intro h; cases h
    | fileReader reader => exact ⟨rfl, rfl, rfl, fun h => absurd h (by simp)⟩
    | readerFuture future completed =>
      cases completed with
      | true => exact fun _ => hslot rfl
      | false =>
        dsimp only
        rcases E.poll future ctx with ⟨_ | e | reader, future'⟩
        · exact ⟨rfl, rfl, rfl, fun h => absurd h (by simp [EntryFrame.setSlot])⟩
        · exact ⟨rfl, rfl, rfl, fun _ => .inr ⟨_, rfl⟩⟩
        · exact ⟨rfl, rfl, rfl, fun h => absurd h (by simp [EntryFrame.setSlot])⟩
  unfold getReader openFuture
  rw [wp_bind, wp_get_bind]
  generalize Polls t.pinned.slot = F at hrest ⊢
  cases hs : t.pinned.slot with
  | nothing =>
    exact hrest ⟨.readerFuture (E.getReader t.entry.data) false, t.pinned.opened ++ [t.entry.name]⟩
      (by simp)
  | readerFuture future completed => exact hrest t.pinned id
  | fileReader reader => exact hrest t.pinned id

/-- A call on the file reader only changes the slot. -/
theorem onFileReader_waits {α : Type}
    (call : CrcReader E H → E.Data → PollResult E.Error α × CrcReader E H) (t : EntryFrame E H)
    {F : Fault → Prop} (hF : F .unreachable) :
    (onFileReader call).wp F (fun r t' => (∃ reader, t' = t.setSlot (.fileReader reader)) ∧
      ∀ a, r = .ok a → ∃ reader, (call reader t.entry.data).1 = .ok a) t := by
  cases hs : t.pinned.slot with
  | fileReader reader =>
    rw [onFileReader_wp hs]
    rcases heq : call reader t.entry.data with ⟨_ | e | a, reader'⟩
    · exact ⟨⟨reader', rfl⟩, fun _ h => by cases h⟩
    · exact ⟨⟨reader', rfl⟩, fun _ h => by cases h⟩
    · refine ⟨⟨reader', rfl⟩, fun a' h => ⟨reader, ?_⟩⟩
      cases h
      rw [heq]
  | nothing =>
    unfold onFileReader fileReader
    rw [wp_bind, wp_get_bind, hs]
    exact hF
  | readerFuture future completed =>
    unfold onFileReader fileReader
    rw [wp_bind, wp_get_bind, hs]
    exact hF

/-- The loop of `get_crc` only changes the slot. -/
theorem readToEnd_waits (ctx : E.Context) (fuel : Nat) (t : EntryFrame E H) :
    (readToEnd ctx fuel).wp (fun f => f ≠ .polledAfterCompletion)
      (fun _ t' => ∃ reader, t' = t.setSlot (.fileReader reader)) t := by
  induction fuel generalizing t with
  | zero =>
    show Fault.outOfFuel ≠ .polledAfterCompletion
    simp
  | succ fuel ih =>
    unfold readToEnd
    rw [wp_bind]
    refine wp_mono (onFileReader_waits _ t (by simp)) (fun _ hf => hf) ?_
    rintro r t' ⟨⟨reader, rfl⟩, _⟩
    cases r with
    | ok readBuffer =>
      simp only [andThen]
      split
      · exact ⟨reader, rfl⟩
      · exact ih (t.setSlot (.fileReader reader))
    | err e => exact ⟨reader, rfl⟩
    | pending => exact ⟨reader, rfl⟩

/-- What `get_crc` does when it answers `r`. -/
structure CrcStep (t : EntryFrame E H) (r : PollResult (IoError E) UInt32) (t' : EntryFrame E H) :
    Prop where
  readState : t'.readState = t.readState
  output : t'.output = t.output
  computed : ∀ crc, r = .ok crc → t'.entry = { t.entry with crc32 := some crc }
  interrupted : (∀ crc, r ≠ .ok crc) → t'.entry = t.entry
  slot : t'.pinned.slot.Completed → t.pinned.slot.Completed ∨
    ((∃ e, r = .err e) ∧ t.entry.crc32 = none ∧ t.entry.size ≠ 0)

theorem getCrc_step (ctx : E.Context) (fuel : Nat) (t : EntryFrame E H) :
    (getCrc ctx fuel).wp (Polls t.pinned.slot) (CrcStep t) t := by
  unfold getCrc
  rw [wp_get_bind]
  cases hcrc : t.entry.crc32 with
  | some crc =>
    refine ⟨rfl, rfl, ?_, fun h => absurd rfl (h crc), .inl⟩
    rintro _ ⟨⟩
    rw [← hcrc]
  | none =>
    by_cases hsize : t.entry.size = 0
    · rw [if_pos hsize]
      refine ⟨rfl, rfl, ?_, fun h => absurd rfl (h _), .inl⟩
      rintro _ ⟨⟩
      rfl
    · rw [if_neg hsize, wp_bind]
      refine wp_mono (getReader_waits ctx t) (fun _ hf => hf) ?_
      intro r t₁ hwaits
      -- only a failed open leaves a completed future, and only when a CRC is computed
      have hslot : ∀ (r : PollResult (IoError E) UInt32), (∃ e, r = .err e) →
          t₁.pinned.slot.Completed → t.pinned.slot.Completed ∨
            ((∃ e, r = .err e) ∧ t.entry.crc32 = none ∧ t.entry.size ≠ 0) :=
        fun r hr _ => .inr ⟨hr, hcrc, hsize⟩
      cases r with
      | pending =>
        refine ⟨hwaits.readState, hwaits.output, by simp, fun _ => hwaits.entry, fun h => ?_⟩
        rcases hwaits.slot h with h | ⟨e, he⟩
        · exact .inl h
        · cases he
      | err e =>
        exact ⟨hwaits.readState, hwaits.output, by simp, fun _ => hwaits.entry, hslot _ ⟨e, rfl⟩⟩
      | ok reader =>
        simp only [andThen]
        rw [wp_bind]
        refine wp_mono (readToEnd_waits ctx fuel t₁) (fun _ hf h => absurd h hf) ?_
        rintro r t₂ ⟨reader', rfl⟩
        -- an interrupted read leaves its reader in the slot, and nothing else
        have hkept : ∀ (r : PollResult (IoError E) UInt32), (∀ crc, r ≠ .ok crc) →
            CrcStep t r (t₁.setSlot (.fileReader reader')) := fun r hr =>
          ⟨hwaits.readState, hwaits.output, fun crc h => absurd h (hr crc), fun _ => hwaits.entry,
            fun h => absurd h (by simp [EntryFrame.setSlot])⟩
        cases r with
        | pending => exact hkept _ (by simp)
        | err e => exact hkept _ (by simp)
        | ok _ =>
          simp only [andThen]
          rw [wp_bind, fileReader_wp rfl]
          simp only [andThen]
          cases reader'.getCrc32 with
          | none => show Polls _ _; intro h; cases h
          | some crc32 =>
            refine ⟨hwaits.readState, hwaits.output, ?_, fun h => absurd rfl (h crc32),
              fun h => absurd h (by simp [EntryFrame.setSlot, EntryFrame.setCrc])⟩
            rintro _ ⟨⟩
            show { t₁.entry with crc32 := some crc32 } = _
            rw [hwaits.entry]

/-! ### Entry data -/

/-- What `read_entry_data`, or a part of it, does when it answers `r`. -/
structure DataStep {α : Type} (t : EntryFrame E H) (r : PollResult (IoError E) α)
    (bytes : List UInt8) (t' : EntryFrame E H) : Prop where
  moves : Moves t.readState t.output bytes t'.readState t'.output
  staged : t'.readState.stagingBuffer = t.readState.stagingBuffer
  toSkip : t'.readState.toSkip ≤ t.readState.toSkip
  entry : ∃ crc32, t'.entry = { t.entry with crc32 }
  interrupted : (∀ a, r ≠ .ok a) → bytes = []
  slot : t'.pinned.slot.Completed → t.pinned.slot.Completed ∨ ∃ e, r = .err e

theorem DataStep.refl {α : Type} {t : EntryFrame E H} (r : PollResult (IoError E) α) :
    DataStep t r [] t where
  moves := .refl _ _
  staged := rfl
  toSkip := Nat.le_refl _
  entry := ⟨t.entry.crc32, rfl⟩
  interrupted _ := rfl
  slot := .inl

/-- A part that only touches the counters and leaves a reader in the slot. -/
theorem DataStep.skip {α : Type} {t : EntryFrame E H} {r : PollResult (IoError E) α}
    {slot : ReaderPinned E H} {processed toSkip : Nat} (hslot : ¬ slot.Completed)
    (hle : toSkip ≤ t.readState.toSkip)
    (hsum : processed + toSkip = t.readState.chunkProcessedSize + t.readState.toSkip) :
    DataStep t r [] { t.setSlot slot with
      readState.chunkProcessedSize := processed
      readState.toSkip := toSkip } where
  moves := by
    refine ⟨.refl _, rfl, rfl, fun hs hne => ?_, fun _ => ?_⟩
    · exact Nat.le_trans hle (hs hne)
    · show processed + toSkip + _ = _
      simp only [EntryFrame.setSlot, List.length_nil]
      omega
  staged := rfl
  toSkip := hle
  entry := ⟨t.entry.crc32, rfl⟩
  interrupted _ := rfl
  slot h := absurd h hslot

theorem DataStep.trans {α β : Type} {t t' t'' : EntryFrame E H} {r : PollResult (IoError E) α}
    {r' : PollResult (IoError E) β} {bytes : List UInt8} (h : DataStep t r [] t')
    (h' : DataStep t' r' bytes t'') (hr : ∃ a, r = .ok a) : DataStep t r' bytes t'' where
  moves := h.moves.trans h'.moves
  staged := h'.staged.trans h.staged
  toSkip := Nat.le_trans h'.toSkip h.toSkip
  entry := by
    obtain ⟨crc32, hentry⟩ := h.entry
    obtain ⟨crc32', hentry'⟩ := h'.entry
    exact ⟨crc32', by rw [hentry', hentry]⟩
  interrupted := h'.interrupted
  slot hc := by
    rcases h'.slot hc with hc' | he
    · rcases h.slot hc' with hc'' | ⟨e, he⟩
      · exact .inl hc''
      · obtain ⟨a, ha⟩ := hr
        rw [ha] at he
        cases he
    · exact .inr he

/-- The answer of a call that was interrupted is the answer of the whole. -/
theorem DataStep.interrupt {α β : Type} {t t' : EntryFrame E H} {r : PollResult (IoError E) α}
    {r' : PollResult (IoError E) β} (h : DataStep t r [] t')
    (hr : ∀ e, r = .err e → r' = .err e) : DataStep t r' [] t' where
  moves := h.moves
  staged := h.staged
  toSkip := h.toSkip
  entry := h.entry
  interrupted _ := rfl
  slot hc := by
    rcases h.slot hc with hc | ⟨e, he⟩
    · exact .inl hc
    · exact .inr ⟨e, hr e he⟩

theorem skipByReading_step (ctx : E.Context) (fuel : Nat) (t : EntryFrame E H) :
    (skipByReading ctx fuel).wp (fun f => f ≠ .polledAfterCompletion)
      (fun r t' => DataStep t r [] t') t := by
  -- what is skipped moves from `toSkip` to the bytes processed
  induction fuel generalizing t with
  | zero =>
    show Fault.outOfFuel ≠ .polledAfterCompletion
    simp
  | succ fuel ih =>
    unfold skipByReading
    rw [wp_get_bind]
    by_cases hskip : t.readState.toSkip > 0
    · rw [if_pos hskip]
      show Async.wp (onFileReader _ >>= _) _ _ _
      rw [wp_bind]
      refine wp_mono (onFileReader_waits _ t (by simp)) (fun _ hf => hf) ?_
      rintro r t' ⟨⟨reader, rfl⟩, _⟩
      have hslot : ¬ (.fileReader reader : ReaderPinned E H).Completed := by simp
      cases r with
      | pending => exact .skip hslot (Nat.le_refl _) rfl
      | err e => exact .skip hslot (Nat.le_refl _) rfl
      | ok readBuffer =>
        simp only [andThen]
        rw [wp_bind, wp_lift]
        refine Exec.wp_addU64 (fun _ => by simp) fun _ => ?_
        simp only [andThen]
        rw [wp_bind, wp_lift]
        refine Exec.wp_subU64 (fun _ => by simp) fun hle => ?_
        simp only [andThen]
        rw [wp_modify_bind]
        have hstep : DataStep t (.ok () : PollResult (IoError E) Unit) []
            { t.setSlot (.fileReader reader) with
              readState.chunkProcessedSize :=
                t.readState.chunkProcessedSize + readBuffer.filled.length
              readState.toSkip := t.readState.toSkip - readBuffer.filled.length } :=
          .skip hslot (Nat.sub_le _ _) (by omega)
        split
        · exact hstep
        · refine wp_mono (ih _) (fun _ hf => hf) ?_
          intro r t' h
          exact hstep.trans h ⟨(), rfl⟩
    · rw [if_neg hskip]
      exact .refl _

theorem skipBySeeking_step (ctx : E.Context) (t : EntryFrame E H) :
    (skipBySeeking ctx).wp (fun f => f ≠ .polledAfterCompletion)
      (fun r t' => DataStep t r [] t') t := by
  unfold skipBySeeking
  rw [wp_get_bind, wp_bind]
  refine wp_mono (onFileReader_waits _ t (by simp)) (fun _ hf => hf) ?_
  rintro r t' ⟨⟨reader, rfl⟩, _⟩
  have hslot : ¬ (.fileReader reader : ReaderPinned E H).Completed := by simp
  cases r with
  | pending => exact .skip hslot (Nat.le_refl _) rfl
  | err e => exact .skip hslot (Nat.le_refl _) rfl
  | ok posAfterSeek =>
    simp only [andThen]
    rw [wp_bind, wp_lift]
    refine Exec.wp_assert (fun _ => by simp) fun _ => ?_
    simp only [andThen]
    rw [wp_bind, wp_lift]
    refine Exec.wp_addU64 (fun _ => by simp) fun _ => ?_
    exact .skip hslot (Nat.zero_le _) rfl

theorem skipEntryData_step (ctx : E.Context) (fuel : Nat) (t : EntryFrame E H) :
    (skipEntryData ctx fuel).wp (fun f => f ≠ .polledAfterCompletion)
      (fun r t' => DataStep t r [] t') t := by
  unfold skipEntryData
  rw [wp_get_bind]
  by_cases hskip : t.readState.toSkip > 0
  · rw [if_pos hskip]
    split
    · exact skipByReading_step ctx fuel t
    · exact skipBySeeking_step ctx t
  · rw [if_neg hskip]
    exact .refl _

/-- The end of the entry data only sets the slot and the CRC. -/
theorem finishEntryData_step (t : EntryFrame E H) :
    finishEntryData.wp (fun f => f ≠ .polledAfterCompletion) (fun r t' => DataStep t r [] t') t := by
  have hset : ∀ {r : PollResult (IoError E) Bool} (slot : ReaderPinned E H) (crc32 : Option UInt32),
      (slot.Completed → t.pinned.slot.Completed) →
      DataStep t r [] { t with entry.crc32 := crc32, pinned.slot := slot } := by
    intro r slot crc32 hslot
    exact ⟨.refl _ _, rfl, Nat.le_refl _, ⟨crc32, rfl⟩, fun _ => rfl, fun h => .inl (hslot h)⟩
  -- the checks of the size, with whatever CRC is stored
  have hsize : ∀ crc32 : Option UInt32, Async.wp
      (if t.readState.chunkProcessedSize = t.entry.size then pure true
        else throw (.read (.sizeMismatch t.entry.name t.entry.size t.readState.chunkProcessedSize)))
      (fun f => f ≠ .polledAfterCompletion) (fun r t' => DataStep t r [] t')
      { t with entry.crc32 := crc32, pinned.slot := .nothing } := by
    intro crc32
    split
    · exact hset .nothing crc32 (by simp)
    · exact hset .nothing crc32 (by simp)
  unfold finishEntryData
  rw [wp_get_bind, wp_bind]
  cases hslot : t.pinned.slot with
  | nothing =>
    unfold fileReader
    rw [wp_get_bind, hslot]
    show Fault.unreachable ≠ .polledAfterCompletion
    simp
  | readerFuture future completed =>
    unfold fileReader
    rw [wp_get_bind, hslot]
    show Fault.unreachable ≠ .polledAfterCompletion
    simp
  | fileReader reader =>
    rw [fileReader_wp hslot]
    simp only [andThen]
    cases reader.getCrc32 with
    | none => exact hsize t.entry.crc32
    | some actualCrc =>
      cases t.entry.crc32 with
      | none => exact hsize (some actualCrc)
      | some expectedCrc =>
        by_cases hcrc : expectedCrc = actualCrc
        · simp only [ne_eq, hcrc, not_true_eq_false, if_false]
          exact hsize (some actualCrc)
        · simp only [ne_eq, hcrc, not_false_eq_true, if_true]
          exact .refl _

theorem outputEntryData_step (ctx : E.Context) (t : EntryFrame E H) :
    (outputEntryData ctx).wp (fun f => f ≠ .polledAfterCompletion)
      (fun r t' => ∃ bytes, DataStep t r bytes t') t := by
  unfold outputEntryData
  rw [wp_get_bind, wp_bind]
  refine wp_mono (onFileReader_waits _ t (by simp)) (fun _ hf => hf) ?_
  rintro r t' ⟨⟨reader, rfl⟩, hread⟩
  have hslot : ¬ (.fileReader reader : ReaderPinned E H).Completed := by simp
  cases r with
  | pending => exact ⟨[], .skip hslot (Nat.le_refl _) rfl⟩
  | err e => exact ⟨[], .skip hslot (Nat.le_refl _) rfl⟩
  | ok output =>
    -- whatever the source does, the buffer only grows
    obtain ⟨reader₀, hcall⟩ := hread output rfl
    obtain ⟨bytes, hext⟩ := CrcReader.pollRead_extends hcall
    simp only [andThen]
    rw [wp_modify_bind]
    by_cases hsame : output.remaining = t.output.remaining
    · -- nothing more comes
      have hnil := hext.eq_nil_iff.mpr hsame
      subst hnil
      have heq := hext.eq_of_nil
      subst heq
      rw [if_pos rfl]
      have hstep : DataStep t (.ok () : PollResult (IoError E) Unit) []
          (t.setSlot (.fileReader reader)) := .skip hslot (Nat.le_refl _) rfl
      refine wp_mono (finishEntryData_step (t.setSlot (.fileReader reader))) (fun _ hf => hf) ?_
      intro r t' h
      exact ⟨[], hstep.trans h ⟨(), rfl⟩⟩
    · -- some bytes were output
      have hlen := hext.remaining
      have hwritten : t.output.remaining - output.remaining = bytes.length := by omega
      rw [if_neg hsame]
      simp only [hwritten]
      rw [wp_bind, wp_lift]
      refine Exec.wp_subU64 (fun _ => by simp) fun _ => ?_
      simp only [andThen]
      rw [wp_bind, wp_lift]
      refine Exec.wp_assert (fun _ => by simp) fun _ => ?_
      simp only [andThen]
      rw [wp_bind, wp_lift]
      refine Exec.wp_addU64 (fun _ => by simp) fun _ => ⟨bytes, ?_⟩
      refine ⟨⟨hext, rfl, rfl, id, fun _ => ?_⟩, rfl, Nat.le_refl _, ⟨t.entry.crc32, rfl⟩,
        fun h => absurd rfl (h false), fun h => absurd h hslot⟩
      show t.readState.chunkProcessedSize + bytes.length + t.readState.toSkip + _ = _
      simp only [EntryFrame.setSlot]
      omega

/-- **Reading entry data**, whatever the source does. -/
theorem readEntryData_step (ctx : E.Context) (fuel : Nat) (t : EntryFrame E H) :
    (readEntryData ctx fuel).wp (Polls t.pinned.slot) (fun r t' => ∃ bytes, DataStep t r bytes t')
      t := by
  unfold readEntryData
  rw [wp_bind]
  refine wp_mono (getReader_waits ctx t) (fun _ hf => hf) ?_
  intro r t₁ hwaits
  -- opening moves nothing
  have hopened :
      ∀ r : PollResult (IoError E) (CrcReader E H), Waits t r t₁ → DataStep t r [] t₁ := by
    intro r hwaits
    obtain ⟨hrs, hentry, houtput, hslot⟩ := hwaits
    refine ⟨⟨?_, by rw [hrs], by rw [hrs], by rw [hrs]; exact id, fun _ => ?_⟩, by rw [hrs],
      by rw [hrs], ⟨t.entry.crc32, by rw [hentry]⟩, fun _ => rfl, hslot⟩
    · rw [houtput]
      exact .refl _
    · rw [hrs, List.length_nil]
      omega
  have hopen := hopened r hwaits
  cases r with
  | pending => exact ⟨[], hopen.interrupt (by simp)⟩
  | err e =>
    refine ⟨[], hopen.interrupt ?_⟩
    rintro _ ⟨⟩
    rfl
  | ok reader =>
    simp only [andThen]
    rw [wp_bind]
    refine wp_mono (skipEntryData_step ctx fuel t₁) (fun _ hf h => absurd h hf) ?_
    intro r t₂ hskip
    have hskipped := hopen.trans hskip ⟨reader, rfl⟩
    cases r with
    | pending => exact ⟨[], hskipped.interrupt (by simp)⟩
    | err e =>
      refine ⟨[], hskipped.interrupt ?_⟩
      rintro _ ⟨⟩
      rfl
    | ok _ =>
      simp only [andThen]
      refine wp_mono (outputEntryData_step ctx t₂) (fun _ hf h => absurd h hf) ?_
      rintro r t₃ ⟨bytes, houtput⟩
      exact ⟨bytes, hskipped.trans houtput ⟨(), rfl⟩⟩

end Model

end Zippity
