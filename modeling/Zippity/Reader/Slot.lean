import Zippity.Reader.LoopSpec

/-! # What happens to the slot

    The reader keeps what it waits for in its pinned slot.  Whatever the sources
    do, the slot changes only by a call on the source in it, by `get_reader` on
    an empty slot, and when it is emptied.  A relation that allows these changes
    allows those of every call of the reader.
-/

namespace Zippity

open Framework Async

section Model
variable {E : EntryData} {H : Crc32Fast}

/-- Relations that allow what the reader does to its slot, polled with `ctx`: `R` in general, and
    `S` where a source is pending. -/
structure SlotRelations (ctx : E.Context) (R S : Pinned E H → Pinned E H → Prop) : Prop
    extends ChangeRelations R S where
  opens : ∀ opened name data,
    R ⟨.nothing, opened⟩ ⟨.readerFuture (E.getReader data) false, opened ++ [name]⟩
  empties : ∀ slot opened, R ⟨slot, opened⟩ ⟨.nothing, opened⟩
  polls : ∀ future future' opened, E.poll future ctx = (.pending, future') →
    R ⟨.readerFuture future false, opened⟩ ⟨.readerFuture future' false, opened⟩
  pollsErr : ∀ future e future' opened, E.poll future ctx = (.err e, future') →
    R ⟨.readerFuture future false, opened⟩ ⟨.readerFuture future' true, opened⟩
  pollsOk : ∀ future reader future' opened, E.poll future ctx = (.ok reader, future') →
    R ⟨.readerFuture future false, opened⟩ ⟨.fileReader (.new reader), opened⟩
  pollsPending : ∀ future future' opened, E.poll future ctx = (.pending, future') →
    S ⟨.readerFuture future false, opened⟩ ⟨.readerFuture future' false, opened⟩
  reads : ∀ reader data buf opened,
    R ⟨.fileReader reader, opened⟩ ⟨.fileReader (reader.pollRead data ctx buf).2, opened⟩
  readsPending : ∀ reader data buf reader' opened,
    reader.pollRead data ctx buf = (.pending, reader') →
      S ⟨.fileReader reader, opened⟩ ⟨.fileReader reader', opened⟩
  seeks : ∀ reader data pos opened,
    R ⟨.fileReader reader, opened⟩ ⟨.fileReader (reader.seek data ctx pos).2, opened⟩
  seeksPending : ∀ reader data pos reader' opened,
    reader.seek data ctx pos = (.pending, reader') →
      S ⟨.fileReader reader, opened⟩ ⟨.fileReader reader', opened⟩

namespace SlotRelations

variable {ctx : E.Context} {R S : Pinned E H → Pinned E H → Prop} (h : SlotRelations ctx R S)

/-! ### The functions on one entry -/

/-- The slot of an entry moves by the relations. -/
abbrev EntryMoves {α : Type} (_ : SlotRelations ctx R S) (x : EntryRead E H α) : Prop :=
  Changes EntryFrame.pinned R S x

theorem modify {f : EntryFrame E H → EntryFrame E H} (hf : ∀ t, (f t).pinned = t.pinned) :
    h.EntryMoves (Async.modify f) :=
  h.toChangeRelations.modify fun t => by
    rw [hf]
    exact h.refl _

theorem openFuture : h.EntryMoves openFuture := by
  rintro ⟨rs, entry, ⟨slot, opened⟩, output⟩
  unfold Zippity.openFuture
  rw [wp_get_bind]
  cases slot with
  | nothing => exact ⟨h.opens opened entry.name entry.data, fun heq => by cases heq⟩
  | readerFuture => exact ⟨h.refl _, fun heq => by cases heq⟩
  | fileReader => exact ⟨h.refl _, fun heq => by cases heq⟩

theorem pollFuture : h.EntryMoves (pollFuture ctx) := by
  rintro ⟨rs, entry, ⟨slot, opened⟩, output⟩
  unfold Zippity.pollFuture Async.wp
  dsimp only
  cases slot with
  | nothing => exact ⟨h.refl _, fun heq => by cases heq⟩
  | fileReader => exact ⟨h.refl _, fun heq => by cases heq⟩
  | readerFuture future completed =>
    cases completed with
    | true => trivial
    | false =>
      dsimp only
      rcases hpoll : E.poll future ctx with ⟨_ | e | reader, future'⟩
      · exact ⟨h.polls future future' opened hpoll,
          fun _ => h.pollsPending future future' opened hpoll⟩
      · exact ⟨h.pollsErr future e future' opened hpoll, fun heq => by cases heq⟩
      · exact ⟨h.pollsOk future reader future' opened hpoll, fun heq => by cases heq⟩

theorem fileReader : h.EntryMoves fileReader := by
  refine h.bind h.get fun t => ?_
  cases t.pinned.slot with
  | nothing => exact h.fault _
  | readerFuture => exact h.fault _
  | fileReader reader => exact h.pure _

theorem getReader : h.EntryMoves (getReader ctx) :=
  h.bind h.openFuture fun _ => h.bind h.pollFuture fun _ => h.fileReader

/-- A call on the reader in the slot. -/
theorem onFileReader {α : Type} {call : CrcReader E H → E.Data → PollResult E.Error α × CrcReader E H}
    (hcall : ∀ reader data opened,
      R ⟨.fileReader reader, opened⟩ ⟨.fileReader (call reader data).2, opened⟩)
    (hpending : ∀ reader data reader' opened, call reader data = (.pending, reader') →
      S ⟨.fileReader reader, opened⟩ ⟨.fileReader reader', opened⟩) :
    h.EntryMoves (onFileReader call) := by
  rintro ⟨rs, entry, ⟨slot, opened⟩, output⟩
  cases slot with
  | nothing => trivial
  | readerFuture => trivial
  | fileReader reader =>
    rw [onFileReader_wp rfl]
    have hmoved := hcall reader entry.data opened
    rcases hresult : call reader entry.data with ⟨_ | e | a, reader'⟩
    · rw [hresult] at hmoved
      exact ⟨hmoved, fun _ => hpending reader entry.data reader' opened hresult⟩
    · rw [hresult] at hmoved
      exact ⟨hmoved, fun heq => by cases heq⟩
    · rw [hresult] at hmoved
      exact ⟨hmoved, fun heq => by cases heq⟩

theorem readToEnd (fuel : Nat) : h.EntryMoves (readToEnd ctx fuel) := by
  induction fuel with
  | zero => exact h.fault _
  | succ fuel ih =>
    refine h.bind (h.onFileReader (fun reader data => h.reads reader data _)
      fun reader data => h.readsPending reader data _) fun buf => ?_
    split
    · exact h.pure _
    · exact ih

/-- The slot is emptied. -/
theorem setNothing {f : EntryFrame E H → EntryFrame E H}
    (hf : ∀ t, (f t).pinned = ⟨.nothing, t.pinned.opened⟩) : h.EntryMoves (Async.modify f) :=
  h.toChangeRelations.modify fun t => by
    rw [hf]
    exact h.empties _ _

theorem getCrc (fuel : Nat) : h.EntryMoves (getCrc ctx fuel) := by
  unfold Zippity.getCrc
  refine h.bind h.get fun t => ?_
  cases t.entry.crc32 with
  | some crc => exact h.pure _
  | none =>
    dsimp only
    split
    · exact h.bind (h.modify fun _ => rfl) fun _ => h.pure _
    · refine h.bind h.getReader fun _ => h.bind (h.readToEnd fuel) fun _ =>
        h.bind h.fileReader fun reader => ?_
      cases reader.getCrc32 with
      | none => exact h.fault _
      | some crc => exact h.bind (h.setNothing fun _ => rfl) fun _ => h.pure _

theorem skipByReading (fuel : Nat) : h.EntryMoves (skipByReading ctx fuel) := by
  induction fuel with
  | zero => exact h.fault _
  | succ fuel ih =>
    unfold Zippity.skipByReading
    refine h.bind h.get fun t => ?_
    split
    · refine h.bind (h.onFileReader (fun reader data => h.reads reader data _)
        fun reader data => h.readsPending reader data _) fun buf =>
        h.bind (h.lift _) fun processed => h.bind (h.lift _) fun toSkip =>
        h.bind (h.modify fun _ => rfl) fun _ => ?_
      split
      · exact h.pure _
      · exact ih
    · exact h.pure _

theorem skipEntryData (fuel : Nat) : h.EntryMoves (skipEntryData ctx fuel) := by
  unfold Zippity.skipEntryData
  refine h.bind h.get fun t => ?_
  split
  · split
    · exact h.skipByReading fuel
    · unfold skipBySeeking
      exact h.bind h.get fun _ => h.bind (h.onFileReader (fun reader data => h.seeks reader data _)
        fun reader data => h.seeksPending reader data _) fun pos =>
        h.bind (h.lift _) fun _ => h.bind (h.lift _) fun _ => h.modify fun _ => rfl
  · exact h.pure _

theorem finishEntryData : h.EntryMoves finishEntryData := by
  unfold Zippity.finishEntryData
  refine h.bind h.get fun t => h.bind h.fileReader fun reader => ?_
  have hrest : h.EntryMoves (do
      Async.modify fun s => s.setSlot .nothing
      if t.readState.chunkProcessedSize = t.entry.size then Pure.pure true
      else throw (.read (.sizeMismatch t.entry.name t.entry.size t.readState.chunkProcessedSize))) := by
    refine h.bind (h.setNothing fun _ => rfl) fun _ => ?_
    split
    · exact h.pure _
    · exact h.throw _
  cases reader.getCrc32 with
  | none => exact hrest
  | some actual =>
    cases t.entry.crc32 with
    | none => exact h.bind (h.modify fun _ => rfl) fun _ => hrest
    | some expected =>
      dsimp only
      split
      · exact h.bind (h.throw _) fun _ => hrest
      · exact h.bind (h.modify fun _ => rfl) fun _ => hrest

theorem readEntryData (fuel : Nat) : h.EntryMoves (readEntryData ctx fuel) := by
  refine h.bind h.getReader fun _ => h.bind (h.skipEntryData fuel) fun _ =>
    h.bind h.get fun t => ?_
  refine h.bind (h.onFileReader (fun reader data => h.reads reader data _)
    fun reader data => h.readsPending reader data _) fun output =>
    h.bind (h.modify fun _ => rfl) fun _ => ?_
  split
  · exact h.finishEntryData
  · exact h.bind (h.lift _) fun _ => h.bind (h.lift _) fun _ => h.bind (h.lift _) fun _ =>
      h.bind (h.modify fun _ => rfl) fun _ => h.pure _

theorem writeHeader (write : EntryFrame E H → Exec (ReadState × ReadBuf)) :
    h.EntryMoves (writeHeader write) :=
  h.bind h.get fun _ => h.bind (h.lift _) fun _ => h.modify fun _ => rfl

/-! ### The loop -/

variable {sizes : Sizes} {fuel initialRemaining : Nat}

/-- The slot of a frame moves by the relations. -/
abbrev FrameMoves {α : Type} (_ : SlotRelations ctx R S) (x : FrameRead E H α) : Prop :=
  Changes Frame.pinned R S x

/-- The macro passes `Pending` on from the state that the callee left. -/
theorem zippityReady {α : Type} {x : FrameRead E H α} (hx : h.FrameMoves x) :
    h.FrameMoves (zippityReady initialRemaining x) := by
  intro s
  rw [zippityReady_wp]
  refine wp_mono (hx s) (fun _ hf => hf) ?_
  rintro r s' ⟨hmoved, hpends⟩
  cases r with
  | ok a => exact ⟨hmoved, fun heq => by cases heq⟩
  | err e => exact ⟨hmoved, fun heq => by cases heq⟩
  | pending =>
    dsimp only
    split
    · exact ⟨hmoved, fun _ => hpends rfl⟩
    · exact ⟨hmoved, fun heq => by cases heq⟩

theorem onEntry {α : Type} {i : Nat} {x : EntryRead E H α} (hx : h.EntryMoves x) :
    h.FrameMoves (onEntry i x) := by
  refine hx.zoom ?_ fun _ _ => rfl
  intro s t ht
  obtain ⟨entry, _, hentry⟩ := Exec.bind_eq_ok ht
  cases hentry
  rfl

theorem modifyFrame {f : Frame E H → Frame E H} (hf : ∀ s, (f s).pinned = s.pinned) :
    h.FrameMoves (Async.modify f) :=
  h.toChangeRelations.modify fun s => by
    rw [hf]
    exact h.refl _

/-- Only the chunks of an entry touch the slot. -/
theorem readChunk : h.FrameMoves (readChunk sizes ctx fuel initialRemaining) := by
  unfold Zippity.readChunk
  refine h.bind h.get fun s => ?_
  cases s.readState.currentChunk with
  | localHeader i => exact h.bind (h.onEntry (h.writeHeader _)) fun _ => h.pure _
  | entryData i =>
    dsimp only
    split
    · exact h.bind (h.lift _) fun _ => h.pure _
    · exact h.zippityReady (h.onEntry (h.readEntryData fuel))
  | dataDescriptor i =>
    exact h.zippityReady (h.onEntry (h.bind (h.getCrc fuel) fun _ =>
      h.bind (h.writeHeader _) fun _ => h.pure _))
  | cdFileHeader i =>
    exact h.zippityReady (h.onEntry (h.bind (h.getCrc fuel) fun _ =>
      h.bind (h.writeHeader _) fun _ => h.pure _))
  | eocd => exact h.bind (h.lift _) fun _ => h.bind (h.modifyFrame fun _ => rfl) fun _ => h.pure _
  | finished => exact h.fault _

theorem readIteration : h.FrameMoves (readIteration sizes ctx fuel initialRemaining) := by
  unfold Zippity.readIteration
  refine h.bind h.get fun s => ?_
  split
  · exact h.bind (h.lift _) fun _ => h.bind (h.modifyFrame fun _ => rfl) fun _ => h.pure _
  · split
    · exact h.pure _
    · refine h.bind (h.lift _) fun size => ?_
      split
      · exact h.bind (h.lift _) fun _ => h.bind (h.lift _) fun _ =>
          h.bind (h.modifyFrame fun _ => rfl) fun _ => h.pure _
      · refine h.bind h.readChunk fun flow => ?_
        cases flow with
        | go done =>
          refine h.bind ?_ fun _ => h.pure _
          unfold finishChunk
          split
          · exact h.bind h.get fun _ => h.bind (h.lift _) fun _ => h.bind (h.lift _) fun _ =>
              h.modifyFrame fun _ => rfl
          · exact h.pure _
        | leave => exact h.pure _
        | ret => exact h.pure _

theorem readLoop : h.FrameMoves (readLoop sizes ctx initialRemaining fuel) := by
  induction fuel with
  | zero => exact h.fault _
  | succ fuel ih =>
    unfold Zippity.readLoop
    refine h.bind h.get fun s => ?_
    split
    · refine h.bind h.readIteration fun flow => ?_
      cases flow with
      | go => exact ih
      | leave => exact h.pure _
      | ret => exact h.pure _
    · exact h.pure _

theorem read : h.FrameMoves (read sizes ctx fuel) := by
  unfold Zippity.read
  refine h.bind h.get fun s => h.bind h.readLoop fun flow => ?_
  have hcount : h.FrameMoves (do
      let s' ← Async.get
      let written ← Async.lift (Exec.subU64 s.output.remaining s'.output.remaining)
      let position ← Async.lift (Exec.addU64 s'.readState.position written)
      Async.modify fun s => { s with readState.position := position }) :=
    h.bind h.get fun _ => h.bind (h.lift _) fun _ => h.bind (h.lift _) fun _ =>
      h.modifyFrame fun _ => rfl
  cases flow with
  | go => exact hcount
  | leave => exact hcount
  | ret => exact h.pure _

/-- **A `poll_read`** moves the slot by the relations. -/
theorem pollRead (h : SlotRelations ctx R S) {r r' : Reader E H} {buf buf' : ReadBuf}
    {answer : PollResult (IoError E) Unit}
    (hpoll : r.pollRead ctx fuel buf = .ok (answer, r', buf')) :
    R r.pinned r'.pinned ∧ (answer = .pending → S r.pinned r'.pinned) := by
  obtain ⟨⟨answer', s'⟩, hread, hresult⟩ := Exec.bind_eq_ok hpoll
  cases hresult
  have hmoves := Exec.wp_of_eq_ok (h.read _) hread
  exact hmoves

end SlotRelations

end Model

end Zippity
