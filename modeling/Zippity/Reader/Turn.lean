import Zippity.Reader.Accounting
import Zippity.Reader.LoopSpec

/-! # Turns of the loop

    The bookkeeping of a whole frame: `Placed` is its place in the archive, and
    `Turn` is what a turn of the loop does to it, whatever the sources do.

    A turn may compute a CRC; `Frame.crcAnswer` is what this computation
    answers.  It is the only part of a turn that may be interrupted after the
    call appended bytes.
-/

namespace Zippity

open Framework Async
open Exec (u64Bound addU64 subU64 assert)

section Model
variable {E : EntryData} {H : Crc32Fast}

/-! ### The place of a frame -/

/-- The read state is at place `p` of the archive: the bytes before `p` are those of the chunks
    before the current one, what was processed of it and what is to be skipped, less what is
    staged. -/
structure Placed (a : Archive) (entries : List (ReaderEntry E)) (rs : ReadState) (p : Nat) :
    Prop where
  listed : Listed a.members entries
  located : rs.currentChunk.Located a.members.length
  settled : Settled rs
  balance : p + rs.stagingBuffer.length =
    chunkStart a.members rs.currentChunk + rs.chunkProcessedSize + rs.toSkip

section Place
variable {a : Archive} {entries : List (ReaderEntry E)} {rs : ReadState} {p : Nat}

/-- Only the CRC of an entry was set. -/
theorem Listed.set {ms : List Member} (h : Listed ms entries)
    {i : Nat} {entry : ReaderEntry E} (hentry : entries[i]? = some entry) (crc32 : Option UInt32) :
    Listed ms (entries.set i { entry with crc32 }) where
  length := by rw [List.length_set, h.length]
  describes j entry' m hj hm := by
    by_cases hij : i = j
    · subst hij
      rw [List.getElem?_set_self (List.getElem?_eq_some_iff.mp hentry).1] at hj
      cases hj
      have := h.describes i entry m hentry hm
      exact ⟨this.name, this.datetime, this.externalAttributes, this.offset, this.size⟩
    · rw [List.getElem?_set_ne hij] at hj
      exact h.describes j entry' m hj hm

theorem Placed.moves (h : Placed a entries rs p) {entries' : List (ReaderEntry E)}
    {rs' : ReadState} {output output' : ReadBuf} {bytes : List UInt8}
    (hmoves : Moves rs output bytes rs' output') (hlisted : Listed a.members entries') :
    Placed a entries' rs' (p + bytes.length) where
  listed := hlisted
  located := by
    rw [hmoves.chunk]
    exact h.located
  settled := hmoves.settled h.settled
  balance := by
    have hbalance := hmoves.balance h.settled
    have hat := h.balance
    rw [hmoves.chunk]
    omega

/-- A chunk that is done ends where the next one starts. -/
theorem Placed.finish (h : Placed a entries rs p) {c : Chunk} (hfin : rs.currentChunk ≠ .finished)
    (hsize : rs.currentChunk.size entries = .ok rs.chunkProcessedSize)
    (hnext : rs.currentChunk.next entries = .ok c) :
    Placed a entries { rs with currentChunk := c, chunkProcessedSize := 0 } p := by
  rw [chunkNext_eq h.listed.length hfin] at hnext
  rw [chunkSize_eq (H := crc32Ieee) h.listed h.located hfin] at hsize
  cases hnext
  refine ⟨h.listed, Chunk.succ_located h.located, h.settled, ?_⟩
  have hstart := chunkStart_succ (H := crc32Ieee) h.located hfin
  have hat := h.balance
  have hprocessed := Except.ok.inj hsize
  show p + rs.stagingBuffer.length =
    chunkStart a.members (rs.currentChunk.succ a.members.length) + 0 + rs.toSkip
  omega

/-- A chunk that is skipped by its size. -/
theorem Placed.skip (h : Placed a entries rs p) {c : Chunk} {size : Nat}
    (hfin : rs.currentChunk ≠ .finished) (hempty : rs.stagingBuffer = [])
    (hsize : rs.currentChunk.size entries = .ok size) (hle : size ≤ rs.toSkip)
    (hnext : rs.currentChunk.next entries = .ok c) :
    Placed a entries { rs with toSkip := rs.toSkip - size, currentChunk := c } p := by
  rw [chunkNext_eq h.listed.length hfin] at hnext
  rw [chunkSize_eq (H := crc32Ieee) h.listed h.located hfin] at hsize
  cases hnext
  refine ⟨h.listed, Chunk.succ_located h.located, fun hne => absurd hempty hne, ?_⟩
  have hstart := chunkStart_succ (H := crc32Ieee) h.located hfin
  have hat := h.balance
  have hsize' := Except.ok.inj hsize
  show p + rs.stagingBuffer.length = chunkStart a.members
    (rs.currentChunk.succ a.members.length) + rs.chunkProcessedSize + (rs.toSkip - size)
  omega

end Place

/-! ### Turns of the loop -/

/-- The entry whose CRC a turn needs: that of a chunk that carries a CRC, unless bytes are staged
    or the chunk is skipped. -/
def Frame.crcEntry (s : Frame E H) : Option Nat :=
  match s.readState.currentChunk with
  | .dataDescriptor i | .cdFileHeader i =>
    match s.readState.currentChunk.size s.entries with
    | .ok size =>
      if s.readState.stagingBuffer = [] ∧ s.readState.toSkip < size then some i else none
    | .error _ => none
  | _ => none

/-- What the computation of this CRC answers. -/
def Frame.crcAnswer (s : Frame E H) (ctx : E.Context) (fuel : Nat) :
    Option (PollResult (IoError E) UInt32) := do
  let i ← s.crcEntry
  match onEntry i (getCrc ctx fuel) s with
  | .ok (answer, _) => some answer
  | .error _ => none

/-- The answer interrupts a call. -/
def Interrupts {α : Type} : PollResult (IoError E) α → Prop
  | .ok _ => False
  | _ => True

/-- The answers of a turn that appended `bytes`, with what they say about the CRC it computed. -/
inductive TurnAnswer (ctx : E.Context) (fuel initialRemaining : Nat) (s : Frame E H)
    (bytes : List UInt8) : PollResult (IoError E) (Flow Unit) → Prop where
  | go (hcrc : ∀ r, s.crcAnswer ctx fuel = some r → ¬ Interrupts r) :
    TurnAnswer ctx fuel initialRemaining s bytes (.ok (.go ()))
  | leave (hnil : bytes = []) (hcrc : s.crcAnswer ctx fuel = none) :
    TurnAnswer ctx fuel initialRemaining s bytes (.ok .leave)
  | ret (hnil : bytes = []) (hcrc : s.crcAnswer ctx fuel = some .pending)
    (hwritten : s.output.remaining ≠ initialRemaining) :
    TurnAnswer ctx fuel initialRemaining s bytes (.ok .ret)
  | pending (hnil : bytes = []) (hunwritten : s.output.remaining = initialRemaining) :
    TurnAnswer ctx fuel initialRemaining s bytes .pending
  | dataErr (e : IoError E) (hnil : bytes = []) (hcrc : s.crcAnswer ctx fuel = none)
    (hunwritten : s.output.remaining = initialRemaining) :
    TurnAnswer ctx fuel initialRemaining s bytes (.err e)
  | crcErr (e : IoError E) (hnil : bytes = []) (hcrc : s.crcAnswer ctx fuel = some (.err e)) :
    TurnAnswer ctx fuel initialRemaining s bytes (.err e)

/-- The next turn needs the reader of an entry: the current chunk is its data, or carries its CRC,
    which is not known. -/
def NeedsReader (rs : ReadState) (entries : List (ReaderEntry E)) : Prop :=
  rs.stagingBuffer = [] ∧ ∃ (i : Nat) (entry : ReaderEntry E) (size : Nat),
    entries[i]? = some entry ∧ rs.currentChunk.size entries = .ok size ∧ rs.toSkip < size ∧
      (rs.currentChunk = .entryData i ∨
        ((rs.currentChunk = .dataDescriptor i ∨ rs.currentChunk = .cdFileHeader i) ∧
          entry.crc32 = none ∧ entry.size ≠ 0))

/-- `bytes` were appended, and the frame accounts for them. -/
structure Moved (s : Frame E H) (bytes : List UInt8) (s' : Frame E H) : Prop where
  output : s.output.Extends bytes s'.output
  position : s'.readState.position = s.readState.position
  placed : ∀ a p, Placed a s.entries s.readState p →
    Placed a s'.entries s'.readState (p + bytes.length)

theorem Moved.refl (s : Frame E H) : Moved s [] s :=
  ⟨.refl _, rfl, fun _ _ h => h⟩

theorem Moved.trans {s s' s'' : Frame E H} {bytes bytes' : List UInt8} (h : Moved s bytes s')
    (h' : Moved s' bytes' s'') : Moved s (bytes ++ bytes') s'' where
  output := h.output.trans h'.output
  position := h'.position.trans h.position
  placed a p hp := by
    rw [List.length_append, ← Nat.add_assoc]
    exact h'.placed a _ (h.placed a p hp)

/-- What a turn does. -/
structure Turn (ctx : E.Context) (fuel initialRemaining : Nat) (s : Frame E H)
    (bytes : List UInt8) (r : PollResult (IoError E) (Flow Unit)) (s' : Frame E H) : Prop where
  moved : Moved s bytes s'
  answer : TurnAnswer ctx fuel initialRemaining s bytes r
  slot : s'.pinned.slot.Completed → s.pinned.slot.Completed ∨
    ((∃ e, r = .err e) ∧ NeedsReader s'.readState s'.entries)

/-! ### The CRC of a turn -/

section CrcAnswer
variable {s : Frame E H} {ctx : E.Context} {fuel size i : Nat}

theorem crcAnswer_of_entry (h : s.crcEntry = none) : s.crcAnswer ctx fuel = none := by
  unfold Frame.crcAnswer
  rw [h]
  rfl

theorem crcEntry_of_staged (h : s.readState.stagingBuffer ≠ []) : s.crcEntry = none := by
  unfold Frame.crcEntry
  simp only [h, false_and, if_false]
  split
  · split <;> rfl
  · split <;> rfl
  · rfl

theorem crcEntry_of_skipped (hsize : s.readState.currentChunk.size s.entries = .ok size)
    (h : size ≤ s.readState.toSkip) : s.crcEntry = none := by
  have hnot : ¬ s.readState.toSkip < size := by omega
  unfold Frame.crcEntry
  simp only [hsize, hnot, and_false, if_false]
  split <;> rfl

theorem crcEntry_of_chunk (hdd : ∀ i, s.readState.currentChunk ≠ .dataDescriptor i)
    (hcd : ∀ i, s.readState.currentChunk ≠ .cdFileHeader i) : s.crcEntry = none := by
  unfold Frame.crcEntry
  split
  · next i heq => exact absurd heq (hdd i)
  · next i heq => exact absurd heq (hcd i)
  · rfl

theorem crcEntry_eq (hchunk : s.readState.currentChunk = .dataDescriptor i ∨
      s.readState.currentChunk = .cdFileHeader i)
    (hempty : s.readState.stagingBuffer = [])
    (hsize : s.readState.currentChunk.size s.entries = .ok size)
    (hskip : s.readState.toSkip < size) : s.crcEntry = some i := by
  unfold Frame.crcEntry
  simp only [hsize, hempty, hskip, and_self, if_true]
  rcases hchunk with h | h <;> rw [h]

theorem crcAnswer_eq {r : PollResult (IoError E) UInt32} {s' : Frame E H}
    (hentry : s.crcEntry = some i) (hrun : onEntry i (getCrc ctx fuel) s = .ok (r, s')) :
    s.crcAnswer ctx fuel = some r := by
  unfold Frame.crcAnswer
  rw [hentry]
  show (match onEntry i (getCrc ctx fuel) s with
    | .ok (answer, _) => some answer
    | .error _ => none) = some r
  rw [hrun]

end CrcAnswer

/-! ### What a turn does -/

section Turns
variable {s : Frame E H} {ctx : E.Context} {fuel initialRemaining size i : Nat}

/-- A call with an entry that stops with no fault finds the entry. -/
theorem onEntry_entry {α : Type} {x : EntryRead E H α} {F : Fault → Prop}
    {Q : PollResult (IoError E) α → Frame E H → Prop} (hF : F .indexOutOfBounds)
    (h : ∀ entry, s.entries[i]? = some entry → (onEntry i x).wp F Q s) :
    (onEntry i x).wp F Q s := by
  cases hentry : s.entries[i]? with
  | some entry => exact h entry hentry
  | none =>
    unfold onEntry
    rw [wp_zoom, Frame.borrow]
    unfold entryAt
    rw [hentry]
    exact hF

/-- What a function on an entry moves, the frame moves. -/
theorem Moves.restore {t' : EntryFrame E H} {entry : ReaderEntry E} {bytes : List UInt8}
    (hentry : s.entries[i]? = some entry)
    (hmoves : Moves s.readState s.output bytes t'.readState t'.output)
    (hset : ∃ crc32, t'.entry = { entry with crc32 }) : Moved s bytes (Frame.restore i t' s) where
  output := hmoves.output
  position := hmoves.position
  placed a p hp := by
    obtain ⟨crc32, hset⟩ := hset
    unfold Frame.restore
    rw [hset]
    exact hp.moves hmoves (hp.listed.set hentry crc32)

/-- The sizes and the order of the chunks poll nothing. -/
theorem chunkSize_ne {entries : List (ReaderEntry E)} {c : Chunk} {f : Fault}
    (h : c.size entries = .error f) : f ≠ .polledAfterCompletion := by
  have hat : ∀ (j : Nat) (g : ReaderEntry E → Exec Nat),
      (∀ entry, (g entry).wp (fun f => f ≠ .polledAfterCompletion) fun _ => True) →
      (entryAt entries j >>= g).wp (fun f => f ≠ .polledAfterCompletion) fun _ => True := by
    intro j g hg
    unfold entryAt
    cases entries[j]? with
    | some entry => exact hg entry
    | none => show Fault.indexOutOfBounds ≠ .polledAfterCompletion; simp
  have hadd : ∀ a b c : Nat, (addU64 a b >>= fun n => addU64 n c).wp
      (fun f => f ≠ .polledAfterCompletion) fun _ => True := by
    intro a b c
    rw [Exec.wp_bind]
    refine Exec.wp_addU64 (fun _ => by simp) fun _ => ?_
    exact Exec.wp_addU64 (fun _ => by simp) fun _ => trivial
  have hwp : (c.size entries).wp (fun f => f ≠ .polledAfterCompletion) fun _ => True := by
    cases c with
    | localHeader j => exact hat j _ fun entry => hadd _ _ _
    | entryData j => exact hat j _ fun entry => trivial
    | dataDescriptor j => trivial
    | cdFileHeader j => exact hat j _ fun entry => hadd _ _ _
    | eocd => exact hadd _ _ _
    | finished => show Fault.unreachable ≠ .polledAfterCompletion; simp
  rw [h] at hwp
  exact hwp

theorem chunkNext_ne {entries : List (ReaderEntry E)} {c : Chunk} {f : Fault}
    (h : c.next entries = .error f) : f ≠ .polledAfterCompletion := by
  cases c with
  | finished => cases h; simp
  | dataDescriptor j => simp only [Chunk.next] at h; split at h <;> cases h
  | cdFileHeader j => simp only [Chunk.next] at h; split at h <;> cases h
  | _ => cases h

/-- The end of a turn moves no bytes. -/
theorem finishChunk_moved {done : Bool} (hfin : s.readState.currentChunk ≠ .finished)
    (hsize : s.readState.currentChunk.size s.entries = .ok size) :
    (finishChunk size done).wp (fun f => f ≠ .polledAfterCompletion)
      (fun r s' => r = .ok () ∧ Moved s [] s' ∧ s'.pinned = s.pinned) s := by
  unfold finishChunk
  cases done with
  | false => exact ⟨rfl, .refl s, rfl⟩
  | true =>
    rw [if_pos rfl, wp_get_bind, wp_bind, wp_lift]
    refine Exec.wp_assert (fun _ => by simp) fun hprocessed => ?_
    simp only [andThen]
    rw [wp_bind, wp_lift]
    cases hnext : s.readState.currentChunk.next s.entries with
    | error f => exact chunkNext_ne hnext
    | ok c =>
      refine ⟨rfl, ⟨.refl _, rfl, fun a p hp => ?_⟩, rfl⟩
      exact hp.finish hfin (by rw [hsize, hprocessed]) hnext

/-- The chunk sizes do not depend on the CRCs. -/
theorem chunkSize_set {entries : List (ReaderEntry E)} {entry : ReaderEntry E}
    (hentry : entries[i]? = some entry) (crc32 : Option UInt32) (c : Chunk) :
    c.size (entries.set i { entry with crc32 }) = c.size entries := by
  have hat : ∀ j, ∃ crc : ReaderEntry E → Option UInt32,
      entryAt (entries.set i { entry with crc32 }) j =
        (entryAt entries j).map fun e => { e with crc32 := crc e } := by
    intro j
    unfold entryAt
    by_cases hij : i = j
    · subst hij
      rw [List.getElem?_set_self (List.getElem?_eq_some_iff.mp hentry).1, hentry]
      exact ⟨fun _ => crc32, rfl⟩
    · rw [List.getElem?_set_ne hij]
      refine ⟨fun e => e.crc32, ?_⟩
      cases entries[j]? <;> rfl
  cases c with
  | localHeader j =>
    obtain ⟨crc, h⟩ := hat j
    simp only [Chunk.size, h]
    cases entryAt entries j <;> rfl
  | entryData j =>
    obtain ⟨crc, h⟩ := hat j
    simp only [Chunk.size, h]
    cases entryAt entries j <;> rfl
  | cdFileHeader j =>
    obtain ⟨crc, h⟩ := hat j
    simp only [Chunk.size, h]
    cases entryAt entries j <;> rfl
  | dataDescriptor j => rfl
  | eocd => rfl
  | finished => rfl

/-- A turn that went on to the end of the chunk, or not. -/
theorem finish_turn {s₁ : Frame E H} {bytes : List UInt8} {done : Bool} (hmoved : Moved s bytes s₁)
    (hfin : s₁.readState.currentChunk ≠ .finished)
    (hsize : s₁.readState.currentChunk.size s₁.entries = .ok size)
    (hcrc : ∀ r, s.crcAnswer ctx fuel = some r → ¬ Interrupts r)
    (hslot : s₁.pinned.slot.Completed → s.pinned.slot.Completed) :
    (finishChunk size done >>= fun _ => pure (.go ())).wp (Polls s.pinned.slot)
      (fun r s' => ∃ bytes, Turn ctx fuel initialRemaining s bytes r s') s₁ := by
  rw [wp_bind]
  refine wp_mono (finishChunk_moved hfin hsize) (fun f hf h => absurd h hf) ?_
  rintro _ s' ⟨rfl, hmoved', hpinned⟩
  refine ⟨bytes ++ [], hmoved.trans hmoved', .go hcrc, fun hc => .inl (hslot ?_)⟩
  rw [← hpinned]
  exact hc

/-- A turn at a chunk that carries a CRC. -/
theorem processCrc_turn {write : UInt32 → EntryFrame E H → Exec (ReadState × ReadBuf)}
    (hchunk : s.readState.currentChunk = .dataDescriptor i ∨
      s.readState.currentChunk = .cdFileHeader i)
    (hempty : s.readState.stagingBuffer = [])
    (hsize : s.readState.currentChunk.size s.entries = .ok size) (hskip : s.readState.toSkip < size)
    (hwrite : ∀ crc t, MovesTo t.readState t.output (write crc t)) :
    (zippityReady initialRemaining (onEntry i (do
        let crc32 ← getCrc ctx fuel
        writeHeader (write crc32)
        pure true)) >>= fun flow => match flow with
      | .go chunkDone => do
        finishChunk size chunkDone
        pure (.go ())
      | .leave => pure .leave
      | .ret => pure .ret).wp (Polls s.pinned.slot)
      (fun r s' => ∃ bytes, Turn ctx fuel initialRemaining s bytes r s') s := by
  rw [wp_bind, zippityReady_wp]
  refine onEntry_entry (fun h => by cases h) fun entry hentry => ?_
  rw [onEntry_wp hentry, wp_bind]
  refine wp_run (wp_mono (getCrc_step ctx fuel _) (fun _ hf => hf) ?_)
  intro r t' hstep hrun
  -- the CRC that this turn computes is the answer of `crcAnswer`
  have hanswer : onEntry i (getCrc ctx fuel) s = .ok (r, Frame.restore i t' s) := by
    unfold onEntry zoom Frame.borrow
    rw [entryAt_eq hentry]
    show (getCrc ctx fuel ⟨s.readState, entry, s.pinned, s.output⟩ >>= _) = _
    rw [hrun]
    rfl
  have hcrc : s.crcAnswer ctx fuel = some r :=
    crcAnswer_eq (crcEntry_eq hchunk hempty hsize hskip) hanswer
  -- without a CRC nothing is written
  have hstays : (∀ crc, r ≠ .ok crc) → Moved s [] (Frame.restore i t' s) := by
    intro hr
    refine Moves.restore hentry ?_ ⟨entry.crc32, hstep.interrupted hr⟩
    rw [hstep.readState, hstep.output]
    exact .refl _ _
  cases r with
  | pending =>
    have hmoved := hstays (by simp)
    have houtput : (Frame.restore i t' s).output = s.output := hstep.output
    have hslot : (Frame.restore i t' s).pinned.slot.Completed → s.pinned.slot.Completed := by
      intro hc
      rcases hstep.slot hc with hc | ⟨⟨e, he⟩, _⟩
      · exact hc
      · cases he
    show if (Frame.restore i t' s).output.remaining = initialRemaining then _ else _
    rw [houtput]
    split
    · next hunwritten => exact ⟨[], hmoved, .pending rfl hunwritten, fun hc => .inl (hslot hc)⟩
    · next hwritten => exact ⟨[], hmoved, .ret rfl hcrc hwritten, fun hc => .inl (hslot hc)⟩
  | err e =>
    have hmoved := hstays (by simp)
    refine ⟨[], hmoved, .crcErr e rfl hcrc, fun hc => ?_⟩
    rcases hstep.slot hc with hc | ⟨_, hnone, hne⟩
    · exact .inl hc
    · refine .inr ⟨⟨e, rfl⟩, ?_⟩
      have hentry' : t'.entry = entry := hstep.interrupted (by simp)
      have hrs : t'.readState = s.readState := hstep.readState
      show NeedsReader t'.readState (s.entries.set i t'.entry)
      rw [hentry', hrs, set_of_getElem? hentry]
      exact ⟨hempty, i, entry, size, hentry, hsize, hskip, .inr ⟨hchunk, hnone, hne⟩⟩
  | ok crc =>
    simp only [andThen]
    rw [wp_bind, writeHeader_wp]
    apply (hwrite crc t').polls
    intro rs output bytes hmoves
    rw [hstep.readState, hstep.output] at hmoves
    have hset := hstep.computed crc rfl
    have hmoved : Moved s bytes (Frame.restore i { t' with readState := rs, output } s) :=
      Moves.restore hentry hmoves ⟨some crc, hset⟩
    simp only [andThen, wp_pure]
    have hchunk' : rs.currentChunk = s.readState.currentChunk := hmoves.chunk
    apply finish_turn hmoved
    · show rs.currentChunk ≠ _
      rw [hchunk']
      rcases hchunk with h | h <;> simp [h]
    · show rs.currentChunk.size (s.entries.set i t'.entry) = _
      rw [hchunk', hset, chunkSize_set hentry]
      exact hsize
    · rw [hcrc]
      rintro _ ⟨⟩ h
      exact h
    · intro hc
      rcases hstep.slot hc with hc | ⟨⟨e, he⟩, _⟩
      · exact hc
      · cases he

/-- A turn at a local header. -/
theorem processLocalHeader_turn {sizes : Sizes} (hchunk : s.readState.currentChunk = .localHeader i)
    (hsize : s.readState.currentChunk.size s.entries = .ok size) :
    (processChunk sizes ctx fuel initialRemaining size).wp (Polls s.pinned.slot)
      (fun r s' => ∃ bytes, Turn ctx fuel initialRemaining s bytes r s') s := by
  unfold processChunk readChunk
  rw [wp_bind, wp_get_bind, hchunk]
  show Async.wp (onEntry i _ >>= _) _ _ _
  rw [wp_bind]
  refine onEntry_entry (fun h => by cases h) fun entry hentry => ?_
  rw [onEntry_wp hentry, writeHeader_wp]
  apply (movesTo_readLocalHeader s.readState entry s.output).polls
  intro rs output bytes hmoves
  have hmoved : Moved s bytes (Frame.restore i ⟨rs, entry, s.pinned, output⟩ s) :=
    Moves.restore hentry hmoves ⟨entry.crc32, rfl⟩
  have hchunk' : rs.currentChunk = s.readState.currentChunk := hmoves.chunk
  simp only [andThen, wp_pure]
  apply finish_turn hmoved
  · show rs.currentChunk ≠ _
    simp [hchunk', hchunk]
  · show rs.currentChunk.size (s.entries.set i entry) = _
    rw [hchunk', set_of_getElem? hentry]
    exact hsize
  · rw [crcAnswer_of_entry (crcEntry_of_chunk (by simp [hchunk]) (by simp [hchunk]))]
    rintro _ ⟨⟩
  · exact id

/-- A turn at the end of the archive. -/
theorem processEocd_turn {sizes : Sizes} (hchunk : s.readState.currentChunk = .eocd)
    (hsize : s.readState.currentChunk.size s.entries = .ok size) :
    (processChunk sizes ctx fuel initialRemaining size).wp (Polls s.pinned.slot)
      (fun r s' => ∃ bytes, Turn ctx fuel initialRemaining s bytes r s') s := by
  unfold processChunk readChunk
  rw [wp_bind, wp_get_bind, hchunk]
  simp only
  rw [wp_bind, wp_lift]
  -- that it moves is all that counts, so the three headers are not unfolded
  have hwrite := movesTo_readEocd s.readState sizes s.entries s.output
  generalize s.readState.readEocd sizes s.entries s.output = write at hwrite ⊢
  apply hwrite.polls
  intro rs output bytes hmoves
  have hmoved : Moved s bytes ⟨rs, s.entries, s.pinned, output⟩ :=
    ⟨hmoves.output, hmoves.position, fun a p hp => hp.moves hmoves hp.listed⟩
  have hchunk' : rs.currentChunk = s.readState.currentChunk := hmoves.chunk
  apply finish_turn hmoved
  · show rs.currentChunk ≠ _
    simp [hchunk', hchunk]
  · show rs.currentChunk.size s.entries = _
    rw [hchunk']
    exact hsize
  · rw [crcAnswer_of_entry (crcEntry_of_chunk (by simp [hchunk]) (by simp [hchunk]))]
    rintro _ ⟨⟩
  · exact id

/-- A turn at entry data. -/
theorem processEntryData_turn {sizes : Sizes} (hchunk : s.readState.currentChunk = .entryData i)
    (hempty : s.readState.stagingBuffer = [])
    (hsize : s.readState.currentChunk.size s.entries = .ok size)
    (hskip : s.readState.toSkip < size) :
    (processChunk sizes ctx fuel initialRemaining size).wp (Polls s.pinned.slot)
      (fun r s' => ∃ bytes, Turn ctx fuel initialRemaining s bytes r s') s := by
  have hcrc : s.crcAnswer ctx fuel = none :=
    crcAnswer_of_entry (crcEntry_of_chunk (by simp [hchunk]) (by simp [hchunk]))
  unfold processChunk readChunk
  rw [wp_bind, wp_get_bind, hchunk]
  simp only
  -- entry data is read only while the call has not written anything
  by_cases hwritten : s.output.remaining = initialRemaining
  · rw [if_neg (by simpa using hwritten), zippityReady_wp]
    refine onEntry_entry (fun h => by cases h) fun entry hentry => ?_
    rw [onEntry_wp hentry]
    refine wp_mono (readEntryData_step ctx fuel _) (fun _ hf => hf) ?_
    rintro r t' ⟨bytes, hstep⟩
    have hmoved : Moved s bytes (Frame.restore i t' s) :=
      Moves.restore hentry hstep.moves hstep.entry
    obtain ⟨crc32, hset⟩ := hstep.entry
    -- the chunk and its size stay what they were
    have hchunk' : t'.readState.currentChunk = s.readState.currentChunk := hstep.moves.chunk
    have hsize' : t'.readState.currentChunk.size (s.entries.set i t'.entry) = .ok size := by
      rw [hchunk', hset, chunkSize_set hentry]
      exact hsize
    cases r with
    | pending =>
      have hnil := hstep.interrupted (by simp)
      subst hnil
      have hext : s.output.Extends [] t'.output := hstep.moves.output
      have houtput : (Frame.restore i t' s).output = s.output := hext.eq_of_nil
      show if (Frame.restore i t' s).output.remaining = initialRemaining then _ else _
      rw [houtput, if_pos hwritten]
      refine ⟨[], hmoved, .pending rfl hwritten, fun hc => ?_⟩
      rcases hstep.slot hc with hc | ⟨e, he⟩
      · exact .inl hc
      · cases he
    | err e =>
      have hnil := hstep.interrupted (by simp)
      subst hnil
      refine ⟨[], hmoved, .dataErr e rfl hcrc hwritten, fun hc => ?_⟩
      rcases hstep.slot hc with hc | _
      · exact .inl hc
      · -- the slot is polled again in the next turn
        refine .inr ⟨⟨e, rfl⟩, hstep.staged.trans hempty, i, { entry with crc32 }, size, ?_, hsize',
          Nat.lt_of_le_of_lt hstep.toSkip hskip, .inl (hchunk'.trans hchunk)⟩
        show (s.entries.set i t'.entry)[i]? = _
        rw [hset]
        exact List.getElem?_set_self (List.getElem?_eq_some_iff.mp hentry).1
    | ok done =>
      simp only [andThen]
      apply finish_turn hmoved
      · show t'.readState.currentChunk ≠ _
        simp [hchunk', hchunk]
      · exact hsize'
      · rw [hcrc]
        rintro _ ⟨⟩
      · intro hc
        rcases hstep.slot hc with hc | ⟨e, he⟩
        · exact hc
        · cases he
  · rw [if_pos hwritten, hempty, Exec.assert_eq rfl]
    exact ⟨[], .refl s, .leave rfl hcrc, .inl⟩

/-- A turn at a chunk that is not skipped. -/
theorem processChunk_turn {sizes : Sizes} (hempty : s.readState.stagingBuffer = [])
    (hfin : s.readState.currentChunk ≠ .finished)
    (hsize : s.readState.currentChunk.size s.entries = .ok size)
    (hskip : s.readState.toSkip < size) :
    (processChunk sizes ctx fuel initialRemaining size).wp (Polls s.pinned.slot)
      (fun r s' => ∃ bytes, Turn ctx fuel initialRemaining s bytes r s') s := by
  cases hchunk : s.readState.currentChunk with
  | localHeader i => exact processLocalHeader_turn hchunk hsize
  | entryData i => exact processEntryData_turn hchunk hempty hsize hskip
  | dataDescriptor i =>
    unfold processChunk readChunk
    rw [wp_bind, wp_get_bind, hchunk]
    simp only
    rw [← wp_bind]
    exact processCrc_turn (.inl hchunk) hempty hsize hskip fun crc t =>
      movesTo_putDataDescriptor t.readState t.entry crc t.output
  | cdFileHeader i =>
    unfold processChunk readChunk
    rw [wp_bind, wp_get_bind, hchunk]
    simp only
    rw [← wp_bind]
    exact processCrc_turn (.inr hchunk) hempty hsize hskip fun crc t =>
      movesTo_putCdFileHeader t.readState t.entry crc t.output
  | eocd => exact processEocd_turn hchunk hsize
  | finished => exact absurd hchunk hfin

/-- **A turn of the loop**, whatever the sources do. -/
theorem readIteration_turn (sizes : Sizes) (ctx : E.Context) (fuel initialRemaining : Nat)
    (s : Frame E H) :
    (readIteration sizes ctx fuel initialRemaining).wp (Polls s.pinned.slot)
      (fun r s' => ∃ bytes, Turn ctx fuel initialRemaining s bytes r s') s := by
  unfold readIteration
  rw [wp_get_bind]
  by_cases hempty : s.readState.stagingBuffer = []
  · rw [if_neg (by simpa using hempty)]
    by_cases hfin : s.readState.currentChunk = .finished
    · rw [if_pos hfin]
      have hcrc : s.crcAnswer ctx fuel = none :=
        crcAnswer_of_entry (crcEntry_of_chunk (by simp [hfin]) (by simp [hfin]))
      exact ⟨[], .refl s, .leave rfl hcrc, .inl⟩
    · rw [if_neg hfin, wp_bind, wp_lift]
      cases hsize : s.readState.currentChunk.size s.entries with
      | error f => exact fun h => absurd h (chunkSize_ne hsize)
      | ok size =>
        simp only [Exec.wp_ok, andThen]
        by_cases hskip : s.readState.toSkip ≥ size
        · -- the chunk is skipped by its size
          rw [if_pos hskip, Exec.subU64_eq hskip]
          cases hnext : s.readState.currentChunk.next s.entries with
          | error f => exact fun h => absurd h (chunkNext_ne hnext)
          | ok c =>
            have hcrc : s.crcAnswer ctx fuel = none :=
              crcAnswer_of_entry (crcEntry_of_skipped hsize hskip)
            refine ⟨[], ⟨.refl _, rfl, fun a p hp => hp.skip hfin hempty hsize hskip hnext⟩,
              .go ?_, .inl⟩
            rw [hcrc]
            rintro _ ⟨⟩
        · rw [if_neg hskip]
          exact processChunk_turn hempty hfin hsize (by omega)
  · -- staged bytes come first
    rw [if_pos hempty, wp_bind, wp_lift]
    apply (movesTo_readFromStaging s.output hempty).polls
    intro rs output bytes hmoves
    refine ⟨bytes, ⟨hmoves.output, hmoves.position, fun a p hp => hp.moves hmoves hp.listed⟩,
      .go ?_, .inl⟩
    rw [crcAnswer_of_entry (crcEntry_of_staged hempty)]
    rintro _ ⟨⟩

end Turns

end Model

end Zippity
