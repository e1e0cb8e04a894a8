import Zippity.Properties.Landing
import Zippity.Reader.Hardened
import Zippity.Session

/-! # Calls that are interrupted late

    A call of `poll_read` returns what it wrote before it waits for an entry,
    with one exception: a CRC that a central directory header needs is computed
    also after bytes were written.  `Late` says where this happens, on the state
    before the call: a central header starts strictly inside the free bytes, the
    CRC of its entry is not known, and nothing in front of it would end the call
    or compute the CRC.  The computation then reads the source of the entry
    from scratch, so its answer is that of `ReadThrough`.
-/

namespace Zippity

open Framework Async

section Model
variable {E : EntryData} {H : Crc32Fast}

/-! ### Places -/

namespace Reader

/-- Where a chunk starts in the archive of a reader. -/
def chunkStart (self : Reader E H) (c : Chunk) : Nat :=
  Zippity.chunkStart (self.members fun _ => []) c

/-- Where in the archive the next byte comes from: behind what was processed of the current chunk
    and what is to be skipped, less what is staged. -/
def place (self : Reader E H) : Nat :=
  self.chunkStart self.readState.currentChunk + self.readState.chunkProcessedSize +
    self.readState.toSkip - self.readState.stagingBuffer.length

end Reader

/-- The central header of entry `i` comes late in a `poll_read` with `room` free bytes: it starts
    strictly inside them, and needs a CRC that is not known. -/
structure Late (r : Reader E H) (room i : Nat) (entry : ReaderEntry E) : Prop where
  listed : r.entries[i]? = some entry
  unknown : entry.crc32 = none
  nonempty : entry.size ≠ 0
  after : r.place < r.chunkStart (.cdFileHeader i)
  before : r.chunkStart (.cdFileHeader i) < r.place + room
  /-- No entry data is left in front of it. -/
  data : ∀ (j : Nat) other, r.entries[j]? = some other → other.size ≠ 0 →
    r.chunkStart (.dataDescriptor j) ≤ r.place
  /-- Its data descriptor, which would compute the CRC first, is left behind. -/
  descriptor : r.chunkStart (.dataDescriptor i) + packedSize DataDescriptor64 ≤ r.place

/-- A test that no header comes late in a poll with so much room. -/
def Reader.lateFree (r : Reader E H) (room : Nat) : Bool :=
  r.entries.zipIdx.all fun (entry, i) =>
    entry.crc32.isSome || entry.size == 0 ||
      r.place < r.chunkStart (.dataDescriptor i) + packedSize DataDescriptor64 ||
      r.chunkStart (.cdFileHeader i) ≤ r.place || r.place + room ≤ r.chunkStart (.cdFileHeader i)

theorem Reader.not_late_of_lateFree {r : Reader E H} {room i : Nat} {entry : ReaderEntry E}
    (h : r.lateFree room = true) : ¬ Late r room i entry := by
  intro hlate
  have hmem : (entry, i) ∈ r.entries.zipIdx := List.mem_zipIdx_iff_getElem?.mpr hlate.listed
  have htest := List.all_eq_true.mp h _ hmem
  have hafter := hlate.after
  have hbefore := hlate.before
  have hdescriptor := hlate.descriptor
  have hnonempty := hlate.nonempty
  simp only [hlate.unknown, Option.isSome_none, Bool.false_or, Bool.or_eq_true, beq_iff_eq,
    decide_eq_true_eq] at htest
  omega

/-- What is computed of the members does not depend on what the entries describe them by. -/
theorem Listed.map_eq {ms : List Member} {entries : List (ReaderEntry E)} {β : Type}
    (h : Listed ms entries) (f : Member → β) (g : ReaderEntry E → β)
    (hfg : ∀ entry m, Describes entry m → g entry = f m) : entries.map g = ms.map f := by
  apply List.ext_getElem?
  intro i
  rw [List.getElem?_map, List.getElem?_map]
  cases hentry : entries[i]? with
  | none =>
    have hle := List.getElem?_eq_none_iff.mp hentry
    rw [List.getElem?_eq_none (h.length ▸ hle)]
    rfl
  | some entry =>
    have hi := (List.getElem?_eq_some_iff.mp hentry).1
    have hm := List.getElem?_eq_getElem (h.length ▸ hi : i < ms.length)
    rw [hm]
    exact congrArg some (hfg entry _ (h.describes i entry _ hentry hm))

/-- Where the chunks start depends on the names and the sizes alone. -/
theorem chunkStart_congr {ms ms' : List Member}
    (h : ∀ f : Member → Nat, (∀ m m' : Member, m.name = m'.name → m.size = m'.size → f m = f m') →
      ms.map f = ms'.map f) (c : Chunk) : chunkStart ms c = chunkStart ms' c := by
  have hextents := h Member.extent fun m m' hname hsize => by
    simp only [Member.extent, Member.localSize, hname, hsize]
  have hcentral := h Member.centralSize fun m m' hname _ => by
    simp only [Member.centralSize, hname]
  have helim : ∀ (i : Nat) (f : Member → Nat),
      (∀ m m' : Member, m.name = m'.name → m.size = m'.size → f m = f m') →
      (ms[i]?).elim 0 f = (ms'[i]?).elim 0 f := by
    intro i f hf
    have hget := congrArg (·[i]?) (h f hf)
    simp only [List.getElem?_map] at hget
    cases hx : ms[i]? <;> cases hy : ms'[i]? <;> simp_all
  unfold chunkStart
  cases c with
  | localHeader i => simp only [extents, List.map_take, hextents]
  | entryData i =>
    dsimp only
    rw [helim i _ fun m m' hname _ => by simp only [Member.localSize, hname]]
    simp only [extents, List.map_take, hextents]
  | dataDescriptor i =>
    dsimp only
    rw [helim i _ fun m m' hname hsize => by simp only [Member.localSize, hname, hsize]]
    simp only [extents, List.map_take, hextents]
  | cdFileHeader i => simp only [extents, centralSizes, List.map_take, hextents, hcentral]
  | eocd => simp only [extents, centralSizes, hextents, hcentral]
  | finished => simp only [layoutSizes, extents, centralSizes, hextents, hcentral]

/-- A reader of an archive has its chunks where the archive has them. -/
theorem Listed.chunkStart_eq {a : Archive} {r : Reader E H} (h : Listed a.members r.entries)
    (c : Chunk) : r.chunkStart c = chunkStart a.members c := by
  apply chunkStart_congr
  intro f hf
  rw [List.map_map]
  exact h.map_eq f _ fun entry m hdescribes => hf _ _ hdescribes.name hdescribes.size

/-! ### A CRC computed from scratch -/

/-- A function on an entry is interrupted just as its source is. -/
def AnswersAs {α : Type} : PollResult (IoError E) α → PollResult E.Error Unit → Prop
  | .pending, answer => answer = .pending
  | .err e, answer => ∃ cause, e = .entry cause ∧ answer = .err cause
  | .ok _, answer => answer = .ok ()

section Scratch
variable {t : EntryFrame E H}

/-- Opening an entry with an empty slot. -/
theorem getReader_answers (ctx : E.Context) (hslot : t.pinned.slot = .nothing) :
    (getReader ctx).wp (fun _ => True) (fun r t' => t'.entry = t.entry ∧
      ∃ answer future, E.poll (E.getReader t.entry.data) ctx = (answer, future) ∧
        match r, answer with
        | .pending, .pending => True
        | .err e, .err cause => e = .entry cause
        | .ok reader, .ok inner => reader = .new inner ∧ t'.pinned.slot = .fileReader reader
        | _, _ => False) t := by
  unfold getReader openFuture
  rw [wp_bind, wp_get_bind, hslot]
  dsimp only
  rw [wp_modify]
  simp only [andThen]
  rw [wp_bind]
  unfold pollFuture Async.wp
  dsimp only
  rcases hpoll : E.poll (E.getReader t.entry.data) ctx with ⟨_ | e | inner, future⟩
  · exact ⟨rfl, _, _, rfl, trivial⟩
  · exact ⟨rfl, _, _, rfl, rfl⟩
  · exact ⟨rfl, _, _, rfl, rfl, rfl⟩

/-- The loop of `get_crc` answers what the source answers that is read to its end. -/
theorem readToEnd_answers (ctx : E.Context) (fuel : Nat) {reader : CrcReader E H}
    (hslot : t.pinned.slot = .fileReader reader) :
    (readToEnd ctx fuel).wp (fun _ => True) (fun r _ => ∃ answer,
      ReadToEnd E t.entry.data ctx reader.innerReader answer ∧ AnswersAs r answer) t := by
  induction fuel generalizing t reader with
  | zero => trivial
  | succ fuel ih =>
    unfold readToEnd
    rw [wp_bind, onFileReader_wp hslot]
    unfold CrcReader.pollRead EntryData.pollReadInto
    rcases hread : E.pollRead reader.innerReader t.entry.data ctx (.new READ_SIZE) with
      ⟨_ | e | bytes, inner⟩
    · exact ⟨_, .pending hread, rfl⟩
    · exact ⟨_, .failed hread, e, rfl, rfl⟩
    · simp only [andThen]
      have hfilled : ((ReadBuf.new READ_SIZE).append bytes.1 bytes.2).filled = bytes.1 := rfl
      rw [hfilled]
      cases hbytes : bytes.1 with
      | nil => exact ⟨_, .atEnd hread hbytes, rfl⟩
      | cons byte rest =>
        refine wp_mono (ih (t := t.setSlot (.fileReader _)) rfl) (fun _ hf => hf) ?_
        rintro r t' ⟨answer, hrest, hanswers⟩
        exact ⟨answer, .more hread (by simp [hbytes]) hrest, hanswers⟩

/-- **A CRC that is computed from scratch** is interrupted just as its source is that is read
    through. -/
theorem getCrc_answers (ctx : E.Context) (fuel : Nat) (hslot : t.pinned.slot = .nothing)
    (hcrc : t.entry.crc32 = none) (hsize : t.entry.size ≠ 0) :
    (getCrc ctx fuel).wp (fun _ => True) (fun r _ => ∃ answer,
      ReadThrough E t.entry.data ctx answer ∧ AnswersAs r answer) t := by
  unfold getCrc
  rw [wp_get_bind, hcrc]
  dsimp only
  rw [if_neg hsize, wp_bind]
  refine wp_mono (getReader_answers ctx hslot) (fun _ hf => hf) ?_
  rintro (_ | e | reader) t₁ ⟨hentry, answer, future, hpoll, hsame⟩
  · cases answer with
    | pending => exact ⟨_, .pending hpoll, rfl⟩
    | _ => exact hsame.elim
  · cases answer with
    | err cause => exact ⟨_, .failed hpoll, cause, hsame, rfl⟩
    | _ => exact hsame.elim
  · cases answer with
    | ok inner =>
      obtain ⟨rfl, hreader⟩ := hsame
      simp only [andThen]
      rw [wp_bind]
      refine wp_mono (readToEnd_answers ctx fuel hreader) (fun _ hf => hf) ?_
      rintro r t₂ ⟨answer, hrest, hanswers⟩
      rw [hentry] at hrest
      have hthrough : ReadThrough E t.entry.data ctx answer := .opened hpoll hrest
      cases r with
      | pending => exact ⟨_, hthrough, hanswers⟩
      | err e => exact ⟨_, hthrough, hanswers⟩
      | ok _ =>
        simp only [andThen]
        -- what is left does not poll anything
        unfold fileReader
        rw [wp_bind, wp_get_bind]
        cases t₂.pinned.slot with
        | fileReader reader' =>
          dsimp only
          rw [wp_pure]
          simp only [andThen]
          cases reader'.getCrc32 with
          | none => trivial
          | some crc => exact ⟨_, hthrough, hanswers⟩
        | _ => trivial
    | _ => exact hsame.elim

end Scratch

/-! ### The way to a late header -/

section Way
variable {a : Archive} {s s' : Frame E H} {sizes : Sizes} {ctx : E.Context}
  {p room fuel i : Nat}

/-- The CRC that a turn needs is that of its chunk, which is neither staged nor skipped. -/
theorem crcEntry_inv (h : s.crcEntry = some i) :
    (s.readState.currentChunk = .dataDescriptor i ∨ s.readState.currentChunk = .cdFileHeader i) ∧
      s.readState.stagingBuffer = [] := by
  unfold Frame.crcEntry at h
  split at h
  · next j hchunk =>
    split at h
    · split at h
      · next hand =>
        cases h
        exact ⟨.inl hchunk, hand.1⟩
      · cases h
    · cases h
  · next j hchunk =>
    split at h
    · split at h
      · next hand =>
        cases h
        exact ⟨.inr hchunk, hand.1⟩
      · cases h
    · cases h
  · cases h

/-- What the turns of a call keep that began at place `p` with `room` free bytes. -/
structure OnTheWay (a : Archive) (p room : Nat) (s : Frame E H) : Prop where
  hardened : Hardened a s
  fits : s.output.remaining ≤ room
  placed : Placed a s.entries s.readState (p + (room - s.output.remaining))
  /-- Once bytes were written nothing is waited for, unless they are entry data. -/
  written : s.output.remaining ≠ room →
    (s.pinned.slot = .nothing ∧ Unskipped s.readState) ∨
      ((∃ i, s.readState.currentChunk = .entryData i) ∧ s.readState.stagingBuffer = [] ∧
        s.pinned.slot ≠ .nothing)
  /-- A data descriptor then follows data of no size. -/
  descriptor : s.output.remaining ≠ room → ∀ i, s.readState.currentChunk = .dataDescriptor i →
    (segmentOf H a.members (.entryData i)).size = 0
  /-- Data that was passed had ended where the call began. -/
  dataBehind : ∀ j < a.members.length,
    s.readState.currentChunk.rank a.members.length < (Chunk.entryData j).rank a.members.length →
      (segmentOf H a.members (.entryData j)).size ≠ 0 →
        chunkStart a.members (.dataDescriptor j) ≤ p
  /-- So had data descriptors that were passed without a CRC. -/
  crcBehind : ∀ (i : Nat) entry, s.entries[i]? = some entry → entry.crc32 = none →
    s.readState.currentChunk.rank a.members.length <
      (Chunk.dataDescriptor i).rank a.members.length →
      chunkStart a.members (.dataDescriptor i) + packedSize DataDescriptor64 ≤ p

theorem Listed.size_dataDescriptor {entries : List (ReaderEntry E)} (h : Listed a.members entries)
    (hi : i < a.members.length) :
    (segmentOf H a.members (.dataDescriptor i)).size = packedSize DataDescriptor64 := by
  have hsize := chunkSize_eq (H := H) h (c := .dataDescriptor i) hi (by simp)
  exact (Except.ok.inj hsize).symm

/-- The first chunk of which bytes are left: the current one, or the one in front of it that is
    staged. -/
theorem Hardened.exists_first (h : Hardened a s) (hplaced : Placed a s.entries s.readState p) :
    ∃ c : Chunk, c.Located a.members.length ∧ chunkStart a.members c ≤ p ∧
      (c = s.readState.currentChunk ∨
        (LeavesStaged a s c ∧ c.succ a.members.length = s.readState.currentChunk)) := by
  have hbalance := hplaced.balance
  by_cases hempty : s.readState.stagingBuffer = []
  · rw [hempty, List.length_nil] at hbalance
    exact ⟨_, h.located, by omega, .inl rfl⟩
  · obtain ⟨c, hleaves, hsucc⟩ := h.leaves hempty
    have hstart := chunkStart_succ (H := H) hleaves.located hleaves.header.ne_finished
    have hstaged := hleaves.staged
    rw [hsucc] at hstart
    exact ⟨c, hleaves.located, by omega, .inr ⟨hleaves, hsucc⟩⟩

/-- Chunks start in their order. -/
theorem chunkStart_succ_le {c d : Chunk} (hc : c.Located a.members.length)
    (hd : d.Located a.members.length)
    (h : c.rank a.members.length < d.rank a.members.length) :
    chunkStart a.members (d.succ a.members.length) ≤ chunkStart a.members c := by
  have hfin : d ≠ .finished := by
    rintro rfl
    simp [Chunk.rank] at h
  rw [chunkStart_succ (H := crc32Ieee) hd hfin]
  exact chunkStart_add_size_le hd hc h

/-- A chunk behind the first one that is not complete is behind a chunk, or this is staged. -/
theorem rank_of_first {c d : Chunk} (hd : d.Located a.members.length)
    (hlt : s.readState.currentChunk.rank a.members.length < d.rank a.members.length)
    (hc : c = s.readState.currentChunk ∨
      (LeavesStaged a s c ∧ c.succ a.members.length = s.readState.currentChunk)) :
    c.rank a.members.length < d.rank a.members.length ∨ (LeavesStaged a s d) := by
  rcases hc with rfl | ⟨hleaves, hsucc⟩
  · exact .inl hlt
  · rcases Nat.lt_trichotomy (c.rank a.members.length) (d.rank a.members.length) with h | h | h
    · exact .inl h
    · rw [Chunk.eq_of_rank_eq hd hleaves.located h.symm]
      exact .inr hleaves
    · have hle := Chunk.rank_le_rank_succ hleaves.located hd h
      rw [hsucc] at hle
      omega

/-- The frame in which a call begins. -/
theorem onTheWay_start (h : Hardened a s) (hplaced : Placed a s.entries s.readState p) :
    OnTheWay a p s.output.remaining s where
  hardened := h
  fits := Nat.le_refl _
  placed := by simpa using hplaced
  written hne := absurd rfl hne
  descriptor hne := absurd rfl hne
  dataBehind j hj hlt hsize := by
    obtain ⟨c, hlocated, hle, hfirst⟩ := h.exists_first hplaced
    rcases rank_of_first (d := .entryData j) hj hlt hfirst with hlt' | hleaves
    · exact Nat.le_trans (chunkStart_succ_le hlocated (d := .entryData j) hj hlt') hle
    · exact hleaves.header.elim
  crcBehind i entry hentry hcrc hlt := by
    have hi : i < a.members.length := by
      rw [← h.listed.length]
      exact (List.getElem?_eq_some_iff.mp hentry).1
    obtain ⟨c, hlocated, hle, hfirst⟩ := h.exists_first hplaced
    rcases rank_of_first (d := .dataDescriptor i) hi hlt hfirst with hlt' | hleaves
    · have hend := chunkStart_add_size_le (H := H) (c := .dataDescriptor i) hi hlocated hlt'
      rw [h.listed.size_dataDescriptor hi] at hend
      omega
    · exact absurd hcrc (hleaves.crc i rfl entry hentry)

/-- The chunk of which a turn passes the end. -/
theorem chunk_of_passed {c d : Chunk} (hc : c.Located a.members.length)
    (hd : d.Located a.members.length)
    (h : (c.succ a.members.length).rank a.members.length < d.rank a.members.length) :
    c.rank a.members.length < d.rank a.members.length ∨ c = d := by
  rcases Nat.lt_trichotomy (c.rank a.members.length) (d.rank a.members.length) with hlt | heq | hgt
  · exact .inl hlt
  · exact .inr (Chunk.eq_of_rank_eq hc hd heq)
  · have hle := Chunk.rank_le_rank_succ hc hd hgt
    omega

/-- A header is not the chunk in front of a data descriptor. -/
theorem Chunk.IsHeader.succ_ne {c : Chunk} {count : Nat} (h : c.IsHeader) (i : Nat) :
    c.succ count ≠ .dataDescriptor i := by
  intro hsucc
  cases c with
  | localHeader j => cases hsucc
  | entryData j => exact h
  | dataDescriptor j =>
    simp only [Chunk.succ] at hsucc
    split at hsucc <;> cases hsucc
  | cdFileHeader j =>
    simp only [Chunk.succ] at hsucc
    split at hsucc <;> cases hsucc
  | eocd => cases hsucc
  | finished => cases hsucc

/-- Bytes that are skipped after some were written are none. -/
theorem OnTheWay.skipped_nothing (h : OnTheWay a p room s)
    (hwritten : s.output.remaining ≠ room) (hempty : s.readState.stagingBuffer = [])
    (hslot : s.pinned.slot = .nothing) : s.readState.toSkip = 0 := by
  rcases h.written hwritten with ⟨_, hunskipped⟩ | ⟨_, _, hne⟩
  · exact hunskipped hempty
  · exact absurd hslot hne

/-- Before anything is written, the call stands at its place. -/
theorem OnTheWay.balance (h : OnTheWay a p room s) (hempty : s.readState.stagingBuffer = []) :
    p + (room - s.output.remaining) = chunkStart a.members s.readState.currentChunk +
      s.readState.chunkProcessedSize + s.readState.toSkip := by
  have hbalance := h.placed.balance
  rw [hempty, List.length_nil] at hbalance
  omega

/-- **A turn that goes on** keeps the way. -/
theorem OnTheWay.step {bytes : List UInt8} (h : OnTheWay a p room s) (hgo : GoTurn a room s s')
    (hstep : HardStep a s s') (hmoved : Moved s bytes s') : OnTheWay a p room s' := by
  have hlen := hmoved.output.remaining
  have hfits := h.fits
  have hplaced : Placed a s'.entries s'.readState (p + (room - s'.output.remaining)) := by
    have hplaced := hmoved.placed a _ h.placed
    rwa [show p + (room - s.output.remaining) + bytes.length =
      p + (room - s'.output.remaining) by omega] at hplaced
  -- what was written before is written after
  have hlocated := h.hardened.located
  refine ⟨hstep.hardened, by omega, hplaced, ?_, ?_, ?_, ?_⟩
  · intro hwritten
    cases hgo with
    | staged _ _ hslot hunskipped => exact .inl ⟨hslot, hunskipped⟩
    | skipped hempty _ _ hslot hs' =>
      subst hs'
      have hzero := h.skipped_nothing hwritten hempty hslot
      refine .inl ⟨hslot, fun _ => ?_⟩
      show s.readState.toSkip - _ = 0
      omega
    | header _ _ _ hslot hunskipped => exact .inl ⟨hslot, hunskipped⟩
    | data hdata hchunk hunstaged hreader =>
      obtain ⟨reader, hreader, _⟩ := hreader
      refine .inr ⟨hchunk ▸ hdata, hunstaged, ?_⟩
      rw [hreader]
      simp
    | ended _ _ _ _ houtput hunwritten =>
      rw [houtput] at hwritten
      exact absurd hunwritten hwritten
  · intro hwritten j hchunk'
    cases hgo with
    | staged hstaged hchunk =>
      -- what is staged is not of entry data
      obtain ⟨c, hleaves, hsucc⟩ := h.hardened.leaves hstaged
      rw [← hchunk, hchunk'] at hsucc
      exact absurd hsucc (hleaves.header.succ_ne j)
    | skipped hempty hfin hskip hslot hs' =>
      subst hs'
      have hzero := h.skipped_nothing hwritten hempty hslot
      have hdata : s.readState.currentChunk = .entryData j := by
        have hsucc : s.readState.currentChunk.succ a.members.length = .dataDescriptor j := hchunk'
        cases hchunk : s.readState.currentChunk with
        | entryData k =>
          rw [hchunk] at hsucc
          cases hsucc
          rfl
        | finished => exact absurd hchunk hfin
        | _ => exact absurd hsucc (Chunk.IsHeader.succ_ne (by simp [hchunk, Chunk.IsHeader]) j)
      rw [hdata] at hskip
      omega
    | header _ hheader hchunk =>
      rw [hchunk] at hchunk'
      exact absurd hchunk' (hheader.succ_ne j)
    | data hdata hchunk =>
      obtain ⟨k, hk⟩ := hdata
      rw [hchunk, hk] at hchunk'
      cases hchunk'
    | ended _ _ _ _ houtput hunwritten =>
      rw [houtput] at hwritten
      exact absurd hunwritten hwritten
  · intro j hj hlt hsize
    have hj' : (Chunk.entryData j).Located a.members.length := hj
    have hnext : s'.readState.currentChunk = s.readState.currentChunk.succ a.members.length →
        s.readState.currentChunk.rank a.members.length < (Chunk.entryData j).rank a.members.length ∨
          s.readState.currentChunk = .entryData j := by
      intro hchunk
      rw [hchunk] at hlt
      exact chunk_of_passed hlocated hj' hlt
    cases hgo with
    | staged _ hchunk =>
      rw [hchunk] at hlt
      exact h.dataBehind j hj hlt hsize
    | skipped hempty _ hskip hslot hs' =>
      subst hs'
      rcases hnext rfl with hold | hdata
      · exact h.dataBehind j hj hold hsize
      · -- data that is skipped ends in front of the place of the call
        have hbalance := h.balance hempty
        have hstart := chunkStart_succ (H := H) hj' (by simp)
        rw [hdata] at hskip hbalance
        by_cases hwritten : s.output.remaining = room
        · simp only [Chunk.succ] at hstart
          omega
        · have hzero := h.skipped_nothing hwritten hempty hslot
          omega
    | header _ hheader hchunk =>
      rcases hnext hchunk with hold | hdata
      · exact h.dataBehind j hj hold hsize
      · rw [hdata] at hheader
        exact hheader.elim
    | data _ hchunk =>
      rw [hchunk] at hlt
      exact h.dataBehind j hj hlt hsize
    | ended _ hchunk hunstaged _ houtput hunwritten =>
      rcases hnext hchunk with hold | hdata
      · exact h.dataBehind j hj hold hsize
      · have hbalance := hplaced.balance
        rw [hunstaged, List.length_nil, hchunk, hdata, houtput, hunwritten] at hbalance
        simp only [Chunk.succ] at hbalance
        omega
  · intro j entry' hentry' hcrc hlt
    have hj : j < a.members.length := by
      rw [← hstep.hardened.listed.length]
      exact (List.getElem?_eq_some_iff.mp hentry').1
    have hj' : (Chunk.dataDescriptor j).Located a.members.length := hj
    -- the CRC was not known before either
    obtain ⟨entry, hentry, hkeeps⟩ := Forking.forall₂_getElem?_right hstep.kept hentry'
    have hnone : entry.crc32 = none := by
      obtain ⟨crc32, rfl, hkeeps⟩ := hkeeps
      cases hentryCrc : entry.crc32 with
      | none => rfl
      | some c => exact absurd (hkeeps c hentryCrc) (by simp [show crc32 = none from hcrc])
    have hnext : s'.readState.currentChunk = s.readState.currentChunk.succ a.members.length →
        s.readState.currentChunk.rank a.members.length <
          (Chunk.dataDescriptor j).rank a.members.length ∨
          s.readState.currentChunk = .dataDescriptor j := by
      intro hchunk
      rw [hchunk] at hlt
      exact chunk_of_passed hlocated hj' hlt
    cases hgo with
    | staged _ hchunk =>
      rw [hchunk] at hlt
      exact h.crcBehind j entry hentry hnone hlt
    | skipped hempty _ hskip hslot hs' =>
      subst hs'
      rcases hnext rfl with hold | hdescriptor
      · exact h.crcBehind j entry hentry hnone hold
      · have hbalance := h.balance hempty
        have hpos : packedSize DataDescriptor64 = 24 := packedSize_dataDescriptor64
        rw [hdescriptor, h.hardened.listed.size_dataDescriptor hj] at hskip
        rw [hdescriptor] at hbalance
        by_cases hwritten : s.output.remaining = room
        · omega
        · have hzero := h.skipped_nothing hwritten hempty hslot
          omega
    | header _ _ hchunk _ _ hknown =>
      rcases hnext hchunk with hold | hdescriptor
      · exact h.crcBehind j entry hentry hnone hold
      · exact absurd hcrc (hknown j hdescriptor entry' hentry')
    | data _ hchunk =>
      rw [hchunk] at hlt
      exact h.crcBehind j entry hentry hnone hlt
    | ended hdata hchunk =>
      rcases hnext hchunk with hold | hdescriptor
      · exact h.crcBehind j entry hentry hnone hold
      · obtain ⟨k, hk⟩ := hdata
        rw [hk] at hdescriptor
        cases hdescriptor

/-- **The turns of a call** are on the way. -/
theorem onTheWay_of_mem_turns (h : Hardened a s) (hplaced : Placed a s.entries s.readState p)
    {turn : Nat × Frame E H} (hmem : turn ∈ turns sizes ctx s.output.remaining fuel s) :
    OnTheWay a p s.output.remaining turn.2 := by
  refine forall_mem_turns (I := OnTheWay a p s.output.remaining) ?_ (onTheWay_start h hplaced) turn
    hmem
  intro fuel s₁ s₂ h₁ _ hrun
  have hturn := hardTurn_of_readIteration h₁.hardened hrun
  obtain ⟨bytes, hmoved⟩ := Exec.wp_of_eq_ok (readIteration_turn sizes ctx fuel _ s₁) hrun
  exact h₁.step (hturn.go rfl) hturn.step hmoved.moved

/-- A CRC that is computed was not known, and its entry is not empty. -/
theorem getCrc_interrupted (ctx : E.Context) (fuel : Nat) (t : EntryFrame E H) :
    (getCrc ctx fuel).wp (fun _ => True)
      (fun answer _ => Interrupts answer → t.entry.crc32 = none ∧ t.entry.size ≠ 0) t := by
  unfold getCrc
  rw [wp_get_bind]
  cases hcrc : t.entry.crc32 with
  | some crc => exact False.elim
  | none =>
    dsimp only
    by_cases hsize : t.entry.size = 0
    · rw [if_pos hsize]
      exact False.elim
    · rw [if_neg hsize]
      exact wp_of_forall fun _ _ _ => ⟨rfl, hsize⟩

/-- An entry whose CRC is not known yet was not changed. -/
theorem KeepsCrc.eq_of_none {entry entry' : ReaderEntry E} (h : KeepsCrc entry entry')
    (hnone : entry'.crc32 = none) : entry = entry' := by
  obtain ⟨crc32, rfl, hkeeps⟩ := h
  cases hcrc : entry.crc32 with
  | none =>
    have hnone : crc32 = none := hnone
    rw [hnone, ← hcrc]
  | some crc => exact absurd (hkeeps crc hcrc) (by simp [show crc32 = none from hnone])

/-- The place of a reader is that of its read state. -/
theorem Guarded.placed_place {r : Reader E H} (h : Guarded a r) :
    Placed a r.entries r.readState r.place := by
  obtain ⟨p, hp⟩ := h.placed
  have hbalance := hp.balance
  have hplace : r.place = p := by
    unfold Reader.place
    rw [hp.listed.chunkStart_eq]
    omega
  rw [hplace]
  exact hp

/-- Where a call that wrote needs a CRC that is not known, it stands at a late header. -/
theorem OnTheWay.late {r : Reader E H} {entry : ReaderEntry E} (h : OnTheWay a r.place room s)
    (hlisted : Listed a.members r.entries) (hkept : List.Forall₂ KeepsCrc r.entries s.entries)
    (hroom : 0 < s.output.remaining) (hwritten : s.output.remaining ≠ room)
    (hcrc : s.crcEntry = some i) (hentry : s.entries[i]? = some entry)
    (hnone : entry.crc32 = none) (hsize : entry.size ≠ 0) :
    s.readState.currentChunk = .cdFileHeader i ∧ Late r room i entry ∧
      s.pinned.slot = .nothing := by
  have hfits := h.fits
  obtain ⟨hchunk, hempty⟩ := crcEntry_inv hcrc
  obtain ⟨entry₀, hentry₀, hkeeps⟩ := Forking.forall₂_getElem?_right hkept hentry
  obtain rfl := hkeeps.eq_of_none hnone
  have hsegment : ∀ (j : Nat) other, r.entries[j]? = some other → j < a.members.length ∧
      (segmentOf H a.members (.entryData j)).size = other.size := by
    intro j other hother
    have hj : j < a.members.length := by
      rw [← hlisted.length]
      exact (List.getElem?_eq_some_iff.mp hother).1
    have hm := List.getElem?_eq_getElem hj
    rw [(hlisted.describes j other _ hother hm).size]
    refine ⟨hj, ?_⟩
    simp [segmentOf, hm, Member.dataSegment]
  obtain ⟨hi, hdata⟩ := hsegment i entry₀ hentry₀
  -- it is not at the data descriptor
  have hcd : s.readState.currentChunk = .cdFileHeader i := by
    rcases hchunk with hdd | hcd
    · have hzero := h.descriptor hwritten i hdd
      omega
    · exact hcd
  -- and nothing is waited for or skipped
  have hslot : s.pinned.slot = .nothing ∧ s.readState.toSkip = 0 := by
    rcases h.written hwritten with ⟨hslot, hunskipped⟩ | ⟨⟨j, hj⟩, _⟩
    · exact ⟨hslot, hunskipped hempty⟩
    · rw [hcd] at hj
      cases hj
  have hbalance := h.balance hempty
  rw [h.hardened.processed (by simp [hcd]), hslot.2, hcd] at hbalance
  have hstart := hlisted.chunkStart_eq (.cdFileHeader i)
  refine ⟨hcd, ⟨hentry₀, hnone, hsize, by omega, by omega, ?_, ?_⟩, hslot.1⟩
  · intro j other hother hne
    obtain ⟨hj, hsize⟩ := hsegment j other hother
    rw [hlisted.chunkStart_eq]
    refine h.dataBehind j hj ?_ (hsize ▸ hne)
    simp only [hcd, Chunk.rank]
    omega
  · rw [hlisted.chunkStart_eq]
    refine h.crcBehind i entry₀ hentry hnone ?_
    simp only [hcd, Chunk.rank]
    omega

/-- **A CRC that a call computes late** is that of a late header, and is interrupted just as the
    source of its entry is that is read through. -/
theorem Guarded.exists_late {r : Reader E H} {buf : ReadBuf} {turn : Nat × Frame E H}
    {crc : PollResult (IoError E) UInt32} (h : Guarded a r)
    (hmem : turn ∈ turns r.sizes ctx buf.remaining fuel (r.frame buf))
    (hwritten : turn.2.output.remaining ≠ buf.remaining)
    (hcrc : turn.2.crcAnswer ctx turn.1 = some crc) (hinterrupts : Interrupts crc) :
    ∃ i entry answer, turn.2.readState.currentChunk = .cdFileHeader i ∧
      Late r buf.remaining i entry ∧ ReadThrough E entry.data ctx answer ∧
        AnswersAs crc answer := by
  have hframe : Hardened a (r.frame buf) := h.hardened.congr rfl rfl rfl
  have hway : OnTheWay a r.place buf.remaining turn.2 :=
    onTheWay_of_mem_turns hframe h.placed_place hmem
  have hkept : List.Forall₂ KeepsCrc r.entries turn.2.entries :=
    (hardStep_of_mem_turns hframe hmem).kept
  unfold Frame.crcAnswer at hcrc
  obtain ⟨i, hi, hcrc⟩ := Option.bind_eq_some_iff.mp hcrc
  split at hcrc
  · next answer s' hrun =>
    cases hcrc
    have hlate : (onEntry i (getCrc ctx turn.1)).wp (fun _ => True) (fun crc _ =>
        Interrupts crc → ∃ entry answer, turn.2.readState.currentChunk = .cdFileHeader i ∧
          Late r buf.remaining i entry ∧ ReadThrough E entry.data ctx answer ∧
            AnswersAs crc answer) turn.2 := by
      refine onEntry_entry trivial fun entry hentry => ?_
      rw [onEntry_wp hentry]
      have hunknown := getCrc_interrupted ctx turn.1 ⟨turn.2.readState, entry, turn.2.pinned,
        turn.2.output⟩
      refine wp_run (wp_mono hunknown (fun _ hf => hf) ?_)
      intro crc t' hunknown hrun hinterrupts
      obtain ⟨hnone, hsize⟩ := hunknown hinterrupts
      obtain ⟨hchunk, hlate, hslot⟩ := hway.late h.hardened.listed hkept
        (remaining_of_mem_turns hmem).1 hwritten hi hentry hnone hsize
      obtain ⟨answer, hthrough, hanswers⟩ :=
        Exec.wp_of_eq_ok (getCrc_answers ctx turn.1 hslot hnone hsize) hrun
      exact ⟨entry, answer, hchunk, hlate, hthrough, hanswers⟩
    have hdone := Exec.wp_of_eq_ok hlate hrun
    obtain ⟨entry, answer, hlate⟩ := hdone hinterrupts
    exact ⟨i, entry, answer, hlate⟩
  · cases hcrc

end Way

end Model

/-! ### Paced sources -/

section Paced
variable {C : Type} {pace : C → Pace} {d : PacedData} {c : C}
  {answer : PollResult (paced pace).Error Unit}

theorem paced_readToEnd {reader : (paced pace).Reader}
    (h : ReadToEnd (paced pace) d c reader answer) :
    (answer = .pending → pace c = .wait) ∧ ∀ e, answer = .err e → pace c = .fail := by
  -- what one read answers shows the pace
  have hpaced : ∀ reader buf,
      (((paced pace).pollRead reader d c buf).1 = .pending → pace c = .wait) ∧
      ∀ e, ((paced pace).pollRead reader d c buf).1 = .err e → pace c = .fail := by
    intro reader buf
    unfold paced
    cases hpace : pace c <;> simp [hpace]
  induction h with
  | pending hread => exact ⟨fun _ => (hpaced _ _).1 (congrArg Prod.fst hread), by simp⟩
  | failed hread => exact ⟨by simp, fun _ _ => (hpaced _ _).2 _ (congrArg Prod.fst hread)⟩
  | atEnd => simp
  | more _ _ _ ih => exact ih

/-- A paced source that is read through is interrupted only as the context says. -/
theorem paced_readThrough (h : ReadThrough (paced pace) d c answer) :
    (answer = .pending → pace c = .wait) ∧ ∀ e, answer = .err e → pace c = .fail := by
  have hpaced : (((paced pace).poll () c).1 = .pending → pace c = .wait) ∧
      ∀ e, ((paced pace).poll () c).1 = .err e → pace c = .fail := by
    unfold paced
    cases hpace : pace c <;> simp [hpace]
  cases h with
  | pending hpoll => exact ⟨fun _ => hpaced.1 (congrArg Prod.fst hpoll), by simp⟩
  | failed hpoll => exact ⟨by simp, fun _ _ => hpaced.2 _ (congrArg Prod.fst hpoll)⟩
  | opened _ hrest => exact paced_readToEnd hrest

end Paced

end Zippity
