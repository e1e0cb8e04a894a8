import Zippity.Properties.Late

/-! # Calls that pass a late header

    A call on right data that goes on to its end has passed every header that
    comes late in it, and so has read the sources of their entries: with `Late`,
    where a call can be interrupted after it wrote is where it is.
-/

namespace Zippity

open Framework Async

section Model
variable {E : EntryData} {H : Crc32Fast}

/-! ### The entries that a turn changes -/

section Entries
variable {s : Frame E H} {sizes : Sizes} {ctx : E.Context} {fuel initialRemaining i : Nat}

/-- A function on an entry changes no other. -/
theorem onEntry_others {α : Type} (i : Nat) (x : EntryRead E H α) (s : Frame E H) :
    (onEntry i x).wp (fun _ => True) (fun _ s' => ∀ j ≠ i, s'.entries[j]? = s.entries[j]?) s := by
  refine onEntry_entry trivial fun entry hentry => ?_
  rw [onEntry_wp hentry]
  exact wp_of_forall fun _ t j hne => List.getElem?_set_ne (Ne.symm hne)

/-- The interruption macro changes what it runs changes. -/
theorem zippityReady_others {α : Type} (i : Nat) (x : EntryRead E H α) (s : Frame E H) :
    (zippityReady initialRemaining (onEntry i x)).wp (fun _ => True)
      (fun _ s' => ∀ j ≠ i, s'.entries[j]? = s.entries[j]?) s := by
  rw [zippityReady_wp]
  refine wp_mono (onEntry_others i x s) (fun _ hf => hf) ?_
  intro r s' hothers
  cases r with
  | ok a => exact hothers
  | err e => exact hothers
  | pending =>
    dsimp only
    split
    · exact hothers
    · exact hothers

/-- A chunk that is read changes the entry that it reads at most. -/
theorem readChunk_others (sizes : Sizes) (ctx : E.Context) (fuel initialRemaining : Nat)
    (s : Frame E H) :
    (readChunk sizes ctx fuel initialRemaining).wp (fun _ => True) (fun _ s' =>
      ∀ j, ¬ s.readState.currentChunk.Reads j → s'.entries[j]? = s.entries[j]?) s := by
  have hreads : ∀ {i : Nat} {x : EntryRead E H Bool}, s.readState.currentChunk.Reads i →
      (zippityReady initialRemaining (onEntry i x)).wp (fun _ => True) (fun _ s' =>
        ∀ j, ¬ s.readState.currentChunk.Reads j → s'.entries[j]? = s.entries[j]?) s := by
    intro i x hreads
    refine wp_mono (zippityReady_others i x s) (fun _ hf => hf) ?_
    intro r s' hothers j hnot
    refine hothers j ?_
    rintro rfl
    exact hnot hreads
  unfold readChunk
  rw [wp_get_bind]
  cases hchunk : s.readState.currentChunk with
  | localHeader i =>
    -- the entry is written back as it was
    simp only
    rw [wp_bind]
    refine onEntry_entry trivial fun entry hentry => ?_
    rw [onEntry_wp hentry, writeHeader_wp]
    have hsame : s.entries.set i entry = s.entries := set_of_getElem? hentry
    cases hwrite : s.readState.readLocalHeader entry s.output with
    | error f => trivial
    | ok written =>
      intro j _
      show (s.entries.set i entry)[j]? = _
      rw [hsame]
  | entryData i =>
    dsimp only
    split
    · rw [wp_bind, wp_lift]
      cases Exec.assert (s.readState.stagingBuffer = []) with
      | error f => trivial
      | ok _ => exact fun _ _ => rfl
    · have hothers := hreads (x := readEntryData ctx fuel) (.inl hchunk)
      rw [hchunk] at hothers
      exact hothers
  | dataDescriptor i =>
    have hothers := hreads (x := readDataDescriptor ctx fuel) (.inr (.inl hchunk))
    rw [hchunk] at hothers
    exact hothers
  | cdFileHeader i =>
    have hothers := hreads (x := readCdFileHeader ctx fuel) (.inr (.inr hchunk))
    rw [hchunk] at hothers
    exact hothers
  | eocd =>
    simp only
    rw [wp_bind, wp_lift]
    cases s.readState.readEocd sizes s.entries s.output with
    | error f => trivial
    | ok written => exact fun _ _ => rfl
  | finished => trivial

/-- **A turn changes no entry** but the one that its chunk reads, if it is not skipped. -/
theorem readIteration_others (sizes : Sizes) (ctx : E.Context) (fuel initialRemaining : Nat)
    (s : Frame E H) :
    (readIteration sizes ctx fuel initialRemaining).wp (fun _ => True) (fun _ s' => ∀ j,
      s'.entries[j]? = s.entries[j]? ∨ (s.readState.currentChunk.Reads j ∧
        s.readState.stagingBuffer = [] ∧ ∃ size, s.readState.currentChunk.size s.entries = .ok size ∧
          s.readState.toSkip < size)) s := by
  have hkeeps : ∀ {x : FrameRead E H (Flow Unit)}, Keeps Frame.entries x →
      x.wp (fun _ => True) (fun _ s' => ∀ j, s'.entries[j]? = s.entries[j]? ∨
        (s.readState.currentChunk.Reads j ∧ s.readState.stagingBuffer = [] ∧
          ∃ size, s.readState.currentChunk.size s.entries = .ok size ∧
            s.readState.toSkip < size)) s := by
    intro x hx
    exact wp_mono (hx s) (fun _ hf => hf) fun _ _ hsame j => .inl (by rw [hsame])
  unfold readIteration
  rw [wp_get_bind]
  by_cases hempty : s.readState.stagingBuffer = []
  · rw [if_neg (by simpa using hempty)]
    by_cases hfin : s.readState.currentChunk = .finished
    · rw [if_pos hfin]
      exact fun _ => .inl rfl
    · rw [if_neg hfin, wp_bind, wp_lift]
      cases hsize : s.readState.currentChunk.size s.entries with
      | error f => trivial
      | ok size =>
        simp only [Exec.wp_ok, andThen]
        by_cases hskip : s.readState.toSkip ≥ size
        · rw [if_pos hskip]
          rw [hsize] at hkeeps
          refine hkeeps ((keeps_lift _).bind fun _ => (keeps_lift _).bind fun _ => ?_)
          exact .modify_bind (fun _ => rfl) (keeps_pure _)
        · rw [if_neg hskip]
          unfold processChunk
          rw [wp_bind]
          refine wp_mono (readChunk_others sizes ctx fuel initialRemaining s) (fun _ hf => hf) ?_
          intro r s₁ hothers
          have hleft : ∀ j, s₁.entries[j]? = s.entries[j]? ∨ (s.readState.currentChunk.Reads j ∧
              s.readState.stagingBuffer = [] ∧ ∃ size', (.ok size : Exec Nat) = .ok size' ∧
                s.readState.toSkip < size') := by
            intro j
            by_cases hreads : s.readState.currentChunk.Reads j
            · exact .inr ⟨hreads, hempty, size, rfl, by omega⟩
            · exact .inl (hothers j hreads)
          cases r with
          | pending => exact hleft
          | err e => exact hleft
          | ok flow =>
            cases flow with
            | leave => exact hleft
            | ret => exact hleft
            | go done =>
              have hfinish : Keeps Frame.entries (finishChunk size done >>= fun _ =>
                  pure (.go ()) : FrameRead E H (Flow Unit)) := by
                refine Keeps.bind ?_ fun _ => keeps_pure _
                unfold finishChunk
                split
                · refine .get_bind fun s => (keeps_lift _).bind fun _ => (keeps_lift _).bind fun _ => ?_
                  exact keeps_modify fun _ => rfl
                · exact keeps_pure _
              simp only [andThen]
              refine wp_mono (hfinish s₁) (fun _ hf => hf) ?_
              intro _ s₂ hsame
              rw [hsame]
              exact hleft
  · rw [if_pos hempty]
    refine hkeeps ((keeps_lift _).bind fun _ => ?_)
    exact .modify_bind (fun _ => rfl) (keeps_pure _)

end Entries

/-! ### Calls that pass a late header -/

section Passing
variable {mayFail : Prop} {a : Archive} {r : Reader E H} {s s' : Frame E H} {sizes : Sizes}
  {ctx : E.Context} {rest : Tail UInt8} {entry : ReaderEntry E}
  {p room fuel initialRemaining i j : Nat}

/-- Data that is right is not read beyond its end. -/
theorem InStream.within (h : InStream mayFail a s rest) (hhonest : a.Honest)
    (hchunk : s.readState.currentChunk = .entryData j) (hempty : s.readState.stagingBuffer = [])
    (hskip : s.readState.toSkip < (segmentOf H a.members (.entryData j)).size) :
    s.readState.chunkProcessedSize + s.readState.toSkip ≤
      (segmentOf H a.members (.entryData j)).size := by
  have hlocated := h.stands.located
  rw [hchunk] at hlocated
  obtain ⟨m, entry, hm, hentry, _, _⟩ := h.stocked.listed.exists_entry hlocated
  have hsize : (segmentOf H a.members (.entryData j)).size = m.size := by
    simp [segmentOf, hm, Member.dataSegment]
  rw [hsize] at hskip ⊢
  obtain ⟨base, k, n, hk, hprocessed, hretried, _, hdata, _⟩ := h.stands.reading_of_chunk hchunk
    hempty hentry hm (h.stocked.represents j entry m hentry hm) hskip
  have hlen : m.data.length = m.size := hhonest m (List.mem_of_getElem? hm)
  have hbounded := hdata.bounded
  have hskipping := hdata.skipping
  rcases hretried with hbase | ⟨_, hne⟩
  · omega
  · exact absurd hlen hne

/-- A turn that goes on at a central header has read the source of its entry, if it needed the
    CRC. -/
theorem readIteration_cdFileHeader (sizes : Sizes) (ctx : E.Context) (fuel initialRemaining : Nat)
    (h : Hardened a s) (hchunk : s.readState.currentChunk = .cdFileHeader i)
    (hempty : s.readState.stagingBuffer = [])
    (hskip : s.readState.toSkip < (segmentOf H a.members (.cdFileHeader i)).size)
    (hslot : s.pinned.slot = .nothing) (hentry : s.entries[i]? = some entry)
    (hnone : entry.crc32 = none) (hsize : entry.size ≠ 0) :
    (readIteration sizes ctx fuel initialRemaining).wp (fun _ => True)
      (fun answer _ => answer = .ok (.go ()) → ReadThrough E entry.data ctx (.ok ())) s := by
  have hlocated := h.located
  have hchunkSize := chunkSize_eq (H := H) h.listed hlocated (by simp [hchunk])
  unfold readIteration
  rw [wp_get_bind, if_neg (by simpa using hempty), if_neg (by simp [hchunk]), wp_bind, wp_lift,
    hchunkSize]
  simp only [Exec.wp_ok, andThen]
  rw [hchunk, if_neg (by omega)]
  unfold processChunk readChunk
  rw [wp_bind, wp_get_bind, hchunk]
  simp only
  rw [zippityReady_wp, onEntry_wp hentry]
  unfold readCdFileHeader
  rw [wp_bind]
  refine wp_mono (getCrc_answers (t := ⟨s.readState, entry, s.pinned, s.output⟩) ctx fuel hslot hnone
    hsize) (fun _ hf => hf) ?_
  rintro crc t' ⟨answer, hthrough, hanswers⟩
  cases crc with
  | pending =>
    show if (Frame.restore i t' s).output.remaining = initialRemaining then _ else _
    split
    · exact fun hgo => by cases hgo
    · exact fun hgo => by cases hgo
  | err e => exact fun hgo => by cases hgo
  | ok crc =>
    have hanswers : answer = .ok () := hanswers
    rw [hanswers] at hthrough
    -- whatever comes after it
    simp only [andThen]
    refine wp_of_forall fun answer t'' => ?_
    cases answer with
    | pending =>
      dsimp only
      split
      · exact fun _ => hthrough
      · exact fun _ => hthrough
    | err e => exact fun _ => hthrough
    | ok done => exact wp_of_forall fun _ _ _ => hthrough

/-- The interruption macro never leaves the loop by a `break`. -/
theorem zippityReady_leave {α : Type} (x : FrameRead E H α) (s : Frame E H) :
    (zippityReady initialRemaining x).wp (fun _ => True)
      (fun answer _ => answer ≠ .ok .leave) s := by
  rw [zippityReady_wp]
  refine wp_of_forall fun answer s' => ?_
  cases answer with
  | ok a => simp
  | err e => simp
  | pending =>
    dsimp only
    split
    · simp
    · simp

/-- A chunk is left by a `break` only if it is entry data, after something was written. -/
theorem readChunk_leave (sizes : Sizes) (ctx : E.Context) (fuel initialRemaining : Nat)
    (s : Frame E H) :
    (readChunk sizes ctx fuel initialRemaining).wp (fun _ => True) (fun answer _ =>
      answer = .ok .leave → s.output.remaining ≠ initialRemaining ∧
        ∃ j, s.readState.currentChunk = .entryData j) s := by
  have hready : ∀ x : FrameRead E H Bool, (zippityReady initialRemaining x).wp (fun _ => True)
      (fun answer _ => answer = .ok .leave → s.output.remaining ≠ initialRemaining ∧
        ∃ j, s.readState.currentChunk = .entryData j) s := fun x =>
    wp_mono (zippityReady_leave x s) (fun _ hf => hf) fun _ _ hne hleave => absurd hleave hne
  unfold readChunk
  rw [wp_get_bind]
  cases hchunk : s.readState.currentChunk with
  | localHeader i =>
    simp only
    rw [wp_bind]
    refine wp_of_forall fun answer s' => ?_
    cases answer with
    | ok _ => exact fun hleave => by cases hleave
    | err e => exact fun hleave => by cases hleave
    | pending => exact fun hleave => by cases hleave
  | entryData i =>
    dsimp only
    split
    · next hwritten =>
      rw [wp_bind, wp_lift]
      cases Exec.assert (s.readState.stagingBuffer = []) with
      | error f => trivial
      | ok _ => exact fun _ => ⟨hwritten, i, rfl⟩
    · rw [hchunk] at hready
      exact hready _
  | dataDescriptor i =>
    rw [hchunk] at hready
    exact hready _
  | cdFileHeader i =>
    rw [hchunk] at hready
    exact hready _
  | eocd =>
    simp only
    rw [wp_bind, wp_lift]
    cases s.readState.readEocd sizes s.entries s.output with
    | error f => trivial
    | ok written => exact fun hleave => by cases hleave
  | finished => trivial

/-- The loop is left at the end, or at entry data after something was written. -/
theorem readIteration_leave (sizes : Sizes) (ctx : E.Context) (fuel initialRemaining : Nat)
    (h : Hardened a s) :
    (readIteration sizes ctx fuel initialRemaining).wp (fun _ => True) (fun answer _ =>
      answer = .ok .leave → s.readState.currentChunk = .finished ∨
        (s.readState.stagingBuffer = [] ∧ s.output.remaining ≠ initialRemaining ∧
          s.readState.toSkip < (segmentOf H a.members s.readState.currentChunk).size ∧
          ∃ j, s.readState.currentChunk = .entryData j)) s := by
  unfold readIteration
  rw [wp_get_bind]
  by_cases hempty : s.readState.stagingBuffer = []
  · rw [if_neg (by simpa using hempty)]
    by_cases hfin : s.readState.currentChunk = .finished
    · rw [if_pos hfin]
      exact fun _ => .inl hfin
    · rw [if_neg hfin, wp_bind, wp_lift, chunkSize_eq (H := H) h.listed h.located hfin]
      simp only [Exec.wp_ok, andThen]
      by_cases hskip : s.readState.toSkip ≥ (segmentOf H a.members s.readState.currentChunk).size
      · rw [if_pos hskip, Exec.subU64_eq hskip, chunkNext_eq h.listed.length hfin]
        exact fun hleave => by cases hleave
      · rw [if_neg hskip]
        unfold processChunk
        rw [wp_bind]
        refine wp_mono (readChunk_leave sizes ctx fuel initialRemaining s) (fun _ hf => hf) ?_
        intro answer s₁ hleaves
        cases answer with
        | pending => exact fun hleave => by cases hleave
        | err e => exact fun hleave => by cases hleave
        | ok flow =>
          cases flow with
          | leave =>
            obtain ⟨hwritten, hdata⟩ := hleaves rfl
            exact fun _ => .inr ⟨hempty, hwritten, by omega, hdata⟩
          | ret => exact fun hleave => by cases hleave
          | go done =>
            simp only [andThen]
            rw [wp_bind]
            refine wp_of_forall fun answer s₂ => ?_
            cases answer with
            | ok _ => exact fun hleave => by cases hleave
            | err e => exact fun hleave => by cases hleave
            | pending => exact fun hleave => by cases hleave
  · rw [if_pos hempty, wp_bind, wp_lift]
    cases s.readState.readFromStaging s.output with
    | error f => trivial
    | ok written => exact fun hleave => by cases hleave

/-- No chunk in front of a chunk that is still ahead starts behind the place. -/
theorem Hardened.chunkStart_le {d : Chunk} (h : Hardened a s)
    (hplaced : Placed a s.entries s.readState p) (hd : d.Located a.members.length)
    (hlt : s.readState.currentChunk.rank a.members.length < d.rank a.members.length) :
    chunkStart a.members d ≤ p := by
  obtain ⟨c, hlocated, hle, hfirst⟩ := h.exists_first hplaced
  have hbehind : c.rank a.members.length < d.rank a.members.length →
      chunkStart a.members d ≤ p := by
    intro hlt
    have hend := chunkStart_add_size_le (H := H) hd hlocated hlt
    omega
  rcases hfirst with rfl | ⟨_, hsucc⟩
  · exact hbehind hlt
  · rw [← hsucc] at hlt
    rcases chunk_of_passed hlocated hd hlt with hlt | rfl
    · exact hbehind hlt
    · exact hle

/-- What the turns of a call on right data keep as long as the late header of entry `i` is ahead. -/
structure Ahead (mayFail : Prop) (a : Archive) (r : Reader E H) (room i : Nat)
    (entry : ReaderEntry E) (s : Frame E H) : Prop where
  way : OnTheWay a r.place room s
  stream : ∃ rest, InStream mayFail a s rest
  rank : (Chunk.cdFileHeader i).rank a.members.length ≤
    s.readState.currentChunk.rank a.members.length
  kept : s.entries[i]? = some entry

/-- Data of an entry is left behind, so it is not read further. -/
theorem Ahead.data_behind (h : Ahead mayFail a r room i entry s) (hhonest : a.Honest)
    (hlisted : Listed a.members r.entries) (hlate : Late r room i entry)
    (hempty : s.readState.stagingBuffer = []) (hchunk : s.readState.currentChunk = .entryData j)
    (hskip : s.readState.toSkip < (segmentOf H a.members (.entryData j)).size) :
    s.output.remaining = room ∧ j ≠ i := by
  obtain ⟨rest, hstream⟩ := h.stream
  have hwithin := hstream.within hhonest hchunk hempty hskip
  have hbalance := h.way.balance hempty
  have hfits := h.way.fits
  have hlocated : j < a.members.length := by
    have hlocated := h.way.hardened.located
    rwa [hchunk] at hlocated
  obtain ⟨m, other, hm, hother, hdescribes, _⟩ := hlisted.exists_entry hlocated
  have hsize : (segmentOf H a.members (.entryData j)).size = other.size := by
    rw [hdescribes.size]
    simp [segmentOf, hm, Member.dataSegment]
  have hdata := hlate.data j other hother (by omega)
  rw [hlisted.chunkStart_eq] at hdata
  have hstart : chunkStart a.members (.dataDescriptor j) =
      chunkStart a.members (.entryData j) + (segmentOf H a.members (.entryData j)).size :=
    chunkStart_succ (H := H) (c := .entryData j) hlocated (by simp)
  rw [hchunk] at hbalance
  refine ⟨by omega, ?_⟩
  rintro rfl
  have hdescriptor := hlate.descriptor
  rw [hlisted.chunkStart_eq, packedSize_dataDescriptor64] at hdescriptor
  omega

/-- At the late header itself something was written, and nothing is skipped. -/
theorem Ahead.at_header (h : Ahead mayFail a r room i entry s)
    (hlisted : Listed a.members r.entries) (hlate : Late r room i entry)
    (hempty : s.readState.stagingBuffer = [])
    (hchunk : s.readState.currentChunk = .cdFileHeader i) :
    s.output.remaining ≠ room ∧ s.pinned.slot = .nothing ∧ s.readState.toSkip = 0 := by
  have hbalance := h.way.balance hempty
  have hafter := hlate.after
  rw [hlisted.chunkStart_eq] at hafter
  rw [hchunk] at hbalance
  have hwritten : s.output.remaining ≠ room := by omega
  rcases h.way.written hwritten with ⟨hslot, hunskipped⟩ | ⟨⟨j, hj⟩, _⟩
  · exact ⟨hwritten, hslot, hunskipped hempty⟩
  · rw [hchunk] at hj
    cases hj

/-- **A turn that goes on** stays ahead of the late header, or has read the source of its entry. -/
theorem Ahead.step (h : Ahead mayFail a r room i entry s) (hhonest : a.Honest)
    (hlisted : Listed a.members r.entries) (hlate : Late r room i entry)
    (hsizes : sizes = layoutSizes a.members) (hroom : 0 < s.output.remaining)
    (hrun : readIteration sizes ctx fuel room s = .ok (.ok (.go ()), s')) :
    Ahead mayFail a r room i entry s' ∨ ReadThrough E entry.data ctx (.ok ()) := by
  have hhard := h.way.hardened
  have hturn := hardTurn_of_readIteration hhard hrun
  have hgo := hturn.go rfl
  obtain ⟨bytes, hmoved⟩ := Exec.wp_of_eq_ok (readIteration_turn sizes ctx fuel room s) hrun
  have hway := h.way.step hgo hturn.step hmoved.moved
  obtain ⟨rest, hstream⟩ := h.stream
  have hstream' := hstream.turn hsizes hroom hrun
  have hi : i < a.members.length := by
    rw [← hlisted.length]
    exact (List.getElem?_eq_some_iff.mp hlate.listed).1
  have hi' : (Chunk.cdFileHeader i).Located a.members.length := hi
  -- at the header itself the source is read
  by_cases hat : s.readState.currentChunk = .cdFileHeader i ∧ s.readState.stagingBuffer = []
  · obtain ⟨hchunk, hempty⟩ := hat
    obtain ⟨_, hslot, hzero⟩ := h.at_header hlisted hlate hempty hchunk
    have hpos : 0 < (segmentOf H a.members (.cdFileHeader i)).size := by
      have hm := List.getElem?_eq_getElem hi
      simp [segmentOf, hm, Segment.plain, Member.centralBytes]
    right
    exact Exec.wp_of_eq_ok (readIteration_cdFileHeader sizes ctx fuel room hhard hchunk hempty
      (by omega) hslot h.kept hlate.unknown hlate.nonempty) hrun rfl
  · left
    refine ⟨hway, hstream', ?_, ?_⟩
    · -- it goes to the next chunk at most, and not from the header
      have hnext : s'.readState.currentChunk = s.readState.currentChunk.succ a.members.length →
          s.readState.currentChunk ≠ .cdFileHeader i →
          (Chunk.cdFileHeader i).rank a.members.length ≤
            s'.readState.currentChunk.rank a.members.length := by
        intro hchunk hne
        rw [hchunk]
        refine Chunk.rank_le_rank_succ hhard.located hi' (Nat.lt_of_le_of_ne h.rank fun heq => ?_)
        exact hne (Chunk.eq_of_rank_eq hi' hhard.located heq).symm
      cases hgo with
      | staged _ hchunk =>
        rw [hchunk]
        exact h.rank
      | skipped hempty _ _ _ hs' => exact hnext (by rw [hs']) fun hchunk => hat ⟨hchunk, hempty⟩
      | header hempty _ hchunk => exact hnext hchunk fun hchunk => hat ⟨hchunk, hempty⟩
      | data _ hchunk =>
        rw [hchunk]
        exact h.rank
      | ended hdata hchunk =>
        obtain ⟨j, hj⟩ := hdata
        exact hnext hchunk (by simp [hj])
    · -- the entry is not read before
      have hothers := Exec.wp_of_eq_ok (readIteration_others sizes ctx fuel room s) hrun
      rcases hothers i with hsame | ⟨hreads, hempty, size, hsize, hskip⟩
      · exact hsame.trans h.kept
      · exfalso
        rcases hreads with hdata | hdd | hcd
        · rw [hdata, chunkSize_eq (H := H) (c := .entryData i) hhard.listed hi (by simp)] at hsize
          have hsize := Except.ok.inj hsize
          exact (h.data_behind hhonest hlisted hlate hempty hdata (by omega)).2 rfl
        · have hbalance := h.way.balance hempty
          have hdescriptor := hlate.descriptor
          rw [hlisted.chunkStart_eq] at hdescriptor
          rw [hhard.processed (by simp [hdd]), hdd] at hbalance
          rw [hdd] at hsize
          have hsize : packedSize DataDescriptor64 = size := Except.ok.inj hsize
          omega
        · exact hat ⟨hcd, hempty⟩

/-- With the header ahead the output is not full. -/
theorem Ahead.not_full (h : Ahead mayFail a r room i entry s) (hhonest : a.Honest)
    (hlisted : Listed a.members r.entries) (hlate : Late r room i entry) :
    s.output.remaining ≠ 0 := by
  intro hfull
  have hhard := h.way.hardened
  have hi : i < a.members.length := by
    rw [← hlisted.length]
    exact (List.getElem?_eq_some_iff.mp hlate.listed).1
  have hafter := hlate.after
  have hbefore := hlate.before
  rw [hlisted.chunkStart_eq] at hafter hbefore
  have hbalance := h.way.placed.balance
  have hsettled := h.way.placed.settled
  -- the current chunk starts at the header or in front of it
  have hstart : chunkStart a.members s.readState.currentChunk ≤
      chunkStart a.members (.cdFileHeader i) := by
    have hi' : (Chunk.cdFileHeader i).Located a.members.length := hi
    rcases Nat.lt_or_eq_of_le h.rank with hlt | heq
    · have hend := chunkStart_add_size_le (H := H) hhard.located hi' hlt
      omega
    · rw [Chunk.eq_of_rank_eq hi' hhard.located heq]
  by_cases hempty : s.readState.stagingBuffer = []
  · -- what is read is not entry data, so nothing of the chunk was processed
    have hunread : ∀ j, s.readState.currentChunk = .entryData j →
        ¬ s.readState.toSkip < (segmentOf H a.members (.entryData j)).size := by
      intro j hdata hskip
      have hunwritten := (h.data_behind hhonest hlisted hlate hempty hdata hskip).1
      omega
    have hprocessed : s.readState.chunkProcessedSize = 0 := by
      by_contra hne
      obtain ⟨_, ⟨j, hj⟩, hskip⟩ := hhard.begun hne
      have hsize := chunkSize_eq (H := H) hhard.listed hhard.located (by simp [hj])
      have hlt := hskip _ hsize
      rw [hj] at hlt
      exact hunread j hj hlt
    rcases h.way.written (by omega) with ⟨_, hunskipped⟩ | ⟨⟨j, hj⟩, _, hslot⟩
    · have hzero := hunskipped hempty
      omega
    · obtain ⟨_, _, _, size, _, hsize, hlt, _⟩ := hhard.needs hslot
      rw [chunkSize_eq (H := H) hhard.listed hhard.located (by simp [hj]), hj] at hsize
      have hsize := Except.ok.inj hsize
      exact hunread j hj (by omega)
  · have hskip := hsettled hempty
    have hprocessed : s.readState.chunkProcessedSize = 0 := by
      by_contra hne
      exact hempty (hhard.begun hne).1
    omega

/-- **A loop on right data** that is left reads the sources of all late headers. -/
theorem readLoop_leave (sizes : Sizes) (ctx : E.Context) (room fuel : Nat) (hhonest : a.Honest)
    (hlisted : Listed a.members r.entries) (hlate : Late r room i entry)
    (hsizes : sizes = layoutSizes a.members) (h : Ahead mayFail a r room i entry s) :
    (readLoop sizes ctx room fuel).wp (fun _ => True)
      (fun answer _ => answer = .ok .leave → ReadThrough E entry.data ctx (.ok ())) s := by
  refine readLoop_rule (I := fun _ s => Ahead mayFail a r room i entry s ∨
    ReadThrough E entry.data ctx (.ok ())) (fun _ _ => trivial) ?_ ?_ (.inl h)
  · rintro fuel s₁ (hahead | hthrough) hroom
    · have hhard := hahead.way.hardened
      refine wp_run (wp_mono (readIteration_leave sizes ctx fuel room hhard) (fun _ hf => hf) ?_)
      intro answer s₂ hleaves hrun
      refine ⟨fun hgo => ?_, fun _ hleave => ?_⟩
      · subst hgo
        exact hahead.step hhonest hlisted hlate hsizes hroom hrun
      · exfalso
        rcases hleaves hleave with hfin | ⟨hempty, hwritten, hskip, j, hj⟩
        · have hrank := hahead.rank
          rw [hfin] at hrank
          simp [Chunk.rank] at hrank
        · rw [hj] at hskip
          exact hwritten (hahead.data_behind hhonest hlisted hlate hempty hj hskip).1
    · exact wp_of_forall fun _ _ => ⟨fun _ => .inr hthrough, fun _ _ => hthrough⟩
  · rintro fuel s₁ (hahead | hthrough) hfull _
    · exact absurd hfull (hahead.not_full hhonest hlisted hlate)
    · exact hthrough

/-- A call on right data begins in front of its late headers. -/
theorem Guarded.ahead {buf : ReadBuf} (h : Guarded a r) (hat : ReaderAt mayFail a r rest)
    (hlate : Late r buf.remaining i entry) :
    Ahead mayFail a r buf.remaining i entry (r.frame buf) := by
  have hframe : Hardened a (r.frame buf) := h.hardened.congr rfl rfl rfl
  have hlisted := h.hardened.listed
  have hi : i < a.members.length := by
    rw [← hlisted.length]
    exact (List.getElem?_eq_some_iff.mp hlate.listed).1
  refine ⟨onTheWay_start hframe h.placed_place, ⟨rest, hat.stocked, hat.stands⟩, ?_, hlate.listed⟩
  by_contra hpassed
  have hstart := hframe.chunkStart_le h.placed_place (d := .cdFileHeader i) hi (by omega)
  have hafter := hlate.after
  rw [hlisted.chunkStart_eq] at hafter
  omega

/-- **The turns of a call on right data** have read the sources of all late headers behind them. -/
theorem Guarded.readThrough_of_mem_turns {buf : ReadBuf} {turn : Nat × Frame E H}
    (h : Guarded a r) (hat : ReaderAt mayFail a r rest) (hhonest : a.Honest)
    (hlate : Late r buf.remaining i entry)
    (hmem : turn ∈ turns r.sizes ctx buf.remaining fuel (r.frame buf))
    (hpassed : turn.2.readState.currentChunk.rank a.members.length <
      (Chunk.cdFileHeader i).rank a.members.length) : ReadThrough E entry.data ctx (.ok ()) := by
  have hlisted := h.hardened.listed
  have hinv : Ahead mayFail a r buf.remaining i entry turn.2 ∨
      ReadThrough E entry.data ctx (.ok ()) := by
    refine forall_mem_turns (I := fun s => Ahead mayFail a r buf.remaining i entry s ∨
      ReadThrough E entry.data ctx (.ok ())) ?_ (.inl (h.ahead hat hlate)) turn hmem
    rintro fuel s s' (hahead | hthrough) hroom hrun
    · exact hahead.step hhonest hlisted hlate h.sizes hroom hrun
    · exact .inr hthrough
  rcases hinv with hahead | hthrough
  · have hrank := hahead.rank
    omega
  · exact hthrough

/-- **A call on right data** that succeeds has read the sources of all late headers, or was
    suspended late. -/
theorem Guarded.readThrough_of_late {buf buf' : ReadBuf} {r' : Reader E H} (h : Guarded a r)
    (hat : ReaderAt mayFail a r rest) (hhonest : a.Honest) (hlate : Late r buf.remaining i entry)
    (hpoll : r.pollRead ctx fuel buf = .ok (.ok (), r', buf')) :
    ReadThrough E entry.data ctx (.ok ()) ∨ r.SuspendsLate ctx fuel buf := by
  have hread : (read r.sizes ctx fuel).wp (fun _ => True) (fun answer _ => answer = .ok () →
      ReadThrough E entry.data ctx (.ok ()) ∨ r.SuspendsLate ctx fuel buf) (r.frame buf) := by
    unfold read
    rw [wp_get_bind, wp_bind]
    refine wp_run (wp_mono (readLoop_leave r.sizes ctx buf.remaining fuel hhonest h.hardened.listed
      hlate h.sizes (h.ahead hat hlate)) (fun _ hf => hf) ?_)
    intro answer s' hleave hrun
    obtain ⟨bytes, hstep⟩ := Exec.wp_of_eq_ok
      (readLoop_step r.sizes ctx buf.remaining fuel (r.frame buf)) hrun
    cases answer with
    | pending => exact fun hok => by cases hok
    | err e => exact fun hok => by cases hok
    | ok flow =>
      cases flow with
      | go => exact absurd rfl hstep.go
      | ret => exact fun _ => .inr (hstep.ret.mp rfl)
      | leave =>
        simp only [andThen]
        exact wp_of_forall fun _ _ _ => .inl (hleave rfl)
  unfold Reader.pollRead at hpoll
  obtain ⟨⟨answer, s'⟩, hrun, hresult⟩ := Exec.bind_eq_ok hpoll
  have hdone := Exec.wp_of_eq_ok hread hrun
  cases hresult
  exact hdone rfl

end Passing

/-! ### What the first late header answers -/

/-- The first late header whose source does not read through answers `answer`. -/
def LateAnswer (r : Reader E H) (room : Nat) (ctx : E.Context) (answer : PollResult E.Error Unit) :
    Prop :=
  answer ≠ .ok () ∧ ∃ i entry, Late r room i entry ∧ ReadThrough E entry.data ctx answer ∧
    ∀ j < i, ∀ other, Late r room j other → ReadThrough E other.data ctx (.ok ())

section Answers
variable {mayFail : Prop} {a : Archive} {r r' : Reader E H} {ctx : E.Context} {rest : Tail UInt8}
  {room fuel : Nat} {buf buf' : ReadBuf} {answer answer' : PollResult E.Error Unit}

/-- There is one such answer. -/
theorem LateAnswer.unique (h : LateAnswer r room ctx answer) (h' : LateAnswer r room ctx answer') :
    answer = answer' := by
  obtain ⟨hne, i, entry, hlate, hthrough, hfirst⟩ := h
  obtain ⟨hne', i', entry', hlate', hthrough', hfirst'⟩ := h'
  rcases Nat.lt_trichotomy i i' with hlt | rfl | hgt
  · exact absurd (hthrough.unique (hfirst' i hlt entry hlate)) hne
  · have hsame := hlate.listed.symm.trans hlate'.listed
    cases hsame
    exact hthrough.unique hthrough'
  · exact absurd (hthrough'.unique (hfirst i' hgt entry' hlate')) hne'

/-- **A computation that is interrupted late** on right data is that of the first late header which
    does not read through. -/
theorem Guarded.lateAnswer {P : PollResult (IoError E) UInt32 → Prop} (h : Guarded a r)
    (hat : ReaderAt mayFail a r rest) (hhonest : a.Honest)
    (hP : ∀ crc, P crc → Interrupts crc)
    (hlate : LateCrc P r.sizes ctx buf.remaining fuel (r.frame buf)) :
    ∃ crc answer, P crc ∧ AnswersAs crc answer ∧ LateAnswer r buf.remaining ctx answer := by
  obtain ⟨turn, hmem, hwritten, crc, hcrc, hp⟩ := hlate
  obtain ⟨i, entry, answer, hchunk, hlate, hthrough, hanswers⟩ :=
    h.exists_late hmem hwritten hcrc (hP crc hp)
  have hne : answer ≠ .ok () := by
    have hinterrupts := hP crc hp
    cases crc with
    | pending =>
      have hanswers : answer = .pending := hanswers
      simp [hanswers]
    | err e =>
      obtain ⟨cause, _, hanswers⟩ := hanswers
      simp [hanswers]
    | ok crc => exact hinterrupts.elim
  refine ⟨crc, answer, hp, hanswers, hne, i, entry, hlate, hthrough, ?_⟩
  intro j hj other hother
  refine h.readThrough_of_mem_turns hat hhonest hother hmem ?_
  have hi : i < a.members.length := by
    rw [← h.hardened.listed.length]
    exact (List.getElem?_eq_some_iff.mp hlate.listed).1
  simp only [hchunk, Chunk.rank]
  omega

end Answers

end Model

end Zippity
