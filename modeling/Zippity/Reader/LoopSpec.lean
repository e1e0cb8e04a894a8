import Zippity.Reader.Standing

/-! # What the read loop does

    One turn of the loop moves a frame along the stream of its archive; a call
    of `read` is some of these turns.  `Outcome` says for every answer where the
    frame stands then.
-/

namespace Zippity

open Framework Async
open Exec (u64Bound addU64 subU64 assert)

section Model
variable {E : EntryData} {H : Crc32Fast}

/-! ### Calls with an entry -/

theorem onEntry_wp {α : Type} {i : Nat} {x : EntryRead E H α} {s : Frame E H} {entry : ReaderEntry E}
    {F : Fault → Prop} {Q : PollResult (IoError E) α → Frame E H → Prop}
    (h : s.entries[i]? = some entry) :
    (onEntry i x).wp F Q s ↔
      x.wp F (fun r t => Q r (Frame.restore i t s)) ⟨s.readState, entry, s.pinned, s.output⟩ := by
  unfold onEntry
  rw [wp_zoom, Frame.borrow, entryAt_eq h]
  rfl

theorem zippityReady_wp {α : Type} {initialRemaining : Nat} {x : FrameRead E H α} {s : Frame E H}
    {F : Fault → Prop} {Q : PollResult (IoError E) (Flow α) → Frame E H → Prop} :
    (zippityReady initialRemaining x).wp F Q s ↔ x.wp F (fun r s' =>
      match r with
      | .ok a => Q (.ok (.go a)) s'
      | .err e => Q (.err e) s'
      | .pending => if s'.output.remaining = initialRemaining then Q .pending s'
        else Q (.ok .ret) s') s := by
  unfold zippityReady
  rw [wp_bind, wp_answer]
  refine iff_of_eq (congrArg (fun Q => x.wp F Q s) (funext fun r => funext fun s' => ?_))
  cases r with
  | ok a => rfl
  | err e => rfl
  | pending =>
    simp only [andThen, wp_get_bind]
    split <;> rfl

/-! ### Outcomes -/

/-- Where a turn of the loop, or the whole loop, leaves a frame.  `go` is an answer of a turn
    only. -/
inductive Outcome (mayFail : Prop) (a : Archive) (initialRemaining : Nat) (s : Frame E H)
    (rest : Tail UInt8) : PollResult (IoError E) (Flow Unit) → Frame E H → Prop where
  | go {s' : Frame E H} {bytes : List UInt8} {rest' : Tail UInt8}
    (h : Progress mayFail a s rest bytes s' rest')
    (hrank : s'.readState.currentChunk.rank a.members.length + s'.output.remaining <
      s.readState.currentChunk.rank a.members.length + s.output.remaining) :
    Outcome mayFail a initialRemaining s rest (.ok (.go ())) s'
  /-- The loop ends: with nothing written only at the end of the stream. -/
  | leave {s' : Frame E H} {bytes : List UInt8} {rest' : Tail UInt8}
    (h : Progress mayFail a s rest bytes s' rest')
    (hend : 0 < initialRemaining → s'.output.remaining = initialRemaining → rest' = .done) :
    Outcome mayFail a initialRemaining s rest (.ok .leave) s'
  | ret {s' : Frame E H} {bytes : List UInt8} {rest' : Tail UInt8}
    (h : Progress mayFail a s rest bytes s' rest')
    (hwritten : s'.output.remaining ≠ initialRemaining) :
    Outcome mayFail a initialRemaining s rest (.ok .ret) s'
  | pending {s' : Frame E H} {bytes : List UInt8} {rest' : Tail UInt8}
    (h : Progress mayFail a s rest bytes s' rest')
    (hunwritten : s'.output.remaining = initialRemaining) :
    Outcome mayFail a initialRemaining s rest .pending s'
  | failed {s' : Frame E H} {bytes : List UInt8} {rest' : Tail UInt8} (e : E.Error)
    (hfail : mayFail) (h : Progress mayFail a s rest bytes s' rest') :
    Outcome mayFail a initialRemaining s rest (.err (.entry e)) s'
  | crcMismatch {s' : Frame E H} {bytes : List UInt8} {rest' : Tail UInt8} {m : Member}
    (hm : m ∈ a.members) (hcrc : m.crc ≠ H.hash m.data)
    (h : Progress mayFail a s rest bytes s' rest')
    (hunwritten : s'.output.remaining = initialRemaining) :
    Outcome mayFail a initialRemaining s rest
      (.err (.read (.crc32Mismatch m.name m.crc (H.hash m.data)))) s'
  /-- The stream halted; another attempt at the data follows. -/
  | sizeMismatch {s' : Frame E H} {bytes : List UInt8} {rest' : Tail UInt8} {m : Member}
    {actual : Nat} (hm : m ∈ a.members) (hsize : m.data.length ≠ m.size)
    (houtput : s.output.Extends bytes s'.output) (hstream : rest = .cons bytes .halted)
    (hstanding : InStream mayFail a s' rest') (hcaches : Caches s.entries s'.entries)
    (hposition : s'.readState.position = s.readState.position)
    (hnonempty : LogsNonempty a.members s.pinned.opened s'.pinned.opened)
    (hdata : ∃ i, InData a s'.readState i m) :
    Outcome mayFail a initialRemaining s rest
      (.err (.read (.sizeMismatch m.name m.size actual))) s'

section Rules
variable {mayFail long starved : Prop} {a : Archive} {initialRemaining : Nat} {s s' : Frame E H}
  {rest rest' : Tail UInt8} {bytes : List UInt8}

/-- What happens after some progress happened since before it. -/
theorem Outcome.after {r : PollResult (IoError E) (Flow Unit)} {s'' : Frame E H}
    (h : Outcome mayFail a initialRemaining s' rest' r s'')
    (hprogress : Progress mayFail a s rest bytes s' rest')
    (hrank : s'.readState.currentChunk.rank a.members.length + s'.output.remaining <
      s.readState.currentChunk.rank a.members.length + s.output.remaining) :
    Outcome mayFail a initialRemaining s rest r s'' := by
  cases h with
  | go h hrank' => exact .go (hprogress.trans h) (by omega)
  | leave h hend => exact .leave (hprogress.trans h) hend
  | ret h hwritten => exact .ret (hprogress.trans h) hwritten
  | pending h hunwritten => exact .pending (hprogress.trans h) hunwritten
  | failed e hfail h => exact .failed e hfail (hprogress.trans h)
  | crcMismatch hm hcrc h hunwritten =>
    exact .crcMismatch hm hcrc (hprogress.trans h) hunwritten
  | sizeMismatch hm hsize houtput hstream hstanding hcaches hposition hnonempty hdata =>
    exact .sizeMismatch hm hsize (hprogress.output.trans houtput)
      (by rw [hprogress.stream, hstream, Tail.cons_append]) hstanding
      (hprogress.caches.trans hcaches) (hposition.trans hprogress.position)
      (hprogress.nonempty.trans hnonempty) hdata

/-! ### Headers -/

/-- After a header was written the frame stands behind it. -/
theorem Written.stands (mayFail : Prop) (entries : List (ReaderEntry E)) {rs₀ rs : ReadState}
    {output₀ output : ReadBuf} {k : Nat} {header appended : List UInt8}
    (h : Written k rs₀ output₀ header rs output appended) (hk : k < header.length)
    (hlen : header.length < 2 ^ 63) {c : Chunk} (hc : c.Located a.members.length)
    (hheader : c.IsHeader) (hsegment : segmentOf H a.members c = .plain header) :
    ∃ rest', Stands H mayFail a entries { rs with
          currentChunk := c.succ a.members.length, chunkProcessedSize := 0 } .nothing rest' ∧
      .cons (header.drop k) (tailAt (segmentsFrom H a.members (c.succ a.members.length)) 0) =
        Tail.cons appended rest' := by
  have hnext := Chunk.succ_located hc
  by_cases hempty : rs.stagingBuffer = []
  · refine ⟨_, .ready hnext rfl hempty, ?_⟩
    have hskip : rs.toSkip = 0 := by
      have := h.unstaged hempty
      omega
    have hbytes := h.bytes
    rw [hempty, List.drop_nil, List.append_nil] at hbytes
    rw [hbytes]
    simp only [hskip]
  · obtain ⟨hlt, hle, _⟩ := h.staged hempty
    have hends : rs.stagingBuffer <:+ (segmentOf H a.members c).items := by
      rw [hsegment]
      exact h.suffix
    refine ⟨_, .staged hnext rfl hlt (by simp only; omega) ⟨c, hheader, hc, rfl, hends⟩, ?_⟩
    rw [← h.bytes, Tail.cons_append]

theorem writeHeader_wp {write : EntryFrame E H → Exec (ReadState × ReadBuf)} {t : EntryFrame E H}
    {F : Fault → Prop} {Q : PollResult (IoError E) Unit → EntryFrame E H → Prop} :
    (writeHeader write).wp F Q t ↔
      (write t).wp F (fun (rs, output) => Q (.ok ()) { t with readState := rs, output }) := by
  unfold writeHeader
  rw [wp_get_bind, wp_bind, wp_lift]
  rfl

/-- A chunk that is done is followed by the next one. -/
theorem finishChunk_wp {size : Nat} {F : Fault → Prop}
    {Q : PollResult (IoError E) Unit → Frame E H → Prop}
    (hsize : s.readState.chunkProcessedSize = size)
    (hlen : s.entries.length = a.members.length) (hfin : s.readState.currentChunk ≠ .finished) :
    (finishChunk size true).wp F Q s ↔ Q (.ok ()) { s with
      readState.currentChunk := s.readState.currentChunk.succ a.members.length
      readState.chunkProcessedSize := 0 } := by
  unfold finishChunk
  rw [if_pos rfl, wp_get_bind, Exec.assert_eq hsize, chunkNext_eq hlen hfin]
  rfl

/-- A header was written as a whole: the chunk is done. -/
theorem finishHeader_wp {rs : ReadState} {output : ReadBuf} {opened : List Name}
    {entries : List (ReaderEntry E)} {header appended : List UInt8} {F : Fault → Prop}
    (hwritten : Written s.readState.toSkip s.readState s.output header rs output appended)
    (hprocessed : s.readState.chunkProcessedSize = 0)
    (hlocated : s.readState.currentChunk.Located a.members.length)
    (hheader : s.readState.currentChunk.IsHeader)
    (hsegment : segmentOf H a.members s.readState.currentChunk = .plain header)
    (hskip : s.readState.toSkip < header.length) (hlen : header.length < 2 ^ 63)
    (hrest : rest = tailAt (segmentsFrom H a.members s.readState.currentChunk) s.readState.toSkip)
    (hstocked : Stocked H mayFail a.members entries) (hcaches : Caches s.entries entries)
    (hlogs : ∀ s' : Frame E H, s'.entries = entries → s'.pinned = ⟨.nothing, opened⟩ →
      s'.readState.currentChunk = s.readState.currentChunk.succ a.members.length →
      Logs a.members s s')
    (hnonempty : LogsNonempty a.members s.pinned.opened opened) :
    (finishChunk header.length true >>= fun _ => pure (.go ())).wp F
      (Outcome mayFail a initialRemaining s rest) ⟨rs, entries, ⟨.nothing, opened⟩, output⟩ := by
  have hchunk := hwritten.chunk
  have hfin := hheader.ne_finished
  have hlen' : rs.chunkProcessedSize = header.length := by
    have := hwritten.processed
    omega
  have hfin' : rs.currentChunk ≠ .finished := by rw [hchunk]; exact hfin
  rw [wp_bind, finishChunk_wp hlen' hstocked.length hfin']
  simp only [hchunk]
  -- what is staged of the header now is in front of the chunks behind it
  obtain ⟨rest', hstands, hstream⟩ :=
    hwritten.stands (H := H) mayFail entries hskip hlen hlocated hheader hsegment
  have hprogress : Progress mayFail a s rest appended ⟨{ rs with
      currentChunk := s.readState.currentChunk.succ a.members.length, chunkProcessedSize := 0 },
      entries, ⟨.nothing, opened⟩, output⟩ rest' := by
    refine ⟨hwritten.output, ?_, ⟨hstocked, hstands⟩, hcaches, hwritten.position,
      hlogs _ rfl rfl rfl, hnonempty⟩
    rw [hrest, segmentsFrom_eq_cons hlocated hfin, hsegment, tailAt_enter hskip, ← hstream]
    rfl
  have hrank := Chunk.rank_succ_lt hlocated hfin
  have hroom := hwritten.output.remaining
  exact .go hprogress (by simp only; omega)

/-! ### The chunks -/

/-- The bound on the length of a header. -/
theorem length_header_lt {m : Member} (h : m.name.length < 65536) :
    m.localBytes.length < 2 ^ 63 ∧ m.descriptorBytes.length < 2 ^ 63 ∧
      m.centralBytes.length < 2 ^ 63 := by
  simp only [Member.length_localBytes, Member.localSize, Member.length_descriptorBytes,
    Member.descriptorSize, Member.length_centralBytes, Member.centralSize]
  omega

theorem set_of_getElem? {entries : List (ReaderEntry E)} {i : Nat} {entry : ReaderEntry E}
    (h : entries[i]? = some entry) : entries.set i entry = entries := by
  obtain ⟨hi, rfl⟩ := List.getElem?_eq_some_iff.mp h
  exact List.set_getElem_self hi

/-- Local headers. -/
theorem processChunk_localHeader_wp {sizes : Sizes} {ctx : E.Context} {fuel i : Nat} {m : Member}
    {F : Fault → Prop} (h : InStream mayFail a s rest)
    (hchunk : s.readState.currentChunk = .localHeader i) (hempty : s.readState.stagingBuffer = [])
    (hm : a.members[i]? = some m) (hskip : s.readState.toSkip < m.localBytes.length) :
    (processChunk sizes ctx fuel initialRemaining m.localBytes.length).wp F
      (Outcome mayFail a initialRemaining s rest) s := by
  obtain ⟨entry, hentry, hrep⟩ := h.stocked.entry hm
  obtain ⟨hprocessed, hslot, hrest⟩ := h.stands.ready_of_chunk hempty (.inl ⟨i, hchunk⟩)
  have hname := a.names m (List.mem_of_getElem? hm)
  have hlen := (length_header_lt hname).1
  -- what matters of the pieces is that together they are the header
  have hwrite : ∃ pieces, pieces.flatten = m.localBytes ∧
      s.readState.readLocalHeader entry s.output = writePieces s.readState s.output pieces := by
    refine ⟨_, ?_, readLocalHeader_eq (by rw [hrep.name]; exact hname)⟩
    simp [Member.localBytes, Member.nameLen, hrep.name, hrep.datetime, hrep.offset]
  obtain ⟨pieces, hpieces, hwrite⟩ := hwrite
  unfold processChunk readChunk
  rw [wp_bind, wp_get_bind, hchunk]
  show Async.wp (onEntry i _ >>= _) _ _ _
  rw [wp_bind, onEntry_wp hentry, writeHeader_wp]
  simp only [hwrite]
  apply writePieces_wp m.localBytes hpieces hempty hprocessed hlen
  intro rs output appended hwritten
  have hfinish : (finishChunk m.localBytes.length true >>= fun _ => pure (.go ())).wp F
      (Outcome mayFail a initialRemaining s rest)
      ⟨rs, s.entries, ⟨.nothing, s.pinned.opened⟩, output⟩ :=
    finishHeader_wp hwritten hprocessed h.stands.located (by simp [hchunk, Chunk.IsHeader])
      (by simp [hchunk, segmentOf, hm]) hskip hlen hrest h.stocked (.refl _)
      (fun s' hentries hpinned hnext => .idle_succ hslot hentries (by rw [hpinned, ← hslot]) hnext)
      (.refl _)
  rw [← hslot] at hfinish
  simp only [andThen, wp_pure, Frame.restore, set_of_getElem? hentry]
  exact hfinish

/-- The chunks with a CRC: `get_crc`, then the header. -/
theorem processChunk_crc_wp {ctx : E.Context} {fuel i : Nat} {m : Member} {header : List UInt8}
    (write : UInt32 → EntryFrame E H → Exec (ReadState × ReadBuf))
    (h : InStream mayFail a s rest)
    (hchunk : s.readState.currentChunk = .dataDescriptor i ∨
      s.readState.currentChunk = .cdFileHeader i)
    (hempty : s.readState.stagingBuffer = []) (hm : a.members[i]? = some m)
    (hsegment : segmentOf H a.members s.readState.currentChunk = .plain header)
    (hskip : s.readState.toSkip < header.length) (hlen : header.length < 2 ^ 63)
    (hwrite : ∀ t : EntryFrame E H, Represents H mayFail t.entry m →
      ∃ pieces, pieces.flatten = header ∧ write m.crc t = writePieces t.readState t.output pieces)
    (hfuel : ¬ starved → m.data.length < fuel) :
    (zippityReady initialRemaining (onEntry i (do
        let crc32 ← getCrc ctx fuel
        writeHeader (write crc32)
        pure true)) >>= fun flow => match flow with
      | .go chunkDone => do
        finishChunk header.length chunkDone
        pure (.go ())
      | .leave => pure .leave
      | .ret => pure .ret).wp (Excused mayFail long starved)
      (Outcome mayFail a initialRemaining s rest) s := by
  obtain ⟨entry, hentry, hrep⟩ := h.stocked.entry hm
  obtain ⟨hprocessed, hslot, hrest⟩ := h.stands.hashSlot_of_chunk hchunk hempty hentry hm
  have hreads : s.readState.currentChunk.Reads i := .inr hchunk
  have hmem := List.mem_of_getElem? hm
  rw [wp_bind, zippityReady_wp, onEntry_wp hentry, wp_bind]
  refine getCrc_wp hrep hslot hfuel ?_ ?_
  · -- the CRC is known: write the header
    intro opened hopened
    simp only [andThen]
    rw [wp_bind, writeHeader_wp]
    obtain ⟨pieces, hpieces, heq⟩ := hwrite ⟨s.readState, { entry with crc32 := some m.crc },
      ⟨.nothing, opened⟩, s.output⟩ hrep.setCrc
    rw [heq]
    refine writePieces_wp header hpieces hempty hprocessed hlen ?_
    intro rs output appended hwritten
    have hheader : s.readState.currentChunk.IsHeader := by
      rcases hchunk with hc | hc <;> simp [hc, Chunk.IsHeader]
    -- the entry keeps its CRC from here on
    have hcaches := h.stocked.caches_setCrc hentry hm (.inr rfl)
    refine finishHeader_wp hwritten hprocessed h.stands.located hheader hsegment hskip hlen hrest
      (h.stocked.setCrc hentry hm (.inr rfl)) hcaches ?_ ?_
    · intro s' hentries hpinned hnext
      have hentry' : s'.entries[i]? = some { entry with crc32 := some m.crc } := by
        rw [hentries]
        exact List.getElem?_set_self (List.getElem?_eq_some_iff.mp hentry).1
      have hclosed : Touched s' i :=
        .closed hentry' (by simp) (by rw [hnext]; exact hreads.pastData_succ _)
      refine .used hm hreads hclosed (by rw [hentries]; exact hcaches)
        (fun j hj => by rw [hnext]; exact hj.succ _) ?_
      rw [hpinned, ← hrep.name]
      rcases hopened with hsame | ⟨hnone, _, hlogged⟩
      · exact .inl hsame
      · exact .inr ⟨.inr ⟨entry, hentry, hnone⟩, hlogged⟩
    · rcases hopened with hsame | ⟨_, hsize, hlogged⟩
      · rw [hsame]
        exact .refl _
      · rw [hlogged, hrep.name]
        exact .logged hmem hsize s.pinned
  · -- interrupted: the same chunk is still in front
    intro r slot n hr hcrc hsize hslot' hne
    have hstands : Stands H mayFail a s.entries s.readState slot rest := by
      rw [hrest]
      refine .hashing hchunk hprocessed hempty hentry hm hcrc hsize hslot' ?_
      rw [hsegment]
      exact hskip
    have hprogress : Progress mayFail a s rest []
        ⟨s.readState, s.entries, ⟨slot, s.pinned.logged entry.name⟩, s.output⟩ rest := by
      refine ⟨.refl _, by simp, ⟨h.stocked, hstands⟩, .refl _, rfl, ?_, ?_⟩
      · refine .used hm hreads (.opened hne hreads) (.refl _) (fun _ hj => hj) ?_
        rw [← hrep.name]
        exact .inr ⟨.inr ⟨entry, hentry, hcrc⟩, rfl⟩
      · rw [hrep.name]
        exact .logged hmem hsize s.pinned
    cases hr with
    | pending =>
      simp only [andThen, Frame.restore, set_of_getElem? hentry]
      split
      · next hroom => exact .pending hprogress hroom
      · next hroom => exact .ret hprogress hroom
    | failed e hfail =>
      simp only [andThen, Frame.restore, set_of_getElem? hentry]
      exact .failed e hfail hprogress

/-- Entry data. -/
theorem processChunk_entryData_wp {sizes : Sizes} {ctx : E.Context} {fuel i : Nat} {m : Member}
    (h : InStream mayFail a s rest) (hchunk : s.readState.currentChunk = .entryData i)
    (hempty : s.readState.stagingBuffer = []) (hm : a.members[i]? = some m)
    (hskip : s.readState.toSkip < m.size) (hsize : m.size < u64Bound)
    (hroom : 0 < s.output.remaining) (hfuel : ¬ starved → m.data.length < fuel)
    (hlong : ¬ long → m.Honest) :
    (processChunk sizes ctx fuel initialRemaining m.size).wp (Excused mayFail long starved)
      (Outcome mayFail a initialRemaining s rest) s := by
  obtain ⟨entry, hentry, hrep⟩ := h.stocked.entry hm
  obtain ⟨base, k, n, hk, hbase, hretried, hshort, hdata, hrest⟩ :=
    h.stands.reading_of_chunk hchunk hempty hentry hm hrep hskip
  have hreads : s.readState.currentChunk.Reads i := .inl hchunk
  have hmem := List.mem_of_getElem? hm
  have hlong' : ¬ long → base = 0 ∧ m.data.length < u64Bound := by
    intro hnot
    have hhonest : m.data.length = m.size := hlong hnot
    rcases hretried with hzero | ⟨_, hne⟩
    · exact ⟨hzero, by omega⟩
    · exact absurd hhonest hne
  unfold processChunk readChunk
  rw [wp_bind, wp_get_bind, hchunk]
  simp only
  by_cases hwritten : s.output.remaining = initialRemaining
  · rw [if_neg (by simpa using hwritten), zippityReady_wp, onEntry_wp hentry]
    refine wp_mono (readEntryData_wp (n := n) hrep hbase hretried hdata hk hsize hroom hfuel hlong')
      (fun _ hf => hf) ?_
    intro r t houtcome
    -- a state in which the same data is still read
    have hstands : ∀ (slot : ReaderPinned E H) (n' toSkip : Nat),
        DataStands mayFail entry m k n' toSkip slot →
        Stands H mayFail a s.entries { s.readState with
          chunkProcessedSize := base + n', toSkip := toSkip } slot
          (.cons (m.data.drop (n' + toSkip)) (if m.haltsFrom H base k then .halted
            else tailAt (segmentsFrom H a.members (.dataDescriptor i)) 0)) :=
      fun slot n' toSkip hdata' => .reading hchunk hempty hentry hm hk rfl hretried hshort hdata'
    have hnonempty : LogsNonempty a.members s.pinned.opened (s.pinned.logged entry.name) := by
      rw [hrep.name]
      exact .logged hmem (by omega) s.pinned
    have hlogs : ∀ s' : Frame E H, s'.entries = s.entries → s'.pinned.slot ≠ .nothing →
        s'.pinned.opened = s.pinned.logged entry.name →
        s'.readState.currentChunk = s.readState.currentChunk → Logs a.members s s' := by
      intro s' hentries hne hopened hsame
      refine .used hm hreads (.opened hne (by rw [hsame]; exact hreads))
        (by rw [hentries]; exact .refl _) (fun j hj => by rw [hsame]; exact hj) ?_
      rw [← hrep.name]
      exact .inr ⟨.inl hchunk, hopened⟩
    cases houtcome with
    | @interrupted _ slot n' toSkip hr hne hdata' hsum =>
      have hprogress : Progress mayFail a s rest [] ⟨{ s.readState with
          chunkProcessedSize := base + n', toSkip := toSkip }, s.entries,
          ⟨slot, s.pinned.logged entry.name⟩, s.output⟩ rest := by
        refine ⟨.refl _, by simp, ⟨h.stocked, ?_⟩, .refl _, rfl, hlogs _ rfl hne rfl rfl, hnonempty⟩
        have hsum' : n' + toSkip = n + s.readState.toSkip := hsum
        rw [hrest, ← hsum']
        exact hstands slot n' toSkip hdata'
      cases hr with
      | pending =>
        simp only [Frame.restore, set_of_getElem? hentry, hwritten, if_true]
        exact .pending hprogress hwritten
      | failed e hfail =>
        simp only [Frame.restore, set_of_getElem? hentry]
        exact .failed e hfail hprogress
    | @more bytes output slot n' hext hne hbytes hslot hdata' =>
      simp only [andThen, Frame.restore, set_of_getElem? hentry]
      have hprogress : Progress mayFail a s rest bytes ⟨{ s.readState with
          chunkProcessedSize := base + n', toSkip := 0 }, s.entries,
          ⟨slot, s.pinned.logged entry.name⟩, output⟩
          (.cons (m.data.drop n') (if m.haltsFrom H base k then .halted
            else tailAt (segmentsFrom H a.members (.dataDescriptor i)) 0)) := by
        refine ⟨hext, ?_, ⟨h.stocked, hstands slot n' 0 hdata'⟩, .refl _, rfl,
          hlogs _ rfl hslot rfl rfl, hnonempty⟩
        have hbytes' : m.data.drop (n + s.readState.toSkip) = bytes ++ m.data.drop n' := hbytes
        rw [hrest, hbytes', Tail.cons_append]
      have hlen : output.remaining + bytes.length = s.output.remaining := hext.remaining
      have hpos := List.length_pos_iff.mpr hne
      exact .go hprogress (by simp only; omega)
    | done hnil hhalts =>
      have hlocated' := Chunk.succ_located h.stands.located
      rw [hchunk] at hlocated'
      have hstocked := h.stocked.setCrc hentry hm (.inr rfl)
      have hcaches := h.stocked.caches_setCrc hentry hm (.inr rfl)
      have hfinish : (finishChunk m.size true >>= fun _ => pure (.go ())).wp
          (Excused mayFail long starved) (Outcome mayFail a initialRemaining s rest)
          ⟨{ s.readState with chunkProcessedSize := m.size, toSkip := 0 },
            s.entries.set i { entry with crc32 := some m.crc },
            ⟨.nothing, s.pinned.logged entry.name⟩, s.output⟩ := by
        rw [wp_bind]
        refine (finishChunk_wp rfl hstocked.length (by simp [hchunk])).mpr ?_
        simp only [hchunk]
        have hstream : rest =
            .cons [] (tailAt (segmentsFrom H a.members (.dataDescriptor i)) 0) := by
          have hnil' : m.data.drop (n + s.readState.toSkip) = [] := hnil
          rw [hrest, hnil', hhalts]
          simp
        refine .go ⟨.refl _, hstream, ⟨hstocked, .ready hlocated' rfl hempty⟩, hcaches, rfl, ?_,
          hnonempty⟩ ?_
        · have hpast := hreads.pastData_succ a.members.length
          rw [hchunk] at hpast
          refine .used hm hreads (.closed (List.getElem?_set_self
            (List.getElem?_eq_some_iff.mp hentry).1) (by simp) hpast) hcaches ?_ ?_
          · intro j hj
            rw [hchunk] at hj
            exact hj.succ a.members.length
          · rw [← hrep.name]
            exact .inr ⟨.inl hchunk, rfl⟩
        · simp only [hchunk, Chunk.succ, Chunk.rank]
          omega
      exact hfinish
    | @crcMismatch slot n' toSkip hz hcrc hne hdata' hsum =>
      simp only [andThen, Frame.restore, set_of_getElem? hentry]
      have hstands' := hstands slot n' toSkip hdata'
      have hsum' : n' + toSkip = n + s.readState.toSkip := hsum
      rw [hsum', ← hrest] at hstands'
      exact .crcMismatch (List.mem_of_getElem? hm) hcrc
        ⟨.refl _, (Tail.cons_nil rest).symm, ⟨h.stocked, hstands'⟩, .refl _, rfl,
          hlogs _ rfl hne rfl rfl, hnonempty⟩ hwritten
    | @sizeMismatch n' toSkip hnil htotal hskip' hsum =>
      simp only [andThen, Frame.restore]
      have hlen := hretried.length_ne hk htotal
      have hstocked := h.stocked.setCrc hentry hm (.inr rfl)
      have hentry' : (s.entries.set i { entry with crc32 := some m.crc })[i]? =
          some { entry with crc32 := some m.crc } :=
        List.getElem?_set_self (List.getElem?_eq_some_iff.mp hentry).1
      have hstream : rest = .cons [] .halted := by
        have hnil' : m.data.drop (n + s.readState.toSkip) = [] := hnil
        have hhalts : m.haltsFrom H base k = true := by simp [Member.haltsFrom, htotal]
        rw [hrest, hnil', hhalts]
        rfl
      -- without data nothing but the skip is counted, in whatever attempt
      have hshort' : m.data = [] → base + n' + toSkip < m.size := by
        intro hnone
        have hsum' : n' + toSkip = n + s.readState.toSkip := hsum
        have := hdata.sum_eq hnone
        have := hshort hnone
        omega
      -- the next poll makes another attempt, which enters the data where the skip stopped
      have hagain : Stands H mayFail a (s.entries.set i { entry with crc32 := some m.crc })
          { s.readState with chunkProcessedSize := base + n', toSkip := toSkip } .nothing
          (.cons (m.data.drop (0 + toSkip)) (if m.haltsFrom H (base + n') toSkip then .halted
            else tailAt (segmentsFrom H a.members (.dataDescriptor i)) 0)) :=
        .reading hchunk hempty hentry' hm hskip' rfl (.inr ⟨by simp, hlen⟩) hshort'
          (.start _ (hstocked.represents i _ m hentry' hm).delivers)
      exact .sizeMismatch (List.mem_of_getElem? hm) hlen (.refl _) hstream ⟨hstocked, hagain⟩
        (h.stocked.caches_setCrc hentry hm (.inr rfl)) rfl hnonempty
        ⟨i, hchunk, hempty, hm, hskip'⟩
  · rw [if_pos hwritten, hempty, Exec.assert_eq rfl]
    exact .leave (.refl h) (fun _ hsame => absurd hsame hwritten)

/-- The end of central directory. -/
theorem processChunk_eocd_wp {sizes : Sizes} {ctx : E.Context} {fuel : Nat} {F : Fault → Prop}
    (hsizes : sizes = layoutSizes a.members) (h : InStream mayFail a s rest)
    (hchunk : s.readState.currentChunk = .eocd) (hempty : s.readState.stagingBuffer = [])
    (hskip : s.readState.toSkip < (eocdBytes a.members).length) :
    (processChunk sizes ctx fuel initialRemaining (eocdBytes a.members).length).wp F
      (Outcome mayFail a initialRemaining s rest) s := by
  obtain ⟨hprocessed, hslot, hrest⟩ := h.stands.ready_of_chunk hempty (.inr (.inl hchunk))
  have hlen : (eocdBytes a.members).length < 2 ^ 63 := by rw [length_eocdBytes]; decide
  have hwrite : ∃ pieces, pieces.flatten = eocdBytes a.members ∧
      s.readState.readEocd sizes s.entries s.output =
        writePieces s.readState s.output pieces := by
    refine ⟨_, ?_, readEocd_eq⟩
    simp [eocdBytes, hsizes, h.stocked.length]
  obtain ⟨pieces, hpieces, hwrite⟩ := hwrite
  unfold processChunk readChunk
  rw [wp_bind, wp_get_bind, hchunk]
  simp only
  rw [wp_bind, wp_lift, hwrite]
  apply writePieces_wp (eocdBytes a.members) hpieces hempty hprocessed hlen
  intro rs output appended hwritten
  have hfinish : (finishChunk (eocdBytes a.members).length true >>= fun _ => pure (.go ())).wp F
      (Outcome mayFail a initialRemaining s rest)
      ⟨rs, s.entries, ⟨.nothing, s.pinned.opened⟩, output⟩ :=
    finishHeader_wp hwritten hprocessed h.stands.located (by simp [hchunk, Chunk.IsHeader])
      (by simp [hchunk, segmentOf]) hskip hlen hrest h.stocked (.refl _)
      (fun s' hentries hpinned hnext => .idle_succ hslot hentries (by rw [hpinned, ← hslot]) hnext)
      (.refl _)
  rw [← hslot] at hfinish
  exact hfinish

/-- A chunk in which the position lies is read. -/
theorem processChunk_wp {sizes : Sizes} {ctx : E.Context} {fuel : Nat}
    (hsizes : sizes = layoutSizes a.members) (h : InStream mayFail a s rest)
    (hempty : s.readState.stagingBuffer = []) (hfin : s.readState.currentChunk ≠ .finished)
    (hskip : s.readState.toSkip < (segmentOf H a.members s.readState.currentChunk).size)
    (hroom : 0 < s.output.remaining)
    (hfuel : ¬ starved → ∀ m ∈ a.members, m.data.length < fuel)
    (hlong : ¬ long → ∀ m ∈ a.members, m.Honest) :
    (processChunk sizes ctx fuel initialRemaining
        (segmentOf H a.members s.readState.currentChunk).size).wp (Excused mayFail long starved)
      (Outcome mayFail a initialRemaining s rest) s := by
  have hlocated := h.stands.located
  -- one case for each kind of chunk; each stands for a segment of the stream
  cases hchunk : s.readState.currentChunk with
  | localHeader i =>
    rw [hchunk] at hlocated hskip
    have hm := List.getElem?_eq_getElem hlocated
    simp only [segmentOf, hm, Option.elim_some, Segment.plain] at hskip ⊢
    exact processChunk_localHeader_wp h hchunk hempty hm hskip
  | entryData i =>
    rw [hchunk] at hlocated hskip
    have hm := List.getElem?_eq_getElem hlocated
    have hmem := List.getElem_mem hlocated
    simp only [segmentOf, hm, Option.elim_some, Member.dataSegment] at hskip ⊢
    exact processChunk_entryData_wp h hchunk hempty hm hskip (a.size_lt hmem) hroom
      (fun hs => hfuel hs _ hmem) (fun hl => hlong hl _ hmem)
  | dataDescriptor i =>
    rw [hchunk] at hlocated hskip
    have hm := List.getElem?_eq_getElem hlocated
    have hmem := List.getElem_mem hlocated
    have hsegment : segmentOf H a.members s.readState.currentChunk =
        .plain a.members[i].descriptorBytes := by simp [hchunk, segmentOf, hm]
    simp only [segmentOf, hm, Option.elim_some, Segment.plain] at hskip ⊢
    unfold processChunk readChunk
    rw [wp_bind, wp_get_bind, hchunk]
    simp only
    rw [← wp_bind]
    refine processChunk_crc_wp (fun crc32 t =>
      t.readState.putDataDescriptor t.entry crc32 t.output) h (.inl hchunk) hempty hm hsegment hskip
      (length_header_lt (a.names _ hmem)).2.1 (fun t ht => ?_) (fun hs => hfuel hs _ hmem)
    exact ⟨_, by simp [Member.descriptorBytes, ht.size], putDataDescriptor_eq⟩
  | cdFileHeader i =>
    rw [hchunk] at hlocated hskip
    have hm := List.getElem?_eq_getElem hlocated
    have hmem := List.getElem_mem hlocated
    have hname := a.names _ hmem
    have hsegment : segmentOf H a.members s.readState.currentChunk =
        .plain a.members[i].centralBytes := by simp [hchunk, segmentOf, hm]
    simp only [segmentOf, hm, Option.elim_some, Segment.plain] at hskip ⊢
    unfold processChunk readChunk
    rw [wp_bind, wp_get_bind, hchunk]
    simp only
    rw [← wp_bind]
    refine processChunk_crc_wp (fun crc32 t =>
      t.readState.putCdFileHeader t.entry crc32 t.output) h (.inr hchunk) hempty hm hsegment hskip
      (length_header_lt hname).2.2 (fun t ht => ?_) (fun hs => hfuel hs _ hmem)
    refine ⟨_, ?_, putCdFileHeader_eq (by rw [ht.name]; exact hname)⟩
    simp [Member.centralBytes, Member.nameLen, ht.name, ht.datetime, ht.externalAttributes, ht.size,
      ht.offset]
  | eocd =>
    rw [hchunk] at hskip
    exact processChunk_eocd_wp hsizes h hchunk hempty hskip
  | finished => exact absurd hchunk hfin

/-! ### The loop -/

/-- **One turn of the loop** moves a frame along the stream. -/
theorem readIteration_wp {sizes : Sizes} {ctx : E.Context} {fuel : Nat}
    (hsizes : sizes = layoutSizes a.members) (h : InStream mayFail a s rest)
    (hroom : 0 < s.output.remaining)
    (hfuel : ¬ starved → ∀ m ∈ a.members, m.data.length < fuel)
    (hlong : ¬ long → ∀ m ∈ a.members, m.Honest) :
    (readIteration sizes ctx fuel initialRemaining).wp (Excused mayFail long starved)
      (Outcome mayFail a initialRemaining s rest) s := by
  unfold readIteration
  rw [wp_get_bind]
  by_cases hempty : s.readState.stagingBuffer = []
  · rw [if_neg (by simpa using hempty)]
    by_cases hfin : s.readState.currentChunk = .finished
    · rw [if_pos hfin]
      refine .leave (.refl h) fun _ _ => ?_
      rw [(h.stands.ready_of_chunk hempty (.inr (.inr hfin))).2.2, hfin]
      rfl
    · rw [if_neg hfin, wp_bind, wp_lift, chunkSize_eq h.stocked.listed h.stands.located hfin]
      simp only [Exec.wp_ok, andThen]
      by_cases hskip : s.readState.toSkip ≥ (segmentOf H a.members s.readState.currentChunk).size
      · -- the chunk is skipped by its size
        obtain ⟨hprocessed, hslot, hrest⟩ := h.stands.skip hempty hfin hskip
        rw [if_pos hskip, Exec.subU64_eq hskip, chunkNext_eq h.stocked.length hfin]
        have hlocated := Chunk.succ_located h.stands.located
        have hrank := Chunk.rank_succ_lt h.stands.located hfin
        -- a chunk that ends before the position is none of what is left
        have hstands : Stands H mayFail a s.entries { s.readState with
            toSkip := s.readState.toSkip - (segmentOf H a.members s.readState.currentChunk).size
            currentChunk := s.readState.currentChunk.succ a.members.length } s.pinned.slot rest := by
          rw [hrest, hslot]
          exact .ready hlocated hprocessed hempty
        refine .go ⟨.refl _, (Tail.cons_nil rest).symm, ⟨h.stocked, hstands⟩, .refl _, rfl,
          .idle_succ hslot rfl rfl rfl, .refl _⟩ ?_
        simp only
        omega
      · rw [if_neg hskip]
        exact processChunk_wp hsizes h hempty hfin (by omega) hroom hfuel hlong
  · -- staged bytes come first
    rw [if_pos hempty]
    obtain ⟨hstocked, hstands⟩ := h
    generalize hslot : s.pinned.slot = slot at hstands
    cases hstands with
    | staged hlocated hprocessed hskip hbound hheader =>
      rw [wp_bind, wp_lift]
      refine Exec.wp_mono (readFromStaging_wp hskip hroom hbound) (fun _ hf => hf) ?_
      rintro ⟨rs, output⟩ ⟨bytes, hout⟩
      have hlen := hout.output.remaining
      have hpos := List.length_pos_iff.mpr hout.nonempty
      have hstands' : Stands H mayFail a s.entries rs s.pinned.slot
          (.cons (rs.stagingBuffer.drop rs.toSkip)
            (tailAt (segmentsFrom H a.members rs.currentChunk) 0)) := by
        rw [hslot]
        -- either all that is staged was output, or the rest still stands in front
        by_cases hempty' : rs.stagingBuffer = []
        · have hready : Stands H mayFail a s.entries rs .nothing _ := .ready
            (by rw [hout.chunk]; exact hlocated) (hout.processed.trans hprocessed) hempty'
          rw [hout.unstaged hempty'] at hready ⊢
          rw [hempty', List.drop_nil, Tail.cons_nil]
          exact hready
        · obtain ⟨hsame, hlt⟩ := hout.staged hempty'
          have hheader' : EndsHeader H a.members rs := by
            unfold EndsHeader
            rw [hsame, hout.chunk]
            exact hheader
          exact .staged (by rw [hout.chunk]; exact hlocated) (hout.processed.trans hprocessed) hlt
            (by rw [hsame]; exact hbound) hheader'
      refine .go ⟨hout.output, ?_, ⟨hstocked, hstands'⟩, .refl _, hout.position,
        .idle hslot rfl (.refl _) (fun j hj => by rw [hout.chunk]; exact hj), .refl _⟩ ?_
      · rw [hout.bytes, Tail.cons_append, hout.chunk]
      · simp only [hout.chunk]
        omega
    | ready _ _ hempty' => exact absurd hempty' hempty
    | hashing _ _ hempty' => exact absurd hempty' hempty
    | reading _ hempty' => exact absurd hempty' hempty

/-- A turn that answers, over whatever data, leaves the frame in the stream. -/
theorem InStream.turn {sizes : Sizes} {ctx : E.Context} {fuel : Nat}
    {r : PollResult (IoError E) (Flow Unit)} (h : InStream mayFail a s rest)
    (hsizes : sizes = layoutSizes a.members) (hroom : 0 < s.output.remaining)
    (hrun : readIteration sizes ctx fuel initialRemaining s = .ok (r, s')) :
    ∃ rest', InStream mayFail a s' rest' := by
  have hturn : (readIteration sizes ctx fuel initialRemaining).wp (Excused mayFail True True)
      (Outcome mayFail a initialRemaining s rest) s :=
    readIteration_wp hsizes h hroom (fun hfed => absurd trivial hfed)
      fun hshort => absurd trivial hshort
  have houtcome := Exec.wp_of_eq_ok hturn hrun
  cases houtcome with
  | go h _ => exact ⟨_, h.standing⟩
  | leave h _ => exact ⟨_, h.standing⟩
  | ret h _ => exact ⟨_, h.standing⟩
  | pending h _ => exact ⟨_, h.standing⟩
  | failed _ _ h => exact ⟨_, h.standing⟩
  | crcMismatch _ _ h _ => exact ⟨_, h.standing⟩
  | sizeMismatch _ _ _ _ h => exact ⟨_, h⟩

/-- **The loop** moves a frame along the stream, turn by turn. -/
theorem readLoop_wp {sizes : Sizes} {ctx : E.Context} {fuel bound : Nat}
    (hsizes : sizes = layoutSizes a.members) (h : InStream mayFail a s rest)
    (hbound : ∀ m ∈ a.members, m.data.length ≤ bound)
    (hfuel : ¬ starved → s.readState.currentChunk.rank a.members.length + s.output.remaining +
      bound < fuel)
    (hlong : ¬ long → ∀ m ∈ a.members, m.Honest) :
    (readLoop sizes ctx initialRemaining fuel).wp (Excused mayFail long starved)
      (fun r s' => Outcome mayFail a initialRemaining s rest r s' ∧ r ≠ .ok (.go ())) s := by
  -- a turn that goes on lowers the rank of the chunk or the room of the output
  induction fuel generalizing s rest with
  | zero =>
    by_cases hstarved : starved
    · exact hstarved
    · exact absurd (hfuel hstarved) (Nat.not_lt_zero _)
  | succ fuel ih =>
    unfold readLoop
    rw [wp_get_bind]
    by_cases hroom : s.output.remaining > 0
    · rw [if_pos hroom, wp_bind]
      refine wp_mono (readIteration_wp hsizes h hroom (fun hs m hm => ?_) hlong) (fun _ hf => hf) ?_
      · have := hfuel hs
        have := hbound m hm
        omega
      · intro r s' houtcome
        cases houtcome with
        | @go _ bytes rest' hprogress hrank =>
          simp only [andThen]
          refine wp_mono (ih hprogress.standing fun hs => ?_) (fun _ hf => hf) ?_
          · have := hfuel hs
            omega
          · rintro r s'' ⟨houtcome', hr⟩
            exact ⟨houtcome'.after hprogress hrank, hr⟩
        | leave h hend => exact ⟨.leave h hend, by simp⟩
        | ret h hwritten => exact ⟨.ret h hwritten, by simp⟩
        | pending h hunwritten => exact ⟨.pending h hunwritten, by simp⟩
        | failed e hfail h => exact ⟨.failed e hfail h, by simp⟩
        | crcMismatch hm hcrc h hunwritten =>
          exact ⟨.crcMismatch hm hcrc h hunwritten, by simp⟩
        | sizeMismatch hm hsize houtput hstream hstanding hcaches hposition hnonempty hdata =>
          exact ⟨.sizeMismatch hm hsize houtput hstream hstanding hcaches hposition hnonempty
              hdata,
            by simp⟩
    · rw [if_neg hroom]
      exact ⟨.leave (.refl h) fun hpos hsame => by omega, by simp⟩

/-! ### The call -/

/-- Where a call of `read` leaves a frame.  It never counts more bytes than it wrote. -/
inductive ReadOutcome (mayFail : Prop) (a : Archive) (s : Frame E H) (rest : Tail UInt8) :
    PollResult (IoError E) Unit → Frame E H → Prop where
  /-- With room and nothing written only at the end of the stream. -/
  | ok {s' : Frame E H} {bytes : List UInt8} {rest' : Tail UInt8} (position : Nat)
    (h : Progress mayFail a s rest bytes s' rest')
    (hend : 0 < s.output.remaining → bytes = [] → rest' = .done)
    (hposition : position ≤ s.readState.position + bytes.length) :
    ReadOutcome mayFail a s rest (.ok ()) { s' with readState.position := position }
  | pending {s' : Frame E H} (h : Progress mayFail a s rest [] s' rest) :
    ReadOutcome mayFail a s rest .pending s'
  | failed {s' : Frame E H} {bytes : List UInt8} {rest' : Tail UInt8} (e : E.Error)
    (hfail : mayFail) (h : Progress mayFail a s rest bytes s' rest') :
    ReadOutcome mayFail a s rest (.err (.entry e)) s'
  | crcMismatch {s' : Frame E H} {m : Member} (hm : m ∈ a.members) (hcrc : m.crc ≠ H.hash m.data)
    (h : Progress mayFail a s rest [] s' rest) :
    ReadOutcome mayFail a s rest
      (.err (.read (.crc32Mismatch m.name m.crc (H.hash m.data)))) s'
  | sizeMismatch {s' : Frame E H} {bytes : List UInt8} {rest' : Tail UInt8} {m : Member}
    {actual : Nat} (hm : m ∈ a.members) (hsize : m.data.length ≠ m.size)
    (houtput : s.output.Extends bytes s'.output) (hstream : rest = .cons bytes .halted)
    (hstanding : InStream mayFail a s' rest') (hcaches : Caches s.entries s'.entries)
    (hposition : s'.readState.position = s.readState.position)
    (hnonempty : LogsNonempty a.members s.pinned.opened s'.pinned.opened)
    (hdata : ∃ i, InData a s'.readState i m) :
    ReadOutcome mayFail a s rest (.err (.read (.sizeMismatch m.name m.size actual))) s'

/-- **A call of `read`**. -/
theorem read_wp {sizes : Sizes} {ctx : E.Context} {fuel bound : Nat}
    (hsizes : sizes = layoutSizes a.members) (h : InStream mayFail a s rest)
    (hbound : ∀ m ∈ a.members, m.data.length ≤ bound)
    (hfuel : ¬ starved → s.readState.currentChunk.rank a.members.length + s.output.remaining +
      bound < fuel)
    (hlong : ¬ long → ∀ m ∈ a.members, m.Honest)
    (hposition : ¬ long → s.readState.position + rest.items.length < u64Bound) :
    (read sizes ctx fuel).wp (Excused mayFail long starved) (ReadOutcome mayFail a s rest) s := by
  unfold read
  rw [wp_get_bind, wp_bind]
  refine wp_mono (readLoop_wp hsizes h hbound hfuel hlong) (fun _ hf => hf) ?_
  rintro r s' ⟨houtcome, hgo⟩
  cases houtcome with
  | go => exact absurd rfl hgo
  | @leave _ bytes rest' hprogress hend =>
    have hroom := hprogress.output.remaining
    -- the position is moved by what was written
    have hwritten : s.output.remaining - s'.output.remaining = bytes.length := by omega
    simp only [andThen]
    rw [wp_get_bind, wp_bind, wp_lift, Exec.subU64_eq (by omega), hwritten]
    simp only [Exec.wp_ok, andThen]
    rw [wp_bind, wp_lift, hprogress.position]
    refine Exec.wp_addU64 (fun hover => ?_) (fun _ => ?_)
    -- what is delivered fits, since the position lies within the archive
    · by_contra hnot
      have hfits := hposition hnot
      have hlen := congrArg (fun t => t.items.length) hprogress.stream
      simp only [Tail.cons_items, List.length_append] at hlen
      omega
    · refine .ok _ hprogress (fun hpos hnil => hend hpos ?_) (by omega)
      exact (hprogress.output.eq_nil_iff).mp hnil
  | @ret _ bytes rest' hprogress hwritten =>
    have hne : bytes ≠ [] := fun hnil => hwritten (hprogress.output.eq_nil_iff.mp hnil)
    have hok := ReadOutcome.ok s'.readState.position hprogress (fun _ hnil => absurd hnil hne)
      (by rw [hprogress.position]; omega)
    exact hok
  | @pending _ bytes rest' hprogress hunwritten =>
    have hnil := hprogress.output.eq_nil_iff.mpr hunwritten
    subst hnil
    have hsame : rest = rest' := by simpa using hprogress.stream
    subst hsame
    exact .pending hprogress
  | failed e hfail h => exact .failed e hfail h
  | @crcMismatch _ bytes rest' m hm hcrc hprogress hunwritten =>
    have hnil := hprogress.output.eq_nil_iff.mpr hunwritten
    subst hnil
    have hsame : rest = rest' := by simpa using hprogress.stream
    subst hsame
    exact .crcMismatch hm hcrc hprogress
  | sizeMismatch hm hsize houtput hstream hstanding hcaches hposition hnonempty hdata =>
    exact .sizeMismatch hm hsize houtput hstream hstanding hcaches hposition hnonempty hdata

end Rules

end Model

end Zippity
