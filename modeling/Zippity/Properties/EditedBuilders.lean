import Zippity.BuilderPool
import Zippity.Properties.CachedCrcs

/-! # What an edited builder builds

    `add_entry` checks names and the total; an edit through `get_entries_mut`
    does not.  `build` looks at the map alone, so it succeeds if and only if the
    archive of the map fits; and this archive can be read to its end only if all
    names are short, since the header of an overlong name is never written.
-/

namespace Zippity

open Framework Async
open Exec (u64Bound)

section Model
variable {E : EntryData} {H : Crc32Fast}

/-! ### Overlong names -/

/-- Nothing behind the local header of entry `k` was begun. -/
def Chunk.UpTo (k : Nat) : Chunk → Prop
  | .localHeader j => j ≤ k
  | .entryData j | .dataDescriptor j => j < k
  | .cdFileHeader _ | .eocd | .finished => False

/-- The reader is still in front of the local header of entry `k`, whose name is too long for it. -/
structure HeldUp (k : Nat) (s : Frame E H) : Prop where
  upTo : s.readState.currentChunk.UpTo k
  unskipped : Unskipped s.readState
  long : ∃ entry, s.entries[k]? = some entry ∧ 65535 < entry.name.length

section HeldUp
variable {s : Frame E H} {sizes : Sizes} {ctx : E.Context} {fuel initialRemaining size i k : Nat}
  {entry : ReaderEntry E} {x : Exec (ReadState × ReadBuf)}

/-- Entries keep their names. -/
theorem long_restore {t : EntryFrame E H} (hentry : s.entries[i]? = some entry)
    (hname : t.entry.name = entry.name)
    (hlong : ∃ entry, s.entries[k]? = some entry ∧ 65535 < entry.name.length) :
    ∃ entry, (Frame.restore i t s).entries[k]? = some entry ∧ 65535 < entry.name.length := by
  obtain ⟨overlong, hk, hlen⟩ := hlong
  have hi := (List.getElem?_eq_some_iff.mp hentry).1
  by_cases hik : i = k
  · subst hik
    rw [hentry] at hk
    cases hk
    refine ⟨t.entry, List.getElem?_set_self hi, ?_⟩
    rw [hname]
    exact hlen
  · exact ⟨overlong, (List.getElem?_set_ne hik).trans hk, hlen⟩

/-- The header of an overlong name is never written. -/
theorem readLocalHeader_long (rs : ReadState) (output : ReadBuf)
    (hname : 65535 < entry.name.length) :
    rs.readLocalHeader entry output = .error .unreachable := by
  unfold ReadState.readLocalHeader fileNameLen
  rw [if_neg (by omega)]
  rfl

/-- A local header leaves the chunk, and skips no more than there was to skip. -/
theorem readLocalHeader_pieces (rs : ReadState) (output : ReadBuf) :
    (rs.readLocalHeader entry output).wp (fun _ => True) fun result =>
      entry.name.length ≤ 65535 ∧ result.1.currentChunk = rs.currentChunk ∧
        result.1.toSkip ≤ rs.toSkip := by
  by_cases hname : entry.name.length < 65536
  · refine Exec.wp_mono (writesPieces_readLocalHeader rs output hname).wp (fun _ _ => trivial) ?_
    intro result hpieces
    exact ⟨by omega, hpieces.chunk, hpieces.toSkip⟩
  · rw [readLocalHeader_long rs output (by omega)]
    trivial

/-- The chunk after one in front of the header is not behind it. -/
theorem Chunk.UpTo.next {entries : List (ReaderEntry E)} {c c' : Chunk} (h : c.UpTo k)
    (hne : c ≠ .localHeader k) (hk : k < entries.length) (hnext : c.next entries = .ok c') :
    c'.UpTo k := by
  cases c with
  | localHeader j =>
    cases hnext
    have hle : j ≤ k := h
    have hneq : j ≠ k := fun heq => hne (by rw [heq])
    show j < k
    omega
  | entryData j =>
    cases hnext
    exact h
  | dataDescriptor j =>
    have hlt : j < k := h
    rw [Chunk.next, if_pos (by omega)] at hnext
    cases hnext
    exact hlt
  | cdFileHeader j => exact h.elim
  | eocd => exact h.elim
  | finished => exact h.elim

/-- The end of a turn in front of the header. -/
theorem HeldUp.finish {s₁ : Frame E H} {done : Bool} (h : HeldUp k s₁)
    (hne : done = true → s₁.readState.currentChunk ≠ .localHeader k) :
    (finishChunk size done >>= fun _ => pure (.go ())).wp (fun _ => True)
      (fun (_ : PollResult (IoError E) (Flow Unit)) s' => HeldUp k s') s₁ := by
  unfold finishChunk
  cases done with
  | false => exact h
  | true =>
    rw [if_pos rfl, wp_bind, wp_get_bind, wp_bind, wp_lift]
    refine Exec.wp_assert (fun _ => trivial) fun _ => ?_
    simp only [andThen]
    rw [wp_bind, wp_lift]
    cases hnext : s₁.readState.currentChunk.next s₁.entries with
    | error f => trivial
    | ok c =>
      obtain ⟨entry, hentry, hlong⟩ := h.long
      have hk := (List.getElem?_eq_some_iff.mp hentry).1
      exact ⟨h.upTo.next (hne rfl) hk hnext, h.unskipped, entry, hentry, hlong⟩

/-- A turn on the entry of the current chunk. -/
theorem HeldUp.entry_turn {x : EntryRead E H Bool} (h : HeldUp k s)
    (hne : s.readState.currentChunk ≠ .localHeader k)
    (hx : ∀ entry, s.entries[i]? = some entry → x.wp (fun _ => True) (fun _ t' =>
      t'.readState.currentChunk = s.readState.currentChunk ∧ Unskipped t'.readState ∧
        t'.entry.name = entry.name) ⟨s.readState, entry, s.pinned, s.output⟩) :
    (zippityReady initialRemaining (onEntry i x) >>= fun flow => match flow with
      | .go chunkDone => do
        finishChunk size chunkDone
        pure (.go ())
      | .leave => pure .leave
      | .ret => pure .ret).wp (fun _ => True)
      (fun (_ : PollResult (IoError E) (Flow Unit)) s' => HeldUp k s') s := by
  rw [wp_bind, zippityReady_wp]
  refine onEntry_entry trivial fun entry hentry => ?_
  rw [onEntry_wp hentry]
  refine wp_mono (hx entry hentry) (fun _ hf => hf) ?_
  rintro r t' ⟨hchunk, hunskipped, hname⟩
  have hheld : HeldUp k (Frame.restore i t' s) :=
    ⟨hchunk ▸ h.upTo, hunskipped, long_restore hentry hname h.long⟩
  cases r with
  | ok done => exact hheld.finish fun _ => hchunk ▸ hne
  | err e => exact hheld
  | pending =>
    dsimp only
    split
    · exact hheld
    · exact hheld

/-- What is read of an entry in front of the header. -/
theorem HeldUp.processChunk (h : HeldUp k s) (hempty : s.readState.stagingBuffer = []) :
    (processChunk sizes ctx fuel initialRemaining size).wp (fun _ => True)
      (fun _ s' => HeldUp k s') s := by
  have hskip : s.readState.toSkip = 0 := h.unskipped hempty
  unfold Zippity.processChunk readChunk
  cases hchunk : s.readState.currentChunk with
  | localHeader i =>
    rw [wp_bind, wp_get_bind, hchunk]
    show Async.wp (onEntry i _ >>= _) _ _ _
    rw [wp_bind]
    refine onEntry_entry trivial fun entry hentry => ?_
    rw [onEntry_wp hentry, writeHeader_wp]
    refine Exec.wp_mono (readLocalHeader_pieces s.readState s.output) (fun _ hf => hf) ?_
    rintro result ⟨hshort, hsame, hle⟩
    simp only [andThen, wp_pure]
    refine HeldUp.finish ⟨?_, ?_, long_restore hentry rfl h.long⟩ ?_
    · show result.1.currentChunk.UpTo k
      exact hsame ▸ h.upTo
    · intro _
      show result.1.toSkip = 0
      omega
    · -- the header that was written is not that of the overlong name
      intro _ heq
      have hik : i = k := by
        have heq' : result.1.currentChunk = .localHeader k := heq
        rw [hsame, hchunk] at heq'
        exact Chunk.localHeader.inj heq'
      obtain ⟨overlong, hk, hlong⟩ := h.long
      rw [← hik, hentry] at hk
      cases hk
      exact absurd hshort (by simpa using hlong)
  | entryData i =>
    rw [wp_bind, wp_get_bind, hchunk]
    dsimp only
    split
    · rw [wp_bind, wp_lift]
      refine Exec.wp_assert (fun _ => trivial) fun _ => ?_
      exact h
    · rw [← wp_bind]
      refine h.entry_turn (by simp [hchunk]) fun entry hentry => ?_
      refine wp_mono (readEntryData_step ctx fuel _) (fun _ _ => trivial) ?_
      rintro r t' ⟨bytes, hstep⟩
      refine ⟨hstep.moves.chunk, fun _ => ?_, ?_⟩
      · have hle : t'.readState.toSkip ≤ s.readState.toSkip := hstep.toSkip
        omega
      · obtain ⟨crc32, hset⟩ := hstep.entry
        rw [hset]
  | dataDescriptor i =>
    rw [wp_bind, wp_get_bind, hchunk]
    dsimp only
    rw [← wp_bind]
    refine h.entry_turn (by simp [hchunk]) fun entry hentry => ?_
    unfold readDataDescriptor
    rw [wp_bind]
    refine wp_mono (getCrc_step ctx fuel _) (fun _ _ => trivial) ?_
    intro r t hstep
    have hsame : t.readState = s.readState := hstep.readState
    cases r with
    | ok crc =>
      have hentry' := hstep.computed crc rfl
      simp only [andThen]
      rw [wp_bind, writeHeader_wp]
      refine Exec.wp_mono (writesPieces_putDataDescriptor t.readState t.entry crc t.output).wp
        (fun _ _ => trivial) ?_
      intro result hpieces
      refine ⟨hpieces.chunk.trans (by rw [hsame]), fun _ => ?_, ?_⟩
      · have hle := hpieces.toSkip
        rw [hsame, hskip] at hle
        exact Nat.le_zero.mp hle
      · show t.entry.name = entry.name
        rw [hentry']
    | err e => exact ⟨by rw [hsame], fun _ => by rw [hsame, hskip],
        by rw [hstep.interrupted (by simp)]⟩
    | pending => exact ⟨by rw [hsame], fun _ => by rw [hsame, hskip],
        by rw [hstep.interrupted (by simp)]⟩
  | cdFileHeader i => exact (hchunk ▸ h.upTo : Chunk.UpTo k (.cdFileHeader i)).elim
  | eocd => exact (hchunk ▸ h.upTo : Chunk.UpTo k .eocd).elim
  | finished => exact (hchunk ▸ h.upTo : Chunk.UpTo k .finished).elim

/-- **No turn gets past the header**, whatever the sources do. -/
theorem HeldUp.readIteration (h : HeldUp k s) :
    (readIteration sizes ctx fuel initialRemaining).wp (fun _ => True)
      (fun _ s' => HeldUp k s') s := by
  unfold Zippity.readIteration
  rw [wp_get_bind]
  split
  · next hne =>
    rw [wp_bind, wp_lift]
    refine Exec.wp_mono (readFromStaging_hostile s.readState s.output)
      (fun _ _ => trivial) ?_
    intro result hread
    exact ⟨hread.chunk ▸ h.upTo, hread.unskipped hne, h.long⟩
  · next hempty =>
    have hempty : s.readState.stagingBuffer = [] := not_not.mp hempty
    have hskip : s.readState.toSkip = 0 := h.unskipped hempty
    split
    · exact h
    · rw [wp_bind, wp_lift]
      cases hsize : s.readState.currentChunk.size s.entries with
      | error f => trivial
      | ok size =>
        rw [Exec.wp_ok]
        simp only [andThen]
        split
        · next hle =>
          -- entry data of no size
          have hzero : size = 0 := by omega
          obtain ⟨j, _, hj, _⟩ := Chunk.eq_entryData (hzero ▸ hsize)
          rw [wp_bind, wp_lift, hskip, hzero]
          refine Exec.wp_subU64 (fun _ => trivial) fun _ => ?_
          simp only [andThen]
          rw [wp_bind, wp_lift]
          cases hnext : s.readState.currentChunk.next s.entries with
          | error f => trivial
          | ok c =>
            obtain ⟨entry, hentry, hlong⟩ := h.long
            have hk := (List.getElem?_eq_some_iff.mp hentry).1
            exact ⟨h.upTo.next (by simp [hj]) hk hnext, fun _ => rfl, entry, hentry, hlong⟩
        · exact h.processChunk hempty

theorem HeldUp.readLoop (h : HeldUp k s) :
    (readLoop sizes ctx initialRemaining fuel).wp (fun _ => True) (fun _ s' => HeldUp k s') s := by
  refine readLoop_rule (I := fun _ => HeldUp k) (fun _ _ => trivial) ?_ (fun _ _ hheld _ => hheld) h
  intro fuel s hheld _
  refine wp_mono hheld.readIteration (fun _ hf => hf) ?_
  intro r s' hheld'
  exact ⟨fun _ => hheld', fun _ => hheld'⟩

/-- `poll_read` does not get past the header. -/
theorem HeldUp.pollRead {r r' : Reader E H} {buf buf' : ReadBuf}
    {answer : PollResult (IoError E) Unit} (h : HeldUp k r.still)
    (hpoll : r.pollRead ctx fuel buf = .ok (answer, r', buf')) : HeldUp k r'.still := by
  have hframe : HeldUp k (r.frame buf) := ⟨h.upTo, h.unskipped, h.long⟩
  have hread := Exec.wp_of_eq_ok (pollRead_rule (F := fun _ => True) (Q := fun _ s' => HeldUp k s')
    trivial (fun _ _ hheld => ⟨hheld.upTo, hheld.unskipped, hheld.long⟩) hframe.readLoop) hpoll
  exact ⟨hread.2.upTo, hread.2.unskipped, hread.2.long⟩

/-- And no run of them does. -/
theorem HeldUp.run {r r' : Reader E H} {ops : List (Op E)} (h : HeldUp k r.still)
    (hsteps : Steps r ops r') (hpolls : ∀ op ∈ ops, op.isPoll = true) : HeldUp k r'.still := by
  apply hsteps.invariant_of (fun op => op.isPoll = true) hpolls (fun _ r' => HeldUp k r'.still) h
  intro _ r₁ op r₂ hheld hpoll hstep
  cases op with
  | seek offset => cases hpoll
  | pollRead ctx buf answer buf' =>
    obtain ⟨fuel, hpolled⟩ := hstep
    exact hheld.pollRead hpolled

end HeldUp

/-! ### What `build` makes of any map -/

section Edited
variable {b : Builder E} {r r' : Reader E H} {ops : List (Op E)}

/-- The entries of the loop of `build`, whatever their names are. -/
theorem buildEntries_from {sources : List (Name × BuilderEntry E)} {offset cdSize : Nat}
    {built : List (ReaderEntry E) × Nat × Nat}
    (h : Builder.buildEntries sources offset cdSize = .ok built) :
    List.Forall₂ BuiltFrom sources built.1 := by
  induction sources generalizing offset cdSize built with
  | nil =>
    cases h
    exact .nil
  | cons source sources ih =>
    unfold Builder.buildEntries at h
    obtain ⟨headerSize, _, h⟩ := Exec.bind_eq_ok h
    obtain ⟨size, _, h⟩ := Exec.bind_eq_ok h
    obtain ⟨offset', _, h⟩ := Exec.bind_eq_ok h
    obtain ⟨cdHeader, _, h⟩ := Exec.bind_eq_ok h
    obtain ⟨cdSize', _, h⟩ := Exec.bind_eq_ok h
    obtain ⟨rest, hrest, h⟩ := Exec.bind_eq_ok h
    cases h
    exact .cons ⟨rfl, rfl, rfl, rfl, rfl, rfl⟩ (ih hrest)

/-- A reader is built fresh. -/
theorem Builder.build_fresh (hbuild : b.build = .ok r) :
    r = .new r.sizes r.entries ∧ r.entries.map ReaderEntry.name = b.entries.keys := by
  unfold Builder.build at hbuild
  obtain ⟨built, hbuilt, hbuild⟩ := Exec.bind_eq_ok hbuild
  obtain ⟨eocdOffset, _, hbuild⟩ := Exec.bind_eq_ok hbuild
  obtain ⟨eocdSize, _, hbuild⟩ := Exec.bind_eq_ok hbuild
  obtain ⟨totalSize, _, hbuild⟩ := Exec.bind_eq_ok hbuild
  cases hbuild
  exact ⟨rfl, map_name_eq (buildEntries_from hbuilt)⟩

/-- In front of an overlong name a fresh reader is held up. -/
theorem heldUp_new {sizes : Sizes} {entries : List (ReaderEntry E)} {k : Nat}
    {entry : ReaderEntry E} (hentry : entries[k]? = some entry) (hlong : 65535 < entry.name.length) :
    HeldUp k (Reader.new sizes entries : Reader E H).still := by
  refine ⟨?_, fun _ => rfl, entry, hentry, hlong⟩
  cases entries with
  | nil => cases hentry
  | cons first rest => exact Nat.zero_le k

/-- **A read that gets to the end** met no overlong name. -/
theorem names_of_complete_read (hbuild : b.build = .ok r) (hsteps : Steps r ops r')
    (hpolls : ∀ op ∈ ops, op.isPoll = true) (hend : r'.AtEnd) :
    ∀ name ∈ b.entries.keys, name.length ≤ 65535 := by
  intro name hname
  obtain ⟨hfresh, hnames⟩ := Builder.build_fresh hbuild
  rw [← hnames] at hname
  obtain ⟨entry, hentry, rfl⟩ := List.mem_map.mp hname
  obtain ⟨k, hk⟩ := List.getElem?_of_mem hentry
  by_contra hlong
  have hstart : HeldUp k r.still := by
    rw [hfresh]
    exact heldUp_new hk (by omega)
  obtain ⟨ctx, fuel, buf, last, hroom, hpoll⟩ := hend
  have hlast := (hstart.run hsteps hpolls).pollRead hpoll
  -- at the end the archive is finished
  have hfin := (finished_of_pollRead hroom hpoll).1
  exact (hfin ▸ hlast.upTo : Chunk.UpTo k .finished)

/-- The builder with the total that its map comes to. -/
def Builder.recounted (b : Builder E) : Builder E :=
  { b with totalSize := entriesWeight b.entries.entries + 98 }

/-- The cached total plays no part in `build`. -/
theorem Builder.build_recounted (b : Builder E) :
    (b.recounted.build : Exec (Reader E H)) = b.build := rfl

/-- `build` succeeds if and only if the archive of the map fits `u64`. -/
theorem Builder.build_iff (b : Builder E) :
    (∃ r : Reader E H, b.build = .ok r) ↔ entriesWeight b.entries.entries + 98 < u64Bound := by
  have hwp := b.build_wp (H := H)
  constructor
  · rintro ⟨r, hbuild⟩
    exact (Exec.wp_of_eq_ok hwp hbuild).2
  · intro hfits
    cases hbuild : (b.build : Exec (Reader E H)) with
    | ok r => exact ⟨r, rfl⟩
    | error f =>
      have hover := Exec.wp_of_eq_error hwp hbuild
      omega

/-- **What an edited builder builds is what its map says.**  For every map and every cached total,
    `build` succeeds if and only if the archive of the map fits, and reports its size; a read
    without seeks gets to the end of it only if every name is short; and for honest data what was
    read is then decoded to the entries of the map. -/
theorem edited_builder_reads (b : Builder E) :
    ((∃ r : Reader E H, b.build = .ok r) ↔ entriesWeight b.entries.entries + 98 < u64Bound) ∧
    ∀ r : Reader E H, b.build = .ok r →
      r.size = entriesWeight b.entries.entries + 98 ∧
      ∀ ops r', Steps r ops r' → (∀ op ∈ ops, op.isPoll = true) → r'.AtEnd →
        (∀ name ∈ b.entries.keys, name.length ≤ 65535) ∧
        ∀ content, b.Delivering content False → b.HonestSizes content → b.RightCrcs content H →
          Zip64.decode (deliveredBytes ops) =
            some (b.entries.entries.map (addedFile H content)) := by
  refine ⟨b.build_iff, ?_⟩
  intro r hbuild
  have hsize := Exec.wp_of_eq_ok b.build_wp hbuild
  refine ⟨hsize.1, ?_⟩
  intro ops r' hsteps hpolls hend
  have hnames := names_of_complete_read hbuild hsteps hpolls hend
  refine ⟨hnames, ?_⟩
  intro content hdeliver hhonest hcrcs
  have hconsistent : b.recounted.Consistent := by
    refine ⟨?_, rfl, hsize.2⟩
    intro name entry hentry
    have hshort := hnames name (IndexMap.mem_keys_iff.mpr ⟨entry, hentry⟩)
    omega
  obtain ⟨r₂, a, hbuild₂, hbuilt⟩ := hconsistent.build (H := H) content
  rw [b.build_recounted, hbuild] at hbuild₂
  cases hbuild₂
  -- the map is all that these speak of
  have hsound := hbuilt.sound hhonest hcrcs
  have hstart := hbuilt.start hdeliver
  obtain ⟨rest, hstream, hat⟩ :=
    Steps.stream hstart hsteps hpolls (Steps.succeeds hsound hstart hsteps)
  rw [hat.eq_done hend, tailAt_segments_of_sound hsound] at hstream
  have hbytes : archiveBytes a.members = deliveredBytes ops := by
    simpa [Tail.cons, Tail.done] using congrArg Tail.items hstream
  rw [← hbytes, decode_archiveBytes (hbuilt.honest hhonest), hbuilt.map_file hsound]
  rfl

end Edited

end Model

/-- An entry that was assigned to the map of an empty builder. -/
def assignedBuilder : Builder steady where
  entries := IndexMap.empty.insertVacant [0x61] (.new (.reporting [1, 2, 3] 3) none) (by decide)
  timeConverter := none
  totalSize := 98

/-- Its cached total is that of an empty archive, and the archive is that of its entry. -/
theorem edited_builder_reads_assigned :
    ∃ (r r' : Reader steady crc32Ieee) (ops : List (Op steady)), assignedBuilder.size = 98 ∧
      assignedBuilder.build = .ok r ∧ r.size = 259 ∧ Steps r ops r' ∧
      Zip64.decode (deliveredBytes ops) =
        some (assignedBuilder.entries.entries.map (addedFile crc32Ieee PacedData.bytes)) := by
  have hrun : ((assignedBuilder.build : Exec (Reader steady crc32Ieee)) >>= fun r =>
      runScript 20 r steadyPolls >>= fun result =>
        .ok (result.1.all Op.isPoll, result.2.endTest true 20)) = .ok (true, true) := by
    decide +kernel
  obtain ⟨r, hbuild, hrun⟩ := Exec.bind_eq_ok hrun
  obtain ⟨⟨ops, r'⟩, hscript, hseen⟩ := Exec.bind_eq_ok hrun
  have hseen := Except.ok.inj hseen
  have hpolls : ops.all Op.isPoll = true := congrArg Prod.fst hseen
  have hend : r'.endTest true 20 = true := congrArg Prod.snd hseen
  have hsteps := runScript_steps hscript
  obtain ⟨_, hedited⟩ := edited_builder_reads (H := crc32Ieee) assignedBuilder
  obtain ⟨hsize, hreads⟩ := hedited r hbuild
  obtain ⟨_, hdecode⟩ :=
    hreads ops r' hsteps (List.all_eq_true.mp hpolls) (Reader.atEnd_of_endTest hend)
  have hentry : ∀ name entry, (name, entry) ∈ assignedBuilder.entries.entries →
      entry = .new (.reporting [1, 2, 3] 3) none := by
    intro name entry hmem
    exact congrArg Prod.snd (List.mem_singleton.mp hmem)
  refine ⟨r, r', ops, rfl, hbuild, hsize, hsteps, hdecode _ ?_ ?_ ?_⟩
  · intro name entry hmem
    exact paced_delivers steady_ne_fail entry.data
  · intro name entry hmem
    rw [hentry name entry hmem]
    rfl
  · intro name entry hmem crc hcrc
    rw [hentry name entry hmem] at hcrc
    cases hcrc

end Zippity
