import Zippity.Properties.CachedCrcs
import Zippity.Properties.Streams
import Zippity.Reader.Recorded

/-! # Reads without errors

    The sources may deliver other data than they announced, end early or change
    from call to call.  A read without seeks and errors that got to the end has
    delivered a sound archive all the same: every file has the size that its
    source announced, the CRC of the data that came of it, and the CRC that was
    supplied for it.
-/

namespace Zippity

open Framework Async

section Model
variable {E : EntryData} {H : Crc32Fast}

/-- A file that was checked against its entry of the builder. -/
structure Checked (H : Crc32Fast) (source : Name × BuilderEntry E) (file : Zip64.File) : Prop where
  name : file.name = source.1
  size : file.data.length = E.size source.2.data
  /-- Only for an entry of no size the CRC supplied is not compared with that of the data. -/
  hashed : E.size source.2.data ≠ 0 ∨ source.2.crc32 = none → file.crc32 = H.hash file.data
  supplied : ∀ crc, source.2.crc32 = some crc → file.crc32 = crc
  time : file.time = (source.2.datetime.getD .default).time
  date : file.date = (source.2.datetime.getD .default).date
  externalAttributes :
    file.externalAttributes = getExternalAttributes source.2.fileType source.2.permissions

/-! ### Runs -/

section Runs
variable {a : Archive} {r r' : Reader E H} {ops : List (Op E)} {out : List UInt8}
  {read : Nat → List UInt8} {s : Frame E H}

/-- What an operation without an error appended was delivered. -/
theorem delivered_of_noError {ctx : E.Context} {fuel : Nat} {buf buf' : ReadBuf}
    {answer : PollResult (IoError E) Unit} {bytes : List UInt8}
    (hpoll : r.pollRead ctx fuel buf = .ok (answer, r', buf')) (hno : NoError answer)
    (hext : buf.Extends bytes buf') :
    (Op.pollRead ctx buf answer buf').delivered = bytes := by
  cases answer with
  | ok => exact hext.drop_filled
  | err e => exact absurd rfl (hno e)
  | pending =>
    -- a pending poll has appended nothing
    obtain ⟨bytes', hcall⟩ := pollRead_callStep hpoll
    have hnil := hcall.output
    rw [hcall.pending rfl] at hnil
    rw [hnil.eq_of_nil] at hext
    exact (hext.eq_nil_iff.mpr rfl).symm

/-- **A run without seeks and errors** keeps the record. -/
theorem Recorded.run (hguarded : Guarded a r) (h : Recorded [] (fun _ => []) r.still)
    (hsteps : Steps r ops r') (hpolls : ∀ op ∈ ops, op.isPoll = true)
    (hok : ∀ op ∈ ops, op.succeeds = true) :
    Guarded a r' ∧ List.Forall₂ (KeepsRecord H) r.entries r'.entries ∧
      ∃ read, Recorded (deliveredBytes ops) read r'.still := by
  apply hsteps.invariant_of (fun op => op.isPoll = true ∧ op.succeeds = true)
    (fun op hop => ⟨hpolls op hop, hok op hop⟩)
    (fun ops r' => Guarded a r' ∧ List.Forall₂ (KeepsRecord H) r.entries r'.entries ∧
      ∃ read, Recorded (deliveredBytes ops) read r'.still)
    ⟨hguarded, forall₂_keepsRecord_refl _, _, h⟩
  rintro ops r₁ op r₂ ⟨hguarded₁, hkept₁, read₁, hrecorded₁⟩ ⟨hpoll, hsucceeds⟩ hstep
  cases op with
  | seek offset => cases hpoll
  | pollRead ctx buf answer buf' =>
    obtain ⟨fuel, hpolled⟩ := hstep
    have hno : NoError answer := by
      rintro e rfl
      cases hsucceeds
    have hguarded₂ := hguarded₁.pollRead hpolled
    obtain ⟨bytes, read₂, hext, hkept₂, hrecorded₂⟩ := hrecorded₁.pollRead hguarded₁ hno hpolled
    refine ⟨hguarded₂.1, forall₂_keepsRecord_trans hkept₁ hkept₂, read₂, ?_⟩
    rw [deliveredBytes_snoc, delivered_of_noError hpolled hno hext]
    exact hrecorded₂

/-- At the end the data that was read is complete, and the archive of it was delivered. -/
theorem Recorded.complete (h : Recorded out read s) (hfin : Finished s.readState) :
    Completes s.entries read read ∧ out = archiveBytes (recordedMembers H s.entries read) := by
  obtain ⟨hchunk, hempty⟩ := hfin
  have hcompletes : Completes s.entries read read := by
    refine ⟨fun i => List.prefix_refl _, ?_⟩
    intro i entry hentry
    by_cases hsize : entry.size = 0
    · rw [h.empty i entry hentry hsize, hsize]
      rfl
    · exact (h.behind i entry hentry hsize (hchunk ▸ trivial)).1
  refine ⟨hcompletes, ?_⟩
  have hbytes := h.bytes read hcompletes
  rw [hchunk, hempty] at hbytes
  simpa [bytesFrom, segmentsFrom] using hbytes

/-- A file of recorded data was checked. -/
theorem Recorded.checked {source : Name × BuilderEntry E} {i : Nat} {entry entry' : ReaderEntry E}
    (h : Recorded out read s) (hfin : Finished s.readState) (hentry : s.entries[i]? = some entry')
    (hfrom : BuiltFrom source entry) (hkept : KeepsRecord H entry entry') :
    Checked H source (entry.recorded H (read i)).file where
  name := hfrom.name
  size := by
    have hlen := (h.complete hfin).1.sizes i entry' hentry
    rw [← hfrom.size, ← hkept.size]
    exact hlen
  hashed := by
    intro hcase
    show (if entry.size = 0 then entry.crc32.getD (H.hash []) else _) = H.hash (read i)
    split
    · next hsize =>
      have hnone := hcase.resolve_left fun hne => hne (hfrom.size.symm.trans hsize)
      rw [hfrom.crc32, hnone, h.empty i entry' hentry (hkept.size.trans hsize)]
      rfl
    · rfl
  supplied := by
    intro crc hcrc
    have hcrc' := hfrom.crc32.trans hcrc
    show (if entry.size = 0 then entry.crc32.getD (H.hash []) else _) = crc
    split
    · rw [hcrc']
      rfl
    · next hsize =>
      -- the CRC supplied is the one that the data was compared with
      have hbehind := (h.behind i entry' hentry (hkept.size ▸ hsize) (hfin.1 ▸ trivial)).2
      obtain ⟨⟨crc32, rfl, hknown⟩, _⟩ := hkept
      exact Option.some.inj (hbehind.symm.trans (hknown crc hcrc'))
  time := congrArg DosDatetime.time hfrom.datetime
  date := congrArg DosDatetime.date hfrom.datetime
  externalAttributes := hfrom.externalAttributes

end Runs

section Sound
variable {b : Builder E} {r r' : Reader E H} {ops : List (Op E)}

/-- Bytes that are decoded to a file for every entry of a builder, each of them checked. -/
def SoundArchive (H : Crc32Fast) (b : Builder E) (bytes : List UInt8) : Prop :=
  ∃ files, Zip64.decode bytes = some files ∧ List.Forall₂ (Checked H) b.entries.entries files

/-- What was delivered when the reader is finished. -/
theorem sound_of_finished (hb : b.Reached) (hbuild : b.build = .ok r) (hsteps : Steps r ops r')
    (hpolls : ∀ op ∈ ops, op.isPoll = true) (hok : ∀ op ∈ ops, op.succeeds = true)
    (hfin : Finished r'.readState) :
    (deliveredBytes ops).length = r.size ∧ SoundArchive H b (deliveredBytes ops) := by
  obtain ⟨a, hbuilt, hguarded⟩ := hb.guarded hbuild
  have hfresh : Recorded [] (fun _ => []) r.still := by
    rw [hbuilt.reader]
    exact recorded_new _ _
  obtain ⟨_, hkept, read, hrecorded⟩ := hfresh.run hguarded hsteps hpolls hok
  obtain ⟨hcompletes, hbytes⟩ := hrecorded.complete hfin
  have hkept' : List.Forall₂ (KeepsRecord H) r.entries r'.still.entries := hkept
  rw [recordedMembers_keeps hkept'] at hbytes
  have hsizes := (hcompletes.keeps hkept').sizes
  -- the archive of what was read
  obtain ⟨a', hmembers⟩ : ∃ a' : Archive, a'.members = recordedMembers H r.entries read :=
    ⟨recordedArchive H a hbuilt.listed read, rfl⟩
  have hhonest : ∀ m ∈ a'.members, m.Honest := by
    intro m hm
    rw [hmembers] at hm
    obtain ⟨i, hi, rfl⟩ := List.mem_mapIdx.mp hm
    exact hsizes i _ (List.getElem?_eq_getElem hi)
  have hlayout : layoutSizes a'.members = layoutSizes a.members := by
    rw [hmembers, layoutSizes_recorded hbuilt.listed]
  rw [← hmembers] at hbytes
  refine ⟨?_, a'.members.map Member.file, ?_, ?_⟩
  · rw [hbytes, length_archiveBytes hhonest, hlayout, hbuilt.reader]
    rfl
  · rw [hbytes]
    exact decode_archiveBytes hhonest
  · have hlen : b.entries.entries.length = a'.members.length := by
      rw [hbuilt.sources.length_eq, hmembers, length_recordedMembers]
    refine List.forall₂_iff_get.mpr ⟨by rw [List.length_map, hlen], ?_⟩
    intro i hi _
    have hir : i < r.entries.length := hbuilt.sources.length_eq ▸ hi
    have hfrom := (List.forall₂_iff_get.mp hbuilt.sources).2 i hi hir
    obtain ⟨entry', hentry', hkeeps⟩ :=
      Forking.forall₂_getElem? hkept' (List.getElem?_eq_getElem hir)
    have hchecked := hrecorded.checked hfin hentry' hfrom hkeeps
    simpa [hmembers, recordedMembers] using hchecked

/-- **A read without errors delivers a sound archive**, whatever the sources do. -/
theorem complete_read_is_sound (hb : b.Reached) (hbuild : b.build = .ok r)
    (hsteps : Steps r ops r') (hpolls : ∀ op ∈ ops, op.isPoll = true)
    (hok : ∀ op ∈ ops, op.succeeds = true) (hend : r'.AtEnd) :
    (deliveredBytes ops).length = r.size ∧ SoundArchive H b (deliveredBytes ops) := by
  obtain ⟨ctx, fuel, buf, last, hroom, hlast⟩ := hend
  -- the last poll delivers nothing and leaves the reader finished
  have hdelivered : deliveredBytes (ops ++ [.pollRead ctx buf (.ok ()) buf]) = deliveredBytes ops := by
    rw [deliveredBytes_snoc]
    simp [Op.delivered]
  rw [← hdelivered]
  refine sound_of_finished hb hbuild (.snoc hsteps ⟨fuel, hlast⟩) ?_ ?_
    (finished_of_pollRead hroom hlast)
  · exact List.forall_mem_append.mpr ⟨hpolls, List.forall_mem_singleton.mpr rfl⟩
  · exact List.forall_mem_append.mpr ⟨hok, List.forall_mem_singleton.mpr rfl⟩

end Sound

/-! ### Streams -/

section Streams
variable {lib : PollReadBuf} {ctx : E.Context} {fuel : Nat} {allocated : Allocated READ_SIZE}
  {b : Builder E} {r : Reader E H} {s s' : BytesStream E H} {polls : List (BodyPoll E)}

/-- A reader that is finished stays so. -/
theorem Finished.pollRead {r' : Reader E H} {buf buf' : ReadBuf}
    {answer : PollResult (IoError E) Unit} (h : Finished r.readState)
    (hpoll : r.pollRead ctx fuel buf = .ok (answer, r', buf')) : Finished r'.readState := by
  have hloop : (readLoop r.sizes ctx buf.remaining fuel).wp (fun _ => True)
      (fun _ s' => Finished s'.readState) (r.frame buf) := by
    refine readLoop_rule (I := fun _ s => Finished s.readState) (fun _ _ => trivial) ?_
      (fun _ _ hfin _ => hfin) h
    intro fuel s hfin _
    unfold readIteration
    rw [wp_get_bind, if_neg (not_not.mpr hfin.2), if_pos hfin.1]
    exact ⟨fun _ => hfin, fun _ => hfin⟩
  exact (Exec.wp_of_eq_ok (pollRead_rule (F := fun _ => True)
    (Q := fun _ s' => Finished s'.readState) trivial (fun _ _ hfin => hfin) hloop) hpoll).2

/-- A stream ends when its reader is finished, and this stays so. -/
theorem StreamPolled.finished {poll : BodyPoll E} {op : Op E} (h : StreamPolled poll s s' op)
    (hend : poll.answer = .ok none ∨ Finished s.reader.readState) :
    Finished s'.reader.readState := by
  rcases hend with hnone | hfin
  · obtain ⟨ctx, fuel, buf, hroom, hpoll⟩ := h.ended hnone
    exact finished_of_pollRead hroom hpoll
  · have hstep := h.step
    have hpoll := h.isPoll
    cases op with
    | seek offset => cases hpoll
    | pollRead ctx buf answer buf' =>
      obtain ⟨fuel, hpoll⟩ := hstep
      exact hfin.pollRead hpoll

/-- A run of a stream is a run of its reader. -/
theorem BytesStream.steps_of_run (hrun : (streamSystem lib).Run s polls s')
    (hno : ∀ poll ∈ polls, NoError poll.answer) :
    ∃ ops, Steps s.reader ops s'.reader ∧ (∀ op ∈ ops, op.isPoll = true) ∧
      (∀ op ∈ ops, op.succeeds = true) ∧ deliveredBytes ops = yielded polls ∧
      ((∃ poll ∈ polls, poll.answer = .ok none) → Finished s'.reader.readState) := by
  apply hrun.invariant_of (fun poll => NoError poll.answer) hno
    (fun polls s' => ∃ ops, Steps s.reader ops s'.reader ∧ (∀ op ∈ ops, op.isPoll = true) ∧
      (∀ op ∈ ops, op.succeeds = true) ∧ deliveredBytes ops = yielded polls ∧
      ((∃ poll ∈ polls, poll.answer = .ok none) → Finished s'.reader.readState))
  · exact ⟨[], .nil, by simp, by simp, rfl, by simp⟩
  · rintro polls s₁ poll s₂ ⟨ops, hsteps, hpolls, hok, hyielded, hended⟩ hnoError hstep
    obtain ⟨op, hpolled⟩ := streamPolled_of_step hstep
    refine ⟨ops ++ [op], .snoc hsteps hpolled.step, ?_, ?_, ?_, ?_⟩
    · exact List.forall_mem_append.mpr ⟨hpolls, List.forall_mem_singleton.mpr hpolled.isPoll⟩
    · exact List.forall_mem_append.mpr
        ⟨hok, List.forall_mem_singleton.mpr (hpolled.succeeds hnoError)⟩
    · rw [deliveredBytes_snoc, yielded_snoc, hyielded, hpolled.delivered]
    · rintro ⟨poll', hmem, hnone⟩
      apply hpolled.finished
      rcases List.mem_append.mp hmem with hold | hnew
      · exact .inr (hended ⟨poll', hold, hnone⟩)
      · rw [List.mem_singleton.mp hnew] at hnone
        exact .inl hnone

/-- **A byte stream that ends without an error was a sound archive**, whatever the sources do. -/
theorem ended_stream_is_sound (hb : b.Reached) (hbuild : b.build = .ok r)
    (hrun : (streamSystem lib).Run (r.intoBytesStream allocated) polls s)
    (hno : ∀ poll ∈ polls, NoError poll.answer) (hended : ∃ poll ∈ polls, poll.answer = .ok none) :
    (yielded polls).length = r.size ∧ SoundArchive H b (yielded polls) := by
  obtain ⟨ops, hsteps, hpolls, hok, hyielded, hfin⟩ := BytesStream.steps_of_run hrun hno
  rw [← hyielded]
  exact sound_of_finished hb hbuild hsteps hpolls hok (hfin hended)

end Streams

end Model

/-- A source that announces no bytes but has some, and an honest one. -/
def understatedFiles : List (Source steady) :=
  [([0x61], .reporting [1, 2, 3] 0, none), ([0x62], .reporting [9] 1, none)]

/-- What was delivered of them is decoded and checked. -/
theorem complete_read_is_sound_understated :
    ∃ x : Session steady crc32Ieee, session crc32Ieee understatedFiles 20 steadyPolls = some x ∧
      SoundArchive crc32Ieee x.builder (deliveredBytes x.ops) := by
  have hrun : (session crc32Ieee understatedFiles 20 steadyPolls).map (fun x =>
      (x.ops.all Op.isPoll, x.ops.all Op.succeeds, x.last.endTest true 20)) =
        some (true, true, true) := by
    decide +kernel
  obtain ⟨x, hx, h, hseen⟩ := exists_session hrun
  have hpolls : x.ops.all Op.isPoll = true := congrArg Prod.fst hseen
  have hok : x.ops.all Op.succeeds = true := congrArg (fun seen => seen.2.1) hseen
  have hend : x.last.endTest true 20 = true := congrArg (fun seen => seen.2.2) hseen
  exact ⟨x, hx, (complete_read_is_sound h.reached h.build h.steps (List.all_eq_true.mp hpolls)
    (List.all_eq_true.mp hok) (Reader.atEnd_of_endTest hend)).2⟩

/-- The poll was answered without an error. -/
def BodyPoll.isSound {E : EntryData} (poll : BodyPoll E) : Bool :=
  match poll.answer with
  | .err _ => false
  | _ => true

theorem BodyPoll.noError_of_isSound {E : EntryData} {poll : BodyPoll E} (h : poll.isSound = true) :
    NoError poll.answer := by
  intro e heq
  unfold BodyPoll.isSound at h
  rw [heq] at h
  cases h

/-- A byte stream of the same files, polled over its end. -/
theorem ended_stream_is_sound_understated :
    ∃ x : Session steady crc32Ieee, session crc32Ieee understatedFiles 20 [] = some x ∧
      ∃ polls : List (BodyPoll steady), SoundArchive crc32Ieee x.builder (yielded polls) := by
  have hrun : (session crc32Ieee understatedFiles 20 []).map (fun x =>
      ((x.reader.intoBytesStream ⟨READ_SIZE, Nat.le_refl _⟩).polls 8300
        [true, false, true, true, true, true]).map fun result =>
          (result.1.all BodyPoll.isSound, result.1.any BodyPoll.isEnd)) =
        some (some (true, true)) := by
    decide +kernel
  obtain ⟨x, hx, h, hseen⟩ := exists_session hrun
  obtain ⟨⟨polls, s⟩, hpolls, hseen⟩ := Option.map_eq_some_iff.mp hseen
  have hsound : polls.all BodyPoll.isSound = true := congrArg Prod.fst hseen
  have hended : polls.any BodyPoll.isEnd = true := congrArg Prod.snd hseen
  obtain ⟨poll, hpoll, hnone⟩ := List.any_eq_true.mp hended
  exact ⟨x, hx, polls, (ended_stream_is_sound h.reached h.build (BytesStream.run_of_polls hpolls)
    (fun poll hmem => BodyPoll.noError_of_isSound (List.all_eq_true.mp hsound poll hmem))
    ⟨poll, hpoll, BodyPoll.answer_of_isEnd hnone⟩).2⟩

end Zippity
