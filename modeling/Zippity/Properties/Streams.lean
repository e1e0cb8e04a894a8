import Zippity.Properties.Delivery
import Zippity.Properties.Http

/-! # Blocks of a byte stream

    A `BytesStream` polls its reader once for each of its own polls, and what
    that delivers is the block it yields.  So the blocks are the archive from
    where the reader stood, none of them empty, and `None` is the answer just
    when they are all of it, then and ever after.
-/

namespace Zippity

open Framework Async

section Model
variable {E : EntryData} {H : Crc32Fast}

/-! ### Streams of sound archives -/

/-- How a stream answers that has `left` left: it waits, ends, or yields a block. -/
inductive StreamAnswer (left : List UInt8) :
    PollResult (IoError E) (Option (List UInt8)) → Prop where
  | pending : StreamAnswer left .pending
  | ended (hnil : left = []) : StreamAnswer left (.ok none)
  | block {block left' : List UInt8} (hne : block ≠ []) (hleft : left = block ++ left') :
    StreamAnswer left (.ok (some block))

/-- What a stream does next, after it yielded `done` of `archive`. -/
structure Streaming (lib : PollReadBuf) (archive done : List UInt8) (s : BytesStream E H) :
    Prop where
  answers : ∃ left, archive = done ++ left ∧ ∀ ctx fuel allocated answer s',
    BytesStream.pollNext lib ctx fuel allocated s = .ok (answer, s') → StreamAnswer left answer
  returns : ∀ ctx allocated, ∃ enough, ∀ fuel > enough, ∃ result,
    BytesStream.pollNext lib ctx fuel allocated s = .ok result
  /-- **Progress.**  Where the sources are pending at most `limit` times each, polls yield the rest of
      the archive and then `None`, if there are more of them than bytes left and suspensions to
      come. -/
  finishes : ∀ {limit : Nat} (p : Patience E limit) polls s', (streamSystem lib).Run s polls s' →
    (archive.length - done.length) + p.left s.reader.pinned.slot +
      limit * s.reader.entries.length < polls.length →
    done ++ yielded polls = archive ∧ ∃ poll ∈ polls, poll.answer = .ok none

section Sound
variable {lib : PollReadBuf} {a : Archive} {s s' : BytesStream E H} {left slice : List UInt8}
  {ctx : E.Context} {fuel : Nat} {allocated : Allocated READ_SIZE}
  {answer : PollResult (IoError E) (Option (List UInt8))}

/-- **A poll of a stream** with `left` left of a sound archive. -/
theorem StreamAt.poll_sound (h : StreamAt a s ⟨left, true⟩) (hsound : ∀ m ∈ a.members, m.Sound H)
    (hpoll : BytesStream.pollNext lib ctx fuel allocated s = .ok (answer, s')) :
    StreamAnswer left answer ∧ ∃ left', Taken left [⟨ctx, answer⟩] left' ∧
      StreamAt a s' ⟨left', true⟩ := by
  have hhonest : a.Honest := fun m hm => (hsound m hm).1
  have hwp : (BytesStream.pollNext lib ctx fuel allocated).wp (Excused False (¬ a.Honest) True)
      (StreamOutcome a ⟨left, true⟩) s := h.pollNext_wp hhonest (fun hs => absurd trivial hs)
  have houtcome := Exec.wp_of_eq_ok hwp hpoll
  have hpolled := Exec.wp_of_eq_ok s.pollNext_polled hpoll
  dsimp only at houtcome hpolled
  cases houtcome with
  | @block _ bytes rest' hne hstream h' =>
    obtain ⟨left', complete⟩ := rest'
    have hleft : left = bytes ++ left' := congrArg Tail.items hstream
    have hcomplete : true = complete := congrArg Tail.complete hstream
    subst hcomplete
    refine ⟨.block hne hleft, left', ⟨?_, by simpa using hne, by simp⟩, h'⟩
    simpa [yielded, BodyPoll.bytes] using hleft
  | ended hdone =>
    have hnil : left = [] := congrArg Tail.items hdone
    subst hnil
    -- the reader polled has nothing left either
    obtain ⟨op, hpolled⟩ := hpolled
    have hsteps := hpolled.polled.steps
    obtain ⟨rest, hstream, hat⟩ :=
      Steps.stream h.reader hsteps hpolled.polled.isPoll (Steps.succeeds hsound h.reader hsteps)
    obtain ⟨items, complete⟩ := rest
    have hitems : items = [] := (List.append_eq_nil_iff.mp (congrArg Tail.items hstream).symm).2
    have hcomplete : true = complete := congrArg Tail.complete hstream
    subst hitems hcomplete
    exact ⟨.ended rfl, [], ⟨rfl, by simp, by simp⟩, hat, hpolled.buffer, hpolled.capacity⟩
  | pending h' => exact ⟨.pending, left, ⟨rfl, by simp, by simp⟩, h'⟩
  | crcMismatch hm hcrc => exact absurd (hsound _ hm).2 hcrc

/-- **Along a run** a stream yields what it has left, block by block, and ends behind it; no poll
    fails. -/
theorem StreamAt.run {polls : List (BodyPoll E)} (h : StreamAt a s ⟨slice, true⟩)
    (hsound : ∀ m ∈ a.members, m.Sound H) (hrun : (streamSystem lib).Run s polls s') :
    ∃ left, Taken slice polls left ∧ (∀ poll ∈ polls, NoError poll.answer) ∧
      StreamAt a s' ⟨left, true⟩ := by
  apply hrun.invariant (fun polls s' => ∃ left, Taken slice polls left ∧
    (∀ poll ∈ polls, NoError poll.answer) ∧ StreamAt a s' ⟨left, true⟩)
  · exact ⟨slice, .refl _, by simp, h⟩
  · intro polls s₁ poll s₂ h₁ hstep
    obtain ⟨left, htaken, hok, hat⟩ := h₁
    obtain ⟨fuel, allocated, hpoll⟩ := hstep
    obtain ⟨hanswer, left', htaken', hat'⟩ := hat.poll_sound hsound hpoll
    refine ⟨left', htaken.trans htaken', ?_, hat'⟩
    rw [List.forall_mem_append, List.forall_mem_singleton]
    refine ⟨hok, fun e heq => ?_⟩
    rw [heq] at hanswer
    cases hanswer

/-- **A stream gets to its end**, when it is polled often enough. -/
theorem StreamAt.finishes {limit : Nat} (p : Patience E limit) {polls : List (BodyPoll E)}
    (h : StreamAt a s ⟨left, true⟩) (hsound : ∀ m ∈ a.members, m.Sound H)
    (hrun : (streamSystem lib).Run s polls s')
    (hlong : left.length + p.left s.reader.pinned.slot + limit * a.members.length < polls.length) :
    yielded polls = left ∧ ∃ poll ∈ polls, poll.answer = .ok none := by
  obtain ⟨left', htaken, hok, _⟩ := h.run hsound hrun
  have hreader : ∀ (s : BytesStream E H) poll s', (streamSystem lib).step s poll s' →
      ∃ ops, Polled [poll] s.reader ops s'.reader := by
    intro s poll s' hstep
    obtain ⟨op, hpolled⟩ := streamPolled_of_step hstep
    exact ⟨[op], hpolled.polled⟩
  obtain ⟨ops, hpolled⟩ := Polled.run hreader hrun
  exact hpolled.ends p h.reader htaken hok hlong

end Sound

/-! ### Streams of a built archive -/

section Built
variable {content : E.Data → List UInt8} {b : Builder E} {r r' : Reader E H} {ops : List (Op E)}
  {polls : List (BodyPoll E)} {s : BytesStream E H} {lib : PollReadBuf}
  {allocated : Allocated READ_SIZE}

/-- **A byte stream yields the archive** from where the reader stands, in blocks that are not
    empty; it ends just when all of it was yielded, and has ended for good. -/
theorem byte_stream_yields_archive (hb : b.Reached) (hbuild : b.build = .ok r)
    (hdeliver : b.Delivering content False) (hhonest : b.HonestSizes content)
    (hcrcs : b.RightCrcs content H) (hsteps : Steps r ops r')
    (hrun : (streamSystem lib).Run (r'.intoBytesStream allocated) polls s) :
    Streaming lib ((archiveBytes (r.members content)).drop (logicalPosition ops)) (yielded polls) s ∧
    ((∃ poll ∈ polls, poll.answer = .ok none) →
      yielded polls = (archiveBytes (r.members content)).drop (logicalPosition ops)) := by
  obtain ⟨a, hbuilt⟩ := hb.built content hbuild
  have hsound := hbuilt.sound hhonest hcrcs
  have hlossless : ∀ op ∈ ops, op.Lossless := by
    intro op hop hfailed
    rw [Steps.succeeds hsound (hbuilt.start hdeliver) hsteps op hop] at hfailed
    cases hfailed
  have hat := hbuilt.readerAt_logicalPosition hdeliver hsound hsteps hlossless
  rw [tailAt_segments_of_sound hsound] at hat
  have hsize : 0 < READ_SIZE := by decide
  have hstream : StreamAt a (r'.intoBytesStream allocated)
      ⟨(archiveBytes a.members).drop (logicalPosition ops), true⟩ :=
    ⟨hat, rfl, Nat.lt_of_lt_of_le hsize allocated.2⟩
  obtain ⟨left, htaken, _, hleft⟩ := hstream.run hsound hrun
  rw [← hbuilt.members]
  refine ⟨⟨⟨left, htaken.split, ?_⟩, ?_, ?_⟩, ?_⟩
  · intro ctx fuel allocated answer s' hpoll
    exact (hleft.poll_sound hsound hpoll).1
  · intro ctx allocated
    have hhonest' := hbuilt.honest hhonest
    refine ⟨s.reader.readState.currentChunk.rank a.members.length +
      (lib.offered s.buffer).remaining + (a.members.map (·.data.length)).sum, ?_⟩
    intro fuel hfuel
    have hwp : (BytesStream.pollNext lib ctx fuel allocated).wp (Excused False (¬ a.Honest) False)
        (StreamOutcome a ⟨left, true⟩) s := hleft.pollNext_wp hhonest' (fun _ => hfuel)
    have hnone := not_excused id (not_not.mpr hhonest') (id : ¬ False)
    obtain ⟨result, hpoll, _⟩ :=
      Exec.exists_of_wp (Exec.wp_mono hwp (fun f hf => (hnone f hf).elim) fun _ h => h)
    exact ⟨result, hpoll⟩
  · intro limit p more s' hmore hlong
    rw [htaken.split, List.length_append, Nat.add_sub_cancel_left, hleft.reader.stocked.length]
      at hlong
    obtain ⟨hyielded, hended⟩ := hleft.finishes p hsound hmore hlong
    exact ⟨by rw [hyielded, htaken.split], hended⟩
  · rintro ⟨poll, hpoll, hnone⟩
    rw [htaken.split, htaken.ended poll hpoll hnone, List.append_nil]

end Built

end Model

/-! ### A session -/

section Session
variable {E : EntryData} {H : Crc32Fast}

/-- Poll a stream with one context after the other. -/
def BytesStream.polls (fuel : Nat) (s : BytesStream E H) :
    List E.Context → Option (List (BodyPoll E) × BytesStream E H)
  | [] => some ([], s)
  | ctx :: rest =>
    match BytesStream.pollNext spareCapacity ctx fuel ⟨READ_SIZE, Nat.le_refl _⟩ s with
    | .error _ => none
    | .ok (answer, s) =>
      (s.polls fuel rest).map fun result => (⟨ctx, answer⟩ :: result.1, result.2)

theorem BytesStream.run_of_polls {fuel : Nat} {s s' : BytesStream E H} {ctxs : List E.Context}
    {polls : List (BodyPoll E)} (h : s.polls fuel ctxs = some (polls, s')) :
    (streamSystem spareCapacity).Run s polls s' := by
  induction ctxs generalizing s polls with
  | nil =>
    cases h
    exact .nil
  | cons ctx ctxs ih =>
    unfold BytesStream.polls at h
    split at h
    · cases h
    · next answer s₁ hpoll =>
      obtain ⟨result, hrest, heq⟩ := Option.map_eq_some_iff.mp h
      cases heq
      exact .cons ⟨fuel, ⟨READ_SIZE, Nat.le_refl _⟩, hpoll⟩ (ih hrest)

/-- The poll was answered `None`. -/
def BodyPoll.isEnd (poll : BodyPoll E) : Bool :=
  match poll.answer with
  | .ok none => true
  | _ => false

theorem BodyPoll.answer_of_isEnd {poll : BodyPoll E} (h : poll.isEnd = true) :
    poll.answer = .ok none := by
  unfold BodyPoll.isEnd at h
  split at h
  · next heq => exact heq
  · cases h

end Session

/-- A stream from the data of the first file on, polled over its end. -/
theorem byte_stream_yields_archive_session :
    ∃ x : Session steady crc32Ieee, session crc32Ieee steadyFiles 20 [.seek 61] = some x ∧
      ∃ polls : List (BodyPoll steady),
        yielded polls = (archiveBytes (x.reader.members PacedData.bytes)).drop 61 := by
  have hrun : (session crc32Ieee steadyFiles 20 [.seek 61]).map (fun x =>
      (logicalPosition x.ops,
        ((x.last.intoBytesStream ⟨READ_SIZE, Nat.le_refl _⟩).polls 8300
          [true, false, true, true, true, true, true]).map fun result =>
            result.1.any BodyPoll.isEnd)) = some (61, some true) := by
    decide +kernel
  obtain ⟨x, hx, h, hseen⟩ := exists_session hrun
  have hposition : logicalPosition x.ops = 61 := congrArg Prod.fst hseen
  obtain ⟨⟨polls, s⟩, hpolls, hended⟩ := Option.map_eq_some_iff.mp (congrArg Prod.snd hseen)
  obtain ⟨poll, hpoll, hnone⟩ := List.any_eq_true.mp hended
  refine ⟨x, hx, polls, ?_⟩
  rw [← hposition]
  exact (byte_stream_yields_archive h.reached h.build (h.delivering steady_ne_fail)
    (h.honestSizes (by decide)) (h.rightCrcs (by decide +kernel)) h.steps
    (BytesStream.run_of_polls hpolls)).2 ⟨poll, hpoll, BodyPoll.answer_of_isEnd hnone⟩

end Zippity
