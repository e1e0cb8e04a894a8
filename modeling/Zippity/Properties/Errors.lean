import Zippity.Properties.Delivery
import Zippity.Properties.Hostile
import Zippity.Properties.Passing

/-! # What a failed read appends

    A `poll_read` that fails appends nothing, with one exception: when a central
    header comes late in the call and the source of its entry fails.  Where this
    does not happen, a caller that polls again after an error gets the archive
    without a gap; the next poll may take up what failed and stop there, but it
    delivers nothing else.
-/

namespace Zippity

open Framework

section Model
variable {E : EntryData} {H : Crc32Fast}

/-- The sources of the headers that come late in a `poll_read` do not fail. -/
def NotFailedLate (r : Reader E H) : Op E → Prop
  | .pollRead ctx buf _ _ => ∀ i entry, Late r buf.remaining i entry →
      ∀ e, ¬ ReadThrough E entry.data ctx (.err e)
  | .seek _ => True

section Steps
variable {a : Archive} {r r' : Reader E H} {ops : List (Op E)} {ctx : E.Context} {fuel : Nat}
  {buf buf' : ReadBuf} {e : IoError E}

/-- Bytes are appended by a call that fails only late. -/
theorem failsLate_of_appended (h : r.pollRead ctx fuel buf = .ok (.err e, r', buf'))
    (hlost : ¬ (Op.pollRead ctx buf (.err e) buf').Lossless) : r.FailsLate e ctx fuel buf := by
  obtain ⟨bytes, hcall⟩ := pollRead_callStep h
  have happended : (Op.pollRead ctx buf (.err e) buf' : Op E).appended = bytes :=
    hcall.output.drop_filled
  by_contra hnot
  refine hlost fun _ => ?_
  rw [happended]
  exact (hcall.lost e rfl).mpr hnot

/-- **A failed call that appended bytes** met a late header, and its error is that of the source
    of the entry. -/
theorem Guarded.exists_failing (hguarded : Guarded a r)
    (h : r.pollRead ctx fuel buf = .ok (.err e, r', buf'))
    (hlost : ¬ (Op.pollRead ctx buf (.err e) buf').Lossless) :
    ∃ i entry cause, Late r buf.remaining i entry ∧ ReadThrough E entry.data ctx (.err cause) ∧
      e = .entry cause := by
  obtain ⟨turn, hmem, hwritten, crc, hcrc, rfl⟩ := failsLate_of_appended h hlost
  obtain ⟨i, entry, answer, _, hlate, hthrough, cause, hcause, hanswer⟩ :=
    hguarded.exists_late hmem hwritten hcrc trivial
  exact ⟨i, entry, cause, hlate, hanswer ▸ hthrough, hcause⟩

/-- A step that meets the condition loses nothing. -/
theorem Guarded.lossless {op : Op E} (hguarded : Guarded a r)
    (h : (readerSystem.restrict NotFailedLate).step r op r') : op.Lossless := by
  obtain ⟨hnot, hstep⟩ := h
  cases op with
  | seek offset => exact fun _ => rfl
  | pollRead ctx buf answer buf' =>
    obtain ⟨fuel, hpoll⟩ := hstep
    cases answer with
    | err e =>
      by_contra hlost
      obtain ⟨i, entry, cause, hlate, hfails, _⟩ := hguarded.exists_failing hpoll hlost
      exact hnot i entry hlate cause hfails
    | _ => exact fun hop => by cases hop

/-- A run that meets the condition loses nothing. -/
theorem Guarded.lossless_run (hguarded : Guarded a r)
    (hsteps : (readerSystem.restrict NotFailedLate).Run r ops r') : ∀ op ∈ ops, op.Lossless := by
  have hall : Guarded a r' ∧ ∀ op ∈ ops, op.Lossless := by
    apply hsteps.invariant (fun ops r' => Guarded a r' ∧ ∀ op ∈ ops, op.Lossless)
    · exact ⟨hguarded, by simp⟩
    · rintro ops r₁ op r₂ ⟨hguarded₁, hops⟩ hstep
      refine ⟨(hguarded₁.step hstep.2).1, ?_⟩
      intro op' hop'
      rcases List.mem_append.mp hop' with hold | hnew
      · exact hops op' hold
      · obtain rfl := List.mem_singleton.mp hnew
        exact hguarded₁.lossless hstep
  exact hall.2

/-- **A call on right data that appended bytes** fails just when the first late header that does not
    read through fails. -/
theorem Guarded.fails_iff {mayFail : Prop} {rest : Tail UInt8}
    {answer : PollResult (IoError E) Unit} (hguarded : Guarded a r)
    (hat : ReaderAt mayFail a r rest) (hhonest : a.Honest)
    (h : r.pollRead ctx fuel buf = .ok (answer, r', buf'))
    (happended : (Op.pollRead ctx buf answer buf').appended ≠ []) :
    (∃ e, answer = .err e) ↔ ∃ cause, LateAnswer r buf.remaining ctx (.err cause) := by
  obtain ⟨bytes, hcall⟩ := pollRead_callStep h
  constructor
  · rintro ⟨e, rfl⟩
    have hfails := failsLate_of_appended h fun hlossless => happended (hlossless rfl)
    obtain ⟨crc, answer, rfl, ⟨cause, _, rfl⟩, hlate⟩ :=
      hguarded.lateAnswer (P := (· = .err e)) hat hhonest (by rintro _ rfl; trivial) hfails
    exact ⟨cause, hlate⟩
  · rintro ⟨cause, hlate⟩
    cases answer with
    | err e => exact ⟨e, rfl⟩
    | pending => exact absurd (hcall.output.drop_filled.trans (hcall.pending rfl)) happended
    | ok =>
      obtain ⟨_, i, entry, hheader, hthrough, _⟩ := id hlate
      rcases hguarded.readThrough_of_late hat hhonest hheader h with hread | hsuspends
      · have hsame := hread.unique hthrough
        cases hsame
      · obtain ⟨crc, answer, rfl, hpending, hlate'⟩ :=
          hguarded.lateAnswer (P := (· = .pending)) hat hhonest (by rintro _ rfl; trivial) hsuspends
        have hpending : answer = .pending := hpending
        subst hpending
        have hsame := hlate.unique hlate'
        cases hsame

end Steps

section Built
variable {b : Builder E} {r r' : Reader E H} {ops : List (Op E)}

/-- **A failed read loses no output**, in every run in which no source of a late header fails; and
    a failed `poll_read` that appended bytes met such a source.  Of right data whose opens, reads
    and seeks may fail, a `poll_read` that appended bytes fails only there, every one that succeeds
    delivers the bytes of the archive without a gap, and one stops only if it takes up what
    failed. -/
theorem failed_read_appends_nothing (hb : b.Reached) (hbuild : b.build = .ok r)
    (hsteps : (readerSystem.restrict NotFailedLate).Run r ops r') :
    (∀ op ∈ ops, op.Lossless) ∧
    (∀ ctx fuel buf e r'' buf', r'.pollRead ctx fuel buf = .ok (.err e, r'', buf') →
      ¬ (Op.pollRead ctx buf (.err e) buf').Lossless →
        ∃ i entry cause, Late r' buf.remaining i entry ∧
          ReadThrough E entry.data ctx (.err cause) ∧ e = .entry cause) ∧
    ∀ content, b.Delivering content True → b.HonestSizes content →
      (∀ ctx fuel buf answer r'' buf', r'.pollRead ctx fuel buf = .ok (answer, r'', buf') →
        (Op.pollRead ctx buf answer buf').appended ≠ [] →
          ((∃ e, answer = .err e) ↔ ∃ cause, LateAnswer r' buf.remaining ctx (.err cause))) ∧
      (∀ ctx buf, ∃ enough, ∀ fuel > enough, ∀ f, r'.pollRead ctx fuel buf = .error f →
        r'.TakesUpFailure f) ∧
      (b.RightCrcs content H →
        ∀ ctx fuel buf r'' buf', r'.pollRead ctx fuel buf = .ok (.ok (), r'', buf') →
          PollDelivers (archiveBytes (r.members content)) (logicalPosition ops) buf
            (.ok () : PollResult (IoError E) Unit) buf') := by
  obtain ⟨a, _, hguarded⟩ := hb.guarded hbuild
  have hlossless := hguarded.lossless_run hsteps
  refine ⟨hlossless, ?_, ?_⟩
  · intro ctx fuel buf e r'' buf' hpoll hlost
    exact (hguarded.run hsteps.of_restrict).1.exists_failing hpoll hlost
  · intro content hdeliver hhonest
    obtain ⟨a', hbuilt⟩ := hb.built content hbuild
    have hhonest' := hbuilt.honest hhonest
    obtain ⟨rest, hat⟩ := Steps.readerAt (hbuilt.start hdeliver) hsteps.of_restrict
    have hguarded' := (hbuilt.guarded.run hsteps.of_restrict).1
    refine ⟨?_, fun ctx buf => hat.stops hguarded' hhonest' ctx buf, ?_⟩
    · intro ctx fuel buf answer r'' buf' hpoll happended
      exact hguarded'.fails_iff hat hhonest' hpoll happended
    · intro hcrcs ctx fuel buf r'' buf' hpoll
      -- a run that loses nothing stands in the stream where it counts to
      have hsound := hbuilt.sound hhonest hcrcs
      have hat := hbuilt.readerAt_logicalPosition hdeliver hsound hsteps.of_restrict hlossless
      obtain ⟨bytes, hpolled⟩ := pollRead_step hat hpoll
      have hstep := hpolled.sound hsound
      rw [← hbuilt.members]
      exact .ok hpolled.output hstep.bytes_eq (hstep.finished rfl)

end Built

end Model

/-! ### Sessions -/

/-- No poll fails. -/
def Pace.failFree : Pace → Bool
  | .fail => false
  | _ => true

/-- A test that `poll_read` does not fail late: its sources do not fail, or no header comes late. -/
def Reader.unfailed {H : Crc32Fast} (r : Reader faulty H) : Op faulty → Bool
  | .pollRead pace buf _ _ => Pace.failFree pace || r.lateFree buf.remaining
  | .seek _ => true

theorem notFailedLate_of_test {H : Crc32Fast} (r : Reader faulty H) (op : Op faulty)
    (h : r.unfailed op = true) : NotFailedLate r op := by
  cases op with
  | seek offset => trivial
  | pollRead pace buf answer buf' =>
    intro i entry hlate e hfails
    rcases Bool.or_eq_true_iff.mp h with hpace | hfree
    · have hfail : pace = Pace.fail := (paced_readThrough hfails).2 e rfl
      subst hfail
      cases hpace
    · exact Reader.not_late_of_lateFree hfree hlate

/-- Polls with much room: one fails at the data of the first file, and one at the header of the
    third, where it begins. -/
def failedScript : List (Action faulty) :=
  [.poll .fail (room 1000), .poll .go (room 2), .poll .fail (room 1000), .poll .go (room 1000),
    .seek 256, .poll .fail (room 150), .poll .fail (room 1000), .seek 256, .poll .go (room 170)]

theorem failed_read_appends_nothing_session :
    ∃ x : Session faulty crc32Ieee, session crc32Ieee faultyFiles 30 failedScript = some x ∧
      logicalPosition x.ops = 426 ∧ (∃ op ∈ x.ops, op.succeeds = false) ∧
      (∀ op ∈ x.ops, op.Lossless) ∧
      ∀ ctx fuel buf r' buf', x.last.pollRead ctx fuel buf = .ok (.ok (), r', buf') →
        PollDelivers (archiveBytes (x.reader.members PacedData.bytes)) 426 buf
          (.ok () : PollResult (IoError faulty) Unit) buf' := by
  have hrun : (session crc32Ieee faultyFiles 30 failedScript).map
      (fun x => (logicalPosition x.ops, testScript Reader.unfailed 30 x.reader failedScript,
        x.ops.any fun op => !op.succeeds)) = some (426, true, true) := by decide +kernel
  obtain ⟨x, hx, h, hseen⟩ := exists_session hrun
  have hposition : logicalPosition x.ops = 426 := congrArg Prod.fst hseen
  have hfailed : (x.ops.any fun op => !op.succeeds) = true := congrArg (·.2.2) hseen
  have hsteps : (readerSystem.restrict NotFailedLate).Run x.reader x.ops x.last :=
    runScript_restrict notFailedLate_of_test (congrArg (·.2.1) hseen) (session_run hx)
  have hmain := failed_read_appends_nothing h.reached h.build hsteps
  refine ⟨x, hx, hposition, by simpa using hfailed, hmain.1, ?_⟩
  rw [← hposition]
  exact (hmain.2.2 PacedData.bytes (h.delivering fun _ _ => trivial)
    (h.honestSizes (by decide))).2.2 (h.rightCrcs (by decide +kernel))

/-- A poll in the central directory fails after it appended two headers: the CRC of the third file
    is not known. -/
theorem failed_read_appends_headers :
    ∃ x : Session faulty crc32Ieee,
      session crc32Ieee faultyFiles 20 [.seek 256, .poll .fail (.new 1000)] = some x ∧
      x.builder.Reached ∧ x.builder.build = .ok x.reader ∧
      x.builder.Delivering PacedData.bytes True ∧ x.builder.HonestSizes PacedData.bytes ∧
      x.builder.RightCrcs PacedData.bytes crc32Ieee ∧ Steps x.reader x.ops x.last ∧
      ∃ op ∈ x.ops, op.succeeds = false ∧ op.appended.length = 150 := by
  have hrun : (session crc32Ieee faultyFiles 20 [.seek 256, .poll .fail (.new 1000)]).map
      (fun x => x.ops.any fun op => !op.succeeds && op.appended.length == 150) = some true := by
    decide +kernel
  obtain ⟨x, hx, h, hseen⟩ := exists_session hrun
  exact ⟨x, hx, h.reached, h.build, h.delivering fun _ _ => trivial, h.honestSizes (by decide),
    h.rightCrcs (by decide +kernel), h.steps, by simpa using hseen⟩

end Zippity
