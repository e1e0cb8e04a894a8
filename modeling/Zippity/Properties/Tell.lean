import Zippity.Properties.Hostile
import Zippity.Properties.Passing

/-! # What `tell` counts

    `tell` counts the bytes of every `poll_read` that returned `Ready(Ok)`, with
    one exception: when a central header comes late in the call and the source
    of its entry is pending, the call returns before it counts them.
-/

namespace Zippity

open Framework

section Model
variable {E : EntryData} {H : Crc32Fast}

/-- `tell` counts an operation. -/
def Counts (r : Reader E H) (op : Op E) (r' : Reader E H) : Prop :=
  match op with
  | .pollRead _ _ (.ok ()) _ => r'.tell = r.tell + op.appended.length
  | .pollRead _ _ .pending _ => r'.tell = r.tell
  | .pollRead _ _ (.err _) _ => True
  | .seek offset => r'.tell = offset

/-- The sources of the headers that come late in a `poll_read` do not wait. -/
def NotSuspendedLate (r : Reader E H) : Op E → Prop
  | .pollRead ctx buf _ _ => ∀ i entry, Late r buf.remaining i entry →
      ¬ ReadThrough E entry.data ctx .pending
  | .seek _ => True

section Steps
variable {a : Archive} {r r' : Reader E H} {op : Op E} {ops : List (Op E)}

/-- A call is suspended late only by a source that waits. -/
theorem Guarded.exists_waiting (h : Guarded a r) {ctx : E.Context} {fuel : Nat} {buf : ReadBuf}
    (hlate : r.SuspendsLate ctx fuel buf) :
    ∃ i entry, Late r buf.remaining i entry ∧ ReadThrough E entry.data ctx .pending := by
  obtain ⟨turn, hmem, hwritten, crc, hcrc, rfl⟩ := hlate
  obtain ⟨i, entry, answer, _, hlate, hthrough, hanswers⟩ :=
    h.exists_late hmem hwritten hcrc trivial
  have hanswers : answer = .pending := hanswers
  exact ⟨i, entry, hlate, hanswers ▸ hthrough⟩

/-- A step that meets the condition is counted. -/
theorem Guarded.counts (hguarded : Guarded a r)
    (h : (readerSystem.restrict NotSuspendedLate).step r op r') : Counts r op r' := by
  obtain ⟨hnot, hstep⟩ := h
  cases op with
  | seek offset => exact (seekFromStart_seekStep hstep.2).tell
  | pollRead ctx buf answer buf' =>
    obtain ⟨fuel, hpoll⟩ := hstep
    obtain ⟨bytes, hcall⟩ := pollRead_callStep hpoll
    cases answer with
    | ok =>
      show r'.tell = r.tell + (buf'.filled.drop buf.filled.length).length
      rw [hcall.output.drop_filled]
      refine (hcall.counted rfl).mpr fun hlate => ?_
      obtain ⟨i, entry, hlate, hwaits⟩ := hguarded.exists_waiting hlate
      exact hnot i entry hlate hwaits
    | pending => exact hcall.uncounted (by simp)
    | err e => trivial

/-- An error leaves `tell` as it is. -/
theorem tell_of_err {ctx : E.Context} {buf buf' : ReadBuf} {e : IoError E}
    (h : readerSystem.step r (.pollRead ctx buf (.err e) buf') r') : r'.tell = r.tell := by
  obtain ⟨fuel, hpoll⟩ := h
  obtain ⟨bytes, hcall⟩ := pollRead_callStep hpoll
  exact hcall.uncounted (by simp)

/-- A step that meets the condition advances `tell` by what it delivers. -/
theorem Guarded.tell_step (hguarded : Guarded a r)
    (h : (readerSystem.restrict NotSuspendedLate).step r op r') : r'.tell = op.advance r.tell := by
  have hcounts := hguarded.counts h
  cases op with
  | seek offset => exact hcounts
  | pollRead ctx buf answer buf' =>
    cases answer with
    | ok => exact hcounts
    | pending => exact hcounts
    -- an error counts nothing and delivers nothing
    | err e => exact tell_of_err h.2

/-- Along a run that meets the condition `tell` advances by what is delivered. -/
theorem Guarded.tell_foldl_advance (hguarded : Guarded a r)
    (hsteps : (readerSystem.restrict NotSuspendedLate).Run r ops r') :
    Guarded a r' ∧ r'.tell = ops.foldl Op.advance r.tell := by
  apply hsteps.invariant (fun ops r' => Guarded a r' ∧ r'.tell = ops.foldl Op.advance r.tell)
  · exact ⟨hguarded, rfl⟩
  · rintro ops r₁ op r₂ ⟨hguarded₁, h₁⟩ hstep
    refine ⟨(hguarded₁.step hstep.2).1, ?_⟩
    rw [List.foldl_append, ← h₁]
    exact hguarded₁.tell_step hstep

/-- Along a run that meets the condition `tell` is the logical position. -/
theorem Guarded.tell_logicalPosition (hguarded : Guarded a r) (hstart : r.tell = 0)
    (hsteps : (readerSystem.restrict NotSuspendedLate).Run r ops r') :
    r'.tell = logicalPosition ops := by
  rw [(hguarded.tell_foldl_advance hsteps).2, hstart]
  rfl

end Steps

section Built
variable {b : Builder E} {r r' : Reader E H} {ops : List (Op E)}

/-- **`tell` counts the bytes delivered**, in every run in which no source of a late header waits;
    and of right data a `poll_read` that returns `Ready(Ok)` is counted only then, also if calls of
    the data may fail. -/
theorem tell_counts_delivered (hb : b.Reached) (hbuild : b.build = .ok r)
    (hsteps : (readerSystem.restrict NotSuspendedLate).Run r ops r') :
    r'.tell = logicalPosition ops ∧
    (∀ op r'', (readerSystem.restrict NotSuspendedLate).step r' op r'' → Counts r' op r'') ∧
    ∀ content, b.Delivering content True → b.HonestSizes content →
      ∀ ctx fuel buf r'' buf', r'.pollRead ctx fuel buf = .ok (.ok (), r'', buf') →
        (Counts r' (.pollRead ctx buf (.ok ()) buf') r'' ↔
          NotSuspendedLate r' (.pollRead ctx buf (.ok ()) buf')) := by
  have hstart : r.tell = 0 := by
    obtain ⟨a, hbuilt⟩ := hb.built (fun _ => []) hbuild
    rw [hbuilt.reader]
    rfl
  obtain ⟨a, _, hguarded⟩ := hb.guarded hbuild
  have hguarded' := (hguarded.tell_foldl_advance hsteps).1
  refine ⟨hguarded.tell_logicalPosition hstart hsteps, fun op r'' hstep => hguarded'.counts hstep,
    ?_⟩
  intro content hdeliver hhonest ctx fuel buf r'' buf' hpoll
  refine ⟨fun hcounts i entry hlate hwaits => ?_, fun hnot => hguarded'.counts ⟨hnot, fuel, hpoll⟩⟩
  obtain ⟨a', hbuilt⟩ := hb.built content hbuild
  obtain ⟨rest, hat⟩ := Steps.readerAt (hbuilt.start hdeliver) hsteps.of_restrict
  have hguarded'' := (hbuilt.guarded.run hsteps.of_restrict).1
  -- the header was passed, unless the call was suspended and not counted
  have hread := hguarded''.readThrough_of_late hat (hbuilt.honest hhonest) hlate hpoll
  rcases hread with hread | hsuspends
  · have hsame := hread.unique hwaits
    cases hsame
  · obtain ⟨bytes, hcall⟩ := pollRead_callStep hpoll
    refine (hcall.counted rfl).mp ?_ hsuspends
    have hcounts : r''.tell = r'.tell + (buf'.filled.drop buf.filled.length).length := hcounts
    rwa [hcall.output.drop_filled] at hcounts

end Built

end Model

/-! ### Sessions

    The CRC of the third of `steadyFiles` is not known; a poll in the central
    directory writes the headers of the first two before it computes it. -/

/-- A test that `poll_read` is not suspended late: its sources go on, or no header comes late. -/
def Reader.unsuspended {H : Crc32Fast} (r : Reader steady H) : Op steady → Bool
  | .pollRead go buf _ _ => go || r.lateFree buf.remaining
  | .seek _ => true

theorem notSuspendedLate_of_test {H : Crc32Fast} (r : Reader steady H) (op : Op steady)
    (h : r.unsuspended op = true) : NotSuspendedLate r op := by
  cases op with
  | seek offset => trivial
  | pollRead go buf answer buf' =>
    intro i entry hlate hwaits
    rcases Bool.or_eq_true_iff.mp h with hgo | hfree
    · have hwait := (paced_readThrough hwaits).1 rfl
      simp [hgo] at hwait
    · exact Reader.not_late_of_lateFree hfree hlate

/-- Polls with much room: two wait in front of an entry, one computes the last CRC after it wrote
    two headers, and one ends in the middle of the headers. -/
def countedScript : List (Action steady) :=
  [.poll false (room 1000), .poll false (room 1000), .poll true (room 1000), .seek 256,
    .poll false (room 150), .seek 256, .poll true (room 1000), .seek 256, .poll false (room 170)]

theorem tell_counts_delivered_session :
    ∃ x : Session steady crc32Ieee, session crc32Ieee steadyFiles 30 countedScript = some x ∧
      logicalPosition x.ops = 426 ∧ x.last.tell = logicalPosition x.ops := by
  have hrun : (session crc32Ieee steadyFiles 30 countedScript).map
      (fun x => (logicalPosition x.ops,
        testScript Reader.unsuspended 30 x.reader countedScript)) = some (426, true) := by
    decide +kernel
  obtain ⟨x, hx, h, hseen⟩ := exists_session hrun
  have hsteps : (readerSystem.restrict NotSuspendedLate).Run x.reader x.ops x.last :=
    runScript_restrict notSuspendedLate_of_test (congrArg Prod.snd hseen) (session_run hx)
  exact ⟨x, hx, congrArg Prod.fst hseen, (tell_counts_delivered h.reached h.build hsteps).1⟩

/-- The poll returns `Ready(Ok)` with two headers, and `tell` is still the seek target. -/
theorem tell_misses_headers :
    ∃ x : Session steady crc32Ieee,
      session crc32Ieee steadyFiles 20 [.seek 256, .poll false (.new 1000)] = some x ∧
      x.builder.Reached ∧ x.builder.build = .ok x.reader ∧
      x.builder.Delivering PacedData.bytes False ∧ x.builder.HonestSizes PacedData.bytes ∧
      x.builder.RightCrcs PacedData.bytes crc32Ieee ∧ Steps x.reader x.ops x.last ∧
      logicalPosition x.ops = 406 ∧ x.last.tell = 256 := by
  have hrun : (session crc32Ieee steadyFiles 20 [.seek 256, .poll false (.new 1000)]).map
      (fun x => (logicalPosition x.ops, x.last.tell)) = some (406, 256) := by decide +kernel
  obtain ⟨x, hx, h, hseen⟩ := exists_session hrun
  exact ⟨x, hx, h.reached, h.build, h.delivering steady_ne_fail, h.honestSizes (by decide),
    h.rightCrcs (by decide +kernel), h.steps, congrArg Prod.fst hseen, congrArg Prod.snd hseen⟩

end Zippity
