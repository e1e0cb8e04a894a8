import Zippity.Reader.Call
import Zippity.Session

/-! # Behind a size error

    `read_entry_data` reports a wrong size when it has nothing left to read, and
    drops the reader of the entry.  The next poll opens the entry again and
    outputs its data once more.  Only an entry without data has nothing to
    output: then no attempt counts more than what was skipped, and every one of
    them fails.
-/

namespace Zippity

open Framework Async

section Model
variable {E : EntryData} {H : Crc32Fast}

/-! ### An entry without data -/

/-- The answer is `Pending` or an error, nothing was output, and the same is left to be read. -/
structure Refused {α : Type} (a : Archive) (i : Nat) (m : Member) (s : Frame E H)
    (r : PollResult (IoError E) α) (s' : Frame E H) : Prop where
  answer : ∀ x, r ≠ .ok x
  output : s'.output = s.output
  drained : Drained a s'.readState i m

section Turn
variable {mayFail : Prop} {a : Archive} {s : Frame E H} {rest : Tail UInt8} {i : Nat} {m : Member}

/-- **A turn at an entry without data** outputs nothing and goes on to nothing. -/
theorem readIteration_refused {sizes : Sizes} {ctx : E.Context} {fuel : Nat}
    (h : InStream mayFail a s rest) (hdrained : Drained a s.readState i m)
    (hroom : 0 < s.output.remaining) :
    (readIteration sizes ctx fuel s.output.remaining).wp (fun _ => True) (Refused a i m s) s := by
  obtain ⟨⟨hchunk, hempty, hm, hskip⟩, hdata⟩ := hdrained
  obtain ⟨entry, hentry, hrep⟩ := h.stocked.entry hm
  obtain ⟨base, k, n, hk, hbase, hretried, hshort, hstands, _⟩ :=
    h.stands.reading_of_chunk hchunk hempty hentry hm hrep hskip
  have hfin : s.readState.currentChunk ≠ .finished := by
    rw [hchunk]
    simp
  have hsize : (segmentOf H a.members s.readState.currentChunk).size = m.size := by
    simp [hchunk, segmentOf, hm, Member.dataSegment]
  have hhalts : m.haltsFrom H base k = true := by
    have := hshort hdata
    refine decide_eq_true (.inl ?_)
    rw [hdata, List.length_nil]
    omega
  -- whatever is left to skip lies in the announced size
  have hleft : ∀ {slot : ReaderPinned E H} {n' toSkip : Nat},
      DataStands mayFail entry m k n' toSkip slot →
      Drained a { s.readState with chunkProcessedSize := base + n', toSkip } i m := by
    intro slot n' toSkip hstands'
    have hsum := hstands'.sum_eq hdata
    refine ⟨⟨hchunk, hempty, hm, ?_⟩, hdata⟩
    show toSkip < m.size
    omega
  have hread : (readEntryData ctx fuel).wp (Excused mayFail True True)
      (DataOutcome mayFail m base k n ⟨s.readState, entry, s.pinned, s.output⟩)
      ⟨s.readState, entry, s.pinned, s.output⟩ :=
    readEntryData_wp hrep hbase hretried hstands hk (a.size_lt (List.mem_of_getElem? hm)) hroom
      (absurd trivial) (absurd trivial)
  have hentryRead : (onEntry i (readEntryData ctx fuel)).wp (fun _ => True)
      (Refused a i m s) s := by
    rw [onEntry_wp hentry]
    refine wp_mono hread (fun _ _ => trivial) ?_
    intro r t houtcome
    cases houtcome with
    | interrupted slot hr _ hstands' _ =>
      cases hr with
      | pending => exact ⟨by simp, rfl, hleft hstands'⟩
      | failed e _ => exact ⟨by simp, rfl, hleft hstands'⟩
    | more slot _ hne hbytes _ _ =>
      rw [hdata, List.drop_nil] at hbytes
      exact absurd (List.append_eq_nil_iff.mp hbytes.symm).1 hne
    | done _ hgo =>
      rw [hhalts] at hgo
      cases hgo
    | crcMismatch slot _ _ _ hstands' _ => exact ⟨by simp, rfl, hleft hstands'⟩
    | sizeMismatch _ _ hskip' _ => exact ⟨by simp, rfl, ⟨hchunk, hempty, hm, hskip'⟩, hdata⟩
  have hchunkRead : (readChunk sizes ctx fuel s.output.remaining).wp (fun _ => True)
      (Refused a i m s) s := by
    unfold readChunk
    rw [wp_get_bind, hchunk]
    dsimp only
    rw [if_neg (by simp), zippityReady_wp]
    refine wp_mono hentryRead (fun _ _ => trivial) ?_
    intro r s' hrefused
    cases r with
    | ok x => exact absurd rfl (hrefused.answer x)
    | err e => exact ⟨by simp, hrefused.output, hrefused.drained⟩
    | pending =>
      -- nothing was written, so `Pending` is passed on
      dsimp only
      rw [if_pos (by rw [hrefused.output])]
      exact ⟨by simp, hrefused.output, hrefused.drained⟩
  unfold readIteration
  rw [wp_get_bind, if_neg (by simpa using hempty), if_neg hfin, wp_bind, wp_lift,
    chunkSize_eq h.stocked.listed h.stands.located hfin, hsize]
  simp only [Exec.wp_ok, andThen]
  rw [if_neg (by omega)]
  unfold processChunk
  rw [wp_bind]
  refine wp_mono hchunkRead (fun _ _ => trivial) ?_
  intro r s' hrefused
  cases r with
  | ok x => exact absurd rfl (hrefused.answer x)
  | pending => exact ⟨by simp, hrefused.output, hrefused.drained⟩
  | err e => exact ⟨by simp, hrefused.output, hrefused.drained⟩

/-- A call at an entry without data. -/
theorem pollRead_refused {r r' : Reader E H} {ctx : E.Context} {fuel : Nat} {buf buf' : ReadBuf}
    {answer : PollResult (IoError E) Unit} (h : ReaderAt mayFail a r rest)
    (hdrained : Drained a r.readState i m) (hroom : 0 < buf.remaining)
    (hpoll : r.pollRead ctx fuel buf = .ok (answer, r', buf')) :
    (∀ x, answer ≠ .ok x) ∧ buf' = buf ∧ Drained a r'.readState i m := by
  have hroom' : (r.frame buf).output.remaining > 0 := hroom
  have hread : (read r.sizes ctx fuel).wp (fun _ => True) (Refused a i m (r.frame buf))
      (r.frame buf) := by
    unfold read
    rw [wp_get_bind, wp_bind]
    cases fuel with
    | zero => trivial
    | succ fuel =>
      unfold readLoop
      rw [wp_get_bind, if_pos hroom', wp_bind]
      have hturn : (readIteration r.sizes ctx fuel (r.frame buf).output.remaining).wp (fun _ => True)
          (Refused a i m (r.frame buf)) (r.frame buf) :=
        readIteration_refused ⟨h.stocked, h.stands⟩ hdrained hroom
      refine wp_mono hturn (fun _ _ => trivial) ?_
      intro r' s' hrefused
      cases r' with
      | ok x => exact absurd rfl (hrefused.answer x)
      | pending => exact ⟨by simp, hrefused.output, hrefused.drained⟩
      | err e => exact ⟨by simp, hrefused.output, hrefused.drained⟩
  have hwp : Exec.wp (fun _ => True) (fun out =>
      (∀ x, out.1 ≠ .ok x) ∧ out.2.2 = buf ∧ Drained a out.2.1.readState i m)
      (r.pollRead ctx fuel buf) := by
    unfold Reader.pollRead
    rw [Exec.wp_bind]
    refine Exec.wp_mono hread (fun _ _ => trivial) ?_
    rintro ⟨answer, s'⟩ hrefused
    exact ⟨hrefused.answer, hrefused.output, hrefused.drained⟩
  have hpost := Exec.wp_of_eq_ok hwp hpoll
  exact hpost

end Turn

/-! ### Runs -/

/-- A `poll_read` on a buffer with room. -/
def Op.PollsWithRoom : Op E → Prop
  | .pollRead _ buf _ _ => 0 < buf.remaining
  | .seek _ => False

instance (op : Op E) : Decidable op.PollsWithRoom := by
  cases op with
  | pollRead _ buf => exact inferInstanceAs (Decidable (0 < buf.remaining))
  | seek => exact inferInstanceAs (Decidable False)

/-- The error of the reader itself that an operation answered. -/
def Op.readError : Op E → Option ReadError
  | .pollRead _ _ (.err (.read e)) _ => some e
  | _ => none

/-- Such an operation is a poll. -/
theorem Op.eq_of_readError {op : Op E} {e : ReadError} (h : op.readError = some e) :
    ∃ ctx buf buf', op = .pollRead ctx buf (.err (.read e)) buf' := by
  unfold Op.readError at h
  split at h
  · next ctx buf e' buf' =>
    cases h
    exact ⟨ctx, buf, buf', rfl⟩
  · cases h

/-- The operation answered `Pending` or an error, and appended nothing. -/
def Op.IsRefused : Op E → Prop
  | .pollRead _ buf answer buf' => answer ≠ .ok () ∧ buf' = buf
  | .seek _ => False

section Runs
variable {mayFail : Prop} {content : E.Data → List UInt8} {b : Builder E} {r r₁ r₂ r' : Reader E H}
  {before after : List (Op E)}

/-- **A run of polls at an entry without data** delivers nothing. -/
theorem Steps.refused {a : Archive} {rest : Tail UInt8} {i : Nat} {m : Member}
    (h : ReaderAt mayFail a r rest) (hdrained : Drained a r.readState i m)
    (hsteps : Steps r after r') (hpolls : ∀ op ∈ after, op.PollsWithRoom) :
    ∀ op ∈ after, op.IsRefused := by
  have hrun : (∀ op ∈ after, op.IsRefused) ∧ Drained a r'.readState i m ∧
      ∃ rest', ReaderAt mayFail a r' rest' := by
    induction hsteps with
    | nil => exact ⟨by simp, hdrained, rest, h⟩
    | @snoc ops r₁ r₂ op hrun hstep ih =>
      obtain ⟨hrefused, hdrained₁, rest₁, hat₁⟩ := ih fun o ho => hpolls o (by simp [ho])
      have hpoll := hpolls op (by simp)
      cases op with
      | seek offset => exact hpoll.elim
      | pollRead ctx buf answer buf' =>
        obtain ⟨fuel, hpollRead⟩ := hstep
        obtain ⟨hanswer, hbuf, hdrained₂⟩ := pollRead_refused hat₁ hdrained₁ hpoll hpollRead
        obtain ⟨bytes, hpolled⟩ := pollRead_step hat₁ hpollRead
        refine ⟨?_, hdrained₂, hpolled.outcome.readerAt⟩
        intro o ho
        rcases List.mem_append.mp ho with ho | ho
        · exact hrefused o ho
        · obtain rfl := List.mem_singleton.mp ho
          exact ⟨hanswer (), hbuf⟩
  exact hrun.1

/-- **A size error of an entry without data stays an error**: after whatever operations it was
    reported, no poll before the next seek delivers a byte or answers `Ready(Ok)`. -/
theorem mismatch_stays {name : Name} {expected actual : Nat} {ctx : E.Context} {buf buf' : ReadBuf}
    (hb : b.Reached) (hbuild : b.build = .ok r) (hdeliver : b.Delivering content mayFail)
    (hempty : ∀ entry, (name, entry) ∈ b.entries.entries → content entry.data = [])
    (hbefore : Steps r before r₁)
    (hmismatch : readerSystem.step r₁
      (.pollRead ctx buf (.err (.read (.sizeMismatch name expected actual))) buf') r₂)
    (hafter : Steps r₂ after r') (hpolls : ∀ op ∈ after, op.PollsWithRoom) :
    ∀ op ∈ after, op.IsRefused := by
  obtain ⟨a, hbuilt⟩ := hb.built content hbuild
  obtain ⟨rest, hat⟩ := Steps.readerAt (hbuilt.start hdeliver) hbefore
  obtain ⟨fuel, hpoll⟩ := hmismatch
  obtain ⟨bytes, hpolled⟩ := pollRead_step hat hpoll
  have houtcome := hpolled.outcome
  generalize hanswer : (PollResult.err (.read (.sizeMismatch name expected actual)) :
    PollResult (IoError E) Unit) = answer at houtcome
  cases houtcome with
  | ok => cases hanswer
  | pending => cases hanswer
  | failed => cases hanswer
  | crcMismatch => cases hanswer
  | @sizeMismatch rest' m actual' hm hsize hstream hat₂ hdata =>
    cases hanswer
    obtain ⟨i, hdata₂⟩ := hdata
    have hnone : m.data = [] := by
      -- the member of the error is that of the builder's entry
      rw [hbuilt.members] at hm
      obtain ⟨entry, hentry, rfl⟩ := List.mem_map.mp hm
      obtain ⟨name', source, hsource, hfrom⟩ := hbuilt.source hentry
      show content entry.data = []
      rw [hfrom.data]
      apply hempty
      have hname : (ReaderEntry.member H content entry).name = name' := hfrom.name
      rw [hname]
      exact hsource
    exact Steps.refused hat₂ ⟨hdata₂, hnone⟩ hafter hpolls

end Runs

end Model

/-! ### Sessions -/

/-- A file that reports 20 bytes and yields 10. -/
def halfFile : List (Source steady) := [([0x61], .reporting (List.replicate 10 7) 20, none)]

/-- A file that reports 20 bytes and yields none. -/
def voidFile : List (Source steady) := [([0x61], .reporting [] 20, none)]

/-- Behind the size error the data is delivered once more, and as the two attempts together have
    the announced size, the rest of the archive follows. -/
theorem mismatch_read_again :
    ∃ x : Session steady crc32Ieee,
      session crc32Ieee halfFile 20 (List.replicate 5 (.poll true (.new 400))) = some x ∧
      x.builder.Reached ∧ x.builder.build = .ok x.reader ∧ Steps x.reader x.ops x.last ∧
      x.ops.map Op.readError = [none, none, some (.sizeMismatch [0x61] 20 10), none, none] ∧
      x.ops.map (fun op => op.delivered.length) = [59, 10, 0, 10, 197] ∧
      x.last.readState.currentChunk = .finished := by
  have hrun : (session crc32Ieee halfFile 20 (List.replicate 5 (.poll true (.new 400)))).map
      (fun x => decide (
        x.ops.map Op.readError = [none, none, some (.sizeMismatch [0x61] 20 10), none, none] ∧
        x.ops.map (fun op => op.delivered.length) = [59, 10, 0, 10, 197] ∧
        x.last.readState.currentChunk = .finished)) = some true := by decide +kernel
  obtain ⟨x, hx, h, hseen⟩ := exists_session hrun
  obtain ⟨herrors, hdelivered, hfinished⟩ := of_decide_eq_true hseen
  exact ⟨x, hx, h.reached, h.build, h.steps, herrors, hdelivered, hfinished⟩

/-- Entered in the middle of the announced data, a file without any is refused every time. -/
theorem mismatch_stays_session :
    ∃ x : Session steady crc32Ieee,
      session crc32Ieee voidFile 20 (.seek 65 :: List.replicate 3 (.poll true (.new 400))) =
        some x ∧
      ∃ first second polls, x.ops = first :: second :: polls ∧
        second.readError = some (.sizeMismatch [0x61] 20 0) ∧ polls.length = 2 ∧
        ∀ op ∈ polls, op.IsRefused := by
  have hrun : (session crc32Ieee voidFile 20
      (.seek 65 :: List.replicate 3 (.poll true (.new 400)))).map (fun x => decide (
        x.ops.map Op.readError = [none, some (.sizeMismatch [0x61] 20 0),
          some (.sizeMismatch [0x61] 20 6), some (.sizeMismatch [0x61] 20 6)] ∧
        ∀ op ∈ x.ops.drop 2, op.PollsWithRoom)) = some true := by decide +kernel
  obtain ⟨x, hx, h, hseen⟩ := exists_session hrun
  obtain ⟨herrors, hpolls⟩ := of_decide_eq_true hseen
  obtain ⟨first, rest, hops, _, hrest⟩ := List.map_eq_cons_iff.mp herrors
  obtain ⟨second, polls, rfl, hsecond, hlast⟩ := List.map_eq_cons_iff.mp hrest
  obtain ⟨ctx, buf, buf', rfl⟩ := Op.eq_of_readError hsecond
  rw [hops] at hpolls
  have hlength := congrArg List.length hlast
  rw [List.length_map] at hlength
  have hsteps := h.steps
  rw [hops] at hsteps
  obtain ⟨r₁, hfirst, hsteps⟩ := hsteps.cons_inv
  obtain ⟨r₂, hmismatch, hafter⟩ := hsteps.cons_inv
  have hempty : ∀ entry, ([0x61], entry) ∈ x.builder.entries.entries → entry.data.bytes = [] :=
    fun entry hentry => h.forall (P := fun s => s.2.1.bytes = []) (by decide) _ entry hentry
  exact ⟨x, hx, first, _, polls, hops, hsecond, hlength,
    mismatch_stays h.reached h.build (h.delivering steady_ne_fail) hempty
      (System.Run.cons hfirst .nil) hmismatch hafter hpolls⟩

end Zippity
