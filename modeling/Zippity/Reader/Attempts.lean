import Zippity.Reader.RunSpec
import Zippity.Reader.Hardened

/-! # The first attempt at entry data

    A read without seeks and errors reads the data of every entry once, from its
    start.  The total it counts is then the length of the data, so it gets past
    the data of an entry only if this length is the announced size.
-/

namespace Zippity

open Framework Async

section Model
variable {E : EntryData} {H : Crc32Fast}

/-! ### The invariant -/

/-- The data of the current chunk is read from its start, and for the first time. -/
def FirstAttempt (mayFail : Prop) (a : Archive) (s : Frame E H) : Prop :=
  ∀ i entry m, s.readState.currentChunk = .entryData i → s.readState.stagingBuffer = [] →
    s.entries[i]? = some entry → a.members[i]? = some m →
    DataStands mayFail entry m 0 s.readState.chunkProcessedSize s.readState.toSkip s.pinned.slot

/-- A read without seeks and errors has not got past the data of entry `i`. -/
structure NotPast (mayFail : Prop) (a : Archive) (i : Nat) (s : Frame E H) : Prop where
  stream : ∃ rest, InStream mayFail a s rest
  hardened : Hardened a s
  behind : CrcsBehind s
  first : FirstAttempt mayFail a s
  ahead : ¬ s.readState.currentChunk.PastData i

section Turn
variable {mayFail : Prop} {a : Archive} {s s' : Frame E H} {rest : Tail UInt8} {m : Member}
  {sizes : Sizes} {ctx : E.Context} {fuel initialRemaining i j : Nat}
  {r : PollResult (IoError E) (Flow Unit)}

theorem FirstAttempt.of_chunk (h : ∀ i, s.readState.currentChunk ≠ .entryData i) :
    FirstAttempt mayFail a s :=
  fun i _ _ hchunk => absurd hchunk (h i)

/-- Between two chunks nothing was read of the next one. -/
theorem firstAttempt_between (hstocked : Stocked H mayFail a.members s.entries)
    (hprocessed : s.readState.chunkProcessedSize = 0) (hslot : s.pinned.slot = .nothing)
    (hunskipped : Unskipped s.readState) : FirstAttempt mayFail a s := by
  intro i entry m _ hempty hentry hm
  rw [hprocessed, hslot, hunskipped hempty]
  exact .start 0 (hstocked.represents i entry m hentry hm).delivers

/-! ### Turns -/

/-- **A turn at entry data** stays in its first attempt, or gets to the end of data of the announced
    size. -/
theorem readIteration_first (h : InStream mayFail a s rest) (hfirst : FirstAttempt mayFail a s)
    (hchunk : s.readState.currentChunk = .entryData j) (hempty : s.readState.stagingBuffer = [])
    (hm : a.members[j]? = some m) (hskip : s.readState.toSkip < m.size)
    (hroom : 0 < s.output.remaining) :
    (readIteration sizes ctx fuel initialRemaining).wp (fun _ => True) (fun r s' =>
      (s'.readState.currentChunk = .entryData j ∧ (NoError r → FirstAttempt mayFail a s')) ∨
        (s'.readState.currentChunk = .dataDescriptor j ∧ m.Honest)) s := by
  obtain ⟨entry, hentry, hrep⟩ := h.stocked.entry hm
  have hstands := hfirst j entry m hchunk hempty hentry hm
  have hfin : s.readState.currentChunk ≠ .finished := by
    rw [hchunk]
    simp
  have hsize : (segmentOf H a.members s.readState.currentChunk).size = m.size := by
    simp [hchunk, segmentOf, hm, Member.dataSegment]
  have hpos : 0 < m.size := by omega
  have hread : (readEntryData ctx fuel).wp (Excused mayFail True True)
      (DataOutcome mayFail m 0 0 s.readState.chunkProcessedSize
        ⟨s.readState, entry, s.pinned, s.output⟩) ⟨s.readState, entry, s.pinned, s.output⟩ :=
    readEntryData_wp hrep (Nat.zero_add _).symm (.inl rfl) hstands hpos
      (a.size_lt (List.mem_of_getElem? hm)) hroom (absurd trivial) (absurd trivial)
  -- a reader that is kept is at its place in the data
  have hkept : ∀ {slot : ReaderPinned E H} {n toSkip : Nat} (output : ReadBuf),
      DataStands mayFail entry m 0 n toSkip slot → FirstAttempt mayFail a
        ⟨{ s.readState with chunkProcessedSize := 0 + n, toSkip }, s.entries,
          ⟨slot, s.pinned.logged entry.name⟩, output⟩ := by
    intro slot n toSkip output hdata i entry' m' hchunk' _ hentry' hm'
    have hij : Chunk.entryData j = .entryData i := hchunk.symm.trans hchunk'
    cases hij
    have hentry'' : s.entries[j]? = some entry' := hentry'
    rw [hentry] at hentry''
    rw [hm] at hm'
    cases hentry''
    cases hm'
    show DataStands mayFail entry m 0 (0 + n) toSkip slot
    rw [Nat.zero_add]
    exact hdata
  unfold readIteration
  rw [wp_get_bind, if_neg (by simpa using hempty), if_neg hfin, wp_bind, wp_lift,
    chunkSize_eq h.stocked.listed h.stands.located hfin, hsize]
  simp only [Exec.wp_ok, andThen]
  rw [if_neg (by omega)]
  unfold processChunk readChunk
  rw [wp_bind, wp_get_bind, hchunk]
  dsimp only
  by_cases hwritten : s.output.remaining = initialRemaining
  · rw [if_neg (by simpa using hwritten), zippityReady_wp, onEntry_wp hentry]
    refine wp_mono hread (fun _ _ => trivial) ?_
    intro r t houtcome
    cases houtcome with
    | interrupted slot hr _ hdata _ =>
      cases hr with
      | pending =>
        simp only [andThen, Frame.restore, set_of_getElem? hentry]
        split <;> exact .inl ⟨hchunk, fun _ => hkept _ hdata⟩
      | failed e _ => exact .inl ⟨hchunk, fun hno => absurd rfl (hno _)⟩
    | more slot _ _ _ _ hdata =>
      simp only [andThen, Frame.restore, set_of_getElem? hentry]
      exact .inl ⟨hchunk, fun _ => hkept _ hdata⟩
    | done _ hgo =>
      -- the total of the first attempt is the length of the data
      have hhonest : m.Honest := by
        by_contra hne
        rw [m.haltsFrom_zero H hpos, m.halts_of_not_honest H hne 0] at hgo
        cases hgo
      simp only [andThen]
      rw [wp_bind]
      have hcrc : some m.crc = entry.crc32 ∨ some m.crc = some m.crc := .inr rfl
      have hlisted := (h.stocked.setCrc hentry hm hcrc).length
      refine (finishChunk_wp rfl hlisted (by exact hfin)).mpr ?_
      exact .inr ⟨congrArg (Chunk.succ a.members.length) hchunk, hhonest⟩
    | crcMismatch slot _ _ _ hdata _ =>
      exact .inl ⟨hchunk, fun hno => absurd rfl (hno _)⟩
    | sizeMismatch _ _ _ _ => exact .inl ⟨hchunk, fun hno => absurd rfl (hno _)⟩
  · rw [if_pos hwritten, hempty, Exec.assert_eq rfl]
    exact .inl ⟨hchunk, fun _ => hfirst⟩

/-- **A turn** does not get past the data of an entry of another size, whatever it answers. -/
theorem NotPast.turn (h : NotPast mayFail a i s) (hm : a.members[i]? = some m) (hsize : m.size ≠ 0)
    (hne : ¬ m.Honest) (hsizes : sizes = layoutSizes a.members) (hroom : 0 < s.output.remaining)
    (hrun : readIteration sizes ctx fuel initialRemaining s = .ok (r, s')) :
    ¬ s'.readState.currentChunk.PastData i ∧ (NoError r → NotPast mayFail a i s') := by
  obtain ⟨rest, hstream⟩ := h.stream
  obtain ⟨_, hstands'⟩ := hstream.turn hsizes hroom hrun
  have hturn := hardTurn_of_readIteration h.hardened hrun
  have hbehind' := hturn.step.behind h.behind
  have hi := (List.getElem?_eq_some_iff.mp hm).1
  -- it is enough to follow the chunk and the attempt
  suffices hnext : ¬ s'.readState.currentChunk.PastData i ∧
      (NoError r → FirstAttempt mayFail a s') from
    ⟨hnext.1, fun hno => ⟨⟨_, hstands'⟩, hturn.step.hardened, hbehind', hnext.2 hno, hnext.1⟩⟩
  -- entry data that is read
  have hdata : ∀ {j}, s.InChunk → s.readState.currentChunk = .entryData j →
      ¬ s'.readState.currentChunk.PastData i ∧ (NoError r → FirstAttempt mayFail a s') := by
    rintro j ⟨hempty, size, hsize', hskip⟩ hchunk
    have hlocated := h.hardened.located
    rw [hchunk] at hlocated
    have hmj := List.getElem?_eq_getElem hlocated
    rw [hchunk, chunkSize_eq (H := H) (c := .entryData j) h.hardened.listed hlocated (by simp)]
      at hsize'
    have hskip' : s.readState.toSkip < a.members[j].size := by
      have hsize'' := Except.ok.inj hsize'
      simp only [segmentOf, hmj, Option.elim_some, Member.dataSegment] at hsize''
      omega
    have hfirst := Exec.wp_of_eq_ok
      (readIteration_first hstream h.first hchunk hempty hmj hskip' hroom) hrun
    have hbefore : ¬ i < j := by
      have := h.ahead
      rw [hchunk] at this
      exact this
    rcases hfirst with ⟨hchunk', hfirst'⟩ | ⟨hchunk', hhonest⟩
    · rw [hchunk']
      exact ⟨hbefore, hfirst'⟩
    · rw [hchunk']
      refine ⟨fun hpast => ?_, fun _ => .of_chunk (by simp [hchunk'])⟩
      -- only the data of entry `i` itself is left to get past
      have hle : i ≤ j := hpast
      obtain rfl : i = j := by omega
      rw [hmj] at hm
      cases hm
      exact hne hhonest
  have hheader : s.readState.currentChunk.IsHeader →
      s'.readState.currentChunk = s.readState.currentChunk.succ a.members.length →
      ¬ s'.readState.currentChunk.PastData i := by
    intro hheader hchunk hpast
    rw [hchunk] at hpast
    exact h.ahead (Chunk.pastData_of_succ hheader hi hpast)
  by_cases hgo : r = .ok (.go ())
  · cases hturn.go hgo with
    | staged _ hchunk hslot hunskipped _ hprocessed =>
      refine ⟨hchunk ▸ h.ahead, fun _ => ?_⟩
      exact firstAttempt_between hstands'.stocked hprocessed hslot hunskipped
    | skipped hempty hfin hskip hslot hs' =>
      have hprocessed := (hstream.stands.skip hempty hfin hskip).1
      have hzero := h.behind.unskipped hempty
      subst hs'
      refine ⟨?_, fun _ => firstAttempt_between hstands'.stocked hprocessed hslot
        hbehind'.unskipped⟩
      cases hchunk : s.readState.currentChunk with
      | entryData j =>
        -- only data of no size is skipped
        intro hpast
        simp only [Chunk.succ] at hpast
        have hbefore := h.ahead
        rw [hchunk] at hbefore
        have hle : i ≤ j := hpast
        have hnlt : ¬ i < j := hbefore
        obtain rfl : i = j := by omega
        rw [hchunk, hzero] at hskip
        simp only [segmentOf, hm, Option.elim_some, Member.dataSegment] at hskip
        omega
      | finished => exact absurd hchunk hfin
      | _ => exact hchunk ▸ hheader (by simp [hchunk, Chunk.IsHeader]) rfl
    | header _ hhead hchunk hslot hunskipped _ hprocessed =>
      exact ⟨hheader hhead hchunk, fun _ =>
        firstAttempt_between hstands'.stocked hprocessed hslot hunskipped⟩
    | data hentry _ _ _ _ _ hin => exact hentry.elim fun j hj => hdata hin hj
    | ended hentry _ _ _ _ _ hin => exact hentry.elim fun j hj => hdata hin hj
  · obtain ⟨hchunk, hfin | hin⟩ := hturn.stays hgo
    · -- at the end everything is past
      have hpast := h.ahead
      rw [hfin] at hpast
      exact absurd trivial hpast
    · by_cases hentry : ∃ j, s.readState.currentChunk = .entryData j
      · obtain ⟨j, hj⟩ := hentry
        exact hdata hin hj
      · refine ⟨hchunk ▸ h.ahead, fun _ => .of_chunk ?_⟩
        rw [hchunk]
        exact fun j hj => hentry ⟨j, hj⟩

/-- The loop does not, either. -/
theorem NotPast.readLoop (h : NotPast mayFail a i s) (hm : a.members[i]? = some m)
    (hsize : m.size ≠ 0) (hne : ¬ m.Honest) (hsizes : sizes = layoutSizes a.members) :
    (readLoop sizes ctx initialRemaining fuel).wp (fun _ => True) (fun r s' =>
      ¬ s'.readState.currentChunk.PastData i ∧ (NoError r → NotPast mayFail a i s')) s := by
  refine readLoop_rule (I := fun _ s' => NotPast mayFail a i s') (fun _ _ => trivial) ?_
    (fun _ _ hpast _ => ⟨hpast.ahead, fun _ => hpast⟩) h
  intro fuel s₁ h₁ hroom
  refine wp_run (wp_of_forall ?_)
  intro r s₂ hrun
  have hnext := h₁.turn hm hsize hne hsizes hroom hrun
  refine ⟨?_, fun _ => hnext⟩
  rintro rfl
  exact hnext.2 fun _ h => by cases h

/-- The output and the position are no part of the invariant. -/
theorem NotPast.congr (h : NotPast mayFail a i s) (hentries : s'.entries = s.entries)
    (hpinned : s'.pinned = s.pinned)
    (hrs : s'.readState = { s.readState with position := s'.readState.position }) :
    NotPast mayFail a i s' := by
  obtain ⟨rs', entries', pinned', output'⟩ := s'
  cases hentries
  cases hpinned
  have hrs' : rs' = { s.readState with position := rs'.position } := hrs
  rw [hrs']
  obtain ⟨rest, hstream⟩ := h.stream
  refine ⟨⟨rest, hstream.stocked, hstream.stands.position _⟩, h.hardened.congr rfl rfl rfl,
    ⟨h.behind.unskipped, h.behind.known⟩, h.first, h.ahead⟩

end Turn

/-! ### Runs -/

section Readers
variable {mayFail : Prop} {a : Archive} {r r' : Reader E H} {m : Member} {i : Nat}
  {ops : List (Op E)}

/-- **A call of `poll_read`** does not get past the data of an entry of another size. -/
theorem NotPast.pollRead {ctx : E.Context} {fuel : Nat} {buf buf' : ReadBuf}
    {answer : PollResult (IoError E) Unit} (h : NotPast mayFail a i r.still)
    (hm : a.members[i]? = some m) (hsize : m.size ≠ 0) (hne : ¬ m.Honest)
    (hsizes : r.sizes = layoutSizes a.members)
    (hpoll : r.pollRead ctx fuel buf = .ok (answer, r', buf')) :
    r'.sizes = r.sizes ∧ ¬ r'.readState.currentChunk.PastData i ∧
      (NoError answer → NotPast mayFail a i r'.still) := by
  have hloop : (Zippity.readLoop r.sizes ctx buf.remaining fuel).wp (fun _ => True)
      (fun r₁ s' => ¬ s'.readState.currentChunk.PastData i ∧
        (NoError (r₁.map fun _ => ()) → NotPast mayFail a i s')) (r.frame buf) := by
    refine wp_mono (NotPast.readLoop (s := r.frame buf) (h.congr rfl rfl rfl) hm hsize hne hsizes)
      (fun _ hf => hf) ?_
    rintro (_ | e | flow) s' ⟨hpast, hnext⟩
    · exact ⟨hpast, fun _ => hnext fun _ h => by cases h⟩
    · exact ⟨hpast, fun hno => absurd rfl (hno e)⟩
    · exact ⟨hpast, fun _ => hnext fun _ h => by cases h⟩
  have hcall := Exec.wp_of_eq_ok (pollRead_rule (F := fun _ => True)
    (Q := fun answer s' => ¬ s'.readState.currentChunk.PastData i ∧
      (NoError answer → NotPast mayFail a i s')) trivial ?_ hloop) hpoll
  · obtain ⟨hsame, hpast, hnext⟩ := hcall
    exact ⟨hsame, hpast, fun hno => (hnext hno).congr rfl rfl rfl⟩
  · -- the position is no part of the invariant
    rintro s' position ⟨hpast, hnext⟩
    exact ⟨hpast, fun hno => (hnext hno).congr rfl rfl rfl⟩

/-- **A run without seeks and errors** does not get past it. -/
theorem NotPast.run (h : NotPast mayFail a i r.still) (hm : a.members[i]? = some m)
    (hsize : m.size ≠ 0) (hne : ¬ m.Honest) (hsizes : r.sizes = layoutSizes a.members)
    (hsteps : Steps r ops r') (hpolls : ∀ op ∈ ops, op.isPoll = true)
    (hok : ∀ op ∈ ops, op.succeeds = true) :
    r'.sizes = layoutSizes a.members ∧ NotPast mayFail a i r'.still := by
  apply hsteps.invariant_of (fun op => op.isPoll = true ∧ op.succeeds = true)
    (fun op hop => ⟨hpolls op hop, hok op hop⟩)
    (fun _ r' => r'.sizes = layoutSizes a.members ∧ NotPast mayFail a i r'.still) ⟨hsizes, h⟩
  rintro _ r₁ op r₂ ⟨hsizes₁, h₁⟩ ⟨hpoll, hsucceeds⟩ hstep
  cases op with
  | seek offset => cases hpoll
  | pollRead ctx buf answer buf' =>
    obtain ⟨fuel, hpolled⟩ := hstep
    obtain ⟨hsame, _, hnext⟩ := h₁.pollRead hm hsize hne hsizes₁ hpolled
    refine ⟨hsame.trans hsizes₁, hnext ?_⟩
    rintro e rfl
    cases hsucceeds

/-- A fresh reader has read no data. -/
theorem notPast_new {sizes : Sizes} {entries : List (ReaderEntry E)} {rest : Tail UInt8}
    (h : InStream mayFail a (Reader.new sizes entries : Reader E H).still rest)
    (hlisted : Listed a.members entries) (hi : i < a.members.length) :
    NotPast mayFail a i (Reader.new sizes entries : Reader E H).still where
  stream := ⟨rest, h⟩
  hardened := (new_guarded hlisted).hardened
  behind := crcsBehind_new sizes entries
  first := firstAttempt_between h.stocked rfl rfl fun _ => rfl
  ahead := by
    cases entries with
    | nil =>
      have hlen := hlisted.length
      rw [List.length_nil] at hlen
      omega
    | cons first others => exact Nat.not_lt_zero i

end Readers

end Model

end Zippity
