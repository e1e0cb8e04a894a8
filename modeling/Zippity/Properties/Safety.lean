import Zippity.Reader.Copies
import Zippity.Session

/-! # No call of a reader stops

    Readers of honest entries, with their clones and the readers taken from
    them, in any order of operations: every call returns.  What carries this is
    the one invariant over chunk, processed bytes, bytes to skip, staging buffer
    and pinned slot that `Stands` is.
-/

namespace Zippity

open Framework
open Exec (u64Bound)

section Model
variable {E : EntryData} {H : Crc32Fast}

/-- Every call on the reader of an archive of `ms` returns.  The loops of `poll_read` end: it
    stops only when the bound on their turns is too small. -/
structure Safe (ms : List Member) (r : Reader E H) : Prop where
  entries : r.entries.map ReaderEntry.name = ms.map Member.name
  located : r.readState.currentChunk.Located r.entries.length
  returns : ∀ ctx buf, ∃ enough, ∀ fuel > enough, ∃ result, r.pollRead ctx fuel buf = .ok result
  stops : ∀ ctx fuel buf f, r.pollRead ctx fuel buf = .error f → f = .outOfFuel
  seeks : ∀ offset < u64Bound, ∃ r', r.seekFromStart offset = .ok r'
  clones : ∃ r', r.clone = .ok r'
  takes : ∃ taken left, r.takePinned = .ok (taken, left)
  /-- What is staged is the end of one header, and some of it is still to be output. -/
  staged : r.readState.stagingBuffer ≠ [] →
    r.readState.toSkip < r.readState.stagingBuffer.length ∧ EndsHeader H ms r.readState

/-- A reader that stands in the stream of an honest archive, whose sources do not fail, is
    safe. -/
theorem ReaderAt.safe {a : Archive} {r : Reader E H} {rest : Tail UInt8}
    (h : ReaderAt False a r rest) (hhonest : a.Honest) : Safe a.members r where
  entries := h.stocked.listed.map_name
  located := by
    rw [h.stocked.length]
    exact h.stands.located
  returns ctx buf := exists_pollRead h id hhonest ctx buf
  stops ctx fuel buf f hpoll := eq_outOfFuel_of_pollRead h id hhonest hpoll
  seeks offset hoffset := by
    obtain ⟨r', hseek, _⟩ := seekFromStart_step h.sizes h.stocked hoffset
    exact ⟨r', hseek⟩
  clones := by
    obtain ⟨r', hclone, _⟩ := h.clone hhonest
    exact ⟨r', hclone⟩
  takes := by
    obtain ⟨taken, _, htake, _⟩ := h.takePinned hhonest
    exact ⟨taken, _, htake⟩
  staged hstaged := by
    -- bytes are staged in one of the four places only
    have hstands := h.stands
    generalize r.pinned.slot = slot at hstands
    cases hstands with
    | staged _ _ hskip _ hheader => exact ⟨hskip, hheader⟩
    | ready _ _ hempty => exact absurd hempty hstaged
    | hashing _ _ hempty => exact absurd hempty hstaged
    | reading _ hempty => exact absurd hempty hstaged

/-- The invariant of the readers of a pool: each stands in the stream of the archive of `ms`, or of
    the empty one. -/
def StandsSomewhere (ms : List Member) (r : Reader E H) : Prop :=
  ∃ a rest, (a.members = ms ∨ a.members = []) ∧ a.Honest ∧ ReaderAt False a r rest

section Pool
variable {ms : List Member} {r r' : Reader E H} {pool pool' : List (Reader E H)}
  {ops : List (PoolOp E)}

theorem StandsSomewhere.step {op : Op E} (h : StandsSomewhere ms r)
    (hstep : readerSystem.step r op r') : StandsSomewhere ms r' := by
  obtain ⟨a, rest, hms, hhonest, hat⟩ := h
  obtain ⟨rest', hat'⟩ := Steps.readerAt hat (.snoc .nil hstep)
  exact ⟨a, rest', hms, hhonest, hat'⟩

theorem StandsSomewhere.clone (h : StandsSomewhere ms r) (hclone : r.clone = .ok r') :
    StandsSomewhere ms r' := by
  obtain ⟨a, rest, hms, hhonest, hat⟩ := h
  obtain ⟨r₁, hclone', _, _, _, hat'⟩ := hat.clone hhonest
  rw [hclone] at hclone'
  cases hclone'
  exact ⟨a, _, hms, hhonest, hat'⟩

theorem StandsSomewhere.takePinned {taken left : Reader E H} (h : StandsSomewhere ms r)
    (htake : r.takePinned = .ok (taken, left)) :
    StandsSomewhere ms taken ∧ StandsSomewhere ms left := by
  obtain ⟨a, rest, hms, hhonest, hat⟩ := h
  obtain ⟨taken', _, htake', hat'⟩ := hat.takePinned hhonest
  rw [htake] at htake'
  cases htake'
  -- what is left behind is a reader of no entries
  exact ⟨⟨a, _, hms, hhonest, hat'⟩, ⟨.empty, _, .inr rfl, Archive.honest_empty, .emptied _⟩⟩

/-- **No operation on a pool leads out of it.** -/
theorem standsSomewhere_of_poolRun (hpool : ∀ r ∈ pool, StandsSomewhere ms r)
    (hrun : poolSystem.Run pool ops pool') : ∀ r ∈ pool', StandsSomewhere ms r := by
  refine forall_of_poolRun (P := StandsSomewhere ms) ?_ ?_ ?_ hpool hrun
  · intro r op r' h hstep
    exact h.step hstep
  · intro r r' h hclone
    exact h.clone hclone
  · intro r taken left h htake
    exact h.takePinned htake

/-- So every reader of a pool stands in a stream, from the reader that was built on. -/
theorem standsSomewhere_of_build {content : E.Data → List UInt8} {b : Builder E} (hb : b.Reached)
    (hbuild : b.build = .ok r) (hdeliver : b.Delivering content False)
    (hhonest : b.HonestSizes content) (hrun : poolSystem.Run [r] ops pool) :
    ∀ r' ∈ pool, StandsSomewhere (r.members content) r' := by
  obtain ⟨a, hbuilt⟩ := hb.built content hbuild
  apply standsSomewhere_of_poolRun _ hrun
  intro r₁ hr₁
  rw [List.mem_singleton.mp hr₁]
  exact ⟨a, _, .inl hbuilt.members, hbuilt.honest hhonest, hbuilt.start hdeliver⟩

/-- **No call of a reader stops**, in every run of polls, suspensions, seeks, clones and taken
    readers. -/
theorem reader_never_stops {content : E.Data → List UInt8} {b : Builder E} (hb : b.Reached)
    (hbuild : b.build = .ok r) (hdeliver : b.Delivering content False)
    (hhonest : b.HonestSizes content) (hrun : poolSystem.Run [r] ops pool) (hr' : r' ∈ pool) :
    ∃ ms, (ms = r.members content ∨ ms = []) ∧ Safe ms r' := by
  obtain ⟨a', rest, hms, hhonest', hat⟩ :=
    standsSomewhere_of_build hb hbuild hdeliver hhonest hrun r' hr'
  exact ⟨a'.members, hms, hat.safe hhonest'⟩

end Pool

end Model

/-! ### A session -/

/-- A poll that suspends, one that leaves a part of a header staged, a seek to the last offset of
    `u64` and one back into a header, and a poll without room. -/
def stagingScript : List (Action steady) :=
  [.poll false (room 70), .seek (u64Bound - 1), .poll true (room 8), .seek 30, .poll true (room 5),
    .poll true (room 0)]

theorem reader_never_stops_session :
    ∃ x : Session steady crc32Ieee, session crc32Ieee steadyFiles 20 stagingScript = some x ∧
      x.last.readState.stagingBuffer ≠ [] ∧
      ∃ taken left, x.last.takePinned = .ok (taken, left) ∧
        ∀ r ∈ [left, taken], ∃ ms,
          (ms = x.reader.members PacedData.bytes ∨ ms = []) ∧ Safe ms r := by
  have hrun : (session crc32Ieee steadyFiles 20 stagingScript).map (fun x =>
      (decide (x.last.readState.stagingBuffer ≠ []), x.last.takePinned.toOption.isSome)) =
        some (true, true) := by decide +kernel
  obtain ⟨x, hx, h, hseen⟩ := exists_session hrun
  have hstaged := of_decide_eq_true (congrArg Prod.fst hseen)
  have htakes := congrArg Prod.snd hseen
  -- the session shows that the reader was taken, the theorem that both are safe
  cases htake : x.last.takePinned with
  | error f =>
    rw [htake] at htakes
    cases htakes
  | ok result =>
    obtain ⟨taken, left⟩ := result
    have hpool : poolSystem.Run [x.reader] (x.ops.map (.reader 0) ++ [.takePinned 0])
        [left, taken] := .snoc h.steps.pool ⟨x.last, taken, left, rfl, htake, rfl⟩
    refine ⟨x, hx, hstaged, taken, left, htake, ?_⟩
    intro r hr
    exact reader_never_stops h.reached h.build (h.delivering steady_ne_fail)
      (h.honestSizes (by decide)) hpool hr

end Zippity
