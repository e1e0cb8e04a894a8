import Zippity.Session

/-! # What a reader delivers

    A reader of a sound archive refines an offset into the archive's bytes:
    whatever the buffers, the suspensions and the seeks are, each `poll_read`
    delivers the bytes at the logical position.
-/

namespace Zippity

open Framework
open Exec (u64Bound)

section Model
variable {E : EntryData} {H : Crc32Fast}

/-- What a `poll_read` at offset `q` of the archive `Z` may answer, and the buffer it leaves. -/
inductive PollDelivers (Z : List UInt8) (q : Nat) (buf : ReadBuf) :
    PollResult (IoError E) Unit → ReadBuf → Prop where
  | ok {bytes : List UInt8} {buf' : ReadBuf} (houtput : buf.Extends bytes buf')
    (hbytes : bytes = (Z.drop q).take bytes.length)
    (hend : 0 < buf.remaining → (bytes = [] ↔ Z.length ≤ q)) : PollDelivers Z q buf (.ok ()) buf'
  | pending : PollDelivers Z q buf .pending buf

section Run
variable {content : E.Data → List UInt8} {b : Builder E} {r r' : Reader E H} {a : Archive}
  {ops : List (Op E)}

/-- **The run invariant**: the reader of a sound archive stands at the logical position, as long
    as no failed call appended bytes. -/
theorem Built.readerAt_logicalPosition {mayFail : Prop} (h : Built content b r a)
    (hdeliver : b.Delivering content mayFail) (hsound : ∀ m ∈ a.members, m.Sound H)
    (hsteps : Steps r ops r') (hlossless : ∀ op ∈ ops, op.Lossless) :
    ReaderAt mayFail a r' (tailAt (segments H a.members) (logicalPosition ops)) := by
  apply hsteps.invariant_of Op.Lossless hlossless
    (fun ops r' => ReaderAt mayFail a r' (tailAt (segments H a.members) (logicalPosition ops)))
  · exact h.start hdeliver
  · intro ops r₁ op r₂ h₁ hop hstep
    rw [logicalPosition_snoc]
    cases op with
    | pollRead ctx buf answer buf' =>
      obtain ⟨fuel, hpoll⟩ := hstep
      obtain ⟨bytes, hpolled⟩ := pollRead_step h₁ hpoll
      have hat := (hpolled.sound hsound).readerAt
      cases answer with
      | ok => rwa [← hpolled.output.drop_filled] at hat
      | pending => rwa [(hpolled.sound hsound).pending rfl] at hat
      | err e =>
        -- nothing was appended, so the caller has nothing to discard
        have hnil : bytes = [] := hpolled.output.drop_filled.symm.trans (hop rfl)
        rwa [hnil] at hat
    | seek offset =>
      obtain ⟨hoffset, hseek⟩ := hstep
      exact (h₁.sought hoffset hseek).2.2

/-- **A reader delivers the archive.** In every run each `poll_read` returns, given enough turns,
    and delivers the bytes at the logical position; and every seek succeeds. -/
theorem read_delivers_archive (hb : b.Reached) (hbuild : b.build = .ok r)
    (hdeliver : b.Delivering content False) (hhonest : b.HonestSizes content)
    (hcrcs : b.RightCrcs content H) (hsteps : Steps r ops r') :
    (∀ ctx buf, ∃ enough, ∀ fuel > enough, ∃ result, r'.pollRead ctx fuel buf = .ok result) ∧
    (∀ ctx fuel buf answer r'' buf', r'.pollRead ctx fuel buf = .ok (answer, r'', buf') →
      PollDelivers (archiveBytes (r.members content)) (logicalPosition ops) buf answer buf') ∧
    ∀ offset < u64Bound, ∃ r'', r'.seekFromStart offset = .ok r'' := by
  obtain ⟨a, hbuilt⟩ := hb.built content hbuild
  have hsound := hbuilt.sound hhonest hcrcs
  have hlossless : ∀ op ∈ ops, op.Lossless := by
    intro op hop hfailed
    rw [Steps.succeeds hsound (hbuilt.start hdeliver) hsteps op hop] at hfailed
    cases hfailed
  have hat := hbuilt.readerAt_logicalPosition hdeliver hsound hsteps hlossless
  refine ⟨?_, ?_, ?_⟩
  · intro ctx buf
    exact exists_pollRead hat id (hbuilt.honest hhonest) ctx buf
  · intro ctx fuel buf answer r'' buf' hpoll
    obtain ⟨bytes, hpolled⟩ := pollRead_step hat hpoll
    have hstep := hpolled.sound hsound
    rw [← hbuilt.members]
    cases answer with
    | ok => exact .ok hpolled.output hstep.bytes_eq (hstep.finished rfl)
    | pending =>
      have houtput := hpolled.output
      rw [hstep.pending rfl] at houtput
      rw [houtput.eq_of_nil]
      exact .pending
    | err e => exact (hstep.failed e rfl).elim
  · intro offset hoffset
    obtain ⟨r'', hseek, _⟩ := seekFromStart_step hat.sizes hat.stocked hoffset
    exact ⟨r'', hseek⟩

end Run

end Model

/-! ### A session -/

/-- Polls that suspend and go on, and seeks into data, into headers and past the end. -/
def steadyScript : List (Action steady) :=
  [.poll true (room 20), .poll false (room 100), .seek 61, .poll false (room 5),
    .poll true (room 200), .seek 270, .poll false (room 7), .poll true (room 90), .seek 1000,
    .poll true (room 8), .seek 300]

theorem read_delivers_archive_session :
    ∃ x : Session steady crc32Ieee, session crc32Ieee steadyFiles 20 steadyScript = some x ∧
      ∀ ctx fuel buf answer r' buf', x.last.pollRead ctx fuel buf = .ok (answer, r', buf') →
        PollDelivers (archiveBytes (x.reader.members PacedData.bytes)) 300 buf answer buf' := by
  have hrun : (session crc32Ieee steadyFiles 20 steadyScript).map (logicalPosition ·.ops) =
      some 300 := by decide +kernel
  obtain ⟨x, hx, h, hposition⟩ := exists_session hrun
  have hdelivers := (read_delivers_archive h.reached h.build
    (h.delivering steady_ne_fail) (h.honestSizes (by decide)) (h.rightCrcs (by decide +kernel))
    h.steps).2.1
  rw [hposition] at hdelivers
  exact ⟨x, hx, hdelivers⟩

end Zippity
