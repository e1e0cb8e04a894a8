import Zippity.Properties.Tell
import Zippity.Properties.Errors

/-! # Known CRCs

    A CRC that is set stays what it is, whatever the entry data does.  So a
    reader whose CRCs were all supplied never computes one: no header comes late,
    and the reader loses neither bytes nor count.
-/

namespace Zippity

open Framework

section Model
variable {E : EntryData} {H : Crc32Fast}

/-- The CRC of every entry that is not empty was supplied. -/
def Builder.KnownCrcs (b : Builder E) : Prop :=
  ∀ name entry, (name, entry) ∈ b.entries.entries → entry.crc32 = none → E.size entry.data = 0

/-- No CRC has to be computed from data. -/
def CrcsKnown (entries : List (ReaderEntry E)) : Prop :=
  ∀ entry ∈ entries, entry.crc32 = none → entry.size = 0

section Known
variable {b : Builder E} {a : Archive} {r r' : Reader E H} {ops : List (Op E)}

theorem CrcsKnown.keeps {entries entries' : List (ReaderEntry E)} (h : CrcsKnown entries)
    (hkept : List.Forall₂ KeepsCrc entries entries') : CrcsKnown entries' := by
  induction hkept with
  | nil => exact h
  | @cons entry _ _ _ hkeeps _ ih =>
    obtain ⟨crc32, rfl, hkeeps⟩ := hkeeps
    intro entry' hentry' hcrc
    rcases List.mem_cons.mp hentry' with rfl | hrest
    · refine h entry List.mem_cons_self ?_
      cases hset : entry.crc32 with
      | none => rfl
      | some crc => exact absurd (hkeeps crc hset) (by simp [show crc32 = none from hcrc])
    · exact ih (fun entry hentry => h entry (List.mem_cons_of_mem _ hentry)) entry' hrest hcrc

/-- With known CRCs no header comes late. -/
theorem CrcsKnown.not_late (h : CrcsKnown r.entries) {room i : Nat} {entry : ReaderEntry E} :
    ¬ Late r room i entry :=
  fun hlate => hlate.nonempty (h entry (List.mem_of_getElem? hlate.listed) hlate.unknown)

theorem Built.crcsKnown {content : E.Data → List UInt8} (h : Built content b r a)
    (hknown : b.KnownCrcs) : CrcsKnown r.entries := by
  intro entry hentry hcrc
  obtain ⟨name, source, hsource, hfrom⟩ := h.source hentry
  rw [hfrom.size]
  exact hknown name source hsource (hfrom.crc32.symm.trans hcrc)

/-- **With known CRCs nothing is lost.**  In every run of a reader whose CRCs were all supplied,
    whatever its entry data does, `tell` counts what is delivered and a failed call appends
    nothing; if the data is right, though its calls may fail, every `poll_read` that succeeds
    delivers the bytes at `tell`. -/
theorem known_crcs_lose_nothing (hb : b.Reached) (hbuild : b.build = .ok r)
    (hknown : b.KnownCrcs) (hsteps : Steps r ops r') :
    r'.tell = logicalPosition ops ∧ (∀ op ∈ ops, op.Lossless) ∧
    ∀ content, b.Delivering content True → b.HonestSizes content → b.RightCrcs content H →
      ∀ ctx fuel buf r'' buf', r'.pollRead ctx fuel buf = .ok (.ok (), r'', buf') →
        PollDelivers (archiveBytes (r.members content)) r'.tell buf
          (.ok () : PollResult (IoError E) Unit) buf' := by
  obtain ⟨a, hbuilt, hguarded⟩ := hb.guarded hbuild
  have hcrcs := hbuilt.crcsKnown hknown
  -- no header comes late, so the run is one of those that count and lose nothing
  have hruns : Guarded a r' ∧ CrcsKnown r'.entries ∧
      (readerSystem.restrict NotSuspendedLate).Run r ops r' ∧
      (readerSystem.restrict NotFailedLate).Run r ops r' := by
    apply hsteps.invariant (fun ops r' => Guarded a r' ∧ CrcsKnown r'.entries ∧
      (readerSystem.restrict NotSuspendedLate).Run r ops r' ∧
      (readerSystem.restrict NotFailedLate).Run r ops r')
    · exact ⟨hguarded, hcrcs, .nil, .nil⟩
    · rintro ops r₁ op r₂ ⟨hguarded₁, hcrcs₁, hcounted, hkept⟩ hstep
      obtain ⟨hguarded₂, hkept₂⟩ := hguarded₁.step hstep
      refine ⟨hguarded₂, hcrcs₁.keeps hkept₂, hcounted.snoc ⟨?_, hstep⟩, hkept.snoc ⟨?_, hstep⟩⟩
      · cases op with
        | seek offset => trivial
        | pollRead ctx buf answer buf' => exact fun i entry hlate => absurd hlate hcrcs₁.not_late
      · cases op with
        | seek offset => trivial
        | pollRead ctx buf answer buf' => exact fun i entry hlate => absurd hlate hcrcs₁.not_late
  obtain ⟨_, _, hcounted, hkept⟩ := hruns
  have hstart : r.tell = 0 := by
    rw [hbuilt.reader]
    rfl
  have htell := hguarded.tell_logicalPosition hstart hcounted
  have hlossless := hguarded.lossless_run hkept
  refine ⟨htell, hlossless, ?_⟩
  intro content hdeliver hhonest hright ctx fuel buf r'' buf' hpoll
  obtain ⟨a', hbuilt'⟩ := hb.built content hbuild
  have hsound := hbuilt'.sound hhonest hright
  have hat := hbuilt'.readerAt_logicalPosition hdeliver hsound hsteps hlossless
  obtain ⟨bytes, hpolled⟩ := pollRead_step hat hpoll
  have hstep := hpolled.sound hsound
  rw [htell, ← hbuilt'.members]
  exact .ok hpolled.output hstep.bytes_eq (hstep.finished rfl)

end Known

end Model

/-! ### Sessions -/

/-- Three files with all CRCs that can be known. -/
def knownFiles : List (Source faulty) :=
  [([0x61], .reporting [1, 2, 3] 3, some 0x55BC801D), ([0x62], .reporting [] 0, none),
    ([0x63], .reporting [5, 6, 7, 8] 4, some 0x538D4D69)]

/-- Polls of the central directory with contexts that would make a computation wait or fail. -/
def knownScript : List (Action faulty) :=
  [.poll .go (room 40), .seek 256, .poll .wait (room 100), .seek 256, .poll .fail (room 1000)]

theorem known_crcs_lose_nothing_session :
    ∃ x : Session faulty crc32Ieee, session crc32Ieee knownFiles 30 knownScript = some x ∧
      x.last.tell = x.last.size ∧
      ∀ ctx fuel buf r' buf', x.last.pollRead ctx fuel buf = .ok (.ok (), r', buf') →
        PollDelivers (archiveBytes (x.reader.members PacedData.bytes)) x.last.tell buf
          (.ok () : PollResult (IoError faulty) Unit) buf' := by
  have hrun : (session crc32Ieee knownFiles 30 knownScript).map
      (fun x => decide (x.last.tell = x.last.size)) = some true := by decide +kernel
  obtain ⟨x, hx, h, hend⟩ := exists_session hrun
  have hknown : x.builder.KnownCrcs := by
    have hsources : ∀ s ∈ knownFiles, s.2.2 = none → s.2.1.reported = 0 := by decide
    exact h.forall (P := fun s => s.2.2 = none → s.2.1.reported = 0) hsources
  refine ⟨x, hx, of_decide_eq_true hend, ?_⟩
  exact (known_crcs_lose_nothing h.reached h.build hknown h.steps).2.2 PacedData.bytes
    (h.delivering fun _ _ => trivial) (h.honestSizes (by decide)) (h.rightCrcs (by decide +kernel))

end Zippity
