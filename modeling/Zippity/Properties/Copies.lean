import Zippity.Properties.Tell
import Zippity.Reader.Copies

/-! # Copies go on where the original stands

    `clone` and `take_pinned` rebuild the read state from `tell` alone.  So the
    copies go on where the original stands just as long as `tell` counts what
    was delivered: as long as no source of a late header waits in a call.
-/

namespace Zippity

open Framework
open Exec (u64Bound)

section Model
variable {E : EntryData} {H : Crc32Fast}

/-- Read to the end, the reader delivers `Z` from offset `q` on: its calls return, and those
    without errors deliver a part of this, all of it once the reader is at its end. -/
structure ReadsOn (Z : List UInt8) (q : Nat) (r : Reader E H) : Prop where
  returns : ∀ ops r', Steps r ops r' → ∀ ctx buf,
    ∃ enough, ∀ fuel > enough, ∃ result, r'.pollRead ctx fuel buf = .ok result
  delivers : ∀ ops r', Steps r ops r' → (∀ op ∈ ops, op.isPoll = true) →
    (∀ op ∈ ops, op.succeeds = true) →
      deliveredBytes ops <+: Z.drop q ∧ (r'.AtEnd → deliveredBytes ops = Z.drop q)

section Standing
variable {a : Archive} {r r₀ r' : Reader E H} {rest : Tail UInt8} {Z : List UInt8} {q : Nat}

/-- What is left of its stream is what a reader delivers. -/
theorem ReaderAt.readsOn (h : ReaderAt False a r rest) (hhonest : a.Honest)
    (hbegins : rest.Begins (Z.drop q)) : ReadsOn Z q r where
  returns := by
    intro ops r' hsteps ctx buf
    obtain ⟨rest', hat⟩ := Steps.readerAt h hsteps
    exact exists_pollRead hat id hhonest ctx buf
  delivers := by
    intro ops r' hsteps hpolls hok
    obtain ⟨rest', hstream, hat⟩ := Steps.stream h hsteps hpolls hok
    rw [hstream] at hbegins
    refine ⟨hbegins.of_cons.1, ?_⟩
    intro hend
    have hdone := hat.eq_done hend
    subst hdone
    have hall := hbegins.all rfl
    simpa [Tail.done] using hall

/-- The stream of an honest archive begins its bytes, from every offset on. -/
theorem Archive.Honest.begins (hhonest : a.Honest) (k : Nat) :
    (tailAt (segments H a.members) k).Begins ((archiveBytes a.members).drop k) := by
  rw [← items_segments (H := H)]
  apply tailAt_begins
  intro seg hseg
  rcases mem_segments hseg with ⟨items, rfl⟩ | ⟨m, hm, rfl⟩
  · rfl
  · exact hhonest m hm

/-- A step that meets the condition leaves the reader with the bytes from `tell` on. -/
theorem ReaderAt.begins_of_step {op : Op E} (h : ReaderAt False a r rest)
    (hguarded : Guarded a r) (hhonest : a.Honest)
    (hbegins : rest.Begins ((archiveBytes a.members).drop r.tell))
    (hstep : (readerSystem.restrict NotSuspendedLate).step r op r') :
    ∃ rest', ReaderAt False a r' rest' ∧
      rest'.Begins ((archiveBytes a.members).drop r'.tell) := by
  have htell := hguarded.tell_step hstep
  obtain ⟨_, hstep⟩ := hstep
  cases op with
  | seek offset =>
    obtain ⟨hoffset, hseek⟩ := hstep
    obtain ⟨_, htell', h'⟩ := h.sought hoffset hseek
    refine ⟨_, h', ?_⟩
    rw [htell']
    exact hhonest.begins offset
  | pollRead ctx buf answer buf' =>
    obtain ⟨fuel, hpoll⟩ := hstep
    obtain ⟨bytes, hpolled⟩ := pollRead_step h hpoll
    cases answer with
    | ok =>
      have htell' : r'.tell = r.tell + bytes.length := by
        rw [htell, ← hpolled.output.drop_filled]
        rfl
      cases hpolled.outcome with
      | @ok rest' hstream h' _ =>
        refine ⟨rest', h', ?_⟩
        rw [hstream] at hbegins
        rw [htell', ← List.drop_drop]
        exact hbegins.of_cons.2
    | pending =>
      have hsame : r'.tell = r.tell := htell
      cases hpolled.outcome with
      | pending _ h' => exact ⟨rest, h', by rw [hsame]; exact hbegins⟩
    | err e =>
      have hsame : r'.tell = r.tell := htell
      cases hpolled.outcome with
      | failed _ hfail _ _ => exact hfail.elim
      | crcMismatch _ _ _ h' => exact ⟨rest, h', by rw [hsame]; exact hbegins⟩
      | sizeMismatch hm hsize _ _ _ => exact absurd (hhonest _ hm) hsize

/-- **Along a run that meets the condition** the reader is left with the bytes from `tell` on. -/
theorem ReaderAt.begins_of_run {ops : List (Op E)} (h : ReaderAt False a r rest)
    (hguarded : Guarded a r) (hhonest : a.Honest)
    (hbegins : rest.Begins ((archiveBytes a.members).drop r.tell))
    (hrun : (readerSystem.restrict NotSuspendedLate).Run r ops r') :
    ∃ rest', ReaderAt False a r' rest' ∧
      rest'.Begins ((archiveBytes a.members).drop r'.tell) := by
  have hall : Guarded a r' ∧ ∃ rest', ReaderAt False a r' rest' ∧
      rest'.Begins ((archiveBytes a.members).drop r'.tell) := by
    apply hrun.invariant (fun _ r' => Guarded a r' ∧ ∃ rest', ReaderAt False a r' rest' ∧
      rest'.Begins ((archiveBytes a.members).drop r'.tell))
    · exact ⟨hguarded, rest, h, hbegins⟩
    · rintro _ r₁ op r₂ ⟨hguarded₁, rest₁, hat, hbegins₁⟩ hstep
      exact ⟨(hguarded₁.step hstep.2).1, hat.begins_of_step hguarded₁ hhonest hbegins₁ hstep⟩
  exact hall.2

/-- `tell` where a part of a run begins. -/
theorem BeginsAt.tell {before : List (Op E)} {offset : Nat} (hbegin : BeginsAt before offset)
    (hstart : r.tell = 0) (hsteps : Steps r before r₀) : r₀.tell = offset := by
  generalize hbefore : before = all at hsteps
  cases hbegin with
  | start =>
    cases hsteps with
    | nil => exact hstart
    | snoc => simp at hbefore
  | seek ops =>
    subst hbefore
    obtain ⟨r₁, _, _, hseek⟩ := hsteps.snoc_inv
    exact (seekFromStart_seekStep hseek).tell

end Standing

section Built
variable {content : E.Data → List UInt8} {b : Builder E} {r r₀ r' : Reader E H}
  {before after : List (Op E)} {offset : Nat}

/-- **Copies go on where the original stands**, in every run in which no source of a late header
    waited since the last seek: original, clone and taken reader deliver the archive from the
    logical position on; and the reader left behind is that of the empty archive. -/
theorem copies_read_on (hb : b.Reached) (hbuild : b.build = .ok r)
    (hdeliver : b.Delivering content False) (hhonest : b.HonestSizes content)
    (hbefore : Steps r before r₀) (hbegin : BeginsAt before offset)
    (hafter : (readerSystem.restrict NotSuspendedLate).Run r₀ after r') :
    ∃ clone taken left, r'.clone = .ok clone ∧ r'.takePinned = .ok (taken, left) ∧
      (∀ r'' ∈ [r', clone, taken],
        ReadsOn (archiveBytes (r.members content)) (logicalPosition (before ++ after)) r'' ∧
        r''.size = r'.size ∧ r''.crc32s = r'.crc32s) ∧
      (∃ empty, Reader.newEmptyFile = .ok empty ∧ left.SameState empty) ∧
      ReadsOn (archiveBytes []) 0 left := by
  obtain ⟨a, hbuilt⟩ := hb.built content hbuild
  have hhonest' := hbuilt.honest hhonest
  have hstart : r.tell = 0 := by
    rw [hbuilt.reader]
    rfl
  -- the original is left with the bytes from its logical position on
  have hat₀ := hbegin.readerAt (hbuilt.start hdeliver) hbefore
  have htell₀ := hbegin.tell hstart hbefore
  have hbegins₀ := hhonest'.begins (H := H) offset
  rw [← htell₀] at hbegins₀ hat₀
  have hguarded₀ := (hbuilt.guarded.run hbefore).1
  obtain ⟨rest, hat, hbegins⟩ := hat₀.begins_of_run hguarded₀ hhonest' hbegins₀ hafter
  have htell : r'.tell = logicalPosition (before ++ after) := by
    rw [(hguarded₀.tell_foldl_advance hafter).2, htell₀, ← hbegin.logicalPosition]
    exact List.foldl_append.symm
  -- so are the copies
  obtain ⟨copy, hclone, hsizes, hentries, _, hcopy⟩ := hat.clone hhonest'
  obtain ⟨taken, hclone', htake, _⟩ := hat.takePinned hhonest'
  rw [hclone] at hclone'
  cases hclone'
  have hreads := hat.readsOn hhonest' hbegins
  have hreads' := hcopy.readsOn hhonest' (hhonest'.begins r'.tell)
  rw [← hbuilt.members, ← htell]
  have hsame : copy.size = r'.size ∧ copy.crc32s = r'.crc32s := by
    unfold Reader.size Reader.crc32s
    rw [hsizes, hentries]
    exact ⟨rfl, rfl⟩
  refine ⟨copy, copy, _, hclone, htake, ?_, ⟨_, newEmptyFile_eq, sameState_emptied _⟩, ?_⟩
  · intro r'' hr''
    simp only [List.mem_cons, List.not_mem_nil, or_false] at hr''
    rcases hr'' with rfl | rfl | rfl
    · exact ⟨hreads, rfl, rfl⟩
    · exact ⟨hreads', hsame⟩
    · exact ⟨hreads', hsame⟩
  · exact (ReaderAt.emptied r'.pinned.opened).readsOn Archive.honest_empty
      (Archive.honest_empty.begins (H := H) 0)

end Built

end Model

/-! ### Sessions -/

/-- A reader in the middle of a header, with a part of it staged, and its copies. -/
theorem copies_read_on_session :
    ∃ x : Session steady crc32Ieee, session crc32Ieee steadyFiles 30 countedScript = some x ∧
      x.last.readState.stagingBuffer ≠ [] ∧
      ∃ clone taken left, x.last.clone = .ok clone ∧ x.last.takePinned = .ok (taken, left) ∧
        ∀ r ∈ [x.last, clone, taken],
          ReadsOn (archiveBytes (x.reader.members PacedData.bytes)) 426 r := by
  have hrun : (session crc32Ieee steadyFiles 30 countedScript).map
      (fun x => (logicalPosition x.ops, x.last.readState.stagingBuffer.isEmpty,
        testScript Reader.unsuspended 30 x.reader countedScript)) = some (426, false, true) := by
    decide +kernel
  obtain ⟨x, hx, h, hseen⟩ := exists_session hrun
  have hposition : logicalPosition x.ops = 426 := congrArg Prod.fst hseen
  have hstaged : x.last.readState.stagingBuffer.isEmpty = false := congrArg (·.2.1) hseen
  have hsteps : (readerSystem.restrict NotSuspendedLate).Run x.reader x.ops x.last :=
    runScript_restrict notSuspendedLate_of_test (congrArg (·.2.2) hseen) (session_run hx)
  obtain ⟨clone, taken, left, hclone, htake, hreads, _⟩ := copies_read_on h.reached h.build
    (h.delivering steady_ne_fail) (h.honestSizes (by decide)) .nil .start hsteps
  refine ⟨x, hx, by simpa using hstaged, clone, taken, left, hclone, htake, ?_⟩
  intro r hr
  rw [← hposition]
  exact (hreads r hr).1

/-- A poll with much room, and one that finds nothing left. -/
def toTheEnd : List (Action steady) := [.poll true (room 1000), .poll true (room 8)]

/-- How many bytes a reader delivers to its end. -/
def Reader.lengthToTheEnd (r : Reader steady crc32Ieee) : Option Nat :=
  match runScript 20 r toTheEnd with
  | .ok (ops, r') =>
    if r'.endTest true 20 ∧ (ops.all fun op => op.isPoll && op.succeeds) then
      some (deliveredBytes ops).length
    else none
  | .error _ => none

theorem Reader.run_of_lengthToTheEnd {r : Reader steady crc32Ieee} {n : Nat}
    (h : r.lengthToTheEnd = some n) : ∃ ops r', Steps r ops r' ∧ r'.AtEnd ∧
      (∀ op ∈ ops, op.isPoll = true ∧ op.succeeds = true) ∧ (deliveredBytes ops).length = n := by
  unfold Reader.lengthToTheEnd at h
  split at h
  · next ops r' hrun =>
    split at h
    · next hend =>
      cases h
      refine ⟨ops, r', runScript_steps hrun, Reader.atEnd_of_endTest hend.1, ?_, rfl⟩
      intro op hop
      have hboth := List.all_eq_true.mp hend.2 op hop
      exact Bool.and_eq_true_iff.mp hboth
    · cases h
  · cases h

/-- The copies deliver two headers again that the original has delivered. -/
theorem copies_deliver_again :
    ∃ x : Session steady crc32Ieee,
      session crc32Ieee steadyFiles 20 [.seek 256, .poll false (.new 1000)] = some x ∧
      x.builder.Reached ∧ x.builder.build = .ok x.reader ∧
      x.builder.Delivering PacedData.bytes False ∧ x.builder.HonestSizes PacedData.bytes ∧
      x.builder.RightCrcs PacedData.bytes crc32Ieee ∧ Steps x.reader x.ops x.last ∧
      ∃ copy left, x.last.clone = .ok copy ∧ x.last.takePinned = .ok (copy, left) ∧
        (∃ ops r, Steps x.last ops r ∧ r.AtEnd ∧
          (∀ op ∈ ops, op.isPoll = true ∧ op.succeeds = true) ∧ (deliveredBytes ops).length = 173) ∧
        ∃ ops r, Steps copy ops r ∧ r.AtEnd ∧
          (∀ op ∈ ops, op.isPoll = true ∧ op.succeeds = true) ∧
          (deliveredBytes ops).length = 323 := by
  have hrun : (session crc32Ieee steadyFiles 20 [.seek 256, .poll false (.new 1000)]).map
      (fun x => (x.last.lengthToTheEnd, x.last.clone.toOption.map Reader.lengthToTheEnd)) =
        some (some 173, some (some 323)) := by decide +kernel
  obtain ⟨x, hx, h, hseen⟩ := exists_session hrun
  have horiginal : x.last.lengthToTheEnd = some 173 := congrArg Prod.fst hseen
  have hcopies := congrArg Prod.snd hseen
  cases hclone : x.last.clone with
  | error f =>
    rw [hclone] at hcopies
    cases hcopies
  | ok copy =>
    rw [hclone] at hcopies
    have hcopy : copy.lengthToTheEnd = some 323 := Option.some.inj hcopies
    have htake : x.last.takePinned = .ok (copy, .emptied x.last.pinned.opened) := by
      rw [takePinned_eq, hclone]
      rfl
    exact ⟨x, hx, h.reached, h.build, h.delivering steady_ne_fail, h.honestSizes (by decide),
      h.rightCrcs (by decide +kernel), h.steps, copy, _, hclone, htake,
      Reader.run_of_lengthToTheEnd horiginal, Reader.run_of_lengthToTheEnd hcopy⟩

end Zippity
