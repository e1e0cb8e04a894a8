import Zippity.Reader.RunSpec
import Zippity.Reader.Pool

/-! # Clones and taken readers

    `clone` and `take_pinned` throw the read state away and seek a fresh one to
    `tell`.  The reader taken is the clone; the one left behind is that of the
    archive without members.
-/

namespace Zippity

open Framework
open Exec (u64Bound)

section Model
variable {E : EntryData} {H : Crc32Fast}

/-! ### The empty archive -/

/-- The archive without members. -/
def Archive.empty : Archive where
  members := []
  offsets := by simp
  names := by simp
  fits := by decide

theorem Archive.honest_empty : Archive.empty.Honest := by
  intro m hm
  cases hm

theorem newEmptyFile_eq :
    (Reader.newEmptyFile : Exec (Reader E H)) = .ok (.new (layoutSizes []) []) := by
  unfold Reader.newEmptyFile
  rw [eocdSize_eq]
  rfl

/-- `new_empty_file` in the place of a reader that logged some calls. -/
def Reader.emptied (opened : List Name) : Reader E H where
  sizes := layoutSizes []
  entries := []
  readState := .new ([] : List (ReaderEntry E))
  pinned := ⟨.nothing, opened⟩

/-! ### Copies -/

/-- **The reader taken is the clone**, and the one left behind is `new_empty_file`. -/
theorem takePinned_eq (r : Reader E H) :
    r.takePinned = r.clone >>= fun taken => .ok (taken, .emptied r.pinned.opened) := by
  unfold Reader.takePinned Reader.clone Reader.seekFromStart
  rw [newEmptyFile_eq, Exec.ok_bind]
  show (ReadState.seekFromStart (.new r.entries) r.sizes r.entries r.tell >>= _) =
    (ReadState.seekFromStart (.new r.entries) r.sizes r.entries r.tell >>= _) >>= _
  cases (ReadState.new r.entries).seekFromStart r.sizes r.entries r.tell with
  | error f => rfl
  | ok readState => rfl

theorem sameState_emptied (opened : List Name) :
    Reader.SameState (.emptied opened : Reader E H) (.new (layoutSizes []) []) :=
  ⟨rfl, rfl, rfl, rfl⟩

section Standing
variable {mayFail : Prop} {a : Archive} {r : Reader E H} {rest : Tail UInt8}

/-- In an honest archive the position is one that can be asked for. -/
theorem ReaderAt.tell_lt (h : ReaderAt mayFail a r rest) (hhonest : a.Honest) :
    r.tell < u64Bound := by
  have hposition := h.position hhonest
  omega

/-- **A clone** has the sizes and the entries of its original, and stands at its position. -/
theorem ReaderAt.clone (h : ReaderAt mayFail a r rest) (hhonest : a.Honest) :
    ∃ r', r.clone = .ok r' ∧ r'.sizes = r.sizes ∧ r'.entries = r.entries ∧ r'.tell = r.tell ∧
      ReaderAt mayFail a r' (tailAt (segments H a.members) r.tell) := by
  have hsizes : (Reader.new r.sizes r.entries : Reader E H).sizes = layoutSizes a.members := h.sizes
  have hstocked : Stocked H mayFail a.members (Reader.new r.sizes r.entries : Reader E H).entries :=
    h.stocked
  obtain ⟨r', hseek, hentries, htell, hat⟩ :=
    seekFromStart_step hsizes hstocked (h.tell_lt hhonest)
  exact ⟨r', hseek, hat.sizes.trans h.sizes.symm, hentries, htell, hat⟩

/-- The reader left behind stands at the start of the empty archive. -/
theorem ReaderAt.emptied (opened : List Name) :
    ReaderAt mayFail .empty (.emptied opened : Reader E H) (tailAt (segments H []) 0) := by
  have hnew : ReaderAt mayFail .empty (.new (layoutSizes []) [] : Reader E H)
      (tailAt (segments H []) 0) := .new (a := .empty) ⟨rfl, fun _ _ _ hentry => by simp at hentry⟩
  exact ⟨hnew.sizes, hnew.stocked, hnew.stands, hnew.position⟩

/-- Each of the two readers that `take_pinned` leaves stands in its stream. -/
theorem ReaderAt.takePinned (h : ReaderAt mayFail a r rest) (hhonest : a.Honest) :
    ∃ taken, r.clone = .ok taken ∧ r.takePinned = .ok (taken, .emptied r.pinned.opened) ∧
      ReaderAt mayFail a taken (tailAt (segments H a.members) r.tell) := by
  obtain ⟨taken, hclone, _, _, _, hat⟩ := h.clone hhonest
  refine ⟨taken, hclone, ?_, hat⟩
  rw [takePinned_eq, hclone]
  rfl

end Standing

end Model

end Zippity
