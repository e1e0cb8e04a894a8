import Zippity.Properties.Filesystem

/-! # Traversals are calls

    Whatever the file system answers, `add_directory_recursive` and
    `add_filesystem_entry` do to a builder what calls of `add_entry` and of
    setters do; so the builder stays reachable, and every result about reachable
    builders is one about theirs.
-/

namespace Zippity

open Framework Exec Async UnixPath

/-! ### Calls -/

section Calls
variable {lib : TokioFile} {Io : Type} {fs : FileSystem Io} {directory : UnixPath}

/-- `b'` is what calls make of `b`, and the entries of `b` are the first of `b'`. -/
structure Builder.CalledTo (b b' : Builder (filesystemEntry lib)) : Prop where
  calls : ∃ calls, builderSystem.Run b calls b'
  entries : b.entries.entries <+: b'.entries.entries

theorem Builder.CalledTo.refl (b : Builder (filesystemEntry lib)) : b.CalledTo b :=
  ⟨⟨[], .nil⟩, List.prefix_refl _⟩

theorem Builder.CalledTo.trans (b₁ b₂ b₃ : Builder (filesystemEntry lib)) (h : b₁.CalledTo b₂)
    (h' : b₂.CalledTo b₃) : b₁.CalledTo b₃ := by
  obtain ⟨calls, hrun⟩ := h.calls
  obtain ⟨calls', hrun'⟩ := h'.calls
  exact ⟨⟨calls ++ calls', hrun.append hrun'⟩, h.entries.trans h'.entries⟩

/-- Setters on an entry, one call after the other. -/
theorem run_setters {E : EntryData} (b : Builder E) (name : Name) (setters : List Setter) :
    builderSystem.Run b (setters.map (.set name)) { b with
      entries := b.entries.adjust name fun entry => setters.foldl BuilderEntry.set entry } := by
  induction setters using List.reverseRecOn with
  | nil =>
    rw [List.map_nil]
    show builderSystem.Run b [] { b with entries := b.entries.adjust name fun entry => entry }
    rw [IndexMap.adjust_id]
    exact .nil
  | append_singleton setters setter ih =>
    have hlast : (b.entries.adjust name fun entry =>
          (setters ++ [setter]).foldl BuilderEntry.set entry) =
        (b.entries.adjust name fun entry => setters.foldl BuilderEntry.set entry).adjust name
          (·.set setter) := by
      rw [IndexMap.adjust_adjust]
      simp only [List.foldl_append, List.foldl_cons, List.foldl_nil]
    rw [List.map_append, hlast]
    exact .snoc ih rfl

/-- An addition that is made is an `add_entry` and setters. -/
theorem calledTo_of_addEntryMut {b left : Builder (filesystemEntry lib)} {addition : Addition}
    (hadd : b.addEntryMut addition.name addition.data = .ok (.ok (), left)) :
    b.CalledTo { left with entries := left.entries.adjust addition.name fun entry =>
      addition.setters.foldl BuilderEntry.set entry } := by
  have hcall : builderSystem.step b (.addEntry addition.name addition.data) left := by
    refine .inl ?_
    rw [b.addEntry_eq, hadd]
    rfl
  refine ⟨⟨_, System.Run.cons hcall (run_setters left addition.name addition.setters)⟩, ?_⟩
  rcases addEntryMut_added b addition with ⟨e, hadd'⟩ | ⟨left', hadd', hadded⟩
  · rw [hadd] at hadd'
    cases hadd'
  · rw [hadd] at hadd'
    cases hadd'
    exact ⟨_, hadded.entries.symm⟩

theorem movesBy_addEntryWith_calls (name : Name) (data : FilesystemEntry) (setters : List Setter) :
    MovesBy Builder.CalledTo (fun _ => True)
      (addEntryWith name data setters : Adding lib Io Unit) := by
  intro b
  have hrun : (addEntryWith name data setters : Adding lib Io Unit) b =
      Async.bind (lift (b.addEntry name data)) _ b := rfl
  rw [b.addEntry_eq] at hrun
  unfold Async.wp
  rcases addEntryMut_added b ⟨name, data, setters⟩ with ⟨e, hadd⟩ | ⟨left, hadd, _⟩
  · rw [hadd] at hrun
    rw [hrun]
    exact ⟨.refl b, fun _ _ => trivial⟩
  · have hcalled := calledTo_of_addEntryMut hadd
    rw [hadd] at hrun
    rw [hrun]
    exact ⟨hcalled, fun _ _ => trivial⟩

theorem movesBy_io_calls {α : Type} (answer : Except Io α) :
    MovesBy Builder.CalledTo (fun _ => True) (io answer : Adding lib Io α) := by
  cases answer with
  | error e => exact movesBy_throw Builder.CalledTo.refl _
  | ok a => exact movesBy_pure Builder.CalledTo.refl trivial

theorem movesBy_lift_calls {α : Type} (x : Exec α) :
    MovesBy Builder.CalledTo (fun _ => True) (lift x : Adding lib Io α) := by
  cases x with
  | error f => exact movesBy_fault f
  | ok a => exact movesBy_pure Builder.CalledTo.refl trivial

/-- One directory. -/
theorem movesBy_addDirEntries_calls (front : Option Name) (parent : UnixPath)
    (dir : List (Except Io (DirEntry Io))) (stack : List UnixPath) :
    MovesBy Builder.CalledTo (fun _ => True)
      (addDirEntries fs directory front parent stack dir : Adding lib Io (List UnixPath)) := by
  induction dir generalizing stack with
  | nil => exact movesBy_pure Builder.CalledTo.refl trivial
  | cons next dir ih =>
    unfold addDirEntries
    refine (movesBy_io_calls next).bind Builder.CalledTo.trans fun dirEntry _ => ?_
    refine (movesBy_io_calls dirEntry.metadata).bind Builder.CalledTo.trans fun metadata _ => ?_
    refine (movesBy_lift_calls _).bind Builder.CalledTo.trans fun entryName _ => ?_
    refine (movesBy_io_calls _).bind Builder.CalledTo.trans fun zipEntry _ => ?_
    exact (movesBy_addEntryWith_calls _ _ _).bind Builder.CalledTo.trans fun _ _ => ih _

/-- The whole stack. -/
theorem movesBy_walk_calls (front : Option Name) (fuel : Nat) (stack : List UnixPath) :
    MovesBy Builder.CalledTo (fun _ => True)
      (walk fs directory front fuel stack : Adding lib Io Unit) := by
  induction fuel generalizing stack with
  | zero => exact movesBy_fault _
  | succ fuel ih =>
    cases stack with
    | nil => exact movesBy_pure Builder.CalledTo.refl trivial
    | cons path stack =>
      refine (movesBy_io_calls (fs.readDir path)).bind Builder.CalledTo.trans fun dir _ => ?_
      exact (movesBy_addDirEntries_calls _ _ _ _).bind Builder.CalledTo.trans fun _ _ => ih _

theorem movesBy_addDirectoryRecursive_calls (rootName : Option Name) (fuel : Nat) :
    MovesBy Builder.CalledTo (fun _ => True)
      (addDirectoryRecursive fs directory rootName fuel : Adding lib Io Unit) := by
  unfold addDirectoryRecursive
  refine (movesBy_io_calls _).bind Builder.CalledTo.trans fun directoryMetadata _ => ?_
  split
  · exact movesBy_throw Builder.CalledTo.refl _
  refine (movesBy_walk_calls _ _ _).bind Builder.CalledTo.trans fun _ _ => ?_
  cases rootName with
  | none => exact movesBy_pure Builder.CalledTo.refl trivial
  | some rootName =>
    refine (movesBy_io_calls _).bind Builder.CalledTo.trans fun rootEntry _ => ?_
    exact movesBy_addEntryWith_calls _ _ _

/-- `add_directory_recursive`. -/
theorem calledTo_of_addDirectoryRecursive {b b' : Builder (filesystemEntry lib)}
    {rootName : Option Name} {fuel : Nat} {answer : PollResult (AddDirectoryRecursiveError Io) Unit}
    (h : (addDirectoryRecursive fs directory rootName fuel : Adding lib Io Unit) b =
      .ok (answer, b')) : b.CalledTo b' := by
  have hmoves : MovesBy Builder.CalledTo (fun _ => True)
      (addDirectoryRecursive fs directory rootName fuel : Adding lib Io Unit) :=
    movesBy_addDirectoryRecursive_calls rootName fuel
  have hmoved := hmoves b
  unfold Async.wp at hmoved
  rw [h] at hmoved
  exact hmoved.1

/-- `add_filesystem_entry`. -/
theorem calledTo_of_addFilesystemEntry {b b' : Builder (filesystemEntry lib)} {name : Name}
    {path : UnixPath} {metadata : FileMetadata} {answer : Except (AddFilesystemEntryError Io) Unit}
    (h : b.addFilesystemEntry fs name path metadata = .ok (answer, b')) : b.CalledTo b' := by
  unfold Builder.addFilesystemEntry at h
  cases hentry : FilesystemEntry.withMetadata fs path metadata with
  | error e =>
    rw [hentry] at h
    cases h
    exact .refl b
  | ok fsEntry =>
    rw [hentry] at h
    dsimp only at h
    generalize sanitizeEntryNameSlashes name (fsEntry.entryType = .directory) = sanitized at h
    rcases addEntryMut_added b ⟨sanitized, fsEntry, [.metadata metadata.toMetadata]⟩ with
      ⟨e, hadd⟩ | ⟨left, hadd, _⟩
    · rw [hadd] at h
      cases h
      exact .refl b
    · have hcalled := calledTo_of_addEntryMut hadd
      rw [hadd] at h
      cases h
      exact hcalled

end Calls

/-! ### Runs with a file system -/

/-- A call on a builder of file system entries.  What the file system answers may be different in
    each. -/
inductive FilesystemCall (lib : TokioFile) (Io : Type) where
  | call (call : BuilderCall (filesystemEntry lib))
  | addFilesystemEntry (fs : FileSystem Io) (name : Name) (path : UnixPath)
      (metadata : FileMetadata)
  | addDirectoryRecursive (fs : FileSystem Io) (directory : UnixPath) (rootName : Option Name)

/-- A builder of file system entries as a transition system.  A call that fails leaves what it has
    added. -/
def filesystemSystem (lib : TokioFile) (Io : Type) :
    System (Builder (filesystemEntry lib)) (FilesystemCall lib Io) where
  init b := Builder.new = .ok b
  step b call b' :=
    match call with
    | .call call => builderSystem.step b call b'
    | .addFilesystemEntry fs name path metadata =>
      ∃ answer, b.addFilesystemEntry fs name path metadata = .ok (answer, b')
    | .addDirectoryRecursive fs directory rootName =>
      ∃ fuel answer, (addDirectoryRecursive fs directory rootName fuel : Adding lib Io Unit) b =
        .ok (answer, b')

section Runs
variable {lib : TokioFile} {Io : Type} {b b' : Builder (filesystemEntry lib)}
  {calls : List (FilesystemCall lib Io)}

/-- A call with a file system is calls without one. -/
theorem calledTo_of_step {call : FilesystemCall lib Io}
    (h : (filesystemSystem lib Io).step b call b') :
    b.CalledTo b' ∨ ∃ plain, call = .call plain ∧ builderSystem.step b plain b' := by
  cases call with
  | call plain => exact .inr ⟨plain, rfl, h⟩
  | addFilesystemEntry fs name path metadata =>
    obtain ⟨answer, h⟩ := h
    exact .inl (calledTo_of_addFilesystemEntry h)
  | addDirectoryRecursive fs directory rootName =>
    obtain ⟨fuel, answer, h⟩ := h
    exact .inl (calledTo_of_addDirectoryRecursive h)

/-- An entry stays as it is in a call of the builder that is no setter on it. -/
theorem mem_entries_of_step {plain : BuilderCall (filesystemEntry lib)} {name : Name}
    {entry : BuilderEntry (filesystemEntry lib)} (h : builderSystem.step b plain b')
    (hmem : (name, entry) ∈ b.entries.entries) (hset : ∀ setter, plain ≠ .set name setter) :
    (name, entry) ∈ b'.entries.entries := by
  cases plain with
  | addEntry name' data =>
    rcases h with hadd | ⟨_, rfl⟩
    · rw [(Builder.addEntry_ok hadd).2.1]
      exact List.mem_append_left _ hmem
    · exact hmem
  | set name' setter =>
    have hne : name ≠ name' := by
      rintro rfl
      exact hset setter rfl
    obtain rfl := h
    have hadjust : (name, if name = name' then entry.set setter else entry) ∈
        (b.entries.adjust name' (·.set setter)).entries := IndexMap.mem_adjust hmem
    rwa [if_neg hne] at hadjust
  | systemTimeConverter converter =>
    obtain rfl := h
    exact hmem

/-- **The file system gets no builder into a state of its own**: a run of calls, traversals that
    fail half way among them, is a run of `add_entry` and setters.  It changes no entry that no
    setter is called on, and what is in the builder then can be built. -/
theorem filesystem_calls_refine (hrun : (filesystemSystem lib Io).Run b calls b')
    (H : Crc32Fast) :
    (∃ plain, builderSystem.Run b plain b') ∧
    (∀ name entry, (name, entry) ∈ b.entries.entries →
      (∀ setter, .call (.set name setter) ∉ calls) → (name, entry) ∈ b'.entries.entries) ∧
    (b.Reached → b'.Reached ∧
      ∃ r : Reader (filesystemEntry lib) H, b'.build = .ok r ∧ r.size = b'.size) := by
  have hplain : ∃ plain, builderSystem.Run b plain b' := by
    have hrefines : ∀ s t call s', s = t → (filesystemSystem lib Io).step s call s' →
        ∃ plain t', builderSystem.Run t plain t' ∧ s' = t' := by
      rintro s _ call s' rfl hstep
      rcases calledTo_of_step hstep with hcalled | ⟨plain, _, hplain⟩
      · obtain ⟨plain, hplain⟩ := hcalled.calls
        exact ⟨plain, s', hplain, rfl⟩
      · exact ⟨[plain], s', .snoc .nil hplain, rfl⟩
    obtain ⟨plain, _, hplain, rfl⟩ := hrun.refine _ rfl hrefines
    exact ⟨plain, hplain⟩
  refine ⟨hplain, ?_, ?_⟩
  · intro name entry hmem hset
    refine hrun.invariant_of (fun call => ∀ setter, call ≠ .call (.set name setter)) ?_
      (fun _ s => (name, entry) ∈ s.entries.entries) hmem ?_
    · rintro call hcall setter rfl
      exact hset setter hcall
    · rintro _ s call s' hmem hset hstep
      rcases calledTo_of_step hstep with hcalled | ⟨plain, rfl, hplain⟩
      · exact hcalled.entries.subset hmem
      · exact mem_entries_of_step hplain hmem fun setter heq => hset setter (congrArg _ heq)
  · intro hb
    obtain ⟨plain, hplain⟩ := hplain
    have hreached : b'.Reached := hb.run hplain
    obtain ⟨r, a, hbuild, hbuilt⟩ :=
      hreached.consistent.build (H := H) fun _ => ([] : List UInt8)
    refine ⟨hreached, r, hbuild, ?_⟩
    rw [hbuilt.reader]
    exact hbuilt.size

end Runs

/-- A builder with the entry `p` for the directory `/d`. -/
def oneEntry : Builder (filesystemEntry unopened) where
  entries := emptyBuilder.entries.insertVacant [112] (.new ⟨linked, .directory⟩ none) (by decide)
  timeConverter := none
  totalSize := 256

/-- The traversal stops at a name that it has added before; `p` stays, and both are built. -/
theorem filesystem_calls_refine_lossy :
    ∃ b', (filesystemSystem unopened Unit).Run oneEntry
        [.addDirectoryRecursive lossyFs linked none] b' ∧
      b'.entries.keys = [[112], [0xEF, 0xBF, 0xBD]] ∧ oneEntry.entries.entries ⊆ b'.entries.entries ∧
      ∃ r : Reader (filesystemEntry unopened) crc32Ieee, b'.build = .ok r ∧ r.size = 418 := by
  have hone : builderSystem.step emptyBuilder (.addEntry [112] ⟨linked, .directory⟩) oneEntry :=
    .inl rfl
  have hreached : oneEntry.Reached := ⟨emptyBuilder, _, Builder.new_eq, .snoc .nil hone⟩
  obtain ⟨b', hstep, hkeys, hsize⟩ : ∃ b', (filesystemSystem unopened Unit).step oneEntry
      (.addDirectoryRecursive lossyFs linked none) b' ∧
      b'.entries.keys = [[112], [0xEF, 0xBF, 0xBD]] ∧ b'.size = 418 :=
    ⟨_, ⟨4, _, rfl⟩, rfl, rfl⟩
  have hrun : (filesystemSystem unopened Unit).Run oneEntry
      ([] ++ [.addDirectoryRecursive lossyFs linked none]) b' := .snoc .nil hstep
  obtain ⟨_, hkeep, hbuilds⟩ := filesystem_calls_refine hrun crc32Ieee
  obtain ⟨_, r, hbuild, hr⟩ := hbuilds hreached
  refine ⟨b', hrun, hkeys, ?_, r, hbuild, hr.trans hsize⟩
  intro entry hmem
  exact hkeep entry.1 entry.2 hmem fun setter => by simp

end Zippity
