import Zippity.Properties.Filesystem

/-! # Root names

    A root name is trimmed of slashes on both sides and becomes the prefix of
    every entry name, so no name begins with a slash.  But nothing is left of a
    root name that is made of slashes alone: the prefix is a slash then, every
    name is absolute, and the directory itself is `/` (`added_relative_iff`).
-/

namespace Zippity

open Framework Exec Async UnixPath

/-! ### Trimming -/

section Trim
variable {name : Name}

theorem head_trimSlashes (name : Name) : (trimSlashes name).head? ≠ some slash := by
  intro hhead
  obtain ⟨behind, hbehind⟩ := List.rdropWhile_prefix (· = slash) (name.dropWhile (· = slash))
  have hdropped : (name.dropWhile (· = slash)).head? = some slash := by
    -- what the trimming from the right keeps begins as the rest does
    rw [← hbehind, List.head?_append]
    show (trimSlashes name).head?.or behind.head? = some slash
    rw [hhead, Option.some_or]
  have hnot := List.head?_dropWhile_not (· = slash) name
  rw [hdropped] at hnot
  exact absurd hnot (by decide)

theorem getLast_trimSlashes (name : Name) : (trimSlashes name).getLast? ≠ some slash :=
  getLast_trimmed _

/-- Nothing is left of slashes alone. -/
theorem trimSlashes_eq_nil_iff : trimSlashes name = [] ↔ ∀ byte ∈ name, byte = slash := by
  unfold trimSlashes
  rw [List.rdropWhile_eq_nil_iff]
  constructor
  · intro hall
    -- the first character that is kept is no slash, so none is kept
    have hnil : name.dropWhile (· = slash) = [] := by
      by_contra hne
      have hhead := List.head_dropWhile_not (· = slash) hne
      rw [hall _ (List.head_mem hne)] at hhead
      cases hhead
    intro byte hbyte
    exact of_decide_eq_true (List.dropWhile_eq_nil_iff.mp hnil byte hbyte)
  · intro hall byte hbyte
    exact decide_eq_true (hall byte ((List.dropWhile_suffix _).mem hbyte))

end Trim

/-! ### Names of directories -/

/-- A name that ends with a slash behind another character. -/
def EndsInDirectory (name : Name) : Prop :=
  ∃ front last, name = front ++ [last, slash] ∧ last ≠ slash

theorem EndsInDirectory.append {name : Name} (h : EndsInDirectory name) (front : Name) :
    EndsInDirectory (front ++ name) := by
  obtain ⟨front', last, rfl, hlast⟩ := h
  exact ⟨front ++ front', last, (List.append_assoc _ _ _).symm, hlast⟩

theorem endsInDirectory_of_getLast {name : Name} (hne : name ≠ [])
    (hlast : name.getLast? ≠ some slash) : EndsInDirectory (name ++ [slash]) := by
  obtain ⟨front, last, rfl⟩ := (List.eq_nil_or_concat name).resolve_left hne
  refine ⟨front, last, by simp, ?_⟩
  rintro rfl
  simp at hlast

/-- The root name is none, or not made of slashes alone. -/
def NamesRoot (rootName : Option Name) : Prop :=
  ∀ name ∈ rootName, ∃ byte ∈ name, byte ≠ slash

section Prefix
variable {rootName : Option Name}

/-- **The prefix** is nothing without a root name, and else the name of a directory. -/
theorem NamesRoot.entryPrefix (h : NamesRoot rootName) :
    (entryPrefix rootName).head? ≠ some slash ∧
      (rootName ≠ none → EndsInDirectory (entryPrefix rootName)) := by
  cases rootName with
  | none => exact ⟨by simp [Zippity.entryPrefix], fun hne => absurd rfl hne⟩
  | some name =>
    obtain ⟨byte, hbyte, hother⟩ := h name rfl
    -- the other character survives the trimming
    have hne : trimSlashes name ≠ [] := by
      intro hnil
      exact hother (trimSlashes_eq_nil_iff.mp hnil byte hbyte)
    refine ⟨?_, fun _ => endsInDirectory_of_getLast hne (getLast_trimSlashes name)⟩
    show (trimSlashes name ++ [slash]).head? ≠ some slash
    rw [List.head?_append_of_ne_nil _ hne]
    exact head_trimSlashes name

/-- A root name of slashes alone makes a prefix of one slash. -/
theorem entryPrefix_of_not_namesRoot (h : ¬ NamesRoot rootName) :
    Zippity.entryPrefix rootName = [slash] := by
  unfold NamesRoot at h
  push Not at h
  obtain ⟨name, rfl, hall⟩ := h
  show trimSlashes name ++ [slash] = [slash]
  rw [trimSlashes_eq_nil_iff.mpr hall, List.nil_append]

end Prefix

/-! ### Additions to a tree -/

section Growth
variable {lib : TokioFile} {Io : Type}

/-- An addition in a tree: names below the prefix, or the directory itself. -/
inductive Addition.InTree (rootName : Option Name) (addition : Addition) : Prop where
  | below (names : List Name) (hne : names ≠ []) (hnames : ∀ n ∈ names, n ≠ [] ∧ slash ∉ n)
      (hname : addition.name = entryPrefix rootName ++ (ofNames names ++
        if addition.data.entryType = .directory then [slash] else []))
  | root (hroot : rootName ≠ none) (hname : addition.name = entryPrefix rootName)

/-- Only additions in the tree are made. -/
def Grows (rootName : Option Name) (b b' : Builder (filesystemEntry lib)) : Prop :=
  ∃ additions, b.Added additions b' ∧ ∀ addition ∈ additions, addition.InTree rootName

variable {rootName : Option Name}

theorem Grows.refl (b : Builder (filesystemEntry lib)) : Grows rootName b b :=
  ⟨[], .refl b, by simp⟩

theorem Grows.trans (b₁ b₂ b₃ : Builder (filesystemEntry lib)) (h : Grows rootName b₁ b₂)
    (h' : Grows rootName b₂ b₃) : Grows rootName b₁ b₃ := by
  obtain ⟨additions, hadded, hin⟩ := h
  obtain ⟨additions', hadded', hin'⟩ := h'
  refine ⟨additions ++ additions', hadded.trans hadded', ?_⟩
  intro addition hmem
  rcases List.mem_append.mp hmem with hmem | hmem
  · exact hin addition hmem
  · exact hin' addition hmem

theorem movesBy_io {α : Type} {Q : α → Prop} {answer : Except Io α}
    (h : ∀ a, answer = .ok a → Q a) : MovesBy (Grows rootName) Q (io answer : Adding lib Io α) := by
  cases answer with
  | error e => exact movesBy_throw Grows.refl _
  | ok a => exact movesBy_pure Grows.refl (h a rfl)

theorem movesBy_addEntryWith (addition : Addition) (h : addition.InTree rootName) :
    MovesBy (Grows rootName) (fun _ => True)
      (addEntryWith addition.name addition.data addition.setters : Adding lib Io Unit) := by
  intro b
  unfold Async.wp
  rcases addEntryWith_cases b addition with ⟨e, _, hrun⟩ | ⟨b', hadded, hrun⟩
  · rw [hrun]
    exact ⟨.refl b, fun _ _ => trivial⟩
  · rw [hrun]
    refine ⟨⟨[addition], hadded, ?_⟩, fun _ _ => trivial⟩
    intro _ hmem
    obtain rfl := List.mem_singleton.mp hmem
    exact h

/-! ### The traversal -/

variable {fs : FileSystem Io} {directory : UnixPath}

/-- What `next_entry` answers is called by a name of its own, never `.` or `..`. -/
def ProperNames (fs : FileSystem Io) : Prop :=
  ∀ path dir dirEntry, fs.readDir path = .ok dir → .ok dirEntry ∈ dir → IsName dirEntry.fileName

/-- The path leads from the directory into what is below it. -/
def LeadsInto (directory path : UnixPath) : Prop :=
  ∃ names, (∀ n ∈ names, IsName n) ∧ path = directory.joinAll names

/-- **One directory**: what is added has the names that lead to it, and what goes onto the stack
    is below the directory. -/
theorem movesBy_addDirEntries {parent : UnixPath} (hparent : LeadsInto directory parent)
    {dir : List (Except Io (DirEntry Io))}
    (hdir : ∀ dirEntry, .ok dirEntry ∈ dir → IsName dirEntry.fileName) {stack : List UnixPath}
    (hstack : ∀ path ∈ stack, LeadsInto directory path) :
    MovesBy (Grows rootName) (fun stack => ∀ path ∈ stack, LeadsInto directory path)
      (addDirEntries fs directory (rootName.map fun rootName => trimSlashes rootName ++ [slash])
        parent stack dir : Adding lib Io (List UnixPath)) := by
  obtain ⟨names, hnames, rfl⟩ := hparent
  -- the stack grows along the directory
  induction dir generalizing stack with
  | nil => exact movesBy_pure Grows.refl hstack
  | cons next dir ih =>
    unfold addDirEntries
    refine (movesBy_io (Q := fun dirEntry => IsName dirEntry.fileName) ?_).bind Grows.trans ?_
    · rintro dirEntry rfl
      exact hdir dirEntry List.mem_cons_self
    intro dirEntry hname
    have hnames' : ∀ n ∈ names ++ [dirEntry.fileName], IsName n := by
      intro n hn
      rcases List.mem_append.mp hn with hn | hn
      · exact hnames n hn
      · exact List.mem_singleton.mp hn ▸ hname
    have hpath : (directory.joinAll names).join dirEntry.fileName =
        directory.joinAll (names ++ [dirEntry.fileName]) := by
      rw [joinAll_append]
      rfl
    refine (movesBy_io (Q := fun _ => True) fun _ _ => trivial).bind Grows.trans ?_
    intro metadata _
    dsimp only
    -- the path is below the directory, so `strip_prefix` does not fail
    rw [hpath, makeEntryName_joinAll hnames' (by simp) directory rootName metadata.isDir, lift_ok,
      pure_bind]
    refine (movesBy_io fun fsEntry h => directory_of_withMetadata h).bind Grows.trans ?_
    intro fsEntry hdirectory
    refine (movesBy_addEntryWith ⟨_, fsEntry, _⟩ ?_).bind Grows.trans ?_
    · refine .below _ (by simp) (lossy_isName hnames') ?_
      rw [← hdirectory]
      simp
    intro _ _
    apply ih fun dirEntry hmem => hdir dirEntry (List.mem_cons_of_mem _ hmem)
    -- only directories go onto the stack
    intro path hmem
    split at hmem
    · rcases List.mem_cons.mp hmem with rfl | hmem
      · exact ⟨_, hnames', rfl⟩
      · exact hstack path hmem
    · exact hstack path hmem

/-- The whole stack. -/
theorem movesBy_walk (hproper : ProperNames fs) (fuel : Nat) {stack : List UnixPath}
    (hstack : ∀ path ∈ stack, LeadsInto directory path) :
    MovesBy (Grows rootName) (fun _ => True)
      (walk fs directory (rootName.map fun rootName => trimSlashes rootName ++ [slash]) fuel stack :
        Adding lib Io Unit) := by
  induction fuel generalizing stack with
  | zero => exact movesBy_fault _
  | succ fuel ih =>
    cases stack with
    | nil => exact movesBy_pure Grows.refl trivial
    | cons path stack =>
      refine (movesBy_io fun dir hdir dirEntry => hproper path dir dirEntry hdir).bind Grows.trans ?_
      intro dir hdir
      refine (movesBy_addDirEntries (hstack path List.mem_cons_self) hdir ?_).bind Grows.trans ?_
      · exact fun path hmem => hstack path (List.mem_cons_of_mem _ hmem)
      · exact fun _ hstack => ih hstack

/-- **Whatever the file system answers**, only additions in the tree are made. -/
theorem movesBy_addDirectoryRecursive (hproper : ProperNames fs) (fuel : Nat) :
    MovesBy (Grows rootName) (fun _ => True)
      (addDirectoryRecursive fs directory rootName fuel : Adding lib Io Unit) := by
  unfold addDirectoryRecursive
  refine (movesBy_io (Q := fun _ => True) fun _ _ => trivial).bind Grows.trans ?_
  intro directoryMetadata _
  split
  · exact movesBy_throw Grows.refl _
  refine (movesBy_walk hproper fuel ?_).bind Grows.trans ?_
  · intro path hmem
    exact ⟨[], by simp, List.mem_singleton.mp hmem⟩
  intro _ _
  cases rootName with
  | none => exact movesBy_pure Grows.refl trivial
  | some rootName =>
    refine (movesBy_io (Q := fun _ => True) fun _ _ => trivial).bind Grows.trans ?_
    intro rootEntry _
    -- the directory itself comes last, called by the prefix
    exact movesBy_addEntryWith ⟨_, rootEntry, _⟩ (.root (by simp) rfl)

/-! ### Relative names -/

/-- An entry whose name is relative, and is the name of a directory if it is one. -/
structure Relative (entry : Name × BuilderEntry (filesystemEntry lib)) : Prop where
  head : entry.1.head? ≠ some slash
  directory : entry.2.data.entryType = .directory → EndsInDirectory entry.1

/-- **Behind a prefix that names a directory** every name is relative. -/
theorem NamesRoot.relative (h : NamesRoot rootName) {addition : Addition}
    (hin : addition.InTree rootName) (timeConverter : Option TimeConverter) :
    Relative (addition.entry lib timeConverter) := by
  obtain ⟨hhead, hends⟩ := h.entryPrefix
  have hdata := addition.data_entry lib timeConverter
  cases hin with
  | root hroot hname =>
    refine ⟨?_, fun _ => ?_⟩
    · show addition.name.head? ≠ some slash
      rwa [hname]
    · show EndsInDirectory addition.name
      rw [hname]
      exact hends hroot
  | below names hne hnames hname =>
    obtain ⟨hnil, hlast⟩ := getLast_ofNames hnames hne
    refine ⟨?_, fun hdirectory => ?_⟩
    · show addition.name.head? ≠ some slash
      rw [hname]
      -- without a prefix a name begins as the path in the directory does
      cases hfirst : Zippity.entryPrefix rootName with
      | nil =>
        rw [List.nil_append, List.head?_append_of_ne_nil _ hnil]
        exact head_ofNames hnames hne
      | cons first rest =>
        rwa [hfirst] at hhead
    · show EndsInDirectory addition.name
      rw [hdata] at hdirectory
      rw [hname, if_pos hdirectory]
      exact (endsInDirectory_of_getLast hnil hlast).append _

/-- Behind a slash no name is. -/
theorem not_relative_of_not_namesRoot (h : ¬ NamesRoot rootName) {addition : Addition}
    (hin : addition.InTree rootName) (timeConverter : Option TimeConverter) :
    ¬ Relative (addition.entry lib timeConverter) := by
  intro hrelative
  apply hrelative.head
  show addition.name.head? = some slash
  cases hin with
  | root _ hname => rw [hname, entryPrefix_of_not_namesRoot h, List.head?_cons]
  | below _ _ _ hname =>
    rw [hname, entryPrefix_of_not_namesRoot h, List.singleton_append, List.head?_cons]

/-- **The entries that a traversal adds are relative** exactly if there is no root name, or one
    that is not made of slashes alone.  This is so for whatever it adds before an error, too. -/
theorem added_relative_iff (hproper : ProperNames fs) (directory : UnixPath)
    (rootName : Option Name) {fuel : Nat} {b b' : Builder (filesystemEntry lib)}
    {answer : PollResult (AddDirectoryRecursiveError Io) Unit}
    (hrun : (addDirectoryRecursive fs directory rootName fuel : Adding lib Io Unit) b =
      .ok (answer, b')) :
    ∃ added, b'.entries.entries = b.entries.entries ++ added ∧
      ∀ entry ∈ added, (Relative entry ↔ NamesRoot rootName) := by
  obtain ⟨additions, hadded, hin⟩ := (movesBy_addDirectoryRecursive hproper fuel).of_run hrun
  refine ⟨_, hadded.entries, ?_⟩
  intro entry hmem
  obtain ⟨addition, haddition, rfl⟩ := List.mem_map.mp hmem
  constructor
  · intro hrelative
    by_contra hnot
    exact not_relative_of_not_namesRoot hnot (hin addition haddition) _ hrelative
  · intro hnames
    exact hnames.relative (hin addition haddition) _

end Growth

/-! ### A directory in a directory -/

/-- Every directory but `/d` itself is empty, and in `/d` is an empty directory `a`. -/
def nestedFs : FileSystem Unit where
  symlinkMetadata _ := .ok (Item.directory plain).metadata
  readDir path :=
    .ok (if path = linked then [listed (letterA, .directory plain .empty)] else [])
  readLink _ := .error ()

theorem nestedFs_proper : ProperNames nestedFs := by
  intro path dir dirEntry hread hmem
  unfold nestedFs at hread
  cases hread
  split at hmem
  · cases List.mem_singleton.mp hmem
    exact letterA.2.1
  · cases hmem

/-- Under the root name `/p/` all names are relative. -/
theorem added_relative_iff_nested :
    ∃ b', (addDirectoryRecursive nestedFs linked (some [47, 112, 47]) 4 :
        Adding unopened Unit Unit) emptyBuilder = .ok (.ok (), b') ∧
      ∀ entry ∈ b'.entries.entries, Relative entry := by
  have hrun : ∃ b', (addDirectoryRecursive nestedFs linked (some [47, 112, 47]) 4 :
      Adding unopened Unit Unit) emptyBuilder = .ok (.ok (), b') := ⟨_, rfl⟩
  have hroot : NamesRoot (some [47, 112, 47]) := by
    intro name hname
    cases hname
    exact ⟨112, by simp, by decide⟩
  obtain ⟨b', hrun⟩ := hrun
  refine ⟨b', hrun, ?_⟩
  obtain ⟨added, hadded, hrelative⟩ :=
    added_relative_iff nestedFs_proper linked (some [47, 112, 47]) hrun
  intro entry hmem
  rw [hadded] at hmem
  exact (hrelative entry hmem).mpr hroot

/-- Under the root name `//` they are absolute, and the directory itself is `/`. -/
theorem root_name_of_slashes :
    ∃ b', (addDirectoryRecursive nestedFs linked (some [47, 47]) 4 :
        Adding unopened Unit Unit) emptyBuilder = .ok (.ok (), b') ∧
      b'.entries.keys = [[47, 97, 47], [47]] ∧ ¬ EndsInDirectory [47] ∧
      ∀ entry ∈ b'.entries.entries, ¬ Relative entry := by
  have habsolute : ∀ name ∈ ([[47, 97, 47], [47]] : List Name), name.head? = some slash := by
    decide
  -- the traversal is evaluated
  refine ⟨_, rfl, rfl, ?_, ?_⟩
  · intro ⟨front, last, heq, _⟩
    have hlength := congrArg List.length heq
    simp at hlength
  · intro entry hmem hrelative
    have hname : entry.1 ∈ ([[47, 97, 47], [47]] : List Name) :=
      List.mem_map_of_mem (f := Prod.fst) hmem
    exact hrelative.head (habsolute _ hname)

end Zippity
