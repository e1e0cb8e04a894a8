import Zippity.FilesystemTree

/-! # The traversal of a directory

    `add_directory_recursive` keeps a stack of the directories that it has not
    read.  On the file system that shows a tree it adds an entry for each node
    (`addDirectoryRecursive_eq`): what is added, and what is below the stack,
    are together the nodes of the tree after every directory that is read.
-/

namespace Zippity

open Framework Exec Async UnixPath

/-! ### Additions -/

/-- What is passed to `add_entry`, and the setters called on the entry. -/
structure Addition where
  name : Name
  data : FilesystemEntry
  setters : List Setter

section Additions
variable {lib : TokioFile} {Io : Type}

/-- The entry that an addition leaves in a builder. -/
def Addition.entry (lib : TokioFile) (timeConverter : Option TimeConverter)
    (addition : Addition) : Name × BuilderEntry (filesystemEntry lib) :=
  (addition.name, addition.setters.foldl BuilderEntry.set (.new addition.data timeConverter))

/-- One addition after the other. -/
def addAll : List Addition → Adding lib Io Unit
  | [] => pure ()
  | addition :: rest => do
    addEntryWith addition.name addition.data addition.setters
    addAll rest

theorem addAll_append (additions additions' : List Addition) :
    (addAll (additions ++ additions') : Adding lib Io Unit) =
      addAll additions >>= fun _ => addAll additions' := by
  induction additions with
  | nil => rfl
  | cons addition additions ih =>
    show (addEntryWith addition.name addition.data addition.setters >>= fun _ =>
      addAll (additions ++ additions')) = _
    rw [ih]
    exact (Async.bind_assoc _ _ _).symm

end Additions

/-! ### What a node adds -/

namespace Node

/-- The addition of a node. -/
def addition (directory : UnixPath) (rootName : Option Name) (node : Node) : Addition where
  name := entryPrefix rootName ++ node.label Utf8.fromUtf8Lossy
  data := ⟨node.path directory, node.2.entryType⟩
  setters := [.metadata node.2.metadata.toMetadata]

/-- A node below the directory at a path. -/
def below (path : List FileName) (node : Node) : Node := (path ++ node.1, node.2)

theorem below_under (path : List FileName) (name : FileName) (node : Node) :
    (node.under name).below path = node.below (path ++ [name]) := by
  simp [below, under]

end Node

/-- The addition of the directory itself. -/
def rootAddition (directory : UnixPath) (rootName : Option Name) (attributes : Attributes) :
    List Addition :=
  match rootName with
  | some _ => [⟨entryPrefix rootName, ⟨directory, .directory⟩,
      [.metadata (Item.directory attributes).metadata.toMetadata, .directory]⟩]
  | none => []

/-! ### The stack -/

/-- A directory on the stack: the names that lead to it, and its children. -/
abbrev Pending := List FileName × Forest

namespace Pending

/-- Where it is. -/
def path (directory : UnixPath) (pending : Pending) : UnixPath :=
  directory.joinAll (pending.1.map Subtype.val)

/-- The nodes below the directories of a stack. -/
def nodes (stack : List Pending) : List Node :=
  stack.flatMap fun pending => pending.2.nodes.map (Node.below pending.1)

/-- What is left to do: the directories of a stack, and the nodes below them. -/
def work (stack : List Pending) : Nat := (nodes stack).length + stack.length

/-- The children that are directories go onto the stack. -/
def push (path : List FileName) : List (FileName × Child) → List Pending → List Pending
  | [], stack => stack
  | (_, .leaf _) :: order, stack => push path order stack
  | (name, .directory _ below) :: order, stack => push path order ((path ++ [name], below) :: stack)

section Stack
variable {path : List FileName} {order : List (FileName × Child)} {stack : List Pending}

/-- No directory is below a leaf. -/
theorem nodes_push : (nodes (push path order stack)).Perm
    ((order.flatMap fun (name, child) => child.below.nodes.map (Node.under name)).map
      (Node.below path) ++ nodes stack) := by
  induction order generalizing stack with
  | nil => exact .refl _
  | cons child order ih =>
    obtain ⟨name, child⟩ := child
    cases child with
    | leaf object => exact ih
    | directory attributes below =>
      have hbelow : (below.nodes.map (Node.under name)).map (Node.below path) =
          below.nodes.map (Node.below (path ++ [name])) := by
        rw [List.map_map]
        exact List.map_congr_left fun node _ => Node.below_under path name node
      refine ih.trans ?_
      simp only [nodes, List.flatMap_cons, List.map_append, Child.below, hbelow]
      rw [← List.append_assoc]
      exact List.perm_append_comm.append_right _

theorem length_push : (push path order stack).length ≤ order.length + stack.length := by
  induction order generalizing stack with
  | nil => simp [push]
  | cons child order ih =>
    obtain ⟨name, child⟩ := child
    cases child with
    | leaf object =>
      have := @ih stack
      simp only [push, List.length_cons]
      omega
    | directory attributes below =>
      have := @ih ((path ++ [name], below) :: stack)
      simp only [push, List.length_cons] at this ⊢
      omega

theorem mem_push {pending : Pending} (h : pending ∈ push path order stack) :
    pending ∈ stack ∨ ∃ name attributes below, (name, .directory attributes below) ∈ order ∧
      pending = (path ++ [name], below) := by
  induction order generalizing stack with
  | nil => exact .inl h
  | cons child order ih =>
    obtain ⟨name, child⟩ := child
    cases child with
    | leaf object =>
      rcases ih h with hold | ⟨name', attributes, below, hmem, heq⟩
      · exact .inl hold
      · exact .inr ⟨name', attributes, below, List.mem_cons_of_mem _ hmem, heq⟩
    | directory attributes below =>
      rcases ih h with hold | ⟨name', attributes', below', hmem, heq⟩
      · rcases List.mem_cons.mp hold with rfl | hold
        · exact .inr ⟨name, attributes, below, List.mem_cons_self, rfl⟩
        · exact .inl hold
      · exact .inr ⟨name', attributes', below', List.mem_cons_of_mem _ hmem, heq⟩

section Read
variable {forest : Forest} (hperm : order.Perm forest.children)
include hperm

/-- A directory that is read: its children, and what is below the stack then. -/
theorem nodes_read : (nodes ((path, forest) :: stack)).Perm
    (order.map (fun (name, child) => (path ++ [name], child.item)) ++
      nodes (push path order stack)) := by
  have hlevel := forest.perm_nodes.trans ((hperm.symm.map _).append (hperm.symm.flatMap_right _))
  have hhere := (hlevel.map (Node.below path)).append_right (nodes stack)
  rw [List.map_append, List.map_map, List.append_assoc] at hhere
  exact hhere.trans (nodes_push.symm.append_left _)

theorem work_read : work (push path order stack) < work ((path, forest) :: stack) := by
  have hnodes : (nodes ((path, forest) :: stack)).length = _ := (nodes_read hperm).length_eq
  have hpush : (push path order stack).length ≤ _ := length_push
  rw [List.length_append, List.length_map] at hnodes
  simp only [work, List.length_cons]
  omega

end Read

end Stack

end Pending

/-! ### The traversal -/

section Walk
variable {lib : TokioFile} {Io : Type} {fs : FileSystem Io} {directory : UnixPath}
  {rootName : Option Name}

/-- The path of a child, from above and from below. -/
theorem path_child (directory : UnixPath) (path : List FileName) (name : FileName) (item : Item) :
    (directory.joinAll (path.map Subtype.val)).join name.1 =
      Node.path (path ++ [name], item) directory := by
  unfold Node.path Node.names
  rw [List.map_append, joinAll_append]
  rfl

/-- **One directory**: an addition for each child, in the order in which they are listed, and the
    children that are directories go onto the stack. -/
theorem addDirEntries_eq {path : List FileName} {order : List (FileName × Child)}
    (hshown : ∀ child ∈ order,
      ShowsChild fs ((directory.joinAll (path.map Subtype.val)).join child.1.1) child.2)
    (stack : List Pending) :
    (addDirEntries fs directory (rootName.map fun rootName => trimSlashes rootName ++ [slash])
        (directory.joinAll (path.map Subtype.val)) (stack.map (Pending.path directory))
        (order.map listed) : Adding lib Io (List UnixPath)) =
      addAll (order.map fun (name, child) =>
          Node.addition directory rootName (path ++ [name], child.item)) >>= fun _ =>
        pure ((Pending.push path order stack).map (Pending.path directory)) := by
  induction order generalizing stack with
  | nil => rfl
  | cons child order ih =>
    obtain ⟨name, child⟩ := child
    have hchild := hshown (name, child) List.mem_cons_self
    have hrest := fun stack =>
      ih (fun child hmem => hshown child (List.mem_cons_of_mem _ hmem)) stack
    rw [path_child directory path name child.item] at hchild
    have hname : makeEntryName (Node.path (path ++ [name], child.item) directory) directory
        (rootName.map fun rootName => trimSlashes rootName ++ [slash]) child.item.isDir = _ :=
      Node.makeEntryName_eq (by simp) directory rootName
    have hentry := withMetadata_child hchild
    have hstack : (if child.item.isDir then
          Node.path (path ++ [name], child.item) directory :: stack.map (Pending.path directory)
        else stack.map (Pending.path directory)) =
        (Pending.push path [(name, child)] stack).map (Pending.path directory) := by
      cases child <;> rfl
    have hpush : Pending.push path order (Pending.push path [(name, child)] stack) =
        Pending.push path ((name, child) :: order) stack := by
      cases child <;> rfl
    simp only [List.map_cons, listed, addDirEntries, io, pure_bind, Item.isDir_metadata,
      path_child directory path name child.item, hstack, hname, hentry, lift_ok]
    rw [hrest, hpush]
    exact (Async.bind_assoc _ _ _).symm

/-- The directory on the top of the stack is read. -/
theorem walk_cons {front : Option Name} {path : UnixPath} {dir : List (Except Io (DirEntry Io))}
    (hdir : fs.readDir path = .ok dir) (fuel : Nat) (stack : List UnixPath) :
    (walk fs directory front (fuel + 1) (path :: stack) : Adding lib Io Unit) =
      addDirEntries fs directory front path stack dir >>= walk fs directory front fuel := by
  show (io (fs.readDir path) >>= _) = _
  rw [hdir]
  rfl

/-- **The whole stack**: an addition for each node below its directories. -/
theorem walk_eq {stack : List Pending}
    (hshown : ∀ pending ∈ stack, Shows fs (Pending.path directory pending) pending.2) :
    ∃ order : List Node, order.Perm (Pending.nodes stack) ∧
      ∀ fuel, Pending.work stack < fuel →
        (walk fs directory (rootName.map fun rootName => trimSlashes rootName ++ [slash]) fuel
            (stack.map (Pending.path directory)) : Adding lib Io Unit) =
          addAll (order.map (Node.addition directory rootName)) := by
  -- by induction on the work: a directory that is read is one less
  induction hwork : Pending.work stack using Nat.strong_induction_on generalizing stack with
  | h work ih =>
    cases stack with
    | nil =>
      refine ⟨[], .refl _, ?_⟩
      intro fuel hfuel
      obtain ⟨fuel, rfl⟩ : ∃ n, fuel = n + 1 := ⟨fuel - 1, by omega⟩
      rfl
    | cons pending stack =>
      obtain ⟨path, forest⟩ := pending
      obtain ⟨⟨order, hperm, hdir⟩, hbelow⟩ := hshown (path, forest) List.mem_cons_self
      have hchildren : ∀ child ∈ order,
          ShowsChild fs ((directory.joinAll (path.map Subtype.val)).join child.1.1) child.2 :=
        fun child hmem => hbelow.child child (hperm.mem_iff.mp hmem)
      have hless : Pending.work (Pending.push path order stack) < work := by
        rw [← hwork]
        exact Pending.work_read hperm
      have hpushed : ∀ pending ∈ Pending.push path order stack,
          Shows fs (Pending.path directory pending) pending.2 := by
        intro pending hmem
        rcases Pending.mem_push hmem with hold | ⟨name, attributes, below, hdirectory, rfl⟩
        · exact hshown pending (List.mem_cons_of_mem _ hold)
        · have hchild := hchildren _ hdirectory
          rw [path_child directory path name (.directory attributes)] at hchild
          exact hchild
      obtain ⟨added, hadded, hwalk⟩ := ih _ hless hpushed rfl
      refine ⟨order.map (fun (name, child) => (path ++ [name], child.item)) ++ added, ?_, ?_⟩
      · exact (hadded.append_left _).trans (Pending.nodes_read hperm).symm
      · intro fuel hfuel
        obtain ⟨fuel, rfl⟩ : ∃ n, fuel = n + 1 := ⟨fuel - 1, by omega⟩
        have hafter : ∀ _ : Unit, (pure ((Pending.push path order stack).map
              (Pending.path directory)) >>= fun stack => walk fs directory
                (rootName.map fun rootName => trimSlashes rootName ++ [slash]) fuel stack) =
            (addAll (added.map (Node.addition directory rootName)) : Adding lib Io Unit) :=
          fun _ => hwalk fuel (by omega)
        rw [List.map_cons, walk_cons hdir]
        show (addDirEntries fs directory _ (directory.joinAll (path.map Subtype.val)) _ _ >>= _) = _
        rw [addDirEntries_eq hchildren, Async.bind_assoc, funext hafter, List.map_append,
          List.map_map, addAll_append]
        rfl

/-- The directory itself comes last. -/
theorem addAll_rootAddition (fs : FileSystem Io) (attributes : Attributes) :
    (addAll (rootAddition directory rootName attributes) : Adding lib Io Unit) =
      match rootName.map fun rootName => trimSlashes rootName ++ [slash] with
      | some rootName => do
        let rootEntry ← io (FilesystemEntry.withMetadata fs directory
          (Item.directory attributes).metadata)
        addEntryWith rootName rootEntry
          [.metadata (Item.directory attributes).metadata.toMetadata, .directory]
      | none => pure () := by
  cases rootName with
  | none => rfl
  | some rootName => exact Async.bind_pure _

/-- **`add_directory_recursive` adds the nodes of the tree**, in an order of its own, and after
    them the directory itself. -/
theorem addDirectoryRecursive_eq {attributes : Attributes} {forest : Forest}
    (hroot : fs.symlinkMetadata directory = .ok (Item.directory attributes).metadata)
    (hshown : Shows fs directory forest) :
    ∃ order : List Node, order.Perm forest.nodes ∧
      ∀ fuel, forest.nodes.length + 1 < fuel →
        (addDirectoryRecursive fs directory rootName fuel : Adding lib Io Unit) =
          addAll (order.map (Node.addition directory rootName) ++
            rootAddition directory rootName attributes) := by
  have hbelow : (Node.below [] : Node → Node) = id := rfl
  have hnodes : Pending.nodes [([], forest)] = forest.nodes := by
    simp [Pending.nodes, hbelow]
  have hstack : ∀ pending ∈ [(([], forest) : Pending)],
      Shows fs (Pending.path directory pending) pending.2 := by
    intro pending hmem
    obtain rfl := List.mem_singleton.mp hmem
    exact hshown
  obtain ⟨order, hperm, hwalk⟩ := walk_eq hstack
  rw [hnodes] at hperm
  refine ⟨order, hperm, ?_⟩
  intro fuel hfuel
  have hwork : Pending.work [([], forest)] < fuel := by
    rw [Pending.work, hnodes]
    exact hfuel
  rw [addAll_append, addAll_rootAddition fs, ← hwalk fuel hwork]
  show (io (fs.symlinkMetadata directory) >>= _) = _
  rw [hroot]
  rfl

end Walk

end Zippity
