import Zippity.FilesystemEntry

/-! # Directory trees

    What a file system shows below a directory, as a tree: its nodes, and the
    names they get in an archive.  `read_dir` yields the children of a directory
    in any order.  The traversal adds the nodes of the tree one after the other,
    in an order of its own (`addDirectoryRecursive_eq`).
-/

namespace Zippity

open Framework Exec Async UnixPath

/-! ### Trees -/

/-- The name of an object in a directory. -/
abbrev FileName := { name : UnixPath // IsName name ∧ (0 : UInt8) ∉ name }

/-- What the file system keeps about every object. -/
structure Attributes where
  mode : UInt32
  modified : Option SystemTime
  len : UInt64
  deriving DecidableEq, Repr

/-- An object that is no directory. -/
inductive Leaf where
  | file (attributes : Attributes)
  | symlink (attributes : Attributes) (target : Slice)
  deriving DecidableEq

/-- An object without what is below it. -/
inductive Item where
  | leaf (object : Leaf)
  | directory (attributes : Attributes)
  deriving DecidableEq

namespace Item

def isDir : Item → Bool
  | .leaf _ => false
  | .directory _ => true

def metadata : Item → FileMetadata
  | .leaf (.file a) => ⟨⟨false, false, a.mode, a.modified⟩, a.len⟩
  | .leaf (.symlink a _) => ⟨⟨false, true, a.mode, a.modified⟩, a.len⟩
  | .directory a => ⟨⟨true, false, a.mode, a.modified⟩, a.len⟩

def entryType : Item → EntryType
  | .leaf (.file a) => .file a.len
  | .leaf (.symlink _ target) => .symlink target
  | .directory _ => .directory

@[simp] theorem isDir_metadata (item : Item) : item.metadata.isDir = item.isDir := by
  rcases item with (_ | _) | _ <;> rfl

end Item

/-- The children of a directory, with what is below them. -/
inductive Forest where
  | empty
  | leaf (name : FileName) (object : Leaf) (rest : Forest)
  | directory (name : FileName) (attributes : Attributes) (below rest : Forest)

/-- A child of a directory. -/
inductive Child where
  | leaf (object : Leaf)
  | directory (attributes : Attributes) (below : Forest)

def Child.item : Child → Item
  | .leaf object => .leaf object
  | .directory attributes _ => .directory attributes

def Child.below : Child → Forest
  | .leaf _ => .empty
  | .directory _ below => below

/-- A node below a directory: the names that lead to it, and what is there. -/
abbrev Node := List FileName × Item

/-- The node below a directory with this name. -/
def Node.under (name : FileName) (node : Node) : Node := (name :: node.1, node.2)

namespace Forest

def children : Forest → List (FileName × Child)
  | .empty => []
  | .leaf name object rest => (name, .leaf object) :: rest.children
  | .directory name attributes below rest => (name, .directory attributes below) :: rest.children

/-- All nodes. -/
def nodes : Forest → List Node
  | .empty => []
  | .leaf name object rest => ([name], .leaf object) :: rest.nodes
  | .directory name attributes below rest =>
    ([name], .directory attributes) :: (below.nodes.map (Node.under name) ++ rest.nodes)

/-- The children of a directory have different names. -/
def Distinct : Forest → Prop
  | .empty => True
  | .leaf name _ rest => name ∉ rest.children.map Prod.fst ∧ rest.Distinct
  | .directory name _ below rest =>
    name ∉ rest.children.map Prod.fst ∧ below.Distinct ∧ rest.Distinct

/-- Whether they do can be computed. -/
def decideDistinct : (forest : Forest) → Decidable forest.Distinct
  | .empty => .isTrue trivial
  | .leaf name _ rest =>
    have := rest.decideDistinct
    inferInstanceAs (Decidable (name ∉ rest.children.map Prod.fst ∧ rest.Distinct))
  | .directory name _ below rest =>
    have := below.decideDistinct
    have := rest.decideDistinct
    inferInstanceAs (Decidable
      (name ∉ rest.children.map Prod.fst ∧ below.Distinct ∧ rest.Distinct))

instance : DecidablePred Distinct := decideDistinct

section Nodes
variable {forest : Forest}

/-- A path begins with the name of a child. -/
theorem exists_of_mem_nodes {path : List FileName} (h : path ∈ forest.nodes.map Prod.fst) :
    ∃ name rest, path = name :: rest ∧ name ∈ forest.children.map Prod.fst := by
  induction forest with
  | empty => cases h
  | leaf name object rest ih =>
    rcases List.mem_cons.mp h with rfl | h
    · exact ⟨name, [], rfl, by simp [children]⟩
    · obtain ⟨name', rest', hpath, hmem⟩ := ih h
      exact ⟨name', rest', hpath, List.mem_cons_of_mem _ hmem⟩
  | directory name attributes below rest _ ih =>
    rcases List.mem_cons.mp h with rfl | h
    · exact ⟨name, [], rfl, by simp [children]⟩
    · rw [List.map_append, List.map_map] at h
      rcases List.mem_append.mp h with hbelow | hrest
      · obtain ⟨node, _, rfl⟩ := List.mem_map.mp hbelow
        exact ⟨name, node.1, rfl, by simp [children]⟩
      · obtain ⟨name', rest', hpath, hmem⟩ := ih hrest
        exact ⟨name', rest', hpath, List.mem_cons_of_mem _ hmem⟩

/-- Every node has a path. -/
theorem ne_nil_of_mem_nodes {node : Node} (h : node ∈ forest.nodes) : node.1 ≠ [] := by
  obtain ⟨name, rest, hpath, _⟩ := exists_of_mem_nodes (List.mem_map_of_mem h)
  rw [hpath]
  simp

/-- **A path leads to one node.** -/
theorem Distinct.nodup_paths (h : forest.Distinct) : (forest.nodes.map Prod.fst).Nodup := by
  -- a path that begins with a name of no child leads nowhere
  have hnone : ∀ {name : FileName} {forest : Forest}, name ∉ forest.children.map Prod.fst →
      ∀ tail, name :: tail ∉ forest.nodes.map Prod.fst := by
    intro name forest hname tail hmem
    obtain ⟨name', rest, hpath, hmem'⟩ := exists_of_mem_nodes hmem
    cases hpath
    exact hname hmem'
  induction forest with
  | empty => exact List.nodup_nil
  | leaf name object rest ih =>
    obtain ⟨hname, hrest⟩ := h
    exact List.nodup_cons.mpr ⟨hnone hname [], ih hrest⟩
  | directory name attributes below rest ihbelow ih =>
    obtain ⟨hname, hbelow, hrest⟩ := h
    have hmap : (below.nodes.map (Node.under name)).map Prod.fst =
        (below.nodes.map Prod.fst).map (name :: ·) := by
      rw [List.map_map, List.map_map]
      rfl
    simp only [nodes, List.map_cons, List.map_append, hmap]
    refine List.nodup_cons.mpr ⟨?_, List.nodup_append.mpr ⟨?_, ih hrest, ?_⟩⟩
    · intro hmem
      rcases List.mem_append.mp hmem with hmem | hmem
      · obtain ⟨tail, htail, heq⟩ := List.mem_map.mp hmem
        cases heq
        obtain ⟨_, _, hnil, _⟩ := exists_of_mem_nodes htail
        cases hnil
      · exact hnone hname [] hmem
    · exact (ihbelow hbelow).map (fun _ _ heq => (List.cons.inj heq).2)
    · intro path hpath path' hpath' heq
      subst heq
      obtain ⟨tail, _, rfl⟩ := List.mem_map.mp hpath
      exact hnone hname tail hpath'

/-- Level by level: the children, and what is below them. -/
theorem perm_nodes (forest : Forest) : forest.nodes.Perm
    (forest.children.map (fun (name, child) => ([name], child.item)) ++
      forest.children.flatMap fun (name, child) => child.below.nodes.map (Node.under name)) := by
  induction forest with
  | empty => exact .nil
  | leaf name object rest ih => exact ih.cons _
  | directory name attributes below rest _ ih =>
    simp only [nodes, children, List.map_cons, List.flatMap_cons, Child.item, Child.below,
      List.cons_append]
    refine .cons _ ?_
    refine ((List.Perm.refl _).append ih).trans ?_
    rw [← List.append_assoc, ← List.append_assoc]
    exact List.perm_append_comm.append_right _

end Nodes

end Forest

/-! ### Entry names -/

/-- What the root name puts in front of every entry name. -/
def entryPrefix (rootName : Option Name) : Name :=
  match rootName with
  | some rootName => trimSlashes rootName ++ [slash]
  | none => []

/-- Lossily decoded names can be told apart as the names can. -/
theorem fromUtf8Lossy_ofNames (names : List UnixPath) :
    Utf8.fromUtf8Lossy (ofNames names) = ofNames (names.map Utf8.fromUtf8Lossy) := by
  induction names with
  | nil => rfl
  | cons name names ih =>
    by_cases hnil : names = []
    · subst hnil
      simp
    · have hmap : names.map Utf8.fromUtf8Lossy ≠ [] := by simpa using hnil
      rw [List.map_cons, ofNames_cons hnil, ofNames_cons hmap, ← ih]
      exact Utf8.fromUtf8Lossy_append (by decide) name (ofNames names)

section Below
variable {names : List UnixPath} (hnames : ∀ n ∈ names, IsName n)
include hnames

/-- Names stay names when they are decoded. -/
theorem lossy_isName : ∀ n ∈ names.map Utf8.fromUtf8Lossy, n ≠ [] ∧ slash ∉ n := by
  intro n hn
  obtain ⟨name, hname, rfl⟩ := List.mem_map.mp hn
  refine ⟨Utf8.fromUtf8Lossy_ne_nil (hnames name hname).ne_nil, ?_⟩
  intro hslash
  exact (hnames name hname).slash_not_mem (Utf8.mem_of_mem_fromUtf8Lossy (by decide) hslash)

/-- `make_entry_name` on what is below the directory: none of its assertions fails. -/
theorem makeEntryName_joinAll (hne : names ≠ []) (directory : UnixPath) (rootName : Option Name)
    (isDirectory : Bool) :
    makeEntryName (directory.joinAll names) directory
        (rootName.map fun rootName => trimSlashes rootName ++ [slash]) isDirectory =
      .ok (entryPrefix rootName ++ (ofNames (names.map Utf8.fromUtf8Lossy) ++
        if isDirectory then [slash] else [])) := by
  have hstrip : (directory.joinAll names).stripPrefix directory = some (ofNames names) :=
    stripPrefix_joinAll hnames hne directory
  have hne' : names.map Utf8.fromUtf8Lossy ≠ [] := by simpa using hne
  obtain ⟨hnil, hlast⟩ := getLast_ofNames (lossy_isName hnames) hne'
  unfold makeEntryName
  cases rootName with
  | none =>
    simp only [Option.map_none, ok_bind, hstrip, assert_eq hlast, assert_eq hnil, entryPrefix,
      fromUtf8Lossy_ofNames, List.nil_append]
  | some rootName =>
    have hslash : (trimSlashes rootName ++ [slash]).getLast? = some slash := by simp
    simp only [Option.map_some, assert_eq hslash, ok_bind, hstrip, assert_eq hlast,
      assert_eq hnil, entryPrefix, fromUtf8Lossy_ofNames, List.append_assoc]

end Below

namespace Node

/-- The names that lead to a node. -/
def names (node : Node) : List UnixPath := node.1.map Subtype.val

/-- Where a node is. -/
def path (node : Node) (directory : UnixPath) : UnixPath := directory.joinAll node.names

/-- The names that lead to a node as `text`, and a slash for a directory. -/
def label (text : UnixPath → Name) (node : Node) : Name :=
  ofNames (node.names.map text) ++ if node.2.isDir then [slash] else []

theorem isName_of_mem {node : Node} {name : UnixPath} (h : name ∈ node.names) : IsName name := by
  obtain ⟨fileName, _, rfl⟩ := List.mem_map.mp h
  exact fileName.2.1

theorem names_ne_nil {node : Node} (h : node.1 ≠ []) : node.names ≠ [] := by
  unfold names
  rwa [ne_eq, List.map_eq_nil_iff]

theorem lossy_names {node : Node} :
    ∀ n ∈ node.names.map Utf8.fromUtf8Lossy, n ≠ [] ∧ slash ∉ n :=
  lossy_isName fun _ hn => isName_of_mem hn

theorem label_ne_nil {node : Node} (h : node.1 ≠ []) : node.label Utf8.fromUtf8Lossy ≠ [] := by
  have hne : node.names.map Utf8.fromUtf8Lossy ≠ [] := by simpa using names_ne_nil h
  have hlast := getLast_ofNames lossy_names hne
  simp [label, hlast.1]

/-- Names in UTF-8 are not changed. -/
theorem label_valid {node : Node} (h : ∀ name ∈ node.names, Utf8.Valid name) :
    node.label Utf8.fromUtf8Lossy = node.label id := by
  have hmap : node.names.map Utf8.fromUtf8Lossy = node.names.map id :=
    List.map_congr_left fun name hname => (h name hname).fromUtf8Lossy
  unfold label
  rw [hmap]

/-- **Two nodes have the same label** exactly if both or none are directories, and their names
    agree one by one when they are decoded. -/
theorem label_eq_iff {node node' : Node} (h : node.1 ≠ []) (h' : node'.1 ≠ []) :
    node.label Utf8.fromUtf8Lossy = node'.label Utf8.fromUtf8Lossy ↔
      node.2.isDir = node'.2.isDir ∧
        node.names.map Utf8.fromUtf8Lossy = node'.names.map Utf8.fromUtf8Lossy := by
  have hne : node.names.map Utf8.fromUtf8Lossy ≠ [] := by simpa using names_ne_nil h
  have hne' : node'.names.map Utf8.fromUtf8Lossy ≠ [] := by simpa using names_ne_nil h'
  have hlast := (getLast_ofNames lossy_names hne).2
  have hlast' := (getLast_ofNames lossy_names hne').2
  constructor
  · intro heq
    -- the last byte tells a directory from anything else
    have hisDir : node.2.isDir = node'.2.isDir := by
      cases hdir : node.2.isDir <;> cases hdir' : node'.2.isDir
      · rfl
      · have := congrArg List.getLast? heq
        simp [label, hdir, hdir'] at this
        exact absurd this hlast
      · have := congrArg List.getLast? heq
        simp [label, hdir, hdir'] at this
        exact absurd this.symm hlast'
      · rfl
    refine ⟨hisDir, ?_⟩
    unfold label at heq
    rw [hisDir] at heq
    exact ofNames_injective (fun n hn => (lossy_names n hn).2) (fun n hn => (lossy_names n hn).2)
      hne hne' (List.append_cancel_right heq)
  · rintro ⟨hisDir, hnames⟩
    unfold label
    rw [hisDir, hnames]

/-- Names in UTF-8 tell nodes apart. -/
theorem path_eq_of_label {node node' : Node} (h : node.1 ≠ []) (h' : node'.1 ≠ [])
    (hutf8 : ∀ name ∈ node.names, Utf8.Valid name)
    (hutf8' : ∀ name ∈ node'.names, Utf8.Valid name)
    (heq : node.label Utf8.fromUtf8Lossy = node'.label Utf8.fromUtf8Lossy) :
    node.1 = node'.1 := by
  have hnames := ((label_eq_iff h h').mp heq).2
  have hkept : ∀ {n : Node}, (∀ name ∈ n.names, Utf8.Valid name) →
      n.names.map Utf8.fromUtf8Lossy = n.names := by
    intro n hvalid
    calc n.names.map Utf8.fromUtf8Lossy
      _ = n.names.map id := List.map_congr_left fun name hname => (hvalid name hname).fromUtf8Lossy
      _ = n.names := List.map_id _
  rw [hkept hutf8, hkept hutf8'] at hnames
  exact List.map_injective_iff.mpr Subtype.val_injective hnames

/-- `make_entry_name` on a node. -/
theorem makeEntryName_eq {node : Node} (h : node.1 ≠ []) (directory : UnixPath)
    (rootName : Option Name) :
    makeEntryName (node.path directory) directory
        (rootName.map fun rootName => trimSlashes rootName ++ [slash]) node.2.isDir =
      .ok (entryPrefix rootName ++ node.label Utf8.fromUtf8Lossy) :=
  makeEntryName_joinAll (fun _ hn => isName_of_mem hn) (names_ne_nil h) directory rootName _

end Node

/-! ### What a file system shows -/

section Shows
variable {Io : Type}

/-- A child as `next_entry` answers it. -/
def listed (child : FileName × Child) : Except Io (DirEntry Io) :=
  .ok ⟨child.1.1, .ok child.2.item.metadata⟩

/-- `read_dir` yields the children, in some order. -/
def Lists (fs : FileSystem Io) (path : UnixPath) (forest : Forest) : Prop :=
  ∃ order : List (FileName × Child),
    order.Perm forest.children ∧ fs.readDir path = .ok (order.map listed)

/-- The file system shows what is below the children of a directory.  It does not matter what
    `read_dir` answers for a symlink. -/
def ShowsBelow (fs : FileSystem Io) (path : UnixPath) : Forest → Prop
  | .empty => True
  | .leaf name object rest =>
    (∀ attributes target, object = .symlink attributes target →
      fs.readLink (path.join name.1) = .ok target) ∧ ShowsBelow fs path rest
  | .directory name _ below rest =>
    (Lists fs (path.join name.1) below ∧ ShowsBelow fs (path.join name.1) below) ∧
      ShowsBelow fs path rest

/-- The file system shows a directory with these children. -/
structure Shows (fs : FileSystem Io) (path : UnixPath) (forest : Forest) : Prop where
  lists : Lists fs path forest
  below : ShowsBelow fs path forest

/-- The file system shows a child. -/
def ShowsChild (fs : FileSystem Io) (path : UnixPath) : Child → Prop
  | .leaf object => ∀ attributes target, object = .symlink attributes target →
      fs.readLink path = .ok target
  | .directory _ below => Shows fs path below

theorem ShowsBelow.child {fs : FileSystem Io} {path : UnixPath} {forest : Forest}
    (h : ShowsBelow fs path forest) :
    ∀ child ∈ forest.children, ShowsChild fs (path.join child.1.1) child.2 := by
  induction forest with
  | empty => intro child hchild; cases hchild
  | leaf name object rest ih =>
    intro child hchild
    rcases List.mem_cons.mp hchild with rfl | hchild
    · exact h.1
    · exact ih h.2 child hchild
  | directory name attributes below rest _ ih =>
    intro child hchild
    rcases List.mem_cons.mp hchild with rfl | hchild
    · exact ⟨h.1.1, h.1.2⟩
    · exact ih h.2 child hchild

/-- The entry of a child is made of its metadata. -/
theorem withMetadata_child {fs : FileSystem Io} {path : UnixPath} {child : Child}
    (h : ShowsChild fs path child) :
    FilesystemEntry.withMetadata fs path child.item.metadata =
      .ok ⟨path, child.item.entryType⟩ := by
  cases child with
  | leaf object =>
    cases object with
    | file attributes => rfl
    | symlink attributes target =>
      have hlink := h attributes target rfl
      simp [FilesystemEntry.withMetadata, EntryType.withMetadata, Child.item, Item.metadata,
        Item.entryType, hlink, bind, Except.bind]
  | directory attributes below => rfl

end Shows

end Zippity
