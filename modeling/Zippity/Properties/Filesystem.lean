import Zippity.FilesystemWalk
import Zippity.Properties.Totals

/-! # Adding a directory

    On a file system that shows a tree, `add_directory_recursive` adds an entry
    for each node, if the names are in UTF-8: no two nodes get the same name,
    in whatever order `read_dir` lists them.  With other names two nodes may get
    the same name, exactly if their paths decode to the same text.
-/

namespace Zippity

open Framework Exec Async UnixPath

/-! ### Additions to a builder -/

section Additions
variable {lib : TokioFile} {Io : Type}

/-- Setters do not change the data. -/
theorem Addition.data_entry (lib : TokioFile) (addition : Addition)
    (timeConverter : Option TimeConverter) :
    (addition.entry lib timeConverter).2.data = addition.data := by
  have hdata : ∀ (setters : List Setter) (entry : BuilderEntry (filesystemEntry lib)),
      (setters.foldl BuilderEntry.set entry).data = entry.data := by
    intro setters
    induction setters with
    | nil => intro entry; rfl
    | cons setter setters ih =>
      intro entry
      rw [List.foldl_cons, ih, BuilderEntry.data_set]
  exact hdata addition.setters _

/-- So they do not change what an entry takes. -/
theorem Addition.entryWeight_eq (addition : Addition) (timeConverter : Option TimeConverter) :
    entryWeight addition.name (addition.entry lib timeConverter).2 =
      entryWeight addition.name
        (.new addition.data timeConverter : BuilderEntry (filesystemEntry lib)) := by
  unfold entryWeight
  rw [addition.data_entry]
  rfl

/-- `b'` is `b` after additions. -/
structure Builder.Added (b : Builder (filesystemEntry lib)) (additions : List Addition)
    (b' : Builder (filesystemEntry lib)) : Prop where
  entries : b'.entries.entries =
    b.entries.entries ++ additions.map (Addition.entry lib b.timeConverter)
  timeConverter : b'.timeConverter = b.timeConverter
  total : b'.totalSize = b.totalSize +
    entriesWeight (additions.map (Addition.entry lib b.timeConverter))

theorem Builder.Added.refl (b : Builder (filesystemEntry lib)) : b.Added [] b :=
  ⟨(List.append_nil _).symm, rfl, rfl⟩

theorem Builder.Added.trans {b₁ b₂ b₃ : Builder (filesystemEntry lib)}
    {additions additions' : List Addition} (h : b₁.Added additions b₂)
    (h' : b₂.Added additions' b₃) : b₁.Added (additions ++ additions') b₃ where
  entries := by
    rw [h'.entries, h.entries, h.timeConverter, List.map_append, List.append_assoc]
  timeConverter := h'.timeConverter.trans h.timeConverter
  total := by
    rw [h'.total, h.total, h.timeConverter, List.map_append, entriesWeight_append]
    omega

/-- `add_entry` fails and leaves the builder as it is, or setters complete an addition. -/
theorem addEntryMut_added (b : Builder (filesystemEntry lib)) (addition : Addition) :
    (∃ e, b.addEntryMut addition.name addition.data = .ok (.error e, b)) ∨
    ∃ left, b.addEntryMut addition.name addition.data = .ok (.ok (), left) ∧
      b.Added [addition] { left with
        entries := left.entries.adjust addition.name (addition.setters.foldl BuilderEntry.set) } := by
  rcases b.addEntryMut_cases addition.name addition.data with ⟨_, hadd⟩ | ⟨_, _, hadd⟩ |
    ⟨_, _, _, hadd⟩ | ⟨_, _, hvacant, hadd⟩
  · exact .inl ⟨_, hadd⟩
  · exact .inl ⟨_, hadd⟩
  · exact .inl ⟨_, hadd⟩
  · refine .inr ⟨_, hadd, ?_⟩
    constructor
    · exact IndexMap.entries_adjust_insertVacant _ hvacant _
    · rfl
    · show b.totalWith addition.name addition.data = _
      rw [b.totalWith_eq, ← addition.entryWeight_eq]
      rfl

/-- An addition is an `add_entry`, and setters if it succeeds. -/
theorem addEntryWith_cases (b : Builder (filesystemEntry lib)) (addition : Addition) :
    (∃ e, b.addEntryMut addition.name addition.data = .ok (.error e, b) ∧
      (addEntryWith addition.name addition.data addition.setters : Adding lib Io Unit) b =
        .ok (.err (.addEntryError e), b)) ∨
    ∃ b', b.Added [addition] b' ∧
      (addEntryWith addition.name addition.data addition.setters : Adding lib Io Unit) b =
        .ok (.ok (), b') := by
  have hrun : (addEntryWith addition.name addition.data addition.setters : Adding lib Io Unit) b =
      Async.bind (lift (b.addEntry addition.name addition.data)) _ b := rfl
  rw [b.addEntry_eq] at hrun
  rcases addEntryMut_added b addition with ⟨e, hadd⟩ | ⟨left, hadd, hadded⟩
  · rw [hadd] at hrun
    exact .inl ⟨e, hadd, hrun⟩
  · rw [hadd] at hrun
    exact .inr ⟨_, hadded, hrun⟩

/-- **Additions** are all made, or one fails behind those in front of it. -/
theorem addAll_cases (additions : List Addition) (b : Builder (filesystemEntry lib)) :
    (∃ b', b.Added additions b' ∧ (addAll additions : Adding lib Io Unit) b = .ok (.ok (), b')) ∨
    ∃ front next rest b' e, additions = front ++ next :: rest ∧ b.Added front b' ∧
      b'.addEntryMut next.name next.data = .ok (.error e, b') ∧
      (addAll additions : Adding lib Io Unit) b = .ok (.err (.addEntryError e), b') := by
  induction additions generalizing b with
  | nil => exact .inl ⟨b, .refl b, rfl⟩
  | cons addition additions ih =>
    have hcons : (addAll (addition :: additions) : Adding lib Io Unit) b =
        Async.bind (addEntryWith addition.name addition.data addition.setters)
          (fun _ => addAll additions) b := rfl
    rcases addEntryWith_cases b addition with ⟨e, hadd, hrun⟩ | ⟨b₁, hadded, hrun⟩
    · refine .inr ⟨[], addition, additions, b, e, rfl, .refl b, hadd, ?_⟩
      rw [hcons, Async.bind, hrun]
    · rw [Async.bind, hrun] at hcons
      rcases ih b₁ with ⟨b', hall, hok⟩ | ⟨front, next, rest, b', e, hsplit, hfront, hadd, herr⟩
      · exact .inl ⟨b', hadded.trans hall, hcons.trans hok⟩
      · exact .inr ⟨addition :: front, next, rest, b', e, by rw [hsplit, List.cons_append],
          hadded.trans hfront, hadd, hcons.trans herr⟩

end Additions

/-! ### One object -/

/-- What is trimmed does not end with a slash. -/
theorem getLast_trimmed (entryName : Name) :
    (entryName.rdropWhile (· = slash)).getLast? ≠ some slash := by
  intro hlast
  have hne : entryName.rdropWhile (· = slash) ≠ [] := by
    intro hnil
    rw [hnil] at hlast
    cases hlast
  have hnot := List.rdropWhile_last_not _ _ hne
  rw [List.getLast?_eq_some_getLast hne] at hlast
  exact hnot (decide_eq_true (Option.some.inj hlast))

/-- **A sanitized name** ends with a slash exactly for a directory. -/
theorem getLast_sanitizeEntryNameSlashes (entryName : Name) (isDirectory : Bool) :
    (sanitizeEntryNameSlashes entryName isDirectory).getLast? = some slash ↔
      isDirectory = true := by
  unfold sanitizeEntryNameSlashes
  cases isDirectory with
  | true => simp
  | false => exact iff_of_false (getLast_trimmed entryName) (by decide)

/-- There is nothing left to sanitize. -/
theorem sanitizeEntryNameSlashes_idem (entryName : Name) (isDirectory : Bool) :
    sanitizeEntryNameSlashes (sanitizeEntryNameSlashes entryName isDirectory) isDirectory =
      sanitizeEntryNameSlashes entryName isDirectory := by
  unfold sanitizeEntryNameSlashes
  cases isDirectory with
  | true =>
    simp only [if_true]
    rw [List.rdropWhile_concat_pos (fun byte => decide (byte = slash)) _ _ (decide_eq_true rfl),
      List.rdropWhile_idempotent]
  | false => exact List.rdropWhile_idempotent _ _

/-- The type of an entry follows the metadata. -/
theorem directory_of_withMetadata {Io : Type} {fs : FileSystem Io} {path : UnixPath}
    {metadata : FileMetadata} {fsEntry : FilesystemEntry}
    (h : FilesystemEntry.withMetadata fs path metadata = .ok fsEntry) :
    decide (fsEntry.entryType = .directory) = metadata.isDir := by
  unfold FilesystemEntry.withMetadata EntryType.withMetadata at h
  cases hdir : metadata.isDir with
  | true =>
    rw [if_pos hdir] at h
    cases h
    rfl
  | false =>
    rw [if_neg (by simp [hdir])] at h
    split at h
    · cases hlink : fs.readLink path with
      | error e =>
        rw [hlink] at h
        cases h
      | ok target =>
        rw [hlink] at h
        cases h
        rfl
    · cases h
      rfl

/-- **`add_filesystem_entry`** leaves the builder as it is, or adds an entry whose name says
    whether it is a directory. -/
theorem addFilesystemEntry_cases {lib : TokioFile} {Io : Type} (fs : FileSystem Io)
    (b : Builder (filesystemEntry lib)) (name : Name) (path : UnixPath) (metadata : FileMetadata) :
    (∃ e, b.addFilesystemEntry fs name path metadata = .ok (.error e, b)) ∨
    ∃ fsEntry b', FilesystemEntry.withMetadata fs path metadata = .ok fsEntry ∧
      b.Added [⟨sanitizeEntryNameSlashes name metadata.isDir, fsEntry,
        [.metadata metadata.toMetadata]⟩] b' ∧
      b.addFilesystemEntry fs name path metadata = .ok (.ok (), b') := by
  unfold Builder.addFilesystemEntry
  cases hentry : FilesystemEntry.withMetadata fs path metadata with
  | error e => exact .inl ⟨_, rfl⟩
  | ok fsEntry =>
    dsimp only
    rw [directory_of_withMetadata hentry]
    rcases addEntryMut_added b ⟨sanitizeEntryNameSlashes name metadata.isDir, fsEntry,
      [.metadata metadata.toMetadata]⟩ with ⟨e, hadd⟩ | ⟨left, hadd, hadded⟩
    · refine .inl ⟨.addEntryError e, ?_⟩
      rw [hadd]
      rfl
    · refine .inr ⟨fsEntry, _, rfl, hadded, ?_⟩
      rw [hadd]
      rfl

/-! ### The names of a tree -/

section Names
variable {directory : UnixPath} {rootName : Option Name} {attributes : Attributes} {forest : Forest}

/-- All additions of a tree. -/
def treeAdditions (directory : UnixPath) (rootName : Option Name) (attributes : Attributes)
    (nodes : List Node) : List Addition :=
  nodes.map (Node.addition directory rootName) ++ rootAddition directory rootName attributes

/-- **The additions of a tree have different names** exactly if no two nodes have the same label:
    the directory itself is the only one with nothing behind the prefix. -/
theorem nodup_treeAdditions_iff {order : List Node} (directory : UnixPath)
    (rootName : Option Name) (attributes : Attributes) (hdistinct : forest.Distinct)
    (hperm : order.Perm forest.nodes) :
    ((treeAdditions directory rootName attributes order).map Addition.name).Nodup ↔
      ∀ node ∈ forest.nodes, ∀ node' ∈ forest.nodes,
        node.label Utf8.fromUtf8Lossy = node'.label Utf8.fromUtf8Lossy → node = node' := by
  have hnodes : forest.nodes.Nodup := hdistinct.nodup_paths.of_map
  have hnames : (forest.nodes.map (Node.addition directory rootName)).map Addition.name =
      forest.nodes.map fun node => entryPrefix rootName ++ node.label Utf8.fromUtf8Lossy := by
    rw [List.map_map]
    rfl
  have hroot : ∀ name ∈ (rootAddition directory rootName attributes).map Addition.name,
      name = entryPrefix rootName := by
    cases rootName <;> simp [rootAddition]
  have hperm' := ((hperm.map (Node.addition directory rootName)).append_right
    (rootAddition directory rootName attributes)).map Addition.name
  unfold treeAdditions
  rw [hperm'.nodup_iff, List.map_append, hnames, List.nodup_append]
  constructor
  · intro ⟨hnodup, _, _⟩ node hnode node' hnode' heq
    exact List.inj_on_of_nodup_map hnodup hnode hnode' (congrArg (entryPrefix rootName ++ ·) heq)
  · intro hlabel
    refine ⟨?_, ?_, ?_⟩
    · apply hnodes.map_on
      intro node hnode node' hnode' heq
      exact hlabel node hnode node' hnode' (List.append_cancel_left heq)
    · cases rootName <;> simp [rootAddition]
    · intro name hname name' hname' heq
      obtain ⟨node, hnode, rfl⟩ := List.mem_map.mp hname
      have hnil := Node.label_ne_nil (Forest.ne_nil_of_mem_nodes hnode)
      rw [hroot name' hname'] at heq
      exact hnil (List.append_right_eq_self.mp heq)

/-- No name is added twice. -/
theorem not_mem_of_nodup {front rest : List Addition} {next : Addition}
    (h : ((front ++ next :: rest).map Addition.name).Nodup) :
    next.name ∉ front.map Addition.name := by
  intro hmem
  rw [List.map_append, List.map_cons] at h
  exact (List.nodup_append.mp h).2.2 next.name hmem next.name List.mem_cons_self rfl

/-- Names in UTF-8 give different labels. -/
theorem label_injective_of_valid (hdistinct : forest.Distinct)
    (hutf8 : ∀ node ∈ forest.nodes, ∀ name ∈ node.names, Utf8.Valid name) :
    ∀ node ∈ forest.nodes, ∀ node' ∈ forest.nodes,
      node.label Utf8.fromUtf8Lossy = node'.label Utf8.fromUtf8Lossy → node = node' := by
  intro node hnode node' hnode' heq
  apply List.inj_on_of_nodup_map hdistinct.nodup_paths hnode hnode'
  exact Node.path_eq_of_label (Forest.ne_nil_of_mem_nodes hnode)
    (Forest.ne_nil_of_mem_nodes hnode') (hutf8 node hnode) (hutf8 node' hnode') heq

end Names

/-! ### The traversal on a builder -/

section Run
variable {lib : TokioFile} {Io : Type} {fs : FileSystem Io} {directory : UnixPath}
  {rootName : Option Name} {attributes : Attributes} {forest : Forest}
  {b : Builder (filesystemEntry lib)}

/-- **A traversal** adds all nodes and the directory itself, or `add_entry` fails on one of them:
    its name has been added before, or it is too long, or the total is. -/
theorem addDirectoryRecursive_cases (rootName : Option Name)
    (hroot : fs.symlinkMetadata directory = .ok (Item.directory attributes).metadata)
    (hshown : Shows fs directory forest) (hempty : b.entries.entries = []) :
    ∃ order : List Node, order.Perm forest.nodes ∧
      ((∃ b', b.Added (treeAdditions directory rootName attributes order) b' ∧
        ∀ fuel, forest.nodes.length + 1 < fuel →
          (addDirectoryRecursive fs directory rootName fuel : Adding lib Io Unit) b =
            .ok (.ok (), b')) ∨
      ∃ front next rest b' e,
        treeAdditions directory rootName attributes order = front ++ next :: rest ∧
        ((65535 < next.name.length ∧ e = .tooLongEntryName next.name) ∨
          (next.name ∈ front.map Addition.name ∧ e = .duplicateEntryName next.name) ∨
          (u64Bound ≤ b.totalSize + entriesWeight
            ((front ++ [next]).map (Addition.entry lib b.timeConverter)) ∧
            e = .tooLongZipFile next.name)) ∧
        ∀ fuel, forest.nodes.length + 1 < fuel →
          (addDirectoryRecursive fs directory rootName fuel : Adding lib Io Unit) b =
            .ok (.err (.addEntryError e), b')) := by
  obtain ⟨order, hperm, hrun⟩ := addDirectoryRecursive_eq hroot hshown
  refine ⟨order, hperm, ?_⟩
  rcases addAll_cases (treeAdditions directory rootName attributes order) b with
    ⟨b', hadded, hok⟩ | ⟨front, next, rest, b', e, hsplit, hfront, hadd, herr⟩
  · refine .inl ⟨b', hadded, ?_⟩
    intro fuel hfuel
    rw [hrun fuel hfuel]
    exact hok
  · refine .inr ⟨front, next, rest, b', e, hsplit, ?_, ?_⟩
    · have hkeys : b'.entries.keys = front.map Addition.name := by
        unfold IndexMap.keys
        rw [hfront.entries, hempty, List.nil_append, List.map_map]
        rfl
      have htotal : b'.totalWith next.name next.data = b.totalSize + entriesWeight
          ((front ++ [next]).map (Addition.entry lib b.timeConverter)) := by
        rw [b'.totalWith_eq, hfront.total, hfront.timeConverter, ← next.entryWeight_eq,
          List.map_append, entriesWeight_append]
        simp only [List.map_singleton, Addition.entry, entriesWeight_cons]
        show _ = _ + (_ + (_ + 0))
        omega
      rcases b'.addEntryMut_cases next.name next.data with ⟨hlong, h⟩ | ⟨_, hmem, h⟩ |
        ⟨_, _, hover, h⟩ | ⟨_, _, _, h⟩
      · rw [hadd] at h
        cases h
        exact .inl ⟨hlong, rfl⟩
      · rw [hadd] at h
        cases h
        rw [hkeys] at hmem
        exact .inr (.inl ⟨hmem, rfl⟩)
      · rw [hadd] at h
        cases h
        rw [htotal] at hover
        exact .inr (.inr ⟨hover, rfl⟩)
      · rw [hadd] at h
        cases h
    · intro fuel hfuel
      rw [hrun fuel hfuel]
      exact herr

/-! ### Names in UTF-8 -/

/-- The metadata of a directory make its entry a directory. -/
theorem directory_metadata {E : EntryData} (entry : BuilderEntry E) {metadata : Metadata}
    (h : metadata.isDir) : (entry.metadata metadata).directory = entry.metadata metadata := by
  have hkeep : ∀ (entry : BuilderEntry E) (time : SystemTime), entry.fileType = .directory →
      (entry.datetimeSystemOrDefault time).directory = entry.datetimeSystemOrDefault time := by
    intro entry time htype
    obtain ⟨data, crc32, datetime, fileType, permissions, timeConverter⟩ := entry
    cases htype
    unfold BuilderEntry.datetimeSystemOrDefault BuilderEntry.datetimeSystem
    cases timeConverter with
    | none => rfl
    | some converter =>
      unfold BuilderEntry.datetimeFields
      dsimp only [bind, Option.bind]
      cases (converter time).pack <;> rfl
  unfold BuilderEntry.metadata
  rw [if_pos h]
  cases metadata.modified with
  | none => rfl
  | some modified => exact hkeep _ modified rfl

/-- The entry of what is at a path. -/
def Item.entry (lib : TokioFile) (timeConverter : Option TimeConverter) (path : UnixPath)
    (item : Item) : BuilderEntry (filesystemEntry lib) :=
  let data : FilesystemEntry := ⟨path, item.entryType⟩
  (BuilderEntry.new data timeConverter).metadata item.metadata.toMetadata

/-- The entries of a tree.  A node is named by the prefix, the names that lead to it with slashes
    between them, and a slash behind them if it is a directory; the directory itself has an entry
    if there is a root name. -/
def treeEntries (lib : TokioFile) (timeConverter : Option TimeConverter) (directory : UnixPath)
    (rootName : Option Name) (attributes : Attributes) (forest : Forest) :
    List (Name × BuilderEntry (filesystemEntry lib)) :=
  let below := forest.nodes.map fun node =>
    (entryPrefix rootName ++ node.label id,
      node.2.entry lib timeConverter (node.path directory))
  let root := rootName.toList.map fun _ =>
    (entryPrefix rootName, (Item.directory attributes).entry lib timeConverter directory)
  below ++ root

/-- What the additions leave are these entries. -/
theorem perm_treeEntries (timeConverter : Option TimeConverter) {order : List Node}
    (hutf8 : ∀ node ∈ forest.nodes, ∀ name ∈ node.names, Utf8.Valid name)
    (hperm : order.Perm forest.nodes) :
    ((treeAdditions directory rootName attributes order).map
        (Addition.entry lib timeConverter)).Perm
      (treeEntries lib timeConverter directory rootName attributes forest) := by
  have hnode : ∀ node ∈ forest.nodes,
      (Node.addition directory rootName node).entry lib timeConverter =
        (entryPrefix rootName ++ node.label id,
          node.2.entry lib timeConverter (node.path directory)) := by
    intro node hmem
    rw [← Node.label_valid (hutf8 node hmem)]
    rfl
  have hroot : (rootAddition directory rootName attributes).map (Addition.entry lib timeConverter) =
      rootName.toList.map fun _ =>
        (entryPrefix rootName, (Item.directory attributes).entry lib timeConverter directory) := by
    cases rootName with
    | none => rfl
    | some rootName =>
      -- the setter behind the metadata is redundant
      have hredundant : ((Item.directory attributes).entry lib timeConverter directory).directory =
          (Item.directory attributes).entry lib timeConverter directory :=
        directory_metadata _ rfl
      exact congrArg (fun entry => [(entryPrefix (some rootName), entry)]) hredundant
  unfold treeAdditions treeEntries
  rw [List.map_append, hroot, List.map_map]
  refine List.Perm.append_right _ ((hperm.map _).trans ?_)
  exact .of_eq (List.map_congr_left hnode)

/-- **Adding a directory adds exactly its tree.**  The traversal ends, whatever the order in which
    the children are listed and whatever is behind the symlinks. -/
theorem addDirectoryRecursive_adds_tree
    (hroot : fs.symlinkMetadata directory = .ok (Item.directory attributes).metadata)
    (hshown : Shows fs directory forest) (hdistinct : forest.Distinct)
    (hutf8 : ∀ node ∈ forest.nodes, ∀ name ∈ node.names, Utf8.Valid name)
    (hempty : b.entries.entries = [])
    (hnames : ∀ entry ∈ treeEntries lib b.timeConverter directory rootName attributes forest,
      entry.1.length ≤ 65535)
    (htotal : b.totalSize + entriesWeight
      (treeEntries lib b.timeConverter directory rootName attributes forest) < u64Bound) :
    ∃ enough b', (∀ fuel, enough < fuel →
        (addDirectoryRecursive fs directory rootName fuel : Adding lib Io Unit) b =
          .ok (.ok (), b')) ∧
      b'.entries.entries.Perm
        (treeEntries lib b.timeConverter directory rootName attributes forest) := by
  obtain ⟨order, hperm, hcases⟩ := addDirectoryRecursive_cases rootName hroot hshown hempty
  have htree : ((treeAdditions directory rootName attributes order).map
      (Addition.entry lib b.timeConverter)).Perm _ := perm_treeEntries b.timeConverter hutf8 hperm
  have hnodup : ((treeAdditions directory rootName attributes order).map Addition.name).Nodup :=
    (nodup_treeAdditions_iff _ _ _ hdistinct hperm).mpr (label_injective_of_valid hdistinct hutf8)
  rcases hcases with ⟨b', hadded, hrun⟩ | ⟨front, next, rest, b', e, hsplit, herror, _⟩
  · refine ⟨_, b', hrun, ?_⟩
    rw [hadded.entries, hempty, List.nil_append]
    exact htree
  · exfalso
    rw [hsplit] at htree hnodup
    rcases herror with ⟨hlong, _⟩ | ⟨hmem, _⟩ | ⟨hover, _⟩
    · have hnext : next ∈ front ++ next :: rest := List.mem_append_right front List.mem_cons_self
      have hname : next.name.length ≤ 65535 :=
        hnames _ (htree.mem_iff.mp (List.mem_map_of_mem hnext))
      omega
    · exact not_mem_of_nodup hnodup hmem
    · have hweight := entriesWeight_perm htree
      rw [List.append_cons, List.map_append, entriesWeight_append] at hweight
      omega

/-! ### A directory with a link to itself -/

/-- Files that are never opened. -/
def unopened : TokioFile where
  File := Empty
  OpenFuture := Unit
  Context := Unit
  Error := Unit
  openFile _ := ()
  poll _ _ := (.pending, ())
  pollRead file := file.elim
  startSeek file := file.elim
  pollComplete file := file.elim

/-- An empty builder. -/
def emptyBuilder : Builder (filesystemEntry unopened) := ⟨.empty, none, 98⟩

/-- A file name of one byte. -/
def letter (byte : UInt8) (h : byte ≠ dot ∧ byte ≠ slash ∧ byte ≠ 0) : FileName :=
  ⟨[byte], ⟨by simp, by simpa using h.1, by simp, by simpa using h.2.1.symm⟩,
    by simpa using h.2.2.symm⟩

/-- `a` -/
def letterA : FileName := letter 97 (by decide)

/-- `/d` -/
def linked : UnixPath := [47, 100]

def plain : Attributes := ⟨0o755, none, 0⟩

/-- `a/` with a file `b` in it, a file `b`, and a symlink `s` to `/d`. -/
def linkedTree : Forest :=
  .directory letterA plain
    (.leaf (letter 98 (by decide)) (.file plain) .empty)
    (.leaf (letter 98 (by decide)) (.file ⟨0o644, none, 5⟩)
      (.leaf (letter 115 (by decide)) (.symlink plain ⟨linked, by decide⟩) .empty))

/-- The file system with this tree at `/d`; the link leads there, and `read_dir` lists the last
    child first. -/
def linkedFs : FileSystem Unit where
  symlinkMetadata _ := .ok (Item.directory plain).metadata
  readDir path :=
    if path = linked.joinAll [[97]] then
      .ok [listed (letter 98 (by decide), .leaf (.file plain))]
    else .ok (linkedTree.children.reverse.map listed)
  readLink _ := .ok ⟨linked, by decide⟩

theorem linkedFs_shows : Shows linkedFs linked linkedTree where
  lists := ⟨_, List.reverse_perm _, rfl⟩
  below := by
    refine ⟨⟨⟨_, .refl _, rfl⟩, ?_, trivial⟩, ?_, ?_, trivial⟩
    · intro attributes target h
      cases h
    · intro attributes target h
      cases h
    · intro attributes target h
      cases h
      rfl

theorem linkedTree_valid : ∀ node ∈ linkedTree.nodes, ∀ name ∈ node.names, Utf8.Valid name := by
  have hletters : ∀ node ∈ linkedTree.nodes, ∀ name ∈ node.names,
      name = [97] ∨ name = [98] ∨ name = [115] := by decide
  intro node hnode name hname
  rcases hletters node hnode name hname with rfl | rfl | rfl
  · exact ⟨['a'], rfl⟩
  · exact ⟨['b'], rfl⟩
  · exact ⟨['s'], rfl⟩

/-- The link is added as a link. -/
theorem addDirectoryRecursive_adds_tree_linked :
    ∃ enough b', (∀ fuel, enough < fuel →
        (addDirectoryRecursive linkedFs linked (some [47, 112, 47]) fuel :
          Adding unopened Unit Unit) emptyBuilder = .ok (.ok (), b')) ∧
      b'.entries.keys.Perm
        [[112, 47, 97, 47], [112, 47, 97, 47, 98], [112, 47, 98], [112, 47, 115], [112, 47]] := by
  have hnames : ∀ entry ∈ treeEntries unopened none linked (some [47, 112, 47]) plain linkedTree,
      entry.1.length ≤ 65535 := by decide
  obtain ⟨enough, b', hrun, hperm⟩ := addDirectoryRecursive_adds_tree (b := emptyBuilder) rfl
    linkedFs_shows (by decide) linkedTree_valid rfl hnames (by decide)
  exact ⟨enough, b', hrun, hperm.map Prod.fst⟩

/-! ### Any names -/

/-- The name that the traversal makes for a node. -/
def Node.entryName (directory : UnixPath) (rootName : Option Name) (node : Node) : Exec Name :=
  makeEntryName (node.path directory) directory
    (rootName.map fun rootName => trimSlashes rootName ++ [slash]) node.2.isDir

/-- Two nodes that are told apart by bytes which are not decoded only. -/
structure Node.Collides (node node' : Node) : Prop where
  ne : node ≠ node'
  isDir : node.2.isDir = node'.2.isDir
  names : node.names.map Utf8.fromUtf8Lossy = node'.names.map Utf8.fromUtf8Lossy

section Collisions
variable {node node' : Node} (hnode : node ∈ forest.nodes) (hnode' : node' ∈ forest.nodes)
include hnode

theorem entryName_eq_label : node.entryName directory rootName =
    .ok (entryPrefix rootName ++ node.label Utf8.fromUtf8Lossy) :=
  Node.makeEntryName_eq (Forest.ne_nil_of_mem_nodes hnode) directory rootName

include hnode'

theorem entryName_eq_iff : node.entryName directory rootName = node'.entryName directory rootName ↔
    node.label Utf8.fromUtf8Lossy = node'.label Utf8.fromUtf8Lossy := by
  rw [entryName_eq_label hnode, entryName_eq_label hnode', Except.ok.injEq,
    List.append_cancel_left_eq]

theorem collides_iff : node.Collides node' ↔
    node ≠ node' ∧ node.label Utf8.fromUtf8Lossy = node'.label Utf8.fromUtf8Lossy := by
  rw [Node.label_eq_iff (Forest.ne_nil_of_mem_nodes hnode) (Forest.ne_nil_of_mem_nodes hnode')]
  constructor
  · intro h
    exact ⟨h.ne, h.isDir, h.names⟩
  · intro ⟨hne, hisDir, hnames⟩
    exact ⟨hne, hisDir, hnames⟩

end Collisions

/-- **Different nodes get the same entry name exactly if they collide**, and only then is a name
    added twice.  Names in UTF-8 do not collide. -/
theorem entryName_collides_iff (hdistinct : forest.Distinct) (directory : UnixPath)
    (rootName : Option Name) :
    (∀ node ∈ forest.nodes, ∃ name, node.entryName directory rootName = .ok name) ∧
    (∀ node ∈ forest.nodes, ∀ node' ∈ forest.nodes, node ≠ node' →
      (node.entryName directory rootName = node'.entryName directory rootName ↔
        node.Collides node')) ∧
    (∀ node ∈ forest.nodes, ∀ node' ∈ forest.nodes,
      (∀ name ∈ node.names, Utf8.Valid name) → (∀ name ∈ node'.names, Utf8.Valid name) →
        ¬ node.Collides node') ∧
    ∀ (lib : TokioFile) (Io : Type) (fs : FileSystem Io) (attributes : Attributes)
      (b : Builder (filesystemEntry lib)),
      fs.symlinkMetadata directory = .ok (Item.directory attributes).metadata →
      Shows fs directory forest → b.entries.entries = [] →
      ∃ enough, ∀ fuel, enough < fuel → ∀ answer b',
        (addDirectoryRecursive fs directory rootName fuel : Adding lib Io Unit) b =
          .ok (answer, b') →
        (∀ name, answer = .err (.addEntryError (.duplicateEntryName name)) →
          ∃ node ∈ forest.nodes, ∃ node' ∈ forest.nodes, node.Collides node') ∧
        (answer = .ok () → ∀ node ∈ forest.nodes, ∀ node' ∈ forest.nodes,
          ¬ node.Collides node') := by
  refine ⟨?_, ?_, ?_, ?_⟩
  · intro node hnode
    exact ⟨_, entryName_eq_label hnode⟩
  · intro node hnode node' hnode' hne
    rw [entryName_eq_iff hnode hnode', collides_iff hnode hnode', and_iff_right hne]
  · intro node hnode node' hnode' hutf8 hutf8' hcollides
    obtain ⟨hne, hlabel⟩ := (collides_iff hnode hnode').mp hcollides
    apply hne
    apply List.inj_on_of_nodup_map hdistinct.nodup_paths hnode hnode'
    exact Node.path_eq_of_label (Forest.ne_nil_of_mem_nodes hnode)
      (Forest.ne_nil_of_mem_nodes hnode') hutf8 hutf8' hlabel
  · intro lib Io fs attributes b hroot hshown hempty
    obtain ⟨order, hperm, hcases⟩ := addDirectoryRecursive_cases rootName hroot hshown hempty
    have hnodup := nodup_treeAdditions_iff directory rootName attributes hdistinct hperm
    refine ⟨forest.nodes.length + 1, ?_⟩
    intro fuel hfuel answer b' hrun
    rcases hcases with ⟨b₁, hadded, hok⟩ | ⟨front, next, rest, b₁, e, hsplit, herror, herr⟩
    · rw [hok fuel hfuel] at hrun
      cases hrun
      constructor
      · intro name h
        cases h
      · intro _ node hnode node' hnode' hcollides
        -- the map of entries has no key twice
        have hkeys := b'.entries.nodup
        rw [hadded.entries, hempty, List.nil_append, List.map_map] at hkeys
        obtain ⟨hne, hlabel⟩ := (collides_iff hnode hnode').mp hcollides
        exact hne (hnodup.mp hkeys node hnode node' hnode' hlabel)
    · rw [herr fuel hfuel] at hrun
      cases hrun
      refine ⟨?_, fun h => by cases h⟩
      intro name h
      cases h
      rcases herror with ⟨_, h⟩ | ⟨hmem, _⟩ | ⟨_, h⟩
      · cases h
      · by_contra hnone
        -- without a collision the names are different
        have hdiffer : ((treeAdditions directory rootName attributes order).map
            Addition.name).Nodup := by
          apply hnodup.mpr
          intro node hnode node' hnode' hlabel
          by_contra hne
          exact hnone ⟨node, hnode, node', hnode', (collides_iff hnode hnode').mpr ⟨hne, hlabel⟩⟩
        rw [hsplit] at hdiffer
        exact not_mem_of_nodup hdiffer hmem
      · cases h

/-- The names of the directory with the link are told apart. -/
theorem entryName_collides_iff_linked :
    ∃ enough, ∀ fuel, enough < fuel → ∀ answer b',
      (addDirectoryRecursive linkedFs linked none fuel : Adding unopened Unit Unit) emptyBuilder =
        .ok (answer, b') →
      ∀ name, answer ≠ .err (.addEntryError (.duplicateEntryName name)) := by
  obtain ⟨_, _, hvalid, hrun⟩ := entryName_collides_iff (by decide : linkedTree.Distinct) linked none
  obtain ⟨enough, hfails⟩ := hrun unopened Unit linkedFs plain emptyBuilder rfl linkedFs_shows rfl
  refine ⟨enough, ?_⟩
  intro fuel hfuel answer b' hanswer name heq
  obtain ⟨node, hnode, node', hnode', hcollides⟩ := (hfails fuel hfuel answer b' hanswer).1 name heq
  exact hvalid node hnode node' hnode' (linkedTree_valid node hnode) (linkedTree_valid node' hnode')
    hcollides

/-- Two files with names that are no UTF-8. -/
def lossyTree : Forest :=
  .leaf (letter 0xFF (by decide)) (.file plain) (.leaf (letter 0xFE (by decide)) (.file plain) .empty)

/-- The file system with these files in every directory. -/
def lossyFs : FileSystem Unit where
  symlinkMetadata _ := .ok (Item.directory plain).metadata
  readDir _ := .ok (lossyTree.children.map listed)
  readLink _ := .error ()

/-- Both become the replacement character, and the second is not added. -/
theorem lossy_names_collide :
    lossyTree.Distinct ∧ Shows lossyFs linked lossyTree ∧
    (∃ node ∈ lossyTree.nodes, ∃ node' ∈ lossyTree.nodes, node ≠ node' ∧
      node.entryName linked none = node'.entryName linked none) ∧
    emptyBuilder.entries.entries = [] ∧
    ∃ b', (addDirectoryRecursive lossyFs linked none 4 : Adding unopened Unit Unit) emptyBuilder =
      .ok (.err (.addEntryError (.duplicateEntryName [0xEF, 0xBF, 0xBD])), b') := by
  have hshown : Shows lossyFs linked lossyTree := by
    refine ⟨⟨_, .refl _, rfl⟩, ?_, ?_, trivial⟩
    · intro attributes target h
      cases h
    · intro attributes target h
      cases h
  exact ⟨by decide, hshown, by decide, rfl, _, rfl⟩

end Run

end Zippity
