import Zippity.Properties.Datetimes
import Zippity.Properties.Filesystem
import Zippity.Properties.RoundTrip
import Zippity.Properties.Traversals

/-! # Archives of directories

    What a reader delivers of a directory is decoded to the tree below it: its
    files with their contents, its symlinks with their targets, and its
    directories, each with its name, its mode and the time it was modified.
-/

namespace Zippity

open Framework Exec Async UnixPath

/-! ### Files as entry data -/

/-- Files alone, opened by their paths; nothing is said about their sizes. -/
abbrev openedFile (lib : TokioFile) : EntryData where
  Data := UnixPath
  Reader := lib.File
  Future := lib.OpenFuture
  Context := lib.Context
  Error := lib.Error
  getReader path := lib.openFile path
  size _ := 0
  size_lt _ := by decide
  poll future ctx := lib.poll future ctx
  pollRead file _ ctx buf := lib.pollRead file ctx buf
  startSeek file _ position := lib.startSeek file position
  pollSeekComplete file _ ctx := lib.pollComplete file ctx

/-- The data of an entry: what is in the file at its path, or the target of the symlink. -/
def FilesystemEntry.content (contents : UnixPath → List UInt8) (self : FilesystemEntry) :
    List UInt8 :=
  match self.entryType with
  | .file _ => contents self.path
  | .directory => []
  | .symlink targetBytes => targetBytes.1

section Delivery
variable {lib : TokioFile} {mayFail : Prop}

/-- A file is read through an entry as it is read alone. -/
theorem file_delivers {path : UnixPath} {data : List UInt8} (size : UInt64)
    (h : Delivers (openedFile lib) mayFail path data) :
    Delivers (filesystemEntry lib) mayFail ⟨path, .file size⟩ data := by
  obtain ⟨c, hopening⟩ := h
  refine ⟨{
    opening := fun future => ∃ inner, future = .file inner ∧ c.opening inner
    standing := fun reader n => ∃ inner, reader = .file inner ∧ c.standing inner n
    seeking := fun reader p => ∃ inner, reader = .file inner ∧ c.seeking inner p
    stalled := fun reader => ∃ inner, reader = .file inner ∧ c.stalled inner
    poll := ?_
    pollRead := ?_
    startSeek := ?_
    pollSeekComplete := ?_
    pollStalled := ?_ }, _, rfl, hopening⟩
  · rintro _ ctx ⟨inner, rfl, hinner⟩
    have hpoll := c.poll inner ctx hinner
    dsimp only [FilesystemEntryFuture.poll] at hpoll ⊢
    generalize lib.poll inner ctx = answer at hpoll ⊢
    rcases answer with ⟨_ | _ | _, inner'⟩
    · exact ⟨_, rfl, hpoll⟩
    · exact hpoll
    · exact ⟨_, rfl, hpoll⟩
  · rintro _ n ctx buf ⟨inner, rfl, hinner⟩
    have hread := c.pollRead inner n ctx buf hinner
    dsimp only [FilesystemEntryReader.pollRead] at hread ⊢
    generalize lib.pollRead inner ctx buf = answer at hread ⊢
    rcases answer with ⟨_ | _ | _, inner'⟩
    · exact ⟨_, rfl, hread⟩
    · exact ⟨hread.1, _, rfl, hread.2⟩
    · exact ⟨hread.1, hread.2.1, _, rfl, hread.2.2⟩
  · rintro _ n p ⟨inner, rfl, hinner⟩
    have hstart := c.startSeek inner n p hinner
    dsimp only [FilesystemEntryReader.startSeek] at hstart ⊢
    generalize lib.startSeek inner (.start p) = answer at hstart ⊢
    rcases answer with ⟨_ | _, inner'⟩
    · exact ⟨hstart.1, _, rfl, hstart.2⟩
    · exact ⟨_, rfl, hstart⟩
  · rintro _ p ctx ⟨inner, rfl, hinner⟩
    have hcomplete := c.pollSeekComplete inner p ctx hinner
    dsimp only [FilesystemEntryReader.pollComplete] at hcomplete ⊢
    generalize lib.pollComplete inner ctx = answer at hcomplete ⊢
    rcases answer with ⟨_ | _ | _, inner'⟩
    · exact ⟨_, rfl, hcomplete⟩
    · exact ⟨hcomplete.1, hcomplete.2.imp (⟨_, rfl, ·⟩) (⟨_, rfl, ·⟩)⟩
    · exact ⟨hcomplete.1, _, rfl, hcomplete.2⟩
  · rintro _ ctx ⟨inner, rfl, hinner⟩
    have hcomplete := c.pollStalled inner ctx hinner
    dsimp only [FilesystemEntryReader.pollComplete] at hcomplete ⊢
    generalize lib.pollComplete inner ctx = answer at hcomplete ⊢
    rcases answer with ⟨_ | _ | _, inner'⟩
    · exact ⟨_, rfl, hcomplete⟩
    · exact ⟨hcomplete.1, _, rfl, hcomplete.2⟩
    · exact ⟨_, rfl, hcomplete⟩

/-- A symlink is read as its target. -/
theorem symlink_delivers (path : UnixPath) (targetBytes : Slice) :
    Delivers (filesystemEntry lib) mayFail ⟨path, .symlink targetBytes⟩ targetBytes.1 := by
  refine ⟨{
    opening := fun future => future = .symlink targetBytes
    standing := fun reader n => reader = .symlink targetBytes ⟨n⟩
    seeking := fun reader p => reader = .symlink targetBytes ⟨p⟩
    stalled := fun _ => False
    poll := ?_
    pollRead := ?_
    startSeek := ?_
    pollSeekComplete := ?_
    pollStalled := fun _ _ h => h.elim }, rfl⟩
  · rintro _ ctx rfl
    rfl
  · rintro _ n ctx buf rfl
    obtain ⟨hbytes, hne⟩ := AsRefReader.readable_spec ⟨n⟩ targetBytes.1 buf.remaining
    exact ⟨hbytes, hne, rfl⟩
  · rintro _ n p rfl
    rfl
  · rintro _ p ctx rfl
    exact ⟨rfl, rfl⟩

/-- A directory has no data, and what opens it is never done. -/
theorem directory_delivers (path : UnixPath) :
    Delivers (filesystemEntry lib) mayFail ⟨path, .directory⟩ [] := by
  refine ⟨{
    opening := fun future => future = .unreachable
    standing := fun _ _ => False
    seeking := fun _ _ => False
    stalled := fun _ => False
    poll := ?_
    pollRead := fun _ _ _ _ h => h.elim
    startSeek := fun _ _ _ h => h.elim
    pollSeekComplete := fun _ _ _ h => h.elim
    pollStalled := fun _ _ h => h.elim }, rfl⟩
  rintro _ ctx rfl
  rfl

/-- Entries deliver what the files deliver. -/
theorem filesystemEntry_delivers {contents : UnixPath → List UInt8} {entry : FilesystemEntry}
    (hfile : ∀ size, entry.entryType = .file size →
      Delivers (openedFile lib) mayFail entry.path (contents entry.path)) :
    Delivers (filesystemEntry lib) mayFail entry (entry.content contents) := by
  obtain ⟨path, entryType⟩ := entry
  cases entryType with
  | file size => exact file_delivers size (hfile size rfl)
  | directory => exact directory_delivers path
  | symlink targetBytes => exact symlink_delivers path targetBytes

end Delivery

/-! ### What an archive says of a tree -/

/-- What is at a path, and the name it gets in an archive. -/
structure TreeItem where
  name : Name
  path : UnixPath
  item : Item

/-- The nodes of a tree; the directory itself is among them if there is a root name. -/
def treeItems (directory : UnixPath) (rootName : Option Name) (attributes : Attributes)
    (forest : Forest) : List TreeItem :=
  let below := forest.nodes.map fun node =>
    ⟨entryPrefix rootName ++ node.label Utf8.fromUtf8Lossy, node.path directory, node.2⟩
  let root := rootName.toList.map fun _ =>
    ⟨entryPrefix rootName, directory, .directory attributes⟩
  below ++ root

namespace Item

/-- The mode of an object as an archive keeps it: what it is, and the permissions it has.  Those of
    a symlink do not matter. -/
def unixMode : Item → UInt32
  | .leaf (.file attributes) => 0o100000 ||| (attributes.mode &&& 0o777)
  | .leaf (.symlink _ _) => 0o120777
  | .directory attributes => 0o040000 ||| (attributes.mode &&& 0o777)

/-- When an object was modified.  A time that cannot be converted is the default. -/
def datetime (timeConverter : Option TimeConverter) (item : Item) : DosDatetime :=
  let fields := item.metadata.modified.bind fun modified => timeConverter.map (· modified)
  (fields.bind DatetimeFields.pack).getD .default

/-- The bytes of an object. -/
def content (contents : UnixPath → List UInt8) (path : UnixPath) : Item → List UInt8
  | .leaf (.file _) => contents path
  | .leaf (.symlink _ target) => target.1
  | .directory _ => []

end Item

namespace TreeItem

/-- The entry of a builder for it. -/
def entry (lib : TokioFile) (timeConverter : Option TimeConverter) (self : TreeItem) :
    Name × BuilderEntry (filesystemEntry lib) :=
  (self.name, self.item.entry lib timeConverter self.path)

/-- The file that it is in an archive. -/
def file (H : Crc32Fast) (contents : UnixPath → List UInt8)
    (timeConverter : Option TimeConverter) (self : TreeItem) : Zip64.File where
  name := self.name
  data := self.item.content contents self.path
  crc32 := H.hash (self.item.content contents self.path)
  time := (self.item.datetime timeConverter).time
  date := (self.item.datetime timeConverter).date
  externalAttributes := self.item.unixMode <<< 16

end TreeItem

section Metadata
variable {E : EntryData}

/-- The setter of a time sets nothing else. -/
theorem frame_datetimeSystemOrDefault (entry : BuilderEntry E) (time : SystemTime) :
    (entry.datetimeSystemOrDefault time).crc32 = entry.crc32 ∧
      (entry.datetimeSystemOrDefault time).fileType = entry.fileType ∧
      (entry.datetimeSystemOrDefault time).permissions = entry.permissions := by
  unfold BuilderEntry.datetimeSystemOrDefault BuilderEntry.datetimeSystem
  cases entry.timeConverter with
  | none => exact ⟨rfl, rfl, rfl⟩
  | some converter =>
    unfold BuilderEntry.datetimeFields
    dsimp only [bind, Option.bind]
    cases (converter time).pack <;> exact ⟨rfl, rfl, rfl⟩

/-- The type and the permissions that metadata give an entry. -/
theorem mode_metadata (entry : BuilderEntry E) (metadata : Metadata) :
    (entry.metadata metadata).crc32 = entry.crc32 ∧
      (entry.metadata metadata).fileType =
        (if metadata.isDir then .directory else if metadata.isSymlink then .symlink else .file) ∧
      (entry.metadata metadata).permissions = .unixPermissions (metadata.mode &&& 0o777) := by
  unfold BuilderEntry.metadata
  generalize htyped : (if metadata.isDir then entry.directory
    else if metadata.isSymlink then entry.symlink else entry.file) = typed
  have hsame : typed.crc32 = entry.crc32 ∧ typed.fileType =
      if metadata.isDir then .directory else if metadata.isSymlink then .symlink else .file := by
    rw [← htyped]
    split
    · exact ⟨rfl, rfl⟩
    · split <;> exact ⟨rfl, rfl⟩
  cases metadata.modified with
  | none => exact ⟨hsame.1, hsame.2, rfl⟩
  | some modified =>
    obtain ⟨hcrc32, htype, hpermissions⟩ :=
      frame_datetimeSystemOrDefault (typed.setPermissions metadata.mode) modified
    exact ⟨hcrc32.trans hsame.1, htype.trans hsame.2, hpermissions⟩

end Metadata

section Items
variable {lib : TokioFile} {timeConverter : Option TimeConverter} {path : UnixPath} {item : Item}

/-- The permissions are cut to nine bits twice. -/
theorem getExternalAttributes_entry :
    getExternalAttributes (item.entry lib timeConverter path).fileType
      (item.entry lib timeConverter path).permissions = item.unixMode <<< 16 := by
  obtain ⟨_, htype, hpermissions⟩ := mode_metadata
    (.new ⟨path, item.entryType⟩ timeConverter : BuilderEntry (filesystemEntry lib))
    item.metadata.toMetadata
  have htwice : ∀ mode : UInt32, mode &&& 0o777 &&& 0o777 = mode &&& 0o777 := by
    intro mode
    rw [UInt32.and_assoc]
    rfl
  unfold Item.entry
  rw [htype, hpermissions]
  rcases item with (_ | _) | _
  · simp [getExternalAttributes, Item.metadata, Item.unixMode, htwice]
  · have hbits : (0o120000 ||| 0o777 : UInt32) = 0o120777 := by decide
    simp [getExternalAttributes, Item.metadata, Item.unixMode, hbits]
  · simp [getExternalAttributes, Item.metadata, Item.unixMode, htwice]

theorem crc32_entry : (item.entry lib timeConverter path).crc32 = none :=
  (mode_metadata _ _).1

theorem data_entry : (item.entry lib timeConverter path).data = ⟨path, item.entryType⟩ :=
  BuilderEntry.data_set _ (.metadata item.metadata.toMetadata)

theorem datetime_entry :
    (item.entry lib timeConverter path).datetime.getD .default = item.datetime timeConverter := by
  unfold Item.entry Item.datetime
  rw [BuilderEntry.datetime_metadata]
  cases item.metadata.modified with
  | none => rfl
  | some modified =>
    show ((Option.bind _ DatetimeFields.pack).or none).getD _ = _
    rw [Option.or_none]
    rfl

/-- An entry for an object is read back as the object. -/
theorem TreeItem.addedFile_entry {H : Crc32Fast} {contents : UnixPath → List UInt8}
    (self : TreeItem) :
    addedFile H (FilesystemEntry.content contents) (self.entry lib timeConverter) =
      self.file H contents timeConverter := by
  obtain ⟨name, path, item⟩ := self
  have hcontent : FilesystemEntry.content contents ⟨path, item.entryType⟩ =
      item.content contents path := by
    rcases item with (_ | _) | _ <;> rfl
  simp only [addedFile, TreeItem.entry, TreeItem.file, data_entry, datetime_entry,
    getExternalAttributes_entry, hcontent]

end Items

/-! ### Archives of trees -/

section Archives
variable {lib : TokioFile} {Io : Type} {fs : FileSystem Io} {directory : UnixPath}
  {rootName : Option Name} {attributes : Attributes} {forest : Forest}
  {b b' : Builder (filesystemEntry lib)} {contents : UnixPath → List UInt8} {mayFail : Prop}

/-- What the additions of a tree leave in a builder. -/
theorem perm_treeItems (timeConverter : Option TimeConverter) {order : List Node}
    (hperm : order.Perm forest.nodes) :
    ((treeAdditions directory rootName attributes order).map
        (Addition.entry lib timeConverter)).Perm
      ((treeItems directory rootName attributes forest).map (TreeItem.entry lib timeConverter)) := by
  have hroot : (rootAddition directory rootName attributes).map (Addition.entry lib timeConverter) =
      (rootName.toList.map fun _ =>
        (⟨entryPrefix rootName, directory, .directory attributes⟩ : TreeItem)).map
          (TreeItem.entry lib timeConverter) := by
    cases rootName with
    | none => rfl
    | some rootName =>
      have hredundant : ((Item.directory attributes).entry lib timeConverter directory).directory =
          (Item.directory attributes).entry lib timeConverter directory :=
        directory_metadata _ rfl
      exact congrArg (fun entry => [(entryPrefix (some rootName), entry)]) hredundant
  unfold treeAdditions treeItems
  rw [List.map_append, hroot, List.map_append, List.map_map]
  refine List.Perm.append_right _ ?_
  rw [List.map_map]
  exact hperm.map _

/-- The files of a tree are read as what they contain, and are as long as the file system says. -/
def FilesRead (lib : TokioFile) (mayFail : Prop) (contents : UnixPath → List UInt8)
    (directory : UnixPath) (forest : Forest) : Prop :=
  ∀ node ∈ forest.nodes, ∀ a, node.2 = .leaf (.file a) →
    Delivers (openedFile lib) mayFail (node.path directory) (contents (node.path directory)) ∧
      (contents (node.path directory)).length = a.len.toNat

/-- Every file among the items of a tree is one of its nodes. -/
theorem FilesRead.item (h : FilesRead lib mayFail contents directory forest) {item : TreeItem}
    (hitem : item ∈ treeItems directory rootName attributes forest) {a : Attributes}
    (hfile : item.item = .leaf (.file a)) :
    Delivers (openedFile lib) mayFail item.path (contents item.path) ∧
      (contents item.path).length = a.len.toNat := by
  rcases List.mem_append.mp hitem with hnode | hroot
  · obtain ⟨node, hmem, rfl⟩ := List.mem_map.mp hnode
    exact h node hmem a hfile
  · obtain ⟨_, _, rfl⟩ := List.mem_map.mp hroot
    cases hfile

section Holds
variable {timeConverter : Option TimeConverter}
  (hholds : b.entries.entries.Perm ((treeItems directory rootName attributes forest).map
    (TreeItem.entry lib timeConverter)))
include hholds

/-- An entry of a builder that holds a tree is that of an item. -/
theorem exists_item_of_mem {name : Name} {entry : BuilderEntry (filesystemEntry lib)}
    (hmem : (name, entry) ∈ b.entries.entries) :
    ∃ item ∈ treeItems directory rootName attributes forest,
      name = item.name ∧ entry = item.item.entry lib timeConverter item.path := by
  obtain ⟨item, hitem, heq⟩ := List.mem_map.mp (hholds.mem_iff.mp hmem)
  cases heq
  exact ⟨item, hitem, rfl, rfl⟩

theorem tree_rightCrcs {H : Crc32Fast} :
    b.RightCrcs (FilesystemEntry.content contents) H := by
  intro name entry hmem crc hcrc
  obtain ⟨item, _, _, rfl⟩ := exists_item_of_mem hholds hmem
  rw [crc32_entry] at hcrc
  cases hcrc

variable (hfiles : FilesRead lib mayFail contents directory forest)
include hfiles

theorem tree_delivering : b.Delivering (FilesystemEntry.content contents) mayFail := by
  intro name entry hmem
  obtain ⟨item, hitem, _, rfl⟩ := exists_item_of_mem hholds hmem
  rw [data_entry]
  apply filesystemEntry_delivers
  intro size hsize
  -- only a file has the type of one
  rcases hkind : item.item with (a | _) | _
  · exact (hfiles.item hitem hkind).1
  · rw [hkind] at hsize
    cases hsize
  · rw [hkind] at hsize
    cases hsize

theorem tree_honestSizes : b.HonestSizes (FilesystemEntry.content contents) := by
  intro name entry hmem
  obtain ⟨item, hitem, _, rfl⟩ := exists_item_of_mem hholds hmem
  rw [data_entry]
  rcases hkind : item.item with (a | _) | _
  · exact (hfiles.item hitem hkind).2
  · rfl
  · rfl

end Holds

/-- What a traversal of a tree leaves in an empty builder. -/
theorem addDirectoryRecursive_holds {fuel : Nat}
    (hroot : fs.symlinkMetadata directory = .ok (Item.directory attributes).metadata)
    (hshown : Shows fs directory forest) (hempty : b.entries.entries = [])
    (hfuel : forest.nodes.length + 1 < fuel)
    (hadd : (addDirectoryRecursive fs directory rootName fuel : Adding lib Io Unit) b =
      .ok (.ok (), b')) :
    b'.entries.entries.Perm ((treeItems directory rootName attributes forest).map
      (TreeItem.entry lib b.timeConverter)) := by
  obtain ⟨order, hperm, hcases⟩ := addDirectoryRecursive_cases rootName hroot hshown hempty
  rcases hcases with ⟨b₁, hadded, hok⟩ | ⟨_, _, _, b₁, e, _, _, herr⟩
  · rw [hok fuel hfuel] at hadd
    cases hadd
    rw [hadded.entries, hempty, List.nil_append]
    exact perm_treeItems b.timeConverter hperm
  · rw [herr fuel hfuel] at hadd
    cases hadd

/-- **The archive of a directory is decoded to its tree**, whatever the names in it are. -/
theorem decode_directory {H : Crc32Fast} {fuel : Nat} {r r' : Reader (filesystemEntry lib) H}
    {ops : List (Op (filesystemEntry lib))}
    (hroot : fs.symlinkMetadata directory = .ok (Item.directory attributes).metadata)
    (hshown : Shows fs directory forest)
    (hfiles : FilesRead lib False contents directory forest)
    (hb : b.Reached) (hempty : b.entries.entries = []) (hfuel : forest.nodes.length + 1 < fuel)
    (hadd : (addDirectoryRecursive fs directory rootName fuel : Adding lib Io Unit) b =
      .ok (.ok (), b'))
    (hbuild : b'.build = .ok r) (hsteps : Steps r ops r') (hpolls : ∀ op ∈ ops, op.isPoll = true)
    (hend : r'.AtEnd) :
    ∃ files, Zip64.decode (deliveredBytes ops) = some files ∧
      files.Perm ((treeItems directory rootName attributes forest).map
        (TreeItem.file H contents b.timeConverter)) := by
  have hholds := addDirectoryRecursive_holds hroot hshown hempty hfuel hadd
  have hhonest := tree_honestSizes hholds hfiles
  obtain ⟨calls, hcalls⟩ := (calledTo_of_addDirectoryRecursive hadd).calls
  have hreached : b'.Reached := hb.run hcalls
  obtain ⟨a, hbuilt⟩ := hreached.built (FilesystemEntry.content contents) hbuild
  have hsound := hbuilt.sound hhonest (tree_rightCrcs hholds)
  have hstart := hbuilt.start (tree_delivering hholds hfiles)
  obtain ⟨rest, hstream, hat⟩ :=
    Steps.stream hstart hsteps hpolls (Steps.succeeds hsound hstart hsteps)
  rw [hat.eq_done hend, tailAt_segments_of_sound hsound] at hstream
  have hbytes : archiveBytes a.members = deliveredBytes ops := by
    simpa [Tail.cons, Tail.done] using congrArg Tail.items hstream
  have hdecode := decode_archiveBytes (hbuilt.honest hhonest)
  rw [hbytes, hbuilt.map_file hsound] at hdecode
  refine ⟨_, hdecode, (hholds.map _).trans (.of_eq ?_)⟩
  rw [List.map_map]
  exact List.map_congr_left fun item _ => item.addedFile_entry

end Archives

/-! ### The directory with a link to itself -/

/-- Files in memory; a call waits until the task may go on. -/
def memoryFiles (bytes : UnixPath → List UInt8) : TokioFile where
  File := UnixPath × AsRefReader
  OpenFuture := UnixPath
  Context := Bool
  Error := Unit
  openFile path := path
  poll path go := if go then (.ok (path, ⟨0⟩), path) else (.pending, path)
  pollRead file go buf :=
    if go then
      let filling := file.2.readable (bytes file.1) buf.remaining
      (.ok filling, (file.1, ⟨file.2.position + filling.1.length⟩))
    else (.pending, file)
  startSeek file position :=
    match file.2.target (bytes file.1).length position with
    | some position => (.ok (), (file.1, ⟨position⟩))
    | none => (.error (), file)
  pollComplete file _ := (.ok file.2.position, file)

theorem memoryFiles_delivers {bytes : UnixPath → List UInt8} (path : UnixPath) :
    Delivers (openedFile (memoryFiles bytes)) False path (bytes path) := by
  refine ⟨{
    opening := fun future => future = path
    standing := fun file n => file = (path, ⟨n⟩)
    seeking := fun file p => file = (path, ⟨p⟩)
    stalled := fun _ => False
    poll := ?_
    pollRead := ?_
    startSeek := ?_
    pollSeekComplete := ?_
    pollStalled := fun _ _ h => h.elim }, rfl⟩
  · rintro _ go rfl
    cases go <;> rfl
  · rintro _ n go buf rfl
    obtain ⟨hbytes, hne⟩ := AsRefReader.readable_spec ⟨n⟩ (bytes path) buf.remaining
    cases go with
    | false => rfl
    | true => exact ⟨hbytes, hne, rfl⟩
  · rintro _ n p rfl
    rfl
  · rintro _ p go rfl
    exact ⟨rfl, rfl⟩

/-- The file `b` in `/d` has five bytes; the other one is empty. -/
def linkedContents (path : UnixPath) : List UInt8 :=
  if path = linked.joinAll [[98]] then [1, 2, 3, 4, 5] else []

theorem linkedContents_read :
    FilesRead (memoryFiles linkedContents) False linkedContents linked linkedTree := by
  have hlengths : ∀ node ∈ linkedTree.nodes, node.2.metadata.isDir = true ∨
      node.2.metadata.isSymlink = true ∨
      (linkedContents (node.path linked)).length = node.2.metadata.len.toNat := by decide
  intro node hnode a hfile
  refine ⟨memoryFiles_delivers _, ?_⟩
  have hlength := hlengths node hnode
  rw [hfile] at hlength
  rcases hlength with hdir | hlink | hlength
  · cases hdir
  · cases hlink
  · exact hlength

/-- A new builder, a directory added to it, and the archive read by a script. -/
def directorySession {lib : TokioFile} {Io : Type} (H : Crc32Fast) (fs : FileSystem Io)
    (directory : UnixPath) (rootName : Option Name) (fuel : Nat)
    (script : List (Action (filesystemEntry lib))) : Option (Session (filesystemEntry lib) H) :=
  match (addDirectoryRecursive fs directory rootName fuel : Adding lib Io Unit)
      ⟨.empty, none, 98⟩ with
  | .ok (.ok (), builder) =>
    match builder.build with
    | .error _ => none
    | .ok reader =>
      match runScript fuel reader script with
      | .error _ => none
      | .ok (ops, last) => some { builder, reader, ops, last }
  | _ => none

theorem directorySession_spec {lib : TokioFile} {Io : Type} {H : Crc32Fast} {fs : FileSystem Io}
    {directory : UnixPath} {rootName : Option Name} {fuel : Nat}
    {script : List (Action (filesystemEntry lib))} {x : Session (filesystemEntry lib) H}
    (h : directorySession H fs directory rootName fuel script = some x) :
    (addDirectoryRecursive fs directory rootName fuel : Adding lib Io Unit) ⟨.empty, none, 98⟩ =
        .ok (.ok (), x.builder) ∧
      x.builder.build = .ok x.reader ∧ Steps x.reader x.ops x.last := by
  unfold directorySession at h
  split at h
  · next builder hadd =>
    split at h
    · cases h
    · next reader hbuild =>
      split at h
      · cases h
      · next ops last hrun =>
        cases h
        exact ⟨hadd, hbuild, runScript_steps hrun⟩
  · cases h

/-- The archive of this directory is read with a wait in between; the link is in it as a link. -/
theorem decode_directory_linked :
    ∃ x : Session (filesystemEntry (memoryFiles linkedContents)) crc32Ieee,
      directorySession crc32Ieee linkedFs linked (some [112]) 40 [.poll true (room 300),
        .poll false (room 300), .poll true (room 700), .poll true (room 700), .poll true (room 700),
        .poll true (room 700)] = some x ∧
      ∃ files, Zip64.decode (deliveredBytes x.ops) = some files ∧
        files.Perm ((treeItems linked (some [112]) plain linkedTree).map
          (TreeItem.file crc32Ieee linkedContents none)) := by
  let script : List (Action (filesystemEntry (memoryFiles linkedContents))) :=
    [.poll true (room 300), .poll false (room 300), .poll true (room 700), .poll true (room 700),
      .poll true (room 700), .poll true (room 700)]
  have hrun : (directorySession crc32Ieee linkedFs linked (some [112]) 40 script).map
      (fun x => x.ops.all Op.isPoll && x.last.endTest true 40) = some true := by
    decide +kernel
  obtain ⟨x, hx, hseen⟩ := Option.map_eq_some_iff.mp hrun
  obtain ⟨hadd, hbuild, hsteps⟩ := directorySession_spec hx
  obtain ⟨hpolls, hend⟩ := Bool.and_eq_true_iff.mp hseen
  exact ⟨x, hx, decode_directory rfl linkedFs_shows linkedContents_read
    ⟨_, [], Builder.new_eq, .nil⟩ rfl (by decide) hadd hbuild hsteps
    (List.all_eq_true.mp hpolls) (Reader.atEnd_of_endTest hend)⟩

end Zippity
