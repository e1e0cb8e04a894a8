import Zippity.Framework.UnixPath
import Zippity.Framework.Utf8Lossy
import Zippity.Builder

/-! # File system entries

    `filesystem_entry.rs` on Unix: files, directories and symlinks as entry
    data, and the traversal that adds a directory to a builder.  The file system
    answers as it likes, with errors too.
-/

namespace Zippity

open Framework Exec Async UnixPath

/-! ### The file system -/

/-- What is read of `std::fs::Metadata`, its length included. -/
structure FileMetadata extends Metadata where
  len : UInt64
  deriving DecidableEq, Repr

/-- `tokio::fs::DirEntry`: its name and the answer of `metadata()`. -/
structure DirEntry (Io : Type) where
  fileName : UnixPath
  metadata : Except Io FileMetadata

/-- The calls of `tokio::fs`; `Io` is `std::io::Error`. -/
structure FileSystem (Io : Type) where
  symlinkMetadata : UnixPath → Except Io FileMetadata
  /-- `read_dir`, and what `next_entry` answers one time after the other. -/
  readDir : UnixPath → Except Io (List (Except Io (DirEntry Io)))
  readLink : UnixPath → Except Io Slice

/-! ### Entries -/

/-- `EntryType`. -/
inductive EntryType where
  | file (size : UInt64)
  | directory
  | symlink (targetBytes : Slice)
  deriving DecidableEq

structure FilesystemEntry where
  path : UnixPath
  entryType : EntryType
  deriving DecidableEq

/-- `EntryType::with_metadata`. -/
def EntryType.withMetadata {Io : Type} (fs : FileSystem Io) (path : UnixPath)
    (metadata : FileMetadata) : Except Io EntryType :=
  if metadata.isDir then .ok .directory
  else if metadata.isSymlink then do
    -- the target is read when the entry is added, not when the archive is
    let target ← fs.readLink path
    .ok (.symlink target)
  else .ok (.file metadata.len)

namespace FilesystemEntry

/-- `FilesystemEntry::with_metadata`. -/
def withMetadata {Io : Type} (fs : FileSystem Io) (path : UnixPath) (metadata : FileMetadata) :
    Except Io FilesystemEntry := do
  let entryType ← EntryType.withMetadata fs path metadata
  .ok { path, entryType }

/-- `EntryData::size`. -/
def size (self : FilesystemEntry) : Nat :=
  match self.entryType with
  | .file size => size.toNat
  | .directory => 0
  | .symlink targetBytes => targetBytes.1.length

theorem size_lt (self : FilesystemEntry) : self.size < u64Bound := by
  unfold size
  split
  · next size _ => exact size.toNat_lt
  · decide
  · next targetBytes _ =>
    have := targetBytes.2
    simp only [u64Bound]
    omega

end FilesystemEntry

/-! ### Reading entries -/

/-- `tokio::fs::File`. -/
structure TokioFile where
  File : Type
  OpenFuture : Type
  Context : Type
  Error : Type
  openFile : UnixPath → OpenFuture
  poll : OpenFuture → Context → PollResult Error File × OpenFuture
  pollRead : File → Context → (buf : ReadBuf) → PollResult Error (Filling buf.remaining) × File
  startSeek : File → SeekFrom → Except Error Unit × File
  pollComplete : File → Context → PollResult Error Nat × File

section Reading
variable (lib : TokioFile)

/-- `std::io::Error`, of a file or of the cursor of a symlink. -/
abbrev FilesystemError := lib.Error ⊕ SeekError

/-- `FilesystemEntryFuture`. -/
inductive FilesystemEntryFuture where
  | file (fileFuture : lib.OpenFuture)
  | symlink (targetBytes : Slice)
  /-- The `unreachable!` of `get_reader`: a directory has no data, so no reader opens it. -/
  | unreachable

/-- `FilesystemEntryReader`.  A `Cursor` seeks and reads as `AsRefReader` does. -/
inductive FilesystemEntryReader where
  | file (file : lib.File)
  | symlink (targetBytes : Slice) (cursor : AsRefReader)

variable {lib}

/-- `EntryData::get_reader`. -/
def FilesystemEntry.getReader (self : FilesystemEntry) : FilesystemEntryFuture lib :=
  match self.entryType with
  | .file _ => .file (lib.openFile self.path)
  | .symlink targetBytes => .symlink targetBytes
  | .directory => .unreachable

namespace FilesystemEntryFuture

/-- `Future::poll`. -/
def poll (self : FilesystemEntryFuture lib) (ctx : lib.Context) :
    PollResult (FilesystemError lib) (FilesystemEntryReader lib) × FilesystemEntryFuture lib :=
  match self with
  | .file fileFuture =>
    match lib.poll fileFuture ctx with
    | (.ok innerReader, fileFuture) => (.ok (.file innerReader), .file fileFuture)
    | (.err e, fileFuture) => (.err (.inl e), .file fileFuture)
    | (.pending, fileFuture) => (.pending, .file fileFuture)
  | .symlink targetBytes => (.ok (.symlink targetBytes ⟨0⟩), .symlink targetBytes)
  | .unreachable => (.pending, .unreachable)

end FilesystemEntryFuture

namespace FilesystemEntryReader

/-- `AsyncRead::poll_read`. -/
def pollRead (self : FilesystemEntryReader lib) (ctx : lib.Context) (buf : ReadBuf) :
    PollResult (FilesystemError lib) (Filling buf.remaining) × FilesystemEntryReader lib :=
  match self with
  | .file inner =>
    match lib.pollRead inner ctx buf with
    | (.ok bytes, inner) => (.ok bytes, .file inner)
    | (.err e, inner) => (.err (.inl e), .file inner)
    | (.pending, inner) => (.pending, .file inner)
  | .symlink targetBytes cursor =>
    let bytes := cursor.readable targetBytes.1 buf.remaining
    (.ok bytes, .symlink targetBytes ⟨cursor.position + bytes.1.length⟩)

/-- `AsyncSeek::start_seek`. -/
def startSeek (self : FilesystemEntryReader lib) (position : SeekFrom) :
    Except (FilesystemError lib) Unit × FilesystemEntryReader lib :=
  match self with
  | .file inner =>
    match lib.startSeek inner position with
    | (.ok (), inner) => (.ok (), .file inner)
    | (.error e, inner) => (.error (.inl e), .file inner)
  | .symlink targetBytes cursor =>
    match cursor.target targetBytes.1.length position with
    | some position => (.ok (), .symlink targetBytes ⟨position⟩)
    | none => (.error (.inr .invalidInput), .symlink targetBytes cursor)

/-- `AsyncSeek::poll_complete`. -/
def pollComplete (self : FilesystemEntryReader lib) (ctx : lib.Context) :
    PollResult (FilesystemError lib) Nat × FilesystemEntryReader lib :=
  match self with
  | .file inner =>
    match lib.pollComplete inner ctx with
    | (.ok position, inner) => (.ok position, .file inner)
    | (.err e, inner) => (.err (.inl e), .file inner)
    | (.pending, inner) => (.pending, .file inner)
  | .symlink targetBytes cursor => (.ok cursor.position, .symlink targetBytes cursor)

end FilesystemEntryReader

variable (lib)

/-- `EntryData for FilesystemEntry`. -/
abbrev filesystemEntry : EntryData where
  Data := FilesystemEntry
  Reader := FilesystemEntryReader lib
  Future := FilesystemEntryFuture lib
  Context := lib.Context
  Error := FilesystemError lib
  getReader entry := entry.getReader
  size entry := entry.size
  size_lt entry := entry.size_lt
  poll future ctx := future.poll ctx
  pollRead reader _ ctx buf := reader.pollRead ctx buf
  startSeek reader _ position := reader.startSeek position
  pollSeekComplete reader _ ctx := reader.pollComplete ctx

end Reading

/-! ### Entry names -/

/-- `str::trim_matches('/')`. -/
def trimSlashes (name : Name) : Name :=
  (name.dropWhile (· = slash)).rdropWhile (· = slash)

/-- `sanitize_entry_name_slashes`. -/
def sanitizeEntryNameSlashes (entryName : Name) (isDirectory : Bool) : Name :=
  let entryName := entryName.rdropWhile (· = slash)
  if isDirectory then entryName ++ [slash] else entryName

/-- `make_entry_name`; a root name ends with a slash. -/
def makeEntryName (path root : UnixPath) (rootName : Option Name) (isDirectory : Bool) :
    Exec Name := do
  let rootPrefix ←
    match rootName with
    | some rootPrefix => do
      assert (rootPrefix.getLast? = some slash)
      .ok rootPrefix
    | none => .ok []
  match path.stripPrefix root with
  -- the `expect` on the prefix
  | none => .error .unreachable
  | some stripped =>
    let path := Utf8.fromUtf8Lossy stripped
    assert (path.getLast? ≠ some slash)
    assert (path ≠ [])
    let trailingSlash := if isDirectory then [slash] else []
    .ok (rootPrefix ++ path ++ trailingSlash)

/-! ### Adding one object -/

/-- `AddFilesystemEntryError`. -/
inductive AddFilesystemEntryError (Io : Type) where
  | addEntryError (e : AddEntryError)
  | ioError (e : Io)

/-- `Builder::add_filesystem_entry`, with what it leaves behind `&mut self`. -/
def Builder.addFilesystemEntry {lib : TokioFile} {Io : Type} (fs : FileSystem Io)
    (self : Builder (filesystemEntry lib)) (name : Name) (path : UnixPath)
    (metadata : FileMetadata) :
    Exec (Except (AddFilesystemEntryError Io) Unit × Builder (filesystemEntry lib)) :=
  match FilesystemEntry.withMetadata fs path metadata with
  | .error e => .ok (.error (.ioError e), self)
  | .ok fsEntry => do
    let name := sanitizeEntryNameSlashes name (fsEntry.entryType = .directory)
    match ← self.addEntryMut name fsEntry with
    | (.error e, self) => .ok (.error (.addEntryError e), self)
    | (.ok (), self) =>
      .ok (.ok (), { self with
        entries := self.entries.adjust name (·.metadata metadata.toMetadata) })

/-! ### Adding a directory -/

/-- `AddDirectoryRecursiveError`. -/
inductive AddDirectoryRecursiveError (Io : Type) where
  | notADirectory (path : UnixPath) (metadata : FileMetadata)
  | addEntryError (e : AddEntryError)
  | ioError (e : Io)

section Adding
variable {lib : TokioFile} {Io : Type}

/-- An `async fn` on a builder, polled to its end. -/
abbrev Adding (lib : TokioFile) (Io α : Type) :=
  Async (AddDirectoryRecursiveError Io) (Builder (filesystemEntry lib)) α

/-- `?` on the answer of the file system. -/
def io {α : Type} (answer : Except Io α) : Adding lib Io α :=
  match answer with
  | .ok a => pure a
  | .error e => throw (.ioError e)

/-- `add_entry(..)?`, and setters on the entry added. -/
def addEntryWith (name : Name) (data : FilesystemEntry) (setters : List Setter) :
    Adding lib Io Unit := do
  let b ← get
  match ← lift (b.addEntry name data) with
  | .error e => throw (.addEntryError e)
  | .ok b' => modify fun _ =>
      { b' with entries := b'.entries.adjust name fun entry => setters.foldl BuilderEntry.set entry }

/-- The inner loop of `add_directory_recursive`, over the entries of `parent`.  The top of the
    stack comes first. -/
def addDirEntries (fs : FileSystem Io) (directory : UnixPath) (rootName : Option Name)
    (parent : UnixPath) : (stack : List UnixPath) → List (Except Io (DirEntry Io)) →
    Adding lib Io (List UnixPath)
  | stack, [] => pure stack
  | stack, next :: dir => do
    let dirEntry ← io next
    let path := parent.join dirEntry.fileName
    let metadata ← io dirEntry.metadata
    -- a symlink to a directory is no directory here, so it is not followed
    let stack := if metadata.isDir then path :: stack else stack
    let entryName ← lift (makeEntryName path directory rootName metadata.isDir)
    let zipEntry ← io (FilesystemEntry.withMetadata fs path metadata)
    addEntryWith entryName zipEntry [.metadata metadata.toMetadata]
    addDirEntries fs directory rootName parent stack dir

/-- The outer loop of `add_directory_recursive`. -/
def walk (fs : FileSystem Io) (directory : UnixPath) (rootName : Option Name) :
    (fuel : Nat) → (stack : List UnixPath) → Adding lib Io Unit
  | 0, _ => fault .outOfFuel
  | _ + 1, [] => pure ()
  | fuel + 1, path :: stack => do
    let dir ← io (fs.readDir path)
    -- the directories found go on top: what is below them comes first
    let stack ← addDirEntries fs directory rootName path stack dir
    walk fs directory rootName fuel stack

/-- `Builder::add_directory_recursive`. -/
def addDirectoryRecursive (fs : FileSystem Io) (directory : UnixPath) (rootName : Option Name)
    (fuel : Nat) : Adding lib Io Unit := do
  let directoryMetadata ← io (fs.symlinkMetadata directory)
  if directoryMetadata.isDir = false then
    throw (.notADirectory directory directoryMetadata)
  else
    let rootName := rootName.map fun rootName => trimSlashes rootName ++ [slash]
    walk fs directory rootName fuel [directory]
    match rootName with
    | some rootName => do
      let rootEntry ← io (FilesystemEntry.withMetadata fs directory directoryMetadata)
      -- `directory()` is redundant behind `metadata(..)`
      addEntryWith rootName rootEntry [.metadata directoryMetadata.toMetadata, .directory]
    | none => pure ()

end Adding

end Zippity
