import Zippity.Framework.IndexMap
import Zippity.Framework.System
import Zippity.Reader.Reader

/-! # The builder

    `builder.rs`: entries are added with their data, their metadata is set, and
    `build` lays them out and hands them to a reader.
-/

namespace Zippity

open Framework Exec

/-! ### Metadata of an entry -/

/-- The date and time fields that the setters take. -/
structure DatetimeFields where
  year : Int32
  month : UInt32
  day : UInt32
  hour : UInt32
  minute : UInt32
  second : UInt32
  deriving DecidableEq, Repr

/-- `std::time::SystemTime`; only a time converter looks into it. -/
structure SystemTime where
  seconds : Int64
  nanoseconds : UInt32
  deriving DecidableEq, Repr

/-- `TimeConverter`. -/
abbrev TimeConverter := SystemTime → DatetimeFields

/-- `chrono::NaiveDateTime`, by the fields the builder asks it for. -/
abbrev NaiveDateTime := DatetimeFields

/-- `BuilderPermissions`. -/
inductive BuilderPermissions where
  | rw
  | ro
  | unixPermissions (permissions : UInt32)
  deriving DecidableEq, Repr

/-- `BuilderFileType`. -/
inductive BuilderFileType where
  | file
  | directory
  | symlink
  deriving DecidableEq, Repr

/-- What the builder reads of `std::fs::Metadata`. -/
structure Metadata where
  isDir : Bool
  isSymlink : Bool
  /-- `permissions().mode()`. -/
  mode : UInt32
  modified : Option SystemTime
  deriving DecidableEq, Repr

/-- `get_external_attributes`. -/
def getExternalAttributes (fileType : BuilderFileType) (permissions : BuilderPermissions) :
    UInt32 :=
  let fileTypeBits : UInt32 :=
    match fileType with
    | .file => 0o100000
    | .directory => 0o040000
    | .symlink => 0o120000
  let permBits : UInt32 :=
    -- a symlink ignores the permissions it was given
    if fileType = .symlink then 0o777
    else
      let executableBits : UInt32 :=
        match fileType with
        | .directory => 0o111
        | _ => 0
      match permissions with
      | .rw => 0o644 ||| executableBits
      | .ro => 0o444 ||| executableBits
      | .unixPermissions perms => perms &&& 0o777
  (fileTypeBits ||| permBits) <<< 16

/-- A ZIP file entry in the metadata building phase. -/
structure BuilderEntry (E : EntryData) where
  data : E.Data
  crc32 : Option UInt32
  datetime : Option DosDatetime
  fileType : BuilderFileType
  permissions : BuilderPermissions
  timeConverter : Option TimeConverter

/-- `DosDatetime::new` on the fields of a setter. -/
def DatetimeFields.pack (fields : DatetimeFields) : Option DosDatetime :=
  DosDatetime.new fields.year fields.month fields.day fields.hour fields.minute fields.second

section Model
variable {E : EntryData}

namespace BuilderEntry

/-- `BuilderEntry::new`. -/
def new (data : E.Data) (timeConverter : Option TimeConverter) : BuilderEntry E where
  data := data
  crc32 := none
  datetime := none
  fileType := .file
  permissions := .rw
  timeConverter := timeConverter

/-- `BuilderEntry::crc32`. -/
def setCrc32 (self : BuilderEntry E) (crc32 : UInt32) : BuilderEntry E :=
  { self with crc32 := some crc32 }

/-- `BuilderEntry::datetime_fields`; `none` leaves the entry as it is. -/
def datetimeFields (self : BuilderEntry E) (fields : DatetimeFields) :
    Option (BuilderEntry E) := do
  let datetime ← fields.pack
  some { self with datetime := some datetime }

/-- `BuilderEntry::datetime_fields_or_default`. -/
def datetimeFieldsOrDefault (self : BuilderEntry E) (fields : DatetimeFields) : BuilderEntry E :=
  { self with datetime := fields.pack }

/-- `BuilderEntry::datetime_system`; `none` leaves the entry as it is. -/
def datetimeSystem (self : BuilderEntry E) (time : SystemTime) : Option (BuilderEntry E) := do
  let converter ← self.timeConverter
  self.datetimeFields (converter time)

/-- `BuilderEntry::datetime_system_or_default`: the result of `datetime_system` is ignored. -/
def datetimeSystemOrDefault (self : BuilderEntry E) (time : SystemTime) : BuilderEntry E :=
  (self.datetimeSystem time).getD self

/-- `BuilderEntry::datetime`; `none` leaves the entry as it is. -/
def setDatetime (self : BuilderEntry E) (datetime : NaiveDateTime) : Option (BuilderEntry E) :=
  self.datetimeFields datetime

/-- `BuilderEntry::datetime_or_default`: the result of `datetime_fields` is ignored. -/
def datetimeOrDefault (self : BuilderEntry E) (datetime : NaiveDateTime) : BuilderEntry E :=
  (self.datetimeFields datetime).getD self

/-- `BuilderEntry::file`. -/
def file (self : BuilderEntry E) : BuilderEntry E := { self with fileType := .file }

/-- `BuilderEntry::directory`. -/
def directory (self : BuilderEntry E) : BuilderEntry E := { self with fileType := .directory }

/-- `BuilderEntry::symlink`. -/
def symlink (self : BuilderEntry E) : BuilderEntry E := { self with fileType := .symlink }

/-- `BuilderEntry::unix_permissions`. -/
def unixPermissions (self : BuilderEntry E) (permissions : UInt32) : BuilderEntry E :=
  { self with permissions := .unixPermissions (permissions &&& 0o777) }

/-- `BuilderEntry::permissions` on unix, where `std::fs::Permissions` is a mode. -/
def setPermissions (self : BuilderEntry E) (mode : UInt32) : BuilderEntry E :=
  self.unixPermissions mode

/-- `BuilderEntry::readonly`. -/
def readonly (self : BuilderEntry E) (ro : Bool) : BuilderEntry E :=
  { self with permissions := if ro then .ro else .rw }

/-- `BuilderEntry::metadata`. -/
def metadata (self : BuilderEntry E) (metadata : Metadata) : BuilderEntry E :=
  let self :=
    if metadata.isDir then self.directory
    else if metadata.isSymlink then self.symlink
    else self.file
  let self := self.setPermissions metadata.mode
  match metadata.modified with
  | some modified => self.datetimeSystemOrDefault modified
  | none => self

end BuilderEntry

/-! ### The builder -/

/-- `Builder`. -/
structure Builder (E : EntryData) where
  entries : IndexMap Name (BuilderEntry E)
  timeConverter : Option TimeConverter
  /-- Total size of the zip. -/
  totalSize : Nat

/-- `AddEntryError`. -/
inductive AddEntryError where
  | tooLongEntryName (entryName : Name)
  | tooLongZipFile (entryName : Name)
  | duplicateEntryName (entryName : Name)
  deriving DecidableEq, Repr

/-- `u64::checked_add`. -/
def checkedAdd (a b : Nat) : Option Nat :=
  if a + b < u64Bound then some (a + b) else none

namespace Builder

/-- `Builder::new`. -/
def new : Exec (Builder E) := do
  let totalSize ← eocdSize
  .ok { entries := .empty, timeConverter := none, totalSize }

/-- `Builder::add_entry`; an error leaves the builder as it is. -/
def addEntry (self : Builder E) (name : Name) (data : E.Data) :
    Exec (Except AddEntryError (Builder E)) := do
  if name.length ≥ 65536 then .ok (.error (.tooLongEntryName name))
  else
    let headersSize ← addU64 (← localHeaderSize name) (← cdHeaderSize name)
    -- the size is checked for a vacant name only
    if vacant : name ∉ self.entries.keys then
      match (checkedAdd headersSize (E.size data)).bind (checkedAdd · self.totalSize) with
      | some size =>
        .ok (.ok { self with
          entries := self.entries.insertVacant name (.new data self.timeConverter) vacant
          totalSize := size })
      | none => .ok (.error (.tooLongZipFile name))
    else .ok (.error (.duplicateEntryName name))

/-- `Builder::add_entry` with what it leaves behind `&mut self`, also after an error. -/
def addEntryMut (self : Builder E) (name : Name) (data : E.Data) :
    Exec (Except AddEntryError Unit × Builder E) := do
  if name.length ≥ 65536 then .ok (.error (.tooLongEntryName name), self)
  else
    let headersSize ← addU64 (← localHeaderSize name) (← cdHeaderSize name)
    if vacant : name ∉ self.entries.keys then
      match (checkedAdd headersSize (E.size data)).bind (checkedAdd · self.totalSize) with
      | some size =>
        -- counted before it is inserted, but both or none
        let counted := { self with totalSize := size }
        let inserted := counted.entries.insertVacant name (.new data counted.timeConverter) vacant
        .ok (.ok (), { counted with entries := inserted })
      | none => .ok (.error (.tooLongZipFile name), self)
    else .ok (.error (.duplicateEntryName name), self)

/-- `Builder::size`. -/
def size (self : Builder E) : Nat := self.totalSize

/-- `Builder::system_time_converter`, which `system_time_timezone` calls with a converter of its
    own. -/
def systemTimeConverter (self : Builder E) (converter : TimeConverter) : Builder E :=
  { self with timeConverter := some converter }

/-- The loop of `build`: the entries with their offsets, the offset behind them and the size of
    the central directory. -/
def buildEntries : List (Name × BuilderEntry E) → (offset cdSize : Nat) →
    Exec (List (ReaderEntry E) × Nat × Nat)
  | [], offset, cdSize => .ok ([], offset, cdSize)
  | (name, entry) :: rest, offset, cdSize => do
    let entryDataSize := E.size entry.data
    let offsetBeforeEntry := offset
    -- the data descriptor is a part of what `local_header_size` counts
    let offset ← addU64 offset (← addU64 (← localHeaderSize name) entryDataSize)
    let cdSize ← addU64 cdSize (← cdHeaderSize name)
    let externalAttributes := getExternalAttributes entry.fileType entry.permissions
    let readerEntry : ReaderEntry E := {
      name := name
      data := entry.data
      offset := offsetBeforeEntry
      crc32 := entry.crc32
      datetime := entry.datetime.getD .default
      externalAttributes := externalAttributes
      size := entryDataSize }
    let (entries, offset, cdSize) ← buildEntries rest offset cdSize
    .ok (readerEntry :: entries, offset, cdSize)

/-- `Builder::build`. -/
def build {H : Crc32Fast} (self : Builder E) : Exec (Reader E H) := do
  let (entries, offset, cdSize) ← buildEntries self.entries.entries 0 0
  let cdOffset := offset
  let eocdOffset ← addU64 cdOffset cdSize
  let totalSize ← addU64 eocdOffset (← eocdSize)
  .ok (.new { cdOffset, cdSize, eocdOffset, totalSize } entries)

end Builder

/-! ### The builder as a transition system -/

/-- A call of a metadata setter. -/
inductive Setter where
  | crc32 (crc32 : UInt32)
  | datetimeFields (fields : DatetimeFields)
  | datetimeFieldsOrDefault (fields : DatetimeFields)
  | datetimeSystem (time : SystemTime)
  | datetimeSystemOrDefault (time : SystemTime)
  | datetime (datetime : NaiveDateTime)
  | datetimeOrDefault (datetime : NaiveDateTime)
  | file
  | directory
  | symlink
  | unixPermissions (permissions : UInt32)
  | permissions (mode : UInt32)
  | readonly (ro : Bool)
  | metadata (metadata : Metadata)

/-- The entry after a call of a setter. -/
def BuilderEntry.set (self : BuilderEntry E) : Setter → BuilderEntry E
  | .crc32 crc32 => self.setCrc32 crc32
  | .datetimeFields fields => (self.datetimeFields fields).getD self
  | .datetimeFieldsOrDefault fields => self.datetimeFieldsOrDefault fields
  | .datetimeSystem time => (self.datetimeSystem time).getD self
  | .datetimeSystemOrDefault time => self.datetimeSystemOrDefault time
  | .datetime datetime => (self.setDatetime datetime).getD self
  | .datetimeOrDefault datetime => self.datetimeOrDefault datetime
  | .file => self.file
  | .directory => self.directory
  | .symlink => self.symlink
  | .unixPermissions permissions => self.unixPermissions permissions
  | .permissions mode => self.setPermissions mode
  | .readonly ro => self.readonly ro
  | .metadata metadata => self.metadata metadata

/-- A call on a builder. -/
inductive BuilderCall (E : EntryData) where
  | addEntry (name : Name) (data : E.Data)
  /-- A setter, called on the reference to the entry with this name. -/
  | set (name : Name) (setter : Setter)
  | systemTimeConverter (converter : TimeConverter)

/-- The builder as a transition system.  An `add_entry` that fails leaves it as it is. -/
def builderSystem : System (Builder E) (BuilderCall E) where
  init b := Builder.new = .ok b
  step b call b' :=
    match call with
    | .addEntry name data =>
      b.addEntry name data = .ok (.ok b') ∨ ((∃ e, b.addEntry name data = .ok (.error e)) ∧ b' = b)
    | .set name setter => b' = { b with entries := b.entries.adjust name (·.set setter) }
    | .systemTimeConverter converter => b' = b.systemTimeConverter converter

/-- The builders that calls lead to. -/
def Builder.Reached (b : Builder E) : Prop := builderSystem.Reachable b

end Model

end Zippity
