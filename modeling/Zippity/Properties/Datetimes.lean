import Zippity.Datetime
import Zippity.Session

/-! # Dates of entries

    Packing a date is exact.  The setters that fall back to the default leave
    what an earlier call has set, and the default is no date at all: both words
    are zero, month and day too.
-/

namespace Zippity

open Framework
open Exec (ok_bind)

/-! ### Packing -/

/-- The packed form of a date: no field loses a bit or overlaps another, and all are read back. -/
structure Packs (fields : DatetimeFields) (dt : DosDatetime) : Prop where
  date : dt.date.toNat =
    (fields.year.toInt - 1980).toNat * 2 ^ 9 + fields.month.toNat * 2 ^ 5 + fields.day.toNat
  time : dt.time.toNat =
    fields.hour.toNat * 2 ^ 11 + fields.minute.toNat * 2 ^ 5 + fields.second.toNat / 2
  year : dt.year = fields.year
  month : dt.month = fields.month
  day : dt.day = fields.day
  hour : dt.hour = fields.hour
  minute : dt.minute = fields.minute
  /-- Rounded down to even. -/
  second : dt.second.toNat = fields.second.toNat / 2 * 2

theorem DatetimeFields.isSome_pack {fields : DatetimeFields} :
    fields.pack.isSome ↔ fields.Representable := by
  rw [fields.pack_eq]
  split <;> simp [*]

theorem DatetimeFields.packs {fields : DatetimeFields} {dt : DosDatetime}
    (h : fields.pack = some dt) : Packs fields dt := by
  obtain ⟨hrep, htime, hdate⟩ := pack_eq_some_iff.mp h
  -- the accessors read the fields of the words
  obtain ⟨hyear, hmonth, hday⟩ := read_dateFields hdate
  obtain ⟨hhour, hminute, hsecond⟩ := read_timeFields htime
  refine ⟨?_, ?_, Int32.toInt_inj.mp hyear, UInt32.toNat_inj.mp hmonth, UInt32.toNat_inj.mp hday,
    UInt32.toNat_inj.mp hhour, UInt32.toNat_inj.mp hminute, hsecond⟩
  · simp only [hdate, dateFields, BitField.word, BitField.totalWidth_cons, BitField.totalWidth_nil,
      Nat.mul_one, Nat.pow_zero, Nat.add_zero]
    omega
  · simp only [htime, timeFields, BitField.word, BitField.totalWidth_cons, BitField.totalWidth_nil,
      Nat.mul_one, Nat.pow_zero, Nat.add_zero]
    omega

/-- **Packing is exact.**  `DosDatetime::new` answers for the dates that can be stored and no
    others, its words are made of the fields and give them back, and they are in the order of what
    is stored. -/
theorem new_exact (fields : DatetimeFields) :
    (fields.pack.isSome ↔ fields.Representable) ∧
    ∀ dt, fields.pack = some dt → Packs fields dt ∧
      ∀ (fields' : DatetimeFields) dt', fields'.pack = some dt' →
        ([dt.date, dt.time] < [dt'.date, dt'.time] ↔ fields.parts < fields'.parts) ∧
        (dt = dt' ↔ fields.parts = fields'.parts) := by
  refine ⟨?_, fun dt h => ⟨DatetimeFields.packs h, fun fields' dt' h' => ⟨?_, ?_⟩⟩⟩
  · exact DatetimeFields.isSome_pack
  · exact DatetimeFields.words_lt_words_iff h h'
  · exact DatetimeFields.words_eq_words_iff h h'

theorem new_exact_leap_day :
    ∃ dt, DatetimeFields.pack ⟨2024, 2, 29, 12, 34, 57⟩ = some dt ∧ dt.second = 56 ∧
      Packs ⟨2024, 2, 29, 12, 34, 57⟩ dt :=
  ⟨⟨25692, 22621⟩, by decide, by decide, ((new_exact ⟨2024, 2, 29, 12, 34, 57⟩).2 _ (by decide)).1⟩

section Model
variable {E : EntryData} {H : Crc32Fast}

/-! ### The setters that fall back to the default -/

/-- The date of the entry with a time, if it has a converter. -/
def BuilderEntry.converted (entry : BuilderEntry E) (time : SystemTime) : Option DatetimeFields :=
  entry.timeConverter.map (· time)

/-- Where the result of `datetime_fields` is ignored, an earlier date stays. -/
theorem BuilderEntry.getD_datetimeFields (entry : BuilderEntry E) (fields : DatetimeFields) :
    ((entry.datetimeFields fields).getD entry).datetime = fields.pack.or entry.datetime := by
  unfold BuilderEntry.datetimeFields
  cases fields.pack <;> rfl

/-- And so it does where the result of `datetime_system` is. -/
theorem BuilderEntry.getD_datetimeSystem (entry : BuilderEntry E) (time : SystemTime) :
    ((entry.datetimeSystem time).getD entry).datetime =
      ((entry.converted time).bind DatetimeFields.pack).or entry.datetime := by
  unfold BuilderEntry.datetimeSystem BuilderEntry.converted
  cases entry.timeConverter with
  | none => rfl
  | some converter => exact entry.getD_datetimeFields (converter time)

/-- `metadata` sets the type and the permissions, and the date as `datetime_system_or_default`. -/
theorem BuilderEntry.datetime_metadata (entry : BuilderEntry E) (metadata : Metadata) :
    (entry.metadata metadata).datetime =
      match metadata.modified with
      | some modified => ((entry.converted modified).bind DatetimeFields.pack).or entry.datetime
      | none => entry.datetime := by
  unfold BuilderEntry.metadata
  generalize htyped : (if metadata.isDir then entry.directory
    else if metadata.isSymlink then entry.symlink else entry.file) = typed
  have hsame : typed.datetime = entry.datetime ∧ typed.timeConverter = entry.timeConverter := by
    rw [← htyped]
    split
    · exact ⟨rfl, rfl⟩
    · split <;> exact ⟨rfl, rfl⟩
  cases metadata.modified with
  | none => exact hsame.1
  | some modified =>
    have hsystem := (typed.setPermissions metadata.mode).getD_datetimeSystem modified
    have hconverted : (typed.setPermissions metadata.mode).converted modified =
        entry.converted modified := by
      show typed.converted modified = _
      rw [BuilderEntry.converted, hsame.2, BuilderEntry.converted]
    rw [hconverted, show (typed.setPermissions metadata.mode).datetime = _ from hsame.1] at hsystem
    exact hsystem

theorem isSome_bind_pack {fields : Option DatetimeFields} :
    (fields.bind DatetimeFields.pack).isSome ↔ ∃ f ∈ fields, f.Representable := by
  cases fields with
  | none => simp
  | some f => simp [DatetimeFields.isSome_pack]

/-- Falling back to an earlier value is falling back to none only if there is none. -/
theorem or_eq_left_iff {α : Type} {new old : Option α} :
    new.or old = new ↔ old = none ∨ new.isSome := by
  cases new <;> simp

/-- What the documentation says that `datetime_system_or_default` leaves: what
    `datetime_fields_or_default` does with the converted fields, and the default without them. -/
def BuilderEntry.documentedSystem (entry : BuilderEntry E) (time : SystemTime) :
    Option DosDatetime :=
  match entry.timeConverter with
  | some converter => (entry.datetimeFieldsOrDefault (converter time)).datetime
  | none => none

/-- **The two setters that ignore a failure keep an earlier date.**  They leave what their
    documentation says, which for a date that cannot be stored is the default, exactly when there
    is no earlier date or the new one can be stored. -/
theorem or_default_eq_iff (entry : BuilderEntry E) (time : SystemTime) (date : NaiveDateTime) :
    ((entry.datetimeSystemOrDefault time).datetime = entry.documentedSystem time ∧
        ((∀ converter ∈ entry.timeConverter, ¬ (converter time).Representable) →
          (entry.datetimeSystemOrDefault time).datetime = none) ↔
      entry.datetime = none ∨
        ∃ converter ∈ entry.timeConverter, (converter time).Representable) ∧
    ((entry.datetimeOrDefault date).datetime = (entry.datetimeFieldsOrDefault date).datetime ∧
        (¬ date.Representable → (entry.datetimeOrDefault date).datetime = none) ↔
      entry.datetime = none ∨ date.Representable) := by
  constructor
  · have hdocumented : entry.documentedSystem time =
        (entry.converted time).bind DatetimeFields.pack := by
      unfold BuilderEntry.documentedSystem BuilderEntry.converted
      cases entry.timeConverter <;> rfl
    have hsome : (∃ fields ∈ entry.converted time, fields.Representable) ↔
        ∃ converter ∈ entry.timeConverter, (converter time).Representable := by
      simp [BuilderEntry.converted]
    have hleft : (entry.datetimeSystemOrDefault time).datetime = _ := entry.getD_datetimeSystem time
    -- the second half of the property follows from the first, so the condition decides both
    rw [hdocumented, hleft, or_eq_left_iff, isSome_bind_pack, hsome, and_iff_left_iff_imp]
    intro hearlier hunstorable
    have hnone : ¬ ∃ converter ∈ entry.timeConverter, (converter time).Representable :=
      fun ⟨converter, hmem, hrep⟩ => hunstorable converter hmem hrep
    rw [hearlier.resolve_right hnone, Option.or_none]
    rw [← hsome, ← isSome_bind_pack, Option.not_isSome_iff_eq_none] at hnone
    exact hnone
  · have hleft : (entry.datetimeOrDefault date).datetime = _ := entry.getD_datetimeFields date
    have hfields : (entry.datetimeFieldsOrDefault date).datetime = date.pack := rfl
    rw [hleft, hfields, or_eq_left_iff, DatetimeFields.isSome_pack, and_iff_left_iff_imp]
    intro hearlier hrep
    rw [hearlier.resolve_right hrep, Option.or_none]
    rw [← DatetimeFields.isSome_pack, Option.not_isSome_iff_eq_none] at hrep
    exact hrep

end Model

/-- An entry with a date of 2020 and a converter that gives 1970. -/
def datedEntry : BuilderEntry steady :=
  BuilderEntry.datetimeFieldsOrDefault (.new (.reporting [] 0) (some fun _ => ⟨1970, 1, 1, 0, 0, 0⟩))
    ⟨2020, 1, 1, 0, 0, 0⟩

/-- Both setters leave 2020, where `datetime_fields_or_default` resets the entry. -/
theorem or_default_keeps_2020 :
    (datedEntry.datetimeSystemOrDefault ⟨0, 0⟩).datetime = some ⟨0, 20513⟩ ∧
      datedEntry.documentedSystem ⟨0, 0⟩ = none ∧
      (datedEntry.datetimeOrDefault ⟨1970, 1, 1, 0, 0, 0⟩).datetime = some ⟨0, 20513⟩ ∧
      (datedEntry.datetimeFieldsOrDefault ⟨1970, 1, 1, 0, 0, 0⟩).datetime = none := by
  decide

section Model
variable {E : EntryData} {H : Crc32Fast}

/-! ### The date in force -/

/-- A date that was given, if the format can store it. -/
def storable (given : Option DatetimeFields) : Option DatetimeFields :=
  given.filter (decide ·.Representable)

theorem mem_storable {given : Option DatetimeFields} {fields : DatetimeFields} :
    fields ∈ storable given ↔ given = some fields ∧ fields.Representable := by
  simp [storable, Option.filter_eq_some_iff]

/-- The date in force after a call of a setter as the documentation of the setters has it, from
    the one before it: `datetime_fields`, `datetime_system` and `datetime` keep it when they fail,
    the others of their kind and `metadata` reset it. -/
def Setter.inForce (converter : Option TimeConverter) (date : Option DatetimeFields) :
    Setter → Option DatetimeFields
  | .datetimeFields fields => (storable (some fields)).or date
  | .datetimeFieldsOrDefault fields => storable (some fields)
  | .datetimeSystem time => (storable (converter.map (· time))).or date
  | .datetimeSystemOrDefault time => storable (converter.map (· time))
  | .datetime fields => (storable (some fields)).or date
  | .datetimeOrDefault fields => storable (some fields)
  | .metadata data =>
    match data.modified with
    | some modified => storable (converter.map (· modified))
    | none => date
  | _ => date

/-- The date in force on the entry with a name after some calls, from the one before them. -/
def dateInForce (converter : Option TimeConverter) (name : Name) (date : Option DatetimeFields)
    (calls : List (BuilderCall E)) : Option DatetimeFields :=
  calls.foldl (fun date call =>
    match call with
    | .set name' setter => if name' = name then setter.inForce converter date else date
    | _ => date) date

/-- The date that was given last and could be stored, after a call of a setter, from the one before
    it.  Only `datetime_fields_or_default` forgets it when it fails. -/
def Setter.lastStored (converter : Option TimeConverter) (date : Option DatetimeFields) :
    Setter → Option DatetimeFields
  | .datetimeFields fields => (storable (some fields)).or date
  | .datetimeFieldsOrDefault fields => storable (some fields)
  | .datetimeSystem time => (storable (converter.map (· time))).or date
  | .datetimeSystemOrDefault time => (storable (converter.map (· time))).or date
  | .datetime fields => (storable (some fields)).or date
  | .datetimeOrDefault fields => (storable (some fields)).or date
  | .metadata data =>
    match data.modified with
    | some modified => (storable (converter.map (· modified))).or date
    | none => date
  | _ => date

/-- The date that was last given to the entry with a name and could be stored. -/
def lastStored (converter : Option TimeConverter) (name : Name) (date : Option DatetimeFields)
    (calls : List (BuilderCall E)) : Option DatetimeFields :=
  calls.foldl (fun date call =>
    match call with
    | .set name' setter => if name' = name then setter.lastStored converter date else date
    | _ => date) date

/-- What the word of an entry has to do with the calls: it is the date that was last stored, and the
    date in force is that one, if there is one. -/
structure KeepsDate (date stored : Option DatetimeFields) (datetime : Option DosDatetime) : Prop where
  inForce : ∀ fields ∈ date, stored = some fields
  representable : ∀ fields ∈ stored, fields.Representable
  datetime : datetime = stored.bind DatetimeFields.pack

section KeepsDate
variable {date stored : Option DatetimeFields} {datetime : Option DosDatetime}

theorem KeepsDate.nothing : KeepsDate none none none where
  inForce := by simp
  representable := by simp
  datetime := rfl

/-- No date is in force, whatever the entry keeps. -/
theorem KeepsDate.reset (h : KeepsDate date stored datetime) : KeepsDate none stored datetime where
  inForce := by simp
  representable := h.representable
  datetime := h.datetime

/-- A date is given, and takes effect if it can be stored. -/
theorem KeepsDate.given (h : KeepsDate date stored datetime) (given : Option DatetimeFields) :
    KeepsDate ((storable given).or date) ((storable given).or stored)
      ((given.bind DatetimeFields.pack).or datetime) := by
  cases given with
  | none => exact h
  | some fields =>
    rw [Option.bind_some]
    -- a date that cannot be stored changes nothing
    by_cases hrep : fields.Representable
    · obtain ⟨dt, hpack⟩ := Option.isSome_iff_exists.mp (DatetimeFields.isSome_pack.mpr hrep)
      have hstorable : storable (some fields) = some fields := mem_storable.mpr ⟨rfl, hrep⟩
      rw [hpack, hstorable]
      refine ⟨fun _ hmem => hmem, ?_, hpack.symm⟩
      intro fields' hmem
      cases hmem
      exact hrep
    · have hstorable : storable (some fields) = none := by simp [storable, hrep]
      have hpack : fields.pack = none := by
        rwa [← DatetimeFields.isSome_pack, Option.not_isSome_iff_eq_none] at hrep
      rw [hstorable, hpack]
      exact h

/-- A call of a setter. -/
theorem KeepsDate.set {entry : BuilderEntry E} (h : KeepsDate date stored entry.datetime)
    (setter : Setter) :
    KeepsDate (setter.inForce entry.timeConverter date) (setter.lastStored entry.timeConverter stored)
      (entry.set setter).datetime := by
  have hfields := fun fields => entry.getD_datetimeFields fields ▸ h.given (some fields)
  have hsystem := fun time => entry.getD_datetimeSystem time ▸ h.given (entry.converted time)
  cases setter with
  | datetimeFields fields => exact hfields fields
  | datetimeFieldsOrDefault fields =>
    have hreset := KeepsDate.nothing.given (some fields)
    rwa [Option.or_none, Option.or_none] at hreset
  | datetimeSystem time => exact hsystem time
  | datetimeSystemOrDefault time =>
    -- no date is in force after a failure, but the entry keeps the one it has
    have hkept := h.reset.given (entry.converted time)
    rw [Option.or_none, ← entry.getD_datetimeSystem time] at hkept
    exact hkept
  | datetime fields => exact hfields fields
  | datetimeOrDefault fields =>
    have hkept := h.reset.given (some fields)
    rw [Option.or_none, Option.bind_some, ← entry.getD_datetimeFields fields] at hkept
    exact hkept
  | metadata data =>
    rw [show (entry.set (.metadata data)).datetime = _ from entry.datetime_metadata data]
    cases hmodified : data.modified with
    | none => simpa only [Setter.inForce, Setter.lastStored, hmodified] using h
    | some modified =>
      have hkept := h.reset.given (entry.converted modified)
      rw [Option.or_none] at hkept
      simpa only [Setter.inForce, Setter.lastStored, hmodified, BuilderEntry.converted] using hkept
  | _ => exact h

end KeepsDate

/-- The entry with a name along a run, and the dates of it. -/
theorem KeepsDate.run {b b' : Builder E} {calls : List (BuilderCall E)} {name : Name}
    {source : BuilderEntry E} {date stored : Option DatetimeFields}
    (hrun : builderSystem.Run b calls b') (hmem : (name, source) ∈ b.entries.entries)
    (h : KeepsDate date stored source.datetime) :
    ∃ source', (name, source') ∈ b'.entries.entries ∧
      KeepsDate (dateInForce source.timeConverter name date calls)
        (lastStored source.timeConverter name stored calls) source'.datetime := by
  -- the converter of an entry stays the one it was added with
  suffices hall : ∃ source', (name, source') ∈ b'.entries.entries ∧
      source'.timeConverter = source.timeConverter ∧
      KeepsDate (dateInForce source.timeConverter name date calls)
        (lastStored source.timeConverter name stored calls) source'.datetime by
    obtain ⟨source', hmem', _, hkeeps⟩ := hall
    exact ⟨source', hmem', hkeeps⟩
  refine hrun.invariant (fun calls b' => ∃ source', (name, source') ∈ b'.entries.entries ∧
    source'.timeConverter = source.timeConverter ∧
    KeepsDate (dateInForce source.timeConverter name date calls)
      (lastStored source.timeConverter name stored calls) source'.datetime)
      ⟨source, hmem, rfl, h⟩ ?_
  intro calls b₁ call b₂ ⟨source₁, hmem₁, hconverter, hkeeps⟩ hstep
  unfold dateInForce lastStored at hkeeps ⊢
  rw [List.foldl_append, List.foldl_append]
  cases call with
  | addEntry name' data =>
    refine ⟨source₁, ?_, hconverter, hkeeps⟩
    rcases hstep with hadd | ⟨_, rfl⟩
    · obtain ⟨_, hentries, _⟩ := Builder.addEntry_ok hadd
      rw [hentries]
      exact List.mem_append_left _ hmem₁
    · exact hmem₁
  | set name' setter =>
    subst hstep
    refine ⟨_, IndexMap.mem_adjust hmem₁, ?_⟩
    -- a setter on another entry leaves this one
    by_cases hname : name = name'
    · simp only [List.foldl_cons, List.foldl_nil, if_pos hname, if_pos hname.symm]
      rw [BuilderEntry.timeConverter_set]
      exact ⟨hconverter, hconverter ▸ hkeeps.set setter⟩
    · simp only [List.foldl_cons, List.foldl_nil, if_neg hname, if_neg (Ne.symm hname)]
      exact ⟨hconverter, hkeeps⟩
  | systemTimeConverter converter =>
    subst hstep
    exact ⟨source₁, hmem₁, hconverter, hkeeps⟩

/-! ### The word of an entry -/

/-- A date that exists, with an even second. -/
def DosDatetime.Real (dt : DosDatetime) : Prop :=
  (1 ≤ dt.month.toNat ∧ dt.month.toNat ≤ 12) ∧ (1 ≤ dt.day.toNat ∧ dt.day.toNat ≤ 31) ∧
    dt.hour.toNat ≤ 23 ∧ dt.minute.toNat ≤ 59 ∧ dt.second.toNat ≤ 58

/-- 1980-01-01T00:00:00. -/
def DosDatetime.IsDefault (dt : DosDatetime) : Prop :=
  dt.year = 1980 ∧ dt.month = 1 ∧ dt.day = 1 ∧ dt.hour = 0 ∧ dt.minute = 0 ∧ dt.second = 0

/-- Both headers of an entry carry a word, whatever part of them is staged. -/
structure HeadersCarry (entry : ReaderEntry E) (dt : DosDatetime) : Prop where
  localHeader : ∀ (rs : ReadState) (output : ReadBuf), rs.stagingBuffer = [] →
    rs.chunkProcessedSize = 0 → rs.toSkip = 0 →
    ∃ rs' output' appended, rs.readLocalHeader entry output = .ok (rs', output') ∧
      output.Extends appended output' ∧
      ((appended ++ rs'.stagingBuffer.drop rs'.toSkip).drop 10).take 4 = pack dt
  centralHeader : ∀ (crc32 : UInt32) (rs : ReadState) (output : ReadBuf), rs.stagingBuffer = [] →
    rs.chunkProcessedSize = 0 → rs.toSkip = 0 →
    ∃ rs' output' appended, rs.putCdFileHeader entry crc32 output = .ok (rs', output') ∧
      output.Extends appended output' ∧
      ((appended ++ rs'.stagingBuffer.drop rs'.toSkip).drop 12).take 4 = pack dt

/-- The date in a local header, whatever follows the fixed part. -/
theorem take_drop_localFileHeader (dt : DosDatetime) (nameLen : UInt16) (rest : List UInt8) :
    ((pack (localFileHeader dt nameLen) ++ rest).drop 10).take 4 = pack dt := by
  simp only [localFileHeader, pack, PackedStruct.pack, List.append_assoc]
  rfl

/-- The date in a central directory header. -/
theorem take_drop_centralDirectoryHeader (dt : DosDatetime) (crc32 : UInt32) (nameLen : UInt16)
    (externalAttributes : UInt32) (rest : List UInt8) :
    ((pack (centralDirectoryHeader dt crc32 nameLen externalAttributes) ++ rest).drop 12).take 4 =
      pack dt := by
  simp only [centralDirectoryHeader, pack, PackedStruct.pack, List.append_assoc]
  rfl

/-- A header that is written from its start on is appended or staged. -/
theorem writePieces_from_start {rs : ReadState} (output : ReadBuf) (pieces : List (List UInt8))
    (hlen : pieces.flatten.length < 2 ^ 63) (hempty : rs.stagingBuffer = [])
    (hprocessed : rs.chunkProcessedSize = 0) (hskip : rs.toSkip = 0) :
    ∃ rs' output' appended, writePieces rs output pieces = .ok (rs', output') ∧
      output.Extends appended output' ∧
      appended ++ rs'.stagingBuffer.drop rs'.toSkip = pieces.flatten := by
  obtain ⟨rs', output', appended, heq, hwritten⟩ := exists_written output hlen hempty hprocessed
  have hbytes := hwritten.bytes
  rw [hskip, List.drop_zero] at hbytes
  exact ⟨rs', output', appended, heq, hwritten.output, hbytes⟩

theorem headersCarry {entry : ReaderEntry E} (hname : entry.name.length < 65536) :
    HeadersCarry entry entry.datetime where
  localHeader rs output hempty hprocessed hskip := by
    obtain ⟨rs', output', appended, heq, hextends, hbytes⟩ := writePieces_from_start output
      [pack (localFileHeader entry.datetime (UInt16.ofNat entry.name.length)), entry.name,
        pack (zip64ExtraField 0 entry.offset)] (by simp; omega) hempty hprocessed hskip
    refine ⟨rs', output', appended, (readLocalHeader_eq hname).trans heq, hextends, ?_⟩
    rw [hbytes, List.flatten_cons, take_drop_localFileHeader]
  centralHeader crc32 rs output hempty hprocessed hskip := by
    obtain ⟨rs', output', appended, heq, hextends, hbytes⟩ := writePieces_from_start output
      [pack (centralDirectoryHeader entry.datetime crc32 (UInt16.ofNat entry.name.length)
          entry.externalAttributes), entry.name, pack (zip64ExtraField entry.size entry.offset)]
      (by simp; omega) hempty hprocessed hskip
    refine ⟨rs', output', appended, (putCdFileHeader_eq hname).trans heq, hextends, ?_⟩
    rw [hbytes, List.flatten_cons, take_drop_centralDirectoryHeader]

/-- What is packed is a date that exists. -/
theorem Packs.real {fields : DatetimeFields} {dt : DosDatetime} (h : Packs fields dt)
    (hrep : fields.Representable) : dt.Real := by
  obtain ⟨_, hmonth, hday, hhour, hminute, hsecond⟩ := hrep
  have hsecond' := h.second
  refine ⟨?_, ?_, ?_, ?_, ?_⟩
  · rwa [h.month]
  · rwa [h.day]
  · rwa [h.hour]
  · rwa [h.minute]
  · omega

/-- The default, as it may be given to a setter. -/
def DatetimeFields.default : DatetimeFields := ⟨1980, 1, 1, 0, 0, 0⟩

/-- What is packed is the default if the fields are, down to even seconds. -/
theorem Packs.isDefault_iff {fields : DatetimeFields} {dt : DosDatetime} (h : Packs fields dt)
    (hpack : fields.pack = some dt) :
    dt.IsDefault ↔ fields.parts = DatetimeFields.default.parts := by
  have hdefault : DatetimeFields.default.pack = some ⟨0, 33⟩ := by decide
  rw [← DatetimeFields.words_eq_words_iff hpack hdefault]
  constructor
  · rintro ⟨hyear, hmonth, hday, hhour, hminute, hsecond⟩
    have hdate : dt.date.toNat = 33 := by
      rw [h.date, ← h.year, ← h.month, ← h.day, hyear, hmonth, hday]
      rfl
    have htime : dt.time.toNat = 0 := by
      -- the second is rounded down, so only its half is known
      have hsecond' := h.second
      rw [hsecond, UInt32.toNat_zero] at hsecond'
      rw [h.time, ← h.hour, ← h.minute, hhour, hminute, UInt32.toNat_zero]
      omega
    obtain ⟨time, date⟩ := dt
    exact congrArg₂ DosDatetime.mk (UInt16.toNat_inj.mp htime) (UInt16.toNat_inj.mp hdate)
  · rintro rfl
    exact ⟨by decide, by decide, by decide, by decide, by decide, by decide⟩

/-- The word that `build` falls back to is no date: its month and day are zero. -/
theorem DosDatetime.not_real_default : ¬ DosDatetime.default.Real := by
  intro h
  exact absurd h.1.1 (by decide)

/-- What `build` places in an entry is as documented if a date is in force, or if the date that was
    last stored is the default itself. -/
theorem KeepsDate.real_iff {date stored : Option DatetimeFields} {datetime : Option DosDatetime}
    (h : KeepsDate date stored datetime) :
    (datetime.getD .default).Real ∧ (date = none → (datetime.getD .default).IsDefault) ↔
      date ≠ none ∨ ∃ fields ∈ stored, fields.parts = DatetimeFields.default.parts := by
  have hdatetime := h.datetime
  cases stored with
  | none =>
    -- a date in force would have been stored
    have hdate : date = none := by
      cases date with
      | none => rfl
      | some fields => cases h.inForce fields rfl
    subst hdatetime
    simp [hdate, DosDatetime.not_real_default]
  | some fields =>
    have hrep := h.representable fields rfl
    obtain ⟨dt, hpack⟩ := Option.isSome_iff_exists.mp (DatetimeFields.isSome_pack.mpr hrep)
    have hpacks := DatetimeFields.packs hpack
    rw [Option.bind_some, hpack] at hdatetime
    subst hdatetime
    rw [Option.getD_some, hpacks.isDefault_iff hpack, and_iff_right (hpacks.real hrep),
      imp_iff_not_or]
    simp

/-- **The fallback of `build` is no date.**  The word that `build` places in an entry, and that
    both its headers carry, is a date that exists, and is the documented default where no date is
    in force, exactly when a date is in force or the date that was last stored is that default. -/
theorem built_date_iff {b b₁ b' : Builder E} {name : Name} {data : E.Data}
    {calls : List (BuilderCall E)} {r : Reader E H} (hb : b.Reached)
    (hadd : b.addEntry name data = .ok (.ok b₁)) (hrun : builderSystem.Run b₁ calls b')
    (hbuild : b'.build = .ok r) :
    ∃ source entry, (name, source) ∈ b'.entries.entries ∧ entry ∈ r.entries ∧
      entry.name = name ∧ HeadersCarry entry entry.datetime ∧
      (entry.datetime.Real ∧
          (dateInForce b.timeConverter name none calls = none → entry.datetime.IsDefault) ↔
        dateInForce b.timeConverter name none calls ≠ none ∨
          ∃ fields ∈ lastStored b.timeConverter name none calls,
            fields.parts = DatetimeFields.default.parts) := by
  have hstep : builderSystem.step b (.addEntry name data) b₁ := .inl hadd
  have hreached : b'.Reached := hb.run (hrun.cons hstep)
  obtain ⟨_, hentries, _⟩ := Builder.addEntry_ok hadd
  -- the entry begins without a date
  have hadded : (name, .new data b.timeConverter) ∈ b₁.entries.entries := by
    rw [hentries]
    exact List.mem_append_right _ (List.mem_singleton_self _)
  obtain ⟨source, hmem, hkeeps⟩ := KeepsDate.run hrun hadded .nothing
  obtain ⟨a, hbuilt⟩ := hreached.built (fun _ => []) hbuild
  obtain ⟨entry, hentry, hfrom⟩ := hbuilt.entry hmem
  have hname : entry.name.length < 65536 := by
    rw [hfrom.name]
    exact hreached.consistent.names name source hmem
  refine ⟨source, entry, hmem, hentry, hfrom.name, headersCarry hname, ?_⟩
  rw [hfrom.datetime]
  exact hkeeps.real_iff

end Model

/-- A builder with one entry and no call of a setter. -/
theorem undated_entry :
    ∃ (b b₁ : Builder steady) (r : Reader steady crc32Ieee), b.Reached ∧
      b.addEntry [0x61] (.honest [1, 2, 3]) = .ok (.ok b₁) ∧ b₁.build = .ok r ∧
      dateInForce (E := steady) b.timeConverter [0x61] none [] = none ∧
      r.entries.map (fun entry => (entry.datetime.month, entry.datetime.day)) = [(0, 0)] ∧
      ∀ entry ∈ r.entries, ¬ entry.datetime.Real ∧ ¬ entry.datetime.IsDefault := by
  refine ⟨⟨.empty, none, 98⟩, _, _, ⟨_, [], Builder.new_eq, .nil⟩, rfl, rfl, rfl, by decide, ?_⟩
  intro entry hentry
  obtain rfl := List.mem_singleton.mp hentry
  exact ⟨DosDatetime.not_real_default, fun h => absurd h.2.1 (by decide)⟩

theorem built_date_2024 :
    ∃ (b b₁ b' : Builder steady) (r : Reader steady crc32Ieee) (entry : ReaderEntry steady),
      b.Reached ∧ b.addEntry [0x61] (.honest [1, 2, 3]) = .ok (.ok b₁) ∧ b'.build = .ok r ∧
      builderSystem.Run b₁ [.set [0x61] (.datetimeFields ⟨2024, 2, 29, 12, 34, 57⟩)] b' ∧
      entry ∈ r.entries ∧ HeadersCarry entry entry.datetime ∧ entry.datetime.Real := by
  let b : Builder steady := ⟨.empty, none, 98⟩
  have hb : b.Reached := ⟨_, [], Builder.new_eq, .nil⟩
  obtain ⟨b₁, hadd⟩ : ∃ b₁, b.addEntry [0x61] (.honest [1, 2, 3]) = .ok (.ok b₁) := ⟨_, rfl⟩
  let set : BuilderCall steady := .set [0x61] (.datetimeFields ⟨2024, 2, 29, 12, 34, 57⟩)
  obtain ⟨b', hstep⟩ : ∃ b', builderSystem.step b₁ set b' := ⟨_, rfl⟩
  have hrun : builderSystem.Run b₁ [set] b' := .snoc .nil hstep
  have hadded : builderSystem.step b (.addEntry [0x61] (.honest [1, 2, 3])) b₁ := .inl hadd
  have hreached : b'.Reached := hb.run (hrun.cons hadded)
  obtain ⟨r, a, hbuild, _⟩ := hreached.consistent.build (H := crc32Ieee) fun _ => []
  obtain ⟨source, entry, _, hentry, _, hcarry, hiff⟩ := built_date_iff hb hadd hrun hbuild
  exact ⟨b, b₁, b', r, entry, hb, hadd, hbuild, hrun, hentry, hcarry,
    (hiff.mpr (.inl (by decide))).1⟩

end Zippity
