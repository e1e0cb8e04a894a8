import Zippity.Builder
import Zippity.Reader.RunSpec

/-! # What the builder builds

    The cached total of a reached builder is the sum of what its entries take in
    the archive, so `build` cannot overflow; and the entries it hands to the
    reader are laid out as those of an `Archive`.
-/

namespace Zippity

open Framework
open Exec (u64Bound addU64 addU64_eq ok_bind)

section Model
variable {E : EntryData} {H : Crc32Fast}

/-! ### Reached builders -/

/-- What an entry takes in the archive: its headers, its name twice, and its data. -/
def entryWeight (name : Name) (entry : BuilderEntry E) : Nat :=
  156 + 2 * name.length + E.size entry.data

/-- What entries take together. -/
def entriesWeight (entries : List (Name × BuilderEntry E)) : Nat :=
  (entries.map fun (name, entry) => entryWeight name entry).sum

/-- The invariant of a builder: names are short, and the cached total is exact and fits `u64`. -/
structure Builder.Consistent (b : Builder E) : Prop where
  names : ∀ name entry, (name, entry) ∈ b.entries.entries → name.length < 65536
  total : b.totalSize = entriesWeight b.entries.entries + 98
  fits : b.totalSize < u64Bound

/-- No setter changes the data or the time converter. -/
theorem BuilderEntry.frame_set (entry : BuilderEntry E) (setter : Setter) :
    (entry.set setter).data = entry.data ∧
      (entry.set setter).timeConverter = entry.timeConverter := by
  have hfields : ∀ (entry : BuilderEntry E) fields,
      ((entry.datetimeFields fields).getD entry).data = entry.data ∧
        ((entry.datetimeFields fields).getD entry).timeConverter = entry.timeConverter := by
    intro entry fields
    unfold BuilderEntry.datetimeFields
    cases fields.pack <;> exact ⟨rfl, rfl⟩
  have hsystem : ∀ (entry : BuilderEntry E) time,
      ((entry.datetimeSystem time).getD entry).data = entry.data ∧
        ((entry.datetimeSystem time).getD entry).timeConverter = entry.timeConverter := by
    intro entry time
    unfold BuilderEntry.datetimeSystem
    cases hconverter : entry.timeConverter with
    | none => exact ⟨rfl, hconverter⟩
    | some converter =>
      obtain ⟨hdata, hsame⟩ := hfields entry (converter time)
      exact ⟨hdata, hsame.trans hconverter⟩
  cases setter with
  | datetimeFields fields => exact hfields entry fields
  | datetimeSystem time => exact hsystem entry time
  | datetimeSystemOrDefault time => exact hsystem entry time
  | datetime datetime => exact hfields entry datetime
  | datetimeOrDefault datetime => exact hfields entry datetime
  | metadata metadata =>
    simp only [BuilderEntry.set, BuilderEntry.metadata]
    -- the type and the permissions are set first
    generalize htyped : (if metadata.isDir then entry.directory
      else if metadata.isSymlink then entry.symlink else entry.file) = typed
    have htype : typed.data = entry.data ∧ typed.timeConverter = entry.timeConverter := by
      rw [← htyped]
      split
      · exact ⟨rfl, rfl⟩
      · split <;> exact ⟨rfl, rfl⟩
    cases metadata.modified with
    | none => exact htype
    | some modified =>
      obtain ⟨hdata, hconverter⟩ := hsystem (typed.setPermissions metadata.mode) modified
      exact ⟨hdata.trans htype.1, hconverter.trans htype.2⟩
  | _ => exact ⟨rfl, rfl⟩

@[simp] theorem BuilderEntry.data_set (entry : BuilderEntry E) (setter : Setter) :
    (entry.set setter).data = entry.data :=
  (entry.frame_set setter).1

@[simp] theorem BuilderEntry.timeConverter_set (entry : BuilderEntry E) (setter : Setter) :
    (entry.set setter).timeConverter = entry.timeConverter :=
  (entry.frame_set setter).2

theorem entriesWeight_adjust (b : Builder E) (name : Name) (setter : Setter) :
    entriesWeight (b.entries.adjust name (·.set setter)).entries =
      entriesWeight b.entries.entries := by
  unfold entriesWeight IndexMap.adjust
  rw [List.map_map]
  congr 1
  apply List.map_congr_left
  rintro ⟨name', entry⟩ _
  simp only [Function.comp, entryWeight]
  split <;> simp

theorem Builder.new_eq :
    (Builder.new : Exec (Builder E)) = .ok ⟨.empty, none, 98⟩ := by
  unfold Builder.new
  rw [eocdSize_eq]
  rfl

/-- What a successful `add_entry` does. -/
theorem Builder.addEntry_ok {b b' : Builder E} {name : Name} {data : E.Data}
    (h : b.addEntry name data = .ok (.ok b')) :
    name.length < 65536 ∧
      b'.entries.entries = b.entries.entries ++ [(name, .new data b.timeConverter)] ∧
      b'.totalSize = entryWeight name (.new data b.timeConverter) + b.totalSize ∧
      b'.totalSize < u64Bound := by
  unfold Builder.addEntry at h
  by_cases hname : name.length ≥ 65536
  · rw [if_pos hname] at h
    cases h
  · have hshort : name.length < 65536 := by omega
    rw [if_neg hname, localHeaderSize_eq hshort, ok_bind, cdHeaderSize_eq hshort, ok_bind,
      addU64_eq (by simp only [u64Bound]; omega), ok_bind] at h
    -- of the checks only the last leads to a success
    by_cases hvacant : name ∉ b.entries.keys
    · rw [dif_pos hvacant] at h
      cases hsum : (checkedAdd (82 + name.length + (74 + name.length)) (E.size data)).bind
          (checkedAdd · b.totalSize) with
      | none => rw [hsum] at h; cases h
      | some size =>
        rw [hsum] at h
        simp only [Except.ok.injEq] at h
        subst h
        obtain ⟨s, hs, hsize⟩ := Option.bind_eq_some_iff.mp hsum
        simp only [checkedAdd] at hs hsize
        split at hs
        · cases hs
          split at hsize
          · next hfit =>
            cases hsize
            refine ⟨hshort, rfl, ?_, hfit⟩
            show 82 + name.length + (74 + name.length) + E.size data + b.totalSize =
              156 + 2 * name.length + E.size data + b.totalSize
            omega
          · cases hsize
        · cases hs
    · rw [dif_neg hvacant] at h
      cases h

/-- **Every reached builder is consistent.** -/
theorem Builder.Reached.consistent {b : Builder E} (h : b.Reached) : b.Consistent := by
  obtain ⟨b₀, calls, hinit, hrun⟩ := h
  -- by induction on the calls; only `add_entry` changes what the entries take
  refine hrun.invariant (fun _ b => b.Consistent) ?_ ?_
  · have hnew : b₀ = ⟨.empty, none, 98⟩ := by
      have : (.ok b₀ : Exec (Builder E)) = .ok ⟨.empty, none, 98⟩ := hinit.symm.trans Builder.new_eq
      exact Except.ok.inj this
    subst hnew
    refine ⟨fun _ _ h => by simp at h, rfl, ?_⟩
    show 98 < u64Bound
    decide
  · intro _ b call b' hb hstep
    cases call with
    | addEntry name data =>
      rcases hstep with hok | ⟨_, rfl⟩
      · obtain ⟨hname, hentries, htotal, hfits⟩ := Builder.addEntry_ok hok
        refine ⟨fun name' entry' hmem => ?_, ?_, hfits⟩
        · rw [hentries] at hmem
          rcases List.mem_append.mp hmem with hold | hnew
          · exact hb.names name' entry' hold
          · cases List.mem_singleton.mp hnew
            exact hname
        · rw [htotal, hentries, hb.total]
          simp only [entriesWeight, List.map_append, List.sum_append, List.map_cons, List.map_nil,
            List.sum_cons, List.sum_nil]
          omega
      · exact hb
    | set name setter =>
      subst hstep
      refine ⟨?_, ?_, hb.fits⟩
      · exact IndexMap.forall_adjust (P := fun (name : Name) _ => name.length < 65536) hb.names
          (fun _ _ h => h)
      · rw [entriesWeight_adjust]
        exact hb.total
    | systemTimeConverter converter =>
      subst hstep
      exact ⟨hb.names, hb.total, hb.fits⟩

/-! ### The built reader -/

/-- The reader entry that `build` makes of a builder entry. -/
structure BuiltFrom (source : Name × BuilderEntry E) (entry : ReaderEntry E) : Prop where
  name : entry.name = source.1
  data : entry.data = source.2.data
  crc32 : entry.crc32 = source.2.crc32
  datetime : entry.datetime = source.2.datetime.getD .default
  externalAttributes :
    entry.externalAttributes = getExternalAttributes source.2.fileType source.2.permissions
  size : entry.size = E.size source.2.data

/-- The member that an entry of a fresh reader stands for, with the content of its data. -/
def ReaderEntry.member (H : Crc32Fast) (content : E.Data → List UInt8) (entry : ReaderEntry E) :
    Member where
  name := entry.name
  datetime := entry.datetime
  externalAttributes := entry.externalAttributes
  offset := entry.offset
  size := entry.size
  data := content entry.data
  crc := entry.crc32.getD (H.hash (if entry.size = 0 then [] else content entry.data))

/-- The members of a fresh reader, with the contents of its entries. -/
abbrev Reader.members (r : Reader E H) (content : E.Data → List UInt8) : List Member :=
  r.entries.map (ReaderEntry.member H content)

/-- The loop of `build`. -/
theorem buildEntries_spec (content : E.Data → List UInt8) (sources : List (Name × BuilderEntry E))
    (offset cdSize : Nat) (hnames : ∀ source ∈ sources, source.1.length < 65536)
    (hfits : offset + cdSize + entriesWeight sources < u64Bound) :
    ∃ entries, Builder.buildEntries sources offset cdSize =
        .ok (entries, offset + extents (entries.map (ReaderEntry.member H content)),
          cdSize + centralSizes (entries.map (ReaderEntry.member H content))) ∧
      List.Forall₂ BuiltFrom sources entries ∧
      (∀ i entry, entries[i]? = some entry →
        entry.offset = offset + extents ((entries.map (ReaderEntry.member H content)).take i)) ∧
      extents (entries.map (ReaderEntry.member H content)) +
        centralSizes (entries.map (ReaderEntry.member H content)) = entriesWeight sources := by
  -- each entry begins where those before it end
  induction sources generalizing offset cdSize with
  | nil => exact ⟨[], rfl, .nil, by simp, rfl⟩
  | cons source sources ih =>
    obtain ⟨name, entry⟩ := source
    have hname : name.length < 65536 := hnames (name, entry) (by simp)
    have hweight : entriesWeight ((name, entry) :: sources) =
        156 + 2 * name.length + E.size entry.data + entriesWeight sources := by
      simp [entriesWeight, entryWeight]
    rw [hweight] at hfits ⊢
    obtain ⟨entries, hbuild, hfrom, hoffsets, htotal⟩ :=
      ih (offset + (82 + name.length + E.size entry.data)) (cdSize + (74 + name.length))
        (fun source hs => hnames source (by simp [hs])) (by omega)
    let readerEntry : ReaderEntry E := {
      name := name
      data := entry.data
      offset := offset
      crc32 := entry.crc32
      datetime := entry.datetime.getD .default
      externalAttributes := getExternalAttributes entry.fileType entry.permissions
      size := E.size entry.data }
    have hextent :
        (readerEntry.member H content).extent = 82 + name.length + E.size entry.data := by
      simp only [Member.extent, Member.localSize, Member.descriptorSize, ReaderEntry.member,
        readerEntry]
      omega
    have hcentral : (readerEntry.member H content).centralSize = 74 + name.length := rfl
    refine ⟨readerEntry :: entries, ?_, .cons ⟨rfl, rfl, rfl, rfl, rfl, rfl⟩ hfrom, ?_, ?_⟩
    · unfold Builder.buildEntries
      simp only [localHeaderSize_eq hname, cdHeaderSize_eq hname, ok_bind]
      rw [addU64_eq (by omega), ok_bind, addU64_eq (by omega), ok_bind, addU64_eq (by omega),
        ok_bind, hbuild, ok_bind, List.map_cons, extents_cons, centralSizes_cons, hextent, hcentral,
        Nat.add_assoc offset, Nat.add_assoc cdSize]
    · intro i e he
      cases i with
      | zero =>
        cases he
        rfl
      | succ i =>
        rw [hoffsets i e he, List.map_cons, List.take_succ_cons, extents_cons, hextent]
        omega
    · rw [List.map_cons, extents_cons, centralSizes_cons, hextent, hcentral]
      omega

/-- What `build` makes of a builder: a fresh reader over an archive. -/
structure Built (content : E.Data → List UInt8) (b : Builder E) (r : Reader E H) (a : Archive) :
    Prop where
  reader : r = .new (layoutSizes a.members) r.entries
  members : a.members = r.members content
  sources : List.Forall₂ BuiltFrom b.entries.entries r.entries
  size : (layoutSizes a.members).totalSize = b.size
  names : (r.entries.map ReaderEntry.name).Nodup

/-- The names of the entries are those of their sources. -/
theorem map_name_eq {sources : List (Name × BuilderEntry E)} {entries : List (ReaderEntry E)}
    (h : List.Forall₂ BuiltFrom sources entries) :
    entries.map ReaderEntry.name = sources.map Prod.fst := by
  induction h with
  | nil => rfl
  | cons hfrom _ ih => rw [List.map_cons, List.map_cons, hfrom.name, ih]

/-- **`build` succeeds**, and lays the entries out as an archive of the cached total. -/
theorem Builder.Consistent.build {b : Builder E} (h : b.Consistent)
    (content : E.Data → List UInt8) :
    ∃ (r : Reader E H) (a : Archive), b.build = .ok r ∧ Built content b r a := by
  have htotal := h.total
  have hfits := h.fits
  obtain ⟨entries, hbuild, hfrom, hoffsets, hweight⟩ :=
    buildEntries_spec (H := H) content b.entries.entries 0 0
      (fun source hs => h.names source.1 source.2 hs) (by omega)
  simp only [Nat.zero_add] at hbuild hoffsets
  -- the archive of the entries, with the proofs that its layout is sound
  let a : Archive := {
    members := entries.map (ReaderEntry.member H content)
    offsets := by
      intro i m hm
      rw [List.getElem?_map] at hm
      obtain ⟨entry, hentry, rfl⟩ := Option.map_eq_some_iff.mp hm
      exact hoffsets i entry hentry
    names := by
      intro m hm
      obtain ⟨entry, hentry, rfl⟩ := List.mem_map.mp hm
      have hname : entry.name ∈ b.entries.entries.map Prod.fst :=
        map_name_eq hfrom ▸ List.mem_map_of_mem hentry
      obtain ⟨⟨name, source⟩, hmem, heq⟩ := List.mem_map.mp hname
      show entry.name.length < 65536
      rw [← heq]
      exact h.names name source hmem
    fits := by
      simp only [layoutSizes]
      omega }
  refine ⟨.new (layoutSizes a.members) entries, a, ?_, rfl, rfl, hfrom, ?_, ?_⟩
  · unfold Builder.build
    rw [hbuild, ok_bind]
    dsimp only
    rw [addU64_eq (by omega), ok_bind, eocdSize_eq, ok_bind, addU64_eq (by omega)]
    rfl
  · show extents (entries.map (ReaderEntry.member H content)) +
      centralSizes (entries.map (ReaderEntry.member H content)) + 98 = b.totalSize
    omega
  · show (entries.map ReaderEntry.name).Nodup
    rw [map_name_eq hfrom]
    exact b.entries.nodup

/-- The reader that was built, for contents to be filled in. -/
theorem Builder.Reached.built {b : Builder E} (h : b.Reached) (content : E.Data → List UInt8)
    {r : Reader E H} (hbuild : b.build = .ok r) : ∃ a, Built content b r a := by
  obtain ⟨r', a, hbuild', hbuilt⟩ := h.consistent.build (H := H) content
  rw [hbuild] at hbuild'
  cases hbuild'
  exact ⟨a, hbuilt⟩

/-! ### What the caller put in -/

section Input
variable (b : Builder E) (content : E.Data → List UInt8)

/-- Every entry delivers its content; opening and reading it fail only if `mayFail`. -/
def Builder.Delivering (mayFail : Prop) : Prop :=
  ∀ name entry, (name, entry) ∈ b.entries.entries →
    Delivers E mayFail entry.data (content entry.data)

/-- Every entry has the size it reports. -/
def Builder.HonestSizes : Prop :=
  ∀ name entry, (name, entry) ∈ b.entries.entries →
    (content entry.data).length = E.size entry.data

/-- Every supplied CRC is that of the content. -/
def Builder.RightCrcs (H : Crc32Fast) : Prop :=
  ∀ name entry, (name, entry) ∈ b.entries.entries → ∀ crc, entry.crc32 = some crc →
    crc = H.hash (content entry.data)

end Input

/-! ### A fresh reader in its stream -/

section Start
variable {mayFail : Prop} {content : E.Data → List UInt8} {b : Builder E} {r : Reader E H}
  {a : Archive}

/-- A fresh entry represents its member. -/
theorem ReaderEntry.represents {entry : ReaderEntry E}
    (h : Delivers E mayFail entry.data (content entry.data)) :
    Represents H mayFail entry (entry.member H content) where
  toDescribes := ⟨rfl, rfl, rfl, rfl, rfl⟩
  delivers := h
  crc crc hcrc := by simp [ReaderEntry.member, hcrc]
  computed hcrc := by simp [ReaderEntry.member, hcrc]

theorem Built.listed (h : Built content b r a) : Listed a.members r.entries where
  length := by rw [h.members, List.length_map]
  describes i entry m hentry hm := by
    rw [h.members, List.getElem?_map, hentry] at hm
    cases hm
    exact ⟨rfl, rfl, rfl, rfl, rfl⟩

/-- Every entry of the reader comes from one of the builder. -/
theorem Built.source (h : Built content b r a) {entry : ReaderEntry E}
    (hentry : entry ∈ r.entries) :
    ∃ name source, (name, source) ∈ b.entries.entries ∧ BuiltFrom (name, source) entry := by
  obtain ⟨i, hi, rfl⟩ := List.getElem_of_mem hentry
  have hlen := h.sources.length_eq
  have hfrom := (List.forall₂_iff_get.mp h.sources).2 i (by omega) hi
  exact ⟨_, _, List.getElem_mem (by omega), hfrom⟩

/-- Every entry of the builder has one of the reader. -/
theorem Built.entry (h : Built content b r a) {name : Name} {source : BuilderEntry E}
    (hsource : (name, source) ∈ b.entries.entries) :
    ∃ entry ∈ r.entries, BuiltFrom (name, source) entry := by
  obtain ⟨i, hi, heq⟩ := List.getElem_of_mem hsource
  have hlen := h.sources.length_eq
  have hfrom := (List.forall₂_iff_get.mp h.sources).2 i hi (by omega)
  rw [List.get_eq_getElem, heq] at hfrom
  exact ⟨_, List.getElem_mem (by omega), hfrom⟩

theorem Built.stocked (h : Built content b r a) (hdeliver : b.Delivering content mayFail) :
    Stocked H mayFail a.members r.entries where
  length := h.listed.length
  represents i entry m hentry hm := by
    rw [h.members, List.getElem?_map, hentry] at hm
    cases hm
    obtain ⟨name, source, hsource, hfrom⟩ := h.source (List.mem_of_getElem? hentry)
    refine ReaderEntry.represents ?_
    rw [hfrom.data]
    exact hdeliver name source hsource

/-- The reader that is built stands at the start of its stream. -/
theorem Built.start (h : Built content b r a) (hdeliver : b.Delivering content mayFail) :
    ReaderAt mayFail a r (tailAt (segments H a.members) 0) := by
  rw [h.reader]
  exact .new (h.stocked hdeliver)

/-- Members with one name are one. -/
theorem Built.member_eq (h : Built content b r a) {m m' : Member} (hm : m ∈ a.members)
    (hm' : m' ∈ a.members) (hname : m.name = m'.name) : m = m' := by
  have hnames : (a.members.map Member.name).Nodup := by
    rw [h.members, List.map_map]
    exact h.names
  exact List.inj_on_of_nodup_map hnames hm hm' hname

/-- With honest sizes the archive is honest. -/
theorem Built.honest (h : Built content b r a) (hhonest : b.HonestSizes content) : a.Honest := by
  intro m hm
  rw [h.members] at hm
  obtain ⟨entry, hentry, rfl⟩ := List.mem_map.mp hm
  obtain ⟨name, source, hsource, hfrom⟩ := h.source hentry
  show (content entry.data).length = entry.size
  rw [hfrom.data, hfrom.size]
  exact hhonest name source hsource

/-- What the archive carries as the CRC of an entry with its announced size. -/
theorem BuiltFrom.member_crc {name : Name} {source : BuilderEntry E} {entry : ReaderEntry E}
    (h : BuiltFrom (name, source) entry)
    (hhonest : (content source.data).length = E.size source.data) :
    (entry.member H content).crc = source.crc32.getD (H.hash (content source.data)) := by
  have hhashed : (if entry.size = 0 then [] else content entry.data) = content source.data := by
    rw [h.data]
    by_cases hsize : entry.size = 0
    · rw [if_pos hsize]
      rw [h.size] at hsize
      exact (List.length_eq_zero_iff.mp (hhonest.trans hsize)).symm
    · rw [if_neg hsize]
  show entry.crc32.getD _ = _
  rw [hhashed, h.crc32]

/-- With honest sizes the supplied CRCs are right if and only if the archive carries right ones. -/
theorem Built.rightCrcs_iff (h : Built content b r a) (hhonest : b.HonestSizes content) :
    b.RightCrcs content H ↔ ∀ m ∈ a.members, m.crc = H.hash m.data := by
  rw [h.members]
  constructor
  · intro hcrcs m hm
    obtain ⟨entry, hentry, rfl⟩ := List.mem_map.mp hm
    obtain ⟨name, source, hsource, hfrom⟩ := h.source hentry
    rw [hfrom.member_crc (hhonest name source hsource)]
    show _ = H.hash (content entry.data)
    rw [hfrom.data]
    cases hcrc : source.crc32 with
    | none => rfl
    | some crc => exact hcrcs name source hsource crc hcrc
  · intro hright name source hsource crc hcrc
    obtain ⟨entry, hentry, hfrom⟩ := h.entry hsource
    have hm := hright _ (List.mem_map_of_mem hentry)
    rw [hfrom.member_crc (hhonest name source hsource), hcrc] at hm
    rw [← show entry.data = source.data from hfrom.data]
    exact hm

/-- With honest sizes and right CRCs the archive is sound. -/
theorem Built.sound (h : Built content b r a) (hhonest : b.HonestSizes content)
    (hcrcs : b.RightCrcs content H) : ∀ m ∈ a.members, m.Sound H :=
  fun m hm => ⟨h.honest hhonest m hm, (h.rightCrcs_iff hhonest).mp hcrcs m hm⟩

end Start

end Model

end Zippity
