import Zippity.BuilderSpec

/-! # Several builders and their entry maps

    `get_entries_mut` hands the entry map of a builder to the caller, who may
    edit it, and `Clone` makes a builder out of a builder.  So a caller has a
    pool of builders and moves entries in, out and between them; none of these
    edits looks at the cached total.
-/

namespace Zippity

open Framework
open Exec (u64Bound addU64_eq ok_bind)

section Model
variable {E : EntryData} {H : Crc32Fast}

/-! ### Edits of an entry map -/

/-- An edit of the map that `get_entries_mut` returns. -/
inductive EntriesEdit (E : EntryData) where
  | swapRemove (name : Name)
  | shiftRemove (name : Name)
  | clear
  /-- An entry the caller holds, as a clone of one in the pool. -/
  | insert (name : Name) (entry : BuilderEntry E)
  /-- Assign a whole map, which covers what else a caller does to it. -/
  | replace (entries : IndexMap Name (BuilderEntry E))

/-- The map after an edit. -/
def EntriesEdit.apply (entries : IndexMap Name (BuilderEntry E)) :
    EntriesEdit E → IndexMap Name (BuilderEntry E)
  | .swapRemove name => entries.swapRemove name
  | .shiftRemove name => entries.shiftRemove name
  | .clear => .empty
  | .insert name entry => entries.insert name entry
  | .replace entries => entries

/-- `Builder::get_entries_mut`, with what is assigned through the reference. -/
def Builder.getEntriesMut (self : Builder E) (entries : IndexMap Name (BuilderEntry E)) :
    Builder E :=
  { self with entries }

/-! ### Pools -/

/-- An operation on the builders of a pool. -/
inductive BuilderPoolOp (E : EntryData) where
  /-- `Builder::new`; the builder joins the pool. -/
  | new
  /-- `clone` of a builder; the clone joins the pool. -/
  | clone (i : Nat)
  | call (i : Nat) (call : BuilderCall E)
  /-- An edit of the map of a builder. -/
  | edit (i : Nat) (edit : EntriesEdit E)
  /-- `std::mem::swap` of the maps of two builders. -/
  | swap (i j : Nat)

/-- Pools of builders as a transition system, from no builders on. -/
def builderPoolSystem : System (List (Builder E)) (BuilderPoolOp E) where
  init pool := pool = []
  step pool op pool' :=
    match op with
    | .new => ∃ b, Builder.new = .ok b ∧ pool' = pool ++ [b]
    | .clone i => ∃ b, pool[i]? = some b ∧ pool' = pool ++ [b]
    | .call i call =>
      ∃ b b', pool[i]? = some b ∧ builderSystem.step b call b' ∧ pool' = pool.set i b'
    | .edit i edit => ∃ b, pool[i]? = some b ∧
      pool' = pool.set i (b.getEntriesMut (edit.apply b.entries))
    | .swap i j => ∃ b c, i ≠ j ∧ pool[i]? = some b ∧ pool[j]? = some c ∧
      pool' = (pool.set i (b.getEntriesMut c.entries)).set j (c.getEntriesMut b.entries)

/-- A call leads to one builder. -/
theorem builderSystem_deterministic {b b₁ b₂ : Builder E} {call : BuilderCall E}
    (h₁ : builderSystem.step b call b₁) (h₂ : builderSystem.step b call b₂) : b₁ = b₂ := by
  cases call with
  | addEntry name data =>
    rcases h₁ with hok₁ | ⟨⟨e₁, herr₁⟩, rfl⟩
    · rcases h₂ with hok₂ | ⟨⟨e₂, herr₂⟩, _⟩
      · rw [hok₁] at hok₂
        cases hok₂
        rfl
      · rw [hok₁] at herr₂
        cases herr₂
    · rcases h₂ with hok₂ | ⟨_, rfl⟩
      · rw [herr₁] at hok₂
        cases hok₂
      · rfl
  | set name setter => exact h₁.trans h₂.symm
  | systemTimeConverter converter => exact h₁.trans h₂.symm

/-- An operation leads to one pool. -/
theorem builderPoolSystem_deterministic {pool pool₁ pool₂ : List (Builder E)}
    {op : BuilderPoolOp E} (h₁ : builderPoolSystem.step pool op pool₁)
    (h₂ : builderPoolSystem.step pool op pool₂) : pool₁ = pool₂ := by
  cases op with
  | new =>
    obtain ⟨b₁, hnew₁, rfl⟩ := h₁
    obtain ⟨b₂, hnew₂, rfl⟩ := h₂
    rw [hnew₁] at hnew₂
    cases hnew₂
    rfl
  | clone i =>
    obtain ⟨b₁, hb₁, rfl⟩ := h₁
    obtain ⟨b₂, hb₂, rfl⟩ := h₂
    rw [hb₁] at hb₂
    cases hb₂
    rfl
  | call i call =>
    obtain ⟨b₁, b₁', hb₁, hcall₁, rfl⟩ := h₁
    obtain ⟨b₂, b₂', hb₂, hcall₂, rfl⟩ := h₂
    rw [hb₁] at hb₂
    cases hb₂
    rw [builderSystem_deterministic hcall₁ hcall₂]
  | edit i edit =>
    obtain ⟨b₁, hb₁, rfl⟩ := h₁
    obtain ⟨b₂, hb₂, rfl⟩ := h₂
    rw [hb₁] at hb₂
    cases hb₂
    rfl
  | swap i j =>
    obtain ⟨b₁, c₁, _, hb₁, hc₁, rfl⟩ := h₁
    obtain ⟨b₂, c₂, _, hb₂, hc₂, rfl⟩ := h₂
    rw [hb₁] at hb₂
    rw [hc₁] at hc₂
    cases hb₂
    cases hc₂
    rfl

/-! ### What the entries of a map take -/

/-- The weights depend on the entries only, not on their order. -/
theorem entriesWeight_perm {l₁ l₂ : List (Name × BuilderEntry E)} (h : l₁.Perm l₂) :
    entriesWeight l₁ = entriesWeight l₂ :=
  (h.map _).sum_eq

@[simp] theorem entriesWeight_cons (name : Name) (entry : BuilderEntry E)
    (rest : List (Name × BuilderEntry E)) :
    entriesWeight ((name, entry) :: rest) = entryWeight name entry + entriesWeight rest := rfl

theorem entriesWeight_append (l₁ l₂ : List (Name × BuilderEntry E)) :
    entriesWeight (l₁ ++ l₂) = entriesWeight l₁ + entriesWeight l₂ := by
  simp [entriesWeight]

/-- Every entry has headers, so no entry weighs nothing. -/
theorem entryWeight_pos (name : Name) (entry : BuilderEntry E) : 0 < entryWeight name entry := by
  unfold entryWeight
  omega

/-- An edit leaves what the entries take together as it was: what it removes was not there, and
    what it inserts replaces an entry with data of the same size. -/
def EntriesEdit.Balanced (entries : IndexMap Name (BuilderEntry E)) : EntriesEdit E → Prop
  | .swapRemove name => name ∉ entries.keys
  | .shiftRemove name => name ∉ entries.keys
  | .clear => entries.entries = []
  | .insert name entry => ∃ old, (name, old) ∈ entries.entries ∧ E.size old.data = E.size entry.data
  | .replace entries' => entriesWeight entries'.entries = entriesWeight entries.entries

/-- A removal keeps the total weight if and only if there is nothing to remove. -/
theorem vacant_iff_weight {entries removed : IndexMap Name (BuilderEntry E)} {name : Name}
    (hsame : name ∉ entries.keys → removed.entries = entries.entries)
    (hperm : ∀ entry, (name, entry) ∈ entries.entries →
      entries.entries.Perm ((name, entry) :: removed.entries)) :
    name ∉ entries.keys ↔ entriesWeight removed.entries = entriesWeight entries.entries := by
  constructor
  · intro hvacant
    rw [hsame hvacant]
  · intro hweight hmem
    obtain ⟨entry, hentry⟩ := IndexMap.mem_keys_iff.mp hmem
    -- what is removed weighs something
    have hremoved := entriesWeight_perm (hperm entry hentry)
    have hpos := entryWeight_pos name entry
    rw [entriesWeight_cons] at hremoved
    omega

/-- **An edit keeps the total weight if and only if it is balanced.** -/
theorem EntriesEdit.balanced_iff {entries : IndexMap Name (BuilderEntry E)}
    {edit : EntriesEdit E} :
    edit.Balanced entries ↔
      entriesWeight (edit.apply entries).entries = entriesWeight entries.entries := by
  cases edit with
  | swapRemove name =>
    exact vacant_iff_weight IndexMap.swapRemove_of_not_mem fun _ h => IndexMap.perm_swapRemove h
  | shiftRemove name =>
    exact vacant_iff_weight IndexMap.shiftRemove_of_not_mem fun _ h => IndexMap.perm_shiftRemove h
  | clear =>
    constructor
    · intro hnil
      show entriesWeight [] = _
      rw [show entries.entries = [] from hnil]
    · intro hweight
      show entries.entries = []
      cases hentries : entries.entries with
      | nil => rfl
      | cons entry rest =>
        have hpos := entryWeight_pos entry.1 entry.2
        rw [hentries, entriesWeight_cons] at hweight
        have hzero : entriesWeight (EntriesEdit.apply entries .clear).entries = 0 := rfl
        omega
  | insert name entry =>
    constructor
    · rintro ⟨old, hold, hsize⟩
      have hbefore := entriesWeight_perm (IndexMap.perm_shiftRemove hold)
      have hafter := entriesWeight_perm (IndexMap.perm_insert hold entry)
      rw [entriesWeight_cons] at hbefore hafter
      simp only [EntriesEdit.apply, hbefore, hafter, entryWeight, hsize]
    · intro hweight
      by_cases hmem : name ∈ entries.keys
      · obtain ⟨old, hold⟩ := IndexMap.mem_keys_iff.mp hmem
        have hbefore := entriesWeight_perm (IndexMap.perm_shiftRemove hold)
        have hafter := entriesWeight_perm (IndexMap.perm_insert hold entry)
        rw [entriesWeight_cons] at hbefore hafter
        simp only [EntriesEdit.apply, hbefore, hafter, entryWeight] at hweight
        exact ⟨old, hold, by omega⟩
      · -- a new name adds at least its headers
        have hpos := entryWeight_pos name entry
        simp only [EntriesEdit.apply, IndexMap.insert_of_not_mem hmem, entriesWeight_append,
          entriesWeight_cons] at hweight
        omega
  | replace entries' => exact Iff.rfl

/-! ### What a build comes to -/

/-- `local_header_size` of a name of any length. -/
theorem localHeaderSize_wp (name : Name) :
    Exec.wp (fun _ => u64Bound ≤ 82 + name.length) (· = 82 + name.length)
      (localHeaderSize name) := by
  unfold localHeaderSize
  rw [packedSize_localFileHeader, packedSize_zip64ExtraField, packedSize_dataDescriptor64,
    addU64_eq (by decide), ok_bind, Exec.wp_bind]
  apply Exec.wp_addU64
  · intro hover
    omega
  · intro _
    apply Exec.wp_addU64
    · intro hover
      omega
    · intro _
      omega

/-- `cd_header_size` of a name of any length. -/
theorem cdHeaderSize_wp (name : Name) :
    Exec.wp (fun _ => u64Bound ≤ 74 + name.length) (· = 74 + name.length)
      (cdHeaderSize name) := by
  unfold cdHeaderSize
  rw [packedSize_centralDirectoryHeader, packedSize_zip64ExtraField, addU64_eq (by decide), ok_bind]
  apply Exec.wp_addU64
  · intro hover
    omega
  · intro _
    omega

/-- The loop of `build` on any entries: it stops only if they take more than `u64::MAX`. -/
theorem buildEntries_wp (sources : List (Name × BuilderEntry E)) (offset cdSize : Nat) :
    Exec.wp (fun _ => u64Bound ≤ offset + cdSize + entriesWeight sources)
      (fun (_, offset', cdSize') => offset' + cdSize' = offset + cdSize + entriesWeight sources)
      (Builder.buildEntries sources offset cdSize) := by
  induction sources generalizing offset cdSize with
  | nil => rfl
  | cons source sources ih =>
    obtain ⟨name, entry⟩ := source
    have hweight : entriesWeight ((name, entry) :: sources) =
        156 + 2 * name.length + E.size entry.data + entriesWeight sources := rfl
    rw [hweight]
    unfold Builder.buildEntries
    rw [Exec.wp_bind]
    apply Exec.wp_mono (localHeaderSize_wp name)
    · intro _ hover
      omega
    rintro _ rfl
    rw [Exec.wp_bind]
    apply Exec.wp_addU64
    · intro hover
      omega
    intro _
    rw [Exec.wp_bind]
    apply Exec.wp_addU64
    · intro hover
      omega
    intro _
    rw [Exec.wp_bind]
    apply Exec.wp_mono (cdHeaderSize_wp name)
    · intro _ hover
      omega
    rintro _ rfl
    rw [Exec.wp_bind]
    apply Exec.wp_addU64
    · intro hover
      omega
    intro _
    dsimp only
    rw [Exec.wp_bind]
    apply Exec.wp_mono (ih _ _)
    · intro _ hover
      omega
    rintro ⟨entries, offset', cdSize'⟩ hsum
    show offset' + cdSize' = _
    omega

/-- `build` on any builder: it stops only if the archive takes more than `u64::MAX`, and else
    reports what the entries take. -/
theorem Builder.build_wp (b : Builder E) :
    Exec.wp (fun _ => u64Bound ≤ entriesWeight b.entries.entries + 98)
      (fun r : Reader E H => r.size = entriesWeight b.entries.entries + 98 ∧
        entriesWeight b.entries.entries + 98 < u64Bound) b.build := by
  unfold Builder.build
  rw [Exec.wp_bind]
  apply Exec.wp_mono (buildEntries_wp b.entries.entries 0 0)
  · intro _ hover
    omega
  rintro ⟨entries, offset, cdSize⟩ hsum
  dsimp only at hsum ⊢
  rw [Exec.wp_bind]
  apply Exec.wp_addU64
  · intro hover
    omega
  intro _
  rw [eocdSize_eq, ok_bind, Exec.wp_bind]
  apply Exec.wp_addU64
  · intro hover
    omega
  intro hfits
  refine ⟨?_, by omega⟩
  show offset + cdSize + 98 = _
  omega

/-- `Builder::size` returns what `build().size()` does. -/
def Builder.SizeMatchesBuild (H : Crc32Fast) (b : Builder E) : Prop :=
  ∃ r : Reader E H, b.build = .ok r ∧ b.size = r.size

/-- The cached total is exact and fits `u64`. -/
structure Builder.Exact (b : Builder E) : Prop where
  total : b.totalSize = entriesWeight b.entries.entries + 98
  fits : b.totalSize < u64Bound

/-- **The sizes match if and only if the cached total is exact.** -/
theorem Builder.sizeMatchesBuild_iff {b : Builder E} : b.SizeMatchesBuild H ↔ b.Exact := by
  have hwp := b.build_wp (H := H)
  constructor
  · rintro ⟨r, hbuild, hsize⟩
    have ⟨hr, hfits⟩ := Exec.wp_of_eq_ok hwp hbuild
    have htotal : b.totalSize = r.size := hsize
    exact ⟨htotal.trans hr, by omega⟩
  · intro hexact
    have htotal := hexact.total
    have hfits := hexact.fits
    cases hbuild : (b.build : Exec (Reader E H)) with
    | ok r =>
      have ⟨hr, _⟩ := Exec.wp_of_eq_ok hwp hbuild
      exact ⟨r, hbuild, htotal.trans hr.symm⟩
    | error f =>
      have := Exec.wp_of_eq_error hwp hbuild
      omega

/-! ### What keeps the totals exact -/

theorem Builder.exact_new {b : Builder E} (h : Builder.new = .ok b) : b.Exact := by
  rw [Builder.new_eq] at h
  cases h
  exact ⟨rfl, by show 98 < u64Bound; decide⟩

/-- A call keeps the total exact, whatever names are in the map. -/
theorem Builder.Exact.call {b b' : Builder E} (h : b.Exact) {call : BuilderCall E}
    (hstep : builderSystem.step b call b') : b'.Exact := by
  cases call with
  | addEntry name data =>
    rcases hstep with hok | ⟨_, rfl⟩
    · obtain ⟨_, hentries, htotal, hfits⟩ := Builder.addEntry_ok hok
      refine ⟨?_, hfits⟩
      rw [htotal, hentries, h.total, entriesWeight_append, entriesWeight_cons]
      show _ = _ + (_ + 0) + 98
      omega
    · exact h
  | set name setter =>
    subst hstep
    refine ⟨?_, h.fits⟩
    rw [entriesWeight_adjust]
    exact h.total
  | systemTimeConverter converter =>
    subst hstep
    exact ⟨h.total, h.fits⟩

/-- Another map keeps the total exact if and only if it weighs the same. -/
theorem Builder.Exact.getEntriesMut_iff {b : Builder E} (h : b.Exact)
    {entries : IndexMap Name (BuilderEntry E)} :
    (b.getEntriesMut entries).Exact ↔
      entriesWeight entries.entries = entriesWeight b.entries.entries := by
  have htotal := h.total
  constructor
  · intro hexact
    have htotal' : b.totalSize = entriesWeight entries.entries + 98 := hexact.total
    omega
  · intro hweight
    refine ⟨?_, h.fits⟩
    show b.totalSize = entriesWeight entries.entries + 98
    rw [hweight, htotal]

end Model

end Zippity
