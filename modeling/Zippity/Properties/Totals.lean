import Zippity.BuilderPool
import Zippity.Session

/-! # The cached total of a builder

    `add_entry` checks a name, a key and a sum before it changes anything, and
    then adds exactly what the entry takes.  An edit through `get_entries_mut`
    changes the map but not the total, so `size` is right only as long as every
    edit leaves as much in the map as there was.
-/

namespace Zippity

open Framework
open Exec (u64Bound addU64_eq ok_bind)

section Model
variable {E : EntryData} {H : Crc32Fast}

/-! ### Adding an entry -/

/-- The sum that `add_entry` checks: the total so far, the headers, the name twice, the extra
    fields, the data descriptor and the data. -/
def Builder.totalWith (b : Builder E) (name : Name) (data : E.Data) : Nat :=
  b.totalSize + packedSize LocalFileHeader + packedSize CentralDirectoryHeader + 2 * name.length +
    2 * packedSize Zip64ExtraField + packedSize DataDescriptor64 + E.size data

/-- An entry adds its weight. -/
theorem Builder.totalWith_eq (b : Builder E) (name : Name) (data : E.Data) :
    b.totalWith name data = b.totalSize + entryWeight name (.new data b.timeConverter) := by
  unfold Builder.totalWith entryWeight
  rw [packedSize_localFileHeader, packedSize_centralDirectoryHeader, packedSize_zip64ExtraField,
    packedSize_dataDescriptor64]
  show _ = b.totalSize + (156 + 2 * name.length + E.size data)
  omega

/-- The two checked sums give the exact total if it fits, whichever of them may overflow. -/
theorem Builder.checked_total (b : Builder E) (name : Name) (data : E.Data) :
    (checkedAdd (82 + name.length + (74 + name.length)) (E.size data)).bind
        (checkedAdd · b.totalSize) =
      if b.totalWith name data < u64Bound then some (b.totalWith name data) else none := by
  have htotal : b.totalWith name data = b.totalSize + (156 + 2 * name.length + E.size data) :=
    b.totalWith_eq name data
  unfold checkedAdd
  by_cases hfits : b.totalWith name data < u64Bound
  · rw [if_pos (by omega), Option.bind_some, if_pos (by omega), if_pos hfits]
    congr 1
    omega
  · rw [if_neg hfits]
    split
    · rw [Option.bind_some, if_neg (by omega)]
    · rfl

/-- What an `add_entry` answers and leaves, by its checks in their order. -/
theorem Builder.addEntryMut_cases (b : Builder E) (name : Name) (data : E.Data) :
    (65535 < name.length ∧ b.addEntryMut name data = .ok (.error (.tooLongEntryName name), b)) ∨
    (name.length ≤ 65535 ∧ name ∈ b.entries.keys ∧
      b.addEntryMut name data = .ok (.error (.duplicateEntryName name), b)) ∨
    (name.length ≤ 65535 ∧ name ∉ b.entries.keys ∧ u64Bound ≤ b.totalWith name data ∧
      b.addEntryMut name data = .ok (.error (.tooLongZipFile name), b)) ∨
    (name.length ≤ 65535 ∧ b.totalWith name data < u64Bound ∧
      ∃ vacant : name ∉ b.entries.keys, b.addEntryMut name data = .ok (.ok (), {
        entries := b.entries.insertVacant name (.new data b.timeConverter) vacant
        timeConverter := b.timeConverter
        totalSize := b.totalWith name data })) := by
  unfold Builder.addEntryMut
  by_cases hname : name.length ≥ 65536
  · exact .inl ⟨hname, if_pos hname⟩
  have hshort : name.length < 65536 := by omega
  -- the headers of a short name are far below the bound
  rw [if_neg hname, localHeaderSize_eq hshort, ok_bind, cdHeaderSize_eq hshort, ok_bind,
    addU64_eq (by simp only [u64Bound]; omega), ok_bind, b.checked_total]
  by_cases hvacant : name ∉ b.entries.keys
  · rw [dif_pos hvacant]
    by_cases hfits : b.totalWith name data < u64Bound
    · rw [if_pos hfits]
      exact .inr (.inr (.inr ⟨by omega, hfits, hvacant, rfl⟩))
    · rw [if_neg hfits]
      exact .inr (.inr (.inl ⟨by omega, hvacant, by omega, rfl⟩))
  · rw [dif_neg hvacant]
    exact .inr (.inl ⟨by omega, not_not.mp hvacant, rfl⟩)

/-- **`add_entry` is exact and atomic**: on a reached builder it answers by the first check that
    fails, in the order name, duplicate, total; an error leaves the builder as it is, and a success
    appends the entry and adds exactly what it takes. -/
theorem addEntry_exact_atomic {b : Builder E} (hb : b.Reached) (name : Name) (data : E.Data) :
    ∃ answer b', b.addEntryMut name data = .ok (answer, b') ∧
      (answer = .error (.tooLongEntryName name) ↔ 65535 < name.length) ∧
      (answer = .error (.duplicateEntryName name) ↔
        name.length ≤ 65535 ∧ name ∈ b.entries.keys) ∧
      (answer = .error (.tooLongZipFile name) ↔
        name.length ≤ 65535 ∧ name ∉ b.entries.keys ∧ u64Bound ≤ b.totalWith name data) ∧
      (answer = .ok () ↔
        name.length ≤ 65535 ∧ name ∉ b.entries.keys ∧ b.totalWith name data < u64Bound) ∧
      (answer ≠ .ok () → b' = b) ∧
      (answer = .ok () →
        b'.entries.entries = b.entries.entries ++ [(name, .new data b.timeConverter)] ∧
        b'.timeConverter = b.timeConverter ∧ b'.totalSize = b.totalWith name data ∧
        b'.totalSize = entriesWeight b'.entries.entries + 98) := by
  have htotal := hb.consistent.total
  rcases b.addEntryMut_cases name data with ⟨hname, hadd⟩ | ⟨hname, hmem, hadd⟩ |
    ⟨hname, hvacant, hover, hadd⟩ | ⟨hname, hfits, hvacant, hadd⟩
  · have hnot : ¬ name.length ≤ 65535 := by omega
    exact ⟨_, _, hadd, by simp [hname, hnot]⟩
  · have hnot : ¬ 65535 < name.length := by omega
    exact ⟨_, _, hadd, by simp [hname, hnot, hmem]⟩
  · have hnot : ¬ 65535 < name.length := by omega
    exact ⟨_, _, hadd, by simp [hname, hnot, hvacant, hover]⟩
  · have hnot : ¬ 65535 < name.length := by omega
    have hover : ¬ u64Bound ≤ b.totalWith name data := by omega
    have hexact : b.totalWith name data =
        entriesWeight (b.entries.entries ++ [(name, .new data b.timeConverter)]) + 98 := by
      rw [b.totalWith_eq, htotal, entriesWeight_append, entriesWeight_cons]
      show _ = _ + (_ + 0) + 98
      omega
    refine ⟨_, _, hadd, by simp [hnot], by simp [hvacant], by simp [hover],
      by simp [hname, hvacant, hfits], by simp, fun _ => ⟨rfl, rfl, rfl, hexact⟩⟩

/-- A first entry that fits with no byte to spare. -/
theorem addEntry_exact_atomic_largest :
    ∃ b : Builder steady, b.Reached ∧
      ∃ data : steady.Data, steady.size data = 2 ^ 64 - 1 - 256 ∧
      ∃ b', b.addEntryMut [97] data = .ok (.ok (), b') ∧ b'.totalSize = 2 ^ 64 - 1 := by
  have hb : (⟨.empty, none, 98⟩ : Builder steady).Reached := ⟨_, [], Builder.new_eq, .nil⟩
  let data : steady.Data := ⟨[], 2 ^ 64 - 1 - 256, by decide⟩
  have htotal : (⟨.empty, none, 98⟩ : Builder steady).totalWith [97] data = 2 ^ 64 - 1 := by
    rw [Builder.totalWith_eq]
    show 98 + (156 + 2 * 1 + (2 ^ 64 - 1 - 256)) = 2 ^ 64 - 1
    norm_num
  obtain ⟨answer, b', hadd, _, _, _, hok, _, hdone⟩ := addEntry_exact_atomic hb [97] data
  rw [htotal] at hok hdone
  have hanswer : answer = .ok () := hok.mpr ⟨by decide, by simp [IndexMap.keys], by decide⟩
  subst hanswer
  exact ⟨_, hb, data, rfl, b', hadd, (hdone rfl).2.2.1⟩

/-- `add_entry` as a step is `add_entry` on the borrowed builder. -/
theorem Builder.addEntry_eq (b : Builder E) (name : Name) (data : E.Data) :
    b.addEntry name data = (b.addEntryMut name data).map fun (answer, left) =>
      answer.map fun _ => left := by
  unfold Builder.addEntry Builder.addEntryMut
  by_cases hname : name.length ≥ 65536
  · rw [if_pos hname, if_pos hname]
    rfl
  have hshort : name.length < 65536 := by omega
  have hheaders : 82 + name.length + (74 + name.length) < u64Bound := by
    simp only [u64Bound]
    omega
  rw [if_neg hname, if_neg hname]
  simp only [localHeaderSize_eq hshort, cdHeaderSize_eq hshort, addU64_eq hheaders, ok_bind]
  rw [b.checked_total]
  by_cases hvacant : name ∉ b.entries.keys
  · rw [dif_pos hvacant, dif_pos hvacant]
    by_cases hfits : b.totalWith name data < u64Bound
    · rw [if_pos hfits]
      rfl
    · rw [if_neg hfits]
      rfl
  · rw [dif_neg hvacant, dif_neg hvacant]
    rfl

/-- A step of `add_entry` leaves what the call leaves. -/
theorem addEntry_step_iff {b b' : Builder E} {name : Name} {data : E.Data} :
    builderSystem.step b (.addEntry name data) b' ↔
      ∃ answer, b.addEntryMut name data = .ok (answer, b') := by
  show (b.addEntry name data = .ok (.ok b') ∨
    (∃ e, b.addEntry name data = .ok (.error e)) ∧ b' = b) ↔ _
  rw [b.addEntry_eq]
  rcases b.addEntryMut_cases name data with ⟨_, hadd⟩ | ⟨_, _, hadd⟩ | ⟨_, _, _, hadd⟩ |
    ⟨_, _, _, hadd⟩
  all_goals
    rw [hadd]
    simp [Except.map, eq_comm]

/-! ### Sizes over the whole interface -/

/-- The condition on an operation: an edit is balanced, and two maps are swapped only if their
    entries take the same. -/
def BuilderPoolOp.Balanced (pool : List (Builder E)) : BuilderPoolOp E → Prop
  | .edit i change => ∀ b, pool[i]? = some b → change.Balanced b.entries
  | .swap i j => ∀ b c, pool[i]? = some b → pool[j]? = some c →
      entriesWeight b.entries.entries = entriesWeight c.entries.entries
  | _ => True

/-- An operation on exact builders leaves exact builders if and only if it is balanced. -/
theorem exact_step_iff {pool pool' : List (Builder E)} {op : BuilderPoolOp E}
    (hpool : ∀ b ∈ pool, b.Exact) (hstep : builderPoolSystem.step pool op pool') :
    (∀ b ∈ pool', b.Exact) ↔ op.Balanced pool := by
  cases op with
  | new =>
    obtain ⟨b, hnew, rfl⟩ := hstep
    refine iff_of_true ?_ trivial
    intro b' hb'
    rcases List.mem_append.mp hb' with hold | hb'
    · exact hpool b' hold
    · obtain rfl := List.mem_singleton.mp hb'
      exact Builder.exact_new hnew
  | clone i =>
    obtain ⟨b, hb, rfl⟩ := hstep
    refine iff_of_true ?_ trivial
    intro b' hb'
    rcases List.mem_append.mp hb' with hold | hb'
    · exact hpool b' hold
    · obtain rfl := List.mem_singleton.mp hb'
      exact hpool b' (List.mem_of_getElem? hb)
  | call i call =>
    obtain ⟨b, b', hb, hcall, rfl⟩ := hstep
    refine iff_of_true ?_ trivial
    intro c hc
    rcases List.mem_or_eq_of_mem_set hc with hold | rfl
    · exact hpool c hold
    · exact (hpool b (List.mem_of_getElem? hb)).call hcall
  | edit i edit =>
    obtain ⟨b, hb, rfl⟩ := hstep
    have hexact := hpool b (List.mem_of_getElem? hb)
    have hi : i < pool.length := (List.getElem?_eq_some_iff.mp hb).1
    have hkeeps : (b.getEntriesMut (edit.apply b.entries)).Exact ↔ edit.Balanced b.entries :=
      hexact.getEntriesMut_iff.trans EntriesEdit.balanced_iff.symm
    constructor
    · intro hafter b' hb'
      rw [hb] at hb'
      cases hb'
      apply hkeeps.mp
      exact hafter _ (List.mem_set hi _)
    · intro hbalanced c hc
      rcases List.mem_or_eq_of_mem_set hc with hold | rfl
      · exact hpool c hold
      · exact hkeeps.mpr (hbalanced b hb)
  | swap i j =>
    obtain ⟨b, c, hne, hb, hc, rfl⟩ := hstep
    have hexactB := hpool b (List.mem_of_getElem? hb)
    have hexactC := hpool c (List.mem_of_getElem? hc)
    have hj : j < (pool.set i (b.getEntriesMut c.entries)).length := by
      rw [List.length_set]
      exact (List.getElem?_eq_some_iff.mp hc).1
    constructor
    · intro hafter b' c' hb' hc'
      rw [hb] at hb'
      rw [hc] at hc'
      cases hb'
      cases hc'
      exact hexactC.getEntriesMut_iff.mp (hafter _ (List.mem_set hj _))
    · intro hbalanced d hd
      have hweight := hbalanced b c hb hc
      rcases List.mem_or_eq_of_mem_set hd with hd | rfl
      · rcases List.mem_or_eq_of_mem_set hd with hold | rfl
        · exact hpool d hold
        · exact hexactB.getEntriesMut_iff.mpr hweight.symm
      · exact hexactC.getEntriesMut_iff.mpr hweight

/-- **`size` is `build().size()` in every state of a run if and only if every operation of the run
    is balanced**: no edit of an entry map changes what its entries take together. -/
theorem size_matches_build_iff {pool₀ pool : List (Builder E)} {ops : List (BuilderPoolOp E)}
    (hinit : builderPoolSystem.init pool₀) (hrun : builderPoolSystem.Run pool₀ ops pool) :
    (∀ before after mid, ops = before ++ after → builderPoolSystem.Run pool₀ before mid →
        ∀ b ∈ mid, b.SizeMatchesBuild H) ↔
      (builderPoolSystem.restrict fun pool op => op.Balanced pool).Run pool₀ ops pool := by
  constructor
  · intro hmatch
    -- by induction on the run: both ends of its last step are exact
    induction hrun with
    | nil => exact .nil
    | @snoc before mid pool op hrun hstep ih =>
      have hmid : ∀ b ∈ mid, b.Exact := fun b hb =>
        Builder.sizeMatchesBuild_iff.mp (hmatch before [op] mid rfl hrun b hb)
      have hpool : ∀ b ∈ pool, b.Exact := fun b hb =>
        Builder.sizeMatchesBuild_iff.mp
          (hmatch (before ++ [op]) [] pool (by simp) (hrun.snoc hstep) b hb)
      refine .snoc (ih ?_) ⟨(exact_step_iff hmid hstep).mp hpool, hstep⟩
      rintro before' after mid' rfl hrun' b hb
      exact hmatch before' (after ++ [op]) mid' (by simp) hrun' b hb
  · intro hbalanced before after mid hops hrun' b hb
    subst hops
    obtain ⟨mid', hbefore, _⟩ := hbalanced.split
    obtain rfl : mid = mid' :=
      hrun'.deterministic (fun _ _ _ _ => builderPoolSystem_deterministic) hbefore.of_restrict
    -- what a balanced step preserves, a balanced run preserves
    have hexact : ∀ b ∈ mid, b.Exact := by
      apply hbefore.invariant (fun _ pool => ∀ b ∈ pool, b.Exact)
      · intro b hb
        rw [show pool₀ = [] from hinit] at hb
        cases hb
      · intro _ pool op pool' hpool hstep
        exact (exact_step_iff hpool hstep.2).mpr hstep.1
    exact Builder.sizeMatchesBuild_iff.mpr (hexact b hb)

/-! ### A builder with one entry -/

/-- An entry with no data. -/
def blankEntry : BuilderEntry asRef := .new ⟨[], by decide⟩ none

/-- A builder with a blank entry of the name `a`. -/
def blankBuilder : Builder asRef where
  entries := IndexMap.empty.insertVacant [97] blankEntry (by decide)
  timeConverter := none
  totalSize := 256

/-- The operations that make it. -/
def blankOps : List (BuilderPoolOp asRef) := [.new, .call 0 (.addEntry [97] blankEntry.data)]

/-- They edit no map. -/
theorem blankBuilder_run :
    (builderPoolSystem.restrict fun pool op => op.Balanced pool).Run [] blankOps
      [blankBuilder] := by
  have hnew : builderPoolSystem.step [] .new [(⟨.empty, none, 98⟩ : Builder asRef)] :=
    ⟨_, Builder.new_eq, rfl⟩
  have hadd : (⟨.empty, none, 98⟩ : Builder asRef).addEntry [97] blankEntry.data =
      .ok (.ok blankBuilder) := rfl
  have hcall : builderPoolSystem.step [⟨.empty, none, 98⟩]
      (.call 0 (.addEntry [97] blankEntry.data)) [blankBuilder] :=
    ⟨_, _, rfl, .inl hadd, rfl⟩
  exact System.Run.cons ⟨trivial, hnew⟩ (System.Run.cons ⟨trivial, hcall⟩ .nil)

/-- An edit of its map. -/
theorem blankBuilder_edit (change : EntriesEdit asRef) :
    builderPoolSystem.step [blankBuilder] (.edit 0 change)
      [blankBuilder.getEntriesMut (change.apply blankBuilder.entries)] :=
  ⟨_, rfl, rfl⟩

/-- After the only entry is removed, `size` still counts it. -/
theorem size_stale_after_clear :
    ∃ pool : List (Builder asRef), builderPoolSystem.Reachable pool ∧
      ∃ b ∈ pool, b.size = 256 ∧ ∃ r : Reader asRef crc32Ieee, b.build = .ok r ∧ r.size = 98 := by
  have hrun := blankBuilder_run.of_restrict.snoc (blankBuilder_edit .clear)
  exact ⟨_, ⟨[], _, rfl, hrun⟩, _, List.mem_singleton_self _, rfl, _, rfl, rfl⟩

/-- A file that is replaced by a directory of the same name. -/
theorem size_matches_build_iff_blank :
    ∃ pool : List (Builder asRef),
      builderPoolSystem.Run [] (blankOps ++ [.edit 0 (.insert [97] blankEntry.directory)]) pool ∧
        ∀ b ∈ pool, b.entries.entries = [([97], blankEntry.directory)] ∧
          b.SizeMatchesBuild crc32Ieee := by
  have hedit := blankBuilder_edit (.insert [97] blankEntry.directory)
  have hbalanced :
      (BuilderPoolOp.edit 0 (.insert [97] blankEntry.directory)).Balanced [blankBuilder] := by
    rintro _ ⟨⟩
    exact ⟨blankEntry, List.mem_singleton_self _, rfl⟩
  have hrun := blankBuilder_run.of_restrict.snoc hedit
  have hmatch := (size_matches_build_iff (H := crc32Ieee) rfl hrun).mpr
    (blankBuilder_run.snoc ⟨hbalanced, hedit⟩)
  refine ⟨_, hrun, fun b hb => ⟨?_, hmatch _ [] _ (List.append_nil _).symm hrun b hb⟩⟩
  rw [List.mem_singleton.mp hb]
  rfl

end Model

end Zippity
