import Mathlib.Data.List.Nodup
import Mathlib.Data.List.TakeWhile

/-! # Insertion-ordered maps

    An `IndexMap` keeps its entries in the order of their insertion.  That no
    two entries share a key is a field, so a map with a duplicate does not exist
    and an insertion needs a proof that the key is vacant.
-/

namespace Framework

universe u v

/-- An insertion-ordered map. -/
structure IndexMap (K : Type u) (V : Type v) where
  entries : List (K × V)
  /-- The keys are distinct. -/
  nodup : (entries.map Prod.fst).Nodup

namespace IndexMap

variable {K : Type u} {V : Type v}

/-- The map with no entries. -/
def empty : IndexMap K V := ⟨[], List.nodup_nil⟩

/-- The keys in the order of insertion. -/
def keys (m : IndexMap K V) : List K := m.entries.map Prod.fst

/-- Insert at a vacant key; the new entry is the last. -/
def insertVacant (m : IndexMap K V) (key : K) (value : V) (vacant : key ∉ m.keys) :
    IndexMap K V where
  entries := m.entries ++ [(key, value)]
  nodup := by
    rw [List.map_append]
    exact m.nodup.append (List.nodup_singleton key) (List.disjoint_singleton.mpr vacant)

/-- Mutate the value at a key, if there is one. -/
def adjust [DecidableEq K] (m : IndexMap K V) (key : K) (f : V → V) : IndexMap K V where
  entries := m.entries.map fun (k, v) => (k, if k = key then f v else v)
  nodup := by
    rw [List.map_map]
    exact m.nodup

/-- Insert at a key: the value there is replaced, or the new entry is the last. -/
def insert [DecidableEq K] (m : IndexMap K V) (key : K) (value : V) : IndexMap K V :=
  if vacant : key ∉ m.keys then m.insertVacant key value vacant
  else m.adjust key fun _ => value

/-- Remove a key; the entries behind it move up. -/
def shiftRemove [DecidableEq K] (m : IndexMap K V) (key : K) : IndexMap K V where
  entries := m.entries.filter fun entry => entry.1 ≠ key
  nodup := m.nodup.sublist (List.filter_sublist.map Prod.fst)

/-- A list without its head, whose place the last element takes. -/
def swapHead {α : Type*} : List α → List α
  | [] => []
  | _ :: rest => rest.getLast?.toList ++ rest.dropLast

/-- What the last element replaces is all that goes. -/
theorem perm_swapHead {α : Type*} (head : α) (rest : List α) :
    (swapHead (head :: rest)).Perm rest := by
  -- the last element is cut off, if there is one behind the head
  rcases List.eq_nil_or_concat rest with rfl | ⟨front, last, rfl⟩
  · exact .refl []
  · simp only [swapHead, List.concat_eq_append, List.getLast?_append, List.getLast?_singleton,
      Option.some_or, Option.toList_some, List.dropLast_concat]
    exact List.perm_append_comm

/-- The entries in front of a key. -/
def front [DecidableEq K] (m : IndexMap K V) (key : K) : List (K × V) :=
  m.entries.takeWhile fun entry => entry.1 ≠ key

/-- The entries from a key on. -/
def back [DecidableEq K] (m : IndexMap K V) (key : K) : List (K × V) :=
  m.entries.dropWhile fun entry => entry.1 ≠ key

/-- Remove a key; the last entry takes its place. -/
def swapRemove [DecidableEq K] (m : IndexMap K V) (key : K) : IndexMap K V where
  entries := m.front key ++ swapHead (m.back key)
  nodup := by
    have hcut : m.front key ++ m.back key = m.entries := List.takeWhile_append_dropWhile
    have hnodup := m.nodup
    rw [← hcut, List.map_append] at hnodup
    cases hrest : m.back key with
    | nil =>
      rw [hrest] at hnodup
      simpa [swapHead] using hnodup
    | cons entry rest =>
      rw [hrest, List.map_cons] at hnodup
      have hperm := (perm_swapHead entry rest).map Prod.fst
      rw [List.map_append, ((List.Perm.refl _).append hperm).nodup_iff]
      exact hnodup.sublist ((List.Sublist.refl _).append (List.sublist_cons_self _ _))

@[simp] theorem entries_empty : (empty : IndexMap K V).entries = [] := rfl

@[simp] theorem entries_insertVacant {m : IndexMap K V} {key : K} {value : V}
    (vacant : key ∉ m.keys) :
    (m.insertVacant key value vacant).entries = m.entries ++ [(key, value)] := rfl

/-- A change of the entry inserted last. -/
theorem entries_adjust_insertVacant [DecidableEq K] {m : IndexMap K V} {key : K} (value : V)
    (vacant : key ∉ m.keys) (f : V → V) :
    ((m.insertVacant key value vacant).adjust key f).entries = m.entries ++ [(key, f value)] := by
  -- no other entry has the key
  have hkeep : m.entries.map (fun (k, v) => (k, if k = key then f v else v)) = m.entries := by
    refine (List.map_congr_left ?_).trans (List.map_id _)
    intro entry hmem
    have hne : entry.1 ≠ key := by
      rintro rfl
      exact vacant (List.mem_map_of_mem hmem)
    show (entry.1, if entry.1 = key then f entry.2 else entry.2) = entry
    rw [if_neg hne]
  show (m.entries ++ [(key, value)]).map _ = _
  rw [List.map_append, hkeep]
  show m.entries ++ [(key, if key = key then f value else value)] = _
  rw [if_pos rfl]

/-- Where the entries go when the value at a key is mutated. -/
theorem mem_adjust [DecidableEq K] {m : IndexMap K V} {key k : K} {v : V} {f : V → V}
    (h : (k, v) ∈ m.entries) : (k, if k = key then f v else v) ∈ (m.adjust key f).entries :=
  List.mem_map_of_mem (f := fun (k, v) => (k, if k = key then f v else v)) h

/-- Two changes at a key are one. -/
theorem adjust_adjust [DecidableEq K] (m : IndexMap K V) (key : K) (f g : V → V) :
    (m.adjust key f).adjust key g = m.adjust key fun v => g (f v) := by
  unfold adjust
  congr 1
  rw [List.map_map]
  apply List.map_congr_left
  rintro ⟨k, v⟩ _
  show (k, if k = key then g (if k = key then f v else v) else if k = key then f v else v) =
    (k, if k = key then g (f v) else v)
  by_cases hkey : k = key
  · simp only [if_pos hkey]
  · simp only [if_neg hkey]

theorem adjust_id [DecidableEq K] (m : IndexMap K V) (key : K) : (m.adjust key fun v => v) = m := by
  obtain ⟨entries, nodup⟩ := m
  unfold adjust
  congr 1
  refine (List.map_congr_left ?_).trans (List.map_id _)
  intro entry _
  show (entry.1, if entry.1 = key then entry.2 else entry.2) = entry
  rw [ite_self]

/-- What holds of every entry survives a change that keeps it at every value. -/
theorem forall_adjust [DecidableEq K] {m : IndexMap K V} {key : K} {f : V → V}
    {P : K → V → Prop} (h : ∀ k v, (k, v) ∈ m.entries → P k v) (hf : ∀ k v, P k v → P k (f v)) :
    ∀ k v, (k, v) ∈ (m.adjust key f).entries → P k v := by
  intro k v hmem
  obtain ⟨⟨k', v'⟩, hmem', heq⟩ := List.mem_map.mp hmem
  cases heq
  show P k (if k = key then f v' else v')
  split
  · exact hf k v' (h k v' hmem')
  · exact h k v' hmem'

/-! ### Where a key is -/

theorem mem_keys_iff {m : IndexMap K V} {key : K} :
    key ∈ m.keys ↔ ∃ value, (key, value) ∈ m.entries := by
  simp [keys]

section Split
variable {m : IndexMap K V} {key : K} {value : V}

/-- The entry of a key, and that no other has the key. -/
theorem split_of_mem (h : (key, value) ∈ m.entries) :
    ∃ before after, m.entries = before ++ (key, value) :: after ∧
      (∀ entry ∈ before, entry.1 ≠ key) ∧ ∀ entry ∈ after, entry.1 ≠ key := by
  obtain ⟨before, after, hsplit⟩ := List.append_of_mem h
  -- the keys are distinct, so the entry is cut out with the only one
  have hnodup := m.nodup
  rw [hsplit, List.map_append, List.map_cons, List.nodup_append, List.nodup_cons] at hnodup
  obtain ⟨_, ⟨hafter, _⟩, hbefore⟩ := hnodup
  refine ⟨before, after, hsplit, ?_, ?_⟩
  · intro entry hmem
    exact hbefore entry.1 (List.mem_map_of_mem hmem) key (by simp)
  · intro entry hmem heq
    exact hafter (List.mem_map.mpr ⟨entry, hmem, heq⟩)

variable [DecidableEq K]

/-- The entries but that of a key. -/
theorem perm_shiftRemove (h : (key, value) ∈ m.entries) :
    m.entries.Perm ((key, value) :: (m.shiftRemove key).entries) := by
  obtain ⟨before, after, hsplit, hbefore, hafter⟩ := split_of_mem h
  have hremoved : (m.shiftRemove key).entries = before ++ after := by
    show m.entries.filter _ = _
    rw [hsplit, List.filter_append, List.filter_cons_of_neg (by simp),
      List.filter_eq_self.mpr (by simpa using hbefore),
      List.filter_eq_self.mpr (by simpa using hafter)]
  rw [hremoved, hsplit]
  exact List.perm_middle

theorem perm_swapRemove (h : (key, value) ∈ m.entries) :
    m.entries.Perm ((key, value) :: (m.swapRemove key).entries) := by
  obtain ⟨before, after, hsplit, hbefore, _⟩ := split_of_mem h
  have hpass : ∀ entry ∈ before, decide (entry.1 ≠ key) = true :=
    fun entry hmem => decide_eq_true (hbefore entry hmem)
  have hremoved : (m.swapRemove key).entries = before ++ swapHead ((key, value) :: after) := by
    show m.front key ++ swapHead (m.back key) = _
    rw [front, back, hsplit, List.takeWhile_append_of_pos hpass,
      List.dropWhile_append_of_pos hpass, List.takeWhile_cons_of_neg (by simp),
      List.dropWhile_cons_of_neg (by simp), List.append_nil]
  have hrest := (perm_swapHead (key, value) after).append_left before
  rw [hremoved, hsplit]
  exact List.perm_middle.trans (hrest.symm.cons (key, value))

/-- A key that is not there is not removed. -/
theorem shiftRemove_of_not_mem (h : key ∉ m.keys) : (m.shiftRemove key).entries = m.entries := by
  apply List.filter_eq_self.mpr
  intro entry hmem
  apply decide_eq_true
  rintro rfl
  exact h (List.mem_map_of_mem hmem)

theorem swapRemove_of_not_mem (h : key ∉ m.keys) : (m.swapRemove key).entries = m.entries := by
  have hpass : ∀ entry ∈ m.entries, decide (entry.1 ≠ key) = true := by
    intro entry hmem
    apply decide_eq_true
    rintro rfl
    exact h (List.mem_map_of_mem hmem)
  have hback : m.back key = [] := List.dropWhile_eq_nil_iff.mpr hpass
  calc (m.swapRemove key).entries
    _ = m.front key ++ swapHead (m.back key) := rfl
    _ = m.front key ++ m.back key := by rw [hback, swapHead]
    _ = m.entries := List.takeWhile_append_dropWhile

/-- An insertion at a key that is there replaces its value. -/
theorem perm_insert (h : (key, value) ∈ m.entries) (replacement : V) :
    (m.insert key replacement).entries.Perm
      ((key, replacement) :: (m.shiftRemove key).entries) := by
  obtain ⟨before, after, hsplit, hbefore, hafter⟩ := split_of_mem h
  have hkey : ¬ key ∉ m.keys := not_not_intro (mem_keys_iff.mpr ⟨value, h⟩)
  let replace : K × V → K × V := fun (k, v) => (k, if k = key then replacement else v)
  have hkeep : ∀ entries : List (K × V), (∀ entry ∈ entries, entry.1 ≠ key) →
      entries.map replace = entries := by
    intro entries hne
    rw [List.map_congr_left (g := id), List.map_id]
    intro entry hmem
    show (entry.1, if entry.1 = key then replacement else entry.2) = entry
    rw [if_neg (hne entry hmem)]
  have hinserted : (m.insert key replacement).entries = before ++ (key, replacement) :: after := by
    rw [insert, dif_neg hkey]
    show m.entries.map replace = _
    rw [hsplit, List.map_append, List.map_cons, hkeep before hbefore, hkeep after hafter]
    show before ++ (key, if key = key then replacement else value) :: after = _
    rw [if_pos rfl]
  have hperm := perm_shiftRemove h
  rw [hsplit] at hperm
  rw [hinserted]
  exact List.perm_middle.trans
    ((List.perm_middle.symm.trans hperm).cons_inv.cons (key, replacement))

/-- An insertion at a vacant key adds an entry. -/
theorem insert_of_not_mem (h : key ∉ m.keys) :
    (m.insert key value).entries = m.entries ++ [(key, value)] := by
  rw [insert, dif_pos h]
  rfl

end Split

end IndexMap

end Framework
