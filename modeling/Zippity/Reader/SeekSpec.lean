import Zippity.Reader.Standing

/-! # What seeking does

    `seek_from_start` lands in one of three regions of the archive; in the first
    a binary search over the entry offsets finds the entry.  Wherever it lands,
    what is left of the stream is what is left after the offset.
-/

namespace Zippity

open Framework
open Exec (u64Bound addU64 subU64 assert assert_eq subU64_eq ok_bind bind_eq_ok)

/-! ### Searching in a sorted list -/

section Search
variable {α : Type} {f : α → Nat} {xs : List α}

/-- In a list with increasing keys, those below a bound come first. -/
theorem key_lt_iff_lt_countP (hsorted : xs.Pairwise (fun x y => f x < f y)) (b : Nat) :
    ∀ j (hj : j < xs.length), f xs[j] < b ↔ j < xs.countP (fun x => f x < b) := by
  induction xs with
  | nil => intro j hj; simp at hj
  | cons x xs ih =>
    obtain ⟨hx, hxs⟩ := List.pairwise_cons.mp hsorted
    intro j hj
    by_cases hlt : f x < b
    · rw [List.countP_cons_of_pos (by simpa using hlt)]
      cases j with
      | zero => simpa using hlt
      | succ j =>
        simp only [List.getElem_cons_succ]
        rw [ih hxs j (by simpa using hj)]
        omega
    · have hnone : (x :: xs).countP (fun x => f x < b) = 0 := by
        rw [List.countP_eq_zero]
        intro y hy
        rcases List.mem_cons.mp hy with rfl | hy
        · simpa using hlt
        · have := hx y hy
          simp only [decide_eq_true_eq]
          omega
      rw [hnone]
      cases j with
      | zero => simpa using hlt
      | succ j =>
        have hj' : j < xs.length := by simpa using hj
        have := hx _ (List.getElem_mem hj')
        simp only [List.getElem_cons_succ]
        omega

end Search

/-! ### Offsets -/

section Offsets
variable {E : EntryData} {a : Archive} {entries : List (ReaderEntry E)}

theorem Listed.offset (h : Listed a.members entries) {i : Nat}
    (hi : i < entries.length) : entries[i].offset = extents (a.members.take i) := by
  have hm := List.getElem?_eq_getElem (l := a.members) (h.length ▸ hi)
  rw [(h.describes i _ _ (List.getElem?_eq_getElem hi) hm).offset]
  exact a.offsets i _ hm

/-- The offsets of the entries are strictly increasing. -/
theorem Listed.offsets_sorted (h : Listed a.members entries) :
    entries.Pairwise (fun x y => x.offset < y.offset) := by
  rw [List.pairwise_iff_getElem]
  intro i j hi hj hij
  rw [h.offset hi, h.offset hj]
  exact extents_take_lt hij (h.length ▸ hj)

/-- The search finds the last entry that starts at or before the offset. -/
theorem searchEntry_spec (h : Listed a.members entries) (hne : entries ≠ [])
    (offset : Nat) :
    ∃ i, ReadState.searchEntry entries offset = .ok i ∧
      ∃ hi : i < entries.length, entries[i].offset ≤ offset ∧
        ∀ hi' : i + 1 < entries.length, offset < entries[i + 1].offset := by
  have hsorted := h.offsets_sorted
  have hlt := List.pairwise_iff_getElem.mp hsorted
  unfold ReadState.searchEntry ReadState.binarySearchByKey
  cases hfind : entries.findIdx? (fun entry => entry.offset == offset) with
  | some i =>
    obtain ⟨hi, heq, _⟩ := List.findIdx?_eq_some_iff_getElem.mp hfind
    have hkey : entries[i].offset = offset := by simpa using heq
    refine ⟨i, rfl, hi, by omega, fun hi' => ?_⟩
    have := hlt i (i + 1) hi hi' (by omega)
    omega
  | none =>
    have hne' : ∀ entry ∈ entries, entry.offset ≠ offset := by simpa using hfind
    have hcount := key_lt_iff_lt_countP hsorted offset
    have hle : entries.countP (fun entry => entry.offset < offset) ≤ entries.length :=
      List.countP_le_length
    have hpos : 0 < entries.length := List.length_pos_iff.mpr hne
    -- the first entry is at offset 0, so it is counted
    have hfirst : entries[0].offset < offset := by
      have hoffset : entries[0].offset = 0 := h.offset hpos
      have := hne' _ (List.getElem_mem hpos)
      omega
    have hzero := (hcount 0 hpos).mp hfirst
    refine ⟨_, subU64_eq hzero, by omega, ?_, fun hi' => ?_⟩
    · exact Nat.le_of_lt ((hcount _ (by omega)).mpr (by omega))
    · have hnot := (hcount _ hi').not.mpr (by omega)
      have := hne' _ (List.getElem_mem hi')
      omega

end Offsets

/-! ### Seeking -/

section Model
variable {E : EntryData} {H : Crc32Fast} {mayFail : Prop} {a : Archive}
  {entries : List (ReaderEntry E)}

/-- A seek that returns sets the position, whatever state and entries it is given. -/
theorem position_of_seekFromStart {sizes : Sizes} {rs rs' : ReadState} {offset : Nat}
    (h : rs.seekFromStart sizes entries offset = .ok rs') : rs'.position = offset := by
  -- every region ends in the same update
  have hdone : ∀ (chunk : Chunk) (start : Nat), (subU64 offset start >>= fun toSkip => .ok { rs with
          currentChunk := chunk
          chunkProcessedSize := 0
          position := offset
          stagingBuffer := []
          toSkip := toSkip }) = .ok rs' → rs'.position = offset := by
    intro chunk start hupdate
    obtain ⟨toSkip, _, hrs'⟩ := bind_eq_ok hupdate
    cases hrs'
    rfl
  unfold ReadState.seekFromStart at h
  by_cases heocd : offset ≥ sizes.eocdOffset
  · rw [if_pos heocd] at h
    exact hdone _ _ h
  · rw [if_neg heocd] at h
    by_cases hcd : offset ≥ sizes.cdOffset
    · rw [if_pos hcd] at h
      obtain ⟨_, _, h⟩ := bind_eq_ok h
      exact hdone _ _ h
    · rw [if_neg hcd] at h
      obtain ⟨_, _, h⟩ := bind_eq_ok h
      obtain ⟨i, _, h⟩ := bind_eq_ok h
      obtain ⟨_, _, h⟩ := bind_eq_ok h
      obtain ⟨entry, _, h⟩ := bind_eq_ok h
      obtain ⟨_, _, h⟩ := bind_eq_ok h
      obtain ⟨last, _, h⟩ := bind_eq_ok h
      by_cases hlast : i = last
      · rw [if_pos hlast] at h
        exact hdone _ _ h
      · rw [if_neg hlast] at h
        obtain ⟨following, _, h⟩ := bind_eq_ok h
        obtain ⟨_, _, h⟩ := bind_eq_ok h
        exact hdone _ _ h

/-- The chunks that a seek goes to: a local header, the start of the central directory or its end. -/
def SeekTarget : Chunk → Prop
  | .localHeader _ | .cdFileHeader 0 | .eocd => True
  | _ => False

/-- **Where a seek lands**: it always succeeds, in a chunk that starts at or before the offset, and
    the bytes up to the offset are to be skipped. -/
theorem seekFromStart_lands {sizes : Sizes} (rs : ReadState)
    (hsizes : sizes = layoutSizes a.members) (h : Listed a.members entries) (offset : Nat) :
    ∃ chunk, rs.seekFromStart sizes entries offset = .ok { rs with
        currentChunk := chunk
        chunkProcessedSize := 0
        position := offset
        stagingBuffer := []
        toSkip := offset - chunkStart a.members chunk } ∧
      SeekTarget chunk ∧ chunk.Located a.members.length ∧ chunkStart a.members chunk ≤ offset := by
  subst hsizes
  have heocdStart : (layoutSizes a.members).eocdOffset = chunkStart a.members .eocd := rfl
  have hcdStart : (layoutSizes a.members).cdOffset = chunkStart a.members (.cdFileHeader 0) := by
    simp [layoutSizes, chunkStart]
  unfold ReadState.seekFromStart
  rw [heocdStart, hcdStart]
  by_cases heocd : offset ≥ chunkStart a.members .eocd
  · rw [if_pos heocd]
    simp only [ok_bind]
    rw [subU64_eq heocd]
    exact ⟨.eocd, rfl, trivial, trivial, heocd⟩
  · rw [if_neg heocd]
    have hmembers : a.members ≠ [] := by
      intro hnil
      simp [chunkStart, hnil, centralSizes, extents] at heocd
    have hpos : 0 < a.members.length := List.length_pos_iff.mpr hmembers
    have hlen : 0 < entries.length := by rwa [h.length]
    have hentries : entries ≠ [] := List.length_pos_iff.mp hlen
    by_cases hcd : offset ≥ chunkStart a.members (.cdFileHeader 0)
    · rw [if_pos hcd, assert_eq hentries]
      simp only [ok_bind]
      rw [subU64_eq hcd]
      exact ⟨.cdFileHeader 0, rfl, trivial, hpos, hcd⟩
    · rw [if_neg hcd, assert_eq hentries]
      obtain ⟨i, hsearch, hi, hle, hlt⟩ := searchEntry_spec h hentries offset
      have hlocated : i < a.members.length := h.length ▸ hi
      have hstart : entries[i].offset = chunkStart a.members (.localHeader i) := h.offset hi
      simp only [ok_bind, hsearch]
      rw [assert_eq hi, ok_bind, entryAt_eq (List.getElem?_eq_getElem hi), ok_bind, assert_eq hle,
        ok_bind, subU64_eq hlen, ok_bind]
      rw [hstart] at hle ⊢
      by_cases hlast : i = entries.length - 1
      · rw [if_pos hlast]
        rw [subU64_eq hle]
        exact ⟨.localHeader i, rfl, trivial, hlocated, hle⟩
      · have hi' : i + 1 < entries.length := by omega
        rw [if_neg hlast, entryAt_eq (List.getElem?_eq_getElem hi'), ok_bind, assert_eq (hlt hi')]
        simp only [ok_bind]
        rw [subU64_eq hle]
        exact ⟨.localHeader i, rfl, trivial, hlocated, hle⟩

/-- What is left of the stream behind an offset, from the chunk that a seek goes to. -/
theorem tailAt_seekTarget {chunk : Chunk} (htarget : SeekTarget chunk) {offset : Nat}
    (hle : chunkStart a.members chunk ≤ offset) :
    tailAt (segmentsFrom H a.members chunk) (offset - chunkStart a.members chunk) =
      tailAt (segments H a.members) offset := by
  obtain ⟨k, rfl⟩ := Nat.exists_eq_add_of_le hle
  rw [Nat.add_sub_cancel_left]
  cases chunk with
  | localHeader i => exact (tailAt_localHeader i k).symm
  | cdFileHeader i =>
    cases i with
    | zero => simpa [chunkStart] using (tailAt_cdFileHeader k).symm
    | succ i => exact htarget.elim
  | eocd => exact (tailAt_eocd k).symm
  | _ => exact htarget.elim

/-- **Seeking**: always succeeds, and leaves the stream after the offset. -/
theorem seekFromStart_spec {sizes : Sizes} (rs : ReadState)
    (hsizes : sizes = layoutSizes a.members) (h : Listed a.members entries)
    (offset : Nat) :
    ∃ rs', rs.seekFromStart sizes entries offset = .ok rs' ∧ rs'.position = offset ∧
      Stands H mayFail a entries rs' .nothing (tailAt (segments H a.members) offset) := by
  obtain ⟨chunk, hseek, htarget, hlocated, hle⟩ := seekFromStart_lands rs hsizes h offset
  refine ⟨_, hseek, rfl, ?_⟩
  rw [← tailAt_seekTarget htarget hle]
  exact .ready hlocated rfl rfl

end Model

end Zippity
