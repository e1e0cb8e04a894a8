import Mathlib.Algebra.BigOperators.Group.List.Basic
import Mathlib.Tactic.Ring

/-! # Bit fields

    A word made of fields, highest first.  A field carries the proof that its
    value has its width, so no two fields overlap: the word is the `or` of the
    shifted fields, each field can be read back, and words with the same widths
    are in the lexicographic order of their fields.
-/

namespace Framework

/-- A number with a width in bits. -/
structure BitField where
  width : Nat
  value : Nat
  fits : value < 2 ^ width

namespace BitField

/-- The width of some fields. -/
def totalWidth (fields : List BitField) : Nat := (fields.map width).sum

/-- The word that fields make up, the first one highest. -/
def word : List BitField → Nat
  | [] => 0
  | field :: fields => field.value * 2 ^ totalWidth fields + word fields

@[simp] theorem totalWidth_nil : totalWidth [] = 0 := rfl

@[simp] theorem totalWidth_cons (field : BitField) (fields : List BitField) :
    totalWidth (field :: fields) = field.width + totalWidth fields := by
  simp [totalWidth]

/-- **A word has the width of its fields.** -/
theorem word_lt (fields : List BitField) : word fields < 2 ^ totalWidth fields := by
  induction fields with
  | nil => simp [word]
  | cons field fields ih =>
    rw [totalWidth_cons, Nat.pow_add]
    calc word (field :: fields)
      _ < field.value * 2 ^ totalWidth fields + 2 ^ totalWidth fields := Nat.add_lt_add_left ih _
      _ = (field.value + 1) * 2 ^ totalWidth fields := by rw [Nat.add_mul, Nat.one_mul]
      _ ≤ 2 ^ field.width * 2 ^ totalWidth fields := Nat.mul_le_mul_right _ field.fits

/-- The fields in front are above those behind. -/
theorem word_append (front fields : List BitField) :
    word (front ++ fields) = word front * 2 ^ totalWidth fields + word fields := by
  induction front with
  | nil => simp [word]
  | cons field front ih =>
    have hwidth : totalWidth (front ++ fields) = totalWidth front + totalWidth fields := by
      simp [totalWidth]
    rw [List.cons_append, word, word, ih, hwidth, Nat.pow_add]
    ring

/-- **Fields do not overlap**: adding them is an `or`. -/
theorem word_cons_eq_or (field : BitField) (fields : List BitField) :
    word (field :: fields) = word fields ||| field.value <<< totalWidth fields := by
  rw [word, ← Nat.shiftLeft_eq, Nat.shiftLeft_add_eq_or_of_lt (word_lt fields), Nat.or_comm]

/-- **A field is read back** by a shift and a mask. -/
theorem read_word (front : List BitField) (field : BitField) (fields : List BitField) :
    word (front ++ field :: fields) / 2 ^ totalWidth fields % 2 ^ field.width = field.value := by
  have hsplit : word (front ++ field :: fields) =
      word (front ++ [field]) * 2 ^ totalWidth fields + word fields := by
    rw [← word_append, List.append_assoc, List.singleton_append]
  have hlow : word fields / 2 ^ totalWidth fields = 0 := Nat.div_eq_of_lt (word_lt fields)
  rw [hsplit, Nat.mul_comm, Nat.mul_add_div (Nat.two_pow_pos _), hlow, Nat.add_zero, word_append]
  simp [word, Nat.mod_eq_of_lt field.fits]

/-- **Words are ordered by their fields**, the first one first. -/
theorem word_lt_word_iff {fields fields' : List BitField}
    (hwidths : fields.map width = fields'.map width) :
    word fields < word fields' ↔ fields.map value < fields'.map value := by
  induction fields generalizing fields' with
  | nil =>
    obtain rfl : fields' = [] := by simpa using hwidths.symm
    simp
  | cons field fields ih =>
    obtain ⟨field', fields', rfl, hwidth, hrest⟩ := List.map_eq_cons_iff.mp hwidths.symm
    have htotal : totalWidth fields' = totalWidth fields := congrArg List.sum hrest
    have hlow := word_lt fields
    have hlow' := word_lt fields'
    rw [htotal] at hlow'
    rw [List.map_cons, List.map_cons, List.cons_lt_cons_iff, ← ih hrest.symm, word, word, htotal]
    rcases Nat.lt_trichotomy field.value field'.value with hlt | heq | hgt
    · -- the first fields differ, and what is below them does not reach up to them
      have hstep : (field.value + 1) * 2 ^ totalWidth fields ≤
          field'.value * 2 ^ totalWidth fields := Nat.mul_le_mul_right _ hlt
      rw [Nat.add_mul] at hstep
      refine iff_of_true ?_ (.inl hlt)
      omega
    · rw [heq]
      simp
    · have hstep : (field'.value + 1) * 2 ^ totalWidth fields ≤
          field.value * 2 ^ totalWidth fields := Nat.mul_le_mul_right _ hgt
      rw [Nat.add_mul] at hstep
      refine iff_of_false ?_ ?_
      · omega
      · rintro (hlt | ⟨heq, _⟩) <;> omega

end BitField

end Framework
