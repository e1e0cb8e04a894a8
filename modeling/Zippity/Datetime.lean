import Zippity.Builder
import Zippity.Framework.WordFields

/-! # Dates and times

    What `DosDatetime::new` makes of a date: each of its two words is made of
    bit fields, so it is known from the date alone what they are, what is read
    back of them and how they are ordered.
-/

namespace Zippity

open Framework BitField

/-- A date that the format can store, down to even seconds. -/
def DatetimeFields.Representable (fields : DatetimeFields) : Prop :=
  (1980 ≤ fields.year.toInt ∧ fields.year.toInt ≤ 2107) ∧
  (1 ≤ fields.month.toNat ∧ fields.month.toNat ≤ 12) ∧
  (1 ≤ fields.day.toNat ∧ fields.day.toNat ≤ 31) ∧
  fields.hour.toNat ≤ 23 ∧ fields.minute.toNat ≤ 59 ∧ fields.second.toNat ≤ 59

instance : DecidablePred DatetimeFields.Representable := fun fields =>
  inferInstanceAs (Decidable ((1980 ≤ fields.year.toInt ∧ fields.year.toInt ≤ 2107) ∧
    (1 ≤ fields.month.toNat ∧ fields.month.toNat ≤ 12) ∧
    (1 ≤ fields.day.toNat ∧ fields.day.toNat ≤ 31) ∧
    fields.hour.toNat ≤ 23 ∧ fields.minute.toNat ≤ 59 ∧ fields.second.toNat ≤ 59))

/-! ### The accessors, as numbers -/

namespace DosDatetime

variable (dt : DosDatetime)

theorem toNat_month : dt.month.toNat = dt.date.toNat / 2 ^ 5 % 2 ^ 4 := by
  simp only [month, UInt16.toNat_toUInt32, UInt16.toNat_and, UInt16.toNat_shiftRight]
  exact Nat.and_two_pow_sub_one_eq_mod _ 4 |>.trans (by rw [Nat.shiftRight_eq_div_pow]; rfl)

theorem toNat_day : dt.day.toNat = dt.date.toNat % 2 ^ 5 := by
  simp only [day, UInt16.toNat_toUInt32, UInt16.toNat_and]
  exact Nat.and_two_pow_sub_one_eq_mod _ 5

theorem toNat_hour : dt.hour.toNat = dt.time.toNat / 2 ^ 11 := by
  simp only [hour, UInt16.toNat_toUInt32, UInt16.toNat_shiftRight]
  exact Nat.shiftRight_eq_div_pow _ 11

theorem toNat_minute : dt.minute.toNat = dt.time.toNat / 2 ^ 5 % 2 ^ 6 := by
  simp only [minute, UInt16.toNat_toUInt32, UInt16.toNat_and, UInt16.toNat_shiftRight]
  exact Nat.and_two_pow_sub_one_eq_mod _ 6 |>.trans (by rw [Nat.shiftRight_eq_div_pow]; rfl)

theorem toNat_second : dt.second.toNat = dt.time.toNat % 2 ^ 5 * 2 := by
  have hlow : (dt.time &&& 31).toNat = dt.time.toNat % 2 ^ 5 := by
    rw [UInt16.toNat_and]
    exact Nat.and_two_pow_sub_one_eq_mod _ 5
  have hlt : dt.time.toNat % 2 ^ 5 < 2 ^ 5 := Nat.mod_lt _ (by decide)
  simp only [second, UInt16.toNat_toUInt32, UInt16.toNat_mul, hlow]
  exact Nat.mod_eq_of_lt (by simp; omega)

theorem toInt_year : dt.year.toInt = dt.date.toNat / 2 ^ 9 + 1980 := by
  have hhigh : (dt.date >>> 9).toNat = dt.date.toNat / 2 ^ 9 := by
    rw [UInt16.toNat_shiftRight]
    exact Nat.shiftRight_eq_div_pow _ 9
  have hlt := dt.date.toNat_lt
  have hsum : ((dt.date >>> 9) + 1980).toNat = dt.date.toNat / 2 ^ 9 + 1980 := by
    rw [UInt16.toNat_add, hhigh]
    exact Nat.mod_eq_of_lt (by simp; omega)
  rw [year, hsum, Int32.toInt_ofNat_of_lt (by omega)]
  simp

end DosDatetime

namespace DatetimeFields

variable {fields : DatetimeFields}

/-- The fields of the date word: year, month and day. -/
def dateFields (fields : DatetimeFields) (h : fields.Representable) : List BitField :=
  [⟨7, (fields.year.toInt - 1980).toNat, by have := h.1; omega⟩,
    ⟨4, fields.month.toNat, by have := h.2.1; omega⟩,
    ⟨5, fields.day.toNat, by have := h.2.2.1; omega⟩]

/-- The fields of the time word: hour, minute and every second second. -/
def timeFields (fields : DatetimeFields) (h : fields.Representable) : List BitField :=
  [⟨5, fields.hour.toNat, by have := h.2.2.2; omega⟩,
    ⟨6, fields.minute.toNat, by have := h.2.2.2; omega⟩,
    ⟨5, fields.second.toNat / 2, by have := h.2.2.2; omega⟩]

/-! ### Packing -/

/-- A check and the conversion it makes safe. -/
theorem checked_eq {α : Type} {q : Prop} [Decidable q] {n : Int} {f : UInt16 → Option α}
    (h : ¬ q → 0 ≤ n ∧ n < 65536) :
    (if q then none else (u16TryFrom n).bind f) = if q then none else f (UInt16.ofNat n.toNat) := by
  by_cases hq : q
  · rw [if_pos hq, if_pos hq]
  · rw [if_neg hq, if_neg hq, u16TryFrom, if_pos (h hq)]
    rfl

/-- **`DosDatetime::new`** answers exactly for the dates that can be stored. -/
theorem pack_eq (fields : DatetimeFields) :
    fields.pack = if fields.Representable then some {
        time := UInt16.ofNat (fields.second.toNat / 2) |||
          (UInt16.ofNat fields.minute.toNat <<< 5) |||
          (UInt16.ofNat fields.hour.toNat <<< 11)
        date := UInt16.ofNat fields.day.toNat ||| (UInt16.ofNat fields.month.toNat <<< 5) |||
          (UInt16.ofNat (fields.year.toInt - 1980).toNat <<< 9) }
      else none := by
  have hmonth : 1 ≤ fields.month ∧ fields.month ≤ 12 ↔
      1 ≤ fields.month.toNat ∧ fields.month.toNat ≤ 12 := Iff.rfl
  have hday : 1 ≤ fields.day ∧ fields.day ≤ 31 ↔
      1 ≤ fields.day.toNat ∧ fields.day.toNat ≤ 31 := Iff.rfl
  have hhour : fields.hour > 23 ↔ ¬ fields.hour.toNat ≤ 23 := Nat.not_le.symm
  have hminute : fields.minute > 59 ↔ ¬ fields.minute.toNat ≤ 59 := Nat.not_le.symm
  have hsecond : fields.second > 59 ↔ ¬ fields.second.toNat ≤ 59 := Nat.not_le.symm
  have htwo : (fields.second / 2).toNat = fields.second.toNat / 2 := UInt32.toNat_div _ _
  unfold pack DosDatetime.new
  -- no conversion fails behind its check
  simp only [Option.bind_eq_bind, Option.bind_none, hmonth, hday, hhour, hminute, hsecond]
  rw [checked_eq (by omega), checked_eq (by omega), checked_eq (by omega), checked_eq (by omega),
    checked_eq (by omega), checked_eq (by omega), htwo]
  by_cases h : fields.Representable
  · obtain ⟨hy, hm, hd, hh, hmi, hs⟩ := id h
    rw [if_neg (by omega), if_neg (by omega), if_neg (by omega), if_neg (by omega),
      if_neg (by omega), if_neg (by omega), if_pos h]
    rfl
  · rw [if_neg h]
    split_ifs with hy hm hd hh hmi hs
    · exact absurd (show fields.Representable by unfold Representable; omega) h
    all_goals rfl

/-- Three fields in a `u16`, the shifts of the two upper ones and the `or`s written out. -/
theorem toNat_or_shiftLeft (high middle low : BitField)
    (hwidth : high.width + (middle.width + low.width) = 16) (hpos : 0 < high.width) :
    (UInt16.ofNat low.value ||| (UInt16.ofNat middle.value <<< UInt16.ofNat low.width) |||
      (UInt16.ofNat high.value <<< UInt16.ofNat (middle.width + low.width))).toNat =
      word [high, middle, low] := by
  have hword : word [high, middle, low] < 2 ^ 16 := by
    simpa [hwidth] using word_lt [high, middle, low]
  have hor : word [high, middle, low] =
      low.value ||| middle.value <<< low.width ||| high.value <<< (middle.width + low.width) := by
    rw [word_cons_eq_or, word_cons_eq_or]
    simp [word]
  rw [← UInt16.ofNat_shiftLeft _ _ (by omega), ← UInt16.ofNat_shiftLeft _ _ (by omega),
    ← UInt16.ofNat_or, ← UInt16.ofNat_or, ← hor]
  exact Nat.mod_eq_of_lt hword

/-- **The two words of a date.** -/
theorem pack_eq_some_iff {dt : DosDatetime} :
    fields.pack = some dt ↔ ∃ h : fields.Representable,
      dt.time.toNat = word (fields.timeFields h) ∧ dt.date.toNat = word (fields.dateFields h) := by
  rw [pack_eq]
  by_cases h : fields.Representable
  · have htime := toNat_or_shiftLeft ⟨5, fields.hour.toNat, by have := h.2.2.2; omega⟩
      ⟨6, fields.minute.toNat, by have := h.2.2.2; omega⟩
      ⟨5, fields.second.toNat / 2, by have := h.2.2.2; omega⟩ rfl (by simp)
    have hdate := toNat_or_shiftLeft ⟨7, (fields.year.toInt - 1980).toNat, by have := h.1; omega⟩
      ⟨4, fields.month.toNat, by have := h.2.1; omega⟩
      ⟨5, fields.day.toNat, by have := h.2.2.1; omega⟩ rfl (by simp)
    rw [if_pos h, Option.some_inj]
    constructor
    · intro hdt
      subst hdt
      exact ⟨h, htime, hdate⟩
    · intro ⟨_, htime', hdate'⟩
      -- a word is known by its number
      obtain ⟨time, date⟩ := dt
      exact congrArg₂ DosDatetime.mk (UInt16.toNat_inj.mp (htime.trans htime'.symm))
        (UInt16.toNat_inj.mp (hdate.trans hdate'.symm))
  · rw [if_neg h]
    exact iff_of_false (by simp) fun ⟨hrep, _⟩ => h hrep

/-! ### What is read back -/

/-- The date word gives its fields back. -/
theorem read_dateFields {h : fields.Representable} {dt : DosDatetime}
    (hdate : dt.date.toNat = word (fields.dateFields h)) :
    dt.year.toInt = fields.year.toInt ∧ dt.month.toNat = fields.month.toNat ∧
      dt.day.toNat = fields.day.toNat := by
  have hyear := read_word [] ⟨7, (fields.year.toInt - 1980).toNat, by have := h.1; omega⟩
    ((fields.dateFields h).drop 1)
  have hmonth := read_word ((fields.dateFields h).take 1)
    ⟨4, fields.month.toNat, by have := h.2.1; omega⟩ ((fields.dateFields h).drop 2)
  have hday := read_word ((fields.dateFields h).take 2)
    ⟨5, fields.day.toNat, by have := h.2.2.1; omega⟩ []
  refine ⟨?_, ?_, ?_⟩
  · -- the highest field has no mask
    have hlt := dt.date.toNat_lt
    have hread : dt.date.toNat / 2 ^ 9 = (fields.year.toInt - 1980).toNat := by
      rw [← Nat.mod_eq_of_lt (show dt.date.toNat / 2 ^ 9 < 2 ^ 7 by omega), hdate]
      exact hyear
    have hrange := h.1
    rw [dt.toInt_year]
    omega
  · rw [dt.toNat_month, hdate]
    exact hmonth
  · rw [dt.toNat_day, hdate, ← Nat.div_one (word _)]
    exact hday

/-- The time word gives its fields back, down to even seconds. -/
theorem read_timeFields {h : fields.Representable} {dt : DosDatetime}
    (htime : dt.time.toNat = word (fields.timeFields h)) :
    dt.hour.toNat = fields.hour.toNat ∧ dt.minute.toNat = fields.minute.toNat ∧
      dt.second.toNat = fields.second.toNat / 2 * 2 := by
  have hhour := read_word [] ⟨5, fields.hour.toNat, by have := h.2.2.2; omega⟩
    ((fields.timeFields h).drop 1)
  have hminute := read_word ((fields.timeFields h).take 1)
    ⟨6, fields.minute.toNat, by have := h.2.2.2; omega⟩ ((fields.timeFields h).drop 2)
  have hsecond := read_word ((fields.timeFields h).take 2)
    ⟨5, fields.second.toNat / 2, by have := h.2.2.2; omega⟩ []
  refine ⟨?_, ?_, ?_⟩
  · have hlt := dt.time.toNat_lt
    rw [dt.toNat_hour, ← Nat.mod_eq_of_lt (show dt.time.toNat / 2 ^ 11 < 2 ^ 5 by omega), htime]
    exact hhour
  · rw [dt.toNat_minute, htime]
    exact hminute
  · rw [dt.toNat_second, htime, ← Nat.div_one (word _)]
    exact congrArg (· * 2) hsecond

/-! ### The order of packed dates -/

/-- What a stored date keeps, in the order of significance. -/
def parts (fields : DatetimeFields) : List Int :=
  [fields.year.toInt, fields.month.toNat, fields.day.toNat, fields.hour.toNat,
    fields.minute.toNat, (fields.second.toNat / 2 : Nat)]

/-- The parts are in the order of the bit fields. -/
theorem parts_lt_parts_iff {fields' : DatetimeFields} (h : fields.Representable)
    (h' : fields'.Representable) :
    fields.parts < fields'.parts ↔
      (fields.dateFields h ++ fields.timeFields h).map value <
        (fields'.dateFields h' ++ fields'.timeFields h').map value := by
  have hyear := h.1
  have hyear' := h'.1
  have hlt : fields.year.toInt < fields'.year.toInt ↔
      (fields.year.toInt - 1980).toNat < (fields'.year.toInt - 1980).toNat := by omega
  have heq : fields.year.toInt = fields'.year.toInt ↔
      (fields.year.toInt - 1980).toNat = (fields'.year.toInt - 1980).toNat := by omega
  simp only [parts, dateFields, timeFields, List.cons_append, List.nil_append, List.map_cons,
    List.map_nil, List.cons_lt_cons_iff, Nat.cast_lt, Nat.cast_inj, hlt, heq, List.lt_irrefl]

/-- Both words of a stored date as fields of one word, the date above the time. -/
def words (dt : DosDatetime) : List BitField :=
  [⟨16, dt.date.toNat, dt.date.toNat_lt⟩, ⟨16, dt.time.toNat, dt.time.toNat_lt⟩]

/-- The date and time words together are the word of all fields. -/
theorem word_words {h : fields.Representable} {dt : DosDatetime}
    (htime : dt.time.toNat = word (fields.timeFields h))
    (hdate : dt.date.toNat = word (fields.dateFields h)) :
    word (words dt) = word (fields.dateFields h ++ fields.timeFields h) := by
  have hwidth : totalWidth (fields.timeFields h) = 16 := rfl
  rw [word_append, hwidth, ← hdate, ← htime]
  simp [words, word]

/-- **The words of two dates are in the order of their parts.** -/
theorem words_lt_words_iff {fields' : DatetimeFields} {dt dt' : DosDatetime}
    (hpack : fields.pack = some dt) (hpack' : fields'.pack = some dt') :
    [dt.date, dt.time] < [dt'.date, dt'.time] ↔ fields.parts < fields'.parts := by
  obtain ⟨h, htime, hdate⟩ := pack_eq_some_iff.mp hpack
  obtain ⟨h', htime', hdate'⟩ := pack_eq_some_iff.mp hpack'
  have hwords : [dt.date, dt.time] < [dt'.date, dt'.time] ↔
      (words dt).map value < (words dt').map value := by
    simp only [words, List.map_cons, List.map_nil, List.cons_lt_cons_iff, UInt16.lt_iff_toNat_lt,
      UInt16.toNat_inj, List.lt_irrefl]
  have hwidths : (words dt).map width = (words dt').map width := by
    simp only [words, List.map_cons]
  have hwidths' : (fields.dateFields h ++ fields.timeFields h).map width =
      (fields'.dateFields h' ++ fields'.timeFields h').map width := by
    simp only [dateFields, timeFields, List.cons_append, List.nil_append, List.map_cons]
  rw [hwords, parts_lt_parts_iff h h', ← word_lt_word_iff hwidths, ← word_lt_word_iff hwidths',
    word_words htime hdate, word_words htime' hdate']

/-- Dates with the same parts have the same words, and only these. -/
theorem words_eq_words_iff {fields' : DatetimeFields} {dt dt' : DosDatetime}
    (hpack : fields.pack = some dt) (hpack' : fields'.pack = some dt') :
    dt = dt' ↔ fields.parts = fields'.parts := by
  obtain ⟨h, htime, hdate⟩ := pack_eq_some_iff.mp hpack
  obtain ⟨h', htime', hdate'⟩ := pack_eq_some_iff.mp hpack'
  have hread := read_dateFields hdate
  have hread' := read_dateFields hdate'
  have hreadTime := read_timeFields htime
  have hreadTime' := read_timeFields htime'
  constructor
  · intro hdt
    subst hdt
    have hsecond : fields.second.toNat / 2 = fields'.second.toNat / 2 := by omega
    simp only [parts, hsecond, ← hread.1, ← hread.2.1, ← hread.2.2, ← hreadTime.1, ← hreadTime.2.1,
      hread'.1, hread'.2.1, hread'.2.2, hreadTime'.1, hreadTime'.2.1]
  · intro hparts
    simp only [parts, List.cons.injEq, Nat.cast_inj, and_true] at hparts
    obtain ⟨hyear, hmonth, hday, hhour, hminute, hsecond⟩ := hparts
    have hdateWord : dt.date.toNat = dt'.date.toNat := by
      simp only [hdate, hdate', dateFields, word, hyear, hmonth, hday]
    have htimeWord : dt.time.toNat = dt'.time.toNat := by
      simp only [htime, htime', timeFields, word, hhour, hminute, hsecond]
    obtain ⟨time, date⟩ := dt
    exact congrArg₂ DosDatetime.mk (UInt16.toNat_inj.mp htimeWord) (UInt16.toNat_inj.mp hdateWord)

end DatetimeFields

end Zippity
