import Mathlib.Data.List.Basic

/-! # Lossy decoding of UTF-8

    `String::from_utf8_lossy` of the standard library: the characters of a byte
    string are kept, and every longest beginning of a character that is not
    finished is replaced by U+FFFD.  Strings are given by their bytes.
-/

namespace Framework

namespace Utf8

/-! ### Characters -/

/-- The byte lies in a range. -/
def between (low high : Nat) (byte : UInt8) : Bool := low ≤ byte.toNat ∧ byte.toNat ≤ high

/-- `utf8_char_width`: 0 for a byte that begins no character. -/
def charWidth (byte : UInt8) : Nat :=
  if between 0x00 0x7F byte then 1
  else if between 0xC2 0xDF byte then 2
  else if between 0xE0 0xEF byte then 3
  else if between 0xF0 0xF4 byte then 4
  else 0

/-- The bytes that may come second in a character. -/
def second (first : UInt8) : UInt8 → Bool :=
  if first = 0xE0 then between 0xA0 0xBF
  else if first = 0xED then between 0x80 0x9F
  else if first = 0xF0 then between 0x90 0xBF
  else if first = 0xF4 then between 0x80 0x8F
  else between 0x80 0xBF

/-- The bytes that may come third and fourth. -/
def continuation : UInt8 → Bool := between 0x80 0xBF

/-- The byte at an index; behind the last one stands a 0. -/
def byteAt (bytes : List UInt8) (i : Nat) : UInt8 := bytes[i]?.getD 0

/-- How many bytes a character at the front of the bytes takes, or how many of one that is not
    finished. -/
def chunk (bytes : List UInt8) : Nat × Bool :=
  let width := charWidth (byteAt bytes 0)
  if width = 0 then (1, false)
  else if width = 1 then (1, true)
  else if second (byteAt bytes 0) (byteAt bytes 1) then
    if width = 2 then (2, true)
    else if continuation (byteAt bytes 2) then
      if width = 3 then (3, true)
      else if continuation (byteAt bytes 3) then (4, true)
      else (3, false)
    else (2, false)
  else (1, false)

theorem chunk_pos (bytes : List UInt8) : 0 < (chunk bytes).1 := by
  unfold chunk
  dsimp only
  split_ifs <;> decide

/-- A byte below 0x80 is part of no longer character. -/
theorem second_ascii (first : UInt8) {byte : UInt8} (h : byte.toNat < 0x80) :
    second first byte = false := by
  have hlow : ∀ low high, 0x80 ≤ low → between low high byte = false := by
    intro low high hle
    simp only [between, decide_eq_false_iff_not]
    omega
  unfold second
  split_ifs <;> exact hlow _ _ (by decide)

theorem continuation_ascii {byte : UInt8} (h : byte.toNat < 0x80) : continuation byte = false := by
  simp only [continuation, between, decide_eq_false_iff_not]
  omega

/-- The first chunk of some bytes does not depend on a byte below 0x80 behind them. -/
theorem chunk_append {front rest : List UInt8} {byte : UInt8} (hbyte : byte.toNat < 0x80)
    (hfront : front ≠ []) : chunk (front ++ byte :: rest) = chunk front := by
  have hsecond := fun first => second_ascii first hbyte
  have hcont := continuation_ascii hbyte
  have hsecond₀ := fun first => second_ascii first (show (0 : UInt8).toNat < 0x80 by decide)
  have hcont₀ := continuation_ascii (show (0 : UInt8).toNat < 0x80 by decide)
  match front with
  | [a] => simp [chunk, byteAt, hsecond, hsecond₀]
  | [a, b] => simp [chunk, byteAt, hcont, hcont₀]
  | [a, b, c] => simp [chunk, byteAt, hcont, hcont₀]
  | a :: b :: c :: d :: front => simp [chunk, byteAt]

/-! ### Decoding -/

/-- U+FFFD. -/
def replacement : List UInt8 := [0xEF, 0xBF, 0xBD]

/-- `String::from_utf8_lossy`, with at most `fuel` chunks. -/
def decode : (fuel : Nat) → List UInt8 → List UInt8
  | 0, _ => []
  | _ + 1, [] => []
  | fuel + 1, byte :: bytes =>
    let (length, valid) := chunk (byte :: bytes)
    (if valid then (byte :: bytes).take length else replacement) ++
      decode fuel ((byte :: bytes).drop length)

/-- `String::from_utf8_lossy`: there are no more chunks than bytes. -/
def fromUtf8Lossy (bytes : List UInt8) : List UInt8 := decode bytes.length bytes

@[simp] theorem decode_nil (fuel : Nat) : decode fuel [] = [] := by cases fuel <;> rfl

theorem decode_cons (fuel : Nat) {bytes : List UInt8} (h : bytes ≠ []) :
    decode (fuel + 1) bytes =
      (if (chunk bytes).2 then bytes.take (chunk bytes).1 else replacement) ++
        decode fuel (bytes.drop (chunk bytes).1) := by
  cases bytes with
  | nil => exact absurd rfl h
  | cons byte bytes => rfl

/-- More fuel than bytes is not needed. -/
theorem decode_eq {n m : Nat} {bytes : List UInt8} (hn : bytes.length ≤ n)
    (hm : bytes.length ≤ m) : decode n bytes = decode m bytes := by
  induction n generalizing m bytes with
  | zero =>
    have hnil : bytes = [] := List.length_eq_zero_iff.mp (by omega)
    rw [hnil, decode_nil, decode_nil]
  | succ n ih =>
    by_cases hnil : bytes = []
    · rw [hnil, decode_nil, decode_nil]
    · have hlen := List.length_pos_iff.mpr hnil
      have hpos := chunk_pos bytes
      obtain ⟨m, rfl⟩ : ∃ k, m = k + 1 := ⟨m - 1, by omega⟩
      rw [decode_cons _ hnil, decode_cons _ hnil]
      congr 1
      apply ih
      · rw [List.length_drop]
        omega
      · rw [List.length_drop]
        omega

@[simp] theorem fromUtf8Lossy_nil : fromUtf8Lossy [] = [] := rfl

/-- The first chunk, and what comes after it. -/
theorem fromUtf8Lossy_eq {bytes : List UInt8} (h : bytes ≠ []) :
    fromUtf8Lossy bytes =
      (if (chunk bytes).2 then bytes.take (chunk bytes).1 else replacement) ++
        fromUtf8Lossy (bytes.drop (chunk bytes).1) := by
  have hrest : (bytes.drop (chunk bytes).1).length ≤ bytes.length := by
    rw [List.length_drop]
    omega
  unfold fromUtf8Lossy
  rw [decode_eq (Nat.le_refl _) (Nat.le_succ _), decode_cons _ h, decode_eq hrest (Nat.le_refl _)]

/-- An induction over chunks. -/
theorem chunk_induction {P : List UInt8 → Prop} (hnil : P [])
    (hchunk : ∀ bytes, bytes ≠ [] → P (bytes.drop (chunk bytes).1) → P bytes) (bytes : List UInt8) :
    P bytes := by
  generalize hlen : bytes.length = n
  induction n using Nat.strongRecOn generalizing bytes with
  | ind n ih =>
    by_cases h : bytes = []
    · rw [h]
      exact hnil
    · have hlength := List.length_pos_iff.mpr h
      have hpos := chunk_pos bytes
      apply hchunk bytes h
      refine ih _ ?_ _ rfl
      rw [List.length_drop]
      omega

/-- A byte that is not 0 stands before the end. -/
theorem lt_length_of_byteAt {bytes : List UInt8} {i : Nat} {p : UInt8 → Bool} (hzero : p 0 = false)
    (h : p (byteAt bytes i) = true) : i < bytes.length := by
  by_contra hge
  have hbyte : byteAt bytes i = 0 := by
    unfold byteAt
    rw [List.getElem?_eq_none (by omega), Option.getD_none]
  rw [hbyte, hzero] at h
  cases h

/-- The first chunk ends where the bytes do, or before. -/
theorem chunk_le {bytes : List UInt8} (h : bytes ≠ []) : (chunk bytes).1 ≤ bytes.length := by
  have hone := List.length_pos_iff.mpr h
  have hzero : (0 : UInt8).toNat < 0x80 := by decide
  have hcont : ∀ i, continuation (byteAt bytes i) = true → i < bytes.length := fun i =>
    lt_length_of_byteAt (continuation_ascii hzero)
  unfold chunk
  dsimp only
  split_ifs with _ _ hsecond _ hthird _ hfourth
  · exact hone
  · exact hone
  · exact lt_length_of_byteAt (second_ascii _ hzero) hsecond
  · exact hcont 2 hthird
  · exact hcont 3 hfourth
  · exact hcont 2 hthird
  · exact lt_length_of_byteAt (second_ascii _ hzero) hsecond
  · exact hone

/-- **A byte below 0x80 separates** what is decoded. -/
theorem fromUtf8Lossy_append {byte : UInt8} (hbyte : byte.toNat < 0x80) (front rest : List UInt8) :
    fromUtf8Lossy (front ++ byte :: rest) =
      fromUtf8Lossy front ++ byte :: fromUtf8Lossy rest := by
  induction front using chunk_induction with
  | hnil =>
    have hone : chunk (byte :: rest) = (1, true) := by
      have hwidth : charWidth byte = 1 := by
        unfold charWidth between
        rw [if_pos (by simp; omega)]
      simp [chunk, byteAt, hwidth]
    rw [List.nil_append, fromUtf8Lossy_eq (by simp), hone]
    simp
  | hchunk front hne ih =>
    have hle := chunk_le hne
    rw [fromUtf8Lossy_eq (by simp), fromUtf8Lossy_eq hne, chunk_append hbyte hne,
      List.drop_append_of_le_length hle, List.take_append_of_le_length hle, ih, List.append_assoc]

/-- Decoding does not lose everything. -/
theorem fromUtf8Lossy_ne_nil {bytes : List UInt8} (h : bytes ≠ []) : fromUtf8Lossy bytes ≠ [] := by
  have hpos := chunk_pos bytes
  have hlen := List.length_pos_iff.mpr h
  rw [fromUtf8Lossy_eq h]
  intro hnil
  have hfirst := (List.append_eq_nil_iff.mp hnil).1
  split at hfirst
  · have hlength := congrArg List.length hfirst
    rw [List.length_take, List.length_nil] at hlength
    omega
  · cases hfirst

/-- Decoding makes no byte below 0x80. -/
theorem mem_of_mem_fromUtf8Lossy {byte : UInt8} (hbyte : byte.toNat < 0x80) {bytes : List UInt8}
    (h : byte ∈ fromUtf8Lossy bytes) : byte ∈ bytes := by
  induction bytes using chunk_induction with
  | hnil => exact h
  | hchunk bytes hne ih =>
    rw [fromUtf8Lossy_eq hne] at h
    rcases List.mem_append.mp h with hfirst | hrest
    · split at hfirst
      · exact List.mem_of_mem_take hfirst
      · exfalso
        simp only [replacement, List.mem_cons, List.not_mem_nil, or_false] at hfirst
        rcases hfirst with rfl | rfl | rfl <;> revert hbyte <;> decide
    · exact List.mem_of_mem_drop (ih hrest)

/-! ### Valid strings -/

section Characters
variable {a b c d : UInt8} {rest : List UInt8}

/-- A byte below 0x80 is a character. -/
theorem chunk_one (hwidth : charWidth a = 1) : chunk (a :: rest) = (1, true) := by
  simp [chunk, byteAt, hwidth]

theorem chunk_two (hwidth : charWidth a = 2) (hsecond : second a b = true) :
    chunk (a :: b :: rest) = (2, true) := by
  simp [chunk, byteAt, hwidth, hsecond]

theorem chunk_three (hwidth : charWidth a = 3) (hsecond : second a b = true)
    (hthird : continuation c = true) : chunk (a :: b :: c :: rest) = (3, true) := by
  simp [chunk, byteAt, hwidth, hsecond, hthird]

theorem chunk_four (hwidth : charWidth a = 4) (hsecond : second a b = true)
    (hthird : continuation c = true) (hfourth : continuation d = true) :
    chunk (a :: b :: c :: d :: rest) = (4, true) := by
  simp [chunk, byteAt, hwidth, hsecond, hthird, hfourth]

end Characters

theorem toNat_ofNat_u8 {n : Nat} (h : n < 256) : (UInt8.ofNat n).toNat = n := by
  rw [UInt8.toNat_ofNat']
  exact Nat.mod_eq_of_lt h

/-- The second byte excludes what a shorter character encodes, the surrogates, and what is above
    the last character. -/
theorem second_ofNat {n m : Nat} (hn : n < 256) (hm : 0x80 ≤ m ∧ m ≤ 0xBF)
    (hshort : n = 0xE0 → 0xA0 ≤ m) (hsurrogate : n = 0xED → m ≤ 0x9F)
    (hshort' : n = 0xF0 → 0x90 ≤ m) (hlast : n = 0xF4 → m ≤ 0x8F) :
    second (UInt8.ofNat n) (UInt8.ofNat m) = true := by
  have hne : ∀ k : Nat, k < 256 → (UInt8.ofNat n = UInt8.ofNat k ↔ n = k) := by
    intro k hk
    rw [← UInt8.toNat_inj, toNat_ofNat_u8 hn, toNat_ofNat_u8 hk]
  have hbetween : ∀ low high, low ≤ m → m ≤ high →
      between low high (UInt8.ofNat m) = true := by
    intro low high hlow hhigh
    simp [between, toNat_ofNat_u8 (show m < 256 by omega), hlow, hhigh]
  unfold second
  split_ifs with h₁ h₂ h₃ h₄
  · exact hbetween _ _ (hshort ((hne 0xE0 (by decide)).mp h₁)) hm.2
  · exact hbetween _ _ hm.1 (hsurrogate ((hne 0xED (by decide)).mp h₂))
  · exact hbetween _ _ (hshort' ((hne 0xF0 (by decide)).mp h₃)) hm.2
  · exact hbetween _ _ hm.1 (hlast ((hne 0xF4 (by decide)).mp h₄))
  · exact hbetween _ _ hm.1 hm.2

/-- A character at the front is a chunk. -/
theorem chunk_utf8EncodeChar (c : Char) (rest : List UInt8) :
    chunk (String.utf8EncodeChar c ++ rest) = ((String.utf8EncodeChar c).length, true) := by
  have hvalid := c.valid
  unfold UInt32.isValidChar Nat.isValidChar at hvalid
  unfold String.utf8EncodeChar
  dsimp only
  generalize c.val.toNat = v at hvalid
  have hwidth : ∀ n < 256, charWidth (UInt8.ofNat n) =
      if n ≤ 0x7F then 1 else if 0xC2 ≤ n ∧ n ≤ 0xDF then 2
      else if 0xE0 ≤ n ∧ n ≤ 0xEF then 3 else if 0xF0 ≤ n ∧ n ≤ 0xF4 then 4 else 0 := by
    intro n hn
    simp [charWidth, between, toNat_ofNat_u8 hn]
  have hcont : ∀ n, continuation (UInt8.ofNat (n % 64 + 128)) = true := by
    intro n
    simp only [continuation, between, toNat_ofNat_u8 (show n % 64 + 128 < 256 by omega),
      decide_eq_true_eq]
    omega
  -- the lengths of the encoding
  split_ifs with h₁ h₂ h₃
  · apply chunk_one
    rw [hwidth v (by omega), if_pos h₁]
  · apply chunk_two
    · rw [hwidth _ (by omega), if_neg (by omega), if_pos (by omega)]
    · apply second_ofNat <;> omega
  · apply chunk_three
    · rw [hwidth _ (by omega), if_neg (by omega), if_neg (by omega), if_pos (by omega)]
    · apply second_ofNat <;> omega
    · exact hcont v
  · apply chunk_four
    · rw [hwidth _ (by omega), if_neg (by omega), if_neg (by omega), if_neg (by omega),
        if_pos (by omega)]
    · apply second_ofNat <;> omega
    · exact hcont (v / 64)
    · exact hcont v

/-- The bytes are those of a string of characters. -/
def Valid (bytes : List UInt8) : Prop :=
  ∃ chars : List Char, bytes = chars.flatMap String.utf8EncodeChar

/-- **Valid strings are kept.** -/
theorem Valid.fromUtf8Lossy {bytes : List UInt8} (h : Valid bytes) :
    fromUtf8Lossy bytes = bytes := by
  obtain ⟨chars, rfl⟩ := h
  induction chars with
  | nil => rfl
  | cons c chars ih =>
    have hne : String.utf8EncodeChar c ++ chars.flatMap String.utf8EncodeChar ≠ [] := by
      simp [String.utf8EncodeChar_ne_nil]
    rw [List.flatMap_cons, fromUtf8Lossy_eq hne, chunk_utf8EncodeChar]
    dsimp only
    rw [if_pos rfl, List.take_left, List.drop_left, ih]

end Utf8

end Framework
