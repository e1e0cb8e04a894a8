import Zippity.Framework.Exec
import Mathlib.Data.List.Basic

/-! # Output buffers

    `ReadBuf` is the buffer a poll function appends to: the bytes filled so far
    and the capacity of the allocation.  Both bounds are fields, so a buffer
    filled beyond its capacity, or larger than an allocation can be, does not
    exist.
-/

namespace Framework

/-- Bytes answered for `room` free bytes. -/
abbrev Filling (room : Nat) := { bytes : List UInt8 // bytes.length ≤ room }

/-- A partly filled buffer. -/
structure ReadBuf where
  filled : List UInt8
  capacity : Nat
  /-- What is filled fits. -/
  fits : filled.length ≤ capacity
  /-- An allocation has at most `isize::MAX` bytes. -/
  allocated : capacity < 2 ^ 63
  deriving DecidableEq, Repr

namespace ReadBuf

/-- An empty buffer. -/
def new (capacity : Nat) (h : capacity < 2 ^ 63 := by decide) : ReadBuf :=
  ⟨[], capacity, Nat.zero_le _, h⟩

/-- `ReadBuf::remaining`. -/
def remaining (buf : ReadBuf) : Nat :=
  buf.capacity - buf.filled.length

/-- Append bytes that fit. -/
def append (buf : ReadBuf) (bytes : List UInt8) (h : bytes.length ≤ buf.remaining) : ReadBuf where
  filled := buf.filled ++ bytes
  capacity := buf.capacity
  fits := by
    have := buf.fits
    simp only [remaining, List.length_append] at *
    omega
  allocated := buf.allocated

/-- `ReadBuf::put_slice`, with its assertion that the bytes fit. -/
def putSlice (buf : ReadBuf) (bytes : List UInt8) : Exec ReadBuf :=
  if h : bytes.length ≤ buf.remaining then .ok (buf.append bytes h) else .error .assertFailed

@[simp] theorem filled_new {n : Nat} (h : n < 2 ^ 63) : (new n h).filled = [] := rfl

@[simp] theorem remaining_new {n : Nat} (h : n < 2 ^ 63) : (new n h).remaining = n := rfl

@[simp] theorem filled_append {buf : ReadBuf} {bytes : List UInt8}
    (h : bytes.length ≤ buf.remaining) : (buf.append bytes h).filled = buf.filled ++ bytes := rfl

@[simp] theorem capacity_append {buf : ReadBuf} {bytes : List UInt8}
    (h : bytes.length ≤ buf.remaining) : (buf.append bytes h).capacity = buf.capacity := rfl

@[simp] theorem remaining_append {buf : ReadBuf} {bytes : List UInt8}
    (h : bytes.length ≤ buf.remaining) :
    (buf.append bytes h).remaining = buf.remaining - bytes.length := by
  simp only [remaining, filled_append, capacity_append, List.length_append]
  omega

theorem remaining_lt (buf : ReadBuf) : buf.remaining < 2 ^ 63 := by
  have := buf.allocated
  unfold remaining
  omega

theorem putSlice_eq {buf : ReadBuf} {bytes : List UInt8} (h : bytes.length ≤ buf.remaining) :
    buf.putSlice bytes = .ok (buf.append bytes h) := by
  simp [putSlice, h]

theorem wp_putSlice {F : Fault → Prop} {Q : ReadBuf → Prop} {buf : ReadBuf} {bytes : List UInt8}
    (hF : F .assertFailed) (hQ : ∀ h, Q (buf.append bytes h)) : Exec.wp F Q (buf.putSlice bytes) := by
  unfold putSlice
  split
  · next h => exact hQ h
  · exact hF

/-! ### Growth

    `Extends buf bytes buf'` is what one or more appends do to a buffer. -/

/-- `buf'` is `buf` with `bytes` appended. -/
structure Extends (buf : ReadBuf) (bytes : List UInt8) (buf' : ReadBuf) : Prop where
  filled : buf'.filled = buf.filled ++ bytes
  capacity : buf'.capacity = buf.capacity

namespace Extends

variable {buf buf' buf'' : ReadBuf} {bytes bytes' : List UInt8}

theorem refl (buf : ReadBuf) : Extends buf [] buf := ⟨by simp, rfl⟩

theorem append (h : bytes.length ≤ buf.remaining) : Extends buf bytes (buf.append bytes h) :=
  ⟨rfl, rfl⟩

theorem trans (h : Extends buf bytes buf') (h' : Extends buf' bytes' buf'') :
    Extends buf (bytes ++ bytes') buf'' :=
  ⟨by rw [h'.filled, h.filled, List.append_assoc], h'.capacity.trans h.capacity⟩

/-- Appending uses up free bytes. -/
theorem remaining (h : Extends buf bytes buf') :
    buf'.remaining + bytes.length = buf.remaining := by
  have := buf'.fits
  simp only [ReadBuf.remaining, h.filled, h.capacity, List.length_append] at *
  omega

/-- Nothing was appended iff the free bytes are as many as before. -/
theorem eq_nil_iff (h : Extends buf bytes buf') :
    bytes = [] ↔ buf'.remaining = buf.remaining := by
  have := h.remaining
  rw [← List.length_eq_zero_iff]
  omega

/-- What was appended to a buffer makes up what it is. -/
theorem unique (h : Extends buf bytes buf') (h' : Extends buf bytes buf'') : buf' = buf'' := by
  obtain ⟨filled', capacity', _, _⟩ := buf'
  obtain ⟨filled'', capacity'', _, _⟩ := buf''
  obtain rfl : filled' = filled'' := h.filled.trans h'.filled.symm
  obtain rfl : capacity' = capacity'' := h.capacity.trans h'.capacity.symm
  rfl

/-- A buffer to which nothing was appended is the same buffer. -/
theorem eq_of_nil (h : Extends buf [] buf') : buf' = buf := h.unique (.refl buf)

/-- The bytes appended are those after the old filling. -/
theorem drop_filled (h : Extends buf bytes buf') :
    buf'.filled.drop buf.filled.length = bytes := by
  rw [h.filled, List.drop_left]

end Extends

end ReadBuf

end Framework
