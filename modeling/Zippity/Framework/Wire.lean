import Mathlib.Data.List.Basic
import Mathlib.Tactic.Ring

/-! # Little-endian fields and parsers

    Fixed-width little-endian numbers, and parsers of byte strings as a state
    monad that may fail.  `Parses p a bytes` says that `p` consumes exactly
    `bytes` and answers `a`, whatever follows; the rules below compose it along
    the structure of a parser, so that "decoding undoes encoding" is proved
    field by field.
-/

namespace Framework

/-! ### Little-endian numbers -/

/-- The `width` low bytes of `n`, lowest first. -/
def toLE : Nat → Nat → List UInt8
  | 0, _ => []
  | width + 1, n => UInt8.ofNat n :: toLE width (n / 256)

/-- The number whose bytes, lowest first, are given. -/
def ofLE : List UInt8 → Nat
  | [] => 0
  | b :: bs => b.toNat + 256 * ofLE bs

@[simp] theorem length_toLE (width n : Nat) : (toLE width n).length = width := by
  induction width generalizing n with
  | zero => rfl
  | succ width ih => simp [toLE, ih]

theorem ofLE_toLE {width n : Nat} (h : n < 256 ^ width) : ofLE (toLE width n) = n := by
  induction width generalizing n with
  | zero =>
    have : n = 0 := by simpa using h
    simp [toLE, ofLE, this]
  | succ width ih =>
    -- the lowest byte is the remainder, the rest the quotient
    have hdiv : n / 256 < 256 ^ width := by
      rw [Nat.div_lt_iff_lt_mul (by decide)]
      rwa [Nat.pow_succ] at h
    have hmod : (UInt8.ofNat n).toNat = n % 256 := by simp
    rw [toLE, ofLE, ih hdiv, hmod]
    omega

/-! ### Parsers -/

/-- A parser consumes a prefix of the bytes or fails. -/
abbrev Parser (α : Type) := StateT (List UInt8) Option α

namespace Parser

variable {α β : Type}

/-- The next `n` bytes. -/
def bytes (n : Nat) : Parser (List UInt8) := fun input =>
  if n ≤ input.length then some (input.take n, input.drop n) else none

/-- A little-endian number of `width` bytes. -/
def le (width : Nat) : Parser Nat := do
  let bs ← bytes width
  pure (ofLE bs)

def u16 : Parser UInt16 := do
  let n ← le 2
  pure (UInt16.ofNat n)

def u32 : Parser UInt32 := do
  let n ← le 4
  pure (UInt32.ofNat n)

def u64 : Parser UInt64 := do
  let n ← le 8
  pure (UInt64.ofNat n)

/-- Run `p` on other bytes; what it leaves of them is dropped. -/
def inside (p : Parser α) (bytes : List UInt8) : Parser α := fun input =>
  (p bytes).map fun r => (r.1, input)

/-- Fail unless `p`. -/
def check (p : Prop) [Decidable p] : Parser Unit :=
  if p then pure () else failure

/-- `n` values in a row. -/
def count : Nat → Parser α → Parser (List α)
  | 0, _ => pure []
  | n + 1, p => do
    let a ← p
    let as ← count n p
    pure (a :: as)

/-- `p` consumes exactly `bs` and answers `a`, whatever follows. -/
def Parses (p : Parser α) (a : α) (bs : List UInt8) : Prop :=
  ∀ rest, p (bs ++ rest) = some (a, rest)

theorem parses_pure (a : α) : Parses (pure a) a [] := fun _ => rfl

theorem parses_bind {p : Parser α} {f : α → Parser β} {a : α} {b : β} {bs bs' : List UInt8}
    (hp : Parses p a bs) (hf : Parses (f a) b bs') : Parses (p >>= f) b (bs ++ bs') := by
  intro rest
  rw [List.append_assoc]
  show (p (bs ++ (bs' ++ rest)) >>= fun r => f r.1 r.2) = _
  rw [hp]
  exact hf rest

/-- The last of several parsers, with its answer put to use. -/
theorem parses_map {p : Parser α} {f : α → β} {a : α} {bs : List UInt8} (h : Parses p a bs) :
    Parses (p >>= fun a => pure (f a)) (f a) bs := by
  have hf := parses_bind (f := fun a => pure (f a)) h (parses_pure (f a))
  rwa [List.append_nil] at hf

theorem parses_bytes {n : Nat} {bs : List UInt8} (h : bs.length = n) :
    Parses (bytes n) bs bs := by
  intro rest
  subst h
  simp [bytes]

theorem parses_le (width : Nat) {n : Nat} (h : n < 256 ^ width) :
    Parses (le width) n (toLE width n) := by
  have hbytes : Parses (bytes width) (toLE width n) (toLE width n) :=
    parses_bytes (length_toLE width n)
  have hval := parses_map (f := ofLE) hbytes
  rwa [ofLE_toLE h] at hval

theorem parses_u16 (x : UInt16) : Parses u16 x (toLE 2 x.toNat) := by
  have h := parses_map (f := UInt16.ofNat) (parses_le 2 x.toNat_lt)
  rwa [UInt16.ofNat_toNat] at h

theorem parses_u32 (x : UInt32) : Parses u32 x (toLE 4 x.toNat) := by
  have h := parses_map (f := UInt32.ofNat) (parses_le 4 x.toNat_lt)
  rwa [UInt32.ofNat_toNat] at h

theorem parses_u64 (x : UInt64) : Parses u64 x (toLE 8 x.toNat) := by
  have h := parses_map (f := UInt64.ofNat) (parses_le 8 x.toNat_lt)
  rwa [UInt64.ofNat_toNat] at h

theorem parses_check {p : Prop} [Decidable p] (h : p) : Parses (check p) () [] := by
  intro rest
  unfold check
  rw [if_pos h]
  rfl

/-- A check that holds does not change what the rest of a parser consumes. -/
theorem parses_check_bind {p : Prop} [Decidable p] {f : Unit → Parser β} {b : β}
    {bs : List UInt8} (h : p) (hf : Parses (f ()) b bs) : Parses (check p >>= f) b bs :=
  parses_bind (parses_check h) hf

theorem parses_count {p : Parser α} {as : List α} {parts : List (List UInt8)}
    (h : List.Forall₂ (Parses p) as parts) :
    Parses (count as.length p) as parts.flatten := by
  -- by induction on the values, each with its bytes
  induction h with
  | nil => exact parses_pure []
  | @cons a bs as parts ha _ ih =>
    have htail := parses_map (f := fun as' => a :: as') ih
    exact parses_bind (f := fun a => count as.length p >>= fun as' => pure (a :: as')) ha htail

/-- The answer of a parser on the bytes it consumes, with nothing after them. -/
theorem Parses.run {p : Parser α} {a : α} {bs : List UInt8} (h : Parses p a bs) :
    p bs = some (a, []) := by
  simpa using h []

theorem parses_inside {p : Parser α} {a : α} {bs : List UInt8} (h : Parses p a bs) :
    Parses (inside p bs) a [] := by
  intro rest
  simp [inside, h.run]

end Parser

end Framework
