import Mathlib.Algebra.Group.Nat.Defs
import Mathlib.Order.Basic

/-! # Calls that may stop without returning

    `Exec α` is a call that returns an `α` or stops with a `Fault`: an
    assertion that fails, an arithmetic overflow, a loop that used up its fuel.
    `Exec.wp F Q` is its weakest precondition: the call returns only values in
    `Q` and stops only with faults in `F`.  A total-correctness statement takes
    the fuel fault alone for `F`, a partial one takes every fault.
-/

namespace Framework

/-! ### Faults -/

/-- The ways in which a call stops without returning. -/
inductive Fault where
  /-- An addition above or a subtraction below the range of the machine type. -/
  | overflow
  /-- An `assert!` that does not hold. -/
  | assertFailed
  /-- An `unreachable!` (or an `expect`) that is reached. -/
  | unreachable
  /-- An index beyond the end of a slice. -/
  | indexOutOfBounds
  /-- A future polled again after it returned `Ready`. -/
  | polledAfterCompletion
  /-- The model's bound on loop iterations, not a fault of the program. -/
  | outOfFuel
  deriving DecidableEq, Repr

/-- A call that returns or stops with a fault. -/
abbrev Exec (α : Type) := Except Fault α

namespace Exec

variable {α β : Type}

@[simp] theorem ok_bind (a : α) (f : α → Exec β) : ((.ok a : Exec α) >>= f) = f a := rfl

@[simp] theorem error_bind (e : Fault) (f : α → Exec β) :
    ((.error e : Exec α) >>= f) = .error e := rfl

@[simp] theorem bind_ok (x : Exec α) : (x >>= fun a => (.ok a : Exec α)) = x := by
  cases x <;> rfl

/-- A sequence that returns has returned from its first call. -/
theorem bind_eq_ok {x : Exec α} {f : α → Exec β} {b : β} (h : (x >>= f) = .ok b) :
    ∃ a, x = .ok a ∧ f a = .ok b := by
  cases x with
  | ok a => exact ⟨a, rfl, h⟩
  | error e => cases h

/-! ### Checked machine arithmetic -/

/-- Number of values of a `u64`. -/
def u64Bound : Nat := 2 ^ 64

/-- `a + b` on `u64`, with the overflow check on. -/
def addU64 (a b : Nat) : Exec Nat :=
  if a + b < u64Bound then .ok (a + b) else .error .overflow

/-- `a - b` on `u64`, with the overflow check on. -/
def subU64 (a b : Nat) : Exec Nat :=
  if b ≤ a then .ok (a - b) else .error .overflow

/-- `assert!(p)`. -/
def assert (p : Prop) [Decidable p] : Exec Unit :=
  if p then .ok () else .error .assertFailed

theorem addU64_eq {a b : Nat} (h : a + b < u64Bound) : addU64 a b = .ok (a + b) := by
  simp [addU64, h]

theorem subU64_eq {a b : Nat} (h : b ≤ a) : subU64 a b = .ok (a - b) := by
  simp [subU64, h]

theorem assert_eq {p : Prop} [Decidable p] (h : p) : assert p = .ok () := by
  simp [assert, h]

/-! ### Weakest preconditions -/

/-- The call stops only with faults in `F` and returns only values in `Q`. -/
def wp (F : Fault → Prop) (Q : α → Prop) : Exec α → Prop
  | .ok a => Q a
  | .error f => F f

variable {F F' : Fault → Prop} {Q Q' : α → Prop}

@[simp] theorem wp_ok (a : α) : wp F Q (.ok a) ↔ Q a := Iff.rfl

@[simp] theorem wp_pure (a : α) : wp F Q (pure a) ↔ Q a := Iff.rfl

@[simp] theorem wp_error (f : Fault) : wp F Q (.error f : Exec α) ↔ F f := Iff.rfl

theorem wp_bind {x : Exec α} {f : α → Exec β} {Q : β → Prop} :
    wp F Q (x >>= f) ↔ wp F (fun a => wp F Q (f a)) x := by
  cases x <;> rfl

theorem wp_mono {x : Exec α} (h : wp F Q x) (hF : ∀ f, F f → F' f)
    (hQ : ∀ a, Q a → Q' a) : wp F' Q' x := by
  cases x with
  | ok a => exact hQ a h
  | error f => exact hF f h

/-- A postcondition may refer to the call it is about. -/
theorem wp_run {x : Exec α} (h : wp F (fun a => x = .ok a → Q a) x) : wp F Q x := by
  cases x with
  | ok a => exact h rfl
  | error f => exact h

/-- The value a call returned lies in every postcondition of it. -/
theorem wp_of_eq_ok {x : Exec α} {a : α} (h : wp F Q x) (hx : x = .ok a) : Q a := by
  subst hx; exact h

/-- The fault a call stopped with is one of those it may stop with. -/
theorem wp_of_eq_error {x : Exec α} {f : Fault} (h : wp F Q x) (hx : x = .error f) : F f := by
  subst hx; exact h

/-- A call that may stop with no fault returns a value. -/
theorem exists_of_wp {x : Exec α} (h : wp (fun _ => False) Q x) : ∃ a, x = .ok a ∧ Q a := by
  cases x with
  | ok a => exact ⟨a, rfl, h⟩
  | error f => exact h.elim

/-- A call that may only stop with a fault does. -/
theorem eq_error_of_wp {x : Exec α} {f : Fault} (h : wp (· = f) (fun _ => False) x) :
    x = .error f := by
  cases x with
  | ok a => exact h.elim
  | error f' => exact congrArg Except.error h

theorem wp_addU64 {a b : Nat} {Q : Nat → Prop} (hF : u64Bound ≤ a + b → F .overflow)
    (hQ : a + b < u64Bound → Q (a + b)) : wp F Q (addU64 a b) := by
  unfold addU64
  split
  · next h => exact hQ h
  · next h => exact hF (Nat.le_of_not_lt h)

theorem wp_subU64 {a b : Nat} {Q : Nat → Prop} (hF : a < b → F .overflow)
    (hQ : b ≤ a → Q (a - b)) : wp F Q (subU64 a b) := by
  unfold subU64
  split
  · next h => exact hQ h
  · next h => exact hF (Nat.lt_of_not_le h)

theorem wp_assert {p : Prop} [Decidable p] {Q : Unit → Prop} (hF : ¬ p → F .assertFailed)
    (hQ : p → Q ()) : wp F Q (assert p) := by
  unfold assert
  split
  · next h => exact hQ h
  · next h => exact hF h

end Exec

end Framework
