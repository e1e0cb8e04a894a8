import Zippity.Framework.Exec

/-! # Poll functions

    A poll function answers `Poll<Result<T>>` and mutates the state it borrows:
    `Async ε σ α` is a state transformer whose answer is `pending`, an error or
    a value.  Its `bind` is the `ready!(..)?` of the source: on `pending` and on
    an error the rest is not run, and the state stays as the callee left it.

    `Async.wp F Q` is the weakest precondition with a postcondition `Q` on the
    answer and the final state together, so that suspension and failure have
    their own postconditions.
-/

namespace Framework

/-- `Poll<Result<T, ε>>`. -/
inductive PollResult (ε α : Type) where
  | pending
  | err (e : ε)
  | ok (a : α)
  deriving DecidableEq, Repr

/-- The answer with `f` of its value. -/
def PollResult.map {ε α β : Type} (f : α → β) : PollResult ε α → PollResult ε β
  | .pending => .pending
  | .err e => .err e
  | .ok a => .ok (f a)

/-- The answer is no error. -/
def NoError {ε α : Type} (r : PollResult ε α) : Prop := ∀ e, r ≠ .err e

/-- A poll function over the state `σ`. -/
def Async (ε σ α : Type) : Type := σ → Exec (PollResult ε α × σ)

namespace Async

variable {ε σ τ α β : Type}

/-! ### Operations -/

/-- Run `f` on the value of `x`, unless `x` is pending or failed. -/
protected def bind (x : Async ε σ α) (f : α → Async ε σ β) : Async ε σ β := fun s =>
  match x s with
  | .ok (.ok a, s') => f a s'
  | .ok (.err e, s') => .ok (.err e, s')
  | .ok (.pending, s') => .ok (.pending, s')
  | .error fault => .error fault

instance : Monad (Async ε σ) where
  pure a := fun s => .ok (.ok a, s)
  bind := Async.bind

/-- The state borrowed. -/
def get : Async ε σ σ := fun s => .ok (.ok s, s)

/-- Mutate the state borrowed. -/
def modify (f : σ → σ) : Async ε σ Unit := fun s => .ok (.ok (), f s)

/-- `return Poll::Pending`. -/
def pending : Async ε σ α := fun s => .ok (.pending, s)

/-- `return Poll::Ready(Err(e))`. -/
def throw (e : ε) : Async ε σ α := fun s => .ok (.err e, s)

/-- Stop with a fault. -/
def fault (f : Fault) : Async ε σ α := fun _ => .error f

/-- A call that does not poll anything. -/
def lift (x : Exec α) : Async ε σ α := fun s => x.map fun a => (.ok a, s)

/-- The answer of `x` as a value, for a `match` on it. -/
def answer (x : Async ε σ α) : Async ε σ (PollResult ε α) := fun s =>
  x s |>.map fun (r, s') => (.ok r, s')

/-- Run `x` on the part of the state that `view` borrows and write it back. -/
def zoom (view : σ → Exec τ) (put : τ → σ → σ) (x : Async ε τ α) : Async ε σ α := fun s => do
  let t ← view s
  let (r, t') ← x t
  .ok (r, put t' s)

/-! ### Laws -/

@[simp] theorem pure_bind (a : α) (f : α → Async ε σ β) : (pure a >>= f) = f a := rfl

@[simp] theorem lift_ok (a : α) : (lift (.ok a) : Async ε σ α) = pure a := rfl

@[simp] theorem get_bind_apply (f : σ → Async ε σ β) (s : σ) : (get >>= f) s = f s s := rfl

@[simp] theorem modify_bind_apply (g : σ → σ) (f : Unit → Async ε σ β) (s : σ) :
    (modify g >>= f) s = f () (g s) := rfl

/-- After a call that answered a value the rest is run. -/
theorem bind_apply_of_ok {x : Async ε σ α} {a : α} {s s' : σ} (h : x s = .ok (.ok a, s'))
    (f : α → Async ε σ β) : (x >>= f) s = f a s' := by
  show Async.bind x f s = f a s'
  rw [Async.bind, h]

theorem bind_pure (x : Async ε σ α) : x >>= pure = x := by
  funext s
  show Async.bind x pure s = x s
  unfold Async.bind
  match x s with
  | .ok (.ok _, _) => rfl
  | .ok (.err _, _) => rfl
  | .ok (.pending, _) => rfl
  | .error _ => rfl

theorem bind_assoc {γ : Type} (x : Async ε σ α) (f : α → Async ε σ β) (g : β → Async ε σ γ) :
    x >>= f >>= g = x >>= fun a => f a >>= g := by
  funext s
  show Async.bind (Async.bind x f) g s = Async.bind x (fun a => Async.bind (f a) g) s
  unfold Async.bind
  match x s with
  | .ok (.ok _, _) => rfl
  | .ok (.err _, _) => rfl
  | .ok (.pending, _) => rfl
  | .error _ => rfl

/-! ### Weakest preconditions -/

/-- From `s`, `x` stops only with faults in `F`, and answers and leaves a state in `Q`. -/
def wp (x : Async ε σ α) (F : Fault → Prop) (Q : PollResult ε α → σ → Prop) (s : σ) : Prop :=
  Exec.wp F (fun (r, s') => Q r s') (x s)

/-- The postcondition of the first part of a `bind`: a value is passed on, `pending` and an
    error are the answer of the whole. -/
def andThen (F : Fault → Prop) (Q : PollResult ε β → σ → Prop) (f : α → Async ε σ β) :
    PollResult ε α → σ → Prop
  | .ok a, s => (f a).wp F Q s
  | .err e, s => Q (.err e) s
  | .pending, s => Q .pending s

variable {F F' : Fault → Prop} {Q Q' : PollResult ε α → σ → Prop} {s : σ}

@[simp] theorem wp_pure (a : α) : (pure a : Async ε σ α).wp F Q s ↔ Q (.ok a) s := Iff.rfl

@[simp] theorem wp_pending : (pending : Async ε σ α).wp F Q s ↔ Q .pending s := Iff.rfl

@[simp] theorem wp_throw (e : ε) : (throw e : Async ε σ α).wp F Q s ↔ Q (.err e) s := Iff.rfl

@[simp] theorem wp_fault (f : Fault) : (fault f : Async ε σ α).wp F Q s ↔ F f := Iff.rfl

@[simp] theorem wp_get {Q : PollResult ε σ → σ → Prop} :
    (get : Async ε σ σ).wp F Q s ↔ Q (.ok s) s := Iff.rfl

@[simp] theorem wp_modify {Q : PollResult ε Unit → σ → Prop} (f : σ → σ) :
    (modify f : Async ε σ Unit).wp F Q s ↔ Q (.ok ()) (f s) := Iff.rfl

theorem wp_bind {x : Async ε σ α} {f : α → Async ε σ β} {Q : PollResult ε β → σ → Prop} :
    (x >>= f).wp F Q s ↔ x.wp F (andThen F Q f) s := by
  show Exec.wp F _ (Async.bind x f s) ↔ Exec.wp F _ (x s)
  unfold Async.bind
  match x s with
  | .ok (.ok _, _) => rfl
  | .ok (.err _, _) => rfl
  | .ok (.pending, _) => rfl
  | .error _ => rfl

@[simp] theorem wp_get_bind {f : σ → Async ε σ β} {Q : PollResult ε β → σ → Prop} :
    (get >>= f).wp F Q s ↔ (f s).wp F Q s := wp_bind

@[simp] theorem wp_modify_bind {g : σ → σ} {f : Unit → Async ε σ β}
    {Q : PollResult ε β → σ → Prop} :
    (modify g >>= f).wp F Q s ↔ (f ()).wp F Q (g s) := wp_bind

@[simp] theorem wp_pure_bind {a : α} {f : α → Async ε σ β} {Q : PollResult ε β → σ → Prop} :
    (pure a >>= f).wp F Q s ↔ (f a).wp F Q s := wp_bind

theorem wp_lift {x : Exec α} :
    (lift x : Async ε σ α).wp F Q s ↔ x.wp F (fun a => Q (.ok a) s) := by
  cases x <;> rfl

theorem wp_answer {x : Async ε σ α} {Q : PollResult ε (PollResult ε α) → σ → Prop} :
    (answer x).wp F Q s ↔ x.wp F (fun r s' => Q (.ok r) s') s := by
  show Exec.wp F _ ((x s).map _) ↔ Exec.wp F _ (x s)
  match x s with
  | .ok (_, _) => rfl
  | .error _ => rfl

theorem wp_zoom {view : σ → Exec τ} {put : τ → σ → σ} {x : Async ε τ α} :
    (zoom view put x).wp F Q s ↔
      (view s).wp F (fun t => x.wp F (fun r t' => Q r (put t' s)) t) := by
  unfold wp zoom
  rw [Exec.wp_bind]
  cases view s with
  | error f => rfl
  | ok t =>
    simp only [Exec.wp_ok, Exec.wp_bind]

/-- The rule of consequence. -/
theorem wp_mono {x : Async ε σ α} (h : x.wp F Q s) (hF : ∀ f, F f → F' f)
    (hQ : ∀ r s', Q r s' → Q' r s') : x.wp F' Q' s :=
  Exec.wp_mono h hF fun _ hr => hQ _ _ hr

/-- Whatever holds of every result holds of a run. -/
theorem wp_of_forall {x : Async ε σ α} (h : ∀ r s', Q r s') : x.wp (fun _ => True) Q s := by
  unfold wp
  cases x s with
  | error f => trivial
  | ok result => exact h result.1 result.2

/-- A postcondition may refer to the run it is about. -/
theorem wp_run {x : Async ε σ α} (h : x.wp F (fun r s' => x s = .ok (r, s') → Q r s') s) :
    x.wp F Q s := by
  unfold wp at *
  match hx : x s with
  | .ok (_, _) => rw [hx] at h; exact h rfl
  | .error _ => rw [hx] at h; exact h

/-! ### Frames

    What a call leaves as it is, whether it stops or not. -/

/-- `x` leaves the part `view` of the state as it is. -/
def Keeps (view : σ → τ) (x : Async ε σ α) : Prop :=
  ∀ s, x.wp (fun _ => True) (fun _ s' => view s' = view s) s

section Keeps
variable {view : σ → τ}

theorem keeps_get : Keeps view (get : Async ε σ σ) := fun _ => rfl

theorem keeps_pure (a : α) : Keeps view (pure a : Async ε σ α) := fun _ => rfl

theorem keeps_throw (e : ε) : Keeps view (throw e : Async ε σ α) := fun _ => rfl

theorem keeps_pending : Keeps view (pending : Async ε σ α) := fun _ => rfl

theorem keeps_fault (f : Fault) : Keeps view (fault f : Async ε σ α) := fun _ => trivial

theorem keeps_lift (x : Exec α) : Keeps view (lift x : Async ε σ α) := by
  intro s
  rw [wp_lift]
  cases x with
  | ok a => rfl
  | error f => trivial

theorem keeps_modify {f : σ → σ} (h : ∀ s, view (f s) = view s) :
    Keeps view (modify f : Async ε σ Unit) := h

theorem Keeps.bind {x : Async ε σ α} {f : α → Async ε σ β} (hx : Keeps view x)
    (hf : ∀ a, Keeps view (f a)) : Keeps view (x >>= f) := by
  intro s
  rw [wp_bind]
  refine wp_mono (hx s) (fun _ hf => hf) ?_
  intro r s' hsame
  cases r with
  | ok a => exact wp_mono (hf a s') (fun _ h => h) fun _ _ h => h.trans hsame
  | err e => exact hsame
  | pending => exact hsame

theorem Keeps.get_bind {f : σ → Async ε σ β} (hf : ∀ s, Keeps view (f s)) :
    Keeps view (get >>= f) := keeps_get.bind hf

theorem Keeps.modify_bind {g : σ → σ} {f : Unit → Async ε σ β} (h : ∀ s, view (g s) = view s)
    (hf : Keeps view (f ())) : Keeps view (modify g >>= f) := (keeps_modify h).bind fun _ => hf

/-- What a part keeps does not change what holds of the whole. -/
theorem Keeps.after {x : Async ε σ α} (hx : Keeps view x) {P : τ → Prop} {s : σ} (h : P (view s)) :
    x.wp (fun _ => True) (fun _ s' => P (view s')) s :=
  wp_mono (hx s) (fun _ hf => hf) fun _ _ hsame => by rw [hsame]; exact h

end Keeps

/-! ### Relations between states

    How a call changes the state, whether it answers a value or not, and what
    the values it answers are like. -/

/-- `x` takes a state to one that is related to it, and answers values in `Q` only. -/
def MovesBy (R : σ → σ → Prop) (Q : α → Prop) (x : Async ε σ α) : Prop :=
  ∀ s, x.wp (fun _ => True) (fun r s' => R s s' ∧ ∀ a, r = .ok a → Q a) s

section MovesBy
variable {R : σ → σ → Prop} {Q : α → Prop}

theorem movesBy_pure (hrefl : ∀ s, R s s) {a : α} (h : Q a) :
    MovesBy R Q (pure a : Async ε σ α) := by
  intro s
  refine ⟨hrefl s, ?_⟩
  intro _ heq
  cases heq
  exact h

theorem movesBy_throw (hrefl : ∀ s, R s s) (e : ε) : MovesBy R Q (throw e : Async ε σ α) := by
  intro s
  refine ⟨hrefl s, ?_⟩
  intro _ heq
  cases heq

theorem movesBy_fault (f : Fault) : MovesBy R Q (fault f : Async ε σ α) := fun _ => trivial

/-- What comes after a call may rely on the value answered. -/
theorem MovesBy.bind (htrans : ∀ s t u, R s t → R t u → R s u) {x : Async ε σ α}
    {f : α → Async ε σ β} {P : β → Prop} (hx : MovesBy R Q x) (hf : ∀ a, Q a → MovesBy R P (f a)) :
    MovesBy R P (x >>= f) := by
  intro s
  rw [wp_bind]
  refine wp_mono (hx s) (fun _ hf => hf) ?_
  intro r s' ⟨hmoved, hvalue⟩
  cases r with
  | ok a =>
    rw [andThen]
    refine wp_mono (hf a (hvalue a rfl) s') (fun _ h => h) ?_
    intro r' s'' ⟨hmoved', hvalue'⟩
    exact ⟨htrans s s' s'' hmoved hmoved', hvalue'⟩
  | err e => exact ⟨hmoved, fun _ heq => by cases heq⟩
  | pending => exact ⟨hmoved, fun _ heq => by cases heq⟩

/-- A call that returned moved the state. -/
theorem MovesBy.of_run {x : Async ε σ α} (hx : MovesBy R Q x) {s s' : σ} {r : PollResult ε α}
    (h : x s = .ok (r, s')) : R s s' :=
  (Exec.wp_of_eq_ok (hx s) h).1

end MovesBy

/-! ### Suspension

    The states that a call is suspended in: those it leaves where it answers
    `Pending`. -/

/-- `x` answers `Pending` only in states in `P`. -/
def PendsIn (P : σ → Prop) (x : Async ε σ α) : Prop :=
  ∀ s, x.wp (fun _ => True) (fun r s' => r = .pending → P s') s

section PendsIn
variable {P : σ → Prop}

theorem pendsIn_get : PendsIn P (get : Async ε σ σ) := fun _ h => by cases h

theorem pendsIn_pure (a : α) : PendsIn P (pure a : Async ε σ α) := fun _ h => by cases h

theorem pendsIn_fault (f : Fault) : PendsIn P (fault f : Async ε σ α) := fun _ => trivial

theorem pendsIn_modify (f : σ → σ) : PendsIn P (modify f : Async ε σ Unit) :=
  fun _ h => by cases h

theorem pendsIn_lift (x : Exec α) : PendsIn P (lift x : Async ε σ α) := by
  intro s
  rw [wp_lift]
  cases x with
  | ok a => exact fun h => by cases h
  | error f => trivial

/-- A sequence is suspended where one of its calls is. -/
theorem PendsIn.bind {x : Async ε σ α} {f : α → Async ε σ β} (hx : PendsIn P x)
    (hf : ∀ a, PendsIn P (f a)) : PendsIn P (x >>= f) := by
  intro s
  rw [wp_bind]
  refine wp_mono (hx s) (fun _ hf => hf) ?_
  intro r s' hpends
  cases r with
  | ok a => exact hf a s'
  | err e => exact fun h => by cases h
  | pending => exact fun _ => hpends rfl

/-- A call on a part of the state is suspended where it is as a call on the part. -/
theorem PendsIn.zoom {view : σ → Exec τ} {put : τ → σ → σ} {x : Async ε τ α} {Q : τ → Prop}
    (hx : PendsIn Q x) (hput : ∀ t s, Q t → P (put t s)) : PendsIn P (zoom view put x) := by
  intro s
  rw [wp_zoom]
  cases view s with
  | error f => trivial
  | ok t => exact wp_mono (hx t) (fun _ hf => hf) fun _ t' hpends h => hput t' s (hpends h)

/-- A call that returned `Pending` left a state it is suspended in. -/
theorem PendsIn.of_run {x : Async ε σ α} (hx : PendsIn P x) {s s' : σ}
    (h : x s = .ok (.pending, s')) : P s' :=
  Exec.wp_of_eq_ok (hx s) h rfl

end PendsIn

/-! ### Changes up to a suspension

    How a call changes a part of the state, and how where it answers
    `Pending`. -/

/-- `x` changes the part `view` of the state by `R`, and by `S` where it answers `Pending`. -/
def Changes (view : σ → τ) (R S : τ → τ → Prop) (x : Async ε σ α) : Prop :=
  ∀ s, x.wp (fun _ => True) (fun r s' => R (view s) (view s') ∧ (r = .pending → S (view s) (view s')))
    s

/-- Relations by which sequences of calls change a part of the state, if the calls do. -/
structure ChangeRelations (R S : τ → τ → Prop) : Prop where
  refl : ∀ a, R a a
  trans : ∀ a b c, R a b → R b c → R a c
  /-- What was done before a suspension is part of it. -/
  after : ∀ a b c, R a b → S b c → S a c

section Changes
variable {view : σ → τ} {R S : τ → τ → Prop}

namespace ChangeRelations

/-- A call that keeps the part, and is not pending. -/
theorem keep {x : Async ε σ α} (h : ChangeRelations R S)
    (hx : ∀ s, x.wp (fun _ => True) (fun r s' => view s' = view s ∧ r ≠ .pending) s) :
    Changes view R S x := by
  intro s
  refine wp_mono (hx s) (fun _ hf => hf) ?_
  rintro r s' ⟨hsame, hne⟩
  rw [hsame]
  exact ⟨h.refl _, fun hpending => absurd hpending hne⟩

theorem get (h : ChangeRelations R S) : Changes view R S (get : Async ε σ σ) :=
  h.keep fun _ => ⟨rfl, fun heq => by cases heq⟩

theorem pure (h : ChangeRelations R S) (a : α) : Changes view R S (pure a : Async ε σ α) :=
  h.keep fun _ => ⟨rfl, fun heq => by cases heq⟩

theorem throw (h : ChangeRelations R S) (e : ε) : Changes view R S (throw e : Async ε σ α) :=
  h.keep fun _ => ⟨rfl, fun heq => by cases heq⟩

theorem fault (_ : ChangeRelations R S) (f : Fault) : Changes view R S (fault f : Async ε σ α) :=
  fun _ => trivial

theorem lift (h : ChangeRelations R S) (x : Exec α) : Changes view R S (lift x : Async ε σ α) := by
  apply h.keep
  intro s
  rw [wp_lift]
  cases x with
  | ok a => exact ⟨rfl, fun heq => by cases heq⟩
  | error f => trivial

theorem modify (_ : ChangeRelations R S) {f : σ → σ} (hf : ∀ s, R (view s) (view (f s))) :
    Changes view R S (modify f : Async ε σ Unit) :=
  fun s => ⟨hf s, fun heq => by cases heq⟩

theorem bind (h : ChangeRelations R S) {x : Async ε σ α} {f : α → Async ε σ β}
    (hx : Changes view R S x) (hf : ∀ a, Changes view R S (f a)) : Changes view R S (x >>= f) := by
  intro s
  rw [wp_bind]
  refine wp_mono (hx s) (fun _ hf => hf) ?_
  rintro r s' ⟨hmoved, hpends⟩
  cases r with
  | ok a =>
    rw [andThen]
    refine wp_mono (hf a s') (fun _ hf => hf) ?_
    rintro r' s'' ⟨hmoved', hpends'⟩
    exact ⟨h.trans _ _ _ hmoved hmoved', fun heq => h.after _ _ _ hmoved (hpends' heq)⟩
  | err e => exact ⟨hmoved, fun heq => by cases heq⟩
  | pending => exact ⟨hmoved, fun _ => hpends rfl⟩

end ChangeRelations

/-- A call on a part of the state that holds the view. -/
theorem Changes.zoom {σ' : Type} {view' : σ' → τ} {inner : σ → Exec σ'} {put : σ' → σ → σ}
    {x : Async ε σ' α} (hx : Changes view' R S x)
    (hinner : ∀ s t, inner s = .ok t → view' t = view s) (hput : ∀ t s, view (put t s) = view' t) :
    Changes view R S (zoom inner put x) := by
  intro s
  rw [wp_zoom]
  cases ht : inner s with
  | error f => trivial
  | ok t =>
    rw [Exec.wp_ok]
    refine wp_mono (hx t) (fun _ hf => hf) ?_
    intro r t' hmoved
    rw [hput, ← hinner s t ht]
    exact hmoved

end Changes

/-! ### Calls that stop -/

/-- From `s`, `x` stops with the fault `f`. -/
abbrev Stops (x : Async ε σ α) (f : Fault) (s : σ) : Prop :=
  x.wp (· = f) (fun _ _ => False) s

/-- What comes after a call that stops is not run. -/
theorem Stops.bind {x : Async ε σ α} {g : α → Async ε σ β} {f : Fault} (h : x.Stops f s) :
    (x >>= g).Stops f s := by
  unfold Stops
  rw [wp_bind]
  exact wp_mono h (fun _ hf => hf) (fun _ _ hfalse => hfalse.elim)

end Async

end Framework
