import Mathlib.Data.List.Induction
import Zippity.Framework.System
import Zippity.Reader.Reader

/-! # The reader as a transition system

    A caller of a reader polls it, with whatever buffers and contexts, and
    seeks.  An operation records what the caller sees of it.  A `poll_read`
    that stops with a fault is no step.
-/

namespace Zippity

open Framework Exec

section Model
variable {E : EntryData} {H : Crc32Fast}

/-! ### Operations -/

/-- An operation on a reader. -/
inductive Op (E : EntryData) where
  /-- `poll_read` on `buf`, its answer and the buffer it left. -/
  | pollRead (ctx : E.Context) (buf : ReadBuf) (answer : PollResult (IoError E) Unit)
      (buf' : ReadBuf)
  /-- `seek_from_start` to an offset. -/
  | seek (offset : Nat)

/-- The reader as a transition system, from `Reader::new` on. -/
def readerSystem : System (Reader E H) (Op E) where
  init r := ∃ sizes entries, r = .new sizes entries
  step r op r' :=
    match op with
    | .pollRead ctx buf answer buf' => ∃ fuel, r.pollRead ctx fuel buf = .ok (answer, r', buf')
    | .seek offset => offset < u64Bound ∧ r.seekFromStart offset = .ok r'

/-- `Steps r ops r'`: the operations lead from `r` to `r'`. -/
abbrev Steps (r : Reader E H) (ops : List (Op E)) (r' : Reader E H) : Prop :=
  readerSystem.Run r ops r'

namespace Op

/-- The bytes an operation appended to the caller's buffer. -/
def appended : Op E → List UInt8
  | .pollRead _ buf _ buf' => buf'.filled.drop buf.filled.length
  | .seek _ => []

/-- The bytes an operation delivered: those of a `poll_read` that returned `Ready(Ok)`. -/
def delivered : Op E → List UInt8
  | .pollRead _ buf (.ok ()) buf' => buf'.filled.drop buf.filled.length
  | _ => []

/-- The logical position after an operation. -/
def advance (q : Nat) : Op E → Nat
  | .seek offset => offset
  | op => q + op.delivered.length

/-- The operation is no seek. -/
def isPoll : Op E → Bool
  | .pollRead .. => true
  | .seek _ => false

/-- The target of a seek. -/
def target : Op E → Option Nat
  | .pollRead .. => none
  | .seek offset => some offset

/-- The operation returned no error. -/
def succeeds : Op E → Bool
  | .pollRead _ _ (.err _) _ => false
  | _ => true

/-- The operation did not fail, or it appended nothing. -/
def Lossless (op : Op E) : Prop := op.succeeds = false → op.appended = []

end Op

/-- The logical position after some operations: the last seek target (0 at the start) plus the
    bytes delivered since. -/
def logicalPosition (ops : List (Op E)) : Nat := ops.foldl Op.advance 0

/-- All bytes delivered by some operations. -/
def deliveredBytes (ops : List (Op E)) : List UInt8 := ops.flatMap Op.delivered

@[simp] theorem logicalPosition_nil : logicalPosition ([] : List (Op E)) = 0 := rfl

@[simp] theorem logicalPosition_snoc (ops : List (Op E)) (op : Op E) :
    logicalPosition (ops ++ [op]) = op.advance (logicalPosition ops) := by
  simp [logicalPosition]

@[simp] theorem deliveredBytes_nil : deliveredBytes ([] : List (Op E)) = [] := rfl

@[simp] theorem deliveredBytes_snoc (ops : List (Op E)) (op : Op E) :
    deliveredBytes (ops ++ [op]) = deliveredBytes ops ++ op.delivered := by
  simp [deliveredBytes]

/-- Without seeks the logical position counts the bytes delivered. -/
theorem logicalPosition_eq_length {ops : List (Op E)} (h : ∀ op ∈ ops, op.isPoll = true) :
    logicalPosition ops = (deliveredBytes ops).length := by
  induction ops using List.reverseRecOn with
  | nil => rfl
  | append_singleton ops op ih =>
    have hop := h op (by simp)
    rw [logicalPosition_snoc, deliveredBytes_snoc, List.length_append,
      ← ih fun o ho => h o (by simp [ho])]
    cases op with
    | pollRead => rfl
    | seek => simp [Op.isPoll] at hop

/-- Operations that begin with a seek. -/
theorem eq_seek_cons_of_map_target {ops : List (Op E)} {offset : Nat} {targets : List (Option Nat)}
    (h : ops.map Op.target = some offset :: targets) :
    ∃ rest, ops = .seek offset :: rest ∧ rest.map Op.target = targets := by
  obtain ⟨op, rest, rfl, hop, hrest⟩ := List.map_eq_cons_iff.mp h
  cases op with
  | pollRead => cases hop
  | seek => cases hop; exact ⟨rest, rfl, hrest⟩

/-- Operations without a target are polls. -/
theorem isPoll_of_map_target {ops : List (Op E)} {n : Nat}
    (h : ops.map Op.target = List.replicate n none) : ∀ op ∈ ops, op.isPoll = true := by
  intro op hop
  have hmem : op.target ∈ List.replicate n (none : Option Nat) := h ▸ List.mem_map_of_mem hop
  have htarget := List.eq_of_mem_replicate hmem
  cases op with
  | pollRead => rfl
  | seek => cases htarget

/-- Behind these operations a part of a run begins at an offset: at the start, or after a seek. -/
inductive BeginsAt : List (Op E) → Nat → Prop where
  | start : BeginsAt [] 0
  | seek (ops : List (Op E)) (offset : Nat) : BeginsAt (ops ++ [.seek offset]) offset

/-- The logical position where a part of a run begins. -/
theorem BeginsAt.logicalPosition {before : List (Op E)} {offset : Nat} (h : BeginsAt before offset) :
    logicalPosition before = offset := by
  cases h with
  | start => rfl
  | seek ops => rw [logicalPosition_snoc]; rfl

/-- A `poll_read` with room answers without a byte. -/
def Reader.AtEnd (self : Reader E H) : Prop :=
  ∃ ctx fuel buf self', 0 < buf.remaining ∧ self.pollRead ctx fuel buf = .ok (.ok (), self', buf)

/-- Equal but for the log of the calls, which no operation reads. -/
structure Reader.SameState (self other : Reader E H) : Prop where
  sizes : self.sizes = other.sizes
  entries : self.entries = other.entries
  readState : self.readState = other.readState
  slot : self.pinned.slot = other.pinned.slot

/-! ### Running a script -/

/-- What a caller does next. -/
inductive Action (E : EntryData) where
  /-- Poll with a buffer. -/
  | poll (ctx : E.Context) (buf : ReadBuf)
  | seek (offset : Nat)

/-- Run a script, with `fuel` for each `poll_read`. -/
def runScript (fuel : Nat) (r : Reader E H) : List (Action E) → Exec (List (Op E) × Reader E H)
  | [] => .ok ([], r)
  | .poll ctx buf :: script => do
    let (answer, r, buf') ← r.pollRead ctx fuel buf
    let (ops, r) ← runScript fuel r script
    .ok (.pollRead ctx buf answer buf' :: ops, r)
  | .seek offset :: script => do
    assert (offset < u64Bound)
    let r ← r.seekFromStart offset
    let (ops, r) ← runScript fuel r script
    .ok (.seek offset :: ops, r)

/-- What a script did is a run. -/
theorem runScript_steps {fuel : Nat} {r r' : Reader E H} {script : List (Action E)}
    {ops : List (Op E)} (h : runScript fuel r script = .ok (ops, r')) : Steps r ops r' := by
  induction script generalizing r ops with
  | nil => cases h; exact .nil
  | cons action script ih =>
    cases action with
    | poll ctx buf =>
      simp only [runScript] at h
      match hpoll : r.pollRead ctx fuel buf with
      | .error f => rw [hpoll] at h; cases h
      | .ok (answer, r₁, buf') =>
        rw [hpoll] at h
        match hrest : runScript fuel r₁ script with
        | .error f => simp only [ok_bind, hrest] at h; cases h
        | .ok (ops', r₂) =>
          simp only [ok_bind, hrest] at h
          cases h
          exact System.Run.cons ⟨fuel, hpoll⟩ (ih hrest)
    | seek offset =>
      simp only [runScript] at h
      by_cases hoffset : offset < u64Bound
      · rw [assert_eq hoffset, ok_bind] at h
        match hseek : r.seekFromStart offset with
        | .error f => rw [hseek] at h; cases h
        | .ok r₁ =>
          rw [hseek, ok_bind] at h
          match hrest : runScript fuel r₁ script with
          | .error f => simp only [hrest] at h; cases h
          | .ok (ops', r₂) =>
            simp only [ok_bind, hrest] at h
            cases h
            exact System.Run.cons ⟨hoffset, hseek⟩ (ih hrest)
      · simp [assert, hoffset] at h

/-- Whether every operation of a script passes a test in the state in which it begins. -/
def testScript (test : Reader E H → Op E → Bool) (fuel : Nat) (r : Reader E H) :
    List (Action E) → Bool
  | [] => true
  | .poll ctx buf :: script =>
    match r.pollRead ctx fuel buf with
    | .ok (answer, r', buf') =>
      test r (.pollRead ctx buf answer buf') && testScript test fuel r' script
    | .error _ => false
  | .seek offset :: script =>
    match r.seekFromStart offset with
    | .ok r' => test r (.seek offset) && testScript test fuel r' script
    | .error _ => false

/-- A script that passes the test for a condition did a run that meets it. -/
theorem runScript_restrict {C : Reader E H → Op E → Prop} {test : Reader E H → Op E → Bool}
    (hC : ∀ r op, test r op = true → C r op) {fuel : Nat} {r r' : Reader E H}
    {script : List (Action E)} {ops : List (Op E)} (htest : testScript test fuel r script = true)
    (h : runScript fuel r script = .ok (ops, r')) : (readerSystem.restrict C).Run r ops r' := by
  induction script generalizing r ops with
  | nil =>
    cases h
    exact .nil
  | cons action script ih =>
    cases action with
    | poll ctx buf =>
      simp only [runScript] at h
      simp only [testScript] at htest
      obtain ⟨⟨answer, r₁, buf'⟩, hpoll, h⟩ := bind_eq_ok h
      obtain ⟨⟨ops', r₂⟩, hrest, h⟩ := bind_eq_ok h
      cases h
      rw [hpoll] at htest
      obtain ⟨hop, htest⟩ := Bool.and_eq_true_iff.mp htest
      exact System.Run.cons ⟨hC _ _ hop, fuel, hpoll⟩ (ih htest hrest)
    | seek offset =>
      simp only [runScript] at h
      simp only [testScript] at htest
      obtain ⟨_, hassert, h⟩ := bind_eq_ok h
      obtain ⟨r₁, hseek, h⟩ := bind_eq_ok h
      obtain ⟨⟨ops', r₂⟩, hrest, h⟩ := bind_eq_ok h
      cases h
      rw [hseek] at htest
      obtain ⟨hop, htest⟩ := Bool.and_eq_true_iff.mp htest
      have hoffset : offset < u64Bound := by
        by_contra hlarge
        simp [assert, hlarge] at hassert
      exact System.Run.cons ⟨hC _ _ hop, hoffset, hseek⟩ (ih htest hrest)

/-- A poll with room for one byte answers without it. -/
def Reader.endTest (self : Reader E H) (ctx : E.Context) (fuel : Nat) : Bool :=
  match self.pollRead ctx fuel (.new 1) with
  | .ok (.ok (), _, buf) => buf = .new 1
  | _ => false

theorem Reader.atEnd_of_endTest {r : Reader E H} {ctx : E.Context} {fuel : Nat}
    (h : r.endTest ctx fuel = true) : r.AtEnd := by
  unfold Reader.endTest at h
  split at h
  · next r' buf hpoll =>
    have hbuf : buf = .new 1 := of_decide_eq_true h
    rw [hbuf] at hpoll
    exact ⟨ctx, fuel, .new 1, r', Nat.one_pos, hpoll⟩
  · cases h

end Model

end Zippity
