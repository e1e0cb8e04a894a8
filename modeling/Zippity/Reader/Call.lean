import Zippity.Reader.SeekSpec
import Zippity.Reader.System
import Zippity.Reader.Turn

/-! # Calls of `poll_read`, whatever the sources do

    A call is a list of turns.  What it appends is accounted for, and it goes
    wrong in one place only: when a turn computes a CRC after the call appended
    bytes, and this computation is interrupted.  `SuspendsLate` and `FailsLate`
    say that the turns of the loop do this; `Late` says, on the state before the
    call, where it happens.
-/

namespace Zippity

open Framework Async
open Exec (u64Bound addU64 subU64)

section Model
variable {E : EntryData} {H : Crc32Fast}

/-! ### The turns of a call -/

/-- The frames in which the turns of a loop begin, each with the fuel left to it. -/
def turns (sizes : Sizes) (ctx : E.Context) (initialRemaining : Nat) :
    (fuel : Nat) → Frame E H → List (Nat × Frame E H)
  | 0, _ => []
  | fuel + 1, s =>
    if s.output.remaining > 0 then
      (fuel, s) ::
        match readIteration sizes ctx fuel initialRemaining s with
        | .ok (.ok (.go ()), s') => turns sizes ctx initialRemaining fuel s'
        | _ => []
    else []

/-- Some turn computes a CRC after bytes were appended, and the computation answers in `P`. -/
def LateCrc (P : PollResult (IoError E) UInt32 → Prop) (sizes : Sizes) (ctx : E.Context)
    (initialRemaining fuel : Nat) (s : Frame E H) : Prop :=
  ∃ turn ∈ turns sizes ctx initialRemaining fuel s, turn.2.output.remaining ≠ initialRemaining ∧
    ∃ r, turn.2.crcAnswer ctx turn.1 = some r ∧ P r

section LateCrc
variable {P : PollResult (IoError E) UInt32 → Prop} {sizes : Sizes} {ctx : E.Context}
  {initialRemaining fuel : Nat} {s s' : Frame E H}

/-- A turn that goes on was not interrupted. -/
theorem lateCrc_go (hP : ∀ r, P r → Interrupts r) (hroom : s.output.remaining > 0)
    (hrun : readIteration sizes ctx fuel initialRemaining s = .ok (.ok (.go ()), s'))
    (hcrc : ∀ r, s.crcAnswer ctx fuel = some r → ¬ Interrupts r) :
    LateCrc P sizes ctx initialRemaining (fuel + 1) s ↔
      LateCrc P sizes ctx initialRemaining fuel s' := by
  have hturns : turns sizes ctx initialRemaining (fuel + 1) s =
      (fuel, s) :: turns sizes ctx initialRemaining fuel s' := by
    simp [turns, hroom, hrun]
  unfold LateCrc
  rw [hturns]
  constructor
  · rintro ⟨turn, hmem, hwritten, r, hr, hp⟩
    rcases List.mem_cons.mp hmem with rfl | hmem
    · exact absurd (hP r hp) (hcrc r hr)
    · exact ⟨turn, hmem, hwritten, r, hr, hp⟩
  · rintro ⟨turn, hmem, h⟩
    exact ⟨turn, List.mem_cons_of_mem _ hmem, h⟩

/-- The last turn of a call. -/
theorem lateCrc_last {answer : PollResult (IoError E) (Flow Unit)} (hroom : s.output.remaining > 0)
    (hrun : readIteration sizes ctx fuel initialRemaining s = .ok (answer, s'))
    (hgo : answer ≠ .ok (.go ())) :
    LateCrc P sizes ctx initialRemaining (fuel + 1) s ↔
      s.output.remaining ≠ initialRemaining ∧ ∃ r, s.crcAnswer ctx fuel = some r ∧ P r := by
  have hturns : turns sizes ctx initialRemaining (fuel + 1) s = [(fuel, s)] := by
    simp only [turns, hroom, hrun, if_true]
    split
    · next heq =>
      cases heq
      exact absurd rfl hgo
    · rfl
  unfold LateCrc
  rw [hturns]
  simp

/-- Every turn begins with free bytes, at most as many as the loop began with. -/
theorem remaining_of_mem_turns {turn : Nat × Frame E H}
    (h : turn ∈ turns sizes ctx initialRemaining fuel s) :
    0 < turn.2.output.remaining ∧ turn.2.output.remaining ≤ s.output.remaining := by
  induction fuel generalizing s with
  | zero => simp [turns] at h
  | succ fuel ih =>
    unfold turns at h
    by_cases hroom : s.output.remaining > 0
    · rw [if_pos hroom] at h
      rcases List.mem_cons.mp h with rfl | h
      · exact ⟨hroom, Nat.le_refl _⟩
      · split at h
        · next s' hrun =>
          obtain ⟨bytes, hturn⟩ :=
            Exec.wp_of_eq_ok (readIteration_turn sizes ctx fuel initialRemaining s) hrun
          have hle := hturn.moved.output.remaining
          obtain ⟨hpos, hturn'⟩ := ih h
          exact ⟨hpos, by omega⟩
        · cases h
    · rw [if_neg hroom] at h
      cases h

end LateCrc

/-- What the loop does: it returns early if a CRC was suspended late, and loses bytes if one
    failed late. -/
structure LoopStep (sizes : Sizes) (ctx : E.Context) (initialRemaining fuel : Nat)
    (s : Frame E H) (bytes : List UInt8) (r : PollResult (IoError E) (Flow Unit))
    (s' : Frame E H) : Prop where
  moved : Moved s bytes s'
  go : r ≠ .ok (.go ())
  ret : r = .ok .ret ↔ LateCrc (· = .pending) sizes ctx initialRemaining fuel s
  lost : ∀ e, r = .err e ∧ s'.output.remaining ≠ initialRemaining ↔
    LateCrc (· = .err e) sizes ctx initialRemaining fuel s
  returned : r = .ok .ret → s'.output.remaining ≠ initialRemaining
  pending : r = .pending → s'.output.remaining = initialRemaining
  slot : s'.pinned.slot.Completed → s.pinned.slot.Completed ∨
    ((∃ e, r = .err e) ∧ NeedsReader s'.readState s'.entries)

/-- **The loop**, whatever the sources do. -/
theorem readLoop_step (sizes : Sizes) (ctx : E.Context) (initialRemaining fuel : Nat)
    (s : Frame E H) :
    (readLoop sizes ctx initialRemaining fuel).wp (Polls s.pinned.slot)
      (fun r s' => ∃ bytes, LoopStep sizes ctx initialRemaining fuel s bytes r s') s := by
  -- by induction on the fuel; the answer of a turn says whether the loop goes on
  induction fuel generalizing s with
  | zero => exact fun h => by cases h
  | succ fuel ih =>
    unfold readLoop
    rw [wp_get_bind]
    by_cases hroom : s.output.remaining > 0
    · rw [if_pos hroom, wp_bind]
      refine wp_run (wp_mono (readIteration_turn sizes ctx fuel initialRemaining s)
        (fun _ hf => hf) ?_)
      rintro r s₁ ⟨bytes, hmoved, hanswer, hslot⟩ hrun
      have hsame : bytes = [] → s₁.output.remaining = s.output.remaining :=
        fun hnil => hmoved.output.eq_nil_iff.mp hnil
      cases hanswer with
      | go hcrc =>
        -- a turn that goes on was not interrupted itself, so a late CRC comes in a later turn
        have hsuspended := lateCrc_go (P := (· = .pending)) (fun r hr => by rw [hr]; trivial)
          hroom hrun hcrc
        have hfailed := fun e => lateCrc_go (P := (· = .err e)) (fun r hr => by rw [hr]; trivial)
          hroom hrun hcrc
        -- and it leaves no completed future that was not there
        have hkept : s₁.pinned.slot.Completed → s.pinned.slot.Completed := by
          intro hc
          rcases hslot hc with hc | ⟨⟨e, he⟩, _⟩
          · exact hc
          · cases he
        simp only [andThen]
        refine wp_mono (ih s₁) (fun f hf h => hkept (hf h)) ?_
        rintro r s₂ ⟨bytes', hmoved', hgo, hret, hlost, hreturned, hpending, hslot'⟩
        refine ⟨bytes ++ bytes', hmoved.trans hmoved', hgo, hret.trans hsuspended.symm,
          fun e => (hlost e).trans (hfailed e).symm, hreturned, hpending, fun hc => ?_⟩
        rcases hslot' hc with hc | herr
        · exact .inl (hkept hc)
        · exact .inr herr
      | leave hnil hcrc =>
        refine ⟨bytes, hmoved, by simp, ?_, fun e => ?_, by simp, by simp, hslot⟩
        · rw [lateCrc_last hroom hrun (by simp), hcrc]
          simp
        · rw [lateCrc_last hroom hrun (by simp), hcrc]
          simp
      | ret hnil hcrc hwritten =>
        refine ⟨bytes, hmoved, by simp, ?_, fun e => ?_,
          fun _ => by rw [hsame hnil]; exact hwritten, by simp, hslot⟩
        · rw [lateCrc_last hroom hrun (by simp), hcrc]
          simp [hwritten]
        · rw [lateCrc_last hroom hrun (by simp), hcrc]
          simp
      | pending hnil hunwritten =>
        refine ⟨bytes, hmoved, by simp, ?_, fun e => ?_, by simp,
          fun _ => (hsame hnil).trans hunwritten, ?_⟩
        · rw [lateCrc_last hroom hrun (by simp)]
          simp [hunwritten]
        · rw [lateCrc_last hroom hrun (by simp)]
          simp [hunwritten]
        · intro hc
          rcases hslot hc with hc | ⟨⟨e, he⟩, _⟩
          · exact .inl hc
          · cases he
      | dataErr e hnil hcrc hunwritten =>
        refine ⟨bytes, hmoved, by simp, ?_, fun e' => ?_, by simp, by simp, fun hc => ?_⟩
        · rw [lateCrc_last hroom hrun (by simp), hcrc]
          simp
        · rw [lateCrc_last hroom hrun (by simp), hcrc, hsame hnil, hunwritten]
          simp
        · rcases hslot hc with hc | ⟨_, hneeds⟩
          · exact .inl hc
          · exact .inr ⟨⟨e, rfl⟩, hneeds⟩
      | crcErr e hnil hcrc =>
        refine ⟨bytes, hmoved, by simp, ?_, fun e' => ?_, by simp, by simp, fun hc => ?_⟩
        · rw [lateCrc_last hroom hrun (by simp), hcrc]
          simp
        · rw [lateCrc_last hroom hrun (by simp), hcrc, hsame hnil]
          simp [and_comm]
        · rcases hslot hc with hc | ⟨_, hneeds⟩
          · exact .inl hc
          · exact .inr ⟨⟨e, rfl⟩, hneeds⟩
    · rw [if_neg hroom]
      -- without room there is no turn
      have hturns : turns sizes ctx initialRemaining (fuel + 1) s = [] := by simp [turns, hroom]
      have hlate : ∀ P, ¬ LateCrc P sizes ctx initialRemaining (fuel + 1) s := by
        rintro P ⟨turn, hmem, _⟩
        rw [hturns] at hmem
        cases hmem
      refine ⟨[], .refl s, by simp, ?_, ?_, by simp, by simp, .inl⟩
      · simp [hlate]
      · simp [hlate]

/-! ### Calls -/

namespace Reader

/-- The frame in which a call begins. -/
def frame (self : Reader E H) (buf : ReadBuf) : Frame E H :=
  ⟨self.readState, self.entries, self.pinned, buf⟩

/-- In this `poll_read` the computation of a CRC is pending after bytes were appended. -/
def SuspendsLate (self : Reader E H) (ctx : E.Context) (fuel : Nat) (buf : ReadBuf) : Prop :=
  LateCrc (· = .pending) self.sizes ctx buf.remaining fuel (self.frame buf)

/-- In this `poll_read` the computation of a CRC fails with `e` after bytes were appended. -/
def FailsLate (self : Reader E H) (e : IoError E) (ctx : E.Context) (fuel : Nat) (buf : ReadBuf) :
    Prop :=
  LateCrc (· = .err e) self.sizes ctx buf.remaining fuel (self.frame buf)

end Reader

/-- What a `poll_read` does. -/
structure CallStep (r : Reader E H) (ctx : E.Context) (fuel : Nat) (buf : ReadBuf)
    (answer : PollResult (IoError E) Unit) (r' : Reader E H) (buf' : ReadBuf)
    (bytes : List UInt8) : Prop where
  output : buf.Extends bytes buf'
  placed : ∀ a p, Placed a r.entries r.readState p →
    Placed a r'.entries r'.readState (p + bytes.length)
  counted : answer = .ok () → (r'.tell = r.tell + bytes.length ↔ ¬ r.SuspendsLate ctx fuel buf)
  uncounted : answer ≠ .ok () → r'.tell = r.tell
  pending : answer = .pending → bytes = []
  lost : ∀ e, answer = .err e → (bytes = [] ↔ ¬ r.FailsLate e ctx fuel buf)
  slot : r'.pinned.slot.Completed → r.pinned.slot.Completed ∨
    ((∃ e, answer = .err e) ∧ NeedsReader r'.readState r'.entries)

/-- The position does not matter for the place. -/
theorem Placed.position {a : Archive} {entries : List (ReaderEntry E)} {rs : ReadState} {p : Nat}
    (h : Placed a entries rs p) (position : Nat) : Placed a entries { rs with position } p :=
  ⟨h.listed, h.located, h.settled, h.balance⟩

/-- **A call of `poll_read`**, whatever the sources do. -/
theorem pollRead_call (r : Reader E H) (ctx : E.Context) (fuel : Nat) (buf : ReadBuf) :
    Exec.wp (Polls r.pinned.slot) (fun (answer, r', buf') =>
      ∃ bytes, CallStep r ctx fuel buf answer r' buf' bytes) (r.pollRead ctx fuel buf) := by
  have hread : (read r.sizes ctx fuel).wp (Polls r.pinned.slot) (fun answer s' =>
      ∃ bytes, CallStep r ctx fuel buf answer ⟨r.sizes, s'.entries, s'.readState, s'.pinned⟩
        s'.output bytes) (r.frame buf) := by
    unfold read
    rw [wp_get_bind, wp_bind]
    refine wp_mono (readLoop_step r.sizes ctx buf.remaining fuel (r.frame buf)) (fun _ hf => hf) ?_
    rintro answer s' ⟨bytes, hmoved, hgo, hret, hlost, hreturned, hpending, hslot⟩
    have hlen : s'.output.remaining + bytes.length = buf.remaining := hmoved.output.remaining
    have hnil : bytes = [] ↔ s'.output.remaining = buf.remaining := hmoved.output.eq_nil_iff
    have hposition : s'.readState.position = r.tell := hmoved.position
    have hslot' : (∀ e, answer ≠ .err e) → s'.pinned.slot.Completed → r.pinned.slot.Completed := by
      intro hanswer hc
      rcases hslot hc with hc | ⟨⟨e, he⟩, _⟩
      · exact hc
      · exact absurd he (hanswer e)
    cases answer with
    | pending =>
      exact ⟨bytes, hmoved.output, hmoved.placed, by simp, fun _ => hposition,
        fun _ => hnil.mpr (hpending rfl), by simp, fun hc => .inl (hslot' (by simp) hc)⟩
    | err e =>
      refine ⟨bytes, hmoved.output, hmoved.placed, by simp, fun _ => hposition, by simp,
        fun e' he => ?_, fun hc => ?_⟩
      · cases he
        unfold Reader.FailsLate
        rw [← hlost, hnil]
        simp
      · rcases hslot hc with hc | ⟨_, hneeds⟩
        · exact .inl hc
        · exact .inr ⟨⟨e, rfl⟩, hneeds⟩
    | ok flow =>
      cases flow with
      | go => exact absurd rfl hgo
      | ret =>
        -- the call returns without counting the bytes
        refine ⟨bytes, hmoved.output, hmoved.placed, fun _ => ?_, by simp, by simp, by simp,
          fun hc => .inl (hslot' (by simp) hc)⟩
        have hlate : r.SuspendsLate ctx fuel buf := hret.mp rfl
        have hwritten := hreturned rfl
        refine iff_of_false ?_ (fun h => h hlate)
        show s'.readState.position ≠ r.tell + bytes.length
        omega
      | leave =>
        have hwritten : buf.remaining - s'.output.remaining = bytes.length := by omega
        simp only [andThen]
        rw [wp_get_bind, wp_bind, wp_lift]
        refine Exec.wp_subU64 (fun _ h => by cases h) fun _ => ?_
        simp only [andThen]
        rw [wp_bind, wp_lift]
        refine Exec.wp_addU64 (fun _ h => by cases h) fun _ => ⟨bytes, ?_⟩
        refine ⟨hmoved.output, fun a p hp => (hmoved.placed a p hp).position _, fun _ => ?_, by simp,
          by simp, by simp, fun hc => .inl (hslot' (by simp) hc)⟩
        have hlate : ¬ r.SuspendsLate ctx fuel buf := fun h => by
          have := hret.mpr h
          cases this
        refine iff_of_true ?_ hlate
        show s'.readState.position + (buf.remaining - s'.output.remaining) = r.tell + bytes.length
        rw [hwritten, hposition]
  unfold Reader.pollRead
  rw [Exec.wp_bind]
  refine Exec.wp_mono hread (fun _ hf => hf) ?_
  rintro ⟨answer, s'⟩ h
  exact h

/-- A `poll_read` in a run, whatever the sources do. -/
theorem pollRead_callStep {r r' : Reader E H} {ctx : E.Context} {fuel : Nat} {buf buf' : ReadBuf}
    {answer : PollResult (IoError E) Unit} (h : r.pollRead ctx fuel buf = .ok (answer, r', buf')) :
    ∃ bytes, CallStep r ctx fuel buf answer r' buf' bytes := by
  have hstep := Exec.wp_of_eq_ok (pollRead_call r ctx fuel buf) h
  exact hstep

/-- What a seek leaves of a reader. -/
structure SeekStep (r : Reader E H) (offset : Nat) (r' : Reader E H) : Prop where
  tell : r'.tell = offset
  sizes : r'.sizes = r.sizes
  entries : r'.entries = r.entries
  slot : r'.pinned.slot = .nothing

/-- A seek, whatever the sources do. -/
theorem seekFromStart_seekStep {r r' : Reader E H} {offset : Nat}
    (h : r.seekFromStart offset = .ok r') : SeekStep r offset r' := by
  obtain ⟨rs', hseek, hr'⟩ := Exec.bind_eq_ok h
  cases hr'
  exact ⟨position_of_seekFromStart hseek, rfl, rfl, rfl⟩

end Model

end Zippity
