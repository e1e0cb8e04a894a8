import Zippity.Reader.Pool
import Zippity.Reader.Slot
import Zippity.Session

/-! # Completed futures

    A future that returned an error stays in the pinned slot.  Only a seek takes
    it out; the next `poll_read` with room polls it again.  Any other future in
    the slot came of `get_reader` and was pending whenever it was polled.
-/

namespace Zippity

open Framework Async

section Model
variable {E : EntryData} {H : Crc32Fast}

/-- The invariant of readers: while a completed future is in the slot, the next turn needs a
    reader. -/
def CompletedNeedsReader (r : Reader E H) : Prop :=
  r.pinned.slot.Completed → NeedsReader r.readState r.entries

theorem completedNeedsReader_of_nothing {r : Reader E H} (h : r.pinned.slot = .nothing) :
    CompletedNeedsReader r := by
  intro hc
  rw [h] at hc
  exact hc.elim

/-- A poll without room. -/
def Op.Idle : Op E → Prop
  | .pollRead _ buf _ _ => buf.remaining = 0
  | .seek _ => False

/-- How a completed future comes to be in the slot: it was there and nothing happened, or the
    operation failed. -/
theorem completed_of_step {r r' : Reader E H} {op : Op E} (h : CompletedNeedsReader r)
    (hstep : readerSystem.step r op r') (hc' : r'.pinned.slot.Completed) :
    (r' = r ∧ op.Idle) ∨ (op.succeeds = false ∧ NeedsReader r'.readState r'.entries) := by
  cases op with
  | seek offset =>
    -- a seek empties the slot
    rw [(seekFromStart_seekStep hstep.2).slot] at hc'
    exact hc'.elim
  | pollRead ctx buf answer buf' =>
    obtain ⟨fuel, hpoll⟩ := hstep
    by_cases hc : r.pinned.slot.Completed
    · -- with room the call would have polled the completed future
      by_cases hroom : 0 < buf.remaining
      · cases fuel with
        | zero =>
          rw [pollRead_zero] at hpoll
          cases hpoll
        | succ fuel =>
          rw [pollRead_completed hc (h hc) ctx fuel hroom] at hpoll
          cases hpoll
      -- without room the call does nothing
      · have hfull := Exec.wp_of_eq_ok (pollRead_full r ctx fuel (by omega)) hpoll
        exact .inl ⟨hfull, Nat.eq_zero_of_not_pos hroom⟩
    · obtain ⟨bytes, hcall⟩ := pollRead_callStep hpoll
      rcases hcall.slot hc' with hold | ⟨⟨e, rfl⟩, hneeds⟩
      · exact absurd hold hc
      · exact .inr ⟨rfl, hneeds⟩

/-- Every operation keeps the invariant. -/
theorem CompletedNeedsReader.step {r r' : Reader E H} {op : Op E} (h : CompletedNeedsReader r)
    (hstep : readerSystem.step r op r') : CompletedNeedsReader r' := by
  intro hc'
  rcases completed_of_step h hstep hc' with ⟨rfl, _⟩ | ⟨_, hneeds⟩
  · exact h hc'
  · exact hneeds

/-! ### Histories -/

/-- An operation failed, and all that happened since were polls without room; so no seek. -/
def FailedLast (ops : List (Op E)) : Prop :=
  ∃ before op idle, ops = before ++ op :: idle ∧ op.succeeds = false ∧ ∀ o ∈ idle, o.Idle

theorem FailedLast.snoc {ops : List (Op E)} {op : Op E} (h : FailedLast ops) (hop : op.Idle) :
    FailedLast (ops ++ [op]) := by
  obtain ⟨before, failed, idle, rfl, hfailed, hidle⟩ := h
  refine ⟨before, failed, idle ++ [op], by simp, hfailed, ?_⟩
  exact List.forall_mem_append.mpr ⟨hidle, List.forall_mem_singleton.mpr hop⟩

/-- **When a completed future is in the slot**: since the last operation with an effect failed, or
    from the beginning. -/
theorem completed_of_steps {r r' : Reader E H} {ops : List (Op E)} (h : CompletedNeedsReader r)
    (hsteps : Steps r ops r') (hc : r'.pinned.slot.Completed) :
    (r' = r ∧ ∀ op ∈ ops, op.Idle) ∨ FailedLast ops := by
  have hinv := hsteps.invariant (fun ops r' => CompletedNeedsReader r' ∧
    (r'.pinned.slot.Completed → (r' = r ∧ ∀ op ∈ ops, op.Idle) ∨ FailedLast ops))
    ⟨h, fun _ => .inl ⟨rfl, by simp⟩⟩ ?_
  · exact hinv.2 hc
  · rintro ops r₁ op r₂ ⟨hneeds, hhistory⟩ hstep
    refine ⟨hneeds.step hstep, fun hc' => ?_⟩
    rcases completed_of_step hneeds hstep hc' with ⟨rfl, hidle⟩ | ⟨hfailed, _⟩
    · rcases hhistory hc' with ⟨rfl, hall⟩ | hfailed
      · exact .inl ⟨rfl, List.forall_mem_append.mpr ⟨hall, List.forall_mem_singleton.mpr hidle⟩⟩
      · exact .inr (hfailed.snoc hidle)
    · exact .inr ⟨ops, op, [], rfl, hfailed, by simp⟩

/-! ### Futures -/

/-- The future came of `get_reader`, and was pending whenever it was polled. -/
inductive Awaited (E : EntryData) : E.Future → Prop where
  | opened (d : E.Data) : Awaited E (E.getReader d)
  | pending {future future' : E.Future} {ctx : E.Context} (h : Awaited E future)
    (hpoll : E.poll future ctx = (.pending, future')) : Awaited E future'

/-- A future in the slot is awaited, unless it is completed; and then it returned an error. -/
def ReaderPinned.Awaits : ReaderPinned E H → Prop
  | .readerFuture future false => Awaited E future
  | .readerFuture future true =>
    ∃ awaited ctx e, Awaited E awaited ∧ E.poll awaited ctx = (.err e, future)
  | .nothing => True
  | .fileReader _ => True

theorem slotRelations_awaits (ctx : E.Context) : SlotRelations (H := H) ctx
    (fun pinned pinned' => pinned.slot.Awaits → pinned'.slot.Awaits) (fun _ _ => True) where
  refl _ := id
  trans _ _ _ h h' := h' ∘ h
  after _ _ _ _ _ := trivial
  opens _ _ data _ := .opened data
  empties _ _ _ := trivial
  polls _ _ _ hpoll h := .pending h hpoll
  pollsErr future e _ _ hpoll h := ⟨future, ctx, e, h, hpoll⟩
  pollsOk _ _ _ _ _ _ := trivial
  pollsPending _ _ _ _ := trivial
  reads _ _ _ _ _ := trivial
  readsPending _ _ _ _ _ _ := trivial
  seeks _ _ _ _ _ := trivial
  seeksPending _ _ _ _ _ _ := trivial

theorem awaits_of_nothing {slot : ReaderPinned E H} (h : slot = .nothing) : slot.Awaits := by
  rw [h]
  trivial

/-- Every operation keeps it. -/
theorem awaits_of_step {r r' : Reader E H} {op : Op E} (h : r.pinned.slot.Awaits)
    (hstep : readerSystem.step r op r') : r'.pinned.slot.Awaits := by
  cases op with
  | seek offset => exact awaits_of_nothing (seekFromStart_seekStep hstep.2).slot
  | pollRead ctx buf answer buf' =>
    obtain ⟨fuel, hpoll⟩ := hstep
    exact ((slotRelations_awaits ctx).pollRead hpoll).1 h

section Pool
variable {b : Builder E} {r r' : Reader E H} {pool : List (Reader E H)} {ops : List (PoolOp E)}

/-- Every reader of a pool keeps it. -/
theorem completedNeedsReader_of_poolRun (hr : CompletedNeedsReader r)
    (hrun : poolSystem.Run [r] ops pool) : ∀ r' ∈ pool, CompletedNeedsReader r' := by
  refine forall_of_poolRun (P := CompletedNeedsReader) ?_ ?_ ?_ ?_ hrun
  · intro r op r' h hstep
    exact h.step hstep
  · intro r r' _ hclone
    exact completedNeedsReader_of_nothing (slot_of_clone hclone)
  · intro r taken left _ htake
    obtain ⟨htaken, hleft⟩ := slots_of_takePinned htake
    exact ⟨completedNeedsReader_of_nothing htaken, completedNeedsReader_of_nothing hleft⟩
  · intro r' hr'
    rwa [List.mem_singleton.mp hr']

/-- Every future in the slots of a pool came of `get_reader`. -/
theorem awaits_of_poolRun (hr : r.pinned.slot.Awaits) (hrun : poolSystem.Run [r] ops pool) :
    ∀ r' ∈ pool, r'.pinned.slot.Awaits := by
  refine forall_of_poolRun (P := fun r : Reader E H => r.pinned.slot.Awaits) ?_ ?_ ?_ ?_ hrun
  · intro r op r' h hstep
    exact awaits_of_step h hstep
  · intro r r' _ hclone
    exact awaits_of_nothing (slot_of_clone hclone)
  · intro r taken left _ htake
    obtain ⟨htaken, hleft⟩ := slots_of_takePinned htake
    exact ⟨awaits_of_nothing htaken, awaits_of_nothing hleft⟩
  · intro r' hr'
    rwa [List.mem_singleton.mp hr']

/-- **A completed future is polled again** by just those calls with room that find one in the
    slot.  One is there only after a call that failed, with no seek since; every other future in
    the slot is one of `get_reader` that did not return yet. -/
theorem polledAfterCompletion_iff (hb : b.Reached) (hbuild : b.build = .ok r)
    (hrun : poolSystem.Run [r] ops pool) (hr' : r' ∈ pool) (ctx : E.Context) {fuel : Nat}
    (hfuel : 0 < fuel) (buf : ReadBuf) :
    (r'.pollRead ctx fuel buf = .error .polledAfterCompletion ↔
      r'.pinned.slot.Completed ∧ 0 < buf.remaining) ∧
    r'.pinned.slot.Awaits ∧
    ∀ after r'', Steps r' after r'' → r''.pinned.slot.Completed →
      (r'' = r' ∧ ∀ op ∈ after, op.Idle) ∨ FailedLast after := by
  obtain ⟨a, hbuilt⟩ := hb.built (fun _ => []) hbuild
  have hslot : r.pinned.slot = .nothing := by
    rw [hbuilt.reader]
    rfl
  have hneeds := completedNeedsReader_of_poolRun (completedNeedsReader_of_nothing hslot) hrun r' hr'
  refine ⟨⟨?_, ?_⟩, awaits_of_poolRun (awaits_of_nothing hslot) hrun r' hr',
    fun _ _ hsteps hc => completed_of_steps hneeds hsteps hc⟩
  · intro hfault
    have hc : r'.pinned.slot.Completed :=
      Exec.wp_of_eq_error (pollRead_call r' ctx fuel buf) hfault rfl
    refine ⟨hc, Nat.pos_of_ne_zero ?_⟩
    intro hfull
    exact Exec.wp_of_eq_error (pollRead_full r' ctx fuel hfull) hfault rfl
  · rintro ⟨hc, hroom⟩
    cases fuel with
    | zero => cases hfuel
    | succ fuel => exact pollRead_completed hc (hneeds hc) ctx fuel hroom

end Pool

end Model

/-! ### Sessions -/

/-- The call stops because it polls a completed future. -/
def Reader.pollsCompleted {E : EntryData} {H : Crc32Fast} (r : Reader E H) (ctx : E.Context)
    (fuel : Nat) (buf : ReadBuf) : Bool :=
  match r.pollRead ctx fuel buf with
  | .error f => f = .polledAfterCompletion
  | .ok _ => false

theorem Reader.pollRead_of_pollsCompleted {E : EntryData} {H : Crc32Fast} {r : Reader E H}
    {ctx : E.Context} {fuel : Nat} {buf : ReadBuf} (h : r.pollsCompleted ctx fuel buf = true) :
    r.pollRead ctx fuel buf = .error .polledAfterCompletion := by
  unfold Reader.pollsCompleted at h
  split at h
  · next f hf => rw [hf, of_decide_eq_true h]
  · cases h

/-- A reader that failed to open an entry, and its clone. -/
theorem polledAfterCompletion_iff_session :
    ∃ x : Session faulty crc32Ieee,
      session crc32Ieee faultyFiles 20 [.seek 60, .poll .wait (.new 5), .poll .fail (.new 5)] =
        some x ∧
      ∃ clone : Reader faulty crc32Ieee, x.last.clone = .ok clone ∧
        ∀ r ∈ [x.last, clone], ∀ ctx buf,
          r.pollRead ctx 20 buf = .error .polledAfterCompletion ↔
            r.pinned.slot.Completed ∧ 0 < buf.remaining := by
  have hrun : (session crc32Ieee faultyFiles 20
      [.seek 60, .poll .wait (.new 5), .poll .fail (.new 5)]).map
      (fun x => x.last.clone.toOption.isSome) = some true := by decide +kernel
  obtain ⟨x, hx, h, hclone⟩ := exists_session hrun
  cases hc : x.last.clone with
  | error f =>
    rw [hc] at hclone
    cases hclone
  | ok clone =>
    have hpool : poolSystem.Run [x.reader] (x.ops.map (.reader 0) ++ [.clone 0])
        [x.last, clone] := .snoc h.steps.pool ⟨x.last, clone, rfl, hc, rfl⟩
    refine ⟨x, hx, clone, hc, ?_⟩
    intro r hr ctx buf
    exact (polledAfterCompletion_iff h.reached h.build hpool hr ctx (by decide) buf).1

/-- After the error the next call polls the future again. -/
theorem failed_future_polled_again :
    ∃ x : Session faulty crc32Ieee,
      session crc32Ieee faultyFiles 20 [.seek 60, .poll .fail (.new 5)] = some x ∧
      x.builder.Reached ∧ x.builder.build = .ok x.reader ∧ Steps x.reader x.ops x.last ∧
      x.last.pollRead .go 20 (.new 5) = .error .polledAfterCompletion := by
  have hrun : (session crc32Ieee faultyFiles 20 [.seek 60, .poll .fail (.new 5)]).map
      (fun x => x.last.pollsCompleted .go 20 (.new 5)) = some true := by decide +kernel
  obtain ⟨x, hx, h, hseen⟩ := exists_session hrun
  exact ⟨x, hx, h.reached, h.build, h.steps, Reader.pollRead_of_pollsCompleted hseen⟩

end Zippity
