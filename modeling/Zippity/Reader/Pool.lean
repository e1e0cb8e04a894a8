import Zippity.Reader.Call

/-! # Several readers

    `clone` and `take_pinned` make a reader out of a reader, so a caller has a
    pool of them.  The operations on the readers of a pool come in any order.
-/

namespace Zippity

open Framework Async
open Exec (u64Bound)

section Model
variable {E : EntryData} {H : Crc32Fast}

/-! ### Pools -/

/-- An operation on the readers of a pool. -/
inductive PoolOp (E : EntryData) where
  /-- `poll_read` or a seek on a reader. -/
  | reader (i : Nat) (op : Op E)
  /-- `clone` of a reader; the clone joins the pool. -/
  | clone (i : Nat)
  /-- `take_pinned` of a reader; the reader taken joins the pool. -/
  | takePinned (i : Nat)

/-- Pools of readers as a transition system, from one reader on. -/
def poolSystem : System (List (Reader E H)) (PoolOp E) where
  init pool := ∃ r, readerSystem.init r ∧ pool = [r]
  step pool op pool' :=
    match op with
    | .reader i op => ∃ r r', pool[i]? = some r ∧ readerSystem.step r op r' ∧ pool' = pool.set i r'
    | .clone i => ∃ r r', pool[i]? = some r ∧ r.clone = .ok r' ∧ pool' = pool ++ [r']
    | .takePinned i => ∃ r taken left, pool[i]? = some r ∧ r.takePinned = .ok (taken, left) ∧
      pool' = pool.set i left ++ [taken]

/-- An invariant of readers that every operation keeps holds of every reader of a pool. -/
theorem forall_of_poolRun {P : Reader E H → Prop}
    (hop : ∀ r op r', P r → readerSystem.step r op r' → P r')
    (hclone : ∀ r r', P r → r.clone = .ok r' → P r')
    (htake : ∀ r taken left, P r → r.takePinned = .ok (taken, left) → P taken ∧ P left)
    {pool pool' : List (Reader E H)} {ops : List (PoolOp E)} (hinit : ∀ r ∈ pool, P r)
    (hrun : poolSystem.Run pool ops pool') : ∀ r ∈ pool', P r := by
  apply hrun.invariant (fun _ pool => ∀ r ∈ pool, P r) hinit
  intro _ pool op pool' hpool hstep
  cases op with
  | reader i op =>
    obtain ⟨r, r', hr, hstep, rfl⟩ := hstep
    intro r₁ hr₁
    rcases List.mem_or_eq_of_mem_set hr₁ with hold | rfl
    · exact hpool r₁ hold
    · exact hop r op _ (hpool r (List.mem_of_getElem? hr)) hstep
  | clone i =>
    obtain ⟨r, r', hr, hclone', rfl⟩ := hstep
    intro r₁ hr₁
    rcases List.mem_append.mp hr₁ with hold | hnew
    · exact hpool r₁ hold
    · obtain rfl := List.mem_singleton.mp hnew
      exact hclone r _ (hpool r (List.mem_of_getElem? hr)) hclone'
  | takePinned i =>
    obtain ⟨r, taken, left, hr, htake', rfl⟩ := hstep
    have hboth := htake r taken left (hpool r (List.mem_of_getElem? hr)) htake'
    intro r₁ hr₁
    rcases List.mem_append.mp hr₁ with hold | hnew
    · rcases List.mem_or_eq_of_mem_set hold with hold | rfl
      · exact hpool r₁ hold
      · exact hboth.2
    · obtain rfl := List.mem_singleton.mp hnew
      exact hboth.1

/-- The operations on one reader are operations on the pool of it. -/
theorem Steps.pool {r r' : Reader E H} {ops : List (Op E)} (h : Steps r ops r') :
    poolSystem.Run [r] (ops.map (.reader 0)) [r'] := by
  induction h with
  | nil => exact .nil
  | snoc _ hstep ih =>
    rw [List.map_append]
    exact .snoc ih ⟨_, _, rfl, hstep, rfl⟩

/-! ### Slots of new readers -/

/-- A clone waits for nothing. -/
theorem slot_of_clone {r r' : Reader E H} (h : r.clone = .ok r') : r'.pinned.slot = .nothing :=
  (seekFromStart_seekStep h).slot

/-- Neither the reader taken nor the one left behind waits for anything. -/
theorem slots_of_takePinned {r taken left : Reader E H} (h : r.takePinned = .ok (taken, left)) :
    taken.pinned.slot = .nothing ∧ left.pinned.slot = .nothing := by
  obtain ⟨empty, _, h⟩ := Exec.bind_eq_ok h
  obtain ⟨readState, _, h⟩ := Exec.bind_eq_ok h
  cases h
  exact ⟨rfl, rfl⟩

/-! ### Polling a completed future -/

/-- `get_reader` polls the future in the slot, completed or not. -/
theorem getReader_stops {ctx : E.Context} {t : EntryFrame E H} (h : t.pinned.slot.Completed) :
    (getReader ctx).Stops .polledAfterCompletion t := by
  cases hslot : t.pinned.slot with
  | nothing => rw [hslot] at h; exact h.elim
  | fileReader reader => rw [hslot] at h; exact h.elim
  | readerFuture future completed =>
    rw [hslot] at h
    cases h
    unfold getReader openFuture Stops
    rw [wp_bind, wp_get_bind, hslot]
    simp only [wp_pure, andThen, wp_bind]
    unfold pollFuture Async.wp
    dsimp only
    rw [hslot]
    rfl

/-- `get_crc` polls it when the CRC is neither known nor that of an empty file. -/
theorem getCrc_stops {ctx : E.Context} {fuel : Nat} {t : EntryFrame E H}
    (h : t.pinned.slot.Completed) (hcrc : t.entry.crc32 = none) (hsize : t.entry.size ≠ 0) :
    (getCrc ctx fuel).Stops .polledAfterCompletion t := by
  unfold getCrc Stops
  rw [wp_get_bind, hcrc]
  dsimp only
  rw [if_neg hsize]
  exact (getReader_stops h).bind

/-- A turn that needs a reader polls it, when nothing was written yet. -/
theorem readIteration_stops {sizes : Sizes} {ctx : E.Context} {fuel : Nat} {s : Frame E H}
    (h : s.pinned.slot.Completed) (hneeds : NeedsReader s.readState s.entries) :
    (readIteration sizes ctx fuel s.output.remaining).Stops .polledAfterCompletion s := by
  obtain ⟨hempty, i, entry, size, hentry, hsize, hskip, hchunk⟩ := hneeds
  have hfin : s.readState.currentChunk ≠ .finished := by
    rintro hfin
    rw [hfin] at hchunk
    simp at hchunk
  -- what the chunk does, on its entry
  have hread : ∀ {α : Type} {x : EntryRead E H α},
      x.Stops .polledAfterCompletion ⟨s.readState, entry, s.pinned, s.output⟩ →
      (zippityReady s.output.remaining (onEntry i x)).Stops .polledAfterCompletion s := by
    intro α x hx
    unfold Stops
    rw [zippityReady_wp, onEntry_wp hentry]
    exact wp_mono hx (fun _ hf => hf) (fun _ _ hfalse => hfalse.elim)
  have hchunk : (readChunk sizes ctx fuel s.output.remaining).Stops .polledAfterCompletion s := by
    unfold readChunk Stops
    rw [wp_get_bind]
    rcases hchunk with hdata | ⟨hdescriptor | hheader, hcrc, hne⟩
    · rw [hdata]
      dsimp only
      rw [if_neg (not_not.mpr rfl)]
      exact hread (getReader_stops h).bind
    · rw [hdescriptor]
      exact hread (getCrc_stops h hcrc hne).bind
    · rw [hheader]
      exact hread (getCrc_stops h hcrc hne).bind
  unfold readIteration Stops
  rw [wp_get_bind, if_neg (not_not.mpr hempty), if_neg hfin, wp_bind, wp_lift, hsize]
  simp only [Exec.wp_ok, andThen]
  rw [if_neg (Nat.not_le.mpr hskip)]
  exact hchunk.bind

/-- **A call that needs a reader polls the completed future in the slot.** -/
theorem pollRead_completed {r : Reader E H} (h : r.pinned.slot.Completed)
    (hneeds : NeedsReader r.readState r.entries) (ctx : E.Context) (fuel : Nat) {buf : ReadBuf}
    (hroom : 0 < buf.remaining) :
    r.pollRead ctx (fuel + 1) buf = .error .polledAfterCompletion := by
  have hroom' : (r.frame buf).output.remaining > 0 := hroom
  have hloop : (readLoop r.sizes ctx buf.remaining (fuel + 1)).Stops .polledAfterCompletion
      (r.frame buf) := by
    unfold readLoop Stops
    rw [wp_get_bind, if_pos hroom']
    exact (readIteration_stops (s := r.frame buf) h hneeds).bind
  have hread : (read r.sizes ctx (fuel + 1)).Stops .polledAfterCompletion (r.frame buf) := by
    unfold read Stops
    rw [wp_get_bind]
    exact hloop.bind
  apply Exec.eq_error_of_wp
  unfold Reader.pollRead
  rw [Exec.wp_bind]
  exact Exec.wp_mono hread (fun _ hf => hf) (fun _ hfalse => hfalse.elim)

/-- Without turns a call does not return. -/
theorem pollRead_zero (r : Reader E H) (ctx : E.Context) (buf : ReadBuf) :
    r.pollRead ctx 0 buf = .error .outOfFuel := rfl

/-- Without room a call polls nothing and leaves the reader as it is. -/
theorem pollRead_full (r : Reader E H) (ctx : E.Context) (fuel : Nat) {buf : ReadBuf}
    (hfull : buf.remaining = 0) :
    Exec.wp (fun f => f ≠ .polledAfterCompletion) (fun (_, r', _) => r' = r)
      (r.pollRead ctx fuel buf) := by
  have hread : (read r.sizes ctx fuel).wp (fun f => f ≠ .polledAfterCompletion)
      (fun _ s' => s' = r.frame buf) (r.frame buf) := by
    cases fuel with
    | zero =>
      show Fault.outOfFuel ≠ .polledAfterCompletion
      simp
    | succ fuel =>
      have hfull' : ¬ (r.frame buf).output.remaining > 0 := by
        show ¬ buf.remaining > 0
        omega
      unfold read readLoop
      rw [wp_get_bind, wp_bind, wp_get_bind, if_neg hfull', wp_pure]
      simp only [andThen]
      -- the bytes written are none
      rw [wp_get_bind, wp_bind, wp_lift, Exec.subU64_eq (Nat.le_refl _), Nat.sub_self]
      simp only [Exec.wp_ok, andThen]
      rw [wp_bind, wp_lift]
      exact Exec.wp_addU64 (by simp) (fun _ => rfl)
  unfold Reader.pollRead
  rw [Exec.wp_bind]
  refine Exec.wp_mono hread (fun _ hf => hf) ?_
  rintro ⟨_, s'⟩ rfl
  rfl

end Model

end Zippity
