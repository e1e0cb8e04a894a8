import Zippity.Properties.Http
import Zippity.Reader.Slot

/-! # No wakeup is lost

    A source that answers `Pending` has stored the waker of the task that
    polled it.  A reader that answers `Pending` stores nothing itself: the task
    is woken only because the reader keeps the future or the file reader that
    answered last, and keeps it as it answered.
-/

namespace Zippity

open Framework Async

section Model
variable {E : EntryData} {H : Crc32Fast}

/-! ### Wakers -/

/-- The contract of `Poll::Pending`: what answers it has arranged that the task of the context is
    woken. -/
structure Wakers (E : EntryData) where
  /-- The future wakes the task of the context. -/
  future : E.Future → E.Context → Prop
  /-- The reader wakes the task of the context. -/
  reader : E.Reader → E.Context → Prop
  poll : ∀ f ctx f', E.poll f ctx = (.pending, f') → future f' ctx
  pollRead : ∀ r d ctx buf r', E.pollRead r d ctx buf = (.pending, r') → reader r' ctx
  pollSeekComplete : ∀ r d ctx r', E.pollSeekComplete r d ctx = (.pending, r') → reader r' ctx

/-- What is kept in the slot wakes the task of the context. -/
def Wakers.Armed (w : Wakers E) (ctx : E.Context) : ReaderPinned E H → Prop
  | .nothing => False
  | .readerFuture future completed => completed = false ∧ w.future future ctx
  | .fileReader reader => w.reader reader.innerReader ctx

variable (w : Wakers E) {ctx : E.Context}

/-! ### CRC readers -/

theorem CrcReader.pollRead_armed {reader reader' : CrcReader E H} {data : E.Data} {buf : ReadBuf}
    (h : reader.pollRead data ctx buf = (.pending, reader')) :
    w.reader reader'.innerReader ctx := by
  unfold CrcReader.pollRead EntryData.pollReadInto at h
  rcases hpoll : E.pollRead reader.innerReader data ctx buf with ⟨_ | e | bytes, inner⟩
  · simp only [hpoll, Prod.mk.injEq, true_and] at h
    subst h
    exact w.pollRead _ _ _ _ _ hpoll
  · simp [hpoll] at h
  · simp [hpoll] at h

theorem CrcReader.pollSeekComplete_armed {reader reader' : CrcReader E H} {data : E.Data}
    (h : reader.pollSeekComplete data ctx = (.pending, reader')) :
    w.reader reader'.innerReader ctx := by
  unfold CrcReader.pollSeekComplete at h
  rcases hpoll : E.pollSeekComplete reader.innerReader data ctx with ⟨_ | e | pos, inner⟩
  · simp only [hpoll, Prod.mk.injEq, true_and] at h
    subst h
    exact w.pollSeekComplete _ _ _ _ hpoll
  · simp [hpoll] at h
  · simp [hpoll] at h

/-- A seek waits in its second phase only. -/
theorem CrcReader.seek_armed {reader reader' : CrcReader E H} {data : E.Data} {pos : SeekFrom}
    (h : reader.seek data ctx pos = (.pending, reader')) : w.reader reader'.innerReader ctx := by
  unfold CrcReader.seek at h
  split at h
  · exact CrcReader.pollSeekComplete_armed w h
  · split at h
    · cases h
    · exact CrcReader.pollSeekComplete_armed w h

/-- What is left in the slot when a source is pending is what answered. -/
theorem Wakers.slotRelations : SlotRelations (H := H) ctx (fun _ _ => True)
    (fun _ pinned => w.Armed ctx pinned.slot) where
  refl _ := trivial
  trans _ _ _ _ _ := trivial
  after _ _ _ _ harmed := harmed
  opens _ _ _ := trivial
  empties _ _ := trivial
  polls _ _ _ _ := trivial
  pollsErr _ _ _ _ _ := trivial
  pollsOk _ _ _ _ _ := trivial
  pollsPending _ _ _ hpoll := ⟨rfl, w.poll _ _ _ hpoll⟩
  reads _ _ _ _ := trivial
  readsPending _ _ _ _ _ hread := CrcReader.pollRead_armed w hread
  seeks _ _ _ _ := trivial
  seeksPending _ _ _ _ _ hseek := CrcReader.seek_armed w hseek

/-- **A `poll_read` that is pending** wrote nothing and leaves a slot that wakes its task. -/
theorem Reader.pollRead_armed {r r' : Reader E H} {fuel : Nat} {buf buf' : ReadBuf}
    (h : r.pollRead ctx fuel buf = .ok (.pending, r', buf')) :
    w.Armed ctx r'.pinned.slot ∧ buf' = buf := by
  obtain ⟨bytes, hcall⟩ := pollRead_callStep h
  have houtput := hcall.output
  rw [hcall.pending rfl] at houtput
  exact ⟨(w.slotRelations.pollRead h).2 rfl, houtput.eq_of_nil⟩

/-! ### Pools -/

/-- The reader that an operation polls, moves or empties. -/
def PoolOp.touches : PoolOp E → Option Nat
  | .reader i _ => some i
  | .clone _ => none
  | .takePinned i => some i

/-- An operation leaves the readers it does not touch as they are. -/
theorem getElem?_of_poolStep {pool pool' : List (Reader E H)} {op : PoolOp E} {i : Nat}
    {r : Reader E H} (hstep : poolSystem.step pool op pool') (hop : op.touches ≠ some i)
    (hr : pool[i]? = some r) : pool'[i]? = some r := by
  obtain ⟨hlt, _⟩ := List.getElem?_eq_some_iff.mp hr
  cases op with
  | reader j op =>
    obtain ⟨_, r', _, _, rfl⟩ := hstep
    have hne : j ≠ i := fun h => hop (congrArg some h)
    rw [List.getElem?_set_ne hne]
    exact hr
  | clone j =>
    obtain ⟨_, r', _, _, rfl⟩ := hstep
    rw [List.getElem?_append_left hlt]
    exact hr
  | takePinned j =>
    obtain ⟨_, taken, left, _, _, rfl⟩ := hstep
    have hne : j ≠ i := fun h => hop (congrArg some h)
    rw [List.getElem?_append_left (by rwa [List.length_set]), List.getElem?_set_ne hne]
    exact hr

/-- **No wakeup is lost.**  After a `poll_read` that was pending, whatever is done with the other
    readers of the pool, the reader keeps a future or a file reader that wakes the task of that
    poll; and the poll left the buffer as it was. -/
theorem armed_of_pending {pool pool' : List (Reader E H)} {before after : List (PoolOp E)} {i : Nat}
    {buf buf' : ReadBuf}
    (hrun : poolSystem.Run pool (before ++ .reader i (.pollRead ctx buf .pending buf') :: after)
      pool') (hafter : ∀ op ∈ after, op.touches ≠ some i) :
    buf' = buf ∧ ∃ r, pool'[i]? = some r ∧ w.Armed ctx r.pinned.slot := by
  obtain ⟨pool₁, _, hrest⟩ := hrun.split
  obtain ⟨pool₂, hstep, hothers⟩ := hrest.cons_inv
  obtain ⟨r, r', hr, ⟨fuel, hpoll⟩, rfl⟩ := hstep
  obtain ⟨harmed, hbuf⟩ := Reader.pollRead_armed w hpoll
  refine ⟨hbuf, r', ?_, harmed⟩
  -- the reader stays where it is through the operations on the others
  apply hothers.invariant_of (fun op => op.touches ≠ some i) hafter
    (fun _ pool => pool[i]? = some r')
  · obtain ⟨hlt, _⟩ := List.getElem?_eq_some_iff.mp hr
    exact List.getElem?_set_self hlt
  · intro _ pool op pool' hkept hop hstep
    exact getElem?_of_poolStep hstep hop hkept

/-! ### Streams and bodies -/

/-- A stream that is pending has a reader whose slot wakes its task. -/
theorem BytesStream.pollNext_pendsIn {lib : PollReadBuf} {fuel : Nat}
    {allocated : Allocated READ_SIZE} :
    PendsIn (fun s : BytesStream E H => w.Armed ctx s.reader.pinned.slot)
      (BytesStream.pollNext lib ctx fuel allocated) := by
  intro s
  unfold BytesStream.pollNext
  rw [wp_get_bind, wp_bind, wp_lift]
  refine Exec.wp_assert (fun _ => trivial) fun hempty => ?_
  simp only [andThen]
  rw [wp_bind, wp_lift]
  refine Exec.wp_assert (fun _ => trivial) fun hcapacity => ?_
  simp only [andThen]
  -- with free bytes `poll_read_buf` answers as the reader does
  have hroom := lib.offered_room s.buffer hempty hcapacity
  have hpoll : (BytesStream.pollReadBuf lib ctx fuel).wp (fun _ => True)
      (fun answer s' => answer = .pending → w.Armed ctx s'.reader.pinned.slot) s := by
    unfold BytesStream.pollReadBuf
    rw [wp_zoom, Exec.wp_ok]
    unfold Async.wp
    rw [lib.appends _ _ _ hroom]
    dsimp only
    cases hcall : s.reader.pollRead ctx fuel (lib.offered s.buffer) with
    | error f => trivial
    | ok result =>
      obtain ⟨answer, r', buf⟩ := result
      cases answer with
      | pending => exact fun _ => (Reader.pollRead_armed w hcall).1
      | err e => exact fun h => by cases h
      | ok => exact fun h => by cases h
  rw [wp_bind]
  refine wp_mono hpoll (fun _ hf => hf) ?_
  intro answer s' hpends
  cases answer with
  | pending => exact fun _ => hpends rfl
  | err e => exact fun h => by cases h
  | ok n =>
    simp only [andThen]
    split
    · exact fun h => by cases h
    · exact fun h => by cases h

/-- A body that is pending, too. -/
theorem Body.pollNext_pendsIn {lib : PollReadBuf} {fuel : Nat} {allocated : Allocated READ_SIZE} :
    PendsIn (fun s : Body E H => w.Armed ctx s.inner.bytesStream.reader.pinned.slot)
      (Body.pollNext lib ctx fuel allocated) := by
  unfold Body.pollNext
  refine pendsIn_get.bind fun s => ?_
  split
  · exact pendsIn_pure _
  · have hstream : PendsIn (fun s : Body E H => w.Armed ctx s.inner.bytesStream.reader.pinned.slot)
        (Body.onBytesStream (BytesStream.pollNext lib ctx fuel allocated)) :=
      (BytesStream.pollNext_pendsIn w).zoom fun _ _ harmed => harmed
    refine hstream.bind fun block => ?_
    cases block with
    | none => exact pendsIn_fault _
    | some block =>
      dsimp only
      refine pendsIn_get.bind fun s => ?_
      split
      · exact (pendsIn_modify _).bind fun _ => pendsIn_pure _
      · exact (pendsIn_lift _).bind fun _ => (pendsIn_modify _).bind fun _ => pendsIn_pure _

/-- **No wakeup of a server is lost**: after a run of a body whose last poll was pending, the reader
    under it wakes the task of that poll. -/
theorem armed_of_body_pending {lib : PollReadBuf} {body body' : Body E H}
    {polls : List (BodyPoll E)}
    (hrun : (bodySystem lib).Run body (polls ++ [⟨ctx, .pending⟩]) body') :
    w.Armed ctx body'.inner.bytesStream.reader.pinned.slot := by
  obtain ⟨body₁, _, hstep⟩ := hrun.snoc_inv
  obtain ⟨fuel, allocated, hpoll⟩ := hstep
  exact (Body.pollNext_pendsIn w).of_run hpoll

end Model

/-! ### Sources that keep wakers -/

/-- Entry data whose futures and readers keep the waker of the poll that met `Pending`, as the task
    it wakes. -/
def EntryData.keepingWakers (E : EntryData) (Task : Type) : EntryData where
  Data := E.Data
  Reader := E.Reader × Option Task
  Future := E.Future × Option Task
  Context := E.Context × Task
  Error := E.Error
  getReader d := (E.getReader d, none)
  size := E.size
  size_lt := E.size_lt
  poll future ctx :=
    match E.poll future.1 ctx.1 with
    | (.pending, future') => (.pending, future', some ctx.2)
    | (.err e, future') => (.err e, future', none)
    | (.ok reader, future') => (.ok (reader, none), future', none)
  pollRead reader d ctx buf :=
    match E.pollRead reader.1 d ctx.1 buf with
    | (.pending, reader') => (.pending, reader', some ctx.2)
    | (answer, reader') => (answer, reader', none)
  startSeek reader d pos :=
    let (result, reader') := E.startSeek reader.1 d pos
    (result, reader', reader.2)
  pollSeekComplete reader d ctx :=
    match E.pollSeekComplete reader.1 d ctx.1 with
    | (.pending, reader') => (.pending, reader', some ctx.2)
    | (answer, reader') => (answer, reader', none)

/-- What keeps the waker of a task wakes it. -/
def keptWakers (E : EntryData) (Task : Type) : Wakers (E.keepingWakers Task) where
  future := fun future ctx => future.2 = some ctx.2
  reader := fun reader ctx => reader.2 = some ctx.2
  poll := by
    intro future ctx future' h
    unfold EntryData.keepingWakers at h
    dsimp only at h
    split at h
    · cases h
      rfl
    · cases h
    · cases h
  pollRead := by
    intro reader d ctx buf reader' h
    unfold EntryData.keepingWakers at h
    dsimp only at h
    split at h
    · cases h
      rfl
    · next hne _ =>
      cases h
      exact (hne rfl).elim
  pollSeekComplete := by
    intro reader d ctx reader' h
    unfold EntryData.keepingWakers at h
    dsimp only at h
    split at h
    · cases h
      rfl
    · next hne _ =>
      cases h
      exact (hne rfl).elim

/-! ### Sessions -/

/-- The call is pending, and the reader it leaves can be cloned. -/
def Reader.suspends {E : EntryData} {H : Crc32Fast} (r : Reader E H) (ctx : E.Context) (fuel : Nat)
    (buf : ReadBuf) : Bool :=
  match r.pollRead ctx fuel buf with
  | .ok (.pending, r', _) => r'.clone.toOption.isSome
  | _ => false

theorem Reader.pollRead_of_suspends {E : EntryData} {H : Crc32Fast} {r : Reader E H}
    {ctx : E.Context} {fuel : Nat} {buf : ReadBuf} (h : r.suspends ctx fuel buf = true) :
    ∃ r' buf' clone, r.pollRead ctx fuel buf = .ok (.pending, r', buf') ∧ r'.clone = .ok clone := by
  unfold Reader.suspends at h
  split at h
  · next r' buf' hpoll =>
    cases hclone : r'.clone with
    | error f =>
      rw [hclone] at h
      cases h
    | ok clone => exact ⟨r', buf', clone, hpoll, hclone⟩
  · cases h

/-- Sources that wait as the context says and keep the waker of the task, a number. -/
abbrev tasks : EntryData := steady.keepingWakers Nat

def taskFiles : List (Source tasks) := threeFiles

/-- Task 7 waits in the data of an entry, and the reader is cloned. -/
theorem armed_of_pending_session :
    ∃ x : Session tasks crc32Ieee,
      session crc32Ieee taskFiles 20 [.seek 60, .poll (true, 3) (room 1)] = some x ∧
      ∃ r' clone buf', poolSystem.Run [x.last]
          ([] ++ .reader 0 (.pollRead (false, 7) (room 5) .pending buf') :: [.clone 0])
          [r', clone] ∧
        (keptWakers steady Nat).Armed (false, 7) r'.pinned.slot := by
  have hrun : (session crc32Ieee taskFiles 20 [.seek 60, .poll (true, 3) (room 1)]).map
      (fun x => x.last.suspends (false, 7) 20 (room 5)) = some true := by decide +kernel
  obtain ⟨x, hx, h, hseen⟩ := exists_session hrun
  obtain ⟨r', buf', clone, hpoll, hclone⟩ := Reader.pollRead_of_suspends hseen
  have hpool : poolSystem.Run [x.last]
      ([] ++ .reader 0 (.pollRead (false, 7) (room 5) .pending buf') :: [.clone 0]) [r', clone] := by
    have hfirst : poolSystem.step [x.last]
        (.reader 0 (.pollRead (false, 7) (room 5) .pending buf')) [r'] :=
      ⟨x.last, r', rfl, ⟨20, hpoll⟩, rfl⟩
    have hsecond : poolSystem.step [r'] (.clone 0) [r', clone] := ⟨r', clone, rfl, hclone, rfl⟩
    exact System.Run.cons hfirst (.snoc .nil hsecond)
  have harmed := armed_of_pending (keptWakers steady Nat) hpool (by
    intro op hop
    obtain rfl := List.mem_singleton.mp hop
    simp [PoolOp.touches])
  obtain ⟨_, r, hr, harmed⟩ := harmed
  cases hr
  exact ⟨x, hx, r', clone, buf', hpool, harmed⟩

/-- The poll of the body is pending. -/
def Body.suspends {E : EntryData} {H : Crc32Fast} (body : Body E H) (ctx : E.Context) (fuel : Nat) :
    Bool :=
  match body.pollNext spareCapacity ctx fuel ⟨READ_SIZE, Nat.le_refl _⟩ with
  | .ok (.pending, _) => true
  | _ => false

theorem Body.run_of_suspends {E : EntryData} {H : Crc32Fast} {body : Body E H} {ctx : E.Context}
    {fuel : Nat} (h : body.suspends ctx fuel = true) :
    ∃ body', (bodySystem spareCapacity).Run body ([] ++ [⟨ctx, .pending⟩]) body' := by
  unfold Body.suspends at h
  split at h
  · next body' hpoll => exact ⟨body', .snoc .nil ⟨fuel, _, hpoll⟩⟩
  · cases h

/-- A body of 31 bytes of a response with a channel. -/
def Reader.responseBody {E : EntryData} {H : Crc32Fast} (r : Reader E H) : Body E H :=
  .new (r.intoResponder ⟨READ_SIZE, Nat.le_refl _⟩ true).inner 31

/-- Task 7 waits for the body of a response. -/
theorem armed_of_body_pending_session :
    ∃ x : Session tasks crc32Ieee,
      session crc32Ieee taskFiles 20 [.seek 60, .poll (true, 3) (room 1)] = some x ∧
      ∃ body', (bodySystem spareCapacity).Run x.last.responseBody
          ([] ++ [⟨(false, 7), .pending⟩]) body' ∧
        (keptWakers steady Nat).Armed (false, 7) body'.inner.bytesStream.reader.pinned.slot := by
  have hrun : (session crc32Ieee taskFiles 20 [.seek 60, .poll (true, 3) (room 1)]).map
      (fun x => x.last.responseBody.suspends (false, 7) 20) = some true := by decide +kernel
  obtain ⟨x, hx, _, hseen⟩ := exists_session hrun
  obtain ⟨body', hpolls⟩ := Body.run_of_suspends hseen
  exact ⟨x, hx, body', hpolls, armed_of_body_pending (keptWakers steady Nat) hpolls⟩

end Zippity
