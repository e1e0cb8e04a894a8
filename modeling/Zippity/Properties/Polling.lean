import Zippity.ActixWeb
import Zippity.Properties.Progress

/-! # Polls of streams and bodies are polls of a reader

    A stream polls its reader once for each of its own polls, and a body its
    stream at most once.  They wait when the reader waits and fail when it
    fails.  So it is the reader that pays for every poll that waits, and a
    stream that is polled often enough ends.
-/

namespace Zippity

open Framework Async

section Model
variable {E : EntryData} {H : Crc32Fast}

/-- The poll was answered `Pending`. -/
def BodyPoll.isPending (poll : BodyPoll E) : Bool :=
  match poll.answer with
  | .pending => true
  | _ => false

/-- A stream as a transition system, from `BytesStream::new` on. -/
def streamSystem (lib : PollReadBuf) : System (BytesStream E H) (BodyPoll E) where
  init s := ∃ (r : Reader E H) (allocated : Allocated READ_SIZE), s = r.intoBytesStream allocated
  step s poll s' :=
    ∃ fuel allocated, BytesStream.pollNext lib poll.ctx fuel allocated s = .ok (poll.answer, s')

/-- What a poll of a stream is to its reader. -/
structure StreamPolled (poll : BodyPoll E) (s s' : BytesStream E H) (op : Op E) : Prop where
  step : readerSystem.step s.reader op s'.reader
  isPoll : op.isPoll = true
  isPending : op.isPending = poll.isPending
  succeeds : NoError poll.answer → op.succeeds = true
  delivered : op.delivered = poll.bytes
  /-- The stream ends when its reader has nothing for a buffer with room. -/
  ended : poll.answer = .ok none → ∃ ctx fuel buf, 0 < buf.remaining ∧
    s.reader.pollRead ctx fuel buf = .ok (.ok (), s'.reader, buf)
  /-- Nothing is left in the buffer. -/
  buffer : s'.buffer.bytes = []
  capacity : 0 < s'.buffer.capacity

/-- Polls lead from one reader to the other.  They deliver what streams or bodies yielded, and they
    waited and failed with them. -/
structure Polled (polls : List (BodyPoll E)) (r : Reader E H) (ops : List (Op E))
    (r' : Reader E H) : Prop where
  steps : Steps r ops r'
  isPoll : ∀ op ∈ ops, op.isPoll = true
  delivered : (yielded polls).length ≤ (deliveredBytes ops).length
  pending : ops.countP Op.isPending = polls.countP BodyPoll.isPending
  succeeds : (∀ poll ∈ polls, NoError poll.answer) → ∀ op ∈ ops, op.succeeds = true

/-- What a poll of a body does to it, whatever the sources do. -/
structure BodyMoved (poll : BodyPoll E) (body body' : Body E H) : Prop where
  size : body'.size = body.size
  dropChannel : body'.inner.dropChannel = body.inner.dropChannel
  reader : ∃ ops, Polled [poll] body.inner.bytesStream.reader ops body'.inner.bytesStream.reader

section Polls
variable {lib : PollReadBuf} {ctx : E.Context} {fuel : Nat} {allocated : Allocated READ_SIZE}
  {r r' r'' : Reader E H} {polls polls' : List (BodyPoll E)} {ops ops' : List (Op E)}
  {poll : BodyPoll E}

/-! ### One poll -/

/-- What `poll_read` delivers to a buffer with free bytes is appended and counted. -/
theorem pollReadBuf_wp {F : Fault → Prop} {Q : PollResult (IoError E) Nat → BytesStream E H → Prop}
    {s : BytesStream E H} (hroom : 0 < (lib.offered s.buffer).remaining)
    (h : Exec.wp F (fun (answer, r', buf) =>
      match answer with
      | .pending => Q .pending ⟨r', s.buffer⟩
      | .err e => Q (.err e) ⟨r', s.buffer⟩
      | .ok () => Q (.ok buf.filled.length)
        ⟨r', { s.buffer with bytes := s.buffer.bytes ++ buf.filled }⟩)
      (s.reader.pollRead ctx fuel (lib.offered s.buffer))) :
    (BytesStream.pollReadBuf lib ctx fuel).wp F Q s := by
  unfold BytesStream.pollReadBuf
  rw [wp_zoom, Exec.wp_ok]
  unfold Async.wp
  rw [lib.appends _ _ _ hroom]
  dsimp only
  cases hpoll : s.reader.pollRead ctx fuel (lib.offered s.buffer) with
  | error f =>
    rw [hpoll] at h
    exact h
  | ok result =>
    obtain ⟨answer, r', buf⟩ := result
    rw [hpoll] at h
    cases answer with
    | pending => exact h
    | err e => exact h
    | ok => exact h

/-- **A poll of a stream** polls its reader, and yields what this delivers. -/
theorem BytesStream.pollNext_polled (s : BytesStream E H) :
    (BytesStream.pollNext lib ctx fuel allocated).wp (fun _ => True)
      (fun answer s' => ∃ op, StreamPolled ⟨ctx, answer⟩ s s' op) s := by
  unfold BytesStream.pollNext
  rw [wp_get_bind, wp_bind, wp_lift]
  refine Exec.wp_assert (fun _ => trivial) fun hempty => ?_
  simp only [andThen]
  rw [wp_bind, wp_lift]
  refine Exec.wp_assert (fun _ => trivial) fun hcapacity => ?_
  simp only [andThen]
  rw [wp_bind]
  have hroom := lib.offered_room s.buffer hempty hcapacity
  apply pollReadBuf_wp hroom
  cases hpoll : s.reader.pollRead ctx fuel (lib.offered s.buffer) with
  | error f => trivial
  | ok result =>
    obtain ⟨answer, r', buf'⟩ := result
    have hstep : readerSystem.step s.reader (.pollRead ctx (lib.offered s.buffer) answer buf') r' :=
      ⟨fuel, hpoll⟩
    cases answer with
    | pending =>
      exact ⟨_, hstep, rfl, rfl, fun _ => rfl, rfl, by simp, hempty, hcapacity⟩
    | err e =>
      exact ⟨_, hstep, rfl, rfl, fun hno => absurd rfl (hno e), rfl, by simp, hempty, hcapacity⟩
    | ok =>
      simp only [Exec.wp_ok, andThen]
      have hdelivered : (Op.pollRead ctx (lib.offered s.buffer) (.ok ()) buf').delivered =
          buf'.filled := by
        simp [Op.delivered, lib.offered_filled]
      split
      · next hzero =>
        -- nothing was filled, so the buffer is the one offered
        have hnil : buf'.filled = [] := List.length_eq_zero_iff.mp hzero
        obtain ⟨bytes, hcall⟩ := pollRead_callStep hpoll
        have hext := hcall.output
        have hbytes : bytes = [] := by
          rw [← hext.drop_filled, hnil, List.drop_nil]
        rw [hbytes] at hext
        have hsame := hpoll
        rw [hext.eq_of_nil] at hsame
        refine ⟨_, hstep, rfl, rfl, fun _ => rfl, hdelivered.trans hnil,
          fun _ => ⟨ctx, fuel, _, hroom, hsame⟩, ?_, hcapacity⟩
        show s.buffer.bytes ++ buf'.filled = []
        rw [hempty, hnil, List.nil_append]
      · rw [wp_get_bind, wp_modify_bind, wp_pure]
        have hsize : 0 < READ_SIZE := by decide
        refine ⟨_, hstep, rfl, rfl, fun _ => rfl, ?_, by simp, rfl,
          Nat.lt_of_lt_of_le hsize allocated.2⟩
        rw [hdelivered]
        show buf'.filled = s.buffer.bytes ++ buf'.filled
        rw [hempty, List.nil_append]

/-- A step of a stream. -/
theorem streamPolled_of_step {s s' : BytesStream E H} (hstep : (streamSystem lib).step s poll s') :
    ∃ op, StreamPolled poll s s' op := by
  obtain ⟨fuel, allocated, hpoll⟩ := hstep
  have hpolled := Exec.wp_of_eq_ok s.pollNext_polled hpoll
  exact hpolled

/-! ### Runs -/

theorem Polled.refl (r : Reader E H) : Polled [] r [] r :=
  ⟨.nil, by simp, Nat.zero_le _, rfl, by simp⟩

theorem Polled.trans (h : Polled polls r ops r') (h' : Polled polls' r' ops' r'') :
    Polled (polls ++ polls') r (ops ++ ops') r'' := by
  refine ⟨h.steps.append h'.steps, ?_, ?_, ?_, ?_⟩
  · exact List.forall_mem_append.mpr ⟨h.isPoll, h'.isPoll⟩
  · have hle := Nat.add_le_add h.delivered h'.delivered
    unfold yielded deliveredBytes at hle ⊢
    rw [List.flatMap_append, List.flatMap_append, List.length_append, List.length_append]
    exact hle
  · rw [List.countP_append, List.countP_append, h.pending, h'.pending]
  · intro hok
    rw [List.forall_mem_append] at hok ⊢
    exact ⟨h.succeeds hok.1, h'.succeeds hok.2⟩

/-- The one poll of a stream. -/
theorem StreamPolled.polled {s s' : BytesStream E H} {op : Op E} (h : StreamPolled poll s s' op) :
    Polled [poll] s.reader [op] s'.reader := by
  refine ⟨.snoc .nil h.step, ?_, ?_, ?_, ?_⟩
  · exact List.forall_mem_singleton.mpr h.isPoll
  · simp [yielded, deliveredBytes, h.delivered]
  · rw [List.countP_singleton, List.countP_singleton, h.isPending]
  · intro hok
    exact List.forall_mem_singleton.mpr (h.succeeds (hok poll List.mem_cons_self))

/-- **A poll of a body** polls its reader once, or not at all. -/
theorem Body.pollNext_moved (body : Body E H) :
    (Body.pollNext lib ctx fuel allocated).wp (fun _ => True)
      (fun answer body' => BodyMoved ⟨ctx, answer⟩ body body') body := by
  unfold Body.pollNext
  rw [wp_get_bind]
  split
  · exact ⟨rfl, rfl, [], .nil, by simp, Nat.zero_le _, rfl, by simp⟩
  · rw [wp_bind]
    unfold Body.onBytesStream
    rw [wp_zoom, Exec.wp_ok]
    refine wp_mono (BytesStream.pollNext_polled body.inner.bytesStream) (fun _ hf => hf) ?_
    rintro answer s' ⟨op, hstream⟩
    have hpolled := hstream.polled
    cases answer with
    | pending => exact ⟨rfl, rfl, _, hpolled⟩
    | err e => exact ⟨rfl, rfl, _, hpolled⟩
    | ok block =>
      simp only [andThen]
      cases block with
      | none => exact True.intro
      | some block =>
        dsimp only
        rw [wp_get_bind]
        dsimp only
        split
        · -- the last block is cut
          rw [wp_modify_bind, wp_pure]
          refine ⟨rfl, rfl, _, hpolled.steps, hpolled.isPoll, ?_, hpolled.pending, ?_⟩
          · refine Nat.le_trans ?_ hpolled.delivered
            simp only [yielded, List.flatMap_singleton, BodyPoll.bytes]
            exact List.length_take_le' _ _
          · exact fun _ => hpolled.succeeds (by simp [NoError])
        · rw [wp_bind, wp_lift]
          refine Exec.wp_subU64 (fun _ => trivial) fun _ => ?_
          simp only [andThen]
          rw [wp_modify_bind, wp_pure]
          exact ⟨rfl, rfl, _, hpolled⟩

/-- A step of a body. -/
theorem bodyMoved_of_step {body body' : Body E H} (hstep : (bodySystem lib).step body poll body') :
    BodyMoved poll body body' := by
  obtain ⟨fuel, allocated, hpoll⟩ := hstep
  have hmoved : Exec.wp (fun _ => True) (fun result => BodyMoved ⟨poll.ctx, result.1⟩ body result.2)
      (body.pollNext lib poll.ctx fuel allocated) := Body.pollNext_moved body
  have hafter := Exec.wp_of_eq_ok hmoved hpoll
  exact hafter

/-- Steps that poll a reader lead to runs that do. -/
theorem Polled.run {State : Type} {sys : System State (BodyPoll E)} {reader : State → Reader E H}
    (hstep : ∀ s poll s', sys.step s poll s' → ∃ ops, Polled [poll] (reader s) ops (reader s'))
    {s s' : State} (hrun : sys.Run s polls s') :
    ∃ ops, Polled polls (reader s) ops (reader s') := by
  apply hrun.invariant (fun polls s' => ∃ ops, Polled polls (reader s) ops (reader s'))
  · exact ⟨[], .refl _⟩
  · intro polls s₁ poll s₂ hpolled hst
    obtain ⟨ops, hpolled⟩ := hpolled
    obtain ⟨ops', hpolled'⟩ := hstep s₁ poll s₂ hst
    exact ⟨ops ++ ops', hpolled.trans hpolled'⟩

/-! ### Progress -/

/-- What polls take of a slice, and what they leave of it: blocks that are not empty, and `None` only
    where nothing is left. -/
structure Taken (slice : List UInt8) (polls : List (BodyPoll E)) (left : List UInt8) : Prop where
  split : slice = yielded polls ++ left
  blocks : ∀ poll ∈ polls, poll.answer ≠ .ok (some [])
  ended : ∀ poll ∈ polls, poll.answer = .ok none → left = []

section Taken
variable {slice left left' : List UInt8}

theorem Taken.refl (slice : List UInt8) : Taken slice ([] : List (BodyPoll E)) slice :=
  ⟨rfl, by simp, by simp⟩

theorem Taken.trans (h : Taken slice polls left) (h' : Taken left polls' left') :
    Taken slice (polls ++ polls') left' := by
  refine ⟨?_, ?_, ?_⟩
  · rw [h.split, h'.split, yielded, yielded, yielded, List.flatMap_append, List.append_assoc]
  · exact List.forall_mem_append.mpr ⟨h.blocks, h'.blocks⟩
  · rw [List.forall_mem_append]
    refine ⟨fun poll hpoll hnone => ?_, h'.ended⟩
    -- of nothing nothing is left
    have hnil := h'.split.symm.trans (h.ended poll hpoll hnone)
    exact (List.append_eq_nil_iff.mp hnil).2

/-- Polls that are answered without an error or the end wait, or take a byte each. -/
theorem length_le_of_blocks (hblocks : ∀ poll ∈ polls, poll.answer ≠ .ok (some []))
    (hok : ∀ poll ∈ polls, NoError poll.answer) (hnone : ∀ poll ∈ polls, poll.answer ≠ .ok none) :
    polls.length ≤ (yielded polls).length + polls.countP BodyPoll.isPending := by
  induction polls using List.reverseRecOn with
  | nil => exact Nat.zero_le _
  | append_singleton polls poll ih =>
    rw [List.forall_mem_append, List.forall_mem_singleton] at hok hnone hblocks
    have hle := ih hblocks.1 hok.1 hnone.1
    rw [List.length_append, List.length_singleton, yielded_snoc, List.length_append,
      List.countP_append, List.countP_singleton]
    obtain ⟨ctx, answer⟩ := poll
    cases answer with
    | pending =>
      have hpending : (⟨ctx, .pending⟩ : BodyPoll E).isPending = true := rfl
      rw [if_pos hpending]
      omega
    | err e => exact absurd rfl (hok.2 e)
    | ok block =>
      cases block with
      | none => exact absurd rfl hnone.2
      | some block =>
        have hpos : 0 < block.length := by
          refine List.length_pos_iff.mpr fun hnil => hblocks.2 ?_
          rw [hnil]
        show _ ≤ _ + block.length + _
        omega

/-- **Whoever polls often enough gets to the end**: where the sources are pending at most `limit`
    times each, polls without an error take all of a slice and end, if there are more of them than
    bytes and suspensions. -/
theorem Polled.ends {limit : Nat} (p : Patience E limit) {mayFail : Prop} {a : Archive}
    {rest : Tail UInt8} (h : Polled polls r ops r') (hat : ReaderAt mayFail a r rest)
    (htaken : Taken slice polls left) (hok : ∀ poll ∈ polls, NoError poll.answer)
    (hlong : slice.length + p.left r.pinned.slot + limit * a.members.length < polls.length) :
    yielded polls = slice ∧ ∃ poll ∈ polls, poll.answer = .ok none := by
  have hended : ∃ poll ∈ polls, poll.answer = .ok none := by
    by_contra hnone
    have hle := length_le_of_blocks htaken.blocks hok
      fun poll hpoll heq => hnone ⟨poll, hpoll, heq⟩
    have hpending := p.countP_le_of_polls hat h.steps h.isPoll (h.succeeds hok)
    have hlength := congrArg List.length htaken.split
    rw [List.length_append] at hlength
    rw [h.pending] at hpending
    omega
  refine ⟨?_, hended⟩
  obtain ⟨poll, hpoll, hnone⟩ := hended
  rw [htaken.split, htaken.ended poll hpoll hnone, List.append_nil]

end Taken

end Polls

end Model

end Zippity
