import Zippity.Properties.Copies
import Zippity.Properties.Polling
import Zippity.Properties.Safety

/-! # An HTTP body is the slice that was asked for

    Three counters cut the slice: the seek of the reader, the block buffer of
    the stream and the `remaining` of the body.  What connects them is the
    stream of the archive: the body still has to yield `left`, and what is left
    of the reader's stream begins with it.
-/

namespace Zippity

open Framework Async
open Exec (u64Bound addU64_eq subU64_eq assert_eq)

section Model
variable {E : EntryData} {H : Crc32Fast} {lib : PollReadBuf} {a : Archive}

/-! ### The byte stream -/

/-- The stream has `rest` left, and nothing of it buffered. -/
structure StreamAt (a : Archive) (s : BytesStream E H) (rest : Tail UInt8) : Prop where
  reader : ReaderAt False a s.reader rest
  buffer : s.buffer.bytes = []
  capacity : 0 < s.buffer.capacity

/-- The answer of a stream with `rest` left, and where it leaves the stream. -/
inductive StreamOutcome (a : Archive) (rest : Tail UInt8) :
    PollResult (IoError E) (Option (List UInt8)) → BytesStream E H → Prop where
  | block {s : BytesStream E H} {bytes : List UInt8} {rest' : Tail UInt8} (hne : bytes ≠ [])
    (hstream : rest = .cons bytes rest') (h : StreamAt a s rest') :
    StreamOutcome a rest (.ok (some bytes)) s
  | ended {s : BytesStream E H} (hdone : rest = .done) : StreamOutcome a rest (.ok none) s
  | pending {s : BytesStream E H} (h : StreamAt a s rest) : StreamOutcome a rest .pending s
  | crcMismatch {s : BytesStream E H} {m : Member} (hm : m ∈ a.members)
    (hcrc : m.crc ≠ H.hash m.data) (h : StreamAt a s rest) :
    StreamOutcome a rest (.err (.read (.crc32Mismatch m.name m.crc (H.hash m.data)))) s

/-- **A poll of a stream** yields a block of what is left; it ends where nothing is. -/
theorem StreamAt.pollNext_wp {starved : Prop} {s : BytesStream E H} {rest : Tail UInt8}
    (h : StreamAt a s rest) (hhonest : a.Honest) {ctx : E.Context} {fuel : Nat}
    {allocated : Allocated READ_SIZE}
    (hfuel : ¬ starved → s.reader.readState.currentChunk.rank a.members.length +
      (lib.offered s.buffer).remaining + (a.members.map (·.data.length)).sum < fuel) :
    (BytesStream.pollNext lib ctx fuel allocated).wp (Excused False (¬ a.Honest) starved)
      (StreamOutcome a rest) s := by
  have hroom := lib.offered_room s.buffer h.buffer h.capacity
  unfold BytesStream.pollNext
  rw [wp_get_bind, wp_bind, wp_lift, assert_eq h.buffer]
  simp only [Exec.wp_ok, andThen]
  rw [wp_bind, wp_lift, assert_eq h.capacity]
  simp only [Exec.wp_ok, andThen]
  rw [wp_bind]
  apply pollReadBuf_wp hroom
  apply Exec.wp_mono (pollRead_wp h.reader (length_data_le_sum a) hfuel) (fun _ hf => hf)
  rintro ⟨answer, r', buf'⟩ ⟨bytes, hpolled⟩
  have hfilled : buf'.filled = bytes := by
    rw [hpolled.output.filled, lib.offered_filled, List.nil_append]
  dsimp only
  cases hpolled.outcome with
  | ok hstream h' hend =>
    simp only [andThen]
    by_cases hnil : bytes = []
    · -- nothing was delivered, with room: the stream is at its end
      rw [if_pos (by rw [hfilled, hnil, List.length_nil])]
      apply StreamOutcome.ended
      rw [hstream, hend hroom hnil, hnil, Tail.cons_nil]
    · rw [if_neg (by rw [hfilled]; simpa using hnil), wp_get_bind, wp_modify_bind, wp_pure]
      rw [h.buffer, List.nil_append, hfilled]
      refine .block hnil hstream ⟨h', rfl, ?_⟩
      have hcapacity : 0 < READ_SIZE := by decide
      exact Nat.lt_of_lt_of_le hcapacity allocated.2
  | pending _ h' => exact .pending ⟨h', h.buffer, h.capacity⟩
  | failed _ hfail => exact hfail.elim
  | crcMismatch hm hcrc _ h' => exact .crcMismatch hm hcrc ⟨h', h.buffer, h.capacity⟩
  | sizeMismatch hm hsize => exact absurd (hhonest _ hm) hsize

/-! ### The body -/

/-- The body has `left` left to yield, and the stream under it begins with this. -/
structure BodyAt (a : Archive) (body : Body E H) (left : List UInt8) : Prop where
  remaining : body.remaining = left.length
  stream : ∃ rest, StreamAt a body.inner.bytesStream rest ∧
    (left ≠ [] → ∃ after, rest.Begins (left ++ after))

/-- The answer of a body with some of `left` left, and where it leaves the body. -/
inductive BodyOutcome (a : Archive) (left : List UInt8) :
    PollResult (IoError E) (Option (List UInt8)) → Body E H → Prop where
  | block {body : Body E H} {bytes left' : List UInt8} (hne : bytes ≠ [])
    (hleft : left = bytes ++ left') (h : BodyAt a body left') :
    BodyOutcome a left (.ok (some bytes)) body
  | pending {body : Body E H} (h : BodyAt a body left) : BodyOutcome a left .pending body
  | crcMismatch {body : Body E H} {m : Member} (hm : m ∈ a.members)
    (hcrc : m.crc ≠ H.hash m.data) (h : BodyAt a body left) :
    BodyOutcome a left (.err (.read (.crc32Mismatch m.name m.crc (H.hash m.data)))) body

section Body
variable {body body' : Body E H} {left slice : List UInt8} {ctx : E.Context} {fuel : Nat}
  {allocated : Allocated READ_SIZE}

/-- A body that has yielded everything answers `None`. -/
theorem BodyAt.pollNext_nil (h : BodyAt a body []) :
    body.pollNext lib ctx fuel allocated = .ok (.ok none, body) := by
  have hzero : body.remaining = 0 := h.remaining
  unfold Body.pollNext
  show (if body.remaining = 0 then pure none else _ : Async _ _ _) body = _
  rw [if_pos hzero]
  rfl

/-- **A poll of a body** yields a block of what it has left. -/
theorem BodyAt.pollNext_wp {starved : Prop} (h : BodyAt a body left) (hhonest : a.Honest)
    (hleft : left ≠ [])
    (hfuel : ¬ starved → body.inner.bytesStream.reader.readState.currentChunk.rank
      a.members.length + (lib.offered body.inner.bytesStream.buffer).remaining +
      (a.members.map (·.data.length)).sum < fuel) :
    Exec.wp (Excused False (¬ a.Honest) starved)
      (fun (answer, body') => BodyOutcome a left answer body')
      (body.pollNext lib ctx fuel allocated) := by
  have hpos := List.length_pos_iff.mpr hleft
  have hremaining := h.remaining
  obtain ⟨rest, hat, hbegins⟩ := h.stream
  obtain ⟨after, hbegins⟩ := hbegins hleft
  show (Body.pollNext lib ctx fuel allocated).wp _ _ body
  unfold Body.pollNext
  rw [wp_get_bind, if_neg (by omega), wp_bind]
  unfold Body.onBytesStream
  rw [wp_zoom, Exec.wp_ok]
  apply wp_mono (hat.pollNext_wp hhonest hfuel) (fun _ hf => hf)
  intro answer s' houtcome
  cases houtcome with
  | @block _ bytes rest' hne hstream hat' =>
    rw [hstream] at hbegins
    obtain ⟨hstart, hrest⟩ := hbegins.of_cons
    simp only [andThen]
    rw [wp_get_bind]
    dsimp only
    by_cases hlong : body.remaining < bytes.length
    · -- the last block is cut where the slice ends
      have htake : bytes.take body.remaining = left := by
        have htake' := List.prefix_iff_eq_take.mp hstart
        rw [htake', List.take_take, Nat.min_eq_left (by omega), hremaining, List.take_left]
      rw [if_pos hlong, wp_modify_bind, wp_pure, htake]
      exact .block hleft (List.append_nil left).symm ⟨rfl, rest', hat', fun hnil => absurd rfl hnil⟩
    · obtain ⟨left', hleft'⟩ :=
        List.prefix_of_prefix_length_le hstart (List.prefix_append left after) (by omega)
      rw [if_neg hlong, wp_bind, wp_lift, subU64_eq (by omega)]
      simp only [Exec.wp_ok, andThen]
      rw [wp_modify_bind, wp_pure]
      refine .block hne hleft'.symm ⟨?_, rest', hat', fun _ => ⟨after, ?_⟩⟩
      · show body.remaining - bytes.length = left'.length
        rw [hremaining, ← hleft', List.length_append]
        omega
      · rw [← hleft', List.append_assoc, List.drop_left] at hrest
        exact hrest
  | ended hdone =>
    -- the stream has not ended: the body has bytes of it left
    rw [hdone] at hbegins
    have hall := hbegins.all rfl
    have hnil : left ++ after = [] := hall.symm
    exact absurd (List.append_eq_nil_iff.mp hnil).1 hleft
  | pending hat' => exact .pending ⟨hremaining, rest, hat', fun _ => ⟨after, hbegins⟩⟩
  | crcMismatch hm hcrc hat' =>
    exact .crcMismatch hm hcrc ⟨hremaining, rest, hat', fun _ => ⟨after, hbegins⟩⟩

/-- A poll that answers, of a body with bytes left. -/
theorem BodyAt.outcome {answer : PollResult (IoError E) (Option (List UInt8))}
    (h : BodyAt a body left) (hhonest : a.Honest) (hleft : left ≠ [])
    (hpoll : body.pollNext lib ctx fuel allocated = .ok (answer, body')) :
    BodyOutcome a left answer body' := by
  have hwp : Exec.wp (Excused False (¬ a.Honest) True)
      (fun (answer, body') => BodyOutcome a left answer body')
      (body.pollNext lib ctx fuel allocated) :=
    h.pollNext_wp hhonest hleft (fun hs => absurd trivial hs)
  have hpost := Exec.wp_of_eq_ok hwp hpoll
  exact hpost

/-- A poll in a run takes its bytes from what is left. -/
theorem BodyAt.step {poll : BodyPoll E} (h : BodyAt a body left) (hhonest : a.Honest)
    (hstep : (bodySystem lib).step body poll body') :
    ∃ left', Taken left [poll] left' ∧ BodyAt a body' left' := by
  obtain ⟨ctx, answer⟩ := poll
  obtain ⟨fuel, allocated, hpoll⟩ := hstep
  by_cases hleft : left = []
  · subst hleft
    rw [h.pollNext_nil] at hpoll
    cases hpoll
    exact ⟨[], ⟨rfl, by simp, by simp⟩, h⟩
  · cases h.outcome hhonest hleft hpoll with
    | block hne hsplit h' =>
      refine ⟨_, ⟨?_, by simpa using hne, by simp⟩, h'⟩
      simpa [yielded, BodyPoll.bytes] using hsplit
    | pending h' => exact ⟨left, ⟨rfl, by simp, by simp⟩, h'⟩
    | crcMismatch _ _ h' => exact ⟨left, ⟨rfl, by simp, by simp⟩, h'⟩

/-- **Along a run** a body yields what it has left, block by block. -/
theorem BodyAt.run {polls : List (BodyPoll E)} (h : BodyAt a body slice) (hhonest : a.Honest)
    (hrun : (bodySystem lib).Run body polls body') :
    ∃ left, Taken slice polls left ∧ BodyAt a body' left := by
  apply hrun.invariant (fun polls body' => ∃ left, Taken slice polls left ∧ BodyAt a body' left)
  · exact ⟨slice, .refl _, h⟩
  · intro polls body₁ poll body₂ h₁ hstep
    obtain ⟨left, htaken, hat⟩ := h₁
    obtain ⟨left', htaken', hat'⟩ := hat.step hhonest hstep
    exact ⟨left', htaken.trans htaken', hat'⟩

/-- **A body gets to its end**, when it is polled often enough. -/
theorem BodyAt.finishes {limit : Nat} (p : Patience E limit) {polls : List (BodyPoll E)}
    (h : BodyAt a body left) (hhonest : a.Honest) (hrun : (bodySystem lib).Run body polls body')
    (hok : ∀ poll ∈ polls, NoError poll.answer)
    (hlong : left.length + p.left body.inner.bytesStream.reader.pinned.slot +
      limit * a.members.length < polls.length) :
    yielded polls = left ∧ ∃ poll ∈ polls, poll.answer = .ok none := by
  obtain ⟨rest, hat, _⟩ := h.stream
  obtain ⟨left', htaken, _⟩ := h.run hhonest hrun
  have hreader : ∀ (body : Body E H) poll body', (bodySystem lib).step body poll body' →
      ∃ ops, Polled [poll] body.inner.bytesStream.reader ops body'.inner.bytesStream.reader :=
    fun _ _ _ hstep => (bodyMoved_of_step hstep).reader
  obtain ⟨ops, hpolled⟩ := Polled.run hreader hrun
  exact hpolled.ends p hat.reader htaken hok hlong

/-- What a body of `slice` does next, after it yielded `done`. -/
structure ServingSlice (H : Crc32Fast) (lib : PollReadBuf) (ms : List Member)
    (slice done : List UInt8)
    (body : Body E H) : Prop where
  /-- What is left of the slice is counted by `remaining`. -/
  split : ∃ left, slice = done ++ left ∧ body.remaining = left.length
  buffer : body.inner.bytesStream.buffer.bytes = []
  returns : ∀ ctx allocated, ∃ enough, ∀ fuel > enough,
    ∃ result, body.pollNext lib ctx fuel allocated = .ok result
  /-- No call stops, but for want of turns. -/
  stops : ∀ ctx fuel allocated f,
    body.pollNext lib ctx fuel allocated = .error f → f = .outOfFuel
  /-- `None` is the answer as soon as the slice was yielded, and ever after. -/
  ended : done = slice → ∀ ctx fuel allocated,
    body.pollNext lib ctx fuel allocated = .ok (.ok none, body)
  all : ∀ ctx fuel allocated body',
    body.pollNext lib ctx fuel allocated = .ok (.ok none, body') → done = slice
  blocks : ∀ ctx fuel allocated block body',
    body.pollNext lib ctx fuel allocated = .ok (.ok (some block), body') → block ≠ []
  /-- The only error is that of a member with a wrong CRC. -/
  errors : ∀ ctx fuel allocated e body',
    body.pollNext lib ctx fuel allocated = .ok (.err e, body') →
      ∃ m ∈ ms, m.crc ≠ H.hash m.data ∧
        e = .read (.crc32Mismatch m.name m.crc (H.hash m.data))
  /-- **Progress.**  Where the sources are pending at most `limit` times each, polls without an error
      yield the rest of the slice and then `None`, if there are more of them than bytes left and
      suspensions to come. -/
  finishes : ∀ {limit : Nat} (p : Patience E limit) polls body',
    (bodySystem lib).Run body polls body' → (∀ poll ∈ polls, NoError poll.answer) →
      body.remaining + p.left body.inner.bytesStream.reader.pinned.slot + limit * ms.length <
        polls.length →
      done ++ yielded polls = slice ∧ ∃ poll ∈ polls, poll.answer = .ok none

/-- A body with some of the slice left serves it. -/
theorem BodyAt.servingSlice {done : List UInt8} (h : BodyAt a body left) (hhonest : a.Honest)
    (hslice : slice = done ++ left) : ServingSlice H lib a.members slice done body := by
  obtain ⟨rest, hat, _⟩ := h.stream
  have hdone : done = slice ↔ left = [] := by
    rw [hslice]
    simp
  refine ⟨⟨left, hslice, h.remaining⟩, hat.buffer, ?_, ?_, ?_, ?_, ?_, ?_, ?_⟩
  · intro ctx allocated
    by_cases hleft : left = []
    · subst hleft
      exact ⟨0, fun fuel _ => ⟨_, h.pollNext_nil⟩⟩
    · refine ⟨body.inner.bytesStream.reader.readState.currentChunk.rank a.members.length +
        (lib.offered body.inner.bytesStream.buffer).remaining +
        (a.members.map (·.data.length)).sum, ?_⟩
      intro fuel hfuel
      have hwp : Exec.wp (Excused False (¬ a.Honest) False)
          (fun (answer, body') => BodyOutcome a left answer body')
          (body.pollNext lib ctx fuel allocated) := h.pollNext_wp hhonest hleft (fun _ => hfuel)
      have hnone := not_excused id (not_not.mpr hhonest) (id : ¬ False)
      obtain ⟨result, heq, _⟩ :=
        Exec.exists_of_wp (Exec.wp_mono hwp (fun f hf => (hnone f hf).elim) (fun _ h => h))
      exact ⟨result, heq⟩
  · intro ctx fuel allocated f hpoll
    by_cases hleft : left = []
    · subst hleft
      rw [h.pollNext_nil] at hpoll
      cases hpoll
    · have hwp : Exec.wp (Excused False (¬ a.Honest) True)
          (fun (answer, body') => BodyOutcome a left answer body')
          (body.pollNext lib ctx fuel allocated) :=
        h.pollNext_wp hhonest hleft (fun hs => absurd trivial hs)
      exact eq_outOfFuel_of_excused id hhonest (Exec.wp_of_eq_error hwp hpoll)
  · intro hall ctx fuel allocated
    have hleft := hdone.mp hall
    subst hleft
    exact h.pollNext_nil
  · intro ctx fuel allocated body' hpoll
    by_cases hleft : left = []
    · exact hdone.mpr hleft
    · cases h.outcome hhonest hleft hpoll
  · intro ctx fuel allocated block body' hpoll
    by_cases hleft : left = []
    · subst hleft
      rw [h.pollNext_nil] at hpoll
      cases hpoll
    · cases h.outcome hhonest hleft hpoll with
      | block hne => exact hne
  · intro ctx fuel allocated e body' hpoll
    by_cases hleft : left = []
    · subst hleft
      rw [h.pollNext_nil] at hpoll
      cases hpoll
    · cases h.outcome hhonest hleft hpoll with
      | crcMismatch hm hcrc => exact ⟨_, hm, hcrc, rfl⟩
  · intro limit p polls body' hrun hok hlong
    rw [h.remaining] at hlong
    obtain ⟨hyielded, hended⟩ := h.finishes p hhonest hrun hok hlong
    refine ⟨?_, hended⟩
    rw [hyielded, hslice]

/-- A body may be polled with one context after the other. -/
theorem BodyAt.polled (h : BodyAt a body left) (hhonest : a.Honest) (ctxs : List E.Context) :
    ∃ polls body', (bodySystem lib).Run body polls body' ∧ polls.map BodyPoll.ctx = ctxs := by
  induction ctxs using List.reverseRecOn with
  | nil => exact ⟨[], body, .nil, rfl⟩
  | append_singleton ctxs ctx ih =>
    obtain ⟨polls, body', hrun, hctxs⟩ := ih
    obtain ⟨left', htaken, hat'⟩ := h.run hhonest hrun
    have hserving : ServingSlice H lib a.members left (yielded polls) body' :=
      hat'.servingSlice hhonest htaken.split
    obtain ⟨enough, hreturns⟩ := hserving.returns ctx ⟨READ_SIZE, Nat.le_refl _⟩
    obtain ⟨⟨answer, body''⟩, hpoll⟩ := hreturns (enough + 1) (Nat.lt_succ_self _)
    have hstep : (bodySystem lib).step body' ⟨ctx, answer⟩ body'' := ⟨enough + 1, _, hpoll⟩
    refine ⟨_, body'', hrun.snoc hstep, ?_⟩
    rw [List.map_append, hctxs]
    rfl

/-- **A body that is dropped** hands its reader over to who waits for it, where the reader stands and
    with the CRCs it knows. -/
theorem BodyAt.drop (h : BodyAt a body left) (hhonest : a.Honest) :
    ∃ received, body.inner.drop = .ok received ∧ received.isSome = body.inner.dropChannel ∧
      ∀ r ∈ received, r.size = body.inner.bytesStream.reader.size ∧
        r.tell = body.inner.bytesStream.reader.tell ∧
        r.crc32s = body.inner.bytesStream.reader.crc32s := by
  obtain ⟨rest, hat, _⟩ := h.stream
  obtain ⟨copy, hclone, hsizes, hentries, htell, _⟩ := hat.reader.clone hhonest
  obtain ⟨taken, hclone', htake, _⟩ := hat.reader.takePinned hhonest
  rw [hclone] at hclone'
  cases hclone'
  unfold Inner.drop
  cases body.inner.dropChannel with
  | false => exact ⟨none, rfl, rfl, by simp⟩
  | true =>
    rw [if_pos rfl, htake]
    refine ⟨some copy, rfl, rfl, ?_⟩
    intro r hr
    obtain rfl := Option.mem_some.mp hr
    unfold Reader.size Reader.crc32s
    rw [hsizes, hentries]
    exact ⟨rfl, htell, rfl⟩

end Body

/-! ### The response -/

section Response
variable {headers : HttpRangeHeader} {req : HttpRequest headers} {size offset length : Nat}

/-- An accepted request asks for bytes of the archive. -/
theorem Accepted.inside (h : Accepted headers req size offset length) : offset + length ≤ size := by
  cases h with
  | whole => omega
  | range => omega

/-- **An accepted request** is answered with a body on the reader sought to the offset. -/
theorem respondTo_accepted {self : ActixWebAdapter E H} {r' : Reader E H}
    (h : Accepted headers req self.inner.bytesStream.reader.size offset length)
    (hsize : self.inner.bytesStream.reader.size < u64Bound)
    (hseek : self.inner.bytesStream.reader.seekFromStart offset = .ok r') :
    ∃ response, self.respondTo headers req = .ok response ∧
      response.status = (if offset ≠ 0 ∨ length ≠ self.inner.bytesStream.reader.size
        then .partialContent else .ok) ∧
      response.header .contentLength = some (toString length) ∧
      response.body = some (.new { self.inner with bytesStream.reader := r' } length) := by
  have hend : ∀ response : HttpResponse (Body E H), response.status = .ok → ∃ response',
      self.respondWith response self.inner.bytesStream.reader.size offset length = .ok response' ∧
      response'.status = (if offset ≠ 0 ∨ length ≠ self.inner.bytesStream.reader.size
        then .partialContent else .ok) ∧
      response'.header .contentLength = some (toString length) ∧
      response'.body = some (.new { self.inner with bytesStream.reader := r' } length) := by
    intro response hok
    unfold ActixWebAdapter.respondWith
    dsimp only
    rw [hseek, Exec.ok_bind]
    refine ⟨_, rfl, ?_, ?_, rfl⟩
    · split
      · rfl
      · exact hok
    · split
      · exact HttpResponse.header_insertHeader response .contentLength (toString length)
      · exact HttpResponse.header_insertHeader response .contentLength (toString length)
  unfold ActixWebAdapter.respondTo
  cases h with
  | whole hrange =>
    dsimp only
    rw [hrange]
    exact hend _ rfl
  | @range _ _ _ stop _ hrange hparsed hvalid hle hlt =>
    have hlength : stop - offset + 1 = stop + 1 - offset := by omega
    dsimp only
    rw [hrange]
    dsimp only
    rw [hparsed]
    dsimp only
    rw [hvalid]
    dsimp only
    rw [subU64_eq hle, Exec.ok_bind, addU64_eq (by omega), Exec.ok_bind, hlength]
    exact hend _ rfl

/-- What a response promises about its body, and what the body keeps of it. -/
structure ServesSlice (lib : PollReadBuf) (ms : List Member) (slice : List UInt8)
    (response : HttpResponse (Body E H)) (body : Body E H) : Prop where
  contentLength : response.header .contentLength = some (toString slice.length)
  size : body.bodySize = .sized slice.length
  polls : ∀ polls body', (bodySystem lib).Run body polls body' →
    ServingSlice H lib ms slice (yielded polls) body'
  /-- The body may be polled on and on. -/
  polled : ∀ ctxs, ∃ polls body', (bodySystem lib).Run body polls body' ∧
    polls.map BodyPoll.ctx = ctxs
  /-- **Progress.**  Where the sources are pending at most `limit` times each, polls without an error
      yield the slice and then `None`, if there are more of them than bytes and suspensions. -/
  finishes : ∀ {limit : Nat} (_ : Patience E limit) polls body',
    (bodySystem lib).Run body polls body' → (∀ poll ∈ polls, NoError poll.answer) →
      slice.length + limit * ms.length < polls.length →
      yielded polls = slice ∧ ∃ poll ∈ polls, poll.answer = .ok none

/-- Where no CRC is wrong, no poll fails. -/
theorem ServesSlice.noError {ms : List Member} {slice : List UInt8}
    {response : HttpResponse (Body E H)} {body body' : Body E H} {polls : List (BodyPoll E)}
    (h : ServesSlice lib ms slice response body) (hcrcs : ∀ m ∈ ms, m.crc = H.hash m.data)
    (hrun : (bodySystem lib).Run body polls body') : ∀ poll ∈ polls, NoError poll.answer := by
  induction hrun with
  | nil => simp
  | snoc hrun hstep ih =>
    rw [List.forall_mem_append, List.forall_mem_singleton]
    refine ⟨ih, fun e heq => ?_⟩
    obtain ⟨fuel, allocated, hpoll⟩ := hstep
    rw [heq] at hpoll
    obtain ⟨m, hm, hne, _⟩ := (h.polls _ _ hrun).errors _ _ _ _ _ hpoll
    exact hne (hcrcs m hm)

/-- A reader in the stream of an honest archive answers an accepted request with its slice. -/
theorem ReaderAt.servesSlice {r : Reader E H} {rest : Tail UInt8} (h : ReaderAt False a r rest)
    (hhonest : a.Honest) (haccepted : Accepted headers req r.size offset length)
    (allocated : Allocated READ_SIZE) (dropChannel : Bool) :
    ∃ response body,
      (r.intoResponder allocated dropChannel).respondTo headers req = .ok response ∧
      response.body = some body ∧
      ServesSlice lib a.members (((archiveBytes a.members).drop offset).take length) response
        body := by
  have hsize : r.size = (archiveBytes a.members).length := by
    rw [length_archiveBytes hhonest, ← h.sizes]
    rfl
  have hbound : r.size < u64Bound := by
    rw [hsize, length_archiveBytes hhonest]
    exact a.fits
  have hinside := haccepted.inside
  rw [hsize] at hinside
  have hlength : (((archiveBytes a.members).drop offset).take length).length = length := by
    rw [List.length_take, List.length_drop]
    omega
  obtain ⟨r', hseek, _, _, h'⟩ := seekFromStart_step h.sizes h.stocked
    (show offset < u64Bound by omega)
  have hadapter : Accepted headers req
      (r.intoResponder allocated dropChannel).inner.bytesStream.reader.size offset length :=
    haccepted
  obtain ⟨response, hrespond, _, hcontent, hbody⟩ := respondTo_accepted hadapter hbound hseek
  have hcapacity : 0 < READ_SIZE := by decide
  have hat : StreamAt a ⟨r', .withCapacity READ_SIZE allocated⟩
      (tailAt (segments H a.members) offset) :=
    ⟨h', rfl, Nat.lt_of_lt_of_le hcapacity allocated.2⟩
  -- the stream after the seek begins with the slice
  have hbegins := hhonest.begins (H := H) offset
  rw [← List.take_append_drop length ((archiveBytes a.members).drop offset)] at hbegins
  have hbodyAt : BodyAt a
      (.new { (r.intoResponder allocated dropChannel).inner with bytesStream.reader := r' } length)
      (((archiveBytes a.members).drop offset).take length) :=
    ⟨hlength.symm, _, hat, fun _ => ⟨_, hbegins⟩⟩
  refine ⟨response, _, hrespond, hbody, ?_, ?_, ?_, hbodyAt.polled hhonest, ?_⟩
  · rw [hlength]
    exact hcontent
  · rw [hlength]
    rfl
  · intro polls body' hrun
    obtain ⟨left, htaken, hat'⟩ := hbodyAt.run hhonest hrun
    exact hat'.servingSlice hhonest htaken.split
  · intro limit p polls body' hrun hok hlong
    apply hbodyAt.finishes p hhonest hrun hok
    -- the seek has emptied the slot
    have hempty : p.left r'.pinned.slot = 0 := by
      rw [(seekFromStart_seekStep hseek).slot]
      rfl
    show _ + p.left r'.pinned.slot + _ < _
    omega

/-- **An HTTP body is the slice that was asked for**, whatever was done with the reader before and
    with its clones and the readers taken from it. -/
theorem http_body_is_slice {content : E.Data → List UInt8} {b : Builder E} {r r' : Reader E H}
    {pool : List (Reader E H)} {ops : List (PoolOp E)} (hb : b.Reached)
    (hbuild : b.build = .ok r) (hdeliver : b.Delivering content False)
    (hhonest : b.HonestSizes content) (hrun : poolSystem.Run [r] ops pool) (hr' : r' ∈ pool)
    (haccepted : Accepted headers req r'.size offset length) (lib : PollReadBuf)
    (allocated : Allocated READ_SIZE) (dropChannel : Bool) :
    ∃ ms, (ms = r.members content ∨ ms = []) ∧ (archiveBytes ms).length = r'.size ∧
      ∃ response body,
        (r'.intoResponder allocated dropChannel).respondTo headers req = .ok response ∧
        response.body = some body ∧
        ServesSlice lib ms (((archiveBytes ms).drop offset).take length) response body := by
  obtain ⟨a', rest, hms, hhonest', hat⟩ :=
    standsSomewhere_of_build hb hbuild hdeliver hhonest hrun r' hr'
  refine ⟨a'.members, hms, ?_, hat.servesSlice hhonest' haccepted allocated dropChannel⟩
  rw [length_archiveBytes hhonest', ← hat.sizes]
  rfl

end Response

end Model

/-! ### A session -/

/-- `http_range_header`, as far as the header `bytes=10-40` goes. -/
def oneRange : HttpRangeHeader where
  HeaderValue := String
  ParsedRanges := Nat × Nat
  toStr := some
  parseRangeHeader header := if header = "bytes=10-40" then some (10, 40) else none
  validate range size := if range.1 ≤ range.2 ∧ range.2 < size then some [range] else none

/-- The spare capacity of a buffer; a full one is grown by 64 bytes. -/
def BytesMut.spare (buffer : BytesMut) : Nat :=
  if buffer.bytes.length < buffer.capacity then
    min (buffer.capacity - buffer.bytes.length) (2 ^ 63 - 1)
  else 64

theorem BytesMut.spare_lt (buffer : BytesMut) : buffer.spare < 2 ^ 63 := by
  unfold spare
  split <;> omega

/-- `poll_read_buf` on the spare capacity of a buffer. -/
def spareCapacity : PollReadBuf where
  call pollRead := fun (io, buffer) =>
    (pollRead io (.new buffer.spare buffer.spare_lt)).map fun (answer, io', buf) =>
      match answer with
      | .pending => (.pending, io', buffer)
      | .err e => (.err e, io', buffer)
      | .ok () => (.ok buf.filled.length, io', { buffer with bytes := buffer.bytes ++ buf.filled })
  offered buffer := .new buffer.spare buffer.spare_lt
  offered_filled _ := rfl
  offered_room := by
    intro buffer hempty hcapacity
    rw [ReadBuf.remaining_new, BytesMut.spare, hempty, List.length_nil, if_pos hcapacity]
    omega
  appends _ _ _ _ := rfl

/-- A reader with a part of a header staged is asked for the bytes `10..=40`, and its body is polled
    36 times: for 31 bytes and four suspensions, and once more. -/
theorem http_body_is_slice_session :
    ∃ x : Session (drowsy 1) crc32Ieee,
      session crc32Ieee drowsyFiles 20 [.poll () (room 20)] = some x ∧
      ∃ ms, (ms = x.reader.members (fun d : Slice => d.1) ∨ ms = []) ∧
        (archiveBytes ms).length = x.last.size ∧ ∃ response body,
          (x.last.intoResponder ⟨READ_SIZE, Nat.le_refl _⟩ true).respondTo oneRange
            ⟨some "bytes=10-40"⟩ = .ok response ∧
          response.body = some body ∧
          ServesSlice spareCapacity ms (((archiveBytes ms).drop 10).take 31) response body ∧
          ∃ polls body', (bodySystem spareCapacity).Run body polls body' ∧ polls.length = 36 ∧
            yielded polls = ((archiveBytes ms).drop 10).take 31 := by
  have hrun : (session crc32Ieee drowsyFiles 20 [.poll () (room 20)]).map (fun x =>
      decide (40 < x.last.size ∧ x.builder.entries.entries.length = 2)) = some true := by
    decide +kernel
  obtain ⟨x, hx, h, hseen⟩ := exists_session hrun
  obtain ⟨hsize, hcount⟩ := of_decide_eq_true hseen
  have hvalid : oneRange.validate (10, 40) x.last.size = some [(10, 40)] := by
    show (if _ then _ else _) = _
    rw [if_pos (by simpa using hsize)]
  have haccepted : Accepted oneRange ⟨some "bytes=10-40"⟩ x.last.size 10 31 :=
    .range rfl rfl hvalid (by decide) hsize
  obtain ⟨ms, hms, hlength, response, body, hrespond, hbody, hserves⟩ :=
    http_body_is_slice h.reached h.build (fun _ entry _ => drowsy_delivers 1 entry.data)
      (fun _ _ _ => rfl) h.steps.pool (List.mem_singleton.mpr rfl) haccepted spareCapacity
      ⟨READ_SIZE, Nat.le_refl _⟩ true
  refine ⟨x, hx, ms, hms, hlength, response, body, hrespond, hbody, hserves, ?_⟩
  obtain ⟨a, hbuilt⟩ := h.reached.built (fun d : Slice => d.1) h.build
  have hsound := hbuilt.sound (fun _ _ _ => rfl) h.drowsy_rightCrcs
  have hmembers : ms.length ≤ 2 ∧ ∀ m ∈ ms, m.crc = crc32Ieee.hash m.data := by
    rcases hms with rfl | rfl
    · rw [← hbuilt.members]
      refine ⟨?_, fun m hm => (hsound m hm).2⟩
      rw [hbuilt.members, List.length_map, ← hbuilt.sources.length_eq, hcount]
    · exact ⟨Nat.zero_le _, by simp⟩
  obtain ⟨polls, body', hpolls, hctxs⟩ := hserves.polled (List.replicate 36 ())
  have hpolled : polls.length = 36 := by
    have hlength := congrArg List.length hctxs
    rw [List.length_map] at hlength
    exact hlength
  refine ⟨polls, body', hpolls, hpolled, ?_⟩
  refine (hserves.finishes (drowsyPatience 1) polls body' hpolls
    (hserves.noError hmembers.2 hpolls) ?_).1
  have hslice := List.length_take_le 31 ((archiveBytes ms).drop 10)
  omega

end Zippity
