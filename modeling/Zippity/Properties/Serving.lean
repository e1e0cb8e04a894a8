import Zippity.Properties.CachedCrcs
import Zippity.Properties.ReaderFiles
import Zippity.Properties.Streams

/-! # Readers of a web server

    An application holds readers, makes responses of them and gets them back
    when the bodies are dropped, finished or not.  Polls of the bodies, requests
    and drops come in any order, and every body still is the slice that its
    request asked for.

    A body of the whole archive that was served to its end hands back a reader
    that knows the CRCs of all entries.
-/

namespace Zippity

open Framework Async
open Exec (u64Bound addU64_eq subU64_eq assert_eq)

section Model
variable {E : EntryData} {H : Crc32Fast}

/-! ### Slots -/

/-- Where a reader of a server is. -/
inductive Slot (E : EntryData) (H : Crc32Fast) where
  /-- The application holds it. -/
  | held (r : Reader E H)
  /-- It is in the body of a response.  Where the body began and what it yielded is recorded. -/
  | serving (body : Body E H) (offset : Nat) (done : List UInt8)
  /-- It was dropped. -/
  | dropped

/-- What a drop leaves: a reader that was sent through the channel is held again. -/
def Slot.handedOver : Option (Reader E H) → Slot E H
  | some r => .held r
  | none => .dropped

/-- What happens in a slot. -/
inductive SlotCall (E : EntryData) (headers : HttpRangeHeader) where
  /-- `poll_read` or a seek on a held reader. -/
  | reader (op : Op E)
  /-- A held reader becomes a responder, with a channel or without, and responds to a request. -/
  | respond (dropChannel : Bool) (req : HttpRequest headers)
  | pollBody (poll : BodyPoll E)
  | dropBody

/-- What a response makes of the reader of a responder; one without a body drops it. -/
inductive Becomes (inner : Inner E H) : Option (Body E H) → Slot E H → Prop where
  | serving (body : Body E H) :
    Becomes inner (some body) (.serving body body.inner.bytesStream.reader.tell [])
  | refused {received : Option (Reader E H)} (hdrop : inner.drop = .ok received) :
    Becomes inner none (.handedOver received)

/-- The slots of a server.  Held readers are cloned and taken. -/
def serverSlots (headers : HttpRangeHeader) (lib : PollReadBuf) :
    Forking (Slot E H) (SlotCall E headers) Duplication where
  init slot := ∃ r, readerSystem.init r ∧ slot = .held r
  step slot call slot' :=
    match call with
    | .reader op => ∃ r r', slot = .held r ∧ readerSystem.step r op r' ∧ slot' = .held r'
    | .respond dropChannel req => ∃ r allocated response, slot = .held r ∧
      (r.intoResponder allocated dropChannel).respondTo headers req = .ok response ∧
      Becomes (r.intoResponder allocated dropChannel).inner response.body slot'
    | .pollBody poll => ∃ body offset done body', slot = .serving body offset done ∧
      (bodySystem lib).step body poll body' ∧ slot' = .serving body' offset (done ++ poll.bytes)
    | .dropBody => ∃ body offset done received, slot = .serving body offset done ∧
      body.inner.drop = .ok received ∧ slot' = .handedOver received
  fork slot how left new :=
    ∃ r r' r'', slot = .held r ∧ (readerFiles True).fork r how r' r'' ∧ left = .held r' ∧
      new = .held r''

/-! ### Requests -/

/-- `validate` yields ranges, all of them inside the file. -/
structure HttpRangeHeader.Validates (headers : HttpRangeHeader) : Prop where
  nonempty : ∀ parsed size, headers.validate parsed size ≠ some []
  inside : ∀ parsed size ranges, headers.validate parsed size = some ranges →
    ∀ range ∈ ranges, range.1 ≤ range.2 ∧ range.2 < size

section Requests
variable {headers : HttpRangeHeader} {req : HttpRequest headers}

/-- What a request gets that is not accepted. -/
structure Refusal (response : HttpResponse (Body E H)) : Prop where
  body : response.body = none
  status : response.status = .badRequest ∨ response.status = .rangeNotSatisfiable

/-- **Every request** is accepted or refused. -/
theorem accepted_or_refused (hvalid : headers.Validates) (self : ActixWebAdapter E H)
    (req : HttpRequest headers) :
    (∃ offset length,
      Accepted headers req self.inner.bytesStream.reader.size offset length) ∨
    ∃ response, self.respondTo headers req = .ok response ∧ Refusal response := by
  cases hrange : req.range with
  | none => exact .inl ⟨0, _, .whole hrange⟩
  | some rangesHeader =>
    cases hparsed : (headers.toStr rangesHeader).bind headers.parseRangeHeader with
    | none =>
      right
      unfold ActixWebAdapter.respondTo
      simp only [hrange, hparsed]
      exact ⟨_, rfl, rfl, .inl rfl⟩
    | some parsed =>
      cases hranges : headers.validate parsed self.inner.bytesStream.reader.size with
      | none =>
        right
        unfold ActixWebAdapter.respondTo
        simp only [hrange, hparsed, hranges]
        exact ⟨_, rfl, rfl, .inr rfl⟩
      | some ranges =>
        left
        cases ranges with
        | nil => exact absurd hranges (hvalid.nonempty _ _)
        | cons range ranges =>
          obtain ⟨hle, hlt⟩ := hvalid.inside _ _ _ hranges range List.mem_cons_self
          exact ⟨_, _, .range hrange hparsed hranges hle hlt⟩

end Requests

/-! ### Held readers -/

/-- A held reader stands in the archive, or in the empty one where a reader was taken from. -/
structure Held (ms : List Member) (r : Reader E H) : Prop where
  stands : StandsSomewhere ms r
  guarded : GuardedSomewhere r

section Slots
variable {ms : List Member} {r r' : Reader E H} {a : Archive}

theorem Held.steps {ops : List (Op E)} (h : Held ms r) (hsteps : Steps r ops r') : Held ms r' := by
  obtain ⟨a, rest, hms, hhonest, hat⟩ := h.stands
  obtain ⟨rest', hat'⟩ := Steps.readerAt hat hsteps
  exact ⟨⟨a, rest', hms, hhonest, hat'⟩, h.guarded.steps hsteps⟩

theorem Held.clone (h : Held ms r) (hclone : r.clone = .ok r') : Held ms r' :=
  ⟨h.stands.clone hclone, h.guarded.clone hclone⟩

theorem Held.takePinned {taken left : Reader E H} (h : Held ms r)
    (htake : r.takePinned = .ok (taken, left)) : Held ms taken ∧ Held ms left := by
  obtain ⟨htaken, hleft⟩ := h.stands.takePinned htake
  obtain ⟨hguarded, hguarded'⟩ := h.guarded.takePinned htake
  exact ⟨⟨htaken, hguarded⟩, hleft, hguarded'⟩

/-- What the channel hands over was taken from the reader. -/
theorem Inner.takePinned_of_drop {inner : Inner E H} {received : Option (Reader E H)}
    (hdrop : inner.drop = .ok received) :
    ∀ r ∈ received, ∃ left, inner.bytesStream.reader.takePinned = .ok (r, left) := by
  intro r hr
  unfold Inner.drop at hdrop
  split at hdrop
  · obtain ⟨⟨taken, left⟩, htake, hok⟩ := Exec.bind_eq_ok hdrop
    cases hok
    rw [← Option.mem_some.mp hr]
    exact ⟨left, htake⟩
  · cases hdrop
    cases hr

/-- The channel hands over a held reader. -/
theorem Held.drop {inner : Inner E H} {received : Option (Reader E H)}
    (h : Held ms inner.bytesStream.reader) (hdrop : inner.drop = .ok received) :
    ∀ r ∈ received, Held ms r := by
  intro r hr
  obtain ⟨left, htake⟩ := Inner.takePinned_of_drop hdrop r hr
  exact (h.takePinned htake).1

/-- What there is behind a data descriptor at the start of an archive: nothing. -/
theorem crcsBehind_of_seek {stepped : Reader E H} (hguarded : Guarded a r)
    (hseek : r.seekFromStart 0 = .ok stepped) : CrcsBehind stepped.still := by
  have hlisted : Listed a.members r.entries := hguarded.hardened.listed
  obtain ⟨chunk, hlands, htarget, hlocated, hle⟩ :=
    seekFromStart_lands r.readState hguarded.sizes hlisted 0
  unfold Reader.seekFromStart at hseek
  rw [hlands] at hseek
  cases hseek
  refine ⟨fun _ => Nat.zero_sub _, ?_⟩
  intro i entry hentry hpast
  have hi : i < a.members.length := hlisted.length ▸ (List.getElem?_eq_some_iff.mp hentry).1
  have hpos : 0 < extents a.members := by
    cases hms : a.members with
    | nil =>
      rw [hms] at hi
      cases hi
    | cons m ms =>
      simp only [extents_cons, Member.extent, Member.localSize]
      omega
  cases chunk with
  | localHeader j =>
    -- a member before it would take room
    cases j with
    | zero => exact absurd hpast (Nat.not_lt_zero i)
    | succ j =>
      have hzero : extents (a.members.take (j + 1)) = 0 := Nat.le_zero.mp hle
      cases hms : a.members with
      | nil =>
        rw [hms] at hi
        cases hi
      | cons m ms =>
        rw [hms, List.take_succ_cons] at hzero
        simp only [extents_cons, Member.extent, Member.localSize] at hzero
        omega
  | cdFileHeader j =>
    simp only [chunkStart] at hle
    omega
  | eocd =>
    simp only [chunkStart] at hle
    omega
  | entryData j => exact htarget.elim
  | dataDescriptor j => exact htarget.elim
  | finished => exact htarget.elim

end Slots

/-! ### Bodies -/

/-- A body that `start` became, where that stood at `offset`, after it yielded `done`. -/
structure ServedFrom (ms : List Member) (a : Archive) (start : Reader E H) (body : Body E H)
    (offset : Nat) (done left : List UInt8) : Prop where
  members : a.members = ms ∨ a.members = []
  honest : a.Honest
  inside : offset + body.size ≤ (archiveBytes a.members).length
  held : Held ms start
  begun : ReaderAt False a start (tailAt (segments H a.members) offset)
  fresh : offset = 0 → CrcsBehind start.still
  polled : ∃ polls ops, done = yielded polls ∧
    Polled polls start ops body.inner.bytesStream.reader
  split : ((archiveBytes a.members).drop offset).take body.size = done ++ left
  body : BodyAt a body left

/-- The invariant of a slot. -/
def Slot.Stands (ms : List Member) : Slot E H → Prop
  | .held r => Held ms r
  | .serving body offset done => ∃ a start left, ServedFrom ms a start body offset done left
  | .dropped => True

section Bodies
variable {ms : List Member} {a : Archive} {start r : Reader E H} {body body' : Body E H}
  {offset length : Nat} {done left : List UInt8} {lib : PollReadBuf} {headers : HttpRangeHeader}
  {req : HttpRequest headers} {rest : Tail UInt8}

/-- The reader in a body may be held again. -/
theorem ServedFrom.reader (h : ServedFrom ms a start body offset done left) :
    Held ms body.inner.bytesStream.reader := by
  obtain ⟨polls, ops, _, hpolled⟩ := h.polled
  exact h.held.steps hpolled.steps

/-- A poll of a body. -/
theorem ServedFrom.poll {poll : BodyPoll E} (h : ServedFrom ms a start body offset done left)
    (hstep : (bodySystem lib).step body poll body') :
    ∃ left', ServedFrom ms a start body' offset (done ++ poll.bytes) left' := by
  have hmoved := bodyMoved_of_step hstep
  obtain ⟨left', htaken, hbody⟩ := h.body.step h.honest hstep
  refine ⟨left', h.members, h.honest, ?_, h.held, h.begun, h.fresh, ?_, ?_, hbody⟩
  · rw [hmoved.size]
    exact h.inside
  · obtain ⟨polls, ops, hdone, hpolled⟩ := h.polled
    obtain ⟨ops', hpolled'⟩ := hmoved.reader
    refine ⟨polls ++ [poll], ops ++ ops', ?_, hpolled.trans hpolled'⟩
    rw [yielded_snoc, hdone]
  · rw [hmoved.size, h.split, htaken.split, yielded_singleton, List.append_assoc]

/-- Whoever waits for the reader of a body gets it, where it stands and with what it knows. -/
structure HandsOver (inner : Inner E H) (received : Option (Reader E H)) : Prop where
  drop : inner.drop = .ok received
  isSome : received.isSome = inner.dropChannel
  size : ∀ r ∈ received, r.size = inner.bytesStream.reader.size
  tell : ∀ r ∈ received, r.tell = inner.bytesStream.reader.tell
  crc32s : ∀ r ∈ received, r.crc32s = inner.bytesStream.reader.crc32s

/-- **No drop fails.** -/
theorem GuardedSomewhere.handsOver {inner : Inner E H}
    (h : GuardedSomewhere inner.bytesStream.reader) : ∃ received, HandsOver inner received := by
  obtain ⟨a, hguarded⟩ := h
  obtain ⟨copy, hclone, _, hentries⟩ := clone_guarded hguarded
  have hcopy := seekFromStart_seekStep hclone
  have htake : inner.bytesStream.reader.takePinned =
      .ok (copy, .emptied inner.bytesStream.reader.pinned.opened) := by
    rw [takePinned_eq, hclone]
    rfl
  cases hchannel : inner.dropChannel with
  | false =>
    refine ⟨none, ?_, ?_, by simp, by simp, by simp⟩
    · unfold Inner.drop
      rw [hchannel]
      rfl
    · rw [hchannel]
      rfl
  | true =>
    refine ⟨some copy, ?_, ?_, ?_, ?_, ?_⟩
    · unfold Inner.drop
      rw [hchannel, if_pos rfl, htake]
      rfl
    · rw [hchannel]
      rfl
    all_goals
      intro r hr
      obtain rfl := Option.mem_some.mp hr
    · exact congrArg Sizes.totalSize hcopy.sizes
    · exact hcopy.tell
    · unfold Reader.crc32s
      rw [hentries]

/-- The response to an accepted request: a body on the reader sought to the offset. -/
theorem Held.accepted (h : Held ms r) (haccepted : Accepted headers req r.size offset length)
    (allocated : Allocated READ_SIZE) (dropChannel : Bool) :
    ∃ response body a left,
      (r.intoResponder allocated dropChannel).respondTo headers req = .ok response ∧
      response.body = some body ∧ body.inner.bytesStream.reader.tell = offset ∧
      body.size = length ∧
      ServedFrom ms a body.inner.bytesStream.reader body offset [] left := by
  obtain ⟨a, rest, hms, hhonest, hat⟩ := h.stands
  obtain ⟨a', hguarded⟩ := h.guarded
  have hsize : r.size = (archiveBytes a.members).length := by
    rw [length_archiveBytes hhonest, ← hat.sizes]
    rfl
  have hbound : r.size < u64Bound := by
    rw [hsize, length_archiveBytes hhonest]
    exact a.fits
  have hinside := haccepted.inside
  obtain ⟨r', hseek, _, htell, hat'⟩ := seekFromStart_step hat.sizes hat.stocked
    (show offset < u64Bound by omega)
  have hadapter : Accepted headers req
      (r.intoResponder allocated dropChannel).inner.bytesStream.reader.size offset length :=
    haccepted
  obtain ⟨response, hrespond, _, _, hbody⟩ := respondTo_accepted hadapter hbound hseek
  have hcapacity : 0 < READ_SIZE := by decide
  have hstream : StreamAt a ⟨r', .withCapacity READ_SIZE allocated⟩
      (tailAt (segments H a.members) offset) :=
    ⟨hat', rfl, Nat.lt_of_lt_of_le hcapacity allocated.2⟩
  -- the stream after the seek begins with the slice
  have hbegins := hhonest.begins (H := H) offset
  rw [← List.take_append_drop length ((archiveBytes a.members).drop offset)] at hbegins
  have hlength : (((archiveBytes a.members).drop offset).take length).length = length := by
    rw [List.length_take, List.length_drop, ← hsize]
    omega
  have hstep : readerSystem.step r (.seek offset) r' := ⟨by omega, hseek⟩
  refine ⟨response, _, a, ((archiveBytes a.members).drop offset).take length, hrespond, hbody,
    htell, rfl, hms, hhonest, ?_, h.steps (.snoc .nil hstep), hat', ?_, ⟨[], [], rfl, .refl _⟩, rfl,
    ⟨hlength.symm, _, hstream, fun _ => ⟨_, hbegins⟩⟩⟩
  · rw [← hsize]
    exact hinside
  · rintro rfl
    exact crcsBehind_of_seek hguarded hseek

/-- A response keeps the invariant. -/
theorem Held.respond (h : Held ms r) (hvalid : headers.Validates) {allocated : Allocated READ_SIZE}
    {dropChannel : Bool} {response : HttpResponse (Body E H)} {slot' : Slot E H}
    (hrespond : (r.intoResponder allocated dropChannel).respondTo headers req = .ok response)
    (hbecomes : Becomes (r.intoResponder allocated dropChannel).inner response.body slot') :
    slot'.Stands ms := by
  rcases accepted_or_refused hvalid (r.intoResponder allocated dropChannel) req with
    ⟨offset, length, haccepted⟩ | ⟨refused, hrefused, hrefusal⟩
  · obtain ⟨response', body, a, left, hrespond', hbody, htell, _, hserved⟩ :=
      h.accepted haccepted allocated dropChannel
    rw [hrespond] at hrespond'
    cases hrespond'
    rw [hbody] at hbecomes
    cases hbecomes with
    | serving =>
      rw [htell]
      exact ⟨a, _, left, hserved⟩
  · rw [hrespond] at hrefused
    cases hrefused
    rw [hrefusal.body] at hbecomes
    cases hbecomes with
    | @refused received hdrop =>
      cases received with
      | none => exact True.intro
      | some r' => exact h.drop hdrop r' rfl

/-- **The invariant of the slots**, along every run. -/
theorem stands_of_serverRun {b : Builder E} {content : E.Data → List UInt8}
    {labels : List (PoolLabel (SlotCall E headers) Duplication)} {slots : List (Slot E H)}
    (hb : b.Reached) (hbuild : b.build = .ok r) (hdeliver : b.Delivering content False)
    (hhonest : b.HonestSizes content) (hvalid : headers.Validates)
    (hrun : (serverSlots headers lib).pool.Run [.held r] labels slots) :
    ∀ slot ∈ slots, slot.Stands (r.members content) := by
  refine Forking.pool_forall (P := Slot.Stands (r.members content)) ?_ ?_ hrun ?_
  · intro slot call slot' hslot hstep
    cases call with
    | reader op =>
      obtain ⟨r₁, r₂, rfl, hstep, rfl⟩ := hstep
      exact Held.steps hslot (.snoc .nil hstep)
    | respond dropChannel req =>
      obtain ⟨r₁, allocated, response, rfl, hrespond, hbecomes⟩ := hstep
      exact Held.respond hslot hvalid hrespond hbecomes
    | pollBody poll =>
      obtain ⟨body, offset, done, body', rfl, hstep, rfl⟩ := hstep
      obtain ⟨a, start, left, hserved⟩ := hslot
      obtain ⟨left', hserved'⟩ := hserved.poll hstep
      exact ⟨a, start, left', hserved'⟩
    | dropBody =>
      obtain ⟨body, offset, done, received, rfl, hdrop, rfl⟩ := hstep
      obtain ⟨a, start, left, hserved⟩ := hslot
      cases received with
      | none => exact True.intro
      | some r' => exact hserved.reader.drop hdrop r' rfl
  · intro slot how left new hslot hfork
    obtain ⟨r₁, r₂, r₃, rfl, hfork, rfl, rfl⟩ := hfork
    cases how with
    | clone =>
      obtain ⟨hclone, rfl⟩ := hfork
      exact ⟨hslot, Held.clone hslot hclone⟩
    | takePinned => exact (Held.takePinned hslot hfork).symm
  · intro slot hslot
    rw [List.mem_singleton.mp hslot]
    obtain ⟨a, hbuilt⟩ := hb.built content hbuild
    obtain ⟨a', _, hguarded⟩ := hb.guarded hbuild
    exact ⟨⟨a, _, .inl hbuilt.members, hbuilt.honest hhonest, hbuilt.start hdeliver⟩, a', hguarded⟩

end Bodies

/-! ### Bodies of the whole archive -/

section Whole
variable {ms : List Member} {a : Archive} {r : Reader E H} {rest : Tail UInt8}

/-- The front of an archive ends in a data descriptor. -/
theorem items_ne_nil_of_front {c : Chunk} {i : Nat} (hi : i < ms.length)
    (hc : c = .localHeader i ∨ c = .entryData i ∨ c = .dataDescriptor i)
    (hcomplete : (tailAt (segmentsFrom H ms c) 0).complete = true) :
    (tailAt (segmentsFrom H ms c) 0).items ≠ [] := by
  have hm : ms[i]? = some ms[i] := List.getElem?_eq_getElem hi
  have hdescriptor : (tailAt (segmentsFrom H ms (.dataDescriptor i)) 0).items ≠ [] := by
    rw [segmentsFrom_dataDescriptor hm, tailAt_plain]
    intro hnil
    have hlength := congrArg List.length (List.append_eq_nil_iff.mp hnil).1
    simp [Member.descriptorSize] at hlength
  rcases hc with rfl | rfl | rfl
  · rw [segmentsFrom_eq_cons (show Chunk.Located ms.length (.localHeader i) from hi) (by simp),
      segmentOf, hm, Option.elim_some, tailAt_plain]
    intro hnil
    have hlength := congrArg List.length (List.append_eq_nil_iff.mp hnil).1
    simp [Member.localSize] at hlength
  · rw [segmentsFrom_eq_cons (show Chunk.Located ms.length (.entryData i) from hi) (by simp),
      segmentOf, hm, Option.elim_some, tailAt_dataSegment] at hcomplete ⊢
    -- what is complete does not halt in the data
    split at hcomplete
    · cases hcomplete
    · next hhalts =>
      rw [if_neg hhalts]
      intro hnil
      exact hdescriptor (List.append_eq_nil_iff.mp hnil).2
  · exact hdescriptor

/-- A reader that has nothing left of a complete stream is behind all data descriptors. -/
theorem ReaderAt.pastCrc (h : ReaderAt False a r rest) (hunskipped : Unskipped r.readState)
    (hitems : rest.items = []) (hcomplete : rest.complete = true) (i : Nat) :
    r.readState.currentChunk.PastCrc i := by
  have hfront : ∀ j, j < a.members.length →
      (r.readState.currentChunk = .localHeader j ∨ r.readState.currentChunk = .entryData j ∨
        r.readState.currentChunk = .dataDescriptor j) →
      rest = tailAt (segmentsFrom H a.members r.readState.currentChunk) 0 → False := by
    intro j hj hchunk hrest
    rw [hrest] at hitems hcomplete
    exact items_ne_nil_of_front hj hchunk hcomplete hitems
  have hstart : r.readState.currentChunk.Located a.members.length →
      rest = tailAt (segmentsFrom H a.members r.readState.currentChunk) 0 →
      r.readState.currentChunk.PastCrc i := by
    intro hlocated hrest
    cases hchunk : r.readState.currentChunk with
    | localHeader j =>
      rw [hchunk] at hlocated
      exact (hfront j hlocated (.inl hchunk) hrest).elim
    | entryData j =>
      rw [hchunk] at hlocated
      exact (hfront j hlocated (.inr (.inl hchunk)) hrest).elim
    | dataDescriptor j =>
      rw [hchunk] at hlocated
      exact (hfront j hlocated (.inr (.inr hchunk)) hrest).elim
    | cdFileHeader j => trivial
    | eocd => trivial
    | finished => trivial
  have hstands := h.stands
  have hlocated := hstands.located
  generalize r.pinned.slot = slot at hstands
  cases hstands with
  | staged _ _ hskip =>
    have hnil := (List.append_eq_nil_iff.mp hitems).1
    rw [List.drop_eq_nil_iff] at hnil
    omega
  | ready _ _ hempty =>
    apply hstart hlocated
    rw [hunskipped hempty]
  | hashing _ _ hempty =>
    apply hstart hlocated
    rw [hunskipped hempty]
  | @reading j _ _ _ _ m _ hchunk _ _ hm =>
    -- the data descriptor is left
    exfalso
    have hj : j < a.members.length := (List.getElem?_eq_some_iff.mp hm).1
    split at hcomplete
    · cases hcomplete
    · next hhalts =>
      rw [if_neg hhalts] at hitems
      exact items_ne_nil_of_front hj (.inr (.inr rfl)) hcomplete
        (List.append_eq_nil_iff.mp hitems).2

end Whole

/-! ### What a server does -/

/-- How a reader responds to a request: with a body of the bytes asked for, or with a refusal, and
    then whoever waits for the reader gets it back. -/
structure Responds (headers : HttpRangeHeader) (r : Reader E H) (allocated : Allocated READ_SIZE)
    (dropChannel : Bool) (req : HttpRequest headers) (response : HttpResponse (Body E H)) :
    Prop where
  respondTo : (r.intoResponder allocated dropChannel).respondTo headers req = .ok response
  accepted : ∀ body ∈ response.body, Accepted headers req r.size body.inner.bytesStream.reader.tell
    body.size
  refused : response.body = none → Refusal response ∧
    ∃ received, HandsOver (r.intoResponder allocated dropChannel).inner received

/-- What a slot does next, whatever happened in the others. -/
def Slot.Serves (headers : HttpRangeHeader) (lib : PollReadBuf) (ms : List Member) :
    Slot E H → Prop
  | .held r => ∃ ms', (ms' = ms ∨ ms' = []) ∧ (archiveBytes ms').length = r.size ∧
    (∀ pair ∈ r.crc32s, ∃ m ∈ ms', pair = (m.name, m.crc)) ∧
    ∀ allocated dropChannel req, ∃ response, Responds headers r allocated dropChannel req response
  | .serving body offset done => ∃ ms', (ms' = ms ∨ ms' = []) ∧
    offset + body.size ≤ (archiveBytes ms').length ∧
    ServingSlice H lib ms' (((archiveBytes ms').drop offset).take body.size) done body ∧
    ∃ received, HandsOver body.inner received
  | .dropped => True

section Servers
variable {b : Builder E} {r : Reader E H} {content : E.Data → List UInt8} {lib : PollReadBuf}
  {headers : HttpRangeHeader} {labels : List (PoolLabel (SlotCall E headers) Duplication)}
  {slots : List (Slot E H)} {ms : List Member}

/-- An accepted request gets a body on the reader sought to its offset. -/
theorem GuardedSomewhere.accepted {req : HttpRequest headers} {offset length : Nat}
    (h : GuardedSomewhere r) (haccepted : Accepted headers req r.size offset length)
    (allocated : Allocated READ_SIZE) (dropChannel : Bool) :
    ∃ response r', (r.intoResponder allocated dropChannel).respondTo headers req = .ok response ∧
      readerSystem.step r (.seek offset) r' ∧
      response.body = some (.new ⟨r'.intoBytesStream allocated, dropChannel⟩ length) := by
  obtain ⟨a, hguarded⟩ := h
  have hbound : r.size < u64Bound := by
    show r.sizes.totalSize < u64Bound
    rw [hguarded.sizes]
    exact a.fits
  have hinside := haccepted.inside
  obtain ⟨r', hseek, _⟩ :=
    seekFromStart_guarded hguarded.sizes hguarded.hardened.listed offset
  have hadapter : Accepted headers req
      (r.intoResponder allocated dropChannel).inner.bytesStream.reader.size offset length :=
    haccepted
  obtain ⟨response, hrespond, _, _, hbody⟩ := respondTo_accepted hadapter hbound hseek
  exact ⟨response, r', hrespond, ⟨by omega, hseek⟩, hbody⟩

/-- Every request to a held reader is responded to. -/
theorem GuardedSomewhere.responds (h : GuardedSomewhere r) (hvalid : headers.Validates)
    (allocated : Allocated READ_SIZE) (dropChannel : Bool) (req : HttpRequest headers) :
    ∃ response, Responds headers r allocated dropChannel req response := by
  rcases accepted_or_refused hvalid (r.intoResponder allocated dropChannel) req with
    ⟨offset, length, haccepted⟩ | ⟨response, hrespond, hrefusal⟩
  · obtain ⟨response, r', hrespond, ⟨_, hseek⟩, hbody⟩ := h.accepted haccepted allocated dropChannel
    refine ⟨response, hrespond, ?_, ?_⟩
    · intro body hbody'
      rw [hbody] at hbody'
      obtain rfl := Option.mem_some.mp hbody'
      have htell : r'.tell = offset := (seekFromStart_seekStep hseek).tell
      show Accepted headers req r.size r'.tell length
      rw [htell]
      exact haccepted
    · intro hnone
      rw [hbody] at hnone
      cases hnone
  · refine ⟨response, hrespond, ?_, fun _ => ⟨hrefusal, h.handsOver⟩⟩
    intro body hbody
    rw [hrefusal.body] at hbody
    cases hbody

/-- What a held reader knows of CRCs is what the archive carries. -/
theorem Stocked.crc32s {mayFail : Prop} (h : Stocked H mayFail ms r.entries) :
    ∀ pair ∈ r.crc32s, ∃ m ∈ ms, pair = (m.name, m.crc) := by
  intro pair hpair
  obtain ⟨entry, hentry, hsome⟩ := List.mem_filterMap.mp hpair
  obtain ⟨crc, hcrc, rfl⟩ := Option.map_eq_some_iff.mp hsome
  obtain ⟨i, hi⟩ := List.getElem?_of_mem hentry
  have hlt : i < ms.length := h.length ▸ (List.getElem?_eq_some_iff.mp hi).1
  have hrep := h.represents i entry ms[i] hi (List.getElem?_eq_getElem hlt)
  refine ⟨ms[i], List.getElem_mem hlt, ?_⟩
  rw [hrep.name, hrep.crc crc hcrc]

theorem Slot.Stands.serves {slot : Slot E H} (h : slot.Stands ms) (hvalid : headers.Validates) :
    slot.Serves headers lib ms := by
  cases slot with
  | held r =>
    obtain ⟨a, rest, hms, hhonest, hat⟩ := h.stands
    refine ⟨a.members, hms, ?_, hat.stocked.crc32s, h.guarded.responds hvalid⟩
    rw [length_archiveBytes hhonest, ← hat.sizes]
    rfl
  | serving body offset done =>
    obtain ⟨a, start, left, hserved⟩ := h
    exact ⟨a.members, hserved.members, hserved.inside,
      hserved.body.servingSlice hserved.honest hserved.split, hserved.reader.guarded.handsOver⟩
  | dropped => trivial

/-- **Every body is the slice that was asked for**, in every order of requests, polls of bodies,
    drops and operations on the readers that are held, handed over or made of them; and every
    request is responded to. -/
theorem server_serves_slices (hb : b.Reached) (hbuild : b.build = .ok r)
    (hdeliver : b.Delivering content False) (hhonest : b.HonestSizes content)
    (hvalid : headers.Validates)
    (hrun : (serverSlots headers lib).pool.Run [.held r] labels slots) :
    ∀ slot ∈ slots, slot.Serves headers lib (r.members content) := by
  intro slot hslot
  exact (stands_of_serverRun hb hbuild hdeliver hhonest hvalid hrun slot hslot).serves hvalid

/-- An archive as large as that of `ms` has its members, if it is the one of `ms` or empty. -/
theorem members_eq_of_length {ms' : List Member} (hms : ms' = ms ∨ ms' = [])
    (hhonest' : ∀ m ∈ ms', m.Honest)
    (hle : (layoutSizes ms).totalSize ≤ (archiveBytes ms').length) : ms' = ms := by
  rcases hms with rfl | rfl
  · rfl
  · rw [length_archiveBytes hhonest'] at hle
    cases ms with
    | nil => rfl
    | cons m ms =>
      simp only [layoutSizes, extents_cons, extents_nil, centralSizes_nil, Member.extent,
        Member.localSize] at hle
      omega

/-- **A body of the whole archive hands its CRCs over.**  In every such run, when a body from the
    start of the archive to its end was yielded as a whole, the reader that its drop sends knows
    the CRCs of all entries. -/
theorem served_archive_hands_over_crcs (hb : b.Reached) (hbuild : b.build = .ok r)
    (hdeliver : b.Delivering content False) (hhonest : b.HonestSizes content)
    (hcrcs : b.RightCrcs content H) (hvalid : headers.Validates)
    (hrun : (serverSlots headers lib).pool.Run [.held r] labels slots) {body : Body E H}
    {done : List UInt8} (hslot : .serving body 0 done ∈ slots) (hwhole : body.size = r.size)
    (hall : body.remaining = 0) (hchannel : body.inner.dropChannel = true) :
    ∃ received, body.inner.drop = .ok (some received) ∧
      received.crc32s = b.entries.entries.map fun entry =>
        (entry.1, H.hash (content entry.2.data)) := by
  obtain ⟨a, start, left, hserved⟩ := stands_of_serverRun hb hbuild hdeliver hhonest hvalid hrun _ hslot
  obtain ⟨a₀, hbuilt⟩ := hb.built content hbuild
  -- the archive is the one that was built
  have hsize : r.size = (layoutSizes (r.members content)).totalSize := by
    rw [← hbuilt.members]
    exact congrArg Reader.size hbuilt.reader
  have hinside := hserved.inside
  have hmembers : a.members = r.members content :=
    members_eq_of_length hserved.members hserved.honest (by omega)
  have hlength : (archiveBytes a.members).length = r.size := by
    rw [length_archiveBytes hserved.honest, hmembers, hsize]
  have hsound : ∀ m ∈ a.members, m.Sound H := by
    rw [hmembers, ← hbuilt.members]
    exact hbuilt.sound hhonest hcrcs
  -- it was read to its end
  have hdone : done.length = (archiveBytes a.members).length := by
    have hleft : left = [] := List.length_eq_zero_iff.mp (hserved.body.remaining.symm.trans hall)
    have hsplit := hserved.split
    rw [hleft, List.append_nil] at hsplit
    rw [← hsplit, List.length_take, List.length_drop]
    omega
  obtain ⟨polls, ops, hyielded, hpolled⟩ := hserved.polled
  have hsteps := hpolled.steps
  have hcount := hpolled.delivered
  rw [← hyielded] at hcount
  obtain ⟨rest, hstream, hat⟩ :=
    Steps.stream hserved.begun hsteps hpolled.isPoll (Steps.succeeds hsound hserved.begun hsteps)
  rw [tailAt_segments_of_sound hsound, List.drop_zero] at hstream
  have hitems : rest.items = [] := by
    have hbytes : archiveBytes a.members = deliveredBytes ops ++ rest.items :=
      congrArg Tail.items hstream
    have hsum := congrArg List.length hbytes
    rw [List.length_append] at hsum
    exact List.length_eq_zero_iff.mp (by omega)
  have hcomplete : rest.complete = true := (congrArg Tail.complete hstream).symm
  -- so all CRCs are known
  obtain ⟨a', hguarded⟩ := hserved.held.guarded
  have hbehind := ((hserved.fresh rfl).run hguarded hsteps hpolled.isPoll).2
  have hknown : ∀ entry ∈ body.inner.bytesStream.reader.entries, entry.crc32 ≠ none := by
    intro entry hentry
    obtain ⟨i, hi⟩ := List.getElem?_of_mem hentry
    exact hbehind.known i entry hi (hat.pastCrc hbehind.unskipped hitems hcomplete i)
  have hright := right_of_stocked hbuilt hhonest hcrcs (hmembers ▸ hat.stocked)
  obtain ⟨received, hhands⟩ := hserved.reader.guarded.handsOver
  have hsome := hhands.isSome
  rw [hchannel] at hsome
  obtain ⟨received, rfl⟩ := Option.isSome_iff_exists.mp hsome
  refine ⟨received, hhands.drop, ?_⟩
  rw [hhands.crc32s received rfl, crc32s_of_known hknown hright]

end Servers

end Model

/-! ### Sessions -/

theorem oneRange_validates : oneRange.Validates where
  nonempty := by
    intro range size hranges
    have hif : (if range.1 ≤ range.2 ∧ range.2 < size then some [range] else none) = some [] :=
      hranges
    split at hif <;> cases hif
  inside := by
    intro range size ranges hranges
    have hif : (if range.1 ≤ range.2 ∧ range.2 < size then some [range] else none) = some ranges :=
      hranges
    split at hif
    · next hinside =>
      cases hif
      intro range' hrange'
      rw [List.mem_singleton.mp hrange']
      exact hinside
    · cases hif

section Sessions
variable {E : EntryData} {H : Crc32Fast} {headers : HttpRangeHeader}

/-- Poll a body so many times. -/
def Body.polls (ctx : E.Context) (fuel : Nat) : Nat → Body E H → Option (List (BodyPoll E) × Body E H)
  | 0, body => some ([], body)
  | count + 1, body =>
    match body.pollNext spareCapacity ctx fuel ⟨READ_SIZE, Nat.le_refl _⟩ with
    | .error _ => none
    | .ok (answer, body) =>
      (Body.polls ctx fuel count body).map fun result => (⟨ctx, answer⟩ :: result.1, result.2)

theorem Body.run_of_polls {ctx : E.Context} {fuel count : Nat} {body body' : Body E H}
    {polls : List (BodyPoll E)} (h : body.polls ctx fuel count = some (polls, body')) :
    (bodySystem spareCapacity).Run body polls body' := by
  induction count generalizing body polls with
  | zero =>
    cases h
    exact .nil
  | succ count ih =>
    unfold Body.polls at h
    split at h
    · cases h
    · next answer body₁ hpoll =>
      obtain ⟨result, hrest, heq⟩ := Option.map_eq_some_iff.mp h
      cases heq
      exact .cons ⟨fuel, ⟨READ_SIZE, Nat.le_refl _⟩, hpoll⟩ (ih hrest)

/-- Respond to a request and poll the body so many times. -/
def Reader.serve (r : Reader E H) (req : HttpRequest headers) (ctx : E.Context)
    (fuel count : Nat) : Option (Body E H × List (BodyPoll E) × Body E H) :=
  match (r.intoResponder ⟨READ_SIZE, Nat.le_refl _⟩ true).respondTo headers req with
  | .error _ => none
  | .ok response => response.body.bind fun body => (body.polls ctx fuel count).map (body, ·)

/-- Polls of a body in its slot. -/
theorem pollBody_run {lib : PollReadBuf} {body body' : Body E H} {offset : Nat}
    {polls : List (BodyPoll E)} (hrun : (bodySystem lib).Run body polls body') :
    (serverSlots headers lib).pool.Run [.serving body offset []]
      (polls.map fun poll => .step 0 (.pollBody poll)) [.serving body' offset (yielded polls)] := by
  induction hrun with
  | nil => exact .nil
  | snoc _ hstep ih =>
    rw [List.map_append, yielded_snoc]
    exact ih.snoc ⟨_, _, rfl, ⟨_, _, _, _, rfl, hstep, rfl⟩, rfl⟩

/-- What was served is a run of a server. -/
theorem Reader.run_of_serve {r : Reader E H} {req : HttpRequest headers} {ctx : E.Context}
    {fuel count : Nat} {body body' : Body E H} {polls : List (BodyPoll E)}
    (h : r.serve req ctx fuel count = some (body, polls, body')) :
    ∃ labels, (serverSlots headers spareCapacity).pool.Run [.held r] labels
      [.serving body' body.inner.bytesStream.reader.tell (yielded polls)] := by
  unfold Reader.serve at h
  split at h
  · cases h
  · next response hrespond =>
    obtain ⟨body₀, hbody, h⟩ := Option.bind_eq_some_iff.mp h
    obtain ⟨result, hpolls, heq⟩ := Option.map_eq_some_iff.mp h
    cases heq
    have hfirst : (serverSlots headers spareCapacity).pool.step [.held r]
        (.step 0 (.respond true req)) [.serving body body.inner.bytesStream.reader.tell []] := by
      refine ⟨_, _, rfl, ⟨r, _, response, rfl, hrespond, ?_⟩, rfl⟩
      rw [hbody]
      exact .serving body
    exact ⟨_, .cons hfirst (pollBody_run (Body.run_of_polls hpolls))⟩

end Sessions

/-- What was seen of what a reader served. -/
theorem exists_serve {E : EntryData} {H : Crc32Fast} {headers : HttpRangeHeader} {r : Reader E H}
    {req : HttpRequest headers} {ctx : E.Context} {fuel count : Nat}
    {P : Body E H × List (BodyPoll E) × Body E H → Bool}
    (h : (r.serve req ctx fuel count).map P = some true) :
    ∃ body polls body', r.serve req ctx fuel count = some (body, polls, body') ∧
      P (body, polls, body') = true := by
  obtain ⟨result, hserve, hseen⟩ := Option.map_eq_some_iff.mp h
  exact ⟨result.1, result.2.1, result.2.2, hserve, hseen⟩

/-- One poll of a body of the bytes `10..=40`. -/
theorem server_serves_slices_session :
    ∃ x : Session steady crc32Ieee, session crc32Ieee steadyFiles 20 [] = some x ∧
      ∃ (body : Body steady crc32Ieee) (done : List UInt8), body.size = 31 ∧ done.length = 31 ∧
        (Slot.serving body 10 done).Serves oneRange spareCapacity
          (x.reader.members PacedData.bytes) := by
  have hrun : (session crc32Ieee steadyFiles 20 []).map (fun x =>
      (x.reader.serve (⟨some "bytes=10-40"⟩ : HttpRequest oneRange) true 8300 1).map
        fun result => decide (result.1.inner.bytesStream.reader.tell = 10 ∧
          result.2.2.size = 31 ∧ (yielded result.2.1).length = 31)) = some (some true) := by
    decide +kernel
  obtain ⟨x, hx, h, hserved⟩ := exists_session hrun
  obtain ⟨body, polls, body', hserve, hseen⟩ := exists_serve hserved
  obtain ⟨htell, hsize, hlength⟩ := of_decide_eq_true hseen
  obtain ⟨labels, hlabels⟩ := Reader.run_of_serve hserve
  rw [htell] at hlabels
  refine ⟨x, hx, body', yielded polls, hsize, hlength, ?_⟩
  exact server_serves_slices h.reached h.build (h.delivering steady_ne_fail)
    (h.honestSizes (by decide)) oneRange_validates hlabels _ (List.mem_singleton.mpr rfl)

/-- A body of the whole archive, polled until all of it was yielded. -/
theorem served_archive_hands_over_crcs_session :
    ∃ x : Session steady crc32Ieee, session crc32Ieee steadyFiles 20 [] = some x ∧
      ∃ (body : Body steady crc32Ieee) (received : Reader steady crc32Ieee),
        body.inner.drop = .ok (some received) ∧
        received.crc32s = x.builder.entries.entries.map fun entry =>
          (entry.1, crc32Ieee.hash entry.2.data.bytes) := by
  have hrun : (session crc32Ieee steadyFiles 20 []).map (fun x =>
      (x.reader.serve (⟨none⟩ : HttpRequest oneRange) true 8300 9).map
        fun result => decide (result.1.inner.bytesStream.reader.tell = 0 ∧
          result.2.2.size = x.reader.size ∧ result.2.2.remaining = 0 ∧
            result.2.2.inner.dropChannel = true)) = some (some true) := by
    decide +kernel
  obtain ⟨x, hx, h, hserved⟩ := exists_session hrun
  obtain ⟨body, polls, body', hserve, hseen⟩ := exists_serve hserved
  obtain ⟨htell, hsize, hall, hchannel⟩ := of_decide_eq_true hseen
  obtain ⟨labels, hlabels⟩ := Reader.run_of_serve hserve
  rw [htell] at hlabels
  obtain ⟨received, hdrop, hcrcs⟩ := served_archive_hands_over_crcs h.reached h.build
    (h.delivering steady_ne_fail) (h.honestSizes (by decide)) (h.rightCrcs (by decide +kernel))
    oneRange_validates hlabels (List.mem_singleton.mpr rfl) hsize hall hchannel
  exact ⟨x, hx, body', received, hdrop, hcrcs⟩

end Zippity
