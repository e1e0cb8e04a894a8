import Zippity.Session

/-! # What a CRC reader hashes

    Over a run of calls a `CrcReader` passes every read on to its inner reader
    and hashes what came back, in whatever pieces.  The bytes that a buffer
    already held do not count.
-/

namespace Zippity

open Framework

section Model
variable {E : EntryData} {H : Crc32Fast}

/-! ### Calls -/

/-- A call of a function of `EntryReader`, with its answer; a buffer is answered as the call leaves
    it.  The data is an argument of every call. -/
inductive EntryReaderCall (E : EntryData) where
  | pollRead (data : E.Data) (ctx : E.Context) (buf : ReadBuf)
    (answer : PollResult E.Error ReadBuf)
  | startSeek (data : E.Data) (pos : SeekFrom) (answer : Except E.Error Unit)
  | pollSeekComplete (data : E.Data) (ctx : E.Context) (answer : PollResult E.Error Nat)

namespace EntryReaderCall

/-- The call is a read. -/
def isRead : EntryReaderCall E → Bool
  | .pollRead .. => true
  | _ => false

/-- The bytes that a call appended to its buffer. -/
def appended : EntryReaderCall E → List UInt8
  | .pollRead _ _ buf (.ok buf') => buf'.filled.drop buf.filled.length
  | _ => []

/-- What was in the buffer before is still there. -/
def Appends : EntryReaderCall E → Prop
  | .pollRead _ _ buf (.ok buf') => buf.Extends (buf'.filled.drop buf.filled.length) buf'
  | _ => True

end EntryReaderCall

/-- A call of a function of `CrcReader`. -/
inductive CrcReaderCall (E : EntryData) where
  | entryReader (call : EntryReaderCall E)
  | seek (data : E.Data) (ctx : E.Context) (position : SeekFrom) (answer : PollResult E.Error Nat)

namespace CrcReaderCall

/-- The call of the trait, if it is one. -/
def entryReader? : CrcReaderCall E → Option (EntryReaderCall E)
  | .entryReader call => some call
  | .seek .. => none

/-- The call starts a seek, or finds one that was started before. -/
def seeks : CrcReaderCall E → Bool
  | .entryReader (.startSeek ..) => true
  | .entryReader _ => false
  | .seek .. => true

end CrcReaderCall

/-- The reader of an entry. -/
def innerSystem (E : EntryData) : System E.Reader (EntryReaderCall E) where
  init _ := True
  step reader call reader' :=
    match call with
    | .pollRead data ctx buf answer => E.pollReadInto reader data ctx buf = (answer, reader')
    | .startSeek data pos answer => E.startSeek reader data pos = (answer, reader')
    | .pollSeekComplete data ctx answer => E.pollSeekComplete reader data ctx = (answer, reader')

/-- The CRC reader over it. -/
def crcReaderSystem (E : EntryData) (H : Crc32Fast) : System (CrcReader E H) (CrcReaderCall E) where
  init reader := ∃ inner, reader = .new inner
  step reader call reader' :=
    match call with
    | .entryReader (.pollRead data ctx buf answer) =>
      reader.pollRead data ctx buf = (answer, reader')
    | .entryReader (.startSeek data pos answer) => reader.startSeek data pos = (answer, reader')
    | .entryReader (.pollSeekComplete data ctx answer) =>
      reader.pollSeekComplete data ctx = (answer, reader')
    | .seek data ctx position answer => reader.seek data ctx position = (answer, reader')

/-- The reads among some calls, with their buffers and answers. -/
def reads (calls : List (EntryReaderCall E)) : List (EntryReaderCall E) :=
  calls.filter EntryReaderCall.isRead

/-- All bytes that some calls appended to their buffers. -/
def delivered (calls : List (EntryReaderCall E)) : List UInt8 :=
  calls.flatMap EntryReaderCall.appended

theorem delivered_append (calls calls' : List (EntryReaderCall E)) :
    delivered (calls ++ calls') = delivered calls ++ delivered calls' := List.flatMap_append

/-- Only reads append. -/
theorem delivered_reads (calls : List (EntryReaderCall E)) :
    delivered (reads calls) = delivered calls := by
  -- a call that is filtered out appends nothing
  induction calls with
  | nil => rfl
  | cons call calls ih =>
    by_cases hread : call.isRead
    · rw [reads, List.filter_cons_of_pos hread]
      exact congrArg (call.appended ++ ·) ih
    · have hnone : call.appended = [] := by
        cases call with
        | pollRead => exact absurd rfl hread
        | _ => rfl
      rw [reads, List.filter_cons_of_neg hread]
      refine ih.trans ?_
      rw [delivered, delivered, List.flatMap_cons, hnone, List.nil_append]

/-! ### One call -/

/-- A new CRC reader over `inner` passed some reads on, and a seek was started if `sought`. -/
structure Passed (inner : E.Reader) (passed : List (EntryReaderCall E)) (sought : Bool)
    (reader : CrcReader E H) : Prop where
  /-- The inner reader had the same reads, and gave the same answers. -/
  inner : ∃ calls, (innerSystem E).Run inner calls reader.innerReader ∧ reads calls = passed
  didSeek : reader.didSeek = sought
  busy : reader.seekInProgress = true → sought = true
  hashed : H.Fed reader.hasher (delivered passed)

section Step
variable {inner : E.Reader} {passed : List (EntryReaderCall E)} {sought : Bool}
  {reader reader' : CrcReader E H}

theorem Passed.new (inner : E.Reader) :
    Passed inner [] false (CrcReader.new inner : CrcReader E H) where
  inner := ⟨[], .nil, rfl⟩
  didSeek := rfl
  busy h := by cases h
  hashed := Crc32Fast.fed_new

/-- A read of the inner reader appends to the buffer. -/
theorem pollReadInto_appends {reader reader' : E.Reader} {data : E.Data} {ctx : E.Context}
    {buf : ReadBuf} {answer : PollResult E.Error ReadBuf}
    (h : E.pollReadInto reader data ctx buf = (answer, reader')) :
    (EntryReaderCall.pollRead data ctx buf answer).Appends := by
  unfold EntryData.pollReadInto at h
  rcases hread : E.pollRead reader data ctx buf with ⟨_ | e | bytes, reader₁⟩
  · rw [hread] at h
    cases h
    trivial
  · rw [hread] at h
    cases h
    trivial
  · rw [hread] at h
    cases h
    have hextends := ReadBuf.Extends.append bytes.2
    show buf.Extends ((buf.append bytes.1 bytes.2).filled.drop buf.filled.length) _
    rwa [hextends.drop_filled]

/-- A call of the trait is passed on as it is, and what a read appends is hashed. -/
theorem crc_step_entryReader {call : EntryReaderCall E}
    (h : (crcReaderSystem E H).step reader (.entryReader call) reader') :
    (innerSystem E).step reader.innerReader call reader'.innerReader ∧ call.Appends ∧
      reader'.didSeek = (reader.didSeek || CrcReaderCall.seeks (.entryReader call)) ∧
      (reader'.seekInProgress = true → reader.seekInProgress = true ∨ reader'.didSeek = true) ∧
      ∀ bytes, H.Fed reader.hasher bytes → H.Fed reader'.hasher (bytes ++ call.appended) := by
  -- what appends nothing leaves the hasher as it is
  have hsame : ∀ state bytes, H.Fed state bytes → H.Fed state (bytes ++ []) := by
    intro state bytes hfed
    rwa [List.append_nil]
  cases call with
  | pollRead data ctx buf answer =>
    have hpoll : reader.pollRead data ctx buf = (answer, reader') := h
    unfold CrcReader.pollRead at hpoll
    rcases hinner : E.pollReadInto reader.innerReader data ctx buf with ⟨_ | e | buf', inner'⟩
    · rw [hinner] at hpoll
      cases hpoll
      exact ⟨hinner, trivial, by simp [CrcReaderCall.seeks], .inl, hsame _⟩
    · rw [hinner] at hpoll
      cases hpoll
      exact ⟨hinner, trivial, by simp [CrcReaderCall.seeks], .inl, hsame _⟩
    · rw [hinner] at hpoll
      cases hpoll
      exact ⟨hinner, pollReadInto_appends hinner, by simp [CrcReaderCall.seeks], .inl,
        fun bytes hfed => hfed.update _⟩
  | startSeek data pos answer =>
    cases h
    exact ⟨rfl, trivial, by simp [CrcReaderCall.seeks], fun _ => .inr rfl, hsame _⟩
  | pollSeekComplete data ctx answer =>
    have hpoll : reader.pollSeekComplete data ctx = (answer, reader') := h
    unfold CrcReader.pollSeekComplete at hpoll
    rcases hinner : E.pollSeekComplete reader.innerReader data ctx with ⟨_ | e | pos, inner'⟩
    · rw [hinner] at hpoll
      cases hpoll
      exact ⟨hinner, trivial, by simp [CrcReaderCall.seeks], .inl, hsame _⟩
    · rw [hinner] at hpoll
      cases hpoll
      exact ⟨hinner, trivial, by simp [CrcReaderCall.seeks], .inl, hsame _⟩
    · rw [hinner] at hpoll
      cases hpoll
      exact ⟨hinner, trivial, by simp [CrcReaderCall.seeks], (fun hbusy => by cases hbusy),
        hsame _⟩

/-- One more call of the trait. -/
theorem Passed.call {call : EntryReaderCall E} (h : Passed inner passed sought reader)
    (hstep : (crcReaderSystem E H).step reader (.entryReader call) reader') :
    Passed inner (passed ++ reads [call]) (sought || CrcReaderCall.seeks (.entryReader call))
      reader' := by
  obtain ⟨hinner, _, hseek, hbusy, hfed⟩ := crc_step_entryReader hstep
  obtain ⟨calls, hrun, hcalls⟩ := h.inner
  rw [h.didSeek] at hseek
  refine ⟨⟨calls ++ [call], hrun.snoc hinner, ?_⟩, hseek, ?_, ?_⟩
  · rw [← hcalls, reads, List.filter_append]
    rfl
  · intro hprogress
    rw [← hseek]
    rcases hbusy hprogress with hbefore | hsought
    · rw [hseek, h.busy hbefore, Bool.true_or]
    · exact hsought
  · rw [delivered_append, delivered_reads]
    have hcall := hfed _ h.hashed
    rwa [← List.append_nil call.appended] at hcall

/-- A call of `seek` is one or two calls of the trait, and leaves the reads as they are. -/
theorem Passed.seek {data : E.Data} {ctx : E.Context} {position : SeekFrom}
    {answer : PollResult E.Error Nat} (h : Passed inner passed sought reader)
    (hstep : reader.seek data ctx position = (answer, reader')) :
    Passed inner passed true reader' := by
  unfold CrcReader.seek at hstep
  -- a seek in progress is polled only; it was started before
  by_cases hbusy : reader.seekInProgress
  · rw [if_pos hbusy] at hstep
    have hcomplete : (crcReaderSystem E H).step reader
        (.entryReader (.pollSeekComplete data ctx answer)) reader' := hstep
    have hcall : Passed inner (passed ++ []) (sought || false) reader' := h.call hcomplete
    rwa [h.busy hbusy, List.append_nil, Bool.true_or] at hcall
  · rw [if_neg hbusy] at hstep
    rcases hstart : reader.startSeek data position with ⟨result, reader₁⟩
    have hstarted : (crcReaderSystem E H).step reader
        (.entryReader (.startSeek data position result)) reader₁ := hstart
    have hcall : Passed inner (passed ++ []) (sought || true) reader₁ := h.call hstarted
    rw [List.append_nil, Bool.or_true] at hcall
    rw [hstart] at hstep
    cases result with
    | error e =>
      cases hstep
      exact hcall
    | ok =>
      have hcomplete : (crcReaderSystem E H).step reader₁
          (.entryReader (.pollSeekComplete data ctx answer)) reader' := hstep
      have hcall' : Passed inner (passed ++ []) (true || false) reader' := hcall.call hcomplete
      rwa [List.append_nil, Bool.or_false] at hcall'

end Step

/-! ### A run -/

/-- The calls of the trait in a run. -/
def entryReaderCalls (calls : List (CrcReaderCall E)) : List (EntryReaderCall E) :=
  calls.filterMap CrcReaderCall.entryReader?

/-- What a run leaves. -/
theorem Passed.run {inner : E.Reader} {calls : List (CrcReaderCall E)} {reader : CrcReader E H}
    (h : (crcReaderSystem E H).Run (.new inner) calls reader) :
    Passed inner (reads (entryReaderCalls calls)) (calls.any CrcReaderCall.seeks) reader ∧
      ∀ call ∈ entryReaderCalls calls, call.Appends := by
  refine h.invariant (fun calls reader =>
    Passed inner (reads (entryReaderCalls calls)) (calls.any CrcReaderCall.seeks) reader ∧
      ∀ call ∈ entryReaderCalls calls, call.Appends) ⟨.new inner, by simp [entryReaderCalls]⟩ ?_
  intro calls reader call reader' ⟨hpassed, happends⟩ hstep
  unfold entryReaderCalls at hpassed happends ⊢
  rw [List.filterMap_append, List.any_append]
  cases call with
  | entryReader call =>
    refine ⟨?_, ?_⟩
    · rw [reads, List.filter_append, List.any_cons, List.any_nil, Bool.or_false]
      exact hpassed.call hstep
    · intro call' hmem
      rcases List.mem_append.mp hmem with hbefore | hlast
      · exact happends call' hbefore
      · obtain rfl := List.mem_singleton.mp hlast
        exact (crc_step_entryReader hstep).2.1
  | seek data ctx position answer =>
    have hnone :
        [CrcReaderCall.seek data ctx position answer].filterMap CrcReaderCall.entryReader? = [] :=
      rfl
    rw [hnone, List.append_nil, List.any_cons, CrcReaderCall.seeks, Bool.true_or, Bool.or_true]
    exact ⟨hpassed.seek hstep, happends⟩

/-- **A CRC reader hashes exactly what it passes through.**  In every run its inner reader has the
    same reads with the same buffers and answers, a read keeps what was in its buffer, and the CRC
    is that of all bytes that were appended, unless a seek was started. -/
theorem crcReader_hashes_delivered (inner : E.Reader) {calls : List (CrcReaderCall E)}
    {reader : CrcReader E H} (h : (crcReaderSystem E H).Run (.new inner) calls reader) :
    (∃ innerCalls, (innerSystem E).Run inner innerCalls reader.innerReader ∧
      reads innerCalls = reads (entryReaderCalls calls)) ∧
    (∀ call ∈ entryReaderCalls calls, call.Appends) ∧
    reader.getCrc32 =
      if calls.any CrcReaderCall.seeks then none
      else some (H.hash (delivered (entryReaderCalls calls))) := by
  obtain ⟨hpassed, happends⟩ := Passed.run h
  refine ⟨hpassed.inner, happends, ?_⟩
  have hfed := hpassed.hashed
  rw [delivered_reads] at hfed
  rw [CrcReader.getCrc32, hpassed.didSeek, hfed.finalize]

end Model

/-- A read into a buffer that holds a byte already, one that waits, and one to the end. -/
theorem crcReader_hashes_delivered_paced :
    ∃ (calls : List (CrcReaderCall steady)) (reader : CrcReader steady crc32Ieee),
      (crcReaderSystem steady crc32Ieee).Run (.new ⟨0⟩) calls reader ∧ calls.length = 3 ∧
      delivered (entryReaderCalls calls) = [0x31, 0x32, 0x33, 0x34] ∧
      reader.getCrc32 = some (crc32Ieee.hash [0x31, 0x32, 0x33, 0x34]) := by
  let data : PacedData := .honest [0x31, 0x32, 0x33, 0x34]
  let buf : ReadBuf := ⟨[0xFF], 3, by decide, by decide⟩
  let reader : CrcReader steady crc32Ieee := .new ⟨0⟩
  let first := reader.pollRead data true buf
  let second := first.2.pollRead data false (.new 10)
  let third := second.2.pollRead data true (.new 10)
  have hfirst : (crcReaderSystem steady crc32Ieee).step reader
      (.entryReader (.pollRead data true buf first.1)) first.2 := rfl
  have hsecond : (crcReaderSystem steady crc32Ieee).step first.2
      (.entryReader (.pollRead data false (.new 10) second.1)) second.2 := rfl
  have hthird : (crcReaderSystem steady crc32Ieee).step second.2
      (.entryReader (.pollRead data true (.new 10) third.1)) third.2 := rfl
  have hrun := System.Run.snoc (System.Run.snoc (System.Run.snoc .nil hfirst) hsecond) hthird
  exact ⟨_, third.2, hrun, rfl, rfl, (crcReader_hashes_delivered _ hrun).2.2⟩

end Zippity
