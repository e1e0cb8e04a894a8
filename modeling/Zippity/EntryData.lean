import Zippity.Framework.Async
import Zippity.Framework.ReadBuf

/-! # Entry data

    The traits `EntryData` and `EntryReader` of `entry_data.rs`: what an archive
    entry offers to the reader.  The context that a poll function receives is
    an argument of every answer, so a source may answer `Pending` whenever it
    likes: each poll of a run comes with a context of its own.

    `Cursor` is the contract of a source that delivers given bytes: its reader
    states are positions in these bytes, however often it is pending.
-/

namespace Zippity

open Framework

/-! ### The traits -/

/-- `std::io::SeekFrom`. -/
inductive SeekFrom where
  | start (offset : Nat)
  | «end» (offset : Int)
  | current (offset : Int)
  deriving DecidableEq, Repr

/-- `EntryData`, its `EntryReader` and its `Future`.  A poll function returns its answer and
    the state it leaves; a read answers the bytes it appends, which fit the buffer, and appends
    nothing when it is pending or fails. -/
structure EntryData where
  Data : Type
  Reader : Type
  /-- `Future<Output = Result<Reader>>`. -/
  Future : Type
  /-- `std::task::Context`. -/
  Context : Type
  Error : Type
  getReader : Data → Future
  size : Data → Nat
  size_lt : ∀ d, size d < Exec.u64Bound
  poll : Future → Context → PollResult Error Reader × Future
  pollRead : Reader → Data → Context → (buf : ReadBuf) →
    PollResult Error (Filling buf.remaining) × Reader
  startSeek : Reader → Data → SeekFrom → Except Error Unit × Reader
  pollSeekComplete : Reader → Data → Context → PollResult Error Nat × Reader

/-- `EntryReader::poll_read` on a buffer. -/
def EntryData.pollReadInto (E : EntryData) (reader : E.Reader) (data : E.Data) (ctx : E.Context)
    (buf : ReadBuf) : PollResult E.Error ReadBuf × E.Reader :=
  match E.pollRead reader data ctx buf with
  | (.pending, reader') => (.pending, reader')
  | (.err e, reader') => (.err e, reader')
  | (.ok bytes, reader') => (.ok (buf.append bytes.1 bytes.2), reader')

/-! ### Sources that deliver given bytes -/

/-- A source for `d` that delivers `data`: opening leads to a reader at position 0, a read at a
    position appends the bytes from there (some, unless the buffer is full or the data is at its
    end), `Pending` changes nothing, and a seek to `Start(p)` resolves to `p`, also past the end.
    If `mayFail`, opening, reads and seeks may fail: a failed read leaves the position as it is, and
    after a failed seek the reader is where `poll_seek_complete` says. -/
structure Cursor (E : EntryData) (mayFail : Prop) (d : E.Data) (data : List UInt8) where
  opening : E.Future → Prop
  standing : E.Reader → Nat → Prop
  seeking : E.Reader → Nat → Prop
  /-- A seek failed. -/
  stalled : E.Reader → Prop
  poll : ∀ future ctx, opening future →
    match E.poll future ctx with
    | (.pending, future') => opening future'
    | (.err _, _) => mayFail
    | (.ok reader, _) => standing reader 0
  pollRead : ∀ reader n ctx buf, standing reader n →
    match E.pollRead reader d ctx buf with
    | (.pending, reader') => standing reader' n
    | (.err _, reader') => mayFail ∧ standing reader' n
    | (.ok bytes, reader') =>
      bytes.1 = (data.drop n).take bytes.1.length ∧
        (0 < buf.remaining → n < data.length → bytes.1 ≠ []) ∧
        standing reader' (n + bytes.1.length)
  startSeek : ∀ reader n p, standing reader n →
    match E.startSeek reader d (.start p) with
    | (.ok (), reader') => seeking reader' p
    | (.error _, reader') => mayFail ∧ stalled reader'
  pollSeekComplete : ∀ reader p ctx, seeking reader p →
    match E.pollSeekComplete reader d ctx with
    | (.pending, reader') => seeking reader' p
    | (.err _, reader') => mayFail ∧ (seeking reader' p ∨ stalled reader')
    | (.ok q, reader') => q = p ∧ standing reader' p
  pollStalled : ∀ reader ctx, stalled reader →
    match E.pollSeekComplete reader d ctx with
    | (.pending, reader') => stalled reader'
    | (.err _, reader') => mayFail ∧ stalled reader'
    | (.ok q, reader') => standing reader' q

section Contract
variable (E : EntryData) (mayFail : Prop) (d : E.Data) (data : List UInt8)

/-- A future that leads to a reader of `data`. -/
def Opening (future : E.Future) : Prop :=
  ∃ c : Cursor E mayFail d data, c.opening future

/-- A reader at position `n` of `data`. -/
def Standing (reader : E.Reader) (n : Nat) : Prop :=
  ∃ c : Cursor E mayFail d data, c.standing reader n

/-- A reader with a seek to position `p` of `data` in progress. -/
def Seeking (reader : E.Reader) (p : Nat) : Prop :=
  ∃ c : Cursor E mayFail d data, c.seeking reader p

/-- A reader of `data` whose seek failed. -/
def Stalled (reader : E.Reader) : Prop :=
  ∃ c : Cursor E mayFail d data, c.stalled reader

/-- The reader that `get_reader()` leads to delivers `data`. -/
def Delivers : Prop := Opening E mayFail d data (E.getReader d)

end Contract

section ContractRules
variable {E : EntryData} {mayFail : Prop} {d : E.Data} {data : List UInt8}

theorem opening_poll {future : E.Future} (h : Opening E mayFail d data future)
    (ctx : E.Context) :
    match E.poll future ctx with
    | (.pending, future') => Opening E mayFail d data future'
    | (.err _, _) => mayFail
    | (.ok reader, _) => Standing E mayFail d data reader 0 := by
  obtain ⟨c, hc⟩ := h
  have hpoll := c.poll future ctx hc
  generalize E.poll future ctx = answer at hpoll ⊢
  rcases answer with ⟨_ | _ | _, _⟩
  · exact ⟨c, hpoll⟩
  · exact hpoll
  · exact ⟨c, hpoll⟩

theorem standing_pollRead {reader : E.Reader} {n : Nat} (h : Standing E mayFail d data reader n)
    (ctx : E.Context) (buf : ReadBuf) :
    match E.pollRead reader d ctx buf with
    | (.pending, reader') => Standing E mayFail d data reader' n
    | (.err _, reader') => mayFail ∧ Standing E mayFail d data reader' n
    | (.ok bytes, reader') =>
      bytes.1 = (data.drop n).take bytes.1.length ∧
        (0 < buf.remaining → n < data.length → bytes.1 ≠ []) ∧
        Standing E mayFail d data reader' (n + bytes.1.length) := by
  obtain ⟨c, hc⟩ := h
  have hread := c.pollRead reader n ctx buf hc
  generalize E.pollRead reader d ctx buf = answer at hread ⊢
  rcases answer with ⟨_ | _ | _, _⟩
  · exact ⟨c, hread⟩
  · exact ⟨hread.1, c, hread.2⟩
  · exact ⟨hread.1, hread.2.1, c, hread.2.2⟩

theorem standing_startSeek {reader : E.Reader} {n : Nat} (h : Standing E mayFail d data reader n)
    (p : Nat) :
    match E.startSeek reader d (.start p) with
    | (.ok (), reader') => Seeking E mayFail d data reader' p
    | (.error _, reader') => mayFail ∧ Stalled E mayFail d data reader' := by
  obtain ⟨c, hc⟩ := h
  have hstart := c.startSeek reader n p hc
  generalize E.startSeek reader d (.start p) = answer at hstart ⊢
  rcases answer with ⟨_ | _, _⟩
  · exact ⟨hstart.1, c, hstart.2⟩
  · exact ⟨c, hstart⟩

theorem seeking_pollSeekComplete {reader : E.Reader} {p : Nat}
    (h : Seeking E mayFail d data reader p) (ctx : E.Context) :
    match E.pollSeekComplete reader d ctx with
    | (.pending, reader') => Seeking E mayFail d data reader' p
    | (.err _, reader') =>
      mayFail ∧ (Seeking E mayFail d data reader' p ∨ Stalled E mayFail d data reader')
    | (.ok q, reader') => q = p ∧ Standing E mayFail d data reader' p := by
  obtain ⟨c, hc⟩ := h
  have hpoll := c.pollSeekComplete reader p ctx hc
  generalize E.pollSeekComplete reader d ctx = answer at hpoll ⊢
  rcases answer with ⟨_ | _ | _, _⟩
  · exact ⟨c, hpoll⟩
  · refine ⟨hpoll.1, ?_⟩
    rcases hpoll.2 with hseeking | hstalled
    · exact .inl ⟨c, hseeking⟩
    · exact .inr ⟨c, hstalled⟩
  · exact ⟨hpoll.1, c, hpoll.2⟩

theorem stalled_pollSeekComplete {reader : E.Reader} (h : Stalled E mayFail d data reader)
    (ctx : E.Context) :
    match E.pollSeekComplete reader d ctx with
    | (.pending, reader') => Stalled E mayFail d data reader'
    | (.err _, reader') => mayFail ∧ Stalled E mayFail d data reader'
    | (.ok q, reader') => Standing E mayFail d data reader' q := by
  obtain ⟨c, hc⟩ := h
  have hpoll := c.pollStalled reader ctx hc
  generalize E.pollSeekComplete reader d ctx = answer at hpoll ⊢
  rcases answer with ⟨_ | _ | _, _⟩
  · exact ⟨c, hpoll⟩
  · exact ⟨hpoll.1, c, hpoll.2⟩
  · exact ⟨c, hpoll⟩

end ContractRules

/-! ### Byte slices

    `impl<T: AsRef<[u8]>> EntryData for T`, with its `AsRefReader`. -/

/-- A byte slice; an allocation has at most `isize::MAX` bytes. -/
abbrev Slice := { bytes : List UInt8 // bytes.length < 2 ^ 63 }

/-- `AsRefReader`. -/
structure AsRefReader where
  position : Nat
  deriving DecidableEq, Repr

namespace AsRefReader

/-- The bytes that `AsRefReader::poll_read` puts into a buffer with `room` free bytes. -/
def readable (self : AsRefReader) (slice : List UInt8) (room : Nat) : Filling room :=
  if self.position ≤ slice.length then
    let remaining := slice.drop self.position
    ⟨remaining.take (min remaining.length room), by rw [List.length_take]; omega⟩
  -- behind the end nothing is read
  else ⟨[], Nat.zero_le _⟩

/-- A read puts the bytes from the position on into the buffer. -/
theorem readable_spec (self : AsRefReader) (slice : List UInt8) (room : Nat) :
    (self.readable slice room).1 =
        (slice.drop self.position).take (self.readable slice room).1.length ∧
      (0 < room → self.position < slice.length → (self.readable slice room).1 ≠ []) := by
  unfold readable
  split
  · next hle =>
    refine ⟨by simp, fun hroom hlt hnil => ?_⟩
    have hlen := congrArg List.length hnil
    simp only [List.length_take, List.length_drop, List.length_nil] at hlen
    omega
  · next hle => exact ⟨by simp, fun _ hlt => absurd (Nat.le_of_lt hlt) hle⟩

/-- The target of a seek, if it is not negative and fits `u64`. -/
def target (self : AsRefReader) (size : Nat) : SeekFrom → Option Nat
  | .start offset => some offset
  | .end offset => checkedAddSigned size offset
  | .current offset => checkedAddSigned self.position offset
where
  /-- `u64::checked_add_signed`. -/
  checkedAddSigned (base : Nat) (offset : Int) : Option Nat :=
    let sum : Int := base + offset
    if 0 ≤ sum ∧ sum < Exec.u64Bound then some sum.toNat else none

end AsRefReader

/-- The error of a seek to a negative or overflowing position. -/
inductive SeekError where
  | invalidInput
  deriving DecidableEq, Repr

/-- Byte slices as entry data; their future is `std::future::Ready`. -/
def asRef : EntryData where
  Data := Slice
  Reader := AsRefReader
  Future := AsRefReader
  Context := Unit
  Error := SeekError
  getReader _ := ⟨0⟩
  size d := d.1.length
  size_lt d := by have := d.2; simp only [Exec.u64Bound]; omega
  poll future _ := (.ok future, future)
  pollRead reader data _ buf :=
    let bytes := reader.readable data.1 buf.remaining
    (.ok bytes, ⟨reader.position + bytes.1.length⟩)
  startSeek reader data pos :=
    match reader.target data.1.length pos with
    | some position => (.ok (), ⟨position⟩)
    | none => (.error .invalidInput, reader)
  pollSeekComplete reader _ _ := (.ok reader.position, reader)

/-- A byte slice delivers its bytes and never fails. -/
theorem asRef_delivers (slice : asRef.Data) : Delivers asRef False slice slice.1 := by
  refine ⟨{
    opening := fun future => future.position = 0
    standing := fun reader n => reader.position = n
    seeking := fun reader p => reader.position = p
    stalled := fun _ => False
    poll := fun _ _ h => h
    pollRead := ?_
    startSeek := fun _ _ _ _ => rfl
    pollSeekComplete := fun _ _ _ h => ⟨h, h⟩
    pollStalled := fun _ _ h => h.elim }, rfl⟩
  rintro reader n ctx buf rfl
  obtain ⟨hbytes, hne⟩ := reader.readable_spec slice.1 buf.remaining
  exact ⟨hbytes, hne, rfl⟩

end Zippity
