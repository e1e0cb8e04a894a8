import Zippity.Archive
import Zippity.Reader.Entry

/-! # What reading an entry does

    Weakest-precondition specifications of the functions on one entry.  The
    entry stands for a member of the archive, whose data its source delivers;
    the slot is described by the position up to which the data was read.

    A function that is interrupted, by `Pending` or by an error of the source,
    leaves a state that meets its own precondition again.
-/

namespace Zippity

open Framework Async
open Exec (u64Bound addU64 subU64 assert)

section Spec
variable {E : EntryData} {H : Crc32Fast}

/-! ### Faults -/

/-- The faults that may stop a call: a failed future polled again, or the assertion on the position
    after a failed seek, if sources may fail; an overflow, if there is more data than `u64` counts;
    and too little fuel. -/
def Excused (mayFail long starved : Prop) : Fault → Prop
  | .polledAfterCompletion => mayFail
  | .assertFailed => mayFail
  | .overflow => long
  | .outOfFuel => starved
  | _ => False

/-- When nothing fails, nothing is too long and fuel is left, no fault is excused. -/
theorem not_excused {mayFail long starved : Prop} (hfail : ¬ mayFail) (hlong : ¬ long)
    (hstarved : ¬ starved) (f : Fault) : ¬ Excused mayFail long starved f := by
  intro hf
  cases f with
  | polledAfterCompletion => exact hfail hf
  | assertFailed => exact hfail hf
  | overflow => exact hlong hf
  | outOfFuel => exact hstarved hf
  | _ => exact hf

/-- The answer is `Pending` or, if sources may fail, an error of one. -/
inductive Interrupted {α : Type} (mayFail : Prop) : PollResult (IoError E) α → Prop where
  | pending : Interrupted mayFail .pending
  | failed (e : E.Error) (h : mayFail) : Interrupted mayFail (.err (.entry e))

variable {mayFail long starved : Prop}

/-! ### Entries and members -/

/-- The entry has the metadata of the member. -/
structure Describes (entry : ReaderEntry E) (m : Member) : Prop where
  name : entry.name = m.name
  datetime : entry.datetime = m.datetime
  externalAttributes : entry.externalAttributes = m.externalAttributes
  offset : entry.offset = m.offset
  size : entry.size = m.size

/-- The entry is that of the member, except that its CRC may still be unknown. -/
structure Represents (H : Crc32Fast) (mayFail : Prop) (entry : ReaderEntry E) (m : Member) : Prop
    extends Describes entry m where
  delivers : Delivers E mayFail entry.data m.data
  crc : ∀ crc, entry.crc32 = some crc → crc = m.crc
  computed : entry.crc32 = none → m.crc = H.hash (if m.size = 0 then [] else m.data)

/-- Storing the member's CRC. -/
theorem Represents.setCrc {entry : ReaderEntry E} {m : Member} (h : Represents H mayFail entry m) :
    Represents H mayFail { entry with crc32 := some m.crc } m where
  toDescribes := ⟨h.name, h.datetime, h.externalAttributes, h.offset, h.size⟩
  delivers := h.delivers
  crc crc heq := (Option.some.inj heq).symm
  computed heq := by cases heq

/-- The CRC that is computed for an entry with data and without a CRC. -/
theorem Represents.hash_eq {entry : ReaderEntry E} {m : Member} (h : Represents H mayFail entry m)
    (hcrc : entry.crc32 = none) (hsize : m.size ≠ 0) : H.hash m.data = m.crc := by
  rw [h.computed hcrc, if_neg hsize]

/-! ### The slot -/

/-- The slot reads the data from its start, without a seek, and is at position `n`. -/
inductive SlotAt (mayFail : Prop) (d : E.Data) (data : List UInt8) :
    ReaderPinned E H → Nat → Prop where
  | nothing (h : Delivers E mayFail d data) : SlotAt mayFail d data .nothing 0
  | opening {future : E.Future} (h : Opening E mayFail d data future) :
    SlotAt mayFail d data (.readerFuture future false) 0
  | failed {future : E.Future} (h : mayFail) : SlotAt mayFail d data (.readerFuture future true) 0
  | reading {reader : CrcReader E H} {n : Nat} (h : CrcStanding mayFail d data reader n)
    (straight : reader.didSeek = false) : SlotAt mayFail d data (.fileReader reader) n

/-- Polling a file reader in the slot. -/
theorem onFileReader_wp {α : Type} {reader : CrcReader E H} {s : EntryFrame E H}
    {call : CrcReader E H → E.Data → PollResult E.Error α × CrcReader E H} {F : Fault → Prop}
    {Q : PollResult (IoError E) α → EntryFrame E H → Prop} (h : s.pinned.slot = .fileReader reader) :
    (onFileReader call).wp F Q s ↔
      match call reader s.entry.data with
      | (.pending, reader') => Q .pending (s.setSlot (.fileReader reader'))
      | (.err e, reader') => Q (.err (.entry e)) (s.setSlot (.fileReader reader'))
      | (.ok a, reader') => Q (.ok a) (s.setSlot (.fileReader reader')) := by
  unfold onFileReader fileReader
  rw [wp_bind]
  simp only [wp_get_bind, h, wp_pure, andThen]
  rcases call reader s.entry.data with ⟨_ | _ | _, _⟩ <;> simp

theorem fileReader_wp {reader : CrcReader E H} {s : EntryFrame E H} {F : Fault → Prop}
    {Q : PollResult (IoError E) (CrcReader E H) → EntryFrame E H → Prop}
    (h : s.pinned.slot = .fileReader reader) : (fileReader).wp F Q s ↔ Q (.ok reader) s := by
  unfold fileReader
  simp [h]

/-! ### `get_reader` -/

/-- The log after `get_reader` on an entry: it calls `EntryData::get_reader` when the slot is
    empty. -/
def Pinned.logged (pinned : Pinned E H) (name : Name) : List Name :=
  match pinned.slot with
  | .nothing => pinned.opened ++ [name]
  | _ => pinned.opened

theorem Pinned.logged_of_ne {pinned : Pinned E H} (h : pinned.slot ≠ .nothing) (name : Name) :
    pinned.logged name = pinned.opened := by
  unfold Pinned.logged
  split
  · next hslot => exact absurd hslot h
  · rfl

/-- Polling a future that leads to the data. -/
theorem pollFuture_wp {s : EntryFrame E H} {ctx : E.Context} {data : List UInt8} {n : Nat}
    {Q : PollResult (IoError E) Unit → EntryFrame E H → Prop}
    (hslot : SlotAt mayFail s.entry.data data s.pinned.slot n) (hnonempty : s.pinned.slot ≠ .nothing)
    (hok : ∀ reader, CrcStanding mayFail s.entry.data data reader n → reader.didSeek = false →
      Q (.ok ()) (s.setSlot (.fileReader reader)))
    (hwait : ∀ r slot, Interrupted mayFail r → SlotAt mayFail s.entry.data data slot n →
      slot ≠ .nothing → Q r (s.setSlot slot)) :
    (pollFuture ctx).wp (Excused mayFail long starved) Q s := by
  obtain ⟨rs, entry, ⟨slot, opened⟩, output⟩ := s
  simp only at hslot hnonempty
  cases hslot with
  | nothing => exact absurd rfl hnonempty
  | failed h => exact h
  | @opening future h =>
    have hpoll := opening_poll h ctx
    unfold Async.wp pollFuture
    simp only
    generalize E.poll future ctx = answer at hpoll ⊢
    rcases answer with ⟨_ | e | reader, future'⟩
    · exact hwait _ _ .pending (.opening hpoll) (by simp)
    · exact hwait _ _ (.failed e hpoll) (.failed hpoll) (by simp)
    · exact hok _ (crcStanding_new hpoll) rfl
  | @reading reader n h straight => exact hok reader h straight

/-- `get_reader` leads to a reader at the position of the slot. -/
theorem getReader_wp {s : EntryFrame E H} {ctx : E.Context} {data : List UInt8} {n : Nat}
    {Q : PollResult (IoError E) (CrcReader E H) → EntryFrame E H → Prop}
    (hslot : SlotAt mayFail s.entry.data data s.pinned.slot n)
    (hok : ∀ reader, CrcStanding mayFail s.entry.data data reader n → reader.didSeek = false →
      Q (.ok reader) { s with pinned := ⟨.fileReader reader, s.pinned.logged s.entry.name⟩ })
    (hwait : ∀ r slot, Interrupted mayFail r → SlotAt mayFail s.entry.data data slot n →
      slot ≠ .nothing → Q r { s with pinned := ⟨slot, s.pinned.logged s.entry.name⟩ }) :
    (getReader ctx).wp (Excused mayFail long starved) Q s := by
  -- after the first `if` the slot is not empty
  have hrest : ∀ slot : ReaderPinned E H, SlotAt mayFail s.entry.data data slot n →
      slot ≠ .nothing →
      (pollFuture ctx >>= fun _ => fileReader).wp (Excused mayFail long starved) Q
        { s with pinned := ⟨slot, s.pinned.logged s.entry.name⟩ } := by
    intro slot hslot hne
    rw [wp_bind]
    refine pollFuture_wp (n := n) hslot hne ?_ ?_
    · intro reader hstand hstraight
      exact (fileReader_wp rfl).mpr (hok reader hstand hstraight)
    · intro r slot' hr hslot' hne'
      cases hr with
      | pending => exact hwait _ _ .pending hslot' hne'
      | failed e h => exact hwait _ _ (.failed e h) hslot' hne'
  have hkept : s.pinned.slot ≠ .nothing →
      (pollFuture ctx >>= fun _ => fileReader).wp (Excused mayFail long starved) Q s := by
    intro hne
    have hpoll := hrest s.pinned.slot hslot hne
    rw [Pinned.logged_of_ne hne] at hpoll
    exact hpoll
  unfold getReader openFuture
  rw [wp_bind, wp_get_bind]
  cases hs : s.pinned.slot with
  | nothing =>
    rw [hs] at hslot
    cases hslot with
    | nothing h =>
      have hpoll := hrest (.readerFuture (E.getReader s.entry.data) false) (.opening h) (by simp)
      unfold Pinned.logged at hpoll
      rw [hs] at hpoll
      exact hpoll
  | readerFuture future completed => exact hkept (by simp [hs])
  | fileReader reader => exact hkept (by simp [hs])

/-! ### `get_crc` -/

/-- Polling the reader in the slot with a scratch buffer of its own. -/
theorem pollScratch_wp {s : EntryFrame E H} {ctx : E.Context} {data : List UInt8} {n room : Nat}
    {hroom : room < 2 ^ 63} {reader : CrcReader E H} {F : Fault → Prop}
    {Q : PollResult (IoError E) ReadBuf → EntryFrame E H → Prop}
    (hslot : s.pinned.slot = .fileReader reader)
    (hstand : CrcStanding mayFail s.entry.data data reader n) (hstraight : reader.didSeek = false)
    (hok : ∀ readBuffer : ReadBuf, ∀ reader', readBuffer.filled.length ≤ room →
      readBuffer.filled = (data.drop n).take readBuffer.filled.length →
      (0 < room → n < data.length → readBuffer.filled ≠ []) →
      CrcStanding mayFail s.entry.data data reader' (n + readBuffer.filled.length) →
      reader'.didSeek = false → Q (.ok readBuffer) (s.setSlot (.fileReader reader')))
    (hwait : ∀ r slot, Interrupted mayFail r → SlotAt mayFail s.entry.data data slot n →
      slot ≠ .nothing → Q r (s.setSlot slot)) :
    (onFileReader fun reader data => reader.pollRead data ctx (.new room hroom)).wp F Q s := by
  rw [onFileReader_wp hslot]
  have hread := crcStanding_pollRead hstand ctx (.new room hroom)
  -- of the answer only what the standing reader promises is used
  generalize reader.pollRead s.entry.data ctx (.new room hroom) = answer at hread ⊢
  rcases answer with ⟨_ | e | readBuffer, reader'⟩
  · obtain ⟨hstand', hseek⟩ := hread
    exact hwait _ _ .pending (.reading hstand' (hseek.trans hstraight)) (by simp)
  · obtain ⟨hfail, hstand', hseek⟩ := hread
    exact hwait _ _ (.failed e hfail) (.reading hstand' (hseek.trans hstraight)) (by simp)
  · obtain ⟨bytes, hext, hbytes, hne, hstand', hseek⟩ := hread
    have hfilled : readBuffer.filled = bytes := by simpa using hext.filled
    have hlen : bytes.length ≤ room := by
      have := hext.remaining
      simp only [ReadBuf.remaining_new] at this
      omega
    subst hfilled
    exact hok readBuffer reader' hlen hbytes hne hstand' (hseek.trans hstraight)

/-- The loop of `get_crc` reads to the end of the data. -/
theorem readToEnd_wp {ctx : E.Context} {data : List UInt8} {fuel : Nat} {s : EntryFrame E H}
    {n : Nat} {reader : CrcReader E H} {Q : PollResult (IoError E) Unit → EntryFrame E H → Prop}
    (hslot : s.pinned.slot = .fileReader reader)
    (hstand : CrcStanding mayFail s.entry.data data reader n) (hstraight : reader.didSeek = false)
    (hfuel : ¬ starved → data.length - n < fuel)
    (hok : ∀ reader' n', CrcStanding mayFail s.entry.data data reader' n' → data.length ≤ n' →
      reader'.didSeek = false → Q (.ok ()) (s.setSlot (.fileReader reader')))
    (hwait : ∀ r slot n', Interrupted mayFail r → SlotAt mayFail s.entry.data data slot n' →
      slot ≠ .nothing → Q r (s.setSlot slot)) :
    (readToEnd ctx fuel).wp (Excused mayFail long starved) Q s := by
  -- each turn of the loop reads at least one byte, so the data left bounds the fuel
  induction fuel generalizing s n reader with
  | zero =>
    by_cases hstarved : starved
    · exact hstarved
    · exact absurd (hfuel hstarved) (Nat.not_lt_zero _)
  | succ fuel ih =>
    unfold readToEnd
    rw [wp_bind]
    refine pollScratch_wp hslot hstand hstraight ?_ ?_
    · intro readBuffer reader' _ hbytes hne hstand' hstraight'
      show Async.wp (if readBuffer.filled.isEmpty then pure () else readToEnd ctx fuel) _ _ _
      by_cases hempty : readBuffer.filled = []
      · rw [if_pos (by simp [hempty])]
        -- an empty read into a buffer with room is the end of the data
        have hend : data.length ≤ n := by
          by_contra hlt
          exact hne (by decide) (by omega) hempty
        exact hok reader' _ hstand' (by omega) hstraight'
      · rw [if_neg (by simpa using hempty)]
        have hpos : 0 < readBuffer.filled.length := List.length_pos_iff.mpr hempty
        refine ih rfl hstand' hstraight' (fun h => ?_) hok hwait
        have hfuel' := hfuel h
        have hle := congrArg List.length hbytes
        simp only [List.length_take, List.length_drop] at hle
        omega
    · intro r slot hr hslot' hne
      cases hr with
      | pending => exact hwait _ _ n .pending hslot' hne
      | failed e h => exact hwait _ _ n (.failed e h) hslot' hne

/-- The slot while no entry is read, or while the CRC of this one is computed. -/
def HashSlot (mayFail : Prop) (entry : ReaderEntry E) (m : Member) (slot : ReaderPinned E H) :
    Prop :=
  slot = .nothing ∨
    (entry.crc32 = none ∧ m.size ≠ 0 ∧ ∃ n, SlotAt mayFail entry.data m.data slot n)

/-- `get_crc` answers the member's CRC and stores it. -/
theorem getCrc_wp {s : EntryFrame E H} {ctx : E.Context} {fuel : Nat} {m : Member}
    {Q : PollResult (IoError E) UInt32 → EntryFrame E H → Prop}
    (hentry : Represents H mayFail s.entry m) (hslot : HashSlot mayFail s.entry m s.pinned.slot)
    (hfuel : ¬ starved → m.data.length < fuel)
    (hok : ∀ opened,
      opened = s.pinned.opened ∨
        (s.entry.crc32 = none ∧ m.size ≠ 0 ∧ opened = s.pinned.logged s.entry.name) →
      Q (.ok m.crc)
        { s with entry := { s.entry with crc32 := some m.crc }, pinned := ⟨.nothing, opened⟩ })
    (hwait : ∀ r slot n, Interrupted mayFail r → s.entry.crc32 = none → m.size ≠ 0 →
      SlotAt mayFail s.entry.data m.data slot n → slot ≠ .nothing →
      Q r { s with pinned := ⟨slot, s.pinned.logged s.entry.name⟩ }) :
    (getCrc ctx fuel).wp (Excused mayFail long starved) Q s := by
  unfold getCrc
  rw [wp_get_bind]
  -- a known CRC is answered, that of empty data is computed, any other needs the reader
  cases hcrc : s.entry.crc32 with
  | some crc =>
    have hm := hentry.crc crc hcrc
    subst hm
    have hnothing : s.pinned.slot = .nothing := by
      rcases hslot with h | ⟨h, _⟩
      · exact h
      · rw [hcrc] at h; cases h
    have := hok s.pinned.opened (.inl rfl)
    rwa [← hnothing, ← hcrc] at this
  | none =>
    by_cases hsize : m.size = 0
    · rw [if_pos (hentry.size.trans hsize)]
      have hm : m.crc = H.hash [] := by rw [hentry.computed hcrc, if_pos hsize]
      have hnothing : s.pinned.slot = .nothing := by
        rcases hslot with h | ⟨_, h, _⟩
        · exact h
        · exact absurd hsize h
      have := hok s.pinned.opened (.inl rfl)
      rw [← hnothing, hm] at this
      exact this
    · rw [if_neg (by rw [hentry.size]; exact hsize), wp_bind]
      have hslot' : ∃ n, SlotAt mayFail s.entry.data m.data s.pinned.slot n := by
        rcases hslot with h | ⟨_, _, h⟩
        · exact ⟨0, h ▸ .nothing hentry.delivers⟩
        · exact h
      obtain ⟨n, hslot'⟩ := hslot'
      refine getReader_wp hslot' ?_ ?_
      · intro reader hstand hstraight
        show Async.wp (readToEnd ctx fuel >>= _) _ _ _
        rw [wp_bind]
        refine readToEnd_wp rfl hstand hstraight (fun h => ?_) ?_ ?_
        · have := hfuel h
          omega
        · intro reader' n' hstand' hend hstraight'
          show Async.wp (fileReader >>= _) _ _ _
          rw [wp_bind, fileReader_wp rfl]
          -- a reader that never sought has hashed all it read
          have hget : reader'.getCrc32 = some m.crc := by
            rw [crcStanding_getCrc32 hstand', hstraight', List.take_of_length_le hend]
            simp [hentry.hash_eq hcrc hsize]
          simp only [andThen, hget]
          exact hok _ (.inr ⟨hcrc, hsize, rfl⟩)
        · intro r slot n' hr hslot'' hne
          cases hr with
          | pending => exact hwait _ _ n' .pending hcrc hsize hslot'' hne
          | failed e h => exact hwait _ _ n' (.failed e h) hcrc hsize hslot'' hne
      · intro r slot hr hslot'' hne
        cases hr with
        | pending => exact hwait _ _ n .pending hcrc hsize hslot'' hne
        | failed e h => exact hwait _ _ n (.failed e h) hcrc hsize hslot'' hne

/-! ### Entry data

    An attempt to read the data of an entry enters it at its `k`-th byte.  With
    `n` bytes processed in the attempt, `n + toSkip` is the position of the next
    byte to be output, on both skip paths.

    After a `SizeMismatch` the next poll begins another attempt, with a fresh
    reader, but `chunk_processed_size` goes on from the value it had: this is
    the `base` of the attempt, 0 for the first one. -/

/-- The slot while the data is skipped or output. -/
inductive DataSlot (mayFail : Prop) (entry : ReaderEntry E) (m : Member) (k n toSkip : Nat) :
    ReaderPinned E H → Prop where
  /-- Everything was read from the start on. -/
  | straight {slot : ReaderPinned E H} (h : SlotAt mayFail entry.data m.data slot n)
    (hcrc : k = 0 ∨ entry.crc32 = none ∨ n = 0) :
    DataSlot mayFail entry m k n toSkip slot
  /-- A seek to the position is in progress, or it failed. -/
  | seeking {reader : CrcReader E H} (h : CrcBusy mayFail entry.data m.data reader k)
    (hk : 0 < k) (hn : n = 0) (htoSkip : toSkip = k)
    (hcrc : entry.crc32 ≠ none) : DataSlot mayFail entry m k n toSkip (.fileReader reader)
  /-- The position was sought. -/
  | sought {reader : CrcReader E H} (h : CrcStanding mayFail entry.data m.data reader n)
    (hk : 0 < k) (htoSkip : toSkip = 0) (hseek : reader.didSeek = true)
    (hcrc : entry.crc32 ≠ none) :
    DataSlot mayFail entry m k n toSkip (.fileReader reader)

/-- The state while the data is skipped or output. -/
structure DataStands (mayFail : Prop) (entry : ReaderEntry E) (m : Member)
    (k n toSkip : Nat) (slot : ReaderPinned E H) : Prop where
  entered : k ≤ n + toSkip
  skipping : 0 < toSkip → n + toSkip = k
  bounded : n ≤ max k m.data.length
  slot : DataSlot mayFail entry m k n toSkip slot

/-- A second attempt is made only after a `SizeMismatch`, which leaves a CRC behind. -/
def Retried (entry : ReaderEntry E) (m : Member) (base : Nat) : Prop :=
  base = 0 ∨ (entry.crc32 ≠ none ∧ m.data.length ≠ m.size)

/-- The state in which the data is read to the output: the position is reached, or the data is
    too short for it. -/
structure DataReady (mayFail : Prop) (entry : ReaderEntry E) (m : Member)
    (k n toSkip : Nat) (reader : CrcReader E H) : Prop where
  entered : k ≤ n + toSkip
  skipped : toSkip = 0 ∨ (n + toSkip = k ∧ m.data.length ≤ n)
  bounded : n ≤ max k m.data.length
  standing : CrcStanding mayFail entry.data m.data reader n
  straight : reader.didSeek = false → k = 0 ∨ entry.crc32 = none
  sought : reader.didSeek = true → 0 < k ∧ toSkip = 0 ∧ entry.crc32 ≠ none

/-- Of data without bytes nothing is ever counted but what was skipped. -/
theorem DataStands.sum_eq {entry : ReaderEntry E} {m : Member} {k n toSkip : Nat}
    {slot : ReaderPinned E H} (h : DataStands mayFail entry m k n toSkip slot)
    (hdata : m.data = []) : n + toSkip = k := by
  have hentered := h.entered
  have hskipping := h.skipping
  have hbounded := h.bounded
  rw [hdata, List.length_nil, Nat.max_zero] at hbounded
  rcases Nat.eq_zero_or_pos toSkip with hzero | hpos
  · omega
  · exact hskipping hpos

theorem DataReady.stands {entry : ReaderEntry E} {m : Member} {k n toSkip : Nat}
    {reader : CrcReader E H} (h : DataReady mayFail entry m k n toSkip reader) :
    DataStands mayFail entry m k n toSkip (.fileReader reader) where
  entered := h.entered
  skipping hpos := by
    rcases h.skipped with hz | ⟨heq, _⟩
    · omega
    · exact heq
  bounded := h.bounded
  slot := by
    cases hseek : reader.didSeek with
    | false =>
      refine .straight (.reading h.standing hseek) ?_
      rcases h.straight hseek with hk | hcrc
      · exact .inl hk
      · exact .inr (.inl hcrc)
    | true =>
      obtain ⟨hpos, hzero, hcrc⟩ := h.sought hseek
      exact .sought h.standing hpos hzero hseek hcrc

/-- Before anything is read the slot is empty. -/
theorem DataStands.start {entry : ReaderEntry E} {m : Member} (k : Nat)
    (h : Delivers E mayFail entry.data m.data) :
    DataStands mayFail entry m k 0 k (.nothing : ReaderPinned E H) where
  entered := by omega
  skipping _ := by omega
  bounded := Nat.zero_le _
  slot := .straight (.nothing h) (.inr (.inr rfl))

/-- `get_reader` in the course of reading the data. -/
theorem DataStands.getReader_wp {s : EntryFrame E H} {ctx : E.Context} {m : Member}
    {k n toSkip : Nat} {Q : PollResult (IoError E) (CrcReader E H) → EntryFrame E H → Prop}
    (h : DataStands mayFail s.entry m k n toSkip s.pinned.slot)
    (hok : ∀ reader, DataStands mayFail s.entry m k n toSkip (.fileReader reader) →
      Q (.ok reader) { s with pinned := ⟨.fileReader reader, s.pinned.logged s.entry.name⟩ })
    (hwait : ∀ r slot, Interrupted mayFail r → DataStands mayFail s.entry m k n toSkip slot →
      slot ≠ .nothing → Q r { s with pinned := ⟨slot, s.pinned.logged s.entry.name⟩ }) :
    (getReader ctx).wp (Excused mayFail long starved) Q s := by
  -- a reader in the slot is used as it is
  have hopen : ∀ reader, s.pinned.slot = .fileReader reader →
      (getReader ctx).wp (Excused mayFail long starved) Q s := by
    intro reader heq
    unfold getReader openFuture
    rw [wp_bind, wp_get_bind, heq]
    show Async.wp (pollFuture ctx >>= _) _ _ _
    rw [wp_bind]
    have hpoll : pollFuture ctx s = .ok (.ok (), s) := by simp [pollFuture, heq]
    unfold Async.wp
    rw [hpoll]
    have hpinned : s.pinned = ⟨.fileReader reader, s.pinned.opened⟩ := by rw [← heq]
    refine (fileReader_wp heq).mpr ?_
    have := hok reader (heq ▸ h)
    rw [Pinned.logged_of_ne (by simp [heq])] at this
    rwa [← hpinned] at this
  obtain ⟨hentered, hskipping, hbounded, hslot⟩ := h
  generalize hs : s.pinned.slot = slot at hslot
  cases hslot with
  | straight hslot hcrc =>
    subst hs
    refine Zippity.getReader_wp hslot ?_ ?_
    · intro reader hstand hstraight
      exact hok _ ⟨hentered, hskipping, hbounded, .straight (.reading hstand hstraight) hcrc⟩
    · intro r slot hr hslot' hne
      exact hwait r slot hr ⟨hentered, hskipping, hbounded, .straight hslot' hcrc⟩ hne
  | seeking => exact hopen _ hs
  | sought => exact hopen _ hs

/-- The loop that skips by reading reaches the position or the end of the data. -/
theorem skipByReading_wp {ctx : E.Context} {fuel : Nat} {s : EntryFrame E H} {m : Member}
    {k : Nat} {reader : CrcReader E H} {Q : PollResult (IoError E) Unit → EntryFrame E H → Prop}
    (hslot : s.pinned.slot = .fileReader reader)
    (hstand : CrcStanding mayFail s.entry.data m.data reader s.readState.chunkProcessedSize)
    (hstraight : reader.didSeek = false)
    (hk : s.readState.chunkProcessedSize + s.readState.toSkip = k) (hbound : k < u64Bound)
    (hfuel : ¬ starved → m.data.length - s.readState.chunkProcessedSize < fuel)
    (hok : ∀ reader' processed toSkip,
      CrcStanding mayFail s.entry.data m.data reader' processed → reader'.didSeek = false →
      processed + toSkip = k → toSkip = 0 ∨ m.data.length ≤ processed →
      Q (.ok ()) { s.setSlot (.fileReader reader') with
        readState.chunkProcessedSize := processed, readState.toSkip := toSkip })
    (hwait : ∀ r slot processed toSkip, Interrupted mayFail r →
      SlotAt mayFail s.entry.data m.data slot processed → slot ≠ .nothing →
      processed + toSkip = k → Q r { s.setSlot slot with
        readState.chunkProcessedSize := processed, readState.toSkip := toSkip }) :
    (skipByReading ctx fuel).wp (Excused mayFail long starved) Q s := by
  -- what is processed and what is to be skipped always make up `k`
  induction fuel generalizing s reader with
  | zero =>
    by_cases hstarved : starved
    · exact hstarved
    · exact absurd (hfuel hstarved) (Nat.not_lt_zero _)
  | succ fuel ih =>
    unfold skipByReading
    rw [wp_get_bind]
    by_cases hskip : s.readState.toSkip > 0
    · rw [if_pos hskip]
      show Async.wp (onFileReader _ >>= _) _ _ _
      rw [wp_bind]
      refine pollScratch_wp hslot hstand hstraight ?_ ?_
      · intro readBuffer reader' hlen hbytes hne hstand' hstraight'
        have hlen' : readBuffer.filled.length ≤ s.readState.toSkip := by omega
        have hroom : 0 < min READ_SIZE s.readState.toSkip := by
          simp only [READ_SIZE]; omega
        show Async.wp (lift (addU64 s.readState.chunkProcessedSize readBuffer.filled.length) >>= _)
          _ _ _
        rw [Exec.addU64_eq (by omega), wp_bind, wp_lift]
        show Async.wp (lift (subU64 s.readState.toSkip readBuffer.filled.length) >>= _) _ _ _
        rw [Exec.subU64_eq hlen', wp_bind, wp_lift]
        show Async.wp (Async.modify _ >>= _) _ _ _
        rw [wp_modify_bind]
        by_cases hempty : readBuffer.filled = []
        · rw [if_pos (by simp [hempty])]
          -- the data ends before the position
          have hend : m.data.length ≤ s.readState.chunkProcessedSize := by
            by_contra hlt
            exact hne hroom (by omega) hempty
          refine hok reader' _ _ hstand' hstraight' (by omega) (.inr (by omega))
        · rw [if_neg (by simpa using hempty)]
          have hpos : 0 < readBuffer.filled.length := List.length_pos_iff.mpr hempty
          have hle := congrArg List.length hbytes
          simp only [List.length_take, List.length_drop] at hle
          refine ih rfl hstand' hstraight' ?_ (fun h => ?_) hok hwait
          · show s.readState.chunkProcessedSize + readBuffer.filled.length +
              (s.readState.toSkip - readBuffer.filled.length) = k
            omega
          · have hfuel' := hfuel h
            show m.data.length - (s.readState.chunkProcessedSize + readBuffer.filled.length) < fuel
            omega
      · intro r slot hr hslot' hne
        cases hr with
        | pending => exact hwait _ slot _ _ .pending hslot' hne hk
        | failed e h => exact hwait _ slot _ _ (.failed e h) hslot' hne hk
    · rw [if_neg hskip]
      have hself := hok reader _ _ hstand hstraight hk (.inl (by omega))
      have hs : s.setSlot (.fileReader reader) = s := by rw [← hslot]; rfl
      rw [hs] at hself
      exact hself

/-- The branch that skips by a seek reaches the position. -/
theorem skipBySeeking_wp {ctx : E.Context} {s : EntryFrame E H} {m : Member} {base k : Nat}
    {reader : CrcReader E H} {Q : PollResult (IoError E) Unit → EntryFrame E H → Prop}
    (hslot : s.pinned.slot = .fileReader reader)
    (hreader : (∃ n, CrcStanding mayFail s.entry.data m.data reader n) ∨
      CrcBusy mayFail s.entry.data m.data reader k)
    (hbase : s.readState.chunkProcessedSize = base) (hk : s.readState.toSkip = k)
    (hbound : k < u64Bound) (hlong : ¬ long → base = 0)
    (hok : ∀ reader', CrcStanding mayFail s.entry.data m.data reader' k → reader'.didSeek = true →
      Q (.ok ()) { s.setSlot (.fileReader reader') with
        readState.chunkProcessedSize := base + k, readState.toSkip := 0 })
    (hwait : ∀ r reader', Interrupted mayFail r → CrcBusy mayFail s.entry.data m.data reader' k →
      Q r (s.setSlot (.fileReader reader'))) :
    (skipBySeeking ctx).wp (Excused mayFail long starved) Q s := by
  -- the seek is started here, or one that is pending is continued
  have hseek : CrcSought mayFail s.entry.data m.data k
      (reader.seek s.entry.data ctx (.start k)) := by
    rcases hreader with ⟨n, hstand⟩ | hbusy
    · exact crcStanding_seek hstand ctx k
    · exact crcBusy_seek hbusy ctx (.start k)
  unfold skipBySeeking
  rw [wp_get_bind, wp_bind, onFileReader_wp hslot]
  simp only [hk, hbase]
  generalize reader.seek s.entry.data ctx (.start k) = answer at hseek ⊢
  rcases answer with ⟨_ | e | q, reader'⟩
  · exact hwait _ reader' .pending hseek
  · exact hwait _ reader' (.failed e hseek.1) hseek.2
  · obtain ⟨hfail, hstand', hsought⟩ := hseek
    show Async.wp (lift (assert (q = k)) >>= _) _ _ _
    rw [wp_bind, wp_lift]
    -- only a seek that failed ends elsewhere
    refine Exec.wp_assert (fun hne => hfail hne) fun heq => ?_
    subst heq
    show Async.wp (lift (addU64 base q) >>= _) _ _ _
    rw [wp_bind, wp_lift]
    -- only an attempt that has output bytes before can overflow here
    refine Exec.wp_addU64 (fun hover => ?_) (fun _ => ?_)
    · by_contra hnot
      have := hlong hnot
      omega
    · exact hok reader' hstand' hsought

/-- Both skip paths lead to a state in which the data can be read to the output. -/
theorem skipEntryData_wp {ctx : E.Context} {fuel : Nat} {s : EntryFrame E H} {m : Member}
    {base n k : Nat} {reader : CrcReader E H}
    {Q : PollResult (IoError E) Unit → EntryFrame E H → Prop}
    (hslot : s.pinned.slot = .fileReader reader)
    (hbase : s.readState.chunkProcessedSize = base + n) (hretried : Retried s.entry m base)
    (hstand : DataStands mayFail s.entry m k n s.readState.toSkip (.fileReader reader))
    (hbound : k < u64Bound) (hfuel : ¬ starved → m.data.length < fuel) (hlong : ¬ long → base = 0)
    (hok : ∀ reader' n' toSkip, DataReady mayFail s.entry m k n' toSkip reader' →
      n' + toSkip = n + s.readState.toSkip →
      Q (.ok ()) { s.setSlot (.fileReader reader') with
        readState.chunkProcessedSize := base + n', readState.toSkip := toSkip })
    (hwait : ∀ r slot n' toSkip, Interrupted mayFail r →
      DataStands mayFail s.entry m k n' toSkip slot → slot ≠ .nothing →
      n' + toSkip = n + s.readState.toSkip → Q r { s.setSlot slot with
        readState.chunkProcessedSize := base + n', readState.toSkip := toSkip }) :
    (skipEntryData ctx fuel).wp (Excused mayFail long starved) Q s := by
  have hself : s.setSlot (.fileReader reader) = s := by rw [← hslot]; rfl
  obtain ⟨hentered, hskipping, hbounded, hdata⟩ := hstand
  unfold skipEntryData
  rw [wp_get_bind]
  by_cases hskip : s.readState.toSkip > 0
  · have hk := hskipping hskip
    rw [if_pos hskip]
    by_cases hcrc : s.entry.crc32 = none
    · -- the CRC is unknown: read and discard; this is the first attempt
      rw [if_pos (by simp [hcrc])]
      have hzero : base = 0 := by
        rcases hretried with hzero | ⟨hne, _⟩
        · exact hzero
        · exact absurd hcrc hne
      subst hzero
      rw [Nat.zero_add] at hbase
      simp only [Nat.zero_add] at hok hwait
      -- a seek needs a known CRC, so the reader has only read so far
      have hreading : CrcStanding mayFail s.entry.data m.data reader
          s.readState.chunkProcessedSize ∧ reader.didSeek = false := by
        rw [hbase]
        cases hdata with
        | straight h _ => cases h with | reading h straight => exact ⟨h, straight⟩
        | seeking _ _ _ _ hne => exact absurd hcrc hne
        | sought _ _ hzero _ => omega
      refine skipByReading_wp hslot hreading.1 hreading.2 (hbase ▸ hk) hbound (fun h => ?_) ?_ ?_
      · have := hfuel h
        omega
      · intro reader' n' toSkip hstand' hstraight' hsum hend
        refine hok reader' n' toSkip ⟨by omega, ?_, by omega, hstand', fun _ => .inr hcrc,
          fun h => ?_⟩ (by omega)
        · rcases hend with hz | hend
          · exact .inl hz
          · exact .inr ⟨hsum, hend⟩
        · exact absurd (hstraight'.symm.trans h) (by simp)
      · intro r slot n' toSkip hr hslot' hne hsum
        exact hwait r slot n' toSkip hr
          ⟨by omega, fun _ => hsum, by omega, .straight hslot' (.inr (.inl hcrc))⟩ hne (by omega)
    · -- the CRC is known: seek in the entry
      rw [if_neg (by rwa [Option.isNone_iff_eq_none])]
      have hseek : n = 0 ∧ ((∃ n, CrcStanding mayFail s.entry.data m.data reader n) ∨
          CrcBusy mayFail s.entry.data m.data reader k) := by
        cases hdata with
        | straight h hwhy =>
          cases h with
          | reading h _ =>
            refine ⟨?_, .inl ⟨_, h⟩⟩
            rcases hwhy with hz | hnone | hz
            · omega
            · exact absurd hnone hcrc
            · exact hz
        | seeking h _ hz _ _ => exact ⟨hz, .inr h⟩
        | sought _ _ hzero _ => omega
      -- nothing of the attempt is processed yet, so the seek leads to its first byte
      have htoSkip : s.readState.toSkip = k := by omega
      have hbase' : s.readState.chunkProcessedSize = base := by omega
      refine skipBySeeking_wp hslot hseek.2 hbase' htoSkip hbound hlong ?_ ?_
      · intro reader' hstand' hsought
        exact hok reader' k 0 ⟨by omega, .inl rfl, by omega, hstand',
          fun h => absurd (hsought.symm.trans h) (by simp), fun _ => ⟨by omega, rfl, hcrc⟩⟩
          (by omega)
      · intro r reader' hr hbusy
        have hwaiting := hwait r (.fileReader reader') n s.readState.toSkip hr
          ⟨hentered, hskipping, hbounded, .seeking hbusy (by omega) hseek.1 htoSkip hcrc⟩
          (by simp) rfl
        rw [← hbase] at hwaiting
        exact hwaiting
  · -- nothing is to be skipped
    rw [if_neg hskip]
    have hready : DataReady mayFail s.entry m k n s.readState.toSkip reader := by
      cases hdata with
      | straight h hwhy =>
        cases h with
        | reading h straight =>
          refine ⟨hentered, .inl (by omega), hbounded, h, fun _ => ?_, fun h => ?_⟩
          · rcases hwhy with hz | hnone | hz
            · exact .inl hz
            · exact .inr hnone
            · exact .inl (by omega)
          · exact absurd (straight.symm.trans h) (by simp)
      | seeking _ hpos _ htoSkip _ => omega
      | sought h hpos hzero hsought hcrc =>
        exact ⟨hentered, .inl hzero, hbounded, h, fun h => absurd (hsought.symm.trans h) (by simp),
          fun _ => ⟨hpos, hzero, hcrc⟩⟩
    have hself' := hok reader n _ hready rfl
    rw [← hbase, hself] at hself'
    exact hself'

/-- At the end of the data of an attempt, what was processed in it is the larger of the length of
    the data and the position entered at; unless the skip stopped at the end of the data, which
    happens in a first attempt only. -/
theorem DataReady.total {entry : ReaderEntry E} {m : Member} {base k n toSkip : Nat}
    {reader : CrcReader E H} (h : DataReady mayFail entry m k n toSkip reader)
    (hretried : Retried entry m base) (hend : m.data.length ≤ n) (hk : k < m.size) :
    (base + n = m.size ↔ base + max k m.data.length = m.size) ∧
      (base + n = m.size → toSkip = 0) := by
  have hentered := h.entered
  have hbounded := h.bounded
  rcases h.skipped with hz | ⟨hsum, _⟩
  · have hn : n = max k m.data.length := by omega
    rw [hn]
    exact ⟨Iff.rfl, fun _ => hz⟩
  · by_cases hz : toSkip = 0
    · have hn : n = max k m.data.length := by omega
      rw [hn]
      exact ⟨Iff.rfl, fun _ => hz⟩
    · have hnone : entry.crc32 = none := by
        cases hseek : reader.didSeek with
        | true => exact absurd (h.sought hseek).2.1 hz
        | false =>
          rcases h.straight hseek with hk0 | hnone
          · omega
          · exact hnone
      have hzero : base = 0 := by
        rcases hretried with hzero | ⟨hne, _⟩
        · exact hzero
        · exact absurd hnone hne
      omega

/-- A wrong total means a wrong length. -/
theorem Retried.length_ne {entry : ReaderEntry E} {m : Member} {base k : Nat}
    (h : Retried entry m base) (hk : k < m.size) (hne : base + max k m.data.length ≠ m.size) :
    m.data.length ≠ m.size := by
  rcases h with rfl | ⟨_, hlen⟩
  · omega
  · exact hlen

/-- The checks at the end of the data. -/
theorem finishEntryData_wp {s : EntryFrame E H} {m : Member} {base k n : Nat}
    {reader : CrcReader E H} {F : Fault → Prop}
    {Q : PollResult (IoError E) Bool → EntryFrame E H → Prop}
    (hentry : Represents H mayFail s.entry m) (hslot : s.pinned.slot = .fileReader reader)
    (hbase : s.readState.chunkProcessedSize = base + n) (hretried : Retried s.entry m base)
    (hready : DataReady mayFail s.entry m k n s.readState.toSkip reader)
    (hend : m.data.length ≤ n) (hk : k < m.size)
    (hdone : m.haltsFrom H base k = false → base + n = m.size → s.readState.toSkip = 0 →
      Q (.ok true) { s.setSlot .nothing with entry.crc32 := some m.crc })
    (hmismatch : k = 0 → m.crc ≠ H.hash m.data →
      Q (.err (.read (.crc32Mismatch m.name m.crc (H.hash m.data)))) s)
    (hsize : base + max k m.data.length ≠ m.size →
      Q (.err (.read (.sizeMismatch m.name m.size (base + n))))
        { s.setSlot .nothing with entry.crc32 := some m.crc }) :
    finishEntryData.wp F Q s := by
  have hget := crcStanding_getCrc32 hready.standing
  rw [List.take_of_length_le hend] at hget
  obtain ⟨htotal, hskip⟩ := hready.total hretried hend hk
  -- the CRC check passed: the size check decides
  have hcheck : ∀ crc, crc = some m.crc → (k = 0 → m.crc = H.hash m.data) →
      Async.wp (if s.readState.chunkProcessedSize = s.entry.size then pure true
        else throw (.read (.sizeMismatch s.entry.name s.entry.size
          s.readState.chunkProcessedSize))) F Q { s.setSlot .nothing with entry.crc32 := crc } := by
    intro crc hknown hhash
    rw [hentry.size, hentry.name, hbase, hknown]
    by_cases hlen : base + n = m.size
    · rw [if_pos hlen]
      refine hdone ?_ hlen (hskip hlen)
      simpa [Member.haltsFrom, htotal.mp hlen] using hhash
    · rw [if_neg hlen]
      exact hsize (fun h => hlen (htotal.mpr h))
  unfold finishEntryData
  rw [wp_get_bind, wp_bind, fileReader_wp hslot]
  simp only [andThen]
  cases hseek : reader.didSeek with
  | true =>
    rw [hseek, if_pos rfl] at hget
    obtain ⟨hpos, _, hknown⟩ := hready.sought hseek
    obtain ⟨crc, hcrc⟩ := Option.ne_none_iff_exists'.mp hknown
    rw [hget]
    refine hcheck s.entry.crc32 ?_ (fun h => by omega)
    rw [hcrc, hentry.crc crc hcrc]
  | false =>
    rw [hseek, if_neg (by simp)] at hget
    rw [hget]
    cases hcrc : s.entry.crc32 with
    | none =>
      have hhash := hentry.hash_eq hcrc (by omega)
      rw [hhash]
      exact hcheck (some m.crc) rfl (fun _ => hhash.symm)
    | some crc =>
      have hm := hentry.crc crc hcrc
      subst hm
      have hzero : k = 0 := by
        rcases hready.straight hseek with hz | hnone
        · exact hz
        · rw [hcrc] at hnone; cases hnone
      by_cases hhash : m.crc = H.hash m.data
      · simp only [ne_eq, hhash, not_true_eq_false, if_false]
        rw [← hhash]
        exact hcheck (some m.crc) rfl (fun _ => hhash)
      · simp only [ne_eq, hhash, not_false_eq_true, if_true]
        rw [hentry.name]
        exact hmismatch hzero hhash

/-- Reading the data to the output, with room for at least one byte. -/
theorem outputEntryData_wp {ctx : E.Context} {s : EntryFrame E H} {m : Member} {base k n : Nat}
    {reader : CrcReader E H} {Q : PollResult (IoError E) Bool → EntryFrame E H → Prop}
    (hentry : Represents H mayFail s.entry m) (hslot : s.pinned.slot = .fileReader reader)
    (hbase : s.readState.chunkProcessedSize = base + n) (hretried : Retried s.entry m base)
    (hready : DataReady mayFail s.entry m k n s.readState.toSkip reader)
    (hk : k < m.size) (hroom : 0 < s.output.remaining)
    (hlong : ¬ long → base = 0 ∧ m.data.length < u64Bound)
    (hmore : ∀ bytes output reader', s.output.Extends bytes output → bytes ≠ [] →
      m.data.drop n = bytes ++ m.data.drop (n + bytes.length) → s.readState.toSkip = 0 →
      DataReady mayFail s.entry m k (n + bytes.length) 0 reader' →
      Q (.ok false) { s.setSlot (.fileReader reader') with
        output := output
        readState.chunkProcessedSize := base + (n + bytes.length) })
    (hwait : ∀ r reader', Interrupted mayFail r →
      DataReady mayFail s.entry m k n s.readState.toSkip reader' →
      Q r (s.setSlot (.fileReader reader')))
    (hdone : m.haltsFrom H base k = false → m.data.length ≤ n → base + n = m.size →
      s.readState.toSkip = 0 →
      Q (.ok true) { s.setSlot .nothing with entry.crc32 := some m.crc })
    (hmismatch : ∀ reader', k = 0 → m.crc ≠ H.hash m.data → m.data.length ≤ n →
      DataReady mayFail s.entry m k n s.readState.toSkip reader' →
      Q (.err (.read (.crc32Mismatch m.name m.crc (H.hash m.data))))
        (s.setSlot (.fileReader reader')))
    (hsize : base + max k m.data.length ≠ m.size → m.data.length ≤ n →
      Q (.err (.read (.sizeMismatch m.name m.size (base + n))))
        { s.setSlot .nothing with entry.crc32 := some m.crc }) :
    (outputEntryData ctx).wp (Excused mayFail long starved) Q s := by
  obtain ⟨hentered, hskipped, hbounded, hstand, hstraight, hsought⟩ := hready
  have hread := crcStanding_pollRead hstand ctx s.output
  unfold outputEntryData
  rw [wp_get_bind, wp_bind, onFileReader_wp hslot]
  generalize reader.pollRead s.entry.data ctx s.output = answer at hread ⊢
  rcases answer with ⟨_ | e | output, reader'⟩
  · obtain ⟨hstand', hseek⟩ := hread
    exact hwait .pending reader' .pending
      ⟨hentered, hskipped, hbounded, hstand', hseek ▸ hstraight, hseek ▸ hsought⟩
  · obtain ⟨hfail, hstand', hseek⟩ := hread
    exact hwait _ reader' (.failed e hfail)
      ⟨hentered, hskipped, hbounded, hstand', hseek ▸ hstraight, hseek ▸ hsought⟩
  · obtain ⟨bytes, hext, hbytes, hne, hstand', hseek⟩ := hread
    show Async.wp (Async.modify _ >>= _) _ _ _
    rw [wp_modify_bind]
    by_cases hnil : bytes = []
    · -- nothing more comes
      subst hnil
      have hsame := hext.eq_of_nil
      subst hsame
      have hend : m.data.length ≤ n := by
        by_contra hlt
        exact hne hroom (by omega) rfl
      have hready' : DataReady mayFail s.entry m k n s.readState.toSkip reader' :=
        ⟨hentered, hskipped, hbounded, by simpa using hstand', hseek ▸ hstraight, hseek ▸ hsought⟩
      rw [if_pos rfl]
      refine finishEntryData_wp (s := s.setSlot (.fileReader reader')) hentry rfl hbase hretried
        hready' hend hk ?_ ?_ ?_
      · intro hhalts hp hz
        exact hdone hhalts hend hp hz
      · intro hz hhash
        exact hmismatch reader' hz hhash hend hready'
      · intro htotal
        exact hsize htotal hend
    · -- some bytes were output
      have hlen := hext.remaining
      have hpos : 0 < bytes.length := List.length_pos_iff.mpr hnil
      have hle := congrArg List.length hbytes
      simp only [List.length_take, List.length_drop] at hle
      -- at the end of the data nothing would have come
      have hzero : s.readState.toSkip = 0 := by
        rcases hskipped with hz | ⟨_, hend⟩
        · exact hz
        · omega
      have hwritten : s.output.remaining - output.remaining = bytes.length := by omega
      have hfilled : output.filled.length = s.output.filled.length + bytes.length := by
        rw [hext.filled, List.length_append]
      rw [if_neg (by omega)]
      simp only [hwritten]
      rw [wp_bind, wp_lift]
      refine Exec.wp_subU64 (fun _ => by omega) fun _ => ?_
      show Async.wp (lift (assert _) >>= _) _ _ _
      rw [wp_bind, wp_lift]
      have hdrop : bytes.length =
          (output.filled.drop (output.filled.length - bytes.length)).length := by
        rw [List.length_drop]
        omega
      refine Exec.wp_assert (absurd hdrop) fun _ => ?_
      show Async.wp (lift (addU64 s.readState.chunkProcessedSize _) >>= _) _ _ _
      rw [wp_bind, wp_lift, hbase]
      refine Exec.wp_addU64 (fun hover => ?_) (fun _ => ?_)
      · by_contra hnot
        have := hlong hnot
        omega
      · rw [Nat.add_assoc]
        refine hmore bytes output reader' hext hnil (read_append_drop hbytes) hzero ?_
        refine ⟨by omega, .inl rfl, by omega, hstand', fun h => hstraight (hseek ▸ h), fun h => ?_⟩
        obtain ⟨hpos', _, hknown⟩ := hsought (hseek ▸ h)
        exact ⟨hpos', rfl, hknown⟩

/-- The answers of `read_entry_data`, called in `s` with `n` bytes processed in an attempt that
    entered the data of `m` at its `k`-th byte, with the states they leave. -/
inductive DataOutcome (mayFail : Prop) (m : Member) (base k n : Nat) (s : EntryFrame E H) :
    PollResult (IoError E) Bool → EntryFrame E H → Prop where
  /-- `Pending`, or an error of the source: nothing was output. -/
  | interrupted {r : PollResult (IoError E) Bool} (slot : ReaderPinned E H) {n' toSkip : Nat}
    (hr : Interrupted mayFail r) (hslot : slot ≠ .nothing)
    (h : DataStands mayFail s.entry m k n' toSkip slot)
    (hsum : n' + toSkip = n + s.readState.toSkip) :
    DataOutcome mayFail m base k n s r { s with
      pinned := ⟨slot, s.pinned.logged s.entry.name⟩
      readState.chunkProcessedSize := base + n'
      readState.toSkip := toSkip }
  /-- The next bytes of the data were output. -/
  | more {bytes : List UInt8} {output : ReadBuf} (slot : ReaderPinned E H) {n' : Nat}
    (hext : s.output.Extends bytes output) (hne : bytes ≠ [])
    (hdata : m.data.drop (n + s.readState.toSkip) = bytes ++ m.data.drop n')
    (hslot : slot ≠ .nothing) (h : DataStands mayFail s.entry m k n' 0 slot) :
    DataOutcome mayFail m base k n s (.ok false) { s with
      pinned := ⟨slot, s.pinned.logged s.entry.name⟩
      output := output
      readState.chunkProcessedSize := base + n'
      readState.toSkip := 0 }
  /-- All data was output, the total is the announced size, and the CRC was not seen to be wrong. -/
  | done (hdata : m.data.drop (n + s.readState.toSkip) = [])
    (hhalts : m.haltsFrom H base k = false) :
    DataOutcome mayFail m base k n s (.ok true) { s with
      pinned := ⟨.nothing, s.pinned.logged s.entry.name⟩
      entry.crc32 := some m.crc
      readState.chunkProcessedSize := m.size
      readState.toSkip := 0 }
  /-- All of the data was hashed, and the CRC given for the entry is wrong. -/
  | crcMismatch (slot : ReaderPinned E H) {n' toSkip : Nat} (hk : k = 0)
    (hcrc : m.crc ≠ H.hash m.data) (hslot : slot ≠ .nothing)
    (h : DataStands mayFail s.entry m k n' toSkip slot)
    (hsum : n' + toSkip = n + s.readState.toSkip) :
    DataOutcome mayFail m base k n s
      (.err (.read (.crc32Mismatch m.name m.crc (H.hash m.data)))) { s with
        pinned := ⟨slot, s.pinned.logged s.entry.name⟩
        readState.chunkProcessedSize := base + n'
        readState.toSkip := toSkip }
  /-- All data was output, and the total is not the announced size. -/
  | sizeMismatch {n' toSkip : Nat}
    (hdata : m.data.drop (n + s.readState.toSkip) = [])
    (htotal : base + max k m.data.length ≠ m.size) (hskip : toSkip < m.size)
    (hsum : n' + toSkip = n + s.readState.toSkip) :
    DataOutcome mayFail m base k n s
      (.err (.read (.sizeMismatch m.name m.size (base + n')))) { s with
        pinned := ⟨.nothing, s.pinned.logged s.entry.name⟩
        entry.crc32 := some m.crc
        readState.chunkProcessedSize := base + n'
        readState.toSkip := toSkip }

/-- **Reading entry data**, with room for at least one byte. -/
theorem readEntryData_wp {ctx : E.Context} {fuel : Nat} {s : EntryFrame E H} {m : Member}
    {base k n : Nat} (hentry : Represents H mayFail s.entry m)
    (hbase : s.readState.chunkProcessedSize = base + n) (hretried : Retried s.entry m base)
    (hstand : DataStands mayFail s.entry m k n s.readState.toSkip s.pinned.slot)
    (hk : k < m.size) (hsize : m.size < u64Bound) (hroom : 0 < s.output.remaining)
    (hfuel : ¬ starved → m.data.length < fuel)
    (hlong : ¬ long → base = 0 ∧ m.data.length < u64Bound) :
    (readEntryData ctx fuel).wp (Excused mayFail long starved) (DataOutcome mayFail m base k n s)
      s := by
  unfold readEntryData
  rw [wp_bind]
  refine hstand.getReader_wp ?_ ?_
  · intro reader hstand'
    show Async.wp (skipEntryData ctx fuel >>= _) _ _ _
    rw [wp_bind]
    refine skipEntryData_wp (n := n) rfl hbase hretried hstand' (by omega) hfuel
      (fun h => (hlong h).1) ?_ ?_
    · intro reader' n' toSkip hready hsum
      -- skipping keeps the position of the next byte
      have hnil : m.data.length ≤ n' → m.data.drop (n + s.readState.toSkip) = [] := by
        intro hend
        apply List.drop_eq_nil_of_le
        have : n' + toSkip = n + s.readState.toSkip := hsum
        omega
      show Async.wp (outputEntryData ctx) _ _ _
      refine outputEntryData_wp (m := m) (k := k) hentry rfl rfl hretried hready hk hroom hlong
        ?_ ?_ ?_ ?_ ?_
      · intro bytes output reader'' hext hne hdata hzero hready'
        have hz : toSkip = 0 := hzero
        subst hz
        refine DataOutcome.more (s := s) (.fileReader reader'') hext hne ?_ (by simp) hready'.stands
        have hn : n' + 0 = n + s.readState.toSkip := hsum
        rw [← hn]
        exact hdata
      · intro r reader'' hr hready'
        exact DataOutcome.interrupted (s := s) (.fileReader reader'') hr (by simp) hready'.stands
          hsum
      · intro hhalts hend hp hz
        have hz' : toSkip = 0 := hz
        subst hz'
        have hdone : DataOutcome mayFail m base k n s _ _ :=
          .done (hnil hend) hhalts
        rw [← hp] at hdone
        exact hdone
      · intro reader'' hz hcrc _ hready'
        exact DataOutcome.crcMismatch (s := s) (.fileReader reader'') hz hcrc (by simp)
          hready'.stands hsum
      · intro htotal hend
        have hskip : toSkip < m.size := by
          rcases hready.skipped with hz | ⟨hsum', _⟩ <;> omega
        exact DataOutcome.sizeMismatch (s := s) (hnil hend) htotal hskip hsum
    · intro r slot n' toSkip hr hstand'' hne hsum
      have houtcome : ∀ r, Interrupted mayFail r → DataOutcome mayFail m base k n s r { s with
          pinned := ⟨slot, s.pinned.logged s.entry.name⟩
          readState.chunkProcessedSize := base + n'
          readState.toSkip := toSkip } := fun r hr =>
        .interrupted slot hr hne hstand'' hsum
      cases hr with
      | pending => exact houtcome .pending .pending
      | failed e h => exact houtcome _ (.failed e h)
  · intro r slot hr hstand' hne
    have houtcome : ∀ r, Interrupted mayFail r → DataOutcome mayFail m base k n s r
        { s with pinned := ⟨slot, s.pinned.logged s.entry.name⟩ } := by
      intro r hr
      have hsame : DataOutcome mayFail m base k n s r _ := .interrupted slot hr hne hstand' rfl
      rw [← hbase] at hsame
      exact hsame
    cases hr with
    | pending => exact houtcome .pending .pending
    | failed e h => exact houtcome _ (.failed e h)

end Spec

end Zippity
