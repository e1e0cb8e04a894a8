import Zippity.EntryData

/-! # CRC readers

    `crc_reader.rs`: a reader that hashes what passes through it and folds the
    two phases of a seek into one call.  The hasher is `crc32fast`, of which the
    code relies on one law: hashing consecutive pieces hashes their
    concatenation.
-/

namespace Zippity

open Framework

/-! ### The hasher -/

/-- `crc32fast::Hasher`. -/
structure Crc32Fast where
  State : Type
  new : State
  update : State → List UInt8 → State
  finalize : State → UInt32
  /-- Updating with consecutive pieces hashes their concatenation. -/
  update_pieces : ∀ pieces : List (List UInt8),
    finalize (pieces.foldl update new) = finalize (update new pieces.flatten)

namespace Crc32Fast

variable {H : Crc32Fast}

/-- `crc32fast::hash`. -/
def hash (H : Crc32Fast) (bytes : List UInt8) : UInt32 := H.finalize (H.update H.new bytes)

/-- The hasher state was fed `bytes`, in whatever pieces. -/
def Fed (H : Crc32Fast) (state : H.State) (bytes : List UInt8) : Prop :=
  ∃ pieces : List (List UInt8), state = pieces.foldl H.update H.new ∧ pieces.flatten = bytes

theorem fed_new : H.Fed H.new [] := ⟨[], rfl, rfl⟩

theorem Fed.update {state : H.State} {bytes : List UInt8} (h : H.Fed state bytes)
    (piece : List UInt8) : H.Fed (H.update state piece) (bytes ++ piece) := by
  obtain ⟨pieces, rfl, rfl⟩ := h
  exact ⟨pieces ++ [piece], by simp, by simp⟩

theorem Fed.finalize {state : H.State} {bytes : List UInt8} (h : H.Fed state bytes) :
    H.finalize state = H.hash bytes := by
  obtain ⟨pieces, rfl, rfl⟩ := h
  exact H.update_pieces pieces

end Crc32Fast

/-- One bit of the reflected CRC-32 with polynomial `0xEDB88320`. -/
def crc32Bit (crc : UInt32) : UInt32 :=
  if crc &&& 1 = 1 then (crc >>> 1) ^^^ 0xEDB88320 else crc >>> 1

/-- One byte of the CRC-32. -/
def crc32Byte (crc : UInt32) (byte : UInt8) : UInt32 :=
  Nat.repeat crc32Bit 8 (crc ^^^ byte.toUInt32)

/-- The CRC-32 that `crc32fast` computes, one bit at a time. -/
def crc32Ieee : Crc32Fast where
  State := UInt32
  new := 0xFFFFFFFF
  update := List.foldl crc32Byte
  finalize crc := crc ^^^ 0xFFFFFFFF
  update_pieces pieces := by rw [List.foldl_flatten]

/-- The known value of the source's test `known_crc`. -/
example : crc32Ieee.hash [0x31, 0x32, 0x33, 0x34] = 0x9be3e0a3 := by decide +kernel

/-! ### The reader -/

section Model
variable {E : EntryData} {H : Crc32Fast}

structure CrcReader (E : EntryData) (H : Crc32Fast) where
  innerReader : E.Reader
  hasher : H.State
  didSeek : Bool
  seekInProgress : Bool

namespace CrcReader

/-- `CrcReader::new`. -/
def new (innerReader : E.Reader) : CrcReader E H :=
  { innerReader, hasher := H.new, didSeek := false, seekInProgress := false }

/-- `CrcReader::get_crc32`: the CRC of what was read, unless a seek was started. -/
def getCrc32 (self : CrcReader E H) : Option UInt32 :=
  if self.didSeek then none else some (H.finalize self.hasher)

/-- `CrcReader::poll_read`. -/
def pollRead (self : CrcReader E H) (data : E.Data) (ctx : E.Context) (buf : ReadBuf) :
    PollResult E.Error ReadBuf × CrcReader E H :=
  let filledLenBefore := buf.filled.length
  match E.pollReadInto self.innerReader data ctx buf with
  | (.pending, inner) => (.pending, { self with innerReader := inner })
  | (.err e, inner) => (.err e, { self with innerReader := inner })
  | (.ok buf', inner) =>
    -- only what this call appended is hashed
    (.ok buf', { self with
      innerReader := inner
      hasher := H.update self.hasher (buf'.filled.drop filledLenBefore) })

/-- `CrcReader::start_seek`. -/
def startSeek (self : CrcReader E H) (data : E.Data) (pos : SeekFrom) :
    Except E.Error Unit × CrcReader E H :=
  let (result, inner) := E.startSeek self.innerReader data pos
  -- the flags are set even if the seek fails to start
  (result, { self with innerReader := inner, didSeek := true, seekInProgress := true })

/-- `CrcReader::poll_seek_complete`. -/
def pollSeekComplete (self : CrcReader E H) (data : E.Data) (ctx : E.Context) :
    PollResult E.Error Nat × CrcReader E H :=
  match E.pollSeekComplete self.innerReader data ctx with
  | (.pending, inner) => (.pending, { self with innerReader := inner })
  | (.err e, inner) => (.err e, { self with innerReader := inner })
  | (.ok pos, inner) => (.ok pos, { self with innerReader := inner, seekInProgress := false })

/-- `CrcReader::seek`: start the seek unless one is in progress, then poll for its end. -/
def seek (self : CrcReader E H) (data : E.Data) (ctx : E.Context) (position : SeekFrom) :
    PollResult E.Error Nat × CrcReader E H :=
  -- the position asked for now is not looked at
  if self.seekInProgress then self.pollSeekComplete data ctx
  else
    match self.startSeek data position with
    | (.error e, self') => (.err e, self')
    | (.ok (), self') => self'.pollSeekComplete data ctx

/-- A read appends to the buffer, whatever the source does. -/
theorem pollRead_extends {reader : CrcReader E H} {data : E.Data} {ctx : E.Context}
    {buf buf' : ReadBuf} (h : (reader.pollRead data ctx buf).1 = .ok buf') :
    ∃ bytes, buf.Extends bytes buf' := by
  unfold pollRead EntryData.pollReadInto at h
  rcases heq : E.pollRead reader.innerReader data ctx buf with ⟨_ | e | bytes, inner⟩
  · simp [heq] at h
  · simp [heq] at h
  · simp only [heq, PollResult.ok.injEq] at h
    subst h
    exact ⟨bytes.1, .append bytes.2⟩

end CrcReader

end Model

/-! ### What a CRC reader over given bytes does -/

section Contract
variable {E : EntryData} {H : Crc32Fast} {mayFail : Prop} {d : E.Data} {data : List UInt8}

/-- The reader is at position `n` of `data` with no seek in progress; if it never sought, it has
    hashed the bytes before. -/
structure CrcStanding (mayFail : Prop) (d : E.Data) (data : List UInt8) (reader : CrcReader E H)
    (n : Nat) : Prop where
  inner : Standing E mayFail d data reader.innerReader n
  idle : reader.seekInProgress = false
  hashed : reader.didSeek = false → H.Fed reader.hasher (data.take n)

/-- The reader has a seek to position `p` of `data` in progress. -/
structure CrcSeeking (mayFail : Prop) (d : E.Data) (data : List UInt8) (reader : CrcReader E H)
    (p : Nat) : Prop where
  inner : Seeking E mayFail d data reader.innerReader p
  busy : reader.seekInProgress = true
  sought : reader.didSeek = true

/-- The reader has a seek over `data` in progress that failed. -/
structure CrcStalled (mayFail : Prop) (d : E.Data) (data : List UInt8) (reader : CrcReader E H) :
    Prop where
  inner : Stalled E mayFail d data reader.innerReader
  busy : reader.seekInProgress = true
  sought : reader.didSeek = true

/-- The reader has a seek to position `p` of `data` in progress, which may have failed. -/
def CrcBusy (mayFail : Prop) (d : E.Data) (data : List UInt8) (reader : CrcReader E H) (p : Nat) :
    Prop :=
  CrcSeeking mayFail d data reader p ∨ (mayFail ∧ CrcStalled mayFail d data reader)

theorem crcStanding_new {inner : E.Reader} (h : Standing E mayFail d data inner 0) :
    CrcStanding mayFail d data (CrcReader.new inner : CrcReader E H) 0 :=
  ⟨h, rfl, fun _ => by simpa [CrcReader.new] using Crc32Fast.fed_new⟩

/-- The bytes before a position, and those read from it, are the bytes before the new position. -/
theorem take_append_read {data bytes : List UInt8} {n : Nat}
    (h : bytes = (data.drop n).take bytes.length) :
    data.take n ++ bytes = data.take (n + bytes.length) := by
  rw [List.take_add, ← h]

/-- The bytes from a position on are those read from it and those from the new position on. -/
theorem read_append_drop {data bytes : List UInt8} {n : Nat}
    (h : bytes = (data.drop n).take bytes.length) :
    data.drop n = bytes ++ data.drop (n + bytes.length) := by
  calc data.drop n
      = (data.drop n).take bytes.length ++ (data.drop n).drop bytes.length :=
        (List.take_append_drop _ _).symm
    _ = bytes ++ data.drop (n + bytes.length) := by rw [← h, List.drop_drop]

/-- A read appends the next bytes of `data` and moves behind them. -/
theorem crcStanding_pollRead {reader : CrcReader E H} {n : Nat}
    (h : CrcStanding mayFail d data reader n) (ctx : E.Context) (buf : ReadBuf) :
    match reader.pollRead d ctx buf with
    | (.pending, reader') =>
      CrcStanding mayFail d data reader' n ∧ reader'.didSeek = reader.didSeek
    | (.err _, reader') =>
      mayFail ∧ CrcStanding mayFail d data reader' n ∧ reader'.didSeek = reader.didSeek
    | (.ok buf', reader') => ∃ bytes,
      buf.Extends bytes buf' ∧ bytes = (data.drop n).take bytes.length ∧
        (0 < buf.remaining → n < data.length → bytes ≠ []) ∧
        CrcStanding mayFail d data reader' (n + bytes.length) ∧
        reader'.didSeek = reader.didSeek := by
  have hread := standing_pollRead h.inner ctx buf
  unfold CrcReader.pollRead EntryData.pollReadInto
  split at hread
  · exact ⟨⟨hread, h.idle, h.hashed⟩, rfl⟩
  · exact ⟨hread.1, ⟨hread.2, h.idle, h.hashed⟩, rfl⟩
  · next bytes inner _ =>
    obtain ⟨hbytes, hne, hstand⟩ := hread
    refine ⟨bytes.1, .append bytes.2, hbytes, hne, ⟨hstand, h.idle, fun hseek => ?_⟩, rfl⟩
    have hfed := (h.hashed hseek).update bytes.1
    rw [take_append_read hbytes] at hfed
    simpa using hfed

/-- What a seek to `p` answers: it is in progress or complete, or it fails. -/
def CrcSought (mayFail : Prop) (d : E.Data) (data : List UInt8) (p : Nat) :
    PollResult E.Error Nat × CrcReader E H → Prop
  | (.pending, reader') => CrcBusy mayFail d data reader' p
  | (.err _, reader') => mayFail ∧ CrcBusy mayFail d data reader' p
  | (.ok q, reader') =>
    (q ≠ p → mayFail) ∧ CrcStanding mayFail d data reader' q ∧ reader'.didSeek = true

/-- The second phase of a seek. -/
theorem crcBusy_pollSeekComplete {reader : CrcReader E H} {p : Nat}
    (h : CrcBusy mayFail d data reader p) (ctx : E.Context) :
    CrcSought mayFail d data p (reader.pollSeekComplete d ctx) := by
  unfold CrcReader.pollSeekComplete
  rcases h with h | ⟨hfail, h⟩
  · have hpoll := seeking_pollSeekComplete h.inner ctx
    generalize E.pollSeekComplete reader.innerReader d ctx = answer at hpoll ⊢
    rcases answer with ⟨_ | e | q, inner'⟩
    · exact .inl ⟨hpoll, h.busy, h.sought⟩
    · refine ⟨hpoll.1, ?_⟩
      rcases hpoll.2 with hseeking | hstalled
      · exact .inl ⟨hseeking, h.busy, h.sought⟩
      · exact .inr ⟨hpoll.1, hstalled, h.busy, h.sought⟩
    · obtain ⟨rfl, hstand⟩ := hpoll
      exact ⟨fun hne => absurd rfl hne, ⟨hstand, rfl, fun hseek => by simp [h.sought] at hseek⟩,
        h.sought⟩
  · -- a seek that failed may answer any position
    have hpoll := stalled_pollSeekComplete h.inner ctx
    generalize E.pollSeekComplete reader.innerReader d ctx = answer at hpoll ⊢
    rcases answer with ⟨_ | e | q, inner'⟩
    · exact .inr ⟨hfail, hpoll, h.busy, h.sought⟩
    · exact ⟨hfail, .inr ⟨hfail, hpoll.2, h.busy, h.sought⟩⟩
    · exact ⟨fun _ => hfail, ⟨hpoll, rfl, fun hseek => by simp [h.sought] at hseek⟩, h.sought⟩

/-- A seek from a standing reader starts, or fails. -/
theorem crcStanding_seek {reader : CrcReader E H} {n : Nat}
    (h : CrcStanding mayFail d data reader n) (ctx : E.Context) (p : Nat) :
    CrcSought mayFail d data p (reader.seek d ctx (.start p)) := by
  have hstart := standing_startSeek h.inner p
  unfold CrcReader.seek
  rw [if_neg (by simp [h.idle])]
  unfold CrcReader.startSeek
  rcases heq : E.startSeek reader.innerReader d (.start p) with ⟨e | _, inner⟩
  · rw [heq] at hstart
    exact ⟨hstart.1, .inr ⟨hstart.1, hstart.2, rfl, rfl⟩⟩
  · rw [heq] at hstart
    have hseeking : CrcSeeking mayFail d data
        (⟨inner, reader.hasher, true, true⟩ : CrcReader E H) p := ⟨hstart, rfl, rfl⟩
    exact crcBusy_pollSeekComplete (.inl hseeking) ctx

/-- A seek in progress is polled, whatever position it is asked for again. -/
theorem crcBusy_seek {reader : CrcReader E H} {p : Nat}
    (h : CrcBusy mayFail d data reader p) (ctx : E.Context) (pos : SeekFrom) :
    CrcSought mayFail d data p (reader.seek d ctx pos) := by
  have hbusy : reader.seekInProgress = true := by
    rcases h with h | ⟨_, h⟩
    · exact h.busy
    · exact h.busy
  unfold CrcReader.seek
  rw [if_pos hbusy]
  exact crcBusy_pollSeekComplete h ctx

/-- The CRC of a reader that never sought is that of the bytes before its position. -/
theorem crcStanding_getCrc32 {reader : CrcReader E H} {n : Nat}
    (h : CrcStanding mayFail d data reader n) :
    reader.getCrc32 = if reader.didSeek then none else some (H.hash (data.take n)) := by
  unfold CrcReader.getCrc32
  cases hseek : reader.didSeek with
  | true => rfl
  | false => simp [(h.hashed hseek).finalize]

end Contract

end Zippity
