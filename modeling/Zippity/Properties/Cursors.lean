import Mathlib.Algebra.Group.Int.Defs
import Zippity.EntryData
import Zippity.Framework.System

/-! # Byte slices as cursors

    `AsRefReader` against what it is for: a position in `0..2^64`.  Reads take
    from the position on, seeks go to an exact integer target or nowhere, and
    the two systems have the same runs.
-/

namespace Zippity

open Framework

/-! ### Calls and their answers -/

/-- `std::io::SeekFrom` with the integers of its arguments. -/
inductive SeekArg where
  | start (offset : UInt64)
  | «end» (offset : Int64)
  | current (offset : Int64)
  deriving DecidableEq, Repr

/-- The argument as the readers of the model take it. -/
def SeekArg.seekFrom : SeekArg → SeekFrom
  | .start offset => .start offset.toNat
  | .end offset => .end offset.toInt
  | .current offset => .current offset.toInt

/-- A call of a poll function on the reader, with its answer; a buffer is answered as the call
    leaves it. -/
inductive ReaderCall where
  | pollRead (buf : ReadBuf) (answer : PollResult SeekError ReadBuf)
  | startSeek (pos : SeekArg) (answer : Except SeekError Unit)
  | pollSeekComplete (answer : PollResult SeekError Nat)

/-- The reader of a byte slice. -/
def asRefSystem (slice : Slice) : System AsRefReader ReaderCall where
  init reader := reader = ⟨0⟩
  step reader call reader' :=
    match call with
    | .pollRead buf answer => asRef.pollReadInto reader slice () buf = (answer, reader')
    | .startSeek pos answer => asRef.startSeek reader slice pos.seekFrom = (answer, reader')
    | .pollSeekComplete answer => asRef.pollSeekComplete reader slice () = (answer, reader')

/-! ### The cursor -/

/-- The exact target of a seek. -/
def SeekArg.target (size position : Nat) : SeekArg → Int
  | .start offset => offset.toNat
  | .end offset => size + offset.toInt
  | .current offset => position + offset.toInt

/-- A cursor over data. -/
def cursorSystem (data : List UInt8) : System (Fin (2 ^ 64)) ReaderCall where
  init position := position = 0
  step position call position' :=
    match call with
    | .pollRead buf answer =>
      ∃ buf', answer = .ok buf' ∧
        buf.Extends ((data.drop position).take buf.remaining) buf' ∧
        position'.1 = position + ((data.drop position).take buf.remaining).length
    | .startSeek pos answer =>
      let target := pos.target data.length position
      if 0 ≤ target ∧ target < 2 ^ 64 then answer = .ok () ∧ (position'.1 : Int) = target
      else answer = .error .invalidInput ∧ position' = position
    | .pollSeekComplete answer => answer = .ok position.1 ∧ position' = position

/-! ### One step -/

namespace AsRefReader

variable {slice : Slice} {reader reader' : AsRefReader}

/-- The bytes that a read appends. -/
theorem readable_eq (reader : AsRefReader) (bytes : List UInt8) (room : Nat) :
    (reader.readable bytes room).1 = (bytes.drop reader.position).take room := by
  unfold readable
  split
  · show (bytes.drop reader.position).take (min (bytes.drop reader.position).length room) = _
    rw [Nat.min_comm, ← List.take_take, List.take_length]
  -- behind the end nothing is left
  · next hpast => rw [List.drop_eq_nil_of_le (by omega), List.take_nil]

theorem pollRead_iff {buf : ReadBuf} {answer : PollResult SeekError ReadBuf} :
    asRef.pollReadInto reader slice () buf = (answer, reader') ↔
      ∃ buf', answer = .ok buf' ∧
        buf.Extends ((slice.1.drop reader.position).take buf.remaining) buf' ∧
        reader'.position =
          reader.position + ((slice.1.drop reader.position).take buf.remaining).length := by
  have hread := reader.readable_eq slice.1 buf.remaining
  have hextends := ReadBuf.Extends.append (reader.readable slice.1 buf.remaining).2
  rw [← hread]
  constructor
  · intro h
    cases h
    exact ⟨_, rfl, hextends, rfl⟩
  · intro ⟨buf', hanswer, hbuf, hposition⟩
    -- what a buffer is extended by determines it
    rw [hanswer, hbuf.unique hextends]
    obtain ⟨position⟩ := reader'
    cases hposition
    rfl

/-- The target of a seek is the exact one if it fits. -/
theorem target_eq (reader : AsRefReader) (size : Nat) (pos : SeekArg) :
    reader.target size pos.seekFrom =
      if 0 ≤ pos.target size reader.position ∧ pos.target size reader.position < 2 ^ 64 then
        some (pos.target size reader.position).toNat
      else none := by
  cases pos with
  | start offset =>
    -- a target from the start always fits
    have hlt := offset.toNat_lt
    rw [SeekArg.target, if_pos (by omega)]
    rfl
  | «end» offset => rfl
  | current offset => rfl

theorem startSeek_iff {pos : SeekArg} {answer : Except SeekError Unit} :
    asRef.startSeek reader slice pos.seekFrom = (answer, reader') ↔
      if 0 ≤ pos.target slice.1.length reader.position ∧
          pos.target slice.1.length reader.position < 2 ^ 64 then
        answer = .ok () ∧ (reader'.position : Int) = pos.target slice.1.length reader.position
      else answer = .error .invalidInput ∧ reader' = reader := by
  have htarget := reader.target_eq slice.1.length pos
  obtain ⟨position⟩ := reader'
  unfold asRef
  dsimp only
  rw [htarget]
  by_cases hfits : 0 ≤ pos.target slice.1.length reader.position ∧
      pos.target slice.1.length reader.position < 2 ^ 64
  · rw [if_pos hfits, if_pos hfits, Prod.mk.injEq, AsRefReader.mk.injEq, eq_comm]
    refine and_congr_right fun _ => ?_
    omega
  · rw [if_neg hfits, if_neg hfits, Prod.mk.injEq, eq_comm, @eq_comm _ reader]

end AsRefReader

/-! ### Refinement -/

section Refinement
variable {slice : Slice} {reader reader' : AsRefReader} {call : ReaderCall}

/-- A position stays below `2^64`. -/
theorem asRef_position_lt (h : (asRefSystem slice).step reader call reader')
    (hlt : reader.position < 2 ^ 64) : reader'.position < 2 ^ 64 := by
  cases call with
  | pollRead buf answer =>
    obtain ⟨_, _, _, hposition⟩ := AsRefReader.pollRead_iff.mp h
    -- a read ends in the slice, or where it began
    have hlen := slice.2
    rw [hposition, List.length_take, List.length_drop]
    omega
  | startSeek pos answer =>
    have hseek := AsRefReader.startSeek_iff.mp h
    split at hseek
    · omega
    · rwa [hseek.2]
  | pollSeekComplete answer =>
    cases h
    exact hlt

/-- A step of the reader is one of the cursor at the same position, and conversely. -/
theorem asRef_step_iff {position position' : Fin (2 ^ 64)} :
    (asRefSystem slice).step ⟨position⟩ call ⟨position'⟩ ↔
      (cursorSystem slice.1).step position call position' := by
  cases call with
  | pollRead buf answer => exact AsRefReader.pollRead_iff
  | startSeek pos answer =>
    have hsame : (⟨position'⟩ : AsRefReader) = ⟨position⟩ ↔ position' = position := by
      rw [AsRefReader.mk.injEq, Fin.val_inj]
    refine AsRefReader.startSeek_iff.trans ?_
    rw [hsame]
    rfl
  | pollSeekComplete answer =>
    show (_, _) = (answer, _) ↔ answer = _ ∧ position' = position
    rw [Prod.mk.injEq, AsRefReader.mk.injEq, Fin.val_inj, eq_comm, @eq_comm _ position]

/-- A seek that is answered with an error is answered with `InvalidInput` and changes nothing. -/
theorem asRef_startSeek_error {pos : SeekArg} {e : SeekError}
    (h : (asRefSystem slice).step reader (.startSeek pos (.error e)) reader') :
    reader' = reader := by
  have hseek := AsRefReader.startSeek_iff.mp h
  split at hseek
  · cases hseek.1
  · exact hseek.2

/-- **The reader of a byte slice is a cursor**: from every position its runs, with all answers,
    are those of the cursor, and a seek that fails may be left out of a run. -/
theorem asRef_refines_cursor (slice : Slice) (position : Fin (2 ^ 64)) (calls : List ReaderCall)
    (reader : AsRefReader) :
    ((asRefSystem slice).Run ⟨position⟩ calls reader ↔
      ∃ position' : Fin (2 ^ 64), reader = ⟨position'⟩ ∧
        (cursorSystem slice.1).Run position calls position') ∧
    ∀ before pos e after, calls = before ++ .startSeek pos (.error e) :: after →
      (asRefSystem slice).Run ⟨position⟩ calls reader →
      e = .invalidInput ∧ (asRefSystem slice).Run ⟨position⟩ (before ++ after) reader := by
  refine ⟨⟨?_, ?_⟩, ?_⟩
  · intro hrun
    have hcursor : ∃ position', (cursorSystem slice.1).Run position calls position' ∧
        reader = ⟨position'⟩ := by
      refine hrun.simulate (fun reader (position : Fin (2 ^ 64)) => reader = ⟨position⟩) rfl ?_
      intro _ position call reader' hat hstep
      subst hat
      -- the reader leaves no position that the cursor lacks
      have hlt : reader'.position < 2 ^ 64 := asRef_position_lt hstep position.2
      exact ⟨⟨reader'.position, hlt⟩, asRef_step_iff.mp hstep, rfl⟩
    obtain ⟨position', hrun', hat⟩ := hcursor
    exact ⟨position', hat, hrun'⟩
  · intro ⟨position', hat, hrun⟩
    have hreader : ∃ reader', (asRefSystem slice).Run ⟨position⟩ calls reader' ∧
        reader' = ⟨position'⟩ := by
      refine hrun.simulate (fun (position : Fin (2 ^ 64)) (reader : AsRefReader) =>
        reader = ⟨position⟩) rfl ?_
      intro position _ call position' hat hstep
      subst hat
      exact ⟨⟨position'⟩, asRef_step_iff.mpr hstep, rfl⟩
    obtain ⟨_, hrun', rfl⟩ := hreader
    rwa [hat]
  · intro before pos e after hcalls hrun
    subst hcalls
    cases e
    exact ⟨rfl, hrun.skip fun _ _ => asRef_startSeek_error⟩

end Refinement

/-- A read into a partly filled buffer after a seek in front of the data. -/
theorem asRef_refines_cursor_partly_filled :
    ∃ buf buf' : ReadBuf, buf.filled = [9] ∧ buf'.filled = [9, 2, 3] ∧
      (asRefSystem ⟨[1, 2, 3], by decide⟩).Run ⟨(1 : Fin (2 ^ 64))⟩
        [.startSeek (.current (-5)) (.error .invalidInput), .pollRead buf (.ok buf')] ⟨3⟩ ∧
      (asRefSystem ⟨[1, 2, 3], by decide⟩).Run ⟨(1 : Fin (2 ^ 64))⟩ [.pollRead buf (.ok buf')]
        ⟨3⟩ := by
  let slice : Slice := ⟨[1, 2, 3], by decide⟩
  let buf : ReadBuf := ⟨[9], 4, by decide, by decide⟩
  let buf' : ReadBuf := ⟨[9, 2, 3], 4, by decide, by decide⟩
  have hseek : (asRefSystem slice).step ⟨(1 : Fin (2 ^ 64))⟩
      (.startSeek (.current (-5)) (.error .invalidInput)) ⟨(1 : Fin (2 ^ 64))⟩ := rfl
  have hread : (asRefSystem slice).step ⟨(1 : Fin (2 ^ 64))⟩ (.pollRead buf (.ok buf')) ⟨3⟩ := rfl
  have hrun := System.Run.snoc (System.Run.snoc .nil hseek) hread
  exact ⟨buf, buf', rfl, rfl, hrun, ((asRef_refines_cursor slice 1 _ _).2 [] _ _ _ rfl hrun).2⟩

end Zippity
