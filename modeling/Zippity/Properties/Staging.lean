import Zippity.Reader.HeaderSpec

/-! # Pieces of a header

    A piece is skipped, written to the output or staged, depending on the pieces
    before it.  However the pieces fall, what is appended and what is staged are
    the bytes behind the skipped ones, and the staging buffer drains in order.
-/

namespace Zippity

open Framework Exec

/-! ### Pieces -/

/-- An argument of `read_packed_struct` or `read_str`. -/
inductive Piece : Type 1 where
  | packedStruct {P : Type} [PackedStruct P] (ps : P)
  | str (s : Name)

namespace Piece

/-- The bytes of a piece. -/
def bytes : Piece → List UInt8
  | @packedStruct _ _ ps => pack ps
  | .str s => s

/-- The call of `read_packed_struct` or `read_str`. -/
def read (rs : ReadState) (output : ReadBuf) : Piece → Exec (ReadState × ReadBuf)
  | @packedStruct _ _ ps => rs.readPackedStruct ps output
  | .str s => rs.readStr s output

end Piece

/-- The calls on all pieces in order. -/
def readPieces (rs : ReadState) (output : ReadBuf) : List Piece → Exec (ReadState × ReadBuf)
  | [] => .ok (rs, output)
  | piece :: pieces => do
    let (rs, output) ← piece.read rs output
    readPieces rs output pieces

theorem readPieces_eq (rs : ReadState) (output : ReadBuf) (pieces : List Piece) :
    readPieces rs output pieces = writePieces rs output (pieces.map Piece.bytes) := by
  induction pieces generalizing rs output with
  | nil => rfl
  | cons piece pieces ih =>
    have hread : piece.read rs output = rs.readPiece piece.bytes output := by
      cases piece <;> rfl
    simp only [readPieces, hread, List.map_cons, writePieces, ih]

/-! ### Draining -/

/-- `read_from_staging` on one buffer after another until the staging buffer is empty, at most
    `fuel` times: the state and the buffers it leaves. -/
def drainStaging (bufs : Nat → ReadBuf) (rs : ReadState) : (fuel : Nat) →
    Exec (ReadState × List ReadBuf)
  | 0 => if rs.stagingBuffer.isEmpty then .ok (rs, []) else .error .outOfFuel
  | fuel + 1 =>
    if rs.stagingBuffer.isEmpty then .ok (rs, [])
    else do
      let (rs, output) ← rs.readFromStaging (bufs 0)
      let (rs, outputs) ← drainStaging (fun i => bufs (i + 1)) rs fuel
      .ok (rs, output :: outputs)

/-- The buffers as they are left hold bytes in this order, some in each. -/
def Delivered : (bufs : Nat → ReadBuf) → (outputs : List ReadBuf) → List UInt8 → Prop
  | _, [], bytes => bytes = []
  | bufs, output :: outputs, bytes => ∃ first rest, bytes = first ++ rest ∧ first ≠ [] ∧
      (bufs 0).Extends first output ∧ Delivered (fun i => bufs (i + 1)) outputs rest

/-- **The staging buffer drains**, in order and in as many calls as there are bytes at most. -/
theorem drainStaging_eq {rs : ReadState} {bufs : Nat → ReadBuf}
    (hroom : ∀ i, 0 < (bufs i).remaining) (hbound : rs.stagingBuffer.length < 2 ^ 63)
    (hstaged : rs.stagingBuffer ≠ [] → rs.toSkip < rs.stagingBuffer.length)
    (hunstaged : rs.stagingBuffer = [] → rs.toSkip = 0) :
    ∃ rs' outputs, (∀ fuel, (rs.stagingBuffer.drop rs.toSkip).length ≤ fuel →
        drainStaging bufs rs fuel = .ok (rs', outputs)) ∧
      Delivered bufs outputs (rs.stagingBuffer.drop rs.toSkip) ∧
      rs'.stagingBuffer = [] ∧ rs'.toSkip = 0 := by
  -- by induction on the bytes that are left
  generalize hn : (rs.stagingBuffer.drop rs.toSkip).length = n
  induction n using Nat.strong_induction_on generalizing rs bufs with
  | _ n ih =>
    by_cases hempty : rs.stagingBuffer = []
    · refine ⟨rs, [], ?_, ?_, hempty, hunstaged hempty⟩
      · intro fuel _
        cases fuel <;> simp [drainStaging, hempty]
      · simp [Delivered, hempty]
    · have hskip := hstaged hempty
      obtain ⟨⟨rs₁, output⟩, heq, first, hun⟩ :=
        exists_of_wp (readFromStaging_wp hskip (hroom 0) hbound)
      have hlen := congrArg List.length hun.bytes
      have hpos := List.length_pos_iff.mpr hun.nonempty
      rw [List.length_append, hn] at hlen
      have hbound₁ : rs₁.stagingBuffer.length < 2 ^ 63 := by
        by_cases hempty₁ : rs₁.stagingBuffer = []
        · simp [hempty₁]
        · rwa [(hun.staged hempty₁).1]
      obtain ⟨rs', outputs, hdrain, hdelivered, hdone⟩ :=
        ih _ (by omega) (fun i => hroom (i + 1)) hbound₁ (fun h => (hun.staged h).2) hun.unstaged rfl
      refine ⟨rs', output :: outputs, ?_, ?_, hdone⟩
      · intro fuel hfuel
        cases fuel with
        | zero => omega
        | succ fuel =>
          rw [drainStaging, if_neg (by simpa using hempty), heq, ok_bind]
          dsimp only
          rw [hdrain fuel (by omega), ok_bind]
      · exact ⟨first, _, hun.bytes, hun.nonempty, hun.output, hdelivered⟩

/-! ### The direct path and the staging path -/

/-- **The two paths agree.**  With `k` bytes to skip, of pieces that have more, the calls on the
    pieces count them all, keep the output and append and stage what is behind the first `k`; the
    rest drains in order, whatever room each call has, and nothing is to be skipped afterwards.
    They stop only where the count exceeds `u64`.  A staging buffer is an allocation, so it has at
    most `isize::MAX` bytes. -/
theorem pieces_delivered (rs : ReadState) (output : ReadBuf) (pieces : List Piece)
    (hempty : rs.stagingBuffer = [])
    (hskip : rs.toSkip < (pieces.flatMap Piece.bytes).length) :
    (readPieces rs output pieces).wp
      (fun fault => fault = .overflow ∧
        u64Bound ≤ rs.chunkProcessedSize + (pieces.flatMap Piece.bytes).length)
      fun (rs', output') =>
        rs'.chunkProcessedSize = rs.chunkProcessedSize + (pieces.flatMap Piece.bytes).length ∧
        ∃ appended, output.Extends appended output' ∧
          appended ++ rs'.stagingBuffer.drop rs'.toSkip =
            (pieces.flatMap Piece.bytes).drop rs.toSkip ∧
          ∀ bufs : Nat → ReadBuf, (∀ i, 0 < (bufs i).remaining) →
            rs'.stagingBuffer.length < 2 ^ 63 →
            ∃ rs'' outputs, (∀ fuel, (rs'.stagingBuffer.drop rs'.toSkip).length ≤ fuel →
                drainStaging bufs rs' fuel = .ok (rs'', outputs)) ∧
              Delivered bufs outputs (rs'.stagingBuffer.drop rs'.toSkip) ∧
              rs''.stagingBuffer = [] ∧ rs''.toSkip = 0 := by
  rw [readPieces_eq]
  have hbytes : (pieces.map Piece.bytes).flatten = pieces.flatMap Piece.bytes := rfl
  refine wp_mono ((Written.start hempty rfl).writePieces_wp (pieces.map Piece.bytes)
    fun hover => ⟨rfl, hover⟩) (fun _ hf => hf) ?_
  intro (rs', output') ⟨appended, hwritten⟩
  rw [List.nil_append, hbytes] at hwritten
  refine ⟨hwritten.processed, appended, hwritten.output, hwritten.bytes, ?_⟩
  intro bufs hroom hbound
  refine drainStaging_eq hroom hbound (fun h => (hwritten.staged h).1) fun h => ?_
  rw [hwritten.unstaged h]
  omega

/-- A piece that is skipped in part is staged, and the one behind it with it. -/
theorem pieces_delivered_staged :
    ∃ rs' output' rs'' outputs,
      readPieces ⟨.finished, 0, 0, [], 1⟩ (.new 5) [.str [1, 2, 3], .str [], .str [4]] =
        .ok (rs', output') ∧ output'.filled = [] ∧ rs'.stagingBuffer = [1, 2, 3, 4] ∧
      drainStaging (fun _ => .new 2) rs' 3 = .ok (rs'', outputs) ∧
      Delivered (fun _ => .new 2) outputs [2, 3, 4] ∧ rs''.toSkip = 0 := by
  let pieces : List Piece := [.str [1, 2, 3], .str [], .str [4]]
  have hread : readPieces ⟨.finished, 0, 0, [], 1⟩ (.new 5) pieces =
      .ok (⟨.finished, 4, 0, [1, 2, 3, 4], 1⟩, .new 5) := rfl
  obtain ⟨_, _, _, _, hdrains⟩ := wp_of_eq_ok
    (pieces_delivered ⟨.finished, 0, 0, [], 1⟩ (.new 5) pieces rfl (by decide)) hread
  obtain ⟨rs'', outputs, hdrain, hdelivered, _, hskip⟩ :=
    hdrains (fun _ => .new 2) (fun _ => by decide) (by decide)
  exact ⟨_, _, rs'', outputs, hread, rfl, rfl, hdrain 3 (by decide), hdelivered, hskip⟩

end Zippity
