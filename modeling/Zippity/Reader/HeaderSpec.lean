import Zippity.Archive
import Zippity.Reader.ReadState

/-! # What writing a header does

    A header is a list of pieces, each of which is skipped, written or staged.
    `Written k` relates the state to the bytes of the pieces so far, of which
    the first `k` are to be skipped: what was appended to the output and what
    is staged make up the rest of them.
-/

namespace Zippity

open Framework Exec

section Spec
variable {E : EntryData} {F : Fault → Prop}

/-! ### Pieces -/

/-- After pieces that make up `written`, the first `k` bytes of which are to be skipped. -/
structure Written (k : Nat) (rs₀ : ReadState) (output₀ : ReadBuf) (written : List UInt8)
    (rs : ReadState) (output : ReadBuf) (appended : List UInt8) : Prop where
  output : output₀.Extends appended output
  processed : rs.chunkProcessedSize = rs₀.chunkProcessedSize + written.length
  chunk : rs.currentChunk = rs₀.currentChunk
  position : rs.position = rs₀.position
  /-- Appended and staged bytes make up the bytes behind the skipped ones. -/
  bytes : appended ++ rs.stagingBuffer.drop rs.toSkip = written.drop k
  suffix : rs.stagingBuffer <:+ written
  staged : rs.stagingBuffer ≠ [] →
    rs.toSkip < rs.stagingBuffer.length ∧ rs.stagingBuffer.length ≤ written.length ∧
      k < written.length
  unstaged : rs.stagingBuffer = [] → rs.toSkip = k - written.length

theorem Written.start {k : Nat} {rs : ReadState} {output : ReadBuf}
    (hempty : rs.stagingBuffer = []) (hk : rs.toSkip = k) :
    Written k rs output [] rs output [] where
  output := .refl output
  processed := rfl
  chunk := rfl
  position := rfl
  bytes := by simp [hempty]
  suffix := by simp [hempty]
  staged h := absurd hempty h
  unstaged _ := hk

/-- One more piece. -/
theorem Written.readPiece_wp {k : Nat} {rs₀ rs : ReadState} {output₀ output : ReadBuf}
    {written appended : List UInt8} (h : Written k rs₀ output₀ written rs output appended)
    (piece : List UInt8)
    (hF : u64Bound ≤ rs₀.chunkProcessedSize + (written ++ piece).length → F .overflow) :
    (rs.readPiece piece output).wp F fun (rs', output') =>
      ∃ appended', Written k rs₀ output₀ (written ++ piece) rs' output' appended' := by
  have hlen : (written ++ piece).length = written.length + piece.length := List.length_append
  have hprocessed := h.processed
  unfold ReadState.readPiece
  by_cases hover : u64Bound ≤ rs.chunkProcessedSize + piece.length
  · rw [addU64, if_neg (by omega)]
    exact hF (by omega)
  rw [addU64_eq (by omega), ok_bind]
  by_cases hempty : rs.stagingBuffer = []
  · have hskip := h.unstaged hempty
    have hbytes : appended ++ piece.drop rs.toSkip = (written ++ piece).drop k := by
      have := h.bytes
      rw [hempty, List.drop_nil, List.append_nil] at this
      rw [List.drop_append, this, hskip]
    rw [if_pos (by simp [hempty])]
    by_cases hall : rs.toSkip ≥ piece.length
    · -- skipped
      rw [if_pos hall, subU64_eq hall]
      refine ⟨appended, h.output, by simp only; omega, h.chunk, h.position, ?_, ?_,
        fun hne => absurd hempty hne, fun _ => by simp only; omega⟩
      · rw [← hbytes, List.drop_eq_nil_of_le hall]
        simp [hempty]
      · simp [hempty]
    · rw [if_neg hall]
      by_cases hdirect : rs.toSkip = 0 ∧ output.remaining ≥ piece.length
      · -- written to the output
        rw [if_pos hdirect, ReadBuf.putSlice_eq hdirect.2]
        refine ⟨appended ++ piece, h.output.trans (.append hdirect.2), by simp only; omega, h.chunk,
          h.position, ?_, ?_, fun hne => absurd hempty hne, fun _ => by simp only; omega⟩
        · rw [← hbytes, hdirect.1]
          simp [hempty]
        · simp [hempty]
      · -- staged
        rw [if_neg hdirect]
        refine ⟨appended, h.output, by simp only; omega, h.chunk, h.position, ?_, ?_, fun _ => ?_,
          fun hnil => ?_⟩
        · simpa [hempty] using hbytes
        · simp only [hempty, List.nil_append]
          exact List.suffix_append written piece
        · simp only [hempty, List.nil_append]
          omega
        · simp only [hempty, List.nil_append] at hnil
          simp [hnil] at hall
  · -- staged behind what is staged already
    obtain ⟨hlt, hle, hk⟩ := h.staged hempty
    rw [if_neg (by simpa using hempty)]
    refine ⟨appended, h.output, by simp only; omega, h.chunk, h.position, ?_, ?_, fun _ => ?_,
      fun hnil => ?_⟩
    · show appended ++ (rs.stagingBuffer ++ piece).drop rs.toSkip = (written ++ piece).drop k
      rw [List.drop_append_of_le_length (Nat.le_of_lt hlt),
        List.drop_append_of_le_length (Nat.le_of_lt hk), ← List.append_assoc, h.bytes]
    · obtain ⟨front, hfront⟩ := h.suffix
      exact ⟨front, by rw [← hfront, List.append_assoc]⟩
    · simp only [List.length_append]
      omega
    · exact absurd (List.append_eq_nil_iff.mp hnil).1 hempty

/-- Write pieces in order. -/
def writePieces (rs : ReadState) (output : ReadBuf) :
    List (List UInt8) → Exec (ReadState × ReadBuf)
  | [] => .ok (rs, output)
  | piece :: pieces => do
    let (rs, output) ← rs.readPiece piece output
    writePieces rs output pieces

/-- Any number of pieces. -/
theorem Written.writePieces_wp {k : Nat} {rs₀ rs : ReadState} {output₀ output : ReadBuf}
    {written appended : List UInt8} (h : Written k rs₀ output₀ written rs output appended)
    (pieces : List (List UInt8))
    (hF : u64Bound ≤ rs₀.chunkProcessedSize + (written ++ pieces.flatten).length → F .overflow) :
    (writePieces rs output pieces).wp F fun (rs', output') =>
      ∃ appended', Written k rs₀ output₀ (written ++ pieces.flatten) rs' output' appended' := by
  induction pieces generalizing rs output written appended with
  | nil => exact ⟨appended, by simpa using h⟩
  | cons piece pieces ih =>
    rw [List.flatten_cons, ← List.append_assoc] at hF ⊢
    unfold writePieces
    rw [wp_bind]
    refine wp_mono (h.readPiece_wp piece fun hover => hF ?_) (fun _ hf => hf) ?_
    · have hlen : (written ++ piece ++ pieces.flatten).length =
          (written ++ piece).length + pieces.flatten.length := List.length_append
      omega
    · rintro ⟨rs', output'⟩ ⟨appended', h'⟩
      exact ih h' hF

/-- The pieces of a whole header. -/
theorem writePieces_wp {rs : ReadState} {output : ReadBuf} {pieces : List (List UInt8)}
    (header : List UInt8) {Q : ReadState × ReadBuf → Prop} (hheader : pieces.flatten = header)
    (hempty : rs.stagingBuffer = []) (hprocessed : rs.chunkProcessedSize = 0)
    (hlen : header.length < 2 ^ 63)
    (hQ : ∀ rs' output' appended, Written rs.toSkip rs output header rs' output' appended →
      Q (rs', output')) :
    (writePieces rs output pieces).wp F Q := by
  subst hheader
  refine wp_mono ((Written.start hempty rfl).writePieces_wp pieces fun hover => ?_)
    (fun _ hf => hf) ?_
  · rw [hprocessed, List.nil_append] at hover
    simp only [u64Bound] at hover
    omega
  · rintro ⟨rs', output'⟩ ⟨appended, hwritten⟩
    exact hQ rs' output' appended hwritten

/-- A header can be written. -/
theorem exists_written {rs : ReadState} (output : ReadBuf) {pieces : List (List UInt8)}
    (hlen : pieces.flatten.length < 2 ^ 63) (hempty : rs.stagingBuffer = [])
    (hprocessed : rs.chunkProcessedSize = 0) :
    ∃ rs' output' appended, writePieces rs output pieces = .ok (rs', output') ∧
      Written rs.toSkip rs output pieces.flatten rs' output' appended := by
  have hwp : (writePieces rs output pieces).wp (fun _ => False) fun out =>
      ∃ appended, Written rs.toSkip rs output pieces.flatten out.1 out.2 appended := by
    apply writePieces_wp _ rfl hempty hprocessed hlen
    intro rs' output' appended hwritten
    exact ⟨appended, hwritten⟩
  obtain ⟨⟨rs', output'⟩, heq, appended, hwritten⟩ := Exec.exists_of_wp hwp
  exact ⟨rs', output', appended, heq, hwritten⟩

/-! ### The headers as lists of pieces -/

theorem fileNameLen_eq {name : Name} (h : name.length < 65536) :
    fileNameLen name = .ok (UInt16.ofNat name.length) := by
  simp [fileNameLen, h]

theorem readLocalHeader_eq {rs : ReadState} {entry : ReaderEntry E} {output : ReadBuf}
    (h : entry.name.length < 65536) :
    rs.readLocalHeader entry output = writePieces rs output
      [pack (localFileHeader entry.datetime (UInt16.ofNat entry.name.length)), entry.name,
        pack (zip64ExtraField 0 entry.offset)] := by
  unfold ReadState.readLocalHeader
  rw [fileNameLen_eq h, ok_bind]
  simp [writePieces, ReadState.readPackedStruct, ReadState.readStr]

theorem putDataDescriptor_eq {rs : ReadState} {entry : ReaderEntry E} {crc32 : UInt32}
    {output : ReadBuf} :
    rs.putDataDescriptor entry crc32 output =
      writePieces rs output [pack (dataDescriptor64 crc32 entry.size)] := by
  simp [ReadState.putDataDescriptor, writePieces, ReadState.readPackedStruct]

theorem putCdFileHeader_eq {rs : ReadState} {entry : ReaderEntry E} {crc32 : UInt32}
    {output : ReadBuf} (h : entry.name.length < 65536) :
    rs.putCdFileHeader entry crc32 output = writePieces rs output
      [pack (centralDirectoryHeader entry.datetime crc32 (UInt16.ofNat entry.name.length)
        entry.externalAttributes), entry.name, pack (zip64ExtraField entry.size entry.offset)] := by
  unfold ReadState.putCdFileHeader
  rw [fileNameLen_eq h, ok_bind]
  simp [writePieces, ReadState.readPackedStruct, ReadState.readStr]

theorem readEocd_eq {rs : ReadState} {sizes : Sizes} {entries : List (ReaderEntry E)}
    {output : ReadBuf} :
    rs.readEocd sizes entries output = writePieces rs output
      [pack (zip64EndOfCentralDirectoryRecord entries.length sizes),
        pack (zip64EndOfCentralDirectoryLocator sizes), pack endOfCentralDirectory] := by
  simp [ReadState.readEocd, writePieces, ReadState.readPackedStruct]

/-! ### The staging buffer -/

/-- What `read_from_staging` does while there is room: some staged bytes go to the output. -/
structure Unstaged (rs : ReadState) (output : ReadBuf) (rs' : ReadState) (output' : ReadBuf)
    (bytes : List UInt8) : Prop where
  output : output.Extends bytes output'
  nonempty : bytes ≠ []
  bytes : rs.stagingBuffer.drop rs.toSkip = bytes ++ rs'.stagingBuffer.drop rs'.toSkip
  processed : rs'.chunkProcessedSize = rs.chunkProcessedSize
  chunk : rs'.currentChunk = rs.currentChunk
  position : rs'.position = rs.position
  staged : rs'.stagingBuffer ≠ [] →
    rs'.stagingBuffer = rs.stagingBuffer ∧ rs'.toSkip < rs'.stagingBuffer.length
  unstaged : rs'.stagingBuffer = [] → rs'.toSkip = 0

theorem readFromStaging_wp {rs : ReadState} {output : ReadBuf}
    (hskip : rs.toSkip < rs.stagingBuffer.length) (hroom : 0 < output.remaining)
    (hbound : rs.stagingBuffer.length < 2 ^ 63) :
    (rs.readFromStaging output).wp F fun (rs', output') =>
      ∃ bytes, Unstaged rs output rs' output' bytes := by
  have hremaining := output.remaining_lt
  have hstop : addU64 rs.toSkip output.remaining = .ok (rs.toSkip + output.remaining) :=
    addU64_eq (by simp only [u64Bound]; omega)
  unfold ReadState.readFromStaging
  simp only [hstop, ok_bind]
  by_cases hlast : rs.toSkip + output.remaining ≥ rs.stagingBuffer.length
  · have hfit : ((rs.stagingBuffer.take rs.stagingBuffer.length).drop rs.toSkip).length ≤
        output.remaining := by
      simp only [List.length_drop, List.length_take]
      omega
    simp only [hlast, decide_true, if_true, hskip]
    rw [ReadBuf.putSlice_eq hfit]
    refine ⟨_, .append hfit, ?_, by simp, rfl, rfl, rfl, fun h => absurd rfl h, fun _ => rfl⟩
    rw [← List.length_pos_iff, List.length_drop, List.length_take]
    omega
  · have hfit : ((rs.stagingBuffer.take (rs.toSkip + output.remaining)).drop
        rs.toSkip).length ≤ output.remaining := by
      simp only [List.length_drop, List.length_take]
      omega
    simp only [hlast, decide_false, Bool.false_eq_true, if_false, hskip, if_true]
    rw [ReadBuf.putSlice_eq hfit]
    refine ⟨_, .append hfit, ?_, ?_, rfl, rfl, rfl, fun _ => ⟨rfl, by simp only; omega⟩,
      fun h => ?_⟩
    · rw [← List.length_pos_iff, List.length_drop, List.length_take]
      omega
    · show rs.stagingBuffer.drop rs.toSkip =
        (rs.stagingBuffer.take (rs.toSkip + output.remaining)).drop rs.toSkip ++
          rs.stagingBuffer.drop (rs.toSkip + output.remaining)
      rw [List.drop_take, Nat.add_sub_cancel_left, ← List.drop_drop, List.take_append_drop]
    · simp only at h
      simp [h] at hskip

end Spec

end Zippity
