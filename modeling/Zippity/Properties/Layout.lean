import Zippity.Session

/-! # The layout of the archive

    The sizes that `build` computes, the sizes of the chunks and the lengths of
    the headers agree: walking the chunks and adding up their sizes passes
    through every offset that the headers and the seeks rely on.
-/

namespace Zippity

open Framework
open Exec (u64Bound)

section Model
variable {E : EntryData} {H : Crc32Fast}

/-- The walk over the chunks from a chunk at a position: each with its position, the next one
    found by `Chunk::next` and its position by `Chunk::size`, up to `Finished` at `total`. -/
inductive ChunkWalk (entries : List (ReaderEntry E)) :
    Chunk → Nat → List (Chunk × Nat) → Nat → Prop where
  | finished (total : Nat) : ChunkWalk entries .finished total [] total
  | chunk {c next : Chunk} {size pos total : Nat} {walk : List (Chunk × Nat)}
    (hsize : c.size entries = .ok size) (hnext : c.next entries = .ok next)
    (rest : ChunkWalk entries next (pos + size) walk total) :
    ChunkWalk entries c pos ((c, pos) :: walk) total

/-- What the loop of `read` writes for a chunk other than entry data, once the CRC is known. -/
def writeChunk (sizes : Sizes) (entries : List (ReaderEntry E)) (crc32 : UInt32)
    (readState : ReadState) (output : ReadBuf) : Chunk → Exec (ReadState × ReadBuf)
  | .localHeader i => do
    let entry ← entryAt entries i
    readState.readLocalHeader entry output
  | .dataDescriptor i => do
    let entry ← entryAt entries i
    readState.putDataDescriptor entry crc32 output
  | .cdFileHeader i => do
    let entry ← entryAt entries i
    readState.putCdFileHeader entry crc32 output
  | .eocd => readState.readEocd sizes entries output
  | .entryData _ | .finished => .error .unreachable

section Walk
variable {a : Archive} {entries : List (ReaderEntry E)}

/-- The walk from a chunk passes through every later chunk, at its position. -/
theorem exists_chunkWalk (H : Crc32Fast) (h : Listed a.members entries) (c : Chunk)
    (hc : c.Located a.members.length) (hfin : c ≠ .finished) :
    ∃ walk, ChunkWalk entries c (chunkStart a.members c) walk (layoutSizes a.members).totalSize ∧
      (c, chunkStart a.members c) ∈ walk ∧
      walk.getLast? = some (.eocd, chunkStart a.members .eocd) ∧
      (∀ d pos, (d, pos) ∈ walk → d.Located a.members.length ∧ d ≠ .finished ∧
        pos = chunkStart a.members d ∧
        (d ≠ .eocd → (d.succ a.members.length, chunkStart a.members (d.succ a.members.length)) ∈
          walk)) := by
  induction hrank : c.rank a.members.length using Nat.strong_induction_on generalizing c with
  | _ n ih =>
    have hsize := chunkSize_eq (H := H) h hc hfin
    have hnext := chunkNext_eq h.length hfin
    have hstart := chunkStart_succ (H := H) hc hfin
    by_cases heocd : c = .eocd
    · subst heocd
      refine ⟨[(.eocd, chunkStart a.members .eocd)], .chunk hsize hnext ?_, by simp, rfl, ?_⟩
      · rw [← hstart]
        exact .finished _
      · intro d pos hmem
        cases List.mem_singleton.mp hmem
        exact ⟨trivial, by simp, rfl, fun hne => absurd rfl hne⟩
    · have hfin' : c.succ a.members.length ≠ .finished := by
        cases c with
        | dataDescriptor i => simp only [Chunk.succ]; split <;> simp
        | cdFileHeader i => simp only [Chunk.succ]; split <;> simp
        | eocd => exact absurd rfl heocd
        | finished => exact absurd rfl hfin
        | _ => simp [Chunk.succ]
      obtain ⟨walk, hwalk, hmem, hlast, hall⟩ := ih _ (hrank ▸ Chunk.rank_succ_lt hc hfin) _
        (Chunk.succ_located hc) hfin' rfl
      rw [hstart] at hwalk
      refine ⟨_, .chunk hsize hnext hwalk, by simp, ?_, ?_⟩
      · rw [List.getLast?_cons, hlast]
        rfl
      · intro d pos hd
        rcases List.mem_cons.mp hd with heq | hd
        · cases heq
          exact ⟨hc, hfin, rfl, fun _ => List.mem_cons_of_mem _ hmem⟩
        · obtain ⟨hlocated, hne, hpos, hsucc⟩ := hall d pos hd
          exact ⟨hlocated, hne, hpos, fun hd' => List.mem_cons_of_mem _ (hsucc hd')⟩

/-- Pieces of some length produce as many bytes, less those to be skipped. -/
theorem writePieces_length {rs : ReadState} {output : ReadBuf} {pieces : List (List UInt8)}
    {size : Nat} (hlen : pieces.flatten.length = size) (hbound : size < 2 ^ 63)
    (hempty : rs.stagingBuffer = []) (hprocessed : rs.chunkProcessedSize = 0)
    (hskip : rs.toSkip ≤ size) :
    ∃ rs' output' bytes, writePieces rs output pieces = .ok (rs', output') ∧
      output.Extends bytes output' ∧
      bytes.length + (rs'.stagingBuffer.drop rs'.toSkip).length + rs.toSkip = size ∧
      rs'.chunkProcessedSize = size := by
  have hshort : pieces.flatten.length < 2 ^ 63 := by omega
  obtain ⟨rs', output', bytes, heq, hwritten⟩ :=
    exists_written output hshort hempty hprocessed
  have hbytes := congrArg List.length hwritten.bytes
  have hprocessed' := hwritten.processed
  rw [List.length_append, List.length_drop (l := pieces.flatten)] at hbytes
  exact ⟨rs', output', bytes, heq, hwritten.output, by omega, by omega⟩

/-- The writer of a chunk produces as many bytes as the chunk has, less those to be skipped. -/
theorem writeChunk_spec (H : Crc32Fast) (h : Listed a.members entries) {sizes : Sizes} {c : Chunk}
    (hc : c.Located a.members.length) (hfin : c ≠ .finished) (hdata : ∀ i, c ≠ .entryData i)
    {size : Nat} (hsize : c.size entries = .ok size) (crc32 : UInt32) {rs : ReadState}
    (output : ReadBuf) (hempty : rs.stagingBuffer = []) (hprocessed : rs.chunkProcessedSize = 0)
    (hskip : rs.toSkip ≤ size) :
    ∃ rs' output' bytes, writeChunk sizes entries crc32 rs output c = .ok (rs', output') ∧
      output.Extends bytes output' ∧
      bytes.length + (rs'.stagingBuffer.drop rs'.toSkip).length + rs.toSkip = size ∧
      rs'.chunkProcessedSize = size := by
  have heq := hsize.symm.trans (chunkSize_eq (H := H) h hc hfin)
  cases c with
  | localHeader i =>
    obtain ⟨m, entry, hm, hi, hdescribes, hname⟩ := h.exists_entry hc
    simp only [segmentOf, hm, Option.elim_some, Segment.plain, Member.length_localBytes,
      Member.localSize, ← hdescribes.name, Except.ok.injEq] at heq
    simp only [writeChunk, entryAt_eq hi, Exec.ok_bind, readLocalHeader_eq hname]
    exact writePieces_length (by simp; omega) (by omega) hempty hprocessed hskip
  | entryData i => exact absurd rfl (hdata i)
  | dataDescriptor i =>
    obtain ⟨m, entry, hm, hi, _, _⟩ := h.exists_entry hc
    simp only [segmentOf, hm, Option.elim_some, Segment.plain, Member.length_descriptorBytes,
      Member.descriptorSize, Except.ok.injEq] at heq
    simp only [writeChunk, entryAt_eq hi, Exec.ok_bind, putDataDescriptor_eq]
    exact writePieces_length (by simp; omega) (by omega) hempty hprocessed hskip
  | cdFileHeader i =>
    obtain ⟨m, entry, hm, hi, hdescribes, hname⟩ := h.exists_entry hc
    simp only [segmentOf, hm, Option.elim_some, Segment.plain, Member.length_centralBytes,
      Member.centralSize, ← hdescribes.name, Except.ok.injEq] at heq
    simp only [writeChunk, entryAt_eq hi, Exec.ok_bind, putCdFileHeader_eq hname]
    exact writePieces_length (by simp; omega) (by omega) hempty hprocessed hskip
  | eocd =>
    simp only [segmentOf, Segment.plain, length_eocdBytes, Except.ok.injEq] at heq
    simp only [writeChunk, readEocd_eq]
    exact writePieces_length (by simp; omega) (by omega) hempty hprocessed hskip
  | finished => exact absurd rfl hfin

/-- The chunk that a reader starts with is the first of all, at the start of the archive. -/
theorem chunkNew_first (h : entries.length = a.members.length) :
    (Chunk.new entries).Located a.members.length ∧ Chunk.new entries ≠ .finished ∧
      chunkStart a.members (.new entries) = 0 ∧
      ∀ c : Chunk, c.Located a.members.length →
        c.rank a.members.length ≤ (Chunk.new entries).rank a.members.length := by
  rw [chunkNew_eq h]
  cases a.members with
  | nil =>
    refine ⟨trivial, by simp, rfl, fun c hc => ?_⟩
    cases c <;> simp [Chunk.Located, Chunk.rank] at hc ⊢
  | cons m ms =>
    refine ⟨Nat.zero_lt_succ _, by simp, rfl, fun c hc => ?_⟩
    cases c <;> simp [Chunk.Located, Chunk.rank] at hc ⊢ <;> omega

/-- A walk that passes through a chunk passes through every chunk behind it. -/
theorem mem_walk {walk : List (Chunk × Nat)}
    (hsucc : ∀ d pos, (d, pos) ∈ walk → d ≠ .eocd →
      (d.succ a.members.length, chunkStart a.members (d.succ a.members.length)) ∈ walk)
    {c d : Chunk} (hc : c.Located a.members.length) (hmem : (c, chunkStart a.members c) ∈ walk)
    (hd : d.Located a.members.length) (hfin : d ≠ .finished)
    (hle : d.rank a.members.length ≤ c.rank a.members.length) :
    (d, chunkStart a.members d) ∈ walk := by
  induction hrank : c.rank a.members.length using Nat.strong_induction_on generalizing c with
  | _ n ih =>
    rcases Nat.lt_or_eq_of_le hle with hlt | heq
    · have hpos : 0 < d.rank a.members.length := by
        cases d with
        | finished => exact absurd rfl hfin
        | _ =>
          simp only [Chunk.Located, Chunk.rank] at hd ⊢
          omega
      have heocd : c ≠ .eocd := by
        intro hc
        have hone : c.rank a.members.length = 1 := by rw [hc, Chunk.rank]
        omega
      have hcfin : c ≠ .finished := by
        intro hc
        have hzero : c.rank a.members.length = 0 := by rw [hc, Chunk.rank]
        omega
      exact ih _ (hrank ▸ Chunk.rank_succ_lt hc hcfin) (Chunk.succ_located hc)
        (hsucc c _ hmem heocd) (Chunk.rank_le_rank_succ hc hd hlt) rfl
    · rwa [Chunk.eq_of_rank_eq hd hc heq]

end Walk

/-- The layout of a reader built by `b`: its sizes, the offsets of its entries, the walk over its
    chunks and the lengths of its headers. -/
structure LayoutAgrees (b : Builder E) (r : Reader E H) : Prop where
  totalSize : r.sizes.totalSize = b.size
  fits : b.size < u64Bound
  eocdOffset : r.sizes.eocdOffset = r.sizes.cdOffset + r.sizes.cdSize
  offsets : r.entries.Pairwise (fun x y => x.offset < y.offset)
  firstOffset : ∀ entry, r.entries[0]? = some entry → entry.offset = 0
  /-- The chunks from `Chunk::new` on, with their positions; the sum of their sizes is the total
      size, and every chunk has one position. -/
  walk : ∃ walk, ChunkWalk r.entries (.new r.entries) 0 walk r.sizes.totalSize ∧
    walk.getLast? = some (.eocd, r.sizes.eocdOffset) ∧
    (∀ i entry, r.entries[i]? = some entry → (.localHeader i, entry.offset) ∈ walk) ∧
    (r.entries ≠ [] → (.cdFileHeader 0, r.sizes.cdOffset) ∈ walk) ∧
    (∀ c pos pos', (c, pos) ∈ walk → (c, pos') ∈ walk → pos = pos') ∧
    -- the bytes appended, staged and skipped make up the size of the chunk
    ∀ c pos, (c, pos) ∈ walk → (∀ i, c ≠ .entryData i) →
      ∀ size, c.size r.entries = .ok size →
      ∀ crc32 rs output, rs.stagingBuffer = [] → rs.chunkProcessedSize = 0 → rs.toSkip ≤ size →
      ∃ rs' output' bytes,
        writeChunk r.sizes r.entries crc32 rs output c = .ok (rs', output') ∧
        output.Extends bytes output' ∧
        bytes.length + (rs'.stagingBuffer.drop rs'.toSkip).length + rs.toSkip = size ∧
        rs'.chunkProcessedSize = size

/-- **Three size computations agree.**  No addition in `build` overflows, the walk over the chunks
    of the reader passes through every offset of the layout and ends at the total size, and every
    header is as long as its chunk. -/
theorem build_layout {b : Builder E} (hb : b.Reached) :
    ∃ r : Reader E H, b.build = .ok r ∧ LayoutAgrees b r := by
  obtain ⟨r, a, hbuild, hbuilt⟩ := hb.consistent.build (H := H) fun _ => []
  have hlisted := hbuilt.listed
  have hsizes : r.sizes = layoutSizes a.members := by rw [hbuilt.reader]; rfl
  obtain ⟨hlocated, hfin, hstart, hrank⟩ := chunkNew_first (a := a) hlisted.length
  obtain ⟨walk, hwalk, hmem, hlast, hall⟩ := exists_chunkWalk H hlisted _ hlocated hfin
  rw [hstart] at hwalk
  -- the walk starts at the first chunk, so it passes through all
  have hpass : ∀ c : Chunk, c.Located a.members.length → c ≠ .finished →
      (c, chunkStart a.members c) ∈ walk := fun c hc hne =>
    mem_walk (fun d pos hd => (hall d pos hd).2.2.2) hlocated hmem hc hne (hrank c hc)
  have htotal := hbuilt.size
  refine ⟨r, hbuild, by rw [hsizes, htotal], ?_, by rw [hsizes]; rfl, hlisted.offsets_sorted, ?_,
    walk, by rw [hsizes]; exact hwalk, by rw [hsizes]; exact hlast, ?_, ?_, ?_, ?_⟩
  · rw [← htotal]
    exact a.fits
  · intro entry hentry
    obtain ⟨hi, rfl⟩ := List.getElem?_eq_some_iff.mp hentry
    exact hlisted.offset hi
  · intro i entry hentry
    obtain ⟨hi, rfl⟩ := List.getElem?_eq_some_iff.mp hentry
    rw [hlisted.offset hi]
    exact hpass (.localHeader i) (hlisted.length ▸ hi) (by simp)
  · intro hne
    have hpos : 0 < a.members.length := hlisted.length ▸ List.length_pos_iff.mpr hne
    have hcd := hpass (.cdFileHeader 0) hpos (by simp)
    simpa [chunkStart, hsizes, layoutSizes] using hcd
  · intro c pos pos' hpos hpos'
    rw [(hall c pos hpos).2.2.1, (hall c pos' hpos').2.2.1]
  · intro c pos hpos hdata size hsize crc32 rs output hempty hprocessed hskip
    obtain ⟨hc, hne, _⟩ := hall c pos hpos
    exact writeChunk_spec H hlisted hc hne hdata hsize crc32 output hempty hprocessed hskip

end Model

theorem build_layout_session :
    ∃ x : Session steady crc32Ieee, session crc32Ieee steadyFiles 0 [] = some x ∧
      x.reader.size = 579 ∧ LayoutAgrees x.builder x.reader := by
  have hrun : (session crc32Ieee steadyFiles 0 []).map (·.reader.size) = some 579 := by
    decide +kernel
  obtain ⟨x, hx, h, hsize⟩ := exists_session hrun
  obtain ⟨r, hbuild, hagrees⟩ := build_layout (H := crc32Ieee) h.reached
  have hreader : x.reader = r := Except.ok.inj (h.build.symm.trans hbuild)
  rw [← hreader] at hagrees
  exact ⟨x, hx, hsize, hagrees⟩

end Zippity
