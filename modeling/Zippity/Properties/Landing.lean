import Zippity.Properties.Layout
import Zippity.Reader.Call

/-! # Where a seek lands

    A seek goes to a chunk at or before the offset and leaves the bytes between
    to be skipped; the loop of `read` skips whole chunks by their sizes.  The
    chunks tile the archive, so it stops in the one chunk with the offset in it,
    or at the end, before any entry is opened.
-/

namespace Zippity

open Framework Async
open Exec (u64Bound subU64_eq)

/-! ### Tiling -/

section Tiling
variable {H : Crc32Fast} {ms : List Member} {c d : Chunk}

/-- **The chunks tile the archive**: a chunk ends where a later one starts, or before. -/
theorem chunkStart_add_size_le (hc : c.Located ms.length) (hd : d.Located ms.length)
    (h : d.rank ms.length < c.rank ms.length) :
    chunkStart ms c + (segmentOf H ms c).size ≤ chunkStart ms d := by
  -- by induction on the chunks behind `c`, which end with `d`
  induction hrank : c.rank ms.length using Nat.strong_induction_on generalizing c with
  | _ n ih =>
    have hfin : c ≠ .finished := by
      rintro rfl
      simp [Chunk.rank] at h
    have hsucc := Chunk.succ_located hc
    rw [← chunkStart_succ hc hfin]
    rcases Nat.lt_or_eq_of_le (Chunk.rank_le_rank_succ hc hd h) with hlt | heq
    · have hnext := ih _ (hrank ▸ Chunk.rank_succ_lt hc hfin) hsucc hlt rfl
      omega
    · rw [Chunk.eq_of_rank_eq hd hsucc heq]

/-- An offset is in one chunk only. -/
theorem eq_of_offset_mem (hc : c.Located ms.length) (hd : d.Located ms.length) {offset : Nat}
    (hc' : chunkStart ms c ≤ offset ∧ offset < chunkStart ms c + (segmentOf H ms c).size)
    (hd' : chunkStart ms d ≤ offset ∧ offset < chunkStart ms d + (segmentOf H ms d).size) :
    d = c := by
  -- the ranges of two chunks are apart, in the order of their ranks
  rcases Nat.lt_trichotomy (d.rank ms.length) (c.rank ms.length) with hlt | heq | hgt
  · have hle := chunkStart_add_size_le (H := H) hc hd hlt
    omega
  · exact Chunk.eq_of_rank_eq hd hc heq
  · have hle := chunkStart_add_size_le (H := H) hd hc hgt
    omega

/-- An offset in a chunk is in the archive. -/
theorem offset_lt_of_mem (hc : c.Located ms.length) (hfin : c ≠ .finished) :
    chunkStart ms c + (segmentOf H ms c).size ≤ (layoutSizes ms).totalSize := by
  refine chunkStart_add_size_le hc trivial (d := .finished) ?_
  cases c with
  | finished => exact absurd rfl hfin
  | _ =>
    simp only [Chunk.Located, Chunk.rank] at hc ⊢
    omega

end Tiling

section Model
variable {E : EntryData} {H : Crc32Fast}

/-! ### The skip loop -/

/-- So many turns of the loop lead from one frame to another.  Each goes on, and does nothing but to
    skip a whole chunk. -/
inductive Skips (sizes : Sizes) (ctx : E.Context) (initialRemaining : Nat) :
    Nat → Frame E H → Frame E H → Prop where
  | done (s : Frame E H) : Skips sizes ctx initialRemaining 0 s s
  | turn {s s' : Frame E H} {n size : Nat} {next : Chunk} (hroom : 0 < s.output.remaining)
    (hturn : ∀ fuel, readIteration sizes ctx fuel initialRemaining s = .ok (.ok (.go ()),
      { s with readState.toSkip := s.readState.toSkip - size, readState.currentChunk := next }))
    (hle : size ≤ s.readState.toSkip)
    (rest : Skips sizes ctx initialRemaining n
      { s with readState.toSkip := s.readState.toSkip - size, readState.currentChunk := next } s') :
    Skips sizes ctx initialRemaining (n + 1) s s'

section Skip
variable {size : Nat} {next : Chunk} {s s' : Frame E H} {sizes : Sizes} {ctx : E.Context}
  {initialRemaining n : Nat}

/-- The loop takes these turns, whatever fuel it has left for others. -/
theorem Skips.readLoop_eq (h : Skips sizes ctx initialRemaining n s s') (fuel : Nat) :
    readLoop sizes ctx initialRemaining (fuel + n) s =
      readLoop sizes ctx initialRemaining fuel s' := by
  induction h with
  | done => rfl
  | turn hroom hturn _ _ ih =>
    rw [← Nat.add_assoc, readLoop, get_bind_apply, if_pos hroom, bind_apply_of_ok (hturn _)]
    exact ih

/-- A turn that skips a whole chunk. -/
theorem readIteration_skip (hempty : s.readState.stagingBuffer = [])
    (hfin : s.readState.currentChunk ≠ .finished)
    (hsize : s.readState.currentChunk.size s.entries = .ok size) (hle : size ≤ s.readState.toSkip)
    (hnext : s.readState.currentChunk.next s.entries = .ok next) (fuel : Nat) :
    readIteration sizes ctx fuel initialRemaining s = .ok (.ok (.go ()), { s with
      readState.toSkip := s.readState.toSkip - size
      readState.currentChunk := next }) := by
  unfold readIteration
  rw [get_bind_apply, if_neg (not_not_intro hempty), if_neg hfin, hsize, lift_ok, pure_bind,
    if_pos hle, subU64_eq hle, lift_ok, pure_bind, hnext, lift_ok, pure_bind]
  rfl

/-- **The skip loop** stops in a chunk that has more bytes than are to be skipped, or at the end,
    and nothing but the chunk and the bytes to be skipped changes. -/
theorem exists_skips (H' : Crc32Fast) (sizes : Sizes) (ctx : E.Context) (initialRemaining : Nat)
    {a : Archive} (hlisted : Listed a.members s.entries)
    (hlocated : s.readState.currentChunk.Located a.members.length)
    (hempty : s.readState.stagingBuffer = []) (hroom : 0 < s.output.remaining) :
    ∃ n c skip, Skips sizes ctx initialRemaining n s { s with
        readState.toSkip := skip
        readState.currentChunk := c } ∧
      c.Located a.members.length ∧
      chunkStart a.members c + skip =
        chunkStart a.members s.readState.currentChunk + s.readState.toSkip ∧
      (c ≠ .finished → skip < (segmentOf H' a.members c).size) := by
  -- by induction on the chunks that are left
  induction hrank : s.readState.currentChunk.rank a.members.length using Nat.strong_induction_on
    generalizing s with
  | _ rank ih =>
    by_cases hfin : s.readState.currentChunk = .finished
    · exact ⟨0, s.readState.currentChunk, s.readState.toSkip, .done s, hlocated, rfl,
        fun hne => absurd hfin hne⟩
    · have hsize := chunkSize_eq (H := H') hlisted hlocated hfin
      by_cases hle : (segmentOf H' a.members s.readState.currentChunk).size ≤ s.readState.toSkip
      · have hnext := chunkNext_eq hlisted.length hfin
        have hstart := chunkStart_succ (H := H') hlocated hfin
        -- the state after a turn that skips the current chunk
        let s' : Frame E H := { s with
          readState.toSkip :=
            s.readState.toSkip - (segmentOf H' a.members s.readState.currentChunk).size
          readState.currentChunk := s.readState.currentChunk.succ a.members.length }
        have hrank' : s'.readState.currentChunk.rank a.members.length < rank :=
          hrank ▸ Chunk.rank_succ_lt hlocated hfin
        obtain ⟨n, c, skip, hskips, hc, hsum, hlt⟩ :=
          ih _ hrank' (s := s') hlisted (Chunk.succ_located hlocated) hempty hroom rfl
        refine ⟨n + 1, c, skip,
          .turn hroom (readIteration_skip hempty hfin hsize hle hnext) hle hskips, hc, ?_, hlt⟩
        have hsum' : chunkStart a.members c + skip =
            chunkStart a.members (s.readState.currentChunk.succ a.members.length) +
              (s.readState.toSkip - (segmentOf H' a.members s.readState.currentChunk).size) := hsum
        omega
      · exact ⟨0, s.readState.currentChunk, s.readState.toSkip, .done s, hlocated, rfl,
          fun _ => Nat.lt_of_not_le hle⟩

end Skip

/-! ### Readers in their archive -/

section Run
variable {a : Archive} {r r' : Reader E H}

/-- The reader has the sizes of the archive and stands somewhere in it. -/
def InArchive (a : Archive) (r : Reader E H) : Prop :=
  r.sizes = layoutSizes a.members ∧ ∃ p, Placed a r.entries r.readState p

theorem Built.inArchive {content : E.Data → List UInt8} {b : Builder E}
    (h : Built content b r a) : InArchive a r := by
  obtain ⟨hlocated, _, hstart, _⟩ := chunkNew_first h.listed.length
  rw [h.reader]
  refine ⟨rfl, 0, h.listed, hlocated, fun hne => absurd rfl hne, ?_⟩
  show 0 + 0 = chunkStart a.members (.new r.entries) + 0 + 0
  omega

/-- A seek of a reader in its archive. -/
theorem InArchive.seek (h : InArchive a r) (offset : Nat) :
    ∃ chunk, r.seekFromStart offset = .ok { r with
        readState := {
          currentChunk := chunk
          chunkProcessedSize := 0
          position := offset
          stagingBuffer := []
          toSkip := offset - chunkStart a.members chunk }
        pinned.slot := .nothing } ∧
      chunk.Located a.members.length ∧ chunk ≠ .finished ∧ chunkStart a.members chunk ≤ offset := by
  obtain ⟨hsizes, p, hplaced⟩ := h
  obtain ⟨chunk, hseek, htarget, hlocated, hle⟩ :=
    seekFromStart_lands r.readState hsizes hplaced.listed offset
  refine ⟨chunk, ?_, hlocated, ?_, hle⟩
  · unfold Reader.seekFromStart
    rw [hseek]
    rfl
  -- no seek goes to `finished`
  · rintro rfl
    exact htarget

/-- The place in the archive is kept along a run. -/
theorem InArchive.run {ops : List (Op E)} (h : InArchive a r) (hsteps : Steps r ops r') :
    InArchive a r' := by
  refine hsteps.invariant (fun _ r' => InArchive a r') h ?_
  intro _ r₁ op r₂ h₁ hstep
  cases op with
  | pollRead ctx buf answer buf' =>
    obtain ⟨fuel, hpoll⟩ := hstep
    obtain ⟨bytes, hcall⟩ := pollRead_callStep hpoll
    obtain ⟨hsizes, p, hplaced⟩ := h₁
    refine ⟨?_, _, hcall.placed a p hplaced⟩
    obtain ⟨⟨_, _⟩, _, hr₂⟩ := Exec.bind_eq_ok hpoll
    cases hr₂
    exact hsizes
  | seek offset =>
    obtain ⟨_, hsought⟩ := hstep
    obtain ⟨chunk, hseek, hlocated, _, hle⟩ := h₁.seek offset
    rw [hseek] at hsought
    cases hsought
    obtain ⟨hsizes, _, hplaced⟩ := h₁
    refine ⟨hsizes, offset, hplaced.listed, hlocated, fun hne => absurd rfl hne, ?_⟩
    show offset + 0 = chunkStart a.members chunk + 0 + (offset - chunkStart a.members chunk)
    omega

end Run

/-! ### Landing -/

/-- The chunk in a walk that a seek to an offset lands in: the one whose range contains the offset,
    with the bytes up to it to be skipped, which are not all of the chunk. -/
structure LandsIn (entries : List (ReaderEntry E)) (walk : List (Chunk × Nat)) (offset : Nat)
    (chunk : Chunk) (toSkip : Nat) : Prop where
  range : ∃ start size, (chunk, start) ∈ walk ∧ chunk.size entries = .ok size ∧
    start ≤ offset ∧ offset < start + size ∧ toSkip = offset - start ∧ toSkip < size
  unique : ∀ d start size, (d, start) ∈ walk → d.size entries = .ok size →
    start ≤ offset → offset < start + size → d = chunk ∧ toSkip = offset - start

/-- **A seek lands on the byte asked for.**  In any state of a reader that was built, a seek to an
    offset succeeds in a chunk of the walk over the archive, so far from its start; the loop of
    `read` then skips, chunk by chunk, to the one chunk that contains the offset, or to the end if
    the offset is not in the archive, and changes nothing else. -/
theorem seek_lands {b : Builder E} (hb : b.Reached) {r r' : Reader E H}
    (hbuild : b.build = .ok r) {ops : List (Op E)} (hsteps : Steps r ops r') (offset : Nat) :
    ∃ walk r'', ChunkWalk r'.entries (.new r'.entries) 0 walk r'.size ∧
      r'.seekFromStart offset = .ok r'' ∧ r''.entries = r'.entries ∧
      (∃ start, (r''.readState.currentChunk, start) ∈ walk ∧
        start + r''.readState.toSkip = offset) ∧
      ∀ (ctx : E.Context) (initialRemaining : Nat) (output : ReadBuf), 0 < output.remaining →
        ∃ n chunk toSkip,
          Skips r''.sizes ctx initialRemaining n
            ⟨r''.readState, r''.entries, r''.pinned, output⟩
            ⟨{ r''.readState with currentChunk := chunk, toSkip := toSkip },
              r''.entries, r''.pinned, output⟩ ∧
          (∀ fuel,
            readLoop r''.sizes ctx initialRemaining (fuel + n)
                ⟨r''.readState, r''.entries, r''.pinned, output⟩ =
              readLoop r''.sizes ctx initialRemaining fuel
                ⟨{ r''.readState with currentChunk := chunk, toSkip := toSkip },
                  r''.entries, r''.pinned, output⟩) ∧
          (chunk = .finished ↔ r'.size ≤ offset) ∧
          (chunk = .finished → toSkip = offset - r'.size) ∧
          (chunk ≠ .finished → LandsIn r''.entries walk offset chunk toSkip) := by
  obtain ⟨a, hbuilt⟩ := hb.built (fun _ => []) hbuild
  have hin := hbuilt.inArchive.run hsteps
  obtain ⟨chunk, hseek, hlocated, hfin, hle⟩ := hin.seek offset
  obtain ⟨hsizes, p, hplaced⟩ := hin
  have hlisted := hplaced.listed
  obtain ⟨hnew, hnewFin, hstart, hrank⟩ := chunkNew_first hlisted.length
  obtain ⟨walk, hwalk, hmem, _, hall⟩ := exists_chunkWalk H hlisted _ hnew hnewFin
  rw [hstart, ← hsizes] at hwalk
  -- the walk passes every chunk of the archive where the chunk starts
  have hpass : ∀ c : Chunk, c.Located a.members.length → c ≠ .finished →
      (c, chunkStart a.members c) ∈ walk := fun c hc hne =>
    mem_walk (fun d pos hd => (hall d pos hd).2.2.2) hnew hmem hc hne (hrank c hc)
  refine ⟨walk, _, hwalk, hseek, rfl, ⟨_, hpass chunk hlocated hfin, by dsimp only; omega⟩, ?_⟩
  intro ctx initialRemaining output hroom
  -- what a poll after the seek begins with
  let s : Frame E H := {
    readState := {
      currentChunk := chunk
      chunkProcessedSize := 0
      position := offset
      stagingBuffer := []
      toSkip := offset - chunkStart a.members chunk }
    entries := r'.entries
    pinned := { r'.pinned with slot := .nothing }
    output := output }
  obtain ⟨n, c, toSkip, hskips, hc, hsum, hlt⟩ :=
    exists_skips (s := s) H r'.sizes ctx initialRemaining hlisted hlocated rfl hroom
  have hoffset : chunkStart a.members c + toSkip = offset := by
    have hsum' : chunkStart a.members c + toSkip =
        chunkStart a.members chunk + (offset - chunkStart a.members chunk) := hsum
    omega
  have htotal : r'.size = (layoutSizes a.members).totalSize := congrArg Sizes.totalSize hsizes
  refine ⟨n, c, toSkip, hskips, hskips.readLoop_eq, ⟨?_, ?_⟩, ?_, ?_⟩
  · rintro rfl
    rw [htotal, ← hoffset]
    exact Nat.le_add_right _ _
  · intro hpast
    by_contra hne
    have hend := offset_lt_of_mem (H := H) hc hne
    have hinside := hlt hne
    omega
  · rintro rfl
    rw [htotal, ← hoffset]
    exact (Nat.add_sub_cancel_left _ _).symm
  · intro hne
    have hinside := hlt hne
    have hskip : toSkip = offset - chunkStart a.members c := by omega
    refine ⟨⟨_, _, hpass c hc hne, chunkSize_eq (H := H) hlisted hc hne, ?_, ?_, hskip, hinside⟩,
      ?_⟩
    · omega
    · omega
    · intro d start size hd hsize hstart hend
      obtain ⟨hdlocated, hdfin, hpos, _⟩ := hall d start hd
      have hdsize := hsize.symm.trans (chunkSize_eq (H := H) hlisted hdlocated hdfin)
      -- so both ranges are those of located chunks, and they tile
      cases hdsize
      subst hpos
      obtain rfl := eq_of_offset_mem (H := H) hc hdlocated ⟨by omega, by omega⟩ ⟨hstart, hend⟩
      exact ⟨rfl, hskip⟩

end Model

/-! ### A session -/

/-- From the archive's end, a seek to 61 goes to the local header at 0, and the loop skips this to
    the last byte of the data of the first member. -/
theorem seek_lands_session :
    ∃ x : Session steady crc32Ieee, session crc32Ieee steadyFiles 20
        [.seek 1000, .poll false (.new 8)] = some x ∧
      ∃ r'', x.last.seekFromStart 61 = .ok r'' ∧
        ∃ n, Skips r''.sizes true 5 n ⟨r''.readState, r''.entries, r''.pinned, room 5⟩
          ⟨{ r''.readState with currentChunk := .entryData 0, toSkip := 2 }, r''.entries,
            r''.pinned, room 5⟩ := by
  have hrun : (session crc32Ieee steadyFiles 20 [.seek 1000, .poll false (.new 8)]).map (fun x =>
      decide (x.last.size = 579 ∧ Chunk.new x.last.entries = .localHeader 0 ∧
        (Chunk.localHeader 0).size x.last.entries = .ok 59 ∧
        (Chunk.localHeader 0).next x.last.entries = .ok (.entryData 0) ∧
        (Chunk.entryData 0).size x.last.entries = .ok 3)) = some true := by decide +kernel
  obtain ⟨x, hx, h, hseen⟩ := exists_session hrun
  obtain ⟨hsize, hnew, hheader, hnext, hdata⟩ := of_decide_eq_true hseen
  obtain ⟨walk, r'', hwalk, hseek, hentries, _, hlands⟩ := seek_lands h.reached h.build h.steps 61
  -- the walk begins with the local header and the data of the first file
  have hmem : (Chunk.entryData 0, 59) ∈ walk := by
    rw [hnew] at hwalk
    cases hwalk with
    | chunk hsize₁ hnext₁ hrest =>
      cases hheader.symm.trans hsize₁
      cases hnext.symm.trans hnext₁
      cases hrest with
      | chunk => simp
  obtain ⟨n, chunk, toSkip, hskips, _, hend, _, hlandsIn⟩ := hlands true 5 (room 5) (by decide)
  have hne : chunk ≠ .finished := by
    rw [ne_eq, hend, hsize]
    decide
  obtain ⟨rfl, rfl⟩ := (hlandsIn hne).unique (.entryData 0) 59 3 hmem (by rw [hentries, hdata])
    (by decide) (by decide)
  exact ⟨x, hx, r'', hseek, n, hskips⟩

end Zippity
