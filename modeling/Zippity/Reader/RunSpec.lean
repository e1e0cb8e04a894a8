import Zippity.Reader.LoopSpec
import Zippity.Reader.SeekSpec
import Zippity.Reader.System

/-! # Runs of a reader

    The step lemmas of a reader that stands in the stream of an archive: what a
    `poll_read` and a seek do to what is left of it.  Every claim about runs is
    an induction over these two.
-/

namespace Zippity

open Framework
open Exec (u64Bound)

section Model
variable {E : EntryData} {H : Crc32Fast}

/-! ### Readers in a stream -/

/-- Every member has its announced size. -/
def Archive.Honest (a : Archive) : Prop := ∀ m ∈ a.members, m.Honest

/-- The reader stands in the stream of the archive, with `rest` left. -/
structure ReaderAt (mayFail : Prop) (a : Archive) (r : Reader E H) (rest : Tail UInt8) : Prop where
  sizes : r.sizes = layoutSizes a.members
  stocked : Stocked H mayFail a.members r.entries
  stands : Stands H mayFail a r.entries r.readState r.pinned.slot rest
  position : a.Honest → r.tell + rest.items.length < u64Bound

/-- The reader between two calls, as a frame. -/
def Reader.still (r : Reader E H) : Frame E H := ⟨r.readState, r.entries, r.pinned, .new 0⟩

/-- Where `poll_read` leaves a reader, with `bytes` appended to the buffer. -/
inductive PollOutcome (mayFail : Prop) (a : Archive) (r : Reader E H) (rest : Tail UInt8)
    (room : Nat) (bytes : List UInt8) (r' : Reader E H) :
    PollResult (IoError E) Unit → Prop where
  | ok {rest' : Tail UInt8} (hstream : rest = .cons bytes rest') (h : ReaderAt mayFail a r' rest')
    (hend : 0 < room → bytes = [] → rest' = .done) :
    PollOutcome mayFail a r rest room bytes r' (.ok ())
  | pending (hnil : bytes = []) (h : ReaderAt mayFail a r' rest) :
    PollOutcome mayFail a r rest room bytes r' .pending
  | failed {rest' : Tail UInt8} (e : E.Error) (hfail : mayFail) (hstream : rest = .cons bytes rest')
    (h : ReaderAt mayFail a r' rest') : PollOutcome mayFail a r rest room bytes r' (.err (.entry e))
  | crcMismatch {m : Member} (hm : m ∈ a.members) (hcrc : m.crc ≠ H.hash m.data)
    (hnil : bytes = []) (h : ReaderAt mayFail a r' rest) : PollOutcome mayFail a r rest room bytes r'
      (.err (.read (.crc32Mismatch m.name m.crc (H.hash m.data))))
  | sizeMismatch {rest' : Tail UInt8} {m : Member} {actual : Nat} (hm : m ∈ a.members)
    (hsize : m.data.length ≠ m.size) (hstream : rest = .cons bytes .halted)
    (h : ReaderAt mayFail a r' rest') (hdata : ∃ i, InData a r'.readState i m) :
    PollOutcome mayFail a r rest room bytes r'
      (.err (.read (.sizeMismatch m.name m.size actual)))

section Steps
variable {mayFail starved : Prop} {a : Archive} {r r' : Reader E H} {rest : Tail UInt8}

/-- Whatever the answer is, the reader stands in a stream of the archive afterwards. -/
theorem PollOutcome.readerAt {room : Nat} {bytes : List UInt8}
    {answer : PollResult (IoError E) Unit}
    (h : PollOutcome mayFail a r rest room bytes r' answer) :
    ∃ rest', ReaderAt mayFail a r' rest' := by
  cases h with
  | ok _ h _ => exact ⟨_, h⟩
  | pending _ h => exact ⟨_, h⟩
  | failed _ _ _ h => exact ⟨_, h⟩
  | crcMismatch _ _ _ h => exact ⟨_, h⟩
  | sizeMismatch _ _ _ h _ => exact ⟨_, h⟩

/-- The position does not matter for where a state stands. -/
theorem Stands.position {entries : List (ReaderEntry E)} {rs : ReadState}
    {slot : ReaderPinned E H} (h : Stands H mayFail a entries rs slot rest) (position : Nat) :
    Stands H mayFail a entries { rs with position } slot rest := by
  cases h with
  | staged hlocated hprocessed hskip hbound hheader =>
    exact .staged hlocated hprocessed hskip hbound hheader
  | ready hlocated hprocessed hempty => exact .ready hlocated hprocessed hempty
  | hashing hchunk hprocessed hempty hentry hm hcrc hsize hslot hskip =>
    exact .hashing hchunk hprocessed hempty hentry hm hcrc hsize hslot hskip
  | reading hchunk hempty hentry hm hk hbase hretried hshort hdata =>
    exact .reading hchunk hempty hentry hm hk hbase hretried hshort hdata

/-- A `poll_read` that returns: what it appended, where it leaves the reader, that it lost no CRC,
    and which entries it opened. -/
structure PollStep (mayFail : Prop) (a : Archive) (r : Reader E H) (rest : Tail UInt8)
    (buf : ReadBuf) (answer : PollResult (IoError E) Unit) (r' : Reader E H) (buf' : ReadBuf)
    (bytes : List UInt8) : Prop where
  output : buf.Extends bytes buf'
  sizes : r'.sizes = r.sizes
  caches : Caches r.entries r'.entries
  logs : (∀ e, answer ≠ .err e) → Logs a.members r.still r'.still
  nonempty : LogsNonempty a.members r.pinned.opened r'.pinned.opened
  outcome : PollOutcome mayFail a r rest buf.remaining bytes r' answer

/-- **A call of `poll_read`** stops only with an excused fault, and else moves the reader along the
    stream. -/
theorem pollRead_wp (h : ReaderAt mayFail a r rest) {ctx : E.Context} {fuel bound : Nat}
    {buf : ReadBuf} (hbound : ∀ m ∈ a.members, m.data.length ≤ bound)
    (hfuel : ¬ starved → r.readState.currentChunk.rank a.members.length + buf.remaining + bound <
      fuel) :
    Exec.wp (Excused mayFail (¬ a.Honest) starved) (fun (answer, r', buf') =>
      ∃ bytes, PollStep mayFail a r rest buf answer r' buf' bytes)
      (r.pollRead ctx fuel buf) := by
  have hlong : ¬ ¬ a.Honest → ∀ m ∈ a.members, m.Honest := fun hhonest => not_not.mp hhonest
  have hstream : InStream mayFail a ⟨r.readState, r.entries, r.pinned, buf⟩ rest :=
    ⟨h.stocked, h.stands⟩
  have hread : (read r.sizes ctx fuel).wp (Excused mayFail (¬ a.Honest) starved)
      (ReadOutcome mayFail a ⟨r.readState, r.entries, r.pinned, buf⟩ rest)
      ⟨r.readState, r.entries, r.pinned, buf⟩ :=
    read_wp h.sizes hstream hbound hfuel hlong (fun hhonest => h.position (not_not.mp hhonest))
  unfold Reader.pollRead
  rw [Exec.wp_bind]
  refine Exec.wp_mono hread (fun _ hf => hf) ?_
  rintro ⟨answer, s'⟩ houtcome
  -- the state after some progress, with a position that counts no more than was written
  have hat : ∀ {s' : Frame E H} {bytes : List UInt8} {rest' : Tail UInt8} (position : Nat),
      Progress mayFail a ⟨r.readState, r.entries, r.pinned, buf⟩ rest bytes s' rest' →
      position ≤ r.tell + bytes.length →
      ReaderAt mayFail a ⟨r.sizes, s'.entries, { s'.readState with position }, s'.pinned⟩ rest' := by
    intro s' bytes rest' position hprogress hle
    refine ⟨h.sizes, hprogress.standing.stocked, hprogress.standing.stands.position position,
      fun hhonest => ?_⟩
    have hfits := h.position hhonest
    have hlen := congrArg (fun t => t.items.length) hprogress.stream
    simp only [Tail.cons_items, List.length_append] at hlen
    show position + rest'.items.length < u64Bound
    omega
  have hsame : ∀ {s' : Frame E H} {bytes : List UInt8} {rest' : Tail UInt8},
      Progress mayFail a ⟨r.readState, r.entries, r.pinned, buf⟩ rest bytes s' rest' →
      ReaderAt mayFail a ⟨r.sizes, s'.entries, s'.readState, s'.pinned⟩ rest' := by
    intro s' bytes rest' hprogress
    have hposition : s'.readState.position = r.tell := hprogress.position
    exact hat s'.readState.position hprogress (by omega)
  -- what was logged does not depend on the buffer
  have hlogs : ∀ {s' : Frame E H} (position : Nat),
      Logs a.members ⟨r.readState, r.entries, r.pinned, buf⟩ s' → Logs a.members r.still
        (Reader.still ⟨r.sizes, s'.entries, { s'.readState with position }, s'.pinned⟩) := by
    intro s' position h
    obtain ⟨is, hnodup, hmem, hopened⟩ := h.grown
    refine ⟨?_, is, hnodup, ?_, hopened⟩
    · intro i hi
      exact (h.kept i (hi.congr rfl rfl rfl)).congr rfl rfl rfl
    · intro i hi
      obtain ⟨hlt, hnot, htouched⟩ := hmem i hi
      exact ⟨hlt, fun hi => hnot (hi.congr rfl rfl rfl), htouched.congr rfl rfl rfl⟩
  cases houtcome with
  | ok position hprogress hend hposition =>
    have hr' := hat position hprogress hposition
    have hlogs' := hlogs position hprogress.logs
    exact ⟨_, hprogress.output, rfl, hprogress.caches, fun _ => hlogs', hprogress.nonempty,
      .ok hprogress.stream hr' hend⟩
  | pending hprogress =>
    exact ⟨_, hprogress.output, rfl, hprogress.caches, fun _ => hlogs _ hprogress.logs,
      hprogress.nonempty, .pending rfl (hsame hprogress)⟩
  | failed e hfail hprogress =>
    have hr' := hsame hprogress
    exact ⟨_, hprogress.output, rfl, hprogress.caches, fun _ => hlogs _ hprogress.logs,
      hprogress.nonempty, .failed e hfail hprogress.stream hr'⟩
  | crcMismatch hm hcrc hprogress =>
    have hr' := hsame hprogress
    exact ⟨_, hprogress.output, rfl, hprogress.caches, fun _ => hlogs _ hprogress.logs,
      hprogress.nonempty, .crcMismatch hm hcrc rfl hr'⟩
  | sizeMismatch hm hsize houtput hstream hstanding hcaches hposition hnonempty hdata =>
    have hr' : ReaderAt mayFail a ⟨r.sizes, s'.entries, s'.readState, s'.pinned⟩ _ :=
      ⟨h.sizes, hstanding.stocked, hstanding.stands, fun hhonest => absurd (hhonest _ hm) hsize⟩
    exact ⟨_, houtput, rfl, hcaches, fun hok => absurd rfl (hok _), hnonempty,
      .sizeMismatch hm hsize hstream hr' hdata⟩

/-- A bound on the data of every member. -/
theorem length_data_le_sum (a : Archive) :
    ∀ m ∈ a.members, m.data.length ≤ (a.members.map (·.data.length)).sum :=
  fun _ hm => List.le_sum_of_mem (List.mem_map_of_mem (f := (·.data.length)) hm)

/-- When nothing fails, a `poll_read` with enough turns returns. -/
theorem exists_pollRead (h : ReaderAt mayFail a r rest) (hfail : ¬ mayFail) (hhonest : a.Honest)
    (ctx : E.Context) (buf : ReadBuf) :
    ∃ enough, ∀ fuel > enough, ∃ result, r.pollRead ctx fuel buf = .ok result := by
  refine ⟨r.readState.currentChunk.rank a.members.length + buf.remaining +
    (a.members.map (·.data.length)).sum, ?_⟩
  intro fuel hfuel
  have hwp : Exec.wp (Excused mayFail (¬ a.Honest) False) (fun (answer, r', buf') =>
      ∃ bytes, PollStep mayFail a r rest buf answer r' buf' bytes) (r.pollRead ctx fuel buf) :=
    pollRead_wp h (length_data_le_sum a) (fun _ => hfuel)
  -- no fault is left
  have hnone := not_excused hfail (not_not.mpr hhonest) (id : ¬ False)
  obtain ⟨result, heq, _⟩ :=
    Exec.exists_of_wp (Exec.wp_mono hwp (fun f hf => (hnone f hf).elim) (fun _ h => h))
  exact ⟨result, heq⟩

/-- When nothing fails, only the want of turns is excused. -/
theorem eq_outOfFuel_of_excused (hfail : ¬ mayFail) (hhonest : a.Honest) {f : Fault}
    (h : Excused mayFail (¬ a.Honest) starved f) : f = .outOfFuel := by
  cases f with
  | outOfFuel => rfl
  | polledAfterCompletion => exact absurd h hfail
  | overflow => exact absurd hhonest h
  | assertFailed => exact absurd h hfail
  | unreachable => exact h.elim
  | indexOutOfBounds => exact h.elim

/-- When nothing fails, a `poll_read` stops only for want of turns. -/
theorem eq_outOfFuel_of_pollRead (h : ReaderAt mayFail a r rest) (hfail : ¬ mayFail)
    (hhonest : a.Honest) {ctx : E.Context} {fuel : Nat} {buf : ReadBuf} {f : Fault}
    (hpoll : r.pollRead ctx fuel buf = .error f) : f = .outOfFuel := by
  have hwp : Exec.wp (Excused mayFail (¬ a.Honest) True) (fun (answer, r', buf') =>
      ∃ bytes, PollStep mayFail a r rest buf answer r' buf' bytes) (r.pollRead ctx fuel buf) :=
    pollRead_wp h (length_data_le_sum a) (fun hs => absurd trivial hs)
  exact eq_outOfFuel_of_excused hfail hhonest (Exec.wp_of_eq_error hwp hpoll)

/-- A `poll_read` in a run. -/
theorem pollRead_step (h : ReaderAt mayFail a r rest) {ctx : E.Context} {fuel : Nat}
    {buf buf' : ReadBuf} {answer : PollResult (IoError E) Unit}
    (hpoll : r.pollRead ctx fuel buf = .ok (answer, r', buf')) :
    ∃ bytes, PollStep mayFail a r rest buf answer r' buf' bytes := by
  have hwp : Exec.wp (Excused mayFail (¬ a.Honest) True) (fun (answer, r', buf') =>
      ∃ bytes, PollStep mayFail a r rest buf answer r' buf' bytes) (r.pollRead ctx fuel buf) :=
    pollRead_wp h (length_data_le_sum a) (fun hs => absurd trivial hs)
  have hpost := Exec.wp_of_eq_ok hwp hpoll
  exact hpost

/-- The bytes left after an offset of an honest archive. -/
theorem length_tailAt_segments_le (hhonest : a.Honest) (k : Nat) :
    k + (tailAt (segments H a.members) k).items.length ≤
      max k (layoutSizes a.members).totalSize := by
  have hle : ∀ seg ∈ segments H a.members, seg.items.length ≤ seg.size := by
    intro seg hseg
    rcases mem_segments hseg with ⟨items, rfl⟩ | ⟨m, hm, rfl⟩
    · exact Nat.le_refl _
    · exact Nat.le_of_eq (hhonest m hm)
  have hlen := length_tailAt_le hle k
  rw [sum_size_segments] at hlen
  omega

/-- A seek in a run. -/
theorem seekFromStart_step (hsizes : r.sizes = layoutSizes a.members)
    (hstocked : Stocked H mayFail a.members r.entries) {offset : Nat} (hoffset : offset < u64Bound) :
    ∃ r', r.seekFromStart offset = .ok r' ∧ r'.entries = r.entries ∧ r'.tell = offset ∧
      ReaderAt mayFail a r' (tailAt (segments H a.members) offset) := by
  obtain ⟨rs', hseek, hposition, hstands⟩ :=
    seekFromStart_spec r.readState hsizes hstocked.listed offset
  unfold Reader.seekFromStart
  rw [hseek]
  refine ⟨_, rfl, rfl, hposition, hsizes, hstocked, hstands, fun hhonest => ?_⟩
  have hle := length_tailAt_segments_le (H := H) hhonest offset
  have hfits := a.fits
  show rs'.position + _ < u64Bound
  omega

/-- A reader that was sought. -/
theorem ReaderAt.sought {offset : Nat} (h : ReaderAt mayFail a r rest) (hoffset : offset < u64Bound)
    (hseek : r.seekFromStart offset = .ok r') : r'.entries = r.entries ∧ r'.tell = offset ∧
      ReaderAt mayFail a r' (tailAt (segments H a.members) offset) := by
  obtain ⟨r₁, hseek', hsought⟩ := seekFromStart_step h.sizes h.stocked hoffset
  rw [hseek] at hseek'
  cases hseek'
  exact hsought

/-- **A fresh reader stands at the start of its stream.** -/
theorem ReaderAt.new {entries : List (ReaderEntry E)}
    (hstocked : Stocked H mayFail a.members entries) :
    ReaderAt mayFail a (.new (layoutSizes a.members) entries : Reader E H)
      (tailAt (segments H a.members) 0) := by
  refine ⟨rfl, hstocked, ?_, fun hhonest => ?_⟩
  · -- the first chunk is that of the first segment
    have hchunk : (ReadState.new entries).currentChunk =
        if a.members.isEmpty then .eocd else .localHeader 0 := chunkNew_eq hstocked.length
    have hready : Stands H mayFail a entries (.new entries) .nothing
        (tailAt (segmentsFrom H a.members (ReadState.new entries).currentChunk) 0) := by
      refine .ready ?_ rfl rfl
      rw [hchunk]
      cases a.members with
      | nil => trivial
      | cons m ms => exact Nat.zero_lt_succ _
    rw [hchunk, segmentsFrom_new] at hready
    exact hready
  · have hle := length_tailAt_segments_le (H := H) hhonest 0
    have hfits := a.fits
    show 0 + _ < u64Bound
    omega

/-- **Every run stays in the stream**, errors included. -/
theorem Steps.readerAt {ops : List (Op E)} (h : ReaderAt mayFail a r rest)
    (hsteps : Steps r ops r') : ∃ rest', ReaderAt mayFail a r' rest' := by
  refine hsteps.invariant (fun _ r' => ∃ rest', ReaderAt mayFail a r' rest') ⟨rest, h⟩ ?_
  rintro _ r₁ op r₂ ⟨rest', h₁⟩ hstep
  cases op with
  | pollRead ctx buf answer buf' =>
    obtain ⟨fuel, hpoll⟩ := hstep
    obtain ⟨bytes, hpolled⟩ := pollRead_step h₁ hpoll
    exact hpolled.outcome.readerAt
  | seek offset =>
    obtain ⟨hoffset, hseek⟩ := hstep
    exact ⟨_, (h₁.sought hoffset hseek).2.2⟩

/-- **No run loses a CRC** that was known. -/
theorem Steps.caches {ops : List (Op E)} (h : ReaderAt mayFail a r rest)
    (hsteps : Steps r ops r') : Caches r.entries r'.entries := by
  have hinv := hsteps.invariant
    (fun _ r' => Caches r.entries r'.entries ∧ ∃ rest', ReaderAt mayFail a r' rest')
    ⟨.refl _, rest, h⟩
  refine (hinv ?_).1
  rintro _ r₁ op r₂ ⟨hcaches, rest₁, h₁⟩ hstep
  have hrun : Steps r₁ [op] r₂ := .snoc .nil hstep
  refine ⟨?_, Steps.readerAt h₁ hrun⟩
  cases op with
  | pollRead ctx buf answer buf' =>
    obtain ⟨fuel, hpoll⟩ := hstep
    obtain ⟨bytes, hpolled⟩ := pollRead_step h₁ hpoll
    exact hcaches.trans hpolled.caches
  | seek offset =>
    obtain ⟨hoffset, hseek⟩ := hstep
    rw [(h₁.sought hoffset hseek).1]
    exact hcaches

/-- A seek calls nothing. -/
theorem opened_of_seekFromStart {offset : Nat} (h : r.seekFromStart offset = .ok r') :
    r'.pinned.opened = r.pinned.opened := by
  obtain ⟨rs', _, hr'⟩ := Exec.bind_eq_ok h
  cases hr'
  rfl

/-- **No run opens an entry without data.** -/
theorem Steps.nonempty {ops : List (Op E)} (h : ReaderAt mayFail a r rest)
    (hsteps : Steps r ops r') : LogsNonempty a.members r.pinned.opened r'.pinned.opened := by
  have hinv := hsteps.invariant (fun _ r' =>
    LogsNonempty a.members r.pinned.opened r'.pinned.opened ∧ ∃ rest', ReaderAt mayFail a r' rest')
    ⟨.refl _, rest, h⟩
  refine (hinv ?_).1
  rintro _ r₁ op r₂ ⟨hlogged, rest₁, h₁⟩ hstep
  have hrun : Steps r₁ [op] r₂ := .snoc .nil hstep
  refine ⟨?_, Steps.readerAt h₁ hrun⟩
  cases op with
  | pollRead ctx buf answer buf' =>
    obtain ⟨fuel, hpoll⟩ := hstep
    obtain ⟨bytes, hpolled⟩ := pollRead_step h₁ hpoll
    exact hlogged.trans hpolled.nonempty
  | seek offset =>
    rw [opened_of_seekFromStart hstep.2]
    exact hlogged

/-- **A run without seeks and errors** opens no entry twice. -/
theorem Steps.logs {ops : List (Op E)} (h : ReaderAt mayFail a r rest) (hsteps : Steps r ops r')
    (hpolls : ∀ op ∈ ops, op.isPoll = true) (hok : ∀ op ∈ ops, op.succeeds = true) :
    Logs a.members r.still r'.still := by
  have hinv := hsteps.invariant_of (fun op => op.isPoll = true ∧ op.succeeds = true)
    (fun op hop => ⟨hpolls op hop, hok op hop⟩)
    (fun _ r' => Logs a.members r.still r'.still ∧ ∃ rest', ReaderAt mayFail a r' rest')
    ⟨.refl _ _, rest, h⟩
  refine (hinv ?_).1
  rintro _ r₁ op r₂ ⟨hlogged, rest₁, h₁⟩ ⟨hpoll, hsucceeds⟩ hstep
  have hrun : Steps r₁ [op] r₂ := .snoc .nil hstep
  refine ⟨?_, Steps.readerAt h₁ hrun⟩
  cases op with
  | seek offset => cases hpoll
  | pollRead ctx buf answer buf' =>
    obtain ⟨fuel, hcall⟩ := hstep
    obtain ⟨bytes, hpolled⟩ := pollRead_step h₁ hcall
    apply hlogged.trans
    apply hpolled.logs
    rintro e rfl
    cases hsucceeds

/-- A part of a run begins in the stream at its offset. -/
theorem BeginsAt.readerAt {before : List (Op E)} {offset : Nat} (hbegin : BeginsAt before offset)
    (h : ReaderAt mayFail a r (tailAt (segments H a.members) 0)) (hsteps : Steps r before r') :
    ReaderAt mayFail a r' (tailAt (segments H a.members) offset) := by
  generalize hbefore : before = all at hsteps
  cases hbegin with
  | start =>
    cases hsteps with
    | nil => exact h
    | snoc => simp at hbefore
  | seek ops =>
    subst hbefore
    obtain ⟨r₁, hrun, hoffset, hseek⟩ := hsteps.snoc_inv
    obtain ⟨rest, h₁⟩ := Steps.readerAt h hrun
    exact (h₁.sought hoffset hseek).2.2

/-- **A run without seeks and errors** delivers the stream, piece by piece. -/
theorem Steps.stream {ops : List (Op E)} (h : ReaderAt mayFail a r rest) (hsteps : Steps r ops r')
    (hpolls : ∀ op ∈ ops, op.isPoll = true) (hok : ∀ op ∈ ops, op.succeeds = true) :
    ∃ rest', rest = .cons (deliveredBytes ops) rest' ∧ ReaderAt mayFail a r' rest' := by
  apply hsteps.invariant_of (fun op => op.isPoll = true ∧ op.succeeds = true)
    (fun op hop => ⟨hpolls op hop, hok op hop⟩)
    (fun ops r' => ∃ rest', rest = .cons (deliveredBytes ops) rest' ∧ ReaderAt mayFail a r' rest')
  · exact ⟨rest, rfl, h⟩
  · rintro ops r₁ op r₂ ⟨rest₁, hstream, h₁⟩ ⟨hpoll, hop⟩ hstep
    rw [deliveredBytes_snoc]
    cases op with
    | seek offset => cases hpoll
    | pollRead ctx buf answer buf' =>
      obtain ⟨fuel, hcall⟩ := hstep
      obtain ⟨bytes, hpolled⟩ := pollRead_step h₁ hcall
      cases answer with
      | err e => cases hop
      | pending =>
        cases hpolled.outcome with
        | pending _ h₂ => exact ⟨rest₁, by simpa [Op.delivered] using hstream, h₂⟩
      | ok =>
        cases hpolled.outcome with
        | @ok rest₂ hstream' h₂ _ =>
          refine ⟨rest₂, ?_, h₂⟩
          show rest = .cons (deliveredBytes ops ++ buf'.filled.drop buf.filled.length) rest₂
          rw [hpolled.output.drop_filled, Tail.cons_append, ← hstream', hstream]

/-- At its end a reader has nothing left. -/
theorem ReaderAt.eq_done (h : ReaderAt mayFail a r rest) (hend : r.AtEnd) : rest = .done := by
  obtain ⟨ctx, fuel, buf, r', hroom, hpoll⟩ := hend
  obtain ⟨bytes, hpolled⟩ := pollRead_step h hpoll
  have hnil : bytes = [] := hpolled.output.eq_nil_iff.mpr rfl
  subst hnil
  cases hpolled.outcome with
  | ok hstream _ hdone => rw [hstream, hdone hroom rfl, Tail.cons_nil]

end Steps

/-! ### Sound archives

    When every member has its announced size and a right CRC, the stream is the
    archive and positions in it are offsets. -/

section Sound
variable {mayFail : Prop} {a : Archive} {r r' : Reader E H}

/-- A `poll_read` at offset `q` of a sound archive. -/
structure SoundStep (mayFail : Prop) (a : Archive) (q room : Nat) (bytes : List UInt8)
    (answer : PollResult (IoError E) Unit) (r' : Reader E H) : Prop where
  bytes_eq : bytes = ((archiveBytes a.members).drop q).take bytes.length
  readerAt : ReaderAt mayFail a r' (tailAt (segments H a.members) (q + bytes.length))
  finished : answer = .ok () → 0 < room → (bytes = [] ↔ (archiveBytes a.members).length ≤ q)
  pending : answer = .pending → bytes = []
  failed : ∀ e, answer = .err e → mayFail

/-- **A call of `poll_read` at offset `q` of a sound archive** moves on by what it appended. -/
theorem PollStep.sound (hsound : ∀ m ∈ a.members, m.Sound H) {q : Nat} {buf buf' : ReadBuf}
    {answer : PollResult (IoError E) Unit} {bytes : List UInt8}
    (h : PollStep mayFail a r (tailAt (segments H a.members) q) buf answer r' buf' bytes) :
    SoundStep mayFail a q buf.remaining bytes answer r' := by
  have hrest := tailAt_segments_of_sound hsound q
  -- what is left behind the bytes is the archive from a later offset on
  have hsplit : ∀ {rest' : Tail UInt8}, tailAt (segments H a.members) q = .cons bytes rest' →
      bytes = ((archiveBytes a.members).drop q).take bytes.length ∧
        rest' = tailAt (segments H a.members) (q + bytes.length) := by
    intro rest' hstream
    rw [hrest] at hstream
    have hitems : (archiveBytes a.members).drop q = bytes ++ rest'.items :=
      congrArg Tail.items hstream
    have hcomplete : true = rest'.complete := congrArg Tail.complete hstream
    refine ⟨by rw [hitems, List.take_left], ?_⟩
    rw [tailAt_segments_of_sound hsound, ← List.drop_drop, hitems, List.drop_left, hcomplete]
  cases h.outcome with
  | ok hstream hr' hend =>
    obtain ⟨hbytes, rfl⟩ := hsplit hstream
    refine ⟨hbytes, hr', fun _ hroom => ⟨fun hnil => ?_, fun hpast => ?_⟩, by simp, by simp⟩
    · have hdone := hend hroom hnil
      rw [hnil, List.length_nil, Nat.add_zero, hrest] at hdone
      exact List.drop_eq_nil_iff.mp (congrArg Tail.items hdone)
    · rw [hbytes, List.drop_eq_nil_of_le hpast, List.take_nil]
  | pending hnil hr' =>
    subst hnil
    exact ⟨by simp, hr', by simp, fun _ => rfl, by simp⟩
  | failed e hfail hstream hr' =>
    obtain ⟨hbytes, rfl⟩ := hsplit hstream
    exact ⟨hbytes, hr', by simp, by simp, fun _ _ => hfail⟩
  | crcMismatch hm hcrc _ _ => exact absurd (hsound _ hm).crc hcrc
  | sizeMismatch hm hsize _ _ _ => exact absurd (hsound _ hm).honest hsize

/-- In a sound archive whose sources do not fail every call succeeds. -/
theorem Steps.succeeds (hsound : ∀ m ∈ a.members, m.Sound H) {rest : Tail UInt8}
    {ops : List (Op E)} (h : ReaderAt False a r rest) (hsteps : Steps r ops r') :
    ∀ op ∈ ops, op.succeeds = true := by
  have hinv := hsteps.invariant
    (fun ops r' => (∀ op ∈ ops, op.succeeds = true) ∧ ∃ rest', ReaderAt False a r' rest')
    ⟨by simp, rest, h⟩
  refine (hinv ?_).1
  rintro ops r₁ op r₂ ⟨hops, rest₁, h₁⟩ hstep
  have hrun : Steps r₁ [op] r₂ := .snoc .nil hstep
  refine ⟨fun op' hop' => ?_, Steps.readerAt h₁ hrun⟩
  rcases List.mem_append.mp hop' with hold | hnew
  · exact hops op' hold
  · obtain rfl := List.mem_singleton.mp hnew
    cases op' with
    | seek offset => rfl
    | pollRead ctx buf answer buf' =>
      obtain ⟨fuel, hcall⟩ := hstep
      obtain ⟨bytes, hpolled⟩ := pollRead_step h₁ hcall
      cases hpolled.outcome with
      | ok _ _ _ => rfl
      | pending _ _ => rfl
      | failed _ hfail _ _ => exact hfail.elim
      | crcMismatch hm hcrc _ _ => exact absurd (hsound _ hm).crc hcrc
      | sizeMismatch hm hsize _ _ _ => exact absurd (hsound _ hm).honest hsize

end Sound

end Model

end Zippity
