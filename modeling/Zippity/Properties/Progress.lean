import Mathlib.Data.List.Perm.Subperm
import Zippity.Properties.Delivery
import Zippity.Properties.Opening
import Zippity.Reader.Slot

/-! # Readers get to the end

    A source may suspend a poll, but not for ever: from `get_reader` on it is
    pending only so many times.  Every `Pending` of a reader is one of a source,
    and every other poll with room delivers a byte or is at the end, so a caller
    that keeps polling reads the whole archive.
-/

namespace Zippity

open Framework Async

section Model
variable {E : EntryData} {H : Crc32Fast}

/-! ### Patience -/

/-- Sources that are pending at most `limit` times from `get_reader` on: how often a future or a
    reader will be pending still. -/
structure Patience (E : EntryData) (limit : Nat) where
  future : E.Future → Nat
  reader : E.Reader → Nat
  getReader : ∀ d, future (E.getReader d) ≤ limit
  poll : ∀ f ctx, future (E.poll f ctx).2 ≤ future f
  pollOk : ∀ f ctx r f', E.poll f ctx = (.ok r, f') → reader r ≤ future f
  pollPending : ∀ f ctx f', E.poll f ctx = (.pending, f') → future f' < future f
  pollRead : ∀ r d ctx buf, reader (E.pollRead r d ctx buf).2 ≤ reader r
  pollReadPending : ∀ r d ctx buf r', E.pollRead r d ctx buf = (.pending, r') → reader r' < reader r
  startSeek : ∀ r d pos, reader (E.startSeek r d pos).2 ≤ reader r
  pollSeek : ∀ r d ctx, reader (E.pollSeekComplete r d ctx).2 ≤ reader r
  pollSeekPending : ∀ r d ctx r', E.pollSeekComplete r d ctx = (.pending, r') → reader r' < reader r

/-- How often what is kept in the slot will be pending still. -/
def Patience.left {limit : Nat} (p : Patience E limit) : ReaderPinned E H → Nat
  | .nothing => 0
  | .readerFuture future _ => p.future future
  | .fileReader reader => p.reader reader.innerReader

/-- How often the sources opened so far can have been pending. -/
def Patience.spent {limit : Nat} (p : Patience E limit) (pinned : Pinned E H) : Int :=
  limit * pinned.opened.length - p.left pinned.slot

section Patience
variable {limit : Nat} (p : Patience E limit) {ctx : E.Context}

theorem CrcReader.pollRead_patience (ctx : E.Context) (reader : CrcReader E H) (data : E.Data)
    (buf : ReadBuf) :
    p.reader (reader.pollRead data ctx buf).2.innerReader ≤ p.reader reader.innerReader ∧
      ((reader.pollRead data ctx buf).1 = .pending →
        p.reader (reader.pollRead data ctx buf).2.innerReader < p.reader reader.innerReader) := by
  have hread := p.pollRead reader.innerReader data ctx buf
  have hpending := p.pollReadPending reader.innerReader data ctx buf
  unfold CrcReader.pollRead EntryData.pollReadInto
  generalize E.pollRead reader.innerReader data ctx buf = answer at hread hpending ⊢
  rcases answer with ⟨_ | e | bytes, inner⟩
  · exact ⟨hread, fun _ => hpending inner rfl⟩
  · exact ⟨hread, fun heq => by cases heq⟩
  · exact ⟨hread, fun heq => by cases heq⟩

theorem CrcReader.pollSeekComplete_patience (ctx : E.Context) (reader : CrcReader E H)
    (data : E.Data) :
    p.reader (reader.pollSeekComplete data ctx).2.innerReader ≤ p.reader reader.innerReader ∧
      ((reader.pollSeekComplete data ctx).1 = .pending →
        p.reader (reader.pollSeekComplete data ctx).2.innerReader < p.reader reader.innerReader) := by
  have hseek := p.pollSeek reader.innerReader data ctx
  have hpending := p.pollSeekPending reader.innerReader data ctx
  unfold CrcReader.pollSeekComplete
  generalize E.pollSeekComplete reader.innerReader data ctx = answer at hseek hpending ⊢
  rcases answer with ⟨_ | e | pos, inner⟩
  · exact ⟨hseek, fun _ => hpending inner rfl⟩
  · exact ⟨hseek, fun heq => by cases heq⟩
  · exact ⟨hseek, fun heq => by cases heq⟩

theorem CrcReader.seek_patience (ctx : E.Context) (reader : CrcReader E H) (data : E.Data)
    (pos : SeekFrom) :
    p.reader (reader.seek data ctx pos).2.innerReader ≤ p.reader reader.innerReader ∧
      ((reader.seek data ctx pos).1 = .pending →
        p.reader (reader.seek data ctx pos).2.innerReader < p.reader reader.innerReader) := by
  unfold CrcReader.seek
  split
  · exact CrcReader.pollSeekComplete_patience p ctx reader data
  · have hstart := p.startSeek reader.innerReader data pos
    unfold CrcReader.startSeek
    generalize E.startSeek reader.innerReader data pos = answer at hstart ⊢
    rcases answer with ⟨e | _, inner⟩
    · exact ⟨hstart, fun heq => by cases heq⟩
    · -- a seek is pending in its second phase only
      have hcomplete := CrcReader.pollSeekComplete_patience p ctx
        { reader with innerReader := inner, didSeek := true, seekInProgress := true } data
      exact ⟨Nat.le_trans hcomplete.1 hstart,
        fun hpending => Nat.lt_of_lt_of_le (hcomplete.2 hpending) hstart⟩

/-- What is dropped is not pending any more. -/
theorem Patience.spent_nothing (slot : ReaderPinned E H) (opened : List Name) :
    p.spent ⟨slot, opened⟩ ≤ p.spent (⟨.nothing, opened⟩ : Pinned E H) := by
  simp only [Patience.spent, Patience.left]
  omega

/-- **A pending source spends patience**, and nothing gives it back. -/
theorem Patience.slotRelations : SlotRelations (H := H) ctx
    (fun pinned pinned' => p.spent pinned ≤ p.spent pinned')
    (fun pinned pinned' => p.spent pinned < p.spent pinned') where
  refl _ := le_refl _
  trans _ _ _ := le_trans
  after _ _ _ := lt_of_le_of_lt
  opens opened name data := by
    have hlimit := p.getReader data
    simp only [Patience.spent, Patience.left, List.length_append, List.length_singleton]
    push_cast
    rw [mul_add, mul_one]
    omega
  empties := p.spent_nothing
  polls future future' opened hpoll := by
    have hpending := p.pollPending future ctx future' hpoll
    simp only [Patience.spent, Patience.left]
    omega
  pollsErr future e future' opened hpoll := by
    have hle : p.future (E.poll future ctx).2 ≤ p.future future := p.poll future ctx
    rw [hpoll] at hle
    dsimp only at hle
    simp only [Patience.spent, Patience.left]
    omega
  pollsOk future reader future' opened hpoll := by
    have hreader := p.pollOk future ctx reader future' hpoll
    simp only [Patience.spent, Patience.left, CrcReader.new]
    omega
  pollsPending future future' opened hpoll := by
    have hpending := p.pollPending future ctx future' hpoll
    simp only [Patience.spent, Patience.left]
    omega
  reads reader data buf opened := by
    have hread := (CrcReader.pollRead_patience p ctx reader data buf).1
    simp only [Patience.spent, Patience.left]
    omega
  readsPending reader data buf reader' opened hread := by
    have hpending := (CrcReader.pollRead_patience p ctx reader data buf).2
    rw [hread] at hpending
    have hlt : p.reader reader'.innerReader < p.reader reader.innerReader := hpending rfl
    simp only [Patience.spent, Patience.left]
    omega
  seeks reader data pos opened := by
    have hseek := (CrcReader.seek_patience p ctx reader data pos).1
    simp only [Patience.spent, Patience.left]
    omega
  seeksPending reader data pos reader' opened hseek := by
    have hpending := (CrcReader.seek_patience p ctx reader data pos).2
    rw [hseek] at hpending
    have hlt : p.reader reader'.innerReader < p.reader reader.innerReader := hpending rfl
    simp only [Patience.spent, Patience.left]
    omega

end Patience

/-! ### Runs -/

/-- The operation was answered `Pending`. -/
def Op.isPending : Op E → Bool
  | .pollRead _ _ .pending _ => true
  | _ => false

/-- What a caller asks for with a `poll_read`. -/
def Op.request : Op E → Option (E.Context × ReadBuf)
  | .pollRead ctx buf _ _ => some (ctx, buf)
  | .seek _ => none

section Runs
variable {limit : Nat} {content : E.Data → List UInt8} {b : Builder E} {r r' : Reader E H}
  {a : Archive} {ops : List (Op E)}

/-- Along a run every `Pending` spends patience. -/
theorem Patience.spent_of_run (p : Patience E limit) (hsteps : Steps r ops r') :
    p.spent r.pinned + ops.countP Op.isPending ≤ p.spent r'.pinned := by
  apply hsteps.invariant (fun ops r' => p.spent r.pinned + ops.countP Op.isPending ≤
    p.spent r'.pinned)
  · simp
  · intro ops r₁ op r₂ hspent hstep
    rw [List.countP_append, List.countP_singleton]
    cases op with
    | pollRead ctx buf answer buf' =>
      obtain ⟨fuel, hpoll⟩ := hstep
      obtain ⟨hmoved, hpending⟩ := p.slotRelations.pollRead hpoll
      cases answer with
      | pending =>
        have hlt := hpending rfl
        simp only [Op.isPending, if_true]
        omega
      | ok => simpa [Op.isPending] using le_trans hspent hmoved
      | err e => simpa [Op.isPending] using le_trans hspent hmoved
    | seek offset =>
      obtain ⟨_, hseek⟩ := hstep
      obtain ⟨rs, _, hr⟩ := Exec.bind_eq_ok hseek
      cases hr
      -- what the reader waited for is dropped
      have hmoved := le_trans hspent (p.spent_nothing r₁.pinned.slot r₁.pinned.opened)
      simpa [Op.isPending] using hmoved

/-- **Suspensions are paid for**: in every run, with seeks and whatever the data, a reader is
    pending no more often than the sources that it opened can be. -/
theorem suspensions_paid (p : Patience E limit) {sizes : Sizes} {entries : List (ReaderEntry E)}
    (hsteps : Steps (.new sizes entries : Reader E H) ops r') :
    ops.countP Op.isPending ≤ limit * r'.pinned.opened.length := by
  have hspent := p.spent_of_run hsteps
  have hnew : (Reader.new sizes entries : Reader E H).pinned = .new := rfl
  rw [hnew] at hspent
  simp only [Patience.spent, Patience.left, Pinned.new, List.length_nil] at hspent
  have hcast : ((limit * r'.pinned.opened.length : Nat) : Int) =
      limit * r'.pinned.opened.length := Int.natCast_mul _ _
  omega

/-- Polls without errors open every entry at most once. -/
theorem Steps.length_opened_le {mayFail : Prop} {rest : Tail UInt8} (h : ReaderAt mayFail a r rest)
    (hsteps : Steps r ops r') (hpolls : ∀ op ∈ ops, op.isPoll = true)
    (hok : ∀ op ∈ ops, op.succeeds = true) :
    r'.pinned.opened.length ≤ r.pinned.opened.length + a.members.length := by
  obtain ⟨is, hnodup, hmem, hopened⟩ := (Steps.logs h hsteps hpolls hok).grown
  have hsubset : is ⊆ List.range a.members.length := by
    intro i hi
    exact List.mem_range.mpr (hmem i hi).1
  have hle := (List.subperm_of_subset hnodup hsubset).length_le
  rw [List.length_range] at hle
  have hlen := congrArg List.length hopened
  rw [List.length_append, List.length_map] at hlen
  exact hlen.trans_le (Nat.add_le_add_left hle _)

/-- So they are pending no more often than the source in the slot and one for every entry. -/
theorem Patience.countP_le_of_polls (p : Patience E limit) {mayFail : Prop} {rest : Tail UInt8}
    (h : ReaderAt mayFail a r rest) (hsteps : Steps r ops r')
    (hpolls : ∀ op ∈ ops, op.isPoll = true) (hok : ∀ op ∈ ops, op.succeeds = true) :
    ops.countP Op.isPending ≤ p.left r.pinned.slot + limit * a.members.length := by
  have hspent := p.spent_of_run hsteps
  have hopened := Nat.mul_le_mul_left limit (Steps.length_opened_le h hsteps hpolls hok)
  rw [Nat.mul_add] at hopened
  unfold Patience.spent at hspent
  have hcast (count : Nat) : ((limit * count : Nat) : Int) = limit * count := Int.natCast_mul _ _
  rw [← hcast, ← hcast] at hspent
  omega

/-- What was delivered after some polls of a reader of `Z`, how many of them were pending, and
    whether all of `Z` was delivered. -/
structure PaidPolls (Z : List UInt8) (ops : List (Op E)) : Prop where
  delivered : deliveredBytes ops = Z.take (deliveredBytes ops).length
  /-- A poll is pending or delivers a byte. -/
  paid : ops.length ≤ (deliveredBytes ops).length + ops.countP Op.isPending ∨ deliveredBytes ops = Z

/-- One more poll. -/
theorem PaidPolls.snoc {Z bytes : List UInt8} {op : Op E} (h : PaidPolls Z ops)
    (hdelivered : op.delivered = bytes)
    (hbytes : bytes = (Z.drop (deliveredBytes ops).length).take bytes.length)
    (hend : op.isPending = false → bytes = [] → Z.length ≤ (deliveredBytes ops).length) :
    PaidPolls Z (ops ++ [op]) := by
  have hgrown : deliveredBytes (ops ++ [op]) = deliveredBytes ops ++ bytes := by
    rw [deliveredBytes_snoc, hdelivered]
  have hall : deliveredBytes ops = Z → bytes = [] := by
    intro hall
    rw [hall, List.drop_length, List.take_nil] at hbytes
    exact hbytes
  constructor
  · rw [hgrown, List.length_append, List.take_add, ← hbytes, ← h.delivered]
  · rw [hgrown, List.length_append, List.length_append, List.countP_append, List.countP_singleton]
    rcases h.paid with hpaid | hdone
    · by_cases hpending : op.isPending = true
      · left
        rw [if_pos hpending, List.length_singleton]
        omega
      · by_cases hnil : bytes = []
        · -- nothing more comes, so this was all
          right
          have hle := hend (by simpa using hpending) hnil
          rw [hnil, List.append_nil, h.delivered, List.take_of_length_le hle]
        · left
          have hpos := List.length_pos_iff.mpr hnil
          rw [List.length_singleton]
          omega
    · right
      rw [hall hdone, List.append_nil, hdone]

/-- **Every poll with room pays.** -/
theorem Built.paidPolls (h : Built content b r a) (hdeliver : b.Delivering content False)
    (hsound : ∀ m ∈ a.members, m.Sound H) (hsteps : Steps r ops r')
    (hroom : ∀ op ∈ ops, ∃ ctx buf, op.request = some (ctx, buf) ∧ 0 < buf.remaining) :
    PaidPolls (archiveBytes a.members) ops := by
  have hrun := hsteps.invariant_of
    (fun op => ∃ ctx buf, op.request = some (ctx, buf) ∧ 0 < buf.remaining) hroom
    (fun ops r' => PaidPolls (archiveBytes a.members) ops ∧
      ReaderAt False a r' (tailAt (segments H a.members) (deliveredBytes ops).length))
    ⟨⟨rfl, .inl (Nat.zero_le _)⟩, h.start hdeliver⟩ ?_
  · exact hrun.1
  · rintro ops r₁ op r₂ ⟨hpaid, hat⟩ ⟨ctx, buf, hrequest, hpos⟩ hstep
    cases op with
    | seek offset => cases hrequest
    | pollRead ctx' buf₀ answer buf' =>
      cases hrequest
      obtain ⟨fuel, hpoll⟩ := hstep
      obtain ⟨bytes, hpolled⟩ := pollRead_step hat hpoll
      have hstep := hpolled.sound hsound
      have hdelivered : (Op.pollRead ctx buf answer buf').delivered = bytes := by
        cases answer with
        | ok => exact hpolled.output.drop_filled
        | pending => exact (hstep.pending rfl).symm
        | err e => exact (hstep.failed e rfl).elim
      refine ⟨hpaid.snoc hdelivered hstep.bytes_eq ?_, ?_⟩
      · intro hpending hnil
        cases answer with
        | ok => exact (hstep.finished rfl hpos).mp hnil
        | pending => cases hpending
        | err e => exact (hstep.failed e rfl).elim
      · rw [deliveredBytes_snoc, hdelivered, List.length_append]
        exact hstep.readerAt

/-- **Readers get to the end**: whatever a caller polls with, as long as there is room, it can go on
    polling, and after as many polls as the archive has bytes and the sources can be pending it has
    read all of the archive. -/
theorem reads_get_to_the_end (p : Patience E limit) (hb : b.Reached) (hbuild : b.build = .ok r)
    (hdeliver : b.Delivering content False) (hhonest : b.HonestSizes content)
    (hcrcs : b.RightCrcs content H) (polls : List (E.Context × ReadBuf))
    (hroom : ∀ poll ∈ polls, 0 < poll.2.remaining) :
    (∃ ops r', Steps r ops r' ∧ ops.map Op.request = polls.map some) ∧
    ∀ ops r', Steps r ops r' → ops.map Op.request = polls.map some →
      r.size + limit * b.entries.entries.length < polls.length →
      deliveredBytes ops = archiveBytes (r.members content) := by
  obtain ⟨a, hbuilt⟩ := hb.built content hbuild
  have hsound := hbuilt.sound hhonest hcrcs
  have hstart := hbuilt.start hdeliver
  constructor
  · clear hroom
    induction polls using List.reverseRecOn with
    | nil => exact ⟨[], r, .nil, rfl⟩
    | append_singleton polls poll ih =>
      obtain ⟨ops, r', hsteps, hops⟩ := ih
      obtain ⟨rest, hat⟩ := Steps.readerAt hstart hsteps
      obtain ⟨enough, hreturns⟩ := exists_pollRead hat id (hbuilt.honest hhonest) poll.1 poll.2
      obtain ⟨⟨answer, r'', buf'⟩, hpoll⟩ := hreturns (enough + 1) (Nat.lt_succ_self _)
      have hstep : readerSystem.step r' (.pollRead poll.1 poll.2 answer buf') r'' := ⟨_, hpoll⟩
      refine ⟨ops ++ [.pollRead poll.1 poll.2 answer buf'], r'', .snoc hsteps hstep, ?_⟩
      rw [List.map_append, List.map_append, hops]
      rfl
  · intro ops r' hsteps hops hlong
    rw [← hbuilt.members]
    have hrequest : ∀ op ∈ ops, ∃ poll ∈ polls, op.request = some poll := by
      intro op hop
      have hmem := List.mem_map_of_mem (f := Op.request) hop
      rw [hops] at hmem
      obtain ⟨poll, hpoll, heq⟩ := List.mem_map.mp hmem
      exact ⟨poll, hpoll, heq.symm⟩
    have hpolls : ∀ op ∈ ops, op.isPoll = true := by
      intro op hop
      obtain ⟨poll, _, heq⟩ := hrequest op hop
      cases op with
      | pollRead => rfl
      | seek offset => cases heq
    have hpaid := hbuilt.paidPolls hdeliver hsound hsteps (by
      intro op hop
      obtain ⟨poll, hpoll, heq⟩ := hrequest op hop
      exact ⟨poll.1, poll.2, heq, hroom poll hpoll⟩)
    refine hpaid.paid.resolve_left ?_
    -- too many polls for the bytes and the suspensions
    have hlen : ops.length = polls.length := by simpa using congrArg List.length hops
    have hpending := p.countP_le_of_polls hstart hsteps hpolls (Steps.succeeds hsound hstart hsteps)
    have hempty : p.left r.pinned.slot = 0 := by
      rw [hbuilt.reader]
      rfl
    have hcount : a.members.length = b.entries.entries.length := by
      rw [hbuilt.members, List.length_map, hbuilt.sources.length_eq]
    rw [hempty, hcount] at hpending
    have hsize : (archiveBytes a.members).length = r.size := by
      rw [length_archiveBytes (hbuilt.honest hhonest), hbuilt.reader]
      rfl
    have hdelivered : (deliveredBytes ops).length ≤ (archiveBytes a.members).length := by
      rw [hpaid.delivered]
      exact List.length_take_le' _ _
    omega

end Runs

end Model

/-! ### Drowsy sources -/

/-- Byte slices that are pending `naps` times when they are opened, and as often when they are
    read. -/
def drowsy (naps : Nat) : EntryData where
  Data := Slice
  Reader := AsRefReader × Nat
  Future := Nat
  Context := Unit
  Error := SeekError
  getReader _ := naps
  size := asRef.size
  size_lt := asRef.size_lt
  poll future _ :=
    match future with
    | 0 => (.ok (⟨0⟩, naps), 0)
    | left + 1 => (.pending, left)
  pollRead reader d _ buf :=
    match reader.2 with
    | 0 =>
      let bytes := reader.1.readable d.1 buf.remaining
      (.ok bytes, ⟨reader.1.position + bytes.1.length⟩, 0)
    | left + 1 => (.pending, reader.1, left)
  startSeek reader d pos :=
    match reader.1.target d.1.length pos with
    | some position => (.ok (), ⟨position⟩, reader.2)
    | none => (.error .invalidInput, reader)
  pollSeekComplete reader _ _ :=
    match reader.2 with
    | 0 => (.ok reader.1.position, reader)
    | left + 1 => (.pending, reader.1, left)

/-- They deliver their bytes. -/
theorem drowsy_delivers (naps : Nat) (slice : (drowsy naps).Data) :
    Delivers (drowsy naps) False slice slice.1 := by
  refine ⟨{
    opening := fun _ => True
    standing := fun reader n => reader.1.position = n
    seeking := fun reader p => reader.1.position = p
    stalled := fun _ => False
    poll := ?_
    pollRead := ?_
    startSeek := fun _ _ _ _ => rfl
    pollSeekComplete := ?_
    pollStalled := fun _ _ h => h.elim }, trivial⟩
  · intro future ctx _
    cases future with
    | zero => rfl
    | succ left => trivial
  · rintro ⟨reader, left⟩ n ctx buf rfl
    cases left with
    | zero =>
      obtain ⟨hbytes, hne⟩ := reader.readable_spec slice.1 buf.remaining
      exact ⟨hbytes, hne, rfl⟩
    | succ left => rfl
  · rintro ⟨reader, left⟩ p ctx h
    cases left with
    | zero => exact ⟨h, h⟩
    | succ left => exact h

/-- And their patience is that of a nap at every pending poll. -/
def drowsyPatience (naps : Nat) : Patience (drowsy naps) (2 * naps) where
  future (left : Nat) := left + naps
  reader r := r.2
  getReader _ := by
    show naps + naps ≤ 2 * naps
    omega
  poll future ctx := by
    cases future with
    | zero => exact Nat.le_refl _
    | succ left =>
      show left + naps ≤ left + 1 + naps
      omega
  pollOk future ctx r future' h := by
    cases future with
    | zero =>
      cases h
      exact Nat.le_add_left _ _
    | succ left => cases h
  pollPending future ctx future' h := by
    cases future with
    | zero => cases h
    | succ left =>
      cases h
      exact Nat.add_lt_add_right (Nat.lt_succ_self _) naps
  pollRead r d ctx buf := by
    obtain ⟨reader, left⟩ := r
    cases left with
    | zero => exact Nat.le_refl _
    | succ left => exact Nat.le_succ _
  pollReadPending r d ctx buf r' h := by
    obtain ⟨reader, left⟩ := r
    cases left with
    | zero => cases h
    | succ left =>
      cases h
      exact Nat.lt_succ_self _
  startSeek r d pos := by
    unfold drowsy
    dsimp only
    split
    · exact Nat.le_refl _
    · exact Nat.le_refl _
  pollSeek r d ctx := by
    obtain ⟨reader, left⟩ := r
    cases left with
    | zero => exact Nat.le_refl _
    | succ left => exact Nat.le_succ _
  pollSeekPending r d ctx r' h := by
    obtain ⟨reader, left⟩ := r
    cases left with
    | zero => cases h
    | succ left =>
      cases h
      exact Nat.lt_succ_self _

/-- Two files of sources that are pending once before and once after they are opened. -/
def drowsyFiles : List (Source (drowsy 1)) :=
  [([0x61], ⟨[1, 2], by decide⟩, none), ([0x62], ⟨[9], by decide⟩, none)]

/-- No CRC is supplied for them, so none is wrong. -/
theorem Session.Of.drowsy_rightCrcs {x : Session (drowsy 1) crc32Ieee} (h : x.Of drowsyFiles) :
    x.builder.RightCrcs (fun d : Slice => d.1) crc32Ieee := by
  have hnone : ∀ s ∈ drowsyFiles, s.2.2 = none := by decide
  intro name entry hmem crc hcrc
  have hnone' : entry.crc32 = none := h.forall (P := fun s => s.2.2 = none) hnone name entry hmem
  rw [hnone'] at hcrc
  cases hcrc

/-- What a caller does that reads the first file, seeks back to it and reads on. -/
def drowsyScript : List (Action (drowsy 1)) :=
  .poll () (room 100) :: List.replicate 3 (.poll () (room 1)) ++
    .seek 60 :: List.replicate 12 (.poll () (room 300))

/-- The first file is opened twice, and every `Pending` that the sources have is used up. -/
theorem suspensions_paid_drowsy :
    ∃ x : Session (drowsy 1) crc32Ieee,
      session crc32Ieee drowsyFiles 20 drowsyScript = some x ∧
      x.ops.countP Op.isPending = 2 * x.last.pinned.opened.length ∧
      x.ops.countP Op.isPending ≤ 2 * x.last.pinned.opened.length := by
  have hrun : (session crc32Ieee drowsyFiles 20 drowsyScript).map (fun x =>
      (x.ops.countP Op.isPending, x.last.pinned.opened.length)) = some (6, 3) := by
    decide +kernel
  obtain ⟨x, hx, h, hseen⟩ := exists_session hrun
  have hpending : x.ops.countP Op.isPending = 6 := congrArg Prod.fst hseen
  have hopened : x.last.pinned.opened.length = 3 := congrArg Prod.snd hseen
  obtain ⟨a, hbuilt⟩ := h.reached.built (fun d : Slice => d.1) h.build
  have hsteps := h.steps
  rw [hbuilt.reader] at hsteps
  exact ⟨x, hx, by rw [hpending, hopened], suspensions_paid (drowsyPatience 1) hsteps⟩

/-- 500 polls with room for 7 bytes read 417 bytes from two files that are pending twice each. -/
theorem reads_get_to_the_end_drowsy :
    ∃ x : Session (drowsy 1) crc32Ieee, session crc32Ieee drowsyFiles 20 [] = some x ∧
      ∃ ops r', Steps x.reader ops r' ∧
        deliveredBytes ops = archiveBytes (x.reader.members fun d : Slice => d.1) := by
  have hrun : (session crc32Ieee drowsyFiles 20 []).map (fun x =>
      (x.reader.size, x.builder.entries.entries.length)) = some (417, 2) := by
    decide +kernel
  obtain ⟨x, hx, h, hseen⟩ := exists_session hrun
  have hsize : x.reader.size = 417 := congrArg Prod.fst hseen
  have hcount : x.builder.entries.entries.length = 2 := congrArg Prod.snd hseen
  obtain ⟨⟨ops, r', hsteps, hops⟩, hdelivers⟩ := reads_get_to_the_end (drowsyPatience 1) h.reached
    h.build (fun _ entry _ => drowsy_delivers 1 entry.data) (fun _ _ _ => rfl) h.drowsy_rightCrcs
    (List.replicate 500 ((), room 7)) (by
      intro poll hpoll
      rw [(List.mem_replicate.mp hpoll).2]
      decide)
  refine ⟨x, hx, ops, r', hsteps, hdelivers ops r' hsteps hops ?_⟩
  rw [hsize, hcount, List.length_replicate]
  decide

end Zippity
