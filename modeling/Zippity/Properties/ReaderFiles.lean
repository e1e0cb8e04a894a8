import Zippity.Framework.Forking
import Zippity.Properties.Cursors
import Zippity.Properties.Delivery
import Zippity.Properties.Safety
import Zippity.Properties.Tell

/-! # Readers are files

    A reader of a sound archive against what `AsyncRead` and `AsyncSeek` are
    for: a file with a cursor.  Readers are cloned and taken, and every one of
    them follows a cursor of its own.

    A cursor keeps two positions: where the next byte comes from, and what
    `tell` answers.  They differ after a call in which the source of a late
    header was pending (`lagging`), and then `Current`, a clone and a taken
    reader go to the second.
-/

namespace Zippity

open Framework Async
open Exec (u64Bound)

/-! ### Calls and forks -/

/-- A call of `AsyncRead` or `AsyncSeek`, with its answer. -/
inductive FileCall (E : EntryData) where
  /-- `poll_read` on `buf`, its answer and the buffer it left. -/
  | pollRead (ctx : E.Context) (buf : ReadBuf) (answer : PollResult (IoError E) Unit)
      (buf' : ReadBuf)
  | startSeek (pos : SeekArg) (answer : Except (IoError E) Unit)
  | pollComplete (answer : Nat)

/-- How a reader is made out of a reader. -/
inductive Duplication where
  | clone
  | takePinned

section Model
variable {E : EntryData} {H : Crc32Fast}

/-- Readers.  Unless `lagging`, no source of a late header waits in a call that succeeds. -/
def readerFiles (lagging : Prop) : Forking (Reader E H) (FileCall E) Duplication where
  init r := ∃ sizes entries, r = .new sizes entries
  step r call r' :=
    match call with
    | .pollRead ctx buf answer buf' =>
      (lagging ∨ (answer = .ok () → NotSuspendedLate r (.pollRead ctx buf answer buf'))) ∧
        ∃ fuel, r.pollRead ctx fuel buf = .ok (answer, r', buf')
    | .startSeek pos answer => r.startSeek pos.seekFrom = .ok (answer, r')
    | .pollComplete answer => r.pollComplete = answer ∧ r' = r
  fork r how left new :=
    match how with
    | .clone => r.clone = .ok new ∧ left = r
    | .takePinned => r.takePinned = .ok (new, left)

/-! ### Cursors -/

/-- A cursor in a file. -/
structure FileCursor where
  data : List UInt8
  /-- Where the next byte comes from. -/
  position : Nat
  /-- The position as it is told. -/
  told : Nat

/-- A fresh cursor. -/
def FileCursor.new (data : List UInt8) : FileCursor := ⟨data, 0, 0⟩

/-- A cursor that is sent to a position. -/
def FileCursor.sent (c : FileCursor) (position : Nat) : FileCursor := ⟨c.data, position, position⟩

/-- Files with cursors.  Only if `lagging`, a read may leave what is told as it is. -/
def cursorFiles (E : EntryData) (lagging : Prop) :
    Forking FileCursor (FileCall E) Duplication where
  init c := ∃ data, c = .new data
  step c call c' :=
    match call with
    | .pollRead _ buf answer buf' =>
      let count := buf'.filled.length - buf.filled.length
      PollDelivers c.data c.position buf answer buf' ∧
        (c' = ⟨c.data, c.position + count, c.told + count⟩ ∨
          lagging ∧ c' = ⟨c.data, c.position + count, c.told⟩)
    | .startSeek pos answer =>
      let target := pos.target c.data.length c.told
      (target < 0 ∧ answer = .error (.read .seekingBeforeStart) ∧ c' = c) ∨
        (0 ≤ target ∧ target < 2 ^ 64 ∧ answer = .ok () ∧ c' = c.sent target.toNat)
    | .pollComplete answer => answer = c.told ∧ c' = c
  fork c how left new :=
    new = c.sent c.told ∧
      match how with
      | .clone => left = c
      -- the place of a reader that was taken is an empty archive
      | .takePinned => left = .new (archiveBytes [])

/-- Without lagging what is told is the position. -/
theorem told_eq_position {lagging : Prop} (hexact : ¬ lagging) {data : List UInt8}
    {cursors : List FileCursor} {ops : List (PoolLabel (FileCall E) Duplication)}
    (hrun : (cursorFiles E lagging).pool.Run [.new data] ops cursors) :
    ∀ c ∈ cursors, c.told = c.position := by
  apply hrun.invariant (fun _ cursors => ∀ c ∈ cursors, c.told = c.position)
  · intro c hc
    rw [List.mem_singleton.mp hc]
    rfl
  · intro _ cursors l cursors' hpool hstep
    cases l with
    | step i call =>
      obtain ⟨c, c', hc, hstep, rfl⟩ := hstep
      have hcursor := hpool c (List.mem_of_getElem? hc)
      intro c₁ hc₁
      rcases List.mem_or_eq_of_mem_set hc₁ with hold | rfl
      · exact hpool c₁ hold
      · cases call with
        | pollRead ctx buf answer buf' =>
          rcases hstep.2 with rfl | ⟨hlagging, _⟩
          · show c.told + _ = c.position + _
            rw [hcursor]
          · exact absurd hlagging hexact
        | startSeek pos answer =>
          rcases hstep with ⟨_, _, rfl⟩ | ⟨_, _, _, rfl⟩
          · exact hcursor
          · rfl
        | pollComplete answer =>
          rw [hstep.2]
          exact hcursor
    | fork i how =>
      obtain ⟨c, left, new, hc, ⟨rfl, hleft⟩, rfl⟩ := hstep
      intro c₁ hc₁
      rcases List.mem_append.mp hc₁ with hold | hnew
      · rcases List.mem_or_eq_of_mem_set hold with hold | rfl
        · exact hpool c₁ hold
        · cases how with
          | clone =>
            rw [hleft]
            exact hpool c (List.mem_of_getElem? hc)
          | takePinned =>
            rw [hleft]
            rfl
      · rw [List.mem_singleton.mp hnew]
        rfl

/-! ### One call -/

/-- The reader follows the cursor, in a sound archive with the data of its file. -/
structure Follows (r : Reader E H) (c : FileCursor) : Prop where
  stands : ∃ a : Archive, (∀ m ∈ a.members, m.Sound H) ∧ archiveBytes a.members = c.data ∧
    ReaderAt False a r (tailAt (segments H a.members) c.position)
  guarded : GuardedSomewhere r
  told : r.tell = c.told

/-- A call counts the bytes it wrote, or it leaves `tell` as it is. -/
theorem tell_of_pollRead {r r' : Reader E H} {ctx : E.Context} {fuel : Nat} {buf buf' : ReadBuf}
    {answer : PollResult (IoError E) Unit} (h : r.pollRead ctx fuel buf = .ok (answer, r', buf')) :
    r'.tell = r.tell + (buf'.filled.length - buf.filled.length) ∨ r'.tell = r.tell := by
  have hread : (read r.sizes ctx fuel).wp (fun _ => True) (fun _ s' =>
      s'.readState.position = r.tell + (s'.output.filled.length - buf.filled.length) ∨
        s'.readState.position = r.tell) (r.frame buf) := by
    unfold read
    rw [wp_get_bind, wp_bind]
    refine wp_mono (readLoop_step r.sizes ctx buf.remaining fuel (r.frame buf)) (fun _ _ => trivial) ?_
    rintro answer s' ⟨bytes, hmoved, _⟩
    have hposition : s'.readState.position = r.tell := hmoved.position
    have houtput : buf.Extends bytes s'.output := hmoved.output
    have hlen := congrArg List.length houtput.filled
    rw [List.length_append] at hlen
    have hroom := houtput.remaining
    -- only the end of the loop counts
    have hcount : (do
        let s ← get
        let written ← lift (Exec.subU64 buf.remaining s.output.remaining)
        let position ← lift (Exec.addU64 s.readState.position written)
        modify fun s => { s with readState.position := position } : FrameRead E H Unit).wp
          (fun _ => True) (fun _ s' =>
            s'.readState.position = r.tell + (s'.output.filled.length - buf.filled.length) ∨
              s'.readState.position = r.tell) s' := by
      rw [wp_get_bind, wp_bind, wp_lift]
      refine Exec.wp_subU64 (fun _ => trivial) fun _ => ?_
      simp only [andThen]
      rw [wp_bind, wp_lift]
      refine Exec.wp_addU64 (fun _ => trivial) fun _ => .inl ?_
      show s'.readState.position + (buf.remaining - s'.output.remaining) =
        r.tell + (s'.output.filled.length - buf.filled.length)
      omega
    cases answer with
    | pending => exact .inr hposition
    | err e => exact .inr hposition
    | ok flow =>
      cases flow with
      | go => exact hcount
      | leave => exact hcount
      | ret => exact .inr hposition
  obtain ⟨⟨answer', s'⟩, hrun, hresult⟩ := Exec.bind_eq_ok h
  cases hresult
  have htold := Exec.wp_of_eq_ok hread hrun
  exact htold

section Follows
variable {lagging : Prop} {r r' left new : Reader E H} {c : FileCursor}

theorem Follows.size (h : Follows r c) : r.size = c.data.length ∧ c.data.length < u64Bound ∧
    c.told < u64Bound := by
  obtain ⟨a, hsound, hdata, hat⟩ := h.stands
  have hhonest : a.Honest := fun m hm => (hsound m hm).honest
  have hlen : c.data.length = (layoutSizes a.members).totalSize := by
    rw [← hdata, length_archiveBytes hhonest]
  refine ⟨?_, ?_, ?_⟩
  · show r.sizes.totalSize = _
    rw [hat.sizes, hlen]
  · rw [hlen]
    exact a.fits
  · rw [← h.told]
    exact hat.tell_lt hhonest

/-- A reader that is sent to a position follows a cursor sent there. -/
theorem Follows.seek (h : Follows r c) {offset : Nat} (hoffset : offset < u64Bound) :
    ∃ r', r.seekFromStart offset = .ok r' ∧ Follows r' (c.sent offset) := by
  obtain ⟨a, hsound, hdata, hat⟩ := h.stands
  obtain ⟨r', hseek, _, htell, hat'⟩ := seekFromStart_step hat.sizes hat.stocked hoffset
  have hstep : readerSystem.step r (.seek offset) r' := ⟨hoffset, hseek⟩
  exact ⟨r', hseek, ⟨a, hsound, hdata, hat'⟩, h.guarded.step hstep, htell⟩

/-- The target of `start_seek` is the exact one, or an error in front of the file, or a panic
    behind the last offset. -/
theorem Follows.startSeek (h : Follows r c) (pos : SeekArg) :
    (pos.target c.data.length c.told < 0 →
      r.startSeek pos.seekFrom = .ok (.error (.read .seekingBeforeStart), r)) ∧
    (2 ^ 64 ≤ pos.target c.data.length c.told →
      r.startSeek pos.seekFrom = .error .overflow) ∧
    (0 ≤ pos.target c.data.length c.told → pos.target c.data.length c.told < 2 ^ 64 →
      ∃ r', r.startSeek pos.seekFrom = .ok (.ok (), r') ∧
        Follows r' (c.sent (pos.target c.data.length c.told).toNat)) := by
  obtain ⟨hsize, hdata, htold⟩ := h.size
  have hbound : ((u64Bound : Nat) : Int) = 2 ^ 64 := rfl
  have hsent : ∀ {offset : Nat}, offset < u64Bound → ∃ r',
      (do let self ← r.seekFromStart offset
          .ok (.ok (), self) : Exec (Except (IoError E) Unit × Reader E H)) = .ok (.ok (), r') ∧
        Follows r' (c.sent offset) := by
    intro offset hoffset
    obtain ⟨r', hseek, hfollows⟩ := h.seek hoffset
    exact ⟨r', by rw [hseek, Exec.ok_bind], hfollows⟩
  -- what `resolve_offset` makes of a base and a signed offset
  have hresolve : ∀ (base : Nat) (offset : Int), base < u64Bound →
      Reader.resolveOffset (E := E) base offset =
        if 0 ≤ base + offset ∧ base + offset < 2 ^ 64 then .ok (.ok (base + offset).toNat)
        else if base + offset < 0 then .ok (.error (.read .seekingBeforeStart))
        else .error .overflow := by
    intro base offset hbase
    unfold Reader.resolveOffset AsRefReader.target.checkedAddSigned
    dsimp only
    rw [hbound]
    by_cases hfits : 0 ≤ (base : Int) + offset ∧ (base : Int) + offset < 2 ^ 64
    · rw [if_pos hfits, if_pos hfits]
    · rw [if_neg hfits, if_neg hfits]
      by_cases hneg : (base : Int) + offset < 0
      · rw [if_pos hneg]
        dsimp only
        rw [if_pos (by omega)]
      · rw [if_neg hneg]
        dsimp only
        rw [if_neg (by omega)]
  have hrelative : ∀ (base : Nat) (offset : Int), base < u64Bound →
      ∀ target : Int, target = base + offset →
      (∀ e, Reader.resolveOffset base offset = .ok (.error e) →
        r.startSeek pos.seekFrom = .ok (.error e, r)) →
      (∀ f, Reader.resolveOffset (E := E) base offset = .error f →
        r.startSeek pos.seekFrom = .error f) →
      (∀ p, Reader.resolveOffset (E := E) base offset = .ok (.ok p) →
        r.startSeek pos.seekFrom = (do
          let self ← r.seekFromStart p
          .ok (.ok (), self))) →
      (target < 0 → r.startSeek pos.seekFrom = .ok (.error (.read .seekingBeforeStart), r)) ∧
      (2 ^ 64 ≤ target → r.startSeek pos.seekFrom = .error .overflow) ∧
      (0 ≤ target → target < 2 ^ 64 → ∃ r', r.startSeek pos.seekFrom = .ok (.ok (), r') ∧
        Follows r' (c.sent target.toNat)) := by
    intro base offset hbase target htarget hbefore hpast hin
    subst htarget
    have hresolved := hresolve base offset hbase
    refine ⟨?_, ?_, ?_⟩
    · intro hneg
      rw [if_neg (by omega), if_pos hneg] at hresolved
      exact hbefore _ hresolved
    · intro hover
      rw [if_neg (by omega), if_neg (by omega)] at hresolved
      exact hpast _ hresolved
    · intro hge hlt
      rw [if_pos ⟨hge, hlt⟩] at hresolved
      rw [hin _ hresolved]
      exact hsent (by omega)
  cases pos with
  | start offset =>
    have hlt := offset.toNat_lt
    refine ⟨?_, ?_, ?_⟩
    · intro hneg
      simp only [SeekArg.target] at hneg
      omega
    · intro hpast
      simp only [SeekArg.target] at hpast
      omega
    · intro _ _
      exact hsent hlt
  | «end» offset =>
    have htarget : SeekArg.target c.data.length c.told (.end offset) = r.size + offset.toInt := by
      rw [hsize]
      rfl
    refine hrelative r.size offset.toInt (by omega) _ htarget ?_ ?_ ?_
    all_goals
      intro _ hresolved
      unfold SeekArg.seekFrom Reader.startSeek
      dsimp only
      rw [hresolved]
      rfl
  | current offset =>
    have htarget : SeekArg.target c.data.length c.told (.current offset) =
        r.tell + offset.toInt := by
      rw [h.told]
      rfl
    refine hrelative r.tell offset.toInt (by rw [h.told]; exact htold) _ htarget ?_ ?_ ?_
    all_goals
      intro _ hresolved
      unfold SeekArg.seekFrom Reader.startSeek
      dsimp only
      rw [hresolved]
      rfl

/-- **A call** of a reader is one of the cursor that it follows. -/
theorem Follows.step {call : FileCall E} (h : Follows r c)
    (hstep : (readerFiles lagging).step r call r') :
    ∃ c', (cursorFiles E lagging).step c call c' ∧ Follows r' c' := by
  cases call with
  | pollRead ctx buf answer buf' =>
    obtain ⟨hlate, fuel, hpoll⟩ := hstep
    obtain ⟨a, hsound, hdata, hat⟩ := h.stands
    obtain ⟨bytes, hpolled⟩ := pollRead_step hat hpoll
    have hs := hpolled.sound hsound
    obtain ⟨bytes', hcall⟩ := pollRead_callStep hpoll
    obtain rfl : bytes = bytes' := by rw [← hpolled.output.drop_filled, hcall.output.drop_filled]
    have hcount : buf'.filled.length - buf.filled.length = bytes.length := by
      rw [hpolled.output.filled, List.length_append, Nat.add_sub_cancel_left]
    have hdelivers : PollDelivers c.data c.position buf answer buf' := by
      rw [← hdata]
      cases answer with
      | ok => exact .ok hpolled.output hs.bytes_eq (hs.finished rfl)
      | pending =>
        have houtput := hpolled.output
        rw [hs.pending rfl] at houtput
        rw [houtput.eq_of_nil]
        exact .pending
      | err e => exact (hs.failed e rfl).elim
    -- what is told moves by the bytes written, or, when lagging, not at all
    have htold : r'.tell = c.told + bytes.length ∨ lagging ∧ r'.tell = c.told := by
      rw [← h.told]
      have hcounted := tell_of_pollRead hpoll
      rw [hcount] at hcounted
      rcases hlate with hlagging | hlate
      · exact hcounted.imp_right fun hsame => ⟨hlagging, hsame⟩
      · cases answer with
        | ok =>
          obtain ⟨a', hguarded⟩ := h.guarded
          have hcounts : r'.tell = r.tell + (buf'.filled.drop buf.filled.length).length :=
            hguarded.counts ⟨hlate rfl, fuel, hpoll⟩
          rw [hcall.output.drop_filled] at hcounts
          exact .inl hcounts
        | pending =>
          rw [hcall.uncounted (by simp), hs.pending rfl]
          exact .inl rfl
        | err e => exact (hs.failed e rfl).elim
    have hstep : readerSystem.step r (.pollRead ctx buf answer buf') r' := ⟨fuel, hpoll⟩
    have hguarded := h.guarded.step hstep
    rcases htold with htold | ⟨hlagging, htold⟩
    · refine ⟨_, ⟨hdelivers, .inl rfl⟩, ⟨a, hsound, hdata, ?_⟩, hguarded, ?_⟩
      · show ReaderAt False a r' (tailAt (segments H a.members) (c.position + _))
        rw [hcount]
        exact hs.readerAt
      · rw [htold, hcount]
    · refine ⟨_, ⟨hdelivers, .inr ⟨hlagging, rfl⟩⟩, ⟨a, hsound, hdata, ?_⟩, hguarded, htold⟩
      show ReaderAt False a r' (tailAt (segments H a.members) (c.position + _))
      rw [hcount]
      exact hs.readerAt
  | startSeek pos answer =>
    obtain ⟨hneg, hpast, hin⟩ := h.startSeek pos
    have hrun : r.startSeek pos.seekFrom = .ok (answer, r') := hstep
    by_cases hlt : pos.target c.data.length c.told < 0
    · rw [hneg hlt] at hrun
      cases hrun
      exact ⟨c, .inl ⟨hlt, rfl, rfl⟩, h⟩
    · by_cases hge : 2 ^ 64 ≤ pos.target c.data.length c.told
      · rw [hpast hge] at hrun
        cases hrun
      · obtain ⟨r₁, hseek, hfollows⟩ := hin (by omega) (by omega)
        rw [hseek] at hrun
        cases hrun
        exact ⟨_, .inr ⟨by omega, by omega, rfl, rfl⟩, hfollows⟩
  | pollComplete answer =>
    obtain ⟨hanswer, rfl⟩ := hstep
    exact ⟨c, ⟨hanswer.symm.trans h.told, rfl⟩, h⟩

/-- **A fork** of a reader is one of the cursor. -/
theorem Follows.fork {how : Duplication} (h : Follows r c)
    (hfork : (readerFiles lagging).fork r how left new) :
    ∃ left' new', (cursorFiles E lagging).fork c how left' new' ∧ Follows left left' ∧
      Follows new new' := by
  obtain ⟨a, hsound, hdata, hat⟩ := h.stands
  have hhonest : a.Honest := fun m hm => (hsound m hm).honest
  obtain ⟨copy, hclone, _, _, htell, hcopy⟩ := hat.clone hhonest
  rw [h.told] at htell hcopy
  have hsent : Follows copy (c.sent c.told) :=
    ⟨⟨a, hsound, hdata, hcopy⟩, h.guarded.clone hclone, htell⟩
  cases how with
  | clone =>
    obtain ⟨hnew, rfl⟩ := hfork
    rw [hclone] at hnew
    cases hnew
    exact ⟨c, _, ⟨rfl, rfl⟩, h, hsent⟩
  | takePinned =>
    have htake : r.takePinned = .ok (new, left) := hfork
    rw [takePinned_eq, hclone] at htake
    cases htake
    refine ⟨_, _, ⟨rfl, rfl⟩, ⟨⟨.empty, ?_, rfl, .emptied _⟩, ⟨.empty, emptied_guarded _⟩, rfl⟩,
      hsent⟩
    intro m hm
    cases hm

end Follows

/-! ### Runs -/

/-- What can be asked of a reader at a cursor, and what it answers to questions. -/
structure ActsAs (r : Reader E H) (c : FileCursor) : Prop where
  tell : r.tell = c.told
  size : r.size = c.data.length
  returns : ∀ ctx buf, ∃ enough, ∀ fuel > enough, ∃ result, r.pollRead ctx fuel buf = .ok result
  seeks : ∀ pos : SeekArg, pos.target c.data.length c.told < 2 ^ 64 →
    ∃ result, r.startSeek pos.seekFrom = .ok result
  /-- Behind the last offset a seek panics. -/
  panics : ∀ pos : SeekArg, 2 ^ 64 ≤ pos.target c.data.length c.told →
    r.startSeek pos.seekFrom = .error .overflow

theorem Follows.actsAs {r : Reader E H} {c : FileCursor} (h : Follows r c) : ActsAs r c where
  tell := h.told
  size := h.size.1
  returns ctx buf := by
    obtain ⟨a, hsound, _, hat⟩ := h.stands
    exact exists_pollRead hat id (fun m hm => (hsound m hm).honest) ctx buf
  seeks pos hlt := by
    obtain ⟨hneg, _, hin⟩ := h.startSeek pos
    by_cases hlt' : pos.target c.data.length c.told < 0
    · exact ⟨_, hneg hlt'⟩
    · obtain ⟨r', hseek, _⟩ := hin (by omega) hlt
      exact ⟨_, hseek⟩
  panics pos hge := (h.startSeek pos).2.1 hge

/-- **Readers are files.**  Every run of reads and seeks on a reader, its clones and the readers
    taken from them is a run of cursors in files: the archive, or the empty one where a reader was
    taken; and what is told is the position unless the source of a late header waits in a call. -/
theorem readers_refine_files {lagging : Prop} {content : E.Data → List UInt8} {b : Builder E}
    {r : Reader E H} {pool : List (Reader E H)} {ops : List (PoolLabel (FileCall E) Duplication)}
    (hb : b.Reached) (hbuild : b.build = .ok r) (hdeliver : b.Delivering content False)
    (hhonest : b.HonestSizes content) (hcrcs : b.RightCrcs content H)
    (hrun : (readerFiles lagging).pool.Run [r] ops pool) :
    ∃ cursors, (cursorFiles E lagging).pool.Run [.new (archiveBytes (r.members content))] ops
        cursors ∧
      List.Forall₂ ActsAs pool cursors ∧ (¬ lagging → ∀ c ∈ cursors, c.told = c.position) := by
  obtain ⟨a, hbuilt⟩ := hb.built content hbuild
  have hstart : Follows r (.new (archiveBytes (r.members content))) := by
    refine ⟨⟨a, hbuilt.sound hhonest hcrcs, ?_, hbuilt.start hdeliver⟩, ⟨a, hbuilt.guarded⟩, ?_⟩
    · rw [hbuilt.members]
      rfl
    · rw [hbuilt.reader]
      rfl
  obtain ⟨cursors, hcursors, hfollows⟩ := Forking.pool_simulate Follows
    (fun _ _ _ _ h hstep => h.step hstep) (fun _ _ _ _ _ h hfork => h.fork hfork) hrun
    (.cons hstart .nil)
  exact ⟨cursors, hcursors, hfollows.imp fun _ _ h => h.actsAs,
    fun hexact => told_eq_position hexact hcursors⟩

/-! ### A session -/

/-- An operation as a call of the traits. -/
def Op.fileCall : Op E → FileCall E
  | .pollRead ctx buf answer buf' => .pollRead ctx buf answer buf'
  | .seek offset => .startSeek (.start (UInt64.ofNat offset)) (.ok ())

/-- Operations in which no source of a late header waits are calls on a file that does not lag. -/
theorem fileCalls_run {r r' : Reader E H} {ops : List (Op E)}
    (hsteps : (readerSystem.restrict NotSuspendedLate).Run r ops r') :
    (readerFiles False).pool.Run [r] (ops.map fun op => .step 0 op.fileCall) [r'] := by
  apply hsteps.invariant
    (fun ops r' => (readerFiles False).pool.Run [r] (ops.map fun op => .step 0 op.fileCall) [r'])
  · exact .nil
  · rintro ops r₁ op r₂ hrun ⟨hnot, hstep⟩
    rw [List.map_append]
    refine hrun.snoc ⟨r₁, r₂, rfl, ?_, rfl⟩
    cases op with
    | pollRead ctx buf answer buf' => exact ⟨.inr fun _ => hnot, hstep⟩
    | seek offset =>
      obtain ⟨hoffset, hseek⟩ := hstep
      have hnat : (UInt64.ofNat offset).toNat = offset := UInt64.toNat_ofNat_of_lt' hoffset
      show r₁.startSeek (.start (UInt64.ofNat offset).toNat) = .ok (.ok (), r₂)
      rw [hnat]
      unfold Reader.startSeek
      simp only [Exec.ok_bind, hseek]

end Model

/-- Polls of the data and of the directory, and at last a clone. -/
theorem readers_refine_files_session :
    ∃ x : Session steady crc32Ieee, session crc32Ieee steadyFiles 30 countedScript = some x ∧
      ∃ clone, x.last.clone = .ok clone ∧ ∃ cursors,
        List.Forall₂ ActsAs [x.last, clone] cursors ∧ ∀ c ∈ cursors, c.told = c.position := by
  have hrun : (session crc32Ieee steadyFiles 30 countedScript).map
      (fun x => (testScript Reader.unsuspended 30 x.reader countedScript,
        x.last.clone.toOption.isSome)) = some (true, true) := by
    decide +kernel
  obtain ⟨x, hx, h, hseen⟩ := exists_session hrun
  have hsteps : (readerSystem.restrict NotSuspendedLate).Run x.reader x.ops x.last :=
    runScript_restrict notSuspendedLate_of_test (congrArg Prod.fst hseen) (session_run hx)
  have hclones := congrArg Prod.snd hseen
  cases hc : x.last.clone with
  | error f =>
    rw [hc] at hclones
    cases hclones
  | ok clone =>
    have hpool : (readerFiles False).pool.Run [x.reader]
        (x.ops.map (fun op => .step 0 op.fileCall) ++ [.fork 0 .clone]) [x.last, clone] :=
      (fileCalls_run hsteps).snoc ⟨x.last, x.last, clone, rfl, ⟨hc, rfl⟩, rfl⟩
    obtain ⟨cursors, _, hacts, htold⟩ := readers_refine_files h.reached h.build
      (h.delivering steady_ne_fail) (h.honestSizes (by decide)) (h.rightCrcs (by decide +kernel))
      hpool
    exact ⟨x, hx, clone, hc, cursors, hacts, htold id⟩

end Zippity
