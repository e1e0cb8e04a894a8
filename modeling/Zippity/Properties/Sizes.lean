import Zippity.Session
import Zippity.Reader.Attempts

/-! # Entries of another size

    An entry may yield fewer or more bytes than it reports.  The size is checked
    where the data ends: a surplus is delivered before it is reported, but
    nothing behind the data of such an entry is, from wherever it was entered.
-/

namespace Zippity

open Framework

/-! ### The stream of an archive with other sizes -/

/-- What the first member with data of another size has beyond its announced size. -/
def surplus : List Member → Nat
  | [] => 0
  | m :: ms => if m.size = 0 ∨ m.data.length = m.size then surplus ms else m.data.length - m.size

section Stream
variable {H : Crc32Fast} {ms : List Member} {m : Member}

/-- Without members that yield more than they announce there is no surplus. -/
theorem surplus_eq_zero (h : ∀ m ∈ ms, m.size ≠ 0 → m.data.length ≤ m.size) : surplus ms = 0 := by
  induction ms with
  | nil => rfl
  | cons m ms ih =>
    rw [surplus]
    by_cases hm : m.size = 0 ∨ m.data.length = m.size
    · rw [if_pos hm]
      exact ih fun m' hm' => h m' (by simp [hm'])
    · rw [if_neg hm]
      have hsize : m.size ≠ 0 := fun hz => hm (.inl hz)
      have := h m (by simp) hsize
      omega

/-- Members in front of a stream add their announced sizes to it, and the surplus. -/
theorem length_tailAt_members_le (ms : List Member) (segs : List (Segment UInt8)) :
    (tailAt (ms.flatMap (Member.segments H) ++ segs) 0).items.length ≤
      extents ms + surplus ms + (tailAt segs 0).items.length := by
  -- each member adds what it announces; the first one of another size ends the stream
  induction ms with
  | nil => simp
  | cons m ms ih =>
    rw [List.flatMap_cons, extents_cons, surplus, Member.extent]
    simp only [Member.segments, List.cons_append, List.nil_append]
    rw [tailAt_plain, tailAt_dataSegment, tailAt_plain]
    simp only [Tail.cons_items, List.length_append, Member.length_localBytes]
    by_cases hhalts : m.size ≠ 0 ∧ m.halts H 0
    · -- nothing behind the data is read
      rw [if_pos hhalts, Member.readable, if_neg hhalts.1]
      by_cases hm : m.data.length = m.size
      · rw [if_pos (.inr hm)]
        simp only [Tail.halted, List.length_nil]
        omega
      · rw [if_neg (by simp [hhalts.1, hm])]
        simp only [Tail.halted, List.length_nil]
        omega
    · -- the data has its announced size
      have hlen : m.readable.length = m.size := by
        rw [Member.readable]
        by_cases hsize : m.size = 0
        · rw [if_pos hsize, hsize]
          rfl
        · rw [if_neg hsize]
          by_contra hne
          exact hhalts ⟨hsize, m.halts_of_not_honest H hne 0⟩
      have hexact : m.size = 0 ∨ m.data.length = m.size := by
        by_cases hsize : m.size = 0
        · exact .inl hsize
        · rw [Member.readable, if_neg hsize] at hlen
          exact .inr hlen
      rw [if_neg hhalts, if_pos hexact, hlen]
      simp only [Tail.cons_items, List.length_append, Member.length_descriptorBytes]
      omega

/-- The stream from a member on is all that is read behind honest members. -/
theorem drop_tailAt_segments_isPrefix {i : Nat}
    (h : ∀ m ∈ ms.take i, m.size ≠ 0 → m.Honest) :
    (tailAt (segments H ms) 0).items.drop (extents (ms.take i)) <+:
      (tailAt (segments H ms) (extents (ms.take i))).items := by
  have hstart : tailAt (segments H ms) (extents (ms.take i)) =
      tailAt (segmentsFrom H ms (.localHeader i)) 0 := tailAt_localHeader i 0
  rw [hstart, segments_eq_append i, ← sum_size_memberSegments (H := H)]
  apply drop_tailAt_isPrefix
  intro seg hseg hpos
  obtain ⟨m, hm, hseg⟩ := List.mem_flatMap.mp hseg
  rcases List.mem_cons.mp hseg with rfl | hseg
  · rfl
  rcases List.mem_cons.mp hseg with rfl | hseg
  · exact h m hm (Nat.ne_of_gt hpos)
  · rw [List.mem_singleton.mp hseg]
    rfl

/-- Read from the start, a stream has no more bytes than announced and the surplus. -/
theorem length_tailAt_segments_le_surplus (ms : List Member) :
    (tailAt (segments H ms) 0).items.length ≤ (layoutSizes ms).totalSize + surplus ms := by
  have hmembers := length_tailAt_members_le (H := H) ms (directory ms)
  have hexact : ∀ seg ∈ directory ms, seg.items.length ≤ seg.size := by
    intro seg hseg
    rcases List.mem_append.mp hseg with hcentral | heocd
    · obtain ⟨m, _, rfl⟩ := List.mem_map.mp hcentral
      exact (Segment.exact_plain _).size.le
    · rw [List.mem_singleton.mp heocd]
      exact (Segment.exact_plain _).size.le
  have hdirectory := length_tailAt_le hexact 0
  have hsum : ((directory ms).map Segment.size).sum = centralSizes ms + 98 := by
    rw [directory, List.map_append, List.sum_append, sum_size_centralSegments]
    simp [Segment.plain]
  rw [hsum] at hdirectory
  show (tailAt (ms.flatMap (Member.segments H) ++ directory ms) 0).items.length ≤
    extents ms + centralSizes ms + 98 + surplus ms
  omega

/-- A stream that is read from its start to its end has no members of another size, except empty
    ones. -/
theorem honest_of_complete (h : (tailAt (segments H ms) 0).complete = true) (hm : m ∈ ms)
    (hsize : m.size ≠ 0) : m.Honest := by
  have hown : m.dataSegment H ∈ m.segments H := by simp [Member.segments]
  have hseg : m.dataSegment H ∈ segments H ms :=
    List.mem_append_left _ (List.mem_flatMap_of_mem hm hown)
  have hgo : m.halts H 0 = false := halts_eq_false_of_complete h hseg (Nat.pos_of_ne_zero hsize)
  by_contra hne
  rw [m.halts_of_not_honest H hne 0] at hgo
  cases hgo

end Stream

/-! ### What is delivered -/

section Model
variable {E : EntryData} {H : Crc32Fast} {mayFail : Prop} {content : E.Data → List UInt8}
  {b : Builder E} {r r' : Reader E H} {before ops : List (Op E)}

/-- Behind honest members the stream goes on with the local header and the data of a member; if
    that has another size, there it ends. -/
theorem drop_items_isPrefix {a : Archive} {i : Nat} {m : Member} (hm : a.members[i]? = some m)
    (hearlier : ∀ m' ∈ a.members.take i, m'.size ≠ 0 → m'.Honest) :
    ∃ rest, (tailAt (segments H a.members) 0).items.drop m.offset <+:
        m.localBytes ++ m.readable ++ rest ∧ (m.size ≠ 0 → ¬ m.Honest → rest = []) := by
  have hafter := drop_tailAt_segments_isPrefix (H := H) hearlier
  have hlt : 0 < m.localSize + m.size := by
    rw [Member.localSize]
    omega
  have hmember := tailAt_member (H := H) hm hlt
  rw [Nat.add_zero, Nat.zero_sub, List.drop_zero] at hmember
  rw [hmember, Tail.cons_items] at hafter
  rw [a.offsets i m hm]
  refine ⟨_, hafter, fun hsize hne => ?_⟩
  rw [if_pos ⟨hsize, m.halts_of_not_honest H hne 0⟩]
  rfl

/-- With all data of the first member of another size delivered, nothing is left of the stream. -/
theorem items_nil_of_delivered {a : Archive} {i : Nat} {m : Member} {bytes : List UInt8}
    {rest : Tail UInt8} (hm : a.members[i]? = some m) (hsize : m.size ≠ 0) (hne : ¬ m.Honest)
    (hearlier : ∀ m' ∈ a.members.take i, m'.size ≠ 0 → m'.Honest)
    (hstream : tailAt (segments H a.members) 0 = .cons bytes rest)
    (hall : bytes.drop m.offset = m.localBytes ++ m.data) : rest.items = [] := by
  have hitems : (tailAt (segments H a.members) 0).items = bytes ++ rest.items :=
    congrArg Tail.items hstream
  obtain ⟨rest', hprefix, hends⟩ := drop_items_isPrefix (H := H) hm hearlier
  rw [hends hsize hne, List.append_nil, Member.readable, if_neg hsize, hitems, List.drop_append,
    hall] at hprefix
  have hlong : m.offset ≤ bytes.length := by
    by_contra hshort
    rw [List.drop_eq_nil_of_le (by omega)] at hall
    have hlen := congrArg List.length hall
    rw [List.length_nil, List.length_append, Member.length_localBytes, Member.localSize] at hlen
    omega
  have hle := hprefix.length_le
  rw [List.length_append, Nat.sub_eq_zero_of_le hlong, List.drop_zero] at hle
  exact List.length_eq_zero_iff.mp (by omega)

/-- The size error of a poll that has not got past the first member of another size names it. -/
theorem InData.eq_first {a : Archive} {rs : ReadState} {i j : Nat} {m m' : Member}
    (h : InData a rs j m') (hne : ¬ m'.Honest) (hm : a.members[i]? = some m)
    (hearlier : ∀ m' ∈ a.members.take i, m'.size ≠ 0 → m'.Honest)
    (hahead : ¬ rs.currentChunk.PastData i) : m' = m := by
  rw [h.chunk] at hahead
  have hle : ¬ i < j := hahead
  have hge : ¬ j < i := by
    intro hlt
    obtain ⟨hj, hmember⟩ := List.getElem?_eq_some_iff.mp h.member
    have hmem : m' ∈ a.members.take i := by
      rw [List.mem_take_iff_getElem]
      exact ⟨j, by omega, hmember⟩
    have hskip := h.skip
    exact hne (hearlier m' hmem (by omega))
  obtain rfl : j = i := by omega
  rw [h.member] at hm
  exact Option.some.inj hm

/-- **A surplus ends the delivery**: whatever the entries yield, a run without seeks and errors
    delivers of every entry it gets to no more than its data, nothing behind the data of an entry
    of another size, and no more than announced and the surplus; and it gets to the end of the
    archive only if there is no such entry.  A poll behind the data of the first one does not
    succeed, and an error that is not of a source or of a CRC names this entry. -/
theorem surplus_ends_delivery (hb : b.Reached) (hbuild : b.build = .ok r)
    (hdeliver : b.Delivering content mayFail) (hsteps : Steps r ops r')
    (hpolls : ∀ op ∈ ops, op.isPoll = true) (hok : ∀ op ∈ ops, op.succeeds = true) :
    (∀ (i : Nat) (m : Member), (r.members content)[i]? = some m →
      (∀ m' ∈ (r.members content).take i, m'.size ≠ 0 → m'.Honest) →
      ∃ rest, (deliveredBytes ops).drop m.offset <+: m.localBytes ++ m.readable ++ rest ∧
        (m.size ≠ 0 → ¬ m.Honest → rest = [])) ∧
    (deliveredBytes ops).length ≤ r.size + surplus (r.members content) ∧
    (r'.AtEnd → ∀ m ∈ r.members content, m.size ≠ 0 → m.Honest) ∧
    ∀ (i : Nat) (m : Member), (r.members content)[i]? = some m → m.size ≠ 0 → ¬ m.Honest →
      (∀ m' ∈ (r.members content).take i, m'.size ≠ 0 → m'.Honest) →
      ∀ ctx fuel buf answer r'' buf', r'.pollRead ctx fuel buf = .ok (answer, r'', buf') →
        ((deliveredBytes ops).drop m.offset = m.localBytes ++ m.data → 0 < buf.remaining →
          answer ≠ .ok ()) ∧
        ∀ e, answer = .err e → (mayFail ∧ ∃ cause, e = .entry cause) ∨
          (∃ m' ∈ r.members content, m'.crc ≠ H.hash m'.data ∧
            e = .read (.crc32Mismatch m'.name m'.crc (H.hash m'.data))) ∨
          ∃ actual, e = .read (.sizeMismatch m.name m.size actual) := by
  obtain ⟨a, hbuilt⟩ := hb.built content hbuild
  have hstart := hbuilt.start hdeliver
  obtain ⟨rest', hstream, hat⟩ := Steps.stream hstart hsteps hpolls hok
  have hitems : (tailAt (segments H a.members) 0).items = deliveredBytes ops ++ rest'.items :=
    congrArg Tail.items hstream
  have hinit : ∀ n, (deliveredBytes ops).drop n <+:
      (tailAt (segments H a.members) 0).items.drop n := by
    intro n
    rw [hitems, List.drop_append]
    exact List.prefix_append _ _
  have hrsize : r.size = (layoutSizes a.members).totalSize := congrArg Sizes.totalSize hstart.sizes
  rw [← hbuilt.members, hrsize]
  refine ⟨?_, ?_, ?_, ?_⟩
  -- what is delivered is a prefix of the stream, which the honest members in front only shift
  · intro i m hm hearlier
    obtain ⟨rest, hprefix, hends⟩ := drop_items_isPrefix (H := H) hm hearlier
    exact ⟨rest, (hinit _).trans hprefix, hends⟩
  · exact Nat.le_trans (hinit 0).length_le (length_tailAt_segments_le_surplus a.members)
  -- at the end of the archive nothing halted the stream
  · intro hend m hm hsize
    have hdone := hat.eq_done hend
    have hcomplete : (tailAt (segments H a.members) 0).complete = true := by
      rw [hstream, hdone]
      rfl
    exact honest_of_complete hcomplete hm hsize
  · intro i m hm hsize hne hearlier ctx fuel buf answer r'' buf' hpoll
    obtain ⟨bytes, hpolled⟩ := pollRead_step hat hpoll
    have houtcome := hpolled.outcome
    refine ⟨?_, ?_⟩
    -- all of the stream is delivered, and it was not read to its end
    · rintro hall hroom rfl
      cases houtcome with
      | ok hnext _ hend =>
        have hnil := items_nil_of_delivered hm hsize hne hearlier hstream hall
        rw [hnext, Tail.cons_items, List.append_eq_nil_iff] at hnil
        have hdone := hend hroom hnil.1
        have hcomplete : (tailAt (segments H a.members) 0).complete = true := by
          rw [hstream, hnext, hdone]
          rfl
        exact hne (honest_of_complete hcomplete (List.mem_of_getElem? hm) hsize)
    -- the reader has not got past the data of the entry, and does not in this poll
    · intro e he
      subst he
      have hlisted := (hbuilt.stocked hdeliver).listed
      have hnew : NotPast mayFail a i r.still := by
        have hin : InStream mayFail a r.still _ := ⟨hstart.stocked, hstart.stands⟩
        rw [hbuilt.reader] at hin ⊢
        exact notPast_new hin hlisted (List.getElem?_eq_some_iff.mp hm).1
      obtain ⟨hsizes', hfront⟩ := hnew.run hm hsize hne hstart.sizes hsteps hpolls hok
      obtain ⟨_, hahead, _⟩ := hfront.pollRead hm hsize hne hsizes' hpoll
      cases houtcome with
      | failed cause hfail => exact .inl ⟨hfail, cause, rfl⟩
      | crcMismatch hm' hcrc => exact .inr (.inl ⟨_, hm', hcrc, rfl⟩)
      | sizeMismatch _ hne' _ _ hdata =>
        obtain ⟨j, hin⟩ := hdata
        rw [hin.eq_first hne' hm hearlier hahead]
        exact .inr (.inr ⟨_, rfl⟩)

/-- **A length mismatch is not read past**: a part of a run that begins in the local header or the
    data of an entry of another size delivers nothing behind the data; and a `SizeMismatch` that
    names an entry is right. -/
theorem mismatch_not_read_past (hb : b.Reached) (hbuild : b.build = .ok r)
    (hdeliver : b.Delivering content mayFail) {i : Nat} {m : Member}
    (hm : (r.members content)[i]? = some m) (hsize : m.size ≠ 0) {offset : Nat}
    (hbegin : BeginsAt before offset) (hlow : m.offset ≤ offset)
    (hhigh : offset < m.offset + m.localSize + m.size) (hsteps : Steps r (before ++ ops) r')
    (hpolls : ∀ op ∈ ops, op.isPoll = true) (hok : ∀ op ∈ ops, op.succeeds = true) :
    (¬ m.Honest → deliveredBytes ops <+: (m.localBytes ++ m.data).drop (offset - m.offset)) ∧
    ∀ ctx fuel buf expected actual r'' buf', r'.pollRead ctx fuel buf =
        .ok (.err (.read (.sizeMismatch m.name expected actual)), r'', buf') → ¬ m.Honest := by
  obtain ⟨a, hbuilt⟩ := hb.built content hbuild
  rw [← hbuilt.members] at hm
  obtain ⟨r₁, hbefore, hafter⟩ := hsteps.split
  have hat := hbegin.readerAt (hbuilt.start hdeliver) hbefore
  obtain ⟨rest', hstream, hat'⟩ := Steps.stream hat hafter hpolls hok
  constructor
  · intro hne
    have hoffset : offset = extents (a.members.take i) + (offset - m.offset) := by
      have := a.offsets i m hm
      omega
    have hhalts := m.halts_of_not_honest H hne (offset - m.offset - m.localSize)
    have hmember := tailAt_member (H := H) (k := offset - m.offset) hm (by omega)
    rw [← hoffset, hstream, if_pos ⟨hsize, hhalts⟩, Member.readable, if_neg hsize] at hmember
    have hitems := congrArg Tail.items hmember
    simp only [Tail.cons_items, Tail.halted, List.append_nil] at hitems
    exact ⟨_, hitems⟩
  · intro ctx fuel buf expected actual r'' buf' hpoll
    obtain ⟨bytes, hpolled⟩ := pollRead_step hat' hpoll
    -- the error names a member; names are unique, so it is this one
    generalize hname : m.name = name at hpoll hpolled
    cases hpolled.outcome with
    | sizeMismatch hm' hne _ _ _ =>
      rw [hbuilt.member_eq (List.mem_of_getElem? hm) hm' hname]
      exact hne

end Model

/-! ### Sessions -/

/-- A file that reports 3 bytes and yields 300. -/
def longFile : List (Source steady) := [([0x61], .reporting (List.replicate 300 7) 3, none)]

/-- A file that reports 20 bytes and yields 3, and its CRC, in front of another one. -/
def shortFile : List (Source steady) :=
  [([0x61], .reporting [1, 2, 3] 20, some 0x55BC801D), ([0x62], .honest [9], none)]

/-- All data is delivered where 3 bytes are announced, and more than the whole archive. -/
theorem surplus_is_delivered :
    ∃ x : Session steady crc32Ieee,
      session crc32Ieee longFile 20 [.poll true (.new 100), .poll true (.new 400)] = some x ∧
      x.builder.Reached ∧ x.builder.build = .ok x.reader ∧
      x.builder.Delivering PacedData.bytes False ∧ Steps x.reader x.ops x.last ∧
      (∀ op ∈ x.ops, op.isPoll = true) ∧ (∀ op ∈ x.ops, op.succeeds = true) ∧
      x.last.readState.currentChunk = .entryData 0 ∧ x.reader.entries.map (·.size) = [3] ∧
      (deliveredBytes x.ops).drop 59 = List.replicate 300 7 ∧
      x.reader.size < (deliveredBytes x.ops).length := by
  have hrun : (session crc32Ieee longFile 20 [.poll true (.new 100), .poll true (.new 400)]).map
      (fun x => decide ((∀ op ∈ x.ops, op.isPoll = true) ∧ (∀ op ∈ x.ops, op.succeeds = true) ∧
        x.last.readState.currentChunk = .entryData 0 ∧ x.reader.entries.map (·.size) = [3] ∧
        (deliveredBytes x.ops).drop 59 = List.replicate 300 7 ∧
        x.reader.size < (deliveredBytes x.ops).length)) = some true := by decide +kernel
  obtain ⟨x, hx, h, hseen⟩ := exists_session hrun
  obtain ⟨hpolls, hok, hchunk, hsizes, hdata, hlonger⟩ := of_decide_eq_true hseen
  exact ⟨x, hx, h.reached, h.build, h.delivering steady_ne_fail, h.steps, hpolls, hok, hchunk,
    hsizes, hdata, hlonger⟩

/-- Behind the surplus no poll succeeds, and the only error is the one that names the file. -/
theorem surplus_ends_delivery_session :
    ∃ x : Session steady crc32Ieee,
      session crc32Ieee longFile 20 [.poll true (.new 100), .poll true (.new 400)] = some x ∧
      (deliveredBytes x.ops).length ≤ x.reader.size + 297 ∧
      ∀ ctx fuel buf answer r' buf', 0 < buf.remaining →
        x.last.pollRead ctx fuel buf = .ok (answer, r', buf') →
        answer ≠ .ok () ∧
          ∀ e, answer = .err e → ∃ actual, e = .read (.sizeMismatch [0x61] 3 actual) := by
  have hrun : (session crc32Ieee longFile 20 [.poll true (.new 100), .poll true (.new 400)]).map
      (fun x => decide ((∀ op ∈ x.ops, op.isPoll = true) ∧ (∀ op ∈ x.ops, op.succeeds = true) ∧
        surplus (x.reader.members PacedData.bytes) = 297 ∧
        (∀ entry ∈ x.reader.entries, entry.crc32 = none ∧ entry.size ≠ 0) ∧
        ∃ m ∈ (x.reader.members PacedData.bytes)[0]?, m.name = [0x61] ∧ m.size = 3 ∧
          m.data.length ≠ m.size ∧
          (deliveredBytes x.ops).drop m.offset = m.localBytes ++ m.data)) = some true := by
    decide +kernel
  obtain ⟨x, hx, h, hseen⟩ := exists_session hrun
  obtain ⟨hpolls, hok, hsurplus, hcrcs, m, hm, hname, hsize, hne, hall⟩ := of_decide_eq_true hseen
  obtain ⟨_, hlength, _, hlast⟩ := surplus_ends_delivery h.reached h.build
    (h.delivering steady_ne_fail) h.steps hpolls hok
  rw [hsurplus] at hlength
  refine ⟨x, hx, hlength, ?_⟩
  intro ctx fuel buf answer r' buf' hroom hpoll
  obtain ⟨hno, herror⟩ := hlast 0 m hm (by omega) hne (by simp) ctx fuel buf answer r' buf' hpoll
  refine ⟨hno hall hroom, fun e he => ?_⟩
  rcases herror e he with ⟨hfail, _⟩ | ⟨m', hm', hcrc, _⟩ | hmismatch
  · exact hfail.elim
  · -- the CRC that was not given is right
    obtain ⟨entry, hentry, rfl⟩ := List.mem_map.mp hm'
    obtain ⟨hnone, hsize'⟩ := hcrcs entry hentry
    simp [ReaderEntry.member, hnone, hsize'] at hcrc
  · rw [hname, hsize] at hmismatch
    exact hmismatch

/-- The last byte of the local header and the data are delivered, and nothing behind them. -/
theorem mismatch_not_read_past_session :
    ∃ x : Session steady crc32Ieee,
      session crc32Ieee shortFile 20 [.seek 58, .poll true (.new 10), .poll true (.new 10)] =
        some x ∧
      ∃ polls, x.ops = .seek 58 :: polls ∧ ∃ m, (x.reader.members PacedData.bytes)[0]? = some m ∧
        ¬ m.Honest ∧ deliveredBytes polls <+: (m.localBytes ++ m.data).drop 58 := by
  have hrun : (session crc32Ieee shortFile 20
      [.seek 58, .poll true (.new 10), .poll true (.new 10)]).map
      (fun x => decide (x.ops.map Op.target = [some 58, none, none] ∧
        (∀ op ∈ x.ops, op.succeeds = true) ∧
        ∃ m ∈ (x.reader.members PacedData.bytes)[0]?,
          m.offset = 0 ∧ m.localSize = 59 ∧ m.size = 20 ∧ m.data = [1, 2, 3])) = some true := by
    decide +kernel
  obtain ⟨x, hx, h, hseen⟩ := exists_session hrun
  obtain ⟨htargets, hok, m, hfirst, hoffset, hlocal, hsize, hdata⟩ := of_decide_eq_true hseen
  obtain ⟨polls, hops, hpolls⟩ := eq_seek_cons_of_map_target htargets
  have hne : ¬ m.Honest := by
    rw [Member.Honest, hdata, hsize]
    decide
  have hsteps : Steps x.reader ([.seek 58] ++ polls) x.last := by
    rw [List.singleton_append, ← hops]
    exact h.steps
  have hmain := (mismatch_not_read_past h.reached h.build (h.delivering steady_ne_fail) hfirst
    (by omega) (.seek [] 58) (by omega) (by omega) hsteps
    (isPoll_of_map_target (n := 2) hpolls) (fun op hop => hok op (by rw [hops]; simp [hop]))).1 hne
  rw [hoffset] at hmain
  exact ⟨x, hx, polls, hops, m, hfirst, hne, hmain⟩

end Zippity
