import Zippity.Session

/-! # Which CRCs are checked, and which are cached

    A supplied CRC is compared where the data of its entry ends.  An empty entry
    is skipped by its size, so its CRC is compared nowhere and the archive
    carries it as it was supplied.

    A CRC that is not supplied is computed, in one of three places, and cached
    with its entry; what is cached is right and stays.
-/

namespace Zippity

open Framework

section Model
variable {E : EntryData} {H : Crc32Fast} {mayFail : Prop} {content : E.Data → List UInt8}
  {b : Builder E} {r r' : Reader E H} {ops : List (Op E)}

/-! ### Supplied CRCs -/

/-- Every CRC that is supplied for an empty entry is that of no data. -/
def Builder.EmptyCrcs (b : Builder E) (H : Crc32Fast) : Prop :=
  ∀ name entry, (name, entry) ∈ b.entries.entries → E.size entry.data = 0 →
    ∀ crc, entry.crc32 = some crc → crc = H.hash []

/-- A stream that is read from its start to its end has right CRCs, except those of empty
    members. -/
theorem crc_eq_of_complete {ms : List Member} {m : Member}
    (h : (tailAt (segments H ms) 0).complete = true) (hm : m ∈ ms) (hsize : m.size ≠ 0) :
    m.crc = H.hash m.data := by
  have hown : m.dataSegment H ∈ m.segments H := by simp [Member.segments]
  have hseg : m.dataSegment H ∈ segments H ms :=
    List.mem_append_left _ (List.mem_flatMap_of_mem hm hown)
  have hgo : m.halts H 0 = false := halts_eq_false_of_complete h hseg (Nat.pos_of_ne_zero hsize)
  by_contra hne
  have hhalts : m.halts H 0 = true := decide_eq_true (.inr ⟨rfl, hne⟩)
  rw [hgo] at hhalts
  cases hhalts

/-- With honest sizes, and right CRCs for all entries but the empty ones, all is right if those of
    the empty ones are. -/
theorem Built.rightCrcs_iff_emptyCrcs {a : Archive} (h : Built content b r a)
    (hhonest : b.HonestSizes content)
    (hchecked : ∀ m ∈ a.members, m.size ≠ 0 → m.crc = H.hash m.data) :
    b.RightCrcs content H ↔ b.EmptyCrcs H := by
  have hnil : ∀ name source, (name, source) ∈ b.entries.entries → E.size source.data = 0 →
      content source.data = [] := by
    intro name source hsource hsize
    exact List.length_eq_zero_iff.mp ((hhonest name source hsource).trans hsize)
  constructor
  · intro hcrcs name source hsource hsize crc hcrc
    rw [hcrcs name source hsource crc hcrc, hnil name source hsource hsize]
  · intro hempty name source hsource crc hcrc
    by_cases hsize : E.size source.data = 0
    · rw [hempty name source hsource hsize crc hcrc, hnil name source hsource hsize]
    · obtain ⟨entry, hentry, hfrom⟩ := h.entry hsource
      have hm : entry.member H content ∈ a.members := by
        rw [h.members]
        exact List.mem_map_of_mem hentry
      have hright := hchecked _ hm (by show entry.size ≠ 0; rw [hfrom.size]; exact hsize)
      rw [hfrom.member_crc (hhonest name source hsource), hcrc] at hright
      rw [← show entry.data = source.data from hfrom.data]
      exact hright

/-- **Which CRCs a complete read checks**: all but those of empty entries.  A read from the start
    to the end without an error delivers the archive; the supplied CRCs, and so all that it
    carries, are right if and only if those of the empty entries are.  When the supplied CRCs are
    right no mismatch is returned. -/
theorem complete_read_checks_crcs (hb : b.Reached) (hbuild : b.build = .ok r)
    (hdeliver : b.Delivering content mayFail) (hhonest : b.HonestSizes content) :
    (∀ ops r', Steps r ops r' → (∀ op ∈ ops, op.isPoll = true) →
      (∀ op ∈ ops, op.succeeds = true) → r'.AtEnd →
      (b.RightCrcs content H ↔ b.EmptyCrcs H) ∧
      deliveredBytes ops = archiveBytes (r.members content) ∧
      ((∀ m ∈ r.members content, m.crc = H.hash m.data) ↔ b.EmptyCrcs H)) ∧
    (b.RightCrcs content H → ∀ ops r', Steps r ops r' →
      ∀ ctx fuel buf name expected actual r'' buf', r'.pollRead ctx fuel buf ≠
        .ok (.err (.read (.crc32Mismatch name expected actual)), r'', buf')) := by
  obtain ⟨a, hbuilt⟩ := hb.built content hbuild
  have hstart := hbuilt.start hdeliver
  rw [← hbuilt.members]
  constructor
  · intro ops r' hsteps hpolls hok hend
    obtain ⟨rest, hstream, hat⟩ := Steps.stream hstart hsteps hpolls hok
    rw [hat.eq_done hend] at hstream
    have hcomplete : (tailAt (segments H a.members) 0).complete = true := by
      rw [hstream]
      rfl
    have hempty := hbuilt.rightCrcs_iff_emptyCrcs hhonest fun m hm hsize =>
      crc_eq_of_complete hcomplete hm hsize
    refine ⟨hempty, ?_, (hbuilt.rightCrcs_iff hhonest).symm.trans hempty⟩
    have hsize : ∀ seg ∈ segments H a.members, seg.items.length = seg.size := by
      intro seg hseg
      rcases mem_segments hseg with ⟨items, rfl⟩ | ⟨m, hm, rfl⟩
      · rfl
      · exact hbuilt.honest hhonest m hm
    rw [← items_segments (H := H), ← items_of_complete hcomplete hsize, hstream]
    simp [Tail.done]
  · intro hcrcs ops r' hsteps ctx fuel buf name expected actual r'' buf' hpoll
    obtain ⟨rest, hat⟩ := Steps.readerAt hstart hsteps
    obtain ⟨bytes, hpolled⟩ := pollRead_step hat hpoll
    cases hpolled.outcome with
    | crcMismatch hm hcrc _ _ => exact hcrc ((hbuilt.rightCrcs_iff hhonest).mp hcrcs _ hm)

/-! ### Cached CRCs -/

theorem Reader.mem_crc32s {r : Reader E H} {name : Name} {crc : UInt32} :
    (name, crc) ∈ r.crc32s ↔
      ∃ (i : Nat) (entry : ReaderEntry E), r.entries[i]? = some entry ∧ entry.name = name ∧
        entry.crc32 = some crc := by
  unfold Reader.crc32s
  rw [List.mem_filterMap]
  constructor
  · rintro ⟨entry, hentry, heq⟩
    obtain ⟨crc', hcrc, heq⟩ := Option.map_eq_some_iff.mp heq
    cases heq
    obtain ⟨i, hi⟩ := List.getElem?_of_mem hentry
    exact ⟨i, entry, hi, rfl, hcrc⟩
  · rintro ⟨i, entry, hentry, rfl, hcrc⟩
    exact ⟨entry, List.mem_of_getElem? hentry, by rw [hcrc]; rfl⟩

/-- In entries that keep the cached CRCs, a cached CRC is there and is the only one of its name. -/
theorem Caches.mem_crc32s_iff (h : Caches r.entries r'.entries)
    (hnames : (r'.entries.map ReaderEntry.name).Nodup) {name : Name} {crc crc' : UInt32}
    (hmem : (name, crc) ∈ r.crc32s) : (name, crc') ∈ r'.crc32s ↔ crc' = crc := by
  obtain ⟨i, entry, hentry, hname, hcrc⟩ := Reader.mem_crc32s.mp hmem
  have hlt : i < r'.entries.length := by
    rw [h.length]
    exact (List.getElem?_eq_some_iff.mp hentry).1
  have hentry' := List.getElem?_eq_getElem hlt
  obtain ⟨hname', hkept⟩ := h.keeps i entry _ hentry hentry'
  constructor
  · intro hmem'
    obtain ⟨j, entry'', hentry'', hname'', hcrc''⟩ := Reader.mem_crc32s.mp hmem'
    -- one name, one entry
    have heq : entry'' = r'.entries[i] := List.inj_on_of_nodup_map hnames
      (List.mem_of_getElem? hentry'') (List.getElem_mem hlt) (by rw [hname'', hname', hname])
    rw [heq, hkept crc hcrc] at hcrc''
    exact (Option.some.inj hcrc'').symm
  · rintro rfl
    exact Reader.mem_crc32s.mpr ⟨i, _, hentry', hname'.trans hname, hkept _ hcrc⟩

/-- **Cached CRCs are right and stay**, along every run of a reader with honest entries, whatever
    is interrupted, fails or is sought. -/
theorem crc32s_right_and_kept (hb : b.Reached) (hbuild : b.build = .ok r)
    (hdeliver : b.Delivering content mayFail) (hhonest : b.HonestSizes content)
    (hsteps : Steps r ops r') :
    (∀ name crc, (name, crc) ∈ r'.crc32s → ∃ entry, (name, entry) ∈ b.entries.entries ∧
      crc = entry.crc32.getD (H.hash (content entry.data))) ∧
    ∀ later r'', Steps r' later r'' → ∀ name crc, (name, crc) ∈ r'.crc32s →
      ∀ crc', (name, crc') ∈ r''.crc32s ↔ crc' = crc := by
  obtain ⟨a, hbuilt⟩ := hb.built content hbuild
  have hstart := hbuilt.start hdeliver
  obtain ⟨rest, hat⟩ := Steps.readerAt hstart hsteps
  constructor
  · intro name crc hmem
    obtain ⟨i, entry, hentry, hname, hcrc⟩ := Reader.mem_crc32s.mp hmem
    have hlt : i < a.members.length := by
      rw [← hat.stocked.length]
      exact (List.getElem?_eq_some_iff.mp hentry).1
    have hm := List.getElem?_eq_getElem hlt
    have hrep := hat.stocked.represents i entry _ hentry hm
    -- the member is that of an entry of the fresh reader
    have hmem' : a.members[i] ∈ r.members content := by
      rw [← hbuilt.members]
      exact List.getElem_mem hlt
    obtain ⟨entry₀, hentry₀, hmember⟩ := List.mem_map.mp hmem'
    obtain ⟨name₀, source, hsource, hfrom⟩ := hbuilt.source hentry₀
    have hname₀ : name₀ = name := by
      have : entry₀.name = name₀ := hfrom.name
      rw [← this, ← hname, hrep.name, ← hmember]
      rfl
    subst hname₀
    refine ⟨source, hsource, ?_⟩
    rw [hrep.crc crc hcrc, ← hmember]
    exact hfrom.member_crc (hhonest _ source hsource)
  · intro later r'' hlater name crc hmem crc'
    obtain ⟨rest', hat'⟩ := Steps.readerAt hat hlater
    have hnames : (r''.entries.map ReaderEntry.name).Nodup := by
      rw [hat'.stocked.listed.map_name, ← hbuilt.listed.map_name]
      exact hbuilt.names
    exact (Steps.caches hat hlater).mem_crc32s_iff hnames hmem

end Model

/-! ### Sessions -/

/-- An empty file with a wrong CRC. -/
def emptyFile : List (Source steady) := [([0x61], .reporting [] 0, some 1)]

/-- The archive is read to its end with the wrong CRC in it. -/
theorem empty_crc_unchecked :
    ∃ x : Session steady crc32Ieee,
      session crc32Ieee emptyFile 20 [.poll true (.new 300)] = some x ∧
      x.builder.Reached ∧ x.builder.build = .ok x.reader ∧
      x.builder.Delivering PacedData.bytes False ∧ x.builder.HonestSizes PacedData.bytes ∧
      Steps x.reader x.ops x.last ∧ (∀ op ∈ x.ops, op.isPoll = true) ∧
      (∀ op ∈ x.ops, op.succeeds = true) ∧ x.last.AtEnd ∧
      ¬ x.builder.RightCrcs PacedData.bytes crc32Ieee := by
  have hrun : (session crc32Ieee emptyFile 20 [.poll true (.new 300)]).map
      (fun x => decide ((∀ op ∈ x.ops, op.isPoll = true) ∧ (∀ op ∈ x.ops, op.succeeds = true) ∧
        x.last.endTest true 20 = true)) = some true := by decide +kernel
  obtain ⟨x, hx, h, hseen⟩ := exists_session hrun
  obtain ⟨hpolls, hok, hend⟩ := of_decide_eq_true hseen
  refine ⟨x, hx, h.reached, h.build, h.delivering steady_ne_fail, h.honestSizes (by decide),
    h.steps, hpolls, hok, Reader.atEnd_of_endTest hend, ?_⟩
  intro hcrcs
  obtain ⟨name, entry, hentry, hsource⟩ := h.exists_entry (List.mem_singleton_self _)
  have hdata : PacedData.honest [] = entry.data := congrArg (·.2.1) hsource
  have hcrc : some 1 = entry.crc32 := congrArg (·.2.2) hsource
  have hwrong := hcrcs name entry hentry 1 hcrc.symm
  rw [← hdata] at hwrong
  exact absurd hwrong (by decide +kernel)

theorem complete_read_checks_crcs_session :
    ∃ x : Session steady crc32Ieee,
      session crc32Ieee steadyFiles 20 (List.replicate 7 (.poll true (.new 400))) = some x ∧
      deliveredBytes x.ops = archiveBytes (x.reader.members PacedData.bytes) ∧
      ∀ m ∈ x.reader.members PacedData.bytes, m.crc = crc32Ieee.hash m.data := by
  have hrun : (session crc32Ieee steadyFiles 20 (List.replicate 7 (.poll true (.new 400)))).map
      (fun x => decide ((∀ op ∈ x.ops, op.isPoll = true) ∧ (∀ op ∈ x.ops, op.succeeds = true) ∧
        x.last.endTest true 20 = true)) = some true := by decide +kernel
  obtain ⟨x, hx, h, hseen⟩ := exists_session hrun
  obtain ⟨hpolls, hok, hend⟩ := of_decide_eq_true hseen
  have hempty : x.builder.EmptyCrcs crc32Ieee := by
    intro name entry hentry hsize crc hcrc
    have hnone : entry.crc32 = none := h.forall (P := fun s => s.2.1.reported = 0 → s.2.2 = none)
      (by decide) name entry hentry hsize
    rw [hcrc] at hnone
    cases hnone
  obtain ⟨_, hdelivered, hcarried⟩ := (complete_read_checks_crcs h.reached h.build
    (h.delivering steady_ne_fail) (h.honestSizes (by decide))).1 x.ops x.last h.steps hpolls hok
    (Reader.atEnd_of_endTest hend)
  exact ⟨x, hx, hdelivered, hcarried.mpr hempty⟩

/-- A read of the third file is interrupted by an error and a seek before its CRC is cached. -/
theorem crc32s_right_and_kept_session :
    ∃ x : Session faulty crc32Ieee,
      session crc32Ieee faultyFiles 20 [.seek 230, .poll .go (.new 1), .poll .fail (.new 5),
        .seek 240, .poll .wait (.new 5), .poll .go (.new 500)] = some x ∧
      ([0x63], 0x538D4D69) ∈ x.last.crc32s ∧
      ∀ later r', Steps x.last later r' →
        ∀ crc, ([0x63], crc) ∈ r'.crc32s ↔ crc = 0x538D4D69 := by
  have hrun : (session crc32Ieee faultyFiles 20 [.seek 230, .poll .go (.new 1),
      .poll .fail (.new 5), .seek 240, .poll .wait (.new 5), .poll .go (.new 500)]).map
      (fun x => decide (([0x63], 0x538D4D69) ∈ x.last.crc32s)) = some true := by decide +kernel
  obtain ⟨x, hx, h, hseen⟩ := exists_session hrun
  have hmem := of_decide_eq_true hseen
  refine ⟨x, hx, hmem, ?_⟩
  intro later r' hlater
  exact (crc32s_right_and_kept h.reached h.build (h.delivering fun _ _ => trivial)
    (h.honestSizes (by decide)) h.steps).2 later r' hlater _ _ hmem

end Zippity
