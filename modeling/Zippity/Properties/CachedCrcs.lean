import Zippity.Properties.KnownCrcs
import Zippity.Properties.RoundTrip
import Zippity.Reader.Opening

/-! # CRCs for the next reader

    A read without seeks gets to the end of the archive only through the data
    descriptors of all entries, so every CRC is known then, whatever the sources
    did.  Handed to a copy of the builder, the CRCs that `crc32s` yields make a
    reader of the same archive that has none to compute.
-/

namespace Zippity

open Framework Async

section Model
variable {E : EntryData} {H : Crc32Fast}

/-! ### The end of a read -/

/-- The archive was read to its end, and nothing of it is staged. -/
def Finished (rs : ReadState) : Prop := rs.currentChunk = .finished ∧ rs.stagingBuffer = []

/-- The part of the loop body is left early. -/
def LeavesEarly {α : Type} (r : PollResult (IoError E) (Flow α)) : Prop :=
  r = .ok .leave ∨ r = .ok .ret

section Loop
variable {s : Frame E H} {sizes : Sizes} {ctx : E.Context} {fuel initialRemaining size : Nat}

/-- The macro returns early only with something written. -/
theorem zippityReady_leaves {α : Type} (x : FrameRead E H α) :
    (zippityReady initialRemaining x).wp (fun _ => True)
      (fun r s' => LeavesEarly r → s'.output.remaining ≠ initialRemaining) s := by
  rw [zippityReady_wp]
  refine wp_of_forall ?_
  rintro (_ | _ | a) s'
  · dsimp only
    split
    · rintro (h | h) <;> cases h
    · next hne => exact fun _ => hne
  · rintro (h | h) <;> cases h
  · rintro (h | h) <;> cases h

/-- And so does every chunk. -/
theorem readChunk_leaves :
    (readChunk sizes ctx fuel initialRemaining).wp (fun _ => True)
      (fun r s' => LeavesEarly r → s'.output.remaining ≠ initialRemaining) s := by
  -- a header that was written goes on
  have hheader : ∀ {α : Type} (x : FrameRead E H α), (x >>= fun _ => pure (.go true)).wp
      (fun _ => True) (fun (r : PollResult (IoError E) (Flow Bool)) s' =>
        LeavesEarly r → s'.output.remaining ≠ initialRemaining) s := by
    intro α x
    rw [wp_bind]
    refine wp_of_forall ?_
    rintro (_ | _ | _) s' (h | h) <;> cases h
  unfold readChunk
  rw [wp_get_bind]
  cases s.readState.currentChunk with
  | localHeader i => exact hheader _
  | entryData i =>
    dsimp only
    split
    · next hne =>
      rw [wp_bind, wp_lift]
      refine Exec.wp_assert (fun _ => trivial) fun _ => ?_
      exact fun _ => hne
    · exact zippityReady_leaves _
  | dataDescriptor i => exact zippityReady_leaves _
  | cdFileHeader i => exact zippityReady_leaves _
  | eocd =>
    dsimp only
    rw [wp_bind]
    refine wp_of_forall ?_
    rintro (_ | _ | result) s'
    · rintro (h | h) <;> cases h
    · rintro (h | h) <;> cases h
    · rintro (h | h) <;> cases h
  | finished => trivial

/-- **The loop is left** with nothing written only at the end of the archive. -/
theorem readIteration_leaves :
    (readIteration sizes ctx fuel initialRemaining).wp (fun _ => True)
      (fun r s' => LeavesEarly r → s'.output.remaining = initialRemaining →
        Finished s'.readState) s := by
  unfold readIteration
  rw [wp_get_bind]
  split
  · rw [wp_bind]
    refine wp_of_forall ?_
    rintro (_ | _ | result) s₁ (h | h) <;> cases h
  · next hempty =>
    split
    · next hfin => exact fun _ _ => ⟨hfin, not_not.mp hempty⟩
    · rw [wp_bind]
      refine wp_of_forall ?_
      rintro (_ | _ | size) s₁
      · rintro (h | h) <;> cases h
      · rintro (h | h) <;> cases h
      · simp only [andThen]
        split
        · rw [wp_bind]
          refine wp_of_forall ?_
          rintro (_ | _ | toSkip) s₂
          · rintro (h | h) <;> cases h
          · rintro (h | h) <;> cases h
          · simp only [andThen]
            rw [wp_bind]
            refine wp_of_forall ?_
            rintro (_ | _ | chunk) s₃ (h | h) <;> cases h
        · unfold processChunk
          rw [wp_bind]
          refine wp_mono readChunk_leaves (fun _ hf => hf) ?_
          rintro (_ | _ | flow) s₂ hleaves
          · rintro (h | h) <;> cases h
          · rintro (h | h) <;> cases h
          · cases flow with
            | go chunkDone =>
              simp only [andThen]
              rw [wp_bind]
              refine wp_of_forall ?_
              rintro (_ | _ | _) s₃ (h | h) <;> cases h
            | leave => exact fun _ heq => absurd heq (hleaves (.inl rfl))
            | ret => exact fun _ heq => absurd heq (hleaves (.inr rfl))

/-- A loop that wrote nothing, with room for it, ended at the end of the archive. -/
theorem readLoop_leaves (hroom : 0 < initialRemaining) :
    (readLoop sizes ctx initialRemaining fuel).wp (fun _ => True)
      (fun r s' => (∃ flow, r = .ok flow) → s'.output.remaining = initialRemaining →
        Finished s'.readState) s := by
  refine readLoop_rule (I := fun _ _ => True) (fun _ _ => trivial) ?_ ?_ trivial
  · intro fuel s _ _
    refine wp_mono readIteration_leaves (fun _ hf => hf) ?_
    intro r s' hleaves
    refine ⟨fun _ => trivial, ?_⟩
    rintro hgo ⟨flow, rfl⟩
    cases flow with
    | go => exact absurd rfl hgo
    | leave => exact hleaves (.inl rfl)
    | ret => exact hleaves (.inr rfl)
  · intro _ s _ hfull _ heq
    omega

/-- **A poll that delivers nothing** to a buffer with room leaves the reader at the end. -/
theorem finished_of_pollRead {r r' : Reader E H} {buf : ReadBuf} (hroom : 0 < buf.remaining)
    (h : r.pollRead ctx fuel buf = .ok (.ok (), r', buf)) :
    Finished r'.readState := by
  have hloop : (readLoop r.sizes ctx buf.remaining fuel).wp (fun _ => True)
      (fun answer s' => answer.map (fun _ => ()) = .ok () →
        s'.output.remaining = buf.remaining → Finished s'.readState) (r.frame buf) := by
    refine wp_mono (readLoop_leaves hroom) (fun _ hf => hf) ?_
    rintro (_ | _ | flow) s' hend
    · exact fun h => by cases h
    · exact fun h => by cases h
    · exact fun _ => hend ⟨flow, rfl⟩
  have hcall := Exec.wp_of_eq_ok (pollRead_rule (F := fun _ => True)
    (Q := fun answer s' => answer = .ok () → s'.output.remaining = buf.remaining →
      Finished s'.readState) trivial (fun _ _ hend => hend) hloop) h
  exact hcall.2 rfl rfl

end Loop

/-! ### Complete reads -/

/-- What is selected of every element, one by one. -/
theorem filterMap_eq_map {α β γ : Type} {f : α → Option γ} {g : β → γ} {xs : List α} {ys : List β}
    (h : List.Forall₂ (fun x y => f x = some (g y)) xs ys) : xs.filterMap f = ys.map g := by
  induction h with
  | nil => rfl
  | cons hxy _ ih => rw [List.filterMap_cons_some hxy, ih, List.map_cons]

section Complete
variable {b : Builder E} {r r₁ r' : Reader E H} {ops : List (Op E)} {ctx : E.Context} {fuel : Nat}
  {buf : ReadBuf}

/-- **Without seeks** the CRCs behind the current chunk are known. -/
theorem CrcsBehind.run {a : Archive} (h : CrcsBehind r.still) (hguarded : Guarded a r)
    (hsteps : Steps r ops r') (hpolls : ∀ op ∈ ops, op.isPoll = true) :
    Guarded a r' ∧ CrcsBehind r'.still := by
  apply hsteps.invariant_of (fun op => op.isPoll = true) hpolls
    (fun _ r' => Guarded a r' ∧ CrcsBehind r'.still) ⟨hguarded, h⟩
  rintro _ r₁ op r₂ ⟨hguarded₁, hbehind₁⟩ hpoll hstep
  cases op with
  | seek offset => cases hpoll
  | pollRead ctx buf answer buf' =>
    obtain ⟨fuel, hpolled⟩ := hstep
    have hstep := hguarded₁.pollRead hpolled
    exact ⟨hstep.1, hstep.2.behind hbehind₁⟩

/-- The entries at the end of a read without seeks. -/
theorem known_of_complete_read (hb : b.Reached) (hbuild : b.build = .ok r)
    (hsteps : Steps r ops r₁) (hpolls : ∀ op ∈ ops, op.isPoll = true) (hroom : 0 < buf.remaining)
    (hend : r₁.pollRead ctx fuel buf = .ok (.ok (), r', buf)) :
    ∀ entry ∈ r'.entries, entry.crc32 ≠ none := by
  obtain ⟨a, hbuilt, hguarded⟩ := hb.guarded hbuild
  have hbehind : CrcsBehind r.still := by
    rw [hbuilt.reader]
    exact crcsBehind_new _ _
  have hlast : Steps r (ops ++ [.pollRead ctx buf (.ok ()) buf]) r' := .snoc hsteps ⟨fuel, hend⟩
  have hpolls' : ∀ op ∈ ops ++ [Op.pollRead ctx buf (.ok ()) buf], op.isPoll = true :=
    List.forall_mem_append.mpr ⟨hpolls, List.forall_mem_singleton.mpr rfl⟩
  have hbehind' := (hbehind.run hguarded hlast hpolls').2
  intro entry hentry
  obtain ⟨i, hi⟩ := List.getElem?_of_mem hentry
  refine hbehind'.known i entry hi ?_
  -- at the end of the archive everything is behind
  rw [show r'.still.readState.currentChunk = _ from (finished_of_pollRead hroom hend).1]
  trivial

/-- A reader keeps the names of its entries. -/
theorem names_of_run (hb : b.Reached) (hbuild : b.build = .ok r) (hsteps : Steps r ops r') :
    r'.entries.map ReaderEntry.name = b.entries.keys := by
  obtain ⟨a, hbuilt, hguarded⟩ := hb.guarded hbuild
  have hkept := (hguarded.run hsteps).2
  refine Eq.trans ?_ (map_name_eq hbuilt.sources)
  generalize r.entries = entries, r'.entries = entries' at hkept
  induction hkept with
  | nil => rfl
  | cons hkeeps _ ih =>
    obtain ⟨crc32, rfl, _⟩ := hkeeps
    rw [List.map_cons, List.map_cons, ih]

/-- What is known of the CRCs of right data is right. -/
theorem right_of_stocked {mayFail : Prop} {content : E.Data → List UInt8} {a : Archive}
    {entries : List (ReaderEntry E)} (hbuilt : Built content b r a)
    (hhonest : b.HonestSizes content) (hcrcs : b.RightCrcs content H)
    (hstocked : Stocked H mayFail (r.members content) entries) :
    List.Forall₂ (fun (entry : ReaderEntry E) source => entry.name = source.1 ∧
        ∀ crc, entry.crc32 = some crc → crc = H.hash (content source.2.data))
      entries b.entries.entries := by
  have hsources := hbuilt.sources
  refine List.forall₂_iff_get.mpr ⟨?_, ?_⟩
  · rw [hsources.length_eq, hstocked.length, List.length_map]
  · intro i hi' hi
    -- the entry at `i` represents the member that is made of the source
    have hir : i < r.entries.length := hsources.length_eq ▸ hi
    have hfrom := (List.forall₂_iff_get.mp hsources).2 i hi hir
    have hm : (r.members content)[i]? = some ((r.entries.get ⟨i, hir⟩).member H content) := by
      rw [List.getElem?_map, List.getElem?_eq_getElem hir]
      rfl
    have hrep := hstocked.represents i _ _ (List.getElem?_eq_getElem hi') hm
    have hsource : b.entries.entries.get ⟨i, hi⟩ ∈ b.entries.entries := List.get_mem _ _
    generalize b.entries.entries.get ⟨i, hi⟩ = source at hfrom hsource
    refine ⟨hrep.name.trans hfrom.name, ?_⟩
    intro crc hcrc
    rw [hrep.crc crc hcrc,
      (show BuiltFrom (source.1, source.2) _ from hfrom).member_crc
        (hhonest source.1 source.2 hsource)]
    cases hsupplied : source.2.crc32 with
    | none => rfl
    | some crc' => exact hcrcs source.1 source.2 hsource crc' hsupplied

theorem right_of_run {mayFail : Prop} {content : E.Data → List UInt8} (hb : b.Reached)
    (hbuild : b.build = .ok r) (hdeliver : b.Delivering content mayFail)
    (hhonest : b.HonestSizes content) (hcrcs : b.RightCrcs content H) (hsteps : Steps r ops r') :
    List.Forall₂ (fun (entry : ReaderEntry E) source => entry.name = source.1 ∧
        ∀ crc, entry.crc32 = some crc → crc = H.hash (content source.2.data))
      r'.entries b.entries.entries := by
  obtain ⟨a, hbuilt⟩ := hb.built content hbuild
  obtain ⟨rest, hat⟩ := Steps.readerAt (hbuilt.start hdeliver) hsteps
  exact right_of_stocked hbuilt hhonest hcrcs (hbuilt.members ▸ hat.stocked)

/-- What `crc32s` yields of entries whose CRCs are known and right. -/
theorem crc32s_of_known {content : E.Data → List UInt8}
    {sources : List (Name × BuilderEntry E)} (hknown : ∀ entry ∈ r.entries, entry.crc32 ≠ none)
    (hright : List.Forall₂ (fun (entry : ReaderEntry E) source => entry.name = source.1 ∧
      ∀ crc, entry.crc32 = some crc → crc = H.hash (content source.2.data)) r.entries sources) :
    r.crc32s = sources.map fun source => (source.1, H.hash (content source.2.data)) := by
  refine filterMap_eq_map (((List.forall₂_and_left _ _).mpr ⟨hknown, hright⟩).imp ?_)
  rintro entry source ⟨hsome, hname, hhash⟩
  obtain ⟨crc, hcrc⟩ := Option.ne_none_iff_exists'.mp hsome
  rw [hcrc, hname, hhash crc hcrc]
  rfl

/-- **A complete read leaves every CRC known**, whatever the sources did, and right if they are. -/
theorem complete_read_knows_crcs (hb : b.Reached) (hbuild : b.build = .ok r)
    (hsteps : Steps r ops r₁) (hpolls : ∀ op ∈ ops, op.isPoll = true) (hroom : 0 < buf.remaining)
    (hend : r₁.pollRead ctx fuel buf = .ok (.ok (), r', buf)) :
    r'.crc32s.map Prod.fst = b.entries.keys ∧
    ∀ mayFail content, b.Delivering content mayFail → b.HonestSizes content →
      b.RightCrcs content H →
      r'.crc32s = b.entries.entries.map fun entry => (entry.1, H.hash (content entry.2.data)) := by
  have hknown := known_of_complete_read hb hbuild hsteps hpolls hroom hend
  have hlast : Steps r (ops ++ [.pollRead ctx buf (.ok ()) buf]) r' := .snoc hsteps ⟨fuel, hend⟩
  constructor
  · have hself : r'.crc32s = r'.entries.map fun entry => (entry.name, entry.crc32.getD 0) := by
      refine filterMap_eq_map (List.forall₂_same.mpr fun entry hentry => ?_)
      obtain ⟨crc, hcrc⟩ := Option.ne_none_iff_exists'.mp (hknown entry hentry)
      rw [hcrc]
      rfl
    rw [hself, List.map_map]
    exact names_of_run hb hbuild hlast
  · intro mayFail content hdeliver hhonest hcrcs
    exact crc32s_of_known hknown (right_of_run hb hbuild hdeliver hhonest hcrcs hlast)

end Complete

/-! ### CRCs for a copy of the builder -/

/-- A CRC that is set in the end, if one is. -/
def crcAfter (pairs : List (Name × UInt32)) (name : Name) (entry : BuilderEntry E) :
    BuilderEntry E :=
  pairs.foldl (fun entry pair => if name = pair.1 then entry.setCrc32 pair.2 else entry) entry

section Copies
variable {b b₂ : Builder E} {pairs : List (Name × UInt32)} {name : Name} {entry : BuilderEntry E}

/-- Setting the CRC of one entry after another. -/
theorem entries_of_setCrcs
    (hset : builderSystem.Run b (pairs.map fun pair => .set pair.1 (.crc32 pair.2)) b₂) :
    b₂.entries.entries = b.entries.entries.map fun entry =>
      (entry.1, crcAfter pairs entry.1 entry.2) := by
  induction pairs using List.reverseRecOn generalizing b₂ with
  | nil =>
    generalize hnone : (([] : List (Name × UInt32)).map fun pair =>
      (.set pair.1 (.crc32 pair.2) : BuilderCall E)) = calls at hset
    cases hset with
    | nil => exact (List.map_id _).symm
    | snoc => simp at hnone
  | append_singleton pairs pair ih =>
    rw [List.map_append, List.map_singleton] at hset
    obtain ⟨b₁, hbefore, hlast⟩ := hset.snoc_inv
    rw [show b₂ = _ from hlast]
    show (b₁.entries.entries.map _) = _
    rw [ih hbefore, List.map_map]
    apply List.map_congr_left
    intro entry _
    unfold crcAfter
    rw [List.foldl_append]
    rfl

theorem exists_setCrcs (b : Builder E) (pairs : List (Name × UInt32)) :
    ∃ b₂, builderSystem.Run b (pairs.map fun pair => .set pair.1 (.crc32 pair.2)) b₂ := by
  induction pairs generalizing b with
  | nil => exact ⟨b, .nil⟩
  | cons pair pairs ih =>
    obtain ⟨b₂, hrun⟩ := ih { b with entries := b.entries.adjust pair.1 (·.set (.crc32 pair.2)) }
    exact ⟨b₂, .cons rfl hrun⟩

/-- Other names' CRCs do not matter. -/
theorem crcAfter_of_not_mem (h : ∀ pair ∈ pairs, pair.1 ≠ name) :
    crcAfter pairs name entry = entry := by
  induction pairs with
  | nil => rfl
  | cons pair pairs ih =>
    unfold crcAfter
    rw [List.foldl_cons, if_neg (h pair List.mem_cons_self).symm]
    exact ih fun pair hpair => h pair (List.mem_cons_of_mem _ hpair)

/-- The entry of a name that occurs once gets its CRC. -/
theorem crcAfter_of_mem {crc : UInt32} (hnodup : (pairs.map Prod.fst).Nodup)
    (h : (name, crc) ∈ pairs) : crcAfter pairs name entry = entry.setCrc32 crc := by
  obtain ⟨before, after, rfl⟩ := List.append_of_mem h
  rw [List.map_append, List.map_cons, List.nodup_append, List.nodup_cons] at hnodup
  obtain ⟨_, ⟨hafter, _⟩, hbefore⟩ := hnodup
  have hfirst : crcAfter before name entry = entry := by
    apply crcAfter_of_not_mem
    intro pair hpair
    exact hbefore pair.1 (List.mem_map_of_mem hpair) name List.mem_cons_self
  have hrest : crcAfter after name (entry.setCrc32 crc) = entry.setCrc32 crc := by
    apply crcAfter_of_not_mem
    intro pair hpair heq
    exact hafter (List.mem_map.mpr ⟨pair, hpair, heq⟩)
  unfold crcAfter at hfirst hrest ⊢
  rw [List.foldl_append, hfirst, List.foldl_cons, if_pos rfl, hrest]

/-- **The layout does not depend on CRCs.** -/
theorem buildEntries_setCrcs (crc : E.Data → UInt32) (sources : List (Name × BuilderEntry E))
    (offset cdSize : Nat) :
    Builder.buildEntries
        (sources.map fun source => (source.1, source.2.setCrc32 (crc source.2.data)))
        offset cdSize =
      (fun built : List (ReaderEntry E) × Nat × Nat =>
          (built.1.map fun entry => { entry with crc32 := some (crc entry.data) }, built.2)) <$>
        Builder.buildEntries sources offset cdSize := by
  induction sources generalizing offset cdSize with
  | nil => rfl
  | cons source sources ih =>
    rw [List.map_cons]
    unfold Builder.buildEntries
    simp only [map_bind]
    refine bind_congr fun headerSize => bind_congr fun size => bind_congr fun offset' =>
      bind_congr fun cdHeader => bind_congr fun cdSize' => ?_
    rw [ih]
    cases Builder.buildEntries sources offset' cdSize' with
    | error f => rfl
    | ok built => rfl

variable {r r₂ r₂' : Reader E H}

/-- `build` of a builder whose CRCs were set. -/
theorem build_setCrcs (crc : E.Data → UInt32) (hbuild : b.build = .ok r)
    (hset : b₂.entries.entries = b.entries.entries.map fun source =>
      (source.1, source.2.setCrc32 (crc source.2.data))) :
    ∃ r₂ : Reader E H, b₂.build = .ok r₂ ∧
      r₂.entries = r.entries.map fun entry => { entry with crc32 := some (crc entry.data) } := by
  unfold Builder.build at hbuild ⊢
  rw [hset, buildEntries_setCrcs]
  obtain ⟨⟨entries, cdOffset, cdSize⟩, hentries, hbuild⟩ := Exec.bind_eq_ok hbuild
  obtain ⟨eocdOffset, heocd, hbuild⟩ := Exec.bind_eq_ok hbuild
  obtain ⟨eocdSize, hsize, hbuild⟩ := Exec.bind_eq_ok hbuild
  obtain ⟨totalSize, htotal, hbuild⟩ := Exec.bind_eq_ok hbuild
  cases hbuild
  simp only [hentries, Except.map_ok, Exec.ok_bind, heocd, hsize, htotal]
  exact ⟨_, rfl, rfl⟩

/-- When all CRCs are known, the entries stay what they are. -/
theorem entries_eq_of_keepsCrc {entries entries' : List (ReaderEntry E)}
    (hknown : ∀ entry ∈ entries, entry.crc32 ≠ none)
    (hkept : List.Forall₂ KeepsCrc entries entries') : entries' = entries := by
  induction hkept with
  | nil => rfl
  | @cons entry _ entries _ hkeeps _ ih =>
    obtain ⟨crc32, rfl, hkeeps⟩ := hkeeps
    obtain ⟨crc, hcrc⟩ := Option.ne_none_iff_exists'.mp (hknown entry List.mem_cons_self)
    rw [ih fun entry hentry => hknown entry (List.mem_cons_of_mem _ hentry), hkeeps crc hcrc, ← hcrc]

/-- A reader whose CRCs are all known opens entries for their data alone. -/
theorem opens_data_only {a : Archive} (hguarded : Guarded a r)
    (hknown : ∀ entry ∈ r.entries, entry.crc32 ≠ none) {ctx : E.Context} {fuel : Nat}
    {buf : ReadBuf} {turn : Nat × Frame E H}
    (hturn : turn ∈ turns r.sizes ctx buf.remaining fuel (r.frame buf))
    {answer : PollResult (IoError E) (Flow Unit)} {s' : Frame E H}
    (hiteration : readIteration r.sizes ctx turn.1 buf.remaining turn.2 = .ok (answer, s')) :
    s'.log = turn.2.log ∨ ∃ i, turn.2.readState.currentChunk = .entryData i := by
  have hframe : Hardened a (r.frame buf) := hguarded.hardened.congr rfl rfl rfl
  have hkept := (hardStep_of_mem_turns hframe hturn).kept
  have hsame : turn.2.entries = r.entries := entries_eq_of_keepsCrc hknown hkept
  have hopens := Exec.wp_of_eq_ok
    (readIteration_opens r.sizes ctx turn.1 buf.remaining turn.2) hiteration
  rcases hopens with hlog | ⟨i, entry, hentry, _, hchunk | hcrc, _⟩
  · exact .inl hlog
  · exact .inr ⟨i, hchunk⟩
  · rw [hsame] at hentry
    exact absurd hcrc (hknown entry (List.mem_of_getElem? hentry))

end Copies

section Reused
variable {b b₂ : Builder E} {r r₁ r₂ r' : Reader E H} {ops : List (Op E)} {ctx : E.Context}
  {fuel : Nat} {buf : ReadBuf} {mayFail : Prop} {content : E.Data → List UInt8} {a : Archive}

/-- The entries of `b₂` are those of `b` with the CRCs of their contents. -/
def Hashed (H : Crc32Fast) (content : E.Data → List UInt8) (b b₂ : Builder E) : Prop :=
  b₂.entries.entries = b.entries.entries.map fun source =>
    (source.1, source.2.setCrc32 (H.hash (content source.2.data)))

/-- The CRCs of all entries, set one after another. -/
theorem hashed_of_setCrcs {pairs : List (Name × UInt32)}
    (hpairs : pairs = b.entries.entries.map fun source =>
      (source.1, H.hash (content source.2.data)))
    (hset : builderSystem.Run b (pairs.map fun pair => .set pair.1 (.crc32 pair.2)) b₂) :
    Hashed H content b b₂ := by
  unfold Hashed
  rw [entries_of_setCrcs hset]
  apply List.map_congr_left
  intro source hsource
  have hnodup : (pairs.map Prod.fst).Nodup := by
    rw [hpairs, List.map_map]
    exact b.entries.nodup
  have hmem : (source.1, H.hash (content source.2.data)) ∈ pairs := by
    rw [hpairs]
    exact List.mem_map_of_mem hsource
  rw [crcAfter_of_mem hnodup hmem]

/-- Every entry has the CRC of its content. -/
theorem Hashed.crc32 (h : Hashed H content b b₂) {name : Name} {entry : BuilderEntry E}
    (hentry : (name, entry) ∈ b₂.entries.entries) :
    entry.crc32 = some (H.hash (content entry.data)) := by
  rw [h] at hentry
  obtain ⟨source, _, heq⟩ := List.mem_map.mp hentry
  cases heq
  rfl

/-- **With the CRCs of the contents** the members are what they were. -/
theorem members_setCrcs (hbuilt : Built content b r a) (hhonest : b.HonestSizes content)
    (hcrcs : b.RightCrcs content H)
    (hentries : r₂.entries = r.entries.map fun entry =>
      { entry with crc32 := some (H.hash (content entry.data)) }) :
    r₂.members content = r.members content := by
  unfold Reader.members
  rw [hentries, List.map_map]
  apply List.map_congr_left
  intro entry hentry
  obtain ⟨name, source, hsource, hfrom⟩ := hbuilt.source hentry
  -- what the archive carried is the CRC of the content
  have hcarried : (entry.member H content).crc = H.hash (content entry.data) := by
    rw [hfrom.member_crc (hhonest name source hsource), show entry.data = source.data from hfrom.data]
    cases hsupplied : source.crc32 with
    | none => rfl
    | some crc => exact hcrcs name source hsource crc hsupplied
  show ({ entry.member H content with crc := H.hash (content entry.data) } : Member) =
    entry.member H content
  rw [← hcarried]

/-- What `crc32s` yields of them. -/
theorem crc32s_setCrcs (hbuilt : Built content b r a)
    (hentries : r₂.entries = r.entries.map fun entry =>
      { entry with crc32 := some (H.hash (content entry.data)) }) :
    r₂.crc32s = b.entries.entries.map fun source =>
      (source.1, H.hash (content source.2.data)) := by
  apply crc32s_of_known
  · intro entry hentry
    rw [hentries] at hentry
    obtain ⟨entry', _, rfl⟩ := List.mem_map.mp hentry
    exact Option.some_ne_none _
  · rw [hentries, List.forall₂_map_left_iff]
    refine hbuilt.sources.flip.imp ?_
    intro entry source hfrom
    refine ⟨hfrom.name, ?_⟩
    intro crc hcrc
    rw [← hfrom.data]
    exact (Option.some.inj hcrc).symm

/-- **CRCs are computed once.**  When those that a complete read yields are set in a copy of the
    builder, this builds a reader of the same archive, which never computes a CRC nor opens an
    entry for one, whatever is done with it. -/
theorem crcs_reused (hb : b.Reached) (hbuild : b.build = .ok r)
    (hdeliver : b.Delivering content mayFail) (hhonest : b.HonestSizes content)
    (hcrcs : b.RightCrcs content H) (hsteps : Steps r ops r₁)
    (hpolls : ∀ op ∈ ops, op.isPoll = true) (hroom : 0 < buf.remaining)
    (hend : r₁.pollRead ctx fuel buf = .ok (.ok (), r', buf))
    (hset : builderSystem.Run b (r'.crc32s.map fun pair => .set pair.1 (.crc32 pair.2)) b₂) :
    b₂.KnownCrcs ∧ b₂.RightCrcs content H ∧ ∃ r₂ : Reader E H, b₂.build = .ok r₂ ∧
      archiveBytes (r₂.members content) = archiveBytes (r.members content) ∧
      ∀ ops₂ r₂', Steps r₂ ops₂ r₂' → r₂'.crc32s = r'.crc32s ∧
        ∀ ctx fuel buf, ∀ turn ∈ turns r₂'.sizes ctx buf.remaining fuel (r₂'.frame buf),
          ∀ answer s', readIteration r₂'.sizes ctx turn.1 buf.remaining turn.2 = .ok (answer, s') →
            s'.log = turn.2.log ∨ ∃ i, turn.2.readState.currentChunk = .entryData i := by
  -- all CRCs are known, and right
  have hknown := known_of_complete_read hb hbuild hsteps hpolls hroom hend
  have hlast : Steps r (ops ++ [.pollRead ctx buf (.ok ()) buf]) r' := .snoc hsteps ⟨fuel, hend⟩
  have hpairs := crc32s_of_known hknown (right_of_run hb hbuild hdeliver hhonest hcrcs hlast)
  have hhashed : Hashed H content b b₂ := hashed_of_setCrcs hpairs hset
  obtain ⟨a, hbuilt⟩ := hb.built content hbuild
  obtain ⟨r₂, hbuild₂, hentries⟩ :=
    build_setCrcs (fun data => H.hash (content data)) hbuild hhashed
  refine ⟨?_, ?_, r₂, hbuild₂, ?_, ?_⟩
  · intro name entry hentry hcrc
    rw [hhashed.crc32 hentry] at hcrc
    cases hcrc
  · intro name entry hentry crc hcrc
    rw [hhashed.crc32 hentry] at hcrc
    exact (Option.some.inj hcrc).symm
  · rw [members_setCrcs hbuilt hhonest hcrcs hentries]
  · intro ops₂ r₂' hsteps₂
    have hall : ∀ entry ∈ r₂.entries, entry.crc32 ≠ none := by
      intro entry hentry
      rw [hentries] at hentry
      obtain ⟨entry', _, rfl⟩ := List.mem_map.mp hentry
      exact Option.some_ne_none _
    obtain ⟨_, _, hguarded⟩ := Builder.Reached.guarded (System.Reachable.run hb hset) hbuild₂
    have hrun := hguarded.run hsteps₂
    have hsame : r₂'.entries = r₂.entries := entries_eq_of_keepsCrc hall hrun.2
    constructor
    · rw [hpairs, ← crc32s_setCrcs hbuilt hentries]
      unfold Reader.crc32s
      rw [hsame]
    · intro ctx fuel buf turn hturn answer s' hiteration
      exact opens_data_only hrun.1 (hsame ▸ hall) hturn hiteration

end Reused

end Model

/-! ### Sessions -/

/-- The polls read the three files to their end. -/
theorem steadyPolls_complete : ∃ x : Session steady crc32Ieee,
    session crc32Ieee steadyFiles 20 steadyPolls = some x ∧ x.Of steadyFiles ∧
      (∀ op ∈ x.ops, op.isPoll = true) ∧ x.last.AtEnd := by
  have hrun : (session crc32Ieee steadyFiles 20 steadyPolls).map
      (fun x => (x.ops.all Op.isPoll, x.last.endTest true 20)) = some (true, true) := by
    decide +kernel
  obtain ⟨x, hx, h, hseen⟩ := exists_session hrun
  exact ⟨x, hx, h, List.all_eq_true.mp (congrArg Prod.fst hseen),
    Reader.atEnd_of_endTest (congrArg Prod.snd hseen)⟩

/-- The CRC of the third file is computed on the way, that of the empty one is the known one. -/
theorem complete_read_knows_crcs_session :
    ∃ x : Session steady crc32Ieee, session crc32Ieee steadyFiles 20 steadyPolls = some x ∧
      ∃ ctx fuel buf r', 0 < buf.remaining ∧
        x.last.pollRead ctx fuel buf = .ok (.ok (), r', buf) ∧
        r'.crc32s.map Prod.fst = x.builder.entries.keys := by
  obtain ⟨x, hx, h, hpolls, ctx, fuel, buf, r', hroom, hend⟩ := steadyPolls_complete
  exact ⟨x, hx, ctx, fuel, buf, r', hroom, hend, (complete_read_knows_crcs h.reached h.build h.steps
    hpolls hroom hend).1⟩

theorem crcs_reused_session :
    ∃ x : Session steady crc32Ieee, session crc32Ieee steadyFiles 20 steadyPolls = some x ∧
      ∃ (b₂ : Builder steady) (r₂ : Reader steady crc32Ieee), b₂.KnownCrcs ∧ b₂.build = .ok r₂ ∧
        archiveBytes (r₂.members PacedData.bytes) =
          archiveBytes (x.reader.members PacedData.bytes) := by
  obtain ⟨x, hx, h, hpolls, ctx, fuel, buf, r', hroom, hend⟩ := steadyPolls_complete
  obtain ⟨b₂, hset⟩ := exists_setCrcs x.builder r'.crc32s
  obtain ⟨hknown, _, r₂, hbuild, hbytes, _⟩ := crcs_reused h.reached h.build
    (h.delivering steady_ne_fail) (h.honestSizes (by decide)) (h.rightCrcs (by decide +kernel))
    h.steps hpolls hroom hend hset
  exact ⟨x, hx, b₂, r₂, hknown, hbuild, hbytes⟩

end Zippity
