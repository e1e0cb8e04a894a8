import Zippity.Reader.Hardened
import Zippity.Session

/-! # Readers of any entry data

    Entry data is code of the caller.  Whatever it does, a reader stops only
    with what this data causes: it reaches no `unreachable!` and no index out of
    range, it fails an assertion only if a source does not seek true or after a
    seek that failed, and it goes on for ever only if a source does.  It stages
    no more than one header, and a CRC that is set stays what it is.
-/

namespace Zippity

open Framework

section Model
variable {E : EntryData} {H : Crc32Fast}

/-! ### Pools of readers -/

/-- What a reader withstands, whatever its entry data does. -/
structure Withstands (r : Reader E H) : Prop where
  /-- There is no `unreachable!` and no index out of range. -/
  stops : ∀ ctx fuel buf f, r.pollRead ctx fuel buf = .error f →
    f ≠ .unreachable ∧ f ≠ .indexOutOfBounds
  /-- An assertion fails only if a source does not seek true, or after a seek that failed. -/
  asserts : ∀ ctx fuel buf, r.pollRead ctx fuel buf = .error .assertFailed →
    (∃ entry ∈ r.entries, ¬ SeeksTrue E entry.data) ∨ r.SeekFailed
  /-- A future is polled again only if it is in the slot. -/
  polledAgain : ∀ ctx fuel buf, r.pollRead ctx fuel buf = .error .polledAfterCompletion →
    r.pinned.slot.Completed
  /-- A call ends, unless a source goes on for ever. -/
  ends : ∀ bound, (∀ entry ∈ r.entries, EndsBy E entry.data bound) → ∀ ctx buf, ∃ enough,
    ∀ fuel > enough, r.pollRead ctx fuel buf ≠ .error .outOfFuel
  seeks : ∀ offset, ∃ r', r.seekFromStart offset = .ok r'
  clones : ∃ r', r.clone = .ok r'
  takes : ∃ taken left, r.takePinned = .ok (taken, left)
  staged : r.readState.stagingBuffer.length ≤ maxHeader

/-- The reader is guarded in some archive: the one that was built, or the empty one. -/
def GuardedSomewhere (r : Reader E H) : Prop := ∃ a, Guarded a r

section Pool
variable {b : Builder E} {r r' r'' : Reader E H} {pool : List (Reader E H)}

theorem GuardedSomewhere.withstands (h : GuardedSomewhere r) : Withstands r := by
  obtain ⟨a, hguarded⟩ := h
  -- the fault of a call that may be starved, or may not
  have hfault : ∀ (starved : Prop) (bound : Nat) ctx fuel buf f,
      (¬ starved → ∀ entry ∈ r.entries, EndsBy E entry.data bound) →
      (¬ starved → (r.frame buf).turnsLeft a + bound < fuel) →
      r.pollRead ctx fuel buf = .error f → Tolerated r.Broken starved f := by
    intro starved bound ctx fuel buf f hends hfuel hpoll
    exact Exec.wp_of_eq_error (pollRead_guarded hguarded ctx buf id hends hfuel) hpoll
  have htolerated : ∀ ctx fuel buf f, r.pollRead ctx fuel buf = .error f →
      Tolerated r.Broken True f := fun ctx fuel buf f =>
    hfault True 0 ctx fuel buf f (fun hfed => absurd trivial hfed) fun hfed => absurd trivial hfed
  refine ⟨?_, ?_, ?_, ?_, ?_, ?_, ?_, hguarded.hardened.staged⟩
  · intro ctx fuel buf f hpoll
    have hf := htolerated ctx fuel buf f hpoll
    constructor
    · rintro rfl
      exact hf
    · rintro rfl
      exact hf
  · intro ctx fuel buf hpoll
    exact htolerated ctx fuel buf _ hpoll
  · intro ctx fuel buf hpoll
    exact Exec.wp_of_eq_error (pollRead_call r ctx fuel buf) hpoll rfl
  · intro bound hends ctx buf
    refine ⟨(r.frame buf).turnsLeft a + bound, fun fuel hfuel hpoll => ?_⟩
    exact hfault False bound ctx fuel buf _ (fun _ => hends) (fun _ => hfuel) hpoll
  · intro offset
    obtain ⟨r', hseek, _⟩ := seekFromStart_guarded hguarded.sizes hguarded.hardened.listed offset
    exact ⟨r', hseek⟩
  · obtain ⟨r', hclone, _⟩ := clone_guarded hguarded
    exact ⟨r', hclone⟩
  · obtain ⟨taken, htake, _⟩ := takePinned_guarded hguarded
    exact ⟨taken, _, htake⟩

/-- An operation keeps the guard and the CRCs. -/
theorem Guarded.step {a : Archive} {op : Op E} (h : Guarded a r)
    (hstep : readerSystem.step r op r') :
    Guarded a r' ∧ List.Forall₂ KeepsCrc r.entries r'.entries := by
  cases op with
  | pollRead ctx buf answer buf' =>
    obtain ⟨fuel, hpoll⟩ := hstep
    have hpolled := h.pollRead hpoll
    exact ⟨hpolled.1, hpolled.2.kept⟩
  | seek offset =>
    obtain ⟨_, hseek⟩ := hstep
    obtain ⟨r₁, hseek', hguarded, hentries⟩ :=
      seekFromStart_guarded h.sizes h.hardened.listed offset
    rw [hseek] at hseek'
    cases hseek'
    exact ⟨hguarded, hentries ▸ forall₂_keepsCrc_refl _⟩

/-- So does a run. -/
theorem Guarded.run {a : Archive} {ops : List (Op E)} (h : Guarded a r) (hsteps : Steps r ops r') :
    Guarded a r' ∧ List.Forall₂ KeepsCrc r.entries r'.entries := by
  apply hsteps.invariant (fun _ r' => Guarded a r' ∧ List.Forall₂ KeepsCrc r.entries r'.entries)
  · exact ⟨h, forall₂_keepsCrc_refl _⟩
  · rintro _ r₁ op r₂ ⟨hguarded, hkept⟩ hstep
    obtain ⟨hguarded', hkept'⟩ := hguarded.step hstep
    exact ⟨hguarded', forall₂_keepsCrc_trans hkept hkept'⟩

/-- A reader that is built is guarded, whatever its entries are taken to hold. -/
theorem Built.guarded {content : E.Data → List UInt8} {a : Archive} (h : Built content b r a) :
    Guarded a r := by
  rw [h.reader]
  exact new_guarded h.listed

theorem Builder.Reached.guarded (hb : b.Reached) (hbuild : b.build = .ok r) :
    ∃ a, Built (fun _ => []) b r a ∧ Guarded a r := by
  obtain ⟨a, hbuilt⟩ := hb.built (fun _ => []) hbuild
  exact ⟨a, hbuilt, hbuilt.guarded⟩

theorem GuardedSomewhere.steps {ops : List (Op E)} (h : GuardedSomewhere r)
    (hsteps : Steps r ops r') : GuardedSomewhere r' := by
  obtain ⟨a, hguarded⟩ := h
  exact ⟨a, (hguarded.run hsteps).1⟩

theorem GuardedSomewhere.step {op : Op E} (h : GuardedSomewhere r)
    (hstep : readerSystem.step r op r') : GuardedSomewhere r' :=
  h.steps (.snoc .nil hstep)

theorem GuardedSomewhere.clone (h : GuardedSomewhere r) (hclone : r.clone = .ok r') :
    GuardedSomewhere r' := by
  obtain ⟨a, hguarded⟩ := h
  obtain ⟨r₁, hclone', hguarded', _⟩ := clone_guarded hguarded
  rw [hclone] at hclone'
  cases hclone'
  exact ⟨a, hguarded'⟩

theorem GuardedSomewhere.takePinned {taken left : Reader E H} (h : GuardedSomewhere r)
    (htake : r.takePinned = .ok (taken, left)) : GuardedSomewhere taken ∧ GuardedSomewhere left := by
  obtain ⟨a, hguarded⟩ := h
  obtain ⟨taken', htake', hguarded', _⟩ := takePinned_guarded hguarded
  rw [htake] at htake'
  cases htake'
  exact ⟨⟨a, hguarded'⟩, .empty, emptied_guarded _⟩

theorem Builder.Reached.guardedSomewhere (hb : b.Reached) (hbuild : b.build = .ok r) :
    GuardedSomewhere r := by
  obtain ⟨a, _, hguarded⟩ := hb.guarded hbuild
  exact ⟨a, hguarded⟩

/-- **No operation on a pool** leads out of the guard. -/
theorem guardedSomewhere_of_poolRun {ops : List (PoolOp E)} (hb : b.Reached)
    (hbuild : b.build = .ok r) (hrun : poolSystem.Run [r] ops pool) :
    ∀ r' ∈ pool, GuardedSomewhere r' := by
  refine forall_of_poolRun (P := GuardedSomewhere) ?_ ?_ ?_ ?_ hrun
  · intro r₁ op r₂ h hstep
    exact h.step hstep
  · intro r₁ r₂ h hclone
    exact h.clone hclone
  · intro r₁ taken left h htake
    exact h.takePinned htake
  · intro r₁ hr₁
    rw [List.mem_singleton.mp hr₁]
    exact hb.guardedSomewhere hbuild

/-- The fault of a call that takes up what failed: a future that answered an error, or a seek. -/
def Reader.TakesUpFailure (r : Reader E H) (f : Fault) : Prop :=
  (f = .polledAfterCompletion ∧ r.pinned.slot.Completed) ∨ (f = .assertFailed ∧ r.SeekFailed)

/-- **On right data** a call stops only if it takes up what failed. -/
theorem ReaderAt.stops {a : Archive} {rest : Tail UInt8} (h : ReaderAt True a r rest)
    (hguarded : Guarded a r) (hhonest : a.Honest) (ctx : E.Context) (buf : ReadBuf) :
    ∃ enough, ∀ fuel > enough, ∀ f, r.pollRead ctx fuel buf = .error f → r.TakesUpFailure f := by
  refine ⟨r.readState.currentChunk.rank a.members.length + buf.remaining +
    (a.members.map (·.data.length)).sum, ?_⟩
  intro fuel hfuel f hstopped
  have hwp : Exec.wp (Excused True (¬ a.Honest) False) (fun result =>
      ∃ bytes, PollStep True a r rest buf result.1 result.2.1 result.2.2 bytes)
      (r.pollRead ctx fuel buf) := pollRead_wp h (length_data_le_sum a) fun _ => hfuel
  have hexcused := Exec.wp_of_eq_error hwp hstopped
  have hwithstands : Withstands r := GuardedSomewhere.withstands ⟨a, hguarded⟩
  -- the data is no longer than announced, and there are turns enough
  cases f with
  | polledAfterCompletion => exact .inl ⟨rfl, hwithstands.polledAgain ctx fuel buf hstopped⟩
  | assertFailed =>
    refine .inr ⟨rfl, ?_⟩
    rcases hwithstands.asserts ctx fuel buf hstopped with ⟨entry, hentry, huntrue⟩ | hfailed
    · -- right data seeks true
      obtain ⟨i, hi⟩ := List.getElem?_of_mem hentry
      have hlt := (List.getElem?_eq_some_iff.mp hi).1
      rw [h.stocked.length] at hlt
      exact absurd (h.stocked.represents i entry _ hi
        (List.getElem?_eq_getElem hlt)).delivers.seeksTrue huntrue
    · exact hfailed
  | overflow => exact absurd hhonest hexcused
  | outOfFuel => exact hexcused.elim
  | unreachable => exact hexcused.elim
  | indexOutOfBounds => exact hexcused.elim

/-! ### CRCs -/

/-- What is selected of the elements of one list is selected of those they are related to. -/
theorem sublist_filterMap {α β γ : Type} {R : α → β → Prop} {f : α → Option γ} {g : β → Option γ}
    (hR : ∀ x y, R x y → ∀ c, f x = some c → g y = some c) {xs : List α} {ys : List β}
    (h : List.Forall₂ R xs ys) : (xs.filterMap f).Sublist (ys.filterMap g) := by
  induction h with
  | nil => exact .slnil
  | @cons x y _ ys hxy _ ih =>
    cases hx : f x with
    | none =>
      rw [List.filterMap_cons_none hx]
      exact ih.trans ((List.sublist_cons_self y ys).filterMap g)
    | some c =>
      rw [List.filterMap_cons_some hx, List.filterMap_cons_some (hR x y hxy c hx)]
      exact ih.cons_cons c

/-- **`crc32s` only grows**: a pair that it once yields it yields ever after, and nothing else of
    an entry changes. -/
theorem crc32s_only_grow {ops : List (PoolOp E)} {ops' : List (Op E)} (hb : b.Reached)
    (hbuild : b.build = .ok r) (hrun : poolSystem.Run [r] ops pool) (hr' : r' ∈ pool)
    (hsteps : Steps r' ops' r'') :
    r'.crc32s.Sublist r''.crc32s ∧
      r''.entries.map (fun entry => { entry with crc32 := none }) =
        r'.entries.map (fun entry => { entry with crc32 := none }) := by
  obtain ⟨a, hguarded⟩ := guardedSomewhere_of_poolRun hb hbuild hrun r' hr'
  have hkept := (hguarded.run hsteps).2
  constructor
  · refine sublist_filterMap ?_ hkept
    rintro entry _ ⟨crc32, rfl, hkeeps⟩ pair hpair
    obtain ⟨crc, hcrc, rfl⟩ := Option.map_eq_some_iff.mp hpair
    simp [hkeeps crc hcrc]
  · generalize r'.entries = entries, r''.entries = entries' at hkept
    induction hkept with
    | nil => rfl
    | cons hkeeps _ ih =>
      obtain ⟨crc32, rfl, _⟩ := hkeeps
      rw [List.map_cons, List.map_cons, ih]

end Pool

end Model

/-! ### Sessions -/

/-- Files that report lengths which they do not have. -/
def lyingFiles : List (Source faulty) :=
  [([0x61], .reporting [1, 2, 3, 4, 5] 2, none), ([0x62], .reporting [1] 9, some 7),
    ([0x63], .reporting [] 4, none)]

/-- A call that fails, one that suspends, a read over the reported end and seeks. -/
def lyingScript : List (Action faulty) :=
  [.poll .go (room 31), .poll .fail (room 100), .seek 59, .poll .go (room 100), .poll .wait (room 9),
    .poll .go (room 4), .seek 200, .poll .go (room 300), .seek 290]

/-- The CRC of the first file stays what its wrong length made of it. -/
theorem crc32s_only_grow_session :
    ∃ x : Session faulty crc32Ieee, session crc32Ieee lyingFiles 30 lyingScript = some x ∧
      x.last.crc32s = [([0x61], 0x470B99F4), ([0x62], 7)] ∧
      ∀ ops r', Steps x.last ops r' → x.last.crc32s.Sublist r'.crc32s := by
  have hrun : (session crc32Ieee lyingFiles 30 lyingScript).map (fun x => x.last.crc32s) =
      some [([0x61], 0x470B99F4), ([0x62], 7)] := by decide +kernel
  obtain ⟨x, hx, h, hcrcs⟩ := exists_session hrun
  refine ⟨x, hx, hcrcs, ?_⟩
  intro ops r' hsteps
  exact (crc32s_only_grow h.reached h.build h.steps.pool List.mem_cons_self hsteps).1

end Zippity
