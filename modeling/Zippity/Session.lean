import Zippity.BuilderSpec

/-! # Whole sessions

    A session builds an archive from sources and runs a script on its reader; it
    can be evaluated.  `paced` is a source for sessions: a byte string whose
    polls go on, wait or fail as the context of the poll says, and which may
    report a size of its own.
-/

namespace Zippity

open Framework

/-! ### Paced sources -/

/-- What a poll of a paced source does. -/
inductive Pace where
  | go
  | wait
  | fail
  deriving DecidableEq, Repr

/-- A byte string with the size it reports. -/
structure PacedData where
  bytes : List UInt8
  reported : Nat
  reported_lt : reported < Exec.u64Bound
  deriving DecidableEq

/-- A byte string that reports its own length. -/
def PacedData.honest (bytes : List UInt8) (h : bytes.length < Exec.u64Bound := by decide) :
    PacedData :=
  ⟨bytes, bytes.length, h⟩

section Paced
variable {C : Type}

/-- Byte strings as entry data, paced by the context. -/
def paced (pace : C → Pace) : EntryData where
  Data := PacedData
  Reader := AsRefReader
  Future := Unit
  Context := C
  Error := Unit
  getReader _ := ()
  size d := d.reported
  size_lt d := d.reported_lt
  poll _ ctx :=
    match pace ctx with
    | .go => (.ok ⟨0⟩, ())
    | .wait => (.pending, ())
    | .fail => (.err (), ())
  pollRead reader d ctx buf :=
    match pace ctx with
    | .go =>
      let bytes := reader.readable d.bytes buf.remaining
      (.ok bytes, ⟨reader.position + bytes.1.length⟩)
    | .wait => (.pending, reader)
    | .fail => (.err (), reader)
  startSeek reader d pos :=
    match reader.target d.bytes.length pos with
    | some position => (.ok (), ⟨position⟩)
    | none => (.error (), reader)
  pollSeekComplete reader _ ctx :=
    match pace ctx with
    | .go => (.ok reader.position, reader)
    | .wait => (.pending, reader)
    | .fail => (.err (), reader)

/-- A paced source delivers its bytes; it fails only if some context makes it fail. -/
theorem paced_delivers {pace : C → Pace} {mayFail : Prop} (hfail : ∀ c, pace c = .fail → mayFail)
    (d : PacedData) : Delivers (paced pace) mayFail d d.bytes := by
  refine ⟨{
    opening := fun _ => True
    standing := fun reader n => reader.position = n
    seeking := fun reader p => reader.position = p
    stalled := fun _ => False
    poll := ?_
    pollRead := ?_
    startSeek := fun _ _ _ _ => rfl
    pollSeekComplete := ?_
    pollStalled := fun _ _ h => h.elim }, trivial⟩
  · intro future ctx _
    unfold paced
    dsimp only
    cases hpace : pace ctx with
    | go => rfl
    | wait => trivial
    | fail => exact hfail ctx hpace
  · rintro reader _ ctx buf rfl
    obtain ⟨hbytes, hne⟩ := reader.readable_spec d.bytes buf.remaining
    unfold paced
    dsimp only
    cases hpace : pace ctx with
    | go => exact ⟨hbytes, hne, rfl⟩
    | wait => rfl
    | fail => exact ⟨hfail ctx hpace, rfl⟩
  · rintro reader _ ctx rfl
    unfold paced
    dsimp only
    cases hpace : pace ctx with
    | go => exact ⟨rfl, rfl⟩
    | wait => rfl
    | fail => exact ⟨hfail ctx hpace, .inl rfl⟩

end Paced

/-! ### Building from sources -/

section Model
variable {E : EntryData} {H : Crc32Fast}

/-- What a caller adds: a name, data, and the CRC if it is known. -/
abbrev Source (E : EntryData) := Name × E.Data × Option UInt32

/-- The sources of a builder. -/
def Builder.sources (b : Builder E) : List (Source E) :=
  b.entries.entries.map fun (name, entry) => (name, entry.data, entry.crc32)

/-- Add sources to a builder. -/
def Builder.addAll : List (Source E) → Builder E → Option (Builder E)
  | [], b => some b
  | (name, data, crc32) :: sources, b =>
    match b.addEntry name data with
    | .ok (.ok b) =>
      match crc32 with
      | none => addAll sources b
      | some crc32 =>
        addAll sources { b with entries := b.entries.adjust name (·.set (.crc32 crc32)) }
    | _ => none

/-- Setting a CRC only changes the entry with the name. -/
theorem Builder.sources_adjust {b : Builder E} {entries : List (Name × BuilderEntry E)} {name : Name}
    {data : E.Data} {timeConverter : Option TimeConverter} (crc32 : UInt32)
    (hentries : b.entries.entries = entries ++ [(name, .new data timeConverter)])
    (hvacant : name ∉ entries.map Prod.fst) :
    Builder.sources { b with entries := b.entries.adjust name (·.set (.crc32 crc32)) } =
      (entries.map fun (name, entry) => (name, entry.data, entry.crc32)) ++
        [(name, data, some crc32)] := by
  unfold Builder.sources IndexMap.adjust
  dsimp only
  rw [hentries, List.map_append, List.map_append, List.map_map]
  congr 1
  · apply List.map_congr_left
    rintro ⟨name', entry⟩ hmem
    have hne : name' ≠ name := by
      rintro rfl
      exact hvacant (List.mem_map_of_mem hmem)
    simp [hne]
  · simp [BuilderEntry.set, BuilderEntry.setCrc32, BuilderEntry.new]

/-- **Adding sources** leads to a reached builder with these sources. -/
theorem Builder.addAll_spec {sources : List (Source E)} {b b' : Builder E} (hb : b.Reached)
    (h : Builder.addAll sources b = some b') :
    b'.Reached ∧ b'.sources = b.sources ++ sources := by
  induction sources generalizing b with
  | nil =>
    cases h
    exact ⟨hb, by simp⟩
  | cons source sources ih =>
    obtain ⟨name, data, crc32⟩ := source
    simp only [Builder.addAll] at h
    split at h
    · next b₁ hadd =>
      obtain ⟨b₀, calls, hinit, hrun⟩ := hb
      have hstep : builderSystem.step b (.addEntry name data) b₁ := .inl hadd
      have hreached : b₁.Reached :=
        ⟨b₀, calls ++ [.addEntry name data], hinit, hrun.snoc hstep⟩
      obtain ⟨_, hentries, _⟩ := Builder.addEntry_ok hadd
      cases crc32 with
      | none =>
        obtain ⟨hreached', hsources⟩ := ih hreached h
        refine ⟨hreached', ?_⟩
        rw [hsources]
        unfold Builder.sources
        rw [hentries]
        simp [BuilderEntry.new]
      | some crc32 =>
        have hvacant : name ∉ b.entries.entries.map Prod.fst := by
          have hnodup := b₁.entries.nodup
          rw [hentries, List.map_append, List.nodup_append] at hnodup
          intro hmem
          exact hnodup.2.2 name hmem name (by simp) rfl
        have hset : Builder.Reached
            { b₁ with entries := b₁.entries.adjust name (·.set (.crc32 crc32)) } := by
          obtain ⟨b₂, calls', hinit', hrun'⟩ := hreached
          have hstep' : builderSystem.step b₁ (.set name (.crc32 crc32))
              { b₁ with entries := b₁.entries.adjust name (·.set (.crc32 crc32)) } := rfl
          exact ⟨b₂, calls' ++ [.set name (.crc32 crc32)], hinit', hrun'.snoc hstep'⟩
        obtain ⟨hreached', hsources⟩ := ih hset h
        refine ⟨hreached', ?_⟩
        rw [hsources, Builder.sources_adjust crc32 hentries hvacant]
        unfold Builder.sources
        simp
    · cases h

/-- The builder of a session, its reader, what was done with the reader and what became of it. -/
structure Session (E : EntryData) (H : Crc32Fast) where
  builder : Builder E
  reader : Reader E H
  ops : List (Op E)
  last : Reader E H

/-- Build an archive from sources and run a script on its reader. -/
def session (H : Crc32Fast) (sources : List (Source E)) (fuel : Nat) (script : List (Action E)) :
    Option (Session E H) :=
  match Builder.new with
  | .error _ => none
  | .ok b =>
    match Builder.addAll sources b with
    | none => none
    | some builder =>
      match builder.build with
      | .error _ => none
      | .ok reader =>
        match runScript fuel reader script with
        | .error _ => none
        | .ok (ops, last) => some { builder, reader, ops, last }

/-- What a session is. -/
structure Session.Of (sources : List (Source E)) (x : Session E H) : Prop where
  reached : x.builder.Reached
  sources : x.builder.sources = sources
  build : x.builder.build = .ok x.reader
  steps : Steps x.reader x.ops x.last

/-- **A session** reaches a builder with its sources and runs its reader. -/
theorem session_spec {sources : List (Source E)} {fuel : Nat} {script : List (Action E)}
    {x : Session E H} (h : session H sources fuel script = some x) : x.Of sources := by
  unfold session at h
  split at h
  · cases h
  · next b hnew =>
    split at h
    · cases h
    · next builder hadd =>
      split at h
      · cases h
      · next reader hbuild =>
        split at h
        · cases h
        · next ops last hrun =>
          cases h
          have hempty : b.sources = [] := by
            have : (.ok b : Exec (Builder E)) = .ok ⟨.empty, none, 98⟩ :=
              hnew.symm.trans Builder.new_eq
            cases Except.ok.inj this
            rfl
          obtain ⟨hreached, hsources⟩ := Builder.addAll_spec ⟨b, [], hnew, .nil⟩ hadd
          exact ⟨hreached, by rw [hsources, hempty, List.nil_append], hbuild, runScript_steps hrun⟩

/-- The script of a session was run on its reader. -/
theorem session_run {sources : List (Source E)} {fuel : Nat} {script : List (Action E)}
    {x : Session E H} (h : session H sources fuel script = some x) :
    runScript fuel x.reader script = .ok (x.ops, x.last) := by
  unfold session at h
  split at h
  · cases h
  · split at h
    · cases h
    · split at h
      · cases h
      · split at h
        · cases h
        · next hrun =>
          cases h
          exact hrun

/-- A session that was evaluated, with what was observed of it. -/
theorem exists_session {sources : List (Source E)} {fuel : Nat} {script : List (Action E)}
    {α : Type} {observe : Session E H → α} {seen : α}
    (h : (session H sources fuel script).map observe = some seen) :
    ∃ x, session H sources fuel script = some x ∧ x.Of sources ∧ observe x = seen := by
  obtain ⟨x, hx, hseen⟩ := Option.map_eq_some_iff.mp h
  exact ⟨x, hx, session_spec hx, hseen⟩

section Sources
variable {sources : List (Source E)} {x : Session E H}

/-- What holds of every source holds of every entry. -/
theorem Session.Of.forall (h : x.Of sources) {P : Source E → Prop} (hP : ∀ s ∈ sources, P s) :
    ∀ name entry, (name, entry) ∈ x.builder.entries.entries →
      P (name, entry.data, entry.crc32) := by
  intro name entry hmem
  apply hP
  rw [← h.sources]
  exact List.mem_map_of_mem (f := fun (name, entry) => (name, entry.data, entry.crc32)) hmem

/-- Every source is that of an entry. -/
theorem Session.Of.exists_entry (h : x.Of sources) {source : Source E} (hs : source ∈ sources) :
    ∃ name entry, (name, entry) ∈ x.builder.entries.entries ∧
      source = (name, entry.data, entry.crc32) := by
  rw [← h.sources] at hs
  obtain ⟨⟨name, entry⟩, hentry, heq⟩ := List.mem_map.mp hs
  exact ⟨name, entry, hentry, heq.symm⟩

end Sources

end Model

/-! ### Sessions with paced sources -/

/-- Paced sources that never fail: the context says whether a poll goes on. -/
abbrev steady : EntryData := paced fun go : Bool => if go then .go else .wait

theorem steady_ne_fail : ∀ go : Bool, (if go then Pace.go else .wait) = .fail → False := by decide

/-- Paced sources that fail when the context says so. -/
abbrev faulty : EntryData := paced (id : Pace → Pace)

/-- A byte string that reports a length of its own. -/
def PacedData.reporting (bytes : List UInt8) (reported : Nat) : PacedData :=
  if h : reported < Exec.u64Bound then ⟨bytes, reported, h⟩ else .honest []

/-- An empty buffer with room for so many bytes, which are fewer than `2 ^ 63`. -/
def room (capacity : Nat) : ReadBuf :=
  .new (capacity % 2 ^ 63) (Nat.mod_lt capacity (by decide))

/-- Three files: one whose CRC is known, an empty one and one whose CRC is computed. -/
def threeFiles : List (Name × PacedData × Option UInt32) :=
  [([0x61], .honest [1, 2, 3], some 0x55BC801D), ([0x62], .honest [], none),
    ([0x63], .honest [5, 6, 7, 8], none)]

def steadyFiles : List (Source steady) := threeFiles

def faultyFiles : List (Source faulty) := threeFiles

section Paced
variable {C : Type} {pace : C → Pace} {H : Crc32Fast} {sources : List (Source (paced pace))}
  {x : Session (paced pace) H}

theorem Session.Of.delivering (h : x.Of sources) {mayFail : Prop}
    (hfail : ∀ c, pace c = .fail → mayFail) : x.builder.Delivering PacedData.bytes mayFail :=
  h.forall (P := fun s => Delivers (paced pace) mayFail s.2.1 s.2.1.bytes)
    fun s _ => paced_delivers hfail s.2.1

theorem Session.Of.honestSizes (h : x.Of sources)
    (hsizes : ∀ s ∈ sources, s.2.1.bytes.length = s.2.1.reported) :
    x.builder.HonestSizes PacedData.bytes :=
  h.forall (P := fun s => s.2.1.bytes.length = s.2.1.reported) hsizes

theorem Session.Of.rightCrcs (h : x.Of sources)
    (hcrcs : ∀ s ∈ sources, s.2.2 = none ∨ s.2.2 = some (H.hash s.2.1.bytes)) :
    x.builder.RightCrcs PacedData.bytes H := by
  intro name entry hentry crc hcrc
  have hright : entry.crc32 = none ∨ entry.crc32 = some (H.hash entry.data.bytes) :=
    h.forall (P := fun s => s.2.2 = none ∨ s.2.2 = some (H.hash s.2.1.bytes)) hcrcs name entry hentry
  rcases hright with hnone | hsome
  · rw [hcrc] at hnone
    cases hnone
  · rw [hcrc] at hsome
    exact Option.some.inj hsome

end Paced

end Zippity
