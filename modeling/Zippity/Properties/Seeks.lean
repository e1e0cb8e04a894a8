import Zippity.CrcReader
import Zippity.Framework.System

/-! # Seeks of a CRC reader

    `CrcReader::seek` folds the two phases of a seek into one call that is
    polled until it is ready, and remembers in a flag whether the first phase
    is done.  What it asks of the inner reader is seen in a log that the inner
    reader keeps.  The flag is right until a phase fails: neither failure takes
    it back, and the next seek is answered from the failed one.
-/

namespace Zippity

open Framework

section Model
variable {E : EntryData} {H : Crc32Fast}

/-! ### Readers that keep a log -/

/-- A call of an inner reader, with its answer if it is of a seek. -/
inductive InnerCall (E : EntryData) where
  | pollRead
  | startSeek (position : SeekFrom) (result : Except E.Error Unit)
  | pollSeekComplete (answer : PollResult E.Error Nat)

namespace InnerCall

/-- A phase of a seek that failed. -/
def Fails : InnerCall E → Prop
  | .startSeek _ (.error _) => True
  | .pollSeekComplete (.err _) => True
  | _ => False

/-- A call that neither starts nor ends a seek. -/
def Idle : InnerCall E → Prop
  | .pollRead => True
  | .pollSeekComplete .pending => True
  | _ => False

end InnerCall

/-- Entry data whose readers keep a log of their calls. -/
abbrev watched (E : EntryData) : EntryData where
  Data := E.Data
  Reader := E.Reader × List (InnerCall E)
  Future := E.Future
  Context := E.Context
  Error := E.Error
  getReader := E.getReader
  size := E.size
  size_lt := E.size_lt
  poll future ctx :=
    match E.poll future ctx with
    | (.pending, future') => (.pending, future')
    | (.err e, future') => (.err e, future')
    | (.ok reader, future') => (.ok (reader, []), future')
  pollRead reader data ctx buf :=
    let answer := E.pollRead reader.1 data ctx buf
    (answer.1, answer.2, reader.2 ++ [.pollRead])
  startSeek reader data position :=
    let answer := E.startSeek reader.1 data position
    (answer.1, answer.2, reader.2 ++ [.startSeek position answer.1])
  pollSeekComplete reader data ctx :=
    let answer := E.pollSeekComplete reader.1 data ctx
    (answer.1, answer.2, reader.2 ++ [.pollSeekComplete answer.1])

section Watched
variable (reader : E.Reader × List (InnerCall E)) (data : E.Data) (ctx : E.Context)

theorem watched_pollRead (buf : ReadBuf) : (watched E).pollRead reader data ctx buf =
    ((E.pollRead reader.1 data ctx buf).1, (E.pollRead reader.1 data ctx buf).2,
      reader.2 ++ [.pollRead]) := rfl

theorem watched_pollSeekComplete : (watched E).pollSeekComplete reader data ctx =
    ((E.pollSeekComplete reader.1 data ctx).1, (E.pollSeekComplete reader.1 data ctx).2,
      reader.2 ++ [.pollSeekComplete (E.pollSeekComplete reader.1 data ctx).1]) := rfl

end Watched

namespace CrcReader

/-- The calls that a reader made of its inner reader. -/
def log (self : CrcReader (watched E) H) : List (InnerCall E) := self.innerReader.2

/-- The same reader over an inner reader without a log. -/
def unwatched (self : CrcReader (watched E) H) : CrcReader E H :=
  { self with innerReader := self.innerReader.1 }

/-- The log does not change what a seek does. -/
theorem seek_unwatched (self : CrcReader (watched E) H) (data : E.Data) (ctx : E.Context)
    (position : SeekFrom) :
    self.unwatched.seek data ctx position =
      ((self.seek data ctx position).1, (self.seek data ctx position).2.unwatched) := by
  have hpoll : ∀ reader : CrcReader (watched E) H, reader.unwatched.pollSeekComplete data ctx =
      ((reader.pollSeekComplete data ctx).1, (reader.pollSeekComplete data ctx).2.unwatched) := by
    intro reader
    unfold pollSeekComplete
    rw [watched_pollSeekComplete reader.innerReader data ctx]
    dsimp only [unwatched]
    rcases E.pollSeekComplete reader.innerReader.1 data ctx with ⟨_ | e | pos, inner⟩ <;> rfl
  unfold seek
  have hflag : self.unwatched.seekInProgress = self.seekInProgress := rfl
  rw [hflag]
  cases self.seekInProgress with
  | true => exact hpoll self
  | false =>
    rw [if_neg (by simp), if_neg (by simp)]
    have hstart : self.unwatched.startSeek data position =
        ((self.startSeek data position).1, (self.startSeek data position).2.unwatched) := rfl
    rw [hstart]
    rcases self.startSeek data position with ⟨e | _, reader⟩
    · rfl
    · exact hpoll reader

/-- What an answer to `poll_seek_complete` leaves of the flag. -/
def busyAfter {ε : Type} : PollResult ε Nat → Bool
  | .ok _ => false
  | _ => true

/-- The second phase, of a reader with a seek in progress. -/
theorem pollSeekComplete_logged {reader : CrcReader (watched E) H}
    (hbusy : reader.seekInProgress = true) (data : E.Data) (ctx : E.Context) :
    (reader.pollSeekComplete data ctx).2.log =
        reader.log ++ [.pollSeekComplete (reader.pollSeekComplete data ctx).1] ∧
      (reader.pollSeekComplete data ctx).2.seekInProgress =
        busyAfter (reader.pollSeekComplete data ctx).1 := by
  unfold pollSeekComplete
  rw [watched_pollSeekComplete reader.innerReader data ctx]
  rcases E.pollSeekComplete reader.innerReader.1 data ctx with ⟨_ | e | pos, inner⟩
  · exact ⟨rfl, hbusy⟩
  · exact ⟨rfl, hbusy⟩
  · exact ⟨rfl, rfl⟩

/-- What a seek asks of the inner reader, and what it leaves of the flag. -/
theorem seek_logged {reader reader' : CrcReader (watched E) H} {data : E.Data} {ctx : E.Context}
    {position : SeekFrom} {answer : PollResult E.Error Nat}
    (h : reader.seek data ctx position = (answer, reader')) :
    (reader.seekInProgress = true ∧ reader'.log = reader.log ++ [.pollSeekComplete answer] ∧
      reader'.seekInProgress = busyAfter answer) ∨
    (reader.seekInProgress = false ∧ ∃ e, answer = .err e ∧
      reader'.log = reader.log ++ [.startSeek position (.error e)] ∧
      reader'.seekInProgress = true) ∨
    (reader.seekInProgress = false ∧
      reader'.log = reader.log ++ [.startSeek position (.ok ()), .pollSeekComplete answer] ∧
      reader'.seekInProgress = busyAfter answer) := by
  unfold seek at h
  cases hbusy : reader.seekInProgress with
  | true =>
    rw [hbusy, if_pos rfl] at h
    have hpoll := pollSeekComplete_logged hbusy data ctx
    rw [h] at hpoll
    exact .inl ⟨rfl, hpoll⟩
  | false =>
    rw [hbusy, if_neg (by simp)] at h
    -- the first phase sets the flag, whatever the inner reader answers
    have hbusy' : (reader.startSeek data position).2.seekInProgress = true := rfl
    have hlog : (reader.startSeek data position).2.log =
        reader.log ++ [.startSeek position (reader.startSeek data position).1] := rfl
    rcases hstart : reader.startSeek data position with ⟨e | _, started⟩
    · rw [hstart] at h hbusy' hlog
      cases h
      exact .inr (.inl ⟨rfl, e, rfl, hlog, hbusy'⟩)
    · rw [hstart] at h hbusy' hlog
      have hpoll := pollSeekComplete_logged hbusy' data ctx
      dsimp only at h
      rw [h, hlog, List.append_assoc] at hpoll
      exact .inr (.inr ⟨rfl, hpoll⟩)

/-- A read asks for a read, and leaves the flag. -/
theorem pollRead_logged (reader : CrcReader (watched E) H) (data : E.Data) (ctx : E.Context)
    (buf : ReadBuf) :
    (reader.pollRead data ctx buf).2.log = reader.log ++ [.pollRead] ∧
      (reader.pollRead data ctx buf).2.seekInProgress = reader.seekInProgress := by
  unfold pollRead EntryData.pollReadInto
  rw [watched_pollRead reader.innerReader data ctx buf]
  rcases E.pollRead reader.innerReader.1 data ctx buf with ⟨_ | e | bytes, inner⟩ <;>
    exact ⟨rfl, rfl⟩

end CrcReader

/-! ### Runs -/

/-- A call on a CRC reader; a seek with its answer. -/
inductive CrcCall (E : EntryData) where
  | pollRead (ctx : E.Context) (buf : ReadBuf)
  | seek (ctx : E.Context) (position : SeekFrom) (answer : PollResult E.Error Nat)

/-- A CRC reader, with the length of its log when the last seek completed or failed. -/
structure Watch (E : EntryData) (H : Crc32Fast) where
  reader : CrcReader (watched E) H
  mark : Nat

/-- The inner calls since the last seek completed or failed. -/
def Watch.since (w : Watch E H) : List (InnerCall E) := w.reader.log.drop w.mark

/-- The mark after a seek with an answer. -/
def markAfter {ε : Type} (w : Watch E H) (reader : CrcReader (watched E) H) :
    PollResult ε Nat → Nat
  | .pending => w.mark
  | _ => reader.log.length

/-- Reads and seeks of a CRC reader as a transition system, from any inner reader on. -/
def crcSystem (H : Crc32Fast) (data : E.Data) : System (Watch E H) (CrcCall E) where
  init w := ∃ inner : E.Reader, w = ⟨.new (E := watched E) (inner, []), 0⟩
  step w call w' :=
    match call with
    | .pollRead ctx buf => w' = ⟨(w.reader.pollRead data ctx buf).2, w.mark⟩
    | .seek ctx position answer => ∃ reader, w.reader.seek data ctx position = (answer, reader) ∧
      w' = ⟨reader, markAfter w reader answer⟩

/-- The position of the seek that a call leaves pending, after one with a position. -/
def CrcCall.waitingAfter (waiting : Option SeekFrom) : CrcCall E → Option SeekFrom
  | .pollRead _ _ => waiting
  | .seek _ position .pending => some position
  | .seek _ _ _ => none

/-- The position of the seek that calls leave pending. -/
def waiting (calls : List (CrcCall E)) : Option SeekFrom := calls.foldl CrcCall.waitingAfter none

/-- A pending seek is polled again with the same position. -/
def RepollsSame (calls : List (CrcCall E)) : Prop :=
  ∀ before ctx position answer after, calls = before ++ .seek ctx position answer :: after →
    ∀ pending, waiting before = some pending → position = pending

/-- Among these inner calls a seek to the position was started, and it was the one to report
    `r` at their end. -/
def Serves (position : SeekFrom) (r : Nat) (calls : List (InnerCall E)) : Prop :=
  ∃ before between,
    calls = before ++ .startSeek position (.ok ()) :: between ++ [.pollSeekComplete (.ok r)] ∧
      (∀ c ∈ before, c = .pollRead) ∧ ∀ c ∈ between, c.Idle

/-- A call does right by its seek: one that is ready was started since the previous one completed
    or failed, and one that failed is not left in progress. -/
def SeekServed (w : Watch E H) (call : CrcCall E) (w' : Watch E H) : Prop :=
  match call with
  | .seek _ position (.ok r) => Serves position r (w'.reader.log.drop w.mark)
  | .seek _ _ (.err _) => w'.reader.seekInProgress = false
  | _ => True

/-! ### The flag -/

/-- The flag and the log tell of the same seek. -/
structure Watch.Tracks (w : Watch E H) (waiting : Option SeekFrom) : Prop where
  mark_le : w.mark ≤ w.reader.log.length
  idle : waiting = none → w.reader.seekInProgress = false ∧ ∀ c ∈ w.since, c = .pollRead
  busy : ∀ position, waiting = some position → w.reader.seekInProgress = true ∧
    ∃ before between, w.since = before ++ .startSeek position (.ok ()) :: between ∧
      (∀ c ∈ before, c = .pollRead) ∧ ∀ c ∈ between, c.Idle

/-- A call adds to the log. -/
theorem log_prefix_of_step {data : E.Data} {w w' : Watch E H} {call : CrcCall E}
    (h : (crcSystem H data).step w call w') : w.reader.log <+: w'.reader.log := by
  cases call with
  | pollRead ctx buf =>
    subst h
    exact ⟨_, (w.reader.pollRead_logged data ctx buf).1.symm⟩
  | seek ctx position answer =>
    obtain ⟨reader, hseek, rfl⟩ := h
    rcases CrcReader.seek_logged hseek with ⟨_, hlog, _⟩ | ⟨_, _, _, hlog, _⟩ | ⟨_, hlog, _⟩
    · exact ⟨_, hlog.symm⟩
    · exact ⟨_, hlog.symm⟩
    · exact ⟨_, hlog.symm⟩

/-- A run adds to the log. -/
theorem log_prefix_of_run {data : E.Data} {w w' : Watch E H} {calls : List (CrcCall E)}
    (h : (crcSystem H data).Run w calls w') : w.reader.log <+: w'.reader.log := by
  induction h with
  | nil => exact List.prefix_rfl
  | snoc _ hstep ih => exact ih.trans (log_prefix_of_step hstep)

/-- **A phase that fails is not taken back**: the seek is answered with the error and is left in
    progress. -/
theorem failure_not_served {data : E.Data} {w w' : Watch E H} {call : CrcCall E}
    (h : (crcSystem H data).step w call w') {c : InnerCall E} (hc : c ∈ w'.reader.log)
    (hold : c ∉ w.reader.log) (hfails : c.Fails) : ¬ SeekServed w call w' := by
  cases call with
  | pollRead ctx buf =>
    subst h
    rw [(w.reader.pollRead_logged data ctx buf).1] at hc
    rcases List.mem_append.mp hc with hc | hc
    · exact absurd hc hold
    · obtain rfl := List.mem_singleton.mp hc
      exact hfails.elim
  | seek ctx position answer =>
    obtain ⟨reader, hseek, rfl⟩ := h
    have herr : ∀ e, answer = .err e → reader.seekInProgress = true →
        ¬ SeekServed w (.seek ctx position answer) ⟨reader, markAfter w reader answer⟩ := by
      rintro e rfl hbusy hserved
      have hidle : reader.seekInProgress = false := hserved
      rw [hbusy] at hidle
      cases hidle
    have hcomplete : c = .pollSeekComplete answer →
        reader.seekInProgress = CrcReader.busyAfter answer →
        ¬ SeekServed w (.seek ctx position answer) ⟨reader, markAfter w reader answer⟩ := by
      rintro rfl hbusy
      cases answer with
      | pending => exact hfails.elim
      | ok r => exact hfails.elim
      | err e => exact herr e rfl hbusy
    rcases CrcReader.seek_logged hseek with ⟨_, hlog, hbusy⟩ | ⟨_, e, he, hlog, hbusy⟩ |
      ⟨_, hlog, hbusy⟩
    · rw [hlog] at hc
      rcases List.mem_append.mp hc with hc | hc
      · exact absurd hc hold
      · exact hcomplete (List.mem_singleton.mp hc) hbusy
    · exact herr e he hbusy
    · rw [hlog] at hc
      rcases List.mem_append.mp hc with hc | hc
      · exact absurd hc hold
      · rcases List.mem_cons.mp hc with rfl | hc
        · exact hfails.elim
        · exact hcomplete (List.mem_singleton.mp hc) hbusy

/-- What is added to the log is added to what came since the mark. -/
theorem drop_mark_append {w : Watch E H} (h : w.mark ≤ w.reader.log.length)
    {calls log : List (InnerCall E)} (hlog : log = w.reader.log ++ calls) :
    log.drop w.mark = w.since ++ calls := by
  rw [hlog, List.drop_append_of_le_length h]
  rfl

/-- **A seek that is started and not failed is tracked to its end.** -/
theorem Watch.Tracks.started {w : Watch E H} {position : SeekFrom} {answer : PollResult E.Error Nat}
    {reader : CrcReader (watched E) H} {ctx : E.Context} {pending : Option SeekFrom}
    {before between : List (InnerCall E)} (hsince : reader.log.drop w.mark =
      before ++ .startSeek position (.ok ()) :: between ++ [.pollSeekComplete answer])
    (hbefore : ∀ c ∈ before, c = .pollRead) (hbetween : ∀ c ∈ between, c.Idle)
    (hmark : w.mark ≤ reader.log.length)
    (hbusy : reader.seekInProgress = CrcReader.busyAfter answer)
    (hgood : ∀ c ∈ reader.log, ¬ c.Fails) :
    SeekServed w (.seek ctx position answer) ⟨reader, markAfter w reader answer⟩ ∧
      Watch.Tracks ⟨reader, markAfter w reader answer⟩
        (CrcCall.waitingAfter pending (.seek ctx position answer)) := by
  cases answer with
  | pending =>
    refine ⟨trivial, hmark, by simp [CrcCall.waitingAfter], ?_⟩
    rintro _ ⟨⟩
    refine ⟨hbusy, before, between ++ [.pollSeekComplete .pending], ?_, hbefore, ?_⟩
    · show reader.log.drop w.mark = _
      rw [hsince, List.append_assoc, List.cons_append]
    · intro c hc
      rcases List.mem_append.mp hc with hc | hc
      · exact hbetween c hc
      · obtain rfl := List.mem_singleton.mp hc
        trivial
  | err e =>
    have hmem : InnerCall.pollSeekComplete (.err e) ∈ reader.log.drop w.mark := by
      rw [hsince]
      simp
    exact absurd trivial (hgood _ (List.mem_of_mem_drop hmem))
  | ok r =>
    refine ⟨⟨before, between, hsince, hbefore, hbetween⟩, Nat.le_refl _, ?_, by
      simp [CrcCall.waitingAfter]⟩
    intro _
    refine ⟨hbusy, ?_⟩
    show ∀ c ∈ reader.log.drop reader.log.length, c = .pollRead
    simp

/-- **A call keeps the flag and the log in step**, as long as no phase of a seek fails. -/
theorem Watch.Tracks.step {data : E.Data} {w w' : Watch E H} {pending : Option SeekFrom}
    {call : CrcCall E} (h : w.Tracks pending) (hstep : (crcSystem H data).step w call w')
    (hsame : ∀ ctx position answer, call = .seek ctx position answer →
      ∀ position', pending = some position' → position = position')
    (hgood : ∀ c ∈ w'.reader.log, ¬ c.Fails) :
    SeekServed w call w' ∧ w'.Tracks (CrcCall.waitingAfter pending call) := by
  cases call with
  | pollRead ctx buf =>
    subst hstep
    obtain ⟨hlog, hflag⟩ := w.reader.pollRead_logged data ctx buf
    have hsince := drop_mark_append h.mark_le hlog
    refine ⟨trivial, ?_, ?_, ?_⟩
    · show w.mark ≤ (w.reader.pollRead data ctx buf).2.log.length
      rw [hlog, List.length_append]
      exact Nat.le_add_right_of_le h.mark_le
    · intro hidle
      obtain ⟨hbusy, hreads⟩ := h.idle hidle
      refine ⟨hflag.trans hbusy, ?_⟩
      intro c hc
      rw [Watch.since, hsince] at hc
      rcases List.mem_append.mp hc with hc | hc
      · exact hreads c hc
      · exact List.mem_singleton.mp hc
    · intro position hposition
      obtain ⟨hbusy, before, between, hcalls, hbefore, hbetween⟩ := h.busy position hposition
      refine ⟨hflag.trans hbusy, before, between ++ [.pollRead], ?_, hbefore, ?_⟩
      · rw [Watch.since, hsince, hcalls, List.append_assoc, List.cons_append]
      · intro c hc
        rcases List.mem_append.mp hc with hc | hc
        · exact hbetween c hc
        · obtain rfl := List.mem_singleton.mp hc
          trivial
  | seek ctx position answer =>
    have hgrows : w.mark ≤ w'.reader.log.length :=
      Nat.le_trans h.mark_le (log_prefix_of_step hstep).length_le
    obtain ⟨reader, hseek, rfl⟩ := hstep
    rcases CrcReader.seek_logged hseek with ⟨hbusy, hlog, hbusy'⟩ | ⟨_, e, _, hlog, _⟩ |
      ⟨hbusy, hlog, hbusy'⟩
    · -- the seek that is pending is polled again
      cases pending with
      | none =>
        rw [(h.idle rfl).1] at hbusy
        cases hbusy
      | some pending =>
        obtain rfl := hsame ctx position answer rfl pending rfl
        obtain ⟨_, before, between, hcalls, hbefore, hbetween⟩ := h.busy position rfl
        refine Watch.Tracks.started ?_ hbefore hbetween hgrows hbusy' hgood
        rw [drop_mark_append h.mark_le hlog, hcalls]
    · -- the first phase does not fail
      refine absurd trivial (hgood (.startSeek position (.error e)) ?_)
      show _ ∈ reader.log
      rw [hlog]
      simp
    · -- a new seek is started
      cases pending with
      | some pending =>
        rw [(h.busy pending rfl).1] at hbusy
        cases hbusy
      | none =>
        have hsince : reader.log.drop w.mark =
            w.since ++ .startSeek position (.ok ()) :: [] ++ [.pollSeekComplete answer] := by
          rw [drop_mark_append h.mark_le hlog, List.append_assoc]
          rfl
        exact Watch.Tracks.started hsince (h.idle rfl).2 (by simp) hgrows hbusy' hgood

/-- **A run without failed phases keeps the flag and the log in step.** -/
theorem Watch.tracks_of_run {data : E.Data} {w₀ w : Watch E H} {calls : List (CrcCall E)}
    (hinit : (crcSystem H data).init w₀) (hrun : (crcSystem H data).Run w₀ calls w)
    (hsame : RepollsSame calls) (hgood : ∀ c ∈ w.reader.log, ¬ c.Fails) :
    w.Tracks (waiting calls) := by
  induction hrun with
  | nil =>
    obtain ⟨inner, rfl⟩ := hinit
    refine ⟨Nat.le_refl _, fun _ => ⟨rfl, ?_⟩, by simp [waiting]⟩
    intro c hc
    cases hc
  | @snoc calls w w' call hrun hstep ih =>
    have hsame' : RepollsSame calls := by
      rintro before ctx position answer after rfl pending hpending
      exact hsame before ctx position answer (after ++ [call]) (by simp) pending hpending
    have htracks := ih hsame' fun c hc => hgood c ((log_prefix_of_step hstep).subset hc)
    rw [waiting, List.foldl_append]
    refine (htracks.step hstep ?_ hgood).2
    rintro ctx position answer rfl pending hpending
    exact hsame calls ctx position answer [] rfl pending hpending

/-- **Every seek of a run is served if and only if no phase of a seek fails in it**: what is ready
    was asked for and is what the inner reader reported, and nothing is left in progress. -/
theorem seeks_served_iff {data : E.Data} {w₀ w : Watch E H} {calls : List (CrcCall E)}
    (hinit : (crcSystem H data).init w₀) (hrun : (crcSystem H data).Run w₀ calls w)
    (hsame : RepollsSame calls) :
    (∀ before call after w₁ w₂, calls = before ++ call :: after →
        (crcSystem H data).Run w₀ before w₁ → (crcSystem H data).step w₁ call w₂ →
        (crcSystem H data).Run w₂ after w → SeekServed w₁ call w₂) ↔
      ∀ c ∈ w.reader.log, ¬ c.Fails := by
  constructor
  · intro hserved
    -- the first failure is in the last step, or before it
    induction hrun with
    | nil =>
      obtain ⟨inner, rfl⟩ := hinit
      intro c hc
      cases hc
    | @snoc calls w w' call hrun hstep ih =>
      have hbefore : ∀ c ∈ w.reader.log, ¬ c.Fails := by
        apply ih
        · rintro before ctx position answer after rfl pending hpending
          exact hsame before ctx position answer (after ++ [call]) (by simp) pending hpending
        · rintro before call' after w₁ w₂ rfl hrun₁ hstep' hrun₂
          exact hserved before call' (after ++ [call]) w₁ w₂ (by simp) hrun₁ hstep'
            (hrun₂.snoc hstep)
      intro c hc hfails
      by_cases hold : c ∈ w.reader.log
      · exact hbefore c hold hfails
      · exact failure_not_served hstep hc hold hfails
          (hserved calls call [] w w' rfl hrun hstep .nil)
  · rintro hgood before call after w₁ w₂ rfl hrun₁ hstep hrun₂
    have hgood₂ : ∀ c ∈ w₂.reader.log, ¬ c.Fails := fun c hc =>
      hgood c ((log_prefix_of_run hrun₂).subset hc)
    have hgood₁ : ∀ c ∈ w₁.reader.log, ¬ c.Fails := fun c hc =>
      hgood₂ c ((log_prefix_of_step hstep).subset hc)
    have hsame₁ : RepollsSame before := by
      rintro before' ctx position answer after' rfl pending hpending
      exact hsame before' ctx position answer (after' ++ call :: after) (by simp) pending hpending
    have htracks := Watch.tracks_of_run hinit hrun₁ hsame₁ hgood₁
    refine (htracks.step hstep ?_ hgood₂).1
    rintro ctx position answer rfl pending hpending
    exact hsame before ctx position answer after rfl pending hpending

/-! ### A byte slice -/

/-- Four bytes. -/
def fourBytes : asRef.Data := ⟨[1, 2, 3, 4], by decide⟩

/-- A CRC reader over them. -/
def fourWatch : Watch asRef crc32Ieee := ⟨.new (E := watched asRef) (⟨0⟩, []), 0⟩

/-- A seek before the start fails, and the next seek, to position 3, is answered from it: with
    position 0, and nothing was started for it. -/
theorem seek_after_failed_seek :
    ∃ w₁ w₂, (crcSystem crc32Ieee fourBytes).init fourWatch ∧
      (crcSystem crc32Ieee fourBytes).step fourWatch
        (.seek () (.current (-1)) (.err .invalidInput)) w₁ ∧
      (crcSystem crc32Ieee fourBytes).step w₁ (.seek () (.start 3) (.ok 0)) w₂ ∧
      w₁.reader.seekInProgress = true ∧
      w₂.reader.log.drop w₁.mark = [.pollSeekComplete (.ok 0)] ∧
      ¬ SeekServed w₁ (.seek () (.start 3) (.ok 0)) w₂ := by
  refine ⟨_, _, ⟨⟨0⟩, rfl⟩, ⟨_, rfl, rfl⟩, ⟨_, rfl, rfl⟩, rfl, rfl, ?_⟩
  rintro ⟨before, between, hcalls, _, _⟩
  have hlength := congrArg List.length hcalls
  simp only [List.length_append, List.length_cons, List.length_nil] at hlength
  have hone : 1 = before.length + (between.length + 1) + 1 := hlength
  omega

/-- A seek to position 3 of a byte slice. -/
theorem seeks_served_iff_fourBytes :
    ∃ w, (crcSystem crc32Ieee fourBytes).Run fourWatch [.seek () (.start 3) (.ok 3)] w ∧
      Serves (.start 3) 3 w.reader.log := by
  have hstep : ∃ w, (crcSystem crc32Ieee fourBytes).step fourWatch
      (.seek () (.start 3) (.ok 3)) w ∧
      w.reader.log = [.startSeek (.start 3) (.ok ()), .pollSeekComplete (.ok 3)] :=
    ⟨_, ⟨_, rfl, rfl⟩, rfl⟩
  obtain ⟨w, hstep, hlog⟩ := hstep
  have hrun := System.Run.cons hstep .nil
  have hsame : RepollsSame (E := asRef) [.seek () (.start 3) (.ok 3)] := by
    intro before ctx position answer after hcalls pending hpending
    cases before with
    | nil => cases hpending
    | cons call before => simp at hcalls
  have hgood : ∀ c ∈ w.reader.log, ¬ c.Fails := by
    rw [hlog]
    simp [InnerCall.Fails]
  have hinit : (crcSystem crc32Ieee fourBytes).init fourWatch := ⟨⟨0⟩, rfl⟩
  have hserved := (seeks_served_iff hinit hrun hsame).mpr hgood
  exact ⟨w, hrun, hserved [] _ [] fourWatch w rfl .nil hstep .nil⟩

end Model

end Zippity
