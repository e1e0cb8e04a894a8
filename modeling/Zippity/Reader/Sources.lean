import Zippity.Reader.Entry

/-! # Sources

    What the reader can observe of the data of an entry.  `SourceReached` says
    in which states a source can be found, if it is opened, read and sought in
    the order in which the reader does it, with whatever contexts and buffers
    and whatever it answers.  A source is described by what it answers in these
    states: it seeks true if a seek that started ends at its target, and it ends
    if it does not go on for ever.

    `ReadThrough` is what a source answers when it is opened and read to its end
    in one context, with no call before.
-/

namespace Zippity

open Framework

/-! ### States -/

/-- What is held of a source. -/
inductive SourceState (E : EntryData) where
  | opening (future : E.Future)
  /-- So many bytes were read since it was opened. -/
  | reading (reader : E.Reader) (count : Nat)
  /-- A seek was started. -/
  | seeking (reader : E.Reader) (target : Nat)
  /-- A seek failed. -/
  | failedSeek (reader : E.Reader)

/-- The states that a source for `d` can be found in. -/
inductive SourceReached (E : EntryData) (d : E.Data) : SourceState E → Prop where
  | getReader : SourceReached E d (.opening (E.getReader d))
  | pollPending {future future' : E.Future} {ctx : E.Context}
    (h : SourceReached E d (.opening future)) (hpoll : E.poll future ctx = (.pending, future')) :
    SourceReached E d (.opening future')
  | pollReady {future future' : E.Future} {ctx : E.Context} {reader : E.Reader}
    (h : SourceReached E d (.opening future)) (hpoll : E.poll future ctx = (.ok reader, future')) :
    SourceReached E d (.reading reader 0)
  | readPending {reader reader' : E.Reader} {count : Nat} {ctx : E.Context} {buf : ReadBuf}
    (h : SourceReached E d (.reading reader count))
    (hread : E.pollRead reader d ctx buf = (.pending, reader')) :
    SourceReached E d (.reading reader' count)
  | readErr {reader reader' : E.Reader} {count : Nat} {ctx : E.Context} {buf : ReadBuf} {e : E.Error}
    (h : SourceReached E d (.reading reader count))
    (hread : E.pollRead reader d ctx buf = (.err e, reader')) :
    SourceReached E d (.reading reader' count)
  | readReady {reader reader' : E.Reader} {count : Nat} {ctx : E.Context} {buf : ReadBuf}
    {bytes : Filling buf.remaining} (h : SourceReached E d (.reading reader count))
    (hread : E.pollRead reader d ctx buf = (.ok bytes, reader')) :
    SourceReached E d (.reading reader' (count + bytes.1.length))
  | startSeek {reader reader' : E.Reader} {count target : Nat}
    (h : SourceReached E d (.reading reader count))
    (hstart : E.startSeek reader d (.start target) = (.ok (), reader')) :
    SourceReached E d (.seeking reader' target)
  | startSeekErr {reader reader' : E.Reader} {count target : Nat} {e : E.Error}
    (h : SourceReached E d (.reading reader count))
    (hstart : E.startSeek reader d (.start target) = (.error e, reader')) :
    SourceReached E d (.failedSeek reader')
  | seekPending {reader reader' : E.Reader} {target : Nat} {ctx : E.Context}
    (h : SourceReached E d (.seeking reader target))
    (hpoll : E.pollSeekComplete reader d ctx = (.pending, reader')) :
    SourceReached E d (.seeking reader' target)
  | seekErr {reader reader' : E.Reader} {target : Nat} {ctx : E.Context} {e : E.Error}
    (h : SourceReached E d (.seeking reader target))
    (hpoll : E.pollSeekComplete reader d ctx = (.err e, reader')) :
    SourceReached E d (.failedSeek reader')
  /-- What failed stays failed, until it answers a position. -/
  | stillFailed {reader reader' : E.Reader} {ctx : E.Context} {answer : PollResult E.Error Nat}
    (h : SourceReached E d (.failedSeek reader))
    (hpoll : E.pollSeekComplete reader d ctx = (answer, reader')) (hnot : ∀ q, answer ≠ .ok q) :
    SourceReached E d (.failedSeek reader')

/-- Every seek that started ends at its target. -/
def SeeksTrue (E : EntryData) (d : E.Data) : Prop :=
  ∀ reader target ctx q reader', SourceReached E d (.seeking reader target) →
    E.pollSeekComplete reader d ctx = (.ok q, reader') → q = target

/-- No more than `bound` bytes are ever read. -/
def EndsBy (E : EntryData) (d : E.Data) (bound : Nat) : Prop :=
  ∀ reader count, SourceReached E d (.reading reader count) → count ≤ bound

theorem EndsBy.mono {E : EntryData} {d : E.Data} {bound bound' : Nat} (h : EndsBy E d bound)
    (hle : bound ≤ bound') : EndsBy E d bound' :=
  fun reader count hreached => Nat.le_trans (h reader count hreached) hle

section Delivers
variable {E : EntryData} {mayFail : Prop} {d : E.Data} {data : List UInt8}

/-- What the contract says of a state. -/
def SourceState.Contracted (mayFail : Prop) (d : E.Data) (data : List UInt8) :
    SourceState E → Prop
  | .opening future => Opening E mayFail d data future
  | .reading reader count => Standing E mayFail d data reader count ∧ count ≤ data.length
  | .seeking reader target => Seeking E mayFail d data reader target
  | .failedSeek reader =>
    (∃ target, Seeking E mayFail d data reader target) ∨ Stalled E mayFail d data reader

/-- A source that delivers keeps its contract. -/
theorem SourceReached.contracted (hdelivers : Delivers E mayFail d data) {state : SourceState E}
    (h : SourceReached E d state) : state.Contracted mayFail d data := by
  induction h with
  | getReader => exact hdelivers
  | @pollPending _ _ ctx _ hpoll ih =>
    have hopening := opening_poll ih ctx
    rw [hpoll] at hopening
    exact hopening
  | @pollReady _ _ ctx _ _ hpoll ih =>
    have hopening := opening_poll ih ctx
    rw [hpoll] at hopening
    exact ⟨hopening, Nat.zero_le _⟩
  | @readPending _ _ _ ctx buf _ hread ih =>
    have hstanding := standing_pollRead ih.1 ctx buf
    rw [hread] at hstanding
    exact ⟨hstanding, ih.2⟩
  | @readErr _ _ _ ctx buf _ _ hread ih =>
    have hstanding := standing_pollRead ih.1 ctx buf
    rw [hread] at hstanding
    exact ⟨hstanding.2, ih.2⟩
  | @readReady _ _ count ctx buf bytes _ hread ih =>
    have hstanding := standing_pollRead ih.1 ctx buf
    rw [hread] at hstanding
    obtain ⟨hbytes, _, hstanding⟩ := hstanding
    have hlen := congrArg List.length hbytes
    rw [List.length_take, List.length_drop] at hlen
    have hle : count ≤ data.length := ih.2
    exact ⟨hstanding, by omega⟩
  | @startSeek _ _ _ target _ hstart ih =>
    have hseeking := standing_startSeek ih.1 target
    rw [hstart] at hseeking
    exact hseeking
  | @startSeekErr _ _ _ target _ _ hstart ih =>
    have hseeking := standing_startSeek ih.1 target
    rw [hstart] at hseeking
    exact .inr hseeking.2
  | @seekPending _ _ _ ctx _ hpoll ih =>
    have hseeking := seeking_pollSeekComplete ih ctx
    rw [hpoll] at hseeking
    exact hseeking
  | @seekErr _ _ target ctx _ _ hpoll ih =>
    have hseeking := seeking_pollSeekComplete ih ctx
    rw [hpoll] at hseeking
    rcases hseeking.2 with hagain | hstalled
    · exact .inl ⟨target, hagain⟩
    · exact .inr hstalled
  | @stillFailed _ _ ctx answer _ hpoll hnot ih =>
    rcases ih with ⟨target, hseeking⟩ | hstalled
    · have hpolled := seeking_pollSeekComplete hseeking ctx
      rw [hpoll] at hpolled
      cases answer with
      | pending => exact .inl ⟨target, hpolled⟩
      | err e =>
        rcases hpolled.2 with hagain | hstalled
        · exact .inl ⟨target, hagain⟩
        · exact .inr hstalled
      | ok q => exact absurd rfl (hnot q)
    · have hpolled := stalled_pollSeekComplete hstalled ctx
      rw [hpoll] at hpolled
      cases answer with
      | pending => exact .inr hpolled
      | err e => exact .inr hpolled.2
      | ok q => exact absurd rfl (hnot q)

/-- A source that delivers seeks true, also if its seeks may fail. -/
theorem Delivers.seeksTrue (h : Delivers E mayFail d data) : SeeksTrue E d := by
  intro reader target ctx q reader' hreached hpoll
  have hseeking := seeking_pollSeekComplete (hreached.contracted h) ctx
  rw [hpoll] at hseeking
  exact hseeking.1

end Delivers

/-! ### CRC readers -/

section CrcReader
variable {E : EntryData} {H : Crc32Fast} {d : E.Data}

/-- The reader never sought, and so many bytes were read from its source. -/
structure Straight (d : E.Data) (reader : CrcReader E H) (count : Nat) : Prop where
  unsought : reader.didSeek = false
  idle : reader.seekInProgress = false
  reached : SourceReached E d (.reading reader.innerReader count)

/-- A read changes no flag. -/
theorem CrcReader.pollRead_flags (reader : CrcReader E H) (data : E.Data) (ctx : E.Context)
    (buf : ReadBuf) : (reader.pollRead data ctx buf).2.didSeek = reader.didSeek ∧
      (reader.pollRead data ctx buf).2.seekInProgress = reader.seekInProgress := by
  unfold CrcReader.pollRead
  rcases E.pollReadInto reader.innerReader data ctx buf with ⟨_ | e | buf', inner⟩
  · exact ⟨rfl, rfl⟩
  · exact ⟨rfl, rfl⟩
  · exact ⟨rfl, rfl⟩

/-- A read counts what it appends. -/
theorem Straight.pollRead {reader : CrcReader E H} {count : Nat} (h : Straight d reader count)
    (ctx : E.Context) (buf : ReadBuf) :
    match reader.pollRead d ctx buf with
    | (.pending, reader') => Straight d reader' count
    | (.err _, reader') => Straight d reader' count
    | (.ok buf', reader') => ∃ bytes, buf.Extends bytes buf' ∧
      Straight d reader' (count + bytes.length) := by
  unfold CrcReader.pollRead EntryData.pollReadInto
  rcases hread : E.pollRead reader.innerReader d ctx buf with ⟨_ | e | bytes, inner⟩
  · exact ⟨h.unsought, h.idle, h.reached.readPending hread⟩
  · exact ⟨h.unsought, h.idle, h.reached.readErr hread⟩
  · exact ⟨bytes.1, .append bytes.2, h.unsought, h.idle, h.reached.readReady hread⟩

end CrcReader

/-! ### Sources read through -/

/-- What a reader answers that is read to its end in one context. -/
inductive ReadToEnd (E : EntryData) (d : E.Data) (ctx : E.Context) :
    E.Reader → PollResult E.Error Unit → Prop where
  | pending {reader reader' : E.Reader}
    (hread : E.pollRead reader d ctx (.new READ_SIZE) = (.pending, reader')) :
    ReadToEnd E d ctx reader .pending
  | failed {reader reader' : E.Reader} {e : E.Error}
    (hread : E.pollRead reader d ctx (.new READ_SIZE) = (.err e, reader')) :
    ReadToEnd E d ctx reader (.err e)
  | atEnd {reader reader' : E.Reader} {bytes : Filling (ReadBuf.new READ_SIZE).remaining}
    (hread : E.pollRead reader d ctx (.new READ_SIZE) = (.ok bytes, reader')) (hnil : bytes.1 = []) :
    ReadToEnd E d ctx reader (.ok ())
  | more {reader reader' : E.Reader} {bytes : Filling (ReadBuf.new READ_SIZE).remaining}
    {answer : PollResult E.Error Unit}
    (hread : E.pollRead reader d ctx (.new READ_SIZE) = (.ok bytes, reader')) (hne : bytes.1 ≠ [])
    (hrest : ReadToEnd E d ctx reader' answer) : ReadToEnd E d ctx reader answer

/-- What a source answers that is opened and read to its end in one context. -/
inductive ReadThrough (E : EntryData) (d : E.Data) (ctx : E.Context) :
    PollResult E.Error Unit → Prop where
  | pending {future : E.Future} (hpoll : E.poll (E.getReader d) ctx = (.pending, future)) :
    ReadThrough E d ctx .pending
  | failed {future : E.Future} {e : E.Error}
    (hpoll : E.poll (E.getReader d) ctx = (.err e, future)) : ReadThrough E d ctx (.err e)
  | opened {future : E.Future} {reader : E.Reader} {answer : PollResult E.Error Unit}
    (hpoll : E.poll (E.getReader d) ctx = (.ok reader, future))
    (hrest : ReadToEnd E d ctx reader answer) : ReadThrough E d ctx answer

section Unique
variable {E : EntryData} {d : E.Data} {ctx : E.Context} {answer answer' : PollResult E.Error Unit}

theorem ReadToEnd.unique {reader : E.Reader} (h : ReadToEnd E d ctx reader answer)
    (h' : ReadToEnd E d ctx reader answer') : answer = answer' := by
  induction h with
  | pending hread => cases h' <;> simp_all
  | failed hread => cases h' <;> simp_all
  | atEnd hread hnil =>
    cases h' with
    | atEnd => rfl
    | more hread' hne =>
      rw [hread] at hread'
      cases hread'
      exact absurd hnil hne
    | _ => simp_all
  | more hread hne _ ih =>
    cases h' with
    | more hread' _ hrest' =>
      rw [hread] at hread'
      cases hread'
      exact ih hrest'
    | atEnd hread' hnil =>
      rw [hread] at hread'
      cases hread'
      exact absurd hnil hne
    | _ => simp_all

/-- In one context a source has one answer. -/
theorem ReadThrough.unique (h : ReadThrough E d ctx answer) (h' : ReadThrough E d ctx answer') :
    answer = answer' := by
  cases h with
  | pending hpoll => cases h' <;> simp_all
  | failed hpoll => cases h' <;> simp_all
  | opened hpoll hrest =>
    cases h' with
    | opened hpoll' hrest' =>
      rw [hpoll] at hpoll'
      cases hpoll'
      exact hrest.unique hrest'
    | _ => simp_all

end Unique

end Zippity
