import Zippity.Bytes
import Zippity.Reader.System

/-! # Responses of a web server

    `actix_web.rs`: a reader as the body of an HTTP response, the whole archive
    or the range that the request asks for.  The header is parsed and checked
    by `http_range_header`, of which nothing is assumed here.
-/

namespace Zippity

open Framework Exec Async

/-! ### Requests and responses -/

/-- `HeaderValue::to_str` and `http_range_header`. -/
structure HttpRangeHeader where
  HeaderValue : Type
  ParsedRanges : Type
  toStr : HeaderValue → Option String
  parseRangeHeader : String → Option ParsedRanges
  /-- The ranges `start..=end` that are satisfiable for a size. -/
  validate : ParsedRanges → Nat → Option (List (Nat × Nat))

/-- `actix_web::HttpRequest`, with its `Range` header. -/
structure HttpRequest (lib : HttpRangeHeader) where
  range : Option lib.HeaderValue

inductive StatusCode where
  | ok
  | partialContent
  | badRequest
  | rangeNotSatisfiable
  deriving DecidableEq, Repr

inductive HeaderName where
  | contentType
  | acceptRanges
  | contentRange
  | contentLength
  deriving DecidableEq, Repr

/-- `actix_web::body::BodySize`. -/
inductive BodySize where
  | none
  | sized (size : Nat)
  | stream
  deriving DecidableEq, Repr

/-- `actix_web::HttpResponse`. -/
structure HttpResponse (Body : Type) where
  status : StatusCode
  headers : List (HeaderName × String)
  body : Option Body

namespace HttpResponse
variable {Body : Type}

/-- `HttpResponse::Ok()`. -/
def okBuilder : HttpResponse Body := ⟨.ok, [], none⟩

/-- `insert_header`: it replaces a header of this name. -/
def insertHeader (self : HttpResponse Body) (name : HeaderName) (value : String) :
    HttpResponse Body :=
  { self with headers := self.headers.filter (fun header => header.1 ≠ name) ++ [(name, value)] }

/-- `headers().get(name)`. -/
def header (self : HttpResponse Body) (name : HeaderName) : Option String :=
  (self.headers.find? fun header => header.1 = name).map Prod.snd

@[simp] theorem header_insertHeader (self : HttpResponse Body) (name : HeaderName)
    (value : String) : (self.insertHeader name value).header name = some value := by
  have hnone : (self.headers.filter fun header => header.1 ≠ name).find?
      (fun header => header.1 = name) = none := by
    rw [List.find?_eq_none]
    intro header hmem
    have hne := (List.mem_filter.mp hmem).2
    simpa using hne
  unfold header insertHeader
  dsimp only
  rw [List.find?_append, hnone, Option.none_or, List.find?_cons_of_pos (by simp)]
  rfl

end HttpResponse

section Model
variable {E : EntryData} {H : Crc32Fast}

/-! ### Bodies -/

/-- `Inner`; `dropChannel` says whether somebody waits for the reader. -/
structure Inner (E : EntryData) (H : Crc32Fast) where
  bytesStream : BytesStream E H
  dropChannel : Bool

/-- `PinnedDrop for Inner`: what is sent through the channel. -/
def Inner.drop (self : Inner E H) : Exec (Option (Reader E H)) :=
  if self.dropChannel then do
    let (extracted, _) ← self.bytesStream.reader.takePinned
    .ok (some extracted)
  else .ok none

/-- `Body`, a `MessageBody`. -/
structure Body (E : EntryData) (H : Crc32Fast) where
  inner : Inner E H
  size : Nat
  remaining : Nat

namespace Body

def new (inner : Inner E H) (size : Nat) : Body E H where
  inner := inner
  size := size
  remaining := size

/-- `MessageBody::size`. -/
def bodySize (self : Body E H) : BodySize := .sized self.size

/-- A call with `projected.inner.project().bytes_stream`. -/
def onBytesStream {α : Type} (x : Async (IoError E) (BytesStream E H) α) :
    Async (IoError E) (Body E H) α :=
  zoom (fun s => .ok s.inner.bytesStream)
    (fun bytesStream s => { s with inner.bytesStream := bytesStream }) x

/-- `MessageBody::poll_next`. -/
def pollNext (lib : PollReadBuf) (ctx : E.Context) (fuel : Nat) (allocated : Allocated READ_SIZE) :
    Async (IoError E) (Body E H) (Option (List UInt8)) := do
  let s ← get
  if s.remaining = 0 then pure none
  else
    match ← onBytesStream (BytesStream.pollNext lib ctx fuel allocated) with
    -- the `expect` on the end of the stream
    | none => fault .unreachable
    | some block =>
      let s ← get
      -- the last block is cut: the stream under it goes on to the end of the archive
      if s.remaining < block.length then
        modify fun s => { s with remaining := 0 }
        pure (some (block.take s.remaining))
      else
        let remaining ← lift (subU64 s.remaining block.length)
        modify fun s => { s with remaining }
        pure (some block)

end Body

/-! ### The responder -/

structure ActixWebAdapter (E : EntryData) (H : Crc32Fast) where
  inner : Inner E H

/-- `Reader::into_responder` and, with a channel, `Reader::into_responder_with_channel`. -/
def Reader.intoResponder (self : Reader E H) (allocated : Allocated READ_SIZE)
    (dropChannel : Bool) : ActixWebAdapter E H where
  inner := ⟨self.intoBytesStream allocated, dropChannel⟩

namespace ActixWebAdapter

/-- The end of `respond_to`: a body of `length` bytes from `offset` on. -/
def respondWith (self : ActixWebAdapter E H) (response : HttpResponse (Body E H))
    (size offset length : Nat) : Exec (HttpResponse (Body E H)) := do
  let response := response.insertHeader .contentLength (toString length)
  let response :=
    -- a range that is the whole archive is answered as such
    if offset ≠ 0 ∨ length ≠ size then { response with status := .partialContent } else response
  let reader ← self.inner.bytesStream.reader.seekFromStart offset
  let inner := { self.inner with bytesStream.reader := reader }
  .ok { response with body := some (.new inner length) }

/-- `Responder::respond_to`. -/
def respondTo (lib : HttpRangeHeader) (self : ActixWebAdapter E H) (req : HttpRequest lib) :
    Exec (HttpResponse (Body E H)) := do
  let size := self.inner.bytesStream.reader.size
  let response := HttpResponse.okBuilder.insertHeader .contentType "application/zip"
  let response := response.insertHeader .acceptRanges "bytes"
  match req.range with
  | some rangesHeader =>
    match (lib.toStr rangesHeader).bind lib.parseRangeHeader with
    | none => .ok { response with status := .badRequest }
    | some parsed =>
      match lib.validate parsed size with
      | none =>
        let response := response.insertHeader .contentRange s!"bytes */{size}"
        .ok { response with status := .rangeNotSatisfiable }
      -- the `expect` on the first range
      | some [] => .error .unreachable
      | some ((start, stop) :: _) =>
        let response := response.insertHeader .contentRange s!"bytes {start}-{stop}/{size}"
        let length ← subU64 stop start
        let length ← addU64 length 1
        self.respondWith response size start length
  | none => self.respondWith response size 0 size

end ActixWebAdapter

/-- A request is accepted, with a body of `length` bytes from `offset` on. -/
inductive Accepted (lib : HttpRangeHeader) (req : HttpRequest lib) (size : Nat) :
    (offset length : Nat) → Prop where
  /-- There is no `Range` header. -/
  | whole (hrange : req.range = none) : Accepted lib req size 0 size
  /-- `validate` yields a first range inside the archive. -/
  | range {rangesHeader : lib.HeaderValue} {parsed : lib.ParsedRanges} {start stop : Nat}
    {ranges : List (Nat × Nat)} (hrange : req.range = some rangesHeader)
    (hparsed : (lib.toStr rangesHeader).bind lib.parseRangeHeader = some parsed)
    (hvalid : lib.validate parsed size = some ((start, stop) :: ranges)) (hle : start ≤ stop)
    (hlt : stop < size) : Accepted lib req size start (stop + 1 - start)

/-! ### Polling a body -/

/-- A poll of a body, with its answer. -/
structure BodyPoll (E : EntryData) where
  ctx : E.Context
  answer : PollResult (IoError E) (Option (List UInt8))

/-- The bytes that a poll of a body yields. -/
def BodyPoll.bytes (poll : BodyPoll E) : List UInt8 :=
  match poll.answer with
  | .ok (some block) => block
  | _ => []

/-- The blocks of some polls, one after the other. -/
def yielded (polls : List (BodyPoll E)) : List UInt8 := polls.flatMap BodyPoll.bytes

@[simp] theorem yielded_snoc (polls : List (BodyPoll E)) (poll : BodyPoll E) :
    yielded (polls ++ [poll]) = yielded polls ++ poll.bytes := by
  simp [yielded]

@[simp] theorem yielded_singleton (poll : BodyPoll E) : yielded [poll] = poll.bytes := by
  simp [yielded]

/-- A body as a transition system, from `Body::new` on. -/
def bodySystem (lib : PollReadBuf) : System (Body E H) (BodyPoll E) where
  init body := ∃ inner size, body = .new inner size
  step body poll body' :=
    ∃ fuel allocated, body.pollNext lib poll.ctx fuel allocated = .ok (poll.answer, body')

end Model

end Zippity
