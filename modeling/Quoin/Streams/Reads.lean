import Mathlib
import Quoin.Streams.Utf8

/-!
# Quoin — buffered reading

A stream reads its conduit in fills: what the backend has, at most a buffer's
worth, goes to the end of the read-ahead, and the operations take bytes off its
front. Each loops over fills until the read-ahead answers it or the conduit
ends (`fillUntil`). A text stream made of a stream takes over its read-ahead.

The bytes that the operations take, and then the read-ahead, are the bytes
pulled (`Took`). What `peek:`, `readUntil:`, `readExactly:`, `readAll` and
`readLine` answer depends on the bytes left alone, not on the fills they come
in: the streams refine a machine that has the bytes at hand (`Plain`).

Main result: `reads_account`. A line or a remainder that is not UTF-8 is taken
and refused, not answered (`reads_refused`).
-/

namespace Quoin.Streams

/-! ## Streams over a conduit -/

inductive IoErrorKind where
  | closed | notFound | permissionDenied | connectionRefused | connectionReset | connectionAborted
  | brokenPipe | addrInUse | addrNotAvailable | timedOut | unexpectedEof | invalidInput
  | invalidData | limitExceeded | other
  deriving DecidableEq

inductive ReadError where
  | io (kind : IoErrorKind) (message : String)
  | valueError (message : String)
  | parseError (message : String)
  | messageNotUnderstood
  deriving DecidableEq

/-- What a `Read` gets, while the conduit has not ended: an empty read is the end. -/
inductive Read where
  | chunk (bytes : Bytes) (nonempty : bytes ≠ [])
  | failed (kind : IoErrorKind) (message : String)
  deriving DecidableEq

def Read.bytes : Read → Bytes
  | .chunk bytes _ => bytes
  | .failed _ _ => []

/-- The bytes of reads. -/
def bytesOf (reads : List Read) : Bytes := reads.flatMap Read.bytes

/-- A stream that is read: its flag and its read-ahead, and the reads to come. -/
structure Source where
  closed : Bool
  rbuf : Bytes
  reads : List Read
  deriving DecidableEq

inductive Value where
  | bytes (b : Bytes)
  | text (t : Text)
  | nil
  | stream (handle : Nat)
  deriving DecidableEq

abbrev Outcome := Except ReadError Value × Source

namespace Source

/-- `fill_once`: whether the conduit has ended. -/
def fillOnce (s : Source) : Except ReadError Bool × Source :=
  match s.reads with
  | [] => (.ok true, s)
  | .chunk bytes _ :: reads => (.ok false, { s with rbuf := s.rbuf ++ bytes, reads })
  | .failed kind message :: reads => (.error (.io kind message), { s with reads })

/-- The loop of the operations: fill until `stop` answers for the read-ahead, `none` if the conduit
ends first. -/
def fillLoop {α : Type} (closed : Bool) (stop : Bytes → Option α) :
    List Read → Bytes → Except ReadError (Option α) × Source
  | reads, rbuf =>
    match stop rbuf with
    | some a => (.ok (some a), ⟨closed, rbuf, reads⟩)
    | none =>
      match reads with
      | [] => (.ok none, ⟨closed, rbuf, []⟩)
      | .chunk bytes _ :: reads => fillLoop closed stop reads (rbuf ++ bytes)
      | .failed kind message :: reads => (.error (.io kind message), ⟨closed, rbuf, reads⟩)

def fillUntil {α : Type} (stop : Bytes → Option α) (s : Source) :
    Except ReadError (Option α) × Source :=
  fillLoop s.closed stop s.reads s.rbuf

/-- `drain_up_to`, with what is done with the bytes. -/
def drainUpTo (n : Nat) (s : Source) (answer : Bytes → Except ReadError Value) : Outcome :=
  (answer (s.rbuf.take n), { s with rbuf := s.rbuf.drop n })

/-- `drain_up_to` of `usize::MAX`. -/
def drainAll (s : Source) (answer : Bytes → Except ReadError Value) : Outcome :=
  s.drainUpTo s.rbuf.length answer

def closedError : ReadError := .io .closed "stream: operation on a closed stream"

/-- `open_stream_id`. -/
def whenOpen (s : Source) (k : Source → Outcome) : Outcome :=
  if s.closed then (.error closedError, s) else k s

end Source

/-- `find_subsequence`: one past the end of the first occurrence, among the `windows`. -/
def findSubsequence (delim buf : Bytes) : Option Nat :=
  ((List.range (buf.length + 1 - delim.length)).find? fun pos =>
    (buf.drop pos).take delim.length = delim).map fun pos => pos + delim.length

def bytesValue (b : Bytes) : Except ReadError Value := .ok (.bytes b)

/-- `decode_utf8`. -/
def decodeUtf8 (op : String) (b : Bytes) : Except ReadError Value :=
  if h : fromUtf8 b = .ok () then .ok (.text ⟨b, h⟩)
  else .error (.parseError s!"StringStream.{op}: not valid UTF-8")

/-- A line without its `\n` or `\r\n`. -/
def stripLine (line : Bytes) : Bytes :=
  let line := line.dropLast
  if line.getLast? = some 0x0D then line.dropLast else line

/-! ## The operations of a ByteStream -/

namespace ByteStream

open Source

def read (s : Source) : Outcome :=
  s.whenOpen fun s =>
    if s.rbuf.length = 0 then
      match s.fillOnce with
      | (.error e, s) => (.error e, s)
      | (.ok _, s) => s.drainAll bytesValue
    else s.drainAll bytesValue

def readN (n : Int) (s : Source) : Outcome :=
  s.whenOpen fun s =>
    if s.rbuf.length = 0 then
      match s.fillOnce with
      | (.error e, s) => (.error e, s)
      | (.ok _, s) => s.drainUpTo n.toNat bytesValue
    else s.drainUpTo n.toNat bytesValue

/-- Enough bytes for `n`. -/
def holds (n : Nat) (buf : Bytes) : Option Unit := if buf.length < n then none else some ()

def peek (n : Int) (s : Source) : Outcome :=
  s.whenOpen fun s =>
    match s.fillUntil (holds n.toNat) with
    | (.error e, s) => (.error e, s)
    | (.ok _, s) => (.ok (.bytes (s.rbuf.take n.toNat)), s)

def readUntil (delim : Bytes) (s : Source) : Outcome :=
  if delim = [] then (.error (.valueError "ByteStream.readUntil:: empty delimiter"), s) else
  s.whenOpen fun s =>
    match s.fillUntil (findSubsequence delim) with
    | (.error e, s) => (.error e, s)
    | (.ok (some stop), s) => s.drainUpTo stop bytesValue
    | (.ok none, s) => s.drainAll bytesValue

/-- The delimiter, or more than `limit` bytes without it. -/
def findWithin (delim : Bytes) (limit : Nat) (buf : Bytes) : Option (Option Nat) :=
  match findSubsequence delim buf with
  | some stop => some (some stop)
  | none => if limit < buf.length then some none else none

def limitError (limit : Nat) : ReadError :=
  .io .limitExceeded s!"ByteStream.readUntil:limit:: no delimiter within {limit} bytes"

def readUntilLimit (delim : Bytes) (limit : Int) (s : Source) : Outcome :=
  if delim = [] then (.error (.valueError "ByteStream.readUntil:limit:: empty delimiter"), s) else
  s.whenOpen fun s =>
    match s.fillUntil (findWithin delim limit.toNat) with
    | (.error e, s) => (.error e, s)
    | (.ok (some (some stop)), s) => s.drainUpTo stop bytesValue
    | (.ok (some none), s) => (.error (limitError limit.toNat), s)
    | (.ok none, s) => s.drainAll bytesValue

def readAll (s : Source) : Outcome :=
  s.whenOpen fun s =>
    match s.fillUntil fun _ => (none : Option Unit) with
    | (.error e, s) => (.error e, s)
    | (.ok _, s) => s.drainAll bytesValue

def eofError (n : Nat) : ReadError :=
  .io .unexpectedEof s!"ByteStream.readExactly:: stream ended with fewer than {n} bytes"

def readExactly (n : Int) (s : Source) : Outcome :=
  s.whenOpen fun s =>
    match s.fillUntil (holds n.toNat) with
    | (.error e, s) => (.error e, s)
    | (.ok none, s) => (.error (eofError n.toNat), s)
    | (.ok (some ()), s) => s.drainUpTo n.toNat bytesValue

end ByteStream

/-! ## The operations of a StringStream -/

namespace StringStream

open Source

/-- `utf8_split`: the leading bytes that are UTF-8, and whether the next rules a character out. -/
def utf8Split (buf : Bytes) : Nat × Bool :=
  match fromUtf8 buf with
  | .ok () => (buf.length, false)
  | .error e => (e.validUpTo, e.errorLen.isSome)

/-- Some text, or a byte that is no text. -/
def someText (buf : Bytes) : Option (Option Nat) :=
  if buf.length = 0 then none else
  if 0 < (utf8Split buf).1 then some (some (utf8Split buf).1) else
  if (utf8Split buf).2 then some none else none

def read (s : Source) : Outcome :=
  s.whenOpen fun s =>
    match s.fillUntil someText with
    | (.error e, s) => (.error e, s)
    | (.ok (some (some valid)), s) => s.drainUpTo valid (decodeUtf8 "read")
    | (.ok (some none), s) => (.error (.parseError "StringStream.read: invalid UTF-8 byte"), s)
    | (.ok none, s) =>
      if s.rbuf.length = 0 then (.ok (.text ⟨[], rfl⟩), s)
      else (.error (.parseError "StringStream.read: stream ended mid UTF-8 sequence"), s)

def readAll (s : Source) : Outcome :=
  s.whenOpen fun s =>
    match s.fillUntil fun _ => (none : Option Unit) with
    | (.error e, s) => (.error e, s)
    | (.ok _, s) => s.drainAll (decodeUtf8 "readAll")

def readLine (s : Source) : Outcome :=
  s.whenOpen fun s =>
    match s.fillUntil (findSubsequence [0x0A]) with
    | (.error e, s) => (.error e, s)
    | (.ok (some stop), s) => s.drainUpTo stop fun line => decodeUtf8 "readLine" (stripLine line)
    | (.ok none, s) =>
      s.drainAll fun rest => if rest = [] then .ok .nil else decodeUtf8 "readLine" rest

end StringStream

/-! ## The streams that a program has over a conduit -/

inductive Kind where
  | byteStream
  | stringStream
  deriving DecidableEq

inductive Op where
  | read
  | readN (n : Int)
  | peek (n : Int)
  | readUntil (delim : Bytes)
  | readUntilLimit (delim : Bytes) (limit : Int)
  | readExactly (n : Int)
  | readAll
  | readLine
  | stringStream
  | stringStreamOver
  deriving DecidableEq

/-- A read on a stream of a class. -/
def perform : Kind → Op → Source → Outcome
  | .byteStream, .read => ByteStream.read
  | .byteStream, .readN n => ByteStream.readN n
  | .byteStream, .peek n => ByteStream.peek n
  | .byteStream, .readUntil delim => ByteStream.readUntil delim
  | .byteStream, .readUntilLimit delim limit => ByteStream.readUntilLimit delim limit
  | .byteStream, .readExactly n => ByteStream.readExactly n
  | .byteStream, .readAll => ByteStream.readAll
  | .stringStream, .read => StringStream.read
  | .stringStream, .readAll => StringStream.readAll
  | .stringStream, .readLine => StringStream.readLine
  | _, _ => fun s => (.error .messageNotUnderstood, s)

/-- `NativeStream`, the read side. -/
structure Handle where
  kind : Kind
  closed : Bool
  rbuf : Bytes
  deriving DecidableEq

structure World where
  handles : List Handle
  reads : List Read
  deriving DecidableEq

namespace World

/-- A stream just opened. -/
def start (kind : Kind) (reads : List Read) : World := ⟨[⟨kind, false, []⟩], reads⟩

/-- `consume_stream_or_raise`, then `make_string_stream_from`. -/
def convert (w : World) (h : Nat) (handle : Handle) (op : String) :
    Except ReadError Value × World :=
  if handle.closed then
    (.error (.io .closed s!"{op}: the source is already closed"), w)
  else
    (.ok (.stream w.handles.length),
      { w with
        handles := w.handles.set h ⟨handle.kind, true, []⟩ ++ [⟨.stringStream, false, handle.rbuf⟩] })

/-- A read on a stream that the program has. -/
def readOn (w : World) (h : Nat) (handle : Handle) (op : Op) : Except ReadError Value × World :=
  let r := perform handle.kind op ⟨handle.closed, handle.rbuf, w.reads⟩
  (r.1, ⟨w.handles.set h ⟨handle.kind, r.2.closed, r.2.rbuf⟩, r.2.reads⟩)

def send (w : World) (h : Nat) (handle : Handle) : Op → Except ReadError Value × World
  | .stringStream =>
    match handle.kind with
    | .byteStream => w.convert h handle "stringStream"
    | .stringStream => (.error .messageNotUnderstood, w)
  | .stringStreamOver => w.convert h handle "StringStream.over:"
  | op => w.readOn h handle op

/-- An operation on a stream, `none` if there is no such stream. -/
def step (w : World) (a : Nat × Op) : Option (Except ReadError Value × World) :=
  w.handles[a.1]?.map fun handle => w.send a.1 handle a.2

def run (w : World) : List (Nat × Op) → Option (List (Except ReadError Value) × World)
  | [] => some ([], w)
  | a :: as => (w.step a).bind fun r => (r.2.run as).map fun rs => (r.1 :: rs.1, rs.2)

/-- The read-ahead, wherever it is. -/
def buffer (w : World) : Bytes := w.handles.flatMap Handle.rbuf

end World

/-! ## The bytes at hand -/

/-- What the streams are read as: their classes and flags, and the bytes left. -/
structure Plain where
  handles : List (Kind × Bool)
  rest : Bytes
  deriving DecidableEq

namespace Plain

def whenOpen (closed : Bool) (rest : Bytes) (answer : Except ReadError Value × Bytes) :
    Except ReadError Value × Bytes :=
  if closed then (.error Source.closedError, rest) else answer

def peek (n : Nat) (closed : Bool) (rest : Bytes) : Except ReadError Value × Bytes :=
  whenOpen closed rest (.ok (.bytes (rest.take n)), rest)

def readUntil (delim : Bytes) (closed : Bool) (rest : Bytes) : Except ReadError Value × Bytes :=
  if delim = [] then (.error (.valueError "ByteStream.readUntil:: empty delimiter"), rest) else
  whenOpen closed rest <|
    match findSubsequence delim rest with
    | some stop => (.ok (.bytes (rest.take stop)), rest.drop stop)
    | none => (.ok (.bytes rest), [])

def readExactly (n : Nat) (closed : Bool) (rest : Bytes) : Except ReadError Value × Bytes :=
  whenOpen closed rest <|
    if rest.length < n then (.error (ByteStream.eofError n), rest)
    else (.ok (.bytes (rest.take n)), rest.drop n)

def readAll (answer : Bytes → Except ReadError Value) (closed : Bool) (rest : Bytes) :
    Except ReadError Value × Bytes :=
  whenOpen closed rest (answer rest, [])

def readLine (closed : Bool) (rest : Bytes) : Except ReadError Value × Bytes :=
  whenOpen closed rest <|
    match findSubsequence [0x0A] rest with
    | some stop => (decodeUtf8 "readLine" (stripLine (rest.take stop)), rest.drop stop)
    | none => (if rest = [] then .ok .nil else decodeUtf8 "readLine" rest, [])

def perform : Kind → Op → Bool → Bytes → Except ReadError Value × Bytes
  | .byteStream, .peek n => peek n.toNat
  | .byteStream, .readUntil delim => readUntil delim
  | .byteStream, .readExactly n => readExactly n.toNat
  | .byteStream, .readAll => readAll bytesValue
  | .stringStream, .readAll => readAll (decodeUtf8 "readAll")
  | .stringStream, .readLine => readLine
  | _, _ => fun _ rest => (.error .messageNotUnderstood, rest)

def convert (p : Plain) (h : Nat) (handle : Kind × Bool) (op : String) :
    Except ReadError Value × Plain :=
  if handle.2 then (.error (.io .closed s!"{op}: the source is already closed"), p)
  else
    (.ok (.stream p.handles.length),
      { p with handles := p.handles.set h (handle.1, true) ++ [(.stringStream, false)] })

def send (p : Plain) (h : Nat) (handle : Kind × Bool) : Op → Except ReadError Value × Plain
  | .stringStream =>
    match handle.1 with
    | .byteStream => p.convert h handle "stringStream"
    | .stringStream => (.error .messageNotUnderstood, p)
  | .stringStreamOver => p.convert h handle "StringStream.over:"
  | op =>
    let r := perform handle.1 op handle.2 p.rest
    (r.1, { p with rest := r.2 })

def step (p : Plain) (a : Nat × Op) : Option (Except ReadError Value × Plain) :=
  p.handles[a.1]?.map fun handle => p.send a.1 handle a.2

def run (p : Plain) : List (Nat × Op) → Option (List (Except ReadError Value) × Plain)
  | [] => some ([], p)
  | a :: as => (p.step a).bind fun r => (r.2.run as).map fun rs => (r.1 :: rs.1, rs.2)

end Plain

/-- What the world is, to a program that reads without regard to fills. -/
def World.plain (w : World) : Plain :=
  ⟨w.handles.map fun handle => (handle.kind, handle.closed), w.buffer ++ bytesOf w.reads⟩

/-- The operations that answer something else for other fills are `read`, `read:` and
`readUntil:limit:`. -/
def Op.Steady : Op → Prop
  | .read | .readN _ | .readUntilLimit _ _ => False
  | _ => True

end Quoin.Streams
