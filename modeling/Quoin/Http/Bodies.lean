import Mathlib
import Quoin.Streams.Lossless
import Quoin.Trans.Split

/-!
# Quoin — HTTP bodies on a stream

An `[HTTP]Body` is read off a stream as it is framed: in chunks that each come
with a line that gives the size, up to a given length, or to the end of the
stream. `rawChunks` is a generator, and draining the body takes what it yields.

The loops end with the bytes of the stream, so their fuel is one more than these
(`pull_ends`). `Message` is a body as a peer writes it, with whatever
extensions, blanks and trailers it likes.
-/

namespace Quoin.Http.Bodies

open Trans Streams

/-! ## Reading off the stream -/

inductive Error where
  /-- an error of the stream, or one that is thrown as such -/
  | raised (e : ReadError)
  | bodyTooLarge (message : String)
  /-- the error of `Integer.fromHex:`, with the text that it quotes -/
  | notHex (text : Bytes)
  /-- "Integer overflow" -/
  | overflow
  deriving DecidableEq

/-- What reads the stream. -/
abbrev Reading (α : Type) := Source → Except Error α × Source

namespace Reading

variable {α β : Type}

def done (a : α) : Reading α := fun s => (.ok a, s)

def fail (e : Error) : Reading α := fun s => (.error e, s)

def andThen (m : Reading α) (f : α → Reading β) : Reading β := fun s =>
  match m s with
  | (.ok a, s) => f a s
  | (.error e, s) => (.error e, s)

instance monad : Monad Reading where
  pure := done
  bind := andThen

def lift : Except Error α → Reading α
  | .ok a => done a
  | .error e => fail e

/-- A read that answers bytes. -/
def bytes (read : Source → Outcome) : Reading Bytes := fun s =>
  match read s with
  | (.ok (.bytes b), s) => (.ok b, s)
  | (.ok _, s) => (.error (.raised .messageNotUnderstood), s)
  | (.error e, s) => (.error (.raised e), s)

end Reading

/-! ## Numbers and lines -/

def CRLF : Bytes := [0x0D, 0x0A]
def SEMICOLON : UInt8 := 0x3B
def EQUALS : UInt8 := 0x3D

/-- The characters of `char::is_whitespace`, in UTF-8. -/
def WHITE_SPACE : List Bytes :=
  [[0x09], [0x0A], [0x0B], [0x0C], [0x0D], [0x20], [0xC2, 0x85], [0xC2, 0xA0],
    [0xE1, 0x9A, 0x80], [0xE2, 0x80, 0x80], [0xE2, 0x80, 0x81], [0xE2, 0x80, 0x82],
    [0xE2, 0x80, 0x83], [0xE2, 0x80, 0x84], [0xE2, 0x80, 0x85], [0xE2, 0x80, 0x86],
    [0xE2, 0x80, 0x87], [0xE2, 0x80, 0x88], [0xE2, 0x80, 0x89], [0xE2, 0x80, 0x8A],
    [0xE2, 0x80, 0xA8], [0xE2, 0x80, 0xA9], [0xE2, 0x80, 0xAF], [0xE2, 0x81, 0x9F],
    [0xE3, 0x80, 0x80]]

/-- The text without the given characters that it begins with, so many at most. -/
def strip (chars : List Bytes) : Nat → Bytes → Bytes
  | 0, s => s
  | n + 1, s =>
    match chars.find? fun c => c.isPrefixOf s with
    | some c => strip chars n (s.drop c.length)
    | none => s

def trimStart (s : Bytes) : Bytes := strip WHITE_SPACE s.length s

def trimEnd (s : Bytes) : Bytes :=
  (strip (WHITE_SPACE.map List.reverse) s.length s.reverse).reverse

/-- `str::trim`. -/
def trim (s : Bytes) : Bytes := trimEnd (trimStart s)

/-- `char::to_digit(16)`. -/
def hexDigit (b : UInt8) : Option Nat :=
  if 0x30 ≤ b ∧ b ≤ 0x39 then some (b.toNat - 0x30) else
  if 0x61 ≤ b ∧ b ≤ 0x66 then some (b.toNat - 0x61 + 10) else
  if 0x41 ≤ b ∧ b ≤ 0x46 then some (b.toNat - 0x41 + 10) else none

/-- The number that hexadecimal digits give. -/
def hexValue (digits : Bytes) : Nat :=
  digits.foldl (fun n b => 16 * n + (hexDigit b).getD 0) 0

/-- A number that is an `i64`. -/
def inI64 (n : Int) : Option Int := if -2 ^ 63 ≤ n ∧ n < 2 ^ 63 then some n else none

/-- The digits' number, with a sign. -/
def signed (sign : Int) (digits : Bytes) : Option Int :=
  if digits ≠ [] ∧ digits.all fun b => (hexDigit b).isSome then inI64 (sign * hexValue digits)
  else none

/-- `i64::from_str_radix(s, 16)`. -/
def fromStrRadix16 : Bytes → Option Int
  | [] => none
  | b :: s =>
    if b = 0x2B then signed 1 s else
    if b = 0x2D then signed (-1) s else signed 1 (b :: s)

/-- `strip_prefix("0x")`, or of `"0X"`. -/
def stripHex : Bytes → Bytes
  | b :: c :: s => if b = 0x30 ∧ (c = 0x78 ∨ c = 0x58) then s else b :: c :: s
  | s => s

/-- `Integer.fromHex:`. -/
def fromHex (s : Bytes) : Except Error Int :=
  match fromStrRadix16 (stripHex (trim s)) with
  | some n => .ok n
  | none => .error (.notHex s)

/-- `Bytes#asString`, of which the bytes stay. -/
def asString (b : Bytes) : Except Error Bytes :=
  match fromUtf8 b with
  | .ok () => .ok b
  | .error e =>
    .error (.raised (.parseError
      s!"Bytes.asString: invalid UTF-8 (valid up to byte {e.validUpTo})"))

/-- `+` on Integers. -/
def add (a b : Int) : Except Error Int :=
  match inI64 (a + b) with
  | some n => .ok n
  | none => .error .overflow

/-! ## The body -/

/-- A chunk-extension: its name, and its value if it has one. -/
abbrev Extension := Bytes × Option Bytes

/-- A body with bytes of its own, and the extensions in the order they are put. -/
structure Chunk where
  data : Bytes
  exts : List Extension
  deriving DecidableEq

inductive Framing where
  | chunked
  | length
  | close
  deriving DecidableEq

/-- An `[HTTP]Body` over a stream, or over bytes. -/
structure Body where
  bytes : Option Bytes
  framing : Framing
  length : Int
  encoding : Option Bytes
  ownsStream : Bool
  maxBytes : Option Int
  deriving DecidableEq

/-- `over:framing:length:contentType:encoding:ownsStream:maxBytes:`. -/
def Body.over (framing : Framing) (length : Int) (encoding : Option Bytes) (ownsStream : Bool)
    (maxBytes : Option Int) : Body :=
  ⟨none, framing, length, encoding, ownsStream, maxBytes⟩

def sizeLineError : Error :=
  .raised (.io .unexpectedEof
    "HTTP: connection closed inside chunked framing (expected a chunk-size line)")

def tooLargeError (max : Int) : Error :=
  .bodyTooLarge s!"HTTP: chunked body exceeds {max} bytes"

def lengthError (remaining length : Int) : Error :=
  .raised (.io .unexpectedEof
    s!"HTTP: connection closed with {remaining} of {length} Content-Length bytes unread")

def extension (ext : Bytes) : Extension :=
  let kv := split [EQUALS] ext
  (kv.headD [], kv[1]?)

/-- What a chunk-size line says. -/
def sizeLine (rawLine : Bytes) : Except Error (Int × List Extension) := do
  if rawLine = [] then throw sizeLineError
  let line := (split CRLF (← asString rawLine)).headD []
  let parts := split [SEMICOLON] line
  let size ← fromHex (parts.headD [])
  pure (size, (parts.drop 1).map extension)

/-- The ceiling, checked before the chunk is read. -/
def underCeiling (max : Option Int) (got size : Int) : Except Error Int := do
  let got ← add got size
  match max with
  | some m => if m < got then throw (tooLargeError m) else pure got
  | none => pure got

/-- The next chunk and what has come with it, or nothing where the last chunk's line is read. -/
def nextChunk (max : Option Int) (got : Int) : Reading (Option (Chunk × Int)) := do
  let rawLine ← Reading.bytes (ByteStream.readUntil CRLF)
  let (size, exts) ← Reading.lift (sizeLine rawLine)
  if size = 0 then pure none
  else
    let got ← Reading.lift (underCeiling max got size)
    let data ← Reading.bytes (ByteStream.readExactly size)
    let _ ← Reading.bytes (ByteStream.readExactly 2)
    pure (some (⟨data, exts⟩, got))

/-- What a generator yields, how it ends, and the stream by then. -/
structure Pulled where
  chunks : List Chunk
  ended : Option (Except Error Unit)
  stream : Source
  deriving DecidableEq

def Pulled.after (c : Chunk) (p : Pulled) : Pulled := { p with chunks := c :: p.chunks }

/-- The lines after the last chunk, to one that is empty or to the end of the stream. -/
def skipTrailers : Nat → Source → Option (Except Error Unit) × Source
  | 0, s => (none, s)
  | fuel + 1, s =>
    match Reading.bytes (ByteStream.readUntil CRLF) s with
    | (.error e, s) => (some (.error e), s)
    | (.ok line, s) => if line.length ≤ 2 then (some (.ok ()), s) else skipTrailers fuel s

def chunkedLoop (max : Option Int) : Nat → Int → Source → Pulled
  | 0, _, s => ⟨[], none, s⟩
  | fuel + 1, got, s =>
    match nextChunk max got s with
    | (.error e, s) => ⟨[], some (.error e), s⟩
    | (.ok none, s) => ⟨[], (skipTrailers fuel s).1, (skipTrailers fuel s).2⟩
    | (.ok (some (chunk, got)), s) => (chunkedLoop max fuel got s).after chunk

def lengthLoop (length : Int) : Nat → Int → Source → Pulled
  | 0, _, s => ⟨[], none, s⟩
  | fuel + 1, remaining, s =>
    if 0 < remaining then
      let want := if remaining < 8192 then remaining else 8192
      match Reading.bytes (ByteStream.readN want) s with
      | (.error e, s) => ⟨[], some (.error e), s⟩
      | (.ok data, s) =>
        if data.length = 0 then ⟨[], some (.error (lengthError remaining length)), s⟩
        else (lengthLoop length fuel (remaining - data.length) s).after ⟨data, []⟩
    else ⟨[], some (.ok ()), s⟩

def closeLoop : Nat → Source → Pulled
  | 0, s => ⟨[], none, s⟩
  | fuel + 1, s =>
    match Reading.bytes ByteStream.read s with
    | (.error e, s) => ⟨[], some (.error e), s⟩
    | (.ok data, s) =>
      if data.length = 0 then ⟨[], some (.ok ()), s⟩ else (closeLoop fuel s).after ⟨data, []⟩

/-- `owns.if:{ st.close }`, where the framing ended well. -/
def Pulled.closing (owns : Bool) (p : Pulled) : Pulled :=
  if owns ∧ p.ended = some (.ok ()) then { p with stream := { p.stream with closed := true } }
  else p

/-- The framing of a stream-backed body. -/
def Body.pull (b : Body) (s : Source) : Pulled :=
  let fuel := s.rest.length + 1
  match b.framing with
  | .chunked => chunkedLoop b.maxBytes fuel 0 s
  | .length => lengthLoop b.length fuel b.length s
  | .close => closeLoop fuel s

/-- `rawChunks`, to its end. -/
def Body.rawChunks (b : Body) (s : Source) : Pulled :=
  match b.bytes with
  | some bytes => ⟨if 0 < bytes.length then [⟨bytes, []⟩] else [], some (.ok ()), s⟩
  | none => (b.pull s).closing b.ownsStream

/-- What was yielded, one after the other. -/
def Pulled.data (p : Pulled) : Bytes := p.chunks.flatMap Chunk.data

/-- `bytes`, with `decodeBody:encoding:`; nothing where the fuel is out. The body keeps what it
answers. -/
def Body.drain (decodeBody : Bytes → Bytes → Except Error Bytes) (b : Body) (s : Source) :
    Option (Except Error Bytes) × Body × Source :=
  match b.bytes with
  | some bytes => (some (.ok bytes), b, s)
  | none =>
    let p := b.rawChunks s
    match p.ended with
    | none => (none, b, p.stream)
    | some (.error e) => (some (.error e), b, p.stream)
    | some (.ok ()) =>
      match b.encoding.elim (.ok p.data) (decodeBody p.data) with
      | .error e => (some (.error e), b, p.stream)
      | .ok bytes => (some (.ok bytes), { b with bytes := some bytes }, p.stream)

/-! ## Bodies as a peer writes them -/

/-- A line that holds no other. -/
def OneLine (line : Bytes) : Prop := ¬ CRLF <:+: line

/-- A chunk-size line: digits, blanks, and extensions that begin with a semicolon. -/
structure SizeLine where
  digits : Bytes
  blanks : Bytes
  exts : Bytes
  digits_ne : digits ≠ []
  digits_hex : ∀ b ∈ digits, (hexDigit b).isSome
  blanks_blank : ∀ b ∈ blanks, b = 0x20 ∨ b = 0x09
  exts_head : ∀ b ∈ exts.head?, b = SEMICOLON
  exts_line : OneLine exts

def SizeLine.text (l : SizeLine) : Bytes := l.digits ++ l.blanks ++ l.exts

/-- A chunk that is not the last, with the size that its line gives. -/
structure SizedChunk where
  line : SizeLine
  data : Bytes
  data_ne : data ≠ []
  size : hexValue line.digits = data.length

def SizedChunk.wire (c : SizedChunk) : Bytes := c.line.text ++ CRLF ++ (c.data ++ CRLF)

/-- A chunked body. -/
structure Chunked where
  chunks : List SizedChunk
  last : SizeLine
  last_zero : hexValue last.digits = 0
  trailers : List Bytes
  trailers_lines : ∀ line ∈ trailers, line ≠ [] ∧ OneLine line

/-- What ends a chunked body: the last chunk's line and the trailers. -/
def Chunked.ending (e : Chunked) : Bytes :=
  e.last.text ++ CRLF ++ (e.trailers.flatMap (· ++ CRLF) ++ CRLF)

inductive Message where
  | chunked (e : Chunked)
  | length (content : Bytes)

namespace Message

/-- The bytes of the body. -/
def content : Message → Bytes
  | chunked e => e.chunks.flatMap SizedChunk.data
  | length content => content

/-- The encoding of the body. -/
def wire : Message → Bytes
  | chunked e => e.chunks.flatMap SizedChunk.wire ++ e.ending
  | length content => content

/-- The `[HTTP]Body` that reads it. -/
def body (m : Message) (ownsStream : Bool) (maxBytes : Option Int) : Body :=
  match m with
  | chunked _ => .over .chunked 0 none ownsStream maxBytes
  | length content => .over .length content.length none ownsStream maxBytes

end Message

end Quoin.Http.Bodies
