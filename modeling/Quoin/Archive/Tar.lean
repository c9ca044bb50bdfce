import Mathlib
import Quoin.Streams.Reads
import Quoin.Wire.Fields
import Quoin.Wire.Reader

/-!
# Quoin — tar archives

The writer appends to its stream, for each member, a header of 512 bytes with
octal fields, and the content padded to whole blocks; a name longer than 100
bytes goes before that as a member of its own, a pax header with one `path=`
record. The reader takes the same off the front of a `ByteStream`, of which
only the bytes left matter (`Quoin.Streams.reads_account`), so it is a `Reader`
of bytes.

A header is filled field by field, with the code's own offsets. An octal field
is filled from its end downwards, and nothing checks that it has room
(`putOctal`).
-/

namespace Quoin.Archive

open Streams Wire

/-! ## Errors and texts -/

inductive ArchiveError where
  | io (kind : IoErrorKind) (message : String)
  | valueError (message : String)
  | parseError (message : String)
  | arithmeticError (message : String)
  | indexError (index len : Nat) (message : String)
  deriving DecidableEq

def eofError (n : Nat) : ArchiveError :=
  .io .unexpectedEof s!"ByteStream.readExactly:: stream ended with fewer than {n} bytes"

/-- `Bytes#asString`. -/
def asString (b : Bytes) : Except ArchiveError Text :=
  match h : fromUtf8 b with
  | .ok () => .ok ⟨b, h⟩
  | .error e =>
    .error (.parseError s!"Bytes.asString: invalid UTF-8 (valid up to byte {e.validUpTo})")

/-- `+` of Strings. -/
def append (a b : Text) : Text :=
  ⟨a.bytes ++ b.bytes, (fromUtf8_append b.bytes a.valid).mpr b.valid⟩

def slash : Text := ⟨[0x2F], rfl⟩

/-- "path=". -/
def pathKey : Text := ⟨[0x70, 0x61, 0x74, 0x68, 0x3D], rfl⟩

/-! ## Headers -/

/-- `put:octal:at:width:`. The digits go down from the field's last byte but one. -/
def putOctal (header : Bytes) (value : Int) (i width : Nat) : Bytes :=
  let digits := digitsOf 8 value.toNat
  let header := put header (List.replicate (width - 1 - digits.length) 48) i
  putDown header (digits.map digitByte) (i + width - 2)

/-- The sum of the bytes. -/
def sum (header : Bytes) : Nat := (header.map UInt8.toNat).sum

/-- `checksum:`. -/
def checksum (header : Bytes) : Bytes :=
  let header := put header (List.replicate 8 32) 148
  let header := putOctal header (sum header) 148 7
  let header := header.set 154 0
  header.set 155 32

/-- The header of a name of at most 100 bytes, the last part of `header:size:type:mode:mtime:`. -/
def ustar (nameBytes : Bytes) (size : Nat) (type : UInt8) (mode : Nat) (mtime : Int) : Bytes :=
  let header := List.replicate 512 0
  let header := put header nameBytes 0
  let header := putOctal header mode 100 8
  let header := putOctal header 0 108 8
  let header := putOctal header 0 116 8
  let header := putOctal header size 124 12
  let header := putOctal header mtime 136 12
  let header := header.set 156 type
  -- "ustar" and the version "00"
  let header := put header [0x75, 0x73, 0x74, 0x61, 0x72] 257
  let header := header.set 263 48
  let header := header.set 264 48
  checksum header

/-- `octalIn:from:to:`. -/
def octalIn (header : Bytes) (i j : Nat) : Nat := ofNumeral 8 (slice header i j)

/-- `stringIn:from:to:`. -/
def stringIn (header : Bytes) (i j : Nat) : Except ArchiveError Text :=
  asString ((slice header i j).takeWhile fun b => b ≠ 0)

/-- `ustarName:`. -/
def ustarName (header : Bytes) : Except ArchiveError Text := do
  let name ← stringIn header 0 100
  let namePrefix ← stringIn header 345 500
  return if namePrefix.bytes = [] then name else append (append namePrefix slash) name

/-- The sum, the checksum field read as spaces, from an offset on. -/
def spacedSum : Nat → Bytes → Nat
  | _, [] => 0
  | i, b :: bs => (if 148 ≤ i ∧ i < 156 then 32 else b.toNat) + spacedSum (i + 1) bs

/-- `verify:`. -/
def verify (header : Bytes) : Except ArchiveError Unit :=
  if spacedSum 0 header = octalIn header 148 156 then .ok ()
  else .error (.parseError "tar: header checksum mismatch")

/-- `zero?:`. -/
def isZero (header : Bytes) : Bool := header.all fun b => b = 0

inductive TypeSymbol where
  | file | directory | symlink | other
  deriving DecidableEq

/-- `typeSymbol:`. -/
def typeSymbol (t : UInt8) : TypeSymbol :=
  if t = 48 ∨ t = 0 then .file else
  if t = 53 then .directory else
  if t = 50 then .symlink else .other

/-! ## The writer -/

structure TarWriter where
  closed : Bool
  paxSeq : Nat
  out : Bytes
  deriving DecidableEq

namespace TarWriter

def init : TarWriter := ⟨false, 0, []⟩

/-- `writeAll:`. -/
def write (w : TarWriter) (b : Bytes) : TarWriter := { w with out := w.out ++ b }

/-- The zeros that `pad:` writes. -/
def padding (size : Nat) : Bytes :=
  if 0 < size % 512 then List.replicate (512 - size % 512) 0 else []

/-- "PaxHeaders.%/name". -/
def paxName (paxSeq : Nat) : Bytes :=
  [0x50, 0x61, 0x78, 0x48, 0x65, 0x61, 0x64, 0x65, 0x72, 0x73, 0x2E] ++ numeral 10 paxSeq ++
    [0x2F, 0x6E, 0x61, 0x6D, 0x65]

/-- The loop for the length that counts its own digits, which ends after two steps at most. -/
def paxLength (base : Nat) : Nat → Nat → Nat
  | 0, len => len
  | fuel + 1, len =>
    if len = base + (numeral 10 len).length then len
    else paxLength base fuel (base + (numeral 10 len).length)

/-- The record of a pax header. -/
def paxRecord (value : Bytes) : Bytes :=
  let base := 1 + 5 + value.length + 1
  numeral 10 (paxLength base 2 (base + 1)) ++ [0x20] ++ pathKey.bytes ++ value ++ [0x0A]

/-- `paxPath:`. Its own header has a short name: `@paxSeq` is a 64-bit Integer. -/
def paxPath (w : TarWriter) (name : Bytes) (now : Int) : TarWriter :=
  let record := paxRecord name
  let w := w.write (ustar (paxName w.paxSeq) record.length 120 420 now)
  let w := w.write record
  w.write (padding record.length)

/-- `header:size:type:mode:mtime:`, with the time at which a pax header is written. -/
def header (w : TarWriter) (name : Text) (size : Nat) (type : UInt8) (mode : Nat) (mtime : Int)
    (paxNow : Int) : Except ArchiveError TarWriter :=
  if w.closed then .error (.valueError "tar: the writer is closed") else
  if 100 < name.bytes.length then
    if w.paxSeq + 1 < 2 ^ 63 then
      .ok ((({ w with paxSeq := w.paxSeq + 1 }).paxPath name.bytes paxNow).write
        (ustar (name.bytes.take 100) size type mode mtime))
    else .error (.arithmeticError "Integer overflow")
  else .ok (w.write (ustar name.bytes size type mode mtime))

end TarWriter

/-- What is added: content under a name, a folder, or a file of a size and a time, with the bytes that
its stream has. `paxNow` and `now` are what the clock says as the headers are written. -/
inductive Addition where
  | bytes (name : Text) (content : Bytes) (paxNow now : Int)
  | folder (name : Text) (paxNow now : Int)
  | file (source : Bytes) (size : Nat) (modified : Int) (name : Text) (paxNow : Int)

namespace TarWriter

/-- The name of a folder, with its slash. -/
def dirName (name : Text) : Text :=
  if name.bytes.getLast? = some 0x2F then name else append name slash

/-- `add:bytes:`, which `add:text:` is too, `addFolder:` and `addFile:as:`. -/
def add (w : TarWriter) : Addition → Except ArchiveError TarWriter
  | .bytes name content paxNow now => do
    let w ← w.header name content.length 48 420 now paxNow
    return (w.write content).write (padding content.length)
  | .folder name paxNow now => w.header (dirName name) 0 53 493 now paxNow
  | .file source size modified name paxNow => do
    let w ← w.header name size 48 420 modified paxNow
    -- in chunks; a file that is shorter than its metadata says ends in one of them
    if source.length < size then
      .error (eofError (min (size - source.length / 65536 * 65536) 65536))
    else return (w.write (source.take size)).write (padding size)

def addAll (w : TarWriter) : List Addition → Except ArchiveError TarWriter
  | [] => .ok w
  | a :: as => do
    let w ← w.add a
    w.addAll as

/-- `close`. -/
def close (w : TarWriter) : TarWriter :=
  if w.closed then w else { w.write (List.replicate 1024 0) with closed := true }

end TarWriter

/-! ## The reader -/

abbrev Dec := Reader UInt8 ArchiveError

/-- `readExactly:` of the stream. -/
def readExactly (n : Nat) : Dec Bytes := Reader.take (eofError n) n

def ofExcept {α : Type} (x : Except ArchiveError α) : Dec α := fun stream =>
  x.map fun a => (a, stream)

structure Entry where
  name : Text
  size : Nat
  type : TypeSymbol
  mtime : Nat
  linkname : Text
  seq : Nat
  deriving DecidableEq

structure Tar where
  pendingName : Option Text
  done : Bool
  seq : Nat
  currentSize : Nat
  currentRead : Bool
  deriving DecidableEq

namespace Tar

def init : Tar := ⟨none, false, 0, 0, true⟩

/-- The padding that `content:` and `skipCurrent` read. -/
def pad (size : Nat) : Dec Bytes :=
  if 0 < size % 512 then readExactly (512 - size % 512) else pure []

/-- `content:`. -/
def content (size : Nat) : Dec Bytes := do
  let bytes ← (if size = 0 then pure [] else readExactly size : Dec Bytes)
  let _ ← pad size
  return bytes

/-- The loop of `skipCurrent`. -/
def skipChunks (left : Nat) : Dec Unit :=
  if left = 0 then pure () else do
    let chunk := if left < 65536 then left else 65536
    let _ ← readExactly chunk
    skipChunks (left - chunk)
  termination_by left
  decreasing_by
    split_ifs <;> omega

/-- `skipCurrent`. -/
def skipCurrent (tar : Tar) : Dec Tar :=
  if tar.currentRead then pure tar else do
    skipChunks tar.currentSize
    let _ ← pad tar.currentSize
    return { tar with currentRead := true }

/-- The value of a "path=" record. Its key is ASCII, so five characters are five bytes. -/
def pathValue (record : Text) : Option Text :=
  if h : pathKey.bytes <+: record.bytes then
    some ⟨record.bytes.drop 5, by
      obtain ⟨value, hValue⟩ := h
      have hValid := record.valid
      rw [← hValue] at hValid ⊢
      exact (fromUtf8_append value pathKey.valid).mp hValid⟩
  else none

/-- Whether a byte is a decimal digit. -/
def isDigit (b : UInt8) : Bool := 48 ≤ b ∧ b ≤ 57

/-- The loop of `paxPath:` over the records that are left. Each takes a byte at least. -/
def paxRecords : Nat → Bytes → Option Text → Except ArchiveError (Option Text)
  | 0, _, path => .ok path
  | fuel + 1, bytes, path =>
    if bytes = [] then .ok path else
    let digits := bytes.takeWhile isDigit
    let len := ofNumeral 10 digits
    if len = 0 then .ok path else do
      let record ← asString (slice bytes (digits.length + 1) (len - 1))
      paxRecords fuel (bytes.drop len) ((pathValue record).or path)

/-- `paxPath:` of the reader. -/
def paxPath (bytes : Bytes) : Except ArchiveError (Option Text) :=
  paxRecords bytes.length bytes none

/-- The entry that a header is for. -/
def entry (tar : Tar) (header : Bytes) : Except ArchiveError (Entry × Tar) := do
  let size := octalIn header 124 136
  let name ← match tar.pendingName with
    | some name => pure name
    | none => ustarName header
  let linkname ← stringIn header 157 257
  return (⟨name, size, typeSymbol (header.getD 156 0), octalIn header 136 148, linkname,
    tar.seq + 1⟩,
    { tar with pendingName := none, seq := tar.seq + 1, currentSize := size, currentRead := false })

/-- The loop of `next`. A round takes a header off the stream; with no rounds left, none is there. -/
def nextLoop : Nat → Tar → Dec (Option Entry × Tar)
  | 0, _ => ofExcept (.error (eofError 512))
  | rounds + 1, tar => do
    let header ← readExactly 512
    if isZero header then return (none, { tar with done := true })
    ofExcept (verify header)
    let type := header.getD 156 0
    let size := octalIn header 124 136
    if type = 76 then
      -- GNU long name ('L'): the content is the next entry's name
      let nameBytes ← content size
      let name ← ofExcept (stringIn nameBytes 0 nameBytes.length)
      nextLoop rounds { tar with pendingName := some name }
    else if type = 120 then
      -- pax extended header: a path= record overrides the next name
      let path ← ofExcept (paxPath (← content size))
      nextLoop rounds { tar with pendingName := path.or tar.pendingName }
    else if type = 103 then
      -- pax global header
      let _ ← content size
      nextLoop rounds tar
    else do
      let (entry, tar) ← ofExcept (entry tar header)
      return (some entry, tar)

/-- `next`. -/
def next (tar : Tar) : Dec (Option Entry × Tar) :=
  if tar.done then pure (none, tar) else do
    let tar ← skipCurrent tar
    fun stream => nextLoop (stream.length / 512 + 1) tar stream

/-- `contentFor:`, an entry's `bytes`. -/
def contentFor (tar : Tar) (seq : Nat) : Dec (Bytes × Tar) :=
  if seq ≠ tar.seq then
    ofExcept (.error (.valueError
      "tar: this entry has been passed — read bytes before advancing"))
  else if tar.currentRead then
    ofExcept (.error (.valueError "tar: this entry's bytes were already read"))
  else do
    let bytes ← content tar.currentSize
    return (bytes, { tar with currentRead := true })

/-- An entry's `bytes`, if they are wanted. -/
def readIf (wanted : Bool) (entry : Entry) (tar : Tar) : Dec (Option Bytes × Tar) :=
  if wanted then do
    let (bytes, tar) ← contentFor tar entry.seq
    return (some bytes, tar)
  else pure (none, tar)

/-- A pass over the entries, reading the bytes of those that are wanted. -/
def readAll : List Bool → Tar → Dec (List (Entry × Option Bytes) × Tar)
  | [], tar => pure ([], tar)
  | wanted :: rest, tar => do
    let (entry, tar) ← next tar
    match entry with
    | none => return ([], tar)
    | some entry =>
      let (bytes, tar) ← readIf wanted entry tar
      let (entries, tar) ← readAll rest tar
      return ((entry, bytes) :: entries, tar)

end Tar

end Quoin.Archive
