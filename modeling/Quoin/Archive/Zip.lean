import Mathlib
import Quoin.Archive.Tar
import Quoin.Wire.Endian

/-!
# Quoin — zip archives

The writer puts out a local header and the data of each member as it is added,
and remembers a record; `close` puts out the central directory from the records,
and the end record. The reader finds the end record from the end, walks the
directory, and reads content where an entry says it is.

Numbers go into fields of two and four bytes without a check (`le16`, `le32`),
the archive's length apart. The reader refuses a count, a size or an offset that
is all ones, which would mean zip64.

The deflate codec and the checksum are a `Codec`.
-/

namespace Quoin.Archive

open Streams Wire

structure Codec where
  encodeDeflateRaw : Bytes → Bytes
  decodeDeflate : Bytes → Except ArchiveError Bytes
  crc32 : Bytes → UInt32

/-- A text in a message. -/
def str (t : Text) : String := (String.fromUTF8? ⟨t.bytes.toArray⟩).getD ""

/-- What a condition throws. -/
def refuse (c : Prop) [Decidable c] (err : ArchiveError) : Except ArchiveError Unit :=
  if c then .error err else .ok ()

/-! ## Bytes -/

/-- `Bytes of:`. -/
def bytesOf : List Int → Except ArchiveError Bytes
  | [] => .ok []
  | v :: vs =>
    if 0 ≤ v ∧ v ≤ 255 then do
      let bytes ← bytesOf vs
      return UInt8.ofNat v.toNat :: bytes
    else .error (.valueError "Bytes of: each element must be an Integer in 0..=255")

/-- `le16:into:`. -/
def le16 (v : Int) : List Int := [v.tmod 256, (v.tdiv 256).tmod 256]

/-- `le32:into:`. -/
def le32 (v : Int) : List Int :=
  [v.tmod 256, (v.tdiv 256).tmod 256, (v.tdiv 65536).tmod 256, (v.tdiv 16777216).tmod 256]

def ofBytes (bytes : Bytes) : List Int := bytes.map fun b => (b.toNat : Int)

/-- `Bytes#at:`. -/
def byteAt (b : Bytes) (i : Nat) : Except ArchiveError Nat :=
  match b[i]? with
  | some byte => .ok byte.toNat
  | none => .error (.indexError i b.length
      s!"Bytes.at:: index {i} out of range (size {b.length})")

/-- `u16:at:`. -/
def u16 (b : Bytes) (i : Nat) : Except ArchiveError Nat := do
  return (← byteAt b i) + (← byteAt b (i + 1)) * 256

/-- `u32:at:`. -/
def u32 (b : Bytes) (i : Nat) : Except ArchiveError Nat := do
  let lo := (← byteAt b i) + (← byteAt b (i + 1)) * 256
  return lo + (← byteAt b (i + 2)) * 65536 + (← byteAt b (i + 3)) * 16777216

/-! ## The writer -/

/-- What is remembered of a member. -/
structure Record where
  name : Bytes
  crc : Nat
  csize : Nat
  usize : Nat
  method : Nat
  dosDate : Int
  dosTime : Int
  dir : Bool
  offset : Nat
  deriving DecidableEq

/-- The local wall clock, as far as it is asked. -/
structure Now where
  year : Int
  month : Nat
  day : Nat
  hour : Nat
  minute : Nat
  second : Nat
  deriving DecidableEq

def Now.dosDate (now : Now) : Int := (now.year - 1980) * 512 + now.month * 32 + now.day

def Now.dosTime (now : Now) : Int := now.hour * 2048 + now.minute * 32 + now.second / 2

/-- The local header of a member, its name included. -/
def localHeader (r : Record) : List Int :=
  le32 67324752 ++ le16 20 ++ le16 2048 ++ le16 r.method ++ le16 r.dosTime ++ le16 r.dosDate ++
    le32 r.crc ++ le32 r.csize ++ le32 r.usize ++ le16 r.name.length ++ le16 0 ++ ofBytes r.name

/-- Its entry in the central directory. -/
def centralHeader (r : Record) : List Int :=
  le32 33639248 ++ le16 20 ++ le16 20 ++ le16 2048 ++ le16 r.method ++ le16 r.dosTime ++
    le16 r.dosDate ++ le32 r.crc ++ le32 r.csize ++ le32 r.usize ++ le16 r.name.length ++ le16 0 ++
    le16 0 ++ le16 0 ++ le16 0 ++ le32 (if r.dir then 16 else 0) ++ le32 r.offset ++
    ofBytes r.name

/-- The end record. -/
def endRecord (count cdSize cdStart : Nat) : List Int :=
  le32 101010256 ++ le16 0 ++ le16 0 ++ le16 count ++ le16 count ++ le32 cdSize ++ le32 cdStart ++
    le16 0

structure ZipWriter where
  records : List Record
  offset : Nat
  closed : Bool
  out : Bytes
  deriving DecidableEq

/-- What is added: content under a name, or a folder. -/
structure Member where
  name : Text
  content : Bytes
  dir : Bool
  now : Now
  deriving DecidableEq

namespace Member

/-- `add:bytes:`, which `add:text:` and `addFile:as:` end in. -/
def bytes (name : Text) (content : Bytes) (now : Now) : Member := ⟨name, content, false, now⟩

/-- `addFolder:`. -/
def folder (name : Text) (now : Now) : Member := ⟨TarWriter.dirName name, [], true, now⟩

/-- Whether its content is deflated: if that is smaller. -/
def deflated (m : Member) (c : Codec) : Bool :=
  (c.encodeDeflateRaw m.content).length < m.content.length

/-- The data that is written of it. -/
def data (m : Member) (c : Codec) : Bytes :=
  if m.deflated c then c.encodeDeflateRaw m.content else m.content

/-- The record of it, its local header being at an offset. -/
def record (m : Member) (c : Codec) (offset : Nat) : Record where
  name := m.name.bytes
  crc := (c.crc32 m.content).toNat
  csize := (m.data c).length
  usize := m.content.length
  method := if m.deflated c then 8 else 0
  dosDate := m.now.dosDate
  dosTime := m.now.dosTime
  dir := m.dir
  offset := offset

end Member

namespace ZipWriter

def init : ZipWriter := ⟨[], 0, false, []⟩

/-- `write:`. -/
def write (w : ZipWriter) (list : List Int) : Except ArchiveError ZipWriter := do
  let bytes ← bytesOf list
  return { w with out := w.out ++ bytes, offset := w.offset + list.length }

/-- `add:data:dir:`. -/
def add (c : Codec) (w : ZipWriter) (m : Member) : Except ArchiveError ZipWriter := do
  refuse w.closed (.valueError "zip: the writer is closed")
  let r := m.record c w.offset
  let w ← w.write (localHeader r)
  let w := { w with out := w.out ++ m.data c, offset := w.offset + (m.data c).length }
  refuse (4294967295 < w.offset)
    (.valueError "zip: archive exceeds 4 GiB (zip64 unsupported)")
  return { w with records := w.records ++ [r] }

def addAll (c : Codec) (w : ZipWriter) : List Member → Except ArchiveError ZipWriter
  | [] => .ok w
  | m :: ms => do
    let w ← w.add c m
    w.addAll c ms

/-- The directory's part of `close`. -/
def writeEach (w : ZipWriter) : List Record → Except ArchiveError ZipWriter
  | [] => .ok w
  | r :: rs => do
    let w ← w.write (centralHeader r)
    w.writeEach rs

/-- `close`. -/
def close (w : ZipWriter) : Except ArchiveError ZipWriter :=
  if w.closed then .ok w else do
    let cdStart := w.offset
    let w ← { w with closed := true }.writeEach w.records
    w.write (endRecord w.records.length (w.offset - cdStart) cdStart)

end ZipWriter

/-! ## The reader -/

/-- `ZipEntry`. -/
structure ZipEntry where
  name : Text
  size : Nat
  compressedSize : Nat
  methodCode : Nat
  crc : Nat
  offset : Nat
  flags : Nat
  dosDate : Nat
  dosTime : Nat
  deriving DecidableEq

structure Zip where
  src : Bytes
  entries : List ZipEntry
  deriving DecidableEq

/-- `readAt:count:` of Bytes. -/
def readAt (src : Bytes) (offset count : Nat) : Bytes :=
  if src.length ≤ offset then [] else slice src offset (min (offset + count) src.length)

/-- `read:count:`. -/
def read (src : Bytes) (offset count : Nat) : Except ArchiveError Bytes :=
  if (readAt src offset count).length = count then .ok (readAt src offset count)
  else .error (.parseError "zip: truncated archive")

namespace Zip

/-- `eocd?:at:windowLen:`. -/
def isEocd (tail : Bytes) (pos windowLen : Nat) : Except ArchiveError Bool := do
  if (← byteAt tail pos) ≠ 80 then return false else
    if (← byteAt tail (pos + 1)) ≠ 75 then return false else
      if (← byteAt tail (pos + 2)) ≠ 5 then return false else
        if (← byteAt tail (pos + 3)) ≠ 6 then return false else
          return pos + 22 + (← u16 tail (pos + 20)) = windowLen

/-- The scan for the end record, downwards. -/
def findEocd (tail : Bytes) (windowLen : Nat) : Nat → Except ArchiveError (Option Nat)
  | 0 => do if (← isEocd tail 0 windowLen) then return some 0 else return none
  | pos + 1 => do
    if (← isEocd tail (pos + 1) windowLen) then return some (pos + 1)
    else findEocd tail windowLen pos

/-- The entry at an offset of the directory, and the offset of the next. -/
def entryAt (cd : Bytes) (p : Nat) : Except ArchiveError (ZipEntry × Nat) := do
  refuse ((← u32 cd p) ≠ 33639248) (.parseError "zip: corrupt central directory")
  let nameLen ← u16 cd (p + 28)
  let extraLen ← u16 cd (p + 30)
  let commentLen ← u16 cd (p + 32)
  let name ← asString (slice cd (p + 46) (p + 46 + nameLen))
  let csize ← u32 cd (p + 20)
  let usize ← u32 cd (p + 24)
  let offset ← u32 cd (p + 42)
  refuse (csize = 4294967295 ∨ usize = 4294967295 ∨ offset = 4294967295)
    (.parseError "zip: zip64 archives are unsupported")
  let flags ← u16 cd (p + 8)
  let methodCode ← u16 cd (p + 10)
  let dosTime ← u16 cd (p + 12)
  let dosDate ← u16 cd (p + 14)
  let crc ← u32 cd (p + 16)
  return (⟨name, usize, csize, methodCode, crc, offset, flags, dosDate, dosTime⟩,
    p + 46 + nameLen + extraLen + commentLen)

/-- The walk over as many entries as the end record counts. -/
def entriesAt (cd : Bytes) : Nat → Nat → Except ArchiveError (List ZipEntry)
  | 0, _ => .ok []
  | n + 1, p => do
    let (entry, p) ← entryAt cd p
    let entries ← entriesAt cd n p
    return entry :: entries

/-- `Zip of:`, that is `init`. -/
def of (src : Bytes) : Except ArchiveError Zip := do
  refuse (src.length < 22) (.parseError "zip: not a zip archive (too small)")
  let windowLen := min src.length 65557
  let tail ← read src (src.length - windowLen) windowLen
  let eocd ← (← findEocd tail windowLen (windowLen - 22)).elim
    (.error (.parseError "zip: no end-of-central-directory record (not a zip?)")) .ok
  refuse ((← u16 tail (eocd + 4)) ≠ 0 ∨ (← u16 tail (eocd + 6)) ≠ 0)
    (.parseError "zip: multi-disk archives are unsupported")
  let total ← u16 tail (eocd + 10)
  let cdSize ← u32 tail (eocd + 12)
  let cdOffset ← u32 tail (eocd + 16)
  refuse (total = 65535 ∨ cdSize = 4294967295 ∨ cdOffset = 4294967295)
    (.parseError "zip: zip64 archives are unsupported")
  let cd ← read src cdOffset cdSize
  let entries ← entriesAt cd total 0
  return ⟨src, entries⟩

/-- `contentFor:`, an entry's `bytes`. -/
def contentFor (c : Codec) (zip : Zip) (entry : ZipEntry) : Except ArchiveError Bytes := do
  refuse (entry.flags % 2 = 1)
    (.parseError s!"zip: '{str entry.name}' is encrypted — unsupported")
  let lfh ← read zip.src entry.offset 30
  refuse ((← u32 lfh 0) ≠ 67324752)
    (.parseError s!"zip: corrupt local header for '{str entry.name}'")
  let dataAt := entry.offset + 30 + (← u16 lfh 26) + (← u16 lfh 28)
  let data ← (if entry.compressedSize = 0 then .ok []
    else read zip.src dataAt entry.compressedSize)
  let out ← (if entry.methodCode = 0 then .ok data
    else if entry.methodCode = 8 then c.decodeDeflate data
    else .error (.parseError
      s!"zip: '{str entry.name}' uses unsupported compression method {entry.methodCode}"))
  refuse ((c.crc32 out).toNat ≠ entry.crc)
    (.parseError s!"zip: CRC mismatch in '{str entry.name}' (corrupt archive)")
  return out

end Zip

end Quoin.Archive
