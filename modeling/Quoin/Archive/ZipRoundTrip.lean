import Mathlib
import Quoin.Archive.ZipHeaders

/-!
# Quoin — a zip archive reads back

The writer leaves every member where its record says (`Placed`), and a directory
in which the records stand one after the other (`Listed`). The reader finds the
end record at once and gets its numbers modulo what their fields hold (`of_eq`).

So an archive is read back if and only if no number says too much: fewer than
65535 members, names shorter than 65536 bytes, and no size or offset that reads
as all ones or falls short of the directory (`ZipFits`).

## Results

* `of_eq` — what the reader makes of the end record: each number modulo its field;
* `zip_roundTrip` — the members are read back as they were added exactly if `ZipFits`;
* `zip_huge` — a name of 65536 bytes is announced as empty.
-/

namespace Quoin.Archive

open Streams Wire

/-! ## What the writer leaves -/

/-- The bytes of the members before the directory. -/
def localSize (c : Codec) (ms : List Member) : Nat :=
  (ms.map fun m => 30 + m.name.bytes.length + (m.data c).length).sum

/-- The bytes of the directory. -/
def directorySize (ms : List Member) : Nat := (ms.map fun m => 46 + m.name.bytes.length).sum

/-- A member is where its record says. -/
structure Placed (c : Codec) (out : Bytes) (m : Member) (r : Record) : Prop where
  record : r = m.record c r.offset
  below : r.offset + (30 + m.name.bytes.length + (m.data c).length) ≤ 4294967295
  stored : ∃ time date, Stamped r time date ∧
    At out r.offset ((localFields r time date).flatten ++ m.data c)

/-- The entries of records, one after the other from an offset of the directory on. -/
def Listed (cd : Bytes) : Nat → List Record → Prop
  | _, [] => True
  | p, r :: rs =>
    (∃ time date, Stamped r time date ∧ At cd p (centralFields r time date).flatten) ∧
      Listed cd (p + (46 + r.name.length)) rs

section Writer

variable {c : Codec} {w w' : ZipWriter}

theorem Placed.append {out : Bytes} {m : Member} {r : Record} (h : Placed c out m r)
    (more : Bytes) : Placed c (out ++ more) m r := by
  obtain ⟨time, date, hStamped, hAt⟩ := h.stored
  exact ⟨h.record, h.below, time, date, hStamped, hAt.append more⟩

variable {out : Bytes} {ms : List Member} {rs : List Record}

/-- Every record is of a member. -/
theorem exists_member (h : List.Forall₂ (Placed c out) ms rs) :
    ∀ r ∈ rs, ∃ m ∈ ms, Placed c out m r := by
  induction h with
  | nil => exact fun r hr => (by cases hr)
  | cons hPlaced _ ih =>
    intro r hr
    rcases List.mem_cons.mp hr with rfl | hr
    · exact ⟨_, List.mem_cons_self, hPlaced⟩
    · obtain ⟨m, hm, hPlaced'⟩ := ih r hr
      exact ⟨m, List.mem_cons_of_mem _ hm, hPlaced'⟩

theorem exists_record (h : List.Forall₂ (Placed c out) ms rs) :
    ∀ m ∈ ms, ∃ r ∈ rs, Placed c out m r := by
  induction h with
  | nil => exact fun m hm => (by cases hm)
  | cons hPlaced _ ih =>
    intro m hm
    rcases List.mem_cons.mp hm with rfl | hm
    · exact ⟨_, List.mem_cons_self, hPlaced⟩
    · obtain ⟨r, hr, hPlaced'⟩ := ih m hm
      exact ⟨r, List.mem_cons_of_mem _ hr, hPlaced'⟩

/-- An open writer that knows how much it has written. -/
structure Counted (w : ZipWriter) : Prop where
  isOpen : w.closed = false
  offset : w.offset = w.out.length
  below : w.offset ≤ 4294967295

theorem write_spec {list : List Int} (h : w.write list = .ok w') :
    ∃ bytes, bytesOf list = .ok bytes ∧
      w' = { w with out := w.out ++ bytes, offset := w.offset + bytes.length } := by
  obtain ⟨bytes, hBytes, hEq⟩ := bind_ok h
  cases hEq
  exact ⟨bytes, hBytes, by rw [length_bytesOf hBytes]⟩

/-- What an addition leaves. -/
theorem add_spec {m : Member} (h : w.add c m = .ok w') (hCounted : Counted w) :
    ∃ r part, w'.records = w.records ++ [r] ∧ w'.out = w.out ++ part ∧ Counted w' ∧
      Placed c w'.out m r ∧ part.length = 30 + m.name.bytes.length + (m.data c).length := by
  obtain ⟨_, _, h⟩ := bind_ok h
  obtain ⟨mid, hWrite, h⟩ := bind_ok h
  obtain ⟨_, hRoom, h⟩ := bind_ok h
  cases h
  obtain ⟨header, hHeader, rfl⟩ := write_spec hWrite
  obtain ⟨time, date, hStamped, rfl⟩ := bytesOf_localHeader.mp hHeader
  have hLen := length_localFields hStamped
  have hRoom := refuse_eq_ok.mp hRoom
  have hOffset := hCounted.offset
  have hName : (m.record c w.offset).name = m.name.bytes := rfl
  rw [hName] at hLen
  simp only [hLen] at hRoom
  refine ⟨m.record c w.offset,
    (localFields (m.record c w.offset) time date).flatten ++ m.data c, rfl,
    List.append_assoc _ _ _, ⟨hCounted.isOpen, ?_, ?_⟩, ⟨rfl, ?_, time, date, hStamped, ?_⟩, ?_⟩
  · simp only [List.length_append, hLen]
    omega
  · simp only [hLen]
    omega
  · show w.offset + _ ≤ _
    omega
  · show At _ w.offset _
    rw [hOffset, List.append_assoc]
    have hMiddle := At.middle w.out
      ((localFields (m.record c w.offset) time date).flatten ++ m.data c) []
    rw [List.append_nil] at hMiddle
    rw [← hOffset] at hMiddle ⊢
    exact hMiddle
  · rw [List.length_append, hLen]

theorem addAll_spec {ms : List Member} : ∀ {w w' : ZipWriter}, w.addAll c ms = .ok w' →
    Counted w → ∃ rs part, w'.records = w.records ++ rs ∧ w'.out = w.out ++ part ∧ Counted w' ∧
      List.Forall₂ (Placed c w'.out) ms rs ∧ part.length = localSize c ms := by
  induction ms with
  | nil =>
    rintro w w' ⟨⟩ hCounted
    exact ⟨[], [], (List.append_nil _).symm, (List.append_nil _).symm, hCounted, .nil, rfl⟩
  | cons m ms ih =>
    intro w w' h hCounted
    obtain ⟨mid, hAdd, hRest⟩ := bind_ok h
    obtain ⟨r, part, hRecords, hOut, hMid, hPlaced, hLen⟩ := add_spec hAdd hCounted
    obtain ⟨rs, parts, hRecords', hOut', hCounted', hPlaced', hLen'⟩ := ih hRest hMid
    refine ⟨r :: rs, part ++ parts, ?_, ?_, hCounted', .cons ?_ hPlaced', ?_⟩
    · rw [hRecords', hRecords, List.append_assoc]
      rfl
    · rw [hOut', hOut, List.append_assoc]
    · rw [hOut']
      exact hPlaced.append parts
    · rw [List.length_append, hLen, hLen']
      rfl

theorem writeEach_spec {rs : List Record} : ∀ {w w' : ZipWriter}, w.writeEach rs = .ok w' →
    ∃ cd, w'.records = w.records ∧ w'.out = w.out ++ cd ∧ w'.offset = w.offset + cd.length ∧
      cd.length = (rs.map fun r => 46 + r.name.length).sum ∧
      ∀ before after : Bytes, Listed (before ++ cd ++ after) before.length rs := by
  induction rs with
  | nil =>
    rintro w w' ⟨⟩
    exact ⟨[], rfl, (List.append_nil _).symm, rfl, rfl, fun _ _ => trivial⟩
  | cons r rs ih =>
    intro w w' h
    obtain ⟨mid, hWrite, hRest⟩ := bind_ok h
    obtain ⟨header, hHeader, rfl⟩ := write_spec hWrite
    obtain ⟨time, date, hStamped, rfl⟩ := bytesOf_centralHeader.mp hHeader
    obtain ⟨cd, hRecords, hOut, hOffset, hLen, hListed⟩ := ih hRest
    have hHeaderLen := length_centralFields hStamped
    refine ⟨(centralFields r time date).flatten ++ cd, hRecords, ?_, ?_, ?_, ?_⟩
    · rw [hOut, List.append_assoc]
    · rw [hOffset, List.length_append, Nat.add_assoc]
    · rw [List.length_append, hHeaderLen, hLen, List.map_cons, List.sum_cons]
    · intro before after
      have hAssoc : before ++ ((centralFields r time date).flatten ++ cd) ++ after
          = before ++ (centralFields r time date).flatten ++ (cd ++ after) := by
        simp only [List.append_assoc]
      have hNext := hListed (before ++ (centralFields r time date).flatten) after
      rw [List.length_append, hHeaderLen, List.append_assoc _ cd] at hNext
      rw [hAssoc]
      exact ⟨⟨time, date, hStamped, At.middle _ _ _⟩, hNext⟩

/-- A closed archive: the members, the directory and the end record. -/
theorem close_spec (h : w.close = .ok w') (hCounted : Counted w) :
    ∃ cd, cd.length = (w.records.map fun r => 46 + r.name.length).sum ∧ Listed cd 0 w.records ∧
      w'.out = w.out ++ cd ++
        (endFields w.records.length cd.length w.out.length).flatten := by
  rw [ZipWriter.close, hCounted.isOpen] at h
  obtain ⟨mid, hEach, h⟩ := bind_ok h
  obtain ⟨cd, hRecords, hOut, hOffset, hLen, hListed⟩ := writeEach_spec hEach
  obtain ⟨bytes, hBytes, rfl⟩ := write_spec h
  rw [hRecords, hOffset, Nat.add_sub_cancel_left, bytesOf_endRecord, hCounted.offset] at hBytes
  cases hBytes
  have hAll := hListed [] []
  rw [List.nil_append, List.append_nil] at hAll
  refine ⟨cd, hLen, hAll, ?_⟩
  rw [hOut]

/-- An addition to a writer that has room for it. -/
theorem add_ok {m : Member} {time date : Bytes} (hCounted : Counted w)
    (hStamped : Stamped (m.record c w.offset) time date)
    (hRoom : w.offset + (30 + m.name.bytes.length + (m.data c).length) ≤ 4294967295) :
    ∃ w', w.add c m = .ok w' := by
  have hHeader := bytesOf_localHeader.mpr ⟨time, date, hStamped, rfl⟩
  have hLen := (length_bytesOf hHeader).symm.trans (length_localFields hStamped)
  have hName : (m.record c w.offset).name = m.name.bytes := rfl
  rw [hName] at hLen
  have hOpen : ¬ w.closed = true := by
    rw [hCounted.isOpen]
    exact Bool.false_ne_true
  rw [ZipWriter.add, refuse_of_not hOpen]
  simp only [ok_bind, ZipWriter.write, hHeader, hLen, pure_bind]
  rw [refuse_of_not (by omega)]
  exact ⟨_, rfl⟩

theorem writeEach_ok {rs : List Record} (hStamped : ∀ r ∈ rs, ∃ time date, Stamped r time date) :
    ∀ w : ZipWriter, ∃ w', w.writeEach rs = .ok w' := by
  induction rs with
  | nil => exact fun w => ⟨w, rfl⟩
  | cons r rs ih =>
    intro w
    obtain ⟨time, date, hr⟩ := hStamped r List.mem_cons_self
    have hHeader := bytesOf_centralHeader.mpr ⟨time, date, hr, rfl⟩
    obtain ⟨w', hRest⟩ := ih (fun r hr => hStamped r (List.mem_cons_of_mem _ hr))
      { w with out := w.out ++ (centralFields r time date).flatten,
               offset := w.offset + (centralHeader r).length }
    refine ⟨w', ?_⟩
    rw [ZipWriter.writeEach, ZipWriter.write, hHeader]
    exact hRest

/-- What has been added can be closed. -/
theorem close_ok {ms : List Member} (hAdded : ZipWriter.init.addAll c ms = .ok w) :
    ∃ w', w.close = .ok w' := by
  obtain ⟨rs, part, hRecords, _, hCounted, hPlaced, _⟩ :=
    addAll_spec hAdded ⟨rfl, rfl, Nat.zero_le _⟩
  have hStamped : ∀ r ∈ w.records, ∃ time date, Stamped r time date := by
    intro r hr
    rw [hRecords] at hr
    obtain ⟨m, _, hPlace⟩ := exists_member hPlaced r hr
    obtain ⟨time, date, hStamp, _⟩ := hPlace.stored
    exact ⟨time, date, hStamp⟩
  obtain ⟨mid, hEach⟩ := writeEach_ok hStamped { w with closed := true }
  rw [ZipWriter.close, hCounted.isOpen]
  show ∃ w', (ZipWriter.writeEach { w with closed := true } w.records >>= fun w' =>
    w'.write (endRecord w'.records.length (w'.offset - w.offset) w.offset)) = .ok w'
  rw [hEach, ok_bind, ZipWriter.write, bytesOf_endRecord]
  exact ⟨_, rfl⟩

end Writer

/-! ## What the reader finds -/

section Reader

theorem isEocd_endFields {tail : Bytes} {pos count cdSize cdStart : Nat}
    (h : At tail pos (endFields count cdSize cdStart).flatten) :
    Zip.isEocd tail pos (pos + 22) = .ok true := by
  have hSignature : At tail (pos + 0) [80, 75, 5, 6] := h.field 0 0 rfl rfl
  have hComment := u16_leBytes (h.field 7 20 rfl rfl)
  have h0 := byteAt_of_at hSignature (show 0 < 4 by decide)
  have h1 := byteAt_of_at hSignature (show 1 < 4 by decide)
  have h2 := byteAt_of_at hSignature (show 2 < 4 by decide)
  have h3 := byteAt_of_at hSignature (show 3 < 4 by decide)
  rw [Nat.add_zero] at h0 h1 h2 h3
  rw [Zip.isEocd, h0, h1, h2, h3, hComment]
  show Except.ok (decide (pos + 22 + 0 = pos + 22)) = .ok true
  rw [Nat.add_zero, decide_eq_true rfl]

theorem findEocd_here {tail : Bytes} {windowLen pos : Nat}
    (h : Zip.isEocd tail pos windowLen = .ok true) :
    Zip.findEocd tail windowLen pos = .ok (some pos) := by
  cases pos with
  | zero =>
    rw [Zip.findEocd, h]
    rfl
  | succ pos =>
    rw [Zip.findEocd, h]
    rfl

/-- The numbers of the end record, modulo what its fields hold. -/
theorem of_eq (members cd : Bytes) (count cdSize cdStart : Nat) {src : Bytes}
    (hSrc : src = members ++ cd ++ (endFields count cdSize cdStart).flatten) :
    Zip.of src = (do
      refuse (count % 65536 = 65535 ∨ cdSize % 4294967296 = 4294967295 ∨
        cdStart % 4294967296 = 4294967295) (.parseError "zip: zip64 archives are unsupported")
      let cd ← read src (cdStart % 4294967296) (cdSize % 4294967296)
      let entries ← Zip.entriesAt cd (count % 65536) 0
      return ⟨src, entries⟩) := by
  have hEndLen := length_endFields count cdSize cdStart
  have hLen : src.length = (members ++ cd).length + 22 := by
    rw [hSrc, List.length_append, hEndLen]
  obtain ⟨windowLen, hWindow⟩ : ∃ windowLen, windowLen = min src.length 65557 := ⟨_, rfl⟩
  obtain ⟨pos, hPos⟩ : ∃ pos, windowLen = pos + 22 := ⟨windowLen - 22, by omega⟩
  obtain ⟨tail, hTail⟩ : ∃ tail, tail = slice src (src.length - windowLen) src.length := ⟨_, rfl⟩
  have hTailLen : tail.length = windowLen := by
    rw [hTail, length_slice]
    omega
  have hRead : read src (src.length - windowLen) windowLen = .ok tail := by
    have hAt : At src (src.length - windowLen) tail := by
      rw [At, hTailLen, hTail]
      congr 1
      omega
    rw [← hTailLen] at hAt ⊢
    exact read_of_at hAt
  -- the end record is the last thing in the window
  have hEnd : At tail pos (endFields count cdSize cdStart).flatten := by
    have hMiddle := At.middle (members ++ cd) (endFields count cdSize cdStart).flatten []
    rw [List.append_nil, ← hSrc] at hMiddle
    have hStart : (members ++ cd).length = src.length - windowLen + pos := by omega
    rw [hStart] at hMiddle
    rw [hTail]
    exact hMiddle.of_slice (by omega)
  have hFound : Zip.findEocd tail windowLen (windowLen - 22) = .ok (some pos) := by
    rw [hPos, Nat.add_sub_cancel]
    exact findEocd_here (isEocd_endFields hEnd)
  have hDisk := u16_leBytes (hEnd.field 1 4 rfl rfl)
  have hCdDisk := u16_leBytes (hEnd.field 2 6 rfl rfl)
  have hTotal := u16_leBytes (hEnd.field 4 10 rfl rfl)
  have hSize := u32_leBytes (hEnd.field 5 12 rfl rfl)
  have hOffset := u32_leBytes (hEnd.field 6 16 rfl rfl)
  rw [Zip.of, refuse_of_not (by omega)]
  simp only [← hWindow, hRead, ok_bind, hFound, Option.elim, hDisk, hCdDisk, hTotal, hSize, hOffset]
  rfl

/-- The entry for a record of a member of that name. -/
def entryFor (name : Text) (r : Record) (time date : Bytes) : ZipEntry :=
  ⟨name, r.usize % 4294967296, r.csize, r.method, r.crc, r.offset, 2048, ofLE date, ofLE time⟩

/-- Numbers that have room, but for the size. -/
structure Roomy (r : Record) : Prop where
  name : r.name.length < 65536
  csize : r.csize < 4294967295
  offset : r.offset < 4294967295
  method : r.method < 65536
  crc : r.crc < 4294967296

theorem entryAt_eq {cd time date : Bytes} {p : Nat} {r : Record} {name : Text}
    (hAt : At cd p (centralFields r time date).flatten) (hStamped : Stamped r time date)
    (hRoomy : Roomy r) (hName : r.name = name.bytes) :
    Zip.entryAt cd p = (do
      refuse (r.usize % 4294967296 = 4294967295)
        (.parseError "zip: zip64 archives are unsupported")
      return (entryFor name r time date, p + (46 + r.name.length))) := by
  have hTimeLen := hStamped.length.1
  have hDateLen := hStamped.length.2
  have hLens (k n : Nat) (hn : (((centralFields r time date).map List.length).take k).sum = n) :
      ((centralFields r time date).take k).flatten.length = n := by
    rw [List.length_flatten, List.map_take]
    exact hn
  -- the lengths of the fields, which say where each one stands
  have hLengths : (centralFields r time date).map List.length
      = [4, 2, 2, 2, 2, 2, 2, 4, 4, 4, 2, 2, 2, 2, 2, 4, 4, r.name.length] := by
    simp only [centralFields, List.map_cons, List.map_nil, length_leBytes, hTimeLen, hDateLen]
  rw [hLengths] at hLens
  have hSignature := u32_leBytes (hAt.field 0 0 rfl (hLens 0 0 (by simp)))
  have hFlags := u16_leBytes (hAt.field 3 8 rfl (hLens 3 8 (by simp)))
  have hMethod := u16_leBytes (hAt.field 4 10 rfl (hLens 4 10 (by simp)))
  have hTime := u16_of_at (hAt.field 5 12 rfl (hLens 5 12 (by simp))) hTimeLen
  have hDate := u16_of_at (hAt.field 6 14 rfl (hLens 6 14 (by simp))) hDateLen
  have hCrc := u32_leBytes (hAt.field 7 16 rfl (hLens 7 16 (by simp)))
  have hCsize := u32_leBytes (hAt.field 8 20 rfl (hLens 8 20 (by simp)))
  have hUsize := u32_leBytes (hAt.field 9 24 rfl (hLens 9 24 (by simp)))
  have hNameLen := u16_leBytes (hAt.field 10 28 rfl (hLens 10 28 (by simp)))
  have hExtra := u16_leBytes (hAt.field 11 30 rfl (hLens 11 30 (by simp)))
  have hComment := u16_leBytes (hAt.field 12 32 rfl (hLens 12 32 (by simp)))
  have hOffset := u32_leBytes (hAt.field 16 42 rfl (hLens 16 42 (by simp)))
  have hText : asString (slice cd (p + 46) (p + (46 + r.name.length))) = .ok name := by
    have hSlice : At cd (p + 46) r.name := hAt.field 17 46 rfl (hLens 17 46 (by simp))
    rw [At] at hSlice
    rw [← Nat.add_assoc, hSlice, hName]
    exact asString_bytes name
  -- each number is read modulo its field, and these have room
  rw [Nat.mod_eq_of_lt hRoomy.name] at hNameLen
  rw [Nat.mod_eq_of_lt (by have := hRoomy.csize; omega)] at hCsize
  rw [Nat.mod_eq_of_lt (by have := hRoomy.offset; omega)] at hOffset
  rw [Nat.mod_eq_of_lt hRoomy.method] at hMethod
  rw [Nat.mod_eq_of_lt hRoomy.crc] at hCrc
  have hZip64 : (r.csize = 4294967295 ∨ r.usize % 4294967296 = 4294967295 ∨
      r.offset = 4294967295) ↔ r.usize % 4294967296 = 4294967295 := by
    have hCsizeLt := hRoomy.csize
    have hOffsetLt := hRoomy.offset
    omega
  rw [Nat.add_zero] at hSignature
  rw [Zip.entryAt, hSignature, ok_bind, refuse_of_not (by norm_num)]
  simp only [ok_bind, hFlags, hMethod, hTime, hDate, hCrc, hCsize, hUsize, hNameLen, hExtra, hComment,
    hOffset, hText, hZip64, Nat.zero_mod, Nat.add_zero, Nat.add_assoc]
  rfl

/-- What a walk answers of a record. -/
structure Shows (r : Record) (e : ZipEntry) : Prop where
  name : e.name.bytes = r.name
  csize : e.compressedSize = r.csize
  method : e.methodCode = r.method
  crc : e.crc = r.crc
  offset : e.offset = r.offset
  flags : e.flags = 2048

/-- A walk over a directory that is all there, if no size is all ones. -/
theorem entriesAt_listed {cd : Bytes} {rs : List Record} : ∀ {p : Nat}, Listed cd p rs →
    (∀ r ∈ rs, Roomy r ∧ ∃ name : Text, r.name = name.bytes) →
    (∀ r ∈ rs, r.usize % 4294967296 ≠ 4294967295) →
    ∃ es, Zip.entriesAt cd rs.length p = .ok es ∧ List.Forall₂ Shows rs es := by
  induction rs with
  | nil => exact fun _ _ _ => ⟨[], rfl, .nil⟩
  | cons r rs ih =>
    intro p hListed hRoomy hSizes
    obtain ⟨⟨time, date, hStamped, hAt⟩, hRest⟩ := hListed
    obtain ⟨hRoom, name, hName⟩ := hRoomy r List.mem_cons_self
    obtain ⟨es, hEs, hShows⟩ := ih hRest (fun r hr => hRoomy r (List.mem_cons_of_mem _ hr))
      (fun r hr => hSizes r (List.mem_cons_of_mem _ hr))
    refine ⟨entryFor name r time date :: es, ?_, .cons ⟨hName.symm, rfl, rfl, rfl, rfl, rfl⟩ hShows⟩
    rw [List.length_cons, Zip.entriesAt, entryAt_eq hAt hStamped hRoom hName,
      refuse_of_not (hSizes r List.mem_cons_self)]
    show (Zip.entriesAt cd rs.length (p + (46 + r.name.length)) >>= fun es =>
      Except.ok (entryFor name r time date :: es)) = _
    rw [hEs]
    rfl

/-- A size that is all ones stops the walk. -/
theorem usize_of_entriesAt {cd : Bytes} {rs : List Record} : ∀ {p : Nat} {es : List ZipEntry},
    Listed cd p rs → (∀ r ∈ rs, Roomy r ∧ ∃ name : Text, r.name = name.bytes) →
    Zip.entriesAt cd rs.length p = .ok es → ∀ r ∈ rs, r.usize % 4294967296 ≠ 4294967295 := by
  induction rs with
  | nil => exact fun _ _ _ r hr => (by cases hr)
  | cons first rs ih =>
    intro p es hListed hRoomy h r hr
    obtain ⟨⟨time, date, hStamped, hAt⟩, hRest⟩ := hListed
    obtain ⟨hRoom, name, hName⟩ := hRoomy first List.mem_cons_self
    obtain ⟨entry, hEntry, h⟩ := bind_ok h
    obtain ⟨es', hEs, -⟩ := bind_ok h
    rw [entryAt_eq hAt hStamped hRoom hName] at hEntry
    obtain ⟨_, hSize, hEntry⟩ := bind_ok hEntry
    cases hEntry
    rcases List.mem_cons.mp hr with rfl | hr
    · exact refuse_eq_ok.mp hSize
    · exact ih hRest (fun r hr => hRoomy r (List.mem_cons_of_mem _ hr)) hEs r hr

/-- What an entry takes of any directory: its name at least is there, and not too long. -/
theorem entryAt_inside {cd : Bytes} {p next : Nat} {e : ZipEntry}
    (h : Zip.entryAt cd p = .ok (e, next)) :
    e.name.bytes.length < 65536 ∧ p + (46 + e.name.bytes.length) ≤ cd.length ∧
      p + (46 + e.name.bytes.length) ≤ next := by
  obtain ⟨_, _, h⟩ := bind_ok h
  obtain ⟨_, _, h⟩ := bind_ok h
  obtain ⟨nameLen, hNameLen, h⟩ := bind_ok h
  obtain ⟨extraLen, _, h⟩ := bind_ok h
  obtain ⟨commentLen, _, h⟩ := bind_ok h
  obtain ⟨name, hName, h⟩ := bind_ok h
  obtain ⟨_, _, h⟩ := bind_ok h
  obtain ⟨_, _, h⟩ := bind_ok h
  obtain ⟨_, hOffset, h⟩ := bind_ok h
  obtain ⟨_, _, h⟩ := bind_ok h
  obtain ⟨_, _, h⟩ := bind_ok h
  obtain ⟨_, _, h⟩ := bind_ok h
  obtain ⟨_, _, h⟩ := bind_ok h
  obtain ⟨_, _, h⟩ := bind_ok h
  obtain ⟨_, _, h⟩ := bind_ok h
  cases h
  have hIn := u32_inside hOffset
  have hLt := u16_lt hNameLen
  have hBytes : name.bytes = slice cd (p + 46) (p + 46 + nameLen) := by
    unfold asString at hName
    split at hName
    · cases hName
      rfl
    · cases hName
  have hLen := congrArg List.length hBytes
  rw [length_slice] at hLen
  show name.bytes.length < 65536 ∧ p + (46 + name.bytes.length) ≤ cd.length ∧
    p + (46 + name.bytes.length) ≤ p + 46 + nameLen + extraLen + commentLen
  omega

/-- So a walk takes no more than is there. -/
theorem entriesAt_inside {cd : Bytes} : ∀ {n p : Nat} {es : List ZipEntry},
    Zip.entriesAt cd n p = .ok es → es.length = n ∧ (∀ e ∈ es, e.name.bytes.length < 65536) ∧
      (es ≠ [] → p + (es.map fun e => 46 + e.name.bytes.length).sum ≤ cd.length) := by
  intro n
  induction n with
  | zero =>
    rintro p es ⟨⟩
    exact ⟨rfl, fun e he => (by cases he), fun h => absurd rfl h⟩
  | succ n ih =>
    intro p es h
    obtain ⟨⟨entry, next⟩, hEntry, h⟩ := bind_ok h
    obtain ⟨rest, hRest, h⟩ := bind_ok h
    cases h
    obtain ⟨hShort, hIn, hNext⟩ := entryAt_inside hEntry
    obtain ⟨hLen, hNames, hSum⟩ := ih hRest
    refine ⟨by rw [List.length_cons, hLen], ?_, fun _ => ?_⟩
    · intro e he
      rcases List.mem_cons.mp he with rfl | he
      · exact hShort
      · exact hNames e he
    · rw [List.map_cons, List.sum_cons]
      cases rest with
      | nil => exact hIn
      | cons e rest =>
        have hMore := hSum (List.cons_ne_nil e rest)
        omega

end Reader

/-! ## Contents -/

section Contents

variable {c : Codec} {m : Member} {r : Record} {e : ZipEntry} {zip : Zip}

theorem data_decodes (hInverse : ∀ b, c.decodeDeflate (c.encodeDeflateRaw b) = .ok b)
    (err : ArchiveError) :
    (if (if m.deflated c then 8 else 0) = 0 then .ok (m.data c)
      else if (if m.deflated c then 8 else 0) = 8 then c.decodeDeflate (m.data c)
      else .error err) = Except.ok m.content := by
  unfold Member.data
  cases hDeflated : m.deflated c with
  | true => exact hInverse m.content
  | false => rfl

/-- Where a member is placed its content is read, and the checksum is its own. -/
theorem contentFor_placed (hInverse : ∀ b, c.decodeDeflate (c.encodeDeflateRaw b) = .ok b)
    (hPlaced : Placed c zip.src m r) (hName : m.name.bytes.length < 65536) (hShows : Shows r e) :
    zip.contentFor c e = .ok m.content := by
  obtain ⟨time, date, hStamped, hAt⟩ := hPlaced.stored
  have hRecord := hPlaced.record
  have hNameEq : r.name = m.name.bytes := by rw [hRecord]; rfl
  have hCsize : r.csize = (m.data c).length := by rw [hRecord]; rfl
  have hMethod : r.method = if m.deflated c then 8 else 0 := by rw [hRecord]; rfl
  have hCrc : r.crc = (c.crc32 m.content).toNat := by rw [hRecord]; rfl
  have hHeaderLen := length_localFields hStamped
  have hHeader := hAt.left
  -- the first thirty bytes of the header
  obtain ⟨lfh, hLfh⟩ : ∃ lfh, lfh = slice zip.src r.offset (r.offset + 30) := ⟨_, rfl⟩
  have hInside := hHeader.le_length (List.ne_nil_of_length_pos (by omega))
  have hLfhLen : lfh.length = 30 := by
    rw [hLfh, length_slice]
    omega
  have hRead : read zip.src r.offset 30 = .ok lfh := by
    have hLfhAt : At zip.src r.offset lfh := by
      rw [At, hLfhLen]
      exact hLfh.symm
    rw [← hLfhLen]
    exact read_of_at hLfhAt
  have hField {part : Bytes} (k n : Nat) (hPart : (localFields r time date)[k]? = some part)
      (hn : ((localFields r time date).take k).flatten.length = n) (hFit : n + part.length ≤ 30) :
      At lfh n part := by
    rw [hLfh]
    exact (hHeader.field k n hPart hn).of_slice (by omega)
  have hLengths (k n : Nat) (hn : ([4, 2, 2, 2, 2, 2, 4, 4, 4, 2, 2, r.name.length].take k).sum = n) :
      ((localFields r time date).take k).flatten.length = n := by
    rw [List.length_flatten, List.map_take, ← hn]
    simp only [localFields, List.map_cons, List.map_nil, length_leBytes, hStamped.length.1,
      hStamped.length.2]
  have hSignature := u32_leBytes (hField 0 0 rfl (hLengths 0 0 (by simp)) (by simp))
  have hNameLen := u16_leBytes (hField 9 26 rfl (hLengths 9 26 (by simp)) (by simp))
  have hExtra := u16_leBytes (hField 10 28 rfl (hLengths 10 28 (by simp)) (by simp))
  rw [hNameEq, Nat.mod_eq_of_lt hName] at hNameLen
  have hData : (if r.csize = 0 then .ok [] else
      read zip.src (r.offset + 30 + m.name.bytes.length + 0 % 65536) r.csize)
        = Except.ok (m.data c) := by
    have hDataAt := hAt.right
    rw [hHeaderLen, hNameEq] at hDataAt
    rw [hCsize]
    split_ifs with hEmpty
    · rw [List.length_eq_zero_iff.mp hEmpty]
    · rw [Nat.zero_mod, Nat.add_zero, Nat.add_assoc]
      exact read_of_at hDataAt
  have hMagic : ¬ 67324752 % 4294967296 ≠ 67324752 := by norm_num
  rw [Zip.contentFor, hShows.flags, hShows.offset, hShows.csize, hShows.method, hShows.crc, hRead,
    refuse_of_not (by norm_num)]
  simp only [ok_bind, hSignature, hNameLen, hExtra, refuse_of_not hMagic, hData, hMethod]
  rw [data_decodes hInverse, ok_bind, refuse_of_not (by rw [hCrc]; exact fun h => h rfl)]
  rfl

end Contents

/-! ## A whole archive -/

/-- The written bytes list the members added, in order, and each entry's bytes are its content. -/
def ZipRoundTrips (c : Codec) (ms : List Member) (out : Bytes) : Prop :=
  ∃ zip, Zip.of out = .ok zip ∧
    zip.entries.map (fun e => (e.name, zip.contentFor c e)) = ms.map fun m => (m.name, .ok m.content)

/-- No number of the archive says too much. -/
structure ZipFits (c : Codec) (ms : List Member) : Prop where
  count : ms.length < 65535
  names : ∀ m ∈ ms, m.name.bytes.length < 65536
  sizes : ∀ m ∈ ms, m.content.length % 4294967296 ≠ 4294967295
  start : localSize c ms ≠ 4294967295
  directory : directorySize ms < 4294967295

section Archive

variable {c : Codec} {out : Bytes} {ms : List Member} {rs : List Record}

theorem Placed.roomy {m : Member} {r : Record} (h : Placed c out m r)
    (hName : m.name.bytes.length < 65536) : Roomy r := by
  have hBelow := h.below
  have hRecord := h.record
  have hCrc := (c.crc32 m.content).toNat_lt
  have hMethod : (if m.deflated c then 8 else 0) < 65536 := by split_ifs <;> omega
  rw [hRecord]
  exact ⟨hName, by simp only [Member.record]; omega, by simp only [Member.record]; omega, hMethod,
    hCrc⟩

theorem Placed.name {m : Member} {r : Record} (h : Placed c out m r) : r.name = m.name.bytes := by
  rw [h.record]
  rfl

theorem Placed.usize {m : Member} {r : Record} (h : Placed c out m r) :
    r.usize = m.content.length := by
  rw [h.record]
  rfl

theorem directorySize_eq (h : List.Forall₂ (Placed c out) ms rs) :
    (rs.map fun r => 46 + r.name.length).sum = directorySize ms := by
  induction h with
  | nil => rfl
  | cons hPlaced _ ih =>
    rw [directorySize] at ih ⊢
    rw [List.map_cons, List.sum_cons, ih, hPlaced.name, List.map_cons, List.sum_cons]

theorem text_ext {a b : Text} (h : a.bytes = b.bytes) : a = b := by
  cases a
  cases b
  obtain rfl := h
  rfl

/-- Entries that show the records of placed members are read as these. -/
theorem read_entries {zip : Zip} {es : List ZipEntry}
    (hInverse : ∀ b, c.decodeDeflate (c.encodeDeflateRaw b) = .ok b)
    (hPlaced : List.Forall₂ (Placed c zip.src) ms rs) (hNames : ∀ m ∈ ms, m.name.bytes.length < 65536)
    (hShows : List.Forall₂ Shows rs es) :
    es.map (fun e => (e.name, zip.contentFor c e)) = ms.map fun m => (m.name, .ok m.content) := by
  induction hPlaced generalizing es with
  | nil =>
    cases hShows
    rfl
  | cons hHead _ ih =>
    cases hShows with
    | cons hShow hRest =>
      have hName := hNames _ List.mem_cons_self
      have hText := hShow.name.trans hHead.name
      rw [List.map_cons, List.map_cons, ih (fun m hm => hNames m (List.mem_cons_of_mem _ hm)) hRest,
        contentFor_placed hInverse hHead hName hShow, text_ext hText]

/-- What is listed: as many entries as the record counts, which say no more than is there. -/
structure ListedAll (ms : List Member) (cd : Bytes) (es : List ZipEntry) : Prop where
  count : ms.length = es.length
  names : ∀ m ∈ ms, m.name.bytes.length < 65536
  directory : ms ≠ [] → directorySize ms ≤ cd.length

theorem listedAll {cd : Bytes} {n : Nat} {es : List ZipEntry} (h : Zip.entriesAt cd n 0 = .ok es)
    (hNames : es.map ZipEntry.name = ms.map Member.name) : ListedAll ms cd es := by
  obtain ⟨_, hShort, hSum⟩ := entriesAt_inside h
  have hCount := congrArg List.length hNames
  rw [List.length_map, List.length_map] at hCount
  refine ⟨hCount.symm, ?_, ?_⟩
  · intro m hm
    have hMem : m.name ∈ es.map ZipEntry.name := by
      rw [hNames]
      exact List.mem_map_of_mem hm
    obtain ⟨e, he, hEq⟩ := List.mem_map.mp hMem
    rw [← hEq]
    exact hShort e he
  · intro hSome
    have hEntries : es ≠ [] := fun hNil => hSome (List.eq_nil_of_length_eq_zero (by
      rw [← hCount, hNil, List.length_nil]))
    have hEq : (es.map fun e => 46 + e.name.bytes.length).sum = directorySize ms := by
      have hMap := congrArg (fun names => (names.map fun name : Text => 46 + name.bytes.length).sum)
        hNames
      rw [List.map_map, List.map_map] at hMap
      exact hMap
    have hIn := hSum hEntries
    rw [hEq] at hIn
    omega

/-- What the writer leaves of members, and what the reader makes of the end record. -/
structure Written (c : Codec) (ms : List Member) (rs : List Record) (cd out : Bytes) : Prop where
  placed : List.Forall₂ (Placed c out) ms rs
  listed : Listed cd 0 rs
  length : cd.length = directorySize ms
  start : localSize c ms ≤ 4294967295
  directory : At out (localSize c ms) cd
  parsed : Zip.of out = (do
    refuse (ms.length % 65536 = 65535 ∨ cd.length % 4294967296 = 4294967295 ∨
      localSize c ms % 4294967296 = 4294967295) (.parseError "zip: zip64 archives are unsupported")
    let cd ← read out (localSize c ms % 4294967296) (cd.length % 4294967296)
    let entries ← Zip.entriesAt cd (ms.length % 65536) 0
    return ⟨out, entries⟩)

theorem written {w w' : ZipWriter} (hAdded : ZipWriter.init.addAll c ms = .ok w)
    (hClosed : w.close = .ok w') : ∃ rs cd, Written c ms rs cd w'.out := by
  obtain ⟨rs, members, hRecords, hOut, hCounted, hPlaced, hMembers⟩ :=
    addAll_spec hAdded ⟨rfl, rfl, Nat.zero_le _⟩
  obtain ⟨cd, hCd, hListed, hArchive⟩ := close_spec hClosed hCounted
  have hRecords : w.records = rs := hRecords
  have hOut : w.out = members := hOut
  have hCount : rs.length = ms.length := hPlaced.length_eq.symm
  rw [hRecords, directorySize_eq hPlaced] at hCd
  rw [hRecords] at hListed
  rw [hRecords, hOut, hCount, hMembers] at hArchive
  refine ⟨rs, cd, ?_, hListed, hCd, ?_, ?_, of_eq members cd _ _ _ hArchive⟩
  · refine hPlaced.imp fun m r h => ?_
    rw [hArchive, ← hOut, List.append_assoc]
    exact h.append _
  · have hBelow := hCounted.below
    rw [hCounted.offset, hOut, hMembers] at hBelow
    exact hBelow
  · have hMiddle := At.middle members cd (endFields ms.length cd.length (localSize c ms)).flatten
    rw [← hArchive, hMembers] at hMiddle
    exact hMiddle

variable {cd : Bytes}

theorem Written.roomy (h : Written c ms rs cd out) (hNames : ∀ m ∈ ms, m.name.bytes.length < 65536) :
    ∀ r ∈ rs, Roomy r ∧ ∃ name : Text, r.name = name.bytes := by
  intro r hr
  obtain ⟨m, hm, hPlace⟩ := exists_member h.placed r hr
  exact ⟨hPlace.roomy (hNames m hm), m.name, hPlace.name⟩

/-- A directory that is not too large is read whole. -/
theorem Written.read_directory (h : Written c ms rs cd out)
    (hFew : directorySize ms < 4294967295) :
    read out (localSize c ms % 4294967296) (cd.length % 4294967296) = .ok cd := by
  have hStart := h.start
  have hLen := h.length
  rw [Nat.mod_eq_of_lt (by omega), Nat.mod_eq_of_lt (by omega)]
  exact read_of_at h.directory

theorem roundTrips_of_fits (hInverse : ∀ b, c.decodeDeflate (c.encodeDeflateRaw b) = .ok b)
    (h : Written c ms rs cd out) (hFits : ZipFits c ms) : ZipRoundTrips c ms out := by
  have hStart := h.start
  have hLen := h.length
  have hCount := h.placed.length_eq
  have hFew := hFits.count
  have hFirst := hFits.start
  have hDirectory := hFits.directory
  obtain ⟨es, hEs, hShows⟩ := entriesAt_listed h.listed (h.roomy hFits.names) fun r hr => by
    obtain ⟨m, hm, hPlace⟩ := exists_member h.placed r hr
    rw [hPlace.usize]
    exact hFits.sizes m hm
  refine ⟨⟨out, es⟩, ?_, read_entries hInverse h.placed hFits.names hShows⟩
  rw [← hCount] at hEs
  rw [h.parsed, refuse_of_not (by omega), h.read_directory hDirectory,
    Nat.mod_eq_of_lt (show ms.length < 65536 by omega)]
  simp only [ok_bind, hEs]
  rfl

/-- What is listed right is listed from a directory that is all there. -/
theorem fits_of_roundTrips (h : Written c ms rs cd out) (hTrips : ZipRoundTrips c ms out) :
    ZipFits c ms := by
  obtain ⟨zip, hZip, hShown⟩ := hTrips
  rw [h.parsed] at hZip
  obtain ⟨_, hRefuse, hZip⟩ := bind_ok hZip
  obtain ⟨dir, hDir, hZip⟩ := bind_ok hZip
  obtain ⟨es, hEs, hZip⟩ := bind_ok hZip
  cases hZip
  have hStart := h.start
  have hLen := h.length
  have hRefuse := refuse_eq_ok.mp hRefuse
  have hNames : es.map ZipEntry.name = ms.map Member.name := by
    have hMap := congrArg (List.map Prod.fst) hShown
    simpa only [List.map_map, Function.comp_def] using hMap
  have hAll := listedAll hEs hNames
  have hCount := hAll.count
  have hTotal := (entriesAt_inside hEs).1
  have hDirLen : dir.length = cd.length % 4294967296 := by
    unfold read at hDir
    split_ifs at hDir with hWhole
    cases hDir
    exact hWhole
  have hDirectory : directorySize ms < 4294967295 := by
    by_cases hNone : ms = []
    · rw [hNone]
      exact Nat.zero_lt_succ _
    · have hIn := hAll.directory hNone
      omega
  have hFirst : localSize c ms ≠ 4294967295 := by omega
  refine ⟨by omega, hAll.names, ?_, hFirst, hDirectory⟩
  intro m hm
  obtain ⟨r, hr, hPlace⟩ := exists_record h.placed m hm
  rw [h.read_directory hDirectory] at hDir
  cases hDir
  rw [Nat.mod_eq_of_lt (by omega), h.placed.length_eq] at hEs
  rw [← hPlace.usize]
  exact usize_of_entriesAt h.listed (h.roomy hAll.names) hEs r hr

/-- **Zip archives round-trip exactly when no number says too much.** With a codec that decodes what
it encodes, whatever the members are and however often a name is there. -/
theorem zip_roundTrip (hInverse : ∀ b, c.decodeDeflate (c.encodeDeflateRaw b) = .ok b)
    {w w' : ZipWriter} (hAdded : ZipWriter.init.addAll c ms = .ok w) (hClosed : w.close = .ok w') :
    ZipRoundTrips c ms w'.out ↔ ZipFits c ms := by
  obtain ⟨rs, cd, hWritten⟩ := written hAdded hClosed
  exact ⟨fits_of_roundTrips hWritten, roundTrips_of_fits hInverse hWritten⟩

end Archive

/-! ## A codec -/

/-- A step of CRC-32. -/
def crcStep (crc : UInt32) (b : UInt8) : UInt32 :=
  (List.range 8).foldl
    (fun crc _ => if crc &&& 1 = 1 then (crc >>> 1) ^^^ 0xEDB88320 else crc >>> 1)
    (crc ^^^ b.toUInt32)

/-- What deflate makes of nothing and of "hi", and a stored block of anything else. -/
def smallCodec : Codec where
  encodeDeflateRaw b :=
    if b = [] then [0x03, 0x00] else
    if b = [0x68, 0x69] then [0xCB, 0xC8, 0x04, 0x00]
    else 0x01 :: (leBytes 2 b.length ++ leBytes 2 (65535 - b.length) ++ b)
  decodeDeflate b :=
    if b = [0x03, 0x00] then .ok [] else
    if b = [0xCB, 0xC8, 0x04, 0x00] then .ok [0x68, 0x69]
    else .ok (b.drop 5)
  crc32 b := (b.foldl crcStep 0xFFFFFFFF) ^^^ 0xFFFFFFFF

theorem smallCodec_inverse (b : Bytes) :
    smallCodec.decodeDeflate (smallCodec.encodeDeflateRaw b) = .ok b := by
  by_cases hEmpty : b = []
  · rw [hEmpty]
    rfl
  · by_cases hHi : b = [0x68, 0x69]
    · rw [hHi]
      rfl
    · simp only [smallCodec, if_neg hEmpty, if_neg hHi]
      rw [if_neg (by simp), if_neg (by simp)]
      rfl

theorem fromUtf8_replicate (n : Nat) : fromUtf8 (List.replicate n 0x61) = .ok () := by
  have hScan : ∀ done, scan none done (List.replicate n 0x61) = .ok () := by
    induction n with
    | zero => exact fun done => rfl
    | succ n ih =>
      intro done
      rw [List.replicate_succ, scan, if_pos (by decide)]
      exact ih (done + 1)
  exact hScan 0

/-- Noon of a day. -/
def noon : Now := ⟨2024, 2, 29, 12, 0, 0⟩

theorem exists_ok {ε α : Type} {x : Except ε α} (h : x.toOption.isSome = true) :
    ∃ a, x = .ok a := by
  cases x with
  | error err => cases h
  | ok a => exact ⟨a, rfl⟩

/-- A file, a folder, and the file's name once more with other contents: the three members come
back. -/
theorem zip_roundTrip_twice : ∃ w w',
    ZipWriter.init.addAll smallCodec [.bytes ⟨[0x61], rfl⟩ [0x68, 0x69] noon,
      .folder ⟨[0x62], rfl⟩ noon, .bytes ⟨[0x61], rfl⟩ [] noon] = .ok w ∧ w.close = .ok w' ∧
      ZipRoundTrips smallCodec [.bytes ⟨[0x61], rfl⟩ [0x68, 0x69] noon,
        .folder ⟨[0x62], rfl⟩ noon, .bytes ⟨[0x61], rfl⟩ [] noon] w'.out := by
  obtain ⟨w', hBoth⟩ : ∃ w', (ZipWriter.init.addAll smallCodec
      [.bytes ⟨[0x61], rfl⟩ [0x68, 0x69] noon, .folder ⟨[0x62], rfl⟩ noon,
        .bytes ⟨[0x61], rfl⟩ [] noon] >>= ZipWriter.close) = .ok w' :=
    exists_ok (by decide +kernel)
  obtain ⟨w, hAdded, hClosed⟩ := bind_ok hBoth
  refine ⟨w, w', hAdded, hClosed, (zip_roundTrip smallCodec_inverse hAdded hClosed).mpr ?_⟩
  exact ⟨by decide +kernel, by decide +kernel, by decide +kernel, by decide +kernel,
    by decide +kernel⟩

/-- An empty file is added under any name for which there is room. -/
theorem addAll_empty (name : Text) (hRoom : name.bytes.length ≤ 4294967265) :
    ∃ w, ZipWriter.init.addAll smallCodec [.bytes name [] noon] = .ok w := by
  have hTime : bytesOf (le16 noon.dosTime) = .ok [0, 0x60] := by decide +kernel
  have hDate : bytesOf (le16 noon.dosDate) = .ok [0x5D, 0x58] := by decide +kernel
  have hStamped : Stamped ((Member.bytes name [] noon).record smallCodec ZipWriter.init.offset)
      [0, 0x60] [0x5D, 0x58] := ⟨hTime, hDate⟩
  have hFits : 0 + (30 + name.bytes.length + 0) ≤ 4294967295 := by omega
  obtain ⟨w, hAdd⟩ := add_ok ⟨rfl, rfl, Nat.zero_le _⟩ hStamped hFits
  refine ⟨w, ?_⟩
  rw [ZipWriter.addAll, hAdd]
  rfl

/-- A name of 65536 bytes. -/
def hugeName : Text := ⟨List.replicate 65536 0x61, fromUtf8_replicate 65536⟩

/-- The length of the name is written modulo 2^16, as 0, so the reader takes the member for one with
the empty name. -/
theorem zip_huge : ¬ ∀ (c : Codec) (ms : List Member) (w w' : ZipWriter),
    (∀ b, c.decodeDeflate (c.encodeDeflateRaw b) = .ok b) → ZipWriter.init.addAll c ms = .ok w →
      w.close = .ok w' → ZipRoundTrips c ms w'.out := by
  intro h
  have hNameLen : hugeName.bytes.length = 65536 := List.length_replicate
  obtain ⟨w, hAdded⟩ := addAll_empty hugeName (by omega)
  obtain ⟨w', hClosed⟩ := close_ok hAdded
  obtain ⟨rs, cd, hWritten⟩ := written hAdded hClosed
  have hFits := fits_of_roundTrips hWritten (h _ _ _ _ smallCodec_inverse hAdded hClosed)
  have hShort := hFits.names _ (List.mem_singleton_self (Member.bytes hugeName [] noon))
  rw [Member.bytes, hNameLen] at hShort
  exact Nat.lt_irrefl _ hShort

end Quoin.Archive
