import Mathlib
import Quoin.Archive.Ustar

/-!
# Quoin — a tar archive reads back

What an addition writes is a header part and a body (`Added`). The reader
takes the header part for the entry, and then the body, whether its bytes are
read or skipped later: what it still has to take is told by its state (`Owes`).
So a pass over the entries keeps in step with the additions (`readAll_adds`).

All this needs numbers that have room in their fields (`Addition.Fits`), which
nothing checks: a size or a time of 8 GiB or seconds goes into the field before.

## Results

* `readAll_adds` — the reader keeps in step with the additions, whether a body is read or skipped;
* `tar_roundTrip` — members whose numbers fit their fields are read back as they were added;
* `tar_late` — a modification time of 8 GiB seconds is written over the field behind it.
-/

namespace Quoin.Archive

open Streams Wire

/-! ## Pax records -/

section Pax

theorem lt_pow_numeral (n : Nat) : n < 10 ^ (numeral 10 n).length := by
  rw [length_numeral]
  exact (length_digitsOf_le (by norm_num) length_digitsOf_pos).mp (Nat.le_refl _)

theorem length_numeral_pos (n : Nat) : 0 < (numeral 10 n).length := by
  rw [length_numeral]
  exact length_digitsOf_pos

theorem length_numeral_le {n k : Nat} (hk : 0 < k) (hn : n < 10 ^ k) :
    (numeral 10 n).length ≤ k := by
  rw [length_numeral]
  exact (length_digitsOf_le (by norm_num) hk).mpr hn

theorem length_numeral_mono {m n : Nat} (h : m ≤ n) :
    (numeral 10 m).length ≤ (numeral 10 n).length :=
  length_numeral_le (length_numeral_pos n) (Nat.lt_of_le_of_lt h (lt_pow_numeral n))

/-- Adding as much as it has digits gives a number one digit at most, and again no more. -/
theorem length_numeral_add (base : Nat) :
    (numeral 10 (base + ((numeral 10 (base + 1)).length + 1))).length
      ≤ (numeral 10 (base + 1)).length + 1 := by
  refine length_numeral_le (Nat.succ_pos _) ?_
  have hBase := lt_pow_numeral (base + 1)
  have hDigits : (numeral 10 (base + 1)).length < 10 ^ (numeral 10 (base + 1)).length :=
    Nat.lt_pow_self (by norm_num)
  rw [Nat.pow_succ]
  omega

/-- The length that counts its own digits is found in two steps. -/
theorem paxLength_eq (base : Nat) :
    TarWriter.paxLength base 2 (base + 1)
      = base + (numeral 10 (TarWriter.paxLength base 2 (base + 1))).length := by
  have hAgain := length_numeral_add base
  simp only [TarWriter.paxLength]
  by_cases hFirst : base + 1 = base + (numeral 10 (base + 1)).length
  · rw [if_pos hFirst]
    exact hFirst
  · rw [if_neg hFirst]
    by_cases hSecond : base + (numeral 10 (base + 1)).length
        = base + (numeral 10 (base + (numeral 10 (base + 1)).length)).length
    · rw [if_pos hSecond]
      exact hSecond
    · rw [if_neg hSecond]
      have hPos := length_numeral_pos (base + 1)
      have hUp := length_numeral_mono
        (show base + 1 ≤ base + (numeral 10 (base + 1)).length by omega)
      have hOne := length_numeral_mono (show base + (numeral 10 (base + 1)).length
        ≤ base + ((numeral 10 (base + 1)).length + 1) by omega)
      -- the second length has a digit more, and the third has as many
      have hMore : (numeral 10 (base + (numeral 10 (base + 1)).length)).length
          = (numeral 10 (base + 1)).length + 1 := by
        omega
      rw [hMore]
      omega

/-- A record is as long as it says. -/
theorem length_paxRecord (value : Bytes) :
    (TarWriter.paxRecord value).length
      = TarWriter.paxLength (1 + 5 + value.length + 1) 2 (1 + 5 + value.length + 1 + 1) := by
  have hEq := paxLength_eq (1 + 5 + value.length + 1)
  rw [TarWriter.paxRecord]
  simp only [List.length_append, List.length_cons, List.length_nil, pathKey]
  omega

theorem pathValue_append (name : Text) : Tar.pathValue (append pathKey name) = some name := by
  have hKey : pathKey.bytes <+: (append pathKey name).bytes := ⟨name.bytes, rfl⟩
  rw [Tar.pathValue, dif_pos hKey]
  rfl

/-- The reader finds the path in the record. -/
theorem paxPath_paxRecord (name : Text) :
    Tar.paxPath (TarWriter.paxRecord name.bytes) = .ok (some name) := by
  have hLen := length_paxRecord name.bytes
  obtain ⟨digits, hDigits⟩ : ∃ digits, digits = numeral 10 (TarWriter.paxRecord name.bytes).length :=
    ⟨_, rfl⟩
  -- the record: its length, a blank, `path=` with the name, and a line feed
  have hRecord : TarWriter.paxRecord name.bytes
      = digits ++ [0x20] ++ (append pathKey name).bytes ++ [0x0A] := by
    rw [hDigits, hLen, TarWriter.paxRecord]
    simp only [append, List.append_assoc]
  -- the digits at the front are those of the length, and they end at the blank
  have hTake : (TarWriter.paxRecord name.bytes).takeWhile Tar.isDigit = digits := by
    have hAll : ∀ b ∈ digits, Tar.isDigit b = true := by
      intro b hb
      rw [hDigits] at hb
      have hRange := mem_numeral (by norm_num) (by norm_num) hb
      rw [Tar.isDigit, decide_eq_true_eq, UInt8.le_iff_toNat_le, UInt8.le_iff_toNat_le]
      exact ⟨hRange.1, Nat.le_of_lt_succ hRange.2⟩
    rw [hRecord, List.append_assoc, List.append_assoc, List.takeWhile_append_of_pos hAll]
    exact List.append_nil digits
  have hValue : ofNumeral 10 digits = (TarWriter.paxRecord name.bytes).length := by
    rw [hDigits, ofNumeral_numeral (by norm_num) (by norm_num)]
  -- what the length delimits is the key and the name
  have hSlice : slice (TarWriter.paxRecord name.bytes) (digits.length + 1)
      ((TarWriter.paxRecord name.bytes).length - 1) = (append pathKey name).bytes := by
    rw [hRecord]
    refine slice_middle _ _ _ ?_ ?_
    · rw [List.length_append, List.length_singleton]
    · simp only [List.length_append, List.length_singleton]
      omega
  obtain ⟨fuel, hFuel⟩ : ∃ fuel, (TarWriter.paxRecord name.bytes).length = fuel + 1 := by
    rw [hRecord]
    simp
  have hNonempty : TarWriter.paxRecord name.bytes ≠ [] := by
    rw [hRecord]
    simp
  -- nothing is left for another record
  have hDone : Tar.paxRecords fuel [] (some name) = .ok (some name) := by
    cases fuel with
    | zero => rfl
    | succ fuel => rfl
  rw [Tar.paxPath, hFuel, Tar.paxRecords, if_neg hNonempty]
  simp only [hTake, hValue, hSlice]
  rw [if_neg (by omega), asString_bytes, List.drop_length]
  show Tar.paxRecords fuel [] ((Tar.pathValue (append pathKey name)).or none) = .ok (some name)
  rw [pathValue_append]
  exact hDone

end Pax

/-! ## What an addition writes -/

namespace Addition

/-- The member's name in the archive. -/
def name : Addition → Text
  | .bytes name _ _ _ => name
  | .folder name _ _ => TarWriter.dirName name
  | .file _ _ _ name _ => name

def type : Addition → TypeSymbol
  | .bytes .. => .file
  | .folder .. => .directory
  | .file .. => .file

def size : Addition → Nat
  | .bytes _ content _ _ => content.length
  | .folder .. => 0
  | .file _ size _ _ _ => size

def content : Addition → Bytes
  | .bytes _ content _ _ => content
  | .folder .. => []
  | .file source size _ _ _ => source.take size

/-- The time in the member's header. -/
def mtime : Addition → Int
  | .bytes _ _ _ now => now
  | .folder _ _ now => now
  | .file _ _ modified _ _ => modified

/-- The time in its pax header, if it has one. -/
def paxNow : Addition → Int
  | .bytes _ _ paxNow _ => paxNow
  | .folder _ paxNow _ => paxNow
  | .file _ _ _ _ paxNow => paxNow

def typeByte : Addition → UInt8
  | .bytes .. => 48
  | .folder .. => 53
  | .file .. => 48

def mode : Addition → Nat
  | .bytes .. => 420
  | .folder .. => 493
  | .file .. => 420

/-- Every number has room in its field of eleven octal digits. -/
structure Fits (a : Addition) : Prop where
  size : a.size < 8 ^ 11
  mtime : a.mtime < 8 ^ 11
  record : 100 < a.name.bytes.length → (TarWriter.paxRecord a.name.bytes).length < 8 ^ 11
  paxNow : 100 < a.name.bytes.length → a.paxNow < 8 ^ 11

theorem mode_lt (a : Addition) : a.mode < 8 ^ 7 := by
  cases a <;> exact of_decide_eq_true rfl

theorem typeSymbol_typeByte (a : Addition) : typeSymbol a.typeByte = a.type := by
  cases a <;> rfl

/-- No member is taken for a header of the archive's own. -/
theorem typeByte_ne (a : Addition) : a.typeByte ≠ 76 ∧ a.typeByte ≠ 120 ∧ a.typeByte ≠ 103 := by
  cases a <;> exact of_decide_eq_true rfl

end Addition

/-- Content, padded to whole blocks. -/
def body (content : Bytes) : Bytes := content ++ TarWriter.padding content.length

/-- The member's own header, with as much of its name as fits. -/
def memberHeader (a : Addition) : Bytes :=
  ustar (a.name.bytes.take 100) a.size a.typeByte a.mode a.mtime

/-- The headers of a member: its own, after the one of its name if that is long. -/
def headers (paxSeq : Nat) (a : Addition) : Bytes :=
  if 100 < a.name.bytes.length then
    ustar (TarWriter.paxName paxSeq) (TarWriter.paxRecord a.name.bytes).length 120 420 a.paxNow
      ++ body (TarWriter.paxRecord a.name.bytes) ++ memberHeader a
  else memberHeader a

section Writer

variable {w w' : TarWriter} {a : Addition}

/-- What `header:size:type:mode:mtime:` writes. -/
structure Headed (w w' : TarWriter) (a : Addition) : Prop where
  openBefore : w.closed = false
  stillOpen : w'.closed = false
  paxSeq : 100 < a.name.bytes.length → w'.paxSeq < 2 ^ 63
  out : w'.out = w.out ++ headers w'.paxSeq a

theorem headed (h : w.header a.name a.size a.typeByte a.mode a.mtime a.paxNow = .ok w') :
    Headed w w' a := by
  unfold TarWriter.header at h
  split_ifs at h with hClosed hLong hSeq
  · injection h with hEq
    subst hEq
    refine ⟨by simpa using hClosed, by simpa [TarWriter.paxPath, TarWriter.write] using hClosed,
      fun _ => hSeq, ?_⟩
    simp only [headers, if_pos hLong, body, memberHeader, TarWriter.paxPath, TarWriter.write,
      List.append_assoc]
  · injection h with hEq
    subst hEq
    refine ⟨by simpa using hClosed, by simpa [TarWriter.write] using hClosed,
      fun h => absurd h hLong, ?_⟩
    have hTake : a.name.bytes.take 100 = a.name.bytes := List.take_of_length_le (by omega)
    simp only [headers, if_neg hLong, memberHeader, TarWriter.write, hTake]

/-- What an addition leaves. -/
structure Added (w w' : TarWriter) (a : Addition) : Prop where
  stillOpen : w'.closed = false
  paxSeq : 100 < a.name.bytes.length → w'.paxSeq < 2 ^ 63
  length : a.content.length = a.size
  out : w'.out = w.out ++ headers w'.paxSeq a ++ body a.content

theorem added (h : w.add a = .ok w') : Added w w' a := by
  cases a with
  | bytes name content paxNow now =>
    obtain ⟨mid, hHeader, hRest⟩ := bind_ok h
    cases hRest
    have hHeaded := @headed w mid (.bytes name content paxNow now) hHeader
    refine ⟨hHeaded.stillOpen, hHeaded.paxSeq, rfl, ?_⟩
    simp only [TarWriter.write, hHeaded.out, body, Addition.content, List.append_assoc]
  | folder name paxNow now =>
    have hHeaded := @headed w w' (.folder name paxNow now) h
    refine ⟨hHeaded.stillOpen, hHeaded.paxSeq, rfl, ?_⟩
    rw [hHeaded.out]
    exact (List.append_nil _).symm
  | file source size modified name paxNow =>
    obtain ⟨mid, hHeader, hRest⟩ := bind_ok h
    have hHeaded := @headed w mid (.file source size modified name paxNow) hHeader
    split_ifs at hRest with hShort
    cases hRest
    have hLen : (source.take size).length = size := by
      rw [List.length_take]
      omega
    refine ⟨hHeaded.stillOpen, hHeaded.paxSeq, hLen, ?_⟩
    simp only [TarWriter.write, hHeaded.out, body, Addition.content, hLen, List.append_assoc]

end Writer

/-! ## What the reader takes -/

section Reading

variable {tar tar' : Tar}

theorem reads_ofExcept {α : Type} (a : α) : Reads (ofExcept (.ok a)) [] a := fun _ => rfl

theorem reads_pad (n : Nat) : Reads (Tar.pad n) (TarWriter.padding n) (TarWriter.padding n) := by
  unfold TarWriter.padding Tar.pad
  split_ifs with hRem
  · exact Reads.take List.length_replicate
  · exact Reads.pure []

theorem reads_content (content : Bytes) :
    Reads (Tar.content content.length) (body content) content := by
  have hBytes : Reads (if content.length = 0 then pure [] else readExactly content.length : Dec Bytes)
      content content := by
    split_ifs with hEmpty
    · rw [List.length_eq_zero_iff.mp hEmpty]
      exact Reads.pure []
    · exact Reads.take rfl
  exact hBytes.bind ((reads_pad content.length).bind_pure (Reads.pure content))

/-- Skipping takes the content too, a chunk at a time. -/
theorem reads_skipChunks (n : Nat) :
    ∀ content : Bytes, content.length = n → Reads (Tar.skipChunks n) content () := by
  induction n using Nat.strong_induction_on with
  | h n ih =>
    intro content hLen
    rw [Tar.skipChunks]
    by_cases hEmpty : n = 0
    · rw [if_pos hEmpty, List.length_eq_zero_iff.mp (hLen.trans hEmpty)]
      exact Reads.pure ()
    · rw [if_neg hEmpty]
      obtain ⟨chunk, hChunk⟩ : ∃ chunk, (if n < 65536 then n else 65536) = chunk := ⟨_, rfl⟩
      have hPos : 0 < chunk ∧ chunk ≤ n := by
        rw [← hChunk]
        split_ifs <;> omega
      have hTake : (content.take chunk).length = chunk := by
        rw [List.length_take, hLen]
        exact Nat.min_eq_left hPos.2
      rw [hChunk, ← List.take_append_drop chunk content]
      refine (Reads.take hTake).bind ?_
      exact ih (n - chunk) (by omega) _ (by rw [List.length_drop, hLen])

/-- What of the entry it is at the reader has still to take. -/
def Owes (tar : Tar) (owed : Bytes) : Prop :=
  if tar.currentRead then owed = []
  else ∃ content : Bytes, content.length = tar.currentSize ∧ owed = body content

theorem reads_skipCurrent {owed : Bytes} (h : Owes tar owed) :
    Reads tar.skipCurrent owed { tar with currentRead := true } := by
  rw [Owes] at h
  rw [Tar.skipCurrent]
  split_ifs at h ⊢ with hRead
  · obtain ⟨name, done, seq, size, read⟩ := tar
    obtain rfl : read = true := hRead
    rw [h]
    exact Reads.pure _
  · obtain ⟨content, hLen, hOwed⟩ := h
    rw [hOwed, body, hLen]
    exact (reads_skipChunks _ content hLen).bind
      ((reads_pad tar.currentSize).bind_pure (Reads.pure _))

/-- The entry for a member and the reader after it. -/
def entryOf (tar : Tar) (a : Addition) : Entry :=
  ⟨a.name, a.size, a.type, a.mtime.toNat, emptyText, tar.seq + 1⟩

def atEntry (tar : Tar) (a : Addition) : Tar :=
  ⟨none, tar.done, tar.seq + 1, a.size, false⟩

theorem reads_memberHeader {a : Addition} {rounds : Nat} (hFits : a.Fits)
    (hNul : 0 ∉ a.name.bytes)
    (hName : tar.pendingName = some a.name ∨
      tar.pendingName = none ∧ a.name.bytes.length ≤ 100) :
    Reads (Tar.nextLoop (rounds + 1) tar) (memberHeader a)
      (some (entryOf tar a), atEntry tar a) := by
  have hShort : (a.name.bytes.take 100).length ≤ 100 := by
    rw [List.length_take]
    omega
  have hTold : Tells (memberHeader a) a.typeByte a.size a.mtime.toNat :=
    tells_ustar hShort hFits.size a.mode_lt hFits.mtime
  have hEntry : tar.entry (memberHeader a) = .ok (entryOf tar a, atEntry tar a) := by
    rw [Tar.entry]
    simp only [hTold.size, hTold.type, hTold.mtime, hTold.linkname, a.typeSymbol_typeByte]
    rcases hName with hPending | ⟨hNone, hLen⟩
    · rw [hPending]
      rfl
    · have hUstar : ustarName (memberHeader a) = .ok a.name := by
        rw [memberHeader, List.take_of_length_le hLen]
        exact ustarName_ustar hLen hNul hFits.size a.mode_lt hFits.mtime
      rw [hNone, hUstar]
      rfl
  obtain ⟨hLong, hPax, hGlobal⟩ := a.typeByte_ne
  rw [Tar.nextLoop]
  refine (Reads.take hTold.length).bind_pure ?_
  simp only [hTold.nonzero, hTold.verified, hTold.type, if_neg hLong, if_neg hPax, if_neg hGlobal,
    hEntry]
  exact (reads_ofExcept ()).bind_nil ((reads_ofExcept _).bind_nil (Reads.pure _))

/-- A name that is long comes in a round of its own. -/
theorem reads_headers {a : Addition} {paxSeq rounds : Nat} (hFits : a.Fits)
    (hNul : 0 ∉ a.name.bytes) (hSeq : 100 < a.name.bytes.length → paxSeq < 2 ^ 63)
    (hNone : tar.pendingName = none) :
    Reads (Tar.nextLoop (rounds + 2) tar) (headers paxSeq a)
      (some (entryOf tar a), atEntry tar a) := by
  rw [headers]
  split_ifs with hLong
  · have hPaxName : (TarWriter.paxName paxSeq).length ≤ 100 := by
      have hSeq := hSeq hLong
      have hDigits := @length_numeral_le paxSeq 19 (by norm_num) (by omega)
      simp only [TarWriter.paxName, List.length_append, List.length_cons, List.length_nil]
      omega
    have hTold := @tells_ustar _ _ 420 120 _ hPaxName (hFits.record hLong) (by norm_num)
      (hFits.paxNow hLong)
    have hMember := @reads_memberHeader { tar with pendingName := some a.name } a rounds hFits hNul
      (.inl rfl)
    rw [Tar.nextLoop, List.append_assoc]
    refine (Reads.take hTold.length).bind ?_
    simp only [hTold.nonzero, hTold.verified, hTold.type, hTold.size]
    refine (reads_ofExcept ()).bind_nil ((reads_content _).bind ?_)
    simp only [paxPath_paxRecord]
    exact (reads_ofExcept _).bind_nil hMember
  · exact reads_memberHeader hFits hNul (.inr ⟨hNone, Nat.le_of_not_lt hLong⟩)

/-- Between two entries. -/
structure Ready (tar : Tar) (owed : Bytes) : Prop where
  owes : Owes tar owed
  notDone : tar.done = false
  noName : tar.pendingName = none

theorem length_memberHeader {a : Addition} (hFits : a.Fits) : (memberHeader a).length = 512 := by
  have hShort : (a.name.bytes.take 100).length ≤ 100 := by
    rw [List.length_take]
    omega
  exact (tells_ustar hShort hFits.size a.mode_lt hFits.mtime).length

theorem length_headers {a : Addition} {paxSeq : Nat} (hFits : a.Fits) :
    512 ≤ (headers paxSeq a).length := by
  have hMember := length_memberHeader hFits
  unfold headers
  split_ifs
  · rw [List.length_append, hMember]
    omega
  · omega

theorem reads_next {a : Addition} {owed : Bytes} {paxSeq : Nat} (h : Ready tar owed)
    (hFits : a.Fits) (hNul : 0 ∉ a.name.bytes)
    (hSeq : 100 < a.name.bytes.length → paxSeq < 2 ^ 63) :
    Reads tar.next (owed ++ headers paxSeq a) (some (entryOf tar a), atEntry tar a) := by
  rw [Tar.next, h.notDone]
  refine (reads_skipCurrent h.owes).bind fun rest => ?_
  -- a header is there, so there are two rounds
  have hLen := @length_headers a paxSeq hFits
  obtain ⟨rounds, hRounds⟩ :
      ∃ rounds, (headers paxSeq a ++ rest).length / 512 + 1 = rounds + 2 := by
    refine ⟨(headers paxSeq a ++ rest).length / 512 - 1, ?_⟩
    rw [List.length_append]
    omega
  have hHeaders := @reads_headers { tar with currentRead := true } a paxSeq rounds hFits hNul hSeq
    h.noName rest
  show Tar.nextLoop ((headers paxSeq a ++ rest).length / 512 + 1) _ _ = _
  rw [hRounds]
  exact hHeaders

theorem reads_contentFor {a : Addition} (hLen : a.content.length = a.size) :
    Reads ((atEntry tar a).contentFor (tar.seq + 1)) (body a.content)
      (a.content, { atEntry tar a with currentRead := true }) := by
  rw [Tar.contentFor, if_neg (by simp [atEntry]), if_neg (by simp [atEntry])]
  have hContent := reads_content a.content
  rw [hLen] at hContent
  exact hContent.bind_pure (Reads.pure _)

/-- Read or not, the body is what is taken next. -/
theorem reads_readIf {a : Addition} (hLen : a.content.length = a.size) (hDone : tar.done = false)
    (wanted : Bool) :
    ∃ read owed tar', body a.content = read ++ owed ∧ Ready tar' owed ∧
      Reads (Tar.readIf wanted (entryOf tar a) (atEntry tar a)) read
        (if wanted then some a.content else none, tar') := by
  cases wanted with
  | true =>
    refine ⟨body a.content, [], { atEntry tar a with currentRead := true },
      (List.append_nil _).symm, ⟨rfl, hDone, rfl⟩, ?_⟩
    exact (reads_contentFor hLen).bind_pure (Reads.pure _)
  | false =>
    exact ⟨[], body a.content, atEntry tar a, rfl, ⟨⟨a.content, hLen, rfl⟩, hDone, rfl⟩,
      Reads.pure _⟩

end Reading

/-! ## A whole archive -/

/-- What a pass shows of an entry. -/
structure Shown where
  name : Text
  size : Nat
  type : TypeSymbol
  bytes : Option Bytes
  deriving DecidableEq

def shown (entry : Entry × Option Bytes) : Shown :=
  ⟨entry.1.name, entry.1.size, entry.1.type, entry.2⟩

/-- What it should show. -/
def Addition.shown (a : Addition) (wanted : Bool) : Shown :=
  ⟨a.name, a.size, a.type, if wanted then some a.content else none⟩

/-- A pass over the written bytes shows the members added, in order, and then there are no more. -/
def RoundTrips (as : List Addition) (flags : List Bool) (out : Bytes) : Prop :=
  ∃ entries tar stream, Tar.readAll flags Tar.init out = .ok ((entries, tar), stream) ∧
    entries.map shown = List.zipWith Addition.shown as flags ∧
    ∃ tar' rest, tar.next stream = .ok ((none, tar'), rest)

theorem addAll_open {as : List Addition} : ∀ {w w' : TarWriter}, w.closed = false →
    w.addAll as = .ok w' → w'.closed = false := by
  induction as with
  | nil =>
    rintro w w' hOpen ⟨⟩
    exact hOpen
  | cons a as ih =>
    intro w w' _ h
    obtain ⟨mid, hAdd, hRest⟩ := bind_ok h
    exact ih (added hAdd).stillOpen hRest

/-- The reader keeps in step with the writer, what it has not taken of an entry apart. -/
theorem readAll_adds {as : List Addition} : ∀ {w w' : TarWriter} {tar : Tar} {owed : Bytes}
    {flags : List Bool}, w.addAll as = .ok w' → (∀ a ∈ as, a.Fits) →
    (∀ a ∈ as, 0 ∉ a.name.bytes) → flags.length = as.length → Ready tar owed →
    ∃ part read owed' entries tar', w'.out = w.out ++ part ∧ owed ++ part = read ++ owed' ∧
      Reads (tar.readAll flags) read (entries, tar') ∧ Ready tar' owed' ∧
      entries.map shown = List.zipWith Addition.shown as flags := by
  induction as with
  | nil =>
    rintro w w' tar owed flags ⟨⟩ _ _ hFlags hReady
    obtain rfl := List.length_eq_zero_iff.mp hFlags
    exact ⟨[], [], owed, [], tar, (List.append_nil _).symm, List.append_nil _, Reads.pure _,
      hReady, rfl⟩
  | cons a as ih =>
    intro w w' tar owed flags h hFits hNul hFlags hReady
    obtain ⟨mid, hAdd, hRest⟩ := bind_ok h
    obtain ⟨wanted, flags, rfl⟩ : ∃ wanted rest, flags = wanted :: rest :=
      List.exists_cons_of_length_eq_add_one hFlags
    have hAdded := added hAdd
    have hNext := reads_next hReady (hFits a List.mem_cons_self) (hNul a List.mem_cons_self)
      hAdded.paxSeq
    obtain ⟨readBody, owedBody, tarBody, hBody, hReadyBody, hReadBody⟩ :=
      @reads_readIf tar a hAdded.length hReady.notDone wanted
    obtain ⟨part, read, owed', entries, tar', hOut, hSplit, hReads, hReady', hShown⟩ :=
      ih hRest (fun a ha => hFits a (List.mem_cons_of_mem _ ha))
        (fun a ha => hNul a (List.mem_cons_of_mem _ ha)) (Nat.succ_inj.mp hFlags) hReadyBody
    refine ⟨headers mid.paxSeq a ++ body a.content ++ part,
      owed ++ headers mid.paxSeq a ++ (readBody ++ read), owed',
      (entryOf tar a, if wanted then some a.content else none) :: entries, tar', ?_, ?_, ?_,
      hReady', ?_⟩
    · rw [hOut, hAdded.out]
      simp only [List.append_assoc]
    · rw [hBody]
      simp only [List.append_assoc, hSplit]
    · exact hNext.bind (hReadBody.bind (hReads.bind_pure (Reads.pure _)))
    · rw [List.map_cons, hShown]
      rfl

/-- The zeros that `close` writes end the archive. -/
theorem reads_end {tar : Tar} {owed : Bytes} (h : Ready tar owed) :
    Reads tar.next (owed ++ List.replicate 512 0)
      (none, { tar with currentRead := true, done := true }) := by
  have hZero : isZero (List.replicate 512 0) = true :=
    List.all_eq_true.mpr fun b hb => decide_eq_true (List.eq_of_mem_replicate hb)
  rw [Tar.next, h.notDone]
  refine (reads_skipCurrent h.owes).bind fun rest => ?_
  have hHeader : Reads (readExactly 512) (List.replicate 512 0) (List.replicate 512 0) :=
    Reads.take List.length_replicate
  rw [Tar.nextLoop]
  refine (hHeader.bind_pure ?_) rest
  rw [if_pos hZero]
  exact Reads.pure _

/-- **Tar archives round-trip.** Names without NULs, whatever their lengths, contents of any length,
and numbers that have room: what was added is what a pass shows, whichever bytes it reads. -/
theorem tar_roundTrip {as : List Addition} {w : TarWriter} {flags : List Bool}
    (hAdded : TarWriter.init.addAll as = .ok w) (hNul : ∀ a ∈ as, 0 ∉ a.name.bytes)
    (hFits : ∀ a ∈ as, a.Fits) (hFlags : flags.length = as.length) :
    RoundTrips as flags w.close.out := by
  have hReady : Ready Tar.init [] := ⟨rfl, rfl, rfl⟩
  obtain ⟨part, read, owed, entries, tar, hOut, hSplit, hReads, hReady', hShown⟩ :=
    readAll_adds hAdded hFits hNul hFlags hReady
  have hClose : w.close.out = read ++ (owed ++ List.replicate 512 0 ++ List.replicate 512 0) := by
    rw [TarWriter.close, addAll_open rfl hAdded]
    show w.out ++ List.replicate (512 + 512) 0 = _
    rw [List.append_assoc, ← List.append_assoc read, ← hSplit, hOut, List.replicate_add]
    rfl
  refine ⟨entries, tar, _, ?_, hShown, _, _, reads_end hReady' (List.replicate 512 0)⟩
  rw [hClose]
  exact hReads _

/-- A name of 101 bytes. -/
def longName : Text := ⟨List.replicate 101 0x61, by decide +kernel⟩

/-- A file and a folder under a name that needs the entry of its own for long names; the file's
bytes are read, and the folder is passed over. -/
theorem tar_roundTrip_long : ∃ w,
    TarWriter.init.addAll [.bytes longName [1, 2, 3] 0 0, .folder longName 0 0] = .ok w ∧
      RoundTrips [.bytes longName [1, 2, 3] 0 0, .folder longName 0 0] [true, false] w.close.out := by
  refine ⟨_, rfl, tar_roundTrip rfl ?_ ?_ rfl⟩
  · decide +kernel
  · intro a ha
    have hCases : a = .bytes longName [1, 2, 3] 0 0 ∨ a = .folder longName 0 0 := by
      simpa using ha
    rcases hCases with rfl | rfl
    · exact ⟨by decide +kernel, by decide +kernel, fun _ => by decide +kernel,
        fun _ => by decide +kernel⟩
    · exact ⟨by decide +kernel, by decide +kernel, fun _ => by decide +kernel,
        fun _ => by decide +kernel⟩

/-- A file of no bytes, modified in 2242. -/
def lateFile : Addition := .file [] 0 8589934592 ⟨[0x61], rfl⟩ 0

/-- A time of 2^33 seconds needs twelve octal digits, one more than its field holds, so its first
digit is written over the last byte of the size: the reader takes the empty file for one of one
byte. -/
theorem tar_late : ¬ ∀ (as : List Addition) (w : TarWriter) (flags : List Bool),
    TarWriter.init.addAll as = .ok w → (∀ a ∈ as, 0 ∉ a.name.bytes) → flags.length = as.length →
      RoundTrips as flags w.close.out := by
  intro h
  obtain ⟨w, hAdded⟩ : ∃ w, TarWriter.init.addAll [lateFile] = .ok w := ⟨_, rfl⟩
  have hShows : ((TarWriter.init.addAll [lateFile]).map fun w =>
      ((Tar.readAll [false] Tar.init w.close.out).map fun r => r.1.1.map shown).toOption).toOption
        = some (some [⟨⟨[0x61], rfl⟩, 1, .file, none⟩]) := by
    decide +kernel
  obtain ⟨entries, tar, stream, hRead, hShown, -⟩ :=
    h [lateFile] w [false] hAdded (by decide +kernel) rfl
  rw [hAdded] at hShows
  have hOne : entries.map shown = [⟨⟨[0x61], rfl⟩, 1, .file, none⟩] := by
    have hMap : (((Tar.readAll [false] Tar.init w.close.out).map fun r =>
        r.1.1.map shown).toOption) = some [⟨⟨[0x61], rfl⟩, 1, .file, none⟩] :=
      Option.some.inj hShows
    rw [hRead] at hMap
    exact Option.some.inj hMap
  rw [hOne] at hShown
  exact absurd hShown (by decide +kernel)

end Quoin.Archive
