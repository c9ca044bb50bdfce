import Mathlib
import Quoin.Archive.Tar

/-!
# Quoin — a ustar header reads back

A header is fields put at offsets (`ustar_eq`), each of which ends before the
next one starts as long as the numbers have room. So each is sliced out again,
the checksum over the header with spaces in its own field is the one `verify`
computes, and the header is not the zeros of the end.
-/

namespace Quoin.Archive

open Streams Wire

/-! ## Octal fields -/

/-- What is in an octal field before its NUL. -/
def octalField (k n : Nat) : Bytes :=
  List.replicate (k - (digitsOf 8 n).length) 48 ++ numeral 8 n

section Octal

variable {k n : Nat}

theorem length_octalField (hk : 0 < k) (hn : n < 8 ^ k) : (octalField k n).length = k := by
  have hDigits := (length_digitsOf_le (by norm_num) hk).mpr hn
  rw [octalField, List.length_append, List.length_replicate, length_numeral]
  omega

/-- A number with room in its field is put there. -/
theorem putOctal_eq (header : Bytes) (value : Int) (i : Nat) (hk : 0 < k)
    (hn : value.toNat < 8 ^ k) :
    putOctal header value i (k + 1) = put header (octalField k value.toNat) i := by
  have hDigits := (length_digitsOf_le (by norm_num) hk).mpr hn
  have hStart : i + (k + 1) - 2 + 1 - (digitsOf 8 value.toNat).length
      = i + (k - (digitsOf 8 value.toNat).length) := by
    omega
  have hPad : k + 1 - 1 - (digitsOf 8 value.toNat).length
      = k - (digitsOf 8 value.toNat).length := by
    omega
  rw [putOctal, putDown_eq_put _ _ (by rw [List.length_map]; omega), List.length_map, hStart, hPad,
    octalField, put_append, List.length_replicate, numeral]

/-- It is read back, whatever NULs and spaces follow. -/
theorem ofNumeral_octalField {tail : Bytes}
    (hTail : ∀ b ∈ tail, ¬ (48 ≤ b.toNat ∧ b.toNat < 48 + 8)) :
    ofNumeral 8 (octalField k n ++ tail) = n := by
  rw [ofNumeral_append_of_not _ hTail, octalField, ofNumeral_zeros,
    ofNumeral_numeral (by norm_num) (by norm_num)]

end Octal

/-! ## The header as fields -/

/-- The header before its checksum. -/
def ustarFields (nameBytes : Bytes) (size : Nat) (type : UInt8) (mode mtime : Nat) : Bytes :=
  let header := put (List.replicate 512 0) nameBytes 0
  let header := put header (octalField 7 mode) 100
  let header := put header (octalField 7 0) 108
  let header := put header (octalField 7 0) 116
  let header := put header (octalField 11 size) 124
  let header := put header (octalField 11 mtime) 136
  let header := put header [type] 156
  let header := put header [0x75, 0x73, 0x74, 0x61, 0x72] 257
  let header := put header [48] 263
  put header [48] 264

/-- The checksum of a header. -/
def headerSum (header : Bytes) : Nat := sum (put header (List.replicate 8 32) 148)

theorem sum_append (a b : Bytes) : sum (a ++ b) = sum a + sum b := by
  rw [sum, List.map_append, List.sum_append, sum, sum]

theorem sum_le (a : Bytes) : sum a ≤ 255 * a.length := by
  induction a with
  | nil => exact Nat.le_refl 0
  | cons b bs ih =>
    have hByte := b.toNat_lt
    rw [sum, List.map_cons, List.sum_cons, List.length_cons]
    rw [sum] at ih
    omega

theorem headerSum_lt {header : Bytes} (hLen : header.length = 512) : headerSum header < 8 ^ 6 := by
  have hLe := sum_le (put header (List.replicate 8 32) 148)
  rw [length_put, hLen] at hLe
  rw [headerSum]
  omega

theorem checksum_eq {header : Bytes} (hLen : header.length = 512) :
    checksum header =
      put (put (put (put header (List.replicate 8 32) 148) (octalField 6 (headerSum header)) 148)
        [0] 154) [32] 155 := by
  have hOctal := @putOctal_eq 6 (put header (List.replicate 8 32) 148) (headerSum header) 148
    (by norm_num) (by simpa using headerSum_lt hLen)
  rw [Int.toNat_natCast] at hOctal
  rw [checksum, ← headerSum, hOctal, set_eq_put, set_eq_put]

section Header

variable {nameBytes : Bytes} {size mode : Nat} {type : UInt8} {mtime : Int}

@[simp] theorem length_ustarFields (mtime : Nat) :
    (ustarFields nameBytes size type mode mtime).length = 512 := by
  simp only [ustarFields, length_put, List.length_replicate]

theorem ustar_eq (hSize : size < 8 ^ 11) (hMode : mode < 8 ^ 7) (hMtime : mtime < 8 ^ 11) :
    ustar nameBytes size type mode mtime
      = checksum (ustarFields nameBytes size type mode mtime.toNat) := by
  have hTime : mtime.toNat < 8 ^ 11 := by omega
  have hNarrow (header : Bytes) (n i : Nat) (hn : n < 8 ^ 7) :
      putOctal header n i 8 = put header (octalField 7 n) i :=
    putOctal_eq header n i (by norm_num) (by simpa using hn)
  have hWide (header : Bytes) (v : Int) (i : Nat) (hv : v.toNat < 8 ^ 11) :
      putOctal header v i 12 = put header (octalField 11 v.toNat) i :=
    putOctal_eq header v i (by norm_num) hv
  have hZero (header : Bytes) (i : Nat) :
      putOctal header 0 i 8 = put header (octalField 7 0) i :=
    hNarrow header 0 i (by norm_num)
  rw [ustar, hNarrow _ mode 100 hMode, hZero _ 108, hZero _ 116,
    hWide _ size 124 (by simpa using hSize), hWide _ mtime 136 hTime]
  rfl

-- Each field is sliced out past the ones that are put beside it.

theorem slice_name (mtime : Nat) (hName : nameBytes.length ≤ 100) :
    slice (ustarFields nameBytes size type mode mtime) 0 100
      = nameBytes ++ List.replicate (100 - nameBytes.length) 0 := by
  have hSplit := slice_append (put (List.replicate 512 (0 : UInt8)) nameBytes 0)
    (Nat.zero_le nameBytes.length) hName
  have hSelf := slice_put_self (List.replicate 512 (0 : UInt8)) nameBytes 0 nameBytes.length
    (Nat.zero_add _).symm (by rw [List.length_replicate]; omega)
  rw [hSelf, slice_put_of_ge _ _ (by omega), slice_replicate _ (by norm_num)] at hSplit
  simp (disch := omega) only [ustarFields, slice_put_of_le]
  exact hSplit.symm

/-- An octal field, its NUL put by no one. -/
theorem slice_octal {header : Bytes} {k n i : Nat} (hLen : (octalField k n).length = k)
    (hFit : i + k + 1 ≤ header.length) (hNul : slice header (i + k) (i + k + 1) = [0]) :
    slice (put header (octalField k n) i) i (i + k + 1) = octalField k n ++ [0] := by
  rw [← slice_append _ (Nat.le_add_right i k) (Nat.le_succ (i + k)),
    slice_put_self _ _ _ _ (by rw [hLen]) (by omega), slice_put_of_ge _ _ (by rw [hLen]), hNul]

theorem slice_size (mtime : Nat) (hName : nameBytes.length ≤ 100) (hSize : size < 8 ^ 11)
    (hMode : mode < 8 ^ 7) :
    slice (ustarFields nameBytes size type mode mtime) 124 136 = octalField 11 size ++ [0] := by
  have hMode := length_octalField (by norm_num) hMode
  have hZero : (octalField 7 0).length = 7 := length_octalField (by norm_num) (by norm_num)
  simp (disch := omega) only [ustarFields, slice_put_of_le]
  refine slice_octal (length_octalField (by norm_num) hSize) ?_ ?_
  · simp only [length_put, List.length_replicate]
    norm_num
  · simp (disch := omega) only [slice_put_of_ge]
    rfl

theorem slice_mtime {mtime : Nat} (hName : nameBytes.length ≤ 100) (hSize : size < 8 ^ 11)
    (hMode : mode < 8 ^ 7) (hMtime : mtime < 8 ^ 11) :
    slice (ustarFields nameBytes size type mode mtime) 136 148 = octalField 11 mtime ++ [0] := by
  have hMode := length_octalField (by norm_num) hMode
  have hSize := length_octalField (by norm_num) hSize
  have hZero : (octalField 7 0).length = 7 := length_octalField (by norm_num) (by norm_num)
  simp (disch := omega) only [ustarFields, slice_put_of_le]
  refine slice_octal (length_octalField (by norm_num) hMtime) ?_ ?_
  · simp only [length_put, List.length_replicate]
    norm_num
  · simp (disch := omega) only [slice_put_of_ge]
    rfl

theorem slice_type (mtime : Nat) :
    slice (ustarFields nameBytes size type mode mtime) 156 157 = [type] := by
  simp (disch := omega) only [ustarFields, slice_put_of_le]
  refine slice_put_self _ [type] 156 157 rfl ?_
  simp only [length_put, List.length_replicate]
  norm_num

/-- The rest stays zero but for the magic. -/
theorem slice_zeros {mtime i j : Nat} (hName : nameBytes.length ≤ 100) (hSize : size < 8 ^ 11)
    (hMode : mode < 8 ^ 7) (hMtime : mtime < 8 ^ 11)
    (hIn : 157 ≤ i ∧ j ≤ 257 ∨ 265 ≤ i ∧ j ≤ 512) :
    slice (ustarFields nameBytes size type mode mtime) i j = List.replicate (j - i) 0 := by
  have hMode := length_octalField (by norm_num) hMode
  have hSize := length_octalField (by norm_num) hSize
  have hMtime := length_octalField (by norm_num) hMtime
  have hZero : (octalField 7 0).length = 7 := length_octalField (by norm_num) (by norm_num)
  rcases hIn with hIn | hIn
  · simp (disch := first | omega | (simp only [List.length_cons, List.length_nil]; omega)) only
      [ustarFields, slice_put_of_le, slice_put_of_ge]
    exact slice_replicate 0 (by omega)
  · simp (disch := first | omega | (simp only [List.length_cons, List.length_nil]; omega)) only
      [ustarFields, slice_put_of_ge]
    exact slice_replicate 0 (by omega)

theorem slice_magic (mtime : Nat) :
    slice (ustarFields nameBytes size type mode mtime) 257 262
      = [0x75, 0x73, 0x74, 0x61, 0x72] := by
  simp (disch := omega) only [ustarFields, slice_put_of_le]
  refine slice_put_self _ [0x75, 0x73, 0x74, 0x61, 0x72] 257 262 rfl ?_
  simp only [length_put, List.length_replicate]
  norm_num

end Header

/-! ## The checksum -/

section Checksum

variable {header : Bytes} {i j : Nat}

@[simp] theorem length_checksum (hLen : header.length = 512) : (checksum header).length = 512 := by
  rw [checksum_eq hLen]
  simp only [length_put, hLen]

/-- The checksum is nowhere but in its field. -/
theorem slice_checksum (hLen : header.length = 512) (h : j ≤ 148 ∨ 156 ≤ i) :
    slice (checksum header) i j = slice header i j := by
  have hOctal := length_octalField (by norm_num) (headerSum_lt hLen)
  rw [checksum_eq hLen]
  rcases h with hBefore | hAfter
  · simp (disch := omega) only [slice_put_of_le]
  · have hSpaces : (List.replicate 8 (32 : UInt8)).length = 8 := List.length_replicate
    rw [slice_put_of_ge _ [32] (by simpa using hAfter), slice_put_of_ge _ [0] (by simp; omega),
      slice_put_of_ge _ _ (by omega), slice_put_of_ge _ _ (by omega)]

theorem slice_checksum_self (hLen : header.length = 512) :
    slice (checksum header) 148 156 = octalField 6 (headerSum header) ++ [0, 32] := by
  have hOctal := length_octalField (by norm_num) (headerSum_lt hLen)
  have hParts : slice (checksum header) 148 154 = octalField 6 (headerSum header) ∧
      slice (checksum header) 154 155 = [0] ∧ slice (checksum header) 155 156 = [32] := by
    rw [checksum_eq hLen]
    refine ⟨?_, ?_, ?_⟩
    · simp (disch := omega) only [slice_put_of_le]
      exact slice_put_self _ _ _ _ (by omega) (by rw [length_put]; omega)
    · simp (disch := omega) only [slice_put_of_le]
      exact slice_put_self _ [0] 154 155 rfl (by rw [length_put, length_put]; omega)
    · exact slice_put_self _ [32] 155 156 rfl (by simp only [length_put]; omega)
  rw [← slice_append _ (show 148 ≤ 154 by norm_num) (show 154 ≤ 156 by norm_num),
    ← slice_append _ (show 154 ≤ 155 by norm_num) (show 155 ≤ 156 by norm_num), hParts.1,
    hParts.2.1, hParts.2.2]
  rfl

theorem spacedSum_append (i : Nat) (a b : Bytes) :
    spacedSum i (a ++ b) = spacedSum i a + spacedSum (i + a.length) b := by
  induction a generalizing i with
  | nil => rw [List.nil_append, spacedSum, Nat.zero_add, List.length_nil, Nat.add_zero]
  | cons c cs ih =>
    have hNext : i + 1 + cs.length = i + (c :: cs).length := by
      rw [List.length_cons]
      omega
    rw [List.cons_append, spacedSum, spacedSum, ih, hNext, Nat.add_assoc]

/-- Outside the checksum field the bytes are summed. -/
theorem spacedSum_outside {a : Bytes} (h : i + a.length ≤ 148 ∨ 156 ≤ i) :
    spacedSum i a = sum a := by
  induction a generalizing i with
  | nil => rfl
  | cons b bs ih =>
    rw [List.length_cons] at h
    rw [spacedSum, if_neg (by omega), ih (by omega), sum, sum, List.map_cons, List.sum_cons]

/-- In the field spaces are. -/
theorem spacedSum_inside {a : Bytes} (h : 148 ≤ i ∧ i + a.length ≤ 156) :
    spacedSum i a = 32 * a.length := by
  induction a generalizing i with
  | nil => rfl
  | cons b bs ih =>
    rw [List.length_cons] at h
    rw [spacedSum, if_pos (by omega), ih (by omega), List.length_cons]
    omega

theorem sum_slices (hLen : header.length = 512) :
    sum header = sum (slice header 0 148) + sum (slice header 148 156)
      + sum (slice header 156 512) := by
  have hAll := slice_self header
  rw [hLen] at hAll
  rw [← sum_append, ← sum_append, slice_append _ (by norm_num) (by norm_num),
    slice_append _ (by norm_num) (by norm_num), hAll]

theorem spacedSum_slices (hLen : header.length = 512) :
    spacedSum 0 header = sum (slice header 0 148) + 256 + sum (slice header 156 512) := by
  have hAll := slice_self header
  rw [hLen, ← slice_append _ (Nat.zero_le 156) (by norm_num),
    ← slice_append _ (Nat.zero_le 148) (by norm_num)] at hAll
  have hBefore : (slice header 0 148).length = 148 := by
    rw [length_slice]
    omega
  have hField : (slice header 148 156).length = 8 := by
    rw [length_slice]
    omega
  calc spacedSum 0 header
      = spacedSum 0 (slice header 0 148 ++ slice header 148 156 ++ slice header 156 512) := by
        rw [hAll]
    _ = spacedSum 0 (slice header 0 148) + spacedSum 148 (slice header 148 156)
          + spacedSum 156 (slice header 156 512) := by
        rw [spacedSum_append, spacedSum_append, List.length_append, hBefore, hField]
    _ = sum (slice header 0 148) + 256 + sum (slice header 156 512) := by
        rw [spacedSum_outside (by omega), spacedSum_inside (by omega),
          spacedSum_outside (by omega), hField]

/-- The sum that is verified is the one that was written. -/
theorem spacedSum_checksum (hLen : header.length = 512) :
    spacedSum 0 (checksum header) = headerSum header := by
  have hSpaces : slice (put header (List.replicate 8 32) 148) 148 156 = List.replicate 8 32 :=
    slice_put_self _ _ _ _ (by simp) (by omega)
  have hSum := @sum_slices (put header (List.replicate 8 32) 148) (by rw [length_put, hLen])
  rw [slice_put_of_le _ _ (Nat.le_refl 148), hSpaces, slice_put_of_ge _ _ (by simp)] at hSum
  rw [spacedSum_slices (length_checksum hLen), slice_checksum hLen (.inl (Nat.le_refl 148)),
    slice_checksum hLen (.inr (Nat.le_refl 156)), headerSum, hSum]
  rfl

theorem verify_checksum (hLen : header.length = 512) : verify (checksum header) = .ok () := by
  have hTail : ∀ b ∈ ([0, 32] : Bytes), ¬ (48 ≤ b.toNat ∧ b.toNat < 48 + 8) := by decide +kernel
  rw [verify, octalIn, slice_checksum_self hLen, ofNumeral_octalField hTail,
    spacedSum_checksum hLen, if_pos rfl]

end Checksum

/-! ## What a header says -/

@[simp] theorem asString_bytes (t : Text) : asString t.bytes = .ok t := by
  unfold asString
  split
  · rfl
  next e hError =>
    rw [t.valid] at hError
    cases hError

theorem fromUtf8_nil : fromUtf8 [] = .ok () := rfl

def emptyText : Text := ⟨[], fromUtf8_nil⟩

/-- A header with the type, the size and the time that the reader makes of it. -/
structure Tells (header : Bytes) (type : UInt8) (size mtime : Nat) : Prop where
  length : header.length = 512
  nonzero : isZero header = false
  verified : verify header = .ok ()
  type : header.getD 156 0 = type
  size : octalIn header 124 136 = size
  mtime : octalIn header 136 148 = mtime
  linkname : stringIn header 157 257 = .ok emptyText

section Told

variable {nameBytes : Bytes} {size mode : Nat} {type : UInt8} {mtime : Int}

/-- A field of zeros is an empty text. -/
theorem stringIn_zeros {header : Bytes} {i j k : Nat}
    (h : slice header i j = List.replicate k 0) : stringIn header i j = .ok emptyText := by
  have hNone : (List.replicate k (0 : UInt8)).takeWhile (fun b => b ≠ 0) = [] := by
    cases k with
    | zero => rfl
    | succ k => rfl
  rw [stringIn, h, hNone]
  exact asString_bytes emptyText

theorem tells_ustar (hName : nameBytes.length ≤ 100) (hSize : size < 8 ^ 11) (hMode : mode < 8 ^ 7)
    (hMtime : mtime < 8 ^ 11) : Tells (ustar nameBytes size type mode mtime) type size mtime.toNat := by
  have hTime : mtime.toNat < 8 ^ 11 := by omega
  have hLen := @length_ustarFields nameBytes size mode type mtime.toNat
  have hNul : ∀ b ∈ ([0] : Bytes), ¬ (48 ≤ b.toNat ∧ b.toNat < 48 + 8) := by decide +kernel
  rw [ustar_eq hSize hMode hMtime]
  constructor
  case length => exact length_checksum hLen
  case nonzero =>
    have hMagic := slice_checksum hLen (.inr (show 156 ≤ 257 by norm_num)) (j := 262)
    rw [slice_magic] at hMagic
    have hAt := congrArg (fun bs => bs[0]?) hMagic
    rw [getElem?_slice, if_pos (by norm_num)] at hAt
    refine List.all_eq_false.mpr ⟨0x75, List.mem_of_getElem? hAt, ?_⟩
    decide
  case verified => exact verify_checksum hLen
  case type =>
    have hType := slice_checksum hLen (.inr (show 156 ≤ 156 by norm_num)) (j := 157)
    rw [slice_type] at hType
    have hAt := congrArg (fun bs => bs[0]?) hType
    rw [getElem?_slice, if_pos (by norm_num)] at hAt
    rw [List.getD_eq_getElem?_getD, hAt]
    rfl
  case size =>
    rw [octalIn, slice_checksum hLen (.inl (by norm_num)), slice_size _ hName hSize hMode,
      ofNumeral_octalField hNul]
  case mtime =>
    rw [octalIn, slice_checksum hLen (.inl (by norm_num)), slice_mtime hName hSize hMode hTime,
      ofNumeral_octalField hNul]
  case linkname =>
    refine stringIn_zeros (k := 100) ?_
    rw [slice_checksum hLen (.inr (by norm_num)),
      slice_zeros hName hSize hMode hTime (.inl ⟨Nat.le_refl 157, Nat.le_refl 257⟩)]

/-- A name without NULs is the field up to the first one. -/
theorem ustarName_ustar {name : Text} (hName : name.bytes.length ≤ 100) (hNul : 0 ∉ name.bytes)
    (hSize : size < 8 ^ 11) (hMode : mode < 8 ^ 7) (hMtime : mtime < 8 ^ 11) :
    ustarName (ustar name.bytes size type mode mtime) = .ok name := by
  have hTime : mtime.toNat < 8 ^ 11 := by omega
  have hLen := @length_ustarFields name.bytes size mode type mtime.toNat
  have hField : (name.bytes ++ List.replicate (100 - name.bytes.length) 0).takeWhile
      (fun b => b ≠ 0) = name.bytes := by
    have hAll : ∀ b ∈ name.bytes, decide (b ≠ 0) = true := by
      intro b hb
      refine decide_eq_true fun hZero => hNul ?_
      rw [← hZero]
      exact hb
    rw [List.takeWhile_append_of_pos hAll]
    cases 100 - name.bytes.length with
    | zero => rw [List.replicate_zero, List.takeWhile_nil, List.append_nil]
    | succ k => simp [List.replicate_succ]
  have hText : stringIn (checksum (ustarFields name.bytes size type mode mtime.toNat)) 0 100
      = .ok name := by
    rw [stringIn, slice_checksum hLen (.inl (by norm_num)), slice_name _ hName, hField,
      asString_bytes]
  have hPrefix : stringIn (checksum (ustarFields name.bytes size type mode mtime.toNat)) 345 500
      = .ok emptyText := by
    refine stringIn_zeros (k := 155) ?_
    rw [slice_checksum hLen (.inr (by norm_num)),
      slice_zeros hName hSize hMode hTime (.inr ⟨by norm_num, by norm_num⟩)]
  rw [ustar_eq hSize hMode hMtime, ustarName, hText, hPrefix]
  rfl

end Told

end Quoin.Archive
