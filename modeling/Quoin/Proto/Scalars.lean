import Quoin.Proto.Decode

/-!
# Quoin — the scalar readers invert the scalar writers

Field-level round trips of the codec, each stated with `Wire.Reads`: the
reader, run on the writer's bytes followed by anything, answers the written
value and stops exactly where the writer did. Every width boundary of the
integer, string, binary, array, map and ext headers is one case of one lemma
here; the composites and the frames (`Proto/RoundTrip.lean`) only compose
them.

A header lemma carries the one bound the format has: the announced length
must fit 32 bits. `strFits` is that bound for a string.
-/

namespace Quoin.Proto

open Wire

/-! ## Bytes and fixed-width integers -/

theorem takeU8_reads (b : UInt8) : Reads takeU8 [b] b := by
  unfold takeU8 take
  refine (Reads.take (s := [b]) rfl).bind_pure ?_
  rw [ofBE_singleton, UInt8.ofNat_toNat]
  exact Reads.pure b

theorem takeU8_reads_ofNat (n : Nat) : Reads takeU8 (beBytes 1 n) (UInt8.ofNat n) :=
  takeU8_reads (UInt8.ofNat n)

theorem takeU16_reads (n : Nat) : Reads takeU16 (beBytes 2 n) (UInt16.ofNat n) := by
  unfold takeU16 take
  refine (Reads.take (length_beBytes 2 n)).bind_pure ?_
  have hcast : UInt16.ofNat (ofBE (beBytes 2 n)) = UInt16.ofNat n := by
    rw [ofBE_beBytes_mod, ← UInt16.toNat_inj]
    simp
  rw [hcast]
  exact Reads.pure _

theorem takeU32_reads (n : Nat) : Reads takeU32 (beBytes 4 n) (UInt32.ofNat n) := by
  unfold takeU32 take
  refine (Reads.take (length_beBytes 4 n)).bind_pure ?_
  have hcast : UInt32.ofNat (ofBE (beBytes 4 n)) = UInt32.ofNat n := by
    rw [ofBE_beBytes_mod, ← UInt32.toNat_inj]
    simp
  rw [hcast]
  exact Reads.pure _

theorem takeU64_reads (n : Nat) : Reads takeU64 (beBytes 8 n) (UInt64.ofNat n) := by
  unfold takeU64 take
  refine (Reads.take (length_beBytes 8 n)).bind_pure ?_
  have hcast : UInt64.ofNat (ofBE (beBytes 8 n)) = UInt64.ofNat n := by
    rw [ofBE_beBytes_mod, ← UInt64.toNat_inj]
    simp
  rw [hcast]
  exact Reads.pure _

/-- `fixstr`-style markers: the low bits of the marker are the length. -/
theorem fixMarker_spec {n : Nat} (hn : n < 32) :
    (0xa0 ≤ 0xa0 ||| UInt8.ofNat n ∧ 0xa0 ||| UInt8.ofNat n ≤ 0xbf) ∧
      ((0xa0 ||| UInt8.ofNat n) &&& 0x1f).toNat = n := by
  revert hn n
  decide

theorem fixArrayMarker_spec {n : Nat} (hn : n < 16) :
    (0x90 ≤ 0x90 ||| UInt8.ofNat n ∧ 0x90 ||| UInt8.ofNat n ≤ 0x9f) ∧
      ((0x90 ||| UInt8.ofNat n) &&& 0x0f).toNat = n := by
  revert hn n
  decide

/-! ## Headers -/

theorem readArrayHeader_reads {n : Nat} (hn : n < 2 ^ 32) :
    Reads readArrayHeader (writeArrayHeader n) n := by
  unfold readArrayHeader writeArrayHeader
  split_ifs with h16 h65536
  · obtain ⟨hrange, hlow⟩ := fixArrayMarker_spec h16
    refine (takeU8_reads _).bind_pure ?_
    rw [if_pos hrange, hlow]
    exact Reads.pure n
  · refine (takeU8_reads 0xdc).bind ?_
    refine (takeU16_reads n).bind_pure ?_
    rw [UInt16.toNat_ofNat_of_lt' h65536]
    exact Reads.pure n
  · refine (takeU8_reads 0xdd).bind ?_
    refine (takeU32_reads n).bind_pure ?_
    rw [UInt32.toNat_ofNat_of_lt' hn]
    exact Reads.pure n

theorem readStrHeader_reads {n : Nat} (hn : n < 2 ^ 32) :
    Reads readStrHeader (writeStrHeader n) n := by
  unfold readStrHeader writeStrHeader
  split_ifs with h32 h256 h65536
  · obtain ⟨hrange, hlow⟩ := fixMarker_spec h32
    refine (takeU8_reads _).bind_pure ?_
    rw [if_pos hrange, hlow]
    exact Reads.pure n
  · refine (takeU8_reads 0xd9).bind ?_
    refine (takeU8_reads_ofNat n).bind_pure ?_
    rw [UInt8.toNat_ofNat_of_lt' h256]
    exact Reads.pure n
  · refine (takeU8_reads 0xda).bind ?_
    refine (takeU16_reads n).bind_pure ?_
    rw [UInt16.toNat_ofNat_of_lt' h65536]
    exact Reads.pure n
  · refine (takeU8_reads 0xdb).bind ?_
    refine (takeU32_reads n).bind_pure ?_
    rw [UInt32.toNat_ofNat_of_lt' hn]
    exact Reads.pure n

theorem readBinHeader_reads {n : Nat} (hn : n < 2 ^ 32) :
    Reads readBinHeader (writeBinHeader n) n := by
  unfold readBinHeader writeBinHeader
  split_ifs with h256 h65536
  · refine (takeU8_reads 0xc4).bind ?_
    refine (takeU8_reads_ofNat n).bind_pure ?_
    rw [UInt8.toNat_ofNat_of_lt' h256]
    exact Reads.pure n
  · refine (takeU8_reads 0xc5).bind ?_
    refine (takeU16_reads n).bind_pure ?_
    rw [UInt16.toNat_ofNat_of_lt' h65536]
    exact Reads.pure n
  · refine (takeU8_reads 0xc6).bind ?_
    refine (takeU32_reads n).bind_pure ?_
    rw [UInt32.toNat_ofNat_of_lt' hn]
    exact Reads.pure n

/-! ## Integers -/

/-- A small unsigned integer is its own marker. -/
theorem posFixint_spec {v : UInt64} (hv : v ≤ 0x7f) :
    v.toUInt8 ≤ 0x7f ∧ v.toUInt8.toUInt64 = v := by
  have hlt : v.toNat ≤ 127 := UInt64.le_iff_toNat_le.mp hv
  constructor
  · rw [UInt8.le_iff_toNat_le, UInt64.toNat_toUInt8]
    exact Nat.le_trans (Nat.mod_le _ _) hlt
  · rw [← UInt64.toNat_inj, UInt8.toNat_toUInt64, UInt64.toNat_toUInt8]
    omega

/-! An unsigned integer that fits a narrow width reads back from it. -/

theorem toUInt64_ofNat8 {v : UInt64} (hv : v.toNat ≤ 0xff) :
    (UInt8.ofNat v.toNat).toUInt64 = v := by
  rw [← UInt64.toNat_inj, UInt8.toNat_toUInt64, UInt8.toNat_ofNat_of_lt' (Nat.lt_succ_of_le hv)]

theorem toUInt64_ofNat16 {v : UInt64} (hv : v.toNat ≤ 0xffff) :
    (UInt16.ofNat v.toNat).toUInt64 = v := by
  rw [← UInt64.toNat_inj, UInt16.toNat_toUInt64, UInt16.toNat_ofNat_of_lt' (Nat.lt_succ_of_le hv)]

theorem toUInt64_ofNat32 {v : UInt64} (hv : v.toNat ≤ 0xffffffff) :
    (UInt32.ofNat v.toNat).toUInt64 = v := by
  rw [← UInt64.toNat_inj, UInt32.toNat_toUInt64, UInt32.toNat_ofNat_of_lt' (Nat.lt_succ_of_le hv)]

theorem readUint_reads (v : UInt64) : Reads readUint (writeUint v) v := by
  unfold readUint writeUint
  split_ifs with h7f hff hffff hffffffff
  · obtain ⟨hle, hback⟩ := posFixint_spec h7f
    refine (takeU8_reads _).bind_pure ?_
    rw [if_pos hle, hback]
    exact Reads.pure v
  · refine (takeU8_reads 0xcc).bind ?_
    refine (takeU8_reads_ofNat _).bind_pure ?_
    rw [toUInt64_ofNat8 (UInt64.le_iff_toNat_le.mp hff)]
    exact Reads.pure v
  · refine (takeU8_reads 0xcd).bind ?_
    refine (takeU16_reads _).bind_pure ?_
    rw [toUInt64_ofNat16 (UInt64.le_iff_toNat_le.mp hffff)]
    exact Reads.pure v
  · refine (takeU8_reads 0xce).bind ?_
    refine (takeU32_reads _).bind_pure ?_
    rw [toUInt64_ofNat32 (UInt64.le_iff_toNat_le.mp hffffffff)]
    exact Reads.pure v
  · have hback : Reads takeU64 (beBytes 8 v.toNat) v := by
      simpa using takeU64_reads v.toNat
    exact (takeU8_reads 0xcf).bind hback

theorem readVersion_reads (v : UInt32) : Reads readVersion (writeUint v.toUInt64) v := by
  unfold readVersion
  refine (readUint_reads _).bind_pure ?_
  have hlt : v.toUInt64.toNat < 2 ^ 32 := by simpa using v.toNat_lt
  rw [if_pos hlt]
  simpa using Reads.pure v

/-- The two's complement of a negative `i64`. -/
theorem toNat_toUInt64_of_neg {i : Int64} (h : i.toInt < 0) :
    (i.toUInt64.toNat : Int) = i.toInt + 2 ^ 64 := by
  have hbv : i.toInt = i.toBitVec.toInt := rfl
  have hnat : i.toUInt64.toNat = i.toBitVec.toNat := rfl
  have hcond := BitVec.toInt_eq_toNat_cond i.toBitVec
  have hlt := i.toBitVec.isLt
  rw [hbv] at h ⊢
  rw [hnat]
  split_ifs at hcond <;> omega

/-! A byte, a word or a double word holding the two's complement of a small
negative number reads back, sign-extended, as that number. -/

theorem toInt_toInt8_of_neg {b : UInt8} {k : Int} (hlo : -0x80 ≤ k) (hneg : k < 0)
    (hb : (b.toNat : Int) = k + 2 ^ 8) : b.toInt8.toInt = k := by
  have hbv : b.toInt8.toInt = b.toBitVec.toInt := rfl
  have hnat : b.toNat = b.toBitVec.toNat := rfl
  rw [hbv, BitVec.toInt_eq_toNat_cond]
  split_ifs <;> omega

theorem toInt_toInt16_of_neg {b : UInt16} {k : Int} (hlo : -0x8000 ≤ k) (hneg : k < 0)
    (hb : (b.toNat : Int) = k + 2 ^ 16) : b.toInt16.toInt = k := by
  have hbv : b.toInt16.toInt = b.toBitVec.toInt := rfl
  have hnat : b.toNat = b.toBitVec.toNat := rfl
  rw [hbv, BitVec.toInt_eq_toNat_cond]
  split_ifs <;> omega

theorem toInt_toInt32_of_neg {b : UInt32} {k : Int} (hlo : -0x80000000 ≤ k) (hneg : k < 0)
    (hb : (b.toNat : Int) = k + 2 ^ 32) : b.toInt32.toInt = k := by
  have hbv : b.toInt32.toInt = b.toBitVec.toInt := rfl
  have hnat : b.toNat = b.toBitVec.toNat := rfl
  rw [hbv, BitVec.toInt_eq_toNat_cond]
  split_ifs <;> omega

/-! ## Strings and binaries -/

/-- A string short enough for a MessagePack header. -/
def strFits (s : String) : Prop := (utf8 s).length < 2 ^ 32

theorem fromUtf8_utf8 (err : DecodeError) (s : String) :
    fromUtf8 err (utf8 s) = (pure s : Dec String) := by
  have hbytes : String.fromUTF8? ⟨(utf8 s).toArray⟩ = some s := by
    rw [String.fromUTF8?, dif_pos (by simpa [utf8] using s.isValidUTF8)]
    rfl
  rw [fromUtf8, hbytes]

theorem readStr_reads {s : String} (hs : strFits s) : Reads readStr (writeStr s) s := by
  unfold readStr writeStr
  refine (readStrHeader_reads hs).bind ?_
  refine (Reads.take rfl).bind_pure ?_
  rw [fromUtf8_utf8]
  exact Reads.pure s

theorem readBin_reads {b : Bytes} (hb : b.length < 2 ^ 32) : Reads readBin (writeBin b) b := by
  unfold readBin writeBin
  exact (readBinHeader_reads hb).bind (Reads.take rfl)

end Quoin.Proto
