import Mathlib
import Quoin.Proto.Scalars

/-!
# Quoin — structured values round-trip

`read_dv` reads back what `write_dv` wrote, for every value nested at most
`maxDvDepth` deep. The reader is one big `match` on a marker byte, the writer
picks the marker by shape and size; each section below takes the markers of
one writer and shows that the arm of `readDvMarker` they select undoes it.
`readDvRoom_reads` then puts the arms together, by induction on the room left
under the nesting bound: a collection's children are read one level down,
where there is still room for what they nest (`nesting_lt_of_mem_items`).
-/

namespace Quoin.Proto

open Wire

variable {inner : Dec DataValue}

/-- A value whose lengths fit their MessagePack headers: every string, binary
and array below 2^32, and every ext payload of a resource too. -/
structure Fits (dv : DataValue) : Prop where
  lengths : ∀ n ∈ dv.lengths, n < 2 ^ 32
  payloads : ∀ n ∈ dv.payloads, n < 2 ^ 32

theorem Fits.of_parts {dv part : DataValue} (h : Fits dv)
    (hsub : ∀ p ∈ part.parts, p ∈ dv.parts) : Fits part := by
  constructor
  · intro n hn
    obtain ⟨p, hp, hnp⟩ := List.mem_flatMap.mp hn
    exact h.lengths n (List.mem_flatMap.mpr ⟨p, hsub p hp, hnp⟩)
  · intro n hn
    obtain ⟨p, hp, hnp⟩ := List.mem_flatMap.mp hn
    exact h.payloads n (List.mem_flatMap.mpr ⟨p, hsub p hp, hnp⟩)

theorem Fits.node {dv : DataValue} (h : Fits dv) {n : Nat} (hn : n ∈ dv.nodeLengths) :
    n < 2 ^ 32 :=
  h.lengths n (List.mem_flatMap.mpr ⟨dv, dv.mem_parts_self, hn⟩)

theorem Fits.item {items : List DataValue} (h : Fits (.list items)) {item : DataValue}
    (hmem : item ∈ items) : Fits item :=
  h.of_parts fun p hp => by
    rw [DataValue.parts]
    exact List.mem_cons_of_mem _ (mem_itemsParts hmem hp)

theorem Fits.entry {entries : List (String × DataValue)} (h : Fits (.map entries))
    {entry : String × DataValue} (hmem : entry ∈ entries) : Fits entry.2 :=
  h.of_parts fun p hp => by
    rw [DataValue.parts]
    exact List.mem_cons_of_mem _ (mem_entriesParts hmem hp)

theorem Fits.key {entries : List (String × DataValue)} (h : Fits (.map entries))
    {entry : String × DataValue} (hmem : entry ∈ entries) : strFits entry.1 := by
  refine h.node ?_
  rw [DataValue.nodeLengths]
  exact List.mem_cons_of_mem _ (List.mem_map.mpr ⟨entry, hmem, rfl⟩)

/-! ## Integers -/

theorem readDvMarker_posFixint {m : UInt8} (h : m ≤ 0x7f) :
    readDvMarker inner m = pure (.int m.toUInt64.toInt64) := by
  rw [readDvMarker, if_pos h]

theorem readDvMarker_negFixint {m : UInt8} (h : 0xe0 ≤ m) :
    readDvMarker inner m = pure (.int m.toInt8.toInt64) := by
  have hbig : ¬ m ≤ 0x7f := by
    rw [UInt8.le_iff_toNat_le] at h ⊢
    simp only [UInt8.reduceToNat] at h ⊢
    omega
  rw [readDvMarker, if_neg hbig, if_pos h]

theorem int64_eq_of_toInt {i j : Int64} (h : i.toInt = j.toInt) : i = j :=
  Int64.toInt_inj.mp h

/-- A non-negative `i64` read back through `u64`. -/
theorem readDvBody_writeUint {v : UInt64} (hv : v.toNat < 2 ^ 63) :
    Reads (readDvBody inner) (writeUint v) (.int v.toInt64) := by
  unfold readDvBody writeUint
  split_ifs with h7f hff hffff hffffffff
  · obtain ⟨hle, hback⟩ := posFixint_spec h7f
    refine (takeU8_reads _).bind_pure ?_
    rw [readDvMarker_posFixint hle, hback]
    exact Reads.pure _
  · refine (takeU8_reads 0xcc).bind ?_
    refine (takeU8_reads_ofNat _).bind_pure ?_
    rw [toUInt64_ofNat8 (UInt64.le_iff_toNat_le.mp hff)]
    exact Reads.pure _
  · refine (takeU8_reads 0xcd).bind ?_
    refine (takeU16_reads _).bind_pure ?_
    rw [toUInt64_ofNat16 (UInt64.le_iff_toNat_le.mp hffff)]
    exact Reads.pure _
  · refine (takeU8_reads 0xce).bind ?_
    refine (takeU32_reads _).bind_pure ?_
    rw [toUInt64_ofNat32 (UInt64.le_iff_toNat_le.mp hffffffff)]
    exact Reads.pure _
  · refine (takeU8_reads 0xcf).bind ?_
    refine (takeU64_reads _).bind_pure ?_
    rw [UInt64.ofNat_toNat, if_pos hv]
    exact Reads.pure _

/-- The bounds a signed comparison with a literal gives. -/
theorem toInt_lt_of_not_le {i j : Int64} (h : ¬ j ≤ i) : i.toInt < j.toInt := by
  rw [Int64.le_iff_toInt_le] at h
  omega

theorem readDvBody_writeInt (i : Int64) : Reads (readDvBody inner) (writeInt i) (.int i) := by
  unfold writeInt
  split_ifs with h0 h32 h80 h8000 h80000000
  · have hback : i.toUInt64.toInt64 = i := by simp
    have hv : i.toUInt64.toNat < 2 ^ 63 := by
      have hnonneg : 0 ≤ i.toInt := Int64.le_iff_toInt_le.mp h0
      have hbv : i.toInt = i.toBitVec.toInt := rfl
      have hnat : i.toUInt64.toNat = i.toBitVec.toNat := rfl
      have hcond := BitVec.toInt_eq_toNat_cond i.toBitVec
      have hlt := i.toBitVec.isLt
      split_ifs at hcond <;> omega
    simpa only [hback] using (readDvBody_writeUint hv : Reads (readDvBody inner) _ _)
  -- a negative value: `k` is it, and each width holds its two's complement
  all_goals
    unfold readDvBody
    have hneg : i.toInt < 0 := toInt_lt_of_not_le h0
    have htwo := toNat_toUInt64_of_neg hneg
  · have hlo : -32 ≤ i.toInt := Int64.le_iff_toInt_le.mp h32
    have hbyte : (i.toUInt64.toUInt8.toNat : Int) = i.toInt + 2 ^ 8 := by
      rw [UInt64.toNat_toUInt8]
      omega
    have hmark : 0xe0 ≤ i.toUInt64.toUInt8 := by
      rw [UInt8.le_iff_toNat_le]
      simp only [UInt8.reduceToNat]
      omega
    have hback : i.toUInt64.toUInt8.toInt8.toInt64 = i := by
      apply int64_eq_of_toInt
      rw [Int8.toInt_toInt64]
      exact toInt_toInt8_of_neg (by omega) hneg hbyte
    refine (takeU8_reads _).bind_pure ?_
    rw [readDvMarker_negFixint hmark, hback]
    exact Reads.pure _
  · have hlo : -0x80 ≤ i.toInt := Int64.le_iff_toInt_le.mp h80
    have hbyte : ((UInt8.ofNat i.toUInt64.toNat).toNat : Int) = i.toInt + 2 ^ 8 := by
      rw [UInt8.toNat_ofNat']
      omega
    have hback : (UInt8.ofNat i.toUInt64.toNat).toInt8.toInt64 = i := by
      apply int64_eq_of_toInt
      rw [Int8.toInt_toInt64]
      exact toInt_toInt8_of_neg hlo hneg hbyte
    refine (takeU8_reads 0xd0).bind ?_
    refine (takeU8_reads_ofNat _).bind_pure ?_
    rw [hback]
    exact Reads.pure _
  · have hlo : -0x8000 ≤ i.toInt := Int64.le_iff_toInt_le.mp h8000
    have hword : ((UInt16.ofNat i.toUInt64.toNat).toNat : Int) = i.toInt + 2 ^ 16 := by
      rw [UInt16.toNat_ofNat']
      omega
    have hback : (UInt16.ofNat i.toUInt64.toNat).toInt16.toInt64 = i := by
      apply int64_eq_of_toInt
      rw [Int16.toInt_toInt64]
      exact toInt_toInt16_of_neg hlo hneg hword
    refine (takeU8_reads 0xd1).bind ?_
    refine (takeU16_reads _).bind_pure ?_
    rw [hback]
    exact Reads.pure _
  · have hlo : -0x80000000 ≤ i.toInt := Int64.le_iff_toInt_le.mp h80000000
    have hdouble : ((UInt32.ofNat i.toUInt64.toNat).toNat : Int) = i.toInt + 2 ^ 32 := by
      rw [UInt32.toNat_ofNat']
      omega
    have hback : (UInt32.ofNat i.toUInt64.toNat).toInt32.toInt64 = i := by
      apply int64_eq_of_toInt
      rw [Int32.toInt_toInt64]
      exact toInt_toInt32_of_neg hlo hneg hdouble
    refine (takeU8_reads 0xd2).bind ?_
    refine (takeU32_reads _).bind_pure ?_
    rw [hback]
    exact Reads.pure _
  · have hback : (UInt64.ofNat i.toUInt64.toNat).toInt64 = i := by simp
    refine (takeU8_reads 0xd3).bind ?_
    refine (takeU64_reads _).bind_pure ?_
    rw [hback]
    exact Reads.pure _

/-! ## Strings, binaries and extensions -/

theorem readStrDv_reads {s : String} : Reads (readStrDv (utf8 s).length) (utf8 s) (.str s) := by
  unfold readStrDv
  refine (Reads.take rfl).bind_pure ?_
  rw [fromUtf8_utf8]
  exact Reads.pure _

/-- A `fixstr` marker selects the string arm with its low five bits. -/
theorem readDvMarker_fixstr {n : Nat} (hn : n < 32) :
    readDvMarker inner (0xa0 ||| UInt8.ofNat n) = readStrDv n := by
  interval_cases n <;> rfl

theorem readDvMarker_fixarray {n : Nat} (hn : n < 16) :
    readDvMarker inner (0x90 ||| UInt8.ofNat n) = readList inner n := by
  interval_cases n <;> rfl

theorem readDvMarker_fixmap {n : Nat} (hn : n < 16) :
    readDvMarker inner (0x80 ||| UInt8.ofNat n) = readMap inner n := by
  interval_cases n <;> rfl

theorem readDvBody_writeStr {s : String} (hs : strFits s) :
    Reads (readDvBody inner) (writeStr s) (.str s) := by
  unfold readDvBody writeStr writeStrHeader
  split_ifs with h32 h256 h65536
  · refine (takeU8_reads _).bind ?_
    rw [readDvMarker_fixstr h32]
    exact readStrDv_reads
  · refine (takeU8_reads 0xd9).bind (c := beBytes 1 _ ++ utf8 s) ?_
    refine (takeU8_reads_ofNat _).bind ?_
    rw [UInt8.toNat_ofNat_of_lt' h256]
    exact readStrDv_reads
  · refine (takeU8_reads 0xda).bind (c := beBytes 2 _ ++ utf8 s) ?_
    refine (takeU16_reads _).bind ?_
    rw [UInt16.toNat_ofNat_of_lt' h65536]
    exact readStrDv_reads
  · refine (takeU8_reads 0xdb).bind (c := beBytes 4 _ ++ utf8 s) ?_
    refine (takeU32_reads _).bind ?_
    rw [UInt32.toNat_ofNat_of_lt' hs]
    exact readStrDv_reads

theorem readDvBody_writeBin {b : Bytes} (hb : b.length < 2 ^ 32) :
    Reads (readDvBody inner) (writeBin b) (.bytes b) := by
  have hbytes : Reads (take b.length >>= fun b => pure (DataValue.bytes b)) b (.bytes b) :=
    (Reads.take rfl).bind_pure (Reads.pure _)
  unfold readDvBody writeBin writeBinHeader
  split_ifs with h256 h65536
  · refine (takeU8_reads 0xc4).bind (c := beBytes 1 _ ++ b) ?_
    refine (takeU8_reads_ofNat _).bind ?_
    rw [UInt8.toNat_ofNat_of_lt' h256]
    exact hbytes
  · refine (takeU8_reads 0xc5).bind (c := beBytes 2 _ ++ b) ?_
    refine (takeU16_reads _).bind ?_
    rw [UInt16.toNat_ofNat_of_lt' h65536]
    exact hbytes
  · refine (takeU8_reads 0xc6).bind (c := beBytes 4 _ ++ b) ?_
    refine (takeU32_reads _).bind ?_
    rw [UInt32.toNat_ofNat_of_lt' hb]
    exact hbytes

/-- An ext value reads back through whatever its payload parser makes of it.
The five fixed ext sizes have no length byte. -/
theorem readDvBody_writeExt {ty : UInt8} {payload : Bytes} {dv : DataValue}
    (hlen : payload.length < 2 ^ 32) (hpay : extPayload ty.toInt8 payload = pure dv) :
    Reads (readDvBody inner) (writeExt ty payload) dv := by
  have hext : ∀ n, payload.length = n → Reads (readExt n) (ty :: payload) dv := by
    intro n hn
    unfold readExt
    refine (takeU8_reads ty).bind (c := payload) ?_
    refine (Reads.take hn).bind_pure ?_
    rw [hpay]
    exact Reads.pure dv
  unfold readDvBody writeExt writeExtHeader
  split_ifs with h1 h2 h4 h8 h16 h256 h65536
  · exact (takeU8_reads 0xd4).bind (hext 1 h1)
  · exact (takeU8_reads 0xd5).bind (hext 2 h2)
  · exact (takeU8_reads 0xd6).bind (hext 4 h4)
  · exact (takeU8_reads 0xd7).bind (hext 8 h8)
  · exact (takeU8_reads 0xd8).bind (hext 16 h16)
  · refine (takeU8_reads 0xc7).bind (c := beBytes 1 _ ++ ty :: payload) ?_
    refine (takeU8_reads_ofNat _).bind (hext _ ?_)
    rw [UInt8.toNat_ofNat_of_lt' h256]
  · refine (takeU8_reads 0xc8).bind (c := beBytes 2 _ ++ ty :: payload) ?_
    refine (takeU16_reads _).bind (hext _ ?_)
    rw [UInt16.toNat_ofNat_of_lt' h65536]
  · refine (takeU8_reads 0xc9).bind (c := beBytes 4 _ ++ ty :: payload) ?_
    refine (takeU32_reads _).bind (hext _ ?_)
    rw [UInt32.toNat_ofNat_of_lt' hlen]

theorem extPayload_resource (id : UInt64) (className : String) :
    extPayload (3 : UInt8).toInt8 (resourcePayload id className)
      = pure (.resource id className) := by
  have hid : ofLE (leBytes 8 id.toNat) = id.toNat := ofLE_leBytes id.toNat_lt
  have hlong : ¬ (resourcePayload id className).length < 8 := by
    simp [resourcePayload]
  have htake : (resourcePayload id className).take 8 = leBytes 8 id.toNat := by
    simp [resourcePayload]
  have hdrop : (resourcePayload id className).drop 8 = utf8 className := by
    simp [resourcePayload]
  show (if (resourcePayload id className).length < 8 then throw .resourcePayloadShort
    else do
      return DataValue.resource (UInt64.ofNat (ofLE ((resourcePayload id className).take 8)))
        (← fromUtf8 .resourceNameNotUtf8 ((resourcePayload id className).drop 8)) : Dec DataValue)
      = pure (.resource id className)
  rw [if_neg hlong, htake, hdrop, hid, UInt64.ofNat_toNat, fromUtf8_utf8]
  rfl

theorem extPayload_bigInt (s : String) :
    extPayload (1 : UInt8).toInt8 (utf8 s) = pure (.bigInt s) := by
  show (do return DataValue.bigInt (← fromUtf8 (.payloadNotUtf8 "BigInt") (utf8 s)) :
    Dec DataValue) = pure (.bigInt s)
  rw [fromUtf8_utf8]
  rfl

theorem extPayload_decimal (s : String) :
    extPayload (2 : UInt8).toInt8 (utf8 s) = pure (.decimal s) := by
  show (do return DataValue.decimal (← fromUtf8 (.payloadNotUtf8 "Decimal") (utf8 s)) :
    Dec DataValue) = pure (.decimal s)
  rw [fromUtf8_utf8]
  rfl

/-! ## Collections -/

theorem writeItems_eq (items : List DataValue) : writeItems items = items.flatMap writeDv := by
  induction items with
  | nil => rfl
  | cons item rest ih => rw [writeItems, List.flatMap_cons, ih]

/-- One entry's bytes: the key as a string, then the value. -/
def writeEntry (entry : String × DataValue) : Bytes := writeStr entry.1 ++ writeDv entry.2

theorem writeEntries_eq (entries : List (String × DataValue)) :
    writeEntries entries = entries.flatMap writeEntry := by
  induction entries with
  | nil => rfl
  | cons entry rest ih =>
    rw [writeEntries, List.flatMap_cons, ih]
    rfl

theorem readList_reads {items : List DataValue}
    (h : ∀ item ∈ items, Reads inner (writeDv item) item) :
    Reads (readList inner items.length) (writeItems items) (.list items) := by
  unfold readList
  rw [writeItems_eq]
  exact (Reads.repeatN h).bind_pure (Reads.pure _)

theorem readEntry_reads {entry : String × DataValue}
    (hkey : Reads inner (writeStr entry.1) (.str entry.1))
    (hvalue : Reads inner (writeDv entry.2) entry.2) :
    Reads (readEntry inner) (writeEntry entry) entry := by
  unfold readEntry writeEntry
  exact hkey.bind (hvalue.bind_pure (Reads.pure _))

theorem readMap_reads {entries : List (String × DataValue)}
    (h : ∀ entry ∈ entries, Reads (readEntry inner) (writeEntry entry) entry) :
    Reads (readMap inner entries.length) (writeEntries entries) (.map entries) := by
  unfold readMap
  rw [writeEntries_eq]
  exact (Reads.repeatN h).bind_pure (Reads.pure _)

/-- Past a list's header, what is left to read is its items. -/
theorem readDvBody_arrayHeader {n : Nat} (hn : n < 2 ^ 32) (rd : Bytes) :
    readDvBody inner (writeArrayHeader n ++ rd) = readList inner n rd := by
  unfold readDvBody writeArrayHeader
  split_ifs with h16 h65536
  · rw [(takeU8_reads _).bind_run, readDvMarker_fixarray h16]
  · rw [List.cons_append, ← List.singleton_append, (takeU8_reads 0xdc).bind_run]
    show (takeU16 >>= fun k => readList inner k.toNat) (beBytes 2 n ++ rd) = _
    rw [(takeU16_reads n).bind_run, UInt16.toNat_ofNat_of_lt' h65536]
  · rw [List.cons_append, ← List.singleton_append, (takeU8_reads 0xdd).bind_run]
    show (takeU32 >>= fun k => readList inner k.toNat) (beBytes 4 n ++ rd) = _
    rw [(takeU32_reads n).bind_run, UInt32.toNat_ofNat_of_lt' hn]

theorem readDvBody_mapHeader {n : Nat} (hn : n < 2 ^ 32) (rd : Bytes) :
    readDvBody inner (writeMapHeader n ++ rd) = readMap inner n rd := by
  unfold readDvBody writeMapHeader
  split_ifs with h16 h65536
  · rw [(takeU8_reads _).bind_run, readDvMarker_fixmap h16]
  · rw [List.cons_append, ← List.singleton_append, (takeU8_reads 0xde).bind_run]
    show (takeU16 >>= fun k => readMap inner k.toNat) (beBytes 2 n ++ rd) = _
    rw [(takeU16_reads n).bind_run, UInt16.toNat_ofNat_of_lt' h65536]
  · rw [List.cons_append, ← List.singleton_append, (takeU8_reads 0xdf).bind_run]
    show (takeU32 >>= fun k => readMap inner k.toNat) (beBytes 4 n ++ rd) = _
    rw [(takeU32_reads n).bind_run, UInt32.toNat_ofNat_of_lt' hn]

theorem readDvBody_writeList {items : List DataValue} (hlen : items.length < 2 ^ 32)
    (h : ∀ item ∈ items, Reads inner (writeDv item) item) :
    Reads (readDvBody inner) (writeDv (.list items)) (.list items) := by
  intro rest
  rw [writeDv, List.append_assoc, readDvBody_arrayHeader hlen]
  exact readList_reads h rest

theorem readDvBody_writeMap {entries : List (String × DataValue)}
    (hlen : entries.length < 2 ^ 32)
    (h : ∀ entry ∈ entries, Reads (readEntry inner) (writeEntry entry) entry) :
    Reads (readDvBody inner) (writeDv (.map entries)) (.map entries) := by
  intro rest
  rw [writeDv, List.append_assoc, readDvBody_mapHeader hlen]
  exact readMap_reads h rest

/-! ## The whole value -/

/-- A value that is no collection is read without going down a level. -/
theorem readDvBody_writeLeaf {dv : DataValue} (hlist : ∀ items, dv ≠ .list items)
    (hmap : ∀ entries, dv ≠ .map entries) (hfits : Fits dv) :
    Reads (readDvBody inner) (writeDv dv) dv := by
  cases dv with
  | null => exact (takeU8_reads 0xc0).bind_pure (Reads.pure _)
  | bool b =>
    cases b
    · exact (takeU8_reads 0xc2).bind_pure (Reads.pure _)
    · exact (takeU8_reads 0xc3).bind_pure (Reads.pure _)
  | int i =>
    rw [writeDv]
    exact readDvBody_writeInt i
  | bigInt digits =>
    rw [writeDv]
    exact readDvBody_writeExt (hfits.node (by simp [DataValue.nodeLengths]))
      (extPayload_bigInt digits)
  | float f =>
    rw [writeDv]
    refine (takeU8_reads 0xcb).bind (c := beBytes 8 _) ?_
    refine (takeU64_reads _).bind_pure ?_
    rw [UInt64.ofNat_toNat]
    exact Reads.pure _
  | decimal text =>
    rw [writeDv]
    exact readDvBody_writeExt (hfits.node (by simp [DataValue.nodeLengths]))
      (extPayload_decimal text)
  | str s =>
    rw [writeDv]
    exact readDvBody_writeStr (hfits.node (by simp [DataValue.nodeLengths]))
  | bytes b =>
    rw [writeDv]
    exact readDvBody_writeBin (hfits.node (by simp [DataValue.nodeLengths]))
  | list items => exact absurd rfl (hlist items)
  | map entries => exact absurd rfl (hmap entries)
  | resource id className =>
    rw [writeDv]
    refine readDvBody_writeExt ?_ (extPayload_resource id className)
    refine hfits.payloads _ ?_
    simp [DataValue.payloads, DataValue.parts, DataValue.nodePayloads, resourcePayload]

/-- With more room than the value nests, the reader reads back what the writer
wrote. -/
theorem readDvRoom_reads :
    ∀ {room : Nat} {dv : DataValue}, dv.nesting < room → Fits dv →
      Reads (readDvRoom room) (writeDv dv) dv := by
  intro room
  induction room with
  | zero =>
    intro dv hnest
    omega
  | succ room ih =>
    intro dv hnest hfits
    rw [readDvRoom]
    cases dv with
    | list items =>
      rw [DataValue.nesting] at hnest
      refine readDvBody_writeList (hfits.node (by simp [DataValue.nodeLengths])) ?_
      intro item hmem
      have := nesting_lt_of_mem_items hmem
      exact ih (by omega) (hfits.item hmem)
    | map entries =>
      rw [DataValue.nesting] at hnest
      refine readDvBody_writeMap (hfits.node (by simp [DataValue.nodeLengths])) ?_
      intro entry hmem
      have := nesting_lt_of_mem_entries hmem
      refine readEntry_reads ?_ (ih (by omega) (hfits.entry hmem))
      -- the key is a value one level down as well: there is room for one
      obtain ⟨r, rfl⟩ : ∃ r, room = r + 1 := ⟨room - 1, by omega⟩
      exact readDvBody_writeStr (hfits.key hmem)
    | _ => exact readDvBody_writeLeaf (by simp) (by simp) hfits

theorem readDv_reads {dv : DataValue} (hnest : dv.nesting ≤ maxDvDepth) (hfits : Fits dv) :
    Reads (readDv 0) (writeDv dv) dv :=
  readDvRoom_reads (by omega) hfits

/-- **The bare blob round-trips.** -/
theorem unpackDv_packDv {dv : DataValue} (hnest : dv.nesting ≤ maxDvDepth) (hfits : Fits dv) :
    unpackDv (packDv dv) = .ok dv := by
  have hread := readDv_reads hnest hfits []
  rw [List.append_nil] at hread
  rw [unpackDv, packDv, hread]
  rfl

end Quoin.Proto
