import Mathlib
import Quoin.Proto.Skip

/-!
# Quoin — the integers of a frame, on the wire and in the message

`decode_frame_with_meta` reads every integer as 64 bits and then puts it into
a field of the message. Here the same frame is read a second time by someone
interested in its integers only: each one as the mathematical number its
MessagePack encoding stands for (`wireInt`), field after field of the frame
type (`frameFields`), no width anywhere. `Msg.ints` lists the integers of the
decoded message in the same order.

Main results:

* `tracks_readDv` — the integers inside a structured value are those on the wire.
* `decoded_integers` — so are those of a whole message, unless the frame is a
  `Chan` whose kind, or a `ManifestReturn` whose lane count, is wider than its
  field: those two are cut down (`as u8`, `as u32`) where `read_version`
  refuses.
-/

namespace Quoin.Proto

open Wire

/-! ## Numbers as the format has them -/

/-- What `n` stands for in two's complement on `bits` bits. -/
def signed (bits n : Nat) : ℤ := if 2 * n < 2 ^ bits then n else (n : ℤ) - 2 ^ bits

/-- The integer an integer marker starts. -/
def wireIntMarker (m : UInt8) : Dec ℤ := do
  if m ≤ 0x7f then pure m.toNat
  else if 0xe0 ≤ m then pure (signed 8 m.toNat)
  else if m = 0xcc then return ofBE (← take 1)
  else if m = 0xcd then return ofBE (← take 2)
  else if m = 0xce then return ofBE (← take 4)
  else if m = 0xcf then return ofBE (← take 8)
  else if m = 0xd0 then return signed 8 (ofBE (← take 1))
  else if m = 0xd1 then return signed 16 (ofBE (← take 2))
  else if m = 0xd2 then return signed 32 (ofBE (← take 4))
  else if m = 0xd3 then return signed 64 (ofBE (← take 8))
  else throw (.expectedUint m)

def wireInt : Dec ℤ := do wireIntMarker (← takeU8)

/-! ## The integers of a structured value -/

/-- The number a text spells in decimal digits, if it does. -/
def textInts (s : String) : List ℤ := s.toNat?.toList.map Nat.cast

/-- The integers of an extension value: a resource's id, a BigInt's number. -/
def extInts (ty : Int8) (payload : Bytes) : List ℤ :=
  if ty = 1 then ((String.fromUTF8? ⟨payload.toArray⟩).map textInts).getD []
  else if ty = 3 then [(ofLE (payload.take 8) : ℤ)]
  else []

def wireExt (n : Nat) : Dec (List ℤ) := do
  let ty := (← takeU8).toInt8
  return extInts ty (← take n)

/-- A counted collection: its count, then what its members hold. -/
def wireMembers (member : Dec (List ℤ)) (n : Nat) : Dec (List ℤ) := do
  return (n : ℤ) :: (← Reader.repeatN member n).flatten

/-- A map entry: a key, then a value. -/
def wireEntry (inner : Dec (List ℤ)) : Dec (List ℤ) := do
  return (← inner) ++ (← inner)

/-- The integers of the value that the marker `m` starts; `inner` reads one level
down. -/
def wireValueMarker (inner : Dec (List ℤ)) (m : UInt8) : Dec (List ℤ) := do
  if m ≤ 0x7f ∨ 0xe0 ≤ m ∨ (0xcc ≤ m ∧ m ≤ 0xd3) then return [← wireIntMarker m]
  else if 0x90 ≤ m ∧ m ≤ 0x9f then wireMembers inner (m &&& 0x0f).toNat
  else if m = 0xdc then wireMembers inner (← takeU16).toNat
  else if m = 0xdd then wireMembers inner (← takeU32).toNat
  else if 0x80 ≤ m ∧ m ≤ 0x8f then wireMembers (wireEntry inner) (m &&& 0x0f).toNat
  else if m = 0xde then wireMembers (wireEntry inner) (← takeU16).toNat
  else if m = 0xdf then wireMembers (wireEntry inner) (← takeU32).toNat
  else if m = 0xd4 then wireExt 1
  else if m = 0xd5 then wireExt 2
  else if m = 0xd6 then wireExt 4
  else if m = 0xd7 then wireExt 8
  else if m = 0xd8 then wireExt 16
  else if m = 0xc7 then wireExt (← takeU8).toNat
  else if m = 0xc8 then wireExt (← takeU16).toNat
  else if m = 0xc9 then wireExt (← takeU32).toNat
  else
    -- nil, a boolean, a float, text or binary data
    skipValueMarker (throw .reservedMarker) m
    pure []

/-- The integers of one value, `room` levels of nesting left. -/
def wireValueRoom : (room : Nat) → Dec (List ℤ)
  | 0 => throw .nestingTooDeep
  | room + 1 => do wireValueMarker (wireValueRoom room) (← takeU8)

def wireValue : Dec (List ℤ) := wireValueRoom (maxDvDepth + 1)

/-- The integers one node of a value holds itself: a number kept as a BigInt is
still that number. -/
def DataValue.nodeInts : DataValue → List ℤ
  | .int i => [i.toInt]
  | .bigInt digits => textInts digits
  | .resource id _ => [(id.toNat : ℤ)]
  | .list items => [(items.length : ℤ)]
  | .map entries => [(entries.length : ℤ)]
  | _ => []

/-- Every integer of a value, in wire order. -/
def DataValue.ints (dv : DataValue) : List ℤ := dv.parts.flatMap DataValue.nodeInts

theorem DataValue.ints_bigInt (digits : String) :
    (DataValue.bigInt digits).ints = textInts digits := by
  simp [DataValue.ints, DataValue.parts, DataValue.nodeInts]

/-- A number's own digits spell it. -/
theorem textInts_toString (n : Nat) : textInts (toString n) = [(n : ℤ)] := by
  have hDigits : (toString n).toNat? = some n := Nat.toNat?_repr n
  rw [textInts, hDigits]
  rfl

theorem DataValue.ints_list (items : List DataValue) :
    (DataValue.list items).ints = (items.length : ℤ) :: items.flatMap DataValue.ints := by
  have hItems : (itemsParts items).flatMap DataValue.nodeInts
      = items.flatMap DataValue.ints := by
    induction items with
    | nil => rfl
    | cons item rest ih =>
      rw [itemsParts, List.flatMap_append, ih]
      rfl
  rw [DataValue.ints, DataValue.parts, List.flatMap_cons, hItems]
  rfl

theorem DataValue.ints_map (entries : List (String × DataValue)) :
    (DataValue.map entries).ints
      = (entries.length : ℤ) :: entries.flatMap fun entry => entry.2.ints := by
  have hEntries : (entriesParts entries).flatMap DataValue.nodeInts
      = entries.flatMap fun entry => entry.2.ints := by
    induction entries with
    | nil => rfl
    | cons entry rest ih =>
      rw [entriesParts, List.flatMap_append, ih]
      rfl
  rw [DataValue.ints, DataValue.parts, List.flatMap_cons, hEntries]
  rfl

/-! ## Machine integers keep their number -/

theorem ofBE_lt (bs : Bytes) : ofBE bs < 256 ^ bs.length := by
  rw [← List.length_reverse, ofBE]
  generalize bs.reverse = rev
  induction rev with
  | nil => simp [ofLE]
  | cons b rev ih =>
    have hb := b.toNat_lt
    rw [ofLE, List.length_cons, pow_succ]
    omega

theorem toInt_toInt64 {v : UInt64} (h : v.toNat < 2 ^ 63) : v.toInt64.toInt = v.toNat := by
  have hbv : v.toInt64.toInt = v.toBitVec.toInt := rfl
  have hnat : v.toNat = v.toBitVec.toNat := rfl
  rw [hbv, BitVec.toInt_eq_toNat_cond]
  split_ifs <;> omega

/-! The signed readings, width by width. -/

theorem toInt_toInt8 (v : UInt8) : v.toInt8.toInt = signed 8 v.toNat := by
  have hbv : v.toInt8.toInt = v.toBitVec.toInt := rfl
  have hnat : v.toNat = v.toBitVec.toNat := rfl
  rw [hbv, hnat, signed, BitVec.toInt_eq_toNat_cond]
  norm_cast

theorem toInt_toInt16 (v : UInt16) : v.toInt16.toInt = signed 16 v.toNat := by
  have hbv : v.toInt16.toInt = v.toBitVec.toInt := rfl
  have hnat : v.toNat = v.toBitVec.toNat := rfl
  rw [hbv, hnat, signed, BitVec.toInt_eq_toNat_cond]
  norm_cast

theorem toInt_toInt32 (v : UInt32) : v.toInt32.toInt = signed 32 v.toNat := by
  have hbv : v.toInt32.toInt = v.toBitVec.toInt := rfl
  have hnat : v.toNat = v.toBitVec.toNat := rfl
  rw [hbv, hnat, signed, BitVec.toInt_eq_toNat_cond]
  norm_cast

theorem toInt_toInt64_signed (v : UInt64) : v.toInt64.toInt = signed 64 v.toNat := by
  have hbv : v.toInt64.toInt = v.toBitVec.toInt := rfl
  have hnat : v.toNat = v.toBitVec.toNat := rfl
  rw [hbv, hnat, signed, BitVec.toInt_eq_toNat_cond]
  norm_cast

theorem toNat_toUInt64_of_nonneg {i : Int64} (h : 0 ≤ i) : (i.toUInt64.toNat : ℤ) = i.toInt := by
  have hbv : i.toInt = i.toBitVec.toInt := rfl
  have hnat : i.toUInt64.toNat = i.toBitVec.toNat := rfl
  have hcond := BitVec.toInt_eq_toNat_cond i.toBitVec
  have hlt := i.toBitVec.isLt
  have hge : 0 ≤ i.toInt := by simpa using Int64.le_iff_toInt_le.mp h
  rw [hbv] at hge ⊢
  rw [hnat]
  split_ifs at hcond <;> omega

/-! ## Integers are read as they stand -/

section Reading

variable {α β : Type} {R : α → β → Prop}

theorem tracks_take {n : Nat} {f : Bytes → Dec α} {g : Bytes → Dec β}
    (h : ∀ bs, bs.length = n → Tracks R (f bs) (g bs)) :
    Tracks R (take n >>= f) (take n >>= g) := by
  have hTake : Tracks (fun bs bs' => bs = bs' ∧ bs.length = n) (take n) (take n) := by
    intro rd bs rest hRead
    refine ⟨bs, hRead, rfl, ?_⟩
    unfold take Reader.take at hRead
    split_ifs at hRead with hShort
    injection hRead with hPair
    obtain ⟨rfl, -⟩ := Prod.mk.inj hPair
    rw [List.length_take]
    omega
  refine hTake.bind fun bs bs' hbs => ?_
  obtain ⟨rfl, hLen⟩ := hbs
  exact h bs hLen

/-! A fixed-width integer and the bytes it is read from. -/

theorem tracks_takeU8 {f : UInt8 → Dec α} {g : Bytes → Dec β}
    (h : ∀ v bs, ofBE bs = v.toNat → Tracks R (f v) (g bs)) :
    Tracks R (takeU8 >>= f) (take 1 >>= g) := by
  rw [takeU8, bind_assoc]
  refine tracks_take fun bs hLen => ?_
  rw [pure_bind]
  have hlt := ofBE_lt bs
  rw [hLen] at hlt
  exact h _ bs (UInt8.toNat_ofNat_of_lt' hlt).symm

theorem tracks_takeU16 {f : UInt16 → Dec α} {g : Bytes → Dec β}
    (h : ∀ v bs, ofBE bs = v.toNat → Tracks R (f v) (g bs)) :
    Tracks R (takeU16 >>= f) (take 2 >>= g) := by
  rw [takeU16, bind_assoc]
  refine tracks_take fun bs hLen => ?_
  rw [pure_bind]
  have hlt := ofBE_lt bs
  rw [hLen] at hlt
  exact h _ bs (UInt16.toNat_ofNat_of_lt' hlt).symm

theorem tracks_takeU32 {f : UInt32 → Dec α} {g : Bytes → Dec β}
    (h : ∀ v bs, ofBE bs = v.toNat → Tracks R (f v) (g bs)) :
    Tracks R (takeU32 >>= f) (take 4 >>= g) := by
  rw [takeU32, bind_assoc]
  refine tracks_take fun bs hLen => ?_
  rw [pure_bind]
  have hlt := ofBE_lt bs
  rw [hLen] at hlt
  exact h _ bs (UInt32.toNat_ofNat_of_lt' hlt).symm

theorem tracks_takeU64 {f : UInt64 → Dec α} {g : Bytes → Dec β}
    (h : ∀ v bs, ofBE bs = v.toNat → Tracks R (f v) (g bs)) :
    Tracks R (takeU64 >>= f) (take 8 >>= g) := by
  rw [takeU64, bind_assoc]
  refine tracks_take fun bs hLen => ?_
  rw [pure_bind]
  have hlt := ofBE_lt bs
  rw [hLen] at hlt
  exact h _ bs (UInt64.toNat_ofNat_of_lt' hlt).symm

end Reading

/-- An integer on the wire, and what `read_uint` makes of it. -/
abbrev SameInt (v : UInt64) (z : ℤ) : Prop := z = v.toNat

/-- A signed reading is refused, or is the number it is. -/
theorem tracks_nonNegative {i : Int64} {z : ℤ} (hz : z = i.toInt) :
    Tracks SameInt (nonNegative i) (pure z : Dec ℤ) := by
  refine Tracks.ite (fun hi => ?_) fun _ => Tracks.throw _
  refine Tracks.pure ?_
  rw [SameInt, toNat_toUInt64_of_nonneg hi]
  exact hz

/-- **`read_uint` narrows nothing**: what it answers is the integer on the wire. -/
theorem tracks_readUint : Tracks SameInt readUint wireInt := by
  refine Tracks.after fun m => ?_
  refine Tracks.ite (fun hm => ?_) fun _ => ?_
  · rw [wireIntMarker, if_pos hm]
    exact Tracks.pure (by simp [SameInt])
  refine Tracks.ite (fun hm => hm ▸ tracks_takeU8 fun v bs hv => ?_) fun _ => ?_
  · exact Tracks.pure (by simp [SameInt, hv])
  refine Tracks.ite (fun hm => hm ▸ tracks_takeU16 fun v bs hv => ?_) fun _ => ?_
  · exact Tracks.pure (by simp [SameInt, hv])
  refine Tracks.ite (fun hm => hm ▸ tracks_takeU32 fun v bs hv => ?_) fun _ => ?_
  · exact Tracks.pure (by simp [SameInt, hv])
  refine Tracks.ite (fun hm => ?_) fun _ => ?_
  · subst hm
    rw [← bind_pure takeU64]
    exact tracks_takeU64 fun v bs hv => Tracks.pure (by simp [SameInt, hv])
  -- the signed encodings
  refine Tracks.ite (fun hm => hm ▸ tracks_takeU8 fun v bs hv => ?_) fun _ => ?_
  · exact tracks_nonNegative (by rw [hv, Int8.toInt_toInt64, toInt_toInt8])
  refine Tracks.ite (fun hm => hm ▸ tracks_takeU16 fun v bs hv => ?_) fun _ => ?_
  · exact tracks_nonNegative (by rw [hv, Int16.toInt_toInt64, toInt_toInt16])
  refine Tracks.ite (fun hm => hm ▸ tracks_takeU32 fun v bs hv => ?_) fun _ => ?_
  · exact tracks_nonNegative (by rw [hv, Int32.toInt_toInt64, toInt_toInt32])
  refine Tracks.ite (fun hm => hm ▸ tracks_takeU64 fun v bs hv => ?_) fun _ => ?_
  · exact tracks_nonNegative (by rw [hv, toInt_toInt64_signed])
  exact Tracks.throw _

/-- `read_version` refuses what its field does not hold, and keeps the rest. -/
theorem tracks_readVersion :
    Tracks (fun (v : UInt32) (z : ℤ) => z = v.toNat) readVersion wireInt := by
  rw [← bind_pure wireInt]
  refine tracks_readUint.bind fun v z hz => ?_
  refine Tracks.ite (fun hFits => ?_) fun _ => Tracks.throw _
  refine Tracks.pure ?_
  have hKept : v.toUInt32.toNat = v.toNat := by
    rw [UInt64.toNat_toUInt32, Nat.mod_eq_of_lt hFits]
  rw [hz, hKept]

/-! ## Structured values -/

/-- A value, and the integers it holds. -/
abbrev HoldsInts (dv : DataValue) (zs : List ℤ) : Prop := zs = dv.ints

/-- The integers of what `p` reads are what `q` reads. -/
abbrev TracksInts (p : Dec DataValue) (q : Dec (List ℤ)) : Prop := Tracks HoldsInts p q

/-- The answers of a counted read, and how many there are. -/
theorem tracks_repeatN {α β : Type} {R : α → β → Prop} {p : Dec α} {q : Dec β}
    (h : Tracks R p q) (n : Nat) :
    Tracks (fun as bs => List.Forall₂ R as bs ∧ as.length = n) (Reader.repeatN p n)
      (Reader.repeatN q n) := by
  induction n with
  | zero => exact Tracks.pure ⟨.nil, rfl⟩
  | succ n ih =>
    refine h.bind fun a b hab => ih.bind fun as bs hRest => ?_
    exact Tracks.pure ⟨.cons hab hRest.1, by rw [List.length_cons, hRest.2]⟩

theorem flatten_of_forall {α : Type} {ints : α → List ℤ} {as : List α} {zss : List (List ℤ)}
    (h : List.Forall₂ (fun a zs => zs = ints a) as zss) : zss.flatten = as.flatMap ints := by
  induction h with
  | nil => rfl
  | cons hHead _ ih => rw [List.flatten_cons, List.flatMap_cons, hHead, ih]

/-- A counted collection keeps its count and what its members hold. -/
theorem tracks_members {α : Type} {ints : α → List ℤ} {p : Dec α} {q : Dec (List ℤ)}
    (h : Tracks (fun a zs => zs = ints a) p q) (n : Nat) :
    Tracks (fun as zs => zs = (as.length : ℤ) :: as.flatMap ints) (Reader.repeatN p n)
      (wireMembers q n) := by
  refine Tracks.answers ((tracks_repeatN h n).mono fun as zss hAll => ?_)
  rw [hAll.2, flatten_of_forall hAll.1]

section Values

variable {readInner : Dec DataValue} {inner : Dec (List ℤ)}

theorem tracks_readList (h : TracksInts readInner inner) (n : Nat) :
    TracksInts (readList readInner n) (wireMembers inner n) := by
  refine Tracks.answer ((tracks_members h n).mono fun items zs hzs => ?_)
  rw [HoldsInts, DataValue.ints_list]
  exact hzs

/-- A key is text and holds no integer. -/
theorem tracks_readEntry (h : TracksInts readInner inner) :
    Tracks (fun (entry : String × DataValue) zs => zs = entry.2.ints) (readEntry readInner)
      (wireEntry inner) := by
  refine h.bind fun key zs hKey => ?_
  cases key with
  | str key =>
    have hNone : zs = [] := hKey
    subst hNone
    exact Tracks.answer (Tracks.answers (h.mono fun _ _ hValue => hValue))
  | _ => exact Tracks.throw _

theorem tracks_readMap (h : TracksInts readInner inner) (n : Nat) :
    TracksInts (readMap readInner n) (wireMembers (wireEntry inner) n) := by
  refine Tracks.answer ((tracks_members (tracks_readEntry h) n).mono fun entries zs hzs => ?_)
  rw [HoldsInts, DataValue.ints_map]
  exact hzs

theorem tracks_fromUtf8 {err : DecodeError} {b : Bytes} {f : String → Dec DataValue}
    {zs : List ℤ}
    (h : ∀ s, String.fromUTF8? ⟨b.toArray⟩ = some s → TracksInts (f s) (pure zs)) :
    TracksInts (fromUtf8 err b >>= f) (pure zs) := by
  unfold fromUtf8
  split
  next s hs =>
    rw [pure_bind]
    exact h s hs
  next =>
    -- the text is refused
    rintro rd a rest ⟨⟩

theorem tracks_extPayload (ty : Int8) (payload : Bytes) :
    TracksInts (extPayload ty payload) (pure (extInts ty payload)) := by
  unfold extPayload
  refine Tracks.ite (fun hty => tracks_fromUtf8 fun s hs => ?_) fun hNot1 => ?_
  · refine Tracks.pure ?_
    rw [extInts, if_pos hty, hs, HoldsInts, DataValue.ints_bigInt]
    rfl
  refine Tracks.ite (fun hty => tracks_fromUtf8 fun s _ => ?_) fun hNot2 => ?_
  · subst hty
    exact Tracks.pure rfl
  refine Tracks.ite (fun hty => ?_) fun _ => Tracks.throw _
  refine Tracks.ite (fun _ => Tracks.throw _) fun hLong => tracks_fromUtf8 fun s _ => ?_
  refine Tracks.pure ?_
  -- eight bytes are a `u64`
  have hId : (UInt64.ofNat (ofLE (payload.take 8))).toNat = ofLE (payload.take 8) := by
    have hlt := ofBE_lt (payload.take 8).reverse
    rw [ofBE, List.reverse_reverse, List.length_reverse, List.length_take_of_le (by omega)] at hlt
    exact UInt64.toNat_ofNat_of_lt' hlt
  rw [extInts, if_neg hNot1, if_pos hty]
  show [(ofLE (payload.take 8) : ℤ)] = [((UInt64.ofNat (ofLE (payload.take 8))).toNat : ℤ)]
  rw [hId]

theorem tracks_readExt (n : Nat) : TracksInts (readExt n) (wireExt n) := by
  refine Tracks.after fun ty => ?_
  exact tracks_take fun payload _ => tracks_extPayload _ payload

/-- A value that holds no integer is walked past. -/
theorem tracks_skipped {p : Dec DataValue} {q : Dec Unit}
    (h : Skips (fun dv => dv.ints = []) p q) :
    TracksInts p (q >>= fun _ => pure []) :=
  Tracks.answers (h.mono fun _ _ hNone => hNone.symm)

/-- A value that is one integer. -/
theorem tracks_number {p : Dec DataValue} {q : Dec ℤ}
    (h : Tracks (fun dv z => [z] = dv.ints) p q) :
    TracksInts p (q >>= fun z => pure [z]) :=
  Tracks.answers (h.mono fun _ _ hOne => hOne)

theorem wireValueMarker_fixstr {m : UInt8} (hm : 0xa0 ≤ m ∧ m ≤ 0xbf) :
    wireValueMarker inner m
      = (take (m &&& 0x1f).toNat >>= fun _ => pure ()) >>= fun _ => pure [] := by
  obtain ⟨hEq, hLt⟩ := fixstr_marker hm
  generalize (m &&& 0x1f).toNat = n at hEq hLt
  subst hEq
  interval_cases n <;> rfl

theorem wireValueMarker_fixarray {m : UInt8} (hm : 0x90 ≤ m ∧ m ≤ 0x9f) :
    wireValueMarker inner m = wireMembers inner (m &&& 0x0f).toNat := by
  obtain ⟨hEq, hLt⟩ := fixarray_marker hm
  generalize (m &&& 0x0f).toNat = n at hEq hLt
  subst hEq
  interval_cases n <;> rfl

theorem wireValueMarker_fixmap {m : UInt8} (hm : 0x80 ≤ m ∧ m ≤ 0x8f) :
    wireValueMarker inner m = wireMembers (wireEntry inner) (m &&& 0x0f).toNat := by
  obtain ⟨hEq, hLt⟩ := fixmap_marker hm
  generalize (m &&& 0x0f).toNat = n at hEq hLt
  subst hEq
  interval_cases n <;> rfl

/-- Marker by marker, the integers of the value are those on the wire. -/
theorem tracks_marker (h : TracksInts readInner inner) (m : UInt8) :
    TracksInts (readDvMarker readInner m) (wireValueMarker inner m) := by
  have hStr (n : Nat) :
      Skips (fun dv => dv.ints = []) (readStrDv n) (take n >>= fun _ => pure ()) :=
    skips_readStrDv (fun _ => rfl) n
  have hBytes (n : Nat) : Skips (fun dv => dv.ints = [])
      (take n >>= fun b => pure (DataValue.bytes b)) (take n >>= fun _ => pure ()) :=
    skips_bytes (fun _ => rfl) n
  unfold readDvMarker
  refine Tracks.ite (fun hm => ?_) fun _ => ?_
  · rw [wireValueMarker, if_pos (Or.inl hm), wireIntMarker, if_pos hm]
    refine tracks_number (Tracks.pure ?_)
    show [(m.toNat : ℤ)] = [m.toUInt64.toInt64.toInt]
    have hlt : m.toUInt64.toNat < 2 ^ 63 := by
      have := m.toNat_lt
      rw [UInt8.toNat_toUInt64]
      omega
    rw [toInt_toInt64 hlt, UInt8.toNat_toUInt64]
  refine Tracks.ite (fun hm => ?_) fun _ => ?_
  · have hNot : ¬ m ≤ 0x7f := by
      rw [UInt8.le_iff_toNat_le] at hm ⊢
      exact Nat.not_le.mpr (Nat.lt_of_lt_of_le (by decide) hm)
    rw [wireValueMarker, if_pos (Or.inr (Or.inl hm)), wireIntMarker, if_neg hNot, if_pos hm]
    refine tracks_number (Tracks.pure ?_)
    show [signed 8 m.toNat] = [m.toInt8.toInt64.toInt]
    rw [Int8.toInt_toInt64, toInt_toInt8]
  -- nil and the booleans
  refine Tracks.ite (fun hm => hm ▸ tracks_skipped (Skips.done rfl)) fun _ => ?_
  refine Tracks.ite (fun hm => hm ▸ tracks_skipped (Skips.done rfl)) fun _ => ?_
  refine Tracks.ite (fun hm => hm ▸ tracks_skipped (Skips.done rfl)) fun _ => ?_
  -- unsigned
  refine Tracks.ite (fun hm => hm ▸ tracks_number (tracks_takeU8 fun v bs hv => ?_)) fun _ => ?_
  · refine Tracks.pure ?_
    show [(ofBE bs : ℤ)] = [v.toUInt64.toInt64.toInt]
    have hlt := v.toNat_lt
    rw [toInt_toInt64 (by rw [UInt8.toNat_toUInt64]; omega), UInt8.toNat_toUInt64, hv]
  refine Tracks.ite (fun hm => hm ▸ tracks_number (tracks_takeU16 fun v bs hv => ?_)) fun _ => ?_
  · refine Tracks.pure ?_
    show [(ofBE bs : ℤ)] = [v.toUInt64.toInt64.toInt]
    have hlt := v.toNat_lt
    rw [toInt_toInt64 (by rw [UInt16.toNat_toUInt64]; omega), UInt16.toNat_toUInt64, hv]
  refine Tracks.ite (fun hm => hm ▸ tracks_number (tracks_takeU32 fun v bs hv => ?_)) fun _ => ?_
  · refine Tracks.pure ?_
    show [(ofBE bs : ℤ)] = [v.toUInt64.toInt64.toInt]
    have hlt := v.toNat_lt
    rw [toInt_toInt64 (by rw [UInt32.toNat_toUInt64]; omega), UInt32.toNat_toUInt64, hv]
  refine Tracks.ite (fun hm => hm ▸ tracks_number (tracks_takeU64 fun v bs hv => ?_)) fun _ => ?_
  · -- beyond an `i64` the number goes on as a BigInt
    refine Tracks.ite (fun hFits => Tracks.pure ?_) fun _ => Tracks.pure ?_
    · show [(ofBE bs : ℤ)] = [v.toInt64.toInt]
      rw [toInt_toInt64 hFits, hv]
    · rw [DataValue.ints_bigInt, textInts_toString, hv]
  -- signed
  refine Tracks.ite (fun hm => hm ▸ tracks_number (tracks_takeU8 fun v bs hv => ?_)) fun _ => ?_
  · refine Tracks.pure ?_
    show [signed 8 (ofBE bs)] = [v.toInt8.toInt64.toInt]
    rw [Int8.toInt_toInt64, toInt_toInt8, hv]
  refine Tracks.ite (fun hm => hm ▸ tracks_number (tracks_takeU16 fun v bs hv => ?_)) fun _ => ?_
  · refine Tracks.pure ?_
    show [signed 16 (ofBE bs)] = [v.toInt16.toInt64.toInt]
    rw [Int16.toInt_toInt64, toInt_toInt16, hv]
  refine Tracks.ite (fun hm => hm ▸ tracks_number (tracks_takeU32 fun v bs hv => ?_)) fun _ => ?_
  · refine Tracks.pure ?_
    show [signed 32 (ofBE bs)] = [v.toInt32.toInt64.toInt]
    rw [Int32.toInt_toInt64, toInt_toInt32, hv]
  refine Tracks.ite (fun hm => hm ▸ tracks_number (tracks_takeU64 fun v bs hv => ?_)) fun _ => ?_
  · refine Tracks.pure ?_
    show [signed 64 (ofBE bs)] = [v.toInt64.toInt]
    rw [toInt_toInt64_signed, hv]
  -- floats
  refine Tracks.ite
    (fun hm => hm ▸ tracks_skipped (skips_takeU32 fun _ => Skips.done rfl)) fun _ => ?_
  refine Tracks.ite
    (fun hm => hm ▸ tracks_skipped (skips_takeU64 fun _ => Skips.done rfl)) fun _ => ?_
  -- strings and binaries
  refine Tracks.ite (fun hm => wireValueMarker_fixstr hm ▸ tracks_skipped (hStr _)) fun _ => ?_
  refine Tracks.ite
    (fun hm => hm ▸ tracks_skipped (Tracks.after fun n => hStr n.toNat)) fun _ => ?_
  refine Tracks.ite
    (fun hm => hm ▸ tracks_skipped (Tracks.after fun n => hStr n.toNat)) fun _ => ?_
  refine Tracks.ite
    (fun hm => hm ▸ tracks_skipped (Tracks.after fun n => hStr n.toNat)) fun _ => ?_
  refine Tracks.ite
    (fun hm => hm ▸ tracks_skipped (Tracks.after fun n => hBytes n.toNat)) fun _ => ?_
  refine Tracks.ite
    (fun hm => hm ▸ tracks_skipped (Tracks.after fun n => hBytes n.toNat)) fun _ => ?_
  refine Tracks.ite
    (fun hm => hm ▸ tracks_skipped (Tracks.after fun n => hBytes n.toNat)) fun _ => ?_
  -- lists and maps
  refine Tracks.ite (fun hm => wireValueMarker_fixarray hm ▸ tracks_readList h _) fun _ => ?_
  refine Tracks.ite (fun hm => hm ▸ Tracks.after fun n => tracks_readList h n.toNat) fun _ => ?_
  refine Tracks.ite (fun hm => hm ▸ Tracks.after fun n => tracks_readList h n.toNat) fun _ => ?_
  refine Tracks.ite (fun hm => wireValueMarker_fixmap hm ▸ tracks_readMap h _) fun _ => ?_
  refine Tracks.ite (fun hm => hm ▸ Tracks.after fun n => tracks_readMap h n.toNat) fun _ => ?_
  refine Tracks.ite (fun hm => hm ▸ Tracks.after fun n => tracks_readMap h n.toNat) fun _ => ?_
  -- extensions
  refine Tracks.ite (fun hm => hm ▸ tracks_readExt 1) fun _ => ?_
  refine Tracks.ite (fun hm => hm ▸ tracks_readExt 2) fun _ => ?_
  refine Tracks.ite (fun hm => hm ▸ tracks_readExt 4) fun _ => ?_
  refine Tracks.ite (fun hm => hm ▸ tracks_readExt 8) fun _ => ?_
  refine Tracks.ite (fun hm => hm ▸ tracks_readExt 16) fun _ => ?_
  refine Tracks.ite (fun hm => hm ▸ Tracks.after fun n => tracks_readExt n.toNat) fun _ => ?_
  refine Tracks.ite (fun hm => hm ▸ Tracks.after fun n => tracks_readExt n.toNat) fun _ => ?_
  refine Tracks.ite (fun hm => hm ▸ Tracks.after fun n => tracks_readExt n.toNat) fun _ => ?_
  exact Tracks.throw _

/-- By induction on the room left: both go one level down for a member. -/
theorem tracks_readDvRoom (room : Nat) :
    TracksInts (readDvRoom room) (wireValueRoom room) := by
  induction room with
  | zero => exact Tracks.throw _
  | succ room ih => exact Tracks.after fun m => tracks_marker ih m

/-- The integers of a decoded value are those on the wire. -/
theorem tracks_readDv : TracksInts (readDv 0) wireValue := tracks_readDvRoom _

end Values

/-! ## The fields of a frame -/

/-- One field, by the reader of its integers. An appended field may be absent,
and then stands for its default. -/
inductive WireField where
  | known (read : Dec (List ℤ))
  | appended (read : Dec (List ℤ)) (absent : List ℤ)

/-- How many of the fields a frame cannot do without. -/
def knownFields : List WireField → Nat
  | [] => 0
  | .known _ :: fields => knownFields fields + 1
  | .appended _ _ :: fields => knownFields fields

/-- The integers of the fields in turn, after those in `acc`; the `extra` fields
that no field is known for are skipped. -/
def wireFields : List WireField → (extra : Nat) → (acc : List ℤ) → Dec (List ℤ)
  | [], extra, acc => do
    skipExtra extra
    pure acc
  | .known read :: fields, extra, acc => do
    wireFields fields extra (acc ++ (← read))
  | .appended read absent :: fields, extra, acc =>
    if extra = 0 then wireFields fields 0 (acc ++ absent)
    else do wireFields fields (extra - 1) (acc ++ (← read))

def wireOne : Dec (List ℤ) := do return [← wireInt]

def wireText : Dec (List ℤ) := do
  let _ ← take (← readStrHeader)
  pure []

def wireBin : Dec (List ℤ) := do
  let _ ← take (← readBinHeader)
  pure []

def wireOpt (read : Dec (List ℤ)) : Dec (List ℤ) := do
  if ← takeNil then pure [] else read

def wireArray (read : Dec (List ℤ)) : Dec (List ℤ) := do
  wireMembers read (← readArrayHeader)

/-- A composite: its own header, then its fields. -/
def wireRecord (fields : List WireField) (what : String) (acc : List ℤ) : Dec (List ℤ) := do
  let extra ← need (← readArrayHeader) (knownFields fields) what
  wireFields fields extra acc

def wireArrow : Dec (List ℤ) :=
  wireRecord [.known wireOne, .known wireOne, .known wireBin] "ArrowArray" []

/-- The payload of an argument, by its kind. -/
def wireArgPayload (kind : List ℤ) : Dec (List ℤ) :=
  if kind = [0] then wireValue else if kind = [3] then wireArrow else wireOne

def wireArg : Dec (List ℤ) := do
  let extra ← need (← readArrayHeader) 2 "Arg"
  let kind ← wireOne
  wireFields [.known (wireArgPayload kind)] extra kind

def wireClassDecl : Dec (List ℤ) :=
  wireRecord [.known wireText, .known (wireArray wireText), .known (wireArray wireText)]
    "ClassDecl" []

/-- The fields of a frame, by its type. -/
def frameFields : UInt64 → List WireField
  | tCall =>
    [.known wireText, .known wireText, .known (wireArray wireOne), .known (wireArray wireOne),
      .known (wireArray wireOne), .known (wireArray wireArrow), .known (wireOpt wireValue),
      .known wireText, .known wireOne, .known (wireArray wireArg)]
  | tCallReturn => [.known wireText, .appended wireOne [0]]
  | tCallReturnError => [.known wireText, .appended wireText [], .appended wireOne [0]]
  | tCallReturnResource => [.known wireOne, .known wireText, .appended wireOne [0]]
  | tCallReturnChannel => [.known wireOne, .appended wireOne [0]]
  | tCallReturnResourceDecl =>
    [.known wireOne, .known wireText, .known (wireArray wireText), .known (wireArray wireText),
      .appended wireOne [0]]
  | tChan =>
    [.known wireOne, .known wireOne, .known wireOne, .known (wireOpt wireValue),
      .known wireText]
  | tCallReturnArray => [.known wireArrow, .appended wireOne [0]]
  | tCallReturnData => [.known wireValue, .appended wireOne [0]]
  | tCallReturnHandle => [.known wireOne, .appended wireOne [0]]
  | tGetManifest => [.known wireOne]
  | tManifestReturn => [.known wireOne, .known (wireArray wireClassDecl), .appended wireOne [0]]
  | tMakeString => [.known wireText]
  | tHandleToString => [.known wireOne]
  | tRetain => [.known wireOne]
  | tRelease => [.known (wireArray wireOne)]
  | tCallMethodOnHandle => [.known wireOne, .known wireText, .known (wireArray wireOne)]
  | tInvokeBlock => [.known wireOne, .known (wireArray (wireArray wireOne))]
  | tInvokeBlockReturn =>
    [.known (wireArray wireOne), .known (wireOpt wireText), .appended wireText []]
  | tGetGlobal => [.known wireText]
  | tMakeValue => [.known wireValue]
  | tReadHandle => [.known wireOne]
  | tReadHandleReturn => [.known wireValue, .known (wireOpt wireText), .appended wireText []]
  | tHostOpReturn =>
    [.known wireOne, .known (wireOpt wireText), .known (wireOpt wireText),
      .appended wireText []]
  | _ => []

/-- The integers of a frame past its header and type. -/
def wireRest (fields : Nat) (tag : UInt64) : Dec (List ℤ) := do
  let extra ← need fields (knownFields (frameFields tag)) "frame"
  wireFields (frameFields tag) extra []

/-- The type of a frame and the integers of its fields, as they stand on the wire. -/
def wireFrame : Dec (ℤ × List ℤ) := do
  let n ← readArrayHeader
  let tag ← wireInt
  return (tag, ← wireRest (n - 1) (UInt64.ofNat tag.toNat))

def wireInts (bytes : Bytes) : Except DecodeError (ℤ × List ℤ) := do
  return (← wireFrame bytes).1

/-! ## The integers of a message -/

/-- A counted list: its length, then the integers of its members. -/
def countedInts {α : Type} (ints : α → List ℤ) (xs : List α) : List ℤ :=
  (xs.length : ℤ) :: xs.flatMap ints

def idInts (v : UInt64) : List ℤ := [(v.toNat : ℤ)]

def textFree (_ : String) : List ℤ := []

def ArrowArray.ints (a : ArrowArray) : List ℤ := idInts a.dtype.tag ++ idInts a.length

/-- An argument's integers, its kind first. -/
def Arg.ints : Arg → List ℤ
  | .data d => 0 :: d.ints
  | .resource id => 1 :: idInts id
  | .handle h => 2 :: idInts h
  | .array a => 3 :: a.ints
  | .chan c => 4 :: idInts c

def ClassDecl.ints (c : ClassDecl) : List ℤ :=
  countedInts textFree c.instanceSelectors ++ countedInts textFree c.classSelectors

def optInts (value : Option DataValue) : List ℤ := value.elim [] DataValue.ints

/-- Every integer of a decoded message and its meta, in wire order. -/
def Msg.ints (reply : ReplyMeta) : Msg → List ℤ
  | .call _ _ handles resources releases arrays data _ recv methodArgs =>
    countedInts idInts handles ++ countedInts idInts resources ++ countedInts idInts releases ++
      countedInts ArrowArray.ints arrays ++ optInts data ++ idInts recv ++
      countedInts Arg.ints methodArgs
  | .callReturn _ => idInts reply.handlerMicros
  | .callReturnError _ _ => idInts reply.handlerMicros
  | .callReturnResource resource _ => idInts resource ++ idInts reply.handlerMicros
  | .callReturnChannel c => idInts c ++ idInts reply.handlerMicros
  | .callReturnResourceDecl resource _ instanceSelectors classSelectors =>
    idInts resource ++ countedInts textFree instanceSelectors ++
      countedInts textFree classSelectors ++ idInts reply.handlerMicros
  | .chan kind c corr value _ =>
    [(kind.toNat : ℤ)] ++ idInts c ++ idInts corr ++ optInts value
  | .callReturnArray array => array.ints ++ idInts reply.handlerMicros
  | .callReturnData value => value.ints ++ idInts reply.handlerMicros
  | .callReturnHandle handle => idInts handle ++ idInts reply.handlerMicros
  | .getManifest version => [(version.toNat : ℤ)]
  | .manifestReturn classes version lanes =>
    [(version.toNat : ℤ)] ++ countedInts ClassDecl.ints classes ++ [(lanes.toNat : ℤ)]
  | .makeString _ => []
  | .handleToString handle => idInts handle
  | .retain handle => idInts handle
  | .release handles => countedInts idInts handles
  | .callMethodOnHandle receiver _ args => idInts receiver ++ countedInts idInts args
  | .invokeBlock block batches =>
    idInts block ++ countedInts (countedInts idInts) batches
  | .invokeBlockReturn results _ _ => countedInts idInts results
  | .getGlobal _ => []
  | .makeValue value => value.ints
  | .readHandle handle => idInts handle
  | .readHandleReturn value _ _ => value.ints
  | .hostOpReturn handle _ _ _ => idInts handle

/-- The two fields narrower than what is read for them: the kind of a `Chan`
frame, its first integer, and the lanes of a `ManifestReturn`, its last. -/
def FieldsFit (tag : ℤ) (zs : List ℤ) : Prop :=
  (tag = tChan.toNat → ∀ z ∈ zs.head?, z < 2 ^ 8) ∧
  (tag = tManifestReturn.toNat → ∀ z ∈ zs.getLast?, z < 2 ^ 32)

/-! ## Reading field by field -/

section Fields

variable {α γ : Type} {S : γ → List ℤ → Prop} {ints : α → List ℤ} {fields : List WireField}
  {extra : Nat} {acc : List ℤ}

/-- A field both know: what it holds joins what was read before. -/
theorem tracks_known {p : Dec α} {f : α → Dec γ} {read : Dec (List ℤ)}
    (hp : Tracks (fun a zs => zs = ints a) p read)
    (hf : ∀ a, Tracks S (f a) (wireFields fields extra (acc ++ ints a))) :
    Tracks S (p >>= f) (wireFields (.known read :: fields) extra acc) := by
  refine hp.bind fun a zs hzs => ?_
  subst hzs
  exact hf a

theorem tracks_one : Tracks (fun v zs => zs = idInts v) readUint wireOne :=
  Tracks.answers (tracks_readUint.mono fun v z hz => by rw [hz, idInts])

/-- An appended number, sent or not. -/
theorem tracks_appendedU64 {f : UInt64 × Nat → Dec γ}
    (hf : ∀ v extra, Tracks S (f (v, extra)) (wireFields fields extra (acc ++ idInts v))) :
    Tracks S (readAppendedU64 extra >>= f)
      (wireFields (.appended wireOne [0] :: fields) extra acc) := by
  by_cases hNone : extra = 0
  · rw [readAppendedU64, if_pos hNone, wireFields, if_pos hNone, pure_bind]
    exact hf 0 0
  · rw [readAppendedU64, if_neg hNone, wireFields, if_neg hNone, bind_assoc]
    refine tracks_one.bind fun v zs hzs => ?_
    subst hzs
    rw [pure_bind]
    exact hf v (extra - 1)

theorem tracks_readVersion_one :
    Tracks (fun (v : UInt32) zs => zs = [(v.toNat : ℤ)]) readVersion wireOne :=
  Tracks.answers (tracks_readVersion.mono fun v z hz => by rw [hz])

theorem tracks_text : Tracks (fun _ zs => zs = []) readStr wireText := by
  refine Tracks.after fun n => tracks_take fun b _ => ?_
  unfold fromUtf8
  split
  next => exact Tracks.pure rfl
  next => rintro rd a rest ⟨⟩

theorem tracks_appendedStr {f : String × Nat → Dec γ}
    (hf : ∀ s extra, Tracks S (f (s, extra)) (wireFields fields extra acc)) :
    Tracks S (readAppendedStr extra >>= f)
      (wireFields (.appended wireText [] :: fields) extra acc) := by
  by_cases hNone : extra = 0
  · rw [readAppendedStr, if_pos hNone, wireFields, if_pos hNone, pure_bind, List.append_nil]
    exact hf "" 0
  · rw [readAppendedStr, if_neg hNone, wireFields, if_neg hNone, bind_assoc]
    refine tracks_text.bind fun s zs hzs => ?_
    subst hzs
    rw [pure_bind, List.append_nil]
    exact hf s (extra - 1)

/-- The end of a frame: the surplus is skipped by both. -/
theorem tracks_end {c : γ} (h : S c acc) :
    Tracks S (skipExtra extra >>= fun _ => pure c) (wireFields [] extra acc) :=
  Tracks.after fun _ => Tracks.pure h

/-- Both count the fields they cannot do without. -/
theorem tracks_need {β : Type} {R : γ → β → Prop} {n expected : Nat} {what what' : String}
    {f : Nat → Dec γ} {g : Nat → Dec β} (h : ∀ extra, Tracks R (f extra) (g extra)) :
    Tracks R (need n expected what >>= f) (need n expected what' >>= g) := by
  by_cases hFew : n < expected
  · rw [need, if_pos hFew]
    rintro rd a rest ⟨⟩
  · rw [need, need, if_neg hFew, if_neg hFew, pure_bind, pure_bind]
    exact h _

theorem tracks_opt {p : Dec α} {read : Dec (List ℤ)}
    (hp : Tracks (fun a zs => zs = ints a) p read) :
    Tracks (fun a zs => zs = Option.elim a [] ints)
      (do if ← takeNil then pure none else return some (← p)) (wireOpt read) := by
  refine Tracks.after fun isNil => ?_
  cases isNil with
  | true => exact Tracks.pure rfl
  | false => exact Tracks.answer hp

theorem tracks_array {p : Dec α} {read : Dec (List ℤ)}
    (hp : Tracks (fun a zs => zs = ints a) p read) :
    Tracks (fun as zs => zs = countedInts ints as) (readArray p) (wireArray read) :=
  Tracks.after fun n => tracks_members hp n

end Fields

theorem tracks_ids : Tracks (fun vs zs => zs = countedInts idInts vs) readU64Vec
    (wireArray wireOne) :=
  tracks_array tracks_one

theorem tracks_strs : Tracks (fun ss zs => zs = countedInts textFree ss) readStrVec
    (wireArray wireText) :=
  tracks_array (tracks_text.mono fun _ _ h => h)

theorem tracks_optStr : Tracks (fun _ zs => zs = []) readOptStr (wireOpt wireText) := by
  refine (tracks_opt (tracks_text.mono fun s _ h => (h : _ = textFree s))).mono ?_
  intro s zs hzs
  cases s <;> exact hzs

theorem tracks_optDv : Tracks (fun value zs => zs = optInts value) readOptDv
    (wireOpt wireValue) :=
  tracks_opt tracks_readDv

/-! Composites. -/

theorem tracks_bin : Tracks (fun _ zs => zs = []) readBin wireBin := by
  refine Tracks.after fun n => ?_
  exact Tracks.answers ((Tracks.same (take n)).mono fun _ _ _ => rfl)

theorem tracks_arrow : Tracks (fun a zs => zs = ArrowArray.ints a) readArrow wireArrow := by
  refine Tracks.after fun n => tracks_need fun extra => ?_
  refine tracks_known tracks_one fun tag => ?_
  have hTail (dtype : ArrowDType) (h : idInts tag = idInts dtype.tag) :
      Tracks (fun a zs => zs = ArrowArray.ints a)
        (do
          let length ← readUint
          let data ← readBin
          skipExtra extra
          pure { dtype, length, data })
        (wireFields [.known wireOne, .known wireBin] extra ([] ++ idInts tag)) := by
    refine tracks_known tracks_one fun length => tracks_known tracks_bin fun data => ?_
    exact tracks_end (by rw [ArrowArray.ints, h]; simp)
  -- the type is one of two numbers
  refine Tracks.ite (fun htag => ?_) fun _ => ?_
  · simp only [pure_bind]
    exact hTail .float64 (by rw [htag]; rfl)
  refine Tracks.ite (fun htag => ?_) fun _ => ?_
  · simp only [pure_bind]
    exact hTail .int64 (by rw [htag]; rfl)
  rintro rd a rest ⟨⟩

theorem tracks_arg : Tracks (fun a zs => zs = Arg.ints a) readArg wireArg := by
  refine Tracks.after fun n => tracks_need fun extra => tracks_one.bind fun kind zs hKind => ?_
  subst hKind
  -- an argument's payload, whatever it is
  have hTail {α : Type} {ints : α → List ℤ} {p : Dec α} {arg : α → Arg}
      (h : Tracks (fun a zs => zs = ints a) p (wireArgPayload (idInts kind)))
      (hInts : ∀ a, (arg a).ints = idInts kind ++ ints a) :
      Tracks (fun a zs => zs = Arg.ints a)
        (do
          let arg ← arg <$> p
          skipExtra extra
          pure arg)
        (wireFields [.known (wireArgPayload (idInts kind))] extra (idInts kind)) := by
    rw [map_eq_pure_bind, bind_assoc]
    refine tracks_known h fun a => ?_
    rw [pure_bind]
    exact tracks_end (hInts a).symm
  refine Tracks.ite (fun hk => ?_) fun _ => ?_
  · subst hk
    exact hTail tracks_readDv fun _ => rfl
  refine Tracks.ite (fun hk => ?_) fun _ => ?_
  · subst hk
    exact hTail tracks_one fun _ => rfl
  refine Tracks.ite (fun hk => ?_) fun _ => ?_
  · subst hk
    exact hTail tracks_one fun _ => rfl
  refine Tracks.ite (fun hk => ?_) fun _ => ?_
  · subst hk
    exact hTail tracks_arrow fun _ => rfl
  refine Tracks.ite (fun hk => ?_) fun _ => ?_
  · subst hk
    exact hTail tracks_one fun _ => rfl
  rintro rd a rest ⟨⟩

theorem tracks_classDecl : Tracks (fun c zs => zs = ClassDecl.ints c) readClassDecl
    wireClassDecl := by
  refine Tracks.after fun n => tracks_need fun extra => tracks_known tracks_text fun name => ?_
  refine tracks_known tracks_strs fun instanceSelectors => ?_
  refine tracks_known tracks_strs fun classSelectors => ?_
  exact tracks_end (by simp [ClassDecl.ints])

/-! ## Frame by frame -/

/-- Every frame but two is read as it stands. -/
theorem tracks_plain {fields : Nat} {tag : UInt64} (hChan : tag ≠ tChan)
    (hManifest : tag ≠ tManifestReturn) :
    Tracks (fun r zs => zs = r.1.ints r.2) (readFields fields tag) (wireRest fields tag) := by
  -- one case per frame type, in the order of `readFields`
  unfold readFields
  split
  next =>
    refine tracks_need fun extra => ?_
    refine tracks_known tracks_text fun op => tracks_known tracks_text fun arg => ?_
    refine tracks_known tracks_ids fun handles => tracks_known tracks_ids fun resources => ?_
    refine tracks_known tracks_ids fun releases => ?_
    refine tracks_known (tracks_array tracks_arrow) fun arrays => ?_
    refine tracks_known tracks_optDv fun data => tracks_known tracks_text fun className => ?_
    refine tracks_known tracks_one fun recv => ?_
    refine tracks_known (tracks_array tracks_arg) fun methodArgs => ?_
    exact tracks_end (by simp [Msg.ints])
  next =>
    refine tracks_need fun extra => ?_
    refine tracks_known tracks_text fun result => ?_
    refine tracks_appendedU64 fun handlerMicros extra => ?_
    exact tracks_end (by simp [Msg.ints])
  next =>
    refine tracks_need fun extra => ?_
    refine tracks_known tracks_text fun message => ?_
    refine tracks_appendedStr fun remoteStack extra => ?_
    refine tracks_appendedU64 fun handlerMicros extra => ?_
    exact tracks_end (by simp [Msg.ints])
  next =>
    refine tracks_need fun extra => ?_
    refine tracks_known tracks_one fun resource => ?_
    refine tracks_known tracks_text fun className => ?_
    refine tracks_appendedU64 fun handlerMicros extra => ?_
    exact tracks_end (by simp [Msg.ints])
  next =>
    refine tracks_need fun extra => ?_
    refine tracks_known tracks_one fun c => ?_
    refine tracks_appendedU64 fun handlerMicros extra => ?_
    exact tracks_end (by simp [Msg.ints])
  next =>
    refine tracks_need fun extra => ?_
    refine tracks_known tracks_one fun resource => ?_
    refine tracks_known tracks_text fun className => ?_
    refine tracks_known tracks_strs fun instanceSelectors => ?_
    refine tracks_known tracks_strs fun classSelectors => ?_
    refine tracks_appendedU64 fun handlerMicros extra => ?_
    exact tracks_end (by simp [Msg.ints])
  next => exact absurd rfl hChan
  next =>
    refine tracks_need fun extra => ?_
    refine tracks_known tracks_arrow fun array => ?_
    refine tracks_appendedU64 fun handlerMicros extra => ?_
    exact tracks_end (by simp [Msg.ints])
  next =>
    refine tracks_need fun extra => ?_
    refine tracks_known tracks_readDv fun value => ?_
    refine tracks_appendedU64 fun handlerMicros extra => ?_
    exact tracks_end (by simp [Msg.ints])
  next =>
    refine tracks_need fun extra => ?_
    refine tracks_known tracks_one fun handle => ?_
    refine tracks_appendedU64 fun handlerMicros extra => ?_
    exact tracks_end (by simp [Msg.ints])
  next =>
    refine tracks_need fun extra => ?_
    refine tracks_known tracks_readVersion_one fun version => ?_
    exact tracks_end (by simp [Msg.ints])
  next => exact absurd rfl hManifest
  next =>
    refine tracks_need fun extra => ?_
    refine tracks_known tracks_text fun value => ?_
    exact tracks_end (by simp [Msg.ints])
  next =>
    refine tracks_need fun extra => ?_
    refine tracks_known tracks_one fun handle => ?_
    exact tracks_end (by simp [Msg.ints])
  next =>
    refine tracks_need fun extra => ?_
    refine tracks_known tracks_one fun handle => ?_
    exact tracks_end (by simp [Msg.ints])
  next =>
    refine tracks_need fun extra => ?_
    refine tracks_known tracks_ids fun handles => ?_
    exact tracks_end (by simp [Msg.ints])
  next =>
    refine tracks_need fun extra => ?_
    refine tracks_known tracks_one fun receiver => ?_
    refine tracks_known tracks_text fun selector => ?_
    refine tracks_known tracks_ids fun args => ?_
    exact tracks_end (by simp [Msg.ints])
  next =>
    refine tracks_need fun extra => ?_
    refine tracks_known tracks_one fun block => ?_
    refine tracks_known (tracks_array tracks_ids) fun batches => ?_
    exact tracks_end (by simp [Msg.ints])
  next =>
    refine tracks_need fun extra => ?_
    refine tracks_known tracks_ids fun results => ?_
    refine tracks_known tracks_optStr fun error => ?_
    refine tracks_appendedStr fun remoteStack extra => ?_
    exact tracks_end (by simp [Msg.ints])
  next =>
    refine tracks_need fun extra => ?_
    refine tracks_known tracks_text fun name => ?_
    exact tracks_end (by simp [Msg.ints])
  next =>
    refine tracks_need fun extra => ?_
    refine tracks_known tracks_readDv fun value => ?_
    exact tracks_end (by simp [Msg.ints])
  next =>
    refine tracks_need fun extra => ?_
    refine tracks_known tracks_one fun handle => ?_
    exact tracks_end (by simp [Msg.ints])
  next =>
    refine tracks_need fun extra => ?_
    refine tracks_known tracks_readDv fun value => ?_
    refine tracks_known tracks_optStr fun error => ?_
    refine tracks_appendedStr fun remoteStack extra => ?_
    exact tracks_end (by simp [Msg.ints])
  next =>
    refine tracks_need fun extra => ?_
    refine tracks_known tracks_one fun handle => ?_
    refine tracks_known tracks_optStr fun str => ?_
    refine tracks_known tracks_optStr fun error => ?_
    refine tracks_appendedStr fun remoteStack extra => ?_
    exact tracks_end (by simp [Msg.ints])
  next => rintro rd a rest ⟨⟩

theorem fieldsFit_chan {z : ℤ} {zs : List ℤ} :
    FieldsFit tChan.toNat (z :: zs) ↔ z < 2 ^ 8 := by
  have hOther : ((tChan.toNat : ℤ) = tManifestReturn.toNat) = False := by decide
  simp [FieldsFit, hOther]

theorem fieldsFit_manifestReturn {z : ℤ} {zs : List ℤ} :
    FieldsFit tManifestReturn.toNat (zs ++ [z]) ↔ z < 2 ^ 32 := by
  have hOther : ((tManifestReturn.toNat : ℤ) = tChan.toNat) = False := by decide
  simp [FieldsFit, hOther]

/-- A `Chan` frame is read as it stands when its kind fits a byte, and only then. -/
theorem tracks_chan (fields : Nat) :
    Tracks (fun r zs => zs = r.1.ints r.2 ↔ FieldsFit tChan.toNat zs) (readFields fields tChan)
      (wireRest fields tChan) := by
  refine tracks_need fun extra => ?_
  refine tracks_known tracks_one fun kind => ?_
  refine tracks_known tracks_one fun c => tracks_known tracks_one fun corr => ?_
  refine tracks_known tracks_optDv fun value => tracks_known tracks_text fun message => ?_
  refine tracks_end ?_
  have hKind : (kind.toUInt8.toNat : ℤ) = kind.toNat ↔ (kind.toNat : ℤ) < 2 ^ 8 := by
    rw [UInt64.toNat_toUInt8]
    omega
  rw [idInts, List.nil_append, List.singleton_append, List.cons_append, List.cons_append,
    List.append_nil, fieldsFit_chan, Msg.ints, ← hKind, List.singleton_append, List.cons_append,
    List.cons_append, List.cons.injEq]
  exact ⟨fun h => h.1.symm, fun h => ⟨h.symm, rfl⟩⟩

/-- A `ManifestReturn` frame is read as it stands when its lanes fit a `u32`, and
only then. -/
theorem tracks_manifestReturn (fields : Nat) :
    Tracks (fun r zs => zs = r.1.ints r.2 ↔ FieldsFit tManifestReturn.toNat zs)
      (readFields fields tManifestReturn) (wireRest fields tManifestReturn) := by
  refine tracks_need fun extra => tracks_known tracks_readVersion_one fun version => ?_
  refine tracks_known (tracks_array tracks_classDecl) fun classes => ?_
  refine tracks_appendedU64 fun lanes extra => ?_
  refine tracks_end ?_
  have hLanes : (lanes.toUInt32.toNat : ℤ) = lanes.toNat ↔ (lanes.toNat : ℤ) < 2 ^ 32 := by
    rw [UInt64.toNat_toUInt32]
    omega
  rw [List.nil_append, idInts, fieldsFit_manifestReturn, Msg.ints, ← hLanes]
  constructor
  · intro h
    exact (List.cons.inj (List.append_cancel_left h)).1.symm
  · intro h
    rw [h]

theorem tracks_fields (fields : Nat) (tag : UInt64) :
    Tracks (fun r zs => zs = r.1.ints r.2 ↔ FieldsFit tag.toNat zs) (readFields fields tag)
      (wireRest fields tag) := by
  by_cases hChan : tag = tChan
  · subst hChan
    exact tracks_chan fields
  by_cases hManifest : tag = tManifestReturn
  · subst hManifest
    exact tracks_manifestReturn fields
  refine (tracks_plain hChan hManifest).mono fun r zs hzs => ?_
  -- neither field is there
  have hTag {other : UInt64} (h : tag ≠ other) : (tag.toNat : ℤ) ≠ other.toNat := by
    intro hEq
    exact h (UInt64.toNat_inj.mp (by exact_mod_cast hEq))
  refine ⟨fun _ => ?_, fun _ => hzs⟩
  exact ⟨fun hEq => absurd hEq (hTag hChan), fun hEq => absurd hEq (hTag hManifest)⟩

theorem tracks_frame :
    Tracks (fun r (frame : ℤ × List ℤ) => frame.2 = r.1.ints r.2 ↔ FieldsFit frame.1 frame.2)
      readFrame wireFrame := by
  refine Tracks.after fun n => ?_
  refine Tracks.ite (fun _ => Tracks.throw _) fun _ => ?_
  refine tracks_readUint.bind fun tag z hz => ?_
  subst hz
  refine Tracks.answers ?_
  have hTag : UInt64.ofNat (tag.toNat : ℤ).toNat = tag := by simp
  rw [hTag]
  exact tracks_fields (n - 1) tag

/-- **No integer is narrowed silently, but two.** Whatever frame is accepted, the
integers of its message are those on the wire if and only if the frame is not a
`Chan` whose kind is beyond a byte nor a `ManifestReturn` whose lane count is
beyond 32 bits. -/
theorem decoded_integers {bytes : Bytes} {msg : Msg} {reply : ReplyMeta}
    (h : decodeFrameWithMeta bytes = .ok (msg, reply)) :
    ∃ tag zs, wireInts bytes = .ok (tag, zs) ∧
      (zs = msg.ints reply ↔ FieldsFit tag zs) := by
  unfold decodeFrameWithMeta at h
  cases hFrame : readFrame bytes with
  | error err =>
    rw [hFrame] at h
    contradiction
  | ok r =>
    rw [hFrame] at h
    have hMsg : r.1 = (msg, reply) := by
      have hBoth : (if r.2.isEmpty then pure r.1 else throw (.trailingBytes r.2.length) :
        Except DecodeError (Msg × ReplyMeta)) = .ok (msg, reply) := h
      split_ifs at hBoth
      injection hBoth
    obtain ⟨frame, hWire, hSame⟩ := tracks_frame bytes r.1 r.2 hFrame
    refine ⟨frame.1, frame.2, ?_, ?_⟩
    · rw [wireInts, hWire]
      rfl
    · rw [hMsg] at hSame
      exact hSame

/-- A `Retain` of the id 200, which is written in two bytes: the message has the number on the wire.
-/
theorem decoded_integers_retain :
    decodeFrameWithMeta [0x92, tRetain.toUInt8, 0xcc, 200] = .ok (.retain 200, {}) ∧
    ∃ tag zs, wireInts [0x92, tRetain.toUInt8, 0xcc, 200] = .ok (tag, zs) ∧
      (zs = (Msg.retain 200).ints {} ↔ FieldsFit tag zs) :=
  ⟨rfl, decoded_integers rfl⟩

/-- A `Chan` frame of kind 256 is accepted as one of kind 0. -/
theorem chan_kind_narrowed :
    ∃ msg, decodeFrameWithMeta
        [0x96, tChan.toUInt8, 0xcd, 0x01, 0x00, 0x01, 0x02, 0xc0, 0xa0] = .ok (msg, {}) ∧
      wireInts [0x96, tChan.toUInt8, 0xcd, 0x01, 0x00, 0x01, 0x02, 0xc0, 0xa0]
        = .ok (22, [256, 1, 2]) ∧
      msg.ints {} = [0, 1, 2] :=
  ⟨.chan 0 1 2 none "", rfl, rfl, rfl⟩

end Quoin.Proto
