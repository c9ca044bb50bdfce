import Mathlib
import Quoin.Archive.Zip
import Quoin.Archive.Ustar

/-!
# Quoin — zip headers read back

A header is its fields one after the other (`bytesOf_localHeader`,
`bytesOf_centralHeader`, `bytesOf_endRecord`). Where it is found in the archive
each field is read at its offset, a number modulo what its field holds
(`u16_leBytes`, `u32_leBytes`).
-/

namespace Quoin.Archive

open Streams Wire

/-! ## Emitting -/

theorem refuse_eq_ok {p : Prop} [Decidable p] {err : ArchiveError} {u : Unit} :
    refuse p err = .ok u ↔ ¬ p := by
  unfold refuse
  split_ifs with h
  · exact ⟨fun hErr => (by cases hErr), fun hNot => absurd h hNot⟩
  · exact ⟨fun _ => h, fun _ => rfl⟩

theorem refuse_of_not {p : Prop} [Decidable p] {err : ArchiveError} (h : ¬ p) :
    refuse p err = .ok () := if_neg h

theorem bytesOf_ofBytes (bytes : Bytes) : bytesOf (ofBytes bytes) = .ok bytes := by
  induction bytes with
  | nil => rfl
  | cons b bs ih =>
    have hByte := b.toNat_lt
    have hRange : (0 : Int) ≤ b.toNat ∧ (b.toNat : Int) ≤ 255 := by omega
    rw [ofBytes, List.map_cons, bytesOf, if_pos hRange]
    rw [ofBytes] at ih
    rw [ih, Int.toNat_natCast, UInt8.ofNat_toNat]
    rfl

theorem bytesOf_append {a : List Int} {x : Bytes} (h : bytesOf a = .ok x) (b : List Int) :
    bytesOf (a ++ b) = (bytesOf b).map fun y => x ++ y := by
  induction a generalizing x with
  | nil =>
    cases h
    cases hRest : bytesOf b with
    | error err => rw [List.nil_append, hRest]; rfl
    | ok y => rw [List.nil_append, hRest]; rfl
  | cons v vs ih =>
    rw [bytesOf] at h
    rw [List.cons_append, bytesOf]
    split_ifs at h ⊢ with hRange
    obtain ⟨bytes, hVs, hBytes⟩ := bind_ok h
    cases hBytes
    rw [ih hVs]
    cases bytesOf b with
    | error err => rfl
    | ok y => rfl

theorem le16_natCast (n : Nat) : le16 n = ofBytes (leBytes 2 n) := by
  have hLow : (n : Int).tmod 256 = ((UInt8.ofNat n).toNat : Int) := by
    rw [UInt8.toNat_ofNat']
    exact (Int.ofNat_tmod n 256).symm
  have hHigh : ((n : Int).tdiv 256).tmod 256 = ((UInt8.ofNat (n / 256)).toNat : Int) := by
    rw [UInt8.toNat_ofNat']
    rfl
  rw [le16, hLow, hHigh]
  rfl

theorem le32_natCast (n : Nat) : le32 n = ofBytes (leBytes 4 n) := by
  have hByte (d : Nat) : ((n : Int).tdiv d).tmod 256 = ((UInt8.ofNat (n / d)).toNat : Int) := by
    rw [UInt8.toNat_ofNat']
    rfl
  have h0 := hByte 1
  have h1 := hByte 256
  have h2 := hByte 65536
  have h3 := hByte 16777216
  rw [Nat.div_one, Int.natCast_one, Int.tdiv_one] at h0
  have hThird : n / 65536 = n / 256 / 256 := by rw [Nat.div_div_eq_div_mul]
  have hFourth : n / 16777216 = n / 256 / 256 / 256 := by
    rw [Nat.div_div_eq_div_mul, Nat.div_div_eq_div_mul]
  rw [hThird] at h2
  rw [hFourth] at h3
  rw [le32]
  simp only [Nat.cast_ofNat] at h1 h2 h3
  rw [h0, h1, h2, h3]
  rfl

/-! ## Headers as fields -/

/-- The bytes of a record's two stamps. -/
structure Stamped (r : Record) (time date : Bytes) : Prop where
  time : bytesOf (le16 r.dosTime) = .ok time
  date : bytesOf (le16 r.dosDate) = .ok date

def localFields (r : Record) (time date : Bytes) : List Bytes :=
  [leBytes 4 67324752, leBytes 2 20, leBytes 2 2048, leBytes 2 r.method, time, date,
    leBytes 4 r.crc, leBytes 4 r.csize, leBytes 4 r.usize, leBytes 2 r.name.length, leBytes 2 0,
    r.name]

def centralFields (r : Record) (time date : Bytes) : List Bytes :=
  [leBytes 4 33639248, leBytes 2 20, leBytes 2 20, leBytes 2 2048, leBytes 2 r.method, time, date,
    leBytes 4 r.crc, leBytes 4 r.csize, leBytes 4 r.usize, leBytes 2 r.name.length, leBytes 2 0,
    leBytes 2 0, leBytes 2 0, leBytes 2 0, leBytes 4 (if r.dir then 16 else 0),
    leBytes 4 r.offset, r.name]

def endFields (count cdSize cdStart : Nat) : List Bytes :=
  [leBytes 4 101010256, leBytes 2 0, leBytes 2 0, leBytes 2 count, leBytes 2 count,
    leBytes 4 cdSize, leBytes 4 cdStart, leBytes 2 0]

theorem length_bytesOf {vs : List Int} {bytes : Bytes} (h : bytesOf vs = .ok bytes) :
    bytes.length = vs.length := by
  induction vs generalizing bytes with
  | nil =>
    cases h
    rfl
  | cons v vs ih =>
    rw [bytesOf] at h
    split_ifs at h
    obtain ⟨rest, hRest, hBytes⟩ := bind_ok h
    cases hBytes
    rw [List.length_cons, List.length_cons, ih hRest]

theorem bytesOf_append_inv {a b : List Int} {bytes : Bytes} (h : bytesOf (a ++ b) = .ok bytes) :
    ∃ x y, bytesOf a = .ok x ∧ bytesOf b = .ok y ∧ bytes = x ++ y := by
  induction a generalizing bytes with
  | nil => exact ⟨[], bytes, rfl, h, rfl⟩
  | cons v vs ih =>
    rw [List.cons_append, bytesOf] at h
    split_ifs at h with hRange
    obtain ⟨rest, hRest, hBytes⟩ := bind_ok h
    cases hBytes
    obtain ⟨x, y, hx, hy, rfl⟩ := ih hRest
    refine ⟨UInt8.ofNat v.toNat :: x, y, ?_, hy, rfl⟩
    rw [bytesOf, if_pos hRange, hx]
    rfl

section Fields

variable {r : Record} {time date : Bytes}

theorem Stamped.length (h : Stamped r time date) : time.length = 2 ∧ date.length = 2 :=
  ⟨length_bytesOf h.time, length_bytesOf h.date⟩

/-- What is between the stamps and around them is bytes anyway. -/
theorem bytesOf_stamped {pre post bytes : Bytes} :
    bytesOf (ofBytes pre ++ (le16 r.dosTime ++ (le16 r.dosDate ++ ofBytes post))) = .ok bytes ↔
      ∃ time date, Stamped r time date ∧ bytes = pre ++ (time ++ (date ++ post)) := by
  constructor
  · intro h
    obtain ⟨pre', stamped, hPre, hStamped, rfl⟩ := bytesOf_append_inv h
    obtain ⟨time, dated, hTime, hDated, rfl⟩ := bytesOf_append_inv hStamped
    obtain ⟨date, post', hDate, hPost, rfl⟩ := bytesOf_append_inv hDated
    rw [bytesOf_ofBytes] at hPre hPost
    cases hPre
    cases hPost
    exact ⟨time, date, ⟨hTime, hDate⟩, rfl⟩
  · rintro ⟨time, date, hStamped, rfl⟩
    rw [bytesOf_append (bytesOf_ofBytes pre), bytesOf_append hStamped.time,
      bytesOf_append hStamped.date, bytesOf_ofBytes]
    rfl

theorem ofBytes_append (a b : Bytes) : ofBytes (a ++ b) = ofBytes a ++ ofBytes b := List.map_append

theorem bytesOf_localHeader {bytes : Bytes} :
    bytesOf (localHeader r) = .ok bytes ↔
      ∃ time date, Stamped r time date ∧ bytes = (localFields r time date).flatten := by
  have hParts : localHeader r
      = ofBytes (leBytes 4 67324752 ++ (leBytes 2 20 ++ (leBytes 2 2048 ++ leBytes 2 r.method))) ++
        (le16 r.dosTime ++ (le16 r.dosDate ++ ofBytes (leBytes 4 r.crc ++ (leBytes 4 r.csize ++
          (leBytes 4 r.usize ++ (leBytes 2 r.name.length ++ (leBytes 2 0 ++ r.name))))))) := by
    simp only [ofBytes_append, ← le16_natCast, ← le32_natCast, List.append_assoc, Nat.cast_ofNat,
      Nat.cast_zero, localHeader]
  rw [hParts, bytesOf_stamped]
  simp only [localFields, List.flatten_cons, List.flatten_nil, List.append_nil, List.append_assoc]

theorem bytesOf_centralHeader {bytes : Bytes} :
    bytesOf (centralHeader r) = .ok bytes ↔
      ∃ time date, Stamped r time date ∧ bytes = (centralFields r time date).flatten := by
  have hDir : (if r.dir then (16 : Int) else 0) = ((if r.dir then 16 else 0 : Nat) : Int) := by
    split_ifs <;> rfl
  have hParts : centralHeader r
      = ofBytes (leBytes 4 33639248 ++ (leBytes 2 20 ++ (leBytes 2 20 ++ (leBytes 2 2048 ++
          leBytes 2 r.method)))) ++
        (le16 r.dosTime ++ (le16 r.dosDate ++ ofBytes (leBytes 4 r.crc ++ (leBytes 4 r.csize ++
          (leBytes 4 r.usize ++ (leBytes 2 r.name.length ++ (leBytes 2 0 ++ (leBytes 2 0 ++
            (leBytes 2 0 ++ (leBytes 2 0 ++ (leBytes 4 (if r.dir then 16 else 0) ++
              (leBytes 4 r.offset ++ r.name)))))))))))) := by
    rw [centralHeader, hDir]
    simp only [ofBytes_append, ← le16_natCast, ← le32_natCast, List.append_assoc, Nat.cast_ofNat,
      Nat.cast_zero]
  rw [hParts, bytesOf_stamped]
  simp only [centralFields, List.flatten_cons, List.flatten_nil, List.append_nil,
    List.append_assoc]

theorem bytesOf_endRecord (count cdSize cdStart : Nat) :
    bytesOf (endRecord count cdSize cdStart) = .ok (endFields count cdSize cdStart).flatten := by
  have hParts : endRecord count cdSize cdStart
      = ofBytes (endFields count cdSize cdStart).flatten := by
    simp only [endFields, List.flatten_cons, List.flatten_nil, List.append_nil, ofBytes_append,
      ← le16_natCast, ← le32_natCast, List.append_assoc, Nat.cast_ofNat, Nat.cast_zero, endRecord]
  rw [hParts, bytesOf_ofBytes]

theorem length_localFields (h : Stamped r time date) :
    (localFields r time date).flatten.length = 30 + r.name.length := by
  simp only [localFields, List.flatten_cons, List.flatten_nil, List.length_append, List.length_nil,
    length_leBytes, h.length.1, h.length.2]
  omega

theorem length_centralFields (h : Stamped r time date) :
    (centralFields r time date).flatten.length = 46 + r.name.length := by
  simp only [centralFields, List.flatten_cons, List.flatten_nil, List.length_append,
    List.length_nil, length_leBytes, h.length.1, h.length.2]
  omega

theorem length_endFields (count cdSize cdStart : Nat) :
    (endFields count cdSize cdStart).flatten.length = 22 := by
  simp only [endFields, List.flatten_cons, List.flatten_nil, List.length_append, List.length_nil,
    length_leBytes]

end Fields

/-! ## Reading -/

section Reading

variable {b part : Bytes} {i : Nat}

theorem byteAt_of_at (h : At b i part) {k : Nat} (hk : k < part.length) :
    byteAt b (i + k) = .ok (part.getD k 0).toNat := by
  have hEq := h.getElem? hk
  rw [byteAt, hEq, List.getElem?_eq_getElem hk, List.getD_eq_getElem _ _ hk]

theorem u16_of_at (h : At b i part) (hLen : part.length = 2) : u16 b i = .ok (ofLE part) := by
  have h0 := @byteAt_of_at b part i h 0 (by omega)
  have h1 := @byteAt_of_at b part i h 1 (by omega)
  obtain ⟨x, y, rfl⟩ := List.length_eq_two.mp hLen
  rw [Nat.add_zero] at h0
  rw [u16, h0, h1]
  show Except.ok (x.toNat + y.toNat * 256) = Except.ok (x.toNat + 256 * (y.toNat + 256 * 0))
  rw [Nat.mul_zero, Nat.add_zero, Nat.mul_comm]

theorem u32_of_at (h : At b i part) (hLen : part.length = 4) : u32 b i = .ok (ofLE part) := by
  have h0 := @byteAt_of_at b part i h 0 (by omega)
  have h1 := @byteAt_of_at b part i h 1 (by omega)
  have h2 := @byteAt_of_at b part i h 2 (by omega)
  have h3 := @byteAt_of_at b part i h 3 (by omega)
  obtain ⟨x, y, z, t, rfl⟩ : ∃ x y z t, part = [x, y, z, t] := by
    match part, hLen with
    | [x, y, z, t], _ => exact ⟨x, y, z, t, rfl⟩
  rw [Nat.add_zero] at h0
  rw [u32, h0, h1, h2, h3]
  show Except.ok (x.toNat + y.toNat * 256 + z.toNat * 65536 + t.toNat * 16777216)
    = Except.ok (x.toNat + 256 * (y.toNat + 256 * (z.toNat + 256 * (t.toNat + 256 * 0))))
  congr 1
  omega

/-- A number is read modulo what two bytes hold. -/
theorem u16_leBytes {n : Nat} (h : At b i (leBytes 2 n)) : u16 b i = .ok (n % 65536) := by
  rw [u16_of_at h (length_leBytes 2 n), ofLE_leBytes_mod]
  rfl

theorem u32_leBytes {n : Nat} (h : At b i (leBytes 4 n)) : u32 b i = .ok (n % 4294967296) := by
  rw [u32_of_at h (length_leBytes 4 n), ofLE_leBytes_mod]
  rfl

theorem byteAt_lt {n : Nat} (h : byteAt b i = .ok n) : n < 256 ∧ i < b.length := by
  unfold byteAt at h
  split at h
  next byte hGet =>
    cases h
    exact ⟨byte.toNat_lt, (List.getElem?_eq_some_iff.mp hGet).1⟩
  next => cases h

theorem u16_lt {n : Nat} (h : u16 b i = .ok n) : n < 65536 := by
  obtain ⟨x, hx, hRest⟩ := bind_ok h
  obtain ⟨y, hy, hn⟩ := bind_ok hRest
  cases hn
  have hx := byteAt_lt hx
  have hy := byteAt_lt hy
  omega

/-- Four bytes are there to be read. -/
theorem u32_inside {n : Nat} (h : u32 b i = .ok n) : i + 4 ≤ b.length := by
  obtain ⟨x, _, hRest⟩ := bind_ok h
  obtain ⟨y, _, hRest⟩ := bind_ok hRest
  obtain ⟨z, _, hRest⟩ := bind_ok hRest
  obtain ⟨t, ht, -⟩ := bind_ok hRest
  have ht := byteAt_lt ht
  omega

/-- A read of a part answers it. -/
theorem read_of_at (h : At b i part) : read b i part.length = .ok part := by
  cases part with
  | nil =>
    have hNone : readAt b i 0 = [] := by
      unfold readAt
      split_ifs
      · rfl
      · refine List.eq_nil_of_length_eq_zero ?_
        rw [length_slice]
        omega
    rw [List.length_nil, read, hNone]
    rfl
  | cons x xs =>
    have hIn := h.le_length (List.cons_ne_nil x xs)
    have hPart : readAt b i (x :: xs).length = x :: xs := by
      rw [readAt, if_neg (by rw [List.length_cons] at hIn; omega), Nat.min_eq_left hIn]
      exact h
    rw [read, hPart, if_pos rfl]

end Reading

end Quoin.Archive
