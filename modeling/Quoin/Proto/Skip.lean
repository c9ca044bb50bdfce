import Mathlib
import Quoin.Proto.Scalars
import Quoin.Wire.MessagePack

/-!
# Quoin — the skipper knows every MessagePack value

`skip_value` walks past one value of any shape, the shapes `write_dv` never
writes included: each encoding of the format, whatever it holds, is one arm
of its `match`, and the arm takes exactly the bytes of that encoding. Nesting
is what it bounds: `skipValueRoom_reads` needs more room than the value
nests, so from depth 0 it passes everything nested at most `maxDvDepth` deep
(`skipValue_reads`).

## Results

* `skipValueRoom_reads` — given room for its nesting, the skipper passes a value and stops behind
  it;
* `skipValue_agrees` — at any depth, what the reader reads the skipper passes, and so it does every
  value of the format that nests within the limit.
-/

namespace Quoin.Proto

open Wire Wire.MessagePack

variable {skipInner : Dec Unit}

/-- Taking `n` bytes and dropping them. -/
theorem skipTake_reads {n : Nat} {payload : Bytes} (hlen : payload.length = n) :
    Reads (take n >>= fun _ => pure ()) payload () :=
  (Reads.take hlen).bind_pure (Reads.pure ())

/-! ## Scalars -/

theorem skipValueBody_posFixint (n : Fin 128) :
    Reads (skipValueBody skipInner) [UInt8.ofNat n] () := by
  have hmark : UInt8.ofNat n ≤ 0x7f := by
    revert n
    decide
  refine (takeU8_reads _).bind_pure ?_
  rw [skipValueMarker, if_pos (Or.inl hmark)]
  exact Reads.pure ()

theorem skipValueBody_negFixint (n : Fin 32) :
    Reads (skipValueBody skipInner) [0xe0 ||| UInt8.ofNat n] () := by
  have hmark : 0xe0 ≤ 0xe0 ||| UInt8.ofNat n := by
    revert n
    decide
  refine (takeU8_reads _).bind_pure ?_
  rw [skipValueMarker, if_pos (Or.inr (Or.inl hmark))]
  exact Reads.pure ()

theorem skipValueBody_number {f : NumberFormat} {payload : Bytes}
    (hsize : payload.length = f.size) :
    Reads (skipValueBody skipInner) (f.marker :: payload) () := by
  cases f
  all_goals exact (takeU8_reads _).bind (skipTake_reads hsize)

/-! ## Strings, binaries and extensions -/

theorem skipValueMarker_fixstr {n : Nat} (hn : n < 32) :
    skipValueMarker skipInner (0xa0 ||| UInt8.ofNat n) =
      (take n >>= fun _ => pure ()) := by
  interval_cases n <;> rfl

theorem skipValueBody_fixstr {s : Bytes} (hlen : s.length < 32) :
    Reads (skipValueBody skipInner) ((0xa0 ||| UInt8.ofNat s.length) :: s) () := by
  refine (takeU8_reads _).bind ?_
  rw [skipValueMarker_fixstr hlen]
  exact skipTake_reads rfl

/-! A length of one, two or four bytes, then whatever it announces. -/

theorem takeU8_then {f : UInt8 → Dec Unit} {n : Nat} {s : Bytes} (hn : n < 256 ^ 1)
    (hf : ∀ m : UInt8, m.toNat = n → Reads (f m) s ()) :
    Reads (takeU8 >>= f) (beBytes 1 n ++ s) () :=
  (takeU8_reads_ofNat n).bind (hf _ (UInt8.toNat_ofNat_of_lt' hn))

theorem takeU16_then {f : UInt16 → Dec Unit} {n : Nat} {s : Bytes} (hn : n < 256 ^ 2)
    (hf : ∀ m : UInt16, m.toNat = n → Reads (f m) s ()) :
    Reads (takeU16 >>= f) (beBytes 2 n ++ s) () :=
  (takeU16_reads n).bind (hf _ (UInt16.toNat_ofNat_of_lt' hn))

theorem takeU32_then {f : UInt32 → Dec Unit} {n : Nat} {s : Bytes} (hn : n < 256 ^ 4)
    (hf : ∀ m : UInt32, m.toNat = n → Reads (f m) s ()) :
    Reads (takeU32 >>= f) (beBytes 4 n ++ s) () :=
  (takeU32_reads n).bind (hf _ (UInt32.toNat_ofNat_of_lt' hn))

theorem skipValueBody_blob {f : BlobFormat} {s : Bytes} (hlen : s.length < 256 ^ f.width) :
    Reads (skipValueBody skipInner) (f.marker :: (beBytes f.width s.length ++ s)) () := by
  cases f with
  | str8 | bin8 =>
    exact (takeU8_reads _).bind (takeU8_then hlen fun _ hm => skipTake_reads hm.symm)
  | str16 | bin16 =>
    exact (takeU8_reads _).bind (takeU16_then hlen fun _ hm => skipTake_reads hm.symm)
  | str32 | bin32 =>
    exact (takeU8_reads _).bind (takeU32_then hlen fun _ hm => skipTake_reads hm.symm)

theorem skipValueBody_fixext {f : FixExtFormat} {ty : UInt8} {payload : Bytes}
    (hsize : payload.length = f.size) :
    Reads (skipValueBody skipInner) (f.marker :: ty :: payload) () := by
  have hlen : (ty :: payload).length = 1 + f.size := by
    rw [List.length_cons, hsize, Nat.add_comm]
  cases f
  all_goals exact (takeU8_reads _).bind (skipTake_reads hlen)

theorem skipValueBody_ext {f : ExtFormat} {ty : UInt8} {payload : Bytes}
    (hlen : payload.length < 256 ^ f.width) :
    Reads (skipValueBody skipInner)
      (f.marker :: (beBytes f.width payload.length ++ ty :: payload)) () := by
  -- the type byte is not counted by the announced length
  have htyped : ∀ {n : Nat}, n = payload.length → (ty :: payload).length = 1 + n := by
    rintro n rfl
    rw [List.length_cons, Nat.add_comm]
  cases f with
  | ext8 =>
    exact (takeU8_reads _).bind (takeU8_then hlen fun _ hm => skipTake_reads (htyped hm))
  | ext16 =>
    exact (takeU8_reads _).bind (takeU16_then hlen fun _ hm => skipTake_reads (htyped hm))
  | ext32 =>
    exact (takeU8_reads _).bind (takeU32_then hlen fun _ hm => skipTake_reads (htyped hm))

/-! ## Collections -/

/-- Skipping a number of values one level down. -/
theorem skipInners_reads {parts : List Bytes} {n : Nat} (hcount : parts.length = n)
    (h : ∀ s ∈ parts, Reads skipInner s ()) :
    Reads (Reader.repeatN skipInner n >>= fun _ => pure ()) parts.flatten () := by
  subst hcount
  exact (Reads.repeatN_unit h).bind_pure (Reads.pure ())

theorem skipItems_reads {n : Nat} {items : Fin n → Value}
    (h : ∀ i, Reads skipInner (items i).bytes ()) :
    Reads (Reader.repeatN skipInner n >>= fun _ => pure ())
      (List.ofFn fun i => (items i).bytes).flatten () := by
  refine skipInners_reads (by simp) ?_
  intro s hs
  obtain ⟨i, rfl⟩ := List.mem_ofFn.mp hs
  exact h i

/-- The entries of a map are twice as many values: each key, then its value. -/
theorem flatten_entries {n : Nat} (keys values : Fin n → Bytes) :
    (List.ofFn fun i => keys i ++ values i).flatten
      = ((List.ofFn fun i => [keys i, values i]).flatten).flatten := by
  rw [List.flatten_flatten, List.map_ofFn]
  simp [Function.comp_def]

theorem skipEntries_reads {n : Nat} {keys values : Fin n → Value}
    (hkeys : ∀ i, Reads skipInner (keys i).bytes ())
    (hvalues : ∀ i, Reads skipInner (values i).bytes ()) :
    Reads (Reader.repeatN skipInner (2 * n) >>= fun _ => pure ())
      (List.ofFn fun i => (keys i).bytes ++ (values i).bytes).flatten () := by
  rw [flatten_entries]
  refine skipInners_reads ?_ ?_
  · simp [List.length_flatten, List.map_ofFn, Function.comp_def, List.ofFn_const, Nat.mul_comm]
  · intro s hs
    obtain ⟨pair, hpair, hmem⟩ := List.mem_flatten.mp hs
    obtain ⟨i, rfl⟩ := List.mem_ofFn.mp hpair
    simp only [List.mem_cons, List.not_mem_nil, or_false] at hmem
    obtain rfl | rfl := hmem
    · exact hkeys i
    · exact hvalues i

theorem skipValueMarker_fixarray {n : Nat} (hn : n < 16) :
    skipValueMarker skipInner (0x90 ||| UInt8.ofNat n) =
      (Reader.repeatN skipInner n >>= fun _ => pure ()) := by
  interval_cases n <;> rfl

theorem skipValueMarker_fixmap {n : Nat} (hn : n < 16) :
    skipValueMarker skipInner (0x80 ||| UInt8.ofNat n) =
      (Reader.repeatN skipInner (2 * n) >>= fun _ => pure ()) := by
  interval_cases n <;> rfl

theorem skipValueBody_array {f : CountFormat} {n : Nat} {items : Fin n → Value}
    (hcount : n < 256 ^ f.width) (h : ∀ i, Reads skipInner (items i).bytes ()) :
    Reads (skipValueBody skipInner) (f.arrayMarker ::
      (beBytes f.width n ++ (List.ofFn fun i => (items i).bytes).flatten)) () := by
  cases f with
  | count16 =>
    refine (takeU8_reads _).bind (takeU16_then hcount ?_)
    rintro m rfl
    exact skipItems_reads h
  | count32 =>
    refine (takeU8_reads _).bind (takeU32_then hcount ?_)
    rintro m rfl
    exact skipItems_reads h

theorem skipValueBody_map {f : CountFormat} {n : Nat} {keys values : Fin n → Value}
    (hcount : n < 256 ^ f.width) (hkeys : ∀ i, Reads skipInner (keys i).bytes ())
    (hvalues : ∀ i, Reads skipInner (values i).bytes ()) :
    Reads (skipValueBody skipInner) (f.mapMarker :: (beBytes f.width n ++
      (List.ofFn fun i => (keys i).bytes ++ (values i).bytes).flatten)) () := by
  cases f with
  | count16 =>
    refine (takeU8_reads _).bind (takeU16_then hcount ?_)
    rintro m rfl
    exact skipEntries_reads hkeys hvalues
  | count32 =>
    refine (takeU8_reads _).bind (takeU32_then hcount ?_)
    rintro m rfl
    exact skipEntries_reads hkeys hvalues

/-! ## The whole value -/

/-- With more room than the value nests, the skipper walks past exactly its
bytes. By induction on the room: a collection's children are skipped one level
down, where there is still room for what they nest. -/
theorem skipValueRoom_reads {room : Nat} {v : Value} (hnest : v.nesting < room) :
    Reads (skipValueRoom room) v.bytes () := by
  -- on the room; the children of a collection have one level less
  induction room generalizing v with
  | zero => omega
  | succ room ih =>
    have hitem : ∀ {n : Nat} {items : Fin n → Value},
        (Finset.univ.sup fun i => (items i).nesting + 1) < room + 1 →
          ∀ i, Reads (skipValueRoom room) (items i).bytes () := by
      intro n items hsup i
      have := Value.nesting_lt_sup items i
      exact ih (by omega)
    have hentry : ∀ {n : Nat} {keys values : Fin n → Value},
        (Finset.univ.sup fun i => max ((keys i).nesting + 1) ((values i).nesting + 1))
          < room + 1 → ∀ i, Reads (skipValueRoom room) (keys i).bytes () ∧
            Reads (skipValueRoom room) (values i).bytes () := by
      intro n keys values hsup i
      have := Value.nesting_lt_sup_entries keys values i
      exact ⟨ih (by omega), ih (by omega)⟩
    rw [skipValueRoom]
    cases v with
    | nil => exact (takeU8_reads 0xc0).bind_pure (Reads.pure ())
    | bool b =>
      cases b
      · exact (takeU8_reads 0xc2).bind_pure (Reads.pure ())
      · exact (takeU8_reads 0xc3).bind_pure (Reads.pure ())
    | posFixint n => exact skipValueBody_posFixint n
    | negFixint n => exact skipValueBody_negFixint n
    | number f payload hsize => exact skipValueBody_number hsize
    | fixstr s hlen => exact skipValueBody_fixstr hlen
    | blob f s hlen => exact skipValueBody_blob hlen
    | fixext f ty payload hsize => exact skipValueBody_fixext hsize
    | ext f ty payload hlen => exact skipValueBody_ext hlen
    | fixarray n hcount items =>
      refine (takeU8_reads _).bind ?_
      rw [skipValueMarker_fixarray hcount]
      exact skipItems_reads (hitem hnest)
    | array f n hcount items => exact skipValueBody_array hcount (hitem hnest)
    | fixmap n hcount keys values =>
      have h := hentry hnest
      refine (takeU8_reads _).bind ?_
      rw [skipValueMarker_fixmap hcount]
      exact skipEntries_reads (fun i => (h i).1) fun i => (h i).2
    | map f n hcount keys values =>
      have h := hentry hnest
      exact skipValueBody_map hcount (fun i => (h i).1) fun i => (h i).2

theorem skipValue_reads {v : Value} (hnest : v.nesting ≤ maxDvDepth) :
    Reads (skipValue 0) v.bytes () :=
  skipValueRoom_reads (by omega)

/-- The surplus fields of an array, walked past one by one. -/
theorem skipExtra_reads {vs : List Value} (hnest : ∀ v ∈ vs, v.nesting ≤ maxDvDepth) :
    Reads (skipExtra vs.length) (valuesBytes vs) () := by
  have hparts : ∀ s ∈ vs.map Value.bytes, Reads (skipValue 0) s () := by
    intro s hs
    obtain ⟨v, hv, rfl⟩ := List.mem_map.mp hs
    exact skipValue_reads (hnest v hv)
  have hread := Reads.repeatN_unit hparts
  rw [List.length_map, ← List.flatMap_def] at hread
  exact hread.bind_pure (Reads.pure ())

/-! ## What `read_dv` reads

`read_dv` refuses more than the skipper does (a key that is no string, text
that is not UTF-8, an unknown extension), but what it does read, it reads off
the same bytes: arm by arm, the two take the same header and the same payload.
-/

/-- Wherever `p` succeeds its answer is a `P`, and the skipper `q` succeeds too and
leaves the same rest. -/
abbrev Skips {α : Type} (P : α → Prop) (p : Dec α) (q : Dec Unit) : Prop :=
  Tracks (fun a _ => P a) p q

/-- Whatever is read. -/
abbrev Any {α : Type} : α → Prop := fun _ => True

variable {α : Type} {P : α → Prop} {readInner : Dec DataValue}

/-- What an answer is made of takes no bytes of its own. -/
theorem Skips.of_take {n : Nat} {f : Bytes → Dec α} (hf : ∀ b, Skips P (f b) (pure ())) :
    Skips P (take n >>= f) (take n >>= fun _ => pure ()) :=
  (Tracks.same (take n)).bind fun b _ _ => hf b

theorem Skips.done {a : α} (h : P a) : Skips P (pure a) (pure ()) := Tracks.pure h

theorem skips_fromUtf8 {err : DecodeError} {b : Bytes} {f : String → Dec α}
    (hf : ∀ s, Skips P (f s) (pure ())) : Skips P (fromUtf8 err b >>= f) (pure ()) := by
  unfold fromUtf8
  split
  next s _ =>
    rw [pure_bind]
    exact hf s
  next =>
    -- nothing is read, so there is nothing to skip
    rintro rd a rest ⟨⟩

/-! A fixed-width integer is its bytes. -/

theorem skips_takeU8 {f : UInt8 → Dec α} (hf : ∀ v, Skips P (f v) (pure ())) :
    Skips P (takeU8 >>= f) (take 1 >>= fun _ => pure ()) := by
  rw [takeU8, bind_assoc]
  exact Skips.of_take fun b => by simpa using hf _

theorem skips_takeU16 {f : UInt16 → Dec α} (hf : ∀ v, Skips P (f v) (pure ())) :
    Skips P (takeU16 >>= f) (take 2 >>= fun _ => pure ()) := by
  rw [takeU16, bind_assoc]
  exact Skips.of_take fun b => by simpa using hf _

theorem skips_takeU32 {f : UInt32 → Dec α} (hf : ∀ v, Skips P (f v) (pure ())) :
    Skips P (takeU32 >>= f) (take 4 >>= fun _ => pure ()) := by
  rw [takeU32, bind_assoc]
  exact Skips.of_take fun b => by simpa using hf _

theorem skips_takeU64 {f : UInt64 → Dec α} (hf : ∀ v, Skips P (f v) (pure ())) :
    Skips P (takeU64 >>= f) (take 8 >>= fun _ => pure ()) := by
  rw [takeU64, bind_assoc]
  exact Skips.of_take fun b => by simpa using hf _

/-! Text, blobs and extensions. -/

theorem skips_readStrDv {P : DataValue → Prop} (h : ∀ s, P (.str s)) (n : Nat) :
    Skips P (readStrDv n) (take n >>= fun _ => pure ()) :=
  Skips.of_take fun _ => skips_fromUtf8 fun s => Skips.done (h s)

theorem skips_bytes {P : DataValue → Prop} (h : ∀ b, P (.bytes b)) (n : Nat) :
    Skips P (take n >>= fun b => pure (DataValue.bytes b)) (take n >>= fun _ => pure ()) :=
  Skips.of_take fun b => Skips.done (h b)

/-- A value that nests less than `room` deep. -/
abbrev Within (room : Nat) (dv : DataValue) : Prop := dv.nesting < room

theorem skips_extPayload {room : Nat} (ty : Int8) (payload : Bytes) :
    Skips (Within (room + 1)) (extPayload ty payload) (pure ()) := by
  have hLeaf := Nat.succ_pos room
  unfold extPayload
  refine Tracks.ite (fun _ => skips_fromUtf8 fun _ => Skips.done hLeaf) fun _ => ?_
  refine Tracks.ite (fun _ => skips_fromUtf8 fun _ => Skips.done hLeaf) fun _ => ?_
  refine Tracks.ite (fun _ => ?_) fun _ => Tracks.throw _
  refine Tracks.ite (fun _ => Tracks.throw _) fun _ => ?_
  exact skips_fromUtf8 fun _ => Skips.done hLeaf

/-- Two payloads taken one after the other are one payload. -/
theorem skips_take_take (m n : Nat) :
    Skips Any (take m >>= fun _ => take n >>= fun _ => pure ())
      (take (m + n) >>= fun _ => pure ()) := by
  intro rd u rest h
  refine ⟨(), ?_, trivial⟩
  by_cases hm : rd.length < m
  · have hNone : take m rd = .error .truncated := if_pos hm
    have hRead : (take m rd >>= fun r => (take n >>= fun _ => pure ()) r.2) = .ok (u, rest) := h
    rw [hNone] at hRead
    contradiction
  · have hFirst : take m rd = .ok (rd.take m, rd.drop m) := if_neg hm
    have hRead : (take m rd >>= fun r => (take n >>= fun _ => (pure () : Dec Unit)) r.2)
        = .ok (u, rest) := h
    rw [hFirst] at hRead
    by_cases hn : (rd.drop m).length < n
    · have hShort : take n (rd.drop m) = .error .truncated := if_pos hn
      have hNone : (take n (rd.drop m) >>= fun r => (pure () : Dec Unit) r.2) = .ok (u, rest) :=
        hRead
      rw [hShort] at hNone
      contradiction
    · have hSecond : take n (rd.drop m) = .ok ((rd.drop m).take n, (rd.drop m).drop n) :=
        if_neg hn
      have hLast : (take n (rd.drop m) >>= fun r => (pure () : Dec Unit) r.2) = .ok (u, rest) :=
        hRead
      rw [hSecond] at hLast
      have hRest : (rd.drop m).drop n = rest := by
        injection hLast with hPair
        exact (Prod.mk.inj hPair).2
      have hLong : ¬ rd.length < m + n := by
        rw [List.length_drop] at hn
        omega
      have hBoth : take (m + n) rd = .ok (rd.take (m + n), rd.drop (m + n)) := if_neg hLong
      show (take (m + n) rd >>= fun r => (pure () : Dec Unit) r.2) = .ok ((), rest)
      rw [hBoth, ← hRest, List.drop_drop]
      rfl

/-- The type byte of an extension is one more byte of what is skipped. -/
theorem skips_readExt {room : Nat} (n : Nat) :
    Skips (Within (room + 1)) (readExt n) (take (1 + n) >>= fun _ => pure ()) := by
  have hParts : Skips (Within (room + 1)) (readExt n)
      (take 1 >>= fun _ => take n >>= fun _ => pure ()) := by
    rw [readExt, takeU8, bind_assoc]
    refine (Tracks.same (take 1)).bind fun b _ _ => ?_
    rw [pure_bind]
    exact Skips.of_take fun payload => skips_extPayload _ payload
  intro rd a rest h
  obtain ⟨u, hu, hWithin⟩ := hParts rd a rest h
  obtain ⟨w, hw, -⟩ := skips_take_take 1 n rd u rest hu
  exact ⟨w, hw, hWithin⟩

/-! Collections. -/

theorem itemsNesting_lt {room : Nat} {items : List DataValue} {us : List Unit}
    (h : List.Forall₂ (fun item _ => Within room item) items us) :
    itemsNesting items < room + 1 := by
  induction h with
  | nil => exact Nat.succ_pos room
  | cons hHead _ ih =>
    rw [itemsNesting]
    omega

theorem skips_readList {room : Nat} (h : Skips (Within room) readInner skipInner) (n : Nat) :
    Skips (Within (room + 1)) (readList readInner n)
      (Reader.repeatN skipInner n >>= fun _ => pure ()) :=
  (h.repeatN n).bind fun _ _ hItems => Skips.done (itemsNesting_lt hItems)

theorem skips_readEntry {room : Nat} (h : Skips (Within room) readInner skipInner) :
    Skips (fun entry => Within room entry.2) (readEntry readInner)
      (skipInner >>= fun _ => skipInner) := by
  refine h.bind fun key _ _ => ?_
  cases key with
  | str key => exact Tracks.answer (h.mono fun _ _ hValue => hValue)
  | _ => exact Tracks.throw _

/-- An entry is two values to the skipper, so `n` entries are `2 * n`. -/
theorem skips_entries {room : Nat} (h : Skips (Within room) readInner skipInner) (n : Nat) :
    Tracks (fun entries _ => entriesNesting entries < room + 1)
      (Reader.repeatN (readEntry readInner) n) (Reader.repeatN skipInner (2 * n)) := by
  induction n with
  | zero => exact Tracks.pure (Nat.succ_pos room)
  | succ n ih =>
    have hTwo : Reader.repeatN skipInner (2 * (n + 1)) =
        (skipInner >>= fun _ => skipInner) >>= fun u =>
          Reader.repeatN skipInner (2 * n) >>= fun us => pure (() :: u :: us) := by
      rw [show 2 * (n + 1) = 2 * n + 1 + 1 by omega, Reader.repeatN, Reader.repeatN]
      simp only [bind_assoc, pure_bind]
    rw [hTwo]
    refine (skips_readEntry h).bind fun entry _ hEntry => ih.bind fun _ _ hRest => ?_
    refine Tracks.pure ?_
    rw [entriesNesting]
    omega

theorem skips_readMap {room : Nat} (h : Skips (Within room) readInner skipInner) (n : Nat) :
    Skips (Within (room + 1)) (readMap readInner n)
      (Reader.repeatN skipInner (2 * n) >>= fun _ => pure ()) :=
  (skips_entries h n).bind fun _ _ hEntries => Skips.done hEntries

/-! The markers that carry their length in their low bits. -/

theorem fixstr_marker {m : UInt8} : 0xa0 ≤ m ∧ m ≤ 0xbf →
    0xa0 ||| UInt8.ofNat (m &&& 0x1f).toNat = m ∧ (m &&& 0x1f).toNat < 32 := by
  revert m
  decide +kernel

theorem fixarray_marker {m : UInt8} : 0x90 ≤ m ∧ m ≤ 0x9f →
    0x90 ||| UInt8.ofNat (m &&& 0x0f).toNat = m ∧ (m &&& 0x0f).toNat < 16 := by
  revert m
  decide +kernel

theorem fixmap_marker {m : UInt8} : 0x80 ≤ m ∧ m ≤ 0x8f →
    0x80 ||| UInt8.ofNat (m &&& 0x0f).toNat = m ∧ (m &&& 0x0f).toNat < 16 := by
  revert m
  decide +kernel

/-- Marker by marker, the skipper takes what the reader takes, and what is read
goes down at most one level more. -/
theorem skips_marker {room : Nat} (h : Skips (Within room) readInner skipInner) (m : UInt8) :
    Skips (Within (room + 1)) (readDvMarker readInner m) (skipValueMarker skipInner m) := by
  have hLeaf := Nat.succ_pos room
  unfold readDvMarker
  refine Tracks.ite (fun hm => ?_) fun _ => ?_
  · rw [skipValueMarker, if_pos (Or.inl hm)]
    exact Skips.done hLeaf
  refine Tracks.ite (fun hm => ?_) fun _ => ?_
  · rw [skipValueMarker, if_pos (Or.inr (Or.inl hm))]
    exact Skips.done hLeaf
  -- one byte, or one integer
  refine Tracks.ite (fun hm => hm ▸ Skips.done hLeaf) fun _ => ?_
  refine Tracks.ite (fun hm => hm ▸ Skips.done hLeaf) fun _ => ?_
  refine Tracks.ite (fun hm => hm ▸ Skips.done hLeaf) fun _ => ?_
  refine Tracks.ite (fun hm => hm ▸ skips_takeU8 fun _ => Skips.done hLeaf) fun _ => ?_
  refine Tracks.ite (fun hm => hm ▸ skips_takeU16 fun _ => Skips.done hLeaf) fun _ => ?_
  refine Tracks.ite (fun hm => hm ▸ skips_takeU32 fun _ => Skips.done hLeaf) fun _ => ?_
  refine Tracks.ite (fun hm => ?_) fun _ => ?_
  · subst hm
    refine skips_takeU64 fun v => ?_
    exact Tracks.ite (fun _ => Skips.done hLeaf) fun _ => Skips.done hLeaf
  refine Tracks.ite (fun hm => hm ▸ skips_takeU8 fun _ => Skips.done hLeaf) fun _ => ?_
  refine Tracks.ite (fun hm => hm ▸ skips_takeU16 fun _ => Skips.done hLeaf) fun _ => ?_
  refine Tracks.ite (fun hm => hm ▸ skips_takeU32 fun _ => Skips.done hLeaf) fun _ => ?_
  refine Tracks.ite (fun hm => hm ▸ skips_takeU64 fun _ => Skips.done hLeaf) fun _ => ?_
  refine Tracks.ite (fun hm => hm ▸ skips_takeU32 fun _ => Skips.done hLeaf) fun _ => ?_
  refine Tracks.ite (fun hm => hm ▸ skips_takeU64 fun _ => Skips.done hLeaf) fun _ => ?_
  -- strings and binaries
  have hStr (n : Nat) :
      Skips (Within (room + 1)) (readStrDv n) (take n >>= fun _ => pure ()) :=
    skips_readStrDv (fun _ => hLeaf) n
  have hBytes (n : Nat) : Skips (Within (room + 1))
      (take n >>= fun b => pure (DataValue.bytes b)) (take n >>= fun _ => pure ()) :=
    skips_bytes (fun _ => hLeaf) n
  refine Tracks.ite (fun hm => ?_) fun _ => ?_
  · obtain ⟨hEq, hLt⟩ := fixstr_marker hm
    have hSkip := @skipValueMarker_fixstr skipInner _ hLt
    rw [hEq] at hSkip
    rw [hSkip]
    exact hStr _
  refine Tracks.ite (fun hm => hm ▸ Tracks.after fun n => hStr n.toNat) fun _ => ?_
  refine Tracks.ite (fun hm => hm ▸ Tracks.after fun n => hStr n.toNat) fun _ => ?_
  refine Tracks.ite (fun hm => hm ▸ Tracks.after fun n => hStr n.toNat) fun _ => ?_
  refine Tracks.ite (fun hm => hm ▸ Tracks.after fun n => hBytes n.toNat) fun _ => ?_
  refine Tracks.ite (fun hm => hm ▸ Tracks.after fun n => hBytes n.toNat) fun _ => ?_
  refine Tracks.ite (fun hm => hm ▸ Tracks.after fun n => hBytes n.toNat) fun _ => ?_
  -- lists and maps
  refine Tracks.ite (fun hm => ?_) fun _ => ?_
  · obtain ⟨hEq, hLt⟩ := fixarray_marker hm
    have hSkip := @skipValueMarker_fixarray skipInner _ hLt
    rw [hEq] at hSkip
    rw [hSkip]
    exact skips_readList h _
  refine Tracks.ite (fun hm => hm ▸ Tracks.after fun n => skips_readList h n.toNat) fun _ => ?_
  refine Tracks.ite (fun hm => hm ▸ Tracks.after fun n => skips_readList h n.toNat) fun _ => ?_
  refine Tracks.ite (fun hm => ?_) fun _ => ?_
  · obtain ⟨hEq, hLt⟩ := fixmap_marker hm
    have hSkip := @skipValueMarker_fixmap skipInner _ hLt
    rw [hEq] at hSkip
    rw [hSkip]
    exact skips_readMap h _
  refine Tracks.ite (fun hm => hm ▸ Tracks.after fun n => skips_readMap h n.toNat) fun _ => ?_
  refine Tracks.ite (fun hm => hm ▸ Tracks.after fun n => skips_readMap h n.toNat) fun _ => ?_
  -- extensions
  refine Tracks.ite (fun hm => hm ▸ skips_readExt 1) fun _ => ?_
  refine Tracks.ite (fun hm => hm ▸ skips_readExt 2) fun _ => ?_
  refine Tracks.ite (fun hm => hm ▸ skips_readExt 4) fun _ => ?_
  refine Tracks.ite (fun hm => hm ▸ skips_readExt 8) fun _ => ?_
  refine Tracks.ite (fun hm => hm ▸ skips_readExt 16) fun _ => ?_
  refine Tracks.ite (fun hm => hm ▸ Tracks.after fun n => skips_readExt n.toNat) fun _ => ?_
  refine Tracks.ite (fun hm => hm ▸ Tracks.after fun n => skips_readExt n.toNat) fun _ => ?_
  refine Tracks.ite (fun hm => hm ▸ Tracks.after fun n => skips_readExt n.toNat) fun _ => ?_
  exact Tracks.throw _

/-- By induction on the room left: both go one level down for what a collection
holds. -/
theorem skips_readDvRoom (room : Nat) :
    Skips (Within room) (readDvRoom room) (skipValueRoom room) := by
  induction room with
  | zero => exact Tracks.throw _
  | succ room ih => exact Tracks.after fun m => skips_marker ih m

/-- **The skipper stays in step with the reader.** What `read_dv` reads at some
depth, `skip_value` walks past, leaving the same rest; and any well-formed value
that nests within the limit, readable or not, is skipped whole. -/
theorem skipValue_agrees :
    (∀ (depth : Nat) (rd : Bytes) (dv : DataValue) (rest : Bytes),
      readDv depth rd = .ok (dv, rest) → skipValue depth rd = .ok ((), rest)) ∧
    (∀ (depth : Nat) (v : Value), depth + v.nesting ≤ maxDvDepth →
      Reads (skipValue depth) v.bytes ()) := by
  constructor
  · intro depth rd dv rest h
    obtain ⟨_, hSkip, -⟩ := skips_readDvRoom (maxDvDepth + 1 - depth) rd dv rest h
    exact hSkip
  · intro depth v hnest
    exact skipValueRoom_reads (by omega)

/-- One level above the limit a list is read and skipped alike; at the limit an ext value is
skipped, which the reader refuses. -/
theorem skipValue_agrees_nested :
    readDv 63 [0x91, 0xcd, 0x01, 0x00, 0xc1] = .ok (.list [.int 256], [0xc1]) ∧
    skipValue 63 [0x91, 0xcd, 0x01, 0x00, 0xc1] = .ok ((), [0xc1]) ∧
    Reads (skipValue 64) [0xd6, 0x63, 1, 2, 3, 4] () :=
  have hRead : readDv 63 [0x91, 0xcd, 0x01, 0x00, 0xc1] = .ok (.list [.int 256], [0xc1]) := rfl
  ⟨hRead, skipValue_agrees.1 63 _ _ _ hRead,
    skipValue_agrees.2 64 (.fixext .fixext4 0x63 [1, 2, 3, 4] rfl) (by decide)⟩

end Quoin.Proto
