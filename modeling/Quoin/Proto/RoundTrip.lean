import Mathlib
import Quoin.Proto.Frames

/-!
# Quoin — the codec as a whole

`decode_frame_with_meta` inverts `encode_with_meta` on every message whose
parts fit the format (`Msg.Encodable`). The one part that is easy to miss is
the ext payload of a `DataValue.resource`: its 8-byte id counts towards the
32-bit length, so a class name of at least `2^32 - 8` bytes — short enough
for every string header — makes the sender write a truncated ext length, and
the receiver refuses the frame (`decode_longResource`).

## Results

* `decodeFrameWithMeta_encodeWithMeta` — every encodable message comes back, with its meta;
* `decode_longName_ne` — a resource whose class name has 2^32 - 8 bytes does not.
-/

namespace Quoin.Proto

open Wire

/-! ## What the wire can carry -/

/-- The parts of a message fit the format: lengths and resource payloads below
2^32, values nested within the depth bound, and no optional payload that is
`Some(Null)`. -/
structure Msg.Encodable (msg : Msg) : Prop where
  lengths : ∀ n ∈ msg.lengths, n < 2 ^ 32
  payloads : ∀ n ∈ msg.payloads, n < 2 ^ 32
  nesting : ∀ dv ∈ msg.values, dv.nesting ≤ maxDvDepth
  noSomeNull : msg.noSomeNull

namespace Msg.Encodable

variable {msg : Msg}

theorem own (h : msg.Encodable) {n : Nat} (hn : n ∈ msg.ownLengths) : n < 2 ^ 32 :=
  h.lengths n (List.mem_append_left _ hn)

theorem fits (h : msg.Encodable) {dv : DataValue} (hdv : dv ∈ msg.values) : Fits dv where
  lengths n hn := h.lengths n (List.mem_append_right _ (List.mem_flatMap.mpr ⟨dv, hdv, hn⟩))
  payloads n hn := h.payloads n (List.mem_flatMap.mpr ⟨dv, hdv, hn⟩)

end Msg.Encodable

theorem strFits_of_optStrLengths {s : Option String} {l : List Nat}
    (h : ∀ n ∈ l, n < 2 ^ 32) (hsub : optStrLengths s ⊆ l) : ∀ x ∈ s, strFits x := by
  rintro x rfl
  exact h _ (hsub (by simp [optStrLengths]))

theorem classDecl_encodable {classes : List ClassDecl} {l : List Nat}
    (h : ∀ n ∈ l, n < 2 ^ 32) (hsub : classes.flatMap ClassDecl.lengths ⊆ l) :
    ∀ c ∈ classes, c.Encodable := by
  intro c hc n hn
  exact h n (hsub (List.mem_flatMap.mpr ⟨c, hc, hn⟩))

/-! ## The round trip -/

theorem call_of_encodable {op arg className : String} {handles resources releases : List UInt64}
    {arrays : List ArrowArray} {data : Option DataValue} {recv : UInt64} {methodArgs : List Arg}
    (h : (Msg.call op arg handles resources releases arrays data className recv
      methodArgs).Encodable) (replyMeta : Option ReplyMeta) :
    RoundTrips (.call op arg handles resources releases arrays data className recv methodArgs)
      replyMeta := by
  have hdata : ∀ d ∈ data, d ∈ (Msg.call op arg handles resources releases arrays data className
      recv methodArgs).values := by
    rintro d rfl
    exact List.mem_append_left _ (by simp)
  have harg : ∀ d, Arg.data d ∈ methodArgs → d ∈ (Msg.call op arg handles resources releases
      arrays data className recv methodArgs).values := by
    intro d hd
    exact List.mem_append_right _ (List.mem_flatMap.mpr ⟨.data d, hd, by simp⟩)
  have harray : ∀ a ∈ arrays, a.data.length < 2 ^ 32 := by
    intro a ha
    refine h.own (List.mem_append_left _ (List.mem_append_right _ ?_))
    exact List.mem_flatMap.mpr ⟨a, ha, by simp [ArrowArray.lengths]⟩
  have hargs : ∀ a ∈ methodArgs, a.Encodable := by
    intro a ha
    cases a with
    | data d => exact ⟨h.nesting d (harg d ha), h.fits (harg d ha)⟩
    | array a =>
      refine h.own (List.mem_append_right _ ?_)
      exact List.mem_flatMap.mpr ⟨.array a, ha, by simp [Arg.lengths, ArrowArray.lengths]⟩
    | resource _ => trivial
    | handle _ => trivial
    | chan _ => trivial
  exact call_roundTrips replyMeta recv
    (h.own (by simp [Msg.ownLengths])) (h.own (by simp [Msg.ownLengths]))
    (h.own (by simp [Msg.ownLengths])) (h.own (by simp [Msg.ownLengths]))
    (h.own (by simp [Msg.ownLengths])) (h.own (by simp [Msg.ownLengths]))
    (h.own (by simp [Msg.ownLengths])) harray h.noSomeNull
    (fun d hd => h.nesting d (hdata d hd)) (fun d hd => h.fits (hdata d hd))
    (h.own (by simp [Msg.ownLengths])) hargs

/-- Every frame reads back, one message kind at a time. -/
theorem roundTrips {msg : Msg} (h : msg.Encodable) (replyMeta : Option ReplyMeta) :
    RoundTrips msg replyMeta := by
  -- one lemma per frame type; here only its bounds are taken from those of the message
  cases msg with
  | call => exact call_of_encodable h replyMeta
  | callReturn => exact callReturn_roundTrips _ (h.own (by simp [Msg.ownLengths]))
  | callReturnError =>
    exact callReturnError_roundTrips _ (h.own (by simp [Msg.ownLengths]))
      (h.own (by simp [Msg.ownLengths]))
  | callReturnResource resource =>
    exact callReturnResource_roundTrips _ resource (h.own (by simp [Msg.ownLengths]))
  | callReturnChannel chan => exact callReturnChannel_roundTrips _ chan
  | callReturnResourceDecl resource =>
    exact callReturnResourceDecl_roundTrips _ resource fun n hn => h.own hn
  | chan kind chan corr value message =>
    have hvalue : ∀ d ∈ value, d ∈ (Msg.chan kind chan corr value message).values := by
      rintro d rfl
      simp [Msg.values]
    exact chan_roundTrips _ kind chan corr h.noSomeNull
      (fun d hd => h.nesting d (hvalue d hd)) (fun d hd => h.fits (hvalue d hd))
      (h.own (by simp [Msg.ownLengths]))
  | callReturnArray array =>
    exact callReturnArray_roundTrips _ (h.own (by simp [Msg.ownLengths, ArrowArray.lengths]))
  | callReturnData value =>
    exact callReturnData_roundTrips _ (h.nesting value (by simp [Msg.values]))
      (h.fits (by simp [Msg.values]))
  | callReturnHandle handle => exact callReturnHandle_roundTrips _ handle
  | getManifest version => exact getManifest_roundTrips _ version
  | manifestReturn classes version lanes =>
    refine manifestReturn_roundTrips _ version lanes (h.own (by simp [Msg.ownLengths])) ?_
    exact classDecl_encodable (fun n hn => h.own hn) (List.subset_cons_self _ _)
  | makeString => exact makeString_roundTrips _ (h.own (by simp [Msg.ownLengths]))
  | handleToString handle => exact handleToString_roundTrips _ handle
  | retain handle => exact retain_roundTrips _ handle
  | release => exact release_roundTrips _ (h.own (by simp [Msg.ownLengths]))
  | callMethodOnHandle receiver =>
    exact callMethodOnHandle_roundTrips _ receiver (h.own (by simp [Msg.ownLengths]))
      (h.own (by simp [Msg.ownLengths]))
  | invokeBlock block batches =>
    refine invokeBlock_roundTrips _ block (h.own (by simp [Msg.ownLengths])) ?_
    intro batch hb
    exact h.own (List.mem_cons_of_mem _ (List.mem_map.mpr ⟨batch, hb, rfl⟩))
  | invokeBlockReturn results error remoteStack =>
    exact invokeBlockReturn_roundTrips _ (h.own (by simp [Msg.ownLengths]))
      (strFits_of_optStrLengths (fun n hn => h.own hn) (List.subset_append_right _ _))
      (h.own (by simp [Msg.ownLengths]))
  | getGlobal => exact getGlobal_roundTrips _ (h.own (by simp [Msg.ownLengths]))
  | makeValue value =>
    exact makeValue_roundTrips _ (h.nesting value (by simp [Msg.values]))
      (h.fits (by simp [Msg.values]))
  | readHandle handle => exact readHandle_roundTrips _ handle
  | readHandleReturn value error remoteStack =>
    exact readHandleReturn_roundTrips _ (h.nesting value (by simp [Msg.values]))
      (h.fits (by simp [Msg.values]))
      (strFits_of_optStrLengths (fun n hn => h.own hn) (List.subset_cons_self _ _))
      (h.own (by simp [Msg.ownLengths]))
  | hostOpReturn handle str error remoteStack =>
    have hopts : ∀ n ∈ optStrLengths str ++ optStrLengths error, n < 2 ^ 32 :=
      fun n hn => h.own (List.mem_cons_of_mem _ hn)
    exact hostOpReturn_roundTrips _ handle
      (strFits_of_optStrLengths hopts (List.subset_append_left _ _))
      (strFits_of_optStrLengths hopts (List.subset_append_right _ _))
      (h.own (by simp [Msg.ownLengths]))

/-- **The codec round-trips.** Decoding the bytes of an encoded message succeeds
and answers that message, with the meta it was sent with if it is a terminal
carrying one and the default meta otherwise. -/
theorem decodeFrameWithMeta_encodeWithMeta (msg : Msg) (replyMeta : Option ReplyMeta)
    (hlengths : ∀ n ∈ msg.lengths, n < 2 ^ 32) (hpayloads : ∀ n ∈ msg.payloads, n < 2 ^ 32)
    (hnesting : ∀ dv ∈ msg.values, dv.nesting ≤ maxDvDepth) (hnull : msg.noSomeNull) :
    decodeFrameWithMeta (encodeWithMeta msg replyMeta)
      = .ok (msg, if msg.isTerminal then replyMeta.getD {} else {}) := by
  have hread := roundTrips ⟨hlengths, hpayloads, hnesting, hnull⟩ replyMeta []
  rw [List.append_nil] at hread
  rw [decodeFrameWithMeta, hread]
  rfl

/-- A structured answer and its meta, round-tripped. -/
theorem decodeFrameWithMeta_encodeWithMeta_data :
    decodeFrameWithMeta (encodeWithMeta (.callReturnData
        (.list [.int (-200), .map [("k", .resource 7 "R")], .float ⟨0x7ff8000000000001⟩]))
        (some { handlerMicros := 70000 }))
      = .ok (.callReturnData
        (.list [.int (-200), .map [("k", .resource 7 "R")], .float ⟨0x7ff8000000000001⟩]),
        { handlerMicros := 70000 }) :=
  decodeFrameWithMeta_encodeWithMeta _ _ (by decide) (by decide) (by decide) trivial

/-! ## Where the ext length truncates -/

theorem writeExtHeader_long {n : Nat} (h : 2 ^ 32 ≤ n) :
    writeExtHeader n = 0xc9 :: beBytes 4 n := by
  unfold writeExtHeader
  split_ifs <;> first | omega | rfl

/-- An ext payload of `2^32` bytes and a few more is announced by the few. -/
theorem readDvBody_longResource {inner : Dec DataValue} (id : UInt64) {className : String}
    (hlong : 2 ^ 32 ≤ 8 + (utf8 className).length) (hfits : strFits className) :
    Refuses (readDvBody inner) (writeDv (.resource id className)) .resourcePayloadShort := by
  have hlen : (resourcePayload id className).length = 8 + (utf8 className).length := by
    simp [resourcePayload]
  have hheader := writeExtHeader_long (n := (resourcePayload id className).length) (by omega)
  -- the announced length: what is left of the true one, below the 8 bytes of the id
  obtain ⟨n, hn8, hn⟩ : ∃ n, n < 8 ∧
      (UInt32.ofNat (resourcePayload id className).length).toNat = n := by
    refine ⟨_, ?_, rfl⟩
    have := hfits
    rw [strFits] at this
    rw [UInt32.toNat_ofNat']
    omega
  rw [writeDv, writeExt, hheader]
  unfold readDvBody
  refine Refuses.of_reads (takeU8_reads 0xc9)
    (c := beBytes 4 _ ++ 3 :: resourcePayload id className) ?_
  refine Refuses.of_reads (takeU32_reads _) ?_
  rw [hn]
  unfold readExt
  refine Refuses.of_reads (takeU8_reads 3) (c := resourcePayload id className) ?_
  have hsplit : resourcePayload id className
      = (resourcePayload id className).take n ++ (resourcePayload id className).drop n :=
    (List.take_append_drop n _).symm
  have htake : ((resourcePayload id className).take n).length = n := by
    rw [List.length_take, hlen]
    omega
  rw [hsplit]
  refine Refuses.of_reads (Reads.take htake) ?_
  intro rest
  show (if ((resourcePayload id className).take n).length < 8 then
    (throw .resourcePayloadShort : Dec DataValue) else _) _ = _
  rw [if_pos (by omega)]
  rfl

/-- A class name of at least `2^32 - 8` bytes: the ext header keeps the low 32
bits of the payload length, fewer than the 8 bytes of the id, and the receiver
refuses the frame. -/
theorem decode_longResource (id : UInt64) {className : String}
    (hlong : 2 ^ 32 ≤ 8 + (utf8 className).length) (hfits : strFits className) :
    decodeFrameWithMeta (encodeWithMeta (.callReturnData (.resource id className)) none)
      = .error .resourcePayloadShort := by
  have hrefuse : Refuses readFrame (writeArrayHeader 2 ++ (writeUint tCallReturnData ++
      writeDv (.resource id className))) .resourcePayloadShort := by
    unfold readFrame
    refine Refuses.of_reads (readArrayHeader_reads (by omega)) ?_
    refine Refuses.of_reads (readUint_reads _) ?_
    exact Refuses.of_reads (s := []) (need_reads 1 0 _)
      (readDvBody_longResource id hlong hfits).bind
  have hframe : encodeWithMeta (.callReturnData (.resource id className)) none
      = (writeArrayHeader 2 ++ (writeUint tCallReturnData ++ writeDv (.resource id className)))
        ++ [] := by
    simp [encodeWithMeta, encodeFields, encodeMeta, metaN]
  rw [decodeFrameWithMeta, hframe, hrefuse]
  rfl

/-- The longest string the format can carry, all `a`. -/
def longName : String := String.ofList (List.replicate (2 ^ 32 - 1) 'a')

theorem length_utf8_replicate (n : Nat) :
    (utf8 (String.ofList (List.replicate n 'a'))).length = n := by
  induction n with
  | zero => rfl
  | succ n ih =>
    have hone : (['a'] : List Char).utf8Encode.size = 1 := by decide
    have hsize : (List.replicate n 'a').utf8Encode.size = n := by
      simpa [utf8] using ih
    simp only [utf8, String.toUTF8_eq_toByteArray, String.toByteArray_ofList,
      List.replicate_succ, Array.length_toList, ByteArray.size_data]
    rw [List.utf8Encode_cons, ByteArray.size_append, hone, hsize, Nat.add_comm]

/-- A resource with that name is within every length bound of a string, binary
or array, and does not round-trip. -/
theorem decode_longName_ne :
    (∀ n ∈ (Msg.callReturnData (.resource 0 longName)).lengths, n < 2 ^ 32) ∧
      (∀ dv ∈ (Msg.callReturnData (.resource 0 longName)).values, dv.nesting ≤ maxDvDepth) ∧
      (Msg.callReturnData (.resource 0 longName)).noSomeNull ∧
      decodeFrameWithMeta (encodeWithMeta (.callReturnData (.resource 0 longName)) none)
        ≠ .ok (.callReturnData (.resource 0 longName), {}) := by
  have hlen : (utf8 longName).length = 2 ^ 32 - 1 := length_utf8_replicate _
  refine ⟨?_, ?_, trivial, ?_⟩
  · intro n hn
    have heq : n = (utf8 longName).length := by
      simpa [Msg.lengths, Msg.ownLengths, Msg.values, DataValue.lengths, DataValue.parts,
        DataValue.nodeLengths] using hn
    omega
  · intro dv hdv
    have heq : dv = .resource 0 longName := by simpa [Msg.values] using hdv
    rw [heq]
    exact Nat.zero_le _
  · rw [decode_longResource 0 (by omega) (by rw [strFits]; omega)]
    intro heq
    cases heq

end Quoin.Proto
