import Mathlib
import Quoin.Wire.Delimit
import Quoin.Proto.Evolution

/-!
# Quoin — frames delimit themselves

A frame has no end mark: it is over when its header's fields are read. Three
things follow from how it is written and read, for every message whose lengths
fit the 32-bit headers:

* nothing shorter decodes, since the decoder is stable (`readFrame_stable`): what
  it reads off a beginning of the frame it reads off the frame;
* nothing longer decodes, since what the decoder makes of a frame does not depend
  on what follows (`frame_answers`), and it then finds trailing bytes;
* the bytes say which message it is (`onWire_eq_of_encode_eq`), up to an optional
  `Some(Null)` payload, which is written as `None`.

The last is about the encoder alone: it holds of messages the decoder refuses
too, values nested too deep and resources whose ext length wrapped. Beyond the
32-bit lengths none of the three does (`frame_wrapped_delimited`).

## Results

* `frame_delimited` — no beginning of a frame decodes, nothing behind it is accepted, and two
  messages have two frames;
* `frame_wrapped_delimited` — a length beyond 32 bits breaks each of the three.
-/

namespace Quoin.Proto

open Wire Wire.MessagePack

/-! ## The decoder is stable -/

@[grind ←] theorem take_stable (n : Nat) : Stable (take n) := Stable.take _ n

@[grind ←] theorem takeU8_stable : Stable takeU8 := by grind [takeU8]

@[grind ←] theorem takeU16_stable : Stable takeU16 := by grind [takeU16]

@[grind ←] theorem takeU32_stable : Stable takeU32 := by grind [takeU32]

@[grind ←] theorem takeU64_stable : Stable takeU64 := by grind [takeU64]

@[grind ←] theorem fromUtf8_stable (err : DecodeError) (b : Bytes) :
    Stable (fromUtf8 err b) := by
  unfold fromUtf8
  split <;> grind

@[grind ←] theorem readArrayHeader_stable : Stable readArrayHeader := by grind [readArrayHeader]

@[grind ←] theorem nonNegative_stable (v : Int64) : Stable (nonNegative v) := by
  grind [nonNegative]

@[grind ←] theorem readUint_stable : Stable readUint := by
  refine takeU8_stable.bind fun m => ?_
  repeat' refine Stable.ite ?_ ?_
  all_goals grind

@[grind ←] theorem readVersion_stable : Stable readVersion := by grind [readVersion]

@[grind ←] theorem readStr_stable : Stable readStr := by grind [readStr, readStrHeader]

@[grind ←] theorem readBin_stable : Stable readBin := by grind [readBin, readBinHeader]

@[grind ←] theorem readArray_stable {α : Type} {read : Dec α} (h : Stable read) :
    Stable (readArray read) := by
  grind [readArray]

@[grind ←] theorem readStrDv_stable (n : Nat) : Stable (readStrDv n) := by grind [readStrDv]

@[grind ←] theorem readExt_stable (n : Nat) : Stable (readExt n) := by
  grind [readExt, extPayload]

theorem readEntry_stable {inner : Dec DataValue} (h : Stable inner) :
    Stable (readEntry inner) := by
  refine h.bind fun key => ?_
  cases key <;> grind

theorem readDvBody_stable {inner : Dec DataValue} (h : Stable inner) :
    Stable (readDvBody inner) := by
  have hlist (n : Nat) : Stable (readList inner n) := by grind [readList]
  have hmap (n : Nat) : Stable (readMap inner n) := by
    have hentry := readEntry_stable h
    grind [readMap]
  refine takeU8_stable.bind fun m => ?_
  unfold readDvMarker
  repeat' refine Stable.ite ?_ ?_
  all_goals grind

@[grind ←] theorem readDvRoom_stable (room : Nat) : Stable (readDvRoom room) := by
  induction room with
  | zero => exact Stable.throw _
  | succ room ih => exact readDvBody_stable ih

@[grind ←] theorem readDv_stable (depth : Nat) : Stable (readDv depth) := readDvRoom_stable _

@[grind ←] theorem skipValueRoom_stable (room : Nat) : Stable (skipValueRoom room) := by
  induction room with
  | zero => exact Stable.throw _
  | succ room ih =>
    refine takeU8_stable.bind fun m => ?_
    unfold skipValueMarker
    repeat' refine Stable.ite ?_ ?_
    all_goals grind

@[grind ←] theorem skipExtra_stable (extra : Nat) : Stable (skipExtra extra) := by
  grind [skipExtra, skipValue]

/-- An optional field. At the end of an input `takeNil` finds no nil, so by itself
it is not stable; but there the value is not read either. -/
theorem takeNil_or_stable {α : Type} {read : Dec α} (h : Stable read)
    (hempty : ∀ a r, read [] ≠ .ok (a, r)) :
    Stable (do if ← takeNil then pure none else return some (← read)) := by
  intro rd more a rest hread
  by_cases hnil : ∃ t, rd = 0xc0 :: t
  · obtain ⟨t, rfl⟩ := hnil
    cases hread
    rfl
  · have hskip (b : UInt8) (t : Bytes) (hb : b ≠ 0xc0) : takeNil (b :: t) = .ok (false, b :: t) := by
      rw [takeNil]
      rintro tail heq
      injection heq with hhead
      exact hb hhead
    cases rd with
    | nil =>
      obtain ⟨⟨v, w⟩, hv, -⟩ := bind_ok (x := read []) hread
      exact absurd hv (hempty v w)
    | cons b t =>
      have hb : b ≠ 0xc0 := fun heq => hnil ⟨t, by rw [heq]⟩
      have hsome : Stable (read >>= fun a => pure (some a)) := h.bind fun a => Stable.pure _
      have hthis : (read >>= fun a => pure (some a)) (b :: t) = .ok (a, rest) := by
        have hboth : (takeNil (b :: t) >>= fun s => _) = .ok (a, rest) := hread
        rw [hskip b t hb] at hboth
        exact hboth
      show (takeNil (b :: (t ++ more)) >>= fun s => _) = _
      rw [hskip b _ hb]
      exact hsome (b :: t) more a rest hthis

@[grind ←] theorem readOptStr_stable : Stable readOptStr :=
  takeNil_or_stable readStr_stable fun a r h => by cases h

@[grind ←] theorem readOptDv_stable : Stable readOptDv :=
  takeNil_or_stable (readDv_stable 0) fun a r h => by cases h

@[grind ←] theorem need_stable (fields expected : Nat) (what : String) :
    Stable (need fields expected what) := by
  grind [need]

@[grind ←] theorem readAppendedStr_stable (extra : Nat) : Stable (readAppendedStr extra) := by
  grind [readAppendedStr]

@[grind ←] theorem readAppendedU64_stable (extra : Nat) : Stable (readAppendedU64 extra) := by
  grind [readAppendedU64]

@[grind ←] theorem readArrow_stable : Stable readArrow := by
  unfold readArrow
  repeat' with_reducible refine Stable.bind ?_ fun _ => ?_
  all_goals grind

@[grind ←] theorem readArg_stable : Stable readArg := by
  unfold readArg
  repeat' with_reducible refine Stable.bind ?_ fun _ => ?_
  all_goals grind

@[grind ←] theorem readClassDecl_stable : Stable readClassDecl := by
  grind [readClassDecl, readStrVec]

theorem readFields_stable (fields : Nat) (tag : UInt64) : Stable (readFields fields tag) := by
  unfold readFields
  split
  all_goals repeat' with_reducible refine Stable.bind ?_ fun _ => ?_
  all_goals first | exact Stable.throw _ | grind [readU64Vec, readStrVec]

theorem readFrame_stable : Stable readFrame := by
  refine readArrayHeader_stable.bind fun n => Stable.ite (Stable.throw _) ?_
  exact readUint_stable.bind fun tag => readFields_stable (n - 1) tag

/-! ## Every frame is answered -/

/-- Every length inside a message fits its 32-bit header. -/
def Msg.LengthsFit (msg : Msg) : Prop := ∀ n ∈ msg.lengths, n < 2 ^ 32

/-- A message that carries no structured value asks for nothing but its lengths. -/
theorem Msg.LengthsFit.encodable {msg : Msg} (h : msg.LengthsFit) (hvalues : msg.values = []) :
    msg.Encodable where
  lengths := h
  payloads n hn := by simp [Msg.payloads, hvalues] at hn
  nesting dv hdv := by simp [hvalues] at hdv
  noSomeNull := by
    cases msg <;> simp_all [Msg.values, Msg.noSomeNull]

theorem encodeWithMeta_none {msg : Msg} (hterm : msg.isTerminal = false) :
    encodeWithMeta msg none = encodeWithMeta msg (some {}) := by
  simp [encodeWithMeta, metaN, hterm, encodeMeta]

theorem callReturnData_answers {value : DataValue} (h : LengthsFit value) :
    ∃ r, Answers readFrame (encodeWithMeta (.callReturnData value) none) r := by
  have hagree : Agree readFrame
      [writeArrayHeader 2, writeUint tCallReturnData, writeDv value, []].flatten readFrame
      [writeArrayHeader 2, writeUint tCallReturnData, writeDv value, []].flatten := by
    have hheader := readArrayHeader_reads (n := 2) (by omega)
    have htag := readUint_reads tCallReturnData
    unfold readFrame
    refine Agree.field_reads hheader hheader ?_
    rw [if_neg (by omega)]
    refine Agree.field_reads htag htag ?_
    refine Agree.after_nil (need_reads 1 0 _) ?_
    exact (readDvRoom_agrees h).field fun _ => Agree.same (done_reads _)
  obtain ⟨r, hr, -⟩ := hagree
  exact ⟨r, hr⟩

/-- Whatever follows a frame, the decoder makes one thing of it: the message, or
an error. -/
theorem frame_answers {msg : Msg} (h : msg.LengthsFit) (replyMeta : Option ReplyMeta) :
    ∃ r, Answers readFrame (encodeWithMeta msg replyMeta) r := by
  have hsome : ∀ m, ∃ r, Answers readFrame (encodeWithMeta msg (some m)) r := by
    intro m
    have hagree : FramesAgree Appended.none Appended.none msg m :=
      frames_agree h (none_valid msg) (none_valid msg)
    rw [FramesAgree, encode_none] at hagree
    obtain ⟨r, hr, -⟩ := hagree
    exact ⟨r, hr⟩
  cases replyMeta with
  | some m => exact hsome m
  | none =>
    cases msg with
    | callReturnData value =>
      exact callReturnData_answers fun n hn => h n (List.mem_append_right _ (by simpa [Msg.values]))
    | callReturn | callReturnError | callReturnResource | callReturnChannel
    | callReturnResourceDecl | callReturnArray | callReturnHandle =>
      exact ⟨_, (roundTrips (h.encodable rfl) none).answers⟩
    | _ =>
      rw [encodeWithMeta_none rfl]
      exact hsome {}

/-! ## Values part

A value that is refused is still the only one with its bytes. To see it, read the
bytes with more room than the decoder has, and a resource whose ext length wrapped
with the length it has.
-/

/-- A resource of 2^32 payload bytes or a few more, announced by the few. -/
def readLongResource : Dec DataValue := do
  let _ ← takeU8
  let n ← takeU32
  let ty ← takeU8
  extPayload ty.toInt8 (← take (2 ^ 32 + n.toNat))

/-- One level of a value, a long resource included. -/
def readDvWide (inner : Dec DataValue) : Dec DataValue := fun rd =>
  match readDvBody inner rd with
  | .error .resourcePayloadShort => readLongResource rd
  | answer => answer

def readDvWideRoom : (room : Nat) → Dec DataValue
  | 0 => throw .nestingTooDeep
  | room + 1 => readDvWide (readDvWideRoom room)

theorem readDvWide_of_body {inner : Dec DataValue} {s : Bytes} {dv : DataValue}
    (h : Reads (readDvBody inner) s dv) : Reads (readDvWide inner) s dv := by
  intro rest
  rw [readDvWide, h rest]

theorem readDvWide_of_long {inner : Dec DataValue} {s : Bytes} {dv : DataValue}
    (hbody : Refuses (readDvBody inner) s .resourcePayloadShort)
    (hlong : Reads readLongResource s dv) : Reads (readDvWide inner) s dv := by
  intro rest
  rw [readDvWide, hbody rest]
  exact hlong rest

theorem readLongResource_reads (id : UInt64) {className : String}
    (hlong : 2 ^ 32 ≤ 8 + (utf8 className).length) (hfits : strFits className) :
    Reads readLongResource (writeDv (.resource id className)) (.resource id className) := by
  have hlen : (resourcePayload id className).length = 8 + (utf8 className).length := by
    simp [resourcePayload]
  rw [strFits] at hfits
  have hheader := writeExtHeader_long (n := (resourcePayload id className).length) (by omega)
  have hcount : 2 ^ 32 + (UInt32.ofNat (resourcePayload id className).length).toNat
      = (resourcePayload id className).length := by
    rw [UInt32.toNat_ofNat']
    omega
  rw [writeDv, writeExt, hheader]
  unfold readLongResource
  refine (takeU8_reads 0xc9).bind (c := beBytes 4 _ ++ 3 :: resourcePayload id className) ?_
  refine (takeU32_reads _).bind ?_
  refine (takeU8_reads 3).bind (c := resourcePayload id className) ?_
  rw [hcount]
  refine (Reads.take rfl).bind_pure ?_
  rw [extPayload_resource]
  exact Reads.pure _

/-- With room enough every value reads back whose lengths fit. By induction on the
room, as `readDvRoom_reads`. -/
theorem readDvWideRoom_reads {room : Nat} {dv : DataValue} (hnest : dv.nesting < room)
    (h : LengthsFit dv) : Reads (readDvWideRoom room) (writeDv dv) dv := by
  induction room generalizing dv with
  | zero => omega
  | succ room ih =>
    rw [readDvWideRoom]
    cases dv with
    | list items =>
      rw [DataValue.nesting] at hnest
      refine readDvWide_of_body
        (readDvBody_writeList (h.node (by simp [DataValue.nodeLengths])) ?_)
      intro item hmem
      have := nesting_lt_of_mem_items hmem
      exact ih (by omega) (h.item hmem)
    | map entries =>
      rw [DataValue.nesting] at hnest
      refine readDvWide_of_body
        (readDvBody_writeMap (h.node (by simp [DataValue.nodeLengths])) ?_)
      intro entry hmem
      have := nesting_lt_of_mem_entries hmem
      refine readEntry_reads ?_ (ih (by omega) (h.entry hmem))
      obtain ⟨r, rfl⟩ : ∃ r, room = r + 1 := ⟨room - 1, by omega⟩
      exact readDvWide_of_body (readDvBody_writeStr (h.key hmem))
    | resource id className =>
      have hname : strFits className := h.node (by simp [DataValue.nodeLengths])
      by_cases hpay : 8 + (utf8 className).length < 2 ^ 32
      · rw [writeDv]
        refine readDvWide_of_body (readDvBody_writeExt ?_ (extPayload_resource id className))
        simpa [resourcePayload] using hpay
      · have hlong := Nat.le_of_not_lt hpay
        exact readDvWide_of_long (readDvBody_longResource id hlong hname)
          (readLongResource_reads id hlong hname)
    | _ =>
      refine readDvWide_of_body (readDvBody_writeLeaf (by simp) (by simp) (h.fits ?_))
      simp [DataValue.payloads, DataValue.parts, DataValue.nodePayloads]

theorem writeDv_parts {x y : DataValue} (hx : LengthsFit x) (hy : LengthsFit y) :
    Parts (x = y) (writeDv x) (writeDv y) := by
  have hroom : x.nesting < max x.nesting y.nesting + 1 ∧
      y.nesting < max x.nesting y.nesting + 1 := by omega
  exact Parts.of_reads (readDvWideRoom_reads hroom.1 hx) (readDvWideRoom_reads hroom.2 hy)

/-! ## Fields part -/

theorem writeUint_parts (x y : UInt64) : Parts (x = y) (writeUint x) (writeUint y) :=
  Parts.of_reads (readUint_reads x) (readUint_reads y)

theorem writeStr_parts {x y : String} (hx : strFits x) (hy : strFits y) :
    Parts (x = y) (writeStr x) (writeStr y) :=
  Parts.of_reads (readStr_reads hx) (readStr_reads hy)

theorem writeU64Vec_parts {xs ys : List UInt64} (hx : xs.length < 2 ^ 32)
    (hy : ys.length < 2 ^ 32) : Parts (xs = ys) (writeU64Vec xs) (writeU64Vec ys) :=
  Parts.of_reads (readU64Vec_reads hx) (readU64Vec_reads hy)

theorem writeOptStr_parts {x y : Option String} (hx : ∀ s ∈ x, strFits s)
    (hy : ∀ s ∈ y, strFits s) : Parts (x = y) (writeOptStr x) (writeOptStr y) :=
  Parts.of_reads (readOptStr_reads hx) (readOptStr_reads hy)

theorem writeArray_parts {α : Type} {write : α → Bytes} {xs ys : List α}
    (hx : xs.length < 2 ^ 32) (hy : ys.length < 2 ^ 32)
    (h : ∀ x ∈ xs, ∀ y ∈ ys, Parts (x = y) (write x) (write y)) :
    Parts (xs = ys) (writeArray write xs) (writeArray write ys) := by
  have hheader := Parts.of_reads (readArrayHeader_reads hx) (readArrayHeader_reads hy)
  refine hheader.append fun hlen => (Parts.flatMap hlen h).mono fun hall => ?_
  exact List.forall₂_eq_eq_eq ▸ hall

/-- `Some(Null)` taken for `None`, as the wire does. -/
def optOnWire : Option DataValue → Option DataValue
  | some .null => none
  | value => value

/-- An absent value is written as null is. -/
theorem writeOptDv_eq (value : Option DataValue) :
    writeOptDv value = writeDv (value.getD .null) := by
  cases value with
  | none => rfl
  | some dv => cases dv <;> rfl

theorem optOnWire_eq_of_getD {x y : Option DataValue} (h : x.getD .null = y.getD .null) :
    optOnWire x = optOnWire y := by
  have hself : ∀ v : Option DataValue, optOnWire v = optOnWire (some (v.getD .null)) := by
    intro v
    cases v <;> rfl
  rw [hself x, hself y, h]

theorem writeOptDv_parts {x y : Option DataValue} (hx : ∀ d ∈ x, LengthsFit d)
    (hy : ∀ d ∈ y, LengthsFit d) :
    Parts (optOnWire x = optOnWire y) (writeOptDv x) (writeOptDv y) := by
  have hfit : ∀ v : Option DataValue, (∀ d ∈ v, LengthsFit d) → LengthsFit (v.getD .null) := by
    intro v hv
    cases v with
    | none => exact fun n hn => by simp [DataValue.lengths, DataValue.parts,
        DataValue.nodeLengths] at hn
    | some d => exact hv d rfl
  rw [writeOptDv_eq, writeOptDv_eq]
  exact (writeDv_parts (hfit x hx) (hfit y hy)).mono optOnWire_eq_of_getD

/-- Arguments of two kinds differ in the number of the kind. -/
theorem writeArg_parts {x y : Arg} (hx : x.LengthsFit) (hy : y.LengthsFit) :
    Parts (x = y) (writeArg x) (writeArg y) := by
  have hheader := readArrayHeader_reads (n := 2) (by omega)
  have harray : ∀ {a : ArrowArray}, (Arg.array a).LengthsFit → a.data.length < 2 ^ 32 :=
    fun h => h _ (by simp [Arg.lengths, ArrowArray.lengths])
  unfold writeArg
  refine (Parts.of_reads hheader hheader).append fun _ => ?_
  cases x with
  | data d =>
    cases y with
    | data d' => exact (writeUint_parts 0 0).append fun _ => (writeDv_parts hx hy).mono (by simp)
    | _ => exact (writeUint_parts _ _).append fun h => absurd h (by decide)
  | resource id =>
    cases y with
    | resource id' =>
      exact (writeUint_parts 1 1).append fun _ => (writeUint_parts id id').mono (by simp)
    | _ => exact (writeUint_parts _ _).append fun h => absurd h (by decide)
  | handle g =>
    cases y with
    | handle g' => exact (writeUint_parts 2 2).append fun _ => (writeUint_parts g g').mono (by simp)
    | _ => exact (writeUint_parts _ _).append fun h => absurd h (by decide)
  | array a =>
    cases y with
    | array a' =>
      refine (writeUint_parts 3 3).append fun _ => ?_
      exact (Parts.of_reads (readArrow_reads (harray hx)) (readArrow_reads (harray hy))).mono
        (by simp)
    | _ => exact (writeUint_parts _ _).append fun h => absurd h (by decide)
  | chan c =>
    cases y with
    | chan c' => exact (writeUint_parts 4 4).append fun _ => (writeUint_parts c c').mono (by simp)
    | _ => exact (writeUint_parts _ _).append fun h => absurd h (by decide)

/-! ## Messages part -/

/-- The type tag a message is sent under. -/
def Msg.tag : Msg → UInt64
  | .call .. => tCall
  | .callReturn .. => tCallReturn
  | .callReturnError .. => tCallReturnError
  | .callReturnResource .. => tCallReturnResource
  | .callReturnChannel .. => tCallReturnChannel
  | .callReturnResourceDecl .. => tCallReturnResourceDecl
  | .chan .. => tChan
  | .callReturnArray .. => tCallReturnArray
  | .callReturnData .. => tCallReturnData
  | .callReturnHandle .. => tCallReturnHandle
  | .getManifest .. => tGetManifest
  | .manifestReturn .. => tManifestReturn
  | .makeString .. => tMakeString
  | .handleToString .. => tHandleToString
  | .retain .. => tRetain
  | .release .. => tRelease
  | .callMethodOnHandle .. => tCallMethodOnHandle
  | .invokeBlock .. => tInvokeBlock
  | .invokeBlockReturn .. => tInvokeBlockReturn
  | .getGlobal .. => tGetGlobal
  | .makeValue .. => tMakeValue
  | .readHandle .. => tReadHandle
  | .readHandleReturn .. => tReadHandleReturn
  | .hostOpReturn .. => tHostOpReturn

/-- A message as the wire has it: an optional payload `Some(Null)` is `None`. -/
def Msg.onWire : Msg → Msg
  | .call op arg handles resources releases arrays data className recv methodArgs =>
    .call op arg handles resources releases arrays (optOnWire data) className recv methodArgs
  | .chan kind id corr value message => .chan kind id corr (optOnWire value) message
  | msg => msg

/-- What follows the array header and the tag, any meta aside. -/
def Msg.fields (msg : Msg) : List Bytes := (encodeFields 0 msg).drop 2

theorem encodeFields_eq (n : Nat) (msg : Msg) :
    ∃ header < 32 + n, encodeFields n msg
      = writeArrayHeader header :: writeUint msg.tag :: msg.fields := by
  cases msg
  all_goals exact ⟨_, by omega, rfl⟩

section Messages

variable {msg msg' : Msg} {replyMeta replyMeta' : Option ReplyMeta}

/-- Messages with one encoding have one tag, and their fields start one input. -/
theorem fields_of_encode_eq
    (heq : encodeWithMeta msg replyMeta = encodeWithMeta msg' replyMeta') :
    msg.tag = msg'.tag ∧ ∃ t t', msg.fields.flatten ++ t = msg'.fields.flatten ++ t' := by
  have hbound := metaN_le msg replyMeta
  have hbound' := metaN_le msg' replyMeta'
  obtain ⟨n, hn, hfields⟩ := encodeFields_eq (metaN msg replyMeta) msg
  obtain ⟨n', hn', hfields'⟩ := encodeFields_eq (metaN msg' replyMeta') msg'
  rw [encodeWithMeta, encodeWithMeta, hfields, hfields'] at heq
  simp only [List.flatten_append, List.flatten_cons, List.append_assoc] at heq
  have hheader := Parts.of_reads (readArrayHeader_reads (n := n) (by omega))
    (readArrayHeader_reads (n := n') (by omega))
  obtain ⟨-, hrest⟩ := hheader _ _ heq
  obtain ⟨htag, hrest⟩ := writeUint_parts msg.tag msg'.tag _ _ hrest
  exact ⟨htag, _, _, hrest⟩

/-- Messages whose fields part are the same on the wire. -/
theorem onWire_eq_of_parts
    (h : Parts (msg.onWire = msg'.onWire) msg.fields.flatten msg'.fields.flatten)
    (heq : encodeWithMeta msg replyMeta = encodeWithMeta msg' replyMeta') :
    msg.onWire = msg'.onWire := by
  obtain ⟨-, t, t', hfields⟩ := fields_of_encode_eq heq
  exact (h t t' hfields).1

/-- Messages without structured values read back, so their encodings differ. -/
theorem onWire_eq_of_values_nil (hfits : msg.LengthsFit) (hfits' : msg'.LengthsFit)
    (hvalues : msg.values = []) (hvalues' : msg'.values = [])
    (heq : encodeWithMeta msg replyMeta = encodeWithMeta msg' replyMeta') :
    msg.onWire = msg'.onWire := by
  have hread := roundTrips (hfits.encodable hvalues) replyMeta
  have hread' := roundTrips (hfits'.encodable hvalues') replyMeta'
  have hboth := (Parts.of_reads hread hread').eq_of_eq heq
  rw [(Prod.mk.inj hboth).1]

/-! The five kinds of message that carry structured values. -/

theorem Msg.LengthsFit.own (h : msg.LengthsFit) {n : Nat} (hn : n ∈ msg.ownLengths) :
    n < 2 ^ 32 :=
  h n (List.mem_append_left _ hn)

theorem Msg.LengthsFit.value (h : msg.LengthsFit) {dv : DataValue} (hdv : dv ∈ msg.values) :
    Quoin.Proto.LengthsFit dv :=
  lengthsFit_of_mem_values h hdv

theorem makeValue_parts {value value' : DataValue} (h : (Msg.makeValue value).LengthsFit)
    (h' : (Msg.makeValue value').LengthsFit) :
    Parts ((Msg.makeValue value).onWire = (Msg.makeValue value').onWire)
      (Msg.makeValue value).fields.flatten (Msg.makeValue value').fields.flatten := by
  have hx : Quoin.Proto.LengthsFit value := h.value (by simp [Msg.values])
  have hy : Quoin.Proto.LengthsFit value' := h'.value (by simp [Msg.values])
  show Parts _ [writeDv value].flatten [writeDv value'].flatten
  refine (writeDv_parts hx hy).field fun hvalue => ?_
  exact Parts.nil (by rw [hvalue])

theorem callReturnData_parts {value value' : DataValue}
    (h : (Msg.callReturnData value).LengthsFit) (h' : (Msg.callReturnData value').LengthsFit) :
    Parts ((Msg.callReturnData value).onWire = (Msg.callReturnData value').onWire)
      (Msg.callReturnData value).fields.flatten (Msg.callReturnData value').fields.flatten := by
  have hx : Quoin.Proto.LengthsFit value := h.value (by simp [Msg.values])
  have hy : Quoin.Proto.LengthsFit value' := h'.value (by simp [Msg.values])
  show Parts _ [writeDv value].flatten [writeDv value'].flatten
  refine (writeDv_parts hx hy).field fun hvalue => ?_
  exact Parts.nil (by rw [hvalue])

theorem readHandleReturn_parts {value value' : DataValue} {error error' : Option String}
    {remoteStack remoteStack' : String}
    (h : (Msg.readHandleReturn value error remoteStack).LengthsFit)
    (h' : (Msg.readHandleReturn value' error' remoteStack').LengthsFit) :
    Parts ((Msg.readHandleReturn value error remoteStack).onWire
        = (Msg.readHandleReturn value' error' remoteStack').onWire)
      (Msg.readHandleReturn value error remoteStack).fields.flatten
      (Msg.readHandleReturn value' error' remoteStack').fields.flatten := by
  have hx : Quoin.Proto.LengthsFit value := h.value (by simp [Msg.values])
  have hy : Quoin.Proto.LengthsFit value' := h'.value (by simp [Msg.values])
  have herror : ∀ e ∈ error, strFits e :=
    strFits_of_optStrLengths (fun n hn => h.own hn) (List.subset_cons_self _ _)
  have herror' : ∀ e ∈ error', strFits e :=
    strFits_of_optStrLengths (fun n hn => h'.own hn) (List.subset_cons_self _ _)
  have hstack : strFits remoteStack := h.own (by simp [Msg.ownLengths])
  have hstack' : strFits remoteStack' := h'.own (by simp [Msg.ownLengths])
  show Parts _ [writeDv value, writeOptStr error, writeStr remoteStack].flatten
    [writeDv value', writeOptStr error', writeStr remoteStack'].flatten
  refine (writeDv_parts hx hy).field fun hvalue => ?_
  refine (writeOptStr_parts herror herror').field fun herrors => ?_
  refine (writeStr_parts hstack hstack').field fun hstacks => ?_
  exact Parts.nil (by rw [hvalue, herrors, hstacks])

theorem chan_parts {kind kind' : UInt8} {chan chan' corr corr' : UInt64}
    {value value' : Option DataValue} {message message' : String}
    (h : (Msg.chan kind chan corr value message).LengthsFit)
    (h' : (Msg.chan kind' chan' corr' value' message').LengthsFit) :
    Parts ((Msg.chan kind chan corr value message).onWire
        = (Msg.chan kind' chan' corr' value' message').onWire)
      (Msg.chan kind chan corr value message).fields.flatten
      (Msg.chan kind' chan' corr' value' message').fields.flatten := by
  have hx : ∀ d ∈ value, Quoin.Proto.LengthsFit d := by
    rintro d rfl
    exact h.value (by simp [Msg.values])
  have hy : ∀ d ∈ value', Quoin.Proto.LengthsFit d := by
    rintro d rfl
    exact h'.value (by simp [Msg.values])
  have hmessage : strFits message := h.own (by simp [Msg.ownLengths])
  have hmessage' : strFits message' := h'.own (by simp [Msg.ownLengths])
  show Parts _ [writeUint kind.toUInt64, writeUint chan, writeUint corr, writeOptDv value,
      writeStr message].flatten
    [writeUint kind'.toUInt64, writeUint chan', writeUint corr', writeOptDv value',
      writeStr message'].flatten
  refine (writeUint_parts _ _).field fun hkind => ?_
  refine (writeUint_parts _ _).field fun hchan => ?_
  refine (writeUint_parts _ _).field fun hcorr => ?_
  refine (writeOptDv_parts hx hy).field fun hvalue => ?_
  refine (writeStr_parts hmessage hmessage').field fun htext => ?_
  refine Parts.nil ?_
  rw [Msg.onWire, Msg.onWire, UInt8.toUInt64_inj.mp hkind, hchan, hcorr, hvalue, htext]

theorem call_parts {op op' arg arg' className className' : String}
    {handles handles' resources resources' releases releases' : List UInt64}
    {arrays arrays' : List ArrowArray} {data data' : Option DataValue} {recv recv' : UInt64}
    {methodArgs methodArgs' : List Arg}
    (h : (Msg.call op arg handles resources releases arrays data className recv
      methodArgs).LengthsFit)
    (h' : (Msg.call op' arg' handles' resources' releases' arrays' data' className' recv'
      methodArgs').LengthsFit) :
    Parts ((Msg.call op arg handles resources releases arrays data className recv
        methodArgs).onWire
        = (Msg.call op' arg' handles' resources' releases' arrays' data' className' recv'
          methodArgs').onWire)
      (Msg.call op arg handles resources releases arrays data className recv
        methodArgs).fields.flatten
      (Msg.call op' arg' handles' resources' releases' arrays' data' className' recv'
        methodArgs').fields.flatten := by
  obtain ⟨hdata, hargs, harrow⟩ := call_lengthsFit h
  obtain ⟨hdata', hargs', harrow'⟩ := call_lengthsFit h'
  have harrays := writeArray_parts (h.own (by simp [Msg.ownLengths]))
    (h'.own (by simp [Msg.ownLengths])) fun a ha b hb =>
      Parts.of_reads (readArrow_reads (harrow a ha)) (readArrow_reads (harrow' b hb))
  have hmethod := writeArray_parts (h.own (by simp [Msg.ownLengths]))
    (h'.own (by simp [Msg.ownLengths])) fun a ha b hb =>
      writeArg_parts (hargs a ha) (hargs' b hb)
  show Parts _ [writeStr op, writeStr arg, writeU64Vec handles, writeU64Vec resources,
      writeU64Vec releases, writeArray writeArrow arrays, writeOptDv data, writeStr className,
      writeUint recv, writeArray writeArg methodArgs].flatten
    [writeStr op', writeStr arg', writeU64Vec handles', writeU64Vec resources',
      writeU64Vec releases', writeArray writeArrow arrays', writeOptDv data', writeStr className',
      writeUint recv', writeArray writeArg methodArgs'].flatten
  -- field by field, in the order of `Msg.fields`
  refine (writeStr_parts (h.own (by simp [Msg.ownLengths]))
    (h'.own (by simp [Msg.ownLengths]))).field fun hop => ?_
  refine (writeStr_parts (h.own (by simp [Msg.ownLengths]))
    (h'.own (by simp [Msg.ownLengths]))).field fun harg => ?_
  refine (writeU64Vec_parts (h.own (by simp [Msg.ownLengths]))
    (h'.own (by simp [Msg.ownLengths]))).field fun hhandles => ?_
  refine (writeU64Vec_parts (h.own (by simp [Msg.ownLengths]))
    (h'.own (by simp [Msg.ownLengths]))).field fun hresources => ?_
  refine (writeU64Vec_parts (h.own (by simp [Msg.ownLengths]))
    (h'.own (by simp [Msg.ownLengths]))).field fun hreleases => ?_
  refine harrays.field fun harraysEq => ?_
  refine (writeOptDv_parts hdata hdata').field fun hdataEq => ?_
  refine (writeStr_parts (h.own (by simp [Msg.ownLengths]))
    (h'.own (by simp [Msg.ownLengths]))).field fun hclass => ?_
  refine (writeUint_parts recv recv').field fun hrecv => ?_
  refine hmethod.field fun hmethodEq => ?_
  refine Parts.nil ?_
  rw [Msg.onWire, Msg.onWire, hop, harg, hhandles, hresources, hreleases, harraysEq, hdataEq,
    hclass, hrecv, hmethodEq]

/-! One tag, one kind. -/

theorem tag_call (h : msg.tag = tCall) :
    ∃ op arg handles resources releases arrays data className recv methodArgs,
      msg = .call op arg handles resources releases arrays data className recv methodArgs := by
  cases msg <;> first | exact ⟨_, _, _, _, _, _, _, _, _, _, rfl⟩ | exact absurd h (by rw [Msg.tag]; decide)

theorem tag_chan (h : msg.tag = tChan) :
    ∃ kind id corr value message, msg = .chan kind id corr value message := by
  cases msg <;> first | exact ⟨_, _, _, _, _, rfl⟩ | exact absurd h (by rw [Msg.tag]; decide)

theorem tag_callReturnData (h : msg.tag = tCallReturnData) :
    ∃ value, msg = .callReturnData value := by
  cases msg <;> first | exact ⟨_, rfl⟩ | exact absurd h (by rw [Msg.tag]; decide)

theorem tag_makeValue (h : msg.tag = tMakeValue) : ∃ value, msg = .makeValue value := by
  cases msg <;> first | exact ⟨_, rfl⟩ | exact absurd h (by rw [Msg.tag]; decide)

theorem tag_readHandleReturn (h : msg.tag = tReadHandleReturn) :
    ∃ value error remoteStack, msg = .readHandleReturn value error remoteStack := by
  cases msg <;> first | exact ⟨_, _, _, rfl⟩ | exact absurd h (by rw [Msg.tag]; decide)

/-- The tags under which structured values travel. -/
theorem tag_of_values (h : msg.values ≠ []) : msg.tag = tCall ∨ msg.tag = tChan ∨
    msg.tag = tCallReturnData ∨ msg.tag = tMakeValue ∨ msg.tag = tReadHandleReturn := by
  cases msg <;> first | exact absurd rfl h | simp [Msg.tag]

/-- **No two encodings are alike**: what they carry is the same on the wire. -/
theorem onWire_eq_of_encode_eq (h : msg.LengthsFit) (h' : msg'.LengthsFit)
    (heq : encodeWithMeta msg replyMeta = encodeWithMeta msg' replyMeta') :
    msg.onWire = msg'.onWire := by
  obtain ⟨htag, -⟩ := fields_of_encode_eq heq
  by_cases hvalues : msg.values = [] ∧ msg'.values = []
  · exact onWire_eq_of_values_nil h h' hvalues.1 hvalues.2 heq
  have hkind : msg.tag = tCall ∨ msg.tag = tChan ∨ msg.tag = tCallReturnData ∨
      msg.tag = tMakeValue ∨ msg.tag = tReadHandleReturn := by
    rcases not_and_or.mp hvalues with hne | hne
    · exact tag_of_values hne
    · exact htag ▸ tag_of_values hne
  rcases hkind with hk | hk | hk | hk | hk
  · obtain ⟨_, _, _, _, _, _, _, _, _, _, rfl⟩ := tag_call hk
    obtain ⟨_, _, _, _, _, _, _, _, _, _, rfl⟩ := tag_call (htag.symm.trans hk)
    exact onWire_eq_of_parts (call_parts h h') heq
  · obtain ⟨_, _, _, _, _, rfl⟩ := tag_chan hk
    obtain ⟨_, _, _, _, _, rfl⟩ := tag_chan (htag.symm.trans hk)
    exact onWire_eq_of_parts (chan_parts h h') heq
  · obtain ⟨_, rfl⟩ := tag_callReturnData hk
    obtain ⟨_, rfl⟩ := tag_callReturnData (htag.symm.trans hk)
    exact onWire_eq_of_parts (callReturnData_parts h h') heq
  · obtain ⟨_, rfl⟩ := tag_makeValue hk
    obtain ⟨_, rfl⟩ := tag_makeValue (htag.symm.trans hk)
    exact onWire_eq_of_parts (makeValue_parts h h') heq
  · obtain ⟨_, _, _, rfl⟩ := tag_readHandleReturn hk
    obtain ⟨_, _, _, rfl⟩ := tag_readHandleReturn (htag.symm.trans hk)
    exact onWire_eq_of_parts (readHandleReturn_parts h h') heq

end Messages

/-! ## Frames delimit themselves -/

/-- A whole frame is one that `readFrame` reads to its end. -/
theorem readFrame_of_decode {bytes : Bytes} {answer : Msg × ReplyMeta}
    (h : decodeFrameWithMeta bytes = .ok answer) : readFrame bytes = .ok (answer, []) := by
  obtain ⟨⟨got, rest⟩, hread, hrest⟩ := bind_ok h
  have hsame : got = answer ∧ rest = [] := by
    cases rest with
    | nil => exact ⟨Except.ok.inj hrest, rfl⟩
    | cons b rest => cases hrest
  rw [hread, hsame.1, hsame.2]

theorem error_of_ne_ok {α ε : Type} {r : Except ε α} (h : ∀ a, r ≠ .ok a) :
    ∃ err, r = .error err := by
  cases r with
  | error err => exact ⟨err, rfl⟩
  | ok a => exact absurd rfl (h a)

/-- **Frames delimit themselves.** No proper beginning of a frame decodes, nor the
frame with bytes behind it, and a frame says which message it carries, a
`Some(Null)` payload apart. -/
theorem frame_delimited (msg : Msg) (replyMeta : Option ReplyMeta) (h : msg.LengthsFit) :
    (∀ start more, encodeWithMeta msg replyMeta = start ++ more → more ≠ [] →
      ∃ err, decodeFrameWithMeta start = .error err) ∧
    (∀ more, more ≠ [] →
      ∃ err, decodeFrameWithMeta (encodeWithMeta msg replyMeta ++ more) = .error err) ∧
    ∀ msg' replyMeta', msg'.LengthsFit →
      encodeWithMeta msg replyMeta = encodeWithMeta msg' replyMeta' →
      msg.onWire = msg'.onWire := by
  obtain ⟨r, hanswer⟩ := frame_answers h replyMeta
  refine ⟨?_, ?_, fun msg' replyMeta' h' heq => onWire_eq_of_encode_eq h h' heq⟩
  · intro start more hsplit hmore
    rw [hsplit] at hanswer
    refine error_of_ne_ok fun answer hok => ?_
    exact readFrame_stable.not_whole hanswer hmore answer (readFrame_of_decode hok)
  · intro more hmore
    refine error_of_ne_ok fun answer hok => ?_
    have hread := readFrame_of_decode hok
    rw [hanswer more] at hread
    cases r with
    | error err => cases hread
    | ok got => exact hmore (Prod.mk.inj (Except.ok.inj hread)).2

/-- A structured answer with its meta: cut short by a byte, and with one too many. -/
theorem frame_delimited_data :
    (∃ err, decodeFrameWithMeta [0x93, 0x05, 0x92, 0x01] = .error err) ∧
      ∃ err, decodeFrameWithMeta [0x93, 0x05, 0x92, 0x01, 0xc3, 0x07, 0x07] = .error err :=
  have hfits : (Msg.callReturnData (.list [.int 1, .bool true])).LengthsFit := by
    intro n hn
    revert n
    decide
  have h := frame_delimited (.callReturnData (.list [.int 1, .bool true]))
    (some { handlerMicros := 7 }) hfits
  ⟨h.1 _ [0xc3, 0x07] rfl (by simp), h.2.1 [0x07] (by simp)⟩

/-- The text of a result of 2^32 letters is announced as empty, so the frame decodes
where the text has not begun. -/
theorem frame_wrapped_delimited :
    ∃ start more, encodeWithMeta (.callReturn longText) none = start ++ more ∧ more ≠ [] ∧
      decodeFrameWithMeta start = .ok (.callReturn "", {}) := by
  have hlen : (utf8 longText).length = 2 ^ 32 := length_utf8_replicate _
  refine ⟨[0x92, 0x01, 0xdb, 0x00, 0x00, 0x00, 0x00], utf8 longText, ?_, ?_, rfl⟩
  · rw [encodeWithMeta, encodeFields, writeStr_wrapped hlen]
    simp [encodeMeta]
    rfl
  · rw [← List.length_pos_iff, hlen]
    norm_num

end Quoin.Proto
