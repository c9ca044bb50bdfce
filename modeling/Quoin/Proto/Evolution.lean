import Mathlib
import Quoin.Proto.Alike
import Quoin.Proto.Skip

/-!
# Quoin — fields a newer peer appends

The protocol grows at the end: a newer peer appends fields to the frame array
or to a composite inside it and raises the count in the array header, and a
decoder that knows nothing of them walks past. `Appended` is what such a peer
sends beyond the known fields, position by position, and `Appended.encode` the
frame it sends. `decode_appended` is the promise: the frame decodes exactly as
the one without, to the same message and meta or to the same error.

The two decodings are compared with `Wire.Agree`, field by field, so nothing
here depends on what a field holds. What the comparison needs is that the
decoder sees the fields the encoder wrote, and this is where the 32-bit
lengths of the format come in (`decode_appended_longText`).

## Results

* `decode_appended` — whatever is appended, the frame decodes as the one without;
* `decode_appended_longText` — a text beyond 32 bits, with which the two decodings differ.
-/

namespace Quoin.Proto

open Wire Wire.MessagePack

/-! ## What a newer peer sends -/

/-- The fields appended to a frame and to each composite inside it, by the
composite's place in the list it travels in. -/
structure Appended where
  frame : List Value
  /-- the i-th array of a `Call`; the array of a `CallReturnArray` is the 0-th -/
  arrow : Nat → List Value
  /-- the i-th method argument of a `Call` -/
  arg : Nat → List Value
  /-- the array inside the i-th method argument -/
  argArrow : Nat → List Value
  /-- the i-th class of a `ManifestReturn` -/
  classDecl : Nat → List Value

/-- `ArrowArray` = `[dtype, length, data, ..]`. -/
def writeArrowWith (extra : List Value) (a : ArrowArray) : Bytes :=
  writeArrayHeader (3 + extra.length) ++
    (writeUint a.dtype.tag ++ (writeUint a.length ++ (writeBin a.data ++ valuesBytes extra)))

/-- `Arg` = `[kind, payload, ..]`. -/
def writeArgWith (extra arrowExtra : List Value) (a : Arg) : Bytes :=
  writeArrayHeader (2 + extra.length) ++
    match a with
    | .data d => writeUint 0 ++ (writeDv d ++ valuesBytes extra)
    | .resource id => writeUint 1 ++ (writeUint id ++ valuesBytes extra)
    | .handle h => writeUint 2 ++ (writeUint h ++ valuesBytes extra)
    | .array a => writeUint 3 ++ (writeArrowWith arrowExtra a ++ valuesBytes extra)
    | .chan c => writeUint 4 ++ (writeUint c ++ valuesBytes extra)

/-- `ClassDecl` = `[name, instance_selectors, class_selectors, ..]`. -/
def writeClassDeclWith (extra : List Value) (c : ClassDecl) : Bytes :=
  writeArrayHeader (3 + extra.length) ++
    (writeStr c.name ++ (writeStrVec c.instanceSelectors ++
      (writeStrVec c.classSelectors ++ valuesBytes extra)))

/-- A counted array whose elements are written by their place in it. -/
def writeArrayIdx {α : Type} (write : Nat → α → Bytes) (xs : List α) : Bytes :=
  writeArrayHeader xs.length ++ (xs.mapIdx write).flatten

/-- How many elements the frame array has when the meta is sent and nothing else
is appended: the tag, the known fields and a terminal's meta. -/
def Msg.elements (msg : Msg) : Nat :=
  (encodeFields 0 msg).tail.length + if msg.isTerminal then 1 else 0

namespace Appended

/-- The tag and the known fields, the composites among them extended. -/
def fields (ap : Appended) : Msg → List Bytes
  | .call op arg handles resources releases arrays data className recv methodArgs =>
    [writeUint tCall, writeStr op, writeStr arg, writeU64Vec handles, writeU64Vec resources,
      writeU64Vec releases, writeArrayIdx (fun i => writeArrowWith (ap.arrow i)) arrays,
      writeOptDv data, writeStr className, writeUint recv,
      writeArrayIdx (fun i => writeArgWith (ap.arg i) (ap.argArrow i)) methodArgs]
  | .callReturnArray array => [writeUint tCallReturnArray, writeArrowWith (ap.arrow 0) array]
  | .manifestReturn classes version lanes =>
    [writeUint tManifestReturn, writeUint version.toUInt64,
      writeArrayIdx (fun i => writeClassDeclWith (ap.classDecl i)) classes,
      writeUint lanes.toUInt64]
  | msg => (encodeFields 0 msg).tail

/-- The frame with everything appended: the raised header, the known fields and
the meta, then the unknown ones. -/
def encode (ap : Appended) (msg : Msg) (replyMeta : ReplyMeta) : Bytes :=
  (writeArrayHeader (msg.elements + ap.frame.length) ::
    (ap.fields msg ++ [encodeMeta msg (some replyMeta), valuesBytes ap.frame])).flatten

/-- Nothing appended. -/
def none : Appended where
  frame := []
  arrow _ := []
  arg _ := []
  argArrow _ := []
  classDecl _ := []

/-- Fields that may follow `known` ones: no deeper than the limit, and few enough
for the header to count them. -/
def Follows (known : Nat) (extra : List Value) : Prop :=
  (∀ v ∈ extra, v.nesting ≤ maxDvDepth) ∧ known + extra.length < 2 ^ 32

/-- Everything appended may follow what it is appended to. -/
structure Valid (ap : Appended) (msg : Msg) : Prop where
  frame : Follows msg.elements ap.frame
  arrow : ∀ i, Follows 3 (ap.arrow i)
  arg : ∀ i, Follows 2 (ap.arg i)
  argArrow : ∀ i, Follows 3 (ap.argArrow i)
  classDecl : ∀ i, Follows 3 (ap.classDecl i)

end Appended

/-! ## Nothing appended is the plain frame -/

theorem writeArrowWith_nil : writeArrowWith [] = writeArrow := by
  funext a
  simp [writeArrowWith, writeArrow, valuesBytes]

theorem writeArgWith_nil : writeArgWith [] [] = writeArg := by
  funext a
  cases a <;> simp [writeArgWith, writeArg, valuesBytes, writeArrowWith_nil]

theorem writeClassDeclWith_nil : writeClassDeclWith [] = writeClassDecl := by
  funext c
  simp [writeClassDeclWith, writeClassDecl, valuesBytes]

theorem mapIdx_const {α β : Type} (f : α → β) (xs : List α) :
    xs.mapIdx (fun _ => f) = xs.map f := by
  induction xs with
  | nil => rfl
  | cons x xs ih => rw [List.mapIdx_cons, ih, List.map_cons]

theorem writeArrayIdx_const {α : Type} (write : α → Bytes) :
    writeArrayIdx (fun _ => write) = writeArray write := by
  funext xs
  rw [writeArrayIdx, writeArray, mapIdx_const, ← List.flatMap_def]

theorem encode_none (msg : Msg) (replyMeta : ReplyMeta) :
    Appended.none.encode msg replyMeta = encodeWithMeta msg (some replyMeta) := by
  cases msg <;>
    simp [Appended.encode, Appended.fields, Appended.none, Msg.elements, Msg.isTerminal, metaN,
      encodeWithMeta, encodeFields, valuesBytes, writeArrowWith_nil, writeArgWith_nil,
      writeClassDeclWith_nil, writeArrayIdx_const]

/-! ## Composites -/

theorem done_extra_reads {α : Type} {known : Nat} {extra : List Value}
    (h : Appended.Follows known extra) (a : α) :
    Reads (do skipExtra extra.length; pure a) (valuesBytes extra) a :=
  (skipExtra_reads h.1).bind_pure (Reads.pure a)

theorem readArrow_with_reads {a : ArrowArray} {extra : List Value}
    (hlen : a.data.length < 2 ^ 32) (h : Appended.Follows 3 extra) :
    Reads readArrow (writeArrowWith extra a) a := by
  obtain ⟨dtype, length, data⟩ := a
  unfold readArrow writeArrowWith
  refine (readArrayHeader_reads h.2).bind ?_
  refine (need_reads 3 _ _).bind_nil ?_
  refine (readUint_reads _).bind ?_
  cases dtype
  all_goals
    refine (Reads.pure _).bind_nil ?_
    refine (readUint_reads _).bind ?_
    exact (readBin_reads hlen).bind (done_extra_reads h _)

theorem readClassDecl_with_reads {c : ClassDecl} {extra : List Value} (hc : c.Encodable)
    (h : Appended.Follows 3 extra) : Reads readClassDecl (writeClassDeclWith extra c) c := by
  obtain ⟨hname, hinst, hclass, hinsts, hclasses⟩ := hc.parts
  unfold readClassDecl writeClassDeclWith
  refine (readArrayHeader_reads h.2).bind ?_
  refine (need_reads 3 _ _).bind_nil ?_
  refine (readStr_reads hname).bind ?_
  refine (readStrVec_reads hinst hinsts).bind ?_
  exact (readStrVec_reads hclass hclasses).bind (done_extra_reads h _)

/-- `need` on the two frames: the known fields are there, and each frame has its
own surplus. `k` fields are still known after these. -/
theorem need_agrees {α : Type} {n known : Nat} (k : Nat) (h : n = known + k) {l l' : Nat}
    {what : String} {g : Nat → Dec α} {s s' : Bytes} (hg : Agree (g (l + k)) s (g (l' + k)) s') :
    Agree (need (n + l) known what >>= g) s (need (n + l') known what >>= g) s' := by
  have hneed : ∀ l, Reads (need (n + l) known what) [] (l + k) := by
    intro l
    have hsum : n + l = known + (l + k) := by omega
    rw [hsum]
    exact need_reads known (l + k) what
  exact Agree.after_reads (hneed l) (hneed l') hg

/-- Every length inside an argument fits its header. -/
def Arg.LengthsFit (a : Arg) : Prop := ∀ n ∈ a.lengths, n < 2 ^ 32

/-- The tail of a composite that carried `a`: what it has appended. -/
theorem doneArg_agrees {known : Nat} {extra extra' : List Value}
    (h : Appended.Follows known extra) (h' : Appended.Follows known extra') (a : Arg) :
    Agree (do skipExtra extra.length; pure a) (valuesBytes extra)
      (do skipExtra extra'.length; pure a) (valuesBytes extra') :=
  Agree.of_reads (done_extra_reads h a) (done_extra_reads h' a)

theorem readArg_agrees {a : Arg} {extra extra' arrow arrow' : List Value} (ha : a.LengthsFit)
    (h : Appended.Follows 2 extra) (h' : Appended.Follows 2 extra')
    (hx : Appended.Follows 3 arrow) (hx' : Appended.Follows 3 arrow') :
    Agree readArg (writeArgWith extra arrow a) readArg (writeArgWith extra' arrow' a) := by
  have hdone := doneArg_agrees h h'
  unfold readArg writeArgWith
  refine Agree.after_reads (readArrayHeader_reads h.2) (readArrayHeader_reads h'.2) ?_
  refine need_agrees 0 rfl ?_
  cases a with
  | data d =>
    refine Agree.after_reads (readUint_reads 0) (readUint_reads 0) ?_
    exact ((readDvRoom_agrees ha).bind_pure fun _ => Agree.pure _).bind hdone
  | resource id =>
    refine Agree.after_reads (readUint_reads 1) (readUint_reads 1) ?_
    exact (Agree.same ((readUint_reads id).map Arg.resource)).bind hdone
  | handle g =>
    refine Agree.after_reads (readUint_reads 2) (readUint_reads 2) ?_
    exact (Agree.same ((readUint_reads g).map Arg.handle)).bind hdone
  | array a =>
    have hlen : a.data.length < 2 ^ 32 := ha _ (by simp [Arg.lengths, ArrowArray.lengths])
    refine Agree.after_reads (readUint_reads 3) (readUint_reads 3) ?_
    exact (Agree.of_reads ((readArrow_with_reads hlen hx).map Arg.array)
      ((readArrow_with_reads hlen hx').map Arg.array)).bind hdone
  | chan c =>
    refine Agree.after_reads (readUint_reads 4) (readUint_reads 4) ?_
    exact (Agree.same ((readUint_reads c).map Arg.chan)).bind hdone

theorem forall₂_mapIdx {α β : Type} {R : β → β → Prop} {f g : Nat → α → β} {xs : List α}
    (h : ∀ i, ∀ x ∈ xs, R (f i x) (g i x)) : List.Forall₂ R (xs.mapIdx f) (xs.mapIdx g) := by
  induction xs generalizing f g with
  | nil => exact .nil
  | cons x xs ih =>
    rw [List.mapIdx_cons, List.mapIdx_cons]
    exact .cons (h 0 x (by simp)) (ih fun i y hy => h (i + 1) y (by simp [hy]))

/-- Two lists of composites agree when each composite does, whatever its place. -/
theorem readArray_idx_agrees {α : Type} {read : Dec α} {write write' : Nat → α → Bytes}
    {xs : List α} (hlen : xs.length < 2 ^ 32)
    (h : ∀ i, ∀ x ∈ xs, Agree read (write i x) read (write' i x)) :
    Agree (readArray read) (writeArrayIdx write xs) (readArray read)
      (writeArrayIdx write' xs) := by
  have hitems := Agree.repeatN (forall₂_mapIdx h)
  rw [List.length_mapIdx, List.length_mapIdx] at hitems
  exact Agree.after_reads (readArrayHeader_reads hlen) (readArrayHeader_reads hlen) hitems

/-! ## Frames -/

section Frames

variable {ap ap' : Appended} {msg : Msg} {replyMeta : ReplyMeta}

/-- Both frames of `msg` decode to the same thing. -/
def FramesAgree (ap ap' : Appended) (msg : Msg) (replyMeta : ReplyMeta) : Prop :=
  Agree readFrame (ap.encode msg replyMeta) readFrame (ap'.encode msg replyMeta)

/-- A frame is its header, its tag, and its fields read under that tag. -/
theorem frame_agrees {n : Nat} {tag : UInt64} {fields fields' : List Bytes}
    (hfields : ap.fields msg = writeUint tag :: fields)
    (hfields' : ap'.fields msg = writeUint tag :: fields') (hn : msg.elements = n + 1)
    (hv : ap.Valid msg) (hv' : ap'.Valid msg)
    (h : Agree (readFields (n + ap.frame.length) tag)
      (fields ++ [encodeMeta msg (some replyMeta), valuesBytes ap.frame]).flatten
      (readFields (n + ap'.frame.length) tag)
      (fields' ++ [encodeMeta msg (some replyMeta), valuesBytes ap'.frame]).flatten) :
    FramesAgree ap ap' msg replyMeta := by
  have hsub : ∀ l, msg.elements + l - 1 = n + l := by omega
  rw [FramesAgree, Appended.encode, Appended.encode, hfields, hfields', List.cons_append,
    List.cons_append]
  unfold readFrame
  refine Agree.field_reads (readArrayHeader_reads hv.frame.2)
    (readArrayHeader_reads hv'.frame.2) ?_
  rw [if_neg (by omega), if_neg (by omega), hsub, hsub]
  exact Agree.field_reads (readUint_reads tag) (readUint_reads tag) h

/-- The tail of every terminal: its meta, then what is appended. -/
theorem metaTail_with_reads {ap : Appended} (hv : ap.Valid msg) (hterm : msg.isTerminal)
    (answer : Msg) :
    Reads (do
      let (handlerMicros, extra) ← readAppendedU64 (ap.frame.length + 1)
      skipExtra extra
      pure (answer, ({ handlerMicros } : ReplyMeta)))
      [encodeMeta msg (some replyMeta), valuesBytes ap.frame].flatten (answer, replyMeta) := by
  have hmeta : encodeMeta msg (some replyMeta) = writeUint replyMeta.handlerMicros := by
    simp [encodeMeta, metaN, hterm]
  rw [hmeta]
  refine (readAppendedU64_reads _ _).field ?_
  rw [List.flatten_singleton]
  exact done_extra_reads hv.frame _

/-- The tail of every other frame: only what is appended. -/
theorem extraTail_reads {ap : Appended} (hv : ap.Valid msg) (hterm : msg.isTerminal = false)
    (answer : Msg × ReplyMeta) :
    Reads (do skipExtra (ap.frame.length + 0); pure answer)
      [encodeMeta msg (some replyMeta), valuesBytes ap.frame].flatten answer := by
  have hmeta : encodeMeta msg (some replyMeta) = [] := by simp [encodeMeta, metaN, hterm]
  rw [hmeta, List.flatten_cons, List.nil_append, List.flatten_singleton]
  exact done_extra_reads hv.frame _

theorem metaTail_agrees (hv : ap.Valid msg) (hv' : ap'.Valid msg) (hterm : msg.isTerminal)
    (answer : Msg) :
    Agree (do
      let (handlerMicros, extra) ← readAppendedU64 (ap.frame.length + 1)
      skipExtra extra
      pure (answer, ({ handlerMicros } : ReplyMeta)))
      [encodeMeta msg (some replyMeta), valuesBytes ap.frame].flatten
      (do
      let (handlerMicros, extra) ← readAppendedU64 (ap'.frame.length + 1)
      skipExtra extra
      pure (answer, ({ handlerMicros } : ReplyMeta)))
      [encodeMeta msg (some replyMeta), valuesBytes ap'.frame].flatten :=
  Agree.of_reads (metaTail_with_reads hv hterm answer) (metaTail_with_reads hv' hterm answer)

theorem extraTail_agrees (hv : ap.Valid msg) (hv' : ap'.Valid msg)
    (hterm : msg.isTerminal = false) (answer : Msg × ReplyMeta) :
    Agree (do skipExtra (ap.frame.length + 0); pure answer)
      [encodeMeta msg (some replyMeta), valuesBytes ap.frame].flatten
      (do skipExtra (ap'.frame.length + 0); pure answer)
      [encodeMeta msg (some replyMeta), valuesBytes ap'.frame].flatten :=
  Agree.of_reads (extraTail_reads hv hterm answer) (extraTail_reads hv' hterm answer)

theorem call_agrees {op arg className : String} {handles resources releases : List UInt64}
    {arrays : List ArrowArray} {data : Option DataValue} {recv : UInt64} {methodArgs : List Arg}
    (hown : ∀ n ∈ (Msg.call op arg handles resources releases arrays data className recv
      methodArgs).ownLengths, n < 2 ^ 32)
    (hdata : ∀ d ∈ data, LengthsFit d) (hargs : ∀ a ∈ methodArgs, a.LengthsFit)
    (hv : ap.Valid (.call op arg handles resources releases arrays data className recv
      methodArgs))
    (hv' : ap'.Valid (.call op arg handles resources releases arrays data className recv
      methodArgs)) :
    FramesAgree ap ap' (.call op arg handles resources releases arrays data className recv
      methodArgs) replyMeta := by
  have harrow : ∀ a ∈ arrays, a.data.length < 2 ^ 32 := by
    intro a ha
    refine hown _ (List.mem_append_left _ (List.mem_append_right _ ?_))
    exact List.mem_flatMap.mpr ⟨a, ha, by simp [ArrowArray.lengths]⟩
  have hcount : arrays.length < 2 ^ 32 := hown _ (by simp [Msg.ownLengths])
  have hargCount : methodArgs.length < 2 ^ 32 := hown _ (by simp [Msg.ownLengths])
  have harrays := readArray_idx_agrees hcount fun i a ha => Agree.of_reads
    (readArrow_with_reads (harrow a ha) (hv.arrow i))
    (readArrow_with_reads (harrow a ha) (hv'.arrow i))
  have hmethod := readArray_idx_agrees hargCount fun i a ha =>
    readArg_agrees (hargs a ha) (hv.arg i) (hv'.arg i) (hv.argArrow i) (hv'.argArrow i)
  refine frame_agrees (n := 10) rfl rfl rfl hv hv' ?_
  refine need_agrees 0 rfl ?_
  refine (Agree.same (readStr_reads (hown _ (by simp [Msg.ownLengths])))).field fun _ => ?_
  refine (Agree.same (readStr_reads (hown _ (by simp [Msg.ownLengths])))).field fun _ => ?_
  refine (Agree.same (readU64Vec_reads (hown _ (by simp [Msg.ownLengths])))).field fun _ => ?_
  refine (Agree.same (readU64Vec_reads (hown _ (by simp [Msg.ownLengths])))).field fun _ => ?_
  refine (Agree.same (readU64Vec_reads (hown _ (by simp [Msg.ownLengths])))).field fun _ => ?_
  refine harrays.field fun _ => ?_
  refine (readOptDv_agrees hdata).field fun _ => ?_
  refine (Agree.same (readStr_reads (hown _ (by simp [Msg.ownLengths])))).field fun _ => ?_
  refine (Agree.same (readUint_reads recv)).field fun _ => ?_
  refine hmethod.field fun _ => ?_
  exact extraTail_agrees hv hv' rfl _

theorem manifestReturn_agrees {classes : List ClassDecl} {version lanes : UInt32}
    (hclasses : classes.length < 2 ^ 32) (hdecls : ∀ c ∈ classes, c.Encodable)
    (hv : ap.Valid (.manifestReturn classes version lanes))
    (hv' : ap'.Valid (.manifestReturn classes version lanes)) :
    FramesAgree ap ap' (.manifestReturn classes version lanes) replyMeta := by
  have hlist := readArray_idx_agrees hclasses fun i c hc =>
    Agree.of_reads (readClassDecl_with_reads (hdecls c hc) (hv.classDecl i))
      (readClassDecl_with_reads (hdecls c hc) (hv'.classDecl i))
  refine frame_agrees (n := 3) rfl rfl rfl hv hv' ?_
  refine need_agrees 1 rfl ?_
  refine (Agree.same (readVersion_reads version)).field fun _ => ?_
  refine hlist.field fun _ => ?_
  refine Agree.field_reads (readAppendedU64_reads _ _) (readAppendedU64_reads _ _) ?_
  exact extraTail_agrees hv hv' rfl _

theorem callReturnArray_agrees {array : ArrowArray} (hlen : array.data.length < 2 ^ 32)
    (hv : ap.Valid (.callReturnArray array)) (hv' : ap'.Valid (.callReturnArray array)) :
    FramesAgree ap ap' (.callReturnArray array) replyMeta := by
  refine frame_agrees (n := 2) rfl rfl rfl hv hv' ?_
  refine need_agrees 1 rfl ?_
  refine (Agree.of_reads (readArrow_with_reads hlen (hv.arrow 0))
    (readArrow_with_reads hlen (hv'.arrow 0))).field fun _ => ?_
  exact metaTail_agrees hv hv' rfl _

/-- The lengths of the values inside a message are among its own. -/
theorem lengthsFit_of_mem_values (h : ∀ n ∈ msg.lengths, n < 2 ^ 32) {dv : DataValue}
    (hdv : dv ∈ msg.values) : LengthsFit dv := fun n hn =>
  h n (List.mem_append_right _ (List.mem_flatMap.mpr ⟨dv, hdv, hn⟩))

theorem call_lengthsFit {op arg className : String} {handles resources releases : List UInt64}
    {arrays : List ArrowArray} {data : Option DataValue} {recv : UInt64} {methodArgs : List Arg}
    (h : ∀ n ∈ (Msg.call op arg handles resources releases arrays data className recv
      methodArgs).lengths, n < 2 ^ 32) :
    (∀ d ∈ data, LengthsFit d) ∧ (∀ a ∈ methodArgs, a.LengthsFit) ∧
      ∀ a ∈ arrays, a.data.length < 2 ^ 32 := by
  refine ⟨?_, ?_, ?_⟩
  · rintro d rfl
    exact lengthsFit_of_mem_values h (List.mem_append_left _ (by simp))
  · intro a ha
    cases a with
    | data d =>
      refine lengthsFit_of_mem_values h (List.mem_append_right _ ?_)
      exact List.mem_flatMap.mpr ⟨.data d, ha, by simp⟩
    | array a =>
      intro n hn
      refine h n (List.mem_append_left _ (List.mem_append_right _ ?_))
      exact List.mem_flatMap.mpr ⟨.array a, ha, hn⟩
    | _ =>
      intro n hn
      simp [Arg.lengths] at hn
  · intro a ha
    refine h _ (List.mem_append_left _ (List.mem_append_left _ (List.mem_append_right _ ?_)))
    exact List.mem_flatMap.mpr ⟨a, ha, by simp [ArrowArray.lengths]⟩

/-- **Both frames decode alike**, one message kind at a time. -/
theorem frames_agree (h : ∀ n ∈ msg.lengths, n < 2 ^ 32) (hv : ap.Valid msg)
    (hv' : ap'.Valid msg) : FramesAgree ap ap' msg replyMeta := by
  have hown : ∀ n ∈ msg.ownLengths, n < 2 ^ 32 := fun n hn => h n (List.mem_append_left _ hn)
  -- one case per frame type: how many fields it has, how many of them a reader needs, each of
  -- them in order, and the tail, which is where appended fields are
  cases msg with
  | call op arg handles resources releases arrays data className recv methodArgs =>
    obtain ⟨hdata, hargs, -⟩ := call_lengthsFit h
    exact call_agrees hown hdata hargs hv hv'
  | callReturn result =>
    refine frame_agrees (n := 2) rfl rfl rfl hv hv' ?_
    refine need_agrees 1 rfl ?_
    refine (Agree.same (readStr_reads (hown _ (by simp [Msg.ownLengths])))).field fun _ => ?_
    exact metaTail_agrees hv hv' rfl _
  | callReturnError message remoteStack =>
    have hstack : strFits remoteStack := hown _ (by simp [Msg.ownLengths])
    refine frame_agrees (n := 3) rfl rfl rfl hv hv' ?_
    refine need_agrees 2 rfl ?_
    refine (Agree.same (readStr_reads (hown _ (by simp [Msg.ownLengths])))).field fun _ => ?_
    -- the remote stack was appended itself once, so that it may be absent
    refine Agree.field_reads (readAppendedStr_reads hstack _) (readAppendedStr_reads hstack _) ?_
    exact metaTail_agrees hv hv' rfl _
  | callReturnResource resource className =>
    refine frame_agrees (n := 3) rfl rfl rfl hv hv' ?_
    refine need_agrees 1 rfl ?_
    refine (Agree.same (readUint_reads resource)).field fun _ => ?_
    refine (Agree.same (readStr_reads (hown _ (by simp [Msg.ownLengths])))).field fun _ => ?_
    exact metaTail_agrees hv hv' rfl _
  | callReturnChannel chan =>
    refine frame_agrees (n := 2) rfl rfl rfl hv hv' ?_
    refine need_agrees 1 rfl ?_
    refine (Agree.same (readUint_reads chan)).field fun _ => ?_
    exact metaTail_agrees hv hv' rfl _
  | callReturnResourceDecl resource className instanceSelectors classSelectors =>
    have hdecl : (ClassDecl.mk className instanceSelectors classSelectors).Encodable :=
      fun n hn => hown n hn
    obtain ⟨hname, hinst, hclass, hinsts, hclasses⟩ := hdecl.parts
    refine frame_agrees (n := 5) rfl rfl rfl hv hv' ?_
    refine need_agrees 1 rfl ?_
    refine (Agree.same (readUint_reads resource)).field fun _ => ?_
    refine (Agree.same (readStr_reads hname)).field fun _ => ?_
    refine (Agree.same (readStrVec_reads hinst hinsts)).field fun _ => ?_
    refine (Agree.same (readStrVec_reads hclass hclasses)).field fun _ => ?_
    exact metaTail_agrees hv hv' rfl _
  | chan kind chan corr value message =>
    have hvalue : ∀ d ∈ value, LengthsFit d := by
      rintro d rfl
      exact lengthsFit_of_mem_values h (by simp [Msg.values])
    refine frame_agrees (n := 5) rfl rfl rfl hv hv' ?_
    refine need_agrees 0 rfl ?_
    refine (Agree.same (readUint_reads _)).field fun _ => ?_
    refine (Agree.same (readUint_reads chan)).field fun _ => ?_
    refine (Agree.same (readUint_reads corr)).field fun _ => ?_
    refine (readOptDv_agrees hvalue).field fun _ => ?_
    refine (Agree.same (readStr_reads (hown _ (by simp [Msg.ownLengths])))).field fun _ => ?_
    exact extraTail_agrees hv hv' rfl _
  | callReturnArray array =>
    exact callReturnArray_agrees (hown _ (by simp [Msg.ownLengths, ArrowArray.lengths])) hv hv'
  | callReturnData value =>
    have hvalue : LengthsFit value := lengthsFit_of_mem_values h (by simp [Msg.values])
    refine frame_agrees (n := 2) rfl rfl rfl hv hv' ?_
    refine need_agrees 1 rfl ?_
    refine (readDvRoom_agrees hvalue).field fun _ => ?_
    exact metaTail_agrees hv hv' rfl _
  | callReturnHandle handle =>
    refine frame_agrees (n := 2) rfl rfl rfl hv hv' ?_
    refine need_agrees 1 rfl ?_
    refine (Agree.same (readUint_reads handle)).field fun _ => ?_
    exact metaTail_agrees hv hv' rfl _
  | getManifest version =>
    refine frame_agrees (n := 1) rfl rfl rfl hv hv' ?_
    refine need_agrees 0 rfl ?_
    refine (Agree.same (readVersion_reads version)).field fun _ => ?_
    exact extraTail_agrees hv hv' rfl _
  | manifestReturn classes version lanes =>
    refine manifestReturn_agrees (hown _ (by simp [Msg.ownLengths])) ?_ hv hv'
    exact classDecl_encodable (fun n hn => hown n hn) (List.subset_cons_self _ _)
  | makeString value =>
    refine frame_agrees (n := 1) rfl rfl rfl hv hv' ?_
    refine need_agrees 0 rfl ?_
    refine (Agree.same (readStr_reads (hown _ (by simp [Msg.ownLengths])))).field fun _ => ?_
    exact extraTail_agrees hv hv' rfl _
  | handleToString handle =>
    refine frame_agrees (n := 1) rfl rfl rfl hv hv' ?_
    refine need_agrees 0 rfl ?_
    refine (Agree.same (readUint_reads handle)).field fun _ => ?_
    exact extraTail_agrees hv hv' rfl _
  | retain handle =>
    refine frame_agrees (n := 1) rfl rfl rfl hv hv' ?_
    refine need_agrees 0 rfl ?_
    refine (Agree.same (readUint_reads handle)).field fun _ => ?_
    exact extraTail_agrees hv hv' rfl _
  | release handles =>
    refine frame_agrees (n := 1) rfl rfl rfl hv hv' ?_
    refine need_agrees 0 rfl ?_
    refine (Agree.same (readU64Vec_reads (hown _ (by simp [Msg.ownLengths])))).field fun _ => ?_
    exact extraTail_agrees hv hv' rfl _
  | callMethodOnHandle receiver selector args =>
    refine frame_agrees (n := 3) rfl rfl rfl hv hv' ?_
    refine need_agrees 0 rfl ?_
    refine (Agree.same (readUint_reads receiver)).field fun _ => ?_
    refine (Agree.same (readStr_reads (hown _ (by simp [Msg.ownLengths])))).field fun _ => ?_
    refine (Agree.same (readU64Vec_reads (hown _ (by simp [Msg.ownLengths])))).field fun _ => ?_
    exact extraTail_agrees hv hv' rfl _
  | invokeBlock block batches =>
    have hbatch : ∀ batch ∈ batches, batch.length < 2 ^ 32 := fun batch hb =>
      hown _ (List.mem_cons_of_mem _ (List.mem_map.mpr ⟨batch, hb, rfl⟩))
    have hcount : batches.length < 2 ^ 32 := hown _ (by simp [Msg.ownLengths])
    have hbatches := readArray_reads hcount fun batch hb => readU64Vec_reads (hbatch batch hb)
    refine frame_agrees (n := 2) rfl rfl rfl hv hv' ?_
    refine need_agrees 0 rfl ?_
    refine (Agree.same (readUint_reads block)).field fun _ => ?_
    refine (Agree.same hbatches).field fun _ => ?_
    exact extraTail_agrees hv hv' rfl _
  | invokeBlockReturn results error remoteStack =>
    have herror : ∀ e ∈ error, strFits e :=
      strFits_of_optStrLengths (fun n hn => hown n hn) (List.subset_append_right _ _)
    have hstack : strFits remoteStack := hown _ (by simp [Msg.ownLengths])
    refine frame_agrees (n := 3) rfl rfl rfl hv hv' ?_
    refine need_agrees 1 rfl ?_
    refine (Agree.same (readU64Vec_reads (hown _ (by simp [Msg.ownLengths])))).field fun _ => ?_
    refine (Agree.same (readOptStr_reads herror)).field fun _ => ?_
    refine Agree.field_reads (readAppendedStr_reads hstack _) (readAppendedStr_reads hstack _) ?_
    exact extraTail_agrees hv hv' rfl _
  | getGlobal name =>
    refine frame_agrees (n := 1) rfl rfl rfl hv hv' ?_
    refine need_agrees 0 rfl ?_
    refine (Agree.same (readStr_reads (hown _ (by simp [Msg.ownLengths])))).field fun _ => ?_
    exact extraTail_agrees hv hv' rfl _
  | makeValue value =>
    have hvalue : LengthsFit value := lengthsFit_of_mem_values h (by simp [Msg.values])
    refine frame_agrees (n := 1) rfl rfl rfl hv hv' ?_
    refine need_agrees 0 rfl ?_
    refine (readDvRoom_agrees hvalue).field fun _ => ?_
    exact extraTail_agrees hv hv' rfl _
  | readHandle handle =>
    refine frame_agrees (n := 1) rfl rfl rfl hv hv' ?_
    refine need_agrees 0 rfl ?_
    refine (Agree.same (readUint_reads handle)).field fun _ => ?_
    exact extraTail_agrees hv hv' rfl _
  | readHandleReturn value error remoteStack =>
    have hvalue : LengthsFit value := lengthsFit_of_mem_values h (by simp [Msg.values])
    have herror : ∀ e ∈ error, strFits e :=
      strFits_of_optStrLengths (fun n hn => hown n hn) (List.subset_cons_self _ _)
    have hstack : strFits remoteStack := hown _ (by simp [Msg.ownLengths])
    refine frame_agrees (n := 3) rfl rfl rfl hv hv' ?_
    refine need_agrees 1 rfl ?_
    refine (readDvRoom_agrees hvalue).field fun _ => ?_
    refine (Agree.same (readOptStr_reads herror)).field fun _ => ?_
    refine Agree.field_reads (readAppendedStr_reads hstack _) (readAppendedStr_reads hstack _) ?_
    exact extraTail_agrees hv hv' rfl _
  | hostOpReturn handle str error remoteStack =>
    have hopts : ∀ n ∈ optStrLengths str ++ optStrLengths error, n < 2 ^ 32 :=
      fun n hn => hown n (List.mem_cons_of_mem _ hn)
    have hstr : ∀ s ∈ str, strFits s :=
      strFits_of_optStrLengths hopts (List.subset_append_left _ _)
    have herror : ∀ e ∈ error, strFits e :=
      strFits_of_optStrLengths hopts (List.subset_append_right _ _)
    have hstack : strFits remoteStack := hown _ (by simp [Msg.ownLengths])
    refine frame_agrees (n := 4) rfl rfl rfl hv hv' ?_
    refine need_agrees 1 rfl ?_
    refine (Agree.same (readUint_reads handle)).field fun _ => ?_
    refine (Agree.same (readOptStr_reads hstr)).field fun _ => ?_
    refine (Agree.same (readOptStr_reads herror)).field fun _ => ?_
    refine Agree.field_reads (readAppendedStr_reads hstack _) (readAppendedStr_reads hstack _) ?_
    exact extraTail_agrees hv hv' rfl _

end Frames

/-! ## Append-only evolution -/

theorem follows_nil {known : Nat} (h : known < 2 ^ 32) : Appended.Follows known [] :=
  ⟨by simp, by simpa using h⟩

theorem elements_lt (msg : Msg) : msg.elements < 2 ^ 32 := by
  have hfew : msg.elements ≤ 12 := by
    cases msg <;> simp [Msg.elements, encodeFields, Msg.isTerminal]
  omega

/-- A header counts the known fields by themselves. -/
theorem none_valid (msg : Msg) : Appended.none.Valid msg where
  frame := follows_nil (elements_lt msg)
  arrow _ := follows_nil (by omega)
  arg _ := follows_nil (by omega)
  argArrow _ := follows_nil (by omega)
  classDecl _ := follows_nil (by omega)

/-- **Append-only evolution.** Fields appended after the known ones, to the frame
and to every composite inside it, change nothing of what the decoder makes of
the frame. -/
theorem decode_appended (msg : Msg) (replyMeta : ReplyMeta) (ap : Appended)
    (hlengths : ∀ n ∈ msg.lengths, n < 2 ^ 32) (hv : ap.Valid msg) :
    decodeFrameWithMeta (ap.encode msg replyMeta)
      = decodeFrameWithMeta (encodeWithMeta msg (some replyMeta)) := by
  have hagree : FramesAgree ap Appended.none msg replyMeta :=
    frames_agree hlengths hv (none_valid msg)
  rw [FramesAgree, encode_none] at hagree
  rw [decodeFrameWithMeta, decodeFrameWithMeta, hagree.run_eq]

/-- What the two trailing extras of a newer peer are: nil, and `[1, {"k": 2}]`. -/
def newerFields : List Value :=
  [.nil, .fixarray 2 (by omega)
    ![.posFixint 1, .fixmap 1 (by omega) ![.fixstr [0x6b] (by decide)] ![.posFixint 2]]]

/-- A newer peer that appends them to every array and to the frame. -/
def newerPeer : Appended :=
  { Appended.none with frame := newerFields, arrow := fun _ => newerFields }

/-- The frame of the source's own test, byte for byte. -/
example : ({ Appended.none with frame := newerFields } : Appended).encode (.callReturn "x")
    { handlerMicros := 5 }
      = [0x95, 0x01, 0xa1, 0x78, 0x05, 0xc0, 0x92, 0x01, 0x81, 0xa1, 0x6b, 0x02] := by
  decide +kernel

theorem newerFields_follow {known : Nat} (h : known < 100) :
    Appended.Follows known newerFields := by
  have hnest : ∀ v ∈ newerFields, v.nesting ≤ maxDvDepth := by decide +kernel
  have hlen : newerFields.length = 2 := rfl
  exact ⟨hnest, by omega⟩

/-- An array answered by such a peer. -/
theorem decode_appended_newerPeer :
    decodeFrameWithMeta
        (newerPeer.encode (.callReturnArray ⟨.int64, 1, [7]⟩) { handlerMicros := 5 })
      = decodeFrameWithMeta
        (encodeWithMeta (.callReturnArray ⟨.int64, 1, [7]⟩) (some { handlerMicros := 5 })) :=
  decode_appended _ _ _ (by decide) {
    frame := newerFields_follow (by decide)
    arrow := fun _ => newerFields_follow (by omega)
    arg := fun _ => follows_nil (by omega)
    argArrow := fun _ => follows_nil (by omega)
    classDecl := fun _ => follows_nil (by omega) }

/-! ## Where the lengths wrap -/

theorem utf8_replicate (n : Nat) :
    utf8 (String.ofList (List.replicate n 'a')) = List.replicate n 0x61 := by
  have hone : (['a'] : List Char).utf8Encode.data.toList = [0x61] := by decide
  induction n with
  | zero => rfl
  | succ n ih =>
    simp only [utf8, String.toUTF8_eq_toByteArray, String.toByteArray_ofList] at ih ⊢
    rw [List.replicate_succ, List.utf8Encode_cons, ByteArray.data_append, Array.toList_append,
      hone, ih]
    rfl

/-- A string of 2^32 bytes is announced as empty. -/
theorem writeStr_wrapped {s : String} (hlen : (utf8 s).length = 2 ^ 32) :
    writeStr s = 0xdb :: (beBytes 4 0 ++ utf8 s) := by
  have hheader : writeStrHeader (2 ^ 32) = 0xdb :: beBytes 4 0 := by decide
  rw [writeStr, hlen, hheader, List.cons_append]

theorem readStr_wrapped : Reads readStr (0xdb :: beBytes 4 0) "" := by
  have hheader : Reads readStrHeader (0xdb :: beBytes 4 0) 0 :=
    (takeU8_reads 0xdb).bind ((takeU32_reads 0).bind_pure (Reads.pure 0))
  unfold readStr
  refine hheader.bind_pure ?_
  exact (Reads.take (s := []) rfl).bind_nil (Reads.pure "")

/-- The decoder takes the text of a result announced as empty for the fields that
follow it. -/
theorem readFrame_wrapped {n : Nat} (vs : List Value) (hn : n = 3 + vs.length)
    (hv : Appended.Follows 3 vs) : Reads readFrame [writeArrayHeader n, writeUint tCallReturn,
      0xdb :: beBytes 4 0, writeUint 97, valuesBytes vs].flatten (.callReturn "", ⟨97⟩) := by
  have hsub : 3 + vs.length - 1 = 1 + (vs.length + 1) := by omega
  subst hn
  unfold readFrame
  refine (readArrayHeader_reads hv.2).field ?_
  rw [if_neg (by omega), hsub]
  refine (readUint_reads tCallReturn).field ?_
  refine (need_reads 1 _ _).bind_nil ?_
  refine readStr_wrapped.field ?_
  refine (readAppendedU64_reads 97 _).field ?_
  rw [List.flatten_singleton]
  exact done_extra_reads hv _

/-- 2^32 letters `a`. -/
def longText : String := String.ofList (List.replicate (2 ^ 32) 'a')

/-- One appended field, the number 5 as a `uint8`. -/
def oneMore : Appended := { Appended.none with frame := [.number .uint8 [5] rfl] }

theorem utf8_replicate_add_two {n m : Nat} (hn : n = m + 2) :
    utf8 (String.ofList (List.replicate n 'a')) = 0x61 :: 0x61 :: List.replicate m 0x61 := by
  rw [hn, utf8_replicate, List.replicate_succ, List.replicate_succ]

/-- What is left after a frame that was read is an error of its own. -/
theorem decode_trailing {s rest : Bytes} {answer : Msg × ReplyMeta}
    (h : Reads readFrame s answer) (hrest : rest ≠ []) :
    decodeFrameWithMeta (s ++ rest) = .error (.trailingBytes rest.length) := by
  have hempty : rest.isEmpty = false := by simpa using hrest
  rw [decodeFrameWithMeta, h rest]
  show (if rest.isEmpty then _ else _) = _
  rw [hempty]
  rfl

theorem oneMore_valid : oneMore.Valid (.callReturn longText) where
  frame := ⟨by simp [oneMore, Value.nesting], by decide⟩
  arrow _ := follows_nil (by omega)
  arg _ := follows_nil (by omega)
  argArrow _ := follows_nil (by omega)
  classDecl _ := follows_nil (by omega)

/-- The result text is announced as empty, and its letters are read as the fields
after it: the meta, then whatever the header counts. Neither frame decodes, and
they do not fail alike. So appending does not decode to what the frame without it
decodes to, neither in the sense that the message and the meta come out (nothing
comes out) nor in the weaker one, that of `decode_appended`, that both frames come
to the same result, an error included. -/
theorem decode_appended_longText :
    oneMore.Valid (.callReturn longText) ∧
      decodeFrameWithMeta (encodeWithMeta (.callReturn longText) (some {}))
        = .error (.trailingBytes (2 ^ 32)) ∧
      decodeFrameWithMeta (oneMore.encode (.callReturn longText) {})
        = .error (.trailingBytes (2 ^ 32 + 1)) := by
  obtain ⟨m, hm⟩ : ∃ m, 2 ^ 32 = m + 2 := ⟨4294967294, by norm_num⟩
  obtain ⟨t, ht⟩ : ∃ t, t = List.replicate m (0x61 : UInt8) := ⟨_, rfl⟩
  have htext : utf8 longText = 0x61 :: 0x61 :: t := ht ▸ utf8_replicate_add_two hm
  have hlen : t.length + 2 = 2 ^ 32 := by rw [ht, List.length_replicate, hm]
  have hwrite : writeStr longText = 0xdb :: (beBytes 4 0 ++ 0x61 :: 0x61 :: t) := by
    rw [← htext]
    refine writeStr_wrapped ?_
    rw [htext, List.length_cons, List.length_cons, hlen]
  refine ⟨oneMore_valid, ?_, ?_⟩
  · have hframe : encodeWithMeta (.callReturn longText) (some {})
        = [writeArrayHeader 3, writeUint tCallReturn, 0xdb :: beBytes 4 0, writeUint 97,
            valuesBytes []].flatten ++ (0x61 :: t ++ [0]) := by
      rw [encodeWithMeta, encodeFields, hwrite]
      simp [encodeMeta, metaN, Msg.isTerminal, valuesBytes]
      rfl
    have hread := readFrame_wrapped (n := 3) [] rfl ⟨by simp, by decide⟩
    have hrest : (0x61 :: t ++ [0]).length = 2 ^ 32 := by
      rw [List.length_append, List.length_cons, List.length_singleton, hlen]
    rw [hframe, decode_trailing hread (by simp) , hrest]
  · have hframe : oneMore.encode (.callReturn longText) {}
        = [writeArrayHeader 4, writeUint tCallReturn, 0xdb :: beBytes 4 0, writeUint 97,
            valuesBytes [.posFixint 97]].flatten ++ (t ++ [0, 0xcc, 5]) := by
      simp only [Appended.encode, Appended.fields, encodeFields, List.tail_cons, hwrite]
      simp [encodeMeta, metaN, Msg.isTerminal, valuesBytes]
      rfl
    have hread := readFrame_wrapped (n := 4) [.posFixint 97] rfl ⟨by simp [Value.nesting], by decide⟩
    have hrest : (t ++ [0, 0xcc, 5]).length = 2 ^ 32 + 1 := by
      rw [List.length_append, List.length_cons, List.length_cons, List.length_singleton]
      omega
    rw [hframe, decode_trailing hread (by simp) , hrest]

end Quoin.Proto
