import Quoin.Proto.Values

/-!
# Quoin — every frame round-trips

`decode_frame_with_meta` applied to the bytes of `encode_with_meta` answers
the message that was sent, and the `ReplyMeta` where one was carried. The
frame is its array header, its type tag and its fields; the header counts the
fields, so a reader can tell an appended field from the next frame's bytes
(`need`, `readAppendedStr`, `readAppendedU64`). What a message must satisfy is
collected in `Msg.Encodable`.

A `DataValue.resource` travels as one ext value whose payload is the 8-byte id
*and* the name, so a name of nearly 2^32 bytes fits a string header but not
its ext header, and is sent truncated (`decode_longResource`). The same
length is harmless anywhere else.
-/

namespace Quoin.Proto

open Wire

/-! ## Optional payloads -/

/-- A position carrying `nil | value`: a value whose encoding cannot be taken
for nil is read as itself. -/
theorem takeNil_or_reads {α : Type} {read : Dec α} {bs : Bytes} {a : α} (h : Reads read bs a)
    (hempty : ∀ r, read [] ≠ .ok (a, r)) (hnil : ∀ t r, read (0xc0 :: t) ≠ .ok (a, r)) :
    Reads (do if ← takeNil then pure none else return some (← read)) bs (some a) := by
  intro rest
  have hread := h []
  have hrest := h rest
  cases bs with
  | nil => exact absurd hread (hempty [])
  | cons b t =>
    have hb : b ≠ 0xc0 := by
      rintro rfl
      exact hnil _ _ hread
    have hskip : takeNil (b :: t ++ rest) = .ok (false, b :: t ++ rest) := by
      rw [List.cons_append, takeNil]
      rintro tail heq
      injection heq with hhead
      exact hb hhead
    show (takeNil (b :: t ++ rest) >>= fun s => _) = _
    rw [hskip]
    show (read (b :: t ++ rest) >>= fun s => _) = _
    rw [hrest]
    rfl

theorem takeNil_or_nil {α : Type} {read : Dec α} :
    Reads (do if ← takeNil then pure none else return some (← read)) [0xc0] none :=
  fun _ => rfl

theorem readOptStr_reads {s : Option String} (h : ∀ x ∈ s, strFits x) :
    Reads readOptStr (writeOptStr s) s := by
  cases s with
  | none => exact takeNil_or_nil
  | some x =>
    refine takeNil_or_reads (readStr_reads (h x rfl)) ?_ ?_
    · intro r hr
      cases hr
    · intro t r hr
      cases hr

/-- `None` and `Some(Null)` are both nil on the wire, hence `hnull`. -/
theorem readOptDv_reads {dv : Option DataValue} (hnull : dv ≠ some .null)
    (hnest : ∀ x ∈ dv, x.nesting ≤ maxDvDepth) (hfits : ∀ x ∈ dv, Fits x) :
    Reads readOptDv (writeOptDv dv) dv := by
  cases dv with
  | none => exact takeNil_or_nil
  | some x =>
    have hx : x ≠ .null := fun hx => hnull (by rw [hx])
    have hwrite : writeOptDv (some x) = writeDv x := by
      cases x <;> first | contradiction | rfl
    rw [hwrite]
    refine takeNil_or_reads (readDv_reads (hnest x rfl) (hfits x rfl)) ?_ ?_
    · intro r hr
      cases hr
    · intro t r hr
      cases hr
      exact hx rfl

/-! ## Composites -/

theorem readArray_reads {α : Type} {read : Dec α} {write : α → Bytes} {xs : List α}
    (hlen : xs.length < 2 ^ 32) (h : ∀ x ∈ xs, Reads read (write x) x) :
    Reads (readArray read) (writeArray write xs) xs := by
  unfold readArray writeArray
  exact (readArrayHeader_reads hlen).bind (Reads.repeatN h)

theorem readU64Vec_reads {xs : List UInt64} (hlen : xs.length < 2 ^ 32) :
    Reads readU64Vec (writeU64Vec xs) xs :=
  readArray_reads hlen fun x _ => readUint_reads x

theorem readStrVec_reads {xs : List String} (hlen : xs.length < 2 ^ 32)
    (h : ∀ x ∈ xs, strFits x) : Reads readStrVec (writeStrVec xs) xs :=
  readArray_reads hlen fun x hx => readStr_reads (h x hx)

/-- A header announcing `extra` fields beyond the expected ones. -/
theorem need_reads (expected extra : Nat) (what : String) :
    Reads (need (expected + extra) expected what) [] extra := by
  have hsub : expected + extra - expected = extra := by omega
  rw [need, if_neg (by omega), hsub]
  exact Reads.pure extra

/-- With no field left over, there is nothing to skip. -/
theorem skipExtra_zero : Reads (skipExtra 0) [] () := fun _ => rfl

theorem done_reads {α : Type} (a : α) : Reads (do skipExtra 0; pure a) [] a :=
  skipExtra_zero.bind_nil (Reads.pure a)

theorem readArrow_reads {a : ArrowArray} (h : a.data.length < 2 ^ 32) :
    Reads readArrow (writeArrow a) a := by
  obtain ⟨dtype, length, data⟩ := a
  unfold readArrow writeArrow
  refine (readArrayHeader_reads (n := 3) (by omega)).bind ?_
  refine (need_reads 3 0 _).bind_nil ?_
  refine (readUint_reads _).bind ?_
  cases dtype
  all_goals
    refine (Reads.pure _).bind_nil ?_
    refine (readUint_reads _).bind ?_
    exact (readBin_reads h).bind_pure (done_reads _)

/-- The bounds on the parts of one argument. -/
def Arg.Encodable : Arg → Prop
  | .data d => d.nesting ≤ maxDvDepth ∧ Fits d
  | .array a => a.data.length < 2 ^ 32
  | _ => True

theorem readArg_reads {a : Arg} (h : a.Encodable) : Reads readArg (writeArg a) a := by
  unfold readArg writeArg
  refine (readArrayHeader_reads (n := 2) (by omega)).bind ?_
  refine (need_reads 2 0 _).bind_nil ?_
  cases a with
  | data d =>
    refine (readUint_reads 0).bind ?_
    exact ((readDv_reads h.1 h.2).map Arg.data).bind_pure (done_reads _)
  | resource id =>
    refine (readUint_reads 1).bind ?_
    exact ((readUint_reads id).map Arg.resource).bind_pure (done_reads _)
  | handle g =>
    refine (readUint_reads 2).bind ?_
    exact ((readUint_reads g).map Arg.handle).bind_pure (done_reads _)
  | array a =>
    refine (readUint_reads 3).bind ?_
    exact ((readArrow_reads h).map Arg.array).bind_pure (done_reads _)
  | chan c =>
    refine (readUint_reads 4).bind ?_
    exact ((readUint_reads c).map Arg.chan).bind_pure (done_reads _)

def ClassDecl.Encodable (c : ClassDecl) : Prop := ∀ n ∈ c.lengths, n < 2 ^ 32

/-- The bounds of a declaration, part by part. -/
theorem ClassDecl.Encodable.parts {c : ClassDecl} (h : c.Encodable) :
    strFits c.name ∧ c.instanceSelectors.length < 2 ^ 32 ∧ c.classSelectors.length < 2 ^ 32 ∧
      (∀ s ∈ c.instanceSelectors, strFits s) ∧ ∀ s ∈ c.classSelectors, strFits s := by
  refine ⟨h _ ?_, h _ ?_, h _ ?_, fun s hs => h _ ?_, fun s hs => h _ ?_⟩
  · simp [ClassDecl.lengths]
  · simp [ClassDecl.lengths]
  · simp [ClassDecl.lengths]
  · refine List.mem_append_right _ (List.mem_map.mpr ⟨s, ?_, rfl⟩)
    exact List.mem_append_left _ hs
  · refine List.mem_append_right _ (List.mem_map.mpr ⟨s, ?_, rfl⟩)
    exact List.mem_append_right _ hs

theorem readClassDecl_reads {c : ClassDecl} (h : c.Encodable) :
    Reads readClassDecl (writeClassDecl c) c := by
  obtain ⟨hname, hinst, hclass, hinsts, hclasses⟩ := h.parts
  unfold readClassDecl writeClassDecl
  refine (readArrayHeader_reads (n := 3) (by omega)).bind ?_
  refine (need_reads 3 0 _).bind_nil ?_
  refine (readStr_reads hname).bind ?_
  refine (readStrVec_reads hinst hinsts).bind ?_
  exact (readStrVec_reads hclass hclasses).bind_pure (done_reads _)

/-! ## Appended fields -/

theorem readAppendedStr_reads {s : String} (hs : strFits s) (extra : Nat) :
    Reads (readAppendedStr (extra + 1)) (writeStr s) (s, extra) := by
  unfold readAppendedStr
  rw [if_neg (by omega)]
  exact (readStr_reads hs).bind_pure (Reads.pure _)

theorem readAppendedU64_reads (v : UInt64) (extra : Nat) :
    Reads (readAppendedU64 (extra + 1)) (writeUint v) (v, extra) := by
  unfold readAppendedU64
  rw [if_neg (by omega)]
  exact (readUint_reads v).bind_pure (Reads.pure _)

/-- What the decoder answers for the meta of a frame. -/
def decodedMeta (msg : Msg) (replyMeta : Option ReplyMeta) : ReplyMeta :=
  if msg.isTerminal then replyMeta.getD {} else {}

/-- The tail of every terminal: its meta, if the sender appended one. -/
theorem metaTail_reads {msg : Msg} (hterm : msg.isTerminal) (replyMeta : Option ReplyMeta) :
    Reads (do
      let (handlerMicros, extra) ← readAppendedU64 (metaN msg replyMeta)
      skipExtra extra
      pure (msg, ({ handlerMicros } : ReplyMeta)))
      [encodeMeta msg replyMeta].flatten (msg, decodedMeta msg replyMeta) := by
  rw [List.flatten_singleton]
  cases replyMeta with
  | none =>
    have hn : metaN msg none = 0 := by simp [metaN]
    have hmeta : decodedMeta msg none = {} := by simp [decodedMeta]
    rw [hn, hmeta]
    exact Reads.bind_nil (p := readAppendedU64 0) (Reads.pure (0, 0)) (done_reads _)
  | some m =>
    have hn : metaN msg (some m) = 1 := by simp [metaN, hterm]
    have hmeta : decodedMeta msg (some m) = m := by simp [decodedMeta, hterm]
    have hbytes : encodeMeta msg (some m) = writeUint m.handlerMicros := by
      simp [encodeMeta, hn]
    rw [hn, hmeta, hbytes]
    exact (readAppendedU64_reads m.handlerMicros 0).bind_pure (done_reads _)

/-- The tail of every other frame: nothing is appended, whatever meta is given. -/
theorem noMetaTail_reads {msg : Msg} (hterm : msg.isTerminal = false)
    (replyMeta : Option ReplyMeta) :
    Reads (do skipExtra 0; pure (msg, ({} : ReplyMeta)))
      [encodeMeta msg replyMeta].flatten (msg, decodedMeta msg replyMeta) := by
  have hn : metaN msg replyMeta = 0 := by simp [metaN, hterm]
  have hmeta : decodedMeta msg replyMeta = {} := by simp [decodedMeta, hterm]
  have hbytes : encodeMeta msg replyMeta = [] := by
    unfold encodeMeta
    split
    · rw [hn, if_neg (by omega)]
    · rfl
  rw [hmeta, hbytes, List.flatten_singleton]
  exact done_reads _

/-! ## Messages -/

/-- The frame of `msg` reads back as `msg` and the meta it carried. -/
def RoundTrips (msg : Msg) (replyMeta : Option ReplyMeta) : Prop :=
  Reads readFrame (encodeWithMeta msg replyMeta) (msg, decodedMeta msg replyMeta)

theorem metaN_le (msg : Msg) (replyMeta : Option ReplyMeta) : metaN msg replyMeta ≤ 1 := by
  unfold metaN
  split_ifs <;> omega

/-- A frame is its header, its tag, and its fields read under that tag. -/
theorem frame_roundTrips {msg : Msg} {replyMeta : Option ReplyMeta} {header n : Nat}
    {tag : UInt64} {fields : List Bytes}
    (henc : encodeFields (metaN msg replyMeta) msg
      = writeArrayHeader header :: writeUint tag :: fields)
    (hheader : header = n + 1) (hn : n < 32)
    (h : Reads (readFields n tag) (fields ++ [encodeMeta msg replyMeta]).flatten
      (msg, decodedMeta msg replyMeta)) : RoundTrips msg replyMeta := by
  rw [RoundTrips, encodeWithMeta, henc, List.cons_append, List.cons_append]
  unfold readFrame
  refine (readArrayHeader_reads (by omega)).field ?_
  rw [if_neg (by omega), hheader, Nat.add_sub_cancel]
  exact (readUint_reads tag).field h

/-- The header of a terminal with `k` fields of its own counts the meta in. -/
theorem terminal_roundTrips {msg : Msg} {replyMeta : Option ReplyMeta} {tag : UInt64}
    {fields : List Bytes} (k : Nat) (hk : k < 16)
    (henc : encodeFields (metaN msg replyMeta) msg
      = writeArrayHeader (k + 1 + metaN msg replyMeta) :: writeUint tag :: fields)
    (h : Reads (readFields (k + metaN msg replyMeta) tag)
      (fields ++ [encodeMeta msg replyMeta]).flatten (msg, decodedMeta msg replyMeta)) :
    RoundTrips msg replyMeta := by
  have := metaN_le msg replyMeta
  exact frame_roundTrips henc (by omega) (by omega) h

/-! ### Terminals -/

section Terminals

variable (replyMeta : Option ReplyMeta)

theorem callReturn_roundTrips {result : String} (h : strFits result) :
    RoundTrips (.callReturn result) replyMeta := by
  refine terminal_roundTrips 1 (by omega) rfl ?_
  refine (need_reads 1 _ _).bind_nil ?_
  refine (readStr_reads h).field ?_
  exact metaTail_reads rfl replyMeta

theorem callReturnError_roundTrips {message remoteStack : String} (hmessage : strFits message)
    (hstack : strFits remoteStack) :
    RoundTrips (.callReturnError message remoteStack) replyMeta := by
  refine terminal_roundTrips 2 (by omega) rfl ?_
  -- only the message is required; the stack is an appended field
  rw [show 2 + metaN (.callReturnError message remoteStack) replyMeta
    = 1 + (metaN (.callReturnError message remoteStack) replyMeta + 1) by omega]
  refine (need_reads 1 _ _).bind_nil ?_
  refine (readStr_reads hmessage).field ?_
  refine (readAppendedStr_reads hstack _).field ?_
  exact metaTail_reads rfl replyMeta

theorem callReturnResource_roundTrips (resource : UInt64) {className : String}
    (h : strFits className) : RoundTrips (.callReturnResource resource className) replyMeta := by
  refine terminal_roundTrips 2 (by omega) rfl ?_
  refine (need_reads 2 _ _).bind_nil ?_
  refine (readUint_reads resource).field ?_
  refine (readStr_reads h).field ?_
  exact metaTail_reads rfl replyMeta

theorem callReturnChannel_roundTrips (chan : UInt64) :
    RoundTrips (.callReturnChannel chan) replyMeta := by
  refine terminal_roundTrips 1 (by omega) rfl ?_
  refine (need_reads 1 _ _).bind_nil ?_
  refine (readUint_reads chan).field ?_
  exact metaTail_reads rfl replyMeta

theorem callReturnResourceDecl_roundTrips (resource : UInt64) {className : String}
    {instanceSelectors classSelectors : List String}
    (h : (ClassDecl.mk className instanceSelectors classSelectors).Encodable) :
    RoundTrips (.callReturnResourceDecl resource className instanceSelectors classSelectors)
      replyMeta := by
  obtain ⟨hname, hinst, hclass, hinsts, hclasses⟩ := h.parts
  refine terminal_roundTrips 4 (by omega) rfl ?_
  refine (need_reads 4 _ _).bind_nil ?_
  refine (readUint_reads resource).field ?_
  refine (readStr_reads hname).field ?_
  refine (readStrVec_reads hinst hinsts).field ?_
  refine (readStrVec_reads hclass hclasses).field ?_
  exact metaTail_reads rfl replyMeta

theorem callReturnArray_roundTrips {array : ArrowArray} (h : array.data.length < 2 ^ 32) :
    RoundTrips (.callReturnArray array) replyMeta := by
  refine terminal_roundTrips 1 (by omega) rfl ?_
  refine (need_reads 1 _ _).bind_nil ?_
  refine (readArrow_reads h).field ?_
  exact metaTail_reads rfl replyMeta

theorem callReturnData_roundTrips {value : DataValue} (hnest : value.nesting ≤ maxDvDepth)
    (hfits : Fits value) : RoundTrips (.callReturnData value) replyMeta := by
  refine terminal_roundTrips 1 (by omega) rfl ?_
  refine (need_reads 1 _ _).bind_nil ?_
  refine (readDv_reads hnest hfits).field ?_
  exact metaTail_reads rfl replyMeta

theorem callReturnHandle_roundTrips (handle : UInt64) :
    RoundTrips (.callReturnHandle handle) replyMeta := by
  refine terminal_roundTrips 1 (by omega) rfl ?_
  refine (need_reads 1 _ _).bind_nil ?_
  refine (readUint_reads handle).field ?_
  exact metaTail_reads rfl replyMeta

end Terminals

/-! ### Requests, host ops and their returns -/

section Others

variable (replyMeta : Option ReplyMeta)

theorem call_roundTrips {op arg className : String} {handles resources releases : List UInt64}
    {arrays : List ArrowArray} {data : Option DataValue} (recv : UInt64) {methodArgs : List Arg}
    (hop : strFits op) (harg : strFits arg) (hclass : strFits className)
    (hhandles : handles.length < 2 ^ 32) (hresources : resources.length < 2 ^ 32)
    (hreleases : releases.length < 2 ^ 32) (harrays : arrays.length < 2 ^ 32)
    (harray : ∀ a ∈ arrays, a.data.length < 2 ^ 32) (hnull : data ≠ some .null)
    (hnest : ∀ d ∈ data, d.nesting ≤ maxDvDepth) (hfits : ∀ d ∈ data, Fits d)
    (hargs : methodArgs.length < 2 ^ 32) (hencArgs : ∀ a ∈ methodArgs, a.Encodable) :
    RoundTrips (.call op arg handles resources releases arrays data className recv methodArgs)
      replyMeta := by
  refine frame_roundTrips (n := 10) rfl rfl (by omega) ?_
  refine (need_reads 10 0 _).bind_nil ?_
  refine (readStr_reads hop).field ?_
  refine (readStr_reads harg).field ?_
  refine (readU64Vec_reads hhandles).field ?_
  refine (readU64Vec_reads hresources).field ?_
  refine (readU64Vec_reads hreleases).field ?_
  refine (readArray_reads harrays fun a ha => readArrow_reads (harray a ha)).field ?_
  refine (readOptDv_reads hnull hnest hfits).field ?_
  refine (readStr_reads hclass).field ?_
  refine (readUint_reads recv).field ?_
  refine (readArray_reads hargs fun a ha => readArg_reads (hencArgs a ha)).field ?_
  exact noMetaTail_reads rfl replyMeta

theorem chan_roundTrips (kind : UInt8) (chan corr : UInt64) {value : Option DataValue}
    {message : String} (hnull : value ≠ some .null)
    (hnest : ∀ d ∈ value, d.nesting ≤ maxDvDepth) (hfits : ∀ d ∈ value, Fits d)
    (hmessage : strFits message) :
    RoundTrips (.chan kind chan corr value message) replyMeta := by
  have hkind : kind.toUInt64.toUInt8 = kind := by simp
  refine frame_roundTrips (n := 5) rfl rfl (by omega) ?_
  refine (need_reads 5 0 _).bind_nil ?_
  refine (readUint_reads kind.toUInt64).field ?_
  refine (readUint_reads chan).field ?_
  refine (readUint_reads corr).field ?_
  refine (readOptDv_reads hnull hnest hfits).field ?_
  refine (readStr_reads hmessage).field ?_
  rw [hkind]
  exact noMetaTail_reads rfl replyMeta

theorem getManifest_roundTrips (version : UInt32) :
    RoundTrips (.getManifest version) replyMeta := by
  refine frame_roundTrips (n := 1) rfl rfl (by omega) ?_
  refine (need_reads 1 0 _).bind_nil ?_
  refine (readVersion_reads version).field ?_
  exact noMetaTail_reads rfl replyMeta

theorem manifestReturn_roundTrips {classes : List ClassDecl} (version lanes : UInt32)
    (hclasses : classes.length < 2 ^ 32) (hclass : ∀ c ∈ classes, c.Encodable) :
    RoundTrips (.manifestReturn classes version lanes) replyMeta := by
  have hlanes : lanes.toUInt64.toUInt32 = lanes := by simp
  refine frame_roundTrips (n := 3) rfl rfl (by omega) ?_
  -- the lane count is an appended field
  refine (need_reads 2 1 _).bind_nil ?_
  refine (readVersion_reads version).field ?_
  refine (readArray_reads hclasses fun c hc => readClassDecl_reads (hclass c hc)).field ?_
  refine (readAppendedU64_reads lanes.toUInt64 0).field ?_
  show Reads (do skipExtra 0; pure (Msg.manifestReturn classes version lanes.toUInt64.toUInt32,
    ({} : ReplyMeta))) _ _
  rw [hlanes]
  exact noMetaTail_reads rfl replyMeta

theorem makeString_roundTrips {value : String} (h : strFits value) :
    RoundTrips (.makeString value) replyMeta := by
  refine frame_roundTrips (n := 1) rfl rfl (by omega) ?_
  refine (need_reads 1 0 _).bind_nil ?_
  refine (readStr_reads h).field ?_
  exact noMetaTail_reads rfl replyMeta

theorem handleToString_roundTrips (handle : UInt64) :
    RoundTrips (.handleToString handle) replyMeta := by
  refine frame_roundTrips (n := 1) rfl rfl (by omega) ?_
  refine (need_reads 1 0 _).bind_nil ?_
  refine (readUint_reads handle).field ?_
  exact noMetaTail_reads rfl replyMeta

theorem retain_roundTrips (handle : UInt64) : RoundTrips (.retain handle) replyMeta := by
  refine frame_roundTrips (n := 1) rfl rfl (by omega) ?_
  refine (need_reads 1 0 _).bind_nil ?_
  refine (readUint_reads handle).field ?_
  exact noMetaTail_reads rfl replyMeta

theorem release_roundTrips {handles : List UInt64} (h : handles.length < 2 ^ 32) :
    RoundTrips (.release handles) replyMeta := by
  refine frame_roundTrips (n := 1) rfl rfl (by omega) ?_
  refine (need_reads 1 0 _).bind_nil ?_
  refine (readU64Vec_reads h).field ?_
  exact noMetaTail_reads rfl replyMeta

theorem callMethodOnHandle_roundTrips (receiver : UInt64) {selector : String}
    {args : List UInt64} (hselector : strFits selector) (hargs : args.length < 2 ^ 32) :
    RoundTrips (.callMethodOnHandle receiver selector args) replyMeta := by
  refine frame_roundTrips (n := 3) rfl rfl (by omega) ?_
  refine (need_reads 3 0 _).bind_nil ?_
  refine (readUint_reads receiver).field ?_
  refine (readStr_reads hselector).field ?_
  refine (readU64Vec_reads hargs).field ?_
  exact noMetaTail_reads rfl replyMeta

theorem invokeBlock_roundTrips (block : UInt64) {batches : List (List UInt64)}
    (hlen : batches.length < 2 ^ 32) (h : ∀ batch ∈ batches, batch.length < 2 ^ 32) :
    RoundTrips (.invokeBlock block batches) replyMeta := by
  refine frame_roundTrips (n := 2) rfl rfl (by omega) ?_
  refine (need_reads 2 0 _).bind_nil ?_
  refine (readUint_reads block).field ?_
  refine (readArray_reads hlen fun batch hb => readU64Vec_reads (h batch hb)).field ?_
  exact noMetaTail_reads rfl replyMeta

theorem invokeBlockReturn_roundTrips {results : List UInt64} {error : Option String}
    {remoteStack : String} (hresults : results.length < 2 ^ 32)
    (herror : ∀ e ∈ error, strFits e) (hstack : strFits remoteStack) :
    RoundTrips (.invokeBlockReturn results error remoteStack) replyMeta := by
  refine frame_roundTrips (n := 3) rfl rfl (by omega) ?_
  refine (need_reads 2 1 _).bind_nil ?_
  refine (readU64Vec_reads hresults).field ?_
  refine (readOptStr_reads herror).field ?_
  refine (readAppendedStr_reads hstack 0).field ?_
  exact noMetaTail_reads rfl replyMeta

theorem getGlobal_roundTrips {name : String} (h : strFits name) :
    RoundTrips (.getGlobal name) replyMeta := by
  refine frame_roundTrips (n := 1) rfl rfl (by omega) ?_
  refine (need_reads 1 0 _).bind_nil ?_
  refine (readStr_reads h).field ?_
  exact noMetaTail_reads rfl replyMeta

theorem makeValue_roundTrips {value : DataValue} (hnest : value.nesting ≤ maxDvDepth)
    (hfits : Fits value) : RoundTrips (.makeValue value) replyMeta := by
  refine frame_roundTrips (n := 1) rfl rfl (by omega) ?_
  refine (need_reads 1 0 _).bind_nil ?_
  refine (readDv_reads hnest hfits).field ?_
  exact noMetaTail_reads rfl replyMeta

theorem readHandle_roundTrips (handle : UInt64) : RoundTrips (.readHandle handle) replyMeta := by
  refine frame_roundTrips (n := 1) rfl rfl (by omega) ?_
  refine (need_reads 1 0 _).bind_nil ?_
  refine (readUint_reads handle).field ?_
  exact noMetaTail_reads rfl replyMeta

theorem readHandleReturn_roundTrips {value : DataValue} {error : Option String}
    {remoteStack : String} (hnest : value.nesting ≤ maxDvDepth) (hfits : Fits value)
    (herror : ∀ e ∈ error, strFits e) (hstack : strFits remoteStack) :
    RoundTrips (.readHandleReturn value error remoteStack) replyMeta := by
  refine frame_roundTrips (n := 3) rfl rfl (by omega) ?_
  refine (need_reads 2 1 _).bind_nil ?_
  refine (readDv_reads hnest hfits).field ?_
  refine (readOptStr_reads herror).field ?_
  refine (readAppendedStr_reads hstack 0).field ?_
  exact noMetaTail_reads rfl replyMeta

theorem hostOpReturn_roundTrips (handle : UInt64) {str error : Option String}
    {remoteStack : String} (hstr : ∀ s ∈ str, strFits s) (herror : ∀ e ∈ error, strFits e)
    (hstack : strFits remoteStack) :
    RoundTrips (.hostOpReturn handle str error remoteStack) replyMeta := by
  refine frame_roundTrips (n := 4) rfl rfl (by omega) ?_
  refine (need_reads 3 1 _).bind_nil ?_
  refine (readUint_reads handle).field ?_
  refine (readOptStr_reads hstr).field ?_
  refine (readOptStr_reads herror).field ?_
  refine (readAppendedStr_reads hstack 0).field ?_
  exact noMetaTail_reads rfl replyMeta

end Others

end Quoin.Proto
