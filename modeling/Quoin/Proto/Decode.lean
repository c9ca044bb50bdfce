import Quoin.Proto.Encode
import Quoin.Wire.Reader

/-!
# Quoin — the MessagePack decoder

The reading half of `codec.rs`, `decode_frame_with_meta` and everything
under it. The Rust reader advances `rd: &mut &[u8]`; its model is a
`Wire.Reader` over the remaining bytes, so `?` is the monad's bind and every
early `return Err(..)` a `throw`. Errors are data (`DecodeError`), with the
message each one prints in `DecodeError.text`.

The two recursive readers are bounded by `MAX_DV_DEPTH`. The model recurses
on the *room* left under that bound, `maxDvDepth + 1 - depth`;
`readDv_eq` states the first of them the way the source writes it, in terms
of `depth`.
-/

namespace Quoin.Proto

open Wire

/-! ## Errors -/

inductive DecodeError where
  | emptyFrame
  | unknownFrameType (tag : UInt64)
  | trailingBytes (n : Nat)
  | packedTrailingBytes (n : Nat)
  | tooFewFields (what : String) (fields expected : Nat)
  | truncated
  | expectedArray (marker : UInt8)
  | negative
  | expectedUint (marker : UInt8)
  | versionOutOfRange
  | expectedString (marker : UInt8)
  | notUtf8
  | expectedBin (marker : UInt8)
  | unknownDtype (dtype : UInt64)
  | unknownArgKind (kind : UInt64)
  | nestingTooDeep
  | unsupportedMarker (marker : UInt8)
  | mapKeyNotString (got : DataValue)
  | payloadNotUtf8 (what : String)
  | resourcePayloadShort
  | resourceNameNotUtf8
  | unknownExtType (ty : Int8)
  | reservedMarker

/-- `{:02x}` of a byte. -/
def hex2 (b : UInt8) : String :=
  String.ofList [Nat.digitChar (b.toNat / 16), Nat.digitChar (b.toNat % 16)]

/-- The message of an error. `debug` stands for the derived `Debug` of a
`DataValue`, the one piece of text the codec does not write itself. -/
def DecodeError.text (debug : DataValue → String) : DecodeError → String
  | .emptyFrame => "extension protocol: empty frame array"
  | .unknownFrameType tag =>
    s!"extension protocol: unknown frame type {tag} — is the peer speaking " ++
      "a different protocol version?"
  | .trailingBytes n => s!"extension protocol: {n} trailing byte(s) after frame"
  | .packedTrailingBytes n => s!"extension protocol: packed DataValue has {n} trailing bytes"
  | .tooFewFields what fields expected =>
    s!"extension protocol: {what} frame has {fields} field(s), needs {expected}"
  | .truncated => "extension protocol: truncated frame"
  | .expectedArray m => "extension protocol: expected an array, got marker 0x" ++ hex2 m
  | .negative => "extension protocol: expected an unsigned integer, got a negative"
  | .expectedUint m =>
    "extension protocol: expected an unsigned integer, got marker 0x" ++ hex2 m
  | .versionOutOfRange => "extension protocol: protocol version out of range"
  | .expectedString m => "extension protocol: expected a string, got marker 0x" ++ hex2 m
  | .notUtf8 => "extension protocol: string is not UTF-8"
  | .expectedBin m => "extension protocol: expected binary data, got marker 0x" ++ hex2 m
  | .unknownDtype other => s!"extension protocol: unknown ArrowArray dtype {other}"
  | .unknownArgKind other => s!"extension protocol: unknown Arg kind {other}"
  | .nestingTooDeep =>
    s!"extension protocol: value nesting exceeds the {maxDvDepth}-level decode limit"
  | .unsupportedMarker m =>
    "extension protocol: unsupported MessagePack marker 0x" ++ hex2 m ++ " in a value"
  | .mapKeyNotString got => s!"extension protocol: map key must be a string (got {debug got})"
  | .payloadNotUtf8 what => s!"extension protocol: packed {what} payload is not UTF-8"
  | .resourcePayloadShort => "extension protocol: Resource payload shorter than its 8-byte id"
  | .resourceNameNotUtf8 => "extension protocol: Resource class name is not UTF-8"
  | .unknownExtType ty => s!"extension protocol: unknown value ext type {ty}"
  | .reservedMarker => "extension protocol: reserved MessagePack marker 0xc1"

abbrev Dec (α : Type) := Reader UInt8 DecodeError α

/-! ## Bytes and fixed-width integers -/

def take (n : Nat) : Dec Bytes := Reader.take .truncated n

def takeU8 : Dec UInt8 := do return UInt8.ofNat (ofBE (← take 1))

def takeU16 : Dec UInt16 := do return UInt16.ofNat (ofBE (← take 2))

def takeU32 : Dec UInt32 := do return UInt32.ofNat (ofBE (← take 4))

def takeU64 : Dec UInt64 := do return UInt64.ofNat (ofBE (← take 8))

/-- `std::str::from_utf8(b).map(str::to_string)`. -/
def fromUtf8 (err : DecodeError) (b : Bytes) : Dec String :=
  match String.fromUTF8? ⟨b.toArray⟩ with
  | some s => pure s
  | none => throw err

/-! ## Headers, scalars and strings -/

def readArrayHeader : Dec Nat := do
  let m ← takeU8
  if 0x90 ≤ m ∧ m ≤ 0x9f then pure (m &&& 0x0f).toNat
  else if m = 0xdc then return (← takeU16).toNat
  else if m = 0xdd then return (← takeU32).toNat
  else throw (.expectedArray m)

/-- `u64::try_from` of a signed wire integer. -/
def nonNegative (v : Int64) : Dec UInt64 :=
  if 0 ≤ v then pure v.toUInt64 else throw .negative

/-- An unsigned integer. The signed encodings are accepted when non-negative. -/
def readUint : Dec UInt64 := do
  let m ← takeU8
  if m ≤ 0x7f then pure m.toUInt64
  else if m = 0xcc then return (← takeU8).toUInt64
  else if m = 0xcd then return (← takeU16).toUInt64
  else if m = 0xce then return (← takeU32).toUInt64
  else if m = 0xcf then takeU64
  else if m = 0xd0 then nonNegative (← takeU8).toInt8.toInt64
  else if m = 0xd1 then nonNegative (← takeU16).toInt16.toInt64
  else if m = 0xd2 then nonNegative (← takeU32).toInt32.toInt64
  else if m = 0xd3 then nonNegative (← takeU64).toInt64
  else throw (.expectedUint m)

def readVersion : Dec UInt32 := do
  let v ← readUint
  if v.toNat < 2 ^ 32 then pure v.toUInt32 else throw .versionOutOfRange

/-- The length announced by a string header. -/
def readStrHeader : Dec Nat := do
  let m ← takeU8
  if 0xa0 ≤ m ∧ m ≤ 0xbf then pure (m &&& 0x1f).toNat
  else if m = 0xd9 then return (← takeU8).toNat
  else if m = 0xda then return (← takeU16).toNat
  else if m = 0xdb then return (← takeU32).toNat
  else throw (.expectedString m)

def readStr : Dec String := do
  let n ← readStrHeader
  fromUtf8 .notUtf8 (← take n)

/-- Consume a nil marker if it comes next. -/
def takeNil : Dec Bool := fun rd =>
  match rd with
  | 0xc0 :: rest => .ok (true, rest)
  | _ => .ok (false, rd)

def readOptStr : Dec (Option String) := do
  if ← takeNil then pure none else return some (← readStr)

def readBinHeader : Dec Nat := do
  let m ← takeU8
  if m = 0xc4 then return (← takeU8).toNat
  else if m = 0xc5 then return (← takeU16).toNat
  else if m = 0xc6 then return (← takeU32).toNat
  else throw (.expectedBin m)

def readBin : Dec Bytes := do
  let n ← readBinHeader
  take n

/-- A counted array of values read by `read`. -/
def readArray {α : Type} (read : Dec α) : Dec (List α) := do
  let k ← readArrayHeader
  Reader.repeatN read k

def readU64Vec : Dec (List UInt64) := readArray readUint

def readStrVec : Dec (List String) := readArray readStr

/-! ## Structured values -/

/-- `f32 as f64` on bit patterns: exact, a signalling NaN quieted. -/
def widenF32 (b : UInt32) : F64 :=
  let sign : Nat := b.toNat / 2 ^ 31
  let exp : Nat := b.toNat / 2 ^ 23 % 2 ^ 8
  let frac : Nat := b.toNat % 2 ^ 23
  let magnitude : Nat :=
    if exp = 255 then
      2047 * 2 ^ 52 + (if frac = 0 then 0 else 2 ^ 51 + frac % 2 ^ 22 * 2 ^ 29)
    else if exp = 0 then
      -- a subnormal `frac * 2^-149` becomes normal: its top bit is the implicit one
      if frac = 0 then 0
      else (Nat.log2 frac + 874) * 2 ^ 52 + (frac * 2 ^ (52 - Nat.log2 frac) - 2 ^ 52)
    else (exp + 896) * 2 ^ 52 + frac * 2 ^ 29
  ⟨UInt64.ofNat (sign * 2 ^ 63 + magnitude)⟩

def readStrDv (n : Nat) : Dec DataValue := do
  return .str (← fromUtf8 .notUtf8 (← take n))

/-- The payload of one extension value, by its type. -/
def extPayload (ty : Int8) (payload : Bytes) : Dec DataValue := do
  if ty = 1 then return .bigInt (← fromUtf8 (.payloadNotUtf8 "BigInt") payload)
  else if ty = 2 then return .decimal (← fromUtf8 (.payloadNotUtf8 "Decimal") payload)
  else if ty = 3 then
    if payload.length < 8 then throw .resourcePayloadShort
    else
      return .resource (UInt64.ofNat (ofLE (payload.take 8)))
        (← fromUtf8 .resourceNameNotUtf8 (payload.drop 8))
  else throw (.unknownExtType ty)

def readExt (n : Nat) : Dec DataValue := do
  let ty := (← takeU8).toInt8
  extPayload ty (← take n)

/-- One map entry, given the reader of a value one level down. -/
def readEntry (readInner : Dec DataValue) : Dec (String × DataValue) := do
  match ← readInner with
  | .str key => return (key, ← readInner)
  | other => throw (.mapKeyNotString other)

def readList (readInner : Dec DataValue) (n : Nat) : Dec DataValue := do
  return .list (← Reader.repeatN readInner n)

def readMap (readInner : Dec DataValue) (n : Nat) : Dec DataValue := do
  return .map (← Reader.repeatN (readEntry readInner) n)

/-- The `match m` of `read_dv`; `readInner` reads one level down. -/
def readDvMarker (readInner : Dec DataValue) (m : UInt8) : Dec DataValue := do
  if m ≤ 0x7f then pure (.int m.toUInt64.toInt64)
  else if 0xe0 ≤ m then pure (.int m.toInt8.toInt64)
  else if m = 0xc0 then pure .null
  else if m = 0xc2 then pure (.bool false)
  else if m = 0xc3 then pure (.bool true)
  else if m = 0xcc then return .int (← takeU8).toUInt64.toInt64
  else if m = 0xcd then return .int (← takeU16).toUInt64.toInt64
  else if m = 0xce then return .int (← takeU32).toUInt64.toInt64
  else if m = 0xcf then do
    let v ← takeU64
    -- a uint64 beyond i64 is kept, as a BigInt
    if v.toNat < 2 ^ 63 then pure (.int v.toInt64) else pure (.bigInt (toString v.toNat))
  else if m = 0xd0 then return .int (← takeU8).toInt8.toInt64
  else if m = 0xd1 then return .int (← takeU16).toInt16.toInt64
  else if m = 0xd2 then return .int (← takeU32).toInt32.toInt64
  else if m = 0xd3 then return .int (← takeU64).toInt64
  else if m = 0xca then return .float (widenF32 (← takeU32))
  else if m = 0xcb then return .float ⟨← takeU64⟩
  else if 0xa0 ≤ m ∧ m ≤ 0xbf then readStrDv (m &&& 0x1f).toNat
  else if m = 0xd9 then readStrDv (← takeU8).toNat
  else if m = 0xda then readStrDv (← takeU16).toNat
  else if m = 0xdb then readStrDv (← takeU32).toNat
  else if m = 0xc4 then return .bytes (← take (← takeU8).toNat)
  else if m = 0xc5 then return .bytes (← take (← takeU16).toNat)
  else if m = 0xc6 then return .bytes (← take (← takeU32).toNat)
  else if 0x90 ≤ m ∧ m ≤ 0x9f then readList readInner (m &&& 0x0f).toNat
  else if m = 0xdc then readList readInner (← takeU16).toNat
  else if m = 0xdd then readList readInner (← takeU32).toNat
  else if 0x80 ≤ m ∧ m ≤ 0x8f then readMap readInner (m &&& 0x0f).toNat
  else if m = 0xde then readMap readInner (← takeU16).toNat
  else if m = 0xdf then readMap readInner (← takeU32).toNat
  else if m = 0xd4 then readExt 1
  else if m = 0xd5 then readExt 2
  else if m = 0xd6 then readExt 4
  else if m = 0xd7 then readExt 8
  else if m = 0xd8 then readExt 16
  else if m = 0xc7 then readExt (← takeU8).toNat
  else if m = 0xc8 then readExt (← takeU16).toNat
  else if m = 0xc9 then readExt (← takeU32).toNat
  else throw (.unsupportedMarker m)

/-- The body of `read_dv` after the depth check. -/
def readDvBody (readInner : Dec DataValue) : Dec DataValue := do
  readDvMarker readInner (← takeU8)

/-- `read_dv` with `room` levels left, this one included. -/
def readDvRoom : (room : Nat) → Dec DataValue
  | 0 => throw .nestingTooDeep
  | room + 1 => readDvBody (readDvRoom room)

def readDv (depth : Nat) : Dec DataValue := readDvRoom (maxDvDepth + 1 - depth)

theorem readDv_eq (depth : Nat) :
    readDv depth =
      if depth > maxDvDepth then throw .nestingTooDeep else readDvBody (readDv (depth + 1)) := by
  unfold readDv
  by_cases hdeep : depth > maxDvDepth
  · rw [if_pos hdeep, show maxDvDepth + 1 - depth = 0 by omega]
    rfl
  · rw [if_neg hdeep,
      show maxDvDepth + 1 - depth = (maxDvDepth + 1 - (depth + 1)) + 1 by omega]
    rfl

def readOptDv : Dec (Option DataValue) := do
  if ← takeNil then pure none else return some (← readDv 0)

/-! ## Skipping unknown values -/

/-- The `match m` of `skip_value`; `skipInner` skips one level down. -/
def skipValueMarker (skipInner : Dec Unit) (m : UInt8) : Dec Unit := do
  let skip (n : Nat) : Dec Unit := do
    let _ ← take n
    pure ()
  let skipInners (n : Nat) : Dec Unit := do
    let _ ← Reader.repeatN skipInner n
    pure ()
  if m ≤ 0x7f ∨ 0xe0 ≤ m ∨ m = 0xc0 ∨ m = 0xc2 ∨ m = 0xc3 then pure ()
  else if m = 0xcc ∨ m = 0xd0 then skip 1
  else if m = 0xcd ∨ m = 0xd1 then skip 2
  else if m = 0xce ∨ m = 0xd2 ∨ m = 0xca then skip 4
  else if m = 0xcf ∨ m = 0xd3 ∨ m = 0xcb then skip 8
  else if 0xa0 ≤ m ∧ m ≤ 0xbf then skip (m &&& 0x1f).toNat
  else if m = 0xd9 ∨ m = 0xc4 then skip (← takeU8).toNat
  else if m = 0xda ∨ m = 0xc5 then skip (← takeU16).toNat
  else if m = 0xdb ∨ m = 0xc6 then skip (← takeU32).toNat
  else if 0xd4 ≤ m ∧ m ≤ 0xd8 then skip (1 + 2 ^ (m - 0xd4).toNat)
  else if m = 0xc7 then skip (1 + (← takeU8).toNat)
  else if m = 0xc8 then skip (1 + (← takeU16).toNat)
  else if m = 0xc9 then skip (1 + (← takeU32).toNat)
  else if 0x90 ≤ m ∧ m ≤ 0x9f then skipInners (m &&& 0x0f).toNat
  else if m = 0xdc then skipInners (← takeU16).toNat
  else if m = 0xdd then skipInners (← takeU32).toNat
  else if 0x80 ≤ m ∧ m ≤ 0x8f then skipInners (2 * (m &&& 0x0f).toNat)
  else if m = 0xde then skipInners (2 * (← takeU16).toNat)
  else if m = 0xdf then skipInners (2 * (← takeU32).toNat)
  else throw .reservedMarker

/-- The body of `skip_value` after the depth check. -/
def skipValueBody (skipInner : Dec Unit) : Dec Unit := do
  skipValueMarker skipInner (← takeU8)

/-- `skip_value` with `room` levels left, this one included. -/
def skipValueRoom : (room : Nat) → Dec Unit
  | 0 => throw .nestingTooDeep
  | room + 1 => skipValueBody (skipValueRoom room)

def skipValue (depth : Nat) : Dec Unit := skipValueRoom (maxDvDepth + 1 - depth)

def skipExtra (extra : Nat) : Dec Unit := do
  let _ ← Reader.repeatN (skipValue 0) extra
  pure ()

/-! ## Composites -/

/-- `fields.checked_sub(expected)`, the surplus to skip after the known fields. -/
def need (fields expected : Nat) (what : String) : Dec Nat :=
  if fields < expected then throw (.tooFewFields what fields expected)
  else pure (fields - expected)

/-- An appended String field, empty when the peer did not send it; also answers
what is left of `extra`. -/
def readAppendedStr (extra : Nat) : Dec (String × Nat) :=
  if extra = 0 then pure ("", 0) else return (← readStr, extra - 1)

/-- An appended u64 field, 0 when the peer did not send it. -/
def readAppendedU64 (extra : Nat) : Dec (UInt64 × Nat) :=
  if extra = 0 then pure (0, 0) else return (← readUint, extra - 1)

def readArrow : Dec ArrowArray := do
  let extra ← need (← readArrayHeader) 3 "ArrowArray"
  let tag ← readUint
  let dtype ←
    if tag = 0 then pure ArrowDType.float64
    else if tag = 1 then pure ArrowDType.int64
    else throw (.unknownDtype tag)
  let length ← readUint
  let data ← readBin
  skipExtra extra
  pure { dtype, length, data }

def readArg : Dec Arg := do
  let extra ← need (← readArrayHeader) 2 "Arg"
  let kind ← readUint
  let arg ←
    if kind = 0 then Arg.data <$> readDv 0
    else if kind = 1 then Arg.resource <$> readUint
    else if kind = 2 then Arg.handle <$> readUint
    else if kind = 3 then Arg.array <$> readArrow
    else if kind = 4 then Arg.chan <$> readUint
    else throw (.unknownArgKind kind)
  skipExtra extra
  pure arg

def readClassDecl : Dec ClassDecl := do
  let extra ← need (← readArrayHeader) 3 "ClassDecl"
  let name ← readStr
  let instanceSelectors ← readStrVec
  let classSelectors ← readStrVec
  skipExtra extra
  pure { name, instanceSelectors, classSelectors }

/-! ## Frames -/

/-- One frame past its array header and type tag: the known fields, the
appended meta of a terminal, then the unknown extras. -/
def readFields (fields : Nat) (tag : UInt64) : Dec (Msg × ReplyMeta) :=
  match tag with
  | tCall => do
    let extra ← need fields 10 "Call"
    let op ← readStr
    let arg ← readStr
    let handles ← readU64Vec
    let resources ← readU64Vec
    let releases ← readU64Vec
    let arrays ← readArray readArrow
    let data ← readOptDv
    let className ← readStr
    let recv ← readUint
    let methodArgs ← readArray readArg
    skipExtra extra
    pure (.call op arg handles resources releases arrays data className recv methodArgs, {})
  | tCallReturn => do
    let extra ← need fields 1 "CallReturn"
    let result ← readStr
    let (handlerMicros, extra) ← readAppendedU64 extra
    skipExtra extra
    pure (.callReturn result, { handlerMicros })
  | tCallReturnError => do
    let extra ← need fields 1 "CallReturnError"
    let message ← readStr
    let (remoteStack, extra) ← readAppendedStr extra
    let (handlerMicros, extra) ← readAppendedU64 extra
    skipExtra extra
    pure (.callReturnError message remoteStack, { handlerMicros })
  | tCallReturnResource => do
    let extra ← need fields 2 "CallReturnResource"
    let resource ← readUint
    let className ← readStr
    let (handlerMicros, extra) ← readAppendedU64 extra
    skipExtra extra
    pure (.callReturnResource resource className, { handlerMicros })
  | tCallReturnChannel => do
    let extra ← need fields 1 "CallReturnChannel"
    let chan ← readUint
    let (handlerMicros, extra) ← readAppendedU64 extra
    skipExtra extra
    pure (.callReturnChannel chan, { handlerMicros })
  | tCallReturnResourceDecl => do
    let extra ← need fields 4 "CallReturnResourceDecl"
    let resource ← readUint
    let className ← readStr
    let instanceSelectors ← readStrVec
    let classSelectors ← readStrVec
    let (handlerMicros, extra) ← readAppendedU64 extra
    skipExtra extra
    pure (.callReturnResourceDecl resource className instanceSelectors classSelectors,
      { handlerMicros })
  | tChan => do
    let extra ← need fields 5 "Chan"
    -- `read_uint(rd)? as u8`: a wider kind is truncated, not refused
    let kind ← readUint
    let chan ← readUint
    let corr ← readUint
    let value ← readOptDv
    let message ← readStr
    skipExtra extra
    pure (.chan kind.toUInt8 chan corr value message, {})
  | tCallReturnArray => do
    let extra ← need fields 1 "CallReturnArray"
    let array ← readArrow
    let (handlerMicros, extra) ← readAppendedU64 extra
    skipExtra extra
    pure (.callReturnArray array, { handlerMicros })
  | tCallReturnData => do
    let extra ← need fields 1 "CallReturnData"
    let value ← readDv 0
    let (handlerMicros, extra) ← readAppendedU64 extra
    skipExtra extra
    pure (.callReturnData value, { handlerMicros })
  | tCallReturnHandle => do
    let extra ← need fields 1 "CallReturnHandle"
    let handle ← readUint
    let (handlerMicros, extra) ← readAppendedU64 extra
    skipExtra extra
    pure (.callReturnHandle handle, { handlerMicros })
  | tGetManifest => do
    let extra ← need fields 1 "GetManifest"
    let version ← readVersion
    skipExtra extra
    pure (.getManifest version, {})
  | tManifestReturn => do
    let extra ← need fields 2 "ManifestReturn"
    let version ← readVersion
    let classes ← readArray readClassDecl
    -- `read_appended_u64(..)? as u32`: a wider count is truncated, not refused
    let (lanes, extra) ← readAppendedU64 extra
    skipExtra extra
    pure (.manifestReturn classes version lanes.toUInt32, {})
  | tMakeString => do
    let extra ← need fields 1 "MakeString"
    let value ← readStr
    skipExtra extra
    pure (.makeString value, {})
  | tHandleToString => do
    let extra ← need fields 1 "HandleToString"
    let handle ← readUint
    skipExtra extra
    pure (.handleToString handle, {})
  | tRetain => do
    let extra ← need fields 1 "Retain"
    let handle ← readUint
    skipExtra extra
    pure (.retain handle, {})
  | tRelease => do
    let extra ← need fields 1 "Release"
    let handles ← readU64Vec
    skipExtra extra
    pure (.release handles, {})
  | tCallMethodOnHandle => do
    let extra ← need fields 3 "CallMethodOnHandle"
    let receiver ← readUint
    let selector ← readStr
    let args ← readU64Vec
    skipExtra extra
    pure (.callMethodOnHandle receiver selector args, {})
  | tInvokeBlock => do
    let extra ← need fields 2 "InvokeBlock"
    let block ← readUint
    let batches ← readArray readU64Vec
    skipExtra extra
    pure (.invokeBlock block batches, {})
  | tInvokeBlockReturn => do
    let extra ← need fields 2 "InvokeBlockReturn"
    let results ← readU64Vec
    let error ← readOptStr
    let (remoteStack, extra) ← readAppendedStr extra
    skipExtra extra
    pure (.invokeBlockReturn results error remoteStack, {})
  | tGetGlobal => do
    let extra ← need fields 1 "GetGlobal"
    let name ← readStr
    skipExtra extra
    pure (.getGlobal name, {})
  | tMakeValue => do
    let extra ← need fields 1 "MakeValue"
    let value ← readDv 0
    skipExtra extra
    pure (.makeValue value, {})
  | tReadHandle => do
    let extra ← need fields 1 "ReadHandle"
    let handle ← readUint
    skipExtra extra
    pure (.readHandle handle, {})
  | tReadHandleReturn => do
    let extra ← need fields 2 "ReadHandleReturn"
    let value ← readDv 0
    let error ← readOptStr
    let (remoteStack, extra) ← readAppendedStr extra
    skipExtra extra
    pure (.readHandleReturn value error remoteStack, {})
  | tHostOpReturn => do
    let extra ← need fields 3 "HostOpReturn"
    let handle ← readUint
    let str ← readOptStr
    let error ← readOptStr
    let (remoteStack, extra) ← readAppendedStr extra
    skipExtra extra
    pure (.hostOpReturn handle str error remoteStack, {})
  | other => throw (.unknownFrameType other)

/-- A whole frame, up to the check that nothing trails it. -/
def readFrame : Dec (Msg × ReplyMeta) := do
  let n ← readArrayHeader
  if n = 0 then throw .emptyFrame
  else
    let tag ← readUint
    readFields (n - 1) tag

/-- Decode one received frame and the `ReplyMeta` appended to it. -/
def decodeFrameWithMeta (bytes : Bytes) : Except DecodeError (Msg × ReplyMeta) := do
  let (result, rest) ← readFrame bytes
  if rest.isEmpty then pure result else throw (.trailingBytes rest.length)

def decodeFrame (bytes : Bytes) : Except DecodeError Msg := do
  return (← decodeFrameWithMeta bytes).1

/-- Deserialize one bare blob; trailing bytes are refused. -/
def unpackDv (bytes : Bytes) : Except DecodeError DataValue := do
  let (v, rest) ← readDv 0 bytes
  if rest.isEmpty then pure v else throw (.packedTrailingBytes rest.length)

end Quoin.Proto
