import Quoin.Proto.Types
import Quoin.Wire.Endian

/-!
# Quoin — the MessagePack encoder

The writing half of `codec.rs`, `encode_with_meta` and everything under it.
A Rust writer pushes onto `out: &mut Vec<u8>`; its model answers the bytes
pushed, and a sequence of pushes is a concatenation. A narrowing `as u8` /
`as u16` / `as u32` is a truncation (`beBytes` keeps the low bytes), so a
length that does not fit its header is written *wrong* here exactly as in
the source, not refused.
-/

namespace Quoin.Proto

open Wire

/-! ## Frame type tags -/

@[match_pattern] abbrev tCall : UInt64 := 0
@[match_pattern] abbrev tCallReturn : UInt64 := 1
@[match_pattern] abbrev tCallReturnError : UInt64 := 2
@[match_pattern] abbrev tCallReturnResource : UInt64 := 3
@[match_pattern] abbrev tCallReturnArray : UInt64 := 4
@[match_pattern] abbrev tCallReturnData : UInt64 := 5
@[match_pattern] abbrev tCallReturnHandle : UInt64 := 6
@[match_pattern] abbrev tGetManifest : UInt64 := 7
@[match_pattern] abbrev tManifestReturn : UInt64 := 8
@[match_pattern] abbrev tMakeString : UInt64 := 9
@[match_pattern] abbrev tHandleToString : UInt64 := 10
@[match_pattern] abbrev tRetain : UInt64 := 11
@[match_pattern] abbrev tRelease : UInt64 := 12
@[match_pattern] abbrev tCallMethodOnHandle : UInt64 := 13
@[match_pattern] abbrev tInvokeBlock : UInt64 := 14
@[match_pattern] abbrev tInvokeBlockReturn : UInt64 := 15
@[match_pattern] abbrev tGetGlobal : UInt64 := 16
@[match_pattern] abbrev tMakeValue : UInt64 := 17
@[match_pattern] abbrev tReadHandle : UInt64 := 18
@[match_pattern] abbrev tReadHandleReturn : UInt64 := 19
@[match_pattern] abbrev tHostOpReturn : UInt64 := 20
@[match_pattern] abbrev tCallReturnChannel : UInt64 := 21
@[match_pattern] abbrev tChan : UInt64 := 22
@[match_pattern] abbrev tCallReturnResourceDecl : UInt64 := 23

/-! ## Scalars, strings and headers -/

/-- Smallest-form MessagePack unsigned integer (ids, counts, versions). -/
def writeUint (v : UInt64) : Bytes :=
  if v ≤ 0x7f then [v.toUInt8]
  else if v ≤ 0xff then 0xcc :: beBytes 1 v.toNat
  else if v ≤ 0xffff then 0xcd :: beBytes 2 v.toNat
  else if v ≤ 0xffffffff then 0xce :: beBytes 4 v.toNat
  else 0xcf :: beBytes 8 v.toNat

/-- Smallest-form MessagePack integer. A negative value is written as the
two's complement of its width. -/
def writeInt (i : Int64) : Bytes :=
  if 0 ≤ i then writeUint i.toUInt64
  else if -32 ≤ i then [i.toUInt64.toUInt8]
  else if -0x80 ≤ i then 0xd0 :: beBytes 1 i.toUInt64.toNat
  else if -0x8000 ≤ i then 0xd1 :: beBytes 2 i.toUInt64.toNat
  else if -0x80000000 ≤ i then 0xd2 :: beBytes 4 i.toUInt64.toNat
  else 0xd3 :: beBytes 8 i.toUInt64.toNat

def writeStrHeader (n : Nat) : Bytes :=
  if n < 32 then [0xa0 ||| UInt8.ofNat n]
  else if n < 0x100 then 0xd9 :: beBytes 1 n
  else if n < 0x10000 then 0xda :: beBytes 2 n
  else 0xdb :: beBytes 4 n

def writeStr (s : String) : Bytes := writeStrHeader (utf8 s).length ++ utf8 s

def writeBinHeader (n : Nat) : Bytes :=
  if n < 0x100 then 0xc4 :: beBytes 1 n
  else if n < 0x10000 then 0xc5 :: beBytes 2 n
  else 0xc6 :: beBytes 4 n

def writeBin (b : Bytes) : Bytes := writeBinHeader b.length ++ b

def writeExtHeader (n : Nat) : Bytes :=
  if n = 1 then [0xd4]
  else if n = 2 then [0xd5]
  else if n = 4 then [0xd6]
  else if n = 8 then [0xd7]
  else if n = 16 then [0xd8]
  else if n < 0x100 then 0xc7 :: beBytes 1 n
  else if n < 0x10000 then 0xc8 :: beBytes 2 n
  else 0xc9 :: beBytes 4 n

def writeExt (ty : UInt8) (payload : Bytes) : Bytes :=
  writeExtHeader payload.length ++ ty :: payload

def writeArrayHeader (n : Nat) : Bytes :=
  if n < 16 then [0x90 ||| UInt8.ofNat n]
  else if n < 0x10000 then 0xdc :: beBytes 2 n
  else 0xdd :: beBytes 4 n

def writeMapHeader (n : Nat) : Bytes :=
  if n < 16 then [0x80 ||| UInt8.ofNat n]
  else if n < 0x10000 then 0xde :: beBytes 2 n
  else 0xdf :: beBytes 4 n

/-- A counted array: the header, then each element. -/
def writeArray {α : Type} (write : α → Bytes) (xs : List α) : Bytes :=
  writeArrayHeader xs.length ++ xs.flatMap write

def writeU64Vec (xs : List UInt64) : Bytes := writeArray writeUint xs

def writeStrVec (xs : List String) : Bytes := writeArray writeStr xs

def writeOptStr : Option String → Bytes
  | some s => writeStr s
  | none => [0xc0]

/-! ## Structured values -/

/-- The payload of ext type 3: the object-table id, little-endian, then the name. -/
def resourcePayload (id : UInt64) (className : String) : Bytes :=
  leBytes 8 id.toNat ++ utf8 className

mutual
def writeDv : DataValue → Bytes
  | .null => [0xc0]
  | .bool false => [0xc2]
  | .bool true => [0xc3]
  | .int i => writeInt i
  | .float f => 0xcb :: beBytes 8 f.bits.toNat
  | .str s => writeStr s
  | .bytes b => writeBin b
  | .bigInt s => writeExt 1 (utf8 s)
  | .decimal s => writeExt 2 (utf8 s)
  | .resource id className => writeExt 3 (resourcePayload id className)
  | .list items => writeArrayHeader items.length ++ writeItems items
  | .map entries => writeMapHeader entries.length ++ writeEntries entries

def writeItems : List DataValue → Bytes
  | [] => []
  | it :: rest => writeDv it ++ writeItems rest

def writeEntries : List (String × DataValue) → Bytes
  | [] => []
  | (k, v) :: rest => (writeStr k ++ writeDv v) ++ writeEntries rest
end

/-- A position carrying `nil | DataValue`: `Some(Null)` and `None` are both nil. -/
def writeOptDv : Option DataValue → Bytes
  | none => [0xc0]
  | some .null => [0xc0]
  | some dv => writeDv dv

def packDv (dv : DataValue) : Bytes := writeDv dv

/-! ## Composites -/

/-- `ArrowArray` = `[dtype, length, data]`. -/
def writeArrow (a : ArrowArray) : Bytes :=
  writeArrayHeader 3 ++ (writeUint a.dtype.tag ++ (writeUint a.length ++ writeBin a.data))

/-- `Arg` = `[kind, payload]`. -/
def writeArg (a : Arg) : Bytes :=
  writeArrayHeader 2 ++
    match a with
    | .data d => writeUint 0 ++ writeDv d
    | .resource id => writeUint 1 ++ writeUint id
    | .handle h => writeUint 2 ++ writeUint h
    | .array a => writeUint 3 ++ writeArrow a
    | .chan c => writeUint 4 ++ writeUint c

/-- `ClassDecl` = `[name, instance_selectors, class_selectors]`. -/
def writeClassDecl (c : ClassDecl) : Bytes :=
  writeArrayHeader 3 ++
    (writeStr c.name ++ (writeStrVec c.instanceSelectors ++ writeStrVec c.classSelectors))

/-! ## Frames -/

/-- The `CallReturn*` terminals: the frames that may carry a `ReplyMeta`. -/
def Msg.isTerminal : Msg → Bool
  | .callReturn .. | .callReturnError .. | .callReturnResource .. | .callReturnArray ..
  | .callReturnData .. | .callReturnHandle .. | .callReturnChannel ..
  | .callReturnResourceDecl .. => true
  | _ => false

/-- How many meta fields the frame carries: 1 on a terminal given a meta. -/
def metaN (msg : Msg) (replyMeta : Option ReplyMeta) : Nat :=
  if msg.isTerminal then (if replyMeta.isSome then 1 else 0) else 0

/-- The fields of a frame before any appended meta: the array header (with
`n` meta fields counted in on a terminal), the type tag, then the message's own. -/
def encodeFields (n : Nat) : Msg → List Bytes
  | .call op arg handles resources releases arrays data className recv methodArgs =>
    [writeArrayHeader 11, writeUint tCall, writeStr op, writeStr arg, writeU64Vec handles,
      writeU64Vec resources, writeU64Vec releases, writeArray writeArrow arrays,
      writeOptDv data, writeStr className, writeUint recv, writeArray writeArg methodArgs]
  | .callReturn result =>
    [writeArrayHeader (2 + n), writeUint tCallReturn, writeStr result]
  | .callReturnError message remoteStack =>
    [writeArrayHeader (3 + n), writeUint tCallReturnError, writeStr message,
      writeStr remoteStack]
  | .callReturnResource resource className =>
    [writeArrayHeader (3 + n), writeUint tCallReturnResource, writeUint resource,
      writeStr className]
  | .callReturnChannel chan =>
    [writeArrayHeader (2 + n), writeUint tCallReturnChannel, writeUint chan]
  | .callReturnResourceDecl resource className instanceSelectors classSelectors =>
    [writeArrayHeader (5 + n), writeUint tCallReturnResourceDecl, writeUint resource,
      writeStr className, writeStrVec instanceSelectors, writeStrVec classSelectors]
  | .chan kind chan corr value message =>
    [writeArrayHeader 6, writeUint tChan, writeUint kind.toUInt64, writeUint chan,
      writeUint corr, writeOptDv value, writeStr message]
  | .callReturnArray array =>
    [writeArrayHeader (2 + n), writeUint tCallReturnArray, writeArrow array]
  | .callReturnData value =>
    [writeArrayHeader (2 + n), writeUint tCallReturnData, writeDv value]
  | .callReturnHandle handle =>
    [writeArrayHeader (2 + n), writeUint tCallReturnHandle, writeUint handle]
  | .getManifest version =>
    [writeArrayHeader 2, writeUint tGetManifest, writeUint version.toUInt64]
  | .manifestReturn classes version lanes =>
    [writeArrayHeader 4, writeUint tManifestReturn, writeUint version.toUInt64,
      writeArray writeClassDecl classes, writeUint lanes.toUInt64]
  | .makeString value =>
    [writeArrayHeader 2, writeUint tMakeString, writeStr value]
  | .handleToString handle =>
    [writeArrayHeader 2, writeUint tHandleToString, writeUint handle]
  | .retain handle =>
    [writeArrayHeader 2, writeUint tRetain, writeUint handle]
  | .release handles =>
    [writeArrayHeader 2, writeUint tRelease, writeU64Vec handles]
  | .callMethodOnHandle receiver selector args =>
    [writeArrayHeader 4, writeUint tCallMethodOnHandle, writeUint receiver,
      writeStr selector, writeU64Vec args]
  | .invokeBlock block batches =>
    [writeArrayHeader 3, writeUint tInvokeBlock, writeUint block,
      writeArray writeU64Vec batches]
  | .invokeBlockReturn results error remoteStack =>
    [writeArrayHeader 4, writeUint tInvokeBlockReturn, writeU64Vec results,
      writeOptStr error, writeStr remoteStack]
  | .getGlobal name =>
    [writeArrayHeader 2, writeUint tGetGlobal, writeStr name]
  | .makeValue value =>
    [writeArrayHeader 2, writeUint tMakeValue, writeDv value]
  | .readHandle handle =>
    [writeArrayHeader 2, writeUint tReadHandle, writeUint handle]
  | .readHandleReturn value error remoteStack =>
    [writeArrayHeader 4, writeUint tReadHandleReturn, writeDv value, writeOptStr error,
      writeStr remoteStack]
  | .hostOpReturn handle str error remoteStack =>
    [writeArrayHeader 5, writeUint tHostOpReturn, writeUint handle, writeOptStr str,
      writeOptStr error, writeStr remoteStack]

/-- The appended meta field, counted into the terminals' headers. -/
def encodeMeta (msg : Msg) (replyMeta : Option ReplyMeta) : Bytes :=
  match replyMeta with
  | some m => if metaN msg replyMeta = 1 then writeUint m.handlerMicros else []
  | none => []

/-- Encode one message as a complete frame (no length prefix), with the given
`ReplyMeta` appended on a `CallReturn*` terminal. -/
def encodeWithMeta (msg : Msg) (replyMeta : Option ReplyMeta) : Bytes :=
  (encodeFields (metaN msg replyMeta) msg ++ [encodeMeta msg replyMeta]).flatten

def encode (msg : Msg) : Bytes := encodeWithMeta msg none

end Quoin.Proto
