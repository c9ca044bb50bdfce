import Mathlib
import Quoin.Wire.Endian

/-!
# Wire — MessagePack values

The MessagePack data format by itself, as its format table gives it: every
value, in every encoding the format has for it. A `Value` is one encoded
value rather than one abstract value (the integer 5 has nine encodings, and
they are nine `Value`s), and it is well formed by construction: a payload
carries the proof that its header can announce it, and a collection has as
many children as its header says.

Strings are byte strings: the format does not make a reader check UTF-8.
-/

namespace Wire.MessagePack

/-! ## Formats -/

/-- The numbers whose payload size is fixed by the marker. -/
inductive NumberFormat where
  | uint8 | uint16 | uint32 | uint64
  | int8 | int16 | int32 | int64
  | float32 | float64
deriving DecidableEq

def NumberFormat.marker : NumberFormat → UInt8
  | .uint8 => 0xcc
  | .uint16 => 0xcd
  | .uint32 => 0xce
  | .uint64 => 0xcf
  | .int8 => 0xd0
  | .int16 => 0xd1
  | .int32 => 0xd2
  | .int64 => 0xd3
  | .float32 => 0xca
  | .float64 => 0xcb

def NumberFormat.size : NumberFormat → Nat
  | .uint8 | .int8 => 1
  | .uint16 | .int16 => 2
  | .uint32 | .int32 | .float32 => 4
  | .uint64 | .int64 | .float64 => 8

/-- The strings and binaries that announce their length. -/
inductive BlobFormat where
  | str8 | str16 | str32
  | bin8 | bin16 | bin32
deriving DecidableEq

def BlobFormat.marker : BlobFormat → UInt8
  | .str8 => 0xd9
  | .str16 => 0xda
  | .str32 => 0xdb
  | .bin8 => 0xc4
  | .bin16 => 0xc5
  | .bin32 => 0xc6

/-- How many bytes the length takes. -/
def BlobFormat.width : BlobFormat → Nat
  | .str8 | .bin8 => 1
  | .str16 | .bin16 => 2
  | .str32 | .bin32 => 4

/-- The extensions whose payload size is fixed by the marker. -/
inductive FixExtFormat where
  | fixext1 | fixext2 | fixext4 | fixext8 | fixext16
deriving DecidableEq

def FixExtFormat.marker : FixExtFormat → UInt8
  | .fixext1 => 0xd4
  | .fixext2 => 0xd5
  | .fixext4 => 0xd6
  | .fixext8 => 0xd7
  | .fixext16 => 0xd8

def FixExtFormat.size : FixExtFormat → Nat
  | .fixext1 => 1
  | .fixext2 => 2
  | .fixext4 => 4
  | .fixext8 => 8
  | .fixext16 => 16

/-- The extensions that announce their length. -/
inductive ExtFormat where
  | ext8 | ext16 | ext32
deriving DecidableEq

def ExtFormat.marker : ExtFormat → UInt8
  | .ext8 => 0xc7
  | .ext16 => 0xc8
  | .ext32 => 0xc9

def ExtFormat.width : ExtFormat → Nat
  | .ext8 => 1
  | .ext16 => 2
  | .ext32 => 4

/-- The collections that announce their count in bytes of its own. -/
inductive CountFormat where
  | count16 | count32
deriving DecidableEq

def CountFormat.arrayMarker : CountFormat → UInt8
  | .count16 => 0xdc
  | .count32 => 0xdd

def CountFormat.mapMarker : CountFormat → UInt8
  | .count16 => 0xde
  | .count32 => 0xdf

def CountFormat.width : CountFormat → Nat
  | .count16 => 2
  | .count32 => 4

/-! ## Values -/

/-- One encoded MessagePack value. -/
inductive Value where
  | nil
  | bool (b : Bool)
  | posFixint (n : Fin 128)
  | negFixint (n : Fin 32)
  | number (f : NumberFormat) (payload : List UInt8) (hsize : payload.length = f.size)
  | fixstr (s : List UInt8) (hlen : s.length < 32)
  | blob (f : BlobFormat) (s : List UInt8) (hlen : s.length < 256 ^ f.width)
  | fixext (f : FixExtFormat) (ty : UInt8) (payload : List UInt8)
      (hsize : payload.length = f.size)
  | ext (f : ExtFormat) (ty : UInt8) (payload : List UInt8)
      (hlen : payload.length < 256 ^ f.width)
  | fixarray (n : Nat) (hcount : n < 16) (items : Fin n → Value)
  | array (f : CountFormat) (n : Nat) (hcount : n < 256 ^ f.width) (items : Fin n → Value)
  | fixmap (n : Nat) (hcount : n < 16) (keys values : Fin n → Value)
  | map (f : CountFormat) (n : Nat) (hcount : n < 256 ^ f.width) (keys values : Fin n → Value)

namespace Value

/-- The bytes of a value. -/
def bytes : Value → List UInt8
  | .nil => [0xc0]
  | .bool b => [if b then 0xc3 else 0xc2]
  | .posFixint n => [UInt8.ofNat n]
  | .negFixint n => [0xe0 ||| UInt8.ofNat n]
  | .number f payload _ => f.marker :: payload
  | .fixstr s _ => (0xa0 ||| UInt8.ofNat s.length) :: s
  | .blob f s _ => f.marker :: (beBytes f.width s.length ++ s)
  | .fixext f ty payload _ => f.marker :: ty :: payload
  | .ext f ty payload _ => f.marker :: (beBytes f.width payload.length ++ ty :: payload)
  | .fixarray n _ items =>
    (0x90 ||| UInt8.ofNat n) :: (List.ofFn fun i => (items i).bytes).flatten
  | .array f n _ items =>
    f.arrayMarker :: (beBytes f.width n ++ (List.ofFn fun i => (items i).bytes).flatten)
  | .fixmap n _ keys values =>
    (0x80 ||| UInt8.ofNat n) ::
      (List.ofFn fun i => (keys i).bytes ++ (values i).bytes).flatten
  | .map f n _ keys values =>
    f.mapMarker :: (beBytes f.width n ++
      (List.ofFn fun i => (keys i).bytes ++ (values i).bytes).flatten)

/-- How many levels of arrays and maps sit above the deepest value inside
(a scalar, or an empty collection, nests 0 deep). -/
def nesting : Value → Nat
  | .fixarray n _ items | .array _ n _ items =>
    Finset.univ.sup fun i : Fin n => (items i).nesting + 1
  | .fixmap n _ keys values | .map _ n _ keys values =>
    Finset.univ.sup fun i : Fin n => max ((keys i).nesting + 1) ((values i).nesting + 1)
  | _ => 0

theorem nesting_lt_sup {n : Nat} (items : Fin n → Value) (i : Fin n) :
    (items i).nesting < Finset.univ.sup fun i => (items i).nesting + 1 :=
  Finset.le_sup (f := fun i => (items i).nesting + 1) (Finset.mem_univ i)

theorem nesting_lt_sup_entries {n : Nat} (keys values : Fin n → Value) (i : Fin n) :
    max ((keys i).nesting + 1) ((values i).nesting + 1)
      ≤ Finset.univ.sup fun i => max ((keys i).nesting + 1) ((values i).nesting + 1) :=
  Finset.le_sup (f := fun i => max ((keys i).nesting + 1) ((values i).nesting + 1))
    (Finset.mem_univ i)

end Value

/-- The bytes of several values in a row. -/
def valuesBytes (vs : List Value) : List UInt8 := vs.flatMap Value.bytes

end Wire.MessagePack
