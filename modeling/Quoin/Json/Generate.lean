import Mathlib
import Quoin.Json.Numbers
import Quoin.Trans.Traverse

/-!
# Quoin — generating and parsing JSON

`value_to_json_at` walks a value into serde_json's tree, which is printed;
`json_to_value` walks the parsed tree back. A value is a graph in the heap and can
contain itself, so the walk is bounded in depth. Where it finds no data it asks the
value's class for some (`asData`), which runs code of the program and may change
the heap.
-/

namespace Quoin.Json

open Num

/-! ## Values in the heap -/

inductive Value where
  | nil
  | bool (b : Bool)
  | int (i : Int64)
  | double (f : Float)
  | object (p : Nat)
  | other (typeName : String)

structure Decimal where
  mantissa : Int
  scale : Nat

/-- What an object holds; of a native state that is no data, the name of its class. -/
inductive Payload where
  | string (s : String)
  | bytes
  | symbol
  | block
  | inst (className : String)
  | list (items : List Value)
  | map (entries : List (Value × Value))
  | bigInteger (i : Int)
  | bigDecimal (d : Decimal)
  | native (className : String)

def Payload.string? : Payload → Option String
  | .string s => some s
  | _ => none

/-- The string that a key is, if it is one. -/
def stringKey (payload : Nat → Payload) : Value → Option String
  | .object p => (payload p).string?
  | _ => none

/-- Two Strings with the same characters are one key of a Map. -/
structure Heap where
  payload : Nat → Payload
  keys_nodup : ∀ p entries, payload p = .map entries →
    (entries.filterMap fun e => stringKey payload e.1).Nodup

/-! ## Trees -/

/-- serde_json's `Value`; a number keeps its text. -/
inductive Tree where
  | null
  | bool (b : Bool)
  | number (n : NumberText)
  | string (s : String)
  | array (arr : List Tree)
  | object (obj : List (String × Tree))

mutual

/-- How deep arrays and objects are nested. -/
def Tree.nesting : Tree → Nat
  | .array arr => nestingOf arr + 1
  | .object obj => nestingIn obj + 1
  | _ => 0

def nestingOf : List Tree → Nat
  | [] => 0
  | j :: rest => max j.nesting (nestingOf rest)

def nestingIn : List (String × Tree) → Nat
  | [] => 0
  | (_, j) :: rest => max j.nesting (nestingIn rest)

end

/-- What a parsed value is built of. -/
inductive Data where
  | nil
  | bool (b : Bool)
  | number (n : Number)
  | string (s : String)
  | list (items : List Data)
  | map (entries : List (String × Data))

/-- An entry into a map that keeps its order; the value of a key that is there is replaced. -/
def insertEntry {α : Type} (m : List (String × α)) (e : String × α) : List (String × α) :=
  if m.any fun e' => e'.1 = e.1 then m.map fun e' => if e'.1 = e.1 then e else e' else m ++ [e]

def fromEntries {α : Type} (es : List (String × α)) : List (String × α) := es.foldl insertEntry []

/-! ## The libraries and the program -/

/-- serde_json, as it prints and parses. -/
structure Serde where
  /-- The text of a finite double. -/
  doubleText : Float → NumberText
  /-- `parse::<Number>()`. -/
  parseNumber : String → Option NumberText
  toString : Tree → Except String String
  fromStr : String → Except String Tree
  /-- `to_string` of a Decimal. -/
  showDecimal : Decimal → String

section Model

variable {E : Type}

/-- Computations that may run code of the program. -/
abbrev M (E : Type) := ExceptT (QuoinError E) (StateM Heap)

/-- The `asData` hook: `none` if the value's class has no such method. -/
abbrev Hook (E : Type) := Value → M E (Option Value)

def MAX_SERIALIZE_DEPTH : Nat := 128

def tooDeep : QuoinError E :=
  .valueError ("value nesting exceeds " ++ toString MAX_SERIALIZE_DEPTH ++
    " levels — is the value self-referential?")

def unserializable (typeName : String) : QuoinError E :=
  .typeError "a JSON-serializable value" typeName
    ("cannot serialize a " ++ typeName ++ " to JSON — define asData (e.g. Bytes → a base64 " ++
      "String) to give it a representation")

def badKey : QuoinError E := .other "JSON: Map keys must be Strings"

variable (serde : Serde) (asDataOf : Hook E) (numerics : Numerics)

/-! ## Generating -/

/-- A key as a String, if it is one. -/
def keyOf : Option String → M E String
  | some ks => return ks
  | none => throw badKey

def keyString (k : Value) : M E String := do keyOf (stringKey (← get).payload k)

/-- A number that is printed and parsed. -/
def numberOf (shown typeName : String) : M E Tree :=
  match serde.parseNumber shown with
  | some n => return .number n
  | none => throw (.other (typeName ++ " -> JSON number failed"))

/-- A value that is walked by the data its class gives. -/
def dataOr (walk : Value → M E Tree) (v : Value) (kind : String) : M E Tree := do
  match ← asDataOf v with
  | some res => walk res
  | none => throw (unserializable kind)

/-- An entry of a Map. -/
def fieldOf (walk : Value → M E Tree) (e : Value × Value) : M E (String × Tree) := do
  let ks ← keyString e.1
  let j ← walk e.2
  return (ks, j)

/-- What an object holds, at the level of the walk. -/
def payloadToJson (walk : Value → M E Tree) (v : Value) : Payload → M E Tree
  | .string s => return .string s
  | .bytes => dataOr asDataOf walk v "Bytes"
  | .symbol => dataOr asDataOf walk v "Symbol"
  | .block => dataOr asDataOf walk v "Block"
  | .inst className => dataOr asDataOf walk v className
  | .list items => do
    let arr ← items.mapM walk
    return .array arr
  | .map entries => do
    let fields ← entries.mapM (fieldOf walk)
    return .object (fromEntries fields)
  | .bigInteger i => numberOf serde (NumberText.ofInt i).render "BigInteger"
  | .bigDecimal d => numberOf serde (serde.showDecimal d) "BigDecimal"
  | .native className => dataOr asDataOf walk v className

/-- `value_to_json_at`, by the levels that the depth leaves below the maximum. -/
def valueToJsonAt : Nat → Value → M E Tree
  | 0, _ => throw tooDeep
  | _ + 1, .nil => return .null
  | _ + 1, .bool b => return .bool b
  | _ + 1, .int i => return .number (.ofInt i.toInt)
  | _ + 1, .double f =>
    if f.isFinite then return .number (serde.doubleText f)
    else throw (.valueError "JSON cannot represent NaN or Infinity")
  | levels + 1, .object p => do
    payloadToJson serde asDataOf (valueToJsonAt levels) (.object p) ((← get).payload p)
  | _ + 1, .other typeName => throw (unserializable typeName)

/-- `value_to_json`: the depth starts at 0 and may be the maximum. -/
def valueToJson (v : Value) : M E Tree := valueToJsonAt serde asDataOf (MAX_SERIALIZE_DEPTH + 1) v

/-- What printing a tree is for the program. -/
def printed : Except String String → M E String
  | .ok s => return s
  | .error e => throw (.other ("JSON.generate:: " ++ e))

/-- `JSON.generate:`. -/
def generate (v : Value) : M E String := do
  let json ← valueToJson serde asDataOf v
  printed (serde.toString json)

/-! ## Parsing -/

mutual

def jsonToValue : Tree → Except (QuoinError E) Data
  | .null => .ok .nil
  | .bool b => .ok (.bool b)
  | .number n => (numberToValue numerics n.render).map .number
  | .string s => .ok (.string s)
  | .array arr => do return .list (← itemsToValue arr)
  | .object obj => do return .map (fromEntries (← fieldsToValue obj))

def itemsToValue : List Tree → Except (QuoinError E) (List Data)
  | [] => .ok []
  | j :: rest => do
    let d ← jsonToValue j
    let ds ← itemsToValue rest
    return d :: ds

def fieldsToValue : List (String × Tree) → Except (QuoinError E) (List (String × Data))
  | [] => .ok []
  | (k, j) :: rest => do
    let d ← jsonToValue j
    let ds ← fieldsToValue rest
    return (k, d) :: ds

end

/-- `JSON.parse:`. -/
def parse (s : String) : Except (QuoinError E) Data :=
  match serde.fromStr s with
  | .ok json => jsonToValue numerics json
  | .error e => .error (.parseError ("JSON.parse:: " ++ e))

end Model

end Quoin.Json
