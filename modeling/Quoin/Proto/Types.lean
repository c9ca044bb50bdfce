import Mathlib

/-!
# Quoin — wire types of the extension protocol

The owned types that cross the extension boundary (`quoin-ext-proto`,
`lib.rs`): a structured value (`DataValue`), a bulk column (`ArrowArray`), a
method argument (`Arg`), a class declaration (`ClassDecl`) and the frame
vocabulary itself (`Msg`), plus the per-frame metadata riding the terminals
(`ReplyMeta`).

`u64`, `u32`, `u8` and `i64` are the machine integers of the same width,
`String` is the valid-UTF-8 string it is in the source, and an `f64` is its
bit pattern (`F64`): the codec moves floats bit for bit and never computes
with one.
-/

namespace Quoin.Proto

abbrev Bytes := List UInt8

/-- An `f64`, by its bits. -/
structure F64 where
  bits : UInt64
deriving DecidableEq

inductive ArrowDType where
  | float64
  | int64
deriving DecidableEq

/-- `dtype as u64` — the wire tag of an element type. -/
def ArrowDType.tag : ArrowDType → UInt64
  | .float64 => 0
  | .int64 => 1

structure ArrowArray where
  dtype : ArrowDType
  length : UInt64
  data : Bytes
deriving DecidableEq

/-- A structured value tree. -/
inductive DataValue where
  | null
  | bool (b : Bool)
  | int (i : Int64)
  | bigInt (digits : String)
  | float (f : F64)
  | decimal (text : String)
  | str (s : String)
  | bytes (b : Bytes)
  | list (items : List DataValue)
  | map (entries : List (String × DataValue))
  | resource (id : UInt64) (className : String)

structure ClassDecl where
  name : String
  instanceSelectors : List String
  classSelectors : List String
deriving DecidableEq

/-- One ordered method argument of an extension-backed-class send. -/
inductive Arg where
  | data (d : DataValue)
  | resource (id : UInt64)
  | handle (h : UInt64)
  | array (a : ArrowArray)
  | chan (c : UInt64)

/-- Metadata appended to the `CallReturn*` terminals; `0` is "not reported". -/
structure ReplyMeta where
  handlerMicros : UInt64 := 0
deriving DecidableEq

/-- One control-plane frame, in either direction. -/
inductive Msg where
  | call (op arg : String) (handles resources releases : List UInt64)
      (arrays : List ArrowArray) (data : Option DataValue) (className : String)
      (recv : UInt64) (methodArgs : List Arg)
  | callReturn (result : String)
  | callReturnError (message remoteStack : String)
  | callReturnResource (resource : UInt64) (className : String)
  | callReturnChannel (chan : UInt64)
  | callReturnResourceDecl (resource : UInt64) (className : String)
      (instanceSelectors classSelectors : List String)
  | chan (kind : UInt8) (chan corr : UInt64) (value : Option DataValue) (message : String)
  | callReturnArray (array : ArrowArray)
  | callReturnData (value : DataValue)
  | callReturnHandle (handle : UInt64)
  | getManifest (version : UInt32)
  | manifestReturn (classes : List ClassDecl) (version lanes : UInt32)
  | makeString (value : String)
  | handleToString (handle : UInt64)
  | retain (handle : UInt64)
  | release (handles : List UInt64)
  | callMethodOnHandle (receiver : UInt64) (selector : String) (args : List UInt64)
  | invokeBlock (block : UInt64) (batches : List (List UInt64))
  | invokeBlockReturn (results : List UInt64) (error : Option String) (remoteStack : String)
  | getGlobal (name : String)
  | makeValue (value : DataValue)
  | readHandle (handle : UInt64)
  | readHandleReturn (value : DataValue) (error : Option String) (remoteStack : String)
  | hostOpReturn (handle : UInt64) (str error : Option String) (remoteStack : String)

/-- Hard cap on MessagePack nesting accepted from a peer. -/
def maxDvDepth : Nat := 64

/-! ## Nesting -/

mutual
/-- How many levels of lists and maps sit above the deepest value inside `dv`
(a scalar, or an empty collection, nests 0 deep). -/
def DataValue.nesting : DataValue → Nat
  | .list items => itemsNesting items
  | .map entries => entriesNesting entries
  | _ => 0

/-- Nesting of a list with these items. -/
def itemsNesting : List DataValue → Nat
  | [] => 0
  | item :: rest => max (item.nesting + 1) (itemsNesting rest)

/-- Nesting of a map with these entries. A key is a value one level down too,
so a non-empty map nests at least 1 deep. -/
def entriesNesting : List (String × DataValue) → Nat
  | [] => 0
  | (_, value) :: rest => max (value.nesting + 1) (entriesNesting rest)
end

theorem nesting_lt_of_mem_items {items : List DataValue} {item : DataValue}
    (h : item ∈ items) : item.nesting < itemsNesting items := by
  induction items with
  | nil => simp at h
  | cons x rest ih =>
    rw [itemsNesting]
    rcases List.mem_cons.mp h with rfl | hrest
    · omega
    · have := ih hrest
      omega

theorem nesting_lt_of_mem_entries {entries : List (String × DataValue)}
    {entry : String × DataValue} (h : entry ∈ entries) :
    entry.2.nesting < entriesNesting entries := by
  induction entries with
  | nil => simp at h
  | cons x rest ih =>
    rw [entriesNesting]
    rcases List.mem_cons.mp h with rfl | hrest
    · omega
    · have := ih hrest
      omega

theorem exists_item_of_lt_nesting {items : List DataValue} {n : Nat}
    (h : n < itemsNesting items) : ∃ item ∈ items, n ≤ item.nesting := by
  induction items with
  | nil => simp [itemsNesting] at h
  | cons x rest ih =>
    rw [itemsNesting] at h
    by_cases hx : n ≤ x.nesting
    · exact ⟨x, List.mem_cons_self, hx⟩
    · obtain ⟨item, hmem, hitem⟩ := ih (by omega)
      exact ⟨item, List.mem_cons_of_mem x hmem, hitem⟩

theorem exists_entry_of_lt_nesting {entries : List (String × DataValue)} {n : Nat}
    (h : n < entriesNesting entries) : ∃ entry ∈ entries, n ≤ entry.2.nesting := by
  induction entries with
  | nil => simp [entriesNesting] at h
  | cons x rest ih =>
    rw [entriesNesting] at h
    by_cases hx : n ≤ x.2.nesting
    · exact ⟨x, List.mem_cons_self, hx⟩
    · obtain ⟨entry, hmem, hentry⟩ := ih (by omega)
      exact ⟨entry, List.mem_cons_of_mem x hmem, hentry⟩

/-! ## Lengths -/

/-- The UTF-8 bytes of a string (`as_bytes`). -/
def utf8 (s : String) : Bytes := s.toUTF8.data.toList

mutual
/-- Every value inside `dv`, itself included. -/
def DataValue.parts : DataValue → List DataValue
  | .list items => .list items :: itemsParts items
  | .map entries => .map entries :: entriesParts entries
  | dv => [dv]

def itemsParts : List DataValue → List DataValue
  | [] => []
  | item :: rest => item.parts ++ itemsParts rest

def entriesParts : List (String × DataValue) → List DataValue
  | [] => []
  | (_, value) :: rest => value.parts ++ entriesParts rest
end

theorem mem_itemsParts {items : List DataValue} {item part : DataValue} (h : item ∈ items)
    (hpart : part ∈ item.parts) : part ∈ itemsParts items := by
  induction items with
  | nil => simp at h
  | cons x rest ih =>
    rw [itemsParts, List.mem_append]
    rcases List.mem_cons.mp h with rfl | hrest
    · exact Or.inl hpart
    · exact Or.inr (ih hrest)

theorem mem_entriesParts {entries : List (String × DataValue)} {entry : String × DataValue}
    {part : DataValue} (h : entry ∈ entries) (hpart : part ∈ entry.2.parts) :
    part ∈ entriesParts entries := by
  induction entries with
  | nil => simp at h
  | cons x rest ih =>
    rw [entriesParts, List.mem_append]
    rcases List.mem_cons.mp h with rfl | hrest
    · exact Or.inl hpart
    · exact Or.inr (ih hrest)

theorem DataValue.mem_parts_self (dv : DataValue) : dv ∈ dv.parts := by
  cases dv <;> simp [DataValue.parts]

/-- The string, binary and array lengths of one node, its children aside. -/
def DataValue.nodeLengths : DataValue → List Nat
  | .bigInt s | .decimal s | .str s => [(utf8 s).length]
  | .bytes b => [b.length]
  | .list items => [items.length]
  | .map entries => entries.length :: entries.map fun entry => (utf8 entry.1).length
  | .resource _ className => [(utf8 className).length]
  | _ => []

/-- The length of the ext payload of a resource node: its 8-byte id and its name. -/
def DataValue.nodePayloads : DataValue → List Nat
  | .resource _ className => [8 + (utf8 className).length]
  | _ => []

/-- Every string, binary and array length inside a value. -/
def DataValue.lengths (dv : DataValue) : List Nat := dv.parts.flatMap DataValue.nodeLengths

/-- Every resource payload length inside a value. -/
def DataValue.payloads (dv : DataValue) : List Nat := dv.parts.flatMap DataValue.nodePayloads

def ArrowArray.lengths (a : ArrowArray) : List Nat := [a.data.length]

def Arg.lengths : Arg → List Nat
  | .data d => d.lengths
  | .array a => a.lengths
  | _ => []

def ClassDecl.lengths (c : ClassDecl) : List Nat :=
  [(utf8 c.name).length, c.instanceSelectors.length, c.classSelectors.length] ++
    (c.instanceSelectors ++ c.classSelectors).map fun s => (utf8 s).length

def optStrLengths (s : Option String) : List Nat := s.toList.map fun s => (utf8 s).length

/-- The structured values a message carries. -/
def Msg.values : Msg → List DataValue
  | .call _ _ _ _ _ _ data _ _ methodArgs =>
    data.toList ++ methodArgs.flatMap fun
      | .data d => [d]
      | _ => []
  | .chan _ _ _ value _ => value.toList
  | .callReturnData value | .makeValue value | .readHandleReturn value _ _ => [value]
  | _ => []

/-- The string, binary and array lengths of a message, its structured values aside. -/
def Msg.ownLengths : Msg → List Nat
  | .call op arg handles resources releases arrays _ className _ methodArgs =>
    [(utf8 op).length, (utf8 arg).length, handles.length, resources.length, releases.length,
      arrays.length, (utf8 className).length, methodArgs.length] ++
      arrays.flatMap ArrowArray.lengths ++ methodArgs.flatMap Arg.lengths
  | .callReturn result => [(utf8 result).length]
  | .callReturnError message remoteStack => [(utf8 message).length, (utf8 remoteStack).length]
  | .callReturnResource _ className => [(utf8 className).length]
  | .callReturnChannel _ => []
  | .callReturnResourceDecl _ className instanceSelectors classSelectors =>
    (ClassDecl.mk className instanceSelectors classSelectors).lengths
  | .chan _ _ _ _ message => [(utf8 message).length]
  | .callReturnArray array => array.lengths
  | .callReturnData _ => []
  | .callReturnHandle _ => []
  | .getManifest _ => []
  | .manifestReturn classes _ _ => classes.length :: classes.flatMap ClassDecl.lengths
  | .makeString value => [(utf8 value).length]
  | .handleToString _ => []
  | .retain _ => []
  | .release handles => [handles.length]
  | .callMethodOnHandle _ selector args => [(utf8 selector).length, args.length]
  | .invokeBlock _ batches => batches.length :: batches.map List.length
  | .invokeBlockReturn results error remoteStack =>
    [results.length, (utf8 remoteStack).length] ++ optStrLengths error
  | .getGlobal name => [(utf8 name).length]
  | .makeValue _ => []
  | .readHandle _ => []
  | .readHandleReturn _ error remoteStack => (utf8 remoteStack).length :: optStrLengths error
  | .hostOpReturn _ str error remoteStack =>
    (utf8 remoteStack).length :: (optStrLengths str ++ optStrLengths error)

/-- Every string, binary and array length inside a message. -/
def Msg.lengths (msg : Msg) : List Nat :=
  msg.ownLengths ++ msg.values.flatMap DataValue.lengths

/-- Every resource payload length inside a message. -/
def Msg.payloads (msg : Msg) : List Nat := msg.values.flatMap DataValue.payloads

/-- The message carries no `Some(Null)` payload, which the wire does not
distinguish from `None`. -/
def Msg.noSomeNull : Msg → Prop
  | .call _ _ _ _ _ _ data _ _ _ => data ≠ some .null
  | .chan _ _ _ value _ => value ≠ some .null
  | _ => True

end Quoin.Proto
