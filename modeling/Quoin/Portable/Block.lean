import Mathlib

/-!
# Quoin — block templates

The compile-time half of a block (`StaticBlock`) and the bytecode it holds
(`Instruction`), as far as they decide which names a block looks up, binds
and assigns, which closures it makes, and where control goes next. The
instructions that do none of this are `PlainOp`s.

What the VM does with a name is in `Instruction.envReads` and the functions
after it, read off the interpreter's own `match`, instruction by instruction;
the scan that decides whether a block may be shipped has its own `match`
(`Portable/Scan.lean`), and the two are compared in `Portable/Level.lean`.
-/

namespace Quoin.Portable

abbrev Symbol := String

/-- The name a method's receiver is bound under. -/
def selfSymbol : Symbol := "self"

/-- A possibly namespaced global name. -/
structure NamespacedName where
  path : List String
  name : String
deriving DecidableEq

inductive IntBinKind where
  | add | sub | mul | div | mod | lt | le | gt | ge | eq | ne
deriving DecidableEq

/-- Instructions that work on the operand stack alone. -/
inductive PlainOp where
  | pop
  | dup
  | int (kind : IntBinKind)
  | double (kind : IntBinKind)
  | listGet
  | listSet
  | listPush
  | listLen
  | mapGet
  | mapSet
  | requireBool
  | newWithFields
  | newList
  | newMap
  | newSet
  | tagCollection
  | newRegex
  | recordClassSite
  | loadFieldOf
  | use
deriving DecidableEq

/-- The jumps that may fall through. -/
inductive Branch where
  | ifJump
  | elseJump
  | branchIfNotBool
  | branchIfNotList
  | branchIfNotPlainNew
deriving DecidableEq

mutual
inductive Constant where
  | nil
  | bool (b : Bool)
  | int (i : Int64)
  | double (bits : UInt64)
  | string (s : String)
  | symbol (s : String)
  | block (b : StaticBlock)

inductive StaticBlock where
  | mk (paramSyms : List Symbol) (bytecode : List Instruction)
      (declBlock : Option StaticBlock) (isInitLiteral : Bool)

inductive Instruction where
  | loadLocal (s : Symbol)
  | defineLocal (s : Symbol)
  | storeLocal (s : Symbol)
  | loadGlobal (n : NamespacedName)
  | storeGlobal (n : NamespacedName) (isDefine : Bool)
  | push (c : Constant)
  | send (selector : Symbol) (numArgs : Nat)
  | sendLocal (var selector : Symbol) (numArgs : Nat)
  | sendConst (c : Constant) (selector : Symbol) (numArgs : Nat)
  | sendField (field : String) (selector : Symbol) (numArgs : Nat)
  | defineLocalKeep (s : Symbol)
  | storeLocalKeep (s : Symbol)
  | storeFieldKeep (field : String)
  | sendLocalLocal (a b selector : Symbol) (numArgs : Nat)
  | sendLocalConst (a : Symbol) (c : Constant) (selector : Symbol) (numArgs : Nat)
  | intBinLL (a b : Symbol) (kind : IntBinKind)
  | intBinLC (a : Symbol) (c : Constant) (kind : IntBinKind)
  | doubleBinLL (a b : Symbol) (kind : IntBinKind)
  | doubleBinLC (a : Symbol) (c : Constant) (kind : IntBinKind)
  | ret
  | yeet
  | blockReturn
  | methodReturn
  | jump (offset : Int)
  | branch (kind : Branch) (offset : Int)
  | defineClass (name : NamespacedName)
  | executeBlockWithSelf
  | defineMethod (selector : String)
  | overrideMethod (selector : String)
  | loadField (field : String)
  | storeField (field : String)
  | plain (op : PlainOp)
end

namespace StaticBlock

def paramSyms : StaticBlock → List Symbol
  | .mk paramSyms _ _ _ => paramSyms

def bytecode : StaticBlock → List Instruction
  | .mk _ bytecode _ _ => bytecode

def declBlock : StaticBlock → Option StaticBlock
  | .mk _ _ declBlock _ => declBlock

def isInitLiteral : StaticBlock → Bool
  | .mk _ _ _ isInitLiteral => isInitLiteral

end StaticBlock

/-- The block literal a constant is. -/
def Constant.block? : Constant → Option StaticBlock
  | .block b => some b
  | _ => none

namespace Instruction

/-! ## What the interpreter does -/

/-- The names the instruction looks up with `EnvFrame::get`, in order. The field
and method-definition instructions look up `self`. -/
def envReads : Instruction → List Symbol
  | .loadLocal s => [s]
  | .sendLocal var _ _ => [var]
  | .sendLocalLocal a b _ _ => [a, b]
  | .sendLocalConst a _ _ _ => [a]
  | .intBinLL a b _ | .doubleBinLL a b _ => [a, b]
  | .intBinLC a _ _ | .doubleBinLC a _ _ => [a]
  | .sendField .. | .loadField _ | .storeField _ | .storeFieldKeep _ => [selfSymbol]
  | .defineMethod _ | .overrideMethod _ => [selfSymbol]
  | _ => []

/-- The name `store_define_local` binds in the frame's own env. -/
def defines : Instruction → Option Symbol
  | .defineLocal s | .defineLocalKeep s => some s
  | _ => none

/-- The name `store_set_local` assigns, up the chain or in an instantiating frame. -/
def assigns : Instruction → Option Symbol
  | .storeLocal s | .storeLocalKeep s => some s
  | _ => none

/-- The block literal the instruction may turn into a closure. -/
def literal : Instruction → Option StaticBlock
  | .push c | .sendConst c _ _ | .sendLocalConst _ c _ _ | .intBinLC _ c _
  | .doubleBinLC _ c _ => c.block?
  | _ => none

/-- `send_parts`: the selector-carrying sends, with the constant they carry. -/
def sendParts : Instruction → Option (Symbol × Nat × Option Constant)
  | .send s n => some (s, n, none)
  | .sendLocal _ s n => some (s, n, none)
  | .sendField _ s n => some (s, n, none)
  | .sendLocalLocal _ _ s n => some (s, n, none)
  | .sendConst c s n => some (s, n, some c)
  | .sendLocalConst _ c s n => some (s, n, some c)
  | _ => none

/-- Where control goes: past the end of the code when the frame is left. -/
def next (inst : Instruction) (ip codeLength : Nat) (taken : Bool) : Nat :=
  match inst with
  | .jump offset => ((ip : Int) + offset).toNat
  | .branch _ offset => if taken then ((ip : Int) + offset).toNat else ip + 1
  | .ret | .yeet | .blockReturn | .methodReturn => codeLength
  | _ => ip + 1

end Instruction

end Quoin.Portable
