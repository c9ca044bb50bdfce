import Mathlib

/-!
# Quoin — compiling destructuring

`compile_destruct`: an assignment or a declaration of several targets keeps the
value in a temporary, and each target of the pattern is read from it by position.
A splat that is not the last target changes where positions are counted from: the
targets behind it are read from the end, relative to a `count` that is taken once,
and the splat takes what is between. A sub-pattern gets a temporary of its own.
-/

namespace Quoin.Destructure

/-! ## Patterns -/

inductive IdentifierType where
  | namespaced | inst | loc
  deriving DecidableEq

structure IdentifierNode where
  /-- The path of a namespace. -/
  path : Option (List String)
  name : String
  identifierType : IdentifierType
  deriving DecidableEq

inductive LValue where
  | ident (identifier : IdentifierNode)
  | splat (identifier : IdentifierNode)
  | ignored
  | ignoredSplat
  | sub (lvalues : List LValue)

def LValue.isSplat : LValue → Bool
  | .splat _ | .ignoredSplat => true
  | .ident _ | .ignored | .sub _ => false

/-! ## Code -/

/-- The messages that destructuring sends. -/
inductive Selector where
  | count | at | sliceFrom | sliceFromTo | minus
  deriving DecidableEq

/-- `R` are the right-hand sides. -/
inductive Instruction (R : Type) where
  /-- The code of an expression. -/
  | node (r : R)
  | dup
  | loadLocal (name : String)
  | defineLocal (name : String)
  | storeLocal (name : String)
  | storeGlobal (name : String) (isDefine : Bool)
  | storeField (name : String)
  | pushInt (i : Int)
  | send (selector : Selector) (argc : Nat)

abbrev CodeBlock (R : Type) := List (Instruction R)

/-! ## The compiler -/

structure Scope where
  locals : List String
  /-- The locals declared with `let`. -/
  immutable : List String
  isInit : Bool
  /-- The symbols of the locals of a spliced block. -/
  renames : List (String × String)

/-- The innermost scope comes first. -/
structure Compiler where
  tempCounter : Nat
  scopes : List Scope
  paramOverride : List (String × String)
  valueTypeDefDepth : Nat

/-- The n-th temporary. -/
def tempVar (n : Nat) : String := "__qn_temp_" ++ toString n

namespace Compiler

variable (c : Compiler)

def isLocal (name : String) : Bool :=
  name = "self" || c.scopes.any fun s => s.locals.contains name

/-- The scope that binds a name. -/
def scopeOf (name : String) : Option Scope := c.scopes.find? fun s => s.locals.contains name

def isImmutable (name : String) : Bool :=
  match c.scopeOf name with
  | some s => s.immutable.contains name
  | none => false

def localSymbol (name : String) : String :=
  match c.scopeOf name with
  | some s => (s.renames.lookup name).getD name
  | none => name

/-- Whether the innermost scope is that of an object initializer. -/
def inInit : Bool := c.scopes.head?.any Scope.isInit

/-- `self.scopes.last_mut().unwrap().locals.insert(..)`. -/
def insertLocal (name : String) : Compiler :=
  { c with scopes := c.scopes.modifyHead fun s => { s with locals := name :: s.locals } }

/-- `new_temp_var`, with the temporary a local of the innermost scope. -/
def newTempVar : String × Compiler :=
  let temp := tempVar (c.tempCounter + 1)
  (temp, { c with tempCounter := c.tempCounter + 1 }.insertLocal temp)

end Compiler

section Compile

variable {R : Type}

/-- `compile_ident_store`. -/
def compileIdentStore (c : Compiler) (declaring : Bool) (id : IdentifierNode) :
    Except String (Instruction R) :=
  if declaring then .ok (.defineLocal (c.localSymbol id.name)) else
  if id.name = "true" ∨ id.name = "false" ∨ id.name = "nil" then .ok (.storeLocal id.name) else
  if (id.name.toList.headD '\x00').isUpper then .ok (.storeGlobal id.name false) else
  if id.identifierType = .inst then
    if 0 < c.valueTypeDefDepth then
      .error ("value types cannot have instance variables (found '@" ++ id.name ++ "')")
    else .ok (.storeField id.name)
  else
  match c.paramOverride.lookup id.name with
  | some sym => .ok (.storeLocal sym)
  | none =>
    if c.isLocal id.name then
      if c.isImmutable id.name then .error ("cannot reassign `let` binding `" ++ id.name ++ "`")
      else .ok (.storeLocal (if c.inInit then id.name else c.localSymbol id.name))
    else if c.inInit then .ok (.defineLocal id.name)
    else .error ("undeclared local `" ++ id.name ++ "` — declare it with `var " ++ id.name ++
      " = …` (assignment no longer implicitly declares locals)")

abbrev CompileM := StateT Compiler (Except String)

/-- What a level of a pattern fixes before its targets: the temporary that is read, the number of
targets, the position of the splat, and the temporary of the count where targets follow it. -/
structure Level where
  temp : String
  n : Nat
  splatAt : Option Nat
  lenTemp : Option String

namespace Level

/-- The number of targets behind a splat. -/
def tail (n : Nat) (splatAt : Option Nat) : Nat :=
  match splatAt with
  | some k => if k + 1 < n then n - 1 - k else 0
  | none => 0

variable (L : Level)

def pushIndex (i : Nat) : CodeBlock R :=
  match L.lenTemp, L.splatAt with
  | some lt, some k =>
    if k < i then [.loadLocal lt, .pushInt (L.n - i : Nat), .send .minus 1] else [.pushInt i]
  | _, _ => [.pushInt i]

/-- The element at the position of target `i`. -/
def readAt (i : Nat) : CodeBlock R := [.loadLocal L.temp] ++ L.pushIndex i ++ [.send .at 1]

/-- The elements that the splat at `i` takes. -/
def readSplat (i : Nat) : CodeBlock R :=
  [.loadLocal L.temp, .pushInt i] ++
    match L.lenTemp with
    | some lt =>
      [.loadLocal lt, .pushInt (tail L.n L.splatAt), .send .minus 1, .send .sliceFromTo 2]
    | none => [.send .sliceFrom 1]

end Level

/-- The start of `compile_destruct`: at most one splat, and the count if it is needed. -/
def enterLevel (lvalues : List LValue) (temp : String) : CompileM (Level × CodeBlock R) := do
  let splats := lvalues.zipIdx.filter fun (lv, _) => lv.isSplat
  if 1 < splats.length then
    throw "a destructuring pattern allows only one splat (`*name` or `*_`)"
  let splatAt := splats.head?.map Prod.snd
  if 0 < Level.tail lvalues.length splatAt then
    let lt ← modifyGet Compiler.newTempVar
    return (⟨temp, lvalues.length, splatAt, some lt⟩,
      [.loadLocal temp, .send .count 0, .defineLocal lt])
  else return (⟨temp, lvalues.length, splatAt, none⟩, [])

/-- The loop of `compile_destruct` over the targets of a level, from target `i` on. -/
def compileTargets (declaring : Bool) (L : Level) (i : Nat) :
    List LValue → CompileM (CodeBlock R)
  | [] => return []
  | .ident id :: rest => do
    let store ← compileIdentStore (← get) declaring id
    return L.readAt i ++ [store] ++ (← compileTargets declaring L (i + 1) rest)
  | .splat id :: rest => do
    let store ← compileIdentStore (← get) declaring id
    return L.readSplat i ++ [store] ++ (← compileTargets declaring L (i + 1) rest)
  | .ignored :: rest | .ignoredSplat :: rest => compileTargets declaring L (i + 1) rest
  | .sub lvalues :: rest => do
    let nested ← modifyGet Compiler.newTempVar
    let (inner, count) ← enterLevel lvalues nested
    let body ← compileTargets declaring inner 0 lvalues
    return L.readAt i ++ [.defineLocal nested] ++ count ++ body
      ++ (← compileTargets declaring L (i + 1) rest)

/-- `compile_destruct`. -/
def compileDestruct (declaring : Bool) (lvalues : List LValue) (temp : String) :
    CompileM (CodeBlock R) := do
  let (L, count) ← enterLevel lvalues temp
  return count ++ (← compileTargets declaring L 0 lvalues)

/-- The end of `compile_assignment` and `compile_declaration` for several targets. A declaration has
declared their names before. -/
def compileSeveral (declaring : Bool) (lvalues : List LValue) (rvalue : R) :
    CompileM (CodeBlock R) := do
  let temp ← modifyGet Compiler.newTempVar
  return [.node rvalue, .dup, .defineLocal temp] ++ (← compileDestruct declaring lvalues temp)

end Compile

end Quoin.Destructure
