import Mathlib
import Quoin.Lexical.Env
import Quoin.Destructure.Compile

/-!
# Quoin — running destructuring

The instructions that destructuring compiles to, on the stack and the variables of
a frame. A List answers `count`, `at:` and the two slices itself; what another
object answers is the host's. Storing into a reserved name, a constant or an
undeclared field fails.
-/

namespace Quoin.Destructure

open Lexical (Vars)

/-- Values; `O` are the other objects. -/
inductive Value (O : Type) where
  | nil
  | int (i : Int)
  | list (l : List (Value O))
  | object (o : O)

inductive QuoinError (E : Type) where
  | other (msg : String)
  | messageNotUnderstood (selector : Selector)
  | raised (e : E)
  /-- An operand is missing. -/
  | stackUnderflow

/-- A frame, with what its stores reach. -/
structure State (O : Type) where
  stack : List (Value O)
  locals : Vars String (Value O)
  /-- The frames around it, innermost first. -/
  outer : List (Vars String (Value O))
  /-- Whether assignments bind in the frame itself: an object initializer runs. -/
  initFrame : Bool
  globals : Vars String (Value O)
  /-- The fields of `self`. -/
  fields : Vars String (Value O)

/-- What is not the frame's own. -/
structure Host (R O E : Type) where
  /-- The code of an expression. -/
  eval : R → State O → Except (QuoinError E) (Value O × State O)
  /-- What an object answers to a message, or a List or an Integer to one that is not its own. -/
  answer : Value O → Selector → List (Value O) → Except (QuoinError E) (Value O)
  /-- The error of a field that `self` does not have. -/
  noField : String → QuoinError E

/-! ## Messages -/

section Run

variable {R O E : Type} (h : Host R O E)

/-- `list_get`. -/
def listGet (l : List (Value O)) (i : Int) : Value O :=
  if 0 ≤ i then l[i.toNat]?.getD .nil else .nil

/-- `sliceFrom:` of List. -/
def sliceFrom (l : List (Value O)) (idx : Int) : List (Value O) :=
  let start := (max idx 0).toNat
  if start < l.length then l.drop start else []

/-- `sliceFrom:to:` of List. -/
def sliceFromTo (l : List (Value O)) (first last : Int) : List (Value O) :=
  let start := (max first 0).toNat
  let stop := min (max last 0).toNat l.length
  if start < stop then (l.take stop).drop start else []

def send : Value O → Selector → List (Value O) → Except (QuoinError E) (Value O)
  | .list l, .count, [] => .ok (.int l.length)
  | .list l, .at, [.int i] => .ok (listGet l i)
  | .list l, .sliceFrom, [.int i] => .ok (.list (sliceFrom l i))
  | .list l, .sliceFromTo, [.int i, .int j] => .ok (.list (sliceFromTo l i j))
  | .int i, .minus, [.int j] => .ok (.int (i - j))
  | .nil, .minus, [_] => .ok .nil
  | .nil, selector, _ => .error (.messageNotUnderstood selector)
  | v, selector, args => h.answer v selector args

/-! ## Variables -/

/-- `EnvFrame::set` on the frames around: the nearest one that binds the name. -/
def assignIn (name : String) (v : Value O) :
    List (Vars String (Value O)) → Option (List (Vars String (Value O)))
  | [] => none
  | f :: rest =>
    if (f.lookup name).isSome then some (f.bind name v :: rest)
    else (assignIn name v rest).map (f :: ·)

namespace State

variable (s : State O)

/-- `EnvFrame::get`. -/
def get (name : String) : Option (Value O) :=
  (s.locals.lookup name).or (s.outer.findSome? fun f => f.lookup name)

def isReserved (name : String) : Bool := name = "true" || name = "false" || name = "nil"

def reservedError (name : String) : QuoinError E :=
  .other ("Can't modify reserved identifier " ++ name)

/-- `store_define_local`. -/
def define (name : String) (v : Value O) : Except (QuoinError E) (State O) :=
  if isReserved name then .error (reservedError name) else
  .ok { s with locals := s.locals.bind name v }

/-- `store_set_local`. -/
def assign (name : String) (v : Value O) : Except (QuoinError E) (State O) :=
  if isReserved name then .error (reservedError name) else
  if s.initFrame || (s.locals.lookup name).isSome then
    .ok { s with locals := s.locals.bind name v }
  else
  match assignIn name v s.outer with
  | some outer => .ok { s with outer := outer }
  | none => .ok { s with locals := s.locals.bind name v }

/-- `StoreGlobal`. -/
def setGlobal (name : String) (isDefine : Bool) (v : Value O) : Except (QuoinError E) (State O) :=
  if isReserved name then .error (reservedError name) else
  if (name.toList.headD '\x00').isUpper && (s.globals.lookup name).isSome then
    .error (.other (if isDefine then "Global [/]" ++ name ++ " is already defined in this scope"
      else "Can't modify global constant [/]" ++ name))
  else .ok { s with globals := s.globals.bind name v }

/-- `store_field_value`. -/
def setField (name : String) (v : Value O) : Except (QuoinError E) (State O) :=
  if (s.fields.lookup name).isSome then .ok { s with fields := s.fields.bind name v }
  else .error (h.noField name)

end State

/-! ## Instructions -/

/-- Store a value where an instruction does. -/
def storeAt (s : State O) (v : Value O) : Instruction R → Except (QuoinError E) (State O)
  | .defineLocal name => s.define name v
  | .storeLocal name => s.assign name v
  | .storeGlobal name isDefine => s.setGlobal name isDefine v
  | .storeField name => s.setField h name v
  | _ => .ok s

def exec (s : State O) : Instruction R → Except (QuoinError E) (State O)
  | .node r => do
    let (v, s') ← h.eval r s
    return { s' with stack := v :: s'.stack }
  | .dup =>
    match s.stack with
    | v :: rest => .ok { s with stack := v :: v :: rest }
    | [] => .error .stackUnderflow
  | .loadLocal name => .ok { s with stack := (s.get name).getD .nil :: s.stack }
  | .pushInt i => .ok { s with stack := .int i :: s.stack }
  | .send selector argc =>
    match s.stack.drop argc with
    | receiver :: rest => do
      let v ← send h receiver selector (s.stack.take argc).reverse
      return { s with stack := v :: rest }
    | [] => .error .stackUnderflow
  | store =>
    match s.stack with
    | v :: rest => storeAt h { s with stack := rest } v store
    | [] => .error .stackUnderflow

def run (code : CodeBlock R) (s : State O) : Except (QuoinError E) (State O) :=
  code.foldlM (exec h) s

end Run

end Quoin.Destructure
