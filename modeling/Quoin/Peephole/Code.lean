import Mathlib
import Quoin.Vm.Numbers
import Quoin.Trans.Resume

/-!
# Quoin — bytecode and what running it does

The instructions that the peephole pass looks at or makes, and those that jump; all
others are `P`. The interpreter runs the block of the innermost frame, and a frame
works on operands of its own. Where an instruction has a block run, in a new frame, it
waits for what that comes to (`Trans.Resume`). What sends, loads and stores do to the
rest of the VM is the `Machine`'s.

Inline caches, the debugger, coverage and the budget of a task are left out, and so is
the message of an error that tells of missing operands.
-/

namespace Quoin.Peephole

open Portable (IntBinKind Symbol Constant)
open Vm (Value Error)
open Trans (Resume)

/-! ## Instructions -/

inductive Instruction (P : Type) where
  | loadLocal (name : Symbol)
  | defineLocal (name : Symbol)
  | storeLocal (name : Symbol)
  | push (c : Constant)
  | pop
  | dup
  | send (selector : Symbol) (numArgs : Nat)
  | sendLocal (var selector : Symbol) (numArgs : Nat)
  | sendConst (c : Constant) (selector : Symbol) (numArgs : Nat)
  | sendField (field : String) (selector : Symbol) (numArgs : Nat)
  | defineLocalKeep (name : Symbol)
  | storeLocalKeep (name : Symbol)
  | storeFieldKeep (field : String)
  | sendLocalLocal (a b selector : Symbol) (numArgs : Nat)
  | sendLocalConst (a : Symbol) (c : Constant) (selector : Symbol) (numArgs : Nat)
  /-- `IntAdd` and the ten others. -/
  | int (kind : IntBinKind)
  | intBinLL (a b : Symbol) (kind : IntBinKind)
  | intBinLC (a : Symbol) (c : Constant) (kind : IntBinKind)
  /-- `DoubleAdd` and the ten others. -/
  | double (kind : IntBinKind)
  | doubleBinLL (a b : Symbol) (kind : IntBinKind)
  | doubleBinLC (a : Symbol) (c : Constant) (kind : IntBinKind)
  | jump (offset : Int)
  | ifJump (offset : Int)
  | elseJump (offset : Int)
  | branchIfNotBool (offset : Int)
  | branchIfNotList (offset : Int) (blockTid : Option Nat)
  | branchIfNotPlainNew (offset : Int)
  | loadField (field : String)
  | storeField (field : String)
  | other (p : P)

/-- `jump_offset`. -/
def Instruction.jumpOffset {P : Type} : Instruction P → Option Int
  | jump o | ifJump o | elseJump o | branchIfNotBool o | branchIfNotList o _
  | branchIfNotPlainNew o => some o
  | _ => none

/-- `set_jump_offset`. -/
def Instruction.setJumpOffset {P : Type} (off : Int) : Instruction P → Instruction P
  | jump _ => jump off
  | ifJump _ => ifJump off
  | elseJump _ => elseJump off
  | branchIfNotBool _ => branchIfNotBool off
  | branchIfNotList _ tid => branchIfNotList off tid
  | branchIfNotPlainNew _ => branchIfNotPlainNew off
  | inst => inst

/-! ## One instruction -/

/-- What running a block comes to: a value, or an error or whatever else goes through it (`^^`, a
cancellation). -/
inductive Outcome (O E : Type) where
  | returned (v : Value O)
  | raised (e : Error E)
  | underflow

/-- What an instruction that does not jump comes to. -/
inductive Next (O E : Type) where
  | next (stack : List (Value O))
  | stop (o : Outcome O E)

/-- A block to run, in a frame. -/
abbrev Call (B F : Type) := B × F

/-- What an instruction does, over the world `W`. -/
abbrev Effect (O E B F W : Type) := Resume (Call B F) (Outcome O E) W (Next O E)

def isNumber {O : Type} : Value O → Bool
  | .int _ | .double _ => true
  | _ => false

/-- The rest of the VM. `F` is what a frame holds besides its `ip`. -/
structure Machine (P O E B F W : Type) where
  /-- `EnvFrame::get`. -/
  lookup : F → Symbol → W → Option (Value O)
  /-- `new_string_inline`, and `new_string_shared` over the buffer of a longer literal. -/
  newString : String → W → O × W
  newSymbol : String → W → O × W
  /-- The closure of a template over a frame: where the template is closed, the one that the VM
  keeps of it. -/
  newClosure : F → Portable.StaticBlock → W → O × W
  loadField : F → String → W → Value O × W
  storeDefineLocal : F → Symbol → Value O → W → Except (Error E) Unit × W
  storeSetLocal : F → Symbol → Value O → W → Except (Error E) Unit × W
  storeFieldValue : F → String → Value O → W → Except (Error E) Unit × W
  /-- `%` of two `f64`s. -/
  rem : Float → Float → Float
  /-- What a send does with its receiver and arguments. -/
  send : F → Symbol → Value O → List (Value O) → W →
    Resume (Call B F) (Outcome O E) W (Except (Outcome O E) (Value O))
  /-- Whether the fused loop runs over the value on top. -/
  loops : Option Nat → Option (Value O) → W → Bool × W
  /-- `plain_new_check_cached`. -/
  plainNew : Value O → W → Bool × W
  other : P → F → List (Value O) → W → Effect O E B F W

variable {P O E B F W : Type} (m : Machine P O E B F W)

/-- A local's value, or nil where it is not bound. -/
def Machine.local (f : F) (name : Symbol) (w : W) : Value O := (m.lookup f name w).getD .nil

/-- `materialize_constant`. -/
def Machine.constant (f : F) (w : W) : Constant → Value O × W
  | .nil => (.nil, w)
  | .bool b => (.bool b, w)
  | .int i => (.int i, w)
  | .double bits => (.double (.ofBits bits), w)
  | .string s => (.object (m.newString s w).1, (m.newString s w).2)
  | .symbol s => (.object (m.newSymbol s w).1, (m.newSymbol s w).2)
  | .block b => (.object (m.newClosure f b w).1, (m.newClosure f b w).2)

/-- Goes on where a store succeeds. -/
def storing (r : Except (Error E) Unit × W) (stack : List (Value O)) : Effect O E B F W :=
  match r with
  | (.ok (), w) => .done (.next stack) w
  | (.error e, w) => .done (.stop (.raised e)) w

/-- `store_define_local`, `store_set_local` or `store_field_value`. -/
def Machine.store (f : F) (v : Value O) (w : W) : Instruction P → Except (Error E) Unit × W
  | .defineLocal name | .defineLocalKeep name => m.storeDefineLocal f name v w
  | .storeLocal name | .storeLocalKeep name => m.storeSetLocal f name v w
  | .storeField field | .storeFieldKeep field => m.storeFieldValue f field v w
  | _ => (.ok (), w)

/-- A value pushed, or the error of computing it. -/
def computed (r : Except (Error E) (Value O)) (stack : List (Value O)) (w : W) :
    Effect O E B F W :=
  match r with
  | .ok v => .done (.next (v :: stack)) w
  | .error e => .done (.stop (.raised e)) w

/-- `exec_send`. -/
def Machine.execSend (f : F) (selector : Symbol) (numArgs : Nat) (stack : List (Value O)) (w : W) :
    Effect O E B F W :=
  match stack.drop numArgs with
  | [] => .done (.stop .underflow) w
  | receiver :: rest =>
    (m.send f selector receiver (stack.take numArgs).reverse w).bind fun r w =>
      .done (match r with
        | .ok v => .next (v :: rest)
        | .error o => .stop o) w

def Machine.execInt (f : F) (kind : IntBinKind) (w : W) : List (Value O) → Effect O E B F W
  | .int b :: .int a :: stack => computed (Vm.intBin kind a b) stack w
  | stack => m.execSend f kind.selector 1 stack w

def Machine.execDouble (f : F) (kind : IntBinKind) (w : W) : List (Value O) → Effect O E B F W
  | .double b :: .double a :: stack => .done (.next (Vm.doubleBin m.rem kind a b :: stack)) w
  | stack => m.execSend f kind.selector 1 stack w

/-- The arms of `dispatch_one` that do not jump. -/
def Machine.exec (f : F) (stack : List (Value O)) (w : W) : Instruction P → Effect O E B F W
  | .loadLocal name => .done (.next (m.local f name w :: stack)) w
  | .push c => .done (.next ((m.constant f w c).1 :: stack)) (m.constant f w c).2
  | .loadField field =>
    .done (.next ((m.loadField f field w).1 :: stack)) (m.loadField f field w).2
  | .pop =>
    match stack with
    | [] => .done (.stop .underflow) w
    | _ :: stack => .done (.next stack) w
  | .dup =>
    match stack with
    | [] => .done (.stop .underflow) w
    | v :: stack => .done (.next (v :: v :: stack)) w
  | .defineLocal name =>
    match stack with
    | [] => .done (.stop .underflow) w
    | v :: stack => storing (m.store f v w (.defineLocal name)) stack
  | .storeLocal name =>
    match stack with
    | [] => .done (.stop .underflow) w
    | v :: stack => storing (m.store f v w (.storeLocal name)) stack
  | .storeField field =>
    match stack with
    | [] => .done (.stop .underflow) w
    | v :: stack => storing (m.store f v w (.storeField field)) stack
  | .defineLocalKeep name =>
    match stack with
    | [] => .done (.stop .underflow) w
    | v :: stack => storing (m.store f v w (.defineLocalKeep name)) (v :: stack)
  | .storeLocalKeep name =>
    match stack with
    | [] => .done (.stop .underflow) w
    | v :: stack => storing (m.store f v w (.storeLocalKeep name)) (v :: stack)
  | .storeFieldKeep field =>
    match stack with
    | [] => .done (.stop .underflow) w
    | v :: stack => storing (m.store f v w (.storeFieldKeep field)) (v :: stack)
  | .send selector numArgs => m.execSend f selector numArgs stack w
  | .sendLocal var selector numArgs =>
    m.execSend f selector numArgs (m.local f var w :: stack) w
  | .sendConst c selector numArgs =>
    m.execSend f selector numArgs ((m.constant f w c).1 :: stack) (m.constant f w c).2
  | .sendField field selector numArgs =>
    m.execSend f selector numArgs ((m.loadField f field w).1 :: stack) (m.loadField f field w).2
  | .sendLocalLocal a b selector numArgs =>
    m.execSend f selector numArgs (m.local f b w :: m.local f a w :: stack) w
  | .sendLocalConst a c selector numArgs =>
    m.execSend f selector numArgs ((m.constant f w c).1 :: m.local f a w :: stack)
      (m.constant f w c).2
  | .int kind => m.execInt f kind w stack
  | .double kind => m.execDouble f kind w stack
  | .intBinLL a b kind =>
    match m.lookup f a w, m.lookup f b w with
    | some (.int x), some (.int y) => computed (Vm.intBin kind x y) stack w
    | _, _ => m.execSend f kind.selector 1 (m.local f b w :: m.local f a w :: stack) w
  | .intBinLC a c kind =>
    match m.lookup f a w, c with
    | some (.int x), .int y => computed (Vm.intBin kind x y) stack w
    | _, _ =>
      m.execSend f kind.selector 1 ((m.constant f w c).1 :: m.local f a w :: stack)
        (m.constant f w c).2
  | .doubleBinLL a b kind =>
    match m.lookup f a w, m.lookup f b w with
    | some (.double x), some (.double y) =>
      .done (.next (Vm.doubleBin m.rem kind x y :: stack)) w
    | _, _ => m.execSend f kind.selector 1 (m.local f b w :: m.local f a w :: stack) w
  | .doubleBinLC a c kind =>
    match m.lookup f a w, c with
    | some (.double x), .double bits =>
      .done (.next (Vm.doubleBin m.rem kind x (.ofBits bits) :: stack)) w
    | _, _ =>
      m.execSend f kind.selector 1 ((m.constant f w c).1 :: m.local f a w :: stack)
        (m.constant f w c).2
  | .other p => m.other p f stack w
  | .jump _ | .ifJump _ | .elseJump _ | .branchIfNotBool _ | .branchIfNotList _ _
  | .branchIfNotPlainNew _ => .done (.next stack) w

def isTruthy : Value O → Bool
  | .nil => false
  | .bool b => b
  | _ => true

def isBool : Value O → Bool
  | .bool _ => true
  | _ => false

/-- The arms that jump: whether they do, and what they leave. -/
def Machine.taken (stack : List (Value O)) (w : W) :
    Instruction P → Option (Bool × List (Value O) × W)
  | .ifJump _ =>
    match stack with
    | [] => none
    | cond :: stack => some (isTruthy cond, stack, w)
  | .elseJump _ =>
    match stack with
    | [] => none
    | cond :: stack => some (!isTruthy cond, stack, w)
  | .branchIfNotBool _ => some (!stack.head?.any isBool, stack, w)
  | .branchIfNotList _ tid =>
    some (!(m.loops tid stack.head? w).1, stack, (m.loops tid stack.head? w).2)
  | .branchIfNotPlainNew _ =>
    match stack with
    | [] => none
    | v :: stack => some (!(m.plainNew v w).1, v :: stack, (m.plainNew v w).2)
  | _ => some (true, stack, w)

/-! ## Runs -/

/-- A frame whose block runs. -/
structure Running (O B F : Type) where
  block : B
  frame : F
  ip : Nat
  stack : List (Value O)

/-- A frame that waits in the instruction at `ip`. -/
structure Waiting (O E B F W : Type) where
  block : B
  frame : F
  ip : Nat
  k : Outcome O E → W → Effect O E B F W

inductive Mode (O E B F : Type) where
  | running (r : Running O B F)
  /-- The innermost frame has come to its end. -/
  | answering (o : Outcome O E)

structure Config (O E B F W : Type) where
  world : W
  mode : Mode O E B F
  waiting : List (Waiting O E B F W)

namespace Config

/-- A block at its beginning. -/
def start (b : B) (f : F) (w : W) : Config O E B F W := ⟨w, .running ⟨b, f, 0, []⟩, []⟩

/-- Goes on with what the instruction at `ip` has come to. -/
def settle (waiting : List (Waiting O E B F W)) (b : B) (f : F) (ip : Nat) :
    Effect O E B F W → Config O E B F W
  | .done (.next stack) w => ⟨w, .running ⟨b, f, ip + 1, stack⟩, waiting⟩
  | .done (.stop o) w => ⟨w, .answering o, waiting⟩
  | .ask call w k => ⟨w, .running ⟨call.1, call.2, 0, []⟩, ⟨b, f, ip, k⟩ :: waiting⟩

/-- `(ip as isize + offset) as usize`, for a target in range. -/
def jumpTarget (ip : Nat) (offset : Int) : Nat := ((ip : Int) + offset).toNat

/-- Goes on after an instruction that may jump. -/
def branched (waiting : List (Waiting O E B F W)) (b : B) (f : F) (ip : Nat) (offset : Int)
    (w : W) : Option (Bool × List (Value O) × W) → Config O E B F W
  | none => ⟨w, .answering .underflow, waiting⟩
  | some (true, stack, w) => ⟨w, .running ⟨b, f, jumpTarget ip offset, stack⟩, waiting⟩
  | some (false, stack, w) => ⟨w, .running ⟨b, f, ip + 1, stack⟩, waiting⟩

/-- `dispatch_one`; past the end a block returns nil. -/
def step (code : B → List (Instruction P)) (c : Config O E B F W) : Option (Config O E B F W) :=
  match c.mode with
  | .running r =>
    match (code r.block)[r.ip]? with
    | none => some ⟨c.world, .answering (.returned .nil), c.waiting⟩
    | some inst =>
      match inst.jumpOffset with
      | some off => some (branched c.waiting r.block r.frame r.ip off c.world
          (m.taken r.stack c.world inst))
      | none => some (settle c.waiting r.block r.frame r.ip (m.exec r.frame r.stack c.world inst))
  | .answering o =>
    match c.waiting with
    | [] => none
    | a :: waiting => some (settle waiting a.block a.frame a.ip (a.k o c.world))

/-- What a run has come to. -/
def result (c : Config O E B F W) : Option (Outcome O E) × W :=
  match c.mode with
  | .running _ => (none, c.world)
  | .answering o => (some o, c.world)

end Config

end Quoin.Peephole
