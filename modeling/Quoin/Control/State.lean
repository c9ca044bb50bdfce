import Mathlib
import Quoin.Trans.Resume

/-!
# Quoin — the virtual machine's control state

The interpreter runs the bytecode of the top frame. A send pushes a frame, or calls
a native method, and native methods run blocks of their own: they push a frame and
start a dispatch loop inside the one that called them. So the control state is in
two places, the frames of the VM and the activations on the Rust stack, and `^^`
and errors go through both.

A method or a block that has been compiled has no frame: it is an activation with a
window of slots on the operand stack. A `^^` may return from a compiled method all
the same. Such a method has an id of its own and a mark that says how many frames it
stands on and where its window begins; the `^^` leaves its id in `aot.nlr_target`,
and every activation passes the `^^` on until the invocation with that id takes the
value.

Values, locals, classes and the heap are the host's, and so is what compiled code
does between its calls. Fibers, inline caches and fuel are left out.
-/

namespace Quoin.Control

open Trans

/-- What the control state is over. -/
structure Sig where
  /-- `Value`. -/
  V : Type
  /-- Lexical environments. -/
  Env : Type
  /-- The operations of the instructions that move no control but a jump. -/
  Op : Type
  /-- The heap: objects, classes, globals, the exception being thrown. -/
  W : Type
  /-- Errors with their messages. -/
  E : Type

variable (T : Sig)

abbrev FrameId := Nat

/-- The errors a program raises or is stopped by. -/
inductive Fault where
  | cancelled
  | exitRequested (code : Int)
  | other (e : T.E)

/-- `QuoinError`: a `^^` in flight, or a fault. -/
inductive QuoinError where
  | nonLocalReturn
  | fault (f : Fault T)

inductive VmStatus where
  | running
  | finished (v : T.V)
  | yeeted (v : T.V)

/-- The instructions, by what they do to the control state. -/
inductive Instruction where
  /-- Pops operands and pushes results, jumps, or goes on as a send. -/
  | compute (op : T.Op) (offset : Int)
  /-- Builds a value from its operands with native code that may run blocks: the Map and Set
  literals, `NewWithFields`, `Use`. -/
  | construct (op : T.Op)
  | executeBlockWithSelf
  /-- `Return` and `BlockReturn`. -/
  | ret
  | methodReturn
  | yeet

structure Block where
  bytecode : List (Instruction T)
  isNestedBlock : Bool
  enclosingMethodId : Option FrameId
  parentEnv : T.Env
  paramTypes : List String

structure DeferredCall where
  receiver : T.V
  selector : String
  args : List T.V

structure Frame where
  id : FrameId
  enclosingMethodId : Option FrameId
  block : Block T
  ip : Nat
  env : T.Env
  instantiatingObj : Option T.V
  receiver : Option T.V
  stackBase : Nat
  returnReceiver : Bool
  defers : List (DeferredCall T)
  unregisterOnDeferFailure : Option String
  /-- What was on the operand stack when the frame was pushed. It is not in the source, and nothing
  reads it. -/
  floor : List T.V

/-- `AotFrameMark`: where a compiled method that a `^^` may return from stands. -/
structure FrameMark where
  id : FrameId
  /-- The frames there were when it was invoked. The source keeps their number. -/
  frames : List (Frame T)
  /-- What is on the operand stack below its window. The source keeps its length. -/
  floor : List T.V

def FrameMark.framesLen (m : FrameMark T) : Nat := m.frames.length

/-- Where the window begins on the operand stack. -/
def FrameMark.stackBase (m : FrameMark T) : Nat := m.floor.length

/-- The VM. The last frame and the last operand, which are the ones in use, come first. -/
structure VmState where
  frames : List (Frame T)
  stack : List T.V
  nextFrameId : FrameId
  cancelCurrent : Bool
  nativeReentryDepth : Nat
  /-- How deep the Rust stack is where the running code is. -/
  depth : Nat
  world : T.W
  /-- `aot.frame_marks`, the last first. -/
  frameMarks : List (FrameMark T) := []
  /-- `aot.nlr_target`: the compiled method that a `^^` in flight returns from. -/
  nlrTarget : Option FrameId := none
  /-- `aot.outcall_nesting`: how many calls of compiled code are going on. -/
  outcallNesting : Nat := 0

/-- How native or compiled code re-enters the VM. -/
inductive Reentry where
  | executeBlock (block : Block T) (args : List T.V) (self : Option T.V)
  | callMethod (receiver : T.V) (selector : String) (args : List T.V)
  /-- `call_method_cached`, the send of compiled code. -/
  | outcall (receiver : T.V) (selector : String) (args : List T.V)

/-- What compiled code does with the VM: it works on the heap, writes the slots of its window, and
calls. An error of what it has called ends it. -/
inductive AotCode where
  | done (r : Except (Fault T) T.V) (w : T.W)
  | slotWrite (slot : Nat) (v : T.V) (k : AotCode)
  | run (a : Reentry T) (w : T.W) (k : T.V → T.W → AotCode)
  /-- Code over a window of its own: that of a block that is compiled too, or the initializers that
  `NewWithFields` runs while the class and the values are on the stack. -/
  | window (slots : List T.V) (code : AotCode) (k : T.V → T.W → AotCode)
  /-- What is done where calls of compiled code are nested too deep, and where they are not. -/
  | nested (within beyond : AotCode)

/-- `AotEntry`: a compiled method. -/
structure AotEntry where
  /-- How many slots its window has besides those of the receiver and the arguments. -/
  nScratch : Nat
  /-- Whether its code makes closures with a `^^`, so that it may be their home. -/
  materializesNlr : Bool
  /-- Whether the code was compiled for such a receiver and such arguments, and for the classes as
  they are. -/
  admits : T.V → List T.V → T.W → Bool × T.W
  /-- The code, with the id of the invocation where it has one. -/
  code : T.V → List T.V → Option FrameId → T.W → AotCode T

/-- What native code does with the VM: it works on the heap, and re-enters. -/
inductive Native where
  | done (r : Except (Fault T) T.V) (w : T.W)
  /-- Re-enters, and after a cleanup passes an error on, a fault perhaps as another one. -/
  | run (a : Reentry T) (w : T.W) (onFault : Fault T → T.W → Fault T × T.W)
      (onReturn : T.W → T.W) (k : T.V → T.W → Native)
  /-- Re-enters, and looks at an error. -/
  | examine (a : Reentry T) (w : T.W) (k : Except (QuoinError T) T.V → T.W → Native)
  /-- Queues a call on the frame that made the send (`mix:`). -/
  | defer (d : DeferredCall T) (w : T.W) (k : T.W → Native)
  /-- Runs compiled code, a block that `valueWithSelfOrArg:` is sent to. -/
  | compiled (code : AotCode T) (w : T.W) (k : T.V → T.W → Native)
  /-- `catch:`, `catch+:`, and, with a block to run after, `finally:`, `catch:finally:` and
  `catch+:finally:`. -/
  | protect (block : Block T) (handlers : List T.V) (cleanup : Option (Block T)) (w : T.W)

inductive Callable where
  | block (b : Block T)
  | metaclass (cls : T.V)
  | new (cls : T.V)
  | newNoBlock (cls : T.V)
  | native (f : T.V → List T.V → T.W → Native T)
  /-- A compiled method, with the block it was compiled from. -/
  | aotCall (b : Block T) (entry : AotEntry T)
  /-- `ExtMethod` and `ServiceMethod`. -/
  | remote (f : T.V → List T.V → T.W → Native T)

/-- A method lookup, which runs the guards of the variants it considers. -/
inductive Lookup where
  | found (c : Option (Callable T)) (w : T.W)
  | fail (f : Fault T) (w : T.W)
  | guard (b : Block T) (receiver : T.V) (env : T.Env) (w : T.W) (k : T.V → T.W → Lookup)

/-- An initializer of an instantiation plan. -/
structure Init where
  method : Option (Callable T)
  args : T.W → List T.V

/-- What an instruction's operation comes to. -/
inductive Effect where
  | next (pushed : List T.V)
  | branch (pushed : List T.V)
  | send (pushed : List T.V) (selector : String) (numArgs : Nat)

/-- The rest of the VM: values, locals, classes, and what its operations say. -/
structure Host where
  nil : T.V
  isNil : T.V → Bool
  /-- The block a value is. -/
  block? : T.V → T.W → Option (Block T)
  /-- The environment of a frame for a block, with `self` where it is bound. -/
  newEnv : Block T → Option T.V → List T.V → T.W → T.Env × T.W
  arity : T.Op → Nat
  /-- What an operation does with its operands, the last first; what it pushes, the last first. -/
  compute : T.Op → List T.V → Frame T → T.W → Except (Fault T) (Effect T) × T.W
  /-- What a construction keeps on the stack while it runs, and what it runs. -/
  construct : T.Op → List T.V → Frame T → T.W → List T.V × Native T
  lookup : T.V → String → List T.V → T.W → Lookup T
  messageNotUnderstood : T.V → String → List T.V → T.W → T.E
  ensureInstantiable : T.V → T.W → Except (Fault T) Unit
  newObject : T.V → T.W → T.V × T.W
  /-- The fields bound from the environment of a `new:` block, and the initializers to run. -/
  instantiationPlan : T.V → Option T.Env → T.W → List (Init T) × T.W
  takePendingClassDef : T.W → Option String × T.W
  unregister : String → T.W → T.W
  /-- The value a handler is given for an error. -/
  exceptionValue : QuoinError T → T.W → T.V × T.W
  clearActiveException : T.W → T.W
  valueMatchesType : T.V → String → T.W → Bool
  /-- Whether a block can still be re-entered this deep on the task's stack. -/
  stackHeadroom : Nat → Bool
  stackExhausted : String → T.E
  /-- An error with a message and no more. -/
  message : String → T.E
  typeError : String → T.V → T.E
  uncaught : String → T.V → T.E
  annotate : Fault T → VmState T → Fault T

/-- What a `finally` block is run after. -/
inductive After where
  | value
  /-- An error that was offered to the handlers, or that a handler has raised. -/
  | error (e : QuoinError T)
  /-- An error that was not offered: the task is being stopped, or a `^^` is on its way to a
  compiled method. -/
  | passing (e : QuoinError T)

/-- What a nested run, or a call, is for. -/
inductive Site where
  /-- The caller passes an error on as it is. -/
  | call
  /-- A guard run by the lookup of a send, whose operands begin at `recvStart`. -/
  | sendLookup (recvStart : Nat)
  | defer
  /-- An initializer run by `new`, at the end of a `new:` block, or while a `^^` consumes one. -/
  | newInit
  | init
  | unwindingInit
  /-- The block a `catch:` or `finally:` protects. -/
  | catching (handlers : List T.V) (cleanup : Option (Block T))
  | handler
  /-- A `finally` block, with whether frames of the caller are gone, after what it runs, what
  `aot.nlr_target` is when it begins, and how many operands there are. -/
  | cleanup (low : Bool) (after : After T) (target : Option FrameId) (operands : Nat)
  /-- The caller looks at an error. -/
  | examined
  /-- The caller is compiled code, of the invocation with this id and this window, where it has an
  id. -/
  | compiled (home : Option (FrameId × Nat))

/-- What the code of one instruction asks the machine to run. -/
inductive Request where
  /-- `run_nested`. -/
  | nested (site : Site T) (initialFrameCount : Nat) (context : String)
  /-- `Callable::call`. The receiver and the arguments may be on the stack already, from `window`
  on. -/
  | call (site : Site T) (c : Callable T) (receiver : T.V) (args : List T.V) (window : Option Nat)
  /-- The next round of the unwinding loop of `MethodReturn`, with the mark of a compiled home. -/
  | unwind (target : FrameId) (ret : T.V) (home : Option (FrameMark T))

abbrev Result := Except (QuoinError T) (VmStatus T)

/-- Rust code over the VM. -/
abbrev Rust (α : Type) := Resumable (Request T) (Result T) (VmState T) (QuoinError T) α

end Quoin.Control
