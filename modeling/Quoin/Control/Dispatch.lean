import Mathlib
import Quoin.Control.Calls

/-!
# Quoin — the instructions

`dispatch_one`: the instruction at the top frame's `ip`, of the bytecode the
dispatch loop holds.
-/

namespace Quoin.Control

open Trans Resumable

variable {T : Sig} (h : Host T)

/-- `(ip as isize + offset) as usize`. -/
def jumpTarget (ip : Nat) (offset : Int) : Nat := (((ip : Int) + offset) % 2 ^ 64).toNat

/-! ## Sends -/

/-- The value on top takes the place of what is on the stack from `recvStart` on. -/
def VmState.reseat (recvStart : Nat) (vm : VmState T) : VmState T :=
  match vm.stack with
  | result :: _ => if recvStart < vm.stack.length then (vm.truncate recvStart).push result else vm
  | [] => vm

/-- A native or compiled method runs with `[receiver, args..]` still on the stack, and its result
replaces them. (Where a compiled method falls back on its block, nothing is left to replace.)
Anything else consumes them first. -/
def dispatchSendRooted (c : Callable T) (receiver : T.V) (args : List T.V) (recvStart : Nat) :
    Rust T (VmStatus T) :=
  if c.isRooted then do
    match ← attempt (c.call h receiver args (some recvStart)) with
    | .ok () => do
      update (·.reseat recvStart)
      pure .running
    -- a `^^` has cut the stack already, perhaps above the receiver, and pushed its value
    | .error .nonLocalReturn => fail .nonLocalReturn
    | .error (.fault f) => do
      update (·.truncate recvStart)
      fail (.fault f)
  else do
    update (·.truncate recvStart)
    c.call h receiver args none
    pure .running

def execSend (selector : String) (numArgs : Nat) : Rust T (VmStatus T) := do
  let vm ← look
  match vm.stack.drop numArgs with
  | [] => raise h "Stack underflow"
  | receiver :: stack => do
    let args := (vm.stack.take numArgs).reverse
    let recvStart := stack.length
    update (·.mapTop fun f => { f with ip := f.ip + 1 })
    match if selector = "value" ∨ selector = "value:" then h.block? receiver vm.world else none with
    | some b => do
      update (·.truncate recvStart)
      update (startBlock h b args (some receiver))
      pure .running
    | none => do
      let lookup := lookupMethod h (.sendLookup recvStart) receiver selector args
      let found ← onError lookup fun e vm => (e, vm.truncate recvStart)
      match found with
      | some c => dispatchSendRooted h c receiver args recvStart
      | none => do
        update (·.truncate recvStart)
        fail (.fault (.other (h.messageNotUnderstood receiver selector args vm.world)))

/-! ## Returns -/

/-- Pops the frame that has ended, with its operands, and pushes what it returns. -/
def endFrame (ret : T.V) : Rust T Unit := do
  match ← popFrame with
  | some f => do
    update (·.truncate f.stackBase)
    let ret ← consumePoppedFrame h .init f ret
    update (·.push ret)
  | none => pure ()

/-- The end of the bytecode, which returns nil. (The source does without the calls where the
frame has nothing to run.) -/
def implicitReturn (f : Frame T) : Rust T (VmStatus T) := do
  runFrameDefers h f
  endFrame h h.nil
  pure .running

def execReturn (f : Frame T) (idx : Nat) : Rust T (VmStatus T) := do
  runFrameDefers h f
  let ret ← pop h
  endFrame h ret
  update (·.setIp idx f.ip)
  pure .running

/-- A `^^` has come down to a compiled home: it leaves the value where the window of the home
begins, and tells the activations in between. -/
def arrive (m : FrameMark T) (target : FrameId) (ret : T.V) : Rust T (VmStatus T) := do
  update fun vm => { vm.truncate m.stackBase with nlrTarget := some target }
  update (·.push ret)
  fail .nonLocalReturn

/-- A round of the unwinding loop of `MethodReturn`: pops a frame, and stops at the home. Without
a home among the frames they are all popped. -/
def unwindFrame (target : FrameId) (ret : T.V) (home : Option (FrameMark T)) :
    Rust T (VmStatus T) := do
  match ← popFrame with
  | none => do
    update (·.push ret)
    fail .nonLocalReturn
  | some f => do
    let ret ← consumePoppedFrame h .unwindingInit f ret
    if f.id = target then
      update (·.truncate f.stackBase)
      update (·.push ret)
      fail .nonLocalReturn
    else ask (.unwind target ret home)

/-- A compiled home is looked for first: it has no frame, and stands on those below its mark. -/
def unwindRound (target : FrameId) (ret : T.V) (home : Option (FrameMark T)) :
    Rust T (VmStatus T) := do
  let vm ← look
  match home.filter (vm.frames.length ≤ ·.framesLen) with
  | some m => arrive m target ret
  | none => unwindFrame h target ret home

def execMethodReturn (f : Frame T) : Rust T (VmStatus T) := do
  let ret ← pop h
  match f.enclosingMethodId with
  | some target => do
    let vm ← look
    ask (.unwind target ret (vm.frameMarks.find? (·.id = target)))
  | none => raise h "MethodReturn executed outside of a method context"

/-! ## `dispatch_one` -/

def execCompute (op : T.Op) (offset : Int) (f : Frame T) (idx : Nat) : Rust T (VmStatus T) := do
  let operands ← popN h (h.arity op)
  let r ← act fun vm =>
    ((h.compute op operands f vm.world).1, vm.setWorld (h.compute op operands f vm.world).2)
  match r with
  | .error e => fail (.fault e)
  | .ok (.next pushed) => do
    update fun vm => (vm.pushAll pushed).setIp idx (f.ip + 1)
    pure .running
  | .ok (.branch pushed) => do
    update fun vm => (vm.pushAll pushed).setIp idx (jumpTarget f.ip offset)
    pure .running
  | .ok (.send pushed selector numArgs) => do
    update (·.pushAll pushed)
    execSend h selector numArgs

/-- The operands stay on the stack while the value is made, with what is being made on top, and
the value replaces them. -/
def execConstruct (op : T.Op) (f : Frame T) (idx : Nat) : Rust T (VmStatus T) := do
  let vm ← look
  ensure (h.arity op ≤ vm.stack.length) (.other (h.message "Stack underflow"))
  let base := vm.stack.length - h.arity op
  let (rooted, native) := h.construct op (vm.stack.take (h.arity op)) f vm.world
  update (·.pushAll rooted)
  let v ← runNative h native
  update fun vm => ((vm.truncate base).push v).setIp idx (f.ip + 1)
  pure .running

/-- Runs a class body, or an extension. The frame returns its receiver, the class. -/
def execBlockWithSelf : Rust T (VmStatus T) := do
  let block ← pop h
  let self ← pop h
  ensure (!h.isNil self) (.other (h.message "Cannot extend nil or non-existent class/object"))
  let vm ← look
  match h.block? block vm.world with
  | some b => do
    update (·.mapTop fun f => { f with ip := f.ip + 1 })
    update (startBlockAsMethod h b self [] false)
    let pending ← act fun vm =>
      ((h.takePendingClassDef vm.world).1, vm.setWorld (h.takePendingClassDef vm.world).2)
    update (·.mapTop fun f =>
      { f with returnReceiver := true, unregisterOnDeferFailure := pending })
    pure .running
  | none => fail (.fault (.other (h.typeError "Block" block)))

def execYeet : Rust T (VmStatus T) := do
  let v ← pop h
  update fun vm => { vm with frames := [] }
  return .yeeted v

/-- `f` is the top frame, at `idx` from the bottom. -/
def exec (f : Frame T) (idx : Nat) : Option (Instruction T) → Rust T (VmStatus T)
  | none => implicitReturn h f
  | some (.compute op offset) => execCompute h op offset f idx
  | some (.construct op) => execConstruct h op f idx
  | some .executeBlockWithSelf => execBlockWithSelf h
  | some .ret => execReturn h f idx
  | some .methodReturn => execMethodReturn h f
  | some .yeet => execYeet h

/-- Executes the instruction the top frame is at, read from the bytecode it is given. -/
def dispatchOne (bytecode : List (Instruction T)) (f : Frame T) : Rust T (VmStatus T) := do
  let vm ← look
  exec h f (vm.frames.length - 1) bytecode[f.ip]?

/-- What the machine runs for a request that is not a nested loop. -/
def perform : Request T → Rust T (VmStatus T)
  | .nested .. => pure .running
  | .call _ c receiver args window => do
    c.call h receiver args window
    pure .running
  | .unwind target ret home => unwindRound h target ret home

end Quoin.Control
