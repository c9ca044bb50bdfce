import Mathlib
import Quoin.Control.State

/-!
# Quoin — calls

How a frame is started and consumed, how native and compiled code re-enters the VM,
the natives of the `catch:` family, and what a compiled method does from the call to
the return.
-/

namespace Quoin.Control

open Trans Resumable

variable {T : Sig} {α : Type}

/-! ## The stacks -/

namespace VmState

def push (v : T.V) (vm : VmState T) : VmState T := { vm with stack := v :: vm.stack }

def pushAll (vs : List T.V) (vm : VmState T) : VmState T := { vm with stack := vs ++ vm.stack }

/-- `stack.truncate(n)`. -/
def truncate (n : Nat) (vm : VmState T) : VmState T :=
  { vm with stack := vm.stack.drop (vm.stack.length - n) }

/-- The frames from the bottom up to a count. -/
def below (vm : VmState T) (n : Nat) : List (Frame T) := vm.frames.drop (vm.frames.length - n)

/-- `unwind`: pops frames back to a count. -/
def unwind (initial : Nat) (vm : VmState T) : VmState T := { vm with frames := vm.below initial }

def setWorld (w : T.W) (vm : VmState T) : VmState T := { vm with world := w }

/-- Stores an instruction pointer in the frame at `idx`, counted from the bottom, if there is
one. -/
def setIp (idx ip : Nat) (vm : VmState T) : VmState T :=
  if idx < vm.frames.length then
    { vm with frames := vm.frames.modify (vm.frames.length - 1 - idx) fun f => { f with ip } }
  else vm

def mapTop (f : Frame T → Frame T) (vm : VmState T) : VmState T :=
  { vm with frames := vm.frames.modify 0 f }

/-- Writes the operand at `idx`, counted from the bottom. -/
def writeSlot (idx : Nat) (v : T.V) (vm : VmState T) : VmState T :=
  { vm with stack := vm.stack.set (vm.stack.length - 1 - idx) v }

/-- The frame a start function pushes. -/
def pushFrame (b : Block T) (home : Option FrameId) (env : T.Env) (receiver obj : Option T.V)
    (vm : VmState T) : VmState T :=
  { vm with
    nextFrameId := vm.nextFrameId + 1
    frames :=
      { id := vm.nextFrameId, enclosingMethodId := home, block := b, ip := 0, env,
        instantiatingObj := obj, receiver, stackBase := vm.stack.length, returnReceiver := false,
        defers := [], unregisterOnDeferFailure := none, floor := vm.stack } :: vm.frames }

/-- The home of a block that is not run as a method: a nested block's is the method it was
written in. -/
def home (b : Block T) (vm : VmState T) : Option FrameId :=
  if b.isNestedBlock then b.enclosingMethodId else some vm.nextFrameId

end VmState

variable (h : Host T)

/-- Fails unless a condition holds. -/
def ensure (ok : Bool) (f : Fault T) : Rust T Unit := if ok then pure () else fail (.fault f)

def raise (message : String) : Rust T α := fail (.fault (.other (h.message message)))

def pop : Rust T T.V := do
  match (← look).stack with
  | v :: stack => do
    update fun vm => { vm with stack }
    pure v
  | [] => raise h "Stack underflow"

/-- The last `n` operands, the last first. -/
def popN : Nat → Rust T (List T.V)
  | 0 => pure []
  | n + 1 => do
    let v ← pop h
    return v :: (← popN n)

/-! ## Starting frames -/

def startBlock (b : Block T) (args : List T.V) (receiver : Option T.V) (vm : VmState T) :
    VmState T :=
  (vm.setWorld (h.newEnv b none args vm.world).2).pushFrame b (vm.home b)
    (h.newEnv b none args vm.world).1 receiver none

def startBlockAsMethod (b : Block T) (receiver : T.V) (args : List T.V) (isMethodCall : Bool)
    (vm : VmState T) : VmState T :=
  (vm.setWorld (h.newEnv b (some receiver) args vm.world).2).pushFrame b
    (if isMethodCall then some vm.nextFrameId else vm.home b)
    (h.newEnv b (some receiver) args vm.world).1 (some receiver) none

/-- A config block's frame binds nothing: its assignments are the fields. -/
def startBlockForInstantiation (b : Block T) (obj : T.V) (vm : VmState T) : VmState T :=
  (vm.setWorld (h.newEnv b none [] vm.world).2).pushFrame b (vm.home b)
    (h.newEnv b none [] vm.world).1 (some obj) (some obj)

/-! ## Nested runs -/

def runNested (site : Site T) (initialFrameCount : Nat) (context : String) : Rust T Unit := do
  let _ ← ask (.nested site initialFrameCount context)

def ensureStackHeadroom : Rust T Unit := do
  ensure (h.stackHeadroom (← look).depth)
    (.other (h.stackExhausted "block re-entry exhausted the task stack"))

def executeBlock (site : Site T) (b : Block T) (args : List T.V) (self : Option T.V) :
    Rust T T.V := do
  ensureStackHeadroom h
  let initialFrameCount := (← look).frames.length
  update <| match self with
    | some receiver => startBlockAsMethod h b receiver args false
    | none => startBlock h b args none
  runNested site initialFrameCount "block execution"
  pop h

/-- A guard's frame is its own home, and its environment binds the method's arguments. -/
def executeValidationBlock (site : Site T) (b : Block T) (receiver : T.V) (env : T.Env) :
    Rust T T.V := do
  let initialFrameCount := (← look).frames.length
  update fun vm => vm.pushFrame b (some vm.nextFrameId) env (some receiver) none
  runNested site initialFrameCount "validation block execution"
  pop h

def runLookup (site : Site T) : Lookup T → Rust T (Option (Callable T))
  | .found c w => do
    update (·.setWorld w)
    pure c
  | .fail f w => do
    update (·.setWorld w)
    fail (.fault f)
  | .guard b receiver env w k => do
    update (·.setWorld w)
    let v ← executeValidationBlock h site b receiver env
    let vm ← look
    runLookup site (k v vm.world)

def lookupMethod (site : Site T) (receiver : T.V) (selector : String) (args : List T.V) :
    Rust T (Option (Callable T)) := do
  runLookup h site (h.lookup receiver selector args (← look).world)

def maxNativeReentry : Nat := 12

def enterNativeReentry : Rust T Unit := do
  ensure ((← look).nativeReentryDepth < maxNativeReentry)
    (.other (h.stackExhausted "native call recursion too deep"))
  update fun vm => { vm with nativeReentryDepth := vm.nativeReentryDepth + 1 }

/-- A call counted as a re-entry, until it is over, however it ends. -/
def reentering (x : Rust T α) : Rust T α := do
  enterNativeReentry h
  ensuring x fun vm => { vm with nativeReentryDepth := vm.nativeReentryDepth - 1 }

/-- The call of what a lookup found, run to its end. -/
def callFound (site : Site T) (receiver : T.V) (args : List T.V) :
    Option (Callable T) → Rust T T.V
  | some c => do
    let initialFrameCount := (← look).frames.length
    let _ ← ask (.call site c receiver args none)
    runNested site initialFrameCount "method call"
    pop h
  | none => pure h.nil

def callMethod (site : Site T) (receiver : T.V) (selector : String) (args : List T.V) :
    Rust T T.V :=
  reentering h do
    callFound h site receiver args (← lookupMethod h site receiver selector args)

def callMethodValue (site : Site T) (receiver : T.V) (method : Option (Callable T))
    (args : List T.V) : Rust T T.V :=
  reentering h (callFound h site receiver args method)

/-- A native or a compiled method: it runs with its receiver and its arguments on the stack, if its
caller has put them there. -/
def Callable.isRooted : Callable T → Bool
  | .native _ | .aotCall .. => true
  | _ => false

/-- The call of what compiled code has looked up, run to its end. A `^^` that leaves the call has
cut the stack already. -/
def outcallFound (site : Site T) (receiver : T.V) (args : List T.V) (c : Callable T) :
    Rust T T.V :=
  if c.isRooted then do
    let vm ← look
    let initialFrameCount := vm.frames.length
    let recvStart := vm.stack.length
    update (·.pushAll (receiver :: args).reverse)
    let _ ← onError (ask (.call site c receiver args (some recvStart))) fun e vm =>
      match e with
      | .nonLocalReturn => (.nonLocalReturn, vm)
      | .fault f => (.fault f, vm.truncate recvStart)
    if initialFrameCount < (← look).frames.length then
      runNested site initialFrameCount "method call"
      pop h
    else do
      let result ← pop h
      update (·.truncate recvStart)
      pure result
  else callFound h site receiver args (some c)

/-- `call_method_cached`, without the caches. The calls of compiled code are counted, and not
bounded: what is nested too deep runs as bytecode. -/
def outcall (site : Site T) (receiver : T.V) (selector : String) (args : List T.V) :
    Rust T T.V := do
  update fun vm => { vm with outcallNesting := vm.outcallNesting + 1 }
  ensuring
    (do
      match ← lookupMethod h site receiver selector args with
      | some c => outcallFound h site receiver args c
      | none => do
        let vm ← look
        fail (.fault (.other (h.messageNotUnderstood receiver selector args vm.world))))
    fun vm => { vm with outcallNesting := vm.outcallNesting - 1 }

def reenter (site : Site T) : Reentry T → Rust T T.V
  | .executeBlock b args self => executeBlock h site b args self
  | .callMethod receiver selector args => callMethod h site receiver selector args
  | .outcall receiver selector args => outcall h site receiver selector args

/-! ## Consuming frames -/

def runInits (site : Site T) (obj : T.V) : List (Init T) → Rust T Unit
  | [] => pure ()
  | i :: inits => do
    let vm ← look
    let _ ← callMethodValue h site obj i.method (i.args vm.world)
    runInits site obj inits

/-- `finalize_instantiation`, and `run_all_inits` where there is no environment. -/
def finalizeInstantiation (site : Site T) (obj : T.V) (env : Option T.Env) : Rust T Unit := do
  let inits ← act fun vm =>
    ((h.instantiationPlan obj env vm.world).1,
      vm.setWorld (h.instantiationPlan obj env vm.world).2)
  runInits h site obj inits

/-- What is returned by a frame that returns its receiver, or makes an object, is that. -/
def consumePoppedFrame (site : Site T) (f : Frame T) (ret : T.V) : Rust T T.V :=
  match f.instantiatingObj with
  | some obj => do
    update (·.push obj)
    finalizeInstantiation h site obj (some f.env)
    pop h
  | none => pure (if f.returnReceiver then f.receiver.getD ret else ret)

def runDefers : List (DeferredCall T) → Rust T Unit
  | [] => pure ()
  | d :: defers => do
    let _ ← callMethod h .defer d.receiver d.selector d.args
    runDefers defers

/-- A class whose checks fail is unregistered. -/
def runFrameDefers (f : Frame T) : Rust T Unit :=
  onError (runDefers h f.defers) fun e vm =>
    (e, match f.unregisterOnDeferFailure with
      | some name => vm.setWorld (h.unregister name vm.world)
      | none => vm)

def popFrame : Rust T (Option (Frame T)) := do
  match (← look).frames with
  | f :: frames => do
    update fun vm => { vm with frames }
    pure (some f)
  | [] => pure none

/-! ## Compiled code -/

/-- `MAX_OUTCALL_NESTING`. -/
def maxOutcallNesting : Nat := 48

/-- Takes the window off the stack. A `^^` on its way elsewhere has cut the stack already. -/
def leaveFrame (base : Nat) : Except (QuoinError T) T.V → Rust T T.V
  | .ok v => do
    update (·.truncate base)
    pure v
  | .error (.fault f) => do
    update (·.truncate base)
    fail (.fault f)
  | .error .nonLocalReturn => fail .nonLocalReturn

/-- `finish_frame`: a `^^` that has come home has left its value on the stack, and the method
returns it. -/
def finishFrame (base : Nat) (minted : Option FrameId) (r : Except (QuoinError T) T.V) :
    Rust T T.V := do
  let vm ← look
  if minted.isSome ∧ vm.nlrTarget = minted then
    update fun vm => { vm with nlrTarget := none }
    match r, vm.stack with
    | .error .nonLocalReturn, v :: stack => do
      update fun vm => { vm with stack }
      pure v
    | r, _ => leaveFrame base r
  else leaveFrame base r

/-- Runs compiled code over the window that begins at `base`. -/
def framed (base : Nat) (minted : Option FrameId) (x : Rust T T.V) : Rust T T.V := do
  let r ← attempt x
  finishFrame base minted r

/-- Compiled code over the window that begins at `base`, in the invocation `home`. -/
def runCode (home : Option (FrameId × Nat)) (base : Nat) : AotCode T → Rust T T.V
  | .done r w => do
    update (·.setWorld w)
    match r with
    | .ok v => pure v
    | .error f => fail (.fault f)
  | .slotWrite slot v k => do
    ensure (base + slot < (← look).stack.length)
      (.other (h.message "AOT invariant violated: slot write past the stack top (please report)"))
    update (·.writeSlot (base + slot) v)
    runCode home base k
  | .run a w k => do
    update (·.setWorld w)
    let v ← reenter h (.compiled home) a
    let vm ← look
    runCode home base (k v vm.world)
  | .window slots code k => do
    let inner := (← look).stack.length
    update (·.pushAll slots.reverse)
    let v ← framed inner none (runCode home inner code)
    let vm ← look
    runCode home base (k v vm.world)
  | .nested within beyond => do
    if (← look).outcallNesting < maxOutcallNesting then runCode home base within
    else runCode home base beyond

/-- The id of an invocation that closures with a `^^` may have as their home, with its mark. -/
def mint (entry : AotEntry T) (base : Nat) (vm : VmState T) : Option FrameId × VmState T :=
  if entry.materializesNlr then
    (some vm.nextFrameId,
      { vm with
        nextFrameId := vm.nextFrameId + 1
        frameMarks := ⟨vm.nextFrameId, vm.frames, (vm.truncate base).stack⟩ :: vm.frameMarks })
  else (none, vm)

/-- Takes the mark off again. -/
def unmark (minted : Option FrameId) (vm : VmState T) : VmState T :=
  if minted.isSome then { vm with frameMarks := vm.frameMarks.tail } else vm

/-- Pushes the receiver and the arguments, unless the caller has. -/
def pushWindow (receiver : T.V) (args : List T.V) : Option Nat → VmState T → VmState T
  | some _, vm => vm
  | none, vm => vm.pushAll (receiver :: args).reverse

/-- Takes off the stack what the caller has pushed. -/
def dropWindow : Option Nat → VmState T → VmState T
  | some recvStart, vm => vm.truncate recvStart
  | none, vm => vm

/-- `invoke`: the window is the receiver, the arguments, and scratch slots. -/
def invoke (entry : AotEntry T) (receiver : T.V) (args : List T.V) (window : Option Nat) :
    Rust T T.V := do
  let base := window.getD (← look).stack.length
  update fun vm =>
    (pushWindow receiver args window vm).pushAll (List.replicate entry.nScratch h.nil)
  let minted ← act (mint entry base)
  let vm ← look
  framed base minted
    (ensuring (runCode h (minted.map (·, base)) base (entry.code receiver args minted vm.world))
      (unmark minted))

/-- Whether a call may run the compiled code. -/
def mayInvoke (entry : AotEntry T) (receiver : T.V) (args : List T.V) : Rust T Bool := do
  let vm ← look
  if vm.outcallNesting < maxOutcallNesting then
    act fun vm =>
      ((entry.admits receiver args vm.world).1, vm.setWorld (entry.admits receiver args vm.world).2)
  else pure false

/-- A compiled method, or its block where the code was not compiled for such a call, or calls of
compiled code are nested too deep. -/
def callAot (b : Block T) (entry : AotEntry T) (receiver : T.V) (args : List T.V)
    (window : Option Nat) : Rust T Unit := do
  if ← mayInvoke entry receiver args then
    let v ← invoke h entry receiver args window
    update (·.push v)
  else
    update (startBlockAsMethod h b receiver args true ∘ dropWindow window)

/-! ## The natives -/

/-- The first handler that catches: one with no parameter, or whose parameter's type the
exception matches. -/
def firstMatching (exc : T.V) (handlers : List T.V) (w : T.W) : Option (Block T) :=
  handlers.findSome? fun v =>
    match h.block? v w with
    | some b =>
      match b.paramTypes with
      | [] => some b
      | t :: _ => if t = "Object" || h.valueMatchesType exc t w then some b else none
    | none => none

/-- The end of a `catch:` for an error that is offered to the handlers. -/
def handle (handlers : List T.V) (e : QuoinError T) : Rust T T.V := do
  let exc ← act fun vm =>
    ((h.exceptionValue e vm.world).1, vm.setWorld (h.exceptionValue e vm.world).2)
  match firstMatching h exc handlers (← look).world with
  | some b => do
    update fun vm => vm.setWorld (h.clearActiveException vm.world)
    executeBlock h .handler b [exc] none
  | none => fail e

/-- Whether an error is offered to the handlers. One that stops the task is not, nor a `^^` to a
compiled method, whose value is on the stack already. -/
def QuoinError.offered (vm : VmState T) : QuoinError T → Bool
  | .nonLocalReturn => vm.nlrTarget.isNone
  | .fault .cancelled | .fault (.exitRequested _) => false
  | .fault (.other _) => true

def doCatch (protectedBlock : Block T) (handlers : List T.V) : Rust T T.V := do
  let initial := (← look).frames.length
  match ← attempt (executeBlock h (.catching handlers none) protectedBlock [] none) with
  | .ok v => pure v
  | .error e => do
    let vm ← look
    update (·.unwind initial)
    if e.offered vm then ensuring (handle h handlers e) (·.unwind initial)
    else fail e

/-- Runs a `finally` block, after what it is run after. -/
def runFinally (low : Bool) (after : After T) (cleanup : Block T) :
    Rust T (Except (QuoinError T) T.V) := do
  let vm ← look
  attempt (executeBlock h (.cleanup low after vm.nlrTarget vm.stack.length) cleanup [] none)

/-- The `finally` block after an error that is not offered to the handlers: whatever it does, the
error goes on. -/
def cleanUp (initial : Nat) (cleanup : Block T) (e : QuoinError T) : Rust T T.V := do
  update (·.unwind initial)
  let low := decide ((← look).frames.length < initial)
  let _ ← runFinally h low (.passing e) cleanup
  update (·.unwind initial)
  fail e

/-- The `finally` block after the value of the protected block, or of a handler. The value stays
on the stack meanwhile, unless a `^^` out of the block has cut the stack below it. -/
def finish (cleanup : Block T) (v : T.V) : Rust T T.V := do
  update (·.push v)
  let pre := (← look).frames.length
  let res ← runFinally h false .value cleanup
  if (← look).frames.length < pre then
    ofExcept res
  else do
    let v ← pop h
    match res with
    | .ok _ => pure v
    | .error e => fail e

/-- The `finally` block after an error no handler has caught. -/
def finishError (cleanup : Block T) (low : Bool) (err : QuoinError T) : Rust T T.V := do
  let pre := (← look).frames.length
  let res ← runFinally h low (.error err) cleanup
  if (← look).frames.length < pre then
    ofExcept res
  else
    match res with
    | .ok _ => fail err
    | .error e => fail e

/-- The error of a protected block with a `finally` block: it is offered to the handlers first,
unless it may not be. -/
def afterError (initial : Nat) (handlers : List T.V) (cleanup : Block T) (e : QuoinError T) :
    Rust T T.V := do
  if e.offered (← look) then
    update (·.unwind initial)
    let res ← attempt (handle h handlers e)
    update (·.unwind initial)
    match res with
    | .ok v => finish h cleanup v
    | .error err => do
      let low := decide ((← look).frames.length < initial)
      finishError h cleanup low err
  else cleanUp h initial cleanup e

def doCatchFinally (protectedBlock : Block T) (handlers : List T.V) (cleanup : Block T) :
    Rust T T.V := do
  let initial := (← look).frames.length
  match ← attempt (executeBlock h (.catching handlers (some cleanup)) protectedBlock [] none) with
  | .ok v => finish h cleanup v
  | .error e => afterError h initial handlers cleanup e

def runNative : Native T → Rust T T.V
  | .done r w => do
    update (·.setWorld w)
    match r with
    | .ok v => pure v
    | .error f => fail (.fault f)
  | .run a w onFault onReturn k => do
    update (·.setWorld w)
    let v ← onError (reenter h .call a) fun e vm =>
      match e with
      | .nonLocalReturn => (.nonLocalReturn, vm.setWorld (onReturn vm.world))
      | .fault f => (.fault (onFault f vm.world).1, vm.setWorld (onFault f vm.world).2)
    let vm ← look
    runNative (k v vm.world)
  | .examine a w k => do
    update (·.setWorld w)
    let r ← attempt (reenter h .examined a)
    let vm ← look
    runNative (k r vm.world)
  | .defer d w k => do
    update fun vm => (vm.setWorld w).mapTop fun f => { f with defers := f.defers ++ [d] }
    let vm ← look
    runNative (k vm.world)
  | .compiled code w k => do
    update (·.setWorld w)
    let v ← runCode h none (← look).stack.length code
    let vm ← look
    runNative (k v vm.world)
  | .protect b handlers cleanup w => do
    update (·.setWorld w)
    match cleanup with
    | none => doCatch h b handlers
    | some cleanup => doCatchFinally h b handlers cleanup

/-! ## `Callable::call` -/

def ensureInstantiable (cls : T.V) : Rust T Unit := do
  let vm ← look
  match h.ensureInstantiable cls vm.world with
  | .ok () => pure ()
  | .error f => fail (.fault f)

def newObject (cls : T.V) : Rust T T.V :=
  act fun vm => ((h.newObject cls vm.world).1, vm.setWorld (h.newObject cls vm.world).2)

/-- `Class.new:` where no class defines one. -/
def callNew (cls : T.V) (args : List T.V) : Rust T Unit := do
  ensureInstantiable h cls
  let vm ← look
  match args with
  | [v] =>
    match h.block? v vm.world with
    | some b => do
      let obj ← newObject h cls
      update (startBlockForInstantiation h b obj)
    | none => fail (.fault (.other (h.typeError "Block" v)))
  | _ => raise h "new: expects a block"

/-- `Class.new` where no class defines one. An initializer's error takes one value off the
stack, the new object. -/
def callNewNoBlock (cls : T.V) (args : List T.V) : Rust T Unit := do
  ensureInstantiable h cls
  ensure args.isEmpty (.other (h.message "new expects no arguments"))
  let obj ← newObject h cls
  update (·.push obj)
  onError (finalizeInstantiation h .newInit obj none) fun e vm =>
    (e, { vm with stack := vm.stack.tail })

/-- The receiver and the arguments are on the stack already, from `window` on, if the caller keeps
them there. -/
def Callable.call (receiver : T.V) (args : List T.V) (window : Option Nat) :
    Callable T → Rust T Unit
  | .block b => update (startBlockAsMethod h b receiver args true)
  | .metaclass cls => update (·.push cls)
  | .new cls => callNew h cls args
  | .newNoBlock cls => callNewNoBlock h cls args
  | .native f | .remote f => do
    let vm ← look
    let v ← runNative h (f receiver args vm.world)
    update (·.push v)
  | .aotCall b entry => callAot h b entry receiver args window

end Quoin.Control
