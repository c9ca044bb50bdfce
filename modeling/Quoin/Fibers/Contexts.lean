import Mathlib
import Quoin.Trans.Run

/-!
# Quoin — the contexts of tasks and fibers

Each task has a coroutine, its root, and each guest fiber has one. The VM holds the
context of the running coroutine, and the switches move it: `save_fiber_context` and
`load_fiber_context` between the coroutines of a task, `save_task_context` and
`load_task_context` between tasks. The depth of native calls back into the VM
(`native_reentry_depth`) goes with the task.

`nested` is what that depth is to be: the number of `call_method` activations on a
coroutine's native stack. No operation reads it. The values that coroutines pass to
each other, and what a task waits for, are left out.
-/

namespace Quoin.Fibers

/-! ## State -/

inductive FiberStatus where
  | created | suspended | running | done | failed
  deriving DecidableEq

def FiberStatus.isTerminated : FiberStatus → Bool
  | .done | .failed => true
  | .created | .suspended | .running => false

/-- `NativeFiberState`. A context `C` is an operand stack, its frames, the native arguments and
the state of compiled code; `B` are the blocks. -/
structure NativeFiberState (B C : Type) where
  block : B
  status : FiberStatus
  started : Bool
  context : C
  owner : Option Nat
  nested : Nat

structure Task (B C : Type) where
  block : Option B
  started : Bool
  context : C
  currentFiber : Option Nat
  resumeStack : List (Option Nat)
  savedRoot : C
  nativeReentryDepth : Nat
  nested : Nat

/-- The live context, and what the scheduler knows. -/
structure VmState (B C : Type) where
  context : C
  nativeReentryDepth : Nat
  tasks : List (Option (Task B C))
  currentTask : Nat
  currentFiber : Option Nat
  /-- The coroutines that resumed, the last one first. -/
  resumeStack : List (Option Nat)
  mainSaved : C
  fibers : List (NativeFiberState B C)
  /-- Whether the driver has a current task, with its context loaded. -/
  loaded : Bool

namespace VmState

variable {B C : Type} [Inhabited C] (startBlock : B → C → C) (s : VmState B C)

def task? (tid : Nat) : Option (Task B C) := s.tasks[tid]?.join

def setTask (tid : Nat) (task : Option (Task B C)) : VmState B C :=
  { s with tasks := s.tasks.set tid task }

def modifyFiber (f : Nat) (g : NativeFiberState B C → NativeFiberState B C) : VmState B C :=
  { s with fibers := s.fibers.modify f g }

/-! ## Switching fibers -/

def setFiberStatus (f : Nat) (status : FiberStatus) : VmState B C :=
  s.modifyFiber f fun st => { st with status }

def setFiberOwner (f : Nat) (owner : Option Nat) : VmState B C :=
  s.modifyFiber f fun st => { st with owner }

/-- What is done to a coroutine if it is a fiber's. -/
def ifFiber (who : Option Nat) (g : VmState B C → Nat → VmState B C) : VmState B C :=
  match who with
  | some f => g s f
  | none => s

/-- `save_fiber_context`; `none` is the task's root. -/
def saveFiberContext (who : Option Nat) : VmState B C :=
  match who with
  | none => { s with context := default, mainSaved := s.context }
  | some f => { s with context := default }.modifyFiber f fun st => { st with context := s.context }

/-- `load_fiber_context`. -/
def loadFiberContext (who : Option Nat) : VmState B C :=
  match who with
  | none => { s with context := s.mainSaved, mainSaved := default }
  | some f =>
    { s with context := (s.fibers[f]?.map NativeFiberState.context).getD default }.modifyFiber f
      fun st => { st with context := default }

/-- The first activation of a fiber starts its block. -/
def activate (f : Nat) (started : Bool) : VmState B C :=
  match started, s.fibers[f]? with
  | false, some st =>
    { s with context := startBlock st.block s.context }.modifyFiber f
      fun st => { st with started := true }
  | _, _ => s

/-- A fiber that is now the current one goes on, in this task. -/
def enterFiber (f : Nat) (started : Bool) : VmState B C :=
  let s := s.loadFiberContext (some f)
  let s := s.activate startBlock f started
  let s := s.setFiberStatus f .running
  s.setFiberOwner f (some s.currentTask)

/-- `do_resume_switch`. -/
def doResumeSwitch (f : Nat) : VmState B C :=
  let outgoing := s.currentFiber
  let s := s.saveFiberContext outgoing
  let s := s.ifFiber outgoing fun s of => s.setFiberStatus of .suspended
  let s := { s with resumeStack := outgoing :: s.resumeStack, currentFiber := some f }
  s.enterFiber startBlock f ((s.fibers[f]?.map NativeFiberState.started).getD true)

/-- The coroutine that resumed the running one goes on. -/
def backToResumer : VmState B C :=
  let resumer := s.resumeStack.head?.join
  let s := { s with resumeStack := s.resumeStack.tail, currentFiber := resumer }
  let s := s.loadFiberContext resumer
  s.ifFiber resumer fun s rf => s.setFiberStatus rf .running

/-- `do_yield_switch`. -/
def doYieldSwitch : VmState B C :=
  let outgoing := s.currentFiber
  let s := s.saveFiberContext outgoing
  let s := s.ifFiber outgoing fun s of => (s.setFiberStatus of .suspended).setFiberOwner of none
  s.backToResumer

/-- `do_fiber_done`. -/
def doFiberDone (ok : Bool) : VmState B C :=
  let s := s.ifFiber s.currentFiber fun s finished =>
    (s.setFiberStatus finished (if ok then .done else .failed)).setFiberOwner finished none
  { s with context := default }.backToResumer

/-- The checks of `fiber_resume`: a fiber that has ended, that is running here or that another
task is in is refused. -/
def resumable (f : Nat) : Bool :=
  match s.fibers[f]? with
  | some st =>
    !st.status.isTerminated && s.currentFiber != some f && !s.resumeStack.contains (some f) &&
      (st.owner.isNone || st.owner == some s.currentTask)
  | none => false

/-! ## Switching tasks -/

/-- `save_task_context`. -/
def saveTaskContext (tid : Nat) : VmState B C :=
  match s.task? tid with
  | some t =>
    { s with
      context := default, currentFiber := none, resumeStack := [], mainSaved := default
      loaded := false }.setTask tid (some { t with
        context := s.context, currentFiber := s.currentFiber, resumeStack := s.resumeStack
        savedRoot := s.mainSaved, nativeReentryDepth := s.nativeReentryDepth })
  | none => s

/-- `load_task_context`. -/
def loadTaskContext (tid : Nat) : VmState B C :=
  match s.task? tid with
  | some t =>
    if t.started then
      { s with
        currentTask := tid, context := t.context, currentFiber := t.currentFiber
        resumeStack := t.resumeStack, mainSaved := t.savedRoot
        nativeReentryDepth := t.nativeReentryDepth, loaded := true }.setTask tid (some { t with
          context := default, currentFiber := none, resumeStack := [], savedRoot := default })
    else
      { s with
        currentTask := tid, context := (t.block.map (startBlock · default)).getD default
        currentFiber := none, resumeStack := [], mainSaved := default
        nativeReentryDepth := 0, loaded := true }.setTask tid (some { t with started := true })
  | none => s

/-- `new_child_task`. -/
def newChildTask (block : B) : Task B C :=
  ⟨some block, false, default, none, [], default, 0, 0⟩

/-- `alloc_task`: the first free slot, or a new one. -/
def allocTask (task : Task B C) : VmState B C :=
  match s.tasks.findIdx? Option.isNone with
  | some i => s.setTask i (some task)
  | none => { s with tasks := s.tasks ++ [some task] }

/-- `complete_child`, `complete_detached` and the end of the main task: the slot is free. -/
def completeCurrentTask : VmState B C := { s.setTask s.currentTask none with loaded := false }

/-- `install_main_task`: the sole task, which is running. -/
def installMainTask : VmState B C :=
  { s with
    tasks := [some ⟨none, true, default, none, [], default, 0, 0⟩], currentTask := 0
    loaded := true }

/-- `begin_repl_line`, with `reset_scheduler`: what was running is forgotten. -/
def beginReplLine (context : C) : VmState B C :=
  { s with
    context, currentFiber := none, resumeStack := [], mainSaved := default
    nativeReentryDepth := 0 }.installMainTask

/-! ## Native calls -/

/-- `MAX_NATIVE_REENTRY`. -/
def maxNativeReentry : Nat := 12

/-- The text of the `StackExhausted` that is raised at the ceiling. -/
def tooDeep : String :=
  "native call recursion too deep (> " ++ toString maxNativeReentry ++ "): a custom " ++
    "==:/hash/comparator/render hook is re-entering a native operation without bound"

/-- `enter_native_reentry`. -/
def enterNativeReentry : Except String (VmState B C) :=
  if s.nativeReentryDepth ≥ maxNativeReentry then .error tooDeep
  else .ok { s with nativeReentryDepth := s.nativeReentryDepth + 1 }

/-- The number of `call_method` activations on the native stack of a task's root or of a fiber. -/
def nestedAt (tid : Nat) (who : Option Nat) : Nat :=
  match who with
  | none => ((s.task? tid).map Task.nested).getD 0
  | some f => (s.fibers[f]?.map NativeFiberState.nested).getD 0

/-- That of the running coroutine. -/
def nested : Nat := s.nestedAt s.currentTask s.currentFiber

/-- An activation comes or goes. -/
def setNested (n : Nat) : VmState B C :=
  match s.currentFiber with
  | none => s.setTask s.currentTask ((s.task? s.currentTask).map fun t => { t with nested := n })
  | some f => s.modifyFiber f fun st => { st with nested := n }

end VmState

/-! ## Steps -/

/-- What can happen next. -/
inductive Act (B C : Type) where
  /-- The running coroutine goes on. -/
  | run (context : C)
  /-- It calls `call_method` (or `call_method_value`). -/
  | callMethod
  /-- Its innermost `call_method` returns, with a value or an error. -/
  | returns
  | newFiber (block : B)
  | resume (f : Nat)
  | yield
  /-- A fiber's coroutine ends, with a value or an error. -/
  | fiberDone (ok : Bool)
  | spawn (block : B)
  /-- The task parks, or is preempted. -/
  | park
  | load (tid : Nat)
  /-- A task's root coroutine ends. -/
  | taskDone
  /-- A new line of the REPL. -/
  | replLine (context : C)

variable {B C : Type} [Inhabited C] (startBlock : B → C → C)

open VmState in
def step (s : VmState B C) : Act B C → Option (VmState B C)
  | .run context => if s.loaded then some { s with context } else none
  | .callMethod =>
    if s.loaded then
      match s.enterNativeReentry with
      | .ok s' => some (s'.setNested (s.nested + 1))
      | .error _ => some s
    else none
  | .returns =>
    if s.loaded ∧ 0 < s.nested then
      -- `saturating_sub`
      some ({ s with nativeReentryDepth := s.nativeReentryDepth - 1 }.setNested (s.nested - 1))
    else none
  | .newFiber block =>
    if s.loaded then
      some { s with fibers := s.fibers ++ [⟨block, .created, false, default, none, 0⟩] }
    else none
  | .resume f => if s.loaded ∧ s.resumable f then some (s.doResumeSwitch startBlock f) else none
  | .yield => if s.loaded ∧ s.currentFiber.isSome then some s.doYieldSwitch else none
  | .fiberDone ok =>
    if s.loaded ∧ s.currentFiber.isSome ∧ s.nested = 0 then some (s.doFiberDone ok) else none
  | .spawn block => if s.loaded then some (s.allocTask (newChildTask block)) else none
  | .park => if s.loaded then some (s.saveTaskContext s.currentTask) else none
  | .load tid =>
    if ¬s.loaded ∧ (s.task? tid).isSome then some (s.loadTaskContext startBlock tid) else none
  | .taskDone =>
    if s.loaded ∧ s.currentFiber = none ∧ s.nested = 0 then some s.completeCurrentTask else none
  | .replLine context => some (s.beginReplLine context)

/-- A program's main task, about to run. -/
def init (context : C) : VmState B C :=
  ({ context, nativeReentryDepth := 0, tasks := [], currentTask := 0, currentFiber := none
     resumeStack := [], mainSaved := default, fibers := [], loaded := false } :
    VmState B C).installMainTask

end Quoin.Fibers
