import Mathlib
import Quoin.Control.Dispatch

/-!
# Quoin — the dispatch loops

`run_dispatch` is called by the driver, with a budget of instructions, again and
again; `run_nested` is started by native code, inside an instruction. Both hold the
bytecode they execute from, and the number of frames there were when they took it,
and take it anew only where that number has changed. `step_internal` takes it anew
for each instruction.

The machine makes the Rust stack explicit. Innermost first, its activations are
nested loops, and pieces of native code that wait for what they asked for; the
outermost activation is the driver's `run_dispatch`.
-/

namespace Quoin.Control

open Trans

variable (T : Sig)

abbrev Bytecode := List (Instruction T)

/-- `cached_len` and `bytecode`, the locals of a loop; none before its first instruction. -/
abbrev Cache := Option (Nat × Bytecode T)

/-- An instruction, if there was one, and the VM in which its execution began. -/
structure Executing where
  before : VmState T
  inst : Option (Instruction T)

/-- An activation of `run_nested`. -/
structure Loop where
  initialFrameCount : Nat
  context : String
  /-- Whether it has executed an instruction. -/
  entered : Bool
  cache : Cache T
  executing : Option (Executing T)

/-- An activation on the Rust stack: a loop, or code that waits for a request, with the number of
frames at the time it asked. -/
inductive Activation where
  | loop (l : Loop T)
  | waiting (q : Request T) (frames : Nat)
      (k : Result T → VmState T → Resume (Request T) (Result T) (VmState T) (Result T))

/-- The driver's `run_dispatch`: the calls made so far, and the locals of the present one. -/
structure Driver where
  calls : Nat
  steps : Nat
  cache : Cache T
  executing : Option (Executing T)

inductive Mode where
  /-- The innermost loop is at its head. -/
  | looping
  /-- A request is about to be run, and the innermost activation waits for it. -/
  | performing (q : Request T)
  /-- A result is being handed to the innermost activation. -/
  | returning (r : Result T)
  /-- The driver has stopped with a result. -/
  | stopped (r : Result T)

structure Config where
  vm : VmState T
  activations : List (Activation T)
  driver : Driver T
  mode : Mode T
  /-- The iterations made so far. -/
  clock : Nat
  /-- The instructions executed so far, the last first. -/
  executed : List (Executing T)

/-- What the other tasks do while this one is suspended: the heap changes, and it may be
cancelled. -/
abbrev Others := Nat → T.W → T.W × Bool

variable {T}

/-- The bytecode a loop executes from, `f` being the top frame. -/
abbrev Fetch (T : Sig) := Cache T → VmState T → Frame T → Bytecode T

/-- The one it holds, if the number of frames is the same. -/
def hoisted : Fetch T := fun cache vm f =>
  match cache with
  | some (len, bytecode) => if vm.frames.length = len then bytecode else f.block.bytecode
  | none => f.block.bytecode

/-- `step_internal`. -/
def refetched : Fetch T := fun _ _ f => f.block.bytecode

variable (h : Host T)

/-- Goes on with what a piece of Rust code has come to: its result, or what it asks for. -/
def Config.settle (c : Config T) :
    Resume (Request T) (Result T) (VmState T) (Result T) → Config T
  | .done r vm => { c with vm, mode := .returning r }
  | .ask (.nested site n context) vm k =>
    { c with
      vm
      activations := .loop ⟨n, context, false, none, none⟩ ::
        .waiting (.nested site n context) n k :: c.activations
      mode := .looping }
  | .ask q vm k =>
    { c with
      vm
      activations := .waiting q vm.frames.length k :: c.activations
      mode := .performing q }

/-- The instruction `f`, the top frame, is about to execute. -/
def nextInstruction (vm : VmState T) (f : Frame T) (bytecode : Bytecode T) : Executing T :=
  ⟨vm, bytecode[f.ip]?⟩

def VmState.atDepth (depth : Nat) (vm : VmState T) : VmState T := { vm with depth }

/-- Executes an instruction of the bytecode. -/
def Config.dispatch (c : Config T) (f : Frame T) (bytecode : Bytecode T) : Config T :=
  { c with executed := nextInstruction c.vm f bytecode :: c.executed }.settle
    ((dispatchOne h bytecode f).run (c.vm.atDepth c.activations.length))

/-- `take_cancellation`. -/
def takeCancellation (vm : VmState T) : VmState T := { vm with cancelCurrent := false }

/-- The head of a nested loop. -/
def Config.turn (fetch : Fetch T) (c : Config T) (l : Loop T) (rest : List (Activation T)) :
    Config T :=
  if c.vm.frames.length ≤ l.initialFrameCount then
    { c with activations := rest, mode := .returning (.ok .running) }
  else if c.vm.cancelCurrent then
    { c with
      vm := takeCancellation c.vm
      activations := rest
      mode := .returning (.error (.fault .cancelled)) }
  else
    match c.vm.frames with
    | [] => c
    | f :: _ =>
      let bytecode := fetch l.cache c.vm f
      { c with
        activations := .loop
          { l with
            entered := true
            cache := some (c.vm.frames.length, bytecode)
            executing := some (nextInstruction c.vm f bytecode) } :: rest }.dispatch h f bytecode

/-- The head of the driver's loop. -/
def Config.driverTurn (fetch : Fetch T) (c : Config T) : Config T :=
  if c.vm.cancelCurrent then
    { c with
      vm := takeCancellation c.vm
      mode := .stopped (.error (.fault .cancelled)) }
  else
    match c.vm.frames with
    | [] =>
      { c with
        vm := { c.vm with stack := c.vm.stack.tail }
        mode := .stopped (.ok (.finished (c.vm.stack.head?.getD h.nil))) }
    | f :: _ =>
      let bytecode := fetch c.driver.cache c.vm f
      { c with
        driver :=
          { c.driver with
            cache := some (c.vm.frames.length, bytecode)
            executing := some (nextInstruction c.vm f bytecode) } }.dispatch h f bytecode

/-- `nlr_must_propagate`. A `^^` on its way to a compiled method goes on from every loop. -/
def nlrMustPropagate (vm : VmState T) (baseline : Nat) : Bool :=
  decide (vm.frames.length < baseline) || vm.nlrTarget.isSome

/-- What a nested loop does with the result of an instruction. -/
def Config.receive (c : Config T) (l : Loop T) (rest : List (Activation T)) :
    Result T → Config T
  | .ok .running => { c with mode := .looping }
  | .error .nonLocalReturn =>
    if nlrMustPropagate c.vm l.initialFrameCount then
      { c with activations := rest, mode := .returning (.error .nonLocalReturn) }
    else { c with mode := .looping }
  | .ok (.finished _) => { c with activations := rest, mode := .returning (.ok .running) }
  | .ok (.yeeted v) =>
    { c with
      activations := rest
      mode := .returning (.error (.fault (.other (h.uncaught l.context v)))) }
  | .error (.fault f) =>
    { c with activations := rest, mode := .returning (.error (.fault f)) }

/-- The errors `run_dispatch` gives the driver: all but a cancellation and an exit tell where
they were raised. -/
def annotated (vm : VmState T) : Fault T → Fault T
  | .other e => h.annotate (.other e) vm
  | f => f

/-- What `run_dispatch` does with the result of an instruction: it counts it, and when the budget
is spent returns; the driver calls it again. -/
def Config.driverReceive (budget : Nat → Nat) (c : Config T) : Result T → Config T
  | .ok .running | .error .nonLocalReturn =>
    if budget c.driver.calls ≤ c.driver.steps + 1 then
      { c with
        mode := .looping
        driver := { c.driver with calls := c.driver.calls + 1, steps := 0, cache := none } }
    else
      { c with mode := .looping, driver := { c.driver with steps := c.driver.steps + 1 } }
  | .ok status => { c with mode := .stopped (.ok status) }
  | .error (.fault f) =>
    { c with mode := .stopped (.error (.fault (annotated h c.vm f))) }

/-- What has happened while the task was suspended. -/
def Config.resumed (others : Others T) (c : Config T) : Config T :=
  { c with
    clock := c.clock + 1
    vm :=
      { c.vm with
        world := (others c.clock c.vm.world).1
        cancelCurrent := c.vm.cancelCurrent || (others c.clock c.vm.world).2 } }

/-- A step of the machine. A loop at its head may have been suspended just before. -/
def Config.step (fetch : Fetch T) (budget : Nat → Nat) (others : Others T) (c : Config T) :
    Config T :=
  match c.mode, c.activations with
  | .looping, .loop l :: rest => (c.resumed others).turn h fetch l rest
  | .looping, [] => (c.resumed others).driverTurn h fetch
  | .looping, .waiting .. :: _ => c
  | .performing q, _ => c.settle ((perform h q).run (c.vm.atDepth c.activations.length))
  | .returning r, .loop l :: rest => c.receive h l rest r
  | .returning r, .waiting _ _ k :: rest =>
    { c with activations := rest }.settle (k r (c.vm.atDepth rest.length))
  | .returning r, [] => c.driverReceive h budget r
  | .stopped _, _ => c

/-- Batched dispatch: the driver calls `run_dispatch` with these budgets, one after the other. -/
def Config.batched (budget : Nat → Nat) (others : Others T) (n : Nat) (c : Config T) : Config T :=
  (Config.step h hoisted budget others)^[n] c

/-- Single stepping: the driver calls `step` for each instruction, and every loop takes the
bytecode of the top frame. -/
def Config.single (others : Others T) (n : Nat) (c : Config T) : Config T :=
  (Config.step h refetched (fun _ => 1) others)^[n] c

/-- The instruction the innermost activation is executing, if it is a loop. -/
def Config.current (c : Config T) : Option (Executing T) :=
  match c.activations with
  | .loop l :: _ => l.executing
  | .waiting .. :: _ => none
  | [] => c.driver.executing

end Quoin.Control
