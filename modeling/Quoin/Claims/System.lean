import Quoin.Claims.Table
import Quoin.Trans.Run

/-!
# Quoin — tasks calling actor objects

The tasks around the claim tables: `claim_peer_object` and
`end_peer_call_and_wake` (`runtime/worker_service.rs`), the drain of
`serviceStop` (`drain_lanes`), and the parts of the scheduler they rest on —
park epochs, `channel_waiter_live`, `wake_channel_task`, `request_cancel` and
the reload of a resumed task.

Tasks run one at a time and give way only where they park, so what a task does
between two parks is one step: to call an object, to come back from a park, to
end its innermost call, to stop a service, or to do something else. A call
that is open is in the task's `calls`; a park in the claims layer is its
`park`, the activation that is suspended. Whether a call is nested is not a
choice: it is if the task has a conversation open with that peer.
-/

namespace Quoin.Claims

abbrev PeerId := Nat

/-- Where a task is suspended in the claims layer. -/
inductive Park where
  /-- In `claim_peer_object`, for an object of a peer. -/
  | claim (peer : PeerId) (object : ObjectId) (kind : WaitKind)
  /-- In `drain_lanes`. -/
  | drain (peer : PeerId)
deriving DecidableEq

structure Task where
  parkEpoch : Epoch := 0
  parkedOnChannel : Bool := false
  cancelRequested : Bool := false
  /-- A pending `Wake::ServiceClaim { lane }`. -/
  wake : Option (Option Lane) := none
  park : Option Park := none
  /-- The objects it has claimed and not released, innermost call first. -/
  calls : List (PeerId × ObjectId) := []
deriving DecidableEq

/-- A queue entry of this task made at `epoch` still waits. -/
def Task.liveAt (task : Task) (epoch : Epoch) : Bool :=
  task.parkedOnChannel && task.parkEpoch == epoch && !task.cancelRequested

structure Vm where
  peers : PeerId → PeerClaims
  /-- `io.claim_peers`, in registration order. -/
  registry : List PeerId
  tasks : TaskId → Task
  parkSeq : Nat

namespace Vm

def init : Vm where
  peers := fun _ => PeerClaims.new "" 1
  registry := []
  tasks := fun _ => {}
  parkSeq := 0

def setPeer (vm : Vm) (p : PeerId) (c : PeerClaims) : Vm :=
  { vm with peers := Function.update vm.peers p c }

def setTask (vm : Vm) (t : TaskId) (task : Task) : Vm :=
  { vm with tasks := Function.update vm.tasks t task }

/-! ## The scheduler -/

/-- `channel_waiter_live`: still parked at the epoch the entry was queued with,
and not cancelled. -/
def live (vm : Vm) : Live := fun t epoch => (vm.tasks t).liveAt epoch

def wakeChannelTask (tasks : TaskId → Task) (g : Grant) : TaskId → Task :=
  Function.update tasks g.task
    { tasks g.task with parkedOnChannel := false, wake := some g.lane }

def deliver (tasks : TaskId → Task) (grants : List Grant) : TaskId → Task :=
  grants.foldl wakeChannelTask tasks

/-- `load_task_context`: a fresh park epoch, the park flag cleared, the wake taken. -/
def load (vm : Vm) (t : TaskId) : Vm :=
  { vm with parkSeq := vm.parkSeq + 1 }.setTask t
    { vm.tasks t with parkEpoch := vm.parkSeq + 1, parkedOnChannel := false, wake := none }

/-- `request_cancel`: flag the task, and make it runnable if it is parked and not
already woken. -/
def requestCancel (vm : Vm) (t : TaskId) : Vm :=
  let task := vm.tasks t
  vm.setTask t { task with
    cancelRequested := true
    parkedOnChannel := if task.wake.isNone then false else task.parkedOnChannel }

/-! ## Calls -/

/-- Release one call's claim and deliver the resulting hand-overs. -/
def endPeerCallAndWake (vm : Vm) (p : PeerId) (id : ObjectId) (now : Nat) : Vm :=
  let (c, grants) := (vm.peers p).endCall id vm.live now
  { vm.setPeer p c with tasks := deliver vm.tasks grants }

/-- Nested if the task has a conversation open with the peer. -/
def waitKind (task : Task) (p : PeerId) : WaitKind :=
  if task.calls.any fun call => call.1 == p then .nested else .topLevel

/-- `claim_peer_object` after a `WouldQueue`: raise if parking would close a cycle,
park otherwise. -/
def awaitClaim (vm : Vm) (t : TaskId) (p : PeerId) (id : ObjectId) (label : String)
    (kind : WaitKind) (blocker : Option TaskId) (now : Nat) : Vm :=
  let task := vm.tasks t
  let c := vm.peers p
  let cycle := blocker.bind fun start =>
    wouldDeadlock (vm.registry.map vm.peers) t start s!"{label}#{id}" vm.live
  match cycle with
  | some _ => vm.setPeer p { c with stats.deadlocks := c.stats.deadlocks + 1 }
  | none =>
    (vm.setPeer p (c.enqueue t task.parkEpoch id label kind now)).setTask t
      { task with parkedOnChannel := true, park := some (.claim p id kind) }

/-- `claim_peer_object` up to its park. -/
def claimPeerObject (vm : Vm) (t : TaskId) (p : PeerId) (id : ObjectId) (label : String)
    (now : Nat) : Vm :=
  let task := vm.tasks t
  let kind := waitKind task p
  let (c, decision) := (vm.peers p).tryAcquire t task.parkEpoch id label (kind == .nested)
  let vm := vm.setPeer p c
  match decision with
  | .granted _ | .reentrant => vm.setTask t { task with calls := (p, id) :: task.calls }
  -- raised: re-entered too deeply
  | .tooDeep => vm
  | .wouldQueue blocker => vm.awaitClaim t p id label kind blocker now

/-- The rest of `claim_peer_object`, after its park. -/
def resumeClaim (vm : Vm) (t : TaskId) (p : PeerId) (id : ObjectId) (now : Nat) : Vm :=
  let handed := (vm.tasks t).wake.isSome
  let vm := vm.load t
  let task := { vm.tasks t with park := none }
  if task.cancelRequested then
    -- pass a claim already handed to us onward, or withdraw
    let vm := vm.setTask t task
    let vm :=
      if handed then vm.endPeerCallAndWake p id now
      else vm.setPeer p ((vm.peers p).retract t id)
    vm.setTask t { vm.tasks t with cancelRequested := false }
  else if handed then vm.setTask t { task with calls := (p, id) :: task.calls }
  -- raised: resumed without the claim
  else vm.setTask t task

/-- `drain_lanes` up to its park. -/
def drainLanes (vm : Vm) (t : TaskId) (p : PeerId) : Vm :=
  let task := vm.tasks t
  let (c, drained) := (vm.peers p).requestDrain t task.parkEpoch
  let vm := vm.setPeer p c
  if drained then vm
  else vm.setTask t { task with parkedOnChannel := true, park := some (.drain p) }

/-- The rest of `drain_lanes`, after its park: woken, cancelled or neither, it
returns to its caller, and a pending cancellation is taken. -/
def resumeDrain (vm : Vm) (t : TaskId) : Vm :=
  let vm := vm.load t
  vm.setTask t { vm.tasks t with park := none, cancelRequested := false }

end Vm

/-! ## Steps -/

inductive Action where
  /-- A peer comes up, with its lanes. -/
  | register (p : PeerId) (label : String) (lanes : Nat)
  /-- A running task calls an object. -/
  | call (t : TaskId) (p : PeerId) (id : ObjectId) (label : String) (now : Nat)
  /-- A task parked in the claims layer is runnable and resumed. -/
  | resume (t : TaskId) (now : Nat)
  /-- A running task's innermost call completes. -/
  | endCall (t : TaskId) (now : Nat)
  /-- A running task stops a service. -/
  | drain (t : TaskId) (p : PeerId)
  /-- Somebody cancels a task. -/
  | cancel (t : TaskId)
  /-- A task outside the claims layer parks elsewhere or is resumed from there
  (or its slot is reused by a new task), perhaps taking a pending cancellation. -/
  | elsewhere (t : TaskId) (parked takeCancel : Bool)

namespace Vm

/-- A task that is not parked. -/
def running (vm : Vm) (t : TaskId) : Bool :=
  (vm.tasks t).park.isNone && !(vm.tasks t).parkedOnChannel

def step (vm : Vm) : Action → Option Vm
  | .register p label lanes =>
    if p ∈ vm.registry then none
    else some { vm.setPeer p (PeerClaims.new label lanes) with registry := vm.registry ++ [p] }
  | .call t p id label now =>
    if vm.running t && decide (p ∈ vm.registry) then some (vm.claimPeerObject t p id label now)
    else none
  | .resume t now =>
    if (vm.tasks t).parkedOnChannel then none
    else match (vm.tasks t).park with
      | some (.claim p id _) => some (vm.resumeClaim t p id now)
      | some (.drain _) => some (vm.resumeDrain t)
      | none => none
  | .endCall t now =>
    if vm.running t then
      match (vm.tasks t).calls with
      | (p, id) :: calls =>
        some ((vm.setTask t { vm.tasks t with calls }).endPeerCallAndWake p id now)
      | [] => none
    else none
  | .drain t p =>
    if vm.running t && decide (p ∈ vm.registry) then some (vm.drainLanes t p) else none
  | .cancel t => some (vm.requestCancel t)
  | .elsewhere t parked takeCancel =>
    if (vm.tasks t).park.isNone then
      let vm := vm.load t
      let task := vm.tasks t
      some (vm.setTask t { task with
        parkedOnChannel := parked
        cancelRequested := task.cancelRequested && !takeCancel })
    else none

end Vm

end Quoin.Claims
