import Mathlib

/-!
# Quoin — channels and the tasks parked on them

The data of `runtime/channel.rs` and `runtime/channel_relay.rs`: a channel's
buffer and waiter queues, the frames that cross a worker link, and what the
scheduler keeps of a task that parks on a channel. A value is modelled as an
`Item`: the value together with the send it came from, so that two sends of
equal values are told apart. That mark, the channel written on it and the
`Ledger` are read by no function of the program.

A task that parks is suspended in the middle of a channel operation; its `park`
says in which one, and so what is left to do when it is resumed.
-/

namespace Quoin.Channel

abbrev TaskId := Nat
abbrev Epoch := Nat

/-- A channel object of the owning VM. -/
abbrev ChanId := Nat

/-- The id a channel is rooted under in `hosted`: the `chan` of a frame. -/
abbrev HostedId := Nat

/-- The correlation id of a relayed operation. -/
abbrev Corr := Nat

/-- A relay endpoint object of the remote VM. -/
abbrev EndpointId := Nat

/-- `value_to_wire`: why a value cannot cross to another isolate, if it cannot. What the link itself
may refuse is left out: the decoder of a process link ends the link at a value nested deeper than 64
levels, and no link ends in this model. -/
class Portable (V : Type) where
  crossError : V → Option String

/-- An integer crosses. -/
instance : Portable Int where
  crossError _ := none

/-- The VM a send was made in. -/
inductive Side where
  | owner
  | remote
deriving DecidableEq

/-- A value and the send it came from. -/
structure Item (V : Type) where
  side : Side
  /-- The number of the send among those of its VM. -/
  number : Nat
  /-- The channel it was sent on. -/
  chan : ChanId
  value : V
deriving DecidableEq

/-! ## Tasks -/

/-- What a suspended task is resumed with. -/
inductive Wake (V : Type) where
  | channelRecv (value : Item V)
  | channelSendOk
  | channelClosed
  | channelErr (message : String)
deriving DecidableEq

/-- A task, suspended in `park` if it is suspended. -/
structure Task (P V : Type) where
  parkEpoch : Epoch := 0
  parkedOnChannel : Bool := false
  cancelRequested : Bool := false
  wake : Option (Wake V) := none
  park : Option P := none
deriving DecidableEq

/-- The task slots; `none` is a free one. -/
structure Sched (P V : Type) where
  tasks : List (Option (Task P V)) := []
  parkSeq : Nat := 0
deriving DecidableEq

namespace Sched

variable {P V : Type}

def task? (s : Sched P V) (t : TaskId) : Option (Task P V) := s.tasks[t]?.join

def setTask (s : Sched P V) (t : TaskId) (task : Option (Task P V)) : Sched P V :=
  { s with tasks := s.tasks.set t task }

def modifyTask (s : Sched P V) (t : TaskId) (f : Task P V → Task P V) : Sched P V :=
  match s.task? t with
  | some task => s.setTask t (some (f task))
  | none => s

/-- The task, if it is not suspended and has been loaded before. -/
def running (s : Sched P V) (t : TaskId) : Option (Task P V) :=
  (s.task? t).filter fun task => task.park.isNone && 0 < task.parkEpoch

/-- `channel_waiter_live`: still parked at the epoch the entry was queued with,
and not cancelled. -/
def channelWaiterLive (s : Sched P V) (t : TaskId) (epoch : Epoch) : Bool :=
  (s.task? t).any fun task =>
    task.parkedOnChannel && task.parkEpoch == epoch && !task.cancelRequested

def wakeChannelTask (s : Sched P V) (t : TaskId) (w : Wake V) : Sched P V :=
  s.modifyTask t fun task => { task with parkedOnChannel := false, wake := some w }

/-- `channel_park` and `relay_park`, up to the suspension. -/
def park (s : Sched P V) (t : TaskId) (p : P) : Sched P V :=
  s.modifyTask t fun task => { task with parkedOnChannel := true, park := some p }

/-- `request_cancel`: flag the task, and make it runnable if it is parked and not
already woken. Its queue entry stays behind. -/
def requestCancel (s : Sched P V) (t : TaskId) : Sched P V :=
  s.modifyTask t fun task =>
    { task with
      cancelRequested := true
      parkedOnChannel := if task.wake.isSome then task.parkedOnChannel else false }

/-- `load_task_context`: a fresh park epoch, the park flag cleared, the wake taken. The
operation it was suspended in goes on. -/
def loadTaskContext (s : Sched P V) (t : TaskId) : Sched P V :=
  { s with parkSeq := s.parkSeq + 1 }.modifyTask t fun task =>
    { task with
      parkEpoch := s.parkSeq + 1
      parkedOnChannel := false
      wake := none
      park := none }

/-- `take_cancellation`: the cancellation is raised once. -/
def takeCancellation (s : Sched P V) (t : TaskId) : Sched P V :=
  s.modifyTask t fun task => { task with cancelRequested := false }

/-- `alloc_task`: a fresh task in the first free slot. -/
def allocTask (s : Sched P V) : Sched P V :=
  match s.tasks.findIdx? Option.isNone with
  | some i => s.setTask i (some {})
  | none => { s with tasks := s.tasks ++ [some {}] }

/-- A task that has run to its end frees its slot. -/
def complete (s : Sched P V) (t : TaskId) : Sched P V := s.setTask t none

end Sched

/-! ## Channels -/

/-- A parked receiver: a local task, or a pending operation of the remote VM. -/
inductive RecvWaiter where
  | localTask (task : TaskId) (epoch : Epoch)
  | remoteOp (corr : Corr)
deriving DecidableEq

/-- A parked sender with the value it is trying to deliver. -/
inductive SendWaiter (V : Type) where
  | localTask (task : TaskId) (epoch : Epoch) (value : Item V)
  | remoteOp (corr : Corr) (value : Item V)
deriving DecidableEq

def SendWaiter.value {V : Type} : SendWaiter V → Item V
  | .localTask _ _ v | .remoteOp _ v => v

/-- A shipped channel: the id it is rooted under, and how many remote endpoints exist. -/
structure ChanShip where
  id : HostedId
  refs : Nat
deriving DecidableEq

structure NativeChannelState (V : Type) where
  /-- Buffer capacity; `0` is an unbuffered (rendezvous) channel. -/
  cap : Nat
  closed : Bool := false
  buffer : List (Item V) := []
  recvWaiters : List RecvWaiter := []
  sendWaiters : List (SendWaiter V) := []
  ship : Option ChanShip := none
deriving DecidableEq

/-- One channel-relay event crossing the link. -/
inductive ChanFrame (V : Type) where
  /-- endpoint → owner: send `value`. -/
  | send (chan : HostedId) (corr : Corr) (value : Item V)
  /-- owner → endpoint: the send was accepted. -/
  | ack (corr : Corr)
  /-- endpoint → owner: receive a value. -/
  | recv (chan : HostedId) (corr : Corr)
  /-- owner → endpoint: the receive's value. -/
  | value (corr : Corr) (value : Item V)
  /-- owner → endpoint: the operation's channel is closed. -/
  | closedFor (corr : Corr)
  /-- owner → endpoint: the receive failed. -/
  | recvError (corr : Corr) (message : String)
  /-- endpoint → owner: close the channel. -/
  | close (chan : HostedId)
  /-- endpoint → owner: retract a pending operation. -/
  | cancel (chan : HostedId) (corr : Corr)
  /-- endpoint → owner: an endpoint was dropped. -/
  | release (chan : HostedId)
  /-- endpoint → owner: a value delivered to a since-cancelled receiver goes home. -/
  | ret (chan : HostedId) (value : Item V)
deriving DecidableEq

/-! ## The ledger -/

/-- How a send came out. -/
inductive Outcome where
  | sent
  | raised (message : String)
  /-- It raised the cancellation; `taken` if the channel had taken the value before. -/
  | cancelled (taken : Bool)
deriving DecidableEq

/-- What the sends and receives of one VM's tasks came to. -/
structure Ledger (V : Type) where
  issued : List (Item V) := []
  /-- The values the channels took from their senders. -/
  accepted : List (Item V) := []
  /-- The values that receives returned, and on which channel. -/
  received : List (ChanId × Item V) := []
  done : List (Item V × Outcome) := []
deriving DecidableEq

end Quoin.Channel
