import Quoin.Channel.State
import Quoin.Trans.Ghosts

/-!
# Quoin — the owning VM

The operations of `runtime/channel.rs` on the VM that has the channels. Tasks
run one at a time and give way only where they park, so an operation up to its
park is one step, and what is left of it after the park (`resumePark`) belongs
to the step that resumes the task. The driver may pick any task that is not
parked.
-/

namespace Quoin.Channel

open Trans

/-- The channel operation a task of the owning VM is suspended in. -/
inductive Park (V : Type) where
  | send (chan : ChanId) (value : Item V)
  | recv (chan : ChanId)
deriving DecidableEq

structure Owner (V : Type) where
  sched : Sched (Park V) V := {}
  chans : List (NativeChannelState V) := []
  /-- The pin table: which channel is rooted under an id. -/
  hosted : HostedId → Option ChanId := fun _ => none
  /-- The worker link's outbound relay lane. -/
  out : List (ChanFrame V) := []
  ledger : Ledger V := {}

variable {V : Type}

namespace Owner

/-! ## Single changes -/

def withChan (o : Owner V) (c : ChanId)
    (f : NativeChannelState V → NativeChannelState V) : Owner V :=
  { o with chans := o.chans.modify c f }

def pushBack (o : Owner V) (c : ChanId) (v : Item V) : Owner V :=
  o.withChan c fun ch => { ch with buffer := ch.buffer ++ [v] }

def pushFront (o : Owner V) (c : ChanId) (v : Item V) : Owner V :=
  o.withChan c fun ch => { ch with buffer := v :: ch.buffer }

def chanEmit (o : Owner V) (frame : ChanFrame V) : Owner V :=
  { o with out := o.out ++ [frame] }

def wakeChannelTask (o : Owner V) (t : TaskId) (w : Wake V) : Owner V :=
  { o with sched := o.sched.wakeChannelTask t w }

def park (o : Owner V) (t : TaskId) (p : Park V) : Owner V :=
  { o with sched := o.sched.park t p }

def takeCancellation (o : Owner V) (t : TaskId) : Owner V :=
  { o with sched := o.sched.takeCancellation t }

def currentParkEpoch (o : Owner V) (me : TaskId) : Epoch :=
  ((o.sched.task? me).map Task.parkEpoch).getD 0

def issue (o : Owner V) (v : Item V) : Owner V :=
  { o with ledger.issued := v :: o.ledger.issued }

def accept (o : Owner V) (v : Item V) : Owner V :=
  { o with ledger.accepted := v :: o.ledger.accepted }

def receive (o : Owner V) (c : ChanId) (v : Item V) : Owner V :=
  { o with ledger.received := (c, v) :: o.ledger.received }

def sendDone (o : Owner V) (v : Item V) (outcome : Outcome) : Owner V :=
  { o with ledger.done := (v, outcome) :: o.ledger.done }

/-! ## Waiters -/

/-- Remote entries are always live. -/
def recvLive (o : Owner V) : RecvWaiter → Bool
  | .localTask t epoch => o.sched.channelWaiterLive t epoch
  | .remoteOp _ => true

def sendLive (o : Owner V) : SendWaiter V → Bool
  | .localTask t epoch _ => o.sched.channelWaiterLive t epoch
  | .remoteOp _ _ => true

/-- Pop the next live parked receiver. -/
def popLiveRecv (o : Owner V) (c : ChanId) : Option RecvWaiter × Owner V :=
  match o.chans[c]? with
  | none => (none, o)
  | some ch =>
    let (popped, rest) := popLive o.recvLive ch.recvWaiters
    (popped, o.withChan c fun ch => { ch with recvWaiters := rest })

/-- Pop the next live parked sender with its value. The values of ghosts are discarded. -/
def popLiveSend (o : Owner V) (c : ChanId) : Option (SendWaiter V) × Owner V :=
  match o.chans[c]? with
  | none => (none, o)
  | some ch =>
    let (popped, rest) := popLive o.sendLive ch.sendWaiters
    (popped, o.withChan c fun ch => { ch with sendWaiters := rest })

/-- A promoted sender's completion: wake a local task, ack a remote operation. Its value
has been taken. -/
def completeSend (o : Owner V) : SendWaiter V → Owner V
  | .localTask t _ v => (o.accept v).wakeChannelTask t .channelSendOk
  | .remoteOp corr v => (o.accept v).chanEmit (.ack corr)

variable [Portable V]

/-- Hand a value to a popped receiver: a wake, or a frame. A value that cannot cross goes
to the front of the buffer instead. -/
def deliverToRecv (o : Owner V) (c : ChanId) (popped : RecvWaiter) (v : Item V) : Owner V :=
  match popped with
  | .localTask t _ => o.wakeChannelTask t (.channelRecv v)
  | .remoteOp corr =>
    match Portable.crossError v.value with
    | none => o.chanEmit (.value corr v)
    | some e =>
      (o.chanEmit (.recvError corr
        s!"the received value cannot cross to the remote endpoint: {e}")).pushFront c v

/-- Re-deliver a value whose receiver was cancelled: to the next live receiver, else to
the front of the buffer, even beyond its capacity. -/
def channelRedeliver (o : Owner V) (c : ChanId) (v : Item V) : Owner V :=
  match o.popLiveRecv c with
  | (some popped, o) => o.deliverToRecv c popped v
  | (none, o) => o.pushFront c v

/-! ## Sending, receiving, closing -/

/-- Whether the buffer has room, as a send finds it. -/
def hasRoom (o : Owner V) (c : ChanId) : Bool :=
  (o.chans[c]?).any fun ch => ch.buffer.length < ch.cap

/-- Hand the value to a waiting receiver, else buffer it if there is room; otherwise the
channel does not take it. -/
def offer (o : Owner V) (c : ChanId) (v : Item V) : Bool × Owner V :=
  match o.popLiveRecv c with
  | (some popped, o) => (true, (o.accept v).deliverToRecv c popped v)
  | (none, o) => if o.hasRoom c then (true, (o.accept v).pushBack c v) else (false, o)

def channelSend (o : Owner V) (me : TaskId) (c : ChanId) (v : Item V) : Owner V :=
  match o.chans[c]? with
  | none => o
  | some ch =>
    if ch.closed then o.sendDone v (.raised "send on a closed channel") else
    -- a shipped channel has remote receivers: every value must be able to cross
    match if ch.ship.isSome then Portable.crossError v.value else none with
    | some e => o.sendDone v
        (.raised s!"this channel has remote endpoints; values must be portable: {e}")
    | none =>
      match o.offer c v with
      | (true, o) => o.sendDone v .sent
      | (false, o) =>
        let waiter := .localTask me (o.currentParkEpoch me) v
        (o.withChan c fun ch => { ch with sendWaiters := ch.sendWaiters ++ [waiter] }).park me
          (.send c v)

/-- The value a receive finds: the head of the buffer, with a parked sender moved into
the freed slot, else that of a parked sender. -/
def takeValue (o : Owner V) (c : ChanId) : Option (Item V) × Owner V :=
  match (o.chans[c]?).bind fun ch => ch.buffer.head? with
  | some v =>
    let o := o.withChan c fun ch => { ch with buffer := ch.buffer.tail }
    match o.popLiveSend c with
    | (some popped, o) => (some v, (o.pushBack c popped.value).completeSend popped)
    | (none, o) => (some v, o)
  | none =>
    match o.popLiveSend c with
    | (some popped, o) => (some popped.value, o.completeSend popped)
    | (none, o) => (none, o)

def channelRecv (o : Owner V) (me : TaskId) (c : ChanId) : Owner V :=
  match o.takeValue c with
  | (some v, o) => o.receive c v
  | (none, o) =>
    -- a closed channel is done: the receive answers nil
    if (o.chans[c]?).all NativeChannelState.closed then o else
    let waiter := .localTask me (o.currentParkEpoch me)
    (o.withChan c fun ch => { ch with recvWaiters := ch.recvWaiters ++ [waiter] }).park me
      (.recv c)

/-- Who is parked, without the value. -/
def parked : SendWaiter V → RecvWaiter
  | .localTask t epoch _ => .localTask t epoch
  | .remoteOp corr _ => .remoteOp corr

/-- Everyone parked on the channel: receivers first. -/
def woken (ch : NativeChannelState V) : List RecvWaiter :=
  ch.recvWaiters ++ ch.sendWaiters.map parked

def wakeClosed (o : Owner V) : RecvWaiter → Owner V
  | .localTask t epoch =>
    if o.sched.channelWaiterLive t epoch then o.wakeChannelTask t .channelClosed else o
  | .remoteOp corr => o.chanEmit (.closedFor corr)

def channelClose (o : Owner V) (c : ChanId) : Owner V :=
  match o.chans[c]? with
  | none => o
  | some ch =>
    (woken ch).foldl wakeClosed
      (o.withChan c fun ch => { ch with closed := true, recvWaiters := [], sendWaiters := [] })

/-! ## Resuming -/

/-- The wake says that the channel took the value. -/
def taken : Option (Wake V) → Bool
  | some .channelSendOk => true
  | _ => false

/-- What `channel_park` does with the wake of a cancelled task: a value handed to it must
not vanish. -/
def redeliverWake (o : Owner V) (c : ChanId) : Option (Wake V) → Owner V
  | some (.channelRecv v) => o.channelRedeliver c v
  | _ => o

/-- The rest of a send or a receive, after its park. A pending cancel comes first. -/
def resumePark (o : Owner V) (t : TaskId) (p : Park V) (wake : Option (Wake V))
    (cancelled : Bool) : Owner V :=
  match p with
  | .send c v =>
    if cancelled then
      ((o.redeliverWake c wake).takeCancellation t).sendDone v (.cancelled (taken wake))
    else
      match wake with
      | some .channelSendOk => o.sendDone v .sent
      | some .channelClosed => o.sendDone v (.raised "send on a closed channel")
      | some (.channelRecv _) => o.sendDone v (.raised "channel send resumed as a receive")
      | _ => o.sendDone v (.raised "channel park resumed without a result")
  | .recv c =>
    if cancelled then (o.redeliverWake c wake).takeCancellation t
    else
      match wake with
      | some (.channelRecv v) => o.receive c v
      -- closed: the receive answers nil; any other wake raises
      | _ => o

/-! ## Steps -/

inductive Action (V : Type) where
  | newChannel (cap : Nat)
  | spawn
  | complete (task : TaskId)
  /-- The driver makes the task current, and it goes on where it was suspended. -/
  | load (task : TaskId)
  | cancel (task : TaskId)
  | send (task : TaskId) (chan : ChanId) (value : V)
  | recv (task : TaskId) (chan : ChanId)
  | close (task : TaskId) (chan : ChanId)
deriving DecidableEq

def load (o : Owner V) (t : TaskId) : Option (Owner V) :=
  match o.sched.task? t with
  | none => none
  | some task =>
    if task.parkedOnChannel then none else
    let o := { o with sched := o.sched.loadTaskContext t }
    match task.park with
    | none => some o
    | some p => some (o.resumePark t p task.wake task.cancelRequested)

/-- The next send of this VM. -/
def newItem (o : Owner V) (c : ChanId) (v : V) : Item V :=
  { side := .owner, number := o.ledger.issued.length, chan := c, value := v }

/-- One step of the owning VM's tasks. -/
def step (o : Owner V) : Action V → Option (Owner V)
  | .newChannel cap => some { o with chans := o.chans ++ [{ cap }] }
  | .spawn => some { o with sched := o.sched.allocTask }
  | .complete t => (o.sched.running t).map fun _ => { o with sched := o.sched.complete t }
  | .load t => o.load t
  | .cancel t => some { o with sched := o.sched.requestCancel t }
  | .send me c v =>
    if (o.sched.running me).isSome && c < o.chans.length then
      let item := o.newItem c v
      some ((o.issue item).channelSend me c item)
    else none
  | .recv me c =>
    if (o.sched.running me).isSome && c < o.chans.length then some (o.channelRecv me c) else none
  | .close me c => (o.sched.running me).map fun _ => o.channelClose c

end Owner

end Quoin.Channel
