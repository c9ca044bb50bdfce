import Quoin.Channel.Owner
import Quoin.Trans.Run

/-!
# Quoin — channels across a worker link

A shipped channel stays with its owner; the other VM holds endpoints whose
operations cross the link as frames and park for the answer. `Owner.applyFrame`
is the owner's side (`channel_apply_owner_frame`), `Remote` the endpoint side
(`runtime/channel_relay.rs`), and `System` the two VMs with one ordered lane
each way. Both lanes may hold any number of frames, and each VM's agent takes
the next one when the driver gets to it. A shipped channel's id travels to the
far side outside the relay lanes, in any order (`crossing`); the link stays up.
-/

namespace Quoin.Channel

variable {V : Type}

/-! ## The owner's side -/

namespace Owner

/-- `channel_ship`: root the channel under a free id, or count one more endpoint. -/
def channelShip (o : Owner V) (c : ChanId) (free : HostedId) : HostedId × Owner V :=
  match (o.chans[c]?).bind NativeChannelState.ship with
  | some ship =>
    (ship.id, o.withChan c fun ch => { ch with ship := some { ship with refs := ship.refs + 1 } })
  | none =>
    (free, { o.withChan c fun ch => { ch with ship := some { id := free, refs := 1 } } with
      hosted := Function.update o.hosted free (some c) })

/-- One endpoint less; the last one unroots the channel. -/
def releaseOne (o : Owner V) (c : ChanId) (id : HostedId) : Owner V :=
  match (o.chans[c]?).bind NativeChannelState.ship with
  | none => o
  | some ship =>
    if ship.refs - 1 = 0 then
      { o.withChan c fun ch => { ch with ship := none } with
        hosted := Function.update o.hosted id none }
    else o.withChan c fun ch => { ch with ship := some { ship with refs := ship.refs - 1 } }

variable [Portable V]

/-- A relayed send: the local send flow, with the remote sender acked instead of woken. -/
def applySend (o : Owner V) (c : ChanId) (corr : Corr) (v : Item V) : Owner V :=
  if (o.chans[c]?).all NativeChannelState.closed then o.chanEmit (.closedFor corr) else
  match o.offer c v with
  | (true, o) => o.chanEmit (.ack corr)
  | (false, o) =>
    o.withChan c fun ch => { ch with sendWaiters := ch.sendWaiters ++ [.remoteOp corr v] }

/-- A relayed receive mirrors `channelRecv`, answering with frames. -/
def applyRecv (o : Owner V) (c : ChanId) (corr : Corr) : Owner V :=
  match o.takeValue c with
  | (some v, o) => o.deliverToRecv c (.remoteOp corr) v
  | (none, o) =>
    if (o.chans[c]?).all NativeChannelState.closed then o.chanEmit (.closedFor corr) else
    o.withChan c fun ch => { ch with recvWaiters := ch.recvWaiters ++ [.remoteOp corr] }

/-- Retract the operation with this correlation. -/
def retract (o : Owner V) (c : ChanId) (corr : Corr) : Owner V :=
  o.withChan c fun ch =>
    { ch with
      recvWaiters := ch.recvWaiters.filter fun
        | .remoteOp corr' => corr' != corr
        | .localTask _ _ => true
      sendWaiters := ch.sendWaiters.filter fun
        | .remoteOp corr' _ => corr' != corr
        | .localTask _ _ _ => true }

/-- `channel_apply_owner_frame`. -/
def applyFrame (o : Owner V) (frame : ChanFrame V) : Owner V :=
  match frame with
  | .send id corr v =>
    match o.hosted id with
    | none => o.chanEmit (.closedFor corr)
    | some c => o.applySend c corr v
  | .recv id corr =>
    match o.hosted id with
    | none => o.chanEmit (.closedFor corr)
    | some c => o.applyRecv c corr
  | .close id => (o.hosted id).elim o o.channelClose
  | .cancel id corr => (o.hosted id).elim o (o.retract · corr)
  | .release id => (o.hosted id).elim o (o.releaseOne · id)
  | .ret id v => (o.hosted id).elim o (o.channelRedeliver · v)
  | .ack _ | .value _ _ | .closedFor _ | .recvError _ _ => o

end Owner

/-! ## The endpoint side -/

/-- A relay endpoint: the id it addresses, and the channel that was shipped. -/
structure NativeRelayChannel where
  chan : HostedId
  /-- Read by no function of the program. -/
  home : ChanId
deriving DecidableEq

/-- The relay operation a task of the remote VM is suspended in. -/
inductive RelayPark (V : Type) where
  | send (endpoint : EndpointId) (parts : NativeRelayChannel) (corr : Corr) (value : Item V)
  | recv (endpoint : EndpointId) (parts : NativeRelayChannel) (corr : Corr)
deriving DecidableEq

def RelayPark.endpoint : RelayPark V → EndpointId
  | .send e _ _ _ | .recv e _ _ => e

def RelayPark.parts : RelayPark V → NativeRelayChannel
  | .send _ parts _ _ | .recv _ parts _ => parts

def RelayPark.corr : RelayPark V → Corr
  | .send _ _ corr _ | .recv _ _ corr => corr

structure PendingChanOp where
  task : TaskId
  epoch : Epoch
  chan : HostedId
deriving DecidableEq

structure Remote (V : Type) where
  sched : Sched (RelayPark V) V := {}
  /-- The endpoint objects; `none` is one that was dropped. -/
  endpoints : List (Option NativeRelayChannel) := []
  pending : Corr → Option PendingChanOp := fun _ => none
  nextCorr : Corr := 1
  /-- Dropped endpoints' channel ids awaiting a `Release` frame. -/
  reap : List HostedId := []
  out : List (ChanFrame V) := []
  ledger : Ledger V := {}

namespace Remote

def chanEmit (r : Remote V) (frame : ChanFrame V) : Remote V :=
  { r with out := r.out ++ [frame] }

def wakeChannelTask (r : Remote V) (t : TaskId) (w : Wake V) : Remote V :=
  { r with sched := r.sched.wakeChannelTask t w }

def park (r : Remote V) (t : TaskId) (p : RelayPark V) : Remote V :=
  { r with sched := r.sched.park t p }

def takeCancellation (r : Remote V) (t : TaskId) : Remote V :=
  { r with sched := r.sched.takeCancellation t }

def issue (r : Remote V) (v : Item V) : Remote V :=
  { r with ledger.issued := v :: r.ledger.issued }

def receive (r : Remote V) (c : ChanId) (v : Item V) : Remote V :=
  { r with ledger.received := (c, v) :: r.ledger.received }

def sendDone (r : Remote V) (v : Item V) (outcome : Outcome) : Remote V :=
  { r with ledger.done := (v, outcome) :: r.ledger.done }

/-- `flush_chan_reap`. -/
def flushChanReap (r : Remote V) : Remote V :=
  { r with out := r.out ++ r.reap.map .release, reap := [] }

/-- `begin_op`: register a pending operation and emit its frame. -/
def beginOp (r : Remote V) (me : TaskId) (chan : HostedId) (make : Corr → ChanFrame V) :
    Remote V :=
  let epoch := ((r.sched.task? me).map Task.parkEpoch).getD 0
  { r with
    nextCorr := r.nextCorr + 1
    pending := Function.update r.pending r.nextCorr (some { task := me, epoch, chan })
    out := r.out ++ [make r.nextCorr] }

def relayRecv (r : Remote V) (me : TaskId) (e : EndpointId) (parts : NativeRelayChannel) :
    Remote V :=
  let r := r.flushChanReap
  (r.beginOp me parts.chan fun corr => .recv parts.chan corr).park me (.recv e parts r.nextCorr)

def relayClose (r : Remote V) (parts : NativeRelayChannel) : Remote V :=
  r.flushChanReap.chanEmit (.close parts.chan)

variable [Portable V]

def relaySend (r : Remote V) (me : TaskId) (e : EndpointId) (parts : NativeRelayChannel)
    (v : Item V) : Remote V :=
  let r := r.flushChanReap
  match Portable.crossError v.value with
  | some err =>
    r.sendDone v (.raised s!"values sent across isolates must be portable: {err}")
  | none =>
    (r.beginOp me parts.chan fun corr => .send parts.chan corr v).park me
      (.send e parts r.nextCorr v)

/-- The rest of a relayed operation, after its park. A pending cancel comes first: a
value already received goes home, an operation without an answer is retracted. -/
def resumePark (r : Remote V) (t : TaskId) (p : RelayPark V) (wake : Option (Wake V))
    (cancelled : Bool) : Remote V :=
  match p with
  | .send _ parts corr v =>
    if cancelled then
      let r := if Owner.taken wake then r else r.chanEmit (.cancel parts.chan corr)
      (r.takeCancellation t).sendDone v (.cancelled (Owner.taken wake))
    else
      match wake with
      | some .channelSendOk => r.sendDone v .sent
      | some .channelClosed => r.sendDone v (.raised "send on a closed channel")
      | some (.channelErr message) => r.sendDone v (.raised message)
      | _ => r.sendDone v (.raised "relay channel send resumed without a result")
  | .recv _ parts corr =>
    if cancelled then
      let r :=
        match wake with
        | some (.channelRecv v) =>
          if (Portable.crossError v.value).isNone then r.chanEmit (.ret parts.chan v) else r
        | _ => r.chanEmit (.cancel parts.chan corr)
      r.takeCancellation t
    else
      match wake with
      | some (.channelRecv v) => r.receive parts.home v
      -- closed: the receive answers nil; any other wake raises
      | _ => r

/-- `resolve_pending`, once the pending operation is found. A value for a cancelled
receiver goes home. -/
def resolveFound (r : Remote V) (p : PendingChanOp) (frame : ChanFrame V) : Remote V :=
  let live := r.sched.channelWaiterLive p.task p.epoch
  match frame with
  | .ack _ => if live then r.wakeChannelTask p.task .channelSendOk else r
  | .value _ v =>
    if live then r.wakeChannelTask p.task (.channelRecv v) else r.chanEmit (.ret p.chan v)
  | .closedFor _ => if live then r.wakeChannelTask p.task .channelClosed else r
  | .recvError _ message => if live then r.wakeChannelTask p.task (.channelErr message) else r
  | _ => r

def resolvePending (r : Remote V) (corr : Corr) (frame : ChanFrame V) : Remote V :=
  match r.pending corr with
  | none => r
  | some p =>
    { r with pending := Function.update r.pending corr none }.resolveFound p frame

/-- One turn of the relay agent. -/
def applyFrame (r : Remote V) (frame : ChanFrame V) : Remote V :=
  let r :=
    match frame with
    | .ack corr | .value corr _ | .closedFor corr | .recvError corr _ =>
      r.resolvePending corr frame
    -- this VM owns no channel of the link
    | _ => r
  r.flushChanReap

def load (r : Remote V) (t : TaskId) : Option (Remote V) :=
  match r.sched.task? t with
  | none => none
  | some task =>
    if task.parkedOnChannel then none else
    let r := { r with sched := r.sched.loadTaskContext t }
    match task.park with
    | none => some r
    | some p => some (r.resumePark t p task.wake task.cancelRequested)

/-- No task is in an operation on the endpoint, whose arguments it would root. -/
def unused (r : Remote V) (e : EndpointId) : Bool :=
  r.sched.tasks.all fun slot =>
    (slot.bind Task.park).all fun p => p.endpoint != e

inductive Action (V : Type) where
  | spawn
  | complete (task : TaskId)
  | load (task : TaskId)
  | cancel (task : TaskId)
  | send (task : TaskId) (endpoint : EndpointId) (value : V)
  | recv (task : TaskId) (endpoint : EndpointId)
  | close (task : TaskId) (endpoint : EndpointId)
  /-- The collector drops an endpoint. -/
  | drop (endpoint : EndpointId)
  /-- The agent's first turn. -/
  | flush
deriving DecidableEq

def newItem (r : Remote V) (c : ChanId) (v : V) : Item V :=
  { side := .remote, number := r.ledger.issued.length, chan := c, value := v }

def step (r : Remote V) : Action V → Option (Remote V)
  | .spawn => some { r with sched := r.sched.allocTask }
  | .complete t => (r.sched.running t).map fun _ => { r with sched := r.sched.complete t }
  | .load t => r.load t
  | .cancel t => some { r with sched := r.sched.requestCancel t }
  | .send me e v =>
    (r.sched.running me).bind fun _ => r.endpoints[e]?.join.map fun parts =>
      let item := r.newItem parts.home v
      (r.issue item).relaySend me e parts item
  | .recv me e =>
    (r.sched.running me).bind fun _ => r.endpoints[e]?.join.map fun parts =>
      r.relayRecv me e parts
  | .close me e =>
    (r.sched.running me).bind fun _ => r.endpoints[e]?.join.map fun parts => r.relayClose parts
  | .drop e =>
    if r.unused e then
      r.endpoints[e]?.join.map fun parts =>
        { r with endpoints := r.endpoints.set e none, reap := r.reap ++ [parts.chan] }
    else none
  | .flush => some r.flushChanReap

end Remote

/-! ## The two VMs -/

structure System (V : Type) where
  owner : Owner V := {}
  remote : Remote V := {}
  /-- Shipped ids the far side has not wrapped yet. -/
  crossing : List NativeRelayChannel := []

namespace System

inductive Action (V : Type) where
  | owner (action : Owner.Action V)
  | remote (action : Remote.Action V)
  /-- A task of the owner sends the channel across; `free` is the slot of the pin table
  it is rooted in if it has none. -/
  | ship (task : TaskId) (chan : ChanId) (free : HostedId)
  /-- The far side wraps a received id. -/
  | arrive (n : Nat)
  /-- The owner's agent applies the next frame. -/
  | ownerAgent
  /-- The remote VM's agent applies the next frame. -/
  | remoteAgent
deriving DecidableEq

variable [Portable V]

def step (s : System V) : Action V → Option (System V)
  | .owner a => (s.owner.step a).map fun o => { s with owner := o }
  | .remote a => (s.remote.step a).map fun r => { s with remote := r }
  | .ship me c free =>
    if (s.owner.sched.running me).isSome && c < s.owner.chans.length &&
        free != 0 && (s.owner.hosted free).isNone then
      let (id, o) := s.owner.channelShip c free
      some { s with owner := o, crossing := s.crossing ++ [{ chan := id, home := c }] }
    else none
  | .arrive n => s.crossing[n]?.map fun parts =>
      { s with
        remote.endpoints := s.remote.endpoints ++ [some parts]
        crossing := s.crossing.eraseIdx n }
  | .ownerAgent =>
    match s.remote.out with
    | [] => none
    | frame :: rest => some { s with owner := s.owner.applyFrame frame, remote.out := rest }
  | .remoteAgent =>
    match s.owner.out with
    | [] => none
    | frame :: rest =>
      some { s with owner.out := rest, remote := s.remote.applyFrame frame }

end System

end Quoin.Channel
