import Mathlib

/-!
# Quoin — per-object claims and connection lanes

The claim table of one peer (`runtime/claims.rs`): which task owns which
hosted object, how deep it has re-entered it, who queues behind it, and which
of the peer's lanes are free. The source keeps the module free of the
scheduler — every method is a state transition answering *decisions*
(`Acquire`, `Grant`) its caller maps onto parks and wakes — and so does the
model; the scheduler's side is `Claims/System.lean`.

Task ids, park epochs, object ids and lanes are `Nat`: the table only compares
them. `HashMap`s are partial functions. `freeLanes` lists the `Vec` from its
end, so `pop` and `push` work on the head. A `queued_at: Instant` is a time in
microseconds and every method that reads the clock takes `now`.
-/

namespace Quoin.Claims

abbrev TaskId := Nat
abbrev Epoch := Nat
abbrev ObjectId := Nat
abbrev Lane := Nat

/-- The most deeply one task may re-enter a single object's claim. -/
def maxObjectDepth : Nat := 16

/-- Bound on the waits-for walk. -/
def maxWalk : Nat := 64

inductive WaitKind where
  /-- Wants (object, lane) jointly — holds nothing of this peer while waiting. -/
  | topLevel
  /-- Holds a bound lane (an open conversation); wants the object only. -/
  | nested
deriving DecidableEq

structure Waiter where
  task : TaskId
  epoch : Epoch
  kind : WaitKind
  queuedAt : Nat
deriving DecidableEq

structure ObjectClaim where
  /-- `(task, park_epoch at claim)` of the current holder. -/
  owner : Option (TaskId × Epoch) := none
  depth : Nat := 0
  /-- The lane of the holder's conversation, `none` for a holder granted nested. -/
  ownerLane : Option Lane := none
  label : String := ""
  waiters : List Waiter := []
  /-- Freed while a top-level head waiter had no lane: held for that head. -/
  reserved : Bool := false
deriving DecidableEq

/-- One decision from `tryAcquire`. -/
inductive Acquire where
  | granted (lane : Option Lane)
  | reentrant
  | tooDeep
  | wouldQueue (blocker : Option TaskId)
deriving DecidableEq

/-- One wake decision returned by a release. -/
structure Grant where
  task : TaskId
  epoch : Epoch
  lane : Option Lane
deriving DecidableEq

structure ClaimStats where
  acquisitions : Nat := 0
  contended : Nat := 0
  totalWaitMicros : Nat := 0
  maxWaitMicros : Nat := 0
  queueHighWater : Nat := 0
  maxDepth : Nat := 0
  deadlocks : Nat := 0
deriving DecidableEq

structure PeerClaims where
  label : String
  objects : ObjectId → Option ObjectClaim
  laneCount : Nat
  freeLanes : List Lane
  /-- Objects reserved for their head waiter, oldest first. -/
  readyHeads : List ObjectId
  /-- task → (object, park epoch) it is claim-parked on. -/
  parkedOn : TaskId → Option (ObjectId × Epoch)
  /-- Tasks parked in `serviceStop`, waiting for all lanes to come home. -/
  drainWaiters : List (TaskId × Epoch)
  stats : ClaimStats

/-- Whether a queued `(task, epoch)` still waits. -/
abbrev Live := TaskId → Epoch → Bool

namespace PeerClaims

def new (label : String) (lanes : Nat) : PeerClaims where
  label := label
  objects := fun _ => none
  laneCount := max lanes 1
  freeLanes := List.range (max lanes 1)
  readyHeads := []
  parkedOn := fun _ => none
  drainWaiters := []
  stats := {}

/-! ## The object map -/

/-- `objects.entry(id).or_default()`. -/
def entry (c : PeerClaims) (id : ObjectId) : ObjectClaim := (c.objects id).getD {}

def set (c : PeerClaims) (id : ObjectId) (o : ObjectClaim) : PeerClaims :=
  { c with objects := Function.update c.objects id (some o) }

/-- `parked_on.remove(&task)`. -/
def unpark (c : PeerClaims) (task : TaskId) : PeerClaims :=
  { c with parkedOn := Function.update c.parkedOn task none }

def touchLabel (c : PeerClaims) (id : ObjectId) (label : String) : PeerClaims :=
  let o := c.entry id
  c.set id { o with label := if o.label.isEmpty then s!"{label}#{id}" else o.label }

/-- Drop a fully idle object entry. -/
def gcObject (c : PeerClaims) (id : ObjectId) : PeerClaims :=
  match c.objects id with
  | some o =>
    if o.owner.isNone && o.waiters.isEmpty && !o.reserved then
      { c with objects := Function.update c.objects id none }
    else c
  | none => c

end PeerClaims

/-- The three writes every grant of an object makes. -/
def ObjectClaim.own (o : ObjectClaim) (task : TaskId) (epoch : Epoch) (lane : Option Lane) :
    ObjectClaim :=
  { o with owner := some (task, epoch), depth := 1, ownerLane := lane }

/-- Pop from the front until a live waiter: the ghosts skipped, then the live
waiter and what stays queued behind it. -/
def popLive (live : Live) : List Waiter → List Waiter × Option (Waiter × List Waiter)
  | [] => ([], none)
  | w :: rest =>
    if live w.task w.epoch then ([], some (w, rest))
    else
      let (ghosts, head) := popLive live rest
      (w :: ghosts, head)

namespace PeerClaims

/-! ## Acquiring -/

/-- Grant (object, lane) jointly to a top-level send, the object alone to a
nested one, re-enter, or report who blocks. -/
def tryAcquire (c : PeerClaims) (task : TaskId) (epoch : Epoch) (id : ObjectId)
    (label : String) (nested : Bool) : PeerClaims × Acquire :=
  let c := { c with stats.acquisitions := c.stats.acquisitions + 1 }
  let c := c.touchLabel id label
  let o := c.entry id
  match o.owner with
  | some (owner, _) =>
    if owner = task then
      if o.depth ≥ maxObjectDepth then (c, .tooDeep)
      else
        let c := c.set id { o with depth := o.depth + 1 }
        ({ c with stats.maxDepth := max c.stats.maxDepth (o.depth + 1) }, .reentrant)
    else (c, .wouldQueue (some owner))
  | none =>
    if o.reserved then (c, .wouldQueue none)
    else if nested then (c.set id (o.own task epoch none), .granted none)
    else match c.freeLanes with
      | lane :: lanes =>
        ({ c with freeLanes := lanes }.set id (o.own task epoch (some lane)),
          .granted (some lane))
      -- object free, no lane: the caller becomes the reserved head when it enqueues
      | [] => (c, .wouldQueue none)

/-- Queue after a `wouldQueue` decision. -/
def enqueue (c : PeerClaims) (task : TaskId) (epoch : Epoch) (id : ObjectId) (label : String)
    (kind : WaitKind) (now : Nat) : PeerClaims :=
  let c := { c with stats.contended := c.stats.contended + 1 }
  let c := c.touchLabel id label
  let c := { c with parkedOn := Function.update c.parkedOn task (some (id, epoch)) }
  let o := c.entry id
  let waiters := o.waiters ++ [{ task, epoch, kind, queuedAt := now }]
  let c := { c with stats.queueHighWater := max c.stats.queueHighWater waiters.length }
  if o.owner.isNone && !o.reserved then
    let c := c.set id { o with waiters, reserved := true }
    { c with readyHeads := c.readyHeads ++ [id] }
  else c.set id { o with waiters }

/-- Withdraw a queued waiter (cancellation unwound before any grant). -/
def retract (c : PeerClaims) (task : TaskId) (id : ObjectId) : PeerClaims :=
  let c := c.unpark task
  let c := match c.objects id with
    | some o => c.set id { o with waiters := o.waiters.filter fun w => w.task ≠ task }
    | none => c
  c.gcObject id

/-! ## Releasing -/

/-- The waits-for edges of skipped ghosts go with them. -/
def dropGhosts (c : PeerClaims) (ghosts : List Waiter) : PeerClaims :=
  ghosts.foldl (fun c w => c.unpark w.task) c

def grant (c : PeerClaims) (w : Waiter) (lane : Option Lane) (now : Nat) : PeerClaims × Grant :=
  let c := c.unpark w.task
  let micros := now - w.queuedAt
  let c := { c with
    stats.totalWaitMicros := c.stats.totalWaitMicros + micros
    stats.maxWaitMicros := max c.stats.maxWaitMicros micros }
  (c, { task := w.task, epoch := w.epoch, lane })

/-- Hand the object to waiter `w`, with `rest` left in its queue. -/
def handTo (c : PeerClaims) (id : ObjectId) (o : ObjectClaim) (w : Waiter) (rest : List Waiter)
    (lane : Option Lane) (now : Nat) : PeerClaims × Grant :=
  (c.set id { o.own w.task w.epoch lane with waiters := rest, reserved := false }).grant w lane now

/-- The object just lost its owner: hand it to the front live waiter, or
reserve it for that waiter if it needs a lane and none is free. -/
def promoteHead (c : PeerClaims) (id : ObjectId) (live : Live) (now : Nat) :
    PeerClaims × List Grant :=
  match c.objects id with
  | none => (c, [])
  | some o =>
    let (ghosts, head) := popLive live o.waiters
    let c := c.dropGhosts ghosts
    match head with
    | none => (c.set id { o with waiters := [], reserved := false }, [])
    | some (w, rest) =>
      match w.kind, c.freeLanes with
      | .nested, _ =>
        let (c, g) := c.handTo id o w rest none now
        (c, [g])
      | .topLevel, lane :: lanes =>
        let (c, g) := { c with freeLanes := lanes }.handTo id o w rest (some lane) now
        (c, [g])
      | .topLevel, [] =>
        -- no lane: the head keeps its front slot, the object joins the lane queue
        let c := c.set id { o with waiters := w :: rest, reserved := true }
        (if o.reserved then c else { c with readyHeads := c.readyHeads ++ [id] }, [])

/-- A lane `l` offered to the reserved object `id`. Answers the wakes, and
whether the lane was taken. -/
def serveHead (c : PeerClaims) (id : ObjectId) (l : Lane) (live : Live) (now : Nat) :
    PeerClaims × List Grant × Bool :=
  match c.objects id with
  | none => (c, [], false)
  | some o =>
    if !o.reserved then (c, [], false)
    else
      let (ghosts, head) := popLive live o.waiters
      let c := c.dropGhosts ghosts
      match head with
      | none => (c.set id { o with waiters := [], reserved := false }, [], false)
      | some (w, rest) =>
        match w.kind with
        -- a ghost head left a nested waiter in front: it takes the object
        -- without the lane, and the lane keeps looking
        | .nested =>
          let (c, g) := c.handTo id o w rest none now
          (c, [g], false)
        | .topLevel =>
          let (c, g) := c.handTo id o w rest (some l) now
          (c, [g], true)

/-- The `'homes` loop of `release_lane`, over the ready heads still to try. -/
def offerLane (l : Lane) (live : Live) (now : Nat) :
    List ObjectId → PeerClaims → PeerClaims × List Grant
  | [], c => ({ c with readyHeads := [], freeLanes := l :: c.freeLanes }, [])
  | id :: heads, c =>
    let (c, grants, taken) := { c with readyHeads := heads }.serveHead id l live now
    if taken then (c, grants)
    else
      let (c, more) := offerLane l live now heads c
      (c, grants ++ more)

/-- A lane came home: hand it to the oldest reserved head, or bank it — and
once every lane is home, wake the drain waiters. -/
def releaseLane (c : PeerClaims) (l : Lane) (live : Live) (now : Nat) :
    PeerClaims × List Grant :=
  let (c, grants) := offerLane l live now c.readyHeads c
  if c.freeLanes.length = c.laneCount then
    ({ c with drainWaiters := [] },
      grants ++ c.drainWaiters.map fun (task, epoch) => { task, epoch, lane := none })
  else (c, grants)

/-- The end of an outermost release: promote the head of the freed object's
queue, release the holder's lane, drop the entry if it is idle. -/
def handOn (c : PeerClaims) (id : ObjectId) (lane : Option Lane) (live : Live) (now : Nat) :
    PeerClaims × List Grant :=
  let (c, grants) := c.promoteHead id live now
  let (c, more) := match lane with
    | some l => c.releaseLane l live now
    | none => (c, [])
  (c.gcObject id, grants ++ more)

/-- End one call on an object: the outermost release frees the claim and, for
a top-level holder, its lane. -/
def endCall (c : PeerClaims) (id : ObjectId) (live : Live) (now : Nat) :
    PeerClaims × List Grant :=
  match c.objects id with
  | none => (c, [])
  | some o =>
    let depth := o.depth - 1
    if depth > 0 then (c.set id { o with depth }, [])
    else
      (c.set id { o with depth, owner := none, ownerLane := none }).handOn id o.ownerLane live now

/-- `true` = already drained; otherwise the task is queued for a wake when the
last lane returns. -/
def requestDrain (c : PeerClaims) (task : TaskId) (epoch : Epoch) : PeerClaims × Bool :=
  if c.freeLanes.length = c.laneCount then (c, true)
  else ({ c with drainWaiters := c.drainWaiters ++ [(task, epoch)] }, false)

/-! ## The waits-for walk -/

/-- The waits-for edge of a task parked on this peer: the owner of the object
it waits for, with the object's label. -/
def waitsFor (c : PeerClaims) (task : TaskId) (live : Live) : Option (TaskId × String) :=
  match c.parkedOn task with
  | none => none
  | some (id, epoch) =>
    if !live task epoch then none
    else match c.objects id with
      | none => none
      | some o => o.owner.map fun (owner, _) => (owner, o.label)

end PeerClaims

/-- The edge of a task across every registered peer, the first that has one. -/
def nextEdge (registry : List PeerClaims) (task : TaskId) (live : Live) :
    Option (TaskId × String) :=
  registry.findSome? fun peer => peer.waitsFor task live

/-- The walk of `would_deadlock`, with `fuel` steps left. -/
def walk (registry : List PeerClaims) (me : TaskId) (live : Live) :
    (fuel : Nat) → (current : TaskId) → (path : List String) → Option String
  | 0, _, _ => none
  | fuel + 1, current, path =>
    if current = me then
      some ("deadlock: the calls wait on each other in a cycle — " ++
        String.intercalate ", which " path)
    else match nextEdge registry current live with
      | none => none
      | some (next, label) =>
        walk registry me live fuel next
          (path ++ [s!"task {current} waits for {label} (held by task {next})"])

/-- Follow `task → owner → …` from the blocking owner; `some` is the rendered
cycle if it closes on `me`. -/
def wouldDeadlock (registry : List PeerClaims) (me start : TaskId) (firstLabel : String)
    (live : Live) : Option String :=
  walk registry me live maxWalk start
    [s!"task {me} waits for {firstLabel} (held by task {start})"]

end Quoin.Claims
