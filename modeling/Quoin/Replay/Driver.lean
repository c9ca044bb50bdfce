import Mathlib

/-!
# Quoin — the driver loop and its wake log

The driver resumes one task after another. Three things it decides are not given by
the VM's state: which ready task it picks, whether a yield boundary preempts the
running task, and which background completion is delivered when. A run that records
logs these (`recordStep`); a run that replays takes them from the log, and holds a
completion that arrives before its turn (`replayStep`).

What the program's tasks do is the VM's matter, and a parameter here (`Vm`). The
driver of a worker, of a debugger, and signals are left out.
-/

namespace Quoin.Replay

/-! ## The wake log -/

/-- `TaskWakeup`: what a background operation completes with. An I/O operation that has been
aborted has no result. -/
inductive TaskWakeup (ρ : Type) where
  | io (result : Option ρ)
  | deadline (target epoch : Nat)

inductive WakeEvent where
  | pick (tid : Nat)
  | rotate (preempt : Bool)
  | io (tid : Nat) (aborted : Bool) (hash : UInt64)
  | deadline (tid target epoch : Nat)
  deriving DecidableEq

def WakeEvent.isDelivery : WakeEvent → Bool
  | .io _ _ _ | .deadline _ _ _ => true
  | .pick _ | .rotate _ => false

variable {σ ρ ε : Type}

/-- `wake_event_for`; `hash` is `hash_debug`. -/
def wakeEventFor (hash : ρ → UInt64) (tid : Nat) : TaskWakeup ρ → WakeEvent
  | .io (some result) => .io tid false (hash result)
  | .io none => .io tid true 0
  | .deadline target epoch => .deadline tid target epoch

/-- A background operation: the how manieth it is, the task it is for, and what it completes with
once it arrives. -/
structure Op (ρ : Type) where
  id : Nat
  tid : Nat
  wakeup : TaskWakeup ρ

/-- What the driver decides and logs. -/
inductive Decision (ρ : Type) where
  | pick (tid : Nat)
  | rotate (preempt : Bool)
  | deliver (tid : Nat) (wakeup : TaskWakeup ρ)

def Decision.event (hash : ρ → UInt64) : Decision ρ → WakeEvent
  | .pick tid => .pick tid
  | .rotate preempt => .rotate preempt
  | .deliver tid wakeup => wakeEventFor hash tid wakeup

/-! ## The VM -/

/-- What the current task did when it was resumed once. -/
inductive RunStep (ε : Type) where
  | yielded
  | running
  | parkedIo
  | parkedJoinTimed (target : Nat)
  | parked
  | done
  | finished
  | failed (e : ε)

/-- Where a task is: ready or running, waiting for its I/O operation, or anything else (parked on
another task or a channel, or no task). -/
inductive Place where
  | runnable | io | elsewhere
  deriving DecidableEq

/-- Where a resumed task is then. -/
def RunStep.place : RunStep ε → Place
  | .yielded | .running => .runnable
  | .parkedIo => .io
  | .parkedJoinTimed _ | .parked | .done | .finished | .failed _ => .elsewhere

/-- What `resume_current_task` leaves; `woken` are the tasks it has put on the ready queue. -/
structure Resumed (σ ε : Type) where
  step : RunStep ε
  vm : σ
  woken : List Nat

/-- The VM, without the ready queue: what its tasks do, and what the driver asks it. Its scheduler
wakes a task only where it finds it parked, each time once: `place` is where. -/
structure Vm (σ ρ ε : Type) where
  /-- Before the main task, #0, is resumed for the first time. -/
  init : σ
  resume : σ → Nat → Resumed σ ε
  /-- `load_task_context` and `save_task_context`. -/
  load : σ → Nat → σ
  save : σ → Nat → σ
  /-- Keeps the handle that aborts a task's operation, or its timer. -/
  setAbortHandle : σ → Nat → σ
  setDeadlineAbort : σ → Nat → σ
  parkEpoch : σ → Nat → Nat
  /-- Leaves a task the result of its operation. -/
  setWake : σ → Nat → Option ρ → σ
  /-- `deliver_deadline`; `none` where the deadline is stale. -/
  deliverDeadline : σ → Nat → Nat → Nat → Option σ
  requestedExit : σ → Option Int
  mainParked : σ → Bool
  place : σ → Nat → Place
  init_place : place init 0 = .runnable
  load_place : ∀ s t, place (load s t) = place s
  save_place : ∀ s t, place (save s t) = place s
  setAbortHandle_place : ∀ s t, place (setAbortHandle s t) = place s
  setDeadlineAbort_place : ∀ s t, place (setDeadlineAbort s t) = place s
  woken_nodup : ∀ s t, place s t = .runnable → (resume s t).woken.Nodup
  woken_place : ∀ s t, place s t = .runnable → ∀ u ∈ (resume s t).woken,
    (if u = t then (resume s t).step.place else place s u) = .elsewhere
  resume_place : ∀ s t, place s t = .runnable → ∀ u, place (resume s t).vm u =
    if u ∈ (resume s t).woken then .runnable
    else if u = t then (resume s t).step.place else place s u
  setWake_place : ∀ s t r, place s t = .io → ∀ u,
    place (setWake s t r) u = if u = t then .runnable else place s u
  deliverDeadline_place : ∀ s t target epoch s', deliverDeadline s t target epoch = some s' →
    place s t = .elsewhere ∧ ∀ u, place s' u = if u = t then .runnable else place s u

/-! ## One turn of the loop -/

/-- How a run ends. -/
inductive Outcome (ε : Type) where
  | finished
  | failed (e : ε)
  | exited (code : Int)
  | deadlock
  | drained

/-- The loop's variables; `atBoundary` at a yield boundary, while completions are drained. -/
structure Loop (σ ε : Type) where
  vm : σ
  ready : List Nat
  current : Option Nat
  needsLoad : Bool
  atBoundary : Bool
  started : Nat
  outcome : Option (Outcome ε)

namespace Loop

variable (vm : Vm σ ρ ε) (l : Loop σ ε)

/-- Task #0 is current, and live. -/
def start : Loop σ ε := ⟨vm.init, [], some 0, false, false, 0, none⟩

def deliver (tid : Nat) : TaskWakeup ρ → Loop σ ε
  | .io result => { l with vm := vm.setWake l.vm tid result, ready := l.ready ++ [tid] }
  | .deadline target epoch =>
    match vm.deliverDeadline l.vm tid target epoch with
    | some s => { l with vm := s, ready := l.ready ++ [tid] }
    | none => l

def pick (i : Nat) (tid : Nat) : Loop σ ε :=
  { l with ready := l.ready.eraseIdx i, current := some tid, needsLoad := true }

/-- Resumes the current task; perhaps there is one more background operation then, which
completes with what `completions` says. -/
def resume (completions : Nat → Option ρ) (cur : Nat) : Loop σ ε × List (Op ρ) :=
  let loaded := if l.needsLoad then vm.load l.vm cur else l.vm
  let r := vm.resume loaded cur
  let l := { l with vm := r.vm, ready := l.ready ++ r.woken, needsLoad := false }
  match r.step with
  | .yielded => ({ l with atBoundary := true }, [])
  | .running => (l, [])
  | .parkedIo =>
    ({ l with vm := vm.setAbortHandle l.vm cur, current := none, started := l.started + 1 },
      [⟨l.started, cur, .io (completions l.started)⟩])
  | .parkedJoinTimed target =>
    ({ l with vm := vm.setDeadlineAbort l.vm cur, current := none, started := l.started + 1 },
      [⟨l.started, cur, .deadline target (vm.parkEpoch l.vm cur)⟩])
  | .parked | .done => ({ l with current := none }, [])
  | .finished => ({ l with outcome := some .finished }, [])
  | .failed e => ({ l with outcome := some (.failed e) }, [])

def rotate (cur : Nat) (preempt : Bool) : Loop σ ε :=
  if preempt then
    { l with vm := vm.save l.vm cur, ready := l.ready ++ [cur], current := none, atBoundary := false }
  else { l with atBoundary := false }

/-- Nothing is ready, and nothing in flight. -/
def conclude : Loop σ ε :=
  { l with outcome := some (if vm.mainParked l.vm then .deadlock else .drained) }

def exit (code : Int) : Loop σ ε := { l with outcome := some (.exited code) }

end Loop

/-! ## Recording -/

/-- A run that records: the operations in flight, and what it has decided. -/
structure Driver (σ ρ ε : Type) extends Loop σ ε where
  futures : List (Op ρ)
  made : List (Decision ρ)

/-- What is up to chance: which ready task the stress mode picks, and which operation arrives. -/
inductive Chance where
  | go
  | pick (i : Nat)
  | arrive (i : Nat)

namespace Driver

def start (vm : Vm σ ρ ε) : Driver σ ρ ε := ⟨.start vm, [], []⟩

variable (vm : Vm σ ρ ε) (stress : Bool) (completions : Nat → Option ρ) (d : Driver σ ρ ε)

def deliver (i : Nat) (op : Op ρ) : Driver σ ρ ε :=
  { toLoop := d.toLoop.deliver vm op.tid op.wakeup
    futures := d.futures.eraseIdx i
    made := d.made ++ [.deliver op.tid op.wakeup] }

/-- One step of the loop. At a yield boundary, and where nothing is ready, operations may arrive
one by one. -/
def recordStep (c : Chance) : Option (Driver σ ρ ε) :=
  if d.outcome.isSome then none else
  if d.atBoundary then
    match d.current, c with
    | some _, .arrive i => d.futures[i]?.map fun op => d.deliver vm i op
    | some cur, .go =>
      let preempt := stress || !d.ready.isEmpty
      some { d with
        toLoop := d.toLoop.rotate vm cur preempt
        made := d.made ++ [.rotate preempt] }
    | _, _ => none
  else
    match vm.requestedExit d.vm, d.current, c with
    | some code, _, .go => some { d with toLoop := d.toLoop.exit code }
    | none, some cur, .go =>
      let (l, ops) := d.toLoop.resume vm completions cur
      some { d with toLoop := l, futures := d.futures ++ ops }
    | none, none, .pick i =>
      if stress || i = 0 then
        d.ready[i]?.map fun tid =>
          { d with toLoop := d.toLoop.pick i tid, made := d.made ++ [.pick tid] }
      else none
    | none, none, .arrive i =>
      if d.ready.isEmpty then d.futures[i]?.map fun op => d.deliver vm i op else none
    | none, none, .go =>
      if d.ready.isEmpty && d.futures.isEmpty then some { d with toLoop := d.toLoop.conclude vm }
      else none
    | _, _, _ => none

/-- A whole run, up to its end. -/
def record (d : Driver σ ρ ε) : List Chance → Option (Driver σ ρ ε)
  | [] => some d
  | c :: cs => (d.recordStep vm stress completions c).bind fun d' => record d' cs

end Driver

/-! ## Replaying -/

/-- Why a replay gives up. -/
inductive Divergence (ρ : Type) where
  | notPick (other : Option WakeEvent)
  | notReady (tid : Nat)
  | notRotate (other : Option WakeEvent)
  | unmatched (want : WakeEvent) (held : List (Op ρ))
  | idle (ev : WakeEvent)
  | panicked

/-- A run that replays: `held` are the operations that have arrived before their turn, and `idle`
is set in the loop that delivers where nothing is ready, to whether it has. -/
structure Replayer (σ ρ ε : Type) extends Driver σ ρ ε where
  events : List WakeEvent
  pos : Nat
  held : List (Op ρ)
  idle : Option Bool
  awaited : Nat
  delivered : List (Op ρ)
  diverged : Option (Divergence ρ)

namespace Replayer

def start (vm : Vm σ ρ ε) (events : List WakeEvent) : Replayer σ ρ ε :=
  { Driver.start vm with
    events
    pos := 0
    held := []
    idle := none
    awaited := 0
    delivered := []
    diverged := none }

variable (vm : Vm σ ρ ε) (hash : ρ → UInt64) (completions : Nat → Option ρ) (order : Nat → Nat)
  (r : Replayer σ ρ ε)

def peek : Option WakeEvent := r.events[r.pos]?

def consume : Replayer σ ρ ε := { r with pos := r.pos + 1 }

def diverge (why : Divergence ρ) : Replayer σ ρ ε := { r with diverged := some why }

/-- `futures.next().await`: the operations arrive in any `order`. -/
def next : Option (Op ρ × Replayer σ ρ ε) :=
  let i := order r.awaited % r.futures.length
  r.futures[i]?.map fun op =>
    (op, { r with futures := r.futures.eraseIdx i, awaited := r.awaited + 1 })

def deliver (op : Op ρ) : Replayer σ ρ ε :=
  { r with
    toLoop := r.toLoop.deliver vm op.tid op.wakeup
    made := r.made ++ [.deliver op.tid op.wakeup]
    delivered := r.delivered ++ [op] }

/-- Delivers the operation that the log wants, or awaits the next one and holds it. -/
def land (want : WakeEvent) : Replayer σ ρ ε :=
  match r.held.findIdx? fun op => wakeEventFor hash op.tid op.wakeup = want with
  | some i =>
    match r.held[i]? with
    | some op => ({ r.consume with
        held := r.held.eraseIdx i
        idle := r.idle.map fun _ => true } : Replayer σ ρ ε).deliver vm op
    | none => r
  | none =>
    match r.next order with
    | some (op, r) => { r with held := r.held ++ [op] }
    | none => r.diverge (.unmatched want r.held)

/-- `expect_rotate`, and the boundary's end. -/
def atRotate (cur : Nat) : Replayer σ ρ ε :=
  match r.peek with
  | some (.rotate preempt) => { r.consume with
      toLoop := r.toLoop.rotate vm cur preempt
      made := r.made ++ [.rotate preempt] }
  | other => r.diverge (.notRotate other)

/-- `expect_pick`, and the task it names. -/
def atPick : Replayer σ ρ ε :=
  match r.peek with
  | some (.pick want) =>
    match r.ready.findIdx? (· = want) with
    | some i => { r.consume with
        toLoop := r.toLoop.pick i want
        made := r.made ++ [.pick want] }
    | none => r.consume.diverge (.notReady want)
  | other => r.diverge (.notPick other)

/-- The end of a log: the loop goes on as it does without one. -/
def atEnd : Replayer σ ρ ε :=
  match r.next order with
  | some (op, r) => ({ r with idle := none } : Replayer σ ρ ε).deliver vm op
  | none => r.diverge .panicked

/-- One step of the loop. -/
def replayStep : Replayer σ ρ ε :=
  if r.outcome.isSome || r.diverged.isSome then r else
  let want := r.peek.filter WakeEvent.isDelivery
  if r.atBoundary then
    match r.current, want with
    | some _, some want => r.land vm hash order want
    | some cur, none => r.atRotate vm cur
    | none, _ => r
  else
    match r.idle, want with
    | some _, some want => r.land vm hash order want
    | some true, none => { r with idle := none }
    | some false, none =>
      match r.peek with
      | some ev => r.diverge (.idle ev)
      | none => r.atEnd vm order
    | none, _ =>
      match vm.requestedExit r.vm, r.current with
      | some code, _ => { r with toLoop := r.toLoop.exit code }
      | none, some cur =>
        let (l, ops) := r.toLoop.resume vm completions cur
        { r with toLoop := l, futures := r.futures ++ ops }
      | none, none =>
        if !r.ready.isEmpty then r.atPick
        else if r.futures.isEmpty && r.held.isEmpty then { r with toLoop := r.toLoop.conclude vm }
        else { r with idle := some false }

end Replayer

end Quoin.Replay
