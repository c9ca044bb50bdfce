import Mathlib
import Quoin.Trans.Run

/-!
# Quoin — buffered writing

A write puts its bytes at the end of the stream's write buffer and returns,
unless the buffer is full: then it takes what is in the buffer, everybody's
bytes, and parks on a backend `Write` of it. So does `flush!`, and `close`
before it closes. A `Write` has the stream for itself while it is in flight:
another one that begins then is refused. A task that is cancelled takes its
`Write` with it.

Bytes are marked with the write they are of, and the state remembers which
writes have been accepted and have returned, and for each `flush!` or `close`
that has succeeded which writes had returned when it was called (`settled`).
These should be with the backend, each byte once and in order (`Durable`).

They are in every run in which no `Write` is lost that has bytes of a write
that has returned (`Ok`). Such a `Write` can be lost, with nobody told.
-/

namespace Quoin.Streams.Writing

open Trans

/-! ## The stream and its calls -/

/-- A byte of a write. -/
structure Mark where
  write : Nat
  byte : UInt8
  deriving DecidableEq

/-- A call that parks. A `flush!` or `close` is for the writes that had returned before it, the last
part of `close` is the `FinishStream` of a codec. -/
inductive Kind where
  | write
  | flush (before : List Nat)
  | close (before : List Nat)
  | finish (before : List Nat)
  deriving DecidableEq

/-- A parked call: woken with success or not, or still waiting. -/
structure Parked where
  kind : Kind
  wake : Option Bool
  deriving DecidableEq

/-- A `close` that goes on to close the stream. -/
def Parked.closes : Parked → Bool
  | ⟨.close _, some true⟩ => true
  | _ => false

/-- A `Write` that is not done, and the bytes that it has still to write. -/
structure Pending where
  call : Nat
  left : List Mark
  begun : Bool
  deriving DecidableEq

structure State where
  wbuf : List Mark
  closed : Bool
  /-- the `Write`s, in the order they were issued -/
  ops : List Pending
  calls : Nat → Option Parked
  /-- whether the handle is queued to be reaped, and whether the backend has let go of the stream -/
  reaping : Bool
  gone : Bool
  next : Nat
  handed : List Mark
  accepted : List Mark
  returned : List Nat
  settled : List (List Nat)

def State.start : State where
  wbuf := []
  closed := false
  ops := []
  calls := fun _ => none
  reaping := false
  gone := false
  next := 0
  handed := []
  accepted := []
  returned := []
  settled := []

namespace State

/-- `write_through`: the call parks on a `Write`. -/
def issue (s : State) (kind : Kind) (bytes : List Mark) : State :=
  { s with
    ops := s.ops ++ [⟨s.next, bytes, false⟩]
    calls := Function.update s.calls s.next (some ⟨kind, none⟩)
    next := s.next + 1 }

/-- A call's `Write` is given up, the call woken with an error. -/
def drop (s : State) (call : Nat) : State :=
  { s with
    ops := s.ops.filter fun op => op.call ≠ call
    calls := Function.update s.calls call
      ((s.calls call).map fun p => { p with wake := some false }) }

/-- A call is over. -/
def unpark (s : State) (call : Nat) : State :=
  { s with calls := Function.update s.calls call none }

def settle (s : State) (before : List Nat) : State := { s with settled := s.settled ++ [before] }

/-- The last part of `close_stream`, once the buffer is flushed: a codec is finished, else the handle
is reaped. -/
def closeHandle (s : State) (codec : Bool) (call : Nat) (before : List Nat) : State :=
  if s.closed then s.settle before else
  if codec then
    { s with
      closed := true
      calls := Function.update s.calls call (some ⟨.finish before, none⟩) }
  else { s.settle before with closed := true, reaping := true }

/-- Whether a `Write` holds the stream. -/
def leased (s : State) : Bool := s.ops.any Pending.begun

end State

/-! ## Steps -/

inductive Action where
  | write (bytes : List UInt8)
  | flush
  | close
  | begin (call : Nat)
  | progress (call n : Nat)
  | complete (call : Nat)
  | fail (call : Nat)
  | cancel (call : Nat)
  | reap
  | finishStream (call : Nat) (ok : Bool)
  | resume (call : Nat)
  deriving DecidableEq

section Step

variable (cap : Nat) (codec : Bool)

open State

/-- `stream_write`. -/
def streamWrite (s : State) (bytes : List UInt8) : State :=
  if s.closed then s else
  let marks := bytes.map (Mark.mk s.next)
  let s := { s with accepted := s.accepted ++ marks }
  if cap = 0 then s.issue .write marks else
  if cap ≤ (s.wbuf ++ marks).length then
    { s with wbuf := [] }.issue .write (s.wbuf ++ marks)
  else
    { s with
      wbuf := s.wbuf ++ marks
      returned := s.returned ++ [s.next]
      next := s.next + 1 }

/-- `stream_flush`. -/
def streamFlush (s : State) : State :=
  if s.closed ∨ s.wbuf = [] then s.settle s.returned
  else { s with wbuf := [] }.issue (.flush s.returned) s.wbuf

/-- `close_stream`. -/
def closeStream (s : State) : State :=
  if s.closed ∨ s.wbuf = [] then
    { s with next := s.next + 1 }.closeHandle codec s.next s.returned
  else { s with wbuf := [] }.issue (.close s.returned) s.wbuf

/-- A call goes on after its park. -/
def resumed (s : State) (call : Nat) : Kind → State
  | .write => { s with returned := s.returned ++ [call] }
  | .flush before => s.settle before
  | .close before => s.closeHandle codec call before
  | .finish before => s.settle before

def step (s : State) : Action → Option State
  | .write bytes => some (streamWrite cap s bytes)
  | .flush => some (streamFlush s)
  | .close => some (closeStream codec s)
  | .begin call => do
    let op ← s.ops.find? fun op => op.call = call
    if op.begun then none else
    -- `StreamLease::take`
    if s.leased ∨ s.gone then some (s.drop call)
    else
      some { s with
        ops := s.ops.map fun op => if op.call = call then { op with begun := true } else op }
  | .progress call n => do
    let op ← s.ops.find? fun op => op.call = call
    if op.begun then
      some { s with
        handed := s.handed ++ op.left.take n
        ops := s.ops.map fun op =>
          if op.call = call then { op with left := op.left.drop n } else op }
    else none
  | .complete call => do
    let op ← s.ops.find? fun op => op.call = call
    if op.begun ∧ op.left = [] then
      some { s with
        ops := s.ops.filter fun op => op.call ≠ call
        calls := Function.update s.calls call
          ((s.calls call).map fun p => { p with wake := some true }) }
    else none
  | .fail call => do
    let op ← s.ops.find? fun op => op.call = call
    if op.begun then some (s.drop call) else none
  | .cancel call => do
    let _ ← s.calls call
    some (s.drop call)
  | .reap =>
    if s.reaping then
      let s := { s with reaping := false, gone := true }
      match s.ops.find? Pending.begun with
      | some op => some (s.drop op.call)
      | none => some s
    else none
  | .finishStream call ok => do
    let p ← s.calls call
    match p with
    | ⟨.finish before, none⟩ =>
      some { s with
        calls := Function.update s.calls call
          (some ⟨.finish before, some (ok && !s.leased && !s.gone)⟩)
        gone := s.gone || !s.leased }
    | _ => none
  | .resume call => do
    let p ← s.calls call
    let ok ← p.wake
    if ok then some (resumed codec (s.unpark call) call p.kind) else some (s.unpark call)

end Step

/-! ## What should hold, and when it does -/

/-- The bytes of these writes are with the backend, each once and in the order they were accepted. -/
def Durable (s : State) (writes : List Nat) : Prop :=
  s.handed.filter (fun m => m.write ∈ writes) = s.accepted.filter (fun m => m.write ∈ writes)

/-- The `Write` has bytes, not yet written, of a write that has returned. -/
def Carries (s : State) (op : Pending) : Prop := ∃ m ∈ op.left, m.write ∈ s.returned

instance (s : State) (op : Pending) : Decidable (Carries s op) := by
  unfold Carries
  infer_instance

/-- No `Write` does. -/
def Clear (s : State) : Prop := ∀ op ∈ s.ops, ¬ Carries s op

instance (s : State) : Decidable (Clear s) := by
  unfold Clear
  infer_instance

/-- The call's `Write` is not one that carries bytes of a write that has returned. -/
def Spares (s : State) (call : Nat) : Prop := ∀ op ∈ s.ops, op.call = call → ¬ Carries s op

instance (s : State) (call : Nat) : Decidable (Spares s call) := by
  unfold Spares
  infer_instance

/-- No such `Write` is refused, cancelled, failed or aborted, and `Write`s begin in the order they
were issued; a `flush!` or `close` that finds nothing in the buffer is not called while such a `Write`
is not done, nor does a `close` go on to close then, or with something in the buffer. -/
def Ok (s : State) : Action → Prop
  | .write _ | .progress _ _ | .complete _ | .finishStream _ _ => True
  | .flush | .close => s.closed = true ∨ s.wbuf ≠ [] ∨ Clear s
  | .begin call =>
    if s.leased ∨ s.gone then Spares s call
    else (s.ops.head?.map Pending.call) = some call
  | .fail call | .cancel call => Spares s call
  | .reap => ∀ op ∈ s.ops, op.begun = true → ¬ Carries s op
  | .resume call =>
    s.closed = true ∨ (s.wbuf = [] ∧ Clear s) ∨ ∀ p ∈ s.calls call, p.closes = false

instance (s : State) (a : Action) : Decidable (Ok s a) := by
  cases a <;> unfold Ok <;> infer_instance

end Quoin.Streams.Writing
