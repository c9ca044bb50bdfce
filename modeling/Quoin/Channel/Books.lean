import Quoin.Channel.Relay
import Quoin.Channel.Tasks

/-!
# Quoin — where values are, and what the owner keeps

`Owner.held` and `Remote.held` count how often a value is somewhere: in a
buffer, in the wake of a task, in a frame, among the values received. The
books balance (`Books`) when every value taken from a sender is held once, a
value still with its sender not at all, and no relayed operation is due more
than one answer. `OwnerOk` adds what the queues rest on: an entry of a live task
belongs to the operation that task is suspended in, and a remote entry to the
operation pending at the other VM under its correlation.

An operation under way may have values in hand, answers it still owes and sends
it has not settled; `Limbo` is what is between the places at that moment.
-/

namespace Quoin.Channel

open Trans

variable {V : Type} [DecidableEq V]

/-! ## Counting values and correlations -/

/-- `1` if this is the value counted. -/
def here (i j : Item V) : Nat := if j = i then 1 else 0

/-- `1` if this is the correlation counted. -/
def due (corr corr' : Corr) : Nat := if corr' = corr then 1 else 0

theorem here_self (i : Item V) : here i i = 1 := if_pos rfl

theorem eq_of_here {i j : Item V} (h : 0 < here i j) : j = i := by
  by_contra hne
  rw [here, if_neg hne] at h
  exact absurd h (Nat.lt_irrefl 0)

theorem due_self (corr : Corr) : due corr corr = 1 := if_pos rfl

theorem mem_iff_tally {i : Item V} {l : List (Item V)} : i ∈ l ↔ 0 < tally (here i) l := by
  constructor
  · intro h
    have := le_tally (f := here i) h
    rw [here_self] at this
    omega
  · intro h
    obtain ⟨j, hj, hpos⟩ := tally_pos h
    exact eq_of_here hpos ▸ hj

def Wake.holds (i : Item V) : Wake V → Nat
  | .channelRecv v => here i v
  | _ => 0

/-- The value is in the task's pending wake. -/
def Task.holds {P : Type} (i : Item V) (task : Task P V) : Nat := task.wake.elim 0 (Wake.holds i)

def Park.sends (i : Item V) : Park V → Nat
  | .send _ v => here i v
  | .recv _ => 0

/-- The task is suspended in the send of this value. -/
def Task.sends (i : Item V) (task : Task (Park V) V) : Nat := task.park.elim 0 (Park.sends i)

namespace ChanFrame

/-- The value is on its way to a remote receiver. -/
def carries (i : Item V) : ChanFrame V → Nat
  | .value _ v => here i v
  | _ => 0

/-- The value is on its way home. -/
def returns (i : Item V) : ChanFrame V → Nat
  | .ret _ v => here i v
  | _ => 0

def offers (i : Item V) : ChanFrame V → Nat
  | .send _ _ v => here i v
  | _ => 0

def asks (corr : Corr) : ChanFrame V → Nat
  | .send _ corr' _ | .recv _ corr' => due corr corr'
  | _ => 0

def answers (corr : Corr) : ChanFrame V → Nat
  | .ack corr' | .value corr' _ | .closedFor corr' | .recvError corr' _ => due corr corr'
  | _ => 0

end ChanFrame

def RecvWaiter.asks (corr : Corr) : RecvWaiter → Nat
  | .localTask _ _ => 0
  | .remoteOp corr' => due corr corr'

def SendWaiter.asks (corr : Corr) : SendWaiter V → Nat
  | .localTask _ _ _ => 0
  | .remoteOp corr' _ => due corr corr'

namespace NativeChannelState

def buffered (i : Item V) (ch : NativeChannelState V) : Nat := tally (here i) ch.buffer

/-- The value waits with a parked sender, or with the entry one left behind. -/
def offers (i : Item V) (ch : NativeChannelState V) : Nat :=
  tally (fun w => here i w.value) ch.sendWaiters

def asks (corr : Corr) (ch : NativeChannelState V) : Nat :=
  tally (RecvWaiter.asks corr) ch.recvWaiters + tally (SendWaiter.asks corr) ch.sendWaiters

end NativeChannelState

/-- How many receives returned the value. -/
def Ledger.returned (i : Item V) (l : Ledger V) : Nat :=
  tally (fun entry => here i entry.2) l.received

/-- How often its send came to an end. -/
def Ledger.settled (i : Item V) (l : Ledger V) : Nat :=
  tally (fun entry => here i entry.1) l.done

namespace Owner

/-- How often a value is somewhere at the owner, or on its way from there. -/
def held (o : Owner V) (i : Item V) : Nat :=
  tally (NativeChannelState.buffered i) o.chans + o.sched.tallyTasks (Task.holds i) +
    tally (ChanFrame.carries i) o.out + o.ledger.returned i

def offered (o : Owner V) (i : Item V) : Nat := tally (NativeChannelState.offers i) o.chans

def sending (o : Owner V) (i : Item V) : Nat := o.sched.tallyTasks (Task.sends i)

/-- Relayed operations waiting in a queue under this correlation. -/
def waiting (o : Owner V) (corr : Corr) : Nat := tally (NativeChannelState.asks corr) o.chans

/-- Answers on their way. -/
def answers (o : Owner V) (corr : Corr) : Nat := tally (ChanFrame.answers corr) o.out

end Owner

namespace Remote

def held (r : Remote V) (i : Item V) : Nat :=
  r.sched.tallyTasks (Task.holds i) + tally (ChanFrame.returns i) r.out + r.ledger.returned i

def offering (r : Remote V) (i : Item V) : Nat := tally (ChanFrame.offers i) r.out

/-- Operations on their way to the owner. -/
def asking (r : Remote V) (corr : Corr) : Nat := tally (ChanFrame.asks corr) r.out

/-- A pending operation is due one answer. -/
def due (r : Remote V) (corr : Corr) : Nat := (r.pending corr).elim 0 fun _ => 1

omit [DecidableEq V] in
theorem pending_of_due {r : Remote V} {corr : Corr} (h : 0 < r.due corr) :
    (r.pending corr).isSome := by
  cases hp : r.pending corr with
  | none =>
    rw [due, hp] at h
    cases h
  | some p => rfl

omit [DecidableEq V] in
theorem due_of_pending {r : Remote V} {corr : Corr} {p : PendingChanOp}
    (h : r.pending corr = some p) : r.due corr = 1 := by
  rw [due, h]
  rfl

end Remote

/-! ## The invariant -/

/-- What an operation under way holds between the places. -/
structure Limbo (V : Type) where
  /-- Taken from one place and not yet put into another. -/
  hand : List (Item V) := []
  /-- Operations that are due an answer. -/
  owed : List Corr := []
  /-- Sends begun and neither parked nor done. -/
  begun : List (Item V) := []

/-- Whoever is suspended at the remote VM under this correlation receives on `c`. -/
def Remote.RecvAt (r : Remote V) (corr : Corr) (c : ChanId) : Prop :=
  ∀ p, r.sched.Parks p → p.corr = corr → ∃ e parts, p = .recv e parts corr ∧ parts.home = c

/-- Whoever is suspended at the remote VM under this correlation sends `v`. -/
def Remote.SendAt (r : Remote V) (corr : Corr) (v : Item V) : Prop :=
  ∀ p, r.sched.Parks p → p.corr = corr → ∃ e parts, p = .send e parts corr v

/-- The value was taken from its sender. -/
def Outcome.took : Outcome → Bool
  | .sent => true
  | .raised _ => false
  | .cancelled taken => taken

structure TaskOk (accepted : List (Item V)) (seq channels : Nat) (task : Task (Park V) V) :
    Prop where
  epoch : task.parkEpoch ≤ seq
  idle : task.park = none → task.parkedOnChannel = false ∧ task.wake = none
  asleep : task.parkedOnChannel = true → task.wake = none
  handed : ∀ i, task.wake = some (.channelRecv i) → task.park = some (.recv i.chan)
  receiver : ∀ c, task.park = some (.recv c) → c < channels
  sender : ∀ c i, task.park = some (.send c i) →
    i.chan = c ∧ i.side = .owner ∧ (Owner.taken task.wake = true ↔ i ∈ accepted)

structure QueuesOk (sched : Sched (Park V) V) (r : Remote V) (c : ChanId)
    (ch : NativeChannelState V) : Prop where
  buffer : ∀ i ∈ ch.buffer, i.chan = c
  recvLocal : ∀ t e, .localTask t e ∈ ch.recvWaiters →
    1 ≤ e ∧ e ≤ sched.parkSeq ∧ sched.Suspended t e (.recv c)
  recvRemote : ∀ corr, .remoteOp corr ∈ ch.recvWaiters → r.RecvAt corr c
  sendLocal : ∀ t e v, .localTask t e v ∈ ch.sendWaiters →
    1 ≤ e ∧ e ≤ sched.parkSeq ∧ sched.Suspended t e (.send c v)
  sendRemote : ∀ corr v, .remoteOp corr v ∈ ch.sendWaiters →
    v.chan = c ∧ v.side = .remote ∧ r.SendAt corr v

structure FramesOk [Portable V] (out : List (ChanFrame V)) (accepted : List (Item V))
    (r : Remote V) : Prop where
  value : ∀ corr v, .value corr v ∈ out → r.RecvAt corr v.chan ∧ Portable.crossError v.value = none
  ack : ∀ corr, .ack corr ∈ out → ∃ i ∈ accepted, r.SendAt corr i

structure Books (o : Owner V) (r : Remote V) (l : Limbo V) : Prop where
  conserved : ∀ i, o.held i + r.held i + tally (here i) l.hand = tally (here i) o.ledger.accepted
  untaken : ∀ i, tally (here i) o.ledger.accepted + o.offered i + r.offering i ≤
    tally (here i) o.ledger.issued + tally (here i) r.ledger.issued
  once : ∀ i, tally (here i) o.ledger.issued + tally (here i) r.ledger.issued ≤ 1
  sends : ∀ i, o.sending i + o.ledger.settled i + tally (here i) l.begun =
    tally (here i) o.ledger.issued
  answered : ∀ corr, r.asking corr + o.waiting corr + o.answers corr + tally (due corr) l.owed ≤
    r.due corr

/-- What the owner's ledger says. -/
structure LedgerOk (ledger : Ledger V) : Prop where
  issued : ∀ i ∈ ledger.issued, i.side = .owner ∧ i.number < ledger.issued.length
  done : ∀ i outcome, (i, outcome) ∈ ledger.done → (outcome.took = true ↔ i ∈ ledger.accepted)
  received : ∀ c i, (c, i) ∈ ledger.received → i.chan = c

structure OwnerOk [Portable V] (o : Owner V) (r : Remote V) (l : Limbo V) : Prop where
  tasks : ∀ t task, o.sched.task? t = some task →
    TaskOk o.ledger.accepted o.sched.parkSeq o.chans.length task
  queues : ∀ c ch, o.chans[c]? = some ch → QueuesOk o.sched r c ch
  frames : FramesOk o.out o.ledger.accepted r
  books : Books o r l
  ledger : LedgerOk o.ledger
  relayed : ∀ i ∈ r.ledger.issued, i.side = .remote ∧ i.number < r.ledger.issued.length

end Quoin.Channel
