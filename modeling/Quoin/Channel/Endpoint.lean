import Quoin.Channel.Local

/-!
# Quoin — single changes at the endpoint side

`RemoteOk` is what the remote VM keeps: a suspended task is in the operation
pending under its correlation, a task is woken only with what was meant for it,
and a value in its wake can cross back. The rules below are those of
`OwnerOk`, for changes of the remote VM: each keeps both invariants, because
all the owner knows of the remote VM is which operations are suspended there
under which correlation.
-/

namespace Quoin.Channel

open Trans

variable {V : Type} {o : Owner V} {r r' : Remote V} {l l' : Limbo V} {c : ChanId} {corr : Corr}
  {t me : TaskId} {task : Task (RelayPark V) V} {v : Item V}
  {g : Task (RelayPark V) V → Task (RelayPark V) V}

/-! ## The invariant -/

structure RelayTaskOk [Portable V] (accepted : List (Item V)) (seq : Nat) (nextCorr : Corr)
    (endpoints : List (Option NativeRelayChannel)) (task : Task (RelayPark V) V) : Prop where
  epoch : task.parkEpoch ≤ seq
  idle : task.park = none → task.parkedOnChannel = false ∧ task.wake = none
  asleep : task.parkedOnChannel = true → task.wake = none
  handed : ∀ i, task.wake = some (.channelRecv i) → Portable.crossError i.value = none ∧
    ∃ e parts corr, task.park = some (.recv e parts corr) ∧ parts.home = i.chan
  acked : task.wake = some .channelSendOk →
    ∀ e parts corr i, task.park = some (.send e parts corr i) → i ∈ accepted
  opened : ∀ p, task.park = some p → p.corr < nextCorr ∧ endpoints[p.endpoint]? = some (some p.parts)

/-- A task still at the epoch of a pending operation is suspended in it. -/
structure PendingOk (sched : Sched (RelayPark V) V) (nextCorr corr : Corr) (p : PendingChanOp) :
    Prop where
  issued : corr < nextCorr
  pos : 1 ≤ p.epoch
  epoch : p.epoch ≤ sched.parkSeq
  parked : ∀ task, sched.task? p.task = some task → task.parkEpoch = p.epoch →
    ∃ q, task.park = some q ∧ q.corr = corr

/-- Whoever is suspended under this correlation receives through an endpoint of `id`. -/
def Remote.RecvFrom (r : Remote V) (corr : Corr) (id : HostedId) : Prop :=
  ∀ p, r.sched.Parks p → p.corr = corr → ∃ e parts, p = .recv e parts corr ∧ parts.chan = id

/-- An operation on its way is the one suspended under its correlation. -/
def LaneOk (r : Remote V) : ChanFrame V → Prop
  | .send _ corr v => v.side = .remote ∧ r.SendAt corr v
  | .recv id corr => r.RecvFrom corr id
  | _ => True

structure RemoteOk [Portable V] (accepted : List (Item V)) (r : Remote V) : Prop where
  tasks : ∀ t task, r.sched.task? t = some task →
    RelayTaskOk accepted r.sched.parkSeq r.nextCorr r.endpoints task
  pending : ∀ corr p, r.pending corr = some p → PendingOk r.sched r.nextCorr corr p
  lane : ∀ frame ∈ r.out, LaneOk r frame
  done : ∀ i, (i, .sent) ∈ r.ledger.done → i ∈ accepted
  received : ∀ c i, (c, i) ∈ r.ledger.received → i.chan = c

theorem Remote.RecvAt.mono (h : r.RecvAt corr c)
    (hparks : ∀ p, r'.sched.Parks p → p.corr = corr → r.sched.Parks p) : r'.RecvAt corr c :=
  fun p hp hcorr => h p (hparks p hp hcorr) hcorr

theorem Remote.SendAt.mono (h : r.SendAt corr v)
    (hparks : ∀ p, r'.sched.Parks p → p.corr = corr → r.sched.Parks p) : r'.SendAt corr v :=
  fun p hp hcorr => h p (hparks p hp hcorr) hcorr

theorem LaneOk.mono {frame : ChanFrame V} (h : LaneOk r frame)
    (hparks : ∀ p, r'.sched.Parks p → 0 < frame.asks p.corr → r.sched.Parks p) :
    LaneOk r' frame := by
  cases frame with
  | send id corr v =>
    refine ⟨h.1, h.2.mono fun p hp hcorr => hparks p hp ?_⟩
    rw [hcorr, ChanFrame.asks, due_self]
    exact Nat.one_pos
  | recv id corr =>
    intro p hp hcorr
    refine h p (hparks p hp ?_) hcorr
    rw [hcorr, ChanFrame.asks, due_self]
    exact Nat.one_pos
  | _ => trivial

variable [DecidableEq V] [Portable V]

omit [DecidableEq V] in
/-- More values accepted. -/
theorem RemoteOk.mono {accepted accepted' : List (Item V)} (h : RemoteOk accepted r)
    (hacc : ∀ i ∈ accepted, i ∈ accepted') : RemoteOk accepted' r := by
  refine ⟨?_, h.pending, h.lane, fun i hi => hacc i (h.done i hi), h.received⟩
  intro t task htask
  have hok := h.tasks t task htask
  exact ⟨hok.epoch, hok.idle, hok.asleep, hok.handed,
    fun hwake e parts corr i hpark => hacc i (hok.acked hwake e parts corr i hpark), hok.opened⟩

omit [Portable V] in
/-- A correlation the owner knows of is pending. -/
theorem Books.pending (h : Books o r l) (hpos : 0 < o.waiting corr + o.answers corr) :
    (r.pending corr).isSome := by
  have hans := h.answered corr
  exact Remote.pending_of_due (by omega)

/-- The owner notices of the remote VM only which pending operations are suspended. -/
theorem OwnerOk.remote (h : OwnerOk o r l)
    (hparks : ∀ p, r'.sched.Parks p → (r.pending p.corr).isSome → r.sched.Parks p)
    (hbooks : Books o r' l')
    (hrelayed : ∀ i ∈ r'.ledger.issued, i.side = .remote ∧ i.number < r'.ledger.issued.length) :
    OwnerOk o r' l' := by
  -- a request that waits or is answered is pending, so that its task was parked before
  have hsame : ∀ corr, 0 < o.waiting corr + o.answers corr → ∀ p, r'.sched.Parks p →
      p.corr = corr → r.sched.Parks p := by
    rintro corr hpos p hp rfl
    exact hparks p hp (h.books.pending hpos)
  have hwaiting : ∀ {c : ChanId} {ch : NativeChannelState V} {corr : Corr},
      o.chans[c]? = some ch → 0 < ch.asks corr → 0 < o.waiting corr + o.answers corr := by
    intro c ch corr hch hpos
    have := le_tally_of_getElem? (f := NativeChannelState.asks corr) hch
    unfold Owner.waiting
    omega
  have hanswers : ∀ {frame : ChanFrame V} {corr : Corr}, frame ∈ o.out → 0 < frame.answers corr →
      0 < o.waiting corr + o.answers corr := by
    intro frame corr hin hpos
    have := le_tally (f := ChanFrame.answers corr) hin
    unfold Owner.answers
    omega
  refine ⟨h.tasks, ?_, ⟨?_, ?_⟩, hbooks, h.ledger, hrelayed⟩
  · -- the queues: the parks of remote waiters are those of before
    intro c ch hch
    have hqueue := h.queues c ch hch
    refine ⟨hqueue.buffer, hqueue.recvLocal, ?_, hqueue.sendLocal, ?_⟩
    · intro corr hin
      refine (hqueue.recvRemote corr hin).mono (hsame corr (hwaiting hch ?_))
      have := le_tally (f := RecvWaiter.asks corr) hin
      rw [show RecvWaiter.asks corr (.remoteOp corr) = 1 from due_self corr] at this
      unfold NativeChannelState.asks
      omega
    · intro corr v hin
      obtain ⟨hchan, hside, hat⟩ := hqueue.sendRemote corr v hin
      refine ⟨hchan, hside, hat.mono (hsame corr (hwaiting hch ?_))⟩
      have := le_tally (f := SendWaiter.asks corr) hin
      rw [show SendWaiter.asks corr (.remoteOp corr v) = 1 from due_self corr] at this
      unfold NativeChannelState.asks
      omega
  · -- the frames on their way: the same
    intro corr v hin
    obtain ⟨hat, hcross⟩ := h.frames.value corr v hin
    refine ⟨hat.mono (hsame corr (hanswers hin ?_)), hcross⟩
    rw [show ChanFrame.answers corr (.value corr v) = 1 from due_self corr]
    exact Nat.one_pos
  · intro corr hin
    obtain ⟨i, hi, hat⟩ := h.frames.ack corr hin
    refine ⟨i, hi, hat.mono (hsame corr (hanswers hin ?_))⟩
    rw [show ChanFrame.answers corr (.ack corr : ChanFrame V) = 1 from due_self corr]
    exact Nat.one_pos

/-- Both invariants. -/
structure PairOk (o : Owner V) (r : Remote V) (l : Limbo V) : Prop where
  owner : OwnerOk o r l
  remote : RemoteOk o.ledger.accepted r

/-! ## Tasks -/

omit [DecidableEq V] [Portable V] in
theorem PendingOk.modifyTask {sched : Sched (RelayPark V) V} {n : Corr} {p : PendingChanOp}
    (h : PendingOk sched n corr p) (hepoch : ∀ task, (g task).parkEpoch = task.parkEpoch)
    (hpark : ∀ task, (g task).park = task.park) : PendingOk (sched.modifyTask t g) n corr p := by
  refine ⟨h.issued, h.pos, Nat.le_trans h.epoch (Nat.le_of_eq Sched.parkSeq_modifyTask.symm), ?_⟩
  intro task' htask' he
  obtain ⟨task, htask, ⟨rfl, -⟩ | ⟨rfl, -⟩⟩ := Sched.of_task?_modifyTask htask'
  · exact h.parked _ htask he
  · rw [hpark]
    exact h.parked task htask ((hepoch task).symm.trans he)

omit [DecidableEq V] [Portable V] in
theorem PendingOk.loadTaskContext {sched : Sched (RelayPark V) V} {n : Corr} {p : PendingChanOp}
    (h : PendingOk sched n corr p) : PendingOk (sched.loadTaskContext t) n corr p := by
  have hseq : (sched.loadTaskContext t).parkSeq = sched.parkSeq + 1 := Sched.parkSeq_modifyTask
  refine ⟨h.issued, h.pos, hseq ▸ Nat.le_succ_of_le h.epoch, ?_⟩
  intro task' htask' he
  obtain ⟨old, hold, hcase⟩ := Sched.of_task?_modifyTask htask'
  replace hold : sched.task? p.task = some old := hold
  obtain ⟨rfl, -⟩ | ⟨rfl, -⟩ := hcase
  · exact h.parked _ hold he
  · have hle := h.epoch
    rw [← he] at hle
    exact absurd hle (Nat.not_succ_le_self _)

omit [DecidableEq V] [Portable V] in
theorem PendingOk.allocTask {sched : Sched (RelayPark V) V} {n : Corr} {p : PendingChanOp}
    (h : PendingOk sched n corr p) : PendingOk sched.allocTask n corr p := by
  refine ⟨h.issued, h.pos, Nat.le_trans h.epoch (Nat.le_of_eq Sched.parkSeq_allocTask.symm), ?_⟩
  intro task htask he
  rcases Sched.of_task?_allocTask htask with htask | rfl
  · exact h.parked task htask he
  · have hpos := h.pos
    rw [← he] at hpos
    exact absurd hpos (Nat.not_succ_le_zero 0)

omit [DecidableEq V] [Portable V] in
theorem PendingOk.complete {sched : Sched (RelayPark V) V} {n : Corr} {p : PendingChanOp}
    (h : PendingOk sched n corr p) : PendingOk (sched.complete t) n corr p :=
  ⟨h.issued, h.pos, h.epoch, fun task' htask' => h.parked task' (Sched.of_task?_complete htask')⟩

omit [DecidableEq V] [Portable V] in
/-- A task that parks was in no operation. -/
theorem PendingOk.park {sched : Sched (RelayPark V) V} {n : Corr} {p : PendingChanOp}
    {q : RelayPark V} {m : Corr} (h : PendingOk sched n corr p) (hn : n ≤ m)
    (htask : sched.task? t = some task) (hidle : task.park = none) :
    PendingOk (sched.park t q) m corr p := by
  refine ⟨Nat.lt_of_lt_of_le h.issued hn, h.pos,
    Nat.le_trans h.epoch (Nat.le_of_eq Sched.parkSeq_modifyTask.symm), ?_⟩
  intro task' htask' he
  obtain ⟨old, hget, ⟨rfl, -⟩ | ⟨rfl, hme⟩⟩ := Sched.of_task?_modifyTask htask'
  · exact h.parked _ hget he
  · obtain ⟨q', hq', -⟩ := h.parked old hget he
    rw [hme, htask, Option.some.injEq] at hget
    rw [← hget, hidle] at hq'
    cases hq'

omit [DecidableEq V] [Portable V] in
/-- The operation a task begins, and parks on. -/
theorem pendingOk_park {sched : Sched (RelayPark V) V} {p : PendingChanOp} {q : RelayPark V}
    (hpos : 1 ≤ p.epoch) (hseq : p.epoch ≤ sched.parkSeq) :
    PendingOk (sched.park p.task q) (q.corr + 1) q.corr p := by
  refine ⟨Nat.lt_succ_self _, hpos,
    Nat.le_trans hseq (Nat.le_of_eq Sched.parkSeq_modifyTask.symm), ?_⟩
  intro task' htask' _
  obtain ⟨_, _, ⟨_, hne⟩ | ⟨rfl, -⟩⟩ := Sched.of_task?_modifyTask htask'
  · exact absurd rfl hne
  · exact ⟨q, rfl, rfl⟩

/-- A change of one task that stays where it is suspended. -/
theorem PairOk.modifyTask (h : PairOk o r l) (htask : r.sched.task? t = some task)
    (hepoch : ∀ task, (g task).parkEpoch = task.parkEpoch)
    (hpark : ∀ task, (g task).park = task.park)
    (hok : RelayTaskOk o.ledger.accepted r.sched.parkSeq r.nextCorr r.endpoints (g task))
    (hholds : ∀ i, (g task).holds i + tally (here i) l'.hand =
      task.holds i + tally (here i) l.hand)
    (howed : l'.owed = l.owed) (hbegun : l'.begun = l.begun) :
    PairOk o { r with sched := r.sched.modifyTask t g } l' := by
  have hparks : ∀ p, (r.sched.modifyTask t g).Parks p → r.sched.Parks p :=
    fun p hp => hp.of_modifyTask fun task hq => (hpark task).symm.trans hq
  have hb := h.owner.books
  refine ⟨h.owner.remote (fun p hp _ => hparks p hp)
    ⟨?_, hb.untaken, hb.once, ?_, ?_⟩ h.owner.relayed, ?_, ?_, ?_, h.remote.done,
    h.remote.received⟩
  · intro i
    have hmod := Sched.tallyTasks_modifyTask (f := Task.holds i) (g := g) htask
    have hcons := hb.conserved i
    have hholds := hholds i
    unfold Remote.held at *
    dsimp only
    omega
  · intro i
    rw [hbegun]
    exact hb.sends i
  · intro corr
    rw [howed]
    exact hb.answered corr
  · intro u task' htask'
    dsimp only
    rw [Sched.parkSeq_modifyTask]
    obtain ⟨old, hold, ⟨rfl, -⟩ | ⟨rfl, rfl⟩⟩ := Sched.of_task?_modifyTask htask'
    · exact h.remote.tasks u _ hold
    · rw [htask, Option.some.injEq] at hold
      exact hold ▸ hok
  · intro corr p hp
    exact (h.remote.pending corr p hp).modifyTask hepoch hpark
  · intro frame hin
    exact (h.remote.lane frame hin).mono fun p hp _ => hparks p hp

/-- The flags of a task may be cleared and set, except that a parked task is not put to
sleep with a wake. -/
theorem PairOk.flags (h : PairOk o r l) (hepoch : ∀ task, (g task).parkEpoch = task.parkEpoch)
    (hpark : ∀ task, (g task).park = task.park) (hwake : ∀ task, (g task).wake = task.wake)
    (hon : ∀ task, (g task).parkedOnChannel = true → task.parkedOnChannel = true) :
    PairOk o { r with sched := r.sched.modifyTask t g } l := by
  cases htask : r.sched.task? t with
  | none =>
    rw [Sched.modifyTask, htask]
    exact h
  | some task =>
    have hok := h.remote.tasks t task htask
    refine h.modifyTask htask hepoch hpark ⟨?_, ?_, ?_, ?_, ?_, ?_⟩ (fun i => ?_) rfl rfl
    · rw [hepoch]
      exact hok.epoch
    · intro hidle
      rw [hpark] at hidle
      obtain ⟨hoff, hnone⟩ := hok.idle hidle
      refine ⟨?_, (hwake task).trans hnone⟩
      by_contra hne
      rw [hon task (eq_true_of_ne_false hne)] at hoff
      cases hoff
    · intro hp
      exact (hwake task).trans (hok.asleep (hon task hp))
    · rw [hwake, hpark]
      exact hok.handed
    · rw [hwake, hpark]
      exact hok.acked
    · rw [hpark]
      exact hok.opened
    · rw [Task.holds, hwake, Task.holds]

theorem PairOk.takeCancellation (h : PairOk o r l) : PairOk o (r.takeCancellation t) l :=
  h.flags (fun _ => rfl) (fun _ => rfl) (fun _ => rfl) fun _ hon => hon

theorem PairOk.requestCancel (h : PairOk o r l) :
    PairOk o { r with sched := r.sched.requestCancel t } l := by
  refine h.flags (fun _ => rfl) (fun _ => rfl) (fun _ => rfl) ?_
  intro task hon
  dsimp only at hon
  split at hon
  · exact hon
  · cases hon

theorem PairOk.wake (h : PairOk o r l) (htask : r.sched.task? t = some task)
    (hon : task.parkedOnChannel = true) {w : Wake V}
    (hhand : ∀ i, w.holds i + tally (here i) l'.hand = tally (here i) l.hand)
    (howed : l'.owed = l.owed) (hbegun : l'.begun = l.begun)
    (hrecv : ∀ i, w = .channelRecv i → Portable.crossError i.value = none ∧
      ∃ e parts corr, task.park = some (.recv e parts corr) ∧ parts.home = i.chan)
    (hack : w = .channelSendOk →
      ∀ e parts corr i, task.park = some (.send e parts corr i) → i ∈ o.ledger.accepted) :
    PairOk o (r.wakeChannelTask t w) l' := by
  have hok := h.remote.tasks t task htask
  have hnone := hok.asleep hon
  refine h.modifyTask htask (fun _ => rfl) (fun _ => rfl) ⟨hok.epoch, ?_, ?_, ?_, ?_, hok.opened⟩
    (fun i => ?_) howed hbegun
  · intro hidle
    rw [(hok.idle hidle).1] at hon
    cases hon
  · intro hfalse
    cases hfalse
  · intro i hi
    exact hrecv i (Option.some.inj hi)
  · intro hw
    exact hack (Option.some.inj hw)
  · have hhand := hhand i
    unfold Task.holds
    rw [hnone]
    dsimp only [Option.elim_some, Option.elim_none]
    omega

theorem PairOk.loadTask (h : PairOk o r {}) (htask : r.sched.task? t = some task) :
    PairOk o { r with sched := r.sched.loadTaskContext t } { hand := task.inHand } := by
  have hseq : (r.sched.loadTaskContext t).parkSeq = r.sched.parkSeq + 1 :=
    Sched.parkSeq_modifyTask
  have hb := h.owner.books
  refine ⟨h.owner.remote (fun p hp _ => hp.of_loadTaskContext)
    ⟨?_, hb.untaken, hb.once, hb.sends, hb.answered⟩ h.owner.relayed, ?_, ?_, ?_, h.remote.done,
    h.remote.received⟩
  · intro i
    have hmod : (r.sched.loadTaskContext t).tallyTasks (Task.holds i) + task.holds i =
        r.sched.tallyTasks (Task.holds i) + 0 :=
      Sched.tallyTasks_modifyTask (s := { r.sched with parkSeq := r.sched.parkSeq + 1 })
        (f := Task.holds i) htask
    have hcons : o.held i + r.held i + 0 = _ := hb.conserved i
    dsimp only
    rw [task.tally_inHand]
    unfold Remote.held at *
    dsimp only
    omega
  · intro u task' htask'
    dsimp only
    rw [hseq]
    obtain ⟨old, hold, hcase⟩ := Sched.of_task?_modifyTask htask'
    replace hold : r.sched.task? u = some old := hold
    obtain ⟨rfl, -⟩ | ⟨rfl, rfl⟩ := hcase
    · have hok := h.remote.tasks u _ hold
      exact ⟨Nat.le_succ_of_le hok.epoch, hok.idle, hok.asleep, hok.handed, hok.acked, hok.opened⟩
    · exact ⟨Nat.le_refl _, fun _ => ⟨rfl, rfl⟩, fun _ => rfl, (fun _ hne => by cases hne),
        (fun hne => by cases hne), fun _ hne => by cases hne⟩
  · exact fun corr p hp => (h.remote.pending corr p hp).loadTaskContext
  · intro frame hin
    exact (h.remote.lane frame hin).mono fun p hp _ => hp.of_loadTaskContext

theorem PairOk.allocTask (h : PairOk o r {}) :
    PairOk o { r with sched := r.sched.allocTask } {} := by
  have hb := h.owner.books
  refine ⟨h.owner.remote (fun p hp _ => hp.of_allocTask)
    ⟨?_, hb.untaken, hb.once, hb.sends, hb.answered⟩ h.owner.relayed, ?_, ?_, ?_, h.remote.done,
    h.remote.received⟩
  · intro i
    have hsame := Sched.tallyTasks_allocTask (s := r.sched) (f := Task.holds i) rfl
    have hcons := hb.conserved i
    unfold Remote.held at *
    dsimp only at *
    omega
  · intro t task htask
    dsimp only
    rw [Sched.parkSeq_allocTask]
    rcases Sched.of_task?_allocTask htask with htask | rfl
    · exact h.remote.tasks t task htask
    · exact ⟨Nat.zero_le _, fun _ => ⟨rfl, rfl⟩, fun _ => rfl, (fun _ hne => by cases hne),
        (fun hne => by cases hne), fun _ hne => by cases hne⟩
  · exact fun corr p hp => (h.remote.pending corr p hp).allocTask
  · intro frame hin
    exact (h.remote.lane frame hin).mono fun p hp _ => hp.of_allocTask

theorem PairOk.complete (h : PairOk o r {}) (hrun : r.sched.running t = some task) :
    PairOk o { r with sched := r.sched.complete t } {} := by
  obtain ⟨htask, hidle, -⟩ := Sched.running_eq_some hrun
  have hnone := ((h.remote.tasks t task htask).idle hidle).2
  have hb := h.owner.books
  refine ⟨h.owner.remote (fun p hp _ => hp.of_complete)
    ⟨?_, hb.untaken, hb.once, hb.sends, hb.answered⟩ h.owner.relayed,
    fun u task' htask' => h.remote.tasks u task' (Sched.of_task?_complete htask'), ?_, ?_,
    h.remote.done, h.remote.received⟩
  · intro i
    have hgone := Sched.tallyTasks_complete (f := Task.holds i) htask
    have hzero : task.holds i = 0 := by
      rw [Task.holds, hnone]
      rfl
    have hcons := hb.conserved i
    unfold Remote.held at *
    dsimp only at *
    omega
  · exact fun corr p hp => (h.remote.pending corr p hp).complete
  · intro frame hin
    exact (h.remote.lane frame hin).mono fun p hp _ => hp.of_complete

/-! ## Frames and the ledger -/

/-- Frames that ask for nothing are emitted; values in hand may go home in them. -/
theorem PairOk.emit (h : PairOk o r l) {frames : List (ChanFrame V)} {reap : List HostedId}
    (hreturns : ∀ i, tally (ChanFrame.returns i) frames + tally (here i) l'.hand =
      tally (here i) l.hand)
    (hplain : ∀ frame ∈ frames, (∀ i, frame.offers i = 0) ∧ ∀ corr, frame.asks corr = 0)
    (howed : l'.owed = l.owed) (hbegun : l'.begun = l.begun) :
    PairOk o { r with out := r.out ++ frames, reap } l' := by
  -- the frames carry no requests, so only what is returned changes
  have hoffers : ∀ i, tally (ChanFrame.offers i) frames = 0 :=
    fun i => tally_eq_zero fun frame hin => (hplain frame hin).1 i
  have hasks : ∀ corr, tally (ChanFrame.asks corr) frames = 0 :=
    fun corr => tally_eq_zero fun frame hin => (hplain frame hin).2 corr
  have hb := h.owner.books
  refine ⟨h.owner.remote (fun p hp _ => hp) ⟨?_, ?_, hb.once, ?_, ?_⟩ h.owner.relayed,
    h.remote.tasks, h.remote.pending, ?_, h.remote.done, h.remote.received⟩
  · intro i
    have hcons := hb.conserved i
    have hreturns := hreturns i
    unfold Remote.held at *
    dsimp only
    rw [tally_append]
    omega
  · intro i
    have huntaken := hb.untaken i
    unfold Remote.offering at *
    dsimp only
    rw [tally_append, hoffers i]
    omega
  · intro i
    rw [hbegun]
    exact hb.sends i
  · intro corr
    have hans : _ ≤ r.due corr := hb.answered corr
    rw [howed]
    unfold Remote.asking at *
    show tally (ChanFrame.asks corr) (r.out ++ frames) + _ + _ + _ ≤ r.due corr
    rw [tally_append, hasks corr]
    omega
  · intro frame hin
    rcases List.mem_append.mp hin with hin | hin
    · exact (h.remote.lane frame hin).mono fun p hp _ => hp
    · have hask := (hplain frame hin).2
      cases frame with
      | send id corr v =>
        have := hask corr
        rw [ChanFrame.asks, due_self] at this
        cases this
      | recv id corr =>
        have := hask corr
        rw [ChanFrame.asks, due_self] at this
        cases this
      | _ => trivial

theorem PairOk.flushChanReap (h : PairOk o r l) : PairOk o r.flushChanReap l := by
  refine h.emit (fun i => ?_) ?_ rfl rfl
  · have hzero : tally (ChanFrame.returns i) (r.reap.map .release) = 0 := by
      refine tally_eq_zero fun frame hin => ?_
      obtain ⟨id, -, rfl⟩ := List.mem_map.mp hin
      rfl
    omega
  · intro frame hin
    obtain ⟨id, -, rfl⟩ := List.mem_map.mp hin
    exact ⟨fun _ => rfl, fun _ => rfl⟩

theorem PairOk.receive (h : PairOk o r l) (hchan : v.chan = c) (hhand : l.hand = v :: l'.hand)
    (howed : l'.owed = l.owed) (hbegun : l'.begun = l.begun) : PairOk o (r.receive c v) l' := by
  have hb := h.owner.books
  refine ⟨h.owner.remote (fun p hp _ => hp) ⟨?_, hb.untaken, hb.once, ?_, ?_⟩ h.owner.relayed,
    h.remote.tasks, h.remote.pending,
    fun frame hin => (h.remote.lane frame hin).mono fun p hp _ => hp, h.remote.done, ?_⟩
  · intro i
    have hcons := hb.conserved i
    rw [hhand, tally_cons] at hcons
    unfold Remote.held Ledger.returned Remote.receive at *
    dsimp only at *
    rw [tally_cons]
    dsimp only
    omega
  · intro i
    rw [hbegun]
    exact hb.sends i
  · intro corr
    rw [howed]
    exact hb.answered corr
  · intro c' i hin
    rcases List.mem_cons.mp hin with heq | hin
    · obtain ⟨rfl, rfl⟩ := Prod.mk.inj heq
      exact hchan
    · exact h.remote.received c' i hin

theorem PairOk.sendDone (h : PairOk o r l) {outcome : Outcome}
    (hsent : outcome = .sent → v ∈ o.ledger.accepted) : PairOk o (r.sendDone v outcome) l := by
  have hb := h.owner.books
  refine ⟨h.owner.remote (fun p hp _ => hp)
    ⟨hb.conserved, hb.untaken, hb.once, hb.sends, hb.answered⟩ h.owner.relayed, h.remote.tasks,
    h.remote.pending, fun frame hin => (h.remote.lane frame hin).mono fun p hp _ => hp, ?_,
    h.remote.received⟩
  intro i hin
  rcases List.mem_cons.mp hin with heq | hin
  · obtain ⟨rfl, rfl⟩ := Prod.mk.inj heq
    exact hsent rfl
  · exact h.remote.done i hin

end Quoin.Channel
