import Quoin.Channel.Operations
import Quoin.Trans.Run

/-!
# Quoin — conservation on one thread

Every step of the owning VM's tasks keeps `OwnerOk`, whatever the remote VM has
under way; so every run of them alone does (`local_conservation`).

A value is the channel's from the moment it is taken from its sender: handed to
a receiver, buffered, or moved out of a parked sender's queue entry. A sender
whose value was taken while it was parked has been woken, but it has not
returned: if it is cancelled before it runs again, its send raises, and the
value stays where it is (`cancelled_send_delivers`). Apart from that the value
of a send is in exactly one place if the send came out, and in none if not.

## Results

* `local_conservation` — in every state of every run each value taken from a sender is in one place,
  and the value of a send that came out was taken once;
* `cancelled_send_delivers` — a send that raises since it was cancelled may have delivered its
  value.
-/

namespace Quoin.Channel

open Trans

variable {V : Type} {o o' : Owner V} {r : Remote V} {c : ChanId} {t : TaskId}
  {task : Task (Park V) V} {v : Item V}

/-! ## Resuming -/

/-- The value a task was woken with. -/
def Task.inHand {P : Type} (task : Task P V) : List (Item V) :=
  match task.wake with
  | some (.channelRecv v) => [v]
  | _ => []

/-- The send a task was suspended in. -/
def Task.begun (task : Task (Park V) V) : List (Item V) :=
  match task.park with
  | some (.send _ v) => [v]
  | _ => []

variable [DecidableEq V]

theorem Task.tally_inHand {P : Type} (task : Task P V) (i : Item V) :
    tally (here i) task.inHand = task.holds i := by
  unfold Task.inHand Task.holds
  split
  · rename_i h
    rw [h]
    rfl
  · cases h : task.wake with
    | none => rfl
    | some w =>
      cases w with
      | channelRecv v => simp_all
      | channelSendOk => rfl
      | channelClosed => rfl
      | channelErr m => rfl

theorem Task.tally_begun (task : Task (Park V) V) (i : Item V) :
    tally (here i) task.begun = task.sends i := by
  unfold Task.begun Task.sends
  split
  · rename_i h
    rw [h]
    rfl
  · cases h : task.park with
    | none => rfl
    | some p =>
      cases p with
      | send c v => simp_all
      | recv c => rfl

variable [Portable V]

theorem OwnerOk.loadTask (h : OwnerOk o r {}) (htask : o.sched.task? t = some task) :
    OwnerOk { o with sched := o.sched.loadTaskContext t } r
      { hand := task.inHand, begun := task.begun } := by
  have hseq : (o.sched.loadTaskContext t).parkSeq = o.sched.parkSeq + 1 :=
    Sched.parkSeq_modifyTask
  refine ⟨?_, ?_, h.frames, ⟨?_, h.books.untaken, h.books.once, ?_, h.books.answered⟩, h.ledger,
    h.relayed⟩
  · -- the tasks: the one that is loaded has nothing left of its park
    intro u task' htask'
    dsimp only
    rw [hseq]
    obtain ⟨old, hold, hcase⟩ := Sched.of_task?_modifyTask htask'
    replace hold : o.sched.task? u = some old := hold
    obtain ⟨rfl, -⟩ | ⟨rfl, rfl⟩ := hcase
    · have hok := h.tasks u _ hold
      exact ⟨Nat.le_succ_of_le hok.epoch, hok.idle, hok.asleep, hok.handed, hok.receiver,
        hok.sender⟩
    · exact ⟨Nat.le_refl _, fun _ => ⟨rfl, rfl⟩, fun _ => rfl, (fun _ hne => by cases hne),
        (fun _ hne => by cases hne), fun _ _ hne => by cases hne⟩
  · -- the queues: a newer number makes older parks no younger
    intro c ch hch
    refine (h.queues c ch hch).sched (hseq ▸ Nat.le_succ _) ?_
    intro u e p _ hle hs
    exact hs.loadTaskContext hle
  · -- the books: what the task held is in the hand of who runs it
    intro i
    have hmod : (o.sched.loadTaskContext t).tallyTasks (Task.holds i) + task.holds i =
        o.sched.tallyTasks (Task.holds i) + 0 :=
      Sched.tallyTasks_modifyTask (s := { o.sched with parkSeq := o.sched.parkSeq + 1 })
        (f := Task.holds i) htask
    have hcons : o.held i + r.held i + 0 = _ := h.books.conserved i
    dsimp only
    rw [task.tally_inHand]
    unfold Owner.held at *
    dsimp only
    omega
  · -- and its send, if it was one, is begun again
    intro i
    have hmod : (o.sched.loadTaskContext t).tallyTasks (Task.sends i) + task.sends i =
        o.sched.tallyTasks (Task.sends i) + 0 :=
      Sched.tallyTasks_modifyTask (s := { o.sched with parkSeq := o.sched.parkSeq + 1 })
        (f := Task.sends i) htask
    have hsends : o.sending i + o.ledger.settled i + 0 = _ := h.books.sends i
    dsimp only
    rw [task.tally_begun]
    unfold Owner.sending at *
    dsimp only
    omega

/-- The flags of a task may be cleared and set, except that a parked task is not put to
sleep with a wake. -/
theorem OwnerOk.flags {l : Limbo V} (h : OwnerOk o r l) {g : Task (Park V) V → Task (Park V) V}
    (hepoch : ∀ task, (g task).parkEpoch = task.parkEpoch)
    (hpark : ∀ task, (g task).park = task.park) (hwake : ∀ task, (g task).wake = task.wake)
    (hon : ∀ task, (g task).parkedOnChannel = true → task.parkedOnChannel = true) :
    OwnerOk { o with sched := o.sched.modifyTask t g } r l := by
  cases htask : o.sched.task? t with
  | none =>
    rw [Sched.modifyTask, htask]
    exact h
  | some task =>
    have hok := h.tasks t task htask
    refine h.modifyTask htask hepoch hpark ⟨?_, ?_, ?_, ?_, ?_, ?_⟩ (fun i => ?_) rfl rfl
    · rw [hepoch]
      exact hok.epoch
    · intro hidle
      rw [hpark] at hidle
      obtain ⟨hoff, hnone⟩ := hok.idle hidle
      refine ⟨?_, (hwake task).trans hnone⟩
      by_contra hne
      rw [hon task (eq_true_of_ne_false hne)] at hoff
      cases hoff
    · intro hp
      exact (hwake task).trans (hok.asleep (hon task hp))
    · rw [hwake, hpark]
      exact hok.handed
    · rw [hpark]
      exact hok.receiver
    · rw [hpark, hwake]
      exact hok.sender
    · rw [Task.holds, hwake, Task.holds]

theorem OwnerOk.takeCancellation {l : Limbo V} (h : OwnerOk o r l) :
    OwnerOk (o.takeCancellation t) r l :=
  h.flags (fun _ => rfl) (fun _ => rfl) (fun _ => rfl) fun _ hon => hon

theorem OwnerOk.requestCancel {l : Limbo V} (h : OwnerOk o r l) :
    OwnerOk { o with sched := o.sched.requestCancel t } r l := by
  refine h.flags (fun _ => rfl) (fun _ => rfl) (fun _ => rfl) ?_
  intro task hon
  dsimp only at hon
  split at hon
  · exact hon
  · cases hon

/-- The end of a suspended send. -/
theorem OwnerOk.resumeSend {wake : Option (Wake V)} {cancelled : Bool}
    (h : OwnerOk o r { begun := [v] }) (hwake : ∀ i, wake ≠ some (.channelRecv i))
    (htaken : Owner.taken wake = true ↔ v ∈ o.ledger.accepted) :
    OwnerOk (o.resumePark t (.send c v) wake cancelled) r {} := by
  have hdone : ∀ {o : Owner V} {outcome : Outcome}, OwnerOk o r { begun := [v] } →
      (outcome.took = true ↔ v ∈ o.ledger.accepted) → OwnerOk (o.sendDone v outcome) r {} :=
    fun hok htook => hok.sendDone htook rfl rfl rfl
  unfold Owner.resumePark
  dsimp only
  split
  · have hsame : o.redeliverWake c wake = o := by
      unfold Owner.redeliverWake
      split
      · rename_i i
        exact absurd rfl (hwake i)
      · rfl
    rw [hsame]
    exact hdone h.takeCancellation htaken
  · split
    · exact hdone h htaken
    · exact hdone h htaken
    · rename_i i
      exact absurd rfl (hwake i)
    · rename_i hok _ _
      refine hdone h ⟨(fun hfalse => by cases hfalse), fun hin => ?_⟩
      have := htaken.mpr hin
      unfold Owner.taken at this
      split at this
      · exact absurd rfl hok
      · cases this

/-- The end of a suspended receive. -/
theorem OwnerOk.resumeRecv (h : OwnerOk o r { hand := task.inHand })
    (hc : c < o.chans.length) (hchan : ∀ i, task.wake = some (.channelRecv i) → i.chan = c) :
    OwnerOk (o.resumePark t (.recv c) task.wake task.cancelRequested) r {} := by
  have hch := List.getElem?_eq_getElem hc
  unfold Owner.resumePark Task.inHand at *
  dsimp only
  cases hwake : task.wake with
  | none =>
    rw [hwake] at h
    split
    · exact h.takeCancellation
    · exact h
  | some w =>
    rw [hwake] at h
    cases w with
    | channelRecv i =>
      have hi := hchan i hwake
      replace h : OwnerOk o r { hand := [i] } := h
      split
      · have hback : OwnerOk (o.channelRedeliver c i) r {} :=
          h.channelRedeliver hch hi rfl rfl rfl
        exact hback.takeCancellation
      · exact h.receive hi rfl rfl rfl
    | channelSendOk | channelClosed | channelErr m =>
      split
      · exact h.takeCancellation
      · exact h

theorem OwnerOk.load (h : OwnerOk o r {}) (hload : o.load t = some o') : OwnerOk o' r {} := by
  unfold Owner.load at hload
  cases htask : o.sched.task? t with
  | none =>
    rw [htask] at hload
    cases hload
  | some task =>
    rw [htask] at hload
    dsimp only at hload
    split at hload
    · cases hload
    have hok := h.tasks t task htask
    have hloaded := h.loadTask htask
    -- a task that was not parked here has nothing to give up
    cases hpark : task.park with
    | none =>
      rw [hpark] at hload
      obtain rfl := Option.some.inj hload
      rw [Task.inHand, Task.begun, (hok.idle hpark).2, hpark] at hloaded
      exact hloaded
    | some p =>
      rw [hpark] at hload
      obtain rfl := Option.some.inj hload
      cases p with
      | send c v =>
        -- a sender is never handed a value
        have hwake : ∀ i, task.wake ≠ some (.channelRecv i) := by
          intro i hi
          rw [hok.handed i hi] at hpark
          cases hpark
        have hhand : task.inHand = [] := by
          unfold Task.inHand
          split
          · rename_i i hi
            exact absurd hi (hwake i)
          · rfl
        rw [hhand, Task.begun, hpark] at hloaded
        exact hloaded.resumeSend hwake (hok.sender c v hpark).2.2
      | recv c =>
        rw [Task.begun, hpark] at hloaded
        refine hloaded.resumeRecv (hok.receiver c hpark) ?_
        -- what a receiver was handed is of its channel
        intro i hi
        have := hok.handed i hi
        rw [hpark, Option.some.injEq] at this
        exact (Park.recv.inj this).symm

/-! ## Steps -/

theorem OwnerOk.newChannel (h : OwnerOk o r {}) (cap : Nat) :
    OwnerOk { o with chans := o.chans ++ [{ cap }] } r {} := by
  refine ⟨?_, ?_, h.frames, ⟨?_, ?_, h.books.once, h.books.sends, ?_⟩, h.ledger, h.relayed⟩
  · intro t task htask
    have hok := h.tasks t task htask
    refine ⟨hok.epoch, hok.idle, hok.asleep, hok.handed, ?_, hok.sender⟩
    intro c hc
    rw [List.length_append]
    exact Nat.lt_add_right 1 (hok.receiver c hc)
  · intro c ch hch
    dsimp only at hch
    -- the last channel is the new one, with empty queues
    rcases Nat.lt_or_ge c o.chans.length with hlt | hge
    · rw [List.getElem?_append_left hlt] at hch
      exact h.queues c ch hch
    · rw [List.getElem?_append_right hge, List.getElem?_singleton] at hch
      split at hch
      · obtain rfl := Option.some.inj hch
        refine ⟨?_, ?_, ?_, ?_, ?_⟩
        · intro i hi
          cases hi
        · intro t e hin
          cases hin
        · intro corr hin
          cases hin
        · intro t e v hin
          cases hin
        · intro corr v hin
          cases hin
      · cases hch
  · intro i
    have hcons := h.books.conserved i
    unfold Owner.held at *
    dsimp only at *
    rw [tally_append, tally_cons, tally_nil]
    have : NativeChannelState.buffered i ({ cap } : NativeChannelState V) = 0 := rfl
    omega
  · intro i
    have huntaken := h.books.untaken i
    unfold Owner.offered at *
    dsimp only
    rw [tally_append, tally_cons, tally_nil]
    have : NativeChannelState.offers i ({ cap } : NativeChannelState V) = 0 := rfl
    omega
  · intro corr
    have hans := h.books.answered corr
    unfold Owner.waiting Owner.answers at *
    dsimp only at *
    rw [tally_append, tally_cons, tally_nil]
    have : NativeChannelState.asks corr ({ cap } : NativeChannelState V) = 0 := rfl
    omega

theorem OwnerOk.allocTask (h : OwnerOk o r {}) :
    OwnerOk { o with sched := o.sched.allocTask } r {} := by
  refine ⟨?_, ?_, h.frames, ⟨?_, h.books.untaken, h.books.once, ?_, h.books.answered⟩, h.ledger,
    h.relayed⟩
  · intro t task htask
    dsimp only
    rw [Sched.parkSeq_allocTask]
    rcases Sched.of_task?_allocTask htask with htask | rfl
    · exact h.tasks t task htask
    · exact ⟨Nat.zero_le _, fun _ => ⟨rfl, rfl⟩, fun _ => rfl, (fun _ hne => by cases hne),
        (fun _ hne => by cases hne), fun _ _ hne => by cases hne⟩
  · intro c ch hch
    exact (h.queues c ch hch).sched (Nat.le_of_eq Sched.parkSeq_allocTask.symm)
      fun _ _ _ hpos _ hs => hs.allocTask hpos
  · intro i
    have hsame := Sched.tallyTasks_allocTask (s := o.sched) (f := Task.holds i) rfl
    have hcons := h.books.conserved i
    unfold Owner.held at *
    dsimp only at *
    omega
  · intro i
    have hsame := Sched.tallyTasks_allocTask (s := o.sched) (f := Task.sends i) rfl
    have hsends := h.books.sends i
    unfold Owner.sending at *
    dsimp only at *
    omega

theorem OwnerOk.complete (h : OwnerOk o r {}) (hrun : o.sched.running t = some task) :
    OwnerOk { o with sched := o.sched.complete t } r {} := by
  obtain ⟨htask, hidle, -⟩ := Sched.running_eq_some hrun
  have hnone := ((h.tasks t task htask).idle hidle).2
  refine ⟨fun u task' htask' => h.tasks u task' (Sched.of_task?_complete htask'), ?_, h.frames,
    ⟨?_, h.books.untaken, h.books.once, ?_, h.books.answered⟩, h.ledger, h.relayed⟩
  · intro c ch hch
    exact (h.queues c ch hch).sched (Nat.le_refl _) fun _ _ _ _ _ hs => hs.complete
  · intro i
    have hgone := Sched.tallyTasks_complete (f := Task.holds i) htask
    have hzero : task.holds i = 0 := by
      rw [Task.holds, hnone]
      rfl
    have hcons := h.books.conserved i
    unfold Owner.held at *
    dsimp only at *
    omega
  · intro i
    have hgone := Sched.tallyTasks_complete (f := Task.sends i) htask
    have hzero : task.sends i = 0 := by
      rw [Task.sends, hidle]
      rfl
    have hsends := h.books.sends i
    unfold Owner.sending at *
    dsimp only at *
    omega

theorem OwnerOk.step (h : OwnerOk o r {}) {a : Owner.Action V} (hstep : o.step a = some o') :
    OwnerOk o' r {} := by
  cases a with
  | newChannel cap =>
    obtain rfl := Option.some.inj hstep
    exact h.newChannel cap
  | spawn =>
    obtain rfl := Option.some.inj hstep
    exact h.allocTask
  | complete t =>
    obtain ⟨task, hrun, rfl⟩ := Option.map_eq_some_iff.mp hstep
    exact h.complete hrun
  | load t => exact h.load hstep
  | cancel t =>
    obtain rfl := Option.some.inj hstep
    exact h.requestCancel
  | send me c v =>
    rw [Owner.step] at hstep
    split at hstep
    · rename_i hcond
      obtain rfl := Option.some.inj hstep
      obtain ⟨hrun, hc⟩ := Bool.and_eq_true_iff.mp hcond
      obtain ⟨task, hrun⟩ := Option.isSome_iff_exists.mp hrun
      exact h.channelSend hrun (List.getElem?_eq_getElem (of_decide_eq_true hc)) rfl
    · cases hstep
  | recv me c =>
    rw [Owner.step] at hstep
    split at hstep
    · rename_i hcond
      obtain rfl := Option.some.inj hstep
      obtain ⟨hrun, hc⟩ := Bool.and_eq_true_iff.mp hcond
      obtain ⟨task, hrun⟩ := Option.isSome_iff_exists.mp hrun
      exact h.channelRecv hrun (List.getElem?_eq_getElem (of_decide_eq_true hc))
    · cases hstep
  | close me c =>
    obtain ⟨task, hrun, rfl⟩ := Option.map_eq_some_iff.mp hstep
    exact h.channelClose

theorem OwnerOk.init : OwnerOk ({} : Owner V) {} {} := by
  refine ⟨?_, ?_, ⟨?_, ?_⟩, ⟨fun _ => rfl, fun _ => Nat.le_refl 0, fun _ => Nat.zero_le 1,
    fun _ => rfl, fun _ => Nat.le_refl 0⟩, ⟨?_, ?_, ?_⟩, ?_⟩
  · intro t task htask
    cases htask
  · intro c ch hch
    cases hch
  · intro corr v hin
    cases hin
  · intro corr hin
    cases hin
  · intro i hin
    cases hin
  · intro i outcome hin
    cases hin
  · intro c i hin
    cases hin
  · intro i hin
    cases hin

/-! ## Conservation -/

/-- In how many places a value is: the buffers, the wakes of receivers, the receives
that returned it. -/
def Owner.places (o : Owner V) (i : Item V) : Nat :=
  tally (NativeChannelState.buffered i) o.chans + o.sched.tallyTasks (Task.holds i) +
    o.ledger.returned i

/-- Each value is in the one place its send says. -/
structure LocallyConserved (o : Owner V) : Prop where
  sent : ∀ i, (i, .sent) ∈ o.ledger.done → o.places i = 1
  raised : ∀ i message, (i, .raised message) ∈ o.ledger.done → o.places i = 0
  cancelled : ∀ i taken, (i, .cancelled taken) ∈ o.ledger.done →
    o.places i = if taken then 1 else 0
  /-- As long as its sender is suspended in the send. -/
  sending : ∀ t task c i, o.sched.task? t = some task → task.park = some (.send c i) →
    o.places i = if Owner.taken task.wake then 1 else 0
  buffer : ∀ c ch (i : Item V), o.chans[c]? = some ch → i ∈ ch.buffer → i.chan = c
  wake : ∀ t task i, o.sched.task? t = some task → task.wake = some (.channelRecv i) →
    task.park = some (.recv i.chan)
  returned : ∀ c i, (c, i) ∈ o.ledger.received → i.chan = c
  issued : ∀ i, 0 < o.places i → i ∈ o.ledger.issued

/-- Without a remote VM no frame carries a value. -/
theorem OwnerOk.carries_eq_zero (h : OwnerOk o ({} : Remote V) {}) (i : Item V) :
    tally (ChanFrame.carries i) o.out = 0 := by
  refine tally_eq_zero ?_
  intro frame hframe
  cases frame with
  | value corr v =>
    have hle := le_tally (f := ChanFrame.answers corr) hframe
    rw [show ChanFrame.answers corr (.value corr v) = 1 from due_self corr] at hle
    have hans : 0 + o.waiting corr + o.answers corr + 0 ≤ 0 := h.books.answered corr
    unfold Owner.answers at hans
    omega
  | _ => rfl

/-- A value is in one place if it was taken, and in none if not. -/
theorem OwnerOk.places_eq (h : OwnerOk o ({} : Remote V) {}) {i : Item V} {b : Bool}
    (hb : b = true ↔ i ∈ o.ledger.accepted) : o.places i = if b then 1 else 0 := by
  have hcons : o.held i + 0 + 0 = _ := h.books.conserved i
  have huntaken := h.books.untaken i
  have honce := h.books.once i
  have hzero := h.carries_eq_zero i
  have hplaces : o.places i = tally (here i) o.ledger.accepted := by
    unfold Owner.held at hcons
    unfold Owner.places
    omega
  rw [hplaces]
  cases b with
  | true =>
    have := mem_iff_tally.mp (hb.mp rfl)
    rw [if_pos rfl]
    omega
  | false =>
    rw [if_neg Bool.false_ne_true]
    by_contra hne
    exact absurd (hb.mpr (mem_iff_tally.mpr (Nat.pos_of_ne_zero hne))) Bool.false_ne_true

/-- **Local conservation.** In every run of the owning VM's tasks, a value is in exactly
one place once the channel took it from its sender, and in none before. -/
theorem local_conservation (hRun : Reach Owner.step ({} : Owner V) o) : LocallyConserved o := by
  have hok : OwnerOk o {} {} :=
    hRun.invariant (P := fun o => OwnerOk o {} {}) .init fun _ _ _ h _ hstep => h.step hstep
  refine ⟨?_, ?_, ?_, ?_, fun c ch i hch => (hok.queues c ch hch).buffer i,
    fun t task i htask => (hok.tasks t task htask).handed i, hok.ledger.received, ?_⟩
  · intro i hin
    exact hok.places_eq (b := true) (hok.ledger.done i .sent hin)
  · intro i message hin
    exact hok.places_eq (b := false) (hok.ledger.done i (.raised message) hin)
  · intro i taken hin
    exact hok.places_eq (hok.ledger.done i (.cancelled taken) hin)
  · intro t task c i htask hpark
    exact hok.places_eq ((hok.tasks t task htask).sender c i hpark).2.2
  · intro i hpos
    have hcons : o.held i + 0 + 0 = _ := hok.books.conserved i
    have huntaken := hok.books.untaken i
    have hrest : tally (here i) ({} : Remote V).ledger.issued = 0 := rfl
    refine mem_iff_tally.mpr ?_
    unfold Owner.places at hpos
    unfold Owner.held at hcons
    omega

/-- A receiver is handed a value and cancelled; its channel has the value back. -/
theorem local_conservation_redelivered : ∃ o : Owner Int, Reach Owner.step {} o ∧
    (⟨.owner, 0, 0, 7⟩, .sent) ∈ o.ledger.done ∧ o.places ⟨.owner, 0, 0, 7⟩ = 1 := by
  have hexec : (exec Owner.step (fun _ _ => True) ({} : Owner Int) [.newChannel 0, .spawn, .spawn,
      .load 0, .load 1, .recv 0 0, .send 1 0 7, .cancel 0, .load 0]).map (fun o =>
        o.ledger.done) = some [(⟨.owner, 0, 0, 7⟩, .sent)] := by
    decide +kernel
  obtain ⟨o, hRun, hdone⟩ := run_of_exec_map hexec
  have hin : (⟨.owner, 0, 0, 7⟩, .sent) ∈ o.ledger.done := by
    rw [hdone]
    exact List.mem_cons_self
  exact ⟨o, hRun, hin, (local_conservation hRun).sent _ hin⟩

/-- The value of a send that did not succeed may be delivered all the same: a parked
sender's value is received, and the sender is cancelled before it runs again. -/
theorem cancelled_send_delivers : ¬ ∀ o : Owner Int, Reach Owner.step {} o →
    ∀ i taken, (i, .cancelled taken) ∈ o.ledger.done → o.places i = 0 := by
  intro hall
  have hexec : (exec Owner.step (fun _ _ => True) ({} : Owner Int) [.newChannel 0, .spawn, .spawn,
      .load 0, .load 1, .send 0 0 7, .recv 1 0, .cancel 0, .load 0]).map (fun o =>
        (o.ledger.done, o.places ⟨.owner, 0, 0, 7⟩)) =
      some ([(⟨.owner, 0, 0, 7⟩, .cancelled true)], 1) := by
    decide +kernel
  obtain ⟨o, hRun, hend⟩ := run_of_exec_map hexec
  obtain ⟨hdone, hplaces⟩ := Prod.mk.inj hend
  have hnowhere := hall o hRun ⟨.owner, 0, 0, 7⟩ true (by
    rw [hdone]
    exact List.mem_cons_self)
  rw [hplaces] at hnowhere
  cases hnowhere

end Quoin.Channel
