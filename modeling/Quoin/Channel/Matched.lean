import Quoin.Channel.Outcomes
import Quoin.Trans.Run

/-!
# Quoin — nobody waits for what is there

A channel is `Matched` when no live receiver is queued while a value is
buffered or a live sender is queued, and no live sender while the buffer has
room. An operation that adds a value or frees room matches it at once with the
next live waiter, and waiters only ever cease to be live: an entry belongs to
one suspension of its task (`EntryOk`), so it cannot come back to life.

One path leaves a receiver behind. A value that cannot cross bounces off a
remote receiver to the front of the buffer, and the receivers queued behind it
are not looked at; `strandsNone` says that there are none.

## Results

* `no_stranded_waiter` — in runs in which no value bounces before waiting receivers, every channel
  is matched in every state;
* `bounced_symbol_strands` — a Symbol that cannot cross is buffered in front of a receiver that goes
  on waiting.
-/

namespace Quoin.Channel

open Trans

variable {V : Type} {o o' : Owner V} {c c' : ChanId} {ch : NativeChannelState V}
  {f : NativeChannelState V → NativeChannelState V} {t me : TaskId} {e : Epoch}
  {task : Task (Park V) V} {v : Item V}

/-! ## The invariant -/

structure Matched (o : Owner V) (ch : NativeChannelState V) : Prop where
  receiver : ∀ w ∈ ch.recvWaiters, o.recvLive w = true →
    ch.buffer = [] ∧ ∀ w' ∈ ch.sendWaiters, o.sendLive w' = false
  sender : ∀ w ∈ ch.sendWaiters, o.sendLive w = true → ch.cap ≤ ch.buffer.length

/-- A local task's entry in one of the two queues. -/
def NativeChannelState.Entry (ch : NativeChannelState V) (t : TaskId) (e : Epoch) : Prop :=
  .localTask t e ∈ ch.recvWaiters ∨ ∃ v, .localTask t e v ∈ ch.sendWaiters

/-- A task that is still at the epoch of an entry is suspended. -/
structure EntryOk (sched : Sched (Park V) V) (t : TaskId) (e : Epoch) : Prop where
  pos : 1 ≤ e
  epoch : e ≤ sched.parkSeq
  asleep : ∀ task, sched.task? t = some task → task.parkEpoch = e → task.park ≠ none

structure WaitersOk (o : Owner V) : Prop where
  epoch : ∀ t task, o.sched.task? t = some task → task.parkEpoch ≤ o.sched.parkSeq
  idle : ∀ t task, o.sched.task? t = some task → task.park = none → task.parkedOnChannel = false
  entry : ∀ (c : ChanId) (ch : NativeChannelState V) (t : TaskId) (e : Epoch),
    o.chans[c]? = some ch → ch.Entry t e → EntryOk o.sched t e
  matched : ∀ (c : ChanId) (ch : NativeChannelState V), o.chans[c]? = some ch → Matched o ch

/-! ## Changes -/

/-- Fewer waiters, or fewer live ones. -/
theorem Matched.mono (h : Matched o ch) {recvs : List RecvWaiter} {sends : List (SendWaiter V)}
    (hrecv : ∀ w ∈ recvs, o'.recvLive w = true → w ∈ ch.recvWaiters ∧ o.recvLive w = true)
    (hsend : ∀ w ∈ sends, o'.sendLive w = true → w ∈ ch.sendWaiters ∧ o.sendLive w = true) :
    Matched o' { ch with recvWaiters := recvs, sendWaiters := sends } := by
  refine ⟨fun w hin hlive => ?_, fun w hin hlive => ?_⟩
  · obtain ⟨hin, hlive⟩ := hrecv w hin hlive
    obtain ⟨hbuffer, hdead⟩ := h.receiver w hin hlive
    refine ⟨hbuffer, fun w' hin' => ?_⟩
    by_contra hlive'
    rw [Bool.not_eq_false] at hlive'
    obtain ⟨hin', hlive'⟩ := hsend w' hin' hlive'
    rw [hdead w' hin'] at hlive'
    cases hlive'
  · obtain ⟨hin, hlive⟩ := hsend w hin hlive
    exact h.sender w hin hlive

theorem Matched.same (h : Matched o ch) (hsched : o'.sched = o.sched) : Matched o' ch := by
  have hrecv : o'.recvLive = o.recvLive := by
    funext w
    cases w <;> simp only [Owner.recvLive, hsched]
  have hsend : o'.sendLive = o.sendLive := by
    funext w
    cases w <;> simp only [Owner.sendLive, hsched]
  exact ⟨by rw [hrecv, hsend]; exact h.receiver, by rw [hsend]; exact h.sender⟩

theorem WaitersOk.withChan (h : WaitersOk o) (hch : o.chans[c]? = some ch)
    (hentry : ∀ t e, (f ch).Entry t e → ch.Entry t e) (hmatched : Matched o (f ch)) :
    WaitersOk (o.withChan c f) := by
  refine ⟨h.epoch, h.idle, ?_, ?_⟩
  · intro c' ch' t e hch' hin
    by_cases hc : c' = c
    · subst hc
      rw [getElem?_withChan hch, Option.some.injEq] at hch'
      subst hch'
      exact h.entry c' ch t e hch (hentry t e hin)
    · rw [getElem?_withChan_ne hc] at hch'
      exact h.entry c' ch' t e hch' hin
  · intro c' ch' hch'
    by_cases hc : c' = c
    · subst hc
      rw [getElem?_withChan hch, Option.some.injEq] at hch'
      subst hch'
      exact hmatched.same rfl
    · rw [getElem?_withChan_ne hc] at hch'
      exact (h.matched c' ch' hch').same rfl

/-- What the frames and the ledger say does not matter here. -/
theorem WaitersOk.same (h : WaitersOk o) (hsched : o'.sched = o.sched) (hchans : o'.chans = o.chans) :
    WaitersOk o' := by
  refine ⟨?_, ?_, ?_, ?_⟩
  · rw [hsched]
    exact h.epoch
  · rw [hsched]
    exact h.idle
  · rw [hsched, hchans]
    exact h.entry
  · intro c ch hch
    rw [hchans] at hch
    exact (h.matched c ch hch).same hsched

/-- A change of the task table that brings no entry back to life. -/
theorem WaitersOk.sched (h : WaitersOk o) {sched : Sched (Park V) V}
    (hepoch : ∀ t task, sched.task? t = some task → task.parkEpoch ≤ sched.parkSeq)
    (hidle : ∀ t task, sched.task? t = some task → task.park = none →
      task.parkedOnChannel = false)
    (hentry : ∀ t e, EntryOk o.sched t e → EntryOk sched t e)
    (hlive : ∀ t e, EntryOk o.sched t e → sched.channelWaiterLive t e = true →
      o.sched.channelWaiterLive t e = true) : WaitersOk { o with sched } := by
  refine ⟨hepoch, hidle, fun c ch t e hch hin => hentry t e (h.entry c ch t e hch hin), ?_⟩
  intro c ch hch
  refine (h.matched c ch hch).mono (fun w hin hw => ⟨hin, ?_⟩) fun w hin hw => ⟨hin, ?_⟩
  · cases w with
    | localTask t e => exact hlive t e (h.entry c ch t e hch (.inl hin)) hw
    | remoteOp corr => rfl
  · cases w with
    | localTask t e v => exact hlive t e (h.entry c ch t e hch (.inr ⟨v, hin⟩)) hw
    | remoteOp corr v => rfl

theorem EntryOk.modifyTask {sched : Sched (Park V) V} {g : Task (Park V) V → Task (Park V) V}
    (h : EntryOk sched t e) (hepoch : ∀ task, (g task).parkEpoch = task.parkEpoch)
    (hpark : ∀ task, (g task).park = none → task.park = none) :
    EntryOk (sched.modifyTask me g) t e := by
  refine ⟨h.pos, by rw [Sched.parkSeq_modifyTask]; exact h.epoch, ?_⟩
  intro task' htask' he
  obtain ⟨task, htask, ⟨rfl, -⟩ | ⟨rfl, -⟩⟩ := Sched.of_task?_modifyTask htask'
  · exact h.asleep _ htask he
  · exact fun hnone => h.asleep task htask ((hepoch task).symm.trans he) (hpark task hnone)

/-- A task is flagged, woken or cancelled where it is. -/
theorem WaitersOk.modifyTask (h : WaitersOk o) {g : Task (Park V) V → Task (Park V) V}
    (hepoch : ∀ task, (g task).parkEpoch = task.parkEpoch)
    (hpark : ∀ task, (g task).park = task.park)
    (hparked : ∀ task, o.sched.task? me = some task → (g task).parkedOnChannel = true →
      task.parkedOnChannel = true ∧
      ((g task).cancelRequested = false → task.cancelRequested = false ∨ task.park = none)) :
    WaitersOk { o with sched := o.sched.modifyTask me g } := by
  refine h.sched ?_ ?_ (fun t e hentry => hentry.modifyTask hepoch fun task => by rw [hpark]; exact id) ?_
  · intro t task' htask'
    rw [Sched.parkSeq_modifyTask]
    obtain ⟨task, htask, ⟨rfl, -⟩ | ⟨rfl, -⟩⟩ := Sched.of_task?_modifyTask htask'
    · exact h.epoch _ _ htask
    · rw [hepoch]
      exact h.epoch _ _ htask
  · intro t task' htask' hnone
    obtain ⟨task, htask, ⟨rfl, -⟩ | ⟨rfl, rfl⟩⟩ := Sched.of_task?_modifyTask htask'
    · exact h.idle _ _ htask hnone
    · by_contra hon
      rw [Bool.not_eq_false] at hon
      rw [hpark] at hnone
      have := h.idle _ _ htask hnone
      rw [(hparked task htask hon).1] at this
      cases this
  · intro t e _ hlive
    obtain ⟨task', htask', hon, he, hcancel⟩ := Sched.channelWaiterLive_eq_true hlive
    obtain ⟨task, htask, ⟨rfl, -⟩ | ⟨rfl, rfl⟩⟩ := Sched.of_task?_modifyTask htask'
    · simp [Sched.channelWaiterLive, htask, hon, he, hcancel]
    · obtain ⟨hon', hcancel'⟩ := hparked task htask hon
      rw [hepoch] at he
      rcases hcancel' hcancel with hcancel' | hnone
      · simp [Sched.channelWaiterLive, htask, hon', he, hcancel']
      · rw [h.idle _ _ htask hnone] at hon'
        cases hon'

theorem WaitersOk.wakeChannelTask (h : WaitersOk o) (t : TaskId) (w : Wake V) :
    WaitersOk (o.wakeChannelTask t w) :=
  h.modifyTask (fun _ => rfl) (fun _ => rfl) fun _ _ hon => by cases hon

theorem WaitersOk.requestCancel (h : WaitersOk o) (t : TaskId) :
    WaitersOk { o with sched := o.sched.requestCancel t } := by
  refine h.modifyTask (fun _ => rfl) (fun _ => rfl) fun task _ hon =>
    ⟨?_, fun hne => by cases hne⟩
  dsimp only at hon
  split at hon
  · exact hon
  · cases hon

theorem WaitersOk.takeCancellation (h : WaitersOk o)
    (hidle : ∀ task, o.sched.task? t = some task → task.park = none) :
    WaitersOk (o.takeCancellation t) :=
  h.modifyTask (fun _ => rfl) (fun _ => rfl) fun task htask hon =>
    ⟨hon, fun _ => .inr (hidle task htask)⟩

theorem WaitersOk.loadTaskContext (h : WaitersOk o) (t : TaskId) :
    WaitersOk { o with sched := o.sched.loadTaskContext t } := by
  have hseq : (o.sched.loadTaskContext t).parkSeq = o.sched.parkSeq + 1 := Sched.parkSeq_modifyTask
  refine h.sched ?_ ?_ ?_ ?_
  · intro u task' htask'
    rw [hseq]
    obtain ⟨task, htask, ⟨rfl, -⟩ | ⟨rfl, -⟩⟩ := Sched.of_task?_modifyTask htask'
    · exact Nat.le_succ_of_le (h.epoch u _ htask)
    · exact Nat.le_refl _
  · intro u task' htask' hnone
    obtain ⟨task, htask, ⟨rfl, -⟩ | ⟨rfl, -⟩⟩ := Sched.of_task?_modifyTask htask'
    · exact h.idle u _ htask hnone
    · rfl
  · intro u e hentry
    refine ⟨hentry.pos, by rw [hseq]; exact Nat.le_succ_of_le hentry.epoch, ?_⟩
    intro task' htask' he
    obtain ⟨task, htask, ⟨rfl, -⟩ | ⟨rfl, -⟩⟩ := Sched.of_task?_modifyTask htask'
    · exact hentry.asleep _ htask he
    · exact absurd (he ▸ hentry.epoch) (Nat.not_succ_le_self _)
  · intro u e _ hlive
    obtain ⟨task', htask', hon, he, hcancel⟩ := Sched.channelWaiterLive_eq_true hlive
    obtain ⟨task, htask, ⟨rfl, -⟩ | ⟨rfl, -⟩⟩ := Sched.of_task?_modifyTask htask'
    · have htask : o.sched.task? u = some task' := htask
      simp [Sched.channelWaiterLive, htask, hon, he, hcancel]
    · cases hon

theorem WaitersOk.allocTask (h : WaitersOk o) : WaitersOk { o with sched := o.sched.allocTask } := by
  refine h.sched ?_ ?_ ?_ ?_
  · intro t task htask
    rw [Sched.parkSeq_allocTask]
    rcases Sched.of_task?_allocTask htask with htask | rfl
    · exact h.epoch t task htask
    · exact Nat.zero_le _
  · intro t task htask hnone
    rcases Sched.of_task?_allocTask htask with htask | rfl
    · exact h.idle t task htask hnone
    · rfl
  · intro t e hentry
    refine ⟨hentry.pos, by rw [Sched.parkSeq_allocTask]; exact hentry.epoch, ?_⟩
    intro task htask he
    rcases Sched.of_task?_allocTask htask with htask | rfl
    · exact hentry.asleep task htask he
    · have hpos := hentry.pos
      rw [← he] at hpos
      exact absurd hpos (Nat.not_succ_le_zero 0)
  · intro t e _ hlive
    obtain ⟨task, htask, hon, he, hcancel⟩ := Sched.channelWaiterLive_eq_true hlive
    rcases Sched.of_task?_allocTask htask with htask | rfl
    · simp [Sched.channelWaiterLive, htask, hon, he, hcancel]
    · cases hon

theorem WaitersOk.complete (h : WaitersOk o) (t : TaskId) :
    WaitersOk { o with sched := o.sched.complete t } := by
  refine h.sched (fun u task htask => h.epoch u task (Sched.of_task?_complete htask))
    (fun u task htask => h.idle u task (Sched.of_task?_complete htask))
    (fun u e hentry => ⟨hentry.pos, hentry.epoch, fun task htask =>
      hentry.asleep task (Sched.of_task?_complete htask)⟩) ?_
  intro u e _ hlive
  obtain ⟨task, htask, hon, he, hcancel⟩ := Sched.channelWaiterLive_eq_true hlive
  simp [Sched.channelWaiterLive, Sched.of_task?_complete htask, hon, he, hcancel]

/-- The running task queues itself and parks: of its own entries, only this one is live. -/
theorem WaitersOk.queue (h : WaitersOk o) (hrun : o.sched.running me = some task)
    (hch : o.chans[c]? = some ch) {p : Park V}
    (hentry : ∀ t e, (f ch).Entry t e → ch.Entry t e ∨ t = me ∧ e = task.parkEpoch)
    (hmatched : ∀ o' : Owner V, Matched o' (f ch)) : WaitersOk ((o.withChan c f).park me p) := by
  obtain ⟨htask, hidle, hpos⟩ := Sched.running_eq_some hrun
  -- parking leaves the other entries as live as they were
  have hparked : WaitersOk (o.park me p) := by
    refine h.sched ?_ ?_ (fun t e hentry => hentry.modifyTask (fun _ => rfl) fun _ hne => by cases hne) ?_
    · intro t task' htask'
      rw [Sched.park, Sched.parkSeq_modifyTask]
      obtain ⟨task, htask, ⟨rfl, -⟩ | ⟨rfl, -⟩⟩ := Sched.of_task?_modifyTask htask'
      · exact h.epoch t _ htask
      · exact h.epoch t task htask
    · intro t task' htask' hnone
      obtain ⟨task, htask, ⟨rfl, -⟩ | ⟨rfl, -⟩⟩ := Sched.of_task?_modifyTask htask'
      · exact h.idle t _ htask hnone
      · cases hnone
    · intro t e hold' hlive
      obtain ⟨task', htask', hon, he, hcancel⟩ := Sched.channelWaiterLive_eq_true hlive
      obtain ⟨old, hold, ⟨rfl, -⟩ | ⟨rfl, rfl⟩⟩ := Sched.of_task?_modifyTask htask'
      · simp [Sched.channelWaiterLive, hold, hon, he, hcancel]
      · -- an entry at the epoch of a task that runs
        obtain rfl : old = task := Option.some.inj (hold.symm.trans htask)
        exact absurd hidle (hold'.asleep old htask he)
  -- the new entry is of this suspension of the task
  have hnew : EntryOk (o.park me p).sched me task.parkEpoch := by
    refine ⟨hpos, ?_, ?_⟩
    · show _ ≤ (o.sched.modifyTask _ _).parkSeq
      rw [Sched.parkSeq_modifyTask]
      exact h.epoch me task htask
    · intro task' htask' _
      obtain ⟨old, -, ⟨-, hne⟩ | ⟨rfl, -⟩⟩ := Sched.of_task?_modifyTask htask'
      · exact absurd rfl hne
      · exact fun hne => by cases hne
  refine ⟨hparked.epoch, hparked.idle, ?_, ?_⟩
  · intro c' ch' t e hch' hin
    by_cases hc : c' = c
    · subst hc
      rw [show ((o.withChan c' f).park me p).chans[c']? = (o.withChan c' f).chans[c']? from rfl,
        getElem?_withChan hch, Option.some.injEq] at hch'
      subst hch'
      rcases hentry t e hin with hin | ⟨rfl, rfl⟩
      · exact hparked.entry c' ch t e hch hin
      · exact hnew
    · rw [show ((o.withChan c f).park me p).chans[c']? = (o.withChan c f).chans[c']? from rfl,
        getElem?_withChan_ne hc] at hch'
      exact hparked.entry c' ch' t e hch' hin
  · intro c' ch' hch'
    by_cases hc : c' = c
    · subst hc
      rw [show ((o.withChan c' f).park me p).chans[c']? = (o.withChan c' f).chans[c']? from rfl,
        getElem?_withChan hch, Option.some.injEq] at hch'
      subst hch'
      exact hmatched _
    · rw [show ((o.withChan c f).park me p).chans[c']? = (o.withChan c f).chans[c']? from rfl,
        getElem?_withChan_ne hc] at hch'
      exact (hparked.matched c' ch' hch').same rfl

/-! ## Hand-overs -/

theorem Entry.of_recvWaiters {popped : Option RecvWaiter} {left : List RecvWaiter}
    {buffer : List (Item V)} (hpop : popLive o.recvLive ch.recvWaiters = (popped, left))
    (hin : { ch with recvWaiters := left, buffer }.Entry t e) : ch.Entry t e := by
  obtain rfl : (popLive o.recvLive ch.recvWaiters).2 = left := by rw [hpop]
  rcases hin with hin | hin
  · exact .inl (mem_of_mem_popLive hin)
  · exact .inr hin

theorem Entry.of_sendWaiters {popped : Option (SendWaiter V)} {left : List (SendWaiter V)}
    {buffer : List (Item V)} (hpop : popLive o.sendLive ch.sendWaiters = (popped, left))
    (hin : { ch with sendWaiters := left, buffer }.Entry t e) : ch.Entry t e := by
  obtain rfl : (popLive o.sendLive ch.sendWaiters).2 = left := by rw [hpop]
  rcases hin with hin | ⟨v, hin⟩
  · exact .inl hin
  · exact .inr ⟨v, mem_of_mem_popLive hin⟩

/-- A value joins the buffer of a channel without live receivers. -/
theorem WaitersOk.push (h : WaitersOk o) (hch : o.chans[c]? = some ch)
    (hnone : ∀ w ∈ ch.recvWaiters, o.recvLive w = false)
    {g : List (Item V) → List (Item V)} (hlen : ch.buffer.length ≤ (g ch.buffer).length) :
    WaitersOk (o.withChan c fun ch => { ch with buffer := g ch.buffer }) := by
  refine h.withChan hch (fun _ _ hin => hin) ⟨fun w hin hlive => ?_, fun w hin hlive => ?_⟩
  · rw [hnone w hin] at hlive
    cases hlive
  · exact Nat.le_trans ((h.matched c ch hch).sender w hin hlive) hlen

/-- Ghosts, and perhaps one receiver, leave the queue. -/
theorem WaitersOk.popRecv (h : WaitersOk o) (hch : o.chans[c]? = some ch)
    {popped : Option RecvWaiter} {left : List RecvWaiter}
    (hpop : popLive o.recvLive ch.recvWaiters = (popped, left)) :
    WaitersOk (o.withChan c fun ch => { ch with recvWaiters := left }) := by
  refine h.withChan hch (fun t e => Entry.of_recvWaiters hpop) ?_
  exact (h.matched c ch hch).mono (fun w hin hlive => ⟨mem_of_popLive hpop hin, hlive⟩)
    fun w hin hlive => ⟨hin, hlive⟩

theorem WaitersOk.completeSend (h : WaitersOk o) (w : SendWaiter V) :
    WaitersOk (o.completeSend w) := by
  cases w with
  | localTask t e v =>
    have haccepted : WaitersOk (o.accept v) := h.same rfl rfl
    exact haccepted.wakeChannelTask t _
  | remoteOp corr v => exact h.same rfl rfl

/-- Completing a send brings no receiver to life. -/
theorem recvLive_completeSend {w : SendWaiter V} {w' : RecvWaiter}
    (hdead : o.recvLive w' = false) : (o.completeSend w).recvLive w' = false := by
  cases w' with
  | remoteOp corr => cases hdead
  | localTask t' e' =>
    cases w with
    | remoteOp corr v => exact hdead
    | localTask t e v =>
      by_contra hlive
      rw [Bool.not_eq_false] at hlive
      obtain ⟨task', htask', hon, he, hcancel⟩ := Sched.channelWaiterLive_eq_true hlive
      obtain ⟨task, htask, ⟨rfl, -⟩ | ⟨rfl, -⟩⟩ := Sched.of_task?_modifyTask htask'
      · have htask : o.sched.task? t' = some task' := htask
        rw [Owner.recvLive, Sched.channelWaiterLive, htask] at hdead
        simp [hon, he, hcancel] at hdead
      · cases hon

/-- What a receive finds: a value, and no live receiver; or no value, and no sender left. -/
theorem WaitersOk.takeValue (h : WaitersOk o) (hch : o.chans[c]? = some ch)
    {found : Option (Item V)} (htake : Takes o c ch found o') :
    WaitersOk o' ∧ ∃ ch', o'.chans[c]? = some ch' ∧
      (found ≠ none → ∀ w ∈ ch'.recvWaiters, o'.recvLive w = false) ∧
      (found = none → o'.sched = o.sched ∧ ch'.buffer = [] ∧ ch'.sendWaiters = []) := by
  have hmatched := h.matched c ch hch
  -- no receiver is live as long as there is something to take
  have hdead : ch.buffer ≠ [] ∨ (∃ w ∈ ch.sendWaiters, o.sendLive w = true) →
      ∀ w ∈ ch.recvWaiters, o.recvLive w = false := by
    intro hsome w hin
    by_contra hlive
    rw [Bool.not_eq_false] at hlive
    obtain ⟨hbuffer, hsenders⟩ := hmatched.receiver w hin hlive
    rcases hsome with hne | ⟨w', hin', hlive'⟩
    · exact hne hbuffer
    · rw [hsenders w' hin'] at hlive'
      cases hlive'
  cases htake with
  | @promoted head rest w left hbuffer hpop =>
    have hnone := hdead (.inl (by rw [hbuffer]; exact List.cons_ne_nil _ _))
    refine ⟨WaitersOk.completeSend (h.withChan hch (fun t e => Entry.of_sendWaiters hpop) ?_) w, _,
      getElem?_completeSend.trans (getElem?_withChan hch), fun _ w' hin =>
      recvLive_completeSend (hnone w' hin), fun hne => by cases hne⟩
    refine ⟨fun w' hin hlive => ?_, fun w' hin hlive => ?_⟩
    · rw [hnone w' hin] at hlive
      cases hlive
    · have hcap := hmatched.sender w' (mem_of_popLive hpop hin) hlive
      simp only [hbuffer, List.length_cons, List.tail_cons, List.length_append,
        List.length_nil] at hcap ⊢
      exact hcap
  | buffered hbuffer hpop =>
    have hnone := hdead (.inl (by rw [hbuffer]; exact List.cons_ne_nil _ _))
    refine ⟨h.withChan hch (fun t e => Entry.of_sendWaiters hpop) ⟨fun w' hin hlive => ?_, ?_⟩, _,
      getElem?_withChan hch, fun _ => hnone, fun hne => by cases hne⟩
    · rw [hnone w' hin] at hlive
      cases hlive
    · intro w' hin
      cases hin
  | @handed w left hbuffer hpop =>
    have hw := popLive_some hpop
    have hnone := hdead (.inr ⟨w, hw⟩)
    refine ⟨WaitersOk.completeSend (h.withChan hch (fun t e => Entry.of_sendWaiters hpop) ?_) w, _,
      getElem?_completeSend.trans (getElem?_withChan hch), fun _ w' hin =>
      recvLive_completeSend (hnone w' hin), fun hne => by cases hne⟩
    exact hmatched.mono (fun w' hin hlive => ⟨hin, hlive⟩)
      fun w' hin hlive => ⟨mem_of_popLive hpop hin, hlive⟩
  | nothing hbuffer hpop =>
    refine ⟨h.withChan hch (fun t e => Entry.of_sendWaiters hpop) ?_, _, getElem?_withChan hch,
      fun hne => absurd rfl hne, fun _ => ⟨rfl, hbuffer, rfl⟩⟩
    exact hmatched.mono (fun w' hin hlive => ⟨hin, hlive⟩) fun w' hin => by cases hin

variable [Portable V]

/-- A value that bounces off `w` leaves no live receiver in the queue behind. -/
def BouncesLast (o : Owner V) (left : List RecvWaiter) (w : RecvWaiter) (v : Item V) : Prop :=
  ∀ corr, w = .remoteOp corr → Portable.crossError v.value ≠ none →
    ∀ w' ∈ left, o.recvLive w' = false

theorem WaitersOk.deliverToRecv (h : WaitersOk o) (hch : o.chans[c]? = some ch) {w : RecvWaiter}
    (hlast : BouncesLast o ch.recvWaiters w v) : WaitersOk (o.deliverToRecv c w v) := by
  cases w with
  | localTask t e => exact h.wakeChannelTask t _
  | remoteOp corr =>
    unfold Owner.deliverToRecv
    dsimp only
    split
    · exact h.same rfl rfl
    · rename_i error herror
      have hnone := hlast corr rfl (by rw [herror]; exact Option.some_ne_none _)
      exact (h.push (g := (v :: ·)) hch hnone (by simp)).same rfl rfl

/-- If the next live receiver is remote and the value cannot cross to it, it is the last one. -/
def Owner.noBounce (o : Owner V) (c : ChanId) (v : Item V) : Bool :=
  (o.chans[c]?).all fun ch =>
    match popLive o.recvLive ch.recvWaiters with
    | (some (.remoteOp _), left) =>
      (Portable.crossError v.value).isNone || left.all fun w => !o.recvLive w
    | _ => true

theorem bouncesLast_of_noBounce (hno : o.noBounce c v = true) (hch : o.chans[c]? = some ch)
    {w : RecvWaiter} {left : List RecvWaiter}
    (hpop : popLive o.recvLive ch.recvWaiters = (some w, left)) : BouncesLast o left w v := by
  rintro corr rfl herror w' hin
  rw [Owner.noBounce, hch, Option.all_some, hpop] at hno
  dsimp only at hno
  rw [Bool.or_eq_true, Option.isNone_iff_eq_none, List.all_eq_true] at hno
  rcases hno with hcross | hall
  · exact absurd hcross herror
  · simpa using hall w' hin

theorem WaitersOk.channelRedeliver (h : WaitersOk o) (hno : o.noBounce c v = true) :
    WaitersOk (o.channelRedeliver c v) := by
  cases hch : o.chans[c]? with
  | none =>
    rw [channelRedeliver_none hch]
    exact h
  | some ch =>
    generalize hredeliver : o.channelRedeliver c v = o'
    cases redelivers hch hredeliver with
    | delivered hpop =>
      exact (h.popRecv hch hpop).deliverToRecv (getElem?_withChan hch)
        (bouncesLast_of_noBounce hno hch hpop)
    | fronted hpop =>
      have hpushed := (h.popRecv hch hpop).push (g := (v :: ·)) (getElem?_withChan hch)
        (fun w hin => by cases hin) (by simp)
      rw [withChan_withChan] at hpushed
      exact hpushed

/-- The value is taken, or there is no live receiver and no room. -/
theorem WaitersOk.offer (h : WaitersOk o) (hch : o.chans[c]? = some ch)
    (hno : o.noBounce c v = true) {took : Bool} (hoffer : Offers o c ch v took o') :
    WaitersOk o' := by
  cases hoffer with
  | @delivered w left hpop =>
    have haccepted : WaitersOk ((o.withChan c fun ch => { ch with recvWaiters := left }).accept v) :=
      (h.popRecv hch hpop).same rfl rfl
    exact haccepted.deliverToRecv (getElem?_withChan hch) (bouncesLast_of_noBounce hno hch hpop)
  | buffered hpop hroom =>
    have hpushed := (h.popRecv hch hpop).push (g := (· ++ [v])) (getElem?_withChan hch)
      (fun w hin => by cases hin) (by simp)
    rw [withChan_withChan] at hpushed
    exact hpushed.same rfl rfl
  | refused hpop hroom => exact h.popRecv hch hpop

/-! ## The owner's operations -/

theorem WaitersOk.channelSend (h : WaitersOk o) (hrun : o.sched.running me = some task)
    (hno : ∀ ch, o.chans[c]? = some ch → ch.closed = false → ch.ship = none →
      o.noBounce c v = true) : WaitersOk (o.channelSend me c v) := by
  unfold Owner.channelSend
  cases hch : o.chans[c]? with
  | none => exact h
  | some ch =>
    dsimp only
    split
    · exact h.same rfl rfl
    rename_i hopen
    split
    · exact h.same rfl rfl
    rename_i hportable
    have hoffered : o.noBounce c v = true := by
      cases hship : ch.ship with
      | none => exact hno ch hch (by simpa using hopen) hship
      | some ship =>
        -- what a shipped channel is offered can cross
        rw [hship, Option.isSome_some, if_pos rfl] at hportable
        rw [Owner.noBounce, hch, Option.all_some, hportable]
        split <;> rfl
    rcases hoffer : o.offer c v with ⟨took, o'⟩
    have hout := offers hch hoffer
    have hok := h.offer hch hoffered hout
    cases took with
    | true => exact hok.same rfl rfl
    | false =>
      cases hout with
      | refused hpop hroom =>
        have hch' := getElem?_withChan (f := fun ch => { ch with recvWaiters := [] }) hch
        refine hok.queue hrun hch' (fun t e hin => ?_) fun o' => ⟨?_, fun _ _ _ => hroom⟩
        · rcases hin with hin | ⟨v', hin⟩
          · exact .inl (.inl hin)
          · rcases List.mem_append.mp hin with hin | hin
            · exact .inl (.inr ⟨v', hin⟩)
            · obtain ⟨rfl, rfl, -⟩ := SendWaiter.localTask.inj (List.mem_singleton.mp hin)
              exact .inr ⟨rfl, currentParkEpoch_of_running hrun⟩
        · intro w hin
          cases hin

omit [Portable V] in
theorem WaitersOk.channelRecv (h : WaitersOk o) (hrun : o.sched.running me = some task) :
    WaitersOk (o.channelRecv me c) := by
  unfold Owner.channelRecv
  cases hch : o.chans[c]? with
  | none =>
    rcases htake : o.takeValue c with ⟨found, o'⟩
    unfold Owner.takeValue Owner.popLiveSend at htake
    rw [hch] at htake
    obtain ⟨rfl, rfl⟩ := Prod.mk.inj htake
    dsimp only
    rw [hch]
    exact h
  | some ch =>
    rcases htake : o.takeValue c with ⟨found, o'⟩
    obtain ⟨hok, ch', hch', -, hnothing⟩ := h.takeValue hch (takes hch htake)
    cases found with
    | some v => exact hok.same rfl rfl
    | none =>
      obtain ⟨hsched, hbuffer, hsenders⟩ := hnothing rfl
      dsimp only
      split
      · exact hok
      · have hrun' : o'.sched.running me = some task := by
          rw [hsched]
          exact hrun
        refine hok.queue hrun' hch' (fun t e hin => ?_) fun o' => ⟨fun _ _ _ => ⟨hbuffer, ?_⟩, ?_⟩
        · rcases hin with hin | hin
          · rcases List.mem_append.mp hin with hin | hin
            · exact .inl (.inl hin)
            · obtain ⟨rfl, rfl⟩ := RecvWaiter.localTask.inj (List.mem_singleton.mp hin)
              exact .inr ⟨rfl, currentParkEpoch_of_running hrun'⟩
          · exact .inl (.inr hin)
        · intro w hin
          rw [hsenders] at hin
          cases hin
        · intro w hin
          rw [hsenders] at hin
          cases hin

omit [Portable V] in
theorem WaitersOk.channelClose (h : WaitersOk o) : WaitersOk (o.channelClose c) := by
  unfold Owner.channelClose
  cases hch : o.chans[c]? with
  | none => exact h
  | some ch =>
    have hcleared : WaitersOk (o.withChan c fun ch =>
        { ch with closed := true, recvWaiters := [], sendWaiters := [] }) := by
      refine h.withChan hch (fun t e hin => ?_) ⟨fun w hin => (by cases hin), fun w hin => (by cases hin)⟩
      rcases hin with hin | ⟨v, hin⟩ <;> cases hin
    have hwoken : ∀ (ws : List RecvWaiter) (o : Owner V), WaitersOk o →
        WaitersOk (ws.foldl Owner.wakeClosed o) := by
      intro ws
      induction ws with
      | nil => exact fun o hok => hok
      | cons w rest ih =>
        intro o hok
        refine ih _ ?_
        unfold Owner.wakeClosed
        split
        · split
          · exact hok.wakeChannelTask _ _
          · exact hok
        · exact hok.same rfl rfl
    exact hwoken _ _ hcleared

/-- No hand-over takes a task out of the operation it is in, or puts it into one. -/
theorem park_channelRedeliver {task' : Task (Park V) V}
    (htask' : (o.channelRedeliver c v).sched.task? t = some task') :
    ∃ task, o.sched.task? t = some task ∧ task'.park = task.park := by
  have hdeliver : ∀ (o : Owner V) (w : RecvWaiter),
      (o.deliverToRecv c w v).sched.task? t = some task' →
        ∃ task, o.sched.task? t = some task ∧ task'.park = task.park := by
    intro o w hin
    cases w with
    | localTask u e =>
      obtain ⟨task, htask, ⟨rfl, -⟩ | ⟨rfl, -⟩⟩ := Sched.of_task?_modifyTask hin
      · exact ⟨_, htask, rfl⟩
      · exact ⟨task, htask, rfl⟩
    | remoteOp corr =>
      unfold Owner.deliverToRecv at hin
      dsimp only at hin
      split at hin <;> exact ⟨task', hin, rfl⟩
  cases hch : o.chans[c]? with
  | none =>
    rw [channelRedeliver_none hch] at htask'
    exact ⟨task', htask', rfl⟩
  | some ch =>
    generalize hredeliver : o.channelRedeliver c v = o' at htask'
    cases redelivers hch hredeliver with
    | delivered hpop =>
      have hin := hdeliver _ _ htask'
      exact hin
    | fronted hpop => exact ⟨task', htask', rfl⟩

theorem WaitersOk.redeliverWake (h : WaitersOk o) {wake : Option (Wake V)}
    (hidle : ∀ task, o.sched.task? t = some task → task.park = none)
    (hno : ∀ v, wake = some (.channelRecv v) → o.noBounce c v = true) :
    WaitersOk ((o.redeliverWake c wake).takeCancellation t) := by
  unfold Owner.redeliverWake
  split
  · rename_i v
    refine (h.channelRedeliver (hno v rfl)).takeCancellation fun task' htask' => ?_
    obtain ⟨task, htask, hpark⟩ := park_channelRedeliver htask'
    rw [hpark]
    exact hidle task htask
  · exact h.takeCancellation hidle

def Park.chan : Park V → ChanId
  | .send c _ | .recv c => c

theorem WaitersOk.resumePark (h : WaitersOk o) {p : Park V} {wake : Option (Wake V)}
    {cancelled : Bool} (hidle : ∀ task, o.sched.task? t = some task → task.park = none)
    (hno : cancelled = true → ∀ v, wake = some (.channelRecv v) → o.noBounce p.chan v = true) :
    WaitersOk (o.resumePark t p wake cancelled) := by
  cases p with
  | send c v =>
    unfold Owner.resumePark
    dsimp only
    split
    · rename_i hcancelled
      exact (h.redeliverWake hidle (hno hcancelled)).same rfl rfl
    · split <;> exact h.same rfl rfl
  | recv c =>
    unfold Owner.resumePark
    dsimp only
    split
    · rename_i hcancelled
      exact h.redeliverWake hidle (hno hcancelled)
    · split
      · exact h.same rfl rfl
      · exact h

theorem WaitersOk.load (h : WaitersOk o) (hload : o.load t = some o')
    (hno : ∀ task p v, o.sched.task? t = some task → task.park = some p →
      task.cancelRequested = true → task.wake = some (.channelRecv v) →
      ({ o with sched := o.sched.loadTaskContext t } : Owner V).noBounce p.chan v = true) :
    WaitersOk o' := by
  unfold Owner.load at hload
  split at hload
  · cases hload
  rename_i task htask
  split at hload
  · cases hload
  dsimp only at hload
  have hok := h.loadTaskContext t
  split at hload
  · obtain rfl := Option.some.inj hload
    exact hok
  · rename_i p hpark
    obtain rfl := Option.some.inj hload
    refine hok.resumePark (fun task' htask' => ?_) fun hcancelled v hwake =>
      hno task p v htask hpark hcancelled hwake
    obtain ⟨-, -, ⟨-, hne⟩ | ⟨rfl, -⟩⟩ := Sched.of_task?_modifyTask htask'
    · exact absurd rfl hne
    · rfl

omit [Portable V] in
theorem WaitersOk.newChannel (h : WaitersOk o) (cap : Nat) :
    WaitersOk { o with chans := o.chans ++ [{ cap }] } := by
  have hcases : ∀ {c : ChanId} {ch : NativeChannelState V},
      (o.chans ++ [({ cap } : NativeChannelState V)])[c]? = some ch →
        o.chans[c]? = some ch ∨ ch = { cap } := by
    intro c ch hch
    rcases Nat.lt_or_ge c o.chans.length with hlt | hge
    · rw [List.getElem?_append_left hlt] at hch
      exact .inl hch
    · rw [List.getElem?_append_right hge] at hch
      exact .inr (List.mem_singleton.mp (List.mem_of_getElem? hch))
  refine ⟨h.epoch, h.idle, fun c ch t e hch hin => ?_, fun c ch hch => ?_⟩
  · rcases hcases hch with hch | rfl
    · exact h.entry c ch t e hch hin
    · rcases hin with hin | ⟨v, hin⟩ <;> cases hin
  · rcases hcases hch with hch | rfl
    · exact (h.matched c ch hch).same rfl
    · exact ⟨fun w hin => (by cases hin), fun w hin => (by cases hin)⟩

theorem WaitersOk.applySend (h : WaitersOk o) {corr : Corr} (hno : o.noBounce c v = true) :
    WaitersOk (o.applySend c corr v) := by
  unfold Owner.applySend
  split
  · exact h.same rfl rfl
  rename_i hopen
  cases hch : o.chans[c]? with
  | none =>
    rw [hch] at hopen
    exact absurd rfl hopen
  | some ch =>
    rcases hoffer : o.offer c v with ⟨took, o'⟩
    have hout := offers hch hoffer
    have hok := h.offer hch hno hout
    cases took with
    | true => exact hok.same rfl rfl
    | false =>
      cases hout with
      | refused hpop hroom =>
        refine hok.withChan (getElem?_withChan hch) (fun t e hin => ?_)
          ⟨fun w hin => (by cases hin), fun _ _ _ => hroom⟩
        rcases hin with hin | ⟨v', hin⟩
        · exact .inl hin
        · rcases List.mem_append.mp hin with hin | hin
          · exact .inr ⟨v', hin⟩
          · cases List.mem_singleton.mp hin

theorem WaitersOk.applyRecv (h : WaitersOk o) {corr : Corr} : WaitersOk (o.applyRecv c corr) := by
  unfold Owner.applyRecv
  rcases htake : o.takeValue c with ⟨found, o'⟩
  cases hch : o.chans[c]? with
  | none =>
    unfold Owner.takeValue Owner.popLiveSend at htake
    rw [hch] at htake
    obtain ⟨rfl, rfl⟩ := Prod.mk.inj htake
    dsimp only
    rw [hch, Option.all_none, if_pos rfl]
    exact h.same rfl rfl
  | some ch =>
    obtain ⟨hok, ch', hch', hdead, hnothing⟩ := h.takeValue hch (takes hch htake)
    cases found with
    | some v =>
      exact hok.deliverToRecv hch' fun _ _ _ => hdead (Option.some_ne_none v)
    | none =>
      obtain ⟨-, hbuffer, hsenders⟩ := hnothing rfl
      dsimp only
      split
      · exact hok.same rfl rfl
      · refine hok.withChan hch' (fun t e hin => ?_) ⟨fun w hin hlive => ⟨hbuffer, ?_⟩, ?_⟩
        · rcases hin with hin | hin
          · rcases List.mem_append.mp hin with hin | hin
            · exact .inl hin
            · cases List.mem_singleton.mp hin
          · exact .inr hin
        · intro w' hin'
          rw [hsenders] at hin'
          cases hin'
        · intro w' hin'
          rw [hsenders] at hin'
          cases hin'

omit [Portable V] in
/-- Operations taken back, and references counted. -/
theorem WaitersOk.shrink (h : WaitersOk o)
    (hbuffer : ∀ ch, (f ch).buffer = ch.buffer ∧ (f ch).cap = ch.cap)
    (hrecv : ∀ ch, ∀ w ∈ (f ch).recvWaiters, w ∈ ch.recvWaiters)
    (hsend : ∀ ch, ∀ w ∈ (f ch).sendWaiters, w ∈ ch.sendWaiters) : WaitersOk (o.withChan c f) := by
  cases hch : o.chans[c]? with
  | none =>
    rw [withChan_eq_self hch]
    exact h
  | some ch =>
    have hmatched := h.matched c ch hch
    refine h.withChan hch (fun t e hin => ?_) ⟨fun w hin hlive => ?_, fun w hin hlive => ?_⟩
    · rcases hin with hin | ⟨v, hin⟩
      · exact .inl (hrecv ch _ hin)
      · exact .inr ⟨v, hsend ch _ hin⟩
    · rw [(hbuffer ch).1]
      obtain ⟨hnil, hdead⟩ := hmatched.receiver w (hrecv ch w hin) hlive
      exact ⟨hnil, fun w' hin' => hdead w' (hsend ch w' hin')⟩
    · rw [(hbuffer ch).1, (hbuffer ch).2]
      exact hmatched.sender w (hsend ch w hin) hlive

/-! ## Every run -/

/-- The step bounces no value off a remote receiver with live receivers behind it. -/
def System.strandsNone (s : System V) : System.Action V → Bool
  | .owner (.load t) =>
    (s.owner.sched.task? t).all fun task =>
      match task.park, task.wake with
      | some p, some (.channelRecv v) => !task.cancelRequested ||
        ({ s.owner with sched := s.owner.sched.loadTaskContext t } : Owner V).noBounce p.chan v
      | _, _ => true
  | .owner (.send _ c v) =>
    (s.owner.chans[c]?).all fun ch =>
      ch.closed || ch.ship.isSome || s.owner.noBounce c (s.owner.newItem c v)
  | .ownerAgent =>
    match s.remote.out with
    | .send id _ v :: _ | .ret id v :: _ => (s.owner.hosted id).all fun c => s.owner.noBounce c v
    | _ => true
  | _ => true

theorem WaitersOk.step {s : System V} (h : WaitersOk s.owner) {a : Owner.Action V}
    (hno : s.strandsNone (.owner a) = true) (hstep : s.owner.step a = some o') : WaitersOk o' := by
  cases a with
  | newChannel cap =>
    obtain rfl := Option.some.inj hstep
    exact h.newChannel cap
  | spawn =>
    obtain rfl := Option.some.inj hstep
    exact h.allocTask
  | complete t =>
    obtain ⟨task, -, rfl⟩ := Option.map_eq_some_iff.mp hstep
    exact h.complete t
  | load t =>
    -- a task that is loaded without its wake strands nobody, by the condition
    refine h.load hstep fun task p v htask hpark hcancel hwake => ?_
    rw [System.strandsNone, htask, Option.all_some, hpark, hwake] at hno
    simpa [hcancel] using hno
  | cancel t =>
    obtain rfl := Option.some.inj hstep
    exact h.requestCancel t
  | send me c v =>
    rw [Owner.step] at hstep
    split at hstep
    · rename_i hcond
      rw [Bool.and_eq_true] at hcond
      obtain ⟨task, hrun⟩ := Option.isSome_iff_exists.mp hcond.1
      obtain rfl := Option.some.inj hstep
      have hissued : WaitersOk (s.owner.issue (s.owner.newItem c v)) := h.same rfl rfl
      -- the value is issued first, which no queue sees
      refine hissued.channelSend hrun fun ch hch hopen hship => ?_
      have hch : s.owner.chans[c]? = some ch := hch
      rw [System.strandsNone, hch, Option.all_some, hopen, hship] at hno
      exact hno
    · cases hstep
  | recv me c =>
    rw [Owner.step] at hstep
    split at hstep
    · rename_i hcond
      rw [Bool.and_eq_true] at hcond
      obtain ⟨task, hrun⟩ := Option.isSome_iff_exists.mp hcond.1
      obtain rfl := Option.some.inj hstep
      exact h.channelRecv hrun
    · cases hstep
  | close me c =>
    obtain ⟨task, -, rfl⟩ := Option.map_eq_some_iff.mp hstep
    exact h.channelClose

theorem WaitersOk.applyFrame {s : System V} (h : WaitersOk s.owner) {frame : ChanFrame V}
    {rest : List (ChanFrame V)} (hout : s.remote.out = frame :: rest)
    (hno : s.strandsNone .ownerAgent = true) : WaitersOk (s.owner.applyFrame frame) := by
  -- only a value that is sent, or sent home, can bounce
  rw [System.strandsNone, hout] at hno
  unfold Owner.applyFrame
  cases frame with
  | send id corr v =>
    dsimp only
    cases hhost : s.owner.hosted id with
    | none => exact h.same rfl rfl
    | some c =>
      dsimp only at hno
      rw [hhost] at hno
      exact h.applySend hno
  | recv id corr =>
    dsimp only
    cases s.owner.hosted id with
    | none => exact h.same rfl rfl
    | some c => exact h.applyRecv
  | close id =>
    dsimp only
    cases s.owner.hosted id with
    | none => exact h
    | some c => exact h.channelClose
  | cancel id corr =>
    dsimp only
    cases s.owner.hosted id with
    | none => exact h
    | some c =>
      exact h.shrink (fun _ => ⟨rfl, rfl⟩) (fun _ _ hin => (List.mem_filter.mp hin).1)
        fun _ _ hin => (List.mem_filter.mp hin).1
  | release id =>
    dsimp only
    cases s.owner.hosted id with
    | none => exact h
    | some c =>
      -- giving up references moves no value
      have hship : ∀ ship, WaitersOk (s.owner.withChan c fun ch => { ch with ship }) := fun ship =>
        h.shrink (fun _ => ⟨rfl, rfl⟩) (fun _ _ hin => hin) fun _ _ hin => hin
      dsimp only [Option.elim_some]
      unfold Owner.releaseOne
      split
      · exact h
      split
      · exact (hship _).same rfl rfl
      · exact hship _
  | ret id v =>
    dsimp only
    cases hhost : s.owner.hosted id with
    | none => exact h
    | some c =>
      dsimp only at hno
      rw [hhost] at hno
      exact h.channelRedeliver hno
  | _ => exact h

omit [Portable V] in
theorem WaitersOk.init : WaitersOk ({} : Owner V) := by
  refine ⟨fun t task htask => ?_, fun t task htask => ?_, fun c ch t e hch => ?_, fun c ch hch => ?_⟩
  · cases htask
  · cases htask
  · cases hch
  · cases hch

/-- **No stranded waiter.** In every run whose steps strand nobody, every channel is matched. -/
theorem no_stranded_waiter {s : System V}
    (hRun : Run System.step (fun s a => s.strandsNone a = true) {} s) :
    ∀ (c : ChanId) (ch : NativeChannelState V), s.owner.chans[c]? = some ch → Matched s.owner ch := by
  have hok : WaitersOk s.owner := by
    refine hRun.invariant (P := fun s => WaitersOk s.owner) .init ?_
    intro s a s' h hno hstep
    cases a with
    | owner a =>
      obtain ⟨o', ho, rfl⟩ := Option.map_eq_some_iff.mp hstep
      exact h.step hno ho
    | remote a =>
      obtain ⟨r', -, rfl⟩ := Option.map_eq_some_iff.mp hstep
      exact h
    -- a ship changes neither queue
    | ship me c free =>
      rw [System.step] at hstep
      split at hstep
      · obtain rfl := Option.some.inj hstep
        have hship : ∀ ship : NativeChannelState V → Option ChanShip,
            WaitersOk (s.owner.withChan c fun ch => { ch with ship := ship ch }) := fun ship =>
          h.shrink (fun _ => ⟨rfl, rfl⟩) (fun _ _ hin => hin) fun _ _ hin => hin
        show WaitersOk (s.owner.channelShip c free).2
        unfold Owner.channelShip
        split
        · exact hship fun _ => _
        · exact (hship fun _ => _).same rfl rfl
      · cases hstep
    | arrive n =>
      obtain ⟨parts, -, rfl⟩ := Option.map_eq_some_iff.mp hstep
      exact h
    -- a frame of the other side is applied under its own condition
    | ownerAgent =>
      rw [System.step] at hstep
      split at hstep
      · cases hstep
      · rename_i frame rest hout
        obtain rfl := Option.some.inj hstep
        exact h.applyFrame hout hno
    | remoteAgent =>
      rw [System.step] at hstep
      split at hstep
      · cases hstep
      · obtain rfl := Option.some.inj hstep
        exact h.same rfl rfl
  exact hok.matched

/-- An integer, or a symbol, which has no data representation. -/
inductive Sample where
  | int (i : Int)
  | symbol
deriving DecidableEq

instance : Portable Sample where
  crossError
    | .int _ => none
    | .symbol => some "cannot serialize a Symbol (no data representation)"

/-- Two receives of the owner and one of the far side wait; a cancelled receiver's value
goes to the next. -/
theorem no_stranded_waiter_redelivered : ∃ s : System Sample,
    Run System.step (fun s a => s.strandsNone a = true) {} s ∧
    (s.owner.chans.map fun ch => ch.recvWaiters.length) = [1] ∧
    ∀ (c : ChanId) (ch : NativeChannelState Sample), s.owner.chans[c]? = some ch →
      Matched s.owner ch := by
  have hexec : (exec System.step (fun s a => s.strandsNone a = true) ({} : System Sample)
      [.owner (.newChannel 0), .owner .spawn, .owner .spawn, .owner .spawn, .owner (.load 0),
        .owner (.load 1), .owner (.load 2), .ship 2 0 1, .arrive 0, .remote .spawn,
        .remote (.load 0), .owner (.recv 0 0), .remote (.recv 0 0), .ownerAgent,
        .owner (.recv 1 0), .owner (.send 2 0 (.int 7)), .owner (.cancel 0),
        .owner (.load 0)]).map (fun s => s.owner.chans.map fun ch => ch.recvWaiters.length) =
      some [1] := by
    decide +kernel
  obtain ⟨s, hRun, hwaiters⟩ := run_of_exec_map hexec
  exact ⟨s, hRun, hwaiters, no_stranded_waiter hRun⟩

/-- A symbol is handed to a receiver before the channel is shipped; then a remote and a
local receiver queue up, and the first receiver is cancelled. -/
def bouncedSymbol : List (System.Action Sample) :=
  [.owner (.newChannel 0), .owner .spawn, .owner .spawn, .owner .spawn, .owner (.load 0),
    .owner (.load 1), .owner (.load 2), .owner (.recv 0 0), .owner (.send 2 0 .symbol), .ship 2 0 1,
    .arrive 0, .remote .spawn, .remote (.load 0), .remote (.recv 0 0), .ownerAgent,
    .owner (.recv 1 0), .owner (.cancel 0), .owner (.load 0)]

/-- The symbol is then put back into the buffer, and the second receiver goes on waiting next to it.
-/
theorem bounced_symbol_strands : ¬ ∀ s : System Sample, Reach System.step {} s →
    ∀ (c : ChanId) (ch : NativeChannelState Sample), s.owner.chans[c]? = some ch →
      Matched s.owner ch := by
  intro hall
  have hexec : (exec System.step (fun _ _ => True) ({} : System Sample) bouncedSymbol).map
      (fun s => (s.owner.chans.map fun ch => (ch.buffer.isEmpty, ch.recvWaiters),
        s.owner.recvLive (.localTask 1 2))) =
      some ([(false, [.localTask 1 2])], true) := by
    decide +kernel
  obtain ⟨s, hRun, hend⟩ := run_of_exec_map hexec
  obtain ⟨hchans, hlive⟩ := Prod.mk.inj hend
  obtain ⟨ch, hcons, hch⟩ := List.map_eq_singleton_iff.mp hchans
  obtain ⟨hbuffer, hwaiters⟩ := Prod.mk.inj hch
  have hmatched := hall s hRun 0 ch (by rw [hcons]; rfl)
  have hnil := (hmatched.receiver (.localTask 1 2) (by rw [hwaiters]; simp) hlive).1
  rw [hnil] at hbuffer
  cases hbuffer

end Quoin.Channel
