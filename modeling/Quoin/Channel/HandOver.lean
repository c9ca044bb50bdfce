import Quoin.Channel.Changes

/-!
# Quoin — values change hands

The hand-over steps shared by the channel operations: take a live receiver off
the queue and deliver to it, take a live sender off the queue and complete its
send, put a value back. What is popped is alive, so it is suspended in this
very channel, and a popped sender's value has not been taken before.
-/

namespace Quoin.Channel

open Trans

variable {V : Type} {o o' : Owner V} {r : Remote V} {l l' : Limbo V} {c : ChanId}
  {ch : NativeChannelState V} {v : Item V}

/-! ## What is popped -/

/-- The operation behind a receiver off the queue is due an answer. -/
def RecvWaiter.owed : RecvWaiter → List Corr
  | .localTask _ _ => []
  | .remoteOp corr => [corr]

def SendWaiter.owed : SendWaiter V → List Corr
  | .localTask _ _ _ => []
  | .remoteOp corr _ => [corr]

/-- A receiver off the queue of `c` waits for a value of `c`. -/
def ReceivesOn (o : Owner V) (r : Remote V) (c : ChanId) : RecvWaiter → Prop
  | .localTask t _ => ∃ task, o.sched.task? t = some task ∧ task.parkedOnChannel = true ∧
      task.park = some (.recv c)
  | .remoteOp corr => r.RecvAt corr c

/-- A sender off the queue of `c` waits for its value to be taken. -/
def SendsOn (o : Owner V) (r : Remote V) (c : ChanId) : SendWaiter V → Prop
  | .localTask t _ v => ∃ task, o.sched.task? t = some task ∧ task.parkedOnChannel = true ∧
      task.park = some (.send c v)
  | .remoteOp corr v => v.chan = c ∧ v.side = .remote ∧ r.SendAt corr v

theorem RecvWaiter.tally_owed (corr : Corr) (w : RecvWaiter) :
    tally (due corr) w.owed = w.asks corr := by
  cases w <;> rfl

theorem SendWaiter.tally_owed (corr : Corr) (w : SendWaiter V) :
    tally (due corr) w.owed = w.asks corr := by
  cases w <;> rfl

theorem QueuesOk.receivesOn (h : QueuesOk o.sched r c ch) {w : RecvWaiter}
    (hin : w ∈ ch.recvWaiters) (hlive : o.recvLive w = true) : ReceivesOn o r c w := by
  cases w with
  | localTask t epoch =>
    obtain ⟨task, htask, hon, hepoch, -⟩ := Sched.channelWaiterLive_eq_true hlive
    exact ⟨task, htask, hon, (h.recvLocal t epoch hin).2.2 task htask hepoch⟩
  | remoteOp corr => exact h.recvRemote corr hin

theorem QueuesOk.sendsOn (h : QueuesOk o.sched r c ch) {w : SendWaiter V}
    (hin : w ∈ ch.sendWaiters) (hlive : o.sendLive w = true) : SendsOn o r c w := by
  cases w with
  | localTask t epoch v =>
    obtain ⟨task, htask, hon, hepoch, -⟩ := Sched.channelWaiterLive_eq_true hlive
    exact ⟨task, htask, hon, (h.sendLocal t epoch v hin).2.2 task htask hepoch⟩
  | remoteOp corr v => exact h.sendRemote corr v hin

variable [DecidableEq V] [Portable V]

/-- The value of a send is still with its sender. -/
def Untaken (o : Owner V) (r : Remote V) (v : Item V) : Prop :=
  tally (here v) o.ledger.accepted + o.offered v + r.offering v <
    tally (here v) o.ledger.issued + tally (here v) r.ledger.issued

theorem OwnerOk.popLiveRecv (h : OwnerOk o r l) (hch : o.chans[c]? = some ch)
    {popped : Option RecvWaiter} (hpop : o.popLiveRecv c = (popped, o')) :
    ∃ rest, o' = o.withChan c (fun ch => { ch with recvWaiters := rest }) ∧
      OwnerOk o' r { l with owed := popped.elim [] RecvWaiter.owed ++ l.owed } ∧
      ∀ w, popped = some w → ReceivesOn o' r c w := by
  rw [Owner.popLiveRecv, hch] at hpop
  obtain ⟨rfl, rfl⟩ := Prod.mk.inj hpop
  have hqueue := h.queues c ch hch
  refine ⟨_, rfl, h.withChan hch ?_ (fun i => rfl) (fun i => ?_) (fun corr => ?_) rfl, ?_⟩
  · exact ⟨hqueue.buffer, fun t e hin => hqueue.recvLocal t e (mem_of_mem_popLive hin),
      fun corr hin => hqueue.recvRemote corr (mem_of_mem_popLive hin), hqueue.sendLocal,
      hqueue.sendRemote⟩
  · have := h.books.untaken i
    unfold NativeChannelState.offers
    dsimp only
    omega
  · have hle : tally (RecvWaiter.asks corr) (popLive o.recvLive ch.recvWaiters).2 + _ ≤ _ :=
      tally_popLive_le
    have howed : tally (due corr)
        (Option.elim (popLive o.recvLive ch.recvWaiters).1 [] RecvWaiter.owed) =
        Option.elim (popLive o.recvLive ch.recvWaiters).1 0 (RecvWaiter.asks corr) := by
      cases (popLive o.recvLive ch.recvWaiters).1 with
      | none => rfl
      | some w => exact w.tally_owed corr
    unfold NativeChannelState.asks
    dsimp only
    rw [tally_append]
    omega
  · intro w hw
    obtain ⟨hin, hlive⟩ := popLive_eq_some hw
    exact hqueue.receivesOn hin hlive

theorem OwnerOk.popLiveSend (h : OwnerOk o r l) (hch : o.chans[c]? = some ch)
    {popped : Option (SendWaiter V)} (hpop : o.popLiveSend c = (popped, o')) :
    ∃ rest, o' = o.withChan c (fun ch => { ch with sendWaiters := rest }) ∧
      OwnerOk o' r { l with owed := popped.elim [] SendWaiter.owed ++ l.owed } ∧
      ∀ w, popped = some w → SendsOn o' r c w ∧ Untaken o' r w.value := by
  rw [Owner.popLiveSend, hch] at hpop
  obtain ⟨rfl, rfl⟩ := Prod.mk.inj hpop
  have hqueue := h.queues c ch hch
  have hoffers : ∀ i, tally (fun w => here i w.value) (popLive o.sendLive ch.sendWaiters).2 +
      Option.elim (popLive o.sendLive ch.sendWaiters).1 0 (fun w => here i w.value) ≤
      ch.offers i := fun i => tally_popLive_le
  refine ⟨_, rfl, h.withChan hch ?_ (fun i => rfl) (fun i => ?_) (fun corr => ?_) rfl, ?_⟩
  · exact ⟨hqueue.buffer, hqueue.recvLocal, hqueue.recvRemote,
      fun t e v hin => hqueue.sendLocal t e v (mem_of_mem_popLive hin),
      fun corr v hin => hqueue.sendRemote corr v (mem_of_mem_popLive hin)⟩
  · have := h.books.untaken i
    have := hoffers i
    unfold NativeChannelState.offers at *
    dsimp only
    omega
  · have hle : tally (SendWaiter.asks corr) (popLive o.sendLive ch.sendWaiters).2 + _ ≤ _ :=
      tally_popLive_le
    have howed : tally (due corr)
        (Option.elim (popLive o.sendLive ch.sendWaiters).1 [] SendWaiter.owed) =
        Option.elim (popLive o.sendLive ch.sendWaiters).1 0 (SendWaiter.asks corr) := by
      cases (popLive o.sendLive ch.sendWaiters).1 with
      | none => rfl
      | some w => exact w.tally_owed corr
    unfold NativeChannelState.asks
    dsimp only
    rw [tally_append]
    omega
  · intro w hw
    obtain ⟨hin, hlive⟩ := popLive_eq_some hw
    refine ⟨hqueue.sendsOn hin hlive, ?_⟩
    -- the entry held one offer of its value, and is gone from the queue
    have hmod := tally_modify (f := NativeChannelState.offers w.value)
      (u := fun ch => { ch with sendWaiters := (popLive o.sendLive ch.sendWaiters).2 }) hch
    have huntaken := h.books.untaken w.value
    have hoff := hoffers w.value
    rw [hw, Option.elim_some, here_self] at hoff
    have hkept : tally (NativeChannelState.offers w.value)
        (o.chans.modify c fun ch' =>
          { ch' with sendWaiters := (popLive o.sendLive ch.sendWaiters).2 }) +
        ch.offers w.value = o.offered w.value + tally (fun w' => here w.value w'.value)
          (popLive o.sendLive ch.sendWaiters).2 :=
      tally_modify (f := NativeChannelState.offers w.value) hch
    unfold Untaken
    show tally (here w.value) o.ledger.accepted + tally (NativeChannelState.offers w.value)
        (o.chans.modify c fun ch' =>
          { ch' with sendWaiters := (popLive o.sendLive ch.sendWaiters).2 }) +
      r.offering w.value < tally (here w.value) o.ledger.issued + _
    omega

/-! ## Delivering -/

theorem OwnerOk.pushBack (h : OwnerOk o r l) (hch : o.chans[c]? = some ch) (hv : v.chan = c)
    (hhand : l.hand = v :: l'.hand) (howed : l'.owed = l.owed) (hbegun : l'.begun = l.begun) :
    OwnerOk (o.pushBack c v) r l' := by
  have hqueue := h.queues c ch hch
  refine h.withChan hch ⟨?_, hqueue.recvLocal, hqueue.recvRemote, hqueue.sendLocal,
    hqueue.sendRemote⟩ (fun i => ?_) (fun i => ?_) (fun corr => ?_) hbegun
  · intro i hi
    rcases List.mem_append.mp hi with hi | hi
    · exact hqueue.buffer i hi
    · rw [List.mem_singleton.mp hi]
      exact hv
  · rw [hhand]
    unfold NativeChannelState.buffered
    dsimp only
    rw [tally_append, tally_cons, tally_cons, tally_nil]
    omega
  · have := h.books.untaken i
    unfold NativeChannelState.offers
    dsimp only
    omega
  · rw [howed]
    exact Nat.le_refl _

theorem OwnerOk.pushFront (h : OwnerOk o r l) (hch : o.chans[c]? = some ch) (hv : v.chan = c)
    (hhand : l.hand = v :: l'.hand) (howed : l'.owed = l.owed) (hbegun : l'.begun = l.begun) :
    OwnerOk (o.pushFront c v) r l' := by
  have hqueue := h.queues c ch hch
  refine h.withChan hch ⟨?_, hqueue.recvLocal, hqueue.recvRemote, hqueue.sendLocal,
    hqueue.sendRemote⟩ (fun i => ?_) (fun i => ?_) (fun corr => ?_) hbegun
  · intro i hi
    rcases List.mem_cons.mp hi with rfl | hi
    · exact hv
    · exact hqueue.buffer i hi
  · rw [hhand]
    unfold NativeChannelState.buffered
    dsimp only
    rw [tally_cons, tally_cons]
    omega
  · have := h.books.untaken i
    unfold NativeChannelState.offers
    dsimp only
    omega
  · rw [howed]
    exact Nat.le_refl _

theorem OwnerOk.deliverToRecv (h : OwnerOk o r l) {w : RecvWaiter} (hw : ReceivesOn o r c w)
    (hch : o.chans[c]? = some ch) (hv : v.chan = c) (hhand : l.hand = v :: l'.hand)
    (howed : l.owed = w.owed ++ l'.owed) (hbegun : l'.begun = l.begun) :
    OwnerOk (o.deliverToRecv c w v) r l' := by
  cases w with
  | localTask t epoch =>
    obtain ⟨task, htask, hon, hpark⟩ := hw
    refine h.wake htask hon (fun i => ?_) howed.symm hbegun ?_ rfl
    · rw [hhand, tally_cons]
      rfl
    · rintro i hi
      obtain rfl := Wake.channelRecv.inj hi
      rw [hpark, hv]
  | remoteOp corr =>
    unfold Owner.deliverToRecv
    dsimp only
    cases hcross : Portable.crossError v.value with
    | none =>
      dsimp only
      refine h.chanEmit (fun i => ?_) (fun corr' => ?_) hbegun ?_ (fun _ hne => by cases hne)
      · rw [hhand, tally_cons]
        rfl
      · rw [howed, tally_append]
        exact Nat.le_of_eq rfl
      · rintro corr' v' heq
        obtain ⟨rfl, rfl⟩ := ChanFrame.value.inj heq
        exact ⟨hv ▸ hw, hcross⟩
    | some e =>
      dsimp only
      -- it bounces: the operation fails, and the value goes back to the buffer
      have hbounced : OwnerOk (o.chanEmit (.recvError corr
          s!"the received value cannot cross to the remote endpoint: {e}")) r
          { l with owed := l'.owed } := by
        refine h.chanEmit (fun i => Nat.zero_add _) (fun corr' => ?_) rfl
          (fun _ _ hne => by cases hne) (fun _ hne => by cases hne)
        rw [howed, tally_append]
        exact Nat.le_of_eq rfl
      exact hbounced.pushFront hch hv hhand rfl hbegun

theorem OwnerOk.channelRedeliver (h : OwnerOk o r l) (hch : o.chans[c]? = some ch)
    (hv : v.chan = c) (hhand : l.hand = v :: l'.hand) (howed : l'.owed = l.owed)
    (hbegun : l'.begun = l.begun) : OwnerOk (o.channelRedeliver c v) r l' := by
  unfold Owner.channelRedeliver
  rcases hpop : o.popLiveRecv c with ⟨popped, o'⟩
  obtain ⟨rest, rfl, hok, hon⟩ := h.popLiveRecv hch hpop
  have hch' := getElem?_withChan (f := fun ch => { ch with recvWaiters := rest }) hch
  cases popped with
  | some w => exact hok.deliverToRecv (hon w rfl) hch' hv hhand (by rw [howed]; rfl) hbegun
  | none => exact hok.pushFront hch' hv hhand howed hbegun

/-! ## Completing a send -/

/-- No send of the owner's tasks is about a value of the other VM. -/
theorem OwnerOk.not_sending (h : OwnerOk o r l) (hside : v.side = .remote) :
    o.sending v = 0 ∧ o.ledger.settled v = 0 := by
  have hissued : tally (here v) o.ledger.issued = 0 := by
    by_contra hne
    have hin := mem_iff_tally.mpr (Nat.pos_of_ne_zero hne)
    rw [(h.ledger.issued v hin).1] at hside
    cases hside
  have := h.books.sends v
  omega

theorem OwnerOk.completeSend (h : OwnerOk o r l) {w : SendWaiter V} (hw : SendsOn o r c w)
    (huntaken : Untaken o r w.value) (hhand : l'.hand = w.value :: l.hand)
    (howed : l.owed = w.owed ++ l'.owed) (hbegun : l'.begun = l.begun) :
    OwnerOk (o.completeSend w) r l' := by
  cases w with
  -- a sender of this VM: its task is woken, and its value is settled
  | localTask t epoch v =>
    obtain ⟨task, htask, hon, hpark⟩ := hw
    have hok := h.tasks t task htask
    have hnone := hok.asleep hon
    have hsends : ∀ u task', o.sched.task? u = some task' → task'.sends v ≤ o.sending v :=
      fun _ _ htask' => Sched.le_tallyTasks (f := Task.sends v) htask'
    have hone : task.sends v = 1 := by
      rw [Task.sends, hpark, Option.elim_some, Park.sends, here_self]
    have hbook := h.books.sends v
    have honce := h.books.once v
    have hle := hsends t task htask
    have hsettled : o.ledger.settled v = 0 := by omega
    refine ⟨?_, fun c ch hch => (h.queues c ch hch).modifyTask (fun _ => rfl) (fun _ => rfl),
      h.frames.accept, (h.books.accept huntaken).modifyTask htask (fun _ => rfl) ?_
        howed.symm hbegun, h.ledger.accept hsettled, h.relayed⟩
    · intro u task' htask'
      have hseq : (o.completeSend (.localTask t epoch v)).sched.parkSeq = o.sched.parkSeq :=
        Sched.parkSeq_modifyTask
      rw [hseq]
      obtain ⟨old, hold, hcase⟩ := Sched.of_task?_modifyTask htask'
      replace hold : o.sched.task? u = some old := hold
      obtain ⟨rfl, hne⟩ | ⟨rfl, rfl⟩ := hcase
      · -- another task sends another value
        have hok' := h.tasks u _ hold
        refine ⟨hok'.epoch, hok'.idle, hok'.asleep, hok'.handed, hok'.receiver, ?_⟩
        intro c' i hsend
        obtain ⟨hchan, hside, hiff⟩ := hok'.sender c' i hsend
        refine ⟨hchan, hside, hiff.trans ⟨List.mem_cons_of_mem v, ?_⟩⟩
        intro hin
        rcases List.mem_cons.mp hin with rfl | hin
        · have htwo := Sched.add_le_tallyTasks (f := Task.sends i) hne hold htask
          have hone' : task'.sends i = 1 := by
            rw [Task.sends, hsend, Option.elim_some, Park.sends, here_self]
          have : Sched.tallyTasks (Task.sends i) o.sched = o.sending i := rfl
          omega
        · exact hin
      · rw [htask, Option.some.injEq] at hold
        subst hold
        refine ⟨hok.epoch, ?_, (fun hfalse => by cases hfalse), (fun i hi => by cases hi),
          hok.receiver, ?_⟩
        · intro hidle
          rw [hpark] at hidle
          cases hidle
        · intro c' i hsend
          obtain ⟨hchan, hside, -⟩ := hok.sender c' i hsend
          have heq : task.park = some (.send c' i) := hsend
          rw [hpark] at heq
          obtain ⟨-, rfl⟩ := Park.send.inj (Option.some.inj heq)
          exact ⟨hchan, hside, fun _ => List.mem_cons_self, fun _ => rfl⟩
    · intro i
      unfold Task.holds
      rw [hnone, hhand]
      rfl
  -- a sender behind the link: it gets an acknowledgement
  | remoteOp corr v =>
    obtain ⟨-, hside, hat⟩ := hw
    obtain ⟨hsending, hsettled⟩ := h.not_sending hside
    refine (h.accept huntaken hsending hsettled).chanEmit (fun i => ?_) (fun corr' => ?_) hbegun
      (fun _ _ hne => by cases hne) ?_
    · rw [hhand]
      exact Nat.zero_add _
    · show _ ≤ tally (due corr') l.owed
      rw [howed, tally_append]
      exact Nat.le_of_eq rfl
    · rintro corr' heq
      obtain rfl := ChanFrame.ack.inj heq
      exact ⟨v, List.mem_cons_self, hat⟩

end Quoin.Channel
