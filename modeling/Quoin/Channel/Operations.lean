import Quoin.Channel.HandOver

/-!
# Quoin — the channel operations keep the owner's invariant

Sending, receiving and closing, from the hand-overs they are made of. A send
begins with its value untaken and ends settled or parked; a receive takes a
value in hand and returns it or parks.
-/

namespace Quoin.Channel

open Trans

variable {V : Type} {o o' : Owner V} {r : Remote V} {l l' : Limbo V} {c : ChanId}
  {ch : NativeChannelState V} {t me : TaskId} {task : Task (Park V) V} {v : Item V}

theorem currentParkEpoch_of_running (hrun : o.sched.running me = some task) :
    o.currentParkEpoch me = task.parkEpoch := by
  rw [Owner.currentParkEpoch, (Sched.running_eq_some hrun).1]
  rfl

theorem getElem?_completeSend {w : SendWaiter V} :
    (o.completeSend w).chans[c]? = o.chans[c]? := by
  cases w <;> rfl

theorem completeSend_pushBack {w : SendWaiter V} {v : Item V} :
    (o.pushBack c v).completeSend w = (o.completeSend w).pushBack c v := by
  cases w <;> rfl

variable [DecidableEq V]

theorem offered_recvWaiters {i : Item V} {rest : List RecvWaiter} :
    (o.withChan c fun ch => { ch with recvWaiters := rest }).offered i = o.offered i :=
  tally_modify_same fun _ => rfl

variable [Portable V]

theorem OwnerOk.notMem (h : OwnerOk o r l) (huntaken : Untaken o r v) :
    v ∉ o.ledger.accepted := by
  intro hin
  have := mem_iff_tally.mp hin
  have := h.books.once v
  unfold Untaken at huntaken
  omega

theorem OwnerOk.untaken_le (h : OwnerOk o r l) (huntaken : Untaken o r v) (i : Item V) :
    tally (here i) o.ledger.accepted + o.offered i + r.offering i + here i v ≤
      tally (here i) o.ledger.issued + tally (here i) r.ledger.issued := by
  have hle := h.books.untaken i
  by_cases hiv : v = i
  · subst hiv
    unfold Untaken at huntaken
    rw [here_self]
    omega
  · rw [here, if_neg hiv]
    omega

/-! ## Offering and taking -/

/-- Either the value is accepted, or only ghosts are gone from the queue. -/
theorem OwnerOk.offer (h : OwnerOk o r l) (hch : o.chans[c]? = some ch) (hv : v.chan = c)
    (huntaken : Untaken o r v) (hsending : o.sending v = 0) (hsettled : o.ledger.settled v = 0)
    {took : Bool} (hoffer : o.offer c v = (took, o')) :
    OwnerOk o' r l ∧ (took = true → v ∈ o'.ledger.accepted) ∧
      (took = false → ∃ rest, o' = o.withChan c fun ch => { ch with recvWaiters := rest }) := by
  unfold Owner.offer at hoffer
  rcases hpop : o.popLiveRecv c with ⟨popped, mid⟩
  rw [hpop] at hoffer
  obtain ⟨rest, rfl, hok, hon⟩ := h.popLiveRecv hch hpop
  have hch' := getElem?_withChan (f := fun ch => { ch with recvWaiters := rest }) hch
  have huntaken' : Untaken (o.withChan c fun ch => { ch with recvWaiters := rest }) r v := by
    unfold Untaken
    rw [offered_recvWaiters]
    exact huntaken
  have hacc := hok.accept huntaken' hsending hsettled
  cases popped with
  | some w =>
    obtain ⟨rfl, rfl⟩ := Prod.mk.inj hoffer
    refine ⟨hacc.deliverToRecv ?_ hch' hv rfl rfl rfl, fun _ => ?_, fun hfalse => by cases hfalse⟩
    · have hw := hon w rfl
      cases w <;> exact hw
    · -- delivering leaves the ledger alone
      cases w with
      | localTask t e => exact List.mem_cons_self
      | remoteOp corr =>
        unfold Owner.deliverToRecv
        dsimp only
        split <;> exact List.mem_cons_self
  | none =>
    dsimp only at hoffer
    split at hoffer
    · obtain ⟨rfl, rfl⟩ := Prod.mk.inj hoffer
      exact ⟨hacc.pushBack hch' hv rfl rfl rfl, fun _ => List.mem_cons_self,
        fun hfalse => by cases hfalse⟩
    · obtain ⟨rfl, rfl⟩ := Prod.mk.inj hoffer
      exact ⟨hok, (fun hfalse => by cases hfalse), fun _ => ⟨rest, rfl⟩⟩

theorem OwnerOk.chan_of_sendsOn (h : OwnerOk o r l) {w : SendWaiter V} (hw : SendsOn o r c w) :
    w.value.chan = c := by
  cases w with
  | localTask t epoch v =>
    obtain ⟨task, htask, -, hpark⟩ := hw
    exact ((h.tasks t task htask).sender c v hpark).1
  | remoteOp corr v => exact hw.1

theorem OwnerOk.takeValue (h : OwnerOk o r l) (hch : o.chans[c]? = some ch)
    {found : Option (Item V)} (htake : o.takeValue c = (found, o')) :
    (∃ ch', o'.chans[c]? = some ch') ∧
      OwnerOk o' r { l with hand := found.toList ++ l.hand } ∧
      (∀ v, found = some v → v.chan = c) ∧ (found = none → o'.sched = o.sched) := by
  have hqueue := h.queues c ch hch
  unfold Owner.takeValue at htake
  rw [hch, Option.bind_some] at htake
  cases hhead : ch.buffer with
  | cons v rest =>
    rw [hhead, List.head?_cons] at htake
    dsimp only at htake
    have hv : v.chan = c := hqueue.buffer v (hhead ▸ List.mem_cons_self)
    -- the head leaves the buffer
    have hfront : OwnerOk (o.withChan c fun ch => { ch with buffer := ch.buffer.tail }) r
        { l with hand := v :: l.hand } := by
      refine h.withChan hch ⟨fun i hi => hqueue.buffer i (List.mem_of_mem_tail hi),
        hqueue.recvLocal, hqueue.recvRemote, hqueue.sendLocal, hqueue.sendRemote⟩
        (fun i => ?_) (fun i => ?_) (fun corr => Nat.le_refl _) rfl
      · unfold NativeChannelState.buffered
        dsimp only
        rw [hhead, List.tail_cons, tally_cons, tally_cons]
        omega
      · have := h.books.untaken i
        unfold NativeChannelState.offers
        dsimp only
        omega
    have hch₁ := getElem?_withChan (f := fun ch => { ch with buffer := ch.buffer.tail }) hch
    rcases hpop : (o.withChan c fun ch => { ch with buffer := ch.buffer.tail }).popLiveSend c
      with ⟨popped, mid⟩
    rw [hpop] at htake
    obtain ⟨left, rfl, hok, hon⟩ := hfront.popLiveSend hch₁ hpop
    have hch₂ := getElem?_withChan (f := fun ch => { ch with sendWaiters := left }) hch₁
    cases popped with
    | none =>
      obtain ⟨rfl, rfl⟩ := Prod.mk.inj htake
      exact ⟨⟨_, hch₂⟩, hok, (fun w hw => Option.some.inj hw ▸ hv), fun hne => by cases hne⟩
    | some w =>
      obtain ⟨rfl, rfl⟩ := Prod.mk.inj htake
      obtain ⟨hw, huntaken⟩ := hon w rfl
      have hdone : OwnerOk _ r { l with hand := w.value :: v :: l.hand } :=
        hok.completeSend hw huntaken rfl rfl rfl
      have hch₃ := hch₂
      rw [← getElem?_completeSend (w := w)] at hch₃
      rw [completeSend_pushBack]
      refine ⟨⟨_, getElem?_withChan hch₃⟩, ?_, (fun w hw => Option.some.inj hw ▸ hv),
        fun hne => by cases hne⟩
      exact hdone.pushBack hch₃ (hok.chan_of_sendsOn hw) rfl rfl rfl
  | nil =>
    rw [hhead, List.head?_nil] at htake
    dsimp only at htake
    rcases hpop : o.popLiveSend c with ⟨popped, mid⟩
    rw [hpop] at htake
    obtain ⟨left, rfl, hok, hon⟩ := h.popLiveSend hch hpop
    have hch₂ := getElem?_withChan (f := fun ch => { ch with sendWaiters := left }) hch
    cases popped with
    | none =>
      obtain ⟨rfl, rfl⟩ := Prod.mk.inj htake
      exact ⟨⟨_, hch₂⟩, hok, (fun w hw => by cases hw), fun _ => rfl⟩
    | some w =>
      obtain ⟨rfl, rfl⟩ := Prod.mk.inj htake
      obtain ⟨hw, huntaken⟩ := hon w rfl
      refine ⟨⟨_, getElem?_completeSend.trans hch₂⟩,
        hok.completeSend hw huntaken rfl rfl rfl, ?_, fun hne => by cases hne⟩
      rintro v hv
      obtain rfl := Option.some.inj hv
      exact hok.chan_of_sendsOn hw

/-! ## Parking -/

/-- A running task suspends itself. -/
theorem OwnerOk.park (h : OwnerOk o r l) (hrun : o.sched.running me = some task) {p : Park V}
    (hrecv : ∀ c, p = .recv c → c < o.chans.length)
    (hsend : ∀ c v, p = .send c v → v.chan = c ∧ v.side = .owner ∧ v ∉ o.ledger.accepted)
    (hhand : l'.hand = l.hand) (howed : l'.owed = l.owed)
    (hbegun : ∀ i, p.sends i + tally (here i) l'.begun = tally (here i) l.begun) :
    OwnerOk (o.park me p) r l' := by
  obtain ⟨htask, hidle, -⟩ := Sched.running_eq_some hrun
  have hok := h.tasks me task htask
  obtain ⟨hoff, hnone⟩ := hok.idle hidle
  refine ⟨?_, ?_, h.frames, ⟨?_, h.books.untaken, h.books.once, ?_, ?_⟩, h.ledger, h.relayed⟩
  · -- the tasks: only `me` has changed, and it ran before
    intro u task' htask'
    have hseq : (o.park me p).sched.parkSeq = o.sched.parkSeq := Sched.parkSeq_modifyTask
    rw [hseq]
    obtain ⟨old, hold, ⟨rfl, -⟩ | ⟨rfl, rfl⟩⟩ := Sched.of_task?_modifyTask htask'
    · exact h.tasks u _ hold
    · rw [htask, Option.some.injEq] at hold
      subst hold
      refine ⟨hok.epoch, (fun hfalse => by cases hfalse), fun _ => hnone, ?_, ?_, ?_⟩
      · intro i hi
        rw [show task.wake = some (.channelRecv i) from hi] at hnone
        cases hnone
      · intro c hc
        exact hrecv c (Option.some.inj hc)
      · intro c i hi
        obtain ⟨hchan, hside, hnot⟩ := hsend c i (Option.some.inj hi)
        refine ⟨hchan, hside, ?_, fun hin => absurd hin hnot⟩
        intro htaken
        rw [show ({ task with parkedOnChannel := true, park := some p } :
          Task (Park V) V).wake = none from hnone] at htaken
        cases htaken
  · -- the queues do not mention a task that runs
    intro c ch hch
    refine (h.queues c ch hch).sched (Nat.le_of_eq Sched.parkSeq_modifyTask.symm) ?_
    intro u e p' _ _ hs
    refine hs.park ?_
    intro task' htask'
    rw [htask, Option.some.injEq] at htask'
    exact htask' ▸ hidle
  · -- the books: the value of a send is now in the parked task
    intro i
    have hsame : (o.sched.park me p).tallyTasks (Task.holds i) =
        o.sched.tallyTasks (Task.holds i) := Sched.tallyTasks_modifyTask_same fun _ => rfl
    have hcons := h.books.conserved i
    rw [hhand]
    unfold Owner.held Owner.park at *
    dsimp only
    omega
  · -- the sends under way: this one has begun, and the caller was in none
    intro i
    have hmod : (o.sched.park me p).tallyTasks (Task.sends i) + task.sends i =
        o.sched.tallyTasks (Task.sends i) + p.sends i := Sched.tallyTasks_modifyTask htask
    have hzero : task.sends i = 0 := by
      rw [Task.sends, hidle]
      rfl
    have hsends := h.books.sends i
    have hbegun := hbegun i
    unfold Owner.sending Owner.park at *
    dsimp only
    omega
  · intro corr
    rw [howed]
    exact h.books.answered corr

theorem OwnerOk.parkSend (h : OwnerOk o r l) (hrun : o.sched.running me = some task)
    (hch : o.chans[c]? = some ch) (hv : v.chan = c) (hside : v.side = .owner)
    (huntaken : Untaken o r v) (hbegun : l.begun = v :: l'.begun) (hhand : l'.hand = l.hand)
    (howed : l'.owed = l.owed) :
    OwnerOk ((o.withChan c fun ch => { ch with
      sendWaiters := ch.sendWaiters ++ [.localTask me (o.currentParkEpoch me) v] }).park me
        (.send c v)) r l' := by
  obtain ⟨htask, -, hpos⟩ := Sched.running_eq_some hrun
  -- the task parks first, and then its value joins the queue
  have hparked : OwnerOk (o.park me (.send c v)) r l' := by
    refine h.park hrun (fun _ hne => by cases hne) ?_ hhand howed ?_
    · rintro c' v' heq
      obtain ⟨rfl, rfl⟩ := Park.send.inj heq
      exact ⟨hv, hside, h.notMem huntaken⟩
    · intro i
      rw [hbegun, tally_cons]
      rfl
  have hqueue := hparked.queues c ch hch
  rw [currentParkEpoch_of_running hrun]
  show OwnerOk ((o.park me (.send c v)).withChan c _) r l'
  refine hparked.withChan hch ⟨hqueue.buffer, hqueue.recvLocal, hqueue.recvRemote, ?_, ?_⟩
    (fun i => rfl) (fun i => ?_) (fun corr => ?_) rfl
  · intro t e v' hin
    rcases List.mem_append.mp hin with hin | hin
    · exact hqueue.sendLocal t e v' hin
    · obtain ⟨rfl, rfl, rfl⟩ := SendWaiter.localTask.inj (List.mem_singleton.mp hin)
      refine ⟨hpos, ?_, Sched.suspended_park⟩
      -- its park is the newest, so no other waits with a later number
      show task.parkEpoch ≤ (o.sched.park t _).parkSeq
      rw [Sched.park, Sched.parkSeq_modifyTask]
      exact (h.tasks t task htask).epoch
  · intro corr v' hin
    rcases List.mem_append.mp hin with hin | hin
    · exact hqueue.sendRemote corr v' hin
    · cases List.mem_singleton.mp hin
  · -- the value was offered nowhere, so it may be offered here once
    have hle := h.untaken_le huntaken i
    show tally (here i) o.ledger.accepted + o.offered i + r.offering i +
      tally (fun w => here i w.value) (ch.sendWaiters ++ [.localTask me task.parkEpoch v]) ≤
      tally (here i) o.ledger.issued + _ + tally (fun w => here i w.value) ch.sendWaiters
    rw [tally_append, tally_cons, tally_nil]
    dsimp only [SendWaiter.value]
    omega
  · unfold NativeChannelState.asks
    dsimp only
    rw [tally_append]
    exact Nat.le_refl _

theorem OwnerOk.parkRecv (h : OwnerOk o r l) (hrun : o.sched.running me = some task)
    (hch : o.chans[c]? = some ch) :
    OwnerOk ((o.withChan c fun ch => { ch with
      recvWaiters := ch.recvWaiters ++ [.localTask me (o.currentParkEpoch me)] }).park me
        (.recv c)) r l := by
  obtain ⟨htask, -, hpos⟩ := Sched.running_eq_some hrun
  have hparked : OwnerOk (o.park me (.recv c)) r l := by
    refine h.park hrun ?_ (fun _ _ hne => by cases hne) rfl rfl (fun _ => Nat.zero_add _)
    rintro c' heq
    obtain rfl := Park.recv.inj heq
    exact (List.getElem?_eq_some_iff.mp hch).1
  have hqueue := hparked.queues c ch hch
  rw [currentParkEpoch_of_running hrun]
  show OwnerOk ((o.park me (.recv c)).withChan c _) r l
  refine hparked.withChan hch ⟨hqueue.buffer, ?_, ?_, hqueue.sendLocal, hqueue.sendRemote⟩
    (fun i => rfl) (fun i => ?_) (fun corr => ?_) rfl
  · intro t e hin
    rcases List.mem_append.mp hin with hin | hin
    · exact hqueue.recvLocal t e hin
    · obtain ⟨rfl, rfl⟩ := RecvWaiter.localTask.inj (List.mem_singleton.mp hin)
      refine ⟨hpos, ?_, Sched.suspended_park⟩
      show task.parkEpoch ≤ (o.sched.park t _).parkSeq
      rw [Sched.park, Sched.parkSeq_modifyTask]
      exact (h.tasks t task htask).epoch
  · intro corr hin
    rcases List.mem_append.mp hin with hin | hin
    · exact hqueue.recvRemote corr hin
    · cases List.mem_singleton.mp hin
  · have := hparked.books.untaken i
    unfold NativeChannelState.offers
    dsimp only
    omega
  · unfold NativeChannelState.asks
    dsimp only
    rw [tally_append]
    exact Nat.le_refl _

/-! ## Sending, receiving, closing -/

theorem OwnerOk.issue (h : OwnerOk o r {}) (hv : v = o.newItem c v.value) :
    OwnerOk (o.issue v) r { begun := [v] } ∧ Untaken (o.issue v) r v ∧
      o.sending v = 0 ∧ o.ledger.settled v = 0 := by
  have hside : v.side = .owner := by rw [hv]; rfl
  have hnumber : v.number = o.ledger.issued.length := by rw [hv]; rfl
  -- the number of the value is new on this side, and no value of the other side is like it
  have hfresh : tally (here v) o.ledger.issued = 0 := by
    by_contra hne
    have := (h.ledger.issued v (mem_iff_tally.mpr (Nat.pos_of_ne_zero hne))).2
    omega
  have hother : tally (here v) r.ledger.issued = 0 := by
    by_contra hne
    rw [(h.relayed v (mem_iff_tally.mpr (Nat.pos_of_ne_zero hne))).1] at hside
    cases hside
  have huntaken := h.books.untaken v
  have hsends := h.books.sends v
  refine ⟨⟨h.tasks, h.queues, h.frames, ⟨h.books.conserved, ?_, ?_, ?_, h.books.answered⟩,
    ⟨?_, h.ledger.done, h.ledger.received⟩, h.relayed⟩, ?_, by omega, by omega⟩
  · intro i
    have := h.books.untaken i
    show _ ≤ tally (here i) (v :: o.ledger.issued) + _
    rw [tally_cons]
    show tally (here i) o.ledger.accepted + o.offered i + r.offering i ≤ _
    omega
  · intro i
    have := h.books.once i
    show tally (here i) (v :: o.ledger.issued) + _ ≤ 1
    rw [tally_cons]
    by_cases hiv : v = i
    · subst hiv
      rw [here_self]
      omega
    · rw [here, if_neg hiv]
      omega
  · intro i
    have hi : o.sending i + o.ledger.settled i + 0 = _ := h.books.sends i
    show o.sending i + o.ledger.settled i + tally (here i) [v] =
      tally (here i) (v :: o.ledger.issued)
    rw [tally_cons, tally_cons, tally_nil]
    omega
  · intro i hin
    show _ ∧ i.number < (v :: o.ledger.issued).length
    rw [List.length_cons]
    rcases List.mem_cons.mp hin with rfl | hin
    · exact ⟨hside, by omega⟩
    · obtain ⟨hs, hlt⟩ := h.ledger.issued i hin
      exact ⟨hs, by omega⟩
  · show tally (here v) o.ledger.accepted + o.offered v + r.offering v <
      tally (here v) (v :: o.ledger.issued) + _
    rw [tally_cons, here_self]
    omega

theorem OwnerOk.channelSend (h : OwnerOk o r {}) (hrun : o.sched.running me = some task)
    (hch : o.chans[c]? = some ch) (hv : v = o.newItem c v.value) :
    OwnerOk ((o.issue v).channelSend me c v) r {} := by
  obtain ⟨hok, huntaken, hsending, hsettled⟩ := h.issue hv
  have hnot := hok.notMem huntaken
  have hchan : v.chan = c := by rw [hv]; rfl
  unfold Owner.channelSend
  rw [show (o.issue v).chans[c]? = some ch from hch]
  dsimp only
  split
  · exact hok.sendDone ⟨(fun hfalse => by cases hfalse), fun hin => absurd hin hnot⟩ rfl rfl rfl
  split
  · exact hok.sendDone ⟨(fun hfalse => by cases hfalse), fun hin => absurd hin hnot⟩ rfl rfl rfl
  rcases hoffer : (o.issue v).offer c v with ⟨took, o'⟩
  obtain ⟨hok', htook, hleft⟩ := hok.offer hch hchan huntaken hsending hsettled hoffer
  cases took with
  | true => exact hok'.sendDone ⟨fun _ => htook rfl, fun _ => rfl⟩ rfl rfl rfl
  | false =>
    obtain ⟨rest, rfl⟩ := hleft rfl
    have huntaken' : Untaken ((o.issue v).withChan c fun ch => { ch with recvWaiters := rest })
        r v := by
      unfold Untaken
      rw [offered_recvWaiters]
      exact huntaken
    have hrun' : ((o.issue v).withChan c fun ch => { ch with recvWaiters := rest }).sched.running me =
        some task := hrun
    refine hok'.parkSend hrun'
      (getElem?_withChan (f := fun ch => { ch with recvWaiters := rest }) hch) hchan ?_
      huntaken' rfl rfl rfl
    rw [hv]
    rfl

theorem OwnerOk.channelRecv (h : OwnerOk o r {}) (hrun : o.sched.running me = some task)
    (hch : o.chans[c]? = some ch) : OwnerOk (o.channelRecv me c) r {} := by
  unfold Owner.channelRecv
  rcases htake : o.takeValue c with ⟨found, o'⟩
  obtain ⟨⟨ch', hch'⟩, hok, hchan, hsched⟩ := h.takeValue hch htake
  cases found with
  | some v => exact hok.receive (hchan v rfl) rfl rfl rfl
  | none =>
    dsimp only
    split
    · exact hok
    · have hrun' : o'.sched.running me = some task := hsched rfl ▸ hrun
      exact hok.parkRecv hrun' hch'

theorem OwnerOk.wakeClosed {w : RecvWaiter} {owed : List Corr}
    (h : OwnerOk o r { owed := w.owed ++ owed }) :
    OwnerOk (o.wakeClosed w) r { owed := owed } := by
  cases w with
  | localTask t epoch =>
    unfold Owner.wakeClosed
    dsimp only
    split
    · rename_i hlive
      obtain ⟨task, htask, hon, -⟩ := Sched.channelWaiterLive_eq_true hlive
      exact h.wake htask hon (fun _ => rfl) rfl rfl (fun _ hne => by cases hne) rfl
    · exact h
  | remoteOp corr =>
    refine h.chanEmit (fun _ => rfl) (fun corr' => ?_) rfl (fun _ _ hne => by cases hne)
      (fun _ hne => by cases hne)
    rw [tally_append]
    exact Nat.le_of_eq rfl

theorem OwnerOk.foldl_wakeClosed {ws : List RecvWaiter}
    (h : OwnerOk o r { owed := ws.flatMap RecvWaiter.owed }) :
    OwnerOk (ws.foldl Owner.wakeClosed o) r {} := by
  induction ws generalizing o with
  | nil => exact h
  | cons w rest ih =>
    rw [List.foldl_cons]
    exact ih h.wakeClosed

omit [DecidableEq V] [Portable V] in
/-- Everybody who was parked is due an answer, once. -/
theorem tally_owed_woken (corr : Corr) (ch : NativeChannelState V) :
    tally (due corr) ((Owner.woken ch).flatMap RecvWaiter.owed) = ch.asks corr := by
  have hflat : ∀ ws : List RecvWaiter,
      tally (due corr) (ws.flatMap RecvWaiter.owed) = tally (RecvWaiter.asks corr) ws := by
    intro ws
    induction ws with
    | nil => rfl
    | cons w rest ih => rw [List.flatMap_cons, tally_append, tally_cons, ih, w.tally_owed]
  have hsend : ∀ ws : List (SendWaiter V),
      tally (RecvWaiter.asks corr) (ws.map Owner.parked) = tally (SendWaiter.asks corr) ws := by
    intro ws
    induction ws with
    | nil => rfl
    | cons w rest ih =>
      rw [List.map_cons, tally_cons, tally_cons, ih]
      cases w <;> rfl
  rw [hflat, Owner.woken, tally_append, hsend]
  rfl

theorem OwnerOk.channelClose (h : OwnerOk o r {}) : OwnerOk (o.channelClose c) r {} := by
  unfold Owner.channelClose
  cases hch : o.chans[c]? with
  | none => exact h
  | some ch =>
    refine OwnerOk.foldl_wakeClosed (h.withChan hch ⟨(h.queues c ch hch).buffer, ?_, ?_, ?_, ?_⟩
      (fun i => rfl) (fun i => ?_) (fun corr => ?_) rfl)
    · intro t e hin
      cases hin
    · intro corr hin
      cases hin
    · intro t e v hin
      cases hin
    · intro corr v hin
      cases hin
    · have := h.books.untaken i
      unfold NativeChannelState.offers
      dsimp only
      rw [tally_nil]
      omega
    · dsimp only
      rw [tally_owed_woken, tally_nil, Nat.add_zero]
      exact Nat.le_of_eq (Nat.zero_add _)

end Quoin.Channel
