import Mathlib
import Quoin.Channel.Matched
import Quoin.Channel.Extends

/-!
# Quoin — the order of a channel's values

Values leave the buffer at its head and join it at its end, and are handed over
past it only when it is empty. So what is buffered are the last values the
channel took from its senders, in the order it took them — except for values
that were put back after their receiver was cancelled, which are in front
(`Lined`). A receive that returns a value therefore has been preceded by every
value taken earlier, or that value is in the wake of a receiver that has not run
yet, or it was put back (`InOrder`).

Receives may still come to an end in another order than they were handed their
values, because a receiver that is woken returns only when it runs.

## Results

* `receives_in_order` — in every run the buffer holds the last values taken, in order, behind those
  put back, and each receive is in order;
* `woken_receiver_overtaken` — of two receives the later one may return first.
-/

namespace Quoin.Channel

open Trans

variable {V : Type} {o o' : Owner V} {c c' : ChanId} {ch : NativeChannelState V}
  {f : NativeChannelState V → NativeChannelState V} {t me : TaskId} {v : Item V}
  {taken putBack buffer : List (Item V)}

/-! ## The law -/

/-- The buffer: values that were put back, then the last ones taken. -/
def Lined (taken putBack buffer : List (Item V)) : Prop :=
  ∃ front back, buffer = front ++ back ∧ (∀ v ∈ front, v ∈ putBack) ∧ (∀ v ∈ back, v ∉ putBack) ∧
    back <:+ taken

theorem Lined.nil : Lined taken putBack [] :=
  ⟨[], [], rfl, fun _ hin => (by cases hin), fun _ hin => (by cases hin), List.nil_suffix⟩

theorem Lined.push (h : Lined taken putBack buffer) (hv : v ∉ putBack) :
    Lined (taken ++ [v]) putBack (buffer ++ [v]) := by
  obtain ⟨front, back, rfl, hfront, hback, hsuffix⟩ := h
  refine ⟨front, back ++ [v], List.append_assoc .., hfront, fun u hin => ?_, ?_⟩
  · rcases List.mem_append.mp hin with hin | hin
    · exact hback u hin
    · rw [List.mem_singleton.mp hin]
      exact hv
  · obtain ⟨early, rfl⟩ := hsuffix
    exact ⟨early, (List.append_assoc ..).symm⟩

theorem Lined.pop {head : Item V} (h : Lined taken putBack (head :: buffer)) :
    Lined taken putBack buffer := by
  obtain ⟨front, back, heq, hfront, hback, hsuffix⟩ := h
  cases front with
  | cons first front =>
    obtain ⟨rfl, rfl⟩ := List.cons.inj heq
    exact ⟨front, back, rfl, fun u hin => hfront u (List.mem_cons_of_mem _ hin), hback, hsuffix⟩
  | nil =>
    rw [List.nil_append] at heq
    subst heq
    exact ⟨[], buffer, rfl, fun _ hin => (by cases hin),
      fun u hin => hback u (List.mem_cons_of_mem _ hin), (List.suffix_cons head buffer).trans hsuffix⟩

theorem Lined.front (h : Lined taken putBack buffer) (hv : v ∈ putBack) :
    Lined taken putBack (v :: buffer) := by
  obtain ⟨front, back, rfl, hfront, hback, hsuffix⟩ := h
  refine ⟨v :: front, back, rfl, fun u hin => ?_, hback, hsuffix⟩
  rcases List.mem_cons.mp hin with rfl | hin
  · exact hv
  · exact hfront u hin

/-- A value that is elsewhere is put back. -/
theorem Lined.elsewhere (h : Lined taken putBack buffer) (hv : v ∉ buffer) :
    Lined taken (v :: putBack) buffer := by
  obtain ⟨front, back, rfl, hfront, hback, hsuffix⟩ := h
  refine ⟨front, back, rfl, fun u hin => List.mem_cons_of_mem v (hfront u hin),
    fun u hin => ?_, hsuffix⟩
  rw [List.mem_cons, not_or]
  refine ⟨?_, hback u hin⟩
  rintro rfl
  exact hv (List.mem_append_right front hin)

/-- The values a channel took from its senders, in that order. -/
def Owner.takenOn (o : Owner V) (c : ChanId) : List (Item V) :=
  (o.ledger.accepted.filter fun v => v.chan == c).reverse

def OrderOk (o : Owner V) (putBack : List (Item V)) : Prop :=
  ∀ (c : ChanId) (ch : NativeChannelState V), o.chans[c]? = some ch →
    Lined (o.takenOn c) putBack ch.buffer

theorem takenOn_accept : (o.accept v).takenOn v.chan = o.takenOn v.chan ++ [v] := by
  simp [Owner.takenOn, Owner.accept]

theorem takenOn_accept_ne (hne : v.chan ≠ c) : (o.accept v).takenOn c = o.takenOn c := by
  simp [Owner.takenOn, Owner.accept, hne]

theorem OrderOk.same (h : OrderOk o putBack) (hchans : o'.chans = o.chans)
    (haccepted : o'.ledger.accepted = o.ledger.accepted) : OrderOk o' putBack := by
  intro c ch hch
  rw [hchans] at hch
  rw [Owner.takenOn, haccepted]
  exact h c ch hch

theorem OrderOk.withChan (h : OrderOk o putBack) (hch : o.chans[c]? = some ch)
    (hline : Lined (o.takenOn c) putBack (f ch).buffer) : OrderOk (o.withChan c f) putBack := by
  intro c' ch' hch'
  by_cases hc : c' = c
  · subst hc
    rw [getElem?_withChan hch, Option.some.injEq] at hch'
    subst hch'
    exact hline
  · rw [getElem?_withChan_ne hc] at hch'
    exact h c' ch' hch'

/-- The queues of a channel change, its buffer does not. -/
theorem OrderOk.queues (h : OrderOk o putBack) (hbuffer : ∀ ch, (f ch).buffer = ch.buffer) :
    OrderOk (o.withChan c f) putBack := by
  cases hch : o.chans[c]? with
  | none =>
    rw [withChan_eq_self hch]
    exact h
  | some ch =>
    refine h.withChan hch ?_
    rw [hbuffer]
    exact h c ch hch

/-- Values that are in no buffer are put back. -/
theorem OrderOk.elsewhere (h : OrderOk o putBack) {values : List (Item V)}
    (hnone : ∀ v ∈ values, ∀ (c : ChanId) (ch : NativeChannelState V), o.chans[c]? = some ch →
      v ∉ ch.buffer) : OrderOk o (values ++ putBack) := by
  induction values with
  | nil => exact h
  | cons v rest ih =>
    have hrest := ih fun u hin => hnone u (List.mem_cons_of_mem v hin)
    exact fun c ch hch => (hrest c ch hch).elsewhere (hnone v List.mem_cons_self c ch hch)

/-- The channel takes a value from its sender. -/
theorem OrderOk.accept (h : OrderOk o putBack) (hch : o.chans[v.chan]? = some ch)
    (hline : Lined (o.takenOn v.chan ++ [v]) putBack (f ch).buffer) :
    OrderOk ((o.withChan v.chan f).accept v) putBack := by
  intro c' ch' hch'
  by_cases hc : c' = v.chan
  · subst hc
    rw [show ((o.withChan v.chan f).accept v).chans[v.chan]? = (o.withChan v.chan f).chans[v.chan]?
      from rfl, getElem?_withChan hch, Option.some.injEq] at hch'
    subst hch'
    rw [takenOn_accept]
    exact hline
  · rw [show ((o.withChan v.chan f).accept v).chans[c']? = (o.withChan v.chan f).chans[c']?
      from rfl, getElem?_withChan_ne hc] at hch'
    rw [takenOn_accept_ne (Ne.symm hc)]
    exact h c' ch' hch'

/-! ## The operations -/

theorem chans_completeSend {w : SendWaiter V} : (o.completeSend w).chans = o.chans := by
  cases w <;> rfl

theorem accepted_completeSend {w : SendWaiter V} :
    (o.completeSend w).ledger.accepted = w.value :: o.ledger.accepted := by
  cases w <;> rfl

theorem foldl_wakeClosed_same (ws : List RecvWaiter) :
    (ws.foldl Owner.wakeClosed o).chans = o.chans ∧
      (ws.foldl Owner.wakeClosed o).ledger = o.ledger := by
  induction ws generalizing o with
  | nil => exact ⟨rfl, rfl⟩
  | cons w rest ih =>
    have hone : (o.wakeClosed w).chans = o.chans ∧ (o.wakeClosed w).ledger = o.ledger := by
      unfold Owner.wakeClosed
      split
      · split <;> exact ⟨rfl, rfl⟩
      · exact ⟨rfl, rfl⟩
    rw [List.foldl_cons, ih.1, ih.2]
    exact hone

theorem OrderOk.channelClose (h : OrderOk o putBack) : OrderOk (o.channelClose c) putBack := by
  unfold Owner.channelClose
  cases hch : o.chans[c]? with
  | none => exact h
  | some ch =>
    have hclosed : OrderOk (o.withChan c fun ch =>
        { ch with closed := true, recvWaiters := [], sendWaiters := [] }) putBack :=
      h.queues fun _ => rfl
    obtain ⟨hchans, hledger⟩ := foldl_wakeClosed_same (Owner.woken ch)
    exact hclosed.same hchans (by rw [hledger])

/-- The value of a sender whose send is completed is taken on its own channel. -/
theorem OrderOk.completeSend (h : OrderOk o putBack) (hch : o.chans[c]? = some ch)
    {w : SendWaiter V} (hw : w.value.chan = c)
    (hline : Lined (o.takenOn c ++ [w.value]) putBack (f ch).buffer) :
    OrderOk ((o.withChan c f).completeSend w) putBack := by
  subst hw
  exact (h.accept hch hline).same chans_completeSend accepted_completeSend

theorem OrderOk.takeValue (h : OrderOk o putBack) (hch : o.chans[c]? = some ch)
    (hchan : ∀ w left, popLive o.sendLive ch.sendWaiters = (some w, left) → w.value.chan = c)
    (hback : ∀ u ∈ putBack, u ∈ o.ledger.accepted) {found : Option (Item V)}
    (htake : Takes o c ch found o') (honce : o'.ledger.accepted.Nodup) : OrderOk o' putBack := by
  have hline := h c ch hch
  cases htake with
  | @promoted head rest w left hbuffer hpop =>
    refine h.completeSend hch (hchan w left hpop) ?_
    rw [accepted_completeSend, List.nodup_cons] at honce
    rw [hbuffer] at hline
    dsimp only
    rw [hbuffer, List.tail_cons]
    exact hline.pop.push fun hin => honce.1 (hback _ hin)
  | buffered hbuffer hpop =>
    refine h.withChan hch ?_
    rw [hbuffer] at hline
    dsimp only
    rw [hbuffer, List.tail_cons]
    exact hline.pop
  | @handed w left hbuffer hpop =>
    refine h.completeSend hch (hchan w left hpop) ?_
    dsimp only
    rw [hbuffer]
    exact .nil
  | nothing hbuffer hpop => exact h.queues fun _ => rfl

variable [Portable V]

/-- Only local receivers are queued. -/
def AllLocal (ch : NativeChannelState V) : Prop := ∀ corr, .remoteOp corr ∉ ch.recvWaiters

omit [Portable V] in
theorem AllLocal.popped (h : AllLocal ch) {w : RecvWaiter} {left : List RecvWaiter}
    (hpop : popLive o.recvLive ch.recvWaiters = (some w, left)) :
    ∃ t e, w = .localTask t e ∧ o.recvLive w = true ∧ w ∈ ch.recvWaiters := by
  obtain ⟨hin, hlive⟩ := popLive_some hpop
  cases w with
  | localTask t e => exact ⟨t, e, rfl, hlive, hin⟩
  | remoteOp corr => exact absurd hin (h corr)

theorem OrderOk.offer (h : OrderOk o putBack) (hwaiters : WaitersOk o)
    (hch : o.chans[c]? = some ch) (hlocal : AllLocal ch) (hv : v.chan = c) (hfresh : v ∉ putBack)
    {took : Bool} (hoffer : Offers o c ch v took o') : OrderOk o' putBack := by
  subst hv
  cases hoffer with
  | @delivered w left hpop =>
    -- a receiver waits, so the buffer is empty
    obtain ⟨t, e, rfl, hlive, hin⟩ := hlocal.popped hpop
    have hempty := ((hwaiters.matched _ ch hch).receiver _ hin hlive).1
    have haccepted : OrderOk ((o.withChan v.chan fun ch =>
        { ch with recvWaiters := left }).accept v) putBack := by
      refine h.accept hch ?_
      dsimp only
      rw [hempty]
      exact .nil
    exact haccepted.same rfl rfl
  | buffered hpop hroom => exact h.accept hch ((h v.chan ch hch).push hfresh)
  | refused hpop hroom => exact h.queues fun _ => rfl

theorem OrderOk.channelRedeliver (h : OrderOk o putBack) (hv : v ∈ putBack)
    (hlocal : ∀ ch, o.chans[c]? = some ch → AllLocal ch) :
    OrderOk (o.channelRedeliver c v) putBack := by
  cases hch : o.chans[c]? with
  | none =>
    rw [channelRedeliver_none hch]
    exact h
  | some ch =>
    generalize hredeliver : o.channelRedeliver c v = o'
    cases redelivers hch hredeliver with
    | @delivered w left hpop =>
      obtain ⟨t, e, rfl, -, -⟩ := (hlocal ch hch).popped hpop
      have hpopped : OrderOk (o.withChan c fun ch => { ch with recvWaiters := left }) putBack :=
        h.queues fun _ => rfl
      exact hpopped.same rfl rfl
    | fronted hpop => exact h.withChan hch ((h c ch hch).front hv)

theorem OrderOk.resumePark (h : OrderOk o putBack)
    (hlocal : ∀ (c : ChanId) (ch : NativeChannelState V), o.chans[c]? = some ch → AllLocal ch)
    {p : Park V} {wake : Option (Wake V)} {cancelled : Bool}
    (hback : cancelled = true → ∀ v, wake = some (.channelRecv v) → v ∈ putBack) :
    OrderOk (o.resumePark t p wake cancelled) putBack := by
  have hredeliver : cancelled = true → ∀ c, OrderOk (o.redeliverWake c wake) putBack := by
    intro hcancelled c
    unfold Owner.redeliverWake
    split
    · rename_i v
      exact h.channelRedeliver (hback hcancelled v rfl) (hlocal c)
    · exact h
  cases p with
  | send c v =>
    unfold Owner.resumePark
    dsimp only
    split
    · rename_i hcancelled
      exact (hredeliver hcancelled c).same rfl rfl
    · split <;> exact h.same rfl rfl
  | recv c =>
    unfold Owner.resumePark
    dsimp only
    split
    · rename_i hcancelled
      exact (hredeliver hcancelled c).same rfl rfl
    · split
      · exact h.same rfl rfl
      · exact h

/-! ## Runs on one thread -/

/-- The owner's tasks, and the values that were put back so far. -/
structure Recorded (V : Type) where
  owner : Owner V := {}
  putBack : List (Item V) := []

/-- The value of a receiver that is resumed, and finds itself cancelled. -/
def Task.putsBack (task : Task (Park V) V) : List (Item V) :=
  match task.park, task.wake with
  | some _, some (.channelRecv v) => if task.cancelRequested then [v] else []
  | _, _ => []

def Owner.putsBack (o : Owner V) : Owner.Action V → List (Item V)
  | .load t => (o.sched.task? t).elim [] Task.putsBack
  | _ => []

def Recorded.step (s : Recorded V) (a : Owner.Action V) : Option (Recorded V) :=
  (s.owner.step a).map fun owner => { owner, putBack := s.owner.putsBack a ++ s.putBack }

omit [Portable V] in
theorem Task.mem_putsBack {task : Task (Park V) V} (hin : v ∈ task.putsBack) :
    ∃ p, task.park = some p ∧ task.wake = some (.channelRecv v) ∧ task.cancelRequested = true := by
  unfold Task.putsBack at hin
  split at hin
  · rename_i p u hpark hwake
    split at hin
    · rename_i hcancel
      obtain rfl := List.mem_singleton.mp hin
      exact ⟨p, hpark, hwake, hcancel⟩
    · cases hin
  · cases hin

omit [Portable V] in
theorem Owner.mem_putsBack {a : Owner.Action V} (hin : v ∈ o.putsBack a) :
    ∃ t task, a = .load t ∧ o.sched.task? t = some task ∧ v ∈ task.putsBack := by
  cases a with
  | load t =>
    rw [Owner.putsBack] at hin
    cases htask : o.sched.task? t with
    | none =>
      rw [htask] at hin
      cases hin
    | some task =>
      rw [htask] at hin
      exact ⟨t, task, rfl, htask, hin⟩
  | _ => cases hin

variable [DecidableEq V]

omit [Portable V] in
theorem tally_here_eq_count (i : Item V) (l : List (Item V)) : tally (here i) l = l.count i := by
  induction l with
  | nil => rfl
  | cons j rest ih =>
    rw [tally_cons, List.count_cons, ih, here, Nat.add_comm]
    simp

theorem OwnerOk.accepted_nodup {r : Remote V} {l : Limbo V} (h : OwnerOk o r l) :
    o.ledger.accepted.Nodup := by
  refine List.nodup_iff_count_le_one.mpr fun i => ?_
  have huntaken := h.books.untaken i
  have honce := h.books.once i
  rw [← tally_here_eq_count]
  omega

/-- A value in a receiver's wake is in no buffer, and was taken. -/
theorem OwnerOk.wake_elsewhere {r : Remote V} (h : OwnerOk o r {}) {task : Task (Park V) V}
    (htask : o.sched.task? t = some task) (hwake : task.wake = some (.channelRecv v)) :
    v ∈ o.ledger.accepted ∧
      ∀ (c : ChanId) (ch : NativeChannelState V), o.chans[c]? = some ch → v ∉ ch.buffer := by
  have hcons : o.held v + r.held v + 0 = _ := h.books.conserved v
  have huntaken := h.books.untaken v
  have honce := h.books.once v
  have hholds : task.holds v = 1 := by
    rw [Task.holds, hwake]
    exact here_self v
  have htasks : task.holds v ≤ o.sched.tallyTasks (Task.holds v) := Sched.le_tallyTasks htask
  unfold Owner.held at hcons
  refine ⟨mem_iff_tally.mpr (by omega), fun c ch hch hin => ?_⟩
  have hbuffered := le_tally_of_getElem? (f := NativeChannelState.buffered v) hch
  have hpos := mem_iff_tally.mp hin
  unfold NativeChannelState.buffered at hbuffered hcons
  omega

/-- Without a remote VM no remote operation is queued. -/
theorem OwnerOk.allLocal (h : OwnerOk o ({} : Remote V) {}) (hch : o.chans[c]? = some ch) :
    AllLocal ch := by
  intro corr hin
  have hasks := le_tally (f := RecvWaiter.asks corr) hin
  rw [show RecvWaiter.asks corr (.remoteOp corr) = 1 from due_self corr] at hasks
  have hwaiting := le_tally_of_getElem? (f := NativeChannelState.asks corr) hch
  have hans : 0 + o.waiting corr + o.answers corr + 0 ≤ 0 := h.books.answered corr
  unfold Owner.waiting at hans
  unfold NativeChannelState.asks at hwaiting hans
  omega

omit [DecidableEq V] in
theorem AllLocal.noBounce (h : ∀ ch, o.chans[c]? = some ch → AllLocal ch) :
    o.noBounce c v = true := by
  unfold Owner.noBounce
  cases hch : o.chans[c]? with
  | none => rfl
  | some ch =>
    rw [Option.all_some]
    split
    · rename_i hpop
      obtain ⟨t, e, hne, -⟩ := (h ch hch).popped hpop
      cases hne
    · rfl

structure RecordedOk (s : Recorded V) : Prop where
  owner : OwnerOk s.owner {} {}
  waiters : WaitersOk s.owner
  order : OrderOk s.owner s.putBack
  back : ∀ u ∈ s.putBack, u ∈ s.owner.ledger.accepted

namespace RecordedOk

variable {s s' : Recorded V} {a : Owner.Action V}

theorem init : RecordedOk ({} : Recorded V) :=
  ⟨.init, .init, fun c ch hch => (by cases hch), fun u hin => (by cases hin)⟩

theorem strandsNone (h : RecordedOk s) (a : Owner.Action V) :
    ({ owner := s.owner } : System V).strandsNone (.owner a) = true := by
  cases a with
  | load t =>
    rw [System.strandsNone]
    cases s.owner.sched.task? t with
    | none => rfl
    | some task =>
      rw [Option.all_some]
      split
      · rw [Bool.or_eq_true]
        exact .inr (AllLocal.noBounce fun ch hch => h.owner.allLocal hch)
      · rfl
  | send me c v =>
    rw [System.strandsNone]
    cases hch : s.owner.chans[c]? with
    | none => rfl
    | some ch =>
      rw [Option.all_some, AllLocal.noBounce fun ch hch => h.owner.allLocal hch, Bool.or_true]
  | _ => rfl

/-- What is put back was taken, and is in no buffer. -/
theorem putsBack (h : RecordedOk s) (hin : v ∈ s.owner.putsBack a) :
    v ∈ s.owner.ledger.accepted ∧
      ∀ (c : ChanId) (ch : NativeChannelState V), s.owner.chans[c]? = some ch → v ∉ ch.buffer := by
  obtain ⟨t, task, -, htask, hputs⟩ := Owner.mem_putsBack hin
  obtain ⟨p, -, hwake, -⟩ := Task.mem_putsBack hputs
  exact h.owner.wake_elsewhere htask hwake

/-- A new send's value has not been taken. -/
theorem newItem_fresh (h : RecordedOk s) (v : V) : s.owner.newItem c v ∉ s.putBack := by
  intro hin
  have htaken := mem_iff_tally.mp (h.back _ hin)
  have huntaken := h.owner.books.untaken (s.owner.newItem c v)
  have hnone : tally (here (s.owner.newItem c v)) ({} : Remote V).ledger.issued = 0 := rfl
  have hissued : s.owner.newItem c v ∈ s.owner.ledger.issued := mem_iff_tally.mpr (by omega)
  exact absurd (h.owner.ledger.issued _ hissued).2 (Nat.lt_irrefl _)

theorem channelSend (h : RecordedOk s) (v : V) :
    OrderOk ((s.owner.issue (s.owner.newItem c v)).channelSend me c (s.owner.newItem c v))
      s.putBack := by
  have hissued : OrderOk (s.owner.issue (s.owner.newItem c v)) s.putBack := h.order.same rfl rfl
  have hwaiters : WaitersOk (s.owner.issue (s.owner.newItem c v)) := h.waiters.same rfl rfl
  unfold Owner.channelSend
  cases hch : s.owner.chans[c]? with
  | none =>
    rw [show (s.owner.issue (s.owner.newItem c v)).chans = s.owner.chans from rfl, hch]
    exact hissued
  | some ch =>
    rw [show (s.owner.issue (s.owner.newItem c v)).chans = s.owner.chans from rfl, hch]
    dsimp only
    split
    · exact hissued.same rfl rfl
    split
    · exact hissued.same rfl rfl
    rcases hoffer : (s.owner.issue (s.owner.newItem c v)).offer c (s.owner.newItem c v)
      with ⟨took, o'⟩
    have hout := offers (o := s.owner.issue (s.owner.newItem c v)) hch hoffer
    have hok := hissued.offer hwaiters hch (h.owner.allLocal hch) rfl (h.newItem_fresh v) hout
    cases took with
    | true => exact hok.same rfl rfl
    | false =>
      refine OrderOk.same (o := o'.withChan c _) (hok.queues ?_) rfl rfl
      exact fun _ => rfl

/-- A parked sender's value was sent on the channel it is parked on. -/
theorem chan_of_popLive (h : RecordedOk s) (hch : s.owner.chans[c]? = some ch) {w : SendWaiter V}
    {left : List (SendWaiter V)} (hpop : popLive s.owner.sendLive ch.sendWaiters = (some w, left)) :
    w.value.chan = c := by
  obtain ⟨hin, hlive⟩ := popLive_some hpop
  exact h.owner.chan_of_sendsOn ((h.owner.queues c ch hch).sendsOn hin hlive)

theorem channelRecv (h : RecordedOk s)
    (honce : (s.owner.channelRecv me c).ledger.accepted.Nodup) :
    OrderOk (s.owner.channelRecv me c) s.putBack := by
  unfold Owner.channelRecv at honce ⊢
  rcases htake : s.owner.takeValue c with ⟨found, o'⟩
  rw [htake] at honce
  cases hch : s.owner.chans[c]? with
  | none =>
    unfold Owner.takeValue Owner.popLiveSend at htake
    rw [hch] at htake
    obtain ⟨rfl, rfl⟩ := Prod.mk.inj htake
    dsimp only
    rw [hch]
    exact h.order
  | some ch =>
    have htook := takes hch htake
    have hok : o'.ledger.accepted.Nodup → OrderOk o' s.putBack :=
      h.order.takeValue hch (fun w left => h.chan_of_popLive hch) h.back htook
    cases found with
    | some v => exact (hok honce).same rfl rfl
    | none =>
      dsimp only at honce ⊢
      split at honce
      · rename_i hclosed
        rw [if_pos hclosed]
        exact hok honce
      · rename_i hclosed
        rw [if_neg hclosed]
        refine OrderOk.same (o := o'.withChan c _) ((hok honce).queues ?_) rfl rfl
        exact fun _ => rfl

theorem load (h : RecordedOk s) (hload : s.owner.load t = some o') :
    OrderOk o' (s.owner.putsBack (.load t) ++ s.putBack) := by
  have hback : OrderOk s.owner (s.owner.putsBack (.load t) ++ s.putBack) :=
    h.order.elsewhere fun v hin => (h.putsBack hin).2
  unfold Owner.load at hload
  split at hload
  · cases hload
  rename_i task htask
  split at hload
  · cases hload
  dsimp only at hload
  have hloaded : OrderOk { s.owner with sched := s.owner.sched.loadTaskContext t }
    (s.owner.putsBack (.load t) ++ s.putBack) := hback.same rfl rfl
  split at hload
  · obtain rfl := Option.some.inj hload
    exact hloaded
  · rename_i p hpark
    obtain rfl := Option.some.inj hload
    refine hloaded.resumePark (fun c ch hch => h.owner.allLocal hch) fun hcancelled v hwake => ?_
    refine List.mem_append_left _ ?_
    rw [Owner.putsBack, htask, Option.elim_some, Task.putsBack, hpark, hwake]
    simp [hcancelled]

theorem step (h : RecordedOk s) (hstep : s.step a = some s') : RecordedOk s' := by
  obtain ⟨o', ho, rfl⟩ := Option.map_eq_some_iff.mp hstep
  have howner := h.owner.step ho
  have hext := Extends.step ho
  refine ⟨howner, WaitersOk.step (s := { owner := s.owner }) h.waiters (h.strandsNone a) ho, ?_, ?_⟩
  · -- the order: only what takes, hands over or puts back a value changes it
    cases a with
    | newChannel cap =>
      obtain rfl := Option.some.inj ho
      -- a new channel has no value
      intro c ch hch
      rcases Nat.lt_or_ge c s.owner.chans.length with hlt | hge
      · rw [List.getElem?_append_left hlt] at hch
        exact h.order c ch hch
      · rw [List.getElem?_append_right hge] at hch
        obtain rfl := List.mem_singleton.mp (List.mem_of_getElem? hch)
        exact .nil
    | spawn =>
      obtain rfl := Option.some.inj ho
      exact h.order.same rfl rfl
    | complete t =>
      obtain ⟨task, -, rfl⟩ := Option.map_eq_some_iff.mp ho
      exact h.order.same rfl rfl
    | load t => exact h.load ho
    | cancel t =>
      obtain rfl := Option.some.inj ho
      exact h.order.same rfl rfl
    | send me c v =>
      rw [Owner.step] at ho
      split at ho
      · obtain rfl := Option.some.inj ho
        exact h.channelSend v
      · cases ho
    | recv me c =>
      rw [Owner.step] at ho
      split at ho
      · obtain rfl := Option.some.inj ho
        exact h.channelRecv howner.accepted_nodup
      · cases ho
    | close me c =>
      obtain ⟨task, -, rfl⟩ := Option.map_eq_some_iff.mp ho
      exact h.order.channelClose
  · -- what was put back before the step, or in it, was accepted
    intro u hin
    rcases List.mem_append.mp hin with hin | hin
    · exact hext.accepted u (h.putsBack hin).1
    · exact hext.accepted u (h.back u hin)

end RecordedOk

/-! ## What receives observe -/

/-- The value is in the wake of a receiver that has not run since. -/
def Owner.InWake (o : Owner V) (v : Item V) : Prop :=
  ∃ t task, o.sched.task? t = some task ∧ task.wake = some (.channelRecv v)

structure InOrder (s : Recorded V) : Prop where
  lined : ∀ (c : ChanId) (ch : NativeChannelState V), s.owner.chans[c]? = some ch →
    Lined (s.owner.takenOn c) s.putBack ch.buffer
  /-- A receive is not ahead of values taken earlier, unless they were put back. -/
  received : ∀ c u v, [u, v].Sublist (s.owner.takenOn c) → (c, v) ∈ s.owner.ledger.received →
    (c, u) ∈ s.owner.ledger.received ∨ s.owner.InWake u ∨
      u ∈ s.putBack ∧ ∃ ch, s.owner.chans[c]? = some ch ∧ u ∈ ch.buffer
  /-- A value is put back to the next receiver, or to where the next receive looks first. -/
  putBack : ∀ a s' v, s.step a = some s' → v ∈ s.owner.putsBack a →
    s'.owner.InWake v ∨ ∃ ch, s'.owner.chans[v.chan]? = some ch ∧ ch.buffer.head? = some v

omit [DecidableEq V] [Portable V] in
/-- Behind a value of the last part come only values of that part. -/
theorem mem_of_suffix {u v : Item V} {back : List (Item V)} (honce : taken.Nodup)
    (hsuffix : back <:+ taken) (hu : u ∈ back) (horder : [u, v].Sublist taken) : v ∈ back := by
  obtain ⟨early, rfl⟩ := hsuffix
  obtain ⟨first, second, heq, hfirst, hsecond⟩ := List.sublist_append_iff.mp horder
  cases first with
  | nil =>
    rw [List.nil_append] at heq
    subst heq
    exact hsecond.subset (by simp)
  | cons head rest =>
    obtain ⟨rfl, -⟩ := List.cons.inj heq
    have hearly : u ∈ early := hfirst.subset List.mem_cons_self
    exact absurd rfl ((List.nodup_append.mp honce).2.2 u hearly u hu)

omit [DecidableEq V] [Portable V] in
theorem mem_takenOn {i : Item V} : i ∈ o.takenOn c ↔ i ∈ o.ledger.accepted ∧ i.chan = c := by
  simp [Owner.takenOn]

/-- Where a value that was taken is. -/
theorem OwnerOk.located (h : OwnerOk o ({} : Remote V) {}) {i : Item V}
    (hin : i ∈ o.ledger.accepted) :
    (i.chan, i) ∈ o.ledger.received ∨ o.InWake i ∨
      ∃ ch, o.chans[i.chan]? = some ch ∧ i ∈ ch.buffer := by
  have hplaces : o.places i = 1 := h.places_eq (b := true) ⟨fun _ => hin, fun _ => rfl⟩
  unfold Owner.places at hplaces
  rcases Nat.eq_zero_or_pos (o.ledger.returned i) with hreturned | hreturned
  · rcases Nat.eq_zero_or_pos (o.sched.tallyTasks (Task.holds i)) with htasks | htasks
    · obtain ⟨ch, hch, hpos⟩ := tally_pos
        (f := NativeChannelState.buffered i) (l := o.chans) (by omega)
      obtain ⟨c, hc⟩ := List.mem_iff_getElem?.mp hch
      have hbuffer := mem_iff_tally.mpr hpos
      obtain rfl := (h.queues c ch hc).buffer i hbuffer
      exact .inr (.inr ⟨ch, hc, hbuffer⟩)
    · obtain ⟨slot, hslot, hpos⟩ := tally_pos htasks
      cases slot with
      | none => cases hpos
      | some task =>
        obtain ⟨t, ht⟩ := List.mem_iff_getElem?.mp hslot
        refine .inr (.inl ⟨t, task, Sched.task?_eq_some.mpr ht, ?_⟩)
        rw [Option.elim_some, Task.holds] at hpos
        cases hwake : task.wake with
        | none =>
          rw [hwake] at hpos
          cases hpos
        | some wake =>
          rw [hwake, Option.elim_some] at hpos
          cases wake with
          | channelRecv j => rw [eq_of_here hpos]
          | _ => cases hpos
  · obtain ⟨⟨c, j⟩, hj, hpos⟩ := tally_pos hreturned
    obtain rfl := eq_of_here hpos
    obtain rfl := h.ledger.received c j hj
    exact .inl hj

theorem RecordedOk.received {s : Recorded V} (h : RecordedOk s) {u v : Item V}
    (horder : [u, v].Sublist (s.owner.takenOn c)) (hv : (c, v) ∈ s.owner.ledger.received) :
    (c, u) ∈ s.owner.ledger.received ∨ s.owner.InWake u ∨
      u ∈ s.putBack ∧ ∃ ch, s.owner.chans[c]? = some ch ∧ u ∈ ch.buffer := by
  have honce : (s.owner.takenOn c).Nodup :=
    List.nodup_reverse.mpr (h.owner.accepted_nodup.filter _)
  obtain ⟨hu, rfl⟩ := mem_takenOn.mp (horder.subset (by simp : u ∈ [u, v]))
  obtain ⟨hv', hchan⟩ := mem_takenOn.mp (horder.subset (by simp : v ∈ [u, v]))
  rcases h.owner.located hu with hreceived | hwake | ⟨ch, hch, hin⟩
  · exact .inl hreceived
  · exact .inr (.inl hwake)
  · refine .inr (.inr ⟨?_, ch, hch, hin⟩)
    obtain ⟨front, back, hbuffer, hfront, -, hsuffix⟩ := h.order _ ch hch
    rw [hbuffer] at hin
    rcases List.mem_append.mp hin with hin | hin
    · exact hfront u hin
    · -- then `v` is still in the buffer, and was not received
      have hlast : v ∈ ch.buffer := by
        rw [hbuffer]
        exact List.mem_append_right front (mem_of_suffix honce hsuffix hin horder)
      have hplaces : s.owner.places v = 1 := h.owner.places_eq (b := true) ⟨fun _ => hv', fun _ => rfl⟩
      have hbuffered := le_tally_of_getElem? (f := NativeChannelState.buffered v) hch
      have hpos := mem_iff_tally.mp hlast
      have hreturned := le_tally (f := fun entry : ChanId × Item V => here v entry.2) hv
      dsimp only at hreturned
      rw [here_self] at hreturned
      unfold Owner.places Ledger.returned at hplaces
      unfold NativeChannelState.buffered at hbuffered hplaces
      omega

omit [DecidableEq V] [Portable V] in
theorem InWake.wake {task : Task (Park V) V} (htask : o.sched.task? t = some task) :
    (o.wakeChannelTask t (.channelRecv v)).InWake v := by
  refine ⟨t, { task with parkedOnChannel := false, wake := some (.channelRecv v) }, ?_, rfl⟩
  rw [Owner.wakeChannelTask, Sched.wakeChannelTask, Sched.task?_modifyTask, if_pos rfl, htask]
  rfl

omit [DecidableEq V] [Portable V] in
theorem InWake.takeCancellation (h : o.InWake v) : (o.takeCancellation t).InWake v := by
  obtain ⟨u, task, htask, hwake⟩ := h
  by_cases hut : u = t
  · refine ⟨u, { task with cancelRequested := false }, ?_, hwake⟩
    rw [Owner.takeCancellation, Sched.takeCancellation, Sched.task?_modifyTask, if_pos hut, ← hut,
      htask]
    rfl
  · refine ⟨u, task, ?_, hwake⟩
    rw [Owner.takeCancellation, Sched.takeCancellation, Sched.task?_modifyTask, if_neg hut, htask]

theorem RecordedOk.putBack_first {s s' : Recorded V} (h : RecordedOk s) {a : Owner.Action V}
    (hstep : s.step a = some s') (hv : v ∈ s.owner.putsBack a) :
    s'.owner.InWake v ∨ ∃ ch, s'.owner.chans[v.chan]? = some ch ∧ ch.buffer.head? = some v := by
  obtain ⟨t, task, rfl, htask, hputs⟩ := Owner.mem_putsBack hv
  obtain ⟨p, hpark, hwake, hcancel⟩ := Task.mem_putsBack hputs
  have hok := h.owner.tasks t task htask
  obtain ⟨o', hload, rfl⟩ := Option.map_eq_some_iff.mp hstep
  rw [hok.handed v hwake] at hpark
  obtain rfl := Option.some.inj hpark
  have hlt := hok.receiver v.chan (hok.handed v hwake)
  rw [Owner.step, Owner.load, htask] at hload
  dsimp only at hload
  split at hload
  · cases hload
  rw [hok.handed v hwake] at hload
  dsimp only at hload
  obtain rfl := Option.some.inj hload
  have hresume : ∀ o : Owner V, o.resumePark t (.recv v.chan) task.wake task.cancelRequested =
      (o.channelRedeliver v.chan v).takeCancellation t := by
    intro o
    rw [hwake, hcancel]
    rfl
  dsimp only
  rw [hresume]
  have hch := List.getElem?_eq_getElem hlt
  generalize hredeliver : ({ s.owner with sched := s.owner.sched.loadTaskContext t } :
    Owner V).channelRedeliver v.chan v = o'
  cases redelivers (o := { s.owner with sched := s.owner.sched.loadTaskContext t }) hch hredeliver with
  | @delivered w left hpop =>
    obtain ⟨u, e, rfl, hlive, -⟩ := (h.owner.allLocal hch).popped hpop
    obtain ⟨receiver, hreceiver, -⟩ := Sched.channelWaiterLive_eq_true hlive
    exact .inl (InWake.takeCancellation (InWake.wake hreceiver))
  | fronted hpop => exact .inr ⟨_, getElem?_withChan hch, rfl⟩

/-- **Channel order.** In every run on one thread, receives observe the values in the order
the channel took them, up to receivers that have not run yet and values that were put back. -/
theorem receives_in_order {s : Recorded V} (hRun : Reach Recorded.step {} s) : InOrder s := by
  have hok : RecordedOk s := hRun.invariant .init fun _ _ _ h _ hstep => h.step hstep
  exact ⟨hok.order, fun c u v horder hv => hok.received horder hv,
    fun a s' v hstep hv => hok.putBack_first hstep hv⟩

/-- A receiver is handed a value and cancelled; the value is in front of the next one sent. -/
theorem receives_in_order_putBack : ∃ s : Recorded Int, Reach Recorded.step {} s ∧
    s.putBack = [⟨.owner, 0, 0, 7⟩] ∧ InOrder s := by
  have hexec : (exec Recorded.step (fun _ _ => True) ({} : Recorded Int) [.newChannel 1, .spawn,
      .spawn, .load 0, .load 1, .recv 0 0, .send 1 0 7, .send 1 0 8, .cancel 0, .load 0,
      .recv 1 0]).map Recorded.putBack = some [⟨.owner, 0, 0, 7⟩] := by
    decide +kernel
  obtain ⟨s, hRun, hputBack⟩ := run_of_exec_map hexec
  exact ⟨s, hRun, hputBack, receives_in_order hRun⟩

/-- A receiver is woken with 7; before it runs, the sender sends 8 and receives it. -/
theorem woken_receiver_overtaken : ¬ ∀ s : Recorded Int, Reach Recorded.step {} s →
    ∀ c, ((s.owner.ledger.received.filter fun entry => entry.1 == c).map Prod.snd).reverse.Sublist
      (s.owner.takenOn c) := by
  intro hall
  have hexec : (exec Recorded.step (fun _ _ => True) ({} : Recorded Int) [.newChannel 1, .spawn,
      .spawn, .load 0, .load 1, .recv 0 0, .send 1 0 7, .send 1 0 8, .recv 1 0, .load 0]).map
      (fun s => (((s.owner.ledger.received.filter fun entry => entry.1 == 0).map Prod.snd).reverse,
        s.owner.takenOn 0)) =
      some ([⟨.owner, 1, 0, 8⟩, ⟨.owner, 0, 0, 7⟩], [⟨.owner, 0, 0, 7⟩, ⟨.owner, 1, 0, 8⟩]) := by
    decide +kernel
  obtain ⟨s, hRun, hend⟩ := run_of_exec_map hexec
  obtain ⟨hreceived, htaken⟩ := Prod.mk.inj hend
  have horder := hall s hRun 0
  rw [hreceived, htaken] at horder
  revert horder
  decide

end Quoin.Channel
