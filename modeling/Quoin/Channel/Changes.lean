import Quoin.Channel.Books

/-!
# Quoin — single changes keep the owner's invariant

One rule for each kind of change an operation is made of: a channel rewritten,
a frame emitted, a task woken, a value accepted, a line added to the ledger.
Each says how much the change takes out of limbo or puts into it, so an
operation keeps the invariant if its changes do and nothing is left in limbo.
-/

namespace Quoin.Channel

open Trans

variable {V : Type} {o : Owner V} {r : Remote V} {l l' : Limbo V} {c c' : ChanId}
  {ch : NativeChannelState V} {f : NativeChannelState V → NativeChannelState V} {t : TaskId}
  {task : Task (Park V) V} {v : Item V}

/-! ## Channels -/

theorem getElem?_withChan (hch : o.chans[c]? = some ch) : (o.withChan c f).chans[c]? = some (f ch) := by
  rw [Owner.withChan, List.getElem?_modify, hch]
  exact congrArg some (if_pos rfl)

theorem getElem?_withChan_ne (hne : c' ≠ c) : (o.withChan c f).chans[c']? = o.chans[c']? := by
  rw [Owner.withChan, List.getElem?_modify]
  cases o.chans[c']? with
  | none => rfl
  | some ch => exact congrArg some (if_neg (Ne.symm hne))

theorem length_withChan : (o.withChan c f).chans.length = o.chans.length :=
  List.length_modify f o.chans c

theorem QueuesOk.sched {sched sched' : Sched (Park V) V} (h : QueuesOk sched r c ch)
    (hseq : sched.parkSeq ≤ sched'.parkSeq)
    (hsusp : ∀ t e p, 1 ≤ e → e ≤ sched.parkSeq → sched.Suspended t e p →
      sched'.Suspended t e p) : QueuesOk sched' r c ch := by
  refine ⟨h.buffer, ?_, h.recvRemote, ?_, h.sendRemote⟩
  · intro t e hin
    obtain ⟨hpos, hle, hs⟩ := h.recvLocal t e hin
    exact ⟨hpos, Nat.le_trans hle hseq, hsusp t e _ hpos hle hs⟩
  · intro t e v hin
    obtain ⟨hpos, hle, hs⟩ := h.sendLocal t e v hin
    exact ⟨hpos, Nat.le_trans hle hseq, hsusp t e _ hpos hle hs⟩

variable [DecidableEq V] [Portable V]

theorem OwnerOk.withChan (h : OwnerOk o r l) (hch : o.chans[c]? = some ch)
    (hqueues : QueuesOk o.sched r c (f ch))
    (hbuf : ∀ i, (f ch).buffered i + tally (here i) l'.hand =
      ch.buffered i + tally (here i) l.hand)
    (hoffers : ∀ i, tally (here i) o.ledger.accepted + o.offered i + r.offering i +
        (f ch).offers i ≤
      tally (here i) o.ledger.issued + tally (here i) r.ledger.issued + ch.offers i)
    (hasks : ∀ corr, (f ch).asks corr + tally (due corr) l'.owed ≤
      ch.asks corr + tally (due corr) l.owed)
    (hbegun : l'.begun = l.begun) : OwnerOk (o.withChan c f) r l' := by
  refine ⟨?_, ?_, h.frames, ⟨?_, ?_, h.books.once, ?_, ?_⟩, h.ledger, h.relayed⟩
  · -- the tasks, whose channels are as many as before
    intro t task htask
    rw [length_withChan]
    exact h.tasks t task htask
  · intro c' ch' hch'
    by_cases hc : c' = c
    · subst hc
      rw [getElem?_withChan hch, Option.some.injEq] at hch'
      exact hch' ▸ hqueues
    · rw [getElem?_withChan_ne hc] at hch'
      exact h.queues c' ch' hch'
  · -- the books: the sums over the channels change by what this one does
    intro i
    have hmod := tally_modify (f := NativeChannelState.buffered i) (u := f) hch
    have hcons := h.books.conserved i
    have hbuf := hbuf i
    unfold Owner.held Owner.withChan at *
    dsimp only at *
    omega
  · intro i
    have hmod := tally_modify (f := NativeChannelState.offers i) (u := f) hch
    have hoffers := hoffers i
    unfold Owner.offered Owner.withChan at *
    dsimp only at *
    omega
  · intro i
    rw [hbegun]
    exact h.books.sends i
  · intro corr
    have hmod := tally_modify (f := NativeChannelState.asks corr) (u := f) hch
    have hans := h.books.answered corr
    have hasks := hasks corr
    unfold Owner.waiting Owner.answers Owner.withChan at *
    dsimp only at *
    omega

/-! ## Frames -/

theorem OwnerOk.chanEmit (h : OwnerOk o r l) {frame : ChanFrame V}
    (hcarries : ∀ i, frame.carries i + tally (here i) l'.hand = tally (here i) l.hand)
    (hanswers : ∀ corr, frame.answers corr + tally (due corr) l'.owed ≤ tally (due corr) l.owed)
    (hbegun : l'.begun = l.begun)
    (hvalue : ∀ corr v, frame = .value corr v →
      r.RecvAt corr v.chan ∧ Portable.crossError v.value = none)
    (hack : ∀ corr, frame = .ack corr → ∃ i ∈ o.ledger.accepted, r.SendAt corr i) :
    OwnerOk (o.chanEmit frame) r l' := by
  refine ⟨h.tasks, h.queues, ⟨?_, ?_⟩, ⟨?_, h.books.untaken, h.books.once, ?_, ?_⟩, h.ledger, h.relayed⟩
  · intro corr v hin
    rcases List.mem_append.mp hin with hin | hin
    · exact h.frames.value corr v hin
    · exact hvalue corr v (List.mem_singleton.mp hin).symm
  · intro corr hin
    rcases List.mem_append.mp hin with hin | hin
    · exact h.frames.ack corr hin
    · exact hack corr (List.mem_singleton.mp hin).symm
  · intro i
    have hcons := h.books.conserved i
    have hcarries := hcarries i
    unfold Owner.held Owner.chanEmit at *
    dsimp only at *
    rw [tally_append, tally_cons, tally_nil]
    omega
  · intro i
    rw [hbegun]
    exact h.books.sends i
  · intro corr
    have hans := h.books.answered corr
    have hanswers := hanswers corr
    unfold Owner.waiting Owner.answers Owner.chanEmit at *
    dsimp only at *
    rw [tally_append, tally_cons, tally_nil]
    omega

/-! ## Tasks -/

omit [Portable V] in
theorem Books.modifyTask (h : Books o r l) (htask : o.sched.task? t = some task)
    {g : Task (Park V) V → Task (Park V) V} (hpark : ∀ task, (g task).park = task.park)
    (hholds : ∀ i, (g task).holds i + tally (here i) l'.hand =
      task.holds i + tally (here i) l.hand)
    (howed : l'.owed = l.owed) (hbegun : l'.begun = l.begun) :
    Books { o with sched := o.sched.modifyTask t g } r l' := by
  refine ⟨?_, h.untaken, h.once, ?_, ?_⟩
  · intro i
    have hmod := Sched.tallyTasks_modifyTask (f := Task.holds i) (g := g) htask
    have hcons := h.conserved i
    have hholds := hholds i
    unfold Owner.held at *
    dsimp only
    omega
  · intro i
    have hsame : (o.sched.modifyTask t g).tallyTasks (Task.sends i) =
        o.sched.tallyTasks (Task.sends i) :=
      Sched.tallyTasks_modifyTask_same fun task => by rw [Task.sends, hpark, Task.sends]
    have hsends := h.sends i
    unfold Owner.sending at *
    rw [hbegun]
    dsimp only
    omega
  · intro corr
    rw [howed]
    exact h.answered corr

omit [DecidableEq V] [Portable V] in
theorem QueuesOk.modifyTask {sched : Sched (Park V) V} (h : QueuesOk sched r c ch)
    {g : Task (Park V) V → Task (Park V) V}
    (hepoch : ∀ task, (g task).parkEpoch = task.parkEpoch)
    (hpark : ∀ task, (g task).park = task.park) : QueuesOk (sched.modifyTask t g) r c ch :=
  h.sched (Nat.le_of_eq Sched.parkSeq_modifyTask.symm) fun _ _ _ _ _ hs =>
    hs.modifyTask hepoch hpark

/-- A change of one task that stays where it is suspended. -/
theorem OwnerOk.modifyTask (h : OwnerOk o r l) (htask : o.sched.task? t = some task)
    {g : Task (Park V) V → Task (Park V) V}
    (hepoch : ∀ task, (g task).parkEpoch = task.parkEpoch)
    (hpark : ∀ task, (g task).park = task.park)
    (hok : TaskOk o.ledger.accepted o.sched.parkSeq o.chans.length (g task))
    (hholds : ∀ i, (g task).holds i + tally (here i) l'.hand =
      task.holds i + tally (here i) l.hand)
    (howed : l'.owed = l.owed) (hbegun : l'.begun = l.begun) :
    OwnerOk { o with sched := o.sched.modifyTask t g } r l' := by
  refine ⟨?_, fun c ch hch => (h.queues c ch hch).modifyTask hepoch hpark, h.frames,
    h.books.modifyTask htask hpark hholds howed hbegun, h.ledger, h.relayed⟩
  intro u task' htask'
  dsimp only
  rw [Sched.parkSeq_modifyTask]
  obtain ⟨old, hold, ⟨rfl, -⟩ | ⟨rfl, rfl⟩⟩ := Sched.of_task?_modifyTask htask'
  · exact h.tasks u _ hold
  · rw [htask, Option.some.injEq] at hold
    exact hold ▸ hok

/-- A parked task is woken with anything but the acceptance of its value. -/
theorem OwnerOk.wake (h : OwnerOk o r l) (htask : o.sched.task? t = some task)
    (hon : task.parkedOnChannel = true) {w : Wake V}
    (hhand : ∀ i, w.holds i + tally (here i) l'.hand = tally (here i) l.hand)
    (howed : l'.owed = l.owed) (hbegun : l'.begun = l.begun)
    (hrecv : ∀ i, w = .channelRecv i → task.park = some (.recv i.chan))
    (htaken : Owner.taken (some w) = false) : OwnerOk (o.wakeChannelTask t w) r l' := by
  have hok := h.tasks t task htask
  have hnone := hok.asleep hon
  refine h.modifyTask htask (fun _ => rfl) (fun _ => rfl) ?_ ?_ howed hbegun
  · refine ⟨hok.epoch, ?_, (fun hfalse => by cases hfalse), ?_, hok.receiver, ?_⟩
    · intro hidle
      rw [(hok.idle hidle).1] at hon
      cases hon
    · intro i hi
      exact hrecv i (Option.some.inj hi)
    · intro c i hsend
      obtain ⟨hchan, hside, hiff⟩ := hok.sender c i hsend
      refine ⟨hchan, hside, ?_⟩
      rw [hnone] at hiff
      rw [htaken]
      exact hiff
  · intro i
    have hhand := hhand i
    unfold Task.holds
    rw [hnone]
    dsimp only [Option.elim_some, Option.elim_none]
    omega

/-! ## The ledger -/

omit [DecidableEq V] in
theorem FramesOk.accept {out : List (ChanFrame V)} {accepted : List (Item V)}
    (h : FramesOk out accepted r) : FramesOk out (v :: accepted) r := by
  refine ⟨h.value, ?_⟩
  intro corr hin
  obtain ⟨i, hi, hat⟩ := h.ack corr hin
  exact ⟨i, List.mem_cons_of_mem v hi, hat⟩

omit [Portable V] in
theorem Books.accept (h : Books o r l)
    (huntaken : tally (here v) o.ledger.accepted + o.offered v + r.offering v <
      tally (here v) o.ledger.issued + tally (here v) r.ledger.issued) :
    Books (o.accept v) r { l with hand := v :: l.hand } := by
  refine ⟨?_, ?_, h.once, h.sends, h.answered⟩
  · intro i
    have hcons := h.conserved i
    have hheld : (o.accept v).held i = o.held i := rfl
    show _ = tally (here i) (v :: o.ledger.accepted)
    dsimp only
    rw [hheld, tally_cons, tally_cons]
    omega
  · intro i
    have hle := h.untaken i
    have hissued : (o.accept v).ledger.issued = o.ledger.issued := rfl
    show tally (here i) (v :: o.ledger.accepted) + o.offered i + r.offering i ≤ _
    rw [tally_cons, hissued]
    by_cases hiv : v = i
    · subst hiv
      rw [here_self]
      omega
    · rw [here, if_neg hiv]
      omega

omit [Portable V] in
theorem LedgerOk.accept (h : LedgerOk o.ledger) (hsettled : o.ledger.settled v = 0) :
    LedgerOk (o.accept v).ledger := by
  refine ⟨h.issued, ?_, h.received⟩
  intro i outcome hin
  refine (h.done i outcome hin).trans ⟨List.mem_cons_of_mem v, ?_⟩
  intro hi
  rcases List.mem_cons.mp hi with rfl | hi
  · have hle : here i i ≤ o.ledger.settled i := le_tally (f := fun entry => here i entry.1) hin
    rw [here_self] at hle
    omega
  · exact hi

/-- A value of a send under way is accepted, and is in hand. -/
theorem OwnerOk.accept (h : OwnerOk o r l)
    (huntaken : tally (here v) o.ledger.accepted + o.offered v + r.offering v <
      tally (here v) o.ledger.issued + tally (here v) r.ledger.issued)
    (hsending : o.sending v = 0) (hsettled : o.ledger.settled v = 0) :
    OwnerOk (o.accept v) r { l with hand := v :: l.hand } := by
  refine ⟨?_, h.queues, h.frames.accept, h.books.accept huntaken, h.ledger.accept hsettled,
    h.relayed⟩
  intro t task htask
  have hok := h.tasks t task htask
  refine ⟨hok.epoch, hok.idle, hok.asleep, hok.handed, hok.receiver, ?_⟩
  intro c i hsend
  obtain ⟨hchan, hside, hiff⟩ := hok.sender c i hsend
  refine ⟨hchan, hside, hiff.trans ⟨List.mem_cons_of_mem v, ?_⟩⟩
  intro hin
  rcases List.mem_cons.mp hin with rfl | hin
  · have hle : task.sends i ≤ o.sending i := Sched.le_tallyTasks (f := Task.sends i) htask
    rw [Task.sends, hsend, Option.elim_some, Park.sends, here_self] at hle
    omega
  · exact hin

theorem OwnerOk.receive (h : OwnerOk o r l) (hchan : v.chan = c) (hhand : l.hand = v :: l'.hand)
    (howed : l'.owed = l.owed) (hbegun : l'.begun = l.begun) : OwnerOk (o.receive c v) r l' := by
  refine ⟨h.tasks, h.queues, h.frames, ⟨?_, h.books.untaken, h.books.once, ?_, ?_⟩,
    ⟨h.ledger.issued, h.ledger.done, ?_⟩, h.relayed⟩
  · intro i
    have hcons := h.books.conserved i
    rw [hhand, tally_cons] at hcons
    unfold Owner.held Ledger.returned Owner.receive at *
    dsimp only at *
    rw [tally_cons]
    dsimp only
    omega
  · intro i
    rw [hbegun]
    exact h.books.sends i
  · intro corr
    rw [howed]
    exact h.books.answered corr
  · intro c' i hin
    rcases List.mem_cons.mp hin with heq | hin
    · obtain ⟨rfl, rfl⟩ := Prod.mk.inj heq
      exact hchan
    · exact h.ledger.received c' i hin

theorem OwnerOk.sendDone (h : OwnerOk o r l) {outcome : Outcome}
    (htook : outcome.took = true ↔ v ∈ o.ledger.accepted) (hbegun : l.begun = v :: l'.begun)
    (hhand : l'.hand = l.hand) (howed : l'.owed = l.owed) :
    OwnerOk (o.sendDone v outcome) r l' := by
  refine ⟨h.tasks, h.queues, h.frames, ⟨?_, h.books.untaken, h.books.once, ?_, ?_⟩,
    ⟨h.ledger.issued, ?_, h.ledger.received⟩, h.relayed⟩
  · intro i
    rw [hhand]
    exact h.books.conserved i
  · intro i
    have hsends := h.books.sends i
    rw [hbegun, tally_cons] at hsends
    unfold Owner.sending Ledger.settled Owner.sendDone at *
    dsimp only at *
    rw [tally_cons]
    dsimp only
    omega
  · intro corr
    rw [howed]
    exact h.books.answered corr
  · intro i outcome' hin
    rcases List.mem_cons.mp hin with heq | hin
    · obtain ⟨rfl, rfl⟩ := Prod.mk.inj heq
      exact htook
    · exact h.ledger.done i outcome' hin

end Quoin.Channel
