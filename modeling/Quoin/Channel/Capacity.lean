import Quoin.Channel.Order

/-!
# Quoin — the capacity of a channel

A channel completes a send when it takes the value: it hands it to a receiver,
or it puts it into its buffer, which should then hold fewer values than its
capacity (`System.Lawful`). A value that is put back may fill the buffer beyond
its capacity, and a receive that finds it so still moves a parked sender's value
in. `System.Fits` is the condition under which the law holds of a step; it
excludes that, and a value that is turned away at the link into a full buffer.

## Results

* `capacity_law` — in runs whose steps all fit, every step keeps the capacity law;
* `overfull_not_lawful` — a value that is put back into a full buffer lets a sender in above the
  capacity.
-/

namespace Quoin.Channel

open Trans

variable {V : Type}

/-! ## What a step completes and hands over -/

/-- What was added to a log that grows at its head. -/
def grown {α : Type} (before after : List α) : List α := after.take (after.length - before.length)

theorem grown_self {α : Type} (log : List α) : grown log log = [] := by
  rw [grown, Nat.sub_self, List.take_zero]

theorem grown_cons {α : Type} (x : α) (log : List α) : grown log (x :: log) = [x] := by
  rw [grown, List.length_cons, Nat.add_sub_cancel_left]
  rfl

def Wake.value? : Wake V → Option (Item V)
  | .channelRecv v => some v
  | _ => none

def ChanFrame.value? : ChanFrame V → Option (Item V)
  | .value _ v => some v
  | _ => none

namespace Owner

def bufferOf (o : Owner V) (c : ChanId) : List (Item V) :=
  ((o.chans[c]?).map NativeChannelState.buffer).getD []

def capOf (o : Owner V) (c : ChanId) : Nat := ((o.chans[c]?).map NativeChannelState.cap).getD 0

/-- The values of the sends that complete between two states. -/
def completed (o o' : Owner V) : List (Item V) := grown o.ledger.accepted o'.ledger.accepted

/-- The value a task that was parked is woken with. -/
def wokenWith (o o' : Owner V) (t : TaskId) : Option (Item V) :=
  if (o.sched.task? t).any Task.parkedOnChannel then
    ((o'.sched.task? t).bind Task.wake).bind Wake.value?
  else none

/-- The values that reach a receiver between two states: a receive returns them, a parked receiver
is woken with them, or they leave in a frame to a remote one. -/
def handed (o o' : Owner V) : List (Item V) :=
  (grown o.ledger.received o'.ledger.received).map Prod.snd ++
    (List.range o.sched.tasks.length).filterMap (o.wokenWith o') ++
    (o'.out.drop o.out.length).filterMap ChanFrame.value?

/-- The first receiver of the channel that still waits. -/
def firstRecv (o : Owner V) (c : ChanId) : Option RecvWaiter :=
  (o.chans[c]?).bind fun ch => (popLive o.recvLive ch.recvWaiters).1

/-- The first sender of the channel that still waits. -/
def firstSend (o : Owner V) (c : ChanId) : Option (SendWaiter V) :=
  (o.chans[c]?).bind fun ch => (popLive o.sendLive ch.sendWaiters).1

variable [Portable V]

/-- A value for a remote receiver can cross, or else the buffer has room for it. -/
def Lands (o : Owner V) (c : ChanId) (v : Item V) : RecvWaiter → Prop
  | .localTask _ _ => True
  | .remoteOp _ => Portable.crossError v.value = none ∨ o.hasRoom c = true

def SendFits (o : Owner V) (c : ChanId) (v : Item V) : Prop := ∀ w ∈ o.firstRecv c, o.Lands c v w

/-- A receive by `me`: if it takes a buffered value while a sender is parked, the buffer is not
beyond its capacity. -/
def RecvFits (o : Owner V) (c : ChanId) (me : RecvWaiter) : Prop :=
  ∀ w ∈ o.firstSend c,
    if o.bufferOf c = [] then o.Lands c w.value me else (o.bufferOf c).length ≤ o.capOf c

end Owner

namespace System

/-- The channel a step receives on. -/
def receivesOn (s : System V) : Action V → Option ChanId
  | .owner (.recv _ c) => some c
  | .ownerAgent =>
    match s.remote.out with
    | .recv id _ :: _ => s.owner.hosted id
    | _ => none
  | _ => none

/-- How many values the buffer holds when the step puts another one in: a receive has taken one
out before. -/
def held (s : System V) (a : Action V) (c : ChanId) : Nat :=
  if s.receivesOn a = some c then (s.owner.bufferOf c).length - 1 else (s.owner.bufferOf c).length

variable [Portable V]

/-- **The capacity law.** Every send that the step completes is matched with a receiver, or its
value went into a buffer that held fewer values than its capacity. -/
def Lawful (s : System V) (a : Action V) : Prop :=
  ∀ s' ∈ s.step a, ∀ v ∈ s.owner.completed s'.owner, v ∈ s.owner.handed s'.owner ∨
    ∃ c < s.owner.chans.length, v ∈ s'.owner.bufferOf c ∧ s.held a c < s.owner.capOf c

/-- The step finds no buffer beyond its capacity that it would put a value into. A send of the owner
on a shipped channel is not asked: it raises if its value cannot cross. -/
def Fits (s : System V) : Action V → Prop
  | .owner (.send _ c v) =>
    s.owner.shipOf c = none → s.owner.SendFits c (s.owner.newItem c v)
  | .owner (.recv t c) => s.owner.RecvFits c (.localTask t 0)
  | .ownerAgent =>
    match s.remote.out with
    | .send id _ v :: _ => ∀ c ∈ s.owner.hosted id, s.owner.SendFits c v
    | .recv id corr :: _ => ∀ c ∈ s.owner.hosted id, s.owner.RecvFits c (.remoteOp corr)
    | _ => True
  | _ => True

end System

section Decidable

variable [Portable V]

instance (o : Owner V) (c : ChanId) (v : Item V) (w : RecvWaiter) : Decidable (o.Lands c v w) := by
  unfold Owner.Lands
  split <;> infer_instance

instance (o : Owner V) (c : ChanId) (v : Item V) : Decidable (o.SendFits c v) := by
  unfold Owner.SendFits
  infer_instance

instance (o : Owner V) (c : ChanId) (me : RecvWaiter) : Decidable (o.RecvFits c me) := by
  unfold Owner.RecvFits
  infer_instance

/-- The first frame out of the worker lands as `Fits` asks of it. -/
def Owner.FrameFits (o : Owner V) : ChanFrame V → Prop
  | .send id _ v => ∀ c ∈ o.hosted id, o.SendFits c v
  | .recv id corr => ∀ c ∈ o.hosted id, o.RecvFits c (.remoteOp corr)
  | _ => True

theorem fits_ownerAgent_iff (s : System V) :
    s.Fits .ownerAgent ↔ ∀ frame ∈ s.remote.out.head?, s.owner.FrameFits frame := by
  unfold System.Fits
  cases s.remote.out with
  | nil => simp
  | cons frame rest => cases frame <;> simp [Owner.FrameFits]

instance (o : Owner V) (frame : ChanFrame V) : Decidable (o.FrameFits frame) := by
  cases frame with
  | send id corr v => exact inferInstanceAs (Decidable (∀ c ∈ o.hosted id, o.SendFits c v))
  | recv id corr =>
    exact inferInstanceAs (Decidable (∀ c ∈ o.hosted id, o.RecvFits c (.remoteOp corr)))
  | _ => exact inferInstanceAs (Decidable True)

/-- What a step of the owner sends, and on which channel. -/
def System.sent? : System.Action V → Option (ChanId × V)
  | .owner (.send _ c v) => some (c, v)
  | _ => none

/-- Which task of the owner a step receives for, and on which channel. -/
def System.received? : System.Action V → Option (TaskId × ChanId)
  | .owner (.recv t c) => some (t, c)
  | _ => none

def System.isOwnerAgent : System.Action V → Bool
  | .ownerAgent => true
  | _ => false

theorem fits_iff (s : System V) (a : System.Action V) : s.Fits a ↔
    (∀ p ∈ System.sent? a,
      s.owner.shipOf p.1 = none → s.owner.SendFits p.1 (s.owner.newItem p.1 p.2)) ∧
    (∀ p ∈ System.received? a, s.owner.RecvFits p.2 (.localTask p.1 0)) ∧
    (System.isOwnerAgent a = true → ∀ frame ∈ s.remote.out.head?, s.owner.FrameFits frame) := by
  cases a with
  | owner a => cases a <;> simp [System.Fits, System.sent?, System.received?, System.isOwnerAgent]
  | ownerAgent =>
    simpa [System.sent?, System.received?, System.isOwnerAgent] using fits_ownerAgent_iff s
  | _ => simp [System.Fits, System.sent?, System.received?, System.isOwnerAgent]

instance (s : System V) (a : System.Action V) : Decidable (s.Fits a) :=
  decidable_of_iff _ (fits_iff s a).symm

instance (s : System V) (a : System.Action V) [DecidableEq V] : Decidable (s.Lawful a) := by
  unfold System.Lawful
  infer_instance

end Decidable

/-! ## Single operations -/

variable {o o' o'' : Owner V} {c : ChanId} {ch : NativeChannelState V} {t me : TaskId} {v : Item V}
  {corr : Corr} {f : NativeChannelState V → NativeChannelState V}

theorem completed_of_same (h : o'.ledger.accepted = o.ledger.accepted) : o.completed o' = [] := by
  rw [Owner.completed, h, grown_self]

theorem completed_of_cons (h : o'.ledger.accepted = v :: o.ledger.accepted) :
    o.completed o' = [v] := by
  rw [Owner.completed, h, grown_cons]

theorem bufferOf_of_some (hch : o.chans[c]? = some ch) : o.bufferOf c = ch.buffer := by
  rw [Owner.bufferOf, hch]
  rfl

theorem capOf_of_some (hch : o.chans[c]? = some ch) : o.capOf c = ch.cap := by
  rw [Owner.capOf, hch]
  rfl

theorem mem_bufferOf_pushFront (hch : o.chans[c]? = some ch) : v ∈ (o.pushFront c v).bufferOf c := by
  rw [Owner.pushFront, bufferOf_of_some (getElem?_withChan hch)]
  exact List.mem_cons_self

theorem mem_bufferOf_pushFront_of_mem {u : Item V} (hin : v ∈ o.bufferOf c) :
    v ∈ (o.pushFront c u).bufferOf c := by
  cases hch : o.chans[c]? with
  | none =>
    rw [Owner.bufferOf, hch] at hin
    cases hin
  | some ch =>
    rw [Owner.pushFront, bufferOf_of_some (getElem?_withChan hch), ← bufferOf_of_some hch]
    exact List.mem_cons_of_mem _ hin

theorem mem_bufferOf_promoted {w : SendWaiter V} {left : List (SendWaiter V)}
    (hch : o.chans[c]? = some ch) :
    w.value ∈ ((o.withChan c fun ch =>
      { ch with buffer := ch.buffer.tail ++ [w.value], sendWaiters := left }).completeSend w).bufferOf c := by
  rw [Owner.bufferOf, chans_completeSend, getElem?_withChan hch]
  simp

theorem lt_of_lt_capOf {n : Nat} (h : n < o.capOf c) : c < o.chans.length := by
  rw [Owner.capOf] at h
  cases hch : o.chans[c]? with
  | none =>
    rw [hch] at h
    cases h
  | some ch => exact (List.getElem?_eq_some_iff.mp hch).1

theorem hasRoom_of_some (hch : o.chans[c]? = some ch) :
    o.hasRoom c = true ↔ ch.buffer.length < ch.cap := by
  rw [Owner.hasRoom, hch, Option.any_some, decide_eq_true_eq]

theorem firstRecv_of_some (hch : o.chans[c]? = some ch) :
    o.firstRecv c = (popLive o.recvLive ch.recvWaiters).1 := by
  rw [Owner.firstRecv, hch, Option.bind_some]

theorem firstSend_of_some (hch : o.chans[c]? = some ch) :
    o.firstSend c = (popLive o.sendLive ch.sendWaiters).1 := by
  rw [Owner.firstSend, hch, Option.bind_some]

theorem handed_of_received (h : o'.ledger.received = (c, v) :: o.ledger.received) :
    v ∈ o.handed o' := by
  rw [Owner.handed, h, grown_cons]
  exact List.mem_append_left _ (List.mem_append_left _ List.mem_cons_self)

theorem handed_of_wake {task task' : Task (Park V) V} (htask : o.sched.task? t = some task)
    (hparked : task.parkedOnChannel = true) (htask' : o'.sched.task? t = some task')
    (hwake : task'.wake = some (.channelRecv v)) : v ∈ o.handed o' := by
  refine List.mem_append_left _ (List.mem_append_right _ (List.mem_filterMap.mpr ⟨t, ?_, ?_⟩))
  · rw [List.mem_range]
    obtain ⟨hlt, -⟩ := List.getElem?_eq_some_iff.mp (Sched.task?_eq_some.mp htask)
    exact hlt
  · rw [Owner.wokenWith, htask, Option.any_some, if_pos hparked, htask', Option.bind_some, hwake]
    rfl

theorem handed_of_frame {frames : List (ChanFrame V)} (hout : o'.out = o.out ++ frames)
    (hin : .value corr v ∈ frames) : v ∈ o.handed o' := by
  refine List.mem_append_right _ (List.mem_filterMap.mpr ⟨.value corr v, ?_, rfl⟩)
  rw [hout, List.drop_left]
  exact hin

theorem handed_chanEmit {frame : ChanFrame V} (h : v ∈ o.handed o') : v ∈ o.handed (o'.chanEmit frame) := by
  refine (List.mem_append.mp h).elim (fun h => List.mem_append_left _ h) fun h => ?_
  refine List.mem_append_right _ ?_
  rw [Owner.chanEmit, List.drop_append, List.filterMap_append]
  exact List.mem_append_left _ h

theorem accepted_channelClose : (o.channelClose c).ledger.accepted = o.ledger.accepted := by
  unfold Owner.channelClose
  split
  · rfl
  · exact congrArg Ledger.accepted (foldl_wakeClosed_same _).2

/-- Every send completed between two states is matched, or went into a buffer that held `n` values,
fewer than its capacity. -/
def Owner.Lawful (o o' : Owner V) (c : ChanId) (n : Nat) : Prop :=
  ∀ v ∈ o.completed o', v ∈ o.handed o' ∨ v ∈ o'.bufferOf c ∧ n < o.capOf c

theorem lawful_of_same {n : Nat} (h : o'.ledger.accepted = o.ledger.accepted) : o.Lawful o' c n := by
  intro v hin
  rw [completed_of_same h] at hin
  cases hin

theorem lawful_of_cons {n : Nat} (h : o'.ledger.accepted = v :: o.ledger.accepted)
    (hv : v ∈ o.handed o' ∨ v ∈ o'.bufferOf c ∧ n < o.capOf c) : o.Lawful o' c n := by
  intro v' hin
  rw [completed_of_cons h, List.mem_singleton] at hin
  exact hin ▸ hv

variable [Portable V]

theorem accepted_deliverToRecv {w : RecvWaiter} :
    (o.deliverToRecv c w v).ledger.accepted = o.ledger.accepted := by
  unfold Owner.deliverToRecv
  split
  · rfl
  · split <;> rfl

theorem accepted_channelRedeliver :
    (o.channelRedeliver c v).ledger.accepted = o.ledger.accepted := by
  have hpop : (o.popLiveRecv c).2.ledger = o.ledger := by
    unfold Owner.popLiveRecv
    split <;> rfl
  unfold Owner.channelRedeliver
  split
  · next popped mid heq =>
    rw [heq] at hpop
    rw [accepted_deliverToRecv, hpop]
  · next mid heq =>
    rw [heq] at hpop
    exact congrArg Ledger.accepted hpop

theorem accepted_redeliverWake {wake : Option (Wake V)} :
    (o.redeliverWake c wake).ledger.accepted = o.ledger.accepted := by
  unfold Owner.redeliverWake
  split
  · exact accepted_channelRedeliver
  · rfl

/-- An operation that is resumed has its value taken or not: that was settled before. -/
theorem accepted_resumePark {p : Park V} {wake : Option (Wake V)} {cancelled : Bool} :
    (o.resumePark t p wake cancelled).ledger.accepted = o.ledger.accepted := by
  unfold Owner.resumePark
  split
  · split_ifs
    · exact accepted_redeliverWake
    · split <;> rfl
  · split_ifs
    · exact accepted_redeliverWake
    · split <;> rfl

/-- A value that lands with a receiver reaches it, or goes to the front of a buffer with room. -/
theorem deliverToRecv_lands {w : RecvWaiter} {ch' : NativeChannelState V} {frames : List (ChanFrame V)}
    (hch : o.chans[c]? = some ch) (hlive : o.recvLive w = true) (hlands : o.Lands c v w)
    (hout : o'.out = o.out ++ frames) (hch' : o'.chans[c]? = some ch')
    (hsched : ∀ t e, w = .localTask t e → o'.sched = o.sched) :
    v ∈ o.handed (o'.deliverToRecv c w v) ∨
      v ∈ (o'.deliverToRecv c w v).bufferOf c ∧ ch.buffer.length < ch.cap := by
  cases w with
  | localTask t e =>
    left
    obtain ⟨task, htask, hparked, -, -⟩ := Sched.channelWaiterLive_eq_true hlive
    have hwoken : (o'.sched.wakeChannelTask t (.channelRecv v)).task? t =
        some { task with parkedOnChannel := false, wake := some (.channelRecv v) } := by
      rw [Sched.wakeChannelTask, Sched.task?_modifyTask, if_pos rfl, hsched t e rfl, htask]
      rfl
    exact handed_of_wake htask hparked hwoken rfl
  | remoteOp corr =>
    cases hcross : Portable.crossError v.value with
    | none =>
      left
      simp only [Owner.deliverToRecv, hcross]
      have hlane : (o'.chanEmit (.value corr v)).out = o.out ++ (frames ++ [.value corr v]) := by
        rw [Owner.chanEmit, hout, List.append_assoc]
      exact handed_of_frame hlane (List.mem_append_right _ List.mem_cons_self)
    | some e =>
      right
      simp only [Owner.deliverToRecv, hcross]
      refine ⟨?_, ?_⟩
      · exact mem_bufferOf_pushFront hch'
      · obtain hnone | hroom := hlands
        · rw [hcross] at hnone
          cases hnone
        · exact (hasRoom_of_some hch).mp hroom

/-! ## Sending and receiving -/

/-- An offer that is taken. -/
theorem Offers.lawful (hch : o.chans[c]? = some ch) (h : Offers o c ch v true o')
    (hfits : o.SendFits c v) : o'.ledger.accepted = v :: o.ledger.accepted ∧
      (v ∈ o.handed o' ∨ v ∈ o'.bufferOf c ∧ (o.bufferOf c).length < o.capOf c) := by
  rw [bufferOf_of_some hch, capOf_of_some hch]
  cases h with
  | @delivered w left hpop =>
    have hfirst : w ∈ o.firstRecv c := by
      rw [firstRecv_of_some hch, hpop]
      exact rfl
    refine ⟨accepted_deliverToRecv, ?_⟩
    have hout : ((o.withChan c fun ch => { ch with recvWaiters := left }).accept v).out = o.out ++ [] :=
      (List.append_nil _).symm
    exact deliverToRecv_lands hch (popLive_some hpop).2 (hfits w hfirst) hout (getElem?_withChan hch)
      fun _ _ _ => rfl
  | buffered hpop hroom =>
    refine ⟨rfl, .inr ⟨?_, hroom⟩⟩
    have hch' : (o.withChan c fun ch =>
        { ch with recvWaiters := [], buffer := ch.buffer ++ [v] }).chans[c]? = _ :=
      getElem?_withChan hch
    show v ∈ Owner.bufferOf (o.withChan c fun ch =>
        { ch with recvWaiters := [], buffer := ch.buffer ++ [v] }) c
    rw [bufferOf_of_some hch']
    simp

theorem channelSend_lawful (hfits : o.shipOf c = none → o.SendFits c v) :
    o.Lawful (o.channelSend me c v) c (o.bufferOf c).length := by
  unfold Owner.channelSend
  cases hch : o.chans[c]? with
  | none => exact lawful_of_same rfl
  | some ch =>
    simp only
    by_cases hclosed : ch.closed = true
    · rw [if_pos hclosed]
      exact lawful_of_same rfl
    rw [if_neg hclosed]
    split
    · exact lawful_of_same rfl
    · next hcross =>
      -- a shipped channel's values cross, so they land anywhere
      have hfits' : o.SendFits c v := by
        cases hship : ch.ship with
        | none => exact hfits (by rw [Owner.shipOf, hch, Option.bind_some, hship])
        | some ship =>
          rw [hship, Option.isSome_some, if_pos rfl] at hcross
          intro w _
          cases w with
          | localTask t e => trivial
          | remoteOp corr => exact .inl hcross
      rcases hoffer : o.offer c v with ⟨took, o'⟩
      have hoffers := offers hch hoffer
      cases took with
      | true =>
        obtain ⟨haccepted, hv⟩ := hoffers.lawful hch hfits'
        exact lawful_of_cons haccepted hv
      | false =>
        cases hoffers with
        | refused hpop hroom => exact lawful_of_same rfl

theorem applySend_lawful (hfits : o.SendFits c v) :
    o.Lawful (o.applySend c corr v) c (o.bufferOf c).length := by
  unfold Owner.applySend
  split_ifs with hclosed
  · exact lawful_of_same rfl
  · cases hch : o.chans[c]? with
    | none =>
      rw [hch] at hclosed
      exact absurd rfl hclosed
    | some ch =>
      rcases hoffer : o.offer c v with ⟨took, o'⟩
      have hoffers := offers hch hoffer
      cases took with
      | true =>
        obtain ⟨haccepted, hv⟩ := hoffers.lawful hch hfits
        refine lawful_of_cons (v := v) haccepted (hv.imp handed_chanEmit fun hbuffer => hbuffer)
      | false =>
        cases hoffers with
        | refused hpop hroom => exact lawful_of_same rfl

/-- A buffer from which a receive takes a value has room for that of a parked sender. -/
theorem Owner.RecvFits.room {w : SendWaiter V} {left : List (SendWaiter V)} {head : Item V}
    {rest : List (Item V)} {w' : RecvWaiter} (hfits : o.RecvFits c w') (hch : o.chans[c]? = some ch)
    (hbuffer : ch.buffer = head :: rest)
    (hpop : popLive o.sendLive ch.sendWaiters = (some w, left)) :
    (o.bufferOf c).length - 1 < o.capOf c := by
  have hfirst : w ∈ o.firstSend c := by
    rw [firstSend_of_some hch, hpop]
    exact rfl
  have hle := hfits w hfirst
  rw [bufferOf_of_some hch, capOf_of_some hch, hbuffer, if_neg (List.cons_ne_nil _ _),
    List.length_cons] at hle
  rw [bufferOf_of_some hch, capOf_of_some hch, hbuffer, List.length_cons]
  omega

theorem mem_bufferOf_deliverToRecv {w : RecvWaiter} {u : Item V} (hin : v ∈ o.bufferOf c) :
    v ∈ (o.deliverToRecv c w u).bufferOf c := by
  unfold Owner.deliverToRecv
  split
  · exact hin
  · split
    · exact hin
    · exact mem_bufferOf_pushFront_of_mem hin

theorem channelRecv_lawful {w' : RecvWaiter} (hfits : o.RecvFits c w') :
    o.Lawful (o.channelRecv me c) c ((o.bufferOf c).length - 1) := by
  unfold Owner.channelRecv
  cases hch : o.chans[c]? with
  | none =>
    have htake : o.takeValue c = (none, o) := by
      unfold Owner.takeValue Owner.popLiveSend
      rw [hch]
      rfl
    rw [htake]
    simp only [hch, Option.all_none, if_true]
    exact lawful_of_same rfl
  | some ch =>
    rcases htake : o.takeValue c with ⟨found, o'⟩
    have htakes := takes hch htake
    cases htakes with
    | promoted hbuffer hpop =>
      exact lawful_of_cons accepted_completeSend
        (.inr ⟨mem_bufferOf_promoted hch, hfits.room hch hbuffer hpop⟩)
    | buffered hbuffer hpop => exact lawful_of_same rfl
    | @handed w left hbuffer hpop =>
      refine lawful_of_cons accepted_completeSend (.inl (handed_of_received (c := c) ?_))
      cases w <;> rfl
    | nothing hbuffer hpop =>
      simp only
      split_ifs <;> exact lawful_of_same rfl

theorem applyRecv_lawful (hfits : o.RecvFits c (.remoteOp corr)) :
    o.Lawful (o.applyRecv c corr) c ((o.bufferOf c).length - 1) := by
  unfold Owner.applyRecv
  cases hch : o.chans[c]? with
  -- no such channel: nothing is taken
  | none =>
    have htake : o.takeValue c = (none, o) := by
      unfold Owner.takeValue Owner.popLiveSend
      rw [hch]
      rfl
    rw [htake]
    simp only [hch, Option.all_none, if_true]
    exact lawful_of_same rfl
  | some ch =>
    rcases htake : o.takeValue c with ⟨found, o'⟩
    -- by what the receiver takes
    have htakes := takes hch htake
    cases htakes with
    -- the head of the buffer, and a parked send takes its place there
    | @promoted head rest w left hbuffer hpop =>
      refine lawful_of_cons (v := w.value) ?_ (.inr ⟨?_, hfits.room hch hbuffer hpop⟩)
      · exact accepted_deliverToRecv.trans accepted_completeSend
      · exact mem_bufferOf_deliverToRecv (mem_bufferOf_promoted hch)
    -- the head of the buffer, and no send waits
    | buffered hbuffer hpop => exact lawful_of_same accepted_deliverToRecv
    | @handed w left hbuffer hpop =>
      -- straight from a parked send
      have hfirst : w ∈ o.firstSend c := by
        rw [firstSend_of_some hch, hpop]
        exact rfl
      have hlands := hfits w hfirst
      rw [bufferOf_of_some hch, if_pos hbuffer] at hlands
      have hout : ∃ frames, ((o.withChan c fun ch => { ch with sendWaiters := left }).completeSend w).out =
          o.out ++ frames := by
        cases w with
        | localTask t e v => exact ⟨[], (List.append_nil _).symm⟩
        | remoteOp corr v => exact ⟨[.ack corr], rfl⟩
      obtain ⟨frames, hout⟩ := hout
      have hch' : ((o.withChan c fun ch => { ch with sendWaiters := left }).completeSend w).chans[c]? =
          some { ch with sendWaiters := left } := by
        rw [chans_completeSend, getElem?_withChan hch]
      refine lawful_of_cons (v := w.value) (accepted_deliverToRecv.trans accepted_completeSend) ?_
      refine (deliverToRecv_lands hch rfl hlands hout hch' (fun t e heq => by cases heq)).imp_right ?_
      rintro ⟨hin, hroom⟩
      refine ⟨hin, ?_⟩
      rw [bufferOf_of_some hch, capOf_of_some hch]
      exact Nat.lt_of_le_of_lt (Nat.sub_le _ 1) hroom
    | nothing hbuffer hpop =>
      simp only
      split_ifs <;> exact lawful_of_same rfl

/-! ## Runs -/

/-- **Step lemma.** A step that fits is lawful. -/
theorem System.Fits.lawful {s : System V} {a : System.Action V} (h : s.Fits a) : s.Lawful a := by
  intro s' hstep
  -- the law of one channel is that of the step if the step completes sends of that channel only
  have hlaw : ∀ {c n}, s.owner.Lawful s'.owner c n → s.held a c = n →
      ∀ v ∈ s.owner.completed s'.owner, v ∈ s.owner.handed s'.owner ∨
        ∃ c < s.owner.chans.length, v ∈ s'.owner.bufferOf c ∧ s.held a c < s.owner.capOf c := by
    rintro c n hlawful rfl v hin
    exact (hlawful v hin).imp_right fun hbuffer => ⟨c, lt_of_lt_capOf hbuffer.2, hbuffer⟩
  -- a step that accepts no value completes no send
  have hsame : s'.owner.ledger.accepted = s.owner.ledger.accepted → _ :=
    fun heq => hlaw (lawful_of_same (c := 0) heq) rfl
  cases a with
  | owner a =>
    obtain ⟨o', ho, rfl⟩ := Option.map_eq_some_iff.mp hstep
    cases a with
    | newChannel cap =>
      obtain rfl := Option.some.inj ho
      exact hsame rfl
    | spawn =>
      obtain rfl := Option.some.inj ho
      exact hsame rfl
    | complete t =>
      obtain ⟨task, -, rfl⟩ := Option.map_eq_some_iff.mp ho
      exact hsame rfl
    | load t =>
      replace ho : s.owner.load t = some o' := ho
      unfold Owner.load at ho
      split at ho
      · cases ho
      · split_ifs at ho
        split at ho
        · obtain rfl := Option.some.inj ho
          exact hsame rfl
        · obtain rfl := Option.some.inj ho
          exact hsame accepted_resumePark
    | cancel t =>
      obtain rfl := Option.some.inj ho
      exact hsame rfl
    | send me c v =>
      rw [Owner.step] at ho
      split_ifs at ho
      obtain rfl := Option.some.inj ho
      have hfits : (s.owner.issue (s.owner.newItem c v)).shipOf c = none →
          (s.owner.issue (s.owner.newItem c v)).SendFits c (s.owner.newItem c v) := h
      exact hlaw (channelSend_lawful hfits) (if_neg (Option.some_ne_none c).symm)
    | recv me c =>
      rw [Owner.step] at ho
      split_ifs at ho
      obtain rfl := Option.some.inj ho
      exact hlaw (channelRecv_lawful h) (if_pos rfl)
    | close me c =>
      obtain ⟨task, -, rfl⟩ := Option.map_eq_some_iff.mp ho
      exact hsame accepted_channelClose
  | remote a =>
    obtain ⟨r', -, rfl⟩ := Option.map_eq_some_iff.mp hstep
    exact hsame rfl
  | ship me c free =>
    replace hstep : s.step (.ship me c free) = some s' := hstep
    rw [System.step] at hstep
    split_ifs at hstep
    obtain rfl := Option.some.inj hstep
    refine hsame ?_
    show (s.owner.channelShip c free).2.ledger.accepted = _
    unfold Owner.channelShip
    split <;> rfl
  | arrive n =>
    obtain ⟨parts, -, rfl⟩ := Option.map_eq_some_iff.mp hstep
    exact hsame rfl
  | ownerAgent =>
    replace hstep : s.step .ownerAgent = some s' := hstep
    rw [System.step] at hstep
    split at hstep
    · cases hstep
    · next frame rest hout =>
      obtain rfl := Option.some.inj hstep
      rw [Fits, hout] at h
      -- of the frames only a `Recv` takes a value out of the buffer
      have hheld : ∀ {c}, s.receivesOn .ownerAgent ≠ some c →
          s.held .ownerAgent c = (s.owner.bufferOf c).length := fun hne => if_neg hne
      cases frame with
      | send id corr v =>
        have hnone : s.receivesOn .ownerAgent = none := by rw [receivesOn, hout]
        cases hhosted : s.owner.hosted id with
        | none =>
          refine hsame ?_
          simp only [Owner.applyFrame, hhosted]
          rfl
        | some c =>
          have happly : s.owner.applyFrame (.send id corr v) = s.owner.applySend c corr v := by
            simp only [Owner.applyFrame, hhosted]
          refine hlaw (c := c) ?_ (hheld (by rw [hnone]; exact (Option.some_ne_none c).symm))
          simp only [happly]
          exact applySend_lawful (h c hhosted)
      | recv id corr =>
        have hreceives : s.receivesOn .ownerAgent = s.owner.hosted id := by rw [receivesOn, hout]
        cases hhosted : s.owner.hosted id with
        | none =>
          refine hsame ?_
          simp only [Owner.applyFrame, hhosted]
          rfl
        | some c =>
          have happly : s.owner.applyFrame (.recv id corr) = s.owner.applyRecv c corr := by
            simp only [Owner.applyFrame, hhosted]
          refine hlaw (c := c) ?_ (if_pos (hreceives.trans hhosted))
          simp only [happly]
          exact applyRecv_lawful (h c hhosted)
      | close id =>
        refine hsame ?_
        show ((s.owner.hosted id).elim s.owner s.owner.channelClose).ledger.accepted = _
        cases s.owner.hosted id with
        | none => rfl
        | some c => exact accepted_channelClose
      | cancel id corr =>
        refine hsame ?_
        show ((s.owner.hosted id).elim s.owner (s.owner.retract · corr)).ledger.accepted = _
        cases s.owner.hosted id with
        | none => rfl
        | some c => rfl
      | release id =>
        refine hsame ?_
        show ((s.owner.hosted id).elim s.owner (s.owner.releaseOne · id)).ledger.accepted = _
        cases s.owner.hosted id with
        | none => rfl
        | some c =>
          show (s.owner.releaseOne c id).ledger.accepted = _
          unfold Owner.releaseOne
          split
          · rfl
          · split_ifs <;> rfl
      | ret id v =>
        refine hsame ?_
        show ((s.owner.hosted id).elim s.owner (s.owner.channelRedeliver · v)).ledger.accepted = _
        cases s.owner.hosted id with
        | none => rfl
        | some c => exact accepted_channelRedeliver
      | ack corr => exact hsame rfl
      | value corr v => exact hsame rfl
      | closedFor corr => exact hsame rfl
      | recvError corr message => exact hsame rfl
  | remoteAgent =>
    replace hstep : s.step .remoteAgent = some s' := hstep
    rw [System.step] at hstep
    split at hstep
    · cases hstep
    · obtain rfl := Option.some.inj hstep
      exact hsame rfl

/-- **Runs.** The capacity law holds of every step of a run whose steps fit. -/
theorem capacity_law (as : List (System.Action V)) (h : Steps System.step System.Fits {} as) :
    Steps System.step System.Lawful {} as :=
  Steps.mono_of_invariant (I := fun _ => True) (fun _ _ _ _ _ _ => trivial)
    (fun _ _ _ hfits => hfits.lawful) as trivial h

/-- A buffer of one is full, a second send parks, and a receive moves its value in; then a cancelled
receiver's value is put back, and a remote receive takes it. -/
theorem capacity_law_putBack : Steps System.step System.Lawful ({} : System Int)
    [.owner (.newChannel 1), .owner .spawn, .owner .spawn, .owner .spawn, .owner (.load 0),
      .owner (.load 1), .owner (.load 2), .owner (.send 0 0 5), .owner (.send 1 0 6),
      .owner (.recv 2 0), .owner (.load 1), .owner (.recv 0 0), .owner (.recv 2 0),
      .owner (.send 1 0 7), .owner (.cancel 2), .owner (.load 2), .ship 0 0 1, .arrive 0,
      .remote .spawn, .remote (.load 0), .remote (.recv 0 0), .ownerAgent] :=
  capacity_law _ (by decide +kernel)

/-- The receiver of a value is cancelled, and the value is put back into a channel without a buffer;
a second send parks. The next receive takes the value and completes that send, whose value nobody
has received. -/
def overfull : List (System.Action Int) :=
  [.owner (.newChannel 0), .owner .spawn, .owner .spawn, .owner .spawn, .owner (.load 0),
    .owner (.load 1), .owner (.load 2), .owner (.recv 0 0), .owner (.send 1 0 5), .owner (.cancel 0),
    .owner (.load 0), .owner (.send 1 0 6), .owner (.recv 2 0)]

/-- So a send completes whose value is in the buffer, in a channel of capacity 0. -/
theorem overfull_not_lawful :
    ¬ ∀ as, Steps System.step System.Lawful ({} : System Int) as := by
  intro hall
  have hnot : ¬ Steps System.step System.Lawful ({} : System Int) overfull := by
    decide +kernel
  exact hnot (hall overfull)

end Quoin.Channel
