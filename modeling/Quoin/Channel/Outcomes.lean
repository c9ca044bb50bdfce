import Quoin.Channel.Operations

/-!
# Quoin — what a hand-over comes to

The two ways a channel and its waiters meet, case by case: what an offered
value comes to (`Offers`), and what a receive finds (`Takes`). Each case names
the waiters the channel held and the state it leaves, so an invariant of the
queues is checked once per case.
-/

namespace Quoin.Channel

open Trans

variable {V : Type} {o o' : Owner V} {c : ChanId} {ch : NativeChannelState V} {v : Item V}
  {f g : NativeChannelState V → NativeChannelState V}

theorem withChan_withChan : (o.withChan c f).withChan c g = o.withChan c fun ch => g (f ch) := by
  unfold Owner.withChan
  rw [List.modify_modify_eq]
  rfl

/-- Nothing happens to a channel that does not exist. -/
theorem withChan_eq_self (hch : o.chans[c]? = none) : o.withChan c f = o := by
  unfold Owner.withChan
  rw [List.modify_eq_self (List.getElem?_eq_none_iff.mp hch)]

/-- What a receive finds at the channel `ch`. -/
inductive Takes (o : Owner V) (c : ChanId) (ch : NativeChannelState V) :
    Option (Item V) → Owner V → Prop
  /-- The head of the buffer, and a parked sender takes the freed slot. -/
  | promoted {head : Item V} {rest : List (Item V)} {w : SendWaiter V} {left : List (SendWaiter V)}
      (hbuffer : ch.buffer = head :: rest)
      (hpop : popLive o.sendLive ch.sendWaiters = (some w, left)) :
      Takes o c ch (some head) ((o.withChan c fun ch =>
        { ch with buffer := ch.buffer.tail ++ [w.value], sendWaiters := left }).completeSend w)
  /-- The head of the buffer, and nobody is parked. -/
  | buffered {head : Item V} {rest : List (Item V)} (hbuffer : ch.buffer = head :: rest)
      (hpop : popLive o.sendLive ch.sendWaiters = (none, [])) :
      Takes o c ch (some head) (o.withChan c fun ch =>
        { ch with buffer := ch.buffer.tail, sendWaiters := [] })
  /-- The value of a parked sender. -/
  | handed {w : SendWaiter V} {left : List (SendWaiter V)} (hbuffer : ch.buffer = [])
      (hpop : popLive o.sendLive ch.sendWaiters = (some w, left)) :
      Takes o c ch (some w.value)
        ((o.withChan c fun ch => { ch with sendWaiters := left }).completeSend w)
  | nothing (hbuffer : ch.buffer = [])
      (hpop : popLive o.sendLive ch.sendWaiters = (none, [])) :
      Takes o c ch none (o.withChan c fun ch => { ch with sendWaiters := [] })

theorem takes {found : Option (Item V)} (hch : o.chans[c]? = some ch)
    (htake : o.takeValue c = (found, o')) : Takes o c ch found o' := by
  unfold Owner.takeValue at htake
  rw [hch, Option.bind_some] at htake
  rcases hpop : popLive o.sendLive ch.sendWaiters with ⟨popped, left⟩
  have hdrained : popped = none → left = [] := by
    rintro rfl
    exact (popLive_none hpop).1
  -- by the buffer, and then by the live senders
  cases hbuffer : ch.buffer with
  | cons head rest =>
    rw [hbuffer, List.head?_cons] at htake
    dsimp only at htake
    rw [Owner.popLiveSend, getElem?_withChan hch] at htake
    dsimp only at htake
    rw [show (o.withChan c fun ch => { ch with buffer := ch.buffer.tail }).sendLive = o.sendLive from
      rfl, hpop] at htake
    cases popped with
    | some w =>
      obtain ⟨rfl, rfl⟩ := Prod.mk.inj htake
      rw [Owner.pushBack, withChan_withChan, withChan_withChan]
      exact .promoted hbuffer hpop
    -- no sender lives: the ghosts go
    | none =>
      obtain rfl := hdrained rfl
      obtain ⟨rfl, rfl⟩ := Prod.mk.inj htake
      rw [withChan_withChan]
      exact .buffered hbuffer hpop
  | nil =>
    rw [hbuffer, List.head?_nil] at htake
    dsimp only at htake
    rw [Owner.popLiveSend, hch] at htake
    dsimp only at htake
    rw [hpop] at htake
    cases popped with
    | some w =>
      obtain ⟨rfl, rfl⟩ := Prod.mk.inj htake
      exact .handed hbuffer hpop
    | none =>
      obtain rfl := hdrained rfl
      obtain ⟨rfl, rfl⟩ := Prod.mk.inj htake
      exact .nothing hbuffer hpop

variable [Portable V]

/-- What an offer of `v` comes to at the channel `ch`: the channel takes it (`true`) or not. -/
inductive Offers (o : Owner V) (c : ChanId) (ch : NativeChannelState V) (v : Item V) :
    Bool → Owner V → Prop
  /-- To a waiting receiver. -/
  | delivered {w : RecvWaiter} {left : List RecvWaiter}
      (hpop : popLive o.recvLive ch.recvWaiters = (some w, left)) :
      Offers o c ch v true (((o.withChan c fun ch =>
        { ch with recvWaiters := left }).accept v).deliverToRecv c w v)
  /-- Into the buffer. -/
  | buffered (hpop : popLive o.recvLive ch.recvWaiters = (none, []))
      (hroom : ch.buffer.length < ch.cap) :
      Offers o c ch v true ((o.withChan c fun ch =>
        { ch with recvWaiters := [], buffer := ch.buffer ++ [v] }).accept v)
  | refused (hpop : popLive o.recvLive ch.recvWaiters = (none, []))
      (hroom : ch.cap ≤ ch.buffer.length) :
      Offers o c ch v false (o.withChan c fun ch => { ch with recvWaiters := [] })

theorem offers {took : Bool} (hch : o.chans[c]? = some ch) (hoffer : o.offer c v = (took, o')) :
    Offers o c ch v took o' := by
  unfold Owner.offer at hoffer
  rcases hpop : popLive o.recvLive ch.recvWaiters with ⟨popped, left⟩
  rw [Owner.popLiveRecv, hch] at hoffer
  dsimp only at hoffer
  rw [hpop] at hoffer
  cases popped with
  | some w =>
    obtain ⟨rfl, rfl⟩ := Prod.mk.inj hoffer
    exact .delivered hpop
  | none =>
    obtain rfl : left = [] := (popLive_none hpop).1
    dsimp only at hoffer
    unfold Owner.hasRoom at hoffer
    rw [getElem?_withChan hch] at hoffer
    dsimp only [Option.any_some] at hoffer
    split at hoffer
    · rename_i hroom
      obtain ⟨rfl, rfl⟩ := Prod.mk.inj hoffer
      have hmerge : ((o.withChan c fun ch => { ch with recvWaiters := [] }).accept v).pushBack c v =
          (o.withChan c fun ch => { ch with recvWaiters := [], buffer := ch.buffer ++ [v] }).accept v := by
        have htwice := withChan_withChan (o := o) (c := c)
          (f := fun ch => { ch with recvWaiters := [] })
          (g := fun ch => { ch with buffer := ch.buffer ++ [v] })
        exact congrArg (Owner.accept · v) htwice
      rw [hmerge]
      exact .buffered hpop (by simpa using hroom)
    · rename_i hroom
      obtain ⟨rfl, rfl⟩ := Prod.mk.inj hoffer
      exact .refused hpop (by simpa using hroom)

/-- What putting `v` back comes to. -/
inductive Redelivers (o : Owner V) (c : ChanId) (ch : NativeChannelState V) (v : Item V) :
    Owner V → Prop
  | delivered {w : RecvWaiter} {left : List RecvWaiter}
      (hpop : popLive o.recvLive ch.recvWaiters = (some w, left)) :
      Redelivers o c ch v
        ((o.withChan c fun ch => { ch with recvWaiters := left }).deliverToRecv c w v)
  | fronted (hpop : popLive o.recvLive ch.recvWaiters = (none, [])) :
      Redelivers o c ch v (o.withChan c fun ch =>
        { ch with recvWaiters := [], buffer := v :: ch.buffer })

theorem redelivers (hch : o.chans[c]? = some ch) (hredeliver : o.channelRedeliver c v = o') :
    Redelivers o c ch v o' := by
  subst hredeliver
  unfold Owner.channelRedeliver
  rcases hpop : popLive o.recvLive ch.recvWaiters with ⟨popped, left⟩
  rw [Owner.popLiveRecv, hch]
  dsimp only
  rw [hpop]
  cases popped with
  | some w => exact .delivered hpop
  | none =>
    obtain rfl : left = [] := (popLive_none hpop).1
    dsimp only
    rw [Owner.pushFront, withChan_withChan]
    exact .fronted hpop

theorem channelRedeliver_none (hch : o.chans[c]? = none) : o.channelRedeliver c v = o := by
  unfold Owner.channelRedeliver
  rw [Owner.popLiveRecv, hch]
  exact withChan_eq_self hch

end Quoin.Channel
