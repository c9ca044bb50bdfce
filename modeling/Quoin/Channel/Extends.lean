import Quoin.Channel.Shipping

/-!
# Quoin — what the owner's operations leave alone

Sending, receiving, closing and resuming move values and waiters; none of them
touches the pin table or the reference counts, or takes back what was accepted.
`Extends o o'` says so of a state `o'` reached from `o`, one rule for each
operation.
-/

namespace Quoin.Channel

open Trans

variable {V : Type}

/-- Roots and references are as before, and what was accepted stays accepted. -/
structure Extends (o o' : Owner V) : Prop where
  hosted : o'.hosted = o.hosted
  ships : ∀ c, o'.shipOf c = o.shipOf c
  accepted : ∀ i ∈ o.ledger.accepted, i ∈ o'.ledger.accepted

namespace Extends

variable {o o' o'' : Owner V} {c : ChanId} {f : NativeChannelState V → NativeChannelState V}
  {t me : TaskId} {v : Item V} {corr : Corr}

theorem refl (o : Owner V) : Extends o o := ⟨rfl, fun _ => rfl, fun _ hi => hi⟩

/-- Roots, channels and accepted values are untouched. -/
theorem same (h : Extends o o') (hhosted : o''.hosted = o'.hosted) (hchans : o''.chans = o'.chans)
    (haccepted : o''.ledger.accepted = o'.ledger.accepted) : Extends o o'' := by
  refine ⟨hhosted.trans h.hosted, fun c => ?_, haccepted ▸ h.accepted⟩
  rw [Owner.shipOf, hchans]
  exact h.ships c

theorem withChan (h : Extends o o') (hf : ∀ ch, (f ch).ship = ch.ship) :
    Extends o (o'.withChan c f) := by
  refine ⟨h.hosted, fun c' => ?_, h.accepted⟩
  rw [← h.ships c']
  by_cases hc : c' = c
  · subst hc
    cases hch : o'.chans[c']? with
    | some ch => rw [Owner.shipOf, getElem?_withChan hch, Owner.shipOf, hch, Option.bind_some, hf,
        Option.bind_some]
    | none =>
      rw [Owner.shipOf, Owner.withChan, List.modify_eq_self (List.getElem?_eq_none_iff.mp hch)]
      rfl
  · rw [Owner.shipOf, getElem?_withChan_ne hc, Owner.shipOf]

theorem accept (h : Extends o o') : Extends o (o'.accept v) :=
  ⟨h.hosted, h.ships, fun i hi => List.mem_cons_of_mem _ (h.accepted i hi)⟩

theorem popLiveRecv (h : Extends o o') : Extends o (o'.popLiveRecv c).2 := by
  unfold Owner.popLiveRecv
  split
  · exact h
  · exact h.withChan fun _ => rfl

theorem popLiveSend (h : Extends o o') : Extends o (o'.popLiveSend c).2 := by
  unfold Owner.popLiveSend
  split
  · exact h
  · exact h.withChan fun _ => rfl

theorem completeSend (h : Extends o o') {w : SendWaiter V} : Extends o (o'.completeSend w) := by
  cases w <;> exact h.accept.same rfl rfl rfl

theorem takeValue (h : Extends o o') : Extends o (o'.takeValue c).2 := by
  unfold Owner.takeValue
  split
  · have htail : Extends o (o'.withChan c fun ch => { ch with buffer := ch.buffer.tail }) :=
      h.withChan fun _ => rfl
    have hpop := htail.popLiveSend (c := c)
    dsimp only
    split
    · rename_i popped mid heq
      rw [heq] at hpop
      refine completeSend (withChan hpop ?_)
      exact fun _ => rfl
    · rename_i mid heq
      rw [heq] at hpop
      exact hpop
  · have hpop := h.popLiveSend (c := c)
    split
    · rename_i popped mid heq
      rw [heq] at hpop
      exact hpop.completeSend
    · rename_i mid heq
      rw [heq] at hpop
      exact hpop

theorem wakeClosed (h : Extends o o') {w : RecvWaiter} : Extends o (o'.wakeClosed w) := by
  unfold Owner.wakeClosed
  split
  · split
    · exact h.same rfl rfl rfl
    · exact h
  · exact h.same rfl rfl rfl

theorem foldl_wakeClosed (h : Extends o o') {ws : List RecvWaiter} :
    Extends o (ws.foldl Owner.wakeClosed o') := by
  induction ws generalizing o' with
  | nil => exact h
  | cons w rest ih => exact ih h.wakeClosed

theorem channelClose (h : Extends o o') : Extends o (o'.channelClose c) := by
  unfold Owner.channelClose
  split
  · exact h
  · refine foldl_wakeClosed (withChan h ?_)
    exact fun _ => rfl

theorem park (h : Extends o o') {p : Park V} : Extends o (o'.park me p) := h.same rfl rfl rfl

theorem channelRecv (h : Extends o o') : Extends o (o'.channelRecv me c) := by
  have htake := h.takeValue (c := c)
  unfold Owner.channelRecv
  split
  · rename_i v mid heq
    rw [heq] at htake
    exact htake.same rfl rfl rfl
  · rename_i mid heq
    rw [heq] at htake
    split
    · exact htake
    · refine park (withChan htake ?_)
      exact fun _ => rfl

variable [Portable V]

theorem deliverToRecv (h : Extends o o') {w : RecvWaiter} :
    Extends o (o'.deliverToRecv c w v) := by
  unfold Owner.deliverToRecv
  split
  · exact h.same rfl rfl rfl
  · split
    · exact h.same rfl rfl rfl
    · refine withChan ?_ fun _ => rfl
      exact h.same rfl rfl rfl

theorem channelRedeliver (h : Extends o o') : Extends o (o'.channelRedeliver c v) := by
  have hpop := h.popLiveRecv (c := c)
  unfold Owner.channelRedeliver
  split
  · rename_i w mid heq
    rw [heq] at hpop
    exact hpop.deliverToRecv
  · rename_i mid heq
    rw [heq] at hpop
    exact withChan hpop fun _ => rfl

theorem offer (h : Extends o o') : Extends o (o'.offer c v).2 := by
  have hpop := h.popLiveRecv (c := c)
  unfold Owner.offer
  split
  · rename_i w mid heq
    rw [heq] at hpop
    exact hpop.accept.deliverToRecv
  · rename_i mid heq
    rw [heq] at hpop
    split
    · exact withChan hpop.accept fun _ => rfl
    · exact hpop

theorem channelSend (h : Extends o o') : Extends o (o'.channelSend me c v) := by
  have hoffer := h.offer (c := c) (v := v)
  unfold Owner.channelSend
  split
  · exact h
  split
  · exact h.same rfl rfl rfl
  split
  · exact h.same rfl rfl rfl
  split
  · rename_i mid heq
    rw [heq] at hoffer
    exact hoffer.same rfl rfl rfl
  · rename_i mid heq
    rw [heq] at hoffer
    refine park (withChan hoffer ?_)
    exact fun _ => rfl

theorem redeliverWake (h : Extends o o') {wake : Option (Wake V)} :
    Extends o (o'.redeliverWake c wake) := by
  unfold Owner.redeliverWake
  split
  · exact h.channelRedeliver
  · exact h

theorem resumePark (h : Extends o o') {p : Park V} {wake : Option (Wake V)} {cancelled : Bool} :
    Extends o (o'.resumePark t p wake cancelled) := by
  unfold Owner.resumePark
  split
  · split
    · exact h.redeliverWake.same rfl rfl rfl
    · split <;> exact h.same rfl rfl rfl
  · split
    · exact h.redeliverWake.same rfl rfl rfl
    · split
      · exact h.same rfl rfl rfl
      · exact h

theorem load (hload : o.load t = some o') : Extends o o' := by
  unfold Owner.load at hload
  split at hload
  · cases hload
  split at hload
  · cases hload
  have hloaded : Extends o { o with sched := o.sched.loadTaskContext t } :=
    (refl o).same rfl rfl rfl
  dsimp only at hload
  split at hload
  · exact Option.some.inj hload ▸ hloaded
  · exact Option.some.inj hload ▸ hloaded.resumePark

theorem step {a : Owner.Action V} (hstep : o.step a = some o') : Extends o o' := by
  cases a with
  | newChannel cap =>
    obtain rfl := Option.some.inj hstep
    refine ⟨rfl, fun c => ?_, fun _ hi => hi⟩
    unfold Owner.shipOf
    dsimp only
    rcases Nat.lt_or_ge c o.chans.length with hlt | hge
    · rw [List.getElem?_append_left hlt]
    · rw [List.getElem?_append_right hge, List.getElem?_eq_none_iff.mpr hge,
        List.getElem?_singleton]
      split <;> rfl
  | spawn =>
    obtain rfl := Option.some.inj hstep
    exact (refl o).same rfl rfl rfl
  | complete t =>
    obtain ⟨task, -, rfl⟩ := Option.map_eq_some_iff.mp hstep
    exact (refl o).same rfl rfl rfl
  | load t => exact load hstep
  | cancel t =>
    obtain rfl := Option.some.inj hstep
    exact (refl o).same rfl rfl rfl
  | send me c v =>
    rw [Owner.step] at hstep
    split at hstep
    · obtain rfl := Option.some.inj hstep
      refine channelSend ?_
      exact (refl o).same rfl rfl rfl
    · cases hstep
  | recv me c =>
    rw [Owner.step] at hstep
    split at hstep
    · obtain rfl := Option.some.inj hstep
      exact (refl o).channelRecv
    · cases hstep
  | close me c =>
    obtain ⟨task, -, rfl⟩ := Option.map_eq_some_iff.mp hstep
    exact (refl o).channelClose

theorem applySend (h : Extends o o') : Extends o (o'.applySend c corr v) := by
  have hoffer := h.offer (c := c) (v := v)
  unfold Owner.applySend
  split
  · exact h.same rfl rfl rfl
  split
  · rename_i mid heq
    rw [heq] at hoffer
    exact hoffer.same rfl rfl rfl
  · rename_i mid heq
    rw [heq] at hoffer
    exact withChan hoffer fun _ => rfl

theorem applyRecv (h : Extends o o') : Extends o (o'.applyRecv c corr) := by
  have htake := h.takeValue (c := c)
  unfold Owner.applyRecv
  split
  · rename_i v mid heq
    rw [heq] at htake
    exact htake.deliverToRecv
  · rename_i mid heq
    rw [heq] at htake
    split
    · exact htake.same rfl rfl rfl
    · exact withChan htake fun _ => rfl

end Extends

theorem LinkOk.extends {o o' : Owner V} {endpoints : List (Option NativeRelayChannel)}
    {reap : List HostedId} {out : List (ChanFrame V)} {crossing : List NativeRelayChannel}
    (h : LinkOk o endpoints reap out crossing) (he : Extends o o') :
    LinkOk o' endpoints reap out crossing := by
  refine ⟨?_, ?_, ?_, ?_, ?_, h.covered, ?_⟩
  · intro c ship hship
    rw [he.hosted]
    exact h.ship c ship (he.ships c ▸ hship)
  · intro id c hhost
    rw [he.hosted] at hhost
    rw [he.ships]
    exact h.hosted id c hhost
  · rw [he.hosted]
    exact h.free
  · rw [he.hosted]
    exact h.endpoint
  · rw [he.hosted]
    exact h.crossing
  · rw [he.hosted]
    exact h.send

end Quoin.Channel
