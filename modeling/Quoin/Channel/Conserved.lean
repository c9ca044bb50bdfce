import Quoin.Channel.Extends

/-!
# Quoin — conservation across a worker link

Two VMs, one ordered lane each way, and every order of their steps. Each value
taken from a sender is in exactly one place — a buffer, the wake of a receiver,
a frame, or returned by one receive of its own channel — as long as every
`Return` finds its channel still rooted under the id it names (`ReturnsHome`).

It need not. The far side sends a value home when it arrives for a receiver
that was cancelled meanwhile; by then the receiver's task may have retracted
its operation and its endpoint may have been dropped and released, and if that
was the last one the owner has unrooted the channel. The `Return` then finds
nothing under the id and is dropped (`late_return_lost`), or finds a channel
rooted there since. References are counted for endpoints only, so the id a
value on its way still needs has no reference of its own.

## Results

* `relay_conservation` — in runs whose `Return`s find their channel, every value taken from a sender
  is in exactly one place, in every state;
* `late_return_lost` — a `Return` that comes after the last `Release` loses its value.
-/

namespace Quoin.Channel

open Trans

variable {V : Type} [DecidableEq V] [Portable V] {o o' : Owner V} {r r' : Remote V}
  {l : Limbo V} {c : ChanId} {ch : NativeChannelState V} {corr : Corr} {v : Item V}
  {frame : ChanFrame V} {rest : List (ChanFrame V)}

/-! ## The owner's agent -/

/-- A relayed send reaches its channel. -/
theorem OwnerOk.applySend (h : OwnerOk o r { owed := [corr] }) (hch : o.chans[c]? = some ch)
    (hv : v.chan = c) (hside : v.side = .remote) (hat : r.SendAt corr v)
    (huntaken : Untaken o r v) : OwnerOk (o.applySend c corr v) r {} := by
  obtain ⟨hsending, hsettled⟩ := h.not_sending hside
  unfold Owner.applySend
  split
  · -- a channel that is closed refuses the value
    exact h.chanEmit (fun _ => rfl) (fun _ => Nat.le_refl _) rfl (fun _ _ hne => by cases hne)
      fun _ hne => by cases hne
  rcases hoffer : o.offer c v with ⟨took, o'⟩
  obtain ⟨hok, htook, hleft⟩ := h.offer hch hv huntaken hsending hsettled hoffer
  cases took with
  -- taken: the frame that goes out acknowledges this request
  | true =>
    refine hok.chanEmit (fun _ => rfl) (fun _ => Nat.le_refl _) rfl (fun _ _ hne => by cases hne) ?_
    intro corr' heq
    obtain rfl := ChanFrame.ack.inj heq
    exact ⟨v, htook rfl, hat⟩
  | false =>
    -- else it waits in line, last of the senders
    obtain ⟨left, rfl⟩ := hleft rfl
    have hch' := getElem?_withChan (f := fun ch => { ch with recvWaiters := left }) hch
    have hqueue := hok.queues c _ hch'
    refine hok.withChan hch' ⟨hqueue.buffer, hqueue.recvLocal, hqueue.recvRemote, ?_, ?_⟩
      (fun _ => rfl) (fun i => ?_) (fun corr' => ?_) rfl
    · intro t e v' hin
      rcases List.mem_append.mp hin with hin | hin
      · exact hqueue.sendLocal t e v' hin
      · cases List.mem_singleton.mp hin
    · intro corr' v' hin
      rcases List.mem_append.mp hin with hin | hin
      · exact hqueue.sendRemote corr' v' hin
      · obtain ⟨rfl, rfl⟩ := SendWaiter.remoteOp.inj (List.mem_singleton.mp hin)
        exact ⟨hv, hside, hat⟩
    · -- it is offered nowhere else
      have huntaken' : Untaken (o.withChan c fun ch => { ch with recvWaiters := left }) r v := by
        unfold Untaken
        rw [offered_recvWaiters]
        exact huntaken
      have hle := hok.untaken_le huntaken' i
      unfold NativeChannelState.offers
      dsimp only
      rw [tally_append, tally_cons, tally_nil]
      dsimp only [SendWaiter.value]
      omega
    · unfold NativeChannelState.asks
      dsimp only
      rw [tally_append, tally_cons, tally_nil, tally_cons, tally_nil]
      dsimp only [SendWaiter.asks]
      omega

/-- A relayed receive reaches its channel. -/
theorem OwnerOk.applyRecv (h : OwnerOk o r { owed := [corr] }) (hch : o.chans[c]? = some ch)
    (hat : r.RecvAt corr c) : OwnerOk (o.applyRecv c corr) r {} := by
  unfold Owner.applyRecv
  rcases htake : o.takeValue c with ⟨found, o'⟩
  obtain ⟨⟨ch', hch'⟩, hok, hchan, -⟩ := h.takeValue hch htake
  cases found with
  | some v =>
    have hon : ReceivesOn o' r c (.remoteOp corr) := hat
    exact hok.deliverToRecv hon hch' (hchan v rfl) rfl rfl rfl
  | none =>
    dsimp only
    split
    · exact hok.chanEmit (fun _ => rfl) (fun _ => Nat.le_refl _) rfl (fun _ _ hne => by cases hne)
        fun _ hne => by cases hne
    · have hqueue := hok.queues c ch' hch'
      refine hok.withChan hch' ⟨hqueue.buffer, ?_, ?_, hqueue.sendLocal, hqueue.sendRemote⟩
        (fun _ => rfl) (fun i => ?_) (fun corr' => ?_) rfl
      · intro t e hin
        rcases List.mem_append.mp hin with hin | hin
        · exact hqueue.recvLocal t e hin
        · cases List.mem_singleton.mp hin
      · intro corr' hin
        rcases List.mem_append.mp hin with hin | hin
        · exact hqueue.recvRemote corr' hin
        · obtain rfl := RecvWaiter.remoteOp.inj (List.mem_singleton.mp hin)
          exact hat
      · have := hok.books.untaken i
        unfold NativeChannelState.offers
        dsimp only
        omega
      · unfold NativeChannelState.asks
        dsimp only
        rw [tally_append, tally_cons, tally_nil, tally_cons, tally_nil]
        dsimp only [RecvWaiter.asks]
        omega

/-- An operation is retracted. A value it offered was not taken, and never will be. -/
theorem OwnerOk.retract (h : OwnerOk o r {}) (hch : o.chans[c]? = some ch) :
    OwnerOk (o.retract c corr) r {} := by
  have hqueue := h.queues c ch hch
  have hle : ∀ {W : Type} (f : W → Nat) (p : W → Bool) (ws : List W),
      tally f (ws.filter p) ≤ tally f ws := by
    intro W f p ws
    have := tally_filter (f := f) p ws
    omega
  refine h.withChan hch ⟨hqueue.buffer,
    fun t e hin => hqueue.recvLocal t e (List.mem_of_mem_filter hin),
    fun corr' hin => hqueue.recvRemote corr' (List.mem_of_mem_filter hin),
    fun t e v hin => hqueue.sendLocal t e v (List.mem_of_mem_filter hin),
    fun corr' v hin => hqueue.sendRemote corr' v (List.mem_of_mem_filter hin)⟩
    (fun _ => rfl) (fun i => ?_) (fun corr' => ?_) rfl
  · unfold NativeChannelState.offers
    dsimp only
    exact Nat.add_le_add (h.books.untaken i) (hle _ _ _)
  · unfold NativeChannelState.asks
    dsimp only
    exact Nat.add_le_add (Nat.add_le_add (hle _ _ _) (hle _ _ _)) (Nat.le_refl _)

/-- The rooting of a channel is not what its queues rest on. -/
theorem OwnerOk.reship (h : OwnerOk o r {}) (hch : o.chans[c]? = some ch)
    {hosted : HostedId → Option ChanId} {ship : Option ChanShip} :
    OwnerOk { o.withChan c fun ch => { ch with ship := ship } with hosted } r {} := by
  have hqueue := h.queues c ch hch
  have hok : OwnerOk (o.withChan c fun ch => { ch with ship := ship }) r {} := by
    refine h.withChan hch ⟨hqueue.buffer, hqueue.recvLocal, hqueue.recvRemote, hqueue.sendLocal,
      hqueue.sendRemote⟩ (fun _ => rfl) (fun i => ?_) (fun _ => Nat.le_refl _) rfl
    have := h.books.untaken i
    unfold NativeChannelState.offers
    dsimp only
    omega
  exact ⟨hok.tasks, hok.queues, hok.frames, ⟨hok.books.conserved, hok.books.untaken,
    hok.books.once, hok.books.sends, hok.books.answered⟩, hok.ledger, hok.relayed⟩

/-- The operations a frame asks for. -/
def ChanFrame.asked : ChanFrame V → List Corr
  | .send _ corr _ | .recv _ corr => [corr]
  | _ => []

/-- The value a frame brings home. -/
def ChanFrame.homeward : ChanFrame V → List (Item V)
  | .ret _ v => [v]
  | _ => []

/-- The remote VM's next frame leaves the lane. -/
theorem PairOk.popRemote (h : PairOk o r {}) (hout : r.out = frame :: rest) :
    PairOk o { r with out := rest } { hand := frame.homeward, owed := frame.asked } ∧
      ∀ id corr v, frame = .send id corr v → Untaken o { r with out := rest } v := by
  have hb := h.owner.books
  have hmem : ∀ f ∈ rest, f ∈ r.out := fun f hf => hout ▸ List.mem_cons_of_mem _ hf
  -- what the frame offered is offered no more
  have hless : ∀ i, r.offering i = frame.offers i +
      ({ r with out := rest } : Remote V).offering i := by
    intro i
    unfold Remote.offering
    rw [hout, tally_cons]
  refine ⟨⟨h.owner.remote (fun p hp _ => hp) ⟨?_, ?_, hb.once, hb.sends, ?_⟩ h.owner.relayed,
    h.remote.tasks, h.remote.pending,
    fun f hin => (h.remote.lane f (hmem f hin)).mono fun p hp _ => hp, h.remote.done,
    h.remote.received⟩, ?_⟩
  · -- the books: a value that goes home is in the hand of who reads the frame
    intro i
    have hcons : o.held i + r.held i + 0 = _ := hb.conserved i
    have hhand : tally (here i) frame.homeward = frame.returns i := by
      cases frame <;> rfl
    unfold Remote.held at *
    rw [hout, tally_cons] at hcons
    dsimp only
    omega
  · intro i
    have := hb.untaken i
    have := hless i
    dsimp only at *
    omega
  · -- what the frame asked for is owed
    intro corr
    have hans : r.asking corr + o.waiting corr + o.answers corr + 0 ≤ r.due corr :=
      hb.answered corr
    have howed : tally (due corr) frame.asked = frame.asks corr := by
      cases frame <;> rfl
    unfold Remote.asking at *
    rw [hout, tally_cons] at hans
    dsimp only
    show _ ≤ r.due corr
    omega
  · -- the value of a `Send` was offered by this frame alone
    rintro id corr v rfl
    have := hb.untaken v
    have := hless v
    rw [ChanFrame.offers, here_self] at this
    unfold Untaken
    dsimp only
    omega

/-! ## Steps of the two VMs -/

/-- A value that goes home finds its channel rooted under the id its frame names. -/
def ReturnsHome (s : System V) : System.Action V → Prop
  | .ownerAgent =>
    match s.remote.out with
    | .ret id v :: _ => s.owner.hosted id = some v.chan
    | _ => True
  | _ => True

instance (s : System V) (a : System.Action V) : Decidable (ReturnsHome s a) := by
  unfold ReturnsHome
  split
  · split <;> infer_instance
  · infer_instance

structure SystemOk (s : System V) : Prop where
  pair : PairOk s.owner s.remote {}
  link : LinkOk s.owner s.remote.endpoints s.remote.reap s.remote.out s.crossing

/-- A frame that neither asks for anything nor gives a reference back. -/
def Plain (frame : ChanFrame V) : Prop :=
  (∀ id, frame.releases id = 0) ∧ ∀ id, ¬ frame.Addresses id

/-- The endpoints are untouched, and at most a plain frame is emitted. -/
def Quiet (r r' : Remote V) : Prop :=
  r'.endpoints = r.endpoints ∧ r'.reap = r.reap ∧
    (r'.out = r.out ∨ ∃ frame, Plain frame ∧ r'.out = r.out ++ [frame])

omit [DecidableEq V] [Portable V] in
theorem LinkOk.quiet {crossing : List NativeRelayChannel}
    (h : LinkOk o r.endpoints r.reap r.out crossing) (hq : Quiet r r') :
    LinkOk o r'.endpoints r'.reap r'.out crossing := by
  obtain ⟨hend, hreap, hout | ⟨frame, hplain, hout⟩⟩ := hq
  · rw [hend, hreap, hout]
    exact h
  · rw [hend, hreap, hout]
    refine h.emit hplain.1 (fun id haddr => absurd haddr (hplain.2 id)) ?_
    rintro id corr v rfl
    exact absurd rfl (hplain.2 id)

omit [DecidableEq V] in
theorem quiet_resumePark {t : TaskId} {p : RelayPark V} {wake : Option (Wake V)}
    {cancelled : Bool} : Quiet r (r.resumePark t p wake cancelled) := by
  have hcancel : ∀ id corr, Plain (.cancel id corr : ChanFrame V) :=
    fun _ _ => ⟨fun _ => rfl, fun _ haddr => haddr⟩
  have hret : ∀ id v, Plain (.ret id v : ChanFrame V) :=
    fun _ _ => ⟨fun _ => rfl, fun _ haddr => haddr⟩
  unfold Remote.resumePark
  split
  · split
    · cases Owner.taken wake
      · exact ⟨rfl, rfl, Or.inr ⟨_, hcancel _ _, rfl⟩⟩
      · exact ⟨rfl, rfl, Or.inl rfl⟩
    · split <;> exact ⟨rfl, rfl, Or.inl rfl⟩
  · split
    · dsimp only
      split
      · split
        · exact ⟨rfl, rfl, Or.inr ⟨_, hret _ _, rfl⟩⟩
        · exact ⟨rfl, rfl, Or.inl rfl⟩
      · exact ⟨rfl, rfl, Or.inr ⟨_, hcancel _ _, rfl⟩⟩
    · split <;> exact ⟨rfl, rfl, Or.inl rfl⟩

omit [DecidableEq V] [Portable V] in
theorem quiet_resolvePending : Quiet r (r.resolvePending corr frame) := by
  have hret : ∀ id v, Plain (.ret id v : ChanFrame V) :=
    fun _ _ => ⟨fun _ => rfl, fun _ haddr => haddr⟩
  unfold Remote.resolvePending
  split
  · exact ⟨rfl, rfl, Or.inl rfl⟩
  · unfold Remote.resolveFound
    dsimp only
    split <;> first
      | exact ⟨rfl, rfl, Or.inl rfl⟩
      | (split <;> first
          | exact ⟨rfl, rfl, Or.inl rfl⟩
          | exact ⟨rfl, rfl, Or.inr ⟨_, hret _ _, rfl⟩⟩)

omit [DecidableEq V] in
/-- The links of a step of the remote VM's tasks. -/
theorem LinkOk.remoteStep {crossing : List NativeRelayChannel}
    (h : LinkOk o r.endpoints r.reap r.out crossing) {a : Remote.Action V}
    (hstep : r.step a = some r') : LinkOk o r'.endpoints r'.reap r'.out crossing := by
  -- an endpoint in use covers the operation that is begun on it
  have hcover : ∀ {e : EndpointId} {parts : NativeRelayChannel},
      r.endpoints[e]?.join = some parts →
        (∀ reap, 1 ≤ avail r.endpoints reap parts.chan) ∧
          o.hosted parts.chan = some parts.home := by
    intro e parts hget
    have hmem := List.mem_of_getElem? (Option.join_eq_some_iff.mp hget)
    refine ⟨fun reap => ?_, h.endpoint parts hmem⟩
    have hle := le_tally (f := endpointShares parts.chan) hmem
    rw [show endpointShares parts.chan (some parts) = 1 from share_self _] at hle
    unfold avail
    omega
  cases a with
  | spawn =>
    obtain rfl := Option.some.inj hstep
    exact h
  | complete t =>
    obtain ⟨task, -, rfl⟩ := Option.map_eq_some_iff.mp hstep
    exact h
  | load t =>
    rw [Remote.step, Remote.load] at hstep
    split at hstep
    · cases hstep
    split at hstep
    · cases hstep
    dsimp only at hstep
    split at hstep
    · obtain rfl := Option.some.inj hstep
      exact h
    · obtain rfl := Option.some.inj hstep
      refine LinkOk.quiet ?_ quiet_resumePark
      exact h
  | cancel t =>
    obtain rfl := Option.some.inj hstep
    exact h
  | send me e v =>
    obtain ⟨task, -, hrest⟩ := Option.bind_eq_some_iff.mp hstep
    obtain ⟨parts, hget, rfl⟩ := Option.map_eq_some_iff.mp hrest
    obtain ⟨havail, hhost⟩ := hcover hget
    unfold Remote.relaySend
    dsimp only
    split
    · exact h.flush
    · refine h.flush.emit (fun _ => rfl) ?_ ?_
      · rintro id rfl
        exact havail []
      · intro id corr v' heq
        obtain ⟨rfl, -, rfl⟩ := ChanFrame.send.inj heq
        exact hhost
  | recv me e =>
    obtain ⟨task, -, hrest⟩ := Option.bind_eq_some_iff.mp hstep
    obtain ⟨parts, hget, rfl⟩ := Option.map_eq_some_iff.mp hrest
    obtain ⟨havail, -⟩ := hcover hget
    refine h.flush.emit (fun _ => rfl) ?_ fun _ _ _ hne => by cases hne
    rintro id rfl
    exact havail []
  | close me e =>
    obtain ⟨task, -, hrest⟩ := Option.bind_eq_some_iff.mp hstep
    obtain ⟨parts, -, rfl⟩ := Option.map_eq_some_iff.mp hrest
    exact h.flush.emit (fun _ => rfl) (fun _ haddr => haddr.elim) fun _ _ _ hne => by cases hne
  | drop e =>
    rw [Remote.step] at hstep
    split at hstep
    · obtain ⟨parts, hget, rfl⟩ := Option.map_eq_some_iff.mp hstep
      exact h.drop (Option.join_eq_some_iff.mp hget)
    · cases hstep
  | flush =>
    obtain rfl := Option.some.inj hstep
    exact h.flush

/-- The owner applies a frame. -/
theorem SystemOk.ownerAgent {s : System V} (h : SystemOk s) (hout : s.remote.out = frame :: rest)
    (hhome : ReturnsHome s .ownerAgent) :
    SystemOk { s with owner := s.owner.applyFrame frame, remote.out := rest } := by
  obtain ⟨⟨howner, hremote⟩, huntaken⟩ := h.pair.popRemote hout
  have hlink := h.link
  rw [hout] at hlink
  have hlane : LaneOk s.remote frame := h.pair.remote.lane frame (hout ▸ List.mem_cons_self)
  -- an operation that leaves the roots alone
  have hrest : ∀ {o' : Owner V}, OwnerOk o' { s.remote with out := rest } {} →
      Extends s.owner o' → (∀ id, frame.releases id = 0) →
      SystemOk { s with owner := o', remote.out := rest } :=
    fun hok hext hplain => ⟨⟨hok, hremote.mono hext.accepted⟩, (hlink.pop hplain).extends hext⟩
  cases frame with
  | send id corr v =>
    have hhost := hlink.send id corr v List.mem_cons_self
    obtain ⟨ch, hch⟩ := hlink.length_lt hhost
    unfold Owner.applyFrame
    dsimp only
    rw [hhost]
    refine hrest (howner.applySend hch rfl hlane.1 ?_ (huntaken id corr v rfl))
      (Extends.refl _).applySend fun _ => rfl
    exact hlane.2
  | recv id corr =>
    obtain ⟨c, hhost⟩ := hlink.hosted_of_addresses (show ChanFrame.Addresses id (.recv id corr) from
      rfl)
    obtain ⟨ch, hch⟩ := hlink.length_lt hhost
    unfold Owner.applyFrame
    dsimp only
    rw [hhost]
    refine hrest (howner.applyRecv hch ?_) (Extends.refl _).applyRecv fun _ => rfl
    -- whoever waits for the answer uses an endpoint of this very channel
    intro p hp hcorr
    obtain ⟨e, parts, rfl, hchan⟩ := hlane p hp hcorr
    refine ⟨e, parts, rfl, ?_⟩
    obtain ⟨t, task, htask, hpark⟩ := hp
    have hopen := ((h.pair.remote.tasks t task htask).opened _ hpark).2
    have hparts := hlink.endpoint parts (List.mem_of_getElem? hopen)
    rw [hchan, hhost] at hparts
    exact (Option.some.inj hparts).symm
  | close id =>
    unfold Owner.applyFrame
    dsimp only
    cases hhost : s.owner.hosted id with
    | none => exact hrest howner (Extends.refl _) fun _ => rfl
    | some c => exact hrest howner.channelClose (Extends.refl _).channelClose fun _ => rfl
  | cancel id corr =>
    unfold Owner.applyFrame
    dsimp only
    cases hhost : s.owner.hosted id with
    | none => exact hrest howner (Extends.refl _) fun _ => rfl
    | some c =>
      obtain ⟨ch, hch⟩ := hlink.length_lt hhost
      exact hrest (howner.retract hch) ((Extends.refl _).withChan fun _ => rfl) fun _ => rfl
  | release id =>
    unfold Owner.applyFrame
    dsimp only
    have hpos : 0 < shares s.remote.endpoints s.remote.reap (.release id :: rest) s.crossing id := by
      unfold shares
      rw [tally_cons, ChanFrame.releases, share_self]
      omega
    obtain ⟨c, hhost⟩ := hlink.rooted hpos
    rw [hhost]
    obtain ⟨ch, hch⟩ := hlink.length_lt hhost
    refine ⟨⟨?_, hremote.mono ?_⟩, hlink.releaseOne hhost⟩
    · unfold Owner.releaseOne
      dsimp only [Option.elim_some]
      split
      · exact howner
      split
      · exact howner.reship hch
      · exact howner.reship hch
    · intro i hi
      unfold Owner.releaseOne
      dsimp only [Option.elim_some]
      split
      · exact hi
      split <;> exact hi
  | ret id v =>
    have hhost : s.owner.hosted id = some v.chan := by
      unfold ReturnsHome at hhome
      dsimp only at hhome
      rw [hout] at hhome
      exact hhome
    obtain ⟨ch, hch⟩ := hlink.length_lt hhost
    unfold Owner.applyFrame
    dsimp only
    rw [hhost]
    exact hrest (howner.channelRedeliver hch rfl rfl rfl rfl) (Extends.refl _).channelRedeliver
      fun _ => rfl
  | _ => exact hrest howner (Extends.refl _) fun _ => rfl

theorem SystemOk.step {s s' : System V} (h : SystemOk s) {a : System.Action V}
    (hhome : ReturnsHome s a) (hstep : s.step a = some s') : SystemOk s' := by
  -- by the step: a task's, a ship or its arrival, or a frame that is applied
  cases a with
  | owner a =>
    obtain ⟨o', ho, rfl⟩ := Option.map_eq_some_iff.mp hstep
    have hext := Extends.step ho
    exact ⟨⟨h.pair.owner.step ho, h.pair.remote.mono hext.accepted⟩, h.link.extends hext⟩
  | remote a =>
    obtain ⟨r', hr, rfl⟩ := Option.map_eq_some_iff.mp hstep
    exact ⟨h.pair.step hr, h.link.remoteStep hr⟩
  | ship me c free =>
    -- the endpoint is counted as soon as it is shipped
    rw [System.step] at hstep
    split at hstep
    · rename_i hcond
      simp only [Bool.and_eq_true, decide_eq_true_eq, Option.isNone_iff_eq_none] at hcond
      obtain ⟨⟨⟨-, hc⟩, -⟩, hfree⟩ := hcond
      have hch := List.getElem?_eq_getElem hc
      rcases hship : s.owner.channelShip c free with ⟨id, o'⟩
      rw [hship] at hstep
      obtain rfl := Option.some.inj hstep
      refine ⟨?_, h.link.channelShip hch hfree hship⟩
      unfold Owner.channelShip at hship
      split at hship
      · obtain ⟨rfl, rfl⟩ := Prod.mk.inj hship
        exact ⟨h.pair.owner.reship hch, h.pair.remote⟩
      · obtain ⟨rfl, rfl⟩ := Prod.mk.inj hship
        exact ⟨h.pair.owner.reship hch, h.pair.remote⟩
    · cases hstep
  | arrive n =>
    obtain ⟨parts, hget, rfl⟩ := Option.map_eq_some_iff.mp hstep
    refine ⟨h.pair.endpoints fun p _ hopen => ?_, h.link.arrive hget⟩
    rw [List.getElem?_append_left (List.getElem?_eq_some_iff.mp hopen).1]
    exact hopen
  | ownerAgent =>
    rw [System.step] at hstep
    split at hstep
    · cases hstep
    · rename_i frame rest hout
      obtain rfl := Option.some.inj hstep
      exact h.ownerAgent hout hhome
  | remoteAgent =>
    rw [System.step] at hstep
    split at hstep
    · cases hstep
    · rename_i frame rest hout
      obtain rfl := Option.some.inj hstep
      refine ⟨h.pair.applyFrame hout, ?_⟩
      have hlink : LinkOk { s.owner with out := rest } s.remote.endpoints s.remote.reap
          s.remote.out s.crossing := h.link.extends ((Extends.refl s.owner).same rfl rfl rfl)
      unfold Remote.applyFrame
      dsimp only
      split
      · exact (hlink.quiet quiet_resolvePending).flush
      · exact (hlink.quiet quiet_resolvePending).flush
      · exact (hlink.quiet quiet_resolvePending).flush
      · exact (hlink.quiet quiet_resolvePending).flush
      · exact hlink.flush

theorem SystemOk.init : SystemOk ({} : System V) := by
  refine ⟨⟨OwnerOk.init, ?_, ?_, ?_, ?_, ?_⟩, ?_, ?_, fun _ _ => rfl, ?_, ?_, trivial, ?_⟩
  · intro t task htask
    cases htask
  · intro corr p hp
    cases hp
  · intro frame hin
    cases hin
  · intro i hin
    cases hin
  · intro c i hin
    cases hin
  · intro c ship hship
    cases hship
  · intro id c hhost
    cases hhost
  · intro parts hin
    cases hin
  · intro parts hin
    cases hin
  · intro id corr v hin
    cases hin

/-! ## Conservation -/

/-- In how many places a value is, on either side or in between. -/
def System.places (s : System V) (i : Item V) : Nat := s.owner.held i + s.remote.held i

/-- Each value taken from a sender is in one place, and stays with its channel. -/
structure Conserved (s : System V) : Prop where
  accepted : ∀ i ∈ s.owner.ledger.accepted, s.places i = 1
  others : ∀ i, i ∉ s.owner.ledger.accepted → s.places i = 0
  sent : ∀ i, (i, .sent) ∈ s.owner.ledger.done ∨ (i, .sent) ∈ s.remote.ledger.done →
    i ∈ s.owner.ledger.accepted
  buffer : ∀ c ch (i : Item V), s.owner.chans[c]? = some ch → i ∈ ch.buffer → i.chan = c
  wake : ∀ t task i, s.owner.sched.task? t = some task → task.wake = some (.channelRecv i) →
    task.park = some (.recv i.chan)
  /-- A value is handed only to an endpoint of its channel. -/
  relayed : ∀ t task i, s.remote.sched.task? t = some task → task.wake = some (.channelRecv i) →
    ∃ e parts corr, task.park = some (.recv e parts corr) ∧ parts.home = i.chan
  received : ∀ c i, (c, i) ∈ s.owner.ledger.received ∨ (c, i) ∈ s.remote.ledger.received →
    i.chan = c

omit [Portable V] in
theorem Books.places_eq (h : Books o r {}) (i : Item V) :
    o.held i + r.held i = if i ∈ o.ledger.accepted then 1 else 0 := by
  have hcons : o.held i + r.held i + 0 = _ := h.conserved i
  have huntaken := h.untaken i
  have honce := h.once i
  split_ifs with hin
  · have := mem_iff_tally.mp hin
    omega
  · by_contra hne
    exact hin (mem_iff_tally.mpr (by omega))

/-- **Conservation across the link.** In every run in which each `Return` finds its
channel still rooted, each accepted value is in exactly one place, on its own channel. -/
theorem relay_conservation {s : System V} (hRun : Run System.step ReturnsHome {} s) :
    Conserved s := by
  have hok : SystemOk s := hRun.invariant .init fun _ _ _ h hhome hstep => h.step hhome hstep
  have hplaces := fun i => hok.pair.owner.books.places_eq i
  refine ⟨fun i hi => (hplaces i).trans (if_pos hi), fun i hi => (hplaces i).trans (if_neg hi), ?_,
    fun c ch i hch => (hok.pair.owner.queues c ch hch).buffer i,
    fun t task i htask => (hok.pair.owner.tasks t task htask).handed i,
    fun t task i htask hwake => ((hok.pair.remote.tasks t task htask).handed i hwake).2, ?_⟩
  · rintro i (hin | hin)
    · exact (hok.pair.owner.ledger.done i .sent hin).mp rfl
    · exact hok.pair.remote.done i hin
  · rintro c i (hin | hin)
    · exact hok.pair.owner.ledger.received c i hin
    · exact hok.pair.remote.received c i hin

/-- A value on its way to a receiver that is cancelled goes home and is received there. -/
theorem relay_conservation_home : ∃ s : System Int, Run System.step ReturnsHome {} s ∧
    ⟨.owner, 0, 0, 7⟩ ∈ s.owner.ledger.accepted ∧ s.places ⟨.owner, 0, 0, 7⟩ = 1 := by
  have hexec : (exec System.step ReturnsHome ({} : System Int) [.owner (.newChannel 0),
      .owner .spawn, .owner (.load 0), .ship 0 0 1, .arrive 0, .remote .spawn, .remote (.load 0),
      .remote (.recv 0 0), .ownerAgent, .owner (.send 0 0 7), .remote (.cancel 0),
      .remote (.load 0), .remoteAgent, .ownerAgent, .ownerAgent]).map (fun s =>
        s.owner.ledger.accepted) = some [⟨.owner, 0, 0, 7⟩] := by
    decide +kernel
  obtain ⟨s, hRun, haccepted⟩ := run_of_exec_map hexec
  have hin : ⟨.owner, 0, 0, 7⟩ ∈ s.owner.ledger.accepted := by
    rw [haccepted]
    exact List.mem_cons_self
  exact ⟨s, hRun, hin, (relay_conservation hRun).accepted _ hin⟩

/-- Channel 0 is shipped as 1 and channel 1 as 2. A remote receive on the first is
cancelled while its value is on the way; the endpoint is dropped, and released by the
next relayed operation; then the value arrives and is sent home to an id that no
longer names anything. -/
def lateReturn : List (System.Action Int) :=
  [.owner (.newChannel 0), .owner (.newChannel 0), .owner .spawn, .owner (.load 0), .ship 0 0 1,
    .ship 0 1 2, .arrive 0, .arrive 0, .remote .spawn, .remote .spawn, .remote (.load 0),
    .remote (.load 1), .remote (.recv 0 0), .ownerAgent, .owner (.send 0 0 7),
    .remote (.cancel 0), .remote (.load 0), .remote (.drop 0), .remote (.recv 1 1),
    .ownerAgent, .ownerAgent, .remoteAgent, .ownerAgent, .ownerAgent]

/-- So a value that was accepted is in no place any more. -/
theorem late_return_lost : ¬ ∀ s : System Int, Reach System.step {} s →
    ∀ i ∈ s.owner.ledger.accepted, s.places i = 1 := by
  intro hall
  have hexec : (exec System.step (fun _ _ => True) ({} : System Int) lateReturn).map (fun s =>
      (s.owner.ledger.accepted, s.places ⟨.owner, 0, 0, 7⟩)) =
      some ([⟨.owner, 0, 0, 7⟩], 0) := by
    decide +kernel
  obtain ⟨s, hRun, hend⟩ := run_of_exec_map hexec
  obtain ⟨haccepted, hplaces⟩ := Prod.mk.inj hend
  have hone := hall s hRun ⟨.owner, 0, 0, 7⟩ (by
    rw [haccepted]
    exact List.mem_cons_self)
  rw [hplaces] at hone
  cases hone

end Quoin.Channel
