import Quoin.Channel.Outcomes

/-!
# Quoin — the owner answers what leaves its queues

A relayed operation that reaches the owner is answered at once or waits in a
channel's queue, and whatever takes it out of the queue answers it. So each step
of the owner keeps the sum of what waits and what was answered, except that it
grows by the operations that arrive (`Serves`). The one way out of a queue
without an answer is a `Cancel` that finds its operation waiting.
-/

namespace Quoin.Channel

open Trans

variable {V : Type} {o o' : Owner V} {r r' : Remote V} {c : ChanId} {ch : NativeChannelState V}
  {f : NativeChannelState V → NativeChannelState V} {corr : Corr} {t me : TaskId} {v : Item V}
  {frame : ChanFrame V}

/-! ## The owner answers what leaves its queues -/

/-- Between `o` and `o'` the owner got `asked` more operations to answer, and answered all that
left its queues. -/
structure Serves (corr : Corr) (asked : Nat) (o o' : Owner V) : Prop where
  engaged : o'.waiting corr + o'.answers corr = o.waiting corr + o.answers corr + asked
  answers : o.answers corr ≤ o'.answers corr

theorem Serves.refl (o : Owner V) : Serves corr 0 o o := ⟨rfl, Nat.le_refl _⟩

theorem Serves.trans {n m : Nat} {o'' : Owner V} (h : Serves corr n o o') (h' : Serves corr m o' o'') :
    Serves corr (n + m) o o'' := by
  obtain ⟨h1, h2⟩ := h
  obtain ⟨h3, h4⟩ := h'
  exact ⟨by omega, by omega⟩

/-- Nothing but the queues and the frames matters. -/
theorem Serves.same {n : Nat} {o'' : Owner V} (h : Serves corr n o o')
    (hchans : o''.chans = o'.chans) (hout : o''.out = o'.out) : Serves corr n o o'' := by
  have hwaiting : o''.waiting corr = o'.waiting corr := by rw [Owner.waiting, Owner.waiting, hchans]
  have hanswers : o''.answers corr = o'.answers corr := by rw [Owner.answers, Owner.answers, hout]
  exact ⟨by rw [hwaiting, hanswers]; exact h.engaged, by rw [hanswers]; exact h.answers⟩

theorem waiting_withChan (corr : Corr) (f : NativeChannelState V → NativeChannelState V)
    (hch : o.chans[c]? = some ch) :
    (o.withChan c f).waiting corr + ch.asks corr = o.waiting corr + (f ch).asks corr :=
  tally_modify hch

theorem answers_chanEmit (corr : Corr) (o : Owner V) (frame : ChanFrame V) :
    (o.chanEmit frame).answers corr = o.answers corr + frame.answers corr := by
  simp [Owner.answers, Owner.chanEmit]

/-- A channel is rewritten, and asks for as many answers as before. -/
theorem Serves.withChan {n : Nat} (h : Serves corr n o o')
    (hasks : ∀ ch, (f ch).asks corr = ch.asks corr) : Serves corr n o (o'.withChan c f) := by
  have hwaiting : (o'.withChan c f).waiting corr = o'.waiting corr := tally_modify_same hasks
  obtain ⟨h1, h2⟩ := h
  exact ⟨by rw [hwaiting]; exact h1, h2⟩

/-- Ghosts ask for nothing, so a queue is asked for less by what was popped. -/
theorem waiting_popRecv (corr : Corr) (hch : o.chans[c]? = some ch) {popped : Option RecvWaiter}
    {left : List RecvWaiter} (hpop : popLive o.recvLive ch.recvWaiters = (popped, left))
    (hrecv : (f ch).recvWaiters = left) (hsend : (f ch).sendWaiters = ch.sendWaiters) :
    (o.withChan c f).waiting corr + popped.elim 0 (RecvWaiter.asks corr) = o.waiting corr := by
  have hghost : ∀ w, o.recvLive w = false → w.asks corr = 0 := by
    rintro (⟨t, e⟩ | corr') hdead
    · rfl
    · cases hdead
  have hpopped : tally _ (popLive o.recvLive ch.recvWaiters).2 + _ = _ := tally_popLive hghost
  have hwaiting := waiting_withChan corr f hch
  rw [hpop] at hpopped
  unfold NativeChannelState.asks at hwaiting
  rw [hrecv, hsend] at hwaiting
  dsimp only at hpopped
  omega

theorem waiting_popSend (corr : Corr) (hch : o.chans[c]? = some ch) {popped : Option (SendWaiter V)}
    {left : List (SendWaiter V)} (hpop : popLive o.sendLive ch.sendWaiters = (popped, left))
    (hrecv : (f ch).recvWaiters = ch.recvWaiters) (hsend : (f ch).sendWaiters = left) :
    (o.withChan c f).waiting corr + popped.elim 0 (SendWaiter.asks corr) = o.waiting corr := by
  have hghost : ∀ w, o.sendLive w = false → w.asks corr = 0 := by
    rintro (⟨t, e, v⟩ | ⟨corr', v⟩) hdead
    · rfl
    · cases hdead
  have hpopped : tally _ (popLive o.sendLive ch.sendWaiters).2 + _ = _ := tally_popLive hghost
  have hwaiting := waiting_withChan corr f hch
  rw [hpop] at hpopped
  unfold NativeChannelState.asks at hwaiting
  rw [hrecv, hsend] at hwaiting
  dsimp only at hpopped
  omega

/-- A waiter is popped, and answered. -/
theorem Serves.popped {n : Nat} (h : Serves corr n (o.withChan c f) o')
    (hwaiting : (o.withChan c f).waiting corr + n = o.waiting corr) : Serves corr 0 o o' := by
  have hout : (o.withChan c f).answers corr = o.answers corr := rfl
  obtain ⟨h1, h2⟩ := h
  exact ⟨by omega, by omega⟩

/-- A sender that is completed is answered. -/
theorem serves_completeSend {w : SendWaiter V} : Serves corr (w.asks corr) o (o.completeSend w) := by
  cases w with
  | localTask t e v => exact (Serves.refl o).same rfl rfl
  | remoteOp corr' v =>
    have hack := answers_chanEmit corr o (.ack corr')
    have hsame : (o.chanEmit (.ack corr')).waiting corr = o.waiting corr := rfl
    have hone : (ChanFrame.ack corr' : ChanFrame V).answers corr =
      (SendWaiter.remoteOp corr' v).asks corr := rfl
    have hserved : Serves corr ((SendWaiter.remoteOp corr' v).asks corr) o (o.chanEmit (.ack corr')) :=
      ⟨by omega, by omega⟩
    exact hserved.same rfl rfl

theorem serves_takeValue (hch : o.chans[c]? = some ch) {found : Option (Item V)}
    (htake : Takes o c ch found o') : Serves corr 0 o o' := by
  cases htake with
  | promoted hbuffer hpop =>
    exact serves_completeSend.popped (waiting_popSend corr hch hpop rfl rfl)
  | buffered hbuffer hpop =>
    exact (Serves.refl _).popped (waiting_popSend corr hch hpop rfl rfl)
  | handed hbuffer hpop =>
    exact serves_completeSend.popped (waiting_popSend corr hch hpop rfl rfl)
  | nothing hbuffer hpop =>
    exact (Serves.refl _).popped (waiting_popSend corr hch hpop rfl rfl)

variable [Portable V]

/-- A receiver that is handed a value is answered, by the value or by an error. -/
theorem serves_deliverToRecv {w : RecvWaiter} :
    Serves corr (w.asks corr) o (o.deliverToRecv c w v) := by
  cases w with
  | localTask t e => exact (Serves.refl o).same rfl rfl
  | remoteOp corr' =>
    have hanswer : ∀ frame : ChanFrame V, frame.answers corr = due corr corr' →
        Serves corr ((RecvWaiter.remoteOp corr').asks corr) o (o.chanEmit frame) := by
      intro frame hframe
      have hemit := answers_chanEmit corr o frame
      have hsame : (o.chanEmit frame).waiting corr = o.waiting corr := rfl
      have hone : (RecvWaiter.remoteOp corr').asks corr = due corr corr' := rfl
      exact ⟨by omega, by omega⟩
    unfold Owner.deliverToRecv
    dsimp only
    split
    · exact hanswer _ rfl
    · exact Serves.withChan (hanswer _ rfl) fun _ => rfl

omit [Portable V] in
theorem Serves.accept {n : Nat} (h : Serves corr n (o.accept v) o') : Serves corr n o o' := by
  obtain ⟨h1, h2⟩ := h
  exact ⟨h1, h2⟩

theorem serves_offer (hch : o.chans[c]? = some ch) {took : Bool} (hoffer : Offers o c ch v took o') :
    Serves corr 0 o o' := by
  cases hoffer with
  | @delivered w left hpop =>
    have hwaiting := waiting_popRecv (f := fun ch => { ch with recvWaiters := left }) corr hch hpop
      rfl rfl
    exact serves_deliverToRecv.accept.popped hwaiting
  | buffered hpop hroom =>
    have hwaiting := waiting_popRecv corr hch hpop
      (f := fun ch => { ch with recvWaiters := [], buffer := ch.buffer ++ [v] }) rfl rfl
    exact ((Serves.refl _).popped hwaiting).same rfl rfl
  | refused hpop hroom =>
    have hwaiting := waiting_popRecv (f := fun ch => { ch with recvWaiters := [] }) corr hch hpop
      rfl rfl
    exact (Serves.refl _).popped hwaiting

theorem serves_channelRedeliver : Serves corr 0 o (o.channelRedeliver c v) := by
  cases hch : o.chans[c]? with
  | none =>
    rw [channelRedeliver_none hch]
    exact .refl o
  | some ch =>
    generalize hredeliver : o.channelRedeliver c v = o'
    cases redelivers hch hredeliver with
    | @delivered w left hpop =>
      have hwaiting := waiting_popRecv (f := fun ch => { ch with recvWaiters := left }) corr
        hch hpop rfl rfl
      exact serves_deliverToRecv.popped hwaiting
    | fronted hpop =>
      have hwaiting := waiting_popRecv corr hch hpop
        (f := fun ch => { ch with recvWaiters := [], buffer := v :: ch.buffer }) rfl rfl
      exact (Serves.refl _).popped hwaiting

theorem serves_channelSend : Serves corr 0 o (o.channelSend me c v) := by
  unfold Owner.channelSend
  cases hch : o.chans[c]? with
  | none => exact .refl o
  | some ch =>
    dsimp only
    split
    · exact (Serves.refl o).same rfl rfl
    split
    · exact (Serves.refl o).same rfl rfl
    rcases hoffer : o.offer c v with ⟨took, o'⟩
    have hserved : Serves corr 0 o o' := serves_offer hch (offers hch hoffer)
    cases took with
    | true => exact hserved.same rfl rfl
    | false =>
      refine (hserved.withChan fun ch => ?_).same rfl rfl
      simp [NativeChannelState.asks, SendWaiter.asks]

omit [Portable V] in
theorem serves_takeValue_any {found : Option (Item V)} (htake : o.takeValue c = (found, o')) :
    Serves corr 0 o o' := by
  cases hch : o.chans[c]? with
  | none =>
    unfold Owner.takeValue Owner.popLiveSend at htake
    rw [hch] at htake
    obtain ⟨rfl, rfl⟩ := Prod.mk.inj htake
    exact .refl o
  | some ch => exact serves_takeValue hch (takes hch htake)

omit [Portable V] in
theorem serves_channelRecv : Serves corr 0 o (o.channelRecv me c) := by
  unfold Owner.channelRecv
  rcases htake : o.takeValue c with ⟨found, o'⟩
  have hserved : Serves corr 0 o o' := serves_takeValue_any htake
  cases found with
  | some v => exact hserved.same rfl rfl
  | none =>
    dsimp only
    split
    · exact hserved
    · refine (hserved.withChan fun ch => ?_).same rfl rfl
      simp [NativeChannelState.asks, RecvWaiter.asks]

omit [Portable V] in
theorem tally_asks_woken : tally (RecvWaiter.asks corr) (Owner.woken ch) = ch.asks corr := by
  have hparked : (fun w : SendWaiter V => (Owner.parked w).asks corr) = SendWaiter.asks corr := by
    funext w
    cases w <;> rfl
  rw [Owner.woken, tally_append, tally_map, hparked]
  rfl

omit [Portable V] in
/-- Each remote operation that is woken is answered. -/
theorem serves_wakeClosed (ws : List RecvWaiter) :
    Serves corr (tally (RecvWaiter.asks corr) ws) o (ws.foldl Owner.wakeClosed o) := by
  induction ws generalizing o with
  | nil => exact .refl o
  | cons w rest ih =>
    have hone : Serves corr (w.asks corr) o (o.wakeClosed w) := by
      cases w with
      | localTask t e =>
        unfold Owner.wakeClosed
        dsimp only
        split
        · exact (Serves.refl o).same rfl rfl
        · exact .refl o
      | remoteOp corr' =>
        have hemit := answers_chanEmit corr o (.closedFor corr')
        have hsame : (o.chanEmit (.closedFor corr')).waiting corr = o.waiting corr := rfl
        have hasks : (RecvWaiter.remoteOp corr').asks corr =
          (ChanFrame.closedFor corr' : ChanFrame V).answers corr := rfl
        exact ⟨by rw [Owner.wakeClosed]; omega, by rw [Owner.wakeClosed]; omega⟩
    rw [List.foldl_cons, tally_cons]
    exact hone.trans ih

omit [Portable V] in
theorem serves_channelClose : Serves corr 0 o (o.channelClose c) := by
  unfold Owner.channelClose
  cases hch : o.chans[c]? with
  | none => exact .refl o
  | some ch =>
    have hcleared := waiting_withChan corr
      (fun ch => { ch with closed := true, recvWaiters := [], sendWaiters := [] }) hch
    refine (serves_wakeClosed (Owner.woken ch)).popped ?_
    rw [tally_asks_woken]
    exact hcleared

theorem serves_resumePark {p : Park V} {wake : Option (Wake V)} {cancelled : Bool} :
    Serves corr 0 o (o.resumePark t p wake cancelled) := by
  have hredeliver : ∀ c, Serves corr 0 o (o.redeliverWake c wake) := by
    intro c
    unfold Owner.redeliverWake
    split
    · exact serves_channelRedeliver
    · exact .refl o
  cases p with
  | send c v =>
    unfold Owner.resumePark
    dsimp only
    split
    · exact (hredeliver c).same rfl rfl
    · split <;> exact (Serves.refl o).same rfl rfl
  | recv c =>
    unfold Owner.resumePark
    dsimp only
    split
    · exact (hredeliver c).same rfl rfl
    · split
      · exact (Serves.refl o).same rfl rfl
      · exact .refl o

theorem serves_step {a : Owner.Action V} (hstep : o.step a = some o') : Serves corr 0 o o' := by
  cases a with
  | newChannel cap =>
    obtain rfl := Option.some.inj hstep
    -- the new channel has nobody waiting
    have hwaiting : tally (NativeChannelState.asks corr) (o.chans ++ [({ cap } : NativeChannelState V)]) =
        tally (NativeChannelState.asks corr) o.chans := by
      rw [tally_append]
      rfl
    exact ⟨by unfold Owner.waiting Owner.answers; dsimp only; omega, Nat.le_refl _⟩
  | spawn =>
    obtain rfl := Option.some.inj hstep
    exact (Serves.refl o).same rfl rfl
  | complete t =>
    obtain ⟨task, -, rfl⟩ := Option.map_eq_some_iff.mp hstep
    exact (Serves.refl o).same rfl rfl
  | load t =>
    rw [Owner.step, Owner.load] at hstep
    split at hstep
    · cases hstep
    rename_i task htask
    split at hstep
    · cases hstep
    dsimp only at hstep
    have hloaded : Serves corr 0 o { o with sched := o.sched.loadTaskContext t } :=
      (Serves.refl o).same rfl rfl
    split at hstep
    · obtain rfl := Option.some.inj hstep
      exact hloaded
    · obtain rfl := Option.some.inj hstep
      exact hloaded.trans serves_resumePark
  | cancel t =>
    obtain rfl := Option.some.inj hstep
    exact (Serves.refl o).same rfl rfl
  | send me c v =>
    rw [Owner.step] at hstep
    split at hstep
    · obtain rfl := Option.some.inj hstep
      have hissued : Serves corr 0 o (o.issue (o.newItem c v)) := (Serves.refl o).same rfl rfl
      exact hissued.trans serves_channelSend
    · cases hstep
  | recv me c =>
    rw [Owner.step] at hstep
    split at hstep
    · obtain rfl := Option.some.inj hstep
      exact serves_channelRecv
    · cases hstep
  | close me c =>
    obtain ⟨task, -, rfl⟩ := Option.map_eq_some_iff.mp hstep
    exact serves_channelClose

/-! ## The frames of the remote VM -/

omit [Portable V] in
/-- An operation is answered at once. -/
theorem Serves.emit {n : Nat} (h : Serves corr 0 o o') (hframe : frame.answers corr = n) :
    Serves corr n o (o'.chanEmit frame) := by
  have hemit := answers_chanEmit corr o' frame
  have hsame : (o'.chanEmit frame).waiting corr = o'.waiting corr := rfl
  obtain ⟨h1, h2⟩ := h
  exact ⟨by omega, by omega⟩

omit [Portable V] in
/-- An operation joins a queue. -/
theorem Serves.queue {corr' : Corr} (h : Serves corr 0 o o') (hch : o'.chans[c]? = some ch)
    (hasks : (f ch).asks corr = ch.asks corr + due corr corr') :
    Serves corr (due corr corr') o (o'.withChan c f) := by
  have hwaiting := waiting_withChan corr f hch
  have hsame : (o'.withChan c f).answers corr = o'.answers corr := rfl
  obtain ⟨h1, h2⟩ := h
  exact ⟨by omega, by omega⟩

theorem serves_applySend {corr' : Corr} :
    Serves corr (due corr corr') o (o.applySend c corr' v) := by
  unfold Owner.applySend
  split
  · exact (Serves.refl o).emit rfl
  rename_i hopen
  cases hch : o.chans[c]? with
  | none =>
    rw [hch] at hopen
    exact absurd rfl hopen
  | some ch =>
    rcases hoffer : o.offer c v with ⟨took, o'⟩
    have hout := offers hch hoffer
    have hserved : Serves corr 0 o o' := serves_offer hch hout
    cases took with
    | true => exact hserved.emit rfl
    | false =>
      cases hout with
      | refused hpop hroom =>
        refine hserved.queue (getElem?_withChan hch) ?_
        simp only [NativeChannelState.asks, tally_append, tally_cons, tally_nil, SendWaiter.asks]
        omega

theorem serves_applyRecv {corr' : Corr} :
    Serves corr (due corr corr') o (o.applyRecv c corr') := by
  unfold Owner.applyRecv
  rcases htake : o.takeValue c with ⟨found, o'⟩
  have hserved : Serves corr 0 o o' := serves_takeValue_any htake
  cases found with
  | some v =>
    have hdeliver : Serves corr ((RecvWaiter.remoteOp corr').asks corr) o'
        (o'.deliverToRecv c (.remoteOp corr') v) := serves_deliverToRecv
    rw [← Nat.zero_add (due corr corr')]
    exact hserved.trans hdeliver
  | none =>
    dsimp only
    split
    · exact hserved.emit rfl
    rename_i hopen
    cases hch : o'.chans[c]? with
    | none =>
      rw [hch] at hopen
      exact absurd rfl hopen
    | some ch =>
      refine hserved.queue hch ?_
      simp only [NativeChannelState.asks, tally_append, tally_cons, tally_nil, RecvWaiter.asks]
      omega

/-- A filter that drops only receivers waiting for `corr'` drops nothing where nobody does. -/
theorem recvWaiters_filter {corr' : Corr} {ws : List RecvWaiter} {keep : RecvWaiter → Bool}
    (hlocal : ∀ t e, keep (.localTask t e) = true)
    (hremote : ∀ corr'', corr'' ≠ corr' → keep (.remoteOp corr'') = true)
    (hnone : tally (RecvWaiter.asks corr') ws = 0) : ws.filter keep = ws := by
  refine List.filter_eq_self.mpr fun w hin => ?_
  have hle := le_tally (f := RecvWaiter.asks corr') hin
  cases w with
  | localTask t e => exact hlocal t e
  | remoteOp corr'' =>
    refine hremote corr'' ?_
    rintro rfl
    rw [RecvWaiter.asks, due_self] at hle
    omega

omit [Portable V] in
/-- The same for senders. -/
theorem sendWaiters_filter {corr' : Corr} {ws : List (SendWaiter V)} {keep : SendWaiter V → Bool}
    (hlocal : ∀ t e v, keep (.localTask t e v) = true)
    (hremote : ∀ corr'' v, corr'' ≠ corr' → keep (.remoteOp corr'' v) = true)
    (hnone : tally (SendWaiter.asks corr') ws = 0) : ws.filter keep = ws := by
  refine List.filter_eq_self.mpr fun w hin => ?_
  have hle := le_tally (f := SendWaiter.asks corr') hin
  cases w with
  | localTask t e v => exact hlocal t e v
  | remoteOp corr'' v =>
    refine hremote corr'' v ?_
    rintro rfl
    rw [SendWaiter.asks, due_self] at hle
    omega

omit [Portable V] in
/-- What does not wait cannot be retracted. -/
theorem serves_retract {corr' : Corr} (hnone : o.waiting corr' = 0) :
    Serves corr 0 o (o.retract c corr') := by
  rw [Owner.retract]
  cases hch : o.chans[c]? with
  | none =>
    rw [withChan_eq_self hch]
    exact .refl o
  | some ch =>
    have hwaits : ch.asks corr' = 0 := by
      have hle := le_tally_of_getElem? (f := NativeChannelState.asks corr') hch
      unfold Owner.waiting at hnone
      omega
    unfold NativeChannelState.asks at hwaits
    have hrecv : tally (RecvWaiter.asks corr') ch.recvWaiters = 0 := by omega
    have hsend : tally (SendWaiter.asks corr') ch.sendWaiters = 0 := by omega
    refine (Serves.refl _).popped (Nat.add_right_cancel (m := ch.asks corr) ?_)
    rw [Nat.add_zero, waiting_withChan corr _ hch]
    rw [recvWaiters_filter ?_ ?_ hrecv, sendWaiters_filter ?_ ?_ hsend]
    · exact fun _ _ _ => rfl
    · exact fun _ _ hne => bne_iff_ne.mpr hne
    · exact fun _ _ => rfl
    · exact fun _ hne => bne_iff_ne.mpr hne

/-- A frame that is not the retraction of a waiting operation is served. -/
theorem serves_applyFrame (hcancel : ∀ id corr', frame = .cancel id corr' → o.waiting corr' = 0) :
    Serves corr (frame.asks corr) o (o.applyFrame frame) := by
  have hrooted : ∀ {f : ChanId → Owner V} (id : HostedId), (∀ c, Serves corr 0 o (f c)) →
      Serves corr 0 o ((o.hosted id).elim o f) := by
    intro f id hall
    cases o.hosted id with
    | none => exact .refl o
    | some c => exact hall c
  unfold Owner.applyFrame
  cases frame with
  | send id corr' v =>
    dsimp only
    cases o.hosted id with
    | none => exact (Serves.refl o).emit rfl
    | some c => exact serves_applySend
  | recv id corr' =>
    dsimp only
    cases o.hosted id with
    | none => exact (Serves.refl o).emit rfl
    | some c => exact serves_applyRecv
  | close id => exact hrooted id fun c => serves_channelClose
  | cancel id corr' => exact hrooted id fun c => serves_retract (hcancel id corr' rfl)
  | ret id v => exact hrooted id fun c => serves_channelRedeliver
  | release id =>
    refine hrooted id fun c => ?_
    unfold Owner.releaseOne
    split
    · exact .refl o
    · split
      · have hdropped : Serves corr 0 o (o.withChan c fun ch => { ch with ship := none }) :=
          (Serves.refl o).withChan fun _ => rfl
        exact hdropped.same rfl rfl
      · exact (Serves.refl o).withChan fun _ => rfl
  | _ => exact .refl o

end Quoin.Channel
