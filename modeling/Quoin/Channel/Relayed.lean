import Quoin.Channel.Endpoint

/-!
# Quoin — relayed operations keep both invariants

A relayed operation begins under a fresh correlation, so nothing is on its way
for it, and is due one answer from then on. The answer finds the operation
pending; if its task still waits it is woken with what the answer carries, and
otherwise a value that came too late is sent home.
-/

namespace Quoin.Channel

open Trans

variable {V : Type} [DecidableEq V] [Portable V] {o : Owner V} {r r' : Remote V} {l : Limbo V}
  {c : ChanId} {corr : Corr} {t me : TaskId} {task : Task (RelayPark V) V} {v : Item V}

/-! ## Beginning an operation -/

omit [DecidableEq V] in
theorem RemoteOk.pending_nextCorr {accepted : List (Item V)} (h : RemoteOk accepted r) :
    r.pending r.nextCorr = none := by
  cases hp : r.pending r.nextCorr with
  | none => rfl
  | some p => exact absurd (h.pending _ p hp).issued (Nat.lt_irrefl _)

/-- Begin an operation and park on it. -/
theorem PairOk.begin (h : PairOk o r {}) (hrun : r.sched.running me = some task)
    {frame : ChanFrame V} {chan : HostedId} {make : Corr → ChanFrame V} {p : RelayPark V}
    (hmake : make r.nextCorr = frame) (hcorr : p.corr = r.nextCorr)
    (hopen : r.endpoints[p.endpoint]? = some (some p.parts))
    (hplain : (∀ i, frame.returns i = 0) ∧ ∀ corr, frame.asks corr = due corr r.nextCorr)
    (hoffers : ∀ i, tally (here i) o.ledger.accepted + o.offered i + r.offering i +
        frame.offers i ≤
      tally (here i) o.ledger.issued + tally (here i) r.ledger.issued)
    (hsend : ∀ id corr v, frame = .send id corr v → v.side = .remote ∧
      ∃ e parts, p = .send e parts corr v)
    (hrecv : ∀ id corr, frame = .recv id corr → ∃ e parts, p = .recv e parts corr ∧
      parts.chan = id) :
    PairOk o ((r.beginOp me chan make).park me p) {} := by
  subst hmake
  obtain ⟨htask, hidle, hpos⟩ := Sched.running_eq_some hrun
  have htaskOk := h.remote.tasks me task htask
  obtain ⟨hoff, hnone⟩ := htaskOk.idle hidle
  have hfresh := h.remote.pending_nextCorr
  have hb := h.owner.books
  have hparks : ∀ q, (r.sched.park me p).Parks q → q = p ∨ r.sched.Parks q :=
    fun q hq => hq.of_park
  have hold : ∀ q, (r.sched.park me p).Parks q → (r.pending q.corr).isSome → r.sched.Parks q := by
    intro q hq hpend
    rcases hparks q hq with rfl | hq
    · rw [hcorr, hfresh] at hpend
      cases hpend
    · exact hq
  have hepoch : ((r.sched.task? me).map Task.parkEpoch).getD 0 = task.parkEpoch := by
    rw [htask]
    rfl
  refine ⟨h.owner.remote hold ⟨?_, ?_, hb.once, hb.sends, ?_⟩ h.owner.relayed, ?_, ?_, ?_,
    h.remote.done, h.remote.received⟩
  · intro i
    have hsame : (r.sched.park me p).tallyTasks (Task.holds i) =
        r.sched.tallyTasks (Task.holds i) := Sched.tallyTasks_modifyTask_same fun _ => rfl
    have hcons := hb.conserved i
    have hzero := hplain.1 i
    unfold Remote.held Remote.park Remote.beginOp at *
    dsimp only at *
    rw [tally_append, tally_cons, tally_nil]
    omega
  · intro i
    have hoffers := hoffers i
    unfold Remote.offering Remote.park Remote.beginOp at *
    dsimp only
    rw [tally_append, tally_cons, tally_nil]
    omega
  · intro corr
    have hans : r.asking corr + o.waiting corr + o.answers corr + 0 ≤ r.due corr := hb.answered corr
    have hasks := hplain.2 corr
    unfold Remote.asking Remote.due Remote.park Remote.beginOp at *
    dsimp only at *
    rw [tally_append, tally_cons, tally_nil, tally_nil, Function.update_apply, hasks]
    by_cases heq : corr = r.nextCorr
    · rw [heq, hfresh, Option.elim_none] at hans
      rw [if_pos heq, heq, due_self, Option.elim_some]
      omega
    · rw [if_neg heq, due, if_neg (Ne.symm heq)]
      omega
  · intro u task' htask'
    have hseq : (r.sched.park me p).parkSeq = r.sched.parkSeq := Sched.parkSeq_modifyTask
    show RelayTaskOk _ (r.sched.park me p).parkSeq (r.nextCorr + 1) r.endpoints task'
    rw [hseq]
    obtain ⟨old, hget, ⟨rfl, -⟩ | ⟨rfl, rfl⟩⟩ := Sched.of_task?_modifyTask htask'
    · have hok := h.remote.tasks u _ hget
      exact ⟨hok.epoch, hok.idle, hok.asleep, hok.handed, hok.acked,
        fun q hq => ⟨Nat.lt_succ_of_lt (hok.opened q hq).1, (hok.opened q hq).2⟩⟩
    · replace hget : r.sched.task? u = some old := hget
      rw [htask, Option.some.injEq] at hget
      subst hget
      refine ⟨htaskOk.epoch, (fun hne => by cases hne), fun _ => hnone, ?_, ?_, ?_⟩
      · intro i hi
        rw [show task.wake = some (.channelRecv i) from hi] at hnone
        cases hnone
      · intro hw
        rw [show task.wake = some .channelSendOk from hw] at hnone
        cases hnone
      · intro q hq
        obtain rfl := Option.some.inj hq
        exact ⟨hcorr ▸ Nat.lt_succ_self _, hopen⟩
  · intro corr q hq
    replace hq : Function.update r.pending r.nextCorr (some
      { task := me, epoch := ((r.sched.task? me).map Task.parkEpoch).getD 0, chan }) corr =
        some q := hq
    show PendingOk (r.sched.park me p) (r.nextCorr + 1) corr q
    rw [hepoch, Function.update_apply] at hq
    by_cases heq : corr = r.nextCorr
    · rw [if_pos heq] at hq
      obtain rfl := Option.some.inj hq
      rw [heq, ← hcorr]
      exact pendingOk_park (p := ⟨me, _, _⟩) hpos htaskOk.epoch
    · rw [if_neg heq] at hq
      exact (h.remote.pending corr q hq).park (Nat.le_succ _) htask hidle
  · -- only the new operation is suspended under the new correlation
    have hnew : ∀ q, (r.sched.park me p).Parks q → q.corr = r.nextCorr → q = p := by
      intro q hq hqcorr
      rcases hparks q hq with rfl | ⟨u, task', htask', hpark⟩
      · rfl
      · have := ((h.remote.tasks u task' htask').opened q hpark).1
        rw [hqcorr] at this
        exact absurd this (Nat.lt_irrefl _)
    intro frame hin
    rcases List.mem_append.mp hin with hin | hin
    · refine (h.remote.lane frame hin).mono fun q hq hasks => hold q hq ?_
      -- an operation on its way is pending
      have hle := le_tally (f := ChanFrame.asks q.corr) hin
      have hans := hb.answered q.corr
      unfold Remote.asking at hans
      exact Remote.pending_of_due (by omega)
    · obtain rfl := List.mem_singleton.mp hin
      have hasks := hplain.2
      cases hframe : make r.nextCorr with
      | send id corr v =>
        obtain ⟨hside, e, parts, rfl⟩ := hsend id corr v hframe
        refine ⟨hside, fun q hq hqcorr => ⟨e, parts, ?_⟩⟩
        exact hnew q hq (hqcorr.trans hcorr)
      | recv id corr =>
        obtain ⟨e, parts, rfl, hchan⟩ := hrecv id corr hframe
        intro q hq hqcorr
        exact ⟨e, parts, hnew q hq (hqcorr.trans hcorr), hchan⟩
      | _ => trivial

/-- A value is sent at the remote VM. -/
theorem PairOk.issue (h : PairOk o r {}) (hv : v = r.newItem c v.value) :
    PairOk o (r.issue v) {} ∧ Untaken o (r.issue v) v := by
  have hside : v.side = .remote := by rw [hv]; rfl
  have hnumber : v.number = r.ledger.issued.length := by rw [hv]; rfl
  have hb := h.owner.books
  -- the number is new on this side, and the owner issues none for it
  have hfresh : tally (here v) r.ledger.issued = 0 := by
    by_contra hne
    have := (h.owner.relayed v (mem_iff_tally.mpr (Nat.pos_of_ne_zero hne))).2
    omega
  have hother : tally (here v) o.ledger.issued = 0 := by
    by_contra hne
    rw [(h.owner.ledger.issued v (mem_iff_tally.mpr (Nat.pos_of_ne_zero hne))).1] at hside
    cases hside
  have huntaken := hb.untaken v
  have hcons : ∀ i, tally (here i) (r.issue v).ledger.issued =
      here i v + tally (here i) r.ledger.issued := fun i => tally_cons _ _ _
  refine ⟨⟨h.owner.remote (fun p hp _ => hp) ⟨hb.conserved, ?_, ?_, hb.sends, hb.answered⟩ ?_,
    h.remote.tasks, h.remote.pending, fun frame hin => (h.remote.lane frame hin).mono fun p hp _ => hp,
     h.remote.done, h.remote.received⟩, ?_⟩
  · -- one more is issued, and the rest of the books stand
    intro i
    have hle : _ + _ + (r.issue v).offering i ≤ _ := hb.untaken i
    rw [hcons]
    omega
  · intro i
    have := hb.once i
    rw [hcons]
    by_cases hiv : v = i
    · subst hiv
      rw [here_self]
      omega
    · rw [here, if_neg hiv]
      omega
  · -- numbers stay below the count
    intro i hin
    show _ ∧ i.number < (v :: r.ledger.issued).length
    rw [List.length_cons]
    rcases List.mem_cons.mp hin with rfl | hin
    · exact ⟨hside, by omega⟩
    · obtain ⟨hs, hlt⟩ := h.owner.relayed i hin
      exact ⟨hs, by omega⟩
  · unfold Untaken
    rw [hcons, here_self]
    have : (r.issue v).offering v = r.offering v := rfl
    omega

theorem PairOk.relaySend (h : PairOk o r {}) (hrun : r.sched.running me = some task)
    {e : EndpointId} {parts : NativeRelayChannel} (hopen : r.endpoints[e]? = some (some parts))
    (hv : v = r.newItem c v.value) : PairOk o ((r.issue v).relaySend me e parts v) {} := by
  obtain ⟨hissued, huntaken⟩ := h.issue hv
  have hflushed := hissued.flushChanReap
  unfold Remote.relaySend
  dsimp only
  split
  · exact hflushed.sendDone fun hne => by cases hne
  · have huntaken' : Untaken o (r.issue v).flushChanReap v := by
      have hzero : tally (ChanFrame.offers v) (r.reap.map .release) = 0 := by
        refine tally_eq_zero fun frame hin => ?_
        obtain ⟨id, -, rfl⟩ := List.mem_map.mp hin
        rfl
      replace huntaken : tally (here v) o.ledger.accepted + o.offered v +
        tally (ChanFrame.offers v) r.out < _ := huntaken
      show tally (here v) o.ledger.accepted + o.offered v +
        tally (ChanFrame.offers v) (r.out ++ r.reap.map .release) <
          _ + tally (here v) (r.issue v).ledger.issued
      rw [tally_append]
      omega
    have hrun' : (r.issue v).flushChanReap.sched.running me = some task := hrun
    refine hflushed.begin hrun' rfl rfl hopen ⟨fun _ => rfl, fun _ => rfl⟩
      (fun i => hflushed.owner.untaken_le huntaken' i) ?_ fun _ _ hne => by cases hne
    intro id corr v' heq
    obtain ⟨-, rfl, rfl⟩ := ChanFrame.send.inj heq
    exact ⟨by rw [hv]; rfl, e, parts, rfl⟩

theorem PairOk.relayRecv (h : PairOk o r {}) (hrun : r.sched.running me = some task)
    {e : EndpointId} {parts : NativeRelayChannel} (hopen : r.endpoints[e]? = some (some parts)) :
    PairOk o (r.relayRecv me e parts) {} := by
  have hflushed := h.flushChanReap
  refine hflushed.begin hrun rfl rfl hopen ⟨fun _ => rfl, fun _ => rfl⟩
    (fun i => hflushed.owner.books.untaken i) (fun _ _ _ hne => by cases hne) ?_
  intro id corr heq
  obtain ⟨rfl, rfl⟩ := ChanFrame.recv.inj heq
  exact ⟨e, parts, rfl, rfl⟩

theorem PairOk.relayClose (h : PairOk o r l) {parts : NativeRelayChannel} :
    PairOk o (r.relayClose parts) l := by
  refine h.flushChanReap.emit (fun i => Nat.zero_add _) ?_ rfl rfl
  intro frame hin
  obtain rfl := List.mem_singleton.mp hin
  exact ⟨fun _ => rfl, fun _ => rfl⟩

/-! ## Answers -/

/-- The value an answer carries. -/
def ChanFrame.inHand : ChanFrame V → List (Item V)
  | .value _ v => [v]
  | _ => []

/-- The owner's next frame leaves the lane. -/
theorem PairOk.popOwner {frame : ChanFrame V} {rest : List (ChanFrame V)}
    (h : PairOk o r {}) (hout : o.out = frame :: rest) :
    PairOk { o with out := rest } r { hand := frame.inHand } := by
  have hb := h.owner.books
  have hmem : ∀ f ∈ rest, f ∈ o.out := fun f hf => hout ▸ List.mem_cons_of_mem _ hf
  refine ⟨⟨h.owner.tasks, h.owner.queues,
    ⟨fun corr v hin => h.owner.frames.value corr v (hmem _ hin),
      fun corr hin => h.owner.frames.ack corr (hmem _ hin)⟩,
    ⟨?_, hb.untaken, hb.once, hb.sends, ?_⟩, h.owner.ledger, h.owner.relayed⟩, h.remote⟩
  · intro i
    have hcons : o.held i + r.held i + 0 = _ := hb.conserved i
    have hhand : tally (here i) frame.inHand = frame.carries i := by
      cases frame <;> rfl
    unfold Owner.held at *
    rw [hout, tally_cons] at hcons
    dsimp only
    omega
  · intro corr
    have hans := hb.answered corr
    unfold Owner.waiting Owner.answers at *
    rw [hout, tally_cons] at hans
    dsimp only at *
    omega

/-- An operation that was answered is no longer pending. -/
theorem PairOk.resolved (h : PairOk o r l) (hnone : r.asking corr + o.waiting corr +
    o.answers corr + tally (due corr) l.owed = 0) :
    PairOk o { r with pending := Function.update r.pending corr none } l := by
  have hb := h.owner.books
  refine ⟨h.owner.remote (fun p hp _ => hp) ⟨hb.conserved, hb.untaken, hb.once, hb.sends, ?_⟩
    h.owner.relayed, h.remote.tasks, ?_,
    fun frame hin => (h.remote.lane frame hin).mono fun p hp _ => hp, h.remote.done,
    h.remote.received⟩
  · intro corr'
    have hans := hb.answered corr'
    unfold Remote.asking Remote.due at *
    dsimp only
    rw [Function.update_apply]
    split
    · rename_i heq
      subst heq
      omega
    · exact hans
  · intro corr' p hp
    dsimp only at hp
    rw [Function.update_apply] at hp
    split at hp
    · cases hp
    · exact h.remote.pending corr' p hp

/-- What an answer found pending is done with, according to what the answer says. -/
theorem PairOk.resolveFound {frame : ChanFrame V} {p : PendingChanOp}
    (h : PairOk o r { hand := frame.inHand }) (hp : PendingOk r.sched r.nextCorr corr p)
    (hvalue : ∀ corr' i, frame = .value corr' i →
      r.RecvAt corr i.chan ∧ Portable.crossError i.value = none)
    (hack : ∀ corr', frame = .ack corr' → ∃ i ∈ o.ledger.accepted, r.SendAt corr i) :
    PairOk o (r.resolveFound p frame) {} := by
  -- a task still waiting is in this very operation
  have hlive : r.sched.channelWaiterLive p.task p.epoch = true → ∃ task q,
      r.sched.task? p.task = some task ∧ task.parkedOnChannel = true ∧
        task.park = some q ∧ q.corr = corr := by
    intro hl
    obtain ⟨task, htask, hon, hepoch, -⟩ := Sched.channelWaiterLive_eq_true hl
    obtain ⟨q, hq, hcorr⟩ := hp.parked task htask hepoch
    exact ⟨task, q, htask, hon, hq, hcorr⟩
  cases frame with
  | ack corr' =>
    obtain ⟨i, hi, hat⟩ := hack corr' rfl
    unfold Remote.resolveFound
    dsimp only
    split
    · rename_i hl
      obtain ⟨task, q, htask, hon, hq, hcorr⟩ := hlive hl
      refine h.wake htask hon (fun _ => rfl) rfl rfl (fun _ hne => by cases hne) ?_
      intro _ e parts corr'' i' hpark
      obtain ⟨e', parts', rfl⟩ := hat q ⟨p.task, task, htask, hq⟩ hcorr
      rw [hq, Option.some.injEq] at hpark
      obtain ⟨-, -, -, rfl⟩ := RelayPark.send.inj hpark
      exact hi
    · exact h
  | value corr' i =>
    obtain ⟨hat, hcross⟩ := hvalue corr' i rfl
    unfold Remote.resolveFound
    dsimp only
    split
    · rename_i hl
      obtain ⟨task, q, htask, hon, hq, hcorr⟩ := hlive hl
      refine h.wake htask hon (fun _ => rfl) rfl rfl ?_ (fun hne => by cases hne)
      rintro i' heq
      obtain rfl := Wake.channelRecv.inj heq
      obtain ⟨e, parts, rfl, hhome⟩ := hat q ⟨p.task, task, htask, hq⟩ hcorr
      exact ⟨hcross, e, parts, corr, hq, hhome⟩
    · refine h.emit (fun _ => rfl) ?_ rfl rfl
      intro frame hin
      obtain rfl := List.mem_singleton.mp hin
      exact ⟨fun _ => rfl, fun _ => rfl⟩
  | closedFor corr' =>
    unfold Remote.resolveFound
    dsimp only
    split
    · rename_i hl
      obtain ⟨task, q, htask, hon, -⟩ := hlive hl
      exact h.wake htask hon (fun _ => rfl) rfl rfl (fun _ hne => by cases hne)
        fun hne => by cases hne
    · exact h
  | recvError corr' message =>
    unfold Remote.resolveFound
    dsimp only
    split
    · rename_i hl
      obtain ⟨task, q, htask, hon, -⟩ := hlive hl
      exact h.wake htask hon (fun _ => rfl) rfl rfl (fun _ hne => by cases hne)
        fun hne => by cases hne
    · exact h
  | _ => exact h

/-- An answer is applied by the remote VM's agent. -/
theorem PairOk.applyFrame {frame : ChanFrame V} {rest : List (ChanFrame V)}
    (h : PairOk o r {}) (hout : o.out = frame :: rest) :
    PairOk { o with out := rest } (r.applyFrame frame) {} := by
  have hpop := h.popOwner hout
  have hin : frame ∈ o.out := hout ▸ List.mem_cons_self
  -- an answer to `corr` finds it pending, and is the only thing under way for it
  have hresolve : ∀ corr, frame.answers corr = 1 →
      (∀ corr' i, frame = .value corr' i → corr' = corr) →
      (∀ corr', frame = .ack corr' → corr' = corr) →
      PairOk { o with out := rest } (r.resolvePending corr frame) {} := by
    intro corr hans hvalue hack
    have hfull := h.owner.books.answered corr
    unfold Owner.answers at hfull
    rw [hout, tally_cons, hans] at hfull
    obtain ⟨p, hp⟩ := Option.isSome_iff_exists.mp
      (Remote.pending_of_due (show 0 < r.due corr by omega))
    rw [Remote.due_of_pending hp] at hfull
    have hpending := h.remote.pending corr p hp
    unfold Remote.resolvePending
    rw [hp]
    refine (hpop.resolved ?_).resolveFound hpending ?_ ?_
    · show r.asking corr + o.waiting corr + tally (ChanFrame.answers corr) rest + 0 = 0
      omega
    · rintro corr' i rfl
      obtain rfl := hvalue corr' i rfl
      exact h.owner.frames.value corr' i hin
    · rintro corr' rfl
      obtain rfl := hack corr' rfl
      exact h.owner.frames.ack corr' hin
  unfold Remote.applyFrame
  refine PairOk.flushChanReap ?_
  cases frame with
  | ack corr =>
    exact hresolve corr (due_self corr) (fun _ _ hne => by cases hne)
      fun corr' heq => (ChanFrame.ack.inj heq).symm
  | value corr v =>
    exact hresolve corr (due_self corr) (fun corr' i heq => (ChanFrame.value.inj heq).1.symm)
      fun _ hne => by cases hne
  | closedFor corr =>
    exact hresolve corr (due_self corr) (fun _ _ hne => by cases hne) fun _ hne => by cases hne
  | recvError corr message =>
    exact hresolve corr (due_self corr) (fun _ _ hne => by cases hne) fun _ hne => by cases hne
  | _ => exact hpop

/-! ## Resuming -/

/-- Emit one frame that is not an operation. -/
theorem PairOk.emitOne {l l' : Limbo V} (h : PairOk o r l) {frame : ChanFrame V}
    (hreturns : ∀ i, frame.returns i + tally (here i) l'.hand = tally (here i) l.hand)
    (hplain : (∀ i, frame.offers i = 0) ∧ ∀ corr, frame.asks corr = 0)
    (howed : l'.owed = l.owed) (hbegun : l'.begun = l.begun) : PairOk o (r.chanEmit frame) l' := by
  refine h.emit (fun i => ?_) ?_ howed hbegun
  · rw [tally_cons, tally_nil, Nat.add_zero]
    exact hreturns i
  · intro f hin
    obtain rfl := List.mem_singleton.mp hin
    exact hplain

/-- The end of a suspended relayed send. -/
theorem PairOk.resumeSend (h : PairOk o r {}) {e : EndpointId} {parts : NativeRelayChannel}
    {wake : Option (Wake V)} {cancelled : Bool}
    (hacked : wake = some .channelSendOk → v ∈ o.ledger.accepted) :
    PairOk o (r.resumePark t (.send e parts corr v) wake cancelled) {} := by
  unfold Remote.resumePark
  dsimp only
  split
  · have hcancel : PairOk o (if Owner.taken wake then r else
        r.chanEmit (.cancel parts.chan corr)) {} := by
      split
      · exact h
      · exact h.emitOne (fun _ => rfl) ⟨fun _ => rfl, fun _ => rfl⟩ rfl rfl
    exact hcancel.takeCancellation.sendDone fun hne => by cases hne
  · split
    · exact h.sendDone fun _ => hacked rfl
    · exact h.sendDone fun hne => by cases hne
    · exact h.sendDone fun hne => by cases hne
    · exact h.sendDone fun hne => by cases hne

/-- The end of a suspended relayed receive. -/
theorem PairOk.resumeRecv (h : PairOk o r { hand := task.inHand }) {e : EndpointId}
    {parts : NativeRelayChannel}
    (hhanded : ∀ i, task.wake = some (.channelRecv i) →
      Portable.crossError i.value = none ∧ parts.home = i.chan) :
    PairOk o (r.resumePark t (.recv e parts corr) task.wake task.cancelRequested) {} := by
  have hretract : ∀ {r : Remote V}, PairOk o r {} →
      PairOk o ((r.chanEmit (.cancel parts.chan corr)).takeCancellation t) {} :=
    fun hr => (hr.emitOne (fun _ => rfl) ⟨fun _ => rfl, fun _ => rfl⟩ rfl rfl).takeCancellation
  unfold Remote.resumePark Task.inHand at *
  dsimp only
  cases hwake : task.wake with
  | none =>
    rw [hwake] at h
    split
    · exact hretract h
    · exact h
  | some w =>
    rw [hwake] at h
    cases w with
    | channelRecv i =>
      obtain ⟨hcross, hhome⟩ := hhanded i hwake
      replace h : PairOk o r { hand := [i] } := h
      dsimp only
      split
      · rw [hcross, Option.isNone_none, if_pos rfl]
        have hback : PairOk o (r.chanEmit (.ret parts.chan i)) {} :=
          h.emitOne (fun _ => by rw [tally_cons]; rfl) ⟨fun _ => rfl, fun _ => rfl⟩ rfl rfl
        exact hback.takeCancellation
      · exact h.receive hhome.symm rfl rfl rfl
    | channelSendOk | channelClosed | channelErr m =>
      split
      · exact hretract h
      · exact h

theorem PairOk.load (h : PairOk o r {}) (hload : r.load t = some r') : PairOk o r' {} := by
  unfold Remote.load at hload
  cases htask : r.sched.task? t with
  | none =>
    rw [htask] at hload
    cases hload
  | some task =>
    rw [htask] at hload
    dsimp only at hload
    split at hload
    · cases hload
    have hok := h.remote.tasks t task htask
    have hloaded := h.loadTask htask
    cases hpark : task.park with
    | none =>
      rw [hpark] at hload
      obtain rfl := Option.some.inj hload
      -- no park of this side: nothing is in hand
      rw [Task.inHand, (hok.idle hpark).2] at hloaded
      exact hloaded
    | some p =>
      rw [hpark] at hload
      obtain rfl := Option.some.inj hload
      cases p with
      | send e parts corr v =>
        -- a sender is never handed a value
        have hhand : task.inHand = [] := by
          unfold Task.inHand
          split
          · rename_i i hi
            obtain ⟨-, _, _, _, hrecv, -⟩ := hok.handed i hi
            rw [hpark] at hrecv
            cases hrecv
          · rfl
        rw [hhand] at hloaded
        exact hloaded.resumeSend fun hwake => hok.acked hwake e parts corr v hpark
      | recv e parts corr =>
        refine hloaded.resumeRecv fun i hi => ?_
        -- what a receiver was handed crossed the link to it
        obtain ⟨hcross, e', parts', corr', hrecv, hhome⟩ := hok.handed i hi
        rw [hpark, Option.some.injEq] at hrecv
        obtain ⟨-, rfl, -⟩ := RelayPark.recv.inj hrecv
        exact ⟨hcross, hhome⟩

/-! ## Steps -/

/-- The endpoint objects change, except those in use. -/
theorem PairOk.endpoints (h : PairOk o r {}) {endpoints : List (Option NativeRelayChannel)}
    {reap : List HostedId}
    (hkept : ∀ p, r.sched.Parks p → r.endpoints[p.endpoint]? = some (some p.parts) →
      endpoints[p.endpoint]? = some (some p.parts)) :
    PairOk o { r with endpoints, reap } {} := by
  have hb := h.owner.books
  refine ⟨h.owner.remote (fun p hp _ => hp)
    ⟨hb.conserved, hb.untaken, hb.once, hb.sends, hb.answered⟩ h.owner.relayed, ?_,
    h.remote.pending, fun frame hin => (h.remote.lane frame hin).mono fun p hp _ => hp,
    h.remote.done, h.remote.received⟩
  intro t task htask
  have hok := h.remote.tasks t task htask
  refine ⟨hok.epoch, hok.idle, hok.asleep, hok.handed, hok.acked, ?_⟩
  intro p hp
  obtain ⟨hlt, hget⟩ := hok.opened p hp
  exact ⟨hlt, hkept p ⟨t, task, htask, hp⟩ hget⟩

omit [DecidableEq V] [Portable V] in
theorem Remote.ne_of_unused {e : EndpointId} (h : r.unused e = true) {p : RelayPark V}
    (hp : r.sched.Parks p) : p.endpoint ≠ e := by
  obtain ⟨t, task, htask, hpark⟩ := hp
  have hslot := List.all_eq_true.mp h (some task)
    (List.mem_of_getElem? (Sched.task?_eq_some.mp htask))
  rw [Option.bind_some, hpark, Option.all_some] at hslot
  exact bne_iff_ne.mp hslot

theorem PairOk.step (h : PairOk o r {}) {a : Remote.Action V} (hstep : r.step a = some r') :
    PairOk o r' {} := by
  cases a with
  | spawn =>
    obtain rfl := Option.some.inj hstep
    exact h.allocTask
  | complete t =>
    obtain ⟨task, hrun, rfl⟩ := Option.map_eq_some_iff.mp hstep
    exact h.complete hrun
  | load t => exact h.load hstep
  | cancel t =>
    obtain rfl := Option.some.inj hstep
    exact h.requestCancel
  | send me e v =>
    obtain ⟨task, hrun, hrest⟩ := Option.bind_eq_some_iff.mp hstep
    obtain ⟨parts, hget, rfl⟩ := Option.map_eq_some_iff.mp hrest
    exact h.relaySend hrun (Option.join_eq_some_iff.mp hget) rfl
  | recv me e =>
    obtain ⟨task, hrun, hrest⟩ := Option.bind_eq_some_iff.mp hstep
    obtain ⟨parts, hget, rfl⟩ := Option.map_eq_some_iff.mp hrest
    exact h.relayRecv hrun (Option.join_eq_some_iff.mp hget)
  | close me e =>
    obtain ⟨task, hrun, hrest⟩ := Option.bind_eq_some_iff.mp hstep
    obtain ⟨parts, hget, rfl⟩ := Option.map_eq_some_iff.mp hrest
    exact h.relayClose
  | drop e =>
    rw [Remote.step] at hstep
    split at hstep
    · rename_i hunused
      obtain ⟨parts, hget, rfl⟩ := Option.map_eq_some_iff.mp hstep
      refine h.endpoints fun p hp hopen => ?_
      rw [List.getElem?_set_ne (Ne.symm (Remote.ne_of_unused hunused hp))]
      exact hopen
    · cases hstep
  | flush =>
    obtain rfl := Option.some.inj hstep
    exact h.flushChanReap

end Quoin.Channel
