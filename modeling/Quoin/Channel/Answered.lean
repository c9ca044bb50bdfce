import Mathlib
import Quoin.Channel.Served
import Quoin.Channel.Endpoint

/-!
# Quoin — a relayed operation has one answer

A relayed operation is registered as pending, and its entry is removed by the
one answer the owner sends. Until then it is in one place: on its way to the
owner, waiting in a channel's queue, or answered by a frame on its way back
(`AnswerOk.balanced`). A task that gives up sends a `Cancel` after it and leaves
the entry to whatever the owner answers.

If the operation was answered before the `Cancel` arrives, that answer removes
the entry. If it still waits, the owner takes it out of the queue and answers
nothing, and the entry stays for good.

## Results

* `AnswerOk.step` — every step of the two VMs keeps the books of what is pending;
* `relayed_answered_once` — in runs whose `Cancel`s find the operation answered, each operation is
  answered once, and nothing answered stays pending;
* `retracted_never_answered` — a receive that is retracted while it waits stays pending for good.
-/

namespace Quoin.Channel

open Trans

variable {V : Type} {o o' : Owner V} {r r' : Remote V} {corr : Corr} {t me : TaskId}
  {task : Task (RelayPark V) V} {g : Task (RelayPark V) V → Task (RelayPark V) V}
  {frame : ChanFrame V} {rest : List (ChanFrame V)}

/-! ## The invariant -/

/-- What a task of the remote VM waits for. -/
structure AskerOk (pending : Corr → Option PendingChanOp) (seq : Nat) (nextCorr : Corr)
    (task : Task (RelayPark V) V) : Prop where
  epoch : task.parkEpoch ≤ seq
  idle : task.park = none → task.parkedOnChannel = false ∧ task.wake = none
  issued : ∀ p, task.park = some p → p.corr < nextCorr
  /-- It was woken by the answer. -/
  answered : ∀ p, task.park = some p → task.wake ≠ none → pending p.corr = none
  /-- It can run again. -/
  resumed : ∀ p, task.park = some p → task.parkedOnChannel = false →
    task.wake ≠ none ∨ task.cancelRequested = true

/-- An operation is not sent after its retraction. -/
def Before (frame later : ChanFrame V) : Prop :=
  ∀ id corr, frame = .cancel id corr → later.asks corr = 0

structure AnswerOk (o : Owner V) (r : Remote V) : Prop where
  balanced : ∀ corr, r.asking corr + o.waiting corr + o.answers corr = r.due corr
  first : 1 ≤ r.nextCorr
  tasks : ∀ t task, r.sched.task? t = some task →
    AskerOk r.pending r.sched.parkSeq r.nextCorr task
  pending : ∀ corr p, r.pending corr = some p → PendingOk r.sched r.nextCorr corr p
  /-- Whoever left a pending operation will have it retracted, if it is not answered. -/
  left : ∀ corr, (r.pending corr).isSome → (∃ p, r.sched.Parks p ∧ p.corr = corr) ∨
    0 < o.answers corr ∨ ∃ id, .cancel id corr ∈ r.out
  retracts : ∀ id corr, .cancel id corr ∈ r.out → corr < r.nextCorr
  ordered : r.out.Pairwise Before

theorem AskerOk.mono {pending pending' : Corr → Option PendingChanOp} {seq seq' : Nat}
    {nextCorr nextCorr' : Corr} (h : AskerOk pending seq nextCorr task) (hseq : seq ≤ seq')
    (hcorr : nextCorr ≤ nextCorr')
    (hpending : ∀ corr, corr < nextCorr → pending corr = none → pending' corr = none) :
    AskerOk pending' seq' nextCorr' task :=
  ⟨Nat.le_trans h.epoch hseq, h.idle, fun p hp => Nat.lt_of_lt_of_le (h.issued p hp) hcorr,
    fun p hp hwake => hpending _ (h.issued p hp) (h.answered p hp hwake), h.resumed⟩

/-- A task that has just been loaded, or allocated. -/
theorem AskerOk.fresh {pending : Corr → Option PendingChanOp} {seq : Nat} {nextCorr : Corr}
    (hepoch : task.parkEpoch ≤ seq) (hpark : task.park = none) (hoff : task.parkedOnChannel = false)
    (hwake : task.wake = none) : AskerOk pending seq nextCorr task := by
  have hno : ∀ p, task.park ≠ some p := by
    intro p hp
    rw [hpark] at hp
    cases hp
  exact ⟨hepoch, fun _ => ⟨hoff, hwake⟩, fun p hp => absurd hp (hno p),
    fun p hp => absurd hp (hno p), fun p hp => absurd hp (hno p)⟩

/-- The owner answers, or does something else. -/
theorem AnswerOk.serves (h : AnswerOk o r) (hserves : ∀ corr, Serves corr 0 o o') :
    AnswerOk o' r := by
  refine ⟨fun corr => ?_, h.first, h.tasks, h.pending, fun corr hpending => ?_, h.retracts, h.ordered⟩
  · have hbalanced := h.balanced corr
    have hengaged := (hserves corr).engaged
    omega
  · rcases h.left corr hpending with hparks | hanswer | hcancel
    · exact .inl hparks
    · exact .inr (.inl (Nat.lt_of_lt_of_le hanswer (hserves corr).answers))
    · exact .inr (.inr hcancel)

/-! ## The tasks of the remote VM -/

/-- The tasks change; one that leaves a pending operation has it retracted. -/
theorem AnswerOk.sched (h : AnswerOk o r) {sched : Sched (RelayPark V) V}
    (htasks : ∀ t task, sched.task? t = some task → AskerOk r.pending sched.parkSeq r.nextCorr task)
    (hpending : ∀ corr p, r.pending corr = some p → PendingOk sched r.nextCorr corr p)
    (hleft : ∀ p, r.sched.Parks p → (r.pending p.corr).isSome →
      sched.Parks p ∨ ∃ id, .cancel id p.corr ∈ r.out) :
    AnswerOk o { r with sched := sched } := by
  refine ⟨h.balanced, h.first, htasks, hpending, fun corr hsome => ?_, h.retracts, h.ordered⟩
  rcases h.left corr hsome with ⟨p, hparks, rfl⟩ | hrest
  · rcases hleft p hparks hsome with hparks | hcancel
    · exact .inl ⟨p, hparks, rfl⟩
    · exact .inr (.inr hcancel)
  · exact .inr hrest

/-- A task is changed, and stays where it is suspended. -/
theorem AnswerOk.modifyTask (h : AnswerOk o r)
    (hepoch : ∀ task, (g task).parkEpoch = task.parkEpoch)
    (hpark : ∀ task, (g task).park = task.park)
    (hok : ∀ task, r.sched.task? t = some task →
      AskerOk r.pending r.sched.parkSeq r.nextCorr (g task)) :
    AnswerOk o { r with sched := r.sched.modifyTask t g } := by
  refine h.sched (fun u task' htask' => ?_)
    (fun corr p hp => (h.pending corr p hp).modifyTask hepoch hpark) fun p hparks _ => .inl ?_
  · rw [Sched.parkSeq_modifyTask]
    obtain ⟨old, hold, ⟨rfl, -⟩ | ⟨rfl, rfl⟩⟩ := Sched.of_task?_modifyTask htask'
    · exact h.tasks u _ hold
    · exact hok old hold
  · obtain ⟨u, task, htask, hp⟩ := hparks
    by_cases hut : u = t
    · refine ⟨u, g task, ?_, (hpark task).trans hp⟩
      rw [Sched.task?_modifyTask, if_pos hut, ← hut, htask]
      rfl
    · refine ⟨u, task, ?_, hp⟩
      rw [Sched.task?_modifyTask, if_neg hut]
      exact htask

theorem AnswerOk.requestCancel (h : AnswerOk o r) :
    AnswerOk o { r with sched := r.sched.requestCancel t } := by
  refine h.modifyTask (fun _ => rfl) (fun _ => rfl) fun task htask => ?_
  have hok := h.tasks t task htask
  refine ⟨hok.epoch, fun hidle => ⟨?_, (hok.idle hidle).2⟩, hok.issued, hok.answered,
    fun _ _ _ => .inr rfl⟩
  dsimp only
  rw [(hok.idle hidle).1]
  split <;> rfl

/-- The task that raises its cancellation is in no operation any more. -/
theorem AnswerOk.takeCancellation (h : AnswerOk o r)
    (hidle : ∀ task, r.sched.task? t = some task → task.park = none) :
    AnswerOk o (r.takeCancellation t) := by
  refine h.modifyTask (fun _ => rfl) (fun _ => rfl) fun task htask => ?_
  have hok := h.tasks t task htask
  have hpark := hidle task htask
  exact .fresh hok.epoch hpark (hok.idle hpark).1 (hok.idle hpark).2

/-- The answer wakes the task that waits for it. -/
theorem AnswerOk.wake (h : AnswerOk o r) {w : Wake V}
    (hgone : ∀ task p, r.sched.task? t = some task → task.park = some p → r.pending p.corr = none)
    (hon : ∀ task, r.sched.task? t = some task → task.park ≠ none) :
    AnswerOk o (r.wakeChannelTask t w) := by
  refine h.modifyTask (fun _ => rfl) (fun _ => rfl) fun task htask => ?_
  have hok := h.tasks t task htask
  exact ⟨hok.epoch, fun hidle => absurd hidle (hon task htask), hok.issued,
    fun p hp _ => hgone task p htask hp, fun _ _ _ => .inl (Option.some_ne_none w)⟩

theorem AnswerOk.allocTask (h : AnswerOk o r) :
    AnswerOk o { r with sched := r.sched.allocTask } := by
  refine h.sched (fun u task htask => ?_) (fun corr p hp => (h.pending corr p hp).allocTask)
    fun p hparks _ => .inl ?_
  · rw [Sched.parkSeq_allocTask]
    rcases Sched.of_task?_allocTask htask with htask | rfl
    · exact h.tasks u task htask
    · exact .fresh (Nat.zero_le _) rfl rfl rfl
  · obtain ⟨u, task, htask, hp⟩ := hparks
    exact ⟨u, task, Sched.task?_allocTask htask, hp⟩

theorem AnswerOk.complete (h : AnswerOk o r) (hrun : r.sched.running t = some task) :
    AnswerOk o { r with sched := r.sched.complete t } := by
  obtain ⟨htask, hidle, -⟩ := Sched.running_eq_some hrun
  refine h.sched (fun u task' htask' => h.tasks u task' (Sched.of_task?_complete htask'))
    (fun corr p hp => (h.pending corr p hp).complete) fun p hparks _ => .inl ?_
  obtain ⟨u, task', htask', hp⟩ := hparks
  refine ⟨u, task', ?_, hp⟩
  rw [Sched.complete, Sched.task?_setTask htask]
  split
  · rename_i hut
    rw [hut, htask, Option.some.injEq] at htask'
    rw [← htask', hidle] at hp
    cases hp
  · exact htask'

/-- A task goes on, and has retracted the operation if it is still pending. -/
theorem AnswerOk.loadTask (h : AnswerOk o r) (htask : r.sched.task? t = some task)
    (hretracted : ∀ p, task.park = some p → (r.pending p.corr).isSome →
      ∃ id, .cancel id p.corr ∈ r.out) :
    AnswerOk o { r with sched := r.sched.loadTaskContext t } := by
  have hseq : (r.sched.loadTaskContext t).parkSeq = r.sched.parkSeq + 1 :=
    Sched.parkSeq_modifyTask
  refine h.sched (fun u task' htask' => ?_) (fun corr p hp => (h.pending corr p hp).loadTaskContext)
    fun p hparks hpending => ?_
  · rw [hseq]
    obtain ⟨old, hold, hcase⟩ := Sched.of_task?_modifyTask htask'
    replace hold : r.sched.task? u = some old := hold
    obtain ⟨rfl, -⟩ | ⟨rfl, rfl⟩ := hcase
    · exact (h.tasks u _ hold).mono (Nat.le_succ _) (Nat.le_refl _) fun _ _ hnone => hnone
    · exact .fresh (Nat.le_refl _) rfl rfl rfl
  · obtain ⟨u, task', htask', hp⟩ := hparks
    by_cases hut : u = t
    · rw [hut, htask, Option.some.injEq] at htask'
      exact .inr (hretracted p (htask' ▸ hp) hpending)
    · refine .inl ⟨u, task', ?_, hp⟩
      have hother := Sched.task?_modifyTask (s := { r.sched with parkSeq := r.sched.parkSeq + 1 })
        (t := t) (u := u) (g := fun task =>
          { task with parkEpoch := r.sched.parkSeq + 1, parkedOnChannel := false, wake := none, park := none })
      rw [if_neg hut] at hother
      exact hother.trans htask'

/-! ## Frames -/

/-- The books and the endpoints are not what an answer rests on. -/
theorem AnswerOk.record (h : AnswerOk o r) {ledger : Ledger V}
    {endpoints : List (Option NativeRelayChannel)} {reap : List HostedId} :
    AnswerOk o { r with ledger, endpoints, reap } :=
  ⟨h.balanced, h.first, h.tasks, h.pending, h.left, h.retracts, h.ordered⟩

/-- Frames are emitted that ask for nothing. -/
theorem AnswerOk.emit (h : AnswerOk o r) {frames : List (ChanFrame V)}
    (hasks : ∀ frame ∈ frames, ∀ corr, frame.asks corr = 0)
    (hcancels : ∀ id corr, .cancel id corr ∈ frames → corr < r.nextCorr) :
    AnswerOk o { r with out := r.out ++ frames } := by
  refine ⟨fun corr => ?_, h.first, h.tasks, h.pending, fun corr hsome => ?_, fun id corr hin => ?_, ?_⟩
  · have hzero : tally (ChanFrame.asks corr) frames = 0 :=
      tally_eq_zero fun frame hin => hasks frame hin corr
    have hbalanced := h.balanced corr
    unfold Remote.asking at *
    rw [tally_append, hzero, Nat.add_zero]
    exact hbalanced
  · rcases h.left corr hsome with hparks | hanswer | ⟨id, hin⟩
    · exact .inl hparks
    · exact .inr (.inl hanswer)
    · exact .inr (.inr ⟨id, List.mem_append_left _ hin⟩)
  · rcases List.mem_append.mp hin with hin | hin
    · exact h.retracts id corr hin
    · exact hcancels id corr hin
  · refine List.pairwise_append.mpr ⟨h.ordered, ?_, ?_⟩
    · exact List.pairwise_of_forall_mem_list fun _ _ later hin id corr _ => hasks later hin corr
    · exact fun _ _ later hin id corr _ => hasks later hin corr

theorem AnswerOk.flushChanReap (h : AnswerOk o r) : AnswerOk o r.flushChanReap := by
  have hreleases : AnswerOk o { r with out := r.out ++ r.reap.map .release } := by
    refine h.emit (fun frame hin corr => ?_) fun id corr hin => ?_
    · obtain ⟨id, -, rfl⟩ := List.mem_map.mp hin
      rfl
    · obtain ⟨id', -, heq⟩ := List.mem_map.mp hin
      cases heq
  exact hreleases.record

/-- One frame that is no operation. -/
theorem AnswerOk.chanEmit (h : AnswerOk o r) (hasks : ∀ corr, frame.asks corr = 0)
    (hcancel : ∀ id corr, frame = .cancel id corr → corr < r.nextCorr) :
    AnswerOk o (r.chanEmit frame) := by
  refine h.emit (fun frame' hin corr => ?_) fun id corr hin => ?_
  · rw [List.mem_singleton.mp hin]
    exact hasks corr
  · exact hcancel id corr (List.mem_singleton.mp hin).symm

/-! ## Relayed operations -/

theorem AnswerOk.pending_nextCorr (h : AnswerOk o r) : r.pending r.nextCorr = none := by
  cases hp : r.pending r.nextCorr with
  | none => rfl
  | some p => exact absurd (h.pending _ p hp).issued (Nat.lt_irrefl _)

/-- An operation begins under a fresh correlation. -/
theorem AnswerOk.begin (h : AnswerOk o r) (hrun : r.sched.running me = some task) {chan : HostedId}
    {make : Corr → ChanFrame V} {p : RelayPark V} (hcorr : p.corr = r.nextCorr)
    (hmake : ∀ corr, (make r.nextCorr).asks corr = due corr r.nextCorr) :
    AnswerOk o ((r.beginOp me chan make).park me p) := by
  obtain ⟨htask, hidle, hpos⟩ := Sched.running_eq_some hrun
  have htaskOk := h.tasks me task htask
  have hfresh := h.pending_nextCorr
  have hnot : ∀ id corr, make r.nextCorr ≠ .cancel id corr := by
    intro id corr heq
    have hone := hmake r.nextCorr
    rw [heq, due_self] at hone
    cases hone
  have hepoch : ((r.sched.task? me).map Task.parkEpoch).getD 0 = task.parkEpoch := by
    rw [htask]
    rfl
  -- the park stores the request under the fresh number, for the task's epoch
  have hpending : ((r.beginOp me chan make).park me p).pending =
      Function.update r.pending r.nextCorr (some ⟨me, task.parkEpoch, chan⟩) := by
    unfold Remote.park Remote.beginOp
    dsimp only
    rw [hepoch]
  have hother : ∀ corr, corr < r.nextCorr →
      Function.update r.pending r.nextCorr (some ⟨me, task.parkEpoch, chan⟩) corr =
        r.pending corr :=
    fun corr hlt => Function.update_of_ne (Nat.ne_of_lt hlt) _ _
  -- who was parked stays so, and the caller is with them
  have hparked : (r.sched.park me p).Parks p := by
    refine ⟨me, { task with parkedOnChannel := true, park := some p }, ?_, rfl⟩
    rw [Sched.park, Sched.task?_modifyTask, if_pos rfl, htask]
    rfl
  have hkept : ∀ q, r.sched.Parks q → (r.sched.park me p).Parks q := by
    rintro q ⟨u, task', htask', hq⟩
    have hut : u ≠ me := by
      rintro rfl
      rw [htask, Option.some.injEq] at htask'
      rw [← htask', hidle] at hq
      cases hq
    refine ⟨u, task', ?_, hq⟩
    rw [Sched.park, Sched.task?_modifyTask, if_neg hut]
    exact htask'
  refine ⟨fun corr => ?_, Nat.le_succ_of_le h.first, fun u task' htask' => ?_, fun corr q hq => ?_,
    fun corr hsome => ?_, fun id corr hin => ?_, ?_⟩
  · -- the new request is the one thing that asks for the new number
    have hbalanced := h.balanced corr
    unfold Remote.due
    rw [hpending]
    unfold Remote.asking Remote.due at *
    show tally (ChanFrame.asks corr) (r.out ++ [make r.nextCorr]) + _ + _ = _
    rw [tally_append, tally_cons, tally_nil, hmake]
    by_cases heq : corr = r.nextCorr
    · rw [heq, hfresh, Option.elim_none] at hbalanced
      rw [heq, due_self, Function.update_self, Option.elim_some]
      omega
    · rw [Function.update_of_ne heq, due, if_neg (Ne.symm heq)]
      omega
  · -- the tasks: only the caller has changed
    rw [hpending, show ((r.beginOp me chan make).park me p).sched.parkSeq = r.sched.parkSeq from
      Sched.parkSeq_modifyTask]
    show AskerOk _ _ (r.nextCorr + 1) task'
    obtain ⟨old, hget, ⟨rfl, -⟩ | ⟨rfl, rfl⟩⟩ := Sched.of_task?_modifyTask htask'
    · refine (h.tasks u _ hget).mono (Nat.le_refl _) (Nat.le_succ _) fun corr hlt hnone => ?_
      rw [hother corr hlt]
      exact hnone
    · obtain rfl : task = old := Option.some.inj (htask.symm.trans hget)
      refine ⟨htaskOk.epoch, fun hne => (by cases hne), fun q hq => ?_, fun q hq hwake => ?_,
        fun q hq hoff => (by cases hoff)⟩
      · obtain rfl := Option.some.inj hq
        exact hcorr ▸ Nat.lt_succ_self _
      · exact absurd (htaskOk.idle hidle).2 hwake
  · -- what is pending: the new request, and those before it
    rw [hpending] at hq
    show PendingOk (r.sched.park me p) (r.nextCorr + 1) corr q
    by_cases heq : corr = r.nextCorr
    · rw [heq, Function.update_self, Option.some.injEq] at hq
      subst hq
      rw [heq, ← hcorr]
      exact pendingOk_park (p := ⟨me, _, _⟩) hpos htaskOk.epoch
    · rw [Function.update_of_ne heq] at hq
      exact (h.pending corr q hq).park (Nat.le_succ _) htask hidle
  · -- what is pending is asked for by the task that has just parked, or as before
    by_cases heq : corr = r.nextCorr
    · exact .inl ⟨p, hparked, hcorr.trans heq.symm⟩
    · rw [hpending, Function.update_of_ne heq] at hsome
      rcases h.left corr hsome with ⟨q, hq, rfl⟩ | hanswer | ⟨id, hin⟩
      · exact .inl ⟨q, hkept q hq, rfl⟩
      · exact .inr (.inl hanswer)
      · exact .inr (.inr ⟨id, List.mem_append_left _ hin⟩)
  · -- the retractions come after what they retract, since the new request is none
    rcases List.mem_append.mp hin with hin | hin
    · exact Nat.lt_succ_of_lt (h.retracts id corr hin)
    · exact absurd (List.mem_singleton.mp hin).symm (hnot id corr)
  · refine List.pairwise_append.mpr ⟨h.ordered, List.pairwise_singleton _ _, ?_⟩
    rintro frame hframe later hlater id corr rfl
    rw [List.mem_singleton.mp hlater, hmake, due, if_neg]
    exact (Nat.ne_of_lt (h.retracts id corr hframe)).symm

/-- A woken task goes on: its operation was answered. -/
theorem AnswerOk.loadWoken (h : AnswerOk o r) (htask : r.sched.task? t = some task)
    (hwake : task.wake ≠ none) : AnswerOk o { r with sched := r.sched.loadTaskContext t } := by
  refine h.loadTask htask fun p hp hsome => ?_
  rw [(h.tasks t task htask).answered p hp hwake] at hsome
  cases hsome

/-- A task that goes on retracts its operation. -/
theorem AnswerOk.loadRetract (h : AnswerOk o r) (htask : r.sched.task? t = some task)
    {p : RelayPark V} (hpark : task.park = some p) (chan : HostedId) :
    AnswerOk o (({ r with sched := r.sched.loadTaskContext t } : Remote V).chanEmit
      (.cancel chan p.corr)) := by
  have hemitted : AnswerOk o (r.chanEmit (.cancel chan p.corr)) := by
    refine h.chanEmit (fun _ => rfl) ?_
    rintro id corr heq
    obtain ⟨-, rfl⟩ := ChanFrame.cancel.inj heq
    exact (h.tasks t task htask).issued p hpark
  refine hemitted.loadTask htask fun q hq _ => ⟨chan, ?_⟩
  obtain rfl : p = q := Option.some.inj (hpark.symm.trans hq)
  exact List.mem_append_right _ (List.mem_singleton_self _)

theorem park_loadTaskContext {sched : Sched (RelayPark V) V}
    (h : (sched.loadTaskContext t).task? t = some task) : task.park = none := by
  obtain ⟨-, -, ⟨-, hne⟩ | ⟨rfl, -⟩⟩ := Sched.of_task?_modifyTask h
  · exact absurd rfl hne
  · rfl

variable [Portable V]

/-- A suspended operation goes on: its task was woken by the answer, or it is cancelled. -/
theorem AnswerOk.resume (h : AnswerOk o r) (htask : r.sched.task? t = some task)
    {p : RelayPark V} (hpark : task.park = some p) (hoff : task.parkedOnChannel = false) :
    AnswerOk o (({ r with sched := r.sched.loadTaskContext t } : Remote V).resumePark t p task.wake
      task.cancelRequested) := by
  have hresumed := (h.tasks t task htask).resumed p hpark hoff
  have hretract := h.loadRetract htask hpark
  cases p with
  | send e parts corr v =>
    unfold Remote.resumePark
    dsimp only
    -- cancelled: its value was taken before, or the send is retracted
    split
    · have hbody : AnswerOk o ((if Owner.taken task.wake then
          ({ r with sched := r.sched.loadTaskContext t } : Remote V)
          else ({ r with sched := r.sched.loadTaskContext t } : Remote V).chanEmit
            (.cancel parts.chan corr)).takeCancellation t) := by
        split
        · rename_i htaken
          refine (h.loadWoken htask ?_).takeCancellation fun _ => park_loadTaskContext
          rintro hnone
          rw [hnone] at htaken
          cases htaken
        · exact (hretract parts.chan).takeCancellation fun _ => park_loadTaskContext
      exact hbody.record
    · -- not cancelled, so it was woken
      rename_i hcancel
      have hloaded := h.loadWoken htask (hresumed.resolve_right hcancel)
      split <;> exact hloaded.record
  | recv e parts corr =>
    unfold Remote.resumePark
    dsimp only
    split
    · split
      · -- a value that came too late to be received goes back
        rename_i v hwake
        have hloaded := h.loadWoken htask (by rw [hwake]; exact Option.some_ne_none _)
        split
        · have hreturned : AnswerOk o (({ r with sched := r.sched.loadTaskContext t } :
              Remote V).chanEmit (.ret parts.chan v)) :=
            hloaded.chanEmit (fun _ => rfl) fun _ _ hne => (by cases hne)
          exact hreturned.takeCancellation fun _ => park_loadTaskContext
        · exact hloaded.takeCancellation fun _ => park_loadTaskContext
      · exact (hretract parts.chan).takeCancellation fun _ => park_loadTaskContext
    · rename_i hcancel
      have hloaded := h.loadWoken htask (hresumed.resolve_right hcancel)
      split
      · exact hloaded.record
      · exact hloaded

theorem AnswerOk.step (h : AnswerOk o r) {a : Remote.Action V} (hstep : r.step a = some r') :
    AnswerOk o r' := by
  cases a with
  | spawn =>
    obtain rfl := Option.some.inj hstep
    exact h.allocTask
  | complete t =>
    obtain ⟨task, hrun, rfl⟩ := Option.map_eq_some_iff.mp hstep
    exact h.complete hrun
  | load t =>
    rw [Remote.step, Remote.load] at hstep
    split at hstep
    · cases hstep
    rename_i task htask
    split at hstep
    · cases hstep
    rename_i hoff
    dsimp only at hstep
    split at hstep
    · rename_i hpark
      obtain rfl := Option.some.inj hstep
      -- nobody waits for an answer here: the task has not parked, or not for a request
      refine h.loadTask htask fun p hp => ?_
      rw [hpark] at hp
      cases hp
    · rename_i p hpark
      obtain rfl := Option.some.inj hstep
      exact h.resume htask hpark (eq_false_of_ne_true hoff)
  | cancel t =>
    obtain rfl := Option.some.inj hstep
    exact h.requestCancel
  | send me e v =>
    obtain ⟨task, hrun, hrest⟩ := Option.bind_eq_some_iff.mp hstep
    obtain ⟨parts, hget, rfl⟩ := Option.map_eq_some_iff.mp hrest
    have hissued : AnswerOk o (r.issue (r.newItem parts.home v)) := h.record
    have hflushed := hissued.flushChanReap
    unfold Remote.relaySend
    dsimp only
    split
    · -- the value does not cross, and nothing is asked
      exact hflushed.record
    · exact hflushed.begin hrun rfl fun _ => rfl
  | recv me e =>
    obtain ⟨task, hrun, hrest⟩ := Option.bind_eq_some_iff.mp hstep
    obtain ⟨parts, hget, rfl⟩ := Option.map_eq_some_iff.mp hrest
    exact h.flushChanReap.begin hrun rfl fun _ => rfl
  | close me e =>
    obtain ⟨task, hrun, hrest⟩ := Option.bind_eq_some_iff.mp hstep
    obtain ⟨parts, hget, rfl⟩ := Option.map_eq_some_iff.mp hrest
    -- closing asks for nothing
    exact h.flushChanReap.chanEmit (fun _ => rfl) fun _ _ hne => (by cases hne)
  | drop e =>
    rw [Remote.step] at hstep
    split at hstep
    · obtain ⟨parts, hget, rfl⟩ := Option.map_eq_some_iff.mp hstep
      exact h.record
    · cases hstep
  | flush =>
    obtain rfl := Option.some.inj hstep
    exact h.flushChanReap

/-! ## Answers -/

/-- The operation a frame answers. -/
def ChanFrame.answered : ChanFrame V → List Corr
  | .ack corr | .value corr _ | .closedFor corr | .recvError corr _ => [corr]
  | _ => []

omit [Portable V] in
/-- What an answer found pending is done with. -/
theorem AnswerOk.resolveFound (h : AnswerOk o r) {p : PendingChanOp}
    (hp : PendingOk r.sched r.nextCorr corr p) (hnone : r.pending corr = none) :
    AnswerOk o (r.resolveFound p frame) := by
  have hwake : r.sched.channelWaiterLive p.task p.epoch = true → ∀ w : Wake V,
      AnswerOk o (r.wakeChannelTask p.task w) := by
    intro hlive w
    obtain ⟨task, htask, -, hepoch, -⟩ := Sched.channelWaiterLive_eq_true hlive
    obtain ⟨q, hq, hcorr⟩ := hp.parked task htask hepoch
    refine h.wake (fun task' q' htask' hq' => ?_) fun task' htask' => ?_
    · rw [htask, Option.some.injEq] at htask'
      obtain rfl : q = q' := Option.some.inj (hq.symm.trans (htask' ▸ hq'))
      rw [hcorr]
      exact hnone
    · rw [htask, Option.some.injEq] at htask'
      rw [← htask', hq]
      exact Option.some_ne_none q
  unfold Remote.resolveFound
  dsimp only
  split
  · split
    · exact hwake ‹_› _
    · exact h
  · split
    · exact hwake ‹_› _
    · exact h.chanEmit (fun _ => rfl) fun _ _ hne => (by cases hne)
  · split
    · exact hwake ‹_› _
    · exact h
  · split
    · exact hwake ‹_› _
    · exact h
  · exact h

omit [Portable V] in
/-- An answer on its way finds its operation pending. -/
theorem AnswerOk.pending_of_answers (h : AnswerOk o r) (hin : frame ∈ o.out)
    (hanswers : 0 < frame.answers corr) : ∃ p, r.pending corr = some p := by
  have hbalanced := h.balanced corr
  have hle := le_tally (f := ChanFrame.answers corr) hin
  have hpending : 0 < r.due corr := by
    unfold Owner.answers at hbalanced
    omega
  exact Option.isSome_iff_exists.mp (Remote.pending_of_due hpending)

omit [Portable V] in
/-- The answer leaves the lane, and the entry goes. -/
theorem AnswerOk.resolved (h : AnswerOk o r) (hout : o.out = frame :: rest)
    (hanswers : ∀ corr', frame.answers corr' = due corr' corr) :
    AnswerOk { o with out := rest } { r with pending := Function.update r.pending corr none } := by
  -- what is answered is pending
  obtain ⟨p, hp⟩ : ∃ p, r.pending corr = some p := h.pending_of_answers (hout ▸ List.mem_cons_self) (by
    rw [hanswers, due_self]
    exact Nat.one_pos)
  have hcons : ∀ corr', o.answers corr' = due corr' corr + tally (ChanFrame.answers corr') rest := by
    intro corr'
    unfold Owner.answers
    rw [hout, tally_cons, hanswers]
  have hkept : ∀ {corr' p}, Function.update r.pending corr none corr' = some p →
      corr' ≠ corr ∧ r.pending corr' = some p := by
    intro corr' p hsome
    by_cases heq : corr' = corr
    · rw [heq, Function.update_self] at hsome
      cases hsome
    · rw [Function.update_of_ne heq] at hsome
      exact ⟨heq, hsome⟩
  refine ⟨fun corr' => ?_, h.first, fun t task htask => ?_, fun corr' p hp => h.pending corr' p
    (hkept hp).2, fun corr' hsome => ?_, h.retracts, h.ordered⟩
  · -- the balance of the answered number goes from one to none
    have hbalanced := h.balanced corr'
    rw [hcons] at hbalanced
    show _ + o.waiting corr' + tally (ChanFrame.answers corr') rest = _
    unfold Remote.due Remote.asking at *
    dsimp only
    by_cases heq : corr' = corr
    · rw [heq, due_self, hp, Option.elim_some] at hbalanced
      rw [heq, Function.update_self, Option.elim_none]
      omega
    · rw [due, if_neg (Ne.symm heq)] at hbalanced
      rw [Function.update_of_ne heq]
      omega
  · refine (h.tasks t task htask).mono (Nat.le_refl _) (Nat.le_refl _) fun corr' _ hnone => ?_
    dsimp only
    by_cases heq : corr' = corr
    · rw [heq, Function.update_self]
    · rw [Function.update_of_ne heq]
      exact hnone
  · obtain ⟨p', hp'⟩ := Option.isSome_iff_exists.mp hsome
    obtain ⟨hne, hpending⟩ := hkept hp'
    rcases h.left corr' (by rw [hpending]; rfl) with hparks | hanswer | hcancel
    · exact .inl hparks
    · refine .inr (.inl ?_)
      rw [hcons, due, if_neg (Ne.symm hne), Nat.zero_add] at hanswer
      exact hanswer
    · exact .inr (.inr hcancel)

omit [Portable V] in
/-- The agent of the remote VM applies the next frame. -/
theorem AnswerOk.remoteAgent (h : AnswerOk o r) (hout : o.out = frame :: rest) :
    AnswerOk { o with out := rest } (r.applyFrame frame) := by
  have hresolve : ∀ corr, (∀ corr', frame.answers corr' = due corr' corr) →
      AnswerOk { o with out := rest } (r.resolvePending corr frame) := by
    intro corr hanswers
    obtain ⟨p, hp⟩ : ∃ p, r.pending corr = some p := h.pending_of_answers (hout ▸ List.mem_cons_self) (by
      rw [hanswers, due_self]
      exact Nat.one_pos)
    unfold Remote.resolvePending
    rw [hp]
    exact (h.resolved hout hanswers).resolveFound (h.pending corr p hp) (Function.update_self ..)
  have hother : (∀ corr, frame.answers corr = 0) → AnswerOk { o with out := rest } r := by
    intro hzero
    refine h.serves fun corr => ?_
    have hsame : o.answers corr = tally (ChanFrame.answers corr) rest := by
      unfold Owner.answers
      rw [hout, tally_cons, hzero, Nat.zero_add]
    exact ⟨by rw [hsame]; rfl, by rw [hsame]; exact Nat.le_refl _⟩
  unfold Remote.applyFrame
  refine AnswerOk.flushChanReap ?_
  cases frame with
  | ack corr => exact hresolve corr fun _ => rfl
  | value corr v => exact hresolve corr fun _ => rfl
  | closedFor corr => exact hresolve corr fun _ => rfl
  | recvError corr message => exact hresolve corr fun _ => rfl
  | _ => exact hother fun _ => rfl

/-- The owner's agent applies the next frame. A retraction that finds its operation waiting is
the one thing that is not answered. -/
theorem AnswerOk.ownerAgent (h : AnswerOk o r) (hout : r.out = frame :: rest)
    (hcancel : ∀ id corr, frame = .cancel id corr → o.waiting corr = 0) :
    AnswerOk (o.applyFrame frame) { r with out := rest } := by
  have hserves : ∀ corr, Serves corr (frame.asks corr) o (o.applyFrame frame) :=
    fun corr => serves_applyFrame hcancel
  have hordered := h.ordered
  rw [hout, List.pairwise_cons] at hordered
  have hbalanced : ∀ corr, tally (ChanFrame.asks corr) rest + (o.applyFrame frame).waiting corr +
      (o.applyFrame frame).answers corr = r.due corr := by
    intro corr
    have hold := h.balanced corr
    have hengaged := (hserves corr).engaged
    unfold Remote.asking at hold
    rw [hout, tally_cons] at hold
    omega
  refine ⟨hbalanced, h.first, h.tasks, h.pending, fun corr hsome => ?_, fun id corr hin =>
    h.retracts id corr (hout ▸ List.mem_cons_of_mem _ hin), hordered.2⟩
  rcases h.left corr hsome with hparks | hanswer | ⟨id, hin⟩
  · exact .inl hparks
  · exact .inr (.inl (Nat.lt_of_lt_of_le hanswer (hserves corr).answers))
  · rw [hout] at hin
    rcases List.mem_cons.mp hin with rfl | hin
    · -- it was sent before, and does not wait any more
      refine .inr (.inl ?_)
      have hsent : tally (ChanFrame.asks corr) rest = 0 :=
        tally_eq_zero fun later hlater => hordered.1 later hlater id corr rfl
      have hwaits := hcancel id corr rfl
      have hold := h.balanced corr
      obtain ⟨p, hp⟩ : ∃ p, r.pending corr = some p := Option.isSome_iff_exists.mp hsome
      rw [Remote.due_of_pending hp] at hold
      unfold Remote.asking at hold
      rw [hout, tally_cons, hsent, show (ChanFrame.cancel id corr : ChanFrame V).asks corr = 0 from
        rfl] at hold
      have hmono := (hserves corr).answers
      omega
    · exact .inr (.inr ⟨id, hin⟩)

/-! ## Runs -/

/-- A `Cancel` that is applied finds its operation answered. -/
def System.cancelsAnswered (s : System V) : System.Action V → Bool
  | .ownerAgent =>
    match s.remote.out with
    | .cancel _ corr :: _ => s.owner.waiting corr = 0
    | _ => true
  | _ => true

theorem AnswerOk.systemStep {s s' : System V} (h : AnswerOk s.owner s.remote)
    {a : System.Action V} (hcancels : s.cancelsAnswered a = true) (hstep : s.step a = some s') :
    AnswerOk s'.owner s'.remote := by
  cases a with
  | owner a =>
    obtain ⟨o', ho, rfl⟩ := Option.map_eq_some_iff.mp hstep
    exact h.serves fun corr => serves_step ho
  | remote a =>
    obtain ⟨r', hr, rfl⟩ := Option.map_eq_some_iff.mp hstep
    exact h.step hr
  | ship me c free =>
    rw [System.step] at hstep
    split at hstep
    · rcases hship : s.owner.channelShip c free with ⟨id, o'⟩
      rw [hship] at hstep
      obtain rfl := Option.some.inj hstep
      refine h.serves fun corr => ?_
      unfold Owner.channelShip at hship
      split at hship
      · obtain ⟨rfl, rfl⟩ := Prod.mk.inj hship
        exact (Serves.refl s.owner).withChan fun _ => rfl
      · obtain ⟨rfl, rfl⟩ := Prod.mk.inj hship
        have hshipped : Serves corr 0 s.owner (s.owner.withChan c fun ch =>
            { ch with ship := some { id := free, refs := 1 } }) :=
          (Serves.refl s.owner).withChan fun _ => rfl
        exact hshipped.same rfl rfl
    · cases hstep
  | arrive n =>
    obtain ⟨parts, hget, rfl⟩ := Option.map_eq_some_iff.mp hstep
    exact h.record
  | ownerAgent =>
    rw [System.step] at hstep
    split at hstep
    · cases hstep
    · rename_i frame rest hout
      obtain rfl := Option.some.inj hstep
      -- this is the one place where the run has to keep to something
      refine h.ownerAgent hout ?_
      rintro id corr rfl
      rw [System.cancelsAnswered, hout] at hcancels
      exact of_decide_eq_true hcancels
  | remoteAgent =>
    rw [System.step] at hstep
    split at hstep
    · cases hstep
    · rename_i frame rest hout
      obtain rfl := Option.some.inj hstep
      exact h.remoteAgent hout

/-- The two VMs, and the operations whose answers the remote VM's agent has applied. -/
structure Audit (V : Type) where
  system : System V := {}
  answered : List Corr := []

def System.answeredBy (s : System V) : System.Action V → List Corr
  | .remoteAgent => s.owner.out.head?.elim [] ChanFrame.answered
  | _ => []

def Audit.step (s : Audit V) (a : System.Action V) : Option (Audit V) :=
  (s.system.step a).map fun system => { system, answered := s.system.answeredBy a ++ s.answered }

/-- Each operation begun so far is pending, or was answered. -/
structure AuditOk (s : Audit V) : Prop where
  answer : AnswerOk s.system.owner s.system.remote
  counted : ∀ corr, s.answered.count corr + s.system.remote.due corr =
    if 1 ≤ corr ∧ corr < s.system.remote.nextCorr then 1 else 0

/-- The pending operations of `r'` are those of `r`. -/
def SamePending (r r' : Remote V) : Prop := r'.pending = r.pending ∧ r'.nextCorr = r.nextCorr

theorem samePending_resumePark {p : RelayPark V} {wake : Option (Wake V)} {cancelled : Bool} :
    SamePending r (r.resumePark t p wake cancelled) := by
  unfold Remote.resumePark
  split
  · split
    · dsimp only
      split <;> exact ⟨rfl, rfl⟩
    · split <;> exact ⟨rfl, rfl⟩
  · split
    · dsimp only
      split
      · split <;> exact ⟨rfl, rfl⟩
      · exact ⟨rfl, rfl⟩
    · split <;> exact ⟨rfl, rfl⟩

/-- A task of the remote VM begins at most one operation, and ends none. -/
theorem begins_step {a : Remote.Action V} (hstep : r.step a = some r') :
    SamePending r r' ∨ ∃ p, r'.pending = Function.update r.pending r.nextCorr (some p) ∧
      r'.nextCorr = r.nextCorr + 1 := by
  -- a relayed send or receive makes a request, and nothing else does
  cases a with
  | spawn =>
    obtain rfl := Option.some.inj hstep
    exact .inl ⟨rfl, rfl⟩
  | complete t =>
    obtain ⟨task, hrun, rfl⟩ := Option.map_eq_some_iff.mp hstep
    exact .inl ⟨rfl, rfl⟩
  | load t =>
    rw [Remote.step, Remote.load] at hstep
    split at hstep
    · cases hstep
    split at hstep
    · cases hstep
    dsimp only at hstep
    split at hstep
    · obtain rfl := Option.some.inj hstep
      exact .inl ⟨rfl, rfl⟩
    · obtain rfl := Option.some.inj hstep
      exact .inl samePending_resumePark
  | cancel t =>
    obtain rfl := Option.some.inj hstep
    exact .inl ⟨rfl, rfl⟩
  | send me e v =>
    obtain ⟨task, hrun, hrest⟩ := Option.bind_eq_some_iff.mp hstep
    obtain ⟨parts, hget, rfl⟩ := Option.map_eq_some_iff.mp hrest
    unfold Remote.relaySend
    dsimp only
    split
    · exact .inl ⟨rfl, rfl⟩
    · exact .inr ⟨_, rfl, rfl⟩
  | recv me e =>
    obtain ⟨task, hrun, hrest⟩ := Option.bind_eq_some_iff.mp hstep
    obtain ⟨parts, hget, rfl⟩ := Option.map_eq_some_iff.mp hrest
    exact .inr ⟨_, rfl, rfl⟩
  | close me e =>
    obtain ⟨task, hrun, hrest⟩ := Option.bind_eq_some_iff.mp hstep
    obtain ⟨parts, hget, rfl⟩ := Option.map_eq_some_iff.mp hrest
    exact .inl ⟨rfl, rfl⟩
  | drop e =>
    rw [Remote.step] at hstep
    split at hstep
    · obtain ⟨parts, hget, rfl⟩ := Option.map_eq_some_iff.mp hstep
      exact .inl ⟨rfl, rfl⟩
    · cases hstep
  | flush =>
    obtain rfl := Option.some.inj hstep
    exact .inl ⟨rfl, rfl⟩

omit [Portable V] in
theorem samePending_resolveFound (p : PendingChanOp) (frame : ChanFrame V) :
    SamePending r (r.resolveFound p frame) := by
  unfold Remote.resolveFound
  dsimp only
  split
  · split <;> exact ⟨rfl, rfl⟩
  · split <;> exact ⟨rfl, rfl⟩
  · split <;> exact ⟨rfl, rfl⟩
  · split <;> exact ⟨rfl, rfl⟩
  · exact ⟨rfl, rfl⟩

omit [Portable V] in
/-- The agent of the remote VM ends the operations that the frame answers. -/
theorem AnswerOk.due_applyFrame (h : AnswerOk o r) (hin : frame ∈ o.out) :
    (∀ corr, frame.answered.count corr + (r.applyFrame frame).due corr = r.due corr) ∧
      (r.applyFrame frame).nextCorr = r.nextCorr := by
  have hresolve : ∀ corr, frame.answered = [corr] → (∀ corr', frame.answers corr' = due corr' corr) →
      (∀ corr', frame.answered.count corr' + (r.resolvePending corr frame).due corr' = r.due corr') ∧
        (r.resolvePending corr frame).nextCorr = r.nextCorr := by
    intro corr hanswered hanswers
    obtain ⟨p, hp⟩ : ∃ p, r.pending corr = some p := h.pending_of_answers hin (by
      rw [hanswers, due_self]
      exact Nat.one_pos)
    unfold Remote.resolvePending
    rw [hp, hanswered]
    dsimp only
    obtain ⟨hpending, hnext⟩ := samePending_resolveFound p frame
      (r := { r with pending := Function.update r.pending corr none })
    refine ⟨fun corr' => ?_, hnext⟩
    unfold Remote.due
    rw [hpending]
    dsimp only
    by_cases heq : corr' = corr
    · rw [heq, Function.update_self, hp, List.count_singleton_self]
      rfl
    · rw [Function.update_of_ne heq, List.count_singleton, if_neg (by simpa using Ne.symm heq),
        Nat.zero_add]
  cases frame with
  | ack corr => exact hresolve corr rfl fun _ => rfl
  | value corr v => exact hresolve corr rfl fun _ => rfl
  | closedFor corr => exact hresolve corr rfl fun _ => rfl
  | recvError corr message => exact hresolve corr rfl fun _ => rfl
  | _ => exact ⟨fun _ => Nat.zero_add _, rfl⟩

theorem AuditOk.step {s s' : Audit V} (h : AuditOk s) {a : System.Action V}
    (hcancels : s.system.cancelsAnswered a = true) (hstep : s.step a = some s') : AuditOk s' := by
  obtain ⟨system, hsys, rfl⟩ := Option.map_eq_some_iff.mp hstep
  refine ⟨h.answer.systemStep hcancels hsys, fun corr => ?_⟩
  have hcounted := h.counted corr
  dsimp only
  -- only the remote VM's own steps make requests, and only its frames answer them
  cases a with
  | owner a =>
    obtain ⟨o', -, rfl⟩ := Option.map_eq_some_iff.mp hsys
    exact hcounted
  | remote a =>
    obtain ⟨r', hr, rfl⟩ := Option.map_eq_some_iff.mp hsys
    rw [show s.system.answeredBy (.remote a) = [] from rfl, List.nil_append]
    unfold Remote.due at *
    dsimp only
    rcases begins_step hr with ⟨hpending, hnext⟩ | ⟨p, hpending, hnext⟩
    · rw [hpending, hnext]
      exact hcounted
    · have hfirst := h.answer.first
      rw [hpending, hnext]
      -- the new number is counted as issued and as due at once
      by_cases heq : corr = s.system.remote.nextCorr
      · rw [heq, h.answer.pending_nextCorr, Option.elim_none,
          if_neg fun hlt => Nat.lt_irrefl _ hlt.2] at hcounted
        rw [heq, Function.update_self, Option.elim_some, if_pos ⟨hfirst, Nat.lt_succ_self _⟩]
        omega
      · rw [Function.update_of_ne heq, hcounted]
        have hissued : (1 ≤ corr ∧ corr < s.system.remote.nextCorr + 1) ↔
            (1 ≤ corr ∧ corr < s.system.remote.nextCorr) :=
          ⟨fun hi => ⟨hi.1, Nat.lt_of_le_of_ne (Nat.le_of_lt_succ hi.2) heq⟩,
            fun hi => ⟨hi.1, Nat.lt_succ_of_lt hi.2⟩⟩
        simp only [hissued]
  | ship me c free =>
    rw [System.step] at hsys
    split at hsys
    · obtain rfl := Option.some.inj hsys
      exact hcounted
    · cases hsys
  | arrive n =>
    obtain ⟨parts, -, rfl⟩ := Option.map_eq_some_iff.mp hsys
    exact hcounted
  | ownerAgent =>
    rw [System.step] at hsys
    split at hsys
    · cases hsys
    · obtain rfl := Option.some.inj hsys
      exact hcounted
  | remoteAgent =>
    rw [System.step] at hsys
    split at hsys
    · cases hsys
    · rename_i frame rest hout
      obtain rfl := Option.some.inj hsys
      obtain ⟨hdue, hnext⟩ : (∀ corr, frame.answered.count corr +
          (s.system.remote.applyFrame frame).due corr = s.system.remote.due corr) ∧ _ :=
        h.answer.due_applyFrame (hout ▸ List.mem_cons_self)
      rw [System.answeredBy, hout, List.head?_cons, Option.elim_some, List.count_append, hnext,
        ← hcounted, ← hdue corr]
      dsimp only
      omega

omit [Portable V] in
theorem AuditOk.init : AuditOk ({} : Audit V) := by
  refine ⟨⟨fun _ => rfl, Nat.le_refl _, fun t task htask => (by cases htask),
    fun corr p hp => (by cases hp), fun corr hp => (by cases hp), fun id corr hin => (by cases hin),
    .nil⟩, fun corr => ?_⟩
  rw [if_neg (by rintro ⟨hle, hlt⟩; exact absurd hlt (Nat.not_lt.mpr hle))]
  rfl

/-- Every operation begun is pending or was answered, once. When nothing is under way, what is
pending waits in a channel's queue and its task for the answer. -/
structure AnsweredOnce (s : Audit V) : Prop where
  once : s.answered.Nodup
  answered : ∀ corr, corr ∈ s.answered ↔ 1 ≤ corr ∧ corr < s.system.remote.nextCorr ∧
    s.system.remote.pending corr = none
  cleared : s.system.owner.out = [] → s.system.remote.out = [] → ∀ corr,
    (s.system.remote.pending corr).isSome → s.system.owner.waiting corr = 1 ∧
      ∃ p, s.system.remote.sched.Parks p ∧ p.corr = corr

/-- **A relayed operation is answered exactly once**, in every run in which each `Cancel` that
the owner applies finds its operation answered. -/
theorem relayed_answered_once {s : Audit V}
    (hRun : Run Audit.step (fun s a => s.system.cancelsAnswered a = true) {} s) :
    AnsweredOnce s := by
  have hok : AuditOk s := hRun.invariant .init fun _ _ _ h hcancels hstep => h.step hcancels hstep
  refine ⟨?_, fun corr => ?_, fun howner hremote corr hsome => ?_⟩
  · refine List.nodup_iff_count_le_one.mpr fun corr => ?_
    have hcounted := hok.counted corr
    split_ifs at hcounted <;> omega
  · have hcounted := hok.counted corr
    rw [← List.count_pos_iff]
    cases hp : s.system.remote.pending corr with
    | none =>
      rw [Remote.due, hp, Option.elim_none] at hcounted
      split_ifs at hcounted with hissued
      · exact ⟨fun _ => ⟨hissued.1, hissued.2, rfl⟩, fun _ => by omega⟩
      · exact ⟨fun hpos => absurd hpos (by omega), fun h => absurd ⟨h.1, h.2.1⟩ hissued⟩
    | some p =>
      rw [Remote.due_of_pending hp] at hcounted
      refine ⟨fun hpos => absurd hpos ?_, fun h => absurd h.2.2 (Option.some_ne_none p)⟩
      split_ifs at hcounted
      omega
  · obtain ⟨p, hp⟩ := Option.isSome_iff_exists.mp hsome
    have hbalanced := hok.answer.balanced corr
    rw [Remote.due_of_pending hp] at hbalanced
    unfold Remote.asking Owner.answers at hbalanced
    rw [howner, hremote, tally_nil, tally_nil] at hbalanced
    refine ⟨by omega, ?_⟩
    rcases hok.answer.left corr hsome with hparks | hanswer | ⟨id, hin⟩
    · exact hparks
    · unfold Owner.answers at hanswer
      rw [howner] at hanswer
      cases hanswer
    · rw [hremote] at hin
      cases hin

/-- A receive that is cancelled after its value was sent is answered by that value, which goes
home. -/
theorem relayed_answered_once_cancelled : ∃ s : Audit Int,
    Run Audit.step (fun s a => s.system.cancelsAnswered a = true) {} s ∧
      s.answered = [1] ∧ AnsweredOnce s := by
  have hexec : (exec Audit.step (fun s a => s.system.cancelsAnswered a = true) ({} : Audit Int)
      [.owner (.newChannel 0), .owner .spawn, .owner (.load 0), .ship 0 0 1, .arrive 0,
        .remote .spawn, .remote (.load 0), .remote (.recv 0 0), .ownerAgent,
        .owner (.send 0 0 7), .remote (.cancel 0), .remote (.load 0), .ownerAgent,
        .remoteAgent, .ownerAgent]).map Audit.answered = some [1] := by
    decide +kernel
  obtain ⟨s, hRun, hanswered⟩ := run_of_exec_map hexec
  exact ⟨s, hRun, hanswered, relayed_answered_once hRun⟩

/-- A receive waits at the owner and is retracted there; its entry stays. -/
theorem retracted_never_answered : ¬ ∀ s : System Int, Reach System.step {} s →
    s.owner.out = [] → s.remote.out = [] → ∀ corr, (s.remote.pending corr).isSome →
      ∃ p, s.remote.sched.Parks p ∧ p.corr = corr := by
  intro hall
  have hexec : (exec System.step (fun _ _ => True) ({} : System Int)
      [.owner (.newChannel 0), .owner .spawn, .owner (.load 0), .ship 0 0 1, .arrive 0,
        .remote .spawn, .remote (.load 0), .remote (.recv 0 0), .ownerAgent, .remote (.cancel 0),
        .remote (.load 0), .ownerAgent]).map (fun s => (s.owner.out.isEmpty,
          s.remote.out.isEmpty, (s.remote.pending 1).isSome,
          s.remote.sched.tasks.all fun slot => (slot.bind Task.park).isNone)) =
      some (true, true, true, true) := by
    decide +kernel
  obtain ⟨s, hRun, hend⟩ := run_of_exec_map hexec
  simp only [Prod.mk.injEq] at hend
  obtain ⟨howner, hremote, hpending, htasks⟩ := hend
  obtain ⟨p, ⟨t, task, htask, hpark⟩, -⟩ := hall s hRun (List.isEmpty_iff.mp howner)
    (List.isEmpty_iff.mp hremote) 1 hpending
  -- no task is in an operation any more
  have hslot := List.all_eq_true.mp htasks _ (List.mem_of_getElem? (Sched.task?_eq_some.mp htask))
  rw [Option.bind_some, hpark] at hslot
  cases hslot

end Quoin.Channel
