import Quoin.Claims.Actors
import Quoin.Claims.Owners
import Quoin.Trans.Line

/-!
# Quoin — claim fairness and exclusion

The waiters of an object form a line: a call that queues joins it, a
cancellation leaves it, and every change of ownership serves it — or lets a
caller in who did not queue. The turns of a step are read off the state before
and after it (`turns`), the line off the object's queue (`Vm.line`), and one
step of the system is one move of that line (`step_moves`). So the history of
an object is first come, first served, whichever of the three places granted
it: the immediate acquire, the promotion of a head, or a lane coming home.

## Results

* `step_moves` — one step of the system is one move of the line of an object;
* `claims_fair` — in every run an object has one owner at a time, its queue is its line, and its
  turns are first come, first served.
-/

namespace Quoin.Claims

open Trans

/-- A call on the object is open, or the claim was handed over and not taken yet. -/
def Owns (vm : Vm) (t : TaskId) (p : PeerId) (id : ObjectId) : Prop :=
  (p, id) ∈ (vm.tasks t).calls ∨
    (∃ kind, (vm.tasks t).park = some (.claim p id kind)) ∧ (vm.tasks t).wake.isSome

/-- The live waiters of an object. -/
def Vm.line (vm : Vm) (p : PeerId) (id : ObjectId) : List (TaskId × Epoch) :=
  liveLine vm.live ((vm.peers p).entry id)

/-- The owner of the object, if it is a new one. -/
def granted (vm vm' : Vm) (p : PeerId) (id : ObjectId) : Option (TaskId × Epoch) :=
  ((vm'.peers p).entry id).owner.filter fun k => ((vm.peers p).entry id).owner ≠ some k

/-- The turns of one step at an object: who joined its line (a task with a
cancellation pending does not wait), who left it, and who got the object. -/
def turns (vm : Vm) (a : Action) (vm' : Vm) (p : PeerId) (id : ObjectId) :
    List (Turn (TaskId × Epoch)) :=
  match a with
  | .call t _ _ _ _ =>
    let me := (t, (vm.tasks t).parkEpoch)
    (granted vm vm' p id).toList.map Turn.enter ++
      if Park.wants p id (vm'.tasks t).park then
        if (vm.tasks t).cancelRequested then [.join me, .leave me] else [.join me]
      else []
  | .cancel t =>
    let me := (t, (vm.tasks t).parkEpoch)
    if me ∈ vm.line p id then [.leave me] else []
  | _ => (granted vm vm' p id).toList.map Turn.serve

/-- A step, with the history of one object. -/
def auditStep (p : PeerId) (id : ObjectId) (s : Vm × List (Turn (TaskId × Epoch))) (a : Action) :
    Option (Vm × List (Turn (TaskId × Epoch))) :=
  (s.1.step a).map fun vm' => (vm', s.2 ++ turns s.1 a vm' p id)

/-! ## New owners -/

section Granted

variable {vm vm' : Vm} {p : PeerId} {id : ObjectId}

theorem granted_of_same (h : ((vm'.peers p).entry id).owner = ((vm.peers p).entry id).owner) :
    granted vm vm' p id = none := by
  simp [granted, h]

theorem granted_of_none (h : ((vm'.peers p).entry id).owner = none) :
    granted vm vm' p id = none := by
  simp [granted, h]

theorem granted_of_new {k : TaskId × Epoch} (h : ((vm'.peers p).entry id).owner = some k)
    (hNew : ((vm.peers p).entry id).owner ≠ some k) : granted vm vm' p id = some k := by
  simp [granted, h, hNew]

end Granted

/-! ## The line in a step -/

section Line

variable {vm vm' : Vm} {p : PeerId} {id : ObjectId} {t : TaskId}

theorem line_congr
    (hWaiters : ((vm'.peers p).entry id).waiters = ((vm.peers p).entry id).waiters)
    (hTasks : ∀ w ∈ ((vm.peers p).entry id).waiters, vm'.tasks w.task = vm.tasks w.task) :
    vm'.line p id = vm.line p id :=
  liveLine_congr hWaiters fun w hw => by rw [Vm.live, Vm.live, hTasks w hw]

/-- A task that acts is in no queue. -/
theorem ne_of_acting (hok : VmOk vm) (hActing : VmOk.Acting vm t) {w : Waiter}
    (hw : w ∈ ((vm.peers p).entry id).waiters) : w.task ≠ t := by
  obtain ⟨hPark, hWake, -⟩ := (hok.link p).waiting id w hw
  rintro rfl
  rcases hActing.1 with hOut | hOut
  · exact hOut p id w.kind hPark
  · exact hOut hWake

theorem acting_of_idle (hPark : (vm.tasks t).park = none) : VmOk.Acting vm t :=
  ⟨Or.inl fun p id kind => by simp [hPark], fun p => by simp [hPark]⟩

/-- A waiting entry is that of its task's park, so a task has one place in the line. -/
theorem mem_line (hok : VmOk vm) {k : TaskId × Epoch} (h : k ∈ vm.line p id) :
    ∃ w ∈ ((vm.peers p).entry id).waiters, w.task = k.1 ∧ k.2 = (vm.tasks k.1).parkEpoch := by
  obtain ⟨w, hw, rfl⟩ := List.mem_map.mp h
  have hin := (List.mem_filter.mp hw).1
  exact ⟨w, hin, rfl, ((hok.link p).waiting id w hin).2.2.2⟩

/-- A cancelled task leaves the line, if it was in it. -/
theorem line_cancel (hok : VmOk vm) (t : TaskId) :
    (vm.requestCancel t).line p id = (vm.line p id).filter fun k => k ≠ (t, (vm.tasks t).parkEpoch) := by
  have hLive : ∀ w ∈ ((vm.peers p).entry id).waiters,
      (vm.requestCancel t).live w.task w.epoch
        = (vm.live w.task w.epoch && decide ((w.task, w.epoch) ≠ (t, (vm.tasks t).parkEpoch))) := by
    intro w hw
    have hEpoch := ((hok.link p).waiting id w hw).2.2.2
    by_cases hwt : w.task = t
    · subst hwt
      simp [Vm.live, Vm.requestCancel, Vm.setTask, Task.liveAt, hEpoch]
    · have hOther : (vm.requestCancel t).tasks w.task = vm.tasks w.task :=
        Function.update_of_ne hwt _ _
      simp [Vm.live, hOther, hwt]
  have hSame : (vm.requestCancel t).line p id = (((vm.peers p).entry id).waiters.filter fun w =>
      vm.live w.task w.epoch && decide ((w.task, w.epoch) ≠ (t, (vm.tasks t).parkEpoch))).map
        fun w => (w.task, w.epoch) := by
    rw [← List.filter_congr hLive]
    rfl
  rw [hSame, Vm.line, liveLine, List.filter_map, List.filter_filter]
  congr 1
  apply List.filter_congr
  intro w _
  simp [Function.comp, Bool.and_comm]

/-- Nobody gets the object and nobody in its line changes. -/
theorem quiet_moves
    (hOwner : ((vm'.peers p).entry id).owner = ((vm.peers p).entry id).owner)
    (hWaiters : ((vm'.peers p).entry id).waiters = ((vm.peers p).entry id).waiters)
    (hTasks : ∀ w ∈ ((vm.peers p).entry id).waiters, vm'.tasks w.task = vm.tasks w.task) :
    Moves (vm.line p id) ((granted vm vm' p id).toList.map .serve) (vm'.line p id) := by
  rw [granted_of_same hOwner, line_congr hWaiters hTasks]
  exact .none _

/-- A task that is in no queue changes, and no queue with it. -/
theorem actor_moves (hok : VmOk vm) (hActing : VmOk.Acting vm t)
    (hObjects : ∀ p', (vm'.peers p').objects = (vm.peers p').objects)
    (hTasks : ∀ u, u ≠ t → vm'.tasks u = vm.tasks u) :
    Moves (vm.line p id) ((granted vm vm' p id).toList.map .serve) (vm'.line p id) := by
  have hEntry : (vm'.peers p).entry id = (vm.peers p).entry id := by
    rw [PeerClaims.entry, PeerClaims.entry, hObjects]
  exact quiet_moves (by rw [hEntry]) (by rw [hEntry])
    fun w hw => hTasks w.task (ne_of_acting hok hActing hw)

/-- **A call ends**: each object that changes hands goes to the first in its line. -/
theorem ended_moves (hok : VmOk vm) (hok' : VmOk vm') (hActing : VmOk.Acting vm t)
    {p₀ : PeerId} {id₀ : ObjectId} (live : Live) (now : Nat) (task : Task)
    (hOwner : ∃ e, ((vm.peers p₀).entry id₀).owner = some (t, e))
    (hLive : ∀ u e, u ≠ t → live u e = vm.live u e) (hPark : (vm'.tasks t).park = none)
    (hPeers : vm'.peers = Function.update vm.peers p₀ ((vm.peers p₀).endCall id₀ live now).1)
    (hTasks : ∀ u, u ≠ t → vm'.tasks u = Vm.deliver (Function.update vm.tasks t task)
      ((vm.peers p₀).endCall id₀ live now).2 u) :
    Moves (vm.line p id) ((granted vm vm' p id).toList.map .serve) (vm'.line p id) := by
  -- who is in a queue afterwards was not woken
  have hSame : ∀ w ∈ ((vm'.peers p).entry id).waiters,
      w.task ≠ t ∧ vm'.tasks w.task = vm.tasks w.task := by
    intro w hw
    obtain ⟨hQueued, hWake, -⟩ := (hok'.link p).waiting id w hw
    have hne : w.task ≠ t := by
      intro hwt
      rw [hwt, hPark] at hQueued
      cases hQueued
    refine ⟨hne, ?_⟩
    rw [hTasks w.task hne] at hWake ⊢
    by_cases hWoken : w.task ∈ (((vm.peers p₀).endCall id₀ live now).2).map Grant.task
    · obtain ⟨lane, hLane⟩ := (deliver_apply (Function.update vm.tasks t task) _ w.task).2 hWoken
      rw [hLane] at hWake
      cases hWake
    · rw [(deliver_apply _ _ w.task).1 hWoken, Function.update_of_ne hne]
  by_cases hp : p = p₀
  swap
  · have hPeer : vm'.peers p = vm.peers p := by rw [hPeers, Function.update_of_ne hp]
    rw [hPeer] at hSame
    exact quiet_moves (by rw [hPeer]) (by rw [hPeer]) fun w hw => (hSame w hw).2
  subst hp
  have hPeer : vm'.peers p = ((vm.peers p).endCall id₀ live now).1 := by
    rw [hPeers, Function.update_self]
  have hBefore : liveLine live ((vm.peers p).entry id) = vm.line p id :=
    liveLine_congr rfl fun w hw => hLive w.task w.epoch (ne_of_acting hok hActing hw)
  have hAfter : liveLine live ((vm'.peers p).entry id) = vm'.line p id := by
    refine liveLine_congr rfl fun w hw => ?_
    obtain ⟨hne, hTask⟩ := hSame w hw
    rw [hLive w.task w.epoch hne, Vm.live, Vm.live, hTask]
  obtain ⟨e, hHeld⟩ := hOwner
  have hOwned : ∀ o, (vm.peers p).objects id₀ = some o → o.owner.isSome := by
    intro o hObj
    rw [← PeerClaims.entry_of_some _ id₀ hObj, hHeld]
    rfl
  have hEnded := endCall_lines (hok.table p) hOwned live now id
  rw [← hPeer, hBefore, hAfter] at hEnded
  rcases hEnded with ⟨hOwner, hLine⟩ | ⟨k, hFree, hNew, hLine⟩
  · have hNobody : granted vm vm' p id = none := by
      rcases hOwner with hKept | hNone
      · exact granted_of_same hKept
      · exact granted_of_none hNone
    rw [hNobody, hLine]
    exact .none _
  · -- the new owner was waiting, and the old one was not
    have hChanged : ((vm.peers p).entry id).owner ≠ some k := by
      rcases hFree with hFree | rfl
      · simp [hFree]
      · obtain ⟨w, hw, hwk, -⟩ := mem_line hok (hLine ▸ List.mem_cons_self : k ∈ vm.line p id)
        have hne := ne_of_acting hok hActing hw
        rw [hHeld]
        rintro ⟨⟩
        exact hne hwk
    rw [granted_of_new hNew hChanged, hLine]
    exact .serve _ k

/-- A cancelled task withdraws; it was not in the line any more. -/
theorem retract_moves (hok : VmOk vm) (t : TaskId) (p₀ : PeerId) (id₀ : ObjectId)
    (hDead : ∀ e, vm.live t e = false)
    (hPeers : vm'.peers = Function.update vm.peers p₀ ((vm.peers p₀).retract t id₀))
    (hTasks : ∀ u, u ≠ t → vm'.tasks u = vm.tasks u)
    (hAway : ∀ w ∈ ((vm'.peers p).entry id).waiters, w.task ≠ t) :
    Moves (vm.line p id) ((granted vm vm' p id).toList.map .serve) (vm'.line p id) := by
  have hSame : ∀ w ∈ ((vm'.peers p).entry id).waiters, vm'.tasks w.task = vm.tasks w.task :=
    fun w hw => hTasks w.task (hAway w hw)
  by_cases hp : p = p₀
  swap
  · have hPeer : vm'.peers p = vm.peers p := by rw [hPeers, Function.update_of_ne hp]
    rw [hPeer] at hSame
    exact quiet_moves (by rw [hPeer]) (by rw [hPeer]) hSame
  subst hp
  have hPeer : vm'.peers p = (vm.peers p).retract t id₀ := by
    rw [hPeers, Function.update_self]
  obtain ⟨hOwner, -, hWaiters⟩ := retract_entry (vm.peers p) t id₀ id ((hok.table p).object id₀)
  rw [← hPeer] at hOwner hWaiters
  by_cases hid : id = id₀
  swap
  · rw [if_neg hid] at hWaiters
    exact quiet_moves hOwner hWaiters (hWaiters ▸ hSame)
  subst hid
  rw [if_pos rfl] at hWaiters
  have hLine : vm'.line p id = vm.line p id := by
    have hTouched : vm'.line p id = liveLine vm.live ((vm'.peers p).entry id) :=
      liveLine_congr rfl fun w hw => by rw [Vm.live, Vm.live, hSame w hw]
    rw [hTouched, Vm.line, liveLine, liveLine, hWaiters, List.filter_filter]
    congr 1
    apply List.filter_congr
    intro w _
    by_cases hwt : w.task = t
    · simp [hwt, hDead]
    · simp [hwt]
  rw [granted_of_same hOwner, hLine]
  exact .none _

/-- The turns of a call, from what it left. -/
theorem turns_call {p₀ : PeerId} {id₀ : ObjectId} {label : String} {now : Nat} :
    turns vm (.call t p₀ id₀ label now) vm' p id =
      (granted vm vm' p id).toList.map .enter ++
        if Park.wants p id (vm'.tasks t).park then
          if (vm.tasks t).cancelRequested then
            [.join (t, (vm.tasks t).parkEpoch), .leave (t, (vm.tasks t).parkEpoch)]
          else [.join (t, (vm.tasks t).parkEpoch)]
        else [] := rfl

/-- A call that changes no owner and no queue. -/
theorem refused_moves (hok : VmOk vm) {p₀ : PeerId} {id₀ : ObjectId} {label : String} {now : Nat}
    (hPark : (vm.tasks t).park = none)
    (hOwner : ((vm'.peers p).entry id).owner = ((vm.peers p).entry id).owner)
    (hWaiters : ((vm'.peers p).entry id).waiters = ((vm.peers p).entry id).waiters)
    (hTasks : ∀ u, u ≠ t → vm'.tasks u = vm.tasks u)
    (hAfter : Park.wants p id (vm'.tasks t).park = false) :
    Moves (vm.line p id) (turns vm (.call t p₀ id₀ label now) vm' p id) (vm'.line p id) := by
  have hLine : vm'.line p id = vm.line p id := line_congr hWaiters
    fun w hw => hTasks w.task (ne_of_acting hok (acting_of_idle hPark) hw)
  rw [turns_call, granted_of_same hOwner, hAfter, hLine]
  exact .none _

/-- A call that parks joins the line of its object, at its end. -/
theorem queued_moves (hok : VmOk vm) {p₀ : PeerId} {id₀ : ObjectId} {label : String}
    {kind : WaitKind} {now : Nat} {c : PeerClaims} (hPark : (vm.tasks t).park = none)
    (hBare : ∀ id', (c.entry id').bare = ((vm.peers p₀).entry id').bare)
    (hAfter : vm' = ((vm.setPeer p₀ c).setPeer p₀
      (c.enqueue t (vm.tasks t).parkEpoch id₀ label kind now)).setTask t
        { vm.tasks t with parkedOnChannel := true, park := some (.claim p₀ id₀ kind) }) :
    Moves (vm.line p id) (turns vm (.call t p₀ id₀ label now) vm' p id) (vm'.line p id) := by
  have hSelf : vm'.tasks t =
      { vm.tasks t with parkedOnChannel := true, park := some (.claim p₀ id₀ kind) } := by
    rw [hAfter]
    exact Function.update_self _ _ _
  have hTasks : ∀ u, u ≠ t → vm'.tasks u = vm.tasks u := by
    intro u hne
    rw [hAfter]
    exact Function.update_of_ne hne _ _
  have hPeer : ∀ p', vm'.peers p' = if p' = p₀ then
      c.enqueue t (vm.tasks t).parkEpoch id₀ label kind now else vm.peers p' := by
    intro p'
    rw [hAfter, ← Function.update_apply]
    simp only [Vm.setTask, Vm.setPeer, Function.update_idem]
  have hEntry := enqueue_entry c t (vm.tasks t).parkEpoch id₀ label kind now
  by_cases hAt : p = p₀ ∧ id = id₀
  swap
  · -- at another object nothing happens
    refine refused_moves hok hPark ?_ ?_ hTasks ?_
    · rw [hPeer]
      split_ifs with hp
      · rw [(hEntry id).1, ObjectClaim.owner_of_bare (hBare id), hp]
      · rfl
    · rw [hPeer]
      split_ifs with hp
      · have hid : id ≠ id₀ := fun hid => hAt ⟨hp, hid⟩
        rw [(hEntry id).2.2, if_neg hid, List.append_nil, ObjectClaim.waiters_of_bare (hBare id), hp]
      · rfl
    · rw [hSelf]
      simp only [wants_claim, Bool.and_eq_false_iff, beq_eq_false_iff_ne]
      by_contra hBoth
      push Not at hBoth
      exact hAt ⟨hBoth.1.symm, hBoth.2.symm⟩
  obtain ⟨rfl, rfl⟩ := hAt
  -- at the object itself: its queue gets the task, at its end
  have hOwner : ((vm'.peers p).entry id).owner = ((vm.peers p).entry id).owner := by
    rw [hPeer, if_pos rfl, (hEntry id).1, ObjectClaim.owner_of_bare (hBare id)]
  have hWaiters : ((vm'.peers p).entry id).waiters = ((vm.peers p).entry id).waiters ++
      [{ task := t, epoch := (vm.tasks t).parkEpoch, kind, queuedAt := now }] := by
    rw [hPeer, if_pos rfl, (hEntry id).2.2, if_pos rfl, ObjectClaim.waiters_of_bare (hBare id)]
  have hOld : ((vm.peers p).entry id).waiters.filter (fun w => vm'.live w.task w.epoch)
      = ((vm.peers p).entry id).waiters.filter fun w => vm.live w.task w.epoch := by
    apply List.filter_congr
    intro w hw
    rw [Vm.live, Vm.live, hTasks w.task (ne_of_acting hok (acting_of_idle hPark) hw)]
  -- a task that is to be cancelled is not in line from the start
  have hMe : vm'.live t (vm.tasks t).parkEpoch = !(vm.tasks t).cancelRequested := by
    simp [Vm.live, Task.liveAt, hSelf]
  have hLine : vm'.line p id = vm.line p id ++
      if (vm.tasks t).cancelRequested then [] else [(t, (vm.tasks t).parkEpoch)] := by
    rw [Vm.line, Vm.line, liveLine, liveLine, hWaiters, List.filter_append, List.map_append, hOld]
    cases hCancel : (vm.tasks t).cancelRequested <;> simp [hMe, hCancel]
  rw [turns_call, granted_of_same hOwner, hSelf, hLine]
  simp only [wants_claim, beq_self_eq_true, Bool.and_self, if_true, Option.toList_none,
    List.map_nil, List.nil_append]
  split_ifs
  · rw [List.append_nil]
    exact .pass _ _
  · exact .join _ _

/-- **A call**, up to its park: let in only where nobody waits. -/
theorem called_moves (hok : VmOk vm) {p₀ : PeerId} {id₀ : ObjectId}
    (hPark : (vm.tasks t).park = none) (label : String) (now : Nat) :
    Moves (vm.line p id)
      (turns vm (.call t p₀ id₀ label now) (vm.claimPeerObject t p₀ id₀ label now) p id)
      ((vm.claimPeerObject t p₀ id₀ label now).line p id) := by
  obtain ⟨hAcquired, -⟩ := tryAcquire_acquired (vm.peers p₀) t (vm.tasks t).parkEpoch id₀ label
    (Vm.waitKind (vm.tasks t) p₀ == .nested)
  generalize hCalled : vm.claimPeerObject t p₀ id₀ label now = vm'
  rw [Vm.claimPeerObject] at hCalled
  simp only at hCalled
  rcases hDecide : (vm.peers p₀).tryAcquire t (vm.tasks t).parkEpoch id₀ label
    (Vm.waitKind (vm.tasks t) p₀ == .nested) with ⟨c, decision⟩
  rw [hDecide] at hAcquired hCalled
  simp only at hAcquired hCalled
  -- a table with the same objects in the place of the old one
  have hKept : ∀ (c' : PeerClaims) (task : Task),
      (∀ id', (c'.entry id').owner = ((vm.peers p₀).entry id').owner) →
      (∀ id', (c'.entry id').waiters = ((vm.peers p₀).entry id').waiters) → task.park = none →
      vm'.peers = Function.update vm.peers p₀ c' → vm'.tasks = Function.update vm.tasks t task →
      Moves (vm.line p id) (turns vm (.call t p₀ id₀ label now) vm' p id) (vm'.line p id) := by
    intro c' task hOwner hWaiters hIdle hPeers hTasks
    have hPeer : ∀ p', vm'.peers p' = if p' = p₀ then c' else vm.peers p' := by
      intro p'
      rw [hPeers, Function.update_apply]
    refine refused_moves hok hPark ?_ ?_ (fun u hne => ?_) ?_
    · rw [hPeer]
      split_ifs with hp
      · rw [hOwner, hp]
      · rfl
    · rw [hPeer]
      split_ifs with hp
      · rw [hWaiters, hp]
      · rfl
    · rw [hTasks, Function.update_of_ne hne]
    · rw [hTasks, Function.update_self, hIdle]
      rfl
  have hQueue : ∀ (kind : WaitKind) (blocker : Option TaskId),
      (∀ id', (c.entry id').bare = ((vm.peers p₀).entry id').bare) →
      (vm.setPeer p₀ c).awaitClaim t p₀ id₀ label kind blocker now = vm' →
      Moves (vm.line p id) (turns vm (.call t p₀ id₀ label now) vm' p id) (vm'.line p id) := by
    intro kind blocker hBare hAwait
    have hSelf : (vm.setPeer p₀ c).peers p₀ = c := Function.update_self _ _ _
    rw [Vm.awaitClaim] at hAwait
    simp only [hSelf] at hAwait
    split at hAwait
    · refine hKept { c with stats.deadlocks := c.stats.deadlocks + 1 } (vm.tasks t)
        (fun id' => ObjectClaim.owner_of_bare (hBare id'))
        (fun id' => ObjectClaim.waiters_of_bare (hBare id')) hPark ?_ ?_
      · rw [← hAwait]
        simp only [Vm.setPeer, Function.update_idem]
      · rw [← hAwait, Function.update_eq_self]
        rfl
    · exact queued_moves hok hPark hBare hAwait.symm
  cases hAcquired with
  | granted lane hFree hRes hEntry =>
    have hRead := fun id' => (hEntry id').trans (apply_ite ObjectClaim.bare _ _ _).symm
    have hPeer : ∀ p', vm'.peers p' = if p' = p₀ then c else vm.peers p' := by
      intro p'
      rw [← hCalled, ← Function.update_apply]
      rfl
    have hWaiters : ((vm'.peers p).entry id).waiters = ((vm.peers p).entry id).waiters := by
      rw [hPeer]
      split_ifs with hp
      · subst hp
        rw [ObjectClaim.waiters_of_bare (hRead id)]
        split_ifs with hid
        · rw [hid]
          rfl
        · rfl
      · rfl
    have hTasks : ∀ u, u ≠ t → vm'.tasks u = vm.tasks u := by
      intro u hne
      rw [← hCalled]
      exact Function.update_of_ne hne _ _
    have hAfter : Park.wants p id (vm'.tasks t).park = false := by
      have hSelf : vm'.tasks t = { vm.tasks t with calls := (p₀, id₀) :: (vm.tasks t).calls } := by
        rw [← hCalled]
        exact Function.update_self _ _ _
      rw [hSelf, hPark]
      rfl
    by_cases hAt : p = p₀ ∧ id = id₀
    · obtain ⟨rfl, rfl⟩ := hAt
      -- an object neither owned nor reserved has no queue
      have hNobody : ((vm.peers p).entry id).waiters = [] := by
        by_contra hSome
        rcases (hok.table p).queued id (by simp) hSome with hOwned | hReserved
        · simp [hFree] at hOwned
        · simp [hRes] at hReserved
      have hOwner : ((vm'.peers p).entry id).owner = some (t, (vm.tasks t).parkEpoch) := by
        rw [hPeer, if_pos rfl, ObjectClaim.owner_of_bare (hRead id), if_pos rfl]
        rfl
      have hEmpty : ∀ vm : Vm, ((vm.peers p).entry id).waiters = [] → vm.line p id = [] := by
        intro vm hNone
        rw [Vm.line, liveLine, hNone]
        rfl
      rw [turns_call, granted_of_new hOwner (by rw [hFree]; simp), hAfter, hEmpty vm hNobody,
        hEmpty vm' (hWaiters.trans hNobody)]
      exact .enter _
    · refine refused_moves hok hPark ?_ hWaiters hTasks hAfter
      rw [hPeer]
      split_ifs with hp
      · have hid : id ≠ id₀ := fun hid => hAt ⟨hp, hid⟩
        rw [ObjectClaim.owner_of_bare (hRead id), if_neg hid, hp]
      · rfl
  | reentrant epoch' hOwner hEntry =>
    have hRead := fun id' => (hEntry id').trans (apply_ite ObjectClaim.bare _ _ _).symm
    refine hKept c { vm.tasks t with calls := (p₀, id₀) :: (vm.tasks t).calls } (fun id' => ?_)
      (fun id' => ?_) hPark (by rw [← hCalled]; rfl) (by rw [← hCalled]; rfl)
    · rw [ObjectClaim.owner_of_bare (hRead id')]
      split_ifs with hid
      · rw [hid]
      · rfl
    · rw [ObjectClaim.waiters_of_bare (hRead id')]
      split_ifs with hid
      · rw [hid]
      · rfl
  | tooDeep hEntry =>
    refine hKept c (vm.tasks t) (fun id' => ObjectClaim.owner_of_bare (hEntry id'))
      (fun id' => ObjectClaim.waiters_of_bare (hEntry id')) hPark (by rw [← hCalled]; rfl) ?_
    rw [← hCalled, Function.update_eq_self]
    rfl
  | blocked u epoch' hOwner hne hEntry => exact hQueue _ _ hEntry hCalled
  | behind hFree hWhy hLanes hEntry => exact hQueue _ _ hEntry hCalled

/-- The rest of a call, after its park. -/
theorem resumed_moves (hok : VmOk vm) {p₀ : PeerId} {id₀ : ObjectId} {kind : WaitKind} {now : Nat}
    (hOff : (vm.tasks t).parkedOnChannel = false)
    (hPark : (vm.tasks t).park = some (.claim p₀ id₀ kind))
    (hok' : VmOk (vm.resumeClaim t p₀ id₀ now)) :
    Moves (vm.line p id) ((granted vm (vm.resumeClaim t p₀ id₀ now) p id).toList.map .serve)
      ((vm.resumeClaim t p₀ id₀ now).line p id) := by
  generalize hResumed : vm.resumeClaim t p₀ id₀ now = vm' at hok' ⊢
  have hself : (vm.load t).tasks t = { vm.tasks t with
      parkEpoch := vm.parkSeq + 1, parkedOnChannel := false, wake := none } :=
    Function.update_self _ _ _
  rw [Vm.resumeClaim] at hResumed
  simp only [hself] at hResumed
  cases hCancel : (vm.tasks t).cancelRequested with
  | true =>
    rw [if_pos hCancel, VmOk.load_tasks] at hResumed
    cases hWake : (vm.tasks t).wake with
    | some lane =>
      -- handed over, and passed on
      have hOpen : openCount vm.tasks [] p₀ id₀ t ≠ 0 := by
        rw [openCount, hPark, hWake]
        simp
      simp only [hWake, Option.isSome_some, if_true] at hResumed
      have hActing : VmOk.Acting vm t :=
        ⟨Or.inr (by simp [hWake]), fun p' => by simp [hPark]⟩
      -- the table asks the tasks as they are after the load
      refine ended_moves hok hok' hActing
        ({ vm with
          tasks := Function.update vm.tasks t { vm.tasks t with
            parkEpoch := vm.parkSeq + 1, parkedOnChannel := false, wake := none, park := none }
          parkSeq := vm.parkSeq + 1 } : Vm).live
        now
        { vm.tasks t with
          parkEpoch := vm.parkSeq + 1, parkedOnChannel := false, wake := none, park := none }
        (hok.owner_of_open hOpen) (fun u e hne => ?_) ?_ ?_ fun u hne => ?_
      · simp only [Vm.live, Function.update_of_ne hne]
      · rw [← hResumed, VmOk.setTask_self, VmOk.endPeerCallAndWake_park]
        simp
      · rw [← hResumed]
        rfl
      · rw [← hResumed]
        exact Function.update_of_ne hne _ _
    | none =>
      simp only [hWake, Option.isSome_none, Bool.false_eq_true, if_false] at hResumed
      refine retract_moves hok t p₀ id₀
        (fun e => by simp [Vm.live, Task.liveAt, hOff]) ?_ (fun u hne => ?_) fun w hw => ?_
      · rw [← hResumed]
        rfl
      · rw [← hResumed]
        simp [Vm.setTask, Vm.setPeer, Function.update_of_ne hne]
      · obtain ⟨hQueued, -⟩ := (hok'.link p).waiting id w hw
        rintro rfl
        rw [← hResumed] at hQueued
        simp [Vm.setTask, Vm.setPeer] at hQueued
  | false =>
    -- not cancelled, it was woken
    have hWoken : (vm.tasks t).wake.isSome = true := by
      refine (hok.runnable t p₀ id₀ kind hPark hOff).resolve_right ?_
      simp [hCancel]
    rw [if_neg (by simp [hCancel]), if_pos hWoken, VmOk.load_tasks] at hResumed
    have hActing : VmOk.Acting vm t :=
      ⟨Or.inr (Option.isSome_iff_ne_none.mp hWoken), fun p' => by simp [hPark]⟩
    refine actor_moves hok hActing (fun p' => by rw [← hResumed]) fun u hne => ?_
    rw [← hResumed]
    exact Function.update_of_ne hne _ _

/-- Nobody is queued at, or owns anything of, a peer that was not there. -/
theorem empty_of_unregistered (hok : VmOk vm) (hp : p ∉ vm.registry) :
    ((vm.peers p).entry id).waiters = [] := by
  by_contra hSome
  obtain ⟨w, hw⟩ := List.exists_mem_of_ne_nil _ hSome
  exact hp (hok.parkedAt w.task p id w.kind ((hok.link p).waiting id w hw).1)

/-- **Step.** Every step is a move of the line, by the turns it makes. -/
theorem step_moves (hok : VmOk vm) (p : PeerId) (id : ObjectId) {a : Action} (hDrains : DrainsParked vm a)
    (hStep : vm.step a = some vm') :
    Moves (vm.line p id) (turns vm a vm' p id) (vm'.line p id) := by
  have hok' := hok.step hDrains hStep
  cases a with
  | register p₀ label lanes =>
    simp only [Vm.step] at hStep
    split_ifs at hStep with hNew
    obtain rfl := Option.some.inj hStep
    show Moves _ ((granted vm _ p id).toList.map .serve) _
    -- a new table is empty, as the line of a peer was that nobody had registered
    by_cases hp : p = p₀
    · subst hp
      have hFresh : Function.update vm.peers p (PeerClaims.new label lanes) p
          = PeerClaims.new label lanes := Function.update_self _ _ _
      have hBefore : vm.line p id = [] := by
        rw [Vm.line, liveLine, empty_of_unregistered hok hNew]
        rfl
      rw [hBefore, granted_of_none (by simp only [Vm.setPeer, hFresh]; rfl), Vm.line]
      simp only [Vm.setPeer, hFresh]
      exact .none _
    · have hSame : Function.update vm.peers p₀ (PeerClaims.new label lanes) p = vm.peers p :=
        Function.update_of_ne hp _ _
      exact quiet_moves (by simp only [Vm.setPeer, hSame]) (by simp only [Vm.setPeer, hSame])
        fun _ _ => rfl
  | call t p₀ id₀ label now =>
    simp only [Vm.step] at hStep
    split_ifs at hStep with hRunning
    simp only [Vm.running, Bool.and_eq_true, Option.isNone_iff_eq_none] at hRunning
    obtain rfl := Option.some.inj hStep
    exact called_moves hok hRunning.1.1 label now
  | resume t now =>
    simp only [Vm.step] at hStep
    split_ifs at hStep with hOn
    split at hStep
    · rename_i p₀ id₀ kind hPark
      obtain rfl := Option.some.inj hStep
      exact resumed_moves hok (by simpa using hOn) hPark hok'
    · -- a drain: who waits for that is in no line
      rename_i p₀ hPark
      obtain rfl := Option.some.inj hStep
      show Moves _ ((granted vm _ p id).toList.map .serve) _
      have hResumed : vm.resumeDrain t = _ := VmOk.load_tasks vm t _
      rw [hResumed]
      refine quiet_moves rfl rfl fun w hw => Function.update_of_ne ?_ _ _
      rintro rfl
      simp [((hok.link p).waiting id w hw).1] at hPark
    · cases hStep
  | endCall t now =>
    simp only [Vm.step] at hStep
    split_ifs at hStep with hRunning
    simp only [Vm.running, Bool.and_eq_true, Option.isNone_iff_eq_none] at hRunning
    split at hStep
    · rename_i p₀ id₀ calls hCalls
      obtain rfl := Option.some.inj hStep
      have hOpen : openCount vm.tasks [] p₀ id₀ t ≠ 0 := by
        rw [VmOk.openCount_of_unwoken (hok.unwoken hRunning.1), hCalls, List.count_cons_self]
        exact Nat.succ_ne_zero _
      refine ended_moves hok hok' (acting_of_idle hRunning.1)
        (vm.setTask t { vm.tasks t with calls }).live now { vm.tasks t with calls }
        (hok.owner_of_open hOpen) (fun u e hne => ?_) ?_ rfl fun u _ => rfl
      · simp only [Vm.live, Vm.setTask, Function.update_of_ne hne]
      · rw [VmOk.endPeerCallAndWake_park, VmOk.setTask_self]
        exact hRunning.1
    · cases hStep
  | drain t p₀ =>
    simp only [Vm.step] at hStep
    split_ifs at hStep with hRunning
    simp only [Vm.running, Bool.and_eq_true, Option.isNone_iff_eq_none] at hRunning
    obtain rfl := Option.some.inj hStep
    -- draining changes lanes and drain waiters, and no queue
    have hObjects : ∀ p' c, c.objects = (vm.peers p₀).objects →
        (Function.update vm.peers p₀ c p').objects = (vm.peers p').objects := by
      intro p' c hc
      rw [Function.update_apply]
      split_ifs with hp
      · rw [hc, hp]
      · rfl
    refine actor_moves hok (acting_of_idle hRunning.1.1) (fun p' => ?_) fun u hne => ?_
    · unfold Vm.drainLanes PeerClaims.requestDrain
      split_ifs
      · exact hObjects p' _ rfl
      · exact hObjects p' _ rfl
    · unfold Vm.drainLanes PeerClaims.requestDrain
      split_ifs
      · rfl
      · exact Function.update_of_ne hne _ _
  | cancel t =>
    obtain rfl := Option.some.inj hStep
    rw [line_cancel hok]
    show Moves _ (if _ then _ else _) _
    -- who is in line leaves it, and who is not has nothing to leave
    split_ifs with hin
    · exact .leave _ _ hin
    · have hAbsent : ∀ k ∈ vm.line p id, k ≠ (t, (vm.tasks t).parkEpoch) :=
        fun k hk heq => hin (heq ▸ hk)
      rw [List.filter_eq_self.mpr (by simpa using hAbsent)]
      exact .none _
  | elsewhere t parked takeCancel =>
    simp only [Vm.step] at hStep
    split_ifs at hStep with hPark
    rw [Option.isNone_iff_eq_none] at hPark
    obtain rfl := Option.some.inj hStep
    rw [VmOk.load_tasks]
    exact actor_moves hok (acting_of_idle hPark) (fun p' => rfl)
      fun u hne => Function.update_of_ne hne _ _

end Line

/-! ## Runs of claims, cancellations and call ends -/

/-- No service is stopped. -/
def Claiming : Action → Prop
  | .drain _ _ => False
  | _ => True

instance : DecidablePred Claiming
  | .drain _ _ => isFalse id
  | .register _ _ _ => isTrue trivial
  | .call _ _ _ _ _ => isTrue trivial
  | .resume _ _ => isTrue trivial
  | .endCall _ _ => isTrue trivial
  | .cancel _ => isTrue trivial
  | .elsewhere _ _ _ => isTrue trivial

/-- Nobody waits for a peer to fall silent. -/
def Undrained (vm : Vm) : Prop := ∀ p, (vm.peers p).drainWaiters = []

section Undrained

variable {vm vm' : Vm} {p : PeerId} {id : ObjectId} {t : TaskId}

theorem Undrained.drainsParked (h : Undrained vm) (a : Action) : DrainsParked vm a := by
  rw [DrainsParked]
  split
  · trivial
  · rw [h]
    simp

theorem Undrained.update (h : Undrained vm) {c : PeerClaims}
    (hc : ∀ w ∈ c.drainWaiters, w ∈ (vm.peers p).drainWaiters) (q : PeerId) :
    (Function.update vm.peers p c q).drainWaiters = [] := by
  rw [Function.update_apply]
  split_ifs
  · refine List.eq_nil_iff_forall_not_mem.mpr fun w hw => ?_
    have hin := hc w hw
    rw [h] at hin
    cases hin
  · exact h q

theorem Undrained.step (h : Undrained vm) (hok : VmOk vm) {a : Action} (hClaiming : Claiming a)
    (hStep : vm.step a = some vm') : Undrained vm' := by
  -- the end of a call wakes drain waiters, and makes none
  have hEnded : ∀ (live : Live) (p : PeerId) (id : ObjectId) (t : TaskId) (now : Nat),
      openCount vm.tasks [] p id t ≠ 0 →
      ∀ w ∈ ((vm.peers p).endCall id live now).1.drainWaiters, w ∈ (vm.peers p).drainWaiters := by
    intro live p id t now hOpen
    obtain ⟨e, hOwner⟩ := hok.owner_of_open hOpen
    refine (endCall_fields (hok.table p) (fun o hObj => ?_) live now).2
    rw [← PeerClaims.entry_of_some _ id hObj, hOwner]
    rfl
  cases a with
  | register p label lanes =>
    simp only [Vm.step] at hStep
    split_ifs at hStep
    obtain rfl := Option.some.inj hStep
    exact h.update fun w hw => by cases hw
  | call t p id label now =>
    simp only [Vm.step] at hStep
    split_ifs at hStep
    obtain rfl := Option.some.inj hStep
    obtain ⟨-, -, hKept⟩ := tryAcquire_acquired (vm.peers p) t (vm.tasks t).parkEpoch id label
      (Vm.waitKind (vm.tasks t) p == .nested)
    have hAcquired : Undrained (vm.setPeer p ((vm.peers p).tryAcquire t (vm.tasks t).parkEpoch id
        label (Vm.waitKind (vm.tasks t) p == .nested)).1) := h.update (by rw [hKept]; simp)
    unfold Vm.claimPeerObject
    simp only
    split
    · exact hAcquired
    · exact hAcquired
    · exact hAcquired
    · unfold Vm.awaitClaim
      simp only
      split
      · exact hAcquired.update fun w hw => hw
      · exact hAcquired.update (by rw [(enqueue_fields _ _ _ _ _ _ _).2]; simp)
  | resume t now =>
    simp only [Vm.step] at hStep
    split_ifs at hStep
    split at hStep
    · rename_i p id kind hPark
      obtain rfl := Option.some.inj hStep
      unfold Vm.resumeClaim
      simp only
      split_ifs with hCancel hHanded
      · refine h.update (hEnded _ p id t now ?_)
        obtain ⟨lane, hWake⟩ := Option.isSome_iff_exists.mp hHanded
        simp [openCount, hPark, hWake]
      · exact h.update (by rw [(retract_fields _ _ _).2]; exact fun w hw => hw)
      · exact h
      · exact h
    · obtain rfl := Option.some.inj hStep
      exact h
    · cases hStep
  | endCall t now =>
    simp only [Vm.step] at hStep
    split_ifs at hStep with hRunning
    simp only [Vm.running, Bool.and_eq_true, Option.isNone_iff_eq_none] at hRunning
    split at hStep
    · rename_i p id calls hCalls
      obtain rfl := Option.some.inj hStep
      refine h.update (hEnded _ p id t now ?_)
      rw [VmOk.openCount_of_unwoken (hok.unwoken hRunning.1), hCalls, List.count_cons_self]
      exact Nat.succ_ne_zero _
    · cases hStep
  | drain t p => exact absurd hClaiming id
  | cancel t =>
    obtain rfl := Option.some.inj hStep
    exact h
  | elsewhere t parked takeCancel =>
    simp only [Vm.step] at hStep
    split_ifs at hStep
    obtain rfl := Option.some.inj hStep
    exact h

end Undrained

/-- Who joined did so in its last park or an earlier one. -/
def Known (vm : Vm) (log : List (Turn (TaskId × Epoch))) : Prop :=
  ∀ t e, .join (t, e) ∈ log →
    e < (vm.tasks t).parkEpoch ∨ e = (vm.tasks t).parkEpoch ∧ (vm.tasks t).park.isSome

/-- Only a running task joins a line, at its epoch, and it is parked then. -/
theorem join_of_turns {vm vm' : Vm} {a : Action} {p : PeerId} {id : ObjectId} {t : TaskId}
    {e : Epoch} (hStep : vm.step a = some vm') (hJoin : .join (t, e) ∈ turns vm a vm' p id) :
    e = (vm.tasks t).parkEpoch ∧ (vm.tasks t).park = none ∧ (vm'.tasks t).park.isSome := by
  cases a with
  | call u p₀ id₀ label now =>
    simp only [Vm.step] at hStep
    split_ifs at hStep with hRunning
    simp only [Vm.running, Bool.and_eq_true, Option.isNone_iff_eq_none] at hRunning
    rw [turns_call, List.mem_append] at hJoin
    rcases hJoin with hEnter | hJoin
    · simp at hEnter
    · split_ifs at hJoin with hWants
      · obtain ⟨rfl, rfl⟩ : t = u ∧ e = (vm.tasks u).parkEpoch := by simpa using hJoin
        refine ⟨rfl, hRunning.1.1, ?_⟩
        cases hPark : (vm'.tasks t).park with
        | none => simp [hPark] at hWants
        | some _ => rfl
      · obtain ⟨rfl, rfl⟩ : t = u ∧ e = (vm.tasks u).parkEpoch := by simpa using hJoin
        refine ⟨rfl, hRunning.1.1, ?_⟩
        cases hPark : (vm'.tasks t).park with
        | none => simp [hPark] at hWants
        | some _ => rfl
      · cases hJoin
  | cancel u =>
    simp only [turns] at hJoin
    split_ifs at hJoin <;> simp at hJoin
  | register => simp [turns] at hJoin
  | resume => simp [turns] at hJoin
  | endCall => simp [turns] at hJoin
  | drain => simp [turns] at hJoin
  | elsewhere => simp [turns] at hJoin

/-- The history of an object's line, in any state of a run. -/
structure LineOk (p : PeerId) (id : ObjectId) (s : Vm × List (Turn (TaskId × Epoch))) : Prop where
  vm : VmOk s.1
  undrained : Undrained s.1
  orderly : Orderly s.2
  line : lineOf s.2 = s.1.line p id
  known : Known s.1 s.2

theorem LineOk.step {p : PeerId} {id : ObjectId} {s s' : Vm × List (Turn (TaskId × Epoch))}
    {a : Action} (h : LineOk p id s) (hClaiming : Claiming a)
    (hStep : auditStep p id s a = some s') : LineOk p id s' := by
  obtain ⟨vm, log⟩ := s
  obtain ⟨vm', hVm, rfl⟩ := Option.map_eq_some_iff.mp hStep
  have hDrains := h.undrained.drainsParked a
  have hMoves := step_moves h.vm p id hDrains hVm
  rw [← h.line] at hMoves
  have hFresh : ∀ k, .join k ∈ turns vm a vm' p id → .join k ∉ log := by
    rintro ⟨t, e⟩ hJoin hOld
    obtain ⟨rfl, hPark, -⟩ := join_of_turns hVm hJoin
    rcases h.known t _ hOld with hEarlier | ⟨-, hParked⟩
    · exact absurd hEarlier (Nat.lt_irrefl _)
    · rw [hPark] at hParked
      cases hParked
  obtain ⟨hOrderly, hLine⟩ := h.orderly.moves hMoves hFresh
  refine ⟨h.vm.step hDrains hVm, h.undrained.step h.vm hClaiming hVm, hOrderly, hLine, ?_⟩
  intro t e hJoin
  have hEpoch := step_epoch h.vm hVm t
  rcases List.mem_append.mp hJoin with hOld | hNew
  · rcases h.known t e hOld with hEarlier | ⟨rfl, hParked⟩
    · rcases hEpoch with hLater | ⟨hSame, -⟩
      · exact Or.inl (Nat.lt_trans hEarlier hLater)
      · exact Or.inl (hSame ▸ hEarlier)
    · rcases hEpoch with hLater | ⟨hSame, hStays⟩
      · exact Or.inl hLater
      · exact Or.inr ⟨hSame.symm, hStays hParked⟩
  · obtain ⟨rfl, hPark, hParked⟩ := join_of_turns hVm hNew
    rcases hEpoch with hLater | ⟨hSame, -⟩
    · exact Or.inl hLater
    · exact Or.inr ⟨hSame.symm, hParked⟩

/-- Over every interleaving of claims, cancellations and call ends: one task at a
time owns an object, its live waiters are in line in the order they queued, and
the history of the line is first come, first served. -/
theorem claims_fair {p : PeerId} {id : ObjectId} {vm : Vm} {log : List (Turn (TaskId × Epoch))}
    (hRun : Run (auditStep p id) (fun _ a => Claiming a) (Vm.init, []) (vm, log)) :
    (∀ t u, Owns vm t p id → Owns vm u p id → t = u) ∧ lineOf log = vm.line p id ∧ Fair log := by
  have hok : LineOk p id (vm, log) := by
    refine hRun.invariant (P := LineOk p id) ⟨init_ok, fun _ => rfl, .nil, rfl, ?_⟩
      fun s a s' h hClaiming hStep => h.step hClaiming hStep
    intro t e hin
    cases hin
  refine ⟨fun t u ht hu => ?_, hok.line, hok.orderly.fair⟩
  have hOwner : ∀ t, Owns vm t p id → ∃ e, ((vm.peers p).entry id).owner = some (t, e) := by
    rintro t (hCall | ⟨⟨kind, hPark⟩, hWake⟩)
    · refine hok.vm.owner_of_open ?_
      have hCount := List.count_pos_iff.mpr hCall
      rw [openCount]
      exact Nat.ne_of_gt (Nat.lt_add_right _ hCount)
    · refine hok.vm.owner_of_open ?_
      simp [openCount, hPark, hWake]
  obtain ⟨e, hOne⟩ := hOwner t ht
  obtain ⟨e', hOther⟩ := hOwner u hu
  rw [hOne] at hOther
  exact (Prod.mk.inj (Option.some.inj hOther)).1

/-- Tasks 2 and 3 queue for task 1's object; 2 is cancelled, so 3 gets it. -/
def handedPast : List Action :=
  [.register 0 "p" 1, .call 1 0 5 "Z" 0, .call 2 0 5 "Z" 1, .call 3 0 5 "Z" 2, .cancel 2,
    .endCall 1 3]

/-- The line of that run, turn by turn, is fair although the second in it left before it was served.
-/
theorem claims_fair_handedPast : ∃ vm log,
    Run (auditStep 0 5) (fun _ a => Claiming a) (Vm.init, []) (vm, log) ∧
      log = [.enter (1, 0), .join (2, 0), .join (3, 0), .leave (2, 0), .serve (3, 0)] ∧
      Fair log := by
  have hExec : (exec (auditStep 0 5) (fun _ a => Claiming a) (Vm.init, []) handedPast).map Prod.snd
      = some [.enter (1, 0), .join (2, 0), .join (3, 0), .leave (2, 0), .serve (3, 0)] := by
    decide +kernel
  obtain ⟨⟨vm, log⟩, hRun, hLog⟩ := run_of_exec_map hExec
  exact ⟨vm, log, hRun, hLog, (claims_fair hRun).2.2⟩

end Quoin.Claims
