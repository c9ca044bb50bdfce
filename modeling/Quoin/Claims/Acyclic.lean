import Quoin.Claims.Actors
import Quoin.Claims.Graph

/-!
# Quoin — no cycle of waits

The graph "parked task — owner of the object it is parked for" never closes,
and `would_deadlock` reports a cycle exactly when the new edge would close one,
in the runs where the walk can see every edge. An edge is hidden from it in two
cases: the task that parked had a cancellation pending, so its entry never
counted as live (`CallersLive`), or a stale drain waiter was woken in a later
park, left a ghost in that queue, and the ghost took the edge of the task's
next park with it (`DrainsParked`).

## Results

* `waits_acyclic` — in runs that hide no edge the waits-for graph has no cycle, and the walk reports
  one exactly when the new edge would close it;
* `hiddenEdge_cyclic` — a caller that parked with a cancellation pending is on a cycle that the walk
  does not see.
-/

namespace Quoin.Claims

open Trans

/-- Together with `t`, at most as many tasks are parked as the walk has steps. -/
def FewParked (vm : Vm) (t : TaskId) : Prop :=
  ∃ S : Finset TaskId, S.card ≤ 64 ∧ t ∈ S ∧ ∀ u, Parked vm u → u ∈ S

/-- Calls are made while there are at most 64 tasks. -/
def AtMost64 (vm : Vm) (a : Action) : Prop :=
  ∀ t p id label now, a = .call t p id label now → FewParked vm t

/-- A task that queues has no cancellation pending. -/
def CallersLive (vm : Vm) (a : Action) : Prop :=
  ∀ t p id label now, a = .call t p id label now → vm.queues t p id →
    (vm.tasks t).cancelRequested = false

namespace GraphOk

variable {vm vm' : Vm} {t u : TaskId}

/-- With few tasks, a way back to `t` is within the reach of the walk. -/
theorem leads_iff (h : GraphOk vm) (hFew : FewParked vm t) :
    Leads vm.blocker u t ↔ ∃ n, n < maxWalk ∧ follow vm.blocker n u = some t := by
  constructor
  · rintro ⟨n, hn⟩
    obtain ⟨S, hCard, hin, hParked⟩ := hFew
    have hEdges : ∀ a b, vm.blocker a = some b → a ∈ S := by
      intro a b hab
      obtain ⟨p, id, e, hOn, -⟩ := parkedOn_of_blocker hab
      exact hParked a ⟨p, id, hOn⟩
    have hShort := h.acyclic.follow_lt_card hEdges hin hn
    exact ⟨n, Nat.lt_of_lt_of_le hShort hCard, hn⟩
  · rintro ⟨n, -, hn⟩
    exact ⟨n, hn⟩

/-- **The walk reports exactly the cycles** the edge from `t` to `u` would close. -/
theorem wouldDeadlock_iff (h : GraphOk vm) (hok : VmOk vm) (hIdle : ¬ Parked vm t)
    (hFew : FewParked vm t) (label : String) :
    (wouldDeadlock (vm.registry.map vm.peers) t u label vm.live).isSome ↔
      Cyclic (Function.update vm.blocker t (some u)) := by
  have hEdges : (fun u => (nextEdge (vm.registry.map vm.peers) u vm.live).map Prod.fst)
      = vm.blocker := funext fun u => nextEdge_eq_blocker hok h.asleep u
  rw [cyclic_update_iff h.acyclic (blocker_of_not_parked hIdle), h.leads_iff hFew,
    wouldDeadlock, walk_isSome, hEdges]

/-- **Step.** -/
theorem step (h : GraphOk vm) (hok : VmOk vm) {a : Action} (hLive : CallersLive vm a)
    (hFew : AtMost64 vm a) (hStep : vm.step a = some vm') : GraphOk vm' := by
  rcases step_graph hok h.asleep hStep with hEases | ⟨t, p, id, label, now, rfl, hQueues, hParks⟩
  · exact h.eases hEases
  · refine h.parks hok hParks (hLive t p id label now rfl hQueues) fun u e _ hLeads => ?_
    exact (h.leads_iff (hFew t p id label now rfl)).mp hLeads

end GraphOk

theorem init_graphOk : GraphOk Vm.init := by
  refine ⟨?_, Acyclic.of_idle fun t => rfl⟩
  rintro t p id ⟨⟨kind, hk⟩, -⟩
  cases hk

theorem run_graphOk {vm : Vm}
    (hRun : Run Vm.step (fun vm a => DrainsParked vm a ∧ CallersLive vm a ∧ AtMost64 vm a)
      Vm.init vm) : VmOk vm ∧ GraphOk vm := by
  refine hRun.invariant (P := fun vm => VmOk vm ∧ GraphOk vm) ⟨init_ok, init_graphOk⟩ ?_
  rintro vm a vm' ⟨hok, hGraph⟩ ⟨hDrains, hLive, hFew⟩ hStep
  exact ⟨hok.step hDrains hStep, hGraph.step hok hLive hFew hStep⟩

/-- A claim that was refused changes no edge. -/
theorem graph_of_wouldQueue {vm : Vm} (hok : VmOk vm) (hGraph : GraphOk vm) {t : TaskId}
    {p : PeerId} {epoch : Epoch} {id : ObjectId} {label : String} {nested : Bool} {c : PeerClaims}
    {blocker : Option TaskId}
    (hQueue : (vm.peers p).tryAcquire t epoch id label nested = (c, .wouldQueue blocker)) :
    VmOk (vm.setPeer p c) ∧ GraphOk (vm.setPeer p c) ∧
      (vm.setPeer p c).blocker = vm.blocker := by
  have hTable := (hok.table p).tryAcquire t epoch id label nested
  have hCount := tryAcquire_laneCount (vm.peers p) t epoch id label nested
  obtain ⟨hAcquired, hParkedOn, hDrain⟩ := tryAcquire_acquired (vm.peers p) t epoch id label nested
  rw [hQueue] at hTable hCount hAcquired hParkedOn hDrain
  simp only at hTable hCount hAcquired hParkedOn hDrain
  have hBare : ∀ id', (c.entry id').bare = ((vm.peers p).entry id').bare := by
    cases hAcquired with
    | blocked u epoch' hOwner hne hEntry => exact hEntry
    | behind hFree hWhy hLanes hEntry => exact hEntry
  have hOwner := fun id' => ObjectClaim.owner_of_bare (hBare id')
  have hEases : Eases none vm (vm.setPeer p c) := Eases.setPeer vm p c hOwner hCount
  exact ⟨hok.setPeer hTable ((hok.link p).congr hParkedOn hBare) (fun w hw => hDrain ▸ hw)
    fun p' hin => hin, hGraph.eases hEases, blocker_setPeer hOwner⟩

/-- In a run whose walks see every edge, the waits never form a cycle, and where a
call is refused with an owner, the walk from it reports a cycle exactly when
parking would close one. -/
theorem waits_acyclic {vm : Vm}
    (hRun : Run Vm.step (fun vm a => DrainsParked vm a ∧ CallersLive vm a ∧ AtMost64 vm a)
      Vm.init vm) :
    ¬ Cyclic vm.blocker ∧
    ∀ t p id label nested c u, vm.running t = true → FewParked vm t →
      (vm.peers p).tryAcquire t (vm.tasks t).parkEpoch id label nested
        = (c, .wouldQueue (some u)) →
      ((wouldDeadlock (vm.registry.map (vm.setPeer p c).peers) t u s!"{label}#{id}"
          (vm.setPeer p c).live).isSome ↔
        Cyclic (Function.update vm.blocker t (some u))) := by
  obtain ⟨hok, hGraph⟩ := run_graphOk hRun
  refine ⟨hGraph.acyclic.not_cyclic, fun t p id label nested c u hRunning hFew hQueue => ?_⟩
  obtain ⟨hok', hGraph', hBlocker⟩ := graph_of_wouldQueue hok hGraph hQueue
  have hIdle : ¬ Parked (vm.setPeer p c) t := by
    rintro ⟨p', id', ⟨kind, hk⟩, -⟩
    replace hk : (vm.tasks t).park = _ := hk
    simp [Vm.running, hk] at hRunning
  rw [← hBlocker]
  exact hGraph'.wouldDeadlock_iff hok' hIdle hFew _

/-! ## Few task slots -/

/-- The step is taken by one of the first 64 task slots. -/
def Action.FromFew (a : Action) : Prop := ∀ t ∈ a.task, t < 64

instance (a : Action) : Decidable a.FromFew := Option.decidableForallMem a.task

/-- The slots from 64 on are not in use. -/
def SlotsIdle (vm : Vm) : Prop := ∀ u, 64 ≤ u → (vm.tasks u).park = none

theorem SlotsIdle.step {vm vm' : Vm} {a : Action} (h : SlotsIdle vm) (hFew : a.FromFew)
    (hStep : vm.step a = some vm') : SlotsIdle vm' := by
  intro u hu
  have hne : u ∉ a.task := fun hin => Nat.not_lt.mpr hu (hFew u hin)
  rw [(step_others hne hStep).1, h u hu]

theorem SlotsIdle.fewParked {vm : Vm} {t : TaskId} (h : SlotsIdle vm) (ht : t < 64) :
    FewParked vm t := by
  refine ⟨Finset.range 64, by simp, by simpa using ht, ?_⟩
  rintro u ⟨p, id, ⟨kind, hk⟩, -⟩
  rw [Finset.mem_range]
  by_contra hge
  simp [h u (Nat.le_of_not_lt hge)] at hk

/-- Where only the first 64 slots are used, there are at most 64 tasks at any time. -/
theorem atMost64_of_few {ok : Vm → Action → Prop} (hFew : ∀ vm a, ok vm a → a.FromFew) {vm : Vm}
    (hRun : Run Vm.step ok Vm.init vm) :
    SlotsIdle vm ∧ Run Vm.step (fun vm a => ok vm a ∧ AtMost64 vm a) Vm.init vm := by
  have hStep : ∀ vm a vm', SlotsIdle vm → ok vm a → vm.step a = some vm' → SlotsIdle vm' :=
    fun vm a vm' hIdle hok hs => hIdle.step (hFew vm a hok) hs
  refine ⟨hRun.invariant (fun u _ => rfl) hStep,
    hRun.mono_of_invariant (fun u _ => rfl) hStep fun vm a hIdle hok => ⟨hok, ?_⟩⟩
  rintro t p id label now rfl
  exact hIdle.fewParked (hFew vm _ hok t rfl)

/-- Tasks 1 and 2 hold one object each and task 1 waits for the other's. -/
def crossed : List Action :=
  [.register 0 "p" 1, .register 1 "q" 1, .call 1 0 10 "X" 0, .call 2 1 11 "Y" 1,
    .call 1 1 11 "Y" 2]

/-- Task 2 may not wait for task 1 as well: the walk reports the cycle. -/
theorem waits_acyclic_crossed : ∃ vm,
    Run Vm.step (fun vm a => DrainsParked vm a ∧ CallersLive vm a ∧ AtMost64 vm a) Vm.init vm ∧
      ¬ Cyclic vm.blocker ∧ Cyclic (Function.update vm.blocker 2 (some 1)) := by
  have hExec : (exec Vm.step (fun vm a => DrainsParked vm a ∧
      (∀ t ∈ a.task, (vm.tasks t).cancelRequested = false) ∧ a.FromFew) Vm.init crossed).map
      ((fun label (id : ObjectId) (vm : Vm) =>
        let r := (vm.peers 0).tryAcquire 2 (vm.tasks 2).parkEpoch id label false
        (vm.running 2, r.2, (wouldDeadlock (vm.registry.map (vm.setPeer 0 r.1).peers) 2 1
          s!"{label}#{id}" (vm.setPeer 0 r.1).live).isSome)) "X" 10)
      = some (true, .wouldQueue (some 1), true) := by decide +kernel
  obtain ⟨vm, hRun, hEnd⟩ := run_of_exec_map hExec
  obtain ⟨hIdle, hFew⟩ := atMost64_of_few (fun _ _ h => h.2.2) hRun
  have hChecked : Run Vm.step
      (fun vm a => DrainsParked vm a ∧ CallersLive vm a ∧ AtMost64 vm a) Vm.init vm := by
    refine hFew.mono fun vm a h => ⟨h.1.1, ?_, h.2⟩
    rintro t p id label now rfl -
    exact h.1.2.1 t rfl
  obtain ⟨hAcyclic, hReports⟩ := waits_acyclic hChecked
  obtain ⟨hRunning, hEnd⟩ := Prod.mk.inj hEnd
  obtain ⟨hDecision, hFound⟩ := Prod.mk.inj hEnd
  exact ⟨vm, hChecked, hAcyclic, (hReports 2 0 10 "X" false _ 1 hRunning
    (hIdle.fewParked (by decide)) (Prod.ext rfl hDecision)).mp hFound⟩

/-! ## The hidden edge -/

/-- Task 1 stops peer 0 and is cancelled in the drain, but its drain waiter stays. Parked
again, for object 11, it is woken when that drain ends and leaves a ghost in the
queue. When the ghost is dropped, task 1 waits for object 12, and that edge goes
too: task 2, who has object 12, may wait for task 1. -/
def hiddenEdge : List Action :=
  [.register 0 "p" 1, .register 1 "q" 3, .call 3 0 10 "W" 0, .call 4 1 11 "X" 1,
    .call 2 1 12 "Y" 2, .drain 1 0, .cancel 1, .resume 1 3, .call 1 1 13 "Z" 4,
    .call 1 1 11 "X" 5, .endCall 3 6, .resume 1 7, .call 1 1 12 "Y" 8, .endCall 4 9,
    .call 2 1 13 "Z" 10]

/-- So tasks 1 and 2 wait for each other, and neither walk has seen it. -/
theorem hiddenEdge_cyclic :
    ¬ ∀ vm, Run Vm.step AtMost64 Vm.init vm → ¬ Cyclic vm.blocker := by
  intro hAll
  have hExec : (exec Vm.step (fun _ a => a.FromFew) Vm.init hiddenEdge).map
      (fun vm => (vm.blocker 1, vm.blocker 2)) = some (some 2, some 1) := by decide +kernel
  obtain ⟨vm, hRun, hBlockers⟩ := run_of_exec_map hExec
  obtain ⟨hOne, hTwo⟩ := Prod.mk.inj hBlockers
  have hRun' := (atMost64_of_few (fun _ _ h => h) hRun).2.mono fun _ _ h => h.2
  exact hAll vm hRun' ⟨1, 1, by simp [follow, hOne, hTwo]⟩

/-- A task cancelled before it queues has no live entry, so its edge is not seen either. -/
def cancelledCaller : List Action :=
  [.register 0 "p" 1, .register 1 "q" 1, .call 1 0 10 "X" 0, .call 2 1 11 "Y" 1, .cancel 1,
    .call 1 1 11 "Y" 2, .call 2 0 10 "X" 3]

theorem cancelledCaller_cyclic :
    ∃ vm, Run Vm.step DrainsParked Vm.init vm ∧ Cyclic vm.blocker := by
  have hExec : (exec Vm.step DrainsParked Vm.init cancelledCaller).map
      (fun vm => (vm.blocker 1, vm.blocker 2)) = some (some 2, some 1) := by decide +kernel
  obtain ⟨vm, hRun, hBlockers⟩ := run_of_exec_map hExec
  obtain ⟨hOne, hTwo⟩ := Prod.mk.inj hBlockers
  exact ⟨vm, hRun, 1, 1, by simp [follow, hOne, hTwo]⟩

end Quoin.Claims
