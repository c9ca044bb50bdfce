import Quoin.Claims.Effects

/-!
# Quoin — the claims layer, in every run

`VmOk` is what holds of all tables and tasks together between two steps:
every table is consistent and linked to the tasks, wakes go to suspended
tasks, and a registered drain waiter is either in that drain or long past it.

The last clause is where the source falls short. `release_lane` wakes the drain
waiters it recorded without asking whether they still wait — the liveness check
every other hand-over makes — so a `serviceStop` that was cancelled is woken
all the same, wherever its task is by then. If that is another
`claim_peer_object`, the task goes on as if it had been handed the object, and
later releases an object it does not own. As long as no drain waiter is gone
when its wake is sent (`DrainsParked`), every table of every reachable state is
consistent.

## Results

* `run_ok` — `VmOk` holds in every state of a run in which no step wakes a drain waiter that is
  gone;
* `table_consistent` — so every table of every state is consistent;
* `strayWake_breaks_table` — a wake that goes to a cancelled drain waiter breaks a table.
-/

namespace Quoin.Claims

open Trans

/-! ## Consistency of one table -/

/-- A table as its users rely on it. -/
structure PeerClaims.Consistent (c : PeerClaims) : Prop where
  /-- The lanes are the free ones and those held by owned objects, -/
  lanes : ∀ l, l < c.laneCount ↔ l ∈ c.freeLanes ∨
    ∃ id o, c.objects id = some o ∧ o.owner.isSome ∧ o.ownerLane = some l
  /-- none of them twice. -/
  freeNodup : c.freeLanes.Nodup
  heldNodup : ∀ l id id' o o', c.objects id = some o → c.objects id' = some o' →
    o.ownerLane = some l → o'.ownerLane = some l → id = id'
  freeNotHeld : ∀ l ∈ c.freeLanes, ∀ id o, c.objects id = some o → o.ownerLane ≠ some l
  notBoth : ∀ id o, c.objects id = some o → ¬ (o.owner.isSome ∧ o.reserved = true)
  ownedDepth : ∀ id o, c.objects id = some o → o.owner.isSome → 1 ≤ o.depth
  unownedDepth : ∀ id o, c.objects id = some o → o.owner = none → o.depth = 0
  /-- The lane queue is the reserved objects, once each, -/
  ready : ∀ id, id ∈ c.readyHeads ↔ ∃ o, c.objects id = some o ∧ o.reserved = true
  readyNodup : c.readyHeads.Nodup
  /-- and nobody waits for a lane while one is free. -/
  freeReady : c.freeLanes ≠ [] → c.readyHeads = []

theorem TableOk.consistent {c : PeerClaims} (h : TableOk c none none) : c.Consistent := by
  have hentry : ∀ id o, c.objects id = some o → c.entry id = o := fun id _ => c.entry_of_some id
  -- an entry that says something exists
  have hexists : ∀ id, c.entry id ≠ {} → c.objects id = some (c.entry id) := by
    intro id hne
    cases hobj : c.objects id with
    | none => exact absurd (c.entry_of_none id hobj) hne
    | some o => rw [hentry id o hobj]
  refine ⟨?_, h.lanes.freeNodup, ?_, ?_, ?_, ?_, ?_, ?_, h.ready.nodup, h.freeReady⟩
  · intro l
    rw [h.lanes.total]
    constructor
    · rintro (hfree | ⟨id, hheld⟩ | hlimbo)
      · exact Or.inl hfree
      · refine Or.inr ⟨id, c.entry id, hexists id ?_, ?_, hheld⟩
        · intro hidle
          rw [hidle] at hheld
          cases hheld
        · cases howner : (c.entry id).owner with
          | some _ => rfl
          | none =>
            rw [((h.object id).unowned howner).2] at hheld
            cases hheld
      · cases hlimbo
    · rintro (hfree | ⟨id, o, hobj, -, hheld⟩)
      · exact Or.inl hfree
      · exact Or.inr (Or.inl ⟨id, by rw [hentry id o hobj]; exact hheld⟩)
  · intro l id id' o o' hobj hobj' hheld hheld'
    refine h.lanes.heldOnce l id id' ?_ ?_
    · rw [hentry id o hobj]
      exact hheld
    · rw [hentry id' o' hobj']
      exact hheld'
  · intro l hl id o hobj
    rw [← hentry id o hobj]
    exact h.lanes.freeNotHeld l hl id
  · rintro id o hobj ⟨howned, hres⟩
    rw [← hentry id o hobj] at howned hres
    rw [((h.object id).owned howned).2] at hres
    cases hres
  · intro id o hobj howned
    rw [← hentry id o hobj] at howned ⊢
    exact ((h.object id).owned howned).1
  · intro id o hobj hfree
    rw [← hentry id o hobj] at hfree ⊢
    exact ((h.object id).unowned hfree).1
  · intro id
    rw [h.ready.mem]
    constructor
    · intro hres
      refine ⟨c.entry id, hexists id ?_, hres⟩
      intro hidle
      rw [hidle] at hres
      cases hres
    · rintro ⟨o, hobj, hres⟩
      rw [hentry id o hobj]
      exact hres

/-! ## The invariant -/

structure VmOk (vm : Vm) : Prop where
  table : ∀ p, TableOk (vm.peers p) none none
  link : ∀ p, Linked (vm.peers p) p vm.tasks []
  epoch : ∀ t, (vm.tasks t).parkEpoch ≤ vm.parkSeq
  drain : ∀ p t e, (t, e) ∈ (vm.peers p).drainWaiters →
    e < (vm.tasks t).parkEpoch ∨
      e = (vm.tasks t).parkEpoch ∧ (vm.tasks t).park = some (.drain p)
  woken : ∀ t, (vm.tasks t).wake.isSome → (vm.tasks t).park.isSome
  runnable : ∀ t p id kind, (vm.tasks t).park = some (.claim p id kind) →
    (vm.tasks t).parkedOnChannel = false →
      (vm.tasks t).wake.isSome ∨ (vm.tasks t).cancelRequested = true
  registered : ∀ t p id, (p, id) ∈ (vm.tasks t).calls → p ∈ vm.registry
  parkedAt : ∀ t p id kind, (vm.tasks t).park = some (.claim p id kind) → p ∈ vm.registry

/-- The call an action ends, if it ends one: the innermost call of a task, or a
claim handed to a task that was cancelled meanwhile. -/
def Vm.ends (vm : Vm) : Action → Option (PeerId × ObjectId)
  | .endCall t _ => (vm.tasks t).calls.head?
  | .resume t _ =>
    match (vm.tasks t).park with
    | some (.claim p id _) =>
      if (vm.tasks t).wake.isSome && (vm.tasks t).cancelRequested then some (p, id) else none
    | _ => none
  | _ => none

/-- Whoever is woken when the last lane of a peer comes home is still parked in
its drain. -/
def DrainsParked (vm : Vm) (a : Action) : Prop :=
  match vm.ends a with
  | none => True
  | some (p, id) =>
    LastLane (vm.peers p) id → ∀ w ∈ (vm.peers p).drainWaiters, vm.live w.1 w.2 = true

instance (vm : Vm) (a : Action) : Decidable (DrainsParked vm a) :=
  match h : vm.ends a with
  | none => isTrue (by rw [DrainsParked, h]; trivial)
  | some (p, id) =>
    decidable_of_iff
      (LastLane (vm.peers p) id → ∀ w ∈ (vm.peers p).drainWaiters, vm.live w.1 w.2 = true)
      (by rw [DrainsParked, h])

theorem DrainsParked.of_ends {vm : Vm} {a : Action} {p : PeerId} {id : ObjectId}
    (h : DrainsParked vm a) (hends : vm.ends a = some (p, id)) (hlast : LastLane (vm.peers p) id) :
    ∀ w ∈ (vm.peers p).drainWaiters, vm.live w.1 w.2 = true := by
  rw [DrainsParked, hends] at h
  exact h hlast

theorem init_ok : VmOk Vm.init := by
  refine ⟨fun p => TableOk.new "" 1, fun p => ?_, fun t => Nat.le_refl 0, ?_, ?_, ?_, ?_, ?_⟩
  · refine ⟨fun id t => rfl, ?_, fun id => List.nodup_nil, ?_, ?_, ?_⟩
    · intro id w hw
      cases hw
    · intro t id e he
      cases he
    · intro t id kind hkind
      cases hkind
    · intro t ht
      cases ht
  · intro p t e he
    cases he
  · intro t ht
    cases ht
  · intro t p id kind hkind
    cases hkind
  · intro t p id hin
    cases hin
  · intro t p id kind hkind
    cases hkind

/-! ## Waking -/

/-- A task is woken by the grants that name it, and by nothing else. -/
theorem deliver_apply (tasks : TaskId → Task) (grants : List Grant) (t : TaskId) :
    (t ∉ grants.map Grant.task → Vm.deliver tasks grants t = tasks t) ∧
    (t ∈ grants.map Grant.task → ∃ lane, Vm.deliver tasks grants t =
      { tasks t with parkedOnChannel := false, wake := some lane }) := by
  induction grants generalizing tasks with
  | nil => exact ⟨fun _ => rfl, fun h => by cases h⟩
  | cons g rest ih =>
    obtain ⟨hout, hin⟩ := ih (Vm.wakeChannelTask tasks g)
    have hhead : ∀ u, Vm.wakeChannelTask tasks g u = if u = g.task then
        { tasks g.task with parkedOnChannel := false, wake := some g.lane } else tasks u :=
      fun u => Function.update_apply _ _ _ _
    rw [List.map_cons, List.mem_cons, not_or]
    constructor
    · rintro ⟨hne, hrest⟩
      show Vm.deliver (Vm.wakeChannelTask tasks g) rest t = _
      rw [hout hrest, hhead, if_neg hne]
    · intro hmem
      show ∃ lane, Vm.deliver (Vm.wakeChannelTask tasks g) rest t = _
      by_cases hrest : t ∈ rest.map Grant.task
      · obtain ⟨lane, hlane⟩ := hin hrest
        refine ⟨lane, ?_⟩
        rw [hlane, hhead]
        split_ifs with ht
        · rw [ht]
        · rfl
      · have ht : t = g.task := hmem.resolve_right hrest
        refine ⟨g.lane, ?_⟩
        rw [hout hrest, hhead, if_pos ht, ht]

/-! ## One step -/

namespace VmOk

variable {vm : Vm} {t : TaskId} {task : Task}

/-- A task that acts is in no queue: it is running, or it was handed its claim. -/
def Acting (vm : Vm) (t : TaskId) : Prop :=
  ((∀ p id kind, (vm.tasks t).park ≠ some (.claim p id kind)) ∨ (vm.tasks t).wake ≠ none) ∧
    ∀ p, (vm.tasks t).park ≠ some (.drain p)

/-- The tables where a task opens and closes no call stay linked. -/
theorem bystander (h : VmOk vm) {p : PeerId}
    (hout : (∀ id kind, (vm.tasks t).park ≠ some (.claim p id kind)) ∨ (vm.tasks t).wake ≠ none)
    (hcount : ∀ id, openCount (Function.update vm.tasks t task) [] p id t =
      openCount vm.tasks [] p id t)
    (hpark : ∀ id kind, task.park ≠ some (.claim p id kind)) :
    Linked (vm.peers p) p (Function.update vm.tasks t task) [] :=
  (h.link p).act (fun _ => rfl) rfl (fun _ _ _ => rfl)
    (fun id => ((h.link p).owns id t).trans (hcount id).symm) hout hpark

/-- A drain entry of a task that is not in a drain, or leaves it, is stale. -/
theorem drain_update (h : VmOk vm) {p : PeerId}
    (hleft : (∀ p, (vm.tasks t).park ≠ some (.drain p)) ∨
      (vm.tasks t).parkEpoch < task.parkEpoch)
    (hepoch : (vm.tasks t).parkEpoch ≤ task.parkEpoch) {t' : TaskId} {e : Epoch}
    (hin : (t', e) ∈ (vm.peers p).drainWaiters) :
    e < (Function.update vm.tasks t task t').parkEpoch ∨
      e = (Function.update vm.tasks t task t').parkEpoch ∧
        (Function.update vm.tasks t task t').park = some (.drain p) := by
  have hold := h.drain p t' e hin
  by_cases hne : t' = t
  · subst hne
    rw [Function.update_self]
    rcases hold with hlt | ⟨rfl, hpark⟩
    · exact Or.inl (hlt.trans_le hepoch)
    · exact Or.inl (hleft.resolve_left fun hno => hno p hpark)
  · rw [Function.update_of_ne hne]
    exact hold

/-- **One task and one table change**: the table and its link are kept, and so
is the rest. -/
theorem update (h : VmOk vm) {p : PeerId} {c' : PeerClaims} {seq : Nat} (htable : TableOk c' none none)
    (hlink : ∀ p', Linked (Function.update vm.peers p c' p') p'
      (Function.update vm.tasks t task) [])
    (hleft : (∀ p, (vm.tasks t).park ≠ some (.drain p)) ∨
      (vm.tasks t).parkEpoch < task.parkEpoch)
    (hepoch : (vm.tasks t).parkEpoch ≤ task.parkEpoch) (hseq : task.parkEpoch ≤ seq)
    (hmono : vm.parkSeq ≤ seq)
    (hdrain : ∀ w ∈ c'.drainWaiters, w ∈ (vm.peers p).drainWaiters ∨
      w = (t, task.parkEpoch) ∧ task.park = some (.drain p))
    (hwake : task.wake = none)
    (hpark : ∀ p' id kind, task.park = some (.claim p' id kind) →
      p' ∈ vm.registry ∧ task.parkedOnChannel = true)
    (hcalls : ∀ p' id, (p', id) ∈ task.calls → p' ∈ vm.registry) :
    VmOk { vm with
      peers := Function.update vm.peers p c'
      tasks := Function.update vm.tasks t task
      parkSeq := seq } := by
  have htasks : ∀ u, Function.update vm.tasks t task u = if u = t then task else vm.tasks u :=
    fun u => Function.update_apply _ _ _ _
  -- the clauses of the invariant in their order
  constructor
  all_goals dsimp only
  · intro p'
    rw [Function.update_apply]
    split_ifs
    · exact htable
    · exact h.table p'
  · exact hlink
  · intro u
    rw [htasks]
    split_ifs
    · exact hseq
    · exact (h.epoch u).trans hmono
  · intro p' u e hin
    rw [Function.update_apply] at hin
    split_ifs at hin with hp
    · -- an entry for a drain: an old one, or the one the task has just made
      rcases hdrain _ hin with hold | ⟨heq, hnew⟩
      · exact h.drain_update hleft hepoch (hp ▸ hold)
      · obtain ⟨rfl, rfl⟩ := Prod.mk.inj heq
        rw [htasks, if_pos rfl, hp]
        exact Or.inr ⟨rfl, hnew⟩
    · exact h.drain_update hleft hepoch hin
  · intro u hu
    rw [htasks] at hu ⊢
    split_ifs at hu ⊢
    · rw [hwake] at hu
      cases hu
    · exact h.woken u hu
  · intro u p' id kind hk hoff
    rw [htasks] at hk hoff ⊢
    split_ifs at hk hoff ⊢
    · rw [(hpark p' id kind hk).2] at hoff
      cases hoff
    · exact h.runnable u p' id kind hk hoff
  · intro u p' id hin
    rw [htasks] at hin
    split_ifs at hin
    · exact hcalls p' id hin
    · exact h.registered u p' id hin
  · intro u p' id kind hk
    rw [htasks] at hk
    split_ifs at hk
    · exact (hpark p' id kind hk).1
    · exact h.parkedAt u p' id kind hk

/-- Who has a call on an object open owns it. -/
theorem owner_of_open (h : VmOk vm) {p : PeerId} {id : ObjectId}
    (hopen : openCount vm.tasks [] p id t ≠ 0) :
    ∃ e, ((vm.peers p).entry id).owner = some (t, e) := by
  rw [← (h.link p).owns id t, heldDepth] at hopen
  split_ifs at hopen with howner
  · obtain ⟨⟨u, e⟩, hsome, rfl⟩ := Option.map_eq_some_iff.mp howner
    exact ⟨e, hsome⟩
  · exact absurd rfl hopen

/-- **Ending a call**, task `t` becoming `task` with one call less open. -/
theorem endPeerCall (h : VmOk vm) (t : TaskId) (task : Task) (p : PeerId) (id : ObjectId)
    (seq now : Nat) (hacting : Acting vm t)
    (hcount : ∀ p' id', openCount (Function.update vm.tasks t task) [] p' id' t +
      (if p' = p ∧ id' = id then 1 else 0) = openCount vm.tasks [] p' id' t)
    (hpark : task.park = none) (hwake : task.wake = none)
    (hepoch : (vm.tasks t).parkEpoch ≤ task.parkEpoch) (hseq : task.parkEpoch ≤ seq)
    (hmono : vm.parkSeq ≤ seq) (hcalls : ∀ p' id', (p', id') ∈ task.calls → p' ∈ vm.registry)
    (hdrains : LastLane (vm.peers p) id → ∀ w ∈ (vm.peers p).drainWaiters,
      vm.live w.1 w.2 = true) :
    VmOk (({ vm with parkSeq := seq }.setTask t task).endPeerCallAndWake p id now) := by
  obtain ⟨hout, hnoDrain⟩ := hacting
  have houtAt : ∀ p', (∀ id kind, (vm.tasks t).park ≠ some (.claim p' id kind)) ∨
      (vm.tasks t).wake ≠ none := fun p' => hout.imp_left fun hall => hall p'
  -- `t` owns the object it releases
  have howner : ∃ e, ((vm.peers p).entry id).owner = some (t, e) := by
    have hcountAt := hcount p id
    rw [if_pos ⟨rfl, rfl⟩] at hcountAt
    exact h.owner_of_open (by omega)
  generalize htasks : Function.update vm.tasks t task = tasks at *
  obtain ⟨htable, ⟨handed, drained, hgrants, hlink, hdrained⟩, hrest⟩ :=
    endCall_released (h.table p) (h.link p) howner (houtAt p)
      (fun id' => by rw [htasks, ← hcount p id']; simp) hpark (fun _ _ => rfl) now
  rw [htasks] at htable hgrants hlink hrest
  have hself : tasks t = task := by rw [← htasks, Function.update_self]
  have hother : ∀ u, u ≠ t → tasks u = vm.tasks u := by
    intro u hne
    rw [← htasks, Function.update_of_ne hne]
  -- whoever is woken is suspended: handed an object, or parked in the drain
  have hhanded : ∀ u ∈ handed.map Grant.task, ∃ id kind,
      (tasks u).park = some (.claim p id kind) := hlink.granted
  have hdrainedAt : ∀ u ∈ drained.map Grant.task, (tasks u).park = some (.drain p) := by
    intro u hu
    obtain ⟨g, hg, rfl⟩ := List.mem_map.mp hu
    obtain ⟨hin, hlast⟩ := hdrained g hg
    have hlive : (vm.tasks g.task).liveAt g.epoch = true := hdrains hlast _ hin
    simp only [Task.liveAt, Bool.and_eq_true, beq_iff_eq] at hlive
    obtain ⟨⟨-, hsame⟩, -⟩ := hlive
    rcases h.drain p g.task g.epoch hin with hlt | ⟨-, hdrain⟩
    · exact absurd hsame.symm (Nat.ne_of_lt hlt)
    · have hne : g.task ≠ t := fun heq => hnoDrain p (heq ▸ hdrain)
      rw [hother _ hne]
      exact hdrain
  have hwoken : ∀ u ∈ (handed ++ drained).map Grant.task, (tasks u).park.isSome := by
    intro u hu
    rw [List.map_append, List.mem_append] at hu
    rcases hu with hu | hu
    · obtain ⟨_, _, hk⟩ := hhanded u hu
      rw [hk]
      rfl
    · rw [hdrainedAt u hu]
      rfl
  have hdeliver := deliver_apply tasks (handed ++ drained)
  have hfields : ∀ u, (Vm.deliver tasks (handed ++ drained) u).parkEpoch = (tasks u).parkEpoch ∧
      (Vm.deliver tasks (handed ++ drained) u).park = (tasks u).park ∧
      (Vm.deliver tasks (handed ++ drained) u).calls = (tasks u).calls := by
    intro u
    by_cases hu : u ∈ (handed ++ drained).map Grant.task
    · obtain ⟨lane, hlane⟩ := (hdeliver u).2 hu
      rw [hlane]
      exact ⟨rfl, rfl, rfl⟩
    · rw [(hdeliver u).1 hu]
      exact ⟨rfl, rfl, rfl⟩
  have hlive : ({ vm with parkSeq := seq }.setTask t task).live =
      fun u e => (tasks u).liveAt e := by
    rw [← htasks]
    rfl
  have hvm : ({ vm with parkSeq := seq }.setTask t task).endPeerCallAndWake p id now =
      { peers := Function.update vm.peers p
          ((vm.peers p).endCall id (fun u e => (tasks u).liveAt e) now).1
        registry := vm.registry
        tasks := Vm.deliver tasks (handed ++ drained)
        parkSeq := seq } := by
    rw [← hgrants, Vm.endPeerCallAndWake, hlive, ← htasks]
    rfl
  rw [hvm]
  generalize ((vm.peers p).endCall id (fun u e => (tasks u).liveAt e) now).1 = c' at *
  have hpeer : ∀ p', p' ≠ p → Function.update vm.peers p c' p' = vm.peers p' :=
    fun p' hne => Function.update_of_ne hne _ _
  have hepochs : ∀ u, (vm.tasks u).parkEpoch ≤ (tasks u).parkEpoch ∧
      (tasks u).parkEpoch ≤ seq := by
    intro u
    by_cases hne : u = t
    · rw [hne, hself]
      exact ⟨hepoch, hseq⟩
    · rw [hother u hne]
      exact ⟨Nat.le_refl _, (h.epoch u).trans hmono⟩
  constructor
  all_goals dsimp only
  · intro p'
    by_cases hne : p' = p
    · rw [hne, Function.update_self]
      exact htable
    · rw [hpeer p' hne]
      exact h.table p'
  · intro p'
    by_cases hne : p' = p
    · subst hne
      rw [Function.update_self]
      refine hlink.retask (fun u id' => by rw [(hfields u).2.2]) (fun u id' kind => by
        rw [(hfields u).2.1]) (fun u _ _ _ => (hfields u).1) ?_ ?_
      · intro u id' kind hk
        by_cases hu : u ∈ handed.map Grant.task
        · obtain ⟨lane, hlane⟩ := (hdeliver u).2 (by
            rw [List.map_append]
            exact List.mem_append_left _ hu)
          rw [hlane]
          simp [hu]
        · have hnot : u ∉ (handed ++ drained).map Grant.task := by
            rw [List.map_append, List.mem_append, not_or]
            refine ⟨hu, fun hd => ?_⟩
            rw [hdrainedAt u hd] at hk
            cases hk
          rw [(hdeliver u).1 hnot]
          simp [hu]
      · intro u id' kind hk hl
        by_cases hu : u ∈ (handed ++ drained).map Grant.task
        · obtain ⟨lane, hlane⟩ := (hdeliver u).2 hu
          rw [hlane] at hl
          cases hl
        · rw [(hdeliver u).1 hu] at hl
          refine ⟨hl, fun hin => hu ?_⟩
          rw [List.map_append]
          exact List.mem_append_left _ hin
    · rw [hpeer p' hne]
      have hby : Linked (vm.peers p') p' tasks [] := by
        rw [← htasks]
        refine h.bystander (houtAt p') (fun id' => ?_) fun id' kind => by rw [hpark]; simp
        have hcountAt := hcount p' id'
        rw [if_neg fun hboth => hne hboth.1] at hcountAt
        rw [htasks]
        exact hcountAt
      -- nobody woken waits for this peer
      have hsame : ∀ u id' kind, (tasks u).park = some (.claim p' id' kind) →
          Vm.deliver tasks (handed ++ drained) u = tasks u := by
        intro u id' kind hk
        refine (hdeliver u).1 fun hu => ?_
        rw [List.map_append, List.mem_append] at hu
        rcases hu with hu | hu
        · obtain ⟨_, _, hk'⟩ := hhanded u hu
          rw [hk] at hk'
          injection hk' with hk'
          injection hk' with hpp
          exact hne hpp
        · rw [hdrainedAt u hu] at hk
          cases hk
      refine hby.retask (fun u id' => by rw [(hfields u).2.2]) (fun u id' kind => by
        rw [(hfields u).2.1]) (fun u _ _ _ => (hfields u).1) ?_ ?_
      · intro u id' kind hk
        rw [hsame u id' kind hk]
        simp
      · intro u id' kind hk hl
        rw [hsame u id' kind hk] at hl
        exact ⟨hl, by simp⟩
  · intro u
    exact (hfields u).1.trans_le (hepochs u).2
  · intro p' u e hin
    rw [(hfields u).1, (hfields u).2.1, ← htasks]
    refine h.drain_update (Or.inl hnoDrain) hepoch ?_
    by_cases hne : p' = p
    · subst hne
      rw [Function.update_self] at hin
      exact hrest _ hin
    · rw [hpeer p' hne] at hin
      exact hin
  · intro u hw
    rw [(hfields u).2.1]
    by_cases hu : u ∈ (handed ++ drained).map Grant.task
    · exact hwoken u hu
    · rw [(hdeliver u).1 hu] at hw
      by_cases hne : u = t
      · rw [hne, hself, hwake] at hw
        cases hw
      · rw [hother u hne] at hw ⊢
        exact h.woken u hw
  · intro u p' id' kind hk hoff
    rw [(hfields u).2.1] at hk
    by_cases hu : u ∈ (handed ++ drained).map Grant.task
    · obtain ⟨lane, hlane⟩ := (hdeliver u).2 hu
      rw [hlane]
      exact Or.inl rfl
    · rw [(hdeliver u).1 hu] at hoff ⊢
      have hne : u ≠ t := by
        rintro rfl
        rw [hself, hpark] at hk
        cases hk
      rw [hother u hne] at hk hoff ⊢
      exact h.runnable u p' id' kind hk hoff
  · intro u p' id' hin
    rw [(hfields u).2.2] at hin
    by_cases hne : u = t
    · rw [hne, hself] at hin
      exact hcalls p' id' hin
    · rw [hother u hne] at hin
      exact h.registered u p' id' hin
  · intro u p' id' kind hk
    rw [(hfields u).2.1] at hk
    have hne : u ≠ t := by
      rintro rfl
      rw [hself, hpark] at hk
      cases hk
    rw [hother u hne] at hk
    exact h.parkedAt u p' id' kind hk

/-! ### One lemma per action -/

/-- A task with no wake pending has open what it knows of. -/
theorem openCount_of_unwoken {tasks : TaskId → Task} {u : TaskId} (hwake : (tasks u).wake = none)
    (p : PeerId) (id : ObjectId) : openCount tasks [] p id u = (tasks u).calls.count (p, id) := by
  rw [openCount, hwake]
  simp

theorem openCount_self (task : Task) (hwake : task.wake = none) (p : PeerId) (id : ObjectId) :
    openCount (Function.update vm.tasks t task) [] p id t = task.calls.count (p, id) := by
  rw [openCount_of_unwoken (by rw [Function.update_self]; exact hwake), Function.update_self]

theorem unwoken (h : VmOk vm) (hpark : (vm.tasks t).park = none) : (vm.tasks t).wake = none := by
  cases hw : (vm.tasks t).wake with
  | none => rfl
  | some _ =>
    have hsome := h.woken t (by rw [hw]; rfl)
    rw [hpark] at hsome
    cases hsome

/-- One task changes and no table with it: it ends up running, with the calls it
had open, those it was handed among them. -/
theorem retask (h : VmOk vm) {seq : Nat}
    (hout : (∀ p id kind, (vm.tasks t).park ≠ some (.claim p id kind)) ∨ (vm.tasks t).wake ≠ none)
    (hcount : ∀ p id, openCount (Function.update vm.tasks t task) [] p id t =
      openCount vm.tasks [] p id t)
    (hleft : (∀ p, (vm.tasks t).park ≠ some (.drain p)) ∨
      (vm.tasks t).parkEpoch < task.parkEpoch)
    (hepoch : (vm.tasks t).parkEpoch ≤ task.parkEpoch) (hseq : task.parkEpoch ≤ seq)
    (hmono : vm.parkSeq ≤ seq) (hpark : task.park = none) (hwake : task.wake = none)
    (hcalls : ∀ p id, (p, id) ∈ task.calls → p ∈ vm.registry) :
    VmOk { vm with tasks := Function.update vm.tasks t task, parkSeq := seq } := by
  have hlink : ∀ p, Linked (Function.update vm.peers 0 (vm.peers 0) p) p
      (Function.update vm.tasks t task) [] := by
    intro p
    rw [Function.update_eq_self]
    exact h.bystander (hout.imp_left fun hall => hall p) (hcount p)
      fun id kind => by rw [hpark]; simp
  have hnext := h.update (h.table 0) hlink hleft hepoch hseq hmono (fun w hw => Or.inl hw) hwake
    (fun p id kind hk => by rw [hpark] at hk; cases hk) hcalls
  rw [Function.update_eq_self] at hnext
  exact hnext

/-- A task outside the claims layer changes its scheduler state. -/
theorem outside (h : VmOk vm) {seq : Nat} (hpark : (vm.tasks t).park = none)
    (hpark' : task.park = none) (hwake : task.wake = none)
    (hcalls : task.calls = (vm.tasks t).calls) (hepoch : (vm.tasks t).parkEpoch ≤ task.parkEpoch)
    (hseq : task.parkEpoch ≤ seq) (hmono : vm.parkSeq ≤ seq) :
    VmOk { vm with tasks := Function.update vm.tasks t task, parkSeq := seq } := by
  refine h.retask (Or.inl fun p id kind => by rw [hpark]; simp) (fun p id => ?_)
    (Or.inl fun p => by rw [hpark]; simp) hepoch hseq hmono hpark' hwake
    fun p id hin => h.registered t p id (hcalls ▸ hin)
  rw [openCount_self _ hwake, openCount_of_unwoken (h.unwoken hpark), hcalls]

/-- A peer changes and no task with it. -/
theorem setPeer (h : VmOk vm) {p : PeerId} {c' : PeerClaims} {registry : List PeerId}
    (htable : TableOk c' none none) (hlink : Linked c' p vm.tasks [])
    (hdrain : ∀ w ∈ c'.drainWaiters, w ∈ (vm.peers p).drainWaiters)
    (hregistry : ∀ p' ∈ vm.registry, p' ∈ registry) :
    VmOk { vm.setPeer p c' with registry } := by
  refine ⟨?_, ?_, h.epoch, ?_, h.woken, h.runnable,
    fun u p' id hin => hregistry p' (h.registered u p' id hin),
    fun u p' id kind hk => hregistry p' (h.parkedAt u p' id kind hk)⟩
  · intro p'
    show TableOk (Function.update vm.peers p c' p') none none
    rw [Function.update_apply]
    split_ifs
    · exact htable
    · exact h.table p'
  · intro p'
    show Linked (Function.update vm.peers p c' p') p' vm.tasks []
    by_cases hp : p' = p
    · rw [hp, Function.update_self]
      exact hlink
    · rw [Function.update_of_ne hp]
      exact h.link p'
  · intro p' u e hin
    replace hin : (u, e) ∈ (Function.update vm.peers p c' p').drainWaiters := hin
    rw [Function.update_apply] at hin
    split_ifs at hin with hp
    · exact hp ▸ h.drain p u e (hdrain _ hin)
    · exact h.drain p' u e hin

theorem register (h : VmOk vm) {p : PeerId} (hp : p ∉ vm.registry) (label : String)
    (lanes : Nat) :
    VmOk { vm.setPeer p (PeerClaims.new label lanes) with registry := vm.registry ++ [p] } := by
  have hnoPark : ∀ u id kind, (vm.tasks u).park ≠ some (.claim p id kind) :=
    fun u id kind hk => hp (h.parkedAt u p id kind hk)
  refine h.setPeer (TableOk.new label lanes) ⟨?_, ?_, fun id => List.nodup_nil, ?_, ?_, ?_⟩ ?_
    fun p' hin => List.mem_append_left _ hin
  · intro id u
    have hcalls : (vm.tasks u).calls.count (p, id) = 0 :=
      List.count_eq_zero.mpr fun hin => hp (h.registered u p id hin)
    have hwants : Park.wants p id (vm.tasks u).park = false := by
      cases hk : (vm.tasks u).park with
      | none => rfl
      | some park =>
        cases park with
        | drain _ => rfl
        | claim p' id' kind =>
          rw [wants_claim, Bool.and_eq_false_iff]
          refine Or.inl (beq_eq_false_iff_ne.mpr ?_)
          rintro rfl
          exact hnoPark u id' kind hk
    rw [openCount, hcalls, hwants]
    rfl
  · intro id w hw
    cases hw
  · intro u id e he
    cases he
  · intro u id kind hk
    exact absurd hk (hnoPark u id kind)
  · intro u hu
    cases hu
  · intro w hw
    cases hw

/-- A running task takes a call on: `id` becomes `o`, which it holds once more. -/
theorem granted (h : VmOk vm) {p : PeerId} {id : ObjectId} {c' : PeerClaims} {o : ObjectClaim}
    (hpark : (vm.tasks t).park = none) (hp : p ∈ vm.registry) (htable : TableOk c' none none)
    (hparkedOn : c'.parkedOn = (vm.peers p).parkedOn)
    (hdrain : c'.drainWaiters = (vm.peers p).drainWaiters)
    (hentry : ∀ id', (c'.entry id').bare =
      if id' = id then o.bare else ((vm.peers p).entry id').bare)
    (hwaiters : o.waiters = ((vm.peers p).entry id).waiters)
    (hothers : ∀ u, u ≠ t → heldDepth o u = heldDepth ((vm.peers p).entry id) u)
    (hself : heldDepth o t = heldDepth ((vm.peers p).entry id) t + 1) :
    VmOk ((vm.setPeer p c').setTask t
      { vm.tasks t with calls := (p, id) :: (vm.tasks t).calls }) := by
  have hunwoken := h.unwoken hpark
  -- a task that runs is parked for nothing
  have hnoPark : ∀ p' id' kind, (vm.tasks t).park ≠ some (.claim p' id' kind) := by
    intro p' id' kind
    rw [hpark]
    simp
  refine h.update htable ?_ (Or.inl fun p' => by rw [hpark]; simp) (Nat.le_refl _) (h.epoch t)
    (Nat.le_refl _) (fun w hw => Or.inl (hdrain ▸ hw)) hunwoken
    (fun p' id' kind hk => absurd hk (hnoPark p' id' kind)) ?_
  · intro p'
    by_cases hpp : p' = p
    · -- in its own table the task has got one claim more, and one call
      subst hpp
      rw [Function.update_self]
      have hread : ∀ id', (c'.entry id').bare =
          (if id' = id then o else (vm.peers p').entry id').bare := fun id' =>
        (hentry id').trans (apply_ite ObjectClaim.bare _ _ _).symm
      refine (h.link p').act ?_ hparkedOn ?_ ?_ (Or.inl (hnoPark p')) (hnoPark p')
      · intro id'
        rw [ObjectClaim.waiters_of_bare (hread id')]
        split_ifs with hid
        · rw [hid, hwaiters]
        · rfl
      · intro id' u hne
        rw [heldDepth_of_bare (hread id')]
        split_ifs with hid
        · rw [hid, hothers u hne]
        · rfl
      · intro id'
        rw [heldDepth_of_bare (hread id'),
          openCount_self { vm.tasks t with calls := (p', id) :: (vm.tasks t).calls } hunwoken]
        split_ifs with hid
        · rw [hself, (h.link p').owns, openCount_of_unwoken hunwoken, hid, List.count_cons_self]
        · rw [(h.link p').owns, openCount_of_unwoken hunwoken, List.count_cons_of_ne]
          exact fun heq => hid (Prod.mk.inj heq).2.symm
    · -- the other tables know nothing of it
      rw [Function.update_of_ne hpp]
      refine h.bystander (Or.inl (hnoPark p')) (fun id' => ?_) (hnoPark p')
      rw [openCount_of_unwoken hunwoken,
        openCount_self { vm.tasks t with calls := (p, id) :: (vm.tasks t).calls } hunwoken, List.count_cons_of_ne]
      exact fun heq => hpp (Prod.mk.inj heq).1.symm
  · intro p' id' hin
    rcases List.mem_cons.mp hin with heq | hin
    · rw [(Prod.mk.inj heq).1]
      exact hp
    · exact h.registered t p' id' hin

theorem setPeer_setPeer (vm : Vm) (p : PeerId) (c c' : PeerClaims) :
    (vm.setPeer p c).setPeer p c' = vm.setPeer p c' := by
  unfold Vm.setPeer
  simp only [Function.update_idem]

/-- A running task parks in `claim_peer_object`, after a decision that took nothing. -/
theorem parks (h : VmOk vm) {p : PeerId} {id : ObjectId} {c : PeerClaims}
    (hpark : (vm.tasks t).park = none) (hp : p ∈ vm.registry) (htable : TableOk c none none)
    (hparkedOn : c.parkedOn = (vm.peers p).parkedOn)
    (hdrain : c.drainWaiters = (vm.peers p).drainWaiters)
    (hbare : ∀ id', (c.entry id').bare = ((vm.peers p).entry id').bare)
    (hlane : (c.entry id).owner = none → (c.entry id).reserved = false → c.freeLanes = [])
    (label : String) (kind : WaitKind) (now : Nat) :
    VmOk ((vm.setPeer p (c.enqueue t (vm.tasks t).parkEpoch id label kind now)).setTask t
      { vm.tasks t with parkedOnChannel := true, park := some (.claim p id kind) }) := by
  have hunwoken := h.unwoken hpark
  refine h.update (htable.enqueue t _ label kind now hlane) ?_ (Or.inl fun p' => by rw [hpark]; simp)
    (Nat.le_refl _) (h.epoch t) (Nat.le_refl _) ?_ hunwoken ?_ (fun p' id' => h.registered t p' id')
  · intro p'
    by_cases hpp : p' = p
    · subst hpp
      rw [Function.update_self]
      exact ((h.link p').congr hparkedOn hbare).enqueue label kind hpark hunwoken
    · rw [Function.update_of_ne hpp]
      refine h.bystander (Or.inl fun id' kind' => by rw [hpark]; simp) (fun id' => ?_) ?_
      · rw [openCount_of_unwoken hunwoken, openCount_self]
        exact hunwoken
      · intro id' kind' hk
        injection hk with hk
        injection hk with hk
        exact hpp hk.symm
  · intro w hw
    rw [(enqueue_fields c t _ id label kind now).2, hdrain] at hw
    exact Or.inl hw
  · intro p' id' kind' hk
    injection hk with hk
    injection hk with hk
    exact ⟨hk ▸ hp, rfl⟩

theorem awaitClaim (h : VmOk vm) {p : PeerId} {id : ObjectId} {c : PeerClaims}
    (hpark : (vm.tasks t).park = none) (hp : p ∈ vm.registry) (htable : TableOk c none none)
    (hparkedOn : c.parkedOn = (vm.peers p).parkedOn)
    (hdrain : c.drainWaiters = (vm.peers p).drainWaiters)
    (hbare : ∀ id', (c.entry id').bare = ((vm.peers p).entry id').bare)
    (hlane : (c.entry id).owner = none → (c.entry id).reserved = false → c.freeLanes = [])
    (label : String) (kind : WaitKind) (blocker : Option TaskId) (now : Nat) :
    VmOk ((vm.setPeer p c).awaitClaim t p id label kind blocker now) := by
  have hself : (vm.setPeer p c).peers p = c := Function.update_self _ _ _
  unfold Vm.awaitClaim
  simp only [hself, setPeer_setPeer]
  split
  · exact h.setPeer (htable.congr rfl rfl rfl fun _ => rfl) ((h.link p).congr hparkedOn hbare)
      (fun w hw => hdrain ▸ hw) fun p' hin => hin
  · exact h.parks hpark hp htable hparkedOn hdrain hbare hlane label kind now

/-- **A call**, up to its park. -/
theorem claimPeerObject (h : VmOk vm) {p : PeerId} (hpark : (vm.tasks t).park = none)
    (hp : p ∈ vm.registry) (id : ObjectId) (label : String) (now : Nat) :
    VmOk (vm.claimPeerObject t p id label now) := by
  have hunwoken := h.unwoken hpark
  have htable := (h.table p).tryAcquire t (vm.tasks t).parkEpoch id label
    (Vm.waitKind (vm.tasks t) p == .nested)
  obtain ⟨hacquired, hparkedOn, hdrain⟩ := tryAcquire_acquired (vm.peers p) t
    (vm.tasks t).parkEpoch id label (Vm.waitKind (vm.tasks t) p == .nested)
  unfold Vm.claimPeerObject
  simp only
  rcases hdecide : (vm.peers p).tryAcquire t (vm.tasks t).parkEpoch id label
    (Vm.waitKind (vm.tasks t) p == .nested) with ⟨c, decision⟩
  rw [hdecide] at htable hacquired hparkedOn hdrain
  simp only at htable hacquired hparkedOn hdrain ⊢
  cases hacquired with
  -- by the decision: granted, another call of the owner, too deep, or to wait
  | granted lane hfree hres hentry =>
    refine h.granted hpark hp htable hparkedOn hdrain hentry rfl (fun u hne => ?_) ?_
    · rw [heldDepth_of_unowned hfree]
      exact if_neg fun heq => hne (Option.some.inj heq).symm
    · rw [heldDepth_of_unowned hfree]
      exact if_pos rfl
  | reentrant epoch' howner hentry =>
    refine h.granted hpark hp htable hparkedOn hdrain hentry rfl (fun u hne => ?_) ?_
    · have hnot : ¬ some t = some u := fun heq => hne (Option.some.inj heq).symm
      simp only [heldDepth, howner, Option.map_some, if_neg hnot]
    · simp only [heldDepth, howner, Option.map_some, if_true]
  | tooDeep hentry =>
    exact h.setPeer htable ((h.link p).congr hparkedOn hentry) (fun w hw => hdrain ▸ hw)
      fun p' hin => hin
  | blocked u epoch' howner hne hentry =>
    -- who has to wait is in line, and finds no free lane there
    refine h.awaitClaim hpark hp htable hparkedOn hdrain hentry (fun hfree => ?_) label _ _ now
    rw [ObjectClaim.owner_of_bare (hentry id), howner] at hfree
    cases hfree
  | behind hfree hwhy hfreeLanes hentry =>
    refine h.awaitClaim hpark hp htable hparkedOn hdrain hentry (fun _ hres => ?_) label _ _ now
    rw [ObjectClaim.reserved_of_bare (hentry id)] at hres
    rcases hwhy with hreserved | ⟨-, hlanes⟩
    · rw [hres] at hreserved
      cases hreserved
    · exact hfreeLanes.trans hlanes

/-- Delivering wakes suspends nobody and resumes nobody. -/
theorem deliver_fields (tasks : TaskId → Task) (grants : List Grant) (u : TaskId) :
    (Vm.deliver tasks grants u).parkEpoch = (tasks u).parkEpoch ∧
      (Vm.deliver tasks grants u).park = (tasks u).park ∧
      (Vm.deliver tasks grants u).calls = (tasks u).calls := by
  by_cases hu : u ∈ grants.map Grant.task
  · obtain ⟨lane, hlane⟩ := (deliver_apply tasks grants u).2 hu
    rw [hlane]
    exact ⟨rfl, rfl, rfl⟩
  · rw [(deliver_apply tasks grants u).1 hu]
    exact ⟨rfl, rfl, rfl⟩

theorem endPeerCallAndWake_park (vm : Vm) (p : PeerId) (id : ObjectId) (now : Nat) (u : TaskId) :
    ((vm.endPeerCallAndWake p id now).tasks u).park = (vm.tasks u).park :=
  (deliver_fields vm.tasks _ u).2.1

theorem setTask_self (vm : Vm) (t : TaskId) (task : Task) : (vm.setTask t task).tasks t = task :=
  Function.update_self _ _ _

theorem load_tasks (vm : Vm) (t : TaskId) (task : Task) :
    (vm.load t).setTask t task =
      { vm with tasks := Function.update vm.tasks t task, parkSeq := vm.parkSeq + 1 } := by
  unfold Vm.load Vm.setTask
  simp only [Function.update_idem]

/-- A task resumed with the object it was handed. -/
theorem resume_handed (h : VmOk vm) {p : PeerId} {id : ObjectId} {kind : WaitKind}
    (hpark : (vm.tasks t).park = some (.claim p id kind)) (hwake : (vm.tasks t).wake ≠ none)
    (htask : task = { vm.tasks t with
      parkEpoch := vm.parkSeq + 1, parkedOnChannel := false, wake := none, park := none,
      calls := (p, id) :: (vm.tasks t).calls }) :
    VmOk { vm with tasks := Function.update vm.tasks t task, parkSeq := vm.parkSeq + 1 } := by
  have hsome : (vm.tasks t).wake.isSome = true := Option.isSome_iff_ne_none.mpr hwake
  have hpark' : task.park = none := by rw [htask]
  have hcalls' : task.calls = (p, id) :: (vm.tasks t).calls := by rw [htask]
  have hepoch' : task.parkEpoch = vm.parkSeq + 1 := by rw [htask]
  have hwake' : task.wake = none := by rw [htask]
  refine h.retask (Or.inr hwake) (fun p' id' => ?_) (Or.inl fun p' => by rw [hpark]; simp)
    (by rw [hepoch']; exact (h.epoch t).trans (Nat.le_succ _)) (Nat.le_of_eq hepoch')
    (Nat.le_succ _) hpark' hwake' fun p' id' hin => ?_
  · rw [openCount_self _ hwake', hcalls', List.count_cons, openCount, hpark, hsome]
    simp only [wants_claim, Bool.true_or, Bool.and_true]
    rfl
  · rw [hcalls'] at hin
    rcases List.mem_cons.mp hin with heq | hin
    · rw [(Prod.mk.inj heq).1]
      exact h.parkedAt t p id kind hpark
    · exact h.registered t p' id' hin

/-- A running task takes its pending cancellation. -/
theorem uncancel (h : VmOk vm) (hpark : (vm.tasks t).park = none) :
    VmOk (vm.setTask t { vm.tasks t with cancelRequested := false }) :=
  h.outside hpark hpark (h.unwoken hpark) rfl (Nat.le_refl _) (h.epoch t) (Nat.le_refl _)

/-- **The rest of a call**, after its park. -/
theorem resumeClaim (h : VmOk vm) {p : PeerId} {id : ObjectId} {kind : WaitKind} {now : Nat}
    (hpark : (vm.tasks t).park = some (.claim p id kind))
    (hoff : (vm.tasks t).parkedOnChannel = false)
    (hdrains : DrainsParked vm (.resume t now)) : VmOk (vm.resumeClaim t p id now) := by
  have hself : (vm.load t).tasks t = { vm.tasks t with
      parkEpoch := vm.parkSeq + 1, parkedOnChannel := false, wake := none } :=
    Function.update_self _ _ _
  unfold Vm.resumeClaim
  simp only [hself]
  cases hcancel : (vm.tasks t).cancelRequested with
  | true =>
    simp only [if_true]
    cases hwake : (vm.tasks t).wake with
    | some lane =>
      -- cancelled after the hand-over: pass the claim on
      have hended := h.endPeerCall t { vm.tasks t with
          parkEpoch := vm.parkSeq + 1, parkedOnChannel := false, cancelRequested := true
          wake := none, park := none } p id (vm.parkSeq + 1) now
        ⟨Or.inr (by rw [hwake]; simp), fun p' => by rw [hpark]; simp⟩
        (fun p' id' => by
          rw [openCount_self _ rfl, openCount, hpark, hwake]
          simp only [wants_claim, Option.isSome_some, Bool.true_or, Bool.and_true,
            Bool.and_eq_true, beq_iff_eq, @eq_comm _ p, @eq_comm _ id])
        rfl rfl ((h.epoch t).trans (Nat.le_succ _)) (Nat.le_refl _) (Nat.le_succ _)
        (fun p' id' hin => h.registered t p' id' hin)
        (hdrains.of_ends (by simp only [Vm.ends, hpark, hwake, hcancel]; rfl))
      simp only [Option.isSome_some, if_true]
      rw [load_tasks]
      have hpark' := endPeerCallAndWake_park
        ({ vm with parkSeq := vm.parkSeq + 1 }.setTask t { vm.tasks t with
          parkEpoch := vm.parkSeq + 1, parkedOnChannel := false, cancelRequested := true
          wake := none, park := none })
        p id now t
      rw [setTask_self] at hpark'
      exact hended.uncancel hpark'
    | none =>
      -- cancelled in the queue: withdraw
      simp only [Option.isSome_none, Bool.false_eq_true, if_false]
      rw [load_tasks]
      simp only [Vm.setPeer, Vm.setTask, Function.update_idem, Function.update_self]
      have hobject := (h.table p).object id
      refine h.update ((h.table p).retract t) ?_ (Or.inl fun p' => by rw [hpark]; simp)
        ((h.epoch t).trans (Nat.le_succ _)) (Nat.le_refl _) (Nat.le_succ _) (fun w hw => ?_) rfl
        (fun p' id' kind' hk => by cases hk) fun p' id' hin => h.registered t p' id' hin
      · intro p'
        by_cases hpp : p' = p
        · subst hpp
          rw [Function.update_self]
          exact (h.link p').retract hobject hpark hwake rfl rfl
        · rw [Function.update_of_ne hpp]
          refine h.bystander (Or.inl fun id' kind' hk => ?_) (fun id' => ?_) (by simp)
          · rw [hpark] at hk
            injection hk with hk
            injection hk with hk
            exact hpp hk.symm
          · rw [openCount_of_unwoken hwake, openCount_self _ rfl]
      · rw [(retract_fields (vm.peers p) t id).2] at hw
        exact Or.inl hw
  | false =>
    simp only [Bool.false_eq_true, if_false]
    -- not cancelled, it was woken
    have hwake : (vm.tasks t).wake.isSome = true := by
      refine (h.runnable t p id kind hpark hoff).resolve_right ?_
      rw [hcancel]
      simp
    rw [if_pos hwake, load_tasks]
    exact h.resume_handed hpark (Option.isSome_iff_ne_none.mp hwake) (by simp only [hcancel])

/-- The rest of a `serviceStop`. -/
theorem resumeDrain (h : VmOk vm) {p : PeerId} (hpark : (vm.tasks t).park = some (.drain p)) :
    VmOk (vm.resumeDrain t) := by
  have hnoClaim : ∀ p' id kind, (vm.tasks t).park ≠ some (.claim p' id kind) := by
    intro p' id kind
    rw [hpark]
    simp
  have hself : (vm.load t).tasks t = { vm.tasks t with
      parkEpoch := vm.parkSeq + 1, parkedOnChannel := false, wake := none } :=
    Function.update_self _ _ _
  unfold Vm.resumeDrain
  simp only [hself]
  rw [load_tasks]
  refine h.retask (Or.inl hnoClaim) (fun p' id' => ?_)
    (Or.inr (Nat.lt_succ_of_le (h.epoch t))) ((h.epoch t).trans (Nat.le_succ _)) (Nat.le_refl _)
    (Nat.le_succ _) rfl rfl fun p' id' hin => h.registered t p' id' hin
  rw [openCount_self _ rfl, openCount, hpark]
  simp

/-- A `serviceStop`, up to its park. -/
theorem drainLanes (h : VmOk vm) (hpark : (vm.tasks t).park = none) (p : PeerId) :
    VmOk (vm.drainLanes t p) := by
  have hunwoken := h.unwoken hpark
  have htable := (h.table p).requestDrain t (vm.tasks t).parkEpoch
  unfold Vm.drainLanes
  unfold PeerClaims.requestDrain at htable ⊢
  split_ifs at htable ⊢ with hhome
  · exact h.setPeer (h.table p) (h.link p) (fun w hw => hw) fun p' hin => hin
  · refine h.update htable ?_ (Or.inl fun p' => by rw [hpark]; simp) (Nat.le_refl _) (h.epoch t)
      (Nat.le_refl _) ?_ hunwoken (fun p' id' kind' hk => by cases hk)
      fun p' id' => h.registered t p' id'
    · intro p'
      have hby : Linked (vm.peers p') p' (Function.update vm.tasks t
          { vm.tasks t with parkedOnChannel := true, park := some (.drain p) }) [] := by
        refine h.bystander (Or.inl fun id' kind' => by rw [hpark]; simp) (fun id' => ?_) (by simp)
        rw [openCount_of_unwoken hunwoken, openCount_self]
        exact hunwoken
      by_cases hpp : p' = p
      · subst hpp
        rw [Function.update_self]
        exact hby.congr rfl fun _ => rfl
      · rw [Function.update_of_ne hpp]
        exact hby
    · intro w hw
      rcases List.mem_append.mp hw with hw | hw
      · exact Or.inl hw
      · exact Or.inr ⟨List.mem_singleton.mp hw, rfl⟩

/-- A cancellation, wherever the task is. -/
theorem requestCancel (h : VmOk vm) (t : TaskId) : VmOk (vm.requestCancel t) := by
  have htasks : ∀ u, (vm.requestCancel t).tasks u = if u = t then
      { vm.tasks t with
        cancelRequested := true
        parkedOnChannel :=
          if (vm.tasks t).wake.isNone then false else (vm.tasks t).parkedOnChannel }
      else vm.tasks u := fun u => Function.update_apply _ _ _ _
  have hsame : ∀ u, ((vm.requestCancel t).tasks u).parkEpoch = (vm.tasks u).parkEpoch ∧
      ((vm.requestCancel t).tasks u).park = (vm.tasks u).park ∧
      ((vm.requestCancel t).tasks u).wake = (vm.tasks u).wake ∧
      ((vm.requestCancel t).tasks u).calls = (vm.tasks u).calls := by
    intro u
    rw [htasks]
    by_cases hu : u = t
    · rw [if_pos hu, hu]
      exact ⟨rfl, rfl, rfl, rfl⟩
    · rw [if_neg hu]
      exact ⟨rfl, rfl, rfl, rfl⟩
  -- of the clauses only the waiters' being queued speaks of who is alive
  refine ⟨h.table, ?_, fun u => (hsame u).1.trans_le (h.epoch u), ?_, ?_, ?_, ?_, ?_⟩
  · intro p
    refine (h.link p).retask (fun u id => by rw [(hsame u).2.2.2])
      (fun u id kind => by rw [(hsame u).2.1]) (fun u _ _ _ => (hsame u).1)
      (fun u id kind _ => by rw [(hsame u).2.2.1]; simp) ?_
    intro u id kind hk hlive
    rw [htasks] at hlive
    -- the cancelled task has no live entry any more
    by_cases hu : u = t
    · rw [if_pos hu] at hlive
      simp [Task.liveAt] at hlive
    · rw [if_neg hu] at hlive
      exact ⟨hlive, by simp⟩
  · intro p u e hin
    rw [(hsame u).1, (hsame u).2.1]
    exact h.drain p u e hin
  · intro u hu
    rw [(hsame u).2.2.1] at hu
    rw [(hsame u).2.1]
    exact h.woken u hu
  · intro u p id kind hk hoff
    rw [(hsame u).2.1] at hk
    rw [htasks] at hoff ⊢
    by_cases hu : u = t
    · rw [if_pos hu]
      exact Or.inr rfl
    · rw [if_neg hu] at hoff ⊢
      exact h.runnable u p id kind hk hoff
  · intro u p id hin
    rw [(hsame u).2.2.2] at hin
    exact h.registered u p id hin
  · intro u p id kind hk
    rw [(hsame u).2.1] at hk
    exact h.parkedAt u p id kind hk

/-- A running task's innermost call completes. -/
theorem endInnermost (h : VmOk vm) {p : PeerId} {id : ObjectId}
    {calls : List (PeerId × ObjectId)} {now : Nat} (hpark : (vm.tasks t).park = none)
    (hcalls : (vm.tasks t).calls = (p, id) :: calls)
    (hdrains : DrainsParked vm (.endCall t now)) :
    VmOk ((vm.setTask t { vm.tasks t with calls }).endPeerCallAndWake p id now) := by
  have hunwoken := h.unwoken hpark
  refine h.endPeerCall t _ p id vm.parkSeq now ⟨Or.inl fun p' id' kind => by rw [hpark]; simp,
    fun p' => by rw [hpark]; simp⟩ (fun p' id' => ?_) hpark hunwoken (Nat.le_refl _) (h.epoch t)
    (Nat.le_refl _) (fun p' id' hin => ?_)
    (hdrains.of_ends ?_)
  · rw [openCount_self { vm.tasks t with calls } hunwoken,
      openCount_of_unwoken hunwoken, hcalls, List.count_cons]
    simp only [beq_iff_eq, Prod.mk.injEq, @eq_comm _ p, @eq_comm _ id]
  · refine h.registered t p' id' ?_
    rw [hcalls]
    exact List.mem_cons_of_mem _ hin
  · simp only [Vm.ends, hcalls]
    rfl

/-- **Step.** -/
theorem step (h : VmOk vm) {a : Action} {vm' : Vm} (hdrains : DrainsParked vm a)
    (hstep : vm.step a = some vm') : VmOk vm' := by
  cases a with
  | register p label lanes =>
    simp only [Vm.step] at hstep
    split_ifs at hstep with hp
    injection hstep with hstep
    exact hstep ▸ h.register hp label lanes
  | call t p id label now =>
    simp only [Vm.step] at hstep
    -- a call that finds no lane is parked in line
    split_ifs at hstep with hrun
    simp only [Vm.running, Bool.and_eq_true, Option.isNone_iff_eq_none, decide_eq_true_eq] at hrun
    injection hstep with hstep
    exact hstep ▸ h.claimPeerObject hrun.1.1 hrun.2 id label now
  | resume t now =>
    simp only [Vm.step] at hstep
    split_ifs at hstep with hon
    -- what it was parked for: a lane of its claim, or the end of all calls
    split at hstep
    · rename_i p id kind hpark
      injection hstep with hstep
      exact hstep ▸ h.resumeClaim hpark (by simpa using hon) hdrains
    · rename_i p hpark
      injection hstep with hstep
      exact hstep ▸ h.resumeDrain hpark
    · cases hstep
  | endCall t now =>
    simp only [Vm.step] at hstep
    split_ifs at hstep with hrun
    simp only [Vm.running, Bool.and_eq_true, Option.isNone_iff_eq_none] at hrun
    split at hstep
    · rename_i p id calls hcalls
      injection hstep with hstep
      exact hstep ▸ h.endInnermost hrun.1 hcalls hdrains
    · cases hstep
  | drain t p =>
    simp only [Vm.step] at hstep
    split_ifs at hstep with hrun
    simp only [Vm.running, Bool.and_eq_true, Option.isNone_iff_eq_none] at hrun
    injection hstep with hstep
    exact hstep ▸ h.drainLanes hrun.1.1 p
  | cancel t =>
    injection hstep with hstep
    exact hstep ▸ h.requestCancel t
  | elsewhere t parked takeCancel =>
    simp only [Vm.step] at hstep
    split_ifs at hstep with hpark
    rw [Option.isNone_iff_eq_none] at hpark
    -- a task that goes on elsewhere leaves the table, but its epoch is a new one
    injection hstep with hstep
    rw [load_tasks, show (vm.load t).tasks t = _ from Function.update_self _ _ _] at hstep
    rw [← hstep]
    exact h.outside hpark hpark rfl rfl ((h.epoch t).trans (Nat.le_succ _)) (Nat.le_refl _)
      (Nat.le_succ _)

end VmOk

/-- **Runs.** -/
theorem run_ok {vm : Vm} (hrun : Run Vm.step DrainsParked Vm.init vm) : VmOk vm :=
  hrun.invariant init_ok fun _ _ _ h hdrains hstep => h.step hdrains hstep

/-- Every claim table is consistent, in every state of every run in which a
release finds its drain waiters still in their drains. -/
theorem table_consistent {vm : Vm} (hrun : Run Vm.step DrainsParked Vm.init vm) (p : PeerId) :
    (vm.peers p).Consistent :=
  ((run_ok hrun).table p).consistent

/-- A drain that waits for a call: the release wakes it, and it is still there. -/
theorem table_consistent_drained : ∃ vm, Run Vm.step DrainsParked Vm.init vm ∧
    (vm.tasks 2).wake = some none ∧ (vm.peers 0).Consistent := by
  have hexec : (exec Vm.step DrainsParked Vm.init [.register 0 "p" 1, .call 1 0 5 "Z" 0,
      .drain 2 0, .endCall 1 9]).map (fun vm => (vm.tasks 2).wake) = some (some none) := by
    decide +kernel
  obtain ⟨vm, hrun, hwoken⟩ := run_of_exec_map hexec
  exact ⟨vm, hrun, hwoken, table_consistent hrun 0⟩

/-- Task 3's stop of peer 0 is cancelled, and its entry stays. Task 3 then queues
on object 7 of peer 1, peer 0's last lane comes home, and task 3 is woken with a
claim nobody gave it. When its call ends, object 7 is gone and still queued for
a lane. -/
def strayWake : List Action :=
  [.register 0 "p" 1, .register 1 "q" 1, .call 1 1 5 "Z" 0, .call 2 0 6 "W" 0, .drain 3 0,
    .cancel 3, .resume 3 1, .call 3 1 7 "X" 2, .endCall 2 3, .resume 3 4, .endCall 3 5]

/-- So a reachable table is not consistent: an object that is not in it is queued for a lane. -/
theorem strayWake_breaks_table :
    ¬ ∀ vm, Reach Vm.step Vm.init vm → ∀ p, (vm.peers p).Consistent := by
  intro hall
  have hexec : (exec Vm.step (fun _ _ => True) Vm.init strayWake).map (fun vm =>
      ((vm.peers 1).readyHeads, (vm.peers 1).objects 7)) = some ([7], none) := by
    decide +kernel
  obtain ⟨vm, hrun, hends⟩ := run_of_exec_map hexec
  obtain ⟨hready, hobject⟩ := Prod.mk.inj hends
  obtain ⟨o, ho, -⟩ := ((hall vm hrun 1).ready 7).mp (by rw [hready]; exact List.mem_singleton_self 7)
  rw [hobject] at ho
  cases ho

end Quoin.Claims
