import Quoin.Claims.Graph

/-!
# Quoin — silent deadlock

When somebody is parked for a claim, somebody who holds one should be able to
go on: the source walks the waits-for graph before every park and raises
instead of closing a cycle. The edges of that graph are owners, so it does not
show a task that waits for a lane or behind a reservation — such a task is
taken to hold nothing. That is not so in three cases: a caller with a call
open elsewhere parks for a lane or behind a reserved object, an object is
reserved for a waiter that holds a claim of another peer, and a cycle is longer
than the walk. In runs without these (`NoBlindWait`) the graph stays acyclic,
and every path of it ends at a holder that is not parked.

## Results

* `no_silent_deadlock` — in runs without a blind wait somebody who holds a claim can go on whenever
  somebody is parked for one;
* `laneWait_deadlocks` — two callers wait for each other, one of them for a lane.
-/

namespace Quoin.Claims

open Trans

/-! ## The property -/

def NoSilentDeadlock (vm : Vm) : Prop :=
  (∃ t, Parked vm t) → ∃ t, Holds vm t ∧ ¬ Parked vm t

/-! ## The condition -/

/-- A caller that would queue is not already cancelled, waits for an owner if it
has a call open, and is found by the walk if the owners lead back to it. -/
def SeesCall (vm : Vm) (t : TaskId) (p : PeerId) (id : ObjectId) : Prop :=
  vm.queues t p id →
    (vm.tasks t).cancelRequested = false ∧
    ((vm.tasks t).calls ≠ [] → ((vm.peers p).entry id).owner.isSome) ∧
    ∀ u e, ((vm.peers p).entry id).owner = some (u, e) → Leads vm.blocker u t →
      ∃ n, n < maxWalk ∧ follow vm.blocker n u = some t

/-- An object that a waiter with a call open waits for finds a taker when it is
released. -/
def SeesEnd (vm : Vm) (p : PeerId) (id : ObjectId) : Prop :=
  ((vm.peers p).entry id).depth ≤ 1 →
    (∃ w ∈ ((vm.peers p).entry id).waiters,
      vm.live w.task w.epoch = true ∧ (vm.tasks w.task).calls ≠ []) →
    FindsTaker (vm.peers p) id vm.live

/-- The action makes no task wait that the waits-for graph does not show. -/
def NoBlindWait (vm : Vm) (a : Action) : Prop :=
  (∀ t p id label now, a = .call t p id label now → SeesCall vm t p id) ∧
    ∀ p id, vm.ends a = some (p, id) → SeesEnd vm p id

/-! ## The invariant -/

structure WaitsOk (vm : Vm) : Prop where
  asleep : ∀ t p id, ParkedOn vm t p id →
    (vm.tasks t).cancelRequested = false ∧ (vm.tasks t).wake = none
  /-- Who holds a claim waits for an owner. -/
  seen : ∀ t p id, ParkedOn vm t p id → Holds vm t → ((vm.peers p).entry id).owner.isSome
  acyclic : Acyclic vm.blocker
  lanes : ∀ p, 0 < (vm.peers p).laneCount

namespace WaitsOk

variable {vm vm' : Vm} {t : TaskId} {p : PeerId} {id : ObjectId}

theorem graph (h : WaitsOk vm) : GraphOk vm := ⟨h.asleep, h.acyclic⟩

/-- A holder that is not parked can be reached from any parked task. -/
theorem noSilentDeadlock (h : WaitsOk vm) (hok : VmOk vm) : NoSilentDeadlock vm := by
  rintro ⟨t, p, id, hon⟩
  -- the task waits for an owner, or for a lane somebody holds
  have hholder : ∃ u, Holds vm u := by
    have hlive := h.graph.asleep.live hon
    obtain ⟨⟨kind, hpark⟩, -⟩ := hon
    obtain ⟨⟨w, hw, -⟩, -⟩ := (hok.link p).queued t id kind hpark hlive (by simp)
    have hne : ((vm.peers p).entry id).waiters ≠ [] := List.ne_nil_of_mem hw
    rcases (hok.table p).queued id (by simp) hne with howned | hres
    · obtain ⟨⟨u, e⟩, howner⟩ := Option.isSome_iff_exists.mp howned
      exact ⟨u, p, id, e, howner⟩
    · have hready := ((hok.table p).ready.mem id).mpr hres
      have hnoLane : (vm.peers p).freeLanes = [] := by
        by_contra hfree
        rw [(hok.table p).freeReady hfree] at hready
        cases hready
      rcases ((hok.table p).lanes.total 0).mp (h.lanes p) with hfree | ⟨id', hheld⟩ | hlimbo
      · rw [hnoLane] at hfree
        cases hfree
      · cases howner : ((vm.peers p).entry id').owner with
        | none =>
          rw [(((hok.table p).object id').unowned howner).2] at hheld
          cases hheld
        | some owner => exact ⟨owner.1, p, id', owner.2, howner⟩
      · cases hlimbo
  obtain ⟨u, hu⟩ := hholder
  obtain ⟨b, hb, hsink⟩ := h.acyclic.ends (P := Holds vm) (fun a b _ hab => by
    obtain ⟨p, id, e, -, howner⟩ := parkedOn_of_blocker hab
    exact ⟨p, id, e, howner⟩) hu
  refine ⟨b, hb, ?_⟩
  rintro ⟨p, id, hon⟩
  rw [blocker_of_parkedOn hon, Option.map_eq_none_iff] at hsink
  have hsome := h.seen b p id hon hb
  rw [hsink] at hsome
  cases hsome

/-- A task with no wake pending holds what it has calls open on. -/
theorem calls_ne_nil_of_holds (hok : VmOk vm)
    (hwake : (vm.tasks t).wake = none) (h : Holds vm t) : (vm.tasks t).calls ≠ [] := by
  obtain ⟨p, id, e, howner⟩ := h
  have howns := (hok.link p).owns id t
  have hdepth := (((hok.table p).object id).owned (by rw [howner]; rfl)).1
  rw [heldDepth, howner, Option.map_some, if_pos rfl, VmOk.openCount_of_unwoken hwake] at howns
  intro hnil
  rw [hnil, List.count_nil] at howns
  omega

/-- Nobody parks, and the object of a call that ends finds a taker. -/
theorem eases (h : WaitsOk vm) (hok : VmOk vm) {ended : Option (PeerId × ObjectId)}
    (he : Eases ended vm vm') (hsees : ∀ p id, ended = some (p, id) → SeesEnd vm p id) :
    WaitsOk vm' := by
  have hgraph := h.graph.eases he
  refine ⟨hgraph.asleep, fun u p id hon hu => ?_, hgraph.acyclic, fun p => he.lanes p (h.lanes p)⟩
  have hbefore := he.before hon
  have hholds := he.holds u ⟨p, id, hon⟩ hu
  rcases he.owner u p id hon with hsame | ⟨g, e, hnew, -⟩ | ⟨-, hended, hdepth, hleft⟩
  · rw [hsame]
    exact h.seen u p id hbefore hholds
  · rw [hnew]
    rfl
  · -- `u` is a live waiter with a call open, so the object was handed on
    refine absurd (hsees p id hended hdepth ?_) hleft
    have hlive := h.graph.asleep.live hbefore
    obtain ⟨-, hwake⟩ := h.asleep u p id hbefore
    obtain ⟨⟨kind, hk⟩, -⟩ := hbefore
    obtain ⟨⟨w, hw, rfl⟩, -⟩ := (hok.link p).queued u id kind hk hlive (by simp)
    refine ⟨w, hw, ?_, calls_ne_nil_of_holds hok hwake hholds⟩
    rw [Vm.live, ((hok.link p).waiting id w hw).2.2.2]
    exact hlive

/-- A task parks that waits for nobody, or whose blocker does not lead back to it. -/
theorem parks (h : WaitsOk vm) (hok : VmOk vm) (hparks : Parks vm vm' t p id)
    (hcancel : (vm.tasks t).cancelRequested = false)
    (hcalls : (vm.tasks t).calls ≠ [] → ((vm.peers p).entry id).owner.isSome)
    (hfound : ∀ u e, ((vm.peers p).entry id).owner = some (u, e) → Leads vm.blocker u t →
      ∃ n, n < maxWalk ∧ follow vm.blocker n u = some t) : WaitsOk vm' := by
  have hgraph := h.graph.parks hok hparks hcancel hfound
  refine ⟨hgraph.asleep, fun u p' id' hon hu => ?_, hgraph.acyclic, fun p' => ?_⟩
  · rw [hparks.owner]
    rcases hparks.before hon with ⟨-, hold⟩ | ⟨rfl, rfl, rfl⟩
    · exact h.seen u p' id' hold (hparks.holds hu)
    · exact hcalls (calls_ne_nil_of_holds hok (hok.unwoken hparks.idle) (hparks.holds hu))
  · rw [hparks.lanes]
    exact h.lanes p'

/-- **Step.** -/
theorem step (h : WaitsOk vm) (hok : VmOk vm) {a : Action} (hsees : NoBlindWait vm a)
    (hstep : vm.step a = some vm') : WaitsOk vm' := by
  obtain ⟨hcall, hend⟩ := hsees
  rcases step_graph hok h.asleep hstep with heases | ⟨t, p, id, label, now, rfl, hqueues, hparks⟩
  · exact h.eases hok heases hend
  · obtain ⟨hcancel, hcalls, hfound⟩ := hcall t p id label now rfl hqueues
    exact h.parks hok hparks hcancel hcalls hfound

end WaitsOk

theorem init_waitsOk : WaitsOk Vm.init := by
  have hidle : ∀ t p id, ¬ ParkedOn Vm.init t p id := by
    rintro t p id ⟨⟨kind, hk⟩, -⟩
    cases hk
  refine ⟨fun t p id hon => absurd hon (hidle t p id), fun t p id hon => absurd hon (hidle t p id),
    Acyclic.of_idle fun t => rfl, fun p => Nat.zero_lt_one⟩

/-- In a run without blind waits, whenever somebody is parked for a claim,
somebody who holds one is not. -/
theorem no_silent_deadlock {vm : Vm}
    (hrun : Run Vm.step (fun vm a => DrainsParked vm a ∧ NoBlindWait vm a) Vm.init vm) :
    NoSilentDeadlock vm := by
  have hinv : VmOk vm ∧ WaitsOk vm := by
    refine hrun.invariant (P := fun vm => VmOk vm ∧ WaitsOk vm) ⟨init_ok, init_waitsOk⟩ ?_
    rintro vm a vm' ⟨hok, hwaits⟩ ⟨hdrains, hsees⟩ hstep
    exact ⟨hok.step hdrains hstep, hwaits.step hok hsees hstep⟩
  exact hinv.2.noSilentDeadlock hinv.1

/-- A caller without other calls queues behind an owner, and the owner can go on. -/
theorem no_silent_deadlock_queued : ∃ vm,
    Run Vm.step (fun vm a => DrainsParked vm a ∧ NoBlindWait vm a) Vm.init vm ∧
      Parked vm 2 ∧ NoSilentDeadlock vm := by
  have hends : ∀ (vm : Vm) (t : TaskId) (p : PeerId) (id : ObjectId) (label : String) (now : Nat),
      ∀ p' id', vm.ends (.call t p id label now) = some (p', id') → SeesEnd vm p' id' := by
    intro vm t p id label now p' id' hnone
    cases hnone
  have hregister : Run Vm.step (fun vm a => DrainsParked vm a ∧ NoBlindWait vm a) Vm.init _ :=
    .tail (a := .register 0 "p" 1) .refl
      ⟨trivial, (by rintro _ _ _ _ _ ⟨⟩), (by rintro _ _ ⟨⟩)⟩ rfl
  have hfirst := Run.tail (a := Action.call 1 0 5 "Z" 0) hregister ⟨trivial, (by
    rintro _ _ _ _ _ ⟨⟩ (hres | ⟨-, hlanes⟩)
    · cases hres
    · cases hlanes), hends _ 1 0 5 "Z" 0⟩ rfl
  have hsecond := Run.tail (a := Action.call 2 0 5 "Z" 1) hfirst ⟨trivial, (by
    rintro _ _ _ _ _ ⟨⟩ -
    refine ⟨rfl, fun hcalls => absurd rfl hcalls, fun u e howner ⟨n, hn⟩ => ?_⟩
    -- the owner, task 1, waits for nobody
    obtain ⟨rfl, -⟩ := Prod.mk.inj (Option.some.inj howner)
    cases n with
    | zero => cases hn
    | succ n => cases hn), hends _ 2 0 5 "Z" 1⟩ rfl
  exact ⟨_, hsecond, ⟨0, 5, ⟨.topLevel, rfl⟩, rfl⟩, no_silent_deadlock hsecond⟩

/-- Task 2 has the only lane, with a call on object 9. Task 1 is queued for a lane
and object 7 reserved for it. Task 2, nested, then wants object 7: nobody owns it,
so there is nothing to walk, and it parks behind task 1, which waits for its lane. -/
def laneWait : List Action :=
  [.register 0 "p" 1, .call 2 0 9 "Z" 0, .call 1 0 7 "X" 1, .call 2 0 7 "X" 2]

/-- Both tasks are parked then, each with what the other one waits for, and no error was raised. -/
theorem laneWait_deadlocks : ¬ ∀ vm, Reach Vm.step Vm.init vm → NoSilentDeadlock vm := by
  intro hall
  have hexec : (exec Vm.step DrainsParked Vm.init laneWait).map Vm.tasks = some
      (Function.update (Function.update (Function.update (fun _ => {}) 2 { calls := [(0, 9)] }) 1
        { parkedOnChannel := true, park := some (.claim 0 7 .topLevel) }) 2
        { calls := [(0, 9)], parkedOnChannel := true, park := some (.claim 0 7 .nested) }) := rfl
  obtain ⟨vm, hrun, htasks⟩ := run_of_exec_map hexec
  have hone : vm.tasks 1 =
      { parkedOnChannel := true, park := some (.claim 0 7 .topLevel) } := by rw [htasks]; rfl
  have htwo : vm.tasks 2 = { calls := [(0, 9)], parkedOnChannel := true
                             park := some (.claim 0 7 .nested) } := by rw [htasks]; rfl
  have hrest : ∀ t, t ≠ 1 → t ≠ 2 → vm.tasks t = {} := by
    intro t h₁ h₂
    rw [htasks, Function.update_of_ne h₂, Function.update_of_ne h₁, Function.update_of_ne h₂]
  obtain ⟨t, hholds, hidle⟩ := hall vm hrun.reach
    ⟨1, 0, 7, ⟨.topLevel, by rw [hone]⟩, by rw [hone]⟩
  -- only task 2 has a call open, and it is parked
  have hwake : (vm.tasks t).wake = none := by
    by_cases h₁ : t = 1
    · rw [h₁, hone]
    · by_cases h₂ : t = 2
      · rw [h₂, htwo]
      · rw [hrest t h₁ h₂]
  have hcalls := WaitsOk.calls_ne_nil_of_holds (run_ok hrun) hwake hholds
  have hself : t = 2 := by
    by_contra h₂
    by_cases h₁ : t = 1
    · rw [h₁, hone] at hcalls
      exact hcalls rfl
    · rw [hrest t h₁ h₂] at hcalls
      exact hcalls rfl
  refine hidle ⟨0, 7, ⟨.nested, ?_⟩, ?_⟩
  · rw [hself, htwo]
  · rw [hself, htwo]

end Quoin.Claims
