import Quoin.Claims.Invariant
import Quoin.Claims.Owners
import Quoin.Trans.Waits

/-!
# Quoin — the waits-for graph

A task parked for a claim waits for the owner of the object it is parked for:
`waits_for` is one edge of that graph, `would_deadlock` follows it. Edges are
added in one place, where a call parks, and after a walk. What every other step
does to them is said once (`Eases`): whoever is still parked waits for the
owner it waited for, for a task that was just woken, or for nobody. So a graph
without cycles stays without, if the walk before a park sees every edge
(`GraphOk.parks`).
-/

namespace Quoin.Claims

open Trans

/-! ## The graph -/

/-- Parked in a claim queue, for an object of a peer. -/
def ParkedOn (vm : Vm) (t : TaskId) (p : PeerId) (id : ObjectId) : Prop :=
  (∃ kind, (vm.tasks t).park = some (.claim p id kind)) ∧ (vm.tasks t).parkedOnChannel = true

def Parked (vm : Vm) (t : TaskId) : Prop := ∃ p id, ParkedOn vm t p id

/-- Holds a claim, and with it perhaps a lane. -/
def Holds (vm : Vm) (t : TaskId) : Prop :=
  ∃ p id e, ((vm.peers p).entry id).owner = some (t, e)

/-- The owner of the object a task is parked for. -/
def Vm.blocker (vm : Vm) (t : TaskId) : Option TaskId :=
  match (vm.tasks t).park with
  | some (.claim p id _) =>
    if (vm.tasks t).parkedOnChannel then ((vm.peers p).entry id).owner.map Prod.fst else none
  | _ => none

theorem blocker_of_parkedOn {vm : Vm} {t : TaskId} {p : PeerId} {id : ObjectId}
    (h : ParkedOn vm t p id) :
    vm.blocker t = ((vm.peers p).entry id).owner.map Prod.fst := by
  obtain ⟨⟨kind, hpark⟩, hon⟩ := h
  rw [Vm.blocker, hpark]
  exact if_pos hon

theorem parkedOn_of_blocker {vm : Vm} {t u : TaskId} (h : vm.blocker t = some u) :
    ∃ p id e, ParkedOn vm t p id ∧ ((vm.peers p).entry id).owner = some (u, e) := by
  rw [Vm.blocker] at h
  split at h
  · rename_i p id kind hpark
    split_ifs at h with hon
    obtain ⟨⟨u', e⟩, howner, rfl⟩ := Option.map_eq_some_iff.mp h
    exact ⟨p, id, e, ⟨⟨kind, hpark⟩, hon⟩, howner⟩
  · cases h

theorem blocker_of_not_parked {vm : Vm} {t : TaskId} (h : ¬ Parked vm t) :
    vm.blocker t = none := by
  cases hblock : vm.blocker t with
  | none => rfl
  | some u =>
    obtain ⟨p, id, _, hon, -⟩ := parkedOn_of_blocker hblock
    exact absurd ⟨p, id, hon⟩ h

/-- The call cannot be granted at once. -/
def Vm.queues (vm : Vm) (t : TaskId) (p : PeerId) (id : ObjectId) : Prop :=
  match ((vm.peers p).entry id).owner with
  | some (u, _) => u ≠ t
  | none => ((vm.peers p).entry id).reserved = true ∨
      Vm.waitKind (vm.tasks t) p = .topLevel ∧ (vm.peers p).freeLanes = []

/-- Whoever is parked for a claim is neither cancelled nor woken. -/
def Asleep (vm : Vm) : Prop := ∀ t p id, ParkedOn vm t p id →
  (vm.tasks t).cancelRequested = false ∧ (vm.tasks t).wake = none

theorem Asleep.live {vm : Vm} (h : Asleep vm) {t : TaskId} {p : PeerId} {id : ObjectId}
    (hon : ParkedOn vm t p id) : (vm.tasks t).liveAt (vm.tasks t).parkEpoch = true := by
  obtain ⟨hcancel, -⟩ := h t p id hon
  rw [Task.liveAt, hon.2, hcancel]
  simp

/-! ## The walk -/

/-- The walk finds `me` if it is among the first `fuel` nodes of the path. -/
theorem walk_isSome (registry : List PeerClaims) (me : TaskId) (live : Live) (fuel : Nat)
    (current : TaskId) (path : List String) :
    (walk registry me live fuel current path).isSome ↔
      ∃ n, n < fuel ∧
        follow (fun t => (nextEdge registry t live).map Prod.fst) n current = some me := by
  induction fuel generalizing current path with
  | zero =>
    constructor
    · intro h
      cases h
    · rintro ⟨n, hn, -⟩
      exact absurd hn (Nat.not_lt_zero n)
  -- one edge of the walk is one step of the path
  | succ fuel ih =>
    rw [walk]
    split_ifs with hme
    · exact ⟨fun _ => ⟨0, Nat.succ_pos fuel, by rw [follow, hme]⟩, fun _ => rfl⟩
    · cases hedge : nextEdge registry current live with
      | none =>
        constructor
        · intro h
          cases h
        · rintro ⟨n, -, hn⟩
          cases n with
          | zero => exact absurd (Option.some.inj hn) hme
          | succ n =>
            rw [follow, hedge] at hn
            cases hn
      | some edge =>
        simp only
        rw [ih]
        constructor
        · rintro ⟨n, hn, hfollow⟩
          refine ⟨n + 1, Nat.succ_lt_succ hn, ?_⟩
          rw [follow, hedge]
          exact hfollow
        · rintro ⟨n, hn, hfollow⟩
          cases n with
          | zero => exact absurd (Option.some.inj hfollow) hme
          | succ n =>
            rw [follow, hedge] at hfollow
            exact ⟨n, Nat.lt_of_succ_lt_succ hn, hfollow⟩

/-- The edges the walk follows are the owners of the objects tasks are parked for. -/
theorem nextEdge_eq_blocker {vm : Vm} (hok : VmOk vm) (h : Asleep vm) (t : TaskId) :
    (nextEdge (vm.registry.map vm.peers) t vm.live).map Prod.fst = vm.blocker t := by
  -- only the peer the task is parked at has an edge for it
  have helse : ∀ p, (∀ id, ¬ ParkedOn vm t p id) → (vm.peers p).waitsFor t vm.live = none := by
    intro p hnot
    rw [PeerClaims.waitsFor]
    cases hon : (vm.peers p).parkedOn t with
    | none => rfl
    | some entry =>
      obtain ⟨hpark, -⟩ := (hok.link p).parked t entry.1 entry.2 hon
      have hdead : vm.live t entry.2 = false := by
        cases hchan : (vm.tasks t).parkedOnChannel with
        | true => exact absurd ⟨hpark, hchan⟩ (hnot entry.1)
        | false => simp [Vm.live, Task.liveAt, hchan]
      simp [hdead]
  unfold nextEdge
  by_cases hparked : Parked vm t
  · obtain ⟨p, id, hon⟩ := hparked
    have hlive := h.live hon
    obtain ⟨⟨kind, hpark⟩, hchan⟩ := hon
    obtain ⟨-, hparkedOn⟩ := (hok.link p).queued t id kind hpark hlive (by simp)
    rw [blocker_of_parkedOn ⟨⟨kind, hpark⟩, hchan⟩]
    have hat : (vm.peers p).waitsFor t vm.live =
        ((vm.peers p).entry id).owner.map fun owner =>
          (owner.1, ((vm.peers p).entry id).label) := by
      rw [PeerClaims.waitsFor, hparkedOn]
      simp only [Vm.live, hlive, Bool.not_true, Bool.false_eq_true, if_false]
      cases hobj : (vm.peers p).objects id with
      | none =>
        rw [PeerClaims.entry_of_none _ id hobj]
        rfl
      | some o =>
        rw [PeerClaims.entry_of_some _ id hobj]
    have hother : ∀ p', p' ≠ p → (vm.peers p').waitsFor t vm.live = none := by
      intro p' hne
      refine helse p' fun id' hon' => ?_
      obtain ⟨⟨kind', hpark'⟩, -⟩ := hon'
      rw [hpark] at hpark'
      injection hpark' with hpark'
      injection hpark' with hpp
      exact hne hpp.symm
    have hfind : ∀ peers : List PeerId, p ∈ peers →
        (peers.map vm.peers).findSome? (fun peer => peer.waitsFor t vm.live) =
          (vm.peers p).waitsFor t vm.live := by
      intro peers hp
      induction peers with
      | nil => cases hp
      | cons p' rest ih =>
        rw [List.map_cons, List.findSome?_cons]
        by_cases hpp : p' = p
        · rw [hpp]
          cases hw : (vm.peers p).waitsFor t vm.live with
          | some _ => rfl
          | none =>
            simp only
            rw [List.findSome?_eq_none_iff]
            intro peer hpeer
            obtain ⟨q, -, rfl⟩ := List.mem_map.mp hpeer
            by_cases hq : q = p
            · rw [hq, hw]
            · exact hother q hq
        · rw [hother p' hpp]
          exact ih ((List.mem_cons.mp hp).resolve_left fun heq => hpp heq.symm)
    rw [hfind _ (hok.parkedAt t p id kind hpark), hat, Option.map_map]
    rfl
  · rw [blocker_of_not_parked hparked, List.findSome?_eq_none_iff.mpr]
    · rfl
    · intro peer hpeer
      obtain ⟨p, -, rfl⟩ := List.mem_map.mp hpeer
      exact helse p fun id hon => hparked ⟨p, id, hon⟩


/-! ## Steps that park nobody -/

/-- What a step that parks nobody does to the graph. The object of a call it
ends is left without an owner only if no waiter could be handed it. -/
structure Eases (ended : Option (PeerId × ObjectId)) (vm vm' : Vm) : Prop where
  parked : ∀ u p id, ParkedOn vm' u p id → vm'.tasks u = vm.tasks u
  owner : ∀ u p id, ParkedOn vm' u p id →
    ((vm'.peers p).entry id).owner = ((vm.peers p).entry id).owner ∨
    (∃ g e, ((vm'.peers p).entry id).owner = some (g, e) ∧ ¬ Parked vm' g) ∨
    ((vm'.peers p).entry id).owner = none ∧ ended = some (p, id) ∧
      ((vm.peers p).entry id).depth ≤ 1 ∧ ¬ FindsTaker (vm.peers p) id vm.live
  holds : ∀ u, Parked vm' u → Holds vm' u → Holds vm u
  lanes : ∀ p, 0 < (vm.peers p).laneCount → 0 < (vm'.peers p).laneCount

namespace Eases

variable {ended : Option (PeerId × ObjectId)} {vm vm' vm'' : Vm} {t : TaskId}

theorem before (h : Eases ended vm vm') {u : TaskId} {p : PeerId} {id : ObjectId}
    (hon : ParkedOn vm' u p id) : ParkedOn vm u p id := by
  have hsame := h.parked u p id hon
  rw [ParkedOn, hsame] at hon
  exact hon

theorem trans (h : Eases ended vm vm') (h' : Eases none vm' vm'') : Eases ended vm vm'' := by
  refine ⟨fun u p id hon => ?_, fun u p id hon => ?_, ?_, fun p hpos => h'.lanes p (h.lanes p hpos)⟩
  · rw [h'.parked u p id hon, h.parked u p id (h'.before hon)]
  · rcases h'.owner u p id hon with hsame | hhanded | ⟨-, hnone, -⟩
    · rw [hsame]
      rcases h.owner u p id (h'.before hon) with hsame' | ⟨g, e, hnew, hnot⟩ | hlost
      · exact Or.inl hsame'
      · refine Or.inr (Or.inl ⟨g, e, hnew, ?_⟩)
        rintro ⟨p', id', hon'⟩
        exact hnot ⟨p', id', h'.before hon'⟩
      · exact Or.inr (Or.inr hlost)
    · exact Or.inr (Or.inl hhanded)
    · cases hnone
  · rintro u ⟨p, id, hon⟩ hu
    exact h.holds u ⟨p, id, h'.before hon⟩ (h'.holds u ⟨p, id, hon⟩ hu)

/-- Tasks and owners as before. -/
theorem congr (hparked : ∀ u p id, ParkedOn vm' u p id → vm'.tasks u = vm.tasks u)
    (howner : ∀ p id, ((vm'.peers p).entry id).owner = ((vm.peers p).entry id).owner)
    (hlanes : ∀ p, (vm'.peers p).laneCount = (vm.peers p).laneCount) : Eases ended vm vm' := by
  refine ⟨hparked, fun u p id _ => Or.inl (howner p id), ?_, fun p hpos => (hlanes p).symm ▸ hpos⟩
  rintro u - ⟨p, id, e, hown⟩
  exact ⟨p, id, e, (howner p id).symm.trans hown⟩

/-- A task that is not parked afterwards changes, and no table with it. -/
theorem retask (vm : Vm) (t : TaskId) {task : Task} (seq : Nat)
    (hpark : ∀ p id kind, task.park = some (.claim p id kind) → task.parkedOnChannel = false) :
    Eases ended vm { vm with tasks := Function.update vm.tasks t task, parkSeq := seq } := by
  refine congr (fun u p id hon => ?_) (fun _ _ => rfl) fun _ => rfl
  by_cases hne : u = t
  · obtain ⟨⟨kind, hk⟩, hchan⟩ := hon
    subst hne
    dsimp only at hk hchan
    rw [Function.update_self] at hk hchan
    rw [hpark p id kind hk] at hchan
    cases hchan
  · exact Function.update_of_ne hne _ _

/-- The table of one peer changes in its queues only. -/
theorem setPeer (vm : Vm) (p : PeerId) (c' : PeerClaims)
    (howner : ∀ id, (c'.entry id).owner = ((vm.peers p).entry id).owner)
    (hlanes : c'.laneCount = (vm.peers p).laneCount) : Eases ended vm (vm.setPeer p c') := by
  have hpeer : ∀ p', (vm.setPeer p c').peers p' = if p' = p then c' else vm.peers p' :=
    fun p' => Function.update_apply _ _ _ _
  refine congr (fun u p' id' _ => rfl) (fun p' id' => ?_) fun p' => ?_
  · rw [hpeer]
    split_ifs with hp
    · rw [howner, hp]
    · rfl
  · rw [hpeer]
    split_ifs with hp
    · rw [hlanes, hp]
    · rfl

/-- A running task is granted an object nobody owned, or enters one of its own again. -/
theorem granted {p : PeerId} {c' : PeerClaims} {task : Task} (hpark : task.park = none)
    (howner : ∀ id', (c'.entry id').owner = ((vm.peers p).entry id').owner ∨
      ∃ e, (c'.entry id').owner = some (t, e))
    (hlanes : c'.laneCount = (vm.peers p).laneCount) :
    Eases ended vm ((vm.setPeer p c').setTask t task) := by
  have hself : ((vm.setPeer p c').setTask t task).tasks t = task := Function.update_self _ _ _
  have hpeer : ∀ p', ((vm.setPeer p c').setTask t task).peers p' =
      if p' = p then c' else vm.peers p' := fun p' => Function.update_apply _ _ _ _
  have hnot : ¬ Parked ((vm.setPeer p c').setTask t task) t := by
    rintro ⟨p', id', ⟨kind, hk⟩, -⟩
    rw [hself, hpark] at hk
    cases hk
  refine ⟨fun u p' id' hon => Function.update_of_ne ?_ _ _, ?_, ?_, fun p' hpos => ?_⟩
  · rintro rfl
    exact hnot ⟨p', id', hon⟩
  · intro u p' id' _
    rw [hpeer]
    split_ifs with hp
    · subst hp
      rcases howner id' with hsame | ⟨e, hnew⟩
      · exact Or.inl hsame
      · exact Or.inr (Or.inl ⟨t, e, hnew, hnot⟩)
    · exact Or.inl rfl
  · rintro u hu ⟨p', id', e, hown⟩
    rw [hpeer] at hown
    split_ifs at hown with hp
    · rcases howner id' with hsame | ⟨e', hnew⟩
      · exact ⟨p, id', e, hsame ▸ hown⟩
      · rw [hnew] at hown
        injection hown with hown
        exact absurd (Prod.mk.inj hown).1 fun heq => hnot (heq ▸ hu)
    · exact ⟨p', id', e, hown⟩
  · rw [hpeer]
    split_ifs with hp
    · rw [hlanes, ← hp]
      exact hpos
    · exact hpos

theorem register (hok : VmOk vm) {p : PeerId} (hp : p ∉ vm.registry) (label : String)
    (lanes : Nat) : Eases ended vm
      { vm.setPeer p (PeerClaims.new label lanes) with registry := vm.registry ++ [p] } := by
  have hpeer : ∀ p', Function.update vm.peers p (PeerClaims.new label lanes) p' =
      if p' = p then PeerClaims.new label lanes else vm.peers p' :=
    fun p' => Function.update_apply _ _ _ _
  refine ⟨fun _ _ _ _ => rfl, fun u p' id' hon => ?_, ?_, fun p' hpos => ?_⟩
  · -- nobody is parked at a peer that was not there
    obtain ⟨⟨kind, hk⟩, -⟩ := hon
    have hne : p' ≠ p := fun heq => hp (heq ▸ hok.parkedAt u p' id' kind hk)
    left
    show ((Function.update vm.peers p _ p').entry id').owner = _
    rw [hpeer, if_neg hne]
  · rintro u - ⟨p', id', e, hown⟩
    replace hown : ((Function.update vm.peers p _ p').entry id').owner = some (u, e) := hown
    rw [hpeer] at hown
    split_ifs at hown
    · cases hown
    · exact ⟨p', id', e, hown⟩
  · show 0 < (Function.update vm.peers p _ p').laneCount
    rw [hpeer]
    split_ifs
    · exact Nat.lt_of_lt_of_le Nat.zero_lt_one (Nat.le_max_right lanes 1)
    · exact hpos

/-- The first live waiter of a queue `t` is not in does not depend on `t`. -/
theorem firstLive_setTask (hok : VmOk vm) (hacting : VmOk.Acting vm t) (task : Task) (seq : Nat)
    (p : PeerId) (id : ObjectId) :
    firstLive ({ vm with parkSeq := seq }.setTask t task).live ((vm.peers p).entry id)
      = firstLive vm.live ((vm.peers p).entry id) := by
  refine firstLive_congr fun w hw => ?_
  obtain ⟨hpark, hwake, -⟩ := (hok.link p).waiting id w hw
  have hne : w.task ≠ t := by
    rintro rfl
    rcases hacting.1 with hout | hout
    · exact hout p id w.kind hpark
    · exact hout hwake
  show (Function.update vm.tasks t task w.task).liveAt w.epoch = _
  rw [Function.update_of_ne hne]
  rfl

/-- **Ending a call**, `t` going on as `task`. -/
theorem endPeerCall (hok : VmOk vm) (hasleep : Asleep vm) (t : TaskId) (task : Task) (p : PeerId)
    (id : ObjectId) (seq now : Nat) (hacting : VmOk.Acting vm t)
    (howned : ∀ o, (vm.peers p).objects id = some o → o.owner.isSome) (hpark : task.park = none) :
    Eases (some (p, id)) vm
      (({ vm with parkSeq := seq }.setTask t task).endPeerCallAndWake p id now) := by
  have hfirst := firstLive_setTask hok hacting task seq p
  generalize hlive : ({ vm with parkSeq := seq }.setTask t task).live = live at hfirst
  have howners := endCall_owners (hok.table p) howned live now
  have hcount := (endCall_fields (hok.table p) howned live now).1
  have htaken : ((vm.peers p).entry id).depth ≤ 1 → FindsTaker (vm.peers p) id live → ∀ w,
      firstLive live ((vm.peers p).entry id) = some w →
      (((vm.peers p).endCall id live now).1.entry id).owner = some (w.task, w.epoch) :=
    fun hdepth htaker w hw => endCall_taken (hok.table p) howned hdepth htaker hw now
  have hvm : ({ vm with parkSeq := seq }.setTask t task).endPeerCallAndWake p id now =
      { peers := Function.update vm.peers p ((vm.peers p).endCall id live now).1
        registry := vm.registry
        tasks := Vm.deliver (Function.update vm.tasks t task)
          ((vm.peers p).endCall id live now).2
        parkSeq := seq } := by
    rw [← hlive]
    rfl
  rw [hvm]
  generalize ((vm.peers p).endCall id live now).1 = c' at *
  generalize ((vm.peers p).endCall id live now).2 = grants at *
  clear hvm
  generalize hafter : ({ peers := Function.update vm.peers p c'
                         registry := vm.registry
                         tasks := Vm.deliver (Function.update vm.tasks t task) grants
                         parkSeq := seq } : Vm) = vm'
  have htasks : vm'.tasks = Vm.deliver (Function.update vm.tasks t task) grants := by rw [← hafter]
  have hpeer : ∀ p', vm'.peers p' = if p' = p then c' else vm.peers p' := by
    intro p'
    rw [← hafter]
    exact Function.update_apply _ _ _ _
  -- whoever is woken is not parked, and neither is `t`
  have hwoken : ∀ u, u ∈ grants.map Grant.task → ¬ Parked vm' u := by
    rintro u hu ⟨_, _, -, hchan⟩
    obtain ⟨lane, hlane⟩ := (deliver_apply (Function.update vm.tasks t task) grants u).2 hu
    rw [htasks, hlane] at hchan
    cases hchan
  have hsame : ∀ u p' id', ParkedOn vm' u p' id' → vm'.tasks u = vm.tasks u := by
    intro u p' id' hon
    have hnot : u ∉ grants.map Grant.task := fun hu => hwoken u hu ⟨p', id', hon⟩
    obtain ⟨⟨kind, hk⟩, -⟩ := hon
    rw [htasks, (deliver_apply _ grants u).1 hnot] at hk ⊢
    have hne : u ≠ t := by
      rintro rfl
      rw [Function.update_self, hpark] at hk
      cases hk
    exact Function.update_of_ne hne _ _
  refine ⟨hsame, ?_, ?_, fun p' hpos => ?_⟩
  · intro u p' id' hon
    rw [hpeer]
    split_ifs with hp
    swap
    · exact Or.inl rfl
    subst hp
    rcases howners id' with hkeep | ⟨g, hg, hnew⟩ | ⟨rfl, hdepth, hnone⟩
    · exact Or.inl hkeep
    · exact Or.inr (Or.inl ⟨g.task, g.epoch, hnew, hwoken g.task (List.mem_map.mpr ⟨g, hg, rfl⟩)⟩)
    · refine Or.inr (Or.inr ⟨hnone, rfl, hdepth, fun htaker => ?_⟩)
      -- `u` is a live waiter of the object, so a taker there is
      have hbefore : ParkedOn vm u p' id' := by
        have hu := hsame u p' id' hon
        rw [ParkedOn, hu] at hon
        exact hon
      have hliveU := hasleep.live hbefore
      obtain ⟨⟨kind, hk⟩, -⟩ := hbefore
      obtain ⟨⟨w, hw, rfl⟩, -⟩ := (hok.link p').queued u id' kind hk hliveU (by simp)
      have hepoch := ((hok.link p').waiting id' w hw).2.2.2
      have hliveW : vm.live w.task w.epoch = true := by
        rw [Vm.live, hepoch]
        exact hliveU
      have hfound : (firstLive vm.live ((vm.peers p').entry id')).isSome := by
        rw [firstLive, List.find?_isSome]
        exact ⟨w, hw, hliveW⟩
      obtain ⟨w', hw'⟩ := Option.isSome_iff_exists.mp hfound
      have howner := htaken hdepth (fun x hx => by
        rw [hfirst] at hx
        intro hkind hlanes
        obtain ⟨hlane, hnested⟩ := htaker x hx hkind hlanes
        exact ⟨hlane, fun id'' hid'' y hy => hnested id'' hid'' y (by rwa [hfirst] at hy)⟩)
        w' (by rw [hfirst]; exact hw')
      rw [hnone] at howner
      cases howner
  · rintro u hu ⟨p', id', e, hown⟩
    rw [hpeer] at hown
    split_ifs at hown with hp
    · rcases howners id' with hkeep | ⟨g, hg, hnew⟩ | ⟨-, -, hnone⟩
      · exact ⟨p, id', e, hkeep.symm.trans hown⟩
      · rw [hnew] at hown
        injection hown with hown
        exact absurd hu (hwoken u (List.mem_map.mpr ⟨g, hg, (Prod.mk.inj hown).1⟩))
      · rw [hnone] at hown
        cases hown
    · exact ⟨p', id', e, hown⟩
  · rw [hpeer]
    split_ifs with hp
    · rw [hcount, ← hp]
      exact hpos
    · exact hpos

theorem owned_of_open (hok : VmOk vm) {p : PeerId} {id : ObjectId}
    (hopen : openCount vm.tasks [] p id t ≠ 0) :
    ∀ o, (vm.peers p).objects id = some o → o.owner.isSome := by
  obtain ⟨e, howner⟩ := hok.owner_of_open hopen
  intro o hobj
  rw [PeerClaims.entry_of_some _ id hobj] at howner
  rw [howner]
  rfl

/-- **The rest of a call**, after its park. -/
theorem resumeClaim (hok : VmOk vm) (hasleep : Asleep vm) {p : PeerId} {id : ObjectId}
    {kind : WaitKind} {now : Nat} (hpark : (vm.tasks t).park = some (.claim p id kind)) :
    Eases (vm.ends (.resume t now)) vm (vm.resumeClaim t p id now) := by
  have hself : (vm.load t).tasks t = { vm.tasks t with
      parkEpoch := vm.parkSeq + 1, parkedOnChannel := false, wake := none } :=
    Function.update_self _ _ _
  unfold Vm.resumeClaim
  simp only [hself]
  cases hcancel : (vm.tasks t).cancelRequested with
  | true =>
    simp only [if_true]
    rw [VmOk.load_tasks]
    -- cancelled: it gives back what it was handed, or leaves the queue
    cases hwake : (vm.tasks t).wake with
    | some lane =>
      have hopen : openCount vm.tasks [] p id t ≠ 0 := by
        rw [openCount, hpark, hwake]
        simp
      have hended := endPeerCall hok hasleep t { vm.tasks t with
          parkEpoch := vm.parkSeq + 1, parkedOnChannel := false, cancelRequested := true
          wake := none, park := none } p id (vm.parkSeq + 1) now
        ⟨Or.inr (by rw [hwake]; simp), fun p' => by rw [hpark]; simp⟩
        (owned_of_open hok hopen) rfl
      have hends : vm.ends (.resume t now) = some (p, id) := by
        simp only [Vm.ends, hpark, hwake, hcancel]
        rfl
      rw [hends]
      simp only [Option.isSome_some, if_true]
      refine hended.trans (retask _ t _ fun p' id' kind' hk => ?_)
      replace hk : (Vm.deliver _ _ t).park = _ := hk
      rw [(VmOk.deliver_fields _ _ t).2.1] at hk
      dsimp only at hk
      rw [Function.update_self] at hk
      cases hk
    | none =>
      simp only [Option.isSome_none, Bool.false_eq_true, if_false]
      have hretract : Eases (vm.ends (.resume t now)) vm
          (vm.setPeer p ((vm.peers p).retract t id)) := setPeer vm p _
        (fun id' => (retract_entry (vm.peers p) t id id' ((hok.table p).object id)).1)
        (retract_laneCount (vm.peers p) t id)
      simp only [Vm.setPeer, Vm.setTask, Function.update_idem, Function.update_self]
      exact hretract.trans (retask _ t (vm.parkSeq + 1) fun p' id' kind' hk => by cases hk)
  | false =>
    simp only [Bool.false_eq_true, if_false]
    -- not cancelled: it goes on with the object or waits once more, and holds what it held
    split_ifs
    · rw [VmOk.load_tasks]
      exact retask vm t _ fun p' id' kind' hk => by cases hk
    · rw [VmOk.load_tasks]
      exact retask vm t _ fun p' id' kind' hk => by cases hk

theorem resumeDrain (vm : Vm) (t : TaskId) : Eases ended vm (vm.resumeDrain t) := by
  unfold Vm.resumeDrain
  simp only
  rw [VmOk.load_tasks]
  exact retask vm t _ fun p id kind hk => by cases hk

theorem drainLanes (vm : Vm) (t : TaskId) (p : PeerId) :
    Eases none vm (vm.drainLanes t p) := by
  unfold Vm.drainLanes PeerClaims.requestDrain
  split_ifs
  · exact setPeer vm p (vm.peers p) (fun _ => rfl) rfl
  · have hdrain : Eases none vm (vm.setPeer p { vm.peers p with
      drainWaiters := (vm.peers p).drainWaiters ++ [(t, (vm.tasks t).parkEpoch)] }) :=
      setPeer vm p _ (fun _ => rfl) rfl
    exact hdrain.trans (retask _ t vm.parkSeq fun p' id' kind' hk => by cases hk)

/-- A cancelled task is not parked any more. -/
theorem requestCancel (hasleep : Asleep vm) (t : TaskId) :
    Eases ended vm (vm.requestCancel t) := by
  refine congr (fun u p id hon => ?_) (fun _ _ => rfl) fun _ => rfl
  by_cases hne : u = t
  · subst hne
    have hself : (vm.requestCancel u).tasks u = { vm.tasks u with
        cancelRequested := true
        parkedOnChannel :=
          if (vm.tasks u).wake.isNone then false else (vm.tasks u).parkedOnChannel } :=
      Function.update_self _ _ _
    rw [ParkedOn, hself] at hon
    obtain ⟨⟨kind, hk⟩, hchan⟩ := hon
    cases hwake : (vm.tasks u).wake with
    | none =>
      rw [hwake] at hchan
      cases hchan
    | some _ =>
      rw [hwake] at hchan
      have hnone := (hasleep u p id ⟨⟨kind, hk⟩, hchan⟩).2
      rw [hwake] at hnone
      cases hnone
  · exact Function.update_of_ne hne _ _

end Eases

/-! ## Calls that park -/

/-- A running task is queued for an object, and the walk from its owner did not
come back to the task. -/
structure Parks (vm vm' : Vm) (t : TaskId) (p : PeerId) (id : ObjectId) : Prop where
  idle : (vm.tasks t).park = none
  self : ∃ kind, vm'.tasks t =
    { vm.tasks t with parkedOnChannel := true, park := some (.claim p id kind) }
  other : ∀ u, u ≠ t → vm'.tasks u = vm.tasks u
  owner : ∀ p' id', ((vm'.peers p').entry id').owner = ((vm.peers p').entry id').owner
  lanes : ∀ p', (vm'.peers p').laneCount = (vm.peers p').laneCount
  checked : ∀ u e, ((vm.peers p).entry id).owner = some (u, e) →
    ∀ n, n < maxWalk → follow vm.blocker n u ≠ some t

namespace Parks

variable {vm vm' : Vm} {t : TaskId} {p : PeerId} {id : ObjectId}

theorem not_parked (h : Parks vm vm' t p id) : ¬ Parked vm t := by
  rintro ⟨p', id', ⟨kind, hk⟩, -⟩
  rw [h.idle] at hk
  cases hk

theorem parkedOn (h : Parks vm vm' t p id) : ParkedOn vm' t p id := by
  obtain ⟨kind, hself⟩ := h.self
  rw [ParkedOn, hself]
  exact ⟨⟨kind, rfl⟩, rfl⟩

/-- Who is parked now was before, or is the caller, for the object it called. -/
theorem before (h : Parks vm vm' t p id) {u : TaskId} {p' : PeerId} {id' : ObjectId}
    (hon : ParkedOn vm' u p' id') : u ≠ t ∧ ParkedOn vm u p' id' ∨ u = t ∧ p' = p ∧ id' = id := by
  by_cases hne : u = t
  · right
    obtain ⟨kind, hself⟩ := h.self
    obtain ⟨⟨kind', hk⟩, -⟩ := hon
    rw [hne, hself] at hk
    injection hk with hk
    injection hk with hp hid
    exact ⟨hne, hp.symm, hid.symm⟩
  · left
    rw [ParkedOn, h.other u hne] at hon
    exact ⟨hne, hon⟩

theorem holds (h : Parks vm vm' t p id) {u : TaskId} (hu : Holds vm' u) : Holds vm u := by
  obtain ⟨p', id', e, hown⟩ := hu
  exact ⟨p', id', e, (h.owner p' id').symm.trans hown⟩

/-- One edge is added, from the caller to the owner of the object. -/
theorem blocker_eq (h : Parks vm vm' t p id) : vm'.blocker =
    Function.update vm.blocker t (((vm.peers p).entry id).owner.map Prod.fst) := by
  funext u
  by_cases hne : u = t
  · rw [hne, Function.update_self, blocker_of_parkedOn h.parkedOn, h.owner]
  · rw [Function.update_of_ne hne, Vm.blocker, Vm.blocker, h.other u hne]
    split
    · rw [h.owner]
    · rfl

end Parks

section Call

variable {vm : Vm} {t : TaskId} {p : PeerId} {id : ObjectId}

/-- A call that would queue: refused by the walk, or parked. -/
theorem awaitClaim_graph (hok : VmOk vm) (hasleep : Asleep vm) {blocker : Option TaskId}
    (hpark : (vm.tasks t).park = none)
    (hblocker : blocker = ((vm.peers p).entry id).owner.map Prod.fst)
    (label : String) (kind : WaitKind) (now : Nat) :
    Eases none vm (vm.awaitClaim t p id label kind blocker now) ∨
      Parks vm (vm.awaitClaim t p id label kind blocker now) t p id := by
  have hedges : (fun u => (nextEdge (vm.registry.map vm.peers) u vm.live).map Prod.fst)
      = vm.blocker := funext fun u => nextEdge_eq_blocker hok hasleep u
  unfold Vm.awaitClaim
  simp only
  split
  · exact Or.inl (Eases.setPeer vm p _ (fun _ => rfl) rfl)
  · rename_i hnoCycle
    right
    have hpeer : ∀ p', ((vm.setPeer p ((vm.peers p).enqueue t (vm.tasks t).parkEpoch id label kind
        now)).setTask t { vm.tasks t with
          parkedOnChannel := true, park := some (.claim p id kind) }).peers p' = if p' = p then
        (vm.peers p).enqueue t (vm.tasks t).parkEpoch id label kind now else vm.peers p' :=
      fun p' => Function.update_apply _ _ _ _
    refine ⟨hpark, ⟨kind, Function.update_self _ _ _⟩, fun u hne => Function.update_of_ne hne _ _,
      fun p' id' => ?_, fun p' => ?_, fun u e hown n hn hfollow => ?_⟩
    · rw [hpeer]
      split_ifs with hp
      · rw [(enqueue_entry _ _ _ _ _ _ _ _).1, hp]
      · rfl
    · rw [hpeer]
      split_ifs with hp
      · rw [enqueue_laneCount, hp]
      · rfl
    · -- the walk would have found the way back
      have hwalk : ∀ path,
          (walk (vm.registry.map vm.peers) t vm.live maxWalk u path).isSome := by
        intro path
        rw [walk_isSome, hedges]
        exact ⟨n, hn, hfollow⟩
      rw [hblocker, hown] at hnoCycle
      replace hnoCycle : walk (vm.registry.map vm.peers) t vm.live maxWalk u _ = none := hnoCycle
      exact absurd (hwalk _) (by rw [hnoCycle]; simp)

/-- Taking nothing changes no owner. -/
theorem blocker_setPeer {c : PeerClaims}
    (howner : ∀ id', (c.entry id').owner = ((vm.peers p).entry id').owner) :
    (vm.setPeer p c).blocker = vm.blocker := by
  have hpeer : ∀ p', (vm.setPeer p c).peers p' = if p' = p then c else vm.peers p' :=
    fun p' => Function.update_apply _ _ _ _
  funext u
  rw [Vm.blocker, Vm.blocker]
  show (match (vm.tasks u).park with
    | some (.claim p' id' _) => if (vm.tasks u).parkedOnChannel then
        (((vm.setPeer p c).peers p').entry id').owner.map Prod.fst else none
    | _ => none) = _
  split
  · rename_i p' id' _ _
    rw [hpeer]
    split_ifs with hchan hp
    · rw [howner, hp]
    · rfl
    · rfl
  · rfl

/-- **A call**, up to its park. -/
theorem claimPeerObject_graph (hok : VmOk vm) (hasleep : Asleep vm)
    (hpark : (vm.tasks t).park = none) (label : String) (now : Nat) :
    Eases none vm (vm.claimPeerObject t p id label now) ∨
      vm.queues t p id ∧ Parks vm (vm.claimPeerObject t p id label now) t p id := by
  have htable := (hok.table p).tryAcquire t (vm.tasks t).parkEpoch id label
    (Vm.waitKind (vm.tasks t) p == .nested)
  have hcount := tryAcquire_laneCount (vm.peers p) t (vm.tasks t).parkEpoch id label
    (Vm.waitKind (vm.tasks t) p == .nested)
  obtain ⟨hacquired, hparkedOn, hdrain⟩ := tryAcquire_acquired (vm.peers p) t
    (vm.tasks t).parkEpoch id label (Vm.waitKind (vm.tasks t) p == .nested)
  unfold Vm.claimPeerObject
  simp only
  rcases hdecide : (vm.peers p).tryAcquire t (vm.tasks t).parkEpoch id label
    (Vm.waitKind (vm.tasks t) p == .nested) with ⟨c, decision⟩
  rw [hdecide] at htable hcount hacquired hparkedOn hdrain
  simp only at htable hcount hacquired hparkedOn hdrain ⊢
  -- a decision that took nothing leaves the owners, and the call queues or is refused
  have hpeer : ∀ p', (vm.setPeer p c).peers p' = if p' = p then c else vm.peers p' :=
    fun p' => Function.update_apply _ _ _ _
  have hqueue : (∀ id', (c.entry id').bare = ((vm.peers p).entry id').bare) →
      vm.queues t p id → ∀ blocker kind,
        blocker = ((vm.peers p).entry id).owner.map Prod.fst →
        Eases none vm ((vm.setPeer p c).awaitClaim t p id label kind blocker now) ∨
          vm.queues t p id ∧
            Parks vm ((vm.setPeer p c).awaitClaim t p id label kind blocker now) t p id := by
    intro hbare hqueues blocker kind hblocker
    have howner := fun id' => ObjectClaim.owner_of_bare (hbare id')
    have hat : ∀ p' id', (((vm.setPeer p c).peers p').entry id').owner
        = ((vm.peers p').entry id').owner := by
      intro p' id'
      rw [hpeer]
      split_ifs with hp
      · rw [howner, hp]
      · rfl
    have hok' : VmOk (vm.setPeer p c) :=
      hok.setPeer htable ((hok.link p).congr hparkedOn hbare) (fun w hw => hdrain ▸ hw)
        fun p' hin => hin
    have hrefused : Eases none vm (vm.setPeer p c) := Eases.setPeer vm p c howner hcount
    rcases awaitClaim_graph hok' hasleep hpark (hblocker.trans (by rw [hat])) label kind now with
      heases | hparks
    · exact Or.inl (hrefused.trans heases)
    · refine Or.inr ⟨hqueues, hparks.idle, hparks.self, hparks.other, fun p' id' => ?_,
        fun p' => ?_, ?_⟩
      · rw [hparks.owner, hat]
      · rw [hparks.lanes, hpeer]
        split_ifs with hp
        · rw [hcount, hp]
        · rfl
      · rw [← blocker_setPeer howner, ← hat]
        exact hparks.checked
  cases hacquired with
  | granted lane hfree hres hentry =>
    refine Or.inl (Eases.granted hpark (fun id' => ?_) hcount)
    have hread := (hentry id').trans (apply_ite ObjectClaim.bare _ _ _).symm
    rw [ObjectClaim.owner_of_bare hread]
    split_ifs
    · exact Or.inr ⟨_, rfl⟩
    · exact Or.inl rfl
  | reentrant epoch' howner hentry =>
    refine Or.inl (Eases.granted hpark (fun id' => ?_) hcount)
    have hread := (hentry id').trans (apply_ite ObjectClaim.bare _ _ _).symm
    rw [ObjectClaim.owner_of_bare hread]
    split_ifs with hid
    · rw [hid]
      exact Or.inl rfl
    · exact Or.inl rfl
  | tooDeep hentry =>
    exact Or.inl (Eases.setPeer vm p c (fun id' => ObjectClaim.owner_of_bare (hentry id')) hcount)
  | blocked u epoch' howner hne hentry =>
    refine hqueue hentry ?_ _ _ (by rw [howner]; rfl)
    rw [Vm.queues, howner]
    exact hne
  | behind hfree hwhy hfreeLanes hentry =>
    refine hqueue hentry ?_ _ _ (by rw [hfree]; rfl)
    rw [Vm.queues, hfree]
    refine hwhy.imp_right fun ⟨hnested, hlanes⟩ => ⟨?_, hlanes⟩
    cases hkind : Vm.waitKind (vm.tasks t) p with
    | topLevel => rfl
    | nested =>
      rw [hkind] at hnested
      cases hnested

end Call

/-- **Step.** -/
theorem step_graph {vm vm' : Vm} (hok : VmOk vm) (hasleep : Asleep vm) {a : Action}
    (hstep : vm.step a = some vm') :
    Eases (vm.ends a) vm vm' ∨
      ∃ t p id label now, a = .call t p id label now ∧ vm.queues t p id ∧ Parks vm vm' t p id := by
  -- only a call can park somebody; every other step takes edges away
  cases a with
  | register p label lanes =>
    simp only [Vm.step] at hstep
    split_ifs at hstep with hp
    injection hstep with hstep
    exact Or.inl (hstep ▸ Eases.register hok hp label lanes)
  | call t p id label now =>
    simp only [Vm.step] at hstep
    split_ifs at hstep with hrun
    simp only [Vm.running, Bool.and_eq_true, Option.isNone_iff_eq_none] at hrun
    injection hstep with hstep
    subst hstep
    rcases claimPeerObject_graph hok hasleep hrun.1.1 label now with heases | ⟨hqueues, hparks⟩
    · exact Or.inl heases
    · exact Or.inr ⟨t, p, id, label, now, rfl, hqueues, hparks⟩
  | resume t now =>
    simp only [Vm.step] at hstep
    split_ifs at hstep
    split at hstep
    · rename_i p id kind hpark
      injection hstep with hstep
      exact Or.inl (hstep ▸ Eases.resumeClaim hok hasleep hpark)
    · injection hstep with hstep
      exact Or.inl (hstep ▸ Eases.resumeDrain vm t)
    · cases hstep
  | endCall t now =>
    simp only [Vm.step] at hstep
    split_ifs at hstep with hrun
    simp only [Vm.running, Bool.and_eq_true, Option.isNone_iff_eq_none] at hrun
    split at hstep
    · rename_i p id calls hcalls
      have hunwoken := hok.unwoken hrun.1
      have hopen : openCount vm.tasks [] p id t ≠ 0 := by
        rw [VmOk.openCount_of_unwoken hunwoken, hcalls, List.count_cons_self]
        exact Nat.succ_ne_zero _
      injection hstep with hstep
      left
      rw [show vm.ends (.endCall t now) = some (p, id) by simp [Vm.ends, hcalls], ← hstep]
      exact Eases.endPeerCall hok hasleep t { vm.tasks t with calls } p id vm.parkSeq now
        ⟨Or.inl fun p' id' kind => by rw [hrun.1]; simp, fun p' => by rw [hrun.1]; simp⟩
        (Eases.owned_of_open hok hopen) hrun.1
    · cases hstep
  | drain t p =>
    simp only [Vm.step] at hstep
    split_ifs at hstep
    injection hstep with hstep
    exact Or.inl (hstep ▸ Eases.drainLanes vm t p)
  | cancel t =>
    injection hstep with hstep
    exact Or.inl (hstep ▸ Eases.requestCancel hasleep t)
  | elsewhere t parked takeCancel =>
    simp only [Vm.step] at hstep
    split_ifs at hstep with hpark
    rw [Option.isNone_iff_eq_none] at hpark
    injection hstep with hstep
    -- `elsewhere`: a task parks for something else than a claim, or goes on
    rw [VmOk.load_tasks, show (vm.load t).tasks t = _ from Function.update_self _ _ _] at hstep
    rw [← hstep]
    refine Or.inl (Eases.retask vm t _ fun p id kind hk => ?_)
    replace hk : (vm.tasks t).park = _ := hk
    rw [hpark] at hk
    cases hk

/-! ## No cycles -/

/-- What the walk relies on, and keeps. -/
structure GraphOk (vm : Vm) : Prop where
  asleep : Asleep vm
  acyclic : Acyclic vm.blocker

namespace GraphOk

variable {vm vm' : Vm} {t : TaskId} {p : PeerId} {id : ObjectId}

theorem eases {ended : Option (PeerId × ObjectId)} (h : GraphOk vm) (he : Eases ended vm vm') :
    GraphOk vm' := by
  refine ⟨fun u p id hon => ?_, h.acyclic.sinks fun a b hab => ?_⟩
  · rw [he.parked u p id hon]
    exact h.asleep u p id (he.before hon)
  · obtain ⟨p, id, e, hon, hb⟩ := parkedOn_of_blocker hab
    rcases he.owner a p id hon with hsame | ⟨g, e', hnew, hnot⟩ | ⟨hnone, -⟩
    · left
      rw [blocker_of_parkedOn (he.before hon), ← hsame, hb]
      rfl
    · -- the new owner was just woken
      right
      obtain ⟨rfl, -⟩ := Prod.mk.inj (Option.some.inj (hnew.symm.trans hb))
      exact blocker_of_not_parked hnot
    · rw [hb] at hnone
      cases hnone

/-- A task parks that is not cancelled, and a way back to it would have been found. -/
theorem parks (h : GraphOk vm) (hok : VmOk vm) (hp : Parks vm vm' t p id)
    (hcancel : (vm.tasks t).cancelRequested = false)
    (hfound : ∀ u e, ((vm.peers p).entry id).owner = some (u, e) → Leads vm.blocker u t →
      ∃ n, n < maxWalk ∧ follow vm.blocker n u = some t) : GraphOk vm' := by
  refine ⟨fun u p' id' hon => ?_, ?_⟩
  · rcases hp.before hon with ⟨hne, hold⟩ | ⟨rfl, -, -⟩
    · rw [hp.other u hne]
      exact h.asleep u p' id' hold
    · obtain ⟨kind, hself⟩ := hp.self
      rw [hself]
      exact ⟨hcancel, hok.unwoken hp.idle⟩
  · rw [hp.blocker_eq]
    cases hown : ((vm.peers p).entry id).owner with
    | none =>
      -- no edge: the graph is what it was
      rw [Option.map_none, ← blocker_of_not_parked hp.not_parked, Function.update_eq_self]
      exact h.acyclic
    | some owner =>
      refine h.acyclic.add (fun hleads => ?_) (Function.update_self _ _ _)
        fun c hne => Function.update_of_ne hne _ _
      obtain ⟨n, hn, hback⟩ := hfound owner.1 owner.2 hown hleads
      exact hp.checked owner.1 owner.2 hown n hn hback

end GraphOk

end Quoin.Claims
