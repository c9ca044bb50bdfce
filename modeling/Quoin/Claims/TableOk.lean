import Mathlib
import Quoin.Claims.Table
import Quoin.Trans.Tokens

/-!
# Quoin — the claim-table invariant

What holds of one peer's table between its methods (`TableOk`): every lane is
in exactly one place, an object is owned, reserved or idle, and the lane queue
`readyHeads` is exactly the reserved objects.

The invariant is stated on `entry`, which reads an absent object as an idle
one, so that creating and garbage-collecting entries does not show. Inside
`endCall` two things are in flight: the lane the holder gave back (`limbo`)
and the object that just lost its owner (`freed`); both are parameters, `none`
between calls. `promoteHead` and `serveHead` are the same hand-over seen from
the object and from the lane, so what they do is described once (`Served`),
and the rest of the development uses that description.
-/

namespace Quoin.Claims

open Trans

/-- What holds of every object on its own. -/
structure ObjectOk (o : ObjectClaim) : Prop where
  unowned : o.owner = none → o.depth = 0 ∧ o.ownerLane = none
  owned : o.owner.isSome → 1 ≤ o.depth ∧ o.reserved = false

structure TableOk (c : PeerClaims) (limbo : Option Lane) (freed : Option ObjectId) : Prop where
  object : ∀ id, ObjectOk (c.entry id)
  lanes : Tokens (· < c.laneCount) c.freeLanes (fun id => (c.entry id).ownerLane) limbo
  ready : Marked c.readyHeads fun id => (c.entry id).reserved
  freeReady : c.freeLanes ≠ [] → c.readyHeads = []
  /-- Nobody queues on an idle object. -/
  queued : ∀ id, freed ≠ some id → (c.entry id).waiters ≠ [] →
    (c.entry id).owner.isSome ∨ (c.entry id).reserved = true

/-! ## Reading a table after an update -/

namespace PeerClaims

variable (c : PeerClaims) (id id' : ObjectId)

theorem entry_set (o : ObjectClaim) :
    (c.set id o).entry id' = if id' = id then o else c.entry id' := by
  show (Function.update c.objects id (some o) id').getD {} = _
  rw [Function.update_apply]
  split_ifs <;> rfl

@[simp] theorem entry_set_self (o : ObjectClaim) : (c.set id o).entry id = o := by
  rw [entry_set, if_pos rfl]

@[simp] theorem freeLanes_set (o : ObjectClaim) : (c.set id o).freeLanes = c.freeLanes := rfl
@[simp] theorem laneCount_set (o : ObjectClaim) : (c.set id o).laneCount = c.laneCount := rfl
@[simp] theorem readyHeads_set (o : ObjectClaim) : (c.set id o).readyHeads = c.readyHeads := rfl
@[simp] theorem parkedOn_set (o : ObjectClaim) : (c.set id o).parkedOn = c.parkedOn := rfl
@[simp] theorem drainWaiters_set (o : ObjectClaim) :
    (c.set id o).drainWaiters = c.drainWaiters := rfl

/-- An entry that exists is what `entry` reads. -/
theorem entry_of_some {o : ObjectClaim} (h : c.objects id = some o) : c.entry id = o := by
  rw [entry, h]
  rfl

theorem entry_of_none (h : c.objects id = none) : c.entry id = {} := by
  rw [entry, h]
  rfl

/-- Skipping ghosts drops their waits-for edges and nothing else. -/
theorem dropGhosts_eq (ghosts : List Waiter) :
    c.dropGhosts ghosts = { c with
      parkedOn := fun t => if t ∈ ghosts.map Waiter.task then none else c.parkedOn t } := by
  induction ghosts generalizing c with
  | nil => simp [dropGhosts]
  | cons w rest ih =>
    show (c.unpark w.task).dropGhosts rest = _
    rw [ih]
    unfold unpark
    congr 1
    funext t
    simp only [List.map_cons, List.mem_cons, Function.update_apply]
    by_cases ht : t = w.task
    · simp [ht]
    · simp [ht]

end PeerClaims

/-- `popLive` splits the queue at its first live waiter. -/
theorem popLive_spec (live : Live) (ws : List Waiter) :
    (∀ w ∈ (popLive live ws).1, live w.task w.epoch = false) ∧
      match (popLive live ws).2 with
      | none => ws = (popLive live ws).1
      | some (w, rest) => ws = (popLive live ws).1 ++ w :: rest ∧ live w.task w.epoch = true := by
  induction ws with
  | nil => exact ⟨fun w hw => absurd hw (by simp [popLive]), rfl⟩
  | cons w rest ih =>
    rw [popLive]
    by_cases hlive : live w.task w.epoch = true
    · rw [if_pos hlive]
      exact ⟨fun w hw => absurd hw (by simp), rfl, hlive⟩
    · rw [if_neg hlive]
      obtain ⟨hghosts, hhead⟩ := ih
      refine ⟨?_, ?_⟩
      · intro x hx
        rcases List.mem_cons.mp hx with rfl | hx
        · exact Bool.eq_false_iff.mpr hlive
        · exact hghosts x hx
      · show match (popLive live rest).2 with
          | none => w :: rest = w :: (popLive live rest).1
          | some (x, tail) =>
            w :: rest = w :: (popLive live rest).1 ++ x :: tail ∧ live x.task x.epoch = true
        cases hpop : (popLive live rest).2 with
        | none =>
          rw [hpop] at hhead
          exact congrArg (w :: ·) hhead
        | some head =>
          rw [hpop] at hhead
          exact ⟨congrArg (w :: ·) hhead.1, hhead.2⟩

/-- An object but for its label, which no decision reads. -/
def ObjectClaim.bare (o : ObjectClaim) : ObjectClaim := { o with label := "" }

section Bare

variable {o o' : ObjectClaim}

theorem ObjectClaim.owner_of_bare (h : o.bare = o'.bare) : o.owner = o'.owner :=
  (congrArg ObjectClaim.owner h : o.bare.owner = o'.bare.owner)
theorem ObjectClaim.depth_of_bare (h : o.bare = o'.bare) : o.depth = o'.depth :=
  (congrArg ObjectClaim.depth h : o.bare.depth = o'.bare.depth)
theorem ObjectClaim.ownerLane_of_bare (h : o.bare = o'.bare) : o.ownerLane = o'.ownerLane :=
  (congrArg ObjectClaim.ownerLane h : o.bare.ownerLane = o'.bare.ownerLane)
theorem ObjectClaim.waiters_of_bare (h : o.bare = o'.bare) : o.waiters = o'.waiters :=
  (congrArg ObjectClaim.waiters h : o.bare.waiters = o'.bare.waiters)
theorem ObjectClaim.reserved_of_bare (h : o.bare = o'.bare) : o.reserved = o'.reserved :=
  (congrArg ObjectClaim.reserved h : o.bare.reserved = o'.bare.reserved)

theorem ObjectClaim.bare_ext (howner : o.owner = o'.owner) (hdepth : o.depth = o'.depth)
    (hlane : o.ownerLane = o'.ownerLane) (hwaiters : o.waiters = o'.waiters)
    (hres : o.reserved = o'.reserved) : o.bare = o'.bare := by
  rw [ObjectClaim.bare, ObjectClaim.bare, howner, hdepth, hlane, hwaiters, hres]

/-- An owned object is well-formed if it has a depth and no reservation. -/
theorem ObjectOk.of_owned (howner : o.owner.isSome) (hdepth : 1 ≤ o.depth)
    (hres : o.reserved = false) : ObjectOk o := by
  refine ⟨fun hnone => ?_, fun _ => ⟨hdepth, hres⟩⟩
  rw [hnone] at howner
  cases howner

theorem ObjectOk.of_bare (hok : ObjectOk o') (h : o.bare = o'.bare) : ObjectOk o := by
  constructor
  · rw [ObjectClaim.owner_of_bare h, ObjectClaim.depth_of_bare h,
      ObjectClaim.ownerLane_of_bare h]
    exact hok.unowned
  · rw [ObjectClaim.owner_of_bare h, ObjectClaim.depth_of_bare h, ObjectClaim.reserved_of_bare h]
    exact hok.owned

end Bare

namespace PeerClaims

variable (c : PeerClaims) (id id' : ObjectId)

/-- A touched entry differs in its label at most. -/
theorem bare_touchLabel (label : String) :
    ((c.touchLabel id label).entry id').bare = (c.entry id').bare := by
  unfold touchLabel
  simp only
  rw [entry_set]
  by_cases hid : id' = id
  · rw [if_pos hid, hid]
    rfl
  · rw [if_neg hid]

@[simp] theorem freeLanes_touchLabel (label : String) :
    (c.touchLabel id label).freeLanes = c.freeLanes := rfl
@[simp] theorem laneCount_touchLabel (label : String) :
    (c.touchLabel id label).laneCount = c.laneCount := rfl
@[simp] theorem readyHeads_touchLabel (label : String) :
    (c.touchLabel id label).readyHeads = c.readyHeads := rfl
@[simp] theorem parkedOn_touchLabel (label : String) :
    (c.touchLabel id label).parkedOn = c.parkedOn := rfl
@[simp] theorem drainWaiters_touchLabel (label : String) :
    (c.touchLabel id label).drainWaiters = c.drainWaiters := rfl

/-- Only an idle entry is dropped, and it reads as idle afterwards. -/
theorem bare_gcObject (hok : ObjectOk (c.entry id)) :
    ((c.gcObject id).entry id').bare = (c.entry id').bare := by
  unfold gcObject
  split
  · rename_i o hobj
    split_ifs with hidle
    · rw [entry_of_some c id hobj] at hok
      simp only [Bool.and_eq_true, Option.isNone_iff_eq_none, List.isEmpty_iff,
        Bool.not_eq_true'] at hidle
      obtain ⟨⟨howner, hwaiters⟩, hres⟩ := hidle
      obtain ⟨hdepth, hlane⟩ := hok.unowned howner
      by_cases hid : id' = id
      · subst hid
        have hentry : c.entry id' = o := c.entry_of_some id' hobj
        have hgone : ({ c with objects := Function.update c.objects id' none } :
            PeerClaims).entry id' = {} := by simp [entry]
        rw [hgone, hentry]
        obtain ⟨owner, depth, ownerLane, label, waiters, reserved⟩ := o
        simp only at howner hwaiters hres hdepth hlane
        subst howner hwaiters hres hdepth hlane
        rfl
      · have hsame : ({ c with objects := Function.update c.objects id none } :
            PeerClaims).entry id' = c.entry id' := by simp [entry, hid]
        rw [hsame]
    · rfl
  · rfl

theorem gcObject_fields : (c.gcObject id).freeLanes = c.freeLanes ∧
    (c.gcObject id).laneCount = c.laneCount ∧ (c.gcObject id).readyHeads = c.readyHeads ∧
    (c.gcObject id).parkedOn = c.parkedOn ∧ (c.gcObject id).drainWaiters = c.drainWaiters := by
  unfold gcObject
  split
  · split_ifs <;> exact ⟨rfl, rfl, rfl, rfl, rfl⟩
  · exact ⟨rfl, rfl, rfl, rfl, rfl⟩

end PeerClaims

/-! ## Hand-overs -/

/-- `c'` is `c` with `o'` at `id`, the waiters `popped` from its queue gone from
the waits-for index. -/
structure Popped (c c' : PeerClaims) (id : ObjectId) (popped : List Waiter) (o' : ObjectClaim) :
    Prop where
  entry : ∀ id', c'.entry id' = if id' = id then o' else c.entry id'
  parkedOn : ∀ t, c'.parkedOn t = if t ∈ popped.map Waiter.task then none else c.parkedOn t
  drainWaiters : c'.drainWaiters = c.drainWaiters
  laneCount : c'.laneCount = c.laneCount

/-- What offering the free object `id` to its queue does: ghosts are skipped,
and the first live waiter takes the object (with `lane`, if it needs one), or
keeps its place for want of a lane. -/
inductive Served (live : Live) (c : PeerClaims) (id : ObjectId) (c' : PeerClaims) :
    List Grant → Option Lane → Prop
  | nobody (hdead : ∀ w ∈ (c.entry id).waiters, live w.task w.epoch = false)
      (hpop : Popped c c' id (c.entry id).waiters
        { c.entry id with waiters := [], reserved := false }) : Served live c id c' [] none
  | handed (ghosts : List Waiter) (w : Waiter) (rest : List Waiter) (lane : Option Lane)
      (hqueue : (c.entry id).waiters = ghosts ++ w :: rest)
      (hdead : ∀ w ∈ ghosts, live w.task w.epoch = false) (hlive : live w.task w.epoch = true)
      (hkind : lane.isSome = true ↔ w.kind = .topLevel)
      (hpop : Popped c c' id (ghosts ++ [w])
        { (c.entry id).own w.task w.epoch lane with waiters := rest, reserved := false }) :
      Served live c id c' [{ task := w.task, epoch := w.epoch, lane }] lane
  | kept (ghosts : List Waiter) (w : Waiter) (rest : List Waiter)
      (hqueue : (c.entry id).waiters = ghosts ++ w :: rest)
      (hdead : ∀ w ∈ ghosts, live w.task w.epoch = false) (hlive : live w.task w.epoch = true)
      (hkind : w.kind = .topLevel)
      (hpop : Popped c c' id ghosts
        { c.entry id with waiters := w :: rest, reserved := true }) : Served live c id c' [] none

/-- The effect of `handTo` after the ghosts were dropped. -/
theorem popped_handTo {c : PeerClaims} (id : ObjectId) (o : ObjectClaim) (ghosts : List Waiter)
    (w : Waiter) (rest : List Waiter) (lane : Option Lane) (now : Nat) :
    Popped c ((c.dropGhosts ghosts).handTo id o w rest lane now).1 id (ghosts ++ [w])
      { o.own w.task w.epoch lane with waiters := rest, reserved := false } := by
  rw [PeerClaims.dropGhosts_eq]
  refine ⟨fun id' => PeerClaims.entry_set _ id id' _, ?_, rfl, rfl⟩
  intro t
  show Function.update (fun t => if t ∈ ghosts.map Waiter.task then none else c.parkedOn t)
    w.task none t = _
  rw [Function.update_apply, List.map_append, List.map_singleton]
  simp only [List.mem_append, List.mem_singleton]
  by_cases ht : t = w.task
  · simp [ht]
  · simp [ht]

theorem popped_set {c : PeerClaims} (id : ObjectId) (o : ObjectClaim) (ghosts : List Waiter) :
    Popped c ((c.dropGhosts ghosts).set id o) id ghosts o := by
  rw [PeerClaims.dropGhosts_eq]
  exact ⟨fun id' => PeerClaims.entry_set _ id id' _, fun _ => rfl, rfl, rfl⟩

/-- An absent object has nobody to offer it to. -/
theorem served_of_none {c : PeerClaims} {id : ObjectId} (live : Live) (h : c.objects id = none) :
    Served live c id c [] none := by
  have hentry := c.entry_of_none id h
  refine .nobody (by simp [hentry]) ⟨?_, ?_, rfl, rfl⟩
  · intro id'
    rw [hentry]
    split_ifs with hid
    · rw [hid, hentry]
    · rfl
  · simp [hentry]

section PromoteHead

variable {c : PeerClaims} {id : ObjectId} {o : ObjectClaim} {live : Live} {now : Nat}
  {ghosts rest : List Waiter} {w : Waiter}

theorem promoteHead_nobody (hobj : c.objects id = some o)
    (hpop : popLive live o.waiters = (ghosts, none)) :
    c.promoteHead id live now =
      ((c.dropGhosts ghosts).set id { o with waiters := [], reserved := false }, []) := by
  simp only [PeerClaims.promoteHead, hobj, hpop]

theorem promoteHead_nested (hobj : c.objects id = some o)
    (hpop : popLive live o.waiters = (ghosts, some (w, rest))) (hkind : w.kind = .nested) :
    c.promoteHead id live now =
      (((c.dropGhosts ghosts).handTo id o w rest none now).1,
        [((c.dropGhosts ghosts).handTo id o w rest none now).2]) := by
  simp only [PeerClaims.promoteHead, hobj, hpop, hkind]

theorem promoteHead_lane {l : Lane} {lanes : List Lane} (hobj : c.objects id = some o)
    (hpop : popLive live o.waiters = (ghosts, some (w, rest))) (hkind : w.kind = .topLevel)
    (hlanes : c.freeLanes = l :: lanes) :
    c.promoteHead id live now =
      ((({ c with freeLanes := lanes }.dropGhosts ghosts).handTo id o w rest (some l) now).1,
        [(({ c with freeLanes := lanes }.dropGhosts ghosts).handTo id o w rest (some l) now).2])
    := by
  simp only [PeerClaims.promoteHead, hobj, hpop, hkind, PeerClaims.dropGhosts_eq, hlanes]

theorem promoteHead_noLane (hobj : c.objects id = some o)
    (hpop : popLive live o.waiters = (ghosts, some (w, rest))) (hkind : w.kind = .topLevel)
    (hlanes : c.freeLanes = []) :
    c.promoteHead id live now =
      ({ (c.dropGhosts ghosts).set id { o with waiters := w :: rest, reserved := true } with
        readyHeads := if o.reserved then c.readyHeads else c.readyHeads ++ [id] }, []) := by
  simp only [PeerClaims.promoteHead, hobj, hpop, hkind, PeerClaims.dropGhosts_eq, hlanes]
  split_ifs <;> rfl

end PromoteHead

/-- What `promoteHead` does: a hand-over, with a lane off the free list if the
waiter needs one, and the object queued for a lane if that left it reserved. -/
theorem promoteHead_served (c : PeerClaims) (id : ObjectId) (live : Live) (now : Nat) :
    ∃ lane, Served live c id (c.promoteHead id live now).1 (c.promoteHead id live now).2 lane ∧
      c.freeLanes = lane.toList ++ (c.promoteHead id live now).1.freeLanes ∧
      (((c.promoteHead id live now).1.entry id).reserved = true →
        (c.promoteHead id live now).1.freeLanes = []) ∧
      (c.promoteHead id live now).1.readyHeads =
        (if ((c.promoteHead id live now).1.entry id).reserved && !(c.entry id).reserved
          then c.readyHeads ++ [id] else c.readyHeads) := by
  cases hobj : c.objects id with
  | none =>
    rw [show c.promoteHead id live now = (c, []) by simp only [PeerClaims.promoteHead, hobj]]
    exact ⟨none, served_of_none live hobj, rfl, by simp [c.entry_of_none id hobj], by simp⟩
  | some o =>
    have ho : c.entry id = o := c.entry_of_some id hobj
    obtain ⟨hdead, hhead⟩ := popLive_spec live o.waiters
    rcases hpop : popLive live o.waiters with ⟨ghosts, head⟩
    rw [hpop] at hdead hhead
    subst ho
    cases head with
    | none =>
      -- nobody in the queue is alive: it is emptied, and the object not reserved
      replace hhead : (c.entry id).waiters = ghosts := hhead
      rw [promoteHead_nobody hobj hpop]
      refine ⟨none, .nobody (hhead ▸ hdead) ?_, ?_, ?_, ?_⟩
      · rw [hhead]
        exact popped_set id _ ghosts
      · rw [PeerClaims.dropGhosts_eq]
        rfl
      · rw [PeerClaims.entry_set_self]
        intro hres
        cases hres
      · rw [PeerClaims.entry_set_self, PeerClaims.dropGhosts_eq]
        rfl
    | some head =>
      obtain ⟨w, rest⟩ := head
      obtain ⟨hqueue, hlive⟩ := hhead
      -- a nested waiter has a lane; for another one there is a free lane, or the object is reserved
      cases hkind : w.kind with
      | nested =>
        rw [promoteHead_nested hobj hpop hkind]
        have heffect := popped_handTo (c := c) id (c.entry id) ghosts w rest none now
        refine ⟨none, .handed ghosts w rest none hqueue hdead hlive (by simp [hkind]) heffect,
          ?_, ?_, ?_⟩
        · rw [PeerClaims.dropGhosts_eq]
          rfl
        · rw [heffect.entry, if_pos rfl]
          intro hres
          cases hres
        · rw [heffect.entry, PeerClaims.dropGhosts_eq]
          simp only [if_true, Bool.false_and]
          rfl
      | topLevel =>
        cases hlanes : c.freeLanes with
        | cons l lanes =>
          rw [promoteHead_lane hobj hpop hkind hlanes]
          have heffect := popped_handTo (c := { c with freeLanes := lanes }) id (c.entry id)
            ghosts w rest (some l) now
          refine ⟨some l, .handed ghosts w rest (some l) hqueue hdead hlive (by simp [hkind])
            ⟨heffect.entry, heffect.parkedOn, heffect.drainWaiters, heffect.laneCount⟩,
            ?_, ?_, ?_⟩
          · rw [PeerClaims.dropGhosts_eq]
            rfl
          · rw [heffect.entry, if_pos rfl]
            intro hres
            cases hres
          · rw [heffect.entry, PeerClaims.dropGhosts_eq]
            simp only [if_true, Bool.false_and]
            rfl
        | nil =>
          rw [promoteHead_noLane hobj hpop hkind hlanes]
          have heffect := popped_set (c := c) id
            { c.entry id with waiters := w :: rest, reserved := true } ghosts
          refine ⟨none, .kept ghosts w rest hqueue hdead hlive hkind
            ⟨heffect.entry, heffect.parkedOn, heffect.drainWaiters, heffect.laneCount⟩,
            ?_, ?_, ?_⟩
          · rw [PeerClaims.dropGhosts_eq]
            exact hlanes.symm
          · rw [PeerClaims.dropGhosts_eq]
            exact fun _ => hlanes
          · have hentry := heffect.entry id
            rw [if_pos rfl] at hentry
            show (if (c.entry id).reserved then c.readyHeads else c.readyHeads ++ [id]) =
              if (((c.dropGhosts ghosts).set id _).entry id).reserved && _ then _ else _
            rw [hentry]
            cases (c.entry id).reserved <;> rfl

/-- What `serveHead` does for a reserved object: a hand-over with the offered
lane, which leaves the object unreserved. -/
theorem serveHead_served (c : PeerClaims) (id : ObjectId) (l : Lane) (live : Live) (now : Nat)
    (hres : (c.entry id).reserved = true) :
    ∃ lane, Served live c id (c.serveHead id l live now).1 (c.serveHead id l live now).2.1 lane ∧
      lane = (if (c.serveHead id l live now).2.2 then some l else none) ∧
      (c.serveHead id l live now).1.freeLanes = c.freeLanes ∧
      (c.serveHead id l live now).1.readyHeads = c.readyHeads ∧
      ((c.serveHead id l live now).1.entry id).reserved = false := by
  cases hobj : c.objects id with
  | none =>
    rw [c.entry_of_none id hobj] at hres
    cases hres
  | some o =>
    have ho : c.entry id = o := c.entry_of_some id hobj
    -- `popLive` drops the ghosts in front of the first waiter that is alive
    obtain ⟨hdead, hhead⟩ := popLive_spec live o.waiters
    rcases hpop : popLive live o.waiters with ⟨ghosts, head⟩
    rw [hpop] at hdead hhead
    subst ho
    cases head with
    | none =>
      replace hhead : (c.entry id).waiters = ghosts := hhead
      have hstep : c.serveHead id l live now = ((c.dropGhosts ghosts).set id
          { c.entry id with waiters := [], reserved := false }, [], false) := by
        simp only [PeerClaims.serveHead, hobj, hpop, hres, Bool.not_true, Bool.false_eq_true,
          if_false]
      rw [hstep]
      refine ⟨none, .nobody (hhead ▸ hdead) ?_, rfl, ?_, ?_, ?_⟩
      · rw [hhead]
        exact popped_set id _ ghosts
      · rw [PeerClaims.dropGhosts_eq]
        rfl
      · rw [PeerClaims.dropGhosts_eq]
        rfl
      · rw [PeerClaims.entry_set_self]
    | some head =>
      obtain ⟨w, rest⟩ := head
      obtain ⟨hqueue, hlive⟩ := hhead
      cases hkind : w.kind with
      -- a nested waiter has its lane, so this one goes on
      | nested =>
        have hstep : c.serveHead id l live now =
            (((c.dropGhosts ghosts).handTo id (c.entry id) w rest none now).1,
              [((c.dropGhosts ghosts).handTo id (c.entry id) w rest none now).2], false) := by
          simp only [PeerClaims.serveHead, hobj, hpop, hres, hkind, Bool.not_true,
            Bool.false_eq_true, if_false]
        rw [hstep]
        have heffect := popped_handTo (c := c) id (c.entry id) ghosts w rest none now
        refine ⟨none, .handed ghosts w rest none hqueue hdead hlive (by simp [hkind]) heffect,
          rfl, ?_, ?_, ?_⟩
        · rw [PeerClaims.dropGhosts_eq]
          rfl
        · rw [PeerClaims.dropGhosts_eq]
          rfl
        · rw [heffect.entry, if_pos rfl]
      | topLevel =>
        -- one from the top takes the lane with the object
        have hstep : c.serveHead id l live now =
            (((c.dropGhosts ghosts).handTo id (c.entry id) w rest (some l) now).1,
              [((c.dropGhosts ghosts).handTo id (c.entry id) w rest (some l) now).2], true) := by
          simp only [PeerClaims.serveHead, hobj, hpop, hres, hkind, Bool.not_true,
            Bool.false_eq_true, if_false]
        rw [hstep]
        have heffect := popped_handTo (c := c) id (c.entry id) ghosts w rest (some l) now
        refine ⟨some l, .handed ghosts w rest (some l) hqueue hdead hlive (by simp [hkind])
          heffect, rfl, ?_, ?_, ?_⟩
        · rw [PeerClaims.dropGhosts_eq]
          rfl
        · rw [PeerClaims.dropGhosts_eq]
          rfl
        · rw [heffect.entry, if_pos rfl]

namespace Served

variable {live : Live} {c c' : PeerClaims} {id : ObjectId} {gs : List Grant}
  {lane : Option Lane}

/-- A hand-over does not look at the lane queue. -/
theorem of_readyHeads {heads : List ObjectId}
    (h : Served live { c with readyHeads := heads } id c' gs lane) :
    Served live c id c' gs lane := by
  cases h with
  | nobody hdead hpop =>
    exact .nobody hdead ⟨hpop.entry, hpop.parkedOn, hpop.drainWaiters, hpop.laneCount⟩
  | handed ghosts w rest lane hqueue hdead hlive hkind hpop =>
    exact .handed ghosts w rest lane hqueue hdead hlive hkind
      ⟨hpop.entry, hpop.parkedOn, hpop.drainWaiters, hpop.laneCount⟩
  | kept ghosts w rest hqueue hdead hlive hkind hpop =>
    exact .kept ghosts w rest hqueue hdead hlive hkind
      ⟨hpop.entry, hpop.parkedOn, hpop.drainWaiters, hpop.laneCount⟩

theorem other (h : Served live c id c' gs lane) {id' : ObjectId} (hne : id' ≠ id) :
    c'.entry id' = c.entry id' := by
  cases h with
  | nobody _ hpop => rw [hpop.entry, if_neg hne]
  | handed _ _ _ _ _ _ _ _ hpop => rw [hpop.entry, if_neg hne]
  | kept _ _ _ _ _ _ _ hpop => rw [hpop.entry, if_neg hne]

theorem laneCount (h : Served live c id c' gs lane) : c'.laneCount = c.laneCount := by
  cases h with
  | nobody _ hpop => exact hpop.laneCount
  | handed _ _ _ _ _ _ _ _ hpop => exact hpop.laneCount
  | kept _ _ _ _ _ _ _ hpop => exact hpop.laneCount

theorem drainWaiters (h : Served live c id c' gs lane) : c'.drainWaiters = c.drainWaiters := by
  cases h with
  | nobody _ hpop => exact hpop.drainWaiters
  | handed _ _ _ _ _ _ _ _ hpop => exact hpop.drainWaiters
  | kept _ _ _ _ _ _ _ hpop => exact hpop.drainWaiters

/-- The lane given is the lane held. -/
theorem ownerLane (h : Served live c id c' gs lane) (hnone : (c.entry id).ownerLane = none) :
    (c'.entry id).ownerLane = lane := by
  cases h with
  | nobody _ hpop =>
    rw [hpop.entry, if_pos rfl]
    exact hnone
  | handed _ _ _ _ _ _ _ _ hpop =>
    rw [hpop.entry, if_pos rfl]
    rfl
  | kept _ _ _ _ _ _ _ hpop =>
    rw [hpop.entry, if_pos rfl]
    exact hnone

/-- A hand-over leaves a well-formed object nobody queues idly on. -/
theorem object (h : Served live c id c' gs lane) (hok : ObjectOk (c.entry id))
    (hfree : (c.entry id).owner = none) :
    ObjectOk (c'.entry id) ∧ ((c'.entry id).waiters ≠ [] →
      (c'.entry id).owner.isSome ∨ (c'.entry id).reserved = true) := by
  cases h with
  | nobody _ hpop =>
    rw [hpop.entry, if_pos rfl]
    refine ⟨⟨hok.unowned, fun howned => ?_⟩, fun hne => absurd rfl hne⟩
    exact ⟨(hok.owned howned).1, rfl⟩
  | handed _ _ _ _ _ _ _ _ hpop =>
    rw [hpop.entry, if_pos rfl]
    exact ⟨.of_owned rfl (Nat.le_refl 1) rfl, fun _ => Or.inl rfl⟩
  | kept _ _ _ _ _ _ _ hpop =>
    rw [hpop.entry, if_pos rfl]
    refine ⟨⟨hok.unowned, fun howned => ?_⟩, fun _ => Or.inr rfl⟩
    replace howned : (c.entry id).owner.isSome = true := howned
    rw [hfree] at howned
    cases howned

end Served

namespace TableOk

variable {c c' : PeerClaims} {id : ObjectId} {limbo limbo' : Option Lane}
  {freed : Option ObjectId} {live : Live}

/-- A reserved object has no owner. -/
theorem unowned_of_reserved (h : TableOk c limbo freed) (hres : (c.entry id).reserved = true) :
    (c.entry id).owner = none := by
  rw [← Option.not_isSome_iff_eq_none]
  intro howned
  rw [((h.object id).owned howned).2] at hres
  cases hres

/-- The part of the invariant a hand-over needs no bookkeeping for. -/
theorem served {gs : List Grant} {lane : Option Lane} (h : TableOk c limbo freed)
    (hs : Served live c id c' gs lane) (hfree : (c.entry id).owner = none)
    (hfreed : ∀ id', freed = some id' → id' = id)
    (hlanes : Tokens (· < c'.laneCount) c'.freeLanes (fun id => (c'.entry id).ownerLane) limbo')
    (hready : Marked c'.readyHeads fun id => (c'.entry id).reserved)
    (hfreeReady : c'.freeLanes ≠ [] → c'.readyHeads = []) : TableOk c' limbo' none := by
  obtain ⟨hobject, hqueued⟩ := hs.object (h.object id) hfree
  refine ⟨?_, hlanes, hready, hfreeReady, ?_⟩
  · intro id'
    by_cases hid : id' = id
    · exact hid ▸ hobject
    · exact hs.other hid ▸ h.object id'
  · intro id' _
    by_cases hid : id' = id
    · exact hid ▸ hqueued
    · rw [hs.other hid]
      exact h.queued id' fun hf => hid (hfreed id' hf)

/-- `promoteHead` on an object that just lost its owner. -/
theorem promoteHead (h : TableOk c limbo (some id)) (hfree : (c.entry id).owner = none)
    (hres : (c.entry id).reserved = false) (live : Live) (now : Nat) :
    TableOk (c.promoteHead id live now).1 limbo none := by
  obtain ⟨lane, hs, hlanes, hkept, hready⟩ := promoteHead_served c id live now
  have hnone := ((h.object id).unowned hfree).2
  have hheld := hs.ownerLane hnone
  refine h.served hs hfree (fun id' hid => (Option.some.inj hid).symm) ?_ ?_ ?_
  · rw [hs.laneCount]
    cases lane with
    | none =>
      rw [Option.toList_none, List.nil_append] at hlanes
      rw [← hlanes]
      refine h.lanes.congr fun id' => ?_
      by_cases hid : id' = id
      · rw [hid, hheld, hnone]
      · rw [hs.other hid]
    | some l =>
      have htokens := h.lanes
      rw [hlanes] at htokens
      exact htokens.take hnone hheld fun id' hid => by rw [hs.other hid]
  · rw [hready, hres]
    cases hres' : ((c.promoteHead id live now).1.entry id).reserved with
    | true =>
      exact h.ready.push hres hres' fun id' hid => by rw [hs.other hid]
    | false =>
      refine h.ready.congr fun id' => ?_
      by_cases hid : id' = id
      · rw [hid, hres, hres']
      · rw [hs.other hid]
  · intro hne
    have hres' : ((c.promoteHead id live now).1.entry id).reserved = false := by
      rw [← Bool.not_eq_true]
      exact fun hres' => hne (hkept hres')
    rw [hready, hres']
    refine h.freeReady fun hnil => hne ?_
    rw [hnil] at hlanes
    exact (List.append_eq_nil_iff.mp hlanes.symm).2

/-- A ready head offered the lane in limbo: it leaves the lane queue, with or
without the lane. -/
theorem serveHead {l : Lane} {heads : List ObjectId} (h : TableOk c (some l) none)
    (hheads : c.readyHeads = id :: heads) (live : Live) (now : Nat) :
    let r := { c with readyHeads := heads }.serveHead id l live now
    TableOk r.1 (if r.2.2 then none else some l) none ∧ r.1.readyHeads = heads := by
  have hready := h.ready
  rw [hheads] at hready
  have hres : (c.entry id).reserved = true := (hready.mem id).mp List.mem_cons_self
  have hfree := h.unowned_of_reserved hres
  intro r
  obtain ⟨lane, hserved, hlane, hlanes, hheads', hres'⟩ :=
    serveHead_served { c with readyHeads := heads } id l live now hres
  have hs : Served live c id r.1 r.2.1 lane := hserved.of_readyHeads
  replace hlane : lane = if r.2.2 then some l else none := hlane
  replace hlanes : r.1.freeLanes = c.freeLanes := hlanes
  have hnone := ((h.object id).unowned hfree).2
  have hheld := hs.ownerLane hnone
  refine ⟨h.served hs hfree (fun id' hid => by cases hid) ?_ ?_ ?_, hheads'⟩
  · rw [hs.laneCount, hlanes]
    rw [hlane] at hheld
    cases htaken : r.2.2 with
    | true =>
      rw [htaken] at hheld
      exact h.lanes.place hnone hheld fun id' hid => by rw [hs.other hid]
    | false =>
      rw [htaken] at hheld
      refine h.lanes.congr fun id' => ?_
      by_cases hid : id' = id
      · rw [hid, hheld, hnone]
        rfl
      · rw [hs.other hid]
  · rw [hheads']
    exact hready.pop hres' fun id' hid => by rw [hs.other hid]
  · intro hne
    rw [hlanes] at hne
    have hnil := h.freeReady hne
    rw [hheads] at hnil
    cases hnil

/-- The lane in limbo ends up at a reserved head or back home. -/
theorem offerLane {l : Lane} {heads : List ObjectId} (h : TableOk c (some l) none)
    (hheads : c.readyHeads = heads) (live : Live) (now : Nat) :
    TableOk (PeerClaims.offerLane l live now heads c).1 none none := by
  induction heads generalizing c with
  | nil =>
    refine ⟨h.object, h.lanes.bank, ?_, fun _ => rfl, h.queued⟩
    have hready := h.ready
    rw [hheads] at hready
    exact hready
  | cons id heads ih =>
    obtain ⟨hok, hheads'⟩ := h.serveHead hheads live now
    rw [PeerClaims.offerLane]
    cases htaken : ({ c with readyHeads := heads }.serveHead id l live now).2.2 with
    | true =>
      rw [htaken] at hok
      simp only [htaken, if_true]
      exact hok
    | false =>
      rw [htaken] at hok
      simp only [htaken, Bool.false_eq_true, if_false]
      exact ih hok hheads'

/-- Offering a lane leaves the drain waiters alone and banks at most that lane. -/
theorem offerLane_fields {l : Lane} {heads : List ObjectId} (h : TableOk c (some l) none)
    (hheads : c.readyHeads = heads) (live : Live) (now : Nat) :
    (PeerClaims.offerLane l live now heads c).1.drainWaiters = c.drainWaiters ∧
      (PeerClaims.offerLane l live now heads c).1.laneCount = c.laneCount ∧
      (PeerClaims.offerLane l live now heads c).1.freeLanes.length ≤ c.freeLanes.length + 1 := by
  induction heads generalizing c with
  | nil => exact ⟨rfl, rfl, Nat.le_refl _⟩
  | cons id heads ih =>
    obtain ⟨hok, hheads'⟩ := h.serveHead hheads live now
    have hready := h.ready
    rw [hheads] at hready
    have hres : (c.entry id).reserved = true := (hready.mem id).mp List.mem_cons_self
    obtain ⟨lane, hs, -, hlanes, -⟩ :=
      serveHead_served { c with readyHeads := heads } id l live now hres
    rw [PeerClaims.offerLane]
    cases htaken : ({ c with readyHeads := heads }.serveHead id l live now).2.2 with
    | true =>
      simp only [htaken, if_true]
      exact ⟨hs.drainWaiters, hs.laneCount, (congrArg List.length hlanes).trans_le (Nat.le_succ _)⟩
    | false =>
      rw [htaken] at hok
      simp only [htaken, Bool.false_eq_true, if_false]
      obtain ⟨hdrain, hcount, hlen⟩ := ih hok hheads'
      rw [hlanes] at hlen
      exact ⟨hdrain.trans hs.drainWaiters, hcount.trans hs.laneCount, hlen⟩

theorem releaseLane {l : Lane} (h : TableOk c (some l) none) (live : Live) (now : Nat) :
    TableOk (c.releaseLane l live now).1 none none := by
  have hoffer := h.offerLane rfl live now
  unfold PeerClaims.releaseLane
  simp only
  split_ifs
  · exact ⟨hoffer.object, hoffer.lanes, hoffer.ready, hoffer.freeReady, hoffer.queued⟩
  · exact hoffer

/-- The invariant does not read labels, waits-for edges, drain waiters or counters. -/
theorem congr (h : TableOk c limbo freed) (hcount : c'.laneCount = c.laneCount)
    (hfree : c'.freeLanes = c.freeLanes) (hready : c'.readyHeads = c.readyHeads)
    (hbare : ∀ id, (c'.entry id).bare = (c.entry id).bare) : TableOk c' limbo freed := by
  refine ⟨fun id => (h.object id).of_bare (hbare id), ?_, ?_, ?_, ?_⟩
  · rw [hcount, hfree]
    exact h.lanes.congr fun id => ObjectClaim.ownerLane_of_bare (hbare id)
  · rw [hready]
    exact h.ready.congr fun id => ObjectClaim.reserved_of_bare (hbare id)
  · rw [hfree, hready]
    exact h.freeReady
  · intro id hid
    rw [ObjectClaim.waiters_of_bare (hbare id), ObjectClaim.owner_of_bare (hbare id),
      ObjectClaim.reserved_of_bare (hbare id)]
    exact h.queued id hid

/-- Writing one object, its lane and its reservation left as they are. -/
theorem set (h : TableOk c limbo freed) (id : ObjectId) {o : ObjectClaim} (hok : ObjectOk o)
    (hlane : o.ownerLane = (c.entry id).ownerLane) (hres : o.reserved = (c.entry id).reserved)
    (hqueued : o.waiters ≠ [] → o.owner.isSome ∨ o.reserved = true) :
    TableOk (c.set id o) limbo freed := by
  refine ⟨?_, h.lanes.congr ?_, h.ready.congr ?_, h.freeReady, ?_⟩
  · intro id'
    rw [PeerClaims.entry_set]
    split_ifs
    · exact hok
    · exact h.object id'
  · intro id'
    rw [PeerClaims.entry_set]
    split_ifs with hid
    · rw [hlane, hid]
    · rfl
  · intro id'
    rw [PeerClaims.entry_set]
    split_ifs with hid
    · rw [hres, hid]
    · rfl
  · intro id' hfreed
    rw [PeerClaims.entry_set]
    split_ifs
    · exact hqueued
    · exact h.queued id' hfreed

/-- The holder of `id` lets go: its lane is in limbo and the object is free. -/
theorem drop (h : TableOk c none none) (id : ObjectId) :
    TableOk (c.set id { c.entry id with depth := 0, owner := none, ownerLane := none })
      (c.entry id).ownerLane (some id) := by
  refine ⟨?_, ?_, h.ready.congr ?_, h.freeReady, ?_⟩
  · intro id'
    rw [PeerClaims.entry_set]
    split_ifs
    · exact ⟨fun _ => ⟨rfl, rfl⟩, fun howned => by cases howned⟩
    · exact h.object id'
  · cases hlane : (c.entry id).ownerLane with
    | none =>
      refine h.lanes.congr fun id' => ?_
      by_cases hid : id' = id
      · rw [hid, PeerClaims.entry_set_self, hlane]
      · rw [PeerClaims.entry_set, if_neg hid]
    | some l =>
      exact h.lanes.drop hlane (by rw [PeerClaims.entry_set_self])
        fun id' hid => by rw [PeerClaims.entry_set, if_neg hid]
  · intro id'
    rw [PeerClaims.entry_set]
    split_ifs with hid
    · rw [hid]
    · rfl
  · intro id' hid
    have hne : id' ≠ id := fun heq => hid (by rw [heq])
    rw [PeerClaims.entry_set, if_neg hne]
    exact h.queued id' (by simp)

/-- An idle object reserved for a first waiter, when no lane is free. -/
theorem reserve (h : TableOk c limbo freed) (hfree : (c.entry id).owner = none)
    (hres : (c.entry id).reserved = false) (hlanes : c.freeLanes = []) (waiters : List Waiter) :
    TableOk { c.set id { c.entry id with waiters, reserved := true } with
      readyHeads := c.readyHeads ++ [id] } limbo freed := by
  have hself : ({ c.set id { c.entry id with waiters, reserved := true } with
      readyHeads := c.readyHeads ++ [id] } : PeerClaims).entry id
        = { c.entry id with waiters, reserved := true } := PeerClaims.entry_set_self _ _ _
  have hother : ∀ id', id' ≠ id → ({ c.set id { c.entry id with waiters, reserved := true } with
      readyHeads := c.readyHeads ++ [id] } : PeerClaims).entry id' = c.entry id' :=
    fun id' hid => (PeerClaims.entry_set _ _ _ _).trans (if_neg hid)
  refine ⟨?_, h.lanes.congr ?_, h.ready.push hres (by rw [hself])
    fun id' hid => by rw [hother id' hid], ?_, ?_⟩
  · intro id'
    by_cases hid : id' = id
    · rw [hid, hself]
      refine ⟨(h.object id).unowned, fun howned => ?_⟩
      replace howned : (c.entry id).owner.isSome = true := howned
      rw [hfree] at howned
      cases howned
    · rw [hother id' hid]
      exact h.object id'
  · intro id'
    by_cases hid : id' = id
    · rw [hid, hself]
    · rw [hother id' hid]
  · intro hne
    exact absurd hlanes hne
  · intro id' hid
    by_cases hne : id' = id
    · rw [hne, hself]
      exact fun _ => Or.inr rfl
    · rw [hother id' hne]
      exact h.queued id' hid

/-- A free object taken with a free lane. -/
theorem takeLane {l : Lane} {lanes : List Lane} (h : TableOk c limbo freed)
    (hlanes : c.freeLanes = l :: lanes) (hfree : (c.entry id).owner = none)
    (hres : (c.entry id).reserved = false) (task : TaskId) (epoch : Epoch) :
    TableOk ({ c with freeLanes := lanes }.set id ((c.entry id).own task epoch (some l)))
      limbo freed := by
  have hother : ∀ id', id' ≠ id →
      ({ c with freeLanes := lanes }.set id ((c.entry id).own task epoch (some l))).entry id'
        = c.entry id' := by
    intro id' hid
    rw [PeerClaims.entry_set, if_neg hid]
    rfl
  have htokens := h.lanes
  rw [hlanes] at htokens
  refine ⟨?_, htokens.take ((h.object id).unowned hfree).2 (by rw [PeerClaims.entry_set_self]; rfl)
    fun id' hid => by rw [hother id' hid], h.ready.congr ?_, ?_, ?_⟩
  · intro id'
    by_cases hid : id' = id
    · rw [hid, PeerClaims.entry_set_self]
      exact .of_owned rfl (Nat.le_refl 1) hres
    · rw [hother id' hid]
      exact h.object id'
  · intro id'
    by_cases hid : id' = id
    · rw [hid, PeerClaims.entry_set_self]
      rfl
    · rw [hother id' hid]
  · intro _
    exact h.freeReady (by rw [hlanes]; simp)
  · intro id' hid
    by_cases hne : id' = id
    · rw [hne, PeerClaims.entry_set_self]
      exact fun _ => Or.inl rfl
    · rw [hother id' hne]
      exact h.queued id' hid

theorem gcObject (h : TableOk c limbo freed) : TableOk (c.gcObject id) limbo freed := by
  obtain ⟨hfree, hcount, hready, -, -⟩ := c.gcObject_fields id
  exact h.congr hcount hfree hready fun id' => c.bare_gcObject id id' (h.object id)

theorem touchLabel (h : TableOk c limbo freed) (label : String) :
    TableOk (c.touchLabel id label) limbo freed :=
  h.congr rfl rfl rfl fun id' => c.bare_touchLabel id id' label

/-! ## The methods -/

theorem new (label : String) (lanes : Nat) : TableOk (PeerClaims.new label lanes) none none := by
  refine ⟨fun _ => ⟨fun _ => ⟨rfl, rfl⟩, fun h => (by cases h)⟩, ?_, ?_, fun _ => rfl, ?_⟩
  · refine ⟨fun l => ?_, List.nodup_range, ?_, ?_, ?_⟩
    · show l < max lanes 1 ↔ l ∈ List.range (max lanes 1) ∨ _
      rw [List.mem_range]
      refine ⟨Or.inl, ?_⟩
      rintro (h | ⟨_, h⟩ | h)
      · exact h
      · cases h
      · cases h
    · intro l _ id h
      cases h
    · intro l id id' h
      cases h
    · intro l h
      cases h
  · refine ⟨fun id => ⟨fun h => ?_, fun h => ?_⟩, List.nodup_nil⟩
    · cases h
    · cases h
  · intro id _ h
    exact absurd rfl h

theorem tryAcquire (h : TableOk c none none) (task : TaskId) (epoch : Epoch) (id : ObjectId)
    (label : String) (nested : Bool) :
    TableOk (c.tryAcquire task epoch id label nested).1 none none := by
  have htouch : TableOk (({ c with stats.acquisitions := c.stats.acquisitions + 1 } :
      PeerClaims).touchLabel id label) none none :=
    TableOk.touchLabel (c := { c with stats.acquisitions := c.stats.acquisitions + 1 })
      (h.congr rfl rfl rfl fun _ => rfl) label
  unfold PeerClaims.tryAcquire
  simp only
  generalize ({ c with stats.acquisitions := c.stats.acquisitions + 1 } :
    PeerClaims).touchLabel id label = d at htouch
  split
  · rename_i owner epoch' howner
    split_ifs
    · exact htouch
    · have hok := (htouch.object id).owned (by rw [howner]; rfl)
      have hsome : (d.entry id).owner.isSome := by rw [howner]; rfl
      have hset := htouch.set id (o := { d.entry id with depth := (d.entry id).depth + 1 })
        (.of_owned hsome (Nat.le_add_left 1 _) hok.2) rfl rfl fun _ => Or.inl hsome
      exact hset.congr rfl rfl rfl fun _ => rfl
    · exact htouch
  · rename_i hfree
    split_ifs with hres hnested
    · exact htouch
    · have hlane := ((htouch.object id).unowned hfree).2
      exact htouch.set id (.of_owned rfl (Nat.le_refl 1) (Bool.not_eq_true _ ▸ hres)) hlane.symm rfl
        fun _ => Or.inl rfl
    · split
      · rename_i lane lanes hlanes
        exact htouch.takeLane hlanes hfree (by simpa using hres) task epoch
      · exact htouch

theorem enqueue (h : TableOk c none none) (task : TaskId) (epoch : Epoch) (label : String)
    (kind : WaitKind) (now : Nat) (hlane : (c.entry id).owner = none → (c.entry id).reserved = false →
      c.freeLanes = []) :
    TableOk (c.enqueue task epoch id label kind now) none none := by
  have htouch : TableOk (({ c with stats.contended := c.stats.contended + 1 } :
      PeerClaims).touchLabel id label) none none :=
    TableOk.touchLabel (c := { c with stats.contended := c.stats.contended + 1 })
      (h.congr rfl rfl rfl fun _ => rfl) label
  have hbare := PeerClaims.bare_touchLabel
    ({ c with stats.contended := c.stats.contended + 1 } : PeerClaims) id id label
  replace hbare : _ = (c.entry id).bare := hbare
  rw [← ObjectClaim.owner_of_bare hbare, ← ObjectClaim.reserved_of_bare hbare] at hlane
  unfold PeerClaims.enqueue
  simp only
  replace hlane : _ → _ → (({ c with stats.contended := c.stats.contended + 1 } :
    PeerClaims).touchLabel id label).freeLanes = [] := hlane
  generalize ({ c with stats.contended := c.stats.contended + 1 } :
    PeerClaims).touchLabel id label = d at htouch hlane
  -- the table with the edge and the counters written, which the invariant does not read
  split_ifs with hidle
  · simp only [Bool.and_eq_true, Option.isNone_iff_eq_none, Bool.not_eq_true'] at hidle
    exact (htouch.reserve hidle.1 hidle.2 (hlane hidle.1 hidle.2) _).congr rfl rfl rfl fun _ => rfl
  · have hok := htouch.object id
    refine (htouch.set id (o := { d.entry id with
      waiters := (d.entry id).waiters ++ [{ task, epoch, kind, queuedAt := now }] })
      ⟨hok.unowned, hok.owned⟩ rfl rfl fun _ => ?_).congr rfl rfl rfl fun _ => rfl
    cases howner : (d.entry id).owner with
    | some _ => exact Or.inl rfl
    | none =>
      cases hres : (d.entry id).reserved with
      | true => exact Or.inr rfl
      | false =>
        refine absurd ?_ hidle
        show ((d.entry id).owner.isNone && !(d.entry id).reserved) = true
        rw [howner, hres]
        rfl

theorem retract (h : TableOk c none none) (task : TaskId) :
    TableOk (c.retract task id) none none := by
  have hunpark : TableOk (c.unpark task) none none := h.congr rfl rfl rfl fun _ => rfl
  unfold PeerClaims.retract
  simp only
  refine gcObject ?_
  split
  · rename_i o hobj
    have hentry : (c.unpark task).entry id = o := PeerClaims.entry_of_some _ id hobj
    have hok := hunpark.object id
    have hqueued := hunpark.queued id (by simp)
    rw [hentry] at hok hqueued
    refine hunpark.set id ⟨hok.unowned, hok.owned⟩ (by rw [hentry]) (by rw [hentry]) fun hne => ?_
    refine hqueued fun hnil => hne ?_
    show o.waiters.filter _ = []
    rw [hnil]
    rfl
  · exact hunpark

theorem requestDrain (h : TableOk c none none) (task : TaskId) (epoch : Epoch) :
    TableOk (c.requestDrain task epoch).1 none none := by
  unfold PeerClaims.requestDrain
  split_ifs
  · exact h
  · exact h.congr rfl rfl rfl fun _ => rfl

theorem handOn {lane : Option Lane} (h : TableOk c lane (some id))
    (hfree : (c.entry id).owner = none) (hres : (c.entry id).reserved = false) (live : Live)
    (now : Nat) : TableOk (c.handOn id lane live now).1 none none := by
  have hpromote := h.promoteHead hfree hres live now
  unfold PeerClaims.handOn
  refine gcObject ?_
  cases lane with
  | none => exact hpromote
  | some l => exact hpromote.releaseLane live now

/-- Ending a call on an object somebody owns. -/
theorem endCall (h : TableOk c none none) (id : ObjectId)
    (howned : ∀ o, c.objects id = some o → o.owner.isSome) (live : Live) (now : Nat) :
    TableOk (c.endCall id live now).1 none none := by
  unfold PeerClaims.endCall
  cases hobj : c.objects id with
  | none => exact h
  | some o =>
    have hentry : c.entry id = o := c.entry_of_some id hobj
    have hok := h.object id
    rw [hentry] at hok
    have hres := (hok.owned (howned o hobj)).2
    simp only
    split_ifs with hdepth
    · exact h.set id (.of_owned (howned o hobj) hdepth hres) (by rw [hentry]) (by rw [hentry])
        fun _ => Or.inl (howned o hobj)
    · have hdrop := h.drop id
      rw [hentry, show (0 : Nat) = o.depth - 1 by omega] at hdrop
      exact hdrop.handOn (by rw [PeerClaims.entry_set_self])
        (by rw [PeerClaims.entry_set_self]; exact hres) live now

end TableOk

end Quoin.Claims
