import Quoin.Claims.Link

/-!
# Quoin — what each claim-table method does to its tasks

One lemma per method of the table, saying once what it can do: the decision of
`tryAcquire` and the object it leaves (`Acquired`), the queue entry written by
`enqueue` and removed by `retract`, and the wakes of `endCall`, split into the
tasks handed an object and the drain waiters. Each is then carried over to
`Linked`, so the steps of `Claims/Invariant.lean` never look inside a method.
-/

namespace Quoin.Claims

/-! ## Acquiring -/

/-- What `tryAcquire` decided, and why. -/
inductive Acquired (c : PeerClaims) (t : TaskId) (epoch : Epoch) (id : ObjectId) (nested : Bool)
    (c' : PeerClaims) : Acquire → Prop
  | granted (lane : Option Lane) (hfree : (c.entry id).owner = none)
      (hres : (c.entry id).reserved = false)
      (hentry : ∀ id', (c'.entry id').bare =
        if id' = id then ((c.entry id).own t epoch lane).bare else (c.entry id').bare) :
      Acquired c t epoch id nested c' (.granted lane)
  | reentrant (epoch' : Epoch) (howner : (c.entry id).owner = some (t, epoch'))
      (hentry : ∀ id', (c'.entry id').bare =
        if id' = id then { c.entry id with depth := (c.entry id).depth + 1 }.bare
        else (c.entry id').bare) : Acquired c t epoch id nested c' .reentrant
  | tooDeep (hentry : ∀ id', (c'.entry id').bare = (c.entry id').bare) :
      Acquired c t epoch id nested c' .tooDeep
  | blocked (u : TaskId) (epoch' : Epoch) (howner : (c.entry id).owner = some (u, epoch'))
      (hne : u ≠ t) (hentry : ∀ id', (c'.entry id').bare = (c.entry id').bare) :
      Acquired c t epoch id nested c' (.wouldQueue (some u))
  | behind (hfree : (c.entry id).owner = none)
      (hwhy : (c.entry id).reserved = true ∨ nested = false ∧ c.freeLanes = [])
      (hlanes : c'.freeLanes = c.freeLanes)
      (hentry : ∀ id', (c'.entry id').bare = (c.entry id').bare) :
      Acquired c t epoch id nested c' (.wouldQueue none)

theorem tryAcquire_acquired (c : PeerClaims) (t : TaskId) (epoch : Epoch) (id : ObjectId)
    (label : String) (nested : Bool) :
    Acquired c t epoch id nested (c.tryAcquire t epoch id label nested).1
      (c.tryAcquire t epoch id label nested).2 ∧
    (c.tryAcquire t epoch id label nested).1.parkedOn = c.parkedOn ∧
    (c.tryAcquire t epoch id label nested).1.drainWaiters = c.drainWaiters := by
  have hbare := fun id' => PeerClaims.bare_touchLabel
    ({ c with stats.acquisitions := c.stats.acquisitions + 1 } : PeerClaims) id id' label
  replace hbare : ∀ id', _ = (c.entry id').bare := hbare
  unfold PeerClaims.tryAcquire
  simp only
  have hparked : (({ c with stats.acquisitions := c.stats.acquisitions + 1 } :
    PeerClaims).touchLabel id label).parkedOn = c.parkedOn := rfl
  have hdrain : (({ c with stats.acquisitions := c.stats.acquisitions + 1 } :
    PeerClaims).touchLabel id label).drainWaiters = c.drainWaiters := rfl
  have hfreeLanes : (({ c with stats.acquisitions := c.stats.acquisitions + 1 } :
    PeerClaims).touchLabel id label).freeLanes = c.freeLanes := rfl
  -- but for the label and the count of acquisitions it is the old table
  generalize ({ c with stats.acquisitions := c.stats.acquisitions + 1 } :
    PeerClaims).touchLabel id label = d at hbare hparked hdrain hfreeLanes
  have howner := ObjectClaim.owner_of_bare (hbare id)
  have hres := ObjectClaim.reserved_of_bare (hbare id)
  have hlane := ObjectClaim.ownerLane_of_bare (hbare id)
  have hwaiters := ObjectClaim.waiters_of_bare (hbare id)
  have hset : ∀ o o' : ObjectClaim, o.bare = o'.bare → ∀ id',
      ((d.set id o).entry id').bare = if id' = id then o'.bare else (c.entry id').bare := by
    intro o o' ho id'
    rw [PeerClaims.entry_set]
    split_ifs
    · exact ho
    · exact hbare id'
  split
  · -- somebody owns it: the task itself, or another
    rename_i u epoch' hu
    rw [howner] at hu
    split_ifs with hsame hdeep
    · exact ⟨.tooDeep hbare, hparked, hdrain⟩
    · refine ⟨.reentrant epoch' (hsame ▸ hu) (hset _ _ ?_), hparked, hdrain⟩
      exact ObjectClaim.bare_ext howner
        (congrArg (· + 1) (ObjectClaim.depth_of_bare (hbare id))) hlane hwaiters hres
    · exact ⟨.blocked u epoch' hu hsame hbare, hparked, hdrain⟩
  · -- nobody does: it is reserved, or free, and then a lane is needed or not
    rename_i hfree
    rw [howner] at hfree
    rw [hres]
    have hown : ∀ lane, ((d.entry id).own t epoch lane).bare =
        ((c.entry id).own t epoch lane).bare := by
      intro lane
      exact ObjectClaim.bare_ext rfl rfl rfl hwaiters hres
    split_ifs with hreserved hnested
    · exact ⟨.behind hfree (Or.inl hreserved) hfreeLanes hbare, hparked, hdrain⟩
    · exact ⟨.granted none hfree (by simpa using hreserved) (hset _ _ (hown none)), hparked,
        hdrain⟩
    · split
      · rename_i lane lanes hlanes
        exact ⟨.granted (some lane) hfree (by simpa using hreserved)
          (hset _ _ (hown (some lane))), hparked, hdrain⟩
      · rename_i hlanes
        exact ⟨.behind hfree (Or.inr ⟨by simpa using hnested, hfreeLanes.symm.trans hlanes⟩)
          hfreeLanes hbare, hparked, hdrain⟩

/-! ## Queueing -/

/-- One entry written, as its fields say. -/
theorem entry_of_update {c c' : PeerClaims} {id : ObjectId} {o : ObjectClaim}
    (h : c'.objects = Function.update c.objects id (some o)) (id' : ObjectId) :
    c'.entry id' = if id' = id then o else c.entry id' := by
  rw [PeerClaims.entry, h]
  exact PeerClaims.entry_set c id id' o

theorem enqueue_objects (c : PeerClaims) (t : TaskId) (epoch : Epoch) (id : ObjectId)
    (label : String) (kind : WaitKind) (now : Nat) :
    ∃ o, (c.enqueue t epoch id label kind now).objects =
        Function.update (c.touchLabel id label).objects id (some o) ∧
      o.owner = (c.entry id).owner ∧ o.depth = (c.entry id).depth ∧
      o.waiters = (c.entry id).waiters ++ [{ task := t, epoch, kind, queuedAt := now }] := by
  have hbare := PeerClaims.bare_touchLabel
    ({ c with stats.contended := c.stats.contended + 1 } : PeerClaims) id id label
  replace hbare : _ = (c.entry id).bare := hbare
  rw [← ObjectClaim.owner_of_bare hbare, ← ObjectClaim.depth_of_bare hbare,
    ← ObjectClaim.waiters_of_bare hbare]
  unfold PeerClaims.enqueue
  simp only
  split_ifs
  · exact ⟨_, rfl, rfl, rfl, rfl⟩
  · exact ⟨_, rfl, rfl, rfl, rfl⟩

theorem enqueue_entry (c : PeerClaims) (t : TaskId) (epoch : Epoch) (id : ObjectId)
    (label : String) (kind : WaitKind) (now : Nat) (id' : ObjectId) :
    ((c.enqueue t epoch id label kind now).entry id').owner = (c.entry id').owner ∧
    ((c.enqueue t epoch id label kind now).entry id').depth = (c.entry id').depth ∧
    ((c.enqueue t epoch id label kind now).entry id').waiters =
      (c.entry id').waiters ++
        (if id' = id then [{ task := t, epoch, kind, queuedAt := now }] else []) := by
  obtain ⟨o, hobjects, howner, hdepth, hwaiters⟩ := enqueue_objects c t epoch id label kind now
  rw [entry_of_update hobjects]
  by_cases hid : id' = id
  · subst hid
    simp only [if_true]
    exact ⟨howner, hdepth, hwaiters⟩
  · have hbare := c.bare_touchLabel id id' label
    simp only [if_neg hid, List.append_nil]
    exact ⟨ObjectClaim.owner_of_bare hbare, ObjectClaim.depth_of_bare hbare,
      ObjectClaim.waiters_of_bare hbare⟩

theorem enqueue_fields (c : PeerClaims) (t : TaskId) (epoch : Epoch) (id : ObjectId)
    (label : String) (kind : WaitKind) (now : Nat) :
    (c.enqueue t epoch id label kind now).parkedOn =
      Function.update c.parkedOn t (some (id, epoch)) ∧
    (c.enqueue t epoch id label kind now).drainWaiters = c.drainWaiters := by
  unfold PeerClaims.enqueue
  simp only
  split_ifs <;> exact ⟨rfl, rfl⟩

theorem retract_entry (c : PeerClaims) (t : TaskId) (id id' : ObjectId)
    (hok : ObjectOk (c.entry id)) :
    ((c.retract t id).entry id').owner = (c.entry id').owner ∧
    ((c.retract t id).entry id').depth = (c.entry id').depth ∧
    ((c.retract t id).entry id').waiters =
      if id' = id then (c.entry id).waiters.filter fun w => w.task ≠ t
      else (c.entry id').waiters := by
  -- dropping an empty entry changes nothing that is read off it
  have hmid : ∀ d : PeerClaims, ObjectOk (d.entry id) →
      (d.entry id').owner = (c.entry id').owner ∧ (d.entry id').depth = (c.entry id').depth ∧
      (d.entry id').waiters = (if id' = id then (c.entry id).waiters.filter fun w => w.task ≠ t
        else (c.entry id').waiters) →
      ((d.gcObject id).entry id').owner = (c.entry id').owner ∧
      ((d.gcObject id).entry id').depth = (c.entry id').depth ∧
      ((d.gcObject id).entry id').waiters =
        if id' = id then (c.entry id).waiters.filter fun w => w.task ≠ t
        else (c.entry id').waiters := by
    intro d hd h
    have hbare := d.bare_gcObject id id' hd
    rw [ObjectClaim.owner_of_bare hbare, ObjectClaim.depth_of_bare hbare,
      ObjectClaim.waiters_of_bare hbare]
    exact h
  unfold PeerClaims.retract
  simp only
  cases hobj : c.objects id with
  | none =>
    have hentry : c.entry id = {} := c.entry_of_none id hobj
    rw [show (c.unpark t).objects id = none from hobj]
    refine hmid _ hok ⟨rfl, rfl, ?_⟩
    show (c.entry id').waiters = _
    by_cases hid : id' = id
    · rw [if_pos hid, hid, hentry]
      rfl
    · rw [if_neg hid]
  | some o =>
    have hentry : c.entry id = o := c.entry_of_some id hobj
    rw [show (c.unpark t).objects id = some o from hobj]
    -- its own waiters are taken out of the queue
    refine hmid _ ?_ ?_
    · rw [PeerClaims.entry_set_self]
      rw [hentry] at hok
      exact ⟨hok.unowned, hok.owned⟩
    · rw [PeerClaims.entry_set]
      by_cases hid : id' = id
      · rw [if_pos hid, if_pos hid, hid, hentry]
        exact ⟨rfl, rfl, rfl⟩
      · rw [if_neg hid, if_neg hid]
        exact ⟨rfl, rfl, rfl⟩

theorem retract_fields (c : PeerClaims) (t : TaskId) (id : ObjectId) :
    (c.retract t id).parkedOn = Function.update c.parkedOn t none ∧
    (c.retract t id).drainWaiters = c.drainWaiters := by
  unfold PeerClaims.retract
  simp only
  split
  · exact ⟨(PeerClaims.gcObject_fields _ id).2.2.2.1, (PeerClaims.gcObject_fields _ id).2.2.2.2⟩
  · exact ⟨(PeerClaims.gcObject_fields _ id).2.2.2.1, (PeerClaims.gcObject_fields _ id).2.2.2.2⟩

/-! ## The tasks follow -/

namespace Linked

variable {c c' : PeerClaims} {p : PeerId} {tasks : TaskId → Task} {t : TaskId} {id : ObjectId}
  {now : Nat}

theorem heldDepth_congr {o o' : ObjectClaim} (howner : o.owner = o'.owner)
    (hdepth : o.depth = o'.depth) (t : TaskId) : heldDepth o t = heldDepth o' t := by
  rw [heldDepth, heldDepth, howner, hdepth]

/-- A task that parks in `claim_peer_object` appears in the queue. -/
theorem enqueue (h : Linked c p tasks []) (label : String) (kind : WaitKind)
    (hpark : (tasks t).park = none) (hwake : (tasks t).wake = none) :
    Linked (c.enqueue t (tasks t).parkEpoch id label kind now) p
      (Function.update tasks t
        { tasks t with parkedOnChannel := true, park := some (.claim p id kind) }) [] := by
  obtain ⟨hnotIn, hoff⟩ := h.absent (t := t) (Or.inl fun id' kind' => by rw [hpark]; simp)
  -- the queue of `id` has got one waiter more, and nothing else has changed
  have hentry := enqueue_entry c t (tasks t).parkEpoch id label kind now
  obtain ⟨hparkedOn, -⟩ := enqueue_fields c t (tasks t).parkEpoch id label kind now
  have hsame : ∀ t', t' ≠ t → Function.update tasks t
      { tasks t with parkedOnChannel := true, park := some (.claim p id kind) } t' = tasks t' :=
    fun t' hne => Function.update_of_ne hne _ _
  have hself : Function.update tasks t
      { tasks t with parkedOnChannel := true, park := some (.claim p id kind) } t =
        { tasks t with parkedOnChannel := true, park := some (.claim p id kind) } :=
    Function.update_self _ _ _
  refine ⟨?_, ?_, ?_, ?_, ?_, fun t ht => absurd ht (by simp)⟩
  · intro id' t'
    rw [heldDepth_congr (hentry id').1 (hentry id').2.1, h.owns id' t', openCount, openCount]
    by_cases hne : t' = t
    · rw [hne, hself, hpark, hwake]
      simp
    · rw [hsame t' hne]
  · intro id' w hw
    rw [(hentry id').2.2, List.mem_append] at hw
    rcases hw with hw | hw
    · rw [hsame _ (hnotIn id' w hw)]
      exact h.waiting id' w hw
    · split_ifs at hw with hid
      · rw [List.mem_singleton.mp hw, hself, hid]
        exact ⟨rfl, hwake, by simp, rfl⟩
      · cases hw
  · intro id'
    rw [(hentry id').2.2, List.map_append]
    split_ifs
    · refine List.nodup_append.mpr ⟨h.nodup id', List.nodup_singleton _, ?_⟩
      intro x hx y hy hxy
      obtain ⟨w, hw, rfl⟩ := List.mem_map.mp hx
      exact hnotIn id' w hw (hxy.trans (List.mem_singleton.mp hy))
    · rw [List.map_nil, List.append_nil]
      exact h.nodup id'
  · intro t' id' e he
    rw [hparkedOn, Function.update_apply] at he
    split_ifs at he with hne
    · rw [hne, hself]
      injection he with he
      injection he with hid he
      exact ⟨⟨kind, by rw [hid]⟩, hwake, by simp, he.symm⟩
    · rw [hsame t' hne]
      exact h.parked t' id' e he
  · -- the new waiter stands in the queue, and the others still do
    intro t' id' kind' hkind ht _
    rw [hparkedOn, Function.update_apply]
    by_cases hne : t' = t
    · subst hne
      rw [hself] at hkind ⊢
      injection hkind with hkind
      injection hkind with _ hid
      subst hid
      rw [if_pos rfl]
      refine ⟨⟨{ task := t', epoch := (tasks t').parkEpoch, kind, queuedAt := now }, ?_, rfl⟩, rfl⟩
      rw [(hentry id).2.2, if_pos rfl]
      exact List.mem_append_right _ List.mem_cons_self
    · rw [hsame t' hne] at hkind ht ⊢
      obtain ⟨⟨w, hw, hwt⟩, hon⟩ := h.queued t' id' kind' hkind ht (by simp)
      rw [if_neg hne]
      refine ⟨⟨w, ?_, hwt⟩, hon⟩
      rw [(hentry id').2.2]
      exact List.mem_append_left _ hw

/-- A cancelled task withdraws: its entry and its edge go. -/
theorem retract {kind : WaitKind} {task : Task} (h : Linked c p tasks [])
    (hok : ObjectOk (c.entry id)) (hpark : (tasks t).park = some (.claim p id kind))
    (hwake : (tasks t).wake = none) (hcalls : task.calls = (tasks t).calls)
    (hpark' : task.park = none) :
    Linked (c.retract t id) p (Function.update tasks t task) [] := by
  have hentry := fun id' => retract_entry c t id id' hok
  obtain ⟨hparkedOn, -⟩ := retract_fields c t id
  have hsame : ∀ t', t' ≠ t → Function.update tasks t task t' = tasks t' :=
    fun t' hne => Function.update_of_ne hne _ _
  -- what is left in the queues was there, and is not `t`
  have hwaiters : ∀ id', ∀ w ∈ ((c.retract t id).entry id').waiters,
      w ∈ (c.entry id').waiters ∧ w.task ≠ t := by
    intro id' w hw
    rw [(hentry id').2.2] at hw
    split_ifs at hw with hid
    · obtain ⟨hin, hne⟩ := List.mem_filter.mp hw
      exact ⟨hid ▸ hin, by simpa using hne⟩
    · refine ⟨hw, fun heq => hid ?_⟩
      have hother := (h.waiting id' w hw).1
      rw [heq, hpark] at hother
      injection hother with hother
      injection hother with _ hsame
      exact hsame.symm
  refine ⟨?_, ?_, ?_, ?_, ?_, fun t ht => absurd ht (by simp)⟩
  · intro id' t'
    rw [heldDepth_congr (hentry id').1 (hentry id').2.1, h.owns id' t', openCount, openCount]
    by_cases hne : t' = t
    · rw [hne, Function.update_self, hcalls, hpark', hwake]
      simp
    · rw [hsame t' hne]
  · intro id' w hw
    obtain ⟨hin, hne⟩ := hwaiters id' w hw
    rw [hsame _ hne]
    exact h.waiting id' w hin
  · intro id'
    rw [(hentry id').2.2]
    split_ifs
    · exact (h.nodup id).sublist (List.filter_sublist.map _)
    · exact h.nodup id'
  · intro t' id' e he
    rw [hparkedOn, Function.update_apply] at he
    split_ifs at he with hne
    rw [hsame t' hne]
    exact h.parked t' id' e he
  · intro t' id' kind' hkind ht _
    have hne : t' ≠ t := by
      rintro rfl
      rw [Function.update_self, hpark'] at hkind
      cases hkind
    rw [hsame t' hne] at hkind ht ⊢
    obtain ⟨⟨w, hw, hwt⟩, hon⟩ := h.queued t' id' kind' hkind ht (by simp)
    refine ⟨⟨w, ?_, hwt⟩, ?_⟩
    · rw [(hentry id').2.2]
      split_ifs with hid
      · refine List.mem_filter.mpr ⟨hid ▸ hw, ?_⟩
        rw [hwt]
        simpa using hne
      · exact hw
    · rw [hparkedOn, Function.update_of_ne hne]
      exact hon

end Linked

/-! ## Releasing -/

/-- Ending this call is outermost and returns the only lane still out. -/
def LastLane (c : PeerClaims) (id : ObjectId) : Prop :=
  (c.entry id).depth ≤ 1 ∧ (c.entry id).ownerLane ≠ none ∧
    c.laneCount ≤ c.freeLanes.length + 1

instance (c : PeerClaims) (id : ObjectId) : Decidable (LastLane c id) :=
  inferInstanceAs (Decidable (_ ∧ _ ∧ _))

/-- The wakes of a release: tasks handed an object, and drain waiters, these only
when the last lane comes home. -/
structure Released (c c' : PeerClaims) (p : PeerId) (id : ObjectId) (tasks : TaskId → Task)
    (grants : List Grant) : Prop where
  table : TableOk c' none none
  split : ∃ handed drained, grants = handed ++ drained ∧
    Linked c' p tasks (handed.map Grant.task) ∧
    (∀ g ∈ drained, (g.task, g.epoch) ∈ c.drainWaiters ∧ LastLane c id)
  drainWaiters : ∀ w ∈ c'.drainWaiters, w ∈ c.drainWaiters

theorem promoteHead_fields (c : PeerClaims) (id : ObjectId) (live : Live) (now : Nat) :
    (c.promoteHead id live now).1.drainWaiters = c.drainWaiters ∧
      (c.promoteHead id live now).1.laneCount = c.laneCount ∧
      (c.promoteHead id live now).1.freeLanes.length ≤ c.freeLanes.length := by
  obtain ⟨lane, hs, hlanes, -⟩ := promoteHead_served c id live now
  refine ⟨hs.drainWaiters, hs.laneCount, ?_⟩
  rw [hlanes, List.length_append]
  exact Nat.le_add_left _ _

/-- A lane released: reserved heads are served, and drain waiters woken if every
lane is home. -/
theorem releaseLane_wakes {c : PeerClaims} {p : PeerId} {tasks : TaskId → Task} {live : Live}
    {pending : List TaskId} {l : Lane} (hok : TableOk c (some l) none)
    (hlink : Linked c p tasks pending) (hlive : ∀ t e, live t e = (tasks t).liveAt e)
    (now : Nat) :
    ∃ handed drained, (c.releaseLane l live now).2 = handed ++ drained ∧
      Linked (c.releaseLane l live now).1 p tasks (pending ++ handed.map Grant.task) ∧
      (∀ g ∈ drained, (g.task, g.epoch) ∈ c.drainWaiters ∧
        c.laneCount ≤ c.freeLanes.length + 1) ∧
      ∀ w ∈ (c.releaseLane l live now).1.drainWaiters, w ∈ c.drainWaiters := by
  obtain ⟨hdrain, hcount, hlen⟩ := hok.offerLane_fields rfl live now
  have hnext := hlink.offerLane hlive hok rfl now
  unfold PeerClaims.releaseLane
  simp only
  split_ifs with hhome
  · refine ⟨(PeerClaims.offerLane l live now c.readyHeads c).2, _, rfl,
      hnext.congr rfl fun _ => rfl, ?_, fun w hw => by cases hw⟩
    intro g hg
    obtain ⟨w, hw, rfl⟩ := List.mem_map.mp hg
    rw [hdrain] at hw
    refine ⟨hw, ?_⟩
    omega
  · refine ⟨_, [], (List.append_nil _).symm, hnext, fun g hg => (by cases hg), ?_⟩
    rw [hdrain]
    exact fun w hw => hw

/-- An outermost release hands the object on. -/
theorem handOn_wakes {c : PeerClaims} {p : PeerId} {tasks : TaskId → Task} {live : Live}
    {id : ObjectId} {lane : Option Lane} (hok : TableOk c lane (some id))
    (hlink : Linked c p tasks []) (hlive : ∀ t e, live t e = (tasks t).liveAt e)
    (hfree : (c.entry id).owner = none) (hres : (c.entry id).reserved = false) (now : Nat) :
    ∃ handed drained, (c.handOn id lane live now).2 = handed ++ drained ∧
      Linked (c.handOn id lane live now).1 p tasks (handed.map Grant.task) ∧
      (∀ g ∈ drained, (g.task, g.epoch) ∈ c.drainWaiters ∧ lane ≠ none ∧
        c.laneCount ≤ c.freeLanes.length + 1) ∧
      ∀ w ∈ (c.handOn id lane live now).1.drainWaiters, w ∈ c.drainWaiters := by
  obtain ⟨_, hs, -⟩ := promoteHead_served c id live now
  have hpromote := hok.promoteHead hfree hres live now
  have hserved := hlink.served hlive hs hfree
  rw [List.nil_append] at hserved
  obtain ⟨hdrain, hcount, hlen⟩ := promoteHead_fields c id live now
  have hgc : ∀ (d : PeerClaims) (pending : List TaskId), TableOk d none none →
      Linked d p tasks pending → Linked (d.gcObject id) p tasks pending := fun d _ hd hl =>
    hl.congr (d.gcObject_fields id).2.2.2.1 fun id' => d.bare_gcObject id id' (hd.object id)
  unfold PeerClaims.handOn
  cases lane with
  | none =>
    refine ⟨_, [], rfl, hgc _ _ hpromote hserved, fun g hg => (by cases hg), ?_⟩
    rw [(PeerClaims.gcObject_fields _ id).2.2.2.2]
    exact fun w hw => hdrain ▸ hw
  | some l =>
    obtain ⟨handed, drained, hgrants, hreleased, hdrained, hrest⟩ :=
      releaseLane_wakes hpromote hserved hlive now
    refine ⟨(c.promoteHead id live now).2 ++ handed, drained, ?_, ?_, ?_, ?_⟩
    · simp only [hgrants, List.append_assoc]
    · rw [List.map_append]
      exact hgc _ _ (hpromote.releaseLane live now) hreleased
    · intro g hg
      obtain ⟨hin, hhome⟩ := hdrained g hg
      rw [hdrain] at hin
      refine ⟨hin, by simp, ?_⟩
      omega
    · simp only
      rw [(PeerClaims.gcObject_fields _ id).2.2.2.2]
      exact fun w hw => hdrain ▸ hrest w hw

/-- Ending a call of task `t` on an object it owns, `t` having one call less open. -/
theorem endCall_released {c : PeerClaims} {p : PeerId} {tasks : TaskId → Task} {t : TaskId}
    {task : Task} {id : ObjectId} {live : Live} (hok : TableOk c none none)
    (hlink : Linked c p tasks []) (howner : ∃ e, (c.entry id).owner = some (t, e))
    (hout : (∀ id kind, (tasks t).park ≠ some (.claim p id kind)) ∨ (tasks t).wake ≠ none)
    (hcount : ∀ id', openCount (Function.update tasks t task) [] p id' t +
      (if id' = id then 1 else 0) = openCount tasks [] p id' t)
    (hpark : task.park = none)
    (hlive : ∀ u e, live u e = (Function.update tasks t task u).liveAt e) (now : Nat) :
    Released c (c.endCall id live now).1 p id (Function.update tasks t task)
      (c.endCall id live now).2 := by
  obtain ⟨e, howner⟩ := howner
  obtain ⟨o, hobj⟩ : ∃ o, c.objects id = some o := by
    cases hobj : c.objects id with
    | none =>
      rw [c.entry_of_none id hobj] at howner
      cases howner
    | some o => exact ⟨o, rfl⟩
  have hentry : c.entry id = o := c.entry_of_some id hobj
  have htable := hok.endCall id (fun o' ho' => by
    rw [← c.entry_of_some id ho', howner]
    rfl) live now
  have hless : openCount (Function.update tasks t task) [] p id t + 1 = o.depth := by
    have hheld := hlink.owns id t
    have hcount' := hcount id
    rw [heldDepth, howner, Option.map_some, if_pos rfl, hentry] at hheld
    rw [if_pos rfl] at hcount'
    omega
  rw [hentry] at howner
  have hothers : ∀ t', t' ≠ t → heldDepth o t' = 0 := by
    intro t' hne
    rw [heldDepth, howner, Option.map_some, if_neg]
    exact fun heq => hne (Option.some.inj heq).symm
  -- writing `o'` at `id`, with `t` one call less deep in it
  have hact : ∀ o' : ObjectClaim, o'.waiters = o.waiters →
      heldDepth o' t = openCount (Function.update tasks t task) [] p id t →
      (∀ t', t' ≠ t → heldDepth o' t' = 0) →
      Linked (c.set id o') p (Function.update tasks t task) [] := by
    intro o' hwaiters hself hzero
    refine hlink.act ?_ rfl ?_ ?_ hout fun id' kind => by rw [hpark]; simp
    · intro id'
      rw [PeerClaims.entry_set]
      split_ifs with hid
      · rw [hwaiters, hid, hentry]
      · rfl
    · intro id' t' hne
      rw [PeerClaims.entry_set]
      split_ifs with hid
      · rw [hid, hentry, hothers t' hne, hzero t' hne]
      · rfl
    · intro id'
      rw [PeerClaims.entry_set]
      split_ifs with hid
      · rw [hid]
        exact hself
      · rw [hlink.owns id' t, ← hcount id', if_neg hid, Nat.add_zero]
  suffices hwakes : (∃ handed drained, (c.endCall id live now).2 = handed ++ drained ∧
      Linked (c.endCall id live now).1 p (Function.update tasks t task)
        (handed.map Grant.task) ∧
      (∀ g ∈ drained, (g.task, g.epoch) ∈ c.drainWaiters ∧ LastLane c id)) ∧
      ∀ w ∈ (c.endCall id live now).1.drainWaiters, w ∈ c.drainWaiters from
    ⟨htable, hwakes.1, hwakes.2⟩
  by_cases hdepth : o.depth - 1 > 0
  · -- an inner release: one call less deep, nobody woken
    have hstep : c.endCall id live now = (c.set id { o with depth := o.depth - 1 }, []) := by
      simp only [PeerClaims.endCall, hobj, if_pos hdepth]
    rw [hstep]
    refine ⟨⟨[], [], rfl, hact _ rfl ?_ ?_, fun g hg => (by cases hg)⟩, fun w hw => hw⟩
    · rw [heldDepth]
      simp only [howner, Option.map_some, if_true]
      omega
    · intro t' hne
      have hzero := hothers t' hne
      rw [heldDepth] at hzero ⊢
      simp only [howner, Option.map_some, Option.some.injEq, Ne.symm hne, if_false]
  · have hstep : c.endCall id live now =
        (c.set id { o with depth := o.depth - 1, owner := none, ownerLane := none }).handOn
          id o.ownerLane live now := by
      simp only [PeerClaims.endCall, hobj, if_neg hdepth]
    have hdrop := hok.drop id
    rw [hentry, show (0 : Nat) = o.depth - 1 by omega] at hdrop
    have hlinked := hact { o with depth := o.depth - 1, owner := none, ownerLane := none } rfl
      (by rw [heldDepth_of_unowned rfl]; omega) fun t' _ => heldDepth_of_unowned rfl t'
    have hres : o.reserved = false := by
      have hobjOk := hok.object id
      rw [hentry] at hobjOk
      exact (hobjOk.owned (by rw [howner]; rfl)).2
    obtain ⟨handed, drained, hgrants, hreleased, hdrained, hrest⟩ :=
      handOn_wakes hdrop hlinked hlive (by rw [PeerClaims.entry_set_self])
        (by rw [PeerClaims.entry_set_self]; exact hres) now
    rw [hstep]
    refine ⟨⟨handed, drained, hgrants, hreleased, ?_⟩, hrest⟩
    intro g hg
    obtain ⟨hin, hlane, hhome⟩ := hdrained g hg
    refine ⟨hin, ?_, by rw [hentry]; exact hlane, hhome⟩
    rw [hentry]
    omega

end Quoin.Claims
