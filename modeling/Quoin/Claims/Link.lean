import Mathlib
import Quoin.Claims.System
import Quoin.Claims.TableOk

/-!
# Quoin — a claim table and its tasks agree

`Linked c p tasks pending` ties the table `c` of peer `p` to the tasks around
it: an object is owned by the task whose open calls it counts, the queues hold
exactly tasks suspended in `claim_peer_object` for that object, and the
waits-for index points back at the same parks.

A release decides its grants first and delivers the wakes afterwards;
`pending` are the tasks granted and not yet woken, and each hand-over of
`Claims/TableOk.lean` is one step that moves a task from a queue to `pending`.
-/

namespace Quoin.Claims

/-- The park is in `claim_peer_object`, for this object. -/
def Park.wants (p : PeerId) (id : ObjectId) : Option Park → Bool
  | some (.claim p' id' _) => p' == p && id' == id
  | _ => false

/-- The calls on an object a task has open: those it knows of, and a claim it
was handed and has not resumed with. -/
def openCount (tasks : TaskId → Task) (pending : List TaskId) (p : PeerId) (id : ObjectId)
    (t : TaskId) : Nat :=
  (tasks t).calls.count (p, id) +
    if Park.wants p id (tasks t).park && ((tasks t).wake.isSome || decide (t ∈ pending)) then 1
    else 0

/-- How deep a task holds an object. -/
def heldDepth (o : ObjectClaim) (t : TaskId) : Nat :=
  if o.owner.map Prod.fst = some t then o.depth else 0

structure Linked (c : PeerClaims) (p : PeerId) (tasks : TaskId → Task)
    (pending : List TaskId) : Prop where
  owns : ∀ id t, heldDepth (c.entry id) t = openCount tasks pending p id t
  waiting : ∀ id, ∀ w ∈ (c.entry id).waiters,
    (tasks w.task).park = some (.claim p id w.kind) ∧ (tasks w.task).wake = none ∧
      w.task ∉ pending ∧ w.epoch = (tasks w.task).parkEpoch
  nodup : ∀ id, ((c.entry id).waiters.map Waiter.task).Nodup
  parked : ∀ t id e, c.parkedOn t = some (id, e) →
    (∃ kind, (tasks t).park = some (.claim p id kind)) ∧ (tasks t).wake = none ∧
      t ∉ pending ∧ e = (tasks t).parkEpoch
  queued : ∀ t id kind, (tasks t).park = some (.claim p id kind) →
    (tasks t).liveAt (tasks t).parkEpoch = true → t ∉ pending →
      (∃ w ∈ (c.entry id).waiters, w.task = t) ∧ c.parkedOn t = some (id, (tasks t).parkEpoch)
  granted : ∀ t ∈ pending, ∃ id kind, (tasks t).park = some (.claim p id kind)

@[simp] theorem wants_claim (p p' : PeerId) (id id' : ObjectId) (kind : WaitKind) :
    Park.wants p id (some (.claim p' id' kind)) = (p' == p && id' == id) := rfl

@[simp] theorem wants_none (p : PeerId) (id : ObjectId) : Park.wants p id none = false := rfl

@[simp] theorem wants_drain (p p' : PeerId) (id : ObjectId) :
    Park.wants p id (some (.drain p')) = false := rfl

theorem heldDepth_of_unowned {o : ObjectClaim} (h : o.owner = none) (t : TaskId) :
    heldDepth o t = 0 := by
  rw [heldDepth, h]
  rfl

theorem heldDepth_of_bare {o o' : ObjectClaim} (h : o.bare = o'.bare) (t : TaskId) :
    heldDepth o t = heldDepth o' t := by
  rw [heldDepth, heldDepth, ObjectClaim.owner_of_bare h, ObjectClaim.depth_of_bare h]

namespace Linked

variable {c c' : PeerClaims} {p : PeerId} {tasks tasks' : TaskId → Task}
  {pending : List TaskId} {id : ObjectId} {live : Live}

/-- Neither labels, lanes nor counters matter. -/
theorem congr (h : Linked c p tasks pending) (hparked : c'.parkedOn = c.parkedOn)
    (hbare : ∀ id, (c'.entry id).bare = (c.entry id).bare) : Linked c' p tasks pending := by
  have hwaiters := fun id => ObjectClaim.waiters_of_bare (hbare id)
  refine ⟨?_, ?_, ?_, ?_, ?_, h.granted⟩
  · intro id t
    rw [heldDepth_of_bare (hbare id)]
    exact h.owns id t
  · intro id
    rw [hwaiters]
    exact h.waiting id
  · intro id
    rw [hwaiters]
    exact h.nodup id
  · rw [hparked]
    exact h.parked
  · intro t id kind hpark hlive hpending
    rw [hwaiters, hparked]
    exact h.queued t id kind hpark hlive hpending

/-- A live queue entry belongs to a live task. -/
theorem live_of_mem (h : Linked c p tasks pending)
    (hlive : ∀ t e, live t e = (tasks t).liveAt e) {w : Waiter}
    (hw : w ∈ (c.entry id).waiters) :
    live w.task w.epoch = (tasks w.task).liveAt (tasks w.task).parkEpoch := by
  obtain ⟨-, -, -, hepoch⟩ := h.waiting id w hw
  rw [hlive, hepoch]

/-- Skipping ghosts: the queue of `id` loses a dead prefix. -/
theorem pop {ghosts rest : List Waiter} {o' : ObjectClaim} (h : Linked c p tasks pending)
    (hlive : ∀ t e, live t e = (tasks t).liveAt e)
    (hqueue : (c.entry id).waiters = ghosts ++ rest)
    (hdead : ∀ w ∈ ghosts, live w.task w.epoch = false) (hpop : Popped c c' id ghosts o')
    (howner : o'.owner = (c.entry id).owner) (hdepth : o'.depth = (c.entry id).depth)
    (hrest : o'.waiters = rest) : Linked c' p tasks pending := by
  have hwaiters : ∀ id', ∀ w ∈ (c'.entry id').waiters, w ∈ (c.entry id').waiters := by
    intro id' w hw
    rw [hpop.entry] at hw
    split_ifs at hw with hid
    · rw [hrest] at hw
      rw [hid, hqueue]
      exact List.mem_append_right _ hw
    · exact hw
  have hparked : ∀ t x, c'.parkedOn t = some x → c.parkedOn t = some x := by
    intro t x hx
    rw [hpop.parkedOn] at hx
    split_ifs at hx with hmem
    exact hx
  -- a live task is not among the ghosts
  have hnotGhost : ∀ t, (tasks t).liveAt (tasks t).parkEpoch = true →
      t ∉ ghosts.map Waiter.task := by
    intro t ht hmem
    obtain ⟨w, hw, rfl⟩ := List.mem_map.mp hmem
    have hin : w ∈ (c.entry id).waiters := by
      rw [hqueue]
      exact List.mem_append_left _ hw
    rw [← h.live_of_mem hlive hin, hdead w hw] at ht
    cases ht
  refine ⟨?_, fun id' w hw => h.waiting id' w (hwaiters id' w hw), ?_,
    fun t id' e he => h.parked t id' e (hparked t _ he), ?_, h.granted⟩
  · intro id' t
    rw [← h.owns id' t, hpop.entry]
    split_ifs with hid
    · rw [hid, heldDepth, heldDepth, howner, hdepth]
    · rfl
  · intro id'
    rw [hpop.entry]
    split_ifs with hid
    · have hnodup := h.nodup id
      rw [hqueue, List.map_append] at hnodup
      rw [hrest]
      exact (List.nodup_append.mp hnodup).2.1
    · exact h.nodup id'
  · intro t id' kind hpark ht hpending
    obtain ⟨⟨w, hw, hwt⟩, hon⟩ := h.queued t id' kind hpark ht hpending
    refine ⟨⟨w, ?_, hwt⟩, ?_⟩
    · rw [hpop.entry]
      split_ifs with hid
      · rw [hid, hqueue] at hw
        rw [hrest]
        refine (List.mem_append.mp hw).resolve_left fun hghost => hnotGhost t ht ?_
        exact List.mem_map.mpr ⟨w, hghost, hwt⟩
      · exact hw
    · rw [hpop.parkedOn, if_neg (hnotGhost t ht)]
      exact hon

/-- The head waiter takes the free object: from the queue to `pending`. -/
theorem hand {w : Waiter} {rest : List Waiter} {o' : ObjectClaim} (h : Linked c p tasks pending)
    (hqueue : (c.entry id).waiters = w :: rest) (hfree : (c.entry id).owner = none)
    (hpop : Popped c c' id [w] o') (howner : o'.owner = some (w.task, w.epoch))
    (hdepth : o'.depth = 1) (hrest : o'.waiters = rest) :
    Linked c' p tasks (pending ++ [w.task]) := by
  have hmem : w ∈ (c.entry id).waiters := by
    rw [hqueue]
    exact List.mem_cons_self
  obtain ⟨hpark, hwake, hpending, -⟩ := h.waiting id w hmem
  have hnodup := h.nodup id
  rw [hqueue, List.map_cons, List.nodup_cons] at hnodup
  -- the queues of `c'` are those of `c` without `w`
  have hwaiters : ∀ id', ∀ x ∈ (c'.entry id').waiters,
      x ∈ (c.entry id').waiters ∧ x.task ≠ w.task := by
    intro id' x hx
    rw [hpop.entry] at hx
    split_ifs at hx with hid
    · rw [hrest] at hx
      refine ⟨?_, fun heq => hnodup.1 (heq ▸ List.mem_map.mpr ⟨x, hx, rfl⟩)⟩
      rw [hid, hqueue]
      exact List.mem_cons_of_mem _ hx
    · refine ⟨hx, fun heq => hid ?_⟩
      have hother := (h.waiting id' x hx).1
      rw [heq, hpark] at hother
      injection hother with hother
      injection hother with _ hsame
      exact hsame.symm
  have hpending' : ∀ t, t ∉ pending → t ≠ w.task → t ∉ pending ++ [w.task] := by
    intro t ht hne hin
    rcases List.mem_append.mp hin with hin | hin
    · exact ht hin
    · exact hne (List.mem_singleton.mp hin)
  have hparked : ∀ t, c'.parkedOn t = if t = w.task then none else c.parkedOn t := by
    intro t
    rw [hpop.parkedOn]
    simp
  refine ⟨?_, ?_, ?_, ?_, ?_, ?_⟩
  · intro id' t
    have hold := h.owns id' t
    rw [hpop.entry]
    by_cases hid : id' = id
    · subst hid
      rw [if_pos rfl]
      rw [heldDepth_of_unowned hfree] at hold
      rw [heldDepth, howner, hdepth]
      by_cases ht : t = w.task
      · subst ht
        rw [openCount, hpark, hwake] at hold ⊢
        simp only [wants_claim, hpending] at hold ⊢
        simp at hold ⊢
        omega
      · have hne : ¬ some w.task = some t := fun heq => ht (Option.some.inj heq).symm
        rw [Option.map_some, if_neg hne, hold, openCount, openCount]
        simp [ht]
    · rw [if_neg hid, hold, openCount, openCount]
      by_cases ht : t = w.task
      · subst ht
        have hne : ¬ id = id' := fun heq => hid heq.symm
        simp [hpark, hne]
      · simp [ht]
  · intro id' x hx
    obtain ⟨hin, hne⟩ := hwaiters id' x hx
    obtain ⟨hx1, hx2, hx3, hx4⟩ := h.waiting id' x hin
    exact ⟨hx1, hx2, hpending' _ hx3 hne, hx4⟩
  · intro id'
    rw [hpop.entry]
    split_ifs with hid
    · rw [hrest]
      exact hnodup.2
    · exact h.nodup id'
  · intro t id' e he
    rw [hparked] at he
    split_ifs at he with ht
    obtain ⟨h1, h2, h3, h4⟩ := h.parked t id' e he
    exact ⟨h1, h2, hpending' t h3 ht, h4⟩
  · intro t id' kind hpark' ht hnot
    rw [List.mem_append, List.mem_singleton, not_or] at hnot
    obtain ⟨⟨x, hx, hxt⟩, hon⟩ := h.queued t id' kind hpark' ht hnot.1
    refine ⟨⟨x, ?_, hxt⟩, ?_⟩
    · rw [hpop.entry]
      split_ifs with hid
      · rw [hid, hqueue] at hx
        rw [hrest]
        refine (List.mem_cons.mp hx).resolve_left fun heq => hnot.2 ?_
        rw [← hxt, heq]
      · exact hx
    · rw [hparked, if_neg hnot.2]
      exact hon
  · intro t ht
    rcases List.mem_append.mp ht with ht | ht
    · exact h.granted t ht
    · rw [List.mem_singleton.mp ht]
      exact ⟨id, w.kind, hpark⟩

/-- A hand-over moves the granted task from the queue to `pending`. -/
theorem served {gs : List Grant} {lane : Option Lane} (h : Linked c p tasks pending)
    (hlive : ∀ t e, live t e = (tasks t).liveAt e) (hs : Served live c id c' gs lane)
    (hfree : (c.entry id).owner = none) :
    Linked c' p tasks (pending ++ gs.map Grant.task) := by
  cases hs with
  | nobody hdead hpop =>
    rw [List.map_nil, List.append_nil]
    exact h.pop hlive (List.append_nil _).symm hdead hpop rfl rfl rfl
  | kept ghosts w rest hqueue hdead _ _ hpop =>
    rw [List.map_nil, List.append_nil]
    exact h.pop hlive hqueue hdead hpop rfl rfl rfl
  | handed ghosts w rest lane hqueue hdead _ _ hpop =>
    -- first the ghosts go, then the head takes the object
    have hghosts := popped_set (c := c) id { c.entry id with waiters := w :: rest } ghosts
    have hmid := h.pop hlive hqueue hdead hghosts rfl rfl rfl
    have hentry : ((c.dropGhosts ghosts).set id
        { c.entry id with waiters := w :: rest }).entry id
          = { c.entry id with waiters := w :: rest } := PeerClaims.entry_set_self _ _ _
    have hhead : Popped ((c.dropGhosts ghosts).set id { c.entry id with waiters := w :: rest }) c'
        id [w] { (c.entry id).own w.task w.epoch lane with waiters := rest, reserved := false } := by
      refine ⟨?_, ?_, ?_, ?_⟩
      · intro id'
        rw [hpop.entry, hghosts.entry]
        split_ifs <;> rfl
      · intro t
        rw [hpop.parkedOn, hghosts.parkedOn, List.map_append]
        simp only [List.mem_append, List.map_cons, List.map_nil, List.mem_singleton]
        split_ifs <;> first | rfl | simp_all
      · rw [hpop.drainWaiters, hghosts.drainWaiters]
      · rw [hpop.laneCount, hghosts.laneCount]
    refine hmid.hand ?_ ?_ hhead rfl rfl rfl
    · rw [hentry]
    · rw [hentry]
      exact hfree

theorem offerLane {l : Lane} {heads : List ObjectId} (h : Linked c p tasks pending)
    (hlive : ∀ t e, live t e = (tasks t).liveAt e) (hok : TableOk c (some l) none)
    (hheads : c.readyHeads = heads) (now : Nat) :
    Linked (PeerClaims.offerLane l live now heads c).1 p tasks
      (pending ++ (PeerClaims.offerLane l live now heads c).2.map Grant.task) := by
  induction heads generalizing c pending with
  | nil =>
    rw [show (PeerClaims.offerLane l live now [] c).2 = [] from rfl, List.map_nil,
      List.append_nil]
    exact h.congr rfl fun _ => rfl
  | cons id heads ih =>
    obtain ⟨hok', hheads'⟩ := hok.serveHead hheads live now
    have hready := hok.ready
    rw [hheads] at hready
    have hres : (c.entry id).reserved = true := (hready.mem id).mp List.mem_cons_self
    obtain ⟨lane, hserved, -⟩ :=
      serveHead_served { c with readyHeads := heads } id l live now hres
    have hnext := h.served hlive hserved.of_readyHeads (hok.unowned_of_reserved hres)
    rw [PeerClaims.offerLane]
    cases htaken : ({ c with readyHeads := heads }.serveHead id l live now).2.2 with
    | true =>
      simp only [htaken, if_true]
      exact hnext
    | false =>
      rw [htaken] at hok'
      simp only [htaken, Bool.false_eq_true, if_false, List.map_append]
      rw [← List.append_assoc]
      exact ih hnext hok' hheads'

/-- The tasks changed where this table does not look, or by waking `pending`. -/
theorem retask (h : Linked c p tasks pending)
    (hcalls : ∀ t id, (tasks' t).calls.count (p, id) = (tasks t).calls.count (p, id))
    (hpark : ∀ t id kind, (tasks' t).park = some (.claim p id kind) ↔
      (tasks t).park = some (.claim p id kind))
    (hepoch : ∀ t id kind, (tasks t).park = some (.claim p id kind) →
      (tasks' t).parkEpoch = (tasks t).parkEpoch)
    (hwake : ∀ t id kind, (tasks t).park = some (.claim p id kind) →
      (tasks' t).wake.isSome = ((tasks t).wake.isSome || decide (t ∈ pending)))
    (hlive : ∀ t id kind, (tasks t).park = some (.claim p id kind) →
      (tasks' t).liveAt (tasks' t).parkEpoch = true →
      (tasks t).liveAt (tasks t).parkEpoch = true ∧ t ∉ pending) : Linked c p tasks' [] := by
  -- parked for the same objects as before
  have hwants : ∀ t id, Park.wants p id (tasks' t).park = true ↔
      ∃ kind, (tasks t).park = some (.claim p id kind) := by
    intro t id
    constructor
    · intro hw
      cases hpark' : (tasks' t).park with
      | none =>
        rw [hpark'] at hw
        cases hw
      | some park =>
        rw [hpark'] at hw
        cases park with
        | drain _ => cases hw
        | claim p' id' kind =>
          simp only [wants_claim, Bool.and_eq_true, beq_iff_eq] at hw
          obtain ⟨rfl, rfl⟩ := hw
          exact ⟨kind, (hpark t id' kind).mp hpark'⟩
    · rintro ⟨kind, hkind⟩
      rw [(hpark t id kind).mpr hkind]
      simp
  have hnone : ∀ t id kind, (tasks t).park = some (.claim p id kind) → (tasks t).wake = none →
      t ∉ pending → (tasks' t).wake = none := by
    intro t id kind hkind hw ht
    have := hwake t id kind hkind
    rw [hw] at this
    simpa [ht] using this
  refine ⟨?_, ?_, h.nodup, ?_, ?_, fun t ht => absurd ht (by simp)⟩
  · -- an owner has as many calls open, counting the one it is woken for
    intro id t
    rw [h.owns id t, openCount, openCount, hcalls]
    congr 1
    by_cases hkind : ∃ kind, (tasks t).park = some (.claim p id kind)
    · rw [(hwants t id).mpr hkind]
      obtain ⟨kind, hkind⟩ := hkind
      rw [hwake t id kind hkind, hkind]
      simp
    · have hw' : Park.wants p id (tasks' t).park = false :=
        Bool.eq_false_iff.mpr fun hw => hkind ((hwants t id).mp hw)
      have hw : Park.wants p id (tasks t).park = false := by
        cases hpark' : (tasks t).park with
        | none => rfl
        | some park =>
          cases park with
          | drain _ => rfl
          | claim p' id' kind =>
            rw [wants_claim, Bool.and_eq_false_iff]
            by_contra hboth
            simp only [not_or, Bool.not_eq_false, beq_iff_eq] at hboth
            obtain ⟨rfl, rfl⟩ := hboth
            exact hkind ⟨kind, hpark'⟩
      rw [hw, hw']
      rfl
  · intro id w hw
    obtain ⟨hkind, hnowake, hpending, he⟩ := h.waiting id w hw
    exact ⟨(hpark _ _ _).mpr hkind, hnone _ _ _ hkind hnowake hpending, by simp,
      he.trans (hepoch _ _ _ hkind).symm⟩
  · intro t id e he
    obtain ⟨⟨kind, hkind⟩, hnowake, hpending, heq⟩ := h.parked t id e he
    exact ⟨⟨kind, (hpark _ _ _).mpr hkind⟩, hnone _ _ _ hkind hnowake hpending, by simp,
      heq.trans (hepoch _ _ _ hkind).symm⟩
  · intro t id kind hkind' ht _
    have hkind := (hpark t id kind).mp hkind'
    obtain ⟨hlive', hpending⟩ := hlive t id kind hkind ht
    rw [hepoch t id kind hkind]
    exact h.queued t id kind hkind hlive' hpending

/-- A task that is not waiting for an object of this peer is in none of its queues. -/
theorem absent (h : Linked c p tasks pending) {t : TaskId}
    (hout : (∀ id kind, (tasks t).park ≠ some (.claim p id kind)) ∨ (tasks t).wake ≠ none) :
    (∀ id, ∀ w ∈ (c.entry id).waiters, w.task ≠ t) ∧ c.parkedOn t = none := by
  constructor
  · rintro id w hw rfl
    obtain ⟨hkind, hwake, -⟩ := h.waiting id w hw
    rcases hout with hout | hout
    · exact hout id w.kind hkind
    · exact hout hwake
  · cases hon : c.parkedOn t with
    | none => rfl
    | some entry =>
      obtain ⟨⟨kind, hkind⟩, hwake, -⟩ := h.parked t entry.1 entry.2 hon
      rcases hout with hout | hout
      · exact absurd hkind (hout _ kind)
      · exact absurd hwake hout

/-- A task outside the queues acts: it changes, and the table with it, in what it
owns and nothing else. -/
theorem act {t : TaskId} {task : Task} (h : Linked c p tasks [])
    (hwaiters : ∀ id, (c'.entry id).waiters = (c.entry id).waiters)
    (hparkedOn : c'.parkedOn = c.parkedOn)
    (hothers : ∀ id t', t' ≠ t → heldDepth (c'.entry id) t' = heldDepth (c.entry id) t')
    (hown : ∀ id, heldDepth (c'.entry id) t =
      openCount (Function.update tasks t task) [] p id t)
    (hout : (∀ id kind, (tasks t).park ≠ some (.claim p id kind)) ∨ (tasks t).wake ≠ none)
    (hpark : ∀ id kind, task.park ≠ some (.claim p id kind)) :
    Linked c' p (Function.update tasks t task) [] := by
  -- who acts is not parked in a line, so that no line mentions the task
  obtain ⟨hnotIn, hoff⟩ := h.absent hout
  have hsame : ∀ t', t' ≠ t → Function.update tasks t task t' = tasks t' :=
    fun t' hne => Function.update_of_ne hne _ _
  refine ⟨?_, ?_, ?_, ?_, ?_, fun t ht => absurd ht (by simp)⟩
  · -- the depths: those of other tasks are what they were
    intro id t'
    by_cases hne : t' = t
    · rw [hne]
      exact hown id
    · rw [hothers id t' hne, h.owns id t', openCount, openCount, hsame t' hne]
  · -- who waits was not `t`
    intro id w hw
    rw [hwaiters] at hw
    rw [hsame _ (hnotIn id w hw)]
    exact h.waiting id w hw
  · intro id
    rw [hwaiters]
    exact h.nodup id
  · intro t' id e he
    rw [hparkedOn] at he
    have hne : t' ≠ t := by
      rintro rfl
      rw [hoff] at he
      cases he
    rw [hsame t' hne]
    exact h.parked t' id e he
  · intro t' id kind hkind ht hpending
    have hne : t' ≠ t := by
      rintro rfl
      rw [Function.update_self] at hkind
      exact hpark id kind hkind
    rw [hsame t' hne] at hkind ht ⊢
    rw [hwaiters, hparkedOn]
    exact h.queued t' id kind hkind ht hpending

end Linked

end Quoin.Claims
