import Quoin.Claims.Effects

/-!
# Quoin — who owns what after a release

A release changes the owner of an object only by handing it to a task it also
wakes, apart from the released object itself, which may end up with no owner:
nobody waits for it, or its first live waiter needs a lane and there is none.
`FindsTaker` says, before the release, that this second case does not arise.
-/

namespace Quoin.Claims

/-- The first waiter of an object that still waits. -/
def firstLive (live : Live) (o : ObjectClaim) : Option Waiter :=
  o.waiters.find? fun w => live w.task w.epoch

theorem firstLive_of_queue {live : Live} {o : ObjectClaim} {ghosts rest : List Waiter} {w : Waiter}
    (hqueue : o.waiters = ghosts ++ w :: rest)
    (hdead : ∀ w ∈ ghosts, live w.task w.epoch = false) (hlive : live w.task w.epoch = true) :
    firstLive live o = some w := by
  have hghosts : ghosts.find? (fun w => live w.task w.epoch) = none := by
    rw [List.find?_eq_none]
    intro x hx
    rw [hdead x hx]
    simp
  rw [firstLive, hqueue, List.find?_append, hghosts, Option.none_or, List.find?_cons, hlive]

theorem firstLive_eq_none {live : Live} {o : ObjectClaim}
    (hdead : ∀ w ∈ o.waiters, live w.task w.epoch = false) : firstLive live o = none := by
  rw [firstLive, List.find?_eq_none]
  intro x hx
  rw [hdead x hx]
  simp

theorem firstLive_congr {live live' : Live} {o : ObjectClaim}
    (h : ∀ w ∈ o.waiters, live w.task w.epoch = live' w.task w.epoch) :
    firstLive live o = firstLive live' o := by
  unfold firstLive
  revert h
  induction o.waiters with
  | nil => exact fun _ => rfl
  | cons w rest ih =>
    intro h
    rw [List.find?_cons, List.find?_cons, h w List.mem_cons_self,
      ih fun x hx => h x (List.mem_cons_of_mem w hx)]

/-! ## What a chain of hand-overs does -/

/-- A description of tables before and after, with the wakes, that holds of one
hand-over and of one after another. -/
structure ServeRule (live : Live) (R : PeerClaims → PeerClaims → List Grant → Prop) : Prop where
  keep : ∀ {c c'}, (∀ id, (c'.entry id).bare = (c.entry id).bare) → R c c' []
  served : ∀ {c id c' gs lane}, (c.entry id).owner = none → Served live c id c' gs lane → R c c' gs
  trans : ∀ {c c' c'' gs gs'}, R c c' gs → R c' c'' gs' → R c c'' (gs ++ gs')
  /-- Drain waiters are woken besides. -/
  more : ∀ {c c' gs} (gs' : List Grant), R c c' gs → R c c' (gs ++ gs')

namespace ServeRule

variable {live : Live} {R : PeerClaims → PeerClaims → List Grant → Prop} {c : PeerClaims}
  {id : ObjectId} {lane : Option Lane}

theorem offerLane (hR : ServeRule live R) {l : Lane} {heads : List ObjectId}
    (h : TableOk c (some l) none) (hheads : c.readyHeads = heads) (now : Nat) :
    R c (PeerClaims.offerLane l live now heads c).1
      (PeerClaims.offerLane l live now heads c).2 := by
  induction heads generalizing c with
  | nil => exact hR.keep fun _ => rfl
  | cons id heads ih =>
    obtain ⟨hok, hheads'⟩ := h.serveHead hheads live now
    have hready := h.ready
    rw [hheads] at hready
    have hres : (c.entry id).reserved = true := (hready.mem id).mp List.mem_cons_self
    obtain ⟨lane, hserved, -⟩ := serveHead_served { c with readyHeads := heads } id l live now hres
    have hstep := hR.served (h.unowned_of_reserved hres) hserved.of_readyHeads
    rw [PeerClaims.offerLane]
    cases htaken : ({ c with readyHeads := heads }.serveHead id l live now).2.2 with
    | true =>
      simp only [htaken, if_true]
      exact hstep
    | false =>
      rw [htaken] at hok
      simp only [htaken, Bool.false_eq_true, if_false]
      exact hR.trans hstep (ih hok hheads')

theorem releaseLane (hR : ServeRule live R) {l : Lane} (h : TableOk c (some l) none) (now : Nat) :
    R c (c.releaseLane l live now).1 (c.releaseLane l live now).2 := by
  have hoffer := hR.offerLane h rfl now
  unfold PeerClaims.releaseLane
  simp only
  split_ifs
  · generalize PeerClaims.offerLane l live now c.readyHeads c = offered at hoffer
    have hwaiters : R offered.1 { offered.1 with drainWaiters := [] } [] := hR.keep fun _ => rfl
    have hdrained := hR.trans hoffer hwaiters
    rw [List.append_nil] at hdrained
    exact hR.more _ hdrained
  · exact hoffer

theorem handOn (hR : ServeRule live R) (h : TableOk c lane (some id))
    (hfree : (c.entry id).owner = none) (hres : (c.entry id).reserved = false) (now : Nat) :
    R c (c.handOn id lane live now).1 (c.handOn id lane live now).2 := by
  obtain ⟨_, hserved, -⟩ := promoteHead_served c id live now
  have hpromote := h.promoteHead hfree hres live now
  have hstep := hR.served hfree hserved
  have hgc : ∀ {d : PeerClaims} {gs : List Grant}, ObjectOk (d.entry id) → R c d gs →
      R c (d.gcObject id) gs := by
    intro d gs hok hd
    rw [← List.append_nil gs]
    exact hR.trans hd (hR.keep fun id' => PeerClaims.bare_gcObject d id id' hok)
  unfold PeerClaims.handOn
  cases lane with
  | none =>
    rw [← List.append_nil (c.promoteHead id live now).2] at hstep
    exact hgc (hpromote.object id) hstep
  | some l =>
    exact hgc ((hpromote.releaseLane live now).object id)
      (hR.trans hstep (hR.releaseLane hpromote now))

end ServeRule

/-- Every object has the owner it had, or is owned by a task with a grant. -/
def HandedOver (c c' : PeerClaims) (grants : List Grant) : Prop :=
  ∀ id, (c'.entry id).owner = (c.entry id).owner ∨
    ∃ g ∈ grants, (c'.entry id).owner = some (g.task, g.epoch)

theorem handedOver_rule (live : Live) : ServeRule live HandedOver := by
  refine ⟨fun hbare id => Or.inl (ObjectClaim.owner_of_bare (hbare id)), ?_, ?_, ?_⟩
  · intro c id c' gs lane _ h id'
    by_cases hid : id' = id
    · cases h with
      | nobody _ hpop =>
        rw [hpop.entry, if_pos hid, hid]
        exact Or.inl rfl
      | handed ghosts w rest lane _ _ _ _ hpop =>
        rw [hpop.entry, if_pos hid]
        exact Or.inr ⟨_, List.mem_singleton_self _, rfl⟩
      | kept ghosts w rest _ _ _ _ hpop =>
        rw [hpop.entry, if_pos hid, hid]
        exact Or.inl rfl
    · rw [h.other hid]
      exact Or.inl rfl
  · intro c c' c'' gs gs' h h' id
    rcases h' id with hsame | ⟨g, hg, hnew⟩
    · rcases h id with hold | ⟨g, hg, hnew⟩
      · exact Or.inl (hsame.trans hold)
      · exact Or.inr ⟨g, List.mem_append_left _ hg, hsame.trans hnew⟩
    · exact Or.inr ⟨g, List.mem_append_right _ hg, hnew⟩
  · intro c c' gs gs' h id
    rcases h id with hold | ⟨g, hg, hnew⟩
    · exact Or.inl hold
    · exact Or.inr ⟨g, List.mem_append_left _ hg, hnew⟩

/-! ## The line at an object -/

/-- The live waiters of an object, in order. -/
def liveLine (live : Live) (o : ObjectClaim) : List (TaskId × Epoch) :=
  (o.waiters.filter fun w => live w.task w.epoch).map fun w => (w.task, w.epoch)

theorem liveLine_congr {live live' : Live} {o o' : ObjectClaim} (hwaiters : o'.waiters = o.waiters)
    (hlive : ∀ w ∈ o.waiters, live' w.task w.epoch = live w.task w.epoch) :
    liveLine live' o' = liveLine live o := by
  rw [liveLine, liveLine, hwaiters, List.filter_congr hlive]

theorem liveLine_of_queue {live : Live} {o : ObjectClaim} {ghosts rest : List Waiter}
    (hqueue : o.waiters = ghosts ++ rest)
    (hdead : ∀ w ∈ ghosts, live w.task w.epoch = false) :
    liveLine live o = (rest.filter fun w => live w.task w.epoch).map fun w => (w.task, w.epoch) := by
  have hghosts : ghosts.filter (fun w => live w.task w.epoch) = [] := by
    simpa using hdead
  rw [liveLine, hqueue, List.filter_append, hghosts, List.nil_append]

/-- Every object has its owner and its line, or the first in line got it. -/
def LineServed (live : Live) (c c' : PeerClaims) (_grants : List Grant) : Prop :=
  ∀ id, (c'.entry id).owner = (c.entry id).owner ∧
      liveLine live (c'.entry id) = liveLine live (c.entry id) ∨
    ∃ k, (c.entry id).owner = none ∧ (c'.entry id).owner = some k ∧
      liveLine live (c.entry id) = k :: liveLine live (c'.entry id)

theorem lineServed_rule (live : Live) : ServeRule live (LineServed live) := by
  refine ⟨?_, ?_, ?_, fun gs' h => h⟩
  · intro c c' hbare id
    exact Or.inl ⟨ObjectClaim.owner_of_bare (hbare id),
      liveLine_congr (ObjectClaim.waiters_of_bare (hbare id)) fun _ _ => rfl⟩
  · intro c id c' gs lane hfree h id'
    by_cases hid : id' = id
    · subst hid
      cases h with
      | nobody hdead hpop =>
        rw [hpop.entry, if_pos rfl]
        refine Or.inl ⟨rfl, ?_⟩
        rw [liveLine_of_queue (List.append_nil _).symm hdead]
        rfl
      | handed ghosts w rest lane hqueue hdead hlive _ hpop =>
        rw [hpop.entry, if_pos rfl]
        refine Or.inr ⟨(w.task, w.epoch), hfree, rfl, ?_⟩
        rw [liveLine_of_queue hqueue hdead, List.filter_cons, if_pos hlive]
        rfl
      | kept ghosts w rest hqueue hdead _ _ hpop =>
        rw [hpop.entry, if_pos rfl]
        refine Or.inl ⟨rfl, ?_⟩
        rw [liveLine_of_queue hqueue hdead]
        rfl
    · rw [h.other hid]
      exact Or.inl ⟨rfl, rfl⟩
  · intro c c' c'' gs gs' h h' id
    rcases h id with ⟨howner, hline⟩ | ⟨k, hfree, howner, hline⟩
    · rw [← howner, ← hline]
      exact h' id
    · rcases h' id with ⟨howner', hline'⟩ | ⟨k', hfree', -⟩
      · exact Or.inr ⟨k, hfree, howner'.trans howner, by rw [hline', hline]⟩
      · rw [howner] at hfree'
        cases hfree'

/-! ## The released object -/

section Taker

variable {c c' : PeerClaims} {id : ObjectId} {live : Live} {gs : List Grant}
  {lane : Option Lane} {w : Waiter}

/-- The first live waiter takes the object, or is kept waiting for a lane. -/
theorem Served.first (h : Served live c id c' gs lane)
    (hw : firstLive live (c.entry id) = some w) :
    (c'.entry id).owner = some (w.task, w.epoch) ∨
      (c'.entry id).reserved = true ∧ w.kind = .topLevel ∧ lane = none ∧
        firstLive live (c'.entry id) = some w := by
  cases h with
  | nobody hdead _ =>
    rw [firstLive_eq_none hdead] at hw
    cases hw
  | handed ghosts x rest lane hqueue hdead hlive _ hpop =>
    rw [firstLive_of_queue hqueue hdead hlive] at hw
    injection hw with hw
    subst hw
    rw [hpop.entry, if_pos rfl]
    exact Or.inl rfl
  | kept ghosts x rest hqueue hdead hlive hkind hpop =>
    rw [firstLive_of_queue hqueue hdead hlive] at hw
    injection hw with hw
    subst hw
    rw [hpop.entry, if_pos rfl]
    refine Or.inr ⟨rfl, hkind, rfl, ?_⟩
    exact firstLive_of_queue (List.nil_append _).symm (fun _ hx => by cases hx) hlive

/-- A lane goes to a first live waiter that needs one. -/
theorem Served.lane_needed (h : Served live c id c' gs lane) (hlane : lane ≠ none) :
    ∃ w, firstLive live (c.entry id) = some w ∧ w.kind = .topLevel := by
  cases h with
  | nobody => exact absurd rfl hlane
  | kept => exact absurd rfl hlane
  | handed ghosts x rest lane hqueue hdead hlive hkind _ =>
    exact ⟨x, firstLive_of_queue hqueue hdead hlive,
      hkind.mp (Option.isSome_iff_ne_none.mpr hlane)⟩

/-- A lane offered to objects that do not need it reaches the last one. -/
theorem offerLane_last {l : Lane} {heads : List ObjectId} (h : TableOk c (some l) none)
    (hheads : c.readyHeads = heads ++ [id])
    (hnested : ∀ id' ∈ heads, ∀ w', firstLive live (c.entry id') = some w' → w'.kind = .nested)
    (hw : firstLive live (c.entry id) = some w) (now : Nat) :
    ((PeerClaims.offerLane l live now (heads ++ [id]) c).1.entry id).owner
      = some (w.task, w.epoch) := by
  induction heads generalizing c with
  | nil =>
    have hready := h.ready
    rw [hheads] at hready
    have hres : (c.entry id).reserved = true := (hready.mem id).mp List.mem_cons_self
    obtain ⟨lane, hserved, -, -, -, hres'⟩ :=
      serveHead_served { c with readyHeads := [] } id l live now hres
    have htaken : (({ c with readyHeads := [] }.serveHead id l live now).1.entry id).owner
        = some (w.task, w.epoch) := by
      refine (hserved.first hw).resolve_right fun hkept => ?_
      rw [hkept.1] at hres'
      cases hres'
    rw [List.nil_append, PeerClaims.offerLane]
    simp only
    split_ifs
    · exact htaken
    · exact htaken
  | cons id' heads ih =>
    rw [List.cons_append] at hheads
    obtain ⟨hok, hheads'⟩ := h.serveHead hheads live now
    have hready := h.ready
    rw [hheads] at hready
    have hres : (c.entry id').reserved = true := (hready.mem id').mp List.mem_cons_self
    obtain ⟨lane, hserved, hlane, -⟩ :=
      serveHead_served { c with readyHeads := heads ++ [id] } id' l live now hres
    have hnot : ({ c with readyHeads := heads ++ [id] }.serveHead id' l live now).2.2 = false := by
      rw [← Bool.not_eq_true]
      intro htaken
      rw [htaken] at hlane
      obtain ⟨w', hw', hkind⟩ := hserved.lane_needed (by rw [hlane]; simp)
      rw [hnested id' List.mem_cons_self w' hw'] at hkind
      cases hkind
    -- the other objects are as they were
    obtain ⟨hnotin, -⟩ := List.nodup_cons.mp hready.nodup
    have hsame : ∀ x ∈ heads ++ [id],
        ({ c with readyHeads := heads ++ [id] }.serveHead id' l live now).1.entry x
          = c.entry x := by
      intro x hx
      exact hserved.other fun heq => hnotin (heq ▸ hx)
    rw [hnot] at hok
    rw [List.cons_append, PeerClaims.offerLane]
    simp only [hnot, Bool.false_eq_true, if_false]
    refine ih hok hheads' ?_ ?_
    · intro x hx
      rw [hsame x (List.mem_append_left _ hx)]
      exact hnested x (List.mem_cons_of_mem _ hx)
    · rw [hsame id (List.mem_append_right _ (List.mem_singleton_self id))]
      exact hw

/-- Only the objects the lane is offered to change. -/
theorem offerLane_other {l : Lane} {heads : List ObjectId} (h : TableOk c (some l) none)
    (hheads : c.readyHeads = heads) (hid : id ∉ heads) (now : Nat) :
    (PeerClaims.offerLane l live now heads c).1.entry id = c.entry id := by
  induction heads generalizing c with
  | nil => rfl
  | cons id' heads ih =>
    obtain ⟨hok, hheads'⟩ := h.serveHead hheads live now
    have hready := h.ready
    rw [hheads] at hready
    have hres : (c.entry id').reserved = true := (hready.mem id').mp List.mem_cons_self
    obtain ⟨lane, hserved, -⟩ := serveHead_served { c with readyHeads := heads } id' l live now hres
    rw [List.mem_cons, not_or] at hid
    have hsame : ({ c with readyHeads := heads }.serveHead id' l live now).1.entry id
        = c.entry id := hserved.other hid.1
    rw [PeerClaims.offerLane]
    cases htaken : ({ c with readyHeads := heads }.serveHead id' l live now).2.2 with
    | true =>
      simp only [htaken, if_true]
      exact hsame
    | false =>
      rw [htaken] at hok
      simp only [htaken, Bool.false_eq_true, if_false]
      exact (ih hok hheads' hid.2).trans hsame

theorem releaseLane_entry (c : PeerClaims) (l : Lane) (live : Live) (now : Nat) :
    (c.releaseLane l live now).1.entry id =
      (PeerClaims.offerLane l live now c.readyHeads c).1.entry id := by
  unfold PeerClaims.releaseLane
  simp only
  split_ifs <;> rfl

/-- The first live waiter of the object `id` that is being released gets it: it
needs no lane, or one is free, or the release returns one and no object
reserved earlier takes it first. -/
def FindsTaker (c : PeerClaims) (id : ObjectId) (live : Live) : Prop :=
  ∀ w, firstLive live (c.entry id) = some w → w.kind = .topLevel → c.freeLanes = [] →
    (c.entry id).ownerLane ≠ none ∧
      ∀ id' ∈ c.readyHeads, ∀ w', firstLive live (c.entry id') = some w' → w'.kind = .nested

/-- An outermost release, seen from its object: the first live waiter gets it. -/
theorem handOn_taker (h : TableOk c lane (some id)) (hfree : (c.entry id).owner = none)
    (hres : (c.entry id).reserved = false) (hw : firstLive live (c.entry id) = some w)
    (htaker : w.kind = .topLevel → c.freeLanes = [] → lane ≠ none ∧
      ∀ id' ∈ c.readyHeads, ∀ w', firstLive live (c.entry id') = some w' → w'.kind = .nested)
    (now : Nat) : ((c.handOn id lane live now).1.entry id).owner = some (w.task, w.epoch) := by
  obtain ⟨given, hserved, hlanes, hkept, hready⟩ := promoteHead_served c id live now
  have hpromote := h.promoteHead hfree hres live now
  -- the entry is garbage-collected only if it is idle
  have hgc : ∀ d : PeerClaims, TableOk d none none →
      ((d.gcObject id).entry id).owner = (d.entry id).owner := fun d hd =>
    ObjectClaim.owner_of_bare (d.bare_gcObject id id (hd.object id))
  unfold PeerClaims.handOn
  rcases hserved.first hw with howned | ⟨hres', hkind, hgiven, hw'⟩
  · cases lane with
    | none =>
      simp only
      rw [hgc _ hpromote]
      exact howned
    | some l =>
      simp only
      rw [hgc _ (hpromote.releaseLane live now), releaseLane_entry,
        offerLane_other hpromote rfl ?_]
      · exact howned
      · -- owned, so not reserved, so in no lane queue
        rw [hpromote.ready.mem, ((hpromote.object id).owned (by rw [howned]; rfl)).2]
        simp
  · have hnil := hkept hres'
    rw [hnil, hgiven, Option.toList_none, List.nil_append] at hlanes
    obtain ⟨hlane, hnested⟩ := htaker hkind hlanes
    obtain ⟨l, rfl⟩ := Option.ne_none_iff_exists'.mp hlane
    rw [hres', hres] at hready
    replace hready : (c.promoteHead id live now).1.readyHeads = c.readyHeads ++ [id] := hready
    simp only
    rw [hgc _ (hpromote.releaseLane live now), releaseLane_entry, hready]
    refine offerLane_last hpromote hready (fun id' hid' => ?_) hw' now
    have hne : id' ≠ id := by
      rintro rfl
      rw [h.ready.mem, hres] at hid'
      cases hid'
    rw [hserved.other hne]
    exact hnested id' hid'

/-! ## Ending a call -/

/-- What ending a call does to the owners: the released object aside, hand-overs
only. -/
theorem endCall_owners (h : TableOk c none none)
    (howned : ∀ o, c.objects id = some o → o.owner.isSome) (live : Live) (now : Nat) :
    ∀ id', ((c.endCall id live now).1.entry id').owner = (c.entry id').owner ∨
      (∃ g ∈ (c.endCall id live now).2,
        ((c.endCall id live now).1.entry id').owner = some (g.task, g.epoch)) ∨
      id' = id ∧ (c.entry id).depth ≤ 1 ∧ ((c.endCall id live now).1.entry id').owner = none := by
  intro id'
  unfold PeerClaims.endCall
  cases hobj : c.objects id with
  | none => exact Or.inl rfl
  | some o =>
    have hentry : c.entry id = o := c.entry_of_some id hobj
    have hres : o.reserved = false := by
      have hok := h.object id
      rw [hentry] at hok
      exact (hok.owned (howned o hobj)).2
    simp only
    split_ifs with hdepth
    · refine Or.inl ?_
      rw [PeerClaims.entry_set]
      split_ifs with hid
      · rw [hid, hentry]
      · rfl
    · have hdrop := h.drop id
      rw [hentry, show (0 : Nat) = o.depth - 1 by omega] at hdrop
      have hover := (handedOver_rule live).handOn hdrop (by rw [PeerClaims.entry_set_self])
        (by rw [PeerClaims.entry_set_self]; exact hres) now id'
      rcases hover with hsame | hgrant
      · rw [hsame, PeerClaims.entry_set]
        split_ifs with hid
        · refine Or.inr (Or.inr ⟨hid, ?_, rfl⟩)
          rw [hentry]
          omega
        · exact Or.inl rfl
      · exact Or.inr (Or.inl hgrant)

/-- What ending a call does to the lines: an object that changes hands goes to the
first in its line, and no line moves otherwise. -/
theorem endCall_lines (h : TableOk c none none)
    (howned : ∀ o, c.objects id = some o → o.owner.isSome) (live : Live) (now : Nat) :
    ∀ id', (((c.endCall id live now).1.entry id').owner = (c.entry id').owner ∨
        ((c.endCall id live now).1.entry id').owner = none) ∧
        liveLine live ((c.endCall id live now).1.entry id') = liveLine live (c.entry id') ∨
      ∃ k, ((c.entry id').owner = none ∨ id' = id) ∧
        ((c.endCall id live now).1.entry id').owner = some k ∧
        liveLine live (c.entry id') = k :: liveLine live ((c.endCall id live now).1.entry id') := by
  intro id'
  unfold PeerClaims.endCall
  cases hobj : c.objects id with
  | none => exact Or.inl ⟨Or.inl rfl, rfl⟩
  | some o =>
    have hentry : c.entry id = o := c.entry_of_some id hobj
    have hres : o.reserved = false := by
      have hok := h.object id
      rw [hentry] at hok
      exact (hok.owned (howned o hobj)).2
    simp only
    -- a call inside another of the same owner: only the depth changes
    split_ifs with hdepth
    · refine Or.inl ?_
      rw [PeerClaims.entry_set]
      split_ifs with hid
      · rw [hid, hentry]
        exact ⟨Or.inl rfl, rfl⟩
      · exact ⟨Or.inl rfl, rfl⟩
    · -- the outermost call: the object is free, and the lane goes to who is next in some line
      have hdrop := h.drop id
      rw [hentry, show (0 : Nat) = o.depth - 1 by omega] at hdrop
      have hserved := (lineServed_rule live).handOn hdrop (by rw [PeerClaims.entry_set_self])
        (by rw [PeerClaims.entry_set_self]; exact hres) now id'
      rw [PeerClaims.entry_set] at hserved
      by_cases hid : id' = id
      · -- the line of the released object is as it was before it lost its owner
        subst hid
        rw [if_pos rfl] at hserved
        rw [hentry]
        rcases hserved with ⟨howner, hline⟩ | ⟨k, -, howner, hline⟩
        · exact Or.inl ⟨Or.inr howner, hline⟩
        · exact Or.inr ⟨k, Or.inr rfl, howner, hline⟩
      · rw [if_neg hid] at hserved
        rcases hserved with ⟨howner, hline⟩ | ⟨k, hfree, howner, hline⟩
        · exact Or.inl ⟨Or.inl howner, hline⟩
        · exact Or.inr ⟨k, Or.inl hfree, howner, hline⟩

/-- If the released object finds a taker, a live waiter does not wait for nobody. -/
theorem endCall_taken (h : TableOk c none none)
    (howned : ∀ o, c.objects id = some o → o.owner.isSome) (hdepth : (c.entry id).depth ≤ 1)
    (htaker : FindsTaker c id live) (hw : firstLive live (c.entry id) = some w) (now : Nat) :
    ((c.endCall id live now).1.entry id).owner = some (w.task, w.epoch) := by
  unfold PeerClaims.endCall
  cases hobj : c.objects id with
  | none =>
    rw [c.entry_of_none id hobj] at hw
    cases hw
  | some o =>
    have hentry : c.entry id = o := c.entry_of_some id hobj
    have hok := h.object id
    rw [hentry] at hok hdepth
    have hres : o.reserved = false := (hok.owned (howned o hobj)).2
    have hone : ¬ o.depth - 1 > 0 := by omega
    simp only [if_neg hone]
    have hdrop := h.drop id
    rw [hentry, show (0 : Nat) = o.depth - 1 by omega] at hdrop
    refine handOn_taker hdrop (by rw [PeerClaims.entry_set_self])
      (by rw [PeerClaims.entry_set_self]; exact hres) ?_ (fun hkind hlanes => ?_) now
    · rw [PeerClaims.entry_set_self, ← hw, hentry]
      rfl
    · obtain ⟨hlane, hnested⟩ := htaker w hw hkind hlanes
      refine ⟨hentry ▸ hlane, fun id' hid' w' hw' => hnested id' hid' w' ?_⟩
      rw [PeerClaims.entry_set] at hw'
      split_ifs at hw' with hid
      · rw [hid, hentry]
        exact hw'
      · exact hw'

end Taker

/-! ## Lanes and drain waiters -/

section LaneCount

variable (c : PeerClaims) (t : TaskId) (epoch : Epoch) (id : ObjectId) (label : String)

theorem tryAcquire_laneCount (nested : Bool) :
    (c.tryAcquire t epoch id label nested).1.laneCount = c.laneCount := by
  unfold PeerClaims.tryAcquire
  simp only
  split
  · split_ifs <;> rfl
  · split_ifs
    · rfl
    · rfl
    · split <;> rfl

theorem enqueue_laneCount (kind : WaitKind) (now : Nat) :
    (c.enqueue t epoch id label kind now).laneCount = c.laneCount := by
  unfold PeerClaims.enqueue
  simp only
  split_ifs <;> rfl

theorem retract_laneCount : (c.retract t id).laneCount = c.laneCount := by
  unfold PeerClaims.retract
  simp only
  rw [(PeerClaims.gcObject_fields _ id).2.1]
  split <;> rfl

variable {c id}

/-- Ending a call keeps the lanes and registers no drain waiter. -/
theorem endCall_fields (h : TableOk c none none)
    (howned : ∀ o, c.objects id = some o → o.owner.isSome) (live : Live) (now : Nat) :
    (c.endCall id live now).1.laneCount = c.laneCount ∧
      ∀ w ∈ (c.endCall id live now).1.drainWaiters, w ∈ c.drainWaiters := by
  unfold PeerClaims.endCall
  cases hobj : c.objects id with
  | none => exact ⟨rfl, fun w hw => hw⟩
  | some o =>
    have hentry : c.entry id = o := c.entry_of_some id hobj
    have hres : o.reserved = false := by
      have hok := h.object id
      rw [hentry] at hok
      exact (hok.owned (howned o hobj)).2
    simp only
    split_ifs with hdepth
    · exact ⟨rfl, fun w hw => hw⟩
    · have hdrop := h.drop id
      rw [hentry, show (0 : Nat) = o.depth - 1 by omega] at hdrop
      have hpromote := hdrop.promoteHead (by rw [PeerClaims.entry_set_self])
        (by rw [PeerClaims.entry_set_self]; exact hres) live now
      obtain ⟨hdrain, hcount, -⟩ := promoteHead_fields
        (c.set id { o with depth := o.depth - 1, owner := none, ownerLane := none }) id live now
      unfold PeerClaims.handOn
      simp only
      rw [(PeerClaims.gcObject_fields _ id).2.1, (PeerClaims.gcObject_fields _ id).2.2.2.2]
      cases hlane : o.ownerLane with
      | none => exact ⟨hcount, fun w hw => hdrain ▸ hw⟩
      | some l =>
        rw [hlane] at hpromote
        obtain ⟨hdrain', hcount', -⟩ := hpromote.offerLane_fields rfl live now
        unfold PeerClaims.releaseLane
        simp only
        split_ifs
        · exact ⟨hcount'.trans hcount, fun w hw => by cases hw⟩
        · exact ⟨hcount'.trans hcount, fun w hw => (hdrain'.trans hdrain) ▸ hw⟩

end LaneCount

end Quoin.Claims
