import Quoin.Claims.Owners
import Quoin.Claims.Invariant

/-!
# Quoin — idle entries

An entry of a claim table is worth keeping as long as somebody owns the object,
it is reserved, or somebody queues for it. `gcObject` drops the entry of an
object whose call ended or whose waiter withdrew. It is not asked about the
objects that a returned lane passes on its way: a reserved object whose waiters
are all gone loses its reservation there, and its entry stays
(`Strands`). That is the only way (`no_idle_entries`).

## Results

* `no_idle_entries` — in a run every entry is worth keeping, in every state, exactly if no step
  strands one;
* `desertedHead_leaks` — a lane that comes home passes a reserved object whose waiters are gone.
-/

namespace Quoin.Claims

open Trans

/-- `gc_object`'s condition: no owner, no waiters, not reserved. -/
def ObjectClaim.Idle (o : ObjectClaim) : Prop :=
  o.owner = none ∧ o.waiters = [] ∧ o.reserved = false

namespace PeerClaims

/-- Every entry, but perhaps that of `freed`, is owned, reserved or waited for. -/
def BusyBut (c : PeerClaims) (freed : Option ObjectId) : Prop :=
  ∀ id o, some id ≠ freed → c.objects id = some o → ¬ o.Idle

/-- Every entry is owned, reserved or waited for. -/
def NoIdle (c : PeerClaims) : Prop :=
  ∀ id o, c.objects id = some o → o.owner ≠ none ∨ o.reserved = true ∨ o.waiters ≠ []

/-- A lane offered to the object goes to its first live waiter. While the call on `freed` ends, that
object is only offered the lane if it is reserved by then: its first live waiter found no free
lane. -/
def TakesLane (c : PeerClaims) (live : Live) (freed id : ObjectId) : Prop :=
  (∃ w, firstLive live (c.entry id) = some w ∧ w.kind = .topLevel) ∧
    if id = freed then c.freeLanes = [] else (c.entry id).reserved = true

/-- Reserved for nobody: none of its waiters still waits. -/
def Deserted (c : PeerClaims) (live : Live) (id : ObjectId) : Prop :=
  (c.entry id).reserved = true ∧ (c.entry id).owner = none ∧ firstLive live (c.entry id) = none

/-- The end of the call on `freed` returns a lane, and the lane comes to a deserted object before it
finds a taker. -/
def Strands (c : PeerClaims) (live : Live) (freed : ObjectId) : Prop :=
  (c.entry freed).depth ≤ 1 ∧ (c.entry freed).ownerLane ≠ none ∧
    ∃ before id after, c.readyHeads = before ++ id :: after ∧
      (∀ id' ∈ before, ¬ c.TakesLane live freed id') ∧ id ≠ freed ∧ c.Deserted live id

variable {c c' : PeerClaims} {id : ObjectId} {o : ObjectClaim} {live : Live} {freed : Option ObjectId}

theorem noIdle_iff : c.NoIdle ↔ c.BusyBut none := by
  unfold NoIdle BusyBut ObjectClaim.Idle
  constructor
  · intro h id o _ hObj hIdle
    have := h id o hObj
    simp [hIdle] at this
  · intro h id o hObj
    have := h id o (by simp) hObj
    by_contra hNone
    obtain ⟨hOwner, hRest⟩ := not_or.mp hNone
    obtain ⟨hReserved, hWaiters⟩ := not_or.mp hRest
    exact this ⟨not_not.mp hOwner, not_not.mp hWaiters, by simpa using hReserved⟩

theorem BusyBut.congr (h : c.BusyBut freed) (hObjects : c'.objects = c.objects) :
    c'.BusyBut freed := by
  unfold BusyBut
  rw [hObjects]
  exact h

theorem BusyBut.mono (h : c.BusyBut none) : c.BusyBut freed :=
  fun id o _ hObj => h id o (by simp) hObj

/-- An entry is written. -/
theorem BusyBut.update (h : c.BusyBut freed) (hObjects : c'.objects = Function.update c.objects id (some o))
    (hBusy : some id ≠ freed → ¬ o.Idle) : c'.BusyBut freed := by
  intro id' o' hid' hObj
  rw [hObjects, Function.update_apply] at hObj
  split_ifs at hObj with hEq
  · obtain rfl := Option.some.inj hObj
    exact hBusy (hEq ▸ hid')
  · exact h id' o' hid' hObj

theorem not_idle_of_owner (h : o.owner.isSome) : ¬ o.Idle := by
  rintro ⟨hOwner, -⟩
  simp [hOwner] at h

theorem gcObject_ne {id' : ObjectId} (h : id' ≠ id) : (c.gcObject id).objects id' = c.objects id' := by
  unfold PeerClaims.gcObject
  split
  · split_ifs
    · exact Function.update_of_ne h _ _
    · rfl
  · rfl

theorem gcObject_busy (h : (c.gcObject id).objects id = some o) : ¬ o.Idle := by
  unfold PeerClaims.gcObject at h
  split at h
  · next o' hObj =>
    split_ifs at h with hIdle
    · replace h : Function.update c.objects id none id = some o := h
      rw [Function.update_self] at h
      cases h
    · rw [hObj] at h
      obtain rfl := Option.some.inj h
      rintro ⟨hOwner, hWaiters, hReserved⟩
      simp [hOwner, hWaiters, hReserved] at hIdle
  · next hObj =>
    rw [hObj] at h
    cases h

/-- The entry is dropped if it is idle, and the others are left alone. -/
theorem gcObject_busyBut_iff : (c.gcObject id).BusyBut none ↔ c.BusyBut (some id) := by
  constructor
  · intro h id' o hid hObj
    refine h id' o (by simp) ?_
    rwa [gcObject_ne fun h => hid (congrArg some h)]
  · intro h id' o _ hObj
    by_cases hid : id' = id
    · subst hid
      exact gcObject_busy hObj
    · rw [gcObject_ne hid] at hObj
      exact h id' o (fun h => hid (Option.some.inj h)) hObj

/-! ## A lane on its way -/

/-- What an object does with a lane that is offered to it. -/
inductive Offered (c : PeerClaims) (live : Live) (id : ObjectId) (c' : PeerClaims) :
    Bool → Prop
  | passed (hReserved : (c.entry id).reserved = false) (hObjects : c'.objects = c.objects) :
      Offered c live id c' false
  | nobody (hReserved : (c.entry id).reserved = true)
      (hFirst : firstLive live (c.entry id) = none)
      (hObjects : c'.objects = Function.update c.objects id
        (some { c.entry id with waiters := [], reserved := false })) : Offered c live id c' false
  | handed (w : Waiter) (o : ObjectClaim) (taken : Bool)
      (hReserved : (c.entry id).reserved = true) (hFirst : firstLive live (c.entry id) = some w)
      (hTaken : taken = true ↔ w.kind = .topLevel) (hOwner : o.owner.isSome)
      (hFree : o.reserved = false)
      (hObjects : c'.objects = Function.update c.objects id (some o)) : Offered c live id c' taken

theorem serveHead_offered (c : PeerClaims) (id : ObjectId) (l : Lane) (live : Live) (now : Nat) :
    Offered c live id (c.serveHead id l live now).1 (c.serveHead id l live now).2.2 := by
  unfold serveHead
  cases hObj : c.objects id with
  | none => exact .passed (by rw [c.entry_of_none id hObj]) rfl
  | some o =>
    have hEntry := c.entry_of_some id hObj
    simp only
    -- an object that is not reserved is passed over
    cases hReserved : o.reserved with
    | false => exact .passed (by rw [hEntry, hReserved]) rfl
    | true =>
      obtain ⟨hDead, hHead⟩ := popLive_spec live o.waiters
      rcases hPop : popLive live o.waiters with ⟨ghosts, head⟩
      rw [hPop] at hDead hHead
      simp only [dropGhosts_eq, Bool.not_true, Bool.false_eq_true, if_false]
      cases head with
      -- the line holds ghosts only
      | none =>
        replace hHead : o.waiters = ghosts := hHead
        refine .nobody (by rw [hEntry, hReserved]) ?_ ?_
        · rw [hEntry]
          exact firstLive_eq_none (hHead ▸ hDead)
        · rw [hEntry]
          rfl
      | some head =>
        obtain ⟨w, rest⟩ := head
        obtain ⟨hQueue, hLive⟩ := hHead
        -- the head is the first of the line that lives
        have hFirst : firstLive live (c.entry id) = some w := by
          rw [hEntry]
          exact firstLive_of_queue hQueue hDead hLive
        simp only
        cases hKind : w.kind with
        -- a nested claim takes the object without the lane
        | nested =>
          simp only
          refine .handed w { o.own w.task w.epoch none with waiters := rest, reserved := false } false
            (by rw [hEntry, hReserved]) hFirst (by simp [hKind]) rfl rfl ?_
          rfl
        | topLevel =>
          simp only
          refine .handed w { o.own w.task w.epoch (some l) with waiters := rest, reserved := false } true
            (by rw [hEntry, hReserved]) hFirst (by simp [hKind]) rfl rfl ?_
          rfl

/-- The object takes a lane that is offered to it. -/
def Takes (c : PeerClaims) (live : Live) (id : ObjectId) : Prop :=
  (∃ w, firstLive live (c.entry id) = some w ∧ w.kind = .topLevel) ∧ (c.entry id).reserved = true

/-- A lane offered to the objects in order comes to a deserted one, other than `freed`. -/
def Meets (c : PeerClaims) (live : Live) (freed : ObjectId) : List ObjectId → Prop
  | [] => False
  | id :: ids => (id ≠ freed ∧ c.Deserted live id) ∨ ¬ c.Takes live id ∧ Meets c live freed ids

theorem meets_iff {freed : ObjectId} {ids : List ObjectId} :
    c.Meets live freed ids ↔ ∃ before id after, ids = before ++ id :: after ∧
      (∀ id' ∈ before, ¬ c.Takes live id') ∧ id ≠ freed ∧ c.Deserted live id := by
  induction ids with
  | nil => simp [Meets]
  | cons id ids ih =>
    rw [Meets, ih]
    constructor
    · rintro (⟨hid, hDeserted⟩ | ⟨hTakes, before, id', after, rfl, hBefore, hRest⟩)
      · exact ⟨[], id, ids, rfl, by simp, hid, hDeserted⟩
      · refine ⟨id :: before, id', after, rfl, ?_, hRest⟩
        intro g hg
        obtain rfl | hg := List.mem_cons.mp hg
        · exact hTakes
        · exact hBefore g hg
    · rintro ⟨before, id', after, hEq, hBefore, hid, hDeserted⟩
      cases before with
      | nil =>
        obtain ⟨rfl, rfl⟩ := List.cons.inj hEq
        exact .inl ⟨hid, hDeserted⟩
      | cons g before =>
        obtain ⟨rfl, rfl⟩ := List.cons.inj hEq
        exact .inr ⟨hBefore _ List.mem_cons_self, before, id', after, rfl,
          fun g hg => hBefore g (List.mem_cons_of_mem _ hg), hid, hDeserted⟩

/-- Objects that take the same and are deserted alike, but perhaps `freed`, are met alike. -/
theorem meets_congr {freed : ObjectId} {ids : List ObjectId}
    (hTakes : ∀ id, c'.Takes live id ↔ c.Takes live id)
    (hDeserted : ∀ id, id ≠ freed → (c'.Deserted live id ↔ c.Deserted live id)) :
    c'.Meets live freed ids ↔ c.Meets live freed ids := by
  induction ids with
  | nil => exact Iff.rfl
  | cons id ids ih =>
    rw [Meets, Meets, ih, hTakes]
    by_cases hid : id = freed
    · simp [hid]
    · rw [hDeserted id hid]

theorem entry_congr {id : ObjectId} (h : c'.objects id = c.objects id) :
    c'.entry id = c.entry id := by
  rw [entry, entry, h]

/-- An object that is there and not reserved is passed. -/
theorem offerLane_passed {l : Lane} {now : Nat} (ids : List ObjectId) :
    ∀ {c : PeerClaims}, c.objects id = some o → o.reserved = false →
      (offerLane l live now ids c).1.objects id = some o := by
  induction ids with
  | nil => exact fun h _ => h
  | cons head ids ih =>
    intro c hObj hFree
    have hOffered := serveHead_offered { c with readyHeads := ids } head l live now
    have hKept : (({ c with readyHeads := ids } : PeerClaims).serveHead head l live now).1.objects id =
        some o := by
      generalize (({ c with readyHeads := ids } : PeerClaims).serveHead head l live now).2.2 = taken
        at hOffered
      have hne : (c.entry head).reserved = true → id ≠ head := by
        rintro hReserved rfl
        rw [c.entry_of_some _ hObj, hFree] at hReserved
        cases hReserved
      cases hOffered with
      | passed hReserved hObjects =>
        rw [hObjects]
        exact hObj
      | nobody hReserved hFirst hObjects =>
        rw [hObjects, Function.update_of_ne (hne hReserved)]
        exact hObj
      | handed w o' taken hReserved hFirst hTaken hOwner hFree' hObjects =>
        rw [hObjects, Function.update_of_ne (hne hReserved)]
        exact hObj
    rw [offerLane]
    simp only
    split_ifs
    · exact hKept
    · exact ih hKept hFree

/-- A lane on its way strands an entry if and only if it comes to a deserted object. -/
theorem offerLane_busyBut_iff {l : Lane} {now : Nat} {id : ObjectId} (ids : List ObjectId) :
    ∀ {c : PeerClaims}, c.BusyBut (some id) →
      ((offerLane l live now ids c).1.BusyBut (some id) ↔ ¬ c.Meets live id ids) := by
  induction ids with
  | nil => exact fun h => ⟨fun _ hMeets => hMeets.elim, fun _ => h.congr rfl⟩
  | cons head ids ih =>
    intro c h
    have hOffered := serveHead_offered { c with readyHeads := ids } head l live now
    rw [offerLane]
    simp only
    generalize hServed : ({ c with readyHeads := ids } : PeerClaims).serveHead head l live now = served
      at hOffered
    obtain ⟨c', grants, taken⟩ := served
    replace hOffered : Offered { c with readyHeads := ids } live head c' taken := hOffered
    have hSame : ∀ id', ({ c with readyHeads := ids } : PeerClaims).entry id' = c.entry id' :=
      fun _ => rfl
    cases hOffered with
    | passed hReserved hObjects =>
      -- not reserved any more: the lane goes on to the next, and nothing has changed
      rw [hSame] at hReserved
      have hEntry : ∀ id', c'.entry id' = c.entry id' := fun id' =>
        entry_congr (congrFun hObjects id')
      have hMeets : c'.Meets live id ids ↔ c.Meets live id ids :=
        meets_congr (fun id' => by rw [Takes, Takes, hEntry]) fun id' _ => by
          rw [Deserted, Deserted, hEntry]
      rw [if_neg Bool.false_ne_true, ih (h.congr hObjects), hMeets, Meets, Deserted, Takes, hReserved]
      simp
    | nobody hReserved hFirst hObjects =>
      -- all who waited are gone: the object loses its reservation
      rw [hSame] at hReserved hFirst hObjects
      replace hObjects : c'.objects = Function.update c.objects head
        (some { c.entry head with waiters := [], reserved := false }) := hObjects
      have hEntry := entry_of_update hObjects
      have hNotTakes : ¬ c.Takes live head := by
        rintro ⟨⟨w, hw, -⟩, -⟩
        rw [hFirst] at hw
        cases hw
      have hTakes : ∀ id', c'.Takes live id' ↔ c.Takes live id' := by
        intro id'
        by_cases hid : id' = head
        · subst hid
          refine ⟨fun hTakes => ?_, fun hTakes => absurd hTakes hNotTakes⟩
          have hReserved' := hTakes.2
          rw [hEntry, if_pos rfl] at hReserved'
          cases hReserved'
        · rw [Takes, Takes, hEntry, if_neg hid]
      have hNew : ¬ c'.Deserted live head := by
        rintro ⟨hReserved', -⟩
        rw [hEntry, if_pos rfl] at hReserved'
        cases hReserved'
      rw [if_neg Bool.false_ne_true]
      by_cases hDeserted : head ≠ id ∧ c.Deserted live head
      · -- the entry has lost its reservation and stays
        have hMeets : c.Meets live id (head :: ids) := .inl hDeserted
        refine ⟨fun hBusy => ?_, fun hNot => absurd hMeets hNot⟩
        have hLeft : c'.objects head = some { c.entry head with waiters := [], reserved := false } := by
          rw [hObjects, Function.update_self]
        exact absurd ⟨hDeserted.2.2.1, rfl, rfl⟩
          (hBusy head _ (fun hEq => hDeserted.1 (Option.some.inj hEq))
            (offerLane_passed ids hLeft rfl))
      · have hBusy : c'.BusyBut (some id) := by
          refine h.update hObjects fun hid hIdle => hDeserted ⟨fun hEq => hid (congrArg some hEq), ?_⟩
          exact ⟨hReserved, hIdle.1, hFirst⟩
        have hMeets : c'.Meets live id ids ↔ c.Meets live id ids := by
          refine meets_congr hTakes fun id' hid => ?_
          by_cases hEq : id' = head
          · subst hEq
            exact iff_of_false hNew fun hOld => hDeserted ⟨hid, hOld⟩
          · rw [Deserted, Deserted, hEntry, if_neg hEq]
        rw [ih hBusy, hMeets, Meets, or_iff_right hDeserted, and_iff_right hNotTakes]
    | handed w o taken hReserved hFirst hTaken hOwner hFree hObjects =>
      -- the object goes to its first live waiter, which takes the lane unless it is nested
      rw [hSame] at hReserved hFirst
      replace hObjects : c'.objects = Function.update c.objects head (some o) := hObjects
      have hEntry := entry_of_update hObjects
      have hBusy : c'.BusyBut (some id) :=
        h.update hObjects fun _ => not_idle_of_owner hOwner
      have hNotDeserted : ¬ c.Deserted live head := by
        rintro ⟨-, -, hNone⟩
        rw [hFirst] at hNone
        cases hNone
      have hNew : c'.entry head = o := by
        rw [hEntry, if_pos rfl]
      cases taken with
      | true =>
        rw [if_pos rfl]
        refine iff_of_true hBusy ?_
        rintro (⟨-, hDeserted⟩ | ⟨hNotTakes, -⟩)
        · exact hNotDeserted hDeserted
        · exact hNotTakes ⟨⟨w, hFirst, hTaken.mp rfl⟩, hReserved⟩
      | false =>
        have hNotTakes : ¬ c.Takes live head := by
          rintro ⟨⟨w', hw', hKind⟩, -⟩
          rw [hFirst] at hw'
          obtain rfl := Option.some.inj hw'
          cases hTaken.mpr hKind
        have hMeets : c'.Meets live id ids ↔ c.Meets live id ids := by
          refine meets_congr (fun id' => ?_) fun id' _ => ?_
          · by_cases hEq : id' = head
            · subst hEq
              refine iff_of_false (fun hTakes => ?_) hNotTakes
              have hReserved' := hTakes.2
              rw [hNew, hFree] at hReserved'
              cases hReserved'
            · rw [Takes, Takes, hEntry, if_neg hEq]
          · by_cases hEq : id' = head
            · subst hEq
              refine iff_of_false (fun hDeserted => ?_) hNotDeserted
              have hReserved' := hDeserted.1
              rw [hNew, hFree] at hReserved'
              cases hReserved'
            · rw [Deserted, Deserted, hEntry, if_neg hEq]
        rw [if_neg Bool.false_ne_true, ih hBusy, hMeets, Meets,
          or_iff_right fun hDeserted => hNotDeserted hDeserted.2, and_iff_right hNotTakes]

theorem releaseLane_objects (c : PeerClaims) (l : Lane) (live : Live) (now : Nat) :
    (c.releaseLane l live now).1.objects = (offerLane l live now c.readyHeads c).1.objects := by
  unfold releaseLane
  simp only
  split_ifs <;> rfl

/-! ## The end of a call -/

theorem meets_append_freed {freed : ObjectId} (ids : List ObjectId) :
    c.Meets live freed (ids ++ [freed]) ↔ c.Meets live freed ids := by
  induction ids with
  | nil => simp [Meets]
  | cons id ids ih => rw [List.cons_append, Meets, Meets, ih]

/-- What promoting the head of a freed object leaves the lane to find. -/
theorem promoteHead_meets (c : PeerClaims) (id : ObjectId) (live : Live) (now : Nat) :
    (c.promoteHead id live now).1.Meets live id (c.promoteHead id live now).1.readyHeads ↔
      ∃ before id' after, c.readyHeads = before ++ id' :: after ∧
        (∀ g ∈ before, ¬ c.TakesLane live id g) ∧ id' ≠ id ∧ c.Deserted live id' := by
  obtain ⟨lane, hServed, hLanes, hNoLane, hReady⟩ := promoteHead_served c id live now
  generalize c.promoteHead id live now = promoted at *
  obtain ⟨c', grants⟩ := promoted
  replace hServed : Served live c id c' grants lane := hServed
  simp only at hLanes hNoLane hReady ⊢
  -- who takes a lane: the waiter that was kept for want of one, and who did before
  have hTakes : ∀ g, c'.Takes live g ↔ c.TakesLane live id g := by
    intro g
    by_cases hg : g = id
    · subst hg
      rw [Takes, TakesLane, if_pos rfl]
      cases hServed with
      | nobody hDead hPop =>
        rw [hPop.entry, if_pos rfl, firstLive_eq_none hDead]
        simp
      | handed ghosts w rest lane hQueue hDead hLive hKind hPop =>
        rw [hPop.entry, if_pos rfl, firstLive_of_queue hQueue hDead hLive]
        refine iff_of_false (fun h => by cases h.2) ?_
        rintro ⟨⟨w', hw', hTop⟩, hNil⟩
        obtain rfl := Option.some.inj hw'
        rw [hNil] at hLanes
        obtain ⟨l, rfl⟩ := Option.isSome_iff_exists.mp (hKind.mpr hTop)
        cases hLanes
      | kept ghosts w rest hQueue hDead hLive hTop hPop =>
        have hKept := hPop.entry g
        rw [if_pos rfl] at hKept
        rw [firstLive_of_queue hQueue hDead hLive, hKept]
        refine iff_of_true ⟨⟨w, ?_, hTop⟩, rfl⟩ ⟨⟨w, rfl, hTop⟩, ?_⟩
        · exact firstLive_of_queue (List.nil_append _).symm (fun _ hx => by cases hx) hLive
        · rw [hLanes]
          exact hNoLane (by rw [hKept])
    · rw [Takes, TakesLane, if_neg hg, hServed.other hg]
  have hDeserted : ∀ g, g ≠ id →
      (c'.Deserted live g ↔ c.Deserted live g) := by
    intro g hg
    rw [Deserted, Deserted, hServed.other hg]
  -- a head that has just been reserved is the last to be asked
  have hHeads : c'.Meets live id c'.readyHeads ↔
      c'.Meets live id c.readyHeads := by
    rw [hReady]
    split_ifs
    · exact meets_append_freed _
    · exact Iff.rfl
  rw [hHeads, meets_iff]
  constructor
  · rintro ⟨before, id', after, hEq, hBefore, hid, hDes⟩
    exact ⟨before, id', after, hEq, fun g hg => (hTakes g).not.mp (hBefore g hg), hid,
      (hDeserted id' hid).mp hDes⟩
  · rintro ⟨before, id', after, hEq, hBefore, hid, hDes⟩
    exact ⟨before, id', after, hEq, fun g hg => (hTakes g).not.mpr (hBefore g hg), hid,
      (hDeserted id' hid).mpr hDes⟩

/-- Promoting the head writes the entry of the freed object only. -/
theorem promoteHead_other (c : PeerClaims) (live : Live) (now : Nat) {id' : ObjectId} (h : id' ≠ id) :
    (c.promoteHead id live now).1.objects id' = c.objects id' := by
  cases hObj : c.objects id with
  | none => simp only [promoteHead, hObj]
  | some o =>
    rcases hPop : popLive live o.waiters with ⟨ghosts, head⟩
    cases head with
    | none =>
      rw [promoteHead_nobody hObj hPop, dropGhosts_eq]
      exact Function.update_of_ne h _ _
    | some head =>
      obtain ⟨w, rest⟩ := head
      cases hKind : w.kind with
      | nested =>
        rw [promoteHead_nested hObj hPop hKind, dropGhosts_eq]
        exact Function.update_of_ne h _ _
      | topLevel =>
        cases hLanes : c.freeLanes with
        | cons l lanes =>
          rw [promoteHead_lane hObj hPop hKind hLanes, dropGhosts_eq]
          exact Function.update_of_ne h _ _
        | nil =>
          rw [promoteHead_noLane hObj hPop hKind hLanes, dropGhosts_eq]
          exact Function.update_of_ne h _ _

/-- The end of a call leaves an idle entry if and only if its lane strands one. -/
theorem endCall_busy_iff (h : c.BusyBut none) (live : Live) (now : Nat) :
    (c.endCall id live now).1.BusyBut none ↔ ¬ c.Strands live id := by
  unfold endCall
  cases hObj : c.objects id with
  | none =>
    refine iff_of_true h ?_
    rintro ⟨-, hLane, -⟩
    rw [c.entry_of_none id hObj] at hLane
    exact hLane rfl
  | some o =>
    have hEntry := c.entry_of_some id hObj
    simp only
    -- an inner call ends: the object keeps its owner
    split_ifs with hDepth
    · have hSame : ¬ ({ o with depth := o.depth - 1 } : ObjectClaim).Idle := h id o (by simp) hObj
      refine iff_of_true (h.update rfl fun _ => hSame) ?_
      rintro ⟨hLe, -⟩
      rw [hEntry] at hLe
      omega
    · have hEntries := c.entry_set id (o := { o with depth := o.depth - 1, owner := none, ownerLane := none })
      have hFreed : (c.set id { o with depth := o.depth - 1, owner := none, ownerLane := none }).BusyBut
          (some id) := h.mono.update rfl fun hne => absurd rfl hne
      have hLanes : (c.set id { o with depth := o.depth - 1, owner := none, ownerLane := none }).freeLanes =
          c.freeLanes := rfl
      have hReady : (c.set id { o with depth := o.depth - 1, owner := none, ownerLane := none }).readyHeads =
          c.readyHeads := rfl
      generalize c.set id { o with depth := o.depth - 1, owner := none, ownerLane := none } = d
        at hEntries hFreed hLanes hReady
      -- freeing the object changes neither who is alive in a queue nor what is reserved
      have hTakes : ∀ g, d.TakesLane live id g ↔ c.TakesLane live id g := by
        intro g
        rw [TakesLane, TakesLane, hEntries, hLanes]
        by_cases hg : g = id
        · subst hg
          rw [if_pos rfl, if_pos rfl, if_pos rfl, hEntry]
          rfl
        · rw [if_neg hg]
      have hDeserted : ∀ g, g ≠ id → (d.Deserted live g ↔ c.Deserted live g) := by
        intro g hg
        rw [Deserted, Deserted, hEntries, if_neg hg]
      have hPromoted : (d.promoteHead id live now).1.BusyBut (some id) := by
        intro id' o' hid hObj'
        rw [promoteHead_other d live now fun h => hid (congrArg some h)] at hObj'
        exact hFreed id' o' hid hObj'
      unfold handOn
      -- only a lane that comes home is offered to the objects that are reserved
      cases hLane : o.ownerLane with
      | none =>
        simp only
        rw [gcObject_busyBut_iff]
        refine iff_of_true hPromoted ?_
        rintro ⟨-, hNe, -⟩
        rw [hEntry] at hNe
        exact hNe hLane
      | some l =>
        simp only
        rw [gcObject_busyBut_iff, BusyBut, releaseLane_objects, ← BusyBut,
          offerLane_busyBut_iff _ hPromoted, promoteHead_meets, Strands, hReady, hEntry]
        refine not_congr ⟨?_, ?_⟩
        · rintro ⟨before, id', after, hEq, hBefore, hid, hDes⟩
          refine ⟨by omega, by simp [hLane], before, id', after, hEq, ?_, hid, (hDeserted id' hid).mp hDes⟩
          exact fun g hg => (hTakes g).not.mp (hBefore g hg)
        · rintro ⟨-, -, before, id', after, hEq, hBefore, hid, hDes⟩
          refine ⟨before, id', after, hEq, ?_, hid, (hDeserted id' hid).mpr hDes⟩
          exact fun g hg => (hTakes g).not.mpr (hBefore g hg)

/-! ## The other methods -/

theorem BusyBut.of_entry (h : c.BusyBut (some id)) (hEntry : ¬ (c.entry id).Idle) : c.BusyBut none := by
  intro id' o' _ hObj
  by_cases hid : id' = id
  · subst hid
    rw [c.entry_of_some _ hObj] at hEntry
    exact hEntry
  · exact h id' o' (fun hEq => hid (Option.some.inj hEq)) hObj

theorem BusyBut.set (h : c.BusyBut (some id)) (hBusy : ¬ o.Idle) : (c.set id o).BusyBut none := by
  refine BusyBut.of_entry (h.update rfl fun hne => absurd rfl hne) ?_
  rw [c.entry_set_self]
  exact hBusy

/-- A call may touch an object nobody has an entry for; if it then goes without a decision, it is
about to queue. -/
theorem BusyBut.tryAcquire (h : c.BusyBut none) (t : TaskId) (epoch : Epoch) (id : ObjectId)
    (label : String) (nested : Bool) :
    (c.tryAcquire t epoch id label nested).1.BusyBut (some id) ∧
      ((c.tryAcquire t epoch id label nested).2 ≠ .wouldQueue none →
        (c.tryAcquire t epoch id label nested).1.BusyBut none) := by
  have hTouched : (({ c with stats.acquisitions := c.stats.acquisitions + 1 } :
      PeerClaims).touchLabel id label).BusyBut (some id) :=
    h.mono.update rfl fun hne => absurd rfl hne
  unfold PeerClaims.tryAcquire
  simp only
  generalize ({ c with stats.acquisitions := c.stats.acquisitions + 1 } :
    PeerClaims).touchLabel id label = d at hTouched
  have hSet : ∀ {o : ObjectClaim}, ¬ o.Idle →
      (d.set id o).BusyBut (some id) ∧ (d.set id o).BusyBut none := fun hBusy =>
    ⟨(hTouched.set hBusy).mono, hTouched.set hBusy⟩
  split
  · next u e hOwner =>
    have hOwned : ¬ (d.entry id).Idle := not_idle_of_owner (by rw [hOwner]; rfl)
    split_ifs
    · exact ⟨hTouched, fun _ => hTouched.of_entry hOwned⟩
    · have hBusy : ¬ ({ d.entry id with depth := (d.entry id).depth + 1 } : ObjectClaim).Idle := hOwned
      exact ⟨(hSet hBusy).1.congr rfl, fun _ => (hSet hBusy).2.congr rfl⟩
    · exact ⟨hTouched, fun _ => hTouched.of_entry hOwned⟩
  · have hOwn : ∀ lane, ¬ ((d.entry id).own t epoch lane).Idle := fun lane => not_idle_of_owner rfl
    split_ifs
    · exact ⟨hTouched, fun hne => absurd rfl hne⟩
    · exact ⟨(hSet (hOwn none)).1, fun _ => (hSet (hOwn none)).2⟩
    · split
      · next lane lanes _ =>
        exact ⟨(hSet (hOwn (some lane))).1.congr rfl, fun _ => (hSet (hOwn (some lane))).2.congr rfl⟩
      · exact ⟨hTouched, fun hne => absurd rfl hne⟩

theorem BusyBut.enqueue (h : c.BusyBut (some id)) (t : TaskId) (epoch : Epoch) (label : String)
    (kind : WaitKind) (now : Nat) : (c.enqueue t epoch id label kind now).BusyBut none := by
  obtain ⟨o, hObjects, -, -, hWaiters⟩ := enqueue_objects c t epoch id label kind now
  have hTouched : (c.touchLabel id label).BusyBut (some id) := h.update rfl fun hne => absurd rfl hne
  refine BusyBut.of_entry (hTouched.update hObjects fun hne => absurd rfl hne) ?_
  rw [entry_of_update hObjects, if_pos rfl]
  rintro ⟨-, hNone, -⟩
  rw [hWaiters] at hNone
  simp at hNone

theorem BusyBut.retract (h : c.BusyBut none) (t : TaskId) (id : ObjectId) :
    (c.retract t id).BusyBut none := by
  unfold PeerClaims.retract
  simp only
  rw [gcObject_busyBut_iff]
  split
  · exact h.mono.update rfl fun hne => absurd rfl hne
  · exact h.mono.congr rfl

theorem BusyBut.requestDrain (h : c.BusyBut none) (t : TaskId) (epoch : Epoch) :
    (c.requestDrain t epoch).1.BusyBut none := by
  unfold PeerClaims.requestDrain
  split_ifs
  · exact h
  · exact h.congr rfl

theorem busyBut_new (label : String) (lanes : Nat) : (PeerClaims.new label lanes).BusyBut none :=
  fun _ _ _ hObj => (by cases hObj)

end PeerClaims

/-! ## Runs -/

namespace Vm

variable {vm vm' : Vm} {t : TaskId} {a : Action}

/-- Every table's entries are owned, reserved or waited for. -/
def NoIdle (vm : Vm) : Prop := ∀ p, (vm.peers p).NoIdle

/-- If the action ends a call, the lane of that call does not come to a deserted object. -/
def StrandsNone (vm : Vm) (a : Action) : Prop :=
  ∀ p id, vm.ends a = some (p, id) → ¬ (vm.peers p).Strands vm.live id

theorem NoIdle.busy (h : vm.NoIdle) (p : PeerId) : (vm.peers p).BusyBut none :=
  PeerClaims.noIdle_iff.mp (h p)

/-- One table is written. -/
theorem NoIdle.update_iff (h : vm.NoIdle) {p : PeerId} {c : PeerClaims}
    (hPeers : vm'.peers = Function.update vm.peers p c) : vm'.NoIdle ↔ c.BusyBut none := by
  unfold NoIdle
  rw [hPeers, ← PeerClaims.noIdle_iff]
  constructor
  · intro hAll
    have hSelf := hAll p
    rwa [Function.update_self] at hSelf
  · intro hc p'
    rw [Function.update_apply]
    split_ifs
    · exact hc
    · exact h p'

theorem NoIdle.congr (h : vm.NoIdle) (hPeers : vm'.peers = vm.peers) : vm'.NoIdle := by
  unfold NoIdle
  rw [hPeers]
  exact h

theorem live_setTask {task : Task} (h : ∀ epoch, task.liveAt epoch = (vm.tasks t).liveAt epoch) :
    (vm.setTask t task).live = vm.live := by
  funext u epoch
  show (Function.update vm.tasks t task u).liveAt epoch = (vm.tasks u).liveAt epoch
  rw [Function.update_apply]
  split_ifs with hu
  · rw [hu, h]
  · rfl

theorem NoIdle.endPeerCallAndWake_iff (h : vm.NoIdle) (p : PeerId) (id : ObjectId) (now : Nat) :
    (vm.endPeerCallAndWake p id now).NoIdle ↔ ¬ (vm.peers p).Strands vm.live id := by
  rw [← PeerClaims.endCall_busy_iff (h.busy p) vm.live now]
  exact h.update_iff rfl

theorem NoIdle.claimPeerObject (h : vm.NoIdle) (t : TaskId) (p : PeerId) (id : ObjectId)
    (label : String) (now : Nat) : (vm.claimPeerObject t p id label now).NoIdle := by
  obtain ⟨hTouched, hDecided⟩ := (h.busy p).tryAcquire t (vm.tasks t).parkEpoch id label
    (waitKind (vm.tasks t) p == .nested)
  unfold Vm.claimPeerObject
  simp only
  generalize (vm.peers p).tryAcquire t (vm.tasks t).parkEpoch id label
    (waitKind (vm.tasks t) p == .nested) = acquired at hTouched hDecided
  obtain ⟨c, decision⟩ := acquired
  replace hTouched : c.BusyBut (some id) := hTouched
  cases decision with
  | granted lane => exact (h.update_iff rfl).mpr (hDecided (fun hEq => (by cases hEq)))
  | reentrant => exact (h.update_iff rfl).mpr (hDecided (fun hEq => (by cases hEq)))
  | tooDeep => exact (h.update_iff rfl).mpr (hDecided (fun hEq => (by cases hEq)))
  | wouldQueue blocker =>
    unfold Vm.awaitClaim
    simp only
    have hSelf : (vm.setPeer p c).peers p = c := Function.update_self _ _ _
    have hTwice : ∀ c' : PeerClaims, ((vm.setPeer p c).setPeer p c').peers =
        Function.update vm.peers p c' := fun c' => Function.update_idem _ _ _
    rw [hSelf]
    split
    · next hCycle =>
      -- a cycle has a blocker, who owns the object
      refine (h.update_iff (hTwice _)).mpr (PeerClaims.BusyBut.congr (hDecided ?_) rfl)
      intro hEq
      injection hEq with hEq
      subst hEq
      cases hCycle
    · exact (h.update_iff (hTwice _)).mpr (hTouched.enqueue _ _ _ _ _)

/-- A task that is not parked on a channel is not waited for, loaded or not. -/
theorem live_load {task : Task} (hRuns : (vm.tasks t).parkedOnChannel = false)
    (hTask : task.parkedOnChannel = false) : ((vm.load t).setTask t task).live = vm.live := by
  have hDead : ∀ {task : Task} (epoch : Epoch), task.parkedOnChannel = false →
      task.liveAt epoch = false := by
    intro task epoch h
    rw [Task.liveAt, h, Bool.false_and, Bool.false_and]
  have hLoad : (vm.load t).live = vm.live :=
    live_setTask fun epoch => by rw [hDead epoch rfl, hDead epoch hRuns]
  rw [← hLoad]
  refine live_setTask fun epoch => ?_
  rw [hDead epoch hTask, hDead epoch (by rw [load, VmOk.setTask_self])]

/-- A task is back from its park: it has the claim, passes it on, or withdraws. -/
theorem NoIdle.resumeClaim_iff (h : vm.NoIdle) {p : PeerId} {id : ObjectId} (now : Nat)
    (hRuns : (vm.tasks t).parkedOnChannel = false) :
    (vm.resumeClaim t p id now).NoIdle ↔
      ((vm.tasks t).wake.isSome = true → (vm.tasks t).cancelRequested = true →
        ¬ (vm.peers p).Strands vm.live id) := by
  unfold Vm.resumeClaim
  simp only
  have hTask : (vm.load t).tasks t =
      { vm.tasks t with parkEpoch := vm.parkSeq + 1, parkedOnChannel := false, wake := none } := by
    rw [load, VmOk.setTask_self]
  have hLive : ((vm.load t).setTask t { (vm.load t).tasks t with park := none }).live = vm.live :=
    live_load hRuns (by rw [hTask])
  have hCancel : ((vm.load t).tasks t).cancelRequested = (vm.tasks t).cancelRequested := by
    rw [hTask]
  have hLoaded : ((vm.load t).setTask t { (vm.load t).tasks t with park := none }).NoIdle :=
    h.congr rfl
  by_cases hCancelled : (vm.tasks t).cancelRequested = true
  · rw [if_pos (hCancel.trans hCancelled)]
    by_cases hWoken : (vm.tasks t).wake.isSome = true
    · rw [if_pos hWoken]
      have hEnds := hLoaded.endPeerCallAndWake_iff p id now
      rw [hLive] at hEnds
      exact ⟨fun h' _ _ => hEnds.mp (h'.congr rfl), fun h' => (hEnds.mpr (h' hWoken hCancelled)).congr rfl⟩
    · rw [if_neg hWoken]
      refine iff_of_true ?_ fun hWoken' => absurd hWoken' hWoken
      exact (h.update_iff rfl).mpr ((h.busy p).retract t id)
  · rw [if_neg (hCancel ▸ hCancelled)]
    refine iff_of_true ?_ fun _ hCancelled' => absurd hCancelled' hCancelled
    split_ifs
    · exact h.congr rfl
    · exact h.congr rfl

/-- **Step lemma.** A step leaves no idle entry if and only if it strands none. -/
theorem NoIdle.step_iff (h : vm.NoIdle) (hStep : vm.step a = some vm') :
    vm'.NoIdle ↔ vm.StrandsNone a := by
  -- a step that ends no call passes on no lane
  have hNothing : vm.ends a = none → vm.StrandsNone a := by
    intro hNone p id hSome
    rw [hNone] at hSome
    cases hSome
  cases a with
  | register p label lanes =>
    rw [Vm.step] at hStep
    split_ifs at hStep
    obtain rfl := Option.some.inj hStep
    exact iff_of_true ((h.update_iff rfl).mpr (PeerClaims.busyBut_new label lanes)) (hNothing rfl)
  | call t p id label now =>
    rw [Vm.step] at hStep
    split_ifs at hStep
    obtain rfl := Option.some.inj hStep
    exact iff_of_true (h.claimPeerObject t p id label now) (hNothing rfl)
  | resume t now =>
    rw [Vm.step] at hStep
    split_ifs at hStep with hParked
    have hRuns : (vm.tasks t).parkedOnChannel = false := by simpa using hParked
    split at hStep
    · next p id kind hPark =>
      obtain rfl := Option.some.inj hStep
      rw [h.resumeClaim_iff now hRuns, StrandsNone, Vm.ends, hPark]
      simp only [Bool.and_eq_true]
      constructor
      · rintro hNot p' id' hEnds
        split_ifs at hEnds with hBoth
        obtain ⟨rfl, rfl⟩ := Prod.mk.inj (Option.some.inj hEnds)
        exact hNot hBoth.1 hBoth.2
      · intro hNot hWoken hCancelled
        exact hNot p id (by rw [if_pos ⟨hWoken, hCancelled⟩])
    · next p hPark =>
      obtain rfl := Option.some.inj hStep
      exact iff_of_true (h.congr rfl) (hNothing (by rw [Vm.ends, hPark]))
    · cases hStep
  | endCall t now =>
    rw [Vm.step] at hStep
    split_ifs at hStep
    split at hStep
    · next p id calls hCalls =>
      obtain rfl := Option.some.inj hStep
      have hLive : (vm.setTask t { vm.tasks t with calls }).live = vm.live :=
        live_setTask fun _ => rfl
      have hClosed : (vm.setTask t { vm.tasks t with calls }).NoIdle := h.congr rfl
      rw [hClosed.endPeerCallAndWake_iff p id now, hLive, StrandsNone, Vm.ends, hCalls]
      constructor
      · rintro hNot p' id' hEnds
        obtain ⟨rfl, rfl⟩ := Prod.mk.inj (Option.some.inj hEnds)
        exact hNot
      · exact fun hNot => hNot p id rfl
    · cases hStep
  | drain t p =>
    rw [Vm.step] at hStep
    split_ifs at hStep
    obtain rfl := Option.some.inj hStep
    refine iff_of_true ?_ (hNothing rfl)
    unfold Vm.drainLanes
    simp only
    have hBusy := (h.busy p).requestDrain t (vm.tasks t).parkEpoch
    split_ifs
    · exact (h.update_iff rfl).mpr hBusy
    · exact (h.update_iff rfl).mpr hBusy
  | cancel t =>
    obtain rfl := Option.some.inj hStep
    exact iff_of_true (h.congr rfl) (hNothing rfl)
  | elsewhere t parked takeCancel =>
    rw [Vm.step] at hStep
    split_ifs at hStep
    obtain rfl := Option.some.inj hStep
    exact iff_of_true (h.congr rfl) (hNothing rfl)

theorem init_noIdle : Vm.init.NoIdle :=
  fun _ => PeerClaims.noIdle_iff.mpr (PeerClaims.busyBut_new "" 1)

/-- **Runs.** No table keeps an idle entry, in any state of a run, if and only if no step of the
run takes a returned lane past a deserted object. -/
theorem no_idle_entries (as : List Action) :
    States Vm.step Vm.NoIdle Vm.init as ↔ Steps Vm.step Vm.StrandsNone Vm.init as :=
  states_iff_steps (fun _ h => h)
    (fun _ _ _ h hok hStep => (h.step_iff hStep).mpr hok)
    (fun _ _ _ h hStep hNext => (h.step_iff hStep).mp hNext) as init_noIdle

/-- Task 2 queues on object 6, which is reserved for it, and is cancelled. When the call of task 1
ends, its lane passes object 6 by. -/
def desertedHead : List Action :=
  [.register 0 "p" 1, .call 1 0 5 "Z" 0, .call 2 0 6 "W" 0, .cancel 2, .resume 2 1, .endCall 1 2]

/-- So an entry that nobody owns, waits for or has reserved stays in the table. -/
theorem desertedHead_leaks :
    ¬ ∀ vm, Reach Vm.step Vm.init vm → ∀ p, (vm.peers p).NoIdle := by
  intro hAll
  have hExec : (exec Vm.step (fun _ _ => True) Vm.init desertedHead).map (fun vm =>
      ((vm.peers 0).objects 6)) = some (some { label := "W#6" }) := by
    decide +kernel
  obtain ⟨vm, hRun, hEnds⟩ := run_of_exec_map hExec
  obtain hOwner | hReserved | hWaiters := hAll vm hRun 0 6 _ hEnds
  · exact hOwner rfl
  · cases hReserved
  · exact hWaiters rfl

end Vm

end Quoin.Claims
