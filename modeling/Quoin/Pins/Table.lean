import Mathlib
import Quoin.Trans.Run

/-!
# Quoin — the pin table

One table keeps the values that native features retain: a vector of slots and
a stack of the free ones (its top is the list's head). A feature addresses its
pins by their tickets, or by a raw index that came over a wire; an access by
index names the kind it expects.

The free stack is, each once, the slots that are empty (`Tidy`). From it
follows that a pin takes a slot nobody holds, and that an access by one kind
never reaches what another pinned (`pinTable_integrity`). `pinOrFind` answers
the first slot with the object under the owner; that remains the first as long
as it is pinned and nobody pins the object again, by `pin`, into a lower one.

## Results

* `pinTable_integrity` — after any sequence of calls a ticket reaches what it was given for, a kind
  only its own, and a slot holds one value;
* `pinOrFind_moves` — an object that is pinned again in a lower slot is found there.
-/

namespace Quoin.Pins

open Trans

/-- What a pin holds: an object, which has an identity, or any other value. -/
inductive Value (Ref Other : Type) where
  | object (obj : Ref)
  | other (value : Other)
  deriving DecidableEq

structure PinOwner where
  kind : String
  id : UInt64
  deriving DecidableEq

structure PinTable (Ref Other : Type) where
  slots : List (Option (PinOwner × Value Ref Other))
  free : List Nat
  deriving DecidableEq

variable {Ref Other : Type}

namespace PinTable

/-- `Default`. -/
def empty : PinTable Ref Other := ⟨[], []⟩

/-- What the slot at an index holds. -/
def entry (t : PinTable Ref Other) (i : Nat) : Option (PinOwner × Value Ref Other) :=
  t.slots[i]?.join

/-- The pin, and its slot; an index on the free stack that is none of the table's panics. -/
def pin (t : PinTable Ref Other) (owner : PinOwner) (value : Value Ref Other) :
    Option (PinTable Ref Other × Nat) :=
  match t.free with
  | i :: free =>
    if i < t.slots.length then some (⟨t.slots.set i (some (owner, value)), free⟩, i) else none
  | [] => some (⟨t.slots ++ [some (owner, value)], []⟩, t.slots.length)

def get (t : PinTable Ref Other) (id : Nat) : Option (Value Ref Other) :=
  (t.entry id).map Prod.snd

/-- The slot holds this object under this owner. -/
def holds [DecidableEq Ref] (owner : PinOwner) (obj : Ref) :
    Option (PinOwner × Value Ref Other) → Bool
  | some (o, .object existing) => o == owner && existing == obj
  | _ => false

def pinOrFind [DecidableEq Ref] (t : PinTable Ref Other) (owner : PinOwner) :
    Value Ref Other → Option (PinTable Ref Other × Nat)
  | .object obj =>
    match t.slots.findIdx? (holds owner obj) with
    | some i => some (t, i)
    | none => t.pin owner (.object obj)
  | value => t.pin owner value

def getAt (t : PinTable Ref Other) (index : Nat) (kind : String) : Option (Value Ref Other) :=
  match t.entry index with
  | some (o, v) => if o.kind = kind then some v else none
  | none => none

/-- A slot is emptied, and its index pushed. -/
def release (t : PinTable Ref Other) (index : Nat) : PinTable Ref Other :=
  ⟨t.slots.set index none, index :: t.free⟩

def unpinAt (t : PinTable Ref Other) (index : Nat) (kind : String) : PinTable Ref Other :=
  match t.entry index with
  | some (o, _) => if o.kind = kind then t.release index else t
  | none => t

def unpin (t : PinTable Ref Other) (id : Nat) : PinTable Ref Other × Option (Value Ref Other) :=
  match t.entry id with
  | some (_, v) => (t.release id, some v)
  | none => (t, none)

/-- The loop of `unpin_owned`, over the indices from `i` on. -/
def unpinOwnedFrom (owner : PinOwner) : Nat → Nat → PinTable Ref Other → PinTable Ref Other × Nat
  | _, 0, t => (t, 0)
  | i, n + 1, t =>
    match t.entry i with
    | some (o, _) =>
      if o = owner then
        let (t, released) := unpinOwnedFrom owner (i + 1) n (t.release i)
        (t, released + 1)
      else unpinOwnedFrom owner (i + 1) n t
    | none => unpinOwnedFrom owner (i + 1) n t

def unpinOwned (t : PinTable Ref Other) (owner : PinOwner) : PinTable Ref Other × Nat :=
  unpinOwnedFrom owner 0 t.slots.length t

end PinTable

/-- A call on the table. -/
inductive Call (Ref Other : Type) where
  | pin (owner : PinOwner) (value : Value Ref Other)
  | pinOrFind (owner : PinOwner) (value : Value Ref Other)
  | get (id : Nat)
  | getAt (index : Nat) (kind : String)
  | unpinAt (index : Nat) (kind : String)
  | unpin (id : Nat)
  | unpinOwned (owner : PinOwner)
  deriving DecidableEq

/-- The table after a call, `none` if it panics. -/
def step [DecidableEq Ref] (t : PinTable Ref Other) : Call Ref Other → Option (PinTable Ref Other)
  | .pin owner value => (t.pin owner value).map Prod.fst
  | .pinOrFind owner value => (t.pinOrFind owner value).map Prod.fst
  | .get _ => some t
  | .getAt _ _ => some t
  | .unpinAt index kind => some (t.unpinAt index kind)
  | .unpin id => some (t.unpin id).1
  | .unpinOwned owner => some (t.unpinOwned owner).1

/-! ## What a call does to the entries -/

/-- The free stack is the empty slots, each once. -/
structure Tidy (t : PinTable Ref Other) : Prop where
  free_nodup : t.free.Nodup
  free_iff : ∀ i, i ∈ t.free ↔ t.slots[i]? = some none

variable {t t' : PinTable Ref Other} {owner : PinOwner} {value : Value Ref Other} {i j : Nat}

theorem tidy_empty : Tidy (PinTable.empty : PinTable Ref Other) :=
  ⟨List.nodup_nil, fun i => by simp [PinTable.empty]⟩

theorem entry_release : (t.release i).entry j = if j = i then none else t.entry j := by
  unfold PinTable.entry PinTable.release
  rw [List.getElem?_set]
  by_cases h : i = j
  · subst h
    by_cases hLength : i < t.slots.length <;> simp [hLength]
  · rw [if_neg h, if_neg (Ne.symm h)]

theorem Tidy.release (h : Tidy t) {x : PinOwner × Value Ref Other} (hx : t.entry i = some x) :
    Tidy (t.release i) := by
  have hSlot : t.slots[i]? = some (some x) := Option.join_eq_some_iff.mp hx
  have hLength : i < t.slots.length := (List.getElem?_eq_some_iff.mp hSlot).1
  constructor
  · refine List.nodup_cons.mpr ⟨fun hMem => ?_, h.free_nodup⟩
    cases hSlot.symm.trans ((h.free_iff i).mp hMem)
  · intro j
    rw [PinTable.release, List.mem_cons, h.free_iff, List.getElem?_set]
    by_cases hj : i = j
    · subst hj
      simp [hLength]
    · simp [hj, Ne.symm hj]

/-- A pin takes a slot nobody holds, and leaves the others alone. -/
theorem Tidy.pin (h : Tidy t) (owner : PinOwner) (value : Value Ref Other) :
    ∃ t' i, t.pin owner value = some (t', i) ∧ t.entry i = none ∧
      t'.entry = Function.update t.entry i (some (owner, value)) ∧ Tidy t' := by
  unfold PinTable.pin
  cases hFree : t.free with
  | nil =>
    -- no slot is free: the value gets a new one
    refine ⟨_, _, rfl, ?_, ?_, ?_⟩
    · simp [PinTable.entry]
    · funext j
      unfold PinTable.entry
      rw [Function.update_apply, List.getElem?_append]
      split_ifs with hLow hEq hEq
      · omega
      · rfl
      · simp [hEq]
      · rw [List.getElem?_eq_none (by simp; omega), List.getElem?_eq_none (by omega)]
    · refine ⟨List.nodup_nil, fun j => ?_⟩
      have hNone : t.slots[j]? ≠ some none := fun hSlot => by
        simpa [hFree] using (h.free_iff j).mpr hSlot
      rw [List.getElem?_append]
      split_ifs with hLow
      · simp [hNone]
      · cases hj : j - t.slots.length <;> simp
  | cons i free =>
    -- the slot that was freed last gets it
    have hSlot : t.slots[i]? = some none := (h.free_iff i).mp (by rw [hFree]; exact .head _)
    have hLength : i < t.slots.length := (List.getElem?_eq_some_iff.mp hSlot).1
    have hNodup := h.free_nodup
    rw [hFree, List.nodup_cons] at hNodup
    refine ⟨⟨t.slots.set i (some (owner, value)), free⟩, i, if_pos hLength, ?_, ?_, ?_⟩
    · rw [PinTable.entry, hSlot]
      rfl
    · funext j
      unfold PinTable.entry
      rw [Function.update_apply, List.getElem?_set]
      by_cases hj : i = j
      · subst hj
        simp [hLength]
      · rw [if_neg hj, if_neg (Ne.symm hj)]
    · refine ⟨hNodup.2, fun j => ?_⟩
      have hIff := h.free_iff j
      rw [hFree, List.mem_cons] at hIff
      show j ∈ free ↔ (t.slots.set i (some (owner, value)))[j]? = some none
      rw [List.getElem?_set]
      by_cases hj : i = j
      · subst hj
        simp [hNodup.1]
      · rw [if_neg hj, ← hIff]
        simp [Ne.symm hj]

theorem Tidy.of_pin (h : Tidy t) (hPin : t.pin owner value = some (t', i)) :
    t.entry i = none ∧ t'.entry = Function.update t.entry i (some (owner, value)) ∧ Tidy t' := by
  obtain ⟨t'', i', hPin', hRest⟩ := h.pin owner value
  rw [hPin] at hPin'
  obtain ⟨rfl, rfl⟩ := Prod.mk.inj (Option.some.inj hPin')
  exact hRest

/-- The call only empties slots. -/
def Releases (t t' : PinTable Ref Other) : Prop := ∀ j, t'.entry j = t.entry j ∨ t'.entry j = none

theorem unpinAt_eq (t : PinTable Ref Other) (i : Nat) (kind : String) :
    (∃ o v, t.entry i = some (o, v) ∧ o.kind = kind ∧ t.unpinAt i kind = t.release i) ∨
      (∀ o v, t.entry i = some (o, v) → o.kind ≠ kind) ∧ t.unpinAt i kind = t := by
  unfold PinTable.unpinAt
  cases hEntry : t.entry i with
  | none => exact .inr ⟨fun o v h => (by cases h), rfl⟩
  | some x =>
    obtain ⟨o, v⟩ := x
    by_cases hKind : o.kind = kind
    · exact .inl ⟨o, v, rfl, hKind, if_pos hKind⟩
    · refine .inr ⟨fun o' v' h => ?_, if_neg hKind⟩
      obtain ⟨rfl, rfl⟩ := Prod.mk.inj (Option.some.inj h)
      exact hKind

theorem getAt_eq_some_iff {kind : String} :
    t.getAt i kind = some value ↔ ∃ o, t.entry i = some (o, value) ∧ o.kind = kind := by
  unfold PinTable.getAt
  cases hEntry : t.entry i with
  | none => simp
  | some x =>
    obtain ⟨o, v⟩ := x
    simp only [Option.ite_none_right_eq_some, Option.some.injEq, Prod.mk.injEq]
    constructor
    · rintro ⟨hKind, rfl⟩
      exact ⟨o, ⟨rfl, rfl⟩, hKind⟩
    · rintro ⟨o', ⟨rfl, rfl⟩, hKind⟩
      exact ⟨hKind, rfl⟩

theorem Tidy.releases_release (h : Tidy t) {x : PinOwner × Value Ref Other}
    (hx : t.entry i = some x) : Tidy (t.release i) ∧ Releases t (t.release i) := by
  refine ⟨h.release hx, fun j => ?_⟩
  rw [entry_release]
  split_ifs
  · exact .inr rfl
  · exact .inl rfl

theorem Tidy.unpinOwnedFrom (n : Nat) : ∀ {t : PinTable Ref Other} {i : Nat}, Tidy t →
    Tidy (PinTable.unpinOwnedFrom owner i n t).1 ∧
      Releases t (PinTable.unpinOwnedFrom owner i n t).1 := by
  induction n with
  | zero => exact fun h => ⟨h, fun _ => .inl rfl⟩
  | succ n ih =>
    intro t i h
    rw [PinTable.unpinOwnedFrom]
    split
    · next o v hEntry =>
      split_ifs
      · obtain ⟨hTidy, hReleases⟩ := h.releases_release hEntry
        obtain ⟨hTidy', hReleases'⟩ := ih (i := i + 1) hTidy
        refine ⟨hTidy', fun j => ?_⟩
        obtain hSame | hNone := hReleases' j
        · rw [hSame]
          exact hReleases j
        · exact .inr hNone
      · exact ih h
    · exact ih h

variable [DecidableEq Ref] {call : Call Ref Other} {obj : Ref}

theorem holds_iff {entry : Option (PinOwner × Value Ref Other)} :
    PinTable.holds owner obj entry = true ↔ entry = some (owner, .object obj) := by
  unfold PinTable.holds
  split
  · next o existing =>
    simp only [Bool.and_eq_true, beq_iff_eq, Option.some.injEq, Prod.mk.injEq,
      Value.object.injEq]
  · next hNone =>
    exact ⟨fun h => (by cases h), fun h => absurd h (hNone owner obj)⟩

/-- Slot `i` is the first with the object under the owner. -/
structure First (t : PinTable Ref Other) (owner : PinOwner) (obj : Ref) (i : Nat) : Prop where
  here : t.entry i = some (owner, .object obj)
  before : ∀ j, j < i → t.entry j ≠ some (owner, .object obj)

theorem findIdx_eq_some_iff :
    t.slots.findIdx? (PinTable.holds owner obj) = some i ↔ First t owner obj i := by
  rw [List.findIdx?_eq_some_iff_getElem]
  constructor
  · rintro ⟨hLength, hHere, hBefore⟩
    refine ⟨?_, fun j hj hEntry => ?_⟩
    · rw [PinTable.entry, List.getElem?_eq_getElem hLength]
      exact holds_iff.mp hHere
    · rw [PinTable.entry, List.getElem?_eq_getElem (hj.trans hLength)] at hEntry
      exact hBefore j hj (holds_iff.mpr hEntry)
  · rintro ⟨hHere, hBefore⟩
    have hLength := (List.getElem?_eq_some_iff.mp (Option.join_eq_some_iff.mp hHere)).1
    refine ⟨hLength, holds_iff.mpr ?_, fun j hj hHolds => hBefore j hj ?_⟩
    · rwa [PinTable.entry, List.getElem?_eq_getElem hLength] at hHere
    · rw [PinTable.entry, List.getElem?_eq_getElem (hj.trans hLength)]
      exact holds_iff.mp hHolds

theorem findIdx_eq_none (h : t.slots.findIdx? (PinTable.holds owner obj) = none) :
    t.entry j ≠ some (owner, .object obj) := by
  intro hEntry
  have hSlot := Option.join_eq_some_iff.mp hEntry
  have hNone := List.findIdx?_eq_none_iff.mp h _ (List.mem_of_getElem? hSlot)
  rw [holds_iff.mpr rfl] at hNone
  cases hNone

/-- `pin_or_find` finds the first slot with the object, or pins it where nobody has. -/
theorem Tidy.pinOrFind (h : Tidy t) (owner : PinOwner) (obj : Ref) :
    ∃ t' i, t.pinOrFind owner (.object obj) = some (t', i) ∧ First t' owner obj i ∧
      (t' = t ∨ (∀ j, t.entry j ≠ some (owner, .object obj)) ∧
        t.pin owner (.object obj) = some (t', i)) := by
  rw [PinTable.pinOrFind]
  cases hFind : t.slots.findIdx? (PinTable.holds owner obj) with
  | some i => exact ⟨t, i, rfl, findIdx_eq_some_iff.mp hFind, .inl rfl⟩
  | none =>
    have hNone : ∀ j, t.entry j ≠ some (owner, .object obj) := fun _ => findIdx_eq_none hFind
    obtain ⟨t', i, hPin, -, hEntry, -⟩ := h.pin owner (.object obj)
    refine ⟨t', i, hPin, ⟨?_, fun j hj => ?_⟩, .inr ⟨hNone, hPin⟩⟩
    · rw [hEntry, Function.update_self]
    · rw [hEntry, Function.update_of_ne hj.ne]
      exact hNone j

/-- What a call can do: nothing but release, or pin in a slot nobody holds. -/
inductive Move (t : PinTable Ref Other) (call : Call Ref Other) (t' : PinTable Ref Other) : Prop
  | releases (h : Releases t t')
  | pins (owner : PinOwner) (value : Value Ref Other) (i : Nat)
      (hCall : call = .pin owner value ∨ call = .pinOrFind owner value)
      (hPin : t.pin owner value = some (t', i))
      (hFresh : ∀ obj, call = .pinOrFind owner (.object obj) →
        ∀ j, t.entry j ≠ some (owner, .object obj))

/-- No call panics, and each of them keeps the free stack tidy. -/
theorem Tidy.step (h : Tidy t) (call : Call Ref Other) :
    ∃ t', step t call = some t' ∧ Tidy t' ∧ Move t call t' := by
  cases call with
  -- a pin takes a slot; finding takes one only where the object has none
  | pin owner value =>
    obtain ⟨t', i, hPin, -, -, hTidy⟩ := h.pin owner value
    exact ⟨t', by rw [Pins.step, hPin]; rfl, hTidy,
      .pins owner value i (.inl rfl) hPin fun obj hCall => by cases hCall⟩
  | pinOrFind owner value =>
    cases value with
    | other v =>
      obtain ⟨t', i, hPin, -, -, hTidy⟩ := h.pin owner (.other v)
      exact ⟨t', by rw [Pins.step, PinTable.pinOrFind, hPin] <;> simp, hTidy,
        .pins owner _ i (.inr rfl) hPin fun obj hCall => by cases hCall⟩
    | object obj =>
      obtain ⟨t', i, hFind, -, hMove⟩ := h.pinOrFind owner obj
      refine ⟨t', by rw [Pins.step, hFind]; rfl, ?_⟩
      obtain rfl | ⟨hNone, hPin⟩ := hMove
      · exact ⟨h, .releases fun _ => .inl rfl⟩
      · refine ⟨(h.of_pin hPin).2.2, .pins owner _ i (.inr rfl) hPin fun obj' hCall => ?_⟩
        obtain rfl := Value.object.inj (Call.pinOrFind.inj hCall).2
        exact hNone
  -- lookups change nothing
  | get id => exact ⟨t, rfl, h, .releases fun _ => .inl rfl⟩
  | getAt index kind => exact ⟨t, rfl, h, .releases fun _ => .inl rfl⟩
  -- an unpin frees the slot if the handle is one of the table's
  | unpinAt index kind =>
    refine ⟨_, rfl, ?_⟩
    obtain ⟨o, v, hEntry, -, hEq⟩ | ⟨-, hEq⟩ := unpinAt_eq t index kind
    · rw [hEq]
      obtain ⟨hTidy, hReleases⟩ := h.releases_release hEntry
      exact ⟨hTidy, .releases hReleases⟩
    · rw [hEq]
      exact ⟨h, .releases fun _ => .inl rfl⟩
  | unpin id =>
    refine ⟨_, rfl, ?_⟩
    unfold PinTable.unpin
    split
    · next o v hEntry =>
      obtain ⟨hTidy, hReleases⟩ := h.releases_release hEntry
      exact ⟨hTidy, .releases hReleases⟩
    · exact ⟨h, .releases fun _ => .inl rfl⟩
  | unpinOwned owner =>
    obtain ⟨hTidy, hReleases⟩ := @Tidy.unpinOwnedFrom _ _ owner t.slots.length t 0 h
    exact ⟨_, rfl, hTidy, .releases hReleases⟩

theorem Tidy.of_step (h : Tidy t) (hs : Pins.step t call = some t') :
    Tidy t' ∧ Move t call t' := by
  obtain ⟨t'', hs', hRest⟩ := h.step call
  rw [hs] at hs'
  obtain rfl := Option.some.inj hs'
  exact hRest

/-! ## Runs -/

/-- The tables that calls make of an empty one. -/
def Reached (t : PinTable Ref Other) : Prop := Reach step PinTable.empty t

theorem Reached.tidy (h : Reached t) : Tidy t :=
  Run.invariant tidy_empty (fun _ _ _ hTidy _ hs => (hTidy.of_step hs).1) h

/-- The call leaves slot `i` pinned. -/
def LeavesPinned (i : Nat) (t : PinTable Ref Other) (call : Call Ref Other) : Prop :=
  ∀ t', step t call = some t' → t'.entry i ≠ none

/-- No plain `pin` of the object under the owner takes a slot below `i`. -/
def PinsAbove (owner : PinOwner) (obj : Ref) (i : Nat) (t : PinTable Ref Other)
    (call : Call Ref Other) : Prop :=
  call = .pin owner (.object obj) → ∀ t' j, t.pin owner (.object obj) = some (t', j) → i < j

theorem First.kept (h : Tidy t) (hFirst : First t owner obj i) (hs : step t call = some t')
    (hPinned : LeavesPinned i t call) (hAbove : PinsAbove owner obj i t call) :
    First t' owner obj i := by
  have hLive := hPinned t' hs
  obtain ⟨-, hMove⟩ := h.of_step hs
  cases hMove with
  | releases hReleases =>
    have hSame := (hReleases i).resolve_right hLive
    refine ⟨hSame.trans hFirst.here, fun j hj hEntry => ?_⟩
    obtain hSame | hNone := hReleases j
    · exact hFirst.before j hj (hSame.symm.trans hEntry)
    · cases hNone.symm.trans hEntry
  | pins o v k hCall hPin hFresh =>
    obtain ⟨hFree, hEntry, -⟩ := h.of_pin hPin
    have hik : i ≠ k := fun hik => by
      rw [← hik, hFirst.here] at hFree
      cases hFree
    refine ⟨by rw [hEntry, Function.update_of_ne hik, hFirst.here], fun j hj hThere => ?_⟩
    rw [hEntry] at hThere
    by_cases hjk : j = k
    · -- the object is pinned once more, so by `pin`, and above `i`
      rw [hjk, Function.update_self] at hThere
      obtain ⟨rfl, rfl⟩ := Prod.mk.inj (Option.some.inj hThere)
      obtain rfl | rfl := hCall
      · have := hAbove rfl t' k hPin
        omega
      · exact hFresh obj rfl i hFirst.here
    · rw [Function.update_of_ne hjk] at hThere
      exact hFirst.before j hj hThere

/-- As long as its slot stays pinned, what `pin_or_find` answered remains the first slot with the
object. -/
theorem First.run {s : PinTable Ref Other} (h : Tidy t) (hFirst : First t owner obj i)
    (hRun : Run step (fun t call => LeavesPinned i t call ∧ PinsAbove owner obj i t call) t s) :
    Tidy s ∧ First s owner obj i := by
  refine Run.invariant (P := fun s => Tidy s ∧ First s owner obj i) ⟨h, hFirst⟩ ?_ hRun
  rintro s call s' ⟨hTidy, hFirst⟩ ⟨hPinned, hAbove⟩ hs
  exact ⟨(hTidy.of_step hs).1, hFirst.kept hTidy hs hPinned hAbove⟩

/-- After any calls that are `ok`, the object is found in slot `i`. -/
def FoundAgain (ok : PinTable Ref Other → Call Ref Other → Prop) (t : PinTable Ref Other)
    (owner : PinOwner) (obj : Ref) (i : Nat) : Prop :=
  ∀ s s' j, Run step ok t s → s.pinOrFind owner (.object obj) = some (s', j) → j = i

/-- What every reachable table owes. -/
structure Integrity (t : PinTable Ref Other) : Prop where
  free_nodup : t.free.Nodup
  free_iff : ∀ i, i ∈ t.free ↔ t.slots[i]? = some none
  pin : ∀ owner value, ∃ t' i, t.pin owner value = some (t', i) ∧ t.entry i = none ∧
    t'.entry = Function.update t.entry i (some (owner, value))
  getAt : ∀ i kind v, t.getAt i kind = some v ↔ ∃ o, t.entry i = some (o, v) ∧ o.kind = kind
  unpinAt : ∀ i kind, (∃ o v, t.entry i = some (o, v) ∧ o.kind = kind ∧
      t.unpinAt i kind = t.release i) ∨
    (∀ o v, t.entry i = some (o, v) → o.kind ≠ kind) ∧ t.unpinAt i kind = t
  pinOrFind : ∀ owner obj, ∃ t' i, t.pinOrFind owner (.object obj) = some (t', i) ∧
    t'.entry i = some (owner, .object obj) ∧
      FoundAgain (fun t call => LeavesPinned i t call ∧ PinsAbove owner obj i t call)
        t' owner obj i

theorem pinTable_integrity (h : Reached t) : Integrity t where
  free_nodup := h.tidy.free_nodup
  free_iff := h.tidy.free_iff
  pin owner value := by
    obtain ⟨t', i, hPin, hFree, hEntry, -⟩ := h.tidy.pin owner value
    exact ⟨t', i, hPin, hFree, hEntry⟩
  getAt i kind v := getAt_eq_some_iff
  unpinAt := unpinAt_eq t
  pinOrFind owner obj := by
    obtain ⟨t', i, hFind, hFirst, hMove⟩ := h.tidy.pinOrFind owner obj
    have hTidy : Tidy t' := by
      obtain rfl | ⟨-, hPin⟩ := hMove
      · exact h.tidy
      · exact (h.tidy.of_pin hPin).2.2
    refine ⟨t', i, hFind, hFirst.here, fun s s' j hRun hFind' => ?_⟩
    obtain ⟨hTidy, hStill⟩ := hFirst.run hTidy hRun
    rw [PinTable.pinOrFind, findIdx_eq_some_iff.mpr hStill] at hFind'
    exact (Prod.mk.inj (Option.some.inj hFind')).2.symm

section Example

def hosted : PinOwner := ⟨"hosted", 0⟩

def service : PinOwner := ⟨"service", 0⟩

/-- Two objects are hosted, and the first is released: its slot is free below the second's. -/
def reused : PinTable Nat Nat := ⟨[none, some (hosted, .object 1)], [0]⟩

theorem reached_reused : Reached reused := by
  have hExec : exec step (fun _ _ => True) PinTable.empty
      [.pinOrFind hosted (.object 0), .pinOrFind hosted (.object 1), .unpinAt 0 "hosted"] =
        some reused := by decide
  exact run_of_exec hExec

/-- The table of the two objects, with a free slot below the one that is taken. -/
theorem pinTable_integrity_reused : Integrity reused := pinTable_integrity reached_reused

/-- Another owner's pin of the object is another slot, and a plain `pin` of it in a lower slot is
found from then on, while the slot found first stays pinned. -/
theorem pinOrFind_moves :
    Reached reused ∧ reused.pinOrFind hosted (.object 1) = some (reused, 1) ∧
      ¬ FoundAgain (LeavesPinned 1) reused service 1 1 ∧
        ¬ FoundAgain (LeavesPinned 1) reused hosted 1 1 := by
  refine ⟨reached_reused, by decide, ?_, ?_⟩
  · intro h
    have := h reused ⟨[some (service, .object 1), some (hosted, .object 1)], []⟩ 0 .refl (by decide)
    cases this
  · intro h
    have hPin : step reused (.pin hosted (.object 1)) =
        some ⟨[some (hosted, .object 1), some (hosted, .object 1)], []⟩ := by decide
    have hLeaves : LeavesPinned 1 reused (.pin hosted (.object 1)) := by
      intro t' hs
      rw [hPin] at hs
      obtain rfl := Option.some.inj hs
      decide
    have := h _ ⟨[some (hosted, .object 1), some (hosted, .object 1)], []⟩ 0
      (.tail .refl hLeaves hPin) (by decide)
    cases this

end Example

end Quoin.Pins
