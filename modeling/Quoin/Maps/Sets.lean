import Mathlib
import Quoin.Maps.Refines

/-!
# Quoin — the set store

`NativeSetState`: the elements of a set in insertion order, each with its hash, and
an index as a map's. It does what a map does whose keys are the elements
(`asMap`), and so is a list of distinct elements as the map is one of entries
(`map_set_refine`).

## Results

* `map_set_refine` — in every run whose keys fit, a map is a list of entries and a set one of
  elements, whichever of the two tiers holds it;
* `map_set_refine_rounded` — a key that is equal to another and has another hash.
-/

namespace Quoin.Maps

open NativeMapState

/-! ## The store -/

structure SetEntry (V : Type) where
  hash : UInt64
  value : V

structure NativeSetState (V T : Type) where
  entries : List (SetEntry V)
  index : Std.HashMap UInt64 (List UInt32)
  elem : Option T

namespace NativeSetState

variable {V T E : Type} (s : NativeSetState V T)

/-- `SMALL_LINEAR_MAX` of set.rs. -/
def SMALL_LINEAR_MAX : Nat := 16

def newEmpty (elem : Option T) : NativeSetState V T := ⟨[], ∅, elem⟩

def indexed : Bool := SMALL_LINEAR_MAX < s.entries.length

/-- `build_index`. -/
def buildIndex : NativeSetState V T :=
  { s with
    index := s.entries.zipIdx.foldl (fun index (e, i) => pushIndex index e.hash (.ofNat i)) ∅ }

/-- `entries[i]`, with its position. -/
def candidate (i : UInt32) : Except (Fault E) (UInt32 × V) :=
  match s.entries[i.toNat]? with
  | some e => .ok (i, e.value)
  | none => .error .panic

/-- `bucket`: a scan of the hashes, or the index's list. -/
def bucket (hash : UInt64) : Except (Fault E) (List (UInt32 × V)) :=
  if s.indexed then (s.index.getD hash []).mapM s.candidate
  else ((s.entries.zipIdx.filter fun (e, _) => e.hash = hash).map
    fun (_, i) => UInt32.ofNat i).mapM s.candidate

/-- `append`. -/
def append (hash : UInt64) (value : V) : NativeSetState V T :=
  let s' := { s with entries := s.entries ++ [SetEntry.mk hash value] }
  if s'.indexed then
    if s.index.isEmpty then s'.buildIndex
    else { s' with index := pushIndex s.index hash (.ofNat s.entries.length) }
  else s'

/-- `remove_at`. -/
def removeAt (i : UInt32) : Except (Fault E) (NativeSetState V T) :=
  if i.toNat < s.entries.length then
    let s' := { s with entries := s.entries.eraseIdx i.toNat }
    .ok (if s'.indexed then s'.buildIndex else { s' with index := ∅ })
  else .error .panic

end NativeSetState

/-! ## The operations -/

section Operations

variable {U E : Type} [DecidableEq U]

/-- A set of values. -/
abbrev SetState (U : Type) := NativeSetState (Value U) ElemTag

variable (vm : Dispatch U E)

/-- `set_find`, with the ladder of the maps. -/
def setFind (s : SetState U) (value : Value U) : Except (Fault E) (UInt64 × Option UInt32) := do
  let hash ← mapHashKey vm value
  return (hash, ← mapFindPrehashed.firstEqual vm value (← s.bucket hash))

/-- `set_add`. -/
def setAdd (s : SetState U) (value : Value U) : Except (Fault E) (SetState U) := do
  match ← setFind vm s value with
  | (_, some _) => return s
  | (hash, none) => return s.append hash value

/-- `set_remove`, and the native `remove:`. -/
def setRemove (s : SetState U) (value : Value U) : Except (Fault E) (SetState U) := do
  match ← setFind vm s value with
  | (_, some i) => s.removeAt i
  | (_, none) => return s

/-- What a program does to a set: `add:`, `contains?:`, `remove:`, and going on with an empty one
like it (`emptyLike`). -/
inductive SetOp (U : Type) where
  | add (value : Value U)
  | contains (value : Value U)
  | remove (value : Value U)
  | clear

namespace SetOp

def value? : SetOp U → Option (Value U)
  | .add value | .contains value | .remove value => some value
  | .clear => none

def stored? : SetOp U → Option (Value U)
  | .add value => some value
  | .contains _ | .remove _ | .clear => none

/-- The answer, and the set afterwards. -/
def apply (s : SetState U) : SetOp U → Answer E U × SetState U
  | .add value => MapOp.settle s do
    checkInsert vm s.elem value
    return (none, ← setAdd vm s value)
  | .contains value => MapOp.settle s do
    return (some (.bool (← setFind vm s value).2.isSome), s)
  | .remove value => MapOp.settle s do return (none, ← setRemove vm s value)
  | .clear => (.ok none, .newEmpty s.elem)

abbrev find (value : Value U) (l : List (Value U)) : Option Nat :=
  Ordered.find id Value.nativeEq value l

/-- What it is to do to a list of elements; `check` is the check of a stored element. -/
def spec (check : Value U → Except (Fault E) Unit) (l : List (Value U)) :
    SetOp U → Answer E U × List (Value U)
  | .add value =>
    match check value with
    | .ok () => (.ok none, Ordered.put id Value.nativeEq value id value l)
    | .error e => (.error e, l)
  | .contains value => (.ok (some (.bool (find value l).isSome)), l)
  | .remove value => (.ok none, Ordered.remove id Value.nativeEq value l)
  | .clear => (.ok none, [])

end SetOp

/-! ## A set as a map -/

namespace NativeSetState

variable {vm} {s s' : SetState U} {hash : UInt64} {value : Value U}

/-- The map whose keys are the elements. -/
def asMap (s : SetState U) : MapState U :=
  ⟨s.entries.map fun e => ⟨e.hash, e.value, .nil⟩, s.index, s.elem⟩

/-- The elements, in order. -/
def listed (s : SetState U) : List (Value U) := s.entries.map SetEntry.value

omit [DecidableEq U] in
theorem asMap_indexed : (asMap s).indexed = s.indexed := by
  unfold NativeMapState.indexed NativeSetState.indexed asMap
  rw [List.length_map]
  rfl

omit [DecidableEq U] in
theorem listed_eq : s.listed = (asMap s).listed.map Prod.fst := by
  unfold asMap NativeMapState.listed listed
  rw [List.map_map, List.map_map]
  rfl

omit [DecidableEq U] in
theorem zipIdx_asMap : (asMap s).entries.zipIdx =
    s.entries.zipIdx.map fun (e, i) => (⟨e.hash, e.value, .nil⟩, i) := List.zipIdx_map ..

omit [DecidableEq U] in
theorem asMap_bucket : ((asMap s).bucket hash : Except (Fault E) _) = s.bucket hash := by
  have hCandidate : (fun i => do return (i, (← (asMap s).entryAt i).key)) =
      (s.candidate : UInt32 → Except (Fault E) _) := by
    funext i
    unfold NativeMapState.entryAt candidate asMap
    rw [List.getElem?_map]
    cases s.entries[i.toNat]? <;> rfl
  have hPositions : positions (asMap s).entries hash =
      (s.entries.zipIdx.filter fun (e, _) => e.hash = hash).map fun (_, i) => UInt32.ofNat i := by
    rw [positions, zipIdx_asMap, List.filter_map, List.map_map]
    rfl
  unfold NativeMapState.bucket NativeMapState.candidates NativeSetState.bucket
  rw [hCandidate, asMap_indexed, hPositions]
  split <;> rfl

omit [DecidableEq U] in
theorem asMap_buildIndex : asMap s.buildIndex = (asMap s).buildIndex := by
  unfold NativeMapState.buildIndex NativeSetState.buildIndex
  rw [zipIdx_asMap, List.foldl_map]
  rfl

omit [DecidableEq U] in
theorem asMap_append : asMap (s.append hash value) = (asMap s).append hash value .nil := by
  have hEntries : asMap { s with entries := s.entries ++ [⟨hash, value⟩] } =
      { asMap s with entries := (asMap s).entries ++ [⟨hash, value, .nil⟩] } := by
    unfold asMap
    rw [List.map_append]
    rfl
  have hLength : (asMap s).entries.length = s.entries.length := List.length_map _
  have hIndex : (asMap s).index = s.index := rfl
  unfold NativeSetState.append NativeMapState.append
  dsimp only
  rw [← hEntries, asMap_indexed, hLength, hIndex]
  split_ifs with hIndexed hEmpty
  · exact asMap_buildIndex
  · unfold asMap
    rw [List.map_append]
    rfl
  · rfl

omit [DecidableEq U] in
theorem asMap_removeAt {i : UInt32} : ((asMap s).removeAt i : Except (Fault E) _) =
    (s.removeAt i).map fun s' => (.nil, asMap s') := by
  have hEntries : asMap { s with entries := s.entries.eraseIdx i.toNat } =
      { asMap s with entries := (asMap s).entries.eraseIdx i.toNat } := by
    unfold asMap
    rw [List.eraseIdx_map]
  have hEntry : (asMap s).entries[i.toNat]? =
      s.entries[i.toNat]?.map fun e => ⟨e.hash, e.value, .nil⟩ := List.getElem?_map ..
  unfold NativeMapState.removeAt NativeMapState.entryAt NativeSetState.removeAt
  rw [hEntry]
  by_cases hLt : i.toNat < s.entries.length
  · rw [if_pos hLt, List.getElem?_eq_getElem hLt]
    dsimp only [Option.map_some, bind, Except.bind]
    rw [← hEntries, asMap_indexed]
    split_ifs with hIndexed
    · rw [← asMap_buildIndex]
      rfl
    · have hErased : (asMap s).entries.eraseIdx i.toNat =
          (s.entries.eraseIdx i.toNat).map fun e => ⟨e.hash, e.value, .nil⟩ :=
        List.eraseIdx_map ..
      rw [hErased]
      rfl
  · rw [if_neg hLt, List.getElem?_eq_none (by omega)]
    rfl

omit [DecidableEq U] in
theorem removeAt_of_asMap {i : UInt32} {v : Value U} {m' : MapState U}
    (hRemove : (asMap s).removeAt i = (.ok (v, m') : Except (Fault E) _)) :
    ∃ s', s.removeAt i = (.ok s' : Except (Fault E) _) ∧ asMap s' = m' := by
  rw [asMap_removeAt] at hRemove
  cases hErased : (s.removeAt i : Except (Fault E) _) with
  | error e =>
    rw [hErased] at hRemove
    contradiction
  | ok s' =>
    rw [hErased] at hRemove
    exact ⟨s', rfl, (Prod.mk.inj (Except.ok.inj hRemove)).2⟩

theorem setFind_eq : setFind vm s value = mapFind vm (asMap s) value := by
  unfold setFind mapFind mapFindPrehashed
  simp only [asMap_bucket, bind_assoc]

theorem find_asMap : find value (asMap s).listed = SetOp.find value s.listed := by
  unfold find SetOp.find
  rw [Ordered.find_map, Ordered.find_map, ← listed_eq, List.map_id]

variable (h : Held vm (asMap s))
include h

theorem setFind (hExact : value.keyNativeExact) (hFits : KeyFits (asMap s) value) :
    ∃ hash, value.hashScalar vm = some hash ∧
      Maps.setFind vm s value = .ok (hash, (SetOp.find value s.listed).map .ofNat) := by
  obtain ⟨hash, hHash, hFound⟩ := h.mapFind hExact hFits
  rw [find_asMap] at hFound
  exact ⟨hash, hHash, setFind_eq.trans hFound⟩

theorem setAdd (hExact : value.keyNativeExact) (hFits : KeyFits (asMap s) value)
    (hRoom : (∀ e ∈ s.entries, e.value.nativeEq value = false) → s.entries.length < 2 ^ 32) :
    ∃ s', Maps.setAdd vm s value = .ok s' ∧ Held vm (asMap s') ∧ s'.elem = s.elem ∧
      s'.listed = Ordered.put id Value.nativeEq value id value s.listed := by
  obtain ⟨hash, hHash, hFound⟩ := setFind h hExact hFits
  unfold Maps.setAdd Ordered.put
  rw [hFound]
  cases hFind : SetOp.find value s.listed with
  | some i =>
    refine ⟨s, rfl, h, rfl, ?_⟩
    rw [show Ordered.find id Value.nativeEq value s.listed = some i from hFind]
    exact (List.modify_id i s.listed).symm
  | none =>
    have hNone : ∀ e ∈ s.entries, e.value.nativeEq value = false := by
      intro e he
      exact Ordered.find_none hFind e.value (List.mem_map_of_mem he)
    have hLength : (asMap s).entries.length = s.entries.length := List.length_map _
    obtain ⟨hHeld, hListed⟩ := h.append (v := .nil) hExact hHash (find_asMap.trans hFind)
      (hLength ▸ hRoom hNone)
    rw [← asMap_append] at hHeld hListed
    refine ⟨_, rfl, hHeld, ?_, ?_⟩
    · exact (congrArg NativeMapState.elem asMap_append).trans elem_append
    · rw [show Ordered.find id Value.nativeEq value s.listed = none from hFind, listed_eq, hListed,
        List.map_append, ← listed_eq]
      rfl

theorem setRemove (hExact : value.keyNativeExact) (hFits : KeyFits (asMap s) value) :
    ∃ s', Maps.setRemove vm s value = .ok s' ∧ Held vm (asMap s') ∧ s'.elem = s.elem ∧
      s'.listed = Ordered.remove id Value.nativeEq value s.listed := by
  obtain ⟨hash, -, hFound⟩ := setFind h hExact hFits
  unfold Maps.setRemove Ordered.remove
  rw [hFound]
  cases hFind : SetOp.find value s.listed with
  | none =>
    refine ⟨s, rfl, h, rfl, ?_⟩
    rw [show Ordered.find id Value.nativeEq value s.listed = none from hFind]
  | some i =>
    obtain ⟨e, m', -, hRemove, hHeld, hSame, hListed⟩ :=
      h.removeAt (E := E) (find_asMap.trans hFind)
    obtain ⟨s', hErased, rfl⟩ := removeAt_of_asMap hRemove
    refine ⟨s', hErased, hHeld, hSame, ?_⟩
    rw [show Ordered.find id Value.nativeEq value s.listed = some i from hFind, listed_eq, hListed,
      ← List.eraseIdx_map, ← listed_eq]

end NativeSetState

namespace SetOp

open NativeSetState

variable {vm} {s : SetState U} {op : SetOp U}

/-- The elements equal to the operation's have its hash, and the position of a new one fits. -/
def Fits (s : SetState U) (op : SetOp U) : Prop :=
  (∀ value ∈ op.value?, ∀ e ∈ s.entries, e.value.roundTrips value) ∧
    ∀ value ∈ op.stored?, (∀ e ∈ s.entries, e.value.nativeEq value = false) →
      s.entries.length < 2 ^ 32

instance (s : SetState U) (op : SetOp U) : Decidable (op.Fits s) :=
  inferInstanceAs (Decidable ((∀ value ∈ op.value?, ∀ e ∈ s.entries, e.value.roundTrips value) ∧ _))

/-- `Fits`, of the list of the elements. -/
def FitsListed (l : List (Value U)) (op : SetOp U) : Prop :=
  (∀ value ∈ op.value?, ∀ v ∈ l, v.roundTrips value) ∧
    ∀ value ∈ op.stored?, (∀ v ∈ l, v.nativeEq value = false) → l.length < 2 ^ 32

instance (l : List (Value U)) (op : SetOp U) : Decidable (op.FitsListed l) :=
  inferInstanceAs (Decidable ((∀ value ∈ op.value?, ∀ v ∈ l, v.roundTrips value) ∧ _))

theorem fits_of_listed (h : op.FitsListed s.listed) : op.Fits s := by
  obtain ⟨hTrips, hRoom⟩ := h
  refine ⟨fun v hValue e he => hTrips v hValue _ (List.mem_map_of_mem he), fun v hValue hNew => ?_⟩
  have hLess := hRoom v hValue fun u hu => by
    obtain ⟨e, he, rfl⟩ := List.mem_map.mp hu
    exact hNew e he
  rwa [NativeSetState.listed, List.length_map] at hLess

theorem apply_eq (h : Held vm (asMap s)) (hExact : ∀ value ∈ op.value?, value.keyNativeExact)
    (hFits : op.Fits s) :
    (op.apply vm s).1 = (op.spec (checkInsert vm s.elem) s.listed).1 ∧
      Held vm (asMap (op.apply vm s).2) ∧ (op.apply vm s).2.elem = s.elem ∧
      (op.apply vm s).2.listed = (op.spec (checkInsert vm s.elem) s.listed).2 := by
  have hKey : ∀ value ∈ op.value?, KeyFits (asMap s) value := by
    intro value hValue e he
    obtain ⟨e', he', rfl⟩ := List.mem_map.mp he
    exact hFits.1 value hValue e' he'
  cases op with
  | add value =>
    have hApply : apply vm s (.add value) = MapOp.settle s do
        checkInsert vm s.elem value
        return (none, ← setAdd vm s value) := rfl
    cases hElem : checkInsert vm s.elem value with
    | error e =>
      simp only [hApply, spec, hElem]
      exact ⟨rfl, h, rfl, rfl⟩
    | ok =>
      obtain ⟨s', hAdd, hHeld, hSame, hListed⟩ :=
        NativeSetState.setAdd h (hExact value rfl) (hKey value rfl) (hFits.2 value rfl)
      simp only [hApply, spec, hElem, hAdd]
      exact ⟨rfl, hHeld, hSame, hListed⟩
  | contains value =>
    obtain ⟨hash, -, hFound⟩ :=
      NativeSetState.setFind h (hExact value rfl) (hKey value rfl)
    rw [apply, hFound]
    refine ⟨?_, h, rfl, rfl⟩
    show Except.ok (some (Value.bool ((find value s.listed).map UInt32.ofNat).isSome)) = _
    rw [Option.isSome_map]
    rfl
  | remove value =>
    obtain ⟨s', hRemove, hHeld, hSame, hListed⟩ :=
      NativeSetState.setRemove h (hExact value rfl) (hKey value rfl)
    rw [apply, hRemove]
    exact ⟨rfl, hHeld, hSame, hListed⟩
  | clear => exact ⟨rfl, .newEmpty _, rfl, rfl⟩

end SetOp

/-! ## Runs -/

/-- A set that is a list of elements, as a map is one of entries. -/
structure SetRefines (s : SetState U) (l : List (Value U)) : Prop where
  listed : s.listed = l
  distinct : Ordered.Distinct id Value.nativeEq l
  populated : s.index.isEmpty = false ↔ NativeSetState.SMALL_LINEAR_MAX < s.entries.length
  buckets : s.indexed → ∀ hash, (s.index.getD hash []).map UInt32.toNat =
    sortedPositions (s.entries.map SetEntry.hash) hash
  lookup : ∀ value, value.keyNativeExact → (∀ e ∈ s.entries, e.value.roundTrips value) →
    ∃ hash, setFind vm s value = .ok (hash, (SetOp.find value l).map .ofNat)

variable {vm} {s : SetState U}

theorem setRefines (h : Held vm (s.asMap)) : SetRefines vm s s.listed where
  listed := rfl
  distinct := by
    rw [Ordered.distinct_iff, List.map_id, NativeSetState.listed_eq]
    exact Ordered.distinct_iff.mp h.distinct
  populated := by
    have hLength : s.asMap.entries.length = s.entries.length := List.length_map _
    have hPopulated := h.populated
    rw [hLength] at hPopulated
    exact hPopulated
  buckets hIndexed hash := by
    have hHashes : s.asMap.entries.map Entry.hash = s.entries.map SetEntry.hash := List.map_map
    rw [← NativeSetState.asMap_indexed] at hIndexed
    rw [← hHashes]
    exact h.refines.buckets hIndexed hash
  lookup value hExact hFits := by
    have hKey : KeyFits s.asMap value := by
      intro e he
      obtain ⟨e', he', rfl⟩ := List.mem_map.mp he
      exact hFits e' he'
    obtain ⟨hash, -, hFound⟩ := NativeSetState.setFind h hExact hKey
    exact ⟨hash, hFound⟩

/-- A set of this element tag that holds these elements. -/
def SetOp.Holds (vm : Dispatch U E) (elem : Option ElemTag) (s : SetState U)
    (l : List (Value U)) : Prop :=
  Held vm s.asMap ∧ s.elem = elem ∧ s.listed = l

theorem SetOp.holds_newEmpty (elem : Option ElemTag) : SetOp.Holds vm elem (.newEmpty elem) [] :=
  ⟨.newEmpty elem, rfl, rfl⟩

theorem SetOp.Holds.apply {elem : Option ElemTag} {s : SetState U} {l : List (Value U)}
    {op : SetOp U} (h : SetOp.Holds vm elem s l)
    (hOp : (∀ value ∈ op.value?, value.keyNativeExact) ∧ op.Fits s) :
    (op.apply vm s).1 = (op.spec (checkInsert vm elem) l).1 ∧
      SetOp.Holds vm elem (op.apply vm s).2 (op.spec (checkInsert vm elem) l).2 := by
  obtain ⟨hHeld, hElem, rfl⟩ := h
  obtain ⟨hAnswer, hHeld', hSame, hListed⟩ := apply_eq hHeld hOp.1 hOp.2
  rw [hElem] at hAnswer hSame hListed
  exact ⟨hAnswer, hHeld', hSame, hListed⟩

/-- What a run of operations does to a set, it does to the list of its elements. -/
theorem SetOp.outcomes_eq (elem : Option ElemTag) {ops : List (SetOp U)}
    (hExact : ∀ op ∈ ops, ∀ value ∈ op.value?, value.keyNativeExact)
    (hFits : Ordered.Throughout (SetOp.apply vm) SetOp.Fits (.newEmpty elem) ops) :
    (Ordered.outcomes (SetOp.apply vm) (.newEmpty elem) ops).1 =
        (Ordered.outcomes (SetOp.spec (checkInsert vm elem)) [] ops).1 ∧
      SetRefines vm (Ordered.outcomes (SetOp.apply vm) (.newEmpty elem) ops).2
        (Ordered.outcomes (SetOp.spec (checkInsert vm elem)) [] ops).2 := by
  obtain ⟨hAnswers, hHeld, -, hListed⟩ :=
    Ordered.outcomes_refine (fun _ _ _ h hOp => h.apply hOp) ops (SetOp.holds_newEmpty elem)
      (Ordered.throughout_and hExact hFits)
  exact ⟨hAnswers, hListed ▸ setRefines hHeld⟩

/-- Whether the operations of a run fit can be seen on the list of the elements. -/
theorem SetOp.fits_of_spec (elem : Option ElemTag) {ops : List (SetOp U)}
    (hExact : ∀ op ∈ ops, ∀ value ∈ op.value?, value.keyNativeExact)
    (h : Ordered.Throughout (SetOp.spec (checkInsert vm elem)) SetOp.FitsListed [] ops) :
    Ordered.Throughout (SetOp.apply vm) SetOp.Fits (.newEmpty elem) ops := by
  refine Ordered.Throughout.mono (fun _ _ h => h.2) <| Ordered.throughout_refine ?_
    (fun _ _ _ h hOp => (h.apply hOp).2) ops (SetOp.holds_newEmpty elem)
    (Ordered.throughout_and hExact h)
  rintro s l op ⟨-, -, rfl⟩ ⟨hExact, hFits⟩
  exact ⟨hExact, fits_of_listed hFits⟩

variable (vm)

/-- From the empty map (set), a run of operations on native keys, each of which round-trips with
the keys it equals, does what it would do to a list of entries (elements). -/
theorem map_set_refine (elem : Option ElemTag) :
    (∀ ops : List (MapOp U), (∀ op ∈ ops, ∀ key ∈ op.key?, key.keyNativeExact) →
      Ordered.Throughout (MapOp.apply vm) MapOp.Fits (newEmpty elem) ops →
      (Ordered.outcomes (MapOp.apply vm) (newEmpty elem) ops).1 =
          (Ordered.outcomes (MapOp.spec (checkInsert vm elem)) [] ops).1 ∧
        Refines vm (Ordered.outcomes (MapOp.apply vm) (newEmpty elem) ops).2
          (Ordered.outcomes (MapOp.spec (checkInsert vm elem)) [] ops).2) ∧
    ∀ ops : List (SetOp U), (∀ op ∈ ops, ∀ value ∈ op.value?, value.keyNativeExact) →
      Ordered.Throughout (SetOp.apply vm) SetOp.Fits (.newEmpty elem) ops →
      (Ordered.outcomes (SetOp.apply vm) (.newEmpty elem) ops).1 =
          (Ordered.outcomes (SetOp.spec (checkInsert vm elem)) [] ops).1 ∧
        SetRefines vm (Ordered.outcomes (SetOp.apply vm) (.newEmpty elem) ops).2
          (Ordered.outcomes (SetOp.spec (checkInsert vm elem)) [] ops).2 :=
  ⟨fun _ hExact hFits => MapOp.outcomes_eq elem hExact hFits,
    fun _ hExact hFits => SetOp.outcomes_eq elem hExact hFits⟩

end Operations

/-- Seventeen Integers are more than are kept without an index, and fifteen are fewer. The Double
`1.0` is found as `1` with the index, and removed as it. -/
theorem map_set_refine_seventeen :
    let keys (n k : Nat) : List (Value Empty) := (List.range n).map fun i => .int (.ofNat (i + k))
    let one : Value Empty := .double (Num.nearest 1)
    let ops : List (MapOp Empty) := (keys 17 0).map (.put · .nil) ++
      [.set one (.bool true), .remove one, .remove (.int 0), .containsKey (.int 1)]
    let sets : List (SetOp Empty) := (keys 17 0).map .add ++
      [.add one, .remove one, .remove (.int 0)]
    let grown := (Ordered.outcomes (MapOp.apply scalarsOnly) (newEmpty none) (ops.take 17)).2
    let shrunk := (Ordered.outcomes (MapOp.apply scalarsOnly) (newEmpty none) ops).2
    Refines scalarsOnly grown ((keys 17 0).map fun key => (key, .nil)) ∧
      Refines scalarsOnly shrunk ((keys 15 2).map fun key => (key, .nil)) ∧
      SetRefines scalarsOnly
        (Ordered.outcomes (SetOp.apply scalarsOnly) (.newEmpty none) sets).2 (keys 15 2) := by
  refine ⟨((map_set_refine scalarsOnly none).1 _ (by decide) ?_).2,
    ((map_set_refine scalarsOnly none).1 _ (by decide) ?_).2,
    ((map_set_refine scalarsOnly none).2 _ (by decide) ?_).2⟩
  · exact MapOp.fits_of_spec none (by decide) (by decide +kernel)
  · exact MapOp.fits_of_spec none (by decide) (by decide +kernel)
  · exact SetOp.fits_of_spec none (by decide) (by decide +kernel)

/-- `9007199254740993` and the Double it is rounded to are equal keys with two entries. -/
theorem map_set_refine_rounded :
    let key : Value Empty := .int 9007199254740993
    let key' : Value Empty := .double (Num.nearest 9007199254740992)
    let ops : List (MapOp Empty) := [.put key (.bool true), .put key' (.bool false)]
    let m := (Ordered.outcomes (MapOp.apply scalarsOnly) (newEmpty none) ops).2
    (∀ op ∈ ops, ∀ key ∈ op.key?, key.keyNativeExact) ∧ key.nativeEq key' = true ∧
      m.listed = [(key, .bool true), (key', .bool false)] ∧
      (Ordered.outcomes (MapOp.spec (checkInsert scalarsOnly none)) [] ops).2 =
        [(key, .bool false)] := by
  refine ⟨by decide, by decide +kernel, rfl, rfl⟩

end Quoin.Maps
