import Mathlib

/-!
# Quoin — the map store

`NativeMapState`: the entries of a map in insertion order, each with its key's
hash, and an index from a hash to the entries that have it. Up to
`SMALL_LINEAR_MAX` entries the index stays empty and a lookup scans the hashes.

`IndexOk` says what the index is at any size, and every operation keeps it. So
the candidates of a lookup are the same in both tiers (`candidates_eq`): the
positions of the entries with that hash, in order. Positions are kept as `u32`,
and reading an entry that is not there would be a panic (`Fault.panic`).
-/

namespace Quoin.Maps

variable {E K V T R : Type}

/-- What can end a computation: a panic of the VM, or an error of the program. -/
inductive Fault (E : Type) where
  | panic
  | raised (e : E)

/-- An entry: its key's hash, its key and its value. -/
structure Entry (K V : Type) where
  hash : UInt64
  key : K
  value : V

structure NativeMapState (K V T : Type) where
  entries : List (Entry K V)
  index : Std.HashMap UInt64 (List UInt32)
  elem : Option T

def SMALL_LINEAR_MAX : Nat := 16

namespace NativeMapState

variable (m : NativeMapState K V T)

def newEmpty (elem : Option T) : NativeMapState K V T := ⟨[], ∅, elem⟩

def indexed : Bool := SMALL_LINEAR_MAX < m.entries.length

/-- `index.entry(hash).or_default().push(i)`. -/
def pushIndex (index : Std.HashMap UInt64 (List UInt32)) (hash : UInt64) (i : UInt32) :
    Std.HashMap UInt64 (List UInt32) :=
  index.insert hash (index.getD hash [] ++ [i])

/-- `build_index`. -/
def buildIndex : NativeMapState K V T :=
  { m with
    index := m.entries.zipIdx.foldl (fun index (e, i) => pushIndex index e.hash (.ofNat i)) ∅ }

/-- The positions, as `u32`, of the entries with a hash. -/
def positions (entries : List (Entry K V)) (hash : UInt64) : List UInt32 :=
  (entries.zipIdx.filter fun (e, _) => e.hash = hash).map fun (_, i) => .ofNat i

/-- The positions that `find_hash_match` goes through, in order: a scan of the hashes, or the
index's list. -/
def candidates (hash : UInt64) : List UInt32 :=
  if m.indexed then m.index.getD hash [] else positions m.entries hash

/-- Goes through positions up to the first that answers. -/
def firstAnswer (f : UInt32 → Except (Fault E) (Option R)) :
    List UInt32 → Except (Fault E) (Option R)
  | [] => .ok none
  | i :: rest => do
    match ← f i with
    | some r => return some r
    | none => firstAnswer f rest

/-- `find_hash_match`. -/
def findHashMatch (hash : UInt64) (f : UInt32 → Except (Fault E) (Option R)) :
    Except (Fault E) (Option R) :=
  firstAnswer f (m.candidates hash)

/-- `entries[i]`. -/
def entryAt (i : UInt32) : Except (Fault E) (Entry K V) :=
  match m.entries[i.toNat]? with
  | some e => .ok e
  | none => .error .panic

/-- `bucket`: the candidates, with their keys. -/
def bucket (hash : UInt64) : Except (Fault E) (List (UInt32 × K)) :=
  (m.candidates hash).mapM fun i => do return (i, (← m.entryAt i).key)

/-- `value_at`. -/
def valueAt (i : UInt32) : Except (Fault E) V := do return (← m.entryAt i).value

/-- `set_value_at`. -/
def setValueAt (i : UInt32) (v : V) : Except (Fault E) (NativeMapState K V T) := do
  let e ← m.entryAt i
  return { m with entries := m.entries.set i.toNat { e with value := v } }

/-- `append`. -/
def append (hash : UInt64) (key : K) (value : V) : NativeMapState K V T :=
  let m' := { m with entries := m.entries ++ [Entry.mk hash key value] }
  if m'.indexed then
    if m.index.isEmpty then m'.buildIndex
    else { m' with index := pushIndex m.index hash (.ofNat m.entries.length) }
  else m'

/-- `remove_at`. -/
def removeAt (i : UInt32) : Except (Fault E) (V × NativeMapState K V T) := do
  let e ← m.entryAt i
  let m' := { m with entries := m.entries.eraseIdx i.toNat }
  return (e.value, if m'.indexed then m'.buildIndex else { m' with index := ∅ })

/-- The index lists the positions of each hash's entries, or is empty in the linear tier. -/
structure IndexOk : Prop where
  listed : m.indexed → ∀ hash, m.index.getD hash [] = positions m.entries hash
  empty : m.indexed = false → m.index.isEmpty

end NativeMapState

/-! ## The index -/

namespace NativeMapState

variable {m : NativeMapState K V T} {hash : UInt64} {i : UInt32}

theorem getD_pushIndex (index : Std.HashMap UInt64 (List UInt32)) (h hash : UInt64) (i : UInt32) :
    (pushIndex index h i).getD hash [] =
      index.getD hash [] ++ if h = hash then [i] else [] := by
  rw [pushIndex, Std.HashMap.getD_insert]
  by_cases hEq : h = hash
  · subst hEq
    simp
  · simp [hEq]

/-- What indexing more entries adds to a list of the index. -/
theorem getD_foldl_pushIndex (entries : List (Entry K V)) (start : Nat)
    (index : Std.HashMap UInt64 (List UInt32)) (hash : UInt64) :
    ((entries.zipIdx start).foldl (fun index (e, i) => pushIndex index e.hash (.ofNat i))
        index).getD hash [] =
      index.getD hash [] ++
        ((entries.zipIdx start).filter fun (e, _) => e.hash = hash).map
          fun (_, i) => UInt32.ofNat i := by
  induction entries generalizing start index with
  | nil => simp
  | cons e entries ih =>
    rw [List.zipIdx_cons, List.foldl_cons, ih, getD_pushIndex, List.filter_cons]
    by_cases hEq : e.hash = hash <;> simp [hEq]

theorem getD_buildIndex (m : NativeMapState K V T) (hash : UInt64) :
    m.buildIndex.index.getD hash [] = positions m.entries hash := by
  rw [buildIndex, getD_foldl_pushIndex]
  simp [positions]

theorem positions_append (entries : List (Entry K V)) (e : Entry K V) (hash : UInt64) :
    positions (entries ++ [e]) hash =
      positions entries hash ++ if e.hash = hash then [UInt32.ofNat entries.length] else [] := by
  by_cases hEq : e.hash = hash <;> simp [positions, List.zipIdx_append, hEq]

/-- Positions depend on the hashes alone. -/
theorem positions_congr {entries entries' : List (Entry K V)} (hash : UInt64)
    (hHashes : entries.map Entry.hash = entries'.map Entry.hash) :
    positions entries hash = positions entries' hash := by
  have hMap : ∀ l : List (Entry K V), positions l hash =
      (((l.map Entry.hash).zipIdx.filter fun (h, _) => h = hash).map fun (_, i) => .ofNat i) := by
    intro l
    rw [positions, List.zipIdx_map, List.filter_map, List.map_map]
    rfl
  rw [hMap, hMap, hHashes]

/-- A position is that of an entry. -/
theorem lt_of_mem_positions {entries : List (Entry K V)} (hi : i ∈ positions entries hash) :
    i.toNat < entries.length := by
  obtain ⟨⟨e, j⟩, hIn, rfl⟩ := List.mem_map.mp hi
  have hLt := (List.mem_zipIdx' (List.mem_filter.mp hIn).1).1
  have hMod : j % 2 ^ 32 ≤ j := Nat.mod_le _ _
  rw [UInt32.toNat_ofNat']
  omega

@[simp] theorem entries_append {key : K} {value : V} :
    (m.append hash key value).entries = m.entries ++ [⟨hash, key, value⟩] := by
  unfold append
  dsimp only
  split
  · split <;> rfl
  · rfl

@[simp] theorem elem_append {key : K} {value : V} : (m.append hash key value).elem = m.elem := by
  unfold append
  dsimp only
  split
  · split <;> rfl
  · rfl

namespace IndexOk

theorem newEmpty (elem : Option T) : (newEmpty elem : NativeMapState K V T).IndexOk :=
  ⟨fun h => by simp [indexed, NativeMapState.newEmpty] at h, fun _ => Std.HashMap.isEmpty_empty⟩

/-- **The tiers agree.** -/
theorem candidates_eq (h : m.IndexOk) (hash : UInt64) :
    m.candidates hash = positions m.entries hash := by
  rw [candidates]
  split
  · next hIndexed => exact h.listed hIndexed hash
  · rfl

theorem entryAt (h : m.IndexOk) (hi : i ∈ m.candidates hash) :
    ∃ e, m.entryAt i = (.ok e : Except (Fault E) (Entry K V)) := by
  rw [h.candidates_eq] at hi
  have hLt := lt_of_mem_positions hi
  exact ⟨m.entries[i.toNat], by rw [NativeMapState.entryAt, List.getElem?_eq_getElem hLt]⟩

theorem buildIndex (hIndexed : m.indexed) : m.buildIndex.IndexOk :=
  ⟨fun _ hash => getD_buildIndex m hash, fun h => by
    rw [NativeMapState.buildIndex, indexed] at h
    rw [indexed] at hIndexed
    rw [hIndexed] at h
    cases h⟩

theorem append (h : m.IndexOk) (hash : UInt64) (key : K) (value : V) :
    (m.append hash key value).IndexOk := by
  unfold NativeMapState.append
  dsimp only
  split
  · next hIndexed =>
    split
    · exact buildIndex hIndexed
    · next hFull =>
      -- the index was not empty, so the index tier was active before
      have hWas : m.indexed := by
        by_contra hNot
        exact hFull (h.empty (by simpa using hNot))
      refine ⟨fun _ hash' => ?_, fun hNot => ?_⟩
      · dsimp only
        rw [getD_pushIndex, h.listed hWas, positions_append]
      · rw [indexed] at hNot hIndexed
        rw [hIndexed] at hNot
        cases hNot
  · next hNot =>
    refine ⟨fun hIndexed => absurd hIndexed hNot, fun _ => ?_⟩
    refine h.empty ?_
    simp only [indexed, List.length_append, decide_eq_true_eq, decide_eq_false_iff_not] at hNot ⊢
    omega

theorem setValueAt (h : m.IndexOk) {v : V} {m' : NativeMapState K V T}
    (hSet : m.setValueAt i v = (.ok m' : Except (Fault E) _)) : m'.IndexOk := by
  unfold NativeMapState.setValueAt NativeMapState.entryAt at hSet
  cases hEntry : m.entries[i.toNat]? with
  | none =>
    rw [hEntry] at hSet
    cases hSet
  | some e =>
    rw [hEntry] at hSet
    cases hSet
    -- neither the number of entries nor a hash has changed
    have hHashes : (m.entries.set i.toNat { e with value := v }).map Entry.hash =
        m.entries.map Entry.hash := by
      refine List.ext_getElem? fun j => ?_
      rw [List.map_set, List.getElem?_set]
      split
      · next hj =>
        subst hj
        obtain ⟨hLt, rfl⟩ := List.getElem?_eq_some_iff.mp hEntry
        simp [hLt]
      · rfl
    refine ⟨fun hIndexed hash => ?_, fun hNot => h.empty ?_⟩
    · rw [positions_congr hash hHashes]
      exact h.listed (by simpa [indexed] using hIndexed) hash
    · simpa [indexed] using hNot

theorem removeAt {v : V} {m' : NativeMapState K V T}
    (hRemove : m.removeAt i = (.ok (v, m') : Except (Fault E) _)) : m'.IndexOk := by
  unfold NativeMapState.removeAt NativeMapState.entryAt at hRemove
  cases hEntry : m.entries[i.toNat]? with
  | none =>
    rw [hEntry] at hRemove
    cases hRemove
  | some e =>
    rw [hEntry] at hRemove
    obtain ⟨-, rfl⟩ := Prod.mk.inj (Except.ok.inj hRemove)
    split
    · next hIndexed => exact buildIndex hIndexed
    · next hNot => exact ⟨fun hIndexed => absurd hIndexed hNot, fun _ => Std.HashMap.isEmpty_empty⟩

end IndexOk

end NativeMapState

end Quoin.Maps
