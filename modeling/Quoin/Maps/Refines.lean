import Mathlib
import Quoin.Maps.Keys
import Quoin.Maps.Ordered

/-!
# Quoin — a map is a list of entries

What a map does is what a list of entries does, in the order their keys were put
(`Ordered`). The index is looked through in place of the list, and finds the same
entry, as long as an entry with an equal key has the key's hash.
-/

namespace Quoin.Maps

open NativeMapState

/-! ## Positions -/

section Positions

variable {K V T : Type} {m m' : NativeMapState K V T} {hash : UInt64} {key : K} {v : V} {i : Nat}

namespace NativeMapState

/-- The entries without their hashes. -/
def listed (m : NativeMapState K V T) : List (K × V) := m.entries.map fun e => (e.key, e.value)

/-- The positions of a hash, in order. -/
def sortedPositions (hashes : List UInt64) (hash : UInt64) : List Nat :=
  (List.range hashes.length).filter fun i => hashes[i]? == some hash

theorem toNat_ofNat_of_lt (hi : i < 2 ^ 32) : (UInt32.ofNat i).toNat = i := by
  rw [UInt32.toNat_ofNat', Nat.mod_eq_of_lt hi]

theorem sortedPositions_append (hashes : List UInt64) (h : UInt64) :
    sortedPositions (hashes ++ [h]) hash =
      sortedPositions hashes hash ++ if h = hash then [hashes.length] else [] := by
  have hBefore : (List.range hashes.length).filter (fun i => (hashes ++ [h])[i]? == some hash) =
      sortedPositions hashes hash := by
    refine List.filter_congr fun i hi => ?_
    rw [List.getElem?_append_left (List.mem_range.mp hi)]
  unfold sortedPositions at hBefore ⊢
  rw [List.length_append, List.length_singleton, List.range_succ, List.filter_append, hBefore]
  by_cases hEq : h = hash <;> simp [hEq]

theorem positions_eq (entries : List (Entry K V)) :
    positions entries hash = (sortedPositions (entries.map Entry.hash) hash).map UInt32.ofNat := by
  induction entries using List.reverseRecOn with
  | nil => rfl
  | append_singleton entries e ih =>
    have hMap : (entries ++ [e]).map Entry.hash = entries.map Entry.hash ++ [e.hash] := by simp
    rw [positions_append, ih, hMap, sortedPositions_append, List.map_append, List.length_map]
    by_cases hEq : e.hash = hash <;> simp [hEq]

/-- Up to `2 ^ 32` entries, a position fits. -/
theorem positions_toNat {entries : List (Entry K V)} (hSmall : entries.length ≤ 2 ^ 32) :
    (positions entries hash).map UInt32.toNat =
      sortedPositions (entries.map Entry.hash) hash := by
  rw [positions_eq, List.map_map]
  have hSame : ∀ i ∈ sortedPositions (entries.map Entry.hash) hash,
      (UInt32.toNat ∘ UInt32.ofNat) i = i := by
    intro i hi
    have hLt := List.mem_range.mp (List.mem_filter.mp hi).1
    rw [List.length_map] at hLt
    exact toNat_ofNat_of_lt (by omega)
  rw [List.map_congr_left hSame, List.map_id'']
  exact fun _ => rfl

theorem entryAt_ofNat {e : Entry K V} {E : Type} (hEntry : m.entries[i]? = some e)
    (hSmall : m.entries.length ≤ 2 ^ 32) :
    m.entryAt (.ofNat i) = (.ok e : Except (Fault E) _) := by
  have hLt : i < m.entries.length := (List.getElem?_eq_some_iff.mp hEntry).1
  rw [entryAt, toNat_ofNat_of_lt (by omega), hEntry]

end NativeMapState

end Positions

/-! ## Finding an entry -/

section Find

variable {U E : Type} [DecidableEq U] {vm : Dispatch U E} {m m' : MapState U} {key v : Value U}
  {hash : UInt64}

/-- The first native hit among the positions of a hash is the first entry with an equal key, if
the entries with equal keys have that hash. -/
theorem firstAnswer_positions (hSmall : m.entries.length ≤ 2 ^ 32)
    (suf : List (Entry (Value U) (Value U))) :
    ∀ pre, m.entries = pre ++ suf → (∀ e ∈ suf, e.key.nativeEq key = true → e.hash = hash) →
    firstAnswer (nativeHit m key fun i _ => i)
        (((suf.zipIdx pre.length).filter fun (e, _) => e.hash = hash).map
          fun (_, i) => UInt32.ofNat i) =
      (.ok ((suf.findIdx? fun e => e.key.nativeEq key).map fun i => .ofNat (pre.length + i)) :
        Except (Fault E) _) := by
  -- on the rest of the entries; those before it have another key
  induction suf with
  | nil =>
    intro pre _ _
    rfl
  | cons e suf ih =>
    intro pre hm hHash
    have hRest := ih (pre ++ [e]) (by rw [hm]; simp) fun e' he' => hHash e' (by simp [he'])
    rw [List.length_append, List.length_singleton] at hRest
    have hFind : ((e :: suf).findIdx? fun e => e.key.nativeEq key).map
        (fun i => UInt32.ofNat (pre.length + i)) =
          if e.key.nativeEq key then some (.ofNat pre.length)
          else (suf.findIdx? fun e => e.key.nativeEq key).map
            fun i => .ofNat (pre.length + 1 + i) := by
      rw [List.findIdx?_cons]
      split
      · rfl
      · rw [Option.map_map]
        congr 1
        funext i
        show UInt32.ofNat (pre.length + (i + 1)) = _
        rw [Nat.add_comm i 1, Nat.add_assoc]
    have hEntry : m.entryAt (.ofNat pre.length) = (.ok e : Except (Fault E) _) :=
      entryAt_ofNat (by rw [hm]; simp) hSmall
    have hHit : nativeHit m key (fun i _ => i) (.ofNat pre.length) =
        (.ok (if e.key.nativeEq key then some (.ofNat pre.length) else none) :
          Except (Fault E) _) := by
      rw [nativeHit, hEntry]
      rfl
    rw [List.zipIdx_cons, List.filter_cons, hFind]
    by_cases hEq : e.hash = hash
    · simp only [hEq, decide_true, if_true, List.map_cons, firstAnswer, hHit]
      cases hKey : e.key.nativeEq key with
      | true => rfl
      | false => exact hRest
    · -- another hash: the key is another one as well
      have hKey : e.key.nativeEq key = false := by
        rw [← Bool.not_eq_true]
        exact fun hKey => hEq (hHash e (by simp) hKey)
      simp only [hEq, decide_false, hKey]
      exact hRest

/-- A map of keys compared natively, no two equal, with their hashes, whose positions fit. -/
structure Held (vm : Dispatch U E) (m : MapState U) : Prop where
  index : m.IndexOk
  exact : ∀ e ∈ m.entries, e.key.keyNativeExact
  hashed : ∀ e ∈ m.entries, e.key.hashScalar vm = some e.hash
  small : m.entries.length ≤ 2 ^ 32
  distinct : Ordered.Distinct Prod.fst Value.nativeEq m.listed

/-- The entries with keys equal to a key have its hash. -/
def KeyFits (m : MapState U) (key : Value U) : Prop := ∀ e ∈ m.entries, e.key.roundTrips key

abbrev find (key : Value U) (l : List (Value U × Value U)) : Option Nat :=
  Ordered.find Prod.fst Value.nativeEq key l

omit [DecidableEq U] in
theorem listed_getElem? (m : MapState U) (i : Nat) :
    m.listed[i]? = m.entries[i]?.map fun e => (e.key, e.value) := List.getElem?_map ..

namespace Held

theorem newEmpty (elem : Option ElemTag) : Held vm (newEmpty elem) where
  index := .newEmpty elem
  exact := by simp [NativeMapState.newEmpty]
  hashed := by simp [NativeMapState.newEmpty]
  small := by simp [NativeMapState.newEmpty]
  distinct := Ordered.distinct_nil

theorem decides (h : Held vm m) (hExact : key.keyNativeExact) : Decides vm m key :=
  fun e he => keysEqual_exact (h.exact e he) hExact

/-- What is found for a key, in either tier, is the first entry with an equal key. -/
theorem mapFind (h : Held vm m) (hExact : key.keyNativeExact) (hFits : KeyFits m key) :
    ∃ hash, key.hashScalar vm = some hash ∧
      Maps.mapFind vm m key = .ok (hash, (find key m.listed).map .ofNat) := by
  obtain ⟨hash, hHash⟩ := hashScalar_of_exact vm hExact
  have hSame : ∀ e ∈ m.entries, e.key.nativeEq key = true → e.hash = hash := by
    intro e he hEq
    have hKey : e.key.hashScalar vm = key.hashScalar vm := Value.hashScalar_eq hEq (hFits e he)
    rw [h.hashed e he, hHash] at hKey
    exact Option.some.inj hKey
  have hFirst := firstAnswer_positions (E := E) h.small m.entries [] rfl hSame
  have hFind : find key m.listed = m.entries.findIdx? fun e => e.key.nativeEq key := by
    unfold find Ordered.find listed
    rw [List.findIdx?_map]
    rfl
  refine ⟨hash, hHash, ?_⟩
  rw [mapFind_native h.index (h.decides hExact) hHash, h.index.candidates_eq, hFind]
  simp only [List.length_nil, Nat.zero_add] at hFirst
  rw [positions, hFirst]
  rfl

/-- The entry that is found. -/
theorem found {i : Nat} (hFind : find key m.listed = some i) :
    ∃ e, m.entries[i]? = some e ∧ e.key.nativeEq key = true := by
  obtain ⟨a, ha, hEq⟩ := Ordered.find_some hFind
  rw [listed_getElem?] at ha
  obtain ⟨e, he, rfl⟩ := Option.map_eq_some_iff.mp ha
  exact ⟨e, he, hEq⟩

theorem mapGetAny (h : Held vm m) (hExact : key.keyNativeExact) (hFits : KeyFits m key) :
    Maps.mapGetAny vm m key =
      .ok ((Ordered.get Prod.fst Value.nativeEq key m.listed).map Prod.snd) := by
  obtain ⟨hash, -, hFound⟩ := h.mapFind hExact hFits
  have hGet : Ordered.get Prod.fst Value.nativeEq key m.listed =
      (find key m.listed).bind fun i => m.listed[i]? := rfl
  unfold Maps.mapGetAny
  rw [hFound, hGet]
  cases hFind : find key m.listed with
  | none => rfl
  | some i =>
    obtain ⟨e, he, -⟩ := found hFind
    have hValue : m.valueAt (.ofNat i) = (.ok e.value : Except (Fault E) _) := by
      rw [valueAt, entryAt_ofNat he h.small]
      rfl
    show (do return some (← m.valueAt (.ofNat i)) : Except (Fault E) _) = _
    rw [hValue, Option.bind_some, listed_getElem?, he]
    rfl

/-- Storing under a key that is there. -/
theorem setValueAt {i : Nat} (h : Held vm m) (hFind : find key m.listed = some i) :
    ∃ m', m.setValueAt (.ofNat i) v = (.ok m' : Except (Fault E) _) ∧ Held vm m' ∧
      m'.elem = m.elem ∧ m'.listed = m.listed.modify i fun e => (e.1, v) := by
  obtain ⟨e, he, -⟩ := found hFind
  have hLt : i < m.entries.length := (List.getElem?_eq_some_iff.mp he).1
  -- the position of the entry fits 32 bits, so that it is found there
  have hSet : m.setValueAt (.ofNat i) v =
      (.ok { m with entries := m.entries.set i { e with value := v } } : Except (Fault E) _) := by
    have hSmall := h.small
    rw [NativeMapState.setValueAt, entryAt_ofNat he h.small, toNat_ofNat_of_lt (by omega)]
    rfl
  -- the list of keys and values changes at one position
  have hListed : (m.entries.set i { e with value := v }).map (fun e => (e.key, e.value)) =
      m.listed.modify i fun e => (e.1, v) := by
    refine List.ext_getElem? fun j => ?_
    rw [List.getElem?_modify, listed_getElem?, List.getElem?_map, List.getElem?_set]
    by_cases hij : i = j
    · subst hij
      rw [if_pos rfl, if_pos hLt, he]
      simp
    · simp [hij]
  -- keys and hashes are those of before, and all the rest follows
  have hMem : ∀ e' ∈ m.entries.set i { e with value := v }, ∃ e'' ∈ m.entries,
      e'.key = e''.key ∧ e'.hash = e''.hash := by
    intro e' he'
    rcases List.mem_or_eq_of_mem_set he' with hOld | rfl
    · exact ⟨e', hOld, rfl, rfl⟩
    · exact ⟨e, List.mem_of_getElem? he, rfl, rfl⟩
  refine ⟨_, hSet, ?_, rfl, hListed⟩
  constructor
  · exact h.index.setValueAt hSet
  · intro e' he'
    obtain ⟨e'', he'', hKey, -⟩ := hMem e' he'
    rw [hKey]
    exact h.exact e'' he''
  · intro e' he'
    obtain ⟨e'', he'', hKey, hHash⟩ := hMem e' he'
    rw [hKey, hHash]
    exact h.hashed e'' he''
  · rw [List.length_set]
    exact h.small
  · show Ordered.Distinct _ _ (List.map _ _)
    have hKeys : (m.listed.modify i fun e => (e.1, v)).map Prod.fst = m.listed.map Prod.fst :=
      Ordered.map_key_modify fun _ => rfl
    rw [hListed, Ordered.distinct_iff, hKeys]
    exact Ordered.distinct_iff.mp h.distinct

/-- Storing under a key that is not there. -/
theorem append (h : Held vm m) (hExact : key.keyNativeExact)
    (hHash : key.hashScalar vm = some hash) (hFind : find key m.listed = none)
    (hRoom : m.entries.length < 2 ^ 32) :
    Held vm (m.append hash key v) ∧ (m.append hash key v).listed = m.listed ++ [(key, v)] := by
  have hListed : (m.append hash key v).listed = m.listed ++ [(key, v)] := by
    rw [listed, entries_append, List.map_append]
    rfl
  have hPut : Ordered.put Prod.fst Value.nativeEq key id (key, v) m.listed =
      m.listed ++ [(key, v)] := by
    unfold Ordered.put
    rw [show Ordered.find Prod.fst Value.nativeEq key m.listed = none from hFind]
  refine ⟨⟨h.index.append hash key v, ?_, ?_, ?_, ?_⟩, hListed⟩
  · intro e he
    rw [entries_append] at he
    rcases List.mem_append.mp he with hOld | hNew
    · exact h.exact e hOld
    · rw [List.mem_singleton.mp hNew]
      exact hExact
  · intro e he
    rw [entries_append] at he
    rcases List.mem_append.mp he with hOld | hNew
    · exact h.hashed e hOld
    · rw [List.mem_singleton.mp hNew]
      exact hHash
  · rw [entries_append, List.length_append, List.length_singleton]
    omega
  · rw [hListed, ← hPut]
    exact Ordered.distinct_put (fun _ => rfl) rfl h.distinct

/-- Removing a key that is there. -/
theorem removeAt {i : Nat} (h : Held vm m) (hFind : find key m.listed = some i) :
    ∃ e m', m.entries[i]? = some e ∧
      m.removeAt (.ofNat i) = (.ok (e.value, m') : Except (Fault E) _) ∧ Held vm m' ∧
      m'.elem = m.elem ∧ m'.listed = m.listed.eraseIdx i := by
  obtain ⟨e, he, -⟩ := found hFind
  have hLt : i < m.entries.length := (List.getElem?_eq_some_iff.mp he).1
  have hSmall := h.small
  obtain ⟨m', hRemove, hElem, hEntries⟩ : ∃ m', m.removeAt (.ofNat i) =
      (.ok (e.value, m') : Except (Fault E) _) ∧ m'.elem = m.elem ∧
        m'.entries = m.entries.eraseIdx i := by
    rw [NativeMapState.removeAt, entryAt_ofNat he h.small, toNat_ofNat_of_lt (by omega)]
    refine ⟨_, rfl, ?_, ?_⟩ <;> split <;> rfl
  have hListed : m'.listed = m.listed.eraseIdx i := by
    rw [listed, hEntries, ← List.eraseIdx_map]
    rfl
  refine ⟨e, m', he, hRemove, ⟨IndexOk.removeAt hRemove, ?_, ?_, ?_, ?_⟩, hElem,
    hListed⟩
  · intro e' he'
    exact h.exact e' (List.mem_of_mem_eraseIdx (hEntries ▸ he'))
  · intro e' he'
    exact h.hashed e' (List.mem_of_mem_eraseIdx (hEntries ▸ he'))
  · rw [hEntries, List.length_eraseIdx]
    split <;> omega
  · rw [hListed]
    exact h.distinct.sublist (List.eraseIdx_sublist _ _)

theorem mapPutAny (h : Held vm m) (hExact : key.keyNativeExact) (hFits : KeyFits m key)
    (hRoom : (∀ e ∈ m.entries, e.key.nativeEq key = false) → m.entries.length < 2 ^ 32)
    (hElem : checkInsert vm m.elem v = .ok ()) :
    ∃ m', Maps.mapPutAny vm m key v = .ok m' ∧ Held vm m' ∧ m'.elem = m.elem ∧
      m'.listed = Ordered.put Prod.fst Value.nativeEq key (fun e => (e.1, v)) (key, v) m.listed := by
  obtain ⟨hash, hHash, hFound⟩ := h.mapFind hExact hFits
  unfold Maps.mapPutAny Ordered.put
  rw [hElem, hFound]
  cases hFind : find key m.listed with
  | none =>
    have hNone := Ordered.find_none hFind
    have hNoKey : ∀ e ∈ m.entries, e.key.nativeEq key = false := by
      intro e he
      exact hNone (e.key, e.value) (List.mem_map_of_mem he)
    obtain ⟨hHeld, hListed⟩ := h.append (v := v) hExact hHash hFind (hRoom hNoKey)
    refine ⟨_, rfl, hHeld, elem_append, ?_⟩
    rw [hListed, show Ordered.find Prod.fst Value.nativeEq key m.listed = none from hFind]
  | some i =>
    obtain ⟨m', hSet, hHeld, hSame, hListed⟩ := h.setValueAt (E := E) (v := v) hFind
    refine ⟨m', hSet, hHeld, hSame, ?_⟩
    rw [hListed, show Ordered.find Prod.fst Value.nativeEq key m.listed = some i from hFind]

theorem mapRemove (h : Held vm m) (hExact : key.keyNativeExact) (hFits : KeyFits m key) :
    ∃ m', Maps.mapRemove vm m key =
        .ok (((Ordered.get Prod.fst Value.nativeEq key m.listed).map Prod.snd).getD .nil, m') ∧
      Held vm m' ∧ m'.elem = m.elem ∧
      m'.listed = Ordered.remove Prod.fst Value.nativeEq key m.listed := by
  obtain ⟨hash, -, hFound⟩ := h.mapFind hExact hFits
  have hGet : Ordered.get Prod.fst Value.nativeEq key m.listed =
      (find key m.listed).bind fun i => m.listed[i]? := rfl
  unfold Maps.mapRemove Ordered.remove
  rw [hFound, hGet]
  cases hFind : find key m.listed with
  | none =>
    refine ⟨m, rfl, h, rfl, ?_⟩
    rw [show Ordered.find Prod.fst Value.nativeEq key m.listed = none from hFind]
  | some i =>
    obtain ⟨e, m', he, hRemove, hHeld, hSame, hListed⟩ := h.removeAt (E := E) hFind
    refine ⟨m', ?_, hHeld, hSame, ?_⟩
    · rw [Option.bind_some, listed_getElem?, he]
      exact hRemove
    · rw [hListed, show Ordered.find Prod.fst Value.nativeEq key m.listed = some i from hFind]

/-- The index is filled in the index tier, and there alone. -/
theorem populated (h : Held vm m) :
    m.index.isEmpty = false ↔ SMALL_LINEAR_MAX < m.entries.length := by
  constructor
  · intro hFull
    by_contra hNot
    have hEmpty := h.index.empty (decide_eq_false hNot)
    rw [hFull] at hEmpty
    contradiction
  · intro hLarge
    have hIndexed : m.indexed := decide_eq_true hLarge
    by_contra hEmpty
    -- the first entry is in the list of its hash
    obtain ⟨e, rest, hEntries⟩ : ∃ e rest, m.entries = e :: rest :=
      List.exists_cons_of_length_pos (by omega)
    have hNone : m.index.getD e.hash [] = [] :=
      Std.HashMap.getD_of_isEmpty (by simpa using hEmpty)
    have hListed := h.index.listed hIndexed e.hash
    rw [hNone, hEntries, positions, List.zipIdx_cons, List.filter_cons] at hListed
    simp at hListed

end Held

/-- A map that is a list of entries: it holds them in order, no two with equal keys, its index is
filled above the threshold and lists the sorted positions of each hash, and what is looked up in
either tier is what a scan of the list finds. -/
structure Refines (vm : Dispatch U E) (m : MapState U) (l : List (Value U × Value U)) : Prop where
  listed : m.listed = l
  distinct : Ordered.Distinct Prod.fst Value.nativeEq l
  populated : m.index.isEmpty = false ↔ SMALL_LINEAR_MAX < m.entries.length
  buckets : m.indexed → ∀ hash, (m.index.getD hash []).map UInt32.toNat =
    sortedPositions (m.entries.map Entry.hash) hash
  lookup : ∀ key, key.keyNativeExact → KeyFits m key → ∃ hash,
    mapFind vm m key = .ok (hash, (find key l).map .ofNat)

theorem Held.refines (h : Held vm m) : Refines vm m m.listed where
  listed := rfl
  distinct := h.distinct
  populated := h.populated
  buckets hIndexed hash := by
    rw [h.index.listed hIndexed, positions_toNat h.small]
  lookup key hExact hFits := by
    obtain ⟨hash, -, hFound⟩ := h.mapFind hExact hFits
    exact ⟨hash, hFound⟩

end Find

/-! ## Operations -/

section Operations

variable {U : Type} (E : Type) [DecidableEq U]

/-- What a program does to a map: `at:put:`, `MapSet`, `at:`, `MapGet`, `containsKey?:`, `remove:`,
and going on with an empty one like it (`emptyLike`; no method empties a map). -/
inductive MapOp (U : Type) where
  | put (key v : Value U)
  | set (key v : Value U)
  | get (key : Value U)
  | fetch (key : Value U)
  | containsKey (key : Value U)
  | remove (key : Value U)
  | clear

/-- What an operation answers: an error, or perhaps a value. -/
abbrev Answer (U : Type) := Except (Fault E) (Option (Value U))

variable {E} (vm : Dispatch U E)

namespace MapOp

def key? : MapOp U → Option (Value U)
  | .put key _ | .set key _ | .get key | .fetch key | .containsKey key | .remove key => some key
  | .clear => none

/-- The key it stores under. -/
def stored? : MapOp U → Option (Value U)
  | .put key _ | .set key _ => some key
  | .get _ | .fetch _ | .containsKey _ | .remove _ | .clear => none

/-- The answer and the map afterwards, which an operation that raises leaves as it was. -/
def settle {S : Type} (m : S) : Except (Fault E) (Option (Value U) × S) → Answer E U × S
  | .ok (answer, m') => (.ok answer, m')
  | .error e => (.error e, m)

def apply (m : MapState U) : MapOp U → Answer E U × MapState U
  | .put key v => settle m do return (none, ← mapPutAny vm m key v)
  | .set key v => settle m do return (none, ← mapSet vm m key v)
  | .get key => settle m do return (← mapGetAny vm m key, m)
  | .fetch key => settle m do return (some (← mapGet vm m key), m)
  | .containsKey key => settle m do return (some (.bool (← mapFind vm m key).2.isSome), m)
  | .remove key => settle m do
    let (v, m') ← mapRemove vm m key
    return (some v, m')
  | .clear => (.ok none, newEmpty m.elem)

/-- What it is to do to a list of entries; `check` is the check of a stored value. -/
def spec (check : Value U → Except (Fault E) Unit) (l : List (Value U × Value U)) :
    MapOp U → Answer E U × List (Value U × Value U)
  | .put key v | .set key v =>
    match check v with
    | .ok () =>
      (.ok none, Ordered.put Prod.fst Value.nativeEq key (fun e => (e.1, v)) (key, v) l)
    | .error e => (.error e, l)
  | .get key => (.ok (value? key l), l)
  | .fetch key => (.ok (some ((value? key l).getD .nil)), l)
  | .containsKey key => (.ok (some (.bool (find key l).isSome)), l)
  | .remove key =>
    (.ok (some ((value? key l).getD .nil)), Ordered.remove Prod.fst Value.nativeEq key l)
  | .clear => (.ok none, [])
where
  value? (key : Value U) (l : List (Value U × Value U)) : Option (Value U) :=
    (Ordered.get Prod.fst Value.nativeEq key l).map Prod.snd

/-- The keys equal to the operation's have its hash, and the position of a new entry fits. -/
def Fits (m : MapState U) (op : MapOp U) : Prop :=
  (∀ key ∈ op.key?, KeyFits m key) ∧
    ∀ key ∈ op.stored?, (∀ e ∈ m.entries, e.key.nativeEq key = false) →
      m.entries.length < 2 ^ 32

instance (m : MapState U) (op : MapOp U) : Decidable (op.Fits m) :=
  inferInstanceAs (Decidable ((∀ key ∈ op.key?, ∀ e ∈ m.entries, e.key.roundTrips key) ∧ _))

/-- `Fits`, of the list of the entries. -/
def FitsListed (l : List (Value U × Value U)) (op : MapOp U) : Prop :=
  (∀ key ∈ op.key?, ∀ e ∈ l, e.1.roundTrips key) ∧
    ∀ key ∈ op.stored?, (∀ e ∈ l, e.1.nativeEq key = false) → l.length < 2 ^ 32

instance (l : List (Value U × Value U)) (op : MapOp U) : Decidable (op.FitsListed l) :=
  inferInstanceAs (Decidable ((∀ key ∈ op.key?, ∀ e ∈ l, e.1.roundTrips key) ∧ _))

variable {vm} {m : MapState U} {op : MapOp U}

theorem fits_of_listed (h : op.FitsListed m.listed) : op.Fits m := by
  obtain ⟨hTrips, hRoom⟩ := h
  refine ⟨fun key hKey e he => hTrips key hKey _ (List.mem_map_of_mem he), fun key hKey hNew => ?_⟩
  have hLess := hRoom key hKey fun e he => by
    obtain ⟨e', he', rfl⟩ := List.mem_map.mp he
    exact hNew e' he'
  rwa [listed, List.length_map] at hLess

theorem apply_eq (h : Held vm m) (hExact : ∀ key ∈ op.key?, key.keyNativeExact)
    (hFits : op.Fits m) :
    (op.apply vm m).1 = (op.spec (checkInsert vm m.elem) m.listed).1 ∧
      Held vm (op.apply vm m).2 ∧ (op.apply vm m).2.elem = m.elem ∧
      (op.apply vm m).2.listed = (op.spec (checkInsert vm m.elem) m.listed).2 := by
  -- both ways of storing: the element is checked, and put at the position of its key or at the end
  have hPut (key v : Value U) (hExact : key.keyNativeExact) (hKey : KeyFits m key)
      (hRoom : (∀ e ∈ m.entries, e.key.nativeEq key = false) → m.entries.length < 2 ^ 32) :
      (apply vm m (.put key v)).1 = (spec (checkInsert vm m.elem) m.listed (.put key v)).1 ∧
        Held vm (apply vm m (.put key v)).2 ∧ (apply vm m (.put key v)).2.elem = m.elem ∧
        (apply vm m (.put key v)).2.listed =
          (spec (checkInsert vm m.elem) m.listed (.put key v)).2 := by
    have hApply : apply vm m (.put key v) =
        settle m do return (none, ← mapPutAny vm m key v) := rfl
    cases hElem : checkInsert vm m.elem v with
    | error e =>
      have hPut : mapPutAny vm m key v = .error e := by
        rw [mapPutAny, hElem]
        rfl
      simp only [hApply, hPut, spec, hElem]
      exact ⟨rfl, h, rfl, rfl⟩
    | ok =>
      obtain ⟨m', hPut, hHeld, hSame, hListed⟩ := h.mapPutAny hExact hKey hRoom hElem
      simp only [hApply, hPut, spec, hElem]
      exact ⟨rfl, hHeld, hSame, hListed⟩
  cases op with
  | put key v => exact hPut key v (hExact key rfl) (hFits.1 key rfl) (hFits.2 key rfl)
  | set key v =>
    -- the fast path stores as the general one does
    have hSet : mapSet vm m key v = mapPutAny vm m key v :=
      mapSet_eq h.index key v h.decides
    have hApply : apply vm m (.set key v) = apply vm m (.put key v) := by
      show settle m (do return (none, ← mapSet vm m key v)) = _
      rw [hSet]
      rfl
    rw [hApply]
    exact hPut key v (hExact key rfl) (hFits.1 key rfl) (hFits.2 key rfl)
  | get key =>
    rw [apply, h.mapGetAny (hExact key rfl) (hFits.1 key rfl)]
    exact ⟨rfl, h, rfl, rfl⟩
  | fetch key =>
    rw [apply, mapGet_eq h.index key h.decides, h.mapGetAny (hExact key rfl) (hFits.1 key rfl)]
    exact ⟨rfl, h, rfl, rfl⟩
  | containsKey key =>
    obtain ⟨hash, -, hFound⟩ := h.mapFind (hExact key rfl) (hFits.1 key rfl)
    rw [apply, hFound]
    refine ⟨?_, h, rfl, rfl⟩
    show Except.ok (some (Value.bool ((find key m.listed).map UInt32.ofNat).isSome)) = _
    rw [Option.isSome_map]
    rfl
  | remove key =>
    obtain ⟨m', hRemove, hHeld, hSame, hListed⟩ := h.mapRemove (hExact key rfl) (hFits.1 key rfl)
    rw [apply, hRemove]
    exact ⟨rfl, hHeld, hSame, hListed⟩
  | clear => exact ⟨rfl, .newEmpty _, rfl, rfl⟩

/-- A map of this element tag that holds these entries. -/
def Holds (vm : Dispatch U E) (elem : Option ElemTag) (m : MapState U)
    (l : List (Value U × Value U)) : Prop :=
  Held vm m ∧ m.elem = elem ∧ m.listed = l

theorem holds_newEmpty (elem : Option ElemTag) : Holds vm elem (newEmpty elem) [] :=
  ⟨.newEmpty elem, rfl, rfl⟩

theorem Holds.apply {elem : Option ElemTag} {l : List (Value U × Value U)} (h : Holds vm elem m l)
    (hOp : (∀ key ∈ op.key?, key.keyNativeExact) ∧ op.Fits m) :
    (op.apply vm m).1 = (op.spec (checkInsert vm elem) l).1 ∧
      Holds vm elem (op.apply vm m).2 (op.spec (checkInsert vm elem) l).2 := by
  obtain ⟨hHeld, hElem, rfl⟩ := h
  obtain ⟨hAnswer, hHeld', hSame, hListed⟩ := apply_eq hHeld hOp.1 hOp.2
  rw [hElem] at hAnswer hSame hListed
  exact ⟨hAnswer, hHeld', hSame, hListed⟩

/-- What a run of operations does to a map, it does to the list of its entries. -/
theorem outcomes_eq (elem : Option ElemTag) {ops : List (MapOp U)}
    (hExact : ∀ op ∈ ops, ∀ key ∈ op.key?, key.keyNativeExact)
    (hFits : Ordered.Throughout (apply vm) Fits (newEmpty elem) ops) :
    (Ordered.outcomes (apply vm) (newEmpty elem) ops).1 =
        (Ordered.outcomes (spec (checkInsert vm elem)) [] ops).1 ∧
      Refines vm (Ordered.outcomes (apply vm) (newEmpty elem) ops).2
        (Ordered.outcomes (spec (checkInsert vm elem)) [] ops).2 := by
  obtain ⟨hAnswers, hHeld, -, hListed⟩ :=
    Ordered.outcomes_refine (fun _ _ _ h hOp => h.apply hOp) ops (holds_newEmpty elem)
      (Ordered.throughout_and hExact hFits)
  exact ⟨hAnswers, hListed ▸ hHeld.refines⟩

/-- Whether the operations of a run fit can be seen on the list of the entries. -/
theorem fits_of_spec (elem : Option ElemTag) {ops : List (MapOp U)}
    (hExact : ∀ op ∈ ops, ∀ key ∈ op.key?, key.keyNativeExact)
    (h : Ordered.Throughout (spec (checkInsert vm elem)) FitsListed [] ops) :
    Ordered.Throughout (apply vm) Fits (newEmpty elem) ops := by
  refine Ordered.Throughout.mono (fun _ _ h => h.2) <| Ordered.throughout_refine ?_
    (fun _ _ _ h hOp => (h.apply hOp).2) ops (holds_newEmpty elem)
    (Ordered.throughout_and hExact h)
  rintro m l op ⟨-, -, rfl⟩ ⟨hExact, hFits⟩
  exact ⟨hExact, fits_of_listed hFits⟩

end MapOp

end Operations

end Quoin.Maps
