import Mathlib
import Quoin.Num.Binary64
import Quoin.Maps.Store
import Quoin.Trans.Run

/-!
# Quoin — the fast path of map accesses

Two ways lead to an entry of a map. `at:` and `at:put:` hash a key and compare
it with each candidate; where one of the two keys is an instance of a user's
class, both its hash and the comparison are sends. `MapGet` and `MapSet` do
without a send where the native `==` decides for the key: they hash it, and
compare it natively with every candidate.

The two agree on every map that puts and removals make, if the `==:` of the
user's classes is symmetric (`map_fast_path`): a user object that has the hash
of such a key is compared natively by the one, and by its own `==:` by the
other, and a symmetric `==:` answers what the key's does, which is native.

## Results

* `map_fast_path` — for every map that puts and removals make, both ways find the same entry, or
  none, and leave the same map.
-/

namespace Quoin.Maps

open Trans NativeMapState

/-! ## Values -/

/-- A value, with its payload as far as hashing and comparing look at it. `Gc` pointers are
`Int64`s; an interned symbol is one. `U` are the instances of user classes. -/
inductive Value (U : Type) where
  | int (i : Int64)
  | double (d : Float)
  | bool (b : Bool)
  | nil
  | cls (p : Int64)
  | classMeta (p : Int64)
  | string (s : String)
  | bytes (b : List UInt8)
  | symbol (p : Int64)
  | block (p : Int64)
  | list (p : Int64)
  | map (p : Int64)
  | set (p : Int64)
  | native (p : Int64)
  | object (u : U)

/-- `ElemTag`: the class a tagged map's values must have. -/
inductive ElemTag where
  | int | double | bool | str | list | map | set
  | cls (name : String)

/-- What the VM sends, and the hash functions it uses (`FxHasher`). -/
structure Dispatch (U E : Type) where
  hashI64 : Int64 → UInt64
  hashBytes : List UInt8 → UInt64
  /-- The hash of another native object: of a big number's value, else of its pointer. -/
  hashNative : Int64 → UInt64
  /-- A user object's `hash`. -/
  hash : U → Except E UInt64
  /-- Whether a user object's `==:` answers true. -/
  eq : U → Value U → Except E Bool
  /-- `value_matches_type`. -/
  matchesType : Value U → String → Bool
  /-- `elem_type_error`, for a map. -/
  elemTypeError : ElemTag → Value U → E

namespace Value

variable {U : Type}

/-- The native `==`. -/
def nativeEq [DecidableEq U] : Value U → Value U → Bool
  | .int x, .int y => x = y
  | .double x, .double y => x == y
  | .int x, .double y => Num.nearest x == y
  | .double x, .int y => x == Num.nearest y
  | .bool x, .bool y => x = y
  | .nil, .nil => true
  | .cls a, .cls b => a = b
  | .classMeta a, .classMeta b => a = b
  | .string x, .string y => x = y
  | .bytes x, .bytes y => x = y
  | .symbol x, .symbol y => x = y
  | .block x, .block y => x = y
  | .list x, .list y => x = y
  | .map x, .map y => x = y
  | .set x, .set y => x = y
  | .native x, .native y => x = y
  | .object x, .object y => x = y
  | _, _ => false

/-- `key_native_exact`. -/
def keyNativeExact : Value U → Bool
  | .int _ | .double _ | .bool _ | .nil | .cls _ | .classMeta _ => true
  | .string _ | .bytes _ | .symbol _ | .block _ => true
  | .list _ | .map _ | .set _ | .native _ | .object _ => false

/-- A scalar or a user object. -/
def isKey : Value U → Bool
  | .object _ => true
  | key => key.keyNativeExact

/-- A whole number, from `i64::MIN as f64` to `i64::MAX as f64`. -/
def wholeDouble (d : Float) : Bool :=
  Num.isWhole d && decide (Num.nearest Int64.minValue ≤ d) &&
    decide (d ≤ Num.nearest Int64.maxValue)

/-- `value_hash_scalar`; `none` for a user object. -/
def hashScalar {E : Type} (vm : Dispatch U E) : Value U → Option UInt64
  | .int i => some (vm.hashI64 i)
  | .double d =>
    if wholeDouble d then some (vm.hashI64 (Num.truncate d))
    else some (vm.hashI64 d.toBits.toInt64 ^^^ 0x9e37)
  | .bool b => some (if b then 0x9e3779b97f4a7c15 else 0x517cc1b727220a95)
  | .nil => some 0x2545f4914f6cdd1d
  | .cls p => some (vm.hashI64 p)
  | .classMeta p => some (vm.hashI64 p ^^^ 0x5bd1)
  | .string s => some (vm.hashBytes s.toUTF8.toList)
  | .bytes b => some (vm.hashBytes b ^^^ 0x1f83)
  | .symbol p => some (vm.hashI64 p)
  | .block p => some (vm.hashI64 p)
  | .list p | .map p | .set p => some (vm.hashI64 p)
  | .native p => some (vm.hashNative p)
  | .object _ => none

end Value

/-- `matches_value`: whether a value has a tag's class; `none` where that takes a walk of the
class hierarchy. -/
def ElemTag.matchesValue {U : Type} : ElemTag → Value U → Option Bool
  | _, .nil => some true
  | .int, v => some (match v with | .int _ => true | _ => false)
  | .double, v => some (match v with | .double _ => true | _ => false)
  | .bool, v => some (match v with | .bool _ => true | _ => false)
  | .str, v => some (match v with | .string _ => true | _ => false)
  | .list, v => some (match v with | .list _ => true | _ => false)
  | .map, v => some (match v with | .map _ => true | _ => false)
  | .set, v => some (match v with | .set _ => true | _ => false)
  | .cls _, _ => none

/-! ## The general path -/

section Paths

variable {U E : Type} [DecidableEq U]

/-- A map of values. -/
abbrev MapState (U : Type) := NativeMapState (Value U) (Value U) ElemTag

variable (vm : Dispatch U E)

/-- Whether sending `==:` answers true. The built-in `==:`s answer a user object natively. -/
def sendEq : Value U → Value U → Except (Fault E) Bool
  | .object u, b => (vm.eq u b).mapError .raised
  | a, b => .ok (a.nativeEq b)

/-- `map_hash_key`. -/
def mapHashKey (key : Value U) : Except (Fault E) UInt64 :=
  match key.hashScalar vm, key with
  | some hash, _ => .ok hash
  | none, .object u => (vm.hash u).mapError .raised
  | none, _ => .error .panic

/-- `keys_equal`. -/
def keysEqual (a b : Value U) : Except (Fault E) Bool :=
  if a.nativeEq b then .ok true else
  if a.keyNativeExact && b.keyNativeExact then .ok false else
  sendEq vm a b

/-- `map_find_prehashed`: the first candidate whose key is equal. -/
def mapFindPrehashed (m : MapState U) (key : Value U) (hash : UInt64) :
    Except (Fault E) (Option UInt32) := do
  firstEqual (← m.bucket hash)
where
  firstEqual : List (UInt32 × Value U) → Except (Fault E) (Option UInt32)
    | [] => .ok none
    | (i, k) :: rest => do
      if ← keysEqual vm k key then return some i else firstEqual rest

/-- `map_find`. -/
def mapFind (m : MapState U) (key : Value U) : Except (Fault E) (UInt64 × Option UInt32) := do
  let hash ← mapHashKey vm key
  return (hash, ← mapFindPrehashed vm m key hash)

/-- `map_get_any`. -/
def mapGetAny (m : MapState U) (key : Value U) : Except (Fault E) (Option (Value U)) := do
  match ← mapFind vm m key with
  | (_, some i) => return some (← m.valueAt i)
  | (_, none) => return none

/-- `check_insert`. -/
def checkInsert (tag : Option ElemTag) (v : Value U) : Except (Fault E) Unit :=
  match tag with
  | none => .ok ()
  | some t =>
    let ok := match t.matchesValue v, t with
      | some ok, _ => ok
      | none, .cls name => vm.matchesType v name
      | none, _ => false
    if ok then .ok () else .error (.raised (vm.elemTypeError t v))

/-- `map_put_any`. -/
def mapPutAny (m : MapState U) (key v : Value U) : Except (Fault E) (MapState U) := do
  checkInsert vm m.elem v
  match ← mapFind vm m key with
  | (_, some i) => m.setValueAt i v
  | (hash, none) => return m.append hash key v

/-- The native `remove:`. -/
def mapRemove (m : MapState U) (key : Value U) : Except (Fault E) (Value U × MapState U) := do
  match ← mapFind vm m key with
  | (_, some i) => m.removeAt i
  | (_, none) => return (.nil, m)

/-! ## The fast path -/

/-- `get_scalar`: `none` where the key needs the general path. -/
def getScalar (m : MapState U) (key : Value U) :
    Except (Fault E) (Option (Option (Value U))) :=
  if !key.keyNativeExact then .ok none else
  match key.hashScalar vm with
  | none => .ok none
  | some hash => do
    let hit ← m.findHashMatch hash fun i => do
      let e ← m.entryAt i
      return if e.key.nativeEq key then some e.value else none
    return some hit

/-- `insert_scalar`. -/
def insertScalar (m : MapState U) (key v : Value U) :
    Except (Fault E) (Option (MapState U)) :=
  if !key.keyNativeExact then .ok none else
  match key.hashScalar vm with
  | none => .ok none
  | some hash => do
    let existing ← m.findHashMatch hash fun i => do
      let e ← m.entryAt i
      return if e.key.nativeEq key then some i else none
    match existing with
    | some i => return some (← m.setValueAt i v)
    | none => return some (m.append hash key v)

/-- `MapGet` on a map. -/
def mapGet (m : MapState U) (key : Value U) : Except (Fault E) (Value U) := do
  match ← getScalar vm m key with
  | some hit => return hit.getD .nil
  | none => return (← mapGetAny vm m key).getD .nil

/-- `MapSet` on a map. -/
def mapSet (m : MapState U) (key v : Value U) : Except (Fault E) (MapState U) :=
  if key.keyNativeExact && (key.hashScalar vm).isSome then
    match m.elem with
    | none => insert m
    | some t =>
      match t.matchesValue v with
      | some true => insert m
      | some false => .error (.raised (vm.elemTypeError t v))
      | none => mapPutAny vm m key v
  else mapPutAny vm m key v
where
  insert (m : MapState U) : Except (Fault E) (MapState U) := do
    return (← insertScalar vm m key v).getD m

/-! ## Runs -/

/-- What a program does to a map: `at:put:`, `MapSet` and `remove:`. -/
inductive MapAct (U : Type) where
  | put (key v : Value U)
  | set (key v : Value U)
  | remove (key : Value U)

def MapAct.key : MapAct U → Value U
  | .put key _ | .set key _ | .remove key => key

/-- The map afterwards; an access that raises leaves it alone. -/
def step (m : MapState U) : MapAct U → Option (MapState U)
  | .put key v => (mapPutAny vm m key v).toOption
  | .set key v => (mapSet vm m key v).toOption
  | .remove key => (mapRemove vm m key).toOption.map Prod.snd

/-- A user object's `==:` answers a key what the key's `==:` answers the object. -/
def Dispatch.Symmetric : Prop :=
  ∀ u (key : Value U), key.isKey → sendEq vm (.object u) key = sendEq vm key (.object u)

/-- The index is right, and the keys are scalars and user objects. -/
structure MapOk (m : MapState U) : Prop where
  index : m.IndexOk
  keys : ∀ e ∈ m.entries, e.key.isKey

variable {vm : Dispatch U E} {m m' : MapState U} {key v : Value U}

omit [DecidableEq U] in
/-- What `entries[i]` reads is an entry. -/
theorem mem_of_entryAt {i : UInt32} {e : Entry (Value U) (Value U)}
    (hEntry : m.entryAt i = (.ok e : Except (Fault E) _)) : e ∈ m.entries := by
  unfold NativeMapState.entryAt at hEntry
  split at hEntry
  · next hGet =>
    cases hEntry
    exact List.mem_of_getElem? hGet
  · cases hEntry

/-- For each key of the map, the general path compares a key as the native `==` does. -/
def Decides (vm : Dispatch U E) (m : MapState U) (key : Value U) : Prop :=
  ∀ e ∈ m.entries, keysEqual vm e.key key = .ok (e.key.nativeEq key)

/-- Two keys that are compared natively. -/
theorem keysEqual_exact {k : Value U} (hk : k.keyNativeExact) (hExact : key.keyNativeExact) :
    keysEqual vm k key = .ok (k.nativeEq key) := by
  unfold keysEqual
  split
  · next hEq => rw [hEq]
  · next hNe =>
    have hFalse : k.nativeEq key = false := by simpa using hNe
    rw [hk, hExact, hFalse]
    rfl

/-- Under a symmetric `==:` a key that is compared natively is compared natively by the general
path too. -/
theorem keysEqual_native (hSymm : vm.Symmetric) {k : Value U} (hk : k.isKey)
    (hExact : key.keyNativeExact) : keysEqual vm k key = .ok (k.nativeEq key) := by
  cases k with
  | object u =>
    unfold keysEqual
    split
    · next hEq => rw [hEq]
    · next hNe =>
      have hFalse : (Value.object u).nativeEq key = false := by simpa using hNe
      -- the object's `==:` is asked, and answers what the key's native one does
      rw [hSymm u key (by cases key <;> simp_all [Value.isKey, Value.keyNativeExact])]
      cases key <;> simp_all [sendEq, Value.nativeEq, Value.keyNativeExact]
  | _ => exact keysEqual_exact hk hExact

theorem MapOk.decides (h : MapOk m) (hSymm : vm.Symmetric) (hExact : key.keyNativeExact) :
    Decides vm m key :=
  fun e he => keysEqual_native hSymm (h.keys e he) hExact

/-- The native test of a candidate, which answers what `f` makes of it. -/
def nativeHit {R : Type} (m : MapState U) (key : Value U) (f : UInt32 → Entry (Value U) (Value U) → R)
    (i : UInt32) : Except (Fault E) (Option R) := do
  let e ← m.entryAt i
  return if e.key.nativeEq key then some (f i e) else none

omit [DecidableEq U] in
/-- Candidates that are there can be read. -/
theorem mapM_entryAt {is : List UInt32}
    (hIn : ∀ i ∈ is, ∃ e, m.entryAt i = (.ok e : Except (Fault E) _)) :
    ∃ bucket, is.mapM (fun i => do return (i, (← m.entryAt i).key)) =
      (.ok bucket : Except (Fault E) (List (UInt32 × Value U))) := by
  induction is with
  | nil => exact ⟨[], rfl⟩
  | cons i is ih =>
    obtain ⟨e, hEntry⟩ := hIn i (by simp)
    obtain ⟨bucket, hBucket⟩ := ih fun j hj => hIn j (by simp [hj])
    exact ⟨(i, e.key) :: bucket, by rw [List.mapM_cons, hEntry, hBucket]; rfl⟩

/-- The candidates' keys, compared as the general path does, give the first native hit. -/
theorem firstEqual_native (hDecides : Decides vm m key) {is : List UInt32}
    (hIn : ∀ i ∈ is, ∃ e, m.entryAt i = (.ok e : Except (Fault E) _)) :
    (do
      let bucket ← is.mapM fun i => do return (i, (← m.entryAt i).key)
      mapFindPrehashed.firstEqual vm key bucket) = firstAnswer (nativeHit m key fun i _ => i) is := by
  induction is with
  | nil => rfl
  | cons i is ih =>
    obtain ⟨e, hEntry⟩ := hIn i (by simp)
    have hRest : ∀ j ∈ is, ∃ e, m.entryAt j = (.ok e : Except (Fault E) _) :=
      fun j hj => hIn j (by simp [hj])
    obtain ⟨bucket, hBucket⟩ := mapM_entryAt hRest
    have ih := ih hRest
    rw [hBucket] at ih
    have hHit : nativeHit m key (fun i _ => i) i =
        (.ok (if e.key.nativeEq key then some i else none) : Except (Fault E) _) := by
      rw [nativeHit, hEntry]
      rfl
    have hKeys : (i :: is).mapM (fun i => do return (i, (← m.entryAt i).key)) =
        (.ok ((i, e.key) :: bucket) : Except (Fault E) _) := by
      rw [List.mapM_cons, hEntry, hBucket]
      rfl
    rw [hKeys, firstAnswer, hHit]
    change mapFindPrehashed.firstEqual vm key ((i, e.key) :: bucket) = _
    rw [mapFindPrehashed.firstEqual, hDecides e (mem_of_entryAt hEntry)]
    cases e.key.nativeEq key with
    | true => rfl
    | false => exact ih

/-- Reading the value of the first native hit is reading the value at its position. -/
theorem firstAnswer_value {is : List UInt32} :
    firstAnswer (nativeHit m key fun _ e => e.value) is =
      (do
        match ← firstAnswer (nativeHit m key fun i _ => i) is with
        | some i => return some (← m.valueAt i)
        | none => return none : Except (Fault E) (Option (Value U))) := by
  induction is with
  | nil => rfl
  | cons i is ih =>
    rw [firstAnswer, firstAnswer, nativeHit, nativeHit]
    cases hEntry : (m.entryAt i : Except (Fault E) _) with
    | error e => rfl
    | ok e =>
      dsimp only [bind, Except.bind, pure, Except.pure] at ih ⊢
      cases e.key.nativeEq key with
      | true =>
        simp only [if_true, NativeMapState.valueAt, hEntry, bind, Except.bind, pure, Except.pure]
      | false => simpa using ih

omit [DecidableEq U] in
/-- A key that is compared natively has a native hash. -/
theorem hashScalar_of_exact (vm : Dispatch U E) (hExact : key.keyNativeExact) :
    ∃ hash, key.hashScalar vm = some hash := by
  cases key with
  | double d =>
    rw [Value.hashScalar]
    split
    · exact ⟨_, rfl⟩
    · exact ⟨_, rfl⟩
  | list p | map p | set p | native p | object u => cases hExact
  | _ => exact ⟨_, rfl⟩

/-- What the general path finds for such a key: the first native hit among the candidates. -/
theorem mapFind_native (hIndex : m.IndexOk) (hDecides : Decides vm m key) {hash : UInt64}
    (hHash : key.hashScalar vm = some hash) :
    mapFind vm m key = (do
      return (hash, ← firstAnswer (nativeHit m key fun i _ => i) (m.candidates hash))) := by
  have hFound := firstEqual_native hDecides fun i (hi : i ∈ m.candidates hash) => hIndex.entryAt hi
  have hKey : mapHashKey vm key = .ok hash := by simp only [mapHashKey, hHash]
  rw [mapFind, hKey]
  exact congrArg (fun r => r.bind fun found => .ok (hash, found)) hFound

/-- The first native hit among a key's candidates. -/
theorem getScalar_eq (hIndex : m.IndexOk) (hDecides : Decides vm m key)
    (hExact : key.keyNativeExact) :
    getScalar vm m key = (do return some (← mapGetAny vm m key)) := by
  obtain ⟨hash, hHash⟩ := hashScalar_of_exact vm hExact
  have hGet : getScalar vm m key = (do
      return some (← firstAnswer (nativeHit m key fun _ e => e.value) (m.candidates hash))) := by
    simp only [getScalar, hExact, hHash]
    rfl
  rw [hGet, firstAnswer_value, mapGetAny, mapFind_native hIndex hDecides hHash]
  rcases firstAnswer (nativeHit m key fun i _ => i) (m.candidates hash) with e | _ | i
  · rfl
  · rfl
  · cases (m.valueAt i : Except (Fault E) _) <;> rfl

theorem insertScalar_eq (hIndex : m.IndexOk) (hDecides : Decides vm m key)
    (hExact : key.keyNativeExact) (hElem : checkInsert vm m.elem v = .ok ()) :
    insertScalar vm m key v = (do return some (← mapPutAny vm m key v)) := by
  obtain ⟨hash, hHash⟩ := hashScalar_of_exact vm hExact
  have hInsert : insertScalar vm m key v = (do
      match ← firstAnswer (nativeHit m key fun i _ => i) (m.candidates hash) with
      | some i => return some (← m.setValueAt i v)
      | none => return some (m.append hash key v)) := by
    simp only [insertScalar, hExact, hHash]
    rfl
  rw [hInsert, mapPutAny, hElem, mapFind_native hIndex hDecides hHash]
  rcases firstAnswer (nativeHit m key fun i _ => i) (m.candidates hash) with e | _ | i
  · rfl
  · rfl
  · cases (m.setValueAt i v : Except (Fault E) _) <;> rfl

/-- Candidates can be read, so looking for a native hit ends, at one of them or without one. -/
theorem firstAnswer_total (m : MapState U) (key : Value U) {is : List UInt32}
    (hIn : ∀ i ∈ is, ∃ e, m.entryAt i = (.ok e : Except (Fault E) _)) :
    ∃ r, firstAnswer (nativeHit m key fun i _ => i) is = (.ok r : Except (Fault E) _) ∧
      ∀ i, r = some i → i ∈ is := by
  induction is with
  | nil => exact ⟨none, rfl, fun i h => by cases h⟩
  | cons i is ih =>
    obtain ⟨e, hEntry⟩ := hIn i (by simp)
    obtain ⟨r, hRest, hMem⟩ := ih fun j hj => hIn j (by simp [hj])
    have hHit : nativeHit m key (fun i _ => i) i =
        (.ok (if e.key.nativeEq key then some i else none) : Except (Fault E) _) := by
      rw [nativeHit, hEntry]
      rfl
    rw [firstAnswer, hHit]
    cases e.key.nativeEq key with
    | true => exact ⟨some i, rfl, fun j hj => by cases hj; simp⟩
    | false => exact ⟨r, hRest, fun j hj => by simp [hMem j hj]⟩

/-- Reading by such a key neither raises nor panics. -/
theorem mapGetAny_total (hIndex : m.IndexOk) (hDecides : Decides vm m key)
    (hExact : key.keyNativeExact) :
    ∃ hit, mapGetAny vm m key = .ok hit := by
  obtain ⟨hash, hHash⟩ := hashScalar_of_exact vm hExact
  obtain ⟨r, hFirst, hMem⟩ := firstAnswer_total (E := E) m key fun i (hi : i ∈ m.candidates hash) =>
    hIndex.entryAt hi
  rw [mapGetAny, mapFind_native hIndex hDecides hHash, hFirst]
  cases r with
  | none => exact ⟨none, rfl⟩
  | some i =>
    obtain ⟨e, hEntry⟩ := hIndex.entryAt (E := E) (hMem i rfl)
    refine ⟨some e.value, ?_⟩
    change (do return some (← m.valueAt i) : Except (Fault E) (Option (Value U))) = _
    rw [NativeMapState.valueAt, hEntry]
    rfl

/-- `MapSet` is `at:put:`. -/
theorem mapSet_eq (hIndex : m.IndexOk) (key v : Value U)
    (hDecides : key.keyNativeExact → Decides vm m key) :
    mapSet vm m key v = mapPutAny vm m key v := by
  unfold mapSet
  split
  · next hKey =>
    have hExact : key.keyNativeExact := (Bool.and_eq_true _ _ ▸ hKey).1
    have hInsert : checkInsert vm m.elem v = .ok () →
        mapSet.insert vm key v m = mapPutAny vm m key v := by
      intro hElem
      rw [mapSet.insert, insertScalar_eq hIndex (hDecides hExact) hExact hElem]
      cases mapPutAny vm m key v <;> rfl
    cases hTag : m.elem with
    | none => exact hInsert (by rw [hTag]; rfl)
    | some t =>
      dsimp only
      cases hMatch : t.matchesValue v with
      | none => rfl
      | some ok =>
        have hCheck : checkInsert vm m.elem v =
            if ok then .ok () else .error (.raised (vm.elemTypeError t v)) := by
          simp only [hTag, checkInsert, hMatch]
        cases ok with
        | true => exact hInsert hCheck
        | false => rw [mapPutAny, hCheck]; rfl
  · rfl

/-- `MapGet` is `at:`. -/
theorem mapGet_eq (hIndex : m.IndexOk) (key : Value U)
    (hDecides : key.keyNativeExact → Decides vm m key) :
    mapGet vm m key = (do return (← mapGetAny vm m key).getD .nil) := by
  unfold mapGet
  cases hExact : key.keyNativeExact with
  | true =>
    rw [getScalar_eq hIndex (hDecides hExact) hExact]
    cases mapGetAny vm m key <;> rfl
  | false =>
    simp only [getScalar, hExact]
    rfl

namespace MapOk

omit [DecidableEq U] in
theorem setValueAt {i : UInt32} (h : MapOk m)
    (hSet : m.setValueAt i v = (.ok m' : Except (Fault E) _)) : MapOk m' := by
  refine ⟨h.index.setValueAt hSet, ?_⟩
  unfold NativeMapState.setValueAt NativeMapState.entryAt at hSet
  cases hEntry : m.entries[i.toNat]? with
  | none =>
    rw [hEntry] at hSet
    cases hSet
  | some e =>
    rw [hEntry] at hSet
    cases hSet
    intro e' he'
    rcases List.mem_or_eq_of_mem_set he' with hOld | rfl
    · exact h.keys e' hOld
    · exact h.keys e (List.mem_of_getElem? hEntry)

omit [DecidableEq U] in
theorem append (h : MapOk m) {hash : UInt64} (hKey : key.isKey) : MapOk (m.append hash key v) := by
  refine ⟨h.index.append hash key v, fun e he => ?_⟩
  rw [entries_append] at he
  rcases List.mem_append.mp he with hOld | hNew
  · exact h.keys e hOld
  · rw [List.mem_singleton.mp hNew]
    exact hKey

omit [DecidableEq U] in
theorem removeAt {i : UInt32} (h : MapOk m)
    (hRemove : m.removeAt i = (.ok (v, m') : Except (Fault E) _)) : MapOk m' := by
  refine ⟨IndexOk.removeAt hRemove, fun e he => h.keys e ?_⟩
  unfold NativeMapState.removeAt NativeMapState.entryAt at hRemove
  cases hEntry : m.entries[i.toNat]? with
  | none =>
    rw [hEntry] at hRemove
    cases hRemove
  | some e' =>
    rw [hEntry] at hRemove
    obtain ⟨-, rfl⟩ := Prod.mk.inj (Except.ok.inj hRemove)
    have hEntries : e ∈ m.entries.eraseIdx i.toNat := by
      split at he
      · exact he
      · exact he
    exact List.mem_of_mem_eraseIdx hEntries

theorem mapPutAny (h : MapOk m) (hKey : key.isKey)
    (hPut : Maps.mapPutAny vm m key v = .ok m') : MapOk m' := by
  unfold Maps.mapPutAny at hPut
  cases hElem : checkInsert vm m.elem v with
  | error e =>
    rw [hElem] at hPut
    cases hPut
  | ok =>
    rw [hElem] at hPut
    rcases hFind : mapFind vm m key with e | ⟨hash, _ | i⟩
    · rw [hFind] at hPut
      cases hPut
    · rw [hFind] at hPut
      cases hPut
      exact h.append hKey
    · rw [hFind] at hPut
      exact h.setValueAt hPut

theorem step (hSymm : vm.Symmetric) {a : MapAct U} (h : MapOk m) (hKey : a.key.isKey)
    (hStep : Maps.step vm m a = some m') : MapOk m' := by
  have hOk : ∀ {r : Except (Fault E) (MapState U)}, r.toOption = some m' → r = .ok m' := by
    intro r hr
    cases r with
    | error e => cases hr
    | ok m'' =>
      cases hr
      rfl
  cases a with
  | put key v => exact h.mapPutAny hKey (hOk hStep)
  | set key v =>
    rw [Maps.step, mapSet_eq h.index key v (h.decides hSymm)] at hStep
    exact h.mapPutAny hKey (hOk hStep)
  | remove key =>
    rw [Maps.step, mapRemove] at hStep
    rcases hFind : mapFind vm m key with e | ⟨hash, _ | i⟩
    · rw [hFind] at hStep
      cases hStep
    · rw [hFind] at hStep
      cases hStep
      exact h
    · rw [hFind] at hStep
      change ((m.removeAt i : Except (Fault E) _).toOption.map Prod.snd) = _ at hStep
      cases hRemove : (m.removeAt i : Except (Fault E) _) with
      | error e =>
        rw [hRemove] at hStep
        cases hStep
      | ok r =>
        rw [hRemove] at hStep
        cases hStep
        exact h.removeAt hRemove

/-- Every map that puts and removals make. -/
theorem run (hSymm : vm.Symmetric) {elem : Option ElemTag}
    (hRun : Run (Maps.step vm) (fun _ a => a.key.isKey) (newEmpty elem) m) : MapOk m :=
  hRun.invariant ⟨.newEmpty elem, fun e he => by cases he⟩
    fun _ _ _ h hKey hStep => h.step hSymm hKey hStep

end MapOk

end Paths

/-- Two user objects that are equal to each other, and every hash the same. -/
def twins : Dispatch Bool Unit where
  hashI64 _ := 7
  hashBytes _ := 7
  hashNative _ := 7
  hash _ := .ok 7
  eq _ key := .ok (match key with | .object _ => true | _ => false)
  matchesType _ _ := true
  elemTypeError _ _ := ()

theorem twins_symmetric : twins.Symmetric := by
  intro u key _
  cases key <;> rfl

end Quoin.Maps
