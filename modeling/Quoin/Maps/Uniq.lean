import Mathlib
import Quoin.Maps.Sets
import Quoin.Trans.Distinct
import Quoin.Trans.Traverse

/-!
# Quoin — sets and `uniq`

`uniq` of a list keeps the elements that no element kept before is `==` to.
Adding the elements to a Set keeps those that no element with the same hash is
equal to by the ladder of the map keys. The ladder asks `==:` too, but the
hashes rule out what it would have answered: Lists, Maps and Sets are hashed by
identity and compared by their contents, and classes by identity and by
inheritance. So the two keep the same elements exactly for values whose `==:`
answers what hash and ladder answer (`Agree`), and then `contains?:` of the
list answers what that of the Set does.

The `==:` of the collections sends `==:` to what is in them, and that of Set
hashes its elements again (`hashAt`); each such send takes one of the native
calls that may be nested (`room`).

## Results

* `setOf_ok` — a set holds what hash and ladder tell apart.
* `set_uniq` — sets are what `uniq` makes of the elements exactly if these agree;
  values of the built-in classes do where `==:` of two of them is the native one
  and no Integer equals a Double that converts to another Integer.
* `set_uniq_lists` — two Lists, or two Sets, with the same elements do not agree.
-/

namespace Quoin.Maps

open Trans NativeMapState

/-! ## `==:` -/

namespace Value

variable {U : Type}

/-- Not an object of a user class, or of another native class. -/
def isPlain : Value U → Bool
  | .native _ | .object _ => false
  | _ => true

/-- Two Lists, two Maps, two Sets or two classes: their `==:` is not the native one. -/
def comparesContents : Value U → Value U → Bool
  | .list _, .list _ | .map _, .map _ | .set _, .set _ => true
  | .cls _, .cls _ | .classMeta _, .classMeta _ | .cls _, .classMeta _ | .classMeta _, .cls _ =>
    true
  | _, _ => false

end Value

/-- A VM with its heap: what `==:` of the built-in classes looks at. -/
structure Vm (U E : Type) extends Dispatch U E where
  /-- The elements of a List. -/
  lists : Int64 → List (Value U)
  /-- The entries of a Map. -/
  maps : Int64 → MapState U
  /-- The elements of a Set. -/
  sets : Int64 → SetState U
  /-- `is_subclass_of_clz`. -/
  isSubclass : Int64 → Int64 → Bool
  /-- `==:` of another native object. -/
  nativeSend : Int64 → Value U → Except E Bool
  /-- The error of `enter_native_reentry` at `MAX_NATIVE_REENTRY`. -/
  exhausted : E

section Model

variable {U E : Type} [DecidableEq U] (vm : Vm U E)

/-- Sending `==:` and asking whether the answer is true. -/
abbrev Test (U E : Type) := Value U → Value U → Except (Fault E) Bool

/-- Hashing a value. -/
abbrev Hasher (U E : Type) := Value U → Except (Fault E) UInt64

/-- `keys_equal`, with what a send answers. -/
def ladder (call : Test U E) (a b : Value U) : Except (Fault E) Bool :=
  if a.nativeEq b then .ok true else
  if a.keyNativeExact && b.keyNativeExact then .ok false else
  call a b

/-- The first of the candidates that is equal. -/
def firstMatch (call : Test U E) (value : Value U) :
    List (UInt32 × Value U) → Except (Fault E) (Option UInt32)
  | [] => .ok none
  | (i, e) :: rest => do
    if ← ladder call e value then return some i else firstMatch call value rest

/-- `==:` of List, for lists of one length. -/
def listEq (call : Test U E) : List (Value U) → List (Value U) → Except (Fault E) Bool
  | a :: as, b :: bs => do if ← call a b then listEq call as bs else return false
  | _, _ => .ok true

/-- `==:` of Map, for maps of one size: the entries of the receiver one by one. -/
def mapEq (call : Test U E) (rhs : MapState U) :
    List (Entry (Value U) (Value U)) → Except (Fault E) Bool
  | [] => .ok true
  | e :: rest => do
    match ← firstMatch call e.key (← rhs.bucket e.hash) with
    | none => return false
    | some i =>
      if ← call e.value (← rhs.valueAt i) then mapEq call rhs rest else return false

/-- `set_find`, with what the sends answer. -/
def setFindWith (hash : Hasher U E) (call : Test U E) (s : SetState U) (value : Value U) :
    Except (Fault E) (UInt64 × Option UInt32) := do
  let h ← hash value
  return (h, ← firstMatch call value (← s.bucket h))

/-- `==:` of Set, for sets of one size: the elements of the receiver one by one. -/
def setEq (hash : Hasher U E) (call : Test U E) (rhs : SetState U) :
    List (SetEntry (Value U)) → Except (Fault E) Bool
  | [] => .ok true
  | e :: rest => do
    match ← setFindWith hash call rhs e.value with
    | (_, none) => return false
    | (_, some _) => setEq hash call rhs rest

/-- `==:` of a value; `hash` and `call` are the sends it makes. Where a class does not say otherwise,
it is the native `==`. -/
def sendEqWith (hash : Hasher U E) (call : Test U E) : Test U E
  | .object u, b => (vm.eq u b).mapError .raised
  | .native p, b => (vm.nativeSend p b).mapError .raised
  | .list p, .list q =>
    if (vm.lists p).length ≠ (vm.lists q).length then .ok false
    else listEq call (vm.lists p) (vm.lists q)
  | .map p, .map q =>
    if (vm.maps p).entries.length ≠ (vm.maps q).entries.length then .ok false
    else mapEq call (vm.maps q) (vm.maps p).entries
  | .set p, .set q =>
    if (vm.sets p).entries.length ≠ (vm.sets q).entries.length then .ok false
    else setEq hash call (vm.sets q) (vm.sets p).entries
  | .cls l, .cls r | .classMeta l, .classMeta r | .cls l, .classMeta r | .classMeta l, .cls r =>
    .ok (vm.isSubclass l r)
  | a, b => .ok (a.nativeEq b)

/-- `map_hash_key`, where `room` more native calls may be nested: `hash` is only sent to an object
of a user class. -/
def hashAt (room : Nat) : Hasher U E := fun key =>
  if key.hashScalar vm.toDispatch = none ∧ room = 0 then .error (.raised vm.exhausted)
  else mapHashKey vm.toDispatch key

/-- `call_method` with `==:`, where `room` more native calls may be nested. -/
def callEq : Nat → Test U E
  | 0 => fun _ _ => .error (.raised vm.exhausted)
  | room + 1 => sendEqWith vm (hashAt vm room) (callEq room)

def MAX_NATIVE_REENTRY : Nat := 12

/-- `a == b` in Quoin. -/
def eqSend (room : Nat) : Test U E := sendEqWith vm (hashAt vm room) (callEq vm room)

/-! ## Lists and sets -/

/-- `contains?:` of the Iterate mixin. -/
def contains (room : Nat) (l : List (Value U)) (item : Value U) : Except (Fault E) Bool :=
  meets (eqSend vm room) l item

/-- `uniq`. -/
def uniq (room : Nat) (l : List (Value U)) : Except (Fault E) (List (Value U)) :=
  distinct (eqSend vm room) l

/-- `set_find`. -/
def setFindAny (room : Nat) : SetState U → Value U → Except (Fault E) (UInt64 × Option UInt32) :=
  setFindWith (hashAt vm room) (callEq vm room)

/-- `add:` on an untagged set. -/
def setAddAny (room : Nat) (s : SetState U) (value : Value U) :
    Except (Fault E) (SetState U) := do
  match ← setFindAny vm room s value with
  | (_, some _) => return s
  | (hash, none) => return s.append hash value

/-- A set of the elements of a list, added in their order. -/
def setOf (room : Nat) (l : List (Value U)) : Except (Fault E) (SetState U) :=
  l.foldlM (setAddAny vm room) (.newEmpty none)

/-- `contains?:` of Set. -/
def setContains (room : Nat) (s : SetState U) (value : Value U) : Except (Fault E) Bool := do
  return (← setFindAny vm room s value).2.isSome

/-- What a set makes of `a` in it and `b`: they have one hash, and the ladder finds them equal. -/
def sameInSet (room : Nat) : Test U E := fun a b => do
  let hash ← hashAt vm room a
  let hash' ← hashAt vm room b
  if hash = hash' then ladder (callEq vm room) a b else return false

/-- A set of the elements of `l` holds what `uniq` keeps, in the same order, and says of `v` what
the list says of it. -/
def Alike (room : Nat) (l : List (Value U)) (v : Value U) : Prop :=
  (setOf vm room l).map NativeSetState.listed = uniq vm room l ∧
    ∀ s, setOf vm room l = .ok s → setContains vm room s v = contains vm room l v

/-- `==:` of values goes with their hashes: they have hashes; of two of them `==:` answers what hash
and ladder do; and what equals a third value is not told from it by an element equal to it. -/
structure Agree (room : Nat) (S : Set (Value U)) : Prop where
  hashed : ∀ a ∈ S, ∃ hash, hashAt vm room a = .ok hash
  same : ∀ a ∈ S, ∀ b ∈ S, eqSend vm room a b = sameInSet vm room a b
  stands : ∀ a ∈ S, ∀ b ∈ S, ∀ c ∈ S, eqSend vm room a b = .ok true →
    eqSend vm room a c = .ok false → eqSend vm room b c = .ok false

end Model

/-! ## What a set holds -/

section Facts

variable {U E : Type} [DecidableEq U] {vm : Vm U E} (room : Nat) {call : Test U E}
  {s s' : SetState U} {a b v : Value U} {l : List (Value U)} {hash hash' : UInt64}

omit [DecidableEq U] in
/-- The candidates of a hash are the keys that have it, in order. -/
theorem bucket_keys {m : MapState U} (h : m.IndexOk) (hSmall : m.entries.length ≤ 2 ^ 32)
    (hash : UInt64) : ∃ cs, m.bucket hash = (.ok cs : Except (Fault E) _) ∧
      cs.map Prod.snd = (m.entries.filter fun e => e.hash = hash).map Entry.key := by
  have hEntry : ∀ p ∈ m.entries.zipIdx.filter (fun q => q.1.hash = hash),
      (do return (UInt32.ofNat p.2, (← m.entryAt (.ofNat p.2)).key) :
        Except (Fault E) (UInt32 × Value U)) = .ok (.ofNat p.2, p.1.key) := by
    intro p hp
    have hGet := List.mem_zipIdx_iff_getElem?.mp (List.mem_filter.mp hp).1
    rw [entryAt_ofNat hGet hSmall]
    rfl
  refine ⟨(m.entries.zipIdx.filter fun q => q.1.hash = hash).map
    fun p => (.ofNat p.2, p.1.key), ?_, ?_⟩
  · rw [bucket, h.candidates_eq, positions, List.mapM_map]
    exact Trans.mapM_of_ok hEntry
  · have hFst : (m.entries.zipIdx.filter fun q => q.1.hash = hash).map Prod.fst
        = m.entries.filter fun e => e.hash = hash := by
      show (m.entries.zipIdx.filter ((fun e => decide (e.hash = hash)) ∘ Prod.fst)).map Prod.fst = _
      rw [← List.filter_map, List.zipIdx_map_fst]
    rw [← hFst, List.map_map, List.map_map]
    rfl

theorem isSome_firstMatch (cs : List (UInt32 × Value U)) :
    (firstMatch call v cs).map Option.isSome = meets (ladder call) (cs.map Prod.snd) v := by
  induction cs with
  | nil => rfl
  | cons c cs ih =>
    obtain ⟨i, e⟩ := c
    rw [firstMatch, List.map_cons, meets, ← ih]
    rcases ladder call e v with _ | _ | _ <;> rfl

theorem sameInSet_eq (hHash : hashAt vm room a = .ok hash)
    (hHash' : hashAt vm room b = .ok hash') : sameInSet vm room a b
      = if hash = hash' then ladder (callEq vm room) a b else .ok false := by
  rw [sameInSet, hHash, hHash']
  rfl

/-- Going through the elements with a hash is going through all of them, hashes compared. -/
theorem meets_hashed {es : List (SetEntry (Value U))}
    (hHashed : ∀ e ∈ es, hashAt vm room e.value = .ok e.hash)
    (hHash : hashAt vm room v = .ok hash) :
    meets (ladder (callEq vm room)) ((es.filter fun e => e.hash = hash).map SetEntry.value) v
      = meets (sameInSet vm room) (es.map SetEntry.value) v := by
  induction es with
  | nil => rfl
  | cons e es ih =>
    have hRest := ih fun e' he' => hHashed e' (List.mem_cons_of_mem e he')
    have hSame := sameInSet_eq room (hHashed e List.mem_cons_self) hHash
    rw [List.map_cons, meets, hSame, ← hRest, List.filter_cons]
    by_cases hEq : e.hash = hash
    · rw [if_pos hEq, if_pos (decide_eq_true hEq), List.map_cons, meets]
    · rw [if_neg hEq, if_neg (by simpa using hEq)]
      rfl

/-- A set built by adding: its index is right, its positions fit, and its hashes are those of its
elements. -/
structure Built (vm : Vm U E) (room : Nat) (s : SetState U) : Prop where
  index : s.asMap.IndexOk
  small : s.entries.length ≤ 2 ^ 32
  hashed : ∀ e ∈ s.entries, hashAt vm room e.value = .ok e.hash

namespace Built

omit [DecidableEq U] in
theorem newEmpty : Built vm room (.newEmpty none) := ⟨.newEmpty none, Nat.zero_le _, nofun⟩

/-- The search goes through the elements that hash and ladder may find equal. -/
theorem find (h : Built vm room s) (hHash : hashAt vm room v = .ok hash) :
    (setFindAny vm room s v).map (fun p => (p.1, p.2.isSome))
      = (meets (sameInSet vm room) s.listed v).map fun b => (hash, b) := by
  have hSmall : s.asMap.entries.length ≤ 2 ^ 32 := by
    show (s.entries.map _).length ≤ 2 ^ 32
    rw [List.length_map]
    exact h.small
  obtain ⟨cs, hBucket, hKeys⟩ := bucket_keys (E := E) h.index hSmall hash
  have hFilter : (s.asMap.entries.filter fun e => e.hash = hash).map Entry.key
      = (s.entries.filter fun e => e.hash = hash).map SetEntry.value := by
    rw [NativeSetState.asMap, List.filter_map, List.map_map]
    rfl
  have hFind : setFindAny vm room s v
      = (firstMatch (callEq vm room) v cs).map fun found => (hash, found) := by
    rw [NativeSetState.asMap_bucket] at hBucket
    rw [setFindAny, setFindWith, hHash]
    show (s.bucket hash >>= fun cs => firstMatch (callEq vm room) v cs >>= fun found =>
      pure (hash, found)) = _
    rw [hBucket]
    show firstMatch (callEq vm room) v cs >>= _ = _
    rcases firstMatch (callEq vm room) v cs with _ | _ <;> rfl
  rw [NativeSetState.listed, ← meets_hashed room h.hashed hHash, ← hFilter, ← hKeys,
    ← isSome_firstMatch, hFind]
  rcases firstMatch (callEq vm room) v cs with _ | _ <;> rfl

theorem contains (h : Built vm room s) (hHash : hashAt vm room v = .ok hash) :
    setContains vm room s v = meets (sameInSet vm room) s.listed v := by
  have hFound : setContains vm room s v
      = ((setFindAny vm room s v).map fun p => (p.1, p.2.isSome)).map Prod.snd := by
    rw [setContains]
    rcases setFindAny vm room s v with _ | _ <;> rfl
  rw [hFound, h.find room hHash]
  rcases meets (sameInSet vm room) s.listed v with _ | _ <;> rfl

omit [DecidableEq U] in
theorem append (h : Built vm room s) (hHash : hashAt vm room v = .ok hash)
    (hRoom : s.entries.length < 2 ^ 32) :
    Built vm room (s.append hash v) ∧ (s.append hash v).listed = s.listed ++ [v] := by
  have hEntries : (s.append hash v).entries = s.entries ++ [⟨hash, v⟩] := by
    unfold NativeSetState.append
    dsimp only
    split
    · split <;> rfl
    · rfl
  refine ⟨⟨?_, ?_, ?_⟩, ?_⟩
  · rw [NativeSetState.asMap_append]
    exact h.index.append hash v .nil
  · rw [hEntries, List.length_append, List.length_singleton]
    exact hRoom
  · rw [hEntries, List.forall_mem_append, List.forall_mem_singleton]
    exact ⟨h.hashed, hHash⟩
  · rw [NativeSetState.listed, hEntries, List.map_append]
    rfl

/-- Adding keeps what hash and ladder make of it. -/
theorem add (h : Built vm room s) (hHash : hashAt vm room v = .ok hash)
    (hRoom : s.entries.length < 2 ^ 32) :
    (setAddAny vm room s v).map NativeSetState.listed = keep (sameInSet vm room) s.listed v ∧
      ∀ s', setAddAny vm room s v = .ok s' → Built vm room s' := by
  have hFind := h.find room hHash
  obtain ⟨hAppend, hListed⟩ := h.append room hHash hRoom
  rw [setAddAny, keep]
  rcases hF : setFindAny vm room s v with e | ⟨hash', _ | i⟩ <;>
    rcases hMeets : meets (sameInSet vm room) s.listed v with e' | _ | _ <;>
    rw [hF, hMeets] at hFind <;> cases hFind
  · exact ⟨rfl, fun s' hs' => by cases hs'⟩
  · refine ⟨congrArg Except.ok hListed, fun s' hs' => ?_⟩
    cases hs'
    exact hAppend
  · refine ⟨rfl, fun s' hs' => ?_⟩
    cases hs'
    exact h

end Built

/-- Adding the elements keeps those that hash and ladder tell from all kept before. -/
theorem setOf_ok (hHashed : ∀ a ∈ l, ∃ hash, hashAt vm room a = .ok hash)
    (hSmall : l.length ≤ 2 ^ 32) :
    (setOf vm room l).map NativeSetState.listed = distinct (sameInSet vm room) l ∧
      ∀ s, setOf vm room l = .ok s → Built vm room s := by
  induction l using List.reverseRecOn with
  | nil =>
    refine ⟨rfl, fun s hs => ?_⟩
    cases hs
    exact .newEmpty room
  | append_singleton l v ih =>
    rw [List.length_append, List.length_singleton] at hSmall
    obtain ⟨hListed, hBuilt⟩ := ih (fun a ha => hHashed a (List.mem_append_left _ ha)) (by omega)
    obtain ⟨hash, hHash⟩ := hHashed v (by simp)
    have hStep : setOf vm room (l ++ [v])
        = setOf vm room l >>= fun s => setAddAny vm room s v := by
      rw [setOf, List.foldlM_append]
      refine congrArg (setOf vm room l >>= ·) (funext fun s => ?_)
      rw [List.foldlM_cons]
      rcases setAddAny vm room s v with _ | _ <;> rfl
    rw [hStep, distinct_append_singleton]
    rcases hOf : setOf vm room l with e | s <;> rw [hOf] at hListed
    · rw [← hListed]
      exact ⟨rfl, nofun⟩
    · have hLength : s.entries.length ≤ l.length := by
        have := length_distinct hListed.symm
        rwa [NativeSetState.listed, List.length_map] at this
      rw [← hListed]
      exact (hBuilt s hOf).add room hHash (by omega)

theorem setOf_singleton (hHash : hashAt vm room a = .ok hash) :
    ∃ s, setOf vm room [a] = .ok s ∧ Built vm room s ∧ s.listed = [a] := by
  obtain ⟨hListed, hBuilt⟩ := setOf_ok room (l := [a]) (by simpa using ⟨hash, hHash⟩) (by simp)
  rcases hOf : setOf vm room [a] with e | s <;> rw [hOf] at hListed
  · cases hListed
  · exact ⟨s, rfl, hBuilt s hOf, Except.ok.inj hListed⟩

variable {S : Set (Value U)}

/-- Where `==:` goes with the hashes, a set is what `uniq` keeps. -/
theorem Agree.alike (h : Agree vm room S) (hIn : ∀ a ∈ l, a ∈ S) (hSmall : l.length ≤ 2 ^ 32)
    (hv : v ∈ S) : Alike vm room l v := by
  obtain ⟨hListed, hBuilt⟩ := setOf_ok room (fun a ha => h.hashed a (hIn a ha)) hSmall
  have hUniq : distinct (sameInSet vm room) l = uniq vm room l :=
    distinct_congr fun a ha b hb => (h.same a (hIn a ha) b (hIn b hb)).symm
  refine ⟨hListed.trans hUniq, fun s hs => ?_⟩
  obtain ⟨hash, hHash⟩ := h.hashed v hv
  rw [(hBuilt s hs).contains room hHash]
  have hKept : uniq vm room l = .ok s.listed := by
    rw [← hUniq, ← hListed, hs]
    rfl
  calc meets (sameInSet vm room) s.listed v
      = meets (eqSend vm room) s.listed v :=
        meets_congr fun a ha => (h.same a (hIn a (distinct_subset hKept ha)) v hv).symm
    _ = contains vm room l v :=
        meets_distinct hKept fun a ha b hb => h.stands a (hIn a ha) b (hIn b hb) v hv

/-- Sets of one element, and of two equal ones, tell whether `==:` goes with the hashes. -/
theorem agree_of_alike
    (h : ∀ l, (∀ a ∈ l, a ∈ S) → l.length ≤ 2 ^ 32 → ∀ v ∈ S, Alike vm room l v) :
    Agree vm room S := by
  -- the set of one element is built, so that element has a hash
  have hHashed : ∀ a ∈ S, ∃ hash, hashAt vm room a = .ok hash := by
    intro a ha
    have hSet := (h [a] (by simpa using ha) (by simp) a ha).1
    rcases hHash : hashAt vm room a with e | hash
    · have hOf : setOf vm room [a] = .error e := by
        rw [setOf, List.foldlM_cons, setAddAny, setFindAny, setFindWith, hHash]
        rfl
      rw [hOf] at hSet
      cases hSet
    · exact ⟨hash, rfl⟩
  -- a list of one element: membership in it is equality
  have hSame : ∀ a ∈ S, ∀ b ∈ S, eqSend vm room a b = sameInSet vm room a b := by
    intro a ha b hb
    obtain ⟨hash, hHash⟩ := hHashed a ha
    obtain ⟨hash', hHash'⟩ := hHashed b hb
    obtain ⟨s, hOf, hBuilt, hListed⟩ := setOf_singleton room hHash
    have hContains := (h [a] (by simpa using ha) (by simp) b hb).2 s hOf
    rw [hBuilt.contains room hHash', hListed, contains, meets_singleton, meets_singleton]
      at hContains
    exact hContains.symm
  -- a list of two equal ones is one element for both, and both meet the same values
  refine ⟨hHashed, hSame, fun a ha b hb c hc hab hac => ?_⟩
  have hIn : ∀ x ∈ [a, b], x ∈ S := by simpa using ⟨ha, hb⟩
  obtain ⟨hListed, hContains⟩ := h [a, b] hIn (by simp) c hc
  have hUniq : uniq vm room [a, b] = .ok [a] := by
    have hKeep : keep (eqSend vm room) [a] b = .ok [a] := by
      rw [keep, meets_singleton, hab]
      rfl
    exact (distinct_append_singleton [a] b).trans hKeep
  obtain ⟨hash, hHash⟩ := hHashed c hc
  have hBuilt := (setOf_ok room (fun x hx => hHashed x (hIn x hx)) (by simp)).2
  -- so the set has one element too
  rw [hUniq] at hListed
  rcases hOf : setOf vm room [a, b] with e | s <;> rw [hOf] at hListed
  · cases hListed
  have hC := hContains s hOf
  rw [(hBuilt s hOf).contains room hHash, Except.ok.inj hListed, meets_singleton,
    ← hSame a ha c hc, hac, contains, meets, hac] at hC
  have hRest : meets (eqSend vm room) [b] c = .ok false := hC.symm
  rwa [meets_singleton] at hRest

/-! ## Plain values -/

/-- `==:` of plain values is the native one, but of two Lists, two Maps or two classes. -/
theorem eqSend_plain (ha : a.isPlain) (hab : a.comparesContents b = false) (hash : Hasher U E)
    (call : Test U E) : sendEqWith vm hash call a b = .ok (a.nativeEq b) := by
  cases a <;> cases b <;> first
    | rfl
    | exact absurd ha Bool.false_ne_true
    | exact absurd hab.symm Bool.false_ne_true

omit [DecidableEq U] in
theorem hashAt_plain (vm : Vm U E) (room : Nat) (ha : a.isPlain) :
    ∃ hash, a.hashScalar vm.toDispatch = some hash ∧ hashAt vm room a = .ok hash := by
  cases hHash : a.hashScalar vm.toDispatch with
  | none =>
    cases a with
    | double d =>
      rw [Value.hashScalar] at hHash
      split at hHash <;> cases hHash
    | object u => cases ha
    | _ => cases hHash
  | some hash =>
    refine ⟨hash, rfl, ?_⟩
    unfold hashAt mapHashKey
    rw [hHash, if_neg fun h => Option.some_ne_none _ h.1]

/-- A List or a Map is found by hash and ladder where it is the same one. -/
theorem nativeEq_of_hash (hInj : Function.Injective vm.hashI64)
    (hHash : a.hashScalar vm.toDispatch = b.hashScalar vm.toDispatch)
    (hExact : (a.keyNativeExact && b.keyNativeExact) = false)
    (hab : a.comparesContents b = true) : a.nativeEq b = true := by
  cases a <;> cases b <;> first
    | exact absurd hab Bool.false_ne_true
    | exact absurd hExact.symm Bool.false_ne_true
    | exact decide_eq_true (hInj (Option.some.inj hHash))

theorem ladder_plain (hInj : Function.Injective vm.hashI64) (ha : a.isPlain) (hRoom : 0 < room)
    (hHash : a.hashScalar vm.toDispatch = b.hashScalar vm.toDispatch) :
    ladder (callEq vm room) a b = .ok (a.nativeEq b) := by
  rw [ladder]
  cases hEq : a.nativeEq b with
  | true => rfl
  | false =>
    rw [if_neg Bool.false_ne_true]
    cases hExact : a.keyNativeExact && b.keyNativeExact with
    | true => rfl
    | false =>
      rw [if_neg Bool.false_ne_true, ← Nat.succ_pred_eq_of_pos hRoom, callEq, ← hEq]
      refine eqSend_plain ha ?_ _ _
      by_contra hContents
      rw [nativeEq_of_hash hInj hHash hExact (Bool.not_eq_false _ ▸ hContents)] at hEq
      cases hEq

/-- A set tells plain values by the native `==`, and by their hashes. -/
theorem sameInSet_plain (hInj : Function.Injective vm.hashI64) (ha : a.isPlain) (hb : b.isPlain)
    (hRoom : 0 < room) : sameInSet vm room a b = .ok (a.nativeEq b && a.roundTrips b) := by
  obtain ⟨hash, hScalar, hHash⟩ := hashAt_plain vm room ha
  obtain ⟨hash', hScalar', hHash'⟩ := hashAt_plain vm room hb
  rw [sameInSet_eq room hHash hHash']
  by_cases hEq : hash = hash'
  · have hScalars : a.hashScalar vm.toDispatch = b.hashScalar vm.toDispatch := by
      rw [hScalar, hScalar', hEq]
    rw [if_pos hEq, ladder_plain room hInj ha hRoom hScalars]
    cases hNative : a.nativeEq b with
    | true => rw [Value.roundTrips_of_hash hInj hNative hScalars, Bool.and_self]
    | false => rfl
  · rw [if_neg hEq]
    cases hNative : a.nativeEq b with
    | true =>
      cases hRound : a.roundTrips b with
      | true =>
        have hScalars : a.hashScalar vm.toDispatch = b.hashScalar vm.toDispatch :=
          Value.hashScalar_eq hNative hRound
        rw [hScalar, hScalar'] at hScalars
        exact absurd (Option.some.inj hScalars) hEq
      | false => rfl
    | false => rfl

omit [DecidableEq U] in
theorem roundTrips_of_contents (hab : a.comparesContents b = true) : a.roundTrips b = true := by
  cases a <;> cases b <;> first | rfl | exact absurd hab Bool.false_ne_true

/-- Plain values agree where `==:` of two of them is the native one, which does not round. -/
theorem agree_plain (hInj : Function.Injective vm.hashI64) (hRoom : 0 < room)
    (hPlain : ∀ a ∈ S, a.isPlain) : Agree vm room S ↔
      ∀ a ∈ S, ∀ b ∈ S, eqSend vm room a b = .ok (a.nativeEq b) ∧ a.roundTrips b := by
  have hSet {a b : Value U} (ha : a ∈ S) (hb : b ∈ S) :=
    sameInSet_plain room hInj (hPlain a ha) (hPlain b hb) hRoom
  constructor
  · intro h a ha b hb
    have hSame := (h.same a ha b hb).trans (hSet ha hb)
    have hRound : a.roundTrips b = true := by
      cases hContents : a.comparesContents b with
      | true => exact roundTrips_of_contents hContents
      | false =>
        have hNative := (eqSend_plain (hPlain a ha) hContents _ _).symm.trans hSame
        cases hEq : a.nativeEq b with
        | true => simpa [hEq] using hNative
        | false => exact Value.roundTrips_of_ne hEq
    exact ⟨by rw [hSame, hRound, Bool.and_true], hRound⟩
  · intro h
    have hEq {a b : Value U} (ha : a ∈ S) (hb : b ∈ S) : eqSend vm room a b = .ok true ↔
        a.nativeEq b = true := by
      rw [(h a ha b hb).1, Except.ok.injEq]
    refine ⟨fun a ha => ?_, fun a ha b hb => ?_, fun a ha b hb c hc hab hac => ?_⟩
    · obtain ⟨hash, -, hHash⟩ := hashAt_plain vm room (hPlain a ha)
      exact ⟨hash, hHash⟩
    · rw [hSet ha hb, (h a ha b hb).1, (h a ha b hb).2, Bool.and_true]
    · rw [(h b hb c hc).1]
      refine congrArg Except.ok (Bool.eq_false_iff.mpr fun hbc => ?_)
      have hTrans := Value.nativeEq_trans ((hEq ha hb).mp hab) hbc (h a ha b hb).2 (h b hb c hc).2
      rw [(h a ha c hc).1, hTrans] at hac
      cases hac

end Facts

/-! ## The theorem -/

/-- **A set of any elements of `S` is what `uniq` makes of them exactly if `==:` of them goes with
their hashes.** Plain values do where `==:` of two of them is the native one, and does not round. -/
theorem set_uniq {U E : Type} [DecidableEq U] (vm : Vm U E) (room : Nat) (S : Set (Value U)) :
    ((∀ l, (∀ a ∈ l, a ∈ S) → l.length ≤ 2 ^ 32 → ∀ v ∈ S, Alike vm room l v) ↔
      Agree vm room S) ∧
    (Function.Injective vm.hashI64 → 0 < room → (∀ a ∈ S, a.isPlain) →
      (Agree vm room S ↔
        ∀ a ∈ S, ∀ b ∈ S, eqSend vm room a b = .ok (a.nativeEq b) ∧ a.roundTrips b)) :=
  ⟨⟨agree_of_alike room, fun h _ hIn hSmall _ hv => h.alike room hIn hSmall hv⟩,
    agree_plain room⟩

/-- A VM without user classes, whose Lists and Sets hold one Integer. -/
def listsOfOne : Vm Empty Unit :=
  { scalarsOnly with
    lists _ := [.int 1]
    maps _ := .newEmpty none
    sets _ := (NativeSetState.newEmpty none).append (scalarsOnly.hashI64 1) (.int 1)
    isSubclass p q := p = q
    nativeSend p b := .ok (Value.nativeEq (.native p) b)
    exhausted := () }

/-- Integers and Strings agree with their hashes, so a set of them keeps what `uniq` keeps. -/
theorem set_uniq_scalars : ∀ l : List (Value Empty),
    (∀ a ∈ l, (∃ i, a = .int i) ∨ ∃ s, a = .string s) → l.length ≤ 2 ^ 32 →
      ∀ v, ((∃ i, v = .int i) ∨ ∃ s, v = .string s) → Alike listsOfOne MAX_NATIVE_REENTRY l v := by
  have hUniq := set_uniq listsOfOne MAX_NATIVE_REENTRY
    fun a => (∃ i, a = .int i) ∨ ∃ s, a = .string s
  refine hUniq.1.mpr ((hUniq.2 scalarsOnly_injective (by decide) ?_).mpr ?_)
  · rintro a (⟨i, rfl⟩ | ⟨s, rfl⟩) <;> rfl
  · rintro a (⟨i, rfl⟩ | ⟨s, rfl⟩) b (⟨j, rfl⟩ | ⟨t, rfl⟩) <;> exact ⟨rfl, rfl⟩

/-- Two Lists with the same elements are two elements of a set, where `uniq` keeps one of them, and
so are two Sets with the same elements. -/
theorem set_uniq_lists :
    (setOf listsOfOne MAX_NATIVE_REENTRY [.list 1, .list 2]).map NativeSetState.listed
        = .ok [.list 1, .list 2] ∧
      uniq listsOfOne MAX_NATIVE_REENTRY [.list 1, .list 2] = .ok [.list 1] ∧
      (setOf listsOfOne MAX_NATIVE_REENTRY [.set 1, .set 2]).map NativeSetState.listed
        = .ok [.set 1, .set 2] ∧
      uniq listsOfOne MAX_NATIVE_REENTRY [.set 1, .set 2] = .ok [.set 1] ∧
      ¬ ∀ l v, Alike listsOfOne MAX_NATIVE_REENTRY l v := by
  have hSet : (setOf listsOfOne MAX_NATIVE_REENTRY [.list 1, .list 2]).map NativeSetState.listed
      = .ok [.list 1, .list 2] := rfl
  have hUniq : uniq listsOfOne MAX_NATIVE_REENTRY [.list 1, .list 2] = .ok [.list 1] := rfl
  refine ⟨hSet, hUniq, rfl, rfl, fun h => ?_⟩
  have hAlike := (h [.list 1, .list 2] .nil).1
  rw [hSet, hUniq] at hAlike
  cases hAlike

end Quoin.Maps
