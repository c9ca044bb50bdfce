import Mathlib
import Quoin.Maps.Sets
import Quoin.Trans.Run

/-!
# Quoin — maps and sets under user hooks

To hash a user's object is to send it `hash`, and to compare a key with another that
is not native is to send `==:`. Such a method may do anything: park, so that other
tasks run, or use this very map or set. So an operation is here not one step but
several: it stops at each send, and goes on with the answer while others may have
come in between (`step`).

What it holds on to meanwhile are positions: `bucket` has told it the position of
each candidate, and it goes to the position of the one that matched, whatever the
entries have become. Alone, where hooks do no more than answer, it does what the
operation of `MapOp` does: this is what ties the steps to `mapPutAny` and the
others, which are translated from the source in one piece. The argument follows an
operation from its end backwards: what is done there (`ends_toEnd`), then the loop
over the candidates by induction on what is left of them (`ends_search`), then the
candidates taken (`ends_findPrehashed`), then the whole (`alone`).

## Results

* `run_maps`  — the pieces of a map's operation make up the operation.
* `map_alone` — an operation that starts alone, and whose hooks answer what `vm`
  answers, ends with the answer and the map of the one in one piece.
-/

namespace Quoin.Maps

open NativeMapState

/-! ## Maps and sets -/

/-- What an operation `O` on a collection `S` does around its search for a key. -/
structure Searched (S O U E : Type) where
  entries : S → List (Entry (Value U) (Value U))
  bucket : S → UInt64 → Except (Fault E) (List (UInt32 × Value U))
  key? : O → Option (Value U)
  /-- The check of what is to be stored. -/
  check : S → O → Except (Fault E) Unit
  /-- Whether candidates are compared by the native `==` alone. -/
  native : S → O → Bool
  /-- Whether it goes to the position of a candidate that matches. -/
  goesTo : O → Bool
  /-- Whether it stores its key where no candidate matches. -/
  stores : O → Bool
  finish : S → O → UInt64 → Option UInt32 → Except (Fault E) (Option (Value U) × S)

section Collections

variable {U E : Type} (vm : Dispatch U E)

namespace MapOp

def check (m : MapState U) : MapOp U → Except (Fault E) Unit
  | .put _ v | .set _ v => checkInsert vm m.elem v
  | .get _ | .fetch _ | .containsKey _ | .remove _ | .clear => .ok ()

/-- `MapGet` and `MapSet` without a send. -/
def native (m : MapState U) : MapOp U → Bool
  | .fetch key => key.keyNativeExact
  | .set key v => key.keyNativeExact && (key.hashScalar vm).isSome &&
    match m.elem with
    | none => true
    | some t => (t.matchesValue v).isSome
  | .put _ _ | .get _ | .containsKey _ | .remove _ | .clear => false

def goesTo : MapOp U → Bool
  | .put _ _ | .set _ _ | .get _ | .fetch _ | .remove _ => true
  | .containsKey _ | .clear => false

def stores : MapOp U → Bool
  | .put _ _ | .set _ _ => true
  | .get _ | .fetch _ | .containsKey _ | .remove _ | .clear => false

def finish (m : MapState U) : MapOp U → UInt64 → Option UInt32 →
    Except (Fault E) (Option (Value U) × MapState U)
  | .put _ v, _, some i | .set _ v, _, some i => do return (none, ← m.setValueAt i v)
  | .put key v, hash, none | .set key v, hash, none => .ok (none, m.append hash key v)
  | .get _, _, some i | .fetch _, _, some i => do return (some (← m.valueAt i), m)
  | .get _, _, none => .ok (none, m)
  | .fetch _, _, none => .ok (some .nil, m)
  | .containsKey _, _, found => .ok (some (.bool found.isSome), m)
  | .remove _, _, some i => do
    let (v, m') ← m.removeAt i
    return (some v, m')
  | .remove _, _, none => .ok (some .nil, m)
  | .clear, _, _ => .ok (none, m)

end MapOp

namespace SetOp

def check (s : SetState U) : SetOp U → Except (Fault E) Unit
  | .add value => checkInsert vm s.elem value
  | .contains _ | .remove _ | .clear => .ok ()

def goesTo : SetOp U → Bool
  | .remove _ => true
  | .add _ | .contains _ | .clear => false

def stores : SetOp U → Bool
  | .add _ => true
  | .contains _ | .remove _ | .clear => false

def finish (s : SetState U) : SetOp U → UInt64 → Option UInt32 →
    Except (Fault E) (Option (Value U) × SetState U)
  | .add _, _, some _ => .ok (none, s)
  | .add value, hash, none => .ok (none, s.append hash value)
  | .contains _, _, found => .ok (some (.bool found.isSome), s)
  | .remove _, _, some i => do return (none, ← s.removeAt i)
  | .remove _, _, none => .ok (none, s)
  | .clear, _, _ => .ok (none, s)

end SetOp

def maps : Searched (MapState U) (MapOp U) U E where
  entries := NativeMapState.entries
  bucket := NativeMapState.bucket
  key? := MapOp.key?
  check := MapOp.check vm
  native := MapOp.native vm
  goesTo := MapOp.goesTo
  stores := MapOp.stores
  finish := MapOp.finish

def sets : Searched (SetState U) (SetOp U) U E where
  entries s := s.asMap.entries
  bucket := NativeSetState.bucket
  key? := SetOp.value?
  check := SetOp.check vm
  native _ _ := false
  goesTo := SetOp.goesTo
  stores := SetOp.stores
  finish := SetOp.finish

end Collections

/-! ## The operations, step by step -/

section Steps

variable {S O U E : Type}

/-- Where an operation waits: for its key's `hash`, or for what the key of a candidate answers to
`==:`; `rest` are the candidates after that one. `seen` are the hashes and keys that were there
when it took its candidates. -/
inductive Waiting (U : Type) where
  | hash
  | eq (hash : UInt64) (i : UInt32) (k : Value U) (rest : List (UInt32 × Value U))
      (seen : List (UInt64 × Value U))

structure Pending (O U : Type) where
  op : O
  key : Value U
  waiting : Waiting U

/-- An operation that has ended its search: the position of the candidate that matched, and its
key. -/
structure Ended (O U : Type) where
  id : Nat
  op : O
  key : Value U
  hash : UInt64
  found : Option (UInt32 × Value U)
  seen : List (UInt64 × Value U)

/-- What an operation has done to the entries. -/
structure Effect (O U : Type) extends Ended O U where
  before : List (Entry (Value U) (Value U))
  after : List (Entry (Value U) (Value U))

/-- A collection and the operations on it that are under way. -/
structure Hooked (S O U E : Type) where
  store : S
  pending : Nat → Option (Pending O U) := fun _ => none
  /-- The native code that runs, at the end of its search. -/
  ended : Option (Ended O U) := none
  answers : List (Nat × Answer E U) := []
  /-- The keys that a comparison has found unequal, with the key looked for. -/
  unlike : List (Value U × Value U) := []
  effects : List (Effect O U) := []

/-- What happens to the collection: an operation begins, the hook that one waits for answers, or
one that has ended its search does what it is for. -/
inductive HookAct (O E : Type) where
  | start (id : Nat) (op : O)
  | hashed (id : Nat) (answer : Except E UInt64)
  | compared (id : Nat) (answer : Except E Bool)
  | finish

namespace Hooked

variable (s : Hooked S O U E)

def answer (id : Nat) (a : Answer E U) : Hooked S O U E :=
  { s with pending := Function.update s.pending id none, answers := (id, a) :: s.answers }

def wait (id : Nat) (p : Pending O U) : Hooked S O U E :=
  { s with pending := Function.update s.pending id (some p) }

def toEnd (e : Ended O U) : Hooked S O U E :=
  { s with pending := Function.update s.pending e.id none, ended := some e }

def tell (k key : Value U) : Hooked S O U E := { s with unlike := (k, key) :: s.unlike }

variable [DecidableEq U] (st : Searched S O U E)

/-- The loop over the candidates, with `keys_equal` in it, up to a send or to its end. -/
def search (id : Nat) (op : O) (key : Value U) (hash : UInt64) (seen : List (UInt64 × Value U))
    (s : Hooked S O U E) : List (UInt32 × Value U) → Hooked S O U E
  | [] => s.toEnd ⟨id, op, key, hash, none, seen⟩
  | (i, k) :: rest =>
    if k.nativeEq key then s.toEnd ⟨id, op, key, hash, some (i, k), seen⟩ else
    if st.native s.store op || (k.keyNativeExact && key.keyNativeExact) then
      search id op key hash seen (s.tell k key) rest
    else s.wait id ⟨op, key, .eq hash i k rest seen⟩

/-- `map_find_prehashed`, and `set_find` from there on. -/
def findPrehashed (id : Nat) (op : O) (key : Value U) (hash : UInt64) : Hooked S O U E :=
  match st.bucket s.store hash with
  | .ok bucket =>
    s.search st id op key hash ((st.entries s.store).map fun e => (e.hash, e.key)) bucket
  | .error e => s.answer id (.error e)

def finish (e : Ended O U) : Hooked S O U E :=
  match st.finish s.store e.op e.hash (e.found.map Prod.fst) with
  | .ok (a, store) =>
    { s.answer e.id (.ok a) with
      store
      ended := none
      effects := ⟨e, st.entries s.store, st.entries store⟩ :: s.effects }
  | .error fault =>
    { s.answer e.id (.error fault) with
      ended := none
      effects := ⟨e, st.entries s.store, st.entries s.store⟩ :: s.effects }

variable (vm : Dispatch U E)

def begin (id : Nat) (op : O) (key : Value U) : Hooked S O U E :=
  match st.check s.store op with
  | .error e => s.answer id (.error e)
  | .ok () =>
    match key.hashScalar vm with
    | some hash => s.findPrehashed st id op key hash
    | none => s.wait id ⟨op, key, .hash⟩

def hashed (id : Nat) (op : O) (key : Value U) : Except E UInt64 → Hooked S O U E
  | .ok hash => s.findPrehashed st id op key hash
  | .error e => s.answer id (.error (.raised e))

def compared (id : Nat) (op : O) (key : Value U) (hash : UInt64) (i : UInt32) (k : Value U)
    (rest : List (UInt32 × Value U)) (seen : List (UInt64 × Value U)) :
    Except E Bool → Hooked S O U E
  | .ok true => s.toEnd ⟨id, op, key, hash, some (i, k), seen⟩
  | .ok false => (s.tell k key).search st id op key hash seen rest
  | .error e => s.answer id (.error (.raised e))

/-- One step; no hook runs between the end of an operation's search and what it does then. -/
def step : HookAct O E → Option (Hooked S O U E)
  | .start id op =>
    if s.ended.isSome || (s.pending id).isSome then none else
    (st.key? op).map fun key => s.begin st vm id op key
  | .hashed id a =>
    if s.ended.isSome then none else
    (s.pending id).bind fun p =>
      match p.waiting with
      | .hash => some (s.hashed st id p.op p.key a)
      | .eq _ _ _ _ _ => none
  | .compared id a =>
    if s.ended.isSome then none else
    (s.pending id).bind fun p =>
      match p.waiting with
      | .eq hash i k rest seen => some (s.compared st id p.op p.key hash i k rest seen a)
      | .hash => none
  | .finish => s.ended.map fun e => s.finish st e

end Hooked

end Steps

/-! ## An operation alone -/

section Alone

variable {S O U E : Type} [DecidableEq U] {vm : Dispatch U E} {st : Searched S O U E}

/-- The whole of an operation that is not native, where hooks do no more than answer. -/
def Searched.run (st : Searched S O U E) (vm : Dispatch U E) (s : S) (op : O) (key : Value U) :
    Except (Fault E) (Option (Value U) × S) := do
  st.check s op
  let hash ← mapHashKey vm key
  let found ← mapFindPrehashed.firstEqual vm key (← st.bucket s hash)
  st.finish s op hash found

/-- What a key answers to `==:`, a user's object by its own method. -/
def eqAnswer (vm : Dispatch U E) : Value U → Value U → Except E Bool
  | .object u, key => vm.eq u key
  | k, key => .ok (k.nativeEq key)

theorem sendEq_eq {k key : Value U} : sendEq vm k key = (eqAnswer vm k key).mapError .raised := by
  cases k <;> rfl

/-- A comparison that is not native is a send. -/
theorem keysEqual_send {k key : Value U} (hNe : k.nativeEq key = false)
    (hAsk : (k.keyNativeExact && key.keyNativeExact) = false) :
    keysEqual vm k key = (eqAnswer vm k key).mapError .raised := by
  rw [keysEqual, hNe, hAsk, ← sendEq_eq]
  rfl

omit [DecidableEq U] in
/-- Only a user's object is asked for its hash. -/
theorem mapHashKey_send {key : Value U} (hHash : key.hashScalar vm = none) :
    ∃ u, key = .object u ∧ mapHashKey vm key = (vm.hash u).mapError .raised := by
  cases key with
  | object u => exact ⟨u, rfl, rfl⟩
  | double d =>
    rw [Value.hashScalar] at hHash
    split at hHash <;> contradiction
  | _ => contradiction

namespace Hooked

/-- How the operation `id` goes on where its hooks answer what `vm` answers: the one action that
it waits for. -/
def ownAct (vm : Dispatch U E) (id : Nat) (s : Hooked S O U E) : Option (HookAct O E) :=
  if s.ended.isSome then some .finish else
  (s.pending id).bind fun p =>
    match p.waiting, p.key with
    | .hash, .object u => some (.hashed id (vm.hash u))
    | .hash, _ => none
    | .eq _ _ k _ _, key => some (.compared id (eqAnswer vm k key))

/-- With `vm`'s answers the operation `id` gets to its end, with a given result. -/
def Ends (st : Searched S O U E) (vm : Dispatch U E) (store : S) (answers : List (Nat × Answer E U))
    (id : Nat) (r : Except (Fault E) (Option (Value U) × S)) (s : Hooked S O U E) : Prop :=
  ∃ s', Trans.Run (fun s => s.step st vm) (fun s a => s.ownAct vm id = some a) s s' ∧
    s'.ownAct vm id = none ∧ s'.answers = (id, (MapOp.settle store r).1) :: answers ∧
    s'.store = (MapOp.settle store r).2

variable {s s' : Hooked S O U E} {id : Nat} {op : O} {key : Value U} {hash : UInt64}
  {r : Except (Fault E) (Option (Value U) × S)} {a : HookAct O E} {store : S}
  {answers : List (Nat × Answer E U)}

theorem ends_after (hOwn : s.ownAct vm id = some a) (hStep : s.step st vm a = some s')
    (h : Ends st vm store answers id r s') : Ends st vm store answers id r s := by
  obtain ⟨s'', hRun, hEnd⟩ := h
  have hFirst : Trans.Run (fun s => s.step st vm) (fun s a => s.ownAct vm id = some a) s s' :=
    .tail .refl hOwn hStep
  exact ⟨s'', hFirst.trans hRun, hEnd⟩

omit [DecidableEq U] in
theorem pending_answer (a : Answer E U) : (s.answer id a).pending id = none := by
  simp [answer]

/-- Once it has answered, it waits for nothing. -/
theorem ownAct_of_gone (hEnded : s.ended = none) (hGone : s.pending id = none) :
    s.ownAct vm id = none := by
  rw [ownAct, hEnded, hGone]
  rfl

theorem ends_answer (hEnded : s.ended = none) (e : Fault E) :
    Ends st vm s.store s.answers id (.error e) (s.answer id (.error e)) :=
  ⟨_, .refl, ownAct_of_gone hEnded (pending_answer _), rfl, rfl⟩

theorem ends_toEnd (e : Ended O U) :
    Ends st vm s.store s.answers e.id (st.finish s.store e.op e.hash (e.found.map Prod.fst))
      (s.toEnd e) := by
  refine ends_after (a := .finish) rfl rfl ⟨_, .refl, ?_⟩
  show ((s.toEnd e).finish st e).ownAct vm e.id = none ∧
    ((s.toEnd e).finish st e).answers = _ ∧ ((s.toEnd e).finish st e).store = _
  have hStore : (s.toEnd e).store = s.store := rfl
  unfold finish
  rw [hStore]
  cases st.finish s.store e.op e.hash (e.found.map Prod.fst) with
  | ok result =>
    have hGone : ((s.toEnd e).answer e.id (.ok result.1)).pending e.id = none := pending_answer _
    exact ⟨ownAct_of_gone rfl hGone, rfl, rfl⟩
  | error e' =>
    have hGone : ((s.toEnd e).answer e.id (.error e')).pending e.id = none := pending_answer _
    exact ⟨ownAct_of_gone rfl hGone, rfl, rfl⟩

theorem ends_search (hSends : st.native store op = false) (seen : List (UInt64 × Value U))
    (cs : List (UInt32 × Value U)) :
    ∀ {s : Hooked S O U E}, s.ended = none → s.store = store → s.answers = answers →
      Ends st vm store answers id (do
        let found ← mapFindPrehashed.firstEqual vm key cs
        st.finish store op hash found) (s.search st id op key hash seen cs) := by
  -- on the candidates that are left, whatever has been found of those before
  induction cs with
  | nil =>
    rintro s - rfl rfl
    exact ends_toEnd ⟨id, op, key, hash, none, seen⟩
  | cons c cs ih =>
    obtain ⟨i, k⟩ := c
    rintro s hEnded rfl rfl
    rw [mapFindPrehashed.firstEqual]
    unfold search
    split_ifs with hEq hNative
    · have hEqual : keysEqual vm k key = .ok true := by rw [keysEqual, if_pos hEq]
      rw [hEqual]
      exact ends_toEnd ⟨id, op, key, hash, some (i, k), seen⟩
    · have hUnequal : keysEqual vm k key = .ok false := by
        rw [hSends, Bool.false_or] at hNative
        rw [keysEqual, if_neg hEq, if_pos hNative]
      rw [hUnequal]
      exact ih hEnded rfl rfl
    · rw [hSends, Bool.false_or, Bool.not_eq_true] at hNative
      have hAnswer : keysEqual vm k key = (eqAnswer vm k key).mapError .raised :=
        keysEqual_send (Bool.not_eq_true _ ▸ hEq) hNative
      -- it waits for the answer, and goes on with the one that `vm` gives
      let waits : Hooked S O U E := s.wait id ⟨op, key, .eq hash i k cs seen⟩
      have hWaits : waits.pending id = some ⟨op, key, .eq hash i k cs seen⟩ :=
        Function.update_self id _ s.pending
      have hOwn : waits.ownAct vm id = some (.compared id (eqAnswer vm k key)) := by
        rw [ownAct, show waits.ended = none from hEnded, hWaits]
        rfl
      have hStep : waits.step st vm (.compared id (eqAnswer vm k key)) =
          some (waits.compared st id op key hash i k cs seen (eqAnswer vm k key)) := by
        rw [step, show waits.ended = none from hEnded, hWaits]
        rfl
      refine ends_after hOwn hStep ?_
      rw [hAnswer]
      cases eqAnswer vm k key with
      | error e => exact ends_answer (s := waits) hEnded (.raised e)
      | ok equal =>
        cases equal with
        | true => exact ends_toEnd ⟨id, op, key, hash, some (i, k), seen⟩
        | false => exact ih hEnded rfl rfl

theorem ends_findPrehashed (hSends : st.native s.store op = false) (hEnded : s.ended = none) :
    Ends st vm s.store s.answers id (do
      let found ← mapFindPrehashed.firstEqual vm key (← st.bucket s.store hash)
      st.finish s.store op hash found) (s.findPrehashed st id op key hash) := by
  unfold findPrehashed
  cases st.bucket s.store hash with
  | ok bucket => exact ends_search hSends _ bucket hEnded rfl rfl
  | error e => exact ends_answer hEnded e

/-- From its start on, an operation alone does what all of it does at once. -/
theorem alone (hSends : st.native s.store op = false) (hEnded : s.ended = none) :
    Ends st vm s.store s.answers id (st.run vm s.store op key) (s.begin st vm id op key) := by
  unfold Searched.run begin
  cases st.check s.store op with
  | error e => exact ends_answer hEnded e
  | ok =>
    dsimp only
    cases hHash : key.hashScalar vm with
    | some hash =>
      have hHashed : mapHashKey vm key = .ok hash := by
        unfold mapHashKey
        rw [hHash]
      rw [hHashed]
      exact ends_findPrehashed hSends hEnded
    | none =>
      obtain ⟨u, rfl, hAnswer⟩ := mapHashKey_send hHash
      let waits : Hooked S O U E := s.wait id ⟨op, .object u, .hash⟩
      have hWaits : waits.pending id = some ⟨op, .object u, .hash⟩ :=
        Function.update_self id _ s.pending
      have hOwn : waits.ownAct vm id = some (.hashed id (vm.hash u)) := by
        rw [ownAct, show waits.ended = none from hEnded, hWaits]
        rfl
      have hStep : waits.step st vm (.hashed id (vm.hash u)) =
          some (waits.hashed st id op (.object u) (vm.hash u)) := by
        rw [step, show waits.ended = none from hEnded, hWaits]
        rfl
      refine ends_after hOwn hStep ?_
      rw [hAnswer]
      cases vm.hash u with
      | ok hash => exact ends_findPrehashed (s := waits) hSends hEnded
      | error e => exact ends_answer (s := waits) hEnded (.raised e)

end Hooked

/-- `MapSet`, where it has to send. -/
theorem mapSet_send {m : MapState U} {key v : Value U}
    (hSends : (MapOp.set key v).native vm m = false) : mapSet vm m key v = mapPutAny vm m key v := by
  rw [MapOp.native] at hSends
  unfold mapSet
  split_ifs with hExact
  · rw [hExact, Bool.true_and] at hSends
    cases hElem : m.elem with
    | none =>
      rw [hElem] at hSends
      contradiction
    | some t =>
      rw [hElem] at hSends
      have hUnknown : t.matchesValue v = none := by
        rw [← Option.not_isSome_iff_eq_none, Bool.not_eq_true]
        exact hSends
      dsimp only
      rw [hUnknown]
  · rfl

/-- What the operations of a map do that send, in one piece. -/
theorem run_maps {m : MapState U} {op : MapOp U} {key : Value U} (hKey : op.key? = some key)
    (hSends : op.native vm m = false) :
    MapOp.settle m ((maps vm).run vm m op key) = op.apply vm m := by
  -- the search is asked for once the check is done, and its end acts on what it answers
  have hRun : (maps vm).run vm m op key = (do
      op.check vm m
      let p ← mapFind vm m key
      op.finish m p.1 p.2) := by
    unfold Searched.run mapFind mapFindPrehashed
    simp only [bind_assoc, pure_bind]
    rfl
  -- an operation that stores: a new entry, or the value of the one that was found
  have hPut (v : Value U) : (do
      checkInsert vm m.elem v
      let p ← mapFind vm m key
      MapOp.finish m (.put key v) p.1 p.2) =
        (do return (none, ← mapPutAny vm m key v) : Except (Fault E) _) := by
    unfold mapPutAny
    rw [bind_assoc]
    congr 1
    funext _
    rcases mapFind vm m key with e | ⟨hash, _ | i⟩
    · rfl
    · rfl
    · rfl
  rw [hRun]
  cases op with
  | put key' v =>
    obtain rfl := Option.some.inj hKey
    exact congrArg (MapOp.settle m) (hPut v)
  | set key' v =>
    obtain rfl := Option.some.inj hKey
    have hSet : mapSet vm m key' v = mapPutAny vm m key' v := mapSet_send hSends
    have hFinish : (MapOp.set key' v).finish (E := E) m = (MapOp.put key' v).finish m := by
      funext hash found
      cases found <;> rfl
    rw [MapOp.apply, hSet, hFinish]
    exact congrArg (MapOp.settle m) (hPut v)
  | get key' =>
    obtain rfl := Option.some.inj hKey
    rw [MapOp.apply, mapGetAny]
    rcases mapFind vm m key' with e | ⟨hash, _ | i⟩
    · rfl
    · rfl
    · show MapOp.settle m (do return (some (← m.valueAt i), m)) =
        MapOp.settle m (do return (← (do return some (← m.valueAt i)), m))
      rw [bind_assoc]
      rfl
  | fetch key' =>
    obtain rfl := Option.some.inj hKey
    have hFetch : mapGet vm m key' = do return (← mapGetAny vm m key').getD .nil := by
      have hInexact : key'.keyNativeExact = false := hSends
      unfold mapGet getScalar
      rw [hInexact]
      rfl
    rw [MapOp.apply, hFetch, mapGetAny]
    rcases mapFind vm m key' with e | ⟨hash, _ | i⟩
    · rfl
    · rfl
    · show MapOp.settle m (do return (some (← m.valueAt i), m)) =
        MapOp.settle m (do return (some (← (do return (← (do return some (← m.valueAt i))).getD .nil)), m))
      rw [bind_assoc, bind_assoc]
      rfl
  | containsKey key' =>
    obtain rfl := Option.some.inj hKey
    rw [MapOp.apply]
    rcases mapFind vm m key' with e | ⟨hash, found⟩
    · rfl
    · rfl
  | remove key' =>
    obtain rfl := Option.some.inj hKey
    rw [MapOp.apply, mapRemove]
    rcases mapFind vm m key' with e | ⟨hash, _ | i⟩
    · rfl
    · rfl
    · rfl
  | clear => contradiction

namespace Hooked

/-- A map's operation alone: it starts, its hooks answer what `vm` answers, one after another, and
when it waits for nothing any more its answer and the map are those of the operation in one
piece. -/
theorem map_alone {s : Hooked (MapState U) (MapOp U) U E} {op : MapOp U} {key : Value U} {id : Nat}
    (hKey : op.key? = some key) (hSends : op.native vm s.store = false) (hEnded : s.ended = none)
    (hNew : s.pending id = none) :
    ∃ began s', s.step (maps vm) vm (.start id op) = some began ∧
      Trans.Run (fun s => s.step (maps vm) vm) (fun s a => s.ownAct vm id = some a) began s' ∧
      s'.ownAct vm id = none ∧ s'.answers = (id, (op.apply vm s.store).1) :: s.answers ∧
      s'.store = (op.apply vm s.store).2 := by
  have hStart : s.step (maps vm) vm (.start id op) = some (s.begin (maps vm) vm id op key) := by
    rw [step, hEnded, hNew, show (maps vm).key? op = some key from hKey]
    rfl
  have hAlone : Ends (maps vm) vm s.store s.answers id ((maps vm).run vm s.store op key)
      (s.begin (maps vm) vm id op key) := alone hSends hEnded
  obtain ⟨s', hRun, hEnd⟩ := hAlone
  rw [run_maps hKey hSends] at hEnd
  exact ⟨_, s', hStart, hRun, hEnd⟩

/-- An object's second twin is put into a map with the first and an Integer of the same hash: both
are compared with it, and the first answers that it is equal. -/
theorem map_alone_put :
    let store : MapState Bool := ⟨[⟨7, .int 5, .nil⟩, ⟨7, .object false, .nil⟩], ∅, none⟩
    let s : Hooked (MapState Bool) (MapOp Bool) Bool Unit := { store }
    let op : MapOp Bool := .put (.object true) (.bool true)
    (∃ began s', s.step (maps twins) twins (.start 0 op) = some began ∧
      Trans.Run (fun s => s.step (maps twins) twins) (fun s a => s.ownAct twins 0 = some a)
        began s' ∧
      s'.ownAct twins 0 = none ∧ s'.answers = [(0, (op.apply twins store).1)] ∧
      s'.store = (op.apply twins store).2) ∧
    (op.apply twins store).2.entries.map (fun x => (x.hash, x.value.nativeEq (.bool true))) =
      [(7, false), (7, true)] :=
  ⟨map_alone rfl rfl rfl rfl, rfl⟩

end Hooked

end Alone

end Quoin.Maps
