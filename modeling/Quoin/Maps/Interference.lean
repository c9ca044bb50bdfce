import Mathlib
import Quoin.Maps.Hooks
import Quoin.Trans.Run

/-!
# Quoin — what hooks can do to a map or a set

Between the moment when an operation takes its candidates and the end of its search
other operations may come in: those of other tasks while a hook is parked, and those
that the hook itself makes. It goes on by the positions that it was told before.

`Steady` says what must not happen meanwhile, in terms of the entries alone: the keys
of its hash keep their positions, and where it would store its own no key of that
hash comes in. The operations do not see to it (`map_set_hooks_moved`). In runs whose
operations are all steady nothing goes wrong, whatever the hooks answer and however
the operations interleave. The proof carries along the run what every operation
under way knows (`Sound`): each candidate still to be compared was at its position
when it was taken, and every key of the hash that was there then has been compared
or is still to be (`Covers`).

## Results

* `undisturbed_of_steady` — a steady operation finds the key that matched at its
  position, and has compared its own with all of its hash.
* `Sound.step`            — a step that ends no operation, or a steady one, keeps
  `Sound`.
* `map_set_hooks`         — runs of steady operations keep a map, and a set,
  consistent in every state.
* `map_set_hooks_moved`   — a hook that removes a candidate makes a put replace
  another key's value.
-/

namespace Quoin.Maps

open NativeMapState

variable {S O U E : Type}

/-! ## What is to hold -/

/-- Any two keys of one hash have been found unequal. -/
def Apart (entries : List (Entry (Value U) (Value U))) (unlike : List (Value U × Value U)) : Prop :=
  entries.Pairwise fun x y => x.hash = y.hash → (x.key, y.key) ∈ unlike

def panics {α : Type} : Except (Fault E) α → Bool
  | .error .panic => true
  | .error (.raised _) | .ok _ => false

variable (st : Searched S O U E)

/-- The entry it went to is the one whose key has matched. -/
def Effect.Matched (f : Effect O U) : Prop :=
  st.goesTo f.op → ∀ i k, f.found = some (i, k) →
    ∃ x, f.before[i.toNat]? = some x ∧ x.key = k

/-- Every other entry is what it was. -/
def Effect.Intact (f : Effect O U) : Prop :=
  f.after = f.before ∨
    (st.stores f.op ∧ f.found = none ∧ ∃ v, f.after = f.before ++ [⟨f.hash, f.key, v⟩]) ∨
    ∃ i k, st.goesTo f.op ∧ f.found = some (i, k) ∧ (f.after = f.before.eraseIdx i.toNat ∨
      ∃ v, f.after = f.before.modify i.toNat fun x => { x with value := v })

/-- No two keys are equal, by the answers given; every operation has gone to the entry whose key
matched, and has left the others alone; and no index was out of range. -/
structure Hooked.Consistent (s : Hooked S O U E) : Prop where
  apart : Apart (st.entries s.store) s.unlike
  matched : ∀ f ∈ s.effects, f.Matched st
  intact : ∀ f ∈ s.effects, f.Intact st
  inRange : ∀ a ∈ s.answers, panics a.2 = false

/-- The position found has the key that matched; and a key to be stored has been compared with
every key of its hash. -/
structure Ended.Undisturbed (store : S) (unlike : List (Value U × Value U)) (e : Ended O U) :
    Prop where
  there : st.goesTo e.op → ∀ i k, e.found = some (i, k) →
    ∃ x, (st.entries store)[i.toNat]? = some x ∧ x.key = k
  compared : st.stores e.op → e.found = none →
    ∀ x ∈ st.entries store, x.hash = e.hash → (x.key, e.key) ∈ unlike

/-- What an operation has seen of its hash when it took its candidates is still so when it ends its
search: each key is at its position, and where the operation stores its own no other has come in.
Positions are 32-bit numbers. -/
structure Ended.Steady (store : S) (e : Ended O U) : Prop where
  small : e.seen.length ≤ 2 ^ 32
  stay : st.goesTo e.op → ∀ (i : Nat) (p : UInt64 × Value U), e.seen[i]? = some p →
    p.1 = e.hash → ((st.entries store).map fun x => (x.hash, x.key))[i]? = some p
  known : st.stores e.op → ∀ x ∈ st.entries store, x.hash = e.hash → (x.hash, x.key) ∈ e.seen

/-- The operation whose search ends before this step, if any, is steady. -/
def Hooked.Steady (s : Hooked S O U E) (_ : HookAct O E) : Prop :=
  ∀ e, s.ended = some e → e.Steady st s.store

/-! ## Maps and sets as they are -/

/-- What an operation may find and do in a collection that is `Ok`. -/
structure Searched.Lawful (Ok : S → Prop) : Prop where
  bucket : ∀ {s}, Ok s → ∀ hash, ∃ bucket, st.bucket s hash = .ok bucket ∧
    bucket.map Prod.fst = positions (st.entries s) hash ∧
    ∀ c ∈ bucket, ∃ x, (st.entries s)[c.1.toNat]? = some x ∧ x.key = c.2
  hit : ∀ {s op i x hash}, Ok s → st.goesTo op → (st.entries s)[i.toNat]? = some x →
    ∃ a s', st.finish s op hash (some i) = .ok (a, s') ∧ Ok s' ∧
      (st.entries s' = st.entries s ∨ st.entries s' = (st.entries s).eraseIdx i.toNat ∨
        ∃ v, st.entries s' = (st.entries s).modify i.toNat fun x => { x with value := v })
  pass : ∀ {s op i hash}, Ok s → st.goesTo op = false →
    ∃ a, st.finish s op hash (some i) = .ok (a, s)
  stored : ∀ {s op key hash}, Ok s → st.key? op = some key → st.stores op →
    ∃ a s' v, st.finish s op hash none = .ok (a, s') ∧ Ok s' ∧
      st.entries s' = st.entries s ++ [⟨hash, key, v⟩]
  missed : ∀ {s op hash}, Ok s → st.stores op = false →
    ∃ a, st.finish s op hash none = .ok (a, s)
  checked : ∀ {s op}, panics (st.check s op) = false

section Lawful

variable {m : MapState U} {s : SetState U} {hash : UInt64}

/-- The candidates' keys are those of the entries at their positions. -/
theorem bucket_spec (h : m.IndexOk) (hash : UInt64) :
    ∃ bucket, m.bucket hash = (.ok bucket : Except (Fault E) _) ∧
      bucket.map Prod.fst = positions m.entries hash ∧
      ∀ c ∈ bucket, ∃ x, m.entries[c.1.toNat]? = some x ∧ x.key = c.2 := by
  have hAll (is : List UInt32) (hIn : ∀ i ∈ is, i.toNat < m.entries.length) :
      ∃ bucket, is.mapM (fun i => do return (i, (← m.entryAt i).key)) =
          (.ok bucket : Except (Fault E) (List (UInt32 × Value U))) ∧
        bucket.map Prod.fst = is ∧
        ∀ c ∈ bucket, ∃ x, m.entries[c.1.toNat]? = some x ∧ x.key = c.2 := by
    induction is with
    | nil => exact ⟨[], rfl, rfl, by simp⟩
    | cons i is ih =>
      obtain ⟨bucket, hBucket, hFst, hKeys⟩ := ih fun j hj => hIn j (by simp [hj])
      have hLt : i.toNat < m.entries.length := hIn i (by simp)
      have hGet : m.entries[i.toNat]? = some m.entries[i.toNat] := List.getElem?_eq_getElem hLt
      have hEntry : m.entryAt i = (.ok m.entries[i.toNat] : Except (Fault E) _) := by
        rw [entryAt, hGet]
      refine ⟨(i, m.entries[i.toNat].key) :: bucket, ?_, ?_, ?_⟩
      · rw [List.mapM_cons, hEntry, hBucket]
        rfl
      · rw [List.map_cons, hFst]
      · intro c hc
        rcases List.mem_cons.mp hc with rfl | hc
        · exact ⟨_, hGet, rfl⟩
        · exact hKeys c hc
  unfold NativeMapState.bucket
  rw [h.candidates_eq]
  exact hAll _ fun i hi => lt_of_mem_positions hi

/-- Removing an entry that is there. -/
theorem removeAt_spec {i : UInt32} {x : Entry (Value U) (Value U)}
    (hGet : m.entries[i.toNat]? = some x) :
    ∃ m', m.removeAt i = (.ok (x.value, m') : Except (Fault E) _) ∧ m'.IndexOk ∧
      m'.entries = m.entries.eraseIdx i.toNat := by
  have hEntry : m.entryAt i = (.ok x : Except (Fault E) _) := by rw [entryAt, hGet]
  obtain ⟨m', hRemove, hEntries⟩ : ∃ m', m.removeAt i = (.ok (x.value, m') : Except (Fault E) _) ∧
      m'.entries = m.entries.eraseIdx i.toNat := by
    rw [removeAt, hEntry]
    refine ⟨_, rfl, ?_⟩
    split <;> rfl
  exact ⟨m', hRemove, IndexOk.removeAt hRemove, hEntries⟩

theorem panics_checkInsert {vm : Dispatch U E} {tag : Option ElemTag} {v : Value U} :
    panics (checkInsert vm tag v) = false := by
  have hEither (ok : Bool) (e : E) :
      panics (if ok then .ok () else .error (.raised e) : Except (Fault E) Unit) = false := by
    cases ok <;> rfl
  unfold checkInsert
  split
  · rfl
  · exact hEither _ _

theorem maps_lawful (vm : Dispatch U E) : (maps vm).Lawful IndexOk where
  bucket h hash := bucket_spec h hash
  hit := by
    -- position `i` holds the entry `x`, and the operation ends there
    intro m op i x hash h hGoes hGet
    have hEntry : m.entryAt i = (.ok x : Except (Fault E) _) := by
      rw [entryAt, show m.entries[i.toNat]? = some x from hGet]
    have hValue : m.valueAt i = (.ok x.value : Except (Fault E) _) := by
      rw [valueAt, hEntry]
      rfl
    have hSet (v : Value U) : m.setValueAt i v = (.ok { m with
        entries := m.entries.set i.toNat { x with value := v } } : Except (Fault E) _) := by
      rw [setValueAt, hEntry]
      rfl
    have hModify (v : Value U) : m.entries.set i.toNat { x with value := v } =
        m.entries.modify i.toNat fun x => { x with value := v } := by
      rw [List.modify_eq_set_getElem?, show m.entries[i.toNat]? = some x from hGet]
      rfl
    cases op with
    | put key v | set key v =>
      refine ⟨none, _, ?_, h.setValueAt (hSet v), .inr (.inr ⟨v, hModify v⟩)⟩
      show (do return (none, ← m.setValueAt i v)) = _
      rw [hSet v]
      rfl
    | get key | fetch key =>
      refine ⟨some x.value, m, ?_, h, .inl rfl⟩
      show (do return (some (← m.valueAt i), m)) = _
      rw [hValue]
      rfl
    | remove key =>
      obtain ⟨m', hRemove, hIndex, hEntries⟩ := removeAt_spec (E := E) hGet
      refine ⟨some x.value, m', ?_, hIndex, .inr (.inl hEntries)⟩
      show (m.removeAt i >>= fun r => pure (some r.1, r.2)) = _
      rw [hRemove]
      rfl
    | containsKey key | clear => exact absurd hGoes Bool.false_ne_true
  pass := by
    intro m op i hash h hStays
    cases op with
    | containsKey key | clear => exact ⟨_, rfl⟩
    | put key v | set key v | get key | fetch key | remove key =>
      contradiction
  stored := by
    intro m op key hash h hKey hStores
    cases op with
    | put key' v | set key' v =>
      obtain rfl := Option.some.inj hKey
      exact ⟨none, _, v, rfl, h.append hash key' v, entries_append⟩
    | get key' | fetch key' | containsKey key' | remove key' | clear =>
      exact absurd hStores Bool.false_ne_true
  missed := by
    intro m op hash h hLeaves
    cases op with
    | put key v | set key v => contradiction
    | get key | fetch key | containsKey key | remove key | clear => exact ⟨_, rfl⟩
  checked := by
    intro m op
    cases op with
    | put key v | set key v => exact panics_checkInsert
    | get key | fetch key | containsKey key | remove key | clear => rfl

theorem sets_lawful (vm : Dispatch U E) : (sets vm).Lawful fun s => s.asMap.IndexOk where
  bucket h hash := by
    obtain ⟨bucket, hBucket, hRest⟩ := bucket_spec (E := E) h hash
    exact ⟨bucket, NativeSetState.asMap_bucket.symm.trans hBucket, hRest⟩
  hit := by
    intro s op i x hash h hGoes hGet
    -- of a set only the removal goes to the position that was found
    cases op with
    | remove value =>
      obtain ⟨m', hRemove, hIndex, hEntries⟩ := removeAt_spec (E := E) hGet
      obtain ⟨s', hErased, rfl⟩ := NativeSetState.removeAt_of_asMap hRemove
      refine ⟨none, s', ?_, hIndex, .inr (.inl hEntries)⟩
      show (do return (none, ← s.removeAt i)) = _
      rw [hErased]
      rfl
    | add value | contains value | clear => exact absurd hGoes Bool.false_ne_true
  pass := by
    intro s op i hash h hStays
    cases op with
    | add value | contains value | clear => exact ⟨_, rfl⟩
    | remove value => contradiction
  stored := by
    intro s op key hash h hKey hStores
    cases op with
    | add value =>
      obtain rfl := Option.some.inj hKey
      refine ⟨none, s.append hash value, .nil, rfl, ?_, ?_⟩
      · rw [NativeSetState.asMap_append]
        exact h.append hash value .nil
      · show (s.append hash value).asMap.entries = _
        rw [NativeSetState.asMap_append, entries_append]
        rfl
    | contains value | remove value | clear => exact absurd hStores Bool.false_ne_true
  missed := by
    intro s op hash h hLeaves
    cases op with
    | add value => contradiction
    | contains value | remove value | clear => exact ⟨_, rfl⟩
  checked := by
    intro s op
    cases op with
    | add value => exact panics_checkInsert
    | contains value | remove value | clear => rfl

end Lawful

/-! ## Steps -/

/-- Changing a value leaves the hashes and the keys. -/
theorem apart_modify {entries : List (Entry (Value U) (Value U))}
    {unlike : List (Value U × Value U)} {i : Nat} {v : Value U} (h : Apart entries unlike) :
    Apart (entries.modify i fun x => { x with value := v }) unlike := by
  have hKeys : (entries.modify i fun x => { x with value := v }).map (fun x => (x.hash, x.key)) =
      entries.map fun x => (x.hash, x.key) := Ordered.map_key_modify fun _ => rfl
  have hPairs (l : List (Entry (Value U) (Value U))) : Apart l unlike ↔
      (l.map fun x => (x.hash, x.key)).Pairwise fun p q => p.1 = q.1 → (p.2, q.2) ∈ unlike := by
    rw [List.pairwise_map]
    rfl
  rw [hPairs, hKeys, ← hPairs]
  exact h

theorem Apart.mono {entries : List (Entry (Value U) (Value U))}
    {unlike unlike' : List (Value U × Value U)} (h : Apart entries unlike)
    (hMore : ∀ p ∈ unlike, p ∈ unlike') : Apart entries unlike' :=
  h.imp fun hUnlike hHash => hMore _ (hUnlike hHash)

/-- The candidates still to be compared, among the hashes and keys that were there when they were
taken. -/
structure Covers (seen : List (UInt64 × Value U)) (unlike : List (Value U × Value U))
    (key : Value U) (hash : UInt64) (cs : List (UInt32 × Value U)) : Prop where
  there : ∀ c ∈ cs, ∃ p, seen[c.1.toNat]? = some p ∧ p.2 = c.2 ∧
    (seen.length ≤ 2 ^ 32 → p.1 = hash)
  all : seen.length ≤ 2 ^ 32 → ∀ p ∈ seen, p.1 = hash → (p.2, key) ∈ unlike ∨ ∃ c ∈ cs, c.2 = p.2

namespace Covers

variable {seen : List (UInt64 × Value U)} {unlike unlike' : List (Value U × Value U)}
  {key k : Value U} {hash : UInt64} {i : UInt32} {cs : List (UInt32 × Value U)}

theorem mono (h : Covers seen unlike key hash cs) (hMore : ∀ p ∈ unlike, p ∈ unlike') :
    Covers seen unlike' key hash cs :=
  ⟨h.there, fun hSmall p hp hHash => (h.all hSmall p hp hHash).imp_left (hMore _)⟩

/-- A candidate that is unequal is done with. -/
theorem tell (h : Covers seen unlike key hash ((i, k) :: cs)) :
    Covers seen ((k, key) :: unlike) key hash cs where
  there c hc := h.there c (List.mem_cons_of_mem _ hc)
  all hSmall p hp hHash := by
    rcases h.all hSmall p hp hHash with hOld | ⟨c, hc, hKey⟩
    · exact .inl (List.mem_cons_of_mem _ hOld)
    · rcases List.mem_cons.mp hc with rfl | hc
      · exact .inl (hKey ▸ List.mem_cons_self)
      · exact .inr ⟨c, hc, hKey⟩

/-- What `bucket` tells. -/
theorem bucket {st : Searched S O U E} {Ok : S → Prop} (hLaws : st.Lawful Ok) {store : S}
    (hOk : Ok store) {bucket : List (UInt32 × Value U)}
    (hBucket : st.bucket store hash = .ok bucket) :
    Covers ((st.entries store).map fun x => (x.hash, x.key)) unlike key hash bucket := by
  obtain ⟨bucket', hBucket', hPositions, hKeys⟩ := hLaws.bucket hOk hash
  obtain rfl : bucket = bucket' := Except.ok.inj (hBucket.symm.trans hBucket')
  constructor
  · intro c hc
    obtain ⟨x, hGet, hKey⟩ := hKeys c hc
    refine ⟨(x.hash, x.key), by rw [List.getElem?_map, hGet]; rfl, hKey, fun hSmall => ?_⟩
    rw [List.length_map] at hSmall
    -- the candidate's position is that of an entry with the hash
    have hPosition : c.1 ∈ positions (st.entries store) hash := hPositions ▸ List.mem_map_of_mem hc
    obtain ⟨⟨x', j⟩, hMem, hAt⟩ := List.mem_map.mp hPosition
    obtain ⟨hIn, hHash⟩ := List.mem_filter.mp hMem
    have hGet' : (st.entries store)[j]? = some x' := List.mk_mem_zipIdx_iff_getElem?.mp hIn
    have hLt : j < (st.entries store).length := (List.getElem?_eq_some_iff.mp hGet').1
    rw [← hAt, toNat_ofNat_of_lt (by omega), hGet'] at hGet
    obtain rfl := Option.some.inj hGet
    simpa using hHash
  · intro hSmall p hp hHash
    rw [List.length_map] at hSmall
    obtain ⟨x, hx, rfl⟩ := List.mem_map.mp hp
    obtain ⟨j, hGet⟩ := List.mem_iff_getElem?.mp hx
    have hLt : j < (st.entries store).length := (List.getElem?_eq_some_iff.mp hGet).1
    -- the position of an entry with the hash is that of a candidate
    have hPosition : UInt32.ofNat j ∈ positions (st.entries store) hash := by
      refine List.mem_map.mpr ⟨(x, j), List.mem_filter.mpr ⟨?_, by simpa using hHash⟩, rfl⟩
      exact List.mk_mem_zipIdx_iff_getElem?.mpr hGet
    rw [← hPositions] at hPosition
    obtain ⟨c, hc, hAt⟩ := List.mem_map.mp hPosition
    obtain ⟨x', hGet', hKey⟩ := hKeys c hc
    rw [hAt, toNat_ofNat_of_lt (by omega), hGet] at hGet'
    obtain rfl := Option.some.inj hGet'
    exact .inr ⟨c, hc, hKey.symm⟩

end Covers

variable {st} {Ok : S → Prop}

variable (st) in
/-- What is known of an operation that waits. -/
structure Pending.Right (unlike : List (Value U × Value U)) (p : Pending O U) : Prop where
  key : st.key? p.op = some p.key
  covers : ∀ hash i k rest seen, p.waiting = .eq hash i k rest seen →
    Covers seen unlike p.key hash ((i, k) :: rest)

variable (st) in
/-- What is known of an operation at the end of its search. -/
structure Ended.Right (unlike : List (Value U × Value U)) (e : Ended O U) : Prop where
  key : st.key? e.op = some e.key
  hit : ∀ i k, e.found = some (i, k) → ∃ p, e.seen[i.toNat]? = some p ∧ p.2 = k ∧
    (e.seen.length ≤ 2 ^ 32 → p.1 = e.hash)
  missed : e.found = none → Covers e.seen unlike e.key e.hash []

/-- A steady operation goes to the right entry, and its key is no second one. -/
theorem undisturbed_of_steady {store : S} {unlike : List (Value U × Value U)} {e : Ended O U}
    (h : e.Right st unlike) (hSteady : e.Steady st store) : e.Undisturbed st store unlike := by
  obtain ⟨-, hHit, hMissed⟩ := h
  constructor
  · intro hGoes i k hFound
    obtain ⟨p, hGet, rfl, hHash⟩ := hHit i k hFound
    have hNow := hSteady.stay hGoes i.toNat p hGet (hHash hSteady.small)
    rw [List.getElem?_map] at hNow
    obtain ⟨x, hEntry, rfl⟩ := Option.map_eq_some_iff.mp hNow
    exact ⟨x, hEntry, rfl⟩
  · intro hStores hNone x hx hHash
    have hSeen : (x.hash, x.key) ∈ e.seen := hSteady.known hStores x hx hHash
    rcases (hMissed hNone).all hSteady.small _ hSeen hHash with hUnlike | ⟨c, hc, -⟩
    · exact hUnlike
    · exact absurd hc List.not_mem_nil

/-- In particular where the hashes and keys are what they were. -/
theorem steady_of_unmoved {store : S} {e : Ended O U}
    (hSame : (st.entries store).map (fun x => (x.hash, x.key)) = e.seen)
    (hSmall : e.seen.length ≤ 2 ^ 32) : e.Steady st store where
  small := hSmall
  stay _ _ _ hGet _ := hSame ▸ hGet
  known _ _ hx _ := hSame ▸ List.mem_map_of_mem hx

namespace Hooked

variable {s s' : Hooked S O U E} {id : Nat} {op : O} {key : Value U}
  {hash : UInt64} {e : Ended O U}

variable (st Ok) in
/-- What holds in every state of a run of steady operations. -/
structure Sound (s : Hooked S O U E) : Prop extends s.Consistent st where
  ok : Ok s.store
  pending : ∀ id p, s.pending id = some p → p.Right st s.unlike
  ended : ∀ e, s.ended = some e → e.Right st s.unlike

namespace Sound

theorem answer (h : s.Sound st Ok) {a : Answer E U} (ha : panics a = false) :
    (s.answer id a).Sound st Ok where
  apart := h.apart
  matched := h.matched
  intact := h.intact
  inRange := by
    intro b hb
    rcases List.mem_cons.mp hb with rfl | hb
    · exact ha
    · exact h.inRange b hb
  ok := h.ok
  pending := by
    intro id' p hp
    by_cases hId : id' = id
    · subst hId
      simp [Hooked.answer] at hp
    · exact h.pending id' p (by simpa [Hooked.answer, hId] using hp)
  ended := h.ended

theorem wait (h : s.Sound st Ok) {p : Pending O U} (hp : p.Right st s.unlike) :
    (s.wait id p).Sound st Ok where
  apart := h.apart
  matched := h.matched
  intact := h.intact
  inRange := h.inRange
  ok := h.ok
  pending := by
    intro id' p' hp'
    by_cases hId : id' = id
    · subst hId
      obtain rfl : p = p' := by simpa [Hooked.wait] using hp'
      exact hp
    · exact h.pending id' p' (by simpa [Hooked.wait, hId] using hp')
  ended := h.ended

theorem toEnd (h : s.Sound st Ok) (he : e.Right st s.unlike) : (s.toEnd e).Sound st Ok where
  apart := h.apart
  matched := h.matched
  intact := h.intact
  inRange := h.inRange
  ok := h.ok
  pending := by
    intro id' p hp
    by_cases hId : id' = e.id
    · subst hId
      simp [Hooked.toEnd] at hp
    · exact h.pending id' p (by simpa [Hooked.toEnd, hId] using hp)
  ended := by
    rintro _ ⟨⟩
    exact he

theorem tell (h : s.Sound st Ok) (k key : Value U) : (s.tell k key).Sound st Ok where
  apart := h.apart.mono fun _ hp => List.mem_cons_of_mem _ hp
  matched := h.matched
  intact := h.intact
  inRange := h.inRange
  ok := h.ok
  pending id p hp := by
    obtain ⟨hKey, hCovers⟩ := h.pending id p hp
    exact ⟨hKey, fun _ _ _ _ _ hWaiting =>
      (hCovers _ _ _ _ _ hWaiting).mono fun _ hp => List.mem_cons_of_mem _ hp⟩
  ended e he := by
    obtain ⟨hKey, hHit, hMissed⟩ := h.ended e he
    exact ⟨hKey, hHit, fun hNone => (hMissed hNone).mono fun _ hp => List.mem_cons_of_mem _ hp⟩

/-- An operation that has ended its search leaves a collection that is as it should be. -/
theorem finish (hLaws : st.Lawful Ok) (h : s.Sound st Ok) (hEnded : s.ended = some e)
    (hClear : e.Undisturbed st s.store s.unlike) : (s.finish st e).Sound st Ok := by
  have hKey : st.key? e.op = some e.key := (h.ended e hEnded).key
  -- what it does to the entries, by what it has found
  obtain ⟨a, store, hFinish, hOk, hApart, hIntact⟩ : ∃ a store,
      st.finish s.store e.op e.hash (e.found.map Prod.fst) = .ok (a, store) ∧ Ok store ∧
        Apart (st.entries store) s.unlike ∧
        Effect.Intact st ⟨e, st.entries s.store, st.entries store⟩ := by
    cases hFound : e.found with
    | none =>
      by_cases hStores : st.stores e.op
      · obtain ⟨a, store, v, hFinish, hOk, hEntries⟩ := hLaws.stored h.ok hKey hStores
        refine ⟨a, store, hFinish, hOk, ?_, .inr (.inl ⟨hStores, hFound, v, hEntries⟩)⟩
        rw [hEntries]
        refine List.pairwise_append.mpr ⟨h.apart, List.pairwise_singleton _ _, ?_⟩
        intro x hx y hy hHash
        obtain rfl := List.mem_singleton.mp hy
        exact hClear.compared hStores hFound x hx hHash
      · obtain ⟨a, hFinish⟩ := hLaws.missed h.ok (Bool.not_eq_true _ ▸ hStores)
        exact ⟨a, s.store, hFinish, h.ok, h.apart, .inl rfl⟩
    | some c =>
      obtain ⟨i, k⟩ := c
      by_cases hGoes : st.goesTo e.op
      · obtain ⟨x, hGet, -⟩ := hClear.there hGoes i k hFound
        obtain ⟨a, store, hFinish, hOk, hEntries⟩ := hLaws.hit h.ok hGoes hGet
        refine ⟨a, store, hFinish, hOk, ?_, ?_⟩
        · rcases hEntries with hSame | hErased | ⟨v, hModified⟩
          · rw [hSame]
            exact h.apart
          · rw [hErased]
            exact h.apart.sublist (List.eraseIdx_sublist _ _)
          · rw [hModified]
            exact apart_modify h.apart
        · rcases hEntries with hSame | hErased | hModified
          · exact .inl hSame
          · exact .inr (.inr ⟨i, k, hGoes, hFound, .inl hErased⟩)
          · exact .inr (.inr ⟨i, k, hGoes, hFound, .inr hModified⟩)
      · obtain ⟨a, hFinish⟩ := hLaws.pass h.ok (Bool.not_eq_true _ ▸ hGoes)
        exact ⟨a, s.store, hFinish, h.ok, h.apart, .inl rfl⟩
  have hAnswered : (s.answer e.id (.ok a)).Sound st Ok := h.answer rfl
  unfold Hooked.finish
  rw [hFinish]
  refine ⟨⟨hApart, ?_, ?_, hAnswered.inRange⟩, hOk, hAnswered.pending, ?_⟩
  · intro f hf
    rcases List.mem_cons.mp hf with rfl | hf
    · exact hClear.there
    · exact h.matched f hf
  · intro f hf
    rcases List.mem_cons.mp hf with rfl | hf
    · exact hIntact
    · exact h.intact f hf
  · rintro e ⟨⟩

variable [DecidableEq U]

theorem search (hKey : st.key? op = some key) (seen : List (UInt64 × Value U))
    (cs : List (UInt32 × Value U)) :
    ∀ {s : Hooked S O U E}, s.Sound st Ok → Covers seen s.unlike key hash cs →
      (s.search st id op key hash seen cs).Sound st Ok := by
  induction cs with
  | nil => exact fun h hCovers => h.toEnd ⟨hKey, fun _ _ hNone => by contradiction, fun _ => hCovers⟩
  | cons c cs ih =>
    obtain ⟨i, k⟩ := c
    intro s h hCovers
    unfold Hooked.search
    split_ifs with hEq hNative
    · refine h.toEnd ⟨hKey, ?_, fun hSome => by contradiction⟩
      rintro _ _ ⟨⟩
      exact hCovers.there (i, k) List.mem_cons_self
    · exact ih (h.tell k key) hCovers.tell
    · refine h.wait ⟨hKey, ?_⟩
      rintro _ _ _ _ _ ⟨⟩
      exact hCovers

theorem findPrehashed (hLaws : st.Lawful Ok) (hKey : st.key? op = some key)
    (h : s.Sound st Ok) : (s.findPrehashed st id op key hash).Sound st Ok := by
  obtain ⟨bucket, hBucket, -⟩ := hLaws.bucket h.ok hash
  unfold Hooked.findPrehashed
  rw [hBucket]
  exact search hKey _ bucket h (.bucket hLaws h.ok hBucket)

variable {vm : Dispatch U E} {a : HookAct O E}

theorem begin (hLaws : st.Lawful Ok) (h : s.Sound st Ok) (hKey : st.key? op = some key) :
    (s.begin st vm id op key).Sound st Ok := by
  unfold Hooked.begin
  split
  · next e hCheck =>
    have hRefused : panics (.error e : Answer E U) = false := by
      have hChecked : panics (st.check s.store op) = false := hLaws.checked
      rw [hCheck] at hChecked
      cases e with
      | panic => contradiction
      | raised e => rfl
    exact h.answer hRefused
  · split
    · exact h.findPrehashed hLaws hKey
    · refine h.wait ⟨hKey, ?_⟩
      rintro _ _ _ _ _ ⟨⟩

theorem step (hLaws : st.Lawful Ok) (h : s.Sound st Ok) (hSteady : s.Steady st a)
    (hStep : s.step st vm a = some s') : s'.Sound st Ok := by
  cases a with
  | start id op =>
    rw [Hooked.step] at hStep
    -- an operation begins: it asks for the hash, or has it
    split_ifs at hStep
    obtain ⟨key, hKey, rfl⟩ := Option.map_eq_some_iff.mp hStep
    exact h.begin hLaws hKey
  | hashed id a =>
    rw [Hooked.step] at hStep
    split_ifs at hStep
    obtain ⟨p, hPending, hStep⟩ := Option.bind_eq_some_iff.mp hStep
    split at hStep
    · obtain rfl := Option.some.inj hStep
      cases a with
      -- the candidates are taken now, as the collection is now
      | ok hash => exact h.findPrehashed hLaws (h.pending id p hPending).key
      | error e => exact h.answer rfl
    · contradiction
  | compared id a =>
    rw [Hooked.step] at hStep
    split_ifs at hStep
    obtain ⟨p, hPending, hStep⟩ := Option.bind_eq_some_iff.mp hStep
    split at hStep
    · next hash i k rest seen hWaiting =>
      obtain rfl := Option.some.inj hStep
      obtain ⟨hKey, hCovers⟩ := h.pending id p hPending
      have hCandidates := hCovers hash i k rest seen hWaiting
      cases a with
      | ok equal =>
        cases equal with
        | true =>
          -- the first that matches is gone to
          refine h.toEnd ⟨hKey, ?_, fun hSome => by contradiction⟩
          rintro _ _ ⟨⟩
          exact hCandidates.there (i, k) List.mem_cons_self
        -- one that does not is known to be unlike
        | false => exact search hKey seen rest (h.tell k p.key) hCandidates.tell
      | error e => exact h.answer rfl
    · contradiction
  | finish =>
    obtain ⟨e, hEnded, rfl⟩ := Option.map_eq_some_iff.mp hStep
    exact h.finish hLaws hEnded (undisturbed_of_steady (h.ended e hEnded) (hSteady e hEnded))

end Sound

/-- A collection with the comparisons that its entries have been through. -/
def fresh (store : S) (unlike : List (Value U × Value U)) : Hooked S O U E := { store, unlike }

theorem sound_fresh {store : S} {unlike : List (Value U × Value U)} (hOk : Ok store)
    (hApart : Apart (st.entries store) unlike) :
    (fresh store unlike : Hooked S O U E).Sound st Ok where
  apart := hApart
  matched := fun _ hf => absurd hf List.not_mem_nil
  intact := fun _ hf => absurd hf List.not_mem_nil
  inRange := fun _ ha => absurd ha List.not_mem_nil
  ok := hOk
  pending := fun _ _ hp => by contradiction
  ended := fun _ he => by contradiction

variable [DecidableEq U] {vm : Dispatch U E}

/-- A step that ends no operation does not matter. -/
theorem steady_going {a : HookAct O E} {as : List (HookAct O E)}
    (hStep : s.step st vm a = some s') (hGoing : s.ended = none)
    (hRest : Trans.Steps (fun s => s.step st vm) (Steady st) s' as) :
    Trans.Steps (fun s => s.step st vm) (Steady st) s (a :: as) := by
  intro s'' hStep'
  obtain rfl := Option.some.inj (hStep.symm.trans hStep')
  refine ⟨fun e hEnded => ?_, hRest⟩
  rw [hGoing] at hEnded
  contradiction

/-- One that ends an operation does not where the keys are what they were. -/
theorem steady_ending {a : HookAct O E} {as : List (HookAct O E)}
    (hStep : s.step st vm a = some s') (hEnding : s.ended = some e)
    (hSame : (st.entries s.store).map (fun x => (x.hash, x.key)) = e.seen)
    (hSmall : e.seen.length ≤ 2 ^ 32)
    (hRest : Trans.Steps (fun s => s.step st vm) (Steady st) s' as) :
    Trans.Steps (fun s => s.step st vm) (Steady st) s (a :: as) := by
  intro s'' hStep'
  obtain rfl := Option.some.inj (hStep.symm.trans hStep')
  refine ⟨fun e' hEnded => ?_, hRest⟩
  obtain rfl := Option.some.inj (hEnding.symm.trans hEnded)
  exact steady_of_unmoved hSame hSmall

theorem consistent_of_steady (hLaws : st.Lawful Ok) (h : s.Sound st Ok) (as : List (HookAct O E))
    (hSteady : Trans.Steps (fun s => s.step st vm) (Steady st) s as) :
    Trans.States (fun s => s.step st vm) (Consistent st) s as :=
  Trans.states_of_steps (fun _ h => h.toConsistent)
    (fun _ _ _ h hSteady hStep => Sound.step hLaws h hSteady hStep) as h hSteady

end Hooked

open Hooked

variable [DecidableEq U]

/-- In any run of operations on a map (a set), with any answers of the hooks and any operations of
other tasks and of the hooks themselves between them, the map is consistent in every state if the
operations are steady: while one compares its key, those of the same hash keep their positions, and
none comes in that it would store twice. -/
theorem map_set_hooks (vm : Dispatch U E) (unlike : List (Value U × Value U)) :
    (∀ m : MapState U, m.IndexOk → Apart m.entries unlike → ∀ as : List (HookAct (MapOp U) E),
      Trans.Steps (fun s => s.step (maps vm) vm) (Hooked.Steady (maps vm)) (fresh m unlike) as →
        Trans.States (fun s => s.step (maps vm) vm) (Hooked.Consistent (maps vm))
          (fresh m unlike) as) ∧
    ∀ s : SetState U, s.asMap.IndexOk → Apart s.asMap.entries unlike →
      ∀ as : List (HookAct (SetOp U) E),
      Trans.Steps (fun s => s.step (sets vm) vm) (Hooked.Steady (sets vm)) (fresh s unlike) as →
        Trans.States (fun s => s.step (sets vm) vm) (Hooked.Consistent (sets vm))
          (fresh s unlike) as :=
  ⟨fun _ hIndex hApart as => consistent_of_steady (maps_lawful vm) (sound_fresh hIndex hApart) as,
    fun _ hIndex hApart as => consistent_of_steady (sets_lawful vm) (sound_fresh hIndex hApart) as⟩

/-- Two objects of one hash are put into a map and one of them is removed again; while the second is
compared with the first, another task replaces the first's value. In the set another task asks for
the first meanwhile. -/
theorem map_set_hooks_twins :
    let first : Value Bool := .object false
    let second : Value Bool := .object true
    let start {O : Type} (id : Nat) (op : O) : List (HookAct O Unit) :=
      [.start id op, .hashed id (.ok 7)]
    Trans.States (fun s => s.step (maps twins) twins) (Hooked.Consistent (maps twins))
        (fresh (newEmpty none) [])
        (start 0 (MapOp.put first .nil) ++ [HookAct.finish] ++ start 0 (MapOp.put second .nil) ++
          start 1 (MapOp.put first (.bool true)) ++
          [HookAct.finish, .compared 0 (.ok false), .finish] ++
          start 0 (MapOp.remove second) ++ [HookAct.compared 0 (.ok false), .finish]) ∧
      Trans.States (fun s => s.step (sets twins) twins) (Hooked.Consistent (sets twins))
        (fresh (.newEmpty none) [])
        (start 0 (SetOp.add first) ++ [HookAct.finish] ++ start 0 (SetOp.add second) ++
          start 1 (SetOp.contains first) ++
          [HookAct.finish, .compared 0 (.ok false), .finish]) := by
  constructor
  · refine (map_set_hooks twins []).1 _ (.newEmpty none) List.Pairwise.nil _ ?_
    -- the first object
    refine steady_going rfl rfl (steady_going rfl rfl (steady_ending rfl rfl rfl ?_ ?_))
    · decide
    -- the second, and the first's value before it is compared
    refine steady_going rfl rfl (steady_going rfl rfl (steady_going rfl rfl (steady_going rfl rfl
      (steady_ending rfl rfl rfl ?_ (steady_going rfl rfl (steady_ending rfl rfl rfl ?_ ?_))))))
    · decide
    · decide
    -- the second goes
    refine steady_going rfl rfl (steady_going rfl rfl (steady_going rfl rfl
      (steady_ending rfl rfl rfl ?_ trivial)))
    decide
  · refine (map_set_hooks twins []).2 (.newEmpty none) (.newEmpty none) List.Pairwise.nil _ ?_
    refine steady_going rfl rfl (steady_going rfl rfl (steady_ending rfl rfl rfl ?_ ?_))
    · decide
    refine steady_going rfl rfl (steady_going rfl rfl (steady_going rfl rfl (steady_going rfl rfl
      (steady_ending rfl rfl rfl ?_ (steady_going rfl rfl (steady_ending rfl rfl rfl ?_
        trivial))))))
    · decide
    · decide

/-- While the put of the second object compares the first with it, the first's `==:` removes the
first; the put goes to position 1 all the same, and replaces the value of `5`. -/
theorem map_set_hooks_moved :
    let first : Value Bool := .object false
    let second : Value Bool := .object true
    let put (key v : Value Bool) : List (HookAct (MapOp Bool) Unit) :=
      [.start 0 (.put key v), .hashed 0 (.ok 7)]
    let as := put first .nil ++ [HookAct.finish] ++ put second .nil ++
      [HookAct.compared 0 (.ok false), .finish] ++
      [HookAct.start 0 (MapOp.set (.int 5) .nil), .finish] ++ put second (.bool true) ++
      [HookAct.start 1 (MapOp.remove first), .hashed 1 (.ok 7), .finish] ++
      [HookAct.compared 0 (.ok false), .finish]
    (Trans.exec (fun s => s.step (maps twins) twins) (fun _ _ => True)
        (fresh (newEmpty none) []) as).map (fun s => s.store.entries.map fun x =>
          (x.key.nativeEq second, x.value.nativeEq (.bool true))) =
        some [(true, false), (false, true)] ∧
      ¬ Trans.States (fun s => s.step (maps twins) twins) (Hooked.Consistent (maps twins))
        (fresh (newEmpty none) []) as := by
  intro first second put as
  have hRun : (Trans.exec (fun s => s.step (maps twins) twins) (fun _ _ => True)
      (fresh (newEmpty none) []) as).map (fun s => s.effects.head?.map fun f =>
        ((maps twins).goesTo f.op, f.found.map fun c => (c.1, c.2.nativeEq second),
          f.before[1]?.map fun x => x.key.nativeEq second)) =
      some (some (true, some (1, true), some false)) := by decide +kernel
  refine ⟨by decide +kernel, fun hStates => ?_⟩
  clear_value as
  obtain ⟨s, hExec, hLast⟩ := Option.map_eq_some_iff.mp hRun
  obtain ⟨f, hHead, hSeen⟩ := Option.map_eq_some_iff.mp hLast
  obtain ⟨hGoes, hSeen⟩ := Prod.mk.inj hSeen
  obtain ⟨hFound, hBefore⟩ := Prod.mk.inj hSeen
  obtain ⟨⟨i, k⟩, hFound, hHit⟩ := Option.map_eq_some_iff.mp hFound
  obtain ⟨rfl, hMatches⟩ := Prod.mk.inj hHit
  -- the entry there has another key than the one that matched
  obtain ⟨x, hGet, hKey⟩ := (hStates.last hExec).matched f (List.mem_of_head? hHead) hGoes 1 k hFound
  rw [show f.before[(1 : UInt32).toNat]? = f.before[1]? from rfl] at hGet
  rw [hGet, Option.map_some, hKey, hMatches] at hBefore
  contradiction

end Quoin.Maps
