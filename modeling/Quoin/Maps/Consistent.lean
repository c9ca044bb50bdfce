import Mathlib
import Quoin.Maps.Refines

/-!
# Quoin — equality and hash of scalars

Of which scalars the native `==` is an equivalence, of equal ones of which the hashes
are the same, and an entry put under one of which is found under the others: those
that round-trip with each other (`equality_hash_consistent`). A Double that rounds an
Integer does not where it converts back to another one, and `==` is then not even
transitive.

## Results

* `equality_hash_consistent` — for a set of scalars: `==` is an equivalence that the hash respects
  exactly if they round-trip with each other;
* `equality_hash_rounded` — 2^53 + 1 is equal to a Double that is hashed as 2^53.
-/

namespace Quoin.Maps

open NativeMapState

section Consistent

variable {U E : Type} [DecidableEq U] {vm : Dispatch U E} {S : Value U → Prop}

/-- Integer, Double, String, Symbol, Boolean and nil. -/
def Value.isScalar : Value U → Bool
  | .int _ | .double _ | .string _ | .symbol _ | .bool _ | .nil => true
  | _ => false

omit [DecidableEq U] in
theorem Value.exact_of_scalar {a : Value U} (ha : a.isScalar) : a.keyNativeExact := by
  cases a <;> first | rfl | contradiction

/-- The keys of a run are among some values, and its maps have room for a new entry. -/
def Among (vm : Dispatch U E) (S : Value U → Prop) (elem : Option ElemTag)
    (ops : List (MapOp U)) : Prop :=
  Ordered.Throughout (MapOp.apply vm)
    (fun m op => (∀ key ∈ op.key?, S key) ∧ m.entries.length < 2 ^ 32) (newEmpty elem) ops

/-- The map that a run leaves. -/
abbrev after (vm : Dispatch U E) (elem : Option ElemTag) (ops : List (MapOp U)) : MapState U :=
  (Ordered.outcomes (MapOp.apply vm) (newEmpty elem) ops).2

/-- Equality and hash agree on some values. -/
structure Consistent (vm : Dispatch U E) (S : Value U → Prop) : Prop where
  refl : ∀ a, S a → a.isNaN = false → a.nativeEq a = true
  symm : ∀ a b, S a → S b → a.nativeEq b = true → b.nativeEq a = true
  trans : ∀ a b c, S a → S b → S c → a.nativeEq b = true → b.nativeEq c = true →
    a.nativeEq c = true
  hash : ∀ a b, S a → S b → a.nativeEq b = true → a.hashScalar vm = b.hashScalar vm
  /-- What is put under a key into a map of such keys is got under every equal key. -/
  found : ∀ elem ops, Among vm S elem ops → (after vm elem ops).entries.length < 2 ^ 32 →
    ∀ key key' v m', S key → S key' → key.nativeEq key' = true →
      mapPutAny vm (after vm elem ops) key v = .ok m' → mapGetAny vm m' key' = .ok (some v)

omit [DecidableEq U] in
theorem MapOp.mem_spec [DecidableEq U] {check : Value U → Except (Fault E) Unit} {op : MapOp U}
    {l : List (Value U × Value U)} {e : Value U × Value U} (he : e ∈ (op.spec check l).2) :
    e.1 ∈ op.key? ∨ ∃ e' ∈ l, e.1 = e'.1 := by
  have hPut {key v : Value U}
      (he : e ∈ (spec check l (.put key v)).2) : e.1 = key ∨ ∃ e' ∈ l, e.1 = e'.1 := by
    cases hCheck : check v with
    | ok =>
      simp only [spec, hCheck] at he
      rcases Ordered.mem_put he with rfl | hOld | ⟨e', he', rfl⟩
      · exact .inl rfl
      · exact .inr ⟨e, hOld, rfl⟩
      · exact .inr ⟨e', he', rfl⟩
    | error =>
      simp only [spec, hCheck] at he
      exact .inr ⟨e, he, rfl⟩
  cases op with
  | put key v | set key v => exact (hPut he).imp (congrArg some ·.symm) id
  | get key | fetch key | containsKey key => exact .inr ⟨e, he, rfl⟩
  | remove key => exact .inr ⟨e, Ordered.mem_remove he, rfl⟩
  | clear => exact absurd he List.not_mem_nil

/-- A map holds its entries, and their keys are among some values. -/
def HeldAmong (vm : Dispatch U E) (S : Value U → Prop) (m : MapState U) : Prop :=
  Held vm m ∧ ∀ e ∈ m.entries, S e.key

variable (hScalar : ∀ a, S a → a.isScalar) (hRound : ∀ a b, S a → S b → a.roundTrips b)
include hScalar hRound

theorem HeldAmong.apply {m : MapState U} {op : MapOp U} (h : HeldAmong vm S m)
    (hOp : (∀ key ∈ op.key?, S key) ∧ m.entries.length < 2 ^ 32) :
    HeldAmong vm S (op.apply vm m).2 := by
  obtain ⟨hHeld, hKeys⟩ := h
  have hFits : op.Fits m :=
    ⟨fun key hKey e he => hRound e.key key (hKeys e he) (hOp.1 key hKey), fun _ _ _ => hOp.2⟩
  obtain ⟨-, hHeld', -, hListed⟩ := MapOp.apply_eq hHeld
    (fun key hKey => Value.exact_of_scalar (hScalar key (hOp.1 key hKey))) hFits
  refine ⟨hHeld', fun e he => ?_⟩
  have hMem : (e.key, e.value) ∈ (op.spec (checkInsert vm m.elem) m.listed).2 := by
    rw [← hListed]
    exact List.mem_map_of_mem he
  rcases MapOp.mem_spec hMem with hKey | ⟨e', he', hKey⟩
  · exact hOp.1 e.key hKey
  · obtain ⟨e'', he'', rfl⟩ := List.mem_map.mp he'
    have hSame : e.key = e''.key := hKey
    rw [hSame]
    exact hKeys e'' he''

theorem HeldAmong.after {elem : Option ElemTag} {ops : List (MapOp U)}
    (hRun : Among vm S elem ops) : HeldAmong vm S (after vm elem ops) :=
  Ordered.outcomes_invariant (I := HeldAmong vm S) (fun _ _ h hOp => h.apply hScalar hRound hOp) ops
    ⟨.newEmpty elem, by simp [newEmpty]⟩ hRun

/-- What is put under a key is got under an equal one. -/
theorem HeldAmong.found {m m' : MapState U} {key key' v : Value U} (h : HeldAmong vm S m)
    (hRoom : m.entries.length < 2 ^ 32) (hKey : S key) (hKey' : S key')
    (hEq : key.nativeEq key' = true) (hPut : mapPutAny vm m key v = .ok m') :
    mapGetAny vm m' key' = .ok (some v) := by
  obtain ⟨hHeld, hKeys⟩ := h
  have hExact := Value.exact_of_scalar (hScalar key hKey)
  have hExact' := Value.exact_of_scalar (hScalar key' hKey')
  have hElem : checkInsert vm m.elem v = .ok () := by
    unfold mapPutAny at hPut
    cases hCheck : checkInsert vm m.elem v with
    | ok => rfl
    | error e =>
      rw [hCheck] at hPut
      contradiction
  obtain ⟨m'', hPut', hHeld', -, hListed⟩ := hHeld.mapPutAny hExact
    (fun e he => hRound e.key key (hKeys e he) hKey) (fun _ => hRoom) hElem
  obtain rfl : m'' = m' := Except.ok.inj (hPut'.symm.trans hPut)
  -- the keys are still of the set, so that all of them round-trip
  have hAmong : HeldAmong vm S m'' := by
    have hApply : MapOp.apply vm m (.put key v) = (.ok none, m'') := by
      show MapOp.settle m (do return (none, ← mapPutAny vm m key v)) = _
      rw [hPut]
      rfl
    have hNext : HeldAmong vm S (MapOp.apply vm m (.put key v)).2 :=
      HeldAmong.apply hScalar hRound ⟨hHeld, hKeys⟩
        ⟨fun k hk => Option.some.inj hk ▸ hKey, hRoom⟩
    rwa [hApply] at hNext
  -- so a key equals the one iff it equals the other
  have hSame : ∀ e ∈ m.listed, e.1.nativeEq key = e.1.nativeEq key' := by
    intro e he
    obtain ⟨e', he', rfl⟩ := List.mem_map.mp he
    have hRounds := hRound e'.key key (hKeys e' he') hKey
    have hBetween := hRound key key' hKey hKey'
    rw [Bool.eq_iff_iff]
    constructor
    · exact fun hLeft => Value.nativeEq_trans hLeft hEq hRounds hBetween
    · intro hRight
      refine Value.nativeEq_trans hRight (Value.nativeEq_symm hEq)
        (hRound e'.key key' (hKeys e' he') hKey') ?_
      exact hRound key' key hKey' hKey
  obtain ⟨b, hGet, hValue⟩ : ∃ b, Ordered.get Prod.fst Value.nativeEq key'
      (Ordered.put Prod.fst Value.nativeEq key (fun e => (e.1, v)) (key, v) m.listed) = some b ∧
        (b = (key, v) ∨ ∃ c ∈ m.listed, b = (c.1, v)) :=
    Ordered.get_put (fun _ => rfl) rfl hEq hSame
  rw [hHeld'.mapGetAny hExact' fun e he => hRound e.key key' (hAmong.2 e he) hKey', hListed, hGet]
  rcases hValue with rfl | ⟨c, -, rfl⟩ <;> rfl

omit hRound in
/-- Scalars are consistent if and only if each round-trips with each. -/
theorem equality_hash_consistent (hInj : Function.Injective vm.hashI64) :
    Consistent vm S ↔ ∀ a b, S a → S b → a.roundTrips b = true := by
  constructor
  · intro h a b ha hb
    cases hEq : a.nativeEq b with
    | true => exact Value.roundTrips_of_hash hInj hEq (h.hash a b ha hb hEq)
    | false => exact Value.roundTrips_of_ne hEq
  · intro hRound
    constructor
    · exact fun a _ ha => Value.nativeEq_refl ha
    · exact fun a b _ _ hab => Value.nativeEq_symm hab
    · intro a b c ha hb hc hab hbc
      exact Value.nativeEq_trans hab hbc (hRound a b ha hb) (hRound b c hb hc)
    · exact fun a b ha hb hab => Value.hashScalar_eq hab (hRound a b ha hb)
    · intro elem ops hRun hRoom key key' v m' hKey hKey' hEq hPut
      exact (HeldAmong.after hScalar hRound hRun).found hScalar hRound hRoom hKey hKey' hEq hPut

end Consistent

/-- The numbers 0, 1 and 1.0 are consistent. -/
theorem equality_hash_consistent_ones :
    let S : List (Value Empty) := [.int 0, .int 1, .double (Num.nearest 1)]
    Consistent scalarsOnly (· ∈ S) := by
  intro S
  have hRound : ∀ a ∈ S, ∀ b ∈ S, a.roundTrips b = true := by decide +kernel
  exact (equality_hash_consistent (by decide) scalarsOnly_injective).mpr
    fun a b ha hb => hRound a ha b hb

/-- `9007199254740992.0` equals two Integers that are not equal, and has the hash of one. -/
theorem equality_hash_rounded :
    let a : Value Empty := .int 9007199254740993
    let b : Value Empty := .double (Num.nearest 9007199254740992)
    let c : Value Empty := .int 9007199254740992
    a.nativeEq b = true ∧ b.nativeEq c = true ∧ a.nativeEq c = false ∧
      a.hashScalar scalarsOnly ≠ b.hashScalar scalarsOnly ∧
      ¬Consistent scalarsOnly fun a : Value Empty => a.isScalar := by
  intro a b c
  have hEq : a.nativeEq b = true := by decide +kernel
  have hHash : a.hashScalar scalarsOnly ≠ b.hashScalar scalarsOnly := by decide +kernel
  exact ⟨hEq, by decide +kernel, by decide +kernel, hHash, fun h => hHash (h.hash a b rfl rfl hEq)⟩

end Quoin.Maps
