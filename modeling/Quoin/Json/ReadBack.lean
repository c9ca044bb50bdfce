import Mathlib
import Quoin.Json.Generate
import Quoin.Trans.Levels

/-!
# Quoin — what `JSON.generate:` writes and `JSON.parse:` reads

Data is nil, booleans, Integers, finite Doubles, Strings, Lists and Maps with String
keys. Walking it changes nothing in the heap (`steady_walk`), and fails exactly if
something lies more than 128 levels down (`walk_levels`). What the walk
answers is parsed as an equal value (`parsed_walk`) and is nested as deep as the
Lists and Maps are (`lt_nesting_walk`): up to 129 levels, of which the parser takes
127. So what is generated is read back exactly if no List or Map lies 127 levels
down, or something lies 129 levels down and nothing is generated
(`generate_reads_back`).

## Results

* `parsed_walk` — an accepted text is parsed as an equal value;
* `generate_reads_back` — in every heap: what is generated reads back, exactly if nothing is nested
  at the levels that the two limits treat differently;
* `generate_reads_back_towers` — 128 Lists in one another are generated and not parsed.
-/

namespace Quoin.Json

open Num Trans

/-! ## Data in the heap -/

/-- What a List or a Map holds. -/
def elements (h : Heap) : Value → List Value
  | .object p =>
    match h.payload p with
    | .list items => items
    | .map entries => entries.map Prod.snd
    | _ => []
  | _ => []

def isContainer (h : Heap) : Value → Bool
  | .object p =>
    match h.payload p with
    | .list _ | .map _ => true
    | _ => false
  | _ => false

/-- The kinds of data: nil, booleans, Integers, finite Doubles, Strings, Lists and Maps with String
keys. -/
inductive IsData (h : Heap) : Value → Prop where
  | nil : IsData h .nil
  | bool (b : Bool) : IsData h (.bool b)
  | int (i : Int64) : IsData h (.int i)
  | double (f : Float) : f.isFinite → IsData h (.double f)
  | string (p : Nat) (s : String) : h.payload p = .string s → IsData h (.object p)
  | list (p : Nat) (items : List Value) : h.payload p = .list items → IsData h (.object p)
  | map (p : Nat) (entries : List (Value × Value)) : h.payload p = .map entries →
      (∀ e ∈ entries, ∃ ks, stringKey h.payload e.1 = some ks) → IsData h (.object p)

/-- Data, and all that is in it. -/
def Plain (h : Heap) (v : Value) : Prop := ∀ n w, At (elements h) n v w → IsData h w

def SelfReferential (h : Heap) (v : Value) : Prop :=
  ∃ m n w, At (elements h) m v w ∧ At (elements h) (n + 1) w w

/-- A value that was parsed equals one in the heap; Maps have their entries in one order. -/
inductive Equals (h : Heap) : Value → Data → Prop where
  | nil : Equals h .nil .nil
  | bool (b : Bool) : Equals h (.bool b) (.bool b)
  | int (i : Int64) : Equals h (.int i) (.number (.int i))
  | double (f : Float) : Equals h (.double f) (.number (.double f))
  | string {p : Nat} {s : String} : h.payload p = .string s → Equals h (.object p) (.string s)
  | list {p : Nat} {items : List Value} {ds : List Data} : h.payload p = .list items →
      List.Forall₂ (Equals h) items ds → Equals h (.object p) (.list ds)
  | map {p : Nat} {entries : List (Value × Value)} {ds : List (String × Data)} :
      h.payload p = .map entries →
      entries.map (fun e => stringKey h.payload e.1) = ds.map (fun d => some d.1) →
      List.Forall₂ (Equals h) (entries.map Prod.snd) (ds.map Prod.snd) →
      Equals h (.object p) (.map ds)

section Claims

variable {E : Type} (serde : Serde) (asDataOf : Hook E) (numerics : Numerics)

/-- What the text of a double is: a text with point or exponent that is parsed as the double, and
that has the value of the double's shortest rendering. -/
structure DoubleTextSpec : Prop where
  marked : ∀ f : Float, f.isFinite → (serde.doubleText f).isInteger = false
  parses : ∀ f : Float, f.isFinite → numerics.parseF64 (serde.doubleText f).render = some f
  shortest : ∀ f : Float, f.isFinite → (serde.doubleText f).value = (numerics.shortest f).value

/-- Printing and parsing are inverse on a tree that is nested at most 127 deep; on a deeper one the
parser fails. -/
structure Serde.Inverse (j : Tree) : Prop where
  prints : ∃ s, serde.toString j = .ok s
  parses : ∀ s, serde.toString j = .ok s → j.nesting ≤ 127 → serde.fromStr s = .ok j
  tooDeep : ∀ s, serde.toString j = .ok s → 128 ≤ j.nesting → ∃ e, serde.fromStr s = .error e

/-- A text that is generated is parsed, as an equal value. -/
def ReadsBack (h : Heap) (v : Value) : Prop :=
  ∀ s, answer (generate serde asDataOf v) h = .ok s →
    ∃ d, parse (E := E) serde numerics s = .ok d ∧ Equals h v d

end Claims

/-! ## The walk of data -/

section Walk

variable {E : Type} {serde : Serde} {asDataOf : Hook E} {numerics : Numerics} {h : Heap}
  {v w : Value} {p n k : Nat} {items : List Value} {entries : List (Value × Value)} {j : Tree}

theorem elements_list (hPayload : h.payload p = .list items) :
    elements h (.object p) = items := by
  rw [elements, hPayload]

theorem elements_map (hPayload : h.payload p = .map entries) :
    elements h (.object p) = entries.map Prod.snd := by
  rw [elements, hPayload]

theorem Plain.here (hPlain : Plain h v) : IsData h v := hPlain 0 v rfl

theorem Plain.element (hPlain : Plain h v) (hMem : w ∈ elements h v) : Plain h w :=
  fun n u hu => hPlain (n + 1) u ⟨w, hMem, hu⟩

theorem Plain.item (hPlain : Plain h (.object p)) (hPayload : h.payload p = .list items)
    (hMem : w ∈ items) : Plain h w :=
  hPlain.element (by rwa [elements_list hPayload])

theorem Plain.entry (hPlain : Plain h (.object p)) (hPayload : h.payload p = .map entries)
    {e : Value × Value} (hMem : e ∈ entries) : Plain h e.2 :=
  hPlain.element (by
    rw [elements_map hPayload]
    exact List.mem_map_of_mem hMem)

theorem run_object (p n : Nat) :
    (valueToJsonAt serde asDataOf (n + 1) (.object p)).run.run h =
      (payloadToJson serde asDataOf (valueToJsonAt serde asDataOf n) (.object p)
        (h.payload p)).run.run h := rfl

theorem steady_fieldOf {walk : Value → M E Tree} {e : Value × Value} {ks : String}
    (hKey : stringKey h.payload e.1 = some ks) (hWalk : Steady (walk e.2) h) :
    Steady (fieldOf walk e) h ∧
      answer (fieldOf walk e) h = (answer (walk e.2) h).map fun j => (ks, j) := by
  have hString : (keyString e.1 : M E String).run.run h = (.ok ks, h) := by
    show (keyOf (stringKey h.payload e.1) : M E String).run.run h = _
    rw [hKey]
    rfl
  have hSteady : Steady (keyString e.1 : M E String) h := congrArg Prod.snd hString
  have hAnswer : answer (keyString e.1 : M E String) h = .ok ks := congrArg Prod.fst hString
  constructor
  · exact hSteady.bind fun _ _ => hWalk.bind fun _ _ => rfl
  · unfold fieldOf
    rw [answer_bind hSteady, hAnswer]
    show answer (walk e.2 >>= fun j => pure (ks, j)) h = _
    rw [answer_bind hWalk]
    cases answer (walk e.2) h <;> rfl

/-- Walking data leaves the heap as it is. -/
theorem steady_walk (hPlain : Plain h v) : Steady (valueToJsonAt serde asDataOf n v) h := by
  induction n generalizing v with
  | zero => rfl
  | succ n ih =>
    cases hPlain.here with
    | nil => rfl
    | bool b => rfl
    | int i => rfl
    | double f hFinite =>
      rw [valueToJsonAt, if_pos hFinite]
      rfl
    | string p s hPayload =>
      rw [Steady, run_object, hPayload]
      rfl
    | list p items hPayload =>
      rw [Steady, run_object, hPayload]
      exact (steady_mapM fun w hw => ih (hPlain.item hPayload hw)).bind fun _ _ => rfl
    | map p entries hPayload hKeys =>
      rw [Steady, run_object, hPayload]
      refine (steady_mapM fun e he => ?_).bind fun _ _ => rfl
      obtain ⟨ks, hKey⟩ := hKeys e he
      exact (steady_fieldOf hKey (ih (hPlain.entry hPayload he))).1

variable (serde asDataOf h) in
/-- What the walk answers on `n` levels. -/
def walk (n : Nat) (v : Value) : Except (QuoinError E) Tree :=
  answer (valueToJsonAt serde asDataOf n v) h

theorem walk_string {s : String} (hPayload : h.payload p = .string s) :
    walk serde asDataOf h (n + 1) (.object p) = .ok (.string s) := by
  show answer (payloadToJson serde asDataOf _ (.object p) (h.payload p)) h = _
  rw [hPayload]
  rfl

theorem walk_double {f : Float} (hFinite : f.isFinite) :
    walk serde asDataOf h (n + 1) (.double f) = .ok (.number (serde.doubleText f)) := by
  rw [walk, valueToJsonAt, if_pos hFinite]
  rfl

theorem walk_list (hPlain : Plain h (.object p)) (hPayload : h.payload p = .list items) :
    walk serde asDataOf h (n + 1) (.object p) =
      (items.mapM (walk serde asDataOf h n)).map Tree.array := by
  have hSteady : ∀ w ∈ items, Steady (valueToJsonAt serde asDataOf n w) h :=
    fun w hw => steady_walk (hPlain.item hPayload hw)
  show answer (payloadToJson serde asDataOf _ (.object p) (h.payload p)) h = _
  rw [hPayload, payloadToJson, answer_bind (steady_mapM hSteady), answer_mapM hSteady]
  rfl

/-- A field is the key with what the walk answers on the value. -/
def walkField (serde : Serde) (asDataOf : Hook E) (h : Heap) (n : Nat) (e : Value × Value) :
    Except (QuoinError E) (String × Tree) :=
  (walk serde asDataOf h n e.2).map fun j => ((stringKey h.payload e.1).getD "", j)

theorem walk_map (hPlain : Plain h (.object p)) (hPayload : h.payload p = .map entries)
    (hKeys : ∀ e ∈ entries, ∃ ks, stringKey h.payload e.1 = some ks) :
    walk serde asDataOf h (n + 1) (.object p) =
      (entries.mapM (walkField serde asDataOf h n)).map fun fields =>
        Tree.object (fromEntries fields) := by
  have hField : ∀ e ∈ entries, Steady (fieldOf (valueToJsonAt serde asDataOf n) e) h ∧
      answer (fieldOf (valueToJsonAt serde asDataOf n) e) h
        = walkField serde asDataOf h n e := by
    intro e he
    obtain ⟨ks, hKey⟩ := hKeys e he
    have hSteady : Steady (valueToJsonAt serde asDataOf n e.2) h :=
      steady_walk (hPlain.entry hPayload he)
    have hOf := steady_fieldOf hKey hSteady
    rw [walkField, hKey]
    exact hOf
  show answer (payloadToJson serde asDataOf _ (.object p) (h.payload p)) h = _
  rw [hPayload, payloadToJson, answer_bind (steady_mapM fun e he => (hField e he).1),
    answer_mapM fun e he => (hField e he).1, mapM_congr fun e he => (hField e he).2]
  rfl

theorem walk_list_ok (hPlain : Plain h (.object p)) (hPayload : h.payload p = .list items)
    (hWalk : walk serde asDataOf h (n + 1) (.object p) = .ok j) :
    ∃ arr, j = .array arr ∧
      List.Forall₂ (fun w j => walk serde asDataOf h n w = .ok j) items arr := by
  rw [walk_list hPlain hPayload] at hWalk
  cases hItems : items.mapM (walk serde asDataOf h n) with
  | error e =>
    rw [hItems] at hWalk
    cases hWalk
  | ok arr =>
    rw [hItems] at hWalk
    cases hWalk
    exact ⟨arr, rfl, forall₂_of_mapM hItems⟩

theorem foldl_insertEntry {α : Type} {m es : List (String × α)}
    (hNodup : ((m ++ es).map Prod.fst).Nodup) : es.foldl insertEntry m = m ++ es := by
  induction es generalizing m with
  | nil => rw [List.foldl_nil, List.append_nil]
  | cons e es ih =>
    have hNew : (m.any fun e' => e'.1 = e.1) = false := by
      rw [List.any_eq_false]
      intro e' he' hEq
      rw [List.map_append, List.map_cons] at hNodup
      have hDisjoint := (List.nodup_append.mp hNodup).2.2 e'.1 (List.mem_map_of_mem he') e.1
        List.mem_cons_self
      exact hDisjoint (of_decide_eq_true hEq)
    rw [List.foldl_cons, insertEntry, if_neg (by simp [hNew])]
    rw [List.append_cons] at hNodup
    rw [ih hNodup, ← List.append_cons]

/-- Entries of distinct keys are a map. -/
theorem fromEntries_of_nodup {α : Type} {es : List (String × α)} (h : (es.map Prod.fst).Nodup) :
    fromEntries es = es :=
  foldl_insertEntry h

/-- The keys of a Map are distinct Strings. -/
theorem nodup_of_keys {α : Type} {fields : List (String × α)}
    (hPayload : h.payload p = .map entries)
    (hKeys : entries.map (fun e => stringKey h.payload e.1) = fields.map fun f => some f.1) :
    (fields.map Prod.fst).Nodup := by
  have hSame : entries.filterMap (fun e => stringKey h.payload e.1) = fields.map Prod.fst := by
    have hMapped := congrArg (List.filterMap id) hKeys
    rw [List.filterMap_map, List.filterMap_map] at hMapped
    exact hMapped.trans (congrFun List.filterMap_eq_map fields)
  rw [← hSame]
  exact h.keys_nodup p entries hPayload

theorem walk_map_ok (hPlain : Plain h (.object p)) (hPayload : h.payload p = .map entries)
    (hKeys : ∀ e ∈ entries, ∃ ks, stringKey h.payload e.1 = some ks)
    (hWalk : walk serde asDataOf h (n + 1) (.object p) = .ok j) :
    ∃ fields, j = .object fields ∧
      entries.map (fun e => stringKey h.payload e.1) = fields.map (fun f => some f.1) ∧
      List.Forall₂ (fun w j => walk serde asDataOf h n w = .ok j)
        (entries.map Prod.snd) (fields.map Prod.snd) := by
  rw [walk_map hPlain hPayload hKeys] at hWalk
  cases hFields : entries.mapM (walkField serde asDataOf h n) with
  | error e =>
    rw [hFields] at hWalk
    cases hWalk
  | ok fields =>
    rw [hFields] at hWalk
    have hAll : List.Forall₂ (fun e f => stringKey h.payload e.1 = some f.1 ∧
        walk serde asDataOf h n e.2 = .ok f.2) entries fields := by
      refine (List.forall₂_and_left _ _).mpr ⟨hKeys, forall₂_of_mapM hFields⟩ |>.imp ?_
      rintro e f ⟨⟨ks, hKey⟩, hField⟩
      rw [walkField, hKey] at hField
      cases hWalk : walk serde asDataOf h n e.2 with
      | error e' =>
        rw [hWalk] at hField
        cases hField
      | ok j =>
        rw [hWalk] at hField
        cases hField
        exact ⟨hKey, rfl⟩
    have hSame : entries.map (fun e => stringKey h.payload e.1) = fields.map fun f => some f.1 := by
      rw [← List.forall₂_eq_eq_eq, List.forall₂_map_left_iff, List.forall₂_map_right_iff]
      exact hAll.imp fun _ _ hField => hField.1
    cases hWalk
    refine ⟨fields, ?_, hSame, ?_⟩
    · show Tree.object (fromEntries fields) = .object fields
      rw [fromEntries_of_nodup (nodup_of_keys hPayload hSame)]
    · rw [List.forall₂_map_left_iff, List.forall₂_map_right_iff]
      exact hAll.imp fun _ _ hField => hField.2

/-! ## Depth -/

theorem elements_of_at {w : Value} (hAt : At (elements h) (n + 1) v w) : elements h v ≠ [] := by
  obtain ⟨u, hMem, -⟩ := hAt
  exact List.ne_nil_of_mem hMem

theorem elements_string {s : String} (hPayload : h.payload p = .string s) :
    elements h (.object p) = [] := by
  rw [elements, hPayload]

/-- A walk of the elements fails as the walk of one does. -/
theorem walk_elements {α β : Type} {f : α → Except (QuoinError E) β} {sub : α → Value}
    {build : List β → Tree} {xs : List α} (hElements : elements h v = xs.map sub)
    (hWalk : walk serde asDataOf h (n + 1) v = (xs.mapM f).map build)
    (hDeep : ∀ x ∈ xs, (∃ w, At (elements h) n (sub x) w) → f x = .error tooDeep)
    (hOk : ∀ x ∈ xs, (∀ w, ¬At (elements h) n (sub x) w) → ∃ y, f x = .ok y) :
    ((∃ w, At (elements h) (n + 1) v w) → walk serde asDataOf h (n + 1) v = .error tooDeep) ∧
    ((∀ w, ¬At (elements h) (n + 1) v w) → ∃ j, walk serde asDataOf h (n + 1) v = .ok j) := by
  constructor
  · rintro ⟨w, u, hMem, hAt⟩
    rw [hElements] at hMem
    obtain ⟨x, hx, rfl⟩ := List.mem_map.mp hMem
    have hAll : ∀ y ∈ xs, ∀ e, f y = .error e → e = tooDeep := by
      intro y hy e he
      by_cases hReach : ∃ w, At (elements h) n (sub y) w
      · rw [hDeep y hy hReach] at he
        exact (Except.error.inj he).symm
      · obtain ⟨z, hz⟩ := hOk y hy (not_exists.mp hReach)
        rw [hz] at he
        cases he
    rw [hWalk, mapM_error hx (hDeep x hx ⟨w, hAt⟩) hAll]
    rfl
  · intro hNone
    obtain ⟨ys, hys⟩ := exists_mapM fun x hx => hOk x hx fun w hAt =>
      hNone w ⟨sub x, by
        rw [hElements]
        exact List.mem_map_of_mem hx, hAt⟩
    rw [hWalk, hys]
    exact ⟨build ys, rfl⟩

variable (serde asDataOf) in
/-- A walk of no more levels than there are fails; else it answers a tree. -/
theorem walk_levels (n : Nat) (hPlain : Plain h v) :
    ((∃ w, At (elements h) n v w) → walk serde asDataOf h n v = .error tooDeep) ∧
    ((∀ w, ¬At (elements h) n v w) → ∃ j, walk serde asDataOf h n v = .ok j) := by
  induction n generalizing v with
  | zero => exact ⟨fun _ => rfl, fun hNone => absurd rfl (hNone v)⟩
  | succ n ih =>
    -- what holds nothing is walked on one level
    have hLeaf (hElements : elements h v = []) {j : Tree}
        (hWalk : walk serde asDataOf h (n + 1) v = .ok j) :
        ((∃ w, At (elements h) (n + 1) v w) → walk serde asDataOf h (n + 1) v = .error tooDeep) ∧
        ((∀ w, ¬At (elements h) (n + 1) v w) → ∃ j, walk serde asDataOf h (n + 1) v = .ok j) :=
      ⟨fun ⟨w, hAt⟩ => absurd hElements (elements_of_at hAt), fun _ => ⟨j, hWalk⟩⟩
    cases hPlain.here with
    | nil => exact hLeaf rfl rfl
    | bool b => exact hLeaf rfl rfl
    | int i => exact hLeaf rfl rfl
    | double f hFinite => exact hLeaf rfl (walk_double hFinite)
    | string p s hPayload => exact hLeaf (elements_string hPayload) (walk_string hPayload)
    | list p items hPayload =>
      have hElements : elements h (.object p) = items.map id := by
        rw [elements_list hPayload, List.map_id]
      exact walk_elements hElements (walk_list hPlain hPayload)
        (fun w hw => (ih (hPlain.item hPayload hw)).1)
        (fun w hw => (ih (hPlain.item hPayload hw)).2)
    | map p entries hPayload hKeys =>
      refine walk_elements (elements_map hPayload) (walk_map hPlain hPayload hKeys)
        (fun e he hAt => ?_) (fun e he hNone => ?_)
      · rw [walkField, (ih (hPlain.entry hPayload he)).1 hAt]
        rfl
      · obtain ⟨j, hj⟩ := (ih (hPlain.entry hPayload he)).2 hNone
        rw [walkField, hj]
        exact ⟨_, rfl⟩

theorem exists_iff_of_forall₂ {α β : Type} {R : α → β → Prop} {P : α → Prop} {Q : β → Prop}
    {xs : List α} {ys : List β} (h : List.Forall₂ R xs ys)
    (hIff : ∀ x ∈ xs, ∀ y, R x y → (P x ↔ Q y)) : (∃ x ∈ xs, P x) ↔ ∃ y ∈ ys, Q y := by
  induction h with
  | nil => simp
  | cons hxy _ ih =>
    rw [List.exists_mem_cons_iff, List.exists_mem_cons_iff, hIff _ List.mem_cons_self _ hxy,
      ih fun x hx => hIff x (List.mem_cons_of_mem _ hx)]

theorem lt_nestingOf {arr : List Tree} : k < nestingOf arr ↔ ∃ j ∈ arr, k < j.nesting := by
  induction arr with
  | nil => simp [nestingOf]
  | cons j arr ih => rw [nestingOf, lt_max_iff, ih, List.exists_mem_cons_iff]

theorem nestingIn_eq (fields : List (String × Tree)) :
    nestingIn fields = nestingOf (fields.map Prod.snd) := by
  induction fields with
  | nil => rfl
  | cons f fields ih => rw [nestingIn, List.map_cons, nestingOf, ih]

/-- A tree is nested as deep as the Lists and Maps that it was walked from. -/
theorem lt_nesting_walk (hPlain : Plain h v) (hWalk : walk serde asDataOf h n v = .ok j) :
    k < j.nesting ↔ ∃ w, At (elements h) k v w ∧ isContainer h w := by
  induction n generalizing v j k with
  | zero => cases hWalk
  | succ n ih =>
    -- what holds nothing is no container
    have hLeaf (hElements : elements h v = []) (hNot : isContainer h v = false)
        (hNesting : j.nesting = 0) :
        k < j.nesting ↔ ∃ w, At (elements h) k v w ∧ isContainer h w := by
      refine iff_of_false (by omega) ?_
      rintro ⟨w, hAt, hContainer⟩
      cases k with
      | zero =>
        obtain rfl : v = w := hAt
        rw [hNot] at hContainer
        cases hContainer
      | succ k => exact elements_of_at hAt hElements
    -- the elements, one level down
    have hBelow {arr : List Tree} (hContainer : isContainer h v)
        (hAll : List.Forall₂ (fun w j => walk serde asDataOf h n w = .ok j) (elements h v) arr) :
        k < nestingOf arr + 1 ↔ ∃ w, At (elements h) k v w ∧ isContainer h w := by
      cases k with
      | zero => exact iff_of_true (by omega) ⟨v, rfl, hContainer⟩
      | succ k =>
        rw [Nat.add_lt_add_iff_right, lt_nestingOf]
        have hIff := exists_iff_of_forall₂ hAll (P := fun u => ∃ w, At (elements h) k u w ∧
          isContainer h w) (Q := fun j => k < j.nesting)
          fun u hu j hj => (ih (hPlain.element hu) hj).symm
        rw [← hIff]
        constructor
        · rintro ⟨u, hu, w, hAt, hw⟩
          exact ⟨w, ⟨u, hu, hAt⟩, hw⟩
        · rintro ⟨w, ⟨u, hu, hAt⟩, hw⟩
          exact ⟨u, hu, w, hAt, hw⟩
    cases hPlain.here with
    | nil =>
      cases hWalk
      exact hLeaf rfl rfl rfl
    | bool b =>
      cases hWalk
      exact hLeaf rfl rfl rfl
    | int i =>
      cases hWalk
      exact hLeaf rfl rfl rfl
    | double f hFinite =>
      rw [walk_double hFinite] at hWalk
      cases hWalk
      exact hLeaf rfl rfl rfl
    | string p s hPayload =>
      rw [walk_string hPayload] at hWalk
      cases hWalk
      exact hLeaf (elements_string hPayload) (by rw [isContainer, hPayload]) rfl
    | list p items hPayload =>
      obtain ⟨arr, rfl, hAll⟩ := walk_list_ok hPlain hPayload hWalk
      rw [Tree.nesting]
      refine hBelow (by rw [isContainer, hPayload]) ?_
      rwa [elements_list hPayload]
    | map p entries hPayload hKeys =>
      obtain ⟨fields, rfl, -, hAll⟩ := walk_map_ok hPlain hPayload hKeys hWalk
      rw [Tree.nesting, nestingIn_eq]
      refine hBelow (by rw [isContainer, hPayload]) ?_
      rwa [elements_map hPayload]

/-! ## What is parsed -/

theorem numberToValue_int (i : Int64) :
    numberToValue (E := E) numerics (NumberText.ofInt i.toInt).render = .ok (.int i) := by
  refine numberToValue_integer (NumberText.isInteger_ofInt _) ?_
  have hRead : parseI64 (NumberText.ofInt i.toInt).render = some i := by
    unfold parseI64
    rw [NumberText.parseInteger_render (NumberText.isInteger_ofInt _), NumberText.mantissa_ofInt,
      Option.bind_some, if_pos ⟨i.le_toInt, i.toInt_lt⟩, Int64.ofInt_toInt]
  rw [integerOf, hRead]

/-- The text of a double is a double, whatever a Decimal makes of it. -/
theorem numberToValue_double (hText : DoubleTextSpec serde numerics) (hDouble : DoubleSpec numerics)
    (hDecimal : DecimalSpec numerics) {f : Float} (hFinite : f.isFinite) :
    numberToValue (E := E) numerics (serde.doubleText f).render = .ok (.double f) := by
  have hParse := hText.parses f hFinite
  rw [numberToValue_other (hText.marked f hFinite)]
  cases hDec : numerics.parseDecimal (serde.doubleText f).render with
  | none => exact decimalOf_unparsed hParse hFinite hDec
  | some d =>
    have hPlain : (serde.doubleText f).exponent = none := by
      by_contra hNot
      rw [hDecimal.noExponent _ hNot] at hDec
      cases hDec
    have hExact : isExact numerics f d = true := by
      unfold isExact
      rw [hDecimal.byValue _ (serde.doubleText f) (hDouble.plain f hFinite) hPlain
        (hText.shortest f hFinite).symm, hDec]
      exact decide_eq_true rfl
    rw [decimalOf_parsed hParse hFinite hDec, if_pos hExact]

/-- The elements of an array are parsed in turn. -/
theorem itemsToValue_of_forall₂ {vs : List Value} {arr : List Tree}
    (hAll : List.Forall₂ (fun v j => ∃ d, jsonToValue (E := E) numerics j = .ok d ∧ Equals h v d)
      vs arr) :
    ∃ ds, itemsToValue (E := E) numerics arr = .ok ds ∧ List.Forall₂ (Equals h) vs ds := by
  induction hAll with
  | nil => exact ⟨[], by rw [itemsToValue], .nil⟩
  | cons hv _ ih =>
    obtain ⟨d, hParse, hEquals⟩ := hv
    obtain ⟨ds, hRest, hAll⟩ := ih
    refine ⟨d :: ds, ?_, .cons hEquals hAll⟩
    rw [itemsToValue, hParse, hRest]
    rfl

theorem fieldsToValue_eq {fields : List (String × Tree)} {ds : List Data}
    (hItems : itemsToValue (E := E) numerics (fields.map Prod.snd) = .ok ds) :
    fieldsToValue (E := E) numerics fields = .ok ((fields.map Prod.fst).zip ds) ∧
      fields.length = ds.length := by
  induction fields generalizing ds with
  | nil =>
    rw [List.map_nil, itemsToValue] at hItems
    cases hItems
    exact ⟨by rw [fieldsToValue]; rfl, rfl⟩
  | cons f fields ih =>
    rw [List.map_cons, itemsToValue] at hItems
    cases hParse : jsonToValue (E := E) numerics f.2 with
    | error e =>
      rw [hParse] at hItems
      cases hItems
    | ok d =>
      rw [hParse] at hItems
      cases hRest : itemsToValue (E := E) numerics (fields.map Prod.snd) with
      | error e =>
        rw [hRest] at hItems
        cases hItems
      | ok rest =>
        rw [hRest] at hItems
        cases hItems
        obtain ⟨hFields, hLength⟩ := ih hRest
        refine ⟨?_, congrArg Nat.succ hLength⟩
        rw [fieldsToValue, hParse, hFields]
        rfl

/-- What the walk answers is parsed as an equal value. -/
theorem parsed_walk (hText : DoubleTextSpec serde numerics) (hDouble : DoubleSpec numerics)
    (hDecimal : DecimalSpec numerics) (hPlain : Plain h v)
    (hWalk : walk serde asDataOf h n v = .ok j) :
    ∃ d, jsonToValue (E := E) numerics j = .ok d ∧ Equals h v d := by
  induction n generalizing v j with
  | zero => cases hWalk
  | succ n ih =>
    -- the elements, one level down
    have hBelow {arr : List Tree}
        (hAll : List.Forall₂ (fun w j => walk serde asDataOf h n w = .ok j) (elements h v) arr) :
        ∃ ds, itemsToValue (E := E) numerics arr = .ok ds ∧
          List.Forall₂ (Equals h) (elements h v) ds :=
      itemsToValue_of_forall₂ <| ((List.forall₂_and_left _ _).mpr ⟨fun w hw => hw, hAll⟩).imp
        fun w j hw => ih (hPlain.element hw.1) hw.2
    cases hPlain.here with
    | nil =>
      cases hWalk
      exact ⟨.nil, by rw [jsonToValue], .nil⟩
    | bool b =>
      cases hWalk
      exact ⟨.bool b, by rw [jsonToValue], .bool b⟩
    | int i =>
      cases hWalk
      refine ⟨.number (.int i), ?_, .int i⟩
      rw [jsonToValue, numberToValue_int]
      rfl
    | double f hFinite =>
      rw [walk_double hFinite] at hWalk
      cases hWalk
      refine ⟨.number (.double f), ?_, .double f⟩
      rw [jsonToValue, numberToValue_double hText hDouble hDecimal hFinite]
      rfl
    | string p s hPayload =>
      rw [walk_string hPayload] at hWalk
      cases hWalk
      exact ⟨.string s, by rw [jsonToValue], .string hPayload⟩
    | list p items hPayload =>
      obtain ⟨arr, rfl, hAll⟩ := walk_list_ok hPlain hPayload hWalk
      rw [← elements_list hPayload] at hAll
      obtain ⟨ds, hParse, hEquals⟩ := hBelow hAll
      refine ⟨.list ds, ?_, .list hPayload (elements_list hPayload ▸ hEquals)⟩
      rw [jsonToValue, hParse]
      rfl
    | map p entries hPayload hKeys =>
      obtain ⟨fields, rfl, hSame, hAll⟩ := walk_map_ok hPlain hPayload hKeys hWalk
      rw [← elements_map hPayload] at hAll
      obtain ⟨ds, hParse, hEquals⟩ := hBelow hAll
      obtain ⟨hFields, hLength⟩ := fieldsToValue_eq hParse
      have hFst : ((fields.map Prod.fst).zip ds).map Prod.fst = fields.map Prod.fst :=
        List.map_fst_zip (by rw [List.length_map, hLength])
      have hSnd : ((fields.map Prod.fst).zip ds).map Prod.snd = ds :=
        List.map_snd_zip (by rw [List.length_map, hLength])
      have hNodup := nodup_of_keys hPayload hSame
      refine ⟨.map ((fields.map Prod.fst).zip ds), ?_, .map hPayload ?_ ?_⟩
      · rw [jsonToValue, hFields]
        show Except.ok (Data.map (fromEntries _)) = _
        rw [fromEntries_of_nodup (by rwa [hFst])]
      · have hSome := congrArg (List.map some) hFst
        rw [List.map_map, List.map_map] at hSome
        exact hSame.trans hSome.symm
      · rwa [hSnd, ← elements_map hPayload]

/-! ## Generating -/

theorem generate_error {e : QuoinError E} (hPlain : Plain h v)
    (hWalk : walk serde asDataOf h (MAX_SERIALIZE_DEPTH + 1) v = .error e) :
    answer (generate serde asDataOf v) h = .error e := by
  have hSteady : Steady (valueToJson serde asDataOf v) h := steady_walk hPlain
  have hAnswer : answer (valueToJson serde asDataOf v) h = .error e := hWalk
  rw [generate, answer_bind hSteady, hAnswer]
  rfl

theorem generate_ok {s : String} (hPlain : Plain h v)
    (hWalk : walk serde asDataOf h (MAX_SERIALIZE_DEPTH + 1) v = .ok j)
    (hText : serde.toString j = .ok s) : answer (generate serde asDataOf v) h = .ok s := by
  have hSteady : Steady (valueToJson serde asDataOf v) h := steady_walk hPlain
  have hAnswer : answer (valueToJson serde asDataOf v) h = .ok j := hWalk
  rw [generate, answer_bind hSteady, hAnswer]
  show answer (printed (serde.toString j)) h = _
  rw [hText]
  rfl

end Walk

/-! ## The theorem -/

/-- **What is generated is read back, and a self-referential value is not generated, exactly if no
List or Map lies 127 levels down, or something lies 129 levels down.** -/
theorem generate_reads_back {E : Type} (serde : Serde) (asDataOf : Hook E) (numerics : Numerics)
    (hText : DoubleTextSpec serde numerics) (hDouble : DoubleSpec numerics)
    (hDecimal : DecimalSpec numerics) (h : Heap) (v : Value) (hPlain : Plain h v)
    (hSerde : ∀ j, answer (valueToJson serde asDataOf v) h = .ok j → serde.Inverse j) :
    (ReadsBack serde asDataOf numerics h v ∧
      (SelfReferential h v → ∃ e, answer (generate serde asDataOf v) h = .error e)) ↔
    (∀ w, At (elements h) 127 v w → isContainer h w = false) ∨
      ∃ w, At (elements h) 129 v w := by
  have hLevels := walk_levels serde asDataOf 129 hPlain
  by_cases hDeep : ∃ w, At (elements h) 129 v w
  · -- nothing is generated
    have hError := generate_error hPlain (hLevels.1 hDeep)
    refine iff_of_true ⟨fun s hs => ?_, fun _ => ⟨_, hError⟩⟩ (.inr hDeep)
    rw [hError] at hs
    cases hs
  · obtain ⟨j, hWalk⟩ := hLevels.2 (not_exists.mp hDeep)
    have hInverse := hSerde j hWalk
    obtain ⟨s, hPrint⟩ := hInverse.prints
    have hGenerate := generate_ok hPlain hWalk hPrint
    -- a cycle would lead 129 levels down
    have hAcyclic : ¬SelfReferential h v :=
      fun ⟨m, n, w, hTo, hCycle⟩ => hDeep (at_of_cycle hTo hCycle 129)
    have hNesting : (127 < j.nesting ↔ _) := lt_nesting_walk hPlain hWalk
    rw [or_iff_left hDeep]
    constructor
    · -- read back: so nothing lies too deep for the parser
      rintro ⟨hReads, -⟩ w hAt
      obtain ⟨d, hParse, -⟩ := hReads s hGenerate
      by_contra hContainer
      have hTooDeep : 127 < j.nesting := hNesting.mpr ⟨w, hAt, by simpa using hContainer⟩
      obtain ⟨e, hFail⟩ := hInverse.tooDeep s hPrint hTooDeep
      rw [parse, hFail] at hParse
      cases hParse
    · -- nothing lies too deep: so the parser answers, and what it answers is equal
      intro hShallow
      have hFew : j.nesting ≤ 127 := by
        rw [← not_lt, hNesting]
        rintro ⟨w, hAt, hContainer⟩
        rw [hShallow w hAt] at hContainer
        cases hContainer
      refine ⟨fun s' hs' => ?_, fun hSelf => absurd hSelf hAcyclic⟩
      rw [hGenerate] at hs'
      cases hs'
      obtain ⟨d, hParse, hEquals⟩ := parsed_walk hText hDouble hDecimal hPlain hWalk
      refine ⟨d, ?_, hEquals⟩
      rw [parse, hInverse.parses s hPrint hFew]
      exact hParse

/-! ## Lists in Lists -/

namespace Towers

/-- Object 0 is an empty List, every other one is a List of the one before it. -/
def heap : Heap where
  payload
    | 0 => .list []
    | p + 1 => .list [.object p]
  keys_nodup p entries h := by cases p <;> cases h

def tower : Nat → Tree
  | 0 => .array []
  | n + 1 => .array [tower n]

/-- Arrays of at most one element, and null. -/
def text : Tree → String
  | .array [] => "[]"
  | .array [j] => "[" ++ text j ++ "]"
  | _ => "null"

/-- A double's bits, as an exponent. -/
def doubleText (f : Float) : NumberText where
  negative := false
  whole := [digit 1]
  frac := []
  exponent := some ⟨false, none, natDigits f.toModel.toBits.toNat, natDigits_ne_nil _⟩
  whole_ok := Samples.one_whole

instance decidableValid (b : BitVec Float.Model.Format.binary64.numBits) :
    Decidable (Float.Model.Format.binary64.Valid b) :=
  decidable_of_iff _ ⟨fun h => ⟨h⟩, fun h => h.eq_packedNaN⟩

/-- The double that bits are of. -/
def ofBits (bits : UInt64) : Float :=
  if h : Float.Model.Format.binary64.Valid bits.toBitVec then ⟨⟨bits, h⟩⟩ else 1 / 0

def numerics : Numerics where
  parseBig := parseInteger
  parseF64 raw := some (ofBits (.ofNat ((parseDigits (raw.toList.drop 2)).getD 0)))
  shortest f := .ofInt (10 ^ f.toModel.toBits.toNat)
  parseDecimal := Samples.lib.parseDecimal

/-- A parser that counts the arrays. -/
def parseArrays : Nat → Except String Tree
  | 0 => .ok .null
  | n + 1 => if n < 127 then .ok (tower n) else .error "recursion limit exceeded"

def serde : Serde where
  doubleText := doubleText
  parseNumber _ := none
  toString j := .ok (text j)
  fromStr s := parseArrays (s.toList.count '[')
  showDecimal _ := ""

def noData : Hook Empty := fun _ => pure none

theorem ofBits_toBits (f : Float) : ofBits f.toModel.toBits = f := dif_pos f.toModel.valid

theorem render_doubleText (f : Float) : (doubleText f).render.toList.drop 2
    = (natDigits f.toModel.toBits.toNat).map digitChar := by
  rw [NumberText.toList_render]
  rfl

theorem doubleTextSpec : DoubleTextSpec serde numerics where
  marked _ _ := rfl
  parses f _ := by
    show some (ofBits _) = some f
    rw [show serde.doubleText f = doubleText f from rfl, render_doubleText,
      parseDigits_digitChar (natDigits_ne_nil _), digitsValue_natDigits, Option.getD_some,
      UInt64.ofNat_toNat, ofBits_toBits]
  shortest f _ := by
    show (doubleText f).value = (NumberText.ofInt (10 ^ f.toModel.toBits.toNat)).value
    rw [NumberText.value_of_integer (NumberText.isInteger_ofInt _), NumberText.mantissa_ofInt]
    have hScale : (doubleText f).scale = (f.toModel.toBits.toNat : Int) := by
      show (digitsValue (natDigits f.toModel.toBits.toNat) : Int) - 0 = _
      rw [digitsValue_natDigits, sub_zero]
    have hMantissa : (doubleText f).mantissa = 1 := rfl
    rw [NumberText.value, hScale, hMantissa, zpow_natCast]
    push_cast
    ring

theorem doubleSpec : DoubleSpec numerics where
  parses _ := ⟨_, rfl⟩
  plain _ _ := rfl
  shortest _ _ _ k _ _ _ := Nat.zero_le k
  digits _ _ h := absurd rfl h

theorem decimalSpec : DecimalSpec numerics where
  noExponent := Samples.decimalSpec.noExponent
  exact := Samples.decimalSpec.exact
  byValue := Samples.decimalSpec.byValue
  fits := Samples.decimalSpec.fits
  tooLarge := Samples.decimalSpec.tooLarge

theorem nesting_tower (n : Nat) : (tower n).nesting = n + 1 := by
  induction n with
  | zero => rfl
  | succ n ih => rw [tower, Tree.nesting, nestingOf, nestingOf, ih, Nat.max_zero]

theorem count_text (n : Nat) : (text (tower n)).toList.count '[' = n + 1 := by
  induction n with
  | zero => decide
  | succ n ih =>
    have hOpen : "[".toList.count '[' = 1 := by decide
    have hClose : "]".toList.count '[' = 0 := by decide
    rw [tower, text, String.toList_append, String.toList_append, List.count_append,
      List.count_append, ih, hOpen, hClose]
    omega

theorem fromStr_text (n : Nat) : serde.fromStr (text (tower n))
    = if n < 127 then .ok (tower n) else .error "recursion limit exceeded" := by
  show parseArrays ((text (tower n)).toList.count '[') = _
  rw [count_text]
  rfl

theorem inverse (n : Nat) : serde.Inverse (tower n) where
  prints := ⟨_, rfl⟩
  parses s hs hFew := by
    rw [nesting_tower] at hFew
    rw [← Except.ok.inj hs, fromStr_text, if_pos (by omega)]
  tooDeep s hs hDeep := by
    rw [nesting_tower] at hDeep
    rw [← Except.ok.inj hs, fromStr_text, if_neg (by omega)]
    exact ⟨_, rfl⟩

theorem elements_heap (p : Nat) : elements heap (.object p) =
    if p = 0 then [] else [.object (p - 1)] := by
  cases p <;> rfl

/-- What lies below an object is the objects before it. -/
theorem at_heap {p n : Nat} {w : Value} :
    At (elements heap) n (.object p) w ↔ n ≤ p ∧ w = .object (p - n) := by
  induction n generalizing p with
  | zero => simp [At, eq_comm]
  | succ n ih =>
    rw [At, elements_heap]
    cases p with
    | zero => simp
    | succ p => simp [ih]

theorem plain (p : Nat) : Plain heap (.object p) := by
  intro n w hAt
  obtain ⟨-, rfl⟩ := at_heap.mp hAt
  generalize p - n = q
  cases q with
  | zero => exact .list 0 [] rfl
  | succ q => exact .list (q + 1) [.object q] rfl

theorem walk_tower {p n : Nat} (h : p < n) :
    walk serde noData heap n (.object p) = .ok (tower p) := by
  induction p generalizing n with
  | zero =>
    obtain ⟨n, rfl⟩ := Nat.exists_eq_add_of_lt h
    rfl
  | succ p ih =>
    cases n with
    | zero => omega
    | succ n =>
      have hList : heap.payload (p + 1) = .list [.object p] := rfl
      rw [walk_list (plain (p + 1)) hList, List.mapM_cons, ih (by omega)]
      rfl

end Towers

/-- A List in a List. -/
theorem generate_reads_back_two :
    ReadsBack Towers.serde Towers.noData Towers.numerics Towers.heap (.object 1) :=
  ((generate_reads_back Towers.serde Towers.noData Towers.numerics Towers.doubleTextSpec
    Towers.doubleSpec Towers.decimalSpec Towers.heap (.object 1) (Towers.plain 1)
    fun j hj => by
      have hWalk : Except.ok (Towers.tower 1) = Except.ok j :=
        (Towers.walk_tower (by decide : 1 < 129)).symm.trans hj
      rw [← Except.ok.inj hWalk]
      exact Towers.inverse 1).mpr
    (.inl fun w hAt => absurd (Towers.at_heap.mp hAt).1 (by decide))).1

/-- 128 Lists, each but the last in the one before it. -/
theorem generate_reads_back_towers :
    Plain Towers.heap (.object 127) ∧
    answer (generate Towers.serde Towers.noData (.object 127)) Towers.heap
      = .ok (Towers.text (Towers.tower 127)) ∧
    ¬ReadsBack Towers.serde Towers.noData Towers.numerics Towers.heap (.object 127) := by
  have hGenerate : answer (generate Towers.serde Towers.noData (.object 127)) Towers.heap
      = .ok (Towers.text (Towers.tower 127)) :=
    generate_ok (Towers.plain 127) (Towers.walk_tower (by decide)) rfl
  refine ⟨Towers.plain 127, hGenerate, fun hReads => ?_⟩
  obtain ⟨d, hParse, -⟩ := hReads _ hGenerate
  rw [parse, Towers.fromStr_text, if_neg (by decide)] at hParse
  cases hParse

end Quoin.Json
