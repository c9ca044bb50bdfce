import Mathlib
import Quoin.Classes.Hierarchy

/-!
# Quoin — the checker's class table

The table the checker asks about classes: for each name a signature, with the
names of the class's superclass and mixins. `populateFromVm` fills it from the
classes bound as globals. `isSubtype` is the checker's own walk, by name: a
name without an entry makes the answer unknown (`none`).
-/

namespace Quoin.Classes

open Trans

/-- `ClassInfo`: the links of a class, by name. -/
structure ClassInfo where
  parent : Option NamespacedName
  mixins : List NamespacedName

/-- `ClassSig`: what the table keeps of them. -/
structure ClassSig where
  parent : Option NamespacedName
  mixins : List NamespacedName

abbrev ClassTable := AList fun _ : NamespacedName => ClassSig

/-- `describe_class`. -/
def describeClass (h : Hierarchy) (k : Class) : ClassInfo where
  parent := k.parent.map h.name
  mixins := k.mixinClasses.map h.name

def ClassSig.fromClassInfo (info : ClassInfo) : ClassSig where
  parent := info.parent
  mixins := info.mixins

/-- `populate_from_vm`. -/
def populateFromVm (h : Hierarchy) : ClassTable :=
  h.classes.foldl (fun table k => table.insert k.name (.fromClassInfo (describeClass h k))) ∅

/-- The loop over the mixins, with its `?`: an unknown answer ends it too. -/
def anyMixin (isSubtype : NamespacedName → List NamespacedName →
      Option (Option Bool × List NamespacedName)) :
    List NamespacedName → List NamespacedName → Option (Option Bool × List NamespacedName)
  | [], visited => some (some false, visited)
  | mixin :: mixins, visited =>
    match isSubtype mixin visited with
    | some (some false, visited') => anyMixin isSubtype mixins visited'
    | answer => answer

/-- `is_subtype_rec`. -/
def isSubtypeRec (table : ClassTable) (sup : NamespacedName) :
    Nat → NamespacedName → List NamespacedName → Option (Option Bool × List NamespacedName)
  | 0, _, _ => none
  | fuel + 1, sub, visited =>
    if sub = sup then some (some true, visited) else
    if sub ∈ visited then some (some false, visited) else
    match table.lookup sub with
    | none => some (none, sub :: visited)
    | some sig =>
      match anyMixin (isSubtypeRec table sup fuel) sig.mixins (sub :: visited) with
      | some (some false, visited') =>
        match sig.parent with
        | some parent => isSubtypeRec table sup fuel parent visited'
        | none => some (some false, visited')
      | answer => answer

/-- `ClassTable::is_subtype`. -/
def isSubtype (table : ClassTable) (sub sup : NamespacedName) : Option Bool :=
  if sub = sup then some true else
  (isSubtypeRec table sup (table.entries.length + 1) sub []).bind Prod.fst

/-! ## The table of a hierarchy -/

variable {h : Hierarchy} {c : ClassId}

/-- Entries of other classes do not disturb one. -/
theorem lookup_foldl_insert (sig : Class → ClassSig) (table : ClassTable) {n : NamespacedName}
    {ks : List Class} (hOther : ∀ k ∈ ks, k.name ≠ n) :
    (ks.foldl (fun table k => table.insert k.name (sig k)) table).lookup n = table.lookup n := by
  induction ks generalizing table with
  | nil => rfl
  | cons k ks ih =>
    rw [List.foldl_cons, ih _ fun k' hk' => hOther k' (by simp [hk'])]
    exact AList.lookup_insert_ne (hOther k (by simp)).symm

/-- A class has the entry that describes it. -/
theorem lookup_foldl_insert_self (sig : Class → ClassSig) (table : ClassTable) {k : Class}
    {ks : List Class} (hk : k ∈ ks) (hNames : (ks.map Class.name).Nodup) :
    (ks.foldl (fun table k => table.insert k.name (sig k)) table).lookup k.name =
      some (sig k) := by
  induction ks generalizing table with
  | nil => simp at hk
  | cons k' ks ih =>
    rw [List.map_cons, List.nodup_cons] at hNames
    rcases List.mem_cons.mp hk with rfl | hk
    · rw [List.foldl_cons, lookup_foldl_insert, AList.lookup_insert]
      intro k' hk' hEq
      exact hNames.1 (List.mem_map.mpr ⟨k', hk', hEq⟩)
    · exact ih _ hk hNames.2

theorem lookup_populateFromVm (hc : c < h.classes.length) :
    (populateFromVm h).lookup (h.name c) =
      some ⟨(h.parent c).map h.name, (h.mixinClasses c).map h.name⟩ := by
  have hEntry := lookup_foldl_insert_self (fun k => .fromClassInfo (describeClass h k)) ∅
    (List.getElem_mem hc) h.names
  rw [populateFromVm, Hierarchy.name_eq hc, hEntry]
  simp [Hierarchy.parent, Hierarchy.mixinClasses, List.getElem?_eq_getElem hc,
    ClassSig.fromClassInfo, describeClass]

/-- The table has an entry for each class. -/
theorem length_populateFromVm (h : Hierarchy) :
    h.classes.length ≤ (populateFromVm h).entries.length := by
  have hSub : h.classes.map Class.name ⊆ (populateFromVm h).keys := by
    intro n hn
    obtain ⟨k, hk, rfl⟩ := List.mem_map.mp hn
    have hEntry := lookup_foldl_insert_self (fun k => .fromClassInfo (describeClass h k)) ∅ hk
      h.names
    exact AList.mem_keys.mp (AList.lookup_isSome.mp (by rw [populateFromVm, hEntry]; rfl))
  have hLe := (h.names.subperm hSub).length_le
  simpa [AList.keys, List.keys] using hLe

end Quoin.Classes
