import Mathlib
import Quoin.Trans.Search

/-!
# Quoin — class hierarchies

The classes of a VM with their two kinds of links, superclass and mixins, and
the two places that follow them at run time: `type_distance` (does a value fit a
parameter's type) and the walk that looks a selector up. The first goes up the
superclass chain and looks at the mixins of each class on it, without going on
from a mixin; the walk goes on from every class it gets to.

The classes of a hierarchy are those bound as globals. `DefineClass` takes its
parent from the globals and refuses a name that is taken, so a parent is older
than its subclasses and no two classes have one name. `mix:` may add any class,
so mixins may form cycles.
-/

namespace Quoin.Classes

open Trans

/-- `NamespacedName`: a namespace path and a name in it. -/
structure NamespacedName where
  path : List String
  name : String
  deriving DecidableEq

def objectName : NamespacedName := ⟨[], "Object"⟩

/-- A class is known by its position in the order in which the classes were created. -/
abbrev ClassId := Nat

/-- `Class`: its name and its links. -/
structure Class where
  name : NamespacedName
  parent : Option ClassId
  mixinClasses : List ClassId

/-- The classes that are bound as globals. -/
structure Hierarchy where
  classes : List Class
  parent_lt : ∀ c (h : c < classes.length), ∀ p ∈ classes[c].parent, p < c
  mixin_lt : ∀ k ∈ classes, ∀ m ∈ k.mixinClasses, m < classes.length
  rooted : ∀ k ∈ classes, k.parent = none → k.name = objectName
  names : (classes.map Class.name).Nodup

namespace Hierarchy

variable (h : Hierarchy)

def parent (c : ClassId) : Option ClassId := h.classes[c]?.bind Class.parent

def mixinClasses (c : ClassId) : List ClassId := (h.classes[c]?.map Class.mixinClasses).getD []

/-- The name of a class. -/
def name (c : ClassId) : NamespacedName := (h.classes[c]?.map Class.name).getD objectName

/-- The class bound to a name. -/
def globals (n : NamespacedName) : Option ClassId :=
  h.classes.findIdx? fun k => k.name = n

/-- The classes a class links to, in the order in which they are walked. -/
def links (c : ClassId) : List ClassId := h.mixinClasses c ++ (h.parent c).toList

/-- The class itself or one of its superclasses. -/
abbrev Inherits : ClassId → ClassId → Prop :=
  Relation.ReflTransGen fun a b => h.parent a = some b

end Hierarchy

/-! ## Values and type hints -/

/-- A value that is an instance of a class, as `type_distance` sees it: the class it is
looked up in, and its `type_name`, which is the built-in type's name or "Object". -/
structure Instance (h : Hierarchy) where
  cls : ClassId
  typeName : NamespacedName
  isNil : Bool
  cls_lt : cls < h.classes.length
  typeName_eq : typeName = objectName ∨ ∃ s, h.Inherits cls s ∧ h.name s = typeName

/-- A parameter's type: a class name, or a nullable type (`String?`). -/
inductive Hint where
  | base (name : NamespacedName)
  | nullable (base : Hint)

/-- The distance at which "Object" matches a value that does not get to it. -/
def OBJECT_UNIVERSAL_DISTANCE : Nat := 1000000

/-- The walk of `type_distance` from `curr`, `dist` links up; a class on the superclass chain
matches where it is, a mixin of it one further. -/
def chainDistance (h : Hierarchy) (isTarget : ClassId → Bool) :
    Nat → Option ClassId → Nat → Option Nat
  | 0, _, _ => none
  | _ + 1, none, _ => none
  | fuel + 1, some clz, dist =>
    if isTarget clz then some dist else
    if (h.mixinClasses clz).any isTarget then some (dist + 1) else
    chainDistance h isTarget fuel (h.parent clz) (dist + 1)

/-- `type_distance`. -/
def typeDistance (h : Hierarchy) (val : Instance h) : Hint → Option Nat
  | .nullable base => if val.isNil then some 0 else typeDistance h val base
  | .base hint =>
    if val.typeName = hint ∧ hint ≠ objectName then some 0 else
    let isTarget : ClassId → Bool :=
      match h.globals hint with
      -- by identity where the hint is a known global, else by name
      | some t => fun clz => clz == t
      | none => fun clz => h.name clz == hint
    match chainDistance h isTarget (h.classes.length + 1) (some val.cls) 0 with
    | some dist => some dist
    | none => if hint = objectName then some OBJECT_UNIVERSAL_DISTANCE else none

/-! ## The method lookup -/

section Lookup

variable {E M : Type}

/-- The loop over a class's mixins: the first that resolves the send ends it. -/
def lookupMixins (lookup : ClassId → List ClassId → Option (Except E (Option M) × List ClassId)) :
    List ClassId → List ClassId → Option (Except E (Option M) × List ClassId)
  | [], visited => some (.ok none, visited)
  | mixin :: mixins, visited =>
    match lookup mixin visited with
    | some (.ok none, visited') => lookupMixins lookup mixins visited'
    | answer => answer

/-- `lookup_method_in_class_hierarchy_rec` with `resolve_in_class`: the class's own candidates
for the send (`own`; scoring them can raise), then its mixins, then its parent. -/
def lookupRec (h : Hierarchy) (own : ClassId → Except E (Option M)) :
    Nat → ClassId → List ClassId → Option (Except E (Option M) × List ClassId)
  | 0, _, _ => none
  | fuel + 1, classRef, visited =>
    if classRef ∈ visited then some (.ok none, visited) else
    match own classRef with
    | .error e => some (.error e, classRef :: visited)
    | .ok (some m) => some (.ok (some m), classRef :: visited)
    | .ok none =>
      match lookupMixins (lookupRec h own fuel) (h.mixinClasses classRef)
        (classRef :: visited) with
      | some (.ok none, visited') =>
        match h.parent classRef with
        | some p => lookupRec h own fuel p visited'
        | none => some (.ok none, visited')
      | answer => answer

/-- The lookup of a send from a class, with the classes it visited. -/
def lookupMethod (h : Hierarchy) (own : ClassId → Except E (Option M)) (c : ClassId) :
    Option (Except E (Option M) × List ClassId) :=
  lookupRec h own (h.classes.length + 1) c []

end Lookup

/-- The walk from `c` gets to `t`: it visits it unless a class before it resolves the send,
so for a selector that no class resolves. -/
def walkVisits (h : Hierarchy) (c t : ClassId) : Prop :=
  ∃ visited, lookupMethod (E := Unit) (M := Unit) h (fun _ => .ok none) c =
    some (.ok none, visited) ∧ t ∈ visited

/-! ## Links -/

namespace Hierarchy

variable {h : Hierarchy} {a b c m p s t : ClassId}

theorem parent_lt_of (hParent : h.parent c = some p) : p < c := by
  obtain ⟨k, hk, hp⟩ := Option.bind_eq_some_iff.mp hParent
  obtain ⟨hc, rfl⟩ := List.getElem?_eq_some_iff.mp hk
  exact h.parent_lt c hc p hp

theorem lt_of_parent (hParent : h.parent c = some p) : c < h.classes.length := by
  obtain ⟨k, hk, -⟩ := Option.bind_eq_some_iff.mp hParent
  exact (List.getElem?_eq_some_iff.mp hk).1

theorem mixin_lt_of (hMixin : m ∈ h.mixinClasses c) : m < h.classes.length := by
  unfold mixinClasses at hMixin
  cases hk : h.classes[c]? with
  | none => simp [hk] at hMixin
  | some k =>
    rw [hk] at hMixin
    exact h.mixin_lt k (List.mem_of_getElem? hk) m hMixin

theorem mem_links : b ∈ h.links a ↔ b ∈ h.mixinClasses a ∨ h.parent a = some b := by
  simp [links, eq_comm]

theorem link_lt (hLink : b ∈ h.links a) : b < h.classes.length := by
  rcases mem_links.mp hLink with hMixin | hParent
  · exact mixin_lt_of hMixin
  · exact (parent_lt_of hParent).trans (lt_of_parent hParent)

theorem Inherits.reaches (hInherits : h.Inherits a b) : Reaches h.links a b :=
  hInherits.lift id fun _ _ hParent => mem_links.mpr (.inr hParent)

theorem reaches_lt (ha : a < h.classes.length) (hReach : Reaches h.links a b) :
    b < h.classes.length := by
  cases hReach with
  | refl => exact ha
  | tail _ hLink => exact link_lt hLink

theorem name_eq (hc : c < h.classes.length) : h.name c = h.classes[c].name := by
  simp [name, List.getElem?_eq_getElem hc]

/-- A name is that of one class. -/
theorem name_inj (ha : a < h.classes.length) (hb : b < h.classes.length) :
    h.name a = h.name b ↔ a = b := by
  have ha' : a < (h.classes.map Class.name).length := by simpa using ha
  have hb' : b < (h.classes.map Class.name).length := by simpa using hb
  rw [name_eq ha, name_eq hb]
  simpa using @List.Nodup.getElem_inj_iff _ _ h.names a ha' b hb'

theorem globals_name (ha : a < h.classes.length) : h.globals (h.name a) = some a := by
  refine List.findIdx?_eq_some_iff_getElem.mpr ⟨ha, ?_, fun j hj => ?_⟩
  · simp [name_eq ha]
  · have hIn : j < h.classes.length := hj.trans ha
    have hne : h.name j ≠ h.name a := fun hEq => hj.ne ((name_inj hIn ha).mp hEq)
    simpa [name_eq hIn] using hne

/-- Every class inherits from "Object". -/
theorem inherits_object (hc : c < h.classes.length) :
    ∃ o, h.Inherits c o ∧ h.name o = objectName := by
  induction c using Nat.strong_induction_on with
  | _ c ih =>
    cases hParent : h.parent c with
    | none =>
      have hNone : h.classes[c].parent = none := by
        simpa [parent, List.getElem?_eq_getElem hc] using hParent
      refine ⟨c, .refl, ?_⟩
      rw [name_eq hc]
      exact h.rooted _ (List.getElem_mem hc) hNone
    | some p =>
      have hLess := parent_lt_of hParent
      obtain ⟨o, hInherits, hObject⟩ := ih p hLess (hLess.trans hc)
      exact ⟨o, .head hParent hInherits, hObject⟩

end Hierarchy

end Quoin.Classes
