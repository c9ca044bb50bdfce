import Mathlib
import Quoin.Classes.Subtyping
import Quoin.Trans.Run

/-!
# Quoin — what the checker takes a class to respond to

The checker keeps a signature for each class name: those of the classes that
were there when the table was filled (`populateFromVm`, an entry made once and
renewed only when the class is sealed), and those of the definitions in the
units it compiles. `respondsTo` walks the signatures as the method lookup walks
the classes. The classes go on changing: units run, reopen classes, mix into
them. So the table may know less of a class than the class has, and then "does
not respond" may be wrong (`respondsTo_stale`).

It is right as long as the entry of each class shows what the class has
(`respondsTo_sound`): no method or mixin comes to a class whose entry does not
list it, and no entry is made that misses something of a class of that name.

## Results

* `respondsTo_sound` — in sessions whose entries keep up with their classes, "does not respond" is
  right in every state;
* `respondsTo_stale` — a class that is reopened after its entry was made has a method the table does
  not know.
-/

namespace Quoin.Classes.Responds

open Trans

abbrev Selector := String

/-! ## The classes of a VM -/

/-- `Class` with its method tables, a chain of variants for each selector. -/
structure RtClass (M : Type) extends Class where
  instanceMethods : AList fun _ : Selector => List M
  classMethods : AList fun _ : Selector => List M
  isSealed : Bool

namespace RtClass

variable {M : Type}

def links (k : RtClass M) : List ClassId := k.mixinClasses ++ k.parent.toList

/-- The table of one side. -/
def methods (k : RtClass M) (classSide : Bool) : AList fun _ : Selector => List M :=
  if classSide then k.classMethods else k.instanceMethods

def chain (k : RtClass M) (classSide : Bool) (selector : Selector) : List M :=
  ((k.methods classSide).lookup selector).getD []

/-- The selectors of both sides. -/
def selectors (k : RtClass M) : List Selector := k.instanceMethods.keys ++ k.classMethods.keys

/-- `DefineMethod`, on one side: a variant more on the selector's chain, or one in the place of
another. -/
def define (k : RtClass M) (classSide : Bool) (selector : Selector) (replaces : Option Nat)
    (method : M) : RtClass M :=
  let chain : List M :=
    match replaces with
    | some i => (k.chain classSide selector).set i method
    | none => k.chain classSide selector ++ [method]
  if classSide then { k with classMethods := k.classMethods.insert selector chain }
  else { k with instanceMethods := k.instanceMethods.insert selector chain }

def mix (k : RtClass M) (m : ClassId) : RtClass M :=
  { k with mixinClasses := k.mixinClasses ++ [m] }

end RtClass

/-- Every class there is, in the order of creation, and the names that are bound to classes. -/
structure Vm (M : Type) where
  classes : List (RtClass M)
  globals : AList fun _ : NamespacedName => ClassId
  linked : ∀ k ∈ classes, ∀ l ∈ k.links, l < classes.length

namespace Vm

variable {M : Type} (vm : Vm M)

def mixinClasses (c : ClassId) : List ClassId :=
  (vm.classes[c]?.map fun k => k.mixinClasses).getD []

def parent (c : ClassId) : Option ClassId := vm.classes[c]?.bind fun k => k.parent

def links (c : ClassId) : List ClassId := vm.mixinClasses c ++ (vm.parent c).toList

def name (c : ClassId) : NamespacedName := (vm.classes[c]?.map fun k => k.name).getD objectName

def chain (c : ClassId) (classSide : Bool) (selector : Selector) : List M :=
  (vm.classes[c]?.map fun k => k.chain classSide selector).getD []

/-- One class more. -/
def push (k : RtClass M) : Option (Vm M) :=
  if h : ∀ l ∈ k.links, l < vm.classes.length then
    some {
      classes := vm.classes ++ [k]
      globals := vm.globals
      linked := by
        intro k' hk' l hl
        rw [List.length_append]
        rcases List.mem_append.mp hk' with hOld | hNew
        · exact Nat.lt_add_right 1 (vm.linked k' hOld l hl)
        · obtain rfl := List.mem_singleton.mp hNew
          exact Nat.lt_add_right 1 (h l hl) }
  else none

/-- A class changed. -/
def set (c : ClassId) (k : RtClass M) : Option (Vm M) :=
  if h : ∀ l ∈ k.links, l < vm.classes.length then
    some {
      classes := vm.classes.set c k
      globals := vm.globals
      linked := by
        intro k' hk' l hl
        rw [List.length_set]
        rcases List.mem_or_eq_of_mem_set hk' with hOld | rfl
        · exact vm.linked k' hOld l hl
        · exact h l hl }
  else none

/-- The parent that `DefineClass` gives a class: the one it names, else "Object". A missing or a
sealed one is an error. -/
def parentFor (name : NamespacedName) : Option NamespacedName → Option (Option ClassId)
  | some parentName => do
    let p ← vm.globals.lookup parentName
    let k ← vm.classes[p]?
    if k.isSealed then none else some (some p)
  | none => if name = objectName then some none else some (vm.globals.lookup objectName)

end Vm

section Lookup

variable {E M : Type}

/-- `lookup_method_in_class_hierarchy_rec`: the class's own candidates, where it has any, then its
mixins, then its parent. `select` is what scoring the candidates on the arguments gives. -/
def lookupRec (vm : Vm M) (select : ClassId → List M → Except E (Option M)) (classSide : Bool)
    (selector : Selector) : Nat → ClassId → List ClassId →
      Option (Except E (Option M) × List ClassId)
  | 0, _, _ => none
  | fuel + 1, classRef, visited =>
    if classRef ∈ visited then some (.ok none, visited) else
    let own : Except E (Option M) :=
      if vm.chain classRef classSide selector = [] then .ok none
      else select classRef (vm.chain classRef classSide selector)
    match own with
    | .error e => some (.error e, classRef :: visited)
    | .ok (some m) => some (.ok (some m), classRef :: visited)
    | .ok none =>
      match lookupMixins (lookupRec vm select classSide selector fuel) (vm.mixinClasses classRef)
        (classRef :: visited) with
      | some (.ok none, visited') =>
        match vm.parent classRef with
        | some p => lookupRec vm select classSide selector fuel p visited'
        | none => some (.ok none, visited')
      | answer => answer

/-- `lookup_method_in_class_hierarchy`. -/
def lookup (vm : Vm M) (select : ClassId → List M → Except E (Option M)) (classSide : Bool)
    (selector : Selector) (c : ClassId) : Option (Except E (Option M) × List ClassId) :=
  lookupRec vm select classSide selector (vm.classes.length + 1) c []

end Lookup

/-! ## The checker's table -/

/-- `ClassSig`, as `responds_to` reads it. -/
structure Signature extends ClassSig where
  ownSelectors : List Selector
  isSealed : Bool
  hasCatchAll : Bool
  fromVm : Bool

abbrev Table := AList fun _ : NamespacedName => Signature

/-- The names that a name's entry links to. -/
def Table.links (table : Table) (n : NamespacedName) : List NamespacedName :=
  match table.lookup n with
  | none => []
  | some sig => sig.mixins ++ sig.parent.toList

/-- Every name in the table, as a key or as a link. -/
def Table.names (table : Table) : List NamespacedName :=
  table.keys ++ table.keys.flatMap table.links

/-- `responds_rec`. -/
def respondsRec (table : Table) (selector : Selector) :
    Nat → NamespacedName → List NamespacedName → Option (Option Bool × List NamespacedName)
  | 0, _, _ => none
  | fuel + 1, className, visited =>
    if className ∈ visited then some (some false, visited) else
    match table.lookup className with
    | none => some (none, className :: visited)
    | some sig =>
      if sig.hasCatchAll then some (none, className :: visited) else
      if selector ∈ sig.ownSelectors then some (some true, className :: visited) else
      match anyMixin (respondsRec table selector fuel) sig.mixins (className :: visited) with
      | some (some false, visited') =>
        match sig.parent with
        | some parent => respondsRec table selector fuel parent visited'
        | none => some (some false, visited')
      | answer => answer

/-- `ClassTable::responds_to`. -/
def respondsTo (table : Table) (className : NamespacedName) (selector : Selector) :
    Option Bool :=
  (respondsRec table selector (table.names.length + 2) className []).bind Prod.fst

/-- `ClassSig::from_class_info` of `describe_class`. -/
def describe {M : Type} (vm : Vm M) (k : RtClass M) : Signature where
  parent := k.parent.map vm.name
  mixins := k.mixinClasses.map vm.name
  ownSelectors := k.selectors
  isSealed := k.isSealed
  hasCatchAll := false
  fromVm := true

/-- One class of `populate_from_vm`: an entry made from the VM is kept, unless the class has been
sealed since. -/
def populateEntry {M : Type} (vm : Vm M) (table : Table) (n : NamespacedName) (c : ClassId) :
    Table :=
  match vm.classes[c]? with
  | none => table
  | some k =>
    match table.lookup n with
    | none => table.insert n (describe vm k)
    | some sig =>
      if sig.fromVm ∧ (sig.isSealed ∨ ¬ k.isSealed) then table
      else table.insert n (describe vm k)

/-- `populate_from_vm`. -/
def populateFromVm {M : Type} (vm : Vm M) (table : Table) : Table :=
  vm.globals.entries.foldl (fun table g => populateEntry vm table g.1 g.2) table

/-- The entry that `add_returns`, `add_params` and `add_mixins` make for a name without one. -/
def bareSig : Signature where
  parent := none
  mixins := []
  ownSelectors := []
  isSealed := false
  hasCatchAll := false
  fromVm := false

/-- `add_returns` and `add_params`, as far as `responds_to` reads the entry. -/
def addContracts (table : Table) (n : NamespacedName) : Table :=
  match table.lookup n with
  | none => table.insert n bareSig
  | some _ => table

/-- `add_mixins`. -/
def addMixins (table : Table) (n : NamespacedName) (mixins : List NamespacedName) : Table :=
  if mixins = [] then table else
  let sig := (table.lookup n).getD bareSig
  table.insert n
    { sig with mixins := mixins.foldl (fun ms m => if m ∈ ms then ms else ms ++ [m]) sig.mixins }

/-- `class_sig_from_def`: the methods, mixins and marker written in the body of a definition, and
the parent it names. -/
def sigFromDef (parent : Option NamespacedName) (mixins : List NamespacedName)
    (ownSelectors : List Selector) (isSealed : Bool) : Signature where
  parent := parent
  mixins := mixins
  ownSelectors := ownSelectors
  isSealed := isSealed
  hasCatchAll := false
  fromVm := false

/-! ## Compiling and running -/

structure State (M : Type) where
  vm : Vm M
  table : Table

/-- What changes the table, as units are compiled, and the classes, as they run. -/
inductive Action (M : Type) where
  | populate
  | insertDef (name : NamespacedName) (parent : Option NamespacedName)
      (mixins : List NamespacedName) (ownSelectors : List Selector) (isSealed : Bool)
  | addContracts (name : NamespacedName)
  | addMixins (name : NamespacedName) (mixins : List NamespacedName)
  | defineClass (name : NamespacedName) (parentName : Option NamespacedName)
  | register (k : RtClass M) (isGlobal : Bool)
  | redefine (c : ClassId) (parent : Option ClassId)
      (instanceMethods classMethods : AList fun _ : Selector => List M)
  | defineMethod (c : ClassId) (classSide : Bool) (selector : Selector) (replaces : Option Nat)
      (method : M)
  | mix (c m : ClassId)
  | sealClass (c : ClassId)
  | bindGlobal (name : NamespacedName) (c : ClassId)
  | unregister (name : NamespacedName)

section Step

variable {M : Type}

/-- A class that is not sealed, changed. -/
def Vm.extend (vm : Vm M) (c : ClassId) (change : RtClass M → RtClass M) : Option (Vm M) := do
  let k ← vm.classes[c]?
  if k.isSealed then none else vm.set c (change k)

/-- A class more, bound under its name if it is a global. -/
def Vm.create (vm : Vm M) (k : RtClass M) (isGlobal : Bool) : Option (Vm M) := do
  let vm' ← vm.push k
  if isGlobal then some { vm' with globals := vm'.globals.insert k.name vm.classes.length }
  else some vm'

def step (s : State M) : Action M → Option (State M)
  | .populate => some { s with table := populateFromVm s.vm s.table }
  | .insertDef name parent mixins ownSelectors isSealed =>
    some { s with table := s.table.insert name (sigFromDef parent mixins ownSelectors isSealed) }
  | .addContracts name => some { s with table := addContracts s.table name }
  | .addMixins name mixins => some { s with table := addMixins s.table name mixins }
  | .defineClass name parentName => do
    let parent ← s.vm.parentFor name parentName
    -- "Cannot redefine class"
    if (s.vm.globals.lookup name).isSome then none
    else
      let vm ← s.vm.create ⟨⟨name, parent, []⟩, ∅, ∅, false⟩ true
      some { s with vm }
  | .register k isGlobal => do
    let vm ← s.vm.create k isGlobal
    some { s with vm }
  | .redefine c parent instanceMethods classMethods => do
    let k ← s.vm.classes[c]?
    let vm ← s.vm.set c { k with parent, instanceMethods, classMethods }
    some { s with vm }
  | .defineMethod c classSide selector replaces method => do
    let vm ← s.vm.extend c fun k => k.define classSide selector replaces method
    some { s with vm }
  | .mix c m => do
    let vm ← s.vm.extend c fun k => k.mix m
    some { s with vm }
  | .sealClass c => do
    let k ← s.vm.classes[c]?
    let vm ← s.vm.set c { k with isSealed := true }
    some { s with vm }
  | .bindGlobal name c =>
    some { s with vm := { s.vm with globals := s.vm.globals.insert name c } }
  | .unregister name =>
    some { s with vm := { s.vm with globals := s.vm.globals.erase name } }

end Step

/-! ## Entries that show what a class has -/

section Shown

variable {M : Type}

/-- The entry lists all of the class's selectors and mixins and names its parent. -/
def Shows (vm : Vm M) (sig : Signature) (k : RtClass M) : Prop :=
  sig.hasCatchAll ∨
    (∀ selector ∈ k.selectors, selector ∈ sig.ownSelectors) ∧
    (∀ m ∈ k.mixinClasses, vm.name m ∈ sig.mixins) ∧
    ∀ p ∈ k.parent, sig.parent = some (vm.name p)

/-- The entry of each class shows it. -/
def AllShown (s : State M) : Prop :=
  ∀ k ∈ s.vm.classes, ∀ sig ∈ s.table.lookup k.name, Shows s.vm sig k

/-- Nothing goes by the table: what comes to a class is in its entry already, and an entry that is
made misses nothing of a class of that name. -/
def Ok (s : State M) : Action M → Prop
  | .populate => ∀ g ∈ s.vm.globals.entries, ∀ c < s.vm.classes.length, s.vm.name c = g.1 → c = g.2
  | .insertDef name parent mixins ownSelectors isSealed =>
    ∀ k ∈ s.vm.classes, k.name = name →
      Shows s.vm (sigFromDef parent mixins ownSelectors isSealed) k
  | .addContracts name =>
    s.table.lookup name = none → ∀ k ∈ s.vm.classes, k.name = name → Shows s.vm bareSig k
  | .addMixins name mixins =>
    s.table.lookup name = none → ∀ k ∈ s.vm.classes, k.name = name →
      Shows s.vm { bareSig with mixins := mixins } k
  | .defineClass name parentName =>
    ∀ sig ∈ s.table.lookup name, sig.hasCatchAll ∨
      ∀ parent ∈ s.vm.parentFor name parentName, ∀ p ∈ parent, sig.parent = some (s.vm.name p)
  | .register k _ => ∀ sig ∈ s.table.lookup k.name, Shows s.vm sig k
  | .redefine c parent instanceMethods classMethods =>
    ∀ k ∈ s.vm.classes[c]?, ∀ sig ∈ s.table.lookup k.name,
      Shows s.vm sig { k with parent, instanceMethods, classMethods }
  | .defineMethod c _ selector _ _ =>
    ∀ k ∈ s.vm.classes[c]?, ∀ sig ∈ s.table.lookup k.name,
      sig.hasCatchAll ∨ selector ∈ sig.ownSelectors
  | .mix c m =>
    ∀ k ∈ s.vm.classes[c]?, ∀ sig ∈ s.table.lookup k.name,
      sig.hasCatchAll ∨ s.vm.name m ∈ sig.mixins
  | .sealClass _ | .bindGlobal _ _ | .unregister _ => True

instance (vm : Vm M) (sig : Signature) (k : RtClass M) : Decidable (Shows vm sig k) := by
  unfold Shows
  infer_instance

instance (s : State M) (a : Action M) : Decidable (Ok s a) := by
  cases a <;> unfold Ok <;> infer_instance

variable {vm vm' : Vm M} {k k' : RtClass M} {sig : Signature} {c d : ClassId} {s s' : State M}

theorem push_eq (h : vm.push k = some vm') :
    (∀ l ∈ k.links, l < vm.classes.length) ∧ vm'.classes = vm.classes ++ [k] := by
  unfold Vm.push at h
  split_ifs at h with hLinks
  obtain rfl := Option.some.inj h
  exact ⟨hLinks, rfl⟩

theorem set_eq (h : vm.set c k' = some vm') : vm'.classes = vm.classes.set c k' := by
  unfold Vm.set at h
  split_ifs at h
  obtain rfl := Option.some.inj h
  rfl

theorem name_push (h : vm.push k = some vm') (hd : d < vm.classes.length) :
    vm'.name d = vm.name d := by
  rw [Vm.name, Vm.name, (push_eq h).2, List.getElem?_append_left hd]

/-- A class keeps its name. -/
theorem name_set (h : vm.set c k' = some vm') (hName : ∀ k ∈ vm.classes[c]?, k'.name = k.name) :
    vm'.name d = vm.name d := by
  rw [Vm.name, Vm.name, set_eq h, List.getElem?_set]
  split_ifs with hEq hLt
  · subst hEq
    rw [List.getElem?_eq_getElem hLt]
    exact hName _ (List.getElem?_eq_getElem hLt)
  · rw [List.getElem?_eq_none (by omega)]
  · rfl

theorem Shows.congr (h : Shows vm sig k) (hNames : ∀ l ∈ k.links, vm'.name l = vm.name l) :
    Shows vm' sig k := by
  refine h.imp_right fun ⟨hOwn, hMixins, hParent⟩ => ⟨hOwn, fun m hm => ?_, fun p hp => ?_⟩
  · rw [hNames m (List.mem_append_left _ hm)]
    exact hMixins m hm
  · rw [hNames p (List.mem_append_right _ (Option.mem_toList.mpr hp))]
    exact hParent p hp

/-- A class more, that its entry shows. -/
theorem allShown_push (hAll : AllShown s) (h : s.vm.push k = some vm')
    (hk : ∀ sig ∈ s.table.lookup k.name, Shows s.vm sig k) : AllShown { s with vm := vm' } := by
  obtain ⟨hLinks, hClasses⟩ := push_eq h
  intro k' hk' sig hSig
  have hIn : k' ∈ s.vm.classes ++ [k] := hClasses ▸ hk'
  rcases List.mem_append.mp hIn with hOld | hNew
  · exact (hAll k' hOld sig hSig).congr fun l hl => name_push h (s.vm.linked k' hOld l hl)
  · obtain rfl := List.mem_singleton.mp hNew
    exact (hk sig hSig).congr fun l hl => name_push h (hLinks l hl)

/-- A class changed into one that its entry shows. -/
theorem allShown_set (hAll : AllShown s) (h : s.vm.set c k' = some vm')
    (hName : ∀ k ∈ s.vm.classes[c]?, k'.name = k.name)
    (hk : ∀ sig ∈ s.table.lookup k'.name, Shows s.vm sig k') : AllShown { s with vm := vm' } := by
  intro k hk' sig hSig
  have hIn : k ∈ s.vm.classes.set c k' := set_eq h ▸ hk'
  rcases List.mem_or_eq_of_mem_set hIn with hOld | rfl
  · exact (hAll k hOld sig hSig).congr fun l _ => name_set h hName
  · exact (hk sig hSig).congr fun l _ => name_set h hName

theorem allShown_create {isGlobal : Bool} (hAll : AllShown s)
    (h : s.vm.create k isGlobal = some vm')
    (hk : ∀ sig ∈ s.table.lookup k.name, Shows s.vm sig k) : AllShown { s with vm := vm' } := by
  obtain ⟨vm₁, hPush, hBind⟩ := Option.bind_eq_some_iff.mp h
  have hShown := allShown_push hAll hPush hk
  -- binding a name changes no class
  split_ifs at hBind
  · obtain rfl := Option.some.inj hBind
    exact hShown
  · obtain rfl := Option.some.inj hBind
    exact hShown

/-- An entry made for a name, that shows the classes of that name. -/
theorem allShown_insert {n : NamespacedName} (hAll : AllShown s)
    (hSig : ∀ k ∈ s.vm.classes, k.name = n → Shows s.vm sig k) :
    AllShown { s with table := s.table.insert n sig } := by
  intro k hk sig' hSig'
  by_cases hName : k.name = n
  · rw [hName, AList.lookup_insert] at hSig'
    obtain rfl := Option.some.inj hSig'
    exact hSig k hk hName
  · rw [AList.lookup_insert_ne hName] at hSig'
    exact hAll k hk sig' hSig'

theorem shows_describe (vm : Vm M) (k : RtClass M) : Shows vm (describe vm k) k := by
  refine .inr ⟨fun _ h => h, fun m hm => List.mem_map_of_mem hm, fun p hp => ?_⟩
  rw [describe, Option.mem_def.mp hp]
  rfl

/-- A class's description shows every class of its name where there is only that one. -/
theorem allShown_populateEntry {n : NamespacedName} {c : ClassId} (hAll : AllShown s)
    (hOne : ∀ d < s.vm.classes.length, s.vm.name d = n → d = c) :
    AllShown { s with table := populateEntry s.vm s.table n c } := by
  unfold populateEntry
  cases hClass : s.vm.classes[c]? with
  | none => exact hAll
  | some k =>
    have hMade : AllShown { s with table := s.table.insert n (describe s.vm k) } := by
      refine allShown_insert hAll fun k' hk' hName => ?_
      obtain ⟨d, hd, rfl⟩ := List.getElem_of_mem hk'
      have hdName : s.vm.name d = n := by
        rw [Vm.name, List.getElem?_eq_getElem hd]
        exact hName
      obtain rfl := hOne d hd hdName
      rw [List.getElem?_eq_getElem hd] at hClass
      rw [Option.some.inj hClass]
      exact shows_describe s.vm k
    cases hEntry : s.table.lookup n with
    | none => exact hMade
    | some sig =>
      dsimp only
      split_ifs
      · exact hAll
      · exact hMade

theorem allShown_populate (hAll : AllShown s) (hOk : Ok s .populate) :
    AllShown { s with table := populateFromVm s.vm s.table } := by
  have hFold : ∀ (gs : List (Sigma fun _ : NamespacedName => ClassId)) (table : Table),
      (∀ g ∈ gs, ∀ c < s.vm.classes.length, s.vm.name c = g.1 → c = g.2) →
        AllShown ⟨s.vm, table⟩ →
          AllShown ⟨s.vm, gs.foldl (fun table g => populateEntry s.vm table g.1 g.2) table⟩ := by
    intro gs
    induction gs with
    | nil => exact fun _ _ hShown => hShown
    | cons g gs ih =>
      intro table hOne hShown
      refine ih _ (fun g' hg' => hOne g' (List.mem_cons_of_mem g hg')) ?_
      exact allShown_populateEntry (s := ⟨s.vm, table⟩) hShown (hOne g List.mem_cons_self)
  exact hFold _ _ hOk hAll

theorem mem_mixins_foldl {m : NamespacedName} (mixins ms : List NamespacedName) :
    m ∈ mixins.foldl (fun ms m => if m ∈ ms then ms else ms ++ [m]) ms ↔ m ∈ ms ∨ m ∈ mixins := by
  induction mixins generalizing ms with
  | nil => simp
  | cons m' mixins ih =>
    rw [List.foldl_cons, ih]
    split_ifs with hIn
    · constructor
      · rintro (h | h)
        · exact .inl h
        · exact .inr (List.mem_cons_of_mem m' h)
      · rintro (h | h)
        · exact .inl h
        · rcases List.mem_cons.mp h with rfl | h
          · exact .inl hIn
          · exact .inr h
    · simp [or_assoc]

/-- What is defined on a side is one of the selectors, the others were there. -/
theorem selectors_define {classSide : Bool} {selector sel : Selector} {replaces : Option Nat}
    {method : M} (h : sel ∈ (k.define classSide selector replaces method).selectors) :
    sel = selector ∨ sel ∈ k.selectors := by
  unfold RtClass.define RtClass.selectors at h
  cases classSide with
  | true =>
    rcases List.mem_append.mp h with hInst | hClass
    · exact .inr (List.mem_append_left _ hInst)
    · rcases AList.mem_insert _ |>.mp (AList.mem_keys.mpr hClass) with rfl | hClass
      · exact .inl rfl
      · exact .inr (List.mem_append_right _ (AList.mem_keys.mp hClass))
  | false =>
    rcases List.mem_append.mp h with hInst | hClass
    · rcases AList.mem_insert _ |>.mp (AList.mem_keys.mpr hInst) with rfl | hInst
      · exact .inl rfl
      · exact .inr (List.mem_append_left _ (AList.mem_keys.mp hInst))
    · exact .inr (List.mem_append_right _ hClass)

theorem define_links {classSide : Bool} {selector : Selector} {replaces : Option Nat} {method : M} :
    (k.define classSide selector replaces method).mixinClasses = k.mixinClasses ∧
      (k.define classSide selector replaces method).parent = k.parent ∧
      (k.define classSide selector replaces method).name = k.name := by
  cases classSide <;> exact ⟨rfl, rfl, rfl⟩

/-- What a step that the table shows leaves shown. -/
theorem allShown_step {a : Action M} (hAll : AllShown s) (hOk : Ok s a)
    (hStep : step s a = some s') : AllShown s' := by
  cases a with
  | populate =>
    obtain rfl := Option.some.inj hStep
    exact allShown_populate hAll hOk
  | insertDef name parent mixins ownSelectors isSealed =>
    obtain rfl := Option.some.inj hStep
    exact allShown_insert hAll hOk
  | addContracts name =>
    obtain rfl := Option.some.inj hStep
    unfold addContracts
    cases hEntry : s.table.lookup name with
    | none => exact allShown_insert hAll (hOk hEntry)
    | some sig => exact hAll
  | addMixins name mixins =>
    obtain rfl := Option.some.inj hStep
    unfold addMixins
    split_ifs
    · exact hAll
    refine allShown_insert hAll fun k hk hName => ?_
    cases hEntry : s.table.lookup name with
    | none =>
      -- a bare entry, with these mixins only
      refine (hOk hEntry k hk hName).imp_right fun ⟨hOwn, hMixins, hParent⟩ => ⟨hOwn, ?_, hParent⟩
      exact fun m hm => (mem_mixins_foldl mixins _).mpr (.inr (hMixins m hm))
    | some sig =>
      refine (hAll k hk sig (hName ▸ hEntry)).imp_right fun ⟨hOwn, hMixins, hParent⟩ =>
        ⟨hOwn, ?_, hParent⟩
      exact fun m hm => (mem_mixins_foldl mixins _).mpr (.inl (hMixins m hm))
  | defineClass name parentName =>
    obtain ⟨parent, hParent, hRest⟩ := Option.bind_eq_some_iff.mp hStep
    split_ifs at hRest with hTaken
    obtain ⟨vm', hCreate, hState⟩ := Option.bind_eq_some_iff.mp hRest
    obtain rfl := Option.some.inj hState
    refine allShown_create hAll hCreate fun sig hSig => ?_
    refine (hOk sig hSig).imp_right fun hNames => ⟨?_, ?_, ?_⟩
    · exact fun sel hsel => absurd hsel List.not_mem_nil
    · exact fun m hm => absurd hm List.not_mem_nil
    · exact fun p hp => hNames parent hParent p hp
  | register k isGlobal =>
    obtain ⟨vm', hCreate, hState⟩ := Option.bind_eq_some_iff.mp hStep
    obtain rfl := Option.some.inj hState
    exact allShown_create hAll hCreate hOk
  | redefine c parent instanceMethods classMethods =>
    obtain ⟨k, hk, hRest⟩ := Option.bind_eq_some_iff.mp hStep
    obtain ⟨vm', hSet, hState⟩ := Option.bind_eq_some_iff.mp hRest
    obtain rfl := Option.some.inj hState
    refine allShown_set hAll hSet (fun k' hk' => ?_) (hOk k hk)
    obtain rfl := Option.some.inj (hk.symm.trans hk')
    rfl
  | defineMethod c classSide selector replaces method =>
    obtain ⟨vm', hExtend, hState⟩ := Option.bind_eq_some_iff.mp hStep
    obtain rfl := Option.some.inj hState
    obtain ⟨k, hk, hSet⟩ := Option.bind_eq_some_iff.mp hExtend
    split_ifs at hSet
    obtain ⟨hMixinsEq, hParentEq, hNameEq⟩ :=
      @define_links M k classSide selector replaces method
    refine allShown_set hAll hSet (fun k' hk' => ?_) fun sig hSig => ?_
    · obtain rfl := Option.some.inj (hk.symm.trans hk')
      exact hNameEq
    rw [hNameEq] at hSig
    -- the entry showed the class, and it lists the selector
    rcases hOk k hk sig hSig with hAny | hListed
    · exact .inl hAny
    refine (hAll k (List.mem_of_getElem? hk) sig hSig).imp_right fun ⟨hOwn, hMixins, hParent⟩ =>
      ⟨fun sel hsel => ?_, hMixinsEq ▸ hMixins, hParentEq ▸ hParent⟩
    rcases selectors_define hsel with rfl | hOld
    · exact hListed
    · exact hOwn sel hOld
  | mix c m =>
    obtain ⟨vm', hExtend, hState⟩ := Option.bind_eq_some_iff.mp hStep
    obtain rfl := Option.some.inj hState
    obtain ⟨k, hk, hSet⟩ := Option.bind_eq_some_iff.mp hExtend
    split_ifs at hSet
    refine allShown_set hAll hSet (fun k' hk' => ?_) fun sig hSig => ?_
    · obtain rfl := Option.some.inj (hk.symm.trans hk')
      rfl
    rcases hOk k hk sig hSig with hAny | hListed
    · exact .inl hAny
    refine (hAll k (List.mem_of_getElem? hk) sig hSig).imp_right fun ⟨hOwn, hMixins, hParent⟩ =>
      ⟨hOwn, fun m' hm' => ?_, hParent⟩
    rcases List.mem_append.mp hm' with hOld | hNew
    · exact hMixins m' hOld
    · obtain rfl := List.mem_singleton.mp hNew
      exact hListed
  | sealClass c =>
    obtain ⟨k, hk, hRest⟩ := Option.bind_eq_some_iff.mp hStep
    obtain ⟨vm', hSet, hState⟩ := Option.bind_eq_some_iff.mp hRest
    obtain rfl := Option.some.inj hState
    refine allShown_set hAll hSet (fun k' hk' => ?_) fun sig hSig =>
      hAll k (List.mem_of_getElem? hk) sig hSig
    obtain rfl := Option.some.inj (hk.symm.trans hk')
    rfl
  | bindGlobal name c =>
    obtain rfl := Option.some.inj hStep
    exact hAll
  | unregister name =>
    obtain rfl := Option.some.inj hStep
    exact hAll

end Shown

/-! ## Both walks are searches -/

section Walks

variable {E M : Type} {vm : Vm M} {select : ClassId → List M → Except E (Option M)}
  {classSide : Bool} {selector : Selector} {c : ClassId} {table : Table} {n : NamespacedName}

/-- What a class's own candidates answer. -/
def own (vm : Vm M) (select : ClassId → List M → Except E (Option M)) (classSide : Bool)
    (selector : Selector) (c : ClassId) : Except E (Option M) :=
  if vm.chain c classSide selector = [] then .ok none
  else select c (vm.chain c classSide selector)

theorem lookupRec_eq (fuel : Nat) (c : ClassId) (visited : List ClassId) :
    lookupRec vm select classSide selector fuel c visited =
      (search (ownAnswer (own vm select classSide selector)) vm.links fuel c visited).map
        lookupOutcome := by
  induction fuel generalizing c visited with
  | zero => rfl
  | succ fuel ih =>
    rw [lookupRec, search, ownAnswer]
    by_cases hSeen : c ∈ visited
    · rw [if_pos hSeen, if_pos hSeen]
      rfl
    rw [if_neg hSeen, if_neg hSeen]
    rw [← own]
    rcases own vm select classSide selector c with e | _ | m
    · rfl
    · dsimp only
      rw [Vm.links, searchAll_append, lookupMixins_eq ih]
      rcases searchAll (search (ownAnswer (own vm select classSide selector)) vm.links fuel)
          (vm.mixinClasses c) (c :: visited) with _ | ⟨_ | _ | _, visited'⟩
      · rfl
      · cases hParent : vm.parent c with
        | none => rfl
        | some p => exact (ih p visited').trans (by simp only [Option.toList, searchAll_singleton])
      · rfl
      · rfl
    · rfl

/-- A name that ends the checker's walk: with the selector (`true`), or unknown or catching all
(`false`). -/
def nameAnswer (table : Table) (selector : Selector) (n : NamespacedName) : Option Bool :=
  match table.lookup n with
  | none => some false
  | some sig =>
    if sig.hasCatchAll then some false else
    if selector ∈ sig.ownSelectors then some true else none

/-- What the walk answers, from the search. -/
def nameOutcome : Option Bool × List NamespacedName → Option Bool × List NamespacedName
  | (none, visited) => (some false, visited)
  | (some true, visited) => (some true, visited)
  | (some false, visited) => (none, visited)

theorem anyMixin_eq {visit : NamespacedName → List NamespacedName →
      Option (Option Bool × List NamespacedName)}
    {responds : NamespacedName → List NamespacedName →
      Option (Option Bool × List NamespacedName)}
    (hEach : ∀ m visited, responds m visited = (visit m visited).map nameOutcome)
    (mixins visited : List NamespacedName) :
    anyMixin responds mixins visited = (searchAll visit mixins visited).map nameOutcome := by
  induction mixins generalizing visited with
  | nil => rfl
  | cons m mixins ih =>
    rw [anyMixin, searchAll, hEach]
    rcases visit m visited with _ | ⟨_ | _ | _, visited'⟩
    · rfl
    · exact ih visited'
    · rfl
    · rfl

/-- The checker's walk searches the names, and ends at the first that answers. -/
theorem respondsRec_eq (fuel : Nat) (n : NamespacedName) (visited : List NamespacedName) :
    respondsRec table selector fuel n visited =
      (search (nameAnswer table selector) table.links fuel n visited).map nameOutcome := by
  induction fuel generalizing n visited with
  | zero => rfl
  | succ fuel ih =>
    rw [respondsRec, search, nameAnswer, Table.links]
    by_cases hSeen : n ∈ visited
    · rw [if_pos hSeen, if_pos hSeen]
      rfl
    rw [if_neg hSeen, if_neg hSeen]
    cases table.lookup n with
    | none => rfl
    | some sig =>
      dsimp only
      split_ifs
      · rfl
      · rfl
      · dsimp only
        rw [searchAll_append, anyMixin_eq ih]
        rcases searchAll (search (nameAnswer table selector) table.links fuel) sig.mixins
            (n :: visited) with _ | ⟨_ | _ | _, visited'⟩
        · rfl
        · cases hParent : sig.parent with
          | none => rfl
          | some p =>
            exact (ih p visited').trans (by simp only [Option.toList, searchAll_singleton])
        · rfl
        · rfl

/-- The fuel is enough. -/
theorem respondsRec_total (table : Table) (selector : Selector) (n : NamespacedName) :
    ∃ r, respondsRec table selector (table.names.length + 2) n [] = some (nameOutcome r) ∧
      Answers (nameAnswer table selector) table.links [n] [] r := by
  let nodes : Finset NamespacedName := insert n table.names.toFinset
  have hClosed : ∀ x ∈ nodes, ∀ y ∈ table.links x, y ∈ nodes := by
    intro x _ y hy
    have hKey : x ∈ table.keys := by
      by_contra hNot
      have hNone : table.lookup x = none := AList.lookup_eq_none.mpr fun hIn =>
        hNot (AList.mem_keys.mp hIn)
      rw [Table.links, hNone] at hy
      exact List.not_mem_nil hy
    refine Finset.mem_insert_of_mem (List.mem_toFinset.mpr ?_)
    exact List.mem_append_right _ (List.mem_flatMap.mpr ⟨x, hKey, hy⟩)
  have hFew : nodes.card < table.names.length + 2 := by
    have hInsert : nodes.card ≤ table.names.toFinset.card + 1 := Finset.card_insert_le n _
    have hNames := List.toFinset_card_le table.names
    omega
  obtain ⟨r, hSearch, hAnswers⟩ := search_total (nameAnswer table selector) hClosed
    (Finset.mem_insert_self n _) hFew
  exact ⟨r, by rw [respondsRec_eq, hSearch]; rfl, hAnswers⟩

/-- Where the checker says no, every name that links lead to has an entry without the selector. -/
theorem lookup_of_respondsTo (h : respondsTo table n selector = some false) {m : NamespacedName}
    (hReach : Reaches table.links n m) :
    ∃ sig, table.lookup m = some sig ∧ sig.hasCatchAll = false ∧ selector ∉ sig.ownSelectors := by
  obtain ⟨⟨answer, visited⟩, hRec, hAnswers⟩ := respondsRec_total table selector n
  rw [respondsTo, hRec] at h
  cases answer with
  | some b =>
    -- the walk ended with the selector, or with a name it knows nothing of
    cases b <;> simp [nameOutcome] at h
  | none =>
    have hNone := Explored.found_none hAnswers hReach
    rw [nameAnswer] at hNone
    cases hEntry : table.lookup m with
    | none =>
      rw [hEntry] at hNone
      contradiction
    | some sig =>
      rw [hEntry] at hNone
      dsimp only at hNone
      split_ifs at hNone with hAny hOwn
      exact ⟨sig, rfl, by simpa using hAny, hOwn⟩

/-- A lookup ends, and if it resolves nothing it has visited what links lead to. -/
theorem lookup_total (hc : c < vm.classes.length) :
    ∃ r, lookup vm select classSide selector c = some (lookupOutcome r) ∧
      Answers (ownAnswer (own vm select classSide selector)) vm.links [c] [] r := by
  have hClosed : ∀ x ∈ Finset.range vm.classes.length, ∀ y ∈ vm.links x,
      y ∈ Finset.range vm.classes.length := by
    intro x _ y hy
    rw [Vm.links, Vm.mixinClasses, Vm.parent] at hy
    cases hx : vm.classes[x]? with
    | none =>
      rw [hx] at hy
      exact absurd hy List.not_mem_nil
    | some k =>
      rw [hx] at hy
      exact Finset.mem_range.mpr (vm.linked k (List.mem_of_getElem? hx) y hy)
  obtain ⟨r, hEq, hAnswers⟩ := search_total (ownAnswer (own vm select classSide selector)) hClosed
    (Finset.mem_range.mpr hc) (by rw [Finset.card_range]; exact Nat.lt_succ_self _)
  exact ⟨r, by rw [lookup, lookupRec_eq, hEq]; rfl, hAnswers⟩

end Walks

/-! ## The checker against the lookup -/

section Sound

variable {E M : Type} {s s' : State M} {c d : ClassId} {selector : Selector}

/-- No class that the lookup can get to from `c` has a variant. -/
def NoVariant (vm : Vm M) (selector : Selector) (c : ClassId) : Prop :=
  ∀ d, Reaches vm.links c d → ∀ classSide, vm.chain d classSide selector = []

/-- Wherever the checker says that a class does not respond to a selector, the lookup finds no
variant of it: on neither side, whatever the arguments. -/
def NeverWrong (s : State M) : Prop :=
  ∀ c < s.vm.classes.length, ∀ selector,
    respondsTo s.table (s.vm.name c) selector = some false →
      ∀ (E : Type) (select : ClassId → List M → Except E (Option M)) (classSide : Bool),
        ∃ visited, lookup s.vm select classSide selector c = some (.ok none, visited)

/-- Links between classes are links between their names, where the entries show them. -/
theorem reaches_name (hAll : AllShown s) (hc : c < s.vm.classes.length)
    (hNo : respondsTo s.table (s.vm.name c) selector = some false)
    (hReach : Reaches s.vm.links c d) :
    d < s.vm.classes.length ∧ Reaches s.table.links (s.vm.name c) (s.vm.name d) := by
  induction hReach with
  | refl => exact ⟨hc, .refl⟩
  | @tail d e _ hLink ih =>
    obtain ⟨hd, hNames⟩ := ih
    obtain ⟨sig, hEntry, hAny, -⟩ := lookup_of_respondsTo hNo hNames
    have hClass : s.vm.classes[d]? = some s.vm.classes[d] := List.getElem?_eq_getElem hd
    have hName : s.vm.name d = s.vm.classes[d].name := by
      rw [Vm.name, hClass]
      rfl
    have hLinks : s.vm.links d = s.vm.classes[d].links := by
      rw [Vm.links, Vm.mixinClasses, Vm.parent, hClass]
      rfl
    rw [hLinks] at hLink
    have he := s.vm.linked _ (List.getElem_mem hd) e hLink
    refine ⟨he, hNames.tail ?_⟩
    rcases hAll _ (List.getElem_mem hd) sig (hName ▸ hEntry) with hCatch | ⟨-, hMixins, hParent⟩
    · rw [hAny] at hCatch
      contradiction
    rw [Table.links, hEntry]
    rcases List.mem_append.mp hLink with hMixin | hUp
    · exact List.mem_append_left _ (hMixins e hMixin)
    · refine List.mem_append_right _ ?_
      rw [hParent e (Option.mem_toList.mp hUp)]
      exact List.mem_singleton_self _

theorem noVariant_of_respondsTo (hAll : AllShown s) (hc : c < s.vm.classes.length)
    (hNo : respondsTo s.table (s.vm.name c) selector = some false) :
    NoVariant s.vm selector c := by
  intro d hReach classSide
  obtain ⟨hd, hNames⟩ := reaches_name hAll hc hNo hReach
  obtain ⟨sig, hEntry, hAny, hOwn⟩ := lookup_of_respondsTo hNo hNames
  have hClass : s.vm.classes[d]? = some s.vm.classes[d] := List.getElem?_eq_getElem hd
  have hName : s.vm.name d = s.vm.classes[d].name := by
    rw [Vm.name, hClass]
    rfl
  rcases hAll _ (List.getElem_mem hd) sig (hName ▸ hEntry) with hCatch | ⟨hListed, -, -⟩
  · rw [hAny] at hCatch
    contradiction
  -- the entry lists the selectors of both sides, and this is none of them
  have hNot : selector ∉ s.vm.classes[d].methods classSide := by
    intro hIn
    refine hOwn (hListed selector ?_)
    cases classSide with
    | true => exact List.mem_append_right _ (AList.mem_keys.mp hIn)
    | false => exact List.mem_append_left _ (AList.mem_keys.mp hIn)
  rw [Vm.chain, hClass]
  show (((s.vm.classes[d].methods classSide).lookup selector).getD []) = []
  rw [AList.lookup_eq_none.mpr hNot]
  rfl

/-- Where the entries show the classes, the checker's no is right. -/
theorem neverWrong_of_allShown (hAll : AllShown s) : NeverWrong s := by
  intro c hc selector hNo E select classSide
  have hNone := noVariant_of_respondsTo hAll hc hNo
  obtain ⟨⟨answer, visited⟩, hEq, hAnswers⟩ :=
    @lookup_total E M s.vm select classSide selector c hc
  cases answer with
  | none => exact ⟨visited, hEq⟩
  | some answer =>
    obtain ⟨c', hStart, d, hReach, hFound⟩ := hAnswers
    obtain rfl := List.mem_singleton.mp hStart
    rw [ownAnswer, own, if_pos (hNone d hReach classSide)] at hFound
    contradiction

/-- Nothing defined, nothing compiled. -/
def State.initial : State M :=
  ⟨⟨[], ∅, by simp⟩, ∅⟩

theorem allShown_initial : AllShown (State.initial : State M) :=
  fun _ hk => absurd hk List.not_mem_nil

/-- **The checker never reports a false missing method** in a run in which the entries go on showing
what the classes have. -/
theorem respondsTo_sound (hRun : Run step Ok State.initial s) : NeverWrong s :=
  neverWrong_of_allShown (hRun.invariant allShown_initial fun _ _ _ => allShown_step)

end Sound

/-! ## A class reopened -/

def widgetName : NamespacedName := ⟨[], "Widget"⟩

/-- A program: "Object" is there when the table is filled, "Widget" is defined with a method and
sealed, and the table is filled once more for the next unit. -/
def widget : List (Action String) :=
  [.register ⟨⟨objectName, none, []⟩, ∅, ∅, false⟩ true,
    .populate,
    .insertDef widgetName (some objectName) [] ["draw"] true,
    .defineClass widgetName (some objectName),
    .defineMethod 1 false "draw" none "Widget#draw",
    .sealClass 1,
    .populate]

/-- The program above is one that the checker follows: it finds the method that the class has, and
is right that there is no other. -/
theorem respondsTo_sound_widget :
    ∃ s : State String, Run step Ok State.initial s ∧
      respondsTo s.table widgetName "draw" = some true ∧
      respondsTo s.table widgetName "shout" = some false ∧ NeverWrong s := by
  have hExec : (exec step Ok State.initial widget).map (fun s =>
      (respondsTo s.table widgetName "draw", respondsTo s.table widgetName "shout")) =
        some (some true, some false) := by
    decide +kernel
  obtain ⟨s, hRun, hAnswers⟩ := run_of_exec_map hExec
  obtain ⟨hDraw, hShout⟩ := Prod.mk.injEq _ _ _ _ ▸ hAnswers
  exact ⟨s, hRun, hDraw, hShout, respondsTo_sound hRun⟩

/-- When "Object" is reopened after that, the checker still has its old entry, which is not sealed,
and answers that a "Widget" does not respond, while the lookup finds the new method. -/
theorem respondsTo_stale :
    ¬ ∀ s : State String, Reach step State.initial s → NeverWrong s := by
  intro hNever
  have hExec : (exec step (fun _ _ => True) State.initial
      (widget ++ [.defineMethod 0 false "shout" none "Object#shout"])).map (fun s =>
        (s.vm.classes.length, s.vm.name 1, respondsTo s.table widgetName "shout",
          lookup s.vm (fun _ chain => .ok chain.head?) false "shout" 1)) =
        some (2, widgetName, some false,
          some ((.ok (some "Object#shout") : Except Unit (Option String)), [0, 1])) := by
    rfl
  obtain ⟨s, hReach, hEnd⟩ := run_of_exec_map hExec
  obtain ⟨hLen, hName, hNo, hFound⟩ : _ ∧ _ ∧ _ ∧ _ := by simpa using hEnd
  obtain ⟨visited, hNone⟩ := hNever s hReach 1 (by omega) "shout" (hName ▸ hNo) Unit
    (fun _ chain => .ok chain.head?) false
  rw [hFound] at hNone
  simp at hNone

end Quoin.Classes.Responds
