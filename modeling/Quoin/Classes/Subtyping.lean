import Mathlib
import Quoin.Classes.Table

/-!
# Quoin — static and dynamic subtyping

The checker's `is_subtype` and the walk of a method lookup both get to exactly
the classes that links lead to (`isSubtype_iff`, `walkVisits_iff`): the one
searches names, the other classes, and a name is that of one class.
`type_distance` does not follow the links out of a mixin, so it accepts fewer
(`typeDistance_isSome_iff`), and the three agree on a class and a type unless
links out of a mixin are the only way from the one to the other
(`subtyping_agrees`).

## Results

* `isSubtype_iff` — the checker reaches a name exactly if links of the hierarchy lead to its class;
* `walkVisits_iff` — so does the lookup walk;
* `subtyping_agrees` — the three walks agree on a class and a type exactly if links out of a mixin
  are not the only way;
* `subtyping_disagrees` — a mixin that mixes in another one.
-/

namespace Quoin.Classes

open Trans

/-- `t` is on the superclass chain of `c`, or a mixin of a class on it. -/
def Hierarchy.Beside (h : Hierarchy) (c t : ClassId) : Prop :=
  ∃ s, h.Inherits c s ∧ (s = t ∨ t ∈ h.mixinClasses s)

/-- Links that leave a mixin of `c` or of a superclass lead to `t`, and nothing else does;
"Object" is no such type, for it takes every value. -/
def Hierarchy.OnlyThroughMixin (h : Hierarchy) (c t : ClassId) : Prop :=
  (∃ s, h.Inherits c s ∧ ∃ m ∈ h.mixinClasses s, Reaches h.links m t) ∧
    ¬ h.Beside c t ∧ h.name t ≠ objectName

variable {h : Hierarchy} {c t : ClassId}

/-! ## What a value fits -/

/-- The walk accepts what is a target on the superclass chain or a mixin there. -/
theorem chainDistance_isSome_iff (isTarget : ClassId → Bool) (dist : Nat) {fuel : Nat}
    (hFuel : c < fuel) :
    (chainDistance h isTarget fuel (some c) dist).isSome ↔
      ∃ s, h.Inherits c s ∧ (isTarget s ∨ ∃ m ∈ h.mixinClasses s, isTarget m) := by
  induction fuel generalizing c dist with
  | zero => exact absurd hFuel (Nat.not_lt_zero c)
  | succ fuel ih =>
    rw [chainDistance]
    split_ifs with hHere hMixin
    · exact ⟨fun _ => ⟨c, .refl, .inl hHere⟩, fun _ => rfl⟩
    · exact ⟨fun _ => ⟨c, .refl, .inr (List.any_eq_true.mp hMixin)⟩, fun _ => rfl⟩
    · -- neither `c` nor a mixin of it matches, so the match is further up
      have hNot : ¬ (isTarget c ∨ ∃ m ∈ h.mixinClasses c, isTarget m) := by
        rintro (hIs | hSome)
        · exact hHere hIs
        · exact hMixin (List.any_eq_true.mpr hSome)
      cases hParent : h.parent c with
      | none =>
        have hNone : (chainDistance h isTarget fuel none (dist + 1)).isSome = false := by
          cases fuel <;> rfl
        rw [hNone]
        refine ⟨fun hFalse => absurd hFalse (by simp), fun ⟨s, hInherits, hMatch⟩ => ?_⟩
        rcases Relation.ReflTransGen.cases_head hInherits with rfl | ⟨p, hp, -⟩
        · exact absurd hMatch hNot
        · rw [hParent] at hp
          cases hp
      | some p =>
        have hLess := Hierarchy.parent_lt_of hParent
        rw [ih _ (hLess.trans_le (Nat.le_of_lt_succ hFuel))]
        constructor
        · rintro ⟨s, hInherits, hMatch⟩
          exact ⟨s, .head hParent hInherits, hMatch⟩
        · rintro ⟨s, hInherits, hMatch⟩
          rcases Relation.ReflTransGen.cases_head hInherits with rfl | ⟨q, hq, hRest⟩
          · exact absurd hMatch hNot
          · rw [hParent] at hq
            cases hq
            exact ⟨s, hRest, hMatch⟩

/-- A value fits the classes beside its own, and "Object". -/
theorem typeDistance_isSome_iff (val : Instance h) (ht : t < h.classes.length) :
    (typeDistance h val (.base (h.name t))).isSome ↔
      h.Beside val.cls t ∨ h.name t = objectName := by
  have hWalk := chainDistance_isSome_iff (h := h) (fun clz => clz == t) 0
    (val.cls_lt.trans (Nat.lt_succ_self _))
  have hBeside : (∃ s, h.Inherits val.cls s ∧ ((s == t) = true ∨
      ∃ m ∈ h.mixinClasses s, (m == t) = true)) ↔ h.Beside val.cls t := by
    simp [Hierarchy.Beside]
  rw [hBeside] at hWalk
  rw [typeDistance, Hierarchy.globals_name ht]
  by_cases hName : val.typeName = h.name t ∧ h.name t ≠ objectName
  · -- the shortcut by type name: such a name is that of a class on the chain
    obtain ⟨hEq, hne⟩ := hName
    rcases val.typeName_eq with hObject | ⟨s, hInherits, hs⟩
    · exact absurd (hEq.symm.trans hObject) hne
    · rw [if_pos ⟨hEq, hne⟩]
      have hLt := Hierarchy.reaches_lt val.cls_lt (Hierarchy.Inherits.reaches hInherits)
      have hst := (Hierarchy.name_inj hLt ht).mp (hs.trans hEq)
      exact ⟨fun _ => .inl ⟨s, hInherits, .inl hst⟩, fun _ => rfl⟩
  · rw [if_neg hName]
    dsimp only
    cases hDist : chainDistance h (fun clz => clz == t) (h.classes.length + 1) (some val.cls) 0 with
    | some dist => exact ⟨fun _ => .inl (hWalk.mp (by simp [hDist])), fun _ => rfl⟩
    | none =>
      have hNot : ¬ h.Beside val.cls t := fun hB => by simpa [hDist] using hWalk.mpr hB
      by_cases hObject : h.name t = objectName <;> simp [hObject, hNot]

/-! ## The method lookup is a search -/

section Lookup

variable {E M : Type} {own : ClassId → Except E (Option M)}

/-- What a class's own candidates answer, if they do. -/
def ownAnswer (own : ClassId → Except E (Option M)) (c : ClassId) : Option (Except E M) :=
  match own c with
  | .ok none => none
  | .ok (some m) => some (.ok m)
  | .error e => some (.error e)

/-- The outcome of a lookup, from that of the search. -/
def lookupOutcome : Option (Except E M) × List ClassId → Except E (Option M) × List ClassId
  | (none, visited) => (.ok none, visited)
  | (some (.ok m), visited) => (.ok (some m), visited)
  | (some (.error e), visited) => (.error e, visited)

theorem lookupMixins_eq {lookup : ClassId → List ClassId →
      Option (Except E (Option M) × List ClassId)}
    {visit : ClassId → List ClassId → Option (Option (Except E M) × List ClassId)}
    (hEach : ∀ m visited, lookup m visited = (visit m visited).map lookupOutcome)
    (mixins visited : List ClassId) :
    lookupMixins lookup mixins visited = (searchAll visit mixins visited).map lookupOutcome := by
  induction mixins generalizing visited with
  | nil => rfl
  | cons m mixins ih =>
    rw [lookupMixins, searchAll, hEach]
    rcases visit m visited with _ | ⟨_ | _ | _, visited'⟩
    · rfl
    · exact ih visited'
    · rfl
    · rfl

/-- A lookup searches the links, and ends at the first class whose own candidates answer. -/
theorem lookupRec_eq (fuel : Nat) (c : ClassId) (visited : List ClassId) :
    lookupRec h own fuel c visited =
      (search (ownAnswer own) h.links fuel c visited).map lookupOutcome := by
  induction fuel generalizing c visited with
  | zero => rfl
  | succ fuel ih =>
    rw [lookupRec, search, ownAnswer]
    by_cases hSeen : c ∈ visited
    · rw [if_pos hSeen, if_pos hSeen]
      rfl
    rw [if_neg hSeen, if_neg hSeen]
    rcases own c with e | _ | m
    · rfl
    · dsimp only
      rw [Hierarchy.links, searchAll_append, lookupMixins_eq ih]
      rcases searchAll (search (ownAnswer own) h.links fuel) (h.mixinClasses c) (c :: visited) with
        _ | ⟨_ | _ | _, visited'⟩
      · rfl
      · cases hParent : h.parent c with
        | none => rfl
        | some p => exact (ih p visited').trans (by simp only [Option.toList, searchAll_singleton])
      · rfl
      · rfl
    · rfl

/-- Links stay among the classes. -/
theorem Hierarchy.links_range : ∀ x ∈ Finset.range h.classes.length, ∀ y ∈ h.links x,
    y ∈ Finset.range h.classes.length := fun _ _ _ hy =>
  Finset.mem_range.mpr (Hierarchy.link_lt hy)

/-- A lookup ends, and if it resolves nothing it has visited the classes that links lead to. -/
theorem lookupMethod_total (hc : c < h.classes.length) :
    ∃ r, lookupMethod h own c = some (lookupOutcome r) ∧
      Answers (ownAnswer own) h.links [c] [] r := by
  obtain ⟨r, hEq, hAnswers⟩ := search_total (ownAnswer own) Hierarchy.links_range
    (Finset.mem_range.mpr hc) (by rw [Finset.card_range]; exact Nat.lt_succ_self _)
  exact ⟨r, by rw [lookupMethod, lookupRec_eq, hEq]; rfl, hAnswers⟩

end Lookup

/-- The walk visits the classes that links lead to. -/
theorem walkVisits_iff (hc : c < h.classes.length) : walkVisits h c t ↔ Reaches h.links c t := by
  obtain ⟨⟨answer, visited⟩, hEq, hAnswers⟩ :=
    @lookupMethod_total h c Unit Unit (fun _ => .ok none) hc
  cases answer with
  | some m =>
    obtain ⟨s, -, c', -, hFound⟩ := hAnswers
    cases hFound
  | none =>
    rw [← hAnswers.mem_iff, walkVisits, hEq]
    constructor
    · rintro ⟨visited', hSome, hIn⟩
      cases hSome
      exact hIn
    · exact fun hIn => ⟨visited, rfl, hIn⟩

/-! ## The checker's walk is a search by name -/

/-- The names that a name's entry links to. -/
def ClassTable.links (table : ClassTable) (n : NamespacedName) : List NamespacedName :=
  match table.lookup n with
  | none => []
  | some sig => sig.mixins ++ sig.parent.toList

/-- The search stops at the name it is after. -/
def isName (sup n : NamespacedName) : Option Unit := if n = sup then some () else none

/-- The checker's walk and the search for `sup` go on alike. -/
inductive Alike (sup : NamespacedName) : Option (Option Unit × List NamespacedName) →
    Option (Option Bool × List NamespacedName) → Prop
  | fuel : Alike sup none none
  | no {visited : List NamespacedName} (h : sup ∉ visited) :
      Alike sup (some (none, visited)) (some (some false, visited))
  | yes {visited visited' : List NamespacedName} :
      Alike sup (some (some (), visited)) (some (some true, visited'))

theorem anyMixin_alike {sup : NamespacedName} {mixins visited : List NamespacedName}
    {visit : NamespacedName → List NamespacedName → Option (Option Unit × List NamespacedName)}
    {isSub : NamespacedName → List NamespacedName → Option (Option Bool × List NamespacedName)}
    (hEach : ∀ m ∈ mixins, ∀ visited, sup ∉ visited → Alike sup (visit m visited) (isSub m visited))
    (hNot : sup ∉ visited) :
    Alike sup (searchAll visit mixins visited) (anyMixin isSub mixins visited) := by
  induction mixins generalizing visited with
  | nil => exact .no hNot
  | cons m mixins ih =>
    rw [searchAll, anyMixin]
    have hHead := hEach m (by simp) visited hNot
    generalize visit m visited = r, isSub m visited = r' at hHead ⊢
    cases hHead with
    | fuel => exact .fuel
    | no hNot' => exact ih (fun m' hm' => hEach m' (by simp [hm'])) hNot'
    | yes => exact .yes

/-- Where every name that can come up has an entry, the walk is the search. -/
theorem isSubtypeRec_alike {table : ClassTable} {sub sup : NamespacedName}
    {visited : List NamespacedName} (fuel : Nat)
    (hKnown : ∀ n, Reaches table.links sub n → (table.lookup n).isSome) (hNot : sup ∉ visited) :
    Alike sup (search (isName sup) table.links fuel sub visited)
      (isSubtypeRec table sup fuel sub visited) := by
  induction fuel generalizing sub visited with
  | zero => exact .fuel
  | succ fuel ih =>
    rw [search, isSubtypeRec, isName]
    by_cases hHere : sub = sup
    · subst hHere
      rw [if_neg hNot, if_pos rfl, if_pos rfl]
      exact .yes
    rw [if_neg hHere, if_neg hHere]
    by_cases hSeen : sub ∈ visited
    · rw [if_pos hSeen, if_pos hSeen]
      exact .no hNot
    rw [if_neg hSeen, if_neg hSeen]
    obtain ⟨sig, hSig⟩ := Option.isSome_iff_exists.mp (hKnown sub .refl)
    have hLinks : table.links sub = sig.mixins ++ sig.parent.toList := by
      rw [ClassTable.links, hSig]
    have hEach : ∀ n ∈ table.links sub, ∀ visited', sup ∉ visited' →
        Alike sup (search (isName sup) table.links fuel n visited')
          (isSubtypeRec table sup fuel n visited') :=
      fun n hn visited' hNot' => ih (fun x hx => hKnown x (.head hn hx)) hNot'
    rw [hLinks] at hEach ⊢
    have hNot' : sup ∉ sub :: visited := by simp [hNot, Ne.symm hHere]
    have hMixins := anyMixin_alike (fun m hm => hEach m (List.mem_append_left _ hm)) hNot'
    rw [hSig]
    dsimp only
    rw [searchAll_append]
    generalize searchAll (search (isName sup) table.links fuel) sig.mixins (sub :: visited) = r,
      anyMixin (isSubtypeRec table sup fuel) sig.mixins (sub :: visited) = r' at hMixins ⊢
    cases hMixins with
    | fuel => exact .fuel
    | yes => exact .yes
    | no hNot' =>
      -- the mixins do not lead to `sup`, so the superclass decides
      cases hParent : sig.parent with
      | none => exact .no hNot'
      | some p =>
        dsimp only [Option.toList]
        rw [searchAll_singleton]
        exact hEach p (by simp [hParent]) _ hNot'

theorem links_populateFromVm (hc : c < h.classes.length) :
    (populateFromVm h).links (h.name c) = (h.links c).map h.name := by
  rw [ClassTable.links, lookup_populateFromVm hc, Hierarchy.links, List.map_append]
  cases h.parent c <;> rfl

/-- Links between names are those between the classes. -/
theorem reaches_name (hc : c < h.classes.length) {n : NamespacedName} :
    Reaches (populateFromVm h).links (h.name c) n ↔ ∃ t, Reaches h.links c t ∧ h.name t = n := by
  constructor
  · intro hReach
    induction hReach with
    | refl => exact ⟨c, .refl, rfl⟩
    | tail _ hLink ih =>
      obtain ⟨t, hReach, rfl⟩ := ih
      rw [links_populateFromVm (Hierarchy.reaches_lt hc hReach)] at hLink
      obtain ⟨t', hNext, rfl⟩ := List.mem_map.mp hLink
      exact ⟨t', hReach.tail hNext, rfl⟩
  · rintro ⟨t, hReach, rfl⟩
    induction hReach with
    | refl => exact .refl
    | tail hReach hLink ih =>
      refine ih.tail ?_
      rw [links_populateFromVm (Hierarchy.reaches_lt hc hReach)]
      exact List.mem_map_of_mem hLink

/-- The checker knows every class, and takes it for a subtype of those that links lead to. -/
theorem isSubtype_total (hc : c < h.classes.length) (ht : t < h.classes.length) :
    ∃ b, isSubtype (populateFromVm h) (h.name c) (h.name t) = some b ∧
      (b = true ↔ Reaches h.links c t) := by
  rw [isSubtype]
  by_cases hSame : h.name c = h.name t
  · rw [if_pos hSame, (Hierarchy.name_inj hc ht).mp hSame]
    exact ⟨true, rfl, fun _ => .refl, fun _ => rfl⟩
  rw [if_neg hSame]
  have hKnown : ∀ n, Reaches (populateFromVm h).links (h.name c) n →
      ((populateFromVm h).lookup n).isSome := by
    intro n hReach
    obtain ⟨t', hReach', rfl⟩ := (reaches_name hc).mp hReach
    rw [lookup_populateFromVm (Hierarchy.reaches_lt hc hReach')]
    rfl
  have hAlike := isSubtypeRec_alike ((populateFromVm h).entries.length + 1) hKnown
    (List.not_mem_nil (a := h.name t))
  -- the names that can come up are those of the classes, and the fuel is above their number
  let nodes : Finset NamespacedName := (h.classes.map Class.name).toFinset
  have hNode : ∀ n, n ∈ nodes ↔ ∃ x < h.classes.length, h.name x = n := by
    intro n
    rw [List.mem_toFinset, List.mem_map]
    constructor
    · rintro ⟨k, hk, rfl⟩
      obtain ⟨x, hx, rfl⟩ := List.getElem_of_mem hk
      exact ⟨x, hx, Hierarchy.name_eq hx⟩
    · rintro ⟨x, hx, rfl⟩
      exact ⟨h.classes[x], List.getElem_mem hx, (Hierarchy.name_eq hx).symm⟩
  have hClosed : ∀ n ∈ nodes, ∀ n' ∈ (populateFromVm h).links n, n' ∈ nodes := by
    intro n hn n' hn'
    obtain ⟨x, hx, rfl⟩ := (hNode n).mp hn
    rw [links_populateFromVm hx] at hn'
    obtain ⟨y, hy, rfl⟩ := List.mem_map.mp hn'
    exact (hNode _).mpr ⟨y, Hierarchy.link_lt hy, rfl⟩
  have hFew : nodes.card < (populateFromVm h).entries.length + 1 := by
    have hCard : nodes.card ≤ h.classes.length := by
      simpa using List.toFinset_card_le (h.classes.map Class.name)
    have hEntries := length_populateFromVm h
    omega
  obtain ⟨⟨answer, seen⟩, hSearch, hAnswers⟩ := search_total (isName (h.name t)) hClosed
    ((hNode _).mpr ⟨c, hc, rfl⟩) hFew
  have hFound : answer.isSome ↔ Reaches h.links c t := by
    rw [isSome_iff_of_answers hAnswers]
    constructor
    · rintro ⟨n, hReach, hIs⟩
      obtain ⟨x, hReach', rfl⟩ := (reaches_name hc).mp hReach
      have hEq : h.name x = h.name t := by
        by_contra hne
        simp [isName, hne] at hIs
      rwa [← (Hierarchy.name_inj (Hierarchy.reaches_lt hc hReach') ht).mp hEq]
    · intro hReach
      exact ⟨h.name t, (reaches_name hc).mpr ⟨t, hReach, rfl⟩, by simp [isName]⟩
  rw [hSearch] at hAlike
  rw [← hFound]
  generalize isSubtypeRec (populateFromVm h) (h.name t) ((populateFromVm h).entries.length + 1)
    (h.name c) [] = r at hAlike ⊢
  cases hAlike with
  | no _ => exact ⟨false, rfl, by simp⟩
  | yes => exact ⟨true, rfl, by simp⟩

theorem isSubtype_iff (hc : c < h.classes.length) (ht : t < h.classes.length) :
    isSubtype (populateFromVm h) (h.name c) (h.name t) = some true ↔ Reaches h.links c t := by
  obtain ⟨b, hEq, hb⟩ := isSubtype_total hc ht
  rw [hEq, ← hb]
  exact Option.some_inj

/-! ## The three of them -/

theorem Hierarchy.Beside.reaches (hBeside : h.Beside c t) : Reaches h.links c t := by
  obtain ⟨s, hInherits, rfl | hMixin⟩ := hBeside
  · exact hInherits.reaches
  · exact (Hierarchy.Inherits.reaches hInherits).tail (Hierarchy.mem_links.mpr (.inl hMixin))

/-- What links lead to is on the superclass chain, or behind a mixin of a class on it. -/
theorem Hierarchy.beside_or_mixin (hReach : Reaches h.links c t) :
    h.Beside c t ∨ ∃ s, h.Inherits c s ∧ ∃ m ∈ h.mixinClasses s, Reaches h.links m t := by
  induction hReach using Relation.ReflTransGen.head_induction_on with
  | refl => exact .inl ⟨_, .refl, .inl rfl⟩
  | head hLink hRest ih =>
    rcases Hierarchy.mem_links.mp hLink with hMixin | hParent
    · exact .inr ⟨_, .refl, _, hMixin, hRest⟩
    · rcases ih with ⟨s, hInherits, hAt⟩ | ⟨s, hInherits, hAt⟩
      · exact .inl ⟨s, .head hParent hInherits, hAt⟩
      · exact .inr ⟨s, .head hParent hInherits, hAt⟩

/-- Every class is a subtype of "Object". -/
theorem reaches_object (hc : c < h.classes.length) (ht : t < h.classes.length)
    (hObject : h.name t = objectName) : Reaches h.links c t := by
  obtain ⟨o, hInherits, hName⟩ := Hierarchy.inherits_object hc
  have hReach := Hierarchy.Inherits.reaches hInherits
  rwa [← (Hierarchy.name_inj (Hierarchy.reaches_lt hc hReach) ht).mp (hName.trans hObject.symm)]

/-- The checker, `type_distance` and the method lookup agree on a class and a type exactly
where the type is not only behind a mixin. All three look at one hierarchy: the table that the
checker walks is the one that `populate_from_vm` fills from these very classes, so nothing is said
of a table that classes opened later have left behind. -/
theorem subtyping_agrees (val : Instance h) (ht : t < h.classes.length) :
    ((isSubtype (populateFromVm h) (h.name val.cls) (h.name t) = some true ↔
        (typeDistance h val (.base (h.name t))).isSome) ∧
      (isSubtype (populateFromVm h) (h.name val.cls) (h.name t) = some true ↔
        walkVisits h val.cls t)) ↔
      ¬ h.OnlyThroughMixin val.cls t := by
  rw [isSubtype_iff val.cls_lt ht, typeDistance_isSome_iff val ht, walkVisits_iff val.cls_lt]
  constructor
  · rintro ⟨hAgree, -⟩ ⟨⟨s, hInherits, m, hMixin, hReach⟩, hNot, hObject⟩
    have hLink : m ∈ h.links s := Hierarchy.mem_links.mpr (.inl hMixin)
    have hAll := (Hierarchy.Inherits.reaches hInherits).trans (.head hLink hReach)
    rcases hAgree.mp hAll with hBeside | hIs
    · exact hNot hBeside
    · exact hObject hIs
  · intro hCond
    refine ⟨⟨fun hReach => ?_, ?_⟩, Iff.rfl⟩
    · by_contra hNeither
      rw [not_or] at hNeither
      rcases Hierarchy.beside_or_mixin hReach with hBeside | hMixin
      · exact hNeither.1 hBeside
      · exact hCond ⟨hMixin, hNeither.1, hNeither.2⟩
    · rintro (hBeside | hObject)
      · exact hBeside.reaches
      · exact reaches_object val.cls_lt ht hObject

/-- `Mixin <- M2 <- {}; Mixin <- M1 <- { .mix:M2 }; A <- { .mix:M1 }`. -/
def mixinOfMixin : Hierarchy where
  classes := [⟨objectName, none, []⟩, ⟨⟨[], "Mixin"⟩, some 0, []⟩, ⟨⟨[], "M2"⟩, some 1, []⟩,
    ⟨⟨[], "M1"⟩, some 1, [2]⟩, ⟨⟨[], "A"⟩, some 0, [3]⟩]
  parent_lt := by decide
  mixin_lt := by decide
  rooted := by decide
  names := by decide

/-- `A.new`. -/
def mixinOfMixin.a : Instance mixinOfMixin := ⟨4, objectName, false, by decide, .inl rfl⟩

/-- An instance of `A` fits `M1`, and all three say so. -/
theorem subtyping_agrees_mixin :
    (isSubtype (populateFromVm mixinOfMixin) (mixinOfMixin.name 4) (mixinOfMixin.name 3) =
        some true ↔ (typeDistance mixinOfMixin mixinOfMixin.a (.base (mixinOfMixin.name 3))).isSome) ∧
      (isSubtype (populateFromVm mixinOfMixin) (mixinOfMixin.name 4) (mixinOfMixin.name 3) =
        some true ↔ walkVisits mixinOfMixin 4 3) := by
  have hBeside : mixinOfMixin.Beside 4 3 := ⟨4, .refl, .inr (by decide)⟩
  exact (subtyping_agrees mixinOfMixin.a (by decide)).mpr fun hOnly => hOnly.2.1 hBeside

/-- It is a subtype of `M2` for the checker, and the lookup gets to `M2`, but as an argument it
does not fit. -/
theorem subtyping_disagrees : ¬ ∀ (h : Hierarchy) (val : Instance h), ∀ t < h.classes.length,
    (isSubtype (populateFromVm h) (h.name val.cls) (h.name t) = some true ↔
        (typeDistance h val (.base (h.name t))).isSome) ∧
      (isSubtype (populateFromVm h) (h.name val.cls) (h.name t) = some true ↔
        walkVisits h val.cls t) := by
  intro hAll
  have hAgree := (hAll mixinOfMixin mixinOfMixin.a 2 (by decide)).1
  exact absurd (hAgree.mp (by decide +kernel)) (by decide +kernel)

end Quoin.Classes
