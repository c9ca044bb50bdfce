import Mathlib
import Quoin.Classes.Subtyping
import Quoin.Trans.Least

/-!
# Quoin — which variant a send runs

A selector may have several variants on one class, its method chain. The
lookup walk goes through the classes in the order of `walkOrder`; on each it
scores the chain's variants against the arguments, lowest first, and the first
class with a variant that applies decides: the lowest, or an
`AmbiguousMethodError` when several share the lowest score.

A native method without a signature scores `i64::MAX` and is left out of the
ambiguity check, so several such variants on one chain do not tie: the first of
them in the chain is taken when nothing else applies
(`signatureless_first`). With that exception the answer is the variant whose
score is strictly below the others', a tie is an error, and the order of the
chain does not matter (`dispatch_selects`).

## Results

* `dispatch_selects` — the variant that runs scores strictly below the others of its class, a tie is
  an error, and the order of a chain does not matter;
* `signatureless_first` — of two native methods without a signature the first one runs.
-/

namespace Quoin.Classes

open Trans

/-- An argument as `score_param_types` sees it: its `type_name`, whether it is nil, the class it
is looked up in (a class is looked up in itself) and the tag of the elements it holds. -/
structure Arg (τ : Type) where
  typeName : NamespacedName
  isNil : Bool
  cls : Option ClassId
  elemTag : Option τ

/-- The body of a method: a user block with its parameters' types, their element tags and its
guard, or a native function with its signature if it has one. A guard is what running it on the
arguments gives. -/
inductive Body (τ E : Type) where
  | user (paramTypes : List Hint) (paramElemTags : List (Option τ))
      (declBlock : Option (Except E Bool))
  | native (paramTypes : Option (List Hint))

/-- A node of a method chain. -/
structure Variant (τ E : Type) where
  method : Nat
  body : Body τ E

/-- `i64::MAX`. -/
def i64Max : ℤ := 2 ^ 63 - 1

/-- The sum over the parameters, then 0 for a guard that passed and 1 for none. -/
abbrev Score := ℤ ×ₗ ℕ

/-- What a dispatch raises: what a guard raised, or `AmbiguousMethodError` with the class and the
candidates that share the lowest score. -/
inductive DispatchError (τ E : Type) where
  | guard (e : E)
  | ambiguousMethod (classRef : ClassId) (candidates : List (Variant τ E))

section Scores

variable {τ E : Type} [DecidableEq τ]

/-- `type_distance`, of any argument. -/
def typeDistanceOf (h : Hierarchy) (arg : Arg τ) : Hint → Option Nat
  | .nullable base => if arg.isNil then some 0 else typeDistanceOf h arg base
  | .base hint =>
    if arg.typeName = hint ∧ hint ≠ objectName then some 0 else
    match arg.cls with
    | none => none
    | some valClass =>
      let isTarget : ClassId → Bool :=
        match h.globals hint with
        | some t => fun clz => clz == t
        | none => fun clz => h.name clz == hint
      match chainDistance h isTarget (h.classes.length + 1) (some valClass) 0 with
      | some dist => some dist
      | none => if hint = objectName then some OBJECT_UNIVERSAL_DISTANCE else none

/-- The loop of `score_param_types` over the parameters, `score` so far; a parameter without an
entry in `elem_tags` requires no tag. -/
def scoreParams (h : Hierarchy) : List Hint → List (Option τ) → List (Arg τ) → ℤ → Option ℤ
  | [], _, _, score => some score
  | _ :: _, _, [], _ => none
  | hint :: hints, elemTags, arg :: args, score =>
    match typeDistanceOf h arg hint with
    | none => none
    | some dist =>
      match elemTags.head?.join with
      | none => scoreParams h hints elemTags.tail args (score + 2 * dist)
      | some required =>
        if arg.elemTag = some required then
          scoreParams h hints elemTags.tail args (score + 2 * dist - 1)
        else none

/-- `score_param_types`. -/
def scoreParamTypes (h : Hierarchy) (paramTypes : List Hint) (elemTags : List (Option τ))
    (args : List (Arg τ)) : Option ℤ :=
  if args.length < paramTypes.length then none else scoreParams h paramTypes elemTags args 0

/-- `match_score`. -/
def matchScore (h : Hierarchy) (args : List (Arg τ)) (methodVal : Variant τ E) :
    Except E (Option Score) :=
  match methodVal.body with
  | .native (some paramTypes) =>
    .ok ((scoreParamTypes h paramTypes [] args).map fun s => toLex (s, 1))
  | .native none => .ok (some (toLex (i64Max, 1)))
  | .user paramTypes elemTags declBlock =>
    match scoreParamTypes h paramTypes elemTags args with
    | none => .ok none
    | some paramScore =>
      match declBlock with
      | none => .ok (some (toLex (paramScore, 1)))
      | some guard => do
        if ← guard then pure (some (toLex (paramScore, 0))) else pure none

/-- The candidates that apply, each with its score. -/
def scoreCandidates (h : Hierarchy) (args : List (Arg τ)) :
    List (Variant τ E) → Except E (List (Variant τ E × Score))
  | [] => .ok []
  | methodVal :: candidates => do
    let score ← matchScore h args methodVal
    let applicable ← scoreCandidates h args candidates
    pure ((score.map fun s => (methodVal, s)).toList ++ applicable)

/-- The scoring half of `resolve_in_class`. -/
def resolveInClass (h : Hierarchy) (args : List (Arg τ)) (classRef : ClassId)
    (candidates : List (Variant τ E)) : Except (DispatchError τ E) (Option (Variant τ E)) :=
  match scoreCandidates h args candidates with
  | .error e => .error (.guard e)
  | .ok applicable =>
    match (applicable.map Prod.snd).min? with
    | none => .ok none
    | some minScore =>
      let atMin := (applicable.filter fun a => a.2 = minScore).map Prod.fst
      if 2 ≤ atMin.length ∧ (ofLex minScore).1 ≠ i64Max then
        .error (.ambiguousMethod classRef atMin)
      else .ok atMin.head?

/-- A send to an instance of `c`, the chain of its selector being `chains k` on the class `k`. -/
def dispatch (h : Hierarchy) (chains : ClassId → List (Variant τ E)) (args : List (Arg τ))
    (c : ClassId) :
    Option (Except (DispatchError τ E) (Option (Variant τ E)) × List ClassId) :=
  lookupMethod h (fun classRef => resolveInClass h args classRef (chains classRef)) c

end Scores

/-! ## Chains without guards -/

section Guardless

variable {τ E : Type} [DecidableEq τ] {h : Hierarchy} {args : List (Arg τ)}
  {chain chain' : List (Variant τ E)} {v : Variant τ E} {k : ClassId} {s : ℤ}

def Variant.declBlock (v : Variant τ E) : Option (Except E Bool) :=
  match v.body with
  | .user _ _ declBlock => declBlock
  | .native _ => none

/-- How well a variant without a guard applies, lower is better. -/
def Variant.score (h : Hierarchy) (args : List (Arg τ)) (v : Variant τ E) : Option ℤ :=
  match v.body with
  | .user paramTypes elemTags _ => scoreParamTypes h paramTypes elemTags args
  | .native (some paramTypes) => scoreParamTypes h paramTypes [] args
  | .native none => some i64Max

def Guardless (chain : List (Variant τ E)) : Prop := ∀ v ∈ chain, v.declBlock = none

/-- A score as `match_score` ranks it. -/
def unguarded (s : ℤ) : Score := toLex (s, 1)

theorem unguarded_strictMono : StrictMono unguarded := fun _ _ hlt => Prod.Lex.left 1 1 hlt

theorem matchScore_guardless (hv : v.declBlock = none) :
    matchScore h args v = .ok ((v.score h args).map unguarded) := by
  obtain ⟨method, body⟩ := v
  rcases body with ⟨paramTypes, elemTags, declBlock⟩ | _ | paramTypes
  · obtain rfl : declBlock = none := hv
    rw [matchScore, Variant.score]
    dsimp only
    cases scoreParamTypes h paramTypes elemTags args <;> rfl
  · rfl
  · rfl

theorem scoreCandidates_guardless (hChain : Guardless chain) :
    scoreCandidates h args chain =
      .ok (chain.filterMap fun v => ((v.score h args).map unguarded).map fun s => (v, s)) := by
  induction chain with
  | nil => rfl
  | cons v chain ih =>
    have hv : v.declBlock = none := hChain v List.mem_cons_self
    have hRest : Guardless chain := fun w hw => hChain w (List.mem_cons_of_mem v hw)
    rw [scoreCandidates, matchScore_guardless hv, ih hRest]
    cases hScore : v.score h args <;> simp [hScore] <;> rfl

/-- What the scores come to: the lowest, in the order of the chain. -/
theorem resolveInClass_nil (hChain : Guardless chain)
    (hLow : leastBy (Variant.score h args) chain = []) :
    resolveInClass h args k chain = .ok none := by
  have hNone := leastBy_eq_nil_iff.mp hLow
  have hEmpty : (chain.filterMap fun v => ((v.score h args).map unguarded).map fun s => (v, s))
      = [] := by
    refine List.filterMap_eq_nil_iff.mpr fun v hv => ?_
    rw [hNone v hv]
    rfl
  rw [resolveInClass, scoreCandidates_guardless hChain, hEmpty]
  rfl

theorem resolveInClass_low (hChain : Guardless chain)
    (hv : v ∈ leastBy (Variant.score h args) chain) (hScore : v.score h args = some s) :
    resolveInClass h args k chain =
      if 2 ≤ (leastBy (Variant.score h args) chain).length ∧ s ≠ i64Max then
        .error (.ambiguousMethod k (leastBy (Variant.score h args) chain))
      else .ok (leastBy (Variant.score h args) chain).head? := by
  -- without guards a score is ranked by its types alone
  let rank (v : Variant τ E) : Option Score := (v.score h args).map unguarded
  have hRank : leastBy rank chain = leastBy (Variant.score h args) chain :=
    leastBy_map unguarded_strictMono
  have hMin : (chain.filterMap rank).min? = some (unguarded s) := by
    obtain ⟨hMem, low, hLow, hLowest⟩ := mem_leastBy.mp (hRank ▸ hv)
    have hSame : rank v = some (unguarded s) := by
      show (v.score h args).map unguarded = _
      rw [hScore]
      rfl
    rw [hSame] at hLow
    obtain rfl := Option.some.inj hLow
    exact min_filterMap_iff.mpr ⟨⟨v, hMem, hSame⟩, hLowest⟩
  -- the scores listed are the ranks
  have hScores : ((chain.filterMap fun v => (rank v).map fun s => (v, s)).map Prod.snd)
      = chain.filterMap rank := by
    rw [List.map_filterMap]
    refine List.filterMap_congr fun w _ => ?_
    cases rank w <;> rfl
  -- who has the lowest rank
  have hAtMin : (((chain.filterMap fun v => (rank v).map fun s => (v, s)).filter
      fun a => a.2 = unguarded s).map Prod.fst) = leastBy rank chain := by
    rw [leastBy_eq hMin]
    generalize chain = ws
    induction ws with
    | nil => rfl
    | cons w ws ih =>
      cases hw : rank w with
      | none => simp [hw, ih]
      | some s' =>
        by_cases hs : s' = unguarded s <;> simp [hw, hs, ih]
  rw [resolveInClass, scoreCandidates_guardless hChain]
  dsimp only
  rw [hScores, hMin]
  dsimp only
  rw [hAtMin, hRank]
  rfl

end Guardless

/-! ## The walk -/

/-- The classes in the order in which the walk from `c` goes through them. -/
def walkOrder (h : Hierarchy) (c : ClassId) : List ClassId :=
  searchOrder h.links (h.classes.length + 1) c

section Walk

variable {E M : Type} {own : ClassId → Except E (Option M)} {h : Hierarchy} {c k : ClassId}
  {before after : List ClassId}

/-- A lookup answers what the first class of its order answers that does. -/
theorem lookupMethod_eq (own : ClassId → Except E (Option M)) (hc : c < h.classes.length) :
    ∃ last, lookupMethod h own c =
      some (lookupOutcome ((walkOrder h c).findSome? (ownAnswer own), last)) := by
  obtain ⟨last, hSearch⟩ := search_first (ownAnswer own) Hierarchy.links_range
    (Finset.mem_range.mpr hc) (by rw [Finset.card_range]; exact Nat.lt_succ_self _)
  exact ⟨last, by rw [lookupMethod, lookupRec_eq, hSearch]; rfl⟩

theorem ownAnswer_eq_none (hNone : own k = .ok none) : ownAnswer own k = none := by
  rw [ownAnswer, hNone]

/-- The walk passes what resolves nothing, to the end. -/
theorem lookupMethod_none (hc : c < h.classes.length)
    (hNone : ∀ k ∈ walkOrder h c, own k = .ok none) :
    ∃ visited, lookupMethod h own c = some (.ok none, visited) := by
  obtain ⟨last, hEq⟩ := lookupMethod_eq own hc
  have hFind : (walkOrder h c).findSome? (ownAnswer own) = none :=
    List.findSome?_eq_none_iff.mpr fun k hk => ownAnswer_eq_none (hNone k hk)
  rw [hFind] at hEq
  exact ⟨last, hEq⟩

/-- The walk ends at the first class that resolves the send, or raises. -/
theorem lookupMethod_first (hc : c < h.classes.length)
    (hOrder : walkOrder h c = before ++ k :: after) (hBefore : ∀ j ∈ before, own j = .ok none)
    (hHere : own k ≠ .ok none) :
    ∃ visited, lookupMethod h own c = some (own k, visited) := by
  obtain ⟨last, hEq⟩ := lookupMethod_eq own hc
  have hFind : (walkOrder h c).findSome? (ownAnswer own) = ownAnswer own k := by
    have hPassed : before.findSome? (ownAnswer own) = none :=
      List.findSome?_eq_none_iff.mpr fun j hj => ownAnswer_eq_none (hBefore j hj)
    rw [hOrder, List.findSome?_append, hPassed, Option.none_or, List.findSome?_cons]
    cases hOwn : ownAnswer own k with
    | some answer => rfl
    | none =>
      exfalso
      rw [ownAnswer] at hOwn
      rcases hk : own k with e | _ | m
      · simp [hk] at hOwn
      · exact hHere hk
      · simp [hk] at hOwn
  rw [hFind] at hEq
  refine ⟨last, hEq.trans ?_⟩
  rw [ownAnswer]
  rcases hk : own k with e | _ | m
  · rfl
  · exact absurd hk hHere
  · rfl

end Walk

/-! ## The variant that is run -/

section Selection

variable {τ E : Type} [DecidableEq τ]

/-- The first class on the walk from `c` that has a variant that applies. -/
def FirstApplicable (h : Hierarchy) (chains : ClassId → List (Variant τ E))
    (args : List (Arg τ)) (c k : ClassId) : Prop :=
  ∃ before after, walkOrder h c = before ++ k :: after ∧
    (∀ j ∈ before, ∀ v ∈ chains j, v.score h args = none) ∧
    ∃ v ∈ chains k, v.score h args ≠ none

/-- `v` applies, and scores strictly below every other variant of the chain that does. -/
def StrictlyLowest (h : Hierarchy) (args : List (Arg τ)) (chain : List (Variant τ E))
    (v : Variant τ E) : Prop :=
  ∃ left right s, chain = left ++ v :: right ∧ v.score h args = some s ∧
    ∀ w ∈ left ++ right, ∀ s', w.score h args = some s' → s < s'

/-- Two variants of the chain share its lowest score, `s`. -/
def TieAt (h : Hierarchy) (args : List (Arg τ)) (chain : List (Variant τ E)) (s : ℤ) : Prop :=
  ∃ left v middle w right, chain = left ++ v :: middle ++ w :: right ∧
    v.score h args = some s ∧ w.score h args = some s ∧
      LowestScore (Variant.score h args) chain s

/-- A variant that ranks last, at `i64::MAX`: one without a signature. -/
def Fallback (h : Hierarchy) (args : List (Arg τ)) (v : Variant τ E) : Bool :=
  v.score h args = some i64Max

/-- Two answers that differ at most in the order in which an error lists the candidates. -/
def SameAnswer : Except (DispatchError τ E) (Option (Variant τ E)) →
    Except (DispatchError τ E) (Option (Variant τ E)) → Prop
  | .ok m, .ok m' => m = m'
  | .error (.ambiguousMethod k low), .error (.ambiguousMethod k' low') => k = k' ∧ low.Perm low'
  | _, _ => False

variable {h : Hierarchy} {args : List (Arg τ)} {chain chain' : List (Variant τ E)}
  {v : Variant τ E} {k c : ClassId} {s : ℤ}

/-- What a class with a variant that applies answers. -/
structure Selected (h : Hierarchy) (args : List (Arg τ)) (chain : List (Variant τ E))
    (answer : Except (DispatchError τ E) (Option (Variant τ E))) : Prop where
  lowest : ∀ v, StrictlyLowest h args chain v → answer = .ok (some v)
  ambiguous : (∃ e, answer = .error e) ↔ ∃ s, TieAt h args chain s ∧ s ≠ i64Max
  fallback : TieAt h args chain i64Max → answer = .ok (chain.find? (Fallback h args))

/-- The lowest of a chain that has a variant that applies, with the score they share. -/
theorem exists_low (hSome : ∃ v ∈ chain, v.score h args ≠ none) :
    ∃ v s, v ∈ leastBy (Variant.score h args) chain ∧ v.score h args = some s ∧
      leastBy (Variant.score h args) chain = chain.filter fun w => w.score h args = some s := by
  obtain ⟨w, hw, hScore⟩ := hSome
  have hNot : leastBy (Variant.score h args) chain ≠ [] := fun hNil =>
    hScore (leastBy_eq_nil_iff.mp hNil w hw)
  obtain ⟨v, hv⟩ := List.exists_mem_of_ne_nil _ hNot
  obtain ⟨hMem, s, hs, hLow⟩ := mem_leastBy.mp hv
  exact ⟨v, s, hv, hs, leastBy_eq (min_filterMap_iff.mpr ⟨⟨v, hMem, hs⟩, hLow⟩)⟩

/-- A tie is at the score of the lowest. -/
theorem tieAt_iff (hv : v ∈ leastBy (Variant.score h args) chain) (hs : v.score h args = some s)
    {s' : ℤ} : TieAt h args chain s' ↔
      s' = s ∧ 2 ≤ (leastBy (Variant.score h args) chain).length := by
  obtain ⟨hMem, low, hLowScore, hLow⟩ := mem_leastBy.mp hv
  obtain rfl : low = s := Option.some.inj (hLowScore.symm.trans hs)
  constructor
  · rintro ⟨left, x, middle, y, right, hChain, hx, hy, hLow'⟩
    have hxMem : x ∈ chain := by
      rw [hChain]
      simp
    exact ⟨le_antisymm (hLow' v hMem low hs) (hLow x hxMem s' hx),
      two_le_leastBy_iff.mpr ⟨left, x, middle, y, right, s', hChain, hx, hy, hLow'⟩⟩
  · rintro ⟨rfl, hTwo⟩
    obtain ⟨left, x, middle, y, right, s, hChain, hx, hy, hLow'⟩ := two_le_leastBy_iff.mp hTwo
    have hxMem : x ∈ chain := by
      rw [hChain]
      simp
    obtain rfl : s = s' := le_antisymm (hLow' v hMem s' hs) (hLow x hxMem s hx)
    exact ⟨left, x, middle, y, right, hChain, hx, hy, hLow'⟩

theorem resolveInClass_selected (hChain : Guardless chain)
    (hSome : ∃ v ∈ chain, v.score h args ≠ none) :
    Selected h args chain (resolveInClass h args k chain) := by
  obtain ⟨v, s, hv, hs, hLow⟩ := exists_low hSome
  rw [resolveInClass_low hChain hv hs]
  constructor
  · -- the one that scores below the others is the only lowest
    intro w hw
    have hOne := leastBy_eq_singleton_iff.mpr hw
    rw [hOne, if_neg (by simp)]
    rfl
  · constructor
    · rintro ⟨e, hError⟩
      split_ifs at hError with hTie
      exact ⟨s, (tieAt_iff hv hs).mpr ⟨rfl, hTie.1⟩, hTie.2⟩
    · rintro ⟨s', hTie, hMax⟩
      obtain ⟨rfl, hTwo⟩ := (tieAt_iff hv hs).mp hTie
      rw [if_pos ⟨hTwo, hMax⟩]
      exact ⟨_, rfl⟩
  · intro hTie
    obtain ⟨rfl, -⟩ := (tieAt_iff hv hs).mp hTie
    rw [if_neg fun hBoth => hBoth.2 rfl, hLow, List.head?_filter]
    rfl

/-- A class resolves the send exactly where one of its variants applies. -/
theorem resolveInClass_eq_none_iff (hChain : Guardless chain) :
    resolveInClass h args k chain = .ok none ↔ ∀ v ∈ chain, v.score h args = none := by
  constructor
  · intro hNone v hv
    by_contra hScore
    obtain ⟨w, s, hw, hs, -⟩ := exists_low ⟨v, hv, hScore⟩
    rw [resolveInClass_low hChain hw hs] at hNone
    split_ifs at hNone
    have hHead : (leastBy (Variant.score h args) chain).head? = none := by
      injection hNone
    rw [List.head?_eq_none_iff.mp hHead] at hw
    exact List.not_mem_nil hw
  · intro hNone
    exact resolveInClass_nil hChain (leastBy_eq_nil_iff.mpr hNone)

/-- The order of a chain matters only among its fallbacks. -/
theorem resolveInClass_perm (hChain : Guardless chain) (hPerm : chain'.Perm chain)
    (hFallback : chain'.filter (Fallback h args) = chain.filter (Fallback h args)) :
    SameAnswer (resolveInClass h args k chain) (resolveInClass h args k chain') := by
  have hChain' : Guardless chain' := fun v hv => hChain v (hPerm.mem_iff.mp hv)
  have hLows : (leastBy (Variant.score h args) chain').Perm
      (leastBy (Variant.score h args) chain) := leastBy_perm hPerm
  by_cases hNone : ∀ v ∈ chain, v.score h args = none
  · rw [(resolveInClass_eq_none_iff hChain).mpr hNone,
      (resolveInClass_eq_none_iff hChain').mpr fun v hv => hNone v (hPerm.mem_iff.mp hv)]
    rfl
  have hSome : ∃ v ∈ chain, v.score h args ≠ none := by simpa using hNone
  obtain ⟨v, s, hv, hs, hLow⟩ := exists_low hSome
  have hv' : v ∈ leastBy (Variant.score h args) chain' := hLows.mem_iff.mpr hv
  rw [resolveInClass_low hChain hv hs, resolveInClass_low hChain' hv' hs, hLows.length_eq]
  split_ifs with hTie
  · exact ⟨rfl, hLows.symm⟩
  · by_cases hTwo : 2 ≤ (leastBy (Variant.score h args) chain).length
    · -- the lowest are the fallbacks, and those come in the same order
      obtain rfl : s = i64Max := by
        by_contra hMax
        exact hTie ⟨hTwo, hMax⟩
      have hLow' : leastBy (Variant.score h args) chain' = chain'.filter (Fallback h args) := by
        obtain ⟨hMem, low, hLowScore, hLowest⟩ := mem_leastBy.mp hv'
        obtain rfl := Option.some.inj (hLowScore.symm.trans hs)
        exact leastBy_eq (min_filterMap_iff.mpr ⟨⟨v, hMem, hs⟩, hLowest⟩)
      have hHeads : (leastBy (Variant.score h args) chain).head?
          = (leastBy (Variant.score h args) chain').head? := by
        rw [hLow, hLow', hFallback]
        rfl
      exact hHeads
    · -- there is only one lowest
      have hOne : (leastBy (Variant.score h args) chain).length = 1 := by
        have := List.length_pos_of_mem hv
        omega
      obtain ⟨w, hw⟩ := List.length_eq_one_iff.mp hOne
      rw [hw] at hLows ⊢
      rw [List.perm_singleton.mp hLows]
      rfl

/-- Either no class on the walk has a variant that applies, or one is the first. -/
theorem none_or_first (chains : ClassId → List (Variant τ E)) (c : ClassId) :
    (∀ k ∈ walkOrder h c, ∀ v ∈ chains k, v.score h args = none) ∨
      ∃ k, FirstApplicable h chains args c k := by
  let applies (k : ClassId) : Bool := (chains k).any fun v => v.score h args |>.isSome
  have hApplies (k : ClassId) : applies k = true ↔ ∃ v ∈ chains k, v.score h args ≠ none := by
    simp [applies, Option.isSome_iff_ne_none]
  cases hFind : (walkOrder h c).find? applies with
  | none =>
    refine .inl fun k hk v hv => ?_
    by_contra hScore
    have hNot := List.find?_eq_none.mp hFind k hk
    exact hNot ((hApplies k).mpr ⟨v, hv, hScore⟩)
  | some k =>
    obtain ⟨hk, before, after, hOrder, hBefore⟩ := List.find?_eq_some_iff_append.mp hFind
    refine .inr ⟨k, before, after, hOrder, fun j hj v hv => ?_, (hApplies k).mp hk⟩
    by_contra hScore
    have hNot : applies j = false := by simpa using hBefore j hj
    rw [(hApplies j).mpr ⟨v, hv, hScore⟩] at hNot
    contradiction

theorem dispatch_none {chains : ClassId → List (Variant τ E)} (hc : c < h.classes.length)
    (hGuardless : ∀ k, Guardless (chains k))
    (hNone : ∀ k ∈ walkOrder h c, ∀ v ∈ chains k, v.score h args = none) :
    ∃ visited, dispatch h chains args c = some (.ok none, visited) :=
  lookupMethod_none hc fun k hk => (resolveInClass_eq_none_iff (hGuardless k)).mpr (hNone k hk)

theorem dispatch_first {chains : ClassId → List (Variant τ E)} (hc : c < h.classes.length)
    (hGuardless : ∀ k, Guardless (chains k)) (hFirst : FirstApplicable h chains args c k) :
    ∃ visited, dispatch h chains args c
      = some (resolveInClass h args k (chains k), visited) := by
  obtain ⟨before, after, hOrder, hBefore, v, hv, hScore⟩ := hFirst
  refine @lookupMethod_first _ _ (fun k => resolveInClass h args k (chains k)) _ _ _ _ _ hc hOrder
    (fun j hj => (resolveInClass_eq_none_iff (hGuardless j)).mpr (hBefore j hj)) fun hNone => ?_
  exact hScore ((resolveInClass_eq_none_iff (hGuardless k)).mp hNone v hv)

/-- **Multimethod selection.** A send resolves to nothing where no class on the walk has a variant
that applies. Otherwise the first class that has one decides: for the variant that scores strictly
below the others of that class that apply, for an ambiguity exactly where two share the lowest
score and it is not `i64::MAX`, and for the first fallback where they share that one. Chains with
the same variants in another order, the fallbacks in the same, give the same answer. -/
theorem dispatch_selects {chains : ClassId → List (Variant τ E)} (hc : c < h.classes.length)
    (hGuardless : ∀ k, Guardless (chains k)) :
    ∃ answer visited, dispatch h chains args c = some (answer, visited) ∧
      ((∀ k ∈ walkOrder h c, ∀ v ∈ chains k, v.score h args = none) → answer = .ok none) ∧
      (∀ k, FirstApplicable h chains args c k → Selected h args (chains k) answer) ∧
      ∀ chains' : ClassId → List (Variant τ E), (∀ k, (chains' k).Perm (chains k)) →
        (∀ k, (chains' k).filter (Fallback h args) = (chains k).filter (Fallback h args)) →
        ∃ answer' visited', dispatch h chains' args c = some (answer', visited') ∧
          SameAnswer answer answer' := by
  rcases none_or_first chains c with hNone | ⟨k, hFirst⟩
  · obtain ⟨visited, hAnswer⟩ := dispatch_none hc hGuardless hNone
    refine ⟨.ok none, visited, hAnswer, fun _ => rfl, ?_, ?_⟩
    · rintro k ⟨before, after, hOrder, -, v, hv, hScore⟩
      have hk : k ∈ walkOrder h c := by
        rw [hOrder]
        simp
      exact absurd (hNone k hk v hv) hScore
    · intro chains' hPerm _
      have hGuardless' : ∀ k, Guardless (chains' k) := fun k v hv =>
        hGuardless k v ((hPerm k).mem_iff.mp hv)
      obtain ⟨visited', hAnswer'⟩ := dispatch_none hc hGuardless' fun k hk v hv =>
        hNone k hk v ((hPerm k).mem_iff.mp hv)
      exact ⟨.ok none, visited', hAnswer', rfl⟩
  · obtain ⟨visited, hAnswer⟩ := dispatch_first hc hGuardless hFirst
    refine ⟨_, visited, hAnswer, ?_, ?_, ?_⟩
    · intro hNone
      obtain ⟨before, after, hOrder, -, v, hv, hScore⟩ := hFirst
      have hk : k ∈ walkOrder h c := by
        rw [hOrder]
        simp
      exact absurd (hNone k hk v hv) hScore
    · intro k' hFirst'
      -- whichever class is the first, the walk gives its answer
      obtain ⟨visited', hAnswer'⟩ := dispatch_first hc hGuardless hFirst'
      have hSame : resolveInClass h args k (chains k) = resolveInClass h args k' (chains k') := by
        rw [hAnswer] at hAnswer'
        exact (Prod.mk.inj (Option.some.inj hAnswer')).1
      obtain ⟨-, -, -, -, hSome⟩ := hFirst'
      rw [hSame]
      exact resolveInClass_selected (hGuardless k') hSome
    · intro chains' hPerm hFallback
      have hGuardless' : ∀ k, Guardless (chains' k) := fun k v hv =>
        hGuardless k v ((hPerm k).mem_iff.mp hv)
      obtain ⟨before, after, hOrder, hBefore, v, hv, hScore⟩ := hFirst
      have hFirst' : FirstApplicable h chains' args c k :=
        ⟨before, after, hOrder, fun j hj w hw => hBefore j hj w ((hPerm j).mem_iff.mp hw),
          v, (hPerm k).mem_iff.mpr hv, hScore⟩
      obtain ⟨visited', hAnswer'⟩ := dispatch_first hc hGuardless' hFirst'
      exact ⟨_, visited', hAnswer', resolveInClass_perm (hGuardless k) (hPerm k) (hFallback k)⟩

end Selection

/-! ## Two fallbacks -/

/-- "Object" alone. -/
def onlyObject : Hierarchy where
  classes := [⟨objectName, none, []⟩]
  parent_lt := by decide
  mixin_lt := by decide
  rooted := by decide
  names := by decide

/-- A native method without a signature. -/
def legacy (method : Nat) : Variant Nat Unit := ⟨method, .native none⟩

/-- A native method that takes an "Object". -/
def typed (method : Nat) : Variant Nat Unit := ⟨method, .native (some [.base objectName])⟩

def anObject : Arg Nat := ⟨objectName, false, some 0, none⟩

/-- Of two fallbacks and a variant that takes an "Object", an object gets the last. -/
theorem dispatch_selects_typed :
    ∃ visited, dispatch onlyObject (fun _ => [legacy 0, typed 1, legacy 2]) [anObject] 0
      = some (.ok (some (typed 1)), visited) := by
  have hGuardless : ∀ _ : ClassId, Guardless [legacy 0, typed 1, legacy 2] := by
    intro _ v hv
    simp only [List.mem_cons, List.not_mem_nil, or_false] at hv
    rcases hv with rfl | rfl | rfl <;> rfl
  have hFirst :
      FirstApplicable onlyObject (fun _ => [legacy 0, typed 1, legacy 2]) [anObject] 0 0 :=
    ⟨[], [], by decide +kernel, by simp, typed 1, by simp, by decide +kernel⟩
  have hLowest : StrictlyLowest onlyObject [anObject] [legacy 0, typed 1, legacy 2] (typed 1) := by
    refine ⟨[legacy 0], [legacy 2], 0, rfl, by decide +kernel, fun w hw s hs => ?_⟩
    simp only [List.cons_append, List.nil_append, List.mem_cons, List.not_mem_nil, or_false] at hw
    rcases hw with rfl | rfl <;> obtain rfl := Option.some.inj hs <;> decide
  obtain ⟨answer, visited, hAnswer, -, hSelected, -⟩ :=
    @dispatch_selects Nat Unit _ onlyObject [anObject] 0 _ (by decide) hGuardless
  rw [(hSelected 0 hFirst).lowest (typed 1) hLowest] at hAnswer
  exact ⟨visited, hAnswer⟩

/-- Two native methods without a signature share the lowest score, and nothing is raised: the
first of the chain is run, so that the order of the chain decides. -/
theorem signatureless_first :
    TieAt onlyObject [] [legacy 0, legacy 1] i64Max ∧
    dispatch onlyObject (fun _ => [legacy 0, legacy 1]) [] 0 = some (.ok (some (legacy 0)), [0]) ∧
    dispatch onlyObject (fun _ => [legacy 1, legacy 0]) [] 0 = some (.ok (some (legacy 1)), [0]) :=
  ⟨⟨[], legacy 0, [], legacy 1, [], rfl, rfl, rfl, by
      intro v hv s hs
      simp only [List.mem_cons, List.not_mem_nil, or_false] at hv
      rcases hv with rfl | rfl <;> exact (Option.some.inj hs).le⟩,
    rfl, rfl⟩

end Quoin.Classes
