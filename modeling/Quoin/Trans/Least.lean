import Mathlib

/-!
# Trans — the least of a list by a score

A score orders the members of a list that have one, and some of them are
lowest. `leastBy` keeps these, in the order of the list. Which members they
are does not depend on that order (`leastBy_perm`); there is one exactly where
some member scores strictly below the others (`leastBy_eq_singleton_iff`), and
several exactly where two members tie for the lowest (`two_le_leastBy_iff`).
-/

namespace Trans

variable {α S : Type} [LinearOrder S]

/-- The members of `xs` with the lowest score. -/
def leastBy (score : α → Option S) (xs : List α) : List α :=
  match (xs.filterMap score).min? with
  | none => []
  | some low => xs.filter fun x => score x = some low

/-- Nothing in `xs` scores below `s`. -/
def LowestScore (score : α → Option S) (xs : List α) (s : S) : Prop :=
  ∀ x ∈ xs, ∀ s', score x = some s' → s ≤ s'

variable {score : α → Option S} {xs ys left middle right : List α} {x y : α} {s low : S}

theorem min_filterMap_iff :
    (xs.filterMap score).min? = some low ↔
      (∃ x ∈ xs, score x = some low) ∧ LowestScore score xs low := by
  rw [List.min?_eq_some_iff, List.mem_filterMap]
  constructor
  · rintro ⟨hMem, hLow⟩
    exact ⟨hMem, fun x hx s' hs' => hLow s' (List.mem_filterMap.mpr ⟨x, hx, hs'⟩)⟩
  · rintro ⟨hMem, hLow⟩
    refine ⟨hMem, fun s' hs' => ?_⟩
    obtain ⟨x, hx, hScore⟩ := List.mem_filterMap.mp hs'
    exact hLow x hx s' hScore

theorem min_filterMap_none : (xs.filterMap score).min? = none ↔ ∀ x ∈ xs, score x = none := by
  rw [List.min?_eq_none_iff, List.filterMap_eq_nil_iff]

theorem leastBy_eq (h : (xs.filterMap score).min? = some low) :
    leastBy score xs = xs.filter fun x => score x = some low := by
  rw [leastBy, h]

theorem leastBy_eq_nil_iff : leastBy score xs = [] ↔ ∀ x ∈ xs, score x = none := by
  cases h : (xs.filterMap score).min? with
  | none =>
    rw [leastBy, h]
    exact ⟨fun _ => min_filterMap_none.mp h, fun _ => rfl⟩
  | some low =>
    rw [leastBy_eq h]
    obtain ⟨⟨x, hx, hScore⟩, -⟩ := min_filterMap_iff.mp h
    constructor
    · intro hNil
      have hIn : x ∈ xs.filter fun x => decide (score x = some low) :=
        List.mem_filter.mpr ⟨hx, by simpa using hScore⟩
      rw [hNil] at hIn
      exact absurd hIn (List.not_mem_nil)
    · intro hNone
      rw [hNone x hx] at hScore
      contradiction

theorem mem_leastBy :
    x ∈ leastBy score xs ↔ x ∈ xs ∧ ∃ low, score x = some low ∧ LowestScore score xs low := by
  cases h : (xs.filterMap score).min? with
  | none =>
    have hNil := leastBy_eq_nil_iff.mpr (min_filterMap_none.mp h)
    rw [hNil]
    refine ⟨fun hIn => absurd hIn List.not_mem_nil, fun ⟨hx, low, hScore, _⟩ => ?_⟩
    rw [min_filterMap_none.mp h x hx] at hScore
    contradiction
  | some low =>
    obtain ⟨⟨y, hy, hyScore⟩, hLow⟩ := min_filterMap_iff.mp h
    rw [leastBy_eq h, List.mem_filter, decide_eq_true_iff]
    constructor
    · rintro ⟨hx, hScore⟩
      exact ⟨hx, low, hScore, hLow⟩
    · rintro ⟨hx, low', hScore, hLow'⟩
      have hSame : low' = low := le_antisymm (hLow' y hy low hyScore) (hLow x hx low' hScore)
      exact ⟨hx, hSame ▸ hScore⟩

/-- Scoring on another scale that keeps the order changes nothing. -/
theorem leastBy_map {T : Type} [LinearOrder T] {g : S → T} (hg : StrictMono g) :
    leastBy (fun x => (score x).map g) xs = leastBy score xs := by
  cases h : (xs.filterMap score).min? with
  | none =>
    have hNone := min_filterMap_none.mp h
    rw [leastBy_eq_nil_iff.mpr hNone]
    exact leastBy_eq_nil_iff.mpr fun x hx => by rw [hNone x hx]; rfl
  | some low =>
    obtain ⟨⟨x, hx, hScore⟩, hLow⟩ := min_filterMap_iff.mp h
    have hMapped : (xs.filterMap fun x => (score x).map g).min? = some (g low) := by
      refine min_filterMap_iff.mpr ⟨⟨x, hx, by rw [hScore]; rfl⟩, fun y hy s' hs' => ?_⟩
      obtain ⟨s, hs, rfl⟩ := Option.map_eq_some_iff.mp hs'
      exact hg.monotone (hLow y hy s hs)
    rw [leastBy_eq hMapped, leastBy_eq h]
    refine List.filter_congr fun y _ => ?_
    have hSame : (score y).map g = some (g low) ↔ score y = some low := by
      rw [← Option.map_some]
      exact (Option.map_injective hg.injective).eq_iff
    exact decide_eq_decide.mpr hSame

theorem min_perm (h : xs.Perm ys) : (xs.filterMap score).min? = (ys.filterMap score).min? := by
  have hScores := h.filterMap score
  generalize xs.filterMap score = ss, ys.filterMap score = ss' at hScores
  cases hMin : ss'.min? with
  | none =>
    rw [List.min?_eq_none_iff] at hMin ⊢
    rw [hMin] at hScores
    exact hScores.eq_nil
  | some low =>
    rw [List.min?_eq_some_iff] at hMin ⊢
    exact ⟨hScores.mem_iff.mpr hMin.1, fun s hs => hMin.2 s (hScores.mem_iff.mp hs)⟩

/-- The lowest are the same in whatever order. -/
theorem leastBy_perm (h : xs.Perm ys) : (leastBy score xs).Perm (leastBy score ys) := by
  unfold leastBy
  rw [min_perm h]
  cases (ys.filterMap score).min? with
  | none => exact .refl []
  | some low => exact h.filter _

/-- One is lowest exactly where it scores strictly below all the others. -/
theorem leastBy_eq_singleton_iff :
    leastBy score xs = [x] ↔ ∃ left right s, xs = left ++ x :: right ∧ score x = some s ∧
      ∀ y ∈ left ++ right, ∀ s', score y = some s' → s < s' := by
  constructor
  · intro hOne
    cases h : (xs.filterMap score).min? with
    | none =>
      rw [leastBy, h] at hOne
      contradiction
    | some low =>
      obtain ⟨-, hLow⟩ := min_filterMap_iff.mp h
      rw [leastBy_eq h] at hOne
      obtain ⟨left, right, rfl, hLeft, hx, hRight⟩ := List.filter_eq_cons_iff.mp hOne
      refine ⟨left, right, low, rfl, by simpa using hx, fun y hy s' hs' => ?_⟩
      have hAll : y ∈ left ++ x :: right := by
        rcases List.mem_append.mp hy with hy | hy
        · exact List.mem_append_left _ hy
        · exact List.mem_append_right _ (List.mem_cons_of_mem _ hy)
      -- only `x` is at the lowest score
      have hNot : score y ≠ some low := by
        rcases List.mem_append.mp hy with hy | hy
        · simpa using hLeft y hy
        · have hNil := List.filter_eq_nil_iff.mp hRight y hy
          simpa using hNil
      refine lt_of_le_of_ne (hLow y hAll s' hs') ?_
      rintro rfl
      exact hNot hs'
  · rintro ⟨left, right, s, rfl, hScore, hBelow⟩
    have hMin : ((left ++ x :: right).filterMap score).min? = some s := by
      refine min_filterMap_iff.mpr ⟨⟨x, by simp, hScore⟩, fun y hy s' hs' => ?_⟩
      rcases List.mem_append.mp hy with hy | hy
      · exact (hBelow y (List.mem_append_left _ hy) s' hs').le
      · rcases List.mem_cons.mp hy with rfl | hy
        · rw [hScore] at hs'
          exact (Option.some.inj hs').le
        · exact (hBelow y (List.mem_append_right _ hy) s' hs').le
    have hOther : ∀ y ∈ left ++ right, ¬ score y = some s := fun y hy hs' =>
      lt_irrefl s (hBelow y hy s hs')
    have hLeft : left.filter (fun y => decide (score y = some s)) = [] :=
      List.filter_eq_nil_iff.mpr fun y hy => by
        simpa using hOther y (List.mem_append_left _ hy)
    have hRight : right.filter (fun y => decide (score y = some s)) = [] :=
      List.filter_eq_nil_iff.mpr fun y hy => by
        simpa using hOther y (List.mem_append_right _ hy)
    rw [leastBy_eq hMin, List.filter_append, hLeft, List.filter_cons_of_pos (by simpa using hScore),
      hRight]
    rfl

/-- Several are lowest exactly where two members tie for the lowest score. -/
theorem two_le_leastBy_iff :
    2 ≤ (leastBy score xs).length ↔ ∃ left x middle y right s,
      xs = left ++ x :: middle ++ y :: right ∧ score x = some s ∧ score y = some s ∧
        LowestScore score xs s := by
  constructor
  · intro hTwo
    cases h : (xs.filterMap score).min? with
    | none =>
      rw [leastBy, h] at hTwo
      exact absurd hTwo (by simp)
    | some low =>
      obtain ⟨-, hLow⟩ := min_filterMap_iff.mp h
      rw [leastBy_eq h] at hTwo
      rcases hList : xs.filter fun x => decide (score x = some low) with
        _ | ⟨x, _ | ⟨y, rest⟩⟩
      · rw [hList] at hTwo
        simp at hTwo
      · rw [hList] at hTwo
        simp at hTwo
      · obtain ⟨left, tail, rfl, -, hx, hTail⟩ := List.filter_eq_cons_iff.mp hList
        obtain ⟨middle, right, rfl, -, hy, -⟩ := List.filter_eq_cons_iff.mp hTail
        exact ⟨left, x, middle, y, right, low, by simp, by simpa using hx, by simpa using hy, hLow⟩
  · rintro ⟨left, x, middle, y, right, s, rfl, hx, hy, hLow⟩
    have hMin := min_filterMap_iff.mpr
      ⟨⟨x, by simp, hx⟩, hLow⟩
    rw [leastBy_eq hMin, List.filter_append, List.filter_append,
      List.filter_cons_of_pos (by simpa using hx), List.filter_cons_of_pos (by simpa using hy)]
    simp only [List.length_append, List.length_cons]
    omega

end Trans
