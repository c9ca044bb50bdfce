import Mathlib

/-!
# Quoin — a list, split at a separator

The pieces of a list between the occurrences of a separator, the leftmost occurrences that
do not overlap. Joined by the separator they are the list again (`join_split`). Where no
occurrence starts, the list stays in one piece (`split_append`).
-/

namespace Trans

variable {α : Type} [DecidableEq α] (sep : List α)

/-- The pieces, with so many elements left to skip of an occurrence. -/
def splitFrom : Nat → List α → List (List α)
  | _, [] => [[]]
  | skip + 1, _ :: s => splitFrom skip s
  | 0, a :: s =>
    if sep <+: a :: s then [] :: splitFrom (sep.length - 1) s
    else (splitFrom 0 s).modifyHead (a :: ·)

/-- The pieces between the occurrences of a separator that is not empty. -/
def split (s : List α) : List (List α) := splitFrom sep 0 s

variable {sep} {a : α} {s t : List α}

theorem split_nil : split sep [] = [[]] := rfl

theorem splitFrom_succ_cons (skip : Nat) (a : α) (s : List α) :
    splitFrom sep (skip + 1) (a :: s) = splitFrom sep skip s := rfl

theorem split_start (h : sep <+: a :: s) :
    split sep (a :: s) = [] :: splitFrom sep (sep.length - 1) s := if_pos h

theorem split_cons (h : ¬sep <+: a :: s) : split sep (a :: s) =
    (split sep s).modifyHead (a :: ·) := if_neg h

theorem splitFrom_skip (s t : List α) : splitFrom sep s.length (s ++ t) = split sep t := by
  induction s with
  | nil => rfl
  | cons a s ih =>
    rw [List.length_cons, List.cons_append, splitFrom_succ_cons]
    exact ih

/-- At an occurrence a piece ends. -/
theorem split_sep (hSep : sep ≠ []) (s : List α) : split sep (sep ++ s) = [] :: split sep s := by
  cases sep with
  | nil => exact absurd rfl hSep
  | cons c sep =>
    rw [List.cons_append, split_start (by simp)]
    exact congrArg _ (splitFrom_skip sep s)

/-- Elements at which no occurrence starts go to the first piece. -/
theorem split_append (s t : List α) (h : ∀ u v, s = u ++ v → v ≠ [] → ¬sep <+: v ++ t) :
    split sep (s ++ t) = (split sep t).modifyHead (s ++ ·) := by
  induction s with
  | nil => cases hSplit : split sep t <;> simp [hSplit]
  | cons a s ih =>
    have hRest := ih fun u v hEq hNe => h (a :: u) v (by rw [hEq, List.cons_append]) hNe
    rw [List.cons_append, split_cons (a := a) (s := s ++ t)
      (h [] (a :: s) rfl (List.cons_ne_nil _ _)), hRest]
    cases hSplit : split sep t <;> simp

theorem split_ne_nil (hSep : sep ≠ []) (s : List α) : split sep s ≠ [] := by
  induction hLength : s.length using Nat.strong_induction_on generalizing s with
  | _ n ih =>
    subst hLength
    cases s with
    | nil => simp [split_nil]
    | cons a s =>
      by_cases hOccurs : sep <+: a :: s
      · obtain ⟨t, hEq⟩ := hOccurs
        rw [← hEq, split_sep hSep]
        exact List.cons_ne_nil _ _
      · rw [split_cons hOccurs]
        have hRest := ih s.length (by simp) s rfl
        cases hSplit : split sep s with
        | nil => exact absurd hSplit hRest
        | cons => simp

/-- Joined by the separator, the pieces are the list. -/
theorem join_split (hSep : sep ≠ []) (s : List α) : sep.intercalate (split sep s) = s := by
  induction hLength : s.length using Nat.strong_induction_on generalizing s with
  | _ n ih =>
    subst hLength
    cases s with
    | nil => simp [split_nil]
    | cons a s =>
      by_cases hOccurs : sep <+: a :: s
      · obtain ⟨t, hEq⟩ := hOccurs
        have hShorter : t.length < (a :: s).length := by
          rw [← hEq, List.length_append]
          have := List.length_pos_iff.mpr hSep
          omega
        have hRest := ih t.length hShorter t rfl
        rw [← hEq, split_sep hSep]
        cases hSplit : split sep t with
        | nil => exact absurd hSplit (split_ne_nil hSep t)
        | cons p ps =>
          rw [hSplit] at hRest
          simp only [List.intercalate_cons_cons, List.nil_append]
          rw [hRest]
      · have hRest := ih s.length (by simp) s rfl
        rw [split_cons hOccurs]
        cases hSplit : split sep s with
        | nil => exact absurd hSplit (split_ne_nil hSep s)
        | cons p ps =>
          rw [hSplit] at hRest
          cases ps with
          | nil => simpa using hRest
          | cons q qs =>
            simp only [List.modifyHead_cons, List.intercalate_cons_cons, List.cons_append]
              at hRest ⊢
            rw [hRest]

/-- A list in one piece holds no separator. -/
theorem not_infix_of_split (hSep : sep ≠ []) {s r : List α} (h : split sep s = [r]) :
    ¬sep <:+: s := by
  induction s generalizing r with
  | nil => simpa using hSep
  | cons a s ih =>
    by_cases hOccurs : sep <+: a :: s
    · obtain ⟨t, hEq⟩ := hOccurs
      rw [← hEq, split_sep hSep] at h
      exact absurd (List.cons.inj h).2 (split_ne_nil hSep t)
    · rw [split_cons hOccurs] at h
      rw [List.infix_cons_iff, not_or]
      refine ⟨hOccurs, ?_⟩
      cases hSplit : split sep s with
      | nil => exact absurd hSplit (split_ne_nil hSep s)
      | cons p ps =>
        rw [hSplit, List.modifyHead_cons, List.cons.injEq] at h
        rw [h.2] at hSplit
        exact ih hSplit

/-- The first piece is the whole list, or the list goes on with a separator. -/
theorem split_first (hSep : sep ≠ []) (s : List α) : ∃ r ps, split sep s = r :: ps ∧
    (r = s ∧ ¬sep <:+: s ∨ ∃ t, s = r ++ sep ++ t) := by
  cases hSplit : split sep s with
  | nil => exact absurd hSplit (split_ne_nil hSep s)
  | cons r ps =>
    refine ⟨r, ps, rfl, ?_⟩
    have hJoin := join_split hSep s
    rw [hSplit] at hJoin
    cases ps with
    | nil =>
      rw [List.intercalate_singleton] at hJoin
      exact .inl ⟨hJoin, not_infix_of_split hSep hSplit⟩
    | cons p ps =>
      rw [List.intercalate_cons_cons] at hJoin
      exact .inr ⟨_, hJoin.symm⟩

/-- No occurrence starts where the first element of the separator does not stand. -/
theorem split_append_of_not_mem {c : α} {cs : List α} (h : c ∉ s) :
    split (c :: cs) (s ++ t) = (split (c :: cs) t).modifyHead (s ++ ·) := by
  refine split_append s t fun u v hEq hNe hOccurs => h ?_
  cases v with
  | nil => exact absurd rfl hNe
  | cons d v =>
    rw [List.cons_append, List.cons_prefix_cons] at hOccurs
    rw [hEq, hOccurs.1]
    simp

theorem split_of_not_mem {c : α} {cs : List α} (h : c ∉ s) : split (c :: cs) s = [s] := by
  have hSplit : split (c :: cs) (s ++ []) = (split (c :: cs) []).modifyHead (s ++ ·) :=
    split_append_of_not_mem h
  rw [List.append_nil] at hSplit
  rw [hSplit]
  simp [split_nil]

theorem split_at {c : α} {cs : List α} (h : c ∉ s) :
    split (c :: cs) (s ++ (c :: cs ++ t)) = s :: split (c :: cs) t := by
  rw [split_append_of_not_mem h, split_sep (List.cons_ne_nil c cs)]
  simp

theorem split_at_one {c : α} (h : c ∉ s) : split [c] (s ++ c :: t) = s :: split [c] t := by
  have hSplit : split [c] (s ++ ([c] ++ t)) = s :: split [c] t := split_at h
  simpa using hSplit

/-- Split at a single element, two lists that it joins come apart. -/
theorem split_append_cons (c : α) (s t : List α) :
    split [c] (s ++ c :: t) = split [c] s ++ split [c] t := by
  induction s with
  | nil => exact split_sep (List.cons_ne_nil c []) t
  | cons a s ih =>
    by_cases hSep : c = a
    · subst hSep
      rw [List.cons_append]
      have hLeft : split [c] (c :: s) = [] :: split [c] s := split_sep (List.cons_ne_nil c []) s
      have hWhole : split [c] (c :: (s ++ c :: t)) = [] :: split [c] (s ++ c :: t) :=
        split_sep (List.cons_ne_nil c []) (s ++ c :: t)
      rw [hLeft, hWhole, ih, List.cons_append]
    · have hNone : ∀ u : List α, ¬[c] <+: a :: u := fun u h =>
        hSep (List.cons_prefix_cons.mp h).1
      rw [List.cons_append, split_cons (hNone _), split_cons (hNone s), ih]
      cases hSplit : split [c] s with
      | nil => exact absurd hSplit (split_ne_nil (List.cons_ne_nil c []) s)
      | cons => rfl

/-- The pieces at a single element do not hold it. -/
theorem not_mem_of_mem_split {c : α} {s p : List α} (h : p ∈ split [c] s) : c ∉ p := by
  induction s generalizing p with
  | nil =>
    rw [split_nil, List.mem_singleton] at h
    simp [h]
  | cons a s ih =>
    by_cases hSep : [c] <+: a :: s
    · rw [split_start hSep] at h
      rcases List.mem_cons.mp h with rfl | h
      · exact List.not_mem_nil
      · exact ih h
    · rw [split_cons hSep] at h
      have hNe : c ≠ a := fun hEq => hSep (by simp [hEq])
      cases hSplit : split [c] s with
      | nil => exact absurd hSplit (split_ne_nil (List.cons_ne_nil c []) s)
      | cons q qs =>
        rw [hSplit] at h ih
        rw [List.modifyHead_cons] at h
        rcases List.mem_cons.mp h with rfl | h
        · exact List.not_mem_cons_of_ne_of_not_mem hNe (ih List.mem_cons_self)
        · exact ih (List.mem_cons_of_mem _ h)

/-- Pieces that do not hold the element come back from the list that it joins. -/
theorem split_join {c : α} {ps : List (List α)} (hNe : ps ≠ []) (h : ∀ p ∈ ps, c ∉ p) :
    split [c] ([c].intercalate ps) = ps := by
  induction ps with
  | nil => exact absurd rfl hNe
  | cons p ps ih =>
    cases ps with
    | nil =>
      have hOne : split [c] p = [p] := split_of_not_mem (h p List.mem_cons_self)
      simpa using hOne
    | cons q qs =>
      rw [List.intercalate_cons_cons, List.append_assoc]
      have hRest := ih (List.cons_ne_nil q qs) fun x hx => h x (List.mem_cons_of_mem _ hx)
      have hSplit := split_at_one (t := [c].intercalate (q :: qs)) (h p List.mem_cons_self)
      rw [hRest] at hSplit
      exact hSplit

theorem takeWhile_ne {c : α} (h : c ∉ s) (t : List α) :
    (s ++ t).takeWhile (· ≠ c) = s ++ t.takeWhile (· ≠ c) :=
  List.takeWhile_append_of_pos fun _ ha => decide_eq_true fun hEq => h (hEq ▸ ha)

/-- The first piece at a single element. -/
theorem split_head (c : α) (s : List α) :
    ∃ ps, split [c] s = s.takeWhile (· ≠ c) :: ps := by
  by_cases hMem : c ∈ s
  · obtain ⟨u, v, rfl, hu⟩ := List.eq_append_cons_of_mem hMem
    refine ⟨split [c] v, ?_⟩
    rw [takeWhile_ne hu, split_at_one hu]
    simp
  · refine ⟨[], ?_⟩
    have hAll := takeWhile_ne hMem []
    rw [List.append_nil] at hAll
    rw [split_of_not_mem hMem, hAll]
    simp

end Trans
