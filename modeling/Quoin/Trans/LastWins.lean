import Mathlib

/-!
# Quoin — the last one of a key wins

A list to which entries are added one after the other. Some entries have a key: one of
these takes the place of the entry that has its key, if there is one. Everything else goes
to the end. What a history of additions leaves is told by its keys in the order in which
they first came, by the last entry of each key, and by the entries without one.
-/

namespace Trans

variable {α κ : Type} [DecidableEq κ] (key : α → Option κ)

/-- Adds `b`: in the place of the first entry with its key, or at the end. -/
def supersede : List α → α → List α
  | [], b => [b]
  | a :: l, b => if key b ≠ none ∧ key a = key b then b :: l else a :: supersede l b

/-- Adds what is no key, or a key that is new. -/
def addKey (ks : List (Option κ)) (k : Option κ) : List (Option κ) :=
  if k ≠ none ∧ k ∈ ks then ks else ks ++ [k]

/-- The keys of a history in the order in which they first came, with everything that is none. -/
def firstKeys (ks : List (Option κ)) : List (Option κ) := ks.foldl addKey []

/-- What a history of additions leaves. -/
structure LastWins (history result : List α) : Prop where
  /-- Everything is in the place that its key, or itself, first had. -/
  order : result.map key = firstKeys (history.map key)
  /-- Each key has one entry, the last that was added. -/
  last : ∀ k, result.filter (key · = some k) = (history.filter (key · = some k)).getLast?.toList
  /-- Everything without a key is kept. -/
  kept : result.filter (key · = none) = history.filter (key · = none)

section Add

variable {key} (l : List α) (b : α)

theorem supersede_none (hNone : key b = none) : supersede key l b = l ++ [b] := by
  induction l with
  | nil => rfl
  | cons a l ih => rw [supersede, if_neg (fun h => h.1 hNone), ih, List.cons_append]

theorem map_supersede : (supersede key l b).map key = addKey (l.map key) (key b) := by
  induction l with
  | nil => simp [supersede, addKey]
  | cons a l ih =>
    by_cases hSame : key b ≠ none ∧ key a = key b
    · simp [supersede, addKey, hSame.1, hSame.2]
    · rw [supersede, if_neg hSame, List.map_cons, ih]
      unfold addKey
      by_cases hKnown : key b ≠ none ∧ key b ∈ l.map key
      · rw [if_pos hKnown, if_pos ⟨hKnown.1, List.mem_cons_of_mem _ hKnown.2⟩, List.map_cons]
      · have hNew : ¬(key b ≠ none ∧ key b ∈ (a :: l).map key) := by
          rintro ⟨hKey, hMem⟩
          rcases List.mem_cons.mp hMem with hHead | hTail
          · exact hSame ⟨hKey, hHead.symm⟩
          · exact hKnown ⟨hKey, hTail⟩
        rw [if_neg hKnown, if_neg hNew, List.map_cons, List.cons_append]

/-- Entries with other keys, or without, stay as they are. -/
theorem filter_supersede_other {k : Option κ} (hOther : key b ≠ k) :
    (supersede key l b).filter (key · = k) = l.filter (key · = k) := by
  induction l with
  | nil => simp [supersede, hOther]
  | cons a l ih =>
    by_cases hSame : key b ≠ none ∧ key a = key b
    · simp [supersede, hSame.1, hSame.2, hOther]
    · rw [supersede, if_neg hSame, List.filter_cons, List.filter_cons, ih]

theorem filter_supersede_none (hNone : key b = none) :
    (supersede key l b).filter (key · = none) = l.filter (key · = none) ++ [b] := by
  simp [supersede_none l b hNone, List.filter_append, hNone]

/-- With at most one entry of its key, an entry stands alone afterwards. -/
theorem filter_supersede_self {k : κ} (hKey : key b = some k)
    (hOne : (l.filter (key · = some k)).length ≤ 1) :
    (supersede key l b).filter (key · = some k) = [b] := by
  induction l with
  | nil => simp [supersede, hKey]
  | cons a l ih =>
    by_cases hSame : key a = key b
    · have hRest : l.filter (key · = some k) = [] := by
        simpa [List.filter_cons, hSame, hKey] using hOne
      rw [supersede, if_pos ⟨by simp [hKey], hSame⟩, List.filter_cons, hRest]
      simp [hKey]
    · have hTest : ¬key a = some k := by rwa [hKey] at hSame
      rw [supersede, if_neg (fun h => hSame h.2), List.filter_cons]
      simp only [hTest, decide_false, Bool.false_eq_true, if_false]
      refine ih ?_
      simpa [List.filter_cons, hTest] using hOne

end Add

theorem length_foldl_addKey_le (ks acc : List (Option κ)) :
    (ks.foldl addKey acc).length ≤ acc.length + ks.length := by
  induction ks generalizing acc with
  | nil => simp
  | cons k ks ih =>
    have hRest := ih (addKey acc k)
    have hOne : (addKey acc k).length ≤ acc.length + 1 := by
      unfold addKey
      split <;> simp
    simp only [List.foldl_cons, List.length_cons]
    omega

variable {key}

namespace LastWins

variable {history result : List α}

theorem single (a : α) : LastWins key [a] [a] where
  order := by simp [firstKeys, addKey]
  last k := by
    by_cases h : key a = some k <;> simp [h]
  kept := rfl

/-- A history goes on. -/
theorem add (h : LastWins key history result) (b : α) :
    LastWins key (history ++ [b]) (supersede key result b) where
  order := by
    rw [map_supersede, h.order, List.map_append, firstKeys, firstKeys, List.foldl_append]
    rfl
  last k := by
    by_cases hKey : key b = some k
    · have hOne : (result.filter (key · = some k)).length ≤ 1 := by
        rw [h.last k]
        cases (history.filter (key · = some k)).getLast? <;> simp
      rw [filter_supersede_self result b hKey hOne]
      simp [List.filter_append, hKey]
    · rw [filter_supersede_other result b hKey, h.last k]
      simp [List.filter_append, hKey]
  kept := by
    by_cases hKey : key b = none
    · rw [filter_supersede_none result b hKey, h.kept]
      simp [List.filter_append, hKey]
    · rw [filter_supersede_other result b hKey, h.kept]
      simp [List.filter_append, hKey]

theorem length_le (h : LastWins key history result) : result.length ≤ history.length := by
  have hLength := length_foldl_addKey_le (history.map key) []
  rw [← firstKeys, ← h.order] at hLength
  simpa using hLength

/-- No two entries have one key. -/
theorem unique (h : LastWins key history result) (k : κ) :
    (result.filter (key · = some k)).length ≤ 1 := by
  rw [h.last k]
  cases (history.filter (key · = some k)).getLast? <;> simp

end LastWins

end Trans
