import Mathlib

/-!
# Lists of entries with distinct keys

What an insertion-ordered map or set is: a list of entries, in the order they were
put, no two with equal keys. `eq` need not be equality; what it has to be is stated
where it matters.
-/

namespace Ordered

variable {α K : Type} (key : α → K) (eq : K → K → Bool)

/-- The position of the first entry with a key. -/
def find (k : K) (l : List α) : Option Nat := l.findIdx? fun a => eq (key a) k

def get (k : K) (l : List α) : Option α := (find key eq k l).bind fun i => l[i]?

/-- Changes the entry with a key, or puts a new one after the others. -/
def put (k : K) (f : α → α) (a : α) (l : List α) : List α :=
  match find key eq k l with
  | some i => l.modify i f
  | none => l ++ [a]

def remove (k : K) (l : List α) : List α :=
  match find key eq k l with
  | some i => l.eraseIdx i
  | none => l

def Distinct (l : List α) : Prop := l.Pairwise fun a b => eq (key a) (key b) = false

variable {key eq} {k k' : K} {f : α → α} {a : α} {l : List α} {i : Nat}

theorem find_none (hNone : find key eq k l = none) : ∀ a ∈ l, eq (key a) k = false := by
  intro a ha
  simpa using List.findIdx?_eq_none_iff.mp hNone a ha

theorem find_some (hSome : find key eq k l = some i) :
    ∃ a, l[i]? = some a ∧ eq (key a) k = true := by
  obtain ⟨hLt, hEq, -⟩ := List.findIdx?_eq_some_iff_getElem.mp hSome
  exact ⟨l[i], List.getElem?_eq_getElem hLt, hEq⟩

theorem distinct_nil : Distinct key eq [] := List.Pairwise.nil

/-- Changing what is not a key leaves the keys. -/
theorem map_key_modify (hf : ∀ a, key (f a) = key a) : (l.modify i f).map key = l.map key := by
  refine List.ext_getElem? fun j => ?_
  rw [List.getElem?_map, List.getElem?_map, List.getElem?_modify]
  cases l[j]? with
  | none => rfl
  | some a =>
    by_cases hij : i = j
    · simp [hij, hf]
    · simp [hij]

theorem distinct_iff :
    Distinct key eq l ↔ (l.map key).Pairwise fun j k => eq j k = false := by
  unfold Distinct
  rw [List.pairwise_map]

theorem distinct_put (hf : ∀ a, key (f a) = key a) (ha : key a = k) (hl : Distinct key eq l) :
    Distinct key eq (put key eq k f a l) := by
  unfold put
  split
  · rw [distinct_iff, map_key_modify hf]
    exact distinct_iff.mp hl
  · rename_i hNone
    refine List.pairwise_append.mpr ⟨hl, List.pairwise_singleton _ _, ?_⟩
    intro b hb c hc
    obtain rfl := List.mem_singleton.mp hc
    exact ha ▸ find_none hNone b hb

theorem mem_put {b : α} (hb : b ∈ put key eq k f a l) : b = a ∨ b ∈ l ∨ ∃ c ∈ l, b = f c := by
  unfold put at hb
  split at hb
  · obtain ⟨i, hi⟩ := List.mem_iff_getElem?.mp hb
    rw [List.getElem?_modify] at hi
    obtain ⟨c, hc, rfl⟩ := Option.map_eq_some_iff.mp hi
    have hMem := List.mem_of_getElem? hc
    split
    · exact .inr (.inr ⟨c, hMem, rfl⟩)
    · exact .inr (.inl hMem)
  · rcases List.mem_append.mp hb with hOld | hNew
    · exact .inr (.inl hOld)
    · exact .inl (List.mem_singleton.mp hNew)

theorem mem_remove {b : α} (hb : b ∈ remove key eq k l) : b ∈ l := by
  unfold remove at hb
  split at hb
  · exact List.mem_of_mem_eraseIdx hb
  · exact hb

/-- A key is found where an equal one is. -/
theorem find_congr (hEq : ∀ a ∈ l, eq (key a) k = eq (key a) k') :
    find key eq k l = find key eq k' l := by
  induction l with
  | nil => rfl
  | cons b l ih =>
    have hRest : ∀ a ∈ l, eq (key a) k = eq (key a) k' := fun a ha => hEq a (by simp [ha])
    have ih := ih hRest
    unfold find at ih ⊢
    rw [List.findIdx?_cons, List.findIdx?_cons, hEq b (by simp), ih]

theorem find_map : find key eq k l = (l.map key).findIdx? fun j => eq j k := by
  rw [List.findIdx?_map]
  rfl

theorem find_modify (hf : ∀ a, key (f a) = key a) :
    find key eq k (l.modify i f) = find key eq k l := by
  rw [find_map, find_map, map_key_modify hf]

/-- What has been put under a key is there under an equal one. -/
theorem get_put (hf : ∀ a, key (f a) = key a) (ha : key a = k) (hEq : eq k k' = true)
    (hSame : ∀ a ∈ l, eq (key a) k = eq (key a) k') :
    ∃ b, get key eq k' (put key eq k f a l) = some b ∧ (b = a ∨ ∃ c ∈ l, b = f c) := by
  have hFind : find key eq k l = find key eq k' l := find_congr hSame
  unfold put get
  cases hk : find key eq k l with
  | some i =>
    obtain ⟨c, hc, -⟩ := find_some hk
    refine ⟨f c, ?_, .inr ⟨c, List.mem_of_getElem? hc, rfl⟩⟩
    show (find key eq k' (l.modify i f)).bind (fun j => (l.modify i f)[j]?) = _
    rw [find_modify hf, ← hFind, hk, Option.bind_some, List.getElem?_modify_eq, hc]
    rfl
  | none =>
    have hLast : find key eq k' (l ++ [a]) = some l.length := by
      have hRest : List.findIdx? (fun a => eq (key a) k') l = none :=
        hFind.symm.trans hk
      unfold find
      rw [List.findIdx?_append, hRest, List.findIdx?_singleton, ha, hEq]
      simp
    refine ⟨a, ?_, .inl rfl⟩
    show (find key eq k' (l ++ [a])).bind (fun j => (l ++ [a])[j]?) = _
    rw [hLast]
    simp

/-! ## Runs that answer -/

section Outcomes

variable {S S' A O : Type} {step : S → A → O × S} {step' : S' → A → O × S'} {P : S → A → Prop}
  {R : S → S' → Prop} {s : S} {s' : S'}

/-- The answers of a run, and where it ends. -/
def outcomes (step : S → A → O × S) : S → List A → List O × S
  | s, [] => ([], s)
  | s, a :: as => ((step s a).1 :: (outcomes step (step s a).2 as).1,
      (outcomes step (step s a).2 as).2)

/-- A condition that each step of a run meets. -/
def Throughout (step : S → A → O × S) (P : S → A → Prop) : S → List A → Prop
  | _, [] => True
  | s, a :: as => P s a ∧ Throughout step P (step s a).2 as

instance decidableThroughout [∀ s a, Decidable (P s a)] :
    ∀ s as, Decidable (Throughout step P s as)
  | _, [] => isTrue trivial
  | s, a :: as =>
    have := decidableThroughout (step s a).2 as
    inferInstanceAs (Decidable (P s a ∧ Throughout step P (step s a).2 as))

/-- A condition on the actions alone is met throughout. -/
theorem throughout_and {Q : A → Prop} {as : List A} (hQ : ∀ a ∈ as, Q a)
    (hP : Throughout step P s as) : Throughout step (fun s a => Q a ∧ P s a) s as := by
  induction as generalizing s with
  | nil => trivial
  | cons a as ih => exact ⟨⟨hQ a (by simp), hP.1⟩, ih (fun b hb => hQ b (by simp [hb])) hP.2⟩

theorem Throughout.mono {P' : S → A → Prop} (hP : ∀ s a, P s a → P' s a) {as : List A}
    (h : Throughout step P s as) : Throughout step P' s as := by
  induction as generalizing s with
  | nil => trivial
  | cons a as ih => exact ⟨hP s a h.1, ih h.2⟩

/-- What each step preserves, a run does. -/
theorem outcomes_invariant {I : S → Prop} (hStep : ∀ s a, I s → P s a → I (step s a).2)
    (as : List A) : ∀ {s}, I s → Throughout step P s as → I (outcomes step s as).2 := by
  induction as with
  | nil => exact fun hI _ => hI
  | cons a as ih =>
    rintro s hI ⟨hP, hRest⟩
    exact ih (hStep s a hI hP) hRest

/-- A run answers what another one does that it simulates step by step. -/
theorem outcomes_refine
    (hStep : ∀ s s' a, R s s' → P s a → (step s a).1 = (step' s' a).1 ∧
      R (step s a).2 (step' s' a).2) (as : List A) :
    ∀ {s s'}, R s s' → Throughout step P s as →
      (outcomes step s as).1 = (outcomes step' s' as).1 ∧
        R (outcomes step s as).2 (outcomes step' s' as).2 := by
  induction as with
  | nil => exact fun hR _ => ⟨rfl, hR⟩
  | cons a as ih =>
    rintro s s' hR ⟨hP, hRest⟩
    obtain ⟨hAnswer, hR'⟩ := hStep s s' a hR hP
    obtain ⟨hAnswers, hEnd⟩ := ih hR' hRest
    exact ⟨congrArg₂ _ hAnswer hAnswers, hEnd⟩

/-- A run meets a condition throughout if one that it simulates meets a condition that implies
it. -/
theorem throughout_refine {P' : S' → A → Prop} (hP : ∀ s s' a, R s s' → P' s' a → P s a)
    (hStep : ∀ s s' a, R s s' → P s a → R (step s a).2 (step' s' a).2) (as : List A) :
    ∀ {s s'}, R s s' → Throughout step' P' s' as → Throughout step P s as := by
  induction as with
  | nil => exact fun _ _ => trivial
  | cons a as ih =>
    rintro s s' hR ⟨hFirst, hRest⟩
    have hHere := hP s s' a hR hFirst
    exact ⟨hHere, ih (hStep s s' a hR hHere) hRest⟩

end Outcomes

end Ordered
