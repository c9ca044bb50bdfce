import Mathlib

/-!
# Trans — dropping repeated elements

`distinct` goes through a list and keeps the elements that no element kept
before meets. Whether one meets another is a test that may raise, and need not
be an equivalence. Where a kept element stands for those it has dropped, going
through the kept ones answers what going through all of them does
(`meets_distinct`).
-/

namespace Trans

variable {α E : Type} (test : α → α → Except E Bool)

/-- Whether an element of the list meets `x`: the list is gone through up to the first that does. -/
def meets : List α → α → Except E Bool
  | [], _ => .ok false
  | a :: l, x => do if ← test a x then return true else meets l x

/-- The kept elements, and `x` if none of them meets it. -/
def keep (kept : List α) (x : α) : Except E (List α) := do
  if ← meets test kept x then return kept else return kept ++ [x]

def distinct (l : List α) : Except E (List α) := l.foldlM (keep test) []

variable {test} {test' : α → α → Except E Bool} {x : α} {l kept : List α}

theorem meets_congr (h : ∀ a ∈ l, test a x = test' a x) : meets test l x = meets test' l x := by
  induction l with
  | nil => rfl
  | cons a l ih =>
    rw [meets, meets, h a List.mem_cons_self, ih fun b hb => h b (List.mem_cons_of_mem a hb)]

theorem meets_singleton {a : α} : meets test [a] x = test a x := by
  rw [meets, meets]
  rcases test a x with _ | _ | _ <;> rfl

theorem meets_append (l l' : List α) (x : α) : meets test (l ++ l') x
    = meets test l x >>= fun b => if b then pure true else meets test l' x := by
  induction l with
  | nil => rfl
  | cons a l ih =>
    rw [List.cons_append, meets, meets, ih]
    rcases test a x with _ | _ | _ <;> rfl

theorem meets_eq_false : meets test l x = .ok false ↔ ∀ a ∈ l, test a x = .ok false := by
  induction l with
  | nil => simp [meets]
  | cons a l ih =>
    rw [meets, List.forall_mem_cons, ← ih]
    rcases h : test a x with _ | _ | _ <;> simp [bind, Except.bind, pure, Except.pure]

theorem exists_of_meets (h : meets test l x = .ok true) : ∃ a ∈ l, test a x = .ok true := by
  induction l with
  | nil => cases h
  | cons a l ih =>
    rw [meets] at h
    rcases hTest : test a x with e | _ | _ <;> rw [hTest] at h
    · cases h
    · obtain ⟨b, hb, hMeets⟩ := ih h
      exact ⟨b, List.mem_cons_of_mem a hb, hMeets⟩
    · exact ⟨a, List.mem_cons_self, hTest⟩

theorem distinct_append_singleton (l : List α) (x : α) :
    distinct test (l ++ [x]) = distinct test l >>= fun kept => keep test kept x := by
  rw [distinct, List.foldlM_append]
  refine congrArg (distinct test l >>= ·) (funext fun kept => ?_)
  rw [List.foldlM_cons]
  rcases keep test kept x with _ | _ <;> rfl

/-- What a turn keeps. -/
theorem keep_ok {kept' : List α} (h : keep test kept x = .ok kept') :
    (meets test kept x = .ok true ∧ kept' = kept) ∨
      (meets test kept x = .ok false ∧ kept' = kept ++ [x]) := by
  rw [keep] at h
  rcases hMeets : meets test kept x with e | _ | _ <;> rw [hMeets] at h <;> cases h
  · exact .inr ⟨rfl, rfl⟩
  · exact .inl ⟨rfl, rfl⟩

theorem distinct_subset (h : distinct test l = .ok kept) : kept ⊆ l := by
  induction l using List.reverseRecOn generalizing kept with
  | nil =>
    cases h
    exact List.Subset.refl _
  | append_singleton l x ih =>
    rw [distinct_append_singleton] at h
    rcases hBefore : distinct test l with e | before <;> rw [hBefore] at h
    · cases h
    have hSub := ih hBefore
    have hKeep : keep test before x = .ok kept := h
    obtain ⟨-, rfl⟩ | ⟨-, rfl⟩ := keep_ok hKeep
    · exact fun a ha => List.mem_append_left _ (hSub ha)
    · exact fun a ha => (List.mem_append.mp ha).elim (fun h => List.mem_append_left _ (hSub h))
        (List.mem_append_right _)

theorem length_distinct (h : distinct test l = .ok kept) : kept.length ≤ l.length := by
  induction l using List.reverseRecOn generalizing kept with
  | nil =>
    cases h
    exact Nat.le_refl 0
  | append_singleton l x ih =>
    rw [distinct_append_singleton] at h
    rcases hBefore : distinct test l with e | before <;> rw [hBefore] at h
    · cases h
    have hLength := ih hBefore
    have hKeep : keep test before x = .ok kept := h
    obtain ⟨-, rfl⟩ | ⟨-, rfl⟩ := keep_ok hKeep
    · rw [List.length_append]
      omega
    · rw [List.length_append, List.length_append]
      omega

/-- Only how the elements of the list meet one another matters. -/
theorem distinct_congr (h : ∀ a ∈ l, ∀ b ∈ l, test a b = test' a b) :
    distinct test l = distinct test' l := by
  induction l using List.reverseRecOn with
  | nil => rfl
  | append_singleton l x ih =>
    rw [distinct_append_singleton, distinct_append_singleton,
      ← ih fun a ha b hb => h a (List.mem_append_left _ ha) b (List.mem_append_left _ hb)]
    rcases hBefore : distinct test l with e | before
    · rfl
    · have hMeets : meets test before x = meets test' before x :=
        meets_congr fun a ha =>
          h a (List.mem_append_left _ (distinct_subset hBefore ha)) x (by simp)
      show keep test before x = keep test' before x
      rw [keep, keep, hMeets]

/-- **The kept ones stand for all.** -/
theorem meets_distinct (h : distinct test l = .ok kept)
    (hStands : ∀ a ∈ l, ∀ b ∈ l, test a b = .ok true → test a x = .ok false →
      test b x = .ok false) : meets test kept x = meets test l x := by
  induction l using List.reverseRecOn generalizing kept with
  | nil =>
    cases h
    rfl
  | append_singleton l y ih =>
    rw [distinct_append_singleton] at h
    rcases hBefore : distinct test l with e | before <;> rw [hBefore] at h
    · cases h
    have hSub := distinct_subset hBefore
    have hSame := ih hBefore fun a ha b hb =>
      hStands a (List.mem_append_left _ ha) b (List.mem_append_left _ hb)
    rw [meets_append, ← hSame]
    have hKeep : keep test before y = .ok kept := h
    obtain ⟨hMeets, rfl⟩ | ⟨-, rfl⟩ := keep_ok hKeep
    · -- `y` is dropped: whoever meets it stands for it
      rcases hKept : meets test kept x with e | _ | _
      · rfl
      · obtain ⟨a, ha, hay⟩ := exists_of_meets hMeets
        have hy := hStands a (List.mem_append_left _ (hSub ha)) y (by simp) hay
          (meets_eq_false.mp hKept a ha)
        exact (meets_eq_false.mpr (by simpa using hy)).symm
      · rfl
    · rw [meets_append]

end Trans
