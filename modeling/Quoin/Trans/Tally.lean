import Mathlib

/-!
# Trans — tallies

How much of something a list of places holds in all, when each place holds
`f` of it: `tally f l`. A state with several lists of places conserves what it
holds when the tallies of an operation add up the same before and after, and
that is linear arithmetic once each list's own change is known — one place
rewritten (`tally_set`, `tally_modify`), one place more (`tally_append`), some
places gone (`tally_filter`).
-/

namespace Trans

variable {α : Type}

/-- What the places of a list hold together. -/
def tally (f : α → Nat) (l : List α) : Nat := (l.map f).sum

@[simp] theorem tally_nil (f : α → Nat) : tally f [] = 0 := rfl

@[simp] theorem tally_cons (f : α → Nat) (a : α) (l : List α) :
    tally f (a :: l) = f a + tally f l := by
  simp [tally]

@[simp] theorem tally_append (f : α → Nat) (l l' : List α) :
    tally f (l ++ l') = tally f l + tally f l' := by
  simp [tally]

variable {f g : α → Nat} {l : List α} {n : Nat} {a b : α}

theorem le_tally (h : a ∈ l) : f a ≤ tally f l := by
  induction l with
  | nil => cases h
  | cons x rest ih =>
    rw [tally_cons]
    rcases List.mem_cons.mp h with rfl | h
    · omega
    · have := ih h
      omega

theorem le_tally_of_getElem? (h : l[n]? = some a) : f a ≤ tally f l :=
  le_tally (List.mem_of_getElem? h)

theorem tally_pos (h : 0 < tally f l) : ∃ a ∈ l, 0 < f a := by
  induction l with
  | nil => cases h
  | cons x rest ih =>
    rw [tally_cons] at h
    by_cases hx : 0 < f x
    · exact ⟨x, List.mem_cons_self, hx⟩
    · obtain ⟨a, ha, hpos⟩ := ih (by omega)
      exact ⟨a, List.mem_cons_of_mem _ ha, hpos⟩

theorem tally_eq_zero (h : ∀ a ∈ l, f a = 0) : tally f l = 0 := by
  by_contra hne
  obtain ⟨a, ha, hpos⟩ := tally_pos (Nat.pos_of_ne_zero hne)
  have := h a ha
  omega

/-- One place is rewritten. -/
theorem tally_set (h : l[n]? = some a) : tally f (l.set n b) + f a = tally f l + f b := by
  induction l generalizing n with
  | nil => cases h
  | cons x rest ih =>
    cases n with
    | zero =>
      rw [List.getElem?_cons_zero, Option.some.injEq] at h
      subst h
      rw [List.set_cons_zero, tally_cons, tally_cons]
      omega
    | succ n =>
      rw [List.getElem?_cons_succ] at h
      have := ih h
      rw [List.set_cons_succ, tally_cons, tally_cons]
      omega

/-- One place is taken out. -/
theorem tally_eraseIdx (h : l[n]? = some a) : tally f (l.eraseIdx n) + f a = tally f l := by
  induction l generalizing n with
  | nil => cases h
  | cons x rest ih =>
    cases n with
    | zero =>
      rw [List.getElem?_cons_zero, Option.some.injEq] at h
      subst h
      rw [List.eraseIdx_cons_zero, tally_cons]
      omega
    | succ n =>
      rw [List.getElem?_cons_succ] at h
      have := ih h
      rw [List.eraseIdx_cons_succ, tally_cons, tally_cons]
      omega

theorem tally_map {β : Type} (u : β → α) (l : List β) :
    tally f (l.map u) = tally (fun b => f (u b)) l := by
  rw [tally, tally, List.map_map]
  rfl

theorem tally_modify {u : α → α} (h : l[n]? = some a) :
    tally f (l.modify n u) + f a = tally f l + f (u a) := by
  have hset : l.modify n u = l.set n (u a) := by
    rw [List.modify_eq_set_getElem?, h]
    rfl
  rw [hset]
  exact tally_set h

/-- A rewriting that keeps what each place holds. -/
theorem tally_modify_same {u : α → α} (h : ∀ a, f (u a) = f a) :
    tally f (l.modify n u) = tally f l := by
  cases hget : l[n]? with
  | none => rw [List.modify_eq_self (List.getElem?_eq_none_iff.mp hget)]
  | some a =>
    have := tally_modify (f := f) (u := u) hget
    have := h a
    omega

/-- What is kept and what goes make up the whole. -/
theorem tally_filter (p : α → Bool) (l : List α) :
    tally f (l.filter p) + tally f (l.filter fun a => !p a) = tally f l := by
  induction l with
  | nil => rfl
  | cons x rest ih =>
    rw [tally_cons]
    by_cases hp : p x = true
    · rw [List.filter_cons_of_pos hp, List.filter_cons_of_neg (by simp [hp]), tally_cons]
      omega
    · rw [List.filter_cons_of_neg hp, List.filter_cons_of_pos (by simp [hp]), tally_cons]
      omega

/-- Two places that hold something hold it together. -/
theorem add_le_tally {m : Nat} (hne : n ≠ m) (hn : l[n]? = some a) (hm : l[m]? = some b) :
    f a + f b ≤ tally f l := by
  induction l generalizing n m with
  | nil => cases hn
  | cons x rest ih =>
    rw [tally_cons]
    cases n with
    | zero =>
      cases m with
      | zero => exact absurd rfl hne
      | succ m =>
        rw [List.getElem?_cons_zero, Option.some.injEq] at hn
        rw [List.getElem?_cons_succ] at hm
        have := le_tally_of_getElem? (f := f) hm
        subst hn
        omega
    | succ n =>
      rw [List.getElem?_cons_succ] at hn
      cases m with
      | zero =>
        rw [List.getElem?_cons_zero, Option.some.injEq] at hm
        have := le_tally_of_getElem? (f := f) hn
        subst hm
        omega
      | succ m =>
        rw [List.getElem?_cons_succ] at hm
        have := ih (by omega) hn hm
        omega

end Trans
