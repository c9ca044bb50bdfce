import Mathlib

/-!
# Trans — traversing a list

`mapM` of a function that may fail: what its answers are where it succeeds
(`forall₂_of_mapM`), and that it fails where the function does (`mapM_error`).
A computation that may fail and has a state is `Steady` in a state that it leaves
as it is; then it is the answer alone that counts (`answer_bind`, `answer_mapM`).
-/

namespace Trans

/-! ## Functions that may fail -/

section Fallible

variable {ε α β : Type} {f : α → Except ε β} {xs : List α} {ys : List β} {e : ε}

/-- Each element of a list that was mapped successfully. -/
theorem forall₂_of_mapM (h : xs.mapM f = .ok ys) :
    List.Forall₂ (fun x y => f x = .ok y) xs ys := by
  induction xs generalizing ys with
  | nil =>
    cases h
    exact .nil
  | cons x xs ih =>
    rw [List.mapM_cons] at h
    cases hx : f x with
    | error e =>
      rw [hx] at h
      cases h
    | ok y =>
      rw [hx] at h
      cases hxs : xs.mapM f with
      | error e =>
        rw [hxs] at h
        cases h
      | ok zs =>
        rw [hxs] at h
        cases h
        exact .cons hx (ih hxs)

theorem mapM_of_forall₂ (h : List.Forall₂ (fun x y => f x = .ok y) xs ys) :
    xs.mapM f = .ok ys := by
  induction h with
  | nil => rfl
  | cons hx _ ih =>
    rw [List.mapM_cons, hx, ih]
    rfl

theorem mapM_of_ok {g : α → β} (h : ∀ x ∈ xs, f x = .ok (g x)) : xs.mapM f = .ok (xs.map g) :=
  mapM_of_forall₂ (List.forall₂_map_right_iff.mpr (List.forall₂_same.mpr h))

theorem mapM_congr {g : α → Except ε β} (h : ∀ x ∈ xs, f x = g x) : xs.mapM f = xs.mapM g := by
  induction xs with
  | nil => rfl
  | cons x xs ih =>
    rw [List.mapM_cons, List.mapM_cons, h x List.mem_cons_self,
      ih fun y hy => h y (List.mem_cons_of_mem x hy)]

/-- A function that fails in one way only. -/
theorem mapM_error {x : α} (hMem : x ∈ xs) (hx : f x = .error e)
    (hAll : ∀ y ∈ xs, ∀ e', f y = .error e' → e' = e) : xs.mapM f = .error e := by
  induction xs with
  | nil => cases hMem
  | cons y xs ih =>
    rw [List.mapM_cons]
    cases hy : f y with
    | error e' =>
      rw [hAll y List.mem_cons_self e' hy]
      rfl
    | ok z =>
      have hTail : x ∈ xs := by
        refine (List.mem_cons.mp hMem).resolve_left ?_
        rintro rfl
        rw [hx] at hy
        cases hy
      rw [ih hTail fun y hy => hAll y (List.mem_cons_of_mem _ hy)]
      rfl

theorem exists_mapM (h : ∀ x ∈ xs, ∃ y, f x = .ok y) : ∃ ys, xs.mapM f = .ok ys := by
  induction xs with
  | nil => exact ⟨[], rfl⟩
  | cons x xs ih =>
    obtain ⟨y, hy⟩ := h x List.mem_cons_self
    obtain ⟨ys, hys⟩ := ih fun x hx => h x (List.mem_cons_of_mem _ hx)
    refine ⟨y :: ys, ?_⟩
    rw [List.mapM_cons, hy, hys]
    rfl

end Fallible

/-! ## Computations that leave the state -/

section Steady

variable {ε σ α β : Type}

/-- What a computation answers in a state. -/
def answer (m : ExceptT ε (StateM σ) α) (s : σ) : Except ε α := (m.run.run s).1

/-- A computation that leaves a state as it is. -/
def Steady (m : ExceptT ε (StateM σ) α) (s : σ) : Prop := (m.run.run s).2 = s

variable {m : ExceptT ε (StateM σ) α} {k : α → ExceptT ε (StateM σ) β} {s : σ} {a : α} {e : ε}

theorem run_of_steady (h : Steady m s) : m.run.run s = (answer m s, s) :=
  Prod.ext rfl h

@[simp] theorem answer_pure : answer (pure a : ExceptT ε (StateM σ) α) s = .ok a := rfl

@[simp] theorem steady_pure : Steady (pure a : ExceptT ε (StateM σ) α) s := rfl

@[simp] theorem answer_throw : answer (throw e : ExceptT ε (StateM σ) α) s = .error e := rfl

@[simp] theorem steady_throw : Steady (throw e : ExceptT ε (StateM σ) α) s := rfl

/-- What follows a steady computation runs in the same state. -/
theorem run_bind_ok (h : Steady m s) (hAnswer : answer m s = .ok a) :
    (m >>= k).run.run s = (k a).run.run s := by
  rw [ExceptT.run_bind, StateT.run_bind, run_of_steady h, hAnswer]
  rfl

theorem run_bind_error (h : Steady m s) (hAnswer : answer m s = .error e) :
    (m >>= k).run.run s = (.error e, s) := by
  rw [ExceptT.run_bind, StateT.run_bind, run_of_steady h, hAnswer]
  rfl

theorem answer_bind (h : Steady m s) :
    answer (m >>= k) s = (answer m s).bind fun a => answer (k a) s := by
  cases hAnswer : answer m s with
  | error e => exact congrArg Prod.fst (run_bind_error h hAnswer)
  | ok a => exact congrArg Prod.fst (run_bind_ok h hAnswer)

theorem Steady.bind (h : Steady m s) (hNext : ∀ a, answer m s = .ok a → Steady (k a) s) :
    Steady (m >>= k) s := by
  unfold Steady
  cases hAnswer : answer m s with
  | error e => rw [run_bind_error h hAnswer]
  | ok a =>
    rw [run_bind_ok h hAnswer]
    exact hNext a hAnswer

variable {f : α → ExceptT ε (StateM σ) β} {xs : List α}

theorem steady_mapM (h : ∀ x ∈ xs, Steady (f x) s) : Steady (xs.mapM f) s := by
  induction xs with
  | nil => rfl
  | cons x xs ih =>
    rw [List.mapM_cons]
    refine (h x List.mem_cons_self).bind fun y _ => ?_
    exact (ih fun x hx => h x (List.mem_cons_of_mem _ hx)).bind fun ys _ => rfl

theorem answer_mapM (h : ∀ x ∈ xs, Steady (f x) s) :
    answer (xs.mapM f) s = xs.mapM fun x => answer (f x) s := by
  induction xs with
  | nil => rfl
  | cons x xs ih =>
    have hTail : ∀ x ∈ xs, Steady (f x) s := fun x hx => h x (List.mem_cons_of_mem _ hx)
    rw [List.mapM_cons, List.mapM_cons, answer_bind (h x List.mem_cons_self)]
    cases hx : answer (f x) s with
    | error e => rfl
    | ok y =>
      show answer (xs.mapM f >>= fun ys => pure (y :: ys)) s = _
      rw [answer_bind (steady_mapM hTail), ih hTail]
      cases xs.mapM fun x => answer (f x) s <;> rfl

end Steady

end Trans
