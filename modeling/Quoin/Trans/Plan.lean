import Mathlib

/-!
# Trans — writes up to a fault

A `Plan` is what a computation is to write, in order, and the fault that ends
it, if one does. Plans go one after the other (`andThen`), the second one only if
the first has no fault. Carried out by a store that may itself fail, a plan does
what its parts do in a row (`carry_andThen`), and a place that is written once
holds what was written there (`carry_holds`).
-/

namespace Trans

structure Plan (W F : Type) where
  writes : List W
  fault : Option F

namespace Plan

variable {W F S V : Type}

def done : Plan W F := ⟨[], none⟩

def fail (f : F) : Plan W F := ⟨[], some f⟩

def write (w : W) : Plan W F := ⟨[w], none⟩

/-- One plan, and then the other. -/
def andThen (p q : Plan W F) : Plan W F :=
  match p.fault with
  | some f => ⟨p.writes, some f⟩
  | none => ⟨p.writes ++ q.writes, q.fault⟩

/-- Go on with what is read, if it can be. -/
def reading (r : Except F V) (p : V → Plan W F) : Plan W F :=
  match r with
  | .error f => .fail f
  | .ok v => p v

variable (store : W → S → Except F S)

/-- Store after store, and then the fault. -/
def carry (p : Plan W F) (s : S) : Except F S := do
  let s' ← p.writes.foldlM (fun s w => store w s) s
  match p.fault with
  | some f => .error f
  | none => .ok s'

variable {store} {p q : Plan W F} {w : W} {s : S}

@[simp] theorem carry_done : done.carry store s = .ok s := rfl

@[simp] theorem carry_fail {f : F} : (fail f).carry store s = .error f := rfl

@[simp] theorem carry_write : (write w).carry store s = store w s := by
  rw [carry, write, List.foldlM_cons]
  rcases store w s with _ | _ <;> rfl

theorem carry_andThen : (p.andThen q).carry store s = p.carry store s >>= q.carry store := by
  obtain ⟨writes, _ | f⟩ := p
  · unfold carry andThen
    rw [List.foldlM_append]
    rcases writes.foldlM (fun s w => store w s) s with _ | _ <;> rfl
  · unfold carry andThen
    rcases writes.foldlM (fun s w => store w s) s with _ | _ <;> rfl

theorem mem_andThen (hw : w ∈ (p.andThen q).writes) : w ∈ p.writes ∨ w ∈ q.writes := by
  obtain ⟨writes, _ | f⟩ := p
  · exact List.mem_append.mp hw
  · exact .inl hw

theorem mem_reading {r : Except F V} {plan : V → Plan W F} (hw : w ∈ (reading r plan).writes) :
    ∃ v, r = .ok v ∧ w ∈ (plan v).writes := by
  rcases r with f | v
  · cases hw
  · exact ⟨v, rfl, hw⟩

theorem foldlM_of_carry {s' : S} (hCarry : p.carry store s = .ok s') :
    p.writes.foldlM (fun s w => store w s) s = .ok s' := by
  unfold carry at hCarry
  rcases hFold : p.writes.foldlM (fun s w => store w s) s with f | s₁ <;>
    rw [hFold] at hCarry
  · cases hCarry
  · rcases hFault : p.fault with _ | f
    · rw [hFault] at hCarry
      exact hCarry
    · rw [hFault] at hCarry
      cases hCarry

section Places

variable {P : Type} {place : W → P} {read : P → S → Option V} {value : W → V} {x : P}

theorem read_foldlM
    (hOther : ∀ w s s' x, store w s = .ok s' → x ≠ place w → read x s' = read x s)
    {post : List W} {s' : S} (hRun : post.foldlM (fun s w => store w s) s = .ok s')
    (hNone : ∀ w ∈ post, place w ≠ x) : read x s' = read x s := by
  induction post generalizing s with
  | nil =>
    cases hRun
    rfl
  | cons w post ih =>
    rw [List.foldlM_cons] at hRun
    rcases hStore : store w s with f | s₁ <;> rw [hStore] at hRun
    · cases hRun
    · rw [ih hRun fun w' hw' => hNone w' (List.mem_cons_of_mem w hw')]
      exact hOther w s s₁ x hStore (hNone w List.mem_cons_self).symm

/-- A place holds what was written there last. -/
theorem carry_holds (place : W → P) (read : P → S → Option V) (value : W → V)
    (hSelf : ∀ w s s', store w s = .ok s' → read (place w) s' = some (value w))
    (hOther : ∀ w s s' x, store w s = .ok s' → x ≠ place w → read x s' = read x s)
    {pre post : List W} {s' : S} (hCarry : p.carry store s = .ok s')
    (hWrites : p.writes = pre ++ w :: post) (hLast : ∀ w' ∈ post, place w' ≠ place w) :
    read (place w) s' = some (value w) := by
  have hRun := foldlM_of_carry hCarry
  rw [hWrites, List.foldlM_append] at hRun
  rcases hPre : pre.foldlM (fun s w => store w s) s with f | s₁ <;> rw [hPre] at hRun
  · cases hRun
  · have hRun : (w :: post).foldlM (fun s w => store w s) s₁ = .ok s' := hRun
    rw [List.foldlM_cons] at hRun
    rcases hStore : store w s₁ with f | s₂ <;> rw [hStore] at hRun
    · cases hRun
    · rw [read_foldlM hOther hRun hLast]
      exact hSelf w s₁ s₂ hStore

end Places

end Plan

end Trans
