import Mathlib

/-!
# Trans — runs of a transition system

A transition system is a partial step function `step : σ → α → Option σ`:
`none` means the action cannot happen in that state. `Run step ok s` are the
states reached from `s` by runs all of whose steps are allowed (`ok`) in the
state they are taken in; with nothing forbidden it is plain reachability
(`Reach`). `Run.invariant` is the one induction of the library: what one step
preserves, a run preserves. `States` and `Steps` say what holds all along the
run that given actions make (`states_of_steps`, `states_iff_steps`). `exec` runs a given list of
actions, so a concrete run is a computation (`run_of_exec`).
-/

namespace Trans

variable {σ α : Type}

/-- The states reached from `s` by steps that are all `ok` where they are taken. -/
inductive Run (step : σ → α → Option σ) (ok : σ → α → Prop) (s : σ) : σ → Prop
  | refl : Run step ok s s
  | tail {s' s'' : σ} {a : α} :
      Run step ok s s' → ok s' a → step s' a = some s'' → Run step ok s s''

/-- The states reached from `s`. -/
abbrev Reach (step : σ → α → Option σ) (s : σ) : σ → Prop := Run step (fun _ _ => True) s

variable {step : σ → α → Option σ} {ok ok' : σ → α → Prop} {s s' s'' : σ}

/-- **Invariant rule.** -/
theorem Run.invariant {P : σ → Prop} (hInit : P s)
    (hStep : ∀ s a s', P s → ok s a → step s a = some s' → P s')
    (hRun : Run step ok s s') : P s' := by
  induction hRun with
  | refl => exact hInit
  | tail _ hok hs ih => exact hStep _ _ _ ih hok hs

/-- A run under a stronger condition is one under a weaker condition. -/
theorem Run.mono (h : ∀ s a, ok s a → ok' s a) (hRun : Run step ok s s') :
    Run step ok' s s' := by
  induction hRun with
  | refl => exact .refl
  | tail _ hok hs ih => exact .tail ih (h _ _ hok) hs

/-- Where an invariant holds, one condition on the steps may stand for another. -/
theorem Run.mono_of_invariant {P : σ → Prop} (hInit : P s)
    (hStep : ∀ s a s', P s → ok s a → step s a = some s' → P s')
    (h : ∀ s a, P s → ok s a → ok' s a) (hRun : Run step ok s s') : Run step ok' s s' := by
  have hBoth : P s' ∧ Run step ok' s s' := by
    induction hRun with
    | refl => exact ⟨hInit, .refl⟩
    | tail _ hok hs ih =>
      exact ⟨hStep _ _ _ ih.1 hok hs, .tail ih.2 (h _ _ ih.1 hok) hs⟩
  exact hBoth.2

theorem Run.reach (hRun : Run step ok s s') : Reach step s s' :=
  hRun.mono fun _ _ _ => trivial

theorem Run.trans (h : Run step ok s s') (h' : Run step ok s' s'') : Run step ok s s'' := by
  induction h' with
  | refl => exact h
  | tail _ hok hs ih => exact .tail ih hok hs

/-- What holds in every state of the run that actions make. -/
def States (step : σ → α → Option σ) (P : σ → Prop) : σ → List α → Prop
  | s, [] => P s
  | s, a :: as => P s ∧ ∀ s', step s a = some s' → States step P s' as

/-- What holds of every step of that run. -/
def Steps (step : σ → α → Option σ) (ok : σ → α → Prop) : σ → List α → Prop
  | _, [] => True
  | s, a :: as => ∀ s', step s a = some s' → ok s a ∧ Steps step ok s' as

instance Steps.decidable [hok : ∀ s a, Decidable (ok s a)] (s : σ) :
    (as : List α) → Decidable (Steps step ok s as)
  | [] => .isTrue trivial
  | a :: as =>
    match hs : step s a with
    | none => .isTrue fun s' hs' => by rw [hs] at hs'; cases hs'
    | some s' =>
      have := Steps.decidable s' as
      decidable_of_iff (ok s a ∧ Steps step ok s' as) ⟨fun h s'' hs'' => by
        rw [hs] at hs''
        exact Option.some.inj hs'' ▸ h, fun h => h s' hs⟩

/-- Where steps that are `ok` keep an invariant, what it gives holds throughout a run of them. -/
theorem states_of_steps {P I : σ → Prop} (hHolds : ∀ s, I s → P s)
    (hKeeps : ∀ s a s', I s → ok s a → step s a = some s' → I s') (as : List α) :
    ∀ {s}, I s → Steps step ok s as → States step P s as := by
  induction as with
  | nil => exact fun hI _ => hHolds _ hI
  | cons a as ih =>
    intro s hI hSteps
    refine ⟨hHolds s hI, fun s' hs => ?_⟩
    obtain ⟨hok, hRest⟩ := hSteps s' hs
    exact ih (hKeeps s a s' hI hok hs) hRest

/-- Where steps that are `ok` keep an invariant, and only they get to states in which `P` holds, a
property that the invariant gives holds throughout a run if and only if its steps are `ok`. -/
theorem states_iff_steps {P I : σ → Prop} (hHolds : ∀ s, I s → P s)
    (hKeeps : ∀ s a s', I s → ok s a → step s a = some s' → I s')
    (hOnly : ∀ s a s', I s → step s a = some s' → P s' → ok s a) (as : List α) {s : σ} (hI : I s) :
    States step P s as ↔ Steps step ok s as := by
  refine ⟨fun hStates => ?_, states_of_steps hHolds hKeeps as hI⟩
  induction as generalizing s with
  | nil => trivial
  | cons a as ih =>
    obtain ⟨-, hNexts⟩ := hStates
    intro s' hs
    have hRest := hNexts s' hs
    have hNext : P s' := by
      cases as with
      | nil => exact hRest
      | cons b bs => exact hRest.1
    have hok := hOnly s a s' hI hs hNext
    exact ⟨hok, ih (hKeeps s a s' hI hok hs) hRest⟩

/-- Where an invariant holds, one condition on the steps gives another. -/
theorem Steps.mono_of_invariant {I : σ → Prop}
    (hKeeps : ∀ s a s', I s → ok s a → step s a = some s' → I s')
    (h : ∀ s a, I s → ok s a → ok' s a) (as : List α) :
    ∀ {s}, I s → Steps step ok s as → Steps step ok' s as := by
  induction as with
  | nil => exact fun _ _ => trivial
  | cons a as ih =>
    intro s hI hSteps s' hs
    obtain ⟨hok, hRest⟩ := hSteps s' hs
    exact ⟨h s a hI hok, ih (hKeeps s a s' hI hok hs) hRest⟩

/-- Take the actions one after another, as long as they are `ok`. -/
def exec (step : σ → α → Option σ) (ok : σ → α → Prop) [∀ s a, Decidable (ok s a)] (s : σ) :
    List α → Option σ
  | [] => some s
  | a :: as => if ok s a then (step s a).bind fun s' => exec step ok s' as else none

theorem exec_append [∀ s a, Decidable (ok s a)] (s : σ) (as bs : List α) :
    exec step ok s (as ++ bs) = (exec step ok s as).bind fun s' => exec step ok s' bs := by
  induction as generalizing s with
  | nil => rfl
  | cons a as ih =>
    rw [List.cons_append, exec, exec]
    split_ifs
    · rw [Option.bind_assoc]
      simp only [ih]
    · rfl

/-- What holds in every state of a run holds in the last one. -/
theorem States.last [∀ s a, Decidable (ok s a)] {P : σ → Prop} {as : List α} :
    ∀ {s}, States step P s as → exec step ok s as = some s' → P s' := by
  induction as with
  | nil => exact fun h hExec => Option.some.inj hExec ▸ h
  | cons a as ih =>
    intro s h hExec
    rw [exec] at hExec
    split_ifs at hExec
    obtain ⟨mid, hStep, hRest⟩ := Option.bind_eq_some_iff.mp hExec
    exact ih (h.2 mid hStep) hRest

theorem run_of_exec [∀ s a, Decidable (ok s a)] {as : List α}
    (h : exec step ok s as = some s') : Run step ok s s' := by
  induction as generalizing s with
  | nil =>
    injection h with h
    exact h ▸ .refl
  | cons a as ih =>
    rw [exec] at h
    split_ifs at h with hok
    obtain ⟨mid, hmid, hrest⟩ := Option.bind_eq_some_iff.mp h
    exact (Run.tail .refl hok hmid).trans (ih hrest)

/-- What a concrete run computes holds at the end of a run. -/
theorem run_of_exec_map [∀ s a, Decidable (ok s a)] {β : Type} {as : List α} {f : σ → β} {b : β}
    (h : (exec step ok s as).map f = some b) : ∃ s', Run step ok s s' ∧ f s' = b := by
  obtain ⟨s', hexec, hf⟩ := Option.map_eq_some_iff.mp h
  exact ⟨s', run_of_exec hexec, hf⟩

end Trans
