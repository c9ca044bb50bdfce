import Mathlib

/-!
# Trans — tokens, each in exactly one place

A pool of tokens handed out to holders: at any moment every token is free, or
held by exactly one holder, or — while an operation is under way — in limbo
between the two. `Tokens` says so, and its rules are the moves a token can
make. `Marked` is the companion for a queue kept next to a flag: the queue
lists exactly the flagged keys, each once.
-/

namespace Trans

variable {α κ : Type}

/-- Every token of `all` is in exactly one of `free`, `held` and `limbo`. -/
structure Tokens (all : α → Prop) (free : List α) (held : κ → Option α) (limbo : Option α) :
    Prop where
  total : ∀ a, all a ↔ a ∈ free ∨ (∃ k, held k = some a) ∨ limbo = some a
  freeNodup : free.Nodup
  freeNotHeld : ∀ a ∈ free, ∀ k, held k ≠ some a
  heldOnce : ∀ a k k', held k = some a → held k' = some a → k = k'
  limboFresh : ∀ a, limbo = some a → a ∉ free ∧ ∀ k, held k ≠ some a

namespace Tokens

variable {all : α → Prop} {free : List α} {held held' : κ → Option α} {limbo : Option α}
  {a : α} {k : κ}

theorem congr (h : Tokens all free held limbo) (heq : ∀ k, held' k = held k) :
    Tokens all free held' limbo := by
  rw [show held' = held from funext heq]
  exact h

/-- A free token goes to a holder without one. -/
theorem take (h : Tokens all (a :: free) held limbo) (hk : held k = none)
    (hself : held' k = some a) (hother : ∀ k', k' ≠ k → held' k' = held k') :
    Tokens all free held' limbo := by
  obtain ⟨hnotin, hnodup⟩ := List.nodup_cons.mp h.freeNodup
  -- who holds a token now: `k` the one it took, and the others what they held
  have hback : ∀ b k', held' k' = some b → (k' = k ∧ b = a) ∨ (k' ≠ k ∧ held k' = some b) := by
    intro b k' hb
    by_cases hkk : k' = k
    · subst hkk
      rw [hself] at hb
      exact Or.inl ⟨rfl, (Option.some.inj hb).symm⟩
    · exact Or.inr ⟨hkk, hother k' hkk ▸ hb⟩
  refine ⟨?_, hnodup, ?_, ?_, ?_⟩
  · intro b
    rw [h.total]
    constructor
    · rintro (hb | ⟨k', hb⟩ | hb)
      · rcases List.mem_cons.mp hb with rfl | hb
        · exact Or.inr (Or.inl ⟨k, hself⟩)
        · exact Or.inl hb
      · have hne : k' ≠ k := by
          rintro rfl
          rw [hk] at hb
          cases hb
        exact Or.inr (Or.inl ⟨k', hother k' hne ▸ hb⟩)
      · exact Or.inr (Or.inr hb)
    · rintro (hb | ⟨k', hb⟩ | hb)
      · exact Or.inl (List.mem_cons_of_mem _ hb)
      · rcases hback b k' hb with ⟨-, rfl⟩ | ⟨-, hb⟩
        · exact Or.inl List.mem_cons_self
        · exact Or.inr (Or.inl ⟨k', hb⟩)
      · exact Or.inr (Or.inr hb)
  · intro b hb k' hheld
    rcases hback b k' hheld with ⟨-, rfl⟩ | ⟨-, hheld⟩
    · exact hnotin hb
    · exact h.freeNotHeld b (List.mem_cons_of_mem _ hb) k' hheld
  · intro b k₁ k₂ h₁ h₂
    rcases hback b k₁ h₁ with ⟨hk₁, hb⟩ | ⟨-, hheld₁⟩ <;>
      rcases hback b k₂ h₂ with ⟨hk₂, hb'⟩ | ⟨-, hheld₂⟩
    · rw [hk₁, hk₂]
    · exact absurd (hb ▸ hheld₂) (h.freeNotHeld a List.mem_cons_self k₂)
    · exact absurd (hb' ▸ hheld₁) (h.freeNotHeld a List.mem_cons_self k₁)
    · exact h.heldOnce b k₁ k₂ hheld₁ hheld₂
  · intro b hb
    obtain ⟨hfree, hheld⟩ := h.limboFresh b hb
    refine ⟨fun hin => hfree (List.mem_cons_of_mem _ hin), fun k' hk' => ?_⟩
    rcases hback b k' hk' with ⟨-, rfl⟩ | ⟨-, hk'⟩
    · exact hfree List.mem_cons_self
    · exact hheld k' hk'

/-- A holder gives its token up, to limbo. -/
theorem drop (h : Tokens all free held none) (hk : held k = some a)
    (hself : held' k = none) (hother : ∀ k', k' ≠ k → held' k' = held k') :
    Tokens all free held' (some a) := by
  have hback : ∀ b k', held' k' = some b → k' ≠ k ∧ held k' = some b := by
    intro b k' hb
    have hne : k' ≠ k := by
      rintro rfl
      rw [hself] at hb
      cases hb
    exact ⟨hne, hother k' hne ▸ hb⟩
  refine ⟨?_, h.freeNodup, ?_, ?_, ?_⟩
  · intro b
    rw [h.total]
    constructor
    · rintro (hb | ⟨k', hb⟩ | hb)
      · exact Or.inl hb
      · by_cases hkk : k' = k
        · subst hkk
          rw [hk] at hb
          exact Or.inr (Or.inr hb)
        · exact Or.inr (Or.inl ⟨k', hother k' hkk ▸ hb⟩)
      · cases hb
    · rintro (hb | ⟨k', hb⟩ | hb)
      · exact Or.inl hb
      · exact Or.inr (Or.inl ⟨k', (hback b k' hb).2⟩)
      · exact Or.inr (Or.inl ⟨k, hk.trans hb⟩)
  · intro b hb k' hk'
    exact h.freeNotHeld b hb k' (hback b k' hk').2
  · intro b k₁ k₂ h₁ h₂
    exact h.heldOnce b k₁ k₂ (hback b k₁ h₁).2 (hback b k₂ h₂).2
  · intro b hb
    cases hb
    refine ⟨fun hin => h.freeNotHeld a hin k hk, fun k' hk' => ?_⟩
    obtain ⟨hne, hk'⟩ := hback a k' hk'
    exact hne (h.heldOnce a k' k hk' hk)

/-- The token in limbo comes home. -/
theorem bank (h : Tokens all free held (some a)) : Tokens all (a :: free) held none := by
  obtain ⟨hfree, hheld⟩ := h.limboFresh a rfl
  refine ⟨?_, List.nodup_cons.mpr ⟨hfree, h.freeNodup⟩, ?_, h.heldOnce, fun b hb => by cases hb⟩
  · intro b
    rw [h.total, List.mem_cons, Option.some.injEq]
    constructor
    · rintro (hb | hb | rfl)
      · exact Or.inl (Or.inr hb)
      · exact Or.inr (Or.inl hb)
      · exact Or.inl (Or.inl rfl)
    · rintro ((rfl | hb) | hb | hb)
      · exact Or.inr (Or.inr rfl)
      · exact Or.inl hb
      · exact Or.inr (Or.inl hb)
      · cases hb
  · intro b hb k' hk'
    rcases List.mem_cons.mp hb with rfl | hb
    · exact hheld k' hk'
    · exact h.freeNotHeld b hb k' hk'

/-- The token in limbo goes to a holder without one. -/
theorem place (h : Tokens all free held (some a)) (hk : held k = none)
    (hself : held' k = some a) (hother : ∀ k', k' ≠ k → held' k' = held k') :
    Tokens all free held' none :=
  h.bank.take hk hself hother

end Tokens

/-- The queue lists exactly the marked keys, each once. -/
structure Marked (queue : List κ) (mark : κ → Bool) : Prop where
  mem : ∀ k, k ∈ queue ↔ mark k = true
  nodup : queue.Nodup

namespace Marked

variable {queue : List κ} {mark mark' : κ → Bool} {k : κ}

theorem congr (h : Marked queue mark) (heq : ∀ k, mark' k = mark k) : Marked queue mark' := by
  rw [show mark' = mark from funext heq]
  exact h

/-- Mark a key and queue it. -/
theorem push (h : Marked queue mark) (hk : mark k = false) (hself : mark' k = true)
    (hother : ∀ k', k' ≠ k → mark' k' = mark k') : Marked (queue ++ [k]) mark' := by
  have hnotin : k ∉ queue := fun hin => by
    rw [h.mem, hk] at hin
    cases hin
  refine ⟨?_, List.nodup_append.mpr ⟨h.nodup, List.nodup_singleton k, ?_⟩⟩
  · intro k'
    rw [List.mem_append, List.mem_singleton, h.mem]
    by_cases hkk : k' = k
    · simp [hkk, hself]
    · simp [hkk, hother k' hkk]
  · intro x hx y hy hxy
    rw [List.mem_singleton.mp hy] at hxy
    exact hnotin (hxy ▸ hx)

/-- Take the head off and unmark it. -/
theorem pop (h : Marked (k :: queue) mark) (hself : mark' k = false)
    (hother : ∀ k', k' ≠ k → mark' k' = mark k') : Marked queue mark' := by
  obtain ⟨hnotin, hnodup⟩ := List.nodup_cons.mp h.nodup
  refine ⟨?_, hnodup⟩
  intro k'
  by_cases hkk : k' = k
  · subst hkk
    rw [hself]
    exact ⟨fun hin => absurd hin hnotin, fun hf => by cases hf⟩
  · rw [hother k' hkk, ← h.mem, List.mem_cons]
    exact ⟨Or.inr, fun hin => hin.resolve_left hkk⟩

end Marked

end Trans
