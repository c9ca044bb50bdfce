import Mathlib

/-!
# Trans — nesting in a list

Every element of a list opens or closes some levels: its weight. `net` is the
level after the list, `Nests` a list that ends on the level it began on and
never sinks below it. Where no element closes more than one level, a list that
sinks below the level it began on has a first element that does so, and what
comes before that element nests (`nests_before`); there is one such place only
(`Nests.unique`).
-/

namespace Trans

variable {α : Type} (weight : α → Int)

/-- The level after `l`, from level 0. -/
def net (l : List α) : Int := (l.map weight).sum

/-- `l` ends on the level it began on and never sinks below it. -/
structure Nests (l : List α) : Prop where
  level : net weight l = 0
  above : ∀ p, p <+: l → 0 ≤ net weight p

/-- No part of `l` from its begin on is `height` levels up. -/
def Under (height : Int) (l : List α) : Prop := ∀ p, p <+: l → net weight p < height

@[simp] theorem net_nil : net weight [] = 0 := rfl

@[simp] theorem net_cons (a : α) (l : List α) : net weight (a :: l) = weight a + net weight l := by
  simp [net]

@[simp] theorem net_append (l₁ l₂ : List α) :
    net weight (l₁ ++ l₂) = net weight l₁ + net weight l₂ := by
  simp [net]

theorem forall_prefix_cons {P : List α → Prop} {a : α} {l : List α} :
    (∀ p, p <+: a :: l → P p) ↔ P [] ∧ ∀ p, p <+: l → P (a :: p) := by
  constructor
  · intro h
    exact ⟨h [] List.nil_prefix, fun p hp => h (a :: p) (List.cons_prefix_cons.mpr ⟨rfl, hp⟩)⟩
  · rintro ⟨hNil, hCons⟩ p hp
    obtain rfl | ⟨t, rfl, ht⟩ := List.prefix_cons_iff.mp hp
    · exact hNil
    · exact hCons t ht

variable {weight}

theorem Under.of_start {height : Int} {p l : List α} (h : Under weight height l) (hp : p <+: l) :
    Under weight height p :=
  fun q hq => h q (hq.trans hp)

/-- What comes after a part that is not below the begin is under the height as well. -/
theorem Under.of_append {height : Int} {l₁ l₂ : List α} (h : Under weight height (l₁ ++ l₂))
    (hUp : 0 ≤ net weight l₁) : Under weight height l₂ := by
  intro p hp
  have hWhole := h (l₁ ++ p) (List.prefix_append_right_inj l₁ |>.mpr hp)
  rw [net_append] at hWhole
  omega

/-- The first place that is below level `-depth`. -/
theorem first_below (hStep : ∀ a, -1 ≤ weight a) {l : List α} : ∀ {depth : Int}, 0 ≤ depth →
    depth + net weight l < 0 →
    ∃ inner a rest, l = inner ++ a :: rest ∧ weight a = -1 ∧ depth + net weight inner = 0 ∧
      ∀ p, p <+: inner → 0 ≤ depth + net weight p := by
  induction l with
  | nil =>
    intro depth hDepth hBelow
    rw [net_nil] at hBelow
    omega
  | cons b l ih =>
    intro depth hDepth hBelow
    rw [net_cons] at hBelow
    by_cases hSinks : depth + weight b < 0
    · have := hStep b
      refine ⟨[], b, l, rfl, by omega, by rw [net_nil]; omega, fun p hp => ?_⟩
      rw [List.prefix_nil.mp hp, net_nil]
      omega
    · obtain ⟨inner, a, rest, rfl, ha, hNet, hAbove⟩ :=
        @ih (depth + weight b) (by omega) (by omega)
      refine ⟨b :: inner, a, rest, rfl, ha, by rw [net_cons]; omega, ?_⟩
      rw [forall_prefix_cons]
      refine ⟨by rw [net_nil]; omega, fun p hp => ?_⟩
      have := hAbove p hp
      rw [net_cons]
      omega

/-- A list that sinks nests up to the element with which it does. -/
theorem nests_before (hStep : ∀ a, -1 ≤ weight a) {l : List α} (h : net weight l < 0) :
    ∃ inner a rest, l = inner ++ a :: rest ∧ weight a = -1 ∧ Nests weight inner := by
  obtain ⟨inner, a, rest, hl, ha, hNet, hAbove⟩ :=
    first_below hStep (le_refl (0 : Int)) (by omega : 0 + net weight l < 0)
  exact ⟨inner, a, rest, hl, ha, by omega, fun p hp => by simpa using hAbove p hp⟩

/-- Within a list that nests, what is opened is closed. -/
theorem Nests.closes (hStep : ∀ a, -1 ≤ weight a) {before after : List α} {a : α}
    (h : Nests weight (before ++ a :: after)) (ha : 0 < weight a) :
    ∃ inner b rest, after = inner ++ b :: rest ∧ weight b = -1 ∧ Nests weight inner := by
  apply nests_before hStep
  have hBefore := h.above before (List.prefix_append _ _)
  have hLevel := h.level
  rw [net_append, net_cons] at hLevel
  omega

/-- A list that goes below its begin does not nest. -/
theorem Nests.not_sinks {inner l : List α} {a : α} (h : Nests weight l) (hInner : Nests weight inner)
    (ha : weight a = -1) : ¬ (inner ++ [a]) <+: l := by
  intro hPrefix
  have hAbove := h.above _ hPrefix
  rw [net_append, net_cons, net_nil, hInner.level, ha] at hAbove
  omega

/-- There is one place only where a list goes below its begin. -/
theorem Nests.unique {x y rest rest' : List α} {a b : α} (hx : Nests weight x)
    (hy : Nests weight y) (ha : weight a = -1) (hb : weight b = -1)
    (h : x ++ a :: rest = y ++ b :: rest') : x = y ∧ a = b ∧ rest = rest' := by
  obtain ⟨mid, rfl, hMid⟩ | ⟨mid, rfl, hMid⟩ := List.append_eq_append_iff.mp h
  · cases mid with
    | nil =>
      obtain ⟨rfl, rfl⟩ := List.cons.inj hMid
      exact ⟨(List.append_nil x).symm, rfl, rfl⟩
    | cons c mid =>
      obtain ⟨rfl, -⟩ := List.cons.inj hMid
      refine absurd ?_ (hy.not_sinks hx ha)
      exact ⟨mid, by simp⟩
  · cases mid with
    | nil =>
      obtain ⟨rfl, rfl⟩ := List.cons.inj hMid
      exact ⟨List.append_nil y, rfl, rfl⟩
    | cons c mid =>
      obtain ⟨rfl, -⟩ := List.cons.inj hMid
      refine absurd ?_ (hx.not_sinks hy hb)
      exact ⟨mid, by simp⟩

end Trans
