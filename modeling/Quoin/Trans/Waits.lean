import Mathlib

/-!
# Trans — waits-for graphs

Every node waits for at most one other (`next`), so the graph is a function
and its paths are iterations (`follow`). A graph without cycles is one whose
edges are well-founded; in it every path ends, which is what makes somebody
able to go on (`Acyclic.ends`). Two rules keep it so: edges may be redirected
to nodes that wait for nobody (`Acyclic.sinks`), and an edge may be added if
its target does not lead back (`Acyclic.add`) — and only then
(`cyclic_update_iff`). A path that ends in a set of waiting nodes is shorter
than the set (`Acyclic.follow_lt_card`), so a bounded walk sees all of it.
-/

namespace Trans

variable {κ : Type} {next next' : κ → Option κ} {a b c : κ}

/-- The node `n` edges further on. -/
def follow (next : κ → Option κ) : Nat → κ → Option κ
  | 0, a => some a
  | n + 1, a => (next a).bind (follow next n)

/-- Following edges from `a` reaches `b`. -/
def Leads (next : κ → Option κ) (a b : κ) : Prop := ∃ n, follow next n a = some b

/-- No path of the graph is infinite. -/
def Acyclic (next : κ → Option κ) : Prop := WellFounded fun b a => next a = some b

/-- Some node leads back to itself by at least one edge. -/
def Cyclic (next : κ → Option κ) : Prop := ∃ a n, follow next (n + 1) a = some a

theorem follow_add (m n : Nat) (a : κ) :
    follow next (m + n) a = (follow next m a).bind (follow next n) := by
  induction m generalizing a with
  | zero => simp [follow]
  | succ m ih =>
    rw [Nat.add_right_comm, follow, follow, Option.bind_assoc]
    simp only [ih]

/-- A path that ends in a node without an edge stays when that node gets one: it
passes through it nowhere before. -/
theorem follow_update [DecidableEq κ] (hFree : next a = none) {n : Nat} {x : Option κ}
    (h : follow next n b = some a) : follow (Function.update next a x) n b = some a := by
  induction n generalizing b with
  | zero => exact h
  | succ n ih =>
    obtain ⟨c, hc, hRest⟩ := Option.bind_eq_some_iff.mp h
    have hne : b ≠ a := by
      rintro rfl
      simp [hFree] at hc
    simp [follow, Function.update_of_ne hne, hc, ih hRest]

theorem Leads.refl (a : κ) : Leads next a a := ⟨0, rfl⟩

theorem Leads.step (hab : next a = some b) (hbc : Leads next b c) : Leads next a c := by
  obtain ⟨n, hn⟩ := hbc
  refine ⟨n + 1, ?_⟩
  rw [follow, hab]
  exact hn

namespace Acyclic

/-- Nobody waits. -/
theorem of_idle (h : ∀ a, next a = none) : Acyclic next := by
  refine ⟨fun a => Acc.intro a fun b hb => ?_⟩
  rw [h a] at hb
  cases hb

/-- A path through nodes with `P` ends at one. -/
theorem ends (h : Acyclic next) {P : κ → Prop} (hP : ∀ a b, P a → next a = some b → P b)
    (ha : P a) : ∃ b, P b ∧ next b = none := by
  induction a using h.induction with
  | _ a ih =>
    cases hnext : next a with
    | none => exact ⟨a, ha, hnext⟩
    | some b => exact ih b hnext (hP a b ha hnext)

/-- Every edge is an old one, or goes to a node that waits for nobody. -/
theorem sinks (h : Acyclic next)
    (hedge : ∀ a b, next' a = some b → next a = some b ∨ next' b = none) : Acyclic next' := by
  refine ⟨fun a => ?_⟩
  induction a using h.induction with
  | _ a ih =>
    refine Acc.intro a fun b hb => ?_
    rcases hedge a b hb with hold | hsink
    · exact ih b hold
    · -- nothing lies below a sink
      refine Acc.intro b fun c hc => ?_
      rw [hsink] at hc
      cases hc

/-- One new edge, from `a` to a node that does not lead to `a`. -/
theorem add (h : Acyclic next) (hback : ¬ Leads next b a) (hself : next' a = some b)
    (hother : ∀ c, c ≠ a → next' c = next c) : Acyclic next' := by
  -- first the nodes that do not lead to `a`: their paths are the old ones
  have hapart : ∀ c, ¬ Leads next c a → Acc (fun y x => next' x = some y) c := by
    intro c
    induction c using h.induction with
    | _ c ih =>
      intro hc
      have hne : c ≠ a := fun heq => hc (heq ▸ Leads.refl c)
      refine Acc.intro c fun d hd => ?_
      rw [hother c hne] at hd
      exact ih d hd fun hlead => hc (hlead.step hd)
  have hnew : Acc (fun y x => next' x = some y) a := by
    refine Acc.intro a fun d hd => ?_
    rw [hself] at hd
    injection hd with hd
    exact hd ▸ hapart b hback
  refine ⟨fun c => ?_⟩
  induction c using h.induction with
  | _ c ih =>
    by_cases hne : c = a
    · exact hne ▸ hnew
    · refine Acc.intro c fun d hd => ?_
      rw [hother c hne] at hd
      exact ih d hd

theorem not_cyclic (h : Acyclic next) : ¬ Cyclic next := by
  rintro ⟨a, n, hBack⟩
  induction a using h.induction with
  | _ a ih =>
    obtain ⟨b, hb, hRest⟩ := Option.bind_eq_some_iff.mp hBack
    -- the next node of the cycle is on it too
    refine ih b hb ?_
    rw [follow_add, hRest]
    simp [follow, hb]

/-- The nodes of a path are all different. -/
theorem follow_ne (h : Acyclic next) {i j : Nat} (hlt : i < j) (hb : follow next i a = some b) :
    follow next j a ≠ some b := by
  intro hBack
  obtain ⟨n, rfl⟩ : ∃ n, j = i + (n + 1) := ⟨j - i - 1, by omega⟩
  rw [follow_add, hb] at hBack
  exact h.not_cyclic ⟨b, n, hBack⟩

/-- A path that ends in a set containing every node with an edge is shorter than it. -/
theorem follow_lt_card (h : Acyclic next) {S : Finset κ}
    (hEdges : ∀ c d, next c = some d → c ∈ S) (hb : b ∈ S) {n : Nat}
    (hPath : follow next n a = some b) : n < S.card := by
  -- every node of the path exists
  have hNode : ∀ i ≤ n, ∃ c, follow next i a = some c ∧ c ∈ S := by
    intro i hi
    obtain ⟨k, rfl⟩ : ∃ k, n = i + k := ⟨n - i, by omega⟩
    rw [follow_add] at hPath
    obtain ⟨c, hc, hRest⟩ := Option.bind_eq_some_iff.mp hPath
    refine ⟨c, hc, ?_⟩
    cases k with
    | zero =>
      obtain rfl : c = b := by simpa [follow] using hRest
      exact hb
    | succ k =>
      obtain ⟨d, hd, -⟩ := Option.bind_eq_some_iff.mp hRest
      exact hEdges c d hd
  have hCard : (Finset.range (n + 1)).card ≤ S.card := by
    refine Finset.card_le_card_of_injOn (fun i => (follow next i a).getD b) ?_ ?_
    · intro i hi
      obtain ⟨c, hc, hin⟩ := hNode i (by simpa [Nat.lt_succ_iff] using hi)
      simpa [hc] using hin
    · intro i hi j hj hSame
      obtain ⟨c, hc, -⟩ := hNode i (by simpa [Nat.lt_succ_iff] using hi)
      obtain ⟨d, hd, -⟩ := hNode j (by simpa [Nat.lt_succ_iff] using hj)
      obtain rfl : c = d := by simpa [hc, hd] using hSame
      rcases Nat.lt_trichotomy i j with hlt | hEq | hlt
      · exact absurd hd (h.follow_ne hlt hc)
      · exact hEq
      · exact absurd hc (h.follow_ne hlt hd)
  rw [Finset.card_range] at hCard
  omega

end Acyclic

/-- A new edge closes a cycle exactly if its target leads back. -/
theorem cyclic_update_iff [DecidableEq κ] (h : Acyclic next) (hFree : next a = none) :
    Cyclic (Function.update next a (some b)) ↔ Leads next b a := by
  constructor
  · intro hCycle
    by_contra hBack
    have hNew := h.add hBack (Function.update_self a (some b) next)
      fun c hne => Function.update_of_ne hne _ _
    exact hNew.not_cyclic hCycle
  · rintro ⟨n, hn⟩
    refine ⟨a, n, ?_⟩
    rw [follow, Function.update_self]
    exact follow_update hFree hn

end Trans
