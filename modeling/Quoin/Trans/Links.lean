import Mathlib

/-!
# Quoin — cells with links

Cells that name the next one, or none. `Chain next a l` says that the links from `a` go
through the cells `l` and end. There is one such list at most, and none of its cells
comes twice, so a chain that ends has no cycle.
-/

namespace Trans

variable {ρ : Type} {next next' : ρ → Option ρ} {a b : ρ} {l l' : List ρ}

/-- The cells from `a` on, to the one that has no next. -/
inductive Chain (next : ρ → Option ρ) : ρ → List ρ → Prop where
  | last {a : ρ} (hEnd : next a = none) : Chain next a [a]
  | link {a b : ρ} {l : List ρ} (hNext : next a = some b) (rest : Chain next b l) :
      Chain next a (a :: l)

namespace Chain

theorem unique (h : Chain next a l) (h' : Chain next a l') : l = l' := by
  induction h generalizing l' with
  | last hEnd =>
    cases h' with
    | last => rfl
    | link hNext => simp [hEnd] at hNext
  | link hNext _ ih =>
    cases h' with
    | last hEnd => simp [hNext] at hEnd
    | link hNext' rest' =>
      cases Option.some.inj (hNext.symm.trans hNext')
      rw [ih rest']

/-- From each cell the chain goes on to the same end. -/
theorem from_mem (h : Chain next a l) (hMem : b ∈ l) : ∃ l', Chain next b l' ∧ l' <:+ l := by
  induction h with
  | last hEnd =>
    cases List.mem_singleton.mp hMem
    exact ⟨_, .last hEnd, List.suffix_rfl⟩
  | link hNext rest ih =>
    rcases List.mem_cons.mp hMem with rfl | hMem
    · exact ⟨_, .link hNext rest, List.suffix_rfl⟩
    · obtain ⟨l', hFrom, hSuffix⟩ := ih hMem
      exact ⟨l', hFrom, hSuffix.trans (List.suffix_cons _ _)⟩

/-- A chain has no cycle. -/
theorem nodup (h : Chain next a l) : l.Nodup := by
  induction h with
  | last => exact List.nodup_singleton _
  | @link a b l hNext rest ih =>
    refine List.nodup_cons.mpr ⟨fun hMem => ?_, ih⟩
    obtain ⟨l', hFrom, hSuffix⟩ := rest.from_mem hMem
    have hLength := hSuffix.length_le
    rw [hFrom.unique (.link hNext rest), List.length_cons] at hLength
    omega

/-- One cell has no next. -/
theorem end_unique {c : ρ} (h : Chain next a l) (hb : b ∈ l) (hEnd : next b = none)
    (hc : c ∈ l) (hEnd' : next c = none) : b = c := by
  induction h with
  | last => rw [List.mem_singleton.mp hb, List.mem_singleton.mp hc]
  | link hNext _ ih =>
    rcases List.mem_cons.mp hb with rfl | hb
    · simp [hNext] at hEnd
    · rcases List.mem_cons.mp hc with rfl | hc
      · simp [hNext] at hEnd'
      · exact ih hb hc

/-- What other cells link to does not matter. -/
theorem congr (h : Chain next a l) (hSame : ∀ c ∈ l, next' c = next c) : Chain next' a l := by
  induction h with
  | @last a hEnd => exact .last ((hSame a List.mem_cons_self).trans hEnd)
  | @link a b l hNext rest ih =>
    exact .link ((hSame a List.mem_cons_self).trans hNext)
      (ih fun c hMem => hSame c (List.mem_cons_of_mem _ hMem))

/-- A new last cell. -/
theorem extend (h : Chain next a l) (hNew : next' b = none)
    (hLast : ∀ c ∈ l, next c = none → next' c = some b)
    (hSame : ∀ c ∈ l, next c ≠ none → next' c = next c) : Chain next' a (l ++ [b]) := by
  induction h with
  | last hEnd => exact .link (hLast _ List.mem_cons_self hEnd) (.last hNew)
  | @link a c l hNext rest ih =>
    have hLinked : next a ≠ none := by simp [hNext]
    refine .link ((hSame a List.mem_cons_self hLinked).trans hNext) (ih ?_ ?_)
    · exact fun d hMem => hLast d (List.mem_cons_of_mem _ hMem)
    · exact fun d hMem => hSame d (List.mem_cons_of_mem _ hMem)

end Chain

end Trans
