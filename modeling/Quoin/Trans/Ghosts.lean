import Quoin.Trans.Tally

/-!
# Trans — queues with ghosts

A waiter that gives up cannot always leave the queues it stands in; its entry
stays behind, and whoever takes from the queue passes over it. `popLive` takes
the first entry that is not such a ghost. What the queue holds afterwards, and
what was taken, were in it before; ghosts that hold nothing do not show in a
tally.
-/

namespace Trans

variable {W : Type}

/-- The first live entry, and what is left behind it. -/
def popLive (live : W → Bool) : List W → Option W × List W
  | [] => (none, [])
  | w :: rest => if live w then (some w, rest) else popLive live rest

variable {live : W → Bool} {queue : List W} {w : W} {f : W → Nat}

theorem popLive_cons (head : W) (rest : List W) : popLive live (head :: rest) =
    if live head then (some head, rest) else popLive live rest := rfl

theorem mem_of_mem_popLive (h : w ∈ (popLive live queue).2) : w ∈ queue := by
  induction queue with
  | nil => exact h
  | cons head rest ih =>
    rw [popLive_cons] at h
    split at h
    · exact List.mem_cons_of_mem _ h
    · exact List.mem_cons_of_mem _ (ih h)

theorem popLive_eq_some (h : (popLive live queue).1 = some w) : w ∈ queue ∧ live w = true := by
  induction queue with
  | nil => cases h
  | cons head rest ih =>
    rw [popLive_cons] at h
    split at h
    · rename_i hlive
      obtain rfl := Option.some.inj h
      exact ⟨List.mem_cons_self, hlive⟩
    · obtain ⟨hin, hlive⟩ := ih h
      exact ⟨List.mem_cons_of_mem _ hin, hlive⟩

/-- Nothing live was in the queue, and it is drained. -/
theorem popLive_eq_none (h : (popLive live queue).1 = none) :
    (popLive live queue).2 = [] ∧ ∀ w ∈ queue, live w = false := by
  induction queue with
  | nil => exact ⟨rfl, fun _ hin => by cases hin⟩
  | cons head rest ih =>
    rw [popLive_cons] at h ⊢
    split at h
    · cases h
    · rename_i hdead
      rw [if_neg hdead]
      obtain ⟨hnil, hall⟩ := ih h
      refine ⟨hnil, fun w hin => ?_⟩
      rcases List.mem_cons.mp hin with rfl | hin
      · exact Bool.eq_false_iff.mpr hdead
      · exact hall w hin

variable {popped : Option W} {left : List W}

theorem popLive_some (h : popLive live queue = (some w, left)) : w ∈ queue ∧ live w = true :=
  popLive_eq_some (by rw [h])

theorem popLive_none (h : popLive live queue = (none, left)) :
    left = [] ∧ ∀ w ∈ queue, live w = false := by
  have hnone := popLive_eq_none (congrArg Prod.fst h)
  rw [h] at hnone
  exact hnone

theorem mem_of_popLive (h : popLive live queue = (popped, left)) (hin : w ∈ left) : w ∈ queue := by
  obtain rfl : (popLive live queue).2 = left := by rw [h]
  exact mem_of_mem_popLive hin

theorem tally_popLive_le :
    tally f (popLive live queue).2 + (popLive live queue).1.elim 0 f ≤ tally f queue := by
  induction queue with
  | nil => exact Nat.le_refl 0
  | cons head rest ih =>
    rw [popLive_cons, tally_cons]
    split
    · dsimp only [Option.elim_some]
      omega
    · omega

theorem tally_popLive (hghost : ∀ w, live w = false → f w = 0) :
    tally f (popLive live queue).2 + (popLive live queue).1.elim 0 f = tally f queue := by
  induction queue with
  | nil => rfl
  | cons head rest ih =>
    rw [popLive_cons, tally_cons]
    split
    · dsimp only [Option.elim_some]
      omega
    · rename_i hdead
      have := hghost head (Bool.eq_false_iff.mpr hdead)
      omega

end Trans
