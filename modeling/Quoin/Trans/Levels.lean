import Mathlib

/-!
# Trans — how far down a graph goes

`At next n a b`: from `a` a path of `n` edges leads to `b` (`next` are the edges of a
node). What can be reached at some level has something above it at every level
before (`At.above`), and from a node that leads to a cycle something can be reached
at every level (`at_of_cycle`).
-/

namespace Trans

variable {α : Type} (next : α → List α)

/-- `b` is `n` levels below `a`. -/
def At : Nat → α → α → Prop
  | 0, a, b => a = b
  | n + 1, a, c => ∃ b ∈ next a, At n b c

variable {next} {a b c : α} {m n : Nat}

theorem At.trans (hab : At next m a b) (hbc : At next n b c) : At next (m + n) a c := by
  induction m generalizing a with
  | zero =>
    obtain rfl := hab
    rwa [Nat.zero_add]
  | succ m ih =>
    obtain ⟨a', hMem, hab⟩ := hab
    rw [Nat.add_right_comm]
    exact ⟨a', hMem, ih hab⟩

theorem At.split (h : At next (m + n) a c) : ∃ b, At next m a b ∧ At next n b c := by
  induction m generalizing a with
  | zero => exact ⟨a, rfl, by rwa [Nat.zero_add] at h⟩
  | succ m ih =>
    rw [Nat.add_right_comm] at h
    obtain ⟨a', hMem, h⟩ := h
    obtain ⟨b, hab, hbc⟩ := ih h
    exact ⟨b, ⟨a', hMem, hab⟩, hbc⟩

theorem At.exists_le (h : At next n a c) (hLe : m ≤ n) : ∃ b, At next m a b := by
  obtain ⟨k, rfl⟩ := Nat.exists_eq_add_of_le hLe
  obtain ⟨b, hab, -⟩ := h.split
  exact ⟨b, hab⟩

/-- From a cycle on there is no last level. -/
theorem at_of_cycle (hab : At next m a b) (hCycle : At next (n + 1) b b) (k : Nat) :
    ∃ c, At next k a c := by
  have hRounds : ∀ r, At next (r * (n + 1)) b b := by
    intro r
    induction r with
    | zero =>
      rw [Nat.zero_mul]
      rfl
    | succ r ih =>
      rw [Nat.succ_mul]
      exact ih.trans hCycle
  refine (hab.trans (hRounds k)).exists_le ?_
  calc k ≤ k * (n + 1) := Nat.le_mul_of_pos_right k (Nat.succ_pos n)
    _ ≤ m + k * (n + 1) := Nat.le_add_left _ _

end Trans
