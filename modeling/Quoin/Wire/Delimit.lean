import Mathlib
import Quoin.Wire.Reader

/-!
# Wire — where an encoding ends

Two facts about a format that has no end marks: nothing shorter than an
encoding is one, and nothing longer is. Both are about what a reader, or a
writer, makes of the front of an input whatever follows it.

* `Stable` is about one reader: what it read off an input it still reads off a
  longer one. A stable reader that answers a string in one way reads no proper
  beginning of it to the end (`Stable.not_whole`).
* `Parts` is about two encodings: starting one input, they are encodings of
  related values and end at one place. It composes field by field, as `Reads`
  does, and where the values are read by some reader it follows from that
  (`Parts.of_reads`).
-/

namespace Wire

variable {τ ε α β : Type}

/-- What `p` reads off the front of an input does not depend on where the input
ends. -/
def Stable (p : Reader τ ε α) : Prop :=
  ∀ rd more a rest, p rd = .ok (a, rest) → p (rd ++ more) = .ok (a, rest ++ more)

namespace Stable

variable {p q : Reader τ ε α} {f : α → Reader τ ε β}

@[grind ←] theorem pure (a : α) : Stable (Pure.pure a : Reader τ ε α) := by
  rintro rd more _ _ ⟨⟩
  rfl

/-- What reads nothing reads nothing of a longer input. -/
@[grind ←] theorem throw (err : ε) : Stable (MonadExcept.throw err : Reader τ ε α) := by
  rintro rd more a rest ⟨⟩

@[grind ←] theorem bind (hp : Stable p) (hf : ∀ a, Stable (f a)) : Stable (p >>= f) := by
  intro rd more b rest h
  obtain ⟨⟨a, mid⟩, hFirst, hRest⟩ := bind_ok (x := p rd) (f := fun r => f r.1 r.2) h
  show (p (rd ++ more) >>= fun r => f r.1 r.2) = .ok (b, rest ++ more)
  rw [hp rd more a mid hFirst]
  exact hf a mid more b rest hRest

@[grind ←] theorem map {g : α → β} (hp : Stable p) : Stable (g <$> p) :=
  hp.bind fun a => Stable.pure (g a)

theorem ite {c : Prop} [Decidable c] (hp : Stable p) (hq : Stable q) :
    Stable (if c then p else q) := by
  split_ifs
  · exact hp
  · exact hq

@[grind ←] theorem take (short : ε) (n : Nat) : Stable (Reader.take short n : Reader τ ε (List τ)) := by
  intro rd more a rest h
  unfold Reader.take at h ⊢
  split_ifs at h with hShort
  obtain ⟨rfl, rfl⟩ := Prod.mk.inj (Except.ok.inj h)
  have hLong : ¬ (rd ++ more).length < n := by
    rw [List.length_append]
    omega
  rw [if_neg hLong, List.take_append_of_le_length (by omega),
    List.drop_append_of_le_length (by omega)]

@[grind ←] theorem repeatN (hp : Stable p) (n : Nat) : Stable (Reader.repeatN p n) := by
  induction n with
  | zero => exact Stable.pure []
  | succ n ih => exact hp.bind fun a => ih.bind fun as => Stable.pure (a :: as)

/-- A string that a stable reader answers in one way has no proper beginning that
it reads to the end. -/
theorem not_whole (hp : Stable p) {s more : List τ} {r : Except ε α}
    (h : Answers p (s ++ more) r) (hmore : more ≠ []) (a : α) : p s ≠ .ok (a, []) := by
  intro hWhole
  have hLonger := hp s more a [] hWhole
  have hAnswer := h []
  rw [List.append_nil, hLonger] at hAnswer
  cases r with
  | error err => cases hAnswer
  | ok b =>
    obtain ⟨-, hNil⟩ := Prod.mk.inj (Except.ok.inj hAnswer)
    exact hmore hNil

end Stable

/-- Two encodings that start one input end at one place, and then `P`. -/
def Parts (P : Prop) (s s' : List τ) : Prop := ∀ t t', s ++ t = s' ++ t' → P ∧ t = t'

namespace Parts

variable {P Q : Prop} {s s' c c' : List τ}

/-- What one reader reads off both is one value. -/
theorem of_reads {p : Reader τ ε α} {x y : α} (h : Reads p s x) (h' : Reads p s' y) :
    Parts (x = y) s s' := by
  intro t t' heq
  have hrun := h t
  rw [heq, h' t'] at hrun
  obtain ⟨hvalue, hrest⟩ := Prod.mk.inj (Except.ok.inj hrun)
  exact ⟨hvalue.symm, hrest.symm⟩

theorem mono (h : Parts P s s') (hPQ : P → Q) : Parts Q s s' :=
  fun t t' heq => (h t t' heq).imp_left hPQ

/-- One field after another. -/
theorem append (h : Parts P s s') (hc : P → Parts Q c c') : Parts Q (s ++ c) (s' ++ c') := by
  intro t t' heq
  rw [List.append_assoc, List.append_assoc] at heq
  obtain ⟨hP, hrest⟩ := h _ _ heq
  exact hc hP t t' hrest

/-- The next field of two records written as lists of fields. -/
theorem field {fields fields' : List (List τ)} (h : Parts P s s')
    (hf : P → Parts Q fields.flatten fields'.flatten) :
    Parts Q (s :: fields).flatten (s' :: fields').flatten := by
  rw [List.flatten_cons, List.flatten_cons]
  exact h.append hf

theorem nil (hP : P) : Parts P ([] : List τ) [] := fun _ _ heq => ⟨hP, heq⟩

theorem eq_of_eq (h : Parts P s s') (heq : s = s') : P :=
  (h [] [] (by rw [heq])).1

/-- **Counted lists** of one length part member by member. -/
theorem flatMap {write : α → List τ} {R : α → α → Prop} {xs ys : List α}
    (hlen : xs.length = ys.length) (h : ∀ x ∈ xs, ∀ y ∈ ys, Parts (R x y) (write x) (write y)) :
    Parts (List.Forall₂ R xs ys) (xs.flatMap write) (ys.flatMap write) := by
  induction xs generalizing ys with
  | nil =>
    obtain rfl : ys = [] := List.length_eq_zero_iff.mp hlen.symm
    exact nil .nil
  | cons x xs ih =>
    cases ys with
    | nil => simp at hlen
    | cons y ys =>
      rw [List.flatMap_cons, List.flatMap_cons]
      refine (h x List.mem_cons_self y List.mem_cons_self).append fun hxy => ?_
      have htail : xs.length = ys.length := by simpa using hlen
      have hrest := ih htail fun a ha b hb =>
        h a (List.mem_cons_of_mem x ha) b (List.mem_cons_of_mem y hb)
      exact hrest.mono fun hall => .cons hxy hall

end Parts

end Wire
