import Mathlib

/-!
# Trans — waiting lines

The history of a waiting line: who joined, who left, who was served, and who
was let in without joining (`Turn`). The line at any time is those who joined
and are not gone, in the order they joined. A history is `Orderly` if whoever
is served was first in line and nobody is let in past it; then it is first
come, first served (`Orderly.fair`), stated on the history alone. `Moves` is
one step of a queue that is such a line, so a system with a queue shows its
fairness by one case per step (`Orderly.moves`).
-/

namespace Trans

/-- What happens to a waiting line. -/
inductive Turn (κ : Type)
  | join (k : κ)
  | leave (k : κ)
  | serve (k : κ)
  /-- Let in at once, without joining. -/
  | enter (k : κ)
deriving DecidableEq

variable {κ : Type}

/-- Who joined, in order. -/
def joined : List (Turn κ) → List κ
  | [] => []
  | .join k :: log => k :: joined log
  | _ :: log => joined log

def Gone (log : List (Turn κ)) (k : κ) : Prop := .serve k ∈ log ∨ .leave k ∈ log

instance [DecidableEq κ] (log : List (Turn κ)) (k : κ) : Decidable (Gone log k) :=
  inferInstanceAs (Decidable (_ ∨ _))

/-- Who waits: joined and not gone. -/
def lineOf [DecidableEq κ] (log : List (Turn κ)) : List κ :=
  (joined log).filter fun k => ¬ Gone log k

/-- First come, first served. -/
structure Fair (log : List (Turn κ)) : Prop where
  /-- Nobody is served who did not join, or twice. -/
  once : ∀ before after k, log = before ++ .serve k :: after →
    .join k ∈ before ∧ .serve k ∉ before
  /-- Whoever joined before somebody who is served is gone by then. -/
  order : ∀ before after a b, log = before ++ .serve b :: after →
    (∃ l₁ l₂, before = l₁ ++ .join a :: l₂ ∧ .join b ∈ l₂) → Gone before a
  /-- Whoever joined before somebody is let in at once is gone by then. -/
  noBarging : ∀ before after a k, log = before ++ .enter k :: after → .join a ∈ before →
    Gone before a

/-- Nobody joins twice, only who waits leaves, only the first is served, and
somebody is let in only past an empty line. -/
inductive Orderly [DecidableEq κ] : List (Turn κ) → Prop
  | nil : Orderly []
  | join {log : List (Turn κ)} {k : κ} : Orderly log → .join k ∉ log →
      Orderly (log ++ [.join k])
  | leave {log : List (Turn κ)} {k : κ} : Orderly log → k ∈ lineOf log →
      Orderly (log ++ [.leave k])
  | serve {log : List (Turn κ)} {k : κ} {rest : List κ} : Orderly log → lineOf log = k :: rest →
      Orderly (log ++ [.serve k])
  | enter {log : List (Turn κ)} {k : κ} : Orderly log → lineOf log = [] →
      Orderly (log ++ [.enter k])

/-! ## Reading a history -/

theorem joined_append (log log' : List (Turn κ)) :
    joined (log ++ log') = joined log ++ joined log' := by
  induction log with
  | nil => rfl
  | cons turn log ih => cases turn <;> simp [joined, ih]

theorem mem_joined {log : List (Turn κ)} {k : κ} : k ∈ joined log ↔ .join k ∈ log := by
  induction log with
  | nil => simp [joined]
  | cons turn log ih => cases turn <;> simp [joined, ih]

/-- A turn of a history with one more turn is that one, or was there before. -/
theorem split_concat {log before after : List (Turn κ)} {last turn : Turn κ}
    (h : log ++ [last] = before ++ turn :: after) :
    before = log ∧ turn = last ∨ ∃ rest, log = before ++ turn :: rest := by
  rcases List.eq_nil_or_concat after with rfl | ⟨rest, x, rfl⟩
  · obtain ⟨hBefore, hTurn⟩ := List.append_inj' h rfl
    exact Or.inl ⟨hBefore.symm, by simpa using hTurn.symm⟩
  · refine Or.inr ⟨rest, ?_⟩
    rw [List.concat_eq_append, ← List.cons_append, ← List.append_assoc] at h
    exact (List.append_inj' h rfl).1

theorem Fair.concat {log : List (Turn κ)} {last : Turn κ} (h : Fair log)
    (hOnce : ∀ k, last = .serve k → .join k ∈ log ∧ .serve k ∉ log)
    (hOrder : ∀ a b, last = .serve b →
      (∃ l₁ l₂, log = l₁ ++ .join a :: l₂ ∧ .join b ∈ l₂) → Gone log a)
    (hEnter : ∀ a k, last = .enter k → .join a ∈ log → Gone log a) : Fair (log ++ [last]) := by
  refine ⟨?_, ?_, ?_⟩
  · intro before after k hSplit
    rcases split_concat hSplit with ⟨rfl, hLast⟩ | ⟨rest, hOld⟩
    · exact hOnce k hLast.symm
    · exact h.once before rest k hOld
  · intro before after a b hSplit hBefore
    rcases split_concat hSplit with ⟨rfl, hLast⟩ | ⟨rest, hOld⟩
    · exact hOrder a b hLast.symm hBefore
    · exact h.order before rest a b hOld hBefore
  · intro before after a k hSplit hJoin
    rcases split_concat hSplit with ⟨rfl, hLast⟩ | ⟨rest, hOld⟩
    · exact hEnter a k hLast.symm hJoin
    · exact h.noBarging before rest a k hOld hJoin

section Line

variable [DecidableEq κ] {log : List (Turn κ)} {k a b : κ}

theorem mem_lineOf : k ∈ lineOf log ↔ .join k ∈ log ∧ ¬ Gone log k := by
  simp [lineOf, mem_joined]

namespace Orderly

theorem nodup (h : Orderly log) : (joined log).Nodup := by
  induction h with
  | nil => simp [joined]
  | join _ hNew ih =>
    rw [joined_append, List.nodup_append]
    refine ⟨ih, by simp [joined], ?_⟩
    rintro x hx y hy rfl
    obtain rfl : x = _ := by simpa [joined] using hy
    exact hNew (mem_joined.mp hx)
  | leave _ _ ih => simpa [joined_append, joined] using ih
  | serve _ _ ih => simpa [joined_append, joined] using ih
  | enter _ _ ih => simpa [joined_append, joined] using ih

/-- Only who joined is gone. -/
theorem join_of_gone (h : Orderly log) (hGone : Gone log k) : .join k ∈ log := by
  induction h with
  | nil => simp [Gone] at hGone
  | join _ _ ih =>
    refine List.mem_append_left _ (ih ?_)
    simpa [Gone] using hGone
  | @leave log x _ hin ih =>
    by_cases hx : k = x
    · exact List.mem_append_left _ (hx ▸ (mem_lineOf.mp hin).1)
    · exact List.mem_append_left _ (ih (by simpa [Gone, hx] using hGone))
  | @serve log x rest _ hFirst ih =>
    by_cases hx : k = x
    · have hin : x ∈ lineOf log := by simp [hFirst]
      exact List.mem_append_left _ (hx ▸ (mem_lineOf.mp hin).1)
    · exact List.mem_append_left _ (ih (by simpa [Gone, hx] using hGone))
  | enter _ _ ih =>
    refine List.mem_append_left _ (ih ?_)
    simpa [Gone] using hGone

/-! ## How the line moves -/

theorem lineOf_join (h : Orderly log) (hNew : .join k ∉ log) :
    lineOf (log ++ [.join k]) = lineOf log ++ [k] := by
  have hNot : ¬ Gone log k := fun hGone => hNew (h.join_of_gone hGone)
  have hSame : ∀ x, Gone (log ++ [.join k]) x ↔ Gone log x := by simp [Gone]
  simp [lineOf, joined_append, joined, hSame, hNot]

theorem lineOf_enter : lineOf (log ++ [.enter k]) = lineOf log := by
  simp [lineOf, joined_append, joined, Gone]

/-- Somebody goes, from wherever it stands. -/
theorem lineOf_gone {turn : Turn κ} (hTurn : turn = .leave k ∨ turn = .serve k) :
    lineOf (log ++ [turn]) = (lineOf log).filter fun x => x ≠ k := by
  have hSame : ∀ x, Gone (log ++ [turn]) x ↔ Gone log x ∨ x = k := by
    intro x
    rcases hTurn with rfl | rfl
    · simp [Gone, or_assoc]
    · simp only [Gone, List.mem_append, List.mem_singleton, Turn.serve.injEq, reduceCtorEq, or_false]
      tauto
  have hJoined : joined (log ++ [turn]) = joined log := by
    rcases hTurn with rfl | rfl <;> simp [joined_append, joined]
  rw [lineOf, lineOf, hJoined, List.filter_filter]
  apply List.filter_congr
  intro x _
  simp [hSame, and_comm]

/-! ## Fairness -/

/-- Nobody who waits stands behind somebody who joined later. -/
theorem first_of_line (h : Orderly log) {rest : List κ} (hFirst : lineOf log = b :: rest)
    (hBefore : ∃ l₁ l₂, log = l₁ ++ .join a :: l₂ ∧ .join b ∈ l₂) : Gone log a := by
  by_contra hWaits
  obtain ⟨l₁, l₂, hSplit, hLater⟩ := hBefore
  have hJoined : joined log = joined l₁ ++ a :: joined l₂ := by
    rw [hSplit, joined_append, joined]
  have hb : b ∈ joined l₂ := mem_joined.mpr hLater
  have hNodup := h.nodup
  rw [hJoined, List.nodup_append, List.nodup_cons] at hNodup
  obtain ⟨-, ⟨hne, -⟩, hApart⟩ := hNodup
  rw [lineOf, hJoined, List.filter_append, List.filter_cons_of_pos (by simpa using hWaits)] at hFirst
  -- the first in line joined before `a`, or is `a`; `b` is neither
  rcases hHead : (joined l₁).filter fun k => ¬ Gone log k with _ | ⟨x, front⟩
  · rw [hHead] at hFirst
    obtain rfl : a = b := by simpa using (List.cons.inj hFirst).1
    exact hne hb
  · rw [hHead] at hFirst
    obtain rfl : x = b := by simpa using (List.cons.inj hFirst).1
    have hin : x ∈ joined l₁ := List.mem_of_mem_filter (hHead ▸ List.mem_cons_self)
    exact hApart x hin x (List.mem_cons_of_mem a hb) rfl

/-- **An orderly line is first come, first served.** -/
theorem fair (h : Orderly log) : Fair log := by
  induction h with
  | nil => constructor <;> simp
  | join _ _ ih => exact ih.concat (by simp) (by simp) (by simp)
  | leave _ _ ih => exact ih.concat (by simp) (by simp) (by simp)
  | @serve log x rest hLog hFirst ih =>
    have hWaits := mem_lineOf.mp (hFirst ▸ List.mem_cons_self : x ∈ lineOf log)
    refine ih.concat ?_ ?_ (by simp)
    · rintro k ⟨⟩
      exact ⟨hWaits.1, fun hServed => hWaits.2 (Or.inl hServed)⟩
    · rintro a b ⟨⟩ hBefore
      exact hLog.first_of_line hFirst hBefore
  | @enter log x hLog hEmpty ih =>
    refine ih.concat (by simp) (by simp) ?_
    rintro a k ⟨⟩ hJoin
    by_contra hWaits
    have hin := mem_lineOf.mpr ⟨hJoin, hWaits⟩
    simp [hEmpty] at hin

end Orderly

/-! ## Queues that are lines -/

/-- One step of a queue, with the turns it makes. -/
inductive Moves : List κ → List (Turn κ) → List κ → Prop
  | none (line : List κ) : Moves line [] line
  | join (line : List κ) (k : κ) : Moves line [.join k] (line ++ [k])
  /-- Joined, but does not wait. -/
  | pass (line : List κ) (k : κ) : Moves line [.join k, .leave k] line
  | leave (line : List κ) (k : κ) (hin : k ∈ line) :
      Moves line [.leave k] (line.filter fun x => x ≠ k)
  | serve (line : List κ) (k : κ) : Moves (k :: line) [.serve k] line
  | enter (k : κ) : Moves [] [.enter k] []

/-- **Step.** A queue that moves like a line keeps its history orderly, if nobody
joins twice. -/
theorem Orderly.moves {turns : List (Turn κ)} {line : List κ} (h : Orderly log)
    (hMoves : Moves (lineOf log) turns line) (hNew : ∀ k, .join k ∈ turns → .join k ∉ log) :
    Orderly (log ++ turns) ∧ lineOf (log ++ turns) = line := by
  generalize hLine : lineOf log = old at hMoves
  cases hMoves with
  | none _ => simpa using ⟨h, hLine⟩
  | join _ k =>
    have hFresh := hNew k (by simp)
    exact ⟨h.join hFresh, by rw [h.lineOf_join hFresh, hLine]⟩
  | pass _ k =>
    have hFresh := hNew k (by simp)
    have hJoined := h.lineOf_join hFresh
    have hLog := h.join hFresh
    have hAbsent : ∀ x ∈ lineOf log, x ≠ k := by
      rintro x hin rfl
      exact hFresh (mem_lineOf.mp hin).1
    rw [show log ++ [Turn.join k, .leave k] = log ++ [.join k] ++ [.leave k] by simp]
    refine ⟨hLog.leave (by simp [hJoined]), ?_⟩
    rw [Orderly.lineOf_gone (Or.inl rfl), hJoined, List.filter_append,
      List.filter_eq_self.mpr (by simpa using hAbsent)]
    simpa using hLine
  | leave _ k hin =>
    exact ⟨h.leave (hLine ▸ hin), by rw [Orderly.lineOf_gone (Or.inl rfl), hLine]⟩
  | serve _ k =>
    have hNodup : (lineOf log).Nodup := h.nodup.filter _
    rw [hLine, List.nodup_cons] at hNodup
    refine ⟨h.serve hLine, ?_⟩
    rw [Orderly.lineOf_gone (Or.inr rfl), hLine, List.filter_cons_of_neg (by simp),
      List.filter_eq_self.mpr]
    intro x hx
    have hne : x ≠ k := fun heq => hNodup.1 (heq ▸ hx)
    simpa using hne
  | enter k => exact ⟨h.enter hLine, by rw [Orderly.lineOf_enter, hLine]⟩

end Line

end Trans
