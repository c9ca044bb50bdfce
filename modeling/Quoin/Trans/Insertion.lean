import Mathlib

/-!
# Trans — insertion sort in place

Sorting a sequence that lives in a state, by swapping neighbours, where what
is asked between two swaps is a program of its own: it may raise, and it may
change the state. `sink` moves one element to the left for as long as `test`
says so, `sinks` does that for one position after another.

Two things are said of them. Whatever `test` does, they make no more of it than
their positions allow (`Grade.Bounds`). Where `test` compares neighbours by a
fixed order, the sequence becomes `ascending`, which is Mathlib's insertion
sort seen from the other end; it keeps the order of equal elements
(`filter_ascending`).
-/

namespace Trans

/-! ## Programs that may raise -/

/-- A program over a state. What it has done to the state stays when it raises. -/
abbrev Prog (E S α : Type) := ExceptT E (StateM S) α

namespace Prog

variable {E S α β : Type} {x : Prog E S α} {f : α → Prog E S β} {s s' : S}

def outcome (x : Prog E S α) (s : S) : Except E α × S := x s

@[simp] theorem outcome_pure (a : α) (s : S) : outcome (pure a : Prog E S α) s = (.ok a, s) := rfl

@[simp] theorem outcome_throw (e : E) (s : S) :
    outcome (throw e : Prog E S α) s = (.error e, s) := rfl

@[simp] theorem outcome_get (s : S) : outcome (get : Prog E S S) s = (.ok s, s) := rfl

@[simp] theorem outcome_set (s s' : S) : outcome (set s' : Prog E S PUnit) s = (.ok ⟨⟩, s') := rfl

theorem outcome_bind_ok {a : α} (h : outcome x s = (.ok a, s')) :
    outcome (x >>= f) s = outcome (f a) s' := by
  have hx : x s = (.ok a, s') := h
  show (ExceptT.bindCont f (x s).1) (x s).2 = outcome (f a) s'
  rw [hx]
  rfl

theorem outcome_bind_error {e : E} (h : outcome x s = (.error e, s')) :
    outcome (x >>= f) s = (.error e, s') := by
  have hx : x s = (.error e, s') := h
  show (ExceptT.bindCont f (x s).1) (x s).2 = (.error e, s')
  rw [hx]
  rfl

end Prog

/-- What a program may have done to a state at some expense: nothing for nothing, and one thing
after another for both. -/
structure Grade (S : Type) where
  rel : Nat → S → S → Prop
  refl : ∀ s, rel 0 s s
  trans : ∀ {n m s s' s''}, rel n s s' → rel m s' s'' → rel (n + m) s s''
  mono : ∀ {n m s s'}, n ≤ m → rel n s s' → rel m s s'

namespace Grade

variable {E S α β : Type} {G : Grade S} {n m : Nat} {x : Prog E S α} {f : α → Prog E S β}

/-- The program does what it may do at the expense `n`, also if it raises. -/
def Bounds (G : Grade S) (n : Nat) (x : Prog E S α) : Prop := ∀ s, G.rel n s (x.outcome s).2

theorem Bounds.mono (h : G.Bounds n x) (hle : n ≤ m) : G.Bounds m x :=
  fun s => G.mono hle (h s)

theorem bounds_pure (a : α) : G.Bounds 0 (pure a : Prog E S α) := G.refl

theorem bounds_get : G.Bounds 0 (get : Prog E S S) := G.refl

theorem Bounds.bind (h : G.Bounds n x) (hf : ∀ a, G.Bounds m (f a)) :
    G.Bounds (n + m) (x >>= f) := by
  intro s
  rcases hx : x.outcome s with ⟨_ | a, s'⟩
  · rw [Prog.outcome_bind_error hx]
    have hFirst := h s
    rw [hx] at hFirst
    exact G.mono (Nat.le_add_right n m) hFirst
  · rw [Prog.outcome_bind_ok hx]
    have hFirst := h s
    rw [hx] at hFirst
    exact G.trans hFirst (hf a s')

end Grade

/-! ## The sort -/

section Sinking

variable {E S : Type} (test : Nat → Prog E S Bool) (swap : Nat → Prog E S Unit)

/-- The element at position `j` goes to the left, past each neighbour that `test` says it is to go
before. -/
def sink : Nat → Prog E S Unit
  | 0 => pure ()
  | j + 1 => do
    if ← test (j + 1) then
      swap (j + 1)
      sink j

/-- The elements at `n` positions from `i` on go to the left, one after another. -/
def sinks (i : Nat) : Nat → Prog E S Unit
  | 0 => pure ()
  | n + 1 => do
    sink test swap i
    sinks (i + 1) n

variable {test swap} {G : Grade S} {n : Nat}

theorem bounds_sink (hTest : ∀ j, G.Bounds n (test j)) (hSwap : ∀ j, G.Bounds 0 (swap j))
    (j : Nat) : G.Bounds (j * n) (sink test swap j) := by
  induction j with
  | zero => exact (Grade.bounds_pure ()).mono (Nat.zero_le _)
  | succ j ih =>
    rw [sink, Nat.succ_mul, Nat.add_comm]
    refine (hTest (j + 1)).bind fun b => ?_
    cases b with
    | false => exact (Grade.bounds_pure ()).mono (Nat.zero_le _)
    | true =>
      have hRest := (hSwap (j + 1)).bind fun _ => ih
      exact hRest.mono (by omega)

/-- Of `n` elements no two are compared twice. -/
theorem bounds_sinks (hTest : ∀ j, G.Bounds n (test j)) (hSwap : ∀ j, G.Bounds 0 (swap j))
    (i k : Nat) : G.Bounds ((∑ j ∈ Finset.range k, (i + j)) * n) (sinks test swap i k) := by
  induction k generalizing i with
  | zero => exact (Grade.bounds_pure ()).mono (Nat.zero_le _)
  | succ k ih =>
    have hSum : (∑ j ∈ Finset.range (k + 1), (i + j)) = i + ∑ j ∈ Finset.range k, (i + 1 + j) := by
      rw [Finset.sum_range_succ', Nat.add_comm]
      exact congrArg (i + ·) (Finset.sum_congr rfl fun j _ => by omega)
    rw [sinks, hSum, Nat.add_mul]
    exact (bounds_sink hTest hSwap i).bind fun _ => ih (i + 1)

end Sinking

/-! ## The order it makes -/

section Order

variable {α : Type} (le : α → α → Bool)

/-- The elements of a list in order, equal ones as they are. -/
def ascending (l : List α) : List α := (l.reverse.insertionSort fun a b => le b a).reverse

/-- The insertions from left to right. -/
theorem ascending_eq_foldl (l : List α) : ascending le l
    = (l.foldl (fun q x => q.orderedInsert (fun a b => le b a) x) []).reverse := by
  rw [ascending, List.insertionSort, List.foldr_reverse]

theorem ascending_perm (l : List α) : (ascending le l).Perm l :=
  (List.reverse_perm _).trans ((List.perm_insertionSort _ _).trans (List.reverse_perm l))

variable {le}

theorem ascending_pairwise (hTotal : ∀ a b, le a b || le b a)
    (hTrans : ∀ a b c, le a b → le b c → le a c) (l : List α) :
    (ascending le l).Pairwise fun a b => le a b := by
  have : Std.Total fun a b => (le b a : Prop) := ⟨fun a b => by simpa using hTotal b a⟩
  have : IsTrans α fun a b => (le b a : Prop) := ⟨fun a b c h h' => hTrans c b a h' h⟩
  exact List.pairwise_reverse.mpr (List.pairwise_insertionSort _ _)

/-- Equal elements stay in the order they were in. -/
theorem filter_ascending (hTotal : ∀ a b, le a b || le b a)
    (hTrans : ∀ a b c, le a b → le b c → le a c) (l : List α) (a : α) :
    ((ascending le l).filter fun b => le a b && le b a) = l.filter fun b => le a b && le b a := by
  have : Std.Total fun a b => (le b a : Prop) := ⟨fun a b => by simpa using hTotal b a⟩
  have : IsTrans α fun a b => (le b a : Prop) := ⟨fun a b c h h' => hTrans c b a h' h⟩
  have hEqual : (l.filter fun b => le a b && le b a).reverse.Pairwise
      fun a b => (le b a : Prop) := by
    rw [List.pairwise_reverse]
    refine List.pairwise_of_forall_mem_list fun b hb c hc => ?_
    rw [List.mem_filter, Bool.and_eq_true] at hb hc
    exact hTrans _ _ _ hb.2.2 hc.2.1
  have hSub : (l.filter fun b => le a b && le b a).Sublist (ascending le l) :=
    List.sublist_reverse_iff.mpr
      (List.sublist_insertionSort hEqual (List.filter_sublist.reverse))
  have hFilter := hSub.filter fun b => le a b && le b a
  rw [List.filter_filter] at hFilter
  simp only [Bool.and_self] at hFilter
  exact (hFilter.eq_of_length ((ascending_perm le l).filter _).length_eq.symm).symm

end Order

/-! ## A sort by a fixed order -/

section Ordered

variable {E S α : Type} {test : Nat → Prog E S Bool} {swap : Nat → Prog E S Unit}

/-- `test` compares the neighbours `a` and `b` among the elements of `l` by `le`, and `swap` swaps
them. -/
structure Compares (items : S → List α) (le : α → α → Bool) (l : List α)
    (test : Nat → Prog E S Bool) (swap : Nat → Prog E S Unit) : Prop where
  test : ∀ {s p a b q}, items s = p ++ a :: b :: q → a ∈ l → b ∈ l →
    ∃ s', (test (p.length + 1)).outcome s = (.ok (!le a b), s') ∧ items s' = items s
  swap : ∀ {s p a b q}, items s = p ++ a :: b :: q →
    ∃ s', (swap (p.length + 1)).outcome s = (.ok (), s') ∧ items s' = p ++ b :: a :: q

namespace Compares

variable {items : S → List α} {le : α → α → Bool} {l : List α}

/-- The element goes to the place that `orderedInsert` puts it in, seen from the right. -/
theorem sink (h : Compares items le l test swap) {q rest : List α} {x : α} {s : S}
    (hItems : items s = q.reverse ++ x :: rest) (hq : ∀ y ∈ q, y ∈ l) (hx : x ∈ l) :
    ∃ s', (sink test swap q.length).outcome s = (.ok (), s') ∧
      items s' = (q.orderedInsert (fun a b => le b a) x).reverse ++ rest := by
  induction q generalizing rest s with
  | nil => exact ⟨s, rfl, hItems⟩
  | cons y q ih =>
    rw [List.reverse_cons, List.append_assoc, List.singleton_append] at hItems
    obtain ⟨s₁, hTest, hSame⟩ := h.test hItems (hq y List.mem_cons_self) hx
    rw [List.length_reverse] at hTest
    rw [List.length_cons, Trans.sink, Prog.outcome_bind_ok hTest]
    by_cases hle : le y x = true
    · rw [List.orderedInsert_cons, if_pos hle, hle]
      refine ⟨s₁, rfl, ?_⟩
      rw [hSame, hItems, List.reverse_cons, List.reverse_cons, List.append_assoc, List.append_assoc]
      rfl
    · rw [List.orderedInsert_cons, if_neg hle]
      rw [Bool.not_eq_true] at hle
      rw [hle]
      obtain ⟨s₂, hSwap, hItems₂⟩ := h.swap (hSame.trans hItems)
      rw [List.length_reverse] at hSwap
      obtain ⟨s₃, hSink, hItems₃⟩ := ih hItems₂ (fun z hz => hq z (List.mem_cons_of_mem y hz))
      refine ⟨s₃, (Prog.outcome_bind_ok hSwap).trans hSink, ?_⟩
      rw [hItems₃, List.reverse_cons, List.append_assoc, List.singleton_append]

theorem sinks (h : Compares items le l test swap) {q rest : List α} {s : S}
    (hItems : items s = q.reverse ++ rest) (hq : ∀ y ∈ q, y ∈ l) (hRest : ∀ y ∈ rest, y ∈ l) :
    ∃ s', (sinks test swap q.length rest.length).outcome s = (.ok (), s') ∧
      items s' = (rest.foldl (fun q x => q.orderedInsert (fun a b => le b a) x) q).reverse := by
  induction rest generalizing q s with
  | nil => exact ⟨s, rfl, by rw [hItems, List.append_nil]; rfl⟩
  | cons x rest ih =>
    obtain ⟨s₁, hSink, hItems₁⟩ := h.sink hItems hq (hRest x List.mem_cons_self)
    have hMem : ∀ y ∈ q.orderedInsert (fun a b => le b a) x, y ∈ l := by
      intro y hy
      rcases (List.mem_orderedInsert _).mp hy with rfl | hy
      · exact hRest y List.mem_cons_self
      · exact hq y hy
    obtain ⟨s₂, hSinks, hItems₂⟩ :=
      ih hItems₁ hMem fun y hy => hRest y (List.mem_cons_of_mem x hy)
    rw [List.orderedInsert_length] at hSinks
    exact ⟨s₂, (Prog.outcome_bind_ok hSink).trans hSinks, hItems₂⟩

/-- From the second position on, the sequence is sorted. -/
theorem sorts (h : Compares items le l test swap) {s : S} (hItems : items s = l) :
    ∃ s', (Trans.sinks test swap 1 (l.length - 1)).outcome s = (.ok (), s') ∧
      items s' = ascending le l := by
  rw [ascending_eq_foldl]
  cases l with
  | nil => exact ⟨s, rfl, hItems⟩
  | cons x rest =>
    have hRest : ∀ y ∈ rest, y ∈ x :: rest := fun y hy => List.mem_cons_of_mem x hy
    exact h.sinks (q := [x]) hItems (by simp) hRest

end Compares

end Ordered

end Trans
