import Mathlib
import Quoin.Streams.Writes

/-!
# Quoin — what a flush vouches for

Each byte that was accepted is with the backend, in a `Write` that is not done,
or in the buffer, in this order, but for the bytes of the writes whose `Write`
was lost (`Inv.conserved`). A parked `flush!` or `close` has all that it is for
in its own `Write` or before it, so nothing of that is on its way when it goes
on (`Promised`). Each step keeps this where no `Write` is lost that carries
bytes of a write that has returned (`inv_step`).

## Results

* `inv_step` — every step that loses no `Write` with bytes of a write that has returned keeps `Inv`;
* `flushed_durable` — in runs of such steps, what a `flush!` or `close` vouches for is with the
  backend when it returns;
* `flush_lost` — a `flush!` that is cancelled takes the buffer with it.
-/

namespace Quoin.Streams.Writing

open Trans

/-! ## The bytes on their way -/

/-- The bytes that `Write`s have still to write. -/
def State.pending (s : State) : List Mark := s.ops.flatMap Pending.left

/-- The bytes of the `Write`s after a call's. -/
def later (call : Nat) : List Pending → List Mark
  | [] => []
  | op :: ops => if op.call = call then ops.flatMap Pending.left else later call ops

/-- Nothing of these writes is on its way. -/
def Drained (s : State) (writes : List Nat) : Prop :=
  ∀ m ∈ s.pending ++ s.wbuf, m.write ∉ writes

/-- All that was issued after the call's `Write`, and the buffer, is of other writes. -/
def DrainedAfter (s : State) (call : Nat) (writes : List Nat) : Prop :=
  ∀ m ∈ later call s.ops ++ s.wbuf, m.write ∉ writes

/-- What a parked call may count on. -/
def Promised (s : State) (call : Nat) : Parked → Prop
  | ⟨.write, _⟩ => True
  | ⟨.flush before, wake⟩ | ⟨.close before, wake⟩ =>
    before ⊆ s.returned ∧ (wake = some true → Drained s before) ∧
      (wake = none → DrainedAfter s call before)
  | ⟨.finish before, _⟩ => before ⊆ s.returned ∧ Drained s before

/-- The invariant. Of the writes that are not `dead`, whose `Write` was lost, all bytes are where they
should be. -/
structure Inv (cap : Nat) (s : State) (dead : List Nat) : Prop where
  conserved : (s.handed ++ (s.pending ++ s.wbuf)).filter (fun m => m.write ∉ dead) =
    s.accepted.filter fun m => m.write ∉ dead
  alive : ∀ w ∈ s.returned, w ∉ dead
  through : cap = 0 → s.wbuf = []
  buffered : ∀ m ∈ s.wbuf, m.write ∈ s.returned
  own : ∀ op ∈ s.ops, ∀ m ∈ op.left, m.write ∈ s.returned ∨ m.write = op.call
  waiting : ∀ op ∈ s.ops, ∃ p, s.calls op.call = some p ∧ p.wake = none ∧
    ∀ before, p.kind ≠ .finish before
  distinct : s.ops.Pairwise fun op op' => op.call ≠ op'.call
  inOrder : ∀ op ∈ s.ops.tail, op.begun = false
  freshReturned : ∀ w ∈ s.returned, w < s.next
  freshDead : ∀ w ∈ dead, w < s.next
  freshCalls : ∀ call p, s.calls call = some p → call < s.next
  parked : ∀ call p, s.calls call = some p →
    call ∉ s.returned ∧ (p.wake ≠ some false → call ∉ dead) ∧ Promised s call p
  shut : s.closed = true → Drained s s.returned
  settled : ∀ writes ∈ s.settled, writes ⊆ s.returned ∧ Drained s writes

section Lists

variable {call n : Nat} {ops : List Pending} {op : Pending}

theorem later_subset (call : Nat) (ops : List Pending) :
    later call ops ⊆ ops.flatMap Pending.left := by
  induction ops with
  | nil => exact List.Subset.refl _
  | cons op ops ih =>
    rw [later, List.flatMap_cons]
    split_ifs
    · exact List.subset_append_right _ _
    · exact List.Subset.trans ih (List.subset_append_right _ _)

/-- A `Write` more is after the others. -/
theorem mem_later_concat {m : Mark} (h : m ∈ later call (ops ++ [op])) :
    m ∈ later call ops ∨ m ∈ op.left := by
  induction ops with
  | nil =>
    rw [List.nil_append, later] at h
    split_ifs at h
    · exact .inl h
    · exact .inl h
  | cons op' ops ih =>
    rw [List.cons_append, later] at h
    rw [later]
    split_ifs at h ⊢
    · rw [List.flatMap_append] at h
      rcases List.mem_append.mp h with hOld | hNew
      · exact .inl hOld
      · rw [List.flatMap_singleton] at hNew
        exact .inr hNew
    · exact ih h

/-- Nothing is after the last `Write`. -/
theorem later_concat_self (h : ∀ op' ∈ ops, op'.call ≠ op.call) :
    later op.call (ops ++ [op]) = [] := by
  induction ops with
  | nil =>
    rw [List.nil_append, later, if_pos rfl]
    rfl
  | cons op' ops ih =>
    rw [List.cons_append, later, if_neg (h op' List.mem_cons_self)]
    exact ih fun op'' hMem => h op'' (List.mem_cons_of_mem _ hMem)

theorem later_filter (call n : Nat) (ops : List Pending) :
    later call (ops.filter fun op => op.call ≠ n) ⊆ later call ops := by
  induction ops with
  | nil => exact List.Subset.refl _
  | cons op ops ih =>
    have hLeft : (ops.filter fun op => op.call ≠ n).flatMap Pending.left ⊆
        ops.flatMap Pending.left := by
      intro m hm
      obtain ⟨op', hMem, hm⟩ := List.mem_flatMap.mp hm
      exact List.mem_flatMap.mpr ⟨op', (List.mem_filter.mp hMem).1, hm⟩
    by_cases hKeep : op.call ≠ n
    · rw [List.filter_cons_of_pos (by simpa using hKeep), later, later]
      split_ifs
      · exact hLeft
      · exact ih
    · rw [List.filter_cons_of_neg (by simpa using hKeep), later]
      split_ifs
      · exact List.Subset.trans (later_subset _ _) hLeft
      · exact ih

theorem tail_filter_subset {α : Type} (p : α → Bool) (l : List α) :
    (l.filter p).tail ⊆ l.tail := by
  cases l with
  | nil => exact List.Subset.refl _
  | cons a l =>
    rw [List.filter_cons]
    split_ifs
    · exact fun _ h => List.mem_of_mem_filter h
    · exact fun _ h => List.mem_of_mem_filter (List.mem_of_mem_tail h)

/-- Without the `Write`s of a call, whose bytes are all of one write, the rest is as it was but for
that write. -/
theorem filter_drop {dead : List Nat}
    (h : ∀ op ∈ ops, op.call = n → ∀ m ∈ op.left, m.write ∈ dead) :
    ((ops.filter fun op => op.call ≠ n).flatMap Pending.left).filter (fun m => m.write ∉ dead) =
      (ops.flatMap Pending.left).filter fun m => m.write ∉ dead := by
  induction ops with
  | nil => rfl
  | cons op ops ih =>
    have hRest := ih fun op' hMem => h op' (List.mem_cons_of_mem _ hMem)
    by_cases hKeep : op.call ≠ n
    · rw [List.filter_cons_of_pos (by simpa using hKeep), List.flatMap_cons, List.flatMap_cons,
        List.filter_append, List.filter_append, hRest]
    · rw [List.filter_cons_of_neg (by simpa using hKeep), List.flatMap_cons, List.filter_append,
        hRest]
      have hNone : op.left.filter (fun m => m.write ∉ dead) = [] := by
        refine List.filter_eq_nil_iff.mpr fun m hm => ?_
        simpa using h op List.mem_cons_self (by simpa using hKeep) m hm
      rw [hNone, List.nil_append]

end Lists

section Invariant

variable {cap : Nat} {codec : Bool} {s s' : State} {dead : List Nat} {call : Nat}

/-- What goes only by the bytes on their way is kept where no more of them come. -/
theorem Promised.mono {p : Parked} (h : Promised s call p) (hReturned : s.returned ⊆ s'.returned)
    (hDrained : ∀ writes ⊆ s.returned, Drained s writes → Drained s' writes)
    (hAfter : ∀ writes ⊆ s.returned, DrainedAfter s call writes → DrainedAfter s' call writes) :
    Promised s' call p := by
  obtain ⟨kind, wake⟩ := p
  cases kind with
  | write => trivial
  | flush before =>
    obtain ⟨hSub, hDone, hLater⟩ := h
    exact ⟨List.Subset.trans hSub hReturned, fun hw => hDrained before hSub (hDone hw),
      fun hw => hAfter before hSub (hLater hw)⟩
  | close before =>
    obtain ⟨hSub, hDone, hLater⟩ := h
    exact ⟨List.Subset.trans hSub hReturned, fun hw => hDrained before hSub (hDone hw),
      fun hw => hAfter before hSub (hLater hw)⟩
  | finish before =>
    obtain ⟨hSub, hDone⟩ := h
    exact ⟨List.Subset.trans hSub hReturned, hDrained before hSub hDone⟩

/-- What is nowhere on its way is with the backend. -/
theorem durable_of_drained {writes : List Nat} (hInv : Inv cap s dead)
    (hReturned : writes ⊆ s.returned) (hDrained : Drained s writes) : Durable s writes := by
  have hAlive : ∀ l : List Mark,
      (l.filter fun m => m.write ∉ dead).filter (fun m => m.write ∈ writes) =
        l.filter fun m => m.write ∈ writes := by
    intro l
    rw [List.filter_filter]
    refine List.filter_congr fun m _ => ?_
    by_cases hIn : m.write ∈ writes
    · simp [hIn, hInv.alive m.write (hReturned hIn)]
    · simp [hIn]
  have hNone : (s.pending ++ s.wbuf).filter (fun m => m.write ∈ writes) = [] :=
    List.filter_eq_nil_iff.mpr fun m hm => by simpa using hDrained m hm
  have hBoth := congrArg (List.filter fun m => m.write ∈ writes) hInv.conserved
  rw [hAlive, hAlive, List.filter_append, hNone, List.append_nil] at hBoth
  exact hBoth

theorem inv_start (cap : Nat) : Inv cap State.start [] where
  conserved := rfl
  alive := fun _ h => absurd h List.not_mem_nil
  through := fun _ => rfl
  buffered := fun _ h => absurd h List.not_mem_nil
  own := fun _ h => absurd h List.not_mem_nil
  waiting := fun _ h => absurd h List.not_mem_nil
  distinct := .nil
  inOrder := fun _ h => absurd h List.not_mem_nil
  freshReturned := fun _ h => absurd h List.not_mem_nil
  freshDead := fun _ h => absurd h List.not_mem_nil
  freshCalls := fun _ _ h => by cases h
  parked := fun _ _ h => by cases h
  shut := fun h => by cases h
  settled := fun _ h => absurd h List.not_mem_nil

/-- The next write is none of those that have returned. -/
theorem Inv.next_notMem {writes : List Nat} (hInv : Inv cap s dead)
    (h : writes ⊆ s.returned) : s.next ∉ writes := by
  intro hIn
  have hLt := hInv.freshReturned s.next (h hIn)
  omega

/-- A call that takes the buffer, and new bytes after it, and parks. -/
theorem inv_issue {kind : Kind} {new : List Mark} (hInv : Inv cap s dead)
    (hOpen : s.closed = false) (hNew : ∀ m ∈ new, m.write = s.next)
    (hKind : kind = .write ∨ kind = .flush s.returned ∨ kind = .close s.returned) :
    Inv cap (State.issue { s with accepted := s.accepted ++ new, wbuf := [] } kind
      (s.wbuf ++ new)) dead := by
  -- the new `Write` carries what was in the buffer, and then `new`
  have hPending : State.pending (State.issue
      { s with accepted := s.accepted ++ new, wbuf := [] } kind (s.wbuf ++ new)) =
        s.pending ++ (s.wbuf ++ new) := by
    show (s.ops ++ [_]).flatMap Pending.left = _
    rw [List.flatMap_append, List.flatMap_singleton]
    rfl
  -- the bytes of `new` are of a write that has not returned, so of none of `writes`
  have hDrained : ∀ writes ⊆ s.returned, Drained s writes → Drained (State.issue
      { s with accepted := s.accepted ++ new, wbuf := [] } kind (s.wbuf ++ new)) writes := by
    intro writes hSub h m hm
    unfold Drained at h
    rw [hPending] at hm
    simp only [State.issue, List.append_nil, ← List.append_assoc] at hm
    rcases List.mem_append.mp hm with hOld | hOwn
    · exact h m hOld
    · rw [hNew m hOwn]
      exact hInv.next_notMem hSub
  -- a `Write` has the number of the call that issued it, and this call is the newest
  have hOlder : ∀ op ∈ s.ops, op.call ≠ s.next := by
    intro op hMem hEq
    obtain ⟨p, hCall, -⟩ := hInv.waiting op hMem
    have hLt := hInv.freshCalls _ _ hCall
    omega
  constructor
  case conserved =>
    rw [hPending]
    show (s.handed ++ ((s.pending ++ (s.wbuf ++ new)) ++ [])).filter _ =
      (s.accepted ++ new).filter _
    rw [List.append_nil, ← List.append_assoc, ← List.append_assoc, List.filter_append,
      List.filter_append s.accepted, ← hInv.conserved, List.append_assoc s.handed]
  case alive => exact hInv.alive
  case through => exact fun _ => rfl
  case buffered => exact fun _ h => absurd h List.not_mem_nil
  case own =>
    intro op hMem m hm
    rcases List.mem_append.mp hMem with hOld | hLast
    · exact hInv.own op hOld m hm
    · obtain rfl := List.mem_singleton.mp hLast
      rcases List.mem_append.mp hm with hBuf | hOwn
      · exact .inl (hInv.buffered m hBuf)
      · exact .inr (hNew m hOwn)
  case waiting =>
    intro op hMem
    rcases List.mem_append.mp hMem with hOld | hLast
    · obtain ⟨p, hCall, hWake⟩ := hInv.waiting op hOld
      exact ⟨p, (Function.update_of_ne (hOlder op hOld) _ _).trans hCall, hWake⟩
    · obtain rfl := List.mem_singleton.mp hLast
      refine ⟨⟨kind, none⟩, Function.update_self _ _ _, rfl, fun before hFinish => ?_⟩
      rcases hKind with rfl | rfl | rfl <;> cases hFinish
  case distinct =>
    refine List.pairwise_append.mpr ⟨hInv.distinct, List.pairwise_singleton _ _, ?_⟩
    intro op hMem op' hLast
    obtain rfl := List.mem_singleton.mp hLast
    exact hOlder op hMem
  case inOrder =>
    intro op hMem
    have hMem' : op ∈ (s.ops ++ [Pending.mk s.next (s.wbuf ++ new) false]).tail := hMem
    cases hOps : s.ops with
    | nil =>
      rw [hOps] at hMem'
      exact absurd hMem' List.not_mem_nil
    | cons op' ops =>
      rw [hOps] at hMem'
      rcases List.mem_append.mp hMem' with hOld | hLast
      · exact hInv.inOrder op (by rw [hOps]; exact hOld)
      · obtain rfl := List.mem_singleton.mp hLast
        rfl
  case freshReturned => exact fun w hw => Nat.lt_succ_of_lt (hInv.freshReturned w hw)
  case freshDead => exact fun w hw => Nat.lt_succ_of_lt (hInv.freshDead w hw)
  case freshCalls =>
    intro c p hCall
    by_cases hNext : c = s.next
    · rw [hNext]
      exact Nat.lt_succ_self _
    · exact Nat.lt_succ_of_lt
        (hInv.freshCalls c p ((Function.update_of_ne hNext _ _).symm.trans hCall))
  case parked =>
    intro c p hCall
    by_cases hNext : c = s.next
    · -- the call that issues this `Write`
      subst hNext
      have hSelf : some (Parked.mk kind none) = some p :=
        (Function.update_self s.next _ s.calls).symm.trans hCall
      obtain rfl := Option.some.inj hSelf
      refine ⟨hInv.next_notMem (List.Subset.refl _), fun _ hDead => ?_, ?_⟩
      · have hLt := hInv.freshDead _ hDead
        omega
      · -- nothing is issued after this `Write` yet
        have hLast : DrainedAfter (State.issue { s with accepted := s.accepted ++ new, wbuf := [] }
            kind (s.wbuf ++ new)) s.next s.returned := by
          intro m hm
          have hNil : later s.next (s.ops ++ [⟨s.next, s.wbuf ++ new, false⟩]) = [] :=
            @later_concat_self s.ops ⟨s.next, s.wbuf ++ new, false⟩ hOlder
          have hm' : m ∈ later s.next (s.ops ++ [⟨s.next, s.wbuf ++ new, false⟩]) ++ [] := hm
          rw [hNil] at hm'
          exact absurd hm' List.not_mem_nil
        rcases hKind with rfl | rfl | rfl
        · trivial
        · exact ⟨List.Subset.refl _, (fun h => by cases h), fun _ => hLast⟩
        · exact ⟨List.Subset.refl _, (fun h => by cases h), fun _ => hLast⟩
    · -- a call that was parked before
      have hOld : s.calls c = some p := (Function.update_of_ne hNext _ _).symm.trans hCall
      obtain ⟨hNot, hAlive, hPromised⟩ := hInv.parked c p hOld
      refine ⟨hNot, hAlive, hPromised.mono (List.Subset.refl _) hDrained ?_⟩
      intro writes hSub h m hm
      have hm' : m ∈ later c (s.ops ++ [⟨s.next, s.wbuf ++ new, false⟩]) := by
        rcases List.mem_append.mp hm with hLater | hBuf
        · exact hLater
        · exact absurd hBuf List.not_mem_nil
      rcases mem_later_concat hm' with hBefore | hTaken
      · exact h m (List.mem_append_left _ hBefore)
      · rcases List.mem_append.mp hTaken with hBuf | hOwn
        · exact h m (List.mem_append_right _ hBuf)
        · rw [hNew m hOwn]
          exact hInv.next_notMem hSub
  case shut => exact fun h => absurd (hOpen.symm.trans h) (by simp)
  case settled =>
    intro writes hMem
    obtain ⟨hSub, hDone⟩ := hInv.settled writes hMem
    exact ⟨hSub, hDrained writes hSub hDone⟩

/-- A write into the buffer returns at once. -/
theorem inv_append {new : List Mark} (hInv : Inv cap s dead) (hCap : cap ≠ 0)
    (hOpen : s.closed = false) (hNew : ∀ m ∈ new, m.write = s.next) :
    Inv cap { s with
      accepted := s.accepted ++ new
      wbuf := s.wbuf ++ new
      returned := s.returned ++ [s.next]
      next := s.next + 1 } dead := by
  -- no write that has returned is the one that returns now
  have hOther : ∀ writes ⊆ s.returned, ∀ m ∈ new, m.write ∉ writes := by
    intro writes hSub m hm
    rw [hNew m hm]
    exact hInv.next_notMem hSub
  have hNextDead : s.next ∉ dead := fun hDead => by
    have hLt := hInv.freshDead _ hDead
    omega
  have hDrained : ∀ writes ⊆ s.returned, Drained s writes → ∀ m ∈ s.pending ++ (s.wbuf ++ new),
      m.write ∉ writes := by
    intro writes hSub h m hm
    rw [← List.append_assoc] at hm
    rcases List.mem_append.mp hm with hOld | hOwn
    · exact h m hOld
    · exact hOther writes hSub m hOwn
  constructor
  case conserved =>
    show (s.handed ++ (s.pending ++ (s.wbuf ++ new))).filter _ = (s.accepted ++ new).filter _
    rw [← List.append_assoc, ← List.append_assoc, List.filter_append,
      List.filter_append s.accepted, ← hInv.conserved, List.append_assoc s.handed]
  case alive =>
    intro w hw
    rcases List.mem_append.mp hw with hOld | hLast
    · exact hInv.alive w hOld
    · rw [List.mem_singleton.mp hLast]
      exact hNextDead
  case through => exact fun h => absurd h hCap
  case buffered =>
    intro m hm
    rcases List.mem_append.mp hm with hOld | hOwn
    · exact List.mem_append_left _ (hInv.buffered m hOld)
    · rw [hNew m hOwn]
      exact List.mem_append_right _ (List.mem_singleton_self _)
  case own =>
    intro op hMem m hm
    exact (hInv.own op hMem m hm).imp_left (List.mem_append_left _)
  case waiting => exact hInv.waiting
  case distinct => exact hInv.distinct
  case inOrder => exact hInv.inOrder
  case freshReturned =>
    intro w hw
    rcases List.mem_append.mp hw with hOld | hLast
    · exact Nat.lt_succ_of_lt (hInv.freshReturned w hOld)
    · rw [List.mem_singleton.mp hLast]
      exact Nat.lt_succ_self _
  case freshDead => exact fun w hw => Nat.lt_succ_of_lt (hInv.freshDead w hw)
  case freshCalls => exact fun c p hCall => Nat.lt_succ_of_lt (hInv.freshCalls c p hCall)
  -- what the others were promised are earlier writes, and nothing of these is added
  case parked =>
    intro c p hCall
    obtain ⟨hNot, hAlive, hPromised⟩ := hInv.parked c p hCall
    have hLt := hInv.freshCalls c p hCall
    refine ⟨fun hMem => ?_, hAlive, hPromised.mono (List.subset_append_left _ _) hDrained ?_⟩
    · rcases List.mem_append.mp hMem with hOld | hLast
      · exact hNot hOld
      · have hEq := List.mem_singleton.mp hLast
        omega
    · intro writes hSub h m hm
      have hm' : m ∈ later c s.ops ++ (s.wbuf ++ new) := hm
      rw [← List.append_assoc] at hm'
      rcases List.mem_append.mp hm' with hOld | hOwn
      · exact h m hOld
      · exact hOther writes hSub m hOwn
  case shut => exact fun h => absurd (hOpen.symm.trans h) (by simp)
  case settled =>
    intro writes hMem
    obtain ⟨hSub, hDone⟩ := hInv.settled writes hMem
    exact ⟨List.Subset.trans hSub (List.subset_append_left _ _), hDrained writes hSub hDone⟩

/-- Without the `Write` of a call there is less on its way. -/
theorem drained_filter {writes : List Nat} (n : Nat) (h : Drained s writes) :
    ∀ m ∈ (s.ops.filter fun op => op.call ≠ n).flatMap Pending.left ++ s.wbuf,
      m.write ∉ writes := by
  intro m hm
  refine h m ?_
  rcases List.mem_append.mp hm with hPending | hBuf
  · obtain ⟨op, hMem, hm⟩ := List.mem_flatMap.mp hPending
    exact List.mem_append_left _
      (List.mem_flatMap.mpr ⟨op, (List.mem_filter.mp hMem).1, hm⟩)
  · exact List.mem_append_right _ hBuf

theorem drainedAfter_filter {writes : List Nat} {c : Nat} (n : Nat)
    (h : DrainedAfter s c writes) :
    ∀ m ∈ later c (s.ops.filter fun op => op.call ≠ n) ++ s.wbuf, m.write ∉ writes := by
  intro m hm
  refine h m ?_
  rcases List.mem_append.mp hm with hLater | hBuf
  · exact List.mem_append_left _ (later_filter c n s.ops hLater)
  · exact List.mem_append_right _ hBuf

/-- More dead writes leave fewer bytes to account for. -/
theorem filter_dead {dead' : List Nat} (hSub : dead ⊆ dead') (l : List Mark) :
    (l.filter fun m => m.write ∉ dead).filter (fun m => m.write ∉ dead') =
      l.filter fun m => m.write ∉ dead' := by
  rw [List.filter_filter]
  refine List.filter_congr fun m _ => ?_
  by_cases hIn : m.write ∈ dead'
  · simp [hIn]
  · have hNot : m.write ∉ dead := fun h => hIn (hSub h)
    simp [hIn, hNot]

/-- A call's `Write` is over, and the call is woken. What the `Write` had left is dead. -/
theorem inv_wake {p : Parked} {ok : Bool} {dead' : List Nat} (hInv : Inv cap s dead)
    (hCall : s.calls call = some p) (hSub : dead ⊆ dead')
    (hOnly : ∀ w ∈ dead', w ∈ dead ∨ w = call)
    (hLeft : ∀ op ∈ s.ops, op.call = call → ∀ m ∈ op.left, m.write ∈ dead')
    (hAlive : ok = true → call ∉ dead')
    (hDone : ok = true → Promised { s with ops := s.ops.filter fun op => op.call ≠ call } call
      ⟨p.kind, some true⟩) :
    Inv cap { s with
      ops := s.ops.filter fun op => op.call ≠ call
      calls := Function.update s.calls call
        ((s.calls call).map fun p => { p with wake := some ok }) } dead' := by
  obtain ⟨hNotReturned, -, hPromisedOld⟩ := hInv.parked call p hCall
  constructor
  case conserved =>
    have hBoth := congrArg (List.filter fun m => m.write ∉ dead') hInv.conserved
    rw [filter_dead hSub, filter_dead hSub, List.filter_append, List.filter_append] at hBoth
    rw [List.filter_append, List.filter_append]
    exact (congrArg (fun l => _ ++ (l ++ _)) (filter_drop hLeft)).trans hBoth
  case alive =>
    intro w hw hDead
    rcases hOnly w hDead with hOld | rfl
    · exact hInv.alive w hw hOld
    · exact hNotReturned hw
  case through => exact hInv.through
  case buffered => exact hInv.buffered
  case own => exact fun op hMem => hInv.own op (List.mem_filter.mp hMem).1
  case waiting =>
    intro op hMem
    obtain ⟨hOld, hOther⟩ := List.mem_filter.mp hMem
    obtain ⟨q, hq, hWake⟩ := hInv.waiting op hOld
    exact ⟨q, (Function.update_of_ne (by simpa using hOther) _ _).trans hq, hWake⟩
  case distinct => exact hInv.distinct.filter _
  case inOrder => exact fun op hMem => hInv.inOrder op (tail_filter_subset _ _ hMem)
  case freshReturned => exact hInv.freshReturned
  case freshDead =>
    intro w hw
    rcases hOnly w hw with hOld | rfl
    · exact hInv.freshDead w hOld
    · exact hInv.freshCalls _ _ hCall
  case freshCalls =>
    intro c q hq
    by_cases hEq : c = call
    · rw [hEq]
      exact hInv.freshCalls _ _ hCall
    · exact hInv.freshCalls c q ((Function.update_of_ne hEq _ _).symm.trans hq)
  case parked =>
    intro c q hq
    have hDrained : ∀ writes ⊆ s.returned, Drained s writes →
        ∀ m ∈ (s.ops.filter fun op => op.call ≠ call).flatMap Pending.left ++ s.wbuf,
          m.write ∉ writes := fun _ _ h => drained_filter call h
    by_cases hEq : c = call
    · subst hEq
      have hSelf : some (Parked.mk p.kind (some ok)) = some q := by
        have hUpdate := (Function.update_self c _ s.calls).symm.trans hq
        rw [hCall] at hUpdate
        exact hUpdate
      obtain rfl := Option.some.inj hSelf
      refine ⟨hNotReturned, fun hWake => ?_, ?_⟩
      · cases ok with
        | true => exact hAlive rfl
        | false => exact absurd rfl hWake
      · cases ok with
        | true => exact (hDone rfl).mono (List.Subset.refl _) (fun _ _ h => h) fun _ _ h => h
        | false =>
          -- an error promises nothing but what was there
          obtain ⟨kind, wake⟩ := p
          cases kind with
          | write => trivial
          | flush before => exact ⟨hPromisedOld.1, (fun h => by cases h), fun h => by cases h⟩
          | close before => exact ⟨hPromisedOld.1, (fun h => by cases h), fun h => by cases h⟩
          | finish before =>
            exact ⟨hPromisedOld.1, hDrained before hPromisedOld.1 hPromisedOld.2⟩
    · have hOld : s.calls c = some q := (Function.update_of_ne hEq _ _).symm.trans hq
      obtain ⟨hNot, hLive, hPromised⟩ := hInv.parked c q hOld
      refine ⟨hNot, fun hWake hDead => ?_, hPromised.mono (List.Subset.refl _) hDrained ?_⟩
      · rcases hOnly c hDead with hBefore | hSame
        · exact hLive hWake hBefore
        · exact hEq hSame
      · exact fun writes _ h => drainedAfter_filter call h
  case shut => exact fun h => drained_filter call (hInv.shut h)
  case settled =>
    intro writes hMem
    obtain ⟨hReturned, hDone'⟩ := hInv.settled writes hMem
    exact ⟨hReturned, drained_filter call hDone'⟩

/-- A `Write` that is lost has only bytes of its own call left. -/
theorem inv_drop {p : Parked} (hInv : Inv cap s dead) (hCall : s.calls call = some p)
    (hSpares : Spares s call) : Inv cap (s.drop call) (call :: dead) := by
  refine @inv_wake cap s dead call p false (call :: dead) hInv hCall
    (List.subset_cons_self _ _) ?_ ?_ ?_ ?_
  · exact fun w hw => (List.mem_cons.mp hw).symm
  · intro op hMem hEq m hm
    rcases hInv.own op hMem m hm with hReturned | hOwn
    · exact absurd ⟨m, hm, hReturned⟩ (hSpares op hMem hEq)
    · rw [hOwn, hEq]
      exact List.mem_cons_self
  · exact fun h => by cases h
  · exact fun h => by cases h

/-- A `Write` that has begun is the oldest. -/
theorem eq_cons_of_begun {op : Pending} (hInv : Inv cap s dead) (hMem : op ∈ s.ops)
    (hBegun : op.begun = true) : ∃ ops, s.ops = op :: ops ∧ ∀ op' ∈ ops, op'.call ≠ op.call := by
  cases hOps : s.ops with
  | nil =>
    rw [hOps] at hMem
    exact absurd hMem List.not_mem_nil
  | cons op' ops =>
    rw [hOps] at hMem
    have hDistinct := hInv.distinct
    rw [hOps, List.pairwise_cons] at hDistinct
    rcases List.mem_cons.mp hMem with rfl | hLater
    · exact ⟨ops, rfl, fun op' hMem' => (hDistinct.1 op' hMem').symm⟩
    · have hWaits := hInv.inOrder op (by rw [hOps]; exact hLater)
      rw [hBegun] at hWaits
      contradiction

/-- The oldest `Write` changed: what it writes is with the backend then. -/
theorem inv_head {op op' : Pending} {ops : List Pending} {written : List Mark}
    (hInv : Inv cap s dead) (hOps : s.ops = op :: ops) (hCall : op'.call = op.call)
    (hLeft : op.left = written ++ op'.left) :
    Inv cap { s with handed := s.handed ++ written, ops := op' :: ops } dead := by
  -- only the first operation has fewer bytes left, by those that were handed over
  have hBytes : s.pending = written ++ (op' :: ops).flatMap Pending.left := by
    rw [State.pending, hOps, List.flatMap_cons, List.flatMap_cons, hLeft, List.append_assoc]
  have hDrained : ∀ writes, Drained s writes →
      ∀ m ∈ (op' :: ops).flatMap Pending.left ++ s.wbuf, m.write ∉ writes := by
    intro writes h m hm
    refine h m ?_
    rw [hBytes, List.append_assoc]
    exact List.mem_append_right _ hm
  -- which operations come after a call goes by the calls alone
  have hLater : ∀ c, later c (op' :: ops) = later c s.ops := by
    intro c
    rw [hOps, later, later, hCall]
  constructor
  case conserved =>
    rw [← hInv.conserved, hBytes]
    show ((s.handed ++ written) ++ ((op' :: ops).flatMap Pending.left ++ s.wbuf)).filter _ = _
    simp only [List.append_assoc]
  case alive => exact hInv.alive
  case through => exact hInv.through
  case buffered => exact hInv.buffered
  case own =>
    intro op'' hMem m hm
    rcases List.mem_cons.mp hMem with rfl | hRest
    · rw [hCall]
      refine hInv.own op (by rw [hOps]; exact List.mem_cons_self) m ?_
      rw [hLeft]
      exact List.mem_append_right _ hm
    · exact hInv.own op'' (by rw [hOps]; exact List.mem_cons_of_mem _ hRest) m hm
  case waiting =>
    intro op'' hMem
    rcases List.mem_cons.mp hMem with rfl | hRest
    · rw [hCall]
      exact hInv.waiting op (by rw [hOps]; exact List.mem_cons_self)
    · exact hInv.waiting op'' (by rw [hOps]; exact List.mem_cons_of_mem _ hRest)
  case distinct =>
    have hOld := hInv.distinct
    rw [hOps, List.pairwise_cons] at hOld
    exact List.pairwise_cons.mpr ⟨by rw [hCall]; exact hOld.1, hOld.2⟩
  case inOrder =>
    intro op'' hMem
    exact hInv.inOrder op'' (by rw [hOps]; exact hMem)
  case freshReturned => exact hInv.freshReturned
  case freshDead => exact hInv.freshDead
  case freshCalls => exact hInv.freshCalls
  case parked =>
    intro c p hParked
    obtain ⟨hNot, hAlive, hPromised⟩ := hInv.parked c p hParked
    refine ⟨hNot, hAlive, hPromised.mono (List.Subset.refl _) (fun writes _ => hDrained writes) ?_⟩
    intro writes _ h m hm
    refine h m ?_
    rw [← hLater]
    exact hm
  case shut => exact fun h => hDrained _ (hInv.shut h)
  case settled =>
    intro writes hMem
    obtain ⟨hReturned, hDone⟩ := hInv.settled writes hMem
    exact ⟨hReturned, hDrained writes hDone⟩

/-- What is true of the state apart from the bytes does not matter. -/
theorem inv_gone {reaping gone : Bool} (hInv : Inv cap s dead) :
    Inv cap { s with reaping, gone } dead :=
  ⟨hInv.conserved, hInv.alive, hInv.through, hInv.buffered, hInv.own, hInv.waiting,
    hInv.distinct, hInv.inOrder, hInv.freshReturned, hInv.freshDead, hInv.freshCalls,
    fun c p hCall => (hInv.parked c p hCall).imp_right fun h => h.imp_right fun hPromised =>
      hPromised.mono (List.Subset.refl _) (fun _ _ h => h) fun _ _ h => h,
    hInv.shut, hInv.settled⟩

theorem inv_settle {before : List Nat} (hInv : Inv cap s dead) (hSub : before ⊆ s.returned)
    (hDone : Drained s before) : Inv cap (s.settle before) dead :=
  ⟨hInv.conserved, hInv.alive, hInv.through, hInv.buffered, hInv.own, hInv.waiting,
    hInv.distinct, hInv.inOrder, hInv.freshReturned, hInv.freshDead, hInv.freshCalls,
    fun c p hCall => (hInv.parked c p hCall).imp_right fun h => h.imp_right fun hPromised =>
      hPromised.mono (List.Subset.refl _) (fun _ _ h => h) fun _ _ h => h,
    hInv.shut, by
      intro writes hMem
      rcases List.mem_append.mp hMem with hOld | hLast
      · exact hInv.settled writes hOld
      · obtain rfl := List.mem_singleton.mp hLast
        exact ⟨hSub, hDone⟩⟩

theorem inv_next (hInv : Inv cap s dead) : Inv cap { s with next := s.next + 1 } dead :=
  ⟨hInv.conserved, hInv.alive, hInv.through, hInv.buffered, hInv.own, hInv.waiting,
    hInv.distinct, hInv.inOrder, fun w hw => Nat.lt_succ_of_lt (hInv.freshReturned w hw),
    fun w hw => Nat.lt_succ_of_lt (hInv.freshDead w hw),
    fun c p hCall => Nat.lt_succ_of_lt (hInv.freshCalls c p hCall),
    fun c p hCall => (hInv.parked c p hCall).imp_right fun h => h.imp_right fun hPromised =>
      hPromised.mono (List.Subset.refl _) (fun _ _ h => h) fun _ _ h => h,
    hInv.shut, hInv.settled⟩

/-- A call that has been woken has no `Write`. -/
theorem call_ne_of_woken {p : Parked} (hInv : Inv cap s dead) (hCall : s.calls call = some p)
    (hWake : p.wake ≠ none) : ∀ op ∈ s.ops, op.call ≠ call := by
  intro op hMem hEq
  obtain ⟨q, hq, hWaits⟩ := hInv.waiting op hMem
  rw [hEq, hCall] at hq
  obtain rfl := Option.some.inj hq
  exact hWake hWaits.1

/-- Nothing of a write that has been woken is on its way. -/
theorem drained_of_woken {p : Parked} (hInv : Inv cap s dead) (hCall : s.calls call = some p)
    (hWake : p.wake ≠ none) : Drained s [call] := by
  intro m hm hEq
  have hNot := (hInv.parked call p hCall).1
  rw [← List.mem_singleton.mp hEq] at hNot
  rcases List.mem_append.mp hm with hPending | hBuf
  · obtain ⟨op, hMem, hLeft⟩ := List.mem_flatMap.mp hPending
    rcases hInv.own op hMem m hLeft with hReturned | hOwn
    · exact hNot hReturned
    · exact call_ne_of_woken hInv hCall hWake op hMem (hOwn ▸ List.mem_singleton.mp hEq)
  · exact hNot (hInv.buffered m hBuf)

/-- A call that has been woken goes on. -/
theorem inv_unpark {p : Parked} (hInv : Inv cap s dead) (hCall : s.calls call = some p)
    (hWake : p.wake ≠ none) : Inv cap (s.unpark call) dead := by
  have hOther : ∀ c q, (s.unpark call).calls c = some q → c ≠ call ∧ s.calls c = some q := by
    intro c q hq
    by_cases hEq : c = call
    · subst hEq
      have hNone : some q = none := hq.symm.trans (Function.update_self c _ s.calls)
      cases hNone
    · exact ⟨hEq, (Function.update_of_ne hEq _ _).symm.trans hq⟩
  constructor
  case waiting =>
    intro op hMem
    obtain ⟨q, hq, hWaits⟩ := hInv.waiting op hMem
    have hNe := call_ne_of_woken hInv hCall hWake op hMem
    exact ⟨q, (Function.update_of_ne hNe _ _).trans hq, hWaits⟩
  case freshCalls => exact fun c q hq => hInv.freshCalls c q (hOther c q hq).2
  case parked =>
    intro c q hq
    obtain ⟨hNot, hAlive, hPromised⟩ := hInv.parked c q (hOther c q hq).2
    exact ⟨hNot, hAlive,
      hPromised.mono (List.Subset.refl _) (fun _ _ h => h) fun _ _ h => h⟩
  case conserved => exact hInv.conserved
  case alive => exact hInv.alive
  case through => exact hInv.through
  case buffered => exact hInv.buffered
  case own => exact hInv.own
  case distinct => exact hInv.distinct
  case inOrder => exact hInv.inOrder
  case freshReturned => exact hInv.freshReturned
  case freshDead => exact hInv.freshDead
  case shut => exact hInv.shut
  case settled => exact hInv.settled

/-- A write returns: none of it is on its way. -/
theorem inv_returned (hInv : Inv cap s dead) (hFree : s.calls call = none)
    (hLt : call < s.next) (hAlive : call ∉ dead) (hDone : Drained s [call]) :
    Inv cap { s with returned := s.returned ++ [call] } dead := by
  -- each field for one more call that has returned
  constructor
  case alive =>
    intro w hw
    rcases List.mem_append.mp hw with hOld | hLast
    · exact hInv.alive w hOld
    · rw [List.mem_singleton.mp hLast]
      exact hAlive
  case buffered => exact fun m hm => List.mem_append_left _ (hInv.buffered m hm)
  case own => exact fun op hMem m hm => (hInv.own op hMem m hm).imp_left (List.mem_append_left _)
  case freshReturned =>
    intro w hw
    rcases List.mem_append.mp hw with hOld | hLast
    · exact hInv.freshReturned w hOld
    · rw [List.mem_singleton.mp hLast]
      exact hLt
  -- no parked call is it, since it is parked nowhere
  case parked =>
    intro c p hCall
    obtain ⟨hNot, hLive, hPromised⟩ := hInv.parked c p hCall
    refine ⟨fun hMem => ?_, hLive, hPromised.mono (List.subset_append_left _ _)
      (fun _ _ h => h) fun _ _ h => h⟩
    rcases List.mem_append.mp hMem with hOld | hLast
    · exact hNot hOld
    · rw [List.mem_singleton.mp hLast, hFree] at hCall
      contradiction
  -- where the stream is closed the call had nothing left to write
  case shut =>
    intro hClosed m hm hMem
    rcases List.mem_append.mp hMem with hOld | hLast
    · exact hInv.shut hClosed m hm hOld
    · exact hDone m hm hLast
  case settled =>
    intro writes hMem
    obtain ⟨hReturned, hDone'⟩ := hInv.settled writes hMem
    exact ⟨List.Subset.trans hReturned (List.subset_append_left _ _), hDone'⟩
  case conserved => exact hInv.conserved
  case through => exact hInv.through
  case waiting => exact hInv.waiting
  case distinct => exact hInv.distinct
  case inOrder => exact hInv.inOrder
  case freshDead => exact hInv.freshDead
  case freshCalls => exact hInv.freshCalls

/-- The stream closes, with nothing of the writes that have returned on its way. -/
theorem inv_close (hInv : Inv cap s dead) (hShut : Drained s s.returned) :
    Inv cap { s with closed := true } dead :=
  ⟨hInv.conserved, hInv.alive, hInv.through, hInv.buffered, hInv.own, hInv.waiting,
    hInv.distinct, hInv.inOrder, hInv.freshReturned, hInv.freshDead, hInv.freshCalls,
    fun c p hCall => (hInv.parked c p hCall).imp_right fun h => h.imp_right fun hPromised =>
      hPromised.mono (List.Subset.refl _) (fun _ _ h => h) fun _ _ h => h,
    fun _ => hShut, hInv.settled⟩

/-- A call that parks on the codec. -/
theorem inv_finish {before : List Nat} {wake : Option Bool} (hInv : Inv cap s dead)
    (hLt : call < s.next) (hReturned : call ∉ s.returned) (hAlive : call ∉ dead)
    (hOps : ∀ op ∈ s.ops, op.call ≠ call) (hSub : before ⊆ s.returned)
    (hDone : Drained s before) :
    Inv cap { s with calls := Function.update s.calls call (some ⟨.finish before, wake⟩) }
      dead := by
  -- each field, where the call waits for the `Write` of others
  constructor
  case waiting =>
    intro op hMem
    obtain ⟨q, hq, hWaits⟩ := hInv.waiting op hMem
    exact ⟨q, (Function.update_of_ne (hOps op hMem) _ _).trans hq, hWaits⟩
  case freshCalls =>
    intro c q hq
    by_cases hEq : c = call
    · rw [hEq]
      exact hLt
    · exact hInv.freshCalls c q ((Function.update_of_ne hEq _ _).symm.trans hq)
  case parked =>
    intro c q hq
    by_cases hEq : c = call
    · -- the call itself: what it promises is written already
      subst hEq
      have hSelf : some (Parked.mk (.finish before) wake) = some q :=
        (Function.update_self c _ s.calls).symm.trans hq
      obtain rfl := Option.some.inj hSelf
      exact ⟨hReturned, fun _ => hAlive, hSub, hDone⟩
    · have hOld : s.calls c = some q := (Function.update_of_ne hEq _ _).symm.trans hq
      obtain ⟨hNot, hLive, hPromised⟩ := hInv.parked c q hOld
      exact ⟨hNot, hLive,
        hPromised.mono (List.Subset.refl _) (fun _ _ h => h) fun _ _ h => h⟩
  case conserved => exact hInv.conserved
  case alive => exact hInv.alive
  case through => exact hInv.through
  case buffered => exact hInv.buffered
  case own => exact hInv.own
  case distinct => exact hInv.distinct
  case inOrder => exact hInv.inOrder
  case freshReturned => exact hInv.freshReturned
  case freshDead => exact hInv.freshDead
  case shut => exact hInv.shut
  case settled => exact hInv.settled

/-- The last part of `close`, with a call that is not parked. -/
theorem inv_closeHandle {before : List Nat} (hInv : Inv cap s dead)
    (hLt : call < s.next) (hReturned : call ∉ s.returned) (hAlive : call ∉ dead)
    (hOps : ∀ op ∈ s.ops, op.call ≠ call) (hSub : before ⊆ s.returned)
    (hDone : Drained s before) (hShut : s.closed = false → Drained s s.returned) :
    Inv cap (s.closeHandle codec call before) dead := by
  unfold State.closeHandle
  split_ifs with hClosed hCodec
  · exact inv_settle hInv hSub hDone
  · have hInv' := inv_close hInv (hShut (by simpa using hClosed))
    exact inv_finish hInv' hLt hReturned hAlive hOps hSub hDone
  · have hInv' := inv_close (inv_settle hInv hSub hDone) (hShut (by simpa using hClosed))
    exact inv_gone hInv'

/-- Nothing of the writes that have returned is on its way where the buffer is empty and no `Write`
carries any. -/
theorem drained_of_clear (hBuf : s.wbuf = []) (hClear : Clear s) : Drained s s.returned := by
  intro m hm hReturned
  rw [hBuf, List.append_nil] at hm
  obtain ⟨op, hMem, hLeft⟩ := List.mem_flatMap.mp hm
  exact hClear op hMem ⟨m, hLeft, hReturned⟩

/-- `writeAll:` and `write:`. -/
theorem inv_write {bytes : List UInt8} (hInv : Inv cap s dead) :
    Inv cap (streamWrite cap s bytes) dead := by
  have hNew : ∀ m ∈ bytes.map (Mark.mk s.next), m.write = s.next := by
    intro m hm
    obtain ⟨b, -, rfl⟩ := List.mem_map.mp hm
    rfl
  unfold streamWrite
  split_ifs with hClosed hThrough
  · exact hInv
  · -- straight through: there is no buffer
    have hOpen : s.closed = false := by simpa using hClosed
    have hInv' := inv_issue hInv hOpen hNew (.inl rfl)
    have hEmpty := hInv.through hThrough
    rw [hEmpty] at hInv'
    have hSame : s = { s with wbuf := [] } := by rw [← hEmpty]
    rw [hSame]
    exact hInv'
  · have hOpen : s.closed = false := by simpa using hClosed
    dsimp only
    split_ifs
    · exact inv_issue hInv hOpen hNew (.inl rfl)
    · exact inv_append hInv hThrough hOpen hNew

/-- A `flush!` or `close` that takes the buffer. -/
theorem inv_take {kind : Kind} (hInv : Inv cap s dead) (hOpen : s.closed = false)
    (hKind : kind = .flush s.returned ∨ kind = .close s.returned) :
    Inv cap (State.issue { s with wbuf := [] } kind s.wbuf) dead := by
  have hNone : ∀ m ∈ ([] : List Mark), m.write = s.next := fun _ h => absurd h List.not_mem_nil
  have hInv' := inv_issue hInv hOpen hNone (.inr hKind)
  rwa [List.append_nil, List.append_nil] at hInv'

/-- A `flush!` or `close` that finds nothing to drain, where it may. -/
theorem drained_of_idle (hInv : Inv cap s dead) (hIdle : s.closed = true ∨ s.wbuf = [])
    (hOk : s.closed = true ∨ s.wbuf ≠ [] ∨ Clear s) : Drained s s.returned := by
  by_cases hClosed : s.closed = true
  · exact hInv.shut hClosed
  · have hBuf := hIdle.resolve_left hClosed
    have hClear := (hOk.resolve_left hClosed).resolve_left (fun h => h hBuf)
    exact drained_of_clear hBuf hClear

/-- A call goes on with success. -/
theorem inv_resumed {kind : Kind} (hInv : Inv cap s dead)
    (hCall : s.calls call = some ⟨kind, some true⟩)
    (hOk : Ok s (.resume call)) : Inv cap (resumed codec (s.unpark call) call kind) dead := by
  have hWake : (⟨kind, some true⟩ : Parked).wake ≠ none := fun h => by cases h
  obtain ⟨hReturned, hAlive, hPromised⟩ := hInv.parked call _ hCall
  have hDead : call ∉ dead := hAlive fun h => by cases h
  have hLt := hInv.freshCalls call _ hCall
  have hFree := inv_unpark hInv hCall hWake
  have hGone := drained_of_woken hInv hCall hWake
  have hOps := call_ne_of_woken hInv hCall hWake
  cases kind with
  | write => exact inv_returned hFree (Function.update_self call _ s.calls) hLt hDead hGone
  | flush before => exact inv_settle hFree hPromised.1 (hPromised.2.1 rfl)
  | close before =>
    refine inv_closeHandle hFree hLt hReturned hDead hOps hPromised.1 (hPromised.2.1 rfl)
      fun hOpen => ?_
    have hOpen' : s.closed ≠ true := fun h => absurd (hOpen.symm.trans h) (by simp)
    rcases hOk.resolve_left hOpen' with ⟨hBuf, hClear⟩ | hOther
    · exact drained_of_clear hBuf hClear
    · exact absurd (hOther _ hCall) (fun h => by cases h)
  | finish before => exact inv_settle hFree hPromised.1 hPromised.2

/-- A `Write` that has written all it had. -/
theorem inv_complete {op : Pending} (hInv : Inv cap s dead) (hMem : op ∈ s.ops)
    (hBegun : op.begun = true) (hLeft : op.left = []) :
    Inv cap { s with
      ops := s.ops.filter fun op' => op'.call ≠ op.call
      calls := Function.update s.calls op.call
        ((s.calls op.call).map fun p => { p with wake := some true }) } dead := by
  obtain ⟨⟨kind, wake⟩, hCall, hWaits⟩ := hInv.waiting op hMem
  obtain rfl : wake = none := hWaits.1
  obtain ⟨ops, hOps, hOthers⟩ := eq_cons_of_begun hInv hMem hBegun
  obtain ⟨-, hAlive, hPromised⟩ := hInv.parked op.call _ hCall
  -- what is left are the `Write`s after it
  have hFilter : s.ops.filter (fun op' => op'.call ≠ op.call) = ops := by
    rw [hOps, List.filter_cons_of_neg (by simp)]
    exact List.filter_eq_self.mpr fun op' hMem' => by simpa using hOthers op' hMem'
  have hLater : later op.call s.ops = ops.flatMap Pending.left := by
    rw [hOps, later, if_pos rfl]
  refine @inv_wake cap s dead op.call ⟨kind, none⟩ true dead hInv hCall (List.Subset.refl _)
    (fun _ h => .inl h) ?_ (fun _ => hAlive fun h => by cases h) fun _ => ?_
  · intro op' hMem' hEq m hm
    rw [hOps] at hMem'
    rcases List.mem_cons.mp hMem' with rfl | hRest
    · rw [hLeft] at hm
      exact absurd hm List.not_mem_nil
    · exact absurd hEq (hOthers op' hRest)
  · have hDone : ∀ before, DrainedAfter s op.call before →
        Drained { s with ops := s.ops.filter fun op' => op'.call ≠ op.call } before := by
      intro before h m hm
      refine h m ?_
      rw [hLater, ← hFilter]
      exact hm
    cases kind with
    | write => trivial
    | flush before =>
      exact ⟨hPromised.1, fun _ => hDone before (hPromised.2.2 rfl), fun h => by cases h⟩
    | close before =>
      exact ⟨hPromised.1, fun _ => hDone before (hPromised.2.2 rfl), fun h => by cases h⟩
    | finish before => exact ⟨hPromised.1, drained_filter op.call hPromised.2⟩

/-- The `Write` of a call, and its park. -/
theorem find_call {op : Pending} (hInv : Inv cap s dead)
    (hFind : s.ops.find? (fun op => op.call = call) = some op) :
    op ∈ s.ops ∧ op.call = call ∧ ∃ p, s.calls call = some p := by
  have hMem := List.mem_of_find?_eq_some hFind
  have hEq : op.call = call := by simpa using List.find?_some hFind
  obtain ⟨p, hCall, -⟩ := hInv.waiting op hMem
  exact ⟨hMem, hEq, p, hEq ▸ hCall⟩

/-- The oldest `Write` changed, as a map over all of them. -/
theorem map_head {op : Pending} {ops : List Pending} {f : Pending → Pending}
    (hOthers : ∀ op' ∈ ops, op'.call ≠ op.call) :
    (op :: ops).map (fun op' => if op'.call = op.call then f op' else op') = f op :: ops := by
  rw [List.map_cons, if_pos rfl]
  refine congrArg (f op :: ·) ?_
  refine (List.map_congr_left fun op' hMem => ?_).trans (List.map_id ops)
  exact if_neg (hOthers op' hMem)

/-- One step, where no `Write` is lost that carries bytes of a write that has returned. -/
theorem inv_step {a : Action} (hInv : Inv cap s dead) (hOk : Ok s a)
    (hStep : step cap codec s a = some s') : ∃ dead', Inv cap s' dead' := by
  cases a with
  | write bytes =>
    obtain rfl := Option.some.inj hStep
    exact ⟨dead, inv_write hInv⟩
  | flush =>
    obtain rfl := Option.some.inj hStep
    unfold streamFlush
    split_ifs with hIdle
    · exact ⟨dead, inv_settle hInv (List.Subset.refl _) (drained_of_idle hInv hIdle hOk)⟩
    · have hOpen : s.closed = false := by simpa using fun h => hIdle (.inl h)
      exact ⟨dead, inv_take hInv hOpen (.inl rfl)⟩
  | close =>
    obtain rfl := Option.some.inj hStep
    unfold closeStream
    split_ifs with hIdle
    · have hDrained := drained_of_idle hInv hIdle hOk
      have hNotReturned := hInv.next_notMem (List.Subset.refl s.returned)
      have hNotDead : s.next ∉ dead := fun h => by
        have hLt := hInv.freshDead _ h
        omega
      have hOps : ∀ op ∈ s.ops, op.call ≠ s.next := by
        intro op hMem hEq
        obtain ⟨p, hCall, -⟩ := hInv.waiting op hMem
        have hLt := hInv.freshCalls _ _ hCall
        omega
      exact ⟨dead, inv_closeHandle (inv_next hInv) (Nat.lt_succ_self _) hNotReturned hNotDead hOps
        (List.Subset.refl _) hDrained fun _ => hDrained⟩
    · have hOpen : s.closed = false := by simpa using fun h => hIdle (.inl h)
      exact ⟨dead, inv_take hInv hOpen (.inr rfl)⟩
  | begin call =>
    obtain ⟨op, hFind, hRest⟩ := Option.bind_eq_some_iff.mp hStep
    obtain ⟨hMem, hEq, p, hCall⟩ := find_call hInv hFind
    dsimp only [Ok] at hOk
    split_ifs at hRest with hBegun hRefused
    · obtain rfl := Option.some.inj hRest
      rw [if_pos hRefused] at hOk
      exact ⟨call :: dead, inv_drop hInv hCall hOk⟩
    · obtain rfl := Option.some.inj hRest
      rw [if_neg hRefused] at hOk
      -- it is the oldest that begins
      obtain ⟨first, hFirst, rfl⟩ := Option.map_eq_some_iff.mp hOk
      obtain ⟨ops, hOps⟩ := List.head?_eq_some_iff.mp hFirst
      have hDistinct := hInv.distinct
      rw [hOps, List.pairwise_cons] at hDistinct
      have hMap := @map_head first ops (fun op => { op with begun := true })
        fun op' hMem' => (hDistinct.1 op' hMem').symm
      rw [← hOps] at hMap
      have hInv' := @inv_head cap s dead first { first with begun := true } ops [] hInv hOps rfl rfl
      rw [List.append_nil, ← hMap] at hInv'
      exact ⟨dead, hInv'⟩
  | progress call n =>
    obtain ⟨op, hFind, hRest⟩ := Option.bind_eq_some_iff.mp hStep
    obtain ⟨hMem, rfl, -⟩ := find_call hInv hFind
    split_ifs at hRest with hBegun
    obtain rfl := Option.some.inj hRest
    obtain ⟨ops, hOps, hOthers⟩ := eq_cons_of_begun hInv hMem hBegun
    have hMap := @map_head op ops (fun op => { op with left := op.left.drop n }) hOthers
    rw [← hOps] at hMap
    have hInv' := @inv_head cap s dead op { op with left := op.left.drop n } ops
      (op.left.take n) hInv hOps rfl (List.take_append_drop n op.left).symm
    rw [← hMap] at hInv'
    exact ⟨dead, hInv'⟩
  | complete call =>
    obtain ⟨op, hFind, hRest⟩ := Option.bind_eq_some_iff.mp hStep
    obtain ⟨hMem, rfl, -⟩ := find_call hInv hFind
    split_ifs at hRest with hDone
    obtain rfl := Option.some.inj hRest
    exact ⟨dead, inv_complete hInv hMem hDone.1 hDone.2⟩
  | fail call =>
    obtain ⟨op, hFind, hRest⟩ := Option.bind_eq_some_iff.mp hStep
    obtain ⟨-, -, p, hCall⟩ := find_call hInv hFind
    split_ifs at hRest
    obtain rfl := Option.some.inj hRest
    exact ⟨call :: dead, inv_drop hInv hCall hOk⟩
  | cancel call =>
    obtain ⟨p, hCall, hRest⟩ := Option.bind_eq_some_iff.mp hStep
    obtain rfl := Option.some.inj hRest
    exact ⟨call :: dead, inv_drop hInv hCall hOk⟩
  | reap =>
    unfold step at hStep
    dsimp only at hStep
    split_ifs at hStep
    have hInv' := @inv_gone cap s dead false true hInv
    cases hFind : s.ops.find? Pending.begun with
    | none =>
      rw [hFind] at hStep
      obtain rfl := Option.some.inj hStep
      exact ⟨dead, hInv'⟩
    | some op =>
      rw [hFind] at hStep
      obtain rfl := Option.some.inj hStep
      -- the `Write` that holds the stream is aborted
      have hMem := List.mem_of_find?_eq_some hFind
      have hBegun := List.find?_some hFind
      obtain ⟨p, hCall, -⟩ := hInv.waiting op hMem
      obtain ⟨ops, hOps, hOthers⟩ := eq_cons_of_begun hInv hMem hBegun
      refine ⟨op.call :: dead, inv_drop hInv' hCall fun op' hMem' hEq => ?_⟩
      have hIn : op' ∈ op :: ops := hOps ▸ hMem'
      rcases List.mem_cons.mp hIn with rfl | hRest
      · exact hOk op' hMem hBegun
      · exact absurd hEq (hOthers op' hRest)
  | finishStream call ok =>
    obtain ⟨⟨kind, wake⟩, hCall, hRest⟩ := Option.bind_eq_some_iff.mp hStep
    cases kind with
    | finish before =>
      cases wake with
      | none =>
        obtain rfl := Option.some.inj hRest
        obtain ⟨hReturned, hAlive, hSub, hDone⟩ := hInv.parked call _ hCall
        have hOps : ∀ op ∈ s.ops, op.call ≠ call := by
          intro op hMem hEq
          obtain ⟨q, hq, -, hKind⟩ := hInv.waiting op hMem
          rw [hEq, hCall] at hq
          obtain rfl := Option.some.inj hq
          exact hKind before rfl
        exact ⟨dead, inv_gone (inv_finish hInv (hInv.freshCalls call _ hCall) hReturned
          (hAlive fun h => by cases h) hOps hSub hDone)⟩
      | some ok' => cases hRest
    | write => cases hRest
    | flush before => cases hRest
    | close before => cases hRest
  | resume call =>
    obtain ⟨⟨kind, wake⟩, hCall, hRest⟩ := Option.bind_eq_some_iff.mp hStep
    obtain ⟨ok, hWake, hRest⟩ := Option.bind_eq_some_iff.mp hRest
    obtain rfl : wake = some ok := hWake
    cases ok with
    | true =>
      obtain rfl := Option.some.inj hRest
      exact ⟨dead, inv_resumed hInv hCall hOk⟩
    | false =>
      obtain rfl := Option.some.inj hRest
      exact ⟨dead, inv_unpark hInv hCall fun h => by cases h⟩

/-- The invariant, whichever writes are dead. -/
def Kept (cap : Nat) (s : State) : Prop := ∃ dead, Inv cap s dead

/-- **What a `flush!` or `close` vouches for is with the backend**, each byte once and in order, in every
run in which no `Write` is lost that has bytes of a write that has returned. -/
theorem flushed_durable (hRun : Run (step cap codec) Ok State.start s) :
    ∀ writes ∈ s.settled, Durable s writes := by
  obtain ⟨dead, hInv⟩ : Kept cap s :=
    hRun.invariant ⟨[], inv_start cap⟩ fun _ _ _ hKept hOk hStep => by
      obtain ⟨dead, hInv⟩ := hKept
      exact inv_step hInv hOk hStep
  intro writes hMem
  obtain ⟨hReturned, hDone⟩ := hInv.settled writes hMem
  exact durable_of_drained hInv hReturned hDone

end Invariant

def IO_BUFFER_BYTES : Nat := 16 * 1024

/-- Two writes and a `flush!`, whose `Write` gets through in two parts while a third write comes. -/
def flushing : List Action :=
  [.write [0x61], .write [0x62, 0x63], .flush, .begin 2, .progress 2 1, .write [0x64],
    .progress 2 2, .complete 2, .resume 2]

/-- What the `flush!` vouches for are the first two writes, and they are with the backend. -/
theorem flushed_durable_flushing :
    ∃ s, Run (step IO_BUFFER_BYTES false) Ok State.start s ∧ s.settled = [[0, 1]] ∧
      ∀ writes ∈ s.settled, Durable s writes := by
  have hExec : (exec (step IO_BUFFER_BYTES false) Ok State.start flushing).map State.settled =
      some [[0, 1]] := by
    decide +kernel
  obtain ⟨s, hRun, hSettled⟩ := run_of_exec_map hExec
  exact ⟨s, hRun, hSettled, flushed_durable hRun⟩

/-- A task is cancelled in its `flush!`, and another's succeeds: what had been written is gone. -/
theorem flush_lost :
    ¬ ∀ s, Reach (step IO_BUFFER_BYTES false) State.start s →
      ∀ writes ∈ s.settled, Durable s writes := by
  intro hAll
  have hExec : (exec (step IO_BUFFER_BYTES false) (fun _ _ => True) State.start
      [.write [0x61], .flush, .begin 1, .cancel 1, .resume 1, .flush]).map
        (fun s => (s.settled, s.handed, s.accepted)) = some ([[0]], [], [⟨0, 0x61⟩]) := by
    decide +kernel
  obtain ⟨s, hReach, hEnd⟩ := run_of_exec_map hExec
  obtain ⟨hSettled, hHanded, hAccepted⟩ : _ ∧ _ ∧ _ := by simpa using hEnd
  have hDurable := hAll s hReach [0] (by rw [hSettled]; exact List.mem_singleton_self _)
  rw [Durable, hHanded, hAccepted] at hDurable
  simp at hDurable

end Quoin.Streams.Writing
