import Mathlib
import Quoin.Lists.Host

/-!
# Quoin — sorting a list

`sort` and `sort:` of List: an insertion sort in place. What it compares by are
sends: `>:` to the elements, or a key block and `>:` to the keys, or a
comparator block. A send may raise, and it may change anything, the list that
is being sorted too. So between two sends the elements are read from the list
again.

Of its own the sort only swaps neighbours. What a sorted list holds is what it
held before, and what the sends added to it or took from it; this is so also
where the sort raises, and then the list stays as far sorted as it is
(`sort_spec`).

## Results

* `sort_spec` — for any behaviour of the sends: the sort ends, has swapped neighbours only, and is
  in order where the sends are an order that leaves the list alone;
* `sort_not_restored` — a comparison that raises leaves the list half sorted.
-/

namespace Quoin.Lists

open Trans

/-- A send that was made: the elements of the list before and after it. -/
structure Sent (V : Type) where
  receiver : V
  selector : String
  args : List V
  before : List V
  after : List V

/-- The elements of the receiver, the rest of the VM's state, and the sends made so far. -/
structure World (V R : Type) where
  items : List V
  rest : R
  sent : List (Sent V)

section Model

variable {V R E : Type} (host : Host V R E)

abbrev Method (V R E α : Type) := Prog (QuoinError E) (World V R) α

/-- `call_method`. -/
def callMethod (receiver : V) (selector : String) (args : List V) : Method V R E V := do
  let w ← get
  let (answer, items, rest) := host.send receiver selector args (w.items, w.rest)
  set ({ items, rest, sent := w.sent ++ [⟨receiver, selector, args, w.items, items⟩] } : World V R)
  match answer with
  | .ok v => return v
  | .error e => throw (.raised e)

def shrunk : QuoinError E := .valueError "List was shrunk by its sort block during sort"

/-- `sort_fetch`. -/
def sortFetch (i : Nat) : Method V R E V := do
  match (← get).items[i]? with
  | some v => return v
  | none => throw shrunk

/-- `Vec::swap`, for neighbours. -/
def swapped (l : List V) (j : Nat) : List V :=
  match l[j - 1]?, l[j]? with
  | some a, some b => (l.set (j - 1) b).set j a
  | _, _ => l

/-- `sort_swap`. -/
def sortSwap (j : Nat) : Method V R E Unit := do
  let w ← get
  if 1 ≤ j ∧ j < w.items.length then set { w with items := swapped w.items j }
  else throw shrunk

/-- Whether `prev` is to come after `curr`: nil comes last. -/
def gtRes (prev curr : V) : Method V R E Bool := do
  if host.isNil prev then return !host.isNil curr
  else if host.isNil curr then return false
  else return host.isTrue (← callMethod host prev ">:" [curr])

/-- The comparison of `sort`. -/
def naturalTest (j : Nat) : Method V R E Bool := do
  let valPrev ← sortFetch (j - 1)
  let valCurr ← sortFetch j
  gtRes host valPrev valCurr

/-- The comparison of `sort:` by keys. The second element is read when the key of the first is
known. The argument of `valueWithArgs:` is a list of the block's arguments. -/
def keyTest (block : V) (j : Nat) : Method V R E Bool := do
  let valPrev ← sortFetch (j - 1)
  let keyLhs ← callMethod host block "valueWithArgs:" [valPrev]
  let valCurr ← sortFetch j
  let keyRhs ← callMethod host block "valueWithArgs:" [valCurr]
  gtRes host keyLhs keyRhs

/-- The comparison of `sort:` by a comparator: anything but true swaps. -/
def comparatorTest (block : V) (j : Nat) : Method V R E Bool := do
  let valPrev ← sortFetch (j - 1)
  let valCurr ← sortFetch j
  let res ← callMethod host block "valueWithArgs:" [valPrev, valCurr]
  return !host.isTrue res

/-- The two nested loops. The length is read once. -/
def sortLoop (test : Nat → Method V R E Bool) : Method V R E Unit := do
  let w ← get
  sinks test sortSwap 1 (w.items.length - 1)

/-- `sort`, and `sort:` with a block. -/
inductive Entry (V : Type) where
  | sort
  | sortBy (block : V)

/-- How an entry compares: `sort:` takes a block of one parameter for a key. -/
def Entry.test : Entry V → Nat → Method V R E Bool
  | .sort => naturalTest host
  | .sortBy block => if host.arity block = 1 then keyTest host block else comparatorTest host block

/-- The sort; it answers the receiver. -/
def Entry.run (entry : Entry V) : Method V R E Unit := sortLoop (entry.test host)

end Model

section Facts

variable {V R E : Type} {host : Host V R E} {w : World V R} {receiver v : V} {selector : String}
  {args items : List V} {rest : R}

theorem outcome_callMethod (h : host.send receiver selector args (w.items, w.rest)
    = (.ok v, (items, rest))) : (callMethod host receiver selector args).outcome w
      = (.ok v, ⟨items, rest, w.sent ++ [⟨receiver, selector, args, w.items, items⟩]⟩) := by
  rw [callMethod, Prog.outcome_bind_ok (Prog.outcome_get w), h]
  rfl

theorem outcome_callMethod_error {e : E} (h : host.send receiver selector args (w.items, w.rest)
    = (.error e, (items, rest))) : (callMethod host receiver selector args).outcome w
      = (.error (.raised e),
        ⟨items, rest, w.sent ++ [⟨receiver, selector, args, w.items, items⟩]⟩) := by
  rw [callMethod, Prog.outcome_bind_ok (Prog.outcome_get w), h]
  rfl

theorem outcome_sortFetch {i : Nat} (h : w.items[i]? = some v) :
    (sortFetch i : Method V R E V).outcome w = (.ok v, w) := by
  rw [sortFetch, Prog.outcome_bind_ok (Prog.outcome_get w), h]
  rfl

theorem swapped_append (p : List V) (a b : V) (q : List V) :
    swapped (p ++ a :: b :: q) (p.length + 1) = p ++ b :: a :: q := by
  simp [swapped]

/-- A list with two elements beside position `j` is cut there. -/
theorem exists_cut {l : List V} {j : Nat} (h : 1 ≤ j ∧ j < l.length) :
    ∃ p a b q, l = p ++ a :: b :: q ∧ j = p.length + 1 := by
  obtain ⟨i, rfl⟩ : ∃ i, j = i + 1 := ⟨j - 1, by omega⟩
  have hi : i < l.length := by omega
  refine ⟨l.take i, l[i], l[i + 1], l.drop (i + 2), ?_, ?_⟩
  · rw [← List.drop_eq_getElem_cons h.2, ← List.drop_eq_getElem_cons hi, List.take_append_drop]
  · rw [List.length_take, Nat.min_eq_left hi.le]

theorem outcome_sortSwap {p q : List V} {a b : V} (h : w.items = p ++ a :: b :: q) :
    (sortSwap (p.length + 1) : Method V R E Unit).outcome w
      = (.ok (), { w with items := p ++ b :: a :: q }) := by
  have hRange : 1 ≤ p.length + 1 ∧ p.length + 1 < w.items.length := by
    rw [h, List.length_append, List.length_cons, List.length_cons]
    omega
  rw [sortSwap, Prog.outcome_bind_ok (Prog.outcome_get w), if_pos hRange, h, swapped_append]
  rfl

/-! ## What a sort may do -/

/-- At most `n` sends have been made, and but for what they did the elements are the same. -/
def accounts (V R : Type) : Grade (World V R) where
  rel n w w' := ∃ new, w'.sent = w.sent ++ new ∧ new.length ≤ n ∧
    (w'.items : Multiset V) + (new.map fun s => (s.before : Multiset V)).sum
      = w.items + (new.map fun s => (s.after : Multiset V)).sum
  refl w := ⟨[], (List.append_nil _).symm, Nat.le_refl 0, rfl⟩
  trans := by
    rintro n m w w' w'' ⟨new, hSent, hLength, hItems⟩ ⟨new', hSent', hLength', hItems'⟩
    refine ⟨new ++ new', ?_, ?_, ?_⟩
    · rw [hSent', hSent, List.append_assoc]
    · rw [List.length_append]
      exact Nat.add_le_add hLength hLength'
    · rw [List.map_append, List.sum_append, List.map_append, List.sum_append, add_left_comm,
        hItems', ← add_assoc, add_comm _ (w'.items : Multiset V), hItems, add_assoc]
  mono hle := by
    rintro ⟨new, hSent, hLength, hItems⟩
    exact ⟨new, hSent, hLength.trans hle, hItems⟩

theorem bounds_callMethod (receiver : V) (selector : String) (args : List V) :
    (accounts V R).Bounds 1 (callMethod host receiver selector args) := by
  intro w
  rcases hSend : host.send receiver selector args (w.items, w.rest) with ⟨_ | v, items, rest⟩
  · rw [outcome_callMethod_error hSend]
    exact ⟨[⟨receiver, selector, args, w.items, items⟩], rfl, Nat.le_refl 1, by simp [add_comm]⟩
  · rw [outcome_callMethod hSend]
    exact ⟨[⟨receiver, selector, args, w.items, items⟩], rfl, Nat.le_refl 1, by simp [add_comm]⟩

theorem bounds_sortFetch (i : Nat) : (accounts V R).Bounds 0 (sortFetch i : Method V R E V) := by
  intro w
  rw [sortFetch, Prog.outcome_bind_ok (Prog.outcome_get w)]
  cases w.items[i]? <;> exact (accounts V R).refl w

theorem bounds_sortSwap (j : Nat) : (accounts V R).Bounds 0 (sortSwap j : Method V R E Unit) := by
  intro w
  by_cases hRange : 1 ≤ j ∧ j < w.items.length
  · obtain ⟨p, a, b, q, hItems, rfl⟩ := exists_cut hRange
    rw [outcome_sortSwap hItems]
    refine ⟨[], (List.append_nil _).symm, Nat.le_refl 0, ?_⟩
    rw [hItems]
    exact congrArg (· + 0) (Multiset.coe_eq_coe.mpr ((List.Perm.swap a b q).append_left p))
  · rw [sortSwap, Prog.outcome_bind_ok (Prog.outcome_get w), if_neg hRange]
    exact (accounts V R).refl w

theorem bounds_gtRes (prev curr : V) : (accounts V R).Bounds 1 (gtRes host prev curr) := by
  rw [gtRes]
  split
  · exact (Grade.bounds_pure _).mono (Nat.zero_le 1)
  split
  · exact (Grade.bounds_pure _).mono (Nat.zero_le 1)
  · exact (bounds_callMethod _ _ _).bind fun v => Grade.bounds_pure _

theorem bounds_test (entry : Entry V) (j : Nat) :
    (accounts V R).Bounds 3 (entry.test host j) := by
  have hKey (block : V) : (accounts V R).Bounds 3 (keyTest host block j) :=
    (bounds_sortFetch _).bind fun _ => (bounds_callMethod _ _ _).bind fun _ =>
      (bounds_sortFetch _).bind fun _ => (bounds_callMethod _ _ _).bind fun _ => bounds_gtRes _ _
  have hNatural : (accounts V R).Bounds 1 (naturalTest host j) :=
    (bounds_sortFetch _).bind fun _ => (bounds_sortFetch _).bind fun _ => bounds_gtRes _ _
  have hComparator (block : V) : (accounts V R).Bounds 1 (comparatorTest host block j) :=
    (bounds_sortFetch _).bind fun _ => (bounds_sortFetch _).bind fun _ =>
      (bounds_callMethod _ _ _).bind fun _ => Grade.bounds_pure _
  cases entry with
  | sort => exact hNatural.mono (by decide)
  | sortBy block =>
    rw [Entry.test]
    split
    · exact hKey block
    · exact (hComparator block).mono (by decide)

theorem sum_range_one_add (n : Nat) : ∑ j ∈ Finset.range n, (1 + j) = (n + 1).choose 2 := by
  induction n with
  | zero => rfl
  | succ n ih =>
    rw [Finset.sum_range_succ, ih, Nat.choose_succ_succ' (n + 1), Nat.choose_one_right,
      Nat.add_comm 1 n, Nat.add_comm]

/-- A list of `n` elements takes no more than three sends for each two of them. -/
theorem bounds_run (host : Host V R E) (entry : Entry V) (w : World V R) :
    (accounts V R).rel (3 * w.items.length.choose 2) w ((entry.run host).outcome w).2 := by
  have hTest : ∀ j, (accounts V R).Bounds 3 (entry.test host j) := bounds_test entry
  have hSinks := bounds_sinks hTest bounds_sortSwap 1 (w.items.length - 1) w
  have hCount : (∑ j ∈ Finset.range (w.items.length - 1), (1 + j)) = w.items.length.choose 2 := by
    cases w.items.length with
    | zero => rfl
    | succ n => exact sum_range_one_add n
  rw [hCount, Nat.mul_comm] at hSinks
  rw [Entry.run, sortLoop, Prog.outcome_bind_ok (Prog.outcome_get w)]
  exact hSinks

/-! ## Sorting by an order -/

/-- The send leaves the list alone, and its answer is one that `p` holds of. -/
def Host.Answers (host : Host V R E) (receiver : V) (selector : String) (args : List V)
    (p : V → Prop) : Prop :=
  ∀ items rest, ∃ v rest', host.send receiver selector args (items, rest)
    = (.ok v, (items, rest')) ∧ p v

structure TotalPreorder (le : V → V → Bool) : Prop where
  total : ∀ a b, le a b || le b a
  trans : ∀ a b c, le a b → le b c → le a c

/-- `le`, with nil after everything. -/
def nilsLast (isNil : V → Bool) (le : V → V → Bool) (a b : V) : Bool :=
  if isNil a then isNil b else isNil b || le a b

/-- `>:` answers by `le` for the values of `l` that are not nil. -/
def Host.GreaterBy (host : Host V R E) (le : V → V → Bool) (l : List V) : Prop :=
  ∀ a ∈ l, ∀ b ∈ l, host.isNil a = false → host.isNil b = false →
    host.Answers a ">:" [b] fun v => host.isTrue v = !le a b

/-- An entry sorts the values of `l` by `order`; `last` are those that it puts last whatever `>:`
says of them. -/
inductive OrderedBy (host : Host V R E) (l : List V) :
    Entry V → (V → V → Bool) → (V → Bool) → Prop
  | natural {le} (hle : TotalPreorder le) (hGreater : host.GreaterBy le l) :
    OrderedBy host l .sort (nilsLast host.isNil le) host.isNil
  | key {block le key} (hArity : host.arity block = 1) (hle : TotalPreorder le)
    (hKey : ∀ a ∈ l, host.Answers block "valueWithArgs:" [a] fun v => v = key a)
    (hGreater : host.GreaterBy le (l.map key)) :
    OrderedBy host l (.sortBy block) (fun a b => nilsLast host.isNil le (key a) (key b))
      fun a => host.isNil (key a)
  | comparator {block le} (hArity : host.arity block ≠ 1) (hle : TotalPreorder le)
    (hBlock : ∀ a ∈ l, ∀ b ∈ l,
      host.Answers block "valueWithArgs:" [a, b] fun v => host.isTrue v = le a b) :
    OrderedBy host l (.sortBy block) le fun _ => false

theorem TotalPreorder.nilsLast {le : V → V → Bool} (h : TotalPreorder le) (isNil : V → Bool) :
    TotalPreorder (nilsLast isNil le) := by
  constructor
  · intro a b
    have hTotal := h.total a b
    unfold Lists.nilsLast
    cases isNil a <;> cases isNil b <;> simp_all
  · intro a b c hab hbc
    have hTrans := h.trans a b c
    unfold Lists.nilsLast at *
    cases hA : isNil a <;> cases hB : isNil b <;> cases hC : isNil c <;> simp_all

/-- The order is a total preorder, and what is put last comes after everything. -/
theorem OrderedBy.preorder {l : List V} {entry : Entry V} {order : V → V → Bool} {last : V → Bool}
    (h : OrderedBy host l entry order last) :
    TotalPreorder order ∧ ∀ a b, order a b → last a → last b := by
  have hLast (le : V → V → Bool) (a b : V) (hab : Lists.nilsLast host.isNil le a b)
      (ha : host.isNil a) : host.isNil b := by
    rwa [Lists.nilsLast, if_pos ha] at hab
  cases h with
  | natural hle => exact ⟨hle.nilsLast host.isNil, hLast _⟩
  | @key _ _ key _ hle =>
    have hKeys := hle.nilsLast host.isNil
    exact ⟨⟨fun a b => hKeys.total _ _, fun a b c => hKeys.trans _ _ _⟩,
      fun a b => hLast _ (key a) (key b)⟩
  | comparator _ hle => exact ⟨hle, fun _ _ _ h => h⟩

/-- What a send answers, with the list as it was. -/
theorem Host.Answers.outcome {p : V → Prop} (h : host.Answers receiver selector args p)
    (w : World V R) : ∃ v w', (callMethod host receiver selector args).outcome w = (.ok v, w') ∧
      w'.items = w.items ∧ p v := by
  obtain ⟨v, rest', hSend, hv⟩ := h w.items w.rest
  exact ⟨v, _, outcome_callMethod hSend, rfl, hv⟩

theorem outcome_gtRes {le : V → V → Bool} {l : List V} (h : host.GreaterBy le l) {prev curr : V}
    (hPrev : prev ∈ l) (hCurr : curr ∈ l) (w : World V R) :
    ∃ w', (gtRes host prev curr).outcome w = (.ok (!nilsLast host.isNil le prev curr), w') ∧
      w'.items = w.items := by
  unfold gtRes nilsLast
  by_cases hNil : host.isNil prev = true
  · rw [if_pos hNil, if_pos hNil]
    exact ⟨w, rfl, rfl⟩
  rw [if_neg hNil, if_neg hNil]
  by_cases hNil' : host.isNil curr = true
  · rw [if_pos hNil', hNil', Bool.true_or]
    exact ⟨w, rfl, rfl⟩
  rw [if_neg hNil']
  rw [Bool.not_eq_true] at hNil hNil'
  obtain ⟨v, w', hCall, hSame, hv⟩ := (h prev hPrev curr hCurr hNil hNil').outcome w
  refine ⟨w', ?_, hSame⟩
  rw [Prog.outcome_bind_ok hCall, hNil', Bool.false_or, ← hv]
  rfl

/-- Each entry compares neighbours by the order it sorts by. -/
theorem OrderedBy.compares {l : List V} {entry : Entry V} {order : V → V → Bool}
    {last : V → Bool} (h : OrderedBy host l entry order last) :
    Compares World.items order l (entry.test host) (sortSwap (E := E)) where
  test := by
    intro w p a b q hItems ha hb
    have hFetchA : (sortFetch (p.length + 1 - 1) : Method V R E V).outcome w = (.ok a, w) :=
      outcome_sortFetch (by simp [hItems])
    have hFetchB (w' : World V R) (hSame : w'.items = w.items) :
        (sortFetch (p.length + 1) : Method V R E V).outcome w' = (.ok b, w') :=
      outcome_sortFetch (by simp [hSame, hItems])
    cases h with
    | natural hle hGreater =>
      obtain ⟨w', hGt, hSame⟩ := outcome_gtRes hGreater ha hb w
      refine ⟨w', ?_, hSame⟩
      rw [Entry.test, naturalTest, Prog.outcome_bind_ok hFetchA,
        Prog.outcome_bind_ok (hFetchB w rfl)]
      exact hGt
    | @key block le key hArity hle hKey hGreater =>
      obtain ⟨_, w₁, hCallA, hSame₁, rfl⟩ := (hKey a ha).outcome w
      obtain ⟨_, w₂, hCallB, hSame₂, rfl⟩ := (hKey b hb).outcome w₁
      obtain ⟨w₃, hGt, hSame₃⟩ := outcome_gtRes hGreater (List.mem_map_of_mem ha)
        (List.mem_map_of_mem hb) w₂
      refine ⟨w₃, ?_, hSame₃.trans (hSame₂.trans hSame₁)⟩
      rw [Entry.test, if_pos hArity, keyTest, Prog.outcome_bind_ok hFetchA,
        Prog.outcome_bind_ok hCallA, Prog.outcome_bind_ok (hFetchB w₁ hSame₁),
        Prog.outcome_bind_ok hCallB]
      exact hGt
    | comparator hArity hle hBlock =>
      obtain ⟨v, w', hCall, hSame, hv⟩ := (hBlock a ha b hb).outcome w
      refine ⟨w', ?_, hSame⟩
      rw [Entry.test, if_neg hArity, comparatorTest, Prog.outcome_bind_ok hFetchA,
        Prog.outcome_bind_ok (hFetchB w rfl), Prog.outcome_bind_ok hCall, ← hv]
      rfl
  swap := by
    intro w p a b q hItems
    exact ⟨_, outcome_sortSwap hItems, rfl⟩

/-- **What a sort does.** With any sends it makes at most three for each two elements, and ends;
then the list holds what it held, and what the sends added and did not take, also if it ends with an
error. If the sends leave the list alone and go by a total preorder, the elements are in order,
equal ones in the order they were in, and those that come last are last. -/
theorem sort_spec (entry : Entry V) (w : World V R) :
    (∃ new, ((entry.run host).outcome w).2.sent = w.sent ++ new ∧
      new.length ≤ 3 * w.items.length.choose 2 ∧
      (((entry.run host).outcome w).2.items : Multiset V)
          + (new.map fun s => (s.before : Multiset V)).sum
        = w.items + (new.map fun s => (s.after : Multiset V)).sum ∧
      ((∀ s ∈ new, s.after.Perm s.before) →
        ((entry.run host).outcome w).2.items.Perm w.items)) ∧
    (∀ order last, OrderedBy host w.items entry order last →
      ∃ w', (entry.run host).outcome w = (.ok (), w') ∧ w'.items.Perm w.items ∧
        (w'.items.Pairwise fun a b => order a b) ∧
        (∀ a, (w'.items.filter fun b => order a b && order b a)
          = w.items.filter fun b => order a b && order b a) ∧
        w'.items.Pairwise fun a b => last a → last b) := by
  constructor
  · obtain ⟨new, hSent, hLength, hItems⟩ := bounds_run host entry w
    refine ⟨new, hSent, hLength, hItems, fun hPerm => ?_⟩
    have hSame : (new.map fun s => (s.after : Multiset V))
        = new.map fun s => (s.before : Multiset V) :=
      List.map_congr_left fun s hs => Multiset.coe_eq_coe.mpr (hPerm s hs)
    rw [hSame] at hItems
    exact Multiset.coe_eq_coe.mp (add_right_cancel hItems)
  · intro order last h
    obtain ⟨hOrder, hLast⟩ := h.preorder
    obtain ⟨w', hRun, hItems⟩ := h.compares.sorts rfl
    refine ⟨w', ?_, ?_, ?_, ?_, ?_⟩
    · rw [Entry.run, sortLoop, Prog.outcome_bind_ok (Prog.outcome_get w)]
      exact hRun
    · rw [hItems]
      exact ascending_perm order w.items
    · rw [hItems]
      exact ascending_pairwise hOrder.total hOrder.trans w.items
    · rw [hItems]
      exact filter_ascending hOrder.total hOrder.trans w.items
    · rw [hItems]
      exact (ascending_pairwise hOrder.total hOrder.trans w.items).imp (hLast _ _)

end Facts

/-! ## A VM to run it in -/

/-- Integers and Strings, and four blocks: a comparator, a key, a comparator that puts nil first,
and one that adds an element to the list. -/
inductive Sample where
  | nil
  | bool (b : Bool)
  | int (i : Int)
  | str (s : String)
  | upTo
  | negated
  | nilFirst
  | appends
  deriving DecidableEq

def Sample.host : Host Sample Unit String where
  isNil v := v = .nil
  isTrue v := v = .bool true
  arity
    | .negated => 1
    | _ => 2
  send receiver selector args := fun (items, rest) =>
    match receiver, selector, args with
    | .int a, ">:", [.int b] => (.ok (.bool (b < a)), (items, rest))
    | .upTo, "valueWithArgs:", [.int a, .int b] => (.ok (.bool (a ≤ b)), (items, rest))
    | .negated, "valueWithArgs:", [.int a] => (.ok (.int (-a)), (items, rest))
    | .negated, "valueWithArgs:", [_] => (.ok .nil, (items, rest))
    | .nilFirst, "valueWithArgs:", [a, b] =>
      (.ok (.bool (a = .nil ∨ b ≠ .nil)), (items, rest))
    | .appends, "valueWithArgs:", [_, _] => (.ok (.bool true), (items ++ [.int 0], rest))
    | _, _, _ => (.error "no such method", (items, rest))

/-- The elements `l` in a VM that has done nothing yet. -/
def Sample.world (l : List Sample) : World Sample Unit := ⟨l, (), []⟩

/-- How `entry` leaves the elements `l`, and how it ends. -/
def Sample.sorted (entry : Entry Sample) (l : List Sample) :
    Except (QuoinError String) Unit × List Sample :=
  let (answer, w) := (entry.run Sample.host).outcome (Sample.world l)
  (answer, w.items)

def Sample.le : Sample → Sample → Bool
  | .int a, .int b => a ≤ b
  | .int _, _ => true
  | _, .int _ => false
  | _, _ => true

theorem Sample.le_preorder : TotalPreorder Sample.le := by
  constructor
  · intro a b
    cases a <;> cases b <;> simp [Sample.le]
    omega
  · intro a b c
    cases a <;> cases b <;> cases c <;> simp [Sample.le]
    omega

/-- Two Integers and a nil, sorted by the `>:` of the elements. -/
theorem sort_spec_sample : ∃ w',
    ((Entry.sort : Entry Sample).run Sample.host).outcome (Sample.world [.int 2, .nil, .int 1])
      = (.ok (), w') ∧ w'.items.Perm [.int 2, .nil, .int 1] := by
  have hGreater : Sample.host.GreaterBy Sample.le [.int 2, .nil, .int 1] := by
    intro a ha b hb hNil hNil' items rest
    obtain ⟨i, rfl⟩ : ∃ i, a = .int i := by fin_cases ha <;> simp_all [Sample.host]
    obtain ⟨j, rfl⟩ : ∃ j, b = .int j := by fin_cases hb <;> simp_all [Sample.host]
    refine ⟨_, rest, rfl, ?_⟩
    by_cases hij : j < i
    · simp [Sample.host, Sample.le, hij]
    · simpa [Sample.host, Sample.le, hij] using Int.not_lt.mp hij
  obtain ⟨w', hRun, hPerm, -⟩ := (sort_spec .sort (Sample.world [.int 2, .nil, .int 1])).2 _ _
    (.natural Sample.le_preorder hGreater)
  exact ⟨w', hRun, hPerm⟩

/-- A sort that raises has swapped elements before; a block that adds to the list has added to it; a
comparator may put nil first. -/
theorem sort_not_restored :
    Sample.sorted .sort [.int 2, .int 1, .str "x"]
        = (.error (.raised "no such method"), [.int 1, .int 2, .str "x"]) ∧
      Sample.sorted (.sortBy .appends) [.int 1, .int 2] = (.ok (), [.int 1, .int 2, .int 0]) ∧
      ¬[Sample.int 1, .int 2, .int 0].Perm [.int 1, .int 2] ∧
      Sample.sorted (.sortBy .nilFirst) [.int 1, .nil] = (.ok (), [.nil, .int 1]) :=
  ⟨rfl, rfl, by decide, rfl⟩

end Quoin.Lists
