import Mathlib

/-!
# Trans — depth-first search

A search walks a graph depth first (`next` are a node's edges, in order),
remembers the nodes it has been at, and stops at the first node that answers
(`found`). Its fuel bounds the depth. In a finite graph a fuel above the number
of nodes is enough (`search_total`); then the search answers exactly where some
node it can reach does (`isSome_iff_of_answers`), and where it does not, the nodes
it has been at are exactly those it can reach (`Explored.mem_iff`).
-/

namespace Trans

variable {α β : Type}

/-- Visits the nodes in order, each with what has been seen before it, until one answers. -/
def searchAll (visit : α → List α → Option (Option β × List α)) :
    List α → List α → Option (Option β × List α)
  | [], seen => some (none, seen)
  | a :: rest, seen =>
    match visit a seen with
    | some (none, seen') => searchAll visit rest seen'
    | answer => answer

/-- Depth-first search from a node; `none` is out of fuel. -/
def search [DecidableEq α] (found : α → Option β) (next : α → List α) :
    Nat → α → List α → Option (Option β × List α)
  | 0, _, _ => none
  | fuel + 1, a, seen =>
    if a ∈ seen then some (none, seen) else
    match found a with
    | some b => some (some b, a :: seen)
    | none => searchAll (search found next fuel) (next a) (a :: seen)

/-- Edges lead from `a` to `b`. -/
abbrev Reaches (next : α → List α) : α → α → Prop :=
  Relation.ReflTransGen fun a b => b ∈ next a

/-- A search that ended without an answer: what is new among the nodes it has been at has
no answer, is left by no edge, and is reached from a node it started at. -/
structure Explored (found : α → Option β) (next : α → List α) (starts seen seen' : List α) :
    Prop where
  kept : ∀ a ∈ seen, a ∈ seen'
  started : ∀ a ∈ starts, a ∈ seen'
  closed : ∀ a ∈ seen', a ∉ seen → found a = none ∧ ∀ b ∈ next a, b ∈ seen'
  reached : ∀ a ∈ seen', a ∉ seen → ∃ s ∈ starts, Reaches next s a

/-- What a search from `starts` may answer. -/
def Answers (found : α → Option β) (next : α → List α) (starts seen : List α) :
    Option β × List α → Prop
  | (some b, _) => ∃ s ∈ starts, ∃ c, Reaches next s c ∧ found c = some b
  | (none, seen') => Explored found next starts seen seen'

variable {found : α → Option β} {next : α → List α} {nodes : Finset α} {a b : α}
  {starts seen seen' : List α} {fuel : Nat}

namespace Explored

theorem nil : Explored found next [] seen seen :=
  ⟨fun _ h => h, by simp, fun _ h hn => absurd h hn, fun _ h hn => absurd h hn⟩

/-- One node's search, then the rest's. -/
theorem cons {mid : List α} (h : Explored found next [a] seen mid)
    (h' : Explored found next starts mid seen') : Explored found next (a :: starts) seen seen' where
  kept x hx := h'.kept x (h.kept x hx)
  started := by
    have hHead : a ∈ seen' := h'.kept a (h.started a (by simp))
    simpa using ⟨hHead, h'.started⟩
  closed x hx hn := by
    -- a node that the first search added keeps its edges inside what has been seen
    by_cases hMid : x ∈ mid
    · obtain ⟨hNone, hNext⟩ := h.closed x hMid hn
      exact ⟨hNone, fun b hb => h'.kept b (hNext b hb)⟩
    · exact h'.closed x hx hMid
  reached x hx hn := by
    by_cases hMid : x ∈ mid
    · obtain ⟨s, hs, hReach⟩ := h.reached x hMid hn
      rw [List.mem_singleton.mp hs] at hReach
      exact ⟨a, by simp, hReach⟩
    · obtain ⟨s, hs, hReach⟩ := h'.reached x hx hMid
      exact ⟨s, by simp [hs], hReach⟩

/-- A node without an answer, then the search of its edges. -/
theorem node (hNone : found a = none) (h : Explored found next (next a) (a :: seen) seen') :
    Explored found next [a] seen seen' where
  kept x hx := h.kept x (by simp [hx])
  started := by
    have hHead : a ∈ seen' := h.kept a (by simp)
    simpa using hHead
  closed x hx hn := by
    by_cases hxa : x = a
    · subst hxa
      exact ⟨hNone, h.started⟩
    · exact h.closed x hx (by simp [hxa, hn])
  reached x hx hn := by
    by_cases hxa : x = a
    · exact ⟨a, by simp, hxa ▸ .refl⟩
    · obtain ⟨s, hs, hReach⟩ := h.reached x hx (by simp [hxa, hn])
      exact ⟨a, by simp, .head hs hReach⟩

/-- With nothing behind it, a search that ends without an answer has been exactly where it
can get, and nowhere there is an answer. -/
theorem mem_iff (h : Explored found next [a] [] seen') : b ∈ seen' ↔ Reaches next a b := by
  constructor
  · intro hb
    obtain ⟨s, hs, hReach⟩ := h.reached b hb (by simp)
    rwa [List.mem_singleton.mp hs] at hReach
  · intro hReach
    induction hReach with
    | refl => exact h.started a (by simp)
    | tail _ hEdge ih => exact (h.closed _ ih (by simp)).2 _ hEdge

theorem found_none (h : Explored found next [a] [] seen') (hReach : Reaches next a b) :
    found b = none :=
  (h.closed b (h.mem_iff.mpr hReach) (by simp)).1

end Explored

theorem searchAll_append (visit : α → List α → Option (Option β × List α))
    (starts starts' seen : List α) :
    searchAll visit (starts ++ starts') seen =
      match searchAll visit starts seen with
      | some (none, seen') => searchAll visit starts' seen'
      | answer => answer := by
  induction starts generalizing seen with
  | nil => rfl
  | cons a starts ih =>
    rw [List.cons_append, searchAll, searchAll]
    rcases visit a seen with _ | ⟨_ | b, seen'⟩
    · rfl
    · exact ih seen'
    · rfl

theorem searchAll_singleton (visit : α → List α → Option (Option β × List α)) (a : α)
    (seen : List α) : searchAll visit [a] seen = visit a seen := by
  rw [searchAll]
  rcases visit a seen with _ | ⟨_ | b, seen'⟩ <;> rfl

/-- The search of several nodes, from that of each. -/
theorem searchAll_answers {visit : α → List α → Option (Option β × List α)}
    (hVisit : ∀ a ∈ starts, ∀ seen', (∀ x ∈ seen, x ∈ seen') →
      ∃ r, visit a seen' = some r ∧ Answers found next [a] seen' r) :
    ∃ r, searchAll visit starts seen = some r ∧ Answers found next starts seen r := by
  induction starts generalizing seen with
  | nil => exact ⟨_, rfl, Explored.nil⟩
  | cons a starts ih =>
    obtain ⟨⟨answer, mid⟩, hEq, hAnswer⟩ := hVisit a (by simp) seen fun _ h => h
    cases answer with
    | some b =>
      obtain ⟨s, hs, c, hReach, hFound⟩ := hAnswer
      rw [List.mem_singleton.mp hs] at hReach
      exact ⟨(some b, mid), by rw [searchAll, hEq], a, by simp, c, hReach, hFound⟩
    | none =>
      have hRest : ∀ x ∈ starts, ∀ seen', (∀ y ∈ mid, y ∈ seen') →
          ∃ r, visit x seen' = some r ∧ Answers found next [x] seen' r := by
        intro x hx seen' hsub
        exact hVisit x (by simp [hx]) seen' fun y hy => hsub y (hAnswer.kept y hy)
      obtain ⟨⟨answer, last⟩, hEq', hAnswer'⟩ := ih hRest
      refine ⟨(answer, last), by simp only [searchAll, hEq, hEq'], ?_⟩
      cases answer with
      | some b =>
        obtain ⟨s, hs, c, hReach, hFound⟩ := hAnswer'
        exact ⟨s, by simp [hs], c, hReach, hFound⟩
      | none => exact hAnswer.cons hAnswer'

/-- A search that finds nothing has gone through `order`, and any other search goes
the same way until something answers. -/
def Orders (found : α → Option β) (visit : Option (Option β × List α)) (order seen' : List α) :
    Prop :=
  ∃ last, visit = some (order.findSome? found, last) ∧
    (order.findSome? found = none → last = seen')

theorem searchAll_orders {blind : α → List α → Option (Option Unit × List α)}
    {visit : α → List α → Option (Option β × List α)}
    (hEach : ∀ a ∈ starts, ∀ seen seen', blind a seen = some (none, seen') →
      ∃ order, seen' = order.reverse ++ seen ∧ Orders found (visit a seen) order seen')
    (hAll : searchAll blind starts seen = some (none, seen')) :
    ∃ order, seen' = order.reverse ++ seen ∧
      Orders found (searchAll visit starts seen) order seen' := by
  induction starts generalizing seen with
  | nil =>
    obtain rfl : seen = seen' := by simpa [searchAll] using hAll
    exact ⟨[], rfl, seen, rfl, fun _ => rfl⟩
  | cons a starts ih =>
    rw [searchAll] at hAll
    rcases hBlind : blind a seen with _ | ⟨_ | _, mid⟩
    · rw [hBlind] at hAll
      contradiction
    · rw [hBlind] at hAll
      obtain ⟨order, rfl, last, hVisit, hLast⟩ := hEach a (by simp) seen mid hBlind
      obtain ⟨order', rfl, last', hVisit', hLast'⟩ :=
        ih (fun x hx => hEach x (by simp [hx])) hAll
      refine ⟨order ++ order', by simp, ?_⟩
      rw [searchAll, hVisit]
      cases hHere : order.findSome? found with
      | some b =>
        exact ⟨last, by simp [hHere], fun hNone => by simp [hHere] at hNone⟩
      | none =>
        obtain rfl := hLast hHere
        exact ⟨last', by simp [hHere, hVisit'], fun hNone => hLast' (by simpa [hHere] using hNone)⟩
    · rw [hBlind] at hAll
      simp at hAll

variable [DecidableEq α]

/-- The nodes in the order in which a search gets to them that finds nothing. -/
def searchOrder (next : α → List α) (fuel : Nat) (a : α) : List α :=
  ((search (fun _ => (none : Option Unit)) next fuel a []).map fun r => r.2.reverse).getD []

theorem search_orders (hBlind : search (fun _ => (none : Option Unit)) next fuel a seen
      = some (none, seen')) :
    ∃ order, seen' = order.reverse ++ seen ∧
      Orders found (search found next fuel a seen) order seen' := by
  induction fuel generalizing a seen seen' with
  | zero => contradiction
  | succ fuel ih =>
    rw [search] at hBlind ⊢
    by_cases hSeen : a ∈ seen
    · rw [if_pos hSeen] at hBlind ⊢
      obtain rfl : seen = seen' := by simpa using hBlind
      exact ⟨[], rfl, seen, rfl, fun _ => rfl⟩
    rw [if_neg hSeen] at hBlind ⊢
    obtain ⟨order, rfl, last, hVisit, hLast⟩ :=
      @searchAll_orders _ _ found _ _ _ _ _ (fun x _ seen seen' hx => ih hx) hBlind
    refine ⟨a :: order, by simp, ?_⟩
    cases hHere : found a with
    | some b => exact ⟨a :: seen, by simp [hHere], fun hNone => by simp [hHere] at hNone⟩
    | none =>
      dsimp only
      exact ⟨last, by simp [hHere, hVisit], fun hNone => hLast (by simpa [hHere] using hNone)⟩

/-- Going to a new node leaves fewer of the nodes unseen. -/
theorem card_unseen_lt (ha : a ∈ nodes) (hNew : a ∉ seen)
    (hsub : ∀ x ∈ a :: seen, x ∈ seen') :
    (nodes \ seen'.toFinset).card < (nodes \ seen.toFinset).card := by
  refine Finset.card_lt_card (Finset.ssubset_iff_of_subset ?_ |>.mpr ⟨a, ?_, ?_⟩)
  · intro x hx
    simp only [Finset.mem_sdiff, List.mem_toFinset] at hx ⊢
    exact ⟨hx.1, fun hin => hx.2 (hsub x (by simp [hin]))⟩
  · simp [ha, hNew]
  · simp [hsub a (by simp)]

/-- In a graph whose edges stay among `nodes`, a fuel above the number of the nodes still
unseen is enough. -/
theorem search_answers (hClosed : ∀ x ∈ nodes, ∀ y ∈ next x, y ∈ nodes) (ha : a ∈ nodes)
    (hFuel : (nodes \ seen.toFinset).card < fuel) :
    ∃ r, search found next fuel a seen = some r ∧ Answers found next [a] seen r := by
  induction fuel generalizing a seen with
  | zero => omega
  | succ fuel ih =>
    by_cases hSeen : a ∈ seen
    · refine ⟨(none, seen), by rw [search, if_pos hSeen], ?_⟩
      exact ⟨fun _ h => h, by simpa using hSeen, fun _ h hn => absurd h hn,
        fun _ h hn => absurd h hn⟩
    cases hFound : found a with
    | some b =>
      exact ⟨(some b, a :: seen), by rw [search, if_neg hSeen, hFound], a, by simp, a, .refl,
        hFound⟩
    | none =>
      -- every edge is searched with `a` among the nodes seen, so one node fewer is left
      have hEdges : ∀ x ∈ next a, ∀ seen', (∀ y ∈ a :: seen, y ∈ seen') →
          ∃ r, search found next fuel x seen' = some r ∧ Answers found next [x] seen' r := by
        intro x hx seen' hsub
        have hLess := card_unseen_lt ha hSeen hsub
        exact ih (hClosed a ha x hx) (by omega)
      obtain ⟨⟨answer, last⟩, hEq, hAnswer⟩ := searchAll_answers hEdges
      refine ⟨(answer, last), by rw [search, if_neg hSeen, hFound]; exact hEq, ?_⟩
      cases answer with
      | some b =>
        obtain ⟨s, hs, c, hReach, hc⟩ := hAnswer
        exact ⟨a, by simp, c, .head hs hReach, hc⟩
      | none => exact .node hFound hAnswer

/-- **Totality.** -/
theorem search_total (found : α → Option β)
    (hClosed : ∀ x ∈ nodes, ∀ y ∈ next x, y ∈ nodes) (ha : a ∈ nodes) (hFuel : nodes.card < fuel) :
    ∃ r, search found next fuel a [] = some r ∧ Answers found next [a] [] r :=
  search_answers hClosed ha (by simpa using hFuel)

/-- **A search answers what the first node of its order answers that does.** -/
theorem search_first (found : α → Option β)
    (hClosed : ∀ x ∈ nodes, ∀ y ∈ next x, y ∈ nodes) (ha : a ∈ nodes) (hFuel : nodes.card < fuel) :
    ∃ last, search found next fuel a [] =
      some ((searchOrder next fuel a).findSome? found, last) := by
  obtain ⟨⟨answer, seen'⟩, hBlind, hAnswers⟩ :=
    search_total (fun _ => (none : Option Unit)) hClosed ha hFuel
  cases answer with
  | some u =>
    obtain ⟨_, _, _, _, hNever⟩ := hAnswers
    contradiction
  | none =>
    obtain ⟨order, hSeen, last, hSearch, -⟩ := @search_orders _ _ found _ _ _ _ _ _ hBlind
    refine ⟨last, ?_⟩
    rw [hSearch, searchOrder, hBlind]
    simp [hSeen]

omit [DecidableEq α] in
/-- A finished search answers exactly where some node it can reach does. -/
theorem isSome_iff_of_answers {answer : Option β} (h : Answers found next [a] [] (answer, seen')) :
    answer.isSome ↔ ∃ c, Reaches next a c ∧ (found c).isSome := by
  cases answer with
  | some b =>
    obtain ⟨s, hs, c, hReach, hFound⟩ := h
    rw [List.mem_singleton.mp hs] at hReach
    exact ⟨fun _ => ⟨c, hReach, by simp [hFound]⟩, fun _ => rfl⟩
  | none =>
    refine ⟨fun hNo => absurd hNo (by simp), fun ⟨c, hReach, hFound⟩ => ?_⟩
    rw [Explored.found_none h hReach] at hFound
    exact absurd hFound (by simp)

end Trans
