import Mathlib
import Quoin.Trans.Peg

/-!
# Trans — what the first characters tell a grammar

`glance` is the descent over the first characters of an input of which the rest
is not known: it says what an expression makes of every input that starts so
(`parses_of_glance`), or nothing where that depends on what comes after. For a
given grammar it is a computation, so that the alternatives that a few
characters rule out are ruled out by evaluation. With it come the rules that put
a parse together from its parts.
-/

namespace Trans.Peg

/-- A failure, or what is left of the known characters; `none` where it takes more to tell. -/
abbrev Glimpse := Option (Option (List Char))

def Terminal.glance (known : List Char) : Terminal → Glimpse
  | .text s =>
    if s.isPrefixOf known then some (some (known.drop s.length))
    else if known.isPrefixOf s then none else some none
  | .range lo hi =>
    match known with
    | c :: rest => some (if lo ≤ c ∧ c ≤ hi then some rest else none)
    | [] => none
  | .any =>
    match known with
    | _ :: rest => some (some rest)
    | [] => none
  | .start => none
  | .finish => if known.isEmpty then none else some none

variable {ρ : Type}

def glance (g : Grammar ρ) : Nat → Bool → Expr ρ → List Char → Glimpse
  | 0, _, _, _ => none
  | _ + 1, _, .terminal t, known => t.glance known
  | depth + 1, atomic, .rule r, known => glance g depth (atomic || g.atomic r) (g.body r) known
  | depth + 1, atomic, .skip, known =>
    if atomic then some (some known) else glance g depth false g.trivia known
  | depth + 1, atomic, .seq e f, known =>
    match glance g depth atomic e known with
    | some (some rest) => glance g depth atomic f rest
    | out => out
  | depth + 1, atomic, .alt e f, known =>
    match glance g depth atomic e known with
    | some none => glance g depth atomic f known
    | out => out
  | depth + 1, atomic, .star e, known =>
    match glance g depth atomic e known with
    | some (some rest) => glance g depth atomic (.star e) rest
    | some none => some (some known)
    | none => none
  | depth + 1, atomic, .opt e, known =>
    match glance g depth atomic e known with
    | some none => some (some known)
    | out => out
  | depth + 1, atomic, .not e, known =>
    match glance g depth atomic e known with
    | some none => some (some known)
    | some (some _) => some none
    | none => none

/-- The result over `known ++ t` that a glance at `known` foretells. -/
inductive Foretold (pos : Nat) (known t : List Char) : Option (List Char) → Result ρ → Prop
  | fails : Foretold pos known t none none
  | reads {used rest ps} (hKnown : known = used ++ rest) :
    Foretold pos known t (some rest) (some (⟨pos + size used, rest ++ t⟩, ps))

section

variable {g : Grammar ρ} {atomic : Bool} {e f : Expr ρ} {pos : Nat}
  {known rest t : List Char} {out : Option (List Char)} {res : Result ρ}

namespace Foretold

theorem stay : Foretold pos known t (some known)
    (some (⟨pos, known ++ t⟩, ([] : List (Pair ρ)))) := by
  have hNone : known = [] ++ known := rfl
  exact .reads hNone

theorem of_none (h : Foretold pos known t none res) : res = none := by
  cases h with
  | fails => rfl

theorem of_some (h : Foretold pos known t (some rest) res) :
    ∃ used ps, known = used ++ rest ∧ res = some (⟨pos + size used, rest ++ t⟩, ps) := by
  cases h with
  | reads hKnown => exact ⟨_, _, hKnown, rfl⟩

/-- What is foretold after the first of two parts. -/
theorem after {used : List Char} (hKnown : known = used ++ rest) (ps : List (Pair ρ))
    (h : Foretold (pos + size used) rest t out res) :
    Foretold pos known t out (Result.after ps res) := by
  cases h with
  | fails => exact .fails
  | @reads used' rest' qs hRest =>
    have hAll : known = (used ++ used') ++ rest' := by rw [hKnown, hRest, List.append_assoc]
    have hSize : pos + size used + size used' = pos + size (used ++ used') := by
      rw [size_append, Nat.add_assoc]
    rw [Result.after, Option.map_some, hSize]
    exact .reads hAll

end Foretold

theorem foretold_terminal {term : Terminal} (h : term.glance known = some out) :
    Foretold pos known t out
      ((term.read ⟨pos, known ++ t⟩).map fun last => (last, ([] : List (Pair ρ)))) := by
  cases term with
  | text s =>
    rw [Terminal.glance] at h
    split_ifs at h with hPre hShort
    · -- the text is there already
      obtain ⟨rest, rfl⟩ := List.isPrefixOf_iff_prefix.mp hPre
      cases Option.some.inj h
      have hRead : s.isPrefixOf (s ++ rest ++ t) = true := by
        rw [List.append_assoc]
        exact List.isPrefixOf_iff_prefix.mpr ( List.prefix_append s _)
      rw [Terminal.read, if_pos hRead, List.append_assoc, List.drop_left, List.drop_left]
      exact .reads rfl
    · -- what is known and the text part before either ends
      cases Option.some.inj h
      have hNot : ¬s.isPrefixOf (known ++ t) := by
        intro hs
        rcases List.prefix_or_prefix_of_prefix ( List.isPrefixOf_iff_prefix.mp hs)
          ( List.prefix_append known t) with hs | hs
        · exact hPre ( List.isPrefixOf_iff_prefix.mpr hs)
        · exact hShort ( List.isPrefixOf_iff_prefix.mpr hs)
      rw [Terminal.read, if_neg hNot]
      exact .fails
  | range lo hi =>
    cases known with
    | nil => cases h
    | cons c rest =>
      cases Option.some.inj h
      by_cases hc : lo ≤ c ∧ c ≤ hi
      · rw [if_pos hc, Terminal.read, List.cons_append]
        dsimp only
        rw [if_pos hc, ← size_singleton]
        exact .reads rfl
      · rw [if_neg hc, Terminal.read, List.cons_append]
        dsimp only
        rw [if_neg hc]
        exact .fails
  | any =>
    cases known with
    | nil => cases h
    | cons c rest =>
      cases Option.some.inj h
      rw [Terminal.read, List.cons_append]
      dsimp only
      rw [← size_singleton]
      exact .reads rfl
  | start => cases h
  | finish =>
    -- where nothing is known it may be the end or not
    cases known with
    | nil => cases h
    | cons c rest =>
      cases Option.some.inj h
      exact .fails

/-- A glance tells what an expression makes of every input that starts so. -/
theorem parses_of_glance {depth : Nat} (h : glance g depth atomic e known = some out) (pos : Nat)
    (t : List Char) :
    ∃ res, Parses g atomic e ⟨pos, known ++ t⟩ res ∧ Foretold pos known t out res := by
  -- on the depth of the glance; each case parses by the rule of its expression
  induction depth generalizing atomic e known out pos with
  | zero => simp [glance] at h
  | succ depth ih =>
    cases e with
    | terminal term => exact ⟨_, .terminal rfl, foretold_terminal h⟩
    | rule r =>
      obtain ⟨res, hParse, hSee⟩ := ih h pos
      refine ⟨_, .rule hParse rfl, ?_⟩
      cases hSee with
      | fails => exact .fails
      | reads hKnown => exact .reads hKnown
    | skip =>
      cases atomic with
      | true =>
        cases Option.some.inj h
        exact ⟨_, .within, .stay⟩
      | false =>
        obtain ⟨res, hParse, hSee⟩ := ih (e := g.trivia) h pos
        exact ⟨res, .trivia hParse, hSee⟩
    | seq e f =>
      simp only [glance] at h
      rcases hFirst : glance g depth atomic e known with _ | _ | rest <;> rw [hFirst] at h
      · cases h
      · cases Option.some.inj h
        obtain ⟨res, hParse, hSee⟩ := ih hFirst pos
        cases hSee.of_none
        exact ⟨none, .seq_fail hParse, .fails⟩
      · obtain ⟨res, hParse, hSee⟩ := ih hFirst pos
        -- what is foretold of the first part begins where the second is asked
        obtain ⟨used, ps, hKnown, rfl⟩ := hSee.of_some
        obtain ⟨res', hParse', hSee'⟩ := ih h (pos + size used)
        exact ⟨_, .seq hParse hParse' rfl, hSee'.after hKnown ps⟩
    | alt e f =>
      simp only [glance] at h
      rcases hFirst : glance g depth atomic e known with _ | _ | rest <;> rw [hFirst] at h
      · cases h
      · obtain ⟨res, hParse, hSee⟩ := ih hFirst pos
        cases hSee.of_none
        obtain ⟨res', hParse', hSee'⟩ := ih h pos
        exact ⟨res', .alt_second hParse hParse', hSee'⟩
      · cases Option.some.inj h
        obtain ⟨res, hParse, hSee⟩ := ih hFirst pos
        obtain ⟨used, ps, hKnown, rfl⟩ := hSee.of_some
        exact ⟨_, .alt_first hParse, .reads hKnown⟩
    | star e =>
      simp only [glance] at h
      rcases hFirst : glance g depth atomic e known with _ | _ | rest <;> rw [hFirst] at h
      · cases h
      · cases Option.some.inj h
        obtain ⟨res, hParse, hSee⟩ := ih hFirst pos
        cases hSee.of_none
        exact ⟨_, .done hParse, .stay⟩
      · obtain ⟨res, hParse, hSee⟩ := ih hFirst pos
        obtain ⟨used, ps, hKnown, rfl⟩ := hSee.of_some
        obtain ⟨res', hParse', hSee'⟩ := ih h (pos + size used)
        exact ⟨_, .more hParse hParse' rfl, hSee'.after hKnown ps⟩
    | opt e =>
      simp only [glance] at h
      rcases hInner : glance g depth atomic e known with _ | _ | rest <;> rw [hInner] at h
      · cases h
      · cases Option.some.inj h
        obtain ⟨res, hParse, hSee⟩ := ih hInner pos
        cases hSee.of_none
        exact ⟨_, .opt_none hParse, .stay⟩
      · cases Option.some.inj h
        obtain ⟨res, hParse, hSee⟩ := ih hInner pos
        obtain ⟨used, ps, hKnown, rfl⟩ := hSee.of_some
        exact ⟨_, .opt_some hParse, .reads hKnown⟩
    | not e =>
      simp only [glance] at h
      rcases hInner : glance g depth atomic e known with _ | _ | rest <;> rw [hInner] at h
      · cases h
      · cases Option.some.inj h
        obtain ⟨res, hParse, hSee⟩ := ih hInner pos
        cases hSee.of_none
        exact ⟨_, .not_none hParse, .stay⟩
      · cases Option.some.inj h
        obtain ⟨res, hParse, hSee⟩ := ih hInner pos
        obtain ⟨used, ps, hKnown, rfl⟩ := hSee.of_some
        exact ⟨none, .not_some hParse, .fails⟩

/-- What the first characters rule out fails. -/
theorem fails_of_glance (depth : Nat) (known : List Char)
    (h : glance g depth atomic e known = some none) (pos : Nat) (t : List Char) :
    Parses g atomic e ⟨pos, known ++ t⟩ none := by
  obtain ⟨res, hParse, hSee⟩ := parses_of_glance h pos t
  cases hSee.of_none
  exact hParse

namespace Parses

/-- A choice takes the first alternative that does not fail. -/
theorem choice (before after : List (Expr ρ)) {cur : Cursor} {last : Cursor × List (Pair ρ)}
    (hBefore : ∀ d ∈ before, Parses g atomic d cur none) (h : Parses g atomic e cur (some last)) :
    Parses g atomic (.choice (before ++ e :: after)) cur (some last) := by
  induction before with
  | nil =>
    cases after with
    | nil => exact h
    | cons f after => exact .alt_first h
  | cons d before ih =>
    have hRest := ih fun d' hd' => hBefore d' (List.mem_cons_of_mem d hd')
    have hFirst := hBefore d List.mem_cons_self
    cases before with
    | nil => exact .alt_second hFirst hRest
    | cons d' before => exact .alt_second hFirst hRest

/-- A choice of which all alternatives fail. -/
theorem choice_none (es : List (Expr ρ)) {cur : Cursor} (hes : es ≠ [])
    (h : ∀ d ∈ es, Parses g atomic d cur none) : Parses g atomic (.choice es) cur none := by
  induction es with
  | nil => exact absurd rfl hes
  | cons d es ih =>
    have hFirst := h d List.mem_cons_self
    cases es with
    | nil => exact hFirst
    | cons d' es =>
      exact .alt_second hFirst
        (ih (List.cons_ne_nil d' es) fun f hf => h f (List.mem_cons_of_mem d hf))

theorem text (s : List Char) : Parses g atomic (.terminal (.text s)) ⟨pos, s ++ t⟩
    (some (⟨pos + size s, t⟩, [])) := by
  refine .terminal ?_
  rw [Terminal.read, if_pos ( List.isPrefixOf_iff_prefix.mpr ( List.prefix_append s t)),
    List.drop_left]
  rfl

theorem text_none {s cs : List Char} (h : ¬s <+: cs) :
    Parses g atomic (.terminal (.text s)) ⟨pos, cs⟩ none :=
  .terminal (by rw [Terminal.read_text_none.mpr h]; rfl)

theorem anyChar (c : Char) : Parses g atomic .any ⟨pos, c :: t⟩
    (some (⟨pos + size [c], t⟩, [])) :=
  .terminal (by rw [size_singleton]; rfl)

theorem matched_of_unwatched {r : ρ} {cur : Cursor} (hWatched : g.watched r = false)
    (res : Result ρ) : g.matched r cur res = res := by
  rw [Grammar.matched, hWatched]
  cases res <;> rfl

/-- A rule that is not watched makes what its body makes. -/
theorem of_body {r : ρ} {cur : Cursor} (hWatched : g.watched r = false)
    (h : Parses g (atomic || g.atomic r) (g.body r) cur res) : Parses g atomic (.rule r) cur res :=
  .rule h (matched_of_unwatched hWatched res)

theorem of_atomic_body {r : ρ} {cur : Cursor} (hAtomic : g.atomic r = true)
    (hWatched : g.watched r = false) (h : Parses g true (g.body r) cur res) :
    Parses g atomic (.rule r) cur res :=
  of_body hWatched (by rwa [hAtomic, Bool.or_true])

/-- Within an atomic rule one part follows another at once. -/
theorem seq_atomic {cur mid last : Cursor} {ps qs : List (Pair ρ)}
    (hFirst : Parses g true e cur (some (mid, ps)))
    (hSecond : Parses g true f mid (some (last, qs))) :
    Parses g true (.seq e (.seq .skip f)) cur (some (last, ps ++ qs)) :=
  .seq hFirst (.seq .within hSecond rfl) rfl

/-- Within an atomic rule a repetition reads one piece after another, up to where none follows. -/
theorem many_atomic {pieces : List (List Char)}
    (hPiece : ∀ p ∈ pieces, ∀ pos t, Parses g true e ⟨pos, p ++ t⟩ (some (⟨pos + size p, t⟩, [])))
    (hEnd : ∀ pos, Parses g true e ⟨pos, t⟩ none) (pos : Nat) :
    Parses g true (.many e) ⟨pos, pieces.flatten ++ t⟩
      (some (⟨pos + size pieces.flatten, t⟩, [])) := by
  have hStar : ∀ pieces : List (List Char), (∀ p ∈ pieces, ∀ pos t,
      Parses g true e ⟨pos, p ++ t⟩ (some (⟨pos + size p, t⟩, []))) → ∀ pos,
      Parses g true (.star (.seq .skip e)) ⟨pos, pieces.flatten ++ t⟩
        (some (⟨pos + size pieces.flatten, t⟩, [])) := by
    intro pieces hPiece
    induction pieces with
    | nil => exact fun pos => .done (.seq .within (hEnd pos) rfl)
    | cons p pieces ih =>
      intro pos
      have hFirst := hPiece p List.mem_cons_self pos (pieces.flatten ++ t)
      have hRest := ih (fun q hq => hPiece q (List.mem_cons_of_mem p hq)) (pos + size p)
      rw [List.flatten_cons, List.append_assoc, size_append, ← Nat.add_assoc]
      exact .more (.seq .within hFirst rfl) hRest rfl
  cases pieces with
  | nil => exact .opt_none (.seq_fail (hEnd pos))
  | cons p pieces =>
    have hFirst := hPiece p List.mem_cons_self pos (pieces.flatten ++ t)
    have hRest := hStar pieces (fun q hq => hPiece q (List.mem_cons_of_mem p hq)) (pos + size p)
    rw [List.flatten_cons, List.append_assoc, size_append, ← Nat.add_assoc]
    exact .opt_some (.seq hFirst hRest rfl)

/-- At the end of the input there is nothing to skip. -/
theorem skip_end (hBlank : ∀ pos, Parses g false (.rule g.blank) ⟨pos, []⟩ none)
    (hComment : ∀ pos, Parses g false (.rule g.comment) ⟨pos, []⟩ none) (pos : Nat) :
    Parses g atomic .skip ⟨pos, []⟩ (some (⟨pos, []⟩, [])) := by
  cases atomic with
  | true => exact .within
  | false => exact .trivia (.seq (.done (hBlank pos)) (.done (.seq_fail (hComment pos))) rfl)

end Parses

end

end Trans.Peg
