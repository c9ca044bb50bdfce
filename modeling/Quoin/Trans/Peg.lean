import Mathlib
import Quoin.Trans.Bytes

/-!
# Trans — parsing expression grammars

Grammars of a parser generator that skips blanks and comments by itself. A
choice is ordered, a repetition takes all it can, and what fails is put back.
Between the parts of a sequence stands `skip`: it reads blanks and comments,
but nothing within an atomic rule, nor within a rule that an atomic rule calls.
The rules that a grammar watches leave a `Pair` where they match, in the order
of the input; what is put back leaves none.

`Parses` says what an expression makes of a cursor. `run` is the recursive
descent, with a bound on its depth. It computes what `Parses` says
(`parses_iff`), so there is one result at most (`Parses.unique`).
-/

namespace Trans.Peg

/-- A place in the input: how many bytes come before it, and the rest. -/
@[ext] structure Cursor where
  pos : Nat
  rest : List Char
  deriving DecidableEq

/-- Reading `s` leads from one place to the other. -/
structure Cursor.Moves (cur : Cursor) (s : List Char) (last : Cursor) : Prop where
  rest : cur.rest = s ++ last.rest
  pos : last.pos = cur.pos + size s

inductive Terminal where
  | text (s : List Char)
  | range (lo hi : Char)
  | any
  | start
  | finish
  deriving DecidableEq

variable {ρ : Type}

inductive Expr (ρ : Type) where
  | terminal (t : Terminal)
  | rule (r : ρ)
  | skip
  | seq (e f : Expr ρ)
  | alt (e f : Expr ρ)
  | star (e : Expr ρ)
  | opt (e : Expr ρ)
  | not (e : Expr ρ)

namespace Expr

/-- The parts of a sequence, with what is skipped between them. -/
def cat : List (Expr ρ) → Expr ρ
  | [] => .terminal (.text [])
  | [e] => e
  | e :: es => .seq e (.seq .skip (cat es))

def choice : List (Expr ρ) → Expr ρ
  | [] => .not (.terminal (.text []))
  | [e] => e
  | e :: es => .alt e (choice es)

/-- `e*`, with what is skipped between the repetitions. -/
def many (e : Expr ρ) : Expr ρ := .opt (.seq e (.star (.seq .skip e)))

/-- `e+`. -/
def many1 (e : Expr ρ) : Expr ρ := cat [e, many e]

def lit (s : String) : Expr ρ := .terminal (.text s.toList)

def range (lo hi : Char) : Expr ρ := .terminal (.range lo hi)

def any : Expr ρ := .terminal .any

end Expr

/-- A match of a watched rule, with its bytes from `start` to before `stop`. -/
structure Pair (ρ : Type) where
  rule : ρ
  start : Nat
  stop : Nat
  text : List Char
  deriving DecidableEq

structure Grammar (ρ : Type) where
  body : ρ → Expr ρ
  atomic : ρ → Bool
  watched : ρ → Bool
  blank : ρ
  comment : ρ

/-- What an expression makes of a cursor: a failure, or the place it reads up to and the pairs on
the way. -/
abbrev Result (ρ : Type) := Option (Cursor × List (Pair ρ))

/-- The result after the pairs `ps`. -/
def Result.after (ps : List (Pair ρ)) (res : Result ρ) : Result ρ :=
  res.map fun (last, qs) => (last, ps ++ qs)

def Terminal.read (cur : Cursor) : Terminal → Option Cursor
  | .text s =>
    if s.isPrefixOf cur.rest then some ⟨cur.pos + size s, cur.rest.drop s.length⟩ else none
  | .range lo hi =>
    match cur.rest with
    | c :: rest => if lo ≤ c ∧ c ≤ hi then some ⟨cur.pos + c.utf8Size, rest⟩ else none
    | [] => none
  | .any =>
    match cur.rest with
    | c :: rest => some ⟨cur.pos + c.utf8Size, rest⟩
    | [] => none
  | .start => if cur.pos = 0 then some cur else none
  | .finish => if cur.rest = [] then some cur else none

namespace Grammar

variable (g : Grammar ρ)

/-- What `skip` reads. -/
def trivia : Expr ρ :=
  .seq (.star (.rule g.blank)) (.star (.seq (.rule g.comment) (.star (.rule g.blank))))

/-- The result of the rule `r` at `cur`, from the result of its body. -/
def matched (r : ρ) (cur : Cursor) (res : Result ρ) : Result ρ :=
  res.map fun (last, ps) =>
    (last, if g.watched r then
      ps ++ [⟨r, cur.pos, last.pos, cur.rest.take (cur.rest.length - last.rest.length)⟩]
    else ps)

end Grammar

/-- The descent, `none` where it would go deeper than it may. -/
def run (g : Grammar ρ) : Nat → Bool → Expr ρ → Cursor → Option (Result ρ)
  | 0, _, _, _ => none
  | _ + 1, _, .terminal t, cur => some ((t.read cur).map fun last => (last, []))
  | depth + 1, atomic, .rule r, cur =>
    (run g depth (atomic || g.atomic r) (g.body r) cur).map (g.matched r cur)
  | depth + 1, atomic, .skip, cur =>
    if atomic then some (some (cur, [])) else run g depth false g.trivia cur
  | depth + 1, atomic, .seq e f, cur =>
    match run g depth atomic e cur with
    | some (some (mid, ps)) => (run g depth atomic f mid).map (Result.after ps)
    | res => res
  | depth + 1, atomic, .alt e f, cur =>
    match run g depth atomic e cur with
    | some none => run g depth atomic f cur
    | res => res
  | depth + 1, atomic, .star e, cur =>
    match run g depth atomic e cur with
    | some (some (mid, ps)) => (run g depth atomic (.star e) mid).map (Result.after ps)
    | some none => some (some (cur, []))
    | none => none
  | depth + 1, atomic, .opt e, cur =>
    match run g depth atomic e cur with
    | some none => some (some (cur, []))
    | res => res
  | depth + 1, atomic, .not e, cur =>
    match run g depth atomic e cur with
    | some none => some (some (cur, []))
    | some (some _) => some none
    | none => none

/-- `Parses g atomic e cur res`: within an atomic rule or not, `e` makes `res` of `cur`. -/
inductive Parses (g : Grammar ρ) : Bool → Expr ρ → Cursor → Result ρ → Prop
  | terminal {atomic t cur res} (h : (t.read cur).map (fun last => (last, [])) = res) :
    Parses g atomic (.terminal t) cur res
  | rule {atomic r cur inner res} (hBody : Parses g (atomic || g.atomic r) (g.body r) cur inner)
    (h : g.matched r cur inner = res) : Parses g atomic (.rule r) cur res
  | within {cur} : Parses g true .skip cur (some (cur, []))
  | trivia {cur res} (h : Parses g false g.trivia cur res) : Parses g false .skip cur res
  | seq {atomic e f cur mid ps inner res} (hFirst : Parses g atomic e cur (some (mid, ps)))
    (hSecond : Parses g atomic f mid inner) (h : Result.after ps inner = res) :
    Parses g atomic (.seq e f) cur res
  | seq_fail {atomic e f cur} (hFirst : Parses g atomic e cur none) :
    Parses g atomic (.seq e f) cur none
  | alt_first {atomic e f cur out} (hFirst : Parses g atomic e cur (some out)) :
    Parses g atomic (.alt e f) cur (some out)
  | alt_second {atomic e f cur res} (hFirst : Parses g atomic e cur none)
    (hSecond : Parses g atomic f cur res) : Parses g atomic (.alt e f) cur res
  | more {atomic e cur mid ps inner res} (hFirst : Parses g atomic e cur (some (mid, ps)))
    (hMore : Parses g atomic (.star e) mid inner) (h : Result.after ps inner = res) :
    Parses g atomic (.star e) cur res
  | done {atomic e cur} (hFirst : Parses g atomic e cur none) :
    Parses g atomic (.star e) cur (some (cur, []))
  | opt_some {atomic e cur out} (hInner : Parses g atomic e cur (some out)) :
    Parses g atomic (.opt e) cur (some out)
  | opt_none {atomic e cur} (hInner : Parses g atomic e cur none) :
    Parses g atomic (.opt e) cur (some (cur, []))
  | not_some {atomic e cur out} (hInner : Parses g atomic e cur (some out)) :
    Parses g atomic (.not e) cur none
  | not_none {atomic e cur} (hInner : Parses g atomic e cur none) :
    Parses g atomic (.not e) cur (some (cur, []))

/-! ## The descent computes what the grammar says -/

variable {g : Grammar ρ} {atomic : Bool} {e f : Expr ρ} {cur mid last : Cursor} {res : Result ρ}
  {ps : List (Pair ρ)}

theorem parses_of_run {depth : Nat} (h : run g depth atomic e cur = some res) :
    Parses g atomic e cur res := by
  -- on the depth of the run; one rule for each case
  induction depth generalizing atomic e cur res with
  | zero => simp [run] at h
  | succ depth ih =>
    cases e with
    | terminal t => exact .terminal (Option.some.inj h)
    | rule r =>
      obtain ⟨inner, hInner, hRes⟩ := Option.map_eq_some_iff.mp h
      exact .rule (ih hInner) hRes
    | skip =>
      cases atomic with
      | true =>
        cases Option.some.inj h
        exact .within
      | false => exact .trivia (ih h)
    | seq e f =>
      simp only [run] at h
      rcases hFirst : run g depth atomic e cur with _ | _ | ⟨mid, ps⟩ <;> rw [hFirst] at h
      · simp at h
      · cases Option.some.inj h
        exact .seq_fail (ih hFirst)
      · obtain ⟨inner, hInner, hRes⟩ := Option.map_eq_some_iff.mp h
        exact .seq (ih hFirst) (ih hInner) hRes
    | alt e f =>
      simp only [run] at h
      rcases hFirst : run g depth atomic e cur with _ | _ | out <;> rw [hFirst] at h
      · simp at h
      · exact .alt_second (ih hFirst) (ih h)
      · cases Option.some.inj h
        exact .alt_first (ih hFirst)
    | star e =>
      simp only [run] at h
      rcases hFirst : run g depth atomic e cur with _ | _ | ⟨mid, ps⟩ <;> rw [hFirst] at h
      · simp at h
      · cases Option.some.inj h
        exact .done (ih hFirst)
      · obtain ⟨inner, hInner, hRes⟩ := Option.map_eq_some_iff.mp h
        exact .more (ih hFirst) (ih hInner) hRes
    | opt e =>
      simp only [run] at h
      rcases hInner : run g depth atomic e cur with _ | _ | out <;> rw [hInner] at h
      · simp at h
      · cases Option.some.inj h
        exact .opt_none (ih hInner)
      · cases Option.some.inj h
        exact .opt_some (ih hInner)
    | not e =>
      simp only [run] at h
      rcases hInner : run g depth atomic e cur with _ | _ | out <;> rw [hInner] at h
      · simp at h
      · cases Option.some.inj h
        exact .not_none (ih hInner)
      · cases Option.some.inj h
        exact .not_some (ih hInner)

/-- A descent that ended ends alike where it may go deeper. -/
theorem run_mono {depth deeper : Nat} (h : run g depth atomic e cur = some res)
    (hle : depth ≤ deeper) : run g deeper atomic e cur = some res := by
  -- on the depth; each case runs its parts one level lower
  induction depth generalizing deeper atomic e cur res with
  | zero => simp [run] at h
  | succ depth ih =>
    obtain ⟨deeper, rfl⟩ : ∃ n, deeper = n + 1 := ⟨deeper - 1, by omega⟩
    have hle' : depth ≤ deeper := by omega
    cases e with
    | terminal t => exact h
    | rule r =>
      obtain ⟨inner, hInner, hRes⟩ := Option.map_eq_some_iff.mp h
      simp only [run, ih hInner hle', Option.map_some, hRes]
    | skip =>
      cases atomic with
      | true => exact h
      | false =>
        have hTrivia : run g depth false g.trivia cur = some res := h
        have hDeeper := ih hTrivia hle'
        exact hDeeper
    | seq e f =>
      simp only [run] at h ⊢
      rcases hFirst : run g depth atomic e cur with _ | _ | ⟨mid, ps⟩ <;> rw [hFirst] at h
      · simp at h
      · rw [ih hFirst hle']
        exact h
      · obtain ⟨inner, hInner, hRes⟩ := Option.map_eq_some_iff.mp h
        simp only [ih hFirst hle', ih hInner hle', Option.map_some, hRes]
    | alt e f =>
      simp only [run] at h ⊢
      rcases hFirst : run g depth atomic e cur with _ | _ | out <;> rw [hFirst] at h
      · simp at h
      · rw [ih hFirst hle']
        exact ih h hle'
      · rw [ih hFirst hle']
        exact h
    | star e =>
      simp only [run] at h ⊢
      rcases hFirst : run g depth atomic e cur with _ | _ | ⟨mid, ps⟩ <;> rw [hFirst] at h
      · simp at h
      · rw [ih hFirst hle']
        exact h
      · obtain ⟨inner, hInner, hRes⟩ := Option.map_eq_some_iff.mp h
        simp only [ih hFirst hle', ih hInner hle', Option.map_some, hRes]
    | opt e =>
      simp only [run] at h ⊢
      rcases hInner : run g depth atomic e cur with _ | _ | out <;> rw [hInner] at h
      · simp at h
      all_goals
        rw [ih hInner hle']
        exact h
    | not e =>
      simp only [run] at h ⊢
      rcases hInner : run g depth atomic e cur with _ | _ | out <;> rw [hInner] at h
      · simp at h
      all_goals
        rw [ih hInner hle']
        exact h

theorem exists_run (h : Parses g atomic e cur res) :
    ∃ depth, run g depth atomic e cur = some res := by
  induction h with
  | terminal h => exact ⟨1, congrArg some h⟩
  | rule _ h ih =>
    obtain ⟨depth, hRun⟩ := ih
    exact ⟨depth + 1, by simp only [run, hRun, Option.map_some, h]⟩
  | within => exact ⟨1, rfl⟩
  | trivia _ ih =>
    obtain ⟨depth, hRun⟩ := ih
    exact ⟨depth + 1, hRun⟩
  | seq _ _ h ihFirst ihSecond =>
    obtain ⟨n, hFirst⟩ := ihFirst
    obtain ⟨m, hSecond⟩ := ihSecond
    refine ⟨max n m + 1, ?_⟩
    simp only [run, run_mono hFirst (Nat.le_max_left n m), run_mono hSecond (Nat.le_max_right n m),
      Option.map_some, h]
  | seq_fail _ ih =>
    obtain ⟨depth, hRun⟩ := ih
    exact ⟨depth + 1, by simp only [run, hRun]⟩
  | alt_first _ ih =>
    obtain ⟨depth, hRun⟩ := ih
    exact ⟨depth + 1, by simp only [run, hRun]⟩
  | alt_second _ _ ihFirst ihSecond =>
    obtain ⟨n, hFirst⟩ := ihFirst
    obtain ⟨m, hSecond⟩ := ihSecond
    refine ⟨max n m + 1, ?_⟩
    simp only [run, run_mono hFirst (Nat.le_max_left n m), run_mono hSecond (Nat.le_max_right n m)]
  | more _ _ h ihFirst ihMore =>
    obtain ⟨n, hFirst⟩ := ihFirst
    obtain ⟨m, hMore⟩ := ihMore
    refine ⟨max n m + 1, ?_⟩
    simp only [run, run_mono hFirst (Nat.le_max_left n m), run_mono hMore (Nat.le_max_right n m),
      Option.map_some, h]
  | done _ ih | opt_some _ ih | opt_none _ ih | not_some _ ih | not_none _ ih =>
    obtain ⟨depth, hRun⟩ := ih
    exact ⟨depth + 1, by simp only [run, hRun]⟩

theorem parses_iff : Parses g atomic e cur res ↔ ∃ depth, run g depth atomic e cur = some res :=
  ⟨exists_run, fun ⟨_, h⟩ => parses_of_run h⟩

theorem Parses.unique {res' : Result ρ} (h : Parses g atomic e cur res)
    (h' : Parses g atomic e cur res') : res = res' := by
  obtain ⟨n, hRun⟩ := exists_run h
  obtain ⟨m, hRun'⟩ := exists_run h'
  have hMax := run_mono hRun (Nat.le_max_left n m)
  rw [run_mono hRun' (Nat.le_max_right n m)] at hMax
  exact (Option.some.inj hMax).symm

/-! ## What a match says of the input -/

namespace Cursor

@[simp] theorem Moves.refl (cur : Cursor) : cur.Moves [] cur := ⟨rfl, rfl⟩

theorem Moves.trans {s t : List Char} (h : cur.Moves s mid) (h' : mid.Moves t last) :
    cur.Moves (s ++ t) last := by
  constructor
  · rw [h.rest, h'.rest, List.append_assoc]
  · rw [h'.pos, h.pos, size_append, Nat.add_assoc]

theorem moves_nil : cur.Moves [] last ↔ last = cur := by
  constructor
  · rintro ⟨hRest, hPos⟩
    exact Cursor.ext hPos hRest.symm
  · rintro rfl
    exact Moves.refl last

theorem moves_cons {c : Char} {s : List Char} : cur.Moves (c :: s) last ↔
    ∃ mid, cur.Moves [c] mid ∧ mid.Moves s last := by
  constructor
  · rintro ⟨hRest, hPos⟩
    refine ⟨⟨cur.pos + c.utf8Size, s ++ last.rest⟩, ⟨hRest, rfl⟩, rfl, ?_⟩
    rw [hPos, size_cons, Nat.add_assoc]
  · rintro ⟨mid, hHead, hTail⟩
    exact hHead.trans hTail

end Cursor

namespace Terminal

theorem read_text {s : List Char} : (text s).read cur = some last ↔ cur.Moves s last := by
  rw [read]
  constructor
  · intro h
    split at h
    · rename_i hPrefix
      cases h
      obtain ⟨rest, hRest⟩ := List.isPrefixOf_iff_prefix.mp hPrefix
      exact ⟨by rw [← hRest, List.drop_left], rfl⟩
    · cases h
  · rintro ⟨hRest, hPos⟩
    have hPrefix : s.isPrefixOf cur.rest = true :=
      List.isPrefixOf_iff_prefix.mpr ⟨last.rest, hRest.symm⟩
    rw [if_pos hPrefix, hRest, List.drop_left, ← hPos]

theorem read_text_none {s : List Char} : (text s).read cur = none ↔ ¬s <+: cur.rest := by
  rw [read, ← List.isPrefixOf_iff_prefix]
  split <;> simp_all

theorem read_any : any.read cur = some last ↔ ∃ c, cur.Moves [c] last := by
  constructor
  · intro h
    obtain ⟨pos, rest⟩ := cur
    cases rest with
    | nil => cases h
    | cons c rest =>
      cases h
      exact ⟨c, rfl, rfl⟩
  · rintro ⟨c, hRest, hPos⟩
    rw [read, hRest]
    exact congrArg some (Cursor.ext hPos.symm rfl)

theorem read_any_none : any.read cur = none ↔ cur.rest = [] := by
  rw [read]
  split <;> simp_all

theorem read_range {lo hi : Char} :
    (range lo hi).read cur = some last ↔ ∃ c, lo ≤ c ∧ c ≤ hi ∧ cur.Moves [c] last := by
  constructor
  · intro h
    obtain ⟨pos, rest⟩ := cur
    cases rest with
    | nil => cases h
    | cons c rest =>
      obtain ⟨hIn, hLast⟩ := Option.ite_none_right_eq_some.mp h
      cases hLast
      exact ⟨c, hIn.1, hIn.2, rfl, rfl⟩
  · rintro ⟨c, hLo, hHi, hRest, hPos⟩
    rw [read, hRest]
    exact (if_pos ⟨hLo, hHi⟩).trans (congrArg some (Cursor.ext hPos.symm rfl))

/-- A test of the place reads nothing. -/
theorem read_place {t : Terminal} (ht : t = .start ∨ t = .finish) (h : t.read cur = some last) :
    last = cur := by
  obtain rfl | rfl := ht <;> exact (Option.some.inj (Option.ite_none_right_eq_some.mp h).2).symm

theorem read_finish (h : finish.read cur = some last) : last = cur ∧ cur.rest = [] := by
  obtain ⟨hRest, hLast⟩ := Option.ite_none_right_eq_some.mp h
  exact ⟨(Option.some.inj hLast).symm, hRest⟩

end Terminal

/-- `e` leads from one place to the next. -/
def Reads (g : Grammar ρ) (e : Expr ρ) (cur last : Cursor) : Prop :=
  ∃ ps, Parses g true e cur (some (last, ps))

namespace Parses

theorem of_terminal {t : Terminal} (h : Parses g atomic (.terminal t) cur (some (last, ps))) :
    t.read cur = some last ∧ ps = [] := by
  cases h with
  | terminal h =>
    obtain ⟨last', hRead, hOut⟩ := Option.map_eq_some_iff.mp h
    cases hOut
    exact ⟨hRead, rfl⟩

theorem of_terminal_none {t : Terminal} (h : Parses g atomic (.terminal t) cur none) :
    t.read cur = none := by
  cases h with
  | terminal h => exact Option.map_eq_none_iff.mp h

theorem of_not (h : Parses g atomic (.not e) cur (some (last, ps))) :
    last = cur ∧ ps = [] ∧ Parses g atomic e cur none := by
  cases h with
  | not_none hInner => exact ⟨rfl, rfl, hInner⟩

theorem of_not_none (h : Parses g atomic (.not e) cur none) :
    ∃ out, Parses g atomic e cur (some out) := by
  cases h with
  | not_some hInner => exact ⟨_, hInner⟩

theorem of_alt (h : Parses g atomic (.alt e f) cur res) :
    (∃ out, res = some out ∧ Parses g atomic e cur (some out)) ∨
      (Parses g atomic e cur none ∧ Parses g atomic f cur res) := by
  cases h with
  | alt_first hFirst => exact .inl ⟨_, rfl, hFirst⟩
  | alt_second hFirst hSecond => exact .inr ⟨hFirst, hSecond⟩

theorem of_choice {es : List (Expr ρ)} {out : Cursor × List (Pair ρ)}
    (h : Parses g atomic (.choice es) cur (some out)) :
    ∃ e ∈ es, Parses g atomic e cur (some out) := by
  induction es with
  | nil =>
    obtain ⟨-, -, hNone⟩ := of_not h
    exact absurd List.nil_prefix (Terminal.read_text_none.mp (of_terminal_none hNone))
  | cons e es ih =>
    cases es with
    | nil => exact ⟨e, List.mem_singleton_self e, h⟩
    | cons f es =>
      obtain ⟨out', hOut, hFirst⟩ | ⟨-, hSecond⟩ := of_alt h
      · cases hOut
        exact ⟨e, List.mem_cons_self, hFirst⟩
      · obtain ⟨d, hd, hParse⟩ := ih hSecond
        exact ⟨d, List.mem_cons_of_mem e hd, hParse⟩

/-- Where a choice fails all of its parts fail. -/
theorem of_choice_none {es : List (Expr ρ)} (h : Parses g atomic (.choice es) cur none) {e : Expr ρ}
    (he : e ∈ es) : Parses g atomic e cur none := by
  induction es with
  | nil => cases he
  | cons f es ih =>
    cases es with
    | nil =>
      cases List.mem_singleton.mp he
      exact h
    | cons f' es =>
      obtain ⟨out, hOut, -⟩ | ⟨hFirst, hSecond⟩ := of_alt h
      · cases hOut
      · obtain rfl | he := List.mem_cons.mp he
        · exact hFirst
        · exact ih hSecond he

theorem of_rule {r : ρ} (h : Parses g atomic (.rule r) cur (some (last, ps))) :
    ∃ qs, Parses g (atomic || g.atomic r) (g.body r) cur (some (last, qs)) ∧
      g.matched r cur (some (last, qs)) = some (last, ps) := by
  cases h with
  | rule hBody h =>
    obtain ⟨⟨last', qs⟩, rfl, hOut⟩ := Option.map_eq_some_iff.mp h
    cases hOut
    exact ⟨qs, hBody, rfl⟩

theorem of_opt (h : Parses g atomic (.opt e) cur (some (last, ps))) :
    Parses g atomic e cur (some (last, ps)) ∨
      (Parses g atomic e cur none ∧ last = cur ∧ ps = []) := by
  cases h with
  | opt_some hInner => exact .inl hInner
  | opt_none hInner => exact .inr ⟨hInner, rfl, rfl⟩

theorem of_seq (h : Parses g atomic (.seq e f) cur (some (last, ps))) :
    ∃ mid qs rs, Parses g atomic e cur (some (mid, qs)) ∧
      Parses g atomic f mid (some (last, rs)) ∧ ps = qs ++ rs := by
  cases h with
  | seq hFirst hSecond h =>
    obtain ⟨⟨last', rs⟩, rfl, hOut⟩ := Option.map_eq_some_iff.mp h
    cases hOut
    exact ⟨_, _, rs, hFirst, hSecond, rfl⟩

theorem of_seq_none (h : Parses g atomic (.seq e f) cur none) :
    Parses g atomic e cur none ∨
      ∃ mid qs, Parses g atomic e cur (some (mid, qs)) ∧ Parses g atomic f mid none := by
  cases h with
  | seq hFirst hSecond h =>
    cases Option.map_eq_none_iff.mp h
    exact .inr ⟨_, _, hFirst, hSecond⟩
  | seq_fail hFirst => exact .inl hFirst

/-- Induction over the ways to match. -/
theorem match_induction {C : Bool → Expr ρ → Cursor → Cursor → List (Pair ρ) → Prop}
    (terminal : ∀ atomic t cur last, t.read cur = some last → C atomic (.terminal t) cur last [])
    (rule : ∀ atomic r cur last qs ps,
      Parses g (atomic || g.atomic r) (g.body r) cur (some (last, qs)) →
      C (atomic || g.atomic r) (g.body r) cur last qs →
      g.matched r cur (some (last, qs)) = some (last, ps) → C atomic (.rule r) cur last ps)
    (within : ∀ cur, C true .skip cur cur [])
    (trivia : ∀ cur last ps, C false g.trivia cur last ps → C false .skip cur last ps)
    (seq : ∀ atomic e f cur mid last qs rs, Parses g atomic e cur (some (mid, qs)) →
      Parses g atomic f mid (some (last, rs)) → C atomic e cur mid qs → C atomic f mid last rs →
      C atomic (.seq e f) cur last (qs ++ rs))
    (alt_first : ∀ atomic e f cur last ps, C atomic e cur last ps →
      C atomic (.alt e f) cur last ps)
    (alt_second : ∀ atomic e f cur last ps, C atomic f cur last ps →
      C atomic (.alt e f) cur last ps)
    (more : ∀ atomic e cur mid last qs rs, C atomic e cur mid qs → C atomic (.star e) mid last rs →
      C atomic (.star e) cur last (qs ++ rs))
    (done : ∀ atomic e cur, C atomic (.star e) cur cur [])
    (opt_some : ∀ atomic e cur last ps, C atomic e cur last ps → C atomic (.opt e) cur last ps)
    (opt_none : ∀ atomic e cur, C atomic (.opt e) cur cur [])
    (not_none : ∀ atomic e cur, C atomic (.not e) cur cur [])
    (h : Parses g atomic e cur (some (last, ps))) : C atomic e cur last ps := by
  -- on the derivation, whose outcome is fixed to be a match
  generalize hOut : some (last, ps) = out at h
  induction h generalizing last ps with
  | @terminal atomic t cur res h =>
    subst hOut
    obtain ⟨last', hRead, hEq⟩ := Option.map_eq_some_iff.mp h
    cases hEq
    exact terminal atomic t cur last hRead
  | @rule atomic r cur inner res hBody h ih =>
    subst hOut
    obtain ⟨⟨last', qs⟩, rfl, hEq⟩ := Option.map_eq_some_iff.mp h
    cases hEq
    exact rule atomic r cur last qs _ hBody (ih rfl) rfl
  | @within cur =>
    cases hOut
    exact within cur
  | @trivia cur res h ih => exact trivia cur last ps (ih hOut)
  | @seq atomic e f cur mid ps' inner res hFirst hSecond h ihFirst ihSecond =>
    subst hOut
    obtain ⟨⟨last', rs⟩, rfl, hEq⟩ := Option.map_eq_some_iff.mp h
    cases hEq
    exact seq atomic e f cur mid last ps' rs hFirst hSecond (ihFirst rfl) (ihSecond rfl)
  | @alt_first atomic e f cur out hFirst ih =>
    exact alt_first atomic e f cur last ps (ih hOut)
  | @alt_second atomic e f cur res hFirst hSecond _ ih =>
    exact alt_second atomic e f cur last ps (ih hOut)
  | @more atomic e cur mid ps' inner res hFirst hMore h ihFirst ihMore =>
    subst hOut
    obtain ⟨⟨last', rs⟩, rfl, hEq⟩ := Option.map_eq_some_iff.mp h
    cases hEq
    exact more atomic e cur mid last ps' rs (ihFirst rfl) (ihMore rfl)
  | @done atomic e cur =>
    cases hOut
    exact done atomic e cur
  | @opt_some atomic e cur out hInner ih =>
    exact opt_some atomic e cur last ps (ih hOut)
  | @opt_none atomic e cur =>
    cases hOut
    exact opt_none atomic e cur
  | @not_none atomic e cur =>
    cases hOut
    exact not_none atomic e cur
  | seq_fail | not_some => cases hOut

/-- Within an atomic rule nothing is skipped. -/
theorem of_skip (h : Parses g true .skip cur res) : res = some (cur, []) := by
  cases h with
  | within => rfl

theorem of_seq_skip (h : Parses g true (.seq e (.seq .skip f)) cur (some (last, ps))) :
    ∃ mid qs rs, Parses g true e cur (some (mid, qs)) ∧
      Parses g true f mid (some (last, rs)) ∧ ps = qs ++ rs := by
  obtain ⟨mid, qs, rs, hFirst, hRest, rfl⟩ := of_seq h
  obtain ⟨mid', qs', rs', hSkip, hSecond, rfl⟩ := of_seq hRest
  cases of_skip hSkip
  exact ⟨_, _, _, hFirst, hSecond, rfl⟩

theorem of_seq_skip_none (h : Parses g true (.seq e (.seq .skip f)) cur none) :
    Parses g true e cur none ∨
      ∃ mid qs, Parses g true e cur (some (mid, qs)) ∧ Parses g true f mid none := by
  obtain hFirst | ⟨mid, qs, hFirst, hRest⟩ := of_seq_none h
  · exact .inl hFirst
  · obtain hSkip | ⟨mid', qs', hSkip, hSecond⟩ := of_seq_none hRest
    · cases of_skip hSkip
    · cases of_skip hSkip
      exact .inr ⟨_, _, hFirst, hSecond⟩

theorem not_star_none : ¬Parses g atomic (.star e) cur none := by
  intro h
  generalize hStar : Expr.star e = es at h
  generalize hOut : none = out at h
  induction h with
  | more _ _ h _ ih =>
    subst hOut
    exact ih hStar (Option.map_eq_none_iff.mp h).symm
  | done => cases hOut
  | _ => cases hStar

theorem of_star (h : Parses g true (.star (.seq .skip e)) cur (some (last, ps))) :
    Relation.ReflTransGen (Reads g e) cur last ∧ Parses g true e last none := by
  generalize hStar : Expr.star (.seq .skip e) = es at h
  generalize hTrue : true = atomic at h
  generalize hOut : some (last, ps) = out at h
  induction h generalizing last ps with
  | more hFirst hMore h _ ih =>
    cases hStar
    subst hTrue
    subst hOut
    obtain ⟨⟨last', rs⟩, rfl, hEq⟩ := Option.map_eq_some_iff.mp h
    cases hEq
    obtain ⟨mid, qs, rs', hSkip, hInner, rfl⟩ := of_seq hFirst
    cases of_skip hSkip
    obtain ⟨hChain, hEnd⟩ := ih rfl rfl rfl
    exact ⟨.head ⟨_, hInner⟩ hChain, hEnd⟩
  | done hFirst =>
    cases hStar
    subst hTrue
    cases hOut
    refine ⟨.refl, ?_⟩
    obtain hSkip | ⟨mid, qs, hSkip, hInner⟩ := of_seq_none hFirst
    · cases of_skip hSkip
    · cases of_skip hSkip
      exact hInner
  | _ => cases hStar

/-- A repetition within an atomic rule reads `e` over and over, up to where `e` fails. -/
theorem of_many (h : Parses g true (.many e) cur (some (last, ps))) :
    Relation.ReflTransGen (Reads g e) cur last ∧ Parses g true e last none := by
  obtain hSeq | ⟨hNone, rfl, -⟩ := of_opt h
  · obtain ⟨mid, qs, rs, hFirst, hStar, rfl⟩ := of_seq hSeq
    obtain ⟨hChain, hEnd⟩ := of_star hStar
    exact ⟨.head ⟨_, hFirst⟩ hChain, hEnd⟩
  · obtain hFirst | ⟨mid, qs, hFirst, hStar⟩ := of_seq_none hNone
    · exact ⟨.refl, hFirst⟩
    · exact absurd hStar not_star_none

end Parses

end Trans.Peg
