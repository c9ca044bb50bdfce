import Mathlib
import Quoin.Text.Grammar

/-!
# Quoin — the lexemes of a program

What a scanner of the raw source needs of the grammar. A source that the
grammar accepts is a row of lexemes (`Accepts.lexes`): single characters that
are no quotes, whole strings, whole regexes, comments and the shebang line. The
comments and the shebang line are those that the parse matches, in order.

The rules that read quotes are looked at one by one. For all others a check of
their bodies is enough: they read no quote, and read a `#` only where something
other than a `/` has to follow (`safe`).
-/

namespace Quoin.Text

open Trans Trans.Peg

/-- The text is at its end, or at the end of a line. -/
def EndsLine (rest : List Char) : Prop := ∀ c ∈ rest.head?, c = '\n'

/-- A lexeme of code, and what follows it. No escape goes over the end of a line. -/
inductive Code : List Char → List Char → Prop
  | char {c rest} (hSingle : c ≠ '\'') (hDouble : c ≠ '"')
    (hHash : c = '#' → rest.head? ≠ some '/') : Code [c] rest
  | string {body rest} (hBody : Quoted '\'' body) (hLines : '\n' ∉ escaped body) :
    Code ('\'' :: (body ++ ['\''])) rest
  | regex {body rest} (hBody : Quoted '/' body) (hLines : '\n' ∉ escaped body) :
    Code ('#' :: '/' :: (body ++ ['/'])) rest

/-- A comment, and what follows it. A block comment ends with the first quote that no backslash
stands right before. -/
inductive CommentText : List Char → List Char → Prop
  | line {body rest} (hBody : '\n' ∉ body) (hEnd : EndsLine rest) :
    CommentText ('"' :: '*' :: body) rest
  | empty {rest} : CommentText ['"', '"'] rest
  | block {c body rest} (hStar : c ≠ '*') (hQuote : c ≠ '"')
    (hLast : (c :: body).getLast? ≠ some '\\') : CommentText ('"' :: c :: (body ++ ['"'])) rest

inductive ShebangText : List Char → List Char → Prop
  | line {body rest} (hBody : '\n' ∉ body) (hEnd : EndsLine rest) :
    ShebangText ('#' :: '!' :: body) rest

/-- From one place to the other there are lexemes, the pairs among them. -/
inductive Lexes : Cursor → List (Pair Rule) → Cursor → Prop
  | done (cur) : Lexes cur [] cur
  | code {cur s mid ps last} (hCode : Code s mid.rest) (hMove : cur.Moves s mid)
    (hRest : Lexes mid ps last) : Lexes cur ps last
  | comment {cur s mid ps last} (hText : CommentText s mid.rest) (hMove : cur.Moves s mid)
    (hRest : Lexes mid ps last) : Lexes cur (⟨.COMMENT, cur.pos, mid.pos, s⟩ :: ps) last
  | shebang {cur s mid ps last} (hText : ShebangText s mid.rest) (hMove : cur.Moves s mid)
    (hRest : Lexes mid ps last) : Lexes cur (⟨.shebang, cur.pos, mid.pos, s⟩ :: ps) last

/-- The comments among the pairs of a parse. -/
def comments (pairs : List (Pair Rule)) : List (Pair Rule) := pairs.filter (·.rule = .COMMENT)

@[simp] theorem comments_comment (start stop : Nat) (text : List Char) (pairs : List (Pair Rule)) :
    comments (⟨.COMMENT, start, stop, text⟩ :: pairs)
      = ⟨.COMMENT, start, stop, text⟩ :: comments pairs := rfl

@[simp] theorem comments_shebang (start stop : Nat) (text : List Char) (pairs : List (Pair Rule)) :
    comments (⟨.shebang, start, stop, text⟩ :: pairs) = comments pairs := rfl

/-- The text between the delimiters of a block comment. -/
def inner (text : List Char) : List Char := text.tail.dropLast

def IsLine (text : List Char) : Prop := text.take 2 = ['"', '*']

instance (text : List Char) : Decidable (IsLine text) := inferInstanceAs (Decidable (_ = _))

/-- A block comment with a quote inside that an even number of backslashes stands before. -/
def Bare (text : List Char) : Prop := ¬IsLine text ∧ '"' ∈ exposed (inner text)

/-- A block comment with a newline inside that an odd number of backslashes stands before. -/
def HidesLine (text : List Char) : Prop := ¬IsLine text ∧ '\n' ∈ escaped (inner text)

instance (text : List Char) : Decidable (Bare text) := inferInstanceAs (Decidable (_ ∧ _))

instance (text : List Char) : Decidable (HidesLine text) := inferInstanceAs (Decidable (_ ∧ _))

@[simp] theorem isLine_line (body : List Char) : IsLine ('"' :: '*' :: body) := rfl

@[simp] theorem not_isLine_empty : ¬IsLine ['"', '"'] := by decide

theorem not_isLine_block {c : Char} (hc : c ≠ '*') (body : List Char) :
    ¬IsLine ('"' :: c :: body) := by
  intro h
  exact hc (by simpa [IsLine] using h)

@[simp] theorem inner_block (body : List Char) : inner ('"' :: (body ++ ['"'])) = body := by
  simp [inner]

/-- Text that is code only, as a scanner reads it. -/
inductive PlainText : List Char → Prop
  | nil : PlainText []
  | cons {s rest} (hCode : Code s rest) (hRest : PlainText rest) : PlainText (s ++ rest)

/-- A text without quotes and `#` is code. -/
theorem PlainText.of_chars {s : List Char} (hs : ∀ c ∈ s, c ∉ ['\'', '"', '#']) : PlainText s := by
  induction s with
  | nil => exact .nil
  | cons c s ih =>
    have hc := hs c List.mem_cons_self
    simp only [List.mem_cons, List.not_mem_nil, or_false, not_or] at hc
    exact .cons (.char hc.1 hc.2.1 fun h => absurd h hc.2.2)
      (ih fun d hd => hs d (List.mem_cons_of_mem c hd))

/-- A scanner that knows the byte before the text does not take the text for that of a regex. -/
def Clear (before : Option UInt8) (rest : List Char) : Prop :=
  before = some (byteOf '#') → rest.head? ≠ some '/'

theorem Clear.of_ne {c : Char} {rest : List Char} (hc : c ≠ '#') :
    Clear (some (byteOf c)) rest :=
  fun h => absurd ((byteOf_eq_iff (by decide)).mp (Option.some.inj h)) hc

theorem Clear.of_endsLine (before : Option UInt8) {rest : List Char} (h : EndsLine rest) :
    Clear before rest := by
  intro _ hSlash
  exact absurd (h '/' (hSlash ▸ rfl)) (by decide)

/-- The end of a line may follow any lexeme. -/
theorem Code.endsLine {s rest after : List Char} (h : Code s rest) (hEnd : EndsLine after) :
    Code s (rest ++ after) := by
  cases h with
  | char hSingle hDouble hHash =>
    refine .char hSingle hDouble fun hc hSlash => ?_
    cases rest with
    | nil => exact absurd (hEnd '/' (hSlash ▸ rfl)) (by decide)
    | cons d rest => exact hHash hc hSlash
  | string hBody hLines => exact .string hBody hLines
  | regex hBody hLines => exact .regex hBody hLines

namespace Lexes

variable {cur mid last : Cursor} {ps qs : List (Pair Rule)} {s : List Char}

theorem trans (h : Lexes cur ps mid) (h' : Lexes mid qs last) : Lexes cur (ps ++ qs) last := by
  induction h with
  | done => exact h'
  | code hCode hMove _ ih => exact .code hCode hMove (ih h')
  | comment hText hMove _ ih => exact .comment hText hMove (ih h')
  | shebang hText hMove _ ih => exact .shebang hText hMove (ih h')

theorem single (hCode : Code s last.rest) (hMove : cur.Moves s last) : Lexes cur [] last :=
  .code hCode hMove (.done last)

end Lexes

/-! ## The rules that read quotes -/

section Quotes

variable {cur mid last : Cursor} {ps : List (Pair Rule)} {s : List Char} {e : Expr Rule}

/-- Where every reading of `e` is a text of a kind that is closed under putting texts together, so
is what a repetition of `e` reads. -/
theorem moves_of_chain {P : List Char → Prop} (hNil : P [])
    (hAppend : ∀ s t, P s → P t → P (s ++ t))
    (hStep : ∀ mid mid', Reads grammar e mid mid' → ∃ s, mid.Moves s mid' ∧ P s)
    (h : Relation.ReflTransGen (Reads grammar e) cur last) : ∃ s, cur.Moves s last ∧ P s := by
  induction h with
  | refl => exact ⟨[], Cursor.Moves.refl cur, hNil⟩
  | tail _ hLast ih =>
    obtain ⟨s, hMove, hs⟩ := ih
    obtain ⟨t, hMove', ht⟩ := hStep _ _ hLast
    exact ⟨s ++ t, hMove.trans hMove', hAppend s t hs ht⟩

/-- `!"c" ~ ANY`. -/
theorem reads_other {t : String} {c : Char} (ht : t.toList = [c])
    (h : Parses grammar true (.cat [.not (.lit t), .any]) cur (some (last, ps))) :
    ∃ d, d ≠ c ∧ cur.Moves [d] last ∧ ps = [] := by
  obtain ⟨mid, qs, rs, hNot, hAny, rfl⟩ := Parses.of_seq_skip h
  obtain ⟨rfl, rfl, hNone⟩ := Parses.of_not hNot
  obtain ⟨hRead, rfl⟩ := Parses.of_terminal hAny
  obtain ⟨d, hMove⟩ := Terminal.read_any.mp hRead
  refine ⟨d, ?_, hMove, rfl⟩
  rintro rfl
  refine Terminal.read_text_none.mp (Parses.of_terminal_none hNone) ?_
  rw [ht, hMove.rest]
  exact ⟨last.rest, rfl⟩

/-- Where `!"c" ~ ANY` fails, there is a `c` or the end. -/
theorem head_of_no_other {t : String} {c : Char} (ht : t.toList = [c])
    (h : Parses grammar true (.cat [.not (.lit t), .any]) cur none) :
    ∀ d ∈ cur.rest.head?, d = c := by
  intro d hd
  obtain hNot | ⟨mid, qs, hNot, hAny⟩ := Parses.of_seq_skip_none h
  · obtain ⟨⟨mid, qs⟩, hText⟩ := Parses.of_not_none hNot
    have hMove := Terminal.read_text.mp (Parses.of_terminal hText).1
    rw [hMove.rest, ht] at hd
    exact (Option.mem_some.mp hd).symm
  · obtain ⟨rfl, -, -⟩ := Parses.of_not hNot
    rw [Terminal.read_any_none.mp (Parses.of_terminal_none hAny)] at hd
    cases hd

/-- `(!"\n" ~ ANY)*`. -/
theorem reads_line
    (h : Parses grammar true (.many (.cat [.not (.lit "\n"), .any])) cur (some (last, ps))) :
    ∃ body, cur.Moves body last ∧ '\n' ∉ body ∧ EndsLine last.rest := by
  obtain ⟨hChain, hEnd⟩ := Parses.of_many h
  obtain ⟨body, hMove, hBody⟩ := moves_of_chain (P := ('\n' ∉ ·)) List.not_mem_nil
    (fun s t hs ht h => (List.mem_append.mp h).elim hs ht)
    (fun mid mid' hRead => by
      obtain ⟨qs, hParse⟩ := hRead
      obtain ⟨d, hd, hMove, -⟩ := reads_other (c := '\n') rfl hParse
      exact ⟨[d], hMove, fun h => hd (List.mem_singleton.mp h).symm⟩) hChain
  exact ⟨body, hMove, hBody, head_of_no_other rfl hEnd⟩

/-- Text of a string or a regex that `q` ends. -/
structure Inner (q : Char) (s : List Char) : Prop extends Quoted q s where
  lines : '\n' ∉ escaped s

theorem Inner.append {q : Char} (s t : List Char) (hs : Inner q s) (ht : Inner q t) :
    Inner q (s ++ t) := by
  refine ⟨hs.toQuoted.append ht.toQuoted, ?_⟩
  rw [escaped_append hs.whole, List.mem_append]
  exact fun h => h.elim hs.lines ht.lines

theorem Inner.single {q c : Char} (hq : c ≠ q) (hBack : c ≠ '\\') : Inner q [c] := by
  refine ⟨⟨?_, ?_⟩, ?_⟩
  · rw [exposed_cons hBack]
    exact fun h => hq (List.mem_singleton.mp h).symm
  · rw [exposed_cons hBack]
    exact fun h => hBack (List.mem_singleton.mp h).symm
  · rw [escaped_cons hBack]
    exact List.not_mem_nil

theorem Inner.escape {q c : Char} (hc : c ≠ '\n') : Inner q ['\\', c] :=
  ⟨⟨List.not_mem_nil, List.not_mem_nil⟩, fun h => hc (List.mem_singleton.mp h).symm⟩

theorem reads_range {lo hi : Char}
    (h : Parses grammar true (.range lo hi) cur (some (last, ps))) :
    ∃ d, lo ≤ d ∧ d ≤ hi ∧ cur.Moves [d] last :=
  Terminal.read_range.mp (Parses.of_terminal h).1

/-- The ranges of characters that stand in escapes. -/
def wordRanges : List (Char × Char) := [('0', '9'), ('a', 'f'), ('A', 'F'), ('a', 'z'), ('A', 'Z')]

/-- No character of a word means anything to a scanner. -/
theorem ne_of_wordRange {lo hi d : Char} (h : (lo, hi) ∈ wordRanges) (hLo : lo ≤ d) (hHi : d ≤ hi) :
    d ∉ ['\'', '/', '\\', '\n'] := by
  intro hd
  simp only [wordRanges, List.mem_cons, List.not_mem_nil, or_false, Prod.mk.injEq] at h hd
  rcases h with ⟨rfl, rfl⟩ | ⟨rfl, rfl⟩ | ⟨rfl, rfl⟩ | ⟨rfl, rfl⟩ | ⟨rfl, rfl⟩ <;>
    rcases hd with rfl | rfl | rfl | rfl <;>
    first
    | exact absurd hLo (by decide)
    | exact absurd hHi (by decide)

theorem reads_hex (h : Parses grammar true asciiHexDigit cur (some (last, ps))) :
    ∃ d, d ∉ ['\'', '/', '\\', '\n'] ∧ cur.Moves [d] last := by
  obtain ⟨e, he, hParse⟩ := Parses.of_choice h
  simp only [List.mem_cons, List.not_mem_nil, or_false] at he
  obtain rfl | rfl | rfl := he
  all_goals
    obtain ⟨d, hLo, hHi, hMove⟩ := reads_range hParse
    exact ⟨d, ne_of_wordRange (by decide) hLo hHi, hMove⟩

/-- The escapes of a string or a regex: one character, or the digits of a code. -/
theorem reads_escape {q : Char} (hq : q = '\'' ∨ q = '/')
    (hOne : ∀ cur last ps, Parses grammar true e cur (some (last, ps)) →
      ∃ d, d ≠ '\n' ∧ cur.Moves [d] last)
    (h : Parses grammar true (.choice [.cat [.lit "\\", e],
      .cat [.lit "\\", .choice [.lit "u", .lit "x"],
        .cat [asciiHexDigit, asciiHexDigit, asciiHexDigit, asciiHexDigit]]]) cur
        (some (last, ps))) :
    ∃ s, cur.Moves s last ∧ Inner q s := by
  obtain ⟨f, hf, hParse⟩ := Parses.of_choice h
  simp only [List.mem_cons, List.not_mem_nil, or_false] at hf
  obtain rfl | rfl := hf
  · -- a backslash and one character
    obtain ⟨mid, qs, rs, hBack, hChar, -⟩ := Parses.of_seq_skip hParse
    obtain ⟨d, hd, hMove⟩ := hOne _ _ _ hChar
    exact ⟨['\\', d], (Terminal.read_text.mp (Parses.of_terminal hBack).1).trans hMove,
      Inner.escape hd⟩
  · -- a backslash, `u` or `x`, and four digits, none of which is the quote
    obtain ⟨mid, qs, rs, hBack, hCode, -⟩ := Parses.of_seq_skip hParse
    obtain ⟨mid', qs', rs', hKind, hDigits, -⟩ := Parses.of_seq_skip hCode
    obtain ⟨k, hk, hMoveK⟩ : ∃ k, k ≠ '\n' ∧ mid.Moves [k] mid' := by
      obtain ⟨f, hf, hLit⟩ := Parses.of_choice hKind
      simp only [List.mem_cons, List.not_mem_nil, or_false] at hf
      obtain rfl | rfl := hf
      · exact ⟨'u', by decide, Terminal.read_text.mp (Parses.of_terminal hLit).1⟩
      · exact ⟨'x', by decide, Terminal.read_text.mp (Parses.of_terminal hLit).1⟩
    obtain ⟨mid₁, _, _, h₁, hDigits, -⟩ := Parses.of_seq_skip hDigits
    obtain ⟨mid₂, _, _, h₂, hDigits, -⟩ := Parses.of_seq_skip hDigits
    obtain ⟨mid₃, _, _, h₃, h₄, -⟩ := Parses.of_seq_skip hDigits
    have hDigit : ∀ {cur last ps}, Parses grammar true asciiHexDigit cur (some (last, ps)) →
        ∃ s, cur.Moves s last ∧ Inner q s := by
      intro cur last ps hHex
      obtain ⟨d, hd, hMove⟩ := reads_hex hHex
      refine ⟨[d], hMove, Inner.single ?_ ?_⟩
      · rintro rfl
        obtain rfl | rfl := hq <;> exact hd (by decide)
      · rintro rfl
        exact hd (by decide)
    obtain ⟨s₁, hMove₁, hs₁⟩ := hDigit h₁
    obtain ⟨s₂, hMove₂, hs₂⟩ := hDigit h₂
    obtain ⟨s₃, hMove₃, hs₃⟩ := hDigit h₃
    obtain ⟨s₄, hMove₄, hs₄⟩ := hDigit h₄
    have hMoveBack := Terminal.read_text.mp (Parses.of_terminal hBack).1
    exact ⟨_, (hMoveBack.trans hMoveK).trans
        (hMove₁.trans (hMove₂.trans (hMove₃.trans hMove₄))),
      (Inner.escape hk).append _ _ (hs₁.append _ _ (hs₂.append _ _ (hs₃.append _ _ hs₄)))⟩

/-- `(!("q" | "\\") ~ ANY | e)*`. -/
theorem reads_quoted {q : Char} {t : String} (ht : t.toList = [q])
    (hEscape : ∀ cur last ps, Parses grammar true e cur (some (last, ps)) →
      ∃ s, cur.Moves s last ∧ Inner q s)
    (h : Parses grammar true
      (.many (.choice [.cat [.not (.choice [.lit t, .lit "\\"]), .any], e])) cur
      (some (last, ps))) :
    ∃ s, cur.Moves s last ∧ Inner q s := by
  refine moves_of_chain ⟨Quoted.nil q, List.not_mem_nil⟩ Inner.append ?_ (Parses.of_many h).1
  rintro mid mid' ⟨qs, hPiece⟩
  obtain ⟨f, hf, hParse⟩ := Parses.of_choice hPiece
  simp only [List.mem_cons, List.not_mem_nil, or_false] at hf
  obtain rfl | rfl := hf
  · obtain ⟨mid₁, _, _, hNot, hAny, -⟩ := Parses.of_seq_skip hParse
    obtain ⟨rfl, -, hNone⟩ := Parses.of_not hNot
    obtain ⟨d, hMove⟩ := Terminal.read_any.mp (Parses.of_terminal hAny).1
    have hOther : ∀ (c : Char) (u : String), u.toList = [c] →
        (Expr.lit u : Expr Rule) ∈ [Expr.lit t, Expr.lit "\\"] → d ≠ c := by
      rintro c u hu hMem rfl
      have hFails := Parses.of_terminal_none (Parses.of_choice_none hNone hMem)
      refine Terminal.read_text_none.mp hFails ?_
      rw [hu, hMove.rest]
      exact ⟨mid'.rest, rfl⟩
    exact ⟨[d], hMove, Inner.single (hOther q t ht List.mem_cons_self)
      (hOther '\\' "\\" rfl (by simp))⟩
  · exact hEscape _ _ _ hParse

theorem reads_ESCAPE_SEQUENCE
    (h : Parses grammar true (.rule .ESCAPE_SEQUENCE) cur (some (last, ps))) :
    ∃ s, cur.Moves s last ∧ Inner '\'' s := by
  obtain ⟨qs, hBody, -⟩ := Parses.of_rule h
  refine reads_escape (.inl rfl) ?_ hBody
  intro cur last ps hOne
  obtain ⟨f, hf, hLit⟩ := Parses.of_choice hOne
  simp only [List.mem_cons, List.not_mem_nil, or_false] at hf
  have hMove := fun t (ht : f = .lit t) => Terminal.read_text.mp (Parses.of_terminal (ht ▸ hLit)).1
  obtain hf | hf | hf | hf | hf | hf := hf
  all_goals exact ⟨_, by decide, hMove _ hf⟩

theorem reads_REGEX_ESCAPE_SEQUENCE
    (h : Parses grammar true (.rule .REGEX_ESCAPE_SEQUENCE) cur (some (last, ps))) :
    ∃ s, cur.Moves s last ∧ Inner '/' s := by
  obtain ⟨qs, hBody, -⟩ := Parses.of_rule h
  refine reads_escape (.inr rfl) ?_ hBody
  intro cur last ps hOne
  obtain ⟨f, hf, hParse⟩ := Parses.of_choice hOne
  simp only [List.mem_cons, List.not_mem_nil, or_false] at hf
  obtain rfl | rfl | rfl | rfl := hf
  · obtain ⟨d, hLo, hHi, hMove⟩ := reads_range hParse
    exact ⟨d, fun hd => ne_of_wordRange (by decide) hLo hHi (by simp [hd]), hMove⟩
  · obtain ⟨d, hLo, hHi, hMove⟩ := reads_range hParse
    exact ⟨d, fun hd => ne_of_wordRange (by decide) hLo hHi (by simp [hd]), hMove⟩
  · obtain ⟨d, hLo, hHi, hMove⟩ := reads_range hParse
    exact ⟨d, fun hd => ne_of_wordRange (by decide) hLo hHi (by simp [hd]), hMove⟩
  · exact ⟨'\\', by decide, Terminal.read_text.mp (Parses.of_terminal hParse).1⟩

theorem code_of_STRING (h : Parses grammar true (Rule.body .STRING) cur (some (last, ps))) :
    ∃ s, cur.Moves s last ∧ Code s last.rest := by
  obtain ⟨mid, _, _, hOpen, hRest, -⟩ := Parses.of_seq_skip h
  obtain ⟨mid', _, _, hBody, hClose, -⟩ := Parses.of_seq_skip hRest
  obtain ⟨body, hMove, hInner⟩ := reads_quoted rfl
    (fun _ _ _ hEscape => reads_ESCAPE_SEQUENCE hEscape) hBody
  have hMoveOpen := Terminal.read_text.mp (Parses.of_terminal hOpen).1
  have hMoveClose := Terminal.read_text.mp (Parses.of_terminal hClose).1
  exact ⟨_, hMoveOpen.trans (hMove.trans hMoveClose), .string hInner.toQuoted hInner.lines⟩

theorem code_of_REGEXP (h : Parses grammar true (Rule.body .REGEXP) cur (some (last, ps))) :
    ∃ s, cur.Moves s last ∧ Code s last.rest := by
  obtain ⟨mid, _, _, hHash, hRest, -⟩ := Parses.of_seq_skip h
  obtain ⟨mid', _, _, hOpen, hRest, -⟩ := Parses.of_seq_skip hRest
  obtain ⟨mid'', _, _, hBody, hClose, -⟩ := Parses.of_seq_skip hRest
  obtain ⟨body, hMove, hInner⟩ := reads_quoted rfl
    (fun _ _ _ hEscape => reads_REGEX_ESCAPE_SEQUENCE hEscape) hBody
  have hMoveHash := Terminal.read_text.mp (Parses.of_terminal hHash).1
  have hMoveOpen := Terminal.read_text.mp (Parses.of_terminal hOpen).1
  have hMoveClose := Terminal.read_text.mp (Parses.of_terminal hClose).1
  exact ⟨_, hMoveHash.trans (hMoveOpen.trans (hMove.trans hMoveClose)),
    .regex hInner.toQuoted hInner.lines⟩

theorem shebangText (h : Parses grammar true (Rule.body .shebang) cur (some (last, ps))) :
    ∃ s, cur.Moves s last ∧ ShebangText s last.rest := by
  obtain ⟨mid, _, _, hOpen, hBody, -⟩ := Parses.of_seq_skip h
  obtain ⟨body, hMove, hLine, hEnd⟩ := reads_line hBody
  have hMoveOpen := Terminal.read_text.mp (Parses.of_terminal hOpen).1
  exact ⟨_, hMoveOpen.trans hMove, .line hLine hEnd⟩

/-- The inside of a block comment: it begins with no quote, and where a quote follows it, no
backslash ends it. -/
theorem reads_block
    (h : Relation.ReflTransGen
      (Reads grammar (.choice [.cat [.lit "\\", .lit "\""], .cat [.not (.lit "\""), .any]]))
      cur last) :
    ∃ body, cur.Moves body last ∧ body.head? ≠ some '"' ∧
      (last.rest.head? = some '"' → body.getLast? ≠ some '\\') := by
  induction h using Relation.ReflTransGen.head_induction_on with
  | refl => exact ⟨[], Cursor.Moves.refl last, by simp, by simp⟩
  | @head cur mid hStep _ ih =>
    obtain ⟨body, hMove, -, hLast⟩ := ih
    obtain ⟨qs, hParse⟩ := hStep
    obtain ⟨out, hOut, hEscape⟩ | ⟨hNone, hOther⟩ := Parses.of_alt hParse
    · cases hOut
      obtain ⟨mid', _, _, hBack, hQuote, -⟩ := Parses.of_seq_skip hEscape
      have hMoveBack := Terminal.read_text.mp (Parses.of_terminal hBack).1
      have hMoveQuote := Terminal.read_text.mp (Parses.of_terminal hQuote).1
      refine ⟨_, (hMoveBack.trans hMoveQuote).trans hMove, by simp, fun hEnd => ?_⟩
      have := hLast hEnd
      cases body with
      | nil => simp
      | cons c body => simpa [List.getLast?_cons_cons] using this
    · obtain ⟨d, hd, hMoveOther, -⟩ := reads_other (c := '"') rfl hOther
      refine ⟨_, hMoveOther.trans hMove, by simpa using hd, fun hEnd => ?_⟩
      have hBody := hLast hEnd
      cases body with
      | nil =>
        -- a lone backslash before the quote is what the first choice would have taken
        intro hBack
        obtain rfl : d = '\\' := by simpa using hBack
        obtain rfl : last = mid := Cursor.moves_nil.mp hMove
        obtain ⟨rest, hRest⟩ := List.head?_eq_some_iff.mp hEnd
        obtain hFails | ⟨mid', _, hBackslash, hFails⟩ := Parses.of_seq_skip_none hNone
        · refine Terminal.read_text_none.mp (Parses.of_terminal_none hFails) ?_
          exact ⟨last.rest, hMoveOther.rest.symm⟩
        · have hMove' := Terminal.read_text.mp (Parses.of_terminal hBackslash).1
          refine Terminal.read_text_none.mp (Parses.of_terminal_none hFails) ⟨rest, ?_⟩
          have hSame := hMove'.rest.symm.trans hMoveOther.rest
          exact (List.cons.inj (hRest ▸ hSame)).2.symm
      | cons c body => simpa [List.getLast?_cons_cons] using hBody

theorem commentText (h : Parses grammar true (Rule.body .COMMENT) cur (some (last, ps))) :
    ∃ s, cur.Moves s last ∧ CommentText s last.rest := by
  obtain ⟨f, hf, hParse⟩ := Parses.of_choice h
  simp only [List.mem_cons, List.not_mem_nil, or_false] at hf
  obtain rfl | rfl | rfl := hf
  · obtain ⟨mid, _, _, hOpen, hRest, -⟩ := Parses.of_seq_skip hParse
    obtain ⟨mid', _, _, hStar, hBody, -⟩ := Parses.of_seq_skip hRest
    obtain ⟨body, hMove, hLine, hEnd⟩ := reads_line hBody
    have hMoveOpen := Terminal.read_text.mp (Parses.of_terminal hOpen).1
    have hMoveStar := Terminal.read_text.mp (Parses.of_terminal hStar).1
    exact ⟨_, hMoveOpen.trans (hMoveStar.trans hMove), .line hLine hEnd⟩
  · obtain ⟨mid, _, _, hOpen, hClose, -⟩ := Parses.of_seq_skip hParse
    have hMoveOpen := Terminal.read_text.mp (Parses.of_terminal hOpen).1
    have hMoveClose := Terminal.read_text.mp (Parses.of_terminal hClose).1
    exact ⟨_, hMoveOpen.trans hMoveClose, .empty⟩
  · obtain ⟨mid, _, _, hOpen, hRest, -⟩ := Parses.of_seq_skip hParse
    obtain ⟨mid', _, _, hNot, hRest', -⟩ := Parses.of_seq_skip hRest
    obtain ⟨mid'', _, _, hBody, hClose, -⟩ := Parses.of_seq_skip hRest'
    obtain ⟨rfl, -, hStar⟩ := Parses.of_not hNot
    obtain ⟨body, hMove, hHead, hLast⟩ := reads_block (Parses.of_many hBody).1
    have hMoveOpen := Terminal.read_text.mp (Parses.of_terminal hOpen).1
    have hMoveClose := Terminal.read_text.mp (Parses.of_terminal hClose).1
    have hLast' := hLast (by rw [hMoveClose.rest]; rfl)
    refine ⟨_, hMoveOpen.trans (hMove.trans hMoveClose), ?_⟩
    cases body with
    | nil => exact .empty
    | cons c body =>
      refine .block (fun hc => ?_) (by simpa using hHead) hLast'
      refine Terminal.read_text_none.mp (Parses.of_terminal_none hStar) ?_
      rw [hMove.rest, hc]
      exact ⟨body ++ mid''.rest, rfl⟩

end Quotes

/-! ## All other rules -/

def plain (c : Char) : Bool := c ≠ '\'' ∧ c ≠ '"' ∧ c ≠ '#'

/-- Rules whose matches begin with a character other than `/`. -/
def Rule.solid (r : Rule) : Bool :=
  r ∈ [.WHITESPACE, .COMMENT, .IDENT_PREFIX, .IDENT, .XIDENT, .STRING]

mutual

/-- What `e` reads begins with a character other than `/`. -/
def solid : Expr Rule → Bool
  | .terminal (.text (c :: _)) => c ≠ '/'
  | .terminal (.range lo _) => '/' < lo
  | .rule r => r.solid
  | .seq e f => solid e || (still e && solid f)
  | .alt e f => solid e && solid f
  | _ => false

/-- Before a `/`, `e` reads nothing. -/
def still : Expr Rule → Bool
  | .skip | .not _ => true
  | .seq e f => still e && still f
  | .star e | .opt e => solid e
  | _ => false

end

def isHash : Expr Rule → Bool
  | .terminal (.text s) => s = ['#']
  | _ => false

/-- `e` reads no quote, and a `#` only where something solid has to follow. -/
def safe : Expr Rule → Bool
  | .terminal (.text s) => s.all plain
  | .terminal (.range lo _) => '\'' < lo
  | .terminal .any => false
  | .terminal _ => true
  | .rule r => r ≠ .ESCAPE_SEQUENCE
  | .seq e f => (safe e || (isHash e && solid f)) && safe f
  | .alt e f => safe e && safe f
  | .star e | .opt e => safe e
  | .skip | .not _ => true

/-- The rules that `commentText` and its like are about. -/
def Rule.quoting (r : Rule) : Bool :=
  r ∈ [.COMMENT, .shebang, .STRING, .REGEXP, .ESCAPE_SEQUENCE]

theorem safe_seq (e f : Expr Rule) :
    safe (.seq e f) = ((safe e || (isHash e && solid f)) && safe f) := rfl

theorem safe_alt (e f : Expr Rule) : safe (.alt e f) = (safe e && safe f) := rfl

theorem safe_body (r : Rule) (hr : r.quoting = false) : safe r.body = true := by
  cases r <;> first | rfl | cases hr

theorem solid_body (r : Rule) (hr : r.solid = true) : solid r.body = true := by
  cases r <;> first | rfl | cases hr

/-- Within an atomic rule `e` matches no rule that is watched. -/
def quiet : Expr Rule → Bool
  | .rule r => r ∈ [.ESCAPE_SEQUENCE, .REGEX_ESCAPE_SEQUENCE]
  | .seq e f | .alt e f => quiet e && quiet f
  | .star e | .opt e => quiet e
  | _ => true

section

variable {atomic : Bool} {cur mid last : Cursor} {e : Expr Rule} {res : Result Rule}
  {ps qs : List (Pair Rule)} {s : List Char} {r : Rule}

theorem pairs_of_quiet (h : Parses grammar true e cur (some (last, ps))) (he : quiet e = true) :
    ps = [] := by
  have hQuiet : true = true → quiet e = true → ps = [] := by
    refine Parses.match_induction
      (C := fun atomic e _ _ ps => atomic = true → quiet e = true → ps = [])
      ?terminal ?rule ?within ?trivia ?seq ?alt_first ?alt_second ?more ?done ?opt_some ?opt_none
      ?not_none h
    case terminal | within | done | opt_none | not_none => intros; rfl
    case rule =>
      intro atomic r cur last qs ps _ ih hMatched hAtomic hr
      have hr' : r = .ESCAPE_SEQUENCE ∨ r = .REGEX_ESCAPE_SEQUENCE := by simpa [quiet] using hr
      have hNone := ih (by rw [hAtomic]; rfl) (by obtain rfl | rfl := hr' <;> rfl)
      have hWatch : grammar.watched r = false := by obtain rfl | rfl := hr' <;> rfl
      rw [Grammar.matched, Option.map_some, hWatch, hNone] at hMatched
      exact (congrArg Prod.snd (Option.some.inj hMatched)).symm
    case trivia => rintro cur last ps - ⟨⟩
    case seq =>
      intro atomic e f cur mid last qs rs _ _ ihFirst ihSecond hAtomic he
      rw [quiet, Bool.and_eq_true] at he
      rw [ihFirst hAtomic he.1, ihSecond hAtomic he.2, List.append_nil]
    case more =>
      intro atomic e cur mid last qs rs ihFirst ihMore hAtomic he
      rw [ihFirst hAtomic he, ihMore hAtomic he, List.append_nil]
    case alt_first =>
      intro atomic e f cur last ps ih hAtomic he
      rw [quiet, Bool.and_eq_true] at he
      exact ih hAtomic he.1
    case alt_second =>
      intro atomic e f cur last ps ih hAtomic he
      rw [quiet, Bool.and_eq_true] at he
      exact ih hAtomic he.2
    case opt_some => exact fun _ _ _ _ _ ih hAtomic he => ih hAtomic he
  exact hQuiet rfl he

/-- What is solid does not match before a `/`, and what is still reads nothing there. -/
theorem head_slash (h : Parses grammar atomic e cur (some (last, ps)))
    (hSlash : cur.rest.head? = some '/') : solid e = false ∧ (still e = true → last = cur) := by
  -- on the derivation: a text that begins with `/` is matched by nothing solid
  revert hSlash
  refine Parses.match_induction
    (C := fun _ e cur last _ =>
      cur.rest.head? = some '/' → solid e = false ∧ (still e = true → last = cur))
    ?terminal ?rule ?within ?trivia ?seq ?alt_first ?alt_second ?more ?done ?opt_some ?opt_none
    ?not_none h
  case within => exact fun cur _ => ⟨rfl, fun _ => rfl⟩
  case done | opt_none | not_none => exact fun atomic e cur _ => ⟨rfl, fun _ => rfl⟩
  case terminal =>
    intro atomic t cur last hRead hSlash
    refine ⟨?_, fun hStill => by cases hStill⟩
    cases t with
    | text s =>
      cases s with
      | nil => rfl
      | cons c s =>
        rw [(Terminal.read_text.mp hRead).rest] at hSlash
        obtain rfl : c = '/' := Option.some.inj hSlash
        rfl
    | range lo hi =>
      obtain ⟨c, hLo, -, hMove⟩ := Terminal.read_range.mp hRead
      rw [hMove.rest] at hSlash
      obtain rfl : c = '/' := Option.some.inj hSlash
      exact decide_eq_false (not_lt.mpr hLo)
    | any | start | finish => rfl
  case rule =>
    intro atomic r cur last qs ps _ ih _ hSlash
    refine ⟨Bool.eq_false_iff.mpr fun hr => ?_, fun hStill => by cases hStill⟩
    have hBody : solid r.body = false := (ih hSlash).1
    rw [solid_body r hr] at hBody
    cases hBody
  case trivia =>
    intro cur last ps ih hSlash
    exact ⟨rfl, fun _ => (ih hSlash).2 rfl⟩
  case seq =>
    intro atomic e f cur mid last qs rs _ _ ihFirst ihSecond hSlash
    obtain ⟨hSolid, hStill⟩ := ihFirst hSlash
    -- the first part has not moved, so the second one meets the `/`
    cases he : still e with
    | false => exact ⟨by rw [solid, hSolid, he]; rfl, fun h => by rw [still, he] at h; cases h⟩
    | true =>
      obtain rfl := hStill he
      obtain ⟨hSolid', hStill'⟩ := ihSecond hSlash
      refine ⟨by rw [solid, hSolid, hSolid', Bool.and_false]; rfl, fun h => hStill' ?_⟩
      rwa [still, he, Bool.true_and] at h
  case alt_first =>
    intro atomic e f cur last ps ih hSlash
    exact ⟨by rw [solid, (ih hSlash).1]; rfl, fun h => by cases h⟩
  case alt_second =>
    intro atomic e f cur last ps ih hSlash
    exact ⟨by rw [solid, (ih hSlash).1, Bool.and_false], fun h => by cases h⟩
  case more =>
    intro atomic e cur mid last qs rs ih _ hSlash
    exact ⟨rfl, fun h => by rw [still, (ih hSlash).1] at h; cases h⟩
  case opt_some =>
    intro atomic e cur last ps ih hSlash
    exact ⟨rfl, fun h => by rw [still, (ih hSlash).1] at h; cases h⟩

theorem lexes_plain (h : cur.Moves s last) (hs : s.all plain = true) : Lexes cur [] last := by
  induction s generalizing cur with
  | nil =>
    obtain rfl := Cursor.moves_nil.mp h
    exact .done _
  | cons c s ih =>
    obtain ⟨mid, hHead, hTail⟩ := Cursor.moves_cons.mp h
    rw [List.all_cons, Bool.and_eq_true] at hs
    obtain ⟨hSingle, hDouble, hHash⟩ := of_decide_eq_true hs.1
    exact .code (.char hSingle hDouble fun hc => absurd hc hHash) hHead (ih hTail hs.2)

theorem text_of_moves (h : cur.Moves s last) :
    cur.rest.take (cur.rest.length - last.rest.length) = s := by
  rw [h.rest, List.length_append, Nat.add_sub_cancel, List.take_left]

/-- The pairs of a rule whose body matches no watched rule. -/
theorem pairs_of_matched (hQuiet : quiet r.body = true) (hMove : cur.Moves s last)
    (hBody : Parses grammar true r.body cur (some (last, qs)))
    (h : grammar.matched r cur (some (last, qs)) = some (last, ps)) :
    ps = if grammar.watched r then [⟨r, cur.pos, last.pos, s⟩] else [] := by
  obtain rfl := pairs_of_quiet hBody hQuiet
  rw [← text_of_moves hMove]
  exact (congrArg Prod.snd (Option.some.inj h)).symm

theorem lexes_of_quoting (hr : r.quoting = true) (hNot : r ≠ .ESCAPE_SEQUENCE)
    (hBody : Parses grammar (atomic || grammar.atomic r) r.body cur (some (last, qs)))
    (h : grammar.matched r cur (some (last, qs)) = some (last, ps)) : Lexes cur ps last := by
  have hr' : r = .COMMENT ∨ r = .shebang ∨ r = .STRING ∨ r = .REGEXP := by
    have : r ∈ [.COMMENT, .shebang, .STRING, .REGEXP, .ESCAPE_SEQUENCE] := of_decide_eq_true hr
    simpa [hNot] using this
  have hAtomic : (atomic || grammar.atomic r) = true := by
    rw [Bool.or_eq_true]
    right
    obtain rfl | rfl | rfl | rfl := hr' <;> rfl
  rw [hAtomic] at hBody
  obtain rfl | rfl | rfl | rfl := hr'
  · obtain ⟨s, hMove, hText⟩ := commentText hBody
    rw [pairs_of_matched rfl hMove hBody h]
    exact .comment hText hMove (.done last)
  · obtain ⟨s, hMove, hText⟩ := shebangText hBody
    rw [pairs_of_matched rfl hMove hBody h]
    exact .shebang hText hMove (.done last)
  · obtain ⟨s, hMove, hCode⟩ := code_of_STRING hBody
    rw [pairs_of_matched rfl hMove hBody h]
    exact .single hCode hMove
  · obtain ⟨s, hMove, hCode⟩ := code_of_REGEXP hBody
    rw [pairs_of_matched rfl hMove hBody h]
    exact .single hCode hMove

/-- What a safe expression matches is a row of lexemes. -/
theorem lexes_of_safe (h : Parses grammar atomic e cur (some (last, ps))) (he : safe e = true) :
    Lexes cur ps last := by
  revert he
  -- on the derivation: a rule that quotes is one token, and the others are made of safe parts
  refine Parses.match_induction (C := fun _ e cur last ps => safe e = true → Lexes cur ps last)
    ?terminal ?rule ?within ?trivia ?seq ?alt_first ?alt_second ?more ?done ?opt_some ?opt_none
    ?not_none h
  case within => exact fun cur _ => .done cur
  case done | opt_none | not_none => exact fun atomic e cur _ => .done cur
  case terminal =>
    intro atomic t cur last hRead he
    cases t with
    -- a safe text has no quote, so it is code
    | text s => exact lexes_plain (Terminal.read_text.mp hRead) he
    | range lo hi =>
      obtain ⟨c, hLo, -, hMove⟩ := Terminal.read_range.mp hRead
      have hAfter : '\'' < c := lt_of_lt_of_le (of_decide_eq_true he) hLo
      refine lexes_plain hMove ?_
      simp only [List.all_cons, List.all_nil, Bool.and_true, plain, decide_eq_true_eq]
      refine ⟨hAfter.ne', ?_, ?_⟩ <;> rintro rfl <;> exact absurd hAfter (by decide)
    | any => cases he
    | start =>
      rw [Terminal.read_place (.inl rfl) hRead]
      exact .done cur
    | finish =>
      rw [Terminal.read_place (.inr rfl) hRead]
      exact .done cur
  case rule =>
    intro atomic r cur last qs ps hBody ih hMatched hr
    have hNot : r ≠ .ESCAPE_SEQUENCE := of_decide_eq_true hr
    -- a rule that quotes, or one that the walk goes through
    cases hQuoting : r.quoting with
    | true => exact lexes_of_quoting hQuoting hNot hBody hMatched
    | false =>
      have hWatch : grammar.watched r = false := by
        refine decide_eq_false ?_
        rintro (rfl | rfl) <;> cases hQuoting
      rw [Grammar.matched, Option.map_some, hWatch] at hMatched
      cases hMatched
      exact ih (safe_body r hQuoting)
  case trivia => exact fun cur last ps ih _ => ih rfl
  case seq =>
    intro atomic e f cur mid last qs rs hFirst hSecond ihFirst ihSecond he
    rw [safe_seq, Bool.and_eq_true, Bool.or_eq_true, Bool.and_eq_true] at he
    obtain ⟨hSafe | ⟨hHash, hSolid⟩, hSafe'⟩ := he
    · exact (ihFirst hSafe).trans (ihSecond hSafe')
    · -- a `#`, and what follows it does not begin with a `/`
      cases e with
      | terminal t =>
        cases t with
        | text s =>
          obtain rfl : s = ['#'] := of_decide_eq_true hHash
          obtain ⟨hRead, rfl⟩ := Parses.of_terminal hFirst
          refine .code (.char (by decide) (by decide) fun _ hSlash => ?_)
            (Terminal.read_text.mp hRead) (ihSecond hSafe')
          rw [(head_slash hSecond hSlash).1] at hSolid
          cases hSolid
        | _ => cases hHash
      | _ => cases hHash
  case alt_first =>
    intro atomic e f cur last ps ih he
    rw [safe_alt, Bool.and_eq_true] at he
    exact ih he.1
  case alt_second =>
    intro atomic e f cur last ps ih he
    rw [safe_alt, Bool.and_eq_true] at he
    exact ih he.2
  case more =>
    intro atomic e cur mid last qs rs ihFirst ihMore he
    exact (ihFirst he).trans (ihMore he)
  case opt_some => exact fun atomic e cur last ps ih he => ih he

end

/-- A source that the grammar accepts is a row of lexemes, up to its end. -/
theorem Accepts.lexes {source : List Char} {pairs : List (Pair Rule)} (h : Accepts source pairs) :
    ∃ last, Lexes ⟨0, source⟩ pairs last ∧ last.rest = [] := by
  obtain ⟨last, hParse⟩ := h
  refine ⟨last, lexes_of_safe hParse rfl, ?_⟩
  obtain ⟨qs, hBody, -⟩ := Parses.of_rule hParse
  obtain ⟨mid, _, _, -, hRest, -⟩ := Parses.of_seq hBody
  obtain ⟨mid', _, _, -, hRest, -⟩ := Parses.of_seq hRest
  obtain ⟨mid₁, _, _, -, hRest, -⟩ := Parses.of_seq hRest
  obtain ⟨mid₂, _, _, -, hRest, -⟩ := Parses.of_seq hRest
  obtain ⟨mid₃, _, _, -, hRest, -⟩ := Parses.of_seq hRest
  obtain ⟨mid₄, _, _, -, hEnd, -⟩ := Parses.of_seq hRest
  obtain ⟨rfl, hNil⟩ := Terminal.read_finish (Parses.of_terminal hEnd).1
  exact hNil

end Quoin.Text
