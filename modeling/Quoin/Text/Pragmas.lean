import Mathlib
import Quoin.Text.Lexes

/-!
# Quoin — the scanner of pragmas

`scanAllowPragmas` finds the `"* allow:` comments of a source again in its
bytes, with the lines they are on. It follows the strings, regexes and comments
as the scanner of comments does, and counts the newlines it comes by.

A newline that a backslash escapes it does not come by. So on a row of lexemes
without bare quotes it reports the right comments, and the right lines of all of
them if and only if none stands after a block comment with such a newline
(`scan_iff`).
-/

namespace Quoin.Text

open Trans Trans.Peg

/-- `char::is_whitespace`. -/
def isWhitespace (c : Char) : Bool :=
  let n := c.toNat
  (0x09 ≤ n && n ≤ 0x0d) || n == 0x20 || n == 0x85 || n == 0xa0 || n == 0x1680 ||
    (0x2000 ≤ n && n ≤ 0x200a) || n == 0x2028 || n == 0x2029 || n == 0x202f || n == 0x205f ||
    n == 0x3000

/-- `str::trim`. -/
def trim (s : List Char) : List Char :=
  ((s.dropWhile isWhitespace).reverse.dropWhile isWhitespace).reverse

structure SourceInfo where
  filename : String
  line : Nat
  column : Nat
  start : Nat
  stop : Nat
  sourceText : Option (List Char)
  deriving DecidableEq

structure AllowPragma where
  line : Nat
  kinds : List (List Char)
  trailing : Bool
  span : SourceInfo
  deriving DecidableEq

/-- The text after `allow:` in the text of a line comment after its marker. -/
def allowed (body : List Char) : Option (List Char) := "allow:".toList.isPrefixOf? (trim body)

/-- The kinds: up to a `(`, between commas and blanks. -/
def kindsOf (rest : List Char) : List (List Char) :=
  ((rest.takeWhile (· ≠ '(')).splitOnP fun c => c = ',' || c = ' ').filter (· ≠ [])

namespace ScanPragmas

inductive St where
  | normal
  | str
  | regex
  | line (start : Nat)
  | block
  deriving DecidableEq

structure Scan where
  pragmas : List AllowPragma
  st : St
  line : Nat
  lineStart : Nat
  codeOnLine : Bool
  deriving DecidableEq

def closeLineComment (source : List Char) (filename : String) (start stop : Nat) (s : Scan) :
    Option (List AllowPragma) :=
  (slice source (start + 2) stop).bind fun body =>
    match allowed body with
    | none => some s.pragmas
    | some rest => (slice source start stop).map fun text =>
      s.pragmas ++ [{
        line := s.line
        kinds := kindsOf rest
        trailing := s.codeOnLine
        span := {
          filename
          line := s.line
          column := start - s.lineStart
          start
          stop
          sourceText := some text } }]

/-- A newline ends a line comment, and the line. -/
def newline (source : List Char) (filename : String) (i : Nat) (s : Scan) : Option Scan :=
  let closed := match s.st with
    | .line start => (closeLineComment source filename start i s).map fun pragmas =>
      { s with pragmas, st := .normal }
    | _ => some s
  closed.map fun s => { s with line := s.line + 1, lineStart := i + 1, codeOnLine := false }

/-- The body of the `while`. Here `none` is a slice off the boundaries of characters. -/
def turn (source : List Char) (filename : String) : Visit Scan := fun i before c after s =>
  if c = byteOf '\n' then (newline source filename i s).map fun s => (s, false)
  else match s.st with
  | .normal =>
    if c = byteOf '\'' then some ({ s with codeOnLine := true, st := .str }, false)
    else if c = byteOf '"' then
      if after = some (byteOf '*') then some ({ s with st := .line i }, true)
      else if after = some (byteOf '"') then some (s, true)
      else some ({ s with st := .block }, false)
    else if c = byteOf '/' ∧ before = some (byteOf '#') then
      some ({ s with codeOnLine := true, st := .regex }, false)
    else if c = byteOf ' ' ∨ c = byteOf '\t' ∨ c = byteOf '\r' then some (s, false)
    else some ({ s with codeOnLine := true }, false)
  | .str =>
    if c = byteOf '\\' then some (s, true)
    else if c = byteOf '\'' then some ({ s with st := .normal }, false)
    else some (s, false)
  | .regex =>
    if c = byteOf '\\' then some (s, true)
    else if c = byteOf '/' then some ({ s with st := .normal }, false)
    else some (s, false)
  | .line _ => some (s, false)
  | .block =>
    if c = byteOf '\\' then some (s, true)
    else if c = byteOf '"' then some ({ s with st := .normal }, false)
    else some (s, false)

/-- A line comment with no newline after it goes to the end. -/
def finish (source : List Char) (filename : String) (s : Scan) : Option (List AllowPragma) :=
  match s.st with
  | .line start => closeLineComment source filename start (utf8 source).length s
  | _ => some s.pragmas

end ScanPragmas

open ScanPragmas in
def scanAllowPragmas (source : List Char) (filename : String) : Option (List AllowPragma) :=
  (walk (turn source filename) 0 none (utf8 source) ⟨[], .normal, 1, 0, false⟩).bind
    (finish source filename)

namespace ScanPragmas

variable {source : List Char} {filename : String} {s s' : Scan} {before : Option UInt8} {i : Nat}

/-- What a byte beyond ASCII does. -/
def high (s : Scan) : Scan := if s.st = .normal then { s with codeOnLine := true } else s

theorem blind (source : List Char) (filename : String) : Blind (turn source filename) high where
  dim i before b after s := by
    simp (disch := decide) only [turn, dim_eq_iff, map_dim_eq_iff]
  again s := by
    unfold high
    split <;> simp_all
  consumed i before b s s' h := by
    obtain ⟨pragmas, st, line, lineStart, codeOnLine⟩ := s
    have hStar : some 0x80 ≠ some (byteOf '*') := by decide
    have hQuote : some 0x80 ≠ some (byteOf '"') := by decide
    cases st <;> simp only [turn, hStar, hQuote, if_false] at h <;> split_ifs at h <;>
      first
      | (cases h <;> rfl)
      | (obtain ⟨_, -, hOut⟩ := Option.map_eq_some_iff.mp h
         cases hOut)
  high i before after s := by
    obtain ⟨pragmas, st, line, lineStart, codeOnLine⟩ := s
    cases st <;> simp (disch := decide) [turn, byteOf_ne_high, high]

/-! ## The lexemes -/

/-- From one state to the other there is no pragma, and there are `n` lines. -/
structure Passes (s : Scan) (n : Nat) (s' : Scan) : Prop where
  pragmas : s'.pragmas = s.pragmas
  line : s'.line = s.line + n

theorem Passes.refl (s : Scan) : Passes s 0 s := ⟨rfl, rfl⟩

theorem Passes.trans {n m : Nat} {s'' : Scan} (h : Passes s n s') (h' : Passes s' m s'') :
    Passes s (n + m) s'' :=
  ⟨h'.pragmas.trans h.pragmas, by rw [h'.line, h.line, Nat.add_assoc]⟩

/-- Where an escape may stand: the state, and the character that ends it. -/
def Ends (st : St) (q : Char) : Prop :=
  (st = .str ∧ q = '\'') ∨ (st = .regex ∧ q = '/') ∨ (st = .block ∧ q = '"')

theorem turn_newline (source : List Char) (filename : String) (i : Nat) {s : Scan}
    (hst : ∀ start, s.st ≠ .line start) (before after : Option UInt8) :
    turn source filename i before (byteOf '\n') after s
      = some ({ s with line := s.line + 1, lineStart := i + 1, codeOnLine := false }, false) := by
  obtain ⟨pragmas, st, line, lineStart, codeOnLine⟩ := s
  cases st with
  | line start => exact absurd rfl (hst start)
  | _ => simp [turn, newline]

theorem carries (source : List Char) (filename : String) {st : St} {q : Char} (h : Ends st q)
    (s : Scan) : Carries (turn source filename) q fun n s' => s'.st = st ∧ Passes s n s' := by
  constructor
  · rintro i before after n s' ⟨hst, -⟩
    obtain ⟨rfl, -⟩ | ⟨rfl, -⟩ | ⟨rfl, -⟩ := h <;> simp (disch := decide) [turn, hst, byteOf_eq_iff]
  · rintro i before c after n s' hq hBack ⟨hst, hPasses⟩
    by_cases hc : c = '\n'
    · subst hc
      have hNot : ∀ start, s'.st ≠ .line start := by
        rw [hst]
        obtain ⟨rfl, -⟩ | ⟨rfl, -⟩ | ⟨rfl, -⟩ := h <;> intro start hLine <;> cases hLine
      exact ⟨_, turn_newline source filename i hNot before after, hst, hPasses.trans ⟨rfl, rfl⟩⟩
    · have hCount : [c].count '\n' = 0 := by simp [hc]
      rw [hCount]
      refine ⟨s', ?_, hst, hPasses⟩
      obtain ⟨rfl, rfl⟩ | ⟨rfl, rfl⟩ | ⟨rfl, rfl⟩ := h <;>
        simp (disch := decide) [turn, hst, byteOf_eq_iff, hc, hq, hBack]

/-- What a string, a regex or a block comment leaves, once it is open. -/
theorem walk_quoted (source : List Char) (filename : String) (i : Nat) (before : Option UInt8)
    {st : St} {q : Char} {body : List Char} (rest : List Char) (h : Ends st q)
    (hBody : Quoted q body) {s : Scan} (hst : s.st = st) :
    ∃ s', walkChars (turn source filename) i before (body ++ q :: rest) s
        = walkChars (turn source filename) (i + (size body + 1)) (some (byteOf q)) rest s' ∧
      s'.st = .normal ∧ Passes s ((exposed body).count '\n') s' := by
  have hSize : q.utf8Size = 1 := by obtain ⟨-, rfl⟩ | ⟨-, rfl⟩ | ⟨-, rfl⟩ := h <;> rfl
  obtain ⟨s', hWalk, hPasses⟩ := (carries source filename h s).walkChars_close hBody (n := 0)
    ⟨hst, Passes.refl s⟩ i rest
    (C := fun s' => s'.st = .normal ∧ Passes s ((exposed body).count '\n') s')
    (by
      rintro before' s' ⟨hst', hPasses⟩
      rw [Nat.zero_add] at hPasses
      refine ⟨{ s' with st := .normal }, ?_, rfl, hPasses.pragmas, hPasses.line⟩
      obtain ⟨rfl, rfl⟩ | ⟨rfl, rfl⟩ | ⟨rfl, rfl⟩ := h <;>
        simp (disch := decide) [turn, hst', byteOf_eq_iff])
    before
  exact ⟨s', by rw [hWalk, hSize], hPasses⟩

/-- The lines of a string or a regex that no escape goes over. -/
theorem count_exposed {body : List Char} (h : '\n' ∉ escaped body) :
    (exposed body).count '\n' = body.count '\n' := by
  rw [← count_exposed_add_escaped (by decide) body, List.count_eq_zero_of_not_mem h, Nat.add_zero]

theorem turn_char (source : List Char) (filename : String) (i : Nat) {c : Char} {rest : List Char}
    (hst : s.st = .normal) (hSingle : c ≠ '\'') (hDouble : c ≠ '"')
    (hClear : Clear before (c :: rest)) (after : Option UInt8) :
    ∃ s', turn source filename i before (byteOf c) after s = some (s', false) ∧
      s'.st = .normal ∧ Passes s ([c].count '\n') s' := by
  by_cases hc : c = '\n'
  · subst hc
    have hNot : ∀ start, s.st ≠ .line start := by
      rw [hst]
      intro start hLine
      cases hLine
    exact ⟨_, turn_newline source filename i hNot before after, hst, rfl, rfl⟩
  · have hCount : [c].count '\n' = 0 := by simp [hc]
    have hRegex : ¬(c = '/' ∧ before = some (byteOf '#')) := by
      rintro ⟨rfl, hBefore⟩
      exact hClear hBefore rfl
    rw [hCount]
    by_cases hBlank : c = ' ' ∨ c = '\t' ∨ c = '\r'
    · refine ⟨s, ?_, hst, Passes.refl s⟩
      simp (disch := decide) [turn, hst, byteOf_eq_iff, hc, hSingle, hDouble, hRegex, hBlank]
    · refine ⟨{ s with codeOnLine := true }, ?_, hst, rfl, rfl⟩
      simp (disch := decide) [turn, hst, byteOf_eq_iff, hc, hSingle, hDouble, hRegex, hBlank]

/-- A lexeme of code leaves its lines. -/
theorem walk_code (source : List Char) (filename : String) (i : Nat) {t rest : List Char}
    (h : Code t rest) (hst : s.st = .normal) (hClear : Clear before (t ++ rest)) :
    ∃ before' s', walkChars (turn source filename) i before (t ++ rest) s
        = walkChars (turn source filename) (i + size t) before' rest s' ∧
      s'.st = .normal ∧ Passes s (t.count '\n') s' ∧ Clear before' rest := by
  have hWidth : '\''.utf8Size = 1 ∧ '#'.utf8Size = 1 ∧ '/'.utf8Size = 1 := ⟨rfl, rfl, rfl⟩
  cases h with
  -- a character that begins no string, regex or comment
  | @char c rest hSingle hDouble hHash =>
    obtain ⟨s', hTurn, hst', hPasses⟩ :=
      turn_char source filename i hst hSingle hDouble hClear (rest.head?.map byteOf)
    refine ⟨some (byteOf c), s', ?_, hst', hPasses,
      fun h => hHash ((byteOf_eq_iff (by decide)).mp (Option.some.inj h))⟩
    rw [List.singleton_append, walkChars_next hTurn]
    simp
  | @string body rest hBody hLines =>
    -- a string, to its closing quote; its newlines are counted
    have hOpen : turn source filename i before (byteOf '\'')
        ((body ++ '\'' :: rest).head?.map byteOf) s
        = some ({ s with codeOnLine := true, st := .str }, false) := by
      simp (disch := decide) [turn, hst, byteOf_eq_iff]
    obtain ⟨s', hWalk, hst', hPasses⟩ :=
      walk_quoted source filename (i + 1) (some (byteOf '\'')) rest (.inl ⟨rfl, rfl⟩) hBody
        (s := { s with codeOnLine := true, st := .str }) rfl
    refine ⟨some (byteOf '\''), s', ?_, hst', ?_, .of_ne (by decide)⟩
    · rw [List.cons_append, List.append_assoc, List.singleton_append, walkChars_next hOpen,
        hWidth.1, hWalk]
      congr 1
      simp only [size_cons, size_append, size_nil, hWidth]
      omega
    · have hCount : ('\'' :: (body ++ ['\''])).count '\n' = (exposed body).count '\n' := by
        simp [count_exposed hLines]
      rw [hCount]
      exact ⟨hPasses.pragmas, hPasses.line⟩
  | @regex body rest hBody hLines =>
    -- a regex: the `#` is a character as any other, and the `/` opens it
    have hBefore : Clear before ('#' :: '/' :: (body ++ '/' :: rest)) :=
      fun _ h => absurd (Option.some.inj h) (by decide)
    obtain ⟨s₁, hHash, hst₁, hPasses₁⟩ :=
      turn_char source filename i hst (by decide) (by decide) hBefore
        (('/' :: (body ++ '/' :: rest)).head?.map byteOf)
    have hOpen : turn source filename (i + 1) (some (byteOf '#')) (byteOf '/')
        ((body ++ '/' :: rest).head?.map byteOf) s₁
        = some ({ s₁ with codeOnLine := true, st := .regex }, false) := by
      simp (disch := decide) [turn, hst₁, byteOf_eq_iff]
    obtain ⟨s', hWalk, hst', hPasses⟩ :=
      walk_quoted source filename (i + 1 + 1) (some (byteOf '/')) rest (.inr (.inl ⟨rfl, rfl⟩)) hBody
        (s := { s₁ with codeOnLine := true, st := .regex }) rfl
    refine ⟨some (byteOf '/'), s', ?_, hst', ?_, .of_ne (by decide)⟩
    · rw [List.cons_append, List.cons_append, List.append_assoc, List.singleton_append,
        walkChars_next hHash, hWidth.2.1, walkChars_next hOpen, hWidth.2.2, hWalk]
      congr 1
      simp only [size_cons, size_append, size_nil, hWidth]
      omega
    · have hCount : ('#' :: '/' :: (body ++ ['/'])).count '\n'
          = ['#'].count '\n' + (exposed body).count '\n' := by simp [count_exposed hLines]
      rw [hCount]
      exact hPasses₁.trans ⟨hPasses.pragmas, hPasses.line⟩

/-- A shebang line that is code leaves its lines. -/
theorem walk_plain (source : List Char) (filename : String) (i : Nat) {t rest : List Char}
    (h : PlainText t) (hEnd : EndsLine rest) (hst : s.st = .normal)
    (hClear : Clear before (t ++ rest)) :
    ∃ before' s', walkChars (turn source filename) i before (t ++ rest) s
        = walkChars (turn source filename) (i + size t) before' rest s' ∧
      s'.st = .normal ∧ Passes s (t.count '\n') s' := by
  induction h generalizing i before s with
  | nil => exact ⟨before, s, rfl, hst, Passes.refl s⟩
  | @cons t left hCode _ ih =>
    rw [List.append_assoc] at hClear ⊢
    obtain ⟨before₁, s₁, hWalk, hst₁, hPasses, hClear₁⟩ :=
      walk_code source filename i (hCode.endsLine hEnd) hst hClear
    obtain ⟨before₂, s₂, hWalk', hst₂, hPasses'⟩ := ih (i + size t) hst₁ hClear₁
    refine ⟨before₂, s₂, by rw [hWalk, hWalk', size_append, Nat.add_assoc], hst₂, ?_⟩
    rw [List.count_append]
    exact hPasses.trans hPasses'

/-- What is left to scan at a place, up to the end. -/
def scanFrom (source : List Char) (filename : String) (i : Nat) (before : Option UInt8)
    (rest : List Char) (s : Scan) : Option (List AllowPragma) :=
  (walkChars (turn source filename) i before rest s).bind (finish source filename)

end ScanPragmas

/-- The text is that of a line comment with a pragma. -/
def IsAllow (text : List Char) : Prop := IsLine text ∧ (allowed (text.drop 2)).isSome

instance (text : List Char) : Decidable (IsAllow text) := inferInstanceAs (Decidable (_ ∧ _))

/-- Where a pragma is: its bytes, and its line. -/
def AllowPragma.place (p : AllowPragma) : Nat × Nat × Nat := (p.span.start, p.span.stop, p.line)

namespace ScanPragmas

/-- What closing a line comment reports. -/
theorem closeLineComment_eq (filename : String) {p body rest : List Char}
    (hSource : source = p ++ ('"' :: '*' :: body ++ rest)) (s : Scan) :
    ∃ found, closeLineComment source filename (size p) (size p + size ('"' :: '*' :: body)) s
        = some (s.pragmas ++ found) ∧
      found.map AllowPragma.place
        = if IsAllow ('"' :: '*' :: body)
          then [(size p, size p + size ('"' :: '*' :: body), s.line)] else [] := by
  have hText : slice source (size p) (size p + size ('"' :: '*' :: body))
      = some ('"' :: '*' :: body) := by rw [hSource, slice_append]
  have hBody : slice source (size p + 2) (size p + size ('"' :: '*' :: body)) = some body := by
    have hWidth : '"'.utf8Size = 1 ∧ '*'.utf8Size = 1 := ⟨rfl, rfl⟩
    have hMark : size p + 2 = size (p ++ ['"', '*']) := by
      simp [hWidth]
    have hStop : size p + size ('"' :: '*' :: body) = size (p ++ ['"', '*']) + size body := by
      simp only [size_cons, size_append, size_nil, hWidth]
      omega
    have hSplit : source = p ++ ['"', '*'] ++ (body ++ rest) := by simp [hSource]
    rw [hMark, hStop, hSplit, slice_append]
  have hKnown : IsAllow ('"' :: '*' :: body) ↔ (allowed body).isSome :=
    ⟨fun h => h.2, fun h => ⟨isLine_line body, h⟩⟩
  rw [closeLineComment, hBody, hText, Option.bind_some]
  cases hAllowed : allowed body with
  | none =>
    refine ⟨[], by simp, ?_⟩
    rw [if_neg (by simp [hKnown, hAllowed])]
    rfl
  | some kinds =>
    refine ⟨_, rfl, ?_⟩
    rw [if_pos (by simp [hKnown, hAllowed])]
    rfl

/-- At the end of a line, a line comment is as good as closed. -/
theorem scanFrom_line {stop start : Nat} {rest : List Char} {pragmas : List AllowPragma}
    (hst : s.st = .line start)
    (hClose : closeLineComment source filename start stop s = some pragmas)
    (hLength : rest = [] → (utf8 source).length = stop) (hEnd : EndsLine rest)
    (before : Option UInt8) :
    scanFrom source filename stop before rest s
      = scanFrom source filename stop before rest { s with pragmas, st := .normal } := by
  cases rest with
  | nil => simp [scanFrom, walkChars, finish, hst, hLength rfl, hClose]
  | cons c rest =>
    obtain rfl := hEnd c rfl
    have hLine : turn source filename stop before (byteOf '\n') (rest.head?.map byteOf) s
        = some ({ s with
            pragmas, st := .normal, line := s.line + 1, lineStart := stop + 1,
            codeOnLine := false }, false) := by
      simp [turn, newline, hst, hClose]
    have hNormal := turn_newline source filename stop (s := { s with pragmas, st := .normal })
      (fun _ h => by cases h) before (rest.head?.map byteOf)
    rw [scanFrom, scanFrom, walkChars_next hLine, walkChars_next hNormal]

/-- How many newlines of a comment the scanner does not come by. -/
def hidden (text : List Char) : Nat :=
  if IsLine text then 0 else (escaped (inner text)).count '\n'

theorem hidden_pos_iff (text : List Char) : 0 < hidden text ↔ HidesLine text := by
  rw [hidden, HidesLine]
  split
  · simp_all
  · simp_all [List.count_pos_iff]

/-- A comment without a bare quote is passed over, and reported if it is a pragma. -/
theorem scanFrom_comment (filename : String) {p t rest : List Char} (hText : CommentText t rest)
    (hBare : ¬Bare t) (hSource : source = p ++ (t ++ rest)) (before : Option UInt8)
    (hst : s.st = .normal) :
    ∃ before' s' found, s'.st = .normal ∧ s'.pragmas = s.pragmas ++ found ∧
      found.map AllowPragma.place
        = (if IsAllow t then [(size p, size p + size t, s.line)] else []) ∧
      s'.line + hidden t = s.line + t.count '\n' ∧ Clear before' rest ∧
      scanFrom source filename (size p) before (t ++ rest) s
        = scanFrom source filename (size p + size t) before' rest s' := by
  have hWidth : '"'.utf8Size = 1 ∧ '*'.utf8Size = 1 := ⟨rfl, rfl⟩
  cases hText with
  | @line body rest hBody hEnd =>
    -- the two characters that open it are taken in one turn
    have hOpen : turn source filename (size p) before (byteOf '"') (some (byteOf '*')) s
        = some ({ s with st := .line (size p) }, true) := by
      simp (disch := decide) [turn, hst, byteOf_eq_iff]
    have hKeep : ∀ c ∈ body, ∀ i before after,
        turn source filename i before (byteOf c) after { s with st := .line (size p) }
          = some ({ s with st := .line (size p) }, false) := by
      intro c hc i before after
      have hNot : c ≠ '\n' := fun h => hBody (h ▸ hc)
      simp (disch := decide) [turn, byteOf_eq_iff, hNot]
    obtain ⟨before', hWalk⟩ := walkChars_same hKeep (size p + 2) (some (byteOf '*')) rest
    -- its pragma is found where the line ends
    obtain ⟨found, hClose, hPlace⟩ := closeLineComment_eq filename hSource
      { s with st := .line (size p) }
    have hSize : size p + size ('"' :: '*' :: body) = size p + 2 + size body := by
      simp only [size_cons, hWidth]
      omega
    have hLength : rest = [] → (utf8 source).length = size p + size ('"' :: '*' :: body) := by
      rintro rfl
      simp [hSource]
    have hNoLine : ('"' :: '*' :: body).count '\n' = 0 := by
      simp [List.count_eq_zero_of_not_mem hBody]
    refine ⟨before', { s with pragmas := s.pragmas ++ found, st := .normal }, found, rfl, rfl,
      hPlace, ?_, .of_endsLine _ hEnd, ?_⟩
    · rw [hidden, if_pos (isLine_line body), hNoLine]
    · rw [← scanFrom_line rfl hClose hLength hEnd before', scanFrom, List.cons_append,
        List.cons_append, walkChars_both hOpen, hWidth.1, hWidth.2, hWalk, ← hSize]
      rfl
  | @empty rest =>
    -- an empty comment is closed as it is opened, and hides nothing
    have hOpen : turn source filename (size p) before (byteOf '"') (some (byteOf '"')) s
        = some (s, true) := by
      simp (disch := decide) [turn, hst, byteOf_eq_iff]
    have hNone : ¬IsAllow ['"', '"'] := by decide
    refine ⟨some (byteOf '"'), s, [], hst, by simp, (if_neg hNone).symm, rfl,
      .of_ne (by decide), ?_⟩
    rw [scanFrom, List.cons_append, List.cons_append, walkChars_both hOpen]
    rfl
  | @block c body rest hStar hQuote hLast =>
    -- a block comment is walked as a quoted text, in which an escaped newline is not counted
    have hQuoted : Quoted '"' (c :: body) := by
      refine ⟨fun h => hBare ⟨not_isLine_block hStar _, ?_⟩, not_mem_exposed hLast⟩
      rw [← List.cons_append, inner_block]
      exact h
    have hKind : ¬IsLine ('"' :: c :: (body ++ ['"'])) := not_isLine_block hStar _
    have hOpen : turn source filename (size p) before (byteOf '"')
        ((c :: body ++ '"' :: rest).head?.map byteOf) s
        = some ({ s with st := .block }, false) := by
      simp (disch := decide) [turn, hst, byteOf_eq_iff, hStar, hQuote]
    obtain ⟨s', hWalk, hst', hPasses⟩ :=
      walk_quoted source filename (size p + 1) (some (byteOf '"')) rest (.inr (.inr ⟨rfl, rfl⟩))
        hQuoted (s := { s with st := .block }) rfl
    refine ⟨some (byteOf '"'), s', [], hst', by simp [hPasses.pragmas],
      (if_neg fun h => hKind h.1).symm, ?_, .of_ne (by decide), ?_⟩
    · have hAll : ('"' :: c :: (body ++ ['"'])).count '\n' = (c :: body).count '\n' := by
        rw [← List.cons_append, List.count_cons, List.count_append]
        simp
      have hLines : s'.line = s.line + (exposed (c :: body)).count '\n' := hPasses.line
      rw [hidden, if_neg hKind, ← List.cons_append, inner_block, List.cons_append, hAll,
        ← count_exposed_add_escaped (by decide) (c :: body), hLines, Nat.add_assoc]
    · have hAll : '"' :: c :: (body ++ ['"']) ++ rest = '"' :: (c :: body ++ '"' :: rest) := by simp
      have hSize : size p + size ('"' :: c :: (body ++ ['"']))
          = size p + 1 + (size (c :: body) + 1) := by
        simp only [size_cons, size_append, size_nil, hWidth]
        omega
      rw [hAll, scanFrom, walkChars_next hOpen, hWidth.1, hWalk, ← hSize]
      rfl

end ScanPragmas

/-- How many newlines come before a byte. -/
def newlinesBefore (source : List Char) (n : Nat) : Nat :=
  ((utf8 source).take n).count (byteOf '\n')

theorem newlinesBefore_append (p t : List Char) :
    newlinesBefore (p ++ t) (size p) = p.count '\n' := by
  rw [newlinesBefore, utf8_append, ← length_utf8, List.take_left, count_utf8 (by decide)]

/-- Where the pragma of a comment of the parse is. -/
def placeOf (source : List Char) (q : Pair Rule) : Nat × Nat × Nat :=
  (q.start, q.stop, 1 + newlinesBefore source q.start)

/-- The comments of the parse that are pragmas. -/
def allowComments (pairs : List (Pair Rule)) : List (Pair Rule) :=
  (comments pairs).filter (IsAllow ·.text)

theorem allowComments_eq_nil {pairs : List (Pair Rule)} :
    allowComments pairs = [] ↔ ∀ q ∈ comments pairs, ¬IsAllow q.text := by
  simp [allowComments]

theorem allowComments_comment (start stop : Nat) (text : List Char) (pairs : List (Pair Rule)) :
    allowComments (⟨.COMMENT, start, stop, text⟩ :: pairs)
      = if IsAllow text then ⟨.COMMENT, start, stop, text⟩ :: allowComments pairs
        else allowComments pairs := by
  simp [allowComments, List.filter_cons]

/-- No pragma comes after a block comment that hides a newline from the scanner. -/
def LinesKept (pairs : List (Pair Rule)) : Prop :=
  (comments pairs).Pairwise fun q r => HidesLine q.text → ¬IsAllow r.text

instance (pairs : List (Pair Rule)) : Decidable (LinesKept pairs) :=
  inferInstanceAs (Decidable (List.Pairwise _ _))

theorem linesKept_comment {start stop : Nat} {text : List Char} {pairs : List (Pair Rule)} :
    LinesKept (⟨.COMMENT, start, stop, text⟩ :: pairs) ↔
      (HidesLine text → allowComments pairs = []) ∧ LinesKept pairs := by
  rw [LinesKept, comments_comment, List.pairwise_cons, allowComments_eq_nil]
  exact and_congr_left fun _ =>
    ⟨fun h hHides q hq => h q hq hHides, fun h q hq hHides => h hHides q hq⟩

namespace ScanPragmas

/-- Scanning a row of lexemes without bare quotes up to the end reports its pragmas, and all of
their lines right if and only if none comes after a newline that the scanner did not come by. -/
theorem scan_iff (filename : String) {cur last : Cursor} {ps : List (Pair Rule)}
    (h : Lexes cur ps last) (hLast : last.rest = []) (hPlain : ∀ p ∈ ps, p.rule = .shebang → PlainText p.text)
    (hBare : ∀ p ∈ comments ps, ¬Bare p.text) {p : List Char} (hSource : source = p ++ cur.rest)
    (hPos : cur.pos = size p) {s : Scan} (hst : s.st = .normal) {before : Option UInt8}
    (hClear : Clear before cur.rest) {missed : Nat} (hLine : s.line + missed = 1 + p.count '\n') :
    ∃ found, scanFrom source filename cur.pos before cur.rest s = some (s.pragmas ++ found) ∧
      (found.map AllowPragma.place = (allowComments ps).map (placeOf source) ↔
        (0 < missed → allowComments ps = []) ∧ LinesKept ps) := by
  -- on the tokens: code, a comment, or the shebang line
  induction h generalizing p before s missed with
  | done cur =>
    refine ⟨[], ?_, ?_⟩
    · simp [scanFrom, hLast, walkChars, finish, hst]
    · simp [allowComments, LinesKept, comments]
  | @code cur t mid ps last hCode hMove _ ih =>
    rw [hMove.rest] at hSource hClear ⊢
    obtain ⟨before', s', hWalk, hst', hPasses, hClear'⟩ :=
      walk_code source filename cur.pos hCode hst hClear
    -- `missed` is how many newlines the scanner has not counted
    have hLine' : s'.line + missed = 1 + (p ++ t).count '\n' := by
      rw [hPasses.line, List.count_append]
      omega
    obtain ⟨found, hScan, hIff⟩ := ih hLast hPlain hBare (p := p ++ t) (by simp [hSource])
      (by simp [hMove.pos, hPos]) hst' hClear' hLine'
    refine ⟨found, ?_, hIff⟩
    rw [scanFrom, hWalk, ← hMove.pos, ← hPasses.pragmas]
    exact hScan
  | @comment cur t mid ps last hText hMove _ ih =>
    have hTail := (List.forall_mem_cons.mp hPlain).2
    rw [comments_comment] at hBare
    obtain ⟨hBareHead, hBareTail⟩ := List.forall_mem_cons.mp hBare
    have hStop : mid.pos = size p + size t := by rw [hMove.pos, hPos]
    rw [hMove.rest] at hSource ⊢
    obtain ⟨before', s', found, hst', hPragmas, hPlace, hLines, hClear', hScan⟩ :=
      scanFrom_comment filename hText hBareHead hSource before hst
    -- it will be more by those that this comment hides
    have hLine' : s'.line + (missed + hidden t) = 1 + (p ++ t).count '\n' := by
      rw [List.count_append]
      omega
    obtain ⟨found', hScan', hIff⟩ := ih hLast hTail hBareTail (p := p ++ t) (by simp [hSource])
      (by simp [hStop]) hst' hClear' hLine'
    refine ⟨found ++ found', ?_, ?_⟩
    · rw [hPos, hScan, ← hStop, hScan', hPragmas, List.append_assoc]
    · have hLines' := newlinesBefore_append p (t ++ mid.rest)
      rw [← hSource] at hLines'
      have hHides := hidden_pos_iff t
      rw [List.map_append, hPlace, allowComments_comment, linesKept_comment, hPos, hStop]
      split
      · rename_i hAllow
        have hHidden : hidden t = 0 := if_pos hAllow.1
        rw [List.singleton_append, List.map_cons, List.cons.injEq, hIff, placeOf, hLines']
        have hRight : s.line = 1 + p.count '\n' ↔ missed = 0 := by omega
        simp only [Prod.mk.injEq, true_and, hRight, ← hHides, hHidden]
        cases missed <;> simp
      · rw [List.nil_append, hIff, ← hHides, Nat.add_pos_iff_pos_or_pos, or_imp, and_assoc]
  | @shebang cur t mid ps last hText hMove _ ih =>
    obtain ⟨hHead, hTail⟩ := List.forall_mem_cons.mp hPlain
    have hCode : PlainText t := hHead rfl
    rw [hMove.rest] at hSource hClear ⊢
    have hEnd : EndsLine mid.rest := by
      cases hText with
      | line _ hEnd => exact hEnd
    obtain ⟨before', s', hWalk, hst', hPasses⟩ :=
      walk_plain source filename cur.pos hCode hEnd hst hClear
    have hLine' : s'.line + missed = 1 + (p ++ t).count '\n' := by
      rw [hPasses.line, List.count_append]
      omega
    obtain ⟨found, hScan, hIff⟩ := ih hLast hTail hBare (p := p ++ t) (by simp [hSource])
      (by simp [hMove.pos, hPos]) hst' (.of_endsLine before' hEnd) hLine'
    refine ⟨found, ?_, hIff⟩
    rw [scanFrom, hWalk, ← hMove.pos, ← hPasses.pragmas]
    exact hScan

end ScanPragmas

open ScanPragmas in
/-- What `scan_iff` says of the whole of a source. -/
theorem scanAllowPragmas_iff {source : List Char} (filename : String) {pairs : List (Pair Rule)}
    {last : Cursor} (h : Lexes ⟨0, source⟩ pairs last) (hLast : last.rest = [])
    (hPlain : ∀ p ∈ pairs, p.rule = .shebang → PlainText p.text)
    (hBare : ∀ p ∈ comments pairs, ¬Bare p.text) :
    ∃ found, scanAllowPragmas source filename = some found ∧
      (found.map AllowPragma.place = (allowComments pairs).map (placeOf source) ↔
        LinesKept pairs) := by
  have hClear : Clear none source := fun hNone => by cases hNone
  have hLine : 1 + 0 = 1 + ([] : List Char).count '\n' := rfl
  obtain ⟨found, hScan, hIff⟩ := scan_iff filename h hLast hPlain hBare (p := []) rfl rfl
    (s := ⟨[], .normal, 1, 0, false⟩) rfl hClear hLine
  refine ⟨found, ?_, hIff.trans (and_iff_right fun hLess => absurd hLess (Nat.lt_irrefl 0))⟩
  rw [scanAllowPragmas, (blind source filename).walk_utf8]
  exact hScan

end Quoin.Text
