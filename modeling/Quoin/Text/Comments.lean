import Mathlib
import Quoin.Text.Lexes

/-!
# Quoin — the scanner of comments

`scanComments` finds the comments of a source again in its bytes. It knows
strings, regexes and the two kinds of comment, and takes the byte after a
backslash with it in all of them but a line comment.

On a row of lexemes whose shebang line is code like any other, it returns the
comments among them if and only if no block comment has a quote inside that an
even number of backslashes stands before (`scan_iff`): there the grammar goes by
the one backslash right before the quote, and the scanner ends the comment.
-/

namespace Quoin.Text

open Trans Trans.Peg

inductive CommentKind where
  | line
  | block
  deriving DecidableEq

structure Comment where
  start : Nat
  stop : Nat
  kind : CommentKind
  text : List Char
  deriving DecidableEq

namespace ScanComments

inductive St where
  | normal
  | str
  | regex
  | line
  | block
  deriving DecidableEq

structure Scan where
  comments : List Comment
  st : St
  start : Nat
  deriving DecidableEq

/-- The body of the `while`. Here `none` is a slice off the boundaries of characters. -/
def turn (source : List Char) : Visit Scan := fun i before c after s =>
  match s.st with
  | .normal =>
    if c = byteOf '\'' then some ({ s with st := .str }, false)
    else if c = byteOf '"' then
      if after = some (byteOf '*') then some ({ s with st := .line, start := i }, true)
      else if after = some (byteOf '"') then
        (slice source i (i + 2)).map fun text =>
          ({ s with comments := s.comments ++ [⟨i, i + 2, .block, text⟩] }, true)
      else some ({ s with st := .block, start := i }, false)
    else if c = byteOf '/' ∧ before = some (byteOf '#') then some ({ s with st := .regex }, false)
    else some (s, false)
  | .str =>
    if c = byteOf '\\' then some (s, true)
    else if c = byteOf '\'' then some ({ s with st := .normal }, false)
    else some (s, false)
  | .regex =>
    if c = byteOf '\\' then some (s, true)
    else if c = byteOf '/' then some ({ s with st := .normal }, false)
    else some (s, false)
  | .line =>
    if c = byteOf '\n' then
      (slice source s.start i).map fun text =>
        ({ s with comments := s.comments ++ [⟨s.start, i, .line, text⟩], st := .normal }, false)
    else some (s, false)
  | .block =>
    if c = byteOf '\\' then some (s, true)
    else if c = byteOf '"' then
      (slice source s.start (i + 1)).map fun text =>
        ({ s with comments := s.comments ++ [⟨s.start, i + 1, .block, text⟩], st := .normal },
          false)
    else some (s, false)

/-- A line comment with no newline after it goes to the end. -/
def finish (source : List Char) (s : Scan) : Option (List Comment) :=
  if s.st = .line then
    (slice source s.start (utf8 source).length).map fun text =>
      s.comments ++ [⟨s.start, (utf8 source).length, .line, text⟩]
  else some s.comments

end ScanComments

open ScanComments in
def scanComments (source : List Char) : Option (List Comment) :=
  (walk (turn source) 0 none (utf8 source) ⟨[], .normal, 0⟩).bind (finish source)

namespace ScanComments

variable {source : List Char} {s s' : Scan} {before : Option UInt8} {i : Nat}

theorem blind (source : List Char) : Blind (turn source) id where
  dim i before b after s := by
    simp (disch := decide) only [turn, dim_eq_iff, map_dim_eq_iff]
  again _ := rfl
  consumed _ _ _ _ _ _ := rfl
  high i before after s := by
    obtain ⟨comments, st, start⟩ := s
    cases st <;> simp (disch := decide) [turn, byteOf_ne_high]

/-! ## The lexemes -/

/-- Where an escape may stand: the state, and the character that ends it. -/
def Ends (st : St) (q : Char) : Prop :=
  (st = .str ∧ q = '\'') ∨ (st = .regex ∧ q = '/') ∨ (st = .block ∧ q = '"')

theorem carries (source : List Char) (s : Scan) {q : Char} (h : Ends s.st q) :
    Carries (turn source) q fun _ s' => s' = s := by
  constructor
  · rintro i before after n _ rfl
    obtain ⟨hst, -⟩ | ⟨hst, -⟩ | ⟨hst, -⟩ := h <;> simp [turn, hst]
  · rintro i before c after n s' hq hBack rfl
    refine ⟨s', ?_, rfl⟩
    obtain ⟨hst, rfl⟩ | ⟨hst, rfl⟩ | ⟨hst, rfl⟩ := h <;>
      simp (disch := decide) [turn, hst, byteOf_eq_iff, hq, hBack]

theorem walk_quoted {st : St} {q : Char} {body rest : List Char} (h : Ends st q)
    (hBlock : st ≠ .block) (hBody : Quoted q body) (hst : s.st = .normal) :
    walkChars (turn source) i before (body ++ q :: rest) { s with st }
      = walkChars (turn source) (i + (size body + 1)) (some (byteOf q)) rest s := by
  have hSize : q.utf8Size = 1 := by obtain ⟨-, rfl⟩ | ⟨-, rfl⟩ | ⟨-, rfl⟩ := h <;> rfl
  obtain ⟨s', hWalk, hSame⟩ := (carries source { s with st } h).walkChars_close
    hBody (n := 0) rfl i rest (C := (· = s))
    (by
      rintro before' s' rfl
      refine ⟨s, ?_, rfl⟩
      obtain ⟨comments, st', start⟩ := s
      cases hst
      obtain ⟨rfl, rfl⟩ | ⟨rfl, rfl⟩ | ⟨rfl, rfl⟩ := h
      · simp (disch := decide) [turn, byteOf_eq_iff]
      · simp (disch := decide) [turn, byteOf_eq_iff]
      · exact absurd rfl hBlock)
    before
  rw [hWalk, hSame, hSize]

/-- A lexeme of code changes nothing. -/
theorem walk_code {t rest : List Char} (h : Code t rest) (hst : s.st = .normal)
    (hClear : Clear before (t ++ rest)) :
    ∃ before', walkChars (turn source) i before (t ++ rest) s
        = walkChars (turn source) (i + size t) before' rest s ∧ Clear before' rest := by
  cases h with
  | @char c rest hSingle hDouble hHash =>
    refine ⟨some (byteOf c), ?_,
      fun h => hHash ((byteOf_eq_iff (by decide)).mp (Option.some.inj h))⟩
    have hTurn : turn source i before (byteOf c) (rest.head?.map byteOf) s = some (s, false) := by
      have hRegex : ¬(c = '/' ∧ before = some (byteOf '#')) := by
        rintro ⟨rfl, hBefore⟩
        exact hClear hBefore rfl
      simp (disch := decide) [turn, hst, byteOf_eq_iff, hSingle, hDouble, hRegex]
    rw [List.singleton_append, walkChars_next hTurn]
    simp
  | @string body rest hBody hLines =>
    refine ⟨some (byteOf '\''), ?_, .of_ne (by decide)⟩
    have hOpen : turn source i before (byteOf '\'') ((body ++ '\'' :: rest).head?.map byteOf) s
        = some ({ s with st := .str }, false) := by simp [turn, hst]
    rw [List.cons_append, List.append_assoc, List.singleton_append, walkChars_next hOpen,
      walk_quoted (.inl ⟨rfl, rfl⟩) (by decide) hBody hst]
    simp [Nat.add_assoc, show '\''.utf8Size = 1 from rfl]
  | @regex body rest hBody hLines =>
    refine ⟨some (byteOf '/'), ?_, .of_ne (by decide)⟩
    have hHash : turn source i before (byteOf '#')
        (('/' :: (body ++ '/' :: rest)).head?.map byteOf) s = some (s, false) := by
      simp (disch := decide) [turn, hst, byteOf_eq_iff]
    have hOpen : turn source (i + 1) (some (byteOf '#')) (byteOf '/')
        ((body ++ '/' :: rest).head?.map byteOf) s = some ({ s with st := .regex }, false) := by
      simp (disch := decide) [turn, hst, byteOf_eq_iff]
    have hWidth : '#'.utf8Size = 1 ∧ '/'.utf8Size = 1 := ⟨rfl, rfl⟩
    rw [List.cons_append, List.cons_append, List.append_assoc, List.singleton_append,
      walkChars_next hHash, hWidth.1, walkChars_next hOpen,
      walk_quoted (.inr (.inl ⟨rfl, rfl⟩)) (by decide) hBody hst]
    congr 1
    simp only [size_cons, size_append, size_nil, hWidth]
    omega

/-- A shebang line that is code changes nothing. -/
theorem walk_plain (source : List Char) (i : Nat) {t rest : List Char} (h : PlainText t)
    (hEnd : EndsLine rest)
    (hst : s.st = .normal) (hClear : Clear before (t ++ rest)) :
    ∃ before', walkChars (turn source) i before (t ++ rest) s
      = walkChars (turn source) (i + size t) before' rest s := by
  induction h generalizing i before with
  | nil => exact ⟨before, rfl⟩
  | @cons t left hCode _ ih =>
    rw [List.append_assoc] at hClear ⊢
    obtain ⟨before₁, hWalk, hClear₁⟩ := walk_code (hCode.endsLine hEnd) hst hClear
    obtain ⟨before₂, hWalk'⟩ := ih (i + size t) hClear₁
    exact ⟨before₂, by rw [hWalk, hWalk', size_append, Nat.add_assoc]⟩

/-- What is left to scan at a place, up to the end. -/
def scanFrom (source : List Char) (i : Nat) (before : Option UInt8) (rest : List Char) (s : Scan) :
    Option (List Comment) :=
  (walkChars (turn source) i before rest s).bind (finish source)

/-- At the end of a line, a line comment is as good as reported. -/
theorem scanFrom_line {p t rest : List Char} (hSource : source = p ++ (t ++ rest))
    (hEnd : EndsLine rest) (before : Option UInt8) (comments : List Comment) :
    scanFrom source (size p + size t) before rest ⟨comments, .line, size p⟩
      = scanFrom source (size p + size t) before rest
        ⟨comments ++ [⟨size p, size p + size t, .line, t⟩], .normal, size p⟩ := by
  have hSlice : slice source (size p) (size p + size t) = some t := by
    rw [hSource, slice_append]
  cases rest with
  | nil =>
    have hLength : (utf8 source).length = size p + size t := by simp [hSource]
    simp [scanFrom, walkChars, finish, hLength, hSlice]
  | cons c rest =>
    obtain rfl := hEnd c rfl
    have hClose : turn source (size p + size t) before (byteOf '\n') (rest.head?.map byteOf)
        ⟨comments, .line, size p⟩
        = some (⟨comments ++ [⟨size p, size p + size t, .line, t⟩], .normal, size p⟩, false) := by
      simp [turn, hSlice]
    have hPass : turn source (size p + size t) before (byteOf '\n') (rest.head?.map byteOf)
        ⟨comments ++ [⟨size p, size p + size t, .line, t⟩], .normal, size p⟩
        = some (⟨comments ++ [⟨size p, size p + size t, .line, t⟩], .normal, size p⟩, false) := by
      simp (disch := decide) [turn, byteOf_eq_iff]
    rw [scanFrom, scanFrom, walkChars_next hClose, walkChars_next hPass]

/-- No turn takes a comment back. -/
theorem prefix_of_turn {c : UInt8} {after : Option UInt8} {both : Bool}
    (h : turn source i before c after s = some (s', both)) : s.comments <+: s'.comments := by
  obtain ⟨comments, st, start⟩ := s
  cases st <;> simp only [turn] at h <;> split_ifs at h <;>
    first
    | (cases h; exact List.prefix_rfl)
    | (obtain ⟨text, -, hOut⟩ := Option.map_eq_some_iff.mp h
       cases hOut
       exact List.prefix_append _ _)

theorem prefix_of_walk {rest : List Char}
    (h : walkChars (turn source) i before rest s = some s') : s.comments <+: s'.comments := by
  fun_induction walkChars (turn source) i before rest s with
  | case1 =>
    cases h
    exact List.prefix_rfl
  | case2 => cases h
  | case3 _ _ _ _ _ _ hTurn ih => exact (prefix_of_turn hTurn).trans (ih h)
  | case4 _ _ _ _ _ hTurn =>
    cases h
    exact prefix_of_turn hTurn
  | case5 _ _ _ _ _ _ _ hTurn ih => exact (prefix_of_turn hTurn).trans (ih h)

theorem prefix_of_scanFrom {rest : List Char} {comments : List Comment}
    (h : scanFrom source i before rest s = some comments) : s.comments <+: comments := by
  obtain ⟨s', hWalk, hFinish⟩ := Option.bind_eq_some_iff.mp h
  refine (prefix_of_walk hWalk).trans ?_
  rw [finish] at hFinish
  split at hFinish
  · obtain ⟨text, -, rfl⟩ := Option.map_eq_some_iff.mp hFinish
    exact List.prefix_append _ _
  · cases hFinish
    exact List.prefix_rfl

end ScanComments

/-- The comment that a scanner should report of a comment of the parse. -/
def Comment.ofPair (p : Pair Rule) : Comment :=
  ⟨p.start, p.stop, if IsLine p.text then .line else .block, p.text⟩

namespace ScanComments

/-- A quote that begins no line comment and no empty one opens a block comment. -/
theorem scanFrom_open {c : Char} {rest : List Char} (hStar : c ≠ '*') (hQuote : c ≠ '"')
    (hst : s.st = .normal) :
    scanFrom source i before ('"' :: c :: rest) s
      = scanFrom source (i + 1) (some (byteOf '"')) (c :: rest) ⟨s.comments, .block, i⟩ := by
  have hOpen : turn source i before (byteOf '"') ((c :: rest).head?.map byteOf) s
      = some (⟨s.comments, .block, i⟩, false) := by
    simp (disch := decide) [turn, hst, byteOf_eq_iff, hStar, hQuote]
  have hWidth : '"'.utf8Size = 1 := rfl
  rw [scanFrom, walkChars_next hOpen, hWidth]
  rfl

/-- The first quote that an even number of backslashes stands before closes it. -/
theorem scanFrom_block {p body rest : List Char} (hBody : Quoted '"' body)
    (hSource : source = p ++ ('"' :: (body ++ ['"']) ++ rest)) (comments : List Comment) :
    scanFrom source (size p + 1) before (body ++ '"' :: rest) ⟨comments, .block, size p⟩
      = scanFrom source (size p + size ('"' :: (body ++ ['"']))) (some (byteOf '"')) rest
        ⟨comments ++ [⟨size p, size p + size ('"' :: (body ++ ['"'])), .block,
          '"' :: (body ++ ['"'])⟩], .normal, size p⟩ := by
  have hWidth : '"'.utf8Size = 1 := rfl
  have hSize : size p + size ('"' :: (body ++ ['"'])) = size p + 1 + size body + 1 := by
    simp only [size_cons, size_append, size_nil, hWidth]
    omega
  have hSlice : slice source (size p) (size p + 1 + size body + 1)
      = some ('"' :: (body ++ ['"'])) := by rw [← hSize, hSource, slice_append]
  obtain ⟨s', hWalk, rfl⟩ := (carries source ⟨comments, .block, size p⟩
      (.inr (.inr ⟨rfl, rfl⟩))).walkChars_close hBody (n := 0) rfl (size p + 1) rest
    (C := (· = ⟨comments ++ [⟨size p, size p + 1 + size body + 1, .block,
      '"' :: (body ++ ['"'])⟩], .normal, size p⟩))
    (by
      rintro before' s' rfl
      refine ⟨_, ?_, rfl⟩
      simp (disch := decide) [turn, byteOf_eq_iff, hSlice])
    before
  rw [scanFrom, hWalk, hSize, hWidth, ← Nat.add_assoc]
  rfl

/-- A comment without a bare quote is reported as it is. -/
theorem scanFrom_comment {p t rest : List Char} (hText : CommentText t rest) (hBare : ¬Bare t)
    (hSource : source = p ++ (t ++ rest)) (before : Option UInt8) (hst : s.st = .normal) :
    ∃ before' s', s'.st = .normal ∧
      s'.comments = s.comments ++ [.ofPair ⟨.COMMENT, size p, size p + size t, t⟩] ∧
      Clear before' rest ∧
      scanFrom source (size p) before (t ++ rest) s
        = scanFrom source (size p + size t) before' rest s' := by
  cases hText with
  | @line body rest hBody hEnd =>
    -- the two characters that open it are taken in one turn
    have hOpen : turn source (size p) before (byteOf '"') (some (byteOf '*')) s
        = some (⟨s.comments, .line, size p⟩, true) := by
      simp (disch := decide) [turn, hst, byteOf_eq_iff]
    have hKeep : ∀ c ∈ body, ∀ i before after,
        turn source i before (byteOf c) after ⟨s.comments, .line, size p⟩
          = some (⟨s.comments, .line, size p⟩, false) := by
      intro c hc i before after
      have hNot : c ≠ '\n' := fun h => hBody (h ▸ hc)
      simp (disch := decide) [turn, byteOf_eq_iff, hNot]
    -- to the end of the line nothing ends it
    obtain ⟨before', hWalk⟩ := walkChars_same hKeep (size p + 2) (some (byteOf '*')) rest
    refine ⟨before', ⟨s.comments ++ [.ofPair ⟨.COMMENT, size p,
      size p + size ('"' :: '*' :: body), '"' :: '*' :: body⟩], .normal, size p⟩, rfl, rfl,
      .of_endsLine _ hEnd, ?_⟩
    have hWidth : '"'.utf8Size = 1 ∧ '*'.utf8Size = 1 := ⟨rfl, rfl⟩
    have hSize : size p + size ('"' :: '*' :: body) = size p + 2 + size body := by
      simp only [size_cons, hWidth]
      omega
    have hLine := scanFrom_line hSource hEnd before' s.comments
    rw [scanFrom, List.cons_append, List.cons_append, walkChars_both hOpen, hWidth.1, hWidth.2,
      hWalk, ← hSize]
    exact hLine
  | @empty rest =>
    -- an empty comment is closed as it is opened
    have hSlice : slice source (size p) (size p + 2) = some ['"', '"'] := by
      rw [hSource]
      exact slice_append p ['"', '"'] rest
    have hOpen : turn source (size p) before (byteOf '"') (some (byteOf '"')) s
        = some ({ s with comments := s.comments ++ [⟨size p, size p + 2, .block, ['"', '"']⟩] },
          true) := by
      simp (disch := decide) [turn, hst, byteOf_eq_iff, hSlice]
    refine ⟨some (byteOf '"'), { s with comments := s.comments ++ [.ofPair ⟨.COMMENT, size p,
      size p + size ['"', '"'], ['"', '"']⟩] }, hst, rfl, .of_ne (by decide), ?_⟩
    rw [scanFrom, List.cons_append, List.cons_append, walkChars_both hOpen]
    rfl
  | @block c body rest hStar hQuote hLast =>
    -- without a bare quote the block ends where the grammar says
    have hQuoted : Quoted '"' (c :: body) := by
      refine ⟨fun h => hBare ⟨not_isLine_block hStar _, ?_⟩, not_mem_exposed hLast⟩
      rw [← List.cons_append, inner_block]
      exact h
    have hKind : ¬IsLine ('"' :: c :: (body ++ ['"'])) := not_isLine_block hStar _
    refine ⟨some (byteOf '"'), ⟨s.comments ++ [.ofPair ⟨.COMMENT, size p,
      size p + size ('"' :: c :: (body ++ ['"'])), '"' :: c :: (body ++ ['"'])⟩], .normal, size p⟩,
      rfl, rfl, .of_ne (by decide), ?_⟩
    have hAll : '"' :: c :: (body ++ ['"']) ++ rest = '"' :: c :: (body ++ '"' :: rest) := by simp
    rw [hAll, scanFrom_open hStar hQuote hst, ← List.cons_append, scanFrom_block hQuoted hSource,
      Comment.ofPair, if_neg hKind]
    rfl

/-- Of a comment with a bare quote, only a part is reported. -/
theorem scanFrom_bare {p t rest : List Char} {comments : List Comment}
    (hText : CommentText t rest) (hBare : Bare t) (hSource : source = p ++ (t ++ rest))
    (hst : s.st = .normal) (h : scanFrom source (size p) before (t ++ rest) s = some comments) :
    ∃ c : Comment, c.stop < size p + size t ∧ s.comments ++ [c] <+: comments := by
  cases hText with
  | line => exact absurd (isLine_line _) hBare.1
  | empty => exact absurd hBare (by decide)
  | @block c body rest hStar hQuote hLast =>
    have hInside := hBare.2
    rw [← List.cons_append, inner_block] at hInside
    obtain ⟨q, left, hBody, hQuoted⟩ := exists_quoted hInside
    obtain ⟨d, q, rfl⟩ : ∃ d q', q = d :: q' := by
      cases q with
      | nil => exact absurd (List.cons.inj hBody).1 hQuote
      | cons d q => exact ⟨d, q, rfl⟩
    obtain ⟨rfl, hRest⟩ := List.cons.inj hBody
    have hBody' : body = q ++ '"' :: left := hRest
    have hAll : '"' :: c :: (body ++ ['"']) ++ rest
        = '"' :: (c :: q ++ ['"']) ++ (left ++ '"' :: rest) := by simp [hBody']
    have hOpened : '"' :: (c :: q ++ ['"']) ++ (left ++ '"' :: rest)
        = '"' :: c :: (q ++ '"' :: (left ++ '"' :: rest)) := by simp
    rw [hAll] at hSource h
    rw [hOpened, scanFrom_open hStar hQuote hst, ← List.cons_append,
      scanFrom_block hQuoted hSource] at h
    refine ⟨_, ?_, prefix_of_scanFrom h⟩
    have hWidth : '"'.utf8Size = 1 := rfl
    simp only [hBody', size_cons, size_append, size_nil, hWidth]
    omega

/-- Scanning a row of lexemes up to the end returns its comments if and only if none of them has a
bare quote. -/
theorem scan_iff {cur last : Cursor} {ps : List (Pair Rule)} (h : Lexes cur ps last)
    (hLast : last.rest = []) (hPlain : ∀ p ∈ ps, p.rule = .shebang → PlainText p.text)
    {p : List Char} (hSource : source = p ++ cur.rest) (hPos : cur.pos = size p) {s : Scan}
    (hst : s.st = .normal) {before : Option UInt8} (hClear : Clear before cur.rest) :
    scanFrom source cur.pos before cur.rest s
        = some (s.comments ++ (comments ps).map .ofPair) ↔ ∀ p ∈ comments ps, ¬Bare p.text := by
  induction h generalizing p before s with
  | done cur =>
    simp [scanFrom, hLast, walkChars, finish, hst, comments]
  | @code cur t mid ps last hCode hMove _ ih =>
    -- code: the walk goes over it and stays in the normal state
    rw [hMove.rest] at hSource hClear ⊢
    obtain ⟨before', hWalk, hClear'⟩ := walk_code hCode hst hClear
    have hNext := ih hLast hPlain (p := p ++ t) (by simp [hSource]) (by simp [hMove.pos, hPos]) hst
      hClear'
    rw [scanFrom, hWalk, ← hMove.pos]
    exact hNext
  | @comment cur t mid ps last hText hMove _ ih =>
    -- a comment: a bare one is lost, and any other is one entry
    have hTail := (List.forall_mem_cons.mp hPlain).2
    have hStop : mid.pos = size p + size t := by rw [hMove.pos, hPos]
    rw [hMove.rest] at hSource ⊢
    rw [hPos, hStop, comments_comment, List.map_cons, List.forall_mem_cons]
    by_cases hBare : Bare t
    · refine iff_of_false (fun hScan => ?_) fun hAll => hAll.1 hBare
      obtain ⟨c, hShort, hPrefix⟩ := scanFrom_bare hText hBare hSource hst hScan
      rw [List.prefix_append_right_inj, List.cons_prefix_cons] at hPrefix
      rw [hPrefix.1] at hShort
      exact Nat.lt_irrefl _ hShort
    · obtain ⟨before', s', hst', hComments, hClear', hScan⟩ :=
        scanFrom_comment hText hBare hSource before hst
      have hNext := ih hLast hTail (p := p ++ t) (by simp [hSource]) (by simp [hStop]) hst' hClear'
      rw [hComments, List.append_assoc, List.singleton_append, hStop] at hNext
      rw [hScan, hNext]
      exact ⟨fun hAll => ⟨hBare, hAll⟩, fun hAll => hAll.2⟩
  | @shebang cur t mid ps last hText hMove _ ih =>
    -- the shebang is walked over as if it were code
    obtain ⟨hHead, hTail⟩ := List.forall_mem_cons.mp hPlain
    rw [hMove.rest] at hSource hClear ⊢
    have hEnd : EndsLine mid.rest := by
      cases hText with
      | line _ hEnd => exact hEnd
    obtain ⟨before', hWalk⟩ :=
      walk_plain source cur.pos (hHead rfl) hEnd hst hClear
    have hNext := ih hLast hTail (p := p ++ t) (by simp [hSource]) (by simp [hMove.pos, hPos]) hst
      (.of_endsLine before' hEnd)
    rw [scanFrom, hWalk, ← hMove.pos, comments_shebang]
    exact hNext

end ScanComments

open ScanComments in
/-- What `scan_iff` says of the whole of a source. -/
theorem scanComments_iff {source : List Char} {pairs : List (Pair Rule)} {last : Cursor}
    (h : Lexes ⟨0, source⟩ pairs last) (hLast : last.rest = [])
    (hPlain : ∀ p ∈ pairs, p.rule = .shebang → PlainText p.text) :
    scanComments source = some ((comments pairs).map .ofPair) ↔
      ∀ p ∈ comments pairs, ¬Bare p.text := by
  have hClear : Clear none source := fun hNone => by cases hNone
  have hScan := scan_iff h hLast hPlain (p := []) rfl rfl (s := ⟨[], .normal, 0⟩) rfl hClear
  rw [scanComments, (blind source).walk_utf8]
  exact hScan

end Quoin.Text
