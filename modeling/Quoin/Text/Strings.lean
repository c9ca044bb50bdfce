import Mathlib
import Quoin.Text.Symbols
import Quoin.Pretty.Doc

/-!
# Quoin — strings that read back

The pretty printer writes a string between quotes, with escapes for quotes, backslashes
and three of the control characters (`Pretty.quote`). Wherever an expression may stand,
the grammar reads such a text to its closing quote and no further, and `unescape` makes
the string of it again: a backslash of the string comes doubled, so what stands behind
it is never taken for a part of an escape.

## Results

* `quote_reads_back` — every string, quoted, is one literal of the grammar and unescapes to the
  string.
-/

namespace Quoin.Text

open Trans Trans.Peg Trans.Peg.Expr
open Pretty (quote quoteChar)

/-! ## The node of a string -/

def isHexDigit (c : Char) : Bool :=
  ('0' ≤ c && c ≤ '9') || ('a' ≤ c && c ≤ 'f') || ('A' ≤ c && c ≤ 'F')

def hexDigit (c : Char) : Nat :=
  if c ≤ '9' then c.toNat - '0'.toNat
  else if c ≤ 'F' then c.toNat - 'A'.toNat + 10
  else c.toNat - 'a'.toNat + 10

/-- `unicode_from_hex`. -/
def unicodeFromHex (hex : List Char) : Option Char :=
  let n := hex.foldl (fun n c => 16 * n + hexDigit c) 0
  if n.isValidChar then some (Char.ofNat n) else none

/-- The character that an escape of two characters stands for. -/
def escaped (c : Char) : Option Char :=
  match c with
  | 'n' => some '\n'
  | 'r' => some '\r'
  | 't' => some '\t'
  | '\\' | '"' | '\'' => some c
  | _ => none

/-- `unescape`; an error is the text of a panic. -/
def unescape : List Char → Except String (List Char)
  | '\\' :: u :: a :: b :: c :: d :: rest =>
    if (u = 'u' ∨ u = 'x') ∧ [a, b, c, d].all isHexDigit then
      match unicodeFromHex [a, b, c, d] with
      | some x => (unescape rest).map (x :: ·)
      | none => .error ("invalid unicode escape \\u" ++ String.ofList [a, b, c, d] ++
          " (not a valid scalar value — unpaired surrogates are not chars)")
    else
      match escaped u with
      | some x => (unescape (a :: b :: c :: d :: rest)).map (x :: ·)
      | none => (unescape (u :: a :: b :: c :: d :: rest)).map ('\\' :: ·)
  | '\\' :: u :: rest =>
    match escaped u with
    | some x => (unescape rest).map (x :: ·)
    | none => (unescape (u :: rest)).map ('\\' :: ·)
  | c :: rest => (unescape rest).map (c :: ·)
  | [] => .ok []

/-- The string of a `string_expr`. -/
def stringValue (raw : List Char) : Except String (List Char) := unescape (raw.drop 1).dropLast

/-- The grammar, with the strings of a parse. -/
def stringGrammar : Grammar Rule := { grammar with watched := fun r => r = .stringExpr }

/-! ## Escapes -/

theorem unescape_escape {u x : Char} (hu : escaped u = some x) (t : List Char) :
    unescape ('\\' :: u :: t) = (unescape t).map (x :: ·) := by
  have hNotHex : ¬(u = 'u' ∨ u = 'x') := by
    rintro (rfl | rfl) <;> cases hu
  match t with
  | a :: b :: c :: d :: rest =>
    rw [unescape, if_neg fun h => hNotHex h.1, hu]
  | [] | [_] | [_, _] | [_, _, _] => simp only [unescape, hu]

theorem unescape_plain {c : Char} (hc : c ≠ '\\') (t : List Char) :
    unescape (c :: t) = (unescape t).map (c :: ·) := by
  rw [unescape]
  · rintro u a b c' d rest h -
    exact hc h
  · rintro u rest h -
    exact hc h

/-- A character is written as it is, or as an escape. -/
theorem quoteChar_cases (c : Char) :
    (∃ u, quoteChar c = ['\\', u] ∧ escaped u = some c ∧
        u ∈ ['t', 'n', 'r', '\'', '\\']) ∨
      quoteChar c = [c] ∧ c ≠ '\'' ∧ c ≠ '\\' := by
  unfold quoteChar
  split
  case h_1 => exact .inl ⟨'\'', rfl, rfl, by decide⟩
  case h_2 => exact .inl ⟨'\\', rfl, rfl, by decide⟩
  case h_3 => exact .inl ⟨'n', rfl, rfl, by decide⟩
  case h_4 => exact .inl ⟨'t', rfl, rfl, by decide⟩
  case h_5 => exact .inl ⟨'r', rfl, rfl, by decide⟩
  case h_6 hQuote hBack _ _ _ => exact .inr ⟨rfl, hQuote, hBack⟩

theorem unescape_quoteChars (s : List Char) : unescape (s.flatMap quoteChar) = .ok s := by
  induction s with
  | nil => rfl
  | cons c s ih =>
    rw [List.flatMap_cons]
    obtain ⟨u, hText, hu, -⟩ | ⟨hText, -, hBack⟩ := quoteChar_cases c
    · rw [hText, List.cons_append, List.singleton_append, unescape_escape hu, ih]
      rfl
    · rw [hText, List.singleton_append, unescape_plain hBack, ih]
      rfl

theorem stringValue_quote (s : List Char) : stringValue (quote s) = .ok s := by
  rw [stringValue, quote, List.drop_one, List.tail_cons, List.dropLast_concat]
  exact unescape_quoteChars s

/-! ## What the grammar reads -/

theorem parses_quoteChar (c : Char) (pos : Nat) (t : List Char) :
    Parses stringGrammar true stringPiece ⟨pos, quoteChar c ++ t⟩
      (some (⟨pos + size (quoteChar c), t⟩, [])) := by
  obtain ⟨u, hText, -, hu⟩ | ⟨hText, hQuote, hBack⟩ := quoteChar_cases c
  · -- an escape: a backslash and one of six letters
    have hStart : Parses stringGrammar true (lit "\\") ⟨pos, '\\' :: u :: t⟩
        (some (⟨pos + size ['\\'], u :: t⟩, [])) := .text ['\\']
    have hEscaped : Parses stringGrammar true
        (choice [lit "t", lit "n", lit "r", lit "\"", lit "'", lit "\\"])
        ⟨pos + size ['\\'], [u] ++ t⟩ (some (⟨pos + size ['\\'] + size [u], t⟩, [])) := by
      fin_cases hu
      · exact .choice [] [lit "n", lit "r", lit "\"", lit "'", lit "\\"]
          (fun d hd => by cases hd) (.text ['t'])
      · refine .choice [lit "t"] [lit "r", lit "\"", lit "'", lit "\\"] ?_ (.text ['n'])
        intro d hd
        fin_cases hd
        exact fails_of_glance 1 _ (by decide) _ t
      · refine .choice [lit "t", lit "n"] [lit "\"", lit "'", lit "\\"] ?_ (.text ['r'])
        intro d hd
        fin_cases hd <;> exact fails_of_glance 1 _ (by decide) _ t
      · refine .choice [lit "t", lit "n", lit "r", lit "\""] [lit "\\"] ?_ (.text ['\''])
        intro d hd
        fin_cases hd <;> exact fails_of_glance 1 _ (by decide) _ t
      · refine .choice [lit "t", lit "n", lit "r", lit "\"", lit "'"] [] ?_ (.text ['\\'])
        intro d hd
        fin_cases hd <;> exact fails_of_glance 1 _ (by decide) _ t
    -- it is no plain character, since that alternative refuses a backslash
    rw [hText]
    refine .choice [cat [.not (choice [lit "'", lit "\\"]), any]] [] ?_ ?_
    · intro d hd
      cases List.mem_singleton.mp hd
      exact fails_of_glance 5 ['\\'] (by decide) pos (u :: t)
    · exact .rule (.alt_first (.seq_atomic hStart hEscaped)) (by
        simp [Grammar.matched, stringGrammar, Nat.add_assoc])
  · -- any other character is itself: neither a quote nor a backslash
    have hNot : Parses stringGrammar true (.not (choice [lit "'", lit "\\"])) ⟨pos, c :: t⟩
        (some (⟨pos, c :: t⟩, [])) := by
      refine .not_none (.choice_none _ (List.cons_ne_nil _ _) ?_)
      intro d hd
      fin_cases hd
      · exact .text_none fun h => hQuote (List.cons_prefix_cons.mp h).1.symm
      · exact .text_none fun h => hBack (List.cons_prefix_cons.mp h).1.symm
    rw [hText]
    exact .alt_first (.seq_atomic hNot (.anyChar c))

/-- A string literal is read to its closing quote, and not beyond. -/
theorem parses_quote (atomic : Bool) (s : List Char) (pos : Nat) (t : List Char) :
    Parses stringGrammar atomic (.rule .STRING) ⟨pos, quote s ++ t⟩
      (some (⟨pos + size (quote s), t⟩, [])) := by
  have hPieces : s.flatMap quoteChar = (s.map quoteChar).flatten := List.flatMap_def
  have hText : quote s ++ t = '\'' :: ((s.map quoteChar).flatten ++ '\'' :: t) := by
    rw [quote, hPieces, List.cons_append, List.append_assoc, List.singleton_append]
  have hOpen : Parses stringGrammar true (lit "'")
      ⟨pos, '\'' :: ((s.map quoteChar).flatten ++ '\'' :: t)⟩
      (some (⟨pos + size ['\''], (s.map quoteChar).flatten ++ '\'' :: t⟩, [])) := .text ['\'']
  have hContent : Parses stringGrammar true (many stringPiece)
      ⟨pos + size ['\''], (s.map quoteChar).flatten ++ '\'' :: t⟩
      (some (⟨pos + size ['\''] + size (s.map quoteChar).flatten, '\'' :: t⟩, [])) := by
    refine .many_atomic ?_ (fun pos => fails_of_glance 8 ['\''] (by decide) pos t) _
    intro p hp pos t
    obtain ⟨c, -, rfl⟩ := List.mem_map.mp hp
    exact parses_quoteChar c pos t
  have hClose : Parses stringGrammar true (lit "'")
      ⟨pos + size ['\''] + size (s.map quoteChar).flatten, '\'' :: t⟩
      (some (⟨pos + size ['\''] + size (s.map quoteChar).flatten + size ['\''], t⟩, [])) :=
    .text ['\'']
  have hSize : pos + size ['\''] + size (s.map quoteChar).flatten + size ['\'']
      = pos + size (quote s) := by
    simp [quote, hPieces, Nat.add_assoc]
  rw [hText, ← hSize]
  exact .of_atomic_body rfl rfl (.seq_atomic hOpen (.seq_atomic hContent hClose))

/-- **Strings read back.** Wherever an expression may stand, and whatever follows, a string that the
printer has quoted is read as one string literal, and its value is the string. -/
theorem quote_reads_back (s : List Char) (pos : Nat) (t : List Char) :
    ∃ p : Pair Rule, (∀ res, Parses stringGrammar false (.rule .primary) ⟨pos, quote s ++ t⟩ res ↔
        res = some (⟨pos + size (quote s), t⟩, [p])) ∧
      p.rule = .stringExpr ∧ stringValue p.text = .ok s := by
  have hText : (quote s ++ t).take ((quote s ++ t).length - t.length) = quote s := by
    rw [List.length_append, Nat.add_sub_cancel, List.take_left]
  have hString : Parses stringGrammar false (.rule .stringExpr) ⟨pos, quote s ++ t⟩
      (some (⟨pos + size (quote s), t⟩,
        [⟨.stringExpr, pos, pos + size (quote s), quote s⟩])) := by
    refine .rule (parses_quote false s pos t) ?_
    simp only [Grammar.matched, stringGrammar, Option.map_some, hText]
    simp
  have hBefore : ∀ d ∈ ([.rule .nestedExpr, .rule .yieldReturn, .rule .userListExpr,
      .rule .listExpr, .rule .setExpr, .rule .dictExpr, .rule .definitionExpr,
      .rule .numberExpr] : List (Expr Rule)),
      Parses stringGrammar false d ⟨pos, quote s ++ t⟩ none := by
    intro d hd
    fin_cases hd
    all_goals exact fails_of_glance 20 ['\''] rfl pos _
  have hPrimary : Parses stringGrammar false (.rule .primary) ⟨pos, quote s ++ t⟩
      (some (⟨pos + size (quote s), t⟩, [⟨.stringExpr, pos, pos + size (quote s), quote s⟩])) :=
    .of_body rfl (.choice _ _ hBefore hString)
  refine ⟨_, fun res => ⟨fun h => h.unique hPrimary, ?_⟩, rfl, stringValue_quote s⟩
  rintro rfl
  exact hPrimary

end Quoin.Text
