import Mathlib
import Quoin.Trans.Glance
import Quoin.Text.Grammar

/-!
# Quoin — quoted symbols

`#'…'` as an expression, as the label of a block and as the selector of a
definition. The grammar reads it like a string: a backslash stands before a
quote and before a backslash. The three places that take the name from the
text of the literal do it by trimming: they cut off every `#` and every quote
at its start and every quote at its end, and leave the escapes as they are. So
the name is the content where there is nothing to escape and, but for
selectors, no `#` at the start; it is another name everywhere else
(`quoted_symbol_name`).

## Results

* `quoted_symbol_name` — which contents are the name, as an expression, a label and a selector;
* `quoted_symbol_renamed` — contents that are not.
-/

namespace Quoin.Text

open Trans Trans.Peg Trans.Peg.Expr

/-! ## The literal and its name -/

/-- A character as the content of a literal has it. -/
def escapeChar (c : Char) : List Char := if c = '\'' ∨ c = '\\' then ['\\', c] else [c]

def escape (s : List Char) : List Char := (s.map escapeChar).flatten

/-- `#'…'` with the content `s`. -/
def quotedSymbol (s : List Char) : List Char := '#' :: '\'' :: (escape s ++ ['\''])

/-- `parse_primary`, for a `symbol_expr`. -/
def symbolExprValue (raw : List Char) : List Char :=
  (raw.dropWhile fun c => c = '#' ∨ c = '\'').rdropWhile fun c => c = '\''

/-- `parse_block`, for the label of a `named_block_w_decls`. -/
def namedBlockSymbol (raw : List Char) : List Char :=
  (raw.dropWhile fun c => c = '#' ∨ c = '\'').rdropWhile fun c => c = '\''

/-- `parse_selector`, for a `selector_symbol`: the one identifier of the selector. -/
def selectorSymbolName (raw : List Char) : List Char :=
  ((raw.dropWhile fun c => c = '#').dropWhile fun c => c = '\'').rdropWhile fun c => c = '\''

/-- `base` of `reconstruct_selector`. -/
def selectorBase (name : List Char) : List Char :=
  (name.rdropWhile fun c => c = ':').rdropWhile fun c => c = '+'

/-- `reconstruct_selector`: the selector that a definition with these identifiers defines. -/
def reconstructSelector (identifiers : List (List Char)) : Except String (List Char) :=
  if identifiers.isEmpty then .error "No identifiers found in method selector" else
  match (identifiers.zip identifiers.tail).find? fun (a, b) => selectorBase a = selectorBase b with
  | some (a, _) =>
    let kw := String.ofList (selectorBase a)
    .error ("selector repeats keyword '" ++ kw ++ ":'; declare it variadic with '" ++ kw ++
      "+:' instead")
  | none => .ok identifiers.flatten

/-! ## What a source with the literal says -/

/-- The grammar, with the symbols of a parse. -/
def symbolGrammar : Grammar Rule :=
  { grammar with watched := fun r => r = .symbolExpr ∨ r = .selectorSymbol }

/-- As an expression, `source` is a symbol literal that denotes the symbol `name`. -/
def Denotes (source name : List Char) : Prop :=
  ∃ p : Pair Rule, Parses symbolGrammar false (.rule .primary) ⟨0, source⟩
    (some (⟨size source, []⟩, [p])) ∧ p.rule = .symbolExpr ∧ symbolExprValue p.text = name

/-- A block that starts with the literal `source` is labelled `name`. -/
def Labels (source name : List Char) : Prop :=
  ∀ pos rest, Parses symbolGrammar false (.rule .symbol) ⟨pos, source ++ rest⟩
    (some (⟨pos + size source, rest⟩, [])) ∧ namedBlockSymbol source = name

/-- A definition that starts with the literal `source` defines the selector `name`. -/
def DefinesSelector (source name : List Char) : Prop :=
  ∀ pos rest, ∃ p : Pair Rule, Parses symbolGrammar false (.rule .selector) ⟨pos, source ++ rest⟩
    (some (⟨pos + size source, rest⟩, [p])) ∧ p.rule = .selectorSymbol ∧
    reconstructSelector [selectorSymbolName p.text] = .ok name

/-- Nothing in `s` has to be escaped. -/
def NeedsNoEscape (s : List Char) : Prop := '\'' ∉ s ∧ '\\' ∉ s

instance (s : List Char) : Decidable (NeedsNoEscape s) := inferInstanceAs (Decidable (_ ∧ _))

/-! ## What the grammar reads -/

/-- What a string is made of between its quotes. -/
def stringPiece : Expr Rule :=
  choice [cat [.not (choice [lit "'", lit "\\"]), any], .rule .ESCAPE_SEQUENCE]

theorem parses_escapeChar (c : Char) (pos : Nat) (t : List Char) :
    Parses symbolGrammar true stringPiece ⟨pos, escapeChar c ++ t⟩
      (some (⟨pos + size (escapeChar c), t⟩, [])) := by
  by_cases hc : c = '\'' ∨ c = '\\'
  · have hBack : Parses symbolGrammar true (lit "\\") ⟨pos, '\\' :: c :: t⟩
        (some (⟨pos + size ['\\'], c :: t⟩, [])) := .text ['\\']
    have hEscaped : Parses symbolGrammar true
        (choice [lit "t", lit "n", lit "r", lit "\"", lit "'", lit "\\"])
        ⟨pos + size ['\\'], [c] ++ t⟩ (some (⟨pos + size ['\\'] + size [c], t⟩, [])) := by
      rcases hc with rfl | rfl
      · refine .choice [lit "t", lit "n", lit "r", lit "\""] [lit "\\"] ?_ (.text ['\''])
        intro d hd
        fin_cases hd <;> exact fails_of_glance 1 _ (by decide) _ t
      · refine .choice [lit "t", lit "n", lit "r", lit "\"", lit "'"] [] ?_ (.text ['\\'])
        intro d hd
        fin_cases hd <;> exact fails_of_glance 1 _ (by decide) _ t
    rw [escapeChar, if_pos hc]
    refine .choice [cat [.not (choice [lit "'", lit "\\"]), any]] [] ?_ ?_
    · intro d hd
      cases List.mem_singleton.mp hd
      exact fails_of_glance 5 ['\\'] (by decide) pos (c :: t)
    · exact .rule (.alt_first (.seq_atomic hBack hEscaped)) (by
        simp [Grammar.matched, symbolGrammar, Nat.add_assoc])
  · have hNot : Parses symbolGrammar true (.not (choice [lit "'", lit "\\"])) ⟨pos, c :: t⟩
        (some (⟨pos, c :: t⟩, [])) := by
      refine .not_none (.choice_none _ (List.cons_ne_nil _ _) ?_)
      rw [not_or] at hc
      intro d hd
      fin_cases hd
      · exact .text_none fun h => hc.1 (List.cons_prefix_cons.mp h).1.symm
      · exact .text_none fun h => hc.2 (List.cons_prefix_cons.mp h).1.symm
    rw [escapeChar, if_neg hc]
    exact .alt_first (.seq_atomic hNot (.anyChar c))

/-- A string of the grammar is read to its end, and not beyond. -/
theorem parses_string (atomic : Bool) (s : List Char) (pos : Nat) (t : List Char) :
    Parses symbolGrammar atomic (.rule .STRING) ⟨pos, '\'' :: (escape s ++ '\'' :: t)⟩
      (some (⟨pos + size ('\'' :: (escape s ++ ['\''])), t⟩, [])) := by
  have hOpen : Parses symbolGrammar true (lit "'") ⟨pos, '\'' :: (escape s ++ '\'' :: t)⟩
      (some (⟨pos + size ['\''], escape s ++ '\'' :: t⟩, [])) := .text ['\'']
  have hContent : Parses symbolGrammar true (many stringPiece)
      ⟨pos + size ['\''], escape s ++ '\'' :: t⟩
      (some (⟨pos + size ['\''] + size (escape s), '\'' :: t⟩, [])) := by
    refine .many_atomic ?_ (fun pos => fails_of_glance 8 ['\''] ?_ pos t) _
    · intro p hp pos t
      obtain ⟨c, -, rfl⟩ := List.mem_map.mp hp
      exact parses_escapeChar c pos t
    · rfl
  have hClose : Parses symbolGrammar true (lit "'")
      ⟨pos + size ['\''] + size (escape s), '\'' :: t⟩
      (some (⟨pos + size ['\''] + size (escape s) + size ['\''], t⟩, [])) := .text ['\'']
  have hSize : pos + size ['\''] + size (escape s) + size ['\'']
      = pos + size ('\'' :: (escape s ++ ['\''])) := by
    simp [Nat.add_assoc]
  rw [← hSize]
  exact .of_atomic_body rfl rfl (.seq_atomic hOpen (.seq_atomic hContent hClose))

theorem parses_symbol (atomic : Bool) (s : List Char) (pos : Nat) (t : List Char) :
    Parses symbolGrammar atomic (.rule .symbol) ⟨pos, quotedSymbol s ++ t⟩
      (some (⟨pos + size (quotedSymbol s), t⟩, [])) := by
  have hHash : Parses symbolGrammar true (lit "#") ⟨pos, quotedSymbol s ++ t⟩
      (some (⟨pos + size ['#'], '\'' :: (escape s ++ ['\'']) ++ t⟩, [])) := .text ['#']
  have hString : Parses symbolGrammar true (choice [.rule .STRING, .rule .XIDENT])
      ⟨pos + size ['#'], '\'' :: (escape s ++ ['\'']) ++ t⟩
      (some (⟨pos + size ['#'] + size ('\'' :: (escape s ++ ['\''])), t⟩, [])) := by
    rw [List.cons_append, List.append_assoc]
    exact .alt_first (parses_string true s _ t)
  have hSize : pos + size ['#'] + size ('\'' :: (escape s ++ ['\'']))
      = pos + size (quotedSymbol s) := by
    simp [quotedSymbol, Nat.add_assoc]
  rw [← hSize]
  exact .of_atomic_body rfl rfl (.seq_atomic hHash hString)

/-- The literal, as one of the rules that consist of a symbol. -/
theorem parses_watched {r : Rule} (hr : r = .symbolExpr ∨ r = .selectorSymbol) (s : List Char)
    (pos : Nat) (t : List Char) :
    Parses symbolGrammar false (.rule r) ⟨pos, quotedSymbol s ++ t⟩
      (some (⟨pos + size (quotedSymbol s), t⟩,
        [⟨r, pos, pos + size (quotedSymbol s), quotedSymbol s⟩])) := by
  have hText : (quotedSymbol s ++ t).take ((quotedSymbol s ++ t).length - t.length)
      = quotedSymbol s := by
    rw [List.length_append, Nat.add_sub_cancel, List.take_left]
  have hSymbol := parses_symbol false s pos t
  rcases hr with rfl | rfl
  all_goals
    refine .rule hSymbol ?_
    simp only [Grammar.matched, symbolGrammar, Option.map_some, hText]
    simp

theorem parses_selector (s : List Char) (pos : Nat) (t : List Char) :
    Parses symbolGrammar false (.rule .selector) ⟨pos, quotedSymbol s ++ t⟩
      (some (⟨pos + size (quotedSymbol s), t⟩,
        [⟨.selectorSymbol, pos, pos + size (quotedSymbol s), quotedSymbol s⟩])) := by
  have hBefore : ∀ d ∈ ([.rule .selectorWArgs, .rule .selectorNoArgsBang,
      .rule .selectorNoArgs] : List (Expr Rule)),
      Parses symbolGrammar false d ⟨pos, quotedSymbol s ++ t⟩ none := by
    intro d hd
    fin_cases hd
    all_goals exact fails_of_glance 20 ['#'] rfl pos _
  exact .of_body rfl (.choice _ [] hBefore (parses_watched (.inr rfl) s pos t))

/-- A symbol alone begins no definition. -/
theorem no_definition (s : List Char) (pos : Nat) :
    Parses symbolGrammar false (.rule .definitionExpr) ⟨pos, quotedSymbol s⟩ none := by
  have hSelector := parses_selector s pos []
  rw [List.append_nil] at hSelector
  have hSkip (pos : Nat) : Parses symbolGrammar false .skip ⟨pos, []⟩ (some (⟨pos, []⟩, [])) :=
    .skip_end (fun _ => parses_iff.mpr ⟨5, rfl⟩) (fun _ => parses_iff.mpr ⟨12, rfl⟩) pos
  refine .of_body rfl (.choice_none _ (List.cons_ne_nil _ _) ?_)
  intro d hd
  fin_cases hd
  case «3» =>
    have hArrow : Parses symbolGrammar false (.rule .opMeth)
        ⟨pos + size (quotedSymbol s), []⟩ none :=
      .of_body rfl (.seq_fail (.text_none (by decide)))
    exact .of_body rfl (.seq hSelector (.seq (hSkip _) (.seq_fail hArrow) rfl) rfl)
  case «4» =>
    have hDash : Parses symbolGrammar false (lit "-") ⟨pos + size (quotedSymbol s), []⟩ none :=
      .text_none (by decide)
    exact .of_body rfl (.seq hSelector (.seq (hSkip _) (.seq_fail hDash) rfl) rfl)
  all_goals exact fails_of_glance 20 ['#'] rfl pos _

theorem parses_primary (s : List Char) (pos : Nat) :
    Parses symbolGrammar false (.rule .primary) ⟨pos, quotedSymbol s⟩
      (some (⟨pos + size (quotedSymbol s), []⟩,
        [⟨.symbolExpr, pos, pos + size (quotedSymbol s), quotedSymbol s⟩])) := by
  have hSymbol := parses_watched (.inl rfl) s pos []
  rw [List.append_nil] at hSymbol
  have hBefore : ∀ d ∈ ([.rule .nestedExpr, .rule .yieldReturn, .rule .userListExpr,
      .rule .listExpr, .rule .setExpr, .rule .dictExpr, .rule .definitionExpr, .rule .numberExpr,
      .rule .stringExpr, .rule .userStringExpr] : List (Expr Rule)),
      Parses symbolGrammar false d ⟨pos, quotedSymbol s⟩ none := by
    intro d hd
    fin_cases hd
    case «6» => exact no_definition s pos
    all_goals exact fails_of_glance 20 ['#', '\''] rfl pos _
  exact .of_body rfl (.choice _ _ hBefore hSymbol)

/-! ## What is left of the content -/

section Trimmed

variable {α : Type} {a : α} {p : α → Bool}

theorem count_dropWhile [DecidableEq α] (ha : p a = false) (l : List α) :
    (l.dropWhile p).count a = l.count a := by
  induction l with
  | nil => rfl
  | cons b l ih =>
    rw [List.dropWhile_cons]
    split
    · next hb =>
      have hNe : b ≠ a := fun h => by simp [h, ha] at hb
      rw [ih, List.count_cons_of_ne hNe]
    · rfl

theorem count_rdropWhile [DecidableEq α] (ha : p a = false) (l : List α) :
    (l.rdropWhile p).count a = l.count a := by
  rw [List.rdropWhile, List.count_reverse, count_dropWhile ha, List.count_reverse]

/-- What is cut off in front does not begin what is left. -/
theorem head?_dropWhile_ne (ha : p a = true) (l : List α) : (l.dropWhile p).head? ≠ some a := by
  induction l with
  | nil => exact fun h => by cases h
  | cons b l ih =>
    rw [List.dropWhile_cons]
    split
    · exact ih
    · next hb =>
      intro h
      exact hb (Option.some.inj h ▸ ha)

theorem rdropWhile_append_singleton (ha : p a = true) {l : List α}
    (hl : ∀ b ∈ l.getLast?, p b = false) : (l ++ [a]).rdropWhile p = l := by
  rw [List.rdropWhile_concat_pos p l a ha, List.rdropWhile_eq_self_iff]
  intro hne hLast
  rw [hl _ (List.getLast?_eq_getLast_of_ne_nil hne)] at hLast
  cases hLast

end Trimmed

theorem count_escape (s : List Char) :
    (escape s).count '\\' = 2 * s.count '\\' + s.count '\'' := by
  induction s with
  | nil => rfl
  | cons c s ih =>
    have hCons : escape (c :: s) = escapeChar c ++ escape s := rfl
    rw [hCons, List.count_append, ih, List.count_cons, List.count_cons, escapeChar]
    by_cases hQuote : c = '\''
    · subst hQuote
      simp
      omega
    by_cases hBack : c = '\\'
    · subst hBack
      simp
      omega
    · simp [hQuote, hBack]

theorem escape_eq_self {s : List Char} (hs : NeedsNoEscape s) : escape s = s := by
  induction s with
  | nil => rfl
  | cons c s ih =>
    have hc : ¬(c = '\'' ∨ c = '\\') := by
      rintro (rfl | rfl)
      · exact hs.1 List.mem_cons_self
      · exact hs.2 List.mem_cons_self
    have hRest := ih ⟨fun h => hs.1 (List.mem_cons_of_mem c h), fun h =>
      hs.2 (List.mem_cons_of_mem c h)⟩
    have hCons : escape (c :: s) = escapeChar c ++ escape s := rfl
    rw [hCons, hRest, escapeChar, if_neg hc, List.singleton_append]

/-- Trimming removes no backslash, so it gets a content back only if nothing was escaped. -/
theorem needsNoEscape_of_count {s : List Char}
    (h : s.count '\\' = (quotedSymbol s).count '\\') : NeedsNoEscape s := by
  have hRaw : (quotedSymbol s).count '\\' = 2 * s.count '\\' + s.count '\'' := by
    simp [quotedSymbol, count_escape]
  exact ⟨List.count_eq_zero.mp (by omega), List.count_eq_zero.mp (by omega)⟩

theorem NeedsNoEscape.getLast_ne {s : List Char} (hs : NeedsNoEscape s) :
    ∀ c ∈ s.getLast?, decide (c = '\'') = false := by
  intro c hc
  have hMem : c ∈ s := List.mem_of_getLast? hc
  simpa using fun h : c = '\'' => hs.1 (h ▸ hMem)

theorem symbolExprValue_quoted (s : List Char) :
    symbolExprValue (quotedSymbol s) = s ↔ NeedsNoEscape s ∧ s.head? ≠ some '#' := by
  constructor
  · intro h
    refine ⟨needsNoEscape_of_count ?_, ?_⟩
    · conv_lhs => rw [← h]
      rw [symbolExprValue, count_rdropWhile (by decide), count_dropWhile (by decide)]
    · intro hHash
      obtain ⟨rest, rfl⟩ : ∃ rest, s = '#' :: rest := by
        cases s with
        | nil => cases hHash
        | cons c rest => exact ⟨rest, by rw [Option.some.inj hHash]⟩
      have hPrefix := List.rdropWhile_prefix (fun c => decide (c = '\''))
        (l := (quotedSymbol ('#' :: rest)).dropWhile fun c => decide (c = '#' ∨ c = '\''))
      rw [← symbolExprValue, h] at hPrefix
      obtain ⟨t, ht⟩ := hPrefix
      have hHead : ((quotedSymbol ('#' :: rest)).dropWhile
          fun c => decide (c = '#' ∨ c = '\'')).head? = some '#' := by
        rw [← ht]
        rfl
      exact head?_dropWhile_ne (by decide) _ hHead
  · rintro ⟨hs, hHash⟩
    rw [symbolExprValue, quotedSymbol, escape_eq_self hs]
    cases s with
    | nil => rfl
    | cons c s =>
      have hc : c ≠ '\'' := fun h => hs.1 (h ▸ List.mem_cons_self)
      have hc' : c ≠ '#' := fun h => hHash (h ▸ rfl)
      have hDrop : ('#' :: '\'' :: (c :: s ++ ['\''])).dropWhile
          (fun c => decide (c = '#' ∨ c = '\'')) = c :: s ++ ['\''] := by
        simp [hc, hc']
      rw [hDrop]
      exact rdropWhile_append_singleton (by decide) hs.getLast_ne

theorem selectorSymbolName_quoted (s : List Char) :
    selectorSymbolName (quotedSymbol s) = s ↔ NeedsNoEscape s := by
  constructor
  · intro h
    refine needsNoEscape_of_count ?_
    conv_lhs => rw [← h]
    rw [selectorSymbolName, count_rdropWhile (by decide), count_dropWhile (by decide),
      count_dropWhile (by decide)]
  · intro hs
    rw [selectorSymbolName, quotedSymbol, escape_eq_self hs]
    cases s with
    | nil => rfl
    | cons c s =>
      have hc : c ≠ '\'' := fun h => hs.1 (h ▸ List.mem_cons_self)
      have hDrop : (('#' :: '\'' :: (c :: s ++ ['\''])).dropWhile
          fun c => decide (c = '#')).dropWhile (fun c => decide (c = '\''))
          = c :: s ++ ['\''] := by
        simp [hc]
      rw [hDrop]
      exact rdropWhile_append_singleton (by decide) hs.getLast_ne

/-! ## The names of a literal -/

theorem denotes_iff (s name : List Char) :
    Denotes (quotedSymbol s) name ↔ name = symbolExprValue (quotedSymbol s) := by
  have hParse := parses_primary s 0
  rw [Nat.zero_add] at hParse
  constructor
  · rintro ⟨p, hp, -, rfl⟩
    cases hp.unique hParse
    rfl
  · rintro rfl
    exact ⟨_, hParse, rfl, rfl⟩

theorem labels_iff (s name : List Char) :
    Labels (quotedSymbol s) name ↔ name = namedBlockSymbol (quotedSymbol s) :=
  ⟨fun h => (h 0 []).2.symm, fun h pos rest => ⟨parses_symbol false s pos rest, h.symm⟩⟩

theorem reconstructSelector_single (name : List Char) : reconstructSelector [name] = .ok name := by
  simp [reconstructSelector]

theorem definesSelector_iff (s name : List Char) :
    DefinesSelector (quotedSymbol s) name ↔ name = selectorSymbolName (quotedSymbol s) := by
  constructor
  · intro h
    obtain ⟨p, hp, -, hName⟩ := h 0 []
    cases hp.unique (parses_selector s 0 [])
    rw [reconstructSelector_single] at hName
    exact (Except.ok.inj hName).symm
  · rintro rfl pos rest
    exact ⟨_, parses_selector s pos rest, rfl, reconstructSelector_single _⟩

/-- The only name that `names` gives the literal with the content `s` is `s`. -/
def Faithful (names : List Char → List Char → Prop) (s : List Char) : Prop :=
  ∀ name, names (quotedSymbol s) name ↔ name = s

theorem faithful_iff {names : List Char → List Char → Prop} {value : List Char → List Char}
    (h : ∀ s name, names (quotedSymbol s) name ↔ name = value (quotedSymbol s)) (s : List Char) :
    Faithful names s ↔ value (quotedSymbol s) = s := by
  constructor
  · intro hFaithful
    exact (hFaithful _).mp ((h s _).mpr rfl)
  · intro hValue name
    rw [h, hValue]

/-- **Names of quoted literals.** A literal denotes its content as a symbol, and labels a block with
it, exactly if there is nothing to escape in the content and it does not start with `#`; it defines
its content as a selector exactly if there is nothing to escape. Of such contents different ones
are different symbols. -/
theorem quoted_symbol_name (s : List Char) :
    (Faithful Denotes s ↔ NeedsNoEscape s ∧ s.head? ≠ some '#') ∧
    (Faithful Labels s ↔ NeedsNoEscape s ∧ s.head? ≠ some '#') ∧
    (Faithful DefinesSelector s ↔ NeedsNoEscape s) ∧
    (NeedsNoEscape s ∧ s.head? ≠ some '#' → ∀ s', NeedsNoEscape s' ∧ s'.head? ≠ some '#' →
      ∀ name, Denotes (quotedSymbol s) name → Denotes (quotedSymbol s') name → s = s') := by
  refine ⟨?_, ?_, ?_, ?_⟩
  · rw [faithful_iff denotes_iff, symbolExprValue_quoted]
  · rw [faithful_iff labels_iff]
    exact symbolExprValue_quoted s
  · rw [faithful_iff definesSelector_iff, selectorSymbolName_quoted]
  · intro hs s' hs' name h h'
    rw [denotes_iff, (symbolExprValue_quoted s).mpr hs] at h
    rw [denotes_iff, (symbolExprValue_quoted s').mpr hs'] at h'
    rw [← h, ← h']

/-- A content with a blank as an expression and as a label, and one with a `#` as a selector. -/
theorem quoted_symbol_name_hello :
    Faithful Denotes "hello world".toList ∧ Faithful Labels "hello world".toList ∧
      Faithful DefinesSelector "#hello".toList := by
  have hPlain : NeedsNoEscape "hello world".toList ∧ "hello world".toList.head? ≠ some '#' := by
    decide
  exact ⟨(quoted_symbol_name _).1.mpr hPlain, (quoted_symbol_name _).2.1.mpr hPlain,
    (quoted_symbol_name _).2.2.1.mpr (by decide)⟩

/-- `#'#a'` denotes the symbol `a`, as `#'a'` does, and `#'it\'s'` the symbol `it\'s`, with a
backslash, also as a selector. -/
theorem quoted_symbol_renamed :
    Denotes (quotedSymbol "#a".toList) "a".toList ∧ Denotes (quotedSymbol "a".toList) "a".toList ∧
      Denotes (quotedSymbol "it's".toList) "it\\'s".toList ∧
      DefinesSelector (quotedSymbol "it's".toList) "it\\'s".toList ∧
      ¬Faithful Denotes "#a".toList ∧ ¬Faithful DefinesSelector "it's".toList := by
  refine ⟨(denotes_iff _ _).mpr ?_, (denotes_iff _ _).mpr ?_, (denotes_iff _ _).mpr ?_,
    (definesSelector_iff _ _).mpr ?_, ?_, ?_⟩
  · decide
  · decide
  · decide
  · decide
  · rw [faithful_iff denotes_iff]
    decide
  · rw [faithful_iff definesSelector_iff]
    decide

end Quoin.Text
