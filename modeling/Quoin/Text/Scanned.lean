import Mathlib
import Quoin.Text.Comments
import Quoin.Text.Pragmas

/-!
# Quoin — the scanners and the grammar

The two scanners of comments should find what the grammar takes for comments
(`Agree`). On a source with a shebang line that is code like any other they do
so if and only if no block comment has a bare quote, and no pragma comes after a
newline that a backslash escapes in a block comment (`scanners_agree`).

The scanners know no shebang: a line with a quote in it, or with an apostrophe,
puts them into a comment or a string that is not there (`scanners_diverge`).

## Results

* `scanners_agree` — on which sources the scanners find what the grammar does;
* `scanners_diverge` — three sources on which they do not.
-/

namespace Quoin.Text

open Trans Trans.Peg

/-- The comments found are those of the parse, in order, disjoint and between characters. -/
structure CommentsAgree (source : List Char) (pairs : List (Pair Rule)) (found : List Comment) :
    Prop where
  tokens : found = (comments pairs).map .ofPair
  ordered : found.Pairwise fun c d => c.stop ≤ d.start
  bounded : ∀ c ∈ found,
    c.start ≤ c.stop ∧ IsBoundary source c.start ∧ IsBoundary source c.stop

/-- The pragmas found are those of the parse, each on its line. -/
def PragmasAgree (source : List Char) (pairs : List (Pair Rule)) (found : List AllowPragma) :
    Prop :=
  found.map AllowPragma.place = (allowComments pairs).map (placeOf source)

/-- Both scanners come to an end, and agree with the parse. -/
def Agree (source : List Char) (filename : String) (pairs : List (Pair Rule)) : Prop :=
  (∃ found, scanComments source = some found ∧ CommentsAgree source pairs found) ∧
    ∃ found, scanAllowPragmas source filename = some found ∧ PragmasAgree source pairs found

/-- The pairs are in order and between characters, from the byte `n` on. -/
structure Placed (source : List Char) (n : Nat) (ps : List (Pair Rule)) : Prop where
  ordered : ps.Pairwise fun q r => q.stop ≤ r.start
  bounded : ∀ q ∈ ps, n ≤ q.start ∧ q.start ≤ q.stop ∧
    IsBoundary source q.start ∧ IsBoundary source q.stop

theorem Placed.mono {source : List Char} {n m : Nat} {ps : List (Pair Rule)}
    (h : Placed source m ps) (hle : n ≤ m) : Placed source n ps :=
  ⟨h.ordered, fun q hq => ⟨hle.trans (h.bounded q hq).1, (h.bounded q hq).2⟩⟩

theorem Placed.cons {p s t : List Char} {ps : List (Pair Rule)} (r : Rule)
    (h : Placed (p ++ (s ++ t)) (size p + size s) ps) :
    Placed (p ++ (s ++ t)) (size p) (⟨r, size p, size p + size s, s⟩ :: ps) := by
  constructor
  · exact List.pairwise_cons.mpr ⟨fun q hq => (h.bounded q hq).1, h.ordered⟩
  · refine List.forall_mem_cons.mpr ⟨⟨Nat.le_refl _, Nat.le_add_right _ _, ?_, ?_⟩, ?_⟩
    · exact ⟨p, s ++ t, rfl, rfl⟩
    · exact ⟨p ++ s, t, (List.append_assoc p s t).symm, (size_append p s).symm⟩
    · exact (h.mono (Nat.le_add_right _ _)).bounded

theorem Lexes.placed {source : List Char} {cur last : Cursor} {ps : List (Pair Rule)}
    (h : Lexes cur ps last) {p : List Char} (hSource : source = p ++ cur.rest)
    (hPos : cur.pos = size p) : Placed source cur.pos ps := by
  induction h generalizing p with
  | done => exact ⟨.nil, fun q hq => absurd hq List.not_mem_nil⟩
  | @code cur s mid ps last _ hMove _ ih =>
    have hNext := ih (p := p ++ s) (by rw [hSource, hMove.rest, List.append_assoc])
      (by rw [hMove.pos, hPos, size_append])
    exact hNext.mono (hMove.pos ▸ Nat.le_add_right _ _)
  | @comment cur s mid ps last _ hMove _ ih =>
    have hNext := ih (p := p ++ s) (by rw [hSource, hMove.rest, List.append_assoc])
      (by rw [hMove.pos, hPos, size_append])
    rw [hMove.pos, hPos, hSource, hMove.rest] at hNext ⊢
    exact hNext.cons .COMMENT
  | @shebang cur s mid ps last _ hMove _ ih =>
    have hNext := ih (p := p ++ s) (by rw [hSource, hMove.rest, List.append_assoc])
      (by rw [hMove.pos, hPos, size_append])
    rw [hMove.pos, hPos, hSource, hMove.rest] at hNext ⊢
    exact hNext.cons .shebang

/-- The comments of the parse are as they should be found. -/
theorem commentsAgree_iff {source : List Char} {pairs : List (Pair Rule)} {last : Cursor}
    (h : Lexes ⟨0, source⟩ pairs last) {found : List Comment} :
    CommentsAgree source pairs found ↔ found = (comments pairs).map .ofPair := by
  refine ⟨fun hAgree => hAgree.tokens, ?_⟩
  rintro rfl
  have hPlaced := h.placed (p := []) rfl rfl
  refine ⟨rfl, List.pairwise_map.mpr (hPlaced.ordered.filter _), ?_⟩
  rw [List.forall_mem_map]
  exact fun q hq => (hPlaced.bounded q (List.mem_filter.mp hq).1).2

/-- On every source that the grammar accepts, with a shebang line that is code like any other, the
scanners agree with the grammar if and only if no block comment has a bare quote and no pragma comes
after a newline that a block comment hides. -/
theorem scanners_agree (source : List Char) (filename : String) (pairs : List (Pair Rule))
    (hAccepts : Accepts source pairs)
    (hShebang : ∀ p ∈ pairs, p.rule = .shebang → PlainText p.text) :
    Agree source filename pairs ↔ (∀ p ∈ comments pairs, ¬Bare p.text) ∧ LinesKept pairs := by
  obtain ⟨last, hLexes, hLast⟩ := hAccepts.lexes
  have hComments := scanComments_iff hLexes hLast hShebang
  have hFound : (∃ found, scanComments source = some found ∧ CommentsAgree source pairs found) ↔
      ∀ p ∈ comments pairs, ¬Bare p.text := by
    rw [← hComments]
    constructor
    · rintro ⟨found, hScan, hAgree⟩
      rw [hScan, (commentsAgree_iff hLexes).mp hAgree]
    · exact fun hScan => ⟨_, hScan, (commentsAgree_iff hLexes).mpr rfl⟩
  rw [Agree, hFound]
  refine and_congr_right fun hBare => ?_
  obtain ⟨found, hScan, hLines⟩ := scanAllowPragmas_iff filename hLexes hLast hShebang hBare
  rw [← hLines]
  constructor
  · rintro ⟨found', hScan', hAgree⟩
    cases Option.some.inj (hScan.symm.trans hScan')
    exact hAgree
  · exact fun hAgree => ⟨found, hScan, hAgree⟩

theorem accepts_of_run {source : List Char} {pairs : List (Pair Rule)} (depth : Nat) (last : Cursor)
    (h : run grammar depth false (.rule .program) ⟨0, source⟩ = some (some (last, pairs))) :
    Accepts source pairs := ⟨last, parses_of_run h⟩

/-- A shebang line, a string with a quote in it, a block comment with an escaped quote, a pragma. -/
theorem scanners_agree_script :
    Agree "#!qn\n'\"' \"c\\\"\" \"* allow:e".toList "s.qn"
      [⟨.shebang, 0, 4, "#!qn".toList⟩, ⟨.COMMENT, 9, 14, "\"c\\\"\"".toList⟩,
        ⟨.COMMENT, 15, 25, "\"* allow:e".toList⟩] := by
  refine (scanners_agree _ _ _ (accepts_of_run 150 ⟨25, []⟩ ?_)
    fun p hp hRule => ?_).mpr (by decide +kernel)
  · decide +kernel
  · have hText : p.text = ['#', '!', 'q', 'n'] := by
      simp only [List.mem_cons, List.not_mem_nil, or_false] at hp
      obtain rfl | rfl | rfl := hp
      · decide
      · cases hRule
      · cases hRule
    rw [hText]
    exact .cons (.char (by decide) (by decide) (by decide)) (.of_chars (by simp))

/-- What the scanners make of a quote in a shebang line, of a quote after two backslashes, and of an
escaped newline, the three in a source that the grammar accepts. -/
theorem scanners_diverge :
    (∃ pairs, Accepts "#!qn \"x\"\n1".toList pairs ∧
      ¬Agree "#!qn \"x\"\n1".toList "s.qn" pairs) ∧
    (∃ pairs, Accepts "1 \"\\\\\"\"".toList pairs ∧
      ¬Agree "1 \"\\\\\"\"".toList "s.qn" pairs) ∧
    ∃ pairs, Accepts "1 \"\\\n\" \"* allow:e".toList pairs ∧
      ¬Agree "1 \"\\\n\" \"* allow:e".toList "s.qn" pairs := by
  refine ⟨⟨[⟨.shebang, 0, 8, "#!qn \"x\"".toList⟩], ?_, ?_⟩,
    ⟨[⟨.COMMENT, 2, 7, "\"\\\\\"\"".toList⟩], ?_, ?_⟩,
    ⟨[⟨.COMMENT, 2, 6, "\"\\\n\"".toList⟩, ⟨.COMMENT, 7, 17, "\"* allow:e".toList⟩], ?_, ?_⟩⟩
  · exact accepts_of_run 100 ⟨10, []⟩ (by decide +kernel)
  · rintro ⟨⟨found, hScan, hAgree⟩, -⟩
    rw [hAgree.tokens] at hScan
    exact absurd hScan (by decide +kernel)
  · exact accepts_of_run 100 ⟨7, []⟩ (by decide +kernel)
  · rintro ⟨⟨found, hScan, hAgree⟩, -⟩
    rw [hAgree.tokens] at hScan
    exact absurd hScan (by decide +kernel)
  · exact accepts_of_run 150 ⟨17, []⟩ (by decide +kernel)
  · rintro ⟨-, found, hScan, hAgree⟩
    -- the scanner is still on the first line
    have hFound : (scanAllowPragmas "1 \"\\\n\" \"* allow:e".toList "s.qn").map
        (·.map AllowPragma.place) = some [(7, 17, 1)] := by decide +kernel
    rw [hScan, Option.map_some, hAgree] at hFound
    exact absurd hFound (by decide +kernel)

end Quoin.Text
