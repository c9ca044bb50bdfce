import Mathlib
import Quoin.Trans.Nesting

/-!
# Quoin — splitting an interpolation template

`splitInterpolation` cuts a string at its `%{…}` markers, as the compiler does
with a `%'…'` literal and `String#%` with a computed string. The braces of an
expression are counted in an `i32`, so a marker that nests deeper than that
counts is not seen to close, and is literal text like one that never closes.

Whatever the string is, its parts put together are the string again, the
expressions are balanced, no literal is empty and no two of them meet. That
moreover no literal holds a whole marker is so exactly for the strings whose
innermost markers stay below the limit (`splitInterpolation_lossless`).

## Results

* `splitInterpolation_lossless` — the parts of every string are the string; which strings have no
  marker left in a literal;
* `splitInterpolation_overflow` — 2^31 braces in one another.
-/

namespace Quoin.Text

open Trans

/-- `InterpPart`. -/
inductive InterpPart where
  | lit (text : String)
  | expr (source : String)
  deriving DecidableEq

/-- The value of an `i32` after it wrapped around. -/
def i32 (n : Int) : Int := n.bmod (2 ^ 32)

/-- The depth after `c`. -/
def countBrace (depth : Int) (c : Char) : Int :=
  if c = '{' then i32 (depth + 1)
  else if c = '}' then i32 (depth - 1)
  else depth

/-- The inner loop: the depth it stops at, what it went over, and what is left. -/
def toClose : Int → List Char → Int × List Char × List Char
  | depth, [] => (depth, [], [])
  | depth, c :: cs =>
    if 0 < depth then
      let (last, read, left) := toClose (countBrace depth c) cs
      (last, c :: read, left)
    else (depth, [], c :: cs)

/-- The expression of the marker that the text begins with, and the text after the marker. -/
def marker : List Char → Option (List Char × List Char)
  | '%' :: '{' :: cs =>
    let (depth, read, left) := toClose 1 cs
    if depth = 0 then some (read.dropLast, left) else none
  | _ => none

/-! ## The marker -/

/-- What a character adds to the depth, where nothing wraps. -/
def brace (c : Char) : Int := if c = '{' then 1 else if c = '}' then -1 else 0

@[simp] theorem brace_open : brace '{' = 1 := rfl

@[simp] theorem brace_close : brace '}' = -1 := rfl

theorem brace_ge (c : Char) : -1 ≤ brace c := by
  unfold brace
  split_ifs <;> omega

/-- The depth of the counter at which one more brace wraps. -/
def limit : Int := 2 ^ 31 - 1

theorem i32_of_lt {n : Int} (hLow : 0 ≤ n) (hHigh : n ≤ limit) : i32 n = n := by
  unfold limit at hHigh
  exact Int.bmod_eq_of_le (by push_cast; omega) (by push_cast; omega)

theorem countBrace_eq {depth : Int} {c : Char} (hLow : 0 ≤ depth + brace c)
    (hHigh : depth + brace c ≤ limit) : countBrace depth c = depth + brace c := by
  unfold brace at *
  unfold countBrace
  split_ifs at * with hOpen hClose
  · exact i32_of_lt hLow hHigh
  · exact i32_of_lt hLow hHigh
  · omega

theorem toClose_of_nonpos {depth : Int} (h : depth ≤ 0) (cs : List Char) :
    toClose depth cs = (depth, [], cs) := by
  cases cs with
  | nil => rfl
  | cons c cs => rw [toClose, if_neg (by omega)]

/-- What the loop reads when it closes: a text that stays open and under the limit, and the brace
that closes it. -/
def Passes (depth : Int) (cs inner rest : List Char) : Prop :=
  cs = inner ++ '}' :: rest ∧ depth + net brace inner = 1 ∧
    ∀ p, p <+: inner → 1 ≤ depth + net brace p ∧ depth + net brace p ≤ limit

theorem passes_cons {depth : Int} {c : Char} {cs inner rest : List Char} :
    Passes depth (c :: cs) (c :: inner) rest ↔
      (1 ≤ depth ∧ depth ≤ limit) ∧ Passes (depth + brace c) cs inner rest := by
  unfold Passes
  rw [forall_prefix_cons]
  simp only [List.cons_append, List.cons.injEq, true_and, net_nil, net_cons, add_zero, add_assoc]
  tauto

/-- The only text with no character that the loop closes on. -/
theorem passes_nil {depth : Int} {c : Char} {cs rest : List Char} :
    Passes depth (c :: cs) [] rest ↔ (c = '}' ∧ cs = rest) ∧ depth = 1 := by
  unfold Passes
  simp only [List.nil_append, List.cons.injEq, net_nil, add_zero, List.prefix_nil, forall_eq, limit]
  constructor
  · rintro ⟨hText, hDepth, -⟩
    exact ⟨hText, hDepth⟩
  · rintro ⟨hText, hDepth⟩
    exact ⟨hText, hDepth, by omega⟩

theorem not_passes_nil {depth : Int} {inner rest : List Char} : ¬ Passes depth [] inner rest := by
  rintro ⟨hText, -⟩
  simp at hText

/-- The first character of a text that closes is the one it is read by. -/
theorem Passes.cons_inv {depth : Int} {c : Char} {cs inner rest : List Char}
    (h : Passes depth (c :: cs) inner rest) :
    (inner = [] ∧ c = '}' ∧ cs = rest ∧ depth = 1) ∨
      ∃ inner', inner = c :: inner' ∧ Passes (depth + brace c) cs inner' rest := by
  cases inner with
  | nil =>
    obtain ⟨⟨hc, hcs⟩, hDepth⟩ := passes_nil.mp h
    exact .inl ⟨rfl, hc, hcs, hDepth⟩
  | cons c' inner =>
    obtain ⟨rfl, -⟩ := List.cons.inj h.1
    exact .inr ⟨inner, rfl, (passes_cons.mp h).2⟩

/-- The depth stays where the loop goes on. -/
theorem Passes.depth {depth : Int} {cs inner rest : List Char} (h : Passes depth cs inner rest) :
    1 ≤ depth ∧ depth ≤ limit := by
  simpa using h.2.2 [] List.nil_prefix

theorem toClose_zero_iff {cs : List Char} : ∀ {depth : Int} {read rest : List Char},
    1 ≤ depth → depth ≤ limit →
      (toClose depth cs = (0, read, rest) ↔
        ∃ inner, read = inner ++ ['}'] ∧ Passes depth cs inner rest) := by
  induction cs with
  | nil =>
    intro depth read rest hLow hHigh
    simp only [toClose, Prod.mk.injEq, not_passes_nil, and_false, exists_false, iff_false]
    omega
  | cons c cs ih =>
    intro depth read rest hLow hHigh
    rw [toClose, if_pos (by omega)]
    -- a character opens a brace, closes one, or is neither
    have hBrace : brace c = 1 ∨ brace c = 0 ∨ (c = '}' ∧ brace c = -1) := by
      unfold brace
      split_ifs with hOpen hClose <;> simp [*]
    by_cases hIn : 1 ≤ depth + brace c ∧ depth + brace c ≤ limit
    · -- the loop goes on, one character further
      rw [countBrace_eq (by omega) hIn.2]
      generalize hNext : toClose (depth + brace c) cs = next
      obtain ⟨last, read', left⟩ := next
      simp only [Prod.mk.injEq]
      constructor
      · rintro ⟨rfl, rfl, rfl⟩
        obtain ⟨inner, rfl, hPasses⟩ := (ih hIn.1 hIn.2).mp hNext
        exact ⟨c :: inner, rfl, passes_cons.mpr ⟨⟨hLow, hHigh⟩, hPasses⟩⟩
      · rintro ⟨inner, rfl, hPasses⟩
        obtain ⟨rfl, rfl, rfl, rfl⟩ | ⟨inner, rfl, hTail⟩ := hPasses.cons_inv
        · simp at hIn
        · have := (ih hIn.1 hIn.2).mpr ⟨inner, rfl, hTail⟩
          rw [hNext] at this
          obtain ⟨rfl, rfl, rfl⟩ := by simpa only [Prod.mk.injEq] using this
          exact ⟨rfl, rfl, rfl⟩
    · by_cases hTop : depth = limit ∧ c = '{'
      · -- one brace more than the counter holds
        obtain ⟨rfl, rfl⟩ := hTop
        have hWrap : countBrace limit '{' = -2 ^ 31 := by decide
        rw [hWrap, toClose_of_nonpos (by decide)]
        simp only [Prod.mk.injEq]
        constructor
        · rintro ⟨h, -⟩
          exact absurd h (by decide)
        · rintro ⟨inner, rfl, hPasses⟩
          obtain ⟨-, hc, -⟩ | ⟨inner, rfl, hTail⟩ := hPasses.cons_inv
          · exact absurd hc (by decide)
          · exact absurd hTail.depth hIn
      · -- the brace that closes
        have hClose : c = '}' ∧ depth = 1 := by
          unfold brace at *
          split_ifs at * <;> simp_all <;> omega
        obtain ⟨rfl, rfl⟩ := hClose
        have hZero : countBrace 1 '}' = 0 := by decide
        rw [hZero, toClose_of_nonpos (le_refl 0)]
        simp only [Prod.mk.injEq, true_and]
        constructor
        · rintro ⟨rfl, rfl⟩
          exact ⟨[], rfl, passes_nil.mpr ⟨⟨rfl, rfl⟩, rfl⟩⟩
        · rintro ⟨inner, rfl, hPasses⟩
          obtain ⟨rfl, -, rfl, -⟩ | ⟨inner, rfl, hTail⟩ := hPasses.cons_inv
          · exact ⟨rfl, rfl⟩
          · exact absurd hTail.depth hIn

/-- The text begins with a marker, as the code sees one. -/
theorem marker_eq_some_iff {cs source rest : List Char} :
    marker cs = some (source, rest) ↔
      cs = '%' :: '{' :: source ++ '}' :: rest ∧ Nests brace source ∧
        Under brace limit source := by
  -- what the counter passes is a nested text below the limit, and the brace that closes it
  have hPasses : ∀ cs, Passes 1 cs source rest ↔
      cs = source ++ '}' :: rest ∧ Nests brace source ∧ Under brace limit source := by
    intro cs
    unfold Passes Under
    constructor
    · rintro ⟨hText, hLevel, hAll⟩
      exact ⟨hText, ⟨by omega, fun p hp => by have := hAll p hp; omega⟩,
        fun p hp => by have := hAll p hp; omega⟩
    · rintro ⟨hText, hNests, hUnder⟩
      refine ⟨hText, by rw [hNests.level]; omega, fun p hp => ?_⟩
      have := hNests.above p hp
      have := hUnder p hp
      omega
  unfold marker
  split
  · next cs =>
    rw [List.cons_append, List.cons_append, List.cons.injEq, List.cons.injEq]
    simp only [true_and]
    rw [← hPasses]
    generalize hLoop : toClose 1 cs = loop
    obtain ⟨depth, read, left⟩ := loop
    have hClosed : ∀ read rest, toClose 1 cs = (0, read, rest) ↔
        ∃ inner, read = inner ++ ['}'] ∧ Passes 1 cs inner rest :=
      fun _ _ => toClose_zero_iff (le_refl 1) (by decide)
    constructor
    · intro h
      -- the loop has ended at its closing brace, or at the end of the text
      by_cases hDepth : depth = 0
      · rw [if_pos hDepth] at h
        obtain ⟨rfl, rfl⟩ := by simpa only [Option.some.injEq, Prod.mk.injEq] using h
        rw [hDepth] at hLoop
        obtain ⟨inner, rfl, hInner⟩ := (hClosed _ _).mp hLoop
        rwa [List.dropLast_concat]
      · rw [if_neg hDepth] at h
        cases h
    · intro h
      have := (hClosed _ _).mpr ⟨source, rfl, h⟩
      rw [hLoop] at this
      obtain ⟨rfl, rfl, rfl⟩ := by simpa only [Prod.mk.injEq] using this
      rw [if_pos rfl, List.dropLast_concat]
  · next hNone =>
    constructor
    · intro h
      cases h
    · rintro ⟨rfl, -⟩
      exact absurd rfl (hNone _)

theorem marker_length {cs source rest : List Char} (h : marker cs = some (source, rest)) :
    rest.length < cs.length := by
  obtain ⟨rfl, -⟩ := marker_eq_some_iff.mp h
  simp only [List.cons_append, List.length_cons, List.length_append]
  omega

/-! ## The split -/

/-- The literal read so far, unless it is empty. -/
def flush (lit : List Char) : List InterpPart :=
  if lit.isEmpty then [] else [.lit (String.ofList lit)]

/-- The outer loop, with the literal read so far. -/
def scan (lit : List Char) : List Char → List InterpPart
  | [] => flush lit
  | c :: cs =>
    match _hMarker : marker (c :: cs) with
    | some (source, rest) => flush lit ++ .expr (String.ofList source) :: scan [] rest
    | none => scan (lit ++ [c]) cs
termination_by cs => cs.length
decreasing_by
  · exact marker_length _hMarker
  · exact Nat.lt_succ_self _

def splitInterpolation (s : String) : List InterpPart := scan [] s.toList

/-- The text a part was cut out of. -/
def InterpPart.written : InterpPart → String
  | .lit text => text
  | .expr source => "%\x7b" ++ source ++ "\x7d"

/-- The parts put together. -/
def rejoin : List InterpPart → String
  | [] => ""
  | part :: parts => part.written ++ rejoin parts

/-- A whole marker stands in the text. -/
def HoldsMarker (text : List Char) : Prop :=
  ∃ source, Nests brace source ∧ '%' :: '{' :: source ++ ['}'] <:+: text

/-- Not two literals. -/
def Apart (a b : InterpPart) : Prop := ∀ t u, ¬ (a = .lit t ∧ b = .lit u)

/-- What a split of `s` owes: nothing is lost, expressions are balanced, and the literals are all
the text between the markers, in one piece each. -/
structure Lossless (s : String) (parts : List InterpPart) : Prop where
  rejoins : rejoin parts = s
  balanced : ∀ source, .expr source ∈ parts → Nests brace source.toList
  nonempty : ∀ text, .lit text ∈ parts → text ≠ ""
  apart : parts.IsChain Apart
  unmarked : ∀ text, .lit text ∈ parts → ¬ HoldsMarker text.toList

/-- The markers of `s` that hold no other stay below the limit of the depth. -/
def Shallow (s : String) : Prop :=
  ∀ source, '%' :: '{' :: source ++ ['}'] <:+: s.toList → Nests brace source →
    ¬ ['%', '{'] <:+: source → Under brace limit source

variable {lit cs : List Char} {text source : String}

theorem mem_flush : .lit text ∈ flush lit ↔ lit ≠ [] ∧ text.toList = lit := by
  unfold flush
  cases lit with
  | nil => simp
  | cons c lit =>
    simp only [List.isEmpty_cons, Bool.false_eq_true, if_false, List.mem_singleton,
      InterpPart.lit.injEq, ne_eq, reduceCtorEq, not_false_eq_true, true_and]
    rw [← String.toList_inj, String.toList_ofList]

theorem expr_notMem_flush : .expr source ∉ flush lit := by
  unfold flush
  split_ifs <;> simp

theorem rejoin_append (ps qs : List InterpPart) : rejoin (ps ++ qs) = rejoin ps ++ rejoin qs := by
  induction ps with
  | nil => simp [rejoin]
  | cons p ps ih => rw [List.cons_append, rejoin, rejoin, ih, String.append_assoc]

theorem rejoin_flush : (rejoin (flush lit)).toList = lit := by
  unfold flush
  cases lit with
  | nil => rfl
  | cons c lit => simp [rejoin, InterpPart.written]

theorem rejoin_scan : (rejoin (scan lit cs)).toList = lit ++ cs := by
  fun_induction scan lit cs with
  | case1 lit => rw [rejoin_flush, List.append_nil]
  | case2 lit c cs source rest hMarker ih =>
    obtain ⟨hText, -⟩ := marker_eq_some_iff.mp hMarker
    rw [rejoin_append, String.toList_append, rejoin_flush, rejoin, String.toList_append, ih, hText]
    simp [InterpPart.written]
  | case3 lit c cs hMarker ih => rw [ih, List.append_assoc, List.singleton_append]

theorem balanced_of_mem_scan (h : .expr source ∈ scan lit cs) : Nests brace source.toList := by
  fun_induction scan lit cs with
  | case1 lit => exact absurd h expr_notMem_flush
  | case2 lit c cs source' rest hMarker ih =>
    obtain hFlush | hRest := List.mem_append.mp h
    · exact absurd hFlush expr_notMem_flush
    · obtain hThis | hRest := List.mem_cons.mp hRest
      · obtain ⟨-, hNests, -⟩ := marker_eq_some_iff.mp hMarker
        rw [InterpPart.expr.inj hThis, String.toList_ofList]
        exact hNests
      · exact ih hRest
  | case3 lit c cs hMarker ih => exact ih h

theorem nonempty_of_mem_scan (h : .lit text ∈ scan lit cs) : text ≠ "" := by
  fun_induction scan lit cs with
  | case1 lit =>
    obtain ⟨hNe, hText⟩ := mem_flush.mp h
    rintro rfl
    exact hNe hText.symm
  | case2 lit c cs source' rest hMarker ih =>
    obtain hFlush | hRest := List.mem_append.mp h
    · obtain ⟨hNe, hText⟩ := mem_flush.mp hFlush
      rintro rfl
      exact hNe hText.symm
    · exact ih (List.mem_of_ne_of_mem (by simp) hRest)
  | case3 lit c cs hMarker ih => exact ih h

/-- Between the literal read so far and the rest of the parts stands an expression. -/
theorem apart_scan : (scan lit cs).IsChain Apart := by
  fun_induction scan lit cs with
  | case1 lit =>
    unfold flush
    split_ifs
    · exact List.isChain_nil
    · exact List.isChain_singleton _
  | case2 lit c cs source rest hMarker ih =>
    have hTail : (.expr (String.ofList source) :: scan [] rest).IsChain Apart := by
      refine List.isChain_cons.mpr ⟨?_, ih⟩
      rintro b - t u ⟨h, -⟩
      cases h
    unfold flush
    split_ifs
    · exact hTail
    · refine List.isChain_append.mpr ⟨List.isChain_singleton _, hTail, ?_⟩
      rintro a - b hb t u ⟨-, h⟩
      rw [List.head?_cons, Option.mem_some_iff] at hb
      cases hb.trans h
  | case3 lit c cs hMarker ih => exact ih

/-! ## The literals -/

/-- No marker begins within `read`, where `left` comes after it. -/
def Plain (read left : List Char) : Prop := ∀ q, q ≠ [] → q <:+ read → marker (q ++ left) = none

theorem plain_nil : Plain [] cs := by
  intro q hNe hq
  exact absurd (List.suffix_nil.mp hq) hNe

theorem Plain.concat {read left : List Char} {c : Char} (h : Plain read (c :: left))
    (hc : marker (c :: left) = none) : Plain (read ++ [c]) left := by
  intro q hNe hq
  obtain ⟨front, hFront⟩ := hq
  rcases List.eq_nil_or_concat q with rfl | ⟨q, d, rfl⟩
  · exact absurd rfl hNe
  rw [List.concat_eq_append, ← List.append_assoc] at hFront
  obtain ⟨hRead, hd⟩ := List.append_inj' hFront (by rfl)
  obtain rfl := (List.cons.inj hd).1
  rw [List.concat_eq_append, List.append_assoc, List.singleton_append]
  by_cases hq : q = []
  · rw [hq]
    exact hc
  · exact h q hq ⟨front, hRead⟩

/-- A literal is a piece of the text within which no marker begins. -/
theorem plain_of_mem_scan (h : .lit text ∈ scan lit cs) (hPlain : Plain lit cs) :
    ∃ before after, lit ++ cs = before ++ text.toList ++ after ∧ Plain text.toList after := by
  fun_induction scan lit cs with
  | case1 lit =>
    obtain ⟨-, rfl⟩ := mem_flush.mp h
    exact ⟨[], [], rfl, hPlain⟩
  | case2 lit c cs source rest hMarker ih =>
    obtain hFlush | hRest := List.mem_append.mp h
    · obtain ⟨-, rfl⟩ := mem_flush.mp hFlush
      exact ⟨[], c :: cs, rfl, hPlain⟩
    · obtain ⟨before, after, hWhole, hText⟩ :=
        ih (List.mem_of_ne_of_mem (by simp) hRest) plain_nil
      obtain ⟨hMark, -⟩ := marker_eq_some_iff.mp hMarker
      refine ⟨lit ++ '%' :: '{' :: source ++ '}' :: before, after, ?_, hText⟩
      rw [hMark, show rest = before ++ text.toList ++ after from hWhole]
      simp
  | case3 lit c cs hMarker ih =>
    obtain ⟨before, after, hWhole, hText⟩ := ih h (hPlain.concat hMarker)
    exact ⟨before, after, by rw [← hWhole, List.append_assoc, List.singleton_append], hText⟩

/-- Where a marker stands, one stands that holds no other. -/
theorem HoldsMarker.innermost {t : List Char} (h : HoldsMarker t) :
    ∃ source, Nests brace source ∧ '%' :: '{' :: source ++ ['}'] <:+: t ∧
      ¬ ['%', '{'] <:+: source := by
  obtain ⟨source, hNests, hIn⟩ := h
  induction hLength : source.length using Nat.strong_induction_on generalizing source with
  | h n ih =>
    by_cases hInner : ['%', '{'] <:+: source
    · -- the brace of the marker within is closed within
      obtain ⟨before, after, rfl⟩ := hInner
      have hSplit : before ++ ['%', '{'] ++ after = (before ++ ['%']) ++ '{' :: after := by simp
      rw [hSplit] at hNests
      obtain ⟨inner, b, rest, rfl, hb, hInner⟩ := hNests.closes brace_ge (by decide)
      have hClose : b = '}' := by
        unfold brace at hb
        split_ifs at hb
        simp_all
      obtain rfl := hClose
      refine ih inner.length ?_ inner hInner (List.IsInfix.trans ?_ hIn) rfl
      · rw [← hLength]
        simp only [List.length_append, List.length_cons]
        omega
      · exact ⟨'%' :: '{' :: before, rest ++ ['}'], by simp⟩
    · exact ⟨source, hNests, hIn, hInner⟩

/-- A plain text holds no marker that stays below the limit. -/
theorem Plain.not_under {read left source : List Char} (h : Plain read left)
    (hNests : Nests brace source) (hIn : '%' :: '{' :: source ++ ['}'] <:+: read) :
    ¬ Under brace limit source := by
  intro hUnder
  obtain ⟨before, after, rfl⟩ := hIn
  have hNone := h ('%' :: '{' :: source ++ ['}'] ++ after) (by simp)
    ⟨before, (List.append_assoc _ _ _).symm⟩
  have hSome : marker ('%' :: '{' :: source ++ ['}'] ++ after ++ left) =
      some (source, after ++ left) :=
    marker_eq_some_iff.mpr ⟨by simp, hNests, hUnder⟩
  rw [hNone] at hSome
  cases hSome

theorem unmarked_of_shallow {s : String} (h : Shallow s)
    (hMem : .lit text ∈ splitInterpolation s) : ¬ HoldsMarker text.toList := by
  intro hMarker
  obtain ⟨before, after, hWhole, hPlain⟩ := plain_of_mem_scan hMem plain_nil
  obtain ⟨source, hNests, hIn, hLast⟩ := hMarker.innermost
  have hText : text.toList <:+: s.toList := ⟨before, after, hWhole.symm⟩
  exact hPlain.not_under hNests hIn (h source (hIn.trans hText) hNests hLast)

/-! ## A marker that is too deep -/

/-- Where no marker begins, the outer loop only reads on. -/
theorem scan_plain {read left : List Char} (h : Plain read left) :
    scan lit (read ++ left) = scan (lit ++ read) left := by
  induction read generalizing lit with
  | nil => rw [List.append_nil, List.nil_append]
  | cons c read ih =>
    have hNone : marker (c :: (read ++ left)) = none := h (c :: read) (by simp) List.suffix_rfl
    rw [List.cons_append, scan]
    split
    · next h' => exact absurd (h'.symm.trans hNone) (by simp)
    · rw [ih fun q hNe hq => h q hNe (hq.trans (List.suffix_cons c read)), List.append_assoc,
        List.singleton_append]

/-- What was read into the literal stays in one piece. -/
theorem mem_scan_of_lit (h : lit ≠ []) :
    ∃ text : String, .lit text ∈ scan lit cs ∧ lit <+: text.toList := by
  fun_induction scan lit cs with
  | case1 lit => exact ⟨String.ofList lit, mem_flush.mpr ⟨h, by simp⟩, by simp⟩
  | case2 lit c cs source rest hMarker ih =>
    exact ⟨String.ofList lit, List.mem_append_left _ (mem_flush.mpr ⟨h, by simp⟩), by simp⟩
  | case3 lit c cs hMarker ih =>
    obtain ⟨text, hMem, hPrefix⟩ := ih (by simp)
    exact ⟨text, hMem, (List.prefix_append lit [c]).trans hPrefix⟩

variable {before after rest source' : List Char}

/-- A marker that nests deeper than the counter counts is not within one that does not. -/
theorem deep_after {source : List Char} (hNests' : Nests brace source')
    (hUnder' : Under brace limit source') (hNests : Nests brace source)
    (hDeep : ¬ Under brace limit source)
    (h : '%' :: '{' :: source' ++ '}' :: rest =
      before ++ ('%' :: '{' :: source ++ '}' :: after)) :
    ∃ before', rest = before' ++ ('%' :: '{' :: source ++ '}' :: after) := by
  rw [show '%' :: '{' :: source' ++ '}' :: rest = ('%' :: '{' :: source' ++ ['}']) ++ rest by simp]
    at h
  obtain ⟨gap, -, hRest⟩ | ⟨common, hMark, hCommon⟩ := List.append_eq_append_iff.mp h
  · exact ⟨gap, hRest⟩
  cases common with
  | nil => exact ⟨[], hCommon.symm⟩
  | cons c common =>
    obtain ⟨rfl, hInner⟩ := List.cons.inj hCommon
    refine absurd ?_ hDeep
    obtain ⟨rfl, rfl⟩ | ⟨d, before, rfl⟩ : (before = [] ∧ common = '{' :: source' ++ ['}']) ∨
        ∃ d before', before = d :: before' := by
      cases before with
      | nil => exact .inl ⟨rfl, (List.cons.inj hMark).2.symm⟩
      | cons d before => exact .inr ⟨d, before, rfl⟩
    · -- the two begin together, and so are the same
      have hSame : source ++ '}' :: after = source' ++ '}' :: rest := by
        simpa using hInner
      obtain ⟨rfl, -⟩ := hNests.unique hNests' brace_close brace_close hSame
      exact hUnder'
    · cases before with
      | nil =>
        have hBrace := (List.cons.inj (List.cons.inj hMark).2).1
        exact absurd hBrace (by decide)
      | cons e front =>
        -- the marker begins within the expression of the other, and is closed there
        have hFront : source' ++ ['}'] = front ++ '%' :: common :=
          (List.cons.inj (List.cons.inj hMark).2).2
        obtain rfl | ⟨inner, f, rfl⟩ := List.eq_nil_or_concat common
        · have hLast := (List.append_inj' hFront (by rfl)).2
          exact absurd (List.cons.inj hLast).1 (by decide)
        rw [List.concat_eq_append, ← List.cons_append, ← List.append_assoc] at hFront
        obtain ⟨rfl, hf⟩ := List.append_inj' hFront (by rfl)
        obtain rfl := (List.cons.inj hf).1
        cases inner with
        | nil => exact absurd (List.cons.inj hInner).1 (by decide)
        | cons g inner =>
          obtain ⟨rfl, hAfter⟩ := List.cons.inj hInner
          rw [show front ++ '%' :: '{' :: inner = (front ++ ['%']) ++ '{' :: inner by simp]
            at hNests' hUnder'
          obtain ⟨closed, b, left, rfl, hb, hClosed⟩ := hNests'.closes brace_ge (by decide)
          have hSame : source ++ '}' :: after = closed ++ b :: (left ++ '}' :: rest) := by
            simpa using hAfter
          obtain ⟨rfl, -⟩ := hNests.unique hClosed brace_close hb hSame
          have hTail : Under brace limit ('{' :: (source ++ b :: left)) :=
            hUnder'.of_append (hNests'.above _ (List.prefix_append _ _))
          exact (@Under.of_append _ brace limit ['{'] _ hTail (by decide)).of_start
            (List.prefix_append source _)

/-- Within a marker that holds no other and nests too deep, the code sees none begin. -/
theorem plain_of_deep {source : List Char} (hNests : Nests brace source)
    (hDeep : ¬ Under brace limit source) (hLast : ¬ ['%', '{'] <:+: source) :
    Plain ('%' :: '{' :: source ++ ['}']) after := by
  intro q hNe hq
  cases hMarker : marker (q ++ after) with
  | none => rfl
  | some found =>
    obtain ⟨source', rest⟩ := found
    obtain ⟨hText, hNests', hUnder'⟩ := marker_eq_some_iff.mp hMarker
    obtain rfl | hq := List.suffix_cons_iff.mp hq
    · have hSame : source ++ '}' :: after = source' ++ '}' :: rest := by simpa using hText
      obtain ⟨rfl, -⟩ := hNests.unique hNests' brace_close brace_close hSame
      exact absurd hUnder' hDeep
    obtain rfl | hq := List.suffix_cons_iff.mp hq
    · exact absurd (List.cons.inj hText).1 (by decide)
    -- what begins within the expression would be a marker that it holds
    obtain rfl | ⟨q, d, rfl⟩ := List.eq_nil_or_concat q
    · exact absurd rfl hNe
    obtain ⟨front, hFront⟩ := hq
    rw [List.concat_eq_append, ← List.append_assoc] at hFront
    obtain ⟨rfl, hd⟩ := List.append_inj' hFront (by rfl)
    obtain rfl := (List.cons.inj hd).1
    refine absurd ?_ hLast
    rw [List.concat_eq_append, List.append_assoc, List.singleton_append] at hText
    cases q with
    | nil => exact absurd (List.cons.inj hText).1 (by decide)
    | cons x q =>
      obtain ⟨rfl, hTail⟩ := List.cons.inj hText
      cases q with
      | nil => exact absurd (List.cons.inj hTail).1 (by decide)
      | cons y q =>
        obtain ⟨rfl, -⟩ := List.cons.inj hTail
        exact ⟨front, q, by simp⟩

/-- Such a marker ends up in a literal. -/
theorem literal_of_deep {source : List Char} (hNests : Nests brace source)
    (hDeep : ¬ Under brace limit source) (hLast : ¬ ['%', '{'] <:+: source)
    (h : cs = before ++ ('%' :: '{' :: source ++ '}' :: after)) :
    ∃ text : String, .lit text ∈ scan lit cs ∧ HoldsMarker text.toList := by
  fun_induction scan lit cs generalizing before with
  | case1 lit => simp at h
  | case2 lit c cs source' rest hMarker ih =>
    obtain ⟨hText, hNests', hUnder'⟩ := marker_eq_some_iff.mp hMarker
    obtain ⟨before', hRest⟩ := deep_after hNests' hUnder' hNests hDeep (hText.symm.trans h)
    obtain ⟨text, hMem, hText⟩ := ih hRest
    exact ⟨text, List.mem_append_right _ (List.mem_cons_of_mem _ hMem), hText⟩
  | case3 lit c cs hMarker ih =>
    cases before with
    | cons d before => exact ih (List.cons.inj h).2
    | nil =>
      obtain ⟨rfl, rfl⟩ := List.cons.inj h
      have hPlain : Plain ('{' :: source ++ ['}']) after := fun q hNe hq =>
        plain_of_deep hNests hDeep hLast q hNe (hq.trans (List.suffix_cons _ _))
      have hScan : scan (lit ++ ['%']) ('{' :: source ++ '}' :: after) =
          scan (lit ++ ['%'] ++ ('{' :: source ++ ['}'])) after := by
        rw [← scan_plain hPlain]
        simp
      obtain ⟨text, hMem, hPrefix⟩ :=
        @mem_scan_of_lit (lit ++ ['%'] ++ ('{' :: source ++ ['}'])) after (by simp)
      refine ⟨text, hScan ▸ hMem, source, hNests, List.IsInfix.trans ?_ hPrefix.isInfix⟩
      exact ⟨lit, [], by simp⟩

/-- A split is lossless exactly where the markers that hold no other stay below the limit. -/
theorem splitInterpolation_lossless (s : String) :
    Lossless s (splitInterpolation s) ↔ Shallow s := by
  constructor
  · intro h source hIn hNests hLast
    by_contra hDeep
    obtain ⟨before, after, hText⟩ := hIn
    obtain ⟨text, hMem, hMarker⟩ := @literal_of_deep [] s.toList before after source hNests hDeep
      hLast (by rw [← hText]; simp)
    exact h.unmarked text hMem hMarker
  · intro h
    exact
      { rejoins := String.toList_inj.mp rejoin_scan
        balanced := fun _ => balanced_of_mem_scan
        nonempty := fun _ => nonempty_of_mem_scan
        apart := apart_scan
        unmarked := fun _ => unmarked_of_shallow h }

example : splitInterpolation "a%\x7b\x7bx\x7d\x7db%\x7b c" =
    [.lit "a", .expr "\x7bx\x7d", .lit "b%\x7b c"] := by
  decide +kernel

/-- An expression of `n` braces in each other. -/
def nested : Nat → List Char
  | 0 => []
  | n + 1 => '{' :: nested n ++ ['}']

theorem nests_nested (n : Nat) : Nests brace (nested n) := by
  induction n with
  | zero => exact ⟨rfl, fun p hp => by rw [List.prefix_nil.mp hp, net_nil]⟩
  | succ n ih =>
    constructor
    · simp [nested, ih.level]
    · rw [nested, List.cons_append, forall_prefix_cons]
      refine ⟨le_refl _, fun p hp => ?_⟩
      rw [net_cons, brace_open]
      obtain rfl | hp := List.prefix_concat_iff.mp hp
      · simp [ih.level]
      · have := ih.above p hp
        omega

/-- The braces are open at once before the first closes. -/
theorem nested_top (n : Nat) : ∃ p, p <+: nested n ∧ net brace p = n := by
  induction n with
  | zero => exact ⟨[], List.nil_prefix, rfl⟩
  | succ n ih =>
    obtain ⟨p, hp, hNet⟩ := ih
    refine ⟨'{' :: p, ?_, ?_⟩
    · exact List.cons_prefix_cons.mpr ⟨rfl, hp.trans (List.prefix_append _ _)⟩
    · rw [net_cons, hNet, brace_open]
      push_cast
      omega

theorem percent_notMem_nested (n : Nat) : '%' ∉ nested n := by
  induction n with
  | zero => exact List.not_mem_nil
  | succ n ih => simp [nested, ih]

theorem not_lossless_nested {n : Nat} (h : limit ≤ n) :
    ¬ Lossless (String.ofList ('%' :: '{' :: nested n ++ ['}']))
      (splitInterpolation (String.ofList ('%' :: '{' :: nested n ++ ['}']))) := by
  intro hLossless
  have hDeep : ¬ Under brace limit (nested n) := by
    obtain ⟨p, hp, hNet⟩ := nested_top n
    intro hUnder
    have := hUnder p hp
    omega
  have hLast : ¬ ['%', '{'] <:+: nested n := fun hIn =>
    percent_notMem_nested n (hIn.subset List.mem_cons_self)
  obtain ⟨text, hMem, hMarker⟩ :=
    @literal_of_deep [] _ [] [] (nested n) (nests_nested n) hDeep hLast rfl
  rw [splitInterpolation, String.toList_ofList] at hLossless
  exact hLossless.unmarked text hMem hMarker

/-- A marker around `2 ^ 31 - 1` braces in each other is complete, and is taken for text. -/
theorem splitInterpolation_overflow :
    ¬ Lossless (String.ofList ('%' :: '{' :: nested (2 ^ 31 - 1) ++ ['}']))
      (splitInterpolation (String.ofList ('%' :: '{' :: nested (2 ^ 31 - 1) ++ ['}']))) :=
  not_lossless_nested (by decide)

end Quoin.Text
