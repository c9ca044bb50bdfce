import Mathlib
import Quoin.Fmt.Doc

/-!
# Quoin — what a layout of the formatter writes

A step of the renderer writes one thing or takes a document apart (`step_cases`). The
things it writes are the layout of the document. Its pieces are the document's, each
of them in the output but for spaces where a line ends (`appears_laid`), and where the
branches of every choice have the same text, no width changes more than the gaps and
the texts for the flat layout (`essence_laid`).
-/

namespace Quoin.Fmt

open Trans

/-! ## What a step does -/

/-- A character of the output, and whether it is from a `FlatText`. -/
abbrev Cell := Char × Bool

/-- What a step writes. -/
inductive Item where
  | text (s : List Char)
  | verbatim (s : List Char)
  | flat (s : List Char)
  | space
  | newline (indent : Nat)

namespace Item

def write (out : List Char) : Item → List Char
  | text s | verbatim s | flat s => out ++ s
  | space => out ++ [' ']
  | newline indent => Fmt.newline out indent

def colAfter (col : Nat) : Item → Nat
  | text s | flat s => col + s.length
  | verbatim s => Fmt.colAfter col s
  | space => col + 1
  | newline indent => indent

/-- As `write`, with where the characters are from. -/
def put (out : List Cell) : Item → List Cell
  | text s | verbatim s => out ++ s.map fun c => (c, false)
  | flat s => out ++ s.map fun c => (c, true)
  | space => out ++ [(' ', false)]
  | newline indent =>
    out.rdropWhile (·.1 = ' ') ++ ('\n', false) :: List.replicate indent (' ', false)

def piece? : Item → Option (List Char)
  | text s | verbatim s => some s
  | _ => none

end Item

/-- What a work item writes in one step. -/
def written : Frame → Option Item
  | (_, _, .text s) => some (.text s)
  | (_, _, .verbatim s) => some (.verbatim s)
  | (indent, mode, .line) => if mode = .flat then some .space else some (.newline indent)
  | (_, mode, .flatText s) => if mode = .flat then some (.flat s) else none
  | (indent, mode, .softLine) => if mode = .break then some (.newline indent) else none
  | (indent, _, .hardLine) => some (.newline indent)
  | _ => none

inductive Writes : Frame → Item → Prop
  | text {indent mode s} : Writes (indent, mode, .text s) (.text s)
  | verbatim {indent mode s} : Writes (indent, mode, .verbatim s) (.verbatim s)
  | space {indent} : Writes (indent, .flat, .line) .space
  | line {indent} : Writes (indent, .break, .line) (.newline indent)
  | flat {indent s} : Writes (indent, .flat, .flatText s) (.flat s)
  | softLine {indent} : Writes (indent, .break, .softLine) (.newline indent)
  | hardLine {indent mode} : Writes (indent, mode, .hardLine) (.newline indent)

/-- What stands for a work item when it has been taken apart, at a column and before the rest of
the work. -/
inductive Unfolds (width : UInt64) (col : Nat) (rest : List Frame) : Frame → List Frame → Prop
  | nil {indent mode} : Unfolds width col rest (indent, mode, .nil) []
  | concat {indent mode ds} :
    Unfolds width col rest (indent, mode, .concat ds) (framesOf indent mode ds)
  | nest {indent mode n d} :
    Unfolds width col rest (indent, mode, .nest n d) [(nested indent n, mode, d)]
  | align {indent mode d} : Unfolds width col rest (indent, mode, .align d) [(col, mode, d)]
  | fit {indent mode need extra fit els} (hRoom : hasRoom width indent need extra = true) :
    Unfolds width col rest (indent, mode, .preferIfFits need extra fit els) [(indent, mode, fit)]
  | els {indent mode need extra fit els} (hRoom : hasRoom width indent need extra = false) :
    Unfolds width col rest (indent, mode, .preferIfFits need extra fit els) [(indent, mode, els)]
  | flatText {indent s} : Unfolds width col rest (indent, .break, .flatText s) []
  | softLine {indent} : Unfolds width col rest (indent, .flat, .softLine) []
  | group {indent mode d} :
    Unfolds width col rest (indent, mode, .group d) [(indent, modeOf width col d rest, d)]

variable {width : UInt64} {out : List Char} {col : Nat} {f : Frame} {frames rest : List Frame}
  {x : Item} {s s' : State}

theorem Writes.written (h : Writes f x) : written f = some x := by
  cases h <;> rfl

theorem Writes.step (h : Writes f x) :
    step width ⟨out, col, f :: rest⟩ = some ⟨x.write out, x.colAfter col, rest⟩ := by
  cases h <;> rfl

theorem Unfolds.written (h : Unfolds width col rest f frames) : written f = none := by
  cases h <;> rfl

theorem Unfolds.step (h : Unfolds width col rest f frames) :
    step width ⟨out, col, f :: rest⟩ = some ⟨out, col, frames ++ rest⟩ := by
  cases h
  case fit hRoom => simp [Fmt.step, hRoom]
  case els hRoom => simp [Fmt.step, hRoom]
  all_goals rfl

theorem writes_or_unfolds (width : UInt64) (col : Nat) (f : Frame) (rest : List Frame) :
    (∃ x, Writes f x) ∨ ∃ frames, Unfolds width col rest f frames := by
  obtain ⟨indent, mode, doc⟩ := f
  cases doc
  case text | verbatim | hardLine => exact .inl ⟨_, by constructor⟩
  case line => cases mode <;> exact .inl ⟨_, by constructor⟩
  case flatText => cases mode; exacts [.inl ⟨_, .flat⟩, .inr ⟨_, .flatText⟩]
  case softLine => cases mode; exacts [.inr ⟨_, .softLine⟩, .inl ⟨_, .softLine⟩]
  case preferIfFits need extra fit els =>
    cases hRoom : hasRoom width indent need extra
    · exact .inr ⟨_, .els hRoom⟩
    · exact .inr ⟨_, .fit hRoom⟩
  all_goals exact .inr ⟨_, by constructor⟩

/-- A step writes a thing or takes a document apart. -/
theorem step_cases (h : step width s = some s') : ∃ f rest, s.stack = f :: rest ∧
    ((∃ x, Writes f x ∧ s' = ⟨x.write s.out, x.colAfter s.col, rest⟩) ∨
      ∃ frames, Unfolds width s.col rest f frames ∧ s' = ⟨s.out, s.col, frames ++ rest⟩) := by
  obtain ⟨out, col, stack⟩ := s
  rcases stack with _ | ⟨f, rest⟩
  · cases h
  refine ⟨f, rest, rfl, ?_⟩
  rcases writes_or_unfolds width col f rest with ⟨x, hx⟩ | ⟨frames, hFrames⟩
  · rw [hx.step] at h
    exact .inl ⟨x, hx, (Option.some.inj h).symm⟩
  · rw [hFrames.step] at h
    exact .inr ⟨frames, hFrames, (Option.some.inj h).symm⟩

/-- What holds when the work is done, and before each step if it does after it, holds always. -/
theorem layout_induction (width : UInt64) {P : State → Prop}
    (hDone : ∀ out col, P ⟨out, col, []⟩)
    (hWrite : ∀ out col f x rest, Writes f x → P ⟨x.write out, x.colAfter col, rest⟩ →
      P ⟨out, col, f :: rest⟩)
    (hUnfold : ∀ out col f frames rest, Unfolds width col rest f frames →
      P ⟨out, col, frames ++ rest⟩ → P ⟨out, col, f :: rest⟩) (s : State) : P s := by
  fun_induction run width s with
  | case1 s hs =>
    obtain ⟨out, col, stack⟩ := s
    rcases stack with _ | ⟨f, rest⟩
    · exact hDone out col
    · rcases writes_or_unfolds width col f rest with ⟨x, hx⟩ | ⟨frames, hFrames⟩
      · rw [hx.step] at hs
        cases hs
      · rw [hFrames.step] at hs
        cases hs
  | case2 s s' hs ih =>
    obtain ⟨out, col, stack⟩ := s
    obtain ⟨f, rest, hStack, ⟨x, hx, rfl⟩ | ⟨frames, hFrames, rfl⟩⟩ := step_cases hs
    · cases hStack
      exact hWrite out col f x rest hx ih
    · cases hStack
      exact hUnfold out col f frames rest hFrames ih

/-! ## Layouts -/

/-- What is written from a state on. -/
def laid (width : UInt64) (s : State) : List Item :=
  match _h : step width s with
  | none => []
  | some s' => (s.stack.head?.bind written).toList ++ laid width s'
termination_by weight (sights s.stack)
decreasing_by exact step_weight _h

@[simp] theorem laid_done : laid width ⟨out, col, []⟩ = [] := by
  rw [laid]
  rfl

theorem laid_step (h : step width s = some s') :
    laid width s = (s.stack.head?.bind written).toList ++ laid width s' := by
  rw [laid]
  split
  next hs => rw [h] at hs; cases hs
  next s'' hs =>
    rw [h] at hs
    cases hs
    rfl

theorem Writes.laid (h : Writes f x) : laid width ⟨out, col, f :: rest⟩ =
    x :: laid width ⟨x.write out, x.colAfter col, rest⟩ := by
  rw [laid_step h.step, List.head?_cons, Option.bind_some, h.written]
  rfl

theorem Unfolds.laid (h : Unfolds width col rest f frames) :
    laid width ⟨out, col, f :: rest⟩ = laid width ⟨out, col, frames ++ rest⟩ := by
  rw [laid_step h.step, List.head?_cons, Option.bind_some, h.written]
  rfl

/-- The text is what the layout writes. -/
theorem run_laid (s : State) : run width s = (laid width s).foldl Item.write s.out := by
  induction s using layout_induction width with
  | hDone out col => rw [run_done rfl, laid_done, List.foldl_nil]
  | hWrite out col f x rest hx ih => rw [run_step hx.step, hx.laid, ih, List.foldl_cons]
  | hUnfold out col f frames rest hFrames ih => rw [run_step hFrames.step, hFrames.laid, ih]

/-! ## Spaces at the end of a line -/

section

variable {α : Type} {p : α → Bool} {xs ys : List α}

theorem rdropWhile_append_of_all (h : ∀ y ∈ ys, p y) :
    (xs ++ ys).rdropWhile p = xs.rdropWhile p := by
  have hReverse : ∀ y ∈ ys.reverse, p y := fun y hy => h y (List.mem_reverse.mp hy)
  rw [List.rdropWhile, List.reverse_append, List.dropWhile_append_of_pos hReverse,
    ← List.rdropWhile]

theorem rdropWhile_append_of_ne_nil (h : ys.rdropWhile p ≠ []) :
    (xs ++ ys).rdropWhile p = xs ++ ys.rdropWhile p := by
  have hNonempty : (ys.reverse.dropWhile p).isEmpty = false := by
    rw [List.isEmpty_eq_false_iff]
    exact fun hNil => h (by rw [List.rdropWhile, hNil, List.reverse_nil])
  rw [List.rdropWhile, List.reverse_append, List.dropWhile_append, hNonempty]
  simp [List.rdropWhile]

end

/-- What was written stands at the start of a text, but for spaces where a line ends. -/
def Keeps (out text : List Char) : Prop :=
  ∃ kept blanks after, out = kept ++ blanks ∧ (∀ c ∈ blanks, c = ' ') ∧ text = kept ++ after ∧
    (blanks ≠ [] → after.head? = some '\n')

namespace Keeps

variable {text : List Char}

theorem refl (out : List Char) : Keeps out out :=
  ⟨out, [], [], (List.append_nil out).symm, fun _ hc => absurd hc List.not_mem_nil,
    (List.append_nil out).symm, fun h => absurd rfl h⟩

theorem append (h : Keeps out text) (s : List Char) : Keeps out (text ++ s) := by
  obtain ⟨kept, blanks, after, hOut, hBlanks, rfl, hHead⟩ := h
  refine ⟨kept, blanks, after ++ s, hOut, hBlanks, List.append_assoc .., fun hNonempty => ?_⟩
  rw [List.head?_append, hHead hNonempty]
  rfl

theorem newline (h : Keeps out text) (indent : Nat) : Keeps out (newline text indent) := by
  obtain ⟨kept, blanks, after, rfl, hBlanks, rfl, hHead⟩ := h
  by_cases hAfter : after.rdropWhile (· = ' ') = []
  · -- All that came after is trimmed, and more of what was written may be.
    rw [List.rdropWhile_eq_nil_iff] at hAfter
    have hNone : blanks = [] := by
      by_contra hSome
      have hMem : '\n' ∈ after := List.mem_of_mem_head? (hHead hSome)
      exact absurd (hAfter _ hMem) (by decide)
    subst hNone
    refine ⟨kept.rdropWhile (· = ' '), kept.rtakeWhile (· = ' '),
      '\n' :: List.replicate indent ' ', ?_, fun c hc => ?_, ?_, fun _ => rfl⟩
    · rw [List.append_nil, List.rdropWhile_append_rtakeWhile]
    · simpa using List.mem_rtakeWhile_imp hc
    · rw [Fmt.newline, rdropWhile_append_of_all hAfter]
  · refine ⟨kept, blanks, after.rdropWhile (· = ' ') ++ '\n' :: List.replicate indent ' ', rfl,
      hBlanks, ?_, fun hNonempty => ?_⟩
    · rw [Fmt.newline, rdropWhile_append_of_ne_nil hAfter, List.append_assoc]
    · obtain ⟨trimmed, hTrimmed⟩ := List.rdropWhile_prefix (p := (· = ' ')) (l := after)
      have hSame : (after.rdropWhile (· = ' ') ++ trimmed).head? =
          (after.rdropWhile (· = ' ')).head? := List.head?_append_of_ne_nil _ hAfter
      rw [hTrimmed, hHead hNonempty] at hSame
      rw [List.head?_append_of_ne_nil _ hAfter, ← hSame]

theorem write (h : Keeps out text) (x : Item) : Keeps out (x.write text) := by
  cases x with
  | text s | verbatim s | flat s => exact h.append s
  | space => exact h.append [' ']
  | newline indent => exact h.newline indent

theorem writes (h : Keeps out text) (items : List Item) :
    Keeps out (items.foldl Item.write text) := by
  induction items generalizing text with
  | nil => exact h
  | cons x items ih => exact ih (h.write x)

end Keeps

/-- A piece stands in a text, but for spaces where a line ends. -/
def Appears (piece text : List Char) : Prop :=
  ∃ before kept blanks after, text = before ++ kept ++ after ∧ piece = kept ++ blanks ∧
    (∀ c ∈ blanks, c = ' ') ∧ (blanks ≠ [] → after.head? = some '\n')

theorem Keeps.appears {piece text : List Char} (h : Keeps (out ++ piece) text) :
    Appears piece text := by
  obtain ⟨kept, blanks, after, hOut, hBlanks, rfl, hHead⟩ := h
  rcases List.append_eq_append_iff.mp hOut with ⟨head, rfl, rfl⟩ | ⟨lost, rfl, rfl⟩
  · exact ⟨out, head, blanks, after, rfl, rfl, hBlanks, hHead⟩
  · -- The spaces reach into what was written before the piece.
    refine ⟨kept, [], piece, after, by rw [List.append_nil], rfl,
      fun c hc => hBlanks c (List.mem_append_right _ hc), fun hNonempty => hHead ?_⟩
    exact List.append_ne_nil_of_right_ne_nil _ hNonempty

theorem appears_laid {x : Item} {piece : List Char} (s : State) (hx : x ∈ laid width s)
    (hPiece : x.piece? = some piece) : Appears piece (run width s) := by
  obtain ⟨before, after, hLaid⟩ := List.append_of_mem hx
  rw [run_laid, hLaid, List.foldl_append, List.foldl_cons]
  have hWrite : ∀ text, x.write text = text ++ piece := by
    intro text
    cases x
    case text | verbatim =>
      cases hPiece
      rfl
    all_goals cases hPiece
  rw [hWrite]
  exact ((Keeps.refl _).writes after).appears

/-! ## Texts of a document -/

mutual

/-- The text of a document on one line, with where its characters are from; `none` is a line break
that it has to have. -/
def flatten : Doc → List (Option Cell)
  | .nil | .softLine => []
  | .text s => s.map fun c => some (c, false)
  | .verbatim s => s.map fun c => some (c, false)
  | .line => [some (' ', false)]
  | .flatText s => s.map fun c => some (c, true)
  | .hardLine => [none]
  | .concat ds => flattenAll ds
  | .nest _ d => flatten d
  | .align d => flatten d
  | .group d => flatten d
  | .preferIfFits _ _ fit _ => flatten fit

def flattenAll : List Doc → List (Option Cell)
  | [] => []
  | d :: ds => flatten d ++ flattenAll ds

end

mutual

/-- The branches of each choice have the same text. -/
def Doc.Agrees : Doc → Prop
  | .nil | .text _ | .verbatim _ | .line | .flatText _ | .softLine | .hardLine => True
  | .concat ds => AllAgree ds
  | .nest _ d => d.Agrees
  | .align d => d.Agrees
  | .group d => d.Agrees
  | .preferIfFits _ _ fit els => flatten fit = flatten els ∧ fit.Agrees ∧ els.Agrees

def AllAgree : List Doc → Prop
  | [] => True
  | d :: ds => d.Agrees ∧ AllAgree ds

end

/-- The documents of a stack. -/
def docs (stack : List Frame) : List Doc := stack.map fun f => f.2.2

@[simp] theorem docs_cons (f : Frame) (stack : List Frame) :
    docs (f :: stack) = f.2.2 :: docs stack := rfl

@[simp] theorem docs_append (xs stack : List Frame) :
    docs (xs ++ stack) = docs xs ++ docs stack :=
  List.map_append ..

@[simp] theorem docs_framesOf (indent : Nat) (mode : Mode) (ds : List Doc) :
    docs (framesOf indent mode ds) = ds := by
  rw [docs, framesOf, List.map_map]
  exact List.map_id ds

theorem flattenAll_append (ds es : List Doc) :
    flattenAll (ds ++ es) = flattenAll ds ++ flattenAll es := by
  induction ds with
  | nil => rw [flattenAll, List.nil_append, List.nil_append]
  | cons d ds ih => rw [List.cons_append, flattenAll, flattenAll, ih, List.append_assoc]

theorem allAgree_append {ds es : List Doc} : AllAgree (ds ++ es) ↔ AllAgree ds ∧ AllAgree es := by
  induction ds with
  | nil => rw [AllAgree, List.nil_append, true_and]
  | cons d ds ih => rw [List.cons_append, AllAgree, AllAgree, ih, and_assoc]

/-- The branches agree in what stands for a document, as they do in the document. -/
theorem Unfolds.agrees (h : Unfolds width col rest f frames)
    (hAgrees : AllAgree (docs (f :: rest))) : AllAgree (docs (frames ++ rest)) := by
  rw [docs_append, allAgree_append]
  rw [docs_cons, AllAgree] at hAgrees
  refine ⟨?_, hAgrees.2⟩
  cases h
  case nil | flatText | softLine => trivial
  case concat => simpa [Doc.Agrees] using hAgrees.1
  all_goals
    have hDoc := hAgrees.1
    simp only [Doc.Agrees] at hDoc
    simp [docs, AllAgree, hDoc]

/-! ## What no width changes -/

/-- Neither a gap nor from a `FlatText`. -/
def isEssential (c : Cell) : Bool := !c.2 && c.1 ≠ ' ' && c.1 ≠ '\n'

/-- A text without its spaces, its line breaks and its `FlatText`s. -/
def essence (cells : List Cell) : List Char := (cells.filter isEssential).map Prod.fst

theorem essence_append (xs ys : List Cell) : essence (xs ++ ys) = essence xs ++ essence ys := by
  rw [essence, List.filter_append, List.map_append, essence, essence]

/-- The output, with where its characters are from. -/
def cells (width : UInt64) (doc : Doc) : List Cell := (laid width (start doc)).foldl Item.put []

theorem essence_eq_nil {xs : List Cell} (h : ∀ c ∈ xs, isEssential c = false) :
    essence xs = [] := by
  rw [essence, List.filter_eq_nil_iff.mpr fun c hc => by rw [h c hc]; exact Bool.false_ne_true]
  rfl

theorem essence_put (out : List Cell) (x : Item) :
    essence (x.put out) = essence out ++ essence (x.put []) := by
  cases x with
  | text s | verbatim s | flat s => exact essence_append ..
  | space => exact essence_append ..
  | newline indent =>
    have hBlanks : essence (out.rtakeWhile (·.1 = ' ')) = [] := by
      refine essence_eq_nil fun c hc => ?_
      have hBlank : c.1 = ' ' := by simpa using List.mem_rtakeWhile_imp hc
      simp [isEssential, hBlank]
    have hTrim : essence (out.rdropWhile (·.1 = ' ')) = essence out := by
      calc essence (out.rdropWhile (·.1 = ' '))
          = essence (out.rdropWhile (·.1 = ' ')) ++ essence (out.rtakeWhile (·.1 = ' ')) := by
            rw [hBlanks, List.append_nil]
        _ = essence out := by
            rw [← essence_append, List.rdropWhile_append_rtakeWhile]
    rw [Item.put, essence_append, hTrim]
    rfl

theorem essence_newline (indent : Nat) : essence (Item.put [] (.newline indent)) = [] := by
  refine essence_eq_nil fun c hc => ?_
  rcases List.mem_cons.mp hc with rfl | hc
  · rfl
  · rw [List.eq_of_mem_replicate hc]
    rfl

/-- What essence a text of documents has. -/
def essenceOf (ds : List Doc) : List Char := essence (flattenAll ds).reduceOption

theorem essenceOf_append (ds es : List Doc) :
    essenceOf (ds ++ es) = essenceOf ds ++ essenceOf es := by
  rw [essenceOf, flattenAll_append, List.reduceOption_append, essence_append, essenceOf, essenceOf]

theorem essenceOf_cons (d : Doc) (ds : List Doc) :
    essenceOf (d :: ds) = essence (flatten d).reduceOption ++ essenceOf ds := by
  rw [essenceOf, flattenAll, List.reduceOption_append, essence_append, essenceOf]

theorem reduceOption_map_some {α β : Type} (g : α → β) (xs : List α) :
    (xs.map fun a => some (g a)).reduceOption = xs.map g := by
  induction xs with
  | nil => rfl
  | cons a xs ih => rw [List.map_cons, List.reduceOption_cons_of_some, ih, List.map_cons]

theorem essence_flat (s : List Char) : essence (s.map fun c => (c, true)) = [] := by
  refine essence_eq_nil fun c hc => ?_
  obtain ⟨a, -, rfl⟩ := List.mem_map.mp hc
  rfl

/-- A step writes the essence of the work item. -/
theorem Writes.essence (h : Writes f x) :
    essence (x.put []) = Fmt.essence (flatten f.2.2).reduceOption := by
  cases h
  case text | verbatim | flat => rw [flatten, reduceOption_map_some]; rfl
  case space => rw [flatten]; rfl
  case line => rw [flatten, essence_newline]; rfl
  case softLine | hardLine => rw [flatten, essence_newline]; rfl

/-- What stands for a document has its essence. -/
theorem Unfolds.essence (h : Unfolds width col rest f frames) (hAgrees : f.2.2.Agrees) :
    essenceOf (docs frames) = Fmt.essence (flatten f.2.2).reduceOption := by
  cases h
  case nil | softLine => rw [flatten]; rfl
  case concat => rw [docs_framesOf, flatten, essenceOf]
  case flatText => rw [flatten, reduceOption_map_some, essence_flat]; rfl
  case els =>
    rw [Doc.Agrees] at hAgrees
    rw [flatten, hAgrees.1]
    simp [docs, essenceOf, flattenAll]
  all_goals
    rw [flatten]
    simp [docs, essenceOf, flattenAll]

/-- Where branches agree, the essence of what is written is the documents'. -/
theorem essence_laid (s : State) (hAgrees : AllAgree (docs s.stack)) (out : List Cell) :
    essence ((laid width s).foldl Item.put out) = essence out ++ essenceOf (docs s.stack) := by
  induction s using layout_induction width generalizing out with
  | hDone text col => rw [laid_done, List.foldl_nil]; exact (List.append_nil _).symm
  | hWrite text col f x rest hx ih =>
    rw [docs_cons, AllAgree] at hAgrees
    rw [hx.laid, List.foldl_cons, ih hAgrees.2, essence_put, hx.essence, docs_cons,
      essenceOf_cons, List.append_assoc]
  | hUnfold text col f frames rest hFrames ih =>
    have hFirst := hAgrees
    rw [docs_cons, AllAgree] at hFirst
    rw [hFrames.laid, ih (hFrames.agrees hAgrees), docs_append, essenceOf_append,
      hFrames.essence hFirst.1, docs_cons, essenceOf_cons]

theorem map_put (out : List Cell) (x : Item) :
    (x.put out).map Prod.fst = x.write (out.map Prod.fst) := by
  cases x with
  | text s | verbatim s | flat s =>
    rw [Item.put, Item.write, List.map_append, List.map_map]
    exact congrArg _ (List.map_id s)
  | space => rw [Item.put, Item.write, List.map_append]; rfl
  | newline indent =>
    have hTrim : (out.rdropWhile (·.1 = ' ')).map Prod.fst =
        (out.map Prod.fst).rdropWhile (· = ' ') := by
      rw [List.rdropWhile, List.rdropWhile, ← List.map_reverse, List.dropWhile_map,
        List.map_reverse]
      rfl
    rw [Item.put, Item.write, newline, List.map_append, hTrim, List.map_cons, List.map_replicate]

theorem render_cells (width : UInt64) (doc : Doc) :
    render doc width = (cells width doc).map Prod.fst := by
  have hMap : ∀ (items : List Item) (out : List Cell),
      (items.foldl Item.put out).map Prod.fst = items.foldl Item.write (out.map Prod.fst) := by
    intro items
    induction items with
    | nil => exact fun _ => rfl
    | cons x items ih =>
      intro out
      rw [List.foldl_cons, ih, map_put, List.foldl_cons]
  rw [render, run_laid, cells, hMap]
  rfl

/-! ## The pieces -/

/-- The pieces of a document, in their order, with those of one branch of each choice. -/
inductive Shows : Doc → List (List Char) → Prop
  | nil : Shows .nil []
  | text {s : List Char} : Shows (.text s) [s]
  | verbatim {s : List Char} : Shows (.verbatim s) [s]
  | line : Shows .line []
  | flatText {s : List Char} : Shows (.flatText s) []
  | softLine : Shows .softLine []
  | hardLine : Shows .hardLine []
  | concat {ds pieces} (h : List.Forall₂ Shows ds pieces) : Shows (.concat ds) pieces.flatten
  | nest {n d pieces} (h : Shows d pieces) : Shows (.nest n d) pieces
  | align {d pieces} (h : Shows d pieces) : Shows (.align d) pieces
  | group {d pieces} (h : Shows d pieces) : Shows (.group d) pieces
  | fit {need extra fit els pieces} (h : Shows fit pieces) :
    Shows (.preferIfFits need extra fit els) pieces
  | els {need extra fit els pieces} (h : Shows els pieces) :
    Shows (.preferIfFits need extra fit els) pieces

theorem Writes.shows (h : Writes f x) : Shows f.2.2 x.piece?.toList := by
  cases h <;> constructor

theorem Unfolds.shows {parts : List (List (List Char))}
    (h : Unfolds width col rest f frames) (hParts : List.Forall₂ Shows (docs frames) parts) :
    Shows f.2.2 parts.flatten := by
  cases h
  case nil | flatText | softLine =>
    cases hParts
    constructor
  case concat =>
    rw [docs_framesOf] at hParts
    exact .concat hParts
  case nest =>
    rcases hParts with _ | ⟨hPart, ⟨⟩⟩
    rw [List.flatten_singleton]
    exact .nest hPart
  case align =>
    rcases hParts with _ | ⟨hPart, ⟨⟩⟩
    rw [List.flatten_singleton]
    exact .align hPart
  case group =>
    rcases hParts with _ | ⟨hPart, ⟨⟩⟩
    rw [List.flatten_singleton]
    exact .group hPart
  case fit =>
    rcases hParts with _ | ⟨hPart, ⟨⟩⟩
    rw [List.flatten_singleton]
    exact .fit hPart
  case els =>
    rcases hParts with _ | ⟨hPart, ⟨⟩⟩
    rw [List.flatten_singleton]
    exact .els hPart

/-- The pieces of a layout are those of its documents. -/
theorem shows_laid (width : UInt64) (s : State) :
    ∃ parts, List.Forall₂ Shows (docs s.stack) parts ∧
      (laid width s).filterMap Item.piece? = parts.flatten := by
  induction s using layout_induction width with
  | hDone out col => exact ⟨[], .nil, by rw [laid_done]; rfl⟩
  | hWrite out col f x rest hx ih =>
    obtain ⟨parts, hParts, hEq⟩ := ih
    refine ⟨x.piece?.toList :: parts, .cons hx.shows hParts, ?_⟩
    rw [hx.laid, List.flatten_cons, ← hEq]
    cases hPiece : x.piece? with
    | none => rw [List.filterMap_cons_none hPiece]; rfl
    | some piece => rw [List.filterMap_cons_some hPiece]; rfl
  | hUnfold out col f frames rest hFrames ih =>
    obtain ⟨parts, hParts, hEq⟩ := ih
    rw [docs_append] at hParts
    have hTake := List.forall₂_take (docs frames).length hParts
    have hDrop := List.forall₂_drop (docs frames).length hParts
    rw [List.take_left] at hTake
    rw [List.drop_left] at hDrop
    refine ⟨_ :: _, .cons (hFrames.shows hTake) hDrop, ?_⟩
    rw [hFrames.laid, hEq, List.flatten_cons, ← List.flatten_append, List.take_append_drop]

/-- The pieces that a layout writes. -/
def pieces (width : UInt64) (doc : Doc) : List (List Char) :=
  (laid width (start doc)).filterMap Item.piece?

theorem shows_pieces (width : UInt64) (doc : Doc) : Shows doc (pieces width doc) := by
  obtain ⟨parts, hParts, hEq⟩ := shows_laid width (start doc)
  rcases hParts with _ | ⟨hDoc, ⟨⟩⟩
  rw [List.flatten_singleton] at hEq
  rw [pieces, hEq]
  exact hDoc

theorem appears_pieces (width : UInt64) (doc : Doc) :
    ∀ piece ∈ pieces width doc, Appears piece (render doc width) := by
  intro piece hPiece
  obtain ⟨x, hx, hEq⟩ := List.mem_filterMap.mp hPiece
  exact appears_laid _ hx hEq

end Quoin.Fmt
