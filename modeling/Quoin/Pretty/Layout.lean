import Mathlib
import Quoin.Pretty.Doc

/-!
# Quoin — what a layout can change

Whatever the width is, a document's text has its words in their order, with gaps at
the lines and nowhere else (`best_shows`). Colouring puts escapes in between, which
have no width: it leaves the words and the breaks as they are (`best_coloured`).
-/

namespace Quoin.Pretty

open Trans

/-! ## Texts of a document -/

/-- Spaces and line breaks. -/
def Gap (w : List Char) : Prop := ∀ c ∈ w, c = ' ' ∨ c = '\n'

theorem Gap.nil : Gap [] := fun _ hc => absurd hc List.not_mem_nil

theorem Gap.space : Gap [' '] := fun _ hc => .inl (List.mem_singleton.mp hc)

theorem Gap.break (indent : Nat) : Gap ('\n' :: List.replicate indent ' ') := by
  intro c hc
  rcases List.mem_cons.mp hc with rfl | hc
  · exact .inr rfl
  · exact .inl (List.eq_of_mem_replicate hc)

/-- A text that a document can be laid out to. -/
inductive Shows : Doc → List Char → Prop
  | text (s) : Shows (.text s) s
  | line {w} (hGap : Gap w) (hNonempty : w ≠ []) : Shows .line w
  | soft {w} (hGap : Gap w) : Shows .soft w
  | cat {ds texts} (h : List.Forall₂ Shows ds texts) : Shows (.cat ds) texts.flatten
  | nest {n d t} (h : Shows d t) : Shows (.nest n d) t
  | group {d t} (h : Shows d t) : Shows (.group d) t
  | styled {role d t} (h : Shows d t) : Shows (.styled role d) t

/-- A text that a work item can be written as. -/
def Step.Shows : Step → List Char → Prop
  | doc _ _ d, t => Pretty.Shows d t
  | emit s, t => t = s

/-- The texts of a stack. -/
def Writes (stack : List Step) (out : List Char) : Prop :=
  ∃ texts, List.Forall₂ Step.Shows stack texts ∧ out = texts.flatten

namespace Writes

variable {stack : List Step} {out t : List Char} {x : Step}

theorem nil : Writes [] [] := ⟨[], .nil, rfl⟩

variable {indent : Nat} {mode : Mode}

theorem cons (hx : x.Shows t) (h : Writes stack out) : Writes (x :: stack) (t ++ out) := by
  obtain ⟨texts, hTexts, rfl⟩ := h
  exact ⟨t :: texts, .cons hx hTexts, rfl⟩

theorem of_cons (h : Writes (x :: stack) out) :
    ∃ t rest, x.Shows t ∧ Writes stack rest ∧ out = t ++ rest := by
  obtain ⟨texts, hTexts, rfl⟩ := h
  cases hTexts with
  | cons hx hRest => exact ⟨_, _, hx, ⟨_, hRest, rfl⟩, rfl⟩

/-- The first document is part of another one. -/
theorem replace {d d' : Doc} {indent' : Nat} {mode' : Mode}
    (hShows : ∀ t, Pretty.Shows d t → Pretty.Shows d' t)
    (h : Writes (.doc indent mode d :: stack) out) :
    Writes (.doc indent' mode' d' :: stack) out := by
  obtain ⟨t, rest, hx, hRest, rfl⟩ := of_cons h
  exact cons (hShows t hx) hRest

theorem of_stepsOf {ds : List Doc}
    (h : Writes (stepsOf indent mode ds ++ stack) out) :
    Writes (.doc indent mode (.cat ds) :: stack) out := by
  have hSplit : ∃ texts rest, List.Forall₂ Pretty.Shows ds texts ∧ Writes stack rest ∧
      out = texts.flatten ++ rest := by
    induction ds generalizing out with
    | nil => exact ⟨[], out, .nil, h, rfl⟩
    | cons d ds ih =>
      obtain ⟨t, rest, hd, hRest, rfl⟩ := of_cons h
      obtain ⟨texts, rest', hTexts, hStack, rfl⟩ := ih hRest
      exact ⟨t :: texts, rest', .cons hd hTexts, hStack, (List.append_assoc ..).symm⟩
  obtain ⟨texts, rest, hTexts, hStack, rfl⟩ := hSplit
  exact cons (.cat hTexts) hStack

end Writes

theorem layOut_writes (width col : Nat) (stack : List Step) :
    Writes stack (layOut width false col stack) := by
  fun_induction layOut width false col stack with
  | case1 => exact .nil
  | case2 col s stack ih => exact .cons rfl ih
  | case3 col indent mode stack s ih => exact .cons (.text s) ih
  | case4 col indent stack ih =>
    exact .cons (t := [' ']) (.line .space (List.cons_ne_nil _ _)) ih
  | case5 col indent mode stack hMode ih =>
    have hShows : (Step.doc indent mode .line).Shows ('\n' :: List.replicate indent ' ') :=
      .line (.break indent) (List.cons_ne_nil _ _)
    exact .cons hShows ih
  | case6 col indent stack ih => exact .cons (t := []) (.soft .nil) ih
  | case7 col indent mode stack hMode ih =>
    have hShows : (Step.doc indent mode .soft).Shows ('\n' :: List.replicate indent ' ') :=
      .soft (.break indent)
    exact .cons hShows ih
  | case8 col indent mode stack ds ih => exact .of_stepsOf ih
  | case9 col indent mode stack n d ih => exact ih.replace fun _ h => .nest h
  | case10 col indent mode stack d ih => exact ih.replace fun _ h => .group h
  | case11 col indent mode stack role d hColor => cases hColor
  | case12 col indent mode stack role d hColor ih => exact ih.replace fun _ h => .styled h

/-- What is written without colours is a text of the document. -/
theorem best_shows (width : Nat) (doc : Doc) : Shows doc (best width doc false) := by
  obtain ⟨t, rest, hShows, hRest, hOut⟩ := (layOut_writes width 0 [.doc 0 .break doc]).of_cons
  obtain ⟨texts, hTexts, rfl⟩ := hRest
  cases hTexts
  rw [best, hOut, List.flatten_nil, List.append_nil]
  exact hShows

/-! ## Colours -/

/-- The characters of SGR codes. -/
def IsCode (s : List Char) : Prop := ∀ c ∈ s, c.isDigit ∨ c = ';'

/-- What tells a terminal to change colours, and takes no place on it. -/
def IsEscape (s : List Char) : Prop :=
  ∃ codes : List Char, s = ANSI_START ++ codes ++ ['m'] ∧ IsCode codes

/-- `Coloured plain s`: `s` is `plain` with escapes in between. -/
inductive Coloured : List Char → List Char → Prop
  | nil : Coloured [] []
  | char (c) {plain s} (h : Coloured plain s) : Coloured (c :: plain) (c :: s)
  | escape {e plain s} (hEscape : IsEscape e) (h : Coloured plain s) : Coloured plain (e ++ s)

/-- The work items without the escapes. -/
def plainOf : List Step → List Step
  | [] => []
  | .emit _ :: stack => plainOf stack
  | .doc indent mode d :: stack => .doc indent mode d :: plainOf stack

theorem plainOf_stepsOf (indent : Nat) (mode : Mode) (ds : List Doc) (stack : List Step) :
    plainOf (stepsOf indent mode ds ++ stack) = stepsOf indent mode ds ++ plainOf stack := by
  induction ds with
  | nil => rfl
  | cons d ds ih => exact congrArg _ ih

theorem IsCode.append {s t : List Char} (hs : IsCode s) (ht : IsCode t) : IsCode (s ++ t) :=
  fun c hc => (List.mem_append.mp hc).elim (hs c) (ht c)

theorem isCode_decimal (n : Nat) : IsCode (decimal n) := by
  intro c hc
  obtain ⟨d, -, rfl⟩ := List.mem_map.mp hc
  exact .inl (Num.isDigit_digitChar d)

theorem isCode_hexColorToAnsi (s : List Char) : IsCode (hexColorToAnsi s) := by
  unfold hexColorToAnsi
  cases hFind : s.tails.findSome? hexColor with
  | none => exact fun _ hc => absurd hc List.not_mem_nil
  | some codes =>
    obtain ⟨t, -, hColor⟩ := List.exists_of_findSome?_eq_some hFind
    unfold hexColor at hColor
    split at hColor
    · have hSemicolon : IsCode [';'] := fun c hc => .inr (List.mem_singleton.mp hc)
      have hPlane : IsCode "38;2;".toList := by
        intro c hc
        fin_cases hc <;> decide
      simp only [Option.bind_eq_bind, Option.bind_eq_some_iff, Option.pure_def,
        Option.some.injEq] at hColor
      obtain ⟨a, -, b, -, c, -, d, -, e, -, f, -, rfl⟩ := hColor
      exact (((hPlane.append (isCode_decimal _)).append hSemicolon).append
        (isCode_decimal _)).append hSemicolon |>.append (isCode_decimal _)
    · cases hColor

theorem isCode_attributeCode (part : List Char) : IsCode (attributeCode part) := by
  intro c hc
  unfold attributeCode at hc
  split at hc
  all_goals fin_cases hc <;> decide

theorem isEscape_sgr (spec : String) : IsEscape (sgr spec) := by
  refine ⟨_, rfl, ?_⟩
  intro c hc
  obtain ⟨part, -, hPart⟩ := List.mem_flatMap.mp hc
  split at hPart
  · exact isCode_hexColorToAnsi part c hPart
  · exact isCode_attributeCode part c hPart

theorem isEscape_reset : IsEscape SGR_RESET := by
  refine ⟨"0;00;22;39;49".toList, rfl, ?_⟩
  intro c hc
  fin_cases hc <;> decide

theorem Coloured.append {plain s : List Char} (h : Coloured plain s) (t : List Char) :
    Coloured (t ++ plain) (t ++ s) := by
  induction t with
  | nil => exact h
  | cons c t ih => exact .char c ih

/-- Nothing but escapes is written as it is. -/
def Escaped (stack : List Step) : Prop := ∀ s, .emit s ∈ stack → IsEscape s

namespace Escaped

variable {stack : List Step} {x : Step} {indent : Nat} {mode : Mode}

theorem tail (h : Escaped (x :: stack)) : Escaped stack :=
  fun s hs => h s (List.mem_cons_of_mem x hs)

theorem doc (h : Escaped stack) (d : Doc) : Escaped (.doc indent mode d :: stack) := by
  intro s hs
  rcases List.mem_cons.mp hs with hs | hs
  · cases hs
  · exact h s hs

theorem emit {e : List Char} (he : IsEscape e) (h : Escaped stack) :
    Escaped (.emit e :: stack) := by
  intro s hs
  rcases List.mem_cons.mp hs with hs | hs
  · cases hs
    exact he
  · exact h s hs

theorem stepsOf (h : Escaped stack) (ds : List Doc) :
    Escaped (stepsOf indent mode ds ++ stack) := by
  induction ds with
  | nil => exact h
  | cons d ds ih => exact ih.doc d

end Escaped

theorem layOut_coloured (width col : Nat) (stack : List Step) (h : Escaped stack) :
    Coloured (layOut width false col (plainOf stack)) (layOut width true col stack) := by
  fun_induction layOut width true col stack with
  | case1 =>
    rw [plainOf, layOut]
    exact .nil
  | case2 col s stack ih => exact .escape (h s List.mem_cons_self) (ih h.tail)
  | case3 col indent mode stack s ih =>
    rw [plainOf, layOut]
    exact (ih h.tail).append s
  | case4 col indent stack ih =>
    rw [plainOf, layOut, if_pos rfl]
    exact .char ' ' (ih h.tail)
  | case5 col indent mode stack hMode ih =>
    rw [plainOf, layOut, if_neg hMode]
    exact .char '\n' ((ih h.tail).append _)
  | case6 col indent stack ih =>
    rw [plainOf, layOut, if_pos rfl]
    exact ih h.tail
  | case7 col indent mode stack hMode ih =>
    rw [plainOf, layOut, if_neg hMode]
    exact .char '\n' ((ih h.tail).append _)
  | case8 col indent mode stack ds ih =>
    rw [plainOf, layOut, ← plainOf_stepsOf]
    exact ih (h.tail.stepsOf ds)
  | case9 col indent mode stack n d ih =>
    rw [plainOf, layOut]
    exact ih (h.tail.doc d)
  | case10 col indent mode stack d ih =>
    rw [plainOf, layOut]
    exact ih (h.tail.doc d)
  | case11 col indent mode stack role d hColor ih =>
    have hPlain : layOut width false col (.doc indent mode (.styled role d) :: plainOf stack)
        = layOut width false col (.doc indent mode d :: plainOf stack) := by
      rw [layOut, if_neg Bool.false_ne_true]
    rw [plainOf, hPlain]
    exact ih (.emit (isEscape_sgr _) (.doc (.emit isEscape_reset h.tail) d))
  | case12 col indent mode stack role d hColor => exact absurd rfl hColor

/-- The coloured text is the text without colours, and escapes. -/
theorem best_coloured (width : Nat) (doc : Doc) :
    Coloured (best width doc false) (best width doc true) := by
  have hNone : Escaped [] := fun _ hs => absurd hs List.not_mem_nil
  exact layOut_coloured width 0 [.doc 0 .break doc] (hNone.doc doc)

end Quoin.Pretty
