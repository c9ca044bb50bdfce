import Mathlib
import Quoin.Trans.Run

/-!
# Quoin — the formatter's documents

The formatter lowers a program to a document, and `render` lays the document out
within a width: a group stands on one line where a lookahead over it and over what
follows it finds that the line has room, and is broken otherwise. A line that ends
loses the spaces at its end.
-/

namespace Quoin.Fmt

open Trans

/-! ## Documents -/

inductive Doc where
  | nil
  | text (s : List Char)
  | verbatim (s : List Char)
  | line
  /-- A text for the flat layout alone. -/
  | flatText (s : List Char)
  | softLine
  | hardLine
  | concat (ds : List Doc)
  | nest (n : Int) (d : Doc)
  | align (d : Doc)
  | group (d : Doc)
  /-- `fit` if `need` columns fit at `indent + extra`, and `els` otherwise. -/
  | preferIfFits (need : Option Nat) (extra : Int) (fit els : Doc)

mutual

/-- How many constructors a document has. -/
def Doc.size : Doc → Nat
  | .nil | .text _ | .verbatim _ | .line | .flatText _ | .softLine | .hardLine => 1
  | .concat ds => sizes ds + 1
  | .nest _ d => d.size + 1
  | .align d => d.size + 1
  | .group d => d.size + 1
  | .preferIfFits _ _ fit els => fit.size + els.size + 1

def sizes : List Doc → Nat
  | [] => 0
  | d :: ds => d.size + sizes ds

end

mutual

/-- `flat_width`. -/
def flatWidth : Doc → Option Nat
  | .nil | .softLine => some 0
  | .line => some 1
  | .flatText s => some s.length
  | .text s => some s.length
  | .verbatim s => if '\n' ∈ s then none else some s.length
  | .hardLine => none
  | .concat ds => flatWidths 0 ds
  | .nest _ d => flatWidth d
  | .align d => flatWidth d
  | .group d => flatWidth d
  | .preferIfFits _ _ fit _ => flatWidth fit

/-- The `try_fold` over the parts. -/
def flatWidths (acc : Nat) : List Doc → Option Nat
  | [] => some acc
  | d :: ds =>
    match flatWidth d with
    | some w => flatWidths (acc + w) ds
    | none => none

end

inductive Mode where
  | flat
  | break
  deriving DecidableEq

/-- A work item: an indentation, a mode and a document. -/
abbrev Frame := Nat × Mode × Doc

/-- What the lookahead sees of a work item. -/
abbrev Sight := Mode × Doc

/-- The parts of a document, to be laid out alike. -/
def framesOf (indent : Nat) (mode : Mode) (ds : List Doc) : List Frame :=
  ds.map fun d => (indent, mode, d)

def sightsOf (mode : Mode) (ds : List Doc) : List Sight := ds.map fun d => (mode, d)

/-- The work items as the lookahead sees them. -/
def sights (stack : List Frame) : List Sight := stack.map Prod.snd

def weight (pending : List Sight) : Nat := (pending.map fun x => x.2.size).sum

@[simp] theorem weight_cons (x : Sight) (pending : List Sight) :
    weight (x :: pending) = x.2.size + weight pending := by
  simp [weight]

@[simp] theorem weight_append (xs pending : List Sight) :
    weight (xs ++ pending) = weight xs + weight pending := by
  simp [weight]

@[simp] theorem weight_sightsOf (mode : Mode) (ds : List Doc) :
    weight (sightsOf mode ds) = sizes ds := by
  induction ds with
  | nil => rfl
  | cons d ds ih =>
    rw [sightsOf] at ih ⊢
    rw [List.map_cons, weight_cons, ih, sizes]

@[simp] theorem sights_cons (x : Frame) (stack : List Frame) :
    sights (x :: stack) = x.2 :: sights stack := rfl

@[simp] theorem sights_append (xs stack : List Frame) :
    sights (xs ++ stack) = sights xs ++ sights stack :=
  List.map_append ..

@[simp] theorem sights_framesOf (indent : Nat) (mode : Mode) (ds : List Doc) :
    sights (framesOf indent mode ds) = sightsOf mode ds := by
  simp [sights, framesOf, sightsOf]

/-! ## The lookahead -/

/-- The loop of `fits`. The stack has its top first, and under the documents that the loop has put
there stands the rest of the work. -/
def scan (remaining : Int) (pending : List Sight) : Bool :=
  match pending with
  | [] => true
  | (mode, doc) :: pending =>
    match doc with
    | .nil => scan remaining pending
    | .text s =>
      if remaining - s.length < 0 then false else scan (remaining - s.length) pending
    | .verbatim s =>
      if '\n' ∈ s then true
      else if remaining - s.length < 0 then false else scan (remaining - s.length) pending
    | .concat ds => scan remaining (sightsOf mode ds ++ pending)
    | .nest _ d => scan remaining ((mode, d) :: pending)
    | .align d => scan remaining ((mode, d) :: pending)
    | .preferIfFits _ _ fit _ => scan remaining ((mode, fit) :: pending)
    | .line =>
      if mode = .flat then if remaining - 1 < 0 then false else scan (remaining - 1) pending
      else true
    | .flatText s =>
      if mode = .flat then
        if remaining - s.length < 0 then false else scan (remaining - s.length) pending
      else scan remaining pending
    | .softLine => if mode = .break then true else scan remaining pending
    | .hardLine => mode ≠ .flat
    | .group d => scan remaining ((.flat, d) :: pending)
termination_by weight pending
decreasing_by
  all_goals simp only [weight_append, weight_cons, weight_sightsOf, Doc.size]
  all_goals omega

def fits (remaining : Int) (doc : Doc) (rest : List Frame) : Bool :=
  if remaining < 0 then false else scan remaining ((.flat, doc) :: sights rest)

/-! ## The renderer -/

/-- `x as isize`, on 64 bits. -/
def isize (x : Int) : Int := x.bmod (2 ^ 64)

def remaining (width : UInt64) (col : Nat) : Int := isize (isize width.toNat - isize col)

/-- The mode in which a group is laid out. -/
def modeOf (width : UInt64) (col : Nat) (d : Doc) (rest : List Frame) : Mode :=
  if fits (remaining width col) d rest then .flat else .break

/-- Whether `need` columns fit at `indent + extra`. -/
def hasRoom (width : UInt64) (indent : Nat) (need : Option Nat) (extra : Int) : Bool :=
  match need with
  | some w => isize (isize (isize indent + extra) + isize w) ≤ isize width.toNat
  | none => false

def nested (indent : Nat) (n : Int) : Nat := (max (isize (isize indent + n)) 0).toNat

/-- The column after a text: the characters after its last line break, if it has one. -/
def colAfter (col : Nat) (s : List Char) : Nat :=
  if '\n' ∈ s then (s.rtakeWhile (· ≠ '\n')).length else col + s.length

/-- `newline`. -/
def newline (out : List Char) (indent : Nat) : List Char :=
  out.rdropWhile (· = ' ') ++ '\n' :: List.replicate indent ' '

/-- The output, its column and the work to be done, with its top first. -/
structure State where
  out : List Char
  col : Nat
  stack : List Frame

/-- The loop of `render`, once. -/
def step (width : UInt64) (s : State) : Option State :=
  match s.stack with
  | [] => none
  | (indent, mode, doc) :: stack =>
    match doc with
    | .nil => some ⟨s.out, s.col, stack⟩
    | .text t => some ⟨s.out ++ t, s.col + t.length, stack⟩
    | .verbatim t => some ⟨s.out ++ t, colAfter s.col t, stack⟩
    | .concat ds => some ⟨s.out, s.col, framesOf indent mode ds ++ stack⟩
    | .nest n d => some ⟨s.out, s.col, (nested indent n, mode, d) :: stack⟩
    | .align d => some ⟨s.out, s.col, (s.col, mode, d) :: stack⟩
    | .preferIfFits need extra fit els =>
      some ⟨s.out, s.col,
        (indent, mode, if hasRoom width indent need extra then fit else els) :: stack⟩
    | .line =>
      if mode = .flat then some ⟨s.out ++ [' '], s.col + 1, stack⟩
      else some ⟨newline s.out indent, indent, stack⟩
    | .flatText t =>
      if mode = .flat then some ⟨s.out ++ t, s.col + t.length, stack⟩
      else some ⟨s.out, s.col, stack⟩
    | .softLine =>
      if mode = .break then some ⟨newline s.out indent, indent, stack⟩
      else some ⟨s.out, s.col, stack⟩
    | .hardLine => some ⟨newline s.out indent, indent, stack⟩
    | .group d => some ⟨s.out, s.col, (indent, modeOf width s.col d stack, d) :: stack⟩

def start (doc : Doc) : State := ⟨[], 0, [(0, .break, doc)]⟩

theorem step_weight {width : UInt64} {s s' : State} (h : step width s = some s') :
    weight (sights s'.stack) < weight (sights s.stack) := by
  obtain ⟨out, col, stack⟩ := s
  rcases stack with _ | ⟨⟨indent, mode, doc⟩, stack⟩
  · cases h
  cases doc
  case line | flatText | softLine =>
    simp only [step] at h
    split at h
    all_goals cases h
    all_goals simp [Doc.size]
  case preferIfFits need extra fit els =>
    cases h
    simp only [sights_cons, weight_cons, Doc.size]
    by_cases hRoom : hasRoom width indent need extra
    · rw [if_pos hRoom]
      omega
    · rw [if_neg hRoom]
      omega
  all_goals
    cases h
    simp only [sights_cons, sights_append, sights_framesOf, weight_append, weight_cons,
      weight_sightsOf, Doc.size]
    omega

/-- What is written when the work is done. -/
def run (width : UInt64) (s : State) : List Char :=
  match _h : step width s with
  | none => s.out
  | some s' => run width s'
termination_by weight (sights s.stack)
decreasing_by exact step_weight _h

def render (doc : Doc) (width : UInt64) : List Char := run width (start doc)

theorem run_done {width : UInt64} {s : State} (h : step width s = none) :
    run width s = s.out := by
  rw [run]
  split
  next => rfl
  next s' hs => rw [h] at hs; cases hs

theorem run_step {width : UInt64} {s s' : State} (h : step width s = some s') :
    run width s = run width s' := by
  rw [run]
  split
  next hs => rw [h] at hs; cases hs
  next s'' hs =>
    rw [h] at hs
    cases hs
    rfl

end Quoin.Fmt
