import Mathlib

/-!
# Lexical — frames and lexical chains

The environments of a lexically scoped language: bindings live in frames, a
frame is an association list (`Vars`), and a closure sees a `Chain` of frames,
innermost first. A read takes the first frame of the chain that binds the name
(`get`), an assignment rebinds it there (`set`), a declaration binds it in the
innermost frame (`bindIn`). Frames are never freed and chains never change, so
a chain is a list of frame numbers.

The fact everything rests on: a read through `c ++ d` is a read through `c`, and
one through `d` where `c` does not bind the name (`get_append`).
-/

namespace Lexical

variable {σ ν : Type} [DecidableEq σ]

/-- The bindings of one frame. -/
abbrev Vars (σ ν : Type) := List (σ × ν)

/-- The frames, by number. -/
abbrev Frames (σ ν : Type) := List (Vars σ ν)

/-- The frames a name is looked for in, innermost first. -/
abbrev Chain := List Nat

/-! ## One frame -/

namespace Vars

def lookup (name : σ) : Vars σ ν → Option ν
  | [] => none
  | (n, v) :: rest => if n = name then some v else lookup name rest

/-- Bind a name: in place if it is bound already, else at the end. -/
def bind (name : σ) (val : ν) : Vars σ ν → Vars σ ν
  | [] => [(name, val)]
  | (n, v) :: rest => if n = name then (n, val) :: rest else (n, v) :: bind name val rest

@[simp] theorem lookup_bind_self (vars : Vars σ ν) (name : σ) (val : ν) :
    (vars.bind name val).lookup name = some val := by
  induction vars with
  | nil => simp [bind, lookup]
  | cons p rest ih =>
    by_cases h : p.1 = name
    · simp [bind, lookup, h]
    · simp [bind, lookup, h, ih]

theorem lookup_bind_ne {vars : Vars σ ν} {name other : σ} {val : ν} (hne : other ≠ name) :
    (vars.bind name val).lookup other = vars.lookup other := by
  induction vars with
  | nil => simp [bind, lookup, Ne.symm hne]
  | cons p rest ih =>
    by_cases h : p.1 = name
    · simp [bind, lookup, h, Ne.symm hne]
    · simp [bind, lookup, h, ih]

end Vars

/-! ## Chains -/

/-- The bindings of frame `i`. -/
def vars (fs : Frames σ ν) (i : Nat) : Vars σ ν := fs.getD i []

/-- Bind a name in frame `i`. -/
def bindIn (fs : Frames σ ν) (i : Nat) (name : σ) (val : ν) : Frames σ ν :=
  fs.modify i (Vars.bind name val)

/-- Read a name through a chain. -/
def get (fs : Frames σ ν) : Chain → σ → Option ν
  | [], _ => none
  | i :: rest, name =>
    match (vars fs i).lookup name with
    | some v => some v
    | none => get fs rest name

/-- Assign to the nearest binding of a name, if there is one. -/
def set (fs : Frames σ ν) : Chain → σ → ν → Option (Frames σ ν)
  | [], _, _ => none
  | i :: rest, name, val =>
    if ((vars fs i).lookup name).isSome then some (bindIn fs i name val)
    else set fs rest name val

variable {fs : Frames σ ν} {c d : Chain} {name : σ} {val : ν}

omit [DecidableEq σ] in
theorem vars_append {i : Nat} (h : i < fs.length) (gs : Frames σ ν) :
    vars (fs ++ gs) i = vars fs i := by
  simp [vars, List.getElem?_append_left h]

theorem vars_bindIn_ne {i j : Nat} (h : i ≠ j) :
    vars (bindIn fs i name val) j = vars fs j := by
  simp [vars, bindIn, h]

@[simp] theorem length_bindIn (i : Nat) : (bindIn fs i name val).length = fs.length := by
  simp [bindIn]

/-- A binding leaves the other names of every frame alone. -/
theorem lookup_bindIn_ne {other : σ} (hne : other ≠ name) (i j : Nat) :
    (vars (bindIn fs i name val) j).lookup other = (vars fs j).lookup other := by
  by_cases hij : i = j
  · subst hij
    by_cases hi : i < fs.length
    · simp [vars, bindIn, hi, Vars.lookup_bind_ne hne]
    · simp [vars, bindIn, hi]
  · rw [vars_bindIn_ne hij]

/-- So does an assignment. -/
theorem lookup_set_ne {gs : Frames σ ν} {other : σ} (hne : other ≠ name)
    (h : set fs c name val = some gs) (j : Nat) :
    (vars gs j).lookup other = (vars fs j).lookup other := by
  induction c with
  | nil => cases h
  | cons i rest ih =>
    rw [set] at h
    split_ifs at h with hBound
    · cases h
      exact lookup_bindIn_ne hne i j
    · exact ih h

theorem length_set {gs : Frames σ ν} (h : set fs c name val = some gs) :
    gs.length = fs.length := by
  induction c with
  | nil => cases h
  | cons i rest ih =>
    rw [set] at h
    split_ifs at h with hBound
    · cases h
      exact length_bindIn i
    · exact ih h

/-- A read through two chains in a row. -/
theorem get_append : get fs (c ++ d) name = (get fs c name).or (get fs d name) := by
  induction c with
  | nil => simp [get]
  | cons i rest ih =>
    cases h : (vars fs i).lookup name with
    | none => simp [get, h, ih]
    | some v => simp [get, h]

theorem get_singleton (i : Nat) : get fs [i] name = (vars fs i).lookup name := by
  cases h : (vars fs i).lookup name <;> simp [get, h]

end Lexical
