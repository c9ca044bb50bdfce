import Mathlib
import Quoin.Portable.Block

/-!
# Quoin — numbers

The binary operators of Integer and Double: `int_bin` and `double_bin`, which
compute them, and what sending an operator's selector to a number does. Only
`+ - * / % <` and `==` are native methods of the number classes. `!=` is a
native method of Object that sends `==:`, and `>`, `<=`, `>=` are methods of
Object, in the core library, that send `<:` (and `!`).

A Double is a binary64 number (`Float`), and an Integer an `Int64`. What a send
does that no number class answers is a parameter (`Library.other`), and so is
the remainder of two Doubles.
-/

namespace Quoin.Vm

open Portable (IntBinKind Symbol)

/-- A value: the immediates, and an object or a class. -/
inductive Value (O : Type) where
  | int (i : Int64)
  | double (d : Float)
  | bool (b : Bool)
  | nil
  | object (o : O)

/-- A raised error: an `ArithmeticError` with its text, or another one. -/
inductive Error (E : Type) where
  | arithmeticError (msg : String)
  | other (e : E)

/-- Running the VM: it changes the world `W` and may raise. -/
abbrev VmM (E W : Type) := ExceptT (Error E) (StateM W)

/-- What the number classes leave open. -/
structure Library (O E W : Type) where
  /-- `%` of two `f64`s. -/
  rem : Float → Float → Float
  /-- The sends that no method of a number class answers: to another object, with an
  argument that is not a number, or not understood. -/
  other : String → Value O → List (Value O) → VmM E W (Value O)

end Quoin.Vm

/-- The selector an operator sends. -/
def Quoin.Portable.IntBinKind.selector : Quoin.Portable.IntBinKind → String
  | .add => "+:"
  | .sub => "-:"
  | .mul => "*:"
  | .div => "/:"
  | .mod => "%:"
  | .lt => "<:"
  | .le => "<=:"
  | .gt => ">:"
  | .ge => ">=:"
  | .eq => "==:"
  | .ne => "!=:"

namespace Quoin.Vm

open Portable (IntBinKind Symbol)

variable {O E W : Type}

/-! ## The operators -/

def divisionByZero : Error E := .arithmeticError "Division by zero"

def integerOverflow : Error E := .arithmeticError "Integer overflow"

/-- `checked_add` and the like: the exact result, if an `i64` holds it. -/
def checked (z : Int) : Except (Error E) Int64 :=
  if Int64.minValue.toInt ≤ z ∧ z ≤ Int64.maxValue.toInt then .ok (.ofInt z)
  else .error integerOverflow

/-- `int_bin`. -/
def intBin (kind : IntBinKind) (a b : Int64) : Except (Error E) (Value O) :=
  match kind with
  | .add => .int <$> checked (a.toInt + b.toInt)
  | .sub => .int <$> checked (a.toInt - b.toInt)
  | .mul => .int <$> checked (a.toInt * b.toInt)
  | .div =>
    if b = 0 then .error divisionByZero else
    if b = -1 then .int <$> checked (-a.toInt) else .ok (.int (a / b))
  | .mod =>
    if b = 0 then .error divisionByZero else
    if b = -1 then .ok (.int 0) else .ok (.int (a % b))
  | .lt => .ok (.bool (a < b))
  | .le => .ok (.bool (a ≤ b))
  | .gt => .ok (.bool (a > b))
  | .ge => .ok (.bool (a ≥ b))
  | .eq => .ok (.bool (a = b))
  | .ne => .ok (.bool (a ≠ b))

/-- `double_bin`. -/
def doubleBin (rem : Float → Float → Float) (kind : IntBinKind) (a b : Float) : Value O :=
  match kind with
  | .add => .double (a + b)
  | .sub => .double (a - b)
  | .mul => .double (a * b)
  | .div => .double (a / b)
  | .mod => .double (rem a b)
  | .lt => .bool (a < b)
  | .le => .bool (a ≤ b)
  | .gt => .bool (a > b)
  | .ge => .bool (a ≥ b)
  | .eq => .bool (a == b)
  | .ne => .bool (a != b)

/-! ## The sends -/

/-- The `==` of values, for a number on the left. -/
def numberEq : Value O → Value O → Bool
  | .int x, .int y => x = y
  | .double x, .double y => x == y
  | .int x, .double y => x.toFloat == y
  | .double x, .int y => x == y.toFloat
  | _, _ => false

/-- A native operator of a number class (`int_binop!`, `double_binop!`): it has one variant
for an Integer argument and one for a Double. -/
def sendNative (lib : Library O E W) (kind : IntBinKind) (x y : Value O) : VmM E W (Value O) :=
  match x, y with
  | .int a, .int b => liftExcept (intBin kind a b)
  | .int a, .double b => pure (doubleBin lib.rem kind a.toFloat b)
  | .double a, .int b => pure (doubleBin lib.rem kind a b.toFloat)
  | .double a, .double b => pure (doubleBin lib.rem kind a b)
  | x, y => lib.other kind.selector x [y]
where
  liftExcept (r : Except (Error E) (Value O)) : VmM E W (Value O) := ExceptT.mk (pure r)

/-- `!`: of the booleans, of nil, of every other object that does not override it. -/
def sendNot (lib : Library O E W) : Value O → VmM E W (Value O)
  | .bool b => pure (.bool !b)
  | .nil => pure (.bool true)
  | .int _ => pure (.bool false)
  | .double _ => pure (.bool false)
  | .object o => lib.other "!" (.object o) []

/-- `==:` of a number. -/
def sendEq (lib : Library O E W) (x y : Value O) : VmM E W (Value O) :=
  match x with
  | .int a => pure (.bool (numberEq (.int a) y))
  | .double a => pure (.bool (numberEq (.double a) y))
  | x => lib.other IntBinKind.eq.selector x [y]

/-- Whether a value is `false` (`eq_result == false_val`). -/
def Value.isFalse : Value O → Bool
  | .bool b => !b
  | _ => false

/-- What an operator's selector does when it is sent to a number. -/
def sendNumber (lib : Library O E W) (kind : IntBinKind) (x y : Value O) : VmM E W (Value O) :=
  match kind with
  | .add | .sub | .mul | .div | .mod | .lt => sendNative lib kind x y
  -- `>:` is `x < self`, so the argument is the receiver of the send
  | .gt => sendNative lib .lt y x
  -- `<=:` is `!(x < self)`
  | .le => do sendNot lib (← sendNative lib .lt y x)
  -- `>=:` is `!(self < x)`
  | .ge => do sendNot lib (← sendNative lib .lt x y)
  | .eq => sendEq lib x y
  -- `!=:` compares the answer to `==:` with `false`
  | .ne => do return .bool (← sendEq lib x y).isFalse

/-- Sending an operator's selector. -/
def send (lib : Library O E W) (kind : IntBinKind) (x y : Value O) : VmM E W (Value O) :=
  match x with
  | .int _ => sendNumber lib kind x y
  | .double _ => sendNumber lib kind x y
  | x => lib.other kind.selector x [y]

/-! ## The order of the Doubles -/

section Compare

open Float.Model

/-- The IEEE comparison of two Doubles; `none` where one of them is a NaN. -/
def compareDoubles (a b : Float) : Option Ordering := a.toModel.compare b.toModel

theorem compare_magnitude_swap (m m' : Nat) (e e' : Int) :
    (compare e' e).then (compare m' m) = ((compare e e').then (compare m m')).swap := by
  rw [Ordering.swap_then, Int.compare_swap, Nat.compare_swap]

/-- Comparing two numbers the other way round turns the answer round. -/
theorem UnpackedFloat.compare_swap (a b : UnpackedFloat) :
    b.compare a = (a.compare b).map Ordering.swap := by
  rcases a with ⟨⟨⟩⟩ | _ | ⟨⟨⟩⟩ | ⟨⟨⟩, m, e, hm⟩ <;>
    rcases b with ⟨⟨⟩⟩ | _ | ⟨⟨⟩⟩ | ⟨⟨⟩, m', e', hm'⟩ <;>
    first
      | rfl
      | exact congrArg (fun o => some o.swap) (compare_magnitude_swap _ _ _ _)
      | exact congrArg some (compare_magnitude_swap _ _ _ _)

/-- Two numbers are incomparable where one of them is a NaN. -/
theorem UnpackedFloat.compare_eq_none (a b : UnpackedFloat) :
    a.compare b = none ↔ a.isNaN ∨ b.isNaN := by
  rcases a with ⟨⟨⟩⟩ | _ | ⟨⟨⟩⟩ | ⟨⟨⟩, m, e, hm⟩ <;>
    rcases b with ⟨⟨⟩⟩ | _ | ⟨⟨⟩⟩ | ⟨⟨⟩, m', e', hm'⟩ <;>
    simp [UnpackedFloat.compare, UnpackedFloat.isNaN]

theorem compareDoubles_swap (a b : Float) :
    compareDoubles b a = (compareDoubles a b).map Ordering.swap :=
  UnpackedFloat.compare_swap _ _

theorem compareDoubles_eq_none {a b : Float} :
    compareDoubles a b = none ↔ a.isNaN ∨ b.isNaN :=
  UnpackedFloat.compare_eq_none _ _

theorem decide_lt (a b : Float) : decide (a < b) = (compareDoubles a b == some .lt) := by
  show decide (Float.lt a b = true) = _
  rw [Bool.decide_eq_true, Float.lt]
  exact Bool.decide_eq_true

theorem decide_le (a b : Float) : decide (a ≤ b) = (compareDoubles a b).any Ordering.isLE := by
  show decide (Float.le a b = true) = _
  rw [Bool.decide_eq_true, Float.le]
  exact Bool.decide_eq_true

/-- `!(b < a)` is `a ≤ b` unless one of them is a NaN: then it is true, and `a ≤ b` is not. -/
theorem not_lt_eq_le_iff (a b : Float) :
    (!decide (b < a)) = decide (a ≤ b) ↔ ¬ (a.isNaN ∨ b.isNaN) := by
  rw [decide_lt, decide_le, compareDoubles_swap, ← compareDoubles_eq_none]
  rcases compareDoubles a b with _ | _ | _ | _ <;> decide

end Compare

end Quoin.Vm
