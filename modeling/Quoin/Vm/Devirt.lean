import Mathlib
import Quoin.Vm.Numbers

/-!
# Quoin — the specialised operators

The compiler replaces the send of an operator by an instruction of its own
where both operands are inferred to be Integers, or to be Doubles. Such an
instruction checks the operands it finds: if they are what was inferred it
computes, and otherwise it does the send. So it can differ from the send only in
what it computes, and there it differs in one case: `<=` and `>=` of Doubles
one of which is a NaN (`devirt_agrees`).

## Results

* `devirt_agrees` — a specialised instruction does what the send does exactly if it does not compare
  a NaN by `<=` or `>=`;
* `devirt_disagrees` — `<=` of a NaN.
-/

namespace Quoin.Vm

open Portable (IntBinKind Symbol Constant)

variable {O E W : Type}

/-- The specialised instructions: their operands are on the stack, or in locals, or in a local
and the instruction itself. -/
inductive ArithInstr where
  | int (kind : IntBinKind)
  | double (kind : IntBinKind)
  | intBinLL (a b : Symbol) (kind : IntBinKind)
  | intBinLC (a : Symbol) (c : Constant) (kind : IntBinKind)
  | doubleBinLL (a b : Symbol) (kind : IntBinKind)
  | doubleBinLC (a : Symbol) (c : Constant) (kind : IntBinKind)

/-- The sends they stand for: `Send`, `SendLocalLocal` and `SendLocalConst` of an operator. -/
inductive SendInstr where
  | send (kind : IntBinKind)
  | sendLocalLocal (a b : Symbol) (kind : IntBinKind)
  | sendLocalConst (a : Symbol) (c : Constant) (kind : IntBinKind)

def ArithInstr.replaced : ArithInstr → SendInstr
  | .int kind | .double kind => .send kind
  | .intBinLL a b kind | .doubleBinLL a b kind => .sendLocalLocal a b kind
  | .intBinLC a c kind | .doubleBinLC a c kind => .sendLocalConst a c kind

/-- What a frame gives an instruction: the operand stack, its top first, and the locals. -/
structure Operands (O : Type) where
  stack : List (Value O)
  locals : Symbol → Option (Value O)

/-- The interpreter around these instructions. -/
structure Interp (O E W : Type) extends Library O E W where
  /-- The value of a constant that is not a number. -/
  materialize : Constant → Value O
  /-- The operand stack has too few values. -/
  stackUnderflow : E

variable (vm : Interp O E W) (frame : Operands O)

/-- `materialize_constant`. -/
def Interp.constant : Constant → Value O
  | .int i => .int i
  | .double bits => .double (.ofBits bits)
  | c => vm.materialize c

/-- A local's value, or nil where it is not bound. -/
def Operands.local (a : Symbol) : Value O := (frame.locals a).getD .nil

/-- `exec_send` of an operator's selector to the two values on top of the stack. -/
def execSend (kind : IntBinKind) : List (Value O) → VmM E W (List (Value O))
  | y :: x :: stack => do return (← send vm.toLibrary kind x y) :: stack
  | _ => throw (.other vm.stackUnderflow)

/-- A send instruction. -/
def SendInstr.exec : SendInstr → VmM E W (List (Value O))
  | .send kind => execSend vm kind frame.stack
  | .sendLocalLocal a b kind => execSend vm kind (frame.local b :: frame.local a :: frame.stack)
  | .sendLocalConst a c kind => execSend vm kind (vm.constant c :: frame.local a :: frame.stack)

/-- The arms of the specialised instructions. -/
def ArithInstr.exec : ArithInstr → VmM E W (List (Value O))
  | .int kind =>
    match frame.stack with
    | .int b :: .int a :: stack => do return (← ExceptT.mk (pure (intBin kind a b))) :: stack
    | _ => execSend vm kind frame.stack
  | .double kind =>
    match frame.stack with
    | .double b :: .double a :: stack => pure (doubleBin vm.rem kind a b :: stack)
    | _ => execSend vm kind frame.stack
  | .intBinLL a b kind =>
    match frame.locals a, frame.locals b with
    | some (.int x), some (.int y) =>
      do return (← ExceptT.mk (pure (intBin kind x y))) :: frame.stack
    | _, _ => execSend vm kind (frame.local b :: frame.local a :: frame.stack)
  | .intBinLC a c kind =>
    match frame.locals a, c with
    | some (.int x), .int y =>
      do return (← ExceptT.mk (pure (intBin kind x y))) :: frame.stack
    | _, _ => execSend vm kind (vm.constant c :: frame.local a :: frame.stack)
  | .doubleBinLL a b kind =>
    match frame.locals a, frame.locals b with
    | some (.double x), some (.double y) => pure (doubleBin vm.rem kind x y :: frame.stack)
    | _, _ => execSend vm kind (frame.local b :: frame.local a :: frame.stack)
  | .doubleBinLC a c kind =>
    match frame.locals a, c with
    | some (.double x), .double bits =>
      pure (doubleBin vm.rem kind x (.ofBits bits) :: frame.stack)
    | _, _ => execSend vm kind (vm.constant c :: frame.local a :: frame.stack)

/-! ## The condition -/

/-- The two Doubles a Double instruction computes with. -/
def ArithInstr.doubles : ArithInstr → Option (Float × Float)
  | .double _ =>
    match frame.stack with
    | .double b :: .double a :: _ => some (a, b)
    | _ => none
  | .doubleBinLL a b _ =>
    match frame.locals a, frame.locals b with
    | some (.double x), some (.double y) => some (x, y)
    | _, _ => none
  | .doubleBinLC a c _ =>
    match frame.locals a, c with
    | some (.double x), .double bits => some (x, .ofBits bits)
    | _, _ => none
  | _ => none

def ArithInstr.kind : ArithInstr → IntBinKind
  | .int kind | .double kind | .intBinLL _ _ kind | .intBinLC _ _ kind | .doubleBinLL _ _ kind
  | .doubleBinLC _ _ kind => kind

/-- A Double instruction for `<=` or `>=` that finds two Doubles, one of them a NaN. -/
def ArithInstr.Unordered (i : ArithInstr) : Prop :=
  (i.kind = .le ∨ i.kind = .ge) ∧ ∃ a b, i.doubles frame = some (a, b) ∧ (a.isNaN ∨ b.isNaN)

/-! ## What is computed -/

variable {vm : Interp O E W} {frame : Operands O}

/-- The send of an operator to an Integer, with an Integer. -/
theorem send_int (lib : Library O E W) (kind : IntBinKind) (a b : Int64) :
    send lib kind (.int a) (.int b) = ExceptT.mk (pure (intBin kind a b)) := by
  have hNotLt : ∀ x y : Int64, (!decide (x < y)) = decide (y ≤ x) := by
    intro x y
    rw [← decide_not]
    exact decide_eq_decide.mpr Int64.not_lt
  cases kind
  case le => exact congrArg (fun r => (pure (.bool r) : VmM E W (Value O))) (hNotLt b a)
  case ge => exact congrArg (fun r => (pure (.bool r) : VmM E W (Value O))) (hNotLt a b)
  case ne => exact congrArg (fun r => (pure (.bool r) : VmM E W (Value O))) (decide_not).symm
  all_goals rfl

theorem pure_bool_inj (x y : Bool) (w : W) :
    (pure (.bool x) : VmM E W (Value O)).run w = (pure (.bool y) : VmM E W (Value O)).run w ↔
      x = y := by
  constructor
  · intro hEq
    injection hEq with hOk
    injection hOk with hValue
    injection hValue
  · rintro rfl
    rfl

/-- The send of an operator to a Double, with a Double. -/
theorem send_double (lib : Library O E W) (kind : IntBinKind) (a b : Float) (w : W) :
    (pure (doubleBin lib.rem kind a b) : VmM E W (Value O)).run w =
        (send lib kind (.double a) (.double b)).run w ↔
      ¬ ((kind = .le ∨ kind = .ge) ∧ (a.isNaN ∨ b.isNaN)) := by
  cases kind
  case le =>
    have hSend : send lib .le (.double a) (.double b) = pure (.bool (!decide (b < a))) := rfl
    rw [hSend, doubleBin, pure_bool_inj, eq_comm, not_lt_eq_le_iff]
    simp
  case ge =>
    have hSend : send lib .ge (.double a) (.double b) = pure (.bool (!decide (a < b))) := rfl
    rw [hSend, doubleBin, pure_bool_inj, eq_comm]
    refine (not_lt_eq_le_iff b a).trans ?_
    simp [or_comm]
  all_goals exact ⟨fun _ h => by simp at h, fun _ => rfl⟩

/-! ## The instructions -/

/-- A value more on the stack tells two results apart just as well. -/
theorem push_inj (x y : VmM E W (Value O)) (stack : List (Value O)) (w : W) :
    (x >>= fun v => pure (v :: stack) : VmM E W (List (Value O))).run w =
        (y >>= fun v => pure (v :: stack) : VmM E W (List (Value O))).run w ↔
      x.run w = y.run w := by
  have hRun : ∀ z : VmM E W (Value O), (z >>= fun v => pure (v :: stack)).run w =
      ((z.run w).1.map (· :: stack), (z.run w).2) := by
    intro z
    rw [← map_eq_pure_bind, ExceptT.run_map]
    rfl
  rw [hRun, hRun]
  constructor
  · intro hEq
    obtain ⟨hFst, hSnd⟩ := Prod.mk.inj hEq
    refine Prod.ext ?_ hSnd
    generalize (x.run w).1 = r, (y.run w).1 = r' at hFst ⊢
    rcases r with e | v <;> rcases r' with e' | v'
    · exact congrArg Except.error (Except.error.inj hFst)
    · cases hFst
    · cases hFst
    · injection hFst with hList
      injection hList with hHead
      rw [hHead]
  · rintro hEq
    rw [hEq]

/-- With two Integers an operator's send computes what the instruction does. -/
theorem execSend_int (vm : Interp O E W) (kind : IntBinKind) (a b : Int64)
    (stack : List (Value O)) :
    execSend vm kind (.int b :: .int a :: stack) =
      do return (← ExceptT.mk (pure (intBin kind a b))) :: stack := by
  rw [execSend, send_int]

/-- With two Doubles it does so unless it compares a NaN with `<=` or `>=`. -/
theorem execSend_double (vm : Interp O E W) (kind : IntBinKind) (a b : Float)
    (stack : List (Value O)) (w : W) :
    (pure (doubleBin vm.rem kind a b :: stack) : VmM E W (List (Value O))).run w =
        (execSend vm kind (.double b :: .double a :: stack)).run w ↔
      ¬ ((kind = .le ∨ kind = .ge) ∧ (a.isNaN ∨ b.isNaN)) := by
  rw [execSend, ← send_double vm.toLibrary kind a b w, ← push_inj _ _ stack, pure_bind]

/-- A specialised instruction does what the send it stands for does, in every frame and world,
unless it compares a NaN with `<=` or `>=`. -/
theorem devirt_agrees (vm : Interp O E W) (frame : Operands O) (i : ArithInstr) (w : W) :
    (i.exec vm frame).run w = (i.replaced.exec vm frame).run w ↔ ¬ i.Unordered frame := by
  -- where no two doubles are found, the two sides do the same
  have hFallback : ∀ {x y : VmM E W (List (Value O))}, x = y → i.doubles frame = none →
      (x.run w = y.run w ↔ ¬ i.Unordered frame) := by
    rintro x _ rfl hNone
    refine ⟨fun _ ⟨_, a, b, hSome, _⟩ => ?_, fun _ => rfl⟩
    rw [hNone] at hSome
    cases hSome
  -- where two doubles are found, the send makes the same comparison, but for a NaN
  have hDoubles : ∀ {a b : Float} (stack : List (Value O)), i.doubles frame = some (a, b) →
      ((pure (doubleBin vm.rem i.kind a b :: stack) : VmM E W (List (Value O))).run w =
        (execSend vm i.kind (.double b :: .double a :: stack)).run w ↔ ¬ i.Unordered frame) := by
    intro a b stack hSome
    rw [execSend_double, ArithInstr.Unordered]
    refine not_congr (and_congr_right fun _ => ?_)
    constructor
    · exact fun hNaN => ⟨a, b, hSome, hNaN⟩
    · rintro ⟨a', b', hSome', hNaN⟩
      rw [hSome] at hSome'
      cases hSome'
      exact hNaN
  cases i with
  | int kind =>
    refine hFallback ?_ rfl
    rw [ArithInstr.exec, ArithInstr.replaced, SendInstr.exec]
    split
    · next hStack => rw [hStack, execSend_int]
    · rfl
  | double kind =>
    rw [ArithInstr.exec, ArithInstr.replaced, SendInstr.exec]
    split
    · next b a stack hStack =>
      rw [hStack]
      exact hDoubles stack (by rw [ArithInstr.doubles, hStack])
    · next hNot =>
      refine hFallback rfl ?_
      rw [ArithInstr.doubles]
      split
      · next b a stack hStack => exact absurd hStack (hNot b a stack)
      · rfl
  | intBinLL a b kind =>
    refine hFallback ?_ rfl
    rw [ArithInstr.exec, ArithInstr.replaced, SendInstr.exec, Operands.local, Operands.local]
    split
    · next hA hB =>
      rw [hA, hB]
      exact (execSend_int ..).symm
    · rfl
  | intBinLC a c kind =>
    refine hFallback ?_ rfl
    unfold ArithInstr.exec ArithInstr.replaced SendInstr.exec Operands.local
    dsimp only
    split
    · next hA =>
      rw [hA]
      exact (execSend_int ..).symm
    · rfl
  | doubleBinLL a b kind =>
    rw [ArithInstr.exec, ArithInstr.replaced, SendInstr.exec, Operands.local, Operands.local]
    split
    · next x y hA hB =>
      rw [hA, hB]
      exact hDoubles frame.stack (by rw [ArithInstr.doubles, hA, hB])
    · next hNot =>
      refine hFallback rfl ?_
      rw [ArithInstr.doubles]
      split
      · next x y hA hB => exact absurd hB (hNot x y hA)
      · rfl
  | doubleBinLC a c kind =>
    unfold ArithInstr.exec ArithInstr.replaced SendInstr.exec Operands.local
    dsimp only
    split
    · next x bits hA =>
      rw [hA]
      exact hDoubles frame.stack (by simp only [ArithInstr.doubles, hA])
    · next hNot =>
      refine hFallback rfl ?_
      unfold ArithInstr.doubles
      dsimp only
      split
      · next x bits hA => exact absurd rfl (hNot x bits hA)
      · rfl

/-- A VM in which no other send is ever answered. -/
def bareInterp : Interp Empty Unit Unit where
  rem a _ := a
  other _ _ _ := throw (.other ())
  materialize _ := .nil
  stackUnderflow := ()

/-- `n <= n` for a NaN: the instruction answers false, and the send true. -/
theorem devirt_disagrees : ¬ ∀ (vm : Interp Empty Unit Unit) (frame : Operands Empty)
    (i : ArithInstr) (w : Unit), (i.exec vm frame).run w = (i.replaced.exec vm frame).run w := by
  intro hAll
  let nan : Float := .ofBits 0x7ff8000000000000
  have hSame := hAll bareInterp ⟨[.double nan, .double nan], fun _ => none⟩ (.double .le) ()
  have hNot := (execSend_double bareInterp .le nan nan [] ()).mp hSame
  exact hNot ⟨.inl rfl, .inl (by decide)⟩

end Quoin.Vm
