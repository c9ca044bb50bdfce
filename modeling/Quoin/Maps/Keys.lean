import Mathlib
import Quoin.Maps.FastPath

/-!
# Quoin — equal keys and their hashes

The native `==` compares an Integer with a Double by converting it, which rounds;
a Double that is a whole number is hashed as the Integer it is. So a Double and an
Integer that it equals have one hash where converting the Double gets the Integer
back (`roundTrips`), and the others are equal with two hashes.
-/

namespace Quoin.Maps

namespace Value

variable {U E : Type} [DecidableEq U] {vm : Dispatch U E} {a b c : Value U}

def isNaN : Value U → Bool
  | .double d => d.isNaN
  | _ => false

/-- An Integer that equals a Double is what the Double is converted to. -/
def roundTrips : Value U → Value U → Bool
  | .int x, .double d | .double d, .int x => !(Num.nearest x == d) || Num.truncate d == x
  | _, _ => true

omit [DecidableEq U] in

/-- The numbers, of which values of two kinds can be equal. -/
def number : Value U → Bool
  | .int _ | .double _ => true
  | _ => false

theorem eq_of_nativeEq (hb : b.number = false) (hab : a.nativeEq b = true) : a = b := by
  cases b
  case int | double => cases hb
  all_goals
    cases a
    all_goals first
      | contradiction
      | rfl
      | exact congrArg _ (of_decide_eq_true hab)

theorem number_eq (hab : a.nativeEq b = true) : a.number = b.number := by
  cases hb : b.number
  · rw [eq_of_nativeEq hb hab, hb]
  · cases b
    case int | double =>
      cases a
      all_goals first
        | contradiction
        | rfl
    all_goals cases hb

theorem nativeEq_refl (ha : a.isNaN = false) : a.nativeEq a = true := by
  cases a with
  | double d => exact Num.beq_refl ha
  | nil => rfl
  | _ => exact decide_eq_true rfl

theorem nativeEq_symm (hab : a.nativeEq b = true) : b.nativeEq a = true := by
  cases hb : b.number
  · cases eq_of_nativeEq hb hab
    exact hab
  · have ha := (number_eq hab).trans hb
    cases b
    case int y =>
      cases a
      case int x => exact decide_eq_true (of_decide_eq_true hab : x = y).symm
      case double d => exact Num.beq_symm hab
      all_goals cases ha
    case double e =>
      cases a
      case int | double => exact Num.beq_symm hab
      all_goals cases ha
    all_goals cases hb

/-- Equality is transitive but where two Integers equal the Double between them. -/
theorem nativeEq_trans (hab : a.nativeEq b = true) (hbc : b.nativeEq c = true)
    (hRound : a.roundTrips b = true) (hRound' : b.roundTrips c = true) :
    a.nativeEq c = true := by
  cases hb : b.number
  · -- not numbers: equality is identity of the value
    rw [eq_of_nativeEq hb hab]
    exact hbc
  · have ha := (number_eq hab).trans hb
    have hc := (number_eq hbc).symm.trans hb
    cases b
    case double d =>
      cases a
      case int x =>
        -- an Integer and the Double between: each converts back
        cases c
        case int y =>
          have hx : (Num.nearest x == d) = true := hab
          have hy : (Num.nearest y == d) = true := Num.beq_symm hbc
          simp only [roundTrips, hx, hy, Bool.not_true, Bool.false_or, beq_iff_eq]
            at hRound hRound'
          exact decide_eq_true (hRound.symm.trans hRound')
        case double => exact Num.beq_trans hab hbc
        all_goals cases hc
      case double =>
        cases c
        case int | double => exact Num.beq_trans hab hbc
        all_goals cases hc
      all_goals cases ha
    case int y =>
      cases a
      case int x =>
        cases (of_decide_eq_true hab : x = y)
        exact hbc
      case double =>
        cases c
        case int z =>
          cases (of_decide_eq_true hbc : y = z)
          exact hab
        case double => exact Num.beq_trans hab hbc
        all_goals cases hc
      all_goals cases ha
    all_goals cases hb

theorem wholeDouble_iff {d : Float} : wholeDouble d = true ↔ Num.isWhole d = true ∧
    Num.nearest Int64.minValue ≤ d ∧ d ≤ Num.nearest Int64.maxValue := by
  rw [wholeDouble, Bool.and_eq_true, Bool.and_eq_true, decide_eq_true_eq, decide_eq_true_eq,
    and_assoc]

/-- A Double that equals an Integer is hashed as one. -/
theorem wholeDouble_of_beq {x : Int64} {d : Float} (hEq : (Num.nearest x == d) = true) :
    wholeDouble d = true := by
  obtain ⟨-, rfl | ⟨-, hZero⟩⟩ := Num.beq_iff.mp hEq
  · exact wholeDouble_iff.mpr (Num.whole_nearest x)
  · exact wholeDouble_iff.mpr (Num.whole_zero hZero)

omit [DecidableEq U] in
theorem hashScalar_double {d : Float} (hWhole : wholeDouble d = true) :
    (double d : Value U).hashScalar vm = some (vm.hashI64 (Num.truncate d)) := by
  rw [hashScalar, if_pos hWhole]

/-- Equal values that round-trip have one hash. -/
theorem hashScalar_eq (hab : a.nativeEq b = true) (hRound : a.roundTrips b = true) :
    a.hashScalar vm = b.hashScalar vm := by
  cases a with
  | double d =>
    cases b <;> try contradiction
    case int x =>
      have hx : (Num.nearest x == d) = true := Num.beq_symm hab
      simp only [roundTrips, hx, Bool.not_true, Bool.false_or, beq_iff_eq] at hRound
      rw [hashScalar_double (wholeDouble_of_beq hx), hRound]
      rfl
    case double d' =>
      obtain ⟨-, rfl | ⟨hZero, hZero'⟩⟩ := Num.beq_iff.mp hab
      · rfl
      · rw [hashScalar_double (wholeDouble_iff.mpr (Num.whole_zero hZero)),
          hashScalar_double (wholeDouble_iff.mpr (Num.whole_zero hZero')),
          Num.truncate_zero hZero, Num.truncate_zero hZero']
  | int x =>
    cases b <;> try contradiction
    case int y => simp_all [nativeEq]
    case double d =>
      have hx : (Num.nearest x == d) = true := hab
      simp only [roundTrips, hx, Bool.not_true, Bool.false_or, beq_iff_eq] at hRound
      rw [hashScalar_double (wholeDouble_of_beq hx), hRound]
      rfl
  | _ => cases b <;> simp_all [nativeEq]

/-- Values that are not equal need not convert. -/
theorem roundTrips_of_ne (hab : a.nativeEq b = false) : a.roundTrips b = true := by
  cases a <;> cases b <;> try rfl
  case int.double x d =>
    have hx : (Num.nearest x == d) = false := hab
    rw [roundTrips, hx]
    rfl
  case double.int d x =>
    have hx : (Num.nearest x == d) = false := by
      rw [← Bool.not_eq_true]
      exact fun hx => by simp [nativeEq, Num.beq_symm hx] at hab
    rw [roundTrips, hx]
    rfl

/-- A Double that equals an Integer and is converted to another one has another hash. -/
theorem roundTrips_of_hash (hInj : Function.Injective vm.hashI64) (hab : a.nativeEq b = true)
    (hHash : a.hashScalar vm = b.hashScalar vm) : a.roundTrips b = true := by
  have hPair {x : Int64} {d : Float} (hx : (Num.nearest x == d) = true)
      (hHash : (int x : Value U).hashScalar vm = (double d : Value U).hashScalar vm) :
      Num.truncate d = x := by
    rw [hashScalar_double (wholeDouble_of_beq hx)] at hHash
    exact (hInj (Option.some.inj hHash)).symm
  cases a <;> cases b <;> try rfl
  case int.double x d =>
    simp [roundTrips, hPair hab hHash]
  case double.int d x =>
    simp [roundTrips, hPair (Num.beq_symm hab) hHash.symm]

end Value

/-! ## The hash of a word -/

/-- `FxHasher` after one word. -/
def fxHash (word : UInt64) : UInt64 :=
  let hash := word * 0xf1357aea2e62a9c5
  hash <<< 26 ||| hash >>> 38

/-- The factor is odd: it has an inverse. -/
theorem mul_fxFactor (word : UInt64) :
    word * 0xf1357aea2e62a9c5 * 0x781494a55daaed0d = word := by
  rw [UInt64.mul_assoc]
  exact UInt64.mul_one word

/-- Rotating on by 38 bits gets a word back. -/
theorem rotated_back (b : BitVec 64) :
    (b <<< 26 ||| b >>> 38) >>> 26 ||| (b <<< 26 ||| b >>> 38) <<< 38 = b := by
  ext i hi
  simp only [BitVec.getElem_or, BitVec.getElem_shiftLeft, BitVec.getElem_ushiftRight,
    BitVec.getLsbD_or, BitVec.getLsbD_shiftLeft, BitVec.getLsbD_ushiftRight]
  have hBeyond : b.getLsbD (38 + (26 + i)) = false := BitVec.getLsbD_of_ge _ _ (by omega)
  by_cases hLow : i < 38
  · have hShifted : ¬26 + i < 26 := by omega
    have hWithin : 26 + i < 64 := by omega
    simp [hLow, hWithin, hBeyond, BitVec.getLsbD_eq_getElem hi]
  · have hShifted : ¬26 + i < 64 := by omega
    have hWithin : i - 38 < 26 := by omega
    have hBack : 38 + (i - 38) = i := by omega
    simp [hLow, hShifted, hWithin, hBack, hBeyond, BitVec.getLsbD_eq_getElem hi]

theorem fxHash_injective : Function.Injective fxHash := by
  have hRotate : Function.Injective fun h : UInt64 => h <<< 26 ||| h >>> 38 := by
    intro h h' hEq
    have hBits := congrArg UInt64.toBitVec hEq
    rw [← UInt64.toBitVec_inj, ← rotated_back h.toBitVec, ← rotated_back h'.toBitVec]
    exact congrArg (fun b : BitVec 64 => b >>> 26 ||| b <<< 38) hBits
  intro x y hEq
  rw [← mul_fxFactor x, ← mul_fxFactor y, hRotate hEq]

/-- A VM without user classes. -/
def scalarsOnly : Dispatch Empty Unit where
  hashI64 i := fxHash i.toUInt64
  hashBytes bytes := bytes.foldl (fun hash b => fxHash (hash + b.toUInt64)) 0
  hashNative p := fxHash p.toUInt64
  hash := nofun
  eq := nofun
  matchesType _ _ := true
  elemTypeError _ _ := ()

theorem scalarsOnly_injective : Function.Injective scalarsOnly.hashI64 :=
  fxHash_injective.comp fun _ _ hEq => Int64.toBitVec_inj.mp (congrArg UInt64.toBitVec hEq)

end Quoin.Maps
