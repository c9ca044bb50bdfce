import Mathlib

/-!
# binary64 numbers

The numbers of `Float` are unpacked into a sign, a mantissa and an exponent. Two
numbers that are not NaNs compare equal exactly when they are the same, zeros
apart (`beq_iff`). An integer is rounded to a mantissa of 53 bits, and is then
a whole number again, no larger than the largest one (`whole_nearest`).
-/

namespace Num

open Float.Model Float.Model.UnpackedFloat

abbrev binary64 : Format := Format.binary64

/-! ## Conversions -/

/-- The nearest number to an integer, the even one of two. -/
def nearest (n : Int64) : Float := .ofModel (.ofInt64 n)

/-- The integer towards zero; the first or last one for a number beyond it, and 0 for a NaN. -/
def truncate (d : Float) : Int64 := d.toModel.toInt64

/-- Whether an unpacked number has no fraction. -/
def isWholeUnpacked : UnpackedFloat → Bool
  | .zero _ => true
  | .finite _ m e _ => decide (0 ≤ e) || m % 2 ^ (-e).toNat == 0
  | .infinity _ | .notANumber => false

/-- Whether the fraction of a number is 0; that of an infinity is a NaN. -/
def isWhole (d : Float) : Bool := isWholeUnpacked d.toModel.unpack

/-! ## Unpacking -/

section Unpack

variable {b b' : BitVec binary64.numBits}

/-- A word is its sign, exponent and mantissa. -/
theorem eq_of_fields (hSign : unpackSign b = unpackSign b')
    (hExponent : unpackExponent b = unpackExponent b')
    (hMantissa : unpackMantissa b = unpackMantissa b') : b = b' := by
  have hBit (i : Nat) (hi : i < 64) : b.getLsbD i = b'.getLsbD i := by
    rcases Nat.lt_or_ge i 52 with hLow | hHigh
    · have hEq := congrArg (fun v => v.getLsbD i) hMantissa
      simpa [unpackMantissa, hLow] using hEq
    · rcases Nat.lt_or_ge i 63 with hMid | hTop
      · have hEq := congrArg (fun v => v.getLsbD (i - 52)) hExponent
        have hIn : i - 52 < 11 := by omega
        have hBack : 52 + (i - 52) = i := by omega
        simpa [unpackExponent, hIn, hBack, show i - 52 ≤ 10 by omega] using hEq
      · have hEq := congrArg (fun v => v.getLsbD 0) hSign
        have hLast : i = 63 := by omega
        subst hLast
        simpa [unpackSign] using hEq
  exact BitVec.eq_of_getLsbD_eq fun i hi => hBit i hi

/-- What a word is unpacked to, by the values of its exponent. -/
theorem unpack_max (hExponent : unpackExponent b = -1#11) : unpack binary64 b =
    if unpackMantissa b = 0#52 then .infinity (.ofBitVec (unpackSign b)) else .notANumber := by
  unfold UnpackedFloat.unpack
  rw [if_pos hExponent]

theorem unpack_zero (hExponent : unpackExponent b = 0#11) (hMantissa : unpackMantissa b = 0#52) :
    unpack binary64 b = .zero (.ofBitVec (unpackSign b)) := by
  unfold UnpackedFloat.unpack
  rw [if_neg (by rw [hExponent]; decide), if_pos hExponent, dif_pos hMantissa]

theorem unpack_subnormal (hExponent : unpackExponent b = 0#11) (hMantissa : unpackMantissa b ≠ 0#52) :
    ∃ hPos, unpack binary64 b =
      .finite (.ofBitVec (unpackSign b)) (unpackMantissa b).toNat (-1074) hPos := by
  have hPos : 0 < (unpackMantissa b).toNat := by
    rcases Nat.eq_zero_or_pos (unpackMantissa b).toNat with hZero | hPos
    · exact absurd (BitVec.eq_of_toNat_eq hZero) hMantissa
    · exact hPos
  refine ⟨hPos, ?_⟩
  unfold UnpackedFloat.unpack
  rw [if_neg (by rw [hExponent]; decide), if_pos hExponent, dif_neg hMantissa]
  simp only [hExponent]
  rfl

theorem unpack_normal (hMax : unpackExponent b ≠ -1#11) (hZero : unpackExponent b ≠ 0#11) :
    ∃ hPos, unpack binary64 b = .finite (.ofBitVec (unpackSign b))
      (2 ^ 52 + (unpackMantissa b).toNat) ((unpackExponent b).toNat - 1075) hPos := by
  have hMantissa : (1#1 ++ unpackMantissa b).toNat = 2 ^ 52 + (unpackMantissa b).toNat := by
    rw [BitVec.toNat_append, ← Nat.shiftLeft_add_eq_or_of_lt (unpackMantissa b).isLt]
    rfl
  refine ⟨by omega, ?_⟩
  unfold UnpackedFloat.unpack
  rw [if_neg hMax, if_neg hZero]
  simp only [hMantissa]
  rfl

theorem toBitVec_ofBitVec (v : BitVec 1) : (Sign.ofBitVec v).toBitVec = v := by
  revert v
  decide

theorem sign_injective {v v' : BitVec 1} (hEq : Sign.ofBitVec v = Sign.ofBitVec v') : v = v' := by
  rw [← toBitVec_ofBitVec v, ← toBitVec_ofBitVec v', hEq]

theorem unpackSign_packComponents {s : Sign} {exponent : BitVec 11} {mantissa : BitVec 52} :
    unpackSign (packComponents binary64 s exponent mantissa) = s.toBitVec := by
  refine BitVec.eq_of_getLsbD_eq fun i hi => ?_
  have hZero : i = 0 := by omega
  subst hZero
  have hBit : (unpackSign (packComponents binary64 s exponent mantissa)).getLsbD 0 =
      (s.toBitVec ++ exponent ++ mantissa : BitVec 64).getLsbD 63 := by
    simp [unpackSign, packComponents]
    exact BitVec.getLsbD_eq_getElem (by decide)
  rw [hBit, BitVec.getLsbD_append, BitVec.getLsbD_append]
  simp

/-- The words that are unpacked to a number are told apart by it, the mantissas and exponents of
the others apart. -/
inductive Unpacked (b : BitVec binary64.numBits) : UnpackedFloat → Prop where
  | notANumber : unpackExponent b = -1#11 → unpackMantissa b ≠ 0#52 → Unpacked b .notANumber
  | infinity : unpackExponent b = -1#11 → unpackMantissa b = 0#52 →
    Unpacked b (.infinity (.ofBitVec (unpackSign b)))
  | zero : unpackExponent b = 0#11 → unpackMantissa b = 0#52 →
    Unpacked b (.zero (.ofBitVec (unpackSign b)))
  | subnormal {m hPos} : unpackExponent b = 0#11 → (unpackMantissa b).toNat = m → m < 2 ^ 52 →
    Unpacked b (.finite (.ofBitVec (unpackSign b)) m (-1074) hPos)
  | normal {m e hPos} : ((unpackExponent b).toNat : Int) = e + 1075 →
    2 ^ 52 + (unpackMantissa b).toNat = m → 2 ^ 52 ≤ m → m < 2 ^ 53 → -1074 ≤ e → e ≤ 971 →
    Unpacked b (.finite (.ofBitVec (unpackSign b)) m e hPos)

theorem unpacked (b : BitVec binary64.numBits) : Unpacked b (unpack binary64 b) := by
  by_cases hMax : unpackExponent b = -1#11
  · rw [unpack_max hMax]
    split
    · rename_i hMantissa
      exact .infinity hMax hMantissa
    · rename_i hMantissa
      exact .notANumber hMax hMantissa
  · by_cases hZero : unpackExponent b = 0#11
    · by_cases hMantissa : unpackMantissa b = 0#52
      · rw [unpack_zero hZero hMantissa]
        exact .zero hZero hMantissa
      · obtain ⟨hPos, hEq⟩ := unpack_subnormal hZero hMantissa
        rw [hEq]
        exact .subnormal hZero rfl (unpackMantissa b).isLt
    · obtain ⟨hPos, hEq⟩ := unpack_normal hMax hZero
      have hMantissa : (unpackMantissa b).toNat < 2 ^ 52 := (unpackMantissa b).isLt
      have hExponent : (unpackExponent b).toNat < 2 ^ 11 := (unpackExponent b).isLt
      have hMax : (unpackExponent b).toNat ≠ 2047 := fun hEq => hMax (BitVec.eq_of_toNat_eq hEq)
      have hZero : (unpackExponent b).toNat ≠ 0 := fun hEq => hZero (BitVec.eq_of_toNat_eq hEq)
      rw [hEq]
      exact .normal (by omega) rfl (by omega) (by omega) (by omega) (by omega)

theorem unpack_injective (hValid : binary64.Valid b) (hValid' : binary64.Valid b')
    (hEq : unpack binary64 b = unpack binary64 b') : b = b' := by
  have hb := unpacked b
  have hb' := unpacked b'
  rw [← hEq] at hb'
  generalize unpack binary64 b = u at hb hb'
  cases hb with
  | notANumber hMax hMantissa =>
    cases hb' with
    | notANumber hMax' hMantissa' =>
      rw [hValid.eq_packedNaN hMax hMantissa, hValid'.eq_packedNaN hMax' hMantissa']
  | infinity hMax hMantissa =>
    generalize hSign : Sign.ofBitVec (unpackSign b) = s at hb'
    cases hb' with
    | infinity hMax' hMantissa' =>
      exact eq_of_fields (sign_injective hSign) (hMax.trans hMax'.symm)
        (hMantissa.trans hMantissa'.symm)
  | zero hZero hMantissa =>
    generalize hSign : Sign.ofBitVec (unpackSign b) = s at hb'
    cases hb' with
    | zero hZero' hMantissa' =>
      exact eq_of_fields (sign_injective hSign) (hZero.trans hZero'.symm)
        (hMantissa.trans hMantissa'.symm)
  | subnormal hZero hMantissa hLow =>
    generalize hSign : Sign.ofBitVec (unpackSign b) = s at hb'
    cases hb' with
    | subnormal hZero' hMantissa' hLow' =>
      exact eq_of_fields (sign_injective hSign) (hZero.trans hZero'.symm)
        (BitVec.eq_of_toNat_eq (hMantissa.trans hMantissa'.symm))
    | normal hExponent' hMantissa' hLow' hHigh' hFirst' hLast' => omega
  | normal hExponent hMantissa hLow hHigh hFirst hLast =>
    generalize hSign : Sign.ofBitVec (unpackSign b) = s at hb'
    cases hb' with
    | subnormal hZero' hMantissa' hLow' => omega
    | normal hExponent' hMantissa' hLow' hHigh' hFirst' hLast' =>
      exact eq_of_fields (sign_injective hSign) (BitVec.eq_of_toNat_eq (by omega))
        (BitVec.eq_of_toNat_eq (by omega))

end Unpack

/-! ## Equality -/

section Equality

variable {a b c : Float}

def isZeroUnpacked : UnpackedFloat → Bool
  | .zero _ => true
  | _ => false

def isZero (d : Float) : Bool := isZeroUnpacked d.toModel.unpack

theorem compare_sign_eq (s t : Sign) : compare s t = .eq ↔ s = t := by
  cases s <;> cases t <;> simp [compare]

/-- Unpacked numbers that compare equal are the same, zeros apart. -/
theorem beq_unpacked (u v : UnpackedFloat) : u.beq v = true ↔
    u ≠ .notANumber ∧ (u = v ∨ isZeroUnpacked u = true ∧ isZeroUnpacked v = true) := by
  have hMagnitude (m n : Nat) (e f : Int) :
      (compare e f).then (compare m n) = .eq ↔ m = n ∧ e = f := by
    rw [Ordering.then_eq_eq, compare_eq_iff_eq, compare_eq_iff_eq, and_comm]
  have hSwap (o : Ordering) : o.swap = .eq ↔ o = .eq := by cases o <;> decide
  unfold UnpackedFloat.beq
  rcases u with ⟨⟨⟩⟩ | _ | ⟨⟨⟩⟩ | ⟨⟨⟩, m, e, hm⟩ <;>
    rcases v with ⟨⟨⟩⟩ | _ | ⟨⟨⟩⟩ | ⟨⟨⟩, n, f, hn⟩ <;>
    simp [UnpackedFloat.compare, isZeroUnpacked, compare_sign_eq, hMagnitude, hSwap]

theorem unpack_toModel_injective (hEq : a.toModel.unpack = b.toModel.unpack) : a = b := by
  obtain ⟨⟨bits, hValid⟩⟩ := a
  obtain ⟨⟨bits', hValid'⟩⟩ := b
  have hBits : bits.toBitVec = bits'.toBitVec := unpack_injective hValid hValid' hEq
  have hSame : bits = bits' := UInt64.eq_of_toBitVec_eq hBits
  subst hSame
  rfl

theorem isNaN_iff : a.isNaN = true ↔ a.toModel.unpack = .notANumber := by
  show a.toModel.unpack.isNaN = true ↔ _
  cases a.toModel.unpack <;> simp [UnpackedFloat.isNaN]

/-- Numbers that compare equal are the same, zeros apart. -/
theorem beq_iff : (a == b) = true ↔
    a.isNaN = false ∧ (a = b ∨ isZero a = true ∧ isZero b = true) := by
  have hUnpack : (a == b) = a.toModel.unpack.beq b.toModel.unpack := rfl
  have hSame : a.toModel.unpack = b.toModel.unpack ↔ a = b :=
    ⟨unpack_toModel_injective, fun hEq => hEq ▸ rfl⟩
  have hNaN : a.toModel.unpack ≠ .notANumber ↔ a.isNaN = false := by
    rw [← Bool.not_eq_true, isNaN_iff]
  rw [hUnpack, beq_unpacked, hSame, hNaN]
  rfl

theorem not_isNaN_of_isZero (ha : isZero a = true) : a.isNaN = false := by
  rw [← Bool.not_eq_true, isNaN_iff]
  intro hNaN
  rw [isZero, hNaN] at ha
  contradiction

theorem beq_refl (ha : a.isNaN = false) : (a == a) = true := beq_iff.mpr ⟨ha, .inl rfl⟩

theorem beq_symm (hEq : (a == b) = true) : (b == a) = true := by
  obtain ⟨ha, rfl | ⟨hZero, hZero'⟩⟩ := beq_iff.mp hEq
  · exact hEq
  · exact beq_iff.mpr ⟨not_isNaN_of_isZero hZero', .inr ⟨hZero', hZero⟩⟩

theorem beq_trans (hab : (a == b) = true) (hbc : (b == c) = true) : (a == c) = true := by
  obtain ⟨ha, rfl | ⟨hZero, hZero'⟩⟩ := beq_iff.mp hab
  · exact hbc
  · obtain ⟨-, rfl | ⟨-, hZero''⟩⟩ := beq_iff.mp hbc
    · exact hab
    · exact beq_iff.mpr ⟨ha, .inr ⟨hZero, hZero''⟩⟩

end Equality

/-! ## Rounding -/

section Rounding

theorem mantissa_shiftRight (em : ExtendedMantissa) (k : Nat) :
    (em >>> k).mantissa = em.mantissa / 2 ^ k := by
  induction k with
  | zero =>
    show em.mantissa = _
    rw [pow_zero, Nat.div_one]
  | succ k ih =>
    show (em >>> k).mantissa / 2 = _
    rw [ih, Nat.div_div_eq_div_mul, pow_succ]

/-- Rounding goes up by one at most. -/
theorem roundedMantissa_bounds (em : ExtendedMantissa) :
    em.mantissa ≤ em.roundedMantissa ∧ em.roundedMantissa ≤ em.mantissa + 1 := by
  obtain ⟨m, round, sticky⟩ := em
  have hParity : m % 2 ≤ 1 := by omega
  cases round <;> cases sticky <;>
    simp [ExtendedMantissa.roundedMantissa, ExtendedMantissa.accuracy,
      Accuracy.roundToNearestEven]
  omega

/-- The exponent at which a mantissa takes 53 bits. -/
theorem targetExponent_eq {m : Nat} {e : Int} (he : -1074 ≤ (m.log2 : Int) + e - 52) :
    binary64.targetExponent (totalExponent m e) = m.log2 + e - 52 := by
  show max ((m.log2 : Int) + 1 + e - 53) (3 - 1024 - 53) = _
  omega

/-- Shifting a mantissa of more than 53 bits. -/
theorem shift_long {m k : Nat} {e : Int} (hm : m.log2 = 52 + k) (he : -1074 ≤ e) :
    shiftToTargetExponent binary64 m e .exact =
      ((⟨m, false, false⟩ : ExtendedMantissa) >>> k, e + k) := by
  have hTarget : binary64.targetExponent (totalExponent m e) = e + k := by
    rw [targetExponent_eq (by omega)]
    omega
  have hAmount : (e + k - e).toNat = k := by omega
  unfold shiftToTargetExponent shiftToExponent
  rw [hTarget]
  dsimp only
  rw [hAmount]
  rfl

/-- Rounding off the last `k` bits of a mantissa; a carry gives the next power of two. -/
theorem roundWithAccuracy_long {s : Sign} {m k : Nat} {e : Int} (hm : m.log2 = 52 + k)
    (he : -1074 ≤ e) :
    ∃ m' e' hPos, roundWithAccuracy binary64 s m e .exact = .finite s m' e' hPos ∧
      m'.log2 = 52 ∧ (e' = e + k ∧ m / 2 ^ k ≤ m' ∧ m' ≤ m / 2 ^ k + 1 ∨
        e' = e + k + 1 ∧ m' = 2 ^ 52) ∧ (k = 0 → m' = m ∧ e' = e) := by
  have hNonzero : m ≠ 0 := by
    rintro rfl
    simp at hm
    omega
  have hLow : 2 ^ 52 ≤ m / 2 ^ k := by
    rw [Nat.le_div_iff_mul_le (by positivity), ← pow_add, ← hm]
    exact Nat.log2_self_le hNonzero
  have hHigh : m / 2 ^ k < 2 ^ 53 := by
    rw [Nat.div_lt_iff_lt_mul (by positivity), ← pow_add]
    have hLt := Nat.lt_log2_self (n := m)
    rwa [hm, show 52 + k + 1 = 53 + k by omega] at hLt
  -- the mantissa after the first shift, rounded
  obtain ⟨r, hr⟩ : ∃ r, r = ((⟨m, false, false⟩ : ExtendedMantissa) >>> k).roundedMantissa :=
    ⟨_, rfl⟩
  have hBounds : m / 2 ^ k ≤ r ∧ r ≤ m / 2 ^ k + 1 := by
    have hShifted : ((⟨m, false, false⟩ : ExtendedMantissa) >>> k).mantissa = m / 2 ^ k :=
      mantissa_shiftRight _ k
    rw [hr, ← hShifted]
    exact roundedMantissa_bounds _
  have hRound : roundWithAccuracy binary64 s m e .exact =
      if hZero : (shiftToTargetExponent binary64 r (e + k) .exact).1.mantissa = 0 then .zero s
      else .finite s (shiftToTargetExponent binary64 r (e + k) .exact).1.mantissa
        (shiftToTargetExponent binary64 r (e + k) .exact).2 (Nat.pos_of_ne_zero hZero) := by
    rw [roundWithAccuracy, shift_long hm he, hr]
  have hExact : k = 0 → r = m := by
    rintro rfl
    rw [hr]
    rfl
  rcases Nat.lt_or_ge r (2 ^ 53) with hFits | hCarry
  · have hLog : r.log2 = 52 + 0 := (Nat.log2_eq_iff (by omega)).mpr ⟨by omega, by omega⟩
    have hShift : shiftToTargetExponent binary64 r (e + k) .exact =
        (⟨r, false, false⟩, e + k) := by
      rw [shift_long hLog (by omega)]
      simp
      rfl
    rw [hRound, hShift, dif_neg (show r ≠ 0 by omega)]
    exact ⟨r, e + k, _, rfl, hLog, .inl ⟨rfl, hBounds⟩, fun hk => ⟨hExact hk, by omega⟩⟩
  · have hCarry : r = 2 ^ 53 := by omega
    have hLog : r.log2 = 52 + 1 := (Nat.log2_eq_iff (by omega)).mpr ⟨by omega, by omega⟩
    have hShift : shiftToTargetExponent binary64 r (e + k) .exact =
        (⟨2 ^ 52, false, false⟩, e + k + 1) := by
      rw [shift_long hLog (by omega), hCarry]
      rfl
    have hSome : k ≠ 0 := by
      intro hk
      have hSame := hExact hk
      rw [← hSame, hLog] at hm
      omega
    rw [hRound, hShift, dif_neg (show (2 ^ 52 : Nat) ≠ 0 by decide)]
    exact ⟨2 ^ 52, e + k + 1, _, rfl, by decide, .inr ⟨rfl, rfl⟩, fun hk => absurd hk hSome⟩

theorem round_nat {s : Sign} {m : Nat} (hm : 0 < m) :
    ∃ m' e' hPos, round binary64 s m 0 = .finite s m' e' hPos ∧ m'.log2 = 52 ∧
      (m.log2 ≤ 52 → m' = m * 2 ^ (52 - m.log2) ∧ e' = m.log2 - 52) ∧
      (52 < m.log2 → e' = m.log2 - 52 ∧ m / 2 ^ (m.log2 - 52) ≤ m' ∧
          m' ≤ m / 2 ^ (m.log2 - 52) + 1 ∨ e' = m.log2 - 51 ∧ m' = 2 ^ 52) := by
  have hTarget : binary64.targetExponent (totalExponent m 0) = m.log2 - 52 := by
    rw [targetExponent_eq (by omega)]
    omega
  have hRound : round binary64 s m 0 = roundWithAccuracy binary64 s
      (m <<< (0 - ((m.log2 : Int) - 52)).toNat) (0 - ((0 - ((m.log2 : Int) - 52)).toNat : Int))
        .exact := by
    unfold UnpackedFloat.round
    rw [hTarget]
    rfl
  rcases Nat.lt_or_ge 52 m.log2 with hLong | hShort
  · -- a long numeral is cut to 53 bits and rounded up or not; a carry gives the next power of two
    have hAmount : (0 - ((m.log2 : Int) - 52)).toNat = 0 := by omega
    rw [hAmount, Nat.shiftLeft_zero] at hRound
    have hLog : m.log2 = 52 + (m.log2 - 52) := by omega
    obtain ⟨m', e', hPos, hEq, hLog', hCases, -⟩ := roundWithAccuracy_long (s := s) (e := 0) hLog
      (by omega)
    refine ⟨m', e', hPos, hRound.trans hEq, hLog', by omega, fun _ => ?_⟩
    rcases hCases with ⟨he, hBounds⟩ | ⟨he, hCarry⟩
    · exact .inl ⟨by omega, hBounds⟩
    · exact .inr ⟨by omega, hCarry⟩
  · -- a short numeral is shifted up to 53 bits, and nothing is rounded
    have hAmount : (0 - ((m.log2 : Int) - 52)).toNat = 52 - m.log2 := by omega
    rw [hAmount, Nat.shiftLeft_eq] at hRound
    -- the shifted numeral has 53 bits
    have hLog : (m * 2 ^ (52 - m.log2)).log2 = 52 + 0 := by
      have hLow := Nat.log2_self_le (n := m) (by omega)
      have hHigh := Nat.lt_log2_self (n := m)
      refine (Nat.log2_eq_iff (by positivity)).mpr ⟨?_, ?_⟩
      · calc 2 ^ (52 + 0) = 2 ^ m.log2 * 2 ^ (52 - m.log2) := by
              rw [← pow_add]
              congr 1
              omega
          _ ≤ m * 2 ^ (52 - m.log2) := Nat.mul_le_mul_right _ hLow
      · calc m * 2 ^ (52 - m.log2) < 2 ^ (m.log2 + 1) * 2 ^ (52 - m.log2) :=
              Nat.mul_lt_mul_of_pos_right hHigh (by positivity)
          _ = 2 ^ (52 + 0 + 1) := by
              rw [← pow_add]
              congr 1
              omega
    obtain ⟨m', e', hPos, hEq, hLog', -, hSame⟩ := roundWithAccuracy_long (s := s)
      (e := 0 - ((52 - m.log2 : Nat) : Int)) hLog (by omega)
    obtain ⟨hm', he'⟩ := hSame rfl
    exact ⟨m', e', hPos, hRound.trans hEq, hLog', fun _ => ⟨hm', by omega⟩, by omega⟩

/-- Packing a mantissa of 53 bits loses nothing. -/
theorem unpack_pack {s : Sign} {m : Nat} {e : Int} {hPos : 0 < m} (hm : m.log2 = 52)
    (hFirst : -1074 ≤ e) (hLast : e ≤ 971) :
    (Float.Model.pack (.finite s m e hPos)).unpack = .finite s m e hPos := by
  have hLow : 2 ^ 52 ≤ m := hm ▸ Nat.log2_self_le (by omega)
  have hHigh : m < 2 ^ 53 := by
    have hLt := Nat.lt_log2_self (n := m)
    rwa [hm] at hLt
  have hBiased : (e + ((2 ^ (11 - 1) - 1 : Nat) : Int) + ((52 : Nat) : Int)).toNat =
      (e + 1075).toNat := by omega
  have hPack : UnpackedFloat.pack binary64 (.finite s m e hPos) =
      packComponents binary64 s (.ofNat _ (e + 1075).toNat) (.ofNat _ m) := by
    show (if 2 ^ 11 ≤ (e + ((2 ^ (11 - 1) - 1 : Nat) : Int) + ((52 : Nat) : Int)).toNat + 1 then _
      else if m.log2 + 1 = 1 + 52 then packComponents binary64 s
        (.ofNat _ (e + ((2 ^ (11 - 1) - 1 : Nat) : Int) + ((52 : Nat) : Int)).toNat) _ else _) = _
    rw [hBiased, if_neg (by omega), if_pos (by omega)]
  show unpack binary64 (UnpackedFloat.pack binary64 (.finite s m e hPos)) = _
  rw [hPack]
  generalize hb : packComponents binary64 s (.ofNat _ (e + 1075).toNat) (.ofNat _ m) = b
  have hSign : Sign.ofBitVec (unpackSign b) = s := by
    rw [← hb, unpackSign_packComponents]
    cases s <;> rfl
  have hExponent : (unpackExponent b).toNat = (e + 1075).toNat := by
    rw [← hb, unpackExponent_packComponents, BitVec.toNat_ofNat]
    show (e + 1075).toNat % 2 ^ 11 = _
    omega
  have hMantissa : (unpackMantissa b).toNat = m - 2 ^ 52 := by
    rw [← hb, unpackMantissa_packComponents, BitVec.toNat_ofNat]
    show m % 2 ^ 52 = _
    omega
  have hMax : unpackExponent b ≠ -1#11 := by
    intro hEq
    rw [hEq] at hExponent
    have hAll : (-1#11).toNat = 2047 := by decide
    omega
  have hZero : unpackExponent b ≠ 0#11 := by
    intro hEq
    rw [hEq] at hExponent
    have hNone : (0#11).toNat = 0 := by decide
    omega
  obtain ⟨hPos', hEq⟩ := unpack_normal hMax hZero
  rw [hEq]
  congr 1
  · omega
  · omega

/-- What the nearest number to an integer is unpacked to: 53 bits, at most `2 ^ 63`, and whole. -/
inductive Rounded : UnpackedFloat → Prop where
  | zero : Rounded (.zero .positive)
  | finite {s m e hPos} : m.log2 = 52 → e ≤ 10 ∨ e = 11 ∧ m = 2 ^ 52 →
    (e < 0 → m % 2 ^ (-e).toNat = 0) → Rounded (.finite s m e hPos)

theorem rounded_nat {s : Sign} {m : Nat} (hm : 0 < m) (hMax : m ≤ 2 ^ 63) :
    Rounded (Float.Model.pack (round binary64 s m 0)).unpack := by
  rcases Nat.lt_or_ge m (2 ^ 63) with hLess | hLast
  · have hLog : m.log2 < 63 := (Nat.log2_lt (by omega)).mpr hLess
    obtain ⟨m', e', hPos, hRound, hLog', hShort, hLong⟩ := round_nat (s := s) hm
    rcases Nat.lt_or_ge 52 m.log2 with h | h
    · rcases hLong h with ⟨he, -⟩ | ⟨he, hCarry⟩
      · rw [hRound, unpack_pack hLog' (by omega) (by omega)]
        exact .finite hLog' (by omega) (by omega)
      · rw [hRound, unpack_pack hLog' (by omega) (by omega)]
        exact .finite hLog' (by omega) (by omega)
    · obtain ⟨hm', he⟩ := hShort h
      rw [hRound, unpack_pack hLog' (by omega) (by omega)]
      refine .finite hLog' (by omega) fun _ => ?_
      have hAmount : (-e').toNat = 52 - m.log2 := by omega
      rw [hm', hAmount, Nat.mul_mod_left]
  · obtain rfl : m = 2 ^ 63 := by omega
    have hRound : round binary64 s (2 ^ 63) 0 = .finite s (2 ^ 52) 11 (by decide) := by
      cases s <;> rfl
    rw [hRound, unpack_pack (by decide) (by omega) (by omega)]
    exact .finite (by decide) (.inr ⟨rfl, rfl⟩) (by omega)

theorem rounded_nearest (n : Int64) : Rounded (nearest n).toModel.unpack := by
  have hLow : -2 ^ 63 ≤ n.toInt := n.le_toInt
  have hHigh : n.toInt < 2 ^ 63 := n.toInt_lt
  show Rounded (Float.Model.pack (UnpackedFloat.normalize binary64 n.toInt 0 .positive)).unpack
  unfold UnpackedFloat.normalize
  split
  · rename_i hNegative
    rw [compare_lt_iff_lt] at hNegative
    exact rounded_nat (by omega) (by omega)
  · have hZero : (Float.Model.pack (.zero .positive)).unpack = .zero .positive := rfl
    rw [hZero]
    exact .zero
  · rename_i hPositive
    rw [compare_gt_iff_gt] at hPositive
    exact rounded_nat (by omega) (by omega)

theorem le_iff {a b : Float} : a ≤ b ↔ a.toModel.unpack.le b.toModel.unpack = true :=
  decide_eq_true_iff

theorem unpack_nearest_min : (nearest Int64.minValue).toModel.unpack =
    .finite .negative (2 ^ 52) 11 (by decide) := rfl

theorem unpack_nearest_max : (nearest Int64.maxValue).toModel.unpack =
    .finite .positive (2 ^ 52) 11 (by decide) := rfl

/-- The nearest number to an integer is whole, and between the nearest ones to the first and the
last integer. -/
theorem whole_nearest (n : Int64) : isWhole (nearest n) = true ∧
    nearest Int64.minValue ≤ nearest n ∧ nearest n ≤ nearest Int64.maxValue := by
  have hRounded := rounded_nearest n
  rw [le_iff, le_iff, unpack_nearest_min, unpack_nearest_max, isWhole]
  generalize (nearest n).toModel.unpack = u at hRounded
  cases hRounded with
  | zero => exact ⟨rfl, rfl, rfl⟩
  | @finite s m e hPos hLog hRange hFraction =>
    have hBelow : ((compare e 11).then (compare m (2 ^ 52))).isLE = true := by
      rcases hRange with hLess | ⟨rfl, rfl⟩
      · rw [compare_lt_iff_lt.mpr (show e < 11 by omega)]
        rfl
      · rfl
    have hAbove : ((compare 11 e).then (compare (2 ^ 52) m)).swap.isLE = true := by
      rcases hRange with hLess | ⟨rfl, rfl⟩
      · rw [compare_gt_iff_gt.mpr (show (11 : Int) > e by omega)]
        rfl
      · rfl
    refine ⟨?_, ?_, ?_⟩
    · unfold isWholeUnpacked
      rcases Int.lt_or_le e 0 with hNegative | hWhole
      · simp [hFraction hNegative]
      · simp [hWhole]
    · cases s with
      | negative => exact hAbove
      | positive => rfl
    · cases s with
      | negative => rfl
      | positive => exact hBelow

/-- So is a zero. -/
theorem whole_zero {d : Float} (hd : isZero d = true) : isWhole d = true ∧
    nearest Int64.minValue ≤ d ∧ d ≤ nearest Int64.maxValue := by
  rw [isZero] at hd
  rw [le_iff, le_iff, unpack_nearest_min, unpack_nearest_max, isWhole]
  cases hUnpack : d.toModel.unpack with
  | zero s => exact ⟨rfl, rfl, rfl⟩
  | _ =>
    rw [hUnpack] at hd
    contradiction

theorem truncate_zero {d : Float} (hd : isZero d = true) : truncate d = 0 := by
  show Int64.ofIntClamp (d.toModel.unpack.toInt _ _) = 0
  rw [isZero] at hd
  cases hUnpack : d.toModel.unpack with
  | zero s => rfl
  | _ =>
    rw [hUnpack] at hd
    contradiction

end Rounding

end Num
