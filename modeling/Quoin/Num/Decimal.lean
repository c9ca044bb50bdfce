import Mathlib

/-!
# Decimal number texts

The number texts of JSON: a sign, digits, perhaps digits behind a point, perhaps
a power of ten. A text has an exact value (`value`). It is an integer if it has
neither point nor exponent, which its characters tell (`marked_render`), and is
then read back digit by digit (`parseInteger_render`). An integer has a text of its
own (`ofInt`).
-/

namespace Num

/-! ## Digits -/

abbrev Digit := Fin 10

/-- The last digit of a number. -/
def digit (n : Nat) : Digit := Fin.ofNat 10 n

def digitsValue (ds : List Digit) : Nat := ds.foldl (fun n (d : Digit) => 10 * n + d.val) 0

def digitChar (d : Digit) : Char := Nat.digitChar d

/-- The number that digits are read as. -/
def parseDigits (cs : List Char) : Option Nat :=
  if cs.isEmpty || !cs.all Char.isDigit then none
  else some (cs.foldl (fun n c => 10 * n + (c.toNat - '0'.toNat)) 0)

/-- `from_str` of the integer types, the range apart. -/
def parseInteger (s : String) : Option Int :=
  match s.toList with
  | '-' :: cs => (parseDigits cs).map fun (n : Nat) => -(n : Int)
  | '+' :: cs => (parseDigits cs).map Int.ofNat
  | cs => (parseDigits cs).map Int.ofNat

/-- The digits of a number; those of 0 are one. -/
def natDigits (n : Nat) : List Digit :=
  if n = 0 then [0] else (Nat.digits 10 n).reverse.map digit

theorem isDigit_digitChar (d : Digit) : (digitChar d).isDigit := by
  revert d
  decide

theorem toNat_digitChar (d : Digit) : (digitChar d).toNat - '0'.toNat = d := by
  revert d
  decide

theorem parseDigits_digitChar {ds : List Digit} (hNonempty : ds ≠ []) :
    parseDigits (ds.map digitChar) = some (digitsValue ds) := by
  have hAll : (ds.map digitChar).all Char.isDigit = true := by
    rw [List.all_map, List.all_eq_true]
    exact fun d _ => isDigit_digitChar d
  have hEmpty : (ds.map digitChar).isEmpty = false := by simpa using hNonempty
  unfold parseDigits
  rw [hAll, hEmpty, if_neg (by decide), List.foldl_map]
  simp only [toNat_digitChar]
  rfl

theorem digitsValue_natDigits (n : Nat) : digitsValue (natDigits n) = n := by
  unfold natDigits
  split
  · next hZero => exact hZero.symm
  · calc digitsValue ((Nat.digits 10 n).reverse.map digit)
        = (Nat.digits 10 n).foldr (fun d m => 10 * m + (digit d : Nat)) 0 := by
          rw [digitsValue, List.foldl_map, List.foldl_reverse]
      _ = (Nat.digits 10 n).foldr (fun d m => d + 10 * m) 0 := by
          refine List.foldr_ext _ _ _ fun d hd m => ?_
          rw [digit, Fin.val_ofNat, Nat.mod_eq_of_lt (Nat.digits_lt_base (by decide) hd), Nat.add_comm]
      _ = n := by
          have hDigits := Nat.ofDigits_digits 10 n
          rwa [Nat.ofDigits_eq_foldr] at hDigits

/-- The digits of a number do not start with a 0, but for the number 0. -/
theorem natDigits_ok (n : Nat) :
    natDigits n = [0] ∨ ∃ d rest, d ≠ 0 ∧ natDigits n = d :: rest := by
  unfold natDigits
  split
  · exact .inl rfl
  · next hPos =>
    have hNonempty : Nat.digits 10 n ≠ [] := Nat.digits_ne_nil_iff_ne_zero.mpr hPos
    have hLast := Nat.getLast_digit_ne_zero 10 hPos
    have hLt := Nat.digits_lt_base (by decide : 1 < 10) (List.getLast_mem hNonempty)
    have hReverse : (Nat.digits 10 n).reverse
        = (Nat.digits 10 n).getLast hNonempty :: (Nat.digits 10 n).dropLast.reverse := by
      conv_lhs => rw [← List.dropLast_append_getLast hNonempty]
      rw [List.reverse_append]
      rfl
    rw [hReverse]
    refine .inr ⟨_, _, fun hZero => hLast ?_, rfl⟩
    have hVal := congrArg Fin.val hZero
    rwa [digit, Fin.val_ofNat, Nat.mod_eq_of_lt hLt] at hVal

theorem natDigits_ne_nil (n : Nat) : natDigits n ≠ [] := by
  obtain h | ⟨d, rest, -, h⟩ := natDigits_ok n <;> rw [h] <;> simp

/-! ## Number texts -/

structure Exponent where
  capital : Bool
  /-- A sign, and whether it is a minus. -/
  sign : Option Bool
  digits : List Digit
  nonempty : digits ≠ []

structure NumberText where
  negative : Bool
  whole : List Digit
  /-- The digits behind the point; none without one. -/
  frac : List Digit
  exponent : Option Exponent
  whole_ok : whole = [0] ∨ ∃ d rest, d ≠ 0 ∧ whole = d :: rest

def Exponent.value (e : Exponent) : Int :=
  if e.sign = some true then -(digitsValue e.digits : Int) else digitsValue e.digits

def Exponent.render (e : Exponent) : List Char :=
  (if e.capital then 'E' else 'e') ::
    ((e.sign.map fun minus => if minus then '-' else '+').toList ++ e.digits.map digitChar)

namespace NumberText

variable (t : NumberText)

/-- The characters of a text. -/
def chars : List Char :=
  (if t.negative then ['-'] else []) ++ t.whole.map digitChar ++
    (if t.frac = [] then [] else '.' :: t.frac.map digitChar) ++
    (t.exponent.map Exponent.render).getD []

def render : String := .ofList t.chars

/-- The power of ten of the last digit. -/
def scale : Int := (t.exponent.map Exponent.value).getD 0 - t.frac.length

/-- The digits as a number, with the sign. -/
def mantissa : Int :=
  if t.negative then -(digitsValue (t.whole ++ t.frac) : Int) else digitsValue (t.whole ++ t.frac)

/-- The exact value. -/
def value : ℚ := t.mantissa * (10 : ℚ) ^ t.scale

def isInteger : Bool := t.frac = [] && t.exponent.isNone

/-- The text of an integer. -/
def ofInt (i : Int) : NumberText where
  negative := i < 0
  whole := natDigits i.natAbs
  frac := []
  exponent := none
  whole_ok := natDigits_ok i.natAbs

variable {t}

theorem whole_ne_nil : t.whole ≠ [] := by
  obtain h | ⟨d, rest, -, h⟩ := t.whole_ok <;> rw [h] <;> simp

theorem of_isInteger (hInt : t.isInteger) : t.frac = [] ∧ t.exponent = none := by
  simpa [isInteger] using hInt

theorem value_plain (hExponent : t.exponent = none) :
    t.value = t.mantissa / 10 ^ t.frac.length := by
  unfold value scale
  rw [hExponent, Option.map_none, Option.getD_none, zero_sub, zpow_neg, zpow_natCast,
    div_eq_mul_inv]

theorem value_of_integer (hInt : t.isInteger) : t.value = t.mantissa := by
  obtain ⟨hFrac, hExponent⟩ := of_isInteger hInt
  rw [value_plain hExponent, hFrac, List.length_nil, pow_zero, div_one]

theorem toList_render : t.render.toList = t.chars := String.toList_ofList

/-- A text is an integer if nothing in it marks a fraction or an exponent. -/
theorem marked_render : (t.render.toList.any fun c => c = '.' || c = 'e' || c = 'E')
    = !t.isInteger := by
  have hDigits (ds : List Digit) :
      ((ds.map digitChar).any fun c => c = '.' || c = 'e' || c = 'E') = false := by
    have hDigit : ∀ d : Digit,
        (digitChar d = '.' || digitChar d = 'e' || digitChar d = 'E') = false := by decide
    rw [List.any_map, List.any_eq_false]
    intro d _
    simpa using hDigit d
  rw [toList_render, chars, List.any_append, List.any_append, List.any_append, hDigits]
  have hSign : ((if t.negative then ['-'] else []).any fun c => c = '.' || c = 'e' || c = 'E')
      = false := by split <;> rfl
  have hFrac : ((if t.frac = [] then [] else '.' :: t.frac.map digitChar).any
      fun c => c = '.' || c = 'e' || c = 'E') = !decide (t.frac = []) := by
    by_cases hNone : t.frac = []
    · rw [if_pos hNone, decide_eq_true hNone]
      rfl
    · rw [if_neg hNone, decide_eq_false hNone]
      rfl
  have hExponent : (((t.exponent.map Exponent.render).getD []).any
      fun c => c = '.' || c = 'e' || c = 'E') = !t.exponent.isNone := by
    cases t.exponent with
    | none => rfl
    | some e =>
      show (Exponent.render e).any _ = true
      rw [Exponent.render, List.any_cons]
      cases e.capital <;> rfl
  rw [hSign, hFrac, hExponent, isInteger, Bool.not_and]
  rfl

theorem chars_of_integer (hInt : t.isInteger) :
    t.chars = (if t.negative then ['-'] else []) ++ t.whole.map digitChar := by
  obtain ⟨hFrac, hExponent⟩ := of_isInteger hInt
  rw [chars, hFrac, hExponent]
  simp

theorem parseInteger_render (hInt : t.isInteger) : parseInteger t.render = some t.mantissa := by
  have hParse := parseDigits_digitChar (whole_ne_nil (t := t))
  unfold parseInteger mantissa
  rw [toList_render, chars_of_integer hInt, (of_isInteger hInt).1, List.append_nil]
  by_cases hNegative : t.negative = true
  · rw [if_pos hNegative, if_pos hNegative]
    show (parseDigits (t.whole.map digitChar)).map _ = _
    rw [hParse]
    rfl
  · rw [if_neg hNegative, if_neg hNegative, List.nil_append]
    -- a digit is no sign
    have hMinus : ∀ d : Digit, digitChar d ≠ '-' := by decide
    have hPlus : ∀ d : Digit, digitChar d ≠ '+' := by decide
    obtain ⟨d, rest, hWhole⟩ := List.exists_cons_of_ne_nil (whole_ne_nil (t := t))
    rw [hWhole, List.map_cons] at hParse ⊢
    split
    · next heq => exact absurd (List.cons.inj heq).1 (hMinus d)
    · next heq => exact absurd (List.cons.inj heq).1 (hPlus d)
    · rw [hParse]
      rfl

theorem isInteger_ofInt (i : Int) : (ofInt i).isInteger := rfl

theorem mantissa_ofInt (i : Int) : (ofInt i).mantissa = i := by
  unfold mantissa ofInt
  rw [List.append_nil, digitsValue_natDigits]
  split
  · next hNegative =>
    have := of_decide_eq_true hNegative
    omega
  · next hNot =>
    have : ¬i < 0 := by simpa using hNot
    omega

end NumberText

/-! ## Reading a text -/

/-- The value of digits behind a point, with those before it. -/
def parseFraction (whole frac : List Char) : Option ℚ := do
  let n ← parseDigits (whole ++ frac)
  return n / 10 ^ frac.length

def parsePoint (whole : List Char) : List Char → Option ℚ
  | [] => parseFraction whole []
  | '.' :: frac => if frac.isEmpty then none else parseFraction whole frac
  | _ => none

def parseUnsigned (cs : List Char) : Option ℚ :=
  parsePoint (cs.takeWhile Char.isDigit) (cs.dropWhile Char.isDigit)

/-- The value of a text without exponent. -/
def parsePlain (s : String) : Option ℚ :=
  match s.toList with
  | '-' :: cs => (parseUnsigned cs).map (- ·)
  | cs => parseUnsigned cs

namespace NumberText

variable {t : NumberText}

theorem digits_isDigit (ds : List Digit) : ∀ c ∈ ds.map digitChar, c.isDigit := by
  intro c hc
  obtain ⟨d, -, rfl⟩ := List.mem_map.mp hc
  exact isDigit_digitChar d

/-- Digits, and what is not one behind them. -/
theorem parseUnsigned_digits (ds : List Digit) {rest : List Char}
    (hRest : rest.dropWhile Char.isDigit = rest) (hTake : rest.takeWhile Char.isDigit = []) :
    parseUnsigned (ds.map digitChar ++ rest) = parsePoint (ds.map digitChar) rest := by
  unfold parseUnsigned
  rw [List.dropWhile_append_of_pos (digits_isDigit ds),
    List.takeWhile_append_of_pos (digits_isDigit ds), hRest, hTake, List.append_nil]

theorem parseFraction_digits {whole : List Digit} (frac : List Digit) (hWhole : whole ≠ []) :
    parseFraction (whole.map digitChar) (frac.map digitChar)
      = some ((digitsValue (whole ++ frac) : ℚ) / 10 ^ frac.length) := by
  have hNonempty : whole ++ frac ≠ [] := by simp [hWhole]
  unfold parseFraction
  rw [← List.map_append, parseDigits_digitChar hNonempty, List.length_map]
  rfl

/-- The digits of a text, without its sign. -/
def unsigned (t : NumberText) : List Char :=
  t.whole.map digitChar ++ ((if t.frac = [] then [] else '.' :: t.frac.map digitChar) ++
    (t.exponent.map Exponent.render).getD [])

theorem chars_unsigned : t.chars = (if t.negative then ['-'] else []) ++ t.unsigned := by
  rw [chars, unsigned, List.append_assoc, List.append_assoc]

/-- The sign is parsed before the digits. -/
theorem parsePlain_unsigned : parsePlain t.render
    = (parseUnsigned t.unsigned).map fun q => if t.negative then -q else q := by
  unfold parsePlain
  rw [toList_render, chars_unsigned]
  by_cases hNegative : t.negative = true
  · simp only [hNegative, if_true]
    rfl
  · have hMinus : ∀ d : Digit, digitChar d ≠ '-' := by decide
    obtain ⟨d, rest, hWhole⟩ := List.exists_cons_of_ne_nil (whole_ne_nil (t := t))
    simp only [hNegative, Bool.false_eq_true, if_false, List.nil_append, Option.map_id']
    rw [unsigned, hWhole, List.map_cons, List.cons_append]
    split
    · next heq => exact absurd (List.cons.inj heq).1 (hMinus d)
    · rfl

theorem parsePlain_render (hPlain : t.exponent = none) : parsePlain t.render = some t.value := by
  have hUnsigned : parseUnsigned t.unsigned
      = some ((digitsValue (t.whole ++ t.frac) : ℚ) / 10 ^ t.frac.length) := by
    rw [unsigned, hPlain, Option.map_none, Option.getD_none, List.append_nil]
    by_cases hFrac : t.frac = []
    · rw [if_pos hFrac, parseUnsigned_digits t.whole rfl rfl, hFrac]
      exact parseFraction_digits [] whole_ne_nil
    · rw [if_neg hFrac, parseUnsigned_digits t.whole rfl rfl]
      show (if (t.frac.map digitChar).isEmpty then none else _) = _
      rw [if_neg (by simpa using hFrac)]
      exact parseFraction_digits t.frac whole_ne_nil
  rw [parsePlain_unsigned, hUnsigned, value_plain hPlain, mantissa, Option.map_some]
  split
  · rw [Int.cast_neg, Int.cast_natCast, neg_div]
  · rw [Int.cast_natCast]

theorem parsePlain_exponent (hExponent : t.exponent ≠ none) : parsePlain t.render = none := by
  obtain ⟨e, he⟩ := Option.ne_none_iff_exists'.mp hExponent
  have hRender : ∃ c rest, c.isDigit = false ∧ c ≠ '.' ∧ e.render = c :: rest := by
    rw [Exponent.render]
    cases e.capital
    · exact ⟨'e', _, rfl, by decide, rfl⟩
    · exact ⟨'E', _, rfl, by decide, rfl⟩
  obtain ⟨c, rest, hDigit, hDot, hCons⟩ := hRender
  rw [parsePlain_unsigned, unsigned, he, Option.map_some, Option.getD_some, hCons,
    Option.map_eq_none_iff]
  by_cases hFrac : t.frac = []
  · rw [if_pos hFrac, List.nil_append,
      parseUnsigned_digits t.whole (by simp [hDigit]) (by simp [hDigit])]
    unfold parsePoint
    split
    · next heq => cases heq
    · next heq => exact absurd (List.cons.inj heq).1 hDot
    · rfl
  · rw [if_neg hFrac, List.cons_append, parseUnsigned_digits t.whole rfl rfl]
    show (if (t.frac.map digitChar ++ c :: rest).isEmpty then none
      else parseFraction (t.whole.map digitChar) (t.frac.map digitChar ++ c :: rest)) = none
    rw [if_neg (by simp)]
    unfold parseFraction parseDigits
    rw [if_pos (by simp [hDigit])]
    rfl

end NumberText

end Num
