import Mathlib
import Quoin.Num.Decimal

/-!
# Quoin — JSON numbers

`number_to_value`: an integer text is an Integer or a BigInteger. Another text is
parsed as a double, and is kept as one where the double's shortest rendering is the
same decimal; else it is a BigDecimal. That a BigDecimal cannot be parsed is taken
as a reason to keep the double, though it need not be the text's value then, and a
double beyond all finite ones is kept too. So nothing is lost exactly if the text
is an integer, or its double is finite and renders to it, or a BigDecimal holds it
(`number_lossless`).

## Results

* `number_lossless` — which number texts keep their value;
* `number_lossless_huge` — `1e999` is parsed as an infinite double.
-/

namespace Quoin.Json

open Num

/-! ## Parsing a number -/

/-- The number parsers and printers of the libraries. -/
structure Numerics where
  /-- `parse::<BigInt>()`. -/
  parseBig : String → Option Int
  /-- `parse::<f64>()`. -/
  parseF64 : String → Option Float
  /-- The shortest decimal that is parsed as a finite double: what formatting it writes. -/
  shortest : Float → NumberText
  /-- `parse::<Decimal>()`, and its value. -/
  parseDecimal : String → Option ℚ

inductive Number where
  | int (i : Int64)
  | bigInteger (i : Int)
  | bigDecimal (q : ℚ)
  | double (f : Float)

inductive QuoinError (E : Type) where
  | parseError (msg : String)
  | valueError (msg : String)
  | typeError (expected got msg : String)
  | other (msg : String)
  | raised (e : E)

/-- `parse::<i64>()`. -/
def parseI64 (raw : String) : Option Int64 :=
  (parseInteger raw).bind fun i =>
    if -2 ^ 63 ≤ i ∧ i < 2 ^ 63 then some (Int64.ofInt i) else none

section Model

variable {E : Type} (lib : Numerics)

/-- The types an integer text is tried as. -/
def integerOf (raw : String) : Option Number :=
  match parseI64 raw with
  | some i => some (.int i)
  | none => (lib.parseBig raw).map .bigInteger

/-- Whether the double's rendering is the same Decimal. -/
def isExact (f : Float) (rawDec : ℚ) : Bool :=
  match lib.parseDecimal (lib.shortest f).render with
  | some fd => fd = rawDec
  | none => false

/-- What a text is that is no integer: a double, unless a Decimal tells that it is another one. -/
def decimalOf (raw : String) : Except (QuoinError E) Number :=
  match lib.parseF64 raw with
  | none => .error (.parseError ("JSON: malformed number '" ++ raw ++ "'"))
  | some f =>
    if f.isFinite then
      match lib.parseDecimal raw with
      | some rawDec => if isExact lib f rawDec then .ok (.double f) else .ok (.bigDecimal rawDec)
      | none => .ok (.double f)
    else .ok (.double f)

/-- `number_to_value`. -/
def numberToValue (raw : String) : Except (QuoinError E) Number :=
  let isInteger := !raw.toList.any fun c => c = '.' || c = 'e' || c = 'E'
  match if isInteger then integerOf lib raw else none with
  | some n => .ok n
  | none => decimalOf lib raw

/-! ## What the libraries do -/

/-- A value of 96 bits and a scale of at most 28. -/
def DecimalFits (v : ℚ) : Prop := ∃ (m : ℤ) (k : ℕ), k ≤ 28 ∧ |m| < 2 ^ 96 ∧ v = m / 10 ^ k

theorem decimalFits_iff {v : ℚ} :
    (∃ k < 29, (v * 10 ^ k).den = 1 ∧ |(v * 10 ^ k).num| < 2 ^ 96) ↔ DecimalFits v := by
  have hTen (k : ℕ) : (10 : ℚ) ^ k ≠ 0 := by positivity
  constructor
  · rintro ⟨k, hk, hDen, hNum⟩
    refine ⟨(v * 10 ^ k).num, k, by omega, hNum, ?_⟩
    rw [eq_div_iff (hTen k)]
    exact (Rat.den_eq_one_iff _).mp hDen |>.symm
  · rintro ⟨m, k, hk, hm, rfl⟩
    refine ⟨k, by omega, ?_⟩
    rw [div_mul_cancel₀ _ (hTen k)]
    exact ⟨Rat.den_intCast m, by rwa [Rat.num_intCast]⟩

instance (v : ℚ) : Decidable (DecimalFits v) := decidable_of_iff _ decimalFits_iff

theorem DecimalFits.abs_lt {v : ℚ} (h : DecimalFits v) : |v| < 2 ^ 96 := by
  obtain ⟨m, k, -, hm, rfl⟩ := h
  have hOne : (1 : ℚ) ≤ 10 ^ k := one_le_pow₀ (by norm_num)
  have hPos : (0 : ℚ) < 10 ^ k := by positivity
  calc |(m : ℚ) / 10 ^ k| = |(m : ℚ)| / 10 ^ k := by rw [abs_div, abs_of_pos hPos]
    _ ≤ |(m : ℚ)| := div_le_self (abs_nonneg _) hOne
    _ < 2 ^ 96 := by exact_mod_cast hm

structure BigSpec : Prop where
  parses : ∀ t : NumberText, t.isInteger → lib.parseBig t.render = some t.mantissa

/-- Every number text is parsed as a double. A finite double is rendered without exponent, with no
more fraction digits than any decimal that is parsed as it, and in at most 17 significant digits. -/
structure DoubleSpec : Prop where
  parses : ∀ t : NumberText, ∃ f, lib.parseF64 t.render = some f
  plain : ∀ f : Float, f.isFinite → (lib.shortest f).exponent = none
  shortest : ∀ (t : NumberText) (f : Float) (m : ℤ) (k : ℕ), lib.parseF64 t.render = some f →
    f.isFinite → t.value = m / 10 ^ k → (lib.shortest f).frac.length ≤ k
  digits : ∀ f : Float, f.isFinite → (lib.shortest f).frac ≠ [] →
    digitsValue ((lib.shortest f).whole ++ (lib.shortest f).frac) < 10 ^ 17

/-- A Decimal is not parsed from a text with an exponent. From another it is parsed exactly if it
fits; else the value is rounded, or rejected, as it is if it is too large. -/
structure DecimalSpec : Prop where
  noExponent : ∀ t : NumberText, t.exponent ≠ none → lib.parseDecimal t.render = none
  exact : ∀ t : NumberText, t.exponent = none → DecimalFits t.value →
    lib.parseDecimal t.render = some t.value
  byValue : ∀ t t' : NumberText, t.exponent = none → t'.exponent = none → t.value = t'.value →
    lib.parseDecimal t.render = lib.parseDecimal t'.render
  fits : ∀ (t : NumberText) (d : ℚ), lib.parseDecimal t.render = some d → DecimalFits d
  tooLarge : ∀ t : NumberText, t.exponent = none → 2 ^ 96 ≤ |t.value| →
    lib.parseDecimal t.render = none

/-! ## Nothing lost -/

/-- A number that is the value of a text: a double stands for its shortest rendering. -/
def Denotes (t : NumberText) : Number → Prop
  | .int i => (i.toInt : ℚ) = t.value
  | .bigInteger i => (i : ℚ) = t.value
  | .bigDecimal q => q = t.value
  | .double f => f.isFinite ∧ (lib.shortest f).value = t.value

/-- A text is parsed without loss, or not at all. -/
def Lossless (t : NumberText) (r : Except (QuoinError E) Number) : Prop :=
  ∀ n, r = .ok n → Denotes lib t n

end Model

section Facts

variable {E : Type} {lib : Numerics} {t : NumberText} {f : Float}

theorem numberToValue_integer {n : Number} (hInt : t.isInteger)
    (hOf : integerOf lib t.render = some n) :
    numberToValue (E := E) lib t.render = .ok n := by
  unfold numberToValue
  rw [NumberText.marked_render, hInt]
  show (match integerOf lib t.render with | some n => _ | none => _) = _
  rw [hOf]

theorem numberToValue_other (hInt : t.isInteger = false) :
    numberToValue (E := E) lib t.render = decimalOf lib t.render := by
  unfold numberToValue
  rw [NumberText.marked_render, hInt]
  rfl

/-- An integer text is its value. -/
theorem integerOf_render (hBig : BigSpec lib) (hInt : t.isInteger) :
    ∃ n, integerOf lib t.render = some n ∧ Denotes lib t n := by
  have hRead := NumberText.parseInteger_render hInt
  have hValue := NumberText.value_of_integer hInt
  unfold integerOf parseI64
  rw [hRead, Option.bind_some]
  split_ifs with hRange
  · refine ⟨.int (Int64.ofInt t.mantissa), rfl, ?_⟩
    show ((Int64.ofInt t.mantissa).toInt : ℚ) = t.value
    rw [Int64.toInt_ofInt_of_le hRange.1 hRange.2, hValue]
  · rw [hBig.parses t hInt]
    exact ⟨.bigInteger t.mantissa, rfl, hValue.symm⟩

/-- The rendering of a double fits a Decimal, or is too large for one, if it is that of a text that
fits. -/
theorem shortest_fits (hDouble : DoubleSpec lib) (hParse : lib.parseF64 t.render = some f)
    (hFinite : f.isFinite) (hFits : DecimalFits t.value) :
    DecimalFits (lib.shortest f).value ∨ 2 ^ 96 ≤ |(lib.shortest f).value| := by
  obtain ⟨m, k, hk, -, hValue⟩ := hFits
  have hFew := hDouble.shortest t f m k hParse hFinite hValue
  have hPlain := NumberText.value_plain (hDouble.plain f hFinite)
  by_cases hFrac : (lib.shortest f).frac = []
  · rw [hFrac, List.length_nil, pow_zero, div_one] at hPlain
    rw [or_iff_not_imp_right, not_le]
    intro hSmall
    refine ⟨(lib.shortest f).mantissa, 0, by omega, ?_, by rw [hPlain, pow_zero, div_one]⟩
    rw [hPlain] at hSmall
    exact_mod_cast hSmall
  · have hDigits := hDouble.digits f hFinite hFrac
    refine .inl ⟨(lib.shortest f).mantissa, _, hFew.trans hk, ?_, hPlain⟩
    unfold NumberText.mantissa
    split <;> rw [abs_lt] <;> omega

/-- A double is exact as a Decimal if its rendering is the value. -/
theorem isExact_iff (hDouble : DoubleSpec lib) (hDecimal : DecimalSpec lib)
    (hParse : lib.parseF64 t.render = some f) (hFinite : f.isFinite)
    (hFits : DecimalFits t.value) :
    isExact lib f t.value = true ↔ (lib.shortest f).value = t.value := by
  have hPlain := hDouble.plain f hFinite
  have hOr := shortest_fits hDouble hParse hFinite hFits
  unfold isExact
  constructor
  · intro hExact
    rcases hOr with hShort | hLarge
    · rw [hDecimal.exact _ hPlain hShort] at hExact
      exact of_decide_eq_true hExact
    · rw [hDecimal.tooLarge _ hPlain hLarge] at hExact
      cases hExact
  · intro hEq
    rw [hDecimal.exact _ hPlain (hEq ▸ hFits)]
    exact decide_eq_true hEq

theorem decimalOf_infinite {raw : String} (hParse : lib.parseF64 raw = some f)
    (hFinite : ¬f.isFinite) : decimalOf (E := E) lib raw = .ok (.double f) := by
  unfold decimalOf
  rw [hParse]
  exact if_neg hFinite

theorem decimalOf_unparsed {raw : String} (hParse : lib.parseF64 raw = some f)
    (hFinite : f.isFinite) (hDec : lib.parseDecimal raw = none) :
    decimalOf (E := E) lib raw = .ok (.double f) := by
  unfold decimalOf
  rw [hParse, hDec]
  exact if_pos hFinite

theorem decimalOf_parsed {raw : String} {d : ℚ} (hParse : lib.parseF64 raw = some f)
    (hFinite : f.isFinite) (hDec : lib.parseDecimal raw = some d) :
    decimalOf (E := E) lib raw
      = if isExact lib f d then .ok (.double f) else .ok (.bigDecimal d) := by
  unfold decimalOf
  rw [hParse, hDec]
  exact if_pos hFinite

/-- A text that is no integer. -/
theorem decimalOf_lossless (hDouble : DoubleSpec lib) (hDecimal : DecimalSpec lib)
    (hParse : lib.parseF64 t.render = some f) : Lossless (E := E) lib t (decimalOf lib t.render) ↔
      f.isFinite ∧ ((lib.shortest f).value = t.value ∨
        (t.exponent = none ∧ DecimalFits t.value)) := by
  have hOk (n : Number) : Lossless (E := E) lib t (.ok n) ↔ Denotes lib t n :=
    ⟨fun h => h n rfl, fun h n' hn' => Except.ok.inj hn' ▸ h⟩
  -- a double that is not finite is kept, and is never the value
  by_cases hFinite : f.isFinite
  · cases hDec : lib.parseDecimal t.render with
    | none =>
      rw [decimalOf_unparsed hParse hFinite hDec, hOk]
      refine and_congr_right fun _ => ⟨.inl, fun h => h.resolve_right ?_⟩
      rintro ⟨hPlain, hFits⟩
      rw [hDecimal.exact t hPlain hFits] at hDec
      cases hDec
    | some d =>
      have hPlain : t.exponent = none := by
        by_contra hNot
        rw [hDecimal.noExponent t hNot] at hDec
        cases hDec
      have hHeld := hDecimal.fits t d hDec
      rw [decimalOf_parsed hParse hFinite hDec]
      by_cases hFits : DecimalFits t.value
      · -- the Decimal is the value, so that either answer is
        obtain rfl : t.value = d := by
          rw [hDecimal.exact t hPlain hFits] at hDec
          exact Option.some.inj hDec
        refine iff_of_true ?_ ⟨hFinite, .inr ⟨hPlain, hFits⟩⟩
        by_cases hExact : isExact lib f t.value = true
        · rw [if_pos hExact, hOk]
          exact ⟨hFinite, (isExact_iff hDouble hDecimal hParse hFinite hFits).mp hExact⟩
        · rw [if_neg hExact, hOk]
          exact rfl
      · -- the Decimal is rounded, and only the double can be the value
        have hOther : d ≠ t.value := fun hEq => hFits (hEq ▸ hHeld)
        by_cases hEq : (lib.shortest f).value = t.value
        · have hExact : isExact lib f d = true := by
            unfold isExact
            rw [hDecimal.byValue _ t (hDouble.plain f hFinite) hPlain hEq, hDec]
            exact decide_eq_true rfl
          rw [if_pos hExact, hOk]
          exact iff_of_true ⟨hFinite, hEq⟩ ⟨hFinite, .inl hEq⟩
        · refine iff_of_false (fun h => ?_) fun h => h.2.elim hEq fun h => hFits h.2
          by_cases hExact : isExact lib f d = true
          · rw [if_pos hExact, hOk] at h
            exact hEq h.2
          · rw [if_neg hExact, hOk] at h
            exact hOther h
  · rw [decimalOf_infinite hParse hFinite, hOk]
    exact ⟨fun h => absurd h.1 hFinite, fun h => absurd h.1 hFinite⟩

end Facts

/-! ## The theorem -/

/-- **A number is parsed without loss exactly if it is an integer, or its double is finite and
renders to it, or a BigDecimal holds it.** -/
theorem number_lossless {E : Type} (lib : Numerics) (hBig : BigSpec lib)
    (hDouble : DoubleSpec lib) (hDecimal : DecimalSpec lib) (t : NumberText) :
    Lossless (E := E) lib t (numberToValue lib t.render) ↔
      t.isInteger ∨ ∃ f, lib.parseF64 t.render = some f ∧ f.isFinite ∧
        ((lib.shortest f).value = t.value ∨ (t.exponent = none ∧ DecimalFits t.value)) := by
  cases hInt : t.isInteger with
  | true =>
    refine iff_of_true ?_ (.inl rfl)
    obtain ⟨n, hOf, hDenotes⟩ := integerOf_render hBig hInt
    rw [numberToValue_integer hInt hOf]
    exact fun n' hn' => Except.ok.inj hn' ▸ hDenotes
  | false =>
    obtain ⟨f, hParse⟩ := hDouble.parses t
    rw [numberToValue_other hInt, decimalOf_lossless hDouble hDecimal hParse]
    constructor
    · exact fun h => .inr ⟨f, hParse, h⟩
    · rintro (h | ⟨f', hParse', h⟩)
      · cases h
      · rwa [Option.some.inj (hParse.symm.trans hParse')]

/-! ## A half, and a number beyond all doubles -/

namespace Samples

theorem zero_whole :
    [digit 0] = [0] ∨ ∃ d rest, d ≠ 0 ∧ [digit 0] = d :: rest := .inl rfl

theorem one_whole :
    [digit 1] = [0] ∨ ∃ d rest, d ≠ 0 ∧ [digit 1] = d :: rest :=
  .inr ⟨digit 1, [], by decide, rfl⟩

/-- `0.5`. -/
def half : NumberText := ⟨false, [digit 0], [digit 5], none, zero_whole⟩

/-- `1e999`. -/
def huge : NumberText :=
  ⟨false, [digit 1], [], some ⟨false, none, [digit 9, digit 9, digit 9], by decide⟩, one_whole⟩

/-- Parsers that know the double of `0.5`, and that `1e999` has none. -/
def lib : Numerics where
  parseBig := parseInteger
  parseF64 raw := some (if raw = half.render then 0.5 else 1 / 0)
  shortest _ := half
  parseDecimal raw := (parsePlain raw).filter fun v => DecimalFits v

theorem bigSpec : BigSpec lib := ⟨fun _ hInt => NumberText.parseInteger_render hInt⟩

/-- A text with the characters of a half is a half. -/
theorem value_half {t : NumberText} (h : t.render = half.render) : t.value = half.value := by
  have hHalf := NumberText.parsePlain_render (t := half) rfl
  rw [← h] at hHalf
  by_cases hPlain : t.exponent = none
  · rw [NumberText.parsePlain_render hPlain] at hHalf
    exact Option.some.inj hHalf
  · rw [NumberText.parsePlain_exponent hPlain] at hHalf
    cases hHalf

theorem doubleSpec : DoubleSpec lib where
  parses t := ⟨_, rfl⟩
  plain _ _ := rfl
  digits _ _ _ := by
    show digitsValue [0, 5] < 10 ^ 17
    decide
  shortest t f m k hParse hFinite hValue := by
    have hRender : t.render = half.render := by
      by_contra hOther
      have hInf : (1 / 0 : Float) = f := by
        rw [← Option.some.inj hParse]
        exact (if_neg hOther).symm
      rw [← hInf] at hFinite
      exact absurd hFinite (by decide +kernel)
    have hHalf : half.value = 1 / 2 := by decide +kernel
    show 1 ≤ k
    by_contra hk
    obtain rfl : k = 0 := by omega
    rw [value_half hRender, hHalf, pow_zero, div_one, div_eq_iff (by norm_num)] at hValue
    have : 1 = m * 2 := by exact_mod_cast hValue
    omega

theorem parseDecimal_plain {t : NumberText} (hPlain : t.exponent = none) :
    lib.parseDecimal t.render = if DecimalFits t.value then some t.value else none := by
  show (parsePlain t.render).filter _ = _
  rw [NumberText.parsePlain_render hPlain, Option.filter_some]
  simp only [decide_eq_true_eq]

theorem decimalSpec : DecimalSpec lib where
  noExponent t h := by
    show (parsePlain t.render).filter _ = none
    rw [NumberText.parsePlain_exponent h]
    rfl
  exact t hPlain hFits := by rw [parseDecimal_plain hPlain, if_pos hFits]
  byValue t t' hPlain hPlain' h := by rw [parseDecimal_plain hPlain, parseDecimal_plain hPlain', h]
  fits t d h := of_decide_eq_true (Option.filter_eq_some_iff.mp h).2
  tooLarge t hPlain hLarge := by
    rw [parseDecimal_plain hPlain, if_neg fun h => (h.abs_lt).not_ge hLarge]

end Samples

/-- 0.5 is its double's shortest rendering, and is kept as a double. -/
theorem number_lossless_half :
    Lossless (E := Empty) Samples.lib Samples.half
      (numberToValue Samples.lib Samples.half.render) :=
  (number_lossless Samples.lib Samples.bigSpec Samples.doubleSpec Samples.decimalSpec
    Samples.half).mpr (.inr ⟨0.5, congrArg some (if_pos rfl), by decide +kernel, .inl rfl⟩)

/-- A number beyond all doubles becomes an infinite one. -/
theorem number_lossless_huge :
    Samples.huge.render = "1e999" ∧
    numberToValue (E := Empty) Samples.lib "1e999" = .ok (.double (1 / 0)) ∧
    ¬Lossless (E := Empty) Samples.lib Samples.huge (numberToValue Samples.lib "1e999") := by
  have hRender : Samples.huge.render = "1e999" := by decide +kernel
  have hOk : numberToValue (E := Empty) Samples.lib "1e999" = .ok (.double (1 / 0)) := by
    have hParse : Samples.lib.parseF64 Samples.huge.render = some (1 / 0) :=
      congrArg some (if_neg (by decide +kernel))
    rw [← hRender, numberToValue_other rfl, decimalOf_infinite hParse (by decide +kernel)]
  refine ⟨hRender, hOk, fun h => ?_⟩
  exact absurd (h _ hOk).1 (by decide +kernel)

end Quoin.Json
