import Mathlib

/-!
# Quoin — durations

The arithmetic of the class `Duration` over jiff's `SignedDuration`, a number of
seconds and a number of nanoseconds with one sign. jiff is a parameter: `Documented`
says what its operations promise. A program makes durations from numbers and from
durations that it has made, and may catch an `ArithmeticError`; a panic ends it.

What is made is exact, and what overflows is an `ArithmeticError`, with three
exceptions: `minutes:`, `hours:` and `abs` leave the check to operations of jiff that
panic (`exact_iff`, `arithmetic_exact`).

## Results

* `exact_iff` — one operation is exact, or an `ArithmeticError`, exactly if jiff does not panic;
* `arithmetic_exact` — so are all operations of a program;
* `arithmetic_exact_panics` — `abs` of the least number of seconds.
-/

namespace Quoin.Time

/-! ## Signed durations -/

/-- Nanoseconds in a second. -/
def NANOS : Int := 1000000000

structure SignedDuration where
  secs : Int64
  nanos : Int
  bounded : -NANOS < nanos ∧ nanos < NANOS
  same_sign : (0 < secs.toInt → 0 ≤ nanos) ∧ (secs.toInt < 0 → nanos ≤ 0)
  deriving DecidableEq

namespace SignedDuration

/-- The length in nanoseconds. -/
def total (d : SignedDuration) : Int := d.secs.toInt * NANOS + d.nanos

/-- Some duration has the length `t`. -/
def Fits (t : Int) : Prop := ∃ d : SignedDuration, d.total = t

/-- The whole seconds of a length, and the nanoseconds that are left, with its sign. -/
theorem split_total (t : Int) : ∃ q r : Int, t.tdiv NANOS = q ∧ t.tmod NANOS = r ∧
    t = q * NANOS + r ∧ -NANOS < r ∧ r < NANOS ∧ (0 < q → 0 ≤ r) ∧ (q < 0 → r ≤ 0) := by
  refine ⟨t.tdiv NANOS, t.tmod NANOS, rfl, rfl, (Int.tdiv_mul_add_tmod t NANOS).symm, ?_⟩
  have hSum := Int.tdiv_mul_add_tmod t NANOS
  have hMax : t.tmod NANOS < NANOS := Int.tmod_lt_of_pos t (by decide)
  have hMin : -NANOS < t.tmod NANOS := Int.lt_tmod_of_pos t (by decide)
  refine ⟨hMin, hMax, ?_, ?_⟩
  · intro hPos
    refine Int.tmod_nonneg NANOS ?_
    unfold NANOS at *
    omega
  · intro hNeg
    have hFlip := Int.neg_tmod t NANOS
    have hFlipped : 0 ≤ (-t).tmod NANOS := by
      refine Int.tmod_nonneg NANOS ?_
      unfold NANOS at *
      omega
    omega

/-- The duration of a length that is not too long. -/
def ofTotal (t : Int) (hMin : -2 ^ 63 * NANOS - NANOS < t) (hMax : t < 2 ^ 63 * NANOS) :
    SignedDuration where
  secs := .ofInt (t.tdiv NANOS)
  nanos := t.tmod NANOS
  bounded := by
    obtain ⟨q, r, -, hRest, -, hLow, hHigh, -⟩ := split_total t
    rw [hRest]
    exact ⟨hLow, hHigh⟩
  same_sign := by
    obtain ⟨q, r, hSecs, hRest, hSum, hLow, hHigh, hSign⟩ := split_total t
    unfold NANOS at hMin hMax hSum hLow hHigh
    rw [hSecs, hRest, Int64.toInt_ofInt_of_le (by omega) (by omega)]
    exact hSign

variable {d e : SignedDuration} {t : Int}

theorem total_ofTotal (hMin : -2 ^ 63 * NANOS - NANOS < t) (hMax : t < 2 ^ 63 * NANOS) :
    (ofTotal t hMin hMax).total = t := by
  obtain ⟨q, r, hSecs, hRest, hSum, hLow, hHigh, hSign⟩ := split_total t
  have hStored : (Int64.ofInt q).toInt = q := by
    unfold NANOS at hMin hMax hSum hLow hHigh
    exact Int64.toInt_ofInt_of_le (by omega) (by omega)
  show (Int64.ofInt (t.tdiv NANOS)).toInt * NANOS + t.tmod NANOS = t
  rw [hSecs, hRest, hStored, hSum]

theorem fits_iff : Fits t ↔ -2 ^ 63 * NANOS - NANOS < t ∧ t < 2 ^ 63 * NANOS := by
  constructor
  · rintro ⟨d, rfl⟩
    have hBounded := d.bounded
    have hMin := d.secs.le_toInt
    have hMax := d.secs.toInt_lt
    unfold total NANOS at *
    omega
  · rintro ⟨hMin, hMax⟩
    exact ⟨_, total_ofTotal hMin hMax⟩

/-- A duration can be negated unless its seconds are the least number. -/
theorem fits_neg_iff (d : SignedDuration) : Fits (-d.total) ↔ d.secs ≠ Int64.minValue := by
  have hBounded := d.bounded
  have hSign := d.same_sign
  have hMin := d.secs.le_toInt
  have hLeast : d.secs = Int64.minValue ↔ d.secs.toInt = -2 ^ 63 := by
    rw [← Int64.toInt_inj, Int64.toInt_minValue]
  rw [fits_iff, ne_eq, hLeast]
  have hMax := d.secs.toInt_lt
  unfold total NANOS at *
  omega

theorem fits_scaled_iff (n : Int) : Fits (n * NANOS) ↔ -2 ^ 63 ≤ n ∧ n < 2 ^ 63 := by
  rw [fits_iff]
  unfold NANOS
  omega

end SignedDuration

open SignedDuration

/-! ## jiff -/

/-- The operations of jiff that are used; of those that may panic, and of those that check,
`none` is the case where they do not succeed. -/
structure Jiff where
  zero : SignedDuration
  fromNanos : Int64 → SignedDuration
  fromMicros : Int64 → SignedDuration
  fromMillis : Int64 → SignedDuration
  fromSecs : Int64 → SignedDuration
  /-- Panics. -/
  fromMins : Int64 → Option SignedDuration
  /-- Panics. -/
  fromHours : Int64 → Option SignedDuration
  checkedAdd : SignedDuration → SignedDuration → Option SignedDuration
  checkedSub : SignedDuration → SignedDuration → Option SignedDuration
  checkedMul : SignedDuration → Int32 → Option SignedDuration
  checkedNeg : SignedDuration → Option SignedDuration
  /-- Unary minus; panics. -/
  neg : SignedDuration → Option SignedDuration
  isNegative : SignedDuration → Bool

/-- `o` is a duration of the length `t`, or nothing if there is none. -/
def Yields (o : Option SignedDuration) (t : Int) : Prop :=
  (∀ d, o = some d → d.total = t) ∧ (o = none ↔ ¬Fits t)

structure Jiff.Documented (j : Jiff) : Prop where
  zero : j.zero.total = 0
  fromNanos : ∀ n, (j.fromNanos n).total = n.toInt
  fromMicros : ∀ n, (j.fromMicros n).total = n.toInt * 1000
  fromMillis : ∀ n, (j.fromMillis n).total = n.toInt * 1000000
  fromSecs : ∀ n, (j.fromSecs n).total = n.toInt * NANOS
  fromMins : ∀ n, Yields (j.fromMins n) (n.toInt * 60 * NANOS)
  fromHours : ∀ n, Yields (j.fromHours n) (n.toInt * 3600 * NANOS)
  checkedAdd : ∀ d e, Yields (j.checkedAdd d e) (d.total + e.total)
  checkedSub : ∀ d e, Yields (j.checkedSub d e) (d.total - e.total)
  checkedMul : ∀ d n, Yields (j.checkedMul d n) (d.total * n.toInt)
  checkedNeg : ∀ d, Yields (j.checkedNeg d) (-d.total)
  neg : ∀ d, Yields (j.neg d) (-d.total)
  isNegative : ∀ d, j.isNegative d = true ↔ d.total < 0

/-! ## The class -/

inductive Outcome where
  | ok (d : SignedDuration)
  | arithmeticError (msg : String)
  | panic
  deriving DecidableEq

namespace Outcome

/-- `.map(make_duration).ok_or_else(..)`. -/
def checked (msg : String) : Option SignedDuration → Outcome
  | some d => ok d
  | none => arithmeticError msg

/-- What an operation that panics leaves. -/
def unchecked : Option SignedDuration → Outcome
  | some d => ok d
  | none => panic

end Outcome

/-- A message to the class or to a duration. -/
inductive Op where
  | zero
  | nanoseconds (n : Int64)
  | microseconds (n : Int64)
  | milliseconds (n : Int64)
  | seconds (n : Int64)
  | minutes (n : Int64)
  | hours (n : Int64)
  | plus (d e : SignedDuration)
  | minus (d e : SignedDuration)
  | times (d : SignedDuration) (n : Int64)
  | negate (d : SignedDuration)
  | abs (d : SignedDuration)

namespace Op

def send (j : Jiff) : Op → Outcome
  | zero => .ok j.zero
  | nanoseconds n => .ok (j.fromNanos n)
  | microseconds n => .ok (j.fromMicros n)
  | milliseconds n => .ok (j.fromMillis n)
  | seconds n => .ok (j.fromSecs n)
  | minutes n => .unchecked (j.fromMins n)
  | hours n => .unchecked (j.fromHours n)
  | plus d e => .checked "Duration +: overflow" (j.checkedAdd d e)
  | minus d e => .checked "Duration -: overflow" (j.checkedSub d e)
  | times d n =>
    if -2 ^ 31 ≤ n.toInt ∧ n.toInt < 2 ^ 31 then
      .checked "Duration *: overflow" (j.checkedMul d n.toInt32)
    else .arithmeticError "Duration *: factor out of range"
  | negate d => .checked "Duration negate overflow" (j.checkedNeg d)
  | abs d => if j.isNegative d then .unchecked (j.neg d) else .ok d

/-- The durations that a message needs. -/
def operands : Op → List SignedDuration
  | plus d e | minus d e => [d, e]
  | times d _ | negate d | abs d => [d]
  | _ => []

/-- The length that a message asks for. -/
def result : Op → Int
  | zero => 0
  | nanoseconds n => n.toInt
  | microseconds n => n.toInt * 1000
  | milliseconds n => n.toInt * 1000000
  | seconds n => n.toInt * NANOS
  | minutes n => n.toInt * 60 * NANOS
  | hours n => n.toInt * 3600 * NANOS
  | plus d e => d.total + e.total
  | minus d e => d.total - e.total
  | times d n => d.total * n.toInt
  | negate d => -d.total
  | abs d => |d.total|

/-- The length that is asked for, or an error that can be caught. -/
def Exact (j : Jiff) (op : Op) : Prop :=
  (∃ d, op.send j = .ok d ∧ d.total = op.result) ∨ ∃ msg, op.send j = .arithmeticError msg

/-- So many minutes and hours have no more seconds than a number can count, and the seconds
of what `abs` is sent to are not the least number. -/
def Counts : Op → Prop
  | minutes n => -2 ^ 63 ≤ n.toInt * 60 ∧ n.toInt * 60 < 2 ^ 63
  | hours n => -2 ^ 63 ≤ n.toInt * 3600 ∧ n.toInt * 3600 < 2 ^ 63
  | abs d => d.secs ≠ Int64.minValue
  | _ => True

end Op

/-- A program that has made the durations `made` sends the messages `ops`, with what it has
made; it catches the errors. `fin` is what it has made in the end; nothing if the VM panics. -/
inductive Sends (j : Jiff) :
    List SignedDuration → List Op → Option (List SignedDuration) → Prop where
  | done (made) : Sends j made [] (some made)
  | made {made ops fin} (op : Op) (d) (hKnown : op.operands ⊆ made) (hOk : op.send j = .ok d)
      (rest : Sends j (d :: made) ops fin) : Sends j made (op :: ops) fin
  | caught {made ops fin} (op : Op) (msg) (hKnown : op.operands ⊆ made)
      (hError : op.send j = .arithmeticError msg) (rest : Sends j made ops fin) :
      Sends j made (op :: ops) fin
  | panicked {made} (op : Op) (hKnown : op.operands ⊆ made) (hPanic : op.send j = .panic) :
      Sends j made [op] none

/-! ## What the operations promise -/

namespace Op

variable {j : Jiff} {op : Op} {o : Option SignedDuration} {t : Int} {msg : String}

theorem exact_ok {d : SignedDuration} (hSend : op.send j = .ok d) :
    op.Exact j ↔ d.total = op.result := by
  simp [Exact, hSend]

theorem Exact.ne_panic (h : op.Exact j) : op.send j ≠ .panic := by
  rcases h with ⟨d, hSend, -⟩ | ⟨msg, hSend⟩ <;> simp [hSend]

/-- What is checked is exact. -/
theorem exact_checked (hSend : op.send j = .checked msg o) (h : Yields o op.result) :
    op.Exact j := by
  cases o with
  | some d => exact (exact_ok hSend).mpr (h.1 d rfl)
  | none => exact .inr ⟨msg, hSend⟩

/-- What panics is exact where there is a result. -/
theorem exact_unchecked (hSend : op.send j = .unchecked o) (h : Yields o op.result) :
    op.Exact j ↔ Fits op.result := by
  cases o with
  | some d =>
    have hTotal := h.1 d rfl
    exact iff_of_true ((exact_ok hSend).mpr hTotal) ⟨d, hTotal⟩
  | none =>
    refine iff_of_false ?_ (h.2.mp rfl)
    simp [Exact, hSend, Outcome.unchecked]

variable (hj : j.Documented)
include hj

theorem checkedMul_factor (d : SignedDuration) {n : Int64}
    (hFactor : -2 ^ 31 ≤ n.toInt ∧ n.toInt < 2 ^ 31) :
    Yields (j.checkedMul d n.toInt32) (times d n).result := by
  have hSame : n.toInt32.toInt = n.toInt := by
    rw [Int64.toInt_toInt32]
    exact Int.bmod_eq_of_le hFactor.1 hFactor.2
  have hYields := hj.checkedMul d n.toInt32
  rw [hSame] at hYields
  exact hYields

theorem exact_times (d : SignedDuration) (n : Int64) : (times d n).Exact j := by
  by_cases hFactor : -2 ^ 31 ≤ n.toInt ∧ n.toInt < 2 ^ 31
  · exact exact_checked (if_pos hFactor) (checkedMul_factor hj d hFactor)
  · exact .inr ⟨_, if_neg hFactor⟩

theorem exact_abs (d : SignedDuration) : (abs d).Exact j ↔ d.secs ≠ Int64.minValue := by
  by_cases hNegative : j.isNegative d
  · have hTotal := (hj.isNegative d).mp hNegative
    have hResult : (abs d).result = -d.total := abs_of_neg hTotal
    have hYields := hj.neg d
    rw [← hResult] at hYields
    have hSend : (abs d).send j = .unchecked (j.neg d) := if_pos hNegative
    rw [exact_unchecked hSend hYields, hResult, fits_neg_iff]
  · have hTotal := mt (hj.isNegative d).mpr hNegative
    have hSend : (abs d).send j = .ok d := if_neg hNegative
    refine iff_of_true ((exact_ok hSend).mpr (abs_of_nonneg (by omega)).symm) ?_
    intro hLeast
    have hBounded := d.bounded
    have hSecs : d.secs.toInt = -2 ^ 63 := by rw [hLeast]; rfl
    have hSign := d.same_sign.2 (by omega)
    unfold total NANOS at hTotal
    omega

/-- Everything is exact but minutes and hours that overflow and the magnitude of a least
duration. -/
theorem exact_iff (op : Op) : op.Exact j ↔ op.Counts := by
  cases op with
  | zero => exact iff_of_true ((exact_ok rfl).mpr hj.zero) trivial
  | nanoseconds n => exact iff_of_true ((exact_ok rfl).mpr (hj.fromNanos n)) trivial
  | microseconds n => exact iff_of_true ((exact_ok rfl).mpr (hj.fromMicros n)) trivial
  | milliseconds n => exact iff_of_true ((exact_ok rfl).mpr (hj.fromMillis n)) trivial
  | seconds n => exact iff_of_true ((exact_ok rfl).mpr (hj.fromSecs n)) trivial
  | minutes n => exact (exact_unchecked rfl (hj.fromMins n)).trans (fits_scaled_iff _)
  | hours n => exact (exact_unchecked rfl (hj.fromHours n)).trans (fits_scaled_iff _)
  | plus d e => exact iff_of_true (exact_checked rfl (hj.checkedAdd d e)) trivial
  | minus d e => exact iff_of_true (exact_checked rfl (hj.checkedSub d e)) trivial
  | times d n => exact iff_of_true (exact_times hj d n) trivial
  | negate d => exact iff_of_true (exact_checked rfl (hj.checkedNeg d)) trivial
  | abs d => exact exact_abs hj d

/-- `abs` raises nothing, and what it returns is not negative. -/
theorem abs_nonneg {d e : SignedDuration} (h : (abs d).send j = .ok e) : 0 ≤ e.total := by
  have hCases : e = d ∧ ¬j.isNegative d ∨ j.isNegative d ∧ j.neg d = some e := by
    rw [send] at h
    split at h
    next hNegative =>
      cases hNeg : j.neg d with
      | some x =>
        rw [hNeg] at h
        exact .inr ⟨hNegative, congrArg some (Outcome.ok.inj h)⟩
      | none =>
        rw [hNeg] at h
        cases h
    next hNegative => exact .inl ⟨(Outcome.ok.inj h).symm, hNegative⟩
  rcases hCases with ⟨rfl, hNegative⟩ | ⟨hNegative, hNeg⟩
  · have hTotal := mt (hj.isNegative e).mpr hNegative
    omega
  · have hTotal := (hj.isNegative d).mp hNegative
    have hExact := (hj.neg d).1 e hNeg
    omega

end Op

/-- The VM survives a program that is sent no panic. -/
theorem Sends.survives_iff {j : Jiff} {made : List SignedDuration} {ops : List Op}
    {fin : Option (List SignedDuration)} (hSends : Sends j made ops fin) :
    fin ≠ none ↔ ∀ op ∈ ops, op.send j ≠ .panic := by
  induction hSends with
  | done => simp
  | made op d _ hOk _ ih => simp [ih, hOk]
  | caught op msg _ hError _ ih => simp [ih, hError]
  | panicked op _ hPanic => simp [hPanic]

/-- In every program, everything is exact, and nothing panics, if and only if nothing that is
sent overflows one of the three; and `abs` never returns a negative duration. -/
theorem arithmetic_exact (j : Jiff) (hj : j.Documented) (ops : List Op)
    (fin : Option (List SignedDuration)) (hSends : Sends j [] ops fin) :
    (fin ≠ none ∧ (∀ op ∈ ops, op.Exact j) ↔ ∀ op ∈ ops, op.Counts) ∧
      ∀ d e, .abs d ∈ ops → Op.send j (.abs d) = .ok e → 0 ≤ e.total := by
  refine ⟨?_, fun _ _ _ => Op.abs_nonneg hj⟩
  have hExact : (∀ op ∈ ops, op.Exact j) ↔ ∀ op ∈ ops, op.Counts :=
    forall₂_congr fun op _ => Op.exact_iff hj op
  rw [← hExact, hSends.survives_iff, and_iff_right_iff_imp]
  intro hAll op hOp
  exact Op.Exact.ne_panic (hAll op hOp)

/-! ## A library that keeps its promises -/

namespace Jiff

/-- The duration of a length, if there is one. -/
def ofLength (t : Int) : Option SignedDuration :=
  if h : -2 ^ 63 * NANOS - NANOS < t ∧ t < 2 ^ 63 * NANOS then some (ofTotal t h.1 h.2) else none

theorem yields_ofLength (t : Int) : Yields (ofLength t) t := by
  by_cases h : -2 ^ 63 * NANOS - NANOS < t ∧ t < 2 ^ 63 * NANOS
  · have hSome : ofLength t = some (ofTotal t h.1 h.2) := dif_pos h
    refine ⟨fun d hd => ?_, iff_of_false (by simp [hSome]) (not_not.mpr (fits_iff.mpr h))⟩
    rw [← Option.some.inj (hSome.symm.trans hd)]
    exact total_ofTotal h.1 h.2
  · have hNone : ofLength t = none := dif_neg h
    refine ⟨fun d hd => ?_, iff_of_true hNone (mt fits_iff.mp h)⟩
    rw [hNone] at hd
    cases hd

theorem scaled_bounds (n : Int64) {k : Int} (hMin : 0 < k) (hMax : k ≤ NANOS) :
    -2 ^ 63 * NANOS - NANOS < n.toInt * k ∧ n.toInt * k < 2 ^ 63 * NANOS := by
  have hLow := n.le_toInt
  have hHigh := n.toInt_lt
  unfold NANOS at *
  constructor <;> nlinarith

/-- `n` times `k` nanoseconds. -/
def ofScaled (n : Int64) (k : Int) (hMin : 0 < k) (hMax : k ≤ NANOS) : SignedDuration :=
  ofTotal (n.toInt * k) (scaled_bounds n hMin hMax).1 (scaled_bounds n hMin hMax).2

theorem total_ofScaled (n : Int64) {k : Int} (hMin : 0 < k) (hMax : k ≤ NANOS) :
    (ofScaled n k hMin hMax).total = n.toInt * k :=
  total_ofTotal (scaled_bounds n hMin hMax).1 (scaled_bounds n hMin hMax).2

/-- Everything by its length. -/
def exact : Jiff where
  zero := ofScaled 0 1 (by decide) (by decide)
  fromNanos n := ofScaled n 1 (by decide) (by decide)
  fromMicros n := ofScaled n 1000 (by decide) (by decide)
  fromMillis n := ofScaled n 1000000 (by decide) (by decide)
  fromSecs n := ofScaled n NANOS (by decide) (by decide)
  fromMins n := ofLength (n.toInt * 60 * NANOS)
  fromHours n := ofLength (n.toInt * 3600 * NANOS)
  checkedAdd d e := ofLength (d.total + e.total)
  checkedSub d e := ofLength (d.total - e.total)
  checkedMul d n := ofLength (d.total * n.toInt)
  checkedNeg d := ofLength (-d.total)
  neg d := ofLength (-d.total)
  isNegative d := d.total < 0

theorem documented_exact : exact.Documented where
  zero := total_ofScaled 0 (by decide) (by decide)
  fromNanos n := (total_ofScaled n (by decide) (by decide)).trans (mul_one _)
  fromMicros n := total_ofScaled n (by decide) (by decide)
  fromMillis n := total_ofScaled n (by decide) (by decide)
  fromSecs n := total_ofScaled n (by decide) (by decide)
  fromMins n := yields_ofLength _
  fromHours n := yields_ofLength _
  checkedAdd d e := yields_ofLength _
  checkedSub d e := yields_ofLength _
  checkedMul d n := yields_ofLength _
  checkedNeg d := yields_ofLength _
  neg d := yields_ofLength _
  isNegative d := decide_eq_true_iff

end Jiff

/-- The least number of seconds, negated: it is too long, and that is caught. -/
theorem arithmetic_exact_negate :
    (Op.negate (Jiff.exact.fromSecs Int64.minValue)).Exact Jiff.exact ∧
      (Op.seconds Int64.minValue).Exact Jiff.exact := by
  have hCaught : (Op.negate (Jiff.exact.fromSecs Int64.minValue)).send Jiff.exact =
      .arithmeticError "Duration negate overflow" := by decide +kernel
  have hSends : Sends Jiff.exact []
      [.seconds Int64.minValue, .negate (Jiff.exact.fromSecs Int64.minValue)]
      (some [Jiff.exact.fromSecs Int64.minValue]) :=
    .made _ _ (List.nil_subset _) rfl
      (.caught _ _ (List.Subset.refl _) hCaught (.done _))
  have hExact := (arithmetic_exact Jiff.exact Jiff.documented_exact _ _ hSends).1.mpr (by
    intro op hOp
    rcases List.mem_cons.mp hOp with rfl | hOp
    · trivial
    · rw [List.mem_singleton.mp hOp]
      trivial)
  exact ⟨hExact.2 _ (by simp), hExact.2 _ (by simp)⟩

/-- Two programs that a panic ends: one asks for 2^63 - 1 minutes, and the other for the magnitude
of the least number of seconds. -/
theorem arithmetic_exact_panics :
    Jiff.exact.Documented ∧
      (Sends Jiff.exact [] [.minutes Int64.maxValue] none ∧
        ¬(Op.minutes Int64.maxValue).Exact Jiff.exact) ∧
      Sends Jiff.exact []
        [.seconds Int64.minValue, .abs (Jiff.exact.fromSecs Int64.minValue)] none ∧
      ¬(Op.abs (Jiff.exact.fromSecs Int64.minValue)).Exact Jiff.exact := by
  have hMinutes : (Op.minutes Int64.maxValue).send Jiff.exact = .panic := by decide +kernel
  have hAbs : (Op.abs (Jiff.exact.fromSecs Int64.minValue)).send Jiff.exact = .panic := by
    decide +kernel
  refine ⟨Jiff.documented_exact, ⟨.panicked _ (List.nil_subset _) hMinutes, ?_⟩,
    .made _ _ (List.nil_subset _) rfl (.panicked _ (List.Subset.refl _) hAbs), ?_⟩
  · simp [Op.Exact, hMinutes]
  · simp [Op.Exact, hAbs]

end Quoin.Time
