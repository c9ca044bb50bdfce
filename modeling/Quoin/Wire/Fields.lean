import Mathlib

/-!
# Wire — fields of a fixed record

A record of a fixed length is filled by putting byte strings at offsets
(`put`) and read by slicing it (`slice`). A slice sees the field that was put
there and none that was put beside it, so a record is read back field by field
(`slice_put_self`, `slice_put_of_le`, `slice_put_of_ge`).

A number is written in a base as text, most significant digit first
(`numeral`), and read by accumulating the digits (`ofNumeral`), which skips
everything that is not a digit of the base.
-/

namespace Wire

variable {τ : Type}

/-! ## Fields -/

/-- The tokens one after the other, from an offset on. -/
def put (h : List τ) : List τ → Nat → List τ
  | [], _ => h
  | b :: bs, i => put (h.set i b) bs (i + 1)

/-- The tokens one after the other, downwards from an offset. -/
def putDown (h : List τ) : List τ → Nat → List τ
  | [], _ => h
  | b :: bs, i => putDown (h.set i b) bs (i - 1)

/-- The half-open range of a record. -/
def slice (h : List τ) (i j : Nat) : List τ := (h.take j).drop i

@[simp] theorem length_put (h bs : List τ) (i : Nat) : (put h bs i).length = h.length := by
  induction bs generalizing h i with
  | nil => rfl
  | cons b bs ih => rw [put, ih, List.length_set]

theorem length_slice (h : List τ) (i j : Nat) : (slice h i j).length = min j h.length - i := by
  simp [slice]

/-- What is at an offset: the new token, or the old one. -/
theorem getElem?_put (h bs : List τ) (i k : Nat) :
    (put h bs i)[k]? = if i ≤ k ∧ k < i + bs.length ∧ k < h.length then bs[k - i]? else h[k]? := by
  induction bs generalizing h i with
  | nil =>
    rw [put, if_neg]
    simp only [List.length_nil]
    omega
  | cons b bs ih =>
    rw [put, ih, List.length_set, List.getElem?_set, List.length_cons]
    by_cases hEq : i = k
    · subst hEq
      by_cases hLt : i < h.length
      · simp [hLt]
      · simp [hLt]
    · by_cases hIn : i + 1 ≤ k ∧ k < i + 1 + bs.length ∧ k < h.length
      · have hSub : k - i = k - (i + 1) + 1 := by omega
        rw [if_pos hIn, if_pos (by omega), hSub, List.getElem?_cons_succ]
      · rw [if_neg hIn, if_neg hEq, if_neg (by omega)]

theorem getElem?_slice (h : List τ) (i j k : Nat) :
    (slice h i j)[k]? = if i + k < j then h[i + k]? else none := by
  rw [slice, List.getElem?_drop, List.getElem?_take]

/-- A field reads back. -/
theorem slice_put_self (h bs : List τ) (i j : Nat) (hj : j = i + bs.length) (hFit : j ≤ h.length) :
    slice (put h bs i) i j = bs := by
  refine List.ext_getElem? fun k => ?_
  rw [getElem?_slice, getElem?_put]
  by_cases hk : k < bs.length
  · have hSub : i + k - i = k := by omega
    rw [if_pos (by omega), if_pos (by omega), hSub]
  · rw [if_neg (by omega), List.getElem?_eq_none (by omega)]

/-- A field put at or after the slice's end is not in it. -/
theorem slice_put_of_le (h bs : List τ) {i j n : Nat} (hle : j ≤ n) :
    slice (put h bs n) i j = slice h i j := by
  refine List.ext_getElem? fun k => ?_
  rw [getElem?_slice, getElem?_slice, getElem?_put]
  split_ifs <;> first | rfl | omega

/-- A field that ends at or before the slice's start is not in it. -/
theorem slice_put_of_ge (h bs : List τ) {i j n : Nat} (hge : n + bs.length ≤ i) :
    slice (put h bs n) i j = slice h i j := by
  refine List.ext_getElem? fun k => ?_
  rw [getElem?_slice, getElem?_slice, getElem?_put]
  split_ifs <;> first | rfl | omega

theorem slice_replicate (b : τ) {n i j : Nat} (h : j ≤ n) :
    slice (List.replicate n b) i j = List.replicate (j - i) b := by
  rw [slice, List.take_replicate, List.drop_replicate, Nat.min_eq_left h]

/-- A record is its slices. -/
theorem slice_append (h : List τ) {i j k : Nat} (hij : i ≤ j) (hjk : j ≤ k) :
    slice h i j ++ slice h j k = slice h i k := by
  refine List.ext_getElem? fun n => ?_
  have hLen := length_slice h i j
  by_cases hn : n < (slice h i j).length
  · rw [List.getElem?_append_left hn, getElem?_slice, getElem?_slice, if_pos (by omega),
      if_pos (by omega)]
  · rw [List.getElem?_append_right (by omega), getElem?_slice, getElem?_slice]
    by_cases hShort : h.length ≤ i + n
    · rw [List.getElem?_eq_none hShort, List.getElem?_eq_none (by omega)]
      simp
    · have hAt : j + (n - (slice h i j).length) = i + n := by omega
      rw [hAt]

theorem slice_self (h : List τ) : slice h 0 h.length = h := by
  rw [slice, List.take_length, List.drop_zero]

/-- What stands between two parts. -/
theorem slice_middle (a b c : List τ) {i j : Nat} (hi : i = a.length) (hj : j = i + b.length) :
    slice (a ++ b ++ c) i j = b := by
  subst hi hj
  rw [slice, ← List.length_append, List.take_left, List.drop_left]

theorem put_append (h bs cs : List τ) (i : Nat) :
    put h (bs ++ cs) i = put (put h bs i) cs (i + bs.length) := by
  induction bs generalizing h i with
  | nil => rfl
  | cons b bs ih =>
    have hAt : i + (b :: bs).length = i + 1 + bs.length := by
      rw [List.length_cons]
      omega
    rw [List.cons_append, put, put, ih, hAt]

theorem set_eq_put (h : List τ) (b : τ) (i : Nat) : h.set i b = put h [b] i := rfl

/-- A field and a token beside it may be put in either order. -/
theorem put_set_comm (h bs : List τ) (b : τ) {i n : Nat} (hn : n < i ∨ i + bs.length ≤ n) :
    put (h.set n b) bs i = (put h bs i).set n b := by
  refine List.ext_getElem? fun k => ?_
  rw [getElem?_put, List.getElem?_set, List.getElem?_set, getElem?_put, length_put,
    List.length_set]
  split_ifs <;> first | rfl | omega

/-! ## Parts at offsets -/

/-- A part of a record, at an offset. -/
def At (h : List τ) (i : Nat) (part : List τ) : Prop := slice h i (i + part.length) = part

namespace At

variable {h part : List τ} {i : Nat}

theorem middle (a b c : List τ) : At (a ++ b ++ c) a.length b := slice_middle a b c rfl rfl

theorem getElem? (hAt : At h i part) {k : Nat} (hk : k < part.length) : h[i + k]? = part[k]? := by
  have hSlice := congrArg (fun l => l[k]?) hAt
  rw [getElem?_slice, if_pos (by omega)] at hSlice
  exact hSlice

theorem intro (hPart : ∀ k < part.length, h[i + k]? = part[k]?) : At h i part := by
  refine List.ext_getElem? fun k => ?_
  rw [getElem?_slice]
  by_cases hk : k < part.length
  · rw [if_pos (by omega), hPart k hk]
  · rw [if_neg (by omega), List.getElem?_eq_none (by omega)]

theorem le_length (hAt : At h i part) (hPart : part ≠ []) : i + part.length ≤ h.length := by
  have hLen := congrArg List.length hAt
  have hPos := List.length_pos_iff.mpr hPart
  rw [length_slice] at hLen
  omega

theorem left {a b : List τ} (hAt : At h i (a ++ b)) : At h i a := by
  refine intro fun k hk => ?_
  rw [hAt.getElem? (by rw [List.length_append]; omega), List.getElem?_append_left hk]

theorem right {a b : List τ} (hAt : At h i (a ++ b)) : At h (i + a.length) b := by
  refine intro fun k hk => ?_
  have hBoth := hAt.getElem? (show a.length + k < (a ++ b).length by rw [List.length_append]; omega)
  rw [List.getElem?_append_right (by omega), Nat.add_sub_cancel_left] at hBoth
  rw [Nat.add_assoc]
  exact hBoth

/-- More behind changes nothing. -/
theorem append (hAt : At h i part) (more : List τ) : At (h ++ more) i part := by
  refine intro fun k hk => ?_
  have hEq := hAt.getElem? hk
  rw [List.getElem?_eq_getElem hk, List.getElem?_eq_some_iff] at hEq
  obtain ⟨hIn, hVal⟩ := hEq
  rw [List.getElem?_append_left hIn, List.getElem?_eq_getElem hIn, List.getElem?_eq_getElem hk, hVal]

/-- In a slice of the record the part is at what is left of its offset. -/
theorem of_slice {j : Nat} (hAt : At h (i + j) part) {n : Nat} (hFit : i + j + part.length ≤ n) :
    At (slice h i n) j part := by
  refine intro fun k hk => ?_
  rw [getElem?_slice, if_pos (by omega), ← Nat.add_assoc, hAt.getElem? hk]

/-- A field of a record that is fields one after the other. -/
theorem field {parts : List (List τ)} (hAt : At h i parts.flatten) (k n : Nat)
    (hPart : parts[k]? = some part) (hn : (parts.take k).flatten.length = n) :
    At h (i + n) part := by
  induction parts generalizing i k n with
  | nil => cases hPart
  | cons first parts ih =>
    rw [List.flatten_cons] at hAt
    cases k with
    | zero =>
      obtain rfl : first = part := Option.some.inj hPart
      obtain rfl : 0 = n := hn
      exact hAt.left
    | succ k =>
      rw [List.take_succ_cons, List.flatten_cons, List.length_append] at hn
      rw [← hn, ← Nat.add_assoc]
      exact ih hAt.right k _ hPart rfl

end At

/-- Downwards is the reverse upwards. -/
theorem putDown_eq_put (h bs : List τ) {i : Nat} (hi : bs.length ≤ i + 1) :
    putDown h bs i = put h bs.reverse (i + 1 - bs.length) := by
  induction bs generalizing h i with
  | nil => rfl
  | cons b bs ih =>
    rw [List.length_cons] at hi
    rw [putDown, List.reverse_cons, put_append, List.length_reverse, List.length_cons]
    cases bs with
    | nil => rfl
    | cons b' bs =>
      rw [List.length_cons] at hi ⊢
      have hAt : i - 1 + 1 - (bs.length + 1) = i + 1 - (bs.length + 1 + 1) := by omega
      have hLast : i + 1 - (bs.length + 1 + 1) + (bs.length + 1) = i := by omega
      rw [ih (h.set i b) (by rw [List.length_cons]; omega), List.length_cons, hAt, hLast,
        put_set_comm h _ b (by rw [List.length_reverse, List.length_cons]; omega)]
      rfl

/-! ## Numerals -/

/-- The ASCII digit. -/
def digitByte (d : Nat) : UInt8 := UInt8.ofNat (48 + d)

/-- A number's digits, least significant first, one for zero. -/
def digitsOf (base n : Nat) : List Nat := if n = 0 then [0] else Nat.digits base n

/-- A number as text. -/
def numeral (base n : Nat) : List UInt8 := ((digitsOf base n).map digitByte).reverse

/-- Digits accumulate, whatever else is there is skipped. -/
def ofNumeral (base : Nat) (bs : List UInt8) : Nat :=
  bs.foldl (fun v b => if 48 ≤ b.toNat ∧ b.toNat < 48 + base then v * base + (b.toNat - 48) else v) 0

section Numerals

variable {base n : Nat}

theorem toNat_digitByte {d : Nat} (h : d < 10) : (digitByte d).toNat = 48 + d := by
  rw [digitByte, UInt8.toNat_ofNat']
  omega

theorem digitsOf_lt (hBase : 1 < base) : ∀ d ∈ digitsOf base n, d < base := by
  intro d hd
  unfold digitsOf at hd
  split_ifs at hd
  · obtain rfl := List.mem_singleton.mp hd
    omega
  · exact Nat.digits_lt_base hBase hd

theorem ofDigits_digitsOf : Nat.ofDigits base (digitsOf base n) = n := by
  unfold digitsOf
  split_ifs with h
  · rw [h]
    rfl
  · exact Nat.ofDigits_digits base n

/-- The numeral of a number below a power of the base has no more digits than that. -/
theorem length_digitsOf_le {k : Nat} (hBase : 1 < base) (hk : 0 < k) :
    (digitsOf base n).length ≤ k ↔ n < base ^ k := by
  unfold digitsOf
  split_ifs with h
  · rw [h]
    exact ⟨fun _ => Nat.pow_pos (by omega), fun _ => hk⟩
  · exact Nat.digits_length_le_iff hBase n

theorem length_digitsOf_pos : 0 < (digitsOf base n).length := by
  unfold digitsOf
  split_ifs with h
  · exact Nat.one_pos
  · exact List.length_pos_of_ne_nil fun hNil => h (Nat.digits_eq_nil_iff_eq_zero.mp hNil)

theorem length_numeral (base n : Nat) : (numeral base n).length = (digitsOf base n).length := by
  rw [numeral, List.length_reverse, List.length_map]

theorem mem_numeral (hBase : 1 < base) (hTen : base ≤ 10) {b : UInt8} (h : b ∈ numeral base n) :
    48 ≤ b.toNat ∧ b.toNat < 48 + base := by
  obtain ⟨d, hd, rfl⟩ := List.mem_map.mp (List.mem_reverse.mp h)
  have hLt := digitsOf_lt hBase d hd
  rw [toNat_digitByte (by omega)]
  omega

/-- Digits read as the number they denote. -/
theorem ofNumeral_digits (hTen : base ≤ 10) (ds : List Nat) (h : ∀ d ∈ ds, d < base) :
    ofNumeral base (ds.map digitByte).reverse = Nat.ofDigits base ds := by
  induction ds with
  | nil => rfl
  | cons d ds ih =>
    have hd := h d List.mem_cons_self
    have hRest := ih fun d' hd' => h d' (List.mem_cons_of_mem _ hd')
    have hByte := @toNat_digitByte d (by omega)
    rw [ofNumeral] at hRest
    rw [List.map_cons, List.reverse_cons, ofNumeral, List.foldl_append, hRest, List.foldl_cons,
      List.foldl_nil, hByte, if_pos (by omega), Nat.ofDigits_cons, Nat.add_sub_cancel_left,
      Nat.mul_comm, Nat.add_comm]

theorem ofNumeral_numeral (hBase : 1 < base) (hTen : base ≤ 10) :
    ofNumeral base (numeral base n) = n := by
  rw [numeral, ofNumeral_digits hTen _ (digitsOf_lt hBase), ofDigits_digitsOf]

/-- Zeros before a numeral do not count. -/
theorem ofNumeral_zeros (k : Nat) (bs : List UInt8) :
    ofNumeral base (List.replicate k 48 ++ bs) = ofNumeral base bs := by
  induction k with
  | zero => rfl
  | succ k ih =>
    have hStep : (if 48 ≤ (48 : UInt8).toNat ∧ (48 : UInt8).toNat < 48 + base then
        0 * base + ((48 : UInt8).toNat - 48) else 0) = 0 := by
      rw [Nat.zero_mul]
      split_ifs <;> rfl
    rw [List.replicate_succ, List.cons_append, ofNumeral, List.foldl_cons, hStep]
    exact ih

/-- What is no digit does not count. -/
theorem ofNumeral_append_of_not {tail : List UInt8} (bs : List UInt8)
    (h : ∀ b ∈ tail, ¬ (48 ≤ b.toNat ∧ b.toNat < 48 + base)) :
    ofNumeral base (bs ++ tail) = ofNumeral base bs := by
  induction tail using List.reverseRecOn with
  | nil => rw [List.append_nil]
  | append_singleton tail b ih =>
    have hTail := ih fun b' hb' => h b' (List.mem_append_left _ hb')
    have hb := h b (List.mem_append_right _ (List.mem_singleton_self b))
    rw [ofNumeral] at hTail ⊢
    rw [← List.append_assoc, List.foldl_append, hTail, List.foldl_cons, List.foldl_nil, if_neg hb]

end Numerals

end Wire
