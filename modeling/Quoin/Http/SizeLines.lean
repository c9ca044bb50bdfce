import Mathlib
import Quoin.Http.Bodies

/-!
# Quoin — chunk-size lines

What `sizeLine` makes of a line that begins with hexadecimal digits: the number
that they give, if what follows is UTF-8 and the number an `i64`
(`Shaped.sizeLine_cases`). The same holds of a line that the end of the stream cuts off
after some of its digits (`SizeLine.cut`): then fewer digits are read.
-/

namespace Quoin.Http.Bodies

open Trans Streams

/-! ## Lines -/

section Lines

variable {line a b before more : Bytes}

theorem OneLine.within (h : OneLine b) (hInfix : a <:+: b) : OneLine a :=
  fun hCrlf => h (hCrlf.trans hInfix)

/-- No line ends in what holds no carriage return. -/
theorem oneLine_append (hCr : 0x0D ∉ a) (h : OneLine b) : OneLine (a ++ b) := by
  induction a with
  | nil => exact h
  | cons c a ih =>
    intro hInfix
    rcases List.infix_cons_iff.mp hInfix with hHere | hLater
    · exact hCr ((List.cons_prefix_cons.mp hHere).1 ▸ List.mem_cons_self)
    · exact ih (fun hMem => hCr (List.mem_cons_of_mem _ hMem)) hLater

theorem oneLine_concat_cr (h : OneLine line) : OneLine (line ++ [0x0D]) := by
  intro hInfix
  rcases List.infix_concat_iff.mp hInfix with hSuffix | hEarlier
  · obtain ⟨before, hEq⟩ := hSuffix
    have hLast := congrArg List.getLast? hEq
    simp [CRLF] at hLast
  · exact h hEarlier

/-- The end of a line comes first where the line is over. -/
theorem crlf_first (h : OneLine line) (hPrefix : before ++ CRLF <+: line ++ (CRLF ++ more)) :
    line.length ≤ before.length := by
  by_contra hShort
  have hCr : line ++ [0x0D] <+: line ++ (CRLF ++ more) := by
    simp [CRLF]
  have hWithin : before ++ CRLF <+: line ++ [0x0D] := by
    refine List.prefix_of_prefix_length_le hPrefix hCr ?_
    simp only [List.length_append, CRLF, List.length_cons, List.length_nil]
    omega
  exact oneLine_concat_cr h ((List.suffix_append before CRLF).isInfix.trans hWithin.isInfix)

theorem findSubsequence_line (h : OneLine line) (more : Bytes) :
    findSubsequence CRLF (line ++ (CRLF ++ more)) = some (line.length + 2) := by
  refine findSubsequence_eq_some.mpr ⟨⟨line, ?_, rfl⟩, ?_⟩
  · rw [← List.append_assoc]
    exact List.prefix_append _ _
  · rintro stop hLt ⟨before, hBefore, rfl⟩
    have hLength := crlf_first h hBefore
    simp only [CRLF, List.length_cons, List.length_nil] at hLt
    omega

theorem findSubsequence_oneLine (h : OneLine line) : findSubsequence CRLF line = none := by
  refine findSubsequence_eq_none.mpr fun stop => ?_
  rintro ⟨before, hBefore, -⟩
  exact h ((List.suffix_append before CRLF).isInfix.trans hBefore.isInfix)

theorem split_line (h : OneLine line) : (split CRLF (line ++ CRLF)).headD [] = line := by
  have hSplit : split CRLF (line ++ CRLF) = (split CRLF CRLF).modifyHead (line ++ ·) := by
    refine split_append line CRLF fun u v hEq hNe hOccurs => ?_
    have hFirst := @crlf_first line u [] h (by
      rw [hEq, List.append_nil, List.append_assoc]
      exact (List.prefix_append_right_inj u).mpr hOccurs)
    rw [hEq, List.length_append] at hFirst
    exact hNe (List.length_eq_zero_iff.mp (by omega))
  rw [hSplit, show split CRLF CRLF = [[], []] by decide]
  exact List.append_nil line

theorem split_oneLine (h : OneLine line) : (split CRLF line).headD [] = line := by
  have hNe : CRLF ≠ [] := List.cons_ne_nil _ _
  obtain ⟨r, ps, hSplit, hWhole | ⟨t, hEq⟩⟩ := split_first hNe line
  · rw [hSplit]
    exact hWhole.1
  · exact absurd ⟨r, t, hEq.symm⟩ h

end Lines

/-! ## UTF-8 -/

section Utf8

variable {as bs : Bytes}

theorem fromUtf8_ascii (h : ∀ b ∈ as, b < 0x80) : fromUtf8 as = .ok () := by
  have hScan : ∀ (as : Bytes) (done : Nat), (∀ b ∈ as, b < 0x80) → scan none done as = .ok () := by
    intro as
    induction as with
    | nil => exact fun _ _ => rfl
    | cons a as ih =>
      intro done h
      rw [scan, if_pos (h a List.mem_cons_self)]
      exact ih _ fun b hMem => h b (List.mem_cons_of_mem _ hMem)
  exact hScan as 0 h

theorem lead_low {b : UInt8} {p : Partial} (h : lead b = some p) : 0x80 ≤ p.low := by
  unfold lead at h
  split_ifs at h <;> (obtain rfl := Option.some.inj h; decide)

theorem next_low {p q : Partial} (h : p.next = some q) : 0x80 ≤ q.low := by
  unfold Partial.next at h
  split_ifs at h
  obtain rfl := Option.some.inj h
  exact UInt8.le_refl _

/-- No character goes on with an ASCII byte, so what comes before one is whole. -/
theorem scan_before_ascii {b : UInt8} (hAscii : b < 0x80) : ∀ {p : Option Partial} {done : Nat},
    (∀ q ∈ p, 0x80 ≤ q.low) → scan p done (as ++ b :: bs) = .ok () → scan p done as = .ok () := by
  induction as with
  | nil =>
    intro p done hLow h
    cases p with
    | none => rfl
    | some q =>
      rw [List.nil_append, scan, if_neg] at h
      · cases h
      · rintro ⟨hRange, -⟩
        have hHigh := UInt8.le_trans (hLow q rfl) hRange
        exact absurd (UInt8.lt_of_lt_of_le hAscii hHigh) (UInt8.lt_irrefl b)
  | cons a as ih =>
    intro p done hLow h
    rw [List.cons_append] at h
    cases p with
    | none =>
      rw [scan] at h ⊢
      split_ifs at h ⊢
      · exact ih (fun q hq => by cases hq) h
      · cases hLead : lead a with
        | none =>
          rw [hLead] at h
          cases h
        | some q =>
          rw [hLead] at h
          exact ih (fun q' hq' => Option.some.inj hq' ▸ lead_low hLead) h
    | some q =>
      rw [scan] at h ⊢
      split_ifs at h ⊢
      cases hNext : q.next with
      | none =>
        rw [hNext] at h
        exact ih (fun q hq => by cases hq) h
      | some q' =>
        rw [hNext] at h
        exact ih (fun r hr => Option.some.inj hr ▸ next_low hNext) h

/-- ASCII on both sides does not matter to whether bytes are UTF-8. -/
theorem fromUtf8_between {before after : Bytes} (hBefore : ∀ b ∈ before, b < 0x80)
    (hAfter : ∀ b ∈ after, b < 0x80) :
    fromUtf8 (before ++ as ++ after) = .ok () ↔ fromUtf8 as = .ok () := by
  rw [List.append_assoc, fromUtf8_append _ (fromUtf8_ascii hBefore)]
  constructor
  · intro h
    cases after with
    | nil => rwa [List.append_nil] at h
    | cons b after =>
      exact scan_before_ascii (hAfter b List.mem_cons_self) (fun q hq => by cases hq) h
  · intro h
    rw [fromUtf8_append _ h]
    exact fromUtf8_ascii hAfter

end Utf8

/-! ## Digits -/

section Digits

variable {digits blanks : Bytes} {b : UInt8}

theorem hexDigit_range (h : (hexDigit b).isSome) : 0x30 ≤ b ∧ b ≤ 0x66 ∧ b ≠ SEMICOLON := by
  unfold hexDigit at h
  unfold SEMICOLON
  split_ifs at h with hDigit hLower hUpper
  case neg => cases h
  all_goals
    simp only [UInt8.le_iff_toNat_le, ne_eq, ← UInt8.toNat_inj, UInt8.reduceToNat] at *
    omega

theorem hexDigit_ascii (h : (hexDigit b).isSome) : 0x20 < b ∧ b < 0x80 := by
  obtain ⟨hLow, hHigh, -⟩ := hexDigit_range h
  exact ⟨UInt8.lt_of_lt_of_le (by decide) hLow, UInt8.lt_of_le_of_lt hHigh (by decide)⟩

/-- The characters are single bytes of white space, or begin with a byte that is no ASCII. -/
def Spaces (chars : List Bytes) : Prop :=
  ∀ c ∈ chars, c ≠ [] ∧ (c.headD 0 ≤ 0x20 ∧ c.length = 1 ∨ 0x80 ≤ c.headD 0)

theorem spaces_start : Spaces WHITE_SPACE := by
  unfold Spaces WHITE_SPACE
  decide

theorem spaces_end : Spaces (WHITE_SPACE.map List.reverse) := by
  unfold Spaces WHITE_SPACE
  decide

section Strip

variable {chars : List Bytes} {s : Bytes}

/-- A character that the text begins with. -/
theorem find_cases {c : Bytes} (hSpaces : Spaces chars)
    (h : (chars.find? fun c => c.isPrefixOf (b :: s)) = some c) :
    b ≤ 0x20 ∧ c.length = 1 ∨ 0x80 ≤ b := by
  have hPrefix := List.find?_some h
  obtain ⟨hNe, hHead⟩ := hSpaces c (List.mem_of_find?_eq_some h)
  cases c with
  | nil => exact absurd rfl hNe
  | cons d c =>
    rw [List.isPrefixOf_iff_prefix, List.cons_prefix_cons] at hPrefix
    rwa [List.headD_cons, hPrefix.1] at hHead

/-- Another byte of ASCII stays. -/
theorem strip_stop (hSpaces : Spaces chars) (hLow : 0x20 < b) (hHigh : b < 0x80) (n : Nat) :
    strip chars n (b :: s) = b :: s := by
  cases n with
  | zero => rfl
  | succ n =>
    cases hFind : chars.find? fun c => c.isPrefixOf (b :: s) with
    | none => rw [strip, hFind]
    | some c =>
      rcases find_cases hSpaces hFind with ⟨hSpace, -⟩ | hNoAscii
      · exact absurd (UInt8.lt_of_lt_of_le hLow hSpace) (UInt8.lt_irrefl _)
      · exact absurd (UInt8.lt_of_lt_of_le hHigh hNoAscii) (UInt8.lt_irrefl _)

/-- White space of one byte is stripped. -/
theorem strip_blank (hSpaces : Spaces chars) (hChar : [b] ∈ chars) (hSpace : b ≤ 0x20) (n : Nat) :
    strip chars (n + 1) (b :: s) = strip chars n s := by
  cases hFind : chars.find? fun c => c.isPrefixOf (b :: s) with
  | none =>
    have hNone := List.find?_eq_none.mp hFind [b] hChar
    simp at hNone
  | some c =>
    rcases find_cases hSpaces hFind with ⟨-, hLength⟩ | hNoAscii
    · rw [strip, hFind]
      simp only [hLength, List.drop_one, List.tail_cons]
    · have hRange := UInt8.le_trans hNoAscii hSpace
      exact absurd hRange (by decide)

theorem strip_blanks (hSpaces : Spaces chars) {bs : Bytes}
    (hBlanks : ∀ b ∈ bs, [b] ∈ chars ∧ b ≤ 0x20) (hLow : 0x20 < b) (hHigh : b < 0x80) {n : Nat}
    (hFuel : bs.length ≤ n) : strip chars n (bs ++ b :: s) = b :: s := by
  induction bs generalizing n with
  | nil => exact strip_stop hSpaces hLow hHigh n
  | cons c bs ih =>
    obtain ⟨n, rfl⟩ : ∃ m, n = m + 1 := ⟨n - 1, by rw [List.length_cons] at hFuel; omega⟩
    obtain ⟨hChar, hSpace⟩ := hBlanks c List.mem_cons_self
    rw [List.cons_append, strip_blank hSpaces hChar hSpace]
    exact ih (fun d hMem => hBlanks d (List.mem_cons_of_mem _ hMem))
      (by rw [List.length_cons] at hFuel; omega)

end Strip

/-- What may follow the digits of a size: blanks, and the carriage return of a line cut off. -/
def Blank (b : UInt8) : Prop := b = 0x20 ∨ b = 0x09 ∨ b = 0x0D

theorem blank_space (h : Blank b) : [b] ∈ WHITE_SPACE.map List.reverse ∧ b ≤ 0x20 := by
  rcases h with rfl | rfl | rfl <;> decide

theorem trim_digits (hNe : digits ≠ []) (hHex : ∀ b ∈ digits, (hexDigit b).isSome)
    (hBlanks : ∀ b ∈ blanks, Blank b) : trim (digits ++ blanks) = digits := by
  have hStart : trimStart (digits ++ blanks) = digits ++ blanks := by
    cases digits with
    | nil => exact absurd rfl hNe
    | cons d digits =>
      obtain ⟨hLow, hHigh⟩ := hexDigit_ascii (hHex d List.mem_cons_self)
      exact strip_stop spaces_start hLow hHigh _
  rw [trim, hStart, trimEnd, List.reverse_append]
  cases hLast : digits.reverse with
  | nil => exact absurd (List.reverse_eq_nil_iff.mp hLast) hNe
  | cons d front =>
    have hMem : d ∈ digits := List.mem_reverse.mp (hLast ▸ List.mem_cons_self)
    obtain ⟨hLow, hHigh⟩ := hexDigit_ascii (hHex d hMem)
    rw [strip_blanks spaces_end (fun b hMem => blank_space (hBlanks b (List.mem_reverse.mp hMem)))
      hLow hHigh (by simp), ← hLast, List.reverse_reverse]

theorem stripHex_digits (hHex : ∀ b ∈ digits, (hexDigit b).isSome) : stripHex digits = digits := by
  cases digits with
  | nil => rfl
  | cons b digits =>
    cases digits with
    | nil => rfl
    | cons c digits =>
      rw [stripHex, if_neg]
      rintro ⟨-, rfl | rfl⟩
      · exact absurd (hHex 0x78 (by simp)) (by decide)
      · exact absurd (hHex 0x58 (by simp)) (by decide)

theorem fromStrRadix16_digits (hNe : digits ≠ []) (hHex : ∀ b ∈ digits, (hexDigit b).isSome) :
    fromStrRadix16 digits = inI64 (hexValue digits) := by
  have hSigned : signed 1 digits = inI64 (hexValue digits) := by
    rw [signed, if_pos ⟨hNe, List.all_eq_true.mpr hHex⟩, one_mul]
  cases digits with
  | nil => exact absurd rfl hNe
  | cons b digits =>
    have hDigit := hHex b List.mem_cons_self
    have hPlus : b ≠ 0x2B := by
      rintro rfl
      exact absurd hDigit (by decide)
    have hMinus : b ≠ 0x2D := by
      rintro rfl
      exact absurd hDigit (by decide)
    rw [fromStrRadix16, if_neg hPlus, if_neg hMinus]
    exact hSigned

theorem fromHex_digits (hNe : digits ≠ []) (hHex : ∀ b ∈ digits, (hexDigit b).isSome)
    (hBlanks : ∀ b ∈ blanks, Blank b) (hSize : hexValue digits < 2 ^ 63) :
    fromHex (digits ++ blanks) = .ok (hexValue digits) := by
  have hRange : inI64 (hexValue digits) = some (hexValue digits : Int) :=
    if_pos ⟨by omega, by exact_mod_cast hSize⟩
  rw [fromHex, trim_digits hNe hHex hBlanks, stripHex_digits hHex, fromStrRadix16_digits hNe hHex,
    hRange]

theorem fromHex_digits_large (hNe : digits ≠ []) (hHex : ∀ b ∈ digits, (hexDigit b).isSome)
    (hBlanks : ∀ b ∈ blanks, Blank b) (hSize : ¬ hexValue digits < 2 ^ 63) :
    fromHex (digits ++ blanks) = .error (.notHex (digits ++ blanks)) := by
  have hRange : inI64 (hexValue digits) = none :=
    if_neg fun hIn => hSize (by exact_mod_cast hIn.2)
  rw [fromHex, trim_digits hNe hHex hBlanks, stripHex_digits hHex, fromStrRadix16_digits hNe hHex,
    hRange]

theorem le_foldl_hex (n : Nat) (digits : Bytes) :
    n ≤ digits.foldl (fun n b => 16 * n + (hexDigit b).getD 0) n := by
  induction digits generalizing n with
  | nil => exact le_rfl
  | cons b digits ih =>
    have hNext := ih (16 * n + (hexDigit b).getD 0)
    rw [List.foldl_cons]
    omega

/-- The digits that come first give no more than all. -/
theorem hexValue_front_le {front : Bytes} (h : front <+: digits) :
    hexValue front ≤ hexValue digits := by
  obtain ⟨back, rfl⟩ := h
  rw [hexValue, hexValue, List.foldl_append]
  exact le_foldl_hex _ back

end Digits

/-! ## Size lines, whole and cut off -/

/-- The parts of a line that begins with the digits of a size. -/
structure Shaped (digits blanks exts : Bytes) : Prop where
  digits_ne : digits ≠ []
  digits_hex : ∀ b ∈ digits, (hexDigit b).isSome
  blanks_blank : ∀ b ∈ blanks, Blank b
  exts_head : ∀ b ∈ exts.head?, b = SEMICOLON
  line : OneLine (digits ++ blanks ++ exts)

section Shaped

variable {digits blanks exts rawLine : Bytes}

/-- What is before the extensions is ASCII, and holds no semicolon. -/
theorem Shaped.front (h : Shaped digits blanks exts) :
    ∀ b ∈ digits ++ blanks, b < 0x80 ∧ b ≠ SEMICOLON := by
  intro b hMem
  rcases List.mem_append.mp hMem with hDigit | hBlank
  · exact ⟨(hexDigit_ascii (h.digits_hex b hDigit)).2, (hexDigit_range (h.digits_hex b hDigit)).2.2⟩
  · rcases h.blanks_blank b hBlank with rfl | rfl | rfl <;> decide

/-- The first part of the line is the size. -/
theorem Shaped.split_head (h : Shaped digits blanks exts) :
    (split [SEMICOLON] (digits ++ blanks ++ exts)).headD [] = digits ++ blanks := by
  have hFree : SEMICOLON ∉ digits ++ blanks := fun hMem => (h.front _ hMem).2 rfl
  cases exts with
  | nil =>
    rw [List.append_nil, split_of_not_mem hFree]
    rfl
  | cons b exts =>
    rw [h.exts_head b rfl, split_at_one hFree]
    rfl

theorem sizeLine_invalid (hNe : rawLine ≠ []) {e : Utf8Error} (h : fromUtf8 rawLine = .error e) :
    sizeLine rawLine = .error (.raised (.parseError
      s!"Bytes.asString: invalid UTF-8 (valid up to byte {e.validUpTo})")) := by
  rw [sizeLine, if_neg hNe]
  simp only [asString, h]
  rfl

theorem sizeLine_valid (hNe : rawLine ≠ []) (h : fromUtf8 rawLine = .ok ()) :
    sizeLine rawLine =
      (fromHex ((split [SEMICOLON] ((split CRLF rawLine).headD [])).headD [])).map fun size =>
        (size, ((split [SEMICOLON] ((split CRLF rawLine).headD [])).drop 1).map extension) := by
  rw [sizeLine, if_neg hNe]
  simp only [asString, h]
  rfl

/-- What a line says that is shaped so, with its end or without. -/
theorem Shaped.sizeLine_cases (h : Shaped digits blanks exts)
    (hRaw : rawLine = digits ++ blanks ++ exts ∨ rawLine = digits ++ blanks ++ exts ++ CRLF) :
    (fromUtf8 rawLine = .ok () ∧ hexValue digits < 2 ^ 63 →
        ∃ es, sizeLine rawLine = .ok (hexValue digits, es)) ∧
      (¬ (fromUtf8 rawLine = .ok () ∧ hexValue digits < 2 ^ 63) →
        ∃ e, sizeLine rawLine = .error e) := by
  have hNe : rawLine ≠ [] := by
    rcases hRaw with rfl | rfl <;> simp [h.digits_ne]
  have hLine : (split CRLF rawLine).headD [] = digits ++ blanks ++ exts := by
    rcases hRaw with rfl | rfl
    · exact split_oneLine h.line
    · exact split_line h.line
  cases hUtf8 : fromUtf8 rawLine with
  | error e =>
    refine ⟨fun hAll => ?_, fun _ => ⟨_, sizeLine_invalid hNe hUtf8⟩⟩
    cases hAll.1
  | ok u =>
    have hEq := sizeLine_valid hNe hUtf8
    rw [hLine, h.split_head] at hEq
    refine ⟨fun hAll => ?_, fun hNot => ?_⟩
    · rw [fromHex_digits h.digits_ne h.digits_hex h.blanks_blank hAll.2] at hEq
      exact ⟨_, hEq⟩
    · have hLarge : ¬ hexValue digits < 2 ^ 63 := fun hSize => hNot ⟨rfl, hSize⟩
      rw [fromHex_digits_large h.digits_ne h.digits_hex h.blanks_blank hLarge] at hEq
      exact ⟨_, hEq⟩

end Shaped

section Part

variable {l : SizeLine} {p digits blanks exts : Bytes}

theorem prefix_append_cases {a b : Bytes} (h : p <+: a ++ b) :
    p <+: a ∨ ∃ q, p = a ++ q ∧ q <+: b := by
  rcases List.prefix_or_prefix_of_prefix h (List.prefix_append a b) with hShort | ⟨q, rfl⟩
  · exact .inl hShort
  · exact .inr ⟨q, rfl, (List.prefix_append_right_inj a).mp h⟩

theorem oneLine_nil : OneLine [] := fun h => absurd (List.infix_nil.mp h) (List.cons_ne_nil _ _)

theorem shaped_of_no_cr (hNe : digits ≠ []) (hHex : ∀ b ∈ digits, (hexDigit b).isSome)
    (hBlanks : ∀ b ∈ blanks, b = 0x20 ∨ b = 0x09) (hHead : ∀ b ∈ exts.head?, b = SEMICOLON)
    (hExts : OneLine exts) : Shaped digits blanks exts := by
  refine ⟨hNe, hHex, fun b hMem => ?_, hHead, oneLine_append (fun hMem => ?_) hExts⟩
  · rcases hBlanks b hMem with hSpace | hTab
    · exact .inl hSpace
    · exact .inr (.inl hTab)
  · rcases List.mem_append.mp hMem with hDigit | hBlank
    · exact absurd (hHex _ hDigit) (by decide)
    · rcases hBlanks _ hBlank with hEq | hEq <;> exact absurd hEq (by decide)

theorem SizeLine.shaped (l : SizeLine) : Shaped l.digits l.blanks l.exts :=
  shaped_of_no_cr l.digits_ne l.digits_hex l.blanks_blank l.exts_head l.exts_line

theorem SizeLine.oneLine (l : SizeLine) : OneLine l.text := l.shaped.line

/-- A line of which the line feed has not come. -/
theorem SizeLine.shaped_cr (l : SizeLine) : ∃ blanks exts, Shaped l.digits blanks exts ∧
    l.text ++ [0x0D] = l.digits ++ blanks ++ exts := by
  have hLine : OneLine (l.text ++ [0x0D]) := oneLine_concat_cr l.oneLine
  cases hExts : l.exts with
  | nil =>
    have hText : l.text ++ [0x0D] = l.digits ++ (l.blanks ++ [0x0D]) ++ [] := by
      rw [text, hExts]
      simp
    refine ⟨l.blanks ++ [0x0D], [], ⟨l.digits_ne, l.digits_hex, ?_, ?_, hText ▸ hLine⟩, hText⟩
    · intro b hMem
      rcases List.mem_append.mp hMem with hBlank | hCr
      · exact l.shaped.blanks_blank b hBlank
      · exact .inr (.inr (List.mem_singleton.mp hCr))
    · exact fun b hMem => by cases hMem
  | cons b exts =>
    have hText : l.text ++ [0x0D] = l.digits ++ l.blanks ++ (l.exts ++ [0x0D]) := by
      rw [text, List.append_assoc _ l.exts]
    refine ⟨l.blanks, l.exts ++ [0x0D],
      ⟨l.digits_ne, l.digits_hex, l.shaped.blanks_blank, ?_, hText ▸ hLine⟩, hText⟩
    intro b' hMem
    rw [hExts] at hMem
    exact l.exts_head b' (hExts ▸ hMem)

/-- What has come of a line is shaped as the line is. -/
theorem shaped_part (hNe : p ≠ []) (hPart : p <+: l.text ++ CRLF) :
    ∃ digits blanks exts, Shaped digits blanks exts ∧
      (p = digits ++ blanks ++ exts ∨ p = digits ++ blanks ++ exts ++ CRLF) ∧
      digits <+: l.digits ∧ (digits = l.digits ∨ digits = p) := by
  have hPart' : p <+: l.digits ++ (l.blanks ++ (l.exts ++ CRLF)) := by
    simpa only [SizeLine.text, List.append_assoc] using hPart
  -- the part ends in the digits, the blanks, the extensions or the line end, from case to case
  rcases prefix_append_cases hPart' with hDigits | ⟨q, rfl, hq⟩
  · refine ⟨p, [], [], shaped_of_no_cr hNe ?_ ?_ ?_ oneLine_nil, .inl (by simp), hDigits, .inr rfl⟩
    · exact fun b hMem => l.digits_hex b (hDigits.subset hMem)
    · exact fun b hMem => by cases hMem
    · exact fun b hMem => by cases hMem
  rcases prefix_append_cases hq with hBlanks | ⟨r, rfl, hr⟩
  · refine ⟨l.digits, q, [], shaped_of_no_cr l.digits_ne l.digits_hex ?_ ?_ oneLine_nil,
      .inl (by simp), List.prefix_rfl, .inl rfl⟩
    · exact fun b hMem => l.blanks_blank b (hBlanks.subset hMem)
    · exact fun b hMem => by cases hMem
  rcases prefix_append_cases hr with hExts | ⟨t, rfl, ht⟩
  · refine ⟨l.digits, l.blanks, r, shaped_of_no_cr l.digits_ne l.digits_hex l.blanks_blank ?_ ?_,
      .inl (by simp), List.prefix_rfl, .inl rfl⟩
    · intro b hMem
      cases r with
      | nil => cases hMem
      | cons c r =>
        obtain ⟨after, hAfter⟩ := hExts
        exact l.exts_head b (by rw [← hAfter]; exact hMem)
    · exact l.exts_line.within hExts.isInfix
  -- of the line end there is nothing, a lone CR, or all of it
  obtain rfl | rfl | rfl : t = [] ∨ t = [0x0D] ∨ t = CRLF := by
    obtain ⟨after, hAfter⟩ := ht
    cases t with
    | nil => exact .inl rfl
    | cons c t =>
      cases t with
      | nil =>
        rw [CRLF, List.cons_append, List.cons.injEq] at hAfter
        exact .inr (.inl (by rw [hAfter.1]))
      | cons d t =>
        have hLength := congrArg List.length hAfter
        simp only [CRLF, List.length_append, List.length_cons, List.length_nil] at hLength
        obtain rfl : after = [] := List.length_eq_zero_iff.mp (by omega)
        exact .inr (.inr (by rwa [List.append_nil] at hAfter))
  · exact ⟨l.digits, l.blanks, l.exts, l.shaped, .inl (by simp), List.prefix_rfl, .inl rfl⟩
  · -- a lone CR counts as a blank where there are no extensions, else as the end of them
    obtain ⟨blanks, exts, hShaped, hText⟩ := l.shaped_cr
    refine ⟨l.digits, blanks, exts, hShaped, .inl ?_, List.prefix_rfl, .inl rfl⟩
    rw [← hText, SizeLine.text]
    simp
  · exact ⟨l.digits, l.blanks, l.exts, l.shaped, .inr (by simp), List.prefix_rfl, .inl rfl⟩

/-- What has come of a size line, some of it or all: some of the digits are read or all. -/
theorem sizeLine_part (hNe : p ≠ []) (hPart : p <+: l.text ++ CRLF) :
    ∃ digits, digits <+: l.digits ∧ digits <+: p ∧ (digits = l.digits ∨ digits = p) ∧
      (fromUtf8 p = .ok () ∧ hexValue digits < 2 ^ 63 →
        ∃ es, sizeLine p = .ok (hexValue digits, es)) ∧
      (¬ (fromUtf8 p = .ok () ∧ hexValue digits < 2 ^ 63) → ∃ e, sizeLine p = .error e) := by
  obtain ⟨digits, blanks, exts, hShaped, hRaw, hDigits, hAll⟩ := shaped_part hNe hPart
  refine ⟨digits, hDigits, ?_, hAll, hShaped.sizeLine_cases hRaw⟩
  rcases hRaw with rfl | rfl
  · rw [List.append_assoc]
    exact List.prefix_append _ _
  · rw [List.append_assoc, List.append_assoc]
    exact List.prefix_append _ _

/-- A whole line is UTF-8 as its extensions are. -/
theorem utf8_line (l : SizeLine) : fromUtf8 (l.text ++ CRLF) = .ok () ↔ fromUtf8 l.exts = .ok () :=
  fromUtf8_between (fun b hMem => (l.shaped.front b hMem).1) (by simp [CRLF])

theorem utf8_digits (h : ∀ b ∈ digits, (hexDigit b).isSome) : fromUtf8 digits = .ok () :=
  fromUtf8_ascii fun b hMem => (hexDigit_ascii (h b hMem)).2

end Part

end Quoin.Http.Bodies
