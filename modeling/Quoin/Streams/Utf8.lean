import Mathlib

/-!
# Quoin — the UTF-8 check of the text streams

`fromUtf8` checks a buffer as the library's `from_utf8` does: character by
character, telling where the first character begins that is not there
(`validUpTo`) and whether a byte rules it out (`errorLen`) or the buffer only
ends within it. What comes before that place is UTF-8
(`fromUtf8_take_validUpTo`), so a text stream may hand it out and keep the rest.
Texts may be joined, and a text taken off the front leaves one
(`fromUtf8_append`).
-/

namespace Quoin.Streams

abbrev Bytes := List UInt8

/-- `Utf8Error`. -/
structure Utf8Error where
  validUpTo : Nat
  errorLen : Option Nat
  deriving DecidableEq

/-- A character of which some bytes are there: how many, how many are to come, and the range of the
next. -/
structure Partial where
  seen : Nat
  owed : Nat
  low : UInt8
  high : UInt8
  deriving DecidableEq

/-- What a first byte that is not ASCII begins. -/
def lead (b : UInt8) : Option Partial :=
  if 0xC2 ≤ b ∧ b ≤ 0xDF then some ⟨1, 1, 0x80, 0xBF⟩ else
  if b = 0xE0 then some ⟨1, 2, 0xA0, 0xBF⟩ else
  if 0xE1 ≤ b ∧ b ≤ 0xEC then some ⟨1, 2, 0x80, 0xBF⟩ else
  if b = 0xED then some ⟨1, 2, 0x80, 0x9F⟩ else
  if 0xEE ≤ b ∧ b ≤ 0xEF then some ⟨1, 2, 0x80, 0xBF⟩ else
  if b = 0xF0 then some ⟨1, 3, 0x90, 0xBF⟩ else
  if 0xF1 ≤ b ∧ b ≤ 0xF3 then some ⟨1, 3, 0x80, 0xBF⟩ else
  if b = 0xF4 then some ⟨1, 3, 0x80, 0x8F⟩ else none

/-- The character with a byte more, `none` if that completes it. -/
def Partial.next (p : Partial) : Option Partial :=
  if p.owed ≤ 1 then none else some ⟨p.seen + 1, p.owed - 1, 0x80, 0xBF⟩

/-- The check, `done` bytes of whole characters on. -/
def scan : Option Partial → Nat → Bytes → Except Utf8Error Unit
  | none, _, [] => .ok ()
  | some _, done, [] => .error ⟨done, none⟩
  | none, done, b :: bs =>
    if b < 0x80 then scan none (done + 1) bs else
    match lead b with
    | none => .error ⟨done, some 1⟩
    | some p => scan (some p) done bs
  | some p, done, b :: bs =>
    if p.low ≤ b ∧ b ≤ p.high then
      match p.next with
      | none => scan none (done + p.seen + 1) bs
      | some p' => scan (some p') done bs
    else .error ⟨done, some p.seen⟩

/-- `std::str::from_utf8`. -/
def fromUtf8 (bs : Bytes) : Except Utf8Error Unit := scan none 0 bs

/-- A `String`: bytes that are UTF-8. -/
structure Text where
  bytes : Bytes
  valid : fromUtf8 bytes = .ok ()
  deriving DecidableEq

/-- Where the check stops: within the character that is begun, or after whole characters more, and
up to there it would have passed. -/
theorem scan_error {bs : Bytes} {e : Utf8Error} : ∀ {p : Option Partial} {done : Nat},
    scan p done bs = .error e →
      e.validUpTo = done ∨
        ∃ n ≤ bs.length, e.validUpTo = done + (p.map Partial.seen).getD 0 + n ∧
          scan p done (bs.take n) = .ok () := by
  -- on the bytes, for any state: between characters, or within one (`p`)
  induction bs with
  | nil =>
    intro p done h
    cases p with
    | none => cases h
    | some p =>
      cases h
      exact .inl rfl
  | cons b bs ih =>
    intro p done h
    cases p with
    | none =>
      rw [scan] at h
      split_ifs at h with hAscii
      · -- a whole character, and on
        refine .inr ?_
        rcases ih h with hHere | ⟨n, hn, hUpTo, hOk⟩
        · refine ⟨1, by simp, by simpa using hHere, ?_⟩
          rw [List.take_succ_cons, List.take_zero, scan, if_pos hAscii, scan]
        · refine ⟨n + 1, by simpa using hn, ?_, ?_⟩
          · simp only [Option.map_none, Option.getD_none] at hUpTo ⊢
            omega
          · rw [List.take_succ_cons, scan, if_pos hAscii]
            exact hOk
      · -- the first byte of a longer character, or of none
        cases hLead : lead b with
        | none =>
          rw [hLead] at h
          cases h
          exact .inl rfl
        | some p =>
          rw [hLead] at h
          have hSeen : p.seen = 1 := by
            unfold lead at hLead
            split_ifs at hLead <;> cases hLead <;> rfl
          rcases ih h with hHere | ⟨n, hn, hUpTo, hOk⟩
          · exact .inl hHere
          · refine .inr ⟨n + 1, by simpa using hn, ?_, ?_⟩
            · simp only [Option.map_some, Option.map_none, Option.getD_some, Option.getD_none]
                at hUpTo ⊢
              omega
            · rw [List.take_succ_cons, scan, if_neg hAscii, hLead]
              exact hOk
    | some p =>
      rw [scan] at h
      split_ifs at h with hIn
      · cases hNext : p.next with
        -- the last byte of the character
        | none =>
          rw [hNext] at h
          refine .inr ?_
          rcases ih h with hHere | ⟨n, hn, hUpTo, hOk⟩
          · refine ⟨1, by simp, by simpa using hHere, ?_⟩
            rw [List.take_succ_cons, List.take_zero, scan, if_pos hIn, hNext, scan]
          · refine ⟨n + 1, by simpa using hn, ?_, ?_⟩
            · simp only [Option.map_some, Option.map_none, Option.getD_some, Option.getD_none]
                at hUpTo ⊢
              omega
            · rw [List.take_succ_cons, scan, if_pos hIn, hNext]
              exact hOk
        | some p' =>
          -- more of it is to come
          rw [hNext] at h
          have hSeen : p'.seen = p.seen + 1 := by
            unfold Partial.next at hNext
            split_ifs at hNext
            cases hNext
            rfl
          rcases ih h with hHere | ⟨n, hn, hUpTo, hOk⟩
          · exact .inl hHere
          · refine .inr ⟨n + 1, by simpa using hn, ?_, ?_⟩
            · simp only [Option.map_some, Option.getD_some] at hUpTo ⊢
              omega
            · rw [List.take_succ_cons, scan, if_pos hIn, hNext]
              exact hOk
      · cases h
        exact .inl rfl

/-- What comes before the character that is not there is UTF-8. -/
theorem fromUtf8_take_validUpTo {bs : Bytes} {e : Utf8Error} (h : fromUtf8 bs = .error e) :
    e.validUpTo ≤ bs.length ∧ fromUtf8 (bs.take e.validUpTo) = .ok () := by
  rcases scan_error h with hHere | ⟨n, hn, hUpTo, hOk⟩
  · rw [hHere]
    exact ⟨Nat.zero_le _, rfl⟩
  · have hn' : e.validUpTo = n := by simpa using hUpTo
    rw [hn']
    exact ⟨hn, hOk⟩

/-- Where the check began does not matter to whether it passes. -/
theorem scan_ok_congr {bs : Bytes} : ∀ {p : Option Partial} {done done' : Nat},
    scan p done bs = .ok () → scan p done' bs = .ok () := by
  induction bs with
  | nil =>
    intro p done done' h
    cases p with
    | none => rfl
    | some p => cases h
  | cons b bs ih =>
    intro p done done' h
    cases p with
    | none =>
      rw [scan] at h ⊢
      split_ifs at h ⊢
      · exact ih h
      · cases hLead : lead b with
        | none =>
          rw [hLead] at h
          cases h
        | some p =>
          rw [hLead] at h
          exact ih h
    | some p =>
      rw [scan] at h ⊢
      split_ifs at h ⊢
      cases hNext : p.next with
      | none =>
        rw [hNext] at h
        exact ih h
      | some p' =>
        rw [hNext] at h
        exact ih h

/-- After whole characters the check goes on as from the start. -/
theorem scan_append {as bs : Bytes} : ∀ {p : Option Partial} {done : Nat},
    scan p done as = .ok () → ∃ done', scan p done (as ++ bs) = scan none done' bs := by
  induction as with
  | nil =>
    intro p done h
    cases p with
    | none => exact ⟨done, rfl⟩
    | some p => cases h
  | cons a as ih =>
    intro p done h
    rw [List.cons_append]
    cases p with
    | none =>
      rw [scan] at h ⊢
      split_ifs at h ⊢
      · exact ih h
      · cases hLead : lead a with
        | none =>
          rw [hLead] at h
          cases h
        | some p =>
          rw [hLead] at h
          exact ih h
    | some p =>
      rw [scan] at h ⊢
      split_ifs at h ⊢
      cases hNext : p.next with
      | none =>
        rw [hNext] at h
        exact ih h
      | some p' =>
        rw [hNext] at h
        exact ih h

/-- UTF-8 followed by bytes is UTF-8 if and only if these are. -/
theorem fromUtf8_append {as : Bytes} (bs : Bytes) (h : fromUtf8 as = .ok ()) :
    fromUtf8 (as ++ bs) = .ok () ↔ fromUtf8 bs = .ok () := by
  obtain ⟨done, hScan⟩ := @scan_append as bs none 0 h
  rw [fromUtf8, hScan]
  exact ⟨scan_ok_congr, scan_ok_congr⟩

example : fromUtf8 [0x61, 0xE2, 0x82] = .error ⟨1, none⟩ := by rfl
example : fromUtf8 [0x61, 0xFF, 0x62] = .error ⟨1, some 1⟩ := by rfl

end Quoin.Streams
