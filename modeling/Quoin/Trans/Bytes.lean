import Mathlib

/-!
# Trans — walking over the bytes of a text

A loop over the bytes of a text in UTF-8, whose body looks at one byte and its
neighbours, and may consume the next byte with the one it looks at (`walk`).
A body that is `Blind` does the same with every byte beyond ASCII, and such a
loop is one over the characters (`walk_utf8`): each is stood for by one byte,
and a byte consumed is a character consumed.
-/

namespace Trans

/-- How many bytes a text takes in UTF-8. -/
def size (s : List Char) : Nat := (s.map Char.utf8Size).sum

@[simp] theorem size_nil : size [] = 0 := rfl

@[simp] theorem size_cons (c : Char) (s : List Char) : size (c :: s) = c.utf8Size + size s := by
  simp [size]

theorem size_singleton (c : Char) : size [c] = c.utf8Size := Nat.add_zero _

@[simp] theorem size_append (s t : List Char) : size (s ++ t) = size s + size t := by
  simp [size]

def utf8 (s : List Char) : List UInt8 := s.flatMap String.utf8EncodeChar

@[simp] theorem utf8_nil : utf8 [] = [] := rfl

@[simp] theorem utf8_cons (c : Char) (s : List Char) :
    utf8 (c :: s) = String.utf8EncodeChar c ++ utf8 s := rfl

@[simp] theorem utf8_append (s t : List Char) : utf8 (s ++ t) = utf8 s ++ utf8 t :=
  List.flatMap_append

@[simp] theorem length_utf8 (s : List Char) : (utf8 s).length = size s := by
  induction s with
  | nil => rfl
  | cons c s ih => simp [ih]

/-- Where a character of `source` begins, or `source` ends. -/
def IsBoundary (source : List Char) (n : Nat) : Prop := ∃ s t, source = s ++ t ∧ n = size s

/-! ## Slices -/

/-- What is left after `n` bytes; `none` inside of a character. -/
def dropBytes : List Char → Nat → Option (List Char)
  | s, 0 => some s
  | [], _ + 1 => none
  | c :: s, n + 1 => if c.utf8Size ≤ n + 1 then dropBytes s (n + 1 - c.utf8Size) else none

def takeBytes : List Char → Nat → Option (List Char)
  | _, 0 => some []
  | [], _ + 1 => none
  | c :: s, n + 1 =>
    if c.utf8Size ≤ n + 1 then (takeBytes s (n + 1 - c.utf8Size)).map (c :: ·) else none

/-- `source[start..stop]`, which panics where this is `none`. -/
def slice (source : List Char) (start stop : Nat) : Option (List Char) :=
  if start ≤ stop then (dropBytes source start).bind (takeBytes · (stop - start)) else none

theorem dropBytes_append (s t : List Char) : dropBytes (s ++ t) (size s) = some t := by
  induction s with
  | nil => simp [dropBytes]
  | cons c s ih =>
    obtain ⟨k, hk⟩ : ∃ k, c.utf8Size + size s = k + 1 :=
      Nat.exists_eq_add_one.mpr (Nat.add_pos_left c.utf8Size_pos _)
    have hle : c.utf8Size ≤ k + 1 := by omega
    have hLeft : k + 1 - c.utf8Size = size s := by omega
    rw [size_cons, List.cons_append, hk, dropBytes, if_pos hle, hLeft, ih]

theorem takeBytes_append (s t : List Char) : takeBytes (s ++ t) (size s) = some s := by
  induction s with
  | nil => simp [takeBytes]
  | cons c s ih =>
    obtain ⟨k, hk⟩ : ∃ k, c.utf8Size + size s = k + 1 :=
      Nat.exists_eq_add_one.mpr (Nat.add_pos_left c.utf8Size_pos _)
    have hle : c.utf8Size ≤ k + 1 := by omega
    have hLeft : k + 1 - c.utf8Size = size s := by omega
    rw [size_cons, List.cons_append, hk, takeBytes, if_pos hle, hLeft, ih, Option.map_some]

theorem slice_append (p s t : List Char) :
    slice (p ++ (s ++ t)) (size p) (size p + size s) = some s := by
  rw [slice, if_pos (Nat.le_add_right _ _), dropBytes_append, Nat.add_sub_cancel_left,
    Option.bind_some, takeBytes_append]

/-! ## The loop -/

/-- The body of a loop: of the index, the byte before it, the byte at it and the byte after it, the
next state, and whether the byte after is consumed as well; `none` where the body panics. -/
abbrev Visit (σ : Type) := Nat → Option UInt8 → UInt8 → Option UInt8 → σ → Option (σ × Bool)

variable {σ : Type}

def walk (turn : Visit σ) : Nat → Option UInt8 → List UInt8 → σ → Option σ
  | _, _, [], s => some s
  | i, before, b :: rest, s =>
    match turn i before b rest.head? s with
    | none => none
    | some (s, false) => walk turn (i + 1) (some b) rest s
    | some (s, true) =>
      match rest with
      | [] => some s
      | d :: rest => walk turn (i + 2) (some d) rest s

section

variable {turn : Visit σ} {i : Nat} {before : Option UInt8} {b : UInt8} {rest : List UInt8}
  {s s' : σ}

theorem walk_next (h : turn i before b rest.head? s = some (s', false)) :
    walk turn i before (b :: rest) s = walk turn (i + 1) (some b) rest s' := by
  rw [walk, h]

theorem walk_both {d : UInt8} (h : turn i before b (some d) s = some (s', true)) :
    walk turn i before (b :: d :: rest) s = walk turn (i + 2) (some d) rest s' := by
  rw [walk, List.head?_cons, h]

end

/-- The byte that stands for any other as far as a blind loop can tell. -/
def dim (b : UInt8) : UInt8 := if b < 0x80 then b else 0x80

/-- The byte that stands for a character. -/
def byteOf (c : Char) : UInt8 := if c.val ≤ 127 then UInt8.ofNat c.val.toNat else 0x80

/-- `turn` does `high` with every byte beyond ASCII. -/
structure Blind (turn : Visit σ) (high : σ → σ) : Prop where
  dim : ∀ i before b after s,
    turn i (before.map dim) (dim b) (after.map dim) s = turn i before b after s
  again : ∀ s, high (high s) = high s
  consumed : ∀ i before b s s', turn i before b (some 0x80) s = some (s', true) → high s' = s'
  high : ∀ i before after s, turn i before 0x80 after s = some (high s, false)

/-- The loop over the characters. -/
def walkChars (turn : Visit σ) : Nat → Option UInt8 → List Char → σ → Option σ
  | _, _, [], s => some s
  | i, before, c :: rest, s =>
    match turn i before (byteOf c) (rest.head?.map byteOf) s with
    | none => none
    | some (s, false) => walkChars turn (i + c.utf8Size) (some (byteOf c)) rest s
    | some (s, true) =>
      match rest with
      | [] => some s
      | d :: rest => walkChars turn (i + (c.utf8Size + d.utf8Size)) (some (byteOf d)) rest s

section

variable {turn : Visit σ} {i : Nat} {before : Option UInt8} {c : Char} {rest : List Char} {s s' : σ}

theorem walkChars_next
    (h : turn i before (byteOf c) (rest.head?.map byteOf) s = some (s', false)) :
    walkChars turn i before (c :: rest) s
      = walkChars turn (i + c.utf8Size) (some (byteOf c)) rest s' := by
  rw [walkChars, h]

theorem walkChars_both {d : Char}
    (h : turn i before (byteOf c) (some (byteOf d)) s = some (s', true)) :
    walkChars turn i before (c :: d :: rest) s
      = walkChars turn (i + (c.utf8Size + d.utf8Size)) (some (byteOf d)) rest s' := by
  rw [walkChars, List.head?_cons, Option.map_some, h]

end

/-! ## The bytes of a character -/

theorem byteOf_of_ascii {c : Char} (hc : c.val ≤ 127) : byteOf c = UInt8.ofNat c.val.toNat :=
  if_pos hc

theorem byteOf_of_high {c : Char} (hc : ¬c.val ≤ 127) : byteOf c = 0x80 := if_neg hc

theorem dim_of_high {b : UInt8} (hb : 0x80 ≤ b.toNat) : dim b = 0x80 := by
  refine if_neg fun hlt => ?_
  have : b.toNat < 128 := UInt8.lt_iff_toNat_lt.mp hlt
  omega

theorem byteOf_toNat {c : Char} (hc : c.val ≤ 127) : (byteOf c).toNat = c.val.toNat := by
  have hle : c.val.toNat ≤ 127 := UInt32.le_iff_toNat_le.mp hc
  rw [byteOf_of_ascii hc, UInt8.toNat_ofNat']
  omega

/-- A byte is that of an ASCII character where the character is that one. -/
theorem byteOf_eq_iff {c d : Char} (hd : d.val ≤ 127) : byteOf c = byteOf d ↔ c = d := by
  refine ⟨fun h => ?_, fun h => congrArg byteOf h⟩
  have hNat := congrArg UInt8.toNat h
  have hdNat : d.val.toNat ≤ 127 := UInt32.le_iff_toNat_le.mp hd
  rw [byteOf_toNat hd] at hNat
  by_cases hc : c.val ≤ 127
  · rw [byteOf_toNat hc] at hNat
    exact Char.ext (UInt32.toNat_inj.mp hNat)
  · rw [byteOf_of_high hc] at hNat
    have h128 : (0x80 : UInt8).toNat = 128 := rfl
    omega

theorem encodeChar_ascii {c : Char} (hc : c.val ≤ 127) : String.utf8EncodeChar c = [byteOf c] := by
  have hle : c.val.toNat ≤ 0x7f := UInt32.le_iff_toNat_le.mp hc
  rw [String.utf8EncodeChar, byteOf_of_ascii hc]
  exact if_pos hle

theorem encodeChar_high {c : Char} (hc : ¬c.val ≤ 127) {b : UInt8}
    (hb : b ∈ String.utf8EncodeChar c) : 0x80 ≤ b.toNat := by
  have hlt : ¬c.val.toNat ≤ 0x7f := fun h => hc (UInt32.le_iff_toNat_le.mpr h)
  simp only [String.utf8EncodeChar, if_neg hlt] at hb
  split at hb
  · simp only [List.mem_cons, List.not_mem_nil, or_false] at hb
    rcases hb with rfl | rfl <;> rw [UInt8.toNat_ofNat'] <;> omega
  · split at hb
    · simp only [List.mem_cons, List.not_mem_nil, or_false] at hb
      rcases hb with rfl | rfl | rfl <;> rw [UInt8.toNat_ofNat'] <;> omega
    · simp only [List.mem_cons, List.not_mem_nil, or_false] at hb
      rcases hb with rfl | rfl | rfl | rfl <;> rw [UInt8.toNat_ofNat'] <;> omega

theorem utf8Size_of_ascii {c : Char} (hc : c.val ≤ 127) : c.utf8Size = 1 :=
  Char.utf8Size_eq_one_iff.mpr hc

/-- A blind loop sees the same byte over and over in a character. -/
theorem dim_encodeChar (c : Char) :
    (String.utf8EncodeChar c).map dim = List.replicate c.utf8Size (byteOf c) := by
  by_cases hc : c.val ≤ 127
  · have hlt : byteOf c < 0x80 := by
      have hle : c.val.toNat ≤ 127 := UInt32.le_iff_toNat_le.mp hc
      have hNat := byteOf_toNat hc
      exact UInt8.lt_iff_toNat_lt.mpr (by rw [hNat]; exact Nat.lt_succ_of_le hle)
    rw [encodeChar_ascii hc, utf8Size_of_ascii hc, List.map_singleton, dim, if_pos hlt]
    rfl
  · rw [byteOf_of_high hc]
    refine List.eq_replicate_iff.mpr ⟨by simp, fun b hb => ?_⟩
    obtain ⟨a, ha, rfl⟩ := List.mem_map.mp hb
    exact dim_of_high (encodeChar_high hc ha)

theorem byteOf_ne_high {c : Char} (hc : c.val ≤ 127) : 0x80 ≠ byteOf c := by
  intro h
  have hNat := congrArg UInt8.toNat h
  have hle : c.val.toNat ≤ 127 := UInt32.le_iff_toNat_le.mp hc
  rw [byteOf_toNat hc] at hNat
  have h128 : (0x80 : UInt8).toNat = 128 := rfl
  omega

/-- Blindness does not reach the ASCII characters. -/
theorem dim_eq_iff {b : UInt8} {c : Char} (hc : c.val ≤ 127) : dim b = byteOf c ↔ b = byteOf c := by
  rw [dim]
  split
  · exact Iff.rfl
  · rename_i hb
    refine ⟨fun h => absurd h (byteOf_ne_high hc), ?_⟩
    rintro rfl
    refine absurd (UInt8.lt_iff_toNat_lt.mpr ?_) hb
    rw [byteOf_toNat hc]
    exact Nat.lt_succ_of_le (UInt32.le_iff_toNat_le.mp hc)

theorem map_dim_eq_iff {b : Option UInt8} {c : Char} (hc : c.val ≤ 127) :
    b.map dim = some (byteOf c) ↔ b = some (byteOf c) := by
  cases b with
  | none => simp
  | some b => simp [dim_eq_iff hc]

/-- The bytes of a text hold an ASCII character as often as the text does. -/
theorem count_utf8 {c : Char} (hc : c.val ≤ 127) (s : List Char) :
    (utf8 s).count (byteOf c) = s.count c := by
  induction s with
  | nil => rfl
  | cons d s ih =>
    have hHead : (String.utf8EncodeChar d).count (byteOf c) = [d].count c := by
      by_cases hd : d.val ≤ 127
      · rw [encodeChar_ascii hd, List.count_singleton, List.count_singleton]
        simp [byteOf_eq_iff hc]
      · rw [List.count_eq_zero_of_not_mem, List.count_eq_zero_of_not_mem]
        · rintro h
          obtain rfl := List.mem_singleton.mp h
          exact hd hc
        · intro h
          have hHigh := encodeChar_high hd h
          have hle : c.val.toNat ≤ 127 := UInt32.le_iff_toNat_le.mp hc
          rw [byteOf_toNat hc] at hHigh
          omega
    rw [utf8_cons, List.count_append, hHead, ih, ← List.count_append, List.singleton_append]

/-! ## A loop over bytes is one over characters -/

variable {turn : Visit σ} {high : σ → σ}

/-- What a blind loop sees of the bytes of a text. -/
def dimmed (s : List Char) : List UInt8 := s.flatMap fun c => List.replicate c.utf8Size (byteOf c)

theorem map_dim_utf8 (s : List Char) : (utf8 s).map dim = dimmed s := by
  induction s with
  | nil => rfl
  | cons c s ih => rw [utf8_cons, List.map_append, dim_encodeChar, ih]; rfl

theorem dimmed_cons (c : Char) (s : List Char) :
    dimmed (c :: s) = byteOf c :: (List.replicate (c.utf8Size - 1) (byteOf c) ++ dimmed s) := by
  obtain ⟨k, hk⟩ := Nat.exists_eq_add_one.mpr c.utf8Size_pos
  rw [dimmed, List.flatMap_cons, hk, List.replicate_succ]
  rfl

theorem head?_dimmed (s : List Char) : (dimmed s).head? = s.head?.map byteOf := by
  cases s with
  | nil => rfl
  | cons c s => rw [dimmed_cons, List.head?_cons, List.head?_cons, Option.map_some]

theorem dimmed_cons_ascii {c : Char} (hc : c.val ≤ 127) (s : List Char) :
    dimmed (c :: s) = byteOf c :: dimmed s := by
  rw [dimmed_cons, utf8Size_of_ascii hc]
  rfl

namespace Blind

theorem walk_dim (h : Blind turn high) (i : Nat) (before : Option UInt8) (bs : List UInt8)
    (s : σ) :
    walk turn i (before.map Trans.dim) (bs.map Trans.dim) s = walk turn i before bs s := by
  fun_induction walk turn i before bs s with
  | case1 => rfl
  | case2 i before b rest s hTurn => rw [List.map_cons, walk, List.head?_map, h.dim, hTurn]
  | case3 i before b rest s s' hTurn ih =>
    rw [← h.dim, ← List.head?_map] at hTurn
    exact (walk_next hTurn).trans ih
  | case4 i before b s s' hTurn =>
    rw [List.map_cons, walk, List.head?_map, h.dim, hTurn]
    rfl
  | case5 i before b s s' d rest hTurn ih =>
    rw [← h.dim] at hTurn
    exact (walk_both hTurn).trans ih

/-- What is left of a character changes nothing once its first byte did what there is to do. -/
theorem walk_replicate (h : Blind turn high) {s : σ} (hs : high s = s) (n i : Nat)
    (rest : List UInt8) :
    walk turn i (some 0x80) (List.replicate n 0x80 ++ rest) s
      = walk turn (i + n) (some 0x80) rest s := by
  induction n generalizing i with
  | zero => rfl
  | succ n ih =>
    have hTurn : turn i (some 0x80) 0x80 (List.replicate n 0x80 ++ rest).head? s
        = some (s, false) := by rw [h.high, hs]
    have hIndex : i + 1 + n = i + (n + 1) := by omega
    rw [List.replicate_succ, List.cons_append, walk_next hTurn, ih, hIndex]

theorem walk_dimmed (h : Blind turn high) (i : Nat) (before : Option UInt8) (cs : List Char)
    (s : σ) : walk turn i before (dimmed cs) s = walkChars turn i before cs s := by
  -- on the walk over the characters; a longer one is as many bytes that the walk does not see
  fun_induction walkChars turn i before cs s with
  | case1 => rfl
  | case2 i before c rest s hTurn =>
    by_cases hc : c.val ≤ 127
    · rw [dimmed_cons_ascii hc, walk, head?_dimmed, hTurn]
    · rw [byteOf_of_high hc, h.high] at hTurn
      cases hTurn
  | case3 i before c rest s s' hTurn ih =>
    by_cases hc : c.val ≤ 127
    · rw [← head?_dimmed] at hTurn
      rw [utf8Size_of_ascii hc] at ih ⊢
      rw [dimmed_cons_ascii hc, walk_next hTurn, ih]
    · rw [byteOf_of_high hc, h.high] at hTurn
      obtain rfl : high s = s' := congrArg Prod.fst (Option.some.inj hTurn)
      have hIndex : i + 1 + (c.utf8Size - 1) = i + c.utf8Size := by
        have := c.utf8Size_pos
        omega
      rw [byteOf_of_high hc] at ih ⊢
      rw [dimmed_cons, byteOf_of_high hc, walk_next (h.high i before _ s),
        h.walk_replicate (h.again s), hIndex, ih]
  | case4 i before c s s' hTurn =>
    by_cases hc : c.val ≤ 127
    · rw [dimmed_cons_ascii hc, walk, head?_dimmed, hTurn]
      rfl
    · rw [byteOf_of_high hc, h.high] at hTurn
      cases hTurn
  -- a turn that takes two characters begins with a short one
  | case5 i before c s s' d rest hTurn ih =>
    have hc : c.val ≤ 127 := by
      by_contra hc
      rw [byteOf_of_high hc, h.high] at hTurn
      cases hTurn
    rw [List.head?_cons, Option.map_some] at hTurn
    rw [utf8Size_of_ascii hc] at ih ⊢
    rw [dimmed_cons_ascii hc, dimmed_cons, walk_both hTurn]
    by_cases hd : d.val ≤ 127
    · rw [utf8Size_of_ascii hd] at ih ⊢
      exact ih
    · have hSame : high s' = s' := by
        rw [byteOf_of_high hd] at hTurn
        exact h.consumed i before _ s s' hTurn
      have hIndex : i + 2 + (d.utf8Size - 1) = i + (1 + d.utf8Size) := by
        have := d.utf8Size_pos
        omega
      rw [byteOf_of_high hd] at ih ⊢
      rw [h.walk_replicate hSame, hIndex, ih]

/-- A blind loop over the bytes is one over the characters. -/
theorem walk_utf8 (h : Blind turn high) (i : Nat) (cs : List Char) (s : σ) :
    walk turn i none (utf8 cs) s = walkChars turn i none cs s := by
  rw [← h.walk_dim, map_dim_utf8]
  exact h.walk_dimmed i none cs s

end Blind

/-! ## Escapes -/

/-- What is left of a text without its escapes, each a backslash and the character after it. -/
def exposed : List Char → List Char
  | '\\' :: _ :: s => exposed s
  | c :: s => c :: exposed s
  | [] => []

/-- The characters of a text that a backslash escapes. -/
def escaped : List Char → List Char
  | '\\' :: d :: s => d :: escaped s
  | _ :: s => escaped s
  | [] => []

/-- No `q` ends `s` early, and no escape reaches beyond it. -/
structure Quoted (q : Char) (s : List Char) : Prop where
  inside : q ∉ exposed s
  whole : '\\' ∉ exposed s

@[simp] theorem exposed_nil : exposed [] = [] := rfl

@[simp] theorem exposed_escape (d : Char) (s : List Char) :
    exposed ('\\' :: d :: s) = exposed s := rfl

/-- The characters of a text in turn, an escape as one. -/
theorem escape_induction {P : List Char → Prop} (nil : P [])
    (escape : ∀ d s, P s → P ('\\' :: d :: s))
    (cons : ∀ c s, (∀ d t, c = '\\' → s = d :: t → False) → P s → P (c :: s))
    (s : List Char) : P s := by
  induction s using exposed.induct with
  | case1 d s ih => exact escape d s ih
  | case2 c s hNot ih => exact cons c s hNot ih
  | case3 => exact nil

/-- Where no escape begins, the character is left. -/
theorem exposed_kept {c : Char} {s : List Char} (h : ∀ d t, c = '\\' → s = d :: t → False) :
    exposed (c :: s) = c :: exposed s := by
  rw [exposed]
  exact h

theorem escaped_kept {c : Char} {s : List Char} (h : ∀ d t, c = '\\' → s = d :: t → False) :
    escaped (c :: s) = escaped s := by
  rw [escaped]
  exact h

@[simp] theorem escaped_escape (d : Char) (s : List Char) :
    escaped ('\\' :: d :: s) = d :: escaped s := rfl

theorem exposed_cons {c : Char} (hc : c ≠ '\\') (s : List Char) :
    exposed (c :: s) = c :: exposed s :=
  exposed_kept fun _ _ h _ => hc h

theorem escaped_cons {c : Char} (hc : c ≠ '\\') (s : List Char) :
    escaped (c :: s) = escaped s :=
  escaped_kept fun _ _ h _ => hc h

theorem count_exposed_add_escaped {c : Char} (hc : c ≠ '\\') (s : List Char) :
    (exposed s).count c + (escaped s).count c = s.count c := by
  induction s using escape_induction with
  | nil => rfl
  | escape d s ih =>
    rw [exposed_escape, escaped_escape, List.count_cons, ← Nat.add_assoc, ih,
      List.count_cons_of_ne hc.symm, List.count_cons]
  | cons d s hNot ih =>
    rw [exposed_kept hNot, escaped_kept hNot, List.count_cons, List.count_cons]
    omega

theorem exposed_append {s : List Char} (hs : '\\' ∉ exposed s) (t : List Char) :
    exposed (s ++ t) = exposed s ++ exposed t := by
  induction s using escape_induction with
  | nil => rfl
  | escape d s ih => exact ih hs
  | cons c s hNot ih =>
    rw [exposed_kept hNot, List.mem_cons, not_or] at hs
    rw [List.cons_append, exposed_cons (Ne.symm hs.1), exposed_kept hNot, ih hs.2,
      List.cons_append]

theorem escaped_append {s : List Char} (hs : '\\' ∉ exposed s) (t : List Char) :
    escaped (s ++ t) = escaped s ++ escaped t := by
  induction s using escape_induction with
  | nil => rfl
  | escape d s ih => exact congrArg (d :: ·) (ih hs)
  | cons c s hNot ih =>
    rw [exposed_kept hNot, List.mem_cons, not_or] at hs
    rw [List.cons_append, escaped_cons (Ne.symm hs.1), escaped_cons (Ne.symm hs.1), ih hs.2]

theorem Quoted.nil (q : Char) : Quoted q [] := ⟨List.not_mem_nil, List.not_mem_nil⟩

theorem Quoted.append {q : Char} {s t : List Char} (hs : Quoted q s) (ht : Quoted q t) :
    Quoted q (s ++ t) := by
  constructor
  · rw [exposed_append hs.whole, List.mem_append]
    exact fun h => h.elim hs.inside ht.inside
  · rw [exposed_append hs.whole, List.mem_append]
    exact fun h => h.elim hs.whole ht.whole

/-- No escape reaches beyond a text that no backslash ends. -/
theorem not_mem_exposed {s : List Char} (hs : s.getLast? ≠ some '\\') : '\\' ∉ exposed s := by
  induction s using escape_induction with
  | nil => exact List.not_mem_nil
  | escape d s ih =>
    cases s with
    | nil => exact List.not_mem_nil
    | cons c s => exact ih (by simpa [List.getLast?_cons_cons] using hs)
  | cons c s hNot ih =>
    rw [exposed_kept hNot]
    cases s with
    | nil => simpa [eq_comm] using hs
    | cons d s =>
      rw [List.mem_cons, not_or]
      exact ⟨fun h => hNot d s h.symm rfl, ih (by simpa [List.getLast?_cons_cons] using hs)⟩

/-- Where a `q` is exposed, there is a first one that ends what comes before it. -/
theorem exists_quoted {q : Char} {s : List Char} (hs : q ∈ exposed s) :
    ∃ p t, s = p ++ q :: t ∧ Quoted q p := by
  induction s using escape_induction with
  | nil => cases hs
  | escape d s ih =>
    obtain ⟨p, t, rfl, hp⟩ := ih hs
    exact ⟨'\\' :: d :: p, t, rfl, hp.inside, hp.whole⟩
  | cons c s hNot ih =>
    by_cases hc : c = q
    · exact ⟨[], s, by rw [hc]; rfl, Quoted.nil q⟩
    rw [exposed_kept hNot] at hs
    have hs' : q ∈ exposed s := (List.mem_cons.mp hs).resolve_left (Ne.symm hc)
    obtain ⟨p, t, rfl, hp⟩ := ih hs'
    have hBack : c ≠ '\\' := by
      rintro rfl
      cases p with
      | nil => exact hNot q t rfl rfl
      | cons d p => exact hNot d (p ++ q :: t) rfl rfl
    refine ⟨c :: p, t, rfl, ?_, ?_⟩
    · rw [exposed_cons hBack, List.mem_cons, not_or]
      exact ⟨Ne.symm hc, hp.inside⟩
    · rw [exposed_cons hBack, List.mem_cons, not_or]
      exact ⟨Ne.symm hBack, hp.whole⟩

/-- A loop that every character of `t` leaves as it is goes over `t`. -/
theorem walkChars_same {t : List Char} {s : σ}
    (h : ∀ c ∈ t, ∀ i before after, turn i before (byteOf c) after s = some (s, false)) (i : Nat)
    (before : Option UInt8) (rest : List Char) :
    ∃ before', walkChars turn i before (t ++ rest) s
      = walkChars turn (i + size t) before' rest s := by
  induction t generalizing i before with
  | nil => exact ⟨before, rfl⟩
  | cons c t ih =>
    obtain ⟨before', hWalk⟩ :=
      ih (fun d hd => h d (List.mem_cons_of_mem c hd)) (i + c.utf8Size) (some (byteOf c))
    refine ⟨before', ?_⟩
    rw [List.cons_append, walkChars_next (h c List.mem_cons_self i before _), hWalk, size_cons,
      Nat.add_assoc]

/-- Between two `q`: the loop takes an escape as one, and every other character keeps `P`, which
counts the lines. -/
structure Carries (turn : Visit σ) (q : Char) (P : Nat → σ → Prop) : Prop where
  both : ∀ i before after n s, P n s → turn i before (byteOf '\\') after s = some (s, true)
  next : ∀ i before c after n s, c ≠ q → c ≠ '\\' → P n s →
    ∃ s', turn i before (byteOf c) after s = some (s', false) ∧ P (n + [c].count '\n') s'

theorem Carries.walkChars {q : Char} {P : Nat → σ → Prop} (h : Carries turn q P) {t : List Char}
    (ht : Quoted q t) (i : Nat) (before : Option UInt8) (rest : List Char) {n : Nat} {s : σ}
    (hs : P n s) :
    ∃ before' s', Trans.walkChars turn i before (t ++ rest) s
        = Trans.walkChars turn (i + size t) before' rest s' ∧
      P (n + (exposed t).count '\n') s' := by
  obtain ⟨hInside, hWhole⟩ := ht
  induction t using escape_induction generalizing i before n s with
  | nil => exact ⟨before, s, rfl, hs⟩
  | escape d t ih =>
    obtain ⟨before', s', hWalk, hP⟩ :=
      ih (i + ('\\'.utf8Size + d.utf8Size)) (some (byteOf d)) hs hInside hWhole
    refine ⟨before', s', ?_, hP⟩
    rw [List.cons_append, List.cons_append, walkChars_both (h.both i before _ n s hs), hWalk]
    simp [Nat.add_assoc]
  | cons c t hNot ih =>
    rw [exposed_kept hNot, List.mem_cons, not_or] at hInside hWhole
    obtain ⟨s₁, hTurn, hP₁⟩ := h.next i before c ((t ++ rest).head?.map byteOf) n s
      (Ne.symm hInside.1) (Ne.symm hWhole.1) hs
    obtain ⟨before', s', hWalk, hP⟩ :=
      ih (i + c.utf8Size) (some (byteOf c)) hP₁ hInside.2 hWhole.2
    refine ⟨before', s', ?_, ?_⟩
    · rw [List.cons_append, walkChars_next hTurn, hWalk, size_cons, Nat.add_assoc]
    · rw [exposed_kept hNot, ← List.singleton_append, List.count_append, ← Nat.add_assoc]
      exact hP

/-- A text that `q` ends, with the `q` that ends it. -/
theorem Carries.walkChars_close {q : Char} {P : Nat → σ → Prop} (h : Carries turn q P)
    {t : List Char} (ht : Quoted q t) {n : Nat} {s : σ} (hs : P n s) (i : Nat) (rest : List Char)
    {C : σ → Prop}
    (hClose : ∀ before s', P (n + (exposed t).count '\n') s' → ∃ s'',
      turn (i + size t) before (byteOf q) (rest.head?.map byteOf) s' = some (s'', false) ∧ C s'')
    (before : Option UInt8) :
    ∃ s'', Trans.walkChars turn i before (t ++ q :: rest) s
        = Trans.walkChars turn (i + (size t + q.utf8Size)) (some (byteOf q)) rest s'' ∧ C s'' := by
  obtain ⟨before', s', hWalk, hP⟩ := h.walkChars ht i before (q :: rest) hs
  obtain ⟨s'', hTurn, hC⟩ := hClose before' s' hP
  exact ⟨s'', by rw [hWalk, walkChars_next hTurn, Nat.add_assoc], hC⟩

end Trans
