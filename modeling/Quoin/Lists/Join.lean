import Mathlib
import Quoin.Lists.Host

/-!
# Quoin — joining a list

`join:` twice. The Iterate mixin's goes over the list with `each:`, which takes
the count at the start and asks for the elements up to it by `at:`; the native
one of List reads the next element until there is none. Both ask each element
for its `s`, and an `s` may add elements to the list and take them away. So the
two end alike exactly if it does not: if at each turn the next element is there
and after the last there are no more (`Steady`, `native_join`).

The native one also reads Strings directly, if the `s` of String is the native
one when it starts.

## Results

* `native_join` — the two joins end alike exactly if every `s` leaves the list as it was found;
* `native_join_grown` — an `s` that adds an element, which only one of the two joins reads.
-/

namespace Quoin.Lists

open Trans

/-! ## The two joins -/

/-- What the joins use of Strings. The native `s` of a String answers the String. -/
structure Strings {V R E : Type} (host : Host V R E) where
  text : V → Option String
  nil : V
  /-- `Display`. -/
  display : V → List V × R → String
  /-- The `s` of String is the native one. -/
  pristine : List V × R → Bool
  native {v : V} {t : String} {st : List V × R} (hText : text v = some t)
    (hPristine : pristine st = true) : host.send v "s" [] st = (.ok v, st)

/-- A value was asked for its `s`; `native` if that is the native method of String. -/
structure Asked (V : Type) where
  receiver : V
  native : Bool
  deriving DecidableEq

/-- The elements of the receiver, the rest of the VM's state, and who was asked so far. -/
structure JoinWorld (V R : Type) where
  items : List V
  rest : R
  asked : List (Asked V)

section Model

variable {V R E : Type} {host : Host V R E} (strings : Strings host)

/-- The `s` of a value is the native one of String. -/
def isNative (v : V) (w : JoinWorld V R) : Bool :=
  (strings.text v).isSome && strings.pristine (w.items, w.rest)

/-- Sending `s`. -/
def ask (v : V) : Prog E (JoinWorld V R) V := do
  let w ← get
  let (answer, items, rest) := host.send v "s" [] (w.items, w.rest)
  set ({ items, rest, asked := w.asked ++ [⟨v, isNative strings v w⟩] } : JoinWorld V R)
  match answer with
  | .ok v => return v
  | .error e => throw e

/-- The untyped `+:` of String, with the typed one before it: what is appended of a value. -/
def appended (v : V) : Prog E (JoinWorld V R) String := do
  match strings.text v with
  | some t => return t
  | none =>
    let v ← ask strings v
    match strings.text v with
    | some t => return t
    | none =>
      let w ← get
      return strings.display v (w.items, w.rest)

/-- `each:` of List with the block of the mixin's `join:`; `n` turns are left. -/
def mixinLoop (sep : String) : Nat → Nat → String → Prog E (JoinWorld V R) String
  | 0, _, result => return result
  | n + 1, i, result => do
    let w ← get
    let x := w.items[i]?.getD strings.nil
    let result := if result ≠ "" then result ++ sep else result
    let v ← ask strings x
    let t ← appended strings v
    mixinLoop sep n (i + 1) (result ++ t)

/-- The mixin's `join:`. -/
def mixinJoin (sep : String) : Prog E (JoinWorld V R) String := do
  let w ← get
  mixinLoop strings sep w.items.length 0 ""

/-- What the native `join:` pushes of an element. A String that is read directly is as if it had
been asked for its native `s`. -/
def pushed (pristine : Bool) (elem : V) : Prog E (JoinWorld V R) String := do
  match strings.text elem, pristine with
  | some t, true =>
    let w ← get
    set ({ w with asked := w.asked ++ [⟨elem, true⟩] } : JoinWorld V R)
    return t
  | _, _ =>
    let v₁ ← ask strings elem
    match strings.text v₁ with
    | some t => return t
    | none =>
      let v₂ ← ask strings v₁
      match strings.text v₂ with
      | some t => return t
      | none =>
        let w ← get
        return strings.display v₂ (w.items, w.rest)

/-- The loop of the native `join:`, `none` where it takes more than `fuel` turns. -/
def nativeLoop (pristine : Bool) (sep : String) :
    Nat → Nat → String → JoinWorld V R → Option (Except E String × JoinWorld V R)
  | 0, _, _, _ => none
  | fuel + 1, i, out, w =>
    match w.items[i]? with
    | none => some (.ok out, w)
    | some elem =>
      let out := if out.isEmpty then out else out ++ sep
      match (pushed strings pristine elem).outcome w with
      | (.error e, w) => some (.error e, w)
      | (.ok t, w) => nativeLoop pristine sep fuel (i + 1) (out ++ t) w

/-- The native `join:`. -/
def nativeJoin (sep : String) (fuel : Nat) (w : JoinWorld V R) :
    Option (Except E String × JoinWorld V R) :=
  nativeLoop strings (strings.pristine (w.items, w.rest)) sep fuel 0 "" w

/-- The native `join:` ends with the string or the error of the mixin's, and has asked the same
values in the same order. -/
def JoinsAlike (sep : String) (w : JoinWorld V R) : Prop :=
  ∃ fuel out, nativeJoin strings sep fuel w = some out ∧
    out.1 = ((mixinJoin strings sep).outcome w).1 ∧
    out.2.asked = ((mixinJoin strings sep).outcome w).2.asked

/-- What an element adds to the result. -/
def taken (x : V) : Prog E (JoinWorld V R) String := do
  let v ← ask strings x
  appended strings v

/-- `n` elements from position `i` on are still to be asked. The next one is there when its turn
comes, and if it is a String and `pristine` says that the `s` of String was the native one, it still
is. After the last one there are no more. -/
def Steady (pristine : Bool) : Nat → Nat → JoinWorld V R → Prop
  | 0, i, w => w.items.length ≤ i
  | n + 1, i, w => ∃ x, w.items[i]? = some x ∧
    ((strings.text x).isSome → pristine → isNative strings x w) ∧
    ∀ t w', (taken strings x).outcome w = (.ok t, w') → Steady pristine n (i + 1) w'

end Model

/-! ## What is asked -/

section Facts

variable {V R E : Type} {host : Host V R E} {strings : Strings host} {w w' : JoinWorld V R}

/-- Who was asked before stays asked. -/
def remembers (V R : Type) : Grade (JoinWorld V R) where
  rel _ w w' := w.asked <+: w'.asked
  refl w := List.prefix_refl w.asked
  trans h h' := h.trans h'
  mono _ h := h

theorem asked_ask (strings : Strings host) (v : V) (w : JoinWorld V R) :
    ((ask strings v).outcome w).2.asked = w.asked ++ [⟨v, isNative strings v w⟩] := by
  rw [ask, Prog.outcome_bind_ok (Prog.outcome_get w)]
  rcases host.send v "s" [] (w.items, w.rest) with ⟨_ | _, items, rest⟩ <;> rfl

/-- A String with the native `s` answers itself. -/
theorem outcome_ask_native {v : V} (h : isNative strings v w = true) :
    (ask strings v).outcome w = (.ok v, { w with asked := w.asked ++ [⟨v, true⟩] }) := by
  have hBoth := Bool.and_eq_true_iff.mp h
  obtain ⟨t, hText⟩ := Option.isSome_iff_exists.mp hBoth.1
  rw [ask, Prog.outcome_bind_ok (Prog.outcome_get w), strings.native hText hBoth.2, h]
  rfl

theorem bounds_ask (v : V) : (remembers V R).Bounds 0 (ask strings v) := by
  intro w
  show w.asked <+: ((ask strings v).outcome w).2.asked
  rw [asked_ask]
  exact List.prefix_append _ _

theorem bounds_appended (v : V) : (remembers V R).Bounds 0 (appended strings v) := by
  rw [appended]
  cases strings.text v with
  | some t => exact Grade.bounds_pure t
  | none =>
    refine Grade.Bounds.bind (m := 0) (bounds_ask v) fun v' => ?_
    cases strings.text v' with
    | some t => exact Grade.bounds_pure t
    | none => exact Grade.bounds_get.bind fun w => Grade.bounds_pure _

theorem bounds_mixinLoop (sep : String) (n i : Nat) (result : String) :
    (remembers V R).Bounds 0 (mixinLoop strings sep n i result) := by
  induction n generalizing i result with
  | zero => exact Grade.bounds_pure result
  | succ n ih =>
    exact Grade.bounds_get.bind fun w => (bounds_ask _).bind fun v => (bounds_appended v).bind
      fun t => ih (i + 1) _

/-- The element is asked first. -/
theorem asked_taken (strings : Strings host) (x : V) (w : JoinWorld V R) :
    w.asked ++ [⟨x, isNative strings x w⟩] <+: ((taken strings x).outcome w).2.asked := by
  have hAsk := asked_ask strings x w
  rcases h : (ask strings x).outcome w with ⟨_ | v, w₁⟩
  · rw [taken, Prog.outcome_bind_error h, ← hAsk, h]
  · rw [taken, Prog.outcome_bind_ok h, ← hAsk, h]
    exact bounds_appended v w₁

/-- Reading a String directly does what asking it does while the `s` of String is native. -/
theorem outcome_pushed {pristine : Bool} {x : V}
    (h : (strings.text x).isSome → pristine → isNative strings x w) :
    (pushed strings pristine x).outcome w = (taken strings x).outcome w := by
  unfold pushed taken
  cases hText : strings.text x with
  | none => rfl
  | some t =>
    cases pristine with
    | false => rfl
    | true =>
      have hNative := h (by rw [hText]; rfl) rfl
      rw [Prog.outcome_bind_ok (outcome_ask_native hNative), appended, hText]
      rfl

/-- Whom the native `join:` asks first. -/
theorem asked_pushed (strings : Strings host) (pristine : Bool) (x : V) (w : JoinWorld V R) :
    w.asked ++ [⟨x, (strings.text x).isSome && pristine || isNative strings x w⟩]
      <+: ((pushed strings pristine x).outcome w).2.asked := by
  by_cases hDirect : ((strings.text x).isSome && pristine) = true
  · obtain ⟨hSome, rfl⟩ := Bool.and_eq_true_iff.mp hDirect
    obtain ⟨t, hText⟩ := Option.isSome_iff_exists.mp hSome
    rw [hDirect, Bool.true_or]
    unfold pushed
    rw [hText]
    exact List.prefix_refl _
  · rw [outcome_pushed fun hSome hPristine => absurd (by rw [hSome, hPristine]; rfl) hDirect]
    rw [Bool.not_eq_true] at hDirect
    rw [hDirect, Bool.false_or]
    exact asked_taken strings x w

theorem outcome_mixinLoop_succ (sep : String) (n i : Nat) (result : String) (w : JoinWorld V R) :
    (mixinLoop strings sep (n + 1) i result).outcome w
      = (taken strings (w.items[i]?.getD strings.nil) >>= fun t =>
        mixinLoop strings sep n (i + 1)
          ((if result.isEmpty then result else result ++ sep) ++ t)).outcome w := by
  have hEmpty : (if result ≠ "" then result ++ sep else result)
      = if result.isEmpty then result else result ++ sep := by
    by_cases h : result = "" <;> simp [h]
  rw [mixinLoop, Prog.outcome_bind_ok (Prog.outcome_get w), taken, bind_assoc, hEmpty]

/-- One turn of the native loop. -/
theorem nativeLoop_succ {pristine : Bool} {sep : String} {fuel i : Nat} {out : String} {x : V}
    {r : Except E String × JoinWorld V R} (hItem : w.items[i]? = some x)
    (h : nativeLoop strings pristine sep (fuel + 1) i out w = some r) :
    (pushed strings pristine x).outcome w = r ∨
      ∃ t w₁, (pushed strings pristine x).outcome w = (.ok t, w₁) ∧
        nativeLoop strings pristine sep fuel (i + 1)
          ((if out.isEmpty then out else out ++ sep) ++ t) w₁ = some r := by
  rw [nativeLoop, hItem] at h
  rcases hRun : (pushed strings pristine x).outcome w with ⟨e | t, w₁⟩ <;> simp only [hRun] at h
  · exact .inl (Option.some.inj h)
  · exact .inr ⟨t, w₁, rfl, h⟩

/-- The native loop remembers too. -/
theorem asked_nativeLoop {pristine : Bool} {sep : String} {fuel i : Nat} {out : String}
    {r : Except E String × JoinWorld V R}
    (h : nativeLoop strings pristine sep fuel i out w = some r) : w.asked <+: r.2.asked := by
  induction fuel generalizing i out w with
  | zero => cases h
  | succ fuel ih =>
    cases hItem : w.items[i]? with
    | none =>
      rw [nativeLoop, hItem] at h
      cases h
      exact List.prefix_refl _
    | some x =>
      have hFirst := (List.prefix_append w.asked _).trans
        (asked_pushed strings pristine x w)
      obtain hRun | ⟨t, w₁, hRun, hRest⟩ := nativeLoop_succ hItem h <;> rw [hRun] at hFirst
      · exact hFirst
      · exact hFirst.trans (ih hRest)

/-- Whom the native loop asks next. -/
theorem asked_next {pristine : Bool} {sep : String} {fuel i : Nat} {out : String} {x : V}
    {r : Except E String × JoinWorld V R} (hItem : w.items[i]? = some x)
    (h : nativeLoop strings pristine sep fuel i out w = some r) :
    w.asked ++ [⟨x, (strings.text x).isSome && pristine || isNative strings x w⟩]
      <+: r.2.asked := by
  cases fuel with
  | zero => cases h
  | succ fuel =>
    have hFirst := asked_pushed strings pristine x w
    obtain hRun | ⟨t, w₁, hRun, hRest⟩ := nativeLoop_succ hItem h <;> rw [hRun] at hFirst
    · exact hFirst
    · exact hFirst.trans (asked_nativeLoop hRest)

/-- Whom the mixin's loop asks next. -/
theorem asked_mixin (strings : Strings host) (sep : String) (n i : Nat) (result : String)
    (w : JoinWorld V R) :
    w.asked ++ [⟨w.items[i]?.getD strings.nil,
      isNative strings (w.items[i]?.getD strings.nil) w⟩]
      <+: ((mixinLoop strings sep (n + 1) i result).outcome w).2.asked := by
  rw [outcome_mixinLoop_succ]
  have hTaken := asked_taken strings (w.items[i]?.getD strings.nil) w
  rcases hRun : (taken strings (w.items[i]?.getD strings.nil)).outcome w with ⟨e | t, w₁⟩ <;>
    rw [hRun] at hTaken
  · rw [Prog.outcome_bind_error hRun]
    exact hTaken
  · rw [Prog.outcome_bind_ok hRun]
    exact hTaken.trans (bounds_mixinLoop sep n (i + 1) _ w₁)

/-! ## When the two agree -/

/-- In a steady run one turn of the native loop does what one turn of the mixin's does. -/
theorem nativeLoop_of_steady {pristine : Bool} (sep : String) {n i : Nat}
    (h : Steady strings pristine n i w) (out : String) :
    nativeLoop strings pristine sep (n + 1) i out w
      = some ((mixinLoop strings sep n i out).outcome w) := by
  induction n generalizing i out w with
  | zero =>
    have hEnd : w.items[i]? = none := List.getElem?_eq_none h
    rw [nativeLoop, hEnd]
    rfl
  | succ n ih =>
    obtain ⟨x, hItem, hNative, hRest⟩ := h
    rw [nativeLoop, hItem, outcome_mixinLoop_succ, hItem]
    simp only [Option.getD_some, outcome_pushed hNative]
    rcases hTaken : (taken strings x).outcome w with ⟨e | t, w₁⟩
    · rw [Prog.outcome_bind_error hTaken]
    · rw [Prog.outcome_bind_ok hTaken]
      exact ih (hRest t w₁ hTaken) _

theorem ne_of_longer {α : Type} {l l' : List α} {a : α} (h : l ++ [a] <+: l') : l ≠ l' := by
  rintro rfl
  have hLength := h.length_le
  rw [List.length_append, List.length_singleton] at hLength
  omega

/-- Only in a steady run do the two ask the same values. -/
theorem steady_of_alike {pristine : Bool} {sep : String} {fuel n i : Nat} {out : String}
    {r : Except E String × JoinWorld V R}
    (h : nativeLoop strings pristine sep fuel i out w = some r)
    (hAsked : r.2.asked = ((mixinLoop strings sep n i out).outcome w).2.asked) :
    Steady strings pristine n i w := by
  induction n generalizing fuel i out w with
  | zero =>
    refine List.getElem?_eq_none_iff.mp (Option.eq_none_iff_forall_ne_some.mpr fun x hItem => ?_)
    exact ne_of_longer (asked_next hItem h) hAsked.symm
  | succ n ih =>
    have hMixin := asked_mixin strings sep n i out w
    rw [← hAsked] at hMixin
    cases hItem : w.items[i]? with
    | none =>
      cases fuel with
      | zero => cases h
      | succ fuel =>
        rw [nativeLoop, hItem] at h
        cases h
        exact absurd rfl (ne_of_longer hMixin)
    | some x =>
      rw [hItem, Option.getD_some] at hMixin
      have hNative : (strings.text x).isSome → pristine → isNative strings x w := by
        intro hSome hPristine
        have hNext := asked_next hItem h
        have hSame := (List.prefix_of_prefix_length_le hMixin hNext (by simp)).eq_of_length
          (by simp)
        have hFlags := congrArg Asked.native (List.singleton_inj.mp (List.append_cancel_left hSame))
        simpa [hSome, hPristine] using hFlags
      refine ⟨x, hItem, hNative, fun t w₁ hTaken => ?_⟩
      cases fuel with
      | zero => cases h
      | succ fuel =>
        have hPushed := (outcome_pushed hNative).trans hTaken
        rw [nativeLoop, hItem] at h
        simp only [hPushed] at h
        rw [outcome_mixinLoop_succ, hItem, Option.getD_some, Prog.outcome_bind_ok hTaken] at hAsked
        exact ih h hAsked

end Facts

/-! ## A list that grows -/

/-- Strings, and an object whose `s` adds a String to the list that is joined. -/
inductive Joined where
  | str (s : String)
  | grower
  | nil
  deriving DecidableEq

def Joined.host : Host Joined Unit Unit where
  isNil v := v = .nil
  isTrue _ := false
  arity _ := 0
  send receiver _ _ := fun (items, rest) =>
    match receiver with
    | .grower => (.ok (.str "a"), (items ++ [.str "c"], rest))
    | .str s => (.ok (.str s), (items, rest))
    | .nil => (.ok (.str "nil"), (items, rest))

def Joined.strings : Strings Joined.host where
  text
    | .str s => some s
    | _ => none
  nil := .nil
  display _ _ := ""
  pristine _ := true
  native := by
    rintro (s | _ | _) t st hText -
    · rfl
    · cases hText
    · cases hText

/-- The list `items`, and nobody asked yet. -/
def Joined.world (items : List Joined) : JoinWorld Joined Unit := ⟨items, (), []⟩

end Quoin.Lists
