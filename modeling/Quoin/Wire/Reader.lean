import Mathlib

/-!
# Wire — readers that consume the front of a token string

A `Reader` takes tokens off the front of its input and answers a value, or
fails. The specification of a reader against a writer is `Reads`: on the
writer's output followed by *anything*, the reader answers the written value
and leaves exactly what followed. `Reads` composes the way the writer
concatenates — `Reads.bind` for a sequence of fields, `Reads.repeatN` for a
counted list — so a decoder is verified against its encoder field by field.
-/

namespace Wire

/-- A reader of tokens `τ` with errors `ε`. -/
abbrev Reader (τ ε α : Type) := StateT (List τ) (Except ε) α

variable {τ ε α β : Type}

namespace Reader

/-- Take exactly `n` tokens, or fail with `short`. -/
def take (short : ε) (n : Nat) : Reader τ ε (List τ) := fun rd =>
  if rd.length < n then .error short else .ok (rd.take n, rd.drop n)

/-- Run a reader `n` times, collecting the answers in order. -/
def repeatN (p : Reader τ ε α) : Nat → Reader τ ε (List α)
  | 0 => pure []
  | n + 1 => do
    let a ← p
    let as ← repeatN p n
    pure (a :: as)

end Reader

/-- `p` reads exactly `s` as `a`, whatever follows it. -/
def Reads (p : Reader τ ε α) (s : List τ) (a : α) : Prop :=
  ∀ rest, p (s ++ rest) = .ok (a, rest)

namespace Reads

variable {p : Reader τ ε α} {f : α → Reader τ ε β} {s c : List τ} {a : α} {b : β}

theorem pure (a : α) : Reads (Pure.pure a : Reader τ ε α) [] a := fun _ => rfl

/-- Two readers in sequence read the concatenation. -/
theorem bind (hp : Reads p s a) (hf : Reads (f a) c b) : Reads (p >>= f) (s ++ c) b := by
  intro rest
  have hfirst : p (s ++ (c ++ rest)) = .ok (a, c ++ rest) := hp (c ++ rest)
  show (p (s ++ c ++ rest) >>= fun r => f r.1 r.2) = .ok (b, rest)
  rw [List.append_assoc, hfirst]
  exact hf rest

/-- A reader that consumes nothing in front of another one. -/
theorem bind_nil (hp : Reads p [] a) (hf : Reads (f a) c b) : Reads (p >>= f) c b :=
  hp.bind hf

/-- A sequence goes on behind what its first reader read. -/
theorem bind_run (hp : Reads p s a) (rd : List τ) : (p >>= f) (s ++ rd) = f a rd := by
  show (p (s ++ rd) >>= fun r => f r.1 r.2) = f a rd
  rw [hp rd]
  rfl

/-- A last field: its reader followed by `pure`. -/
theorem bind_pure (hp : Reads p s a) (hb : Reads (f a) [] b) : Reads (p >>= f) s b := by
  simpa using hp.bind hb

/-- The next field of a record written as a list of fields. -/
theorem field {fields : List (List τ)} (hp : Reads p s a) (hf : Reads (f a) fields.flatten b) :
    Reads (p >>= f) (s :: fields).flatten b := by
  rw [List.flatten_cons]
  exact hp.bind hf

theorem map (g : α → β) (hp : Reads p s a) : Reads (g <$> p) s (g a) := by
  intro rest
  show (p (s ++ rest) >>= fun r => Pure.pure (g r.1, r.2)) = .ok (g a, rest)
  rw [hp rest]
  rfl

/-- `take` reads any string of the length it is asked for. -/
theorem take {short : ε} {n : Nat} (h : s.length = n) :
    Reads (Reader.take short n) s s := by
  intro rest
  have hlong : ¬ (s ++ rest).length < n := by
    rw [List.length_append]
    omega
  rw [Reader.take, if_neg hlong, ← h, List.take_left, List.drop_left]

/-- **Counted lists.** If the reader reads each element's encoding, running it
`xs.length` times reads the encodings one after another. -/
theorem repeatN {enc : α → List τ} :
    ∀ {xs : List α}, (∀ x ∈ xs, Reads p (enc x) x) →
      Reads (Reader.repeatN p xs.length) (xs.flatMap enc) xs
  | [], _ => Reads.pure []
  | x :: xs, h => by
    have hx : Reads p (enc x) x := h x List.mem_cons_self
    have hxs : Reads (Reader.repeatN p xs.length) (xs.flatMap enc) xs :=
      Reads.repeatN fun y hy => h y (List.mem_cons_of_mem x hy)
    rw [List.flatMap_cons]
    exact hx.bind (hxs.bind_pure (Reads.pure (x :: xs)))

/-- A reader that answers nothing walks past strings it reads, one after another. -/
theorem repeatN_unit {p : Reader τ ε Unit} {parts : List (List τ)}
    (h : ∀ s ∈ parts, Reads p s ()) :
    Reads (Reader.repeatN p parts.length) parts.flatten (List.replicate parts.length ()) := by
  induction parts with
  | nil => exact Reads.pure []
  | cons s parts ih =>
    have hs : Reads p s () := h s List.mem_cons_self
    have hparts := ih fun c hc => h c (List.mem_cons_of_mem s hc)
    exact hs.field (hparts.bind_pure (Reads.pure _))

/-- A reader reads at most one value from a given input. -/
theorem eq_of_run {rest rest' : List τ} {a' : α} (hp : Reads p s a)
    (hrun : p (s ++ rest) = .ok (a', rest')) : a' = a ∧ rest' = rest := by
  rw [hp rest] at hrun
  injection hrun with hpair
  injection hpair with ha hrest
  exact ⟨ha.symm, hrest.symm⟩

end Reads

/-- `p` refuses any input starting with `s`, with `err`. -/
def Refuses (p : Reader τ ε α) (s : List τ) (err : ε) : Prop :=
  ∀ rest, p (s ++ rest) = .error err

namespace Refuses

variable {p : Reader τ ε α} {f : α → Reader τ ε β} {s c : List τ} {a : α} {err : ε}

/-- A sequence refuses what its first reader refuses. -/
theorem bind (hp : Refuses p s err) : Refuses (p >>= f) s err := by
  intro rest
  show (p (s ++ rest) >>= fun r => f r.1 r.2) = .error err
  rw [hp rest]
  rfl

/-- What comes after a refused string does not matter. -/
theorem bind' (hp : Refuses p s err) (c : List τ) : Refuses (p >>= f) (s ++ c) err := by
  intro rest
  rw [List.append_assoc]
  exact hp.bind (c ++ rest)

/-- A sequence refuses what its second reader refuses, after the first one read. -/
theorem of_reads (hp : Reads p s a) (hf : Refuses (f a) c err) :
    Refuses (p >>= f) (s ++ c) err := by
  intro rest
  have hfirst : p (s ++ (c ++ rest)) = .ok (a, c ++ rest) := hp (c ++ rest)
  show (p (s ++ c ++ rest) >>= fun r => f r.1 r.2) = .error err
  rw [List.append_assoc, hfirst]
  exact hf rest

/-- **Counted lists** are refused at their first refused element. -/
theorem repeatN {enc : α → List τ} {xs : List α}
    (h : ∀ x ∈ xs, Reads p (enc x) x ∨ Refuses p (enc x) err)
    (hbad : ∃ x ∈ xs, Refuses p (enc x) err) :
    Refuses (Reader.repeatN p xs.length) (xs.flatMap enc) err := by
  induction xs with
  | nil => simp at hbad
  | cons x xs ih =>
    rw [List.flatMap_cons]
    rcases h x List.mem_cons_self with hread | hrefuse
    · obtain ⟨y, hy, hybad⟩ := hbad
      rcases List.mem_cons.mp hy with rfl | hrest
      · have hboth := (hread []).symm.trans (hybad [])
        cases hboth
      · have hlater := ih (fun z hz => h z (List.mem_cons_of_mem x hz)) ⟨y, hrest, hybad⟩
        exact Refuses.of_reads hread hlater.bind
    · exact hrefuse.bind' _

end Refuses

/-- `p` answers `r` on any input starting with `s`: it reads exactly `s`, or
refuses it. -/
def Answers (p : Reader τ ε α) (s : List τ) (r : Except ε α) : Prop :=
  ∀ rest, p (s ++ rest) = r.map fun a => (a, rest)

theorem Reads.answers {p : Reader τ ε α} {s : List τ} {a : α} (hp : Reads p s a) :
    Answers p s (.ok a) := hp

/-- Two readers, each on its own string, answer the same thing: the same value,
or the same error. The strings may differ in what the readers skip. -/
def Agree (p : Reader τ ε α) (s : List τ) (p' : Reader τ ε α) (s' : List τ) : Prop :=
  ∃ r, Answers p s r ∧ Answers p' s' r

namespace Agree

variable {p p' : Reader τ ε α} {f f' : α → Reader τ ε β} {s s' c c' : List τ} {a : α}

theorem of_reads (hp : Reads p s a) (hp' : Reads p' s' a) : Agree p s p' s' :=
  ⟨.ok a, hp, hp'⟩

theorem of_refuses {err : ε} (hp : Refuses p s err) (hp' : Refuses p' s' err) :
    Agree p s p' s' :=
  ⟨.error err, hp, hp'⟩

/-- A value both read is read the same from one string. -/
theorem same (hp : Reads p s a) : Agree p s p s := of_reads hp hp

theorem pure (a : α) : Agree (Pure.pure a : Reader τ ε α) [] (Pure.pure a) [] :=
  of_reads (Reads.pure a) (Reads.pure a)

/-- Sequences agree when their first readers do, and their seconds do on
whatever the first ones read. -/
theorem bind (hp : Agree p s p' s') (hf : ∀ a, Agree (f a) c (f' a) c') :
    Agree (p >>= f) (s ++ c) (p' >>= f') (s' ++ c') := by
  obtain ⟨r, hr, hr'⟩ := hp
  cases r with
  | error err => exact of_refuses (Refuses.bind' hr c) (Refuses.bind' hr' c')
  | ok a =>
    obtain ⟨q, hq, hq'⟩ := hf a
    cases q with
    | error err => exact of_refuses (Refuses.of_reads hr hq) (Refuses.of_reads hr' hq')
    | ok b => exact of_reads (Reads.bind hr hq) (Reads.bind hr' hq')

/-- The next field of two records written as lists of fields. -/
theorem field {fields fields' : List (List τ)} (hp : Agree p s p' s')
    (hf : ∀ a, Agree (f a) fields.flatten (f' a) fields'.flatten) :
    Agree (p >>= f) (s :: fields).flatten (p' >>= f') (s' :: fields').flatten := by
  rw [List.flatten_cons, List.flatten_cons]
  exact hp.bind hf

theorem bind_pure (hp : Agree p s p' s') (hf : ∀ a, Agree (f a) [] (f' a) []) :
    Agree (p >>= f) s (p' >>= f') s' := by
  simpa using hp.bind hf

/-- Readers that read different things first: what follows is all that has to
agree. -/
theorem after_reads {γ δ : Type} {q : Reader τ ε γ} {q' : Reader τ ε δ} {g : γ → Reader τ ε β}
    {g' : δ → Reader τ ε β} {x : γ} {y : δ} (hq : Reads q s x) (hq' : Reads q' s' y)
    (hg : Agree (g x) c (g' y) c') : Agree (q >>= g) (s ++ c) (q' >>= g') (s' ++ c') := by
  obtain ⟨r, hr, hr'⟩ := hg
  cases r with
  | error err => exact of_refuses (Refuses.of_reads hq hr) (Refuses.of_reads hq' hr')
  | ok b => exact of_reads (hq.bind hr) (hq'.bind hr')

/-- What one reader makes of a string does not depend on what it read before. -/
theorem after_same {γ : Type} {q : Reader τ ε γ} {g : γ → Reader τ ε β} {x : γ}
    (hq : Reads q s x) (hg : Agree (g x) c (g x) c) :
    Agree (q >>= g) (s ++ c) (q >>= g) (s ++ c) :=
  after_reads hq hq hg

/-- A reader that consumes nothing in front of one that agrees with itself. -/
theorem after_nil {γ : Type} {q : Reader τ ε γ} {g : γ → Reader τ ε β} {x : γ}
    (hq : Reads q [] x) (hg : Agree (g x) c (g x) c) : Agree (q >>= g) c (q >>= g) c :=
  after_same hq hg

/-- The next field of two records, read differently in one and in the other. -/
theorem field_reads {γ δ : Type} {q : Reader τ ε γ} {q' : Reader τ ε δ} {g : γ → Reader τ ε β}
    {g' : δ → Reader τ ε β} {x : γ} {y : δ} {fields fields' : List (List τ)}
    (hq : Reads q s x) (hq' : Reads q' s' y)
    (hg : Agree (g x) fields.flatten (g' y) fields'.flatten) :
    Agree (q >>= g) (s :: fields).flatten (q' >>= g') (s' :: fields').flatten := by
  rw [List.flatten_cons, List.flatten_cons]
  exact after_reads hq hq' hg

/-- **Counted lists** agree when their elements do, one by one. -/
theorem repeatN {parts parts' : List (List τ)}
    (h : List.Forall₂ (fun s s' => Agree p s p' s') parts parts') :
    Agree (Reader.repeatN p parts.length) parts.flatten
      (Reader.repeatN p' parts'.length) parts'.flatten := by
  induction h with
  | nil => exact Agree.pure []
  | cons hhead _ ih =>
    exact hhead.field fun _ => ih.bind_pure fun _ => Agree.pure _

/-- Whole inputs: readers that agree give one answer and leave nothing. -/
theorem run_eq (h : Agree p s p' s') : p s = p' s' := by
  obtain ⟨r, hr, hr'⟩ := h
  have hs := hr []
  have hs' := hr' []
  rw [List.append_nil] at hs hs'
  rw [hs, hs']

end Agree

/-- Wherever `p` reads something, `q` reads what `R` relates to it, and leaves
the same. -/
def Tracks {ε' : Type} (R : α → β → Prop) (p : Reader τ ε α) (q : Reader τ ε' β) : Prop :=
  ∀ rd a rest, p rd = .ok (a, rest) → ∃ b, q rd = .ok (b, rest) ∧ R a b

namespace Tracks

variable {ε' γ δ : Type} {R R' : α → β → Prop} {S : γ → δ → Prop} {p p' : Reader τ ε α}
  {q : Reader τ ε' β} {f : α → Reader τ ε γ} {g : β → Reader τ ε' δ}

/-- A reader tracks itself. -/
theorem same (p : Reader τ ε α) : Tracks Eq p p := fun _ a _ hp => ⟨a, hp, rfl⟩

theorem mono (h : Tracks R p q) (hR : ∀ a b, R a b → R' a b) : Tracks R' p q := by
  intro rd a rest hp
  obtain ⟨b, hq, hab⟩ := h rd a rest hp
  exact ⟨b, hq, hR a b hab⟩

theorem pure {a : α} {b : β} (h : R a b) :
    Tracks R (Pure.pure a : Reader τ ε α) (Pure.pure b : Reader τ ε' β) := by
  rintro rd _ _ ⟨⟩
  exact ⟨b, rfl, h⟩

/-- What reads nothing is tracked by anything. -/
theorem throw (err : ε) : Tracks R (MonadExcept.throw err : Reader τ ε α) q := by
  rintro rd a rest ⟨⟩

theorem bind (hp : Tracks R p q) (hf : ∀ a b, R a b → Tracks S (f a) (g b)) :
    Tracks S (p >>= f) (q >>= g) := by
  intro rd c rest h
  cases hFirst : p rd with
  | error err =>
    have hNone : (p >>= f) rd = .error err := by
      show (p rd >>= fun r => f r.1 r.2) = .error err
      rw [hFirst]
      rfl
    rw [hNone] at h
    contradiction
  | ok r =>
    obtain ⟨b, hq, hab⟩ := hp rd r.1 r.2 hFirst
    have hRest : f r.1 r.2 = .ok (c, rest) := by
      have hBoth : (p rd >>= fun r => f r.1 r.2) = .ok (c, rest) := h
      rw [hFirst] at hBoth
      exact hBoth
    obtain ⟨d, hg, hcd⟩ := hf r.1 b hab r.2 c rest hRest
    refine ⟨d, ?_, hcd⟩
    show (q rd >>= fun r => g r.1 r.2) = .ok (d, rest)
    rw [hq]
    exact hg

/-- What both read first, and then what each makes of it. -/
theorem after {p : Reader τ ε β} {f : β → Reader τ ε α} {g : β → Reader τ ε δ} {S : α → δ → Prop}
    (h : ∀ b, Tracks S (f b) (g b)) : Tracks S (p >>= f) (p >>= g) := by
  refine (Tracks.same p).bind fun b b' hb => ?_
  subst hb
  exact h b

/-- What a reader makes of what it reads does not change what it reads. -/
theorem answer {h : α → γ} {T : γ → β → Prop} (hp : Tracks (fun a b => T (h a) b) p q) :
    Tracks T (p >>= fun a => Pure.pure (h a)) q := by
  intro rd c rest hRead
  cases hFirst : p rd with
  | error err =>
    have hNone : (p rd >>= fun r => (Pure.pure (h r.1) : Reader τ ε γ) r.2) = .ok (c, rest) :=
      hRead
    rw [hFirst] at hNone
    contradiction
  | ok r =>
    have hBoth : (p rd >>= fun r => (Pure.pure (h r.1) : Reader τ ε γ) r.2) = .ok (c, rest) :=
      hRead
    rw [hFirst] at hBoth
    obtain ⟨rfl, rfl⟩ : h r.1 = c ∧ r.2 = rest := by
      injection hBoth with hPair
      exact Prod.mk.inj hPair
    exact hp rd r.1 r.2 hFirst

/-- The tracking reader may answer something else of what it reads. -/
theorem answers {h : β → δ} {T : α → δ → Prop} (hp : Tracks (fun a b => T a (h b)) p q) :
    Tracks T p (q >>= fun b => Pure.pure (h b)) := by
  intro rd a rest hRead
  obtain ⟨b, hq, hT⟩ := hp rd a rest hRead
  refine ⟨h b, ?_, hT⟩
  show (q rd >>= fun r => (Pure.pure (h r.1) : Reader τ ε' δ) r.2) = .ok (h b, rest)
  rw [hq]
  rfl

theorem ite {c : Prop} [Decidable c] (hThen : c → Tracks R p q) (hElse : ¬ c → Tracks R p' q) :
    Tracks R (if c then p else p') q := by
  split_ifs with hc
  · exact hThen hc
  · exact hElse hc

theorem repeatN (hp : Tracks R p q) (n : Nat) :
    Tracks (List.Forall₂ R) (Reader.repeatN p n) (Reader.repeatN q n) := by
  induction n with
  | zero => exact Tracks.pure .nil
  | succ n ih => exact hp.bind fun a b hab => ih.bind fun as bs h => Tracks.pure (.cons hab h)

end Tracks

theorem ok_bind (a : α) (f : α → Except ε β) : ((.ok a : Except ε α) >>= f) = f a := rfl

/-- A fallible sequence that answers has answered all along. -/
theorem bind_ok {x : Except ε α} {f : α → Except ε β} {b : β} (h : (x >>= f) = .ok b) :
    ∃ a, x = .ok a ∧ f a = .ok b := by
  cases x with
  | error err => cases h
  | ok a => exact ⟨a, rfl, h⟩

end Wire
