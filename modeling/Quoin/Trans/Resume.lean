import Mathlib

/-!
# Trans — resumptions

A computation over a state that may stop to ask for something to be done, and
goes on with the answer, in the state it then finds. Whoever does it runs what it
likes in between, so nothing is known of that state but what a contract promises:
`Sat c post r` says that `r` asks only where the contract lets it and, as long as
the answers keep to the contract, ends in `post`. The rules below compute `Sat` of
a program from its parts (`sat_bind`, and the `wp` lemmas for programs that fail).
-/

namespace Trans

variable {Q A S ε α β : Type}

/-- A computation that ends with a value and a state, or asks and waits. -/
inductive Resume (Q A S α : Type) where
  | done (a : α) (s : S)
  | ask (q : Q) (s : S) (k : A → S → Resume Q A S α)

/-- What must hold of the state where something is asked, and what may be relied on of the answer
and the state it comes with. -/
structure Contract (Q A S : Type) where
  fit : Q → S → Prop
  rely : Q → S → A → S → Prop

namespace Resume

def bind : Resume Q A S α → (α → S → Resume Q A S β) → Resume Q A S β
  | .done a s, f => f a s
  | .ask q s k, f => .ask q s fun a s' => (k a s').bind f

/-- The computation keeps its side of the contract, and ends in `post` if the other side does. -/
def Sat (c : Contract Q A S) (post : α → S → Prop) : Resume Q A S α → Prop
  | .done a s => post a s
  | .ask q s k => c.fit q s ∧ ∀ a s', c.rely q s a s' → (k a s').Sat c post

variable {c : Contract Q A S} {post post' : α → S → Prop} {r : Resume Q A S α}

@[simp] theorem sat_done {a : α} {s : S} : (done a s : Resume Q A S α).Sat c post ↔ post a s :=
  Iff.rfl

@[simp] theorem sat_bind {f : α → S → Resume Q A S β} {post : β → S → Prop} :
    (r.bind f).Sat c post ↔ r.Sat c fun a s => (f a s).Sat c post := by
  induction r with
  | done a s => exact Iff.rfl
  | ask q s k ih => simp only [bind, Sat, ih]

theorem Sat.mono (h : r.Sat c post) (himp : ∀ a s, post a s → post' a s) : r.Sat c post' := by
  induction r with
  | done a s => exact himp a s h
  | ask q s k ih => exact ⟨h.1, fun a s' hrely => ih a s' (h.2 a s' hrely)⟩

end Resume

/-! ## Programs that may fail -/

/-- A computation from a state that fails with an `ε` or succeeds with an `α`. -/
structure Resumable (Q A S ε α : Type) where
  run : S → Resume Q A S (Except ε α)

namespace Resumable

/-- Goes on with what a success found, and passes a failure on. -/
def next (f : α → Resumable Q A S ε β) : Except ε α → S → Resume Q A S (Except ε β)
  | .ok a, s => (f a).run s
  | .error e, s => .done (.error e) s

instance : Monad (Resumable Q A S ε) where
  pure a := ⟨.done (.ok a)⟩
  bind x f := ⟨fun s => (x.run s).bind (next f)⟩

def look : Resumable Q A S ε S := ⟨fun s => .done (.ok s) s⟩

def update (f : S → S) : Resumable Q A S ε Unit := ⟨fun s => .done (.ok ()) (f s)⟩

/-- Reads the state and changes it. -/
def act (f : S → α × S) : Resumable Q A S ε α := ⟨fun s => .done (.ok (f s).1) (f s).2⟩

def fail (e : ε) : Resumable Q A S ε α := ⟨.done (.error e)⟩

/-- Ends as something else has ended. -/
def ofExcept (r : Except ε α) : Resumable Q A S ε α := ⟨.done r⟩

/-- Asks; a failure that is the answer is passed on. -/
def ask (q : Q) : Resumable Q (Except ε A) S ε A := ⟨fun s => .ask q s .done⟩

/-- Runs `x` and looks at how it ended. -/
def attempt (x : Resumable Q A S ε α) : Resumable Q A S ε (Except ε α) :=
  ⟨fun s => (x.run s).bind fun r => .done (.ok r)⟩

/-- Runs `x` and changes the state however it ended. -/
def ensuring (x : Resumable Q A S ε α) (f : S → S) : Resumable Q A S ε α :=
  ⟨fun s => (x.run s).bind fun r s' => .done r (f s')⟩

/-- A failure changed, with the state. -/
def amend (f : ε → S → ε × S) : Except ε α → S → Resume Q A S (Except ε α)
  | .ok a, s => .done (.ok a) s
  | .error e, s => .done (.error (f e s).1) (f e s).2

/-- Runs `x`; where it fails, what it fails with and the state are changed. -/
def onError (x : Resumable Q A S ε α) (f : ε → S → ε × S) : Resumable Q A S ε α :=
  ⟨fun s => (x.run s).bind (amend f)⟩

/-- A postcondition from one for each way of ending. -/
def ends (ok : α → S → Prop) (error : ε → S → Prop) : Except ε α → S → Prop
  | .ok a => ok a
  | .error e => error e

@[simp] theorem ends_ok {ok : α → S → Prop} {error : ε → S → Prop} {a : α} {s : S} :
    ends ok error (.ok a) s ↔ ok a s := Iff.rfl

@[simp] theorem ends_error {ok : α → S → Prop} {error : ε → S → Prop} {e : ε} {s : S} :
    ends ok error (.error e) s ↔ error e s := Iff.rfl

/-- From the state `s`, the program keeps the contract and ends in `post`. -/
def wp (c : Contract Q A S) (x : Resumable Q A S ε α) (post : Except ε α → S → Prop) (s : S) :
    Prop :=
  (x.run s).Sat c post

variable {c : Contract Q A S} {x : Resumable Q A S ε α} {post post' : Except ε α → S → Prop}
  {s : S}

@[simp] theorem wp_pure {a : α} : wp c (pure a) post s ↔ post (.ok a) s := Iff.rfl

@[simp] theorem wp_bind {f : α → Resumable Q A S ε β} {post : Except ε β → S → Prop} :
    wp c (x >>= f) post s ↔
      wp c x (ends (fun a s' => wp c (f a) post s') fun e s' => post (.error e) s') s := by
  have hNext : ∀ r s', (next f r s').Sat c post ↔
      ends (fun a s' => wp c (f a) post s') (fun e s' => post (.error e) s') r s' := by
    intro r s'
    cases r <;> exact Iff.rfl
  show ((x.run s).bind (next f)).Sat c post ↔ _
  simp only [Resume.sat_bind, hNext]
  exact Iff.rfl

@[simp] theorem wp_look {post : Except ε S → S → Prop} :
    wp (Q := Q) c look post s ↔ post (.ok s) s := Iff.rfl

@[simp] theorem wp_update {f : S → S} {post : Except ε Unit → S → Prop} :
    wp c (update f) post s ↔ post (.ok ()) (f s) := Iff.rfl

@[simp] theorem wp_act {f : S → α × S} :
    wp c (act f) post s ↔ post (.ok (f s).1) (f s).2 := Iff.rfl

@[simp] theorem wp_fail {e : ε} : wp c (fail e) post s ↔ post (.error e) s := Iff.rfl

@[simp] theorem wp_ofExcept {r : Except ε α} : wp c (ofExcept r) post s ↔ post r s := Iff.rfl

@[simp] theorem wp_attempt {post : Except ε (Except ε α) → S → Prop} :
    wp c (attempt x) post s ↔ wp c x (fun r s' => post (.ok r) s') s := by
  simp [wp, attempt]

@[simp] theorem wp_ensuring {f : S → S} :
    wp c (ensuring x f) post s ↔ wp c x (fun r s' => post r (f s')) s := by
  simp [wp, ensuring]

@[simp] theorem wp_onError {f : ε → S → ε × S} :
    wp c (onError x f) post s ↔
      wp c x (ends (fun a s' => post (.ok a) s') fun e s' => post (.error (f e s').1) (f e s').2)
        s := by
  have hEnd : ∀ r s', (amend (Q := Q) (A := A) f r s').Sat c post ↔
      ends (fun a s' => post (.ok a) s') (fun e s' => post (.error (f e s').1) (f e s').2)
        r s' := by
    intro r s'
    cases r <;> exact Iff.rfl
  simp only [wp, onError, Resume.sat_bind, hEnd]

theorem wp_ask {c : Contract Q (Except ε A) S} {q : Q} {post : Except ε A → S → Prop} :
    wp c (ask q) post s ↔ c.fit q s ∧ ∀ a s', c.rely q s a s' → post a s' := Iff.rfl

theorem wp_mono (h : wp c x post s) (himp : ∀ r s', post r s' → post' r s') : wp c x post' s :=
  Resume.Sat.mono h himp

/-- A program after another, from what the first ends in. -/
theorem wp_seq {f : α → Resumable Q A S ε β} {ok : α → S → Prop} {error : ε → S → Prop}
    {post : Except ε β → S → Prop} (hx : wp c x (ends ok error) s)
    (hok : ∀ a s', ok a s' → wp c (f a) post s')
    (herror : ∀ e s', error e s' → post (.error e) s') : wp c (x >>= f) post s := by
  rw [wp_bind]
  refine wp_mono hx ?_
  rintro (e | a) s' hEnd
  · exact herror e s' hEnd
  · exact hok a s' hEnd

end Resumable

end Trans
