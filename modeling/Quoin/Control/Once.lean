import Mathlib
import Quoin.Control.Discipline
import Quoin.Control.Finally

/-!
# Quoin — `finally` blocks over whole runs

From the time its protected block is running until the activation of the native is
over, the cleanup block is begun once (`cleanup_once`): first it is due, then its
loop is at its first instruction, then the native is done. With what holds of frames
and operands, this is the discipline of calls, returns and `^^` (`frame_discipline`).

A `^^` out of a guard that the lookup of a send runs is what goes wrong: the send
cuts the stack to where its receiver was, and the value is gone with it
(`frame_discipline_guard`). So does a `^^` to a compiled method that the code in
between takes for another: what that code may do is in `Request.Disturbed`.

## Results

* `cleanup_once` — a cleanup block is begun once in a run;
* `frame_discipline` — frames, operands, `^^` and cleanup blocks together, over every run in
  which nothing is disturbed;
* `frame_discipline_guard` — a run in which a `^^` loses its value.
-/

namespace Quoin.Control

open Trans Resumable

variable {T : Sig} {h : Host T} {c : Config T} {d : Nat} {b : Block T} {fetch : Fetch T}
  {budget : Nat → Nat} {others : Others T}

/-! ## What happens to an activation -/

/-- The loop of a protected block with the cleanup `b` is innermost, and has been entered; `d`
activations are below the native that protects it. -/
def Config.Protects (d : Nat) (b : Block T) (c : Config T) : Prop :=
  ∃ l q n k rest, c.activations = .loop l :: .waiting q n k :: rest ∧ q.guarded = some b ∧
    l.entered = true ∧ rest.length = d

/-- The loop of a cleanup block is innermost, and has executed nothing. -/
def Config.AtCleanup (d : Nat) (l : Loop T) (c : Config T) : Prop :=
  ∃ low after target operands n context m k rest, c.mode = .looping ∧
    c.activations = .loop l ::
      .waiting (.nested (.cleanup low after target operands) n context) m k :: rest ∧
    rest.length = d ∧ l.entered = false

/-- The next step executes the first instruction of `b`, the cleanup block of a native that has `d`
activations below. -/
def Config.CleansUp (others : Others T) (d : Nat) (b : Block T) (c : Config T) : Prop :=
  ∃ l, c.AtCleanup d l ∧ Enters b l.initialFrameCount c.vm ∧
    (c.resumed others).vm.cancelCurrent = false

/-- The task is cancelled when a cleanup block is about to be begun. -/
def Config.StopsCleanup (others : Others T) (c : Config T) : Prop :=
  ∃ d l, c.AtCleanup d l ∧ (c.resumed others).vm.cancelCurrent = true

/-- Each activation that waits goes on as its code does. -/
def Waits : List (Activation T) → Prop
  | [] => True
  | .loop _ :: rest => Waits rest
  | .waiting q _ k :: rest =>
    (∀ b, q.guarded = some b → ∀ a s, s.depth = rest.length → Due rest.length b (k a s)) ∧
    (∀ a s, s.depth = rest.length → Owes rest.length (k a s)) ∧ Waits rest

theorem due_owes {α : Type} {r : Code T α} (hr : Due d b r) : Owes d r := by
  induction r with
  | done a s => exact hr.elim
  | ask q s k ih =>
    cases q with
    | nested site n context =>
      cases site with
      | cleanup low after target operands =>
        intro a s' hDepth
        obtain ⟨r', s'', hEq, hDepth'⟩ := hr.2 a s' hDepth
        rw [hEq]
        exact hDepth'
      | handler => exact fun a s' hDepth => ih a s' (hr a s' hDepth)
      | _ => exact hr.elim
    | _ => exact hr.elim

/-- What is asked is pushed on the activations; what is done is handed to them. -/
theorem settle_activations (r : Code T (Result T)) :
    ∃ pre, (c.settle r).activations = pre ++ c.activations ∧
      (pre = [] → ∃ r', (c.settle r).mode = .returning r') := by
  cases r with
  | done r vm => exact ⟨[], rfl, fun _ => ⟨r, rfl⟩⟩
  | ask q vm k =>
    cases q with
    | nested site n context => exact ⟨[.loop _, .waiting _ n k], rfl, by simp⟩
    | call site callee receiver args window => exact ⟨[.waiting _ _ k], rfl, by simp⟩
    | unwind target ret home => exact ⟨[.waiting _ _ k], rfl, by simp⟩

theorem waits_settle {r : Code T (Result T)} (hw : Waits c.activations)
    (hr : Owes c.activations.length r) : Waits (c.settle r).activations := by
  cases r with
  | done r vm => exact hw
  | ask q vm k =>
    have hWaiting (n : Nat) : Waits (.waiting q n k :: c.activations) := by
      unfold Owes at hr
      cases hq : q.guarded with
      | some b =>
        rw [hq] at hr
        refine ⟨fun b' hb' a s hDepth => ?_, fun a s hDepth => due_owes (hr a s hDepth), hw⟩
        obtain rfl := Option.some.inj (hq.symm.trans hb')
        exact hr a s hDepth
      | none =>
        rw [hq] at hr
        refine ⟨fun b hb => ?_, hr, hw⟩
        rw [hq] at hb
        contradiction
    cases q with
    | nested site n context => exact hWaiting n
    | call site callee receiver args window => exact hWaiting vm.frames.length
    | unwind target ret home => exact hWaiting vm.frames.length

theorem waits_dispatch {f : Frame T} {bytecode : Bytecode T} (hw : Waits c.activations) :
    Waits (c.dispatch h f bytecode).activations := by
  unfold Config.dispatch
  exact waits_settle hw (owing_dispatchOne (c.vm.atDepth c.activations.length))

theorem waits_turn {l : Loop T} {rest : List (Activation T)} (hw : Waits (.loop l :: rest))
    (hc : c.activations = .loop l :: rest) : Waits (c.turn h fetch l rest).activations := by
  have hRest : Waits rest := hw
  unfold Config.turn
  split
  · exact hRest
  · split
    · exact hRest
    · split
      · rw [hc]
        exact hw
      · exact waits_dispatch hRest

theorem waits_step (hw : Waits c.activations) :
    Waits (c.step h fetch budget others).activations := by
  -- by what the machine does next
  obtain ⟨vm, activations, driver, mode, clock, executed⟩ := c
  cases mode with
  | stopped r => exact hw
  | performing q => exact waits_settle hw (owing_perform q (vm.atDepth activations.length))
  | looping =>
    cases activations with
    | nil =>
      show Waits (Config.driverTurn h fetch _).activations
      unfold Config.driverTurn
      split
      · exact hw
      · split
        · exact hw
        · exact waits_dispatch hw
    | cons a rest =>
      cases a with
      | loop l => exact waits_turn hw rfl
      | waiting q frames k => exact hw
  | returning r =>
    cases activations with
    | nil =>
      show Waits (Config.driverReceive h budget _ r).activations
      unfold Config.driverReceive
      split
      · split <;> exact hw
      · split <;> exact hw
      · exact hw
      · exact hw
    | cons a rest =>
      cases a with
      | loop l =>
        have hRest : Waits rest := hw
        show Waits (Config.receive h _ l rest r).activations
        unfold Config.receive
        split
        · exact hw
        · split
          · exact hRest
          · exact hw
        · exact hRest
        · exact hRest
        · exact hRest
      | waiting q frames k =>
        obtain ⟨-, hOwes, hRest⟩ := hw
        exact waits_settle hRest (hOwes _ _ rfl)

/-- A loop that goes on has been entered. -/
theorem turn_entered {l : Loop T} {tail : List (Activation T)} {f : Frame T}
    {frames : List (Frame T)} (hMore : l.initialFrameCount < c.vm.frames.length)
    (hNotCancelled : c.vm.cancelCurrent = false) (hFrames : c.vm.frames = f :: frames) :
    ∃ pre l', (c.turn h fetch l tail).activations = pre ++ .loop l' :: tail ∧
      l'.entered = true := by
  have hTurn : c.turn h fetch l tail = { c with
      activations := .loop
        { l with
          entered := true
          cache := some (c.vm.frames.length, fetch l.cache c.vm f)
          executing := some (nextInstruction c.vm f (fetch l.cache c.vm f)) } ::
            tail }.dispatch h f (fetch l.cache c.vm f) := by
    unfold Config.turn
    rw [if_neg (by omega), if_neg (by simp [hNotCancelled])]
    split
    · rename_i hNone
      rw [hNone] at hFrames
      contradiction
    · rename_i f' frames' hFrames'
      obtain ⟨rfl, -⟩ := List.cons.inj (hFrames'.symm.trans hFrames)
      rfl
  rw [hTurn]
  unfold Config.dispatch
  generalize (dispatchOne h _ f).run _ = r
  obtain ⟨pre, hPre, -⟩ := settle_activations (c := _) r
  exact ⟨pre, _, hPre, rfl⟩

theorem turn_activations {l : Loop T} {tail : List (Activation T)} :
    (∃ pre l', (c.turn h fetch l tail).activations = pre ++ .loop l' :: tail ∧
      l'.entered = true) ∨
      (c.turn h fetch l tail).activations = tail ∧
        ∃ r, (c.turn h fetch l tail).mode = .returning r := by
  by_cases hDone : c.vm.frames.length ≤ l.initialFrameCount
  · refine .inr ?_
    unfold Config.turn
    rw [if_pos hDone]
    exact ⟨rfl, _, rfl⟩
  · cases hCancelled : c.vm.cancelCurrent with
    | true =>
      refine .inr ?_
      unfold Config.turn
      rw [if_neg hDone, if_pos hCancelled]
      exact ⟨rfl, _, rfl⟩
    | false =>
      cases hFrames : c.vm.frames with
      | nil => simp [hFrames] at hDone
      | cons f frames => exact .inl (turn_entered (by omega) hCancelled hFrames)

variable (h fetch budget others) in
/-- The innermost activation stays, perhaps with others above it, a loop having been entered if it
is not as it was; or it is over, and, if nothing is asked for then, what it comes to is handed to
the next. -/
theorem step_activations {a : Activation T} {tail : List (Activation T)}
    (hc : c.activations = a :: tail) :
    ∃ pre, (∃ a', (c.step h fetch budget others).activations = pre ++ a' :: tail ∧
        (a' = a ∨ ∃ l', a' = .loop l' ∧ l'.entered = true)) ∨
      (c.step h fetch budget others).activations = pre ++ tail ∧
        (pre = [] → ∃ r, (c.step h fetch budget others).mode = .returning r) ∧
        ((∃ l, a = .loop l) → pre = []) := by
  obtain ⟨vm, activations, driver, mode, clock, executed⟩ := c
  obtain rfl : activations = a :: tail := hc
  -- by what the machine was about to do
  cases mode with
  | stopped r => exact ⟨[], .inl ⟨a, rfl, .inl rfl⟩⟩
  | performing q =>
    obtain ⟨pre, hPre, -⟩ := settle_activations (c := ⟨vm, a :: tail, driver, .performing q, clock,
      executed⟩) ((perform h q).run (vm.atDepth (a :: tail).length))
    exact ⟨pre, .inl ⟨a, hPre, .inl rfl⟩⟩
  | looping =>
    cases a with
    | waiting q frames k => exact ⟨[], .inl ⟨_, rfl, .inl rfl⟩⟩
    | loop l =>
      -- a loop turns: it goes on or returns, and nothing below it is touched
      have hTurn := @turn_activations T h (Config.resumed others ⟨vm, .loop l :: tail, driver,
        .looping, clock, executed⟩) fetch l tail
      rcases hTurn with ⟨pre, l', hPre, hEntered⟩ | ⟨hTail, hMode⟩
      · exact ⟨pre, .inl ⟨.loop l', hPre, .inr ⟨l', rfl, hEntered⟩⟩⟩
      · exact ⟨[], .inr ⟨hTail, fun _ => hMode, fun _ => rfl⟩⟩
  | returning r =>
    cases a with
    -- a result comes to a loop: it goes on with a value, or passes it on
    | loop l =>
      show ∃ pre, (∃ a', (Config.receive h _ l tail r).activations = _ ∧ _) ∨
        (Config.receive h _ l tail r).activations = _ ∧
          (_ → ∃ r', (Config.receive h _ l tail r).mode = _) ∧ _
      unfold Config.receive
      split
      · exact ⟨[], .inl ⟨_, rfl, .inl rfl⟩⟩
      · split
        · exact ⟨[], .inr ⟨rfl, fun _ => ⟨_, rfl⟩, fun _ => rfl⟩⟩
        · exact ⟨[], .inl ⟨_, rfl, .inl rfl⟩⟩
      · exact ⟨[], .inr ⟨rfl, fun _ => ⟨_, rfl⟩, fun _ => rfl⟩⟩
      · exact ⟨[], .inr ⟨rfl, fun _ => ⟨_, rfl⟩, fun _ => rfl⟩⟩
      · exact ⟨[], .inr ⟨rfl, fun _ => ⟨_, rfl⟩, fun _ => rfl⟩⟩
    | waiting q frames k =>
      -- a result comes to native code, which goes on or ends
      obtain ⟨pre, hPre, hMode⟩ := settle_activations (c := ⟨vm, tail, driver, .returning r, clock,
        executed⟩) (k r (vm.atDepth tail.length))
      exact ⟨pre, .inr ⟨hPre, hMode, by simp⟩⟩

/-! ## Due, begun, done -/

/-- The native waits, under other activations; with none above, it is about to be handed what the
one that was has come to. -/
def Config.Under (c : Config T) (pre : List (Activation T)) (w : Activation T)
    (rest : List (Activation T)) : Prop :=
  c.activations = pre ++ w :: rest ∧ (pre = [] → ∃ r, c.mode = .returning r)

/-- The cleanup block has still to be begun. -/
def Config.CleanupDue (d : Nat) (b : Block T) (c : Config T) : Prop :=
  ∃ pre q n k rest, c.Under pre (.waiting q n k) rest ∧ rest.length = d ∧
    (∀ low after target operands, q.site ≠ .cleanup low after target operands) ∧
    ∀ a s, s.depth = d → Due d b (k a s)

/-- It is about to be begun, and the native is done after. -/
def Config.CleanupNext (d : Nat) (b : Block T) (c : Config T) : Prop :=
  ∃ l low after target operands n context m k rest, c.mode = .looping ∧
    c.activations = .loop l ::
      .waiting (.nested (.cleanup low after target operands) n context) m k :: rest ∧
    rest.length = d ∧ l.entered = false ∧ Enters b l.initialFrameCount c.vm ∧
    ∀ a s, s.depth = d → ∃ r s', k a s = .done r s' ∧ s'.depth = d

/-- It has been begun. -/
def Config.CleanupBegun (d : Nat) (c : Config T) : Prop :=
  ∃ pre q n k rest, c.Under pre (.waiting q n k) rest ∧ rest.length = d ∧
    (pre = [] ∨ ∃ pre' l, pre = pre' ++ [.loop l] ∧ l.entered = true) ∧
    ∀ a s, s.depth = d → ∃ r s', k a s = .done r s' ∧ s'.depth = d

variable (h fetch budget others) in
/-- Under other activations, one stays where it is; the one just above is a loop, if it was. -/
theorem under_step {pre : List (Activation T)} {a w : Activation T} {rest : List (Activation T)}
    (hc : c.activations = pre ++ a :: w :: rest) :
    ∃ pre', (c.step h fetch budget others).Under pre' w rest ∧
      ((∃ l, a = .loop l) → pre' = [] ∨
        ∃ pre'' l, pre' = pre'' ++ [.loop l] ∧ (l.entered = true ∨ a = .loop l)) := by
  cases pre with
  | nil =>
    obtain ⟨pre', hStays | ⟨hOver, hMode, hLoop⟩⟩ := step_activations h fetch budget others hc
    · obtain ⟨a', hAct, ha'⟩ := hStays
      refine ⟨pre' ++ [a'], ⟨by rw [hAct]; simp, by simp⟩, ?_⟩
      rintro ⟨l, rfl⟩
      rcases ha' with rfl | ⟨l', rfl, hEntered⟩
      · exact .inr ⟨pre', l, rfl, .inr rfl⟩
      · exact .inr ⟨pre', l', rfl, .inl hEntered⟩
    · refine ⟨pre', ⟨hOver, hMode⟩, ?_⟩
      exact fun hIsLoop => .inl (hLoop hIsLoop)
  | cons y pre =>
    have hc : c.activations = y :: (pre ++ a :: w :: rest) := hc
    have hBelow (p : List (Activation T)) : (∃ l, a = .loop l) → p ++ [a] = [] ∨
        ∃ pre'' l, p ++ [a] = pre'' ++ [.loop l] ∧ (l.entered = true ∨ a = .loop l) := by
      rintro ⟨l, rfl⟩
      exact .inr ⟨p, l, rfl, .inr rfl⟩
    obtain ⟨pre', hStays | ⟨hOver, hMode, -⟩⟩ := step_activations h fetch budget others hc
    · obtain ⟨y', hAct, -⟩ := hStays
      refine ⟨pre' ++ y' :: pre ++ [a], ⟨?_, by simp⟩, hBelow _⟩
      rw [hAct]
      simp
    · refine ⟨pre' ++ pre ++ [a], ⟨?_, by simp⟩, hBelow _⟩
      rw [hOver]
      simp

theorem due_step (hDue : c.CleanupDue d b) :
    (c.step h fetch budget others).CleanupDue d b ∨
      (c.step h fetch budget others).CleanupNext d b := by
  obtain ⟨pre, q, n, k, rest, ⟨hAct, hMode⟩, hDepth, hSite, hk⟩ := hDue
  rcases List.eq_nil_or_concat pre with rfl | ⟨pre, a, rfl⟩
  · -- the native goes on
    obtain ⟨r, hReturning⟩ := hMode rfl
    have hAct : c.activations = .waiting q n k :: rest := hAct
    have hStep : c.step h fetch budget others =
        { c with activations := rest }.settle (k r (c.vm.atDepth rest.length)) := by
      unfold Config.step
      rw [hReturning, hAct]
    have hRest : Due d b (k r (c.vm.atDepth rest.length)) := hk _ _ hDepth
    rw [hStep]
    generalize k r (c.vm.atDepth rest.length) = tree at hRest
    cases tree with
    | done r vm => exact hRest.elim
    | ask q' vm k' =>
      cases q' with
      | nested site n' context =>
        cases site with
        | cleanup low after target operands =>
          obtain ⟨hEnters, hDone⟩ := hRest
          exact .inr ⟨_, low, after, target, operands, n', context, n', k', rest, rfl, rfl, hDepth,
            rfl, hEnters, hDone⟩
        | handler =>
          refine .inl ⟨[.loop _], _, n', k', rest, ⟨rfl, by simp⟩, hDepth, ?_, hRest⟩
          intro low after target operands hEq
          cases hEq
        | _ => exact hRest.elim
      | _ => exact hRest.elim
  · have hAct : c.activations = pre ++ a :: .waiting q n k :: rest := by rw [hAct]; simp
    obtain ⟨pre', hUnder, -⟩ := under_step h fetch budget others hAct
    exact .inl ⟨pre', q, n, k, rest, hUnder, hDepth, hSite, hk⟩

theorem next_step (hNext : c.CleanupNext d b) (hNot : (c.resumed others).vm.cancelCurrent = false) :
    (c.step h fetch budget others).CleanupBegun d := by
  obtain ⟨l, low, after, target, operands, n, context, m, k, rest, hMode, hAct, hDepth, hEntered,
    hEnters, hk⟩ := hNext
  obtain ⟨f, frames, hFrames, -, -, hCount⟩ := hEnters
  have hStep : c.step h fetch budget others = (c.resumed others).turn h fetch l
      (.waiting (.nested (.cleanup low after target operands) n context) m k :: rest) := by
    unfold Config.step
    rw [hMode, hAct]
  have hFrames' : (c.resumed others).vm.frames = f :: frames := hFrames
  have hMore : l.initialFrameCount < (c.resumed others).vm.frames.length := by
    rw [hFrames', List.length_cons]
    omega
  have hTurn : ∃ pre l', ((c.resumed others).turn h fetch l
      (.waiting (.nested (.cleanup low after target operands) n context) m k ::
        rest)).activations = pre ++ .loop l' ::
          .waiting (.nested (.cleanup low after target operands) n context) m k :: rest ∧
      l'.entered = true := turn_entered hMore hNot hFrames'
  obtain ⟨pre, l', hPre, hEntered'⟩ := hTurn
  refine ⟨pre ++ [.loop l'], .nested (.cleanup low after target operands) n context, m, k, rest,
    ⟨?_, by simp⟩, hDepth, .inr ⟨pre, l', rfl, hEntered'⟩, hk⟩
  rw [hStep, hPre]
  simp

theorem begun_step (hBegun : c.CleanupBegun d) :
    (c.step h fetch budget others).CleanupBegun d ∨
      (c.step h fetch budget others).activations.length = d := by
  obtain ⟨pre, q, n, k, rest, ⟨hAct, hMode⟩, hDepth, hLoop, hk⟩ := hBegun
  rcases hLoop with rfl | ⟨pre, l, rfl, hEntered⟩
  · obtain ⟨r, hReturning⟩ := hMode rfl
    have hAct : c.activations = .waiting q n k :: rest := hAct
    have hStep : c.step h fetch budget others =
        { c with activations := rest }.settle (k r (c.vm.atDepth rest.length)) := by
      unfold Config.step
      rw [hReturning, hAct]
    obtain ⟨r', s', hDone, -⟩ := hk r (c.vm.atDepth rest.length) hDepth
    rw [hStep, hDone]
    exact .inr hDepth
  · have hAct : c.activations = pre ++ .loop l :: .waiting q n k :: rest := by rw [hAct]; simp
    obtain ⟨pre', hUnder, hAbove⟩ := under_step h fetch budget others hAct
    refine .inl ⟨pre', q, n, k, rest, hUnder, hDepth, ?_, hk⟩
    rcases hAbove ⟨l, rfl⟩ with hNil | ⟨pre'', l', hPre, hEntered' | hSame⟩
    · exact .inl hNil
    · exact .inr ⟨pre'', l', hPre, hEntered'⟩
    · injection hSame with hSame
      exact .inr ⟨pre'', l', hPre, hSame ▸ hEntered⟩

/-- Activations at one depth. -/
theorem same_depth {pre pre' rest rest' : List (Activation T)} {w w' : Activation T}
    (hEq : pre ++ w :: rest = pre' ++ w' :: rest') (hDepth : rest.length = rest'.length) :
    pre = pre' ∧ w = w' := by
  have hSplit := List.append_inj' hEq (by simp [hDepth])
  exact ⟨hSplit.1, (List.cons.inj hSplit.2).1⟩

theorem not_cleansUp_of_due (hDue : c.CleanupDue d b) : ¬ c.CleansUp others d b := by
  obtain ⟨pre, q, n, k, rest, ⟨hAct, -⟩, hDepth, hSite, -⟩ := hDue
  rintro ⟨l, ⟨low, after, target, operands, n', context, m, k', rest', -, hAct', hDepth', -⟩, -⟩
  have hEq : pre ++ .waiting q n k :: rest = [.loop l] ++
      .waiting (.nested (.cleanup low after target operands) n' context) m k' :: rest' :=
    hAct.symm.trans hAct'
  obtain ⟨-, hSame⟩ := same_depth hEq (hDepth.trans hDepth'.symm)
  injection hSame with hq
  exact hSite low after target operands (congrArg Request.site hq)

theorem not_cleansUp_of_begun (hBegun : c.CleanupBegun d) : ¬ c.CleansUp others d b := by
  obtain ⟨pre, q, n, k, rest, ⟨hAct, -⟩, hDepth, hLoop, -⟩ := hBegun
  rintro ⟨l, ⟨low, after, target, operands, n', context, m, k', rest', -, hAct', hDepth',
    hEntered⟩, -⟩
  have hEq : pre ++ .waiting q n k :: rest = [.loop l] ++
      .waiting (.nested (.cleanup low after target operands) n' context) m k' :: rest' :=
    hAct.symm.trans hAct'
  obtain ⟨rfl, -⟩ := same_depth hEq (hDepth.trans hDepth'.symm)
  rcases hLoop with hNil | ⟨pre', l', hPre, hEntered'⟩
  · contradiction
  · have hLast : l = l' := by
      have hCount := congrArg List.length hPre
      have hNil : pre' = [] := by
        simp only [List.length_append, List.length_cons, List.length_nil] at hCount
        exact List.eq_nil_of_length_eq_zero (by omega)
      rw [hNil] at hPre
      injection hPre with hHead
      injection hHead
    rw [hLast, hEntered'] at hEntered
    contradiction

theorem cleansUp_of_next (hNext : c.CleanupNext d b)
    (hNot : (c.resumed others).vm.cancelCurrent = false) : c.CleansUp others d b := by
  obtain ⟨l, low, after, target, operands, n, context, m, k, rest, hMode, hAct, hDepth, hEntered,
    hEnters, -⟩ := hNext
  exact ⟨l, ⟨low, after, target, operands, n, context, m, k, rest, hMode, hAct, hDepth, hEntered⟩,
    hEnters, hNot⟩

theorem due_of_protects (hw : Waits c.activations) (hc : c.Protects d b) : c.CleanupDue d b := by
  obtain ⟨l, q, n, k, rest, hAct, hq, -, hDepth⟩ := hc
  rw [hAct] at hw
  have hDue : ∀ a s, s.depth = rest.length → Due rest.length b (k a s) := hw.1 b hq
  refine ⟨[.loop l], q, n, k, rest, ⟨hAct, by simp⟩, hDepth, ?_, hDepth ▸ hDue⟩
  intro low after target operands hSite
  cases q with
  | nested site n context =>
    have hSite : site = .cleanup low after target operands := hSite
    subst hSite
    contradiction
  | call site callee receiver args window => contradiction
  | unwind target ret home => contradiction

/-! ## Over a run -/

theorem waits_batched (hc : c.Fresh) (n : Nat) :
    Waits (c.batched h budget others n).activations := by
  induction n with
  | zero =>
    show Waits c.activations
    rw [hc.activations]
    trivial
  | succ n ih =>
    rw [batched_succ]
    exact waits_step ih

/-- A time in a span at which something holds, and no other. -/
def Once (p : Nat → Prop) (m n : Nat) : Prop := ∃! i, (m ≤ i ∧ i < n) ∧ p i

theorem once_later {p : Nat → Prop} {m n : Nat} (hOnce : Once p m n) (hNot : ¬ p n) :
    Once p m (n + 1) := by
  obtain ⟨i, ⟨⟨hm, hn⟩, hp⟩, hOnly⟩ := hOnce
  refine ⟨i, ⟨⟨hm, by omega⟩, hp⟩, ?_⟩
  rintro j ⟨⟨hm', hn'⟩, hp'⟩
  have hEarlier : j ≠ n := fun hEq => hNot (hEq ▸ hp')
  exact hOnly j ⟨⟨hm', by omega⟩, hp'⟩

theorem once_now {p : Nat → Prop} {m n : Nat} (hNone : ∀ i, m ≤ i → i < n → ¬ p i) (hmn : m ≤ n)
    (hp : p n) : Once p m (n + 1) := by
  refine ⟨n, ⟨⟨hmn, by omega⟩, hp⟩, ?_⟩
  rintro j ⟨⟨hm, hn⟩, hp'⟩
  by_contra hOther
  exact hNone j hm (by omega) hp'

/-- A `finally` block whose native is over by `n`, its protected block having been entered, has
been begun once since. -/
def CleansUpOnce (others : Others T) (run : Nat → Config T) (n : Nat) : Prop :=
  ∀ d b m m', m ≤ m' → m' ≤ n → (run m).Protects d b →
    (∀ i, m ≤ i → i < m' → d < (run i).activations.length) →
    (run m').activations.length ≤ d → Once (fun i => (run i).CleansUp others d b) m m'

/-- Where the cleanup of the native with `d` activations below stands, begun since `m` or not. -/
inductive Cleaning (others : Others T) (run : Nat → Config T) (d : Nat) (b : Block T) (m i : Nat) :
    Prop where
  | due : (∀ j, m ≤ j → j < i → ¬ (run j).CleansUp others d b) →
    (run i).CleanupDue d b ∨ (run i).CleanupNext d b → Cleaning others run d b m i
  | begun : Once (fun j => (run j).CleansUp others d b) m i → (run i).CleanupBegun d →
    Cleaning others run d b m i
  | done : Once (fun j => (run j).CleansUp others d b) m i → (run i).activations.length = d →
    Cleaning others run d b m i

theorem cleaning_succ {run : Nat → Config T} {m i : Nat} (hmi : m ≤ i)
    (hStep : run (i + 1) = (run i).step h fetch budget others)
    (hNot : ¬ (run i).StopsCleanup others) (hDeep : d < (run i).activations.length)
    (hc : Cleaning others run d b m i) : Cleaning others run d b m (i + 1) := by
  cases hc with
  | due hNone hAt =>
    rcases hAt with hDue | hNext
    · have hNone' : ∀ j, m ≤ j → j < i + 1 → ¬ (run j).CleansUp others d b := by
        intro j hm hj
        rcases Nat.lt_succ_iff_lt_or_eq.mp hj with hEarlier | rfl
        · exact hNone j hm hEarlier
        · exact not_cleansUp_of_due hDue
      exact .due hNone' (hStep ▸ due_step hDue)
    · have hGoesOn : ((run i).resumed others).vm.cancelCurrent = false := by
        obtain ⟨l, low, after, target, operands, k, context, p, q, rest, hMode, hAct, hDepth,
          hEntered, -⟩ := hNext
        by_contra hCancelled
        refine hNot ⟨d, l, ⟨low, after, target, operands, k, context, p, q, rest, hMode, hAct,
          hDepth, hEntered⟩, ?_⟩
        simpa using hCancelled
      have hOnce : Once (fun j => (run j).CleansUp others d b) m (i + 1) :=
        once_now hNone hmi (cleansUp_of_next hNext hGoesOn)
      exact .begun hOnce (hStep ▸ next_step hNext hGoesOn)
  | begun hOnce hBegun =>
    have hOnce' : Once (fun j => (run j).CleansUp others d b) m (i + 1) :=
      once_later hOnce (not_cleansUp_of_begun hBegun)
    have hNext : (run (i + 1)).CleanupBegun d ∨ (run (i + 1)).activations.length = d :=
      hStep ▸ begun_step hBegun
    rcases hNext with hStill | hOver
    · exact .begun hOnce' hStill
    · exact .done hOnce' hOver
  | done hOnce hOver => omega

/-- Until its native is over, a cleanup is due or begun. -/
theorem cleaning_over {run : Nat → Config T} {m i : Nat} (hc : Cleaning others run d b m i)
    (hOver : (run i).activations.length ≤ d) :
    Once (fun j => (run j).CleansUp others d b) m i := by
  cases hc with
  | due hNone hAt =>
    rcases hAt with ⟨pre, q, n, k, rest, ⟨hAct, -⟩, hDepth, -⟩ |
      ⟨l, low, after, target, operands, n, context, frames, k, rest, -, hAct, hDepth, -⟩
    · simp only [hAct, List.length_append, List.length_cons] at hOver
      omega
    · simp only [hAct, List.length_cons] at hOver
      omega
  | begun hOnce hBegun => exact hOnce
  | done hOnce hLength => exact hOnce

theorem cleanup_once {n : Nat} (hc : c.Fresh)
    (hNot : ∀ m < n, ¬ (c.batched h budget others m).StopsCleanup others) :
    CleansUpOnce others (fun i => c.batched h budget others i) n := by
  intro d b m m' hmm' hn hProtects hDeep hOver
  have hCleaning : ∀ i, m ≤ i → i ≤ m' →
      Cleaning others (fun i => c.batched h budget others i) d b m i := by
    intro i hmi
    induction i, hmi using Nat.le_induction with
    | base =>
      intro _
      exact .due (by omega) (.inl (due_of_protects (waits_batched hc m) hProtects))
    | succ i hmi ih =>
      intro hi
      exact cleaning_succ hmi batched_succ (hNot i (by omega)) (hDeep i hmi hi) (ih (by omega))
  exact cleaning_over (hCleaning m' hmm' (Nat.le_refl _)) hOver

namespace Guarding

inductive Value where
  | nil
  | num (n : Nat)
  | closure (addr : Nat)
deriving DecidableEq

inductive Op where
  | nil
  | num (n : Nat)
  | closure (template : Nat)
  /-- The argument of the block. -/
  | arg
  | pop
  | send (selector : String) (numArgs : Nat)
deriving DecidableEq

/-- The heap is the closures: their templates, and the method each was written in. -/
def sig : Sig := ⟨Value, Value, Op, List (Nat × Option FrameId), String⟩

/-- `7 + nil.m`, where `m -> { { 1 }.finally:{ 2 }; nil.c; nil.foo:{ ^^nil } }`, `c` is compiled and
is `c -> { { ^^3 }.value }`, and `foo:` has the guard `{ |x| x.value }`: the program, the method
`m`, its blocks, the guard, and `c` with its block. -/
def templates : List (List (Instruction sig)) :=
  [[.compute (.num 7) 0, .compute .nil 0, .compute (.send "m" 0) 0, .compute (.send "+" 1) 0, .ret],
    [.compute (.closure 2) 0, .compute (.closure 3) 0, .compute (.send "finally:" 1) 0,
      .compute .pop 0, .compute .nil 0, .compute (.send "c" 0) 0, .compute .pop 0,
      .compute .nil 0, .compute (.closure 4) 0, .compute (.send "foo:" 1) 0, .ret],
    [.compute (.num 1) 0, .ret],
    [.compute (.num 2) 0, .ret],
    [.compute .nil 0, .methodReturn],
    [.compute .arg 0, .compute (.send "value" 0) 0, .ret],
    [.compute (.closure 7) 0, .compute (.send "value" 0) 0, .ret],
    [.compute (.num 3) 0, .methodReturn]]

/-- A block of the program that is not in another. -/
def top (template : Nat) : Block sig := ⟨templates.getD template [], false, none, .nil, []⟩

def block? : Value → List (Nat × Option FrameId) → Option (Block sig)
  | .closure addr, heap => do
    let (template, home) ← heap[addr]?
    return ⟨← templates[template]?, true, home, .nil, []⟩
  | _, _ => none

def compute : Op → Frame sig → List (Nat × Option FrameId) →
    Except (Fault sig) (Effect sig) × List (Nat × Option FrameId)
  | .nil, _, heap => (.ok (.next [.nil]), heap)
  | .num n, _, heap => (.ok (.next [.num n]), heap)
  | .closure template, f, heap =>
    (.ok (.next [.closure heap.length]), heap ++ [(template, f.enclosingMethodId)])
  | .arg, f, heap => (.ok (.next [f.env]), heap)
  | .pop, _, heap => (.ok (.next []), heap)
  | .send selector numArgs, _, heap => (.ok (.send [] selector numArgs), heap)

/-- `finally:`. -/
def finallyOf (receiver : Value) (args : List Value) (heap : List (Nat × Option FrameId)) :
    Native sig :=
  match block? receiver heap, block? (args.headD .nil) heap with
  | some b, some cleanup => .protect b [] (some cleanup) heap
  | _, _ => .done (.error (.other "Block expected")) heap

/-- The code of `c`: it makes the closure, with the invocation as its home, and runs it. -/
def compiled : AotEntry sig where
  nScratch := 1
  materializesNlr := true
  admits _ _ heap := (true, heap)
  code _ _ home heap :=
    .run (.executeBlock ⟨templates.getD 7 [], true, home, .nil, []⟩ [] none) heap fun v heap =>
      .done (.ok v) heap

def lookup (selector : String) (args : List Value) (heap : List (Nat × Option FrameId)) :
    Lookup sig :=
  if selector = "m" then .found (some (.block (top 1))) heap
  else if selector = "c" then .found (some (.aotCall (top 6) compiled)) heap
  else if selector = "finally:" then .found (some (.native finallyOf)) heap
  else if selector = "foo:" then
    .guard (top 5) .nil (args.headD .nil) heap fun _ heap => .found none heap
  else .found none heap

def host : Host sig where
  nil := .nil
  isNil v := match v with
    | .nil => true
    | _ => false
  block? := block?
  newEnv _ _ args heap := (args.headD .nil, heap)
  arity op := match op with
    | .pop => 1
    | _ => 0
  compute op _ f heap := compute op f heap
  construct _ _ _ heap := ([], .done (.ok .nil) heap)
  lookup _ selector args heap := lookup selector args heap
  messageNotUnderstood _ _ _ _ := "not understood"
  ensureInstantiable _ _ := .ok ()
  newObject _ heap := (.nil, heap)
  instantiationPlan _ _ heap := ([], heap)
  takePendingClassDef heap := (none, heap)
  unregister _ heap := heap
  exceptionValue _ heap := (.nil, heap)
  clearActiveException heap := heap
  valueMatchesType _ _ _ := true
  stackHeadroom _ := true
  stackExhausted message := message
  message message := message
  typeError _ _ := "type"
  uncaught _ _ := "uncaught"
  annotate f _ := f

/-- The program has just been started. -/
def start : Config sig where
  vm :=
    { frames :=
        [{ id := 0, enclosingMethodId := some 0, block := top 0, ip := 0, env := .nil,
           instantiatingObj := none, receiver := none, stackBase := 0, returnReceiver := false,
           defers := [], unregisterOnDeferFailure := none, floor := [] }]
      stack := []
      nextFrameId := 1
      cancelCurrent := false
      nativeReentryDepth := 0
      depth := 0
      world := [] }
  activations := []
  driver := { calls := 0, steps := 0, cache := none, executing := none }
  mode := .looping
  clock := 0
  executed := []

def noOthers : Others sig := fun _ heap => (heap, false)

def run (n : Nat) : Config sig := start.batched host (fun _ => 256) noOthers n

-- frames can be compared

instance opDecidableEq : DecidableEq sig.Op := inferInstanceAs (DecidableEq Op)

instance valueDecidableEq : DecidableEq sig.V := inferInstanceAs (DecidableEq Value)

instance envDecidableEq : DecidableEq sig.Env := inferInstanceAs (DecidableEq Value)

def instructionCode : Instruction sig → Nat × Option sig.Op × Int
  | .compute op offset => (0, some op, offset)
  | .construct op => (1, some op, 0)
  | .executeBlockWithSelf => (2, none, 0)
  | .ret => (3, none, 0)
  | .methodReturn => (4, none, 0)
  | .yeet => (5, none, 0)

theorem instructionCode_inj {a b : Instruction sig} :
    instructionCode a = instructionCode b ↔ a = b := by
  cases a <;> cases b <;> simp [instructionCode]

instance instructionDecidableEq : DecidableEq (Instruction sig) :=
  fun _ _ => decidable_of_iff _ instructionCode_inj

theorem block_inj {a b : Block sig} : (a.bytecode = b.bytecode ∧ a.isNestedBlock = b.isNestedBlock ∧
    a.enclosingMethodId = b.enclosingMethodId ∧ a.parentEnv = b.parentEnv ∧
    a.paramTypes = b.paramTypes) ↔ a = b := by
  cases a
  cases b
  simp

instance blockDecidableEq : DecidableEq (Block sig) := fun _ _ => decidable_of_iff _ block_inj

theorem deferredCall_inj {a b : DeferredCall sig} : (a.receiver = b.receiver ∧
    a.selector = b.selector ∧ a.args = b.args) ↔ a = b := by
  cases a
  cases b
  simp

instance deferredCallDecidableEq : DecidableEq (DeferredCall sig) :=
  fun _ _ => decidable_of_iff _ deferredCall_inj

theorem frame_inj {a b : Frame sig} : (a.id = b.id ∧ a.enclosingMethodId = b.enclosingMethodId ∧
    a.block = b.block ∧ a.ip = b.ip ∧ a.env = b.env ∧ a.instantiatingObj = b.instantiatingObj ∧
    a.receiver = b.receiver ∧ a.stackBase = b.stackBase ∧ a.returnReceiver = b.returnReceiver ∧
    a.defers = b.defers ∧ a.unregisterOnDeferFailure = b.unregisterOnDeferFailure ∧
    a.floor = b.floor) ↔ a = b := by
  cases a
  cases b
  simp

instance frameDecidableEq : DecidableEq (Frame sig) := fun _ _ => decidable_of_iff _ frame_inj

end Guarding

/-! ## What can be computed -/

/-- The frames above a compiled home are the first of those there are. -/
theorem homed_some {K : List (Frame T)} {S : List T.V} {target : FrameId} {m : FrameMark T} :
    ((m.frames.map Frame.core <:+ K ∧
      ∀ y ∈ K.take (K.length - (m.frames.map Frame.core).length), y.id ≠ target) ∧
      m.floor <:+ S ∧ Grounded (m.frames.map Frame.core) m.floor) ↔
    Homed K S target (some m) := by
  refine and_congr_left' ⟨?_, ?_⟩
  · rintro ⟨⟨t, rfl⟩, hNot⟩
    refine ⟨t, rfl, ?_⟩
    simpa using hNot
  · rintro ⟨t, rfl, hNot⟩
    refine ⟨List.suffix_append _ _, ?_⟩
    simpa using hNot

section

variable [DecidableEq T.V] [DecidableEq (Frame T)]

instance Grounded.decidable : ∀ (K : List (Frame T)) (S : List T.V), Decidable (Grounded K S)
  | [], _ => isTrue trivial
  | f :: F, S =>
    have := Grounded.decidable F f.floor
    inferInstanceAs (Decidable (f.stackBase = f.floor.length ∧ f.floor <:+ S ∧ Grounded F f.floor))

instance Homed.decidable (K : List (Frame T)) (S : List T.V) (target : FrameId) :
    ∀ home : Option (FrameMark T), Decidable (Homed K S target home)
  | none => inferInstanceAs (Decidable (∃ x ∈ K, x.id = target))
  | some _ => decidable_of_iff _ homed_some

/-- Computes whether an instruction finds its operands, and `^^` its home. -/
def Executing.isProper (h : Host T) (e : Executing T) : Bool :=
  match e.before.frames, e.inst with
  | f :: _, some inst =>
    decide (f.stackBase + inst.operands h ≤ e.before.stack.length) &&
      match inst with
      | .compute op _ =>
        match (h.compute op (e.before.stack.take (h.arity op)) f e.before.world).1 with
        | .ok (.send pushed _ numArgs) =>
          decide (f.stackBase + h.arity op + numArgs + 1 ≤ pushed.length + e.before.stack.length)
        | _ => true
      | .methodReturn =>
        match f.enclosingMethodId with
        | some target =>
          decide (Homed e.before.skel e.before.stack.tail target
            (e.before.frameMarks.find? (·.id = target)))
        | none => true
      | _ => true
  | _, _ => true

theorem Executing.proper_of_isProper {e : Executing T} (he : e.isProper h = true) : e.Proper h := by
  obtain ⟨before, inst⟩ := e
  refine ⟨?_, ?_, ?_⟩
  · intro f F inst' hFrames hInst
    simp only at hFrames hInst
    simp only [Executing.isProper, hFrames, hInst, Bool.and_eq_true, decide_eq_true_eq] at he
    exact he.1
  · intro f F op offset pushed selector numArgs w hFrames hInst hSend
    simp only at hFrames hInst hSend
    simp only [Executing.isProper, hFrames, hInst, Bool.and_eq_true, hSend, decide_eq_true_eq] at he
    exact he.2
  · intro f F target hFrames hInst hTarget
    simp only at hFrames hInst hTarget
    simp only [Executing.isProper, hFrames, hInst, Bool.and_eq_true, hTarget,
      decide_eq_true_eq] at he
    exact he.2

end

/-- Computes that no home a `^^` can have come to leaves so many operands. -/
def Executing.misses (e : Executing T) (count : Nat) : Bool :=
  match e.inst, e.before.frames with
  | some .methodReturn, f :: _ =>
    (e.before.frameMarks.all fun m => decide (m.floor.length + 1 ≠ count)) &&
      e.before.frames.all fun x =>
        decide (f.enclosingMethodId ≠ some x.id) || decide (x.floor.length + 1 ≠ count)
  | _, _ => true

theorem not_returned_of_misses {e : Executing T} {home : Option FrameId} {K : List (Frame T)}
    {S : List T.V} (he : e.misses S.length = true) : ¬ Returned h e home K S := by
  rintro ⟨hInst, f, F, target, hFrames, hTarget, -, hd⟩
  simp only [Executing.misses, hInst, hFrames, Bool.and_eq_true] at he
  cases hFound : e.before.frameMarks.find? (·.id = target) with
  | some m =>
    rw [hFound] at hd
    obtain ⟨-, t, -, -, hStack⟩ := hd
    have hMiss := List.all_eq_true.mp he.1 m (List.mem_of_find?_eq_some hFound)
    rw [hStack] at hMiss
    exact of_decide_eq_true hMiss rfl
  | none =>
    rw [hFound] at hd
    obtain ⟨t, x, hSkel, hId, -, hStack⟩ := hd
    have hx : x ∈ e.before.frames.map Frame.core := by
      rw [show e.before.frames.map Frame.core = e.before.skel from rfl, hSkel]
      simp
    obtain ⟨y, hy, rfl⟩ := List.mem_map.mp hx
    have hMiss := List.all_eq_true.mp he.2 y (hFrames ▸ hy)
    simp only [hTarget, Bool.or_eq_true, decide_eq_true_eq, ne_eq, Option.some.injEq] at hMiss
    rcases hMiss with hOther | hCount
    · exact hOther hId.symm
    · rw [hStack] at hCount
      exact hCount rfl

/-- A `^^` is handed to the driver. -/
def Config.lands (c : Config T) : Bool :=
  match c.mode, c.activations with
  | .returning (.error .nonLocalReturn), [] => true
  | _, _ => false

theorem lands_iff : c.lands = true ↔
    c.mode = .returning (.error .nonLocalReturn) ∧ c.activations = [] := by
  obtain ⟨vm, activations, driver, mode, clock, executed⟩ := c
  unfold Config.lands
  constructor
  · intro hLands
    split at hLands
    · rename_i hMode hNone
      exact ⟨hMode, hNone⟩
    · contradiction
  · rintro ⟨hMode, hNone⟩
    simp only at hMode hNone
    simp [hMode, hNone]

/-- A cleanup's site, but where the value of the protected block is on the stack. -/
def Site.followsError : Site T → Bool
  | .cleanup _ .value .. => false
  | .cleanup .. => true
  | _ => false

/-- Code that lets a `^^` pass, or takes its value. -/
def Request.letsPass (q : Request T) (frames : Nat) (vm : VmState T) : Bool :=
  match q with
  | .unwind _ _ (some _) => true
  | .unwind _ _ none => vm.nlrTarget.isNone
  | .nested (.compiled (some (_, base))) .. =>
    decide (vm.frames.length = frames) && decide (vm.stack.length = base + 1)
  | _ => false

/-- Computes that the next step hands nothing over that could disturb, and that the task is not
cancelled. -/
def Config.quiet (others : Others T) (c : Config T) : Bool :=
  !(c.resumed others).vm.cancelCurrent &&
    match c.mode, c.activations with
    | .returning (.ok _), .waiting q _ _ :: _ => !q.loose && !q.site.followsError
    | .returning (.error .nonLocalReturn), .waiting q frames _ :: _ => q.letsPass frames c.vm
    | .returning (.error .nonLocalReturn), .loop l :: _ =>
      c.vm.nlrTarget.isNone || decide (c.vm.frames.length ≤ l.initialFrameCount)
    | .returning (.error _), _ => false
    | _, _ => true

theorem not_diverts_of_not_follows {s : Site T} {vm : VmState T} (hs : s.followsError = false) :
    ¬ s.Diverts vm := by
  cases s with
  | cleanup low after target operands =>
    cases after with
    | value => exact id
    | _ => contradiction
  | _ => exact id

theorem not_disturbed_of_letsPass {q : Request T} {frames depth : Nat} {vm : VmState T}
    (hq : q.letsPass frames vm = true) :
    ¬ q.Disturbed h frames (vm.atDepth depth) (.error .nonLocalReturn) := by
  unfold Request.letsPass at hq
  split at hq
  · rintro ((hStrays | hCuts) | hOvertakes)
    · exact hStrays
    · exact hCuts
    · exact hOvertakes
  · rintro ((hStrays | hCuts) | hOvertakes)
    · exact hStrays
    · exact hCuts
    · have hSome : vm.nlrTarget.isSome := hOvertakes
      rw [Option.isNone_iff_eq_none.mp hq] at hSome
      contradiction
  · simp only [Bool.and_eq_true, decide_eq_true_eq] at hq
    rintro ((hStrays | hCuts) | hOvertakes)
    · exact hStrays.2.2 hq.1
    · exact hCuts.2 hq.2
    · exact hOvertakes
  · contradiction

theorem not_disturbs_of_quiet (hc : c.quiet others = true) : ¬ c.Disturbs h := by
  unfold Config.quiet at hc
  rintro (⟨r, q, frames, k, rest, hMode, hAct, hDisturbed⟩ | ⟨hMode, hSome, hTop⟩)
  · rw [hMode, hAct] at hc
    cases r with
    | ok status =>
      rcases hDisturbed with hLoose | hDiverts
      · have hLoose : q.loose = true := hLoose
        simp [hLoose] at hc
      · refine not_diverts_of_not_follows ?_ hDiverts
        simp only [Bool.and_eq_true, Bool.not_eq_true'] at hc
        exact hc.2.2
    | error e =>
      cases e with
      | nonLocalReturn => exact not_disturbed_of_letsPass (Bool.and_eq_true_iff.mp hc).2 hDisturbed
      | fault f => simp at hc
  · rcases hTop with hNone | ⟨l, rest, hAct, hLeft⟩
    · rw [hMode, hNone] at hc
      simp at hc
    · rw [hMode, hAct] at hc
      simp only [Bool.and_eq_true, Bool.or_eq_true, decide_eq_true_eq] at hc
      rcases hc.2 with hNone | hLow
      · rw [Option.isNone_iff_eq_none.mp hNone] at hSome
        contradiction
      · omega

theorem not_stops_of_quiet (hc : c.quiet others = true) : ¬ c.StopsCleanup others := by
  rintro ⟨d, l, -, hCancelled⟩
  simp [Config.quiet, hCancelled] at hc

end Quoin.Control
