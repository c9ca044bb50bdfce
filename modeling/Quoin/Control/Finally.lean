import Mathlib
import Quoin.Control.Moves

/-!
# Quoin — a `finally` block is run once

Once the protected block of a `finally:` has been asked for, the native asks for
the cleanup block, once, whatever it is handed meanwhile, and then is done (`Due`).
Nothing else asks for a protected block with a cleanup (`Free`), so this is so of
every activation (`Owes`).

## Results

* `owing_doCatchFinally` — when the protected block has been asked for, the cleanup is due,
  however that block ends;
* `owing_dispatchOne`, `owing_perform` — so it is in all code that the machine runs.
-/

namespace Quoin.Control

open Trans Resumable

variable {T : Sig} {α β : Type} {h : Host T} {vm : VmState T} {d : Nat} {b : Block T}

/-! ## What is still to be run -/

/-- The cleanup block of a request for a protected block. -/
def Request.guarded : Request T → Option (Block T)
  | .nested (.catching _ cleanup) .. => cleanup
  | _ => none

/-- A nested run over `n` frames is about to execute the first instruction of a block. -/
def Enters (b : Block T) (n : Nat) (vm : VmState T) : Prop :=
  ∃ f frames, vm.frames = f :: frames ∧ f.block = b ∧ f.ip = 0 ∧ n = frames.length

/-- The code is going to ask for the cleanup block `b`, once, at the depth `d`; before that, for
handlers at most. -/
def Due (d : Nat) (b : Block T) : Code T α → Prop
  | .done _ _ => False
  | .ask (.nested (.cleanup ..) n _) s k =>
    Enters b n s ∧ ∀ a s', s'.depth = d → ∃ r s'', k a s' = .done r s'' ∧ s''.depth = d
  | .ask (.nested .handler _ _) _ k => ∀ a s', s'.depth = d → Due d b (k a s')
  | _ => False

/-- Whenever the code asks for a protected block with a cleanup, the cleanup is due. -/
def Owes (d : Nat) : Code T α → Prop
  | .done _ s => s.depth = d
  | .ask q _ k =>
    match q.guarded with
    | some b => ∀ a s', s'.depth = d → Due d b (k a s')
    | none => ∀ a s', s'.depth = d → Owes d (k a s')

/-- The code asks for no protected block with a cleanup. -/
def freely (d : Nat) : Contract (Request T) (Result T) (VmState T) where
  fit q _ := q.guarded = none
  rely _ _ _ s' := s'.depth = d

def Free (x : Rust T α) : Prop := ∀ s, wp (freely s.depth) x (fun _ s' => s'.depth = s.depth) s

def Owing (x : Rust T α) : Prop := ∀ s, Owes s.depth (x.run s)

/-! ## Code without a protected block -/

theorem free_bind {x : Rust T α} {f : α → Rust T β} (hx : Free x) (hf : ∀ a, Free (f a)) :
    Free (x >>= f) := by
  intro s
  rw [wp_bind]
  refine wp_mono (hx s) ?_
  rintro (e | a) s' hDepth
  · exact hDepth
  · have hRest := hf a s'
    rw [hDepth] at hRest
    exact hRest

theorem free_pure (a : α) : Free (pure a : Rust T α) := fun _ => rfl

theorem free_look : Free (look : Rust T (VmState T)) := fun _ => rfl

theorem free_update {f : VmState T → VmState T} (hf : ∀ s, (f s).depth = s.depth) :
    Free (update f : Rust T Unit) := hf

theorem free_act {f : VmState T → α × VmState T} (hf : ∀ s, (f s).2.depth = s.depth) :
    Free (act f : Rust T α) := hf

theorem free_fail (e : QuoinError T) : Free (fail e : Rust T α) := fun _ => rfl

theorem free_ofExcept (r : Except (QuoinError T) α) : Free (ofExcept r : Rust T α) := fun _ => rfl

theorem free_attempt {x : Rust T α} (hx : Free x) : Free (attempt x) := by
  intro s
  rw [wp_attempt]
  exact hx s

theorem free_ensuring {x : Rust T α} {f : VmState T → VmState T} (hx : Free x)
    (hf : ∀ s, (f s).depth = s.depth) : Free (ensuring x f) := by
  intro s
  rw [wp_ensuring]
  exact wp_mono (hx s) fun r s' hDepth => (hf s').trans hDepth

theorem free_onError {x : Rust T α} {f : QuoinError T → VmState T → QuoinError T × VmState T}
    (hx : Free x) (hf : ∀ e s, (f e s).2.depth = s.depth) : Free (onError x f) := by
  intro s
  rw [wp_onError]
  refine wp_mono (hx s) ?_
  rintro (e | a) s' hDepth
  · exact (hf e s').trans hDepth
  · exact hDepth

theorem free_ask {q : Request T} (hq : q.guarded = none) : Free (ask q : Rust T (VmStatus T)) :=
  fun _ => wp_ask.mpr ⟨hq, fun _ _ hDepth => hDepth⟩

theorem free_ensure {ok : Bool} {f : Fault T} : Free (ensure ok f) := by
  unfold ensure
  split
  · exact free_pure ()
  · exact free_fail _

theorem free_pop : Free (pop h) := by
  refine free_bind free_look fun vm => ?_
  split
  · exact free_bind (free_update fun _ => rfl) fun _ => free_pure _
  · exact free_fail _

theorem free_popN (n : Nat) : Free (popN h n) := by
  induction n with
  | zero => exact free_pure _
  | succ n ih => exact free_bind free_pop fun v => free_bind ih fun vs => free_pure _

theorem free_popFrame : Free (popFrame : Rust T (Option (Frame T))) := by
  refine free_bind free_look fun vm => ?_
  split
  · exact free_bind (free_update fun _ => rfl) fun _ => free_pure _
  · exact free_pure _

theorem free_reentering {x : Rust T α} (hx : Free x) : Free (reentering h x) := by
  refine free_bind ?_ fun _ => free_ensuring hx fun _ => rfl
  exact free_bind free_look fun _ => free_bind free_ensure fun _ => free_update fun _ => rfl

section

variable {s : Site T} (hs : ∀ handlers cleanup, s ≠ .catching handlers (some cleanup))

include hs

theorem guarded_none {n : Nat} {context : String} :
    (Request.nested s n context).guarded = none := by
  cases s with
  | catching handlers cleanup =>
    cases cleanup with
    | none => rfl
    | some cleanup => exact absurd rfl (hs handlers cleanup)
  | _ => rfl

theorem free_runNested {n : Nat} {context : String} : Free (runNested s n context) :=
  free_bind (free_ask (guarded_none hs)) fun _ => free_pure ()

theorem free_executeBlock {args : List T.V} {self : Option T.V} :
    Free (executeBlock h s b args self) := by
  refine free_bind (free_bind free_look fun _ => free_ensure) fun _ => ?_
  refine free_bind free_look fun vm => free_bind (free_update fun s' => ?_) fun _ =>
    free_bind (free_runNested hs) fun _ => free_pop
  cases self <;> rfl

theorem free_runLookup (l : Lookup T) : Free (runLookup h s l) := by
  induction l with
  | found c w => exact free_bind (free_update fun _ => rfl) fun _ => free_pure _
  | fail f w => exact free_bind (free_update fun _ => rfl) fun _ => free_fail _
  | guard b receiver env w k ih =>
    refine free_bind (free_update fun _ => rfl) fun _ => ?_
    refine free_bind ?_ fun v => free_bind free_look fun vm => ih v _
    refine free_bind free_look fun vm => free_bind (free_update fun _ => rfl) fun _ => ?_
    exact free_bind (free_runNested hs) fun _ => free_pop

theorem free_lookupMethod {receiver : T.V} {selector : String} {args : List T.V} :
    Free (lookupMethod h s receiver selector args) :=
  free_bind free_look fun _ => free_runLookup hs _

theorem free_callFound {receiver : T.V} {args : List T.V} {c : Option (Callable T)} :
    Free (callFound h s receiver args c) := by
  cases c with
  | none => exact free_pure _
  | some c =>
    refine free_bind free_look fun vm => free_bind (free_ask rfl) fun _ => ?_
    exact free_bind (free_runNested hs) fun _ => free_pop

theorem free_callMethod {receiver : T.V} {selector : String} {args : List T.V} :
    Free (callMethod h s receiver selector args) :=
  free_reentering (free_bind (free_lookupMethod hs) fun _ => free_callFound hs)

theorem free_outcall {receiver : T.V} {selector : String} {args : List T.V} :
    Free (outcall h s receiver selector args) := by
  refine free_bind (free_update fun _ => rfl) fun _ => free_ensuring ?_ fun _ => rfl
  refine free_bind (free_lookupMethod hs) fun c => ?_
  cases c with
  | none => exact free_bind free_look fun _ => free_fail _
  | some c =>
    show Free (outcallFound h s receiver args c)
    unfold outcallFound
    split
    · refine free_bind free_look fun vm => free_bind (free_update fun _ => rfl) fun _ => ?_
      refine free_bind (free_onError (free_ask rfl) fun e s => ?_) fun _ =>
        free_bind free_look fun vm' => ?_
      · cases e <;> rfl
      · split
        · exact free_bind (free_runNested hs) fun _ => free_pop
        · refine free_bind free_pop fun v => ?_
          exact free_bind (free_update fun _ => rfl) fun _ => free_pure v
    · exact free_callFound hs

theorem free_reenter {a : Reentry T} : Free (reenter h s a) := by
  cases a with
  | executeBlock b args self => exact free_executeBlock hs
  | callMethod receiver selector args => exact free_callMethod hs
  | outcall receiver selector args => exact free_outcall hs

theorem free_finalizeInstantiation {obj : T.V} {env : Option T.Env} :
    Free (finalizeInstantiation h s obj env) := by
  refine free_bind (free_act fun _ => rfl) fun inits => ?_
  induction inits with
  | nil => exact free_pure _
  | cons i inits ih =>
    refine free_bind free_look fun vm => free_bind ?_ fun _ => ih
    exact free_reentering (free_callFound hs)

theorem free_consumePoppedFrame {f : Frame T} {ret : T.V} :
    Free (consumePoppedFrame h s f ret) := by
  unfold consumePoppedFrame
  split
  · refine free_bind (free_update fun _ => rfl) fun _ => ?_
    exact free_bind (free_finalizeInstantiation hs) fun _ => free_pop
  · exact free_pure _

end

theorem free_runFrameDefers {f : Frame T} : Free (runFrameDefers h f) := by
  refine free_onError ?_ fun e vm => ?_
  · generalize f.defers = defers
    induction defers with
    | nil => exact free_pure _
    | cons d defers ih => exact free_bind (free_callMethod (by simp)) fun _ => ih
  · cases f.unregisterOnDeferFailure <;> rfl

theorem free_handle {handlers : List T.V} {e : QuoinError T} : Free (handle h handlers e) := by
  refine free_bind (free_act fun _ => rfl) fun exc => free_bind free_look fun vm => ?_
  split
  · exact free_bind (free_update fun _ => rfl) fun _ => free_executeBlock (by simp)
  · exact free_fail _

theorem free_doCatch {handlers : List T.V} : Free (doCatch h b handlers) := by
  refine free_bind free_look fun vm => free_bind (free_attempt (free_executeBlock (by simp))) ?_
  intro r
  cases r with
  | ok v => exact free_pure v
  | error e =>
    refine free_bind free_look fun vm' => free_bind (free_update fun _ => rfl) fun _ => ?_
    split
    · exact free_ensuring free_handle fun _ => rfl
    · exact free_fail e

/-! ## Compiled code -/

theorem free_leaveFrame {base : Nat} {r : Except (QuoinError T) T.V} :
    Free (leaveFrame base r) := by
  cases r with
  | ok v => exact free_bind (free_update fun _ => rfl) fun _ => free_pure v
  | error e =>
    cases e with
    | nonLocalReturn => exact free_fail _
    | fault f => exact free_bind (free_update fun _ => rfl) fun _ => free_fail _

theorem free_framed {base : Nat} {minted : Option FrameId} {x : Rust T T.V} (hx : Free x) :
    Free (framed base minted x) := by
  refine free_bind (free_attempt hx) fun r => ?_
  unfold finishFrame
  refine free_bind free_look fun vm => ?_
  split
  · refine free_bind (free_update fun _ => rfl) fun _ => ?_
    split
    · exact free_bind (free_update fun _ => rfl) fun _ => free_pure _
    · exact free_leaveFrame
  · exact free_leaveFrame

theorem free_runCode {home : Option (FrameId × Nat)} (code : AotCode T) :
    ∀ {base : Nat}, Free (runCode h home base code) := by
  induction code with
  | done r w =>
    intro base
    refine free_bind (free_update fun _ => rfl) fun _ => ?_
    cases r with
    | ok v => exact free_pure v
    | error f => exact free_fail _
  | slotWrite slot v k ih =>
    intro base
    refine free_bind free_look fun vm => free_bind free_ensure fun _ => ?_
    exact free_bind (free_update fun _ => rfl) fun _ => ih
  | run a w k ih =>
    intro base
    refine free_bind (free_update fun _ => rfl) fun _ => ?_
    exact free_bind (free_reenter (by simp)) fun v => free_bind free_look fun vm => ih v _
  | window slots code k ihCode ih =>
    intro base
    refine free_bind free_look fun vm => free_bind (free_update fun _ => rfl) fun _ => ?_
    exact free_bind (free_framed ihCode) fun v => free_bind free_look fun vm => ih v _
  | nested within beyond ihWithin ihBeyond =>
    intro base
    refine free_bind free_look fun vm => ?_
    split
    · exact ihWithin
    · exact ihBeyond

theorem depth_pushWindow {receiver : T.V} {args : List T.V} {window : Option Nat} :
    (pushWindow receiver args window vm).depth = vm.depth := by
  cases window <;> rfl

theorem depth_dropWindow {window : Option Nat} : (dropWindow window vm).depth = vm.depth := by
  cases window <;> rfl

theorem free_callAot {entry : AotEntry T} {receiver : T.V} {args : List T.V}
    {window : Option Nat} : Free (callAot h b entry receiver args window) := by
  refine free_bind ?_ fun admitted => ?_
  · refine free_bind free_look fun vm => ?_
    split
    · exact free_act fun _ => rfl
    · exact free_pure false
  · split
    · refine free_bind ?_ fun v => free_update fun _ => rfl
      refine free_bind free_look fun vm => ?_
      refine free_bind (free_update fun s => depth_pushWindow) fun _ => ?_
      refine free_bind (free_act fun s => ?_) fun minted => free_bind free_look fun vm' => ?_
      · unfold mint
        split <;> rfl
      · refine free_framed (free_ensuring (free_runCode _) fun s => ?_)
        unfold unmark
        split <;> rfl
    · exact free_update fun s => depth_dropWindow

/-! ## The cleanup is asked for once -/

/-- The code asks nothing. -/
def Quick (x : Rust T α) : Prop := ∀ s, ∃ r s', x.run s = .done r s' ∧ s'.depth = s.depth

theorem quick_bind {x : Rust T α} {f : α → Rust T β} (hx : Quick x) (hf : ∀ a, Quick (f a)) :
    Quick (x >>= f) := by
  intro s
  obtain ⟨r, s', hRun, hDepth⟩ := hx s
  have hBind : (x >>= f).run s = next f r s' := by
    show (x.run s).bind (next f) = _
    rw [hRun]
    rfl
  rw [hBind, ← hDepth]
  cases r with
  | ok a => exact hf a s'
  | error e => exact ⟨_, _, rfl, rfl⟩

theorem quick_look : Quick (look : Rust T (VmState T)) := fun s => ⟨_, s, rfl, rfl⟩

theorem quick_update {f : VmState T → VmState T} (hf : ∀ s, (f s).depth = s.depth) :
    Quick (update f : Rust T Unit) := fun s => ⟨_, f s, rfl, hf s⟩

theorem quick_pure (a : α) : Quick (pure a : Rust T α) := fun s => ⟨_, s, rfl, rfl⟩

theorem quick_fail (e : QuoinError T) : Quick (fail e : Rust T α) := fun s => ⟨_, s, rfl, rfl⟩

theorem quick_ofExcept (r : Except (QuoinError T) α) : Quick (ofExcept r : Rust T α) :=
  fun s => ⟨_, s, rfl, rfl⟩

theorem quick_pop : Quick (pop h) := by
  refine quick_bind quick_look fun vm => ?_
  split
  · exact quick_bind (quick_update fun _ => rfl) fun _ => quick_pure _
  · exact quick_fail _

/-- A block is asked for over a frame that is about to begin it, and then nothing. -/
theorem executeBlock_run (s : Site T) (b : Block T) (args : List T.V) (self : Option T.V)
    (hRoom : h.stackHeadroom vm.depth = true) :
    ∃ vm₁ k, (executeBlock h s b args self).run vm =
        .ask (.nested s vm.frames.length "block execution") vm₁ k ∧
      Enters b vm.frames.length vm₁ ∧
      ∀ a s', ∃ r s'', k a s' = .done r s'' ∧ s''.depth = s'.depth := by
  have hQuick : Quick ((pure () : Rust T Unit) >>= fun _ => pop h) :=
    quick_bind (quick_pure ()) fun _ => quick_pop
  have hEnd (a : Result T) (s' : VmState T) : ∃ r s'', (((Resume.done a s' : Code T _).bind
      (next fun _ : VmStatus T => (pure () : Rust T Unit))).bind (next fun _ => pop h)) =
        .done r s'' ∧ s''.depth = s'.depth := by
    cases a with
    | ok status => exact hQuick s'
    | error e => exact ⟨_, s', rfl, rfl⟩
  have hEnsure : ensure (h.stackHeadroom vm.depth)
      (.other (h.stackExhausted "block re-entry exhausted the task stack")) =
        (pure () : Rust T Unit) := if_pos hRoom
  cases self with
  | none =>
    refine ⟨startBlock h b args none vm, _, ?_, ⟨_, vm.frames, rfl, rfl, rfl, rfl⟩, hEnd⟩
    show ((((ensure _ _ : Rust T Unit).run vm).bind _) : Code T _) = _
    rw [hEnsure]
    rfl
  | some receiver =>
    refine ⟨startBlockAsMethod h b receiver args false vm, _, ?_,
      ⟨_, vm.frames, rfl, rfl, rfl, rfl⟩, hEnd⟩
    show ((((ensure _ _ : Rust T Unit).run vm).bind _) : Code T _) = _
    rw [hEnsure]
    rfl

theorem due_look {f : VmState T → Rust T α} (hf : Due d b ((f vm).run vm)) :
    Due d b ((look >>= f).run vm) := hf

theorem due_update {f : VmState T → VmState T} {k : Unit → Rust T α}
    (hk : Due d b ((k ()).run (f vm))) : Due d b ((update f >>= k).run vm) := hk

variable (vm) in
/-- The cleanup block run, and then code that asks nothing. -/
theorem due_cleanup {low : Bool} {after : After T} {g : Except (QuoinError T) T.V → Rust T α}
    (hRoom : h.stackHeadroom vm.depth = true) (hg : ∀ r, Quick (g r)) :
    Due vm.depth b ((runFinally h low after b >>= g).run vm) := by
  obtain ⟨vm₁, k, hRun, hEnters, hEnd⟩ :=
    executeBlock_run (.cleanup low after vm.nlrTarget vm.stack.length) b [] none hRoom
  show Due vm.depth b (((((executeBlock h (.cleanup low after vm.nlrTarget vm.stack.length) b []
    none).run vm).bind fun r => .done (.ok r)).bind (next g)) : Code T _)
  rw [hRun]
  refine ⟨hEnters, fun a s' hDepth => ?_⟩
  obtain ⟨r, s'', hDone, hSame⟩ := hEnd a s'
  obtain ⟨r', s₃, hRest, hSame'⟩ := hg r s''
  refine ⟨r', s₃, ?_, hSame'.trans (hSame.trans hDepth)⟩
  show (((k a s').bind fun r => .done (.ok r)).bind (next g) : Code T _) = _
  rw [hDone]
  exact hRest

theorem due_finish {v : T.V} (hRoom : h.stackHeadroom vm.depth = true) :
    Due vm.depth b ((finish h b v).run vm) := by
  unfold finish
  refine due_update (due_look ?_)
  refine due_cleanup (vm.push v) hRoom fun r => quick_bind quick_look fun vm' => ?_
  split
  · exact quick_ofExcept _
  · refine quick_bind quick_pop fun v => ?_
    cases r with
    | ok _ => exact quick_pure _
    | error e => exact quick_fail _

theorem due_finishError {low : Bool} {err : QuoinError T}
    (hRoom : h.stackHeadroom vm.depth = true) :
    Due vm.depth b ((finishError h b low err).run vm) := by
  unfold finishError
  refine due_look ?_
  refine due_cleanup vm hRoom fun r => quick_bind quick_look fun vm' => ?_
  split
  · exact quick_ofExcept _
  · cases r with
    | ok _ => exact quick_fail _
    | error e => exact quick_fail _

theorem due_cleanUp {initial : Nat} {e : QuoinError T} (hRoom : h.stackHeadroom vm.depth = true) :
    Due vm.depth b ((cleanUp h initial b e).run vm) := by
  unfold cleanUp
  refine due_update (due_look ?_)
  refine due_cleanup (vm.unwind initial) hRoom fun r => ?_
  exact quick_bind (quick_update fun _ => rfl) fun _ => quick_fail _

variable (vm) in
/-- An error offered to the handlers, and then code that the cleanup is due in. -/
theorem due_handle {handlers : List T.V} {e : QuoinError T}
    {g : Except (QuoinError T) T.V → Rust T α} (hRoom : h.stackHeadroom vm.depth = true)
    (hg : ∀ r s', s'.depth = vm.depth → Due vm.depth b ((g r).run s')) :
    Due vm.depth b ((attempt (handle h handlers e) >>= g).run vm) := by
  let vm₀ := vm.setWorld (h.exceptionValue e vm.world).2
  show Due vm.depth b ((((Resumable.run (match firstMatching h (h.exceptionValue e vm.world).1
    handlers vm₀.world with
    | some b => do
      update fun vm => vm.setWorld (h.clearActiveException vm.world)
      executeBlock h .handler b [(h.exceptionValue e vm.world).1] none
    | none => fail e) vm₀).bind fun r => .done (.ok r)).bind (next g)) : Code T _)
  split
  · rename_i handler hMatch
    let vm₁ := vm₀.setWorld (h.clearActiveException vm₀.world)
    obtain ⟨vm₂, k, hRun, -, hEnd⟩ := executeBlock_run .handler handler
      [(h.exceptionValue e vm.world).1] none (show h.stackHeadroom vm₁.depth = true from hRoom)
    show Due vm.depth b (((((executeBlock h .handler handler
      [(h.exceptionValue e vm.world).1] none).run vm₁).bind fun r => .done (.ok r)).bind
        (next g)) : Code T _)
    rw [hRun]
    intro a s' hDepth
    obtain ⟨r, s'', hDone, hSame⟩ := hEnd a s'
    show Due vm.depth b (((k a s').bind fun r => .done (.ok r)).bind (next g) : Code T _)
    rw [hDone]
    exact hg r s'' (hSame.trans hDepth)
  · exact hg (.error e) vm₀ rfl

theorem due_afterError {handlers : List T.V} {initial : Nat} {e : QuoinError T}
    (hRoom : h.stackHeadroom vm.depth = true) :
    Due vm.depth b ((afterError h initial handlers b e).run vm) := by
  unfold afterError
  refine due_look ?_
  split
  · refine due_update (due_handle (vm.unwind initial) hRoom fun res s' hDepth => due_update ?_)
    have hRoom' : h.stackHeadroom (s'.unwind initial).depth = true := hDepth ▸ hRoom
    have hSame : (vm.unwind initial).depth = (s'.unwind initial).depth := hDepth.symm
    rw [hSame]
    cases res with
    | ok v => exact due_finish hRoom'
    | error err => exact due_look (due_finishError hRoom')
  · exact due_cleanUp hRoom

theorem free_runFinally {low : Bool} {after : After T} : Free (runFinally h low after b) :=
  free_bind free_look fun _ => free_attempt (free_executeBlock (by simp))

theorem free_finish {v : T.V} : Free (finish h b v) := by
  refine free_bind (free_update fun _ => rfl) fun _ => free_bind free_look fun vm => ?_
  refine free_bind free_runFinally fun r => free_bind free_look fun vm' => ?_
  split
  · exact free_ofExcept _
  · refine free_bind free_pop fun v => ?_
    cases r with
    | ok _ => exact free_pure _
    | error e => exact free_fail _

theorem free_finishError {low : Bool} {err : QuoinError T} : Free (finishError h b low err) := by
  refine free_bind free_look fun vm => ?_
  refine free_bind free_runFinally fun r => free_bind free_look fun vm' => ?_
  split
  · exact free_ofExcept _
  · cases r with
    | ok _ => exact free_fail _
    | error e => exact free_fail _

theorem free_cleanUp {initial : Nat} {e : QuoinError T} : Free (cleanUp h initial b e) := by
  refine free_bind (free_update fun _ => rfl) fun _ => free_bind free_look fun vm => ?_
  refine free_bind free_runFinally fun r => ?_
  exact free_bind (free_update fun _ => rfl) fun _ => free_fail _

/-! ## All code -/

theorem owes_of_sat {r : Code T α} (hr : r.Sat (freely d) fun _ s => s.depth = d) : Owes d r := by
  induction r with
  | done a s => exact hr
  | ask q s k ih =>
    obtain ⟨hq, hRest⟩ := hr
    unfold Owes
    rw [hq]
    exact fun a s' hDepth => ih a s' (hRest a s' hDepth)

theorem owing_of_free {x : Rust T α} (hx : Free x) : Owing x := fun s => owes_of_sat (hx s)

theorem owing_bind {x : Rust T α} {f : α → Rust T β} (hx : Free x) (hf : ∀ a, Owing (f a)) :
    Owing (x >>= f) := by
  have hTree : ∀ {d : Nat} (r : Code T (Except (QuoinError T) α)),
      (r.Sat (freely d) fun _ s => s.depth = d) → Owes d (r.bind (next f)) := by
    intro d r hr
    induction r with
    | done a s =>
      have hDepth : s.depth = d := hr
      cases a with
      | ok a => exact hDepth ▸ hf a s
      | error e => exact hDepth
    | ask q s k ih =>
      obtain ⟨hq, hRest⟩ := hr
      show Owes d (.ask q s fun a s' => (k a s').bind (next f))
      unfold Owes
      rw [hq]
      exact fun a s' hDepth => ih a s' (hRest a s' hDepth)
  exact fun s => hTree _ (hx s)

theorem due_bind {f : α → VmState T → Code T β} {r : Code T α} (hr : Due d b r)
    (hf : ∀ a s, s.depth = d → ∃ r' s', f a s = .done r' s' ∧ s'.depth = d) :
    Due d b (r.bind f) := by
  induction r with
  | done a s => exact hr.elim
  | ask q s k ih =>
    cases q with
    | nested site n context =>
      cases site with
      | cleanup low after target operands =>
        obtain ⟨hEnters, hDone⟩ := hr
        refine ⟨hEnters, fun a s' hDepth => ?_⟩
        obtain ⟨r', s'', hEq, hDepth'⟩ := hDone a s' hDepth
        obtain ⟨r₂, s₃, hRest, hDepth₃⟩ := hf r' s'' hDepth'
        refine ⟨r₂, s₃, ?_, hDepth₃⟩
        show (k a s').bind f = _
        rw [hEq]
        exact hRest
      | handler => exact fun a s' hDepth => ih a s' (hr a s' hDepth)
      | _ => exact hr.elim
    | _ => exact hr.elim

theorem owes_bind_quick {f : α → VmState T → Code T β} {r : Code T α} (hr : Owes d r)
    (hf : ∀ a s, s.depth = d → ∃ r' s', f a s = .done r' s' ∧ s'.depth = d) :
    Owes d (r.bind f) := by
  induction r with
  | done a s =>
    obtain ⟨r', s', hEq, hDepth⟩ := hf a s hr
    show Owes d (f a s)
    rw [hEq]
    exact hDepth
  | ask q s k ih =>
    show Owes d (.ask q s fun a s' => (k a s').bind f)
    unfold Owes at hr ⊢
    split at hr
    · exact fun a s' hDepth => due_bind (hr a s' hDepth) hf
    · exact fun a s' hDepth => ih a s' (hr a s' hDepth)

theorem quick_next {f : α → Rust T β} (hf : ∀ a, Quick (f a)) (r : Except (QuoinError T) α)
    (s : VmState T) (hDepth : s.depth = d) :
    ∃ r' s', next f r s = .done r' s' ∧ s'.depth = d := by
  cases r with
  | ok a =>
    obtain ⟨r', s', hRun, hSame⟩ := hf a s
    exact ⟨r', s', hRun, hSame.trans hDepth⟩
  | error e => exact ⟨_, s, rfl, hDepth⟩

theorem owing_then {x : Rust T α} {f : α → Rust T β} (hx : Owing x) (hf : ∀ a, Quick (f a)) :
    Owing (x >>= f) := fun s => owes_bind_quick (hx s) (quick_next hf)

theorem owing_attempt {x : Rust T α} (hx : Owing x) : Owing (attempt x) :=
  fun s => owes_bind_quick (hx s) fun _ s' hDepth => ⟨_, s', rfl, hDepth⟩

theorem owing_doCatchFinally {handlers : List T.V} {cleanup : Block T} :
    Owing (doCatchFinally h b handlers cleanup) := by
  intro vm
  show Owes vm.depth (((((executeBlock h (.catching handlers (some cleanup)) b [] none).run
    vm).bind fun r => .done (.ok r)).bind
      (next (_ : Except (QuoinError T) T.V → Rust T T.V))) : Code T _)
  cases hRoom : h.stackHeadroom vm.depth with
  | true =>
    obtain ⟨vm₁, k, hRun, -, hEnd⟩ := executeBlock_run
      (.catching handlers (some cleanup)) b [] none hRoom
    rw [hRun]
    intro a s' hDepth
    obtain ⟨r, s'', hDone, hSame⟩ := hEnd a s'
    have hDepth' : s''.depth = vm.depth := hSame.trans hDepth
    have hRoom' : h.stackHeadroom s''.depth = true := hDepth' ▸ hRoom
    show Due vm.depth cleanup (((k a s').bind fun r => .done (.ok r)).bind
      (next (_ : Except (QuoinError T) T.V → Rust T T.V)) : Code T _)
    rw [hDone, ← hDepth']
    cases r with
    | ok v => exact due_finish hRoom'
    | error e => exact due_afterError hRoom'
  | false =>
    -- the protected block is not begun
    have hFailed : ∃ e, (executeBlock h (.catching handlers (some cleanup)) b [] none).run vm =
        .done (.error e) vm := by
      have hEnsure : ensure (h.stackHeadroom vm.depth)
          (.other (h.stackExhausted "block re-entry exhausted the task stack")) =
            (fail (.fault (.other (h.stackExhausted
              "block re-entry exhausted the task stack"))) : Rust T Unit) :=
        if_neg (by simp [hRoom])
      refine ⟨.fault (.other (h.stackExhausted "block re-entry exhausted the task stack")), ?_⟩
      show ((((ensure _ _ : Rust T Unit).run vm).bind _) : Code T _) = _
      rw [hEnsure]
      rfl
    obtain ⟨e, hRun⟩ := hFailed
    rw [hRun]
    have hFree : Free (afterError h vm.frames.length handlers cleanup e) := by
      refine free_bind free_look fun vm' => ?_
      split
      · refine free_bind (free_update fun _ => rfl) fun _ =>
          free_bind (free_attempt free_handle) fun res =>
            free_bind (free_update fun _ => rfl) fun _ => ?_
        cases res with
        | ok v => exact free_finish
        | error err => exact free_bind free_look fun _ => free_finishError
      · exact free_cleanUp
    exact owing_of_free hFree vm

theorem owing_runNative (n : Native T) : Owing (runNative h n) := by
  induction n with
  | done r w =>
    refine owing_of_free (free_bind (free_update fun _ => rfl) fun _ => ?_)
    cases r with
    | ok v => exact free_pure v
    | error f => exact free_fail _
  | run a w onFault onReturn k ih =>
    refine owing_bind (free_update fun _ => rfl) fun _ => owing_bind ?_ fun v => ?_
    · refine free_onError (free_reenter (by simp)) fun e s => ?_
      cases e <;> rfl
    · exact owing_bind free_look fun vm => ih v _
  | examine a w k ih =>
    refine owing_bind (free_update fun _ => rfl) fun _ => ?_
    refine owing_bind (free_attempt (free_reenter (by simp))) fun r => ?_
    exact owing_bind free_look fun vm => ih r _
  | defer d w k ih =>
    refine owing_bind (free_update fun _ => rfl) fun _ => ?_
    exact owing_bind free_look fun vm => ih _
  | compiled code w k ih =>
    refine owing_bind (free_update fun _ => rfl) fun _ => owing_bind free_look fun vm => ?_
    exact owing_bind (free_runCode code) fun v => owing_bind free_look fun vm' => ih v _
  | protect b handlers cleanup w =>
    refine owing_bind (free_update fun _ => rfl) fun _ => ?_
    cases cleanup with
    | none => exact owing_of_free free_doCatch
    | some cleanup => exact owing_doCatchFinally

theorem free_ensureInstantiable {cls : T.V} : Free (ensureInstantiable h cls) := by
  refine free_bind free_look fun vm => ?_
  split
  · exact free_pure ()
  · exact free_fail _

theorem owing_call {receiver : T.V} {args : List T.V} {window : Option Nat} {c : Callable T} :
    Owing (Callable.call h receiver args window c) := by
  have hNative (f : T.V → List T.V → T.W → Native T) : Owing (do
      let vm ← look
      let v ← runNative h (f receiver args vm.world)
      update (·.push v)) :=
    owing_bind free_look fun vm =>
      owing_then (owing_runNative _) fun v => quick_update fun _ => rfl
  cases c with
  | block b => exact owing_of_free (free_update fun _ => rfl)
  | metaclass cls => exact owing_of_free (free_update fun _ => rfl)
  | new cls =>
    refine owing_of_free (free_bind free_ensureInstantiable fun _ => ?_)
    refine free_bind free_look fun vm => ?_
    split
    · split
      · exact free_bind (free_act fun _ => rfl) fun _ => free_update fun _ => rfl
      · exact free_fail _
    · exact free_fail _
  | newNoBlock cls =>
    refine owing_of_free (free_bind free_ensureInstantiable fun _ => ?_)
    refine free_bind free_ensure fun _ => free_bind (free_act fun _ => rfl) fun obj => ?_
    refine free_bind (free_update fun _ => rfl) fun _ => ?_
    exact free_onError (free_finalizeInstantiation (by simp)) fun _ _ => rfl
  | native f => exact hNative f
  | remote f => exact hNative f
  | aotCall b entry => exact owing_of_free free_callAot

theorem owing_dispatchSendRooted {c : Callable T} {receiver : T.V} {args : List T.V}
    {recvStart : Nat} : Owing (dispatchSendRooted h c receiver args recvStart) := by
  unfold dispatchSendRooted
  split
  · refine owing_then (owing_attempt owing_call) fun r => ?_
    split
    · refine quick_bind (quick_update fun s => ?_) fun _ => quick_pure _
      unfold VmState.reseat
      split
      · split <;> rfl
      · rfl
    · exact quick_fail _
    · exact quick_bind (quick_update fun _ => rfl) fun _ => quick_fail _
  · refine owing_bind (free_update fun _ => rfl) fun _ => ?_
    exact owing_then owing_call fun _ => quick_pure _

theorem owing_execSend {selector : String} {numArgs : Nat} :
    Owing (execSend h selector numArgs) := by
  refine owing_bind free_look fun vm => ?_
  split
  · exact owing_of_free (free_fail _)
  · refine owing_bind (free_update fun _ => rfl) fun _ => ?_
    split
    · refine owing_of_free (free_bind (free_update fun _ => rfl) fun _ => ?_)
      exact free_bind (free_update fun _ => rfl) fun _ => free_pure _
    · refine owing_bind (free_onError (free_lookupMethod (by simp)) fun _ _ => rfl) fun found => ?_
      split
      · exact owing_dispatchSendRooted
      · exact owing_of_free (free_bind (free_update fun _ => rfl) fun _ => free_fail _)

theorem depth_setIp {idx ip : Nat} (s : VmState T) : (s.setIp idx ip).depth = s.depth := by
  unfold VmState.setIp
  split <;> rfl

theorem free_endFrame {ret : T.V} : Free (endFrame h ret) := by
  refine free_bind free_popFrame fun f => ?_
  split
  · refine free_bind (free_update fun _ => rfl) fun _ => ?_
    exact free_bind (free_consumePoppedFrame (by simp)) fun _ => free_update fun _ => rfl
  · exact free_pure _

/-- All code that the machine runs: an instruction, a call, or a round of unwinding. -/
theorem owing_dispatchOne {bytecode : Bytecode T} {f : Frame T} :
    Owing (dispatchOne h bytecode f) := by
  refine owing_bind free_look fun vm => ?_
  unfold exec
  split
  · refine owing_of_free (free_bind free_runFrameDefers fun _ => ?_)
    exact free_bind free_endFrame fun _ => free_pure _
  · refine owing_bind (free_popN _) fun operands => owing_bind (free_act fun _ => rfl) fun r => ?_
    split
    · exact owing_of_free (free_fail _)
    · exact owing_of_free (free_bind (free_update fun _ => depth_setIp _) fun _ => free_pure _)
    · exact owing_of_free (free_bind (free_update fun _ => depth_setIp _) fun _ => free_pure _)
    · exact owing_bind (free_update fun _ => rfl) fun _ => owing_execSend
  · refine owing_bind free_look fun vm => owing_bind free_ensure fun _ => ?_
    refine owing_bind (free_update fun _ => rfl) fun _ => ?_
    refine owing_then (owing_runNative _) fun v => ?_
    exact quick_bind (quick_update fun _ => depth_setIp _) fun _ => quick_pure _
  · refine owing_of_free (free_bind free_pop fun block => free_bind free_pop fun self => ?_)
    refine free_bind free_ensure fun _ => free_bind free_look fun vm => ?_
    split
    · refine free_bind (free_update fun _ => rfl) fun _ => ?_
      refine free_bind (free_update fun _ => rfl) fun _ => ?_
      refine free_bind (free_act fun _ => rfl) fun _ => ?_
      exact free_bind (free_update fun _ => rfl) fun _ => free_pure _
    · exact free_fail _
  · refine owing_of_free (free_bind free_runFrameDefers fun _ => free_bind free_pop fun ret => ?_)
    refine free_bind free_endFrame fun _ => ?_
    exact free_bind (free_update fun _ => depth_setIp _) fun _ => free_pure _
  · refine owing_of_free (free_bind free_pop fun ret => ?_)
    split
    · exact free_bind free_look fun vm => free_ask rfl
    · exact free_fail _
  · refine owing_of_free (free_bind free_pop fun v => ?_)
    exact free_bind (free_update fun _ => rfl) fun _ => free_pure _

theorem free_unwindRound {target : FrameId} {ret : T.V} {home : Option (FrameMark T)} :
    Free (unwindRound h target ret home) := by
  refine free_bind free_look fun vm => ?_
  split
  · refine free_bind (free_update fun _ => rfl) fun _ => ?_
    exact free_bind (free_update fun _ => rfl) fun _ => free_fail _
  · refine free_bind free_popFrame fun f => ?_
    split
    · refine free_bind (free_update fun _ => rfl) fun _ => free_fail _
    · refine free_bind (free_consumePoppedFrame (by simp)) fun ret => ?_
      split
      · refine free_bind (free_update fun _ => rfl) fun _ => ?_
        exact free_bind (free_update fun _ => rfl) fun _ => free_fail _
      · exact free_ask rfl

theorem owing_perform (q : Request T) : Owing (perform h q) := by
  cases q with
  | nested site n context => exact owing_of_free (free_pure _)
  | call site c receiver args window => exact owing_then owing_call fun _ => quick_pure _
  | unwind target ret home => exact owing_of_free free_unwindRound

end Quoin.Control
