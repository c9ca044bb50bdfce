import Mathlib
import Quoin.Control.Frames

/-!
# Quoin — what natives and instructions do to the frames

The natives of the `catch:` family unwind to the frames they were called over, if
these are still there; any other native re-enters under the contract, and so does
compiled code, which takes a `^^` that has come home over its own frames. An
instruction that completes has moved its own frame's `ip` on, pushed a frame, or
popped its own (`Advanced`), and the frames below are as they were.

## Results

* `kept_runNative`, `called_callAot` — natives, and compiled methods, keep the frames;
* `advanced_dispatchOne` — what an instruction does to the frames;
* `leaves_perform` — calls and the rounds of unwinding do what is relied on.
-/

namespace Quoin.Control

open Trans Resumable

variable {T : Sig} {α β : Type} {h : Host T} {K : List (Frame T)} {vm : VmState T}

/-! ## `catch:` and `finally:` -/

theorem kept_update {f : VmState T → VmState T} (hf : (f vm).skel = K) :
    wp (contract h) (update f) (Kept K) vm := hf

theorem kept_act {f : VmState T → α × VmState T} (hf : (f vm).2.skel = K) :
    wp (contract h) (act f) (Kept K) vm := hf

theorem kept_pop (hK : vm.skel = K) : wp (contract h) (pop h) (Kept K) vm :=
  kept_of_ran (s := .call) (ran_pop hK)

theorem suffix_of_eq {K L : List α} (hEq : L = K) : L <:+ K := hEq ▸ List.suffix_refl _

theorem unwind_suffix {e : QuoinError T} (hf : Fell K e vm) :
    (vm.unwind K.length).skel <:+ K := by
  rcases VmState.unwind_skel K hf.or with hK | ⟨hSame, hSuffix, -⟩
  · exact suffix_of_eq hK
  · exact hSame ▸ hSuffix

theorem fell_unwind {e e' : QuoinError T} (hf : Fell K e vm) : Fell K e' (vm.unwind K.length) :=
  .of_suffix (unwind_suffix hf)

theorem kept_unwind {r : Except (QuoinError T) α} (hr : Kept K r vm) :
    Kept K r (vm.unwind K.length) := by
  cases r with
  | ok a =>
    have hEq : vm.skel = K := hr
    have hSuffix : K <:+ vm.skel := hEq ▸ List.suffix_refl _
    rcases VmState.unwind_skel K (.inl hSuffix) with hK | ⟨hSame, -⟩
    · exact hK
    · exact hSame.trans hEq
  | error e => exact fell_unwind hr

/-- The error of a protected block, once its frames are popped: either the frames are those the
native was called over, or a `^^` has popped some of them, and no handler catches the error. -/
theorem kept_handle {handlers : List T.V} {cleanup : Option (Block T)} {e : QuoinError T}
    (hf : Fell K e vm) (hs : Spared h (.catching handlers cleanup) K e vm) (ho : e.offered vm) :
    wp (contract h) (handle h handlers e) (Kept K) (vm.unwind K.length) := by
  unfold handle
  simp only [wp_bind, wp_act, wp_look, ends_ok]
  split
  · rename_i b hMatch
    rcases VmState.unwind_skel K hf.or with hK | ⟨-, -, hLow⟩
    · refine kept_bind (kept_update hK) fun _ vm' hK' => ?_
      exact kept_of_ran (ran_executeBlock hK')
    · -- the run would have strayed
      exact absurd ⟨by simpa using hLow, ho, Option.isSome_of_mem hMatch⟩ hs
  · exact Fell.of_suffix (e := e) (unwind_suffix hf)

theorem kept_doCatch {b : Block T} {handlers : List T.V} (hK : vm.skel = K) :
    wp (contract h) (doCatch h b handlers) (Kept K) vm := by
  have hCount := length_of_eq hK
  unfold doCatch
  rw [wp_bind, wp_look, ends_ok, hCount, wp_bind, wp_attempt]
  refine wp_mono (ran_executeBlock hK) ?_
  rintro (e | v) vm' hEnd
  · obtain ⟨hf, hs⟩ := hEnd
    rw [ends_ok]
    dsimp only
    rw [wp_bind, wp_look, ends_ok, wp_bind, wp_update, ends_ok]
    split
    · rename_i ho
      rw [wp_ensuring]
      refine wp_mono (kept_handle hf hs ho) ?_
      intro r vm'' hr
      exact kept_unwind hr
    · have hPassed : Fell K e (vm'.unwind K.length) := fell_unwind hf
      exact hPassed
  · exact hEnd

theorem kept_finish {cleanup : Block T} {v : T.V} (hK : vm.skel = K) :
    wp (contract h) (finish h cleanup v) (Kept K) vm := by
  have hCount := length_of_eq hK
  unfold finish runFinally
  simp only [wp_bind, wp_update, wp_look, wp_attempt, ends_ok]
  refine wp_mono (ran_executeBlock (K := K) hK) ?_
  rintro (e | a) vm' hEnd
  · have hf : Fell K e vm' := hEnd.1
    split
    · exact hf
    · rename_i hNotLow
      rw [wp_bind]
      refine wp_pop (fun v stack hStack => ?_) fun hStack => ?_
      · cases e <;> exact hf
      · exact hf.or
  · have hK' : vm'.skel = K := hEnd
    split
    · exact hK'
    · exact kept_bind (kept_pop hK') fun v vm'' hK'' => hK''

/-- A `finally` block run over frames of which a `^^` may have popped some: it does not lose
the rest. -/
theorem fell_cleanup {K₁ : List (Frame T)} {low : Bool} {after : After T}
    {target : Option FrameId} {operands : Nat} {e : QuoinError T} (hSuffix : K₁ <:+ K)
    (hLow : low = decide (K₁.length < K.length)) (hf : Fell K₁ e vm)
    (hs : Spared h (.cleanup low after target operands) K₁ e vm) : Fell K e vm := by
  cases low with
  | true =>
    have hs : vm.skel <:+ K₁ := hs
    exact .of_suffix (hs.trans hSuffix)
  | false =>
    have hNotLow : ¬ K₁.length < K.length := of_decide_eq_false hLow.symm
    have hEq : K₁ = K := hSuffix.eq_of_length (by have := hSuffix.length_le; omega)
    exact hEq ▸ hf

theorem kept_finishError {K₁ : List (Frame T)} {cleanup : Block T} {err : QuoinError T}
    (hK : vm.skel = K₁) (hSuffix : K₁ <:+ K) :
    wp (contract h) (finishError h cleanup (decide (K₁.length < K.length)) err) (Kept K) vm := by
  have hCount := length_of_eq hK
  unfold finishError runFinally
  simp only [wp_bind, wp_look, wp_attempt, ends_ok]
  refine wp_mono (ran_executeBlock hK) ?_
  rintro (e | a) vm' hEnd
  · have hf : Fell K e vm' := fell_cleanup hSuffix rfl hEnd.1 hEnd.2
    split
    · exact hf
    · exact hf
  · have hK' : vm'.skel = K₁ := hEnd
    have hSame : ¬ vm'.frames.length < vm.frames.length := by
      have hCount' := length_of_eq hK'
      omega
    rw [if_neg hSame]
    exact Fell.of_suffix (e := err) (hK' ▸ hSuffix)

theorem kept_cleanUp {cleanup : Block T} {e : QuoinError T} (hf : Fell K e vm) :
    wp (contract h) (cleanUp h K.length cleanup e) (Kept K) vm := by
  have hSuffix : (vm.unwind K.length).skel <:+ K := unwind_suffix hf
  unfold cleanUp runFinally
  simp only [wp_bind, wp_update, wp_look, wp_attempt, ends_ok, ← VmState.length_skel]
  refine wp_mono (ran_executeBlock rfl) ?_
  rintro (e' | a) vm' hEnd
  · have hFell : Fell K e' vm' := fell_cleanup hSuffix rfl hEnd.1 hEnd.2
    have hPassed : Fell K e (vm'.unwind K.length) := fell_unwind hFell
    exact hPassed
  · have hK' : vm'.skel = (vm.unwind K.length).skel := hEnd
    have hFell : Fell K e vm' := .of_suffix (hK' ▸ hSuffix)
    have hPassed : Fell K e (vm'.unwind K.length) := fell_unwind hFell
    exact hPassed

theorem kept_doCatchFinally {b : Block T} {handlers : List T.V} {cleanup : Block T}
    (hK : vm.skel = K) : wp (contract h) (doCatchFinally h b handlers cleanup) (Kept K) vm := by
  have hCount := length_of_eq hK
  unfold doCatchFinally afterError
  rw [wp_bind, wp_look, ends_ok, hCount, wp_bind, wp_attempt]
  refine wp_mono (ran_executeBlock hK) ?_
  rintro (e | v) vm' hEnd
  · obtain ⟨hf, hs⟩ := hEnd
    rw [ends_ok]
    dsimp only
    rw [wp_bind, wp_look, ends_ok]
    split
    · rename_i ho
      simp only [wp_bind, wp_update, wp_attempt, ends_ok]
      refine wp_mono (kept_handle hf hs ho) ?_
      intro r vm'' hr
      have hr' : Kept K r (vm''.unwind K.length) := kept_unwind hr
      cases r with
      | ok v => exact kept_finish hr'
      | error err =>
        have hSuffix : (vm''.unwind K.length).skel <:+ K := unwind_suffix hr
        dsimp only
        rw [wp_bind, wp_look, ends_ok, ← VmState.length_skel]
        exact kept_finishError rfl hSuffix
    · exact kept_cleanUp hf
  · exact kept_finish hEnd

/-! ## Compiled code -/

theorem kept_leaveFrame {base : Nat} {r : Except (QuoinError T) T.V} (hr : Kept K r vm) :
    wp (contract h) (leaveFrame base r) (Kept K) vm := by
  cases r with
  | ok v => exact hr
  | error e =>
    cases e with
    | nonLocalReturn => exact hr
    | fault f => exact hr

/-- The end of an invocation: a `^^` that has come home has come over the frames of the home. -/
theorem kept_finishFrame {base : Nat} {minted : Option FrameId} {r : Except (QuoinError T) T.V}
    (hr : Ran h (.compiled (minted.map (·, base))) K r vm) :
    wp (contract h) (finishFrame base minted r) (Kept K) vm := by
  unfold finishFrame
  rw [wp_bind, wp_look, ends_ok]
  split
  · rename_i hHome
    obtain ⟨hMinted, hTarget⟩ := hHome
    obtain ⟨id, rfl⟩ := Option.isSome_iff_exists.mp hMinted
    rw [wp_bind, wp_update, ends_ok]
    cases r with
    | ok v => exact kept_leaveFrame (r := .ok v) hr
    | error e =>
      cases e with
      | fault f => exact kept_leaveFrame (r := .error (.fault f)) hr.1
      | nonLocalReturn =>
        have hCount : vm.skel.length = K.length := by
          rw [VmState.length_skel]
          exact not_not.mp fun hCount => hr.2 ⟨rfl, hTarget, hCount⟩
        have hK : vm.skel = K := by
          rcases hr.1.or with hf | hf
          · exact (hf.eq_of_length hCount.symm).symm
          · exact hf.eq_of_length hCount
        cases hStack : vm.stack with
        | nil => exact fell_of_eq (e := .nonLocalReturn) hK
        | cons v stack => exact hK
  · refine kept_leaveFrame ?_
    cases r with
    | ok v => exact hr
    | error e => exact hr.1

theorem ran_leaveFrame {s : Site T} {base : Nat} {r : Except (QuoinError T) T.V}
    (hr : Ran h s K r vm) : wp (contract h) (leaveFrame base r) (Ran h s K) vm := by
  cases r with
  | ok v => exact hr
  | error e =>
    cases e with
    | nonLocalReturn => exact hr
    | fault f =>
      exact ran_congr (α := T.V) (r := .error (.fault f)) hr ⟨rfl, rfl, rfl⟩

theorem finishFrame_none {base : Nat} {r : Except (QuoinError T) T.V}
    {c : Contract (Request T) (Result T) (VmState T)}
    {post : Except (QuoinError T) T.V → VmState T → Prop} :
    wp c (finishFrame base none r) post vm ↔ wp c (leaveFrame base r) post vm := by
  unfold finishFrame
  rw [wp_bind, wp_look, ends_ok, if_neg fun hNone => absurd hNone.1 (by simp)]

/-- What compiled code fails with has been handed to it at the site of the invocation. -/
theorem ran_runCode {home : Option (FrameId × Nat)} (code : AotCode T) :
    ∀ {vm : VmState T} {base : Nat}, vm.skel = K →
      wp (contract h) (runCode h home base code) (Ran h (.compiled home) K) vm := by
  induction code with
  | done r w =>
    intro vm base hK
    refine ran_bind (ran_update hK) fun _ vm' hK' => ?_
    cases r with
    | ok v => exact hK'
    | error f => exact ran_fail hK'
  | slotWrite slot v k ih =>
    intro vm base hK
    refine ran_look (ran_bind (ran_ensure hK) fun _ vm' hK' => ?_)
    exact ran_bind (ran_update hK') fun _ vm'' hK'' => ih hK''
  | run a w k ih =>
    intro vm base hK
    refine ran_bind (ran_update hK) fun _ vm' hK' => ?_
    exact ran_bind (ran_reenter hK') fun v vm'' hK'' => ran_look (ih _ _ hK'')
  | window slots code k ihCode ih =>
    intro vm base hK
    refine ran_look (ran_bind (ran_update hK) fun _ vm' hK' => ?_)
    refine ran_bind ?_ fun v vm'' hK'' => ran_look (ih _ _ hK'')
    unfold framed
    rw [wp_bind, wp_attempt]
    refine wp_mono (ihCode hK') fun r vm₁ hr => ?_
    rw [ends_ok, finishFrame_none]
    exact ran_leaveFrame hr
  | nested within beyond ihWithin ihBeyond =>
    intro vm base hK
    refine ran_look ?_
    split
    · exact ihWithin hK
    · exact ihBeyond hK

theorem kept_runCode {home : Option (FrameId × Nat)} {base : Nat} (code : AotCode T)
    (hK : vm.skel = K) : wp (contract h) (runCode h home base code) (Kept K) vm :=
  kept_of_ran (ran_runCode code hK)

theorem kept_invoke {entry : AotEntry T} {receiver : T.V} {args : List T.V}
    {window : Option Nat} (hK : vm.skel = K) :
    wp (contract h) (invoke h entry receiver args window) (Kept K) vm := by
  unfold invoke
  rw [wp_bind, wp_look, ends_ok]
  have hWindow {vs : List T.V} : ((pushWindow receiver args window vm).pushAll vs).skel = K := by
    cases window with
    | none => exact hK
    | some recvStart => exact hK
  refine kept_bind (kept_update hWindow) fun _ vm₁ hK₁ => ?_
  have hMint {base : Nat} : (mint entry base vm₁).2.skel = K := by
    unfold mint
    split
    · exact hK₁
    · exact hK₁
  refine kept_bind (kept_act hMint) fun minted vm₂ hK₂ => ?_
  unfold framed
  rw [wp_bind, wp_look, ends_ok, wp_bind, wp_attempt, wp_ensuring]
  refine wp_mono (ran_runCode _ hK₂) fun r vm₃ hr => ?_
  refine kept_finishFrame (ran_congr hr ?_)
  unfold unmark
  split
  · exact ⟨rfl, rfl, rfl⟩
  · exact ⟨rfl, rfl, rfl⟩

theorem kept_mayInvoke {entry : AotEntry T} {receiver : T.V} {args : List T.V} (hK : vm.skel = K) :
    wp (contract h) (mayInvoke entry receiver args) (Kept K) vm := by
  unfold mayInvoke
  rw [wp_bind, wp_look, ends_ok]
  split
  · exact kept_act hK
  · exact hK

theorem called_of_kept {x : Rust T α} (hx : wp (contract h) x (Kept K) vm) :
    wp (contract h) x (Called K) vm := by
  refine wp_mono hx ?_
  rintro (e | a) vm' hEnd
  · exact hEnd
  · exact .inl hEnd

theorem called_bind {x : Rust T α} {f : α → Rust T β} (hx : wp (contract h) x (Kept K) vm)
    (hf : ∀ a vm', vm'.skel = K → wp (contract h) (f a) (Called K) vm') :
    wp (contract h) (x >>= f) (Called K) vm := wp_seq hx hf fun _ _ he => he

theorem called_callAot {b : Block T} {entry : AotEntry T} {receiver : T.V} {args : List T.V}
    {window : Option Nat} (hK : vm.skel = K) :
    wp (contract h) (callAot h b entry receiver args window) (Called K) vm := by
  refine called_bind (kept_mayInvoke hK) fun admitted vm₁ hK₁ => ?_
  split
  · refine called_of_kept (kept_bind (kept_invoke hK₁) fun v vm₂ hK₂ => ?_)
    exact kept_update hK₂
  · have hDropped : (dropWindow window vm₁).skel = K := by
      cases window with
      | none => exact hK₁
      | some recvStart => exact hK₁
    exact .inr ⟨_, congrArg _ hDropped⟩

/-! ## Native code and calls -/

theorem skel_mapTop_defers {d : DeferredCall T} :
    (vm.mapTop fun f => { f with defers := f.defers ++ [d] }).skel = vm.skel := by
  unfold VmState.mapTop VmState.skel
  cases vm.frames <;> rfl

theorem kept_runNative (n : Native T) : ∀ {vm : VmState T}, vm.skel = K →
    wp (contract h) (runNative h n) (Kept K) vm := by
  -- on what the native does; only another number of frames can tell it that one is gone
  induction n with
  | done r w =>
    intro vm hK
    refine kept_bind (kept_update hK) fun _ vm' hK' => ?_
    cases r with
    | ok v => exact hK'
    | error f => exact fell_of_eq (e := .fault f) hK'
  | run a w onFault onReturn k ih =>
    intro vm hK
    refine kept_bind (kept_update hK) fun _ vm' hK' => ?_
    refine kept_bind ?_ fun v vm'' hK'' => ih v _ hK''
    rw [wp_onError]
    refine wp_mono (ran_reenter (s := .call) hK') ?_
    rintro (e | v) vm'' hEnd
    · rw [ends_error]
      cases e with
      | nonLocalReturn => exact fell_congr (e := .nonLocalReturn) hEnd.1 rfl rfl
      | fault f => exact hEnd.1.or
    · exact hEnd
  | examine a w k ih =>
    intro vm hK
    refine kept_bind (kept_update hK) fun _ vm' hK' => ?_
    rw [wp_bind, wp_attempt]
    refine wp_mono (ran_reenter (s := .examined) hK') ?_
    rintro (e | v) vm'' hEnd
    · -- it goes on over as many frames, so over the same
      have hCount : vm''.skel.length = K.length := by
        rw [VmState.length_skel]
        exact not_not.mp hEnd.2
      have hK'' : vm''.skel = K := by
        rcases hEnd.1.or with hf | hf
        · exact (hf.eq_of_length hCount.symm).symm
        · exact hf.eq_of_length hCount
      exact ih _ _ hK''
    · exact ih _ _ hEnd
  | defer d w k ih =>
    intro vm hK
    refine kept_bind (kept_update ?_) fun _ vm' hK' => ih _ hK'
    exact skel_mapTop_defers.trans hK
  | compiled code w k ih =>
    intro vm hK
    refine kept_bind (kept_update hK) fun _ vm' hK' => ?_
    rw [wp_bind, wp_look, ends_ok]
    exact kept_bind (kept_runCode code hK') fun v vm'' hK'' => ih v _ hK''
  | protect b handlers cleanup w =>
    intro vm hK
    refine kept_bind (kept_update hK) fun _ vm' hK' => ?_
    cases cleanup with
    | none => exact kept_doCatch hK'
    | some cleanup => exact kept_doCatchFinally hK'

theorem called_fail {f : Fault T} (hK : vm.skel = K) :
    wp (α := α) (contract h) (fail (.fault f)) (Called K) vm := fell_of_eq (e := .fault f) hK

theorem kept_ensureInstantiable {cls : T.V} (hK : vm.skel = K) :
    wp (contract h) (ensureInstantiable h cls) (Kept K) vm := by
  unfold ensureInstantiable
  rw [wp_bind, wp_look, ends_ok]
  split
  · exact hK
  · rename_i f _
    exact fell_of_eq (e := .fault f) hK

theorem called_callNew {cls : T.V} {args : List T.V} (hK : vm.skel = K) :
    wp (contract h) (callNew h cls args) (Called K) vm := by
  refine called_bind (kept_ensureInstantiable hK) fun _ vm' hK' => ?_
  rw [wp_bind, wp_look, ends_ok]
  split
  · split
    · refine called_bind (kept_act hK') fun obj vm'' hK'' => ?_
      exact .inr ⟨_, congrArg _ hK''⟩
    · exact called_fail hK'
  · exact called_fail hK'

theorem kept_callNewNoBlock {cls : T.V} {args : List T.V} (hK : vm.skel = K) :
    wp (contract h) (callNewNoBlock h cls args) (Kept K) vm := by
  refine kept_bind (kept_ensureInstantiable hK) fun _ vm' hK' => ?_
  refine kept_bind (kept_of_ran (s := .call) (ran_ensure hK')) fun _ vm'' hK'' => ?_
  refine kept_bind (kept_act hK'') fun obj vm₃ hK₃ => ?_
  refine kept_bind (kept_update hK₃) fun _ vm₄ hK₄ => ?_
  rw [wp_onError]
  refine wp_mono (ran_finalizeInstantiation (s := .newInit) hK₄) ?_
  rintro (e | a) vm₅ hEnd
  · exact fell_congr hEnd.1 rfl rfl
  · exact hEnd

theorem called_call {receiver : T.V} {args : List T.V} {window : Option Nat} {c : Callable T}
    (hK : vm.skel = K) : wp (contract h) (c.call h receiver args window) (Called K) vm := by
  cases c with
  | block b => exact .inr ⟨_, congrArg _ hK⟩
  | metaclass cls => exact .inl hK
  | new cls => exact called_callNew hK
  | newNoBlock cls => exact called_of_kept (kept_callNewNoBlock hK)
  | native f | remote f =>
    show wp _ (look >>= fun vm => runNative h (f receiver args vm.world) >>= fun v =>
      update (·.push v)) _ vm
    rw [wp_bind, wp_look, ends_ok]
    refine called_of_kept (kept_bind (kept_runNative _ hK) fun v vm' hK' => ?_)
    exact kept_update hK'
  | aotCall b entry => exact called_callAot hK

/-! ## Instructions -/

/-- Where an instruction at `ip` leaves the `ip` of its frame. -/
def Next (ip ip' : Nat) : Option (Instruction T) → Prop
  | some (.compute _ offset) => ip' = ip + 1 ∨ ip' = jumpTarget ip offset
  | some (.construct _) | some .executeBlockWithSelf => ip' = ip + 1
  | _ => False

/-- The frame with its `ip` moved. -/
def Frame.at (f : Frame T) (ip : Nat) : Frame T := { f.core with ip }

/-- The frames an instruction leaves that `f` has executed over the frames `F`. -/
def Advanced (inst : Option (Instruction T)) (f : Frame T) (F : List (Frame T)) :
    Result T → VmState T → Prop
  | .ok .running, vm =>
    (∃ ip, Next f.ip ip inst ∧ (vm.skel = f.at ip :: F ∨ ∃ g, vm.skel = g :: f.at ip :: F)) ∨
      vm.skel = F
  | .ok (.finished _), _ => False
  | .ok (.yeeted _), vm => vm.skel = []
  | .error .nonLocalReturn, vm =>
    (∃ ip, vm.skel <:+ f.at ip :: F) ∨ (vm.nlrTarget.isSome ∧ F <:+ vm.skel)
  | .error (.fault _), vm => F <:+ vm.skel ∨ vm.skel <:+ F

variable {inst : Option (Instruction T)} {f : Frame T} {F : List (Frame T)} {i : Nat}

theorem advanced_of_fell {e : QuoinError T} (hf : Fell (f.at i :: F) e vm) :
    Advanced inst f F (.error e) vm := by
  cases e with
  | nonLocalReturn =>
    rcases hf with hf | ⟨hTarget, hf⟩
    · exact .inl ⟨i, hf⟩
    · exact .inr ⟨hTarget, (List.suffix_cons _ _).trans hf⟩
  | fault f' =>
    rcases hf with hf | hf
    · exact .inl ((List.suffix_cons _ _).trans hf)
    · rcases List.suffix_cons_iff.mp hf with hEq | hSuffix
      · exact .inl (hEq ▸ List.suffix_cons _ _)
      · exact .inr hSuffix

theorem advanced_of_fell_below {e : QuoinError T} (hf : Fell F e vm) :
    Advanced inst f F (.error e) vm := by
  cases e with
  | nonLocalReturn =>
    refine hf.imp_left fun hSuffix => ⟨f.ip, ?_⟩
    exact hSuffix.trans (List.suffix_cons _ _)
  | fault f' => exact hf

theorem advanced_fail {e : Fault T} (hK : vm.skel = f.at i :: F) :
    wp (α := VmStatus T) (contract h) (fail (.fault e)) (Advanced inst f F) vm := by
  show Advanced inst f F (.error (.fault e)) vm
  exact advanced_of_fell (fell_of_eq hK)

theorem skel_advance (hF : vm.skel = f.core :: F) :
    (vm.mapTop fun f => { f with ip := f.ip + 1 }).skel = f.at (f.ip + 1) :: F := by
  obtain ⟨frames, _, _, _, _, _, _, _⟩ := vm
  cases frames with
  | nil => exact absurd hF (by simp [VmState.skel])
  | cons g frames =>
    obtain ⟨hTop, hRest⟩ := List.cons.inj hF
    have hIp : g.core.ip = f.core.ip := congrArg Frame.ip hTop
    show { g.core with ip := g.core.ip + 1 } :: frames.map Frame.core = _
    rw [hIp, hTop, hRest]
    rfl

theorem skel_setIp (hF : vm.skel = f.core :: F) :
    (vm.setIp F.length i).skel = f.at i :: F := by
  obtain ⟨frames, _, _, _, _, _, _, _⟩ := vm
  cases frames with
  | nil => exact absurd hF (by simp [VmState.skel])
  | cons g frames =>
    obtain ⟨hTop, hRest⟩ := List.cons.inj hF
    have hCount : F.length = frames.length := by rw [← hRest, List.length_map]
    have hIdx : frames.length + 1 - 1 - F.length = 0 := by omega
    unfold VmState.setIp
    rw [if_pos (by simp [hCount])]
    show ((g :: frames).modify (frames.length + 1 - 1 - F.length) _).map Frame.core = _
    rw [hIdx]
    show { g.core with ip := i } :: frames.map Frame.core = _
    rw [hTop, hRest]
    rfl

theorem skel_setIp_popped (hF : vm.skel = F) : (vm.setIp F.length i).skel = F := by
  have hCount := length_of_eq hF
  unfold VmState.setIp
  rw [if_neg (by omega)]
  exact hF

theorem advanced_running (hIp : Next f.ip i inst)
    (hPushed : vm.skel = f.at i :: F ∨ ∃ g, vm.skel = g :: f.at i :: F) :
    Advanced inst f F (.ok .running) vm := .inl ⟨i, hIp, hPushed⟩

theorem advanced_dispatchSendRooted {c : Callable T} {receiver : T.V} {args : List T.V}
    {recvStart : Nat} (hIp : Next f.ip i inst) (hK : vm.skel = f.at i :: F) :
    wp (contract h) (dispatchSendRooted h c receiver args recvStart) (Advanced inst f F) vm := by
  unfold dispatchSendRooted
  split
  · rw [wp_bind, wp_attempt]
    refine wp_mono (called_call hK) ?_
    rintro (e | a) vm' hEnd
    · have hFell : Advanced inst f F (.error e) vm' := advanced_of_fell hEnd
      cases e with
      | nonLocalReturn => exact hFell
      | fault f' => exact hFell
    · have hSame : (vm'.reseat recvStart).skel = vm'.skel := by
        unfold VmState.reseat
        split
        · split <;> rfl
        · rfl
      refine advanced_running hIp ?_
      rw [hSame]
      exact hEnd
  · rw [wp_bind, wp_update, ends_ok]
    refine wp_seq (called_call hK) (fun _ vm'' hCalled => advanced_running hIp hCalled) ?_
    intro e vm'' he
    exact advanced_of_fell he

theorem advanced_execSend {selector : String} {numArgs : Nat} (hIp : Next f.ip (f.ip + 1) inst)
    (hF : vm.skel = f.core :: F) :
    wp (contract h) (execSend h selector numArgs) (Advanced inst f F) vm := by
  unfold execSend
  rw [wp_bind, wp_look, ends_ok]
  split
  · exact advanced_fail (i := f.ip) hF
  · have hK := skel_advance hF
    rw [wp_bind, wp_update, ends_ok]
    split
    · exact advanced_running hIp (.inr ⟨_, congrArg _ hK⟩)
    · rw [wp_bind, wp_onError]
      refine wp_mono (ran_lookupMethod hK) ?_
      rintro (e | c) vm' hEnd
      · have hFell : Fell (f.at (f.ip + 1) :: F) e vm' := hEnd.1
        exact advanced_of_fell (fell_congr hFell rfl rfl)
      · rw [ends_ok, ends_ok]
        cases c with
        | some c => exact advanced_dispatchSendRooted hIp hEnd
        | none => exact advanced_fail (i := f.ip + 1) (by exact hEnd)

/-- A step of an instruction that leaves the frames as they were, then the rest of it. -/
theorem advanced_bind {x : Rust T α} {k : α → Rust T (VmStatus T)}
    (hx : wp (contract h) x (Kept (f.at i :: F)) vm)
    (hk : ∀ a vm', vm'.skel = f.at i :: F → wp (contract h) (k a) (Advanced inst f F) vm') :
    wp (contract h) (x >>= k) (Advanced inst f F) vm :=
  wp_seq hx hk fun _ _ he => advanced_of_fell he

theorem advanced_execCompute {op : T.Op} {offset : Int} (hF : vm.skel = f.core :: F) :
    wp (contract h) (execCompute h op offset f F.length)
      (Advanced (some (.compute op offset)) f F) vm := by
  refine advanced_bind (i := f.ip) (kept_of_ran (s := .call) (ran_popN _ hF))
    fun operands vm' hF' => ?_
  refine advanced_bind (i := f.ip) (kept_act hF') fun r vm'' hF'' => ?_
  split
  · exact advanced_fail (i := f.ip) hF''
  · exact advanced_running (.inl rfl) (.inl (skel_setIp (by exact hF'')))
  · exact advanced_running (.inr rfl) (.inl (skel_setIp (by exact hF'')))
  · refine advanced_bind (i := f.ip) (kept_update hF'') fun _ vm₃ hF₃ => ?_
    exact advanced_execSend (.inl rfl) hF₃

theorem advanced_execConstruct {op : T.Op} (hF : vm.skel = f.core :: F) :
    wp (contract h) (execConstruct h op f F.length) (Advanced (some (.construct op)) f F) vm := by
  unfold execConstruct
  rw [wp_bind, wp_look, ends_ok]
  refine advanced_bind (i := f.ip) (kept_of_ran (s := .call) (ran_ensure hF))
    fun _ vm' hF' => ?_
  refine advanced_bind (i := f.ip) (kept_update hF') fun _ vm'' hF'' => ?_
  refine advanced_bind (i := f.ip) (kept_runNative _ hF'') fun v vm₃ hF₃ => ?_
  exact advanced_running rfl (.inl (skel_setIp (by exact hF₃)))

theorem advanced_execBlockWithSelf (hF : vm.skel = f.core :: F) :
    wp (contract h) (execBlockWithSelf h) (Advanced (some .executeBlockWithSelf) f F) vm := by
  unfold execBlockWithSelf
  refine advanced_bind (i := f.ip) (kept_pop hF) fun block vm₁ hF₁ => ?_
  refine advanced_bind (i := f.ip) (kept_pop hF₁) fun self vm₂ hF₂ => ?_
  refine advanced_bind (i := f.ip) (kept_of_ran (s := .call) (ran_ensure hF₂))
    fun _ vm₃ hF₃ => ?_
  rw [wp_bind, wp_look, ends_ok]
  split
  · simp only [wp_bind, wp_update, wp_act, ends_ok]
    exact advanced_running rfl (.inr ⟨_, congrArg _ (skel_advance hF₃)⟩)
  · exact advanced_fail (i := f.ip) hF₃

theorem wp_popFrame {c : Contract (Request T) (Result T) (VmState T)}
    {post : Except (QuoinError T) (Option (Frame T)) → VmState T → Prop}
    (hsome : ∀ g frames, vm.frames = g :: frames → post (.ok (some g)) { vm with frames })
    (hnone : vm.frames = [] → post (.ok none) vm) :
    wp c popFrame post vm := by
  unfold popFrame
  rw [wp_bind, wp_look, ends_ok]
  split
  · rename_i g frames hFrames
    exact hsome g frames hFrames
  · rename_i hFrames
    exact hnone hFrames

/-- A frame popped and consumed. -/
theorem kept_endFrame {ret : T.V} {g : Frame T} (hF : vm.skel = g :: F) :
    wp (contract h) (endFrame h ret) (Kept F) vm := by
  unfold endFrame
  rw [wp_bind]
  refine wp_popFrame (fun g' frames hFrames => ?_) fun hFrames => ?_
  · have hRest : frames.map Frame.core = F := by
      have hSkel : (g' :: frames).map Frame.core = g :: F := hFrames ▸ hF
      exact (List.cons.inj hSkel).2
    refine kept_bind (kept_update hRest) fun _ vm' hK' => ?_
    refine kept_bind (kept_of_ran (s := .init) (ran_consumePoppedFrame hK'))
      fun v vm'' hK'' => ?_
    exact kept_update hK''
  · have hSkel : ([] : List (Frame T)) = g :: F := by
      rw [← hF, VmState.skel, hFrames, List.map_nil]
    contradiction

theorem advanced_implicitReturn (hF : vm.skel = f.core :: F) :
    wp (contract h) (implicitReturn h f) (Advanced none f F) vm := by
  refine advanced_bind (i := f.ip) (kept_runFrameDefers hF) fun _ vm' hF' => ?_
  refine wp_seq (kept_endFrame hF') (fun _ vm'' hK => .inr hK) ?_
  exact fun e vm'' he => advanced_of_fell_below he

theorem advanced_execReturn (hF : vm.skel = f.core :: F) :
    wp (contract h) (execReturn h f F.length) (Advanced (some .ret) f F) vm := by
  refine advanced_bind (i := f.ip) (kept_runFrameDefers hF) fun _ vm' hF' => ?_
  refine advanced_bind (i := f.ip) (kept_pop hF') fun ret vm'' hF'' => ?_
  refine wp_seq (kept_endFrame hF'') (fun _ vm₃ hK => .inr (skel_setIp_popped hK)) ?_
  exact fun e vm₃ he => advanced_of_fell_below he

theorem unwound_unwindFrame {target : FrameId} {ret : T.V} {home : Option (FrameMark T)} :
    wp (contract h) (unwindFrame h target ret home) (Unwound vm.skel) vm := by
  unfold unwindFrame
  rw [wp_bind]
  refine wp_popFrame (fun g frames hFrames => ?_) fun hFrames => ?_
  · have hSkel : vm.skel = g.core :: frames.map Frame.core := skel_cons hFrames
    have hRest : frames.map Frame.core <:+ vm.skel := hSkel ▸ List.suffix_cons _ _
    refine wp_seq (ran_consumePoppedFrame (K := frames.map Frame.core) (s := .unwindingInit) rfl)
      (fun v vm' hK => ?_) fun e vm' he => ?_
    · split
      · exact suffix_of_eq (K := vm'.skel) rfl |>.trans (hK ▸ hRest)
      · refine wp_ask.mpr ⟨Nat.le_refl _, ?_⟩
        intro r vm'' hRely
        have hLeaves : Unwound vm'.skel r vm'' := hRely.1
        cases r with
        | ok _ => exact hLeaves
        | error e =>
          have hSuffix : vm''.skel <:+ vm'.skel := hLeaves
          rw [hK] at hSuffix
          exact hSuffix.trans hRest
    · have hSuffix : vm'.skel <:+ frames.map Frame.core := he.2
      exact hSuffix.trans hRest
  · exact List.suffix_refl vm.skel

theorem unwound_unwindRound {target : FrameId} {ret : T.V} {home : Option (FrameMark T)} :
    wp (contract h) (unwindRound h target ret home) (Unwound vm.skel) vm := by
  unfold unwindRound
  rw [wp_bind, wp_look, ends_ok]
  split
  · exact List.suffix_refl vm.skel
  · exact unwound_unwindFrame

theorem advanced_execMethodReturn (hF : vm.skel = f.core :: F) :
    wp (contract h) (execMethodReturn h f) (Advanced (some .methodReturn) f F) vm := by
  refine advanced_bind (i := f.ip) (kept_pop hF) fun ret vm' hF' => ?_
  split
  · rw [wp_bind, wp_look, ends_ok]
    refine wp_ask.mpr ⟨Nat.le_refl _, ?_⟩
    intro r vm'' hRely
    have hLeaves : Unwound vm'.skel r vm'' := hRely.1
    rw [hF'] at hLeaves
    cases r with
    | ok _ => exact hLeaves.elim
    | error e => exact advanced_of_fell (i := f.ip) (.of_suffix hLeaves)
  · exact advanced_fail (i := f.ip) hF'

/-- An instruction, executed by `f` over the frames `F`. -/
theorem advanced_dispatchOne {bytecode : Bytecode T} (hF : vm.skel = f.core :: F) :
    wp (contract h) (dispatchOne h bytecode f) (Advanced bytecode[f.ip]? f F) vm := by
  have hIdx : vm.frames.length - 1 = F.length := by
    rw [length_of_eq hF, List.length_cons, Nat.add_sub_cancel]
  unfold dispatchOne
  rw [wp_bind, wp_look, ends_ok, hIdx]
  generalize bytecode[f.ip]? = inst
  cases inst with
  | none => exact advanced_implicitReturn hF
  | some inst =>
    cases inst with
    | compute op offset => exact advanced_execCompute hF
    | construct op => exact advanced_execConstruct hF
    | executeBlockWithSelf => exact advanced_execBlockWithSelf hF
    | ret => exact advanced_execReturn hF
    | methodReturn => exact advanced_execMethodReturn hF
    | yeet =>
      refine advanced_bind (i := f.ip) (kept_pop hF) fun v vm' hF' => ?_
      exact rfl

/-- What the machine runs for a call, or a round of unwinding. -/
theorem leaves_perform {q : Request T} (hq : ∀ s n context, q ≠ .nested s n context) :
    wp (contract h) (perform h q) (q.Leaves vm) vm := by
  cases q with
  | nested s n context => exact absurd rfl (hq s n context)
  | call s c receiver args window =>
    refine wp_seq (called_call rfl) (fun _ vm' hCalled => hCalled) fun e vm' he => he
  | unwind target ret home => exact unwound_unwindRound

end Quoin.Control
