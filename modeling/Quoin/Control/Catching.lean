import Mathlib
import Quoin.Control.Compiled

/-!
# Quoin — what natives do to the operands

`catch:` and `finally:` leave the operands they were called over, under others when
they have caught an error. With a `^^` in flight they run the `finally` block over
what the `^^` has left, and leave that as it was. A `^^` on its way to a compiled
method is not offered to the handlers, and the `finally` block is run over the value
the `^^` has left for the method.

## Results

* `loosely_doCatch`, `loosely_doCatchFinally` — the natives of the `catch:` family;
* `loosely_runNative` — any native, and `served_call` — any call.
-/

namespace Quoin.Control

open Trans Resumable

variable {T : Sig} {α β : Type} {D : Option FrameId → List (Frame T) → List T.V → Prop}
  {h : Host T} {K : List (Frame T)} {S : List T.V} {vm : VmState T}

/-- What a native leaves. -/
abbrev Loosely (D : Option FrameId → List (Frame T) → List T.V → Prop) (K : List (Frame T))
    (S : List T.V) : Except (QuoinError T) α → VmState T → Prop :=
  ends (fun _ vm => Over K S vm) (Broke D K S)

theorem loosely_then {x : Rust T α} {f : α → Rust T β} {P : VmState T → Prop}
    {post : Except (QuoinError T) β → VmState T → Prop}
    (hx : wp (discipline D h) x (ends (fun _ vm' => P vm') (Broke D K S)) vm)
    (hf : ∀ a vm', P vm' → wp (discipline D h) (f a) post vm')
    (herror : ∀ e vm', Broke D K S e vm' → post (.error e) vm') :
    wp (discipline D h) (x >>= f) post vm := wp_seq hx hf herror

theorem wp_fault {P : α → VmState T → Prop} {f : Fault T} (hOver : Over K S vm) :
    wp (discipline D h) (fail (.fault f)) (ends P (Broke D K S)) vm := by
  show Broke D K S (.fault f) vm
  exact broke_of_over hOver

theorem wp_ensure {ok : Bool} {f : Fault T} (hAt : At K S vm) :
    wp (discipline D h) (ensure ok f) (ends (fun _ vm' => At K S vm') (Broke D K S)) vm := by
  unfold ensure
  split
  · exact hAt
  · exact wp_fault (over_of_at hAt)

/-- Code run at a site over at least the operands asked for. -/
theorem loosely_of_ends {s : Site T} {S' : List T.V} {x : Rust T α} {P : VmState T → Prop}
    (hS : S <:+ S') (hP : ∀ vm', P vm' → Over K S' vm')
    (hx : wp (discipline D h) x (Ends D h s K S' P) vm) :
    wp (discipline D h) x (Loosely D K S) vm := by
  refine wp_mono hx ?_
  rintro (e | v) vm' hEnd
  · exact hEnd.1.mono hS
  · have hOver := hP vm' hEnd
    exact ⟨hOver.1, hS.trans hOver.2⟩

theorem loosely_unwind {r : Except (QuoinError T) α} (hr : Loosely D K S r vm) :
    Loosely D K S r (vm.unwind K.length) := by
  cases r with
  | ok v => exact ⟨unwind_of_above (hr.1 ▸ List.suffix_refl _), hr.2⟩
  | error e => exact (broke_unwind hr).1

/-! ## Handlers -/

/-- A handler has not been run, or a `finally` block can be begun after it if it has failed with a
`^^` to a compiled method. -/
def Roomy (h : Host T) : Except (QuoinError T) α → VmState T → Prop :=
  ends (fun _ _ => True) fun e vm =>
    e = .nonLocalReturn → vm.nlrTarget.isSome → h.stackHeadroom vm.depth = true

/-- The error of a protected block is offered to the handlers: one is run over the operands there
are, or the error goes on. -/
theorem loosely_handle {handlers : List T.V} {cleanup : Option (Block T)} {e : QuoinError T}
    (hG : Grounded K S) (hb : Broke D K S e vm) (hCalm : Calm h (.catching handlers cleanup) K e vm)
    (ho : e.offered vm) :
    wp (discipline D h) (handle h handlers e) (fun r vm' => Loosely D K S r vm' ∧ Roomy h r vm')
      (vm.unwind K.length) := by
  obtain ⟨hUnwound, -⟩ := broke_unwind hb
  unfold handle
  simp only [wp_bind, wp_act, wp_look, ends_ok]
  split
  · rename_i b hMatch
    rcases over_of_offered hb ho with hOver | hLow
    · rw [wp_bind, wp_update, ends_ok]
      refine wp_mono (ends_executeBlock (fun _ => trivial) (hG.mono hOver.2) ⟨hOver.1, rfl⟩) ?_
      rintro (e' | v) vm' hEnd
      · refine ⟨hEnd.1.mono hOver.2, ?_⟩
        rintro rfl hSome
        exact Bool.not_eq_false _ ▸ fun hNone => hEnd.2.2 ⟨hSome, hNone⟩
      · exact ⟨⟨hEnd.1.1, hEnd.1.2 ▸ hOver.2⟩, trivial⟩
    · -- a `^^` would be caught
      exact absurd ⟨hLow, ho, Option.isSome_of_mem hMatch⟩ hCalm.1
  · refine ⟨broke_congr hUnwound rfl rfl rfl, ?_⟩
    rintro rfl hSome
    have hNone : vm.nlrTarget.isNone := ho
    have hSome : vm.nlrTarget.isSome := hSome
    rw [Option.isNone_iff_eq_none.mp hNone] at hSome
    contradiction

theorem loosely_doCatch {b : Block T} {handlers : List T.V} (hG : Grounded K S)
    (hOver : Over K S vm) : wp (discipline D h) (doCatch h b handlers) (Loosely D K S) vm := by
  have hCount := length_of_eq hOver.1
  unfold doCatch
  rw [wp_bind, wp_look, ends_ok, hCount, wp_bind, wp_attempt]
  refine wp_mono (ends_executeBlock (fun _ => trivial) (hG.mono hOver.2) ⟨hOver.1, rfl⟩) ?_
  rintro (e | v) vm' hEnd
  · have hb : Broke D K S e vm' := hEnd.1.mono hOver.2
    rw [ends_ok]
    dsimp only
    rw [wp_bind, wp_look, ends_ok, wp_bind, wp_update, ends_ok]
    split
    · rename_i ho
      rw [wp_ensuring]
      refine wp_mono (loosely_handle hG hb hEnd.2 ho) ?_
      intro r vm'' hr
      exact loosely_unwind hr.1
    · exact (broke_unwind hb).1
  · have hAt : At K vm.stack vm' := hEnd.1
    exact ⟨hAt.1, hAt.2 ▸ hOver.2⟩

/-! ## `finally` blocks -/

/-- The `finally` block leaves the value it is run over on top. -/
theorem loosely_finish {cleanup : Block T} {v : T.V} (hG : Grounded K S) (hOver : Over K S vm) :
    wp (discipline D h) (finish h cleanup v) (Loosely D K S) vm := by
  have hTop : At K (v :: vm.stack) (vm.push v) := ⟨hOver.1, rfl⟩
  have hCount : vm.frames.length = K.length := length_of_eq hOver.1
  have hS : S <:+ v :: vm.stack := hOver.2.trans (List.suffix_cons v _)
  unfold finish runFinally
  simp only [wp_bind, wp_update, wp_look, wp_attempt, ends_ok]
  refine wp_mono (ends_executeBlock (fun _ => ⟨rfl, rfl, by simp⟩) (hG.mono hS) hTop) ?_
  rintro (e | a) vm' hEnd
  · have hb : Broke D K (v :: vm.stack) e vm' := hEnd.1
    split
    · exact hb.mono hS
    · rename_i hNotLow
      have hNotLow : ¬ vm'.frames.length < K.length := by
        have hSame : (vm.push v).frames.length = K.length := hCount
        omega
      cases e with
      | nonLocalReturn =>
        -- one to a compiled method over the same frames would lose its value
        cases hTarget : vm'.nlrTarget with
        | none => exact absurd (landed_length (hb.landed hTarget)) hNotLow
        | some id => exact absurd ⟨by rw [hTarget]; rfl, Nat.le_of_not_lt hNotLow⟩ hEnd.2.2
      | fault f =>
        rcases hb with ⟨hK, hStack⟩ | hLow
        · obtain ⟨t, hStack⟩ := hStack
          -- what comes off is the value, or something above it
          obtain ⟨y, rest, hTop, hRest⟩ : ∃ y rest, vm'.stack = y :: rest ∧ vm.stack <:+ rest := by
            cases t with
            | nil => exact ⟨v, vm.stack, hStack.symm, List.suffix_refl _⟩
            | cons y t =>
              refine ⟨y, t ++ v :: vm.stack, hStack.symm, ?_⟩
              exact (List.suffix_cons _ _).trans (List.suffix_append _ _)
          rw [wp_bind, wp_pop_cons hTop, ends_ok]
          exact .inl ⟨hK, hOver.2.trans hRest⟩
        · exact absurd (low_length hLow) hNotLow
  · have hAt : At K (v :: vm.stack) vm' := hEnd.1
    have hSame : ¬ vm'.frames.length < (vm.push v).frames.length := by
      have hCount' := length_of_eq hAt.1
      have hPushed : (vm.push v).frames.length = K.length := hCount
      omega
    rw [if_neg hSame, wp_bind, wp_pop_cons hAt.2, ends_ok]
    exact ⟨hAt.1, hOver.2⟩

/-- A `finally` block run over what an error has left loses no frames there, and leaves none. -/
theorem calm_cleanup {low : Bool} {after : After T} {target : Option FrameId} {operands : Nat}
    {e : QuoinError T} {frames : Nat} (hLow : low = decide (vm.frames.length < frames))
    {vm' : VmState T} (hCalm : Calm h (.cleanup low after target operands) vm.skel e vm') :
    vm.frames.length < frames → vm'.frames.length ≤ vm.frames.length := by
  intro hLess
  have hTrue : low = true := by rw [hLow, decide_eq_true hLess]
  subst hTrue
  have hNot : ¬ vm.skel.length < vm'.frames.length := hCalm.1
  rw [VmState.length_skel] at hNot
  omega

/-- After an error no handler has caught: the error goes on, or that of the `finally` block does. -/
theorem broke_finishError {cleanup : Block T} {err : QuoinError T} (hG : Grounded K S)
    (hb : Broke D K S err vm) (hCount : vm.frames.length ≤ K.length)
    (hRoom : err = .nonLocalReturn → vm.nlrTarget.isSome → h.stackHeadroom vm.depth = true) :
    wp (discipline D h) (finishError h cleanup (decide (vm.frames.length < K.length)) err)
      (Loosely D K S) vm := by
  have hGrounded := grounded_of_broke hG hb hCount
  unfold finishError runFinally
  simp only [wp_bind, wp_look, wp_attempt, ends_ok]
  -- where no block can be re-entered the pending `^^` is none to a compiled method
  have hBegins : h.stackHeadroom vm.depth = false →
      Site.Begins (.cleanup (decide (vm.frames.length < K.length)) (.error err) vm.nlrTarget
        vm.stack.length) vm := by
    refine fun hNone => ⟨rfl, rfl, fun hErr => ?_⟩
    obtain rfl : err = .nonLocalReturn := by injection hErr
    by_contra hSome
    rw [hRoom rfl (Option.isSome_iff_ne_none.mpr hSome)] at hNone
    contradiction
  refine wp_mono (ends_executeBlock hBegins hGrounded ⟨rfl, rfl⟩) ?_
  rintro (e | a) vm' hEnd
  · -- a `^^` to a compiled method would be lost
    have hNot : err = .nonLocalReturn → vm.nlrTarget = none := by
      rintro rfl
      have hCuts := hEnd.2.2
      cases hTarget : vm.nlrTarget with
      | none => rfl
      | some id =>
        rw [hTarget] at hCuts
        exact absurd trivial hCuts
    have hAfter : Broke D K S e vm' :=
      hb.trans hG hCount hNot hEnd.1 fun hLow => .inl (calm_cleanup rfl hEnd.2 hLow)
    split
    · exact hAfter
    · exact hAfter
  · -- the block ended well, so the pending error goes on as it was
    obtain ⟨hAt, hSame⟩ := hEnd
    have hNotLow : ¬ vm'.frames.length < vm.frames.length := by
      have hCount' := length_of_eq hAt.1
      rw [VmState.length_skel] at hCount'
      omega
    rw [if_neg hNotLow]
    cases err with
    | nonLocalReturn => exact broke_congr hb hAt.1 hAt.2 (not_not.mp hSame)
    | fault f =>
      have hAfter : Broke D K S (.fault f) vm' := broke_fault_congr hb hAt.1 hAt.2
      exact hAfter

/-- What a `finally` block has left that was run while a `^^` was on its way, and has failed: the
frames it has left are popped, and the value is still on top. -/
theorem unwind_passing {low : Bool} {f : Fault T} {target : Option FrameId} {operands : Nat}
    {vm' : VmState T} (hCount : vm.frames.length ≤ K.length)
    (hLow : low = decide (vm.frames.length < K.length)) (hTarget : target = vm.nlrTarget)
    (hOperands : operands = vm.stack.length)
    (hAfter : Broke D vm.skel vm.stack (.fault f) vm')
    (hCalm : Calm h (.cleanup low (.passing .nonLocalReturn) target operands) vm.skel (.fault f)
      vm') :
    (vm'.unwind K.length).skel = vm.skel ∧ vm'.stack = vm.stack ∧
      vm'.nlrTarget = vm.nlrTarget := by
  have hNot : ¬ (vm'.frames.length < vm.skel.length ∨ vm'.nlrTarget ≠ target ∨
      vm'.stack.length ≠ operands) := hCalm.2
  obtain ⟨hFrames, hSame⟩ := not_or.mp hNot
  obtain ⟨hSameTarget, hSameOperands⟩ := not_or.mp hSame
  rcases hAfter with ⟨hAbove, hOver⟩ | hBelow
  · refine ⟨?_, ?_, (not_not.mp hSameTarget).trans hTarget⟩
    · rcases Nat.lt_or_ge vm.frames.length K.length with hLess | hAll
      · -- frames of the caller are gone, and the block has left none
        have hNoMore := calm_cleanup hLow hCalm hLess
        have hEq : vm.skel = vm'.skel := hAbove.eq_of_length (by
          have := hAbove.length_le
          simp only [VmState.length_skel] at *
          omega)
        rw [unwind_of_low (by omega)]
        exact hEq.symm
      · have hLength : K.length = vm.skel.length := by
          rw [VmState.length_skel]
          omega
        rw [hLength]
        exact unwind_of_above hAbove
    · refine (hOver.eq_of_length ?_).symm
      rw [← hOperands]
      exact (not_not.mp hSameOperands).symm
  · have hLess := low_length hBelow
    exact absurd hLess hFrames

theorem broke_cleanUp {cleanup : Block T} {e : QuoinError T} (hG : Grounded K S)
    (hb : Broke D K S e vm) :
    wp (discipline D h) (cleanUp h K.length cleanup e) (Loosely D K S) vm := by
  obtain ⟨hUnwound, hCount⟩ := broke_unwind hb
  have hGrounded := grounded_of_broke hG hUnwound hCount
  unfold cleanUp runFinally
  simp only [wp_bind, wp_update, wp_look, wp_attempt, ends_ok]
  refine wp_mono (ends_executeBlock (fun _ => ⟨rfl, rfl, by simp⟩) hGrounded ⟨rfl, rfl⟩) ?_
  rintro (e' | a) vm' hEnd
  · cases e' with
    | nonLocalReturn => exact absurd trivial hEnd.2.2
    | fault f' =>
      cases e with
      | fault f =>
        have hAfter : Broke D K S (.fault f') vm' :=
          hUnwound.trans hG hCount (by simp) hEnd.1 fun hLow => .inl (calm_cleanup rfl hEnd.2 hLow)
        have hPassed : Broke D K S (.fault f) (vm'.unwind K.length) :=
          broke_fault_congr (broke_unwind hAfter).1 rfl rfl
        exact hPassed
      | nonLocalReturn =>
        obtain ⟨hSkel, hStack, hTarget⟩ := unwind_passing hCount rfl rfl rfl hEnd.1 hEnd.2
        exact broke_congr hUnwound hSkel hStack hTarget
  · obtain ⟨hAt, hSame⟩ := hEnd
    have hAfter : Broke D K S e vm' := by
      cases e with
      | nonLocalReturn => exact broke_congr hUnwound hAt.1 hAt.2 (not_not.mp hSame)
      | fault f => exact broke_fault_congr hUnwound hAt.1 hAt.2
    exact (broke_unwind hAfter).1

theorem loosely_doCatchFinally {b : Block T} {handlers : List T.V} {cleanup : Block T}
    (hG : Grounded K S) (hOver : Over K S vm) :
    wp (discipline D h) (doCatchFinally h b handlers cleanup) (Loosely D K S) vm := by
  have hCount := length_of_eq hOver.1
  unfold doCatchFinally afterError
  rw [wp_bind, wp_look, ends_ok, hCount, wp_bind, wp_attempt]
  refine wp_mono (ends_executeBlock (fun _ => trivial) (hG.mono hOver.2) ⟨hOver.1, rfl⟩) ?_
  rintro (e | v) vm' hEnd
  · have hb : Broke D K S e vm' := hEnd.1.mono hOver.2
    rw [ends_ok]
    dsimp only
    rw [wp_bind, wp_look, ends_ok]
    split
    · rename_i ho
      simp only [wp_bind, wp_update, wp_attempt, ends_ok]
      refine wp_mono (loosely_handle hG hb hEnd.2 ho) ?_
      rintro r vm'' ⟨hr, hRoom⟩
      have hr' : Loosely D K S r (vm''.unwind K.length) := loosely_unwind hr
      cases r with
      | ok v => exact loosely_finish hG hr'
      | error err =>
        dsimp only
        rw [wp_bind, wp_look, ends_ok]
        exact broke_finishError hG hr' (broke_unwind hr).2 hRoom
    · exact broke_cleanUp hG hb
  · have hAt : At K vm.stack vm' := hEnd.1
    exact loosely_finish hG ⟨hAt.1, hAt.2 ▸ hOver.2⟩

/-! ## Native code and calls -/

/-- An error that native code looks at has left the frames it was called over. -/
theorem over_of_examined {e : QuoinError T} (hb : Broke D K S e vm)
    (hCalm : Calm h .examined K e vm) : Over K S vm := by
  have hCount : vm.frames.length = K.length := not_not.mp hCalm.1
  cases e with
  | nonLocalReturn =>
    cases hTarget : vm.nlrTarget with
    | none => exact absurd (landed_length (hb.landed hTarget)) (by omega)
    | some id =>
      have hSome : vm.nlrTarget.isSome := by rw [hTarget]; rfl
      exact absurd hSome hCalm.2
  | fault f =>
    rcases hb with ⟨hK, hS⟩ | hLow
    · refine ⟨(hK.eq_of_length ?_).symm, hS⟩
      rw [VmState.length_skel]
      omega
    · exact absurd (low_length hLow) (by omega)

theorem loosely_runNative (n : Native T) (hG : Grounded K S) : ∀ {vm : VmState T}, Over K S vm →
    wp (discipline D h) (runNative h n) (Loosely D K S) vm := by
  have hReenter {s : Site T} (hs : s.isCleanup = false) {a : Reentry T} {vm : VmState T}
      (hOver : Over K S vm) :
      wp (discipline D h) (reenter h s a) (Ends D h s K S (Over K S)) vm :=
    ends_mono hOver.2 (fun _ hEnd => ⟨hEnd.1, hOver.2.trans hEnd.2⟩)
      (ends_reenter hs (hG.mono hOver.2) ⟨hOver.1, rfl⟩)
  have hUpdate {f : VmState T → VmState T} {vm : VmState T} (hOver : Over K S (f vm)) :
      wp (discipline D h) (update f) (Loosely D K S) vm := hOver
  induction n with
  | done r w =>
    intro vm hOver
    refine loosely_then (hUpdate hOver) (fun _ vm' hOver' => ?_) fun _ _ he => he
    cases r with
    | ok v => exact hOver'
    | error f =>
      show Broke D K S (.fault f) vm'
      exact broke_of_over hOver'
  | run a w onFault onReturn k ih =>
    intro vm hOver
    refine loosely_then (hUpdate hOver) (fun _ vm' hOver' => ?_) fun _ _ he => he
    -- what is passed on for an error leaves the frames and operands as the error has
    have hRun {g : QuoinError T → VmState T → QuoinError T × VmState T}
        (hg : ∀ e vm, Broke D K S e vm → Broke D K S (g e vm).1 (g e vm).2) :
        wp (discipline D h) (onError (reenter h .call a) g) (Loosely D K S) vm' := by
      rw [wp_onError]
      refine wp_mono (hReenter rfl hOver') ?_
      rintro (e | v) vm'' hEnd
      · exact hg e vm'' hEnd.1
      · exact hEnd
    refine loosely_then (hRun fun e vm he => ?_) (fun v vm'' hOver'' => ih v _ hOver'')
      fun _ _ he => he
    cases e <;> exact he
  | examine a w k ih =>
    intro vm hOver
    refine loosely_then (hUpdate hOver) (fun _ vm' hOver' => ?_) fun _ _ he => he
    rw [wp_bind, wp_attempt]
    refine wp_mono (hReenter rfl hOver') ?_
    rintro (e | v) vm'' hEnd
    · exact ih _ _ (over_of_examined hEnd.1 hEnd.2)
    · exact ih _ _ hEnd
  | defer d w k ih =>
    intro vm hOver
    refine loosely_then (hUpdate ⟨?_, hOver.2⟩) (fun _ vm' hOver' => ih _ hOver') fun _ _ he => he
    rw [skel_mapTop_defers]
    exact hOver.1
  | compiled code w k ih =>
    intro vm hOver
    refine loosely_then (hUpdate hOver) (fun _ vm' hOver' => ?_) fun _ _ he => he
    rw [wp_bind, wp_look, ends_ok]
    have hCode : wp (discipline D h) (runCode h none vm'.stack.length code) (Loosely D K S) vm' :=
      loosely_of_ends (List.suffix_refl _) (fun _ hEnd => hEnd)
        (ends_runCode code hG hOver'.2.length_le hOver')
    exact loosely_then hCode (fun v vm'' hOver'' => ih v _ hOver'') fun _ _ he => he
  | protect b handlers cleanup w =>
    intro vm hOver
    refine loosely_then (hUpdate hOver) (fun _ vm' hOver' => ?_) fun _ _ he => he
    cases cleanup with
    | none => exact loosely_doCatch hG hOver'
    | some cleanup => exact loosely_doCatchFinally hG hOver'

theorem wp_ensureInstantiable {cls : T.V} (hAt : At K S vm) :
    wp (discipline D h) (ensureInstantiable h cls) (ends (fun _ vm' => At K S vm') (Broke D K S))
      vm := by
  unfold ensureInstantiable
  rw [wp_bind, wp_look, ends_ok]
  split
  · exact hAt
  · exact wp_fault (over_of_at hAt)

theorem served_callNew {loose : Bool} {cls : T.V} {args : List T.V} (hAt : At K S vm) :
    wp (discipline D h) (callNew h cls args) (Served D loose K S) vm := by
  unfold callNew
  refine loosely_then (wp_ensureInstantiable hAt) (fun _ vm' hAt' => ?_) fun _ _ he => he
  rw [wp_bind, wp_look, ends_ok]
  split
  · split
    · obtain ⟨rfl, rfl⟩ := hAt'
      exact .inr ⟨_, rfl, rfl, rfl, rfl⟩
    · exact wp_fault (over_of_at hAt')
  · exact wp_fault (over_of_at hAt')

theorem served_callNewNoBlock {loose : Bool} {cls : T.V} {args : List T.V} (hG : Grounded K S)
    (hAt : At K S vm) :
    wp (discipline D h) (callNewNoBlock h cls args) (Served D loose K S) vm := by
  unfold callNewNoBlock
  refine loosely_then (wp_ensureInstantiable hAt) (fun _ vm₁ hAt₁ => ?_) fun _ _ he => he
  refine loosely_then (wp_ensure hAt₁) (fun _ vm₂ hAt₂ => ?_) fun _ _ he => he
  unfold newObject
  simp only [wp_bind, wp_act, wp_update, wp_onError, ends_ok]
  have hTop : At K ((h.newObject cls vm₂.world).1 :: S)
      ((vm₂.setWorld (h.newObject cls vm₂.world).2).push (h.newObject cls vm₂.world).1) :=
    ⟨hAt₂.1, congrArg _ hAt₂.2⟩
  refine wp_mono (ends_finalizeInstantiation (s := .newInit) rfl
    (hG.mono (List.suffix_cons _ S)) hTop) ?_
  rintro (e | a) vm₃ hEnd
  · obtain ⟨hb, hCalm⟩ := hEnd
    cases e with
    | nonLocalReturn => exact absurd trivial hCalm.2
    | fault f =>
      have hNotLow : ¬ vm₃.frames.length < K.length := hCalm.2
      rcases hb with ⟨hK, t, hStack⟩ | hLow
      · -- at least the new object is above the operands
        refine .inl ⟨hK, ?_⟩
        show S <:+ vm₃.stack.tail
        rw [← hStack]
        cases t with
        | nil => exact List.suffix_refl _
        | cons y t => exact (List.suffix_cons _ _).trans (List.suffix_append _ _)
      · exact absurd (low_length hLow) hNotLow
  · exact .inl ⟨_, S, hEnd, List.suffix_refl _, fun _ => rfl⟩

/-- A native's value, over the operands and what the native may have left. -/
theorem wp_callNative {receiver : T.V} {args : List T.V} {f : T.V → List T.V → T.W → Native T}
    {window : Option Nat} (hG : Grounded K S) (hOver : Over K S vm) :
    wp (discipline D h) (Callable.call h receiver args window (.native f))
      (ends (fun _ vm' => ∃ v S', At K (v :: S') vm' ∧ S <:+ S') (Broke D K S)) vm := by
  unfold Callable.call
  rw [wp_bind, wp_look, ends_ok]
  refine loosely_then (loosely_runNative _ hG hOver) (fun v vm' hOver' => ?_) fun _ _ he => he
  exact ⟨v, vm'.stack, ⟨hOver'.1, rfl⟩, hOver'.2⟩

theorem served_call {receiver : T.V} {args : List T.V} {window : Option Nat} {c : Callable T}
    (hG : Grounded K S) (hK : vm.skel = K) (hS : (dropWindow window vm).stack = S)
    (hWindow : ∀ recvStart, window = some recvStart →
      recvStart ≤ vm.stack.length ∧ c.isRooted) :
    wp (discipline D h) (Callable.call h receiver args window c) (Served D c.isNative K S) vm := by
  have hOver : Over K S vm := by
    refine ⟨hK, hS ▸ ?_⟩
    cases window with
    | none => exact List.suffix_refl _
    | some recvStart => exact List.drop_suffix _ _
  have hNative (f : T.V → List T.V → T.W → Native T) :
      wp (discipline D h) (Callable.call h receiver args window (.native f)) (Served D true K S)
        vm := by
    refine wp_mono (wp_callNative hG hOver) ?_
    rintro (e | a) vm' hEnd
    · exact hEnd
    · obtain ⟨v, S', hAt', hS⟩ := hEnd
      exact .inl ⟨v, S', hAt', hS, by simp⟩
  -- what is not rooted is called over its operands
  have hAt (hNot : c.isRooted = false) : At K S vm := by
    cases window with
    | none => exact ⟨hK, hS⟩
    | some recvStart =>
      have hRooted := (hWindow recvStart rfl).2
      rw [hNot] at hRooted
      contradiction
  cases c with
  | block b =>
    obtain ⟨rfl, rfl⟩ := hAt rfl
    exact .inr ⟨_, rfl, rfl, rfl, rfl⟩
  | metaclass cls =>
    exact .inl ⟨cls, S, ⟨hK, congrArg _ (hAt rfl).2⟩, List.suffix_refl _, fun _ => rfl⟩
  | new cls => exact served_callNew (hAt rfl)
  | newNoBlock cls => exact served_callNewNoBlock hG (hAt rfl)
  | native f => exact hNative f
  | remote f => exact hNative f
  | aotCall b entry => exact served_callAot hG hK hS fun recvStart hEq => (hWindow recvStart hEq).1

end Quoin.Control
