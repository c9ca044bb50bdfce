import Mathlib
import Quoin.Control.Operands

/-!
# Quoin — what compiled methods do to the operands

A compiled method works in a window above the operands it was called over, and cuts
the stack to the bottom of the window when it ends. Where a `^^` has come home to
it, the stack is cut already, with the value on top, and the method returns that;
where one is on its way elsewhere, the stack is left as it is.

## Results

* `ends_runCode` — compiled code leaves what is below its window;
* `wp_invoke` — an invocation leaves the operands it was called over, also where a `^^`
  has come home to it.
-/

namespace Quoin.Control

open Trans Resumable

variable {T : Sig} {α β : Type} {D : Option FrameId → List (Frame T) → List T.V → Prop}
  {h : Host T} {K : List (Frame T)} {S : List T.V} {vm : VmState T}

/-! ## Code -/

/-- Cutting the stack to a floor of the operands. -/
theorem at_truncate {base : Nat} (hOver : Over K S vm) (hBase : base = S.length) :
    At K S (vm.truncate base) := ⟨hOver.1, hBase ▸ truncate_stack hOver.2⟩

/-- A slot of a window above the operands is written. -/
theorem over_writeSlot {idx : Nat} {v : T.V} (hOver : Over K S vm) (hBase : S.length ≤ idx)
    (hIdx : idx < vm.stack.length) : Over K S (vm.writeSlot idx v) := by
  refine ⟨hOver.1, suffix_set hOver.2 ?_⟩
  omega

theorem ends_leaveFrame {s : Site T} {base : Nat} {r : Except (QuoinError T) T.V}
    (hs : s.isCleanup = false) (hG : Grounded K S) (hBase : base = S.length)
    (hr : Ends D h s K S (Over K S) r vm) :
    wp (discipline D h) (leaveFrame base r) (Ends D h s K S (At K S)) vm := by
  cases r with
  | ok v => exact at_truncate hr hBase
  | error e =>
    cases e with
    | nonLocalReturn => exact hr
    | fault f => exact ⟨broke_truncate hr.1 hG hBase.ge, calm_truncate hs hr.2⟩

/-- Compiled code in a window above the operands. The induction is on the code; a window of its own
is over whatever the stack is then. -/
theorem ends_runCode {home : Option (FrameId × Nat)} (code : AotCode T) :
    ∀ {vm : VmState T} {base : Nat} {S : List T.V}, Grounded K S → S.length ≤ base →
      Over K S vm →
      wp (discipline D h) (runCode h home base code) (Ends D h (.compiled home) K S (Over K S))
        vm := by
  -- on the code; each step keeps the operands below the window
  induction code with
  | done r w =>
    intro vm base S hG hBase hOver
    refine ends_then (P := Over K S) (ends_update hOver) fun _ vm' hOver' => ?_
    cases r with
    | ok v => exact hOver'
    | error f => exact ends_fail rfl hOver'
  | slotWrite slot v k ih =>
    intro vm base S hG hBase hOver
    refine ends_look ?_
    unfold ensure
    split
    · -- only slots of its own window are written
      rename_i hIdx
      rw [wp_bind, wp_pure, ends_ok, wp_bind, wp_update, ends_ok]
      exact ih hG hBase (over_writeSlot hOver (by omega) (of_decide_eq_true hIdx))
    · exact ends_fail rfl hOver
  | run a w k ih =>
    intro vm base S hG hBase hOver
    refine ends_then (P := Over K S) (ends_update hOver) fun _ vm₁ hOver₁ => ?_
    have hReenter : wp (discipline D h) (reenter h (.compiled home) a)
        (Ends D h (.compiled home) K S (Over K S)) vm₁ :=
      ends_mono hOver₁.2 (fun _ hEnd => ⟨hEnd.1, hOver₁.2.trans hEnd.2⟩)
        (ends_reenter rfl (hG.mono hOver₁.2) ⟨hOver₁.1, rfl⟩)
    exact ends_then hReenter fun v vm₂ hOver₂ => ends_look (ih _ _ hG hBase hOver₂)
  | window slots code k ihCode ih =>
    intro vm base S hG hBase hOver
    refine ends_look ?_
    rw [wp_bind, wp_update, ends_ok]
    have hGStack : Grounded K vm.stack := hG.mono hOver.2
    have hPushed : Over K vm.stack (vm.pushAll slots.reverse) :=
      ⟨hOver.1, List.suffix_append _ _⟩
    -- the inner window is taken off again, however its code ends
    have hFramed : wp (discipline D h)
        (framed vm.stack.length none (runCode h home vm.stack.length code))
        (Ends D h (.compiled home) K vm.stack (At K vm.stack)) (vm.pushAll slots.reverse) := by
      unfold framed
      rw [wp_bind, wp_attempt]
      refine wp_mono (ihCode hGStack (Nat.le_refl _) hPushed) fun r vm' hr => ?_
      rw [ends_ok, finishFrame_none]
      exact ends_leaveFrame rfl hGStack rfl hr
    refine ends_bind hOver.2 hFramed fun v vm' hAt => ends_look ?_
    exact ih _ _ hG hBase ⟨hAt.1, hAt.2 ▸ hOver.2⟩
  | nested within beyond ihWithin ihBeyond =>
    intro vm base S hG hBase hOver
    refine ends_look ?_
    split
    · exact ihWithin hG hBase hOver
    · exact ihBeyond hG hBase hOver

/-! ## Invocations -/

/-- A `^^` that has come home has come over the frames of the home, and its value is on the operands
the home was called over. -/
theorem home_at {id : FrameId} {base : Nat} (hBase : base = S.length)
    (hb : Broke D K S .nonLocalReturn vm) (hTarget : vm.nlrTarget = some id)
    (hCalm : Calm h (.compiled (some (id, base))) K .nonLocalReturn vm) :
    ∃ v, vm.stack = v :: S ∧ vm.skel = K := by
  have hCount : vm.frames.length = K.length :=
    not_not.mp fun hOther => hCalm.1 ⟨rfl, hTarget, hOther⟩
  have hAlone : vm.stack.length = base + 1 :=
    not_not.mp fun hOther => hCalm.2 ⟨hTarget, hOther⟩
  obtain ⟨v, L, hStack, -, hCases⟩ := hb.homing (by rw [hTarget]; rfl)
  rcases hCases with ⟨hK, hL⟩ | ⟨t, x, hK, -⟩
  · have hLength : L.length = S.length := by
      rw [hStack, List.length_cons] at hAlone
      omega
    exact ⟨v, hL.eq hLength ▸ hStack, hK.symm⟩
  · have hLength := congrArg List.length hK
    simp only [List.length_append, List.length_cons, VmState.length_skel] at hLength
    omega

theorem wp_leaveFrame {base : Nat} {r : Except (QuoinError T) T.V} (hG : Grounded K S)
    (hBase : base = S.length)
    (hr : ends (fun _ vm => Over K S vm) (Broke D K S) r vm) :
    wp (discipline D h) (leaveFrame base r) (ends (fun _ vm' => At K S vm') (Broke D K S)) vm := by
  cases r with
  | ok v => exact at_truncate hr hBase
  | error e =>
    cases e with
    | nonLocalReturn => exact hr
    | fault f =>
      have hFault : Broke D K S (.fault f) vm := hr
      exact broke_truncate (D := D) (f := f) hFault hG hBase.ge

theorem wp_finishFrame {base : Nat} {minted : Option FrameId} {r : Except (QuoinError T) T.V}
    (hG : Grounded K S) (hBase : base = S.length)
    (hr : Ends D h (.compiled (minted.map (·, base))) K S (Over K S) r vm) :
    wp (discipline D h) (finishFrame base minted r)
      (ends (fun _ vm' => At K S vm') (Broke D K S)) vm := by
  unfold finishFrame
  rw [wp_bind, wp_look, ends_ok]
  split
  · rename_i hHome
    obtain ⟨hMinted, hTarget⟩ := hHome
    obtain ⟨id, rfl⟩ := Option.isSome_iff_exists.mp hMinted
    rw [wp_bind, wp_update, ends_ok]
    cases r with
    | ok v => exact wp_leaveFrame (r := .ok v) hG hBase hr
    | error e =>
      cases e with
      | fault f =>
        have hFault : Broke D K S (.fault f) { vm with nlrTarget := none } :=
          broke_fault_congr hr.1 rfl rfl
        exact wp_leaveFrame (r := .error (.fault f)) hG hBase hFault
      | nonLocalReturn =>
        obtain ⟨v, hStack, hK⟩ := home_at hBase hr.1 hTarget hr.2
        rw [hStack]
        exact ⟨hK, rfl⟩
  · refine wp_leaveFrame hG hBase ?_
    cases r with
    | ok v => exact hr
    | error e => exact hr.1

/-- A compiled method over the operands `S`; its own may be on the stack above them already. -/
theorem wp_invoke {entry : AotEntry T} {receiver : T.V} {args : List T.V} {window : Option Nat}
    (hG : Grounded K S) (hK : vm.skel = K) (hS : (dropWindow window vm).stack = S)
    (hWindow : ∀ recvStart, window = some recvStart → recvStart ≤ vm.stack.length) :
    wp (discipline D h) (invoke h entry receiver args window)
      (ends (fun _ vm' => At K S vm') (Broke D K S)) vm := by
  -- the window begins where the operands of the caller end
  have hBase : window.getD vm.stack.length = S.length := by
    cases window with
    | none => exact congrArg List.length hS
    | some recvStart =>
      have hLe := hWindow recvStart rfl
      rw [← hS]
      show recvStart = (vm.stack.drop (vm.stack.length - recvStart)).length
      rw [List.length_drop]
      omega
  have hPushed {vs : List T.V} : Over K S ((pushWindow receiver args window vm).pushAll vs) := by
    cases window with
    | none =>
      refine ⟨hK, ?_⟩
      rw [← hS]
      exact (List.suffix_append _ _).trans (List.suffix_append _ _)
    | some recvStart =>
      refine ⟨hK, ?_⟩
      rw [← hS]
      exact (List.drop_suffix _ _).trans (List.suffix_append _ _)
  unfold invoke
  rw [wp_bind, wp_look, ends_ok, hBase]
  dsimp only
  rw [wp_bind, wp_update, ends_ok, wp_bind, wp_act, ends_ok]
  generalize hVm₁ : (pushWindow receiver args window vm).pushAll _ = vm₁
  have hOver₁ : Over K S vm₁ := hVm₁ ▸ hPushed
  have hMint : Over K S (mint entry S.length vm₁).2 := by
    unfold mint
    split
    · exact hOver₁
    · exact hOver₁
  unfold framed
  rw [wp_bind, wp_look, ends_ok, wp_bind, wp_attempt, wp_ensuring]
  refine wp_mono (ends_runCode _ hG (Nat.le_refl _) hMint) fun r vm₂ hr => ?_
  refine wp_finishFrame hG rfl ?_
  -- the mark is off the list, and nothing else has changed
  have hUnmark (minted : Option FrameId) : Matching vm₂ (unmark minted vm₂) ∧
      (unmark minted vm₂).stack = vm₂.stack ∧ (unmark minted vm₂).depth = vm₂.depth := by
    unfold unmark
    split
    · exact ⟨⟨rfl, rfl, rfl⟩, rfl, rfl⟩
    · exact ⟨⟨rfl, rfl, rfl⟩, rfl, rfl⟩
  obtain ⟨hSame, hStack, hDepth⟩ := hUnmark (mint entry S.length vm₁).1
  cases r with
  | ok v => exact ⟨hSame.skel.trans hr.1, hStack ▸ hr.2⟩
  | error e =>
    exact ⟨broke_congr hr.1 hSame.skel hStack hSame.nlrTarget, calm_congr hr.2 hSame hStack hDepth⟩

/-- A compiled method, or the frame of its block. -/
theorem served_callAot {b : Block T} {entry : AotEntry T} {receiver : T.V} {args : List T.V}
    {window : Option Nat} {loose : Bool} (hG : Grounded K S) (hK : vm.skel = K)
    (hS : (dropWindow window vm).stack = S)
    (hWindow : ∀ recvStart, window = some recvStart → recvStart ≤ vm.stack.length) :
    wp (discipline D h) (callAot h b entry receiver args window) (Served D loose K S) vm := by
  have hAdmit : wp (discipline D h) (mayInvoke entry receiver args)
      (ends (fun _ vm' => vm'.skel = K ∧ vm'.stack = vm.stack) (Broke D K S)) vm := by
    unfold mayInvoke
    rw [wp_bind, wp_look, ends_ok]
    split
    · exact ⟨hK, rfl⟩
    · exact ⟨hK, rfl⟩
  unfold callAot
  refine wp_seq hAdmit ?_ fun _ _ he => he
  rintro admitted vm₁ ⟨hK₁, hStack₁⟩
  have hS₁ : (dropWindow window vm₁).stack = S := by
    rw [← hS]
    cases window with
    | none => exact hStack₁
    | some recvStart =>
      show vm₁.stack.drop (vm₁.stack.length - recvStart) = _
      rw [hStack₁]
      rfl
  split
  · refine wp_seq (wp_invoke hG hK₁ hS₁ (hStack₁ ▸ hWindow)) (fun v vm₂ hAt => ?_) fun _ _ he => he
    exact .inl ⟨v, S, ⟨hAt.1, congrArg _ hAt.2⟩, List.suffix_refl _, fun _ => rfl⟩
  · have hDropped : (dropWindow window vm₁).skel = K := by
      cases window with
      | none => exact hK₁
      | some recvStart => exact hK₁
    exact .inr ⟨_, congrArg _ hDropped, hS₁, hS₁, congrArg List.length hS₁⟩

end Quoin.Control
