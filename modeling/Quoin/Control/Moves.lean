import Mathlib
import Quoin.Control.Catching

/-!
# Quoin — what instructions do to the operands

An instruction that completes leaves its frame on its operands, perhaps with a
frame pushed over them; or it has ended its frame, and the value the frame returns
is on the operands of the caller (`Moved`). `^^` consumes the frames down to its
home, and leaves the value on the operands of the home's caller (`Returned`). A home
that is compiled takes the value itself, as what it returns.

## Results

* `moved_dispatchOne` — an instruction, executed by the top frame over the others;
* `consumed_unwindRound` — the unwinding loop of `^^` consumes the frames down to the first
  with the home's id, or down to those a compiled home stands on;
* `yields_perform` — what the machine runs for a call, or a round of unwinding.
-/

namespace Quoin.Control

open Trans Resumable

variable {T : Sig} {α β : Type} {D : Option FrameId → List (Frame T) → List T.V → Prop}
  {h : Host T} {K F : List (Frame T)} {S : List T.V} {vm : VmState T} {f x g : Frame T}
  {e : Executing T} {i : Nat}

/-! ## Instructions -/

/-- How many operands an instruction takes off the stack. -/
def Instruction.operands (h : Host T) : Instruction T → Nat
  | .compute op _ | .construct op => h.arity op
  | .executeBlockWithSelf => 2
  | .ret | .methodReturn | .yeet => 1

/-- An instruction finds its operands above those its frame was pushed over, and `^^` finds its
home live: its frame among the frames, or what it was called over if it is compiled. -/
structure Executing.Proper (h : Host T) (e : Executing T) : Prop where
  operands : ∀ f F inst, e.before.frames = f :: F → e.inst = some inst →
    f.stackBase + inst.operands h ≤ e.before.stack.length
  send : ∀ f F op offset pushed selector numArgs w, e.before.frames = f :: F →
    e.inst = some (.compute op offset) →
    h.compute op (e.before.stack.take (h.arity op)) f e.before.world =
      (.ok (.send pushed selector numArgs), w) →
    f.stackBase + h.arity op + numArgs + 1 ≤ pushed.length + e.before.stack.length
  home : ∀ f F target, e.before.frames = f :: F → e.inst = some .methodReturn →
    f.enclosingMethodId = some target →
      Homed e.before.skel e.before.stack.tail target (e.before.frameMarks.find? (·.id = target))

/-- The value an instruction ends its frame with, or returns from its home. -/
def Executing.value (h : Host T) (e : Executing T) : T.V :=
  match e.inst with
  | none => h.nil
  | some _ => e.before.stack.headD h.nil

/-- `^^` has consumed the frames down to its home, and its value is on the operands of the home's
caller; `home` is the home if that is compiled. -/
def Returned (h : Host T) (e : Executing T) (home : Option FrameId) (frames : List (Frame T))
    (stack : List T.V) : Prop :=
  e.inst = some .methodReturn ∧ ∃ f F target, e.before.frames = f :: F ∧
    f.enclosingMethodId = some target ∧
    home = (e.before.frameMarks.find? (·.id = target)).map (fun _ => target) ∧
    Delivered e.before.skel target (e.value h) (e.before.frameMarks.find? (·.id = target)) frames
      stack

/-- The frames and operands an instruction leaves that `f` has executed over the frames `F`. -/
def Moved (D : Option FrameId → List (Frame T) → List T.V → Prop) (h : Host T) (e : Executing T)
    (f : Frame T) (F : List (Frame T)) : Result T → VmState T → Prop
  | .ok .running, vm =>
    (∃ i, Next f.ip i e.inst ∧ (vm.skel = f.at i :: F ∨ ∃ g, vm.skel = g :: f.at i :: F) ∧
      Grounded vm.skel vm.stack) ∨ At F (f.returns (e.value h) :: f.floor) vm
  | .ok (.finished _), _ => False
  | .ok (.yeeted _), vm => vm.skel = [] ∧ f.floor <:+ vm.stack
  | .error .nonLocalReturn, vm =>
    D vm.nlrTarget vm.skel vm.stack ∧
      (vm.nlrTarget = none ∧ Landed (f.core :: F) vm ∨
        vm.nlrTarget.isSome ∧ ((∃ i, vm.skel = f.at i :: F) ∨ Homing F f.floor vm)) ∧
      (e.inst = some .methodReturn → Returned h e vm.nlrTarget vm.skel vm.stack)
  | .error (.fault f'), vm => Broke D F f.floor (.fault f') vm

/-! ## Operands -/

@[simp] theorem VmState.stack_setIp {idx ip : Nat} : (vm.setIp idx ip).stack = vm.stack := by
  unfold VmState.setIp
  split <;> rfl

theorem wp_popN {c : Contract (Request T) (Result T) (VmState T)} (n : Nat) :
    ∀ {vm : VmState T} {post : Except (QuoinError T) (List T.V) → VmState T → Prop},
    n ≤ vm.stack.length →
    post (.ok (vm.stack.take n)) { vm with stack := vm.stack.drop n } →
    wp c (popN h n) post vm := by
  induction n with
  | zero =>
    intro vm post _ hPost
    exact hPost
  | succ n ih =>
    intro vm post hn hPost
    obtain ⟨v, stack, hStack⟩ : ∃ v stack, vm.stack = v :: stack := by
      cases hStack : vm.stack with
      | nil =>
        rw [hStack] at hn
        simp at hn
      | cons v stack => exact ⟨v, stack, rfl⟩
    rw [hStack] at hn hPost
    show wp c (pop h >>= fun v => popN h n >>= fun vs => pure (v :: vs)) post vm
    rw [wp_bind, wp_pop_cons hStack, ends_ok, wp_bind]
    exact ih (by simpa using hn) hPost

/-! ## Errors of instructions -/

theorem landed_head (hl : Landed (f.at i :: F) vm) : Landed (f.core :: F) vm := by
  obtain ⟨t, x, v, hK, hStack⟩ := hl
  cases t with
  | nil =>
    obtain ⟨hx, hF⟩ := List.cons.inj hK
    refine ⟨[], f.core, v, congrArg _ hF, ?_⟩
    rw [hStack, ← hx]
    rfl
  | cons y t =>
    refine ⟨f.core :: t, x, v, congrArg _ (List.cons.inj hK).2, hStack⟩

theorem landed_cons (hl : Landed F vm) : Landed (g :: F) vm := by
  obtain ⟨t, x, v, hK, hStack⟩ := hl
  exact ⟨g :: t, x, v, congrArg _ hK, hStack⟩

/-- A `^^` to a compiled method, seen from below the frame of the instruction. -/
theorem homing_below (hh : Homing (f.at i :: F) S vm) :
    (∃ i, vm.skel = f.at i :: F) ∨ Homing F f.floor vm := by
  obtain ⟨v, L, hStack, hG, hCases⟩ := hh
  rcases hCases with ⟨hK, -⟩ | ⟨t, x, hK, hL⟩
  · exact .inl ⟨i, hK.symm⟩
  · refine .inr ⟨v, L, hStack, hG, ?_⟩
    cases t with
    | nil =>
      obtain ⟨rfl, hF⟩ := List.cons.inj hK
      exact .inl ⟨hF, hL⟩
    | cons y t => exact .inr ⟨t, x, (List.cons.inj hK).2, hL⟩

/-- A fault of code that an instruction runs over its own frame. -/
theorem broke_below {f' : Fault T} (hG : Grounded (f :: F) S)
    (hb : Broke D (f.at i :: F) S (.fault f') vm) : Broke D F f.floor (.fault f') vm := by
  rcases hb with ⟨hK, hStack⟩ | ⟨t, x, F', hK, hBelow, hFloor⟩
  · exact .inl ⟨(List.suffix_cons _ _).trans hK, hG.2.1.trans hStack⟩
  · cases t with
    | nil =>
      obtain ⟨hx, hF⟩ := List.cons.inj hK
      have hFloor : f.floor <:+ vm.stack := by
        rw [← hx] at hFloor
        exact hFloor
      exact broke_of_comparable hG.2.2 hFloor (.inr (hF ▸ hBelow))
    | cons y t => exact .inr ⟨t, x, F', (List.cons.inj hK).2, hBelow, hFloor⟩

/-- The error of code that an instruction runs over its own frame. -/
theorem moved_of_broke {err : QuoinError T} (hG : Grounded (f :: F) S)
    (hb : Broke D (f.at i :: F) S err vm) (hInst : e.inst ≠ some .methodReturn) :
    Moved D h e f F (.error err) vm := by
  cases err with
  | nonLocalReturn =>
    refine ⟨hb.1, ?_, fun hEq => absurd hEq hInst⟩
    exact hb.2.imp (fun hLanded => ⟨hLanded.1, landed_head hLanded.2⟩) fun hHome =>
      ⟨hHome.1, homing_below hHome.2⟩
  | fault f' => exact broke_below hG hb

/-- The error of code that runs when the frame of the instruction is gone. -/
theorem moved_of_broke_below {err : QuoinError T} (hb : Broke D F f.floor err vm)
    (hInst : e.inst ≠ some .methodReturn) : Moved D h e f F (.error err) vm := by
  cases err with
  | nonLocalReturn =>
    refine ⟨hb.1, ?_, fun hEq => absurd hEq hInst⟩
    exact hb.2.imp (fun hLanded => ⟨hLanded.1, landed_cons hLanded.2⟩) fun hHome =>
      ⟨hHome.1, .inr hHome.2⟩
  | fault f' => exact hb

theorem moved_fail {f' : Fault T} (hOver : Over (f.at i :: F) S vm) (hS : f.floor <:+ S) :
    wp (α := VmStatus T) (discipline D h) (fail (.fault f')) (Moved D h e f F) vm := by
  refine .inl ⟨?_, hS.trans hOver.2⟩
  rw [hOver.1]
  exact List.suffix_cons _ _

/-- A part of an instruction that leaves its frame where it is, then the rest of it. -/
theorem moved_then {x : Rust T α} {k : α → Rust T (VmStatus T)} {P : VmState T → Prop}
    (hG : Grounded (f :: F) S) (hInst : e.inst ≠ some .methodReturn)
    (hx : wp (discipline D h) x (ends (fun _ vm' => P vm') (Broke D (f.at i :: F) S)) vm)
    (hk : ∀ a vm', P vm' → wp (discipline D h) (k a) (Moved D h e f F) vm') :
    wp (discipline D h) (x >>= k) (Moved D h e f F) vm :=
  wp_seq hx hk fun _ _ he => moved_of_broke hG he hInst

theorem moved_running (hIp : Next f.ip i e.inst) (hAt : At (f.at i :: F) S vm)
    (hG : Grounded (f :: F) S) :
    wp (discipline D h) (pure .running) (Moved D h e f F) vm := by
  refine .inl ⟨i, hIp, .inl hAt.1, ?_⟩
  rw [hAt.1, hAt.2]
  exact hG

theorem moved_pushed (hIp : Next f.ip i e.inst) (hPushed : Pushed (f.at i :: F) S vm)
    (hG : Grounded (f :: F) S) :
    wp (discipline D h) (pure .running) (Moved D h e f F) vm := by
  obtain ⟨g, hSkel, hStack, hFloor, hBase⟩ := hPushed
  refine .inl ⟨i, hIp, .inr ⟨g, hSkel⟩, ?_⟩
  rw [hSkel, hStack]
  exact ⟨by rw [hBase, hFloor], hFloor ▸ List.suffix_refl _, hFloor ▸ hG⟩

/-! ## Sends -/

/-- The result of a native takes the place of the receiver, the arguments, and whatever the native
has left. -/
theorem reseat_at {v : T.V} {S' rest : List T.V} (hAt : At K (v :: S') vm) (hRest : rest <:+ S') :
    At K (v :: rest) (vm.reseat rest.length) := by
  obtain ⟨hK, hStack⟩ := hAt
  have hLe := hRest.length_le
  have hLow : rest.length < (v :: S').length := by
    rw [List.length_cons]
    omega
  have hCut : (vm.truncate rest.length).stack = rest :=
    truncate_stack (hStack ▸ hRest.trans (List.suffix_cons v S'))
  unfold VmState.reseat
  split
  · rename_i result tail hTop
    rw [hStack] at hTop
    obtain ⟨rfl, -⟩ := List.cons.inj hTop
    rw [if_pos (hStack ▸ hLow)]
    exact ⟨hK, congrArg _ hCut⟩
  · rename_i hNil
    rw [hStack] at hNil
    contradiction

/-- Nothing is left to replace where a compiled method has pushed its frame. -/
theorem reseat_pushed {rest : List T.V} (hPushed : Pushed K rest vm) :
    vm.reseat rest.length = vm := by
  obtain ⟨g, -, hStack, -⟩ := hPushed
  unfold VmState.reseat
  split
  · rw [if_neg]
    rw [hStack]
    exact Nat.lt_irrefl _
  · rfl

theorem moved_dispatchSendRooted {c : Callable T} {receiver : T.V} {args : List T.V}
    {rest : List T.V} (hIp : Next f.ip i e.inst) (hInst : e.inst ≠ some .methodReturn)
    (hAt : At (f.at i :: F) S vm) (hRest : rest <:+ S) (hG : Grounded (f :: F) rest) :
    wp (discipline D h) (dispatchSendRooted h c receiver args rest.length) (Moved D h e f F)
      vm := by
  have hGAt : Grounded (f.at i :: F) rest := hG
  have hCut : (vm.truncate rest.length).stack = rest := truncate_stack (hAt.2 ▸ hRest)
  unfold dispatchSendRooted
  split
  · rename_i hRooted
    have hWindow : ∀ recvStart, some rest.length = some recvStart →
        recvStart ≤ vm.stack.length ∧ c.isRooted := by
      rintro recvStart hEq
      obtain rfl := Option.some.inj hEq
      exact ⟨hAt.2 ▸ hRest.length_le, hRooted⟩
    rw [wp_bind, wp_attempt]
    refine wp_mono (served_call hGAt hAt.1 hCut hWindow) ?_
    rintro (err | a) vm' hEnd
    · have hMoved : Moved D h e f F (.error err) vm' := moved_of_broke hG hEnd hInst
      cases err with
      | nonLocalReturn => exact hMoved
      | fault f' =>
        have hFault : Broke D F f.floor (.fault f') vm' := hMoved
        have hCutFault := broke_truncate hFault hG.2.2 hG.2.1.length_le
        exact hCutFault
    · rw [ends_ok]
      dsimp only
      rw [wp_bind, wp_update, ends_ok]
      rcases hEnd with ⟨v, S', hAt', hS, -⟩ | hPushed
      · exact moved_running hIp (reseat_at hAt' hS) (hG.mono (List.suffix_cons v _))
      · rw [reseat_pushed hPushed]
        exact moved_pushed hIp hPushed hG
  · rw [wp_bind, wp_update, ends_ok]
    have hK : (vm.truncate rest.length).skel = f.at i :: F := hAt.1
    have hS : (dropWindow none (vm.truncate rest.length)).stack = rest := hCut
    refine moved_then hG hInst (served_call hGAt hK hS (by simp)) fun _ vm' hServed => ?_
    rcases hServed with ⟨v, S', hAt', hSuffix, -⟩ | hPushed
    · exact moved_running hIp hAt' (hG.mono (hSuffix.trans (List.suffix_cons v S')))
    · exact moved_pushed hIp hPushed hG

theorem moved_execSend {selector : String} {numArgs : Nat} (hIp : Next f.ip (f.ip + 1) e.inst)
    (hInst : e.inst ≠ some .methodReturn) (hAt : At (f.core :: F) S vm)
    (hG : Grounded (f :: F) S) (hArgs : f.floor.length + numArgs + 1 ≤ S.length) :
    wp (discipline D h) (execSend h selector numArgs) (Moved D h e f F) vm := by
  obtain ⟨hK, rfl⟩ := hAt
  unfold execSend
  rw [wp_bind, wp_look, ends_ok]
  -- fewer operands than the send takes: excluded by `hArgs`
  split
  · rename_i hNone
    have hLength := congrArg List.length hNone
    rw [List.length_drop, List.length_nil] at hLength
    omega
  · rename_i receiver rest hDrop
    have hRest : rest <:+ vm.stack :=
      ((List.suffix_cons receiver rest).trans (hDrop ▸ List.drop_suffix numArgs vm.stack))
    have hFloor : f.floor <:+ rest := by
      have hDropped : f.floor <:+ (vm.stack.drop numArgs).drop 1 := by
        rw [List.drop_drop]
        exact suffix_drop hG.2.1 (by omega)
      rw [hDrop] at hDropped
      exact hDropped
    have hGRest : Grounded (f :: F) rest := ⟨hG.1, hFloor, hG.2.2⟩
    have hAdvanced := skel_advance hK
    rw [wp_bind, wp_update, ends_ok]
    split
    · -- `value` and `value:` of a block
      have hCut : ((vm.mapTop fun f => { f with ip := f.ip + 1 }).truncate rest.length).stack =
          rest := truncate_stack hRest
      rw [wp_bind, wp_update, ends_ok, wp_bind, wp_update, ends_ok]
      refine moved_pushed hIp ⟨_, congrArg _ hAdvanced, hCut, hCut, ?_⟩ hGRest
      exact congrArg List.length hCut
    · have hGAt : Grounded (f.at (f.ip + 1) :: F) vm.stack := hG
      rw [wp_bind, wp_onError]
      refine wp_mono (ends_lookupMethod rfl hGAt ⟨hAdvanced, rfl⟩) ?_
      rintro (err | c) vm' hEnd
      · obtain ⟨hb, hCalm⟩ := hEnd
        cases err with
        | nonLocalReturn =>
          -- the value of the `^^` is below the cut, since nothing is disturbed
          have hShort : vm'.stack.length ≤ rest.length := Nat.le_of_not_lt hCalm.2
          have hSame : vm'.truncate rest.length = vm' := by
            unfold VmState.truncate
            rw [Nat.sub_eq_zero_of_le hShort, List.drop_zero]
          have hMoved : Moved D h e f F (.error .nonLocalReturn) (vm'.truncate rest.length) := by
            rw [hSame]
            exact moved_of_broke hG hb hInst
          exact hMoved
        | fault f' =>
          have hMoved : Moved D h e f F (.error (.fault f')) vm' := moved_of_broke hG hb hInst
          have hFault : Broke D F f.floor (.fault f') vm' := hMoved
          have hCutFault := broke_truncate hFault hG.2.2 hFloor.length_le
          exact hCutFault
      · rw [ends_ok, ends_ok]
        cases c with
        | some c => exact moved_dispatchSendRooted hIp hInst hEnd hRest hGRest
        | none =>
          -- no method: the error leaves the frame's operands
          rw [wp_bind, wp_update, ends_ok]
          have hStack : vm'.stack = vm.stack := hEnd.2
          have hOver : Over (f.at (f.ip + 1) :: F) (vm'.truncate rest.length).stack
              (vm'.truncate rest.length) := ⟨hEnd.1, List.suffix_refl _⟩
          exact moved_fail hOver (suffix_truncate (hStack ▸ hG.2.1) hFloor.length_le)

theorem moved_execCompute {op : T.Op} {offset : Int} {before : VmState T}
    {frames : List (Frame T)} (hProper : Executing.Proper h ⟨before, some (.compute op offset)⟩)
    (hFrames : before.frames = f :: frames) (hBefore : before.stack = vm.stack)
    (hWorld : before.world = vm.world) (hK : vm.skel = f.core :: F)
    (hG : Grounded (f :: F) vm.stack) :
    wp (discipline D h) (execCompute h op offset f F.length)
      (Moved D h ⟨before, some (.compute op offset)⟩ f F) vm := by
  have hOperands : f.stackBase + h.arity op ≤ vm.stack.length :=
    hBefore ▸ hProper.operands f frames _ hFrames rfl
  rw [hG.1] at hOperands
  have hFloor : f.floor <:+ vm.stack.drop (h.arity op) := suffix_drop hG.2.1 hOperands
  have hGRest : Grounded (f :: F) (vm.stack.drop (h.arity op)) := ⟨hG.1, hFloor, hG.2.2⟩
  unfold execCompute
  rw [wp_bind]
  refine wp_popN _ (by omega) ?_
  rw [ends_ok, wp_bind, wp_act, ends_ok]
  -- with the operands off, the frame still stands on its floor
  have hPushed (pushed : List T.V) {ip : Nat} :
      At (f.at ip :: F) (pushed ++ vm.stack.drop (h.arity op))
        (((({ vm with stack := vm.stack.drop (h.arity op) } : VmState T).setWorld
          (h.compute op (vm.stack.take (h.arity op)) f vm.world).2).pushAll pushed).setIp
            F.length ip) := by
    refine ⟨skel_setIp (by exact hK), ?_⟩
    rw [VmState.stack_setIp]
    rfl
  split
  · exact moved_fail (i := f.ip) ⟨by exact hK, List.suffix_refl _⟩ hFloor
  · rename_i pushed hComputed
    rw [wp_bind, wp_update, ends_ok]
    exact moved_running (.inl rfl) (hPushed pushed) (hGRest.mono (List.suffix_append _ _))
  · rename_i pushed hComputed
    rw [wp_bind, wp_update, ends_ok]
    exact moved_running (.inr rfl) (hPushed pushed) (hGRest.mono (List.suffix_append _ _))
  · rename_i pushed selector numArgs hComputed
    have hEffect : h.compute op (before.stack.take (h.arity op)) f before.world =
        (.ok (.send pushed selector numArgs),
          (h.compute op (vm.stack.take (h.arity op)) f vm.world).2) := by
      rw [hBefore, hWorld]
      exact Prod.ext hComputed rfl
    have hArgs : f.stackBase + h.arity op + numArgs + 1 ≤ pushed.length + before.stack.length :=
      hProper.send f frames op offset pushed selector numArgs _ hFrames rfl hEffect
    rw [hG.1, hBefore] at hArgs
    rw [wp_bind, wp_update, ends_ok]
    refine moved_execSend (.inl rfl) (by simp) ⟨by exact hK, rfl⟩
      (hGRest.mono (List.suffix_append _ _)) ?_
    show f.floor.length + numArgs + 1 ≤ (pushed ++ vm.stack.drop (h.arity op)).length
    rw [List.length_append, List.length_drop]
    omega

theorem moved_execConstruct {op : T.Op} {before : VmState T} {frames : List (Frame T)}
    (hProper : Executing.Proper h ⟨before, some (.construct op)⟩)
    (hFrames : before.frames = f :: frames) (hBefore : before.stack = vm.stack)
    (hK : vm.skel = f.core :: F) (hG : Grounded (f :: F) vm.stack) :
    wp (discipline D h) (execConstruct h op f F.length)
      (Moved D h ⟨before, some (.construct op)⟩ f F) vm := by
  have hOperands : f.stackBase + h.arity op ≤ vm.stack.length :=
    hBefore ▸ hProper.operands f frames _ hFrames rfl
  rw [hG.1] at hOperands
  have hEnough : decide (h.arity op ≤ vm.stack.length) = true := decide_eq_true (by omega)
  unfold execConstruct ensure
  rw [wp_bind, wp_look, ends_ok, if_pos hEnough, wp_bind, wp_pure, ends_ok]
  dsimp only
  rw [wp_bind, wp_update, ends_ok]
  have hRooted : Over (f.at f.ip :: F) vm.stack
      (vm.pushAll (h.construct op (vm.stack.take (h.arity op)) f vm.world).1) :=
    ⟨hK, List.suffix_append _ _⟩
  have hGAt : Grounded (f.at f.ip :: F) vm.stack := hG
  refine moved_then hG (by simp) (loosely_runNative _ hGAt hRooted) fun v vm' hOver => ?_
  rw [wp_bind, wp_update, ends_ok]
  -- the value replaces the operands
  have hFloor : f.floor <:+ (vm'.truncate (vm.stack.length - h.arity op)).stack :=
    suffix_truncate (hG.2.1.trans hOver.2) (by omega)
  refine moved_running rfl ⟨skel_setIp (by exact hOver.1), rfl⟩ ⟨hG.1, ?_, hG.2.2⟩
  rw [VmState.stack_setIp]
  exact hFloor.trans (List.suffix_cons _ _)

theorem moved_execBlockWithSelf {before : VmState T} {frames : List (Frame T)}
    (hProper : Executing.Proper h ⟨before, some .executeBlockWithSelf⟩)
    (hFrames : before.frames = f :: frames) (hBefore : before.stack = vm.stack)
    (hK : vm.skel = f.core :: F) (hG : Grounded (f :: F) vm.stack) :
    wp (discipline D h) (execBlockWithSelf h) (Moved D h ⟨before, some .executeBlockWithSelf⟩ f F)
      vm := by
  have hOperands : f.stackBase + 2 ≤ vm.stack.length :=
    hBefore ▸ hProper.operands f frames _ hFrames rfl
  rw [hG.1] at hOperands
  obtain ⟨block, self, rest, hStack⟩ : ∃ block self rest, vm.stack = block :: self :: rest := by
    cases hStack : vm.stack with
    | nil => simp [hStack] at hOperands
    | cons block stack =>
      cases stack with
      | nil => simp [hStack] at hOperands
      | cons self rest => exact ⟨block, self, rest, rfl⟩
  have hFloor : f.floor <:+ rest := by
    have hDropped : f.floor <:+ vm.stack.drop 2 := suffix_drop hG.2.1 (by omega)
    rw [hStack] at hDropped
    exact hDropped
  have hGRest : Grounded (f :: F) rest := ⟨hG.1, hFloor, hG.2.2⟩
  unfold execBlockWithSelf
  rw [wp_bind, wp_pop_cons hStack, ends_ok, wp_bind, wp_pop_cons rfl, ends_ok]
  refine moved_then (i := f.ip) hGRest (by simp) (wp_ensure ⟨hK, rfl⟩) fun _ vm' hAt => ?_
  obtain ⟨hK', hStack'⟩ := hAt
  rw [wp_bind, wp_look, ends_ok]
  split
  · simp only [wp_bind, wp_update, wp_act, ends_ok]
    refine moved_pushed rfl ⟨_, congrArg _ (skel_advance hK'), hStack', hStack', ?_⟩ hGRest
    exact congrArg List.length hStack'
  · exact moved_fail (i := f.ip) ⟨hK', hStack' ▸ List.suffix_refl _⟩ hFloor

theorem moved_execYeet {before : VmState T} {frames : List (Frame T)}
    (hProper : Executing.Proper h ⟨before, some .yeet⟩)
    (hFrames : before.frames = f :: frames) (hBefore : before.stack = vm.stack)
    (hG : Grounded (f :: F) vm.stack) :
    wp (discipline D h) (execYeet h) (Moved D h ⟨before, some .yeet⟩ f F) vm := by
  have hOperands : f.stackBase + 1 ≤ vm.stack.length :=
    hBefore ▸ hProper.operands f frames _ hFrames rfl
  rw [hG.1] at hOperands
  obtain ⟨v, rest, hStack⟩ : ∃ v rest, vm.stack = v :: rest := by
    cases hStack : vm.stack with
    | nil => simp [hStack] at hOperands
    | cons v rest => exact ⟨v, rest, rfl⟩
  have hFloor : f.floor <:+ vm.stack.drop 1 := suffix_drop hG.2.1 hOperands
  rw [hStack] at hFloor
  unfold execYeet
  rw [wp_bind, wp_pop_cons hStack, ends_ok, wp_bind, wp_update, ends_ok]
  exact ⟨rfl, hFloor⟩

/-! ## Returns -/

/-- A frame that has ended leaves what it returns on the operands it was pushed over. -/
theorem wp_endFrame {ret : T.V} (hK : vm.skel = f.core :: F) (hG : Grounded (f :: F) vm.stack) :
    wp (discipline D h) (endFrame h ret)
      (ends (fun _ vm' => At F (f.returns ret :: f.floor) vm') (Broke D F f.floor)) vm := by
  unfold endFrame
  rw [wp_bind]
  refine wp_popFrame (fun g frames hFrames => ?_) fun hFrames => ?_
  · have hSkel : g.core :: frames.map Frame.core = f.core :: F := by
      rw [← hK, VmState.skel, hFrames, List.map_cons]
    obtain ⟨hCore, hRest⟩ := List.cons.inj hSkel
    have hBase : g.stackBase = f.floor.length := by
      have hSame : g.core.stackBase = f.core.stackBase := congrArg Frame.stackBase hCore
      exact hSame.trans hG.1
    have hReturns : g.returns ret = f.returns ret := by
      have hSame : g.core.returns ret = f.core.returns ret := by rw [hCore]
      exact hSame
    rw [ends_ok, wp_bind, wp_update, ends_ok, hBase]
    refine wp_seq (wp_consumePoppedFrame (s := .init) rfl hG.2.2
      ⟨hRest, truncate_stack hG.2.1⟩) ?_ fun err vm' he => he.1
    rintro v vm' ⟨rfl, hF, hStack⟩
    refine ⟨hF, ?_⟩
    show _ :: vm'.stack = _
    rw [hReturns, hStack]
  · have hSkel : ([] : List (Frame T)) = f.core :: F := by
      rw [← hK, VmState.skel, hFrames, List.map_nil]
    contradiction

theorem moved_implicitReturn {before : VmState T} (hK : vm.skel = f.core :: F)
    (hG : Grounded (f :: F) vm.stack) :
    wp (discipline D h) (implicitReturn h f) (Moved D h ⟨before, none⟩ f F) vm := by
  have hAt : At (f.at f.ip :: F) vm.stack vm := ⟨hK, rfl⟩
  refine moved_then hG (by simp) (wp_runFrameDefers hG hAt) fun _ vm' hAt' => ?_
  refine wp_seq (wp_endFrame hAt'.1 (hAt'.2 ▸ hG)) (fun _ vm'' hEnd => .inr hEnd) ?_
  exact fun err vm'' he => moved_of_broke_below he (by simp)

theorem moved_execReturn {before : VmState T} {frames : List (Frame T)}
    (hProper : Executing.Proper h ⟨before, some .ret⟩)
    (hFrames : before.frames = f :: frames) (hBefore : before.stack = vm.stack)
    (hK : vm.skel = f.core :: F) (hG : Grounded (f :: F) vm.stack) :
    wp (discipline D h) (execReturn h f F.length) (Moved D h ⟨before, some .ret⟩ f F) vm := by
  have hOperands : f.stackBase + 1 ≤ vm.stack.length :=
    hBefore ▸ hProper.operands f frames _ hFrames rfl
  rw [hG.1] at hOperands
  obtain ⟨ret, rest, hStack⟩ : ∃ ret rest, vm.stack = ret :: rest := by
    cases hStack : vm.stack with
    | nil => simp [hStack] at hOperands
    | cons ret rest => exact ⟨ret, rest, rfl⟩
  have hFloor : f.floor <:+ vm.stack.drop 1 := suffix_drop hG.2.1 hOperands
  rw [hStack] at hFloor
  have hAt : At (f.at f.ip :: F) vm.stack vm := ⟨hK, rfl⟩
  refine moved_then hG (by simp) (wp_runFrameDefers hG hAt) fun _ vm' hAt' => ?_
  rw [wp_bind, wp_pop_cons (hAt'.2.trans hStack), ends_ok]
  refine wp_seq (wp_endFrame (by exact hAt'.1) ⟨hG.1, hFloor, hG.2.2⟩) (fun _ vm'' hEnd => ?_) ?_
  · rw [wp_bind, wp_update, ends_ok]
    refine .inr ⟨skel_setIp_popped hEnd.1, ?_⟩
    have hValue : Executing.value h ⟨before, some .ret⟩ = ret := by
      show before.stack.headD h.nil = ret
      rw [hBefore, hStack]
      rfl
    rw [VmState.stack_setIp, hValue]
    exact hEnd.2
  · exact fun err vm'' he => moved_of_broke_below he (by simp)

/-- A frame more that a `^^` consumes. -/
theorem delivered_cons {target : FrameId} {ret : T.V} {home : Option (FrameMark T)}
    {frames : List (Frame T)} {stack : List T.V} (hOther : g.id ≠ target)
    (hd : Delivered K target (g.returns ret) home frames stack) :
    Delivered (g :: K) target ret home frames stack := by
  have hMore {t : List (Frame T)} (hNot : ∀ y ∈ t, y.id ≠ target) :
      ∀ y ∈ g :: t, y.id ≠ target := by
    intro y hy
    rcases List.mem_cons.mp hy with rfl | hy
    · exact hOther
    · exact hNot y hy
  cases home with
  | none =>
    obtain ⟨t, x, rfl, hx, hNot, hStack⟩ := hd
    exact ⟨g :: t, x, rfl, hx, hMore hNot, hStack⟩
  | some m =>
    obtain ⟨hFrames, t, rfl, hNot, hStack⟩ := hd
    exact ⟨hFrames, g :: t, rfl, hMore hNot, hStack⟩

/-- The home is still to come to when a frame that is not the home is consumed. -/
theorem homed_tail {target : FrameId} {home : Option (FrameMark T)} (hOther : g.id ≠ target)
    (hHigh : ∀ m, home = some m → m.frames.length < (g :: K).length)
    (hh : Homed (g :: K) S target home) : Homed K S target home := by
  cases home with
  | none =>
    obtain ⟨x, hMem, hx⟩ := hh
    rcases List.mem_cons.mp hMem with rfl | hMem
    · exact absurd hx hOther
    · exact ⟨x, hMem, hx⟩
  | some m =>
    obtain ⟨⟨t, hK, hNot⟩, hFloor, hG⟩ := hh
    cases t with
    | nil =>
      have hLength := congrArg List.length hK
      rw [List.nil_append, List.length_map] at hLength
      exact absurd (hHigh m rfl) (by omega)
    | cons y t =>
      exact ⟨⟨t, (List.cons.inj hK).2, fun z hz => hNot z (List.mem_cons_of_mem y hz)⟩, hFloor, hG⟩

/-- The frames are those the compiled home was called over: it is told. -/
theorem consumed_arrive {m : FrameMark T} {target : FrameId} {ret : T.V}
    (hHome : Homed vm.skel vm.stack target (some m)) (hLow : vm.frames.length ≤ m.framesLen) :
    wp (discipline D h) (arrive m target ret) (Consumed target ret (some m) vm.skel) vm := by
  obtain ⟨⟨t, hK, -⟩, hFloor, -⟩ := hHome
  have hNone : t = [] := by
    have hLength := congrArg List.length hK
    rw [List.length_append, List.length_map, VmState.length_skel] at hLength
    have hLow : vm.frames.length ≤ m.frames.length := hLow
    exact List.eq_nil_of_length_eq_zero (by omega)
  rw [hNone, List.nil_append] at hK
  unfold arrive
  rw [wp_bind, wp_update, ends_ok, wp_bind, wp_update, ends_ok]
  refine ⟨⟨hK, [], rfl, by simp, ?_⟩, fun _ => rfl⟩
  exact congrArg _ (truncate_stack hFloor)

/-- A frame is consumed; if it is not the home, the rest is asked for. -/
theorem consumed_unwindFrame {target : FrameId} {ret : T.V} {home : Option (FrameMark T)}
    (hG : Grounded vm.skel vm.stack) (hHome : Homed vm.skel vm.stack target home)
    (hHigh : ∀ m, home = some m → m.framesLen < vm.frames.length) :
    wp (discipline D h) (unwindFrame h target ret home) (Consumed target ret home vm.skel) vm := by
  unfold unwindFrame
  rw [wp_bind]
  refine wp_popFrame (fun g frames hFrames => ?_) fun hFrames => ?_
  · have hSkel : vm.skel = g.core :: frames.map Frame.core := skel_cons hFrames
    have hHigh : ∀ m, home = some m →
        m.frames.length < (g.core :: frames.map Frame.core).length := by
      intro m hm
      rw [← hSkel, VmState.length_skel]
      exact hHigh m hm
    rw [hSkel] at hG hHome ⊢
    have hRest : Grounded (frames.map Frame.core) vm.stack := hG.2.2.mono hG.2.1
    refine wp_seq (wp_consumePoppedFrame (s := .unwindingInit) rfl hRest ⟨rfl, rfl⟩) ?_ ?_
    · rintro v vm' ⟨rfl, hF, hStack⟩
      split
      · rename_i hId
        rw [wp_bind, wp_update, ends_ok, wp_bind, wp_update, ends_ok]
        have hTop : (vm'.truncate g.stackBase).stack = g.core.floor := by
          rw [show g.stackBase = g.floor.length from hG.1]
          exact truncate_stack (hStack ▸ hG.2.1)
        cases home with
        | none =>
          -- the home: the stack is cut to its floor, and has the value on top
          refine ⟨⟨[], g.core, congrArg _ hF.symm, hId, by simp, ?_⟩, by simp⟩
          exact congrArg _ hTop
        | some m =>
          -- the frame above a compiled home is another one
          obtain ⟨⟨t, hK, hNot⟩, -⟩ := hHome
          cases t with
          | nil =>
            have hLength := congrArg List.length hK
            rw [List.nil_append, List.length_map] at hLength
            exact absurd (hHigh m rfl) (by omega)
          | cons y t =>
            obtain ⟨rfl, -⟩ := List.cons.inj hK
            exact absurd hId (hNot g.core List.mem_cons_self)
      · rename_i hId
        have hOther : g.core.id ≠ target := hId
        have hHome' : Homed vm'.skel vm'.stack target home := by
          rw [hF, hStack]
          exact homed_tail hOther hHigh hHome
        have hGrounded : Grounded vm'.skel vm'.stack := by rw [hF, hStack]; exact hRest
        refine wp_ask.mpr ⟨⟨hGrounded, hHome'⟩, ?_⟩
        intro r vm'' hRely
        have hConsumed : Consumed target (g.returns ret) home vm'.skel r vm'' := hRely.1
        rw [hF] at hConsumed
        cases r with
        | ok status => exact hConsumed
        | error err =>
          cases err with
          | nonLocalReturn => exact ⟨delivered_cons hOther hConsumed.1, hConsumed.2⟩
          | fault f' =>
            obtain ⟨t, x, F', hK, hBelow, hFloor⟩ := hConsumed
            exact ⟨g.core :: t, x, F', congrArg _ hK, hBelow, hFloor⟩
    · rintro err vm' ⟨hb, hCalm⟩
      cases err with
      | nonLocalReturn => exact absurd trivial hCalm.2
      | fault f' =>
        have hNotAbove : ¬ (frames.map Frame.core).length < vm'.frames.length := hCalm.1
        rcases hb with ⟨hAbove, hStack⟩ | ⟨t, x, F', hK, hBelow, hFloor⟩
        · have hEq : frames.map Frame.core = vm'.skel := hAbove.eq_of_length (by
            have hLe := hAbove.length_le
            rw [VmState.length_skel] at *
            omega)
          exact ⟨[], g.core, frames.map Frame.core, rfl, hEq ▸ List.suffix_refl _,
            hG.2.1.trans hStack⟩
        · exact ⟨g.core :: t, x, F', congrArg _ hK, hBelow, hFloor⟩
  · -- the home is among the frames, or below them
    have hNone : vm.skel = [] := by rw [VmState.skel, hFrames, List.map_nil]
    cases home with
    | none =>
      obtain ⟨x, hMem, -⟩ := hHome
      simp [hNone] at hMem
    | some m =>
      have hNoMore := hHigh m rfl
      rw [hFrames] at hNoMore
      simp at hNoMore

/-- The unwinding loop consumes the frames down to the first with the home's id, or down to those a
compiled home was called over. -/
theorem consumed_unwindRound {target : FrameId} {ret : T.V} {home : Option (FrameMark T)}
    (hG : Grounded vm.skel vm.stack) (hHome : Homed vm.skel vm.stack target home) :
    wp (discipline D h) (unwindRound h target ret home) (Consumed target ret home vm.skel) vm := by
  unfold unwindRound
  rw [wp_bind, wp_look, ends_ok]
  cases home with
  | none => exact consumed_unwindFrame hG hHome (by simp)
  | some m =>
    by_cases hLow : vm.frames.length ≤ m.framesLen
    · rw [Option.filter_some_pos (by simpa using hLow)]
      exact consumed_arrive hHome hLow
    · rw [Option.filter_some_neg (by simpa using hLow)]
      refine consumed_unwindFrame hG hHome ?_
      rintro m' hEq
      obtain rfl := Option.some.inj hEq
      omega

/-- A `^^` that has come to a compiled home has come down to the frame that executes it, or further
down, over operands that are still there. -/
theorem homing_of_delivered {m : FrameMark T} {target : FrameId} {ret : T.V} {rest : List T.V}
    (hGRest : Grounded (f.core :: F) rest) (hUnder : m.floor <:+ rest)
    (hGHome : Grounded (m.frames.map Frame.core) m.floor)
    (hd : Delivered (f.core :: F) target ret (some m) vm.skel vm.stack) :
    (∃ i, vm.skel = f.at i :: F) ∨ Homing F f.floor vm := by
  obtain ⟨hFrames, t, hK, -, hStack⟩ := hd
  cases t with
  | nil => exact .inl ⟨f.ip, hK.symm⟩
  | cons y t =>
    have hF : F = t ++ vm.skel := (List.cons.inj hK).2
    refine .inr ⟨_, m.floor, hStack, hFrames ▸ hGHome, ?_⟩
    rcases List.eq_nil_or_concat t with rfl | ⟨t, x, rfl⟩
    · exact .inl ⟨hF, comparable_of_suffix hUnder hGRest.2.1⟩
    · have hF : F = t ++ x :: vm.skel := by rw [hF]; simp
      have hFloor : x.floor <:+ f.floor := by
        have hG : Grounded F f.floor := hGRest.2.2
        rw [hF] at hG
        exact hG.inside.2.1
      exact .inr ⟨t, x, hF, comparable_of_suffix hUnder (hFloor.trans hGRest.2.1)⟩

theorem moved_execMethodReturn {before : VmState T} {frames : List (Frame T)}
    (hProper : Executing.Proper h ⟨before, some .methodReturn⟩)
    (hFrames : before.frames = f :: frames) (hBefore : before.stack = vm.stack)
    (hSkel : before.skel = vm.skel) (hMarks : before.frameMarks = vm.frameMarks)
    (hK : vm.skel = f.core :: F) (hG : Grounded (f :: F) vm.stack)
    (hD : ∀ home K S, Returned h ⟨before, some .methodReturn⟩ home K S → D home K S) :
    wp (discipline D h) (execMethodReturn h f) (Moved D h ⟨before, some .methodReturn⟩ f F) vm := by
  have hOperands : f.stackBase + 1 ≤ vm.stack.length :=
    hBefore ▸ hProper.operands f frames _ hFrames rfl
  rw [hG.1] at hOperands
  obtain ⟨ret, rest, hStack⟩ : ∃ ret rest, vm.stack = ret :: rest := by
    cases hStack : vm.stack with
    | nil => simp [hStack] at hOperands
    | cons ret rest => exact ⟨ret, rest, rfl⟩
  have hFloor : f.floor <:+ vm.stack.drop 1 := suffix_drop hG.2.1 hOperands
  rw [hStack] at hFloor
  have hGRest : Grounded (f.core :: F) rest := ⟨hG.1, hFloor, hG.2.2⟩
  have hValue : Executing.value h ⟨before, some .methodReturn⟩ = ret := by
    show before.stack.headD h.nil = ret
    rw [hBefore, hStack]
    rfl
  unfold execMethodReturn
  rw [wp_bind, wp_pop_cons hStack, ends_ok]
  split
  · rename_i target hTarget
    rw [wp_bind, wp_look, ends_ok]
    have hHome := hProper.home f frames target hFrames rfl hTarget
    have hTail : before.stack.tail = rest := by rw [hBefore, hStack, List.tail_cons]
    have hMarks' : { vm with stack := rest }.frameMarks = before.frameMarks := hMarks.symm
    rw [hMarks']
    change Homed before.skel before.stack.tail target (before.frameMarks.find? _) at hHome
    rw [hSkel, hTail] at hHome
    generalize hFound : before.frameMarks.find? _ = home at hHome
    refine wp_ask.mpr ⟨⟨?_, hHome⟩, ?_⟩
    · show Grounded vm.skel rest
      rw [hK]
      exact hGRest
    · intro r vm' hRely
      obtain ⟨hConsumed, hNot⟩ := hRely
      have hConsumed : Consumed target ret home vm.skel r vm' := hConsumed
      rw [hK] at hConsumed hHome
      cases r with
      | ok status => exact hConsumed.elim
      | error err =>
        cases err with
        | nonLocalReturn =>
          obtain ⟨hd, hSome⟩ := hConsumed
          -- where the value is on its way to, if the home is compiled
          have hWhere : vm'.nlrTarget = home.map fun _ => target := by
            cases home with
            | none =>
              have hNone : ¬ vm'.nlrTarget.isSome := (not_or.mp hNot).2
              simpa using hNone
            | some m => exact hSome rfl
          have hReturned : Returned h ⟨before, some .methodReturn⟩ vm'.nlrTarget vm'.skel
              vm'.stack := by
            refine ⟨rfl, f, frames, target, hFrames, hTarget, ?_, ?_⟩
            · exact hWhere.trans (hFound ▸ rfl)
            · show Delivered before.skel target _ (before.frameMarks.find? _) _ _
              rw [hFound, hValue, hSkel, hK]
              exact hd
          refine ⟨hD _ _ _ hReturned, ?_, fun _ => hReturned⟩
          cases home with
          | none =>
            obtain ⟨t, x, hF, hx, hNot, hTop⟩ := hd
            exact .inl ⟨hWhere, t, x, _, hF, hTop⟩
          | some m =>
            refine .inr ⟨by rw [hWhere]; rfl, ?_⟩
            exact homing_of_delivered hGRest hHome.2.1 hHome.2.2 hd
        | fault f' =>
          have hLow : Broke D (f.at f.ip :: F) rest (.fault f') vm' := .inr hConsumed
          exact broke_below hGRest hLow
  · exact moved_fail (i := f.ip) ⟨by exact hK, List.suffix_refl _⟩ hFloor

/-- An instruction, executed by the top frame over the others. -/
theorem moved_dispatchOne {before : VmState T} {frames : List (Frame T)} {bytecode : Bytecode T}
    {depth : Nat} (hFrames : before.frames = f :: frames) (hG : Grounded before.skel before.stack)
    (hProper : Executing.Proper h ⟨before, bytecode[f.ip]?⟩)
    (hD : ∀ home K S, Returned h ⟨before, bytecode[f.ip]?⟩ home K S → D home K S) :
    wp (discipline D h) (dispatchOne h bytecode f)
      (Moved D h ⟨before, bytecode[f.ip]?⟩ f (frames.map Frame.core)) (before.atDepth depth) := by
  have hK : (before.atDepth depth).skel = f.core :: frames.map Frame.core := skel_cons hFrames
  have hIdx : (before.atDepth depth).frames.length - 1 = (frames.map Frame.core).length := by
    rw [length_of_eq hK, List.length_cons, Nat.add_sub_cancel]
  have hGTop : Grounded (f :: frames.map Frame.core) (before.atDepth depth).stack := by
    rw [skel_cons hFrames] at hG
    exact hG
  unfold dispatchOne
  rw [wp_bind, wp_look, ends_ok, hIdx]
  generalize bytecode[f.ip]? = inst at hProper hD ⊢
  cases inst with
  | none => exact moved_implicitReturn hK hGTop
  | some inst =>
    cases inst with
    | compute op offset => exact moved_execCompute hProper hFrames rfl rfl hK hGTop
    | construct op => exact moved_execConstruct hProper hFrames rfl hK hGTop
    | executeBlockWithSelf => exact moved_execBlockWithSelf hProper hFrames rfl hK hGTop
    | ret => exact moved_execReturn hProper hFrames rfl hK hGTop
    | methodReturn => exact moved_execMethodReturn hProper hFrames rfl rfl rfl hK hGTop hD
    | yeet => exact moved_execYeet hProper hFrames rfl hGTop

/-- What the machine runs for a call, or a round of unwinding. -/
theorem yields_perform {q : Request T} (hq : ∀ site n context, q ≠ .nested site n context)
    (hG : Grounded vm.skel vm.stack) (hFit : q.Fit vm) :
    wp (discipline D h) (perform h q) (q.Yields D vm) vm := by
  cases q with
  | nested site n context => exact absurd rfl (hq site n context)
  | call site c receiver args window =>
    refine wp_seq (served_call hFit.1 rfl rfl hFit.2) (fun _ vm' hServed => hServed) ?_
    exact fun err vm' he => he
  | unwind target ret home => exact consumed_unwindRound hG hFit

end Quoin.Control
