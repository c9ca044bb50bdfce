import Mathlib
import Quoin.Control.Kept

/-!
# Quoin — the operands under a call

A frame is pushed over what its caller has left on the operand stack, its floor,
and works above it. Rust code called over some frames and operands gives the frames
back when it succeeds, and the operands, perhaps with others above them where a
native has caught an error. When a `^^` is in flight, the frames down to its home
are gone, and the stack is what was below the home with the value on top (`Broke`).
A home that is compiled has no frame; what was below it is below its window.

What is left on the stack matters where the code that called takes its own operand
off it afterwards: with the deferred calls of a frame that returns, and with
initializers. It also matters where code cuts the stack though a `^^` has done so
already. And a `^^` on its way to a compiled method is known by what is in
`nlr_target`, which the `finally` blocks that it runs must leave alone.

## Results

* `broke_unwind`, `grounded_of_broke` — after an error the frames that are left stand on
  the operands that are left, also when those above are popped;
* `Broke.trans` — an error after an error, raised over what the first has left.
-/

namespace Quoin.Control

open Trans Resumable

variable {T : Sig} {α β : Type}

abbrev Code (T : Sig) (α : Type) := Resume (Request T) (Result T) (VmState T) α

/-! ## Frames over their operands -/

/-- What the caller of a frame gets for the value the frame ends with. -/
def Frame.returns (f : Frame T) (ret : T.V) : T.V :=
  match f.instantiatingObj with
  | some obj => obj
  | none => if f.returnReceiver then f.receiver.getD ret else ret

/-- What the caller of the last of the frames gets for the value of a `^^` that consumes them. -/
def returned (frames : List (Frame T)) (ret : T.V) : T.V :=
  frames.foldl (fun v f => f.returns v) ret

/-- Each frame stands on the operands it was pushed over. -/
def Grounded : List (Frame T) → List T.V → Prop
  | [], _ => True
  | f :: F, stack => f.stackBase = f.floor.length ∧ f.floor <:+ stack ∧ Grounded F f.floor

variable {K K' F : List (Frame T)} {S S' : List T.V} {x g : Frame T}

theorem Grounded.mono (hG : Grounded K S) (hS : S <:+ S') : Grounded K S' := by
  cases K with
  | nil => trivial
  | cons f F => exact ⟨hG.1, hG.2.1.trans hS, hG.2.2⟩

/-- A frame among those that stand on a stack. -/
theorem Grounded.inside {t : List (Frame T)} (hG : Grounded (t ++ x :: F) S) :
    x.stackBase = x.floor.length ∧ x.floor <:+ S ∧ Grounded F x.floor := by
  induction t generalizing S with
  | nil => exact hG
  | cons f t ih =>
    obtain ⟨-, hFloor, hRest⟩ := hG
    obtain ⟨hBase, hSuffix, hF⟩ := ih hRest
    exact ⟨hBase, hSuffix.trans hFloor, hF⟩

theorem Grounded.suffix (hG : Grounded K S) (hs : K' <:+ K) : Grounded K' S := by
  obtain ⟨t, rfl⟩ := hs
  induction t generalizing S with
  | nil => exact hG
  | cons f t ih => exact (ih hG.2.2).mono hG.2.1

@[simp] theorem grounded_core : Grounded (K.map Frame.core) S ↔ Grounded K S := by
  induction K generalizing S with
  | nil => exact Iff.rfl
  | cons f F ih =>
    show f.stackBase = _ ∧ f.floor <:+ S ∧ Grounded (F.map Frame.core) f.floor ↔ _
    rw [ih]
    exact Iff.rfl

/-! ## Lists of operands -/

/-- One of the two stacks is the lower part of the other. -/
def Comparable (L M : List α) : Prop := L <:+ M ∨ M <:+ L

theorem comparable_of_suffix {L M N : List α} (hL : L <:+ N) (hM : M <:+ N) : Comparable L M :=
  List.suffix_or_suffix_of_suffix hL hM

/-- A lower part of a stack compares with what the stack compares with. -/
theorem Comparable.mono {L M N : List α} (hc : Comparable L N) (hM : M <:+ N) : Comparable L M := by
  rcases hc with hL | hN
  · exact comparable_of_suffix hL hM
  · exact .inr (hM.trans hN)

theorem Comparable.eq {L M : List α} (hc : Comparable L M) (hSame : L.length = M.length) :
    L = M := by
  rcases hc with hL | hM
  · exact hL.eq_of_length hSame
  · exact (hM.eq_of_length hSame.symm).symm

/-- Operands taken off a stack that has them over a floor leave the floor. -/
theorem suffix_drop {L M : List α} (hs : L <:+ M) {n : Nat} (hn : L.length + n ≤ M.length) :
    L <:+ M.drop n := by
  obtain ⟨t, rfl⟩ := hs
  rw [List.length_append] at hn
  rw [List.drop_append_of_le_length (by omega)]
  exact List.suffix_append _ _

/-- Writing an operand above a floor leaves the floor. -/
theorem suffix_set {L M : List α} (hs : L <:+ M) {n : Nat} {v : α} (hn : n + L.length < M.length) :
    L <:+ M.set n v := by
  obtain ⟨t, rfl⟩ := hs
  rw [List.length_append] at hn
  rw [List.set_append_left _ _ (by omega)]
  exact List.suffix_append _ _

/-! ## What disturbs the operands -/

def Callable.isNative : Callable T → Bool
  | .native _ | .remote _ => true
  | _ => false

/-- Whether the code that calls from a site takes an operand of its own off the stack after. -/
def Site.popsAfter : Site T → Bool
  | .defer | .newInit | .init | .unwindingInit => true
  | _ => false

/-- A native, which may leave operands, is called where the caller takes its own off after. -/
def Request.loose : Request T → Bool
  | .call site c .. => site.popsAfter && c.isNative
  | _ => false

/-- Code that waits at a site is handed an error, and then cuts the stack below the value of a `^^`,
or takes the value off; or puts another error in its place. -/
def Site.Cuts (h : Host T) (site : Site T) (frames : Nat) (e : QuoinError T) (vm : VmState T) :
    Prop :=
  match site, e with
  | .sendLookup recvStart, .nonLocalReturn => recvStart < vm.stack.length
  | .newInit, .nonLocalReturn | .unwindingInit, .nonLocalReturn => True
  | .newInit, .fault _ => vm.frames.length < frames
  -- a value is on the stack, which is taken off unless frames are gone
  | .cleanup _ .value .., .nonLocalReturn => vm.nlrTarget.isSome ∧ frames ≤ vm.frames.length
  -- the error that goes on is not the one of the `finally` block
  | .cleanup _ (.passing _) .., .nonLocalReturn => True
  | .cleanup _ (.passing .nonLocalReturn) target operands, .fault _ =>
    vm.frames.length < frames ∨ vm.nlrTarget ≠ target ∨ vm.stack.length ≠ operands
  -- the error of the `finally` block goes on, and not the `^^`
  | .cleanup _ (.error .nonLocalReturn) (some _) _, _ => True
  -- so does the error where a `finally` block cannot be begun
  | .handler, .nonLocalReturn => vm.nlrTarget.isSome ∧ h.stackHeadroom vm.depth = false
  | .examined, .nonLocalReturn => vm.nlrTarget.isSome
  -- the source asserts, in debug builds, that the value alone is in the window
  | .compiled (some (id, base)), .nonLocalReturn =>
    vm.nlrTarget = some id ∧ vm.stack.length ≠ base + 1
  | _, _ => False

/-- A `finally` block has been run while a `^^` was on its way, and `aot.nlr_target` is not what it
was. -/
def Site.Diverts (site : Site T) (vm : VmState T) : Prop :=
  match site with
  | .cleanup _ (.passing .nonLocalReturn) target _
  | .cleanup _ (.error .nonLocalReturn) target _ => vm.nlrTarget ≠ target
  | _ => False

/-- A `^^` has come to a home that has a frame while another is on its way to a compiled one. The
activations take the first for the second. -/
def Request.Overtakes (q : Request T) (e : QuoinError T) (vm : VmState T) : Prop :=
  match q, e with
  | .unwind _ _ none, .nonLocalReturn => vm.nlrTarget.isSome
  | _, _ => False

/-- Code that waits goes on over other frames, or loses the value of a `^^` or the way it goes, or
takes an operand that is not its own. -/
def Request.Disturbed (h : Host T) (q : Request T) (frames : Nat) (vm : VmState T) :
    Result T → Prop
  | .error e => (q.site.Strays h frames e vm ∨ q.site.Cuts h frames e vm) ∨ q.Overtakes e vm
  | .ok _ => q.loose ∨ q.site.Diverts vm

/-! ## The contract -/

/-- Some frames of `K` are gone, and what was under the last of them is still there. -/
def Low (K : List (Frame T)) (vm : VmState T) : Prop :=
  ∃ t x F, K = t ++ x :: F ∧ vm.skel <:+ F ∧ x.floor <:+ vm.stack

/-- The value of a `^^` is on the stack of the caller of the last frame it has consumed. -/
def Landed (K : List (Frame T)) (vm : VmState T) : Prop :=
  ∃ t x v, K = t ++ x :: vm.skel ∧ vm.stack = v :: x.floor

/-- The value of a `^^` on its way to a compiled method is on what was below the window of the
method. Whether the window is over `S`, or part of it, is for the method to say. -/
def Homing (K : List (Frame T)) (S : List T.V) (vm : VmState T) : Prop :=
  ∃ v L, vm.stack = v :: L ∧ Grounded vm.skel L ∧
    (K = vm.skel ∧ Comparable L S ∨ ∃ t x, K = t ++ x :: vm.skel ∧ Comparable L x.floor)

section

-- where the `^^`s of the run have left the frames and the operands, and the compiled method each
-- is on its way to, if it is
variable (D : Option FrameId → List (Frame T) → List T.V → Prop)

/-- What a function called over the frames `K` and the operands `S` leaves with an error. -/
def Broke (K : List (Frame T)) (S : List T.V) : QuoinError T → VmState T → Prop
  | .nonLocalReturn, vm =>
    D vm.nlrTarget vm.skel vm.stack ∧
      (vm.nlrTarget = none ∧ Landed K vm ∨ vm.nlrTarget.isSome ∧ Homing K S vm)
  | .fault _, vm => K <:+ vm.skel ∧ S <:+ vm.stack ∨ Low K vm

/-- The frames and the operands. -/
def At (K : List (Frame T)) (S : List T.V) (vm : VmState T) : Prop := vm.skel = K ∧ vm.stack = S

/-- The frames, and the operands perhaps under others. -/
def Over (K : List (Frame T)) (S : List T.V) (vm : VmState T) : Prop :=
  vm.skel = K ∧ S <:+ vm.stack

/-- A frame has been pushed over the operands. -/
def Pushed (K : List (Frame T)) (S : List T.V) (vm : VmState T) : Prop :=
  ∃ g, vm.skel = g :: K ∧ vm.stack = S ∧ g.floor = S ∧ g.stackBase = S.length

/-- What a nested run of a frame over the floor `S` leaves. -/
abbrev Left (K : List (Frame T)) (S : List T.V) : Except (QuoinError T) α → VmState T → Prop :=
  ends (fun _ vm => ∃ v, At K (v :: S) vm) (Broke D K S)

/-- What a call leaves: a value, or a frame to run. -/
abbrev Served (loose : Bool) (K : List (Frame T)) (S : List T.V) :
    Except (QuoinError T) α → VmState T → Prop :=
  ends (fun _ vm => (∃ v S', At K (v :: S') vm ∧ S <:+ S' ∧ (loose = false → S' = S)) ∨
    Pushed K S vm) (Broke D K S)

/-- The home of a `^^` from the frames `K` over the operands `S` is live: it is a frame, or what it
was called over is still there, below frames that are not the home of the `^^`. -/
def Homed (K : List (Frame T)) (S : List T.V) (target : FrameId) : Option (FrameMark T) → Prop
  | none => ∃ x ∈ K, x.id = target
  | some m => (∃ t, K = t ++ m.frames.map Frame.core ∧ ∀ y ∈ t, y.id ≠ target) ∧
    m.floor <:+ S ∧ Grounded (m.frames.map Frame.core) m.floor

/-- The value `ret` has gone from the frames `K` to the caller of the home: the frames down to the
home are consumed, the first with the home's id if it has a frame. -/
def Delivered (K : List (Frame T)) (target : FrameId) (ret : T.V) (home : Option (FrameMark T))
    (frames : List (Frame T)) (stack : List T.V) : Prop :=
  match home with
  | none => ∃ t x, K = t ++ x :: frames ∧ x.id = target ∧ (∀ y ∈ t, y.id ≠ target) ∧
    stack = returned (t ++ [x]) ret :: x.floor
  | some m => frames = m.frames.map Frame.core ∧ ∃ t, K = t ++ frames ∧ (∀ y ∈ t, y.id ≠ target) ∧
    stack = returned t ret :: m.floor

/-- What the unwinding loop leaves, with `ret` the value it returns. -/
def Consumed (target : FrameId) (ret : T.V) (home : Option (FrameMark T)) (K : List (Frame T)) :
    Result T → VmState T → Prop
  | .ok _, _ => False
  | .error .nonLocalReturn, vm =>
    Delivered K target ret home vm.skel vm.stack ∧ (home.isSome → vm.nlrTarget = some target)
  | .error (.fault _), vm => Low K vm

/-- What is asked for is over frames that stand on their operands: a nested run has at most one
frame to run at first, a call that finds its operands on the stack stands on what is below them,
and an unwinding has a home to come to. -/
def Request.Fit (q : Request T) (vm : VmState T) : Prop :=
  match q with
  | .nested _ n _ => n = vm.frames.length ∨ n + 1 = vm.frames.length
  | .call _ c _ _ window => Grounded vm.skel (dropWindow window vm).stack ∧
    ∀ recvStart, window = some recvStart → recvStart ≤ vm.stack.length ∧ c.isRooted
  | .unwind target _ home => Homed vm.skel vm.stack target home

/-- The frames and the operands that what is asked for leaves. -/
def Request.Yields (q : Request T) (vm : VmState T) (r : Result T) (vm' : VmState T) : Prop :=
  match q with
  | .nested _ n _ =>
    (n = vm.frames.length → ends (fun _ vm' => At vm.skel vm.stack vm')
      (Broke D vm.skel vm.stack) r vm') ∧
    ∀ g K, vm.skel = g :: K → n = K.length → Left D K g.floor r vm'
  | .call _ c _ _ window => Served D c.isNative vm.skel (dropWindow window vm).stack r vm'
  | .unwind target ret home => Consumed target ret home vm.skel r vm'

/-- Nested runs, calls and unwinding keep the frames and the operands they are asked for over, and
do not disturb the code that waits for them. -/
def discipline (h : Host T) : Contract (Request T) (Result T) (VmState T) where
  fit q vm := Grounded vm.skel vm.stack ∧ q.Fit vm
  rely q vm r vm' := q.Yields D vm r vm' ∧ ¬ q.Disturbed h (q.frames vm) vm' r

end

variable {D : Option FrameId → List (Frame T) → List T.V → Prop} {h : Host T}
  {vm vm' : VmState T} {s : Site T}

/-! ## Cutting the stack -/

theorem truncate_stack {L : List T.V} (hs : L <:+ vm.stack) :
    (vm.truncate L.length).stack = L := drop_of_suffix hs

/-- Cutting the stack no lower than a floor leaves the floor. -/
theorem suffix_truncate {L : List T.V} (hs : L <:+ vm.stack) {n : Nat} (hn : L.length ≤ n) :
    L <:+ (vm.truncate n).stack := by
  have hLe := hs.length_le
  refine suffix_drop hs ?_
  omega

theorem broke_truncate {f : Fault T} {n : Nat} (hb : Broke D K S (.fault f) vm)
    (hG : Grounded K S) (hn : S.length ≤ n) : Broke D K S (.fault f) (vm.truncate n) := by
  rcases hb with ⟨hK, hS⟩ | ⟨t, x, F, rfl, hBelow, hFloor⟩
  · exact .inl ⟨hK, suffix_truncate hS hn⟩
  · have hLe := hG.inside.2.1.length_le
    exact .inr ⟨t, x, F, rfl, hBelow, suffix_truncate hFloor (by omega)⟩

/-! ## Errors -/

theorem low_congr (hLow : Low K vm) (hFrames : vm'.skel = vm.skel) (hStack : vm'.stack = vm.stack) :
    Low K vm' := by
  unfold Low
  rw [hFrames, hStack]
  exact hLow

/-- A fault is over the same frames and operands, wherever a `^^` is on its way to. -/
theorem broke_fault_congr {f f' : Fault T} (hb : Broke D K S (.fault f) vm)
    (hFrames : vm'.skel = vm.skel) (hStack : vm'.stack = vm.stack) :
    Broke D K S (.fault f') vm' := by
  rcases hb with ⟨hK, hS⟩ | hLow
  · exact .inl ⟨hFrames ▸ hK, hStack ▸ hS⟩
  · exact .inr (low_congr hLow hFrames hStack)

theorem broke_congr {e : QuoinError T} (hb : Broke D K S e vm) (hFrames : vm'.skel = vm.skel)
    (hStack : vm'.stack = vm.stack) (hTarget : vm'.nlrTarget = vm.nlrTarget) :
    Broke D K S e vm' := by
  cases e with
  | nonLocalReturn =>
    have hLanded : Landed K vm' ↔ Landed K vm := by
      unfold Landed
      rw [hFrames, hStack]
    have hHoming : Homing K S vm' ↔ Homing K S vm := by
      unfold Homing
      rw [hFrames, hStack]
    refine ⟨?_, ?_⟩
    · rw [hTarget, hFrames, hStack]
      exact hb.1
    · rw [hTarget, hLanded, hHoming]
      exact hb.2
  | fault f => exact broke_fault_congr hb hFrames hStack

theorem Homing.mono (hh : Homing K S' vm) (hS : S <:+ S') : Homing K S vm := by
  obtain ⟨v, L, hStack, hG, hCases⟩ := hh
  exact ⟨v, L, hStack, hG, hCases.imp_left fun hSame => ⟨hSame.1, hSame.2.mono hS⟩⟩

theorem Broke.mono {e : QuoinError T} (hb : Broke D K S' e vm) (hS : S <:+ S') :
    Broke D K S e vm := by
  cases e with
  | nonLocalReturn => exact ⟨hb.1, hb.2.imp_right fun hHome => ⟨hHome.1, hHome.2.mono hS⟩⟩
  | fault f => exact hb.imp_left fun hAbove => ⟨hAbove.1, hS.trans hAbove.2⟩

theorem broke_of_over {f : Fault T} (hOver : Over K S vm) : Broke D K S (.fault f) vm :=
  .inl ⟨hOver.1 ▸ List.suffix_refl _, hOver.2⟩

/-- A fault over frames that compare with `K` either way. -/
theorem broke_of_comparable {f : Fault T} (hG : Grounded K S) (hS : S <:+ vm.stack)
    (hCases : K <:+ vm.skel ∨ vm.skel <:+ K) : Broke D K S (.fault f) vm := by
  rcases hCases with hK | hK
  · exact .inl ⟨hK, hS⟩
  · obtain ⟨t, rfl⟩ := hK
    rcases List.eq_nil_or_concat t with rfl | ⟨t, y, rfl⟩
    · exact .inl ⟨List.suffix_refl _, hS⟩
    · refine .inr ⟨t, y, vm.skel, by simp, List.suffix_refl _, ?_⟩
      have hG : Grounded (t ++ y :: vm.skel) S := by simpa using hG
      exact hG.inside.2.1.trans hS

theorem over_of_at (hAt : At K S vm) : Over K S vm := ⟨hAt.1, hAt.2 ▸ List.suffix_refl _⟩

theorem low_length (hLow : Low K vm) : vm.frames.length < K.length := by
  obtain ⟨t, x, F, rfl, hSuffix, -⟩ := hLow
  have hLe := hSuffix.length_le
  rw [VmState.length_skel] at hLe
  simp only [List.length_append, List.length_cons]
  omega

theorem landed_length (hl : Landed K vm) : vm.frames.length < K.length := by
  obtain ⟨t, x, v, hK, -⟩ := hl
  have hCount := congrArg List.length hK
  simp only [List.length_append, List.length_cons, VmState.length_skel] at hCount
  omega

theorem homing_length (hh : Homing K S vm) : vm.frames.length ≤ K.length := by
  obtain ⟨v, L, -, -, hCases⟩ := hh
  rcases hCases with ⟨hK, -⟩ | ⟨t, x, hK, -⟩
  · rw [hK, VmState.length_skel]
  · have hCount := congrArg List.length hK
    simp only [List.length_append, List.length_cons, VmState.length_skel] at hCount
    omega

/-- A `^^` that is not on its way to a compiled method has consumed frames. -/
theorem Broke.landed (hb : Broke D K S .nonLocalReturn vm) (hNone : vm.nlrTarget = none) :
    Landed K vm := by
  rcases hb.2 with ⟨-, hLanded⟩ | ⟨hSome, -⟩
  · exact hLanded
  · rw [hNone] at hSome
    contradiction

theorem Broke.homing (hb : Broke D K S .nonLocalReturn vm) (hSome : vm.nlrTarget.isSome) :
    Homing K S vm := by
  rcases hb.2 with ⟨hNone, -⟩ | ⟨-, hHoming⟩
  · rw [hNone] at hSome
    contradiction
  · exact hHoming

/-- Popping frames back to those of `K` changes nothing where there are no more. -/
theorem unwind_of_low (hLow : vm.frames.length ≤ K.length) : vm.unwind K.length = vm := by
  have hNone : vm.frames.length - K.length = 0 := by omega
  unfold VmState.unwind VmState.below
  rw [hNone, List.drop_zero]

theorem unwind_of_above (hK : K <:+ vm.skel) : (vm.unwind K.length).skel = K := by
  show (vm.below K.length).map Frame.core = K
  rw [VmState.below_skel]
  exact drop_of_suffix hK

/-- Popped back to the frames a function was called over, or lower. -/
theorem broke_unwind {e : QuoinError T} (hb : Broke D K S e vm) :
    Broke D K S e (vm.unwind K.length) ∧ (vm.unwind K.length).frames.length ≤ K.length := by
  -- where there are no more frames than that, nothing is popped
  have hLow (hCount : vm.frames.length ≤ K.length) : Broke D K S e (vm.unwind K.length) ∧
      (vm.unwind K.length).frames.length ≤ K.length := by
    rw [unwind_of_low hCount]
    exact ⟨hb, hCount⟩
  cases e with
  | nonLocalReturn =>
    rcases hb.2 with ⟨-, hLanded⟩ | ⟨-, hHoming⟩
    · exact hLow (landed_length hLanded).le
    · exact hLow (homing_length hHoming)
  | fault f =>
    rcases hb with ⟨hK, hS⟩ | hBelow
    · have hOver : Over K S (vm.unwind K.length) := ⟨unwind_of_above hK, hS⟩
      exact ⟨broke_of_over hOver, (length_of_eq hOver.1).le⟩
    · exact hLow (low_length hBelow).le

/-- An error that is offered to handlers has left the operands, unless frames are gone. -/
theorem over_of_offered {e : QuoinError T} (hb : Broke D K S e vm) (ho : e.offered vm) :
    Over K S (vm.unwind K.length) ∨ vm.frames.length < K.length := by
  cases e with
  | nonLocalReturn => exact .inr (landed_length (hb.landed (Option.isNone_iff_eq_none.mp ho)))
  | fault f =>
    rcases hb with ⟨hK, hS⟩ | hLow
    · exact .inl ⟨unwind_of_above hK, hS⟩
    · exact .inr (low_length hLow)

/-- Where a function has failed, the frames it leaves stand on the operands. -/
theorem grounded_of_broke {e : QuoinError T} (hG : Grounded K S) (hb : Broke D K S e vm)
    (hCount : vm.frames.length ≤ K.length) : Grounded vm.skel vm.stack := by
  cases e with
  | nonLocalReturn =>
    rcases hb.2 with ⟨-, t, x, v, rfl, hStack⟩ | ⟨-, v, L, hStack, hGrounded, -⟩
    · rw [hStack]
      exact hG.inside.2.2.mono (List.suffix_cons _ _)
    · rw [hStack]
      exact hGrounded.mono (List.suffix_cons _ _)
  | fault f =>
    rcases hb with ⟨hK, hS⟩ | ⟨t, x, F, rfl, hSuffix, hFloor⟩
    · have hEq : K = vm.skel := hK.eq_of_length (by
        have := hK.length_le
        rw [VmState.length_skel] at *
        omega)
      exact hEq ▸ hG.mono hS
    · exact (hG.inside.2.2.suffix hSuffix).mono hFloor

/-- The frames an error has left are `K`, or the last of them, and what was under those that are
gone is still there: of every error but a `^^` to a compiled method. -/
theorem Broke.remains {err : QuoinError T} (hErr : Broke D K S err vm) (hG : Grounded K S)
    (hCount : vm.frames.length ≤ K.length) (hNot : err = .nonLocalReturn → vm.nlrTarget = none) :
    vm.skel = K ∧ S <:+ vm.stack ∨ ∃ t y, K = t ++ y :: vm.skel ∧ y.floor <:+ vm.stack := by
  cases err with
  | nonLocalReturn =>
    obtain ⟨t, x, v, hK, hStack⟩ := hErr.landed (hNot rfl)
    exact .inr ⟨t, x, hK, hStack ▸ List.suffix_cons v _⟩
  | fault f =>
    rcases hErr with ⟨hK, hS⟩ | ⟨t, x, F, rfl, hSuffix, hFloor⟩
    · refine .inl ⟨(hK.eq_of_length ?_).symm, hS⟩
      have hLe := hK.length_le
      rw [VmState.length_skel] at *
      omega
    · -- the last frame that is gone stands lower than the one that is known of
      obtain ⟨t', hF⟩ := hSuffix
      rcases List.eq_nil_or_concat t' with rfl | ⟨t', y, rfl⟩
      · rw [List.nil_append] at hF
        exact .inr ⟨t, x, by rw [hF], hFloor⟩
      · have hF : F = t' ++ y :: vm.skel := by rw [← hF]; simp
        refine .inr ⟨t ++ x :: t', y, by rw [hF]; simp, ?_⟩
        have hBelow : Grounded (t' ++ y :: vm.skel) x.floor := hF ▸ hG.inside.2.2
        exact hBelow.inside.2.1.trans hFloor

/-- An error after an error, raised over what that has left: no frames come back. -/
theorem Broke.trans {err e : QuoinError T} (hErr : Broke D K S err vm) (hG : Grounded K S)
    (hCount : vm.frames.length ≤ K.length) (hNot : err = .nonLocalReturn → vm.nlrTarget = none)
    (he : Broke D vm.skel vm.stack e vm')
    (hCount' : vm.frames.length < K.length → vm'.frames.length ≤ vm.frames.length ∨
      e = .nonLocalReturn) : Broke D K S e vm' := by
  rcases hErr.remains hG hCount hNot with ⟨hSame, hS⟩ | ⟨t, y, hK, hFloor⟩
  · exact hSame ▸ he.mono hS
  · have hLow : vm.frames.length < K.length := by
      have hLength := congrArg List.length hK
      simp only [List.length_append, List.length_cons, VmState.length_skel] at hLength
      omega
    -- what is consumed of the frames that were left is consumed of `K`
    have hMore {t' F : List (Frame T)} {x : Frame T} (hSkel : vm.skel = t' ++ x :: F) :
        K = (t ++ y :: t') ++ x :: F := by
      rw [hK, hSkel]
      simp
    cases e with
    | nonLocalReturn =>
      refine ⟨he.1, ?_⟩
      rcases he.2 with ⟨hNone, t', x, v, hSkel, hStack⟩ | ⟨hSome, v, L, hStack, hGrounded, hCases⟩
      · exact .inl ⟨hNone, _, x, v, hMore hSkel, hStack⟩
      · refine .inr ⟨hSome, v, L, hStack, hGrounded, .inr ?_⟩
        rcases hCases with ⟨hSkel, hL⟩ | ⟨t', x, hSkel, hL⟩
        · exact ⟨t, y, hSkel ▸ hK, hL.mono hFloor⟩
        · exact ⟨_, x, hMore hSkel, hL⟩
    | fault f =>
      rcases he with ⟨hAbove, hOver⟩ | ⟨t', x, F, hSkel, hBelow, hUnder⟩
      · have hNoMore : vm'.frames.length ≤ vm.frames.length :=
          (hCount' hLow).resolve_right (by simp)
        have hEq : vm.skel = vm'.skel := hAbove.eq_of_length (by
          have := hAbove.length_le
          simp only [VmState.length_skel] at *
          omega)
        exact .inr ⟨t, y, vm.skel, hK, hEq ▸ List.suffix_refl _, hFloor.trans hOver⟩
      · exact .inr ⟨_, x, F, hMore hSkel, hBelow, hUnder⟩

end Quoin.Control
