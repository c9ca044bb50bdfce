import Mathlib
import Quoin.Control.Grounds

/-!
# Quoin — what calls do to the operands

A block that is run over some operands leaves its value on them, and no more. A
native may leave operands under its value, so what is known after a call is what is
known of where it is made from (`Meets`). A call of compiled code puts its operands
on the stack first, and takes off what is left of them.

## Results

* `ends_executeBlock`, `ends_callMethod`, `ends_outcall` — a block run, a method called by
  native code, and one called by compiled code, from any site but a cleanup's;
* `wp_consumePoppedFrame`, `wp_runFrameDefers` — what runs at the end of a frame.
-/

namespace Quoin.Control

open Trans Resumable

variable {T : Sig} {α β : Type} {D : Option FrameId → List (Frame T) → List T.V → Prop}
  {h : Host T} {K : List (Frame T)} {S S' : List T.V} {vm vm' : VmState T} {s : Site T}
  {P Q : VmState T → Prop}

/-! ## Ways of ending -/

/-- An error handed to a site does not disturb the code that waits there. -/
def Calm (h : Host T) (s : Site T) (K : List (Frame T)) (e : QuoinError T) (vm : VmState T) :
    Prop :=
  ¬ s.Strays h K.length e vm ∧ ¬ s.Cuts h K.length e vm

/-- Code run at a site ends in `P`, or with an error over the frames `K` and the operands `S`. -/
abbrev Ends (D : Option FrameId → List (Frame T) → List T.V → Prop) (h : Host T) (s : Site T)
    (K : List (Frame T)) (S : List T.V) (P : VmState T → Prop) :
    Except (QuoinError T) α → VmState T → Prop :=
  ends (fun _ vm => P vm) fun e vm => Broke D K S e vm ∧ Calm h s K e vm

/-- What is known of the frames and operands after a call made from a site. -/
def Meets (s : Site T) (K : List (Frame T)) (S : List T.V) (vm : VmState T) : Prop :=
  vm.skel = K ∧ S <:+ vm.stack ∧ (s.popsAfter = true → vm.stack = S)

def Site.isCleanup : Site T → Bool
  | .cleanup .. => true
  | _ => false

/-- A cleanup's site says where a `^^` is on its way to, and how many operands there are, as they
are when the cleanup begins; and no `^^` to a compiled method is lost if it is not begun. -/
def Site.Begins (s : Site T) (vm : VmState T) : Prop :=
  match s with
  | .cleanup _ after target operands =>
    vm.nlrTarget = target ∧ vm.stack.length = operands ∧
      (after = .error .nonLocalReturn → target = none)
  | _ => True

theorem begins_of_plain (hs : s.isCleanup = false) : s.Begins vm := by
  cases s with
  | cleanup low after target operands => contradiction
  | _ => trivial

/-- A fault raised over the frames of the code itself. -/
theorem calm_of_eq {f : Fault T} (hBegins : s.Begins vm) (hK : vm.skel = K) :
    Calm h s K (.fault f) vm := by
  have hCount := length_of_eq hK
  constructor
  · unfold Site.Strays
    split
    · omega
    · exact not_not.mpr hCount
    · omega
    · omega
    · exact fun hHome => hHome.2.2 hCount
    · exact id
  · unfold Site.Cuts
    split
    · contradiction
    · contradiction
    · contradiction
    · omega
    · contradiction
    · contradiction
    · -- nothing has been touched
      obtain ⟨hTarget, hOperands, -⟩ := hBegins
      rintro (hLow | hOther | hMore)
      · omega
      · exact hOther hTarget
      · exact hMore hOperands
    · exact absurd (hBegins.2.2 rfl) (by simp)
    · contradiction
    · contradiction
    · contradiction
    · exact id

theorem calm_of_plain {f : Fault T} (hs : s.isCleanup = false) (hK : vm.skel = K) :
    Calm h s K (.fault f) vm := calm_of_eq (begins_of_plain hs) hK

/-- What is looked at where an error is handed to a site. -/
theorem calm_congr {e : QuoinError T} (hCalm : Calm h s K e vm) (hSame : Matching vm vm')
    (hStack : vm'.stack = vm.stack) (hDepth : vm'.depth = vm.depth) : Calm h s K e vm' := by
  refine ⟨mt (strays_congr hSame).mp hCalm.1, ?_⟩
  unfold Calm Site.Cuts at *
  rw [hSame.frames, hSame.nlrTarget, hStack, hDepth]
  exact hCalm.2

/-- For a fault the stack is not looked at, but by a cleanup. -/
theorem calm_truncate {f : Fault T} {n : Nat} (hs : s.isCleanup = false)
    (hCalm : Calm h s K (.fault f) vm) : Calm h s K (.fault f) (vm.truncate n) := by
  cases s with
  | cleanup low after target operands => contradiction
  | compiled home => cases home <;> exact hCalm
  | _ => exact hCalm

/-- What is known where a request is answered with an error. -/
theorem calm_of_rely {e : QuoinError T} {q : Request T} {n : Nat} (hn : n = K.length)
    (hNot : ¬ q.Disturbed h n vm (.error e)) : Calm h q.site K e vm := by
  subst hn
  exact not_or.mp (not_or.mp hNot).1

theorem meets_of_at (hAt : At K S vm) : Meets s K S vm :=
  ⟨hAt.1, hAt.2 ▸ List.suffix_refl _, fun _ => hAt.2⟩

theorem over_of_meets (hm : Meets s K S vm) : Over K S vm := ⟨hm.1, hm.2.1⟩

/-- The first of two programs started over more operands. -/
theorem ends_bind {x : Rust T α} {f : α → Rust T β} (hS : S <:+ S')
    (hx : wp (discipline D h) x (Ends D h s K S' P) vm)
    (hf : ∀ a vm', P vm' → wp (discipline D h) (f a) (Ends D h s K S Q) vm') :
    wp (discipline D h) (x >>= f) (Ends D h s K S Q) vm :=
  wp_seq hx hf fun _ _ he => ⟨he.1.mono hS, he.2⟩

theorem ends_then {x : Rust T α} {f : α → Rust T β}
    (hx : wp (discipline D h) x (Ends D h s K S P) vm)
    (hf : ∀ a vm', P vm' → wp (discipline D h) (f a) (Ends D h s K S Q) vm') :
    wp (discipline D h) (x >>= f) (Ends D h s K S Q) vm := ends_bind (List.suffix_refl _) hx hf

theorem ends_mono {x : Rust T α} (hS : S <:+ S') (hP : ∀ vm', P vm' → Q vm')
    (hx : wp (discipline D h) x (Ends D h s K S' P) vm) :
    wp (discipline D h) x (Ends D h s K S Q) vm := by
  refine wp_mono hx ?_
  rintro (e | a) vm' hEnd
  · exact ⟨hEnd.1.mono hS, hEnd.2⟩
  · exact hP vm' hEnd

theorem ends_weaken {x : Rust T α} (hP : ∀ vm', P vm' → Q vm')
    (hx : wp (discipline D h) x (Ends D h s K S P) vm) :
    wp (discipline D h) x (Ends D h s K S Q) vm := ends_mono (List.suffix_refl _) hP hx

theorem ends_look {f : VmState T → Rust T α}
    (hf : wp (discipline D h) (f vm) (Ends D h s K S P) vm) :
    wp (discipline D h) (look >>= f) (Ends D h s K S P) vm := by
  rw [wp_bind]
  exact hf

theorem ends_update {f : VmState T → VmState T} (hf : P (f vm)) :
    wp (discipline D h) (update f) (Ends D h s K S P) vm := hf

theorem wp_pop_cons {c : Contract (Request T) (Result T) (VmState T)}
    {post : Except (QuoinError T) T.V → VmState T → Prop} {v : T.V} (hStack : vm.stack = v :: S) :
    wp c (pop h) post vm ↔ post (.ok v) { vm with stack := S } := by
  unfold pop
  simp only [wp_bind, wp_look, ends_ok, hStack]
  exact Iff.rfl

/-! ## Nested runs -/

/-- A frame run over its floor, and its value taken. If it is a cleanup's, where a `^^` is on its
way to is as it was. -/
theorem ends_pushed {context : String} (hG : Grounded K S) (hPushed : Pushed K S vm) :
    wp (discipline D h) (do
      runNested s K.length context
      pop h) (Ends D h s K S fun vm' => At K S vm' ∧ ¬ s.Diverts vm') vm := by
  obtain ⟨g, hSkel, hStack, hFloor, hBase⟩ := hPushed
  have hGrounded : Grounded vm.skel vm.stack := by
    rw [hSkel, hStack]
    exact ⟨by rw [hBase, hFloor], hFloor ▸ List.suffix_refl _, hFloor ▸ hG⟩
  have hCount : K.length + 1 = vm.frames.length := by
    rw [← VmState.length_skel, hSkel, List.length_cons]
  have hRun : wp (discipline D h) (runNested s K.length context)
      (Ends D h s K S fun vm' => ∃ v, At K (v :: S) vm' ∧ ¬ s.Diverts vm') vm := by
    unfold runNested
    rw [wp_bind]
    refine wp_ask.mpr ⟨⟨hGrounded, .inr hCount⟩, ?_⟩
    intro r vm' hRely
    obtain ⟨hYields, hNot⟩ := hRely
    have hLeft : Left D K g.floor r vm' := hYields.2 g K hSkel rfl
    rw [hFloor] at hLeft
    cases r with
    | ok status =>
      obtain ⟨v, hAt⟩ := hLeft
      exact ⟨v, hAt, (not_or.mp hNot).2⟩
    | error e => exact ⟨hLeft, calm_of_rely (q := .nested s K.length context) rfl hNot⟩
  refine ends_then hRun ?_
  rintro - vm' ⟨v, ⟨hK, hTop⟩, hSame⟩
  refine (wp_pop_cons hTop).mpr ⟨⟨hK, rfl⟩, ?_⟩
  unfold Site.Diverts at hSame ⊢
  exact hSame

/-- A nested run with no frame to run. -/
theorem ends_idle {context : String} (hG : Grounded K S) (hAt : At K S vm) :
    wp (discipline D h) (runNested s K.length context) (Ends D h s K S (At K S)) vm := by
  obtain ⟨rfl, rfl⟩ := hAt
  unfold runNested
  rw [wp_bind]
  refine wp_ask.mpr ⟨⟨hG, .inl VmState.length_skel⟩, ?_⟩
  intro r vm' hRely
  obtain ⟨hYields, hNot⟩ := hRely
  have hSame := hYields.1 VmState.length_skel
  cases r with
  | ok status => exact hSame
  | error e =>
    exact ⟨hSame, calm_of_rely (q := .nested s vm.skel.length context) rfl hNot⟩

theorem ends_executeBlock {b : Block T} {args : List T.V} {self : Option T.V}
    (hBegins : h.stackHeadroom vm.depth = false → s.Begins vm) (hG : Grounded K S)
    (hAt : At K S vm) :
    wp (discipline D h) (executeBlock h s b args self)
      (Ends D h s K S fun vm' => At K S vm' ∧ ¬ s.Diverts vm') vm := by
  unfold executeBlock ensureStackHeadroom ensure
  rw [wp_bind, wp_bind, wp_look, ends_ok]
  cases hRoom : h.stackHeadroom vm.depth with
  | false =>
    rw [if_neg (by simp)]
    exact ⟨broke_of_over (over_of_at hAt), calm_of_eq (hBegins hRoom) hAt.1⟩
  | true =>
    rw [if_pos rfl, wp_pure, ends_ok]
    refine ends_look ?_
    obtain ⟨rfl, rfl⟩ := hAt
    rw [wp_bind, wp_update, ends_ok, ← VmState.length_skel]
    refine ends_pushed hG ?_
    cases self <;> exact ⟨_, rfl, rfl, rfl, rfl⟩

theorem ends_executeValidationBlock {b : Block T} {receiver : T.V} {env : T.Env}
    (hG : Grounded K S) (hAt : At K S vm) :
    wp (discipline D h) (executeValidationBlock h s b receiver env) (Ends D h s K S (At K S))
      vm := by
  obtain ⟨rfl, rfl⟩ := hAt
  unfold executeValidationBlock
  refine ends_look ?_
  rw [wp_bind, wp_update, ends_ok, ← VmState.length_skel]
  exact ends_weaken (fun _ hEnd => hEnd.1) (ends_pushed hG ⟨_, rfl, rfl, rfl, rfl⟩)

/-! ## Calls -/

/-- The operands of a call, put over `S`, are above it. -/
theorem truncate_pushAll (vs : List T.V) : ((vm.pushAll vs).truncate vm.stack.length).stack =
    vm.stack := truncate_stack (List.suffix_append vs vm.stack)

/-- What a call leaves, where the site takes an operand of its own off after and where it does
not. -/
theorem ends_call {receiver : T.V} {args : List T.V} {c : Callable T} {window : Option Nat}
    (hG : Grounded K S) (hK : vm.skel = K) (hS : (dropWindow window vm).stack = S)
    (hWindow : ∀ recvStart, window = some recvStart →
      recvStart ≤ vm.stack.length ∧ c.isRooted) :
    wp (discipline D h) (ask (.call s c receiver args window) : Rust T _)
      (Ends D h s K S fun vm' => (∃ v S', At K (v :: S') vm' ∧ S <:+ S' ∧
        (s.popsAfter = true → S' = S)) ∨ Pushed K S vm') vm := by
  subst hK hS
  have hBelow : (dropWindow window vm).stack <:+ vm.stack := by
    cases window with
    | none => exact List.suffix_refl _
    | some recvStart => exact List.drop_suffix _ _
  refine wp_ask.mpr ⟨⟨hG.mono hBelow, hG, hWindow⟩, ?_⟩
  intro r vm' hRely
  obtain ⟨hServed, hNot⟩ := hRely
  have hServed : Served D c.isNative vm.skel (dropWindow window vm).stack r vm' := hServed
  cases r with
  | ok status =>
    have hTight (hPops : s.popsAfter = true) : c.isNative = false := by
      have hLoose : ¬ (s.popsAfter && c.isNative) = true := (not_or.mp hNot).1
      simpa [hPops] using hLoose
    refine hServed.imp_left ?_
    rintro ⟨v, S', hAt, hSuffix, hExact⟩
    exact ⟨v, S', hAt, hSuffix, fun hPops => hExact (hTight hPops)⟩
  | error e =>
    exact ⟨hServed, calm_of_rely (q := .call s c receiver args window) VmState.length_skel.symm
      hNot⟩

theorem ends_callFound {receiver : T.V} {args : List T.V} {c : Option (Callable T)}
    (hG : Grounded K S) (hAt : At K S vm) :
    wp (discipline D h) (callFound h s receiver args c) (Ends D h s K S (Meets s K S)) vm := by
  cases c with
  | none => exact meets_of_at hAt
  | some c =>
    unfold callFound
    refine ends_look ?_
    rw [length_of_eq hAt.1]
    refine ends_then (ends_call hG hAt.1 hAt.2 (by simp)) ?_
    rintro - vm' (⟨v, S', hAt', hSuffix, hExact⟩ | hPushed)
    · have hMore : S <:+ v :: S' := hSuffix.trans (List.suffix_cons v S')
      refine ends_bind hMore (ends_idle (hG.mono hMore) hAt') ?_
      rintro - vm'' ⟨hK, hStack⟩
      exact (wp_pop_cons hStack).mpr ⟨hK, hSuffix, hExact⟩
    · exact ends_weaken (fun _ hEnd => meets_of_at hEnd.1) (ends_pushed hG hPushed)

section

variable (hs : s.isCleanup = false)

include hs

theorem ends_fail {f : Fault T} (hOver : Over K S vm) :
    wp (α := α) (discipline D h) (fail (.fault f)) (Ends D h s K S P) vm :=
  ⟨broke_of_over hOver, calm_of_plain hs hOver.1⟩

theorem ends_ensure {ok : Bool} {f : Fault T} (hOver : Over K S vm) (hP : P vm) :
    wp (discipline D h) (ensure ok f) (Ends D h s K S P) vm := by
  unfold ensure
  split
  · exact hP
  · exact ends_fail hs hOver

theorem ends_runLookup (l : Lookup T) (hG : Grounded K S) : ∀ {vm : VmState T}, At K S vm →
    wp (discipline D h) (runLookup h s l) (Ends D h s K S (At K S)) vm := by
  induction l with
  | found c w =>
    intro vm hAt
    exact ends_then (P := At K S) (ends_update hAt) fun _ vm' hAt' => hAt'
  | fail f w =>
    intro vm hAt
    exact ends_then (P := At K S) (ends_update hAt) fun _ vm' hAt' => ends_fail hs (over_of_at hAt')
  | guard b receiver env w k ih =>
    intro vm hAt
    refine ends_then (P := At K S) (ends_update hAt) fun _ vm' hAt' => ?_
    refine ends_then (ends_executeValidationBlock hG hAt') fun v vm'' hAt'' => ends_look ?_
    exact ih v _ hAt''

theorem ends_lookupMethod {receiver : T.V} {selector : String} {args : List T.V}
    (hG : Grounded K S) (hAt : At K S vm) :
    wp (discipline D h) (lookupMethod h s receiver selector args) (Ends D h s K S (At K S)) vm :=
  ends_look (ends_runLookup hs _ hG hAt)

/-- The frames, the operands and the way a `^^` goes are all that the ways of ending look at, but
for the heap. -/
theorem ends_reentering {x : Rust T α} (hP : ∀ {vm : VmState T} {n : Nat}, P vm →
      P { vm with nativeReentryDepth := n })
    (hx : ∀ {vm' : VmState T}, At K S vm' → wp (discipline D h) x (Ends D h s K S P) vm')
    (hAt : At K S vm) :
    wp (discipline D h) (reentering h x) (Ends D h s K S P) vm := by
  have hEnter : wp (discipline D h) (enterNativeReentry h) (Ends D h s K S (At K S)) vm :=
    ends_look (ends_then (ends_ensure hs (over_of_at hAt) hAt) fun _ vm' hAt' => ends_update hAt')
  refine ends_then hEnter fun _ vm' hAt' => ?_
  rw [wp_ensuring]
  refine wp_mono (hx hAt') ?_
  rintro (e | a) vm'' hEnd
  · obtain ⟨hb, hCalm⟩ := hEnd
    exact ⟨broke_congr hb rfl rfl rfl, calm_congr hCalm ⟨rfl, rfl, rfl⟩ rfl rfl⟩
  · exact hP hEnd

theorem ends_callMethod {receiver : T.V} {selector : String} {args : List T.V}
    (hG : Grounded K S) (hAt : At K S vm) :
    wp (discipline D h) (callMethod h s receiver selector args) (Ends D h s K S (Meets s K S)) vm :=
  ends_reentering hs id (fun hAt' =>
    ends_then (ends_lookupMethod hs hG hAt') fun _ _ hAt'' => ends_callFound hG hAt'') hAt

theorem ends_callMethodValue {receiver : T.V} {method : Option (Callable T)} {args : List T.V}
    (hG : Grounded K S) (hAt : At K S vm) :
    wp (discipline D h) (callMethodValue h s receiver method args)
      (Ends D h s K S (Meets s K S)) vm :=
  ends_reentering hs id (fun hAt' => ends_callFound hG hAt') hAt

/-- A call of compiled code leaves the operands, whatever a native has left. -/
theorem ends_outcallFound {receiver : T.V} {args : List T.V} {c : Callable T}
    (hG : Grounded K S) (hAt : At K S vm) :
    wp (discipline D h) (outcallFound h s receiver args c) (Ends D h s K S (Meets s K S)) vm := by
  unfold outcallFound
  split
  · rename_i hRooted
    obtain ⟨rfl, rfl⟩ := hAt
    rw [wp_bind, wp_look, ends_ok]
    dsimp only
    rw [wp_bind, wp_update, ends_ok, wp_bind, wp_onError]
    -- the window is what the call is made over: the receiver and the arguments
    have hWindow : ∀ recvStart, some vm.stack.length = some recvStart →
        recvStart ≤ (vm.pushAll (receiver :: args).reverse).stack.length ∧ c.isRooted := by
      rintro recvStart hEq
      obtain rfl := Option.some.inj hEq
      exact ⟨(List.suffix_append _ vm.stack).length_le, hRooted⟩
    have hCall : wp (discipline D h)
        (ask (.call s c receiver args (some vm.stack.length)) : Rust T _)
        (Ends D h s vm.skel vm.stack fun vm' => (∃ v S', At vm.skel (v :: S') vm' ∧
          vm.stack <:+ S' ∧ (s.popsAfter = true → S' = vm.stack)) ∨ Pushed vm.skel vm.stack vm')
        (vm.pushAll (receiver :: args).reverse) := ends_call hG rfl (truncate_pushAll _) hWindow
    refine wp_mono hCall ?_
    rintro (e | status) vm₁ hEnd
    · -- an error: a fault takes the window off, a `^^` has cut the stack itself
      obtain ⟨hb, hCalm⟩ := hEnd
      cases e with
      | nonLocalReturn => exact ⟨hb, hCalm⟩
      | fault f => exact ⟨broke_truncate hb hG (Nat.le_refl _), calm_truncate hs hCalm⟩
    · rw [ends_ok, ends_ok, wp_bind, wp_look, ends_ok]
      -- a value: no frame was left, or the frame of the method is still to run
      rcases hEnd with ⟨v, S', hAt, hSuffix, -⟩ | hPushed
      · have hSame : ¬ vm.frames.length < vm₁.frames.length := by
          have hCount := length_of_eq hAt.1
          rw [VmState.length_skel] at hCount
          omega
        rw [if_neg hSame, wp_bind, wp_pop_cons hAt.2, ends_ok, wp_bind, wp_update, ends_ok]
        refine meets_of_at ⟨hAt.1, ?_⟩
        show S'.drop (S'.length - vm.stack.length) = vm.stack
        exact drop_of_suffix hSuffix
      · have hMore : vm.frames.length < vm₁.frames.length := by
          obtain ⟨g, hSkel, -⟩ := hPushed
          have hCount := length_of_eq hSkel
          rw [List.length_cons, VmState.length_skel] at hCount
          omega
        rw [if_pos hMore, ← VmState.length_skel]
        exact ends_weaken (fun _ hEnd => meets_of_at hEnd.1) (ends_pushed hG hPushed)
  · exact ends_callFound hG hAt

theorem ends_outcall {receiver : T.V} {selector : String} {args : List T.V}
    (hG : Grounded K S) (hAt : At K S vm) :
    wp (discipline D h) (outcall h s receiver selector args) (Ends D h s K S (Meets s K S)) vm := by
  unfold outcall
  rw [wp_bind, wp_update, ends_ok, wp_ensuring]
  refine wp_mono (?_ : wp (discipline D h) _ (Ends D h s K S (Meets s K S)) _) ?_
  · refine ends_then (ends_lookupMethod hs hG hAt) fun c vm' hAt' => ?_
    cases c with
    | some c => exact ends_outcallFound hs hG hAt'
    | none => exact ends_look (ends_fail hs (over_of_at hAt'))
  · rintro (e | v) vm' hEnd
    · exact ⟨broke_congr hEnd.1 rfl rfl rfl, calm_congr hEnd.2 ⟨rfl, rfl, rfl⟩ rfl rfl⟩
    · exact hEnd

theorem ends_reenter {a : Reentry T} (hG : Grounded K S) (hAt : At K S vm) :
    wp (discipline D h) (reenter h s a) (Ends D h s K S (Over K S)) vm := by
  cases a with
  | executeBlock b args self =>
    exact ends_weaken (fun _ hEnd => over_of_at hEnd.1)
      (ends_executeBlock (fun _ => begins_of_plain hs) hG hAt)
  | callMethod receiver selector args =>
    exact ends_weaken (fun _ hEnd => over_of_meets hEnd) (ends_callMethod hs hG hAt)
  | outcall receiver selector args =>
    exact ends_weaken (fun _ hEnd => over_of_meets hEnd) (ends_outcall hs hG hAt)

end

/-! ## Initializers and deferred calls -/

theorem at_of_meets (hs : s.popsAfter = true) (hm : Meets s K S vm) : At K S vm :=
  ⟨hm.1, hm.2.2 hs⟩

theorem plain_of_popsAfter (hs : s.popsAfter = true) : s.isCleanup = false := by
  cases s with
  | cleanup low after target operands => contradiction
  | _ => rfl

theorem ends_runInits {obj : T.V} (inits : List (Init T)) (hs : s.popsAfter = true)
    (hG : Grounded K S) : ∀ {vm : VmState T}, At K S vm →
    wp (discipline D h) (runInits h s obj inits) (Ends D h s K S (At K S)) vm := by
  induction inits with
  | nil =>
    intro vm hAt
    exact hAt
  | cons i inits ih =>
    intro vm hAt
    refine ends_look (ends_then (ends_callMethodValue (plain_of_popsAfter hs) hG hAt) ?_)
    exact fun _ vm' hm => ih (at_of_meets hs hm)

theorem ends_finalizeInstantiation {obj : T.V} {env : Option T.Env} (hs : s.popsAfter = true)
    (hG : Grounded K S) (hAt : At K S vm) :
    wp (discipline D h) (finalizeInstantiation h s obj env) (Ends D h s K S (At K S)) vm := by
  unfold finalizeInstantiation
  rw [wp_bind, wp_act, ends_ok]
  exact ends_runInits _ hs hG hAt

/-- The value the frame returns, with the operands as they were. -/
theorem wp_consumePoppedFrame {f : Frame T} {ret : T.V} (hs : s.popsAfter = true)
    (hG : Grounded K S) (hAt : At K S vm) :
    wp (discipline D h) (consumePoppedFrame h s f ret)
      (ends (fun v vm' => v = f.returns ret ∧ At K S vm') fun e vm' =>
        Broke D K S e vm' ∧ Calm h s K e vm') vm := by
  have hReturns (obj : Option T.V) (hObj : f.instantiatingObj = obj) :
      f.returns ret = obj.getD (if f.returnReceiver then f.receiver.getD ret else ret) := by
    subst hObj
    unfold Frame.returns
    split <;> simp_all
  unfold consumePoppedFrame
  split
  · rename_i obj hObj
    rw [wp_bind, wp_update, ends_ok]
    have hTop : At K (obj :: S) (vm.push obj) := ⟨hAt.1, congrArg _ hAt.2⟩
    refine wp_seq (ends_finalizeInstantiation hs (hG.mono (List.suffix_cons obj S)) hTop) ?_ ?_
    · rintro - vm' ⟨hK, hStack⟩
      exact (wp_pop_cons hStack).mpr ⟨(hReturns _ hObj).symm, hK, rfl⟩
    · intro e vm' he
      exact ⟨he.1.mono (List.suffix_cons obj S), he.2⟩
  · rename_i hObj
    exact ⟨(hReturns _ hObj).symm, hAt⟩

theorem ends_runDefers (defers : List (DeferredCall T)) (hG : Grounded K S) :
    ∀ {vm : VmState T}, At K S vm →
    wp (discipline D h) (runDefers h defers) (Ends D h .defer K S (At K S)) vm := by
  induction defers with
  | nil =>
    intro vm hAt
    exact hAt
  | cons d defers ih =>
    intro vm hAt
    refine ends_then (ends_callMethod rfl hG hAt) fun _ vm' hm => ?_
    exact ih (at_of_meets rfl hm)

theorem wp_runFrameDefers {f : Frame T} (hG : Grounded K S) (hAt : At K S vm) :
    wp (discipline D h) (runFrameDefers h f) (ends (fun _ vm' => At K S vm') (Broke D K S)) vm := by
  unfold runFrameDefers
  rw [wp_onError]
  refine wp_mono (ends_runDefers _ hG hAt) ?_
  rintro (e | a) vm' hEnd
  · cases f.unregisterOnDeferFailure <;> exact broke_congr hEnd.1 rfl rfl rfl
  · exact hEnd

end Quoin.Control
