import Mathlib
import Quoin.Control.Machine

/-!
# Quoin — what Rust code does to the frames

A Rust function called over some frames gives them back when it succeeds. When it
fails with a fault it may leave frames above them, or, further up a `^^`, have lost
some of them; when it fails with a `^^` in flight it has lost those the `^^` has
popped, and has left none, except where the `^^` is on its way to a compiled method,
which nested runs pass on without looking at the frames. Nested runs are asked for
under the same contract (`contract`), so each function is proved to keep it from
what it asks.

A run *strays* where code goes on over frames that are not those it was called
over: a `catch:` catches an error with some of them popped, which is a `^^`; native
code looks at an error that has left frames, or lost some; a `finally` block, or an
initializer, fails that runs while a `^^` goes by, and leaves frames; a compiled
method, or the driver, is handed a `^^` that has come to a compiled home, and the
frames are not those of the home.

## Results

* `ran_reenter` — every way of re-entering the VM keeps the contract of its site;
* `ran_consumePoppedFrame`, `kept_runFrameDefers` — so does what the end of a frame runs.
-/

namespace Quoin.Control

open Trans Resumable

variable {T : Sig} {α β : Type}

/-! ## Straying -/

def Request.site : Request T → Site T
  | .nested site .. | .call site .. => site
  | .unwind .. => .call

/-- Code that waits at a site for a run over a number of frames is handed an error, and goes on
over others. -/
def Site.Strays (h : Host T) (site : Site T) (frames : Nat) (e : QuoinError T) (vm : VmState T) :
    Prop :=
  match site with
  | .catching handlers _ =>
    vm.frames.length < frames ∧ e.offered vm ∧
      (firstMatching h (h.exceptionValue e vm.world).1 handlers
        (h.exceptionValue e vm.world).2).isSome
  | .examined => vm.frames.length ≠ frames
  | .cleanup true .. | .unwindingInit => frames < vm.frames.length
  -- the source asserts, in debug builds, that the stack is that of the home
  | .compiled (some (id, _)) =>
    e = .nonLocalReturn ∧ vm.nlrTarget = some id ∧ vm.frames.length ≠ frames
  | _ => False

/-- The next step of the run strays. The driver has no compiled home below it, and in debug builds
the source asserts that it never meets a `^^` on its way to one. -/
def Config.Strays (h : Host T) (c : Config T) : Prop :=
  (∃ e q frames k rest, c.mode = .returning (.error e) ∧
    c.activations = .waiting q frames k :: rest ∧ q.site.Strays h frames e c.vm) ∨
  c.mode = .returning (.error .nonLocalReturn) ∧ c.activations = [] ∧ c.vm.nlrTarget.isSome

/-! ## The contract -/

/-- A frame, but for the calls queued on it. -/
def Frame.core (f : Frame T) : Frame T := { f with defers := [] }

namespace VmState

/-- The frames, but for the calls queued on them. -/
def skel (vm : VmState T) : List (Frame T) := vm.frames.map Frame.core

end VmState

/-- The frames a function called over `K` leaves with an error. -/
def Fell (K : List (Frame T)) : QuoinError T → VmState T → Prop
  | .nonLocalReturn, vm => vm.skel <:+ K ∨ (vm.nlrTarget.isSome ∧ K <:+ vm.skel)
  | .fault _, vm => K <:+ vm.skel ∨ vm.skel <:+ K

/-- The frames a function called over `K` leaves. -/
abbrev Kept (K : List (Frame T)) : Except (QuoinError T) α → VmState T → Prop :=
  ends (fun _ vm => vm.skel = K) (Fell K)

/-- The frames a call leaves, which may have pushed one. -/
abbrev Called (K : List (Frame T)) : Except (QuoinError T) α → VmState T → Prop :=
  ends (fun _ vm => vm.skel = K ∨ ∃ g, vm.skel = g :: K) (Fell K)

/-- The frames the unwinding loop leaves: what is left of `K`. -/
abbrev Unwound (K : List (Frame T)) : Except (QuoinError T) α → VmState T → Prop :=
  ends (fun _ _ => False) fun _ vm => vm.skel <:+ K

/-- The number of frames below what is asked for. -/
def Request.frames (vm : VmState T) : Request T → Nat
  | .nested _ n _ => n
  | _ => vm.frames.length

/-- The frames what is asked for leaves. -/
def Request.Leaves (q : Request T) (vm : VmState T) : Result T → VmState T → Prop :=
  match q with
  | .nested _ n _ => Kept ((vm.below n).map Frame.core)
  | .call .. => Called vm.skel
  | .unwind .. => Unwound vm.skel

/-- Nested runs, calls and unwinding keep to the frames they are asked for over, and do not
stray. -/
def contract (h : Host T) : Contract (Request T) (Result T) (VmState T) where
  fit q vm := q.frames vm ≤ vm.frames.length
  rely q vm r vm' := q.Leaves vm r vm' ∧ ∀ e, r = .error e → ¬ q.site.Strays h (q.frames vm) e vm'

variable {h : Host T} {K : List (Frame T)} {vm vm' : VmState T} {s : Site T}

/-! ## The frames as a list -/

@[simp] theorem VmState.length_skel : vm.skel.length = vm.frames.length := List.length_map _

theorem skel_cons {f : Frame T} {frames : List (Frame T)} (hFrames : vm.frames = f :: frames) :
    vm.skel = f.core :: frames.map Frame.core := by
  rw [VmState.skel, hFrames, List.map_cons]

theorem VmState.below_skel (n : Nat) :
    (vm.below n).map Frame.core = vm.skel.drop (vm.skel.length - n) := by
  simp [VmState.below, VmState.skel, List.map_drop]

theorem drop_of_suffix {K L : List α} (hs : K <:+ L) : L.drop (L.length - K.length) = K := by
  obtain ⟨t, rfl⟩ := hs
  simp

/-- Unwinding to the frames of `K` gets them back, unless some are gone. -/
theorem VmState.unwind_skel (K : List (Frame T)) (hf : K <:+ vm.skel ∨ vm.skel <:+ K) :
    (vm.unwind K.length).skel = K ∨ (vm.unwind K.length).skel = vm.skel ∧ vm.skel <:+ K ∧
      vm.skel.length < K.length := by
  have hUnwind : (vm.unwind K.length).skel = vm.skel.drop (vm.skel.length - K.length) :=
    below_skel K.length
  rw [hUnwind]
  rcases hf with hf | hf
  · exact .inl (drop_of_suffix hf)
  · rcases Nat.lt_or_ge vm.skel.length K.length with hlt | hge
    · rw [Nat.sub_eq_zero_of_le (by omega)]
      exact .inr ⟨List.drop_zero, hf, hlt⟩
    · have hEq : vm.skel = K := hf.eq_of_length (by have := hf.length_le; omega)
      rw [hEq]
      simp

/-- What is looked at of the VM, besides the frames, where code is handed an error. -/
structure Matching (vm vm' : VmState T) : Prop where
  frames : vm'.frames = vm.frames
  world : vm'.world = vm.world
  nlrTarget : vm'.nlrTarget = vm.nlrTarget

theorem offered_congr {e : QuoinError T} (hSame : vm'.nlrTarget = vm.nlrTarget) :
    e.offered vm' = e.offered vm := by
  unfold QuoinError.offered
  rw [hSame]

theorem strays_congr {frames : Nat} {e : QuoinError T} (hSame : Matching vm vm') :
    s.Strays h frames e vm' ↔ s.Strays h frames e vm := by
  unfold Site.Strays
  rw [offered_congr hSame.nlrTarget, hSame.frames, hSame.world, hSame.nlrTarget]

theorem Matching.skel (hSame : Matching vm vm') : vm'.skel = vm.skel := by
  rw [VmState.skel, VmState.skel, hSame.frames]

theorem strays_atDepth {frames depth : Nat} {e : QuoinError T} :
    s.Strays h frames e (vm.atDepth depth) ↔ s.Strays h frames e vm := strays_congr ⟨rfl, rfl, rfl⟩

/-- However a function has failed, the frames there are now and those it was called over go back to
common ones. -/
theorem Fell.or {e : QuoinError T} (hf : Fell K e vm) : K <:+ vm.skel ∨ vm.skel <:+ K := by
  cases e with
  | nonLocalReturn => exact hf.elim .inr fun hHome => .inl hHome.2
  | fault f => exact hf

theorem Fell.of_suffix {e : QuoinError T} (hSuffix : vm.skel <:+ K) : Fell K e vm := by
  cases e with
  | nonLocalReturn => exact .inl hSuffix
  | fault f => exact .inr hSuffix

/-- How a function fell is seen on the frames, and on the way a `^^` goes. -/
theorem fell_congr {e : QuoinError T} (hf : Fell K e vm) (hSame : vm'.skel = vm.skel)
    (hTarget : vm'.nlrTarget = vm.nlrTarget) : Fell K e vm' := by
  cases e with
  | nonLocalReturn =>
    show vm'.skel <:+ K ∨ (vm'.nlrTarget.isSome ∧ K <:+ vm'.skel)
    rw [hSame, hTarget]
    exact hf
  | fault f =>
    show K <:+ vm'.skel ∨ vm'.skel <:+ K
    rw [hSame]
    exact hf

/-! ## Running from a site -/

/-- An error handed to a site without straying. -/
def Spared (h : Host T) (s : Site T) (K : List (Frame T)) (e : QuoinError T) (vm : VmState T) :
    Prop :=
  match s with
  | .cleanup true .. | .unwindingInit => vm.skel <:+ K
  | s => ¬ s.Strays h K.length e vm

/-- What a run asked for at a site leaves. -/
abbrev Ran (h : Host T) (s : Site T) (K : List (Frame T)) :
    Except (QuoinError T) α → VmState T → Prop :=
  ends (fun _ vm => vm.skel = K) fun e vm => Fell K e vm ∧ Spared h s K e vm

theorem fell_of_eq {e : QuoinError T} (hK : vm.skel = K) : Fell K e vm :=
  .of_suffix (hK ▸ List.suffix_refl _)

theorem length_of_eq (hK : vm.skel = K) : vm.frames.length = K.length := by
  rw [← hK, VmState.length_skel]

theorem spared_of_eq {e : QuoinError T} (hK : vm.skel = K) : Spared h s K e vm := by
  have hSuffix : vm.skel <:+ K := hK ▸ List.suffix_refl _
  have hCount := length_of_eq hK
  unfold Spared
  split
  · exact hSuffix
  · exact hSuffix
  · unfold Site.Strays
    split
    · rintro ⟨hLow, -⟩
      omega
    · exact not_not.mpr hCount
    · omega
    · omega
    · exact fun hHome => hHome.2.2 hCount
    · exact id

theorem spared_of_not_strays {e : QuoinError T} (hf : Fell K e vm)
    (hs : ¬ s.Strays h K.length e vm) : Spared h s K e vm := by
  have hSuffix (hCount : ¬ K.length < vm.frames.length) : vm.skel <:+ K := by
    rcases hf.or with hf | hf
    · have hEq : K = vm.skel :=
        hf.eq_of_length (by have := hf.length_le; rw [VmState.length_skel] at *; omega)
      exact hEq ▸ List.suffix_refl _
    · exact hf
  unfold Spared
  split
  · exact hSuffix hs
  · exact hSuffix hs
  · exact hs

theorem spared_congr {e : QuoinError T} (hs : Spared h s K e vm) (hSame : Matching vm vm') :
    Spared h s K e vm' := by
  have hLost (hs : vm.skel <:+ K) : vm'.skel <:+ K := hSame.skel ▸ hs
  cases s with
  | cleanup low after target operands =>
    cases low with
    | true => exact hLost hs
    | false => exact mt (strays_congr hSame).mp hs
  | unwindingInit => exact hLost hs
  | _ => exact mt (strays_congr hSame).mp hs

theorem ran_congr {r : Except (QuoinError T) α} (hr : Ran h s K r vm) (hSame : Matching vm vm') :
    Ran h s K r vm' := by
  cases r with
  | ok a => exact hSame.skel.trans hr
  | error e =>
    exact ⟨fell_congr hr.1 hSame.skel hSame.nlrTarget, spared_congr hr.2 hSame⟩

theorem ran_of_eq {f : Fault T} (hK : vm.skel = K) :
    Ran (α := α) h s K (.error (.fault f)) vm := ⟨fell_of_eq hK, spared_of_eq hK⟩

/-- One program after another, the first leaving the frames as they were. -/
theorem ran_bind {x : Rust T α} {f : α → Rust T β} (hx : wp (contract h) x (Ran h s K) vm)
    (hf : ∀ a vm', vm'.skel = K → wp (contract h) (f a) (Ran h s K) vm') :
    wp (contract h) (x >>= f) (Ran h s K) vm := wp_seq hx hf fun _ _ he => he

theorem kept_bind {x : Rust T α} {f : α → Rust T β} (hx : wp (contract h) x (Kept K) vm)
    (hf : ∀ a vm', vm'.skel = K → wp (contract h) (f a) (Kept K) vm') :
    wp (contract h) (x >>= f) (Kept K) vm := wp_seq hx hf fun _ _ he => he

theorem kept_of_ran {x : Rust T α} (hx : wp (contract h) x (Ran h s K) vm) :
    wp (contract h) x (Kept K) vm := by
  refine wp_mono hx ?_
  rintro (e | a) vm' hEnd
  · exact hEnd.1
  · exact hEnd

theorem wp_pop {c : Contract (Request T) (Result T) (VmState T)}
    {post : Except (QuoinError T) T.V → VmState T → Prop}
    (hok : ∀ v stack, vm.stack = v :: stack → post (.ok v) { vm with stack })
    (herror : vm.stack = [] → post (.error (.fault (.other (h.message "Stack underflow")))) vm) :
    wp c (pop h) post vm := by
  unfold pop
  simp only [wp_bind, wp_look, ends_ok]
  split
  · rename_i v stack hStack
    simpa using hok v stack hStack
  · rename_i hStack
    exact herror hStack

theorem ran_pop (hK : vm.skel = K) : wp (contract h) (pop h) (Ran h s K) vm :=
  wp_pop (fun _ _ _ => hK) fun _ => ran_of_eq hK

theorem ran_popN (n : Nat) : ∀ {vm : VmState T}, vm.skel = K →
    wp (contract h) (popN h n) (Ran h s K) vm := by
  induction n with
  | zero =>
    intro vm hK
    exact hK
  | succ n ih =>
    intro vm hK
    refine ran_bind (ran_pop hK) fun v vm' hK' => ?_
    exact ran_bind (ih hK') fun vs vm'' hK'' => hK''

/-! ## Nested runs and calls -/

theorem ran_ask_nested {context : String} {n : Nat} (hn : n ≤ vm.frames.length)
    (hBelow : (vm.below n).map Frame.core = K) :
    wp (contract h) (ask (.nested s n context)) (Ran h s K) vm := by
  have hCount : n = K.length := by
    rw [← hBelow, VmState.below_skel, List.length_drop, VmState.length_skel]
    omega
  refine wp_ask.mpr ⟨hn, ?_⟩
  intro r vm' hRely
  obtain ⟨hLeaves, hNot⟩ := hRely
  have hKept : Kept K r vm' := hBelow ▸ hLeaves
  cases r with
  | ok _ => exact hKept
  | error e =>
    have hNot' : ¬ s.Strays h K.length e vm' := hCount ▸ hNot e rfl
    exact ⟨hKept, spared_of_not_strays hKept hNot'⟩

/-- A nested run of the frame just pushed, or of nothing. -/
theorem ran_runNested {context : String} (hK : vm.skel = K ∨ ∃ g, vm.skel = g :: K) :
    wp (contract h) (runNested s K.length context) (Ran h s K) vm := by
  have hSuffix : K <:+ vm.skel := by
    rcases hK with hK | ⟨g, hK⟩
    · exact hK ▸ List.suffix_refl _
    · exact hK ▸ List.suffix_cons g K
  have hCount : K.length ≤ vm.frames.length := by
    have := hSuffix.length_le
    rwa [VmState.length_skel] at this
  have hBelow : (vm.below K.length).map Frame.core = K := by
    rw [VmState.below_skel]
    exact drop_of_suffix hSuffix
  exact ran_bind (ran_ask_nested hCount hBelow) fun _ vm' hK' => hK'

/-- A frame pushed, run, and its value taken. -/
theorem ran_pushed {f : VmState T → VmState T} {context : String} {n : Nat}
    (hK : vm.skel = K) (hn : n = K.length) (hf : ∃ g, (f vm).skel = g :: vm.skel) :
    wp (contract h) (do
      update f
      runNested s n context
      pop h) (Ran h s K) vm := by
  obtain ⟨g, hg⟩ := hf
  rw [hn]
  rw [wp_bind, wp_update, ends_ok]
  refine ran_bind (ran_runNested (.inr ⟨g, hg.trans (congrArg _ hK)⟩)) fun _ vm' hK' => ?_
  exact ran_pop hK'

theorem ran_update {f : VmState T → VmState T} (hf : (f vm).skel = K) :
    wp (contract h) (update f) (Ran h s K) vm := hf

theorem ran_fail {f : Fault T} (hK : vm.skel = K) :
    wp (α := α) (contract h) (fail (.fault f)) (Ran h s K) vm :=
  ⟨fell_of_eq hK, spared_of_eq hK⟩

theorem ran_ensure {ok : Bool} {f : Fault T} (hK : vm.skel = K) :
    wp (contract h) (ensure ok f) (Ran h s K) vm := by
  unfold ensure
  split
  · exact hK
  · exact ran_fail hK

theorem ran_look {f : VmState T → Rust T α} (hf : wp (contract h) (f vm) (Ran h s K) vm) :
    wp (contract h) (look >>= f) (Ran h s K) vm := by
  rw [wp_bind]
  exact hf

theorem ran_executeBlock {b : Block T} {args : List T.V} {self : Option T.V} (hK : vm.skel = K) :
    wp (contract h) (executeBlock h s b args self) (Ran h s K) vm := by
  refine ran_bind (ran_look (ran_ensure hK)) fun _ vm' hK' => ran_look ?_
  have hCount := length_of_eq hK'
  refine ran_pushed hK' hCount ?_
  cases self <;> exact ⟨_, rfl⟩

theorem ran_executeValidationBlock {b : Block T} {receiver : T.V} {env : T.Env}
    (hK : vm.skel = K) :
    wp (contract h) (executeValidationBlock h s b receiver env) (Ran h s K) vm := by
  have hCount := length_of_eq hK
  exact ran_look (ran_pushed hK hCount ⟨_, rfl⟩)

theorem ran_runLookup (l : Lookup T) : ∀ {vm : VmState T}, vm.skel = K →
    wp (contract h) (runLookup h s l) (Ran h s K) vm := by
  induction l with
  | found c w =>
    intro vm hK
    exact ran_bind (ran_update hK) fun _ vm' hK' => hK'
  | fail f w =>
    intro vm hK
    exact ran_bind (ran_update hK) fun _ vm' hK' => ran_fail hK'
  | guard b receiver env w k ih =>
    intro vm hK
    refine ran_bind (ran_update hK) fun _ vm' hK' => ?_
    refine ran_bind (ran_executeValidationBlock hK') fun v vm'' hK'' => ran_look ?_
    exact ih v _ hK''

theorem ran_lookupMethod {receiver : T.V} {selector : String} {args : List T.V}
    (hK : vm.skel = K) :
    wp (contract h) (lookupMethod h s receiver selector args) (Ran h s K) vm :=
  ran_look (ran_runLookup _ hK)

theorem ran_reentering {x : Rust T α}
    (hx : ∀ vm' : VmState T, vm'.skel = K → wp (contract h) x (Ran h s K) vm')
    (hK : vm.skel = K) : wp (contract h) (reentering h x) (Ran h s K) vm := by
  have hEnter : wp (contract h) (enterNativeReentry h) (Ran h s K) vm :=
    ran_look (ran_bind (ran_ensure hK) fun _ vm' hK' => ran_update hK')
  refine ran_bind hEnter fun _ vm' hK' => ?_
  rw [wp_ensuring]
  exact wp_mono (hx vm' hK') fun r vm'' hEnd => ran_congr hEnd ⟨rfl, rfl, rfl⟩

/-- A call that is asked for. -/
theorem ran_ask_call {receiver : T.V} {args : List T.V} {c : Callable T} {window : Option Nat}
    (hK : vm.skel = K) :
    wp (contract h) (ask (.call s c receiver args window) : Rust T _)
      (ends (fun _ vm' => vm'.skel = K ∨ ∃ g, vm'.skel = g :: K) fun e vm' =>
        Fell K e vm' ∧ Spared h s K e vm') vm := by
  refine wp_ask.mpr ⟨Nat.le_refl _, ?_⟩
  intro r vm' hRely
  obtain ⟨hLeaves, hNot⟩ := hRely
  have hCalled : Called K r vm' := hK ▸ hLeaves
  cases r with
  | ok _ => exact hCalled
  | error e =>
    have hNot' : ¬ s.Strays h K.length e vm' := length_of_eq hK ▸ hNot e rfl
    exact ⟨hCalled, spared_of_not_strays hCalled hNot'⟩

theorem ran_callFound {receiver : T.V} {args : List T.V} {c : Option (Callable T)}
    (hK : vm.skel = K) :
    wp (contract h) (callFound h s receiver args c) (Ran h s K) vm := by
  cases c with
  | none => exact hK
  | some c =>
    refine ran_look (wp_seq (ran_ask_call hK) ?_ fun _ _ he => he)
    intro _ vm' hPushed
    rw [length_of_eq hK]
    exact ran_bind (ran_runNested hPushed) fun _ vm'' hK' => ran_pop hK'

theorem ran_outcallFound {receiver : T.V} {args : List T.V} {c : Callable T} (hK : vm.skel = K) :
    wp (contract h) (outcallFound h s receiver args c) (Ran h s K) vm := by
  unfold outcallFound
  split
  · refine ran_look (ran_bind (ran_update hK) fun _ vm₁ hK₁ => ?_)
    rw [wp_bind, wp_onError]
    refine wp_mono (ran_ask_call hK₁) ?_
    rintro (e | a) vm₂ hEnd
    · rw [ends_error]
      cases e with
      | nonLocalReturn => exact hEnd
      | fault f => exact ran_congr (α := T.V) (r := .error (.fault f)) hEnd ⟨rfl, rfl, rfl⟩
    · rw [ends_ok, ends_ok]
      have hPushed : vm₂.skel = K ∨ ∃ g, vm₂.skel = g :: K := hEnd
      refine ran_look ?_
      rw [length_of_eq hK]
      split
      · exact ran_bind (ran_runNested hPushed) fun _ vm₃ hK₃ => ran_pop hK₃
      · rename_i hNone
        have hK₂ : vm₂.skel = K := by
          refine hPushed.resolve_right ?_
          rintro ⟨g, hg⟩
          exact hNone (by rw [length_of_eq hg, List.length_cons]; exact Nat.lt_succ_self _)
        refine ran_bind (ran_pop hK₂) fun v vm₃ hK₃ => ?_
        exact ran_bind (ran_update hK₃) fun _ vm₄ hK₄ => hK₄
  · exact ran_callFound hK

theorem ran_outcall {receiver : T.V} {selector : String} {args : List T.V} (hK : vm.skel = K) :
    wp (contract h) (outcall h s receiver selector args) (Ran h s K) vm := by
  refine ran_bind (ran_update hK) fun _ vm' hK' => ?_
  rw [wp_ensuring]
  refine wp_mono (?_ : wp (contract h) _ (Ran h s K) _) fun r vm'' hEnd =>
    ran_congr hEnd ⟨rfl, rfl, rfl⟩
  refine ran_bind (ran_lookupMethod hK') fun c vm'' hK'' => ?_
  cases c with
  | some c => exact ran_outcallFound hK''
  | none => exact ran_look (ran_fail hK'')

theorem ran_callMethod {receiver : T.V} {selector : String} {args : List T.V}
    (hK : vm.skel = K) :
    wp (contract h) (callMethod h s receiver selector args) (Ran h s K) vm :=
  ran_reentering (fun _ hK' => ran_bind (ran_lookupMethod hK') fun _ _ hK'' => ran_callFound hK'')
    hK

theorem ran_callMethodValue {receiver : T.V} {method : Option (Callable T)} {args : List T.V}
    (hK : vm.skel = K) :
    wp (contract h) (callMethodValue h s receiver method args) (Ran h s K) vm :=
  ran_reentering (fun _ hK' => ran_callFound hK') hK

theorem ran_reenter {a : Reentry T} (hK : vm.skel = K) :
    wp (contract h) (reenter h s a) (Ran h s K) vm := by
  cases a with
  | executeBlock b args self => exact ran_executeBlock hK
  | callMethod receiver selector args => exact ran_callMethod hK
  | outcall receiver selector args => exact ran_outcall hK

/-! ## Consuming frames -/

theorem ran_runInits {obj : T.V} (inits : List (Init T)) : ∀ {vm : VmState T}, vm.skel = K →
    wp (contract h) (runInits h s obj inits) (Ran h s K) vm := by
  induction inits with
  | nil =>
    intro vm hK
    exact hK
  | cons i inits ih =>
    intro vm hK
    exact ran_look (ran_bind (ran_callMethodValue hK) fun _ vm' hK' => ih hK')

theorem ran_finalizeInstantiation {obj : T.V} {env : Option T.Env} (hK : vm.skel = K) :
    wp (contract h) (finalizeInstantiation h s obj env) (Ran h s K) vm := by
  unfold finalizeInstantiation
  rw [wp_bind, wp_act, ends_ok]
  exact ran_runInits _ hK

theorem ran_consumePoppedFrame {f : Frame T} {ret : T.V} (hK : vm.skel = K) :
    wp (contract h) (consumePoppedFrame h s f ret) (Ran h s K) vm := by
  unfold consumePoppedFrame
  split
  · refine ran_bind (ran_update hK) fun _ vm' hK' => ?_
    exact ran_bind (ran_finalizeInstantiation hK') fun _ vm'' hK'' => ran_pop hK''
  · exact hK

theorem ran_runDefers (defers : List (DeferredCall T)) : ∀ {vm : VmState T}, vm.skel = K →
    wp (contract h) (runDefers h defers) (Ran h .defer K) vm := by
  induction defers with
  | nil =>
    intro vm hK
    exact hK
  | cons d defers ih =>
    intro vm hK
    exact ran_bind (ran_callMethod hK) fun _ vm' hK' => ih hK'

theorem kept_runFrameDefers {f : Frame T} (hK : vm.skel = K) :
    wp (contract h) (runFrameDefers h f) (Kept K) vm := by
  unfold runFrameDefers
  rw [wp_onError]
  refine wp_mono (ran_runDefers _ hK) ?_
  rintro (e | a) vm' hEnd
  · refine fell_congr hEnd.1 ?_ ?_ <;> cases f.unregisterOnDeferFailure <;> rfl
  · exact hEnd

end Quoin.Control
