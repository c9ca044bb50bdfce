import Quoin.Fibers.Contexts

/-!
# Quoin — how deep a coroutine is nested

`native_reentry_depth` moves with a task and stays where a fiber switch leaves it.
So it is what the running coroutine is nested as long as each fiber switch goes
between coroutines that are nested alike, and no longer (`native_reentry_exact`).

`view` is what a task has, live or stashed; a task switch changes no task's view.

## Results

* `native_reentry_exact` — in a run the depth is that of the running coroutine in every state
  exactly if each fiber switch goes between coroutines that are nested alike;
* `native_reentry_leaks` — a fiber that is resumed within a native call and yields outside of it.
-/

namespace Quoin.Fibers

open VmState

variable {B C : Type} {s s' : VmState B C} {tid f : Nat} {who : Option Nat}

/-! ## Fibers and tasks of a state -/

namespace VmState

def fiberNested (s : VmState B C) (f : Nat) : Nat :=
  (s.fibers[f]?.map NativeFiberState.nested).getD 0

def owner? (s : VmState B C) (f : Nat) : Option Nat := (s.fibers[f]?.map NativeFiberState.owner).join

def rootNested (s : VmState B C) (tid : Nat) : Nat := ((s.task? tid).map Task.nested).getD 0

@[simp] theorem nestedAt_none : s.nestedAt tid none = s.rootNested tid := rfl

@[simp] theorem nestedAt_some : s.nestedAt tid (some f) = s.fiberNested f := rfl

/-- A switch of fibers: the tasks are as they were, and so is the depth, and no coroutine has
gained or lost an activation. -/
structure Switched (s s' : VmState B C) : Prop where
  tasks : s'.tasks = s.tasks
  currentTask : s'.currentTask = s.currentTask
  loaded : s'.loaded = s.loaded
  depth : s'.nativeReentryDepth = s.nativeReentryDepth
  nested : ∀ f, s'.fiberNested f = s.fiberNested f

theorem Switched.refl : Switched s s := ⟨rfl, rfl, rfl, rfl, fun _ => rfl⟩

theorem Switched.trans {s'' : VmState B C} (h : Switched s s') (h' : Switched s' s'') :
    Switched s s'' where
  tasks := h'.tasks.trans h.tasks
  currentTask := h'.currentTask.trans h.currentTask
  loaded := h'.loaded.trans h.loaded
  depth := h'.depth.trans h.depth
  nested f := (h'.nested f).trans (h.nested f)

theorem Switched.task? (h : Switched s s') : s'.task? tid = s.task? tid := by
  unfold VmState.task?
  rw [h.tasks]

theorem Switched.nestedAt (h : Switched s s') : s'.nestedAt tid who = s.nestedAt tid who := by
  cases who with
  | none => rw [nestedAt_none, nestedAt_none, rootNested, rootNested, h.task?]
  | some f => exact h.nested f

/-- A change of fibers that leaves which one runs, and whose they are. -/
structure Quiet (s s' : VmState B C) : Prop extends Switched s s' where
  currentFiber : s'.currentFiber = s.currentFiber
  resumeStack : s'.resumeStack = s.resumeStack
  owner? : ∀ f, s'.owner? f = s.owner? f
  length : s'.fibers.length = s.fibers.length

theorem Quiet.refl : Quiet s s := ⟨.refl, rfl, rfl, fun _ => rfl, rfl⟩

theorem Quiet.trans {s'' : VmState B C} (h : Quiet s s') (h' : Quiet s' s'') : Quiet s s'' where
  toSwitched := h.toSwitched.trans h'.toSwitched
  currentFiber := h'.currentFiber.trans h.currentFiber
  resumeStack := h'.resumeStack.trans h.resumeStack
  owner? f := (h'.owner? f).trans (h.owner? f)
  length := h'.length.trans h.length

theorem quiet_context (context : C) : Quiet s { s with context } :=
  ⟨⟨rfl, rfl, rfl, rfl, fun _ => rfl⟩, rfl, rfl, fun _ => rfl, rfl⟩

section ModifyFiber

variable {g : NativeFiberState B C → NativeFiberState B C}

theorem fiberNested_modifyFiber (hg : ∀ st, (g st).nested = st.nested) {f' : Nat} :
    (s.modifyFiber f g).fiberNested f' = s.fiberNested f' := by
  unfold fiberNested modifyFiber
  rw [List.getElem?_modify]
  cases s.fibers[f']? with
  | none => rfl
  | some st =>
    by_cases hf : f = f'
    · simp [hf, hg]
    · simp [hf]

theorem owner?_modifyFiber (hg : ∀ st, (g st).owner = st.owner) {f' : Nat} :
    (s.modifyFiber f g).owner? f' = s.owner? f' := by
  unfold VmState.owner? modifyFiber
  rw [List.getElem?_modify]
  cases s.fibers[f']? with
  | none => rfl
  | some st =>
    by_cases hf : f = f'
    · simp [hf, hg]
    · simp [hf]

theorem switched_modifyFiber (hg : ∀ st, (g st).nested = st.nested) :
    Switched s (s.modifyFiber f g) :=
  ⟨rfl, rfl, rfl, rfl, fun _ => fiberNested_modifyFiber hg⟩

theorem quiet_modifyFiber (hNested : ∀ st, (g st).nested = st.nested)
    (hOwner : ∀ st, (g st).owner = st.owner) : Quiet s (s.modifyFiber f g) :=
  ⟨switched_modifyFiber hNested, rfl, rfl, fun _ => owner?_modifyFiber hOwner,
    List.length_modify ..⟩

end ModifyFiber

theorem quiet_setFiberStatus {status : FiberStatus} : Quiet s (s.setFiberStatus f status) :=
  quiet_modifyFiber (fun _ => rfl) fun _ => rfl

theorem switched_setFiberOwner {owner : Option Nat} : Switched s (s.setFiberOwner f owner) :=
  switched_modifyFiber fun _ => rfl

theorem owner?_setFiberOwner {owner : Option Nat} {g : Nat} (hf : f < s.fibers.length) :
    (s.setFiberOwner f owner).owner? g = if g = f then owner else s.owner? g := by
  unfold VmState.owner? setFiberOwner modifyFiber
  rw [List.getElem?_modify]
  by_cases hEq : g = f
  · subst hEq
    rw [List.getElem?_eq_getElem hf]
    simp
  · rw [if_neg hEq]
    simp [Ne.symm hEq]

theorem quiet_activate {startBlock : B → C → C} {started : Bool} :
    Quiet s (s.activate startBlock f started) := by
  unfold activate
  split
  · exact (quiet_context _).trans (quiet_modifyFiber (fun _ => rfl) fun _ => rfl)
  · exact .refl

theorem quiet_ifFiber {g : VmState B C → Nat → VmState B C} (hg : ∀ f, Quiet s (g s f)) :
    Quiet s (s.ifFiber who g) := by
  cases who with
  | none => exact .refl
  | some f => exact hg f

variable [Inhabited C]

theorem quiet_saveFiberContext : Quiet s (s.saveFiberContext who) := by
  cases who with
  | none => exact ⟨⟨rfl, rfl, rfl, rfl, fun _ => rfl⟩, rfl, rfl, fun _ => rfl, rfl⟩
  | some f => exact (quiet_context default).trans (quiet_modifyFiber (fun _ => rfl) fun _ => rfl)

theorem quiet_loadFiberContext : Quiet s (s.loadFiberContext who) := by
  cases who with
  | none => exact ⟨⟨rfl, rfl, rfl, rfl, fun _ => rfl⟩, rfl, rfl, fun _ => rfl, rfl⟩
  | some f => exact (quiet_context _).trans (quiet_modifyFiber (fun _ => rfl) fun _ => rfl)

theorem enterFiber_spec (startBlock : B → C → C) (started : Bool) (hf : f < s.fibers.length) :
    Switched s (s.enterFiber startBlock f started) ∧
      (s.enterFiber startBlock f started).currentFiber = s.currentFiber ∧
      (s.enterFiber startBlock f started).resumeStack = s.resumeStack ∧
      ∀ g, (s.enterFiber startBlock f started).owner? g =
        if g = f then some s.currentTask else s.owner? g := by
  have hQuiet : Quiet s (((s.loadFiberContext (some f)).activate startBlock f started).setFiberStatus
      f .running) := (quiet_loadFiberContext.trans quiet_activate).trans quiet_setFiberStatus
  refine ⟨hQuiet.toSwitched.trans switched_setFiberOwner, hQuiet.currentFiber, hQuiet.resumeStack,
    fun g => ?_⟩
  unfold enterFiber
  rw [owner?_setFiberOwner (hQuiet.length ▸ hf), hQuiet.owner? g, hQuiet.currentTask]

/-- A resumed fiber runs, in the task that resumed it. -/
theorem doResumeSwitch_spec (startBlock : B → C → C) (hf : f < s.fibers.length) :
    Switched s (s.doResumeSwitch startBlock f) ∧
      (s.doResumeSwitch startBlock f).currentFiber = some f ∧
      (s.doResumeSwitch startBlock f).resumeStack = s.currentFiber :: s.resumeStack ∧
      ∀ g, (s.doResumeSwitch startBlock f).owner? g =
        if g = f then some s.currentTask else s.owner? g := by
  let left := (s.saveFiberContext s.currentFiber).ifFiber s.currentFiber
    fun s of => s.setFiberStatus of .suspended
  have hLeft : Quiet s left :=
    quiet_saveFiberContext.trans (quiet_ifFiber fun _ => quiet_setFiberStatus)
  let turned : VmState B C :=
    { left with resumeStack := s.currentFiber :: left.resumeStack, currentFiber := some f }
  have hTurned : Switched left turned := ⟨rfl, rfl, rfl, rfl, fun _ => rfl⟩
  have hLength : f < turned.fibers.length := by
    show f < left.fibers.length
    rw [hLeft.length]
    exact hf
  obtain ⟨hSwitched, hFiber, hStack, hOwner⟩ := enterFiber_spec startBlock
    ((turned.fibers[f]?.map NativeFiberState.started).getD true) hLength
  refine ⟨(hLeft.toSwitched.trans hTurned).trans hSwitched, hFiber, ?_, fun g => ?_⟩
  · show VmState.resumeStack (turned.enterFiber _ _ _) = _
    rw [hStack, ← hLeft.resumeStack]
  · have hTask : turned.currentTask = s.currentTask := hLeft.currentTask
    have hSame : turned.owner? g = s.owner? g := hLeft.owner? g
    show VmState.owner? (turned.enterFiber _ _ _) g = _
    rw [hOwner, hTask, hSame]

theorem backToResumer_spec : Switched s s.backToResumer ∧
    s.backToResumer.currentFiber = s.resumeStack.head?.join ∧
    s.backToResumer.resumeStack = s.resumeStack.tail ∧
    ∀ g, s.backToResumer.owner? g = s.owner? g := by
  let turned : VmState B C :=
    { s with resumeStack := s.resumeStack.tail, currentFiber := s.resumeStack.head?.join }
  have hTurned : Switched s turned := ⟨rfl, rfl, rfl, rfl, fun _ => rfl⟩
  have hBack : Quiet turned ((turned.loadFiberContext s.resumeStack.head?.join).ifFiber
      s.resumeStack.head?.join fun s rf => s.setFiberStatus rf .running) :=
    quiet_loadFiberContext.trans (quiet_ifFiber fun _ => quiet_setFiberStatus)
  exact ⟨hTurned.trans hBack.toSwitched, hBack.currentFiber, hBack.resumeStack, hBack.owner?⟩

/-- What a fiber that leaves its task changes. -/
structure Left (s s' : VmState B C) (f : Nat) : Prop extends Switched s s' where
  currentFiber : s'.currentFiber = s.resumeStack.head?.join
  resumeStack : s'.resumeStack = s.resumeStack.tail
  owner? : ∀ g, s'.owner? g = if g = f then none else s.owner? g

theorem left_backToResumer {left : VmState B C} {status : FiberStatus} (hLeft : Quiet s left)
    (hf : f < s.fibers.length) :
    Left s ((left.setFiberStatus f status).setFiberOwner f none).backToResumer f := by
  have hSet : Quiet s (left.setFiberStatus f status) := hLeft.trans quiet_setFiberStatus
  obtain ⟨hSwitched, hFiber, hStack, hOwner⟩ := backToResumer_spec
    (s := (left.setFiberStatus f status).setFiberOwner f none)
  refine ⟨(hSet.toSwitched.trans switched_setFiberOwner).trans hSwitched, ?_, ?_, fun g => ?_⟩
  · rw [hFiber, ← hSet.resumeStack]
    rfl
  · rw [hStack, ← hSet.resumeStack]
    rfl
  · rw [hOwner, owner?_setFiberOwner (hSet.length ▸ hf), hSet.owner? g]

theorem left_doYieldSwitch (hFiber : s.currentFiber = some f) (hf : f < s.fibers.length) :
    Left s s.doYieldSwitch f := by
  unfold doYieldSwitch
  rw [hFiber]
  exact left_backToResumer quiet_saveFiberContext hf

theorem left_doFiberDone (ok : Bool) (hFiber : s.currentFiber = some f)
    (hf : f < s.fibers.length) : Left s (s.doFiberDone ok) f := by
  unfold doFiberDone
  rw [hFiber]
  exact left_backToResumer (quiet_context default) hf

end VmState

/-! ## What a task has -/

/-- What a task has of the scheduler, live or stashed. -/
structure View where
  fiber : Option Nat
  resumers : List (Option Nat)
  depth : Nat

namespace View

/-- The fibers a task is in: the running one and those that resumed it. -/
def chain (v : View) : List Nat := (v.fiber :: v.resumers).reduceOption

theorem mem_chain {v : View} : f ∈ v.chain ↔ v.fiber = some f ∨ some f ∈ v.resumers := by
  unfold chain
  rw [List.reduceOption_mem_iff, List.mem_cons, eq_comm]

theorem chain_some {resumers : List (Option Nat)} {n : Nat} :
    (⟨some f, resumers, n⟩ : View).chain = f :: resumers.reduceOption :=
  List.reduceOption_cons_of_some f resumers

/-- The one that resumed goes on: who resumed it still did. -/
theorem chain_back {resumers : List (Option Nat)} {n : Nat} :
    (⟨resumers.head?.join, resumers.tail, n⟩ : View).chain = resumers.reduceOption := by
  cases resumers with
  | nil => rfl
  | cons r rs => rfl

end View

namespace VmState

def live (s : VmState B C) : View := ⟨s.currentFiber, s.resumeStack, s.nativeReentryDepth⟩

/-- Whether a task is the one whose context is loaded. -/
def runs (s : VmState B C) (tid : Nat) : Bool := s.loaded && tid == s.currentTask

def view (s : VmState B C) (tid : Nat) : Option View :=
  (s.task? tid).map fun t =>
    if s.runs tid then s.live else ⟨t.currentFiber, t.resumeStack, t.nativeReentryDepth⟩

theorem task?_setTask {task : Option (Task B C)} {t : Nat} (ht : tid < s.tasks.length) :
    (s.setTask tid task).task? t = if t = tid then task else s.task? t := by
  unfold task? setTask
  by_cases hEq : t = tid
  · subst hEq
    rw [if_pos rfl, List.getElem?_set_self ht, Option.join_some]
  · rw [if_neg hEq, List.getElem?_set_ne (Ne.symm hEq)]

theorem task?_mapTask {g : Task B C → Task B C} {t : Nat} :
    (s.setTask tid ((s.task? tid).map g)).task? t =
      (s.task? t).map fun task => if t = tid then g task else task := by
  by_cases hLt : tid < s.tasks.length
  · rw [task?_setTask hLt]
    by_cases hEq : t = tid
    · simp [hEq]
    · simp [hEq]
  · -- there is no such slot
    have hSame : s.setTask tid ((s.task? tid).map g) = s := by
      unfold setTask
      rw [List.set_eq_of_length_le (by omega)]
    have hNone : s.task? tid = none := by
      unfold task?
      rw [List.getElem?_eq_none (by omega)]
      rfl
    rw [hSame]
    by_cases hEq : t = tid
    · rw [hEq, hNone]
      rfl
    · simp [hEq]

theorem lt_of_task? {t : Task B C} (ht : s.task? tid = some t) : tid < s.tasks.length := by
  unfold task? at ht
  rw [Option.join_eq_some_iff] at ht
  exact (List.getElem?_eq_some_iff.mp ht).1

theorem lt_of_resumable (hResumable : s.resumable f = true) : f < s.fibers.length := by
  by_contra hNot
  unfold resumable at hResumable
  rw [List.getElem?_eq_none (by omega)] at hResumable
  contradiction

theorem lt_of_owner? {t : Nat} (hf : s.owner? f = some t) : f < s.fibers.length := by
  unfold owner? at hf
  rw [Option.join_eq_some_iff, Option.map_eq_some_iff] at hf
  obtain ⟨st, hst, -⟩ := hf
  exact (List.getElem?_eq_some_iff.mp hst).1

end VmState

/-- A task's view is right: the depth is that of its running coroutine, and the fibers it is in are
its own. -/
structure View.Ok (s : VmState B C) (tid : Nat) (v : View) : Prop where
  depth : v.depth = s.nestedAt tid v.fiber
  nodup : v.chain.Nodup
  owned : ∀ f ∈ v.chain, s.owner? f = some tid

/-- What holds between steps. -/
structure Inv (s : VmState B C) : Prop where
  views : ∀ tid v, s.view tid = some v → v.Ok s tid
  fresh : ∀ tid t, s.task? tid = some t → t.started = false →
    t.currentFiber = none ∧ t.resumeStack = [] ∧ t.nativeReentryDepth = 0
  running : s.loaded → ∃ t, s.task? s.currentTask = some t ∧ t.started = true

/-- The depth is that of the running coroutine, and its limit is reported when that is as deep. -/
def Exact (s : VmState B C) : Prop :=
  s.loaded → s.nativeReentryDepth = s.nested ∧
    (s.enterNativeReentry = .error tooDeep ↔ maxNativeReentry ≤ s.nested)

/-- A fiber switch goes between coroutines that are nested alike. -/
def Even (s : VmState B C) : Act B C → Prop
  | .resume f => s.fiberNested f = s.nested
  | .yield | .fiberDone _ => s.nestedAt s.currentTask s.resumeStack.head?.join = s.nested
  | _ => True

/-! ## Steps -/

theorem View.Ok.congr {v : View} (h : v.Ok s tid)
    (hNested : s'.nestedAt tid v.fiber = s.nestedAt tid v.fiber)
    (hOwner : ∀ f ∈ v.chain, s'.owner? f = s.owner? f) : v.Ok s' tid where
  depth := h.depth.trans hNested.symm
  nodup := h.nodup
  owned f hf := (hOwner f hf).trans (h.owned f hf)

theorem runs_self (hLoaded : s.loaded = true) : s.runs s.currentTask = true := by
  simp [runs, hLoaded]

theorem runs_of_ne (hNe : tid ≠ s.currentTask) : s.runs tid = false := by
  simp [runs, hNe]

namespace Inv

/-- The view of the running task. -/
theorem live (h : Inv s) (hLoaded : s.loaded = true) : s.live.Ok s s.currentTask := by
  obtain ⟨t, ht, -⟩ := h.running hLoaded
  refine h.views s.currentTask s.live ?_
  rw [view, ht, Option.map_some, if_pos (runs_self hLoaded)]

theorem lt_fibers (h : Inv s) (hLoaded : s.loaded = true) (hFiber : s.currentFiber = some f) :
    f < s.fibers.length :=
  lt_of_owner? ((h.live hLoaded).owned f (View.mem_chain.mpr (.inl hFiber)))

theorem exact (h : Inv s) : Exact s := by
  intro hLoaded
  have hDepth : s.nativeReentryDepth = s.nested := (h.live hLoaded).depth
  refine ⟨hDepth, ?_⟩
  unfold enterNativeReentry
  rw [hDepth]
  constructor
  · intro hError
    by_contra hLess
    rw [if_neg hLess] at hError
    contradiction
  · intro hDeep
    exact if_pos hDeep

/-- A fiber that the running task is in is in no other one. -/
theorem elsewhere (h : Inv s) {v : View} (hView : s.view tid = some v) (hNe : tid ≠ s.currentTask)
    (hOwner : s.owner? f = none ∨ s.owner? f = some s.currentTask) : f ∉ v.chain := by
  intro hf
  have hOwned := (h.views tid v hView).owned f hf
  rcases hOwner with hNone | hSome
  · rw [hNone] at hOwned
    contradiction
  · rw [hSome] at hOwned
    exact hNe (Option.some.inj hOwned).symm

/-- A switch of fibers changes the view of the running task alone. -/
theorem switched (h : Inv s) (hSwitched : Switched s s')
    (hLive : s.loaded = true → s'.live.Ok s' s.currentTask)
    (hOthers : ∀ tid v, s.view tid = some v → (s.loaded = true → tid ≠ s.currentTask) →
      ∀ f ∈ v.chain, s'.owner? f = s.owner? f) : Inv s' where
  views tid v hView := by
    have hRuns : s'.runs tid = s.runs tid := by
      unfold runs
      rw [hSwitched.loaded, hSwitched.currentTask]
    obtain ⟨t, ht, rfl⟩ := Option.map_eq_some_iff.mp hView
    rw [hSwitched.task?] at ht
    rw [hRuns]
    cases hSelf : s.runs tid with
    | true =>
      unfold runs at hSelf
      simp only [Bool.and_eq_true, beq_iff_eq] at hSelf
      rw [if_pos rfl, hSelf.2]
      exact hLive hSelf.1
    | false =>
      have hOld : s.view tid = some ⟨t.currentFiber, t.resumeStack, t.nativeReentryDepth⟩ := by
        rw [view, ht, Option.map_some, hSelf]
        rfl
      have hNe : s.loaded = true → tid ≠ s.currentTask := by
        intro hLoaded hEq
        rw [hEq, runs_self hLoaded] at hSelf
        contradiction
      exact (h.views tid _ hOld).congr hSwitched.nestedAt (hOthers tid _ hOld hNe)
  fresh tid t ht := h.fresh tid t (hSwitched.task? ▸ ht)
  running hLoaded := by
    obtain ⟨t, ht, hStarted⟩ := h.running (hSwitched.loaded ▸ hLoaded)
    refine ⟨t, ?_, hStarted⟩
    rw [hSwitched.currentTask, hSwitched.task?]
    exact ht

theorem quiet (h : Inv s) (hQuiet : Quiet s s') : Inv s' := by
  refine h.switched hQuiet.toSwitched (fun hLoaded => ?_) fun tid v _ _ f _ => hQuiet.owner? f
  have hLive : s'.live = s.live := by
    unfold VmState.live
    rw [hQuiet.currentFiber, hQuiet.resumeStack, hQuiet.depth]
  rw [hLive]
  exact (h.live hLoaded).congr hQuiet.nestedAt fun f _ => hQuiet.owner? f

theorem resume [Inhabited C] (startBlock : B → C → C) (h : Inv s) (hLoaded : s.loaded = true)
    (hResumable : s.resumable f = true) (hEven : s.fiberNested f = s.nested) :
    Inv (s.doResumeSwitch startBlock f) := by
  unfold resumable at hResumable
  cases hFiber : s.fibers[f]? with
  | none =>
    rw [hFiber] at hResumable
    contradiction
  | some st =>
    rw [hFiber] at hResumable
    simp only [Bool.and_eq_true, Bool.not_eq_true', bne_iff_ne, Bool.or_eq_true,
      Option.isNone_iff_eq_none, beq_iff_eq, List.contains_eq_mem, decide_eq_false_iff_not]
      at hResumable
    obtain ⟨⟨⟨-, hNotCurrent⟩, hNotAbove⟩, hOwner⟩ := hResumable
    have hOwner : s.owner? f = none ∨ s.owner? f = some s.currentTask := by
      unfold owner?
      rw [hFiber]
      exact hOwner
    obtain ⟨hSwitched, hCurrent, hStack, hOwners⟩ :=
      doResumeSwitch_spec startBlock (List.getElem?_eq_some_iff.mp hFiber).1
    have hOld := h.live hLoaded
    -- a fiber that can be resumed is not under way
    have hNew : f ∉ s.live.chain := by
      rw [View.mem_chain]
      exact not_or.mpr ⟨hNotCurrent, hNotAbove⟩
    have hChain : (s.doResumeSwitch startBlock f).live.chain = f :: s.live.chain := by
      unfold VmState.live
      rw [hCurrent, hStack, View.chain_some]
      rfl
    refine h.switched hSwitched (fun _ => ⟨?_, ?_, ?_⟩) fun tid v hView hNe g hg => ?_
    · show (s.doResumeSwitch startBlock f).nativeReentryDepth = _
      rw [hSwitched.depth, hSwitched.nestedAt]
      show s.nativeReentryDepth = s.nestedAt s.currentTask
        (s.doResumeSwitch startBlock f).currentFiber
      rw [hCurrent, nestedAt_some, hEven]
      exact hOld.depth
    · rw [hChain]
      exact List.nodup_cons.mpr ⟨hNew, hOld.nodup⟩
    · intro g hg
      rw [hOwners]
      by_cases hEq : g = f
      · exact if_pos hEq
      · rw [if_neg hEq]
        rw [hChain] at hg
        exact hOld.owned g (List.mem_of_ne_of_mem hEq hg)
    · rw [hOwners, if_neg]
      rintro rfl
      exact h.elsewhere hView (hNe hLoaded) hOwner hg

/-- The running fiber leaves, and its resumer is nested alike. -/
theorem left (h : Inv s) (hLoaded : s.loaded = true) (hFiber : s.currentFiber = some f)
    (hLeft : Left s s' f) (hEven : s.nestedAt s.currentTask s.resumeStack.head?.join = s.nested) :
    Inv s' := by
  have hOld := h.live hLoaded
  have hWas : s.live.chain = f :: s.resumeStack.reduceOption := by
    unfold VmState.live
    rw [hFiber, View.chain_some]
  have hChain : s'.live.chain = s.resumeStack.reduceOption := by
    unfold VmState.live
    rw [hLeft.currentFiber, hLeft.resumeStack, View.chain_back]
  have hNodup := hOld.nodup
  rw [hWas, List.nodup_cons] at hNodup
  have hOwner : s.owner? f = some s.currentTask := hOld.owned f (by rw [hWas]; simp)
  refine h.switched hLeft.toSwitched (fun _ => ⟨?_, ?_, ?_⟩) fun tid v hView hNe g hg => ?_
  · show s'.nativeReentryDepth = s'.nestedAt s.currentTask s'.currentFiber
    rw [hLeft.depth, hLeft.nestedAt, hLeft.currentFiber, hEven]
    exact hOld.depth
  · rw [hChain]
    exact hNodup.2
  · intro g hg
    rw [hChain] at hg
    have hNe : g ≠ f := by
      rintro rfl
      exact hNodup.1 hg
    rw [hLeft.owner?, if_neg hNe]
    exact hOld.owned g (by rw [hWas]; simp [hg])
  · rw [hLeft.owner?, if_neg]
    rintro rfl
    exact h.elsewhere hView (hNe hLoaded) (.inr hOwner) hg

end Inv

/-! ## Native calls -/

section Nested

variable {n : Nat}

/-- The state in which the running coroutine has `n` activations. -/
abbrev VmState.counted (s : VmState B C) (n : Nat) : VmState B C :=
  { s with nativeReentryDepth := n }.setNested n

theorem counted_fields : (s.counted n).loaded = s.loaded ∧
    (s.counted n).currentTask = s.currentTask ∧ (s.counted n).live = { s.live with depth := n } ∧
    ∀ f, (s.counted n).owner? f = s.owner? f := by
  unfold counted setNested
  dsimp only
  cases hFiber : s.currentFiber with
  | none => exact ⟨rfl, rfl, by simp [VmState.live, setTask, hFiber], fun _ => rfl⟩
  | some f =>
    refine ⟨rfl, rfl, by simp [VmState.live, modifyFiber, hFiber], fun g => ?_⟩
    exact owner?_modifyFiber (by intro st; rfl)

theorem counted_task? : (s.counted n).task? tid = (s.task? tid).map fun t =>
    if tid = s.currentTask ∧ s.currentFiber = none then { t with nested := n } else t := by
  unfold counted setNested
  dsimp only
  cases hFiber : s.currentFiber with
  | none =>
    have hMap : (s.setTask s.currentTask ((s.task? s.currentTask).map fun t =>
        { t with nested := n })).task? tid =
          (s.task? tid).map fun t => if tid = s.currentTask then { t with nested := n } else t :=
      task?_mapTask
    simp only [and_true]
    exact hMap
  | some f =>
    have hSame : (s.task? tid).map (fun t =>
        if tid = s.currentTask ∧ some f = none then { t with nested := n } else t) =
          s.task? tid := by simp
    rw [hSame]
    rfl

theorem counted_fiberNested {g : Nat} (hOwn : ∀ f, s.currentFiber = some f → f < s.fibers.length) :
    (s.counted n).fiberNested g = if s.currentFiber = some g then n else s.fiberNested g := by
  unfold counted setNested fiberNested
  dsimp only
  cases hFiber : s.currentFiber with
  | none => rfl
  | some f =>
    unfold modifyFiber
    dsimp only
    rw [List.getElem?_modify]
    by_cases hEq : f = g
    · subst hEq
      rw [List.getElem?_eq_getElem (hOwn f hFiber)]
      simp
    · rw [if_neg (fun h => hEq (Option.some.inj h))]
      simp [hEq]

/-- An activation comes to the running coroutine, or goes from it, and is counted. -/
theorem Inv.counted (h : Inv s) (hLoaded : s.loaded = true) (n : Nat) : Inv (s.counted n) := by
  obtain ⟨hLoad, hTask, hLive, hOwner⟩ := counted_fields (s := s) (n := n)
  have hOld := h.live hLoaded
  obtain ⟨t, ht, hStarted⟩ := h.running hLoaded
  have hOwn : ∀ f, s.currentFiber = some f → f < s.fibers.length := fun f => h.lt_fibers hLoaded
  have hRuns (tid : Nat) : (s.counted n).runs tid = s.runs tid := by
    unfold runs
    rw [hLoad, hTask]
  constructor
  · -- the running coroutine has the new depth, as a task or as a fiber, and the others have theirs
    intro tid v hView
    obtain ⟨t', ht', rfl⟩ := Option.map_eq_some_iff.mp hView
    rw [hRuns, hLive]
    by_cases hSelf : tid = s.currentTask
    · subst hSelf
      rw [if_pos (runs_self hLoaded)]
      refine ⟨?_, hOld.nodup, fun f hf => (hOwner f).trans (hOld.owned f hf)⟩
      show n = (s.counted n).nestedAt s.currentTask s.currentFiber
      cases hFiber : s.currentFiber with
      | none =>
        rw [nestedAt_none, rootNested, counted_task?, ht, hFiber]
        simp
      | some f =>
        rw [nestedAt_some, counted_fiberNested hOwn, if_pos hFiber]
    · rw [runs_of_ne hSelf]
      rw [counted_task?] at ht'
      obtain ⟨t'', ht'', rfl⟩ := Option.map_eq_some_iff.mp ht'
      have hNot : ¬(tid = s.currentTask ∧ s.currentFiber = none) := fun h => hSelf h.1
      simp only [hNot, Bool.false_eq_true, if_false]
      have hView' : s.view tid = some ⟨t''.currentFiber, t''.resumeStack, t''.nativeReentryDepth⟩ := by
        rw [view, ht'', Option.map_some, runs_of_ne hSelf]
        rfl
      refine (h.views tid _ hView').congr ?_ fun f _ => hOwner f
      show (s.counted n).nestedAt tid t''.currentFiber = s.nestedAt tid t''.currentFiber
      cases hFiber : t''.currentFiber with
      | none =>
        rw [nestedAt_none, nestedAt_none, rootNested, rootNested, counted_task?, ht'']
        simp [hSelf]
      | some f =>
        rw [nestedAt_some, nestedAt_some, counted_fiberNested hOwn, if_neg]
        -- a fiber runs in one task only
        intro hCurrent
        have hOwned := hOld.owned f (View.mem_chain.mpr (.inl hCurrent))
        exact h.elsewhere hView' hSelf (.inr hOwned) (View.mem_chain.mpr (.inl hFiber))
  · intro tid t' ht' hNew
    rw [counted_task?] at ht'
    obtain ⟨t'', ht'', rfl⟩ := Option.map_eq_some_iff.mp ht'
    by_cases hCase : tid = s.currentTask ∧ s.currentFiber = none
    · rw [if_pos hCase] at hNew ⊢
      exact h.fresh tid t'' ht'' hNew
    · rw [if_neg hCase] at hNew ⊢
      exact h.fresh tid t'' ht'' hNew
  · intro _
    rw [hTask, counted_task?, ht]
    refine ⟨_, rfl, ?_⟩
    split
    · exact hStarted
    · exact hStarted

end Nested

/-! ## Switching tasks -/

namespace Inv

/-- A change that keeps the views, and the activations. -/
theorem same (h : Inv s) (hView : ∀ tid, s'.view tid = s.view tid)
    (hNested : ∀ tid who, s'.nestedAt tid who = s.nestedAt tid who)
    (hOwner : ∀ f, s'.owner? f = s.owner? f)
    (hFresh : ∀ tid t, s'.task? tid = some t → t.started = false →
      t.currentFiber = none ∧ t.resumeStack = [] ∧ t.nativeReentryDepth = 0)
    (hRunning : s'.loaded = true → ∃ t, s'.task? s'.currentTask = some t ∧ t.started = true) :
    Inv s' where
  views tid v hv := by
    rw [hView] at hv
    exact (h.views tid v hv).congr (hNested tid v.fiber) fun f _ => hOwner f
  fresh := hFresh
  running := hRunning

theorem newFiber [Inhabited C] (h : Inv s) (block : B) :
    Inv { s with fibers := s.fibers ++ [⟨block, .created, false, default, none, 0⟩] } := by
  have hNew (f : Nat) : (s.fibers ++ [⟨block, .created, false, default, none, 0⟩])[f]? =
      if f = s.fibers.length then some ⟨block, .created, false, default, none, 0⟩
      else s.fibers[f]? := by
    rw [List.getElem?_append]
    rcases Nat.lt_trichotomy f s.fibers.length with hLt | rfl | hGt
    · rw [if_pos hLt, if_neg (by omega)]
    · simp
    · rw [if_neg (by omega), if_neg (by omega), List.getElem?_eq_none (by simp; omega),
        List.getElem?_eq_none (by omega)]
  refine h.same (fun _ => rfl) (fun tid who => ?_) (fun f => ?_) h.fresh h.running
  · cases who with
    | none => rfl
    | some f =>
      show ((s.fibers ++ [_])[f]?.map NativeFiberState.nested).getD 0 = s.fiberNested f
      rw [hNew]
      split
      · next hEq =>
        unfold fiberNested
        rw [hEq, List.getElem?_eq_none (by omega)]
        rfl
      · rfl
  · show ((s.fibers ++ [_])[f]?.map NativeFiberState.owner).join = s.owner? f
    rw [hNew]
    split
    · next hEq =>
      unfold owner?
      rw [hEq, List.getElem?_eq_none (by omega)]
      rfl
    · rfl

/-- What is stashed is what was live. -/
theorem park [Inhabited C] (h : Inv s) (hLoaded : s.loaded = true) :
    Inv (s.saveTaskContext s.currentTask) := by
  obtain ⟨t, ht, hStarted⟩ := h.running hLoaded
  -- what the context of the task becomes is saved with it
  let saved : Task B C := { t with
    context := s.context, currentFiber := s.currentFiber, resumeStack := s.resumeStack
    savedRoot := s.mainSaved, nativeReentryDepth := s.nativeReentryDepth }
  have hSave : s.saveTaskContext s.currentTask = { s with
      context := default, currentFiber := none, resumeStack := [], mainSaved := default
      loaded := false }.setTask s.currentTask (some saved) := by
    unfold saveTaskContext
    rw [ht]
  rw [hSave]
  have hTask (tid : Nat) : ({ s with
      context := default, currentFiber := none, resumeStack := [], mainSaved := default
      loaded := false }.setTask s.currentTask (some saved)).task? tid =
        if tid = s.currentTask then some saved else s.task? tid := task?_setTask (lt_of_task? ht)
  refine h.same (fun tid => ?_) (fun tid who => ?_) (fun _ => rfl) (fun tid t' ht' hNew => ?_)
    fun hLoad => by contradiction
  · -- the fibers stand as they stood: the running one is the saved one
    unfold view
    rw [hTask]
    by_cases hSelf : tid = s.currentTask
    · subst hSelf
      rw [if_pos rfl, ht, Option.map_some, Option.map_some, runs_self hLoaded]
      rfl
    · rw [if_neg hSelf, runs_of_ne hSelf]
      rfl
  · -- the depth is on the task, and it is not touched
    cases who with
    | some f => rfl
    | none =>
      rw [nestedAt_none, nestedAt_none, rootNested, rootNested, hTask]
      by_cases hSelf : tid = s.currentTask
      · rw [if_pos hSelf, hSelf, ht]
        rfl
      · rw [if_neg hSelf]
  · -- a task that runs has been started
    rw [hTask] at ht'
    by_cases hSelf : tid = s.currentTask
    · rw [if_pos hSelf] at ht'
      obtain rfl := Option.some.inj ht'
      rw [show saved.started = t.started from rfl, hStarted] at hNew
      contradiction
    · rw [if_neg hSelf] at ht'
      exact h.fresh tid t' ht' hNew

/-- What is live is what was stashed; a task that has not started has stashed nothing. -/
theorem load [Inhabited C] (startBlock : B → C → C) (h : Inv s) (hIdle : s.loaded = false)
    (hSome : (s.task? tid).isSome) : Inv (s.loadTaskContext startBlock tid) := by
  obtain ⟨t, ht⟩ := Option.isSome_iff_exists.mp hSome
  -- a task that is started here has what it was made with, and is not nested
  obtain ⟨s', t', hLoad, hTasks, hFibers, hNow, hRuns, hLive, hNested, hStarted⟩ :
      ∃ s' t', s.loadTaskContext startBlock tid = s' ∧ s'.tasks = s.tasks.set tid (some t') ∧
        s'.fibers = s.fibers ∧ s'.currentTask = tid ∧ s'.loaded = true ∧
        s'.live = ⟨t.currentFiber, t.resumeStack, t.nativeReentryDepth⟩ ∧
        t'.nested = t.nested ∧ t'.started = true := by
    unfold loadTaskContext
    rw [ht]
    dsimp only
    cases hStarted : t.started with
    | true => exact ⟨_, _, rfl, rfl, rfl, rfl, rfl, rfl, rfl, rfl⟩
    | false =>
      obtain ⟨hFiber, hStack, hDepth⟩ := h.fresh tid t ht hStarted
      refine ⟨_, _, rfl, rfl, rfl, rfl, rfl, ?_, rfl, rfl⟩
      rw [hFiber, hStack, hDepth]
      rfl
  rw [hLoad]
  have hTask (tid' : Nat) : s'.task? tid' = if tid' = tid then some t' else s.task? tid' := by
    have hSet : s'.task? tid' = (s.setTask tid (some t')).task? tid' := by
      unfold task?
      rw [hTasks]
      rfl
    rw [hSet, task?_setTask (lt_of_task? ht)]
  -- no task ran before
  have hWas (tid' : Nat) : s.runs tid' = false := by simp [runs, hIdle]
  refine h.same (fun tid' => ?_) (fun tid' who => ?_) (fun f => ?_) (fun tid' t'' ht'' hNew => ?_)
    fun _ => ⟨t', ?_, hStarted⟩
  · unfold view
    rw [hTask, hWas]
    by_cases hSelf : tid' = tid
    · have hRun : s'.runs tid' = true := by simp [runs, hRuns, hNow, hSelf]
      rw [if_pos hSelf, hRun, hLive, hSelf, ht]
      rfl
    · have hRun : s'.runs tid' = false := by simp [runs, hRuns, hNow, hSelf]
      rw [if_neg hSelf, hRun]
      rfl
  · cases who with
    | some f => rw [nestedAt_some, nestedAt_some, fiberNested, fiberNested, hFibers]
    | none =>
      rw [nestedAt_none, nestedAt_none, rootNested, rootNested, hTask]
      by_cases hSelf : tid' = tid
      · rw [if_pos hSelf, hSelf, ht, Option.map_some, hNested]
        rfl
      · rw [if_neg hSelf]
  · unfold owner?
    rw [hFibers]
  · rw [hTask] at ht''
    by_cases hSelf : tid' = tid
    · rw [if_pos hSelf] at ht''
      obtain rfl := Option.some.inj ht''
      rw [hStarted] at hNew
      contradiction
    · rw [if_neg hSelf] at ht''
      exact h.fresh tid' t'' ht'' hNew
  · rw [hNow, hTask, if_pos rfl]

/-- The new task is in a slot that was free. -/
theorem alloc [Inhabited C] (h : Inv s) (hLoaded : s.loaded = true) (block : B) :
    Inv (s.allocTask (newChildTask block)) := by
  obtain ⟨t, ht, hStarted⟩ := h.running hLoaded
  -- the new task gets an empty slot, or a new one
  obtain ⟨s', i, hAlloc, hFree, hTask, hLive, hNow, hLoad, hFibers⟩ :
      ∃ s' i, s.allocTask (newChildTask block) = s' ∧ s.task? i = none ∧
        (∀ tid, s'.task? tid = if tid = i then some (newChildTask block) else s.task? tid) ∧
        s'.live = s.live ∧ s'.currentTask = s.currentTask ∧ s'.loaded = s.loaded ∧
        s'.fibers = s.fibers := by
    unfold allocTask
    cases hFind : s.tasks.findIdx? Option.isNone with
    | some i =>
      obtain ⟨hLt, hNone, -⟩ := List.findIdx?_eq_some_iff_getElem.mp hFind
      refine ⟨_, i, rfl, ?_, fun tid => task?_setTask hLt, rfl, rfl, rfl, rfl⟩
      unfold task?
      rw [List.getElem?_eq_getElem hLt]
      exact Option.isNone_iff_eq_none.mp hNone
    | none =>
      refine ⟨_, s.tasks.length, rfl, ?_, fun tid => ?_, rfl, rfl, rfl, rfl⟩
      · unfold task?
        rw [List.getElem?_eq_none (by omega)]
        rfl
      · unfold task?
        dsimp only
        rcases Nat.lt_trichotomy tid s.tasks.length with hLt | rfl | hGt
        · rw [List.getElem?_append_left hLt, if_neg (by omega)]
        · simp
        · rw [if_neg (by omega), List.getElem?_eq_none (by simp; omega),
            List.getElem?_eq_none (by omega)]
  rw [hAlloc]
  have hNe : s.currentTask ≠ i := by
    rintro rfl
    rw [hFree] at ht
    contradiction
  have hRuns (tid : Nat) : s'.runs tid = s.runs tid := by
    unfold runs
    rw [hLoad, hNow]
  have hOwner (f : Nat) : s'.owner? f = s.owner? f := by
    unfold owner?
    rw [hFibers]
  constructor
  · -- only the new task has a new view, of a coroutine that is not nested
    intro tid v hView
    by_cases hNew : tid = i
    · subst hNew
      unfold view at hView
      rw [hTask, if_pos rfl, hRuns, runs_of_ne (Ne.symm hNe)] at hView
      obtain rfl := Option.some.inj hView
      refine ⟨?_, List.nodup_nil, fun f hf => absurd hf List.not_mem_nil⟩
      show 0 = s'.rootNested tid
      rw [rootNested, hTask, if_pos rfl]
      rfl
    · have hSame : s'.view tid = s.view tid := by
        unfold view
        rw [hTask, if_neg hNew, hRuns, hLive]
      rw [hSame] at hView
      refine (h.views tid v hView).congr ?_ fun f _ => hOwner f
      cases v.fiber with
      | none => rw [nestedAt_none, nestedAt_none, rootNested, rootNested, hTask, if_neg hNew]
      | some f => rw [nestedAt_some, nestedAt_some, fiberNested, fiberNested, hFibers]
  · intro tid t' ht' hNotStarted
    rw [hTask] at ht'
    by_cases hNew : tid = i
    · rw [if_pos hNew] at ht'
      obtain rfl := Option.some.inj ht'
      exact ⟨rfl, rfl, rfl⟩
    · rw [if_neg hNew] at ht'
      exact h.fresh tid t' ht' hNotStarted
  · intro _
    refine ⟨t, ?_, hStarted⟩
    rw [hNow, hTask, if_neg hNe]
    exact ht

theorem complete (h : Inv s) (hLoaded : s.loaded = true) : Inv s.completeCurrentTask := by
  obtain ⟨t, ht, hStarted⟩ := h.running hLoaded
  have hTask (tid : Nat) : s.completeCurrentTask.task? tid =
      if tid = s.currentTask then none else s.task? tid :=
    task?_setTask (s := s) (lt_of_task? ht)
  constructor
  · intro tid v hView
    unfold view at hView
    rw [hTask] at hView
    by_cases hSelf : tid = s.currentTask
    · rw [if_pos hSelf] at hView
      contradiction
    · rw [if_neg hSelf] at hView
      have hOld : s.view tid = some v := by
        rw [← hView]
        unfold view
        rw [runs_of_ne hSelf]
        rfl
      refine (h.views tid v hOld).congr ?_ fun _ _ => rfl
      cases v.fiber with
      | none => rw [nestedAt_none, nestedAt_none, rootNested, rootNested, hTask, if_neg hSelf]
      | some f => rfl
  · intro tid t' ht' hNew
    rw [hTask] at ht'
    by_cases hSelf : tid = s.currentTask
    · rw [if_pos hSelf] at ht'
      contradiction
    · rw [if_neg hSelf] at ht'
      exact h.fresh tid t' ht' hNew
  · intro hLoad
    contradiction

/-- A task that is the only one, in no fiber and with no activation. -/
theorem installed (hFiber : s.currentFiber = none) (hStack : s.resumeStack = [])
    (hDepth : s.nativeReentryDepth = 0) [Inhabited C] : Inv s.installMainTask := by
  have hTask (tid : Nat) (t : Task B C) (ht : s.installMainTask.task? tid = some t) :
      tid = 0 ∧ t.started = true := by
    cases tid with
    | zero =>
      obtain rfl := Option.some.inj ht
      exact ⟨rfl, rfl⟩
    | succ n => contradiction
  constructor
  · intro tid v hView
    obtain ⟨t, ht, rfl⟩ := Option.map_eq_some_iff.mp hView
    obtain ⟨rfl, -⟩ := hTask tid t ht
    have hLive : s.installMainTask.live = ⟨none, [], 0⟩ := by
      show (⟨s.currentFiber, s.resumeStack, s.nativeReentryDepth⟩ : View) = _
      rw [hFiber, hStack, hDepth]
    rw [show s.installMainTask.runs 0 = true from rfl, if_pos rfl, hLive]
    exact ⟨rfl, List.nodup_nil, fun f hf => absurd hf List.not_mem_nil⟩
  · intro tid t ht hNew
    rw [(hTask tid t ht).2] at hNew
    contradiction
  · exact fun _ => ⟨_, rfl, rfl⟩

end Inv

/-! ## Runs -/

section Runs

variable [Inhabited C] {startBlock : B → C → C} {a : Act B C}

omit [Inhabited C] in
theorem taken {c : Prop} [Decidable c] (hStep : (if c then some s else none) = some s') :
    c ∧ s = s' := by
  obtain ⟨hc, hEq⟩ := Option.ite_none_right_eq_some.mp hStep
  exact ⟨hc, Option.some.inj hEq⟩

theorem Inv.step (h : Inv s) (hEven : Even s a) (hStep : Fibers.step startBlock s a = some s') :
    Inv s' := by
  cases a with
  | run context =>
    obtain ⟨-, rfl⟩ := taken hStep
    exact h.quiet (quiet_context context)
  | callMethod =>
    obtain ⟨hLoaded, hStep⟩ := Option.ite_none_right_eq_some.mp hStep
    -- the depth is exact before, so it is after the call too
    have hDepth : s.nativeReentryDepth = s.nested := (h.exact hLoaded).1
    unfold enterNativeReentry at hStep
    by_cases hDeep : s.nativeReentryDepth ≥ maxNativeReentry
    · -- the ceiling is reported, and nothing changes
      rw [if_pos hDeep] at hStep
      exact Option.some.inj hStep ▸ h
    · rw [if_neg hDeep, hDepth] at hStep
      exact Option.some.inj hStep ▸ h.counted hLoaded _
  | returns =>
    obtain ⟨⟨hLoaded, -⟩, rfl⟩ := taken hStep
    have hDepth : s.nativeReentryDepth = s.nested := (h.exact hLoaded).1
    rw [hDepth]
    exact h.counted hLoaded _
  | newFiber block =>
    obtain ⟨-, rfl⟩ := taken hStep
    exact h.newFiber block
  | resume f =>
    obtain ⟨⟨hLoaded, hResumable⟩, rfl⟩ := taken hStep
    exact h.resume startBlock hLoaded hResumable hEven
  | yield =>
    obtain ⟨⟨hLoaded, hSome⟩, rfl⟩ := taken hStep
    obtain ⟨f, hFiber⟩ := Option.isSome_iff_exists.mp hSome
    exact h.left hLoaded hFiber (left_doYieldSwitch hFiber (h.lt_fibers hLoaded hFiber)) hEven
  | fiberDone ok =>
    obtain ⟨⟨hLoaded, hSome, -⟩, rfl⟩ := taken hStep
    obtain ⟨f, hFiber⟩ := Option.isSome_iff_exists.mp hSome
    exact h.left hLoaded hFiber (left_doFiberDone ok hFiber (h.lt_fibers hLoaded hFiber)) hEven
  | spawn block =>
    obtain ⟨hLoaded, rfl⟩ := taken hStep
    exact h.alloc hLoaded block
  | park =>
    obtain ⟨hLoaded, rfl⟩ := taken hStep
    exact h.park hLoaded
  | load tid =>
    obtain ⟨⟨hIdle, hSome⟩, rfl⟩ := taken hStep
    rw [Bool.not_eq_true] at hIdle
    exact h.load startBlock hIdle hSome
  | taskDone =>
    obtain ⟨⟨hLoaded, -⟩, rfl⟩ := taken hStep
    exact h.complete hLoaded
  | replLine context =>
    obtain rfl := Option.some.inj hStep
    exact .installed rfl rfl rfl

omit [Inhabited C] in
/-- The depth that a switch leaves is that of the coroutine it left. -/
theorem nestedAt_of_switched (h : Inv s) (hLoaded : s.loaded = true) (hSwitched : Switched s s')
    (hExact : Exact s') : s.nestedAt s.currentTask s'.currentFiber = s.nested := by
  obtain ⟨hDepth, -⟩ := hExact (hSwitched.loaded.trans hLoaded)
  obtain ⟨hWas, -⟩ := h.exact hLoaded
  rw [← hWas, ← hSwitched.depth, hDepth, ← hSwitched.nestedAt, ← hSwitched.currentTask]
  rfl

/-- Only a switch between coroutines that are nested alike leaves the depth right. -/
theorem even_of_exact (h : Inv s) (hStep : Fibers.step startBlock s a = some s')
    (hExact : Exact s') : Even s a := by
  cases a with
  | resume f =>
    obtain ⟨⟨hLoaded, hResumable⟩, rfl⟩ := taken hStep
    obtain ⟨hSwitched, hFiber, -⟩ := doResumeSwitch_spec startBlock (lt_of_resumable hResumable)
    have hNested := nestedAt_of_switched h hLoaded hSwitched hExact
    rw [hFiber] at hNested
    exact hNested
  | yield =>
    obtain ⟨⟨hLoaded, hSome⟩, rfl⟩ := taken hStep
    obtain ⟨f, hFiber⟩ := Option.isSome_iff_exists.mp hSome
    have hLeft := left_doYieldSwitch hFiber (h.lt_fibers hLoaded hFiber)
    have hNested := nestedAt_of_switched h hLoaded hLeft.toSwitched hExact
    rw [hLeft.currentFiber] at hNested
    exact hNested
  | fiberDone ok =>
    obtain ⟨⟨hLoaded, hSome, -⟩, rfl⟩ := taken hStep
    obtain ⟨f, hFiber⟩ := Option.isSome_iff_exists.mp hSome
    have hLeft := left_doFiberDone ok hFiber (h.lt_fibers hLoaded hFiber)
    have hNested := nestedAt_of_switched h hLoaded hLeft.toSwitched hExact
    rw [hLeft.currentFiber] at hNested
    exact hNested
  | _ => trivial

/-- In a run of a program's tasks and fibers, the depth of native calls is that of the running
coroutine in every state if and only if every fiber switch goes between coroutines that are nested
alike. -/
theorem native_reentry_exact (startBlock : B → C → C) (context : C) (as : List (Act B C)) :
    Trans.States (step startBlock) Exact (init context) as ↔
      Trans.Steps (step startBlock) Even (init context) as :=
  Trans.states_iff_steps (I := Inv) (fun _ h => h.exact)
    (fun _ _ _ h hEven hStep => h.step hEven hStep)
    (fun _ _ _ h hStep hExact => even_of_exact h hStep hExact) as (.installed rfl rfl rfl)

end Runs

/-- A fiber is resumed, and yields from inside a `call_method`. -/
def yieldsInside (f : Nat) : List (Act Unit Unit) := [.newFiber (), .resume f, .callMethod, .yield]

/-- The program's main task, in no `call_method`, is refused one after twelve fibers have yielded
from inside one. -/
theorem native_reentry_leaks :
    ∃ s, Trans.exec (step fun _ c => c) (fun _ _ => True) (init ())
        ((List.range 12).flatMap yieldsInside) = some s ∧
      s.loaded = true ∧ s.currentFiber = none ∧ s.nested = 0 ∧ s.nativeReentryDepth = 12 ∧
      s.enterNativeReentry = .error tooDeep :=
  ⟨_, rfl, rfl, rfl, rfl, rfl, rfl⟩

end Quoin.Fibers
