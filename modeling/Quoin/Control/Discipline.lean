import Mathlib
import Quoin.Control.Batch
import Quoin.Control.Moves

/-!
# Quoin — frames, operands, and `^^`

In a run in which the code that waits is not disturbed (`Config.Disturbs`), every
frame stands on the operands it was pushed over, a frame that ends leaves what it
returns on them, and a `^^` in flight is where the instruction has left it, with the
frames down to its home consumed (`disciplined_run`).

## Results

* `upright_step` — a step that disturbs nothing keeps what is to be handed to each activation
  as it should be;
* `disciplined_run` — a run of such steps.
-/

namespace Quoin.Control

open Trans Resumable

variable {T : Sig} {h : Host T} {D : Option FrameId → List (Frame T) → List T.V → Prop}
  {vm : VmState T} {c : Config T}

/-! ## What holds along a run -/

/-- The next step hands a result to code that it disturbs; or it hands a `^^` on its way to a
compiled method to the driver, or to a loop with frames of its own left. The method is between the
`^^` and these, and takes the value. (In debug builds the source asserts so of the driver.) -/
def Config.Disturbs (h : Host T) (c : Config T) : Prop :=
  (∃ r q frames k rest, c.mode = .returning r ∧ c.activations = .waiting q frames k :: rest ∧
    q.Disturbed h frames (c.vm.atDepth rest.length) r) ∨
  c.mode = .returning (.error .nonLocalReturn) ∧ c.vm.nlrTarget.isSome ∧
    (c.activations = [] ∨
      ∃ l rest, c.activations = .loop l :: rest ∧ l.initialFrameCount < c.vm.frames.length)

/-- A frame that ends leaves what it returns on the operands it was pushed over. -/
def Config.Ended (h : Host T) (c : Config T) : Prop :=
  ∀ e f frames, c.mode = .returning (.ok .running) → c.current = some e →
    e.before.frames = f :: frames → e.inst = none ∨ e.inst = some .ret →
    c.vm.skel = frames.map Frame.core ∧ c.vm.stack = f.returns (e.value h) :: f.floor

/-- A `^^` in flight has left the frames and operands as an executed instruction says, the one that
executes if that is it; the unwinding loop apart. -/
def Config.Flies (h : Host T) (c : Config T) : Prop :=
  c.mode = .returning (.error .nonLocalReturn) →
    (∀ target ret home n k rest,
      c.activations ≠ .waiting (.unwind target ret home) n k :: rest) →
    (∃ e ∈ c.executed, Returned h e c.vm.nlrTarget c.vm.skel c.vm.stack) ∧
      ∀ e, c.current = some e → e.inst = some .methodReturn →
        Returned h e c.vm.nlrTarget c.vm.skel c.vm.stack

structure Config.Disciplined (h : Host T) (c : Config T) : Prop where
  grounded : c.mode = .looping → Grounded c.vm.frames c.vm.stack
  ended : c.Ended h
  flies : c.Flies h

/-! ## The invariant -/

/-- What the innermost activation is to be handed. -/
inductive Stands (h : Host T) (D : Option FrameId → List (Frame T) → List T.V → Prop)
    (d : Driver T) : List (Activation T) → (Result T → VmState T → Prop) → Prop where
  | driver {e f frames} : d.executing = some e → e.before.frames = f :: frames →
    Grounded e.before.skel e.before.stack →
    Stands h D d [] (Moved D h e f (frames.map Frame.core))
  | loop {l rest e f frames t g K post} : l.executing = some e → e.before.frames = f :: frames →
    Grounded e.before.skel e.before.stack → f.core :: frames.map Frame.core = t ++ g :: K →
    K.length = l.initialFrameCount → (∀ r vm, Left D K g.floor r vm → post r vm) →
    Stands h D d rest post → Stands h D d (.loop l :: rest) (Moved D h e f (frames.map Frame.core))
  | waiting {q vm k rest post} : q.Fit vm →
    (∀ r vm', (discipline D h).rely q vm r vm' → (k r vm').Sat (discipline D h) post) →
    Stands h D d rest post → Stands h D d (.waiting q (q.frames vm) k :: rest) (q.Yields D vm)

/-- A loop's frame, over the frames that were there when it was entered, is still among the frames
as long as there are more of them. -/
structure Running (D : Option FrameId → List (Frame T) → List T.V → Prop) (n : Nat)
    (post : Result T → VmState T → Prop) (vm : VmState T) : Prop where
  grounded : Grounded vm.skel vm.stack
  done : vm.frames.length ≤ n → ∀ vm', At vm.skel vm.stack vm' → post (.ok .running) vm'
  live : n < vm.frames.length → ∃ t g K, vm.skel = t ++ g :: K ∧ K.length = n ∧
    ∀ r vm', Left D K g.floor r vm' → post r vm'

inductive Upright (h : Host T) (D : Option FrameId → List (Frame T) → List T.V → Prop)
    (c : Config T) : Prop where
  | driver : c.mode = .looping → c.activations = [] → Grounded c.vm.skel c.vm.stack →
    Upright h D c
  | loop {l rest post} : c.mode = .looping → c.activations = .loop l :: rest →
    Running D l.initialFrameCount post c.vm → Stands h D c.driver rest post → Upright h D c
  | performing {q} : c.mode = .performing q → (∀ site n context, q ≠ .nested site n context) →
    Grounded c.vm.skel c.vm.stack → q.Fit c.vm →
    Stands h D c.driver c.activations (q.Yields D c.vm) → Upright h D c
  | returning {r post} : c.mode = .returning r → Stands h D c.driver c.activations post →
    post r c.vm → Upright h D c
  | stopped {r} : c.mode = .stopped r → Upright h D c

theorem upright_settle {post : Result T → VmState T → Prop} {r : Code T (Result T)}
    (hs : Stands h D c.driver c.activations post) (hr : r.Sat (discipline D h) post) :
    Upright h D (c.settle r) := by
  cases r with
  | done r vm => exact .returning rfl hs hr
  | ask q vm k =>
    obtain ⟨⟨hG, hFit⟩, hSat⟩ := hr
    have hWaiting : Stands h D c.driver (.waiting q (q.frames vm) k :: c.activations)
        (q.Yields D vm) := .waiting hFit hSat hs
    cases q with
    | nested site n context =>
      refine .loop rfl rfl ⟨hG, fun hDone vm' hAt => ?_, fun hLive => ?_⟩ hWaiting
      · have hDone : vm.frames.length ≤ n := hDone
        have hSame : n = vm.frames.length := by
          rcases hFit with hFit | hFit <;> omega
        refine ⟨fun _ => hAt, fun g K hSkel hCount => ?_⟩
        have hLength := congrArg List.length hSkel
        rw [VmState.length_skel, List.length_cons] at hLength
        omega
      · have hLive : n < vm.frames.length := hLive
        have hOne : n + 1 = vm.frames.length := by
          rcases hFit with hFit | hFit
          · exact absurd hLive (by omega)
          · exact hFit
        cases hSkel : vm.skel with
        | nil =>
          rw [← VmState.length_skel, hSkel] at hOne
          simp at hOne
        | cons g K =>
          have hCount : n = K.length := by
            rw [← VmState.length_skel, hSkel, List.length_cons] at hOne
            omega
          refine ⟨[], g, K, hSkel, hCount.symm, fun r vm' hLeft => ⟨fun hSame => ?_, ?_⟩⟩
          · omega
          · intro g' K' hSkel' _
            obtain ⟨rfl, rfl⟩ := List.cons.inj (hSkel.symm.trans hSkel')
            exact hLeft
    | call site callee receiver args window => exact .performing rfl (by simp) hG hFit hWaiting
    | unwind target ret home => exact .performing rfl (by simp) hG hFit hWaiting

/-- The frame that executes, at another instruction, is as good as it was. -/
theorem at_of_stands {f g : Frame T} {F t K : List (Frame T)} {i : Nat}
    (hF : f.core :: F = t ++ g :: K) :
    ∃ t' g', f.at i :: F = t' ++ g' :: K ∧ g'.floor = g.floor := by
  cases t with
  | nil =>
    obtain ⟨rfl, rfl⟩ := List.cons.inj hF
    exact ⟨[], f.at i, rfl, rfl⟩
  | cons y t =>
    obtain ⟨-, rfl⟩ := List.cons.inj hF
    exact ⟨f.at i :: t, g, rfl, rfl⟩

/-- The frames of a loop, seen from the instruction that executes. -/
theorem inside_of_stands {f g : Frame T} {F t K : List (Frame T)} {S : List T.V}
    (hF : f.core :: F = t ++ g :: K) (hG : Grounded (f.core :: F) S) :
    g.floor <:+ f.floor ∧ Grounded K g.floor := by
  cases t with
  | nil =>
    obtain ⟨rfl, rfl⟩ := List.cons.inj hF
    exact ⟨List.suffix_refl _, hG.2.2⟩
  | cons y t =>
    obtain ⟨-, rfl⟩ := List.cons.inj hF
    exact ⟨hG.2.2.inside.2.1, hG.2.2.inside.2.2⟩

@[simp] theorem executed_settle {r : Code T (Result T)} :
    (c.settle r).executed = c.executed := by
  cases r with
  | done r vm => rfl
  | ask q vm k => cases q <;> rfl

theorem upright_turn {fetch : Fetch T} {l : Loop T} {rest : List (Activation T)}
    {post : Result T → VmState T → Prop} (hRun : Running D l.initialFrameCount post c.vm)
    (hs : Stands h D c.driver rest post)
    (hProper : ∀ e ∈ (c.turn h fetch l rest).executed, e.Proper h)
    (hD : ∀ e ∈ (c.turn h fetch l rest).executed, ∀ home K S, Returned h e home K S →
      D home K S) :
    Upright h D (c.turn h fetch l rest) := by
  unfold Config.turn at hProper hD ⊢
  split
  · rename_i hDone
    -- the loop is done: its frames are gone
    exact .returning rfl hs (hRun.done hDone _ ⟨rfl, rfl⟩)
  · rename_i hMore
    obtain ⟨t, g, K, hSkel, hCount, hPost⟩ := hRun.live (by omega)
    rw [if_neg hMore] at hProper hD
    split
    · -- the loop is left by a cancellation
      refine .returning rfl hs (hPost _ _ (.inl ⟨?_, ?_⟩))
      · show K <:+ c.vm.skel
        rw [hSkel]
        exact (List.suffix_cons g K).trans (List.suffix_append t _)
      · have hG := hRun.grounded
        rw [hSkel] at hG
        exact hG.inside.2.1
    · rename_i hNotCancelled
      rw [if_neg hNotCancelled] at hProper hD
      split
      · rename_i hNone
        simp [hNone] at hMore
      · rename_i f frames hFrames
        simp only [hFrames] at hProper hD
        -- else the instruction that is fetched is executed
        have hMem : nextInstruction c.vm f (fetch l.cache c.vm f) ∈
            (nextInstruction c.vm f (fetch l.cache c.vm f) :: c.executed) := List.mem_cons_self
        have hF : f.core :: frames.map Frame.core = t ++ g :: K := by
          rw [← hSkel]
          exact (skel_cons hFrames).symm
        unfold Config.dispatch at hProper hD
        rw [executed_settle] at hProper hD
        refine upright_settle ?_ (moved_dispatchOne hFrames hRun.grounded (hProper _ hMem)
          (hD _ hMem))
        exact .loop rfl hFrames hRun.grounded hF hCount hPost hs

theorem upright_driverTurn {fetch : Fetch T} (hActivations : c.activations = [])
    (hG : Grounded c.vm.skel c.vm.stack)
    (hProper : ∀ e ∈ (c.driverTurn h fetch).executed, e.Proper h)
    (hD : ∀ e ∈ (c.driverTurn h fetch).executed, ∀ home K S, Returned h e home K S → D home K S) :
    Upright h D (c.driverTurn h fetch) := by
  unfold Config.driverTurn at hProper hD ⊢
  split
  · exact .stopped rfl
  · rename_i hNotCancelled
    rw [if_neg hNotCancelled] at hProper hD
    split
    · exact .stopped rfl
    · rename_i f frames hFrames
      simp only [hFrames] at hProper hD
      have hMem : nextInstruction c.vm f (fetch c.driver.cache c.vm f) ∈
          (nextInstruction c.vm f (fetch c.driver.cache c.vm f) :: c.executed) :=
        List.mem_cons_self
      unfold Config.dispatch at hProper hD
      rw [executed_settle] at hProper hD
      refine upright_settle ?_ (moved_dispatchOne hFrames hG (hProper _ hMem) (hD _ hMem))
      show Stands h D _ c.activations _
      rw [hActivations]
      exact .driver rfl hFrames hG

/-- A `^^` that has come to frames of a loop has come to the frame it was entered for, or above. -/
theorem landed_running {f g : Frame T} {F t K : List (Frame T)} {S : List T.V}
    (hF : f.core :: F = t ++ g :: K) (hG : Grounded (f.core :: F) S) (hl : Landed (f.core :: F) vm)
    (hCount : K.length ≤ vm.skel.length) :
    Grounded vm.skel vm.stack ∧ ((∃ v, At K (v :: g.floor) vm) ∨
      ∃ t', vm.skel = t' ++ g :: K) := by
  obtain ⟨t', x, v, hK, hStack⟩ := hl
  rw [hK] at hG
  have hGrounded : Grounded vm.skel vm.stack := by
    rw [hStack]
    exact hG.inside.2.2.mono (List.suffix_cons v _)
  refine ⟨hGrounded, ?_⟩
  have hEq : t' ++ x :: vm.skel = t ++ g :: K := hK.symm.trans hF
  rcases List.append_eq_append_iff.mp hEq with ⟨a, rfl, hRest⟩ | ⟨a, rfl, hRest⟩
  · cases a with
    | nil =>
      obtain ⟨rfl, hSkel⟩ := List.cons.inj hRest
      exact .inl ⟨v, hSkel, hStack⟩
    | cons y a =>
      obtain ⟨-, hSkel⟩ := List.cons.inj hRest
      exact .inr ⟨a, hSkel⟩
  · cases a with
    | nil =>
      obtain ⟨rfl, hSkel⟩ := List.cons.inj hRest
      exact .inl ⟨v, hSkel.symm, hStack⟩
    | cons y a =>
      have hSkel : K = a ++ x :: vm.skel := (List.cons.inj hRest).2
      have hLength := congrArg List.length hSkel
      rw [List.length_append, List.length_cons] at hLength
      omega

/-- One that has gone further has consumed frames that were there before the loop. -/
theorem landed_below {t K : List (Frame T)} (hl : Landed (t ++ K) vm)
    (hCount : vm.skel.length < K.length) : Landed K vm := by
  obtain ⟨t', x, v, hK, hStack⟩ := hl
  rcases List.append_eq_append_iff.mp hK with ⟨a, rfl, hRest⟩ | ⟨a, rfl, hRest⟩
  · exact ⟨a, x, v, hRest, hStack⟩
  · cases a with
    | nil => exact ⟨[], x, v, hRest.symm, hStack⟩
    | cons y a =>
      have hSkel : vm.skel = a ++ K := (List.cons.inj hRest).2
      have hLength := congrArg List.length hSkel
      rw [List.length_append] at hLength
      omega

/-- A `^^` to a compiled method that a loop passes on, seen from below the loop. -/
theorem homing_outer {f g : Frame T} {F t K : List (Frame T)} (hF : f.core :: F = t ++ g :: K)
    (hCount : vm.skel.length ≤ K.length)
    (hh : (∃ i, vm.skel = f.at i :: F) ∨ Homing F f.floor vm) : Homing K g.floor vm := by
  have hLength := congrArg List.length hF
  simp only [List.length_append, List.length_cons] at hLength
  rcases hh with ⟨i, hSkel⟩ | ⟨v, L, hStack, hG, hCases⟩
  · -- the loop's own frame is left
    rw [hSkel, List.length_cons] at hCount
    omega
  · refine ⟨v, L, hStack, hG, ?_⟩
    cases t with
    | nil =>
      obtain ⟨rfl, rfl⟩ := List.cons.inj hF
      exact hCases
    | cons y t =>
      have hF : F = t ++ g :: K := (List.cons.inj hF).2
      rcases hCases with ⟨hSame, -⟩ | ⟨t', x, hSplit, hL⟩
      · rw [hF] at hSame
        rw [← hSame, List.length_append, List.length_cons] at hCount
        omega
      · -- the last frame consumed is the loop's, or one that was there before it
        rcases List.append_eq_append_iff.mp (hSplit.symm.trans hF) with
          ⟨a, rfl, hRest⟩ | ⟨a, rfl, hRest⟩
        · cases a with
          | nil =>
            obtain ⟨rfl, hSkel⟩ := List.cons.inj hRest
            exact .inl ⟨hSkel.symm, hL⟩
          | cons z a =>
            have hSkel : vm.skel = a ++ g :: K := (List.cons.inj hRest).2
            rw [hSkel, List.length_append, List.length_cons] at hCount
            omega
        · cases a with
          | nil =>
            obtain ⟨rfl, hSkel⟩ := List.cons.inj hRest
            exact .inl ⟨hSkel, hL⟩
          | cons z a => exact .inr ⟨a, x, (List.cons.inj hRest).2, hL⟩

/-- A fault of an instruction, seen from below its loop. -/
theorem broke_outer {f g : Frame T} {F t K : List (Frame T)} {S : List T.V} {f' : Fault T}
    (hF : f.core :: F = t ++ g :: K) (hG : Grounded (f.core :: F) S)
    (hb : Broke D F f.floor (.fault f') vm) : Broke D K g.floor (.fault f') vm := by
  obtain ⟨hFloor, hBelow⟩ := inside_of_stands hF hG
  have hSuffix : K <:+ F := by
    cases t with
    | nil => exact (List.cons.inj hF).2 ▸ List.suffix_refl _
    | cons y t =>
      rw [(List.cons.inj hF).2]
      exact (List.suffix_cons g K).trans (List.suffix_append t _)
  rcases hb with ⟨hAbove, hStack⟩ | ⟨t', x, F', hF', hLow, hStack⟩
  · exact .inl ⟨hSuffix.trans hAbove, hFloor.trans hStack⟩
  · -- the last frame gone is one of the loop's, or one that was there before it
    cases t with
    | nil =>
      obtain ⟨-, rfl⟩ := List.cons.inj hF
      exact .inr ⟨t', x, F', hF', hLow, hStack⟩
    | cons y t =>
      obtain ⟨-, hRest⟩ := List.cons.inj hF
      have hEq : t' ++ x :: F' = t ++ g :: K := hF'.symm.trans hRest
      have hGF : Grounded (t' ++ x :: F') f.floor := hF' ▸ hG.2.2
      rcases List.append_eq_append_iff.mp hEq with ⟨a, rfl, hTail⟩ | ⟨a, rfl, hTail⟩
      · cases a with
        | nil =>
          obtain ⟨rfl, rfl⟩ := List.cons.inj hTail
          exact broke_of_comparable hBelow hStack (.inr hLow)
        | cons z a =>
          obtain ⟨-, rfl⟩ := List.cons.inj hTail
          have hUnder : g.floor <:+ x.floor := (hGF.inside.2.2).inside.2.1
          have hKF : K <:+ a ++ g :: K := (List.suffix_cons g K).trans (List.suffix_append a _)
          exact broke_of_comparable hBelow (hUnder.trans hStack)
            (List.suffix_or_suffix_of_suffix hKF hLow)
      · cases a with
        | nil =>
          obtain ⟨rfl, rfl⟩ := List.cons.inj hTail
          exact broke_of_comparable hBelow hStack (.inr hLow)
        | cons z a =>
          obtain ⟨-, rfl⟩ := List.cons.inj hTail
          exact .inr ⟨a, x, F', rfl, hLow, hStack⟩

theorem upright_receive {l : Loop T} {rest : List (Activation T)} {r : Result T}
    {post : Result T → VmState T → Prop} (hLoop : c.activations = .loop l :: rest)
    (hMode : c.mode = .returning r) (hCalm : ¬ c.Disturbs h)
    (hs : Stands h D c.driver (.loop l :: rest) post) (hr : post r c.vm) :
    Upright h D (c.receive h l rest r) := by
  cases hs with
  | loop hExecuting hFrames hG hF hCount hPost hs =>
    rename_i e f frames t g K post
    rw [skel_cons hFrames] at hG
    obtain ⟨hFloor, hBelow⟩ := inside_of_stands hF hG
    cases r with
    | ok status =>
      cases status with
      | running =>
        refine .loop rfl hLoop ?_ hs
        rcases hr with ⟨i, -, hTop, hGrounded⟩ | hEnded
        · -- the frame goes on, perhaps with another on top
          obtain ⟨t', g', hAt, hSame⟩ := at_of_stands (i := i) hF
          have hSkel : ∃ t'', c.vm.skel = t'' ++ g' :: K := by
            rcases hTop with hTop | ⟨g'', hTop⟩
            · exact ⟨t', hTop.trans hAt⟩
            · exact ⟨g'' :: t', hTop.trans (congrArg _ hAt)⟩
          obtain ⟨t'', hSkel⟩ := hSkel
          have hLength := congrArg List.length hSkel
          simp only [VmState.length_skel, List.length_append, List.length_cons] at hLength
          refine ⟨hGrounded, fun hDone _ _ => ?_, fun _ => ⟨t'', g', K, hSkel, hCount, ?_⟩⟩
          · have hDone : c.vm.frames.length ≤ l.initialFrameCount := hDone
            omega
          · intro r vm' hLeft
            exact hPost r vm' (hSame ▸ hLeft)
        · -- the frame has ended
          obtain ⟨hSkel, hStack⟩ := hEnded
          have hLength : c.vm.frames.length = frames.length := by
            rw [length_of_eq hSkel, List.length_map]
          refine ⟨?_, fun hDone vm' hAt => ?_, fun hLive => ?_⟩
          · show Grounded c.vm.skel c.vm.stack
            rw [hSkel, hStack]
            exact hG.2.2.mono (List.suffix_cons _ _)
          · have hDone : c.vm.frames.length ≤ l.initialFrameCount := hDone
            cases t with
            | nil =>
              obtain ⟨rfl, hK⟩ := List.cons.inj hF
              exact hPost _ _ ⟨_, hAt.1.trans (hSkel.trans hK), hAt.2.trans hStack⟩
            | cons y t =>
              have hTail : frames.map Frame.core = t ++ g :: K := (List.cons.inj hF).2
              have hLong := congrArg List.length hTail
              simp only [List.length_map, List.length_append, List.length_cons] at hLong
              omega
          · have hLive : l.initialFrameCount < c.vm.frames.length := hLive
            cases t with
            | nil =>
              have hShort := congrArg List.length (List.cons.inj hF).2
              rw [List.length_map] at hShort
              omega
            | cons y t => exact ⟨t, g, K, hSkel.trans (List.cons.inj hF).2, hCount, hPost⟩
      | finished v => exact hr.elim
      | yeeted v =>
        obtain ⟨hEmpty, hStack⟩ := hr
        have hBroke : Broke D K g.floor (.fault (.other (h.uncaught l.context v))) c.vm :=
          broke_of_comparable hBelow (hFloor.trans hStack) (.inr (hEmpty ▸ List.nil_suffix))
        exact .returning rfl hs (hPost _ _ hBroke)
    | error err =>
      cases err with
      | nonLocalReturn =>
        obtain ⟨hHome, hWay, -⟩ := hr
        unfold Config.receive
        dsimp only
        split
        · rename_i hPropagates
          refine .returning rfl hs (hPost _ _ ⟨hHome, ?_⟩)
          rcases hWay with ⟨hNone, hLanded⟩ | ⟨hSome, hHoming⟩
          · have hLess : c.vm.skel.length < K.length := by
              have hLow : decide (c.vm.frames.length < l.initialFrameCount) = true := by
                simpa [nlrMustPropagate, hNone] using hPropagates
              have hLow := of_decide_eq_true hLow
              rw [VmState.length_skel]
              omega
            have hSplit : f.core :: frames.map Frame.core = (t ++ [g]) ++ K := by
              rw [hF, List.append_assoc]
              rfl
            exact .inl ⟨hNone, landed_below (hSplit ▸ hLanded) hLess⟩
          · refine .inr ⟨hSome, homing_outer hF ?_ hHoming⟩
            -- the loop has no frames of its own left
            rw [VmState.length_skel, hCount]
            exact Nat.le_of_not_lt fun hLeft =>
              hCalm (.inr ⟨hMode, hSome, .inr ⟨l, rest, hLoop, hLeft⟩⟩)
        · rename_i hHigh
          have hStays : nlrMustPropagate c.vm l.initialFrameCount = false :=
            Bool.not_eq_true _ ▸ hHigh
          obtain ⟨hNotLow, hNotHoming⟩ := Bool.or_eq_false_iff.mp hStays
          have hEnough : K.length ≤ c.vm.skel.length := by
            have hNot := of_decide_eq_false hNotLow
            rw [VmState.length_skel]
            omega
          have hLanded : Landed (f.core :: frames.map Frame.core) c.vm := by
            rcases hWay with ⟨-, hLanded⟩ | ⟨hSome, -⟩
            · exact hLanded
            · rw [hNotHoming] at hSome
              contradiction
          obtain ⟨hGrounded, hWhere⟩ := landed_running hF hG hLanded hEnough
          refine .loop rfl hLoop ⟨hGrounded, fun hDone vm' hAt => ?_, fun hLive => ?_⟩ hs
          · have hDone : c.vm.frames.length ≤ l.initialFrameCount := hDone
            rcases hWhere with ⟨v, hSkel, hStack⟩ | ⟨t', hSkel⟩
            · exact hPost _ _ ⟨v, hAt.1.trans hSkel, hAt.2.trans hStack⟩
            · have hLength := congrArg List.length hSkel
              simp only [VmState.length_skel, List.length_append, List.length_cons] at hLength
              omega
          · have hLive : l.initialFrameCount < c.vm.frames.length := hLive
            rcases hWhere with ⟨v, hSkel, -⟩ | ⟨t', hSkel⟩
            · have hLength := length_of_eq hSkel
              omega
            · exact ⟨t', g, K, hSkel, hCount, hPost⟩
      | fault f' =>
        have hBroke : Broke D K g.floor (.fault f') c.vm := broke_outer hF hG hr
        exact .returning rfl hs (hPost _ _ hBroke)

theorem upright_driverReceive {budget : Nat → Nat} {r : Result T}
    {post : Result T → VmState T → Prop} (hActivations : c.activations = [])
    (hMode : c.mode = .returning r) (hCalm : ¬ c.Disturbs h)
    (hs : Stands h D c.driver [] post) (hr : post r c.vm) :
    Upright h D (c.driverReceive h budget r) := by
  cases hs with
  | driver hExecuting hFrames hG =>
    rename_i e f frames
    rw [skel_cons hFrames] at hG
    have hLooping (hGrounded : Grounded c.vm.skel c.vm.stack) :
        Upright h D (if budget c.driver.calls ≤ c.driver.steps + 1 then
          { c with
            mode := .looping
            driver := { c.driver with calls := c.driver.calls + 1, steps := 0, cache := none } }
        else
          { c with
            mode := .looping, driver := { c.driver with steps := c.driver.steps + 1 } }) := by
      -- the driver only counts its steps
      split <;> exact .driver rfl hActivations hGrounded
    cases r with
    | ok status =>
      cases status with
      | running =>
        refine hLooping ?_
        rcases hr with ⟨i, -, -, hGrounded⟩ | ⟨hSkel, hStack⟩
        · exact hGrounded
        · rw [hSkel, hStack]
          exact hG.2.2.mono (List.suffix_cons _ _)
      -- a task that has ended is not run any more
      | finished v => exact .stopped rfl
      | yeeted v => exact .stopped rfl
    | error err =>
      cases err with
      | nonLocalReturn =>
        refine hLooping ?_
        obtain ⟨-, hWay, -⟩ := hr
        -- the `^^` has landed in a frame of the driver, or it is on its way to a compiled method
        obtain ⟨t, x, v, hK, hStack⟩ : Landed (f.core :: frames.map Frame.core) c.vm := by
          rcases hWay with ⟨-, hLanded⟩ | ⟨hSome, -⟩
          · exact hLanded
          · exact absurd (.inr ⟨hMode, hSome, .inl hActivations⟩) hCalm
        rw [hK] at hG
        rw [hStack]
        exact hG.inside.2.2.mono (List.suffix_cons v _)
      | fault f' => exact .stopped rfl

theorem fit_atDepth {q : Request T} {depth : Nat} : q.Fit (vm.atDepth depth) ↔ q.Fit vm := by
  cases q with
  | call site callee receiver args window => cases window <;> exact Iff.rfl
  | _ => exact Iff.rfl

theorem yields_of_atDepth {q : Request T} {depth : Nat} :
    q.Yields D (vm.atDepth depth) = q.Yields D vm := by
  cases q with
  | call site callee receiver args window => cases window <;> rfl
  | _ => rfl

theorem yields_atDepth {q : Request T} {before : VmState T} {r : Result T} {depth : Nat} :
    q.Yields D before r (vm.atDepth depth) ↔ q.Yields D before r vm := by
  cases q <;> cases r with
  | ok status => exact Iff.rfl
  | error e => cases e <;> exact Iff.rfl

/-- A step that disturbs nothing. -/
theorem upright_step {fetch : Fetch T} {budget : Nat → Nat} {others : Others T}
    (hu : Upright h D c) (hCalm : ¬ c.Disturbs h)
    (hProper : ∀ e ∈ (c.step h fetch budget others).executed, e.Proper h)
    (hD : ∀ e ∈ (c.step h fetch budget others).executed, ∀ home K S, Returned h e home K S →
      D home K S) :
    Upright h D (c.step h fetch budget others) := by
  unfold Config.step at hProper hD ⊢
  cases hu with
  | driver hMode hActivations hG =>
    rw [hMode, hActivations] at hProper hD ⊢
    -- the next instruction of the driver, or of a loop, is proper by hypothesis
    exact upright_driverTurn hActivations hG hProper hD
  | loop hMode hActivations hRun hs =>
    rw [hMode, hActivations] at hProper hD ⊢
    exact upright_turn ⟨hRun.grounded, hRun.done, hRun.live⟩ hs hProper hD
  | performing hMode hq hG hFit hs =>
    -- what native code asks for yields what is written in its contract
    rw [hMode]
    rename_i q
    have hPerform : wp (discipline D h) (perform h q) (q.Yields D c.vm)
        (c.vm.atDepth c.activations.length) := by
      rw [← yields_of_atDepth]
      exact yields_perform hq hG (fit_atDepth.mpr hFit)
    exact upright_settle hs hPerform
  | returning hMode hs hr =>
    rw [hMode] at hProper hD ⊢
    -- a result goes to the driver, a loop or native code that waits; it disturbs none of them
    cases hActivations : c.activations with
    | nil =>
      rw [hActivations] at hs
      exact upright_driverReceive hActivations hMode hCalm hs hr
    | cons a rest =>
      rw [hActivations] at hs
      cases a with
      | loop l => exact upright_receive hActivations hMode hCalm hs hr
      | waiting q frames k =>
        cases hs with
        | waiting hFit hSat hs =>
          refine upright_settle (c := { c with activations := rest }) hs
            (hSat _ _ ⟨yields_atDepth.mpr hr, fun hDisturbed => ?_⟩)
          exact hCalm (.inl ⟨_, q, _, k, rest, hMode, hActivations, hDisturbed⟩)
  | stopped hMode =>
    rw [hMode]
    exact .stopped hMode

/-! ## Runs -/

theorem executed_step {fetch : Fetch T} {budget : Nat → Nat} {others : Others T} :
    c.executed <:+ (c.step h fetch budget others).executed := by
  -- a turn executes one instruction, if it executes any
  have hTurn {l : Loop T} {rest : List (Activation T)} {c : Config T} :
      c.executed <:+ (c.turn h fetch l rest).executed := by
    unfold Config.turn Config.dispatch
    split
    · exact List.suffix_refl _
    · split
      · exact List.suffix_refl _
      · split
        · exact List.suffix_refl _
        · rw [executed_settle]
          exact List.suffix_cons _ _
  have hDriverTurn {c : Config T} : c.executed <:+ (c.driverTurn h fetch).executed := by
    unfold Config.driverTurn Config.dispatch
    split
    · exact List.suffix_refl _
    · split
      · exact List.suffix_refl _
      · rw [executed_settle]
        exact List.suffix_cons _ _
  -- taking a result executes none
  have hReceive {l : Loop T} {rest : List (Activation T)} {r : Result T} :
      (c.receive h l rest r).executed = c.executed := by
    unfold Config.receive
    split
    · rfl
    · split <;> rfl
    · rfl
    · rfl
    · rfl
  have hDriverReceive {r : Result T} : (c.driverReceive h budget r).executed = c.executed := by
    unfold Config.driverReceive
    split
    · split <;> rfl
    · split <;> rfl
    · rfl
    · rfl
  unfold Config.step
  split
  · exact hTurn (c := c.resumed others)
  · exact hDriverTurn (c := c.resumed others)
  · exact List.suffix_refl _
  · rw [executed_settle]
  · rw [hReceive]
  · rw [executed_settle]
  · rw [hDriverReceive]
  · exact List.suffix_refl _

theorem batched_succ {budget : Nat → Nat} {others : Others T} {n : Nat} :
    c.batched h budget others (n + 1) =
      (c.batched h budget others n).step h hoisted budget others :=
  Function.iterate_succ_apply' _ _ _

theorem executed_batched {budget : Nat → Nat} {others : Others T} {m n : Nat} (hmn : m ≤ n) :
    (c.batched h budget others m).executed <:+ (c.batched h budget others n).executed := by
  induction n, hmn using Nat.le_induction with
  | base => exact List.suffix_refl _
  | succ n hmn ih =>
    rw [batched_succ]
    exact ih.trans executed_step

/-- What is known of the state where what is to be handed is as it should be. -/
theorem Upright.disciplined (hu : Upright h D c)
    (hD : ∀ home K S, D home K S → ∃ e ∈ c.executed, Returned h e home K S) :
    c.Disciplined h := by
  refine ⟨fun hLooping => ?_, ?_, ?_⟩
  · rw [← grounded_core]
    cases hu with
    | driver hMode hActivations hG => exact hG
    | loop hMode hActivations hRun hs => exact hRun.grounded
    | performing hMode | returning hMode | stopped hMode =>
      rw [hMode] at hLooping
      contradiction
  · intro e f frames hReturning hCurrent hFrames hInst
    cases hu with
    | returning hMode hs hr =>
      rw [hReturning] at hMode
      injection hMode with hMode
      subst hMode
      -- the instruction that has ended its frame has not moved it
      have hEnd {e' : Executing T} {f' : Frame T} {frames' : List (Frame T)}
          (hEq : some e' = some e) (hFrames' : e'.before.frames = f' :: frames')
          (hMoved : Moved D h e' f' (frames'.map Frame.core) (.ok .running) c.vm) :
          c.vm.skel = frames.map Frame.core ∧ c.vm.stack = f.returns (e.value h) :: f.floor := by
        obtain rfl := Option.some.inj hEq
        obtain ⟨rfl, rfl⟩ := List.cons.inj (hFrames'.symm.trans hFrames)
        rcases hMoved with ⟨i, hNext, -⟩ | hEnded
        · rcases hInst with hInst | hInst
          · rw [hInst] at hNext
            exact hNext.elim
          · rw [hInst] at hNext
            exact hNext.elim
        · exact hEnded
      unfold Config.current at hCurrent
      generalize c.activations = activations at hs hCurrent
      cases hs with
      | driver hExecuting hFrames' hG =>
        exact hEnd (hExecuting.symm.trans hCurrent) hFrames' hr
      | loop hExecuting hFrames' hG hF hCount hPost hs =>
        exact hEnd (hExecuting.symm.trans hCurrent) hFrames' hr
      | waiting hFit hSat hs => contradiction
    | driver hMode | loop hMode | performing hMode | stopped hMode =>
      rw [hMode] at hReturning
      contradiction
  · intro hReturning hNotUnwinding
    cases hu with
    | returning hMode hs hr =>
      rw [hReturning] at hMode
      injection hMode with hMode
      subst hMode
      have hCurrent : ∀ e, c.current = some e → e.inst = some .methodReturn →
          Returned h e c.vm.nlrTarget c.vm.skel c.vm.stack := by
        intro e hCurrent hInst
        have hEnd {e' : Executing T} {f' : Frame T} {F : List (Frame T)}
            (hEq : some e' = some e) (hMoved : Moved D h e' f' F (.error .nonLocalReturn) c.vm) :
            Returned h e c.vm.nlrTarget c.vm.skel c.vm.stack := by
          obtain rfl := Option.some.inj hEq
          exact hMoved.2.2 hInst
        unfold Config.current at hCurrent
        generalize c.activations = activations at hs hCurrent
        cases hs with
        | driver hExecuting hFrames' hG => exact hEnd (hExecuting.symm.trans hCurrent) hr
        | loop hExecuting hFrames' hG hF hCount hPost hs =>
          exact hEnd (hExecuting.symm.trans hCurrent) hr
        | waiting hFit hSat hs => contradiction
      refine ⟨?_, hCurrent⟩
      generalize c.activations = activations at hs hNotUnwinding
      cases hs with
      | driver hExecuting hFrames' hG => exact hD _ _ _ hr.1
      | loop hExecuting hFrames' hG hF hCount hPost hs => exact hD _ _ _ hr.1
      | waiting hFit hSat hs =>
        rename_i q vm k rest post
        cases q with
        | nested site n context =>
          rcases hFit with hSame | hOne
          · exact hD _ _ _ (hr.1 hSame).1
          · cases hSkel : vm.skel with
            | nil =>
              rw [← VmState.length_skel, hSkel] at hOne
              simp at hOne
            | cons g K =>
              have hCount : n = K.length := by
                rw [← VmState.length_skel, hSkel, List.length_cons] at hOne
                omega
              exact hD _ _ _ (hr.2 g K hSkel hCount).1
        | call site callee receiver args window => exact hD _ _ _ hr.1
        | unwind target ret home => exact absurd rfl (hNotUnwinding target ret home _ k rest)
    | driver hMode | loop hMode | performing hMode | stopped hMode =>
      rw [hMode] at hReturning
      contradiction

/-- A run in which nothing is disturbed, and the instructions find their operands. -/
theorem disciplined_run {budget : Nat → Nat} {others : Others T} {n : Nat} (hc : c.Fresh)
    (hG : Grounded c.vm.frames c.vm.stack)
    (hCalm : ∀ m < n, ¬ (c.batched h budget others m).Disturbs h)
    (hProper : ∀ e ∈ (c.batched h budget others n).executed, e.Proper h) :
    (c.batched h budget others n).Disciplined h := by
  -- where some `^^` of the whole run has left the frames and operands
  let D : Option FrameId → List (Frame T) → List T.V → Prop := fun home K S =>
    ∃ e ∈ (c.batched h budget others n).executed, Returned h e home K S
  have hRun : ∀ m ≤ n, Upright h D (c.batched h budget others m) := by
    intro m hm
    induction m with
    | zero => exact .driver hc.mode hc.activations (grounded_core.mpr hG)
    | succ m ih =>
      have hExecuted : (c.batched h budget others (m + 1)).executed <:+
          (c.batched h budget others n).executed := executed_batched hm
      rw [batched_succ] at hExecuted ⊢
      refine upright_step (ih (by omega)) (hCalm m (by omega)) (fun e he => ?_)
        fun e he home K S hR => ?_
      · exact hProper e (hExecuted.subset he)
      · exact ⟨e, hExecuted.subset he, hR⟩
  exact (hRun n (Nat.le_refl n)).disciplined fun home K S hD => hD

end Quoin.Control
