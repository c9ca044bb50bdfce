import Mathlib
import Quoin.Control.Kept

/-!
# Quoin — batched dispatch and single stepping

A loop takes bytecode anew only when the number of frames has changed. That number
alone does not tell the frames apart; but an instruction that leaves as many frames
as it found leaves its own on top, as long as nothing goes on over frames that are
not those it was called over. So in a run that does not stray, the bytecode a loop
holds is that of the top frame wherever it uses it, and batches of any size, and
nested runs, execute what single stepping does (`batched_dispatch`).

A `catch:` that catches a `^^` is what goes wrong: a native method above it goes on
over fewer frames, a block it runs leaves its frames behind with an error, and an
outer `catch:` finds as many frames as it was called over, but not the same
(`batched_dispatch_strays`).

## Results

* `batched_dispatch` — batched dispatch and single stepping do the same, as long as the run does
  not stray;
* `batched_dispatch_strays` — a run that strays, and in which they differ.
-/

namespace Quoin.Control

open Trans Resumable

variable {T : Sig} {h : Host T} {vm : VmState T} {c : Config T}

/-! ## What is compared -/

/-- Without the locals that only batching has. -/
def Activation.erase : Activation T → Activation T
  | .loop l => .loop { l with cache := none }
  | a => a

def Driver.erase (d : Driver T) : Driver T := { d with calls := 0, steps := 0, cache := none }

def Config.erase (c : Config T) : Config T :=
  { c with activations := c.activations.map Activation.erase, driver := c.driver.erase }

/-- A task the driver is about to call `run_dispatch` for. -/
structure Config.Fresh (c : Config T) : Prop where
  activations : c.activations = []
  mode : c.mode = .looping
  cache : c.driver.cache = none

/-- The bytecode the innermost loop would execute from is the top frame's. -/
def Config.Hoists (c : Config T) : Prop :=
  ∀ f frames, c.mode = .looping → c.vm.frames = f :: frames →
    (∀ l rest, c.activations = .loop l :: rest → hoisted l.cache c.vm f = f.block.bytecode) ∧
    (c.activations = [] → hoisted c.driver.cache c.vm f = f.block.bytecode)

/-- When an instruction completes, the frame that executed it, if it is still there, is where it
was, at its next instruction. -/
def Config.StoresIp (c : Config T) : Prop :=
  ∀ e f F g, c.mode = .returning (.ok .running) → c.current = some e → e.before.frames = f :: F →
    c.vm.frames.reverse[F.length]? = some g → g.id = f.id ∧ Next f.ip g.ip e.inst

/-! ## The invariant -/

/-- The bytecode held is the top frame's, if the number of frames is the one held with it. -/
def CacheOk (cache : Cache T) (vm : VmState T) : Prop :=
  ∀ f frames, vm.frames = f :: frames → hoisted cache vm f = f.block.bytecode

/-- What the innermost activation is to be handed: what the code it waits for leaves. A loop holds
the bytecode of the frame that executes. -/
inductive Awaits (h : Host T) (d : Driver T) :
    List (Activation T) → (Result T → VmState T → Prop) → Prop where
  | driver {f F before inst} : d.cache = some (F.length + 1, f.block.bytecode) →
    d.executing = some ⟨before, inst⟩ → before.skel = f.core :: F →
    Awaits h d [] (Advanced inst f F)
  | loop {l rest f F K before inst} : l.cache = some (F.length + 1, f.block.bytecode) →
    l.executing = some ⟨before, inst⟩ → before.skel = f.core :: F → K <:+ F →
    K.length = l.initialFrameCount → Awaits h d rest (Kept K) →
    Awaits h d (.loop l :: rest) (Advanced inst f F)
  | waiting {q vm k rest post} :
    (∀ r vm', (contract h).rely q vm r vm' → (k r vm').Sat (contract h) post) →
    Awaits h d rest post → Awaits h d (.waiting q (q.frames vm) k :: rest) (q.Leaves vm)

inductive Sound (h : Host T) (c : Config T) : Prop where
  | driver : c.mode = .looping → c.activations = [] → CacheOk c.driver.cache c.vm → Sound h c
  | loop {l rest K} : c.mode = .looping → c.activations = .loop l :: rest → K <:+ c.vm.skel →
    K.length = l.initialFrameCount → CacheOk l.cache c.vm → Awaits h c.driver rest (Kept K) →
    Sound h c
  | performing {q} : c.mode = .performing q → (∀ site n context, q ≠ .nested site n context) →
    Awaits h c.driver c.activations (q.Leaves c.vm) → Sound h c
  | returning {r post} : c.mode = .returning r → Awaits h c.driver c.activations post →
    post r c.vm → Sound h c
  | stopped {r} : c.mode = .stopped r → Sound h c

theorem cacheOk_none : CacheOk none vm := fun _ _ _ => rfl

theorem cacheOk_of_length {n : Nat} {bytecode : Bytecode T} (hn : vm.frames.length ≠ n) :
    CacheOk (some (n, bytecode)) vm := fun _ _ _ => if_neg hn

/-- With fewer frames, the loop takes the bytecode anew. -/
theorem cacheOk_of_suffix {F : List (Frame T)} {bytecode : Bytecode T} (hSuffix : vm.skel <:+ F) :
    CacheOk (some (F.length + 1, bytecode)) vm := by
  apply cacheOk_of_length
  have := hSuffix.length_le
  rw [VmState.length_skel] at this
  omega

/-- The frame that has executed is on top. -/
theorem cacheOk_of_top {f : Frame T} {F : List (Frame T)} {ip : Nat}
    (hTop : vm.skel = f.at ip :: F) : CacheOk (some (F.length + 1, f.block.bytecode)) vm := by
  intro g frames hFrames
  show (if vm.frames.length = F.length + 1 then f.block.bytecode else g.block.bytecode) = _
  have hSkel : g.core :: frames.map Frame.core = f.at ip :: F := by
    rw [← hTop, VmState.skel, hFrames, List.map_cons]
  have hBlock : g.core.block = (f.at ip).block := congrArg Frame.block (List.cons.inj hSkel).1
  have hCount : vm.frames.length = F.length + 1 := length_of_eq hTop
  rw [if_pos hCount]
  exact (congrArg Block.bytecode hBlock).symm

/-- What a `^^` has left of the frames has the frame that executed on top, or is less. -/
theorem cacheOk_of_left {f : Frame T} {F : List (Frame T)} {ip : Nat}
    (hLeft : vm.skel <:+ f.at ip :: F) : CacheOk (some (F.length + 1, f.block.bytecode)) vm := by
  rcases List.suffix_cons_iff.mp hLeft with hTop | hSuffix
  · exact cacheOk_of_top hTop
  · exact cacheOk_of_suffix hSuffix

/-- After an instruction, as many frames as before means that its own is on top. -/
theorem cacheOk_of_running {inst : Option (Instruction T)} {f : Frame T} {F : List (Frame T)}
    (ha : Advanced inst f F (.ok .running) vm) :
    CacheOk (some (F.length + 1, f.block.bytecode)) vm := by
  rcases ha with ⟨ip, -, hTop | ⟨g, hTop⟩⟩ | hPopped
  · exact cacheOk_of_top hTop
  · apply cacheOk_of_length
    rw [length_of_eq hTop]
    simp
  · exact cacheOk_of_suffix (suffix_of_eq hPopped)

theorem sound_settle {post : Result T → VmState T → Prop}
    {r : Resume (Request T) (Result T) (VmState T) (Result T)}
    (ha : Awaits h c.driver c.activations post) (hr : r.Sat (contract h) post) :
    Sound h (c.settle r) := by
  cases r with
  | done r vm => exact .returning rfl ha hr
  | ask q vm k =>
    obtain ⟨hFit, hSat⟩ := hr
    have hWaiting : Awaits h c.driver (.waiting q (q.frames vm) k :: c.activations) (q.Leaves vm) :=
      .waiting hSat ha
    cases q with
    | nested site n context =>
      have hBelow : (vm.below n).map Frame.core <:+ vm.skel := by
        rw [VmState.below_skel]
        exact List.drop_suffix _ _
      have hCount : ((vm.below n).map Frame.core).length = n := by
        have hFit : n ≤ vm.frames.length := hFit
        rw [VmState.below_skel, List.length_drop, VmState.length_skel]
        omega
      exact .loop rfl rfl hBelow hCount cacheOk_none hWaiting
    | call site callee receiver args window => exact .performing rfl (by simp) hWaiting
    | unwind target ret home => exact .performing rfl (by simp) hWaiting

theorem leaves_atDepth {q : Request T} {before : VmState T} {r : Result T} {depth : Nat} :
    q.Leaves before r (vm.atDepth depth) ↔ q.Leaves before r vm := by
  cases q <;> cases r with
  | ok status => exact Iff.rfl
  | error e => cases e <;> exact Iff.rfl

theorem atDepth_leaves {q : Request T} {depth : Nat} :
    q.Leaves (vm.atDepth depth) = q.Leaves vm := by cases q <;> rfl

theorem sound_turn {l : Loop T} {rest : List (Activation T)} {K : List (Frame T)}
    (hSuffix : K <:+ c.vm.skel) (hCount : K.length = l.initialFrameCount)
    (hCache : CacheOk l.cache c.vm) (ha : Awaits h c.driver rest (Kept K)) :
    Sound h (c.turn h hoisted l rest) := by
  unfold Config.turn
  split
  · rename_i hDone
    have hEq : K = c.vm.skel :=
      hSuffix.eq_of_length (by have := hSuffix.length_le; rw [VmState.length_skel] at *; omega)
    exact .returning rfl ha hEq.symm
  · rename_i hMore
    split
    · exact .returning rfl ha (.inl hSuffix)
    · split
      · rename_i hFrames
        simp [hFrames] at hMore
      · rename_i f frames hFrames
        have hSkel := skel_cons hFrames
        have hBelow : K <:+ frames.map Frame.core := by
          rw [hSkel] at hSuffix
          rcases List.suffix_cons_iff.mp hSuffix with hEq | hSuffix
          · have hLength : K.length = frames.length + 1 := by rw [hEq]; simp
            rw [hFrames, List.length_cons] at hMore
            omega
          · exact hSuffix
        have hFetch : hoisted l.cache c.vm f = f.block.bytecode := hCache f frames hFrames
        have hLength : c.vm.frames.length = (frames.map Frame.core).length + 1 := by
          simp [hFrames]
        rw [hFetch]
        refine sound_settle ?_ (advanced_dispatchOne (by exact hSkel))
        exact .loop (by simp [hLength]) rfl hSkel hBelow hCount ha

theorem sound_driverTurn (hMode : c.activations = []) (hCache : CacheOk c.driver.cache c.vm) :
    Sound h (c.driverTurn h hoisted) := by
  unfold Config.driverTurn
  split
  · exact .stopped rfl
  · split
    · exact .stopped rfl
    · rename_i f frames hFrames
      have hFetch : hoisted c.driver.cache c.vm f = f.block.bytecode := hCache f frames hFrames
      have hLength : c.vm.frames.length = (frames.map Frame.core).length + 1 := by
        simp [hFrames]
      rw [hFetch]
      have hSkel := skel_cons hFrames
      refine sound_settle ?_ (advanced_dispatchOne (by exact hSkel))
      show Awaits h _ c.activations _
      rw [hMode]
      exact .driver (by simp [hLength]) rfl hSkel

theorem sound_receive {l : Loop T} {rest : List (Activation T)} {r : Result T}
    {post : Result T → VmState T → Prop} (hLoop : c.activations = .loop l :: rest)
    (ha : Awaits h c.driver (.loop l :: rest) post) (hr : post r c.vm) :
    Sound h (c.receive h l rest r) := by
  cases ha with
  | loop hCache hExecuting hBefore hBelow hCount ha =>
    rename_i f F K before inst
    -- by what the loop gets: its frame goes on, or `^^`, or an error
    cases r with
    | ok status =>
      cases status with
      | running =>
        have hSuffix : K <:+ c.vm.skel := by
          rcases hr with ⟨ip, -, hTop | ⟨g, hTop⟩⟩ | hPopped
          · exact hTop ▸ hBelow.trans (List.suffix_cons _ _)
          · exact hTop ▸ (hBelow.trans (List.suffix_cons _ _)).trans (List.suffix_cons _ _)
          · exact hPopped ▸ hBelow
        exact .loop rfl hLoop hSuffix hCount (hCache ▸ cacheOk_of_running hr) ha
      | finished v => exact hr.elim
      | yeeted v =>
        have hEmpty : c.vm.skel = [] := hr
        exact .returning rfl ha (.inr (hEmpty ▸ List.nil_suffix))
    | error e =>
      cases e with
      | nonLocalReturn =>
        have hBoth : K <:+ c.vm.skel ∨ c.vm.skel <:+ K := by
          rcases hr with ⟨ip, hLeft⟩ | ⟨-, hAbove⟩
          · exact List.suffix_or_suffix_of_suffix (hBelow.trans (List.suffix_cons _ _)) hLeft
          · exact .inl (hBelow.trans hAbove)
        unfold Config.receive
        dsimp only
        -- handed on to what the loop runs in, or taken by it
        split
        · rename_i hPropagate
          refine .returning rfl ha ?_
          rcases hBoth with hAbove | hSuffix
          · -- frames of the loop's caller are gone, or the home is compiled
            rcases (Bool.or_eq_true_iff.mp hPropagate) with hLow | hTarget
            · have hLow := of_decide_eq_true hLow
              have hLength := hAbove.length_le
              rw [VmState.length_skel] at hLength
              omega
            · exact .inr ⟨hTarget, hAbove⟩
          · exact .inl hSuffix
        · rename_i hAbsorb
          obtain ⟨hHigh, hNone⟩ := Bool.or_eq_false_iff.mp (Bool.not_eq_true _ ▸ hAbsorb)
          have hHigh := of_decide_eq_false hHigh
          have hKept : K <:+ c.vm.skel := by
            rcases hBoth with hAbove | hSuffix
            · exact hAbove
            · have hLength : K.length ≤ c.vm.skel.length := by
                rw [VmState.length_skel, hCount]
                omega
              exact hSuffix.eq_of_length_le hLength ▸ List.suffix_refl _
          rcases hr with ⟨ip, hLeft⟩ | ⟨hTarget, -⟩
          · exact .loop rfl hLoop hKept hCount (hCache ▸ cacheOk_of_left hLeft) ha
          · rw [hTarget] at hNone
            contradiction
      | fault f' =>
        refine .returning rfl ha ?_
        rcases hr with hAbove | hSuffix
        · exact .inl (hBelow.trans hAbove)
        · exact List.suffix_or_suffix_of_suffix hBelow hSuffix

theorem sound_driverReceive {budget : Nat → Nat} {r : Result T}
    {post : Result T → VmState T → Prop} (hDriver : c.activations = [])
    (ha : Awaits h c.driver [] post) (hr : post r c.vm)
    (hHome : r = .error .nonLocalReturn → ¬ c.vm.nlrTarget.isSome) :
    Sound h (c.driverReceive h budget r) := by
  cases ha with
  | driver hCache hExecuting hBefore =>
    have hLooping (hRunning : CacheOk c.driver.cache c.vm) :
        Sound h (if budget c.driver.calls ≤ c.driver.steps + 1 then
          { c with
            mode := .looping
            driver := { c.driver with calls := c.driver.calls + 1, steps := 0, cache := none } }
        else
          { c with
            mode := .looping, driver := { c.driver with steps := c.driver.steps + 1 } }) := by
      split
      · exact .driver rfl hDriver cacheOk_none
      · exact .driver rfl hDriver hRunning
    cases r with
    | ok status =>
      cases status with
      | running => exact hLooping (hCache ▸ cacheOk_of_running hr)
      | finished v => exact .stopped rfl
      | yeeted v => exact .stopped rfl
    | error e =>
      cases e with
      | nonLocalReturn =>
        rcases hr with ⟨ip, hLeft⟩ | ⟨hTarget, -⟩
        · exact hLooping (hCache ▸ cacheOk_of_left hLeft)
        · exact absurd hTarget (hHome rfl)
      | fault f => exact .stopped rfl

/-- A step that does not stray. -/
theorem sound_step {budget : Nat → Nat} {others : Others T} (hs : Sound h c)
    (hStep : ¬ c.Strays h) : Sound h (c.step h hoisted budget others) := by
  unfold Config.step
  cases hs with
  | driver hMode hActivations hCache =>
    rw [hMode, hActivations]
    exact sound_driverTurn hActivations hCache
  | loop hMode hActivations hSuffix hCount hCache ha =>
    rw [hMode, hActivations]
    exact sound_turn hSuffix hCount hCache ha
  | performing hMode hq ha =>
    rw [hMode]
    have hPerform : wp (contract h) (perform h _) _ (c.vm.atDepth c.activations.length) :=
      leaves_perform hq
    rw [atDepth_leaves] at hPerform
    exact sound_settle ha hPerform
  | returning hMode ha hr =>
    rw [hMode]
    cases hActivations : c.activations with
    | nil =>
      rw [hActivations] at ha
      refine sound_driverReceive hActivations ha hr ?_
      rintro rfl hTarget
      exact hStep (.inr ⟨hMode, hActivations, hTarget⟩)
    | cons a rest =>
      rw [hActivations] at ha
      cases a with
      | loop l => exact sound_receive hActivations ha hr
      | waiting q frames k =>
        cases ha with
        | waiting hSat ha =>
          refine sound_settle (c := { c with activations := rest }) ha
            (hSat _ _ ⟨leaves_atDepth.mpr hr, ?_⟩)
          rintro e rfl hStrays
          exact hStep (.inl ⟨e, q, _, k, rest, hMode, hActivations, strays_atDepth.mp hStrays⟩)
  | stopped hMode =>
    rw [hMode]
    exact .stopped hMode

/-! ## Runs -/

theorem Sound.hoists (hs : Sound h c) : c.Hoists := by
  intro f frames hLooping hFrames
  cases hs with
  | driver hMode hActivations hCache =>
    refine ⟨fun l rest hLoop => ?_, fun _ => hCache f frames hFrames⟩
    rw [hActivations] at hLoop
    contradiction
  | loop hMode hActivations hSuffix hCount hCache ha =>
    refine ⟨fun l' rest' hLoop => ?_, fun hDriver => ?_⟩
    · rw [hActivations] at hLoop
      obtain ⟨hEq, -⟩ := List.cons.inj hLoop
      injection hEq with hEq
      exact hEq ▸ hCache f frames hFrames
    · rw [hActivations] at hDriver
      contradiction
  | performing hMode hq ha =>
    rw [hMode] at hLooping
    contradiction
  | returning hMode ha hr =>
    rw [hMode] at hLooping
    contradiction
  | stopped hMode =>
    rw [hMode] at hLooping
    contradiction

/-- Where an instruction that completes leaves its own frame. -/
theorem next_of_running {inst : Option (Instruction T)} {f g : Frame T} {F : List (Frame T)}
    (ha : Advanced inst f F (.ok .running) vm) (hg : vm.frames.reverse[F.length]? = some g) :
    g.id = f.id ∧ Next f.ip g.ip inst := by
  have hSkel : vm.skel.reverse[F.length]? = some g.core := by
    rw [VmState.skel, ← List.map_reverse, List.getElem?_map, hg]
    rfl
  have hAt {ip : Nat} (hEq : some (f.at ip) = some g.core) (hIp : Next f.ip ip inst) :
      g.id = f.id ∧ Next f.ip g.ip inst := by
    have hCore : f.at ip = g.core := Option.some.inj hEq
    have hId : (f.at ip).id = g.core.id := congrArg Frame.id hCore
    have hIpEq : (f.at ip).ip = g.core.ip := congrArg Frame.ip hCore
    exact ⟨hId.symm, (show ip = g.ip from hIpEq) ▸ hIp⟩
  rcases ha with ⟨ip, hIp, hTop | ⟨g', hTop⟩⟩ | hPopped
  · refine hAt ?_ hIp
    rw [← hSkel, hTop]
    simp
  · refine hAt ?_ hIp
    rw [← hSkel, hTop]
    simp
  · rw [hPopped] at hSkel
    simp at hSkel

theorem next_of_executed {before : VmState T} {inst : Option (Instruction T)} {f f' g : Frame T}
    {F frames : List (Frame T)} (hBefore : before.skel = f'.core :: F)
    (hSkel : before.skel = f.core :: frames.map Frame.core)
    (ha : Advanced inst f' F (.ok .running) vm) (hg : vm.frames.reverse[frames.length]? = some g) :
    g.id = f.id ∧ Next f.ip g.ip inst := by
  obtain ⟨hCore, hF⟩ := List.cons.inj (hBefore.symm.trans hSkel)
  have hId : f'.core.id = f.core.id := congrArg Frame.id hCore
  have hIp : f'.core.ip = f.core.ip := congrArg Frame.ip hCore
  have hCount : F.length = frames.length := by rw [hF, List.length_map]
  rw [← hCount] at hg
  exact hId ▸ hIp ▸ next_of_running ha hg

theorem Sound.storesIp (hs : Sound h c) : c.StoresIp := by
  intro e f F g hReturning hCurrent hFrames hg
  have hSkel := skel_cons hFrames
  cases hs with
  | returning hMode ha hr =>
    rw [hReturning] at hMode
    injection hMode with hMode
    subst hMode
    unfold Config.current at hCurrent
    generalize c.activations = activations at ha hCurrent
    cases ha with
    | driver hCache hExecuting hBefore =>
      have hEq := Option.some.inj (hExecuting.symm.trans hCurrent)
      subst hEq
      exact next_of_executed hBefore hSkel hr hg
    | loop hCache hExecuting hBefore hBelow hCount ha =>
      have hEq := Option.some.inj (hExecuting.symm.trans hCurrent)
      subst hEq
      exact next_of_executed hBefore hSkel hr hg
    | waiting hSat ha => contradiction
  | driver hMode =>
    rw [hMode] at hReturning
    contradiction
  | loop hMode =>
    rw [hMode] at hReturning
    contradiction
  | performing hMode =>
    rw [hMode] at hReturning
    contradiction
  | stopped hMode =>
    rw [hMode] at hReturning
    contradiction

theorem driverTurn_hoisted (hCache : CacheOk c.driver.cache c.vm) :
    c.driverTurn h hoisted = c.driverTurn h refetched := by
  unfold Config.driverTurn
  split
  · rfl
  · split
    · rfl
    · rename_i f frames hFrames
      dsimp only
      rw [hCache f frames hFrames]
      rfl

theorem turn_hoisted {l : Loop T} {rest : List (Activation T)} (hCache : CacheOk l.cache c.vm) :
    c.turn h hoisted l rest = c.turn h refetched l rest := by
  unfold Config.turn
  split
  · rfl
  · split
    · rfl
    · split
      · rfl
      · rename_i f frames hFrames
        dsimp only
        rw [hCache f frames hFrames]
        rfl

/-- Where the bytecode held is the top frame's, holding it makes no difference. -/
theorem Sound.step_hoisted {budget : Nat → Nat} {others : Others T} (hs : Sound h c) :
    c.step h hoisted budget others = c.step h refetched budget others := by
  unfold Config.step
  cases hs with
  | driver hMode hActivations hCache =>
    rw [hMode, hActivations]
    exact driverTurn_hoisted hCache
  | loop hMode hActivations hSuffix hCount hCache ha =>
    rw [hMode, hActivations]
    exact turn_hoisted hCache
  | performing hMode => rw [hMode]
  | returning hMode =>
    rw [hMode]
    cases c.activations with
    | nil => rfl
    | cons a rest => cases a <;> rfl
  | stopped hMode => rw [hMode]

/-! ## Erasure -/

def Loop.erase (l : Loop T) : Loop T := { l with cache := none }

@[simp] theorem Activation.erase_comp_erase :
    (Activation.erase ∘ Activation.erase : Activation T → Activation T) = Activation.erase := by
  funext a
  cases a <;> rfl

@[simp] theorem Config.erase_erase (c : Config T) : c.erase.erase = c.erase := by
  simp [Config.erase, Driver.erase]

@[simp] theorem Config.erase_vm (c : Config T) : c.erase.vm = c.vm := rfl

theorem settle_erase (r : Resume (Request T) (Result T) (VmState T) (Result T)) :
    (c.settle r).erase = c.erase.settle r := by
  cases r with
  | done r vm => rfl
  | ask q vm k => cases q <;> rfl

/-- Configurations alike but for what only batching has. -/
def Alike (c c' : Config T) : Prop := c.erase = c'.erase

theorem alike_settle {c' : Config T} (hc : Alike c c')
    (r : Resume (Request T) (Result T) (VmState T) (Result T)) :
    Alike (c.settle r) (c'.settle r) := by
  show (c.settle r).erase = (c'.settle r).erase
  rw [settle_erase, settle_erase, hc]

theorem alike_erase : Alike c c.erase := c.erase_erase.symm

theorem vm_of_alike {c' : Config T} (hc : Alike c c') : c.vm = c'.vm := by
  have hVm : c.erase.vm = c'.erase.vm := congrArg Config.vm hc
  exact hVm

theorem depth_of_alike {c' : Config T} (hc : Alike c c') :
    c.activations.length = c'.activations.length := by
  have hErased : c.erase.activations = c'.erase.activations := congrArg Config.activations hc
  simpa [Config.erase] using congrArg List.length hErased

theorem alike_dispatch {c' : Config T} (hc : Alike c c') (f : Frame T) (bytecode : Bytecode T) :
    Alike (c.dispatch h f bytecode) (c'.dispatch h f bytecode) := by
  have hExecuted : c.erase.executed = c'.erase.executed := congrArg Config.executed hc
  have hRun : Alike { c with executed := nextInstruction c.vm f bytecode :: c.executed }
      { c' with executed := nextInstruction c'.vm f bytecode :: c'.executed } := by
    show { c.erase with executed := nextInstruction c.vm f bytecode :: c.erase.executed } =
      { c'.erase with executed := nextInstruction c'.vm f bytecode :: c'.erase.executed }
    rw [vm_of_alike hc, show c.erase = c'.erase from hc]
  unfold Config.dispatch
  rw [vm_of_alike hc, depth_of_alike hc]
  exact alike_settle ((vm_of_alike hc) ▸ hRun) _

theorem alike_perform {c' : Config T} {q : Request T} (hc : Alike c c') :
    Alike (c.settle ((perform h q).run (c.vm.atDepth c.activations.length)))
      (c'.settle ((perform h q).run (c'.vm.atDepth c'.activations.length))) := by
  rw [vm_of_alike hc, depth_of_alike hc]
  exact alike_settle hc _

theorem alike_turn {l : Loop T} {rest : List (Activation T)} :
    Alike (c.turn h refetched l rest)
      (c.erase.turn h refetched l.erase (rest.map Activation.erase)) := by
  obtain ⟨⟨frames, stack, nextFrameId, cancelCurrent, reentries, depth, world, marks, target,
    nesting⟩, activations, driver, mode, clock, executed⟩ := c
  have hRest : (rest.map Activation.erase).map Activation.erase = rest.map Activation.erase := by
    simp
  unfold Config.turn
  by_cases hDone : frames.length ≤ l.initialFrameCount
  · simp [Alike, Config.erase, Driver.erase, Loop.erase, hDone]
  · cases cancelCurrent with
    | true => simp [Alike, Config.erase, Driver.erase, Loop.erase, hDone]
    | false =>
      cases frames with
      | nil => simp [Alike, Config.erase, Driver.erase, Loop.erase]
      | cons f frames =>
        simp only [Config.erase, Loop.erase, hDone, if_false]
        refine alike_dispatch ?_ f _
        simp [Alike, Config.erase, Driver.erase, Activation.erase, refetched]

theorem alike_driverTurn :
    Alike (c.driverTurn h refetched) (c.erase.driverTurn h refetched) := by
  obtain ⟨⟨frames, stack, nextFrameId, cancelCurrent, reentries, depth, world, marks, target,
    nesting⟩, activations, driver, mode, clock, executed⟩ := c
  unfold Config.driverTurn
  cases cancelCurrent with
  | true => simp [Alike, Config.erase, Driver.erase]
  | false =>
    cases frames with
    | nil => simp [Alike, Config.erase, Driver.erase]
    | cons f frames =>
      refine alike_dispatch ?_ f _
      simp [Alike, Config.erase, Driver.erase, refetched]

theorem alike_receive {l : Loop T} {rest : List (Activation T)} {r : Result T} :
    Alike (c.receive h l rest r)
      (c.erase.receive h l.erase (rest.map Activation.erase) r) := by
  obtain ⟨vm, activations, driver, mode, clock, executed⟩ := c
  unfold Config.receive
  cases r with
  | ok status => cases status <;> simp [Alike, Config.erase, Driver.erase, Loop.erase]
  | error e =>
    cases e with
    | nonLocalReturn =>
      cases hLow : nlrMustPropagate vm l.initialFrameCount <;>
        simp [Alike, Config.erase, Driver.erase, Loop.erase, hLow]
    | fault f => simp [Alike, Config.erase, Driver.erase]

theorem alike_driverReceive {budget budget' : Nat → Nat} {r : Result T} :
    Alike (c.driverReceive h budget r) (c.erase.driverReceive h budget' r) := by
  have hLooping {b b' : Nat → Nat} : Alike
      (if b c.driver.calls ≤ c.driver.steps + 1 then
        { c with
          mode := .looping
          driver := { c.driver with calls := c.driver.calls + 1, steps := 0, cache := none } }
      else
        { c with
          mode := .looping, driver := { c.driver with steps := c.driver.steps + 1 } })
      (if b' c.erase.driver.calls ≤ c.erase.driver.steps + 1 then
        { c.erase with
          mode := .looping
          driver :=
            { c.erase.driver with calls := c.erase.driver.calls + 1, steps := 0, cache := none } }
      else
        { c.erase with
          mode := .looping
          driver := { c.erase.driver with steps := c.erase.driver.steps + 1 } }) := by
    split <;> split <;> simp [Alike, Config.erase, Driver.erase]
  cases r with
  | ok status =>
    cases status with
    | running => exact hLooping
    | finished v | yeeted v => simp [Config.driverReceive, Alike, Config.erase, Driver.erase]
  | error e =>
    cases e with
    | nonLocalReturn => exact hLooping
    | fault f => simp [Config.driverReceive, Alike, Config.erase, Driver.erase]

/-- Without hoisting, nothing that only batching has is looked at. -/
theorem alike_step_erase {budget budget' : Nat → Nat} {others : Others T} :
    Alike (c.step h refetched budget others) (c.erase.step h refetched budget' others) := by
  obtain ⟨vm, activations, driver, mode, clock, executed⟩ := c
  cases mode with
  | stopped r => exact alike_erase
  | performing q => exact alike_perform alike_erase
  | looping =>
    cases activations with
    | nil => exact alike_driverTurn
    | cons a rest =>
      cases a with
      | loop l => exact alike_turn
      | waiting q frames k => exact alike_erase
  | returning r =>
    cases activations with
    | nil => exact alike_driverReceive
    | cons a rest =>
      cases a with
      | loop l => exact alike_receive
      | waiting q frames k =>
        show Alike _ (Config.settle _ (k r (vm.atDepth (rest.map Activation.erase).length)))
        rw [List.length_map]
        refine alike_settle ?_ _
        simp [Alike, Config.erase, Driver.erase]

theorem alike_step {c' : Config T} {budget budget' : Nat → Nat} {others : Others T}
    (hc : Alike c c') :
    Alike (c.step h refetched budget others) (c'.step h refetched budget' others) := by
  have hEq : c.erase = c'.erase := hc
  have hLeft : Alike (c.step h refetched budget others)
      (c.erase.step h refetched budget others) := alike_step_erase
  have hRight : Alike (c'.step h refetched budget' others)
      (c'.erase.step h refetched budget others) := alike_step_erase
  rw [hEq] at hLeft
  exact hLeft.trans hRight.symm

theorem strays_of_alike {c' : Config T} (hc : Alike c c') (hs : c.Strays h) : c'.Strays h := by
  have hMode : c.erase.mode = c'.erase.mode := congrArg Config.mode hc
  have hErased : c.erase.activations = c'.erase.activations := congrArg Config.activations hc
  have hVm := vm_of_alike hc
  rcases hs with ⟨e, q, frames, k, rest, hReturning, hActivations, hStrays⟩ |
    ⟨hReturning, hActivations, hTarget⟩
  · have hHead : c'.activations.map Activation.erase =
        .waiting q frames k :: rest.map Activation.erase := by
      rw [show c'.activations.map Activation.erase = c.activations.map Activation.erase from
        hErased.symm, hActivations]
      rfl
    obtain ⟨a, rest', hActivations', hWaiting, -⟩ := List.map_eq_cons_iff.mp hHead
    have hSame : a = .waiting q frames k := by
      cases a with
      | loop l => contradiction
      | waiting q' frames' k' => exact hWaiting
    refine .inl ⟨e, q, frames, k, rest', hMode.symm.trans hReturning, hSame ▸ hActivations', ?_⟩
    exact hVm ▸ hStrays
  · have hNone : c'.activations.map Activation.erase = [] := by
      rw [show c'.activations.map Activation.erase = c.activations.map Activation.erase from
        hErased.symm, hActivations]
      rfl
    exact .inr ⟨hMode.symm.trans hReturning, List.map_eq_nil_iff.mp hNone, hVm ▸ hTarget⟩

/-- A run that does not stray: batches and single steps stay alike. -/
theorem sound_run {budget : Nat → Nat} {others : Others T} (hs : Sound h c) (n : Nat)
    (hn : ∀ m < n, ¬ (c.single h others m).Strays h) :
    Sound h (c.batched h budget others n) ∧
      Alike (c.batched h budget others n) (c.single h others n) := by
  induction n with
  | zero => exact ⟨hs, rfl⟩
  | succ n ih =>
    obtain ⟨hSound, hAlike⟩ := ih fun m hm => hn m (by omega)
    have hNot : ¬ (c.batched h budget others n).Strays h := fun hStrays =>
      hn n (by omega) (strays_of_alike hAlike hStrays)
    have hBatched : c.batched h budget others (n + 1) =
        (c.batched h budget others n).step h hoisted budget others :=
      Function.iterate_succ_apply' _ _ _
    have hSingle : c.single h others (n + 1) =
        (c.single h others n).step h refetched (fun _ => 1) others :=
      Function.iterate_succ_apply' _ _ _
    rw [hBatched, hSingle]
    refine ⟨sound_step hSound hNot, ?_⟩
    rw [hSound.step_hoisted]
    exact alike_step hAlike

/-- From any state, with any budgets, as long as the run does not stray: batched dispatch has done
what single stepping has, its loops hold the bytecode of the top frame, and an instruction that
has completed has left its frame at the next one. -/
theorem batched_dispatch (h : Host T) (others : Others T) (budget : Nat → Nat) (c : Config T)
    (hc : c.Fresh) (n : Nat) (hn : ∀ m < n, ¬ (c.single h others m).Strays h) :
    (c.batched h budget others n).erase = (c.single h others n).erase ∧
      (c.batched h budget others n).Hoists ∧ (c.batched h budget others n).StoresIp := by
  have hStart : Sound h c := .driver hc.mode hc.activations (hc.cache ▸ cacheOk_none)
  have hRun : Sound h (c.batched h budget others n) ∧
      Alike (c.batched h budget others n) (c.single h others n) := sound_run hStart n hn
  exact ⟨hRun.2, hRun.1.hoists, hRun.1.storesIp⟩

/-! ## A run that strays -/

namespace Straying

inductive Value where
  | nil
  | num (n : Nat)
  | closure (addr : Nat)

inductive Op where
  | closure (template : Nat)
  | nil
  /-- Branches if the block's argument is 1. -/
  | isFirst
  | boom
  | send (selector : String) (numArgs : Nat)

/-- The heap is the closures: their templates, and the method each was written in. -/
def sig : Sig := ⟨Value, Value, Op, List (Nat × Option FrameId), String⟩

/-- `m -> { { #<1 2>.each:body }.catch:{ nil } }`, where `body` is
`{ |x| (x == 1).if:{ { ^^nil }.catch:{ nil } } else:{ boom } }`: the method first and then its
blocks, the outer ones before those in them. -/
def templates : List (List (Instruction sig)) :=
  [[.compute (.closure 1) 0, .compute (.closure 4) 0, .compute (.send "catch:" 1) 0, .ret],
    [.compute .nil 0, .compute (.closure 2) 0, .compute (.send "each:" 1) 0, .ret],
    [.compute .isFirst 2, .compute .boom 0, .compute (.closure 3) 0, .compute (.closure 4) 0,
      .compute (.send "catch:" 1) 0, .ret],
    [.compute .nil 0, .methodReturn],
    [.compute .nil 0, .ret]]

def block? : Value → List (Nat × Option FrameId) → Option (Block sig)
  | .closure addr, heap => do
    let (template, home) ← heap[addr]?
    return ⟨← templates[template]?, true, home, .nil, []⟩
  | _, _ => none

def compute : Op → Frame sig → List (Nat × Option FrameId) →
    Except (Fault sig) (Effect sig) × List (Nat × Option FrameId)
  | .closure template, f, heap =>
    (.ok (.next [.closure heap.length]), heap ++ [(template, f.enclosingMethodId)])
  | .nil, _, heap => (.ok (.next [.nil]), heap)
  | .isFirst, f, heap =>
    match f.env with
    | .num 1 => (.ok (.branch []), heap)
    | _ => (.ok (.next []), heap)
  | .boom, _, heap => (.error (.other "boom"), heap)
  | .send selector numArgs, _, heap => (.ok (.send [] selector numArgs), heap)

def notABlock (heap : List (Nat × Option FrameId)) : Native sig :=
  .done (.error (.other "Block expected")) heap

/-- `catch:`, `each:` of the Set of 1 and 2, and `valueWithSelfOrArg:`. -/
def lookup (selector : String) : Value → List Value → List (Nat × Option FrameId) → Native sig :=
  if selector = "catch:" then fun receiver args heap =>
    match block? receiver heap with
    | some b => .protect b args none heap
    | none => notABlock heap
  else if selector = "each:" then fun receiver args heap =>
    let element (n : Nat) (heap : List (Nat × Option FrameId))
        (k : List (Nat × Option FrameId) → Native sig) : Native sig :=
      .run (.callMethod (args.headD .nil) "valueWithSelfOrArg:" [.num n]) heap
        (fun f heap => (f, heap)) (fun heap => heap) fun _ heap => k heap
    element 1 heap fun heap => element 2 heap fun heap => .done (.ok receiver) heap
  else fun receiver args heap =>
    match block? receiver heap with
    | some b => .run (.executeBlock b args none) heap (fun f heap => (f, heap)) (fun heap => heap)
        fun v heap => .done (.ok v) heap
    | none => notABlock heap

def host : Host sig where
  nil := .nil
  isNil v := match v with
    | .nil => true
    | _ => false
  block? := block?
  newEnv _ _ args heap := (args.headD .nil, heap)
  arity _ := 0
  compute op _ f heap := compute op f heap
  construct _ _ _ heap := ([], notABlock heap)
  lookup _ selector _ heap := .found (some (.native (lookup selector))) heap
  messageNotUnderstood _ _ _ _ := "not understood"
  ensureInstantiable _ _ := .ok ()
  newObject _ heap := (.nil, heap)
  instantiationPlan _ _ heap := ([], heap)
  takePendingClassDef heap := (none, heap)
  unregister _ heap := heap
  exceptionValue _ heap := (.nil, heap)
  clearActiveException heap := heap
  valueMatchesType _ _ _ := true
  stackHeadroom _ := true
  stackExhausted message := message
  message message := message
  typeError _ _ := "type"
  uncaught _ _ := "uncaught"
  annotate f _ := f

/-- The method has just been called. -/
def start : Config sig where
  vm :=
    { frames :=
        [{ id := 0, enclosingMethodId := some 0, block := ⟨templates.head!, false, none, .nil, []⟩,
           ip := 0, env := .nil, instantiatingObj := none, receiver := none, stackBase := 0,
           returnReceiver := false, defers := [], unregisterOnDeferFailure := none, floor := [] }]
      stack := []
      nextFrameId := 1
      cancelCurrent := false
      nativeReentryDepth := 0
      depth := 0
      world := [] }
  activations := []
  driver := { calls := 0, steps := 0, cache := none, executing := none }
  mode := .looping
  clock := 0
  executed := []

def noOthers : Others sig := fun _ heap => (heap, false)

end Straying

open Straying in
/-- The method's `catch:` ends over one frame, as it began, but over the frame of the block that
failed for 2: batched dispatch runs the method's bytecode in it. -/
theorem batched_dispatch_strays : ¬ ∀ (T : Sig) (h : Host T) (others : Others T)
    (budget : Nat → Nat) (c : Config T), c.Fresh → ∀ n,
    (c.batched h budget others n).erase = (c.single h others n).erase := by
  intro hAll
  have hEq := hAll sig host noOthers (fun _ => 256) start ⟨rfl, rfl, rfl⟩ 60
  have hVm := congrArg Config.vm hEq
  rw [Config.erase_vm, Config.erase_vm] at hVm
  have hStack := congrArg (fun vm : VmState sig => vm.stack.length) hVm
  exact absurd hStack (by decide +kernel)

/-- An error is being handed over. -/
def Config.failing (c : Config T) : Bool :=
  match c.mode with
  | .returning (.error _) => true
  | _ => false

theorem not_strays_of_failing (hc : c.failing = false) : ¬ c.Strays h := by
  rintro (⟨e, q, frames, k, rest, hMode, -, -⟩ | ⟨hMode, -, -⟩)
  · simp [Config.failing, hMode] at hc
  · simp [Config.failing, hMode] at hc

open Straying in
/-- The run is as it should be until the `^^` is caught, which is when it strays. -/
theorem batched_dispatch_before :
    (start.batched host (fun _ => 256) noOthers 25).erase =
        (start.single host noOthers 25).erase ∧
      (start.batched host (fun _ => 256) noOthers 25).Hoists ∧
      (start.batched host (fun _ => 256) noOthers 25).StoresIp := by
  have hFresh : start.Fresh := ⟨rfl, rfl, rfl⟩
  have hQuiet : ∀ m < 25, (start.single host noOthers m).failing = false := by decide +kernel
  refine batched_dispatch host noOthers (fun _ => 256) start hFresh 25 ?_
  intro m hm
  exact not_strays_of_failing (hQuiet m hm)

end Quoin.Control
