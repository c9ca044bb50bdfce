import Mathlib
import Quoin.Peephole.Fuse

/-!
# Quoin — fused code does what the old code did

One step of the new code is one, two or three steps of the old (`respects`): the
configurations on both sides are at the same place, with the same operands, and so is
each frame that waits (`Same`). Only the last instruction of a group can have a block
run, so a frame of the old code waits at the end of a group as well.

## Results

* `respects` — one step of the new code is one, two or three of the old, and the frames stay in
  step;
* `eval_fuseBytecode` — fused code and plain code evaluate to the same, for any behaviour of what
  they call.
-/

namespace Quoin.Peephole

open StateTransition
open Portable (IntBinKind Symbol Constant)
open Vm (Value)
open Config

variable {P S O E B F W : Type}

/-! ## The instructions of a group, one after another -/

section Exec

variable (m : Machine P O E B F W) (f : F) (stack : List (Value O)) (w : W)
variable {first second op inst : Instruction P} {a selector : Symbol} {numArgs : Nat}

theorem exec_sendThree (h : second.sendThree a selector numArgs = some inst) :
    ∃ v w', (∀ stack, m.exec f stack w second = .done (.next (v :: stack)) w') ∧
      m.exec f stack w inst =
        m.exec f (v :: m.local f a w :: stack) w' (.send selector numArgs) := by
  cases second <;> cases h
  case loadLocal b => exact ⟨_, _, fun _ => rfl, rfl⟩
  case push c => exact ⟨_, _, fun _ => rfl, rfl⟩

theorem exec_sendTwo (h : first.sendTwo selector numArgs = some inst) :
    ∃ v w', m.exec f stack w first = .done (.next (v :: stack)) w' ∧
      m.exec f stack w inst = m.exec f (v :: stack) w' (.send selector numArgs) := by
  cases first <;> cases h
  case loadLocal b => exact ⟨_, _, rfl, rfl⟩
  case push c => exact ⟨_, _, rfl, rfl⟩
  case loadField field => exact ⟨_, _, rfl, rfl⟩

/-- Operands that are not both Integers are sent the operator's selector. -/
theorem execInt_of_plain {kind : IntBinKind} {x y : Value O}
    (h : ∀ i j, x = .int i → y = .int j → False) :
    m.execInt f kind w (y :: x :: stack) = m.execSend f kind.selector 1 (y :: x :: stack) w := by
  rw [Machine.execInt]
  intro b a stack' hEq
  cases hEq
  exact h a b rfl rfl

theorem execDouble_of_plain {kind : IntBinKind} {x y : Value O}
    (h : ∀ i j, x = .double i → y = .double j → False) :
    m.execDouble f kind w (y :: x :: stack) = m.execSend f kind.selector 1 (y :: x :: stack) w := by
  rw [Machine.execDouble]
  intro b a stack' hEq
  cases hEq
  exact h a b rfl rfl

theorem lookup_of_local {v : Value O} (hv : v ≠ .nil) (h : m.local f a w = v) :
    m.lookup f a w = some v := by
  rw [Machine.local] at h
  cases hLookup : m.lookup f a w with
  | none => exact absurd (by rw [← h, hLookup]; rfl) hv
  | some u => rw [← h, hLookup]; rfl

/-- A number comes only from a constant that is one. -/
theorem constant_of_number {c : Constant} (h : isNumber (m.constant f w c).1 = true) :
    (∃ i, c = .int i) ∨ ∃ bits, c = .double bits := by
  cases c
  case int i => exact .inl ⟨i, rfl⟩
  case double bits => exact .inr ⟨bits, rfl⟩
  all_goals exact absurd h Bool.false_ne_true

theorem exec_intBinLL (b : Symbol) (kind : IntBinKind) :
    m.exec f stack w (.intBinLL a b kind) =
      m.execInt f kind w (m.local f b w :: m.local f a w :: stack) := by
  unfold Machine.exec
  dsimp only
  split
  case h_1 x y hx hy => simp [Machine.local, hx, hy, Machine.execInt]
  case h_2 hNot =>
    rw [execInt_of_plain]
    intro x y hx hy
    exact hNot x y (lookup_of_local m f w (by simp) hx) (lookup_of_local m f w (by simp) hy)

theorem exec_doubleBinLL (b : Symbol) (kind : IntBinKind) :
    m.exec f stack w (.doubleBinLL a b kind) =
      m.execDouble f kind w (m.local f b w :: m.local f a w :: stack) := by
  unfold Machine.exec
  dsimp only
  split
  case h_1 x y hx hy => simp [Machine.local, hx, hy, Machine.execDouble]
  case h_2 hNot =>
    rw [execDouble_of_plain]
    intro x y hx hy
    exact hNot x y (lookup_of_local m f w (by simp) hx) (lookup_of_local m f w (by simp) hy)

theorem exec_intBinLC (c : Constant) (kind : IntBinKind) :
    m.exec f stack w (.intBinLC a c kind) =
      m.execInt f kind (m.constant f w c).2
        ((m.constant f w c).1 :: m.local f a w :: stack) := by
  unfold Machine.exec
  dsimp only
  split
  case h_1 x y hx => simp [Machine.local, hx, Machine.constant, Machine.execInt]
  case h_2 c hNot =>
    rw [execInt_of_plain]
    intro x y hx hy
    obtain ⟨i, rfl⟩ | ⟨bits, rfl⟩ := constant_of_number m f w (by rw [hy]; rfl)
    · exact hNot x i (lookup_of_local m f w (by simp) hx) rfl
    · cases hy

theorem exec_doubleBinLC (c : Constant) (kind : IntBinKind) :
    m.exec f stack w (.doubleBinLC a c kind) =
      m.execDouble f kind (m.constant f w c).2
        ((m.constant f w c).1 :: m.local f a w :: stack) := by
  unfold Machine.exec
  dsimp only
  split
  case h_1 x bits hx => simp [Machine.local, hx, Machine.constant, Machine.execDouble]
  case h_2 c hNot =>
    rw [execDouble_of_plain]
    intro x y hx hy
    obtain ⟨i, rfl⟩ | ⟨bits, rfl⟩ := constant_of_number m f w (by rw [hy]; rfl)
    · cases hy
    · exact hNot x bits (lookup_of_local m f w (by simp) hx) rfl

theorem exec_binThree {kind : IntBinKind} {isDouble : Bool}
    (hOp : op.binKind = some (kind, isDouble)) (h : second.binThree a kind isDouble = some inst) :
    ∃ v w', (∀ stack, m.exec f stack w second = .done (.next (v :: stack)) w') ∧
      m.exec f stack w inst = m.exec f (v :: m.local f a w :: stack) w' op := by
  cases op <;> cases hOp <;> cases second <;> cases h
  case int.refl.loadLocal.refl b => exact ⟨_, _, fun _ => rfl, exec_intBinLL m f stack w b kind⟩
  case int.refl.push.refl c => exact ⟨_, _, fun _ => rfl, exec_intBinLC m f stack w c kind⟩
  case double.refl.loadLocal.refl b =>
    exact ⟨_, _, fun _ => rfl, exec_doubleBinLL m f stack w b kind⟩
  case double.refl.push.refl c => exact ⟨_, _, fun _ => rfl, exec_doubleBinLC m f stack w c kind⟩

end Exec

/-! ## The steps of a group -/

section Steps

variable {m : Machine P O E B F W} {code : B → List (Instruction P)}
variable {b : B} {f : F} {j : Nat} {stack : List (Value O)} {w : W}
variable {waiting : List (Waiting O E B F W)}

theorem step_end (hInst : (code b)[j]? = none) :
    step m code ⟨w, .running ⟨b, f, j, stack⟩, waiting⟩ =
      some ⟨w, .answering (.returned .nil), waiting⟩ := by
  simp only [step, hInst]

theorem step_plain {inst : Instruction P} (hInst : (code b)[j]? = some inst)
    (hPlain : inst.jumpOffset = none) :
    step m code ⟨w, .running ⟨b, f, j, stack⟩, waiting⟩ =
      some (settle waiting b f j (m.exec f stack w inst)) := by
  simp only [step, hInst, hPlain]

theorem step_jump {inst : Instruction P} {off : Int} (hInst : (code b)[j]? = some inst)
    (hOff : inst.jumpOffset = some off) :
    step m code ⟨w, .running ⟨b, f, j, stack⟩, waiting⟩ =
      some (branched waiting b f j off w (m.taken stack w inst)) := by
  simp only [step, hInst, hOff]

/-- An instruction that only pushes or pops leads to the next one. -/
theorem reaches_next {inst : Instruction P} {stack' : List (Value O)} {w' : W}
    {c : Config O E B F W} (hInst : (code b)[j]? = some inst) (hPlain : inst.jumpOffset = none)
    (hExec : m.exec f stack w inst = .done (.next stack') w')
    (h : Reaches₁ (step m code) ⟨w', .running ⟨b, f, j + 1, stack'⟩, waiting⟩ c) :
    Reaches₁ (step m code) ⟨w, .running ⟨b, f, j, stack⟩, waiting⟩ c := by
  refine .head ?_ h
  rw [Option.mem_def, step_plain hInst hPlain, hExec]
  rfl

theorem reaches_last {inst : Instruction P} (hInst : (code b)[j]? = some inst)
    (hPlain : inst.jumpOffset = none) :
    Reaches₁ (step m code) ⟨w, .running ⟨b, f, j, stack⟩, waiting⟩
      (settle waiting b f j (m.exec f stack w inst)) :=
  .single (step_plain hInst hPlain)

/-- A store of a value that has been doubled, and then dropped, is a store. -/
theorem reaches_storePop {store : Instruction P} (hStore : store.isStore = true)
    (h₀ : (code b)[j]? = some .dup) (h₁ : (code b)[j + 1]? = some store)
    (h₂ : (code b)[j + 2]? = some .pop) :
    Reaches₁ (step m code) ⟨w, .running ⟨b, f, j, stack⟩, waiting⟩
      (settle waiting b f (j + 2) (m.exec f stack w store)) := by
  have hPlain : store.jumpOffset = none := by
    cases store <;> first | rfl | cases hStore
  cases stack with
  | nil =>
    have hExec : m.exec f [] w store = .done (.stop .underflow) w := by
      cases store <;> first | rfl | cases hStore
    rw [hExec]
    exact .single (step_plain h₀ rfl)
  | cons v stack =>
    refine reaches_next h₀ rfl rfl ?_
    have hExec : ∀ stack, m.exec f (v :: stack) w store = storing (m.store f v w store) stack := by
      cases store <;> first | exact fun _ => rfl | cases hStore
    rw [hExec]
    generalize hStored : m.store f v w store = stored
    obtain ⟨stored | _, w'⟩ := stored
    · refine .single ?_
      rw [Option.mem_def, step_plain h₁ hPlain, hExec, hStored]
      rfl
    · have hNext : m.exec f (v :: v :: stack) w store = .done (.next (v :: stack)) w' := by
        rw [hExec, hStored]
        rfl
      refine reaches_next h₁ hPlain hNext (.single ?_)
      rw [Option.mem_def, step_plain h₂ rfl]
      rfl

theorem reaches_storeKeep {store keep : Instruction P} (hKeep : store.storeKeepVariant = some keep)
    (h₀ : (code b)[j]? = some .dup) (h₁ : (code b)[j + 1]? = some store) :
    Reaches₁ (step m code) ⟨w, .running ⟨b, f, j, stack⟩, waiting⟩
      (settle waiting b f (j + 1) (m.exec f stack w keep)) := by
  have hPlain : store.jumpOffset = none := by
    cases store <;> first | rfl | cases hKeep
  cases stack with
  | nil =>
    have hExec : m.exec f [] w keep = .done (.stop .underflow) w := by
      cases store <;> cases hKeep <;> rfl
    rw [hExec]
    exact .single (step_plain h₀ rfl)
  | cons v stack =>
    have hExec : m.exec f (v :: stack) w keep = m.exec f (v :: v :: stack) w store := by
      cases store <;> cases hKeep <;> rfl
    rw [hExec]
    exact reaches_next h₀ rfl rfl (reaches_last h₁ hPlain)

/-- The old instructions of a group come to what the new one comes to. -/
theorem reaches_stands {members : List (Instruction P)} {inst : Instruction P}
    (h : Stands members inst) (hPlain : inst.jumpOffset = none)
    (hCode : ∀ k < members.length, (code b)[j + k]? = members[k]?) :
    Reaches₁ (step m code) ⟨w, .running ⟨b, f, j, stack⟩, waiting⟩
      (settle waiting b f (j + (members.length - 1)) (m.exec f stack w inst)) := by
  cases h with
  | same => exact reaches_last (hCode 0 (by simp)) hPlain
  | storePop hStore =>
    exact reaches_storePop hStore (hCode 0 (by simp)) (hCode 1 (by simp)) (hCode 2 (by simp))
  | storeKeep hKeep => exact reaches_storeKeep hKeep (hCode 0 (by simp)) (hCode 1 (by simp))
  | @sendThree second inst a selector numArgs hInst =>
    obtain ⟨v, w', hSecond, hExec⟩ := exec_sendThree m f stack w hInst
    have hSecondPlain : second.jumpOffset = none := by
      cases second <;> first | rfl | cases hInst
    rw [hExec]
    exact reaches_next (hCode 0 (by simp)) rfl rfl <|
      reaches_next (hCode 1 (by simp)) hSecondPlain (hSecond _) <|
      reaches_last (hCode 2 (by simp)) rfl
  | @binThree second op inst a kind isDouble hOp hInst =>
    obtain ⟨v, w', hSecond, hExec⟩ := exec_binThree m f stack w hOp hInst
    have hSecondPlain : second.jumpOffset = none := by
      cases second <;> cases isDouble <;> first | rfl | cases hInst
    have hOpPlain : op.jumpOffset = none := by
      cases op <;> first | rfl | cases hOp
    rw [hExec]
    exact reaches_next (hCode 0 (by simp)) rfl rfl <|
      reaches_next (hCode 1 (by simp)) hSecondPlain (hSecond _) <|
      reaches_last (hCode 2 (by simp)) hOpPlain
  | @sendTwo first inst selector numArgs hInst =>
    obtain ⟨v, w', hFirst, hExec⟩ := exec_sendTwo m f stack w hInst
    have hFirstPlain : first.jumpOffset = none := by
      cases first <;> first | rfl | cases hInst
    rw [hExec]
    exact reaches_next (hCode 0 (by simp)) hFirstPlain hFirst <|
      reaches_last (hCode 1 (by simp)) rfl

end Steps

/-! ## Both codes run -/

section Runs

variable (codes : B → Code P S)

/-- The code of every block, as the pass leaves it. -/
def newCode (b : B) : List (Instruction P) := (fuseBytecode (codes b)).bytecode

/-- The code of every block, as the pass finds it. -/
def oldCode (b : B) : List (Instruction P) := (codes b).bytecode

/-- A frame that waits in the new code, and in the old: it goes on from the same place. -/
structure SameWait (a a' : Waiting O E B F W) : Prop where
  block : a.block = a'.block
  frame : a.frame = a'.frame
  k : a.k = a'.k
  place : Place (codes a.block) (a.ip + 1) (a'.ip + 1)

/-- A configuration of the new code and one of the old. -/
inductive Same : Config O E B F W → Config O E B F W → Prop where
  | running {w : W} {b : B} {f : F} {k j : Nat} {stack : List (Value O)}
      {waiting waiting' : List (Waiting O E B F W)} (h : Place (codes b) k j)
      (hWaiting : List.Forall₂ (SameWait codes) waiting waiting') :
    Same ⟨w, .running ⟨b, f, k, stack⟩, waiting⟩ ⟨w, .running ⟨b, f, j, stack⟩, waiting'⟩
  | answering {w : W} {o : Outcome O E} {waiting waiting' : List (Waiting O E B F W)}
      (hWaiting : List.Forall₂ (SameWait codes) waiting waiting') :
    Same ⟨w, .answering o, waiting⟩ ⟨w, .answering o, waiting'⟩

variable {codes} {m : Machine P O E B F W} {b : B} {f : F} {k j : Nat} {w : W}
variable {waiting waiting' : List (Waiting O E B F W)}

theorem Same.settle (h : Place (codes b) (k + 1) (j + 1))
    (hWaiting : List.Forall₂ (SameWait codes) waiting waiting') (e : Effect O E B F W) :
    Same codes (settle waiting b f k e) (settle waiting' b f j e) := by
  cases e with
  | done n w =>
    cases n with
    | next stack => exact .running h hWaiting
    | stop o => exact .answering hWaiting
  | ask call w k => exact .running .zero (.cons ⟨rfl, rfl, rfl, h⟩ hWaiting)

theorem Same.branched {off off' : Int} {taken : Option (Bool × List (Value O) × W)}
    (hJump : Place (codes b) (jumpTarget k off') (jumpTarget j off))
    (h : Place (codes b) (k + 1) (j + 1))
    (hWaiting : List.Forall₂ (SameWait codes) waiting waiting') :
    Same codes (branched waiting b f k off' w taken) (branched waiting' b f j off w taken) := by
  match taken with
  | none => exact .answering hWaiting
  | some (true, _, _) => exact .running hJump hWaiting
  | some (false, _, _) => exact .running h hWaiting

theorem taken_setJumpOffset (inst : Instruction P) (off : Int) (stack : List (Value O)) (w : W) :
    m.taken stack w (inst.setJumpOffset off) = m.taken stack w inst := by
  cases inst <;> rfl

/-- One step of the new code is one or more of the old. -/
theorem respects (m : Machine P O E B F W) :
    Respects (step m (newCode codes)) (step m (oldCode codes)) (Same codes) := by
  rintro _ _ (@⟨w, b, f, k, j, stack, waiting, waiting', hPlace, hWaiting⟩ |
    @⟨w, o, _, _, hWaiting⟩)
  · cases hk : (newCode codes b)[k]? with
    | none =>
      have hj : (oldCode codes b)[j]? = none := hPlace.finish hk
      rw [step_end hk]
      exact ⟨_, .answering hWaiting, .single (step_end hj)⟩
    | some inst =>
      obtain ⟨g, hGroup, rfl, hNext, -⟩ := hPlace.group hk
      obtain ⟨members, hStands, hSize, hCode⟩ := hGroup.members
      have hPos := hGroup.pos
      cases hOff : g.inst.jumpOffset with
      | none =>
        rw [retarget_of_plain hOff] at hk
        rw [step_plain hk hOff]
        refine ⟨_, .settle ?_ hWaiting _, reaches_stands hStands hOff hCode⟩
        rwa [show j + (members.length - 1) + 1 = j + g.size by omega]
      | some off =>
        obtain rfl := hStands.of_jump hOff
        rw [← hSize] at hNext
        have hj : (oldCode codes b)[j]? = some g.inst := hCode 0 Nat.zero_lt_one
        obtain ⟨k', hRetarget, hJump⟩ := hPlace.jump hj hOff
        rw [hRetarget] at hk
        rw [step_jump hk (jumpOffset_setJumpOffset hOff _), taken_setJumpOffset]
        refine ⟨_, .branched ?_ hNext hWaiting, .single (step_jump hj hOff)⟩
        rwa [jumpTarget_sub]
  · cases hWaiting with
    | nil => rfl
    | @cons a a' _ _ hSame hWaiting =>
      obtain ⟨b, f, ip, k⟩ := a
      obtain ⟨rfl, rfl, rfl, hPlace⟩ := hSame
      exact ⟨_, .settle hPlace hWaiting _, .single rfl⟩

/-- The new code does what the old code does: it ends if and only if the old one ends, with the
same outcome and in the same world. -/
theorem eval_fuseBytecode (codes : B → Code P S) (m : Machine P O E B F W) (b : B) (f : F) (w : W) :
    (eval (step m (newCode codes)) (start b f w)).map result =
      (eval (step m (oldCode codes)) (start b f w)).map result := by
  have hRespects : Respects (step m (newCode codes)) (step m (oldCode codes)) (Same codes) :=
    respects m
  have hStart : Same codes (start b f w : Config O E B F W) (start b f w) := .running .zero .nil
  have hResult : ∀ {c c' : Config O E B F W}, Same codes c c' → result c = result c' := by
    intro c c' h
    cases h <;> rfl
  refine Part.ext fun r => ?_
  simp only [Part.mem_map_iff]
  constructor
  · rintro ⟨c, hc, rfl⟩
    obtain ⟨c', hSame, hc'⟩ := tr_eval hRespects hStart hc
    exact ⟨c', hc', (hResult hSame).symm⟩
  · rintro ⟨c', hc', rfl⟩
    obtain ⟨c, hSame, hc⟩ := tr_eval_rev hRespects hStart hc'
    exact ⟨c, hc, hResult hSame⟩

end Runs

end Quoin.Peephole
