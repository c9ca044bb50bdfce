import Mathlib
import Quoin.Peephole.Code

/-!
# Quoin — the peephole pass

`fuse_bytecode` goes through the code of a block once, from the front, and puts one
instruction in the place of two or three where it can (`fusion`). What it must not
swallow is an instruction that a jump goes to. On the way it notes which old index each
new instruction came from and which new index each old one went to, and in a second
pass gives every jump its new offset.

What the first pass has made of the code is said by `Laid`, which each of its steps
keeps (`Laid.emit`): the new instructions stand for groups of old ones that follow one
another without gaps, and the target of a jump is the first of its group.

## Results

* `fuseBytecode_sourceMap` — every slot of the new code keeps the source entry of one of the
  instructions that it stands for.
-/

namespace Quoin.Peephole

open Portable (IntBinKind Symbol Constant)

variable {P S : Type}

/-! ## Looking at instructions -/

namespace Instruction

def isDup : Instruction P → Bool
  | dup => true
  | _ => false

def isPop : Instruction P → Bool
  | pop => true
  | _ => false

/-- Instructions that only push or pop a value. -/
def isQuiet : Instruction P → Bool
  | dup | pop | loadLocal _ | push _ | loadField _ => true
  | _ => false

/-- `is_store`. -/
def isStore : Instruction P → Bool
  | storeLocal _ | defineLocal _ | storeField _ => true
  | _ => false

/-- `store_keep_variant`. -/
def storeKeepVariant : Instruction P → Option (Instruction P)
  | storeLocal s => some (storeLocalKeep s)
  | defineLocal s => some (defineLocalKeep s)
  | storeField f => some (storeFieldKeep f)
  | _ => none

/-- The name that a `LoadLocal` loads. -/
def local? : Instruction P → Option Symbol
  | loadLocal name => some name
  | _ => none

/-- The selector and the number of arguments of a `Send`. -/
def send? : Instruction P → Option (Symbol × Nat)
  | send selector numArgs => some (selector, numArgs)
  | _ => none

/-- `int_bin_kind`, or else `double_bin_kind`; whether it is of Doubles. -/
def binKind : Instruction P → Option (IntBinKind × Bool)
  | int kind => some (kind, false)
  | double kind => some (kind, true)
  | _ => none

/-- A send with a receiver and an operand of its own. -/
def sendThree (a selector : Symbol) (numArgs : Nat) : Instruction P → Option (Instruction P)
  | loadLocal b => some (sendLocalLocal a b selector numArgs)
  | push c => some (sendLocalConst a c selector numArgs)
  | _ => none

/-- An operator with two operands of its own. -/
def binThree (a : Symbol) (kind : IntBinKind) : Bool → Instruction P → Option (Instruction P)
  | false, loadLocal b => some (intBinLL a b kind)
  | true, loadLocal b => some (doubleBinLL a b kind)
  | false, push c => some (intBinLC a c kind)
  | true, push c => some (doubleBinLC a c kind)
  | _, _ => none

/-- A send with its last operand. -/
def sendTwo (selector : Symbol) (numArgs : Nat) : Instruction P → Option (Instruction P)
  | loadLocal v => some (sendLocal v selector numArgs)
  | push c => some (sendConst c selector numArgs)
  | loadField f => some (sendField f selector numArgs)
  | _ => none

end Instruction

/-! ## The first pass -/

/-- Whether a jump goes to `j`. -/
def isTarget (bytecode : List (Instruction P)) (j : Nat) : Bool :=
  bytecode.zipIdx.any fun p => p.1.jumpOffset.any fun off => (p.2 : Int) + off = j

/-- An instruction in the place of `size` old ones, whose source entry is the one at `entry`. -/
structure Fused (P : Type) where
  inst : Instruction P
  size : Nat
  entry : Nat

section Windows

variable (bytecode : List (Instruction P)) (i : Nat)

/-- `Dup; <store>; Pop`. -/
def fuseStorePop : Option (Fused P) := do
  let first ← bytecode[i]?
  let store ← bytecode[i + 1]?
  let last ← bytecode[i + 2]?
  guard (first.isDup && store.isStore && last.isPop && !isTarget bytecode (i + 1) &&
    !isTarget bytecode (i + 2))
  return ⟨store, 3, i + 1⟩

/-- `Dup; <store>`. -/
def fuseStoreKeep : Option (Fused P) := do
  let first ← bytecode[i]?
  let store ← bytecode[i + 1]?
  guard (first.isDup && !isTarget bytecode (i + 1))
  return ⟨← store.storeKeepVariant, 2, i + 1⟩

/-- `LoadLocal; <operand>; Send`. -/
def fuseSendThree : Option (Fused P) := do
  let a ← bytecode[i]?.bind Instruction.local?
  let second ← bytecode[i + 1]?
  let (selector, numArgs) ← bytecode[i + 2]?.bind Instruction.send?
  guard (!isTarget bytecode (i + 1) && !isTarget bytecode (i + 2))
  return ⟨← second.sendThree a selector numArgs, 3, i + 2⟩

/-- `LoadLocal; <operand>; <operator>`. -/
def fuseBinThree : Option (Fused P) := do
  let a ← bytecode[i]?.bind Instruction.local?
  let second ← bytecode[i + 1]?
  let (kind, isDouble) ← bytecode[i + 2]?.bind Instruction.binKind
  guard (!isTarget bytecode (i + 1) && !isTarget bytecode (i + 2))
  return ⟨← second.binThree a kind isDouble, 3, i + 2⟩

/-- `<operand>; Send`. -/
def fuseSendTwo : Option (Fused P) := do
  let first ← bytecode[i]?
  let (selector, numArgs) ← bytecode[i + 1]?.bind Instruction.send?
  guard (!isTarget bytecode (i + 1))
  return ⟨← first.sendTwo selector numArgs, 2, i + 1⟩

/-- What stands at `i` in the new code. -/
def fusion : Option (Fused P) :=
  fuseStorePop bytecode i <|> fuseStoreKeep bytecode i <|> fuseSendThree bytecode i <|>
    fuseBinThree bytecode i <|> fuseSendTwo bytecode i <|> bytecode[i]?.map (⟨·, 1, i⟩)

end Windows

/-- Every jump goes to an instruction or just past the last one. -/
def JumpsIn (bytecode : List (Instruction P)) : Prop :=
  ∀ p ∈ bytecode.zipIdx, ∀ off ∈ p.1.jumpOffset,
    0 ≤ (p.2 : Int) + off ∧ (p.2 : Int) + off ≤ bytecode.length

instance instDecidableJumpsIn (bytecode : List (Instruction P)) : Decidable (JumpsIn bytecode) :=
  inferInstanceAs (Decidable (∀ p ∈ bytecode.zipIdx, ∀ off ∈ p.1.jumpOffset,
    0 ≤ (p.2 : Int) + off ∧ (p.2 : Int) + off ≤ bytecode.length))

/-- The code of a block, with a source entry for each instruction and all jumps inside it. -/
structure Code (P S : Type) where
  bytecode : List (Instruction P)
  sourceMap : List (Option S)
  aligned : sourceMap.length = bytecode.length
  jumps : JumpsIn bytecode

/-- The new code as far as it goes, and the maps between old and new indices. -/
structure Layout (P S : Type) where
  newCode : List (Instruction P)
  newSmap : List (Option S)
  oldToNew : List Nat
  newToOld : List Nat

namespace Layout

def empty (n : Nat) : Layout P S := ⟨[], [], List.replicate (n + 1) 0, []⟩

/-- The old indices from `i` on are now the index `k`. -/
def assign (k i : Nat) : Nat → List Nat → List Nat
  | 0, oldToNew => oldToNew
  | size + 1, oldToNew => assign k (i + 1) size (oldToNew.set i k)

def emit (l : Layout P S) (i : Nat) (f : Fused P) (entry : Option S) : Layout P S where
  newCode := l.newCode ++ [f.inst]
  newSmap := l.newSmap ++ [entry]
  oldToNew := assign l.newCode.length i f.size l.oldToNew
  newToOld := l.newToOld ++ [i]

/-- The offset of the new instruction at `newIdx`, if it jumps. -/
def retarget (l : Layout P S) (newIdx : Nat) (inst : Instruction P) : Instruction P :=
  match inst.jumpOffset with
  | some oldOff =>
    let oldTarget := ((l.newToOld.getD newIdx 0 : Int) + oldOff).toNat
    inst.setJumpOffset ((l.oldToNew.getD oldTarget 0 : Int) - newIdx)
  | none => inst

end Layout

/-- The loop; as many rounds as there are instructions are enough. -/
def fuseLoop (code : Code P S) : (rounds : Nat) → Nat → Layout P S → Layout P S
  | 0, _, l => l
  | rounds + 1, i, l =>
    match fusion code.bytecode i with
    | some f => fuseLoop code rounds (i + f.size) (l.emit i f (code.sourceMap.getD f.entry none))
    | none => l

/-- What the first pass makes of the code. -/
def layout (code : Code P S) : Layout P S :=
  let n := code.bytecode.length
  let l := fuseLoop code n 0 (.empty n)
  { l with oldToNew := l.oldToNew.set n l.newCode.length }

/-- The second pass. -/
def newBytecode (code : Code P S) : List (Instruction P) :=
  (layout code).newCode.mapIdx (layout code).retarget

/-! ## What a new instruction stands for -/

/-- An instruction of the new code and the old ones it does the work of. -/
inductive Stands : List (Instruction P) → Instruction P → Prop where
  | same (inst : Instruction P) : Stands [inst] inst
  | storePop {store : Instruction P} (h : store.isStore = true) : Stands [.dup, store, .pop] store
  | storeKeep {store keep : Instruction P} (h : store.storeKeepVariant = some keep) :
    Stands [.dup, store] keep
  | sendThree {second inst : Instruction P} {a selector : Symbol} {numArgs : Nat}
      (h : second.sendThree a selector numArgs = some inst) :
    Stands [.loadLocal a, second, .send selector numArgs] inst
  | binThree {second op inst : Instruction P} {a : Symbol} {kind : IntBinKind} {isDouble : Bool}
      (hOp : op.binKind = some (kind, isDouble)) (h : second.binThree a kind isDouble = some inst) :
    Stands [.loadLocal a, second, op] inst
  | sendTwo {first inst : Instruction P} {selector : Symbol} {numArgs : Nat}
      (h : first.sendTwo selector numArgs = some inst) :
    Stands [first, .send selector numArgs] inst

theorem Stands.of_jump {members : List (Instruction P)} {inst : Instruction P} {off : Int}
    (h : Stands members inst) (hOff : inst.jumpOffset = some off) : members = [inst] := by
  cases h with
  | same => rfl
  | storePop hStore => cases inst <;> cases hStore <;> cases hOff
  | @storeKeep store _ hKeep => cases store <;> cases hKeep <;> cases hOff
  | @sendThree second _ _ _ _ hInst => cases second <;> cases hInst <;> cases hOff
  | @binThree second _ _ _ _ isDouble _ hInst =>
    cases second <;> cases isDouble <;> cases hInst <;> cases hOff
  | @sendTwo first _ _ _ hInst => cases first <;> cases hInst <;> cases hOff

/-- `f` stands for instructions from `i` on, of which only the one at `f.entry` may do more than
push or pop, and no jump goes past the first of them. -/
structure Group (bytecode : List (Instruction P)) (i : Nat) (f : Fused P) : Prop where
  stands : Stands ((bytecode.drop i).take f.size) f.inst
  quiet : (((bytecode.drop i).take f.size).eraseIdx (f.entry - i)).all Instruction.isQuiet = true
  fits : i + f.size ≤ bytecode.length
  entry : i ≤ f.entry ∧ f.entry < i + f.size
  inner : ∀ j, i < j → j < i + f.size → isTarget bytecode j = false

namespace Group

variable {bytecode : List (Instruction P)} {i : Nat} {a b c inst : Instruction P}

theorem pos {f : Fused P} (g : Group bytecode i f) : 0 < f.size := by
  have := g.entry
  omega

theorem members {f : Fused P} (g : Group bytecode i f) :
    ∃ members, Stands members f.inst ∧ members.length = f.size ∧
      ∀ k < members.length, bytecode[i + k]? = members[k]? := by
  have hLength : ((bytecode.drop i).take f.size).length = f.size := by
    have := g.fits
    rw [List.length_take, List.length_drop]
    omega
  refine ⟨_, g.stands, hLength, fun k hk => ?_⟩
  rw [List.getElem?_take_of_lt (hLength ▸ hk), List.getElem?_drop]

theorem quiet_of_ne {f : Fused P} {k : Nat} (g : Group bytecode i f) (hMin : i ≤ k)
    (hMax : k < i + f.size) (hne : k ≠ f.entry) :
    ∃ inst, bytecode[k]? = some inst ∧ inst.isQuiet = true := by
  have hk : k < bytecode.length := hMax.trans_le g.fits
  refine ⟨_, List.getElem?_eq_getElem hk, ?_⟩
  refine List.all_eq_true.mp g.quiet _ (List.mem_eraseIdx_iff_getElem?.mpr ⟨k - i, ?_, ?_⟩)
  · have := g.entry
    omega
  · rw [List.getElem?_take_of_lt (by omega), List.getElem?_drop, Nat.add_sub_cancel' hMin]
    exact List.getElem?_eq_getElem hk

theorem one (h : bytecode[i]? = some a) : Group bytecode i ⟨a, 1, i⟩ := by
  obtain ⟨hi, rfl⟩ := List.getElem?_eq_some_iff.mp h
  have hMembers : (bytecode.drop i).take 1 = [bytecode[i]] := by
    rw [List.drop_eq_getElem_cons hi]
    rfl
  refine ⟨hMembers ▸ .same _, ?_, hi, ⟨le_refl i, Nat.lt_succ_self i⟩, fun j hj hj' => ?_⟩
  · simp [hMembers]
  · simp only at hj'
    omega

theorem two (h₀ : bytecode[i]? = some a) (h₁ : bytecode[i + 1]? = some b)
    (hQuiet : a.isQuiet = true) (hTarget : isTarget bytecode (i + 1) = false)
    (h : Stands [a, b] inst) : Group bytecode i ⟨inst, 2, i + 1⟩ := by
  obtain ⟨hi, rfl⟩ := List.getElem?_eq_some_iff.mp h₀
  obtain ⟨hi', rfl⟩ := List.getElem?_eq_some_iff.mp h₁
  have hMembers : (bytecode.drop i).take 2 = [bytecode[i], bytecode[i + 1]] := by
    rw [List.drop_eq_getElem_cons hi, List.drop_eq_getElem_cons hi']
    rfl
  refine ⟨hMembers ▸ h, ?_, by simp only; omega, by simp only; omega, fun j hj hj' => ?_⟩
  · simp [hMembers, hQuiet]
  · simp only at hj'
    rwa [show j = i + 1 by omega]

theorem three {entry : Nat} (h₀ : bytecode[i]? = some a) (h₁ : bytecode[i + 1]? = some b)
    (h₂ : bytecode[i + 2]? = some c) (hEntry : i ≤ entry ∧ entry < i + 3)
    (hQuiet : ([a, b, c].eraseIdx (entry - i)).all Instruction.isQuiet = true)
    (hTarget₁ : isTarget bytecode (i + 1) = false) (hTarget₂ : isTarget bytecode (i + 2) = false)
    (h : Stands [a, b, c] inst) : Group bytecode i ⟨inst, 3, entry⟩ := by
  obtain ⟨hi, rfl⟩ := List.getElem?_eq_some_iff.mp h₀
  obtain ⟨hi₁, rfl⟩ := List.getElem?_eq_some_iff.mp h₁
  obtain ⟨hi₂, rfl⟩ := List.getElem?_eq_some_iff.mp h₂
  have hMembers :
      (bytecode.drop i).take 3 = [bytecode[i], bytecode[i + 1], bytecode[i + 2]] := by
    rw [List.drop_eq_getElem_cons hi, List.drop_eq_getElem_cons hi₁,
      List.drop_eq_getElem_cons hi₂]
    rfl
  refine ⟨hMembers ▸ h, hMembers ▸ hQuiet, by simp only; omega, hEntry, fun j hj hj' => ?_⟩
  · simp only at hj'
    obtain rfl | rfl : j = i + 1 ∨ j = i + 2 := by omega
    · exact hTarget₁
    · exact hTarget₂

end Group

section Inversion

variable {bytecode : List (Instruction P)} {i : Nat} {f : Fused P}

theorem isDup_iff {inst : Instruction P} : inst.isDup = true ↔ inst = .dup := by
  cases inst <;> simp [Instruction.isDup]

theorem isPop_iff {inst : Instruction P} : inst.isPop = true ↔ inst = .pop := by
  cases inst <;> simp [Instruction.isPop]

theorem local?_eq_some {inst : Instruction P} {a : Symbol} :
    inst.local? = some a ↔ inst = .loadLocal a := by
  cases inst <;> simp [Instruction.local?]

theorem send?_eq_some {inst : Instruction P} {s : Symbol × Nat} :
    inst.send? = some s ↔ inst = .send s.1 s.2 := by
  cases inst <;> simp [Instruction.send?, Prod.ext_iff, eq_comm]

theorem fuseStorePop_group (h : fuseStorePop bytecode i = some f) : Group bytecode i f := by
  simp only [fuseStorePop, Option.bind_eq_bind, Option.bind_eq_some_iff, Option.pure_def,
    Option.guard_eq_some', Bool.and_eq_true, Bool.not_eq_true', isDup_iff, isPop_iff] at h
  obtain ⟨_, h₀, store, h₁, _, h₂, _, ⟨⟨⟨⟨rfl, hStore⟩, rfl⟩, hTarget₁⟩, hTarget₂⟩, hf⟩ := h
  cases hf
  exact .three h₀ h₁ h₂ (by omega) (by simp [Instruction.isQuiet]) hTarget₁ hTarget₂
    (.storePop hStore)

theorem fuseStoreKeep_group (h : fuseStoreKeep bytecode i = some f) : Group bytecode i f := by
  simp only [fuseStoreKeep, Option.bind_eq_bind, Option.bind_eq_some_iff, Option.pure_def,
    Option.guard_eq_some', Bool.and_eq_true, Bool.not_eq_true', isDup_iff] at h
  obtain ⟨_, h₀, store, h₁, _, ⟨rfl, hTarget⟩, keep, hKeep, hf⟩ := h
  cases hf
  exact .two h₀ h₁ rfl hTarget (.storeKeep hKeep)

theorem fuseSendThree_group (h : fuseSendThree bytecode i = some f) : Group bytecode i f := by
  simp only [fuseSendThree, Option.bind_eq_bind, Option.bind_eq_some_iff, Option.pure_def,
    Option.guard_eq_some', Bool.and_eq_true, Bool.not_eq_true', local?_eq_some,
    send?_eq_some] at h
  obtain ⟨a, ⟨_, h₀, rfl⟩, second, h₁, s, ⟨_, h₂, rfl⟩, _, ⟨hTarget₁, hTarget₂⟩, inst, hInst,
    hf⟩ := h
  cases hf
  have hSecond : second.isQuiet = true := by
    cases second <;> first | rfl | cases hInst
  exact .three h₀ h₁ h₂ (by omega) (by simp [hSecond]; rfl) hTarget₁ hTarget₂
    (.sendThree hInst)

theorem fuseBinThree_group (h : fuseBinThree bytecode i = some f) : Group bytecode i f := by
  simp only [fuseBinThree, Option.bind_eq_bind, Option.bind_eq_some_iff, Option.pure_def,
    Option.guard_eq_some', Bool.and_eq_true, Bool.not_eq_true', local?_eq_some] at h
  obtain ⟨a, ⟨_, h₀, rfl⟩, second, h₁, ⟨kind, isDouble⟩, ⟨op, h₂, hOp⟩, _, ⟨hTarget₁, hTarget₂⟩,
    inst, hInst, hf⟩ := h
  cases hf
  have hSecond : second.isQuiet = true := by
    cases second <;> cases isDouble <;> first | rfl | cases hInst
  exact .three h₀ h₁ h₂ (by omega) (by simp [hSecond]; rfl) hTarget₁ hTarget₂
    (.binThree hOp hInst)

theorem fuseSendTwo_group (h : fuseSendTwo bytecode i = some f) : Group bytecode i f := by
  simp only [fuseSendTwo, Option.bind_eq_bind, Option.bind_eq_some_iff, Option.pure_def,
    Option.guard_eq_some', Bool.not_eq_true', send?_eq_some] at h
  obtain ⟨first, h₀, s, ⟨_, h₁, rfl⟩, _, hTarget, inst, hInst, hf⟩ := h
  cases hf
  have hFirst : first.isQuiet = true := by
    cases first <;> first | rfl | cases hInst
  exact .two h₀ h₁ hFirst hTarget (.sendTwo hInst)

theorem fusion_group (h : fusion bytecode i = some f) : Group bytecode i f := by
  simp only [fusion, Option.orElse_eq_orElse, Option.orElse_eq_or, Option.or_eq_some_iff,
    Option.map_eq_some_iff] at h
  obtain h | ⟨-, h | ⟨-, h | ⟨-, h | ⟨-, h | ⟨-, inst, h, rfl⟩⟩⟩⟩⟩ := h
  · exact fuseStorePop_group h
  · exact fuseStoreKeep_group h
  · exact fuseSendThree_group h
  · exact fuseBinThree_group h
  · exact fuseSendTwo_group h
  · exact .one h

theorem fusion_of_lt (h : i < bytecode.length) : ∃ f, fusion bytecode i = some f := by
  rw [← Option.isSome_iff_exists]
  simp [fusion, List.getElem?_eq_getElem h]

end Inversion

/-! ## The first pass as far as it goes -/

/-- What the first pass makes of the instructions before `i`. -/
inductive Laid (code : Code P S) : Nat → Layout P S → Prop where
  | empty : Laid code 0 (.empty code.bytecode.length)
  | emit {i : Nat} {l : Layout P S} {f : Fused P} (h : Laid code i l)
      (g : Group code.bytecode i f) :
    Laid code (i + f.size) (l.emit i f (code.sourceMap.getD f.entry none))

namespace Layout

theorem length_assign {k i size : Nat} {oldToNew : List Nat} :
    (assign k i size oldToNew).length = oldToNew.length := by
  induction size generalizing i oldToNew with
  | zero => rfl
  | succ size ih => rw [assign, ih, List.length_set]

theorem getElem?_assign_of_lt {k i size j : Nat} {oldToNew : List Nat} (h : j < i) :
    (assign k i size oldToNew)[j]? = oldToNew[j]? := by
  induction size generalizing i oldToNew with
  | zero => rfl
  | succ size ih => rw [assign, ih (by omega), List.getElem?_set_ne (by omega)]

theorem getElem?_assign_first {k i size : Nat} {oldToNew : List Nat} (hSize : 0 < size)
    (h : i < oldToNew.length) : (assign k i size oldToNew)[i]? = some k := by
  obtain ⟨size, rfl⟩ := Nat.exists_eq_succ_of_ne_zero hSize.ne'
  rw [assign, getElem?_assign_of_lt (Nat.lt_succ_self i), List.getElem?_set_self h]

end Layout

namespace Laid

variable {code : Code P S} {i : Nat} {l : Layout P S}

/-- The old index where the new one `k` begins, which for the one past the end is `i`. -/
def start (l : Layout P S) (i k : Nat) : Option Nat := (l.newToOld ++ [i])[k]?

theorem length_newToOld (h : Laid code i l) : l.newToOld.length = l.newCode.length := by
  induction h with
  | empty => rfl
  | emit _ _ ih => simp [Layout.emit, ih]

theorem length_newSmap (h : Laid code i l) : l.newSmap.length = l.newCode.length := by
  induction h with
  | empty => rfl
  | emit _ _ ih => simp [Layout.emit, ih]

theorem length_oldToNew (h : Laid code i l) : l.oldToNew.length = code.bytecode.length + 1 := by
  induction h with
  | empty => simp [Layout.empty]
  | emit _ _ ih => simp [Layout.emit, Layout.length_assign, ih]

theorem le (h : Laid code i l) : i ≤ code.bytecode.length := by
  cases h with
  | empty => exact Nat.zero_le _
  | emit _ g => exact g.fits

theorem start_zero (h : Laid code i l) : start l i 0 = some 0 := by
  induction h with
  | empty => rfl
  | emit h g ih =>
    rw [start, List.getElem?_append] at *
    simp only [Layout.emit, List.length_append, List.length_singleton, Nat.zero_lt_succ, if_true]
    rw [List.getElem?_append]
    exact ih

/-- Where the new code before `i` is carried on, the beginnings stay. -/
theorem start_emit {f : Fused P} {e : Option S} {k j : Nat} (h : start l i k = some j) :
    start (l.emit i f e) (i + f.size) k = some j := by
  obtain ⟨hk, -⟩ := List.getElem?_eq_some_iff.mp h
  show (l.newToOld ++ [i] ++ [i + f.size])[k]? = some j
  rw [List.getElem?_append_left hk]
  exact h

/-- Each new instruction stands for the old ones between where it and the next one begin. -/
theorem group (h : Laid code i l) {k : Nat} {inst : Instruction P}
    (hk : l.newCode[k]? = some inst) :
    ∃ j f, start l i k = some j ∧ start l i (k + 1) = some (j + f.size) ∧ f.inst = inst ∧
      Group code.bytecode j f ∧ l.newSmap[k]? = some (code.sourceMap.getD f.entry none) := by
  induction h with
  | empty => simp [Layout.empty] at hk
  | @emit i l f h g ih =>
    have hLength := h.length_newToOld
    have hSmap := h.length_newSmap
    simp only [Layout.emit, List.getElem?_append] at hk
    split at hk
    case isTrue hlt =>
      obtain ⟨j, f', hj, hj', hInst, g', hEntry⟩ := ih hk
      refine ⟨j, f', start_emit hj, start_emit hj', hInst, g', ?_⟩
      rw [Layout.emit, List.getElem?_append_left (hSmap ▸ hlt), hEntry]
    case isFalse hge =>
      obtain ⟨hk', hInst⟩ := List.getElem?_eq_some_iff.mp hk
      obtain rfl : k = l.newCode.length := by
        simp only [List.length_singleton] at hk'
        omega
      refine ⟨i, f, ?_, ?_, by simpa using hInst, g, ?_⟩
      · simp [start, Layout.emit, hLength]
      · simp [start, Layout.emit, hLength]
      · simp [Layout.emit, hSmap]

theorem lt_of_mem (h : Laid code i l) {j : Nat} (hj : j ∈ l.newToOld) : j < i := by
  induction h with
  | empty => cases hj
  | emit h g ih =>
    have := g.pos
    simp only [Layout.emit, List.mem_append, List.mem_singleton] at hj
    rcases hj with hj | rfl
    · exact (ih hj).trans (Nat.lt_add_of_pos_right this)
    · exact Nat.lt_add_of_pos_right this

/-- The new index of an old one where a new instruction begins. -/
theorem oldToNew (h : Laid code i l) {k j : Nat} (hj : l.newToOld[k]? = some j) :
    l.oldToNew[j]? = some k := by
  induction h with
  | empty => cases hj
  | @emit i l f h g ih =>
    have hLength := h.length_newToOld
    simp only [Layout.emit, List.getElem?_append] at hj ⊢
    split at hj
    case isTrue hlt =>
      rw [Layout.getElem?_assign_of_lt (h.lt_of_mem (List.mem_of_getElem? hj))]
      exact ih hj
    case isFalse hge =>
      obtain ⟨hk, rfl⟩ := List.getElem?_eq_some_iff.mp hj
      obtain rfl : k = l.newCode.length := by
        rw [List.length_singleton] at hk
        omega
      have hi : i < l.oldToNew.length := by
        rw [h.length_oldToNew]
        exact Nat.lt_succ_of_le h.le
      simpa only [List.getElem_singleton] using Layout.getElem?_assign_first g.pos hi

/-- Where a jump goes to, a new instruction begins. -/
theorem mem_of_isTarget (h : Laid code i l) {j : Nat} (hlt : j < i)
    (hTarget : isTarget code.bytecode j = true) : j ∈ l.newToOld := by
  induction h with
  | empty => exact absurd hlt (Nat.not_lt_zero j)
  | @emit i l f h g ih =>
    rw [Layout.emit, List.mem_append, List.mem_singleton]
    by_cases hji : j < i
    · exact .inl (ih hji)
    by_cases hj : i < j
    · rw [g.inner j hj hlt] at hTarget
      cases hTarget
    · exact .inr (by omega)

end Laid

theorem fuseLoop_laid {code : Code P S} {rounds i : Nat} {l : Layout P S} (h : Laid code i l)
    (hRounds : code.bytecode.length ≤ i + rounds) :
    Laid code code.bytecode.length (fuseLoop code rounds i l) := by
  induction rounds generalizing i l with
  | zero =>
    have hi : i = code.bytecode.length := le_antisymm h.le hRounds
    exact hi ▸ h
  | succ rounds ih =>
    rw [fuseLoop]
    by_cases hlt : i < code.bytecode.length
    · obtain ⟨f, hf⟩ := fusion_of_lt hlt
      have g := fusion_group hf
      rw [hf]
      exact ih (h.emit g) (by have := g.pos; omega)
    · have hi : i = code.bytecode.length := le_antisymm h.le (not_lt.mp hlt)
      cases hf : fusion code.bytecode i with
      | none => exact hi ▸ h
      | some f =>
        have g := fusion_group hf
        have := g.pos
        have := g.fits
        omega

/-! ## Both passes -/

/-- The new index `k` and the old index `j` are the same place. -/
def Place (code : Code P S) (k j : Nat) : Prop :=
  Laid.start (layout code) code.bytecode.length k = some j

section Places

variable {code : Code P S} {k j : Nat} {inst : Instruction P} {off : Int}

theorem exists_laid (code : Code P S) : ∃ l, Laid code code.bytecode.length l ∧
    layout code = { l with oldToNew := l.oldToNew.set code.bytecode.length l.newCode.length } :=
  ⟨_, fuseLoop_laid .empty (by omega), rfl⟩

theorem Place.zero : Place code 0 0 := by
  obtain ⟨l, h, hl⟩ := exists_laid code
  rw [Place, hl]
  exact h.start_zero

theorem length_newBytecode (code : Code P S) :
    (newBytecode code).length = (layout code).newToOld.length := by
  obtain ⟨l, h, hl⟩ := exists_laid code
  rw [newBytecode, List.length_mapIdx, hl]
  exact h.length_newToOld.symm

theorem aligned_newBytecode (code : Code P S) :
    (layout code).newSmap.length = (newBytecode code).length := by
  obtain ⟨l, h, hl⟩ := exists_laid code
  rw [newBytecode, List.length_mapIdx, hl]
  exact h.length_newSmap

/-- At one place stand a new instruction and the old ones it stands for, and the next new one
is the same place as what follows these. -/
theorem Place.group (h : Place code k j) (hk : (newBytecode code)[k]? = some inst) :
    ∃ f, Group code.bytecode j f ∧ (layout code).retarget k f.inst = inst ∧
      Place code (k + 1) (j + f.size) ∧
      (layout code).newSmap[k]? = some (code.sourceMap.getD f.entry none) := by
  obtain ⟨l, hLaid, hl⟩ := exists_laid code
  rw [newBytecode, List.getElem?_mapIdx, Option.map_eq_some_iff] at hk
  obtain ⟨inst', hk, rfl⟩ := hk
  rw [hl] at hk
  obtain ⟨j', f, hj, hNext, rfl, g, hEntry⟩ := hLaid.group hk
  rw [Place, hl] at h
  obtain rfl : j = j' := Option.some.inj (h.symm.trans hj)
  refine ⟨f, g, rfl, ?_, ?_⟩
  · rw [Place, hl]
    exact hNext
  · rw [hl]
    exact hEntry

theorem Place.exists_of_le (h : k ≤ (newBytecode code).length) : ∃ j, Place code k j := by
  rw [length_newBytecode] at h
  have hk : k < ((layout code).newToOld ++ [code.bytecode.length]).length := by
    rw [List.length_append, List.length_singleton]
    omega
  exact ⟨_, List.getElem?_eq_getElem hk⟩

/-- Both codes end at the same place. -/
theorem Place.finish (h : Place code k j) (hk : (newBytecode code)[k]? = none) :
    code.bytecode[j]? = none := by
  rw [List.getElem?_eq_none_iff, length_newBytecode] at hk
  rw [Place, Laid.start, List.getElem?_append_right hk] at h
  have hj : j = code.bytecode.length := List.mem_singleton.mp (List.mem_of_getElem? h)
  exact List.getElem?_eq_none hj.ge

theorem jumpOffset_setJumpOffset (h : inst.jumpOffset = some off) (off' : Int) :
    (inst.setJumpOffset off').jumpOffset = some off' := by
  cases inst <;> first | rfl | cases h

theorem retarget_of_plain {l : Layout P S} (h : inst.jumpOffset = none) :
    l.retarget k inst = inst := by
  rw [Layout.retarget, h]

theorem jumpTarget_sub (k k' : Nat) : Config.jumpTarget k (k' - k) = k' := by
  rw [Config.jumpTarget]
  omega

/-- A jump goes to the same place in both codes. -/
theorem Place.jump (h : Place code k j) (hj : code.bytecode[j]? = some inst)
    (hOff : inst.jumpOffset = some off) :
    ∃ k' : Nat, (layout code).retarget k inst = inst.setJumpOffset (k' - k) ∧
      Place code k' (Config.jumpTarget j off) := by
  obtain ⟨l, hLaid, hl⟩ := exists_laid code
  obtain ⟨hMin, hMax⟩ :=
    code.jumps (inst, j) (List.mk_mem_zipIdx_iff_getElem?.mpr hj) off hOff
  obtain ⟨hlt, -⟩ := List.getElem?_eq_some_iff.mp hj
  obtain ⟨target, hTarget⟩ := Int.eq_ofNat_of_zero_le hMin
  have hOld : (layout code).newToOld[k]? = some j := by
    rw [Place, Laid.start, List.getElem?_append] at h
    split at h
    case isTrue => exact h
    case isFalse =>
      exact absurd (List.mem_singleton.mp (List.mem_of_getElem? h)) hlt.ne
  -- The map gives the new index of the target, whether it is the end or not.
  have hNew : ∃ k', (layout code).oldToNew[target]? = some k' ∧ Place code k' target := by
    simp only [Place, hl]
    by_cases hEnd : target = code.bytecode.length
    · refine ⟨l.newCode.length, ?_, ?_⟩
      · rw [hEnd, List.getElem?_set_self]
        rw [hLaid.length_oldToNew]
        exact Nat.lt_succ_self _
      · simp [Laid.start, hLaid.length_newToOld, hEnd]
    · have hIn : target < code.bytecode.length := by omega
      have hIs : isTarget code.bytecode target = true := by
        rw [isTarget, List.any_eq_true]
        refine ⟨(inst, j), List.mk_mem_zipIdx_iff_getElem?.mpr hj, ?_⟩
        simp [hOff, hTarget]
      obtain ⟨k', hk'⟩ := List.mem_iff_getElem?.mp (hLaid.mem_of_isTarget hIn hIs)
      refine ⟨k', ?_, ?_⟩
      · rw [List.getElem?_set_ne (Ne.symm hEnd)]
        exact hLaid.oldToNew hk'
      · obtain ⟨hlt, -⟩ := List.getElem?_eq_some_iff.mp hk'
        rw [Laid.start, List.getElem?_append_left hlt]
        exact hk'
  obtain ⟨k', hk', hPlace⟩ := hNew
  refine ⟨k', ?_, ?_⟩
  · rw [Layout.retarget, hOff]
    simp only [List.getD_eq_getElem?_getD, hOld, Option.getD_some, hTarget, Int.toNat_natCast, hk']
  · rwa [Config.jumpTarget, hTarget, Int.toNat_natCast]

theorem Place.le_length (h : Place code k j) : k ≤ (newBytecode code).length := by
  obtain ⟨hk, -⟩ := List.getElem?_eq_some_iff.mp h
  rw [List.length_append, List.length_singleton, ← length_newBytecode] at hk
  omega

/-- The jumps of the new code stay inside it. -/
theorem jumps_newBytecode (code : Code P S) : JumpsIn (newBytecode code) := by
  rintro ⟨inst, k⟩ hMem off hOff
  have hk := List.mk_mem_zipIdx_iff_getElem?.mp hMem
  obtain ⟨hlt, -⟩ := List.getElem?_eq_some_iff.mp hk
  obtain ⟨j, hPlace⟩ := Place.exists_of_le hlt.le
  obtain ⟨f, hGroup, rfl, -, -⟩ := hPlace.group hk
  cases hInst : f.inst.jumpOffset with
  | none =>
    rw [Option.mem_def, retarget_of_plain hInst, hInst] at hOff
    cases hOff
  | some old =>
    obtain ⟨members, hStands, -, hCode⟩ := hGroup.members
    obtain rfl := hStands.of_jump hInst
    obtain ⟨k', hRetarget, hJump⟩ := hPlace.jump (hCode 0 Nat.zero_lt_one) hInst
    rw [Option.mem_def, hRetarget, jumpOffset_setJumpOffset hInst] at hOff
    cases hOff
    have := hJump.le_length
    simp only
    omega

end Places

/-- `fuse_bytecode`. -/
def fuseBytecode (code : Code P S) : Code P S where
  bytecode := newBytecode code
  sourceMap := (layout code).newSmap
  aligned := aligned_newBytecode code
  jumps := jumps_newBytecode code

/-- Counts `n` down by one until it is nil or false, with the index of each instruction for its
source. -/
def countDown : Code Empty Nat where
  bytecode := [.loadLocal "n", .push (.int 1), .int .sub, .dup, .storeLocal "n", .pop,
    .loadLocal "n", .ifJump (-7)]
  sourceMap := (List.range 8).map some
  aligned := rfl
  jumps := by decide

example : (fuseBytecode countDown).bytecode =
    [.intBinLC "n" (.int 1) .sub, .storeLocal "n", .loadLocal "n", .ifJump (-3)] := rfl

end Quoin.Peephole
