import Quoin.Portable.Scan

/-!
# Quoin — what an accepted level looks like

A nest the scan accepts, seen one level at a time (`LevelOk`): at every
instruction, each name the interpreter will look up is declared by a level of
the nest or is among the free reads the scan answers, an assignment goes to a
declared name or stays in an init literal, and nothing returns non-locally,
touches a field or defines a method. The literals of the level are accepted as
levels of their own, below the names this one declares (`LevelOk.literal`).

The names of a level are the ones it declares *anywhere*. Whether a declared
name is bound when it is read is not the scan's question.
-/

namespace Quoin.Portable

/-- The block literal of the instruction that the scan walks into. -/
def Instruction.scanned (inst : Instruction) : Option StaticBlock :=
  match inst with
  | .push c => c.block?
  | inst => inst.sendParts.bind fun parts => parts.2.2.bind Constant.block?

/-! ## Free reads only grow -/

theorem ScanOut.subset_read {out out' : ScanOut} {defined : List Symbol} {s : Symbol}
    (h : out.read defined s = .ok out') : out.freeReads ⊆ out'.freeReads := by
  unfold ScanOut.read at h
  split_ifs at h <;> cases h
  · exact List.Subset.refl _
  · exact List.Subset.refl _
  · exact List.subset_append_left _ _

theorem ScanOut.mem_read {out out' : ScanOut} {defined : List Symbol} {s : Symbol}
    (h : out.read defined s = .ok out') :
    s ∈ defined ∨ s ≠ selfSymbol ∧ s ∈ out'.freeReads := by
  unfold ScanOut.read at h
  split_ifs at h with hDefined hSelf hSeen <;> cases h
  · exact Or.inl hDefined
  · exact Or.inr ⟨hSelf, hSeen⟩
  · exact Or.inr ⟨hSelf, by simp⟩

theorem ScanOut.freeReads_global (out : ScanOut) (n : NamespacedName) :
    (out.global n).freeReads = out.freeReads := by
  unfold ScanOut.global
  split_ifs <;> rfl

/-- The steps of a check that passed all passed. -/
theorem ok_of_bind {ε α β : Type} {x : Except ε α} {f : α → Except ε β} {b : β}
    (h : (x >>= f) = .ok b) : ∃ a, x = .ok a ∧ f a = .ok b := by
  cases x with
  | error e => cases h
  | ok a => exact ⟨a, rfl, h⟩

theorem subset_scanInst {out out' : ScanOut} {defined : List Symbol} {isInit : Bool}
    {inst : Instruction} (h : scanInst defined isInit out inst = .ok out') :
    out.freeReads ⊆ out'.freeReads := by
  cases inst with
  | loadLocal | sendLocal | sendLocalConst | intBinLC | doubleBinLC =>
    exact ScanOut.subset_read h
  | sendLocalLocal | intBinLL | doubleBinLL =>
    obtain ⟨mid, hfirst, hsecond⟩ := ok_of_bind h
    exact List.Subset.trans (ScanOut.subset_read hfirst) (ScanOut.subset_read hsecond)
  | storeLocal | storeLocalKeep =>
    rw [scanInst] at h
    split_ifs at h
    cases h
    exact List.Subset.refl _
  | loadGlobal n =>
    cases h
    rw [ScanOut.freeReads_global]
    exact List.Subset.refl _
  | _ => cases h <;> exact List.Subset.refl _

/-- What the checks of one level were. -/
theorem scanNest_ok {t : StaticBlock} {bound : List Symbol} {out out' : ScanOut}
    (h : scanNest bound out t = .ok out') :
    t.declBlock = none ∧ t.bytecode.forM Instruction.refuseDefinition = .ok () ∧
      scanCode (t.declared bound) t.isInitLiteral out t.bytecode = .ok out' := by
  obtain ⟨paramSyms, bytecode, declBlock, isInitLiteral⟩ := t
  rw [scanNest] at h
  split_ifs at h with hdecl
  obtain ⟨⟨⟩, hdefs, h⟩ := ok_of_bind h
  have hnone : declBlock = none := by simpa using hdecl
  exact ⟨hnone, hdefs, h⟩

mutual
theorem subset_scanNest {t : StaticBlock} {bound : List Symbol} {out out' : ScanOut}
    (h : scanNest bound out t = .ok out') : out.freeReads ⊆ out'.freeReads := by
  obtain ⟨paramSyms, bytecode, declBlock, isInitLiteral⟩ := t
  exact subset_scanCode (scanNest_ok h).2.2

theorem subset_scanCode {code : List Instruction} {defined : List Symbol} {isInit : Bool}
    {out out' : ScanOut} (h : scanCode defined isInit out code = .ok out') :
    out.freeReads ⊆ out'.freeReads := by
  match code with
  | [] =>
    cases h
    exact List.Subset.refl _
  | inst :: rest =>
    rw [scanCode] at h
    obtain ⟨mid, hinst, h⟩ := ok_of_bind h
    obtain ⟨mid', hliteral, h⟩ := ok_of_bind h
    exact List.Subset.trans (List.Subset.trans (subset_scanInst hinst) (subset_scanLiteral hliteral))
      (subset_scanCode h)

theorem subset_scanLiteral {inst : Instruction} {defined : List Symbol} {out out' : ScanOut}
    (h : scanLiteral defined out inst = .ok out') : out.freeReads ⊆ out'.freeReads := by
  cases inst with
  | push c => exact subset_scanConstant h
  | sendConst c _ _ => exact subset_scanConstant h
  | sendLocalConst _ c _ _ => exact subset_scanConstant h
  | _ =>
    cases h
    exact List.Subset.refl _

theorem subset_scanConstant {c : Constant} {defined : List Symbol} {out out' : ScanOut}
    (h : scanConstant defined out c = .ok out') : out.freeReads ⊆ out'.freeReads := by
  cases c with
  | block inner => exact subset_scanNest h
  | _ =>
    cases h
    exact List.Subset.refl _
end

/-! ## One instruction -/

/-- What an accepted instruction may do at a level that declares `defined`. -/
structure InstOk (defined frees : List Symbol) (isInitLiteral : Bool) (inst : Instruction) :
    Prop where
  reads : ∀ s ∈ inst.envReads, s ∈ defined ∨ s ≠ selfSymbol ∧ s ∈ frees
  assigns : ∀ s ∈ inst.assigns, s ∈ defined ∨ isInitLiteral
  notMethodReturn : inst ≠ .methodReturn

theorem instOk_of_scan {defined frees : List Symbol} {isInit : Bool} {out out' : ScanOut}
    {inst : Instruction} (hdef : inst.refuseDefinition = .ok ())
    (h : scanInst defined isInit out inst = .ok out') (hfrees : out'.freeReads ⊆ frees) :
    InstOk defined frees isInit inst := by
  have hread : ∀ {out out' : ScanOut} {s : Symbol}, out'.freeReads ⊆ frees →
      out.read defined s = .ok out' → s ∈ defined ∨ s ≠ selfSymbol ∧ s ∈ frees :=
    fun hsub hr => (ScanOut.mem_read hr).imp_right fun hs => ⟨hs.1, hsub hs.2⟩
  cases inst with
  | loadLocal s | sendLocal s | sendLocalConst s | intBinLC s | doubleBinLC s =>
    refine ⟨?_, by simp [Instruction.assigns], by simp⟩
    simpa [Instruction.envReads] using hread hfrees h
  | sendLocalLocal a b | intBinLL a b | doubleBinLL a b =>
    obtain ⟨mid, ha, hb⟩ := ok_of_bind h
    have hmid := hread (List.Subset.trans (ScanOut.subset_read hb) hfrees) ha
    refine ⟨?_, by simp [Instruction.assigns], by simp⟩
    simpa [Instruction.envReads] using ⟨hmid, hread hfrees hb⟩
  | storeLocal s | storeLocalKeep s =>
    rw [scanInst] at h
    split_ifs at h with hcond
    refine ⟨by simp [Instruction.envReads], ?_, by simp⟩
    simpa [Instruction.assigns, or_iff_not_imp_left] using hcond
  | loadField | storeField | storeFieldKeep | sendField | methodReturn => cases h
  | defineMethod | overrideMethod => cases hdef
  | _ => exact ⟨by simp [Instruction.envReads], by simp [Instruction.assigns], by simp⟩

/-! ## One level -/

/-- The level of `t`, below levels that declare `bound`, was accepted, and its nest
reads nothing beyond `frees` from outside. -/
def LevelOk (bound frees : List Symbol) (t : StaticBlock) : Prop :=
  ∃ out out', scanNest bound out t = .ok out' ∧ out'.freeReads ⊆ frees

/-- Every instruction of an accepted level was scanned, and so was its literal. -/
theorem scanCode_mem {code : List Instruction} {defined : List Symbol} {isInit : Bool}
    {out out' : ScanOut} (h : scanCode defined isInit out code = .ok out') {inst : Instruction}
    (hmem : inst ∈ code) : ∃ o o₁ o₂, scanInst defined isInit o inst = .ok o₁ ∧
      scanLiteral defined o₁ inst = .ok o₂ ∧ o₂.freeReads ⊆ out'.freeReads := by
  induction code generalizing out with
  | nil => simp at hmem
  | cons first rest ih =>
    rw [scanCode] at h
    obtain ⟨o₁, hinst, hafter⟩ := ok_of_bind h
    obtain ⟨o₂, hliteral, hcode⟩ := ok_of_bind hafter
    rcases List.mem_cons.mp hmem with rfl | hrest
    · exact ⟨out, o₁, o₂, hinst, hliteral, subset_scanCode hcode⟩
    · exact ih hcode hrest

theorem refuseDefinition_mem {code : List Instruction}
    (h : code.forM Instruction.refuseDefinition = .ok ()) {inst : Instruction}
    (hmem : inst ∈ code) : inst.refuseDefinition = .ok () := by
  induction code with
  | nil => simp at hmem
  | cons first rest ih =>
    obtain ⟨⟨⟩, hfirst, hrest⟩ := ok_of_bind h
    rcases List.mem_cons.mp hmem with rfl | hmem
    · exact hfirst
    · exact ih hrest hmem

namespace LevelOk

variable {bound frees : List Symbol} {t : StaticBlock} {inst : Instruction}

theorem instOk (h : LevelOk bound frees t) (hmem : inst ∈ t.bytecode) :
    InstOk (t.declared bound) frees t.isInitLiteral inst := by
  obtain ⟨out, out', hscan, hfrees⟩ := h
  obtain ⟨-, hdefs, hcode⟩ := scanNest_ok hscan
  obtain ⟨o, o₁, o₂, hinst, hliteral, hsub⟩ := scanCode_mem hcode hmem
  exact instOk_of_scan (refuseDefinition_mem hdefs hmem) hinst
    (List.Subset.trans (subset_scanLiteral hliteral) (List.Subset.trans hsub hfrees))

/-- A literal the scan walked into is an accepted level below this one. -/
theorem literal (h : LevelOk bound frees t) (hmem : inst ∈ t.bytecode) {inner : StaticBlock}
    (hinner : inst.scanned = some inner) : LevelOk (t.declared bound) frees inner := by
  obtain ⟨out, out', hscan, hfrees⟩ := h
  obtain ⟨o, o₁, o₂, -, hliteral, hsub⟩ := scanCode_mem (scanNest_ok hscan).2.2 hmem
  have hconst : ∀ c : Constant, c.block? = some inner →
      scanConstant (t.declared bound) o₁ c = .ok o₂ →
        scanNest (t.declared bound) o₁ inner = .ok o₂ := by
    intro c hc hs
    cases c with
    | block b =>
      cases hc
      exact hs
    | _ => cases hc
  refine ⟨o₁, o₂, ?_, List.Subset.trans hsub hfrees⟩
  cases inst with
  | push c => exact hconst c hinner hliteral
  | sendConst c => exact hconst c hinner hliteral
  | sendLocalConst _ c => exact hconst c hinner hliteral
  | _ => cases hinner

end LevelOk

theorem levelOk_of_scanPortable {t : StaticBlock} {frees : List Symbol}
    {globals : List NamespacedName} (h : scanPortable t = .ok (frees, globals)) :
    LevelOk [] frees t := by
  obtain ⟨out, hscan, hout⟩ := ok_of_bind h
  cases hout
  exact ⟨{}, out, hscan, List.Subset.refl _⟩

end Quoin.Portable
