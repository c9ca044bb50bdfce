import Mathlib
import Quoin.Lexical.Env
import Quoin.Portable.Level
import Quoin.Trans.Traverse

/-!
# Quoin — shipping a block to a worker

`snapshot_block` in the sender and `rebuild_portable_value` in the worker. The
snapshot scans the block, takes the value of every free read out of the
capture chain, and recurses where that value is a block; the rebuild binds the
values in one fresh frame without a parent and closes the template over it.

Data crosses through the two wire walkers (`value_to_wire`, `wire_to_value`),
which are parameters here (`Walkers`): what a captured datum becomes is what
they make of it. `Copies` says what it means for a value of the worker to be a
copy of one of the sender: a datum that went through the walkers, or a block
with the same template whose free reads are copies in turn. `copies_of_ship`
is that a shipped block arrives as such a copy.
-/

namespace Quoin.Portable

open Lexical

/-- A value: data, or a closure over a chain of env frames. -/
inductive Value (δ : Type) where
  | data (d : δ)
  | block (template : StaticBlock) (parentEnv : Chain)

abbrev EnvFrames (δ : Type) := Frames Symbol (Value δ)

/-- The walkers between values and wire data. -/
structure Walkers (δ ω : Type) where
  nil : δ
  valueToWire : δ → Except String ω
  wireToValue : ω → Except String δ

mutual
/-- A block as it crosses: its template, the snapshot of its free reads, and the
globals it refers to. -/
inductive PortableBlock (ω : Type) where
  | mk (template : StaticBlock) (captures : List (Symbol × PortableCapture ω))
      (globals : List NamespacedName)

inductive PortableCapture (ω : Type) where
  | data (w : ω)
  | block (b : PortableBlock ω)
end

def PortableBlock.captures {ω : Type} : PortableBlock ω → List (Symbol × PortableCapture ω)
  | .mk _ captures _ => captures

variable {δ ω : Type} (w : Walkers δ ω)

/-- What an env lookup pushes: the value, or nil where nothing is bound. -/
def valueAt (frames : EnvFrames δ) (env : Chain) (s : Symbol) : Value δ :=
  (get frames env s).getD (.data w.nil)

/-! ## In the sender -/

/-- The deepest nesting of captured blocks that is shipped. -/
def maxCaptureDepth : Nat := 8

/-- One free read, taken out of the capture chain; `ship` is the snapshot of a block
one level down. -/
def capture (frames : EnvFrames δ) (ship : StaticBlock → Chain → Except String (PortableBlock ω))
    (parentEnv : Chain) (sym : Symbol) : Except String (Symbol × PortableCapture ω) :=
  match valueAt w frames parentEnv sym with
  | .block t env =>
    match ship t env with
    | .ok b => .ok (sym, .block b)
    | .error e => .error s!"capture '{sym}': {e}"
  | .data d =>
    match w.valueToWire d with
    | .ok x => .ok (sym, .data x)
    | .error e => .error s!"capture '{sym}' is not portable: {e}"

/-- `snapshot_block` with `room` levels left, this one included. -/
def snapshotRoom (frames : EnvFrames δ) :
    (room : Nat) → StaticBlock → Chain → Except String (PortableBlock ω)
  | 0, _, _ =>
    .error "portable block captures nest too deeply (a block capturing itself?)"
  | room + 1, template, parentEnv => do
    let (frees, globals) ←
      (scanPortable template).mapError fun why => s!"block is not portable: {why}"
    let captures ← frees.mapM (capture w frames (snapshotRoom frames room) parentEnv)
    pure (.mk template captures globals)

/-- `snapshot_block`: `depth` blocks that capture one another are above this one. -/
def snapshotBlock (frames : EnvFrames δ) (template : StaticBlock) (parentEnv : Chain)
    (depth : Nat) : Except String (PortableBlock ω) :=
  snapshotRoom w frames (maxCaptureDepth + 1 - depth) template parentEnv

/-! ## In the worker -/

mutual
/-- `localize_template`: a copy of the template with its own allocations. -/
def localizeTemplate : StaticBlock → StaticBlock
  | .mk paramSyms bytecode declBlock isInitLiteral =>
    .mk paramSyms (localizeCode bytecode) (localizeDecl declBlock) isInitLiteral

def localizeDecl : Option StaticBlock → Option StaticBlock
  | some decl => some (localizeTemplate decl)
  | none => none

def localizeCode : List Instruction → List Instruction
  | [] => []
  | inst :: rest => localizeInst inst :: localizeCode rest

def localizeInst : Instruction → Instruction
  | .push c => .push (localizeConstant c)
  | .sendConst c s n => .sendConst (localizeConstant c) s n
  | .sendLocalConst a c s n => .sendLocalConst a (localizeConstant c) s n
  | inst => inst

def localizeConstant : Constant → Constant
  | .block inner => .block (localizeTemplate inner)
  | c => c
end

mutual
/-- The block as a live closure of this worker. -/
def rebuildPortableValue (globals : List NamespacedName) (frames : EnvFrames δ) :
    PortableBlock ω → Except String (EnvFrames δ × Value δ)
  | .mk template captures needed =>
    match needed.find? (· ∉ globals) with
    | some g =>
      .error (s!"global '{g.name}' is not defined in the worker (workers boot qnlib only " ++
        "— put user definitions in a unit and Worker.spawn: it)")
    | none => do
      let (frames, vars) ← rebuildCaptures globals frames [] captures
      pure (frames ++ [vars], .block (localizeTemplate template) [frames.length])

/-- Bind the captures one after another in the snapshot frame. -/
def rebuildCaptures (globals : List NamespacedName) (frames : EnvFrames δ)
    (env : Vars Symbol (Value δ)) :
    List (Symbol × PortableCapture ω) → Except String (EnvFrames δ × Vars Symbol (Value δ))
  | [] => .ok (frames, env)
  | (sym, cap) :: rest => do
    let (frames, v) ← rebuildCapture globals frames sym cap
    rebuildCaptures globals frames (env.bind sym v) rest

def rebuildCapture (globals : List NamespacedName) (frames : EnvFrames δ) (sym : Symbol) :
    PortableCapture ω → Except String (EnvFrames δ × Value δ)
  | .data x =>
    match w.wireToValue x with
    | .ok d => .ok (frames, .data d)
    | .error e => .error s!"capture '{sym}': {e}"
  | .block inner => rebuildPortableValue globals frames inner
end

/-! ## Localizing changes nothing -/

mutual
theorem localizeTemplate_eq (t : StaticBlock) : localizeTemplate t = t := by
  obtain ⟨paramSyms, bytecode, declBlock, isInitLiteral⟩ := t
  rw [localizeTemplate, localizeCode_eq bytecode, localizeDecl_eq declBlock]

theorem localizeDecl_eq (decl : Option StaticBlock) : localizeDecl decl = decl := by
  cases decl with
  | none => rfl
  | some d => rw [localizeDecl, localizeTemplate_eq d]

theorem localizeCode_eq (code : List Instruction) : localizeCode code = code := by
  cases code with
  | nil => rfl
  | cons inst rest => rw [localizeCode, localizeInst_eq inst, localizeCode_eq rest]

theorem localizeInst_eq (inst : Instruction) : localizeInst inst = inst := by
  cases inst with
  | push c => rw [localizeInst, localizeConstant_eq c]
  | sendConst c => rw [localizeInst, localizeConstant_eq c]
  | sendLocalConst _ c => rw [localizeInst, localizeConstant_eq c]
  | _ => rfl

theorem localizeConstant_eq (c : Constant) : localizeConstant c = c := by
  cases c with
  | block inner => rw [localizeConstant, localizeTemplate_eq inner]
  | _ => rfl
end

/-! ## Copies -/

/-- A value of the worker is a copy of a value of the sender. -/
inductive Copies (sent built : EnvFrames δ) : Value δ → Value δ → Prop
  | data {d d' : δ} {x : ω} :
      w.valueToWire d = .ok x → w.wireToValue x = .ok d' →
        Copies sent built (.data d) (.data d')
  | block {t : StaticBlock} {origin : Chain} {root : Nat} {frees : List Symbol}
      {globals : List NamespacedName} (value : Symbol → Value δ) :
      scanPortable t = .ok (frees, globals) → root < built.length →
        (∀ s ∈ frees, (vars built root).lookup s = some (value s)) →
        (∀ s ∈ frees, Copies sent built (valueAt w sent origin s) (value s)) →
        Copies sent built (.block t origin) (.block t [root])

variable {w} {sent built : EnvFrames δ}

/-- New frames leave copies what they are. -/
theorem Copies.append {v v' : Value δ} (h : Copies w sent built v v') (more : EnvFrames δ) :
    Copies w sent (built ++ more) v v' := by
  induction h with
  | data hsend hread => exact .data hsend hread
  | block value hscan hroot hlookup _ ih =>
    refine .block value hscan ?_ ?_ ih
    · rw [List.length_append]
      omega
    · rwa [vars_append hroot]

/-- What rebuilding one capture gives, whatever frames there are already. -/
def RebuildsTo (w : Walkers δ ω) (globals : List NamespacedName) (sent : EnvFrames δ)
    (origin : Chain) (sym : Symbol) (cap : PortableCapture ω) : Prop :=
  ∀ {built built' : EnvFrames δ} {v : Value δ},
    rebuildCapture w globals built sym cap = .ok (built', v) →
      Copies w sent built' (valueAt w sent origin sym) v ∧ ∃ more, built' = built ++ more

/-- The snapshot frame binds `s` to a copy. -/
def BindsCopy (w : Walkers δ ω) (sent built : EnvFrames δ) (origin : Chain)
    (env : Vars Symbol (Value δ)) (s : Symbol) : Prop :=
  ∃ v, env.lookup s = some v ∧ Copies w sent built (valueAt w sent origin s) v

theorem rebuildCaptures_copies {globals : List NamespacedName} {origin : Chain}
    {captures : List (Symbol × PortableCapture ω)} {env env' : Vars Symbol (Value δ)}
    {built' : EnvFrames δ}
    (hcaptures : ∀ p ∈ captures, RebuildsTo w globals sent origin p.1 p.2)
    (h : rebuildCaptures w globals built env captures = .ok (built', env')) :
    (∃ more, built' = built ++ more) ∧
      ∀ s, BindsCopy w sent built origin env s ∨ s ∈ captures.map Prod.fst →
        BindsCopy w sent built' origin env' s := by
  induction captures generalizing built env with
  | nil =>
    cases h
    refine ⟨⟨[], by simp⟩, fun s hs => ?_⟩
    simpa using hs
  | cons p rest ih =>
    obtain ⟨sym, cap⟩ := p
    rw [rebuildCaptures] at h
    obtain ⟨⟨built₁, v⟩, hcap, hrest⟩ := ok_of_bind h
    obtain ⟨hcopy, more, rfl⟩ := hcaptures (sym, cap) (by simp) hcap
    obtain ⟨⟨more', rfl⟩, hbinds⟩ := ih (fun q hq => hcaptures q (by simp [hq])) hrest
    refine ⟨⟨more ++ more', by simp⟩, fun s hs => hbinds s ?_⟩
    by_cases hsym : s = sym
    · subst hsym
      exact Or.inl ⟨v, by simp, hcopy⟩
    · rcases hs with ⟨u, hu, hucopy⟩ | hs
      · refine Or.inl ⟨u, ?_, hucopy.append more⟩
        rwa [Vars.lookup_bind_ne hsym]
      · exact Or.inr (by simpa [hsym] using hs)

/-- A capture rebuilds to a copy of the value it was taken from, if the blocks among
the captures do. -/
theorem rebuildsTo_of_capture {globals : List NamespacedName} {origin : Chain} {sym : Symbol}
    {ship : StaticBlock → Chain → Except String (PortableBlock ω)}
    {p : Symbol × PortableCapture ω}
    (hship : ∀ {t : StaticBlock} {env : Chain} {b : PortableBlock ω}
      {built built' : EnvFrames δ} {v : Value δ}, ship t env = .ok b →
        rebuildPortableValue w globals built b = .ok (built', v) →
          Copies w sent built' (.block t env) v ∧ ∃ more, built' = built ++ more)
    (h : capture w sent ship origin sym = .ok p) :
    p.1 = sym ∧ RebuildsTo w globals sent origin p.1 p.2 := by
  unfold capture at h
  split at h
  · rename_i t env hval
    split at h <;> cases h
    rename_i b hsub
    refine ⟨rfl, fun hbuild => ?_⟩
    rw [hval]
    exact hship hsub hbuild
  · rename_i d hval
    split at h <;> cases h
    rename_i x hsend
    refine ⟨rfl, fun hbuild => ?_⟩
    rw [rebuildCapture] at hbuild
    split at hbuild <;> cases hbuild
    rename_i d' hread
    rw [hval]
    exact ⟨.data hsend hread, [], by simp⟩

theorem names_of_captures {P : Symbol × PortableCapture ω → Prop} {frees : List Symbol}
    {captures : List (Symbol × PortableCapture ω)}
    (h : List.Forall₂ (fun sym p => p.1 = sym ∧ P p) frees captures) :
    captures.map Prod.fst = frees ∧ ∀ p ∈ captures, P p := by
  induction h with
  | nil => simp
  | cons hp _ ih =>
    obtain ⟨rfl, hP⟩ := hp
    simpa [ih.1, hP] using ih.2

/-- **A shipped block arrives as a copy.** By induction on the room left for captured
blocks: each of them is shipped with one level less. -/
theorem copies_of_ship {globals : List NamespacedName} {room : Nat} {t : StaticBlock}
    {origin : Chain} {pb : PortableBlock ω} {built built' : EnvFrames δ} {v : Value δ}
    (hsnap : snapshotRoom w sent room t origin = .ok pb)
    (hbuild : rebuildPortableValue w globals built pb = .ok (built', v)) :
    Copies w sent built' (.block t origin) v ∧ ∃ more, built' = built ++ more := by
  induction room generalizing t origin pb built built' v with
  | zero => cases hsnap
  | succ room ih =>
    rw [snapshotRoom] at hsnap
    obtain ⟨⟨frees, needed⟩, hresult, hsnap⟩ := ok_of_bind hsnap
    obtain ⟨captures, hmap, hsnap⟩ := ok_of_bind hsnap
    cases hsnap
    have hscan : scanPortable t = .ok (frees, needed) := by
      cases hr : scanPortable t with
      | error e => simp [hr, Except.mapError] at hresult
      | ok r => simpa [hr, Except.mapError] using hresult
    obtain ⟨hnames, hcaptures⟩ := names_of_captures
      ((Trans.forall₂_of_mapM hmap).imp fun sym p h => rebuildsTo_of_capture ih h)
    rw [rebuildPortableValue] at hbuild
    split at hbuild
    · cases hbuild
    · obtain ⟨⟨built₁, vars₁⟩, hcaps, hbuild⟩ := ok_of_bind hbuild
      cases hbuild
      obtain ⟨⟨more, rfl⟩, hbinds⟩ := rebuildCaptures_copies hcaptures hcaps
      have hbinds : ∀ s ∈ frees, BindsCopy w sent (built ++ more) origin vars₁ s :=
        fun s hs => hbinds s (Or.inr (hnames ▸ hs))
      refine ⟨?_, more ++ [vars₁], by simp⟩
      rw [localizeTemplate_eq]
      have hroot : vars ((built ++ more) ++ [vars₁]) (built ++ more).length = vars₁ := by
        simp [vars]
      refine .block (fun s => (vars₁.lookup s).getD (.data w.nil)) hscan (by simp) ?_ ?_
      · intro s hs
        obtain ⟨u, hu, -⟩ := hbinds s hs
        rw [hroot, hu]
        rfl
      · intro s hs
        obtain ⟨u, hu, hcopy⟩ := hbinds s hs
        rw [hu]
        exact hcopy.append _

end Quoin.Portable
