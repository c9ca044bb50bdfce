import Quoin.Portable.Nest

/-!
# Quoin — a shipped nest reads the sender's values

A name that an accepted nest reads is declared by one of the levels around the
instruction, or it was captured. While the nest runs, a frame of its own binds no
other names than its level declares, so the read of a captured one goes through to
the snapshot frame (`Isolated.get_eq`), and that is written only where the nest
assigns a name. What is left out is `interpolate`: the code in the braces of a computed
string was never scanned.

What holds of a run is `Isolated`, which every action keeps (`Isolated.step`). It
speaks of the frames of the nest by `levels`, which an instruction does not change.

## Results

* `Isolated.step` — every action of the run keeps the frames of the nest apart from the snapshot;
* `shipped_nest_reads` — in a run without `interpolate`, a captured name reads as the value that was
  shipped.
-/

namespace Quoin.Portable

open Lexical

variable {δ ω : Type} {w : Walkers δ ω}

/-! ## The templates of a nest -/

/-- `t'` is `t`, or a literal in its code at any depth. -/
inductive Within (t : StaticBlock) : StaticBlock → Prop where
  | refl : Within t t
  | literal {t' inner : StaticBlock} {inst : Instruction} (h : Within t t')
      (hMem : inst ∈ t'.bytecode) (hInner : inst.literal = some inner) : Within t inner

/-- The scan walks into all literals: no operator on numbers has one for its operand. -/
def Walked (t : StaticBlock) : Prop :=
  ∀ t', Within t t' → ∀ inst ∈ t'.bytecode, inst.literal = inst.scanned

/-- Calls and assignments of the nest leave this name to those levels that declare it. -/
def Fixed (t : StaticBlock) (s : Symbol) : Prop :=
  s ≠ selfSymbol ∧ ∀ t', Within t t' → ∀ inst ∈ t'.bytecode, inst.assigns ≠ some s

/-- A level of the nest, below levels that declare `bound`. -/
structure Level (t : StaticBlock) (frees : List Symbol) (t' : StaticBlock) (bound : List Symbol) :
    Prop where
  within : Within t t'
  ok : LevelOk bound frees t'

namespace Level

variable {t t' inner : StaticBlock} {frees bound : List Symbol} {inst : Instruction}

theorem literal (h : Level t frees t' bound) (hWalked : Walked t) (hMem : inst ∈ t'.bytecode)
    (hInner : inst.literal = some inner) : Level t frees inner (t'.declared bound) where
  within := h.within.literal hMem hInner
  ok := h.ok.literal hMem (hWalked t' h.within inst hMem ▸ hInner)

theorem subset_declared (t' : StaticBlock) (bound : List Symbol) : bound ⊆ t'.declared bound :=
  fun _ hs => List.mem_append_left _ (List.mem_append_left _ hs)

theorem params_declared (t' : StaticBlock) (bound : List Symbol) :
    t'.paramSyms ⊆ t'.declared bound :=
  fun _ hs => List.mem_append_left _ (List.mem_append_right _ hs)

theorem defines_declared {s : Symbol} (hMem : inst ∈ t'.bytecode) (hs : inst.defines = some s)
    (bound : List Symbol) : s ∈ t'.declared bound :=
  List.mem_append_right _ (List.mem_filterMap.mpr ⟨inst, hMem, hs⟩)

end Level

/-! ## The frames of a nest -/

/-- An env frame of the nest, with the names that its level and those around declare. -/
abbrev Own := Nat × List Symbol

namespace Nest

def levels (n : Nest δ) : List Own := n.frames.map fun fr => (fr.ownEnv, fr.declared)

/-- The chain goes through frames of the nest, which declare no more than `declared`, to the
snapshot frame. -/
def Behind (n : Nest δ) (env : Chain) (declared : List Symbol) : Prop :=
  ∃ c, env = c ++ [n.root] ∧ ∀ i ∈ c, ∃ l ∈ n.levels, l.1 = i ∧ l.2 ⊆ declared

variable {n n' : Nest δ} {env : Chain} {declared : List Symbol}

theorem Behind.congr (h : n.Behind env declared) (hRoot : n'.root = n.root)
    (hLevels : n.levels ⊆ n'.levels) : n'.Behind env declared := by
  obtain ⟨c, rfl, hc⟩ := h
  refine ⟨c, by rw [hRoot], fun i hi => ?_⟩
  obtain ⟨l, hl, rfl, hSub⟩ := hc i hi
  exact ⟨l, hLevels hl, rfl, hSub⟩

/-- One frame more before the chain. -/
theorem Behind.cons {i : Nat} {bound : List Symbol} (h : n.Behind env bound)
    (hi : (i, declared) ∈ n.levels) (hSub : bound ⊆ declared) :
    n.Behind (i :: env) declared := by
  obtain ⟨c, rfl, hc⟩ := h
  refine ⟨i :: c, rfl, fun j hj => ?_⟩
  rcases List.mem_cons.mp hj with rfl | hj
  · exact ⟨_, hi, rfl, fun _ hs => hs⟩
  · obtain ⟨l, hl, rfl, hl'⟩ := hc j hj
    exact ⟨l, hl, rfl, fun _ hs => hSub (hl' hs)⟩

end Nest

/-- A run of the nest `t` that started over the frames `built`, with the snapshot frame `root`, so
far. -/
structure Isolated (built : EnvFrames δ) (root : Nat) (t : StaticBlock) (frees : List Symbol)
    (n : Nest δ) : Prop where
  walked : Walked t
  root_eq : n.root = root
  root_lt : n.root < n.envs.length
  /-- The snapshot frame binds what it bound at the start. -/
  kept : ∀ s, Fixed t s → (vars n.envs n.root).lookup s = (vars built root).lookup s
  own : n.levels.map Prod.fst = n.own
  nodup : n.own.Nodup
  own_lt : ∀ i ∈ n.own, i < n.envs.length ∧ i ≠ n.root
  /-- A frame of the nest binds only what its level declares. -/
  binds : ∀ l ∈ n.levels, ∀ s, Fixed t s → s ∉ l.2 → (vars n.envs l.1).lookup s = none
  blocks : ∀ b ∈ n.blocks, Level t frees b.template b.bound ∧ n.Behind b.parentEnv b.bound
  frames : ∀ fr ∈ n.frames, Level t frees fr.template fr.bound ∧ n.Behind fr.parentEnv fr.bound

/-! ## What an action does to the frames -/

section Effects

variable {envs : EnvFrames δ} {fr : NestFrame} {inst : Instruction} {val : Value δ} {s : Symbol}

theorem length_storeSetLocal (name : Symbol) :
    (Nest.storeSetLocal envs fr name val).length = envs.length := by
  unfold Nest.storeSetLocal
  split_ifs
  · exact length_bindIn _
  · cases hSet : set envs fr.env name val with
    | none => exact length_bindIn _
    | some envs' => exact length_set hSet

theorem lookup_storeSetLocal {name : Symbol} (hne : s ≠ name) (i : Nat) :
    (vars (Nest.storeSetLocal envs fr name val) i).lookup s = (vars envs i).lookup s := by
  unfold Nest.storeSetLocal
  split_ifs
  · exact lookup_bindIn_ne hne _ i
  · cases hSet : set envs fr.env name val with
    | none => exact lookup_bindIn_ne hne _ i
    | some envs' => exact lookup_set_ne hne hSet i

theorem length_storeEffect : (Nest.storeEffect envs fr inst val).length = envs.length := by
  unfold Nest.storeEffect
  split
  · exact length_bindIn _
  · exact length_storeSetLocal _
  · rfl

/-- An instruction binds a name only in its own frame, unless it assigns it. -/
theorem lookup_storeEffect {i : Nat} (hAssigns : inst.assigns ≠ some s)
    (hDefines : inst.defines = some s → i ≠ fr.ownEnv) :
    (vars (Nest.storeEffect envs fr inst val) i).lookup s = (vars envs i).lookup s := by
  unfold Nest.storeEffect
  split
  case h_1 name hName =>
    by_cases hs : s = name
    · subst hs
      rw [vars_bindIn_ne (hDefines hName).symm]
    · exact lookup_bindIn_ne hs _ i
  case h_2 name _ hName =>
    refine lookup_storeSetLocal (fun hs => hAssigns ?_) i
    rw [hName, hs]
  case h_3 => rfl

theorem lookup_bindParams {receiver : Option (Value δ)} {paramSyms : List Symbol}
    {args : List (Value δ)} (hSelf : s ≠ selfSymbol) (hs : s ∉ paramSyms) :
    (bindParams receiver paramSyms args).lookup s = none := by
  have hFold : ∀ (ps : List (Symbol × Value δ)) (vs : Vars Symbol (Value δ)),
      (∀ p ∈ ps, p.1 ≠ s) → vs.lookup s = none →
        (ps.foldl (fun vs p => vs.bind p.1 p.2) vs).lookup s = none := by
    intro ps
    induction ps with
    | nil => exact fun vs _ h => h
    | cons p ps ih =>
      intro vs hps h
      refine ih _ (fun q hq => hps q (List.mem_cons_of_mem p hq)) ?_
      rw [Vars.lookup_bind_ne (hps p List.mem_cons_self).symm]
      exact h
  refine hFold _ _ (fun p hp hps => hs (hps ▸ (List.of_mem_zip hp).1)) ?_
  cases receiver with
  | none => rfl
  | some r => simp [Vars.lookup, Ne.symm hSelf]

end Effects

/-! ## Runs -/

namespace Isolated

variable {built : EnvFrames δ} {root : Nat} {t : StaticBlock} {frees : List Symbol}
  {n n' : Nest δ}

theorem level_eq (h : Isolated built root t frees n) {l l' : Own} (hl : l ∈ n.levels)
    (hl' : l' ∈ n.levels) (hEq : l.1 = l'.1) : l = l' :=
  List.inj_on_of_nodup_map (h.own ▸ h.nodup) hl hl' hEq

theorem mem_own (h : Isolated built root t frees n) {l : Own} (hl : l ∈ n.levels) : l.1 ∈ n.own :=
  h.own ▸ List.mem_map_of_mem hl

theorem start (hWalked : Walked t) (hRoot : root < built.length)
    (hLevel : LevelOk [] frees t) : Isolated built root t frees (.start built t root frees) where
  walked := hWalked
  root_eq := rfl
  root_lt := hRoot
  kept _ _ := rfl
  own := rfl
  nodup := .nil
  own_lt _ hi := by cases hi
  binds _ hl := by cases hl
  blocks b hb := by
    obtain rfl := List.mem_singleton.mp hb
    exact ⟨⟨.refl, hLevel⟩, [], rfl, fun _ hi => by cases hi⟩
  frames _ hfr := by cases hfr

theorem levels_enter (b : NestBlock) (vs : Vars Symbol (Value δ)) (instantiating : Bool) :
    (n.enter b vs instantiating).levels =
      n.levels ++ [(n.envs.length, b.template.declared b.bound)] := by
  simp [Nest.levels, Nest.enter, NestFrame.declared]

/-- A call, over a frame that binds no more than the parameters. -/
theorem enter (h : Isolated built root t frees n) {b : NestBlock} (hb : b ∈ n.blocks)
    {vs : Vars Symbol (Value δ)}
    (hVars : ∀ s, Fixed t s → s ∉ b.template.paramSyms → vs.lookup s = none)
    (instantiating : Bool) : Isolated built root t frees (n.enter b vs instantiating) := by
  obtain ⟨hLevel, hBehind⟩ := h.blocks b hb
  have hLevels := levels_enter (n := n) b vs instantiating
  -- only the new frame is new, and it stands over an environment of its own
  have hSub : n.levels ⊆ (n.enter b vs instantiating).levels := by
    rw [hLevels]
    exact fun l hl => List.mem_append_left _ hl
  have hOld : ∀ i < n.envs.length, vars (n.envs ++ [vs]) i = vars n.envs i :=
    fun i hi => vars_append hi _
  refine ⟨h.walked, h.root_eq, ?_, ?_, ?_, ?_, ?_, ?_, ?_, ?_⟩
  · simp only [Nest.enter, List.length_append]
    exact Nat.lt_add_right _ h.root_lt
  · intro s hs
    simp only [Nest.enter]
    rw [hOld _ h.root_lt]
    exact h.kept s hs
  · rw [hLevels, List.map_append, h.own]
    rfl
  · refine List.Nodup.append h.nodup (List.nodup_singleton _) ?_
    intro i hi hi'
    have := (h.own_lt i hi).1
    rw [List.mem_singleton.mp hi'] at this
    exact Nat.lt_irrefl _ this
  · intro i hi
    simp only [Nest.enter, List.length_append, List.length_singleton]
    rcases List.mem_append.mp hi with hi | hi
    · exact ⟨Nat.lt_succ_of_lt (h.own_lt i hi).1, (h.own_lt i hi).2⟩
    · obtain rfl := List.mem_singleton.mp hi
      exact ⟨Nat.lt_succ_self _, h.root_lt.ne'⟩
  · -- the new level binds what its block declares
    intro l hl s hs hNot
    simp only [Nest.enter]
    rw [hLevels] at hl
    rcases List.mem_append.mp hl with hl | hl
    · rw [hOld _ (h.own_lt _ (h.mem_own hl)).1]
      exact h.binds l hl s hs hNot
    · obtain rfl := List.mem_singleton.mp hl
      have hNew : vars (n.envs ++ [vs]) n.envs.length = vs := by
        simp [vars]
      rw [hNew]
      exact hVars s hs fun hp => hNot (Level.params_declared _ _ hp)
  · intro b' hb'
    exact ⟨(h.blocks b' hb').1, (h.blocks b' hb').2.congr rfl hSub⟩
  · intro fr hfr
    rcases List.mem_append.mp hfr with hfr | hfr
    · exact ⟨(h.frames fr hfr).1, (h.frames fr hfr).2.congr rfl hSub⟩
    · obtain rfl := List.mem_singleton.mp hfr
      exact ⟨hLevel, hBehind.congr rfl hSub⟩

theorem behind_env (h : Isolated built root t frees n) {fr : NestFrame} (hfr : fr ∈ n.frames) :
    n.Behind fr.env fr.declared :=
  (h.frames fr hfr).2.cons (List.mem_map_of_mem hfr) (Level.subset_declared _ _)

/-- One instruction of a frame of the nest. -/
theorem execute (h : Isolated built root t frees n) {f : Nat} {fr : NestFrame} {inst : Instruction}
    {val : Value δ} {taken : Bool} (hfr : n.frames[f]? = some fr) (hInst : fr.inst = some inst)
    (hStep : n.execute f fr inst val taken = some n') : Isolated built root t frees n' := by
  have hMem : fr ∈ n.frames := List.mem_of_getElem? hfr
  have hIn : inst ∈ fr.template.bytecode := List.mem_of_getElem? hInst
  obtain ⟨hLevel, hBehind⟩ := h.frames fr hMem
  unfold Nest.execute at hStep
  split_ifs at hStep
  cases hStep
  generalize hEnvs : Nest.storeEffect n.envs fr inst val = envs
  generalize hNext : inst.next fr.ip fr.template.bytecode.length taken = ip
  have hLength : envs.length = n.envs.length := hEnvs ▸ length_storeEffect
  have hLookup : ∀ s, Fixed t s → ∀ i, (inst.defines = some s → i ≠ fr.ownEnv) →
      (vars envs i).lookup s = (vars n.envs i).lookup s := by
    intro s hs i hi
    rw [← hEnvs]
    exact lookup_storeEffect (hs.2 _ hLevel.within _ hIn) hi
  have hLevels : (n.frames.set f { fr with ip := ip }).map
      (fun fr => ((fr.ownEnv, fr.declared) : Own)) = n.levels := by
    rw [List.map_set, Nest.levels]
    refine List.ext_getElem? fun i => ?_
    rw [List.getElem?_set]
    split_ifs with hi hlt
    · subst hi
      rw [List.getElem?_map, hfr]
      rfl
    · subst hi
      rw [List.getElem?_eq_none (not_lt.mp hlt)]
    · rfl
  have hSub : n.levels ⊆ (n.frames.set f { fr with ip := ip }).map
      fun fr => ((fr.ownEnv, fr.declared) : Own) := by
    rw [hLevels]
    exact List.Subset.refl _
  have hOwn : (fr.ownEnv, fr.declared) ∈ n.levels := List.mem_map_of_mem hMem
  refine ⟨h.walked, h.root_eq, ?_, ?_, ?_, h.nodup, ?_, ?_, ?_, ?_⟩
  · exact hLength ▸ h.root_lt
  · intro s hs
    refine (hLookup s hs _ fun _ hRoot => ?_).trans (h.kept s hs)
    exact (h.own_lt _ (h.mem_own hOwn)).2 hRoot.symm
  · exact (congrArg (List.map Prod.fst) hLevels).trans h.own
  · exact fun i hi => ⟨hLength ▸ (h.own_lt i hi).1, (h.own_lt i hi).2⟩
  · intro l hl s hs hNot
    replace hl : l ∈ n.levels := hLevels ▸ hl
    refine (hLookup s hs _ fun hDefines hEq => ?_).trans (h.binds l hl s hs hNot)
    -- a name that the frame defines is one that its level declares
    obtain rfl := h.level_eq hl hOwn hEq
    exact hNot (Level.defines_declared hIn hDefines _)
  · intro b hb
    rcases List.mem_append.mp hb with hb | hb
    · exact ⟨(h.blocks b hb).1, (h.blocks b hb).2.congr rfl hSub⟩
    · obtain ⟨inner, hInner, rfl⟩ := List.mem_map.mp hb
      refine ⟨hLevel.literal h.walked hIn (Option.mem_toList.mp hInner), ?_⟩
      exact (h.behind_env hMem).congr rfl hSub
  · intro fr' hfr'
    rcases List.mem_or_eq_of_mem_set hfr' with hfr' | rfl
    · exact ⟨(h.frames fr' hfr').1, (h.frames fr' hfr').2.congr rfl hSub⟩
    · exact ⟨hLevel, hBehind.congr rfl hSub⟩

/-- Code that is not of the nest leaves its frames alone. -/
theorem other (h : Isolated built root t frees n) {i : Nat} {vs : Vars Symbol (Value δ)}
    (hStep : n.step (.other i vs) = some n') : Isolated built root t frees n' := by
  rw [Nest.step] at hStep
  split_ifs at hStep with hNot hIn
  · cases hStep
    rw [not_or] at hNot
    have hOld : ∀ j, j = n.root ∨ j ∈ n.own → vars (n.envs.set i vs) j = vars n.envs j := by
      intro j hj
      have hij : i ≠ j := by
        rintro rfl
        exact hj.elim hNot.1 hNot.2
      simp [vars, List.getElem?_set_ne hij]
    refine ⟨h.walked, h.root_eq, ?_, ?_, h.own, h.nodup, ?_, ?_, h.blocks, h.frames⟩
    · simpa only [List.length_set] using h.root_lt
    · intro s hs
      exact (congrArg (Vars.lookup s) (hOld _ (.inl rfl))).trans (h.kept s hs)
    · simpa only [List.length_set] using h.own_lt
    · intro l hl s hs hs'
      exact (congrArg (Vars.lookup s) (hOld _ (.inr (h.mem_own hl)))).trans (h.binds l hl s hs hs')
  · cases hStep
    refine ⟨h.walked, h.root_eq, ?_, ?_, h.own, h.nodup, ?_, ?_, h.blocks, h.frames⟩
    · exact h.root_lt.trans_le (List.length_append ▸ Nat.le_add_right _ _)
    · intro s hs
      exact (congrArg (Vars.lookup s) (vars_append h.root_lt _)).trans (h.kept s hs)
    · intro j hj
      exact ⟨(h.own_lt j hj).1.trans_le (List.length_append ▸ Nat.le_add_right _ _),
        (h.own_lt j hj).2⟩
    · intro l hl s hs hs'
      have hLt := (h.own_lt _ (h.mem_own hl)).1
      exact (congrArg (Vars.lookup s) (vars_append hLt _)).trans (h.binds l hl s hs hs')

end Isolated

/-- All but the interpolation of a computed string. -/
def NestAction.scanned : NestAction δ → Prop
  | .interpolate _ _ => False
  | _ => True

instance (a : NestAction δ) : Decidable a.scanned := by
  cases a <;> unfold NestAction.scanned <;> infer_instance

namespace Isolated

variable {built : EnvFrames δ} {root : Nat} {t : StaticBlock} {frees : List Symbol}
  {n n' : Nest δ}

theorem step {a : NestAction δ} (h : Isolated built root t frees n) (ha : a.scanned)
    (hStep : n.step a = some n') : Isolated built root t frees n' := by
  cases a with
  | call b receiver args =>
    obtain ⟨b, hb, hEq⟩ := Option.bind_eq_some_iff.mp hStep
    cases hEq
    exact h.enter (List.mem_of_getElem? hb) (fun s hs hp => lookup_bindParams hs.1 hp) _
  | instantiate b =>
    obtain ⟨b, hb, hEq⟩ := Option.bind_eq_some_iff.mp hStep
    cases hEq
    exact h.enter (List.mem_of_getElem? hb) (fun s _ _ => rfl) _
  | exec f val taken =>
    obtain ⟨fr, hfr, hRest⟩ := Option.bind_eq_some_iff.mp hStep
    obtain ⟨inst, hInst, hExec⟩ := Option.bind_eq_some_iff.mp hRest
    exact h.execute hfr hInst hExec
  | interpolate f code => exact ha.elim
  | other i vs => exact h.other hStep

theorem run (h : Isolated built root t frees n)
    (hRun : Trans.Run Nest.step (fun _ a => a.scanned) n n') : Isolated built root t frees n' :=
  hRun.invariant h fun _ _ _ hs ha hStep => hs.step ha hStep

/-- A name that no level around a frame declares is read in the snapshot frame. -/
theorem get_eq (h : Isolated built root t frees n) {fr : NestFrame} (hfr : fr ∈ n.frames)
    {s : Symbol} (hs : Fixed t s) (hNot : s ∉ fr.declared) :
    get n.envs fr.env s = (vars built root).lookup s := by
  obtain ⟨c, hEnv, hc⟩ := h.behind_env hfr
  have hNone : get n.envs c s = none := by
    have hEach : ∀ i ∈ c, (vars n.envs i).lookup s = none := by
      intro i hi
      obtain ⟨l, hl, rfl, hSub⟩ := hc i hi
      exact h.binds l hl s hs fun hIn => hNot (hSub hIn)
    clear hEnv hc
    induction c with
    | nil => rfl
    | cons i c ih =>
      rw [Lexical.get, hEach i List.mem_cons_self]
      exact ih fun j hj => hEach j (List.mem_cons_of_mem i hj)
  rw [hEnv, get_append, hNone, Option.none_or, get_singleton]
  exact h.kept s hs

end Isolated

/-- **A shipped block reads the sender's values.** The block that a worker rebuilds is a closure
over one snapshot frame. However its nest runs there, as long as no computed string is interpolated,
what it runs was accepted by the scan, and a name that it reads and that no level around it
declares has a copy of the value that the sender saw, unless the nest assigns that name
somewhere. -/
theorem shipped_nest_reads {globals : List NamespacedName} {depth : Nat} {t : StaticBlock}
    {origin : Chain} {sent built built' : EnvFrames δ} {pb : PortableBlock ω} {v : Value δ}
    (hSnap : snapshotBlock w sent t origin depth = .ok pb)
    (hBuild : rebuildPortableValue w globals built pb = .ok (built', v)) (hWalked : Walked t) :
    ∃ root captured, v = .block t [root] ∧
      ∀ n, Trans.Run Nest.step (fun _ a => a.scanned) (.start built' t root captured) n →
        ∀ fr ∈ n.frames, ∀ inst, fr.inst = some inst →
          InstOk fr.declared captured fr.template.isInitLiteral inst ∧
          ∀ s ∈ inst.envReads, s ∉ fr.declared → Fixed t s →
            ∃ u, get n.envs fr.env s = some u ∧
              Copies w sent built' (valueAt w sent origin s) u := by
  obtain ⟨hCopies, -⟩ := copies_of_ship hSnap hBuild
  cases hCopies with
  | @block _ _ root frees globals value hScan hRoot hLookup hCopy =>
    refine ⟨root, frees, rfl, fun n hRun fr hfr inst hInst => ?_⟩
    have hStart : Isolated built' root t frees (.start built' t root frees) :=
      .start hWalked hRoot (levelOk_of_scanPortable hScan)
    have hEnd := hStart.run hRun
    have hOk : InstOk fr.declared frees fr.template.isInitLiteral inst :=
      (hEnd.frames fr hfr).1.ok.instOk (List.mem_of_getElem? hInst)
    refine ⟨hOk, fun s hs hNot hFixed => ?_⟩
    have hFree : s ∈ frees := ((hOk.reads s hs).resolve_left hNot).2
    refine ⟨value s, ?_, hCopy s hFree⟩
    rw [hEnd.get_eq hfr hFixed hNot]
    exact hLookup s hFree

/-- Data that crosses as it is. -/
def plainWalkers : Walkers Int64 Int64 := ⟨0, .ok, .ok⟩

/-- `{ x + { y } }`. -/
def sumOfTwo : StaticBlock :=
  .mk [] [.loadLocal "x", .push (.block (.mk [] [.loadLocal "y"] none false)), .send "+" 1] none
    false

theorem walked_sumOfTwo : Walked sumOfTwo := by
  have hTwo : ∀ t', Within sumOfTwo t' →
      t' = sumOfTwo ∨ t' = .mk [] [.loadLocal "y"] none false := by
    intro t' h
    induction h with
    | refl => exact .inl rfl
    | literal _ hMem hInner ih =>
      rcases ih with rfl | rfl
      · fin_cases hMem <;> cases hInner
        exact .inr rfl
      · fin_cases hMem
        cases hInner
  intro t' h inst hMem
  rcases hTwo t' h with rfl | rfl <;> fin_cases hMem <;> rfl

/-- The block adds two variables of the sender's, each of which it reads through the snapshot. -/
theorem shipped_nest_reads_sum : ∃ root captured,
    (.block sumOfTwo [0] : Value Int64) = .block sumOfTwo [root] ∧
      ∀ n, Trans.Run Nest.step (fun _ a => a.scanned)
          (.start [[("x", .data 1), ("y", .data 2)]] sumOfTwo root captured) n →
        ∀ fr ∈ n.frames, ∀ inst, fr.inst = some inst →
          InstOk fr.declared captured fr.template.isInitLiteral inst ∧
          ∀ s ∈ inst.envReads, s ∉ fr.declared → Fixed sumOfTwo s →
            ∃ u, get n.envs fr.env s = some u ∧
              Copies plainWalkers [[("y", .data 2)], [("x", .data 1)]]
                [[("x", .data 1), ("y", .data 2)]]
                (valueAt plainWalkers [[("y", .data 2)], [("x", .data 1)]] [1, 0] s) u := by
  have hSnap : snapshotBlock plainWalkers [[("y", .data 2)], [("x", .data 1)]] sumOfTwo [1, 0] 0
      = .ok (.mk sumOfTwo [("x", .data 1), ("y", .data 2)] []) := rfl
  have hBuild : rebuildPortableValue plainWalkers [] []
      (.mk sumOfTwo [("x", .data 1), ("y", .data 2)] [])
      = .ok ([[("x", .data 1), ("y", .data 2)]], .block sumOfTwo [0]) := rfl
  exact shipped_nest_reads hSnap hBuild walked_sumOfTwo

end Quoin.Portable
