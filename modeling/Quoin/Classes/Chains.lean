import Mathlib
import Quoin.Trans.LastWins
import Quoin.Trans.Links

/-!
# Quoin — the method chain of a selector

A class keeps one method object for a selector, and further variants hang from it by their
`next`. A definition makes a method object and adds it by `replaceOrAppendMethodInChain`:
an unguarded block takes the place of the unguarded block with its parameter types and
element tags; everything else becomes the last cell.

Blocks do not change once they are made, so a method holds its block as a value here.

`chain_lastWins`: after any definitions the chain is finite and has no cycle, and
its bodies are what the library's `LastWins` says of the definitions' history.

## Results

* `chain_lastWins` — any definitions leave a finite chain without a cycle, with the last body of
  each identity, in the order of first addition.
-/

namespace Quoin.Classes

open Trans

/-! ## Methods -/

section Methods

variable (τ : Type)

/-- A block: which one it is, what its literal says of its parameters, and its guard. -/
structure MethodBlock where
  id : Nat
  paramTypes : List String
  /-- The tags of the elements that the parameters must have. -/
  paramElemTags : List (Option τ)
  declBlock : Option Nat
  deriving DecidableEq

inductive MethodBody where
  | userBlock (block : MethodBlock τ)
  | native (func : Nat) (paramTypes : Option (List String))
  | extDispatch (ext : Nat)
  | serviceDispatch (service : Nat)
  deriving DecidableEq

structure NativeMethodState where
  selector : String
  body : MethodBody τ
  isExtension : Bool
  next : Option Nat
  deriving DecidableEq

/-- What a reference may lead to: a method, a block, or anything else. -/
inductive MethodObject where
  | method (state : NativeMethodState τ)
  | block (block : MethodBlock τ)
  | other
  deriving DecidableEq

abbrev MethodHeap := List (MethodObject τ)

end Methods

variable {τ : Type}

/-- `NativeMethodState::get_block`. -/
def MethodBody.getBlock : MethodBody τ → Option (MethodBlock τ)
  | .userBlock block => some block
  | .native _ _ | .extDispatch _ | .serviceDispatch _ => none

def getBlockFromMethod (h : MethodHeap τ) (methodVal : Nat) : Option (MethodBlock τ) :=
  match h[methodVal]? with
  | some (.block block) => some block
  | some (.method state) => state.body.getBlock
  | _ => none

def getNextMethodInChain (h : MethodHeap τ) (methodVal : Nat) : Option Nat :=
  match h[methodVal]? with
  | some (.method state) => state.next
  | _ => none

/-! ## Additions -/

/-- The loop of `append_method_to_chain`, for a number of turns. -/
def appendMethodToChain (h : MethodHeap τ) (newMethod : Nat) :
    Nat → Nat → Option (Except String (MethodHeap τ))
  | 0, _ => none
  | turns + 1, curr =>
    match h[curr]? with
    | some (.method state) =>
      match state.next with
      | some next => appendMethodToChain h newMethod turns next
      | none => some (.ok (h.set curr (.method { state with next := some newMethod })))
    | _ => some (.error "Invalid method object in chain")

/-- A variant's identity, if it is an unguarded user variant. -/
def MethodBlock.identity (block : MethodBlock τ) : Option (List String × List (Option τ)) :=
  if block.declBlock = none then some (block.paramTypes, block.paramElemTags) else none

/-- What the loop of `replace_or_append_method_in_chain` finds: the node that matches the new
block, if there is one. -/
def findMatch [DecidableEq τ] (h : MethodHeap τ) (newBlock : MethodBlock τ) :
    Nat → Option Nat → Option (Option Nat)
  | _, none => some none
  | 0, some _ => none
  | turns + 1, some node =>
    if (getBlockFromMethod h node).any fun existing => existing.declBlock = none ∧
        existing.paramTypes = newBlock.paramTypes ∧
        existing.paramElemTags = newBlock.paramElemTags then
      some (some node)
    else findMatch h newBlock turns (getNextMethodInChain h node)

/-- The body of a method, replaced; nothing else changes. -/
def replaceBody (h : MethodHeap τ) (node : Nat) (newBlock : MethodBlock τ) : MethodHeap τ :=
  match h[node]? with
  | some (.method state) => h.set node (.method { state with body := .userBlock newBlock })
  | _ => h

def replaceOrAppendMethodInChain [DecidableEq τ] (h : MethodHeap τ)
    (turns chainStart newMethod : Nat) : Option (Except String (MethodHeap τ)) :=
  match getBlockFromMethod h newMethod with
  | none => appendMethodToChain h newMethod turns chainStart
  | some newBlock =>
    if newBlock.declBlock = none then
      match h[newMethod]? with
      | some (.method _) =>
        match findMatch h newBlock turns (some chainStart) with
        | none => none
        | some (some node) => some (.ok (replaceBody h node newBlock))
        | some none => appendMethodToChain h newMethod turns chainStart
      -- `with_native_state` of what is no method.
      | _ => some (.error "Not a native state of the requested type")
    else appendMethodToChain h newMethod turns chainStart

/-- A method definition: its selector, its block, and whether it is by `-->`. -/
structure Definition (τ : Type) where
  selector : String
  block : MethodBlock τ
  isExtension : Bool

/-- `new_method`. -/
def Definition.state (d : Definition τ) : NativeMethodState τ :=
  ⟨d.selector, .userBlock d.block, d.isExtension, none⟩

/-- A definition for a class that has the selector: `DefineMethod` and `OverrideMethod`. -/
def define [DecidableEq τ] (turns chainStart : Nat) (h : MethodHeap τ) (d : Definition τ) :
    Option (Except String (MethodHeap τ)) :=
  replaceOrAppendMethodInChain (h ++ [.method d.state]) turns chainStart h.length

/-- One definition after the other. -/
def defineAll [DecidableEq τ] (turns chainStart : Nat) :
    MethodHeap τ → List (Definition τ) → Option (Except String (MethodHeap τ))
  | h, [] => some (.ok h)
  | h, d :: ds =>
    match define turns chainStart h d with
    | some (.ok h') => defineAll turns chainStart h' ds
    | r => r

/-- The identity of a body: none for a native one and for a guarded block. -/
def MethodBody.identity (body : MethodBody τ) : Option (List String × List (Option τ)) :=
  body.getBlock.bind MethodBlock.identity

/-! ## What a chain holds -/

/-- The reference leads to a method with this body. -/
def HasBody (h : MethodHeap τ) (methodVal : Nat) (body : MethodBody τ) : Prop :=
  ∃ state, h[methodVal]? = some (.method state) ∧ state.body = body

/-- The chain of these methods, with these bodies. -/
structure Variants (h : MethodHeap τ) (chainStart : Nat) (nodes : List Nat)
    (bodies : List (MethodBody τ)) : Prop where
  chain : Chain (getNextMethodInChain h) chainStart nodes
  body : nodes.Forall₂ (HasBody h) bodies

section Lookup

variable {h h' : MethodHeap τ} {m n : Nat} {body : MethodBody τ} {block : MethodBlock τ}
  {chainStart turns : Nat} {nodes : List Nat} {bodies : List (MethodBody τ)}

theorem HasBody.congr (hBody : HasBody h m body) (hSame : h'[m]? = h[m]?) : HasBody h' m body := by
  obtain ⟨state, hState, hEq⟩ := hBody
  exact ⟨state, hSame.trans hState, hEq⟩

theorem bodies_congr (hBodies : nodes.Forall₂ (HasBody h) bodies)
    (hSame : ∀ n ∈ nodes, h'[n]? = h[n]?) : nodes.Forall₂ (HasBody h') bodies := by
  induction hBodies with
  | nil => exact .nil
  | @cons n body nodes bodies hBody _ ih =>
    exact .cons (hBody.congr (hSame n List.mem_cons_self))
      (ih fun m hMem => hSame m (List.mem_cons_of_mem _ hMem))

theorem HasBody.getBlock (hBody : HasBody h m body) : getBlockFromMethod h m = body.getBlock := by
  obtain ⟨state, hState, rfl⟩ := hBody
  simp [getBlockFromMethod, hState]

theorem HasBody.lt (hBody : HasBody h m body) : m < h.length := by
  obtain ⟨state, hState, -⟩ := hBody
  exact (List.getElem?_eq_some_iff.mp hState).1

theorem next_congr (hSame : h'[m]? = h[m]?) :
    getNextMethodInChain h' m = getNextMethodInChain h m := by
  rw [getNextMethodInChain, getNextMethodInChain, hSame]

theorem replaceBody_get_ne (hNe : n ≠ m) : (replaceBody h n block)[m]? = h[m]? := by
  unfold replaceBody
  split
  · exact List.getElem?_set_ne hNe
  · rfl

theorem replaceBody_hasBody (hBody : HasBody h m body) :
    HasBody (replaceBody h m block) m (.userBlock block) := by
  have hLt := hBody.lt
  obtain ⟨state, hState, -⟩ := hBody
  simp only [replaceBody, hState]
  exact ⟨{ state with body := .userBlock block }, by simp [hLt], rfl⟩

/-- The links stay as they are. -/
theorem next_replaceBody : getNextMethodInChain (replaceBody h n block) m =
    getNextMethodInChain h m := by
  by_cases hNe : n = m
  · subst hNe
    unfold replaceBody
    split
    next state hState =>
      have hLt := (List.getElem?_eq_some_iff.mp hState).1
      have hSet : ∀ o, (h.set n o)[n]? = some o := fun o => by simp [hLt]
      simp only [getNextMethodInChain, hSet, hState]
    next => rfl
  · exact next_congr (replaceBody_get_ne hNe)

/-- The loop over an ended chain sets the link of its last method. -/
theorem appendMethodToChain_variants (newMethod : Nat) (hv : Variants h chainStart nodes bodies)
    (hTurns : nodes.length ≤ turns) :
    ∃ z ∈ nodes, ∃ state, h[z]? = some (.method state) ∧ state.next = none ∧
      appendMethodToChain h newMethod turns chainStart =
        some (.ok (h.set z (.method { state with next := some newMethod }))) := by
  obtain ⟨hChain, hBodies⟩ := hv
  induction hBodies generalizing chainStart turns with
  | nil => cases hChain
  | @cons node body nodes bodies hBody hRest ih =>
    obtain ⟨turns, rfl⟩ : ∃ k, turns = k + 1 := Nat.exists_eq_add_one.mpr
      (Nat.lt_of_lt_of_le (Nat.succ_pos _) hTurns)
    obtain ⟨state, hState, -⟩ := hBody
    have hLink : getNextMethodInChain h node = state.next := by
      simp [getNextMethodInChain, hState]
    cases hChain with
    | last hEnd =>
      have hNone := hLink.symm.trans hEnd
      refine ⟨_, List.mem_cons_self, state, hState, hNone, ?_⟩
      simp [appendMethodToChain, hState, hNone]
    | link hNext rest =>
      have hSome := hLink.symm.trans hNext
      obtain ⟨z, hMem, last, hLast, hEnd, hAppend⟩ := ih (Nat.le_of_succ_le_succ hTurns) rest
      refine ⟨z, List.mem_cons_of_mem _ hMem, last, hLast, hEnd, ?_⟩
      simp [appendMethodToChain, hState, hSome, hAppend]

/-- Each cell is a method. -/
theorem hasBody_of_mem (hBodies : nodes.Forall₂ (HasBody h) bodies) (hMem : n ∈ nodes) :
    ∃ body, HasBody h n body := by
  induction hBodies with
  | nil => cases hMem
  | cons hBody _ ih =>
    rcases List.mem_cons.mp hMem with rfl | hMem
    · exact ⟨_, hBody⟩
    · exact ih hMem

/-- A new last method. -/
theorem Variants.append {newMethod : Nat} {state : NativeMethodState τ}
    (hv : Variants h chainStart nodes bodies) (hNew : h[newMethod]? = some (.method state))
    (hSingle : state.next = none) (hFresh : newMethod ∉ nodes) (hTurns : nodes.length ≤ turns) :
    ∃ h', appendMethodToChain h newMethod turns chainStart = some (.ok h') ∧
      Variants h' chainStart (nodes ++ [newMethod]) (bodies ++ [state.body]) := by
  obtain ⟨z, hMem, last, hLast, hEnd, hAppend⟩ := appendMethodToChain_variants newMethod hv hTurns
  have hLt := (List.getElem?_eq_some_iff.mp hLast).1
  have hSet : ∀ o, (h.set z o)[z]? = some o := fun o => by simp [hLt]
  have hSame : ∀ o {n}, n ≠ z → (h.set z o)[n]? = h[n]? := fun o {n} hNe =>
    List.getElem?_set_ne hNe.symm
  have hApart : newMethod ≠ z := by
    rintro rfl
    exact hFresh hMem
  refine ⟨_, hAppend, hv.chain.extend ?_ ?_ ?_, List.rel_append (hv.body.imp ?_) ?_⟩
  · rw [next_congr (hSame _ hApart), getNextMethodInChain, hNew]
    exact hSingle
  · intro c hc hcEnd
    have hzEnd : getNextMethodInChain h z = none := by
      rw [getNextMethodInChain, hLast]
      exact hEnd
    rw [hv.chain.end_unique hc hcEnd hMem hzEnd, getNextMethodInChain, hSet]
  · intro c _ hLinked
    refine next_congr (hSame _ ?_)
    rintro rfl
    simp [getNextMethodInChain, hLast, hEnd] at hLinked
  · intro n body hBody
    by_cases hNe : n = z
    · subst hNe
      obtain ⟨state', hState', rfl⟩ := hBody
      cases hState'.symm.trans hLast
      exact ⟨_, hSet _, rfl⟩
    · exact hBody.congr (hSame _ hNe)
  · exact .cons ⟨state, (hSame _ hApart).trans hNew, rfl⟩ .nil

end Lookup

/-! ## One definition -/

section Define

variable [DecidableEq τ] {h : MethodHeap τ} {chainStart : Nat} {nodes : List Nat}
  {bodies : List (MethodBody τ)} {newBlock : MethodBlock τ} {turns : Nat}

theorem matches_iff (hPlain : newBlock.declBlock = none) (body : MethodBody τ) :
    (body.getBlock.any fun existing => existing.declBlock = none ∧
        existing.paramTypes = newBlock.paramTypes ∧
        existing.paramElemTags = newBlock.paramElemTags) = true ↔
      body.identity = newBlock.identity := by
  unfold MethodBody.identity
  cases body.getBlock with
  | none => simp [MethodBlock.identity, hPlain]
  | some existing =>
    by_cases hGuard : existing.declBlock = none <;>
      simp [MethodBlock.identity, hPlain, hGuard]

/-- The loop over an ended chain finds the variant that the new block replaces, or that there
is none. -/
theorem findMatch_variants (hPlain : newBlock.declBlock = none)
    (hv : Variants h chainStart nodes bodies) (hTurns : nodes.length ≤ turns) :
    (findMatch h newBlock turns (some chainStart) = some none ∧
      supersede MethodBody.identity bodies (.userBlock newBlock) =
        bodies ++ [.userBlock newBlock]) ∨
    ∃ node ∈ nodes, findMatch h newBlock turns (some chainStart) = some (some node) ∧
      nodes.Forall₂ (HasBody (replaceBody h node newBlock))
        (supersede MethodBody.identity bodies (.userBlock newBlock)) := by
  have hKey : MethodBody.identity (.userBlock newBlock) ≠ none := by
    simp [MethodBody.identity, MethodBody.getBlock, MethodBlock.identity, hPlain]
  obtain ⟨hChain, hBodies⟩ := hv
  -- along the chain, up to the first variant of that identity
  induction hBodies generalizing chainStart turns with
  | nil => cases hChain
  | @cons node body nodes bodies hBody hRest ih =>
    obtain ⟨turns, rfl⟩ : ∃ k, turns = k + 1 := Nat.exists_eq_add_one.mpr
      (Nat.lt_of_lt_of_le (Nat.succ_pos _) hTurns)
    have hNodup := hChain.nodup
    have hStart : chainStart = node := by cases hChain <;> rfl
    subst hStart
    rw [findMatch, hBody.getBlock]
    by_cases hMatch : body.identity = newBlock.identity
    · right
      refine ⟨chainStart, List.mem_cons_self, if_pos ((matches_iff hPlain body).mpr hMatch), ?_⟩
      rw [supersede, if_pos ⟨hKey, hMatch⟩]
      refine .cons (replaceBody_hasBody hBody) (bodies_congr hRest fun n hMem => ?_)
      refine replaceBody_get_ne ?_
      rintro rfl
      exact (List.nodup_cons.mp hNodup).1 hMem
    · rw [if_neg (mt (matches_iff hPlain body).mp hMatch), supersede,
        if_neg (fun hBoth => hMatch hBoth.2)]
      -- the walk goes on to the next method, or is at the end
      cases hChain with
      | last hEnd =>
        cases hRest
        rw [hEnd]
        left
        cases turns <;> exact ⟨rfl, rfl⟩
      | link hNext rest =>
        rw [hNext]
        rcases ih (Nat.le_of_succ_le_succ hTurns) rest with ⟨hNone, hEnd⟩ | ⟨n, hMem, hSome, hNew⟩
        · exact .inl ⟨hNone, by rw [hEnd, List.cons_append]⟩
        · refine .inr ⟨n, List.mem_cons_of_mem _ hMem, hSome, .cons (hBody.congr ?_) hNew⟩
          refine replaceBody_get_ne ?_
          rintro rfl
          exact (List.nodup_cons.mp hNodup).1 hMem

/-- A definition adds its block to the variants. -/
theorem define_variants (hv : Variants h chainStart nodes bodies) (d : Definition τ)
    (hTurns : nodes.length ≤ turns) :
    ∃ h' nodes', define turns chainStart h d = some (.ok h') ∧ Variants h' chainStart nodes'
      (supersede MethodBody.identity bodies (.userBlock d.block)) := by
  have hNew : (h ++ [.method d.state])[h.length]? = some (.method d.state) := by simp
  have hOld : ∀ n ∈ nodes, (h ++ [.method d.state])[n]? = h[n]? := by
    intro n hMem
    obtain ⟨body, hBody⟩ := hasBody_of_mem hv.body hMem
    exact List.getElem?_append_left hBody.lt
  have hGrown : Variants (h ++ [.method d.state]) chainStart nodes bodies :=
    ⟨hv.chain.congr fun n hMem => next_congr (hOld n hMem), bodies_congr hv.body hOld⟩
  have hFresh : h.length ∉ nodes := by
    intro hMem
    obtain ⟨body, hBody⟩ := hasBody_of_mem hv.body hMem
    exact lt_irrefl _ hBody.lt
  have hBlock : getBlockFromMethod (h ++ [.method d.state]) h.length = some d.block := by
    rw [getBlockFromMethod, hNew]
    rfl
  unfold define replaceOrAppendMethodInChain
  simp only [hBlock, hNew]
  obtain ⟨h', hAppend, hv'⟩ := hGrown.append hNew rfl hFresh hTurns
  by_cases hPlain : d.block.declBlock = none
  · rw [if_pos hPlain]
    rcases findMatch_variants hPlain hGrown hTurns with ⟨hNone, hEnd⟩ | ⟨n, hMem, hSome, hBodies⟩
    · rw [hNone, hEnd]
      exact ⟨h', _, hAppend, hv'⟩
    · rw [hSome]
      exact ⟨_, nodes, rfl, hGrown.chain.congr fun _ _ => next_replaceBody, hBodies⟩
  · have hKeyless : MethodBody.identity (.userBlock d.block) = none := by
      simp [MethodBody.identity, MethodBody.getBlock, MethodBlock.identity, hPlain]
    rw [if_neg hPlain, supersede_none _ _ hKeyless]
    exact ⟨h', _, hAppend, hv'⟩

/-- So do definitions, one after the other. -/
theorem defineAll_variants {history : List (MethodBody τ)} (ds : List (Definition τ))
    (hv : Variants h chainStart nodes bodies)
    (hWins : LastWins MethodBody.identity history bodies)
    (hTurns : history.length + ds.length ≤ turns + 1) :
    ∃ h' nodes' bodies', defineAll turns chainStart h ds = some (.ok h') ∧
      Variants h' chainStart nodes' bodies' ∧
      LastWins MethodBody.identity (history ++ ds.map fun d => .userBlock d.block) bodies' := by
  induction ds generalizing h nodes bodies history with
  | nil => exact ⟨h, nodes, bodies, rfl, hv, by simpa using hWins⟩
  | cons d ds ih =>
    have hLength : nodes.length ≤ turns := by
      have hShort := hWins.length_le
      rw [hv.body.length_eq]
      simp only [List.length_cons] at hTurns
      omega
    obtain ⟨h', nodes', hDefine, hv'⟩ := define_variants hv d hLength
    have hAdded := hWins.add (.userBlock d.block)
    obtain ⟨h'', nodes'', bodies'', hAll, hv'', hWins''⟩ := ih hv' hAdded (by
      simp only [List.length_append, List.length_cons, List.length_nil] at hTurns ⊢
      omega)
    refine ⟨h'', nodes'', bodies'', ?_, hv'', by simpa using hWins''⟩
    rw [defineAll, hDefine]
    exact hAll

end Define

/-! ## Definitions, one after the other -/

/-- From one method, any definitions leave a chain that ends and has no cycle. Each identity has
one variant in it, with the body that was defined last; every other variant is kept with its
body; and all are in the order in which they were first defined. -/
theorem chain_lastWins {τ : Type} [DecidableEq τ] (h : MethodHeap τ) (chainStart : Nat)
    (first : NativeMethodState τ) (hStart : h[chainStart]? = some (.method first))
    (hSingle : first.next = none) (ds : List (Definition τ)) (turns : Nat)
    (hTurns : ds.length ≤ turns) :
    ∃ h' nodes bodies, defineAll turns chainStart h ds = some (.ok h') ∧
      Chain (getNextMethodInChain h') chainStart nodes ∧ nodes.Nodup ∧
      nodes.Forall₂ (HasBody h') bodies ∧
      LastWins MethodBody.identity (first.body :: ds.map fun d => .userBlock d.block) bodies ∧
      ∀ k, (bodies.filter (MethodBody.identity · = some k)).length ≤ 1 := by
  have hEnd : getNextMethodInChain h chainStart = none := by
    rw [getNextMethodInChain, hStart]
    exact hSingle
  have hv : Variants h chainStart [chainStart] [first.body] :=
    ⟨.last hEnd, .cons ⟨first, hStart, rfl⟩ .nil⟩
  obtain ⟨h', nodes, bodies, hAll, hv', hWins⟩ :=
    defineAll_variants ds hv (.single first.body)
      (show [first.body].length + ds.length ≤ turns + 1 by simp; omega)
  exact ⟨h', nodes, bodies, hAll, hv'.chain, hv'.chain.nodup, hv'.body, hWins, hWins.unique⟩

/-- A native method, then a block and another one with its types, and one with an element tag. -/
theorem chain_lastWins_native :
    ∃ (h' : MethodHeap Nat) (nodes : List Nat) (bodies : List (MethodBody Nat)),
      defineAll 3 0 [.method ⟨"at:", .native 0 (some ["Integer"]), false, none⟩]
          [⟨"at:", ⟨1, ["List"], [], none⟩, false⟩, ⟨"at:", ⟨2, ["List"], [some 5], none⟩, false⟩,
            ⟨"at:", ⟨3, ["List"], [], none⟩, true⟩] = some (.ok h') ∧
        nodes.Forall₂ (HasBody h') bodies ∧
        LastWins MethodBody.identity [.native 0 (some ["Integer"]),
          .userBlock ⟨1, ["List"], [], none⟩, .userBlock ⟨2, ["List"], [some 5], none⟩,
          .userBlock ⟨3, ["List"], [], none⟩] bodies := by
  obtain ⟨h', nodes, bodies, hAll, -, -, hBodies, hWins, -⟩ := chain_lastWins
    [.method ⟨"at:", .native 0 (some ["Integer"]), false, none⟩] 0 _ rfl rfl
    [⟨"at:", ⟨1, ["List"], [], none⟩, false⟩, ⟨"at:", ⟨2, ["List"], [some 5], none⟩, false⟩,
      ⟨"at:", ⟨3, ["List"], [], none⟩, true⟩] 3 (Nat.le_refl 3)
  exact ⟨h', nodes, bodies, hAll, hBodies, hWins⟩

end Quoin.Classes
