import Quoin.Portable.Ship
import Quoin.Trans.Run

/-!
# Quoin — a block nest at run time

What the interpreter does with names while a block and the literals nested in
it run. A call binds the parameters that have arguments in a fresh env frame
over the closure's chain (`start_block`, `start_block_as_method`,
`start_block_for_instantiation`); an instruction looks names up through the
chain, binds or assigns one, and may close a literal over the frame it runs
in. Values and the operand stack are not followed: what a store stores, what a
call passes and whether a branch is taken come with the action, so every run
of the interpreter is a run here. `interpolate` is the unary `%` of a computed
string, which compiles the text inside the braces and runs it over the env of
the caller.

Code that is not of the nest runs in between (`other`). It has no closure over
the nest's frames, so it leaves them alone. A closure the VM keeps for a
template without captures is not modelled: it differs from a fresh one only in
what is behind its own frame.
-/

namespace Quoin.Portable

open Lexical

variable {δ : Type}

/-- A closure of the nest. -/
structure NestBlock where
  template : StaticBlock
  parentEnv : Chain
  /-- ghost: the names the levels around it declare -/
  bound : List Symbol

/-- An activation of one of them. -/
structure NestFrame where
  template : StaticBlock
  /-- the env frame of this activation -/
  ownEnv : Nat
  parentEnv : Chain
  ip : Nat
  /-- `instantiating_obj.is_some()` -/
  instantiating : Bool
  /-- ghost: as in `NestBlock` -/
  bound : List Symbol

namespace NestFrame

def env (fr : NestFrame) : Chain := fr.ownEnv :: fr.parentEnv

/-- The names the scan takes for bound at this level. -/
def declared (fr : NestFrame) : List Symbol := fr.template.declared fr.bound

/-- The instruction about to run. -/
def inst (fr : NestFrame) : Option Instruction := fr.template.bytecode[fr.ip]?

/-- Stores bind in the frame's own env instead of walking the chain. -/
def bindsLocally (fr : NestFrame) : Bool := fr.instantiating || fr.template.isInitLiteral

end NestFrame

/-- The state of a nest shipped to a worker. -/
structure Nest (δ : Type) where
  envs : EnvFrames δ
  /-- the snapshot frame -/
  root : Nat
  /-- ghost: the names the snapshot took -/
  captured : List Symbol
  /-- the env frames of the nest's activations -/
  own : List Nat
  blocks : List NestBlock
  frames : List NestFrame

/-- A rebuilt block, before it is first called. -/
def Nest.start (built : EnvFrames δ) (template : StaticBlock) (root : Nat)
    (captured : List Symbol) : Nest δ where
  envs := built
  root := root
  captured := captured
  own := []
  blocks := [⟨template, [root], []⟩]
  frames := []

inductive NestAction (δ : Type) where
  | call (b : Nat) (receiver : Option (Value δ)) (args : List (Value δ))
  | instantiate (b : Nat)
  | exec (f : Nat) (val : Value δ) (taken : Bool)
  | interpolate (f : Nat) (code : StaticBlock)
  | other (i : Nat) (vars : Vars Symbol (Value δ))

/-- The bindings a call starts with: `self` if it is called as a method, then the
parameters that have arguments. -/
def bindParams (receiver : Option (Value δ)) (paramSyms : List Symbol)
    (args : List (Value δ)) : Vars Symbol (Value δ) :=
  (paramSyms.zip args).foldl (fun vars p => vars.bind p.1 p.2)
    (receiver.toList.map fun r => (selfSymbol, r))

/-- The identifiers no store may touch. -/
def reserved : List Symbol := ["true", "false", "nil"]

namespace Nest

/-- Push a frame over a fresh env with these bindings. -/
def enter (n : Nest δ) (b : NestBlock) (vars : Vars Symbol (Value δ)) (instantiating : Bool) :
    Nest δ :=
  { n with
    envs := n.envs ++ [vars]
    own := n.own ++ [n.envs.length]
    frames := n.frames ++ [⟨b.template, n.envs.length, b.parentEnv, 0, instantiating, b.bound⟩] }

/-- `store_set_local`. -/
def storeSetLocal (envs : EnvFrames δ) (fr : NestFrame) (s : Symbol) (val : Value δ) :
    EnvFrames δ :=
  if fr.bindsLocally then bindIn envs fr.ownEnv s val
  else (set envs fr.env s val).getD (bindIn envs fr.ownEnv s val)

/-- The env frames after an instruction. -/
def storeEffect (envs : EnvFrames δ) (fr : NestFrame) (inst : Instruction) (val : Value δ) :
    EnvFrames δ :=
  match inst.defines, inst.assigns with
  | some s, _ => bindIn envs fr.ownEnv s val
  | none, some s => storeSetLocal envs fr s val
  | none, none => envs

/-- One instruction of frame `f`. A store to a reserved identifier raises. -/
def execute (n : Nest δ) (f : Nat) (fr : NestFrame) (inst : Instruction) (val : Value δ)
    (taken : Bool) : Option (Nest δ) :=
  if ∃ s ∈ reserved, inst.defines = some s ∨ inst.assigns = some s then none
  else some { n with
    envs := storeEffect n.envs fr inst val
    blocks := n.blocks ++ inst.literal.toList.map fun t => ⟨t, fr.env, fr.declared⟩
    frames := n.frames.set f
      { fr with ip := inst.next fr.ip fr.template.bytecode.length taken } }

def step (n : Nest δ) : NestAction δ → Option (Nest δ)
  | .call b receiver args => do
    let b ← n.blocks[b]?
    some (n.enter b (bindParams receiver b.template.paramSyms args) false)
  | .instantiate b => do
    let b ← n.blocks[b]?
    some (n.enter b [] true)
  | .exec f val taken => do
    let fr ← n.frames[f]?
    let inst ← fr.inst
    n.execute f fr inst val taken
  | .interpolate f code => do
    let fr ← n.frames[f]?
    some { n with blocks := n.blocks ++ [⟨code, fr.env, fr.declared⟩] }
  | .other i vars =>
    if i = n.root ∨ i ∈ n.own then none
    else if i < n.envs.length then some { n with envs := n.envs.set i vars }
    else some { n with envs := n.envs ++ [vars] }

end Nest

end Quoin.Portable
