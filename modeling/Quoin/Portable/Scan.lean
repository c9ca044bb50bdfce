import Quoin.Portable.Block

/-!
# Quoin — the portability scan

`scan_portable` and `scan_nest`: the walk over a block template and the
literals nested in it that decides whether the block may be shipped to a
worker, and collects the names whose values it must take along. The Rust scan
pushes onto `&mut` vectors, each with a set of what is in it; here that is one
`ScanOut`, whose membership tests are the sets.
-/

namespace Quoin.Portable

/-- What the scan collects: free reads and global references, each once, in the
order met. -/
structure ScanOut where
  freeReads : List Symbol := []
  globals : List NamespacedName := []

/-- Note a name the nest reads. -/
def ScanOut.read (out : ScanOut) (defined : List Symbol) (s : Symbol) : Except String ScanOut :=
  if s ∈ defined then .ok out
  else if s = selfSymbol then
    .error "references `self` (instance state is not portable)"
  else if s ∈ out.freeReads then .ok out
  else .ok { out with freeReads := out.freeReads ++ [s] }

def ScanOut.global (out : ScanOut) (n : NamespacedName) : ScanOut :=
  if n ∈ out.globals then out else { out with globals := out.globals ++ [n] }

/-- The first pass over one level: the names it declares, and the definitions that
are refused before anything else. -/
def Instruction.refuseDefinition : Instruction → Except String Unit
  | .defineClass _ | .defineMethod _ | .overrideMethod _ | .executeBlockWithSelf =>
    .error ("defines a class or method — put definitions in a unit and use " ++
      "Worker.spawn: instead")
  | _ => .ok ()

def touchesField (f : String) : String :=
  s!"touches instance state (@{f}) — not portable"

/-- The main `match` of `scan_nest` on one instruction of a level that declares
`defined`. -/
def scanInst (defined : List Symbol) (isInitLiteral : Bool) (out : ScanOut) :
    Instruction → Except String ScanOut
  | .loadLocal s => out.read defined s
  | .sendLocal v _ _ => out.read defined v
  | .sendLocalLocal a b _ _ => do (← out.read defined a).read defined b
  | .sendLocalConst a _ _ _ => out.read defined a
  | .intBinLL a b _ | .doubleBinLL a b _ => do (← out.read defined a).read defined b
  | .intBinLC a _ _ | .doubleBinLC a _ _ => out.read defined a
  | .storeLocal s | .storeLocalKeep s =>
    if s ∉ defined ∧ !isInitLiteral then
      .error (s!"writes captured binding '{s}' (the worker gets a snapshot; " ++
        "writes could never reach the original)")
    else .ok out
  | .methodReturn =>
    .error ("contains a non-local return (^^) — its home method cannot exist " ++
      "in the worker")
  | .loadField f | .storeField f | .storeFieldKeep f => .error (touchesField f)
  | .sendField f _ _ => .error (touchesField f)
  | .loadGlobal n => .ok (out.global n)
  | _ => .ok out

/-- The names a level declares: those of the levels around it, its parameters, and
every local it defines, wherever the definition stands. -/
def StaticBlock.declared (t : StaticBlock) (bound : List Symbol) : List Symbol :=
  bound ++ t.paramSyms ++ t.bytecode.filterMap Instruction.defines

mutual
/-- Scan one level, whose enclosing levels declare `bound`. -/
def scanNest (bound : List Symbol) (out : ScanOut) : StaticBlock → Except String ScanOut
  | .mk paramSyms bytecode declBlock isInitLiteral =>
    if declBlock.isSome then .error "guarded/typed blocks are not portable"
    else do
      bytecode.forM Instruction.refuseDefinition
      scanCode ((StaticBlock.mk paramSyms bytecode declBlock isInitLiteral).declared bound)
        isInitLiteral out bytecode

def scanCode (defined : List Symbol) (isInitLiteral : Bool) (out : ScanOut) :
    List Instruction → Except String ScanOut
  | [] => .ok out
  | inst :: rest => do
    let out ← scanInst defined isInitLiteral out inst
    let out ← scanLiteral defined out inst
    scanCode defined isInitLiteral out rest

/-- The literal of a `Push`, or of one of the sends `send_parts` knows. -/
def scanLiteral (defined : List Symbol) (out : ScanOut) : Instruction → Except String ScanOut
  | .push c => scanConstant defined out c
  | .sendConst c _ _ => scanConstant defined out c
  | .sendLocalConst _ c _ _ => scanConstant defined out c
  | _ => .ok out

def scanConstant (defined : List Symbol) (out : ScanOut) : Constant → Except String ScanOut
  | .block inner => scanNest defined out inner
  | _ => .ok out
end

def scanPortable (template : StaticBlock) : Except String (List Symbol × List NamespacedName) := do
  let out ← scanNest [] {} template
  pure (out.freeReads, out.globals)

end Quoin.Portable
