import ArmBackend.Ssa.Placement

/-!
Contract: one variable for every definition.

Blocks are renamed in preorder of the dominator tree. Each source variable points at its latest
definition and each definition at the one before it; before a read the pointer is moved back to the
nearest definition in a dominating block. Arguments are their own first definitions. A read that no
definition reaches gets a fresh variable without a definition, and a phi argument that none reaches
stays absent.
-/

namespace ArmBackend

/-- State of renaming. Fresh variables are those numbered from `base` on. -/
structure Renaming where
  base : VarId
  proc : Procedure
  /-- The definition a variable currently points at. -/
  reaching : Array (Option VarId)
  home : Array (Option BlockId)

namespace Renaming

def start (p : Procedure) : Renaming where
  base := p.nextVar
  proc := p
  reaching := p.args.foldl (fun found a => found.setIfInBounds a (some a))
    (Array.replicate p.nextVar none)
  home := (p.args ++ p.locals).foldl (fun found v => found.setIfInBounds v (some Procedure.entry))
    (Array.replicate p.nextVar none)

/-- Does the home of a definition dominate the block? -/
def sees (r : Renaming) (t : DomTree) (b : BlockId) (d : VarId) : Bool :=
  (r.home.getD d none).any (t.dominates · b)

/-- Follow definitions back to one in a block that dominates `b`. -/
def traceBack (r : Renaming) (t : DomTree) (b : BlockId) : Nat → Option VarId → Option VarId
  | 0, v => v
  | _, none => none
  | steps + 1, some v =>
    if r.sees t b v then some v else traceBack r t b steps (r.reaching.getD v none)

/-- The version of a variable that a block sees. -/
def current (r : Renaming) (t : DomTree) (b : BlockId) (v : VarId) : Option VarId :=
  r.traceBack t b (r.proc.nextVar + 1) (r.reaching.getD v none)

/-- Point a variable at its nearest definition that dominates `b`. -/
def settle (r : Renaming) (t : DomTree) (b : BlockId) (v : VarId) : Renaming :=
  { r with reaching := r.reaching.setIfInBounds v (r.current t b v) }

/-- Append a fresh variable for `v`, at home in `b`, in front of the definitions of `v`. It is
numbered `r.proc.nextVar`. -/
def attach (r : Renaming) (b : BlockId) (v : VarId) : Renaming :=
  let name := r.proc.varName v ++ "_" ++ toString (r.proc.nextVar - r.base)
  let chain := r.reaching.push (r.reaching.getD v none)
  { r with
    proc := r.proc.newVar name (r.proc.var v).ty
    reaching := chain.setIfInBounds v (some r.proc.nextVar)
    home := r.home.push (some b) }

def withInsts (r : Renaming) (b : BlockId) (insts : List Inst) : Renaming :=
  { r with proc := r.proc.setInsts b insts }

/-- The variable that a definition of `v` in `b` gets. -/
def define (t : DomTree) (b : BlockId) (v : VarId) : StateM Renaming VarId := do
  modify (·.settle t b v)
  let r ← get
  set (r.attach b v)
  return r.proc.nextVar

/-- The variable that a read of `v` in `b` stands for. -/
def read (t : DomTree) (b : BlockId) (v : VarId) : StateM Renaming VarId := do
  modify (·.settle t b v)
  let r ← get
  match r.reaching.getD v none with
  | some definition => return definition
  | none =>
    set (r.attach b v)
    return r.proc.nextVar

def renameInst (t : DomTree) (b : BlockId) (i : Inst) : StateM Renaming Inst := do
  let i ← i.traverseUses (read t b)
  i.traverseDefs (define t b)

/-- The arguments of a phi after the slots of `pred` were given a value, if there is one. -/
def fillArgs (pred : BlockId) (preds : List BlockId) (value : Option VarId)
    (args : List (Option VarId)) : List (Option VarId) :=
  match value with
  | none => args
  | some d => args.mapIdx fun slot arg => if preds[slot]? = some pred then some d else arg

/-- Give a phi the value that reaches it from `pred`, in every slot of that predecessor. -/
def fillPhi (t : DomTree) (pred : BlockId) (preds : List BlockId) (phi : Phi) :
    StateM Renaming Phi := do
  modify (·.settle t pred phi.source)
  let value := (← get).reaching.getD phi.source none
  return { phi with args := fillArgs pred preds value phi.args }

def fillPhis (t : DomTree) (pred succ : BlockId) : StateM Renaming Unit := do
  let block := (← get).proc.block succ
  let phis ← block.phis.mapM (fillPhi t pred block.preds)
  modify (·.withInsts succ (phis.map .phi ++ block.body))

def renameBlock (t : DomTree) (b : BlockId) : StateM Renaming Unit := do
  let block := (← get).proc.block b
  let insts ← block.insts.mapM (renameInst t b)
  modify (·.withInsts b insts)
  block.succs.forM (fillPhis t b)

/-- The renamed procedure, whose locals are the fresh variables. -/
def finish (r : Renaming) : Procedure :=
  { r.proc with locals := (List.range (r.proc.nextVar - r.base)).map (r.base + ·) }

end Renaming

def Procedure.rename (p : Procedure) (t : DomTree) : Procedure :=
  let (_, r) := (t.preorder.forM (Renaming.renameBlock t)).run (Renaming.start p)
  r.finish

/-- Single-assignment form of a procedure. The second result is the number of phis placed. -/
def Procedure.constructSsa (p : Procedure) (t : DomTree) (f : Frontiers) : Procedure × Nat :=
  let (p, placed) := p.placePhis f
  (p.rename t, placed)

end ArmBackend
