import ArmBackend.Dominance.Frontier

/-!
Contract: single-assignment form after one variable gained definitions.

Every definition of the variable gets a fresh variable of its own, and every read is pointed at the
definition that reaches it: the last one before it in its block, else a phi if the block is in the
iterated frontier of the definitions, else what reaches the end of the block's immediate dominator.
An argument that no definition precedes is still read under its own name. Fresh variables join the
web of the variable they replace.
-/

namespace ArmBackend

/-- The blocks that define a variable. -/
def Procedure.writers (p : Procedure) (v : VarId) : List BlockId :=
  p.blockIds.filter fun b => (p.block b).insts.any (·.defs.contains v)

/-- The blocks that define a variable, and the entry if it is an argument. -/
def Procedure.definers (p : Procedure) (v : VarId) : List BlockId :=
  (if p.args.contains v then [entry] else []) ++ p.writers v

structure Repair where
  proc : Procedure
  var : VarId
  tree : DomTree
  fresh : IndexSet
  joins : IndexSet
  phis : Nat

namespace Repair

def ofVar (p : Procedure) (v : VarId) (t : DomTree) : Repair := ⟨p, v, t, .empty, .empty, 0⟩

/-- Append a fresh local for the variable under repair. It is numbered `r.proc.nextVar`. -/
def mint (r : Repair) : Repair :=
  let v := r.proc.nextVar
  let replaced := r.proc.var r.var
  let name := replaced.name ++ "_" ++ toString r.fresh.size
  { r with
    proc := (r.proc.addLocal name replaced.ty).setWeb v replaced.web
    fresh := r.fresh.insert v }

def replaceFirst (old new : VarId) : List VarId → List VarId
  | [] => []
  | v :: rest => if v = old then new :: rest else v :: replaceFirst old new rest

def redefine (old new : VarId) : Inst → Inst
  | .prepare defs srcs argCount => .prepare (replaceFirst old new defs) srcs argCount
  | i => i.mapDefs fun v => if v = old then new else v

/-- Give each definition in a list of instructions a fresh variable. -/
def renameDefs : List Inst → StateM Repair (List Inst)
  | [] => return []
  | i :: rest => do
    let r ← get
    if i.defs.contains r.var then
      set r.mint
      return redefine r.var r.proc.nextVar i :: (← renameDefs rest)
    else return i :: (← renameDefs rest)

/-- Give every definition of one block a fresh variable. -/
def renameBlock (r : Repair) (b : BlockId) : Repair :=
  let renamed := (renameDefs (r.proc.block b).insts).run r
  { renamed.2 with proc := renamed.2.proc.setInsts b renamed.1 }

def renameDefinitions (r : Repair) : Repair := (r.proc.writers r.var).foldl renameBlock r

def lastDefinition? (r : Repair) (insts : List Inst) : Option VarId :=
  insts.reverse.findSome? fun i => i.defs.find? r.fresh.contains

/-- The phi with one argument set. -/
def withArg (phi : Phi) (slot : Nat) (value : VarId) : Phi :=
  { phi with args := phi.args.set slot (some value) }

/-- Set one argument of a phi with a given destination. -/
def setArg (dst : VarId) (slot : Nat) (value : VarId) : Inst → Inst
  | .phi phi => .phi (if phi.dst = dst then withArg phi slot value else phi)
  | i => i

def setPhiArg (r : Repair) (b : BlockId) (dst : VarId) (slot : Nat) (value : VarId) : Repair :=
  let updateAll (block : Block) : Block :=
    { block with insts := block.insts.map (setArg dst slot value) }
  { r with proc := r.proc.modifyBlock b updateAll }

/-- The phi that joins definitions at the head of a block, before its arguments are known. -/
def emptyPhi (r : Repair) (b : BlockId) : Phi :=
  ⟨r.proc.nextVar, r.mint.var, (r.mint.proc.block b).preds.map fun _ => none, false⟩

def withPhi (r : Repair) (b : BlockId) : Repair :=
  { r.mint with
    proc := r.mint.proc.modifyBlock b (·.insertInst 0 (.phi (r.emptyPhi b)))
    phis := r.mint.phis + 1 }

/-- The definition that reaches the point after the first `upTo` instructions of a block. Where
definitions meet, a phi is placed and its arguments are found in the same way; it counts as a
definition from the start, so a loop finds it. -/
def reaching (r : Repair) : Nat → BlockId → Nat → VarId × Repair
  | 0, _, _ => (r.var, r)
  | steps + 1, b, upTo =>
    match r.lastDefinition? ((r.proc.block b).insts.take upTo) with
    | some v => (v, r)
    | none =>
      if r.joins.contains b then
        let v := r.proc.nextVar
        let r := r.withPhi b
        let fill (r : Repair) (pred : BlockId × Nat) : Repair :=
          let (value, r) := reaching r steps pred.1 (r.proc.block pred.1).insts.length
          r.setPhiArg b v pred.2 value
        (v, (r.proc.block b).preds.zipIdx.foldl fill r)
      else
        match r.tree.idom? b with
        | none => (r.var, r)
        | some parent => reaching r steps parent (r.proc.block parent).insts.length

/-- Steps that suffice to find a definition: at most one phi per block and, between two of them, at
most one step per dominator. -/
def stepBound (r : Repair) : Nat := (r.proc.blocks.size + 1) * (r.proc.blocks.size + 2)

def reachingEnd (r : Repair) (b : BlockId) : VarId × Repair :=
  r.reaching r.stepBound b (r.proc.block b).insts.length

/-- Position of the instruction that has `remaining` instructions from itself to the end. Phis put
at the head of the block do not move it. -/
def position (r : Repair) (b : BlockId) (remaining : Nat) : Nat :=
  (r.proc.block b).insts.length - remaining

def modifyAt (r : Repair) (b : BlockId) (remaining : Nat) (f : Inst → Inst) : Repair :=
  { r with proc := r.proc.modifyBlock b (·.modifyInst (r.position b remaining) f) }

/-- What one argument of a phi is pointed at. -/
def foundArg (r : Repair) (b : BlockId) (slot : Nat) : VarId × Repair :=
  r.reachingEnd ((r.proc.block b).preds.getD slot Procedure.entry)

/-- Point one argument of a phi at the definition that reaches it. -/
def redirectArg (b : BlockId) (remaining : Nat) (r : Repair) (slot : Nat) : Repair :=
  let (value, r) := r.foundArg b slot
  r.modifyAt b remaining (Inst.mapPhi (withArg · slot value))

/-- The arguments of a phi that still name a variable. -/
def stale (v : VarId) (phi : Phi) : List Nat :=
  phi.args.zipIdx.filterMap fun arg => if arg.1 = some v then some arg.2 else none

/-- Point the reads of one instruction at the definitions that reach them. -/
def redirectAt (r : Repair) (b : BlockId) (remaining : Nat) : Repair :=
  match (r.proc.block b).insts[r.position b remaining]? with
  | none => r
  | some (.phi phi) => (stale r.var phi).foldl (redirectArg b remaining) r
  | some i =>
    if i.uses.contains r.var then
      let (value, r) := r.reaching r.stepBound b (r.position b remaining)
      r.modifyAt b remaining fun i => i.mapUses fun v => if v = r.var then value else v
    else r

/-- Redirect the last `remaining` instructions of a block, from the first of them on. -/
def redirectFrom (b : BlockId) : Nat → Repair → Repair
  | 0, r => r
  | remaining + 1, r => redirectFrom b remaining (r.redirectAt b (remaining + 1))

def isReadIn (r : Repair) (b : BlockId) : Bool :=
  (r.proc.block b).insts.any fun i =>
    match i with
    | .phi phi => phi.args.contains (some r.var)
    | i => i.uses.contains r.var

/-- Redirect the reads of one block, if it has any. -/
def redirectBlock (r : Repair) (b : BlockId) : Repair :=
  if r.isReadIn b then redirectFrom b (r.proc.block b).insts.length r else r

def redirectReads (r : Repair) : Repair := r.proc.blockIds.foldl redirectBlock r

/-- The state before the reads are redirected. -/
def start (p : Procedure) (v : VarId) (t : DomTree) (f : Frontiers) : Repair :=
  { (ofVar p v t).renameDefinitions with joins := f.iterated (p.definers v) }

end Repair

/-- Restore single-assignment form for `v`. The second result is the number of phis placed. -/
def Procedure.repairSsa (p : Procedure) (v : VarId) (t : DomTree) (f : Frontiers) :
    Procedure × Nat :=
  let r := (Repair.start p v t f).redirectReads
  (r.proc.removeLocal v, r.phis)

end ArmBackend
