import ArmBackend.Spill.WorkingSet
import ArmBackend.Ssa.Repair

/-!
Contract: spill code that keeps every point of a procedure within its registers.

A first run of all blocks, from empty registers, estimates what each leaves in registers. The blocks
are then run in reverse postorder: a block starts with the values that all its predecessors leave in
registers, and as many as fit of those that some do. Where an edge brings less than its target
expects, the predecessor reloads the rest before it jumps. Every value that is reloaded, or that
flows into a phi in memory, is stored once, right after its definition; the variables concerned are
then brought back into single-assignment form.
-/

namespace ArmBackend

structure SpillPlan where
  proc : Procedure
  tree : DomTree
  config : Config
  /-- The block that defines each variable. -/
  home : Array (Option BlockId)
  nextUse : NextUse
  /-- Values in registers at the starts of blocks, without their register phis. -/
  starts : Array IndexSet
  ends : Array IndexSet
  /-- Values whose slot has to hold them. -/
  stored : IndexSet
  spills : Nat
  reloads : Nat

namespace SpillPlan

/-- The block that defines each variable; arguments are defined at the entry. -/
def homes (p : Procedure) : Except Error (Array (Option BlockId)) :=
  let start := p.args.foldl (fun home a => home.setIfInBounds a (some Procedure.entry))
    (Array.replicate p.vars.size none)
  let define (home : Array (Option BlockId)) (d : VarId × BlockId) :
      Except Error (Array (Option BlockId)) :=
    if (home.getD d.1 none).isSome then .error (.multipleDefinitions (p.varName d.1))
    else .ok (home.setIfInBounds d.1 (some d.2))
  (p.blockIds.flatMap fun b => (p.block b).insts.flatMap fun i => i.defs.map (·, b)).foldlM define
    start

def endOf (s : SpillPlan) (b : BlockId) : IndexSet := s.ends.getD b .empty

def startOf (s : SpillPlan) (b : BlockId) : IndexSet := s.starts.getD b .empty

def setting (s : SpillPlan) (b : BlockId) : WorkingSet.Setting where
  proc := s.proc
  block := b
  config := s.config
  exitReads := s.proc.exitReads b
  after := s.nextUse.endOf b

/-- At most `room` values at the start of the body of a block. -/
def limitAtBody (s : SpillPlan) (b : BlockId) (room : Nat) (held : IndexSet) : IndexSet :=
  WorkingSet.limit (s.nextUse.endOf b) (s.proc.exitReads b) (s.proc.block b).body room held

/-- Estimate what a block leaves in registers, supposing that all its phis get one. -/
def estimate (s : SpillPlan) (b : BlockId) : Except Error SpillPlan := do
  let block := s.proc.block b
  let held := (WorkingSet.initial s.proc s.config b).insertMany (block.phis.map (·.dst))
  let held := s.limitAtBody b s.config.registers held
  let (held, _) ← WorkingSet.simulate (s.setting b) false block.body held
  return { s with ends := s.ends.setIfInBounds b held }

def needSlot (p : Procedure) (v : VarId) : Except Error Procedure := do
  return p.needStack (← p.requireWeb v)

def argsHeld (s : SpillPlan) (preds : List BlockId) (phi : Phi) : Bool :=
  (phi.args.zip preds).all fun arg => arg.1.any (s.endOf arg.2).contains

/-- Decide whether a phi lives in memory: if an argument is not in a register, or if the registers
are taken by the register phis before it. The arguments of such a phi have to be stored. -/
def placePhi (preds : List BlockId) (state : SpillPlan × List Phi) (phi : Phi) :
    Except Error (SpillPlan × List Phi) := do
  let (s, placed) := state
  let inRegister := (placed.filter (!·.inMemory)).length
  let inMemory := !s.argsHeld preds phi || inRegister == s.config.registers
  let placed := placed ++ [{ phi with inMemory := inMemory }]
  if inMemory then
    let p ← needSlot s.proc phi.dst
    return ({ s with proc := p, stored := s.stored.insertMany (phi.args.filterMap id) }, placed)
  else return (s, placed)

/-- Decide where the phis of a block live. Gives the destinations of the register phis. -/
def placePhis (s : SpillPlan) (b : BlockId) : Except Error (SpillPlan × List VarId) := do
  let block := s.proc.block b
  let (s, phis) ← block.phis.foldlM (placePhi block.preds) (s, [])
  let s := { s with proc := s.proc.setInsts b (phis.map .phi ++ block.body) }
  return (s, (phis.filter (!·.inMemory)).map (·.dst))

/-- Values that a block starts with in registers, when its register phis leave `room`. Candidates
that only some predecessors hold are taken, nearest read first, if their definition dominates all of
them. -/
def startSet (s : SpillPlan) (b : BlockId) (room : Nat) : IndexSet :=
  let block := s.proc.block b
  let distances := (s.nextUse.endOf b).ahead (s.proc.exitReads b) block.body
  let held := block.preds.map s.endOf
  let isNeeded (v : VarId) : Bool := (distances.of v).isSome
  let initial := WorkingSet.initial s.proc s.config b
  let somewhere := (held.foldl IndexSet.union .empty).toList.filter isNeeded
  let everywhere := somewhere.filter fun v => held.all (·.contains v)
  let taken := initial.insertMany everywhere
  let candidates := somewhere.filter (!taken.contains ·)
  let nearest := (distances.sortByDistance candidates).take (room - taken.size)
  taken.insertMany (nearest.filter fun v =>
    (s.home.getD v none).any fun home => block.preds.all (s.tree.dominates home))

def recordReloads (s : SpillPlan) (vars : List VarId) : Except Error SpillPlan := do
  let p ← vars.foldlM needSlot s.proc
  return { s with
    proc := p
    stored := s.stored.insertMany vars
    reloads := s.reloads + vars.length }

def spillBlock (s : SpillPlan) (b : BlockId) : Except Error SpillPlan := do
  let (s, registerPhis) ← s.placePhis b
  let room := s.config.registers - registerPhis.length
  let start := s.limitAtBody b room (s.startSet b room)
  let s := { s with starts := s.starts.setIfInBounds b start }
  let block := s.proc.block b
  let (held, steps) ←
    WorkingSet.simulate (s.setting b) true block.body (start.insertMany registerPhis)
  let s ← s.recordReloads (steps.flatMap (·.reloads))
  return { s with
    proc := s.proc.setInsts b (block.insts.take block.phis.length ++ WorkingSet.Step.code steps)
    ends := s.ends.setIfInBounds b held }

/-- Values that the edge from the predecessor in a slot has to bring into registers. -/
def missingOnEdge (s : SpillPlan) (b : BlockId) (pred : BlockId × Nat) : IndexSet :=
  let held := s.endOf pred.1
  let phiArgs := (s.proc.block b).phis.filterMap fun phi =>
    if phi.inMemory then none else (phi.args[pred.2]?).join
  ((s.startOf b).diff held).insertMany (phiArgs.filter (!held.contains ·))

/-- Reload, before the jump of a predecessor, what its edge has to bring. -/
def coupleEdge (b : BlockId) (s : SpillPlan) (pred : BlockId × Nat) : Except Error SpillPlan := do
  let missing := (s.missingOnEdge b pred).toList
  if missing.isEmpty then return s
  else
    let s ← s.recordReloads missing
    let reloads := missing.map Inst.reload
    return { s with proc := s.proc.modifyBlock pred.1 (·.insertBeforeLast reloads) }

def coupleEdges (s : SpillPlan) (b : BlockId) : Except Error SpillPlan :=
  (s.proc.block b).preds.zipIdx.foldlM (coupleEdge b) s

def isDefinition (v : VarId) : Inst → Bool
  | .reload _ => false
  | i => i.defs.contains v

/-- The place after the definition of a variable: after the phis of its block if a phi defines it.
There is none for a phi in memory, whose slot holds the value already. -/
def definitionPoint (s : SpillPlan) (v : VarId) : Except Error (Option (BlockId × Nat)) := do
  let missing := Error.violated (.undefinedSpill (s.proc.varName v))
  match s.home.getD v none with
  | none => .error missing
  | some b =>
    let block := s.proc.block b
    match block.insts.zipIdx.find? fun i => isDefinition v i.1 with
    | none => .error missing
    | some (.phi phi, _) => return if phi.inMemory then none else some (b, block.phis.length)
    | some (_, index) => return some (b, index + 1)

/-- The place where a value is stored: on entry for a register argument, nowhere for a stack
argument, else after its definition. -/
def storePoint (s : SpillPlan) (v : VarId) : Except Error (Option (BlockId × Nat)) :=
  match s.proc.args.findIdx? (· == v) with
  | some index => .ok (if index < s.config.argRegisters then some (Procedure.entry, 0) else none)
  | none => s.definitionPoint v

def storeValue (s : SpillPlan) (v : VarId) : Except Error SpillPlan := do
  match ← s.storePoint v with
  | none => return s
  | some (b, index) =>
    let p ← needSlot s.proc v
    return { s with
      proc := p.modifyBlock b (·.insertInst index (.spill v))
      spills := s.spills + 1 }

def start (p : Procedure) (t : DomTree) (config : Config) : Except Error SpillPlan := do
  let home ← homes p
  let none := Array.replicate p.blocks.size IndexSet.empty
  return ⟨p, t, config, home, .ofProcedure p, none, none, .empty, 0, 0⟩

/-- Insert all spill code; single-assignment form is not restored yet. -/
def run (p : Procedure) (t : DomTree) (config : Config) : Except Error SpillPlan := do
  let s ← start p t config
  let s ← p.blockIds.foldlM estimate s
  let s ← p.rpo.foldlM spillBlock s
  let s ← p.blockIds.foldlM coupleEdges s
  s.stored.toList.foldlM storeValue s

end SpillPlan

structure Spilled where
  proc : Procedure
  spills : Nat
  reloads : Nat
  /-- Phis placed to restore single-assignment form. -/
  phis : Nat

/-- Bring the register pressure of a procedure within its configuration. -/
def Procedure.spill (p : Procedure) (t : DomTree) (f : Frontiers) (config : Config) :
    Except Error Spilled := do
  let s ← SpillPlan.run p t config
  let repair (state : Procedure × Nat) (v : VarId) : Procedure × Nat :=
    let (p, placed) := state.1.repairSsa v t f
    (p, state.2 + placed)
  let (p, phis) := s.stored.toList.foldl repair (s.proc, 0)
  return ⟨p, s.spills, s.reloads, phis⟩

end ArmBackend
