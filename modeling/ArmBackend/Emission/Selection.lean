import ArmBackend.Copy
import ArmBackend.Emission.Context

/-!
Contract: the target instructions for each instruction of a coloured procedure.

Operations on literals are done here. Phis emit nothing: a jump copies the arguments of the register
phis of its target, all at once, and leaves all other live values where they are.
-/

namespace ArmBackend

open ArmBackend.Assembly

def loadConstant (dst : Reg) (w : Int32) : Instr :=
  if Immediate.isEncodable w then .mov .always dst (.word w)
  else if 0 ≤ w ∧ w ≤ 65535 then .movWide dst w
  else .loadWord dst w

namespace EmissionContext

def assign (c : EmissionContext) (dst : Reg) : Operand → Emit (List Instr)
  | .var v => do
    let src ← c.reg v
    return if src = dst then [] else [.move dst src]
  | .str s => do
    let label ← Emit.stringLabel s
    return [.loadAddress dst label]
  | o => do return [loadConstant dst (← literalWord o)]

/-- Emit a simultaneous copy; one that takes no moves is not counted. -/
def copy (c : EmissionContext) (moves : List (Reg × Reg)) : Emit (List Instr) := do
  let sequence ← Copy.sequentialize moves c.clobberable
  if 0 < sequence.moves then
    modify fun e => { e with stats := e.stats.recordCopy sequence.cycles sequence.borrowedLink }
  return sequence.instrs

/-- Arguments and destinations of the register phis of a block on the edge from a predecessor. -/
def edgePhis (c : EmissionContext) (b target : BlockId) : List (VarId × VarId) :=
  let block := c.proc.block target
  match block.predIndex? b with
  | none => []
  | some slot => block.phis.filterMap fun phi =>
    if phi.inMemory then none else ((phi.args[slot]?).join).map (·, phi.dst)

/-- What is moved on the edge from a block: phi arguments to their destinations, and each other live
value to where it is, which keeps it from being overwritten. -/
def edgePairs (c : EmissionContext) (b target : BlockId) : List (VarId × VarId) :=
  let phis := c.edgePhis b target
  phis ++ ((c.live.outOf b).toList.filter fun v => !(phis.map (·.1)).contains v).map fun v => (v, v)

/-- Moves between the registers of variables. -/
def moves (c : EmissionContext) (pairs : List (VarId × VarId)) : Except Error (List (Reg × Reg)) :=
  pairs.mapM fun pair => do
    let src ← c.reg pair.1
    return (src, ← c.reg pair.2)

def branch (c : EmissionContext) (b : BlockId) (op : Comparison) (left right : Operand) :
    Except Error (List Instr) := do
  let block := c.proc.block b
  let target ← c.successorLabel b "branch" block.cond
  let next ← c.successorLabel b "fallthrough" block.direct
  match left.word?, right.word? with
  | some x, some y => return [.jump (if op.eval x y then target else next)]
  | _, _ =>
    let left ← c.operandReg left
    let right ← c.flexible right
    return [.compare .always left right, .branch (.ofComparison op) target, .jump next]

def jump (c : EmissionContext) (b : BlockId) : Emit (List Instr) := do
  let direct := (c.proc.block b).direct
  let target ← c.successorLabel b "goto" direct
  match direct with
  | none => return [.jump target]
  | some s =>
    let copies ← c.copy (← c.moves (c.edgePairs b s))
    return copies ++ [.jump target]

def binary (c : EmissionContext) (dst : VarId) (op : BinaryOp) (left right : Operand) :
    Except Error Instr := do
  let dst ← c.reg dst
  match left.word?, right.word? with
  | some x, some y =>
    match op.eval? x y with
    | some w => return loadConstant dst w
    | none => .error (.malformed (.unfoldable x op y))
  | _, _ =>
    let left ← c.operandReg left
    match op with
    | .add => return .add dst left (← c.flexible right)
    | .sub => return .sub dst left (← c.flexible right)
    | .rsb => return .rsb dst left (← c.flexible right)
    | .mul => return .mul dst left (← c.operandReg right)
    | .div => .error (.malformed .division)

def negate (c : EmissionContext) (dst : VarId) (src : Operand) : Except Error Instr := do
  let dst ← c.reg dst
  match src.word? with
  | some w => return loadConstant dst (-w)
  | none => return .rsb dst (← c.operandReg src) (.word 0)

def load (c : EmissionContext) (dst : VarId) (base : Operand) (field : String) :
    Except Error Instr := do
  match base.var? with
  | none => .error (.malformed (.loadFromConstant field))
  | some base =>
    let offset ← c.fieldOffset base field
    let dst ← c.reg dst
    return .load dst (← c.reg base) offset

def store (c : EmissionContext) (base : VarId) (field : String) (src : Operand) :
    Except Error Instr := do
  let offset ← c.fieldOffset base field
  let src ← c.operandReg src
  return .store src (← c.reg base) offset

/-- Call a target and move the result to its register, if it has one. -/
def call (c : EmissionContext) (dst : Option VarId) (callee : Callee) : Emit (List Instr) := do
  let label ← match callee with
    | .procedure name => pure (Convention.procedureLabel name)
    | .external name => do
      Emit.addGlobal name
      pure name
  let moves : List Instr :=
    match dst.bind c.proc.reg? with
    | some r => if r = Convention.result then [] else [.move r Convention.result]
    | none => []
  return .branchLink .always label :: moves

def select (c : EmissionContext) (b : BlockId) : Inst → Emit (List Instr)
  | .branch op left right _ => c.branch b op left right
  | .jump _ => c.jump b
  | .assign dst src => do c.assign (← c.reg dst) src
  | .binary dst op left right => do return [← c.binary dst op left right]
  | .negate dst src => do return [← c.negate dst src]
  | .load dst base field => do return [← c.load dst base field]
  | .store base field src => do return [← c.store base field src]
  | .ret none => return [.jump c.epilogueLabel]
  | .ret (some value) => do
    return (← c.assign Convention.result value) ++ [.jump c.epilogueLabel]
  | .call dst callee _ => c.call dst callee
  | .prepare defs srcs _ => do c.copy (← c.moves (srcs.zip defs))
  | .phi _ => return []
  | .spill v => do
    let offset ← c.slot v
    return [.store (← c.reg v) .sp offset]
  | .reload v => do
    let offset ← c.slot v
    return [.load (← c.reg v) .sp offset]
  | .stackArg v index => do return [.store (← c.reg v) .sp (Frame.bytes index)]
  | .label _ => throw (.malformed (.strayLabel (c.proc.blockName b)))

end EmissionContext

end ArmBackend
