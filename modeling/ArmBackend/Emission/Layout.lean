import ArmBackend.Emission.Selection
import ArmBackend.Walk

/-!
Contract: whole procedures and programs as assembly.

A procedure becomes a prologue under its own label, its blocks, and one epilogue that all returns
jump to. Blocks stand in reverse postorder of a walk that follows branches before what comes next,
so that the next block tends to stand right behind.
-/

namespace ArmBackend

open ArmBackend.Assembly

namespace EmissionContext

def adjustStack (c : EmissionContext) (move : Reg → Reg → Flexible → Instr) : List Instr :=
  let amount := c.frame.adjust
  if amount = 0 then []
  else if Immediate.isEncodable amount then [move .sp .sp (.word amount)]
  else [loadConstant Convention.scratch amount, move .sp .sp (.reg Convention.scratch)]

def pushSaved (c : EmissionContext) : List Instr :=
  if c.frame.saved.isEmpty then [] else [.push c.frame.saved]

def prologue (c : EmissionContext) (order : List BlockId) : List Instr :=
  let first := match order.head? with
    | some b => c.blockLabel b
    | none => c.epilogueLabel
  c.pushSaved ++ c.adjustStack .sub ++ [.jump first]

/-- The start of the program returns zero. -/
def exitStatus (c : EmissionContext) : List Instr :=
  if c.proc.name = "main" then [loadConstant Convention.result 0] else []

/-- Release the frame and return, by restoring the link register right into the program counter if
it was saved. -/
def epilogue (c : EmissionContext) : List Instr :=
  let saved := c.frame.saved
  c.adjustStack .add ++
    if c.frame.savesLink then c.exitStatus ++ [.pop ((saved.erase .lr).insert .pc)]
    else
      (if saved.isEmpty then [] else [.pop saved]) ++ c.exitStatus ++
        [.branchExchange .always .lr]

def emitBlock (c : EmissionContext) (b : BlockId) : Emit Section := do
  let instrs ← (c.proc.block b).insts.mapM (c.select b)
  return ⟨c.blockLabel b, instrs.flatten, false⟩

end EmissionContext

namespace Layout

/-- Go on with laying out blocks. The stack holds blocks that have still to be placed, each with the
first of its successors that was not looked at; `placed` holds those that stand behind them, in
order. The innermost block is taken off the stack and put back while it has a successor that was not
seen. -/
def resume (succs : BlockId → List (Option BlockId)) :
    Nat → IndexSet → List (BlockId × Nat) → List BlockId → List BlockId
  | steps + 1, seen, (b, next) :: stack, placed =>
    match ((succs b).drop next).findIdx? fun place => (Walk.unseen? seen place).isSome with
    | none => resume succs steps seen stack (b :: placed)
    | some offset =>
      let waiting := (b, next + offset + 1) :: stack
      match ((succs b)[next + offset]?).join with
      | none => resume succs steps seen waiting placed
      | some s => resume succs steps (seen.insert s) ((s, 0) :: waiting) placed
  | _, _, _, placed => placed

end Layout

namespace Procedure

/-- Where a block goes on, the branch first. -/
def branchFirst (p : Procedure) (b : BlockId) : List (Option BlockId) :=
  [(p.block b).cond, (p.block b).direct]

/-- Two steps for each block suffice, one to see and one to place it. -/
def layoutOrder (p : Procedure) : List BlockId :=
  Layout.resume p.branchFirst (2 * p.blocks.size) (IndexSet.empty.insert entry) [(entry, 0)] []

end Procedure

namespace Emit

def recordInstructions (sections : List Section) : Emit Unit :=
  modify fun e => { e with
    stats := (sections.flatMap (·.instrs)).foldl
      (fun stats i => stats.recordInstruction i.mnemonic) e.stats }

def procedure (program : Program) (p : Procedure) : Emit Unit := do
  let frame ← Frame.ofProcedure p
  let firstLabel ← reserveLabels (p.blocks.size + 1)
  let c : EmissionContext := ⟨program, p, Liveness.ofProcedure p, frame, firstLabel⟩
  let order := p.layoutOrder
  let blocks ← order.mapM c.emitBlock
  let sections :=
    ⟨Convention.procedureLabel p.name, c.prologue order, true⟩ :: blocks ++
      [⟨c.epilogueLabel, c.epilogue, false⟩]
  modify fun e => { e with code := e.code ++ sections }
  recordInstructions sections

end Emit

/-- Emit a program whose procedures are coloured. The statistics are kept also where it fails. -/
def Program.emit (program : Program) (stats : Statistics) : Except Error Module × Statistics :=
  let (result, e) := (program.procedures.forM (Emit.procedure program)).run.run (.start stats)
  (result.map fun _ => e.module, e.stats)

end ArmBackend
