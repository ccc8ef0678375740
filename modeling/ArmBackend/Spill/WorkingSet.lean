import ArmBackend.Config
import ArmBackend.Dominance.Tree
import ArmBackend.Program.Lookup
import ArmBackend.Spill.NextUse

/-!
Contract: the values held in registers as a block is executed.

Before each instruction the operands that are missing are reloaded, and if there are then more
values than the instruction leaves registers for, those that are read furthest away are let go.
Nothing is stored when a value is let go; a later reload brings back what is still needed.
-/

namespace ArmBackend.WorkingSet

/-- At most `room` of the values: those read soonest by the instructions that follow, of equally
near ones those with the smaller number. -/
def limit (after : Distances) (exitReads : List VarId) (insts : List Inst) (room : Nat)
    (held : IndexSet) : IndexSet :=
  if held.size ≤ room then held
  else
    let distances := after.ahead exitReads insts
    IndexSet.ofList ((distances.sortByDistance held.toList).take room)

/-- Registers that values may occupy while an instruction executes. -/
def budget (config : Config) (i : Inst) : Nat :=
  if i.isCall then config.registers - config.argRegisters else config.registers - i.defs.length

/-- An instruction with the values to reload in front of it. -/
structure Step where
  reloads : List VarId
  inst : Inst

structure Setting where
  proc : Procedure
  block : BlockId
  config : Config
  exitReads : List VarId
  after : Distances

/-- Execute instructions from a working set. Gives the working set at the end and the reloads. In
the final run a value that is reloaded needs a web to have a slot. -/
def simulate (s : Setting) (final : Bool) :
    List Inst → IndexSet → Except Error (IndexSet × List Step)
  | [], held => .ok (held, [])
  | i :: rest, held => do
    let missing := (i.uses.filter (!held.contains ·)).eraseDups
    let held := limit s.after s.exitReads (i :: rest) (budget s.config i) (held.insertMany missing)
    match i.uses.find? (!held.contains ·) with
    | some lost => .error (.registersExhausted (s.proc.varName lost) (s.proc.blockName s.block))
    | none =>
      if final then missing.forM fun v => discard (s.proc.requireWeb v)
      let (held, steps) ← simulate s final rest (held.insertMany i.defs)
      return (held, ⟨missing, i⟩ :: steps)

/-- Register arguments are in registers when the procedure starts. -/
def initial (p : Procedure) (config : Config) (b : BlockId) : IndexSet :=
  if b = Procedure.entry then IndexSet.ofList (p.args.take config.argRegisters) else .empty

def Step.code (steps : List Step) : List Inst :=
  steps.flatMap fun step => step.reloads.map .reload ++ [step.inst]

end ArmBackend.WorkingSet
