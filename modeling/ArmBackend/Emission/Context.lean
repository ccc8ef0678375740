import ArmBackend.Assembly.Module
import ArmBackend.Frame
import ArmBackend.Liveness
import ArmBackend.Program.Listing
import ArmBackend.Statistics

/-!
Contract: what emission of a procedure knows, and what emission of a program has produced so far.
-/

namespace ArmBackend

open ArmBackend.Assembly

def localLabel (n : Nat) : String := ".L" ++ toString n

structure Emitter where
  nextLabel : Nat
  /-- String literals with their labels, each literal once. -/
  strings : List (String × String)
  globals : List String
  code : List Section
  stats : Statistics

namespace Emitter

def start (stats : Statistics) : Emitter := ⟨0, [], ["main"], [], stats⟩

def module (e : Emitter) : Module where
  code := e.code
  data := e.strings.map fun s => ⟨s.2, [.string s.1], false⟩
  globals := e.globals

end Emitter

/-- Emission fails with the counts of the work done before it failed. -/
abbrev Emit := ExceptT Error (StateM Emitter)

namespace Emit

/-- Reserve consecutive labels; gives the number of the first. -/
def reserveLabels (count : Nat) : Emit Nat := do
  let e ← get
  set { e with nextLabel := e.nextLabel + count }
  return e.nextLabel

def stringLabel (s : String) : Emit String := do
  match (← get).strings.lookup s with
  | some label => return label
  | none =>
    let label := localLabel (← reserveLabels 1)
    modify fun e => { e with strings := e.strings ++ [(s, label)] }
    return label

def addGlobal (symbol : String) : Emit Unit :=
  modify fun e => { e with globals := Module.insertSorted symbol e.globals }

end Emit

structure EmissionContext where
  program : Program
  proc : Procedure
  live : Liveness
  frame : Frame
  /-- Number of the label of the first block; the labels of the others follow, and then that of the
  epilogue. -/
  firstLabel : Nat

namespace EmissionContext

def blockLabel (c : EmissionContext) (b : BlockId) : String := localLabel (c.firstLabel + b)

def epilogueLabel (c : EmissionContext) : String := localLabel (c.firstLabel + c.proc.blocks.size)

/-- Registers that copies may overwrite where they hold no live value. -/
def clobberable (c : EmissionContext) : RegSet :=
  (Convention.callerSaved.union c.frame.saved).erase .lr

def reg (c : EmissionContext) (v : VarId) : Except Error Reg := c.proc.requireReg v

def successorLabel (c : EmissionContext) (b : BlockId) (kind : String) :
    Option BlockId → Except Error String
  | some s => .ok (c.blockLabel s)
  | none => .error (.malformed (.missingSuccessor (c.proc.blockName b) kind))

def slot (c : EmissionContext) (v : VarId) : Except Error Int32 :=
  match (c.proc.web? v).bind c.frame.slot? with
  | some offset => .ok offset
  | none => .error (.missingWeb (c.proc.varName v))

def class? (c : EmissionContext) (v : VarId) : Option ClassLayout :=
  match (c.proc.var v).ty with
  | .object name => c.program.class? name
  | _ => none

def fieldOffset (c : EmissionContext) (base : VarId) (field : String) : Except Error Int32 :=
  match (c.class? base).bind (·.offset? field) with
  | some offset => .ok offset
  | none => .error (.malformed (.unknownField (c.proc.varName base) field))

def operandReg (c : EmissionContext) : Operand → Except Error Reg
  | .var v => c.reg v
  | o => .error (.malformed (.operandNotInRegister (c.proc.showOperand o)))

def literalWord (o : Operand) : Except Error Int32 :=
  match o.word? with
  | some w => .ok w
  | none => .error (.malformed .notWord)

def flexible (c : EmissionContext) : Operand → Except Error Flexible
  | .var v => do return .reg (← c.reg v)
  | o => do Flexible.imm (← literalWord o)

end EmissionContext

end ArmBackend
