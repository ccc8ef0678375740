import ArmBackend.Config
import ArmBackend.Dominance.Tree
import ArmBackend.Liveness

/-!
Contract: a register for every value that needs one.

Blocks are coloured in preorder of the dominator tree. A block starts from the registers of its
live-in values; a register is released at the last read of its value, and a definition takes the
lowest free one. The copy in front of a call pins the call's arguments to the lowest registers and
puts all other values above the argument registers. Phis in memory get no register. A register is
occupied exactly when it has an owner.
-/

namespace ArmBackend

/-- Occupancy of the registers, with the set that allocation may draw from. -/
structure RegisterFile where
  allocatable : RegSet
  owners : RegTable (Option VarId)
deriving DecidableEq, Repr

namespace RegisterFile

def ofCount (count : Nat) : RegisterFile := ⟨RegSet.firstN count, RegTable.fill none⟩

def owner? (file : RegisterFile) (r : Reg) : Option VarId := file.owners.lookup r

def isUsed (file : RegisterFile) (r : Reg) : Bool := (file.owner? r).isSome

def isFree (file : RegisterFile) (r : Reg) : Bool :=
  file.allocatable.contains r && !file.isUsed r

def occupied (file : RegisterFile) : List (Reg × VarId) :=
  Reg.all.filterMap fun r => (file.owner? r).map (r, ·)

def assign? (file : RegisterFile) (r : Reg) (var : VarId) : Option RegisterFile :=
  if file.isUsed r then none
  else some { file with owners := file.owners.update r (some var) }

/-- Give `var` the lowest free register that is not below `floor`. -/
def allocate? (file : RegisterFile) (floor : Reg) (var : VarId) : Option (Reg × RegisterFile) := do
  let r ← Reg.all.find? fun r => decide (floor ≤ r) && file.isFree r
  let file ← file.assign? r var
  return (r, file)

def release (file : RegisterFile) (r : Reg) : RegisterFile :=
  { file with owners := file.owners.update r none }

def clear (file : RegisterFile) : RegisterFile :=
  { file with owners := RegTable.fill none }

end RegisterFile

namespace Coloring

/-- Lowest register that a call leaves alone. -/
def firstPreserved : Reg := .r4

def definesRegister : Inst → Bool
  | .phi phi => !phi.inMemory
  | _ => true

structure State where
  proc : Procedure
  file : RegisterFile
  /-- Definitions whose registers are released at the next instruction if they are dead. Leading
  phis count as one instruction. -/
  recent : List VarId

/-- Occupy the registers of the values live at the start of a block. -/
def enterBlock (p : Procedure) (live : Liveness) (config : Config) (b : BlockId) :
    Except Error RegisterFile :=
  let enter (file : RegisterFile) (v : VarId) : Except Error RegisterFile :=
    match p.reg? v with
    | none => .error (.uncoloredLiveIn (p.varName v) (p.blockName b))
    | some r =>
      match file.assign? r v with
      | some file => .ok file
      | none => .error (.duplicateLiveInRegister r (p.blockName b))
  (live.inOf b).toList.foldlM enter (.ofCount config.registers)

def releaseVar (p : Procedure) (file : RegisterFile) (v : VarId) : RegisterFile :=
  match p.reg? v with
  | some r => file.release r
  | none => file

def State.setReg (s : State) (v : VarId) (r : Reg) (file : RegisterFile) : State :=
  { s with proc := s.proc.setReg v (some r), file := file }

def State.allocate (s : State) (b : BlockId) (floor : Reg) (v : VarId) : Except Error State :=
  match s.file.allocate? floor v with
  | some (r, file) => .ok (s.setReg v r file)
  | none => .error (.registersExhausted (s.proc.varName v) (s.proc.blockName b))

/-- Colour a definition, which must be the only one of its variable. -/
def State.define (b : BlockId) (s : State) (v : VarId) : Except Error State :=
  if (s.proc.reg? v).isSome then .error (.multipleDefinitions (s.proc.varName v))
  else s.allocate b .r0 v

/-- Pin a call argument to the register of its position. -/
def State.pinArgument (argCount : Nat) (s : State) (arg : VarId × Nat) : Except Error State :=
  match Reg.ofIndex? arg.2 with
  | none => .error (.malformed (.registerArguments argCount))
  | some r => .ok (s.setReg arg.1 r ((s.file.assign? r arg.1).getD s.file))

/-- Leave a value that is carried across a call in its register if the call preserves it. The second
part of the state holds the values still to be placed. -/
def State.keepCarried (state : State × List VarId) (copy : VarId × VarId) : State × List VarId :=
  let (s, pending) := state
  let stay? : Option Reg := (s.proc.reg? copy.2).filter fun r =>
    decide (firstPreserved ≤ r) && s.file.isFree r
  match stay? with
  | some r => (s.setReg copy.1 r ((s.file.assign? r copy.1).getD s.file), pending)
  | none => (s, pending ++ [copy.1])

/-- Colour the copy in front of a call, which reassigns every register. -/
def State.prepare (s : State) (b : BlockId) (defs srcs : List VarId) (argCount : Nat) :
    Except Error State := do
  let s := { s with file := s.file.clear }
  let s ← ((defs.take argCount).zipIdx).foldlM (State.pinArgument argCount) s
  let (s, pending) := ((defs.zip srcs).drop argCount).foldl State.keepCarried (s, [])
  pending.foldlM (fun s v => s.allocate b firstPreserved v) s

def State.releaseRecent (s : State) (live : Liveness) (b : BlockId) : State :=
  let dead := s.recent.filter (live.isDeadDef b)
  { s with file := dead.foldl (releaseVar s.proc) s.file, recent := [] }

def State.releaseReads (s : State) (live : Liveness) (b : BlockId) (reads : List VarId)
    (index : Nat) : State :=
  let dying := reads.filter fun v => live.diesAt b v index
  { s with file := dying.foldl (releaseVar s.proc) s.file }

/-- The state once an instruction has released registers. -/
def State.released (s : State) (live : Liveness) (b : BlockId) (exitReads : List VarId)
    (i : Inst × Nat) : State :=
  (if i.1.isPhi then s else s.releaseRecent live b).releaseReads live b (i.1.reads exitReads) i.2

def State.step (live : Liveness) (b : BlockId) (exitReads : List VarId) (s : State)
    (i : Inst × Nat) : Except Error State := do
  let s := s.released live b exitReads i
  match i.1 with
  | .prepare defs srcs argCount =>
    let s ← s.prepare b defs srcs argCount
    return { s with recent := s.recent ++ defs }
  | i =>
    if definesRegister i then
      let s ← i.defs.foldlM (State.define b) s
      return { s with recent := s.recent ++ i.defs }
    else return s

def colorBlock (live : Liveness) (config : Config) (p : Procedure) (b : BlockId) :
    Except Error Procedure := do
  let file ← enterBlock p live config b
  let insts := (p.block b).insts
  let s ← insts.zipIdx.foldlM (State.step live b (p.exitReads b)) ⟨p, file, []⟩
  return s.proc

def pinArguments (p : Procedure) (config : Config) : Procedure :=
  let p := (p.args ++ p.locals).foldl (fun p v => p.setReg v none) p
  let pin (p : Procedure) (arg : VarId × Nat) : Procedure := p.setReg arg.1 (Reg.ofIndex? arg.2)
  (p.args.take config.argRegisters).zipIdx.foldl pin p

end Coloring

def Procedure.color (p : Procedure) (t : DomTree) (live : Liveness) (config : Config) :
    Except Error Procedure :=
  t.preorder.foldlM (Coloring.colorBlock live config) (Coloring.pinArguments p config)

end ArmBackend
