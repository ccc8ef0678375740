import ArmBackend.Immediate
import ArmBackend.Program.Procedure

/-!
Contract: instructions whose operands the target can take.

Operands that have to be in a register are moved into fresh temporaries, encodable immediates are
moved to the second operand, division becomes a call of the runtime, and call arguments after the
fourth are stored to the outgoing stack area. Instructions with only constant operands stay as they
are, for they are folded when code is emitted. Every temporary has one definition.
-/

namespace ArmBackend

namespace TargetForm

/-- Routine of the runtime that divides signed words. -/
def divisionRoutine : String := "__aeabi_idiv"

def registerArgs : Nat := 4

/-- Can the operand be the second operand of an instruction without being in a register? -/
def fitsSecond (o : Operand) : Bool := o.word?.any Immediate.isEncodable

/-- Append a temporary; temporaries are counted from the variable number `base` on. -/
def temporary (base : VarId) (ty : Ty) : StateM Procedure VarId := do
  let p ← get
  set (p.addLocal ("%lt" ++ toString (p.nextVar - base)) ty)
  return p.nextVar

/-- A variable that holds the operand, with the code that puts it there. -/
def materialize (base : VarId) (o : Operand) : StateM Procedure (List Inst × VarId) := do
  match o with
  | .var v => return ([], v)
  | o =>
    let tmp ← temporary base ((← get).operandTy o)
    return ([.assign tmp o], tmp)

/-- The operand as the second one of an instruction: itself if it fits, else a variable. -/
def second (base : VarId) (o : Operand) : StateM Procedure (List Inst × Operand) := do
  if fitsSecond o then return ([], o)
  else
    let (code, v) ← materialize base o
    return (code, .var v)

/-- Store arguments after the fourth, from the last one on, and pass the others in variables. A call
always defines a value, if only one that is discarded. -/
def lowerCall (base : VarId) (dst : Option VarId) (callee : Callee) (args : List Operand) :
    StateM Procedure (List Inst) := do
  let stored ← ((args.drop registerArgs).zipIdx.reverse).mapM fun arg => do
    let (code, v) ← materialize base arg.1
    return code ++ [.stackArg v arg.2]
  let passed ← (args.take registerArgs).mapM (materialize base)
  let dst ← match dst with
    | some dst => pure dst
    | none => temporary base .void
  let call := .call (some dst) callee (passed.map fun arg => .var arg.2)
  return stored.flatten ++ passed.flatMap (·.1) ++ [call]

/-- The operation with its operands in the other order, if there is one. -/
def swapped? : BinaryOp → Option BinaryOp
  | .add => some .add
  | .sub => some .rsb
  | .rsb => some .sub
  | .mul | .div => none

/-- Move an encodable first operand to the second place if the second operand needs a register. -/
def orderBinary (op : BinaryOp) (left right : Operand) : BinaryOp × Operand × Operand :=
  match swapped? op with
  | some other =>
    if !fitsSecond right && fitsSecond left then (other, right, left) else (op, left, right)
  | none => (op, left, right)

def lowerBinary (base : VarId) (dst : VarId) (op : BinaryOp) (left right : Operand) :
    StateM Procedure (List Inst) := do
  let dividesByZero := op = .div ∧ right.word? = some 0
  if left.isConstant ∧ right.isConstant ∧ ¬dividesByZero then
    return [.binary dst op left right]
  else if op = .div then lowerCall base (some dst) (.external divisionRoutine) [left, right]
  else
    let (op, left, right) := orderBinary op left right
    let (leftCode, leftVar) ← materialize base left
    if op = .mul then
      let (rightCode, rightVar) ← materialize base right
      return leftCode ++ rightCode ++ [.binary dst op (.var leftVar) (.var rightVar)]
    else
      let (rightCode, right) ← second base right
      return leftCode ++ rightCode ++ [.binary dst op (.var leftVar) right]

/-- The same for a comparison. -/
def orderBranch (op : Comparison) (left right : Operand) : Comparison × Operand × Operand :=
  if !fitsSecond right && fitsSecond left then (op.flip, right, left) else (op, left, right)

def lowerBranch (base : VarId) (op : Comparison) (left right : Operand) (target : LabelId) :
    StateM Procedure (List Inst) := do
  if left.isConstant ∧ right.isConstant then return [.branch op left right target]
  else
    let (op, left, right) := orderBranch op left right
    let (leftCode, leftVar) ← materialize base left
    let (rightCode, right) ← second base right
    return leftCode ++ rightCode ++ [.branch op (.var leftVar) right target]

def lowerInst (base : VarId) : Inst → StateM Procedure (List Inst)
  | .branch op left right target => lowerBranch base op left right target
  | .binary dst op left right => lowerBinary base dst op left right
  | .negate dst src => do
    if src.isConstant then return [.negate dst src]
    else
      let (code, v) ← materialize base src
      return code ++ [.negate dst (.var v)]
  | .load dst object field => do
    let (code, v) ← materialize base object
    return code ++ [.load dst (.var v) field]
  | .store object field src => do
    let (code, v) ← materialize base src
    return code ++ [.store object field (.var v)]
  | .call dst callee args => lowerCall base dst callee args
  | i => return [i]

def lowerBlock (base : VarId) (b : BlockId) : StateM Procedure Unit := do
  let insts ← (((← get).block b).insts).mapM (lowerInst base)
  modify (·.setInsts b insts.flatten)

end TargetForm

def Procedure.lower (p : Procedure) : Procedure × Nat :=
  let (_, lowered) := (p.blockIds.forM (TargetForm.lowerBlock p.nextVar)).run p
  (lowered, lowered.nextVar - p.nextVar)

end ArmBackend
