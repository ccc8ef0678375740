import ArmBackend.Program.Instruction
import ArmBackend.Register

/-!
Contract: blocks, procedures, class layouts and programs.

A procedure owns its variables, labels, blocks and webs in tables addressed by number; nothing is
ever removed from the tables of variables and labels. Looking up a number outside a table gives an
anonymous entry, so every operation here is total; the operations that build procedures only ever
hand out numbers inside.
-/

namespace ArmBackend

structure Variable where
  name : String
  ty : Ty
  reg : Option Reg
  web : Option WebId
deriving DecidableEq, Repr

instance : Inhabited Variable := ⟨"", .void, none, none⟩

structure Web where
  /-- Some member is stored to or loaded from the stack. -/
  needsStack : Bool
deriving DecidableEq, Repr

instance : Inhabited Web := ⟨⟨false⟩⟩

structure Block where
  label : LabelId
  insts : List Inst
  /-- Predecessors, in the order of the arguments of the block's phis. -/
  preds : List BlockId
  /-- Successor by fallthrough or by an unconditional jump. -/
  direct : Option BlockId
  /-- Successor by a branch that is taken. -/
  cond : Option BlockId
  /-- Position in the postorder of the flow graph. -/
  postIndex : Nat
deriving DecidableEq, Repr

namespace Block

def ofInsts (label : LabelId) (insts : List Inst) : Block := ⟨label, insts, [], none, none, 0⟩

instance : Inhabited Block := ⟨ofInsts 0 []⟩

/-- Successors, the direct one first. -/
def succs (b : Block) : List BlockId := b.direct.toList ++ b.cond.toList

def phis (b : Block) : List Phi := leadingPhis b.insts

def body (b : Block) : List Inst := b.insts.drop b.phis.length

def predIndex? (b : Block) (pred : BlockId) : Option Nat := b.preds.findIdx? (· == pred)

def isTerminated (b : Block) : Bool := b.insts.getLast?.any Inst.isTerminator

def insertInst (b : Block) (at_ : Nat) (i : Inst) : Block :=
  { b with insts := b.insts.take at_ ++ i :: b.insts.drop at_ }

def insertBeforeLast (b : Block) (new : List Inst) : Block :=
  let last := b.insts.length - 1
  { b with insts := b.insts.take last ++ new ++ b.insts.drop last }

def modifyInst (b : Block) (at_ : Nat) (f : Inst → Inst) : Block :=
  { b with insts := b.insts.modify at_ f }

def retarget (b : Block) (target : LabelId) : Block :=
  b.modifyInst (b.insts.length - 1) (Inst.withTarget target)

end Block

structure Procedure where
  name : String
  returns : Ty
  args : List VarId
  locals : List VarId
  blocks : Array Block
  preorder : List BlockId
  postorder : List BlockId
  rpo : List BlockId
  webs : Array Web
  vars : Array Variable
  labels : Array String
deriving DecidableEq, Repr

namespace Procedure

/-- A procedure with one empty block, labelled `entry`. -/
def ofName (name : String) (returns : Ty) : Procedure where
  name := name
  returns := returns
  args := []
  locals := []
  blocks := #[Block.ofInsts 0 []]
  preorder := []
  postorder := []
  rpo := []
  webs := #[]
  vars := #[]
  labels := #["entry"]

instance : Inhabited Procedure := ⟨ofName "" .void⟩

def entry : BlockId := 0

/-! ## Variables -/

def var (p : Procedure) (v : VarId) : Variable := p.vars.getD v default

def varName (p : Procedure) (v : VarId) : String := (p.var v).name

def reg? (p : Procedure) (v : VarId) : Option Reg := (p.var v).reg

def web? (p : Procedure) (v : VarId) : Option WebId := (p.var v).web

def nextVar (p : Procedure) : VarId := p.vars.size

/-- Append a variable that is neither argument nor local. -/
def newVar (p : Procedure) (name : String) (ty : Ty) : Procedure :=
  { p with vars := p.vars.push ⟨name, ty, none, none⟩ }

/-- Append a variable, numbered `p.nextVar`, to the arguments. -/
def addArg (p : Procedure) (name : String) (ty : Ty) : Procedure :=
  { p.newVar name ty with args := p.args ++ [p.nextVar] }

/-- Append a variable, numbered `p.nextVar`, to the locals. -/
def addLocal (p : Procedure) (name : String) (ty : Ty) : Procedure :=
  { p.newVar name ty with locals := p.locals ++ [p.nextVar] }

def removeLocal (p : Procedure) (v : VarId) : Procedure :=
  { p with locals := p.locals.filter (· != v) }

def modifyVar (p : Procedure) (v : VarId) (f : Variable → Variable) : Procedure :=
  { p with vars := p.vars.modify v f }

def setReg (p : Procedure) (v : VarId) (reg : Option Reg) : Procedure :=
  p.modifyVar v ({ · with reg := reg })

def setWeb (p : Procedure) (v : VarId) (web : Option WebId) : Procedure :=
  p.modifyVar v ({ · with web := web })

def operandTy (p : Procedure) : Operand → Ty
  | .str _ => .string
  | .int _ => .int
  | .bool _ => .bool
  | .null => .null
  | .var v => (p.var v).ty

/-! ## Labels -/

def labelName (p : Procedure) (l : LabelId) : String := p.labels.getD l ""

def nextLabel (p : Procedure) : LabelId := p.labels.size

def newLabel (p : Procedure) (name : String) : Procedure :=
  { p with labels := p.labels.push name }

def renameLabel (p : Procedure) (l : LabelId) (name : String) : Procedure :=
  { p with labels := p.labels.setIfInBounds l name }

/-! ## Blocks -/

def block (p : Procedure) (b : BlockId) : Block := p.blocks.getD b default

def blockIds (p : Procedure) : List BlockId := List.range p.blocks.size

def blockName (p : Procedure) (b : BlockId) : String := p.labelName (p.block b).label

def modifyBlock (p : Procedure) (b : BlockId) (f : Block → Block) : Procedure :=
  { p with blocks := p.blocks.modify b f }

def setInsts (p : Procedure) (b : BlockId) (insts : List Inst) : Procedure :=
  p.modifyBlock b ({ · with insts := insts })

def pushBlock (p : Procedure) (b : Block) : Procedure :=
  { p with blocks := p.blocks.push b }

def insts (p : Procedure) : List Inst := p.blocks.toList.flatMap Block.insts

def instCount (p : Procedure) : Nat := p.insts.length

/-! ## Webs -/

def newWeb (p : Procedure) : Procedure := { p with webs := p.webs.push default }

def stackWebs (p : Procedure) : List WebId :=
  (List.range p.webs.size).filter fun w => (p.webs.getD w default).needsStack

def needStack (p : Procedure) (w : WebId) : Procedure :=
  { p with webs := p.webs.modify w ({ · with needsStack := true }) }

end Procedure

/-- Fields of a class, each four bytes wide, in order of declaration. -/
structure ClassLayout where
  name : String
  fields : List (String × Ty)
deriving DecidableEq, Repr

/-- Byte offset of the first field with the given name. -/
def ClassLayout.offset? (layout : ClassLayout) (field : String) : Option Int32 :=
  (layout.fields.findIdx? (·.1 == field)).map fun i => Int32.ofNat i * 4

structure Program where
  classes : List ClassLayout
  procedures : List Procedure
deriving DecidableEq, Repr

namespace Program

def empty : Program := ⟨[], []⟩

instance : Inhabited Program := ⟨empty⟩

def class? (program : Program) (name : String) : Option ClassLayout :=
  program.classes.find? (·.name == name)

def procedure? (program : Program) (name : String) : Option Procedure :=
  program.procedures.find? (·.name == name)

end Program

end ArmBackend
