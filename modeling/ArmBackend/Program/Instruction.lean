import ArmBackend.Program.Id
import ArmBackend.Program.Operator

/-!
Contract: types, operands and the instructions of three-address code.

One instruction type serves every form a procedure goes through: label markers occur only in linear
bodies, phis only after renaming, call preparations, spills, reloads and stack arguments only in
target form. `defs`, `uses` and the traversals give all instructions one interface.
-/

namespace ArmBackend

inductive Ty where
  | int
  | bool
  | string
  | void
  | null
  | object (className : String)
deriving DecidableEq, Repr

def Ty.name : Ty → String
  | .int => "Int"
  | .bool => "Bool"
  | .string => "String"
  | .void => "Void"
  | .null => "null"
  | .object className => className

inductive Operand where
  | str (text : String)
  | int (word : Int32)
  | bool (value : Bool)
  | null
  | var (v : VarId)
deriving DecidableEq, Repr

namespace Operand

def var? : Operand → Option VarId
  | .var v => some v
  | _ => none

/-- Word a literal stands for: truth values are 1 and 0, the null reference is 0. -/
def word? : Operand → Option Int32
  | .int word => some word
  | .bool value => some (if value then 1 else 0)
  | .null => some 0
  | .str _ | .var _ => none

/-- Is the value known as a word while code is generated? -/
def isConstant (o : Operand) : Bool := o.word?.isSome

/-- Apply `f` to the variable, if the operand is one. -/
def traverse {m : Type → Type} [Monad m] (f : VarId → m VarId) : Operand → m Operand
  | .var v => return .var (← f v)
  | o => return o

end Operand

inductive Callee where
  | procedure (name : String)
  | external (name : String)
deriving DecidableEq, Repr

def Callee.name : Callee → String
  | .procedure name => name
  | .external name => name

/-- Choice of a value by the edge through which a block is entered: `args[i]` flows in from the
block's `i`-th predecessor. -/
structure Phi where
  dst : VarId
  /-- The variable whose definitions the phi joins. -/
  source : VarId
  /-- An absent argument marks an edge that no definition reaches. -/
  args : List (Option VarId)
  /-- The joined value starts out in its stack slot. -/
  inMemory : Bool
deriving DecidableEq, Repr

inductive Inst where
  /-- Marker of a jump target in a linear body. -/
  | label (label : LabelId)
  /-- Jump to `target` if the comparison holds. -/
  | branch (op : Comparison) (left right : Operand) (target : LabelId)
  | jump (target : LabelId)
  | assign (dst : VarId) (src : Operand)
  | binary (dst : VarId) (op : BinaryOp) (left right : Operand)
  | negate (dst : VarId) (src : Operand)
  | load (dst : VarId) (base : Operand) (field : String)
  | store (base : VarId) (field : String) (src : Operand)
  | ret (value : Option Operand)
  | call (dst : Option VarId) (callee : Callee) (args : List Operand)
  /-- Simultaneous copy ahead of a call. The first `argCount` definitions are the call's register
  arguments. -/
  | prepare (defs srcs : List VarId) (argCount : Nat)
  | phi (node : Phi)
  | spill (var : VarId)
  | reload (dst : VarId)
  /-- Store an outgoing call argument to the caller's stack area. -/
  | stackArg (var : VarId) (index : Nat)
deriving DecidableEq, Repr

namespace Inst

def isTerminator : Inst → Bool
  | .branch .. | .jump _ | .ret _ => true
  | _ => false

def isCall : Inst → Bool
  | .call .. => true
  | _ => false

def phi? : Inst → Option Phi
  | .phi node => some node
  | _ => none

def isPhi (i : Inst) : Bool := i.phi?.isSome

def target? : Inst → Option LabelId
  | .branch _ _ _ target => some target
  | .jump target => some target
  | _ => none

/-- The same instruction jumping elsewhere; instructions that do not jump stay as they are. -/
def withTarget (target : LabelId) : Inst → Inst
  | .branch op left right _ => .branch op left right target
  | .jump _ => .jump target
  | i => i

def defs : Inst → List VarId
  | .assign dst _ | .binary dst _ _ _ | .negate dst _ | .load dst _ _ | .reload dst => [dst]
  | .phi node => [node.dst]
  | .call dst _ _ => dst.toList
  | .prepare defs _ _ => defs
  | _ => []

def operands : Inst → List Operand
  | .branch _ left right _ | .binary _ _ left right => [left, right]
  | .assign _ src | .store _ _ src | .negate _ src => [src]
  | .load _ base _ => [base]
  | .ret value => value.toList
  | .call _ _ args => args
  | _ => []

/-- Variables read by the instruction, operands first. A phi reads nothing: its arguments are read
on the edges into its block. -/
def uses (i : Inst) : List VarId :=
  i.operands.filterMap Operand.var? ++
    match i with
    | .store base _ _ => [base]
    | .spill var | .stackArg var _ => [var]
    | .prepare _ srcs _ => srcs
    | _ => []

/-- Apply `f` to every variable read, in the order of `uses`. -/
def traverseUses {m : Type → Type} [Monad m] (f : VarId → m VarId) : Inst → m Inst
  | .branch op left right target => do
    let left ← left.traverse f
    let right ← right.traverse f
    return .branch op left right target
  | .assign dst src => return .assign dst (← src.traverse f)
  | .binary dst op left right => do
    let left ← left.traverse f
    let right ← right.traverse f
    return .binary dst op left right
  | .negate dst src => return .negate dst (← src.traverse f)
  | .load dst base field => return .load dst (← base.traverse f) field
  | .store base field src => do
    let src ← src.traverse f
    let base ← f base
    return .store base field src
  | .ret value => return .ret (← value.mapM (·.traverse f))
  | .call dst callee args => return .call dst callee (← args.mapM (·.traverse f))
  | .prepare defs srcs argCount => return .prepare defs (← srcs.mapM f) argCount
  | .spill var => return .spill (← f var)
  | .stackArg var index => return .stackArg (← f var) index
  | i => return i

/-- Apply `f` to every variable defined, in the order of `defs`. -/
def traverseDefs {m : Type → Type} [Monad m] (f : VarId → m VarId) : Inst → m Inst
  | .assign dst src => return .assign (← f dst) src
  | .binary dst op left right => return .binary (← f dst) op left right
  | .negate dst src => return .negate (← f dst) src
  | .load dst base field => return .load (← f dst) base field
  | .reload dst => return .reload (← f dst)
  | .phi node => return .phi { node with dst := ← f node.dst }
  | .call dst callee args => return .call (← dst.mapM f) callee args
  | .prepare defs srcs argCount => return .prepare (← defs.mapM f) srcs argCount
  | i => return i

def mapUses (f : VarId → VarId) (i : Inst) : Inst :=
  Id.run (i.traverseUses fun v => pure (f v))

def mapDefs (f : VarId → VarId) (i : Inst) : Inst :=
  Id.run (i.traverseDefs fun v => pure (f v))

/-- Replace a phi by its image; other instructions stay as they are. -/
def mapPhi (f : Phi → Phi) : Inst → Inst
  | .phi node => .phi (f node)
  | i => i

end Inst

def leadingPhis : List Inst → List Phi
  | .phi node :: rest => node :: leadingPhis rest
  | _ => []

end ArmBackend
