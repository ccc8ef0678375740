import ArmBackend.Program.Procedure
import ArmBackend.Text.Literal

/-!
Contract: the textual listing of programs and the drawing of flow graphs.

The listing of a linear program is itself a program text. Later forms add registers in braces after
a coloured variable and the web of phis, spills and reloads.
-/

namespace ArmBackend

open ArmBackend.Text

def commaList (items : List String) : String := String.intercalate ", " items

namespace Procedure

/-- A variable, with its register once coloured. -/
def showVar (p : Procedure) (v : VarId) : String :=
  match p.reg? v with
  | some r => p.varName v ++ " \x7b" ++ r.name ++ "\x7d"
  | none => p.varName v

def showOperand (p : Procedure) : Operand → String
  | .str text => Literal.quote text
  | .int word => showWord word
  | .bool value => if value then "true" else "false"
  | .null => "NULL"
  | .var v => p.showVar v

/-- The web of a variable, as spills and reloads name it. -/
def showWeb (p : Procedure) (v : VarId) : String :=
  match p.web? v with
  | some w => WebId.name w
  | none => "null"

def showPhi (p : Procedure) (phi : Phi) : String :=
  let args := phi.args.map fun
    | some v => p.showVar v
    | none => "null"
  let web := match p.web? phi.dst with
    | some w => " " ++ WebId.name w
    | none => ""
  p.showVar phi.dst ++ " = " ++ (if phi.inMemory then "PHIMEM" else "PHI") ++
    "(" ++ commaList args ++ ");" ++ web

def showInst (p : Procedure) : Inst → String
  | .label l => p.labelName l ++ ":"
  | .branch op left right target =>
    "if (" ++ p.showOperand left ++ " " ++ op.symbol ++ " " ++ p.showOperand right ++ ") goto " ++
      p.labelName target ++ ";"
  | .jump target => "goto " ++ p.labelName target ++ ";"
  | .assign dst src => p.showVar dst ++ " = " ++ p.showOperand src ++ ";"
  | .binary dst op left right =>
    p.showVar dst ++ " = " ++ p.showOperand left ++ " " ++ op.symbol ++ " " ++
      p.showOperand right ++ ";"
  | .negate dst src => p.showVar dst ++ " = -" ++ p.showOperand src ++ ";"
  | .load dst base field => p.showVar dst ++ " = " ++ p.showOperand base ++ "." ++ field ++ ";"
  | .store base field src => p.showVar base ++ "." ++ field ++ " = " ++ p.showOperand src ++ ";"
  | .ret none => "return;"
  | .ret (some value) => "return " ++ p.showOperand value ++ ";"
  | .call dst callee args =>
    let result := match dst with
      | some dst => p.showVar dst ++ " = "
      | none => ""
    result ++ callee.name ++ "(" ++ commaList (args.map p.showOperand) ++ ");"
  | .prepare defs srcs _ =>
    commaList (defs.map p.showVar) ++ " = " ++ commaList (srcs.map p.showVar) ++ ";"
  | .phi phi => p.showPhi phi
  | .spill v => "SPILL(" ++ p.showVar v ++ ", " ++ p.showWeb v ++ ");"
  | .reload v => p.showVar v ++ " = RELOAD(" ++ p.showWeb v ++ ");"
  | .stackArg v index => "STACKARG(" ++ p.showVar v ++ ", " ++ toString index ++ ");"

def instLine (p : Procedure) (i : Inst) : String :=
  match i with
  | .label _ => p.showInst i ++ "\n"
  | _ => "  " ++ p.showInst i ++ "\n"

def blockLines (p : Procedure) (b : Block) : String :=
  p.labelName b.label ++ ":\n" ++ String.join (b.insts.map p.instLine)

def showDeclaration (p : Procedure) (v : VarId) : String :=
  (p.var v).ty.name ++ " " ++ p.varName v

def listing (p : Procedure) : String :=
  p.returns.name ++ " " ++ p.name ++ "(" ++ commaList (p.args.map p.showDeclaration) ++
    ") \x7b\n" ++
    String.join (p.locals.map fun v => "  " ++ p.showDeclaration v ++ ";\n") ++ "\n" ++
    String.join (p.blocks.toList.map p.blockLines) ++ "\x7d\n"

def drawGraph (p : Procedure) : String :=
  let edges (b : Block) : List String :=
    b.succs.map fun s => "  " ++ p.labelName b.label ++ " -> " ++ p.blockName s ++ ";\n"
  "digraph cfg \x7b\n" ++ String.join (p.blocks.toList.flatMap edges) ++ "\x7d\n"

end Procedure

def ClassLayout.listing (layout : ClassLayout) : String :=
  "class " ++ layout.name ++ " \x7b\n" ++
    String.join (layout.fields.map fun f => "  " ++ f.2.name ++ " " ++ f.1 ++ ";\n") ++ "\x7d\n"

def Program.listing (program : Program) : String :=
  String.join (program.classes.map ClassLayout.listing) ++
    String.join (program.procedures.map Procedure.listing)

end ArmBackend
