import ArmBackend.Assembly.Instruction

/-!
Contract: assembly modules: labelled blocks of text and data, and the symbols shared with other
modules.
-/

namespace ArmBackend.Assembly

structure Section where
  label : String
  instrs : List Instr
  /-- Entry points of procedures are set apart by an empty line. -/
  isEntryPoint : Bool
deriving DecidableEq, Repr

def Section.listing (s : Section) : String :=
  (if s.isEntryPoint then "\n" else "") ++ s.label ++ ":\n" ++
    String.join (s.instrs.map fun i => "    " ++ i.text ++ "\n")

structure Module where
  code : List Section
  data : List Section
  globals : List String
deriving DecidableEq, Repr

namespace Module

def insertSorted (symbol : String) : List String → List String
  | [] => [symbol]
  | s :: rest =>
    if symbol = s then s :: rest
    else if symbol < s then symbol :: s :: rest
    else s :: insertSorted symbol rest

def addGlobal (m : Module) (symbol : String) : Module :=
  { m with globals := insertSorted symbol m.globals }

def instrCount (m : Module) : Nat := (m.code.flatMap (·.instrs)).length

def listing (m : Module) : String :=
  String.join (m.globals.map fun symbol => "    .global " ++ symbol ++ "\n") ++
    "\n    .text\n" ++ String.join (m.code.map Section.listing) ++
    "\n    .data\n" ++ String.join (m.data.map Section.listing)

end Module

end ArmBackend.Assembly
