import ArmBackend.Error
import ArmBackend.Immediate
import ArmBackend.Text.Literal

/-!
Contract: the instructions of the target, and their assembler text.

Immediates and register lists that have no encoding are refused when an instruction is built with
`Flexible.imm`, `Instr.moveWide`, `Instr.pushAll` and `Instr.popAll`.
-/

namespace ArmBackend.Assembly

open ArmBackend.Text

inductive Condition where
  | eq
  | ne
  | hs
  | lo
  | mi
  | pl
  | vs
  | vc
  | hi
  | ls
  | ge
  | lt
  | gt
  | le
  | always
deriving DecidableEq, Repr

namespace Condition

def suffix : Condition → String
  | .eq => "eq"
  | .ne => "ne"
  | .hs => "hs"
  | .lo => "lo"
  | .mi => "mi"
  | .pl => "pl"
  | .vs => "vs"
  | .vc => "vc"
  | .hi => "hi"
  | .ls => "ls"
  | .ge => "ge"
  | .lt => "lt"
  | .gt => "gt"
  | .le => "le"
  | .always => ""

def all : List Condition :=
  [.eq, .ne, .hs, .lo, .mi, .pl, .vs, .vc, .hi, .ls, .ge, .lt, .gt, .le, .always]

/-- The condition that holds after comparing words for which a signed comparison holds. -/
def ofComparison : Comparison → Condition
  | .lt => .lt
  | .gt => .gt
  | .le => .le
  | .ge => .ge
  | .eq => .eq
  | .ne => .ne

end Condition

/-- The flexible last operand of a data-processing instruction. -/
inductive Flexible where
  | word (w : Int32)
  | reg (r : Reg)
deriving DecidableEq, Repr

namespace Flexible

/-- An immediate operand, if the word can be encoded as one. -/
def imm (w : Int32) : Except Error Flexible :=
  if Immediate.isEncodable w then .ok (.word w) else .error (.invalidImmediate w)

def text : Flexible → String
  | .word w => "#" ++ showWord w
  | .reg r => r.name

end Flexible

inductive Instr where
  | add (dst a : Reg) (b : Flexible)
  | sub (dst a : Reg) (b : Flexible)
  | rsb (dst a : Reg) (b : Flexible)
  | mul (dst a b : Reg)
  | mov (cond : Condition) (dst : Reg) (src : Flexible)
  | movWide (dst : Reg) (w : Int32)
  | branch (cond : Condition) (label : String)
  | branchLink (cond : Condition) (label : String)
  | branchExchange (cond : Condition) (r : Reg)
  | load (dst base : Reg) (offset : Int32)
  /-- Load of a word from the literal pool. -/
  | loadWord (dst : Reg) (w : Int32)
  /-- Load of an address from the literal pool. -/
  | loadAddress (dst : Reg) (label : String)
  | store (src base : Reg) (offset : Int32)
  | compare (cond : Condition) (a : Reg) (b : Flexible)
  | push (regs : RegSet)
  | pop (regs : RegSet)
  | string (s : String)
deriving DecidableEq, Repr

namespace Instr

def move (dst src : Reg) : Instr := .mov .always dst (.reg src)

def moveWide (dst : Reg) (w : Int32) : Except Error Instr :=
  if 0 ≤ w ∧ w ≤ 65535 then .ok (.movWide dst w) else .error (.malformed (.wideMove w))

def jump (label : String) : Instr := .branch .always label

def pushAll (regs : RegSet) : Except Error Instr :=
  if regs.isEmpty then .error (.malformed .emptyPush) else .ok (.push regs)

def popAll (regs : RegSet) : Except Error Instr :=
  if regs.isEmpty then .error (.malformed .emptyPop) else .ok (.pop regs)

def mnemonic : Instr → String
  | .add .. => "add"
  | .sub .. => "sub"
  | .rsb .. => "rsb"
  | .mul .. => "mul"
  | .mov .. | .movWide .. => "mov"
  | .branch .. => "b"
  | .branchLink .. => "bl"
  | .branchExchange .. => "bx"
  | .load .. | .loadWord .. | .loadAddress .. => "ldr"
  | .store .. => "str"
  | .compare .. => "cmp"
  | .push _ => "push"
  | .pop _ => "pop"
  | .string _ => ".asciz"

/-- An address; a zero offset is left out. -/
def address (base : Reg) (offset : Int32) : String :=
  if offset = 0 then "[" ++ base.name ++ "]"
  else "[" ++ base.name ++ ", #" ++ showWord offset ++ "]"

def registerList (regs : RegSet) : String :=
  "\x7b" ++ ", ".intercalate (regs.toList.map Reg.name) ++ "\x7d"

def text : Instr → String
  | .add dst a b => "add " ++ dst.name ++ ", " ++ a.name ++ ", " ++ b.text
  | .sub dst a b => "sub " ++ dst.name ++ ", " ++ a.name ++ ", " ++ b.text
  | .rsb dst a b => "rsb " ++ dst.name ++ ", " ++ a.name ++ ", " ++ b.text
  | .mul dst a b => "mul " ++ dst.name ++ ", " ++ a.name ++ ", " ++ b.name
  | .mov cond dst src => "mov" ++ cond.suffix ++ " " ++ dst.name ++ ", " ++ src.text
  | .movWide dst w => "mov " ++ dst.name ++ ", #" ++ showWord w
  | .branch cond label => "b" ++ cond.suffix ++ " " ++ label
  | .branchLink cond label => "bl" ++ cond.suffix ++ " " ++ label
  | .branchExchange cond r => "bx" ++ cond.suffix ++ " " ++ r.name
  | .load dst base offset => "ldr " ++ dst.name ++ ", " ++ address base offset
  | .loadWord dst w => "ldr " ++ dst.name ++ ", =" ++ showWord w
  | .loadAddress dst label => "ldr " ++ dst.name ++ ", =" ++ label
  | .store src base offset => "str " ++ src.name ++ ", " ++ address base offset
  | .compare cond a b => "cmp" ++ cond.suffix ++ " " ++ a.name ++ ", " ++ b.text
  | .push regs => "push " ++ registerList regs
  | .pop regs => "pop " ++ registerList regs
  | .string s => ".asciz " ++ Literal.quote s

end Instr

end ArmBackend.Assembly
