import ArmBackend.Program.Operator
import ArmBackend.Register
import ArmBackend.Text.Quoted

/-!
Contract: every way a compilation can fail, and the wording of each.

A failure is a cause with the names and numbers it speaks of. `Error.message` is the sentence shown
to users, `Error.kind` the name of the class of failure, and `Error.record` the structured form that
the command line prints.
-/

namespace ArmBackend

open ArmBackend.Text

inductive SyntaxFault where
  | expectedChar (wanted : Char) (found : Option Char)
  | expectedIdentifier (found : Option Char)
  | badNumber (text : String) (fault : IntegerFault)
  | unterminatedString
  | unterminatedEscape
  | badHexEscape (text : String) (fault : IntegerFault)
  | unknownEscape (c : Char)
  | duplicateClass (name : String)
  | duplicateProcedure (name : String)
  | unterminatedBody (procedure : String)
  | redeclared (name : String)
  | undeclared (name : String)
  | expectedGoto
  | duplicateLabel (name : String)
  | expectedComparison (found : Option Char)
  | expectedOperand
deriving DecidableEq, Repr

def SyntaxFault.message : SyntaxFault → String
  | .expectedChar wanted found =>
    "Expected '" ++ wanted.toString ++ "' but found " ++ Quoted.optionalChar found
  | .expectedIdentifier (some c) => "Expected identifier but found '" ++ c.toString ++ "'"
  | .expectedIdentifier none => "Expected identifier but found EOF"
  | .badNumber text fault => "Failed to parse number '" ++ text ++ "': " ++ fault.message
  | .unterminatedString => "Unterminated string literal"
  | .unterminatedEscape => "Unterminated escape"
  | .badHexEscape text fault => "Bad hex escape '" ++ text ++ "': " ++ fault.message
  | .unknownEscape c => "Unknown escape '\\" ++ c.toString ++ "'"
  | .duplicateClass name => "Duplicate class definition: '" ++ name ++ "'"
  | .duplicateProcedure name => "Duplicate procedure definition: '" ++ name ++ "'"
  | .unterminatedBody procedure => "Unterminated body of procedure '" ++ procedure ++ "'"
  | .redeclared name => "Variable '" ++ name ++ "' declared twice"
  | .undeclared name => "Undeclared variable '" ++ name ++ "'"
  | .expectedGoto => "Expected 'goto' after condition"
  | .duplicateLabel name => "Label '" ++ name ++ "' defined twice"
  | .expectedComparison found =>
    "Expected comparison operator but found " ++ Quoted.optionalChar found
  | .expectedOperand => "Expected operand but found EOF"

inductive ConfigFault where
  | argRegisters (count : Nat)
  | registers (least most count : Nat)
deriving DecidableEq, Repr

def ConfigFault.message : ConfigFault → String
  | .argRegisters count =>
    "the calling convention passes 4 arguments in registers, got " ++ toString count
  | .registers least most count =>
    "register count must be in " ++ toString least ++ "..=" ++ toString most ++ ", got " ++
      toString count

/-- Why an instruction has no counterpart on the target. -/
inductive MalformedCause where
  | callArgument (operand block : String)
  | emptyPush
  | emptyPop
  | wideMove (word : Int32)
  | missingSuccessor (block kind : String)
  | unknownField (var field : String)
  | operandNotInRegister (operand : String)
  | loadFromConstant (field : String)
  | unfoldable (left : Int32) (op : BinaryOp) (right : Int32)
  | division
  | strayLabel (block : String)
  | notWord
  | registerArguments (count : Nat)
deriving DecidableEq, Repr

def MalformedCause.message : MalformedCause → String
  | .callArgument operand block =>
    "call argument " ++ operand ++ " in " ++ block ++ " is not a variable"
  | .emptyPush => "push with an empty register list"
  | .emptyPop => "pop with an empty register list"
  | .wideMove word => "16-bit move of " ++ showWord word
  | .missingSuccessor block kind => "block " ++ block ++ " has no " ++ kind ++ " successor"
  | .unknownField var field => var ++ " has no field " ++ field
  | .operandNotInRegister operand => "operand " ++ operand ++ " is not in a register"
  | .loadFromConstant field => "field load of " ++ field ++ " from a constant"
  | .unfoldable left op right =>
    "constant " ++ showWord left ++ " " ++ op.symbol ++ " " ++ showWord right ++ " does not fold"
  | .division => "division reached code generation"
  | .strayLabel block => "label marker left in block " ++ block
  | .notWord => "expected an integer constant"
  | .registerArguments count => "call-prep with " ++ toString count ++ " register arguments"

/-- Which promise about the form of a procedure does not hold. -/
inductive Violation where
  | undefinedSpill (var : String)
  | criticalEdge (source target procedure : String)
  | splitWeb (phi arg : String)
  | pressureBefore (count : Nat) (inst block : String) (limit : Nat)
  | pressureAcross (count : Nat) (inst block : String) (limit : Nat)
  | misplacedArgument (var : String) (index : Nat)
  | sharedRegister (first second : String) (reg : Reg) (block : String)
deriving DecidableEq, Repr

def Violation.message : Violation → String
  | .undefinedSpill var => "spilled value " ++ var ++ " has no definition"
  | .criticalEdge source target procedure =>
    "critical edge " ++ source ++ " -> " ++ target ++ " in " ++ procedure
  | .splitWeb phi arg => "phi " ++ phi ++ " and its argument " ++ arg ++ " are in different webs"
  | .pressureBefore count inst block limit =>
    toString count ++ " values live before `" ++ inst ++ "` in " ++ block ++ ", limit " ++
      toString limit
  | .pressureAcross count inst block limit =>
    toString count ++ " values live across `" ++ inst ++ "` in " ++ block ++ ", limit " ++
      toString limit
  | .misplacedArgument var index => "argument " ++ var ++ " is not in r" ++ toString index
  | .sharedRegister first second reg block =>
    first ++ " and " ++ second ++ " both live in " ++ reg.name ++ " in " ++ block

/-- A failed compilation. Lines and columns count from one; a column counts bytes of UTF-8. -/
inductive Error where
  | parse (line column : Nat) (fault : SyntaxFault)
  | invalidConfig (fault : ConfigFault)
  | unknownLabel (procedure label : String)
  | multipleDefinitions (var : String)
  | disconnectedBlock (procedure block : String)
  | phiArgumentMismatch (var block : String) (args preds : Nat)
  | registersExhausted (var block : String)
  | uncoloredLiveIn (var block : String)
  | duplicateLiveInRegister (reg : Reg) (block : String)
  | unassignedRegister (var : String)
  | missingWeb (var : String)
  | copyConflict (reg : Reg)
  | invalidImmediate (value : Int32)
  | malformed (cause : MalformedCause)
  | violated (violation : Violation)
deriving DecidableEq, Repr

namespace Error

def kind : Error → String
  | .parse .. => "Parse"
  | .invalidConfig _ => "InvalidConfig"
  | .unknownLabel .. => "UnknownLabel"
  | .multipleDefinitions _ => "MultipleDefinitions"
  | .disconnectedBlock .. => "DisconnectedBlock"
  | .phiArgumentMismatch .. => "PhiArgumentMismatch"
  | .registersExhausted .. => "RegistersExhausted"
  | .uncoloredLiveIn .. => "UncoloredLiveIn"
  | .duplicateLiveInRegister .. => "DuplicateLiveInRegister"
  | .unassignedRegister _ => "UnassignedRegister"
  | .missingWeb _ => "MissingPhiWeb"
  | .copyConflict _ => "ParallelCopyConflict"
  | .invalidImmediate _ => "InvalidImmediate"
  | .malformed _ => "MalformedInstruction"
  | .violated _ => "InvariantViolated"

def message : Error → String
  | .parse line column fault =>
    "parse error at " ++ toString line ++ ":" ++ toString column ++ ": " ++ fault.message
  | .invalidConfig fault => "invalid backend configuration: " ++ fault.message
  | .unknownLabel procedure label => "jump to unknown label " ++ label ++ " in " ++ procedure
  | .multipleDefinitions var => "variable " ++ var ++ " has multiple definitions"
  | .disconnectedBlock procedure block =>
    "block " ++ block ++ " is not reachable from the entry of " ++ procedure
  | .phiArgumentMismatch var block args preds =>
    "phi for " ++ var ++ " in block " ++ block ++ " has " ++ toString args ++
      " arguments but " ++ toString preds ++ " predecessors"
  | .registersExhausted var block =>
    "ran out of registers assigning " ++ var ++ " in block " ++ block
  | .uncoloredLiveIn var block =>
    "live-in variable " ++ var ++ " of block " ++ block ++ " has no register"
  | .duplicateLiveInRegister reg block =>
    "register " ++ reg.name ++ " holds two live-in variables of block " ++ block
  | .unassignedRegister var => "variable " ++ var ++ " has no assigned register"
  | .missingWeb var => "variable " ++ var ++ " needs a stack slot but has no phi-web"
  | .copyConflict reg => "parallel copy writes register " ++ reg.name ++ " twice"
  | .invalidImmediate value => showWord value ++ " is not a valid rotated immediate"
  | .malformed cause => "malformed instruction: " ++ cause.message
  | .violated violation => "invariant violated: " ++ violation.message

/-- Names and written values of what the failure carries, in the order of the record. -/
def fields : Error → List (String × String)
  | .parse line column fault =>
    [("line", toString line), ("column", toString column),
      ("message", Quoted.string fault.message)]
  | .invalidConfig fault => [("reason", Quoted.string fault.message)]
  | .unknownLabel procedure label =>
    [("procedure", Quoted.string procedure), ("label", Quoted.string label)]
  | .multipleDefinitions var => [("var", Quoted.string var)]
  | .disconnectedBlock procedure block =>
    [("procedure", Quoted.string procedure), ("block", Quoted.string block)]
  | .phiArgumentMismatch var block args preds =>
    [("var", Quoted.string var), ("block", Quoted.string block), ("args", toString args),
      ("preds", toString preds)]
  | .registersExhausted var block | .uncoloredLiveIn var block =>
    [("var", Quoted.string var), ("block", Quoted.string block)]
  | .duplicateLiveInRegister reg block =>
    [("reg", Quoted.string reg.name), ("block", Quoted.string block)]
  | .unassignedRegister var | .missingWeb var => [("var", Quoted.string var)]
  | .copyConflict reg => [("reg", Quoted.string reg.name)]
  | .invalidImmediate value => [("value", showWord value)]
  | .malformed cause => [("reason", Quoted.string cause.message)]
  | .violated violation => [("reason", Quoted.string violation.message)]

def record (e : Error) : String :=
  let written := e.fields.map fun f => f.1 ++ ": " ++ f.2
  e.kind ++ " \x7b " ++ String.intercalate ", " written ++ " \x7d"

end Error

end ArmBackend
