import ArmBackend.Program.Procedure
import ArmBackend.Source.Cursor

/-!
Contract: the statements of a procedure body.

A body is read against the draft of its procedure: declarations add variables, and the first mention
of a label, by a jump or by its marker, gives it the next number. Names of procedures are not known
yet, so every call is read as external.
-/

namespace ArmBackend.Source

/-- Type with the given name; a name that is not built in is a class. -/
def tyOfName (name : String) : Ty :=
  if name = "Int" ∨ name = "int" then .int
  else if name = "Bool" ∨ name = "bool" then .bool
  else if name = "String" then .string
  else if name = "Void" ∨ name = "void" then .void
  else .object name

/-- Words that do not start a declaration. -/
def keywords : List String := ["if", "goto", "return", "class", "true", "false", "null", "NULL"]

structure Draft where
  proc : Procedure
  marked : List LabelId
deriving DecidableEq, Repr

namespace Draft

def var? (d : Draft) (name : String) : Option VarId := d.proc.vars.findIdx? (·.name == name)

/-- Number of a label that was mentioned before. The entry's own label is not one of them. -/
def label? (d : Draft) (name : String) : Option LabelId :=
  ((d.proc.labels.toList.drop 1).findIdx? (· == name)).map (· + 1)

/-- Number of a label, given on its first mention. -/
def label (d : Draft) (name : String) : LabelId × Draft :=
  match d.label? name with
  | some l => (l, d)
  | none => (d.proc.nextLabel, { d with proc := d.proc.newLabel name })

end Draft

namespace Reader

def ty : Reader Ty := return tyOfName (← identifier)

def lookup (d : Draft) (name : String) : Reader VarId :=
  match d.var? name with
  | some v => return v
  | none => fault (.undeclared name)

/-- Declare an argument or a local; a name is declared once. -/
def declare (d : Draft) (isArg : Bool) (name : String) (t : Ty) : Reader Draft :=
  if (d.var? name).isSome then fault (.redeclared name)
  else if isArg then return { d with proc := d.proc.addArg name t }
  else return { d with proc := d.proc.addLocal name t }

def operand (d : Draft) : Reader Operand := do
  skip
  match ← peek? with
  | none => fault .expectedOperand
  | some ch =>
    if ch = '"' then return .str (← stringLiteral)
    else if ch.isDigit ∨ ch = '-' then return .int (← word)
    else
      let name ← identifier
      if name = "true" then return .bool true
      else if name = "false" then return .bool false
      else if name = "null" ∨ name = "NULL" then return .null
      else return .var (← lookup d name)

/-- Arguments of a call up to the closing parenthesis, after one argument was read. -/
def moreArguments (d : Draft) : Nat → Reader (List Operand)
  | 0 => fault .expectedOperand
  | rounds + 1 => do
    let arg ← operand d
    if ← tryChar ')' then return [arg]
    else
      expect ','
      return arg :: (← moreArguments d rounds)

def arguments (d : Draft) : Reader (List Operand) := do
  if ← tryChar ')' then return []
  else moreArguments d ((← get).rest.length + 1)

def comparison? : List Char → Option (Comparison × Nat)
  | '<' :: '=' :: _ => some (.le, 2)
  | '>' :: '=' :: _ => some (.ge, 2)
  | '=' :: '=' :: _ => some (.eq, 2)
  | '!' :: '=' :: _ => some (.ne, 2)
  | '<' :: _ => some (.lt, 1)
  | '>' :: _ => some (.gt, 1)
  | _ => none

def comparison : Reader Comparison := do
  skip
  match comparison? (← get).rest with
  | some (op, length) =>
    modify fun c => Nat.repeat Cursor.advance length c
    return op
  | none => fault (.expectedComparison (← peek?))

/-- The arithmetic operator that follows an operand, if one does. -/
def binaryOp? : Reader (Option BinaryOp) := do
  if ← tryChar '+' then return some .add
  else if ← tryChar '-' then return some .sub
  else if ← tryChar '*' then return some .mul
  else if ← tryChar '/' then return some .div
  else if ← atIdentifier "RSB" then
    let _ ← identifier
    return some .rsb
  else return none

/-- Is a call what stands next? The truth values are not taken for procedure names. -/
def atCall : Reader Bool := do
  let name ← peekIdentifier?
  let after ← peekAfterIdentifier?
  return name.isSome ∧ after = some '(' ∧ name ≠ some "true" ∧ name ≠ some "false"

def atNegation : Reader Bool := do
  match (← get).rest with
  | '-' :: ch :: _ => return !ch.isDigit
  | ['-'] => return true
  | _ => return false

/-- How an assignment goes on behind its first operand. -/
def afterOperand (d : Draft) (dst : VarId) (left : Operand) : Reader Inst := do
  if ← tryChar '.' then return .load dst left (← identifier)
  else
    match ← binaryOp? with
    | some op => return .binary dst op left (← operand d)
    | none => return .assign dst left

/-- Right-hand side of an assignment to `dst`. -/
def assignment (d : Draft) (dst : VarId) : Reader Inst := do
  skip
  if ← atNegation then
    modify Cursor.advance
    return .negate dst (← operand d)
  else if ← atCall then
    let callee ← identifier
    expect '('
    return .call (some dst) (.external callee) (← arguments d)
  else afterOperand d dst (← operand d)

def jumpTarget (d : Draft) : Reader (LabelId × Draft) := do
  let name ← identifier
  expect ';'
  return d.label name

def branch (d : Draft) : Reader (Inst × Draft) := do
  expect '('
  let left ← operand d
  let op ← comparison
  let right ← operand d
  expect ')'
  if (← identifier) ≠ "goto" then fault .expectedGoto
  let (target, d) ← jumpTarget d
  return (.branch op left right target, d)

def ret (d : Draft) : Reader Inst := do
  if ← tryChar ';' then return .ret none
  else
    let value ← operand d
    expect ';'
    return .ret (some value)

/-- Marker of the label with the given name, after its colon. -/
def marker (d : Draft) (name : String) : Reader (Inst × Draft) := do
  let (l, d) := d.label name
  if d.marked.contains l then fault (.duplicateLabel name)
  else return (.label l, { d with marked := l :: d.marked })

/-- How a statement goes on behind its first word, if that is neither a command nor a label. -/
def unmarked (d : Draft) (first : String) : Reader (Option Inst × Draft) := do
  if !keywords.contains first && (← peekAfterIdentifier?) = some ';' then
    let name ← identifier
    expect ';'
    return (none, ← declare d false name (tyOfName first))
  else if ← tryChar '(' then
    let args ← arguments d
    expect ';'
    return (some (.call none (.external first) args), d)
  else if ← tryChar '.' then
    let field ← identifier
    expect '='
    let src ← operand d
    expect ';'
    return (some (.store (← lookup d first) field src), d)
  else
    let dst ← lookup d first
    expect '='
    let i ← assignment d dst
    expect ';'
    return (some i, d)

/-- One statement. A declaration gives no instruction. -/
def statement (d : Draft) : Reader (Option Inst × Draft) := do
  let first ← identifier
  if first = "if" then
    let (i, d) ← branch d
    return (some i, d)
  else if first = "goto" then
    let (target, d) ← jumpTarget d
    return (some (.jump target), d)
  else if first = "return" then return (some (← ret d), d)
  else if ← tryChar ':' then
    let (i, d) ← marker d first
    return (some i, d)
  else unmarked d first

end Reader

end ArmBackend.Source
