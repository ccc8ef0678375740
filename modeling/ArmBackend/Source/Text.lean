import ArmBackend.Source.Statement

/-!
Contract: program texts.

A text is a sequence of class layouts and procedures. Each procedure comes out as one block of
linear instructions with label markers. Once all procedures are known, every call that names one of
them is resolved to it, whether the procedure stands before the call or after.
-/

namespace ArmBackend

namespace Source.Reader

def fields : Nat → Reader (List (String × Ty))
  | 0 => fault (.expectedIdentifier none)
  | rounds + 1 => do
    if ← tryChar '\x7d' then return []
    else
      let t ← ty
      let name ← identifier
      expect ';'
      return (name, t) :: (← fields rounds)

def classLayout (program : Program) : Reader ClassLayout := do
  let _ ← identifier
  let name ← identifier
  if (program.class? name).isSome then fault (.duplicateClass name)
  expect '\x7b'
  return ⟨name, ← fields ((← get).rest.length + 1)⟩

def formals (d : Draft) : Nat → Reader Draft
  | 0 => fault (.expectedIdentifier none)
  | rounds + 1 => do
    let t ← ty
    let name ← identifier
    let d ← declare d true name t
    if ← tryChar ')' then return d
    else
      expect ','
      formals d rounds

def body (name : String) (d : Draft) : Nat → Reader (List Inst × Draft)
  | 0 => fault (.unterminatedBody name)
  | rounds + 1 => do
    if ← tryChar '\x7d' then return ([], d)
    else if (← peek?).isNone then fault (.unterminatedBody name)
    else
      let (first, d) ← statement d
      let (more, d) ← body name d rounds
      return (first.toList ++ more, d)

def procedure (program : Program) : Reader Procedure := do
  let returns ← ty
  let name ← identifier
  if (program.procedure? name).isSome then fault (.duplicateProcedure name)
  let d : Draft := ⟨Procedure.ofName name returns, []⟩
  expect '('
  let d ← if ← tryChar ')' then pure d else formals d ((← get).rest.length + 1)
  expect '\x7b'
  let (insts, d) ← body name d ((← get).rest.length + 1)
  return d.proc.setInsts Procedure.entry insts

def declarations (program : Program) : Nat → Reader Program
  | 0 => return program
  | rounds + 1 => do
    skip
    if (← peek?).isNone then return program
    else if ← atIdentifier "class" then
      let layout ← classLayout program
      declarations { program with classes := program.classes ++ [layout] } rounds
    else
      let p ← procedure program
      declarations { program with procedures := program.procedures ++ [p] } rounds

end Source.Reader

namespace Program

/-- Point a call at the procedure it names, if there is one. -/
def resolveInst (names : List String) : Inst → Inst
  | .call dst (.external name) args =>
    .call dst (if names.contains name then .procedure name else .external name) args
  | i => i

/-- The procedure with its calls resolved. -/
def resolved (names : List String) (p : Procedure) : Procedure :=
  { p with blocks := p.blocks.map fun b => { b with insts := b.insts.map (resolveInst names) } }

def resolveCallees (program : Program) : Program :=
  let names := program.procedures.map (·.name)
  { program with procedures := program.procedures.map (resolved names) }

def ofText (text : String) : Except Error Program := do
  let chars := text.toList
  let start := Source.Cursor.ofText chars
  let (program, _) ← Source.Reader.declarations .empty (chars.length + 1) start
  return program.resolveCallees

end Program

end ArmBackend
