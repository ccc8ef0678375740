import ArmBackend.Config
import ArmBackend.Liveness
import ArmBackend.Program.Listing
import ArmBackend.Program.Lookup

/-!
Contract: the form that each pass promises to leave a procedure in.

Every check looks at the procedure alone and reports the first promise that does not hold. The
checks share no code with the passes they judge, apart from the live sets.
-/

namespace ArmBackend.Check

def define (p : Procedure) (defined : IndexSet) (v : VarId) : Except Error IndexSet :=
  if defined.contains v then .error (.multipleDefinitions (p.varName v))
  else .ok (defined.insert v)

def phiArguments (p : Procedure) (b : BlockId) (phi : Phi) : Except Error Unit :=
  let preds := (p.block b).preds.length
  if phi.args.length ≠ preds then
    .error (.phiArgumentMismatch (p.varName phi.dst) (p.blockName b) phi.args.length preds)
  else .ok ()

/-- Every variable has at most one definition, and phis have one argument for each predecessor. -/
def singleAssignment (p : Procedure) : Except Error Unit := do
  let inst (b : BlockId) (defined : IndexSet) (i : Inst) : Except Error IndexSet := do
    let defined ← i.defs.foldlM (define p) defined
    i.phi?.forM (phiArguments p b)
    return defined
  let block (defined : IndexSet) (b : BlockId) : Except Error IndexSet :=
    (p.block b).insts.foldlM (inst b) defined
  discard (p.blockIds.foldlM block (IndexSet.ofList p.args))

/-- Phi arguments that no definition reaches: block, destination and slot. -/
def unresolvedPhiArgs (p : Procedure) : List (BlockId × VarId × Nat) :=
  p.blockIds.flatMap fun b => (p.block b).phis.flatMap fun phi =>
    phi.args.zipIdx.filterMap fun arg =>
      if arg.1.isNone then some (b, phi.dst, arg.2) else none

/-- No edge leads from a block with two successors to a block with several predecessors. -/
def noCriticalEdges (p : Procedure) : Except Error Unit :=
  p.blockIds.forM fun b =>
    if (p.block b).cond.isNone then .ok ()
    else
      (p.block b).succs.forM fun s =>
        if 2 ≤ (p.block s).preds.length then
          .error (.violated (.criticalEdge (p.blockName b) (p.blockName s) p.name))
        else .ok ()

def phiWebs (p : Procedure) (phi : Phi) : Except Error Unit := do
  let web ← p.requireWeb phi.dst
  (phi.args.filterMap id).forM fun arg => do
    if (← p.requireWeb arg) ≠ web then
      .error (.violated (.splitWeb (p.varName phi.dst) (p.varName arg)))
    else .ok ()

def webs (p : Procedure) : Except Error Unit :=
  p.blockIds.forM fun b => (p.block b).phis.forM (phiWebs p)

/-- The values live before an instruction fit the registers, and those live across a call leave room
for its arguments. -/
def instPressure (p : Procedure) (config : Config) (b : BlockId) (i : Inst)
    (before after : IndexSet) : Except Error Unit :=
  let across := (before.inter after).size
  if config.registers < before.size then
    .error (.violated (.pressureBefore before.size (p.showInst i) (p.blockName b) config.registers))
  else if i.isCall ∧ config.callBudget < across then
    .error (.violated (.pressureAcross across (p.showInst i) (p.blockName b) config.callBudget))
  else .ok ()

/-- Judge instructions given from the last to the first, from the live set after the last. -/
def pressureFrom (p : Procedure) (config : Config) (b : BlockId) :
    List (Inst × IndexSet) → IndexSet → Except Error Unit
  | [], _ => .ok ()
  | (i, before) :: earlier, after => do
    instPressure p config b i before after
    pressureFrom p config b earlier before

def pressure (p : Procedure) (config : Config) : Except Error Unit :=
  let live := Liveness.ofProcedure p
  p.blockIds.forM fun b =>
    let befores := (live.beforeEach p b).map (·.2)
    pressureFrom p config b ((p.block b).insts.reverse.zip befores) (live.outOf b)

def argumentRegisters (p : Procedure) (config : Config) : Except Error Unit :=
  (p.args.take config.argRegisters).zipIdx.forM fun arg =>
    if p.reg? arg.1 ≠ Reg.ofIndex? arg.2 then
      .error (.violated (.misplacedArgument (p.varName arg.1) arg.2))
    else .ok ()

/-- Values that are live together are in different registers. The second argument pairs the values
seen so far with their registers. -/
def distinctRegisters (p : Procedure) (b : BlockId) :
    List VarId → List (Reg × VarId) → Except Error Unit
  | [], _ => .ok ()
  | v :: rest, seen =>
    match p.reg? v with
    | none => .error (.unassignedRegister (p.varName v))
    | some r =>
      match seen.lookup r with
      | some other =>
        .error (.violated (.sharedRegister (p.varName other) (p.varName v) r (p.blockName b)))
      | none => distinctRegisters p b rest ((r, v) :: seen)

/-- Every live value has a register of its own, and register arguments are in theirs. -/
def coloring (p : Procedure) (config : Config) : Except Error Unit := do
  argumentRegisters p config
  let live := Liveness.ofProcedure p
  p.blockIds.forM fun b =>
    ((live.beforeEach p b).map (·.2) ++ [live.outOf b]).forM fun point =>
      distinctRegisters p b point.toList []

/-- The checks that hold once a pass has run. -/
def afterPass (config : Config) (p : Procedure) : Pass → Except Error Unit
  | .flowGraph | .dominance | .liveness => .ok ()
  | .ssa | .targetForm => singleAssignment p
  | .edgeSplitting => do
    singleAssignment p
    noCriticalEdges p
  | .webs | .callSites => do
    singleAssignment p
    webs p
  | .spilling => do
    singleAssignment p
    noCriticalEdges p
    pressure p config
  | .coloring => coloring p config

end ArmBackend.Check
