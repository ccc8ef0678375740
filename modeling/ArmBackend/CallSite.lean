import ArmBackend.Liveness
import ArmBackend.Program.Listing
import ArmBackend.Ssa.Repair

/-!
Contract: a simultaneous copy in front of every call.

The copy moves the register arguments into fresh temporaries, which colouring pins to the argument
registers, and redefines every value that lives across the call, which lets colouring move it out of
the registers that the call clobbers. The redefined variables are then brought back into
single-assignment form.
-/

namespace ArmBackend

/-- State of preparing calls. Temporaries are counted from the variable number `base` on. -/
structure CallPreparation where
  base : VarId
  proc : Procedure
  /-- Values that some copy redefines. -/
  carried : IndexSet
  count : Nat

namespace CallPreparation

abbrev Action := StateT CallPreparation (Except Error)

/-- A temporary for a register argument, and the variable it is copied from. -/
def argument (block : BlockId) (arg : Operand) : Action (VarId × VarId) := do
  let s ← get
  match arg with
  | .var src =>
    let p := s.proc.addLocal ("%rtp" ++ toString (s.proc.nextVar - s.base)) (s.proc.var src).ty
    set { s with proc := p }
    return (s.proc.nextVar, src)
  | arg =>
    throw (.malformed (.callArgument (s.proc.showOperand arg) (s.proc.blockName block)))

/-- The copy in front of a call and the call on temporaries, from the live sets around it. -/
def prepareCall (block : BlockId) (dst : Option VarId) (callee : Callee) (args : List Operand)
    (before after : IndexSet) : Action (List Inst) := do
  let copies ← args.mapM (argument block)
  let across := (before.inter after).toList
  modify fun s => { s with carried := s.carried.insertMany across, count := s.count + 1 }
  return [.prepare (copies.map (·.1) ++ across) (copies.map (·.2) ++ across) args.length,
    .call dst callee (copies.map fun copy => .var copy.1)]

/-- Prepare the calls among some instructions, given from the last to the first, in front of code
that is done. -/
def prepareFrom (block : BlockId) (exitReads : List VarId) :
    List Inst → IndexSet → List Inst → Action (List Inst)
  | [], _, done => return done
  | i :: earlier, after, done => do
    let before := i.liveBefore exitReads after
    match i with
    | .call dst callee args =>
      let code ← prepareCall block dst callee args before after
      prepareFrom block exitReads earlier before (code ++ done)
    | i => prepareFrom block exitReads earlier before (i :: done)

def prepareBlock (live : Liveness) (b : BlockId) : Action Unit := do
  let p := (← get).proc
  let insts ← prepareFrom b (p.exitReads b) (p.block b).insts.reverse (live.outOf b) []
  modify fun s => { s with proc := s.proc.setInsts b insts }

end CallPreparation

structure PreparedCalls where
  proc : Procedure
  count : Nat
  /-- Phis placed to restore single-assignment form. -/
  phis : Nat

def Procedure.prepareCalls (p : Procedure) (t : DomTree) (f : Frontiers) :
    Except Error PreparedCalls := do
  let live := Liveness.ofProcedure p
  let start : CallPreparation := ⟨p.nextVar, p, .empty, 0⟩
  let (_, s) ← (p.blockIds.forM (CallPreparation.prepareBlock live)).run start
  let repair (state : Procedure × Nat) (v : VarId) : Procedure × Nat :=
    let (p, placed) := state.1.repairSsa v t f
    (p, state.2 + placed)
  let (p, phis) := s.carried.toList.foldl repair (s.proc, 0)
  return ⟨p, s.count, phis⟩

end ArmBackend
