import ArmBackend.Fixpoint
import ArmBackend.IndexSet
import ArmBackend.Program.Procedure

/-!
Contract: which variables are live where.

A variable is live at a point when some path from there reads it before defining it. The arguments
that register phis take from a block are read by the terminator of that block, not by the phi; phis
in memory read nothing. Live sets are the result of repeated backward rounds over the postorder.
-/

namespace ArmBackend

namespace Procedure

/-- Variables that register phis of successors take from a block, in order of successor, slot and
phi, each once. -/
def exitReads (p : Procedure) (b : BlockId) : List VarId :=
  let slotReads (s : Block) (slot : Nat) : List VarId :=
    s.phis.filterMap fun phi => if phi.inMemory then none else (phi.args[slot]?).join
  let edgeReads (s : Block) : List VarId :=
    s.preds.zipIdx.flatMap fun pred => if pred.1 = b then slotReads s pred.2 else []
  ((p.block b).succs.flatMap fun s => edgeReads (p.block s)).eraseDups

end Procedure

/-- Variables an instruction reads, each once; a terminator also reads `exitReads`. -/
def Inst.reads (i : Inst) (exitReads : List VarId) : List VarId :=
  (i.uses ++ if i.isTerminator then exitReads else []).eraseDups

/-- Live set before an instruction, from the one after it. -/
def Inst.liveBefore (i : Inst) (exitReads : List VarId) (after : IndexSet) : IndexSet :=
  (i.defs.foldl IndexSet.erase after).insertMany (i.reads exitReads)

/-- Live set before each of some instructions, in order, from the one after the last. -/
def livePoints (exitReads : List VarId) (after : IndexSet) : List Inst → List IndexSet
  | [] => []
  | i :: rest =>
    let points := livePoints exitReads after rest
    i.liveBefore exitReads (points.headD after) :: points

/-- Live sets of the blocks of a procedure, with what each instruction reads. -/
structure Liveness where
  liveIn : Array IndexSet
  liveOut : Array IndexSet
  reads : Array (List (List VarId))
deriving DecidableEq

namespace Liveness

def empty : Liveness := ⟨#[], #[], #[]⟩

instance : Inhabited Liveness := ⟨empty⟩

abbrev Sets := Array IndexSet × Array IndexSet

/-- The set at the end of a block, with what is live at the starts of its successors. -/
def atExit (p : Procedure) (sets : Sets) (b : BlockId) : IndexSet :=
  let join (live : IndexSet) (s : BlockId) : IndexSet := live.union (sets.1.getD s .empty)
  ((p.block b).succs.foldl join (sets.2.getD b .empty)).insertMany (p.exitReads b)

/-- Add to the set at the end of a block, and compute the one at its start from it. -/
def updateBlock (p : Procedure) (sets : Sets) (b : BlockId) : Sets :=
  let out := atExit p sets b
  let start := (p.block b).insts.foldr (fun i live => i.liveBefore (p.exitReads b) live) out
  (sets.1.setIfInBounds b start, sets.2.setIfInBounds b out)

/-- One round over all blocks, successors before predecessors where there is no loop. -/
def round (p : Procedure) (sets : Sets) : Sets := p.postorder.foldl (updateBlock p) sets

def ofProcedure (p : Procedure) : Liveness :=
  let none := Array.replicate p.blocks.size IndexSet.empty
  let (liveIn, liveOut) :=
    stabilize (round p) (2 * p.blocks.size * p.vars.size + 2) (none, none)
  let reads (b : BlockId) : List (List VarId) :=
    let exitReads := p.exitReads b
    (p.block b).insts.map (·.reads exitReads)
  ⟨liveIn, liveOut, (p.blockIds.map reads).toArray⟩

def inOf (l : Liveness) (b : BlockId) : IndexSet := l.liveIn.getD b .empty

def outOf (l : Liveness) (b : BlockId) : IndexSet := l.liveOut.getD b .empty

def lastUse? (l : Liveness) (b : BlockId) (v : VarId) : Option Nat :=
  (((l.reads.getD b []).zipIdx.filter (·.1.contains v)).getLast?).map (·.2)

def diesAt (l : Liveness) (b : BlockId) (v : VarId) (index : Nat) : Bool :=
  !(l.outOf b).contains v && l.lastUse? b v == some index

/-- Is a variable defined in the block never read? -/
def isDeadDef (l : Liveness) (b : BlockId) (v : VarId) : Bool :=
  !(l.outOf b).contains v && (l.lastUse? b v).isNone

def lastUses (l : Liveness) (b : BlockId) : List (VarId × Nat) :=
  (IndexSet.ofList (l.reads.getD b []).flatten).toList.filterMap fun v =>
    (l.lastUse? b v).map (v, ·)

/-- Positions of a block with the live sets before them, from the last to the first. -/
def beforeEach (l : Liveness) (p : Procedure) (b : BlockId) : List (Nat × IndexSet) :=
  let points := livePoints (p.exitReads b) (l.outOf b) (p.block b).insts
  (points.zipIdx.map fun point => (point.2, point.1)).reverse

end Liveness

end ArmBackend
