import ArmBackend.Dominance.Frontier

/-!
Contract: where phis are needed.

A variable needs phis when some block reads it before writing it. It then gets one phi in every
block of the iterated frontier of the blocks that write it. The arguments stay absent until
renaming.
-/

namespace ArmBackend

/-- Blocks whose frontiers are still to be visited, blocks that were ever among them, and blocks
with a phi, the last one first. -/
structure Spread where
  pending : List BlockId
  queued : IndexSet
  phis : List BlockId

def Spread.visit (s : Spread) (y : BlockId) : Spread :=
  if s.phis.contains y then s
  else if s.queued.contains y then { s with phis := y :: s.phis }
  else ⟨y :: s.pending, s.queued.insert y, y :: s.phis⟩

namespace Frontiers

def spread (f : Frontiers) : Nat → Spread → Spread
  | steps + 1, ⟨b :: pending, queued, phis⟩ =>
    f.spread steps ((f.frontier b).foldl Spread.visit ⟨pending, queued, phis⟩)
  | _, s => s

/-- The blocks that get a phi for a variable, in order. Each block is pending at most once. -/
def phiBlocks (f : Frontiers) (writers : List BlockId) : List BlockId :=
  (f.spread (writers.length + f.sets.size) ⟨writers, .ofList writers, []⟩).phis.reverse

end Frontiers

namespace Procedure

def exposedReads (insts : List Inst) : IndexSet :=
  let step (state : IndexSet × IndexSet) (i : Inst) : IndexSet × IndexSet :=
    let (exposed, written) := state
    let reads := i.uses.filter (!written.contains ·)
    (exposed.insertMany reads, written.insertMany i.defs)
  (insts.foldl step (.empty, .empty)).1

def blockCrossing (p : Procedure) : IndexSet :=
  p.blocks.foldl (fun found b => found.union (exposedReads b.insts)) .empty

def writersOf (p : Procedure) (v : VarId) : List BlockId :=
  p.blockIds.filter fun b => (p.block b).insts.any (·.defs.contains v)

def insertPhi (p : Procedure) (v : VarId) (b : BlockId) : Procedure :=
  p.modifyBlock b fun block =>
    block.insertInst 0 (.phi ⟨v, v, block.preds.map fun _ => none, false⟩)

/-- Place the phis of one variable. The second result counts all phis placed so far. -/
def placePhisOf (f : Frontiers) (state : Procedure × Nat) (v : VarId) : Procedure × Nat :=
  let (p, placed) := state
  let blocks := f.phiBlocks (p.writersOf v)
  (blocks.foldl (fun p b => p.insertPhi v b) p, placed + blocks.length)

/-- Place the phis of all variables that need them, arguments before locals. The second result is
the number of phis placed. -/
def placePhis (p : Procedure) (f : Frontiers) : Procedure × Nat :=
  let crossing := p.blockCrossing
  ((p.args ++ p.locals).filter crossing.contains).foldl (placePhisOf f) (p, 0)

end Procedure

end ArmBackend
