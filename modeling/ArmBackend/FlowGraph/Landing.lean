import ArmBackend.FlowGraph.Build

/-!
Contract: no edge leaves a block with two successors for a block with several predecessors.

Values that a phi joins are moved at the end of the predecessor, which such an edge does not allow.
Each one gets a landing block that holds a single jump. The landing block takes the place of the
source among the predecessors of the target, so the arguments of phis keep their positions.
-/

namespace ArmBackend.Procedure

/-- The block on a new edge to `target`. -/
def landingBlock (p : Procedure) (source target : BlockId) : Block :=
  { Block.ofInsts p.nextLabel [.jump (p.block target).label] with
    preds := [source]
    direct := some target }

def pushLanding (p : Procedure) (source target : BlockId) : Procedure :=
  (p.newLabel (FlowGraph.blockLabel p.blocks.size)).pushBlock (p.landingBlock source target)

/-- Put a block on the edge from `source` to `target`. It is numbered `p.blocks.size`; the edge of
the source itself is left to the caller. -/
def addLanding (p : Procedure) (source target : BlockId) : Procedure :=
  match (p.block target).predIndex? source with
  | some slot => (p.pushLanding source target).modifyBlock target fun b =>
    { b with preds := b.preds.set slot p.blocks.size }
  | none => p.pushLanding source target

/-- The block with its taken or its direct edge moved to a landing block. -/
def redirect (label : LabelId) (landing : BlockId) : Bool → Block → Block
  | true, b => { b.retarget label with cond := some landing }
  | false, b => { b with direct := some landing }

/-- Split the taken or the direct edge of a two-way block if its target has several predecessors. -/
def splitExit (p : Procedure) (taken : Bool) (b target : BlockId) : Procedure :=
  if (p.block target).preds.length < 2 then p
  else (p.addLanding b target).modifyBlock b (redirect p.nextLabel p.blocks.size taken)

def splitEdgesOf (p : Procedure) (b : BlockId) : Procedure :=
  match (p.block b).direct, (p.block b).cond with
  | some direct, some cond => (p.splitExit true b cond).splitExit false b direct
  | _, _ => p

/-- Split every critical edge. The second result is the number of edges split. -/
def splitCriticalEdges (p : Procedure) : Except Error (Procedure × Nat) := do
  let split := p.blockIds.foldl splitEdgesOf p
  let count := split.blocks.size - p.blocks.size
  if count = 0 then return (p, 0)
  else return (← split.recomputeOrders, count)

end ArmBackend.Procedure
