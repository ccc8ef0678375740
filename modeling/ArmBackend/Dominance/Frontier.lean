import ArmBackend.Dominance.Tree
import ArmBackend.IndexSet

/-!
Contract: dominance frontiers and their closure.

A block `y` is in the frontier of `x` when `x` dominates a predecessor of `y` and does not strictly
dominate `y`: the dominance of `x` ends at `y`. Such blocks are found from the join points, the
blocks with several predecessors, by climbing from each predecessor to the join point's parent.
-/

namespace ArmBackend

structure Frontiers where
  sets : Array (List BlockId)
deriving DecidableEq, Repr

namespace Frontiers

def empty : Frontiers := ⟨#[]⟩

instance : Inhabited Frontiers := ⟨empty⟩

def frontier (f : Frontiers) (b : BlockId) : List BlockId := f.sets.getD b []

/-- Is `member` in an ascending table, from position `low` up to position `high`? The range is
halved until its middle is `member` or nothing is left of it. -/
def search (table : Array BlockId) (member : BlockId) (low high : Nat) : Bool :=
  if low < high then
    let middle := low + (high - low) / 2
    let found := table.getD middle default
    if found < member then search table member (middle + 1) high
    else if member < found then search table member low middle
    else true
  else false
termination_by high - low

def contains (f : Frontiers) (b member : BlockId) : Bool :=
  let table := (f.frontier b).toArray
  search table member 0 table.size

/-- Blocks whose frontier holds the join point `y`. -/
def climbers (p : Procedure) (t : DomTree) (y : BlockId) : IndexSet :=
  let top := t.idom? y
  IndexSet.ofList ((p.block y).preds.flatMap fun pred =>
    (t.dominators pred).takeWhile fun b => some b ≠ top)

def ofTree (p : Procedure) (t : DomTree) : Frontiers :=
  let joins := p.blockIds.filter fun y => 2 ≤ (p.block y).preds.length
  let climbers := joins.map fun y => (y, climbers p t y)
  ⟨(p.blockIds.map fun x => (climbers.filter (·.2.contains x)).map (·.1)).toArray⟩

/-- Take frontiers of the pending blocks, and of what they bring in, until nothing is new. -/
def closeFrom (f : Frontiers) : Nat → List BlockId → IndexSet → IndexSet
  | steps + 1, b :: pending, found =>
    let new := (f.frontier b).filter (!found.contains ·)
    closeFrom f steps (new ++ pending) (found.insertMany new)
  | _, _, found => found

/-- The iterated frontier of some blocks: the least set that holds their frontiers and the frontiers
of its own members. -/
def iterated (f : Frontiers) (blocks : List BlockId) : IndexSet :=
  f.closeFrom (blocks.length + f.sets.size + 1) blocks .empty

end Frontiers

end ArmBackend
