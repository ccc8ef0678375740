import ArmBackend.Error
import ArmBackend.Fixpoint
import ArmBackend.Program.Procedure

/-!
Contract: immediate dominators.

A block's dominators are the blocks on every path to it from the entry. The immediate one of a block
is the nearest common ancestor of its predecessors in the tree found so far; rounds over the blocks
in reverse postorder repeat this until the tree is stable. The nearest common ancestor is found by
moving, of two blocks, the one with the smaller postorder position up to its parent until they meet.
-/

namespace ArmBackend

/-- The dominator tree, as the parent of each block. The entry has none. -/
structure DomTree where
  parents : Array (Option BlockId)
deriving DecidableEq, Repr

namespace DomTree

def empty : DomTree := ⟨#[]⟩

instance : Inhabited DomTree := ⟨empty⟩

def idom? (t : DomTree) (b : BlockId) : Option BlockId := t.parents.getD b none

def children (t : DomTree) (b : BlockId) : List BlockId :=
  (List.range t.parents.size).filter fun c => t.idom? c = some b

/-- The blocks from `b` up to the root, at most `steps` of them. -/
def chain (t : DomTree) : Nat → BlockId → List BlockId
  | 0, _ => []
  | steps + 1, b =>
    match t.idom? b with
    | some parent => b :: chain t steps parent
    | none => [b]

def dominators (t : DomTree) (b : BlockId) : List BlockId := t.chain (t.parents.size + 1) b

/-- Does `a` dominate `b`? Every block dominates itself. -/
def dominates (t : DomTree) (a b : BlockId) : Bool := (t.dominators b).contains a

/-- Visit the blocks on a stack and everything below them, parents before children. -/
def visit (t : DomTree) : Nat → List BlockId → List BlockId
  | steps + 1, b :: stack => b :: visit t steps (t.children b ++ stack)
  | _, _ => []

def preorder (t : DomTree) : List BlockId :=
  if t.parents.isEmpty then [] else t.visit t.parents.size [Procedure.entry]

/-! ## Computation -/

/-- Parents found so far; the entry is its own while the search lasts. -/
abbrev Candidates := Array (Option BlockId)

/-- Nearest common ancestor of two blocks among the parents found so far. -/
def meet (p : Procedure) (found : Candidates) : Nat → BlockId → BlockId → BlockId
  | 0, a, _ => a
  | steps + 1, a, b =>
    if a = b then a
    else if (p.block a).postIndex < (p.block b).postIndex then
      meet p found steps ((found.getD a none).getD a) b
    else if (p.block b).postIndex < (p.block a).postIndex then
      meet p found steps a ((found.getD b none).getD b)
    else a

/-- Parent of a block, once one more predecessor is known; one not reached yet has no say. -/
def joinPred (p : Procedure) (found : Candidates) (parent : Option BlockId) (pred : BlockId) :
    Option BlockId :=
  if (found.getD pred none).isNone then parent
  else match parent with
    | none => some pred
    | some current => some (meet p found (p.blocks.size * p.blocks.size + 1) pred current)

/-- Parent of a block as its predecessors place it. -/
def parentOf? (p : Procedure) (found : Candidates) (b : BlockId) : Option BlockId :=
  (p.block b).preds.foldl (joinPred p found) none

/-- What a round does with one block. -/
def process (p : Procedure) (found : Candidates) (b : BlockId) : Candidates :=
  if b = Procedure.entry then found
  else match parentOf? p found b with
    | some parent => found.setIfInBounds b (some parent)
    | none => found

def round (p : Procedure) (found : Candidates) : Candidates := p.rpo.foldl (process p) found

/-- The table that the search starts from: only the entry is known. -/
def start (p : Procedure) : Candidates :=
  (Array.replicate p.blocks.size none).setIfInBounds Procedure.entry (some Procedure.entry)

/-- Parents of all blocks, the entry as its own. -/
def solve (p : Procedure) : Candidates :=
  stabilize (round p) (p.blocks.size * p.blocks.size + 2) (start p)

/-- The dominator tree of a procedure whose orders are current. -/
def ofProcedure (p : Procedure) : Except Error DomTree :=
  let found := solve p
  match p.blockIds.find? fun b => (found.getD b none).isNone with
  | some b => .error (.disconnectedBlock p.name (p.blockName b))
  | none => .ok ⟨found.setIfInBounds Procedure.entry none⟩

end DomTree

end ArmBackend
