import ArmBackend.IndexSet
import ArmBackend.Program.Id

/-!
Contract: the depth-first walk of a graph, with the orders in which it enters and leaves nodes.

A node has places for successors, tried in order; a place may be empty. The walk keeps an explicit
stack of the nodes it is inside of, each with the place it looks at next. It takes one step for each
node left and one for each place looked at, which bounds its length by the size of the graph.
-/

namespace ArmBackend

structure Walk where
  preorder : List BlockId
  postorder : List BlockId
deriving DecidableEq, Repr

namespace Walk

/-- The successor in a place, unless it was seen. -/
def unseen? (seen : IndexSet) (place : Option BlockId) : Option BlockId :=
  place.filter (!seen.contains ·)

/-- Go on with a walk. `entered` and `left` hold the orders so far, latest first. -/
def resume (succs : BlockId → List (Option BlockId)) :
    Nat → IndexSet → List (BlockId × Nat) → List BlockId → List BlockId → Walk
  | steps + 1, seen, (b, next) :: stack, entered, left =>
    match (succs b)[next]? with
    | none => resume succs steps seen stack entered (b :: left)
    | some place =>
      match unseen? seen place with
      | none => resume succs steps seen ((b, next + 1) :: stack) entered left
      | some s =>
        resume succs steps (seen.insert s) ((s, 0) :: (b, next + 1) :: stack) (s :: entered) left
  | _, _, _, entered, left => ⟨entered.reverse, left.reverse⟩

/-- Steps of a walk inside some nodes: one for each place, and one to leave each node. -/
def cost (succs : BlockId → List (Option BlockId)) (nodes : List BlockId) : Nat :=
  (nodes.flatMap fun b => none :: succs b).length

/-- Walk a graph of `count` nodes from `start`, trying the successors of a node in order. -/
def ofGraph (count : Nat) (start : BlockId) (succs : BlockId → List (Option BlockId)) : Walk :=
  if count = 0 then ⟨[], []⟩
  else resume succs (cost succs (.range count)) (IndexSet.empty.insert start) [(start, 0)]
    [start] []

end Walk

end ArmBackend
