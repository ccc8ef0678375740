import ArmBackend.Program.Procedure

/-!
Contract: webs, the classes of variables that phis connect.

All variables of a web can share one stack slot. The classes are found by joining the class of each
leading phi with the classes of its present arguments; webs are then numbered in the order in which
arguments and locals first meet them.
-/

namespace ArmBackend

/-- Classes of variables as trees. Each variable points to its parent, and the root of a tree, which
represents its class, to itself. Ranks grow on the way up. -/
structure DisjointSets where
  parents : Array VarId
  ranks : Array Nat

namespace DisjointSets

def new (count : Nat) : DisjointSets := ⟨Array.range count, Array.replicate count 0⟩

def parent (c : DisjointSets) (v : VarId) : VarId := c.parents.getD v v

def rank (c : DisjointSets) (v : VarId) : Nat := c.ranks.getD v 0

/-- The root above a variable and the variables passed on the way, in at most so many steps. -/
def climb (c : DisjointSets) : Nat → VarId → VarId × List VarId
  | 0, v => (v, [])
  | bound + 1, v =>
    if c.parent v = v then (v, [])
    else
      let (root, path) := c.climb bound (c.parent v)
      (root, v :: path)

def attach (c : DisjointSets) (root child : VarId) : DisjointSets :=
  { c with parents := c.parents.setIfInBounds child root }

/-- Search the root above a variable and make it the parent of all variables on the way, which has
no more steps than the highest rank. -/
def find (c : DisjointSets) (v : VarId) : DisjointSets × VarId :=
  let (root, path) := c.climb (c.ranks.foldl max 0) v
  (path.foldl (attach · root) c, root)

def raise (c : DisjointSets) (root : VarId) : DisjointSets :=
  { c with ranks := c.ranks.setIfInBounds root (c.rank root + 1) }

/-- Put the root of lower rank below the other. Of two of one rank the second stays a root. -/
def link (c : DisjointSets) (a b : VarId) : DisjointSets :=
  if a = b then c
  else if c.rank b < c.rank a then c.attach a b
  else if c.rank a = c.rank b then (c.attach b a).raise b
  else c.attach b a

def union (c : DisjointSets) (a b : VarId) : DisjointSets :=
  let (c, a) := c.find a
  let (c, b) := c.find b
  c.link a b

end DisjointSets

namespace Procedure

/-- Each phi with each of its present arguments. -/
def phiPairs (p : Procedure) : List (VarId × VarId) :=
  (p.blocks.toList.flatMap Block.phis).flatMap fun phi => (phi.args.filterMap id).map (phi.dst, ·)

def phiClasses (p : Procedure) : DisjointSets :=
  p.phiPairs.foldl (fun c pair => c.union pair.1 pair.2) (.new p.vars.size)

/-- Put a variable into the web of its class, a new one if the class has none yet. `numbered` holds
the web of each root. -/
def assignWeb (state : Procedure × DisjointSets × Array (Option WebId)) (v : VarId) :
    Procedure × DisjointSets × Array (Option WebId) :=
  let (p, sets, numbered) := state
  let (sets, root) := sets.find v
  match numbered.getD root none with
  | some w => (p.setWeb v (some w), sets, numbered)
  | none =>
    let w := p.webs.size
    (p.newWeb.setWeb v (some w), sets, numbered.setIfInBounds root (some w))

/-- Group all arguments and locals into webs, replacing the webs there were. -/
def buildWebs (p : Procedure) : Procedure :=
  let start := ({ p with webs := #[] }, p.phiClasses, Array.replicate p.vars.size none)
  ((p.args ++ p.locals).foldl assignWeb start).1

end Procedure

end ArmBackend
