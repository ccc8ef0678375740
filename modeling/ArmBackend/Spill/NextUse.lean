import ArmBackend.Liveness

/-!
Contract: how far away the next read of each variable is.

Distances count instructions. The distance at the end of a block is the least one at the starts of
its successors; the distance at the start follows from the first instruction that touches the
variable, or else from the end and the length of the block.
-/

namespace ArmBackend

/-- Distance to the next read of each variable, absent when there is none. -/
abbrev Distances := Array (Option Nat)

namespace Distances

def none (vars : Nat) : Distances := Array.replicate vars Option.none

def of (d : Distances) (v : VarId) : Option Nat := d.getD v Option.none

def shift (d : Distances) (steps : Nat) : Distances := d.map (·.map (· + steps))

def set (d : Distances) (v : VarId) (distance : Option Nat) : Distances :=
  d.setIfInBounds v distance

def setAll (d : Distances) (vars : List VarId) (distance : Option Nat) : Distances :=
  vars.foldl (·.set · distance) d

def nearer : Option Nat → Option Nat → Option Nat
  | some a, some b => some (min a b)
  | some a, Option.none => some a
  | Option.none, b => b

def meet (a b : Distances) : Distances := a.zipWith nearer b

/-- Distances at the first of some instructions, from those after the last, to the first read of
each variable, whether or not it is defined in between. -/
def ahead (after : Distances) (exitReads : List VarId) (insts : List Inst) : Distances :=
  let mark (i : Inst × Nat) (d : Distances) := d.setAll (i.1.reads exitReads) (some i.2)
  insts.zipIdx.foldr mark (after.shift insts.length)

/-- One instruction, at its position, seen from the start. -/
def mark (exitReads : List VarId) (i : Inst × Nat) (d : Distances) : Distances :=
  (d.setAll i.1.defs Option.none).setAll (i.1.reads exitReads) (some i.2)

/-- Distances at the first of some instructions, from those after the last, to reads with no
definition in between. -/
def through (after : Distances) (exitReads : List VarId) (insts : List Inst) : Distances :=
  insts.zipIdx.foldr (mark exitReads) (after.shift insts.length)

/-- Is the first variable read no later than the second? One that is never read again comes last. -/
def noLater (d : Distances) (a b : VarId) : Bool :=
  match d.of a, d.of b with
  | some x, some y => x ≤ y
  | some _, Option.none => true
  | Option.none, some _ => false
  | Option.none, Option.none => true

def sortByDistance (d : Distances) (vars : List VarId) : List VarId := vars.mergeSort d.noLater

end Distances

structure NextUse where
  starts : Array Distances
  ends : Array Distances
deriving DecidableEq

namespace NextUse

def startOf (n : NextUse) (b : BlockId) : Distances := n.starts.getD b #[]

def endOf (n : NextUse) (b : BlockId) : Distances := n.ends.getD b #[]

/-- Lower the distances at the end of a block, and compute those at its start from them. -/
def updateBlock (p : Procedure) (n : NextUse) (b : BlockId) : NextUse :=
  let block := p.block b
  let out := block.succs.foldl (fun d s => d.meet (n.startOf s)) (n.endOf b)
  let start := out.through (p.exitReads b) block.insts
  ⟨n.starts.setIfInBounds b start, n.ends.setIfInBounds b out⟩

def round (p : Procedure) (n : NextUse) : NextUse := p.postorder.foldl (updateBlock p) n

/-- Distances only ever fall, and none is above the number of instructions. -/
def ofProcedure (p : Procedure) : NextUse :=
  let none := Array.replicate p.blocks.size (Distances.none p.vars.size)
  stabilize (round p) (2 * p.blocks.size * p.vars.size * (p.instCount + 2) + 2) ⟨none, none⟩

end NextUse

end ArmBackend
