import ArmBackend.Assembly.Instruction

/-!
Contract: simultaneous register copies as sequences of moves.

A simultaneous copy gives every destination the value that its source held before. Its moves form
trees, which are emitted leaf first, and cycles, each of which is broken by parking one of its
values in a spare register. When no register may be overwritten, the link register is saved on the
stack and borrowed.
-/

namespace ArmBackend

open ArmBackend.Assembly

/-- A simultaneous copy in which every destination has one source. -/
structure Copy where
  /-- Source of each destination that changes. -/
  sources : RegTable (Option Reg)
  touched : RegSet
  pinned : RegSet

namespace Copy

def empty : Copy := ⟨RegTable.fill none, .empty, .empty⟩

def source? (c : Copy) (dst : Reg) : Option Reg := c.sources.lookup dst

/-- Add a move from the first to the second register. A destination with two sources is refused. -/
def add (c : Copy) (move : Reg × Reg) : Except Error Copy :=
  let (src, dst) := move
  let touched := (c.touched.insert src).insert dst
  match decide (src = dst), c.source? dst with
  | true, none => .ok { c with touched := touched, pinned := c.pinned.insert dst }
  | true, some _ => .error (.copyConflict dst)
  | false, some other =>
    if c.pinned.contains dst || other ≠ src then .error (.copyConflict dst)
    else .ok { c with touched := touched }
  | false, none =>
    if c.pinned.contains dst then .error (.copyConflict dst)
    else .ok { c with touched := touched, sources := c.sources.update dst (some src) }

/-- The copy made of moves, each from its first to its second register. -/
def ofMoves (moves : List (Reg × Reg)) : Except Error Copy := moves.foldlM add empty

def destinations (c : Copy) : List Reg := Reg.all.filter fun r => (c.source? r).isSome

def isSource (c : Copy) (r : Reg) : Bool := Reg.all.any fun dst => c.source? dst == some r

structure Progress where
  /-- Where the value that each register held at the start can be found now. -/
  locations : RegTable Reg
  written : RegSet
  /-- Moves so far, latest first. -/
  moves : List (Reg × Reg)
  cycles : Nat

def Progress.start : Progress := ⟨Vector.ofFn id, .empty, [], 0⟩

/-- Progress after one destination was written from where its word is. -/
def Progress.written1 (s : Progress) (src dst : Reg) : Progress :=
  { s with
    locations := s.locations.update src dst
    written := s.written.insert dst
    moves := (dst, s.locations.lookup src) :: s.moves }

/-- Write a destination from wherever its value is. If that leaves its source free to be overwritten
for the first time, and it is a destination too, it is written next. The number bounds the moves. -/
def Progress.writeFrom (c : Copy) : Nat → Reg → Progress → Progress
  | 0, _, s => s
  | bound + 1, dst, s =>
    match c.source? dst with
    | none => s
    | some src =>
      if s.locations.lookup src = src then writeFrom c bound src (s.written1 src dst)
      else s.written1 src dst

/-- Write a destination and what it frees. No chain of writes is longer than the number of
registers. -/
def Progress.write (c : Copy) (s : Progress) (dst : Reg) : Progress := writeFrom c 16 dst s

/-- Progress after the word of a register was parked. -/
def Progress.parked (spare : Reg) (s : Progress) (dst : Reg) : Progress :=
  { s with
    locations := s.locations.update dst spare
    moves := (spare, dst) :: s.moves
    cycles := s.cycles + 1 }

/-- Break the cycle of a destination that could not be written yet: park its value, then write it.
-/
def Progress.breakCycle (c : Copy) (spare : Reg) (s : Progress) (dst : Reg) : Progress :=
  if s.written.contains dst then s else (s.parked spare dst).write c dst

structure Sequence where
  instrs : List Instr
  moves : Nat
  cycles : Nat
  /-- Was the link register saved and borrowed? -/
  borrowedLink : Bool
deriving DecidableEq, Repr

/-- Lowest register that may be overwritten and has no part in the copy. -/
def spare? (c : Copy) (clobberable : RegSet) : Option Reg :=
  (clobberable.diff c.touched).firstFrom? .r0

/-- Progress when all trees are written, from their leaves. -/
def treesWritten (c : Copy) : Progress :=
  (c.destinations.filter (!c.isSource ·)).foldl (Progress.write c) .start

/-- Progress when everything is written. -/
def allWritten (c : Copy) (spare : Reg) : Progress :=
  c.destinations.foldl (Progress.breakCycle c spare) c.treesWritten

/-- Moves as instructions, in order. -/
def emit (moves : List (Reg × Reg)) : List Instr := moves.map fun move => .move move.1 move.2

/-- Trees first, then cycles, both by ascending destination. The link register is saved right before
the first cycle that borrows it. -/
def sequence (c : Copy) (clobberable : RegSet) : Sequence :=
  let trees := c.treesWritten
  let spare := c.spare? clobberable
  let all := c.allWritten (spare.getD .lr)
  let treeMoves := emit trees.moves.reverse
  let cycleMoves := emit (all.moves.reverse.drop trees.moves.length)
  let borrowed := spare.isNone && decide (0 < all.cycles)
  let link := RegSet.ofList [.lr]
  ⟨if borrowed then treeMoves ++ [.push link] ++ cycleMoves ++ [.pop link]
    else treeMoves ++ cycleMoves,
    all.moves.length, all.cycles, borrowed⟩

/-- The instructions of a simultaneous copy made of moves. -/
def sequentialize (moves : List (Reg × Reg)) (clobberable : RegSet) : Except Error Sequence := do
  let c ← ofMoves moves
  return c.sequence clobberable

end Copy

end ArmBackend
