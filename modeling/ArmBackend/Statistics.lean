/-!
Contract: counts of the work a compilation did, and the report on them.
-/

namespace ArmBackend

structure Statistics where
  procedures : Nat
  phis : Nat
  edgesSplit : Nat
  spills : Nat
  reloads : Nat
  preparations : Nat
  copies : Nat
  cyclesBroken : Nat
  linkBorrows : Nat
  instructions : Nat
  /-- Instructions emitted of each mnemonic, sorted by mnemonic. -/
  mnemonics : List (String × Nat)
  largestSize : Nat
  largestName : String
deriving DecidableEq, Repr

namespace Statistics

def zero : Statistics := ⟨0, 0, 0, 0, 0, 0, 0, 0, 0, 0, [], 0, ""⟩

instance : Inhabited Statistics := ⟨zero⟩

/-- A procedure went through all passes. Of procedures of the same size the first counts as the
largest. -/
def recordProcedure (s : Statistics) (name : String) (size : Nat) : Statistics :=
  let s := { s with procedures := s.procedures + 1 }
  if s.largestSize < size then { s with largestSize := size, largestName := name } else s

def recordPhis (s : Statistics) (count : Nat) : Statistics := { s with phis := s.phis + count }

def recordEdgesSplit (s : Statistics) (count : Nat) : Statistics :=
  { s with edgesSplit := s.edgesSplit + count }

def recordSpills (s : Statistics) (count : Nat) : Statistics :=
  { s with spills := s.spills + count }

def recordReloads (s : Statistics) (count : Nat) : Statistics :=
  { s with reloads := s.reloads + count }

def recordPreparations (s : Statistics) (count : Nat) : Statistics :=
  { s with preparations := s.preparations + count }

def recordCopy (s : Statistics) (cycles : Nat) (borrowedLink : Bool) : Statistics :=
  { s with
    copies := s.copies + 1
    cyclesBroken := s.cyclesBroken + cycles
    linkBorrows := s.linkBorrows + if borrowedLink then 1 else 0 }

def raise (key : String) : List (String × Nat) → List (String × Nat)
  | [] => [(key, 1)]
  | entry :: rest =>
    if key = entry.1 then (key, entry.2 + 1) :: rest
    else if key < entry.1 then (key, 1) :: entry :: rest
    else entry :: raise key rest

def recordInstruction (s : Statistics) (mnemonic : String) : Statistics :=
  { s with
    instructions := s.instructions + 1
    mnemonics := raise mnemonic s.mnemonics }

/-- The ten most frequent mnemonics, the more frequent first, equal counts by name. -/
def leaders (s : Statistics) : List (String × Nat) :=
  (s.mnemonics.mergeSort fun a b => b.2 < a.2 || (a.2 == b.2 && a.1 ≤ b.1)).take 10

def report (s : Statistics) : String :=
  let count (what : String) (n : Nat) : String := "  " ++ what ++ ": " ++ toString n ++ "\n"
  "Compilation Session Statistics:\n" ++
    count "Procedures compiled" s.procedures ++
    count "Phis placed" s.phis ++
    count "Critical edges split" s.edgesSplit ++
    count "Spills inserted" s.spills ++
    count "Reloads inserted" s.reloads ++
    count "Call-preps inserted" s.preparations ++
    "  Parallel copies: " ++ toString s.copies ++ " (" ++ toString s.cyclesBroken ++
      " cycles broken, " ++ toString s.linkBorrows ++ " lr borrows)\n" ++
    count "Instructions emitted" s.instructions ++
    (if s.largestName.isEmpty then ""
      else "  Largest procedure: " ++ s.largestName ++ " (" ++ toString s.largestSize ++
        " IR instructions)\n") ++
    (if s.mnemonics.isEmpty then ""
      else "  Instruction breakdown:\n" ++
        String.join (s.leaders.map fun m => "    " ++ m.1 ++ ": " ++ toString m.2 ++ "\n"))

end Statistics

end ArmBackend
