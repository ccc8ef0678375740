import ArmBackend.Assembly.Instruction

/-!
Contract: how moves and register lists run on the target.

Owns: the registers and the stack as code without branches sees them, and what moves between
registers, pushes and pops do to them. The stack is the list of words at and above the stack
pointer, the nearest first.
Does not own: branches, comparisons, arithmetic and memory, which have no step here. A move to the
stack pointer or to the program counter has none either.
-/

namespace ArmBackend.Assembly

/-- Words in the registers, and the words on the stack at and above the stack pointer. -/
structure CoreState where
  regs : Reg → Int32
  stack : List Int32

namespace CoreState

/-- Put a word into a register. -/
def set (s : CoreState) (r : Reg) (word : Int32) : CoreState :=
  { s with regs := fun q => if q = r then word else s.regs q }

/-- The word of a flexible operand. -/
def flexible (s : CoreState) : Flexible → Int32
  | .word w => w
  | .reg r => s.regs r

/-- Store registers below the stack pointer, the lowest one at the lowest address. -/
def push (s : CoreState) (regs : RegSet) : CoreState :=
  { s.set .sp (s.regs .sp - 4 * Int32.ofNat regs.size) with
    stack := regs.toList.map s.regs ++ s.stack }

/-- Load registers from the stack pointer up, the lowest one from the lowest address. -/
def pop (s : CoreState) (regs : RegSet) : Option CoreState :=
  if s.stack.length < regs.size then none
  else
    let loaded := (regs.toList.zip s.stack).foldl (fun s entry => s.set entry.1 entry.2) s
    some { loaded.set .sp (s.regs .sp + 4 * Int32.ofNat regs.size) with
      stack := s.stack.drop regs.size }

end CoreState

/-- The state after one instruction. -/
def Instr.run (s : CoreState) : Instr → Option CoreState
  | .mov .always dst src =>
    if dst = .sp ∨ dst = .pc then none else some (s.set dst (s.flexible src))
  | .push regs => some (s.push regs)
  | .pop regs => s.pop regs
  | _ => none

/-- The state after instructions in order. -/
def runAll (instrs : List Instr) (s : CoreState) : Option CoreState := instrs.foldlM Instr.run s

theorem runAll_append (first second : List Instr) (s : CoreState) :
    runAll (first ++ second) s = (runAll first s).bind (runAll second) :=
  List.foldlM_append

theorem runAll_singleton (instr : Instr) (s : CoreState) : runAll [instr] s = Instr.run s instr :=
  Option.bind_fun_some (Instr.run s instr)

/-- The link register alone is pushed right below the stack pointer. -/
theorem run_push_link (s : CoreState) : Instr.run s (.push (.ofList [.lr])) =
      some { s.set .sp (s.regs .sp - 4) with stack := s.regs .lr :: s.stack } := by
  rfl

/-- The link register alone is popped from the stack pointer. -/
theorem run_pop_link (s : CoreState) (word : Int32) (rest : List Int32)
    (top : s.stack = word :: rest) :
    Instr.run s (.pop (.ofList [.lr])) =
      some { (s.set .lr word).set .sp (s.regs .sp + 4) with stack := rest } := by
  have one : (RegSet.ofList [.lr]).toList = [.lr] := by decide
  have size : (RegSet.ofList [.lr]).size = 1 := by decide
  rw [Instr.run, CoreState.pop, size, one, top, if_neg (by simp)]
  rfl

end ArmBackend.Assembly
