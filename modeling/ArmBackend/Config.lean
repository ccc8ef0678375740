import ArmBackend.Error

/-!
Contract: what a compilation can be told: register counts, checking, dumps after a pass.

The two analyses, dominance and liveness, stand in the order of passes like any other; only the
passes that change the procedure can be asked for on the command line.
-/

namespace ArmBackend

inductive Pass where
  | flowGraph
  | dominance
  | ssa
  | edgeSplitting
  | targetForm
  | webs
  | spilling
  | callSites
  | liveness
  | coloring
deriving DecidableEq, Repr

namespace Pass

def order : List Pass :=
  [.flowGraph, .dominance, .ssa, .edgeSplitting, .targetForm, .webs, .spilling, .callSites,
    .liveness, .coloring]

def name : Pass → String
  | .flowGraph => "cfg"
  | .dominance => "dom"
  | .ssa => "ssa"
  | .edgeSplitting => "crit-edge"
  | .targetForm => "lower"
  | .webs => "phi-web"
  | .spilling => "spill"
  | .callSites => "call-target"
  | .liveness => "liveness"
  | .coloring => "color"

def transforms (pass : Pass) : Bool := pass != .dominance && pass != .liveness

def ofName? (name : String) : Option Pass :=
  order.find? fun pass => pass.transforms && pass.name == name

end Pass

/-- Registers that values can occupy: `r0` to `r12`. -/
def mostRegisters : Nat := 13

structure Config where
  registers : Nat
  /-- Registers that carry the leading call arguments, from `r0` up. -/
  argRegisters : Nat
  verify : Bool
  dumpAfter : Option Pass
deriving DecidableEq, Repr

namespace Config

def standard : Config := ⟨mostRegisters, 4, false, none⟩

instance : Inhabited Config := ⟨standard⟩

/-- Fewest registers that leave a call room for its register arguments and as many carried values.
-/
def leastRegisters (config : Config) : Nat := 2 * config.argRegisters

/-- Registers left for values that live across a call. -/
def callBudget (config : Config) : Nat := config.registers - config.argRegisters

/-- Accept the configurations that the calling convention and the register file can serve. -/
def validate (config : Config) : Except Error Unit :=
  if config.argRegisters ≠ 4 then
    .error (.invalidConfig (.argRegisters config.argRegisters))
  else if mostRegisters < config.registers ∨ config.registers < config.leastRegisters then
    .error (.invalidConfig (.registers config.leastRegisters mostRegisters config.registers))
  else .ok ()

end Config

end ArmBackend
