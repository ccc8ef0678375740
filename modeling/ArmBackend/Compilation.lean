import ArmBackend.CallSite
import ArmBackend.Check
import ArmBackend.Coloring
import ArmBackend.Emission.Layout
import ArmBackend.FlowGraph.Landing
import ArmBackend.Spill.Plan
import ArmBackend.Ssa.Renaming
import ArmBackend.TargetForm
import ArmBackend.Web

/-!
Contract: the passes put together: from a program as read to its assembly.

Each procedure goes through all passes by itself; emission then covers the whole program, so that
procedures share string literals and label numbers.
-/

namespace ArmBackend

/-- A procedure on its way through the passes, with what was found out about it. -/
structure Work where
  proc : Procedure
  tree : DomTree
  frontiers : Frontiers
  live : Liveness
  stats : Statistics
  /-- How many things the last pass added: landing blocks, temporaries, webs or copies. -/
  added : Nat

namespace Work

def start (p : Procedure) (stats : Statistics) : Work := ⟨p, default, default, default, stats, 0⟩

def buildFlowGraph (w : Work) : Except Error Work := do
  return { w with proc := ← w.proc.buildFlowGraph }

def findDominance (w : Work) : Except Error Work := do
  let tree ← DomTree.ofProcedure w.proc
  return { w with tree := tree, frontiers := Frontiers.ofTree w.proc tree }

def constructSsa (w : Work) : Work :=
  let (p, phis) := w.proc.constructSsa w.tree w.frontiers
  { w with proc := p, stats := w.stats.recordPhis phis }

/-- Split critical edges; dominance is not found again. -/
def splitEdges (w : Work) : Except Error Work := do
  let (p, count) ← w.proc.splitCriticalEdges
  return { w with proc := p, stats := w.stats.recordEdgesSplit count, added := count }

def lower (w : Work) : Work :=
  let (p, temporaries) := w.proc.lower
  { w with proc := p, added := temporaries }

def buildWebs (w : Work) : Work :=
  let p := w.proc.buildWebs
  { w with proc := p, added := p.webs.size }

def spill (w : Work) (config : Config) : Except Error Work := do
  let spilled ← w.proc.spill w.tree w.frontiers config
  let stats := (w.stats.recordSpills spilled.spills).recordReloads spilled.reloads
  return { w with proc := spilled.proc, stats := stats.recordPhis spilled.phis }

def prepareCalls (w : Work) : Except Error Work := do
  let prepared ← w.proc.prepareCalls w.tree w.frontiers
  let stats := (w.stats.recordPreparations prepared.count).recordPhis prepared.phis
  return { w with proc := prepared.proc, stats := stats, added := prepared.count }

def findLiveness (w : Work) : Work := { w with live := .ofProcedure w.proc }

def color (w : Work) (config : Config) : Except Error Work := do
  return { w with proc := ← w.proc.color w.tree w.live config }

def run (config : Config) (w : Work) : Pass → Except Error Work
  | .flowGraph => w.buildFlowGraph
  | .dominance => w.findDominance
  | .ssa => .ok w.constructSsa
  | .edgeSplitting => do
    let w ← w.splitEdges
    if w.added = 0 then return w else w.findDominance
  | .targetForm => .ok w.lower
  | .webs => .ok w.buildWebs
  | .spilling => w.spill config
  | .callSites => w.prepareCalls
  | .liveness => .ok w.findLiveness
  | .coloring => w.color config

/-- Run one pass and, if the configuration asks for it, check what it left. -/
def step (config : Config) (w : Work) (pass : Pass) : Except Error Work := do
  let w ← w.run config pass
  if config.verify then Check.afterPass config w.proc pass
  return w

def finish (config : Config) (w : Work) : Except Error Work := do
  let w ← Pass.order.foldlM (step config) w
  return { w with stats := w.stats.recordProcedure w.proc.name w.proc.instCount }

/-- What is shown of a procedure after a pass; after the first one also the flow graph. -/
def dumpText (w : Work) (pass : Pass) : String :=
  "; " ++ w.proc.name ++ " after " ++ pass.name ++ "\n" ++ w.proc.listing ++ "\n" ++
    if pass = .flowGraph then w.proc.drawGraph ++ "\n" else ""

/-- What the configuration wants shown, if the procedure gets that far. It is shown before the pass
is checked. -/
def dump? (config : Config) (w : Work) : Option String := do
  let pass ← config.dumpAfter
  let before ← ((Pass.order.takeWhile (· != pass)).foldlM (step config) w).toOption
  let after ← (before.run config pass).toOption
  return after.dumpText pass

end Work

structure Failure where
  error : Error
  procedure : Option String

def compileProcedures (config : Config) :
    List Procedure → Statistics → Except Failure (List Procedure × Statistics)
  | [], stats => .ok ([], stats)
  | p :: rest, stats =>
    match (Work.start p stats).finish config with
    | .error e => .error ⟨e, some p.name⟩
    | .ok w => do
      let (done, stats) ← compileProcedures config rest w.stats
      return (w.proc :: done, stats)

namespace Program

def allocate (program : Program) (config : Config) : Except Failure (Program × Statistics) := do
  let (procedures, stats) ← compileProcedures config program.procedures .zero
  return ({ program with procedures := procedures }, stats)

/-- The assembly of a program, with counts of the work done. -/
def compile (program : Program) (config : Config) :
    Except Failure (Assembly.Module × Statistics) :=
  match config.validate with
  | .error e => .error ⟨e, none⟩
  | .ok () => do
    let (colored, stats) ← program.allocate config
    match colored.emit stats with
    | (.error e, _) => .error ⟨e, none⟩
    | (.ok asm, stats) => return (asm, stats)

def dumpsOf (config : Config) : List Procedure → List String
  | [] => []
  | p :: rest =>
    let w := Work.start p .zero
    (w.dump? config).toList ++ if (w.finish config).isOk then dumpsOf config rest else []

def dumps (program : Program) (config : Config) : List String :=
  if config.dumpAfter.isSome && config.validate.isOk then dumpsOf config program.procedures
  else []

end Program

end ArmBackend
