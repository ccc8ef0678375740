import ArmBackend.Compilation

/-!
Contract: a compilation looked at pass by pass.

Every pass is followed by its check, whatever the configuration says, and a failed check does not
end the inspection.
-/

namespace ArmBackend

/-- What a pass left, and whether the check of that pass accepts it. -/
structure Stage where
  pass : Pass
  work : Work
  check : Except Error Unit

structure Inspection where
  name : String
  stages : List Stage
  /-- The work and frame at the end, or why the end was not reached. -/
  outcome : Except Error (Work × Frame)

namespace Inspection

def stagesOf (config : Config) : List Pass → Work → List Stage × Except Error Work
  | [], w => ([], .ok w)
  | pass :: rest, w =>
    match w.run config pass with
    | .error e => ([], .error e)
    | .ok w =>
      let (stages, outcome) := stagesOf config rest w
      (⟨pass, w, Check.afterPass config w.proc pass⟩ :: stages, outcome)

def ofProcedure (config : Config) (p : Procedure) (stats : Statistics) : Inspection :=
  let (stages, outcome) := stagesOf config Pass.order (.start p stats)
  ⟨p.name, stages, do
    let w ← outcome
    return (w, ← Frame.ofProcedure w.proc)⟩

def ofProcedures (config : Config) : List Procedure → Statistics → List Inspection
  | [], _ => []
  | p :: rest, stats =>
    let inspection := ofProcedure config p stats
    match inspection.outcome with
    | .error _ => [inspection]
    | .ok (w, _) => inspection :: ofProcedures config rest w.stats

end Inspection

/-- Inspect all procedures; the assembly of the program is there if all reached their end. -/
def Program.inspect (program : Program) (config : Config) :
    List Inspection × Option (Except Error Assembly.Module) :=
  let inspections := Inspection.ofProcedures config program.procedures .zero
  let ends : Except Error (List (Work × Frame)) := inspections.mapM (·.outcome)
  match ends with
  | .error _ => (inspections, none)
  | .ok ends =>
    let colored : Program := { program with procedures := ends.map (·.1.proc) }
    (inspections, some (colored.emit .zero).1)

end ArmBackend
