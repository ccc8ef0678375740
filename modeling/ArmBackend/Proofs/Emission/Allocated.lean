import ArmBackend.Proofs.Descent.Bounds
import ArmBackend.Proofs.Descent.Run
import ArmBackend.Proofs.Emission.Success

/-!
Contract: passes that were checked leave procedures that can be emitted.

Owns: the colouring of procedures whose passes were checked, and success of emission after them.
Does not own: that the passes succeed.
-/

namespace ArmBackend

open Procedure

variable {config : Config} {p : Procedure} {stats : Statistics} {w : Work}

/-- The last passes, run on a procedure with webs and checked, colour it and use declared
variables. -/
theorem Work.colored_steps (linear : p.Linear) (checks : config.verify = true)
    (ok : Pass.order.foldlM (Work.step config) (Work.start p stats) = .ok w) :
    w.proc.Colored ∧ w.proc.Bounded := by
  have order : Pass.order = Pass.order.take 6 ++
      [.spilling, .callSites, .liveness, .coloring] := rfl
  rw [order, List.foldlM_append] at ok
  obtain ⟨w₁, webs, ok⟩ := bind_eq_ok ok
  obtain ⟨w₂, spills, ok⟩ := bind_eq_ok ok
  obtain ⟨w₃, prepares, ok⟩ := bind_eq_ok ok
  obtain ⟨w₄, lives, ok⟩ := bind_eq_ok ok
  obtain ⟨w₅, colors, rfl⟩ := bind_pure_eq_ok ok
  obtain ⟨after, kept⟩ := kept_take linear (k := 5) rfl (run_of_steps webs)
  have spilled := (run_of_step spills).1
  obtain ⟨prepared, checked⟩ := run_of_step prepares
  obtain ⟨bounded, dominated⟩ := bounded_spilling after spilled
  have after := after_spilling after spilled
  obtain ⟨bounded, dominated⟩ := bounded_callSites after dominated bounded prepared
  have after := after_callSites after prepared
  have kept := kept_callSites (kept_spilling kept spilled) prepared
  obtain ⟨_, single, -⟩ := bind_eq_ok (checked checks)
  obtain rfl := Except.ok.inj (run_of_step lives).1
  obtain ⟨ran, checked⟩ := run_of_step colors
  obtain ⟨q, colored, rfl⟩ := bind_pure_eq_ok ran
  exact ⟨Coloring.colored_color after.1 dominated.tree bounded
    (Check.singleAssignment_of_check single) kept.2.1
    colored (checked checks), (sameButRegs_color colored).bounded bounded⟩

private theorem emittable_finish {program : Program} (linear : p.Linear)
    (checks : config.verify = true)
    (declares : ∀ graph, p.buildFlowGraph = .ok graph → program.DeclaresFields graph)
    (ok : (Work.start p stats).finish config = .ok w) : w.proc.Emittable program := by
  obtain ⟨w₁, steps, rfl⟩ := bind_pure_eq_ok ok
  obtain ⟨after, lineage, fits, slotted⟩ :=
    Work.kept_take linear (k := 9) rfl (Work.run_of_steps steps)
  obtain ⟨colored, bounded⟩ := Work.colored_steps linear checks steps
  exact ⟨after.1, after.2, bounded, colored, fits, slotted, lineage.fields program declares⟩

/-- What passes leave that were checked is emitted, if the fields that are accessed are declared. -/
theorem Program.emit_of_allocate {text : String} {program : Program}
    (read : Program.ofText text = .ok program) {config : Config} (checks : config.verify = true)
    (declares : ∀ p ∈ program.procedures, ∀ graph, p.buildFlowGraph = .ok graph →
      program.DeclaresFields graph) {colored : Program} {stats : Statistics}
    (ok : program.allocate config = .ok (colored, stats)) :
    ∃ asm stats', colored.emit stats = (.ok asm, stats') := by
  obtain ⟨⟨procedures, stats'⟩, compiled, same⟩ := bind_pure_eq_ok ok
  obtain ⟨rfl, rfl⟩ := Prod.mk.inj same
  refine Program.emit_eq_ok (fun q mem => ?_) _
  have all : List.Forall₂ (fun _ q => q.Emittable program) program.procedures procedures :=
    forall₂_compileProcedures (fun p isProcedure _ _ =>
      emittable_finish (linear_of_ofText read p isProcedure) checks
        (declares p isProcedure)) compiled
  obtain ⟨-, -, emittable⟩ := Tables.exists_of_forall₂ all mem
  exact ⟨emittable.wf, emittable.ordered, emittable.bounded, emittable.colored, emittable.fits,
    emittable.slotted, emittable.fields⟩

/-- A loop that fills the nodes of a list. -/
def Program.fillText : String :=
  "class Node \x7b Int val; Node next; \x7d Node fill(Node n) " ++
    "\x7b P: n.val = 1; n = n.next; if (n != null) goto P; return n; \x7d"

theorem Program.emit_of_allocate_fill :
    ∃ program colored stats, Program.ofText Program.fillText = .ok program ∧
      (∀ p ∈ program.procedures, ∀ graph, p.buildFlowGraph = .ok graph →
        program.DeclaresFields graph) ∧
      program.allocate ⟨8, 4, true, none⟩ = .ok (colored, stats) ∧
      ∃ asm stats', colored.emit stats = (.ok asm, stats') := by
  have evaluated : ((Program.ofText Program.fillText).toOption.bind fun program =>
      (program.allocate ⟨8, 4, true, none⟩).toOption.map fun _ =>
        program.procedures.all fun p => p.buildFlowGraph.toOption.all fun graph =>
          decide (program.DeclaresFields graph)) = some true := by
    decide +kernel
  obtain ⟨program, isRead, evaluated⟩ := Tables.exists_ok_of_bind evaluated
  obtain ⟨⟨colored, stats⟩, isAllocated, isDeclared⟩ := Tables.exists_ok_of_map evaluated
  have declares : ∀ p ∈ program.procedures, ∀ graph, p.buildFlowGraph = .ok graph →
      program.DeclaresFields graph := by
    intro p mem graph built
    have each := List.all_eq_true.mp isDeclared p mem
    rw [built] at each
    exact of_decide_eq_true each
  exact ⟨program, colored, stats, isRead, declares, isAllocated,
    Program.emit_of_allocate isRead rfl declares isAllocated⟩

end ArmBackend
