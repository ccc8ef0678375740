import ArmBackend.Proofs.FlowGraph.Form
import ArmBackend.Proofs.Machine

/-!
Contract: where control goes, in linear bodies and in flow graphs.

Labels and jumps are silent here: a trace holds the other instructions, in the order in which they
are executed, each with the words it reads and delivers. Jump targets are left out of it, since they
name labels of a body in one form and blocks in the other.

Owns: the moves of control in both forms, traces, and the rule by which one form's traces are those
of another.
Does not own: what an instruction does to variables, which is the same in both.
-/

namespace ArmBackend

open Machine

/-- The same instruction, wherever it may jump to. -/
def Inst.unaimed (i : Inst) : Inst := i.withTarget 0

theorem Inst.defs_of_unaimed {i j : Inst} (same : i.unaimed = j.unaimed) : i.defs = j.defs := by
  have unchanged : ∀ i : Inst, i.unaimed.defs = i.defs := fun i => by cases i <;> rfl
  rw [← unchanged i, same, unchanged]

theorem Inst.eq_of_unaimed {i j : Inst} (same : i.unaimed = j.unaimed) (stays : i.target? = none) :
    i = j := by
  cases i <;> cases j <;> simp_all [unaimed, withTarget, target?]

/-- How control moves between points of a program: silently, or by executing an instruction. The
flag says whether a comparison holds. -/
structure Control (Point : Type) where
  silent : Point → Point → Prop
  visible : Point → Inst → Bool → Point → Prop

namespace Control

variable {Point Other : Type}

variable {control : Control Point} {a : Point} {literal : String → Int32} {p : Procedure}
variable {answers : List Int32} {b : Point} {env final : Env} {events : List (Inst × Event)}
  {q : Procedure}

/-- A trace of a program from a point and from words in variables on. Each instruction of the trace
takes one answer, which is what it delivers if it is a call or a load. -/
inductive Trace (control : Control Point) (literal : String → Int32) (p : Procedure) :
    Point → Env → List Int32 → List (Inst × Event) → Env → Prop
  | stop (a : Point) (env : Env) : Trace control literal p a env [] [] env
  | silent {a b : Point} {env final : Env} {answers : List Int32} {events : List (Inst × Event)}
      (moves : control.silent a b) (rest : Trace control literal p b env answers events final) :
      Trace control literal p a env answers events final
  | visible {a b : Point} {i : Inst} {event : Event} {answer : Int32} {env final : Env}
      {answers : List Int32} {events : List (Inst × Event)}
      (observed : observe literal p answer env i = some event)
      (moves : control.visible a i (event.leaves?.getD false) b)
      (rest : Trace control literal p b (env.define i.defs event.result) answers events final) :
      Trace control literal p a env (answer :: answers) ((i.unaimed, event) :: events) final

/-- Some silent moves in a row. -/
inductive Silently (control : Control Point) : Point → Point → Prop
  | refl (a : Point) : Silently control a a
  | step {a b c : Point} (first : control.silent a b) (rest : Silently control b c) :
      Silently control a c

theorem Silently.trans {c : Point} (first : control.Silently a b) (second : control.Silently b c)
    : control.Silently a c := by
  induction first with
  | refl => exact second
  | step one _ ih => exact .step one (ih second)

private theorem Silently.trace (moves : control.Silently a b)
    (rest : control.Trace literal p b env answers events final) :
    control.Trace literal p a env answers events final := by
  induction moves with
  | refl => exact rest
  | step one _ ih => exact .silent one (ih rest)

theorem observe_of_unaimed (vars : q.vars = p.vars) {i j : Inst}
    (same : i.unaimed = j.unaimed) (answer : Int32) (env : Env) :
    observe literal q answer env j = observe literal p answer env i := by
  have unchanged : ∀ i : Inst, observe literal p answer env i.unaimed =
      observe literal p answer env i := fun i => by cases i <;> rfl
  rw [← unchanged i, same, unchanged]
  have var : q.var = p.var := by
    funext v
    rw [Procedure.var, Procedure.var, vars]
  have operandTy : q.operandTy = p.operandTy := by
    funext o
    cases o <;> simp only [Procedure.operandTy, var]
  cases j <;> simp only [observe, var, operandTy]

/-- If related points move to related points, up to silent moves, every trace from one point is a
trace from the other. -/
theorem Trace.simulate {other : Control Other} {related : Point → Other → Prop}
    (vars : q.vars = p.vars)
    (silently : ∀ {a a' b}, related a b → control.silent a a' → ∃ b', other.Silently b b' ∧
      related a' b')
    (visibly : ∀ {a a' b i taken}, related a b → control.visible a i taken a' →
      ∃ b' j b'', other.Silently b b' ∧ i.unaimed = j.unaimed ∧ other.visible b' j taken b'' ∧
        related a' b'') {b : Other}
    (start : related a b) (trace : control.Trace literal p a env answers events final) :
    other.Trace literal q b env answers events final := by
  induction trace generalizing b with
  | stop => exact .stop b _
  | silent moves _ ih =>
    obtain ⟨b', moves', start'⟩ := silently start moves
    exact moves'.trace (ih start')
  | visible observed moves _ ih =>
    obtain ⟨b', j, b'', moves', same, moves'', start'⟩ := visibly start moves
    rw [same]
    refine moves'.trace (.visible ((observe_of_unaimed vars same _ _).trans observed) moves'' ?_)
    rw [← Inst.defs_of_unaimed same]
    exact ih start'

end Control

/-! ## Linear bodies -/

namespace Linear

/-- Silent moves in a body, whose points are what is left of it: past a label marker, and from a
jump to what follows the marker of its label. -/
inductive Silent (body : List Inst) : Option (List Inst) → Option (List Inst) → Prop
  | label (l : LabelId) (rest : List Inst) : Silent body (some (.label l :: rest)) (some rest)
  | jump {l : LabelId} {before after : List Inst} (marked : body = before ++ .label l :: after)
      (rest : List Inst) : Silent body (some (.jump l :: rest)) (some after)

/-- Instructions of a body. Nothing is left after a return, and the end of the body is a return
without a value. -/
inductive Visible (body : List Inst) : Option (List Inst) → Inst → Bool → Option (List Inst) → Prop
  | ordinary {i : Inst} (isOrdinary : i.isOrdinary = true) (rest : List Inst) :
      Visible body (some (i :: rest)) i false (some rest)
  | falls (op : Comparison) (left right : Operand) (l : LabelId) (rest : List Inst) :
      Visible body (some (.branch op left right l :: rest)) (.branch op left right l) false
      (some rest)
  | taken (op : Comparison) (left right : Operand) {l : LabelId} {before after : List Inst}
      (marked : body = before ++ .label l :: after) (rest : List Inst) :
      Visible body (some (.branch op left right l :: rest)) (.branch op left right l) true
      (some after)
  | ret (value : Option Operand) (rest : List Inst) :
      Visible body (some (.ret value :: rest)) (.ret value) false none
  | atEnd : Visible body (some []) (.ret none) false none

/-- Control in a linear body. -/
def control (body : List Inst) : Control (Option (List Inst)) := ⟨Silent body, Visible body⟩

end Linear

/-! ## Flow graphs -/

namespace FlowGraph

/-- The silent moves in a flow graph, whose points are a block and what is left of it: a jump
follows the direct edge. -/
inductive Silent (p : Procedure) :
    Option (BlockId × List Inst) → Option (BlockId × List Inst) → Prop
  | jump {b d : BlockId} (direct : (p.block b).direct = some d) (l : LabelId) (rest : List Inst) :
      Silent p (some (b, .jump l :: rest)) (some (d, (p.block d).insts))

/-- Instructions of a flow graph. A branch follows the taken edge if its comparison holds, else the
direct one. -/
inductive Visible (p : Procedure) :
    Option (BlockId × List Inst) → Inst → Bool → Option (BlockId × List Inst) → Prop
  | ordinary {i : Inst} (isOrdinary : i.isOrdinary = true) (b : BlockId) (rest : List Inst) :
      Visible p (some (b, i :: rest)) i false (some (b, rest))
  | falls {b d : BlockId} (direct : (p.block b).direct = some d) (op : Comparison)
      (left right : Operand) (l : LabelId) (rest : List Inst) :
      Visible p (some (b, .branch op left right l :: rest)) (.branch op left right l) false
        (some (d, (p.block d).insts))
  | taken {b c : BlockId} (cond : (p.block b).cond = some c) (op : Comparison)
      (left right : Operand) (l : LabelId) (rest : List Inst) :
      Visible p (some (b, .branch op left right l :: rest)) (.branch op left right l) true
      (some (c, (p.block c).insts))
  | ret (value : Option Operand) (b : BlockId) (rest : List Inst) :
      Visible p (some (b, .ret value :: rest)) (.ret value) false none

/-- Control in a flow graph. -/
def control (p : Procedure) : Control (Option (BlockId × List Inst)) := ⟨Silent p, Visible p⟩

end FlowGraph

end ArmBackend
