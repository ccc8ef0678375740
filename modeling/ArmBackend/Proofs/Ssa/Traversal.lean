import ArmBackend.Program.Instruction
import Mathlib.Data.List.Basic

/-!
Contract: renaming the variables of an instruction through a state.

A step that answers each variable from a state, and never changes an answer it gave, renames an
instruction as the function that the state ends with does.

Owns: this fact for all instructions, and the case of at most one definition.
-/

namespace ArmBackend

open List

namespace Traversal

variable {σ : Type} (holds : σ → Prop) (answer : σ → VarId → Option VarId)
variable {α β : Type}

/-- Answers are kept from one state to another. -/
def Keeps (s s' : σ) : Prop := ∀ x d, answer s x = some d → answer s' x = some d

/-- A computation that asks for the given variables and whose result is a function of the
answers. -/
def Asks {α : Type} (m : StateM σ α) (asked : List VarId) (result : (VarId → VarId) → α) : Prop :=
  ∀ s, holds s → holds (m.run s).2 ∧ Keeps answer s (m.run s).2 ∧
    (∀ v ∈ asked, (answer (m.run s).2 v).isSome = true) ∧
    ∀ g, (∀ v ∈ asked, answer (m.run s).2 v = some (g v)) → (m.run s).1 = result g

variable {holds : σ → Prop} {answer : σ → VarId → Option VarId}

theorem Asks.pure (a : α) : Asks holds answer (Pure.pure a : StateM σ α) [] fun _ => a := by
  intro s invariant
  exact ⟨invariant, fun x d known => known, by simp, fun g _ => rfl⟩

theorem Asks.bind {m : StateM σ α} {next : α → StateM σ β} {first rest : List VarId}
    {result : (VarId → VarId) → α} {final : α → (VarId → VarId) → β}
    (asks : Asks holds answer m first result)
    (asksNext : ∀ a, Asks holds answer (next a) rest (final a)) :
    Asks holds answer (m >>= next) (first ++ rest) fun g => final (result g) g := by
  intro s invariant
  obtain ⟨invariant₁, keeps₁, some₁, value₁⟩ := asks s invariant
  obtain ⟨invariant₂, keeps₂, some₂, value₂⟩ := asksNext (m.run s).1 (m.run s).2 invariant₁
  refine ⟨invariant₂, fun x d known => keeps₂ x d (keeps₁ x d known), ?_, ?_⟩
  · intro v mem
    rcases mem_append.mp mem with early | late
    · obtain ⟨d, known⟩ := Option.isSome_iff_exists.mp (some₁ v early)
      exact Option.isSome_iff_exists.mpr ⟨d, keeps₂ v d known⟩
    · exact some₂ v late
  · intro g agrees
    have early : (m.run s).1 = result g := by
      apply value₁
      intro v mem
      obtain ⟨d, known⟩ := Option.isSome_iff_exists.mp (some₁ v mem)
      have final := agrees v (mem_append_left _ mem)
      have kept : answer ((next (m.run s).1).run (m.run s).2).2 v = some d := keeps₂ v d known
      have same : some d = some (g v) := kept.symm.trans final
      exact known.trans same
    have late := value₂ g fun v mem => agrees v (mem_append_right _ mem)
    exact late.trans (early ▸ rfl)

theorem Asks.map {m : StateM σ α} {asked : List VarId}
    {result : (VarId → VarId) → α} (asks : Asks holds answer m asked result) (f : α → β) :
    Asks holds answer (m >>= fun a => Pure.pure (f a)) asked fun g => f (result g) := by
  have both := asks.bind fun a => Asks.pure (f a)
  rwa [append_nil] at both

private theorem Asks.mapM {f : α → StateM σ β} {asked : α → List VarId}
    {result : α → (VarId → VarId) → β}
    (list : List α) (asks : ∀ a ∈ list, Asks holds answer (f a) (asked a) (result a)) :
    Asks holds answer (list.mapM f) (list.flatMap asked) fun g => list.map (result · g) := by
  induction list with
  | nil =>
    rw [mapM_nil]
    exact .pure []
  | cons head tail ih =>
    rw [forall_mem_cons] at asks
    rw [mapM_cons, flatMap_cons]
    exact asks.1.bind fun b => (ih asks.2).map (b :: ·)

variable {f : VarId → StateM σ VarId}

private theorem asks_operand (o : Operand)
    (asks : ∀ v ∈ o.var?, Asks holds answer (f v) [v] fun g => g v) :
    Asks holds answer (o.traverse f) o.var?.toList
      fun g => Id.run (o.traverse fun v => pure (g v)) := by
  cases o with
  | var v => exact (asks v rfl).map Operand.var
  | _ => exact .pure _

theorem map_traverse (args : List Operand) (g : VarId → VarId) :
    args.map (fun o => Id.run (o.traverse fun v => pure (g v))) =
      Id.run (args.mapM (·.traverse fun v => (pure (g v) : Id VarId))) := by
  induction args with
  | nil => rfl
  | cons head tail ih =>
    rw [mapM_cons, map_cons, ih]
    rfl

theorem map_pure (vars : List VarId) (g : VarId → VarId) :
    vars.map g = Id.run (vars.mapM fun v => (pure (g v) : Id VarId)) := by
  induction vars with
  | nil => rfl
  | cons head tail ih =>
    rw [mapM_cons, map_cons, ih]
    rfl

theorem flatMap_var? (args : List Operand) :
    args.flatMap (·.var?.toList) = args.filterMap Operand.var? :=
  (filterMap_eq_flatMap_toList _ _).symm

/-- An instruction is renamed by the answers that its reads leave. -/
theorem asks_traverseUses (i : Inst)
    (asks : ∀ v ∈ i.uses, Asks holds answer (f v) [v] fun g => g v) :
    Asks holds answer (i.traverseUses f) i.uses i.mapUses := by
  have operand : ∀ o ∈ i.operands, Asks holds answer (o.traverse f) o.var?.toList fun g =>
      Id.run (o.traverse fun v => pure (g v)) := by
    intro o mem
    apply asks_operand
    intro v isVar
    exact asks v (mem_append_left _ (mem_filterMap.mpr ⟨o, mem, isVar⟩))
  have one : ∀ o ∈ i.operands, i.uses = o.var?.toList → ∀ g : Operand → Inst, Asks holds answer
      (o.traverse f >>= fun o => Pure.pure (g o)) i.uses fun h =>
        g (Id.run (o.traverse fun v => pure (h v))) := fun o mem isUses g => by
    rw [isUses]
    exact (operand o mem).map g
  have two : ∀ left ∈ i.operands, ∀ right ∈ i.operands,
      i.uses = left.var?.toList ++ right.var?.toList → ∀ g : Operand → Operand → Inst,
      Asks holds answer
        (left.traverse f >>= fun l => right.traverse f >>= fun r => Pure.pure (g l r)) i.uses
        fun h => g (Id.run (left.traverse fun v => pure (h v)))
          (Id.run (right.traverse fun v => pure (h v))) :=
    fun left inLeft right inRight isUses g => by
      rw [isUses]
      exact (operand left inLeft).bind fun l => (operand right inRight).map (g l)
  cases i with
  | branch op left right target =>
    exact two left (by simp [Inst.operands]) right (by simp [Inst.operands])
      (by simp [Inst.uses, Inst.operands, ← flatMap_var?]) (Inst.branch op · · target)
  | assign dst src =>
    exact one src (by simp [Inst.operands]) (by simp [Inst.uses, Inst.operands, ← flatMap_var?])
      (Inst.assign dst)
  | binary dst op left right =>
    exact two left (by simp [Inst.operands]) right (by simp [Inst.operands])
      (by simp [Inst.uses, Inst.operands, ← flatMap_var?]) (Inst.binary dst op)
  | negate dst src =>
    exact one src (by simp [Inst.operands]) (by simp [Inst.uses, Inst.operands, ← flatMap_var?])
      (Inst.negate dst)
  | load dst base field =>
    exact one base (by simp [Inst.operands]) (by simp [Inst.uses, Inst.operands, ← flatMap_var?])
      (Inst.load dst · field)
  | store base field src =>
    have reads : (Inst.store base field src).uses = src.var?.toList ++ [base] := by
      simp [Inst.uses, Inst.operands, ← flatMap_var?]
    rw [reads]
    exact (operand src (by simp [Inst.operands])).bind fun s =>
      (asks base (by simp [Inst.uses])).map fun b => Inst.store b field s
  | ret value =>
    cases value with
    | none => exact .pure _
    | some o =>
      exact one o (by simp [Inst.operands]) (by simp [Inst.uses, Inst.operands, ← flatMap_var?])
        fun o => Inst.ret (some o)
  | call dst callee args =>
    have reads : (Inst.call dst callee args).uses = args.flatMap (·.var?.toList) := by
      rw [flatMap_var?]
      simp [Inst.uses, Inst.operands]
    have all := (Asks.mapM args fun o mem => operand o mem).map (Inst.call dst callee)
    simp only [map_traverse] at all
    rw [reads]
    exact all
  | prepare defs srcs argCount =>
    have reads : (Inst.prepare defs srcs argCount).uses = srcs.flatMap fun v => [v] := by
      simp [Inst.uses, Inst.operands]
    have all := (Asks.mapM srcs fun v mem => asks v (by simp [Inst.uses, mem])).map
      (Inst.prepare defs · argCount)
    rw [reads]
    simp only [map_pure] at all
    exact all
  | spill var => exact (asks var (by simp [Inst.uses])).map Inst.spill
  | stackArg var index => exact (asks var (by simp [Inst.uses])).map (Inst.stackArg · index)
  | label l => exact .pure _
  | jump target => exact .pure _
  | phi node => exact .pure _
  | reload dst => exact .pure _

/-- An instruction of a text, or a phi, is given its definition by at most one step. -/
theorem traverseDefs_run (f : VarId → StateM σ VarId) (i : Inst) (few : ∀ d s n, i ≠ .prepare d s n)
    (state : σ) : (i.traverseDefs f).run state =
      match i.defs with
      | [] => (i, state)
      | x :: _ => (i.mapDefs fun _ => ((f x).run state).1, ((f x).run state).2) := by
  cases i with
  | call dst callee args => cases dst <;> rfl
  | prepare defs srcs argCount => exact absurd rfl (few defs srcs argCount)
  | _ => rfl

end Traversal

/-! ## Reads and definitions of a renamed instruction -/

private theorem Operand.var?_traverse (o : Operand) (f : VarId → VarId) :
    (Id.run (o.traverse fun v => pure (f v))).var? = o.var?.map f := by
  cases o <;> rfl

namespace Inst

section

variable (i : Inst) (f : VarId → VarId)

include i f

theorem defs_mapUses : (i.mapUses f).defs = i.defs := by
  cases i <;> rfl

theorem defs_mapDefs : (i.mapDefs f).defs = i.defs.map f := by
  cases i with
  | call dst callee args => cases dst <;> rfl
  | prepare defs srcs argCount => exact (Traversal.map_pure defs f).symm
  | _ => rfl

private theorem operands_mapUses :
    (i.mapUses f).operands = i.operands.map fun o => Id.run (o.traverse fun v => pure (f v)) := by
  cases i with
  | call dst callee args => exact (Traversal.map_traverse args f).symm
  | ret value => cases value <;> rfl
  | _ => rfl

theorem uses_mapUses : (i.mapUses f).uses = i.uses.map f := by
  have operands : ((i.mapUses f).operands).filterMap Operand.var? =
      (i.operands.filterMap Operand.var?).map f := by
    rw [operands_mapUses, filterMap_map, map_filterMap]
    congr 1
    funext o
    exact Operand.var?_traverse o f
  unfold uses
  rw [operands, map_append]
  congr 1
  cases i with
  | prepare defs srcs argCount => exact (Traversal.map_pure srcs f).symm
  | _ => rfl

theorem uses_mapDefs : (i.mapDefs f).uses = i.uses := by
  cases i <;> rfl

end

theorem mapUses_prepare (defs srcs : List VarId) (argCount : Nat) (f : VarId → VarId) :
    (Inst.prepare defs srcs argCount).mapUses f = .prepare defs (srcs.map f) argCount :=
  congrArg (Inst.prepare defs · argCount) (Traversal.map_pure srcs f).symm

theorem mapUses_eq_self {i : Inst} {f : VarId → VarId} (same : ∀ u ∈ i.uses, f u = u) :
    i.mapUses f = i := by
  have operand : ∀ o ∈ i.operands, Id.run (o.traverse fun v => pure (f v)) = o := by
    intro o mem
    cases o with
    | var v =>
      have isUse : v ∈ i.uses := mem_append_left _ (mem_filterMap.mpr ⟨_, mem, rfl⟩)
      exact congrArg Operand.var (same v isUse)
    | _ => rfl
  cases i with
  | branch op left right target =>
    exact congr (congrArg (Inst.branch op · · target) (operand left (by simp [operands])))
      (operand right (by simp [operands]))
  | assign dst src => exact congrArg (Inst.assign dst) (operand src (by simp [operands]))
  | binary dst op left right =>
    exact congr (congrArg (Inst.binary dst op) (operand left (by simp [operands])))
      (operand right (by simp [operands]))
  | negate dst src => exact congrArg (Inst.negate dst) (operand src (by simp [operands]))
  | load dst base field =>
    exact congrArg (Inst.load dst · field) (operand base (by simp [operands]))
  | store base field src =>
    exact congr (congrArg (Inst.store · field) (same base (by simp [uses])))
      (operand src (by simp [operands]))
  | ret value =>
    cases value with
    | none => rfl
    | some o => exact congrArg (fun o => Inst.ret (some o)) (operand o (by simp [operands]))
  | call dst callee args =>
    have all := Traversal.map_traverse args f
    have kept : ∀ o ∈ args, Id.run (o.traverse fun v => pure (f v)) = o := operand
    rw [map_congr_left kept, map_id'] at all
    exact congrArg (Inst.call dst callee) all.symm
  | prepare defs srcs argCount =>
    have kept : ∀ v ∈ srcs, f v = v := fun v mem => same v (by simp [uses, operands, mem])
    rw [mapUses_prepare, map_congr_left kept, map_id']
  | spill var => exact congrArg Inst.spill (same var (by simp [uses]))
  | stackArg var index => exact congrArg (Inst.stackArg · index) (same var (by simp [uses]))
  | _ => rfl

end Inst

end ArmBackend
