import ArmBackend.Proofs.Descent.Variant
import ArmBackend.Proofs.TargetForm

/-!
Contract: the shape of operands that lowering makes, and that no pass breaks.

Lowering leaves instructions whose operands the target can take, and keeps which fields are accessed
and which procedures are called. Passes that only move values keep all of this.

Owns: declared field accesses, and the shape of operands under descent.
Does not own: how operands are turned into code.
-/

namespace ArmBackend

open Procedure

variable {a b : Operand} {relates : VarId → VarId → Prop}

/-! ## Operands -/

private theorem Operand.Variant.var?_isSome (variant : a.Variant relates b) :
    b.var?.isSome = a.var?.isSome := by
  cases variant <;> rfl

theorem Operand.Variant.word?_eq (variant : a.Variant relates b) : b.word? = a.word? := by
  cases variant <;> rfl

theorem Inst.Variant.fits_eq {i j : Inst} (variant : i.Variant relates j) : j.fits = i.fits := by
  cases variant with
  | branch op _ _ left right =>
    simp only [fits, Operand.isConstant, Operand.isSecond, TargetForm.fitsSecond, left.word?_eq,
      right.word?_eq, left.var?_isSome, right.var?_isSome]
  | binary _ _ op left right =>
    simp only [fits, Operand.isSecond, TargetForm.fitsSecond, left.word?_eq, right.word?_eq,
      left.var?_isSome, right.var?_isSome]
  | negate _ _ source => simp only [fits, Operand.isConstant, source.word?_eq, source.var?_isSome]
  | load _ _ _ object => simp only [fits, object.var?_isSome]
  | store _ _ source => simp only [fits, source.var?_isSome]
  | _ => rfl

/-! ## Lowering -/

/-- What lowering leaves of a procedure. -/
structure Procedure.Lowered (p q : Procedure) : Prop where
  name : q.name = p.name
  args : q.args = p.args
  regs : ∀ v, q.reg? v = p.reg? v
  objects : ∀ v, p.SameObject q v v
  insts : ∀ j ∈ q.insts, j.fits = true ∧ ∃ i ∈ p.insts, i.Makes j

theorem Procedure.lowered_lower (p : Procedure) : p.Lowered p.lower.1 := by
  obtain ⟨all, perm, progress⟩ := TargetForm.progress_lower p
  refine ⟨by rw [progress.rest], by rw [progress.rest], progress.regs, fun v name isObject => ?_,
    fun j mem => ?_⟩
  · rcases Nat.lt_or_ge v p.nextVar with below | above
    · exact (progress.types v below).trans isObject
    · rw [var, Tables.getD_of_size_le p.vars default above] at isObject
      cases isObject
  · obtain ⟨b, inBlock⟩ := mem_insts.mp mem
    have lt := progress.size ▸ lt_size_of_mem_insts inBlock
    obtain ⟨_, _, codes, -, -, isBlock, replaces⟩ :=
      progress.lowered b (perm.mem_iff.mpr (mem_blockIds.mpr lt))
    rw [isBlock] at inBlock
    obtain ⟨i, inOld, made⟩ := replaces.made j inBlock
    exact ⟨made.fits, i, mem_insts.mpr ⟨b, inOld⟩, made.makes⟩

/-! ## What is kept -/

/-- The variable holds objects of a declared class with the given field. -/
def Program.HasField (program : Program) (p : Procedure) (v : VarId) (field : String) : Prop :=
  ∃ name layout, (p.var v).ty = .object name ∧ program.class? name = some layout ∧
    (layout.offset? field).isSome = true

/-- A field that the instruction accesses is one of the class of a variable. -/
def Program.Declares (program : Program) (p : Procedure) : Inst → Prop
  | .load _ base field => ∃ v, base = .var v ∧ program.HasField p v field
  | .store base field _ => program.HasField p base field
  | _ => True

theorem Program.hasField_iff {program : Program} {p : Procedure} {v : VarId} {field : String} :
    program.HasField p v field ↔ (match (p.var v).ty with
      | .object name => (program.class? name).any fun layout => (layout.offset? field).isSome
      | _ => false) = true := by
  unfold HasField
  cases (p.var v).ty with
  | object name => simp [Option.any_eq_true]
  | _ => simp

instance (program : Program) (p : Procedure) (v : VarId) (field : String) :
    Decidable (program.HasField p v field) :=
  decidable_of_iff' _ Program.hasField_iff

instance (program : Program) (p : Procedure) : DecidablePred (program.Declares p)
  | .load _ (.var v) field => decidable_of_iff (program.HasField p v field)
      ⟨fun declared => ⟨v, rfl, declared⟩,
        fun ⟨_, same, declared⟩ => Operand.var.inj same ▸ declared⟩
  | .load _ (.str _) _ | .load _ (.int _) _ | .load _ (.bool _) _ | .load _ .null _ =>
    isFalse fun ⟨_, same, _⟩ => Operand.noConfusion same
  | .store base field _ => inferInstanceAs (Decidable (program.HasField p base field))
  | .label _ | .branch .. | .jump _ | .assign .. | .binary .. | .negate .. | .ret _ | .call
      .. | .prepare ..
  | .phi _ | .spill _ | .reload _ | .stackArg .. => isTrue trivial

/-- Every field that a procedure accesses is declared. -/
def Program.DeclaresFields (program : Program) (p : Procedure) :
    Prop := ∀ i ∈ p.insts, program.Declares p i

instance (program : Program) : DecidablePred program.DeclaresFields := fun p =>
  inferInstanceAs (Decidable (∀ i ∈ p.insts, program.Declares p i))

namespace Procedure

variable {p q : Procedure} {relates : VarId → VarId → Prop} {program : Program}
  {names : List String}

/-- All operands are where the target takes them. -/
def Fits (p : Procedure) : Prop := ∀ i ∈ p.insts, i.fits = true

/-- Slots are accessed for variables with a web only, and all arguments have one. -/
structure Slotted (p : Procedure) : Prop where
  access : ∀ v, Inst.spill v ∈ p.insts ∨ Inst.reload v ∈ p.insts → (p.web? v).isSome = true
  args : ∀ v ∈ p.args, (p.web? v).isSome = true

namespace Descends

theorem callsAmong (descends : Descends relates p q) (calls : p.CallsAmong names) :
    q.CallsAmong names := by
  intro dst name args mem
  rcases descends.insts _ mem with adds | ⟨i, inOld, variant⟩
  · exact adds.elim
  · cases variant
    exact calls _ _ _ inOld

theorem fits (descends : Descends relates p q) (fits : p.Fits) : q.Fits := by
  intro j mem
  rcases descends.insts j mem with adds | ⟨i, inOld, variant⟩
  · unfold Adds at adds
    split at adds <;> first | rfl | exact adds.elim
  · rw [variant.fits_eq]
    exact fits i inOld

theorem declaresFields (descends : Descends relates p q)
    (sameObject : ∀ u v, relates u v → p.SameObject q u v) (declares : program.DeclaresFields p) :
    program.DeclaresFields q := by
  have hasField : ∀ {u v field}, relates u v → program.HasField p u field →
      program.HasField q v field := fun related ⟨name, layout, isObject, rest⟩ =>
    ⟨name, layout, sameObject _ _ related name isObject, rest⟩
  intro j mem
  rcases descends.insts j mem with adds | ⟨i, inOld, variant⟩
  · unfold Adds at adds
    split at adds <;> first | exact True.intro | exact adds.elim
  · have declared := declares i inOld
    cases variant with
    | load dst dst' field object =>
      obtain ⟨u, rfl, has⟩ := declared
      cases object with
      | literal isLiteral => cases isLiteral
      | var related => exact ⟨_, rfl, hasField related has⟩
    | store field object source => exact hasField object declared
    | _ => exact True.intro

theorem slotted (continues : p.Continues q) (slotted : p.Slotted) : q.Slotted := by
  have kept : ∀ {u v}, p.StandsFor q u v → (p.web? u).isSome = true → (q.web? v).isSome = true := by
    intro u v standsFor hasWeb
    obtain ⟨w, isWeb⟩ := Option.isSome_iff_exists.mp hasWeb
    exact Option.isSome_iff_exists.mpr ⟨w, standsFor.web w isWeb⟩
  refine ⟨fun v mem => ?_, fun v isArg => kept (continues.own v)
    (slotted.args v (continues.args ▸ isArg))⟩
  rcases mem with isSpill | isReload
  · rcases continues.insts _ isSpill with adds | ⟨i, inOld, variant⟩
    · exact adds
    · cases variant with
      | spill related => exact kept related (slotted.access _ (.inl inOld))
  · rcases continues.insts _ isReload with adds | ⟨i, inOld, variant⟩
    · exact adds
    · cases variant with
      | reload related => exact kept related (slotted.access _ (.inr inOld))

end Descends

namespace Lowered

theorem callsAmong (lowered : p.Lowered q) (calls : p.CallsAmong names) : q.CallsAmong names := by
  intro dst name args mem
  obtain ⟨-, i, inOld, dst', args', rfl⟩ := lowered.insts _ mem
  exact calls _ _ _ inOld

theorem fits (lowered : p.Lowered q) : q.Fits := fun j mem => (lowered.insts j mem).1

theorem declaresFields (lowered : p.Lowered q) (declares : program.DeclaresFields p) :
    program.DeclaresFields q := by
  have hasField : ∀ {v field}, program.HasField p v field → program.HasField q v field :=
    fun ⟨name, layout, isObject, rest⟩ => ⟨name, layout, lowered.objects _ name isObject, rest⟩
  intro j mem
  obtain ⟨-, i, inOld, makes⟩ := lowered.insts j mem
  have declared := declares i inOld
  cases j with
  | load dst base field =>
    obtain ⟨dst', object, rfl, same⟩ := makes
    obtain ⟨v, rfl, has⟩ := declared
    exact ⟨v, same v rfl, hasField has⟩
  | store base field src =>
    obtain ⟨src', rfl⟩ := makes
    exact hasField declared
  | _ => exact True.intro

end Lowered

end Procedure

end ArmBackend
