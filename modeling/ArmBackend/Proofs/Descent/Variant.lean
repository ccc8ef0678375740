import ArmBackend.Proofs.Ssa.Traversal
import ArmBackend.Proofs.Tables

/-!
Contract: where the instructions of a changed procedure come from.

A pass leaves an instruction as it is, up to the variables it mentions and the block it jumps to, or
it adds one that moves values without computing any. What holds of an instruction whatever it is
called on, such as its shape and the target of a call, is therefore kept.

Owns: instructions on other variables, variables that stand for others, and the descent of
procedures under changes of a block.
Does not own: which pass does what.
-/

namespace ArmBackend

open List

/-! ## Instructions on other variables -/

/-- The second operand is the first with a related variable. -/
inductive Operand.Variant (relates : VarId → VarId → Prop) : Operand → Operand → Prop
  | literal {o : Operand} (isLiteral : o.var? = none) : Variant relates o o
  | var {u v : VarId} (related : relates u v) : Variant relates (.var u) (.var v)

/-- The second instruction is the first with related variables where it reads values, jumping
anywhere. Nothing is asked of what is defined and of the arguments of calls, copies and phis. -/
inductive Inst.Variant (relates : VarId → VarId → Prop) : Inst → Inst → Prop
  | label (l : LabelId) : Variant relates (.label l) (.label l)
  | branch (op : Comparison) {left right left' right' : Operand} (target target' : LabelId)
      (first : left.Variant relates left') (second : right.Variant relates right') :
      Variant relates (.branch op left right target) (.branch op left' right' target')
  | jump (target target' : LabelId) : Variant relates (.jump target) (.jump target')
  | assign (dst dst' : VarId) {src src' : Operand} (source : src.Variant relates src') :
      Variant relates (.assign dst src) (.assign dst' src')
  | binary (dst dst' : VarId) (op : BinaryOp) {left right left' right' : Operand}
      (first : left.Variant relates left') (second : right.Variant relates right') :
      Variant relates (.binary dst op left right) (.binary dst' op left' right')
  | negate (dst dst' : VarId) {src src' : Operand} (source : src.Variant relates src') :
      Variant relates (.negate dst src) (.negate dst' src')
  | load (dst dst' : VarId) {base base' : Operand} (field : String)
      (object : base.Variant relates base') :
      Variant relates (.load dst base field) (.load dst' base' field)
  | store {base base' : VarId} (field : String) {src src' : Operand} (object : relates base base')
      (source : src.Variant relates src') :
      Variant relates (.store base field src) (.store base' field src')
  | ret : Variant relates (.ret none) (.ret none)
  | retValue {value value' : Operand} (source : value.Variant relates value') :
      Variant relates (.ret (some value)) (.ret (some value'))
  | call (dst dst' : Option VarId) (callee : Callee) (args args' : List Operand) :
      Variant relates (.call dst callee args) (.call dst' callee args')
  | prepare (defs defs' srcs srcs' : List VarId) (argCount : Nat) :
      Variant relates (.prepare defs srcs argCount) (.prepare defs' srcs' argCount)
  | phi (node node' : Phi) : Variant relates (.phi node) (.phi node')
  | spill {u v : VarId} (related : relates u v) : Variant relates (.spill u) (.spill v)
  | reload {u v : VarId} (related : relates u v) : Variant relates (.reload u) (.reload v)
  | stackArg (u v : VarId) (index : Nat) : Variant relates (.stackArg u index) (.stackArg v index)

section Variants

variable {relates relates' : VarId → VarId → Prop}

theorem Operand.Variant.refl (own : ∀ v, relates v v) (o : Operand) : o.Variant relates o := by
  cases o with
  | var v => exact .var (own v)
  | _ => exact .literal rfl

theorem Operand.Variant.trans {all : VarId → VarId → Prop}
    (through : ∀ u v w, relates u v → relates' v w → all u w) {a b c : Operand}
    (first : a.Variant relates b) (second : b.Variant relates' c) : a.Variant all c := by
  cases first with
  | literal isLiteral =>
    cases second with
    | literal => exact .literal isLiteral
    | var => cases isLiteral
  | var related =>
    cases second with
    | literal isLiteral => cases isLiteral
    | var related' => exact .var (through _ _ _ related related')

private theorem Operand.Variant.traverse {f : VarId → VarId} {o : Operand}
    (related : ∀ v ∈ o.var?, relates v (f v)) :
    o.Variant relates (Id.run (o.traverse fun v => pure (f v))) := by
  cases o with
  | var v => exact .var (related v rfl)
  | _ => exact .literal rfl

namespace Inst.Variant

variable {f : VarId → VarId} {i : Inst}

theorem trans {all : VarId → VarId → Prop} (through : ∀ u v w, relates u v → relates' v w → all u w)
    {j k : Inst}
    (first : i.Variant relates j) (second : j.Variant relates' k) : i.Variant all k := by
  cases first with
  | label l => cases second; exact .label l
  | branch op _ _ left right =>
    cases second with
    | branch _ _ _ left' right' =>
      exact .branch op _ _ (left.trans through left') (right.trans through right')
  | jump => cases second; exact .jump ..
  | assign _ _ source => cases second with
    | assign _ _ source' => exact .assign _ _ (source.trans through source')
  | binary _ _ op left right => cases second with
    | binary _ _ _ left' right' =>
      exact .binary _ _ op (left.trans through left') (right.trans through right')
  | negate _ _ source => cases second with
    | negate _ _ source' => exact .negate _ _ (source.trans through source')
  | load _ _ field object => cases second with
    | load _ _ _ object' => exact .load _ _ field (object.trans through object')
  | store field object source => cases second with
    | store _ object' source' =>
      exact .store field (through _ _ _ object object') (source.trans through source')
  | ret => cases second; exact .ret
  | retValue source => cases second with
    | retValue source' => exact .retValue (source.trans through source')
  | call => cases second; exact .call ..
  | prepare => cases second; exact .prepare ..
  | phi => cases second; exact .phi ..
  | spill related => cases second with
    | spill related' => exact .spill (through _ _ _ related related')
  | reload related => cases second with
    | reload related' => exact .reload (through _ _ _ related related')
  | stackArg => cases second; exact .stackArg ..

section

variable (own : ∀ v, relates v v)

include own

theorem mapUses (related : ∀ v ∈ i.uses, relates v (f v)) : i.Variant relates (i.mapUses f) := by
  have operand : ∀ o ∈ i.operands, o.Variant relates (Id.run (o.traverse fun v => pure (f v))) :=
    fun o mem => .traverse fun v isVar => related v
      (mem_append_left _ (mem_filterMap.mpr ⟨o, mem, isVar⟩))
  cases i with
  | label l => exact .label l
  | branch op left right target =>
    exact .branch op target target (operand left (by simp [operands]))
      (operand right (by simp [operands]))
  | jump target => exact .jump target target
  | assign dst src => exact .assign dst dst (operand src (by simp [operands]))
  | binary dst op left right =>
    exact .binary dst dst op (operand left (by simp [operands]))
      (operand right (by simp [operands]))
  | negate dst src => exact .negate dst dst (operand src (by simp [operands]))
  | load dst base field => exact .load dst dst field (operand base (by simp [operands]))
  | store base field src =>
    exact .store field (related base (by simp [uses])) (operand src (by simp [operands]))
  | ret value =>
    cases value with
    | none => exact .ret
    | some value => exact .retValue (operand value (by simp [operands]))
  | call dst callee args => exact .call dst dst callee args _
  | prepare defs srcs argCount => exact .prepare defs defs srcs _ argCount
  | phi node => exact .phi node node
  | spill v => exact .spill (related v (by simp [uses]))
  | reload v => exact .reload (own v)
  | stackArg v index => exact .stackArg v (f v) index

theorem refl (i : Inst) : i.Variant relates i := by
  have variant : i.Variant relates (i.mapUses id) := mapUses own fun v _ => own v
  have same : i.mapUses id = i := mapUses_eq_self fun _ _ => rfl
  rwa [same] at variant

theorem withTarget (i : Inst) (target : LabelId) : i.Variant relates (i.withTarget target) := by
  cases i with
  | branch op left right old => exact .branch op old target (.refl own left) (.refl own right)
  | jump old => exact .jump old target
  | _ => exact .refl own _

/-- Nothing is asked of what is defined, except by reloads. -/
theorem mapDefs (related : ∀ v, i = .reload v → relates v (f v)) :
    i.Variant relates (i.mapDefs f) := by
  have operand := Operand.Variant.refl own
  cases i with
  | assign dst src => exact .assign dst (f dst) (operand src)
  | binary dst op left right => exact .binary dst (f dst) op (operand left) (operand right)
  | negate dst src => exact .negate dst (f dst) (operand src)
  | load dst base field => exact .load dst (f dst) field (operand base)
  | call dst callee args => exact .call dst _ callee args args
  | prepare defs srcs argCount => exact .prepare defs _ srcs srcs argCount
  | phi node => exact .phi node _
  | reload v => exact .reload (related v rfl)
  | _ => exact .refl own _

theorem mapPhi (f : Phi → Phi) (i : Inst) : i.Variant relates (i.mapPhi f) := by
  cases i with
  | phi node => exact .phi node (f node)
  | _ => exact .refl own _

end

end Inst.Variant

end Variants

/-! ## Procedures -/

theorem exists_of_mem_modify {f : Inst → Inst} {insts : List Inst} {at_ : Nat} {j : Inst}
    (mem : j ∈ insts.modify at_ f) : j ∈ insts ∨ ∃ i ∈ insts, f i = j := by
  induction insts generalizing at_ with
  | nil =>
    rw [modify_nil] at mem
    cases mem
  | cons i rest ih =>
    cases at_ with
    | zero =>
      rw [modify_zero_cons] at mem
      rcases mem_cons.mp mem with rfl | later
      · exact .inr ⟨i, mem_cons_self, rfl⟩
      · exact .inl (mem_cons_of_mem _ later)
    | succ at_ =>
      rw [modify_succ_cons] at mem
      rcases mem_cons.mp mem with rfl | later
      · exact .inl mem_cons_self
      · exact (ih later).imp (mem_cons_of_mem _)
          fun ⟨i', old, same⟩ => ⟨i', mem_cons_of_mem _ old, same⟩

namespace Procedure

/-- The second variable, in the second procedure, holds objects of the class of the first variable,
if this holds objects. -/
def SameObject (p q : Procedure) (u v : VarId) : Prop :=
  ∀ name, (p.var u).ty = .object name → (q.var v).ty = .object name

/-- The second variable, in the second procedure, has the class and the web of the first. -/
structure StandsFor (p q : Procedure) (u v : VarId) : Prop where
  object : p.SameObject q u v
  web : ∀ w, p.web? u = some w → q.web? v = some w

/-- An instruction that passes add. It moves values or control, and if it accesses a slot there is
one for it. -/
def Adds (p : Procedure) : Inst → Prop
  | .phi _ | .jump _ | .ret none | .prepare .. => True
  | .spill v | .reload v => (p.web? v).isSome = true
  | _ => False

/-- Every instruction of the second procedure stands for one of the first, or is an added one. -/
structure Descends (relates : VarId → VarId → Prop) (p q : Procedure) : Prop where
  name : q.name = p.name
  args : q.args = p.args
  regs : ∀ v, q.reg? v = p.reg? v
  own : ∀ v, relates v v
  insts : ∀ j ∈ q.insts, q.Adds j ∨ ∃ i ∈ p.insts, i.Variant relates j

/-- The second procedure descends from the first, and its variables keep class and web. -/
abbrev Continues (p q : Procedure) : Prop := Descends (p.StandsFor q) p q

variable {p q r : Procedure}

theorem StandsFor.refl (p : Procedure) (v : VarId) : p.StandsFor p v v := ⟨fun _ => id, fun _ => id⟩

theorem StandsFor.trans {u v w : VarId} (first : p.StandsFor q u v) (second : q.StandsFor r v w) :
    p.StandsFor r u w :=
  ⟨fun name isObject => second.object name (first.object name isObject),
    fun web isWeb => second.web web (first.web web isWeb)⟩

theorem StandsFor.of_vars (vars : q.vars = p.vars) (v : VarId) : p.StandsFor q v v := by
  refine ⟨fun name => ?_, fun w => ?_⟩
  · rw [var, var, vars]
    exact id
  · rw [web?, web?, var, var, vars]
    exact id

/-- Outside the table there is no class and no web to keep. -/
theorem StandsFor.of_outside {u v : VarId} (above : p.nextVar ≤ u) : p.StandsFor q u v := by
  have outside : p.var u = default := Tables.getD_of_size_le p.vars default above
  refine ⟨fun name isObject => ?_, fun w isWeb => ?_⟩
  · rw [outside] at isObject
    cases isObject
  · rw [web?, outside] at isWeb
    cases isWeb

theorem StandsFor.addLocal (p : Procedure) (name : String) (ty : Ty) (v : VarId) :
    p.StandsFor (p.addLocal name ty) v v := by
  by_cases new : v = p.nextVar
  · exact .of_outside (Nat.le_of_eq new.symm)
  · have same : (p.addLocal name ty).var v = p.var v := by rw [var_addLocal, if_neg new]
    exact ⟨fun name => same ▸ id, fun w => by rw [web?, web?, same]; exact id⟩

theorem Adds.variant {i j : Inst} (adds : p.Adds i) (variant : i.Variant (p.StandsFor q) j) :
    q.Adds j := by
  cases variant with
  | jump | ret | prepare | phi => exact True.intro
  | spill related | reload related =>
    obtain ⟨w, isWeb⟩ := Option.isSome_iff_exists.mp adds
    exact Option.isSome_iff_exists.mpr ⟨w, related.web w isWeb⟩
  | _ => exact adds.elim

namespace Descends

variable {f : Block → Block} {relates : VarId → VarId → Prop}

theorem refl (p : Procedure) : p.Continues p :=
  ⟨rfl, rfl, fun _ => rfl, .refl p, fun i mem => .inr ⟨i, mem, .refl (.refl p) i⟩⟩

theorem trans (first : p.Continues q) (second : q.Continues r) : p.Continues r where
  name := second.name.trans first.name
  args := second.args.trans first.args
  regs v := (second.regs v).trans (first.regs v)
  own v := (first.own v).trans (second.own v)
  insts k mem := by
    rcases second.insts k mem with adds | ⟨j, inMiddle, variant⟩
    · exact .inl adds
    · rcases first.insts j inMiddle with adds | ⟨i, inFirst, variant'⟩
      · exact .inl (adds.variant variant)
      · refine .inr ⟨i, inFirst, variant'.trans ?_ variant⟩
        exact fun _ _ _ => StandsFor.trans

theorem of_insts (own : ∀ v, relates v v) (name : q.name = p.name)
    (args : q.args = p.args) (regs : ∀ v, q.reg? v = p.reg? v)
    (same : ∀ b, (q.block b).insts = (p.block b).insts) : Descends relates p q := by
  refine ⟨name, args, regs, own, fun i mem => .inr ⟨i, ?_, .refl own i⟩⟩
  obtain ⟨b, inBlock⟩ := mem_insts.mp mem
  exact mem_insts.mpr ⟨b, same b ▸ inBlock⟩

theorem of_blocks (own : ∀ v, relates v v) (name : q.name = p.name)
    (args : q.args = p.args) (regs : ∀ v, q.reg? v = p.reg? v) (blocks : q.blocks = p.blocks) :
    Descends relates p q :=
  of_insts own name args regs fun b => by rw [block, blocks]; rfl

theorem modifyBlock (continues : p.Continues q) (b : BlockId)
    (each : ∀ j ∈ (f (q.block b)).insts, q.Adds j ∨ ∃ i ∈ p.insts, i.Variant (p.StandsFor q) j) :
    p.Continues (q.modifyBlock b f) := by
  have own : ∀ v, q.StandsFor (q.modifyBlock b f) v v := StandsFor.of_vars rfl
  refine ⟨continues.name, continues.args, continues.regs, fun v => (continues.own v).trans (own v),
    fun j mem => ?_⟩
  have known : q.Adds j ∨ ∃ i ∈ p.insts, i.Variant (p.StandsFor q) j := by
    obtain ⟨c, inBlock⟩ := mem_insts.mp mem
    rw [block_modifyBlock] at inBlock
    split at inBlock
    · rename_i here
      exact each j (here.1 ▸ inBlock)
    · exact continues.insts j (mem_insts.mpr ⟨c, inBlock⟩)
  refine known.imp (fun adds => adds.variant (.refl own j)) ?_
  rintro ⟨i, inFirst, variant⟩
  refine ⟨i, inFirst, variant.trans ?_ (.refl own j)⟩
  exact fun _ _ _ => StandsFor.trans

/-- A block whose instructions are those it had, on other variables, and added ones. -/
theorem of_modifyBlock (p : Procedure) (b : BlockId) (each : ∀ j ∈ (f (p.block b)).insts,
      p.Adds j ∨ ∃ i ∈ (p.block b).insts, i.Variant (p.StandsFor p) j) :
      p.Continues (p.modifyBlock b f) :=
  (refl p).modifyBlock b fun j mem => (each j mem).imp_right fun ⟨i, inBlock, variant⟩ =>
    ⟨i, mem_insts.mpr ⟨b, inBlock⟩, variant⟩

theorem of_pushBlock (p : Procedure) (b : Block) (each : ∀ j ∈ b.insts, p.Adds j) :
    p.Continues (p.pushBlock b) := by
  have own : ∀ v, p.StandsFor (p.pushBlock b) v v := StandsFor.of_vars rfl
  refine ⟨rfl, rfl, fun _ => rfl, own, fun j mem => ?_⟩
  have isInsts : (p.pushBlock b).insts = p.insts ++ b.insts := by
    simp [Procedure.insts, pushBlock]
  rw [isInsts, mem_append] at mem
  rcases mem with old | new
  · exact .inr ⟨j, old, .refl own j⟩
  · exact .inl ((each j new).variant (.refl own j))

theorem foldl {α : Type} {f : Procedure → α → Procedure} (entries : List α) (p : Procedure)
    (step : ∀ q entry, Continues q (f q entry)) : p.Continues (entries.foldl f p) := by
  induction entries generalizing p with
  | nil => exact .refl p
  | cons entry rest ih => exact (step p entry).trans (ih _)

end Descends

end Procedure

end ArmBackend
