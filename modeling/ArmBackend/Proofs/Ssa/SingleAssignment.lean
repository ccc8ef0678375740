import ArmBackend.Proofs.Dominance.Preorder
import Mathlib.Data.List.Nodup

/-!
Contract: procedures in which every variable has one definition, which dominates what reads it.

Owns: the two conditions, and how a dominator tree and the list of instructions are enough to check
them. Does not own: which passes establish them.
-/

namespace ArmBackend

open List Procedure

/-- Every variable is defined once, and no argument is defined. -/
structure Procedure.SingleAssignment (p : Procedure) : Prop where
  nodup : (p.insts.flatMap Inst.defs).Nodup
  args : ∀ d ∈ p.insts.flatMap Inst.defs, d ∉ p.args

theorem Procedure.SingleAssignment.nodup_block {p : Procedure} (single : p.SingleAssignment)
    {b : BlockId} (lt : b < p.blocks.size) : ((p.block b).insts.flatMap Inst.defs).Nodup := by
  have nodup := single.nodup
  rw [insts_eq_flatMap, flatMap_assoc] at nodup
  exact (nodup_flatMap.mp nodup).1 b (mem_blockIds.mpr lt)

variable {i : Inst} {p : Procedure}

theorem Procedure.SingleAssignment.eq_of_defs (single : p.SingleAssignment) {j : Inst}
    (inI : i ∈ p.insts) (inJ : j ∈ p.insts) {d : VarId} (defI : d ∈ i.defs) (defJ : d ∈ j.defs) :
    i = j := by
  have nodup := (nodup_flatMap.mp single.nodup).2
  apply Classical.byContradiction
  intro differ
  have symmetric : Std.Symm (Function.onFun List.Disjoint Inst.defs) :=
    ⟨fun _ _ disjoint _ inSecond inFirst => disjoint inFirst inSecond⟩
  exact nodup.forall inI inJ differ defI defJ

/-- Definitions dominate what reads them; a phi reads at the ends of the predecessors. -/
structure Procedure.DefsDominate (p : Procedure) : Prop where
  reads : ∀ b (n : Nat) i, (p.block b).insts[n]? = some i →
    ∀ u ∈ i.uses, ∀ c, u ∈ (p.block c).insts.flatMap Inst.defs →
      u ∈ ((p.block b).insts.take n).flatMap Inst.defs ∨ p.StrictlyDominates c b
  phis : ∀ b phi, Inst.phi phi ∈ (p.block b).insts → ∀ (slot : Nat) pred a,
    (p.block b).preds[slot]? = some pred → phi.args[slot]? = some (some a) →
      ∀ c, a ∈ (p.block c).insts.flatMap Inst.defs → p.Dominates c pred

/-- The variables that occur in an instruction. -/
def Inst.mentioned (i : Inst) : List VarId :=
  i.defs ++ i.uses ++ i.phi?.toList.flatMap fun phi => phi.args.filterMap id

theorem Inst.mentioned_of_defs {v : VarId} (isDef : v ∈ i.defs) : v ∈ i.mentioned :=
  mem_append_left _ (mem_append_left _ isDef)

/-- Declared variables and balanced copies can be checked instruction by instruction. -/
theorem Procedure.Bounded.of_mentioned (known : ∀ v ∈ p.args ++ p.locals, v < p.nextVar)
    (declared : ∀ i ∈ p.insts, ∀ v ∈ i.mentioned, v ∈ p.args ++ p.locals)
    (balanced : ∀ i ∈ p.insts, i.Balanced) : p.Bounded := by
  have small : ∀ {b i v}, i ∈ (p.block b).insts → v ∈ i.mentioned → v < p.nextVar :=
    fun mem mentioned => known _ (declared _ (mem_insts.mpr ⟨_, mem⟩) _ mentioned)
  exact ⟨fun a isArg => known a (mem_append_left _ isArg),
    fun b _ i mem d isDef => small mem (Inst.mentioned_of_defs isDef),
    fun b _ i mem u isUse => small mem (mem_append_left _ (mem_append_right _ isUse)),
    fun b _ phi mem a isArg => small mem (mem_append_right _ (by simpa [Inst.phi?] using isArg)),
    fun b _ i mem => balanced i (mem_insts.mpr ⟨b, mem⟩)⟩

namespace Procedure

/-- The tree is enough to know that definitions dominate reads. -/
theorem DefsDominate.of_tree {p : Procedure} {t : DomTree} (wf : p.WellFormed) (ordered : p.Ordered)
    (dom : t.Exact p)
    (reads : ∀ b < p.blocks.size, ∀ entry ∈ (p.block b).insts.zipIdx, ∀ u ∈ entry.1.uses,
      ∀ c < p.blocks.size, u ∈ (p.block c).insts.flatMap Inst.defs →
        u ∈ ((p.block b).insts.take entry.2).flatMap Inst.defs ∨ (t.dominates c b = true ∧ c ≠ b))
    (phis : ∀ b < p.blocks.size, ∀ i ∈ (p.block b).insts, ∀ phi ∈ i.phi?.toList,
      ∀ entry ∈ (p.block b).preds.zip phi.args, ∀ a ∈ entry.2.toList, ∀ c < p.blocks.size,
        a ∈ (p.block c).insts.flatMap Inst.defs → t.dominates c entry.1 = true) :
    p.DefsDominate := by
  have dominates : ∀ {c b}, b < p.blocks.size → t.dominates c b = true → p.Dominates c b :=
    fun lt found => (dom.above _ lt _).mp ((DomTree.dominates_iff ordered dom lt).mp found)
  have inside : ∀ {c d}, d ∈ (p.block c).insts.flatMap Inst.defs → c < p.blocks.size :=
    fun isDef => by
    obtain ⟨i, mem, -⟩ := mem_flatMap.mp isDef
    exact lt_size_of_mem_insts mem
  refine ⟨fun b n i isInst u read c isDef => ?_,
    fun b phi mem slot pred a isPred isArg c isDef => ?_⟩
  · have lt := lt_size_of_mem_insts (mem_of_getElem? isInst)
    have isEntry : (i, n) ∈ (p.block b).insts.zipIdx := mk_mem_zipIdx_iff_getElem?.mpr isInst
    exact (reads b lt _ isEntry u read c (inside isDef) isDef).imp_right fun strictly =>
      ⟨dominates lt strictly.1, strictly.2⟩
  · have isPair : (pred, some a) ∈ (p.block b).preds.zip phi.args := by
      refine mem_of_getElem? (i := slot) ?_
      rw [getElem?_zip_eq_some]
      exact ⟨isPred, isArg⟩
    have isSource := (wf.linked.inverse pred b).mp (mem_of_getElem? isPred)
    exact dominates (lt_size_of_mem_succs isSource) (phis b (lt_size_of_mem_insts mem) _ mem phi
      (mem_singleton.mpr rfl) _ isPair a (mem_singleton.mpr rfl) c (inside isDef) isDef)

/-- Counts up to nine, with the counter in memory at the head of the loop although it is read
there. -/
def countingInMemory : Procedure :=
  { ofName "f" .int with
    args := [0]
    locals := [2, 3, 4]
    vars := #[⟨"a", .int, none, none⟩, ⟨"x", .int, none, none⟩, ⟨"x_0", .int, none, none⟩,
      ⟨"x_1", .int, none, none⟩, ⟨"x_2", .int, none, none⟩]
    blocks := #[ { Block.ofInsts 0 [.jump 1] with direct := some 1, postIndex := 3 },
      { Block.ofInsts 1 [.assign 2 (.var 0), .jump 2] with
        preds := [0], direct := some 2, postIndex := 2 },
      { Block.ofInsts 2 [.phi ⟨3, 1, [some 2, some 4], true⟩, .binary 4 .add (.var 3) (.int 1),
          .branch .lt (.var 4) (.int 9) 2] with
        preds := [1, 2], direct := some 3, cond := some 2, postIndex := 1 },
      { Block.ofInsts 3 [.ret (some (.var 4))] with preds := [2], postIndex := 0 }]
    preorder := [0, 1, 2, 3]
    postorder := [3, 2, 1, 0]
    rpo := [0, 1, 2, 3] }

theorem wellFormed_countingInMemory : countingInMemory.WellFormed :=
  .of_check (by decide) (by decide) (by decide) (by decide)

theorem ordered_countingInMemory : countingInMemory.Ordered :=
  (ordered_recomputeOrders (show countingInMemory.recomputeOrders = .ok countingInMemory by rfl)
    (by decide) fun b c edge => (wellFormed_countingInMemory.inside b c edge).1).2

theorem tree_countingInMemory :
    DomTree.ofProcedure countingInMemory = .ok ⟨#[none, some 0, some 1, some 2]⟩ := by
  rfl

set_option synthInstance.maxSize 512 in
theorem dominate_countingInMemory : countingInMemory.DefsDominate :=
  .of_tree wellFormed_countingInMemory ordered_countingInMemory (DomTree.exact_ofProcedure
    wellFormed_countingInMemory.linked ordered_countingInMemory tree_countingInMemory) (by decide)
    (by decide)

theorem bounded_countingInMemory : countingInMemory.Bounded :=
  .of_mentioned (by decide) (by decide) (by decide)

end Procedure

end ArmBackend
