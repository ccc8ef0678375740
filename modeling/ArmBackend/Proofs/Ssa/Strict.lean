import ArmBackend.Proofs.Ssa.Certificate
import ArmBackend.Proofs.Ssa.PhiPlacement
import ArmBackend.Proofs.Ssa.Unique

/-!
Contract: single-assignment form is strict.

Owns: definitions that reach a point along some path, the block that defines the version current at
a point, and that this version has no definition exactly where no definition of its source arrives.
Does not own: that definitions are unique, and where phis stand.
-/

namespace ArmBackend

open List Procedure

variable {more passed' : List Inst} {here : VersionMap} {u : VarId}

/-- Along some path, a definition of `x` reaches the point ahead of instruction `n` of a block. -/
inductive Procedure.DefReaches (p : Procedure) (x : VarId) : BlockId → Nat → Prop
  | define {b : BlockId} {n : Nat} {i : Inst} (isInst : (p.block b).insts[n]? = some i)
      (writes : x ∈ i.defs) : DefReaches p x b (n + 1)
  | pass {b : BlockId} {n : Nat} {i : Inst} (reaches : DefReaches p x b n)
      (isInst : (p.block b).insts[n]? = some i) (other : x ∉ i.defs) : DefReaches p x b (n + 1)
  | follow {b s : BlockId} (reaches : DefReaches p x b (p.block b).insts.length)
      (edge : s ∈ (p.block b).succs) : DefReaches p x s 0

namespace Procedure.DefReaches

variable {p : Procedure} {x : VarId} {b c : BlockId} {n : Nat}

/-- From a point on, some definition reaches all later points of the block. -/
theorem later {m : Nat} (reaches : p.DefReaches x b n) (behind : n ≤ m)
    (inside : m ≤ (p.block b).insts.length) : p.DefReaches x b m := by
  induction behind with
  | refl => exact reaches
  | @step m behind ih =>
    have isInst := getElem?_eq_getElem (Nat.lt_of_succ_le inside)
    by_cases writes : x ∈ ((p.block b).insts.get ⟨m, inside⟩).defs
    · exact .define isInst writes
    · exact .pass (ih (Nat.le_of_succ_le inside)) isInst writes

theorem atEnd (reaches : p.DefReaches x b 0) : p.DefReaches x b (p.block b).insts.length :=
  reaches.later (Nat.zero_le _) (Nat.le_refl _)

theorem of_passed {passed : List Inst} (split : (p.block b).insts = passed ++ more)
    (written : ∃ j ∈ passed, x ∈ j.defs) : p.DefReaches x b passed.length := by
  obtain ⟨j, mem, writes⟩ := written
  obtain ⟨n, lt, rfl⟩ := getElem_of_mem mem
  have isInst : (p.block b).insts[n]? = some passed[n] := by
    rw [split, getElem?_append_left lt, getElem?_eq_getElem lt]
  refine (DefReaches.define isInst writes).later lt ?_
  rw [split, length_append]
  exact Nat.le_add_right _ _

theorem atEnd_of_writes (written : ∃ j ∈ (p.block b).insts, x ∈ j.defs) :
    p.DefReaches x b (p.block b).insts.length :=
  of_passed (append_nil _).symm written

/-! ## Along paths -/

theorem along {seen : List BlockId} (path : p.Path seen b) (mem : c ∈ seen)
    (reaches : p.DefReaches x c (p.block c).insts.length) :
    p.DefReaches x b (p.block b).insts.length := by
  induction path with
  | start => exact mem_singleton.mp mem ▸ reaches
  | extend path edge ih =>
    rcases mem_cons.mp mem with rfl | earlier
    · exact reaches
    · exact ((ih earlier).follow edge).atEnd

/-- A definition that reaches the end of a block reaches the blocks that it strictly dominates. -/
theorem under (ordered : p.Ordered) (lt : b < p.blocks.size) (strictly : p.StrictlyDominates c b)
    (reaches : p.DefReaches x c (p.block c).insts.length) : p.DefReaches x b 0 := by
  obtain ⟨seen, path⟩ := ordered.exists_path lt
  have visited := strictly.1 seen path
  cases path with
  | start => exact absurd (mem_singleton.mp visited) strictly.2
  | extend path edge =>
    have earlier := (mem_cons.mp visited).resolve_left strictly.2
    exact (reaches.along path earlier).follow edge

/-- Where definitions may meet, one arrives. -/
theorem of_iteratedFrontier (linked : p.Linked) (ordered : p.Ordered) {y : BlockId}
    (meets : p.InIteratedFrontier (fun c => ∃ i ∈ (p.block c).insts, x ∈ i.defs) y) :
    p.DefReaches x y 0 := by
  have cross : ∀ {c y}, p.InFrontier c y → p.DefReaches x c (p.block c).insts.length →
      p.DefReaches x y 0 := by
    rintro c y ⟨⟨q, isPred, dominates⟩, -⟩ reaches
    have edge := (linked.inverse q y).mp isPred
    obtain ⟨seen, path⟩ := ordered.exists_path (lt_size_of_mem_succs edge)
    exact (reaches.along path (dominates seen path)).follow edge
  induction meets with
  | base writes ends => exact cross ends (atEnd_of_writes writes)
  | step _ ends ih => exact cross ends ih.atEnd

end Procedure.DefReaches

namespace Renaming

variable {origin : VarId → Origin} {before mid after : VersionMap} {x d : VarId}
  {insts new : List Inst}
variable {i i' : Inst}

/-! ## Along a block -/

private theorem Renames.made (renames : Renames origin before i i' after)
    (isDefined : definedIn origin after x = some d) :
    definedIn origin before x = some d ∨ d ∈ i'.defs := by
  cases renames with
  | read extends_ => exact .inl (extends_.definedIn_eq ▸ isDefined)
  | @define mid y e extends_ _ defs isOrigin =>
    rw [definedIn_define isOrigin, extends_.definedIn_eq, VersionMap.define] at isDefined
    split at isDefined
    · right
      rw [Inst.defs_mapDefs, Inst.defs_mapUses, defs]
      exact mem_singleton.mpr (Option.some.inj isDefined).symm
    · exact .inl isDefined

section

variable (renames : RenamesAll origin before insts new after)

include renames

theorem RenamesAll.made (isDefined : definedIn origin after x = some d) :
    definedIn origin before x = some d ∨ d ∈ new.flatMap Inst.defs := by
  induction renames with
  | nil => exact .inl isDefined
  | cons first more ih =>
    rw [flatMap_cons, mem_append]
    rcases ih isDefined with early | late
    · exact (first.made early).imp_right .inl
    · exact .inr (.inr late)

private theorem RenamesAll.exists_made (written : ∃ i ∈ insts, x ∈ i.defs) :
    ∃ d, definedIn origin after x = some d ∧ d ∈ new.flatMap Inst.defs := by
  induction renames with
  | nil => simp at written
  | @cons before mid after i i' rest rest' first more ih =>
    rw [flatMap_cons]
    by_cases later : ∃ j ∈ rest, x ∈ j.defs
    · obtain ⟨d, isDefined, mem⟩ := ih later
      exact ⟨d, isDefined, mem_append_right _ mem⟩
    have writes : x ∈ i.defs := by
      obtain ⟨j, mem, writes⟩ := written
      rcases mem_cons.mp mem with rfl | inRest
      · exact writes
      · exact absurd ⟨j, inRest, writes⟩ later
    cases first with
    | read _ _ defs => simp [defs] at writes
    | @define mid y d extends_ _ defs isOrigin =>
      obtain rfl : x = y := by simpa [defs] using writes
      refine ⟨d, ?_, mem_append_left _ ?_⟩
      · rw [more.definedIn_eq fun j mem writes => later ⟨j, mem, writes⟩,
          definedIn_define isOrigin, VersionMap.define, if_pos rfl]
      · rw [Inst.defs_mapDefs, Inst.defs_mapUses, defs]
        exact mem_singleton_self d

/-- What instructions write, or what had a version other than the given ones, has such a version
after them. -/
theorem RenamesAll.exists_other {args : List VarId} (fresh : ∀ e ∈ new.flatMap Inst.defs, e ∉ args)
    (arrives : (∃ i ∈ insts, x ∈ i.defs) ∨ ∃ e, definedIn origin before x = some e ∧ e ∉ args) :
    ∃ e, definedIn origin after x = some e ∧ e ∉ args := by
  by_cases written : ∃ i ∈ insts, x ∈ i.defs
  · obtain ⟨e, isDefined, made⟩ := renames.exists_made written
    exact ⟨e, isDefined, fresh e made⟩
  · rw [renames.definedIn_eq fun i mem writes => written ⟨i, mem, writes⟩]
    exact arrives.resolve_left written

private theorem RenamesAll.isDefined_defs :
    ∀ d ∈ new.flatMap Inst.defs, (origin d).isDefined = true := by
  induction renames with
  | nil => simp
  | cons first more ih =>
    intro d mem
    rw [flatMap_cons, mem_append] at mem
    refine mem.elim (fun now => ?_) (ih d)
    cases first with
    | read _ _ defs => simp [Inst.defs_mapUses, defs] at now
    | define _ _ defs isOrigin =>
      rw [Inst.defs_mapDefs, Inst.defs_mapUses, defs] at now
      rw [mem_singleton.mp now, isOrigin]

end

/-- An instruction reads the versions that are current, and versions that nothing defines of the
variables without one. -/
theorem Renames.exists_reading (renames : Renames origin before i i' after) :
    ∃ f : VarId → VarId, i'.uses = i.uses.map f ∧
      ∀ x ∈ i.uses, definedIn origin before x = some (f x) ∨
        (definedIn origin before x = none ∧ (origin (f x)).isDefined = false) := by
  have reading : ∀ {mid : VersionMap}, Extends origin i.uses before mid →
      (∀ x ∈ i.uses, (mid x).isSome = true) →
      ∀ x ∈ i.uses, definedIn origin before x = some (mid.reading x) ∨
          (definedIn origin before x = none ∧ (origin (mid.reading x)).isDefined = false) := by
    intro mid extends_ present x read
    obtain ⟨d, isVersion⟩ := Option.isSome_iff_exists.mp (present x read)
    rw [← extends_.definedIn_eq, VersionMap.reading, definedIn, isVersion, Option.filter_some,
      Option.getD_some]
    cases (origin d).isDefined with
    | true => exact .inl rfl
    | false => exact .inr ⟨rfl, rfl⟩
  cases renames with
  | read extends_ present => exact ⟨_, Inst.uses_mapUses i _, reading extends_ present⟩
  | define extends_ present =>
    exact ⟨_, (Inst.uses_mapDefs _ _).trans (Inst.uses_mapUses i _), reading extends_ present⟩

/-- Every renamed instruction stands for one at the same place. -/
theorem RenamesAll.split_new {more' : List Inst}
    (renames : RenamesAll origin before insts (passed' ++ i' :: more') after) :
    ∃ passed i more here there, insts = passed ++ i :: more ∧ passed.length = passed'.length ∧
      RenamesAll origin before passed passed' here ∧ Renames origin here i i' there := by
  induction passed' generalizing before insts with
  | nil =>
    cases renames with
    | cons first more => exact ⟨[], _, _, _, _, rfl, rfl, .nil, first⟩
  | cons j' passed' ih =>
    cases renames with
    | cons first more =>
      obtain ⟨passed, i, tail, here, there, rfl, length, early, now⟩ := ih more
      exact ⟨_ :: passed, i, tail, here, there, rfl, by simp [length], .cons first early, now⟩

/-! ## Across blocks -/

namespace Constructed

variable {p q : Procedure} {t : DomTree} {vars : BlockId → List VarId} {ends : BlockId → VersionMap}
  {pairs : BlockId → List (VarId × VarId)} {bodies : BlockId → List Inst} {b : BlockId}

section

variable (ssa : Constructed p q t vars origin ends pairs bodies)

include ssa

theorem defs_block (lt : b < p.blocks.size) : (q.block b).insts.flatMap Inst.defs =
      (pairs b).map Prod.snd ++ (bodies b).flatMap Inst.defs := by
  rw [ssa.block b lt, flatMap_append, phisWith_eq, flatMap_defs_phis, nodesWith, map_map]
  rfl

theorem isDefined_of_mem (mem : d ∈ q.insts.flatMap Inst.defs) : (origin d).isDefined = true := by
  rw [insts_eq_flatMap, flatMap_assoc] at mem
  obtain ⟨b, lt, inBlock⟩ := mem_flatMap.mp mem
  rw [mem_blockIds, ssa.size] at lt
  obtain ⟨-, origins, body⟩ := ssa.renamed b lt
  rw [ssa.defs_block lt, mem_append] at inBlock
  rcases inBlock with isPhi | inBody
  · obtain ⟨⟨x, d⟩, isPair, rfl⟩ := mem_map.mp isPhi
    rw [origins _ isPair]
  · exact body.isDefined_defs d inBody

theorem made_body (lt : b < p.blocks.size)
    (isDefined : definedIn origin (bodyStart p t ends pairs b) x = some d) :
    definedIn origin (startOf p t ends b) x = some d ∨ (x, d) ∈ pairs b := by
  rcases ssa.definedIn_body lt x with ⟨-, same⟩ | ⟨e, mem, isLast⟩
  · exact .inl (same ▸ isDefined)
  · exact .inr (Option.some.inj (isLast.symm.trans isDefined) ▸ mem)

theorem mem_defs (lt : b < p.blocks.size) (mem : d ∈ (q.block b).insts.flatMap Inst.defs) :
    d ∈ q.insts.flatMap Inst.defs := by
  rw [insts_eq_flatMap, flatMap_assoc]
  exact mem_flatMap.mpr ⟨b, mem_blockIds.mpr (ssa.size ▸ lt), mem⟩

/-- A version that is current at the end of a block is an argument or defined in a block that
dominates this one, if that is so at its start. -/
theorem dominating_end (lt : b < p.blocks.size)
    (start : ∀ e, definedIn origin (startOf p t ends b) x = some e → e ∈ p.args ∨
      ∃ c, p.StrictlyDominates c b ∧ e ∈ (q.block c).insts.flatMap Inst.defs)
    (isDefined : definedIn origin (ends b) x = some d) :
    d ∈ p.args ∨ ∃ c, p.Dominates c b ∧ d ∈ (q.block c).insts.flatMap Inst.defs := by
  have here : ∀ e, e ∈ (pairs b).map Prod.snd ∨ e ∈ (bodies b).flatMap Inst.defs →
      ∃ c, p.Dominates c b ∧ e ∈ (q.block c).insts.flatMap Inst.defs := fun e made =>
    ⟨b, .refl b, by rw [ssa.defs_block lt]; exact mem_append.mpr made⟩
  rcases (ssa.renamed b lt).steps.made isDefined with early | inBody
  · rcases ssa.made_body lt early with atStart | isPair
    · exact (start d atStart).imp_right fun ⟨c, strictly, defines⟩ => ⟨c, strictly.1, defines⟩
    · exact .inr (here d (.inl (mem_map.mpr ⟨_, isPair, rfl⟩)))
  · exact .inr (here d (.inr inBody))

end

section Points

variable (ssa : Constructed p q t vars origin ends pairs bodies) (input : Input p t vars)
include ssa input

theorem dominating_start (lt : b < p.blocks.size)
    (isDefined : definedIn origin (startOf p t ends b) x = some d) :
    d ∈ p.args ∨ ∃ c, p.StrictlyDominates c b ∧ d ∈ (q.block c).insts.flatMap Inst.defs := by
  have above := input.tree.above_entry lt
  induction above generalizing d with
  | refl =>
    rw [startOf_entry input.tree] at isDefined
    have isVersion := (definedIn_eq_some.mp isDefined).1
    by_cases isArg : p.args.contains x = true
    · rw [initial, if_pos isArg, Option.some.injEq] at isVersion
      exact .inl (isVersion ▸ List.contains_iff_mem.mp isArg)
    · rw [initial, if_neg isArg] at isVersion
      cases isVersion
  | @up b parent isParent other above ih =>
    have inside := (input.tree.parent_lt isParent).1
    have strictly := input.tree.strictlyDominates_parent isParent
    rw [startOf, isParent] at isDefined
    refine (ssa.dominating_end inside (fun e => ih inside) isDefined).imp_right ?_
    rintro ⟨c, dominates, defines⟩
    refine ⟨c, ⟨dominates.trans strictly.1, ?_⟩, defines⟩
    -- The block itself does not dominate its parent.
    rintro rfl
    have up := (input.tree.above parent inside c).mpr dominates
    exact strictly.2 (input.tree.above_antisymm (.up isParent other .refl) up)

private theorem arg_ne_none (isArg : x ∈ p.args) (lt : b < p.blocks.size) :
    definedIn origin (startOf p t ends b) x ≠ none := by
  have above := input.tree.above_entry lt
  induction above with
  | refl =>
    intro none
    rw [startOf_entry input.tree, definedIn, initial, if_pos (List.contains_iff_mem.mpr isArg),
      Option.filter_some, ssa.own x (input.arg_lt x isArg)] at none
    simp [isArg] at none
  | @up b parent isParent other above ih =>
    have inside := (input.tree.parent_lt isParent).1
    rw [startOf, isParent]
    exact fun none => ih inside (ssa.undefined_body inside
      ((ssa.renamed parent inside).steps.undefined none).1).1

variable (phiVars : p.PhiVars (.ofTree p t) (exposed p) vars)
include phiVars

/-- Where the current version is not an argument, a definition arrives, if that is so at the start
of the block. -/
theorem reaches_of_defined (lt : b < p.blocks.size) {passed : List Inst}
    (split : (p.block b).insts = passed ++ more)
    (steps : RenamesAll origin (bodyStart p t ends pairs b) passed passed' here)
    (start : ∀ e, definedIn origin (startOf p t ends b) x = some e → e ∉ p.args →
      p.DefReaches x b 0)
    (isDefined : definedIn origin here x = some d) (noArg : d ∉ p.args) :
    p.DefReaches x b passed.length := by
  by_cases written : ∃ j ∈ passed, x ∈ j.defs
  · exact .of_passed split written
  have atStart : p.DefReaches x b 0 := by
    by_cases hasPhi : x ∈ vars b
    · refine .of_iteratedFrontier input.wf.linked input.ordered ?_
      simp only [← mem_writersOf]
      exact (Frontiers.contains_iterated input.wf.linked input.ordered input.tree
        input.wf.preds_entry _ b).mp ((phiVars.mem b x).mp hasPhi).2
    · rw [steps.definedIn_eq fun j mem writes => written ⟨j, mem, writes⟩] at isDefined
      rcases ssa.made_body lt isDefined with atStart | isPair
      · exact start d atStart noArg
      · exact absurd (ssa.mem_vars lt isPair) hasPhi
  refine atStart.later (Nat.zero_le _) ?_
  rw [split, length_append]
  exact Nat.le_add_right _ _

private theorem reaches_start (lt : b < p.blocks.size)
    (isDefined : definedIn origin (startOf p t ends b) x = some d) (noArg : d ∉ p.args) :
    p.DefReaches x b 0 := by
  have above := input.tree.above_entry lt
  induction above generalizing d with
  | refl =>
    rcases ssa.dominating_start input lt isDefined with isArg | ⟨c, strictly, -⟩
    · exact absurd isArg noArg
    · exact absurd (mem_singleton.mp (strictly.1 _ .start)) strictly.2
  | @up b parent isParent other above ih =>
    have inside := (input.tree.parent_lt isParent).1
    rw [startOf, isParent] at isDefined
    have atEnd := ssa.reaches_of_defined input phiVars inside (append_nil _).symm
      (ssa.renamed parent inside).steps
      (fun e isStart noArg => ih inside isStart noArg) isDefined noArg
    exact atEnd.under input.ordered lt (input.tree.strictlyDominates_parent isParent)

variable (fresh : ∀ c < p.blocks.size, ∀ e ∈ (q.block c).insts.flatMap Inst.defs, e ∉ p.args)
include fresh

/-- What arrives at a point was written in the block, or the version current at the start of its
body is no argument. The induction follows the way that the definition takes. -/
theorem defined_of_reaches (isExposed : x ∈ exposed p) {n : Nat} (reaches : p.DefReaches x b n) :
    (∃ j ∈ (p.block b).insts.take n, x ∈ j.defs) ∨
      ∃ e, definedIn origin (bodyStart p t ends pairs b) x = some e ∧ e ∉ p.args := by
  induction reaches with
  | @define b n i isInst writes =>
    refine .inl ⟨i, ?_, writes⟩
    rw [take_add_one, isInst]
    exact mem_append_right _ (by simp)
  | @pass b n i _ isInst other ih =>
    refine ih.imp_left fun ⟨j, mem, writes⟩ => ⟨j, ?_, writes⟩
    exact take_subset_take_left _ (Nat.le_succ n) mem
  | @follow b s _ edge ih =>
    have lt := (input.wf.inside b s edge).1
    rcases ssa.definedIn_body lt x with ⟨noPhi, same⟩ | ⟨e, isPair, isLast⟩
    · rw [same, ssa.definedIn_edge input.wf input.ordered input.tree phiVars isExposed edge noPhi]
      have inside := lt_size_of_mem_succs edge
      rw [take_length] at ih
      refine .inr ((ssa.renamed b inside).steps.exists_other (fun e made => fresh b inside e ?_) ih)
      rw [ssa.defs_block inside]
      exact mem_append_right _ made
    · refine .inr ⟨e, isLast, fresh s lt e ?_⟩
      rw [ssa.defs_block lt]
      exact mem_append_left _ (mem_map.mpr ⟨_, isPair, rfl⟩)

/-- A definition of a variable that may be read at a point arrives there exactly if the version
current there is defined and not an argument. -/
theorem reaches_iff (lt : b < p.blocks.size) {passed : List Inst}
    (split : (p.block b).insts = passed ++ more)
    (steps : RenamesAll origin (bodyStart p t ends pairs b) passed passed' here)
    (part : passed'.flatMap Inst.defs ⊆ (bodies b).flatMap Inst.defs)
    (known : x ∈ exposed p ∨ ∃ j ∈ passed, x ∈ j.defs) :
    p.DefReaches x b passed.length ↔ ∃ e, definedIn origin here x = some e ∧ e ∉ p.args := by
  constructor
  · intro reaches
    refine steps.exists_other (fun e made => fresh b lt e ?_) ?_
    · rw [ssa.defs_block lt]
      exact mem_append_right _ (part made)
    by_cases written : ∃ j ∈ passed, x ∈ j.defs
    · exact .inl written
    · have arrives := ssa.defined_of_reaches input phiVars fresh
        (known.resolve_right written) reaches
      rw [split, take_left] at arrives
      exact arrives
  · rintro ⟨e, isDefined, noArg⟩
    exact ssa.reaches_of_defined input phiVars lt split steps
      (fun e => ssa.reaches_start input phiVars lt) isDefined noArg

end Points

private theorem split_body (ssa : Constructed p q t vars origin ends pairs bodies)
    (input : Input p t vars) (lt : b < p.blocks.size) {passed : List Inst} {i : Inst}
    (split : (q.block b).insts = passed ++ i :: more) (noPhi : i.isPhi = false) :
    ∃ passed', passed = phisWith (p.block b).preds ends (pairs b) ++ passed' ∧
      (q.block b).phis.length + passed'.length = passed.length ∧
      bodies b = passed' ++ i :: more := by
  have phis : (q.block b).phis.length = (phisWith (p.block b).preds ends (pairs b)).length := by
    rw [(ssa.phis_body input lt).1, phisWith_eq, length_map]
  rw [ssa.block b lt] at split
  rcases append_eq_append_iff.mp split with ⟨front, rfl, isBody⟩ | ⟨front, isPhis, isBody⟩
  · exact ⟨front, rfl, by rw [phis, length_append], isBody⟩
  · cases front with
    | nil =>
      rw [append_nil] at isPhis
      exact ⟨[], by simp [isPhis], by simp [phis, isPhis], isBody.symm⟩
    | cons first rest =>
      have isFirst : i = first := (List.cons.inj isBody).1
      have mem : i ∈ phisWith (p.block b).preds ends (pairs b) := by
        rw [isPhis, isFirst]
        exact mem_append_right _ mem_cons_self
      obtain ⟨pair, -, rfl⟩ := mem_map.mp mem
      cases noPhi

section Reads

variable (ssa : Constructed p q t vars origin ends pairs bodies) (input : Input p t vars)
  (phiVars : p.PhiVars (.ofTree p t) (exposed p) vars) (single : q.SingleAssignment)
include ssa

include input

theorem not_mem_of_undefined (undefined : (origin u).isDefined = false) :
    u ∉ p.args ∧ u ∉ q.insts.flatMap Inst.defs := by
  constructor
  · intro isArg
    rw [ssa.own u (input.arg_lt u isArg), List.contains_iff_mem.mpr isArg] at undefined
    cases undefined
  · intro mem
    rw [ssa.isDefined_of_mem mem] at undefined
    cases undefined

private theorem defined_ahead (lt : b < p.blocks.size) {passed : List Inst}
    (steps : RenamesAll origin (bodyStart p t ends pairs b) passed passed' here)
    (isDefined : definedIn origin here x = some d) (noArg : d ∉ p.args) :
    d ∈ (phisWith (p.block b).preds ends (pairs b) ++ passed').flatMap Inst.defs ∨
      ∃ c, p.StrictlyDominates c b ∧ d ∈ (q.block c).insts.flatMap Inst.defs := by
  rw [flatMap_append, phisWith_eq, flatMap_defs_phis, mem_append]
  rcases steps.made isDefined with early | now
  · rcases ssa.made_body lt early with atStart | isPair
    · exact .inr ((ssa.dominating_start input lt atStart).resolve_left noArg)
    · refine .inl (.inl ?_)
      rw [nodesWith, map_map]
      exact mem_map.mpr ⟨_, isPair, rfl⟩
  · exact .inl (.inr now)

include phiVars single

/-- What an operand stands for, where its variable is defined, and when it is not. -/
theorem operand (lt : b < p.blocks.size) {passed : List Inst} {i : Inst}
    (split : (q.block b).insts = passed ++ i :: more) (noPhi : i.isPhi = false) {k : Nat}
    (isOperand : i.uses[k]? = some u) :
    ∃ n j x, (q.block b).phis.length + n = passed.length ∧ (p.block b).insts[n]? = some j ∧
      j.uses[k]? = some x ∧ (u ∈ p.args ∨ u ∈ passed.flatMap Inst.defs ∨
        (∃ c, p.StrictlyDominates c b ∧ u ∈ (q.block c).insts.flatMap Inst.defs) ∨
        u ∉ q.insts.flatMap Inst.defs) ∧
      (u ∉ q.insts.flatMap Inst.defs ↔ ¬p.DefReaches x b n) ∧
      (u ∈ p.args ↔ x ∈ p.args ∧ ¬p.DefReaches x b n) := by
  obtain ⟨passed', rfl, position, isBody⟩ := ssa.split_body input lt split noPhi
  have body := (ssa.renamed b lt).steps
  rw [isBody] at body
  obtain ⟨front, j, rest, here, there, isSource, length, steps, renames⟩ := body.split_new
  obtain ⟨f, isUses, reading⟩ := renames.exists_reading
  rw [isUses, getElem?_map] at isOperand
  obtain ⟨x, isRead, rfl⟩ := Option.map_eq_some_iff.mp isOperand
  have read := mem_of_getElem? isRead
  have fresh : ∀ c < p.blocks.size, ∀ e ∈ (q.block c).insts.flatMap Inst.defs, e ∉ p.args :=
    fun c inside e mem => ssa.args_eq ▸ single.args e (ssa.mem_defs inside mem)
  have part : passed'.flatMap Inst.defs ⊆ (bodies b).flatMap Inst.defs := by
    rw [isBody, flatMap_append]
    exact subset_append_left _ _
  have reaches := ssa.reaches_iff input phiVars fresh lt isSource steps part
    (input.mem_exposed isSource read)
  refine ⟨front.length, j, x, length ▸ position, by rw [isSource]; simp, isRead, ?_⟩
  rcases reading x read with isDefined | ⟨none, undefined⟩
  · have arrives : p.DefReaches x b front.length ↔ f x ∉ p.args := by
      rw [reaches]
      exact ⟨fun ⟨e, isOther, noArg⟩ => Option.some.inj (isDefined.symm.trans isOther) ▸ noArg,
        fun noArg => ⟨f x, isDefined, noArg⟩⟩
    have source : (origin (f x)).source = x := steps.faithful
      (ssa.faithful_body input lt) x _
      (definedIn_eq_some.mp isDefined).1
    by_cases isArg : f x ∈ p.args
    · have undefined : f x ∉ q.insts.flatMap Inst.defs := fun mem =>
        single.args _ mem (ssa.args_eq.symm ▸ isArg)
      rw [ssa.own _ (input.arg_lt _ isArg)] at source
      rw [arrives]
      simp only [isArg, undefined, not_true, not_false_iff, true_or, and_true, true_and, true_iff]
      exact source ▸ isArg
    · rw [arrives]
      have home := ssa.defined_ahead input lt steps isDefined isArg
      have isMember : f x ∈ q.insts.flatMap Inst.defs := by
        rcases home with now | ⟨c, strictly, defines⟩
        · refine ssa.mem_defs lt ?_
          rw [split, flatMap_append]
          exact mem_append_left _ now
        · have above := (input.tree.above b lt c).mpr strictly.1
          exact ssa.mem_defs (input.tree.above_lt above lt) defines
      refine ⟨.inr (home.imp_right .inl), ?_, ?_⟩ <;> simp [isArg, isMember]
  · obtain ⟨noArg, noDef⟩ := ssa.not_mem_of_undefined input undefined
    have absent : ¬p.DefReaches x b front.length := by
      rw [reaches, none]
      rintro ⟨e, isDefined, -⟩
      cases isDefined
    have otherSource : x ∉ p.args := fun isArg => ssa.arg_ne_none input isArg lt
      (ssa.undefined_body lt (steps.undefined none).1).1
    exact ⟨.inr (.inr (.inr noDef)), by simp [noDef, absent], by simp [noArg, otherSource]⟩

omit phiVars single

/-- What a phi joins comes from a block that dominates the predecessor. -/
theorem phiArgument (lt : b < p.blocks.size) {phi : Phi}
    (mem : Inst.phi phi ∈ (q.block b).insts) {slot : Nat} {pred : BlockId} {a : VarId}
    (isPred : (q.block b).preds[slot]? = some pred) (isArgument : phi.args[slot]? = some (some a)) :
    a ∈ p.args ∨ a ∉ q.insts.flatMap Inst.defs ∨ ∃ c, p.Dominates c pred ∧
      a ∈ (q.block c).insts.flatMap Inst.defs := by
  have noPhi := (ssa.phis_body input lt)
  rw [Block.insts_eq, noPhi.1, noPhi.2, mem_append] at mem
  have notInBody : Inst.phi phi ∉ bodies b := fun inBody => by
    cases ssa.noPhi input lt _ inBody
  obtain ⟨node, isNode, same⟩ := mem_map.mp (mem.resolve_right notInBody)
  obtain rfl := Inst.phi.inj same
  obtain ⟨pair, -, rfl⟩ := mem_map.mp isNode
  rw [ssa.block b lt] at isPred
  have isVersion : ends pred pair.1 = some a := by
    simpa [getElem?_map, isPred] using isArgument
  have inside : pred < p.blocks.size := by
    have edge := (input.wf.linked.inverse pred b).mp (mem_of_getElem? isPred)
    exact lt_size_of_mem_succs edge
  cases made : (origin a).isDefined with
  | true =>
    have isDefined := definedIn_eq_some.mpr ⟨isVersion, made⟩
    exact (ssa.dominating_end inside
      (fun e => ssa.dominating_start input inside) isDefined).imp_right .inr
  | false => exact .inr (.inl (ssa.not_mem_of_undefined input made).2)

end Reads

end Constructed

end Renaming

/-- Single-assignment form is strict: definitions are unique, and what is read is an argument, is
defined ahead of the read, in its block or in one that strictly dominates it, or is not defined at
all. It is not defined exactly where no definition of the variable that was read before reaches the
read along any path; it is then an argument exactly if that variable was one. What a phi joins is an
argument, has no definition, or is defined in a block that dominates the predecessor. -/
theorem Procedure.strict_constructSsa {text : String} {program : Program} {p q r : Procedure}
    {t : DomTree} {count : Nat} (read : Program.ofText text = .ok program)
    (mem : p ∈ program.procedures) (graph : p.buildFlowGraph = .ok q)
    (tree : DomTree.ofProcedure q = .ok t) (ssa : q.constructSsa t (.ofTree q t) = (r, count)) :
    ((r.insts.flatMap Inst.defs).Nodup ∧ ∀ d ∈ r.insts.flatMap Inst.defs, d ∉ r.args) ∧
    (∀ b (m : Nat) i, (r.block b).insts[m]? = some i → i.isPhi = false →
      ∀ (k : Nat) u, i.uses[k]? = some u →
        ∃ n j x, (r.block b).phis.length + n = m ∧ (q.block b).insts[n]? = some j ∧ j.uses[k]? =
          some x ∧ (u ∈ r.args ∨ u ∈ ((r.block b).insts.take m).flatMap Inst.defs ∨
            (∃ c, r.StrictlyDominates c b ∧ u ∈ (r.block c).insts.flatMap Inst.defs) ∨
            u ∉ r.insts.flatMap Inst.defs) ∧
          (u ∉ r.insts.flatMap Inst.defs ↔ ¬q.DefReaches x b n) ∧
          (u ∈ r.args ↔ x ∈ q.args ∧ ¬q.DefReaches x b n)) ∧
    (∀ b phi, Inst.phi phi ∈ (r.block b).insts → ∀ (slot : Nat) pred a,
      (r.block b).preds[slot]? = some pred → phi.args[slot]? = some (some a) →
        a ∈ r.args ∨ a ∉ r.insts.flatMap Inst.defs ∨
          ∃ c, r.Dominates c pred ∧ a ∈ (r.block c).insts.flatMap Inst.defs) := by
  have linear := Program.linear_of_ofText read p mem
  have built := built_buildFlowGraph linear graph
  have dom := DomTree.exact_ofProcedure built.wf.linked built.ordered tree
  obtain ⟨vars, origin, ends, pairs, bodies, input, made, phiVars⟩ :=
    constructed_constructSsa linear built dom
  have single := singleAssignment_constructSsa linear built dom
  have isResult : (q.constructSsa t (.ofTree q t)).1 = r := by rw [ssa]
  rw [isResult] at made single
  have lt : ∀ {b i}, i ∈ (r.block b).insts → b < q.blocks.size := fun inBlock =>
    made.size ▸ lt_size_of_mem_insts inBlock
  have same := made.sameGraph.toSameEdges
  refine ⟨⟨single.nodup, single.args⟩, ?_, ?_⟩
  all_goals simp only [StrictlyDominates, same.dominates, made.args_eq]
  · intro b m i isInst noPhi k u isOperand
    obtain ⟨inside, isHere⟩ := List.getElem?_eq_some_iff.mp isInst
    have split : (r.block b).insts = (r.block b).insts.take m ++ i :: (r.block b).insts.drop
        (m + 1) := by
      rw [← isHere, ← drop_eq_getElem_cons inside, take_append_drop]
    have place : ((r.block b).insts.take m).length = m := length_take_of_le (Nat.le_of_lt inside)
    have found := made.operand input phiVars single
      (lt (mem_of_getElem? isInst)) split noPhi isOperand
    rwa [place] at found
  · intro b phi isPhi slot pred a isPred isArgument
    exact made.phiArgument input (lt isPhi) isPhi isPred isArgument

/-- A loop that reads `x`, which nothing assigns, and joins two assignments of `y`. -/
def Program.neverText : String :=
  "Int f(Int a) \x7b Int x; Int y; y = a; P: if (a <= 0) goto Q; y = y + x; a = a - 1; goto P; " ++
    "Q: return y; \x7d"

/-- In the loop, no definition reaches the read of `x`, and one reaches the read of `y`. -/
theorem Procedure.strict_constructSsa_never :
    ∃ q t, Program.firstGraph? Program.neverText = some (q, t) ∧ ¬q.DefReaches 1 3 0 ∧
      q.DefReaches 2 3 0 := by
  have evaluated : ((Program.firstGraph? Program.neverText).map fun graph =>
      let r := (graph.1.constructSsa graph.2 (.ofTree graph.1 graph.2)).1
      ((graph.1.block 3).insts[0]?.map Inst.uses,
        (r.block 3).insts[0]?.map fun i => (i.isPhi, i.uses), r.insts.flatMap Inst.defs)) =
      some (some [2, 1], some (false, [4, 6]), [3, 4, 5, 7, 8]) := by
    decide +kernel
  obtain ⟨⟨q, t⟩, found, evaluated⟩ := Option.map_eq_some_iff.mp evaluated
  simp only [Prod.mk.injEq, Option.map_eq_some_iff] at evaluated
  obtain ⟨⟨j, isSource, reads⟩, ⟨i, isInst, noPhi, uses⟩, defs⟩ := evaluated
  obtain ⟨program, p, read, mem, graph, tree⟩ := Program.exists_of_firstGraph found
  generalize ssa : q.constructSsa t (.ofTree q t) = result at isInst defs
  obtain ⟨r, count⟩ := result
  obtain ⟨-, operand, -⟩ := strict_constructSsa read mem graph tree ssa
  have operandOf : ∀ (k : Nat) u x, [4, 6][k]? = some u → [2, 1][k]? = some x →
      (u ∉ [3, 4, 5, 7, 8] ↔ ¬q.DefReaches x 3 0) := by
    intro k u x isOperand isRead
    obtain ⟨n, j', x', position, isSource', isRead', -, undefined, -⟩ :=
      operand 3 0 i isInst noPhi k u (uses ▸ isOperand)
    obtain rfl : n = 0 := (Nat.add_eq_zero_iff.mp position).2
    obtain rfl : j = j' := Option.some.inj (isSource.symm.trans isSource')
    obtain rfl : x = x' := Option.some.inj (isRead.symm.trans (reads ▸ isRead'))
    rwa [defs] at undefined
  refine ⟨q, t, found, (operandOf 1 6 1 rfl rfl).mp (by decide), ?_⟩
  exact Classical.byContradiction fun absent => (operandOf 0 4 2 rfl rfl).mpr absent (by decide)

end ArmBackend
