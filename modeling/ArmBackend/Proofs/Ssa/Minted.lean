import ArmBackend.Proofs.Ssa.Repaired

/-!
Contract: every fresh variable of a repair has one definition.

A repair mints a variable for each definition that it renames and for each phi that it places, and
puts it in that one place. What it changes later are reads.

Owns: how often a procedure defines a variable, and this count through a whole repair.
-/

namespace ArmBackend

open List Procedure

variable {p q : Procedure} {f : Block → Block}

/-- All variables that a procedure defines, once for each definition. -/
def Procedure.definitions (p : Procedure) : List VarId := p.insts.flatMap Inst.defs

namespace Procedure

theorem mem_definitions {d : VarId} :
    d ∈ p.definitions ↔ ∃ b < p.blocks.size, ∃ i ∈ (p.block b).insts, d ∈ i.defs := by
  unfold definitions insts
  rw [mem_flatMap]
  constructor
  · rintro ⟨i, mem, isDef⟩
    obtain ⟨block, inBlocks, mem⟩ := mem_flatMap.mp mem
    obtain ⟨b, lt, rfl⟩ := getElem_of_mem inBlocks
    rw [Array.length_toList] at lt
    refine ⟨b, lt, i, ?_, isDef⟩
    rwa [block, Array.getD_eq_getD_getElem?, Array.getElem?_eq_getElem lt]
  · rintro ⟨b, lt, i, mem, isDef⟩
    refine ⟨i, mem_flatMap.mpr ⟨p.block b, ?_, mem⟩, isDef⟩
    rw [block, Array.getD_eq_getD_getElem?, Array.getElem?_eq_getElem lt]
    exact Array.getElem_mem_toList lt

theorem definitions_modifyBlock (p : Procedure) {b : BlockId} (lt : b < p.blocks.size) :
    ∃ front back, p.definitions = front ++ ((p.block b).insts.flatMap Inst.defs ++ back) ∧
      ∀ f : Block → Block, (p.modifyBlock b f).definitions =
        front ++ ((f (p.block b)).insts.flatMap Inst.defs ++ back) := by
  let defsOf (blocks : List Block) : List VarId := (blocks.flatMap Block.insts).flatMap Inst.defs
  have inList : b < p.blocks.toList.length := by rwa [Array.length_toList]
  have isBlock : p.blocks.toList[b] = p.block b := by
    rw [block, Array.getD_eq_getD_getElem?, Array.getElem?_eq_getElem lt]
    rfl
  have around (block : Block) :
      defsOf (p.blocks.toList.take b ++ block :: p.blocks.toList.drop (b + 1)) =
      defsOf (p.blocks.toList.take b) ++
      (block.insts.flatMap Inst.defs ++ defsOf (p.blocks.toList.drop (b + 1))) := by
    simp [defsOf]
  refine ⟨defsOf (p.blocks.toList.take b), defsOf (p.blocks.toList.drop (b + 1)), ?_, fun f => ?_⟩
  · rw [← around, ← isBlock, ← drop_eq_getElem_cons inList, take_append_drop]
    rfl
  · rw [← around, ← isBlock]
    unfold definitions insts modifyBlock
    rw [Array.toList_modify, modify_eq_take_cons_drop inList]

theorem definitions_congr (same : q.blocks = p.blocks) : q.definitions = p.definitions := by
  unfold definitions insts
  rw [same]

theorem definitions_modifyBlock_eq (p : Procedure) (b : BlockId)
    (same : (f (p.block b)).insts.map Inst.defs = (p.block b).insts.map Inst.defs) :
    (p.modifyBlock b f).definitions = p.definitions := by
  by_cases lt : b < p.blocks.size
  · obtain ⟨front, back, before, after⟩ := p.definitions_modifyBlock lt
    rw [before, after, flatMap_def, flatMap_def, same]
  · rw [p.modifyBlock_eq_self b fun inside => absurd inside lt]

end Procedure

namespace Repair

variable {b : BlockId} {new old : VarId} {r' : Repair} {vars : List VarId}

/-! ## Renamed definitions -/

theorem defs_redefine {i : Inst} (mem : old ∈ i.defs) :
    (redefine old new i).defs = replaceFirst old new i.defs := by
  have single {j : Inst} {d : VarId} (isDef : j.defs = [d]) (mem : old ∈ j.defs) :
      (j.mapDefs fun v => if v = old then new else v).defs = replaceFirst old new j.defs := by
    rw [Inst.defs_mapDefs, isDef]
    rw [isDef, mem_singleton] at mem
    simp [replaceFirst, mem]
  cases i with
  | prepare defs srcs argCount => rfl
  | assign | binary | negate | load | phi | reload => exact single rfl mem
  | call dst callee args =>
    cases dst with
    | none => cases mem
    | some d => exact single rfl mem
  | _ => cases mem

private theorem count_replaceFirst_new (absent : new ∉ vars)
    (mem : old ∈ vars) : (replaceFirst old new vars).count new = 1 := by
  induction vars with
  | nil => cases mem
  | cons v rest ih =>
    rw [mem_cons, not_or] at absent
    rw [replaceFirst]
    split
    · rw [count_cons_self, count_eq_zero_of_not_mem absent.2]
    · rename_i other
      rw [count_cons_of_ne (Ne.symm absent.1)]
      exact ih absent.2 (mem_of_ne_of_mem (Ne.symm other) mem)

private theorem count_replaceFirst_other {u : VarId} (notOld : u ≠ old) (notNew : u ≠ new)
    (vars : List VarId) : (replaceFirst old new vars).count u = vars.count u := by
  induction vars with
  | nil => rfl
  | cons v rest ih =>
    rw [replaceFirst]
    split
    · rename_i isOld
      rw [count_cons_of_ne (Ne.symm notNew), count_cons_of_ne (isOld ▸ Ne.symm notOld)]
    · rw [count_cons, count_cons, ih]

theorem not_mem_replaceFirst (other : old ≠ new) (single : vars.count old ≤ 1) :
    old ∉ replaceFirst old new vars := by
  induction vars with
  | nil => exact not_mem_nil
  | cons v rest ih =>
    rw [replaceFirst]
    split
    · rename_i isOld
      rw [isOld, count_cons_self] at single
      have absent : old ∉ rest := count_eq_zero.mp (by omega)
      exact not_mem_cons_of_ne_of_not_mem other absent
    · rename_i notOld
      rw [count_cons_of_ne notOld] at single
      exact not_mem_cons_of_ne_of_not_mem (Ne.symm notOld) (ih single)

/-- The definitions of renamed instructions: one for each minted variable, and the others as
before. -/
structure Recounts (insts insts' : List Inst) (r r' : Repair) : Prop where
  var : r'.var = r.var
  grows : r.proc.nextVar ≤ r'.proc.nextVar
  minted : ∀ x, r.proc.nextVar ≤ x → x < r'.proc.nextVar → (insts'.flatMap Inst.defs).count x = 1
  others : ∀ x < r.proc.nextVar, x ≠ r.var →
    (insts'.flatMap Inst.defs).count x = (insts.flatMap Inst.defs).count x
  bound : ∀ d ∈ insts'.flatMap Inst.defs, d < r'.proc.nextVar

private theorem recounts_renameDefs (insts : List Inst) {r : Repair}
    (below : r.var < r.proc.nextVar) (inside : ∀ i ∈ insts, ∀ d ∈ i.defs, d < r.proc.nextVar) :
    Recounts insts ((renameDefs insts).run r).1 r ((renameDefs insts).run r).2 := by
  induction insts generalizing r with
  | nil => exact ⟨rfl, Nat.le_refl _, fun x above inside => absurd inside (Nat.not_lt.mpr above),
      fun _ _ _ => rfl, nofun⟩
  | cons i rest ih =>
    rw [forall_mem_cons] at inside
    rw [renameDefs_cons]
    split
    · rename_i defines
      have minted := nextVar_mint r
      have absent : r.proc.nextVar ∉ i.defs := fun isDef => Nat.lt_irrefl _ (inside.1 _ isDef)
      have absentLater : r.proc.nextVar ∉ rest.flatMap Inst.defs := by
        intro isDef
        obtain ⟨j, mem, isDef⟩ := mem_flatMap.mp isDef
        exact Nat.lt_irrefl _ (inside.2 j mem _ isDef)
      have later := ih (r := r.mint) (minted.symm ▸ Nat.lt_succ_of_lt below)
        fun j mem d isDef => minted.symm ▸ Nat.lt_succ_of_lt (inside.2 j mem d isDef)
      generalize (renameDefs rest).run r.mint = result at later
      have grows : r.proc.nextVar + 1 ≤ result.2.proc.nextVar := minted ▸ later.grows
      have notVar : r.proc.nextVar ≠ r.var := Nat.ne_of_gt below
      refine ⟨later.var, Nat.le_of_succ_le grows, fun x above inside' => ?_,
        fun x isOld other => ?_, fun d isDef => ?_⟩
      · rw [flatMap_cons, count_append, defs_redefine defines]
        by_cases isNew : x = r.proc.nextVar
        · subst isNew
          rw [count_replaceFirst_new absent defines, later.others
            _ (minted.symm ▸ Nat.lt_succ_self _) notVar, count_eq_zero_of_not_mem absentLater]
        · have above' : r.proc.nextVar < x := Nat.lt_of_le_of_ne above (Ne.symm isNew)
          rw [count_replaceFirst_other (Nat.ne_of_gt (Nat.lt_trans below above')) isNew,
            count_eq_zero_of_not_mem fun isDef => Nat.lt_asymm above' (inside.1 x isDef),
            later.minted x (minted.symm ▸ above') inside']
      · rw [flatMap_cons, flatMap_cons, count_append, count_append,
          defs_redefine defines, count_replaceFirst_other other (Nat.ne_of_lt isOld),
          later.others x (minted.symm ▸ Nat.lt_succ_of_lt isOld) other]
      · rw [flatMap_cons, mem_append] at isDef
        rcases isDef with here | isLater
        · rcases mem_defs_redefine here with rfl | isOld
          · exact grows
          · exact Nat.lt_of_lt_of_le (inside.1 d isOld) (Nat.le_of_succ_le grows)
        · exact later.bound d isLater
    · have later := ih below inside.2
      generalize (renameDefs rest).run r = result at later
      refine ⟨later.var, later.grows, fun x above inside' => ?_, fun x isOld other => ?_,
        fun d isDef => ?_⟩
      · rw [flatMap_cons, count_append, later.minted x above inside',
          count_eq_zero_of_not_mem fun isDef => absurd (inside.1 x isDef) (Nat.not_lt.mpr above)]
      · rw [flatMap_cons, flatMap_cons, count_append, count_append, later.others x isOld other]
      · rw [flatMap_cons, mem_append] at isDef
        rcases isDef with here | isLater
        · exact Nat.lt_of_lt_of_le (inside.1 d here) later.grows
        · exact later.bound d isLater

/-! ## The whole repair -/

/-- Every variable from `base` on is defined once. -/
structure Minted (base : VarId) (r : Repair) : Prop where
  below : r.var < base
  above : base ≤ r.proc.nextVar
  once : ∀ x, base ≤ x → x < r.proc.nextVar → r.proc.definitions.count x = 1
  bound : ∀ d ∈ r.proc.definitions, d < r.proc.nextVar

variable {base : VarId} {r : Repair}

private theorem Minted.renameBlock (minted : Minted base r) (lt : b < r.proc.blocks.size) :
    Minted base (r.renameBlock b) := by
  have inside : ∀ i ∈ (r.proc.block b).insts, ∀ d ∈ i.defs, d < r.proc.nextVar :=
    fun i mem d isDef => minted.bound d (mem_definitions.mpr ⟨b, lt, i, mem, isDef⟩)
  have recounts := recounts_renameDefs (r.proc.block b).insts
    (Nat.lt_of_lt_of_le minted.below minted.above) inside
  have same := (renameDefs_spec (r.proc.block b).insts r).2.1
  rw [Repair.renameBlock]
  generalize (renameDefs (r.proc.block b).insts).run r = result at recounts same ⊢
  have lt' : b < result.2.proc.blocks.size := same.blocks ▸ lt
  obtain ⟨front, back, before, after⟩ := result.2.proc.definitions_modifyBlock lt'
  rw [definitions_congr same.blocks, same.block b] at before
  have isResult : (result.2.proc.setInsts b result.1).definitions =
      front ++ (result.1.flatMap Inst.defs ++ back) := after _
  refine ⟨recounts.var ▸ minted.below, Nat.le_trans minted.above recounts.grows,
    fun x fresh inside => ?_, fun d isDef => ?_⟩
  · change x < result.2.proc.nextVar at inside
    rw [isResult, count_append, count_append]
    by_cases isOld : x < r.proc.nextVar
    · have once := minted.once x fresh isOld
      rw [before, count_append, count_append] at once
      rw [recounts.others x isOld (Nat.ne_of_gt (Nat.lt_of_lt_of_le minted.below fresh))]
      exact once
    · have isNew := Nat.le_of_not_lt isOld
      have absent : x ∉ r.proc.definitions := fun isDef => isOld (minted.bound x isDef)
      rw [before, mem_append, mem_append, not_or, not_or] at absent
      rw [recounts.minted x isNew inside, count_eq_zero_of_not_mem absent.1,
        count_eq_zero_of_not_mem absent.2.2]
  · change d < result.2.proc.nextVar
    rw [isResult, mem_append, mem_append] at isDef
    have known {d : VarId} (mem : d ∈ front ∨ d ∈ back) : d < result.2.proc.nextVar := by
      refine Nat.lt_of_lt_of_le (minted.bound d ?_) recounts.grows
      rw [before, mem_append, mem_append]
      exact mem.imp_right .inr
    rcases isDef with inFront | here | inBack
    · exact known (.inl inFront)
    · exact recounts.bound d here
    · exact known (.inr inBack)

private theorem Minted.renameBlocks (minted : Minted base r) {blocks : List BlockId}
    (lt : ∀ b ∈ blocks, b < r.proc.blocks.size) :
    Minted base (blocks.foldl Repair.renameBlock r) := by
  induction blocks generalizing r with
  | nil => exact minted
  | cons b blocks ih =>
    rw [forall_mem_cons] at lt
    have size : (r.renameBlock b).proc.blocks.size = r.proc.blocks.size := by
      rw [Repair.renameBlock]
      exact (size_modifyBlock ..).trans (congrArg _ (renameDefs_spec _ r).2.1.blocks)
    exact ih (minted.renameBlock lt.1) fun c mem => size ▸ lt.2 c mem

private theorem Minted.withPhi (minted : Minted base r) (lt : b < r.proc.blocks.size) :
    Minted base (r.withPhi b) := by
  have count : (r.withPhi b).proc.nextVar = r.proc.nextVar + 1 := nextVar_mint r
  have lt' : b < r.mint.proc.blocks.size := lt
  obtain ⟨front, back, before, after⟩ := r.mint.proc.definitions_modifyBlock lt'
  have isResult : (r.withPhi b).proc.definitions =
      front ++ (r.proc.nextVar :: ((r.mint.proc.block b).insts.flatMap Inst.defs ++ back)) :=
    after _
  have same : r.mint.proc.definitions = r.proc.definitions := definitions_congr rfl
  rw [same] at before
  refine ⟨minted.below, Nat.le_trans minted.above (count ▸ Nat.le_succ _), fun x fresh inside => ?_,
    fun d isDef => ?_⟩
  · rw [isResult, count_append, count_cons, ← Nat.add_assoc, ← count_append, ← before]
    by_cases isNew : r.proc.nextVar = x
    · subst isNew
      rw [count_eq_zero_of_not_mem fun isDef => Nat.lt_irrefl _ (minted.bound _ isDef)]
      simp
    · rw [count] at inside
      rw [minted.once x fresh (Nat.lt_of_le_of_ne (Nat.le_of_lt_succ inside) (Ne.symm isNew))]
      simp [isNew]
  · rw [count]
    rw [isResult, mem_append, mem_cons] at isDef
    have known {d : VarId} (mem : d ∈ front ∨ d ∈ (r.mint.proc.block b).insts.flatMap Inst.defs ++
        back) : d < r.proc.nextVar + 1 := by
      refine Nat.lt_succ_of_lt (minted.bound d ?_)
      rw [before, mem_append]
      exact mem
    rcases isDef with inFront | rfl | later
    · exact known (.inl inFront)
    · exact Nat.lt_succ_self _
    · exact known (.inr later)

/-- Changing what instructions read changes no definition. -/
theorem Minted.modifyBlock (minted : Minted base r) (b : BlockId)
    (same : (f (r.proc.block b)).insts.map Inst.defs = (r.proc.block b).insts.map Inst.defs) :
    Minted base { r with proc := r.proc.modifyBlock b f } := by
  have definitions := r.proc.definitions_modifyBlock_eq b same
  refine ⟨minted.below, minted.above, fun x fresh lt => ?_, fun d isDef => ?_⟩
  · exact (congrArg (List.count x) definitions).trans (minted.once x fresh lt)
  · exact minted.bound d (definitions ▸ isDef)

private theorem defs_setArg (dst : VarId) (slot : Nat) (value : VarId) (i : Inst) :
    (setArg dst slot value i).defs = i.defs := by
  cases i with
  | phi node =>
    rw [setArg]
    split <;> rfl
  | _ => rfl

private theorem map_defs_modify {f : Inst → Inst} (same : ∀ i, (f i).defs = i.defs)
    (insts : List Inst) (k : Nat) : (insts.modify k f).map Inst.defs = insts.map Inst.defs := by
  refine ext_getElem? fun n => ?_
  rw [getElem?_map, getElem?_map, getElem?_modify]
  cases insts[n]? with
  | none => rfl
  | some i =>
    by_cases here : k = n
    · simp [here, same]
    · simp [here]

/-- What resolving a read keeps: fresh variables are defined once, and phis are placed in the blocks
of the procedure. -/
def Steady (base : VarId) (r : Repair) :
    Prop := Minted base r ∧ ∀ b, r.joins.contains b = true → b < r.proc.blocks.size

private theorem Searches.steady {upTo : Nat} {x : VarId}
    (search : Searches r b upTo x r') (steady : Steady base r) : Steady base r' := by
  induction search with
  | here => exact steady
  | root => exact steady
  | above _ _ _ _ ih => exact ih steady
  | @join r b upTo states found noDef isJoin first each next ih =>
    have upTo : ∀ slot ≤ ((r.withPhi b).proc.block b).preds.length, Steady base (states slot) := by
      intro slot
      induction slot with
      | zero =>
        intro _
        rw [first]
        refine ⟨steady.1.withPhi (steady.2 b isJoin), fun c isJoin' => ?_⟩
        exact (size_modifyBlock ..).symm ▸ steady.2 c isJoin'
      | succ slot earlier =>
        intro lt
        have steady := ih slot _ (getElem?_eq_getElem lt) (earlier (Nat.le_of_succ_le lt))
        rw [next slot lt]
        refine ⟨steady.1.modifyBlock b ?_,
          fun c isJoin => (size_modifyBlock ..).symm ▸ steady.2 c isJoin⟩
        rw [map_map]
        exact map_congr_left fun i _ => defs_setArg _ slot _ i
    exact upTo _ (Nat.le_refl _)

private theorem Steady.modifyInst (steady : Steady base r) (b : BlockId) (k : Nat) {f : Inst → Inst}
    (same : ∀ i, (f i).defs = i.defs) :
    Steady base { r with proc := r.proc.modifyBlock b (·.modifyInst k f) } :=
  ⟨steady.1.modifyBlock b (map_defs_modify same _ k), fun c isJoin =>
    (size_modifyBlock ..).symm ▸ steady.2 c isJoin⟩

theorem ResolvesAll.steady (resolves : ResolvesAll r r') (steady : Steady base r) :
    Steady base r' := by
  induction resolves with
  | none => exact steady
  | more first _ ih =>
    refine ih ?_
    cases first with
    | arg _ found =>
      refine (found.steady steady).modifyInst _ _ fun i => ?_
      cases i <;> rfl
    | read _ _ _ found => exact (found.steady steady).modifyInst _ _ fun i => Inst.defs_mapUses ..

theorem steady_start {v : VarId} (t : DomTree) (bounded : q.Bounded) (below : v < q.nextVar) :
    Steady q.nextVar (start q v t (.ofTree q t)) := by
  have first : Minted q.nextVar (ofVar q v t) := by
    refine ⟨below, Nat.le_refl _, fun x fresh inside => absurd inside (Nat.not_lt.mpr fresh),
      fun d isDef => ?_⟩
    obtain ⟨b, lt, i, mem, isDef⟩ := mem_definitions.mp isDef
    exact bounded.defs b lt i mem d isDef
  have renamed : Minted q.nextVar (ofVar q v t).renameDefinitions :=
    first.renameBlocks fun b mem => mem_blockIds.mp (mem_filter.mp mem).1
  refine ⟨⟨renamed.below, renamed.above, renamed.once, renamed.bound⟩, fun b isJoin => ?_⟩
  have size : (start q v t (.ofTree q t)).proc.blocks.size = q.blocks.size :=
    (advances_renameDefinitions _ (uniform_ofVar q v t)).reshaped.graph.size
  rw [size]
  exact ((Frontiers.closure_iterated (q.definers v)).joins b isJoin).1

end Repair

end ArmBackend
