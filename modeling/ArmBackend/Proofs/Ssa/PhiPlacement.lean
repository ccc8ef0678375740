import ArmBackend.Proofs.Ssa.Preservation

/-!
Contract: single-assignment construction joins a variable exactly where its definitions may meet.

The frontier of a block is the boundary of what the block dominates.

Owns: frontiers as a property of paths, their order, that looking a block up by halving finds it
exactly if it is there, iterated frontiers as the least set that is closed under taking frontiers,
and that a block has one phi for a variable if some block reads the variable before writing it and
the block is in that set, and none otherwise.
-/

namespace ArmBackend

open List Procedure

namespace Frontiers

variable {p : Procedure} {t : DomTree}

/-! ## Looking up a block -/

/-- Halving a range of an ascending table finds what stands in that range. -/
theorem search_iff {table : Array BlockId} {mem low high : Nat}
    (ascending : ∀ i j, i < j → j < table.size → table.getD i default < table.getD j default)
    (inside : high ≤ table.size) :
    search table mem low high = true ↔ ∃ i, low ≤ i ∧ i < high ∧ table.getD i default = mem := by
  fun_induction search table mem low high with
  | case1 low high nonempty middle found smaller ih =>
    -- Everything up to the middle is smaller than what is looked for.
    rw [ih inside]
    refine exists_congr fun i => ⟨fun ⟨lower, rest⟩ => ⟨by omega, rest⟩, ?_⟩
    rintro ⟨lower, upper, isMember⟩
    refine ⟨Nat.lt_of_not_le fun notLater => ?_, upper, isMember⟩
    rcases Nat.lt_or_eq_of_le notLater with earlier | rfl
    · exact Nat.lt_asymm smaller (isMember ▸ ascending i middle earlier (by omega))
    · exact Nat.ne_of_lt smaller isMember
  | case2 low high nonempty middle found notSmaller greater ih =>
    rw [ih (by omega)]
    refine exists_congr fun i => ⟨fun ⟨lower, upper, rest⟩ => ⟨lower, by omega, rest⟩, ?_⟩
    rintro ⟨lower, upper, isMember⟩
    refine ⟨lower, Nat.lt_of_not_le fun notEarlier => ?_, isMember⟩
    rcases Nat.lt_or_eq_of_le notEarlier with later | rfl
    · exact Nat.lt_asymm greater (isMember ▸ ascending middle i later (by omega))
    · exact Nat.ne_of_gt greater isMember
  | case3 low high nonempty middle found notSmaller notGreater =>
    have isMember : found = mem :=
      Nat.le_antisymm (Nat.le_of_not_lt notGreater) (Nat.le_of_not_lt notSmaller)
    exact ⟨fun _ => ⟨middle, by omega, by omega, isMember⟩, fun _ => rfl⟩
  | case4 low high empty =>
    refine iff_of_false Bool.false_ne_true ?_
    rintro ⟨i, lower, upper, -⟩
    omega

theorem contains_iff_mem {f : Frontiers} {b mem : BlockId}
    (ascending : (f.frontier b).Pairwise (· < ·)) :
    f.contains b mem = true ↔ mem ∈ f.frontier b := by
  have atIndex : ∀ i (lt : i < (f.frontier b).length),
      (f.frontier b).toArray.getD i default = (f.frontier b)[i] := by
    intro i lt
    simp [Array.getD, lt]
  rw [contains, search_iff _ (Nat.le_refl _), mem_iff_getElem, size_toArray]
  · refine exists_congr fun i => ⟨?_, ?_⟩
    · rintro ⟨-, lt, isMember⟩
      exact ⟨lt, (atIndex i lt).symm.trans isMember⟩
    · rintro ⟨lt, isMember⟩
      exact ⟨Nat.zero_le i, lt, (atIndex i lt).trans isMember⟩
  · intro i j earlier lt
    have insideJ : j < (f.frontier b).length := lt
    rw [atIndex i (Nat.lt_trans earlier insideJ), atIndex j insideJ]
    exact pairwise_iff_getElem.mp ascending i j _ _ earlier

private theorem ascending_frontier (x : BlockId) : ((ofTree p t).frontier x).Pairwise (· < ·) := by
  by_cases lt : x < p.blocks.size
  · rw [frontier_ofTree lt]
    exact (pairwise_lt_range.filter _).filter _
  · rw [frontier_outside (Nat.le_of_not_lt lt)]
    exact .nil

/-! ## Paths -/

theorem mem_frontier_iff (linked : p.Linked) (ordered : p.Ordered) (dom : t.Exact p)
    {x y top : BlockId} (isParent : t.idom? y = some top) :
    y ∈ (ofTree p t).frontier x ↔
      ∃ q ∈ (p.block y).preds, DomTree.Above t.idom? x q ∧ DomTree.Above t.idom? top x ∧
      x ≠ top := by
  refine ⟨between_of_mem_frontier linked dom isParent, ?_⟩
  rintro ⟨q, isPred, above, below, strictly⟩
  have edge := (linked.inverse q y).mp isPred
  by_cases join : 2 ≤ (p.block y).preds.length
  · exact mem_frontier ordered dom linked edge join isParent above below strictly
  · -- The only predecessor of a block is its parent, and no other block is between the two.
    have lone : ∀ d ∈ (p.block y).preds, d = q := by
      obtain ⟨front, back, split⟩ := append_of_mem isPred
      rw [split, length_append, length_cons] at join
      rw [split, eq_nil_of_length_eq_zero (by omega : front.length = 0),
        eq_nil_of_length_eq_zero (by omega : back.length = 0)]
      exact fun d mem => mem_singleton.mp mem
    rw [dom.parent_of_lone ordered linked (dom.lt_of_parent isParent).2 edge lone,
      Option.some.injEq] at isParent
    exact absurd (dom.above_antisymm above (isParent ▸ below)) (isParent ▸ strictly)

/-- A block is in a frontier exactly if dominance ends there: at one of its predecessors it holds,
and it does not hold strictly at the block itself. -/
theorem mem_frontier_iff_dominates (linked : p.Linked) (ordered : p.Ordered) (dom : t.Exact p)
    (noPreds : (p.block entry).preds = []) (x y : BlockId) :
    y ∈ (ofTree p t).frontier x ↔ (∃ q ∈ (p.block y).preds, p.Dominates x q) ∧
      ¬p.StrictlyDominates x y := by
  have insidePred : ∀ q ∈ (p.block y).preds, q < p.blocks.size :=
    fun q isPred => lt_size_of_mem_succs ((linked.inverse q y).mp isPred)
  have dominates : ∀ q ∈ (p.block y).preds, (DomTree.Above t.idom? x q ↔ p.Dominates x q) :=
    fun q isPred => dom.above q (insidePred q isPred) x
  by_cases hasPreds : (p.block y).preds = []
  · rw [hasPreds]
    refine ⟨fun mem => ?_, ?_⟩
    · have join := (lt_of_mem_frontier mem).2
      rw [hasPreds] at join
      exact absurd join (by decide)
    · rintro ⟨⟨q, isPred, -⟩, -⟩
      cases isPred
  · obtain ⟨d, isPred⟩ := exists_mem_of_ne_nil _ hasPreds
    have lt := linked.inside d y ((linked.inverse d y).mp isPred)
    have other : y ≠ entry := by
      rintro rfl
      exact hasPreds noPreds
    obtain ⟨top, isParent, -, later⟩ := dom.parent y lt other
    have notAbove : ¬DomTree.Above t.idom? y top := by
      intro above
      rcases dom.above_later above with same | earlier
      · exact Nat.lt_irrefl _ (same ▸ later)
      · omega
    rw [mem_frontier_iff linked ordered dom isParent]
    constructor
    · rintro ⟨q, isPred, above, below, strictly⟩
      refine ⟨⟨q, isPred, (dominates q isPred).mp above⟩, ?_⟩
      rintro ⟨dominatesY, different⟩
      have upper := ((dom.above y lt x).mpr dominatesY).cases_parent isParent
      exact strictly (dom.above_antisymm (upper.resolve_left different) below)
    · rintro ⟨⟨q, isPred, dominatesQ⟩, notStrictly⟩
      have above := (dominates q isPred).mpr dominatesQ
      have upper := dom.parent_above_pred ((linked.inverse q y).mp isPred) isParent
      -- Above the parent there are only strict dominators.
      have notUpper : ¬DomTree.Above t.idom? x top := by
        intro aboveTop
        refine notStrictly ⟨(dom.above y lt x).mp (.up isParent other aboveTop), ?_⟩
        rintro rfl
        exact notAbove aboveTop
      refine ⟨q, isPred, above, (dom.above_total above upper).resolve_left notUpper, ?_⟩
      rintro rfl
      exact notUpper .refl

/-- The frontiers that are computed are exact, ascending, and can be looked up by halving. -/
theorem boundary_ofProcedure {p : Procedure}
    (inside : ∀ b s, s ∈ (p.block b).succs → s < p.blocks.size)
    (inverse : ∀ b s, b ∈ (p.block s).preds ↔ s ∈ (p.block b).succs)
    (noPreds : (p.block entry).preds = []) (current : p.recomputeOrders = .ok p) :
    ∃ t, DomTree.ofProcedure p = .ok t ∧ ∀ x, (∀ y, y ∈ (ofTree p t).frontier x ↔
        (∃ q ∈ (p.block y).preds, p.Dominates x q) ∧ ¬p.StrictlyDominates x y) ∧
      ((ofTree p t).frontier x).Pairwise (· < ·) ∧
      ∀ y, (ofTree p t).contains x y = true ↔ y ∈ (ofTree p t).frontier x := by
  have looked : ∀ t x y, (ofTree p t).contains x y = true ↔ y ∈ (ofTree p t).frontier x :=
    fun t x y => contains_iff_mem (ascending_frontier x)
  by_cases nonempty : 0 < p.blocks.size
  · have linked : p.Linked := ⟨nonempty, inside, inverse⟩
    have ordered := (ordered_recomputeOrders current nonempty inside).2
    have dom := DomTree.exact_solve linked ordered
    exact ⟨_, DomTree.ofProcedure_eq linked ordered, fun x =>
      ⟨mem_frontier_iff_dominates linked ordered dom noPreds x, ascending_frontier x, looked _ x⟩⟩
  · have empty : p.blocks = #[] := Array.eq_empty_of_size_eq_zero (by omega)
    refine ⟨.empty, DomTree.ofProcedure_of_empty empty current, fun x =>
      ⟨fun y => ?_, ascending_frontier x, looked _ x⟩⟩
    have noBlock : (p.block y).preds = [] := by
      rw [block_of_size_le p (by omega)]
      rfl
    rw [noBlock, frontier_outside (by omega)]
    simp

/-- A loop whose head leads back to itself, around a choice. Both edges of the entry lead to the
head. -/
def nested : Procedure :=
  { Procedure.ofName "nest" .void with
    blocks := #[ { Block.ofInsts 0 [] with direct := some 1, cond := some 1, postIndex := 5 },
      { Block.ofInsts 1 [] with
        preds := [0, 0, 1, 4], direct := some 2, cond := some 1, postIndex := 4 },
      { Block.ofInsts 2 [] with preds := [1], direct := some 3, cond := some 4, postIndex := 3 },
      { Block.ofInsts 3 [] with preds := [2], direct := some 4, postIndex := 2 },
      { Block.ofInsts 4 [] with preds := [2, 3], direct := some 5, cond := some 1, postIndex := 1 },
      { Block.ofInsts 5 [] with preds := [4], postIndex := 0 }]
    preorder := [0, 1, 2, 3, 4, 5]
    postorder := [5, 4, 3, 2, 1, 0]
    rpo := [0, 1, 2, 3, 4, 5] }

theorem boundary_ofProcedure_nested : nested.recomputeOrders = .ok nested ∧ ∃ t,
      DomTree.ofProcedure nested = .ok t ∧ (ofTree nested t).sets = #[[], [1], [1], [4], [1], []] ∧
      ((∃ q ∈ (nested.block 1).preds, nested.Dominates 1 q) ∧ ¬nested.StrictlyDominates 1 1) ∧
      (ofTree nested t).contains 3 4 = true := by
  have current : nested.recomputeOrders = .ok nested := by rfl
  have inside : ∀ b s, s ∈ (nested.block b).succs → s < nested.blocks.size := by
    intro b s edge
    have all : ∀ b < 6, ∀ s ∈ (nested.block b).succs, s < 6 := by decide
    exact all b (lt_size_of_mem_succs edge) s edge
  have inverse : ∀ b s, b ∈ (nested.block s).preds ↔ s ∈ (nested.block b).succs := by
    intro b s
    have forth : ∀ s < 6, ∀ b ∈ (nested.block s).preds, s ∈ (nested.block b).succs := by decide
    have back : ∀ b < 6, ∀ s ∈ (nested.block b).succs, b ∈ (nested.block s).preds := by decide
    refine ⟨fun isPred => forth s (Nat.lt_of_not_le fun outside => ?_) b isPred,
      fun edge => back b (lt_size_of_mem_succs edge) s edge⟩
    rw [block_of_size_le nested outside] at isPred
    cases isPred
  obtain ⟨t, found, dom⟩ := boundary_ofProcedure inside inverse rfl current
  have isTree : DomTree.ofProcedure nested =
      .ok ⟨#[none, some 0, some 1, some 2, some 2, some 4]⟩ := by rfl
  obtain rfl := Except.ok.inj (found.symm.trans isTree)
  exact ⟨current, _, found, by rfl, ((dom 1).1 1).mp (by decide), ((dom 3).2.2 4).mpr (by decide)⟩

end Frontiers

/-- `y` is in the frontier of `x`: `x` dominates a predecessor of `y` but does not strictly dominate
`y` itself. -/
def Procedure.InFrontier (p : Procedure) (x y : BlockId) : Prop :=
  (∃ q ∈ (p.block y).preds, p.Dominates x q) ∧ ¬p.StrictlyDominates x y

/-- The least set of blocks that holds the frontiers of some blocks and of its own members. -/
inductive Procedure.InIteratedFrontier (p : Procedure) (start : BlockId → Prop) : BlockId → Prop
  | base {x y : BlockId} (isStart : start x) (ends : p.InFrontier x y) :
      InIteratedFrontier p start y
  | step {x y : BlockId} (mem : InIteratedFrontier p start x) (ends : p.InFrontier x y) :
      InIteratedFrontier p start y

namespace Frontiers

theorem contains_iterated {p : Procedure} {t : DomTree} (linked : p.Linked) (ordered : p.Ordered)
    (dom : t.Exact p) (noPreds : (p.block entry).preds = []) (blocks : List BlockId) (y : BlockId) :
    ((ofTree p t).iterated blocks).contains y = true ↔ p.InIteratedFrontier (· ∈ blocks) y := by
  have frontier : ∀ x y, y ∈ (ofTree p t).frontier x ↔ p.InFrontier x y :=
    mem_frontier_iff_dominates linked ordered dom noPreds
  have closure := closure_iterated (p := p) (t := t) blocks
  constructor
  · refine closeFrom_induction (p.InIteratedFrontier (· ∈ blocks)) ?_ _ _ _ ?_ ?_
    · exact fun x mem y ends => .step mem ((frontier x y).mp ends)
    · exact fun y isFound => absurd isFound (by simp)
    · exact fun x isStart y ends => .base isStart ((frontier x y).mp ends)
  · intro mem
    induction mem with
    | base isStart ends => exact closure.base _ isStart _ ((frontier _ _).mpr ends)
    | step _ ends ih => exact closure.step _ ih _ ((frontier _ _).mpr ends)

end Frontiers

namespace Procedure

variable {b : BlockId} {p : Procedure} {v : VarId}

theorem mem_writersOf : b ∈ p.writersOf v ↔ ∃ i ∈ (p.block b).insts, v ∈ i.defs := by
  rw [writersOf, mem_filter, mem_blockIds, any_eq_true]
  simp only [List.contains_iff_mem]
  refine ⟨And.right, fun writes => ⟨?_, writes⟩⟩
  obtain ⟨i, mem, -⟩ := writes
  exact lt_size_of_mem_insts mem

theorem InIteratedFrontier.lt_size {start : BlockId → Prop} {y : BlockId}
    (mem : p.InIteratedFrontier start y) : y < p.blocks.size := by
  have inside : ∀ {x}, p.InFrontier x y → y < p.blocks.size := by
    rintro x ⟨⟨q, isPred, -⟩, -⟩
    refine Nat.lt_of_not_le fun beyond => ?_
    rw [block_of_size_le p beyond] at isPred
    cases isPred
  cases mem with
  | base _ ends => exact inside ends
  | step _ ends => exact inside ends

/-- The phis of a block that join definitions of `v`. -/
def phisOf (p : Procedure) (b : BlockId) (v : VarId) : List Phi :=
  ((p.block b).insts.filterMap Inst.phi?).filter (·.source == v)

theorem mem_phisOf {phi : Phi} :
    phi ∈ p.phisOf b v ↔ Inst.phi phi ∈ (p.block b).insts ∧ phi.source = v := by
  rw [phisOf, mem_filter, mem_filterMap, beq_iff_eq]
  refine and_congr_left fun _ => ⟨?_, fun mem => ⟨_, mem, rfl⟩⟩
  rintro ⟨i, mem, isPhi⟩
  cases i with
  | phi node => exact Option.some.inj isPhi ▸ mem
  | _ => cases isPhi

end Procedure

namespace Renaming

variable {p q : Procedure} {t : DomTree} {vars : BlockId → List VarId} {origin : VarId → Origin}
  {ends : BlockId → VersionMap} {pairs : BlockId → List (VarId × VarId)}
  {bodies : BlockId → List Inst}

theorem Input.mem_exposed_iff (input : Input p t vars) {v : VarId} :
    v ∈ exposed p ↔ ∃ b, ReadsFirst v (p.block b).insts := by
  rw [exposed, mem_filter, contains_blockCrossing, input.declared, mem_range]
  refine ⟨And.right, fun reads => ⟨?_, reads⟩⟩
  obtain ⟨b, before, i, after, split, read, -⟩ := reads
  exact (input.inScope b i (split ▸ by simp)).2.uses v read

/-- A block has as many phis for a variable as placement gave it. -/
theorem Constructed.length_phisOf (ssa : Constructed p q t vars origin ends pairs bodies)
    (input : Input p t vars) {b : BlockId} (lt : b < p.blocks.size) (v : VarId) :
    (q.phisOf b v).length = (vars b).count v := by
  have noPhi := ssa.noPhi input lt
  have noneInBody : (bodies b).filterMap Inst.phi? = [] := by
    refine filterMap_eq_nil_iff.mpr fun i mem => ?_
    simpa [Inst.isPhi] using noPhi i mem
  have phis : (q.block b).insts.filterMap Inst.phi? =
      nodesWith (p.block b).preds ends (pairs b) := by
    rw [ssa.block b lt, filterMap_append, noneInBody, append_nil, phisWith_eq, filterMap_map]
    exact filterMap_some
  rw [phisOf, phis, ← countP_eq_length_filter, nodesWith, countP_map,
    ← (ssa.renamed b lt).sources, List.count, countP_map]
  rfl

end Renaming

/-- After single-assignment construction a block has a phi for a variable exactly if some block
reads the variable before writing it and the block is in the iterated frontier of the blocks that
write it. It never has two. -/
theorem Procedure.phisOf_constructSsa {text : String} {program : Program} {p q : Procedure}
    {t : DomTree} (read : Program.ofText text = .ok program) (mem : p ∈ program.procedures)
    (graph : p.buildFlowGraph = .ok q) (tree : DomTree.ofProcedure q = .ok t) (v : VarId)
    (y : BlockId) :
    ((∃ phi, Inst.phi phi ∈ ((q.constructSsa t (.ofTree q t)).1.block y).insts ∧ phi.source = v) ↔
      (∃ b, ReadsFirst v (q.block b).insts) ∧
      q.InIteratedFrontier (fun x => ∃ i ∈ (q.block x).insts, v ∈ i.defs) y) ∧
    ((q.constructSsa t (.ofTree q t)).1.phisOf y v).length ≤ 1 := by
  have linear := Program.linear_of_ofText read p mem
  have built := built_buildFlowGraph linear graph
  have dom := DomTree.exact_ofProcedure built.wf.linked built.ordered tree
  obtain ⟨vars, origin, ends, pairs, bodies, input, ssa, phiVars⟩ :=
    constructed_constructSsa linear built dom
  generalize (q.constructSsa t (.ofTree q t)).1 = r at ssa
  have placed : v ∈ vars y ↔ (∃ b, ReadsFirst v (q.block b).insts) ∧
      q.InIteratedFrontier (fun x => ∃ i ∈ (q.block x).insts, v ∈ i.defs) y := by
    simp only [← mem_writersOf]
    rw [phiVars.mem y v, ← input.mem_exposed_iff]
    exact and_congr_right fun _ => Frontiers.contains_iterated built.wf.linked built.ordered
      dom built.wf.preds_entry _ y
  simp only [← mem_phisOf, ← placed]
  by_cases lt : y < q.blocks.size
  · have length := ssa.length_phisOf input lt v
    rw [(phiVars.nodup y).count] at length
    constructor
    · rw [← length_pos_iff_exists_mem, length]
      split <;> simp_all
    · rw [length]
      split <;> decide
  · have noPhis : r.phisOf y v = [] := by
      rw [phisOf, block_of_size_le r (ssa.size ▸ Nat.le_of_not_lt lt)]
      rfl
    have absent : v ∉ vars y := fun isPlaced => lt (placed.mp isPlaced).2.lt_size
    simp [noPhis, absent]

/-- A loop around a choice that may assign `x`. -/
def Program.maybeText : String :=
  "Int f(Int a) \x7b Int x; x = 0; P: if (a <= 0) goto Q; if (a > 5) goto R; x = 1; " ++
    "R: a = a - 1; goto P; Q: return x; \x7d"

/-- Definitions of `x` meet where the choice ends, and from there, in a block that does not write
`x`, at the head of the loop. -/
theorem Procedure.phisOf_constructSsa_maybe : ∃ q t, Program.firstGraph? Program.maybeText =
      some (q, t) ∧ q.InIteratedFrontier (fun x => ∃ i ∈ (q.block x).insts, 1 ∈ i.defs) 2 ∧
      ((q.constructSsa t (.ofTree q t)).1.phisOf 2 1).length ≤ 1 := by
  have evaluated : ((Program.firstGraph? Program.maybeText).bind fun graph =>
      ((graph.1.constructSsa graph.2 (.ofTree graph.1 graph.2)).1.phisOf 2 1).head?.map (·.dst)) =
        some 3 := by
    decide +kernel
  obtain ⟨⟨q, t⟩, found, evaluated⟩ := Option.bind_eq_some_iff.mp evaluated
  obtain ⟨phi, isHead, -⟩ := Option.map_eq_some_iff.mp evaluated
  obtain ⟨program, p, read, mem, graph, tree⟩ := Program.exists_of_firstGraph found
  obtain ⟨placed, once⟩ := phisOf_constructSsa read mem graph tree 1 2
  exact ⟨q, t, found, (placed.mp ⟨phi, mem_phisOf.mp (mem_of_head? isHead)⟩).2, once⟩

end ArmBackend
