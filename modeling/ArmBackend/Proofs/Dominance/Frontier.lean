import ArmBackend.Proofs.Dominance.Preorder

/-!
Contract: frontiers and their closure.

Owns: membership of frontiers, the closure of iterated frontiers, and what the closure means along a
climb from a predecessor of a block to the parent of that block.
-/

namespace ArmBackend

open List Procedure

namespace Frontiers

variable {p : Procedure} {t : DomTree}

variable {q top x y : BlockId}
variable {blocks : List BlockId}

theorem frontier_ofTree (lt : x < p.blocks.size) : (ofTree p t).frontier x =
      (p.blockIds.filter fun y => 2 ≤ (p.block y).preds.length).filter
        fun y => (climbers p t y).contains x := by
  rw [frontier, ofTree]
  simp [blockIds, lt, filter_map, Function.comp_def]

theorem frontier_outside (outside : p.blocks.size ≤ x) : (ofTree p t).frontier x = [] := by
  rw [frontier, ofTree]
  apply Tables.getD_of_size_le
  simpa [blockIds] using outside

private theorem nodup_frontier (x : BlockId) : ((ofTree p t).frontier x).Nodup := by
  by_cases lt : x < p.blocks.size
  · rw [frontier_ofTree lt]
    exact (nodup_range.filter _).filter _
  · rw [frontier_outside (Nat.le_of_not_lt lt)]
    exact nodup_nil

theorem lt_of_mem_frontier (mem : y ∈ (ofTree p t).frontier x) :
    y < p.blocks.size ∧ 2 ≤ (p.block y).preds.length := by
  by_cases lt : x < p.blocks.size
  · rw [frontier_ofTree lt] at mem
    have isJoin := mem_filter.mp (mem_filter.mp mem).1
    exact ⟨mem_blockIds.mp isJoin.1, by simpa using isJoin.2⟩
  · rw [frontier_outside (Nat.le_of_not_lt lt)] at mem
    cases mem

/-- A climb from `q` that stops below `top` visits nothing but blocks between the two. -/
theorem between_of_mem_takeWhile (steps : Nat) (above : DomTree.Above t.idom? top q)
    (mem : x ∈ (t.chain steps q).takeWhile fun b => some b ≠ some top) :
    DomTree.Above t.idom? x q ∧ DomTree.Above t.idom? top x ∧ x ≠ top := by
  induction steps generalizing q with
  | zero => cases mem
  | succ steps ih =>
    cases above with
    | refl =>
      rw [DomTree.chain] at mem
      cases isParent : t.idom? top <;> simp [isParent] at mem
    | @up _ c isParent other above =>
      rw [DomTree.chain, isParent] at mem
      dsimp only at mem
      rw [takeWhile_cons] at mem
      split at mem
      · rename_i notTop
        rcases mem_cons.mp mem with rfl | mem
        · exact ⟨.refl, .up isParent other above, by simpa using notTop⟩
        · obtain ⟨lower, between⟩ := ih above mem
          exact ⟨.up isParent other lower, between⟩
      · cases mem

theorem mem_takeWhile_chain (ordered : p.Ordered) (dom : t.Exact p) (steps : Nat)
    (lt : q < p.blocks.size) (enough : DomTree.headroom p q ≤ steps)
    (above : DomTree.Above t.idom? x q) (below : DomTree.Above t.idom? top x)
    (strictly : x ≠ top) : x ∈ (t.chain steps q).takeWhile fun b => some b ≠ some top := by
  induction steps generalizing q with
  | zero =>
    have room := ordered.postIndex_lt lt
    rw [DomTree.headroom] at enough
    omega
  | succ steps ih =>
    have notTop : q ≠ top := by
      rintro rfl
      exact strictly (dom.above_antisymm above below)
    rw [DomTree.chain]
    cases isParent : t.idom? q with
    | none =>
      cases above with
      | refl => simp [notTop]
      | up found other above =>
        rw [isParent] at found
        cases found
    | some c =>
      simp only
      rw [takeWhile_cons_of_pos (by simpa using notTop)]
      rcases above.cases_parent isParent with rfl | higher
      · exact mem_cons_self
      · obtain ⟨inside, later⟩ := dom.parent_lt isParent
        have room := ordered.postIndex_lt inside
        refine mem_cons_of_mem _ (ih inside ?_ higher)
        rw [DomTree.headroom] at enough ⊢
        omega

/-- A join point that is in the frontier of a block has a predecessor below that block, and its
parent above it. -/
theorem between_of_mem_frontier (linked : p.Linked) (dom : t.Exact p)
    (isParent : t.idom? y = some top) (mem : y ∈ (ofTree p t).frontier x) :
    ∃ q ∈ (p.block y).preds, DomTree.Above t.idom? x q ∧ DomTree.Above t.idom? top x ∧ x ≠ top := by
  by_cases lt : x < p.blocks.size
  · rw [frontier_ofTree lt, mem_filter] at mem
    have climbs := mem.2
    rw [climbers, isParent, IndexSet.contains_ofList, List.contains_iff_mem, mem_flatMap] at climbs
    obtain ⟨q, isPred, climbs⟩ := climbs
    have upper := dom.parent_above_pred ((linked.inverse q y).mp isPred) isParent
    exact ⟨q, isPred, between_of_mem_takeWhile _ upper climbs⟩
  · rw [frontier_outside (Nat.le_of_not_lt lt)] at mem
    cases mem

/-- A block on the way from a predecessor of a join point up to the parent of that join point has
the join point in its frontier. -/
theorem mem_frontier (ordered : p.Ordered) (dom : t.Exact p) (linked : p.Linked)
    (edge : y ∈ (p.block q).succs) (join : 2 ≤ (p.block y).preds.length)
    (isParent : t.idom? y = some top) (above : DomTree.Above t.idom? x q)
    (below : DomTree.Above t.idom? top x) (strictly : x ≠ top) :
    y ∈ (ofTree p t).frontier x := by
  have insideY := linked.inside q y edge
  have insideQ := lt_size_of_mem_succs edge
  have insideX := dom.above_lt above insideQ
  rw [frontier_ofTree insideX, mem_filter, mem_filter]
  refine ⟨⟨mem_blockIds.mpr insideY, by simpa using join⟩, ?_⟩
  rw [climbers, IndexSet.contains_ofList, List.contains_iff_mem, mem_flatMap]
  refine ⟨q, (linked.inverse q y).mpr edge, ?_⟩
  rw [isParent]
  apply mem_takeWhile_chain ordered dom _ insideQ _ above below strictly
  have room := DomTree.headroom_le p q
  rw [dom.size]
  omega

theorem frontier_entry (dom : t.Exact p) (wf : p.WellFormed) :
    (ofTree p t).frontier entry = [] := by
  refine eq_nil_iff_forall_not_mem.mpr fun y mem => ?_
  have inside := lt_of_mem_frontier mem
  have other : y ≠ entry := by
    rintro rfl
    rw [wf.preds_entry] at inside
    exact absurd inside.2 (by decide)
  obtain ⟨top, isParent, -⟩ := dom.parent y inside.1 other
  obtain ⟨q, -, -, below, strictly⟩ := between_of_mem_frontier wf.linked dom isParent mem
  exact strictly below.eq_entry.symm

/-! ## Iterated frontiers -/

theorem iterated_eq_empty {f : Frontiers} (none : ∀ b ∈ blocks, f.frontier b = []) :
    f.iterated blocks = .empty := by
  have closed : ∀ steps, f.closeFrom steps blocks .empty = .empty := by
    intro steps
    induction blocks generalizing steps with
    | nil => cases steps <;> rfl
    | cons b blocks ih =>
      rw [forall_mem_cons] at none
      cases steps with
      | zero => rfl
      | succ steps =>
        rw [closeFrom, none.1]
        exact ih none.2 steps
  exact closed _

/-- What every block with `s` in its frontier shares with its parent is the same at the end of a
predecessor of `s` and at the end of the parent of `s`. -/
theorem value_at_edge (ordered : p.Ordered) (dom : t.Exact p) (wf : p.WellFormed)
    {α : Type} (value : BlockId → α) {s : BlockId} (edge : s ∈ (p.block q).succs)
    (isParent : t.idom? s = some top)
    (same : ∀ y c, s ∈ (ofTree p t).frontier y → t.idom? y = some c → value y = value c) :
    value q = value top := by
  obtain ⟨lt, other⟩ := wf.inside q s edge
  by_cases join : 2 ≤ (p.block s).preds.length
  · apply dom.climb value (dom.parent_above_pred edge isParent)
    intro y c above below strictly
    have linked := wf.linked
    exact same y c (mem_frontier ordered dom linked edge join isParent above below strictly)
  · have mem := (wf.mem_preds lt).mpr edge
    have lone : ∀ d ∈ (p.block s).preds, d = q := by
      match preds : (p.block s).preds with
      | [] =>
        rw [preds] at mem
        cases mem
      | [d] =>
        rw [preds] at mem
        simpa [eq_comm] using mem
      | _ :: _ :: _ =>
        rw [preds] at join
        exact absurd (Nat.le_add_left 2 _) join
    rw [dom.parent_of_lone ordered wf.linked other edge lone, Option.some.injEq] at isParent
    rw [isParent]

/-- A set that holds the frontiers of some blocks and of its own members, and nothing but join
points. -/
structure Closure (p : Procedure) (f : Frontiers) (blocks : List BlockId) (set : IndexSet) :
    Prop where
  base : ∀ b ∈ blocks, ∀ y ∈ f.frontier b, set.contains y = true
  step : ∀ b, set.contains b = true → ∀ y ∈ f.frontier b, set.contains y = true
  joins : ∀ y, set.contains y = true → y < p.blocks.size ∧ 2 ≤ (p.block y).preds.length

/-- What holds while frontiers are collected: the frontiers of everything found, and of the blocks
started from, are found, except for those still pending. -/
structure Closing (p : Procedure) (f : Frontiers) (blocks pending : List BlockId)
    (found : IndexSet) : Prop where
  base : ∀ b ∈ blocks, b ∈ pending ∨ ∀ y ∈ f.frontier b, found.contains y = true
  step : ∀ b, found.contains b = true → b ∈ pending ∨ ∀ y ∈ f.frontier b, found.contains y = true
  joins : ∀ y, found.contains y = true → y < p.blocks.size ∧ 2 ≤ (p.block y).preds.length

/-- The blocks that are not found yet. -/
def missing (p : Procedure) (found : IndexSet) :
    List BlockId := (List.range p.blocks.size).filter (!found.contains ·)

theorem missing_length {new : List BlockId} {found : IndexSet} (nodup : new.Nodup)
    (fresh : ∀ y ∈ new, y < p.blocks.size ∧ found.contains y = false) :
    (missing p (found.insertMany new)).length + new.length = (missing p found).length := by
  have split : (missing p found).Perm (missing p (found.insertMany new) ++ new) := by
    apply (perm_ext_iff_of_nodup (nodup_range.filter _) ?_).mpr
    · intro y
      by_cases isNew : y ∈ new
      · simp [missing, isNew, fresh y isNew]
      · simp [missing, isNew]
    · apply nodup_append.mpr
      refine ⟨nodup_range.filter _, nodup, ?_⟩
      rintro y mem z inNew rfl
      simp [missing, inNew] at mem
  rw [split.length_eq, length_append]

private theorem Closing.closure (closing : Closing p (ofTree p t) blocks [] found) :
    Closure p (ofTree p t) blocks found := by
  refine ⟨fun b mem => ?_, fun b mem => ?_, closing.joins⟩
  · exact (closing.base b mem).resolve_left (by simp)
  · exact (closing.step b mem).resolve_left (by simp)

private theorem closure_closeFrom (steps : Nat) (pending : List BlockId)
    (found : IndexSet) (closing : Closing p (ofTree p t) blocks pending found)
    (enough : pending.length + (missing p found).length ≤ steps) :
    Closure p (ofTree p t) blocks ((ofTree p t).closeFrom steps pending found) := by
  induction steps generalizing pending found with
  | zero =>
    have none : pending = [] := eq_nil_of_length_eq_zero (by omega)
    subst none
    rw [closeFrom]
    · exact closing.closure
    · simp
  | succ steps ih =>
    cases pending with
    | nil =>
      rw [closeFrom]
      · exact closing.closure
      · simp
    | cons b pending =>
      rw [closeFrom]
      generalize isNew : ((ofTree p t).frontier b).filter (!found.contains ·) = new
      have fresh : ∀ y ∈ new, y < p.blocks.size ∧ found.contains y = false := by
        intro y mem
        rw [← isNew] at mem
        obtain ⟨inFrontier, absent⟩ := mem_filter.mp mem
        exact ⟨(lt_of_mem_frontier inFrontier).1, by simpa using absent⟩
      have frontierFound : ∀ y ∈ (ofTree p t).frontier b, (found.insertMany new).contains y =
          true := by
        intro y mem
        by_cases old : found.contains y = true
        · simp [old]
        · have inNew : y ∈ new := by
            rw [← isNew]
            exact mem_filter.mpr ⟨mem, by simpa using old⟩
          simp [inNew]
      have later :
          ∀ x, (x ∈ b :: pending ∨ ∀ y ∈ (ofTree p t).frontier x, found.contains y = true) →
          x ∈ new ++ pending ∨ ∀ y ∈ (ofTree p t).frontier x, (found.insertMany new).contains y =
            true := by
        intro x known
        rcases known with waiting | known
        · rcases mem_cons.mp waiting with rfl | waiting
          · exact .inr frontierFound
          · exact .inl (mem_append_right _ waiting)
        · exact .inr fun y mem => by simp [known y mem]
      apply ih
      · refine ⟨fun x mem => later x (closing.base x mem), fun x mem => ?_, ?_⟩
        · rw [IndexSet.contains_insertMany, Bool.or_eq_true, List.contains_iff_mem] at mem
          rcases mem with old | inNew
          · exact later x (closing.step x old)
          · exact .inl (mem_append_left _ inNew)
        · intro y mem
          rw [IndexSet.contains_insertMany, Bool.or_eq_true, List.contains_iff_mem] at mem
          rcases mem with old | inNew
          · exact closing.joins y old
          · rw [← isNew] at inNew
            exact lt_of_mem_frontier (mem_filter.mp inNew).1
      · have nodup : new.Nodup := isNew ▸ (nodup_frontier b).filter _
        have share := missing_length nodup fresh
        rw [length_append]
        rw [length_cons] at enough
        omega

theorem closure_iterated (blocks : List BlockId) :
    Closure p (ofTree p t) blocks ((ofTree p t).iterated blocks) := by
  apply closure_closeFrom
  · refine ⟨fun b mem => .inl mem, ?_, ?_⟩ <;> simp
  · have all : (missing p .empty).length ≤ p.blocks.size := by
      have atMost := length_filter_le (!IndexSet.empty.contains ·) (List.range p.blocks.size)
      rwa [length_range] at atMost
    have size : (ofTree p t).sets.size = p.blocks.size := by simp [ofTree, blockIds]
    rw [size]
    omega

/-- What holds of the frontiers of some blocks, and of the frontier of every block it holds of,
holds throughout their iterated frontier. -/
theorem closeFrom_induction {f : Frontiers} (holds : BlockId → Prop)
    (closed : ∀ x, holds x → ∀ y ∈ f.frontier x, holds y) (steps : Nat) (pending : List BlockId)
    (found : IndexSet) (known : ∀ y, found.contains y = true → holds y)
    (next : ∀ x ∈ pending, ∀ y ∈ f.frontier x, holds y) {y : BlockId}
    (mem : (f.closeFrom steps pending found).contains y = true) : holds y := by
  fun_induction closeFrom f steps pending found with
  | case1 steps b pending found new ih =>
    rw [forall_mem_cons] at next
    have holdsNew : ∀ x ∈ new, holds x := fun x isNew => next.1 x (mem_filter.mp isNew).1
    refine ih (fun x isFound => ?_) (fun x waiting => ?_) mem
    · rw [IndexSet.contains_insertMany, Bool.or_eq_true, List.contains_iff_mem] at isFound
      exact isFound.elim (known x) (holdsNew x)
    · rcases mem_append.mp waiting with isNew | waiting
      · exact closed x (holdsNew x isNew)
      · exact next.2 x waiting
  | case2 found => exact known y mem

end Frontiers

end ArmBackend
